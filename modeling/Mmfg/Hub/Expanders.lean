import Mmfg.Expand.Basic
import Mmfg.Hub.Cases

/-!
# One expansion, in the hub and by itself

`Mmfg.Expand` and `Mmfg.Relay` have a `handleExpandRequest` as what it does to one header block: the
answer of `AllocBlocks` is an input, and a refusal by the check of the owner is such an answer, too.
Every step of the goroutine in the hub is some steps of it there, which leave the same header, and no
other block is written (`expander_follows`).
-/

namespace Mmfg.Hub

open Shm
open Expand (ExpanderAct)

/-- The goroutine by itself, with the header block that it works on. -/
def expander : System (Expand.Expander × Bytes) ExpanderAct where
  Init p := p.1 = .started
  step p a := p.1.advance p.2 a

/-- What is in the header of a stripe. -/
def metaOf (stripe : Stripe) : Meta := (stripe.dataLen, stripe.blockCount, stripe.sequence)

/-- The goroutine is at the same point there, on the header block `b`. -/
def ExpPC.Shows (b : BlockId) (y : Expand.Expander) : ExpPC → Prop
  | .header => y = .started
  | .decode b' => b' = b ∧ y = .started
  | .check b' m | .alloc b' m _ => b' = b ∧ ∃ stripe, y = .decoded stripe ∧ metaOf stripe = m
  | .rewrite b' m => b' = b ∧ ∃ stripe blocks, y = .updated stripe blocks ∧ metaOf stripe = m
  | .undo _ => y = .answer none
  | .respond ok => ∃ grant, y = .answer grant ∧ grant.isSome = ok
  | .load | .send _ => y = .answered none
  | .gone => ∃ grant, y = .answered grant

variable {s t : State} {e : ℕ} {x : Expander} {a : ExpAct} {b : BlockId} {y : Expand.Expander}

/-- The step of the hub is matched. -/
structure Follows (s t : State) (e : ℕ) (b : BlockId) (y : Expand.Expander) : Prop where
  run : ∃ as y' x', expander.run (y, s.mem b) as = some (y', t.mem b) ∧ t.exps e = some x' ∧
    x'.pc.Shows b y'
  frame : ∀ b', b' ≠ b → t.mem b' = s.mem b'

theorem Follows.of_mem_eq {x' : Expander} (as : List ExpanderAct) {y' : Expand.Expander}
    (hmem : t.mem = s.mem) (hr : expander.run (y, s.mem b) as = some (y', s.mem b))
    (ht : t.exps e = some x') (hx : x'.pc.Shows b y') : Follows s t e b y where
  run := ⟨as, y', x', by rw [hr, hmem], ht, hx⟩
  frame b' _ := by rw [hmem]

theorem mem_putMeta (s : State) (b : BlockId) (stripe : Stripe) :
    (s.putMeta b (metaOf stripe)).mem b = stripe.updateHeader (s.mem b) := Function.update_self ..

/-- A step of the goroutine in the hub is some steps of it by itself. -/
theorem expander_follows (hs : stepExp s e a = some t) (hx : s.exps e = some x)
    (hb : x.pc = .header → (s.reg x.slot).header = b) (hy : x.pc.Shows b y) : Follows s t e b y := by
  obtain ⟨x', hx', hs⟩ := expStep_of_step hs
  obtain rfl : x = x' := Option.some.inj (hx.symm.trans hx')
  have hself : ∀ (u : State) (z : Expander), (u.setExp e z).exps e = some z := fun u z =>
    Function.update_self ..
  cases hs with
  | header hpc =>
    rw [hpc] at hy
    exact .of_mem_eq [] rfl rfl (hself ..) ⟨hb hpc, hy⟩
  | decode hpc =>
    rw [hpc] at hy
    obtain ⟨rfl, rfl⟩ := hy
    exact .of_mem_eq [.decode] rfl rfl (hself ..) ⟨rfl, _, rfl, rfl⟩
  | check hpc _ | take hpc _ | undo hpc | load hpc _ =>
    rw [hpc] at hy
    exact .of_mem_eq [] rfl rfl (hself ..) hy
  | refuse hpc ho =>
    rw [hpc] at hy
    obtain ⟨rfl, stripe, rfl, -⟩ := hy
    exact .of_mem_eq [.alloc none] rfl rfl (hself ..) ⟨none, rfl, rfl⟩
  | @commit b' m held hpc hn =>
    rw [hpc] at hy
    obtain ⟨rfl, stripe, rfl, rfl⟩ := hy
    -- the goroutine is told of the blocks, and `AllocBlocksForStripe` writes the header
    refine ⟨⟨[.alloc (some held), .update], .updated (stripe.allocBlocks held) held, _, ?_,
      hself .., rfl, _, _, rfl, rfl⟩, fun b'' hne => Function.update_of_ne hne ..⟩
    exact congrArg (fun bytes => some (_, bytes)) (mem_putMeta s b' (stripe.allocBlocks held)).symm
  | fail hpc =>
    rw [hpc] at hy
    obtain ⟨rfl, stripe, rfl, -⟩ := hy
    exact .of_mem_eq [.alloc none] rfl rfl (hself ..) rfl
  | @rewrite b' m hpc =>
    rw [hpc] at hy
    obtain ⟨rfl, stripe, blocks, rfl, rfl⟩ := hy
    refine ⟨⟨[.update], .answer (some blocks), _, ?_, hself .., _, rfl, rfl⟩,
      fun b'' hne => Function.update_of_ne hne ..⟩
    exact congrArg (fun bytes => some (_, bytes)) (mem_putMeta s b' stripe).symm
  | undoEnd hpc =>
    rw [hpc] at hy
    exact .of_mem_eq [] rfl rfl (hself ..) ⟨none, hy, rfl⟩
  | ready hpc | readyLost hpc =>
    rw [hpc] at hy
    obtain ⟨grant, rfl, -⟩ := hy
    exact .of_mem_eq [.respond] rfl rfl (hself ..) ⟨grant, rfl⟩
  | error hpc | errorLost hpc =>
    rw [hpc] at hy
    obtain ⟨grant, rfl, hgrant⟩ := hy
    obtain rfl : grant = none := by simpa using hgrant
    exact .of_mem_eq [.respond] rfl rfl (hself ..) rfl
  | loadNil hpc _ | send hpc _ _ =>
    rw [hpc] at hy
    exact .of_mem_eq [] rfl rfl (hself ..) ⟨none, hy⟩

end Mmfg.Hub
