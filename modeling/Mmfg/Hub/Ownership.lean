import Mmfg.Hub.Grants
import Mmfg.Hub.Complete

/-!
# Blocks and slots have one owner

Blocks and slots belong to one connection each, as long as nobody else gives them back and nobody
writes to a header that is not theirs; and while every growth of a stripe is known to the connection
when it writes the header or is closed, no block is lost.  `CleanupResources` does the former to a
connection that still has a slot owned by the node that went away, and a call of `Next` that fails
after an expansion was granted leaves a connection that does not know of its blocks.
-/

namespace Mmfg.Hub

open Shm

variable {s t : State} {i j : ℕ} {l : Bool}

/-! ## Invariants together -/

/-- The invariants on which ownership rests. -/
structure Owned (lossless : Bool) (s : State) : Prop where
  tokens : Tokens s
  asking : Asking s
  own : Own lossless s

theorem owned_init {s : State} (h : hub.Init s) : Owned l s := by
  rw [show s = newHub s.mem from h]
  exact ⟨tokens_newHub _, asking_newHub _, own_newHub l _⟩

theorem Owned.step {a : Action} (h : Owned l s) (hmatch : NoMatch s a) (hlive : Live s a)
    (href : RefusedStops s a) (hwait : Waits s a) (hidle : RefusedIdle s a)
    (hfit : SequencesFit s a) (hkeep : l = true → KeepsUp s a) (hs : hub.step s a = some t) :
    Owned l t :=
  ⟨tokens_step h.tokens hmatch hlive href hs,
    asking_step h.asking h.tokens hmatch hlive hwait hidle hs,
    own_step h.own h.tokens h.asking hmatch hwait hidle hfit hkeep hs⟩

/-- The blocks that the header of connection `i` names. -/
def State.stripeBlocks (s : State) (i : ℕ) : List BlockId :=
  Shm.resolve 0 (decodeHeader (s.mem (s.conns i).header)).2.2

theorem Stock.stripeBlocks {granted taken lost : List BlockId} (h : Stock s i granted taken lost)
    (ho : (s.conns i).pc.isOpen = true) :
    s.stripeBlocks i = (s.conns i).stripe.blocks ++ granted := by
  rw [State.stripeBlocks, h.decoded ho]
  exact resolve_encode (h.good ho).blk

theorem Own.ledger (h : Own l s) (ho : (s.conns i).pc.isOpen = true) {b : BlockId}
    (hb : b ∈ s.stripeBlocks i) : s.ledger b = some i := by
  obtain ⟨granted, taken, lost, -, hst, -⟩ := h.conn i
  rw [hst.stripeBlocks ho] at hb
  exact hst.ledger ho hb

theorem Own.blocks_subset (h : Own l s) (ho : (s.conns i).pc.isOpen = true) :
    (s.conns i).stripe.blocks ⊆ s.stripeBlocks i := by
  obtain ⟨granted, taken, lost, -, hst, -⟩ := h.conn i
  rw [hst.stripeBlocks ho]
  exact List.subset_append_left _ _

theorem Own.used (h : Own l s) (ho : (s.conns i).pc.isOpen = true) {b : BlockId}
    (hb : b ∈ s.stripeBlocks i) : s.used b = true := by
  rw [h.books.used, h.ledger ho hb]
  exact .inr (Option.some_ne_none i)

theorem Own.disjoint (h : Own l s) (hi : (s.conns i).pc.isOpen = true)
    (hj : (s.conns j).pc.isOpen = true) (hne : i ≠ j) :
    (s.stripeBlocks i).Disjoint (s.stripeBlocks j) := by
  intro b hbi hbj
  have := h.ledger hi hbi
  rw [h.ledger hj hbj] at this
  exact hne (Option.some.inj this).symm

theorem Conn.heldSlot_of_open {c : Conn} (h : c.WF) (ho : c.pc.isOpen = true)
    (hslot : c.slotID ≠ 0) : c.heldSlot = some c.slotID := by
  have hunbound : ¬ c.Unbound := fun hu => hslot hu.1
  cases hpc : c.pc with
  | setHeader u slot | setOwner u slot | setStatus u slot =>
    cases u with
    | handoff d =>
      simp only [Conn.WF, hpc] at h
      simp only [Conn.heldSlot, hpc, h.1]
    | request | next d =>
      simp only [Conn.WF, hpc] at h
      exact absurd h.2 hunbound
  | getDone u slot =>
    cases u with
    | handoff d => simp only [Conn.WF, hpc] at h
    | request | next d =>
      simp only [Conn.WF, hpc] at h
      exact absurd h.2 hunbound
  | dropDone | closed =>
    rw [hpc] at ho
    cases ho
  | _ =>
    simp only [Conn.heldSlot, hpc]
    exact if_neg hslot

theorem Slots.slotID_ne (h : Slots s) (hi : (s.conns i).pc.isOpen = true)
    (hj : (s.conns j).pc.isOpen = true) (hne : i ≠ j) (hslot : (s.conns i).slotID ≠ 0) :
    (s.conns i).slotID ≠ (s.conns j).slotID := by
  intro he
  have h1 := Conn.heldSlot_of_open (h.wf i) hi hslot
  have h2 := Conn.heldSlot_of_open (h.wf j) hj (he ▸ hslot)
  rw [← he] at h2
  exact hne (h.slot_inj i j _ h1 h2)

/-! ## Conditions that can be checked -/

instance (s : State) : (a : Action) → Decidable (NoMatch s a)
  | .watch d => decidable_of_iff ((match (s.sessions d).watch with
      | .owner i => decide ((s.reg i).owner ≠ d.1)
      | _ => true) = true) <| by
      cases hw : (s.sessions d).watch <;> simp [NoMatch, hw]
  | .dial .. | .conn .. | .disp _ | .exp .. | .pop _ | .hand .. => .isTrue trivial

instance (s : State) : (a : Action) → Decidable (Live s a)
  | .pop _ => inferInstanceAs (Decidable (∀ _ ∈ _, _ → _ ∧ _))
  | .conn i .fail => decidable_of_iff ((match (s.conns i).pc with
      | .notify d =>
        decide (∃ m ∈ s.reqQ d.1, m.cmd = .process ∧ m.tag = (i, (s.conns i).handoffs))
      | _ => true) = true) <| by
      cases hpc : (s.conns i).pc <;> simp [Live, hpc]
  | .conn _ (.request ..) | .conn _ (.take _) | .conn _ (.pick _) | .conn _ (.write ..)
  | .conn _ (.poke ..) | .conn _ (.next _) | .conn _ .close | .conn _ .run => .isTrue trivial
  | .watch _ | .dial .. | .disp _ | .exp .. | .hand .. => .isTrue trivial

instance (s : State) : (a : Action) → Decidable (Waits s a)
  | .hand .. => inferInstanceAs (Decidable (∀ _ ∈ _, _))
  | .watch _ | .dial .. | .conn .. | .disp _ | .exp .. | .pop _ => .isTrue trivial

instance (s : State) : (a : Action) → Decidable (RefusedIdle s a)
  | .hand _ (.poke ..) | .hand _ (.setLen _) | .hand _ .request =>
    inferInstanceAs (Decidable (∀ _ ∈ _, _))
  | .hand _ .run | .hand _ .reload | .hand _ .finish | .hand _ .panic => .isTrue trivial
  | .watch _ | .dial .. | .conn .. | .disp _ | .exp .. | .pop _ => .isTrue trivial

instance (s : State) (i : ℕ) : Decidable (s.UpToDate i) := inferInstanceAs (Decidable (_ = _))

instance (s : State) : (a : Action) → Decidable (SequencesFit s a)
  | .conn i .run => decidable_of_iff ((match (s.conns i).pc with
      | .alloc _ _ held => decide ((allocStripe held).sequence.length ≤ HeaderEntries)
      | .grow _ _ _ held =>
        decide (((s.conns i).stripe.allocBlocks held).sequence.length ≤ HeaderEntries)
      | _ => true) = true) <| by
      cases hpc : (s.conns i).pc <;> simp [SequencesFit, hpc]
  | .exp e .run => decidable_of_iff (((s.exps e).all fun x => match x.pc with
      | .alloc _ m held => decide ((m.append held).2.2.length ≤ HeaderEntries)
      | _ => true) = true) <| by
      cases hx : s.exps e with
      | none => simp [SequencesFit, hx]
      | some x => cases hpc : x.pc <;> simp [SequencesFit, hx, hpc]
  | .conn _ (.request ..) | .conn _ (.take _) | .conn _ (.pick _) | .conn _ (.write ..)
  | .conn _ (.poke ..) | .conn _ (.next _) | .conn _ .close | .conn _ .fail => .isTrue trivial
  | .exp _ (.take _) | .exp _ .fail => .isTrue trivial
  | .watch _ | .dial .. | .disp _ | .pop _ | .hand .. => .isTrue trivial

instance (s : State) : (a : Action) → Decidable (KeepsUp s a)
  | .conn i .close => inferInstanceAs (Decidable (s.UpToDate i))
  | .conn i .run => decidable_of_iff ((match (s.conns i).pc with
      | .grow .. => decide (s.UpToDate i)
      | _ => true) = true) <| by
      cases hpc : (s.conns i).pc <;> simp [KeepsUp, hpc]
  | .conn _ (.request ..) | .conn _ (.take _) | .conn _ (.pick _) | .conn _ (.write ..)
  | .conn _ (.poke ..) | .conn _ (.next _) | .conn _ .fail => .isTrue trivial
  | .watch _ | .dial .. | .disp _ | .exp .. | .pop _ | .hand .. => .isTrue trivial

/-! ## Exclusive ownership -/

/-- `CleanupResources` finds no slot to free; a node takes only requests of calls of `Next` that are
still in progress; a handler waits for its expansions, does nothing more once one is refused, and
sequences fit into their header. -/
def Careful (s : State) (a : Action) : Prop :=
  NoMatch s a ∧ Live s a ∧ RefusedStops s a ∧ Waits s a ∧ RefusedIdle s a ∧ SequencesFit s a

instance (s : State) (a : Action) : Decidable (Careful s a) :=
  inferInstanceAs (Decidable (_ ∧ _ ∧ _ ∧ _ ∧ _ ∧ _))

theorem owned_of_careful (hr : hub.Reaches Careful s) : Owned false s := by
  refine hr.invariant (fun s hs => owned_init hs) fun s a t _ h hok hs => ?_
  obtain ⟨hmatch, hlive, href, hwait, hidle, hfit⟩ := hok
  exact h.step hmatch hlive href hwait hidle hfit (fun hl => by cases hl) hs

/-- Blocks and slots of two open connections are different, and the blocks are marked used. -/
theorem exclusive_ownership (hr : hub.Reaches Careful s) :
    (∀ i j, (s.conns i).pc.isOpen = true → (s.conns j).pc.isOpen = true → i ≠ j →
      (s.conns i).stripe.blocks.Disjoint (s.conns j).stripe.blocks ∧
      (s.stripeBlocks i).Disjoint (s.stripeBlocks j) ∧
      ((s.conns i).slotID ≠ 0 → (s.conns i).slotID ≠ (s.conns j).slotID)) ∧
    ∀ i, (s.conns i).pc.isOpen = true → (s.conns i).stripe.blocks ⊆ s.stripeBlocks i ∧
      ∀ b ∈ s.stripeBlocks i, s.used b = true := by
  obtain ⟨hT, -, hown⟩ := owned_of_careful hr
  refine ⟨fun i j hi hj hne => ⟨?_, hown.disjoint hi hj hne, hT.slots.slotID_ne hi hj hne⟩,
    fun i ho => ⟨hown.blocks_subset ho, fun b hb => hown.used ho hb⟩⟩
  intro b hbi hbj
  exact hown.disjoint hi hj hne (hown.blocks_subset hi hbi) (hown.blocks_subset hj hbj)

/-- `Request` of connection `i` with one block `b` and slot `slot`. -/
def requestRun (i : ℕ) (b : BlockId) (slot ch : ℕ) : List Action :=
  List.flatten [[.conn i (.request 0 true), .conn i (.take [b]), .conn i .run, .conn i (.pick slot)],
    List.replicate 3 (.conn i .run), [.conn i (.pick ch)]]

/-- A handoff of connection 0, which has slot 1, to node 1, up to the point where its handler runs. -/
def handoffRun : List Action :=
  List.flatten [[.conn 0 (.next 0)], List.replicate 8 (.conn 0 .run), [.pop (1, 0)],
    List.replicate 2 (.hand (0, 1) .run)]

/-- The end of the handler, and of the call of `Next`. -/
def returnRun : List Action :=
  List.flatten [[.hand (0, 1) .finish], List.replicate 2 (.hand (0, 1) .run),
    List.replicate 3 (.disp 0), List.replicate 3 (.conn 0 .run)]

/-- Two connections, one of which has been handed to a node and back, with a slot each. -/
theorem exclusive_ownership_run : ∃ s, hub.Reaches Careful s ∧
    (s.conns 0).slotID = 1 ∧ (s.conns 1).slotID = 2 ∧
    (s.conns 0).stripe.blocks.Disjoint (s.conns 1).stripe.blocks ∧ s.used (-1, 256) = true := by
  obtain ⟨s, hr, hp⟩ := System.exists_reaches_of_runWith hub Careful
    (List.flatten [[.dial (1, 0) 0 .go], requestRun 0 (-1, 256) 1 0, handoffRun, returnRun,
      requestRun 1 (-1, 257) 2 1])
    (fun s => decide ((s.conns 0).pc = .opened ∧ (s.conns 1).pc = .opened ∧
      (s.conns 0).slotID = 1 ∧ (s.conns 1).slotID = 2 ∧ (-1, 256) ∈ (s.conns 0).stripe.blocks))
    (s := newHub fun _ _ => 0) rfl (by decide +kernel)
  obtain ⟨h0, h1, hs0, hs1, hb⟩ := of_decide_eq_true hp
  have ho0 : (s.conns 0).pc.isOpen = true := by rw [h0]; rfl
  have ho1 : (s.conns 1).pc.isOpen = true := by rw [h1]; rfl
  obtain ⟨hdisj, hused⟩ := exclusive_ownership hr
  exact ⟨s, hr, hs0, hs1, (hdisj 0 1 ho0 ho1 (by decide)).1, (hused 0 ho0).2 _ ((hused 0 ho0).1 hb)⟩

/-- A node disconnects after a handoff; `CleanupResources` frees slot and block of the connection, which
is still open, and another one gets them. -/
theorem cleanup_frees_open_connection : ∃ s, hub.Reachable s ∧
    (s.conns 0).pc = .opened ∧ (s.conns 1).pc = .opened ∧
    (s.conns 0).slotID = 1 ∧ (s.conns 1).slotID = 1 ∧
    (-1, 256) ∈ (s.conns 0).stripe.blocks ∧ (-1, 256) ∈ (s.conns 1).stripe.blocks := by
  obtain ⟨s, hr, hp⟩ := System.exists_reachable_of_run hub
    (List.flatten [[.dial (1, 0) 0 .go], requestRun 0 (-1, 256) 1 0, handoffRun, returnRun,
      List.replicate 9 (.watch (1, 0)), requestRun 1 (-1, 256) 1 1])
    (fun s => decide ((s.conns 0).pc = .opened ∧ (s.conns 1).pc = .opened ∧
      (s.conns 0).slotID = 1 ∧ (s.conns 1).slotID = 1 ∧
      (-1, 256) ∈ (s.conns 0).stripe.blocks ∧ (-1, 256) ∈ (s.conns 1).stripe.blocks))
    (s := newHub fun _ _ => 0) rfl (by decide +kernel)
  exact ⟨s, hr, of_decide_eq_true hp⟩

/-! ## No block is lost -/

/-- No node disconnects, handlers are careful, and a connection writes its header, or is closed, only
when it knows of all blocks in it. -/
def Lossless (s : State) (a : Action) : Prop :=
  NoDisconnect s a ∧ RefusedStops s a ∧ Waits s a ∧ RefusedIdle s a ∧ SequencesFit s a ∧ KeepsUp s a

instance (s : State) (a : Action) : Decidable (Lossless s a) :=
  inferInstanceAs (Decidable (_ ∧ _ ∧ _ ∧ _ ∧ _ ∧ _))

theorem owned_of_lossless (hr : hub.Reaches Lossless s) : Owned true s ∧ Open s := by
  refine hr.invariant (I := fun s => Owned true s ∧ Open s) (fun s hs => ⟨owned_init hs, ?_⟩)
    fun s a t _ h hok hs => ?_
  · rw [show s = newHub s.mem from hs]
    exact open_newHub _
  · obtain ⟨hdis, href, hwait, hidle, hfit, hkeep⟩ := hok
    exact ⟨h.1.step hdis.noMatch (h.2.live hs) href hwait hidle hfit (fun _ => hkeep) hs,
      open_step h.2 h.1.tokens hdis hs⟩

/-- A connection that has no stripe and is not busy with blocks has none. -/
theorem Owned.ledger_ne (h : Owned true s) (hpc : (s.conns i).pc.isOpen = false)
    (hbase : (s.conns i).base = []) (b : BlockId) : s.ledger b ≠ some i := by
  obtain ⟨granted, taken, lost, hl, hst, hw⟩ := h.own.conn i
  have ha : (s.conns i).pc.awaits = false := by
    by_contra ha
    rw [ConnPC.isOpen_of_awaits (Bool.not_eq_false _ ▸ ha)] at hpc
    cases hpc
  rw [Ne, hst.holds.2 b, hbase, hst.closed hpc, (h.asking.noWork h.tokens ha).taken_eq hw, hl rfl]
  exact List.not_mem_nil

/-- No block is recorded for a connection that has been closed, and a block that is marked used and is
not of the control stripe is recorded for some connection; so that when all are closed only the
control stripe is marked. -/
theorem no_block_lost (hr : hub.Reaches Lossless s) :
    (∀ i, (s.conns i).pc = .closed → ∀ b, s.ledger b ≠ some i) ∧
    (∀ b, s.used b = true ↔ controlBlock b = true ∨ s.ledger b ≠ none) ∧
    ((∀ i, (s.conns i).pc = .absent ∨ (s.conns i).pc = .closed) →
      ∀ b, s.used b = controlBlock b) := by
  obtain ⟨h, -⟩ := owned_of_lossless hr
  have hclosed : ∀ i, (s.conns i).pc = .absent ∨ (s.conns i).pc = .closed →
      ∀ b, s.ledger b ≠ some i := by
    intro i hpc
    rcases hpc with hpc | hpc
    · exact h.ledger_ne (by rw [hpc]; rfl) (by simp only [Conn.base, hpc])
    · exact h.ledger_ne (by rw [hpc]; rfl) (by simp only [Conn.base, hpc])
  refine ⟨fun i hpc => hclosed i (.inr hpc), h.own.books.used, fun hall b => ?_⟩
  have hnone : s.ledger b = none := by
    cases hb : s.ledger b with
    | none => rfl
    | some i => exact absurd hb (hclosed i (hall i) b)
  rw [Bool.eq_iff_iff, h.own.books.used, hnone]
  simp

/-- An expansion asked for by the handler of connection 0, up to the point where `e` takes blocks. -/
def askRun (e : ℕ) : List Action :=
  List.flatten [[.hand (0, 1) .request], List.replicate 2 (.disp e), List.replicate 3 (.exp e .run)]

/-- The expansion is granted, and the handler looks at the header again. -/
def grantRun (e : ℕ) (blocks : List BlockId) : List Action :=
  List.flatten [[.exp e (.take blocks)], List.replicate 3 (.exp e .run), [.pop (1, 0)],
    [.hand (0, 1) .reload], List.replicate 2 (.hand (0, 1) .run)]

/-- `Close` of connection 0, which has `n` blocks in its copy of the stripe. -/
def closeRun (n : ℕ) : List Action :=
  List.flatten [[.conn 0 .close], List.replicate (n + 5) (.conn 0 .run)]

/-- A connection is closed after a handoff in which an expansion was granted. -/
theorem no_block_lost_run : ∃ s, hub.Reaches Lossless s ∧ (s.conns 0).pc = .closed ∧
    (s.conns 0).stripe.blocks = [(-1, 256), (-1, 257), (-1, 258)] ∧
    ∀ b, s.ledger b ≠ some 0 := by
  obtain ⟨s, hr, hp⟩ := System.exists_reaches_of_runWith hub Lossless
    (List.flatten [[.dial (1, 0) 0 .go], requestRun 0 (-1, 256) 1 0, handoffRun, askRun 0,
      grantRun 0 [(-1, 257), (-1, 258)], returnRun, closeRun 3])
    (fun s => decide ((s.conns 0).pc = .closed ∧
      (s.conns 0).stripe.blocks = [(-1, 256), (-1, 257), (-1, 258)]))
    (s := newHub fun _ _ => 0) rfl (by decide +kernel)
  obtain ⟨hpc, hb⟩ := of_decide_eq_true hp
  exact ⟨s, hr, hpc, hb, (no_block_lost hr).1 0 hpc⟩

/-- A handler gets one expansion and is refused a second one; `Next` returns an error, and `Close`
frees only the block that the connection knows of. -/
theorem refusal_loses_blocks : ∃ s, hub.Reaches NoDisconnect s ∧ (s.conns 0).pc = .closed ∧
    (∃ y, s.handlers (0, 1) = some y ∧ y.pc = .finished) ∧
    s.ledger (-1, 257) = some 0 ∧ s.used (-1, 257) = true ∧ s.used (-1, 258) = true := by
  obtain ⟨s, hr, hp⟩ := System.exists_reaches_of_runWith hub NoDisconnect
    (List.flatten [[.dial (1, 0) 0 .go], requestRun 0 (-1, 256) 1 0, handoffRun, askRun 0,
      grantRun 0 [(-1, 257), (-1, 258)], askRun 1, [.exp 1 .fail], List.replicate 4 (.exp 1 .run),
      [.pop (1, 0), .hand (0, 1) .finish, .conn 0 .run], closeRun 1])
    (fun s => decide ((s.conns 0).pc = .closed ∧
      (s.handlers (0, 1)).map (·.pc) = some .finished ∧ s.ledger (-1, 257) = some 0 ∧
      s.used (-1, 257) = true ∧ s.used (-1, 258) = true))
    (s := newHub fun _ _ => 0) rfl (by decide +kernel)
  obtain ⟨hpc, hfin, hused⟩ := of_decide_eq_true hp
  exact ⟨s, hr, hpc, Option.map_eq_some_iff.1 hfin, hused⟩

end Mmfg.Hub
