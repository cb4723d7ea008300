import Mmfg.Hub.Progress

/-!
# Each handoff is completed once, and by itself

The dispatch loop takes the waiter of a slot out when it completes a handoff, but
`handleExpandRequest` only reads it, and the handler that was refused an expansion may still respond:
a Rust handler always does, a Go handler when it panics.  That response completes whatever handoff of
the slot is waiting by then.  Where a refusal is the last the hub hears of a handler, each handoff
gets exactly one completion, its own.
-/

namespace Mmfg.Hub

open Shm

instance (s : State) : (a : Action) → Decidable (NoDisconnect s a)
  | .watch _ => .isFalse id
  | .dial .. | .conn .. | .disp _ | .exp .. | .pop _ | .hand .. => .isTrue trivial

instance (s : State) (x : Expander) (a : ExpAct) : Decidable (x.Refuses s a) :=
  decidable_of_iff ((match a, x.pc with
    | .run, .check .. => decide ((s.reg x.slot).owner ≠ x.node)
    | .fail, .alloc .. => true
    | _, _ => false) = true) <| by
    cases a <;> cases hpc : x.pc <;> simp [Expander.Refuses, hpc]

instance (s : State) : (a : Action) → Decidable (RefusedStops s a)
  | .exp _ _ => inferInstanceAs (Decidable (∀ _ ∈ _, _))
  | .hand _ .panic => inferInstanceAs (Decidable (∀ _ ∈ _, _ → False))
  | .hand _ .finish => inferInstanceAs (Decidable (∀ _ ∈ _, _ → _ ∧ _))
  | .hand _ .run | .hand _ (.poke ..) | .hand _ (.setLen _) | .hand _ .request
  | .hand _ .reload => .isTrue fun _ _ _ => trivial
  | .watch _ | .dial .. | .conn .. | .disp _ | .pop _ => .isTrue trivial

instance (s : State) (a : Action) : Decidable (Orderly s a) := inferInstanceAs (Decidable (_ ∧ _))

/-- While no node disconnects and a refused expansion ends the handler that asked for it: a call of
`Next` that waits has exactly one source of a completion and can always get it; a source is there only
for a handoff that is waited for; what is received was made for this handoff, by a handler that has
returned or by a refusal; and who sends on a channel finds it empty, so that the dispatch loop is
never stuck. -/
theorem handoff_completed_once {s : State} (hr : hub.Reaches Orderly s) :
    (∀ i, (s.conns i).pc.awaits = true →
      (∃! src, s.Pending (i, (s.conns i).handoffs) src) ∧
      hub.CanReach Orderly (·.Completed (i, (s.conns i).handoffs)) s) ∧
    (∀ h src, s.Pending h src → s.Awaits h) ∧
    (∀ i ch r, (s.conns i).pc = .wait → (s.conns i).done = some ch → s.chans ch = some r →
      r.tag = (i, (s.conns i).handoffs) ∧ (r.ok = true → s.Finished i)) ∧
    (∀ c tag, (s.disp = .send c tag ∨ ∃ e x, s.exps e = some x ∧ x.pc = .send c ∧ x.tag = tag) →
      tag = (c, (s.conns c).handoffs) ∧ ∃ ch, (s.conns c).done = some ch ∧ s.chans ch = none) ∧
    (∀ e, s.exps e = none → s.disp ≠ .idle ∨ s.respQ ≠ [] →
      ∃ t, hub.step s (.disp e) = some t) := by
  obtain ⟨hT, hO⟩ := tokens_open hr
  have hreq : ∀ n, ∀ m ∈ s.reqQ n, m.cmd = .process → s.LiveReq m :=
    fun n m hm hcmd => (hO.req n m hm hcmd).1
  refine ⟨fun i ha => ⟨?_, canComplete hr ⟨ha, rfl⟩⟩, fun h src hp => ?_, fun i ch r hpc hc hch => ?_,
    fun c tag hsend => ?_, fun e he hd => hT.disp_enabled he hd⟩
  · obtain ⟨src, hp⟩ := hT.exists_pending ha
    obtain ⟨tok, hg⟩ := hT.good i
    exact ⟨src, hp, fun src' hp' =>
      hg.pending_unique (h := (i, (s.conns i).handoffs)) hT hreq hp' hp⟩
  · obtain ⟨tok, hg⟩ := hT.good h.1
    obtain ⟨hat, hk⟩ := hg.at_of_pending hT hreq hp
    refine ⟨hg.awaits ?_, hk.symm⟩
    cases tok with
    | none => cases src <;> exact hat.elim
    | _ => rfl
  · have ha : (s.conns i).pc.awaits = true := by rw [hpc]; rfl
    obtain ⟨tok, hg⟩ := hT.good i
    obtain ⟨rfl, htag⟩ := hg.full ((Conn.heldChan_of_awaits ha).trans hc) hch
    exact ⟨htag, hg.ok⟩
  · obtain ⟨tok, hg⟩ := hT.good tag.1
    rcases hsend with hd | ⟨e, x, hx, hpc, rfl⟩
    · obtain ⟨rfl, rfl, hk⟩ := hg.sending hd
      exact ⟨Prod.ext rfl hk, hg.chan_empty (hT.slots.wf _) rfl fun ok => Tok.noConfusion⟩
    · obtain rfl := hg.failing hx (by rw [hpc]; rfl)
      obtain ⟨-, -, htag, hc⟩ := hg.ok
      obtain rfl := hc c hpc
      exact ⟨htag, hg.chan_empty (hT.slots.wf _) rfl fun ok => Tok.noConfusion⟩

/-- The steps of a first handoff of connection 0 to a node that asks for an expansion, up to the
refusal. -/
def refusedHandoff (lang : Lang) : List Action :=
  List.flatten [[.dial (1, 0) 0 lang, .conn 0 (.request 0 true), .conn 0 (.take [(-1, 256)]),
      .conn 0 .run, .conn 0 (.pick 1)], List.replicate 3 (.conn 0 .run), [.conn 0 (.pick 0)],
    [.conn 0 (.next 0)], List.replicate 8 (.conn 0 .run), [.pop (1, 0)],
    List.replicate 2 (.hand (0, 1) .run), [.hand (0, 1) .request, .disp 0, .disp 0],
    List.replicate 3 (.exp 0 .run), [.exp 0 .fail], List.replicate 3 (.exp 0 .run)]

/-- The refusal is about to be told to `Next`, which has this one completion to wait for. -/
theorem handoff_completed_once_refused : ∃ s, hub.Reaches Orderly s ∧
    (∃ x, s.exps 0 = some x ∧ x.pc = .send 0 ∧ x.tag = (0, 1)) ∧ (s.conns 0).pc = .wait ∧
    (∃! src, s.Pending (0, (s.conns 0).handoffs) src) ∧
    ∃ ch, (s.conns 0).done = some ch ∧ s.chans ch = none := by
  obtain ⟨s, hr, hp⟩ := System.exists_reaches_of_runWith hub Orderly (refusedHandoff .go)
    (fun s => decide (s.exps 0 = some ⟨1, 1, (0, 1), .send 0⟩ ∧ (s.conns 0).pc = .wait))
    (s := newHub fun _ _ => 0) rfl (by decide +kernel)
  obtain ⟨hx, hpc⟩ := of_decide_eq_true hp
  obtain ⟨hone, -, -, hsend, -⟩ := handoff_completed_once hr
  have ha : (s.conns 0).pc.awaits = true := by rw [hpc]; rfl
  exact ⟨s, hr, ⟨_, hx, rfl, rfl⟩, hpc, (hone 0 ha).1, (hsend 0 _ (.inr ⟨0, _, hx, rfl, rfl⟩)).2⟩

/-- A Rust handler responds to a handoff after it was refused an expansion, and the response completes
the next handoff of the same slot, which no node has seen. -/
theorem response_completes_next_handoff : ∃ s, hub.Reaches NoDisconnect s ∧
    (s.conns 0).pc = .wait ∧ (s.conns 0).handoffs = 2 ∧ s.handlers (0, 2) = none ∧
    ∃ ch, (s.conns 0).done = some ch ∧ s.chans ch = some ⟨(0, 1), true⟩ := by
  obtain ⟨s, hr, hp⟩ := System.exists_reaches_of_runWith hub NoDisconnect
    (List.flatten [refusedHandoff .rust, [.exp 0 .run, .conn 0 .run, .pop (1, 0)],
      [.hand (0, 1) .finish], List.replicate 2 (.hand (0, 1) .run), [.conn 0 (.next 0)],
      List.replicate 8 (.conn 0 .run), List.replicate 3 (.disp 0)])
    (fun s => decide ((s.conns 0).pc = .wait ∧ (s.conns 0).handoffs = 2 ∧
      s.handlers (0, 2) = none ∧ (s.conns 0).done = some 0 ∧ s.chans 0 = some ⟨(0, 1), true⟩))
    (s := newHub fun _ _ => 0) rfl (by decide +kernel)
  obtain ⟨hpc, hk, hnone, hdone, hch⟩ := of_decide_eq_true hp
  exact ⟨s, hr, hpc, hk, hnone, 0, hdone, hch⟩

end Mmfg.Hub
