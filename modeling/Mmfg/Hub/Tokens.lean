import Mmfg.Hub.Slots

/-!
# Tokens

While `Next` waits, exactly one party is bound to complete it: the request is queued, a handler runs,
a response is queued, the dispatch loop or a refused expansion is about to send, or the completion is
in the channel.  `Tok` names that place, `State.view` is the part of the state that belongs to one
connection, and `Good` says that the view is the one of a token.  What another connection does leaves
the view alone (`Frame`).
-/

namespace Mmfg.Hub

open Shm

/-! ## Conditions on steps -/

/-- `Next` has pushed its request and has not yet received a completion. -/
def ConnPC.awaits : ConnPC → Bool
  | .notify _ | .wait => true
  | _ => false

/-- A node takes only requests of calls of `Next` that are still in progress, and a failing `notify`
leaves a request that nobody has taken. -/
def Live (s : State) : Action → Prop
  | .pop d => ∀ m ∈ (s.reqQ d.1).head?, m.cmd = .process →
      (s.conns m.tag.1).pc.awaits = true ∧ (s.conns m.tag.1).handoffs = m.tag.2
  | .conn i .fail =>
    match (s.conns i).pc with
    | .notify d => ∃ m ∈ s.reqQ d.1, m.cmd = .process ∧ m.tag = (i, (s.conns i).handoffs)
    | _ => True
  | _ => True

/-- The handler has not returned yet. -/
def HandlerPC.working : HandlerPC → Bool
  | .locate _ | .decode .. | .running => true
  | _ => false

/-- This step of `handleExpandRequest` turns the expansion down. -/
def Expander.Refuses (s : State) (x : Expander) : ExpAct → Prop
  | .run =>
    match x.pc with
    | .check .. => (s.reg x.slot).owner ≠ x.node
    | _ => False
  | .fail =>
    match x.pc with
    | .alloc .. => True
    | _ => False
  | .take _ => False

/-- An expansion is refused only to a handler that has not returned and was not refused one before,
and a handler that was refused one sends no response: it does not panic, and it returns only in Go
and after it has heard of the refusal. -/
def RefusedStops (s : State) : Action → Prop
  | .exp e a => ∀ x ∈ s.exps e, x.Refuses s a →
      ∃ y ∈ s.handlers x.tag, y.pc.working = true ∧ y.refused = false
  | .hand h a => ∀ y ∈ s.handlers h, y.refused = true →
      match a with
      | .panic => False
      | .finish => y.lang = .go ∧ y.failed = true
      | _ => True
  | _ => True

/-! ## The part of the state that belongs to one connection -/

/-- The handler will send a response. -/
def Handler.active (y : Handler) : Bool := !y.refused && decide (y.pc ≠ .finished)

/-- The expansion was refused and the waiter has not been told yet. -/
def ExpPC.refusing : ExpPC → Bool
  | .undo _ | .respond false | .load | .send _ => true
  | _ => false

/-- The request for `h`. -/
def Msg.isRequest (h : Handoff) (m : Msg) : Bool := decide (m.cmd = .process ∧ m.tag = h)

/-- A response to a handoff of connection `i`. -/
def Msg.isResponse (i : ℕ) (m : Msg) : Bool := decide (m.cmd = .process ∧ m.tag.1 = i)

/-- What the dispatch loop is doing for connection `i`. -/
def DispPC.on (i : ℕ) : DispPC → DispPC
  | .swap slot tag => if tag.1 = i then .swap slot tag else .idle
  | .send c tag => if tag.1 = i then .send c tag else .idle
  | .idle | .owner .. => .idle

/-- The goroutine refuses an expansion for a handoff of connection `i`. -/
def Expander.refusesFor (i : ℕ) (x : Expander) : Bool := decide (x.tag.1 = i) && x.pc.refusing

/-- Where completions of a connection come from: requests of the current handoff by node, handlers,
responses, the dispatch loop, refused expansions, and the content of the channel. -/
@[ext]
structure View where
  reqs : ℕ → List Msg
  active : ℕ → Bool
  resps : List Msg
  disp : DispPC
  exps : ℕ → Option Expander
  chan : Option Completion

/-- The view of a state. -/
def State.view (s : State) (i : ℕ) : View where
  reqs n := if (s.conns i).pc.awaits then
    (s.reqQ n).filter (Msg.isRequest (i, (s.conns i).handoffs)) else []
  active k := (s.handlers (i, k)).any Handler.active
  resps := s.respQ.filter (Msg.isResponse i)
  disp := s.disp.on i
  exps e := (s.exps e).filter (Expander.refusesFor i)
  chan := (s.conns i).heldChan.bind s.chans

/-- Who is bound to complete the handoff. -/
inductive Tok
  | none
  | queued (n : ℕ)
  | handling
  | responding
  | swapping
  | sending
  | failing (e : ℕ) (x : Expander)
  | full (ok : Bool)

/-- Nobody has anything to do with the connection. -/
def View.empty : View := ⟨fun _ => [], fun _ => false, [], .idle, fun _ => none, none⟩

/-- The view of a connection whose token is there. -/
def Tok.view (i : ℕ) (c : Conn) : Tok → View
  | .none => .empty
  | .queued n =>
    { View.empty with
      reqs := Function.update (fun _ => []) n [⟨c.slotID, .process, (i, c.handoffs)⟩] }
  | .handling => { View.empty with active := Function.update (fun _ => false) c.handoffs true }
  | .responding => { View.empty with resps := [⟨c.slotID, .process, (i, c.handoffs)⟩] }
  | .swapping => { View.empty with disp := .swap c.slotID (i, c.handoffs) }
  | .sending => { View.empty with disp := .send i (i, c.handoffs) }
  | .failing e x => { View.empty with exps := Function.update (fun _ => Option.none) e (some x) }
  | .full ok => { View.empty with chan := some ⟨(i, c.handoffs), ok⟩ }

/-- The slot of connection `i` is handed to node `n`. -/
def State.Handed (s : State) (i n : ℕ) : Prop :=
  (s.reg (s.conns i).slotID).status = .busy ∧ (s.reg (s.conns i).slotID).owner = n

/-- The handler of the current handoff has finished. -/
def State.Finished (s : State) (i : ℕ) : Prop :=
  ∃ y, s.handlers (i, (s.conns i).handoffs) = some y ∧ y.pc = .finished

/-- The waiter of the slot is the connection. -/
def State.Waited (s : State) (i : ℕ) : Prop := s.waiters (s.conns i).slotID = some i

/-- What holds at program points without a token. -/
def State.QuietAt (s : State) (i : ℕ) : ConnPC → Prop
  | .setStatus (.handoff d) _ => (s.reg (s.conns i).slotID).owner = d.1
  | .clear d | .store d => s.Handed i d.1
  | .push d => s.Handed i d.1 ∧ s.Waited i
  | .refresh | .returned => s.Finished i
  | _ => True

/-- What holds while the token is there. -/
def Tok.Ok (s : State) (i : ℕ) : Tok → Prop
  | .none => s.QuietAt i (s.conns i).pc
  | .queued n => s.Waited i ∧ s.Handed i n ∧ s.handlers (i, (s.conns i).handoffs) = Option.none
  | .handling => s.Waited i ∧ ∃ y, s.handlers (i, (s.conns i).handoffs) = some y ∧
      y.slot = (s.conns i).slotID ∧ (y.pc ≠ .respond → s.Handed i y.session.1)
  | .responding | .swapping => s.Waited i ∧ s.Finished i
  | .sending => s.Finished i
  | .failing _ x => s.Waited i ∧ x.slot = (s.conns i).slotID ∧
      x.tag = (i, (s.conns i).handoffs) ∧ ∀ c, x.pc = .send c → c = i
  | .full ok => ok = true → s.Finished i

/-- There is no token. -/
def Tok.isNone : Tok → Bool
  | .none => true
  | _ => false

/-- The state agrees with the token of connection `i`. -/
structure Good (s : State) (i : ℕ) (tok : Tok) : Prop where
  view : s.view i = tok.view i (s.conns i)
  live : tok.isNone = !(s.conns i).pc.awaits
  ok : tok.Ok s i

variable {s t : State} {i j : ℕ} {tok : Tok}

/-! ## Where a token is -/

theorem Conn.WF.bound_of_awaits {c : Conn} (h : c.WF) (ha : c.pc.awaits = true) : c.Bound := by
  unfold Conn.WF at h
  cases hpc : c.pc <;> simp only [hpc, ConnPC.awaits, Bool.false_eq_true] at h ha <;> exact h

theorem Conn.heldSlot_of_awaits {c : Conn} (h : c.WF) (ha : c.pc.awaits = true) :
    c.heldSlot = some c.slotID := by
  have hb := h.bound_of_awaits ha
  unfold Conn.heldSlot
  cases hpc : c.pc <;> simp only [hpc, ConnPC.awaits, Bool.false_eq_true] at ha <;>
    exact if_neg hb.1

theorem Conn.heldChan_of_awaits {c : Conn} (ha : c.pc.awaits = true) : c.heldChan = c.done := by
  unfold Conn.heldChan
  cases hpc : c.pc <;> simp only [hpc, ConnPC.awaits, Bool.false_eq_true] at ha <;> rfl

theorem Good.awaits (h : Good s i tok) (hn : tok.isNone = false) :
    (s.conns i).pc.awaits = true := by
  have := h.live
  rw [hn] at this
  simpa using this.symm

/-- A request of the current handoff is in the queue. -/
theorem Good.queued (h : Good s i tok) {n : ℕ} {m : Msg} (ha : (s.conns i).pc.awaits = true)
    (hm : m ∈ s.reqQ n) (hreq : m.isRequest (i, (s.conns i).handoffs) = true) :
    tok = .queued n ∧ m = ⟨(s.conns i).slotID, .process, (i, (s.conns i).handoffs)⟩ := by
  have hmem : m ∈ (s.view i).reqs n := by
    simp only [State.view, ha, if_true]
    exact List.mem_filter.2 ⟨hm, hreq⟩
  rw [h.view] at hmem
  cases tok with
  | queued n' =>
    by_cases hn : n = n'
    · subst hn
      simp only [Tok.view, Function.update_self, List.mem_singleton] at hmem
      exact ⟨rfl, hmem⟩
    · simp [Tok.view, Function.update_of_ne hn] at hmem
  | _ => simp [Tok.view, View.empty] at hmem

theorem Good.handling (h : Good s i tok) {k : ℕ} {y : Handler} (hy : s.handlers (i, k) = some y)
    (ha : y.active = true) : tok = .handling ∧ k = (s.conns i).handoffs := by
  have hact : (s.view i).active k = true := by
    simp only [State.view, hy, Option.any_some, ha]
  rw [h.view] at hact
  cases tok with
  | handling =>
    by_cases hk : k = (s.conns i).handoffs
    · exact ⟨rfl, hk⟩
    · simp [Tok.view, Function.update_of_ne hk] at hact
  | _ => simp [Tok.view, View.empty] at hact

theorem Good.responding (h : Good s i tok) {m : Msg} (hm : m ∈ s.respQ)
    (hresp : m.isResponse i = true) :
    tok = .responding ∧ m = ⟨(s.conns i).slotID, .process, (i, (s.conns i).handoffs)⟩ := by
  have hmem : m ∈ (s.view i).resps := List.mem_filter.2 ⟨hm, hresp⟩
  rw [h.view] at hmem
  cases tok with
  | responding =>
    simp only [Tok.view, List.mem_singleton] at hmem
    exact ⟨rfl, hmem⟩
  | _ => simp [Tok.view, View.empty] at hmem

theorem Good.swapping {tag : Handoff} (h : Good s tag.1 tok) {slot : ℕ}
    (hd : s.disp = .swap slot tag) :
    tok = .swapping ∧ slot = (s.conns tag.1).slotID ∧ tag.2 = (s.conns tag.1).handoffs := by
  have hv : (s.view tag.1).disp = .swap slot tag := by simp [State.view, hd, DispPC.on]
  rw [h.view] at hv
  cases tok with
  | swapping =>
    simp only [Tok.view, DispPC.swap.injEq] at hv
    exact ⟨rfl, hv.1.symm, (congrArg Prod.snd hv.2).symm⟩
  | _ => simp [Tok.view, View.empty] at hv

theorem Good.sending {tag : Handoff} (h : Good s tag.1 tok) {c : ℕ} (hd : s.disp = .send c tag) :
    tok = .sending ∧ c = tag.1 ∧ tag.2 = (s.conns tag.1).handoffs := by
  have hv : (s.view tag.1).disp = .send c tag := by simp [State.view, hd, DispPC.on]
  rw [h.view] at hv
  cases tok with
  | sending =>
    simp only [Tok.view, DispPC.send.injEq] at hv
    exact ⟨rfl, hv.1.symm, (congrArg Prod.snd hv.2).symm⟩
  | _ => simp [Tok.view, View.empty] at hv

theorem Good.failing {e : ℕ} {x : Expander} (h : Good s x.tag.1 tok) (hx : s.exps e = some x)
    (hr : x.pc.refusing = true) : tok = .failing e x := by
  have hv : (s.view x.tag.1).exps e = some x := by
    simp [State.view, hx, Option.filter, Expander.refusesFor, hr]
  rw [h.view] at hv
  cases tok with
  | failing e' x' =>
    by_cases he : e = e'
    · subst he
      simp only [Tok.view, Function.update_self, Option.some.injEq] at hv
      rw [hv]
    · simp [Tok.view, Function.update_of_ne he, View.empty] at hv
  | _ => simp [Tok.view, View.empty] at hv

theorem Good.full (h : Good s i tok) {ch : ℕ} {r : Completion}
    (hc : (s.conns i).heldChan = some ch) (hr : s.chans ch = some r) :
    tok = .full r.ok ∧ r.tag = (i, (s.conns i).handoffs) := by
  have hv : (s.view i).chan = some r := by simp [State.view, hc, hr]
  rw [h.view] at hv
  cases tok with
  | full ok =>
    simp only [Tok.view, Option.some.injEq] at hv
    subst hv
    exact ⟨rfl, rfl⟩
  | _ => simp [Tok.view, View.empty] at hv

/-! ## Frames -/

/-- The part of a handler that tokens depend on. -/
def Handler.core (y : Handler) : ℕ × SessionId × HandlerPC := (y.slot, y.session, y.pc)

/-- What connection `j` depends on is the same in both states. -/
structure Frame (s t : State) (j : ℕ) : Prop where
  conn : t.conns j = s.conns j
  view : t.view j = s.view j
  waiter : ∀ slot, (s.conns j).heldSlot = some slot → t.waiters slot = s.waiters slot
  entry : ∀ slot, (s.conns j).heldSlot = some slot → t.reg slot = s.reg slot
  handler : ∀ k, (t.handlers (j, k)).map Handler.core = (s.handlers (j, k)).map Handler.core

theorem view_congr (hc : t.conns j = s.conns j)
    (hreq : ∀ n k, (t.reqQ n).filter (Msg.isRequest (j, k)) =
      (s.reqQ n).filter (Msg.isRequest (j, k)))
    (hact : ∀ k, (t.handlers (j, k)).any Handler.active = (s.handlers (j, k)).any Handler.active)
    (hresp : t.respQ.filter (Msg.isResponse j) = s.respQ.filter (Msg.isResponse j))
    (hdisp : t.disp.on j = s.disp.on j)
    (hexp : ∀ e, (t.exps e).filter (Expander.refusesFor j) =
      (s.exps e).filter (Expander.refusesFor j))
    (hch : ∀ ch, (s.conns j).heldChan = some ch → t.chans ch = s.chans ch) :
    t.view j = s.view j := by
  refine View.ext (funext fun n => ?_) (funext hact) hresp hdisp (funext hexp) ?_
  · simp only [State.view, hc, hreq]
  · simp only [State.view, hc]
    cases hh : (s.conns j).heldChan with
    | none => rfl
    | some ch => exact hch ch hh

theorem frame_of (hc : t.conns j = s.conns j)
    (hreq : ∀ n k, (t.reqQ n).filter (Msg.isRequest (j, k)) =
      (s.reqQ n).filter (Msg.isRequest (j, k)))
    (hhand : ∀ k, t.handlers (j, k) = s.handlers (j, k))
    (hresp : t.respQ.filter (Msg.isResponse j) = s.respQ.filter (Msg.isResponse j))
    (hdisp : t.disp.on j = s.disp.on j)
    (hexp : ∀ e, (t.exps e).filter (Expander.refusesFor j) =
      (s.exps e).filter (Expander.refusesFor j))
    (hch : ∀ ch, (s.conns j).heldChan = some ch → t.chans ch = s.chans ch)
    (hw : ∀ slot, (s.conns j).heldSlot = some slot → t.waiters slot = s.waiters slot)
    (hr : ∀ slot, (s.conns j).heldSlot = some slot → t.reg slot = s.reg slot) : Frame s t j :=
  ⟨hc, view_congr hc hreq (fun k => by rw [hhand]) hresp hdisp hexp hch, hw, hr,
    fun k => by rw [hhand]⟩

theorem exists_of_core {a b : Option Handler} (h : a.map Handler.core = b.map Handler.core)
    {y : Handler} (hy : b = some y) : ∃ y', a = some y' ∧ y'.core = y.core := by
  subst hy
  obtain ⟨y', hy', hcore⟩ := Option.map_eq_some_iff.1 h
  exact ⟨y', hy', hcore⟩

theorem State.Finished.frame (h : s.Finished j) (hf : Frame s t j) : t.Finished j := by
  obtain ⟨y, hy, hpc⟩ := h
  obtain ⟨y', hy', hcore⟩ := exists_of_core (hf.handler _) hy
  simp only [Handler.core, Prod.mk.injEq] at hcore
  refine ⟨y', ?_, by rw [hcore.2.2, hpc]⟩
  rw [hf.conn]
  exact hy'

theorem State.Waited.frame (h : s.Waited j) (hf : Frame s t j)
    (hslot : (s.conns j).heldSlot = some (s.conns j).slotID) : t.Waited j := by
  unfold State.Waited
  rw [hf.conn, hf.waiter _ hslot]
  exact h

theorem State.Handed.frame {n : ℕ} (h : s.Handed j n) (hf : Frame s t j)
    (hslot : (s.conns j).heldSlot = some (s.conns j).slotID) : t.Handed j n := by
  unfold State.Handed
  rw [hf.conn, hf.entry _ hslot]
  exact h

theorem State.QuietAt.frame (h : s.QuietAt j (s.conns j).pc) (hf : Frame s t j)
    (hwf : (s.conns j).WF) : t.QuietAt j (s.conns j).pc := by
  cases hpc : (s.conns j).pc with
  | setStatus u slot =>
    cases u with
    | handoff d =>
      simp only [Conn.WF, hpc] at hwf
      rw [hpc] at h
      have hslot : (s.conns j).heldSlot = some (s.conns j).slotID := by
        simp only [Conn.heldSlot, hpc, hwf.1]
      change (t.reg (t.conns j).slotID).owner = d.1
      rw [hf.conn, hf.entry _ hslot]
      exact h
    | _ => exact trivial
  | clear d | store d =>
    simp only [Conn.WF, hpc] at hwf
    rw [hpc] at h
    exact State.Handed.frame h hf (by simp only [Conn.heldSlot, hpc]; exact if_neg hwf.1)
  | push d =>
    simp only [Conn.WF, hpc] at hwf
    rw [hpc] at h
    have hslot : (s.conns j).heldSlot = some (s.conns j).slotID := by
      simp only [Conn.heldSlot, hpc]
      exact if_neg hwf.1
    exact ⟨h.1.frame hf hslot, h.2.frame hf hslot⟩
  | refresh | returned =>
    rw [hpc] at h
    exact State.Finished.frame h hf
  | _ => exact trivial

/-- A token stays where it is while others move. -/
theorem Good.frame (h : Good s j tok) (hf : Frame s t j) (hwf : (s.conns j).WF) : Good t j tok := by
  have hok := h.ok
  refine ⟨by rw [hf.view, hf.conn, h.view], by rw [hf.conn, h.live], ?_⟩
  cases tok with
  | none =>
    change t.QuietAt j (t.conns j).pc
    rw [hf.conn]
    exact State.QuietAt.frame hok hf hwf
  | queued n =>
    have hslot := Conn.heldSlot_of_awaits hwf (h.awaits rfl)
    refine ⟨hok.1.frame hf hslot, hok.2.1.frame hf hslot, ?_⟩
    rw [hf.conn]
    have := hf.handler (s.conns j).handoffs
    rw [hok.2.2] at this
    exact Option.map_eq_none_iff.1 this
  | handling =>
    have hslot := Conn.heldSlot_of_awaits hwf (h.awaits rfl)
    obtain ⟨hw, y, hy, hys, hyh⟩ := hok
    obtain ⟨y', hy', hcore⟩ := exists_of_core (hf.handler _) hy
    simp only [Handler.core, Prod.mk.injEq] at hcore
    refine ⟨hw.frame hf hslot, y', by rw [hf.conn]; exact hy', by rw [hf.conn, hcore.1, hys], ?_⟩
    rw [hcore.2.1, hcore.2.2]
    exact fun hr => (hyh hr).frame hf hslot
  | responding | swapping =>
    have hslot := Conn.heldSlot_of_awaits hwf (h.awaits rfl)
    exact ⟨hok.1.frame hf hslot, hok.2.frame hf⟩
  | sending => exact State.Finished.frame hok hf
  | failing e x =>
    have hslot := Conn.heldSlot_of_awaits hwf (h.awaits rfl)
    refine ⟨hok.1.frame hf hslot, ?_, ?_, hok.2.2.2⟩
    · rw [hf.conn]
      exact hok.2.1
    · rw [hf.conn]
      exact hok.2.2.1
  | full ok => exact fun ho => (hok ho).frame hf

end Mmfg.Hub
