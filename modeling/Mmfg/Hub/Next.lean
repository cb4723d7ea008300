import Mmfg.Lib.Simulation
import Mmfg.Hub.Cases

/-!
# Calls of `Next` that fail

A call of `Next` may return an error at five points: the name is unknown, no slot is idle, the slot
is still in use after a second, the request cannot be pushed, or the node cannot be notified.  The
last two come after the registry entry has been set and the waiter has been stored, and neither is
taken back.  They happen if the session that was looked up is closed before the request is submitted
(`TargetOpen`).

`nextCall` is one call of `Next`, step by step, on any state of the hub; between two of its steps
nodes may be dialled and may disappear.
-/

namespace Mmfg.Hub

/-- The errors of `Next` itself. -/
inductive NextError | targetNotFound | noSlots | timedOut | pushFailed | notifyFailed
  deriving DecidableEq

/-- The hub and the cursors of a connection during a call of `Next`, and the error that it has
returned. -/
structure Call where
  hub : State
  readOff : ℤ
  writeOff : ℤ
  err : Option NextError

/-- The error that `Next` returns when it fails at a program point. -/
def ConnPC.nextError : ConnPC → Option NextError
  | .allocSlot (.next _) => some .noSlots
  | .poll _ => some .timedOut
  | .push _ => some .pushFailed
  | .notify _ => some .notifyFailed
  | _ => none

/-- The first step of the call: the target is looked up. -/
def Call.start (c : Call) (i name : ℕ) : Call :=
  match stepConn c.hub i (.next name) with
  | some s => { c with hub := s, err := none }
  | none => { c with err := some .targetNotFound }

/-- A step from program point `pc` to the state `s`; the cursors are reset once the request is
submitted. -/
def Call.advance (c : Call) (pc : ConnPC) (a : ConnAct) (s : State) : Call :=
  match pc, a with
  | .notify _, .run => ⟨s, 0, 0, none⟩
  | pc, .fail => { c with hub := s, err := pc.nextError }
  | _, _ => { c with hub := s }

/-- A step of the call, or of a node that comes or goes. -/
inductive CallAct
  | own (a : ConnAct)
  | dial (d : SessionId) (name : ℕ) (lang : Lang)
  | watch (d : SessionId)

/-- The step of a call that has not returned. -/
def Call.step (i : ℕ) (c : Call) (a : CallAct) : Option Call :=
  if c.err = none ∧ (c.hub.conns i).pc ≠ .opened then
    match a with
    | .own a => (stepConn c.hub i a).map fun s => c.advance (c.hub.conns i).pc a s
    | .dial d name lang => (stepDial c.hub d name lang).map fun s => { c with hub := s }
    | .watch d => (stepWatch c.hub d).map fun s => { c with hub := s }
  else none

/-- The call `Next(name)` on connection `i`. -/
def nextCall (i name : ℕ) (c₀ : Call) : System Call CallAct where
  Init c := c = c₀.start i name
  step := Call.step i

/-! ## What a failed call is to leave -/

/-- Neither command nor waiter has been added, and the cursors have not moved. -/
structure Untouched (c₀ c : Call) : Prop where
  reqQ : c.hub.reqQ = c₀.hub.reqQ
  waiters : c.hub.waiters = c₀.hub.waiters
  readOff : c.readOff = c₀.readOff
  writeOff : c.writeOff = c₀.writeOff

/-- `Next` finds the slot at the hub's disposal. -/
def Status.handedBack (st : Status) : Prop := st = .ready ∨ st = .done

instance (st : Status) : Decidable st.handedBack := inferInstanceAs (Decidable (_ ∨ _))

/-- The connection's own steps lead to the point where the request is submitted. -/
abbrev CanSubmit (s : State) (i : ℕ) : Prop :=
  hub.CanReach (fun _ a => ∃ b, a = .conn i b) (fun t => (t.conns i).pc = .wait) s

/-- A `Next` to a live node comes to the point where the request is submitted, if there is a slot
for a connection that has none. -/
def Proceeds (s : State) (i : ℕ) : Prop :=
  ∀ name d, s.names.lookup name = some d → (s.sessions d).closed = false →
    ((s.conns i).slotID = 0 →
      ∃ slot ch, 1 ≤ slot ∧ slot ≤ MaxTotalSlots ∧ (s.reg slot).status = .idle ∧ s.pool ch = true) →
    CanSubmit s i

/-- The connection is as usable as before the call. -/
structure Usable (c₀ c : Call) (i : ℕ) : Prop extends Untouched c₀ c where
  status : (c.hub.conns i).slotID ≠ 0 → (c.hub.reg (c.hub.conns i).slotID).status.handedBack
  owner : (c.hub.conns i).slotID ≠ 0 →
    (c.hub.reg (c.hub.conns i).slotID).owner = (c₀.hub.reg (c.hub.conns i).slotID).owner
  proceeds : Proceeds c.hub i

/-! ## The steps of the call -/

variable {c₀ c c' : Call} {s t : State} {i name : ℕ} {a : ConnAct} {pc : ConnPC} {d : SessionId}

@[simp] theorem Call.advance_hub : (c.advance pc a s).hub = s := by
  unfold Call.advance
  split <;> rfl

theorem Call.advance_err (h : c.err = none) (pc : ConnPC) (a : ConnAct) (s : State) :
    (c.advance pc a s).err = none ∨ a = .fail ∧ (c.advance pc a s).err = pc.nextError := by
  unfold Call.advance
  split
  · exact .inl rfl
  · exact .inr ⟨rfl, rfl⟩
  · exact .inl h

/-- The slot is bound and not at the hub's disposal. -/
def Taken (s : State) (i : ℕ) : Prop :=
  (s.conns i).slotID ≠ 0 ∧ ¬ (s.reg (s.conns i).slotID).status.handedBack

/-- What is known at the program points of the call. -/
def Phase (c₀ c : Call) (i : ℕ) : Prop :=
  match (c.hub.conns i).pc with
  | .allocSlot (.next _) =>
    Untouched c₀ c ∧ (c.hub.conns i).slotID = 0
  | .allocSlot (.handoff _) => False
  | .setHeader u slot | .setOwner u slot | .setStatus u slot =>
    slot ≠ 0 ∧ ∀ d, u = .handoff d → slot = (c.hub.conns i).slotID
  | .getDone _ slot => slot ≠ 0
  | .poll _ => (c.hub.conns i).slotID ≠ 0
  | .clear _ | .store _ | .push _ | .notify _ => Taken c.hub i
  | _ => True

/-- What is known when the call has failed. -/
def Outcome (c₀ c : Call) (i : ℕ) : NextError → Prop
  | .targetNotFound => c = { c₀ with err := some .targetNotFound }
  | .noSlots => Untouched c₀ c ∧ (c.hub.conns i).slotID = 0 ∧ (c.hub.conns i).pc = .opened
  | .timedOut => True
  | .pushFailed | .notifyFailed => Taken c.hub i

/-- What holds of a call of `Next` on the way and after an error. -/
structure CallInv (c₀ c : Call) (i : ℕ) : Prop where
  going : c.err = none → Phase c₀ c i
  failed : ∀ e, c.err = some e → Outcome c₀ c i e

theorem callInv_start (hpc : (c₀.hub.conns i).pc = .opened) :
    CallInv c₀ (c₀.start i name) i := by
  unfold Call.start
  unfold stepConn
  simp only [hpc]
  cases c₀.hub.names.lookup name with
  | none =>
    refine ⟨nofun, fun e he => ?_⟩
    obtain rfl := Option.some.inj he
    rfl
  | some d =>
    refine ⟨fun _ => ?_, nofun⟩
    simp only [Option.map_some, Phase, State.setConn, Function.update_self]
    split_ifs with hslot
    · exact ⟨⟨rfl, rfl, rfl, rfl⟩, hslot⟩
    · exact hslot

theorem phase_own (h : Phase c₀ c i) (hne : (c.hub.conns i).pc ≠ .opened)
    (hs : ConnStep c.hub i (c.hub.conns i) a s) : Phase c₀ (c.advance (c.hub.conns i).pc a s) i := by
  unfold Phase at h ⊢
  simp only [Call.advance_hub]
  cases hs with
  | move hm =>
    simp only [State.setConn, Function.update_self]
    cases hm with
    | next hpc => exact absurd hpc hne
    | poll hpc =>
      rw [hpc] at h
      exact ⟨h, fun _ _ => rfl⟩
    | undoEnd | write | freeEnd => split_ifs <;> trivial
    | _ => trivial
  | pickSlot hpc hpos =>
    rw [hpc] at h
    simp only [State.setConn, Function.update_self]
    refine ⟨by omega, ?_⟩
    rintro d rfl
    exact h.elim
  | setHeader hpc | setOwner hpc =>
    rw [hpc] at h
    simpa only [State.setConn, Function.update_self] using h
  | @setStatus u slot hpc =>
    rw [hpc] at h
    obtain ⟨hslot, hbound⟩ := h
    simp only [State.setConn, Function.update_self]
    cases u with
    | request | next => exact hslot
    | handoff d =>
      obtain rfl := hbound d rfl
      simp [Use.after, Taken, hslot, State.setReg, Use.status, Status.handedBack]
  | @getDone u slot ch hpc =>
    rw [hpc] at h
    simp only [State.setConn, Function.update_self]
    cases u with
    | request => trivial
    | next | handoff => exact h
  | clear hpc | store hpc | push hpc =>
    rw [hpc] at h
    simpa [Taken, State.setConn, State.setChan, State.pushReq] using h
  | recv =>
    simp only [State.setConn, Function.update_self]
    split_ifs <;> trivial
  | allocEnd _ _ hc =>
    subst hc
    simp only [State.setConn, Function.update_self]
    split_ifs <;> trivial
  | growEnd _ hc =>
    subst hc
    simp only [State.setConn, Function.update_self]
  | poke hpc =>
    obtain hpc | ⟨off, len, hpc⟩ := hpc
    · exact absurd hpc hne
    · simp only [State.setMem, hpc]
  | _ => simp only [State.setConn, Function.update_self]

theorem outcome_fail (h : Phase c₀ c i) (hs : stepConn c.hub i .fail = some s) {e : NextError}
    (he : (c.hub.conns i).pc.nextError = some e) :
    Outcome c₀ (c.advance (c.hub.conns i).pc .fail s) i e := by
  unfold Phase at h
  unfold stepConn at hs
  cases hpc : (c.hub.conns i).pc with
  | allocSlot u =>
    cases u with
    | next d =>
      rw [hpc] at h he
      simp only [hpc] at hs
      obtain rfl := Option.some.inj he
      obtain rfl := Option.some.inj hs
      obtain ⟨⟨hq, hw, hr, ho⟩, hslot⟩ := h
      refine ⟨⟨hq, hw, hr, ho⟩, ?_, ?_⟩ <;>
        simp only [Call.advance_hub, State.setConn, Function.update_self]
      exact hslot
    | request | handoff =>
      rw [hpc] at he
      cases he
  | poll d =>
    rw [hpc] at he
    obtain rfl := Option.some.inj he
    trivial
  | push d | notify d =>
    rw [hpc] at h he
    simp only [hpc] at hs
    split_ifs at hs
    obtain rfl := Option.some.inj he
    obtain rfl := Option.some.inj hs
    simpa [Outcome, Taken, State.setConn] using h
  | _ =>
    rw [hpc] at he
    cases he

theorem callInv_own (h : CallInv c₀ c i) (herr : c.err = none)
    (hne : (c.hub.conns i).pc ≠ .opened) (hs : stepConn c.hub i a = some s) :
    CallInv c₀ (c.advance (c.hub.conns i).pc a s) i := by
  refine ⟨fun _ => phase_own (h.going herr) hne (connStep_of_step hs), fun e he => ?_⟩
  rcases Call.advance_err herr (c.hub.conns i).pc a s with hn | ⟨rfl, hf⟩
  · rw [hn] at he
    cases he
  · rw [hf] at he
    exact outcome_fail (h.going herr) hs he

/-! ## Nodes that come and go -/

/-- Nothing changes for the call, but slots may become idle. -/
structure Elsewhere (s t : State) : Prop where
  conns : t.conns = s.conns
  reqQ : t.reqQ = s.reqQ
  waiters : t.waiters = s.waiters
  exps : t.exps = s.exps
  status : ∀ slot, (t.reg slot).status = (s.reg slot).status ∨ (t.reg slot).status = .idle

theorem elsewhere_dial {lang : Lang} (hs : stepDial s d name lang = some t) : Elsewhere s t := by
  unfold stepDial at hs
  split_ifs at hs
  obtain rfl := Option.some.inj hs
  exact ⟨rfl, rfl, rfl, rfl, fun _ => .inl rfl⟩

theorem elsewhere_watch (hs : stepWatch s d = some t) : Elsewhere s t := by
  unfold stepWatch at hs
  cases hw : (s.sessions d).watch with
  | absent | gone =>
    simp only [hw] at hs
    cases hs
  | freeSlot j =>
    simp only [hw] at hs
    obtain rfl := Option.some.inj hs
    refine ⟨rfl, rfl, rfl, rfl, fun slot => ?_⟩
    simp only [State.setWatch, State.setReg]
    by_cases hj : slot = j
    · subst hj
      exact .inr (by rw [Function.update_self])
    · exact .inl (by rw [Function.update_of_ne hj])
  | free j todo =>
    cases todo <;> simp only [hw] at hs <;> obtain rfl := Option.some.inj hs <;>
      exact ⟨rfl, rfl, rfl, rfl, fun _ => .inl rfl⟩
  | status j =>
    simp only [hw] at hs
    split_ifs at hs <;> obtain rfl := Option.some.inj hs <;> exact ⟨rfl, rfl, rfl, rfl, fun _ => .inl rfl⟩
  | owner j =>
    simp only [hw] at hs
    split_ifs at hs <;> obtain rfl := Option.some.inj hs <;> exact ⟨rfl, rfl, rfl, rfl, fun _ => .inl rfl⟩
  | _ =>
    simp only [hw] at hs
    obtain rfl := Option.some.inj hs
    exact ⟨rfl, rfl, rfl, rfl, fun _ => .inl rfl⟩

theorem Elsewhere.taken (h : Elsewhere s t) (ht : Taken s i) : Taken t i := by
  unfold Taken at ht ⊢
  rw [h.conns]
  refine ⟨ht.1, ?_⟩
  rcases h.status (s.conns i).slotID with he | he
  · rw [he]
    exact ht.2
  · rw [he]
    decide

theorem callInv_elsewhere (h : CallInv c₀ c i) (herr : c.err = none) (ht : Elsewhere c.hub t) :
    CallInv c₀ { c with hub := t } i := by
  have hp := h.going herr
  refine ⟨fun _ => ?_, fun e he => ?_⟩
  · unfold Phase at hp ⊢
    rw [ht.conns]
    cases hpc : (c.hub.conns i).pc with
    | allocSlot u =>
      rw [hpc] at hp
      cases u with
      | request => trivial
      | handoff => exact hp
      | next =>
        obtain ⟨⟨hq, hw, hr, ho⟩, hslot⟩ := hp
        exact ⟨⟨ht.reqQ.trans hq, ht.waiters.trans hw, hr, ho⟩, hslot⟩
    | clear | store | push | notify =>
      rw [hpc] at hp
      exact ht.taken hp
    | _ =>
      rw [hpc] at hp
      exact hp
  · rw [herr] at he
    cases he

theorem callInv_of_reachable (hpc : (c₀.hub.conns i).pc = .opened)
    (hr : (nextCall i name c₀).Reachable c) : CallInv c₀ c i := by
  refine hr.invariant (I := fun c => CallInv c₀ c i) (fun c hc => ?_) fun c a c' _ h _ hs => ?_
  · rw [show c = c₀.start i name from hc]
    exact callInv_start hpc
  · simp only [nextCall, Call.step] at hs
    split_ifs at hs with hgo
    obtain ⟨herr, hne⟩ := hgo
    cases a with
    | own a =>
      obtain ⟨s, hconn, rfl⟩ := Option.map_eq_some_iff.1 hs
      exact callInv_own h herr hne hconn
    | dial d name lang =>
      obtain ⟨s, hdial, rfl⟩ := Option.map_eq_some_iff.1 hs
      exact callInv_elsewhere h herr (elsewhere_dial hdial)
    | watch d =>
      obtain ⟨s, hwatch, rfl⟩ := Option.map_eq_some_iff.1 hs
      exact callInv_elsewhere h herr (elsewhere_watch hwatch)

/-! ## A later call -/

theorem canSubmit_step (hs : stepConn s i a = some t) (h : CanSubmit t i) : CanSubmit s i :=
  System.CanReach.step ⟨a, rfl⟩ hs h

theorem canSubmit_notify (hpc : (s.conns i).pc = .notify d) (hd : (s.sessions d).closed = false) :
    CanSubmit s i := by
  have hs : stepConn s i .run = some (s.setConn i { s.conns i with pc := .wait }) := by
    unfold stepConn
    simp only [hpc, hd]
    rfl
  refine canSubmit_step hs (System.CanReach.here ?_)
  simp only [State.setConn, Function.update_self]

theorem canSubmit_push (hpc : (s.conns i).pc = .push d) (hd : (s.sessions d).closed = false) :
    CanSubmit s i := by
  refine canSubmit_step (a := .run) (by unfold stepConn; simp only [hpc]; rfl) ?_
  refine canSubmit_notify (d := d) ?_ hd
  simp only [State.setConn, Function.update_self]

theorem canSubmit_store (hpc : (s.conns i).pc = .store d) (hd : (s.sessions d).closed = false) :
    CanSubmit s i := by
  refine canSubmit_step (a := .run) (by unfold stepConn; simp only [hpc]; rfl) ?_
  refine canSubmit_push (d := d) ?_ hd
  simp only [State.setConn, Function.update_self]

theorem canSubmit_clear (hpc : (s.conns i).pc = .clear d) (hd : (s.sessions d).closed = false)
    (hdone : (s.conns i).done ≠ none) : CanSubmit s i := by
  obtain ⟨ch, hch⟩ := Option.ne_none_iff_exists'.1 hdone
  refine canSubmit_step (a := .run) (by unfold stepConn; simp only [hpc, hch]; rfl) ?_
  refine canSubmit_store (d := d) ?_ hd
  simp only [State.setConn, Function.update_self]

/-- What the stores of `SetStripe` lead to. -/
structure Stored (s t : State) (i slot : ℕ) (u : Use) : Prop where
  conn : t.conns i = { s.conns i with pc := u.after slot }
  sessions : t.sessions = s.sessions
  pool : t.pool = s.pool
  status : (t.reg slot).status = u.status

theorem canSubmit_setStatus {u : Use} {slot : ℕ} (hpc : (s.conns i).pc = .setStatus u slot)
    (h : ∀ t, Stored s t i slot u → CanSubmit t i) : CanSubmit s i := by
  refine canSubmit_step (a := .run) (by unfold stepConn; simp only [hpc]; rfl) ?_
  refine h _ ⟨?_, rfl, rfl, ?_⟩
  · simp only [State.setConn, Function.update_self]
  · simp only [State.setConn, State.setReg, Function.update_self]

theorem canSubmit_setOwner {u : Use} {slot : ℕ} (hpc : (s.conns i).pc = .setOwner u slot)
    (h : ∀ t, Stored s t i slot u → CanSubmit t i) : CanSubmit s i := by
  refine canSubmit_step (a := .run) (by unfold stepConn; simp only [hpc]; rfl) ?_
  refine canSubmit_setStatus (u := u) ?_ fun t ht =>
    h t ⟨?_, ht.sessions, ht.pool, ht.status⟩
  · simp only [State.setConn, Function.update_self]
  · simp only [ht.conn, State.setConn, Function.update_self]

theorem canSubmit_setHeader {u : Use} {slot : ℕ} (hpc : (s.conns i).pc = .setHeader u slot)
    (h : ∀ t, Stored s t i slot u → CanSubmit t i) : CanSubmit s i := by
  refine canSubmit_step (a := .run) (by unfold stepConn; simp only [hpc]; rfl) ?_
  refine canSubmit_setOwner (u := u) ?_ fun t ht =>
    h t ⟨?_, ht.sessions, ht.pool, ht.status⟩
  · simp only [State.setConn, Function.update_self]
  · simp only [ht.conn, State.setConn, Function.update_self]

theorem canSubmit_poll (hpc : (s.conns i).pc = .poll d) (hd : (s.sessions d).closed = false)
    (hdone : (s.conns i).done ≠ none)
    (hst : (s.reg (s.conns i).slotID).status.handedBack) : CanSubmit s i := by
  refine canSubmit_step (a := .run) (by unfold stepConn; simp only [hpc]; exact if_pos hst.symm) ?_
  have hpc' : ((s.setConn i { s.conns i with
      pc := .setHeader (.handoff d) (s.conns i).slotID }).conns i).pc =
      .setHeader (.handoff d) (s.conns i).slotID := by
    simp only [State.setConn, Function.update_self]
  refine canSubmit_setHeader hpc' fun t ht => canSubmit_clear (d := d) ?_ ?_ ?_
  · rw [ht.conn]
    rfl
  · rw [ht.sessions]
    exact hd
  · simp only [ht.conn, State.setConn, Function.update_self]
    exact hdone

/-- A connection that has no slot gets one, and a channel. -/
theorem canSubmit_allocSlot {slot ch : ℕ} (hpc : (s.conns i).pc = .allocSlot (.next d))
    (hd : (s.sessions d).closed = false) (h1 : 1 ≤ slot) (hmax : slot ≤ MaxTotalSlots)
    (hidle : (s.reg slot).status = .idle) (hch : s.pool ch = true) : CanSubmit s i := by
  refine canSubmit_step (a := .pick slot)
    (by unfold stepConn; simp only [hpc]; exact if_pos ⟨h1, hmax, hidle⟩) ?_
  have hpc' : (((s.setReg slot { s.reg slot with status := .busy }).setConn i
      { s.conns i with pc := .setHeader (.next d) slot }).conns i).pc =
      .setHeader (.next d) slot := by
    simp only [State.setConn, Function.update_self]
  refine canSubmit_setHeader hpc' fun t ht => ?_
  have hget : (t.conns i).pc = .getDone (.next d) slot := by
    rw [ht.conn]
    rfl
  refine canSubmit_step (a := .pick ch)
    (by unfold stepConn; simp only [hget]; exact if_pos (by rw [ht.pool]; exact hch)) ?_
  refine canSubmit_poll (d := d) ?_ ?_ ?_ ?_
  · simp only [State.setConn, Function.update_self]
    rfl
  · simp only [State.setConn, ht.sessions]
    exact hd
  · simp only [State.setConn, Function.update_self]
    exact Option.some_ne_none ch
  · simp only [State.setConn, Function.update_self]
    exact .inl ht.status

theorem proceeds_of_handedBack (hpc : (s.conns i).pc = .opened)
    (hdone : (s.conns i).slotID ≠ 0 → (s.conns i).done ≠ none)
    (hst : (s.conns i).slotID ≠ 0 → (s.reg (s.conns i).slotID).status.handedBack) :
    Proceeds s i := by
  intro name d hname hd hslot
  by_cases h0 : (s.conns i).slotID = 0
  · obtain ⟨slot, ch, h1, hmax, hidle, hch⟩ := hslot h0
    have hs : stepConn s i (.next name) =
        some (s.setConn i { s.conns i with pc := .allocSlot (.next d) }) := by
      unfold stepConn
      simp only [hpc, hname, h0, Option.map_some]
      rfl
    refine canSubmit_step hs (canSubmit_allocSlot (d := d) ?_ hd h1 hmax hidle hch)
    simp only [State.setConn, Function.update_self]
  · have hs : stepConn s i (.next name) = some (s.setConn i { s.conns i with pc := .poll d }) := by
      unfold stepConn
      simp only [hpc, hname, h0, Option.map_some]
      rfl
    refine canSubmit_step hs (canSubmit_poll (d := d) ?_ hd ?_ ?_)
    · simp only [State.setConn, Function.update_self]
    · simp only [State.setConn, Function.update_self]
      exact hdone h0
    · simp only [State.setConn, Function.update_self]
      exact hst h0

/-! ## The call as a whole -/

/-- When the request is about to be submitted, the session that was looked up has not been closed. -/
def TargetOpen (i : ℕ) (c : Call) (_ : CallAct) : Prop :=
  ∀ d, (c.hub.conns i).pc = .push d ∨ (c.hub.conns i).pc = .notify d →
    (c.hub.sessions d).closed = false

/-- The call has come to the point where it submits the request. -/
def ConnPC.submits : ConnPC → Bool
  | .push _ | .notify _ | .wait | .refresh | .returned | .opened => true
  | _ => false

/-- The call has come to that point, and if it has failed then with the submission. -/
def Late (c : Call) (i : ℕ) : Prop :=
  (c.err = none ∧ (c.hub.conns i).pc.submits = true) ∨ c.err = some .pushFailed ∨
    c.err = some .notifyFailed

theorem ConnPC.submits_cases {pc : ConnPC} (h : pc.submits = true) :
    (∃ d, pc = .push d) ∨ (∃ d, pc = .notify d) ∨ pc = .wait ∨ pc = .refresh ∨ pc = .returned ∨
      pc = .opened := by
  cases pc <;> first | cases h; done | simp

/-- A call does not go back behind its submission. -/
theorem late_own (h : (c.hub.conns i).pc.submits = true) (herr : c.err = none)
    (hne : (c.hub.conns i).pc ≠ .opened) (hs : stepConn c.hub i a = some s) :
    Late (c.advance (c.hub.conns i).pc a s) i := by
  unfold stepConn at hs
  rcases ConnPC.submits_cases h with ⟨d, hpc⟩ | ⟨d, hpc⟩ | hpc | hpc | hpc | hpc
  · rw [hpc]
    cases a <;> simp only [hpc] at hs
    case run =>
      cases hs
      exact .inl ⟨herr, by simp [Call.advance, State.setConn, ConnPC.submits]⟩
    case fail => exact .inr (.inl rfl)
    all_goals cases hs
  · rw [hpc]
    cases a <;> simp only [hpc] at hs
    case run =>
      split_ifs at hs
      cases hs
      exact .inl ⟨rfl, by simp [Call.advance, State.setConn, ConnPC.submits]⟩
    case fail => exact .inr (.inr rfl)
    all_goals cases hs
  · rw [hpc]
    cases a <;> simp only [hpc] at hs
    case run =>
      obtain ⟨ch, -, hs⟩ := Option.bind_eq_some_iff.1 hs
      obtain ⟨r, -, rfl⟩ := Option.map_eq_some_iff.1 hs
      refine .inl ⟨herr, ?_⟩
      simp only [Call.advance, State.setConn, Function.update_self]
      split_ifs <;> rfl
    all_goals cases hs
  · rw [hpc]
    cases a <;> simp only [hpc] at hs
    case run =>
      cases hs
      exact .inl ⟨herr, by simp [Call.advance, State.setConn, ConnPC.submits]⟩
    all_goals cases hs
  · rw [hpc]
    cases a <;> simp only [hpc] at hs
    case run =>
      cases hs
      exact .inl ⟨herr, by simp [Call.advance, State.setConn, ConnPC.submits]⟩
    all_goals cases hs
  · exact absurd hpc hne

theorem late_step {b : CallAct} (h : Late c i) (hs : (nextCall i name c₀).step c b = some c') :
    Late c' i := by
  simp only [nextCall, Call.step] at hs
  split_ifs at hs with hgo
  obtain ⟨herr, hne⟩ := hgo
  have hsub : (c.hub.conns i).pc.submits = true := by
    rcases h with ⟨-, hsub⟩ | he | he
    · exact hsub
    · exact nomatch herr.symm.trans he
    · exact nomatch herr.symm.trans he
  have helse : ∀ t, Elsewhere c.hub t → Late { c with hub := t } i := fun t ht =>
    .inl ⟨herr, by rw [ht.conns]; exact hsub⟩
  cases b with
  | own a =>
    obtain ⟨s, hconn, rfl⟩ := Option.map_eq_some_iff.1 hs
    exact late_own hsub herr hne hconn
  | dial d name lang =>
    obtain ⟨s, hdial, rfl⟩ := Option.map_eq_some_iff.1 hs
    exact helse s (elsewhere_dial hdial)
  | watch d =>
    obtain ⟨s, hwatch, rfl⟩ := Option.map_eq_some_iff.1 hs
    exact helse s (elsewhere_watch hwatch)

theorem late_run {as : List CallAct} (h : Late c i) (hr : (nextCall i name c₀).run c as = some c') :
    Late c' i := by
  induction as generalizing c with
  | nil =>
    cases hr
    exact h
  | cons b as ih =>
    rw [System.run_cons, Option.bind_eq_some_iff] at hr
    obtain ⟨c₁, hs, hr⟩ := hr
    exact ih (late_step h hs) hr

/-- A call that fails before its submission has not met a session that was closed. -/
theorem targetOpen_of_not_late {as : List CallAct} (hr : (nextCall i name c₀).run c as = some c')
    (hnot : ¬ Late c' i) : (nextCall i name c₀).RunOk (TargetOpen i) c as := by
  induction as generalizing c with
  | nil => trivial
  | cons b as ih =>
    rw [System.run_cons, Option.bind_eq_some_iff] at hr
    obtain ⟨c₁, hs, hr⟩ := hr
    refine ⟨fun d hpc => ?_, fun c₂ hc₂ => ?_⟩
    · -- otherwise it would be late from here on
      have herr : c.err = none := by
        simp only [nextCall, Call.step] at hs
        split_ifs at hs with hgo
        exact hgo.1
      have hlate : Late c i := by
        refine .inl ⟨herr, ?_⟩
        rcases hpc with hpc | hpc <;> rw [hpc] <;> rfl
      exact absurd (late_run (late_step hlate hs) hr) hnot
    · obtain rfl : c₁ = c₂ := Option.some.inj (hs.symm.trans hc₂)
      exact ih hr

/-- The submission fails only if the session has been closed. -/
theorem submitted_of_targetOpen {b : CallAct} (hopen : TargetOpen i c b)
    (hs : (nextCall i name c₀).step c b = some c') :
    c'.err ≠ some .pushFailed ∧ c'.err ≠ some .notifyFailed := by
  simp only [nextCall, Call.step] at hs
  split_ifs at hs with hgo
  obtain ⟨herr, -⟩ := hgo
  have hnone : ∀ c'' : Call, c''.err = none →
      c''.err ≠ some .pushFailed ∧ c''.err ≠ some .notifyFailed := by
    intro c'' h
    rw [h]
    exact ⟨nofun, nofun⟩
  cases b with
  | own a =>
    obtain ⟨s, hconn, rfl⟩ := Option.map_eq_some_iff.1 hs
    rcases Call.advance_err herr (c.hub.conns i).pc a s with hn | ⟨rfl, hf⟩
    · exact hnone _ hn
    · unfold stepConn at hconn
      rw [hf]
      cases hpc : (c.hub.conns i).pc with
      | push d =>
        have hd := hopen d (.inl hpc)
        simp only [hpc, hd] at hconn
        cases hconn
      | notify d =>
        have hd := hopen d (.inr hpc)
        simp only [hpc, hd] at hconn
        cases hconn
      | allocSlot u => cases u <;> exact ⟨nofun, nofun⟩
      | _ => exact ⟨nofun, nofun⟩
  | dial d name lang =>
    obtain ⟨s, -, rfl⟩ := Option.map_eq_some_iff.1 hs
    exact hnone _ herr
  | watch d =>
    obtain ⟨s, -, rfl⟩ := Option.map_eq_some_iff.1 hs
    exact hnone _ herr

theorem submitted_of_runOk {as : List CallAct}
    (h : c.err ≠ some .pushFailed ∧ c.err ≠ some .notifyFailed)
    (hok : (nextCall i name c₀).RunOk (TargetOpen i) c as)
    (hr : (nextCall i name c₀).run c as = some c') :
    c'.err ≠ some .pushFailed ∧ c'.err ≠ some .notifyFailed := by
  induction as generalizing c with
  | nil =>
    cases hr
    exact h
  | cons b as ih =>
    rw [System.run_cons, Option.bind_eq_some_iff] at hr
    obtain ⟨c₁, hs, hr⟩ := hr
    exact ih (submitted_of_targetOpen hok.1 hs) (hok.2 c₁ hs) hr

theorem start_submitted (c₀ : Call) (i name : ℕ) :
    (c₀.start i name).err ≠ some .pushFailed ∧ (c₀.start i name).err ≠ some .notifyFailed := by
  unfold Call.start
  split <;> exact ⟨nofun, nofun⟩

/-- Every run of a call of `Next`, on a slot at the hub's disposal or without a slot, that ends with one
of the errors: the connection is as usable as before if and only if the session that was looked up had
not been closed whenever the request was about to be submitted.  That is so if the name is unknown or no
slot is idle, since the call then ends before. -/
theorem next_failure_usable_iff {e : NextError} {as : List CallAct}
    (hpc : (c₀.hub.conns i).pc = .opened)
    (hst : (c₀.hub.conns i).slotID ≠ 0 →
      (c₀.hub.reg (c₀.hub.conns i).slotID).status.handedBack)
    (hdone : (c₀.hub.conns i).slotID ≠ 0 → (c₀.hub.conns i).done ≠ none)
    (hr : (nextCall i name c₀).run (c₀.start i name) as = some c) (herr : c.err = some e)
    (he : e ≠ .timedOut) :
    Usable c₀ c i ↔ (nextCall i name c₀).RunOk (TargetOpen i) (c₀.start i name) as := by
  have hreach : (nextCall i name c₀).Reachable c := System.reachable_of_run rfl hr
  have h := (callInv_of_reachable hpc hreach).failed e herr
  have hearly : (∀ e', c.err = some e' → e' ≠ .pushFailed ∧ e' ≠ .notifyFailed) → ¬ Late c i := by
    rintro hne (⟨hn, -⟩ | hp | hn)
    · exact nomatch hn.symm.trans herr
    · exact (hne _ hp).1 rfl
    · exact (hne _ hn).2 rfl
  cases e with
  | timedOut => exact absurd rfl he
  | targetNotFound =>
    have hnot := hearly fun e' h' => by
      rw [herr, Option.some.injEq] at h'
      subst h'
      exact ⟨nofun, nofun⟩
    refine iff_of_true ?_ (targetOpen_of_not_late hr hnot)
    rw [show c = _ from h]
    exact ⟨⟨rfl, rfl, rfl, rfl⟩, hst, fun _ => rfl, proceeds_of_handedBack hpc hdone hst⟩
  | noSlots =>
    have hnot := hearly fun e' h' => by
      rw [herr, Option.some.injEq] at h'
      subst h'
      exact ⟨nofun, nofun⟩
    obtain ⟨hunt, hslot, hopen⟩ := h
    exact iff_of_true ⟨hunt, absurd hslot, absurd hslot,
      proceeds_of_handedBack hopen (absurd hslot) (absurd hslot)⟩ (targetOpen_of_not_late hr hnot)
  | pushFailed =>
    refine iff_of_false (fun hu => h.2 (hu.status h.1)) fun hok => ?_
    exact (submitted_of_runOk (start_submitted c₀ i name) hok hr).1 herr
  | notifyFailed =>
    refine iff_of_false (fun hu => h.2 (hu.status h.1)) fun hok => ?_
    exact (submitted_of_runOk (start_submitted c₀ i name) hok hr).2 herr

/-- Two nodes, and a connection that has no slot yet. -/
def twoNodes : State :=
  (hub.run (newHub fun _ _ => 0) [.dial (1, 0) 0 .go, .dial (2, 0) 1 .go,
    .conn 0 (.request 0 false), .conn 0 (.take [(-1, 256)]), .conn 0 .run]).get (by decide +kernel)

theorem reachable_twoNodes : hub.Reachable twoNodes :=
  System.reachable_of_run (s := newHub fun _ _ => 0) rfl (Option.some_get _).symm

/-- No slot is idle for the first node: a later call can still go to the second. -/
theorem next_failure_usable_noSlots : ∃ c, (nextCall 0 0 ⟨twoNodes, 5, 7, none⟩).Reachable c ∧
    c.err = some .noSlots ∧ Usable ⟨twoNodes, 5, 7, none⟩ c 0 := by
  obtain ⟨c, hr, hc⟩ := Option.map_eq_some_iff.1 (show
    ((nextCall 0 0 ⟨twoNodes, 5, 7, none⟩).run (Call.start ⟨twoNodes, 5, 7, none⟩ 0 0)
      [.own .fail]).map (fun c => decide (c.err = some .noSlots)) = some true by decide +kernel)
  have herr := of_decide_eq_true hc
  refine ⟨c, System.reachable_of_run rfl hr, herr, ?_⟩
  have hslot : (twoNodes.conns 0).slotID = 0 := by decide +kernel
  have hpc : (twoNodes.conns 0).pc = .opened := by decide +kernel
  refine (next_failure_usable_iff hpc (absurd hslot) (absurd hslot) hr herr (by decide)).2
    ⟨fun d hd => ?_, fun _ _ => trivial⟩
  have hstart : ((Call.start ⟨twoNodes, 5, 7, none⟩ 0 0).hub.conns 0).pc = .allocSlot (.next (1, 0)) := by
    decide +kernel
  rw [hstart] at hd
  rcases hd with hd | hd <;> cases hd

/-! ## A node that disappears during the call -/

theorem State.setWatch_setWatch (s : State) (d : SessionId) (w w' : WatchPC) :
    (s.setWatch d w).setWatch d w' = s.setWatch d w' := by
  simp [State.setWatch]

/-- The watchdog goes over idle slots. -/
theorem run_watch {c₀ c : Call} {n j : ℕ} (herr : c.err = none)
    (hpc : (c.hub.conns i).pc ≠ .opened) (hidle : ∀ slot, (c.hub.reg slot).status = .idle)
    (hn : j + n ≤ MaxTotalSlots) :
    (nextCall i name c₀).run { c with hub := c.hub.setWatch d (.status j) }
        (List.replicate n (.watch d)) =
      some { c with hub := c.hub.setWatch d (.status (j + n)) } := by
  induction n generalizing j with
  | zero => rfl
  | succ n ih =>
    have hstep : (nextCall i name c₀).step { c with hub := c.hub.setWatch d (.status j) }
        (.watch d) = some { c with hub := c.hub.setWatch d (.status (j + 1)) } := by
      simp only [nextCall, Call.step]
      rw [if_pos ⟨herr, hpc⟩]
      have hw : ((c.hub.setWatch d (.status j)).sessions d).watch = .status j := by
        simp only [State.setWatch, Function.update_self]
      have hj : ((c.hub.setWatch d (.status j)).reg j).status = .idle := hidle j
      simp only [stepWatch, hw]
      rw [if_neg (by omega), if_pos hj, State.setWatch_setWatch]
      rfl
    rw [List.replicate_succ, System.run_cons, hstep, Option.bind_some, ih (by omega)]
    rw [show j + 1 + n = j + (n + 1) by omega]

/-- The first node disappears right after it was looked up.  The entry stays busy, with the node that
is gone as its owner, the waiter stays registered and the request in the node's queue; a later call
for the other node waits for the previous owner, in vain. -/
theorem next_failure_leaves_busy : hub.Reachable twoNodes ∧ (twoNodes.conns 0).pc = .opened ∧
    (twoNodes.conns 0).slotID = 0 ∧
    ∃ c, (nextCall 0 0 ⟨twoNodes, 5, 7, none⟩).Reachable c ∧ c.err = some .notifyFailed ∧
      (c.hub.conns 0).slotID = 1 ∧ c.hub.reg 1 = ⟨(-1, 256), 1, .busy⟩ ∧
      c.hub.waiters 1 = some 0 ∧ c.hub.reqQ 1 = [⟨1, .process, (0, 1)⟩] ∧
      ((stepConn c.hub 0 (.next 1)).map fun t => (stepConn t 0 .run).isSome) = some false := by
  refine ⟨reachable_twoNodes, by decide +kernel, by decide +kernel, ?_⟩
  let c : Call := Call.start ⟨twoNodes, 5, 7, none⟩ 0 0
  have hread : (nextCall 0 0 ⟨twoNodes, 5, 7, none⟩).Reachable
      { c with hub := c.hub.setWatch (1, 0) (.status 0) } :=
    .step (a := .watch (1, 0)) (.init rfl) trivial rfl
  -- the watchdog finds all slots idle, so that its loop leaves the registry
  have hscan := hread.run (fun _ _ _ => trivial)
    (run_watch (c := c) (n := MaxTotalSlots) rfl (by decide +kernel) (fun slot => rfl) (by omega))
  obtain ⟨t, hrun, ht⟩ := Option.map_eq_some_iff.1 (show
    ((nextCall 0 0 ⟨twoNodes, 5, 7, none⟩).run
        { c with hub := c.hub.setWatch (1, 0) (.status (0 + MaxTotalSlots)) }
        (List.replicate 4 (.watch (1, 0)) ++
          [.own (.pick 1), .own .run, .own .run, .own .run, .own (.pick 0)] ++
          List.replicate 7 (.own .run) ++ [.own .fail])).map
      (fun c => decide (c.err = some .notifyFailed ∧ (c.hub.conns 0).slotID = 1 ∧
        c.hub.reg 1 = ⟨(-1, 256), 1, .busy⟩ ∧ c.hub.waiters 1 = some 0 ∧
        c.hub.reqQ 1 = [⟨1, .process, (0, 1)⟩] ∧
        ((stepConn c.hub 0 (.next 1)).map fun t => (stepConn t 0 .run).isSome) = some false)) =
      some true by decide +kernel)
  exact ⟨t, hscan.run (fun _ _ _ => trivial) hrun, of_decide_eq_true ht⟩

end Mmfg.Hub
