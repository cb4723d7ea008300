import Mmfg.Growth.Basic
import Mmfg.Lib.Simulation
import Mmfg.Session.Tables

/-!
# Sessions while the bus grows

How far a session has come is here a matter of program points: some thread is in its `Dial` or in its
watchdog.  `Slice` is what the tables depend on, and `SliceStep` lists the few ways in which a step
changes it.  In each of them the sessions of `Mmfg.Session` can follow, so that the node table, the node
IDs and the sessions are at any time those of a reachable state there (`tables_reachable`).
-/

namespace Mmfg

open Session (Base Info Leads Shows Tables leads_of_step)

namespace Growth

/-! ## What the tables depend on -/

/-- The session that a thread has in hand and how far it has come with it; there is no stage before it
has an ID. -/
abbrev Place := Option (ℕ × Option Session.Stage)

/-- The place of a reader of `b.mu`. -/
def BReader.place : BReader → Place
  | .handshake d _ _ => some (d, some .dialing)
  | .catchUp d _ _ _ => some (d, some .sent)
  | .cleanup d => some (d, some .lost)
  | .expand | .scan _ | .undo _ => none

/-- The place of a writer of `h.mu`. -/
def HWriter.place : HWriter → Place
  | .allocNodeID d => some (d, none)
  | .register d _ => some (d, some .sent)
  | .freeNodeID d => some (d, some .cleaned)
  | .delete d => some (d, some .freed)

/-- The place of a reader of `h.mu`. -/
def HReader.place : HReader → Place
  | .handshake d => some (d, some .dialing)
  | .expand | .respond | .broadcast _ _ => none

/-- The place of a thread at a program point. -/
def PC.place : PC → Place
  | .hLock k | .hLockWait k => k.place
  | .hRLock k | .hRLockWait k => k.place
  | .bRLock k | .bRLockWait k | .bRead k | .panicked k => k.place
  | .allocNodeID d => some (d, none)
  | .handCount d | .handRUnlock d _ _ | .handSend d _ _ => some (d, some .dialing)
  | .afterCount d _ | .catchSend d _ | .register d => some (d, some .sent)
  | .cleanup d => some (d, some .lost)
  | .freeNodeID d => some (d, some .cleaned)
  | .delete d => some (d, some .freed)
  | _ => none

/-- A session without its socket. -/
structure Entry where
  name : ℕ
  nodeID : ℕ
  live : Bool

/-- The part of the state that the tables depend on. -/
structure Slice (ι : Type) where
  place : ι → Place
  entry : ℕ → Entry
  nodes : List (ℕ × ℕ)
  nodeIDs : List ℕ
  next : ℕ

variable {ι : Type}

/-- The entry of a session. -/
def Session.entry (x : Session) : Entry := ⟨x.name, x.nodeID, x.live⟩

/-- The slice of a state. -/
def State.slice (s : State ι) : Slice ι :=
  ⟨fun i => (s.pc i).place, fun d => (s.sessions d).entry, s.nodes, s.nodeIDs, s.next⟩

namespace Slice

/-- Session `d`, when it has come to `stage`. -/
def info (c : Slice ι) (d : ℕ) (stage : Session.Stage) : Info ℕ :=
  ⟨(c.entry d).name, (c.entry d).nodeID, stage⟩

/-- Session `d` has come to `stage`: it is live, or some thread has it in hand. -/
def At (c : Slice ι) (d : ℕ) (stage : Session.Stage) : Prop :=
  (c.entry d).live = true ∧ stage = .live ∨ ∃ i, c.place i = some (d, some stage)

/-- The node IDs as a set of bits. -/
def bits (c : Slice ι) (id : ℕ) : Bool := decide (id ∈ c.nodeIDs)

/-- The tables. -/
def tables (c : Slice ι) : Tables ℕ ℕ where
  nodes := c.nodes
  nodeIDs := c.bits
  At d y := ∃ stage, c.At d stage ∧ y = c.info d stage

variable [DecidableEq ι]

/-- Thread `i` has session `d` in hand, at `p`, or lets it go. -/
def put (c : Slice ι) (i : ι) (d : ℕ) (p : Option (Option Session.Stage)) (x : Entry) : Slice ι :=
  { c with
    place := Function.update c.place i (p.map (d, ·))
    entry := Function.update c.entry d x }

end Slice

/-- How a step changes the slice. -/
inductive SliceStep [DecidableEq ι] (c : Slice ι) : Slice ι → Prop
  | stay : SliceStep c c
  | callDial (i : ι) (name : ℕ) (hi : c.place i = none) :
    SliceStep c { c.put i c.next (some none) ⟨name, 0, false⟩ with next := c.next + 1 }
  | alloc (i : ι) (d id : ℕ) (hi : c.place i = some (d, none))
    (hid : Session.allocNodeID c.bits = some id) :
    SliceStep c { c.put i d (some (some .dialing)) { c.entry d with nodeID := id } with
      nodeIDs := id :: c.nodeIDs }
  | eventfdFails (i : ι) (d id : ℕ) (hi : c.place i = some (d, none))
    (hid : Session.allocNodeID c.bits = some id) :
    SliceStep c { c.put i d none { c.entry d with nodeID := id } with nodeIDs := id :: c.nodeIDs }
  | fail (i : ι) (d : ℕ) (p : Option Session.Stage) (hi : c.place i = some (d, p))
    (hp : ∀ stage ∈ p, stage.watched = false) : SliceStep c (c.put i d none (c.entry d))
  | handshake (i : ι) (d : ℕ) (hi : c.place i = some (d, some .dialing)) :
    SliceStep c (c.put i d (some (some .sent)) (c.entry d))
  | register (i : ι) (d : ℕ) (hi : c.place i = some (d, some .sent)) :
    SliceStep c { c.put i d none { c.entry d with live := true } with
      nodes := ((c.entry d).name, d) :: c.nodes.filter fun p => p.1 ≠ (c.entry d).name }
  | callWatchdog (i : ι) (d : ℕ) (hi : c.place i = none) (hlive : (c.entry d).live = true) :
    SliceStep c (c.put i d (some (some .lost)) { c.entry d with live := false })
  | cleanup (i : ι) (d : ℕ) (hi : c.place i = some (d, some .lost)) :
    SliceStep c (c.put i d (some (some .cleaned)) (c.entry d))
  | freeNodeID (i : ι) (d : ℕ) (hi : c.place i = some (d, some .cleaned)) :
    SliceStep c { c.put i d (some (some .freed)) (c.entry d) with
      nodeIDs := c.nodeIDs.erase (c.entry d).nodeID }
  | delete (i : ι) (d : ℕ) (hi : c.place i = some (d, some .freed)) :
    SliceStep c { c.put i d none (c.entry d) with
      nodes := c.nodes.filter fun p => p.1 ≠ (c.entry d).name }

/-! ## Steps -/

theorem freeID_eq (s : State ι) : s.freeID = Session.allocNodeID s.slice.bits := by
  have hrange : List.range MaxNodes = 0 :: List.range' 1 (MaxNodes - 1) := by
    rw [List.range_eq_range', show MaxNodes = (MaxNodes - 1) + 1 from rfl, List.range'_succ]
    rfl
  rw [Session.allocNodeID, hrange, List.find?_cons_of_neg (by simp), State.freeID]
  refine List.find?_congr fun id hid => ?_
  have hone : 1 ≤ id := (List.mem_range'_1.1 hid).1
  rw [decide_eq_true hone, Bool.true_and]
  exact decide_not

theorem slice_setSession_same (s : State ι) {d : ℕ} {x : Session}
    (hx : x.entry = (s.sessions d).entry) : (s.setSession d x).slice = s.slice := by
  simp only [State.slice, State.setSession, Slice.mk.injEq, and_true, true_and]
  funext e
  by_cases he : e = d <;> simp [he, hx]

variable {s t : State ι} {i : ι} {pc : PC}

theorem slice_send (s : State ι) (d : ℕ) (m : Msg) : (s.send d m).slice = s.slice :=
  slice_setSession_same s rfl

theorem place_eq (hpc : s.pc i = pc) : s.slice.place i = pc.place := congrArg PC.place hpc

variable [DecidableEq ι]

theorem slice_put (s : State ι) (i : ι) (d : ℕ) (x : Session) (pc : PC)
    (p : Option (Option Session.Stage)) (hp : pc.place = p.map (d, ·)) :
    ((s.setSession d x).goto i pc).slice = s.slice.put i d p x.entry := by
  simp only [State.slice, State.goto, State.setSession, Slice.put, Slice.mk.injEq, and_true]
  constructor
  · funext j
    by_cases hj : j = i <;> simp [hj, hp]
  · funext e
    by_cases he : e = d <;> simp [he]

theorem slice_goto (s : State ι) (i : ι) (d : ℕ) (pc : PC) (p : Option (Option Session.Stage))
    (hp : pc.place = p.map (d, ·)) :
    (s.goto i pc).slice = s.slice.put i d p (s.slice.entry d) := by
  have hset := slice_put s i d (s.sessions d) pc p hp
  rw [State.setSession, Function.update_eq_self] at hset
  exact hset

theorem SliceStep.of_eq {c c' c'' : Slice ι} (h : SliceStep c c') (he : c'' = c') :
    SliceStep c c'' := he ▸ h

/-- A thread takes a step without going to another place. -/
theorem SliceStep.of_goto {pc' : PC} {u : State ι} (hpc : s.pc i = pc) (hu : u.slice = s.slice)
    (ht : t.slice = (u.goto i pc').slice) (hp : pc'.place = pc.place) : SliceStep s.slice t.slice := by
  refine SliceStep.stay.of_eq (ht.trans (Eq.trans ?_ hu))
  simp only [State.slice, State.goto, Slice.mk.injEq, and_true]
  funext j
  by_cases hj : j = i
  · rw [hj, Function.update_self, hp, ← hpc]
    exact (congrFun (congrArg Slice.place hu) i).symm
  · rw [Function.update_of_ne hj]

theorem HWriter.enter_place (k : HWriter) : k.enter.place = k.place := by cases k <;> rfl

theorem HReader.enter_place (k : HReader) : k.enter.place = k.place := by cases k <;> rfl

theorem Caller.done_place (r : Caller) : r.done.place = none := by cases r <;> rfl

theorem handLoop_place (d n : ℕ) (fds : List Chunk) :
    (handLoop d n fds).place = some (d, some .dialing) := by
  unfold handLoop
  split_ifs <;> rfl

theorem catchLoop_place (d n after : ℕ) (fds : List Chunk) :
    (catchLoop d n after fds).place = some (d, some .sent) := by
  unfold catchLoop
  split_ifs <;> rfl

theorem sliceStep_lock (hpc : s.pc i = pc) (hs : s.stepLock i pc = some t) :
    SliceStep s.slice t.slice := by
  cases pc with
  | hRLock k | bRLock k =>
    cases hs
    exact .of_goto hpc rfl rfl rfl
  | hLock k | bRLockWait k =>
    simp only [State.stepLock] at hs
    split_ifs at hs
    cases hs
    exact .of_goto hpc rfl rfl rfl
  | bLock r chunk | bLockWait r chunk =>
    simp only [State.stepLock] at hs
    split_ifs at hs
    cases hs
    exact .of_goto hpc rfl rfl rfl
  | hLockWait k | hRLockWait k =>
    simp only [State.stepLock] at hs
    split_ifs at hs
    cases hs
    exact .of_goto hpc rfl rfl k.enter_place
  | _ => cases hs

theorem sliceStep_dial {alt : Bool} (hpc : s.pc i = pc) (hs : s.stepDial i alt pc = some t) :
    SliceStep s.slice t.slice := by
  cases pc with
  | allocNodeID d =>
    simp only [State.stepDial] at hs
    split at hs
    · rename_i id hid
      rw [freeID_eq] at hid
      cases hs
      cases alt
      · refine (SliceStep.alloc i d id (place_eq hpc) hid).of_eq ?_
        exact congrArg (fun c : Slice ι => { c with nodeIDs := id :: s.nodeIDs })
          (slice_put s i d { s.sessions d with nodeID := id } (.hRLock (.handshake d)) (some _) rfl)
      · refine (SliceStep.eventfdFails i d id (place_eq hpc) hid).of_eq ?_
        exact congrArg (fun c : Slice ι => { c with nodeIDs := id :: s.nodeIDs })
          (slice_put s i d { s.sessions d with nodeID := id } .idle none rfl)
    · cases hs
      exact (SliceStep.fail i d none (place_eq hpc) nofun).of_eq (slice_goto s i d .idle none rfl)
  | handCount d =>
    cases hs
    exact .of_goto hpc rfl rfl (handLoop_place ..)
  | handRUnlock d n fds =>
    cases hs
    exact .of_goto hpc rfl rfl rfl
  | handSend d n fds =>
    simp only [State.stepDial] at hs
    split_ifs at hs
    · cases hs
      exact (SliceStep.fail i d _ (place_eq hpc) (by simp [Session.Stage.watched])).of_eq
        (slice_goto s i d .idle none rfl)
    · cases hs
      refine (SliceStep.handshake i d (place_eq hpc)).of_eq ?_
      rw [slice_goto (s.send d (.handshake fds)) i d _ (some (some .sent)) rfl, slice_send]
  | afterCount d n =>
    simp only [State.stepDial] at hs
    split_ifs at hs
    · cases hs
      exact .of_goto hpc rfl rfl (catchLoop_place ..)
    · cases hs
      exact .of_goto hpc rfl rfl rfl
  | catchSend d fds =>
    simp only [State.stepDial] at hs
    split_ifs at hs
    · cases hs
      exact (SliceStep.fail i d _ (place_eq hpc) (by simp [Session.Stage.watched])).of_eq
        (slice_goto s i d .idle none rfl)
    · cases hs
      exact .of_goto hpc (slice_send ..) rfl rfl
  | register d =>
    cases hs
    refine (SliceStep.register i d (place_eq hpc)).of_eq ?_
    exact congrArg (fun c : Slice ι => { c with
      nodes := ((s.sessions d).name, d) :: s.nodes.filter fun p => p.1 ≠ (s.sessions d).name })
      (slice_put s i d { s.sessions d with live := true } .idle none rfl)
  | _ => cases hs

theorem sliceStep_hub {alt : Bool} (hpc : s.pc i = pc) (hs : s.stepHub i alt pc = some t) :
    SliceStep s.slice t.slice := by
  cases pc with
  | expandRUnlock =>
    cases hs
    refine .of_goto hpc rfl rfl ?_
    cases alt <;> rfl
  | respond =>
    cases hs
    exact .of_goto hpc rfl rfl rfl
  | cleanup d =>
    cases hs
    cases alt
    · exact (SliceStep.cleanup i d (place_eq hpc)).of_eq
        (slice_goto s i d (.hLock (.freeNodeID d)) (some (some .cleaned)) rfl)
    · exact .of_goto hpc rfl rfl rfl
  | freeNodeID d =>
    cases hs
    refine (SliceStep.freeNodeID i d (place_eq hpc)).of_eq ?_
    exact congrArg (fun c : Slice ι => { c with
      nodeIDs := s.nodeIDs.erase (s.sessions d).nodeID })
      (slice_goto s i d (.hLock (.delete d)) (some _) rfl)
  | delete d =>
    cases hs
    refine (SliceStep.delete i d (place_eq hpc)).of_eq ?_
    exact congrArg (fun c : Slice ι => { c with
      nodes := s.nodes.filter fun p => p.1 ≠ (s.sessions d).name })
      (slice_goto s i d .idle none rfl)
  | _ => cases hs

theorem busRead_place (s : State ι) (i : ι) (alt : Bool) (k : BReader) :
    ∃ pc : PC, s.busRead i alt k = s.goto i pc ∧ pc.place = k.place := by
  cases k with
  | handshake d n fds =>
    simp only [State.busRead]
    split
    · exact ⟨_, rfl, handLoop_place ..⟩
    · exact ⟨_, rfl, rfl⟩
  | catchUp d n after fds =>
    simp only [State.busRead]
    split
    · exact ⟨_, rfl, catchLoop_place ..⟩
    · exact ⟨_, rfl, rfl⟩
  | expand => exact ⟨_, rfl, rfl⟩
  | undo r => exact ⟨_, rfl, rfl⟩
  | cleanup d => exact ⟨_, rfl, rfl⟩
  | scan r =>
    refine ⟨_, rfl, ?_⟩
    cases alt
    · exact r.done_place
    · rfl

/-- `AllocBlocks` and `tryAppendChunk` have no session in hand. -/
theorem sliceStep_append {alt : Bool} (hpc : s.pc i = pc) (hs : s.stepAppend i alt pc = some t) :
    SliceStep s.slice t.slice := by
  cases pc with
  | bRead k =>
    obtain ⟨pc', hpc', hp⟩ := busRead_place s i alt k
    simp only [State.stepAppend, hpc'] at hs
    cases hs
    exact .of_goto hpc rfl rfl hp
  | chunkCount r =>
    simp only [State.stepAppend] at hs
    split_ifs at hs <;> cases hs
    · exact .of_goto hpc rfl rfl rfl
    · exact .of_goto hpc rfl rfl rfl
  | muxLock r n =>
    simp only [State.stepAppend] at hs
    split_ifs at hs
    cases hs
    exact .of_goto hpc rfl rfl rfl
  | recheck r n | newChunk r n =>
    simp only [State.stepAppend] at hs
    split_ifs at hs <;> cases hs
    · exact .of_goto hpc rfl rfl rfl
    · exact .of_goto hpc rfl rfl rfl
  | grow r chunk | snapshot r chunk =>
    cases hs
    exact .of_goto hpc rfl rfl rfl
  | broadcast r chunk nodes =>
    simp only [State.stepAppend] at hs
    split_ifs at hs
    cases hs
    exact .of_goto hpc rfl rfl rfl
  | bUnlock r =>
    cases hs
    exact .of_goto hpc rfl rfl rfl
  | muxUnlock r failed =>
    cases hs
    refine .of_goto hpc rfl rfl ?_
    cases failed <;> rfl
  | undo r =>
    cases hs
    refine .of_goto hpc rfl rfl ?_
    cases alt
    · exact r.done_place
    · rfl
  | _ => cases hs

theorem Session.recv_entry {x y : Session} (h : x.recv = some y) : y.entry = x.entry := by
  unfold Session.recv at h
  split at h
  · cases h
  · split at h <;> cases h <;> rfl

theorem sliceStep_of_step {a : Action ι} (hs : step s a = some t) : SliceStep s.slice t.slice := by
  cases a with
  | callDial i name =>
    simp only [step] at hs
    split_ifs at hs with hpc
    cases hs
    refine (SliceStep.callDial i name (place_eq hpc)).of_eq ?_
    exact congrArg (fun c : Slice ι => { c with next := s.next + 1 })
      (slice_put s i s.next _ (.hLock (.allocNodeID s.next)) (some none) rfl)
  | callAlloc i =>
    simp only [step] at hs
    split_ifs at hs with hpc
    cases hs
    exact .of_goto hpc rfl rfl rfl
  | callExpand i =>
    simp only [step] at hs
    split_ifs at hs with hpc
    cases hs
    exact .of_goto hpc rfl rfl rfl
  | callWatchdog i d =>
    simp only [step] at hs
    split_ifs at hs with hpc
    cases hs
    exact (SliceStep.callWatchdog i d (place_eq hpc.1) hpc.2).of_eq
      (slice_put s i d _ (.cleanup d) (some (some .lost)) rfl)
  | run i alt =>
    simp only [step, Option.orElse_eq_some] at hs
    rcases hs with hs | ⟨-, hs | ⟨-, hs | ⟨-, hs⟩⟩⟩
    · exact sliceStep_lock rfl hs
    · exact sliceStep_dial rfl hs
    · exact sliceStep_hub rfl hs
    · exact sliceStep_append rfl hs
  | sync i d alt =>
    cases hpc : s.pc i with
    | broadcast r chunk nodes =>
      simp only [step, hpc, State.sync] at hs
      split_ifs at hs
      · cases hs
        exact .of_goto hpc rfl rfl rfl
      · cases hs
        exact .of_goto hpc (slice_send ..) rfl rfl
    | _ => simp [step, hpc, State.sync] at hs
  | recv d =>
    obtain ⟨x, hx, rfl⟩ := Option.map_eq_some_iff.1 hs
    rw [slice_setSession_same s (Session.recv_entry hx)]
    exact .stay

/-! ## Threads and sessions -/

/-- The stage of a session with this entry that some thread has at `p`. -/
def Entry.stage (x : Entry) (p : Option (Option Session.Stage)) : Option Session.Stage :=
  if x.live then some .live else p.join

theorem Entry.stage_of_not_live {x : Entry} (h : x.live = false) (p : Option (Option Session.Stage)) :
    x.stage p = p.join := by
  rw [Entry.stage, if_neg (by simp [h])]

namespace Slice

/-- A session is live or in the hands of at most one thread; those in the table are watched. -/
structure WF (c : Slice ι) : Prop where
  apart : ∀ i j d p q, c.place i = some (d, p) → c.place j = some (d, q) → i = j
  idle : ∀ i d p, c.place i = some (d, p) → (c.entry d).live = false
  old : ∀ i d p, c.place i = some (d, p) → d < c.next
  known : ∀ d, (c.entry d).live = true → d < c.next
  nodup : c.nodeIDs.Nodup
  listed : ∀ q ∈ c.nodes, (c.entry q.2).name = q.1 ∧ ∃ stage, c.At q.2 stage ∧ stage.watched = true

/-- No other thread has session `d` in hand, and thread `i` no other session. -/
structure Mine (c : Slice ι) (i : ι) (d : ℕ) : Prop where
  own : ∀ e q, c.place i = some (e, q) → e = d
  others : ∀ j q, c.place j = some (d, q) → j = i

variable {c : Slice ι} {d e : ℕ} {p : Option (Option Session.Stage)} {x : Entry}
  {stage : Session.Stage}

theorem at_put_of_ne (h : c.Mine i d) (he : e ≠ d) :
    (c.put i d p x).At e stage ↔ c.At e stage := by
  simp only [At, put, Function.update_of_ne he]
  refine or_congr_right ⟨fun ⟨j, hj⟩ => ⟨j, ?_⟩, fun ⟨j, hj⟩ => ⟨j, ?_⟩⟩
  · by_cases hji : j = i
    · rw [hji, Function.update_self, Option.map_eq_some_iff] at hj
      obtain ⟨q, -, hq⟩ := hj
      exact absurd (congrArg Prod.fst hq).symm he
    · rwa [Function.update_of_ne hji] at hj
  · rwa [Function.update_of_ne]
    rintro rfl
    exact he (h.own _ _ hj)

theorem at_put_self (h : c.Mine i d) (hx : x.live = true → p = none) :
    (c.put i d p x).At d stage ↔ x.stage p = some stage := by
  have hplace : (∃ j, (c.put i d p x).place j = some (d, some stage)) ↔ p = some (some stage) := by
    simp only [put]
    refine ⟨fun ⟨j, hj⟩ => ?_, fun hp => ⟨i, by rw [Function.update_self, hp]; rfl⟩⟩
    by_cases hji : j = i
    · rw [hji, Function.update_self, Option.map_eq_some_iff] at hj
      obtain ⟨q, hq, he⟩ := hj
      rw [hq, (Prod.mk.inj he).2]
    · rw [Function.update_of_ne hji] at hj
      exact absurd (h.others j _ hj) hji
  rw [At, hplace, Entry.stage]
  simp only [put, Function.update_self]
  cases hlive : x.live with
  | true => simp [hx hlive, eq_comm]
  | false => simp [Option.join_eq_some_iff]

omit [DecidableEq ι] in
theorem WF.mine (h : c.WF) {q : Option Session.Stage} (hi : c.place i = some (d, q)) :
    c.Mine i d where
  own e r he := by
    rw [hi] at he
    exact (Prod.mk.inj (Option.some.inj he)).1.symm
  others j r hj := h.apart j i d r q hj hi

omit [DecidableEq ι] in
theorem WF.mine_next (h : c.WF) (hi : c.place i = none) : c.Mine i c.next where
  own e q he := by
    rw [hi] at he
    cases he
  others j q hj := absurd (h.old j _ q hj) (lt_irrefl _)

omit [DecidableEq ι] in
theorem WF.mine_live (h : c.WF) (hi : c.place i = none) (hlive : (c.entry d).live = true) :
    c.Mine i d where
  own e q he := by
    rw [hi] at he
    cases he
  others j q hj := by
    rw [h.idle j d q hj] at hlive
    cases hlive

theorem WF.put (h : c.WF) (hm : c.Mine i d) (hlt : d < c.next) (hx : x.live = true → p = none)
    (hlisted : ∀ q ∈ c.nodes, q.2 = d → x.name = (c.entry d).name ∧
      ∃ stage, x.stage p = some stage ∧ stage.watched = true) : (c.put i d p x).WF := by
  -- who has a session in hand after the step
  have hplace : ∀ j e q, (c.put i d p x).place j = some (e, q) →
      j = i ∧ e = d ∧ p = some q ∨ j ≠ i ∧ e ≠ d ∧ c.place j = some (e, q) := by
    intro j e q hj
    by_cases hji : j = i
    · simp only [Slice.put, hji, Function.update_self, Option.map_eq_some_iff] at hj
      obtain ⟨r, hr, he⟩ := hj
      cases he
      exact .inl ⟨hji, rfl, hr⟩
    · simp only [Slice.put, Function.update_of_ne hji] at hj
      refine .inr ⟨hji, ?_, hj⟩
      rintro rfl
      exact hji (hm.others j q hj)
  refine ⟨fun j k e q r hj hk => ?_, fun j e q hj => ?_, fun j e q hj => ?_, fun e he => ?_, h.nodup,
    fun q hq => ?_⟩
  · rcases hplace j e q hj with ⟨rfl, rfl, -⟩ | ⟨-, hne, hj⟩ <;>
      rcases hplace k e r hk with ⟨rfl, he, -⟩ | ⟨-, hne', hk⟩
    · rfl
    · exact absurd rfl hne'
    · exact absurd he hne
    · exact h.apart j k e q r hj hk
  · rcases hplace j e q hj with ⟨-, rfl, hp⟩ | ⟨-, hne, hj⟩
    · simp only [Slice.put, Function.update_self]
      by_contra hlive
      rw [hx (Bool.eq_true_of_not_eq_false hlive)] at hp
      cases hp
    · simp only [Slice.put, Function.update_of_ne hne]
      exact h.idle j e q hj
  · rcases hplace j e q hj with ⟨-, rfl, -⟩ | ⟨-, -, hj⟩
    · exact hlt
    · exact h.old j e q hj
  · by_cases hed : e = d
    · exact hed ▸ hlt
    · simp only [Slice.put, Function.update_of_ne hed] at he
      exact h.known e he
  · obtain ⟨hname, stage, hat, hw⟩ := h.listed q hq
    by_cases hqd : q.2 = d
    · obtain ⟨hxname, stage, hstage, hw⟩ := hlisted q hq hqd
      refine ⟨?_, stage, ?_, hw⟩
      · simp only [Slice.put, hqd, Function.update_self]
        rw [hxname, ← hqd, hname]
      · rw [hqd]
        exact (at_put_self hm hx).2 hstage
    · refine ⟨?_, stage, (at_put_of_ne hm hqd).2 hat, hw⟩
      simp only [Slice.put, Function.update_of_ne hqd]
      exact hname

/-- The session that the step is about comes to a stage, or is forgotten. -/
theorem at_put (h : c.Mine i d) (hx : x.live = true → p = none) {stage : Session.Stage}
    (hstage : x.stage p = some stage) :
    (c.put i d p x).tables.At = (c.tables.set d ⟨x.name, x.nodeID, stage⟩).At := by
  funext e y
  by_cases he : e = d
  · subst he
    simp only [tables, Tables.set, at_put_self h hx, hstage, eq_iff_iff]
    simp [info, Slice.put]
  · simp only [tables, Tables.set, at_put_of_ne h he, he, eq_iff_iff]
    simp [info, Slice.put, he]

omit [DecidableEq ι] in
theorem at_of_place (hi : c.place i = some (d, some stage)) : c.tables.At d (c.info d stage) :=
  ⟨stage, .inr ⟨i, hi⟩, rfl⟩

omit [DecidableEq ι] in
theorem WF.lt_next (h : c.WF) (hat : c.At d stage) : d < c.next := by
  rcases hat with ⟨hlive, -⟩ | ⟨i, hi⟩
  · exact h.known d hlive
  · exact h.old i d _ hi

omit [DecidableEq ι] in
/-- The session that a thread has in hand is where the thread has it. -/
theorem WF.at_eq (h : c.WF) {q : Option Session.Stage} (hi : c.place i = some (d, q))
    (hat : c.At d stage) : q = some stage := by
  rcases hat with ⟨hlive, -⟩ | ⟨j, hj⟩
  · rw [h.idle i d q hi] at hlive
    cases hlive
  · rw [h.apart j i d _ _ hj hi, hi] at hj
    exact (Prod.mk.inj (Option.some.inj hj)).2

omit [DecidableEq ι] in
/-- A session that is in the hands of its `Dial` is not in the table. -/
theorem WF.unlisted (h : c.WF) {q : Option Session.Stage} (hi : c.place i = some (d, q))
    (hq : ∀ stage ∈ q, stage.watched = false) : ∀ r ∈ c.nodes, r.2 ≠ d := by
  rintro r hr rfl
  obtain ⟨-, stage, hat, hw⟩ := h.listed r hr
  rw [hq stage (h.at_eq hi hat)] at hw
  cases hw

omit [DecidableEq ι] in
theorem WF.known_tables (h : c.WF) : ∀ q ∈ c.tables.nodes, ∃ y, c.tables.At q.2 y ∧ y.name = q.1 := by
  intro q hq
  obtain ⟨hname, stage, hat, -⟩ := h.listed q hq
  exact ⟨c.info q.2 stage, ⟨stage, hat, rfl⟩, hname⟩

omit [DecidableEq ι] in
theorem bits_cons (c : Slice ι) (id : ℕ) :
    { c with nodeIDs := id :: c.nodeIDs }.bits = Function.update c.bits id true := by
  funext n
  by_cases hn : n = id <;> simp [bits, hn]

omit [DecidableEq ι] in
theorem WF.bits_erase (h : c.WF) (id : ℕ) :
    { c with nodeIDs := c.nodeIDs.erase id }.bits = Function.update c.bits id false := by
  funext n
  by_cases hn : n = id <;> simp [bits, hn, h.nodup.mem_erase_iff]

/-- A session that no thread has any more is forgotten, unless it is live. -/
theorem of_at_put (h : c.Mine i d) (hlive : x.live = false) (hp : p.join = none) {y : Info ℕ}
    (hat : (c.put i d p x).tables.At e y) : e ≠ d ∧ c.tables.At e y := by
  obtain ⟨stage, hat, rfl⟩ := hat
  have hed : e ≠ d := by
    rintro rfl
    rw [at_put_self h (fun hl => absurd hl (by simp [hlive])), Entry.stage_of_not_live hlive, hp] at hat
    cases hat
  refine ⟨hed, stage, (at_put_of_ne h hed).1 hat, ?_⟩
  simp only [info, Slice.put, Function.update_of_ne hed]

theorem WF.advance (h : c.WF) {before : Session.Stage} (after : Session.Stage)
    (hi : c.place i = some (d, some before)) (hw : before.watched = true → after.watched = true) :
    (c.put i d (some (some after)) (c.entry d)).WF := by
  have hidle := h.idle i d _ hi
  refine h.put (h.mine hi) (h.old i d _ hi) (fun hl => absurd hl (by simp [hidle])) ?_
  rintro q hq rfl
  obtain ⟨-, stage, hat, hwatched⟩ := h.listed q hq
  cases h.at_eq hi hat
  exact ⟨rfl, after, Entry.stage_of_not_live hidle _, hw hwatched⟩

theorem WF.at_advance (h : c.WF) {q : Option Session.Stage} (after : Session.Stage)
    (hi : c.place i = some (d, q)) (hx : x.live = false) :
    (c.put i d (some (some after)) x).tables.At =
      (c.tables.set d ⟨x.name, x.nodeID, after⟩).At :=
  at_put (h.mine hi) (fun hl => absurd hl (by simp [hx])) (Entry.stage_of_not_live hx _)

end Slice

/-! ## Runs -/

open Slice in
theorem SliceStep.wf {c c' : Slice ι} (hs : SliceStep c c') (h : c.WF) : c'.WF := by
  cases hs with
  | stay => exact h
  | callDial i name hi =>
    have h' : Slice.WF { c with next := c.next + 1 } :=
      { h with
        old := fun i d p hp => (h.old i d p hp).trans (Nat.lt_succ_self _)
        known := fun d hd => (h.known d hd).trans (Nat.lt_succ_self _) }
    have hm : Slice.Mine { c with next := c.next + 1 } i c.next :=
      ⟨(h.mine_next hi).own, (h.mine_next hi).others⟩
    refine h'.put hm (Nat.lt_succ_self _) nofun fun q hq hd => ?_
    obtain ⟨-, stage, hat, -⟩ := h.listed q hq
    exact absurd (h.lt_next hat) (by rw [hd]; exact lt_irrefl _)
  | alloc i d id hi hid =>
    have hput : (c.put i d (some (some .dialing)) { c.entry d with nodeID := id }).WF :=
      h.put (h.mine hi) (h.old i d _ hi) (fun hl => absurd hl (by simp [h.idle i d _ hi]))
        fun q hq hd => absurd hd (h.unlisted hi nofun q hq)
    refine { hput with nodup := List.nodup_cons.2 ⟨?_, h.nodup⟩ }
    simpa [bits] using Session.allocNodeID_eq_some hid
  | eventfdFails i d id hi hid =>
    have hput : (c.put i d none { c.entry d with nodeID := id }).WF :=
      h.put (h.mine hi) (h.old i d _ hi) (fun _ => rfl)
        fun q hq hd => absurd hd (h.unlisted hi nofun q hq)
    refine { hput with nodup := List.nodup_cons.2 ⟨?_, h.nodup⟩ }
    simpa [bits] using Session.allocNodeID_eq_some hid
  | fail i d p hi hp =>
    exact h.put (h.mine hi) (h.old i d _ hi) (fun _ => rfl)
      fun q hq hd => absurd hd (h.unlisted hi hp q hq)
  | handshake i d hi => exact h.advance .sent hi nofun
  | register i d hi =>
    have hput : (c.put i d none { c.entry d with live := true }).WF :=
      h.put (h.mine hi) (h.old i d _ hi) (fun _ => rfl)
        fun q hq hd => absurd hd (h.unlisted hi (by simp [Session.Stage.watched]) q hq)
    refine { hput with listed := fun q hq => ?_ }
    rcases List.mem_cons.1 hq with rfl | hq
    · refine ⟨?_, .live, .inl ⟨?_, rfl⟩, rfl⟩
      · simp [Slice.put]
      · simp [Slice.put]
    · exact hput.listed q (List.mem_of_mem_filter hq)
  | callWatchdog i d hi hlive =>
    exact h.put (h.mine_live hi hlive) (h.known d hlive) nofun fun q hq hd => ⟨rfl, .lost, rfl, rfl⟩
  | cleanup i d hi => exact h.advance .cleaned hi fun _ => rfl
  | freeNodeID i d hi =>
    exact { h.advance .freed hi fun _ => rfl with nodup := h.nodup.erase _ }
  | delete i d hi =>
    have h' : Slice.WF { c with nodes := c.nodes.filter fun p => p.1 ≠ (c.entry d).name } :=
      { h with listed := fun q hq => h.listed q (List.mem_of_mem_filter hq) }
    have hm : Slice.Mine { c with nodes := c.nodes.filter fun p => p.1 ≠ (c.entry d).name } i d :=
      ⟨(h.mine hi).own, (h.mine hi).others⟩
    refine h'.put hm (h.old i d _ hi) (fun _ => rfl) fun q hq hd => ?_
    obtain ⟨hq, hne⟩ := List.mem_filter.1 hq
    rw [← (h.listed q hq).1, hd] at hne
    simp at hne

/-- The sessions can follow each step. -/
theorem SliceStep.leads {c c' : Slice ι} {num : ℕ → ℕ} {x : Session.State ℕ} (hs : SliceStep c c')
    (h : c.WF) (hv : Shows num c.tables x) (hb : Base x) : Leads x c'.tables := by
  have hwf := hs.wf h
  have hnew : ∀ {i d}, c.place i = some (d, none) → ∀ y, ¬ c.tables.At d y := by
    rintro i d hi y ⟨stage, hat, -⟩
    cases h.at_eq hi hat
  cases hs with
  | stay => exact hv.leads rfl
  | callDial i name hi =>
    exact hv.leads_of_forget rfl rfl hwf.known_tables fun e y hat =>
      (Slice.of_at_put (h.mine_next hi) rfl rfl hat).2
  | alloc i d id hi hid =>
    obtain ⟨x', hx', h'⟩ := hv.dial hb (hnew hi) (c.entry d).name hid
    exact .step hx' (h'.leads (Tables.ext rfl (c.bits_cons id)
      (h.at_advance .dialing hi (h.idle i d _ hi))))
  | eventfdFails i d id hi hid =>
    -- the ID is lost, and so is the session
    obtain ⟨x', hx', h'⟩ := hv.dial hb (hnew hi) (c.entry d).name hid
    refine .step hx' (h'.leads_of_forget (c.bits_cons id) rfl hwf.known_tables fun e y hat => .inr ?_)
    exact Slice.of_at_put (x := { c.entry d with nodeID := id }) (h.mine hi) (h.idle i d _ hi) rfl hat
  | fail i d p hi hp =>
    exact hv.leads_of_forget rfl rfl hwf.known_tables fun e y hat =>
      (Slice.of_at_put (h.mine hi) (h.idle i d _ hi) rfl hat).2
  | handshake i d hi =>
    exact leads_of_step (hv.handshake (Slice.at_of_place hi) rfl)
      (Tables.ext rfl rfl (h.at_advance .sent hi (h.idle i d _ hi)))
  | register i d hi =>
    refine leads_of_step (hv.list (Slice.at_of_place hi) rfl) (Tables.ext rfl rfl ?_)
    exact Slice.at_put (h.mine hi) (fun _ => rfl) rfl
  | callWatchdog i d hi hlive =>
    have hat : c.tables.At d (c.info d .live) := ⟨.live, .inl ⟨hlive, rfl⟩, rfl⟩
    exact leads_of_step (a := .disconnect (num d)) (hv.stage hat rfl)
      (Tables.ext rfl rfl (Slice.at_put (x := { c.entry d with live := false })
        (h.mine_live hi hlive) nofun rfl))
  | cleanup i d hi =>
    exact leads_of_step (a := .cleanupResources (num d)) (hv.stage (Slice.at_of_place hi) rfl)
      (Tables.ext rfl rfl (h.at_advance .cleaned hi (h.idle i d _ hi)))
  | freeNodeID i d hi =>
    exact leads_of_step (hv.freeNodeID (Slice.at_of_place hi) rfl)
      (Tables.ext rfl (h.bits_erase _) (h.at_advance .freed hi (h.idle i d _ hi)))
  | delete i d hi =>
    obtain ⟨x', hx', h'⟩ := hv.delete (Slice.at_of_place hi) rfl
    refine .step hx' (h'.leads_of_forget rfl rfl hwf.known_tables fun e y hat => .inr ?_)
    exact Slice.of_at_put (h.mine hi) (h.idle i d _ hi) rfl hat

omit [DecidableEq ι] in
theorem wf_newHub : (newHub : State ι).slice.WF where
  apart _ _ _ _ _ h := by cases h
  idle _ _ _ h := by cases h
  old _ _ _ h := by cases h
  known _ h := by cases h
  nodup := List.nodup_nil
  listed := nofun

theorem wf_of_reaches {ok : State ι → Action ι → Prop} (h : (hub ι).Reaches ok s) : s.slice.WF := by
  refine h.invariant (I := fun s => s.slice.WF) ?_ fun s a t _ h _ hs => (sliceStep_of_step hs).wf h
  rintro s rfl
  exact wf_newHub

/-- The tables of the hub are those of a reachable state of the sessions. -/
theorem tables_reachable {ok : State ι → Action ι → Prop} (h : (hub ι).Reaches ok s) :
    ∃ x, (Session.hub ℕ).Reachable x ∧ ∃ num, Shows num s.slice.tables x := by
  refine h.refines (R := fun s x => ∃ num, Shows num s.slice.tables x) ?_ ?_
  · rintro s rfl
    refine ⟨Session.initial, rfl, fun _ => 0, rfl, fun _ => rfl, nofun, ?_, ?_⟩
    · rintro d y ⟨stage, ⟨⟨⟩, -⟩ | ⟨i, ⟨⟩⟩, -⟩
    · rintro d e y z ⟨stage, ⟨⟨⟩, -⟩ | ⟨i, ⟨⟩⟩, -⟩
  · rintro s a t x hr hx ⟨num, hv⟩ - hs
    exact (sliceStep_of_step hs).leads (wf_of_reaches hr) hv (Session.base_of_reaches hx)

/-- So no two live sessions have the same ID. -/
theorem eq_of_nodeID_eq {ok : State ι → Action ι → Prop} (h : (hub ι).Reaches ok s) {d e : ℕ}
    (hd : (s.sessions d).live = true) (he : (s.sessions e).live = true)
    (hid : (s.sessions d).nodeID = (s.sessions e).nodeID) : d = e := by
  obtain ⟨x, hx, num, hv⟩ := tables_reachable h
  have hat : ∀ d, (s.sessions d).live = true → s.slice.tables.At d (s.slice.info d .live) :=
    fun d hd => ⟨.live, .inl ⟨hd, rfl⟩, rfl⟩
  exact hv.nodeID_inj (Session.base_of_reaches hx) (hat d hd) (hat e he) rfl rfl hid

end Growth

end Mmfg
