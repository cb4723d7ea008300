import Mmfg.Growth.Basic

/-!
# The locks of hub and bus

Every program point has a role at `h.mu`, a role at `b.mu` and a side of `tryAppendChunkMux`.
`Locks` says that the three locks agree with the program points of all threads; every step keeps it.
-/

namespace Mmfg.Growth

open RWMutex (Role)

/-- What a reader of `b.mu` does with `h.mu` meanwhile. -/
def BReader.hRole : BReader → Role
  | .handshake .. | .expand => .reading
  | .catchUp .. => .writing
  | .scan _ | .undo _ | .cleanup _ => .out

/-- What the thread does with `h.mu`. -/
def PC.hRole : PC → Role
  | .hLockWait _ => .wwait
  | .hRLockWait _ => .rwait
  | .bRLock k | .bRLockWait k | .bRead k | .panicked k => k.hRole
  | .allocNodeID _ | .afterCount .. | .catchSend .. | .register _ | .freeNodeID _ | .delete _ =>
    .writing
  | .handCount _ | .handRUnlock .. | .expandRUnlock | .respond | .snapshot .. => .reading
  | _ => .out

/-- The reader of `h.mu` is in a broadcast, and so within `tryAppendChunkMux`. -/
def HReader.inBroadcast : HReader → Bool
  | .broadcast .. => true
  | _ => false

/-- What the thread does with `b.mu`. -/
def PC.bRole : PC → Role
  | .bRLockWait _ => .rwait
  | .bRead _ => .reading
  | .bLockWait .. => .wwait
  | .grow .. | .snapshot .. | .broadcast .. | .bUnlock _ => .writing
  | .hRLock k | .hRLockWait k => if k.inBroadcast then .writing else .out
  | _ => .out

/-- The thread holds `tryAppendChunkMux`. -/
def PC.inMux : PC → Bool
  | .recheck .. | .newChunk .. | .bLock .. | .bLockWait .. | .grow .. | .snapshot .. | .broadcast ..
  | .bUnlock _ | .muxUnlock .. => true
  | .hRLock k | .hRLockWait k => k.inBroadcast
  | _ => false

/-- The three lock roles of a program point. -/
def PC.roles (pc : PC) : Role × Role × Bool := (pc.hRole, pc.bRole, pc.inMux)

variable {ι : Type}

/-- The locks agree with the program points. -/
structure Locks (s : State ι) : Prop where
  h : s.hmu.Tracks fun i => (s.pc i).hRole
  b : s.bmu.Tracks fun i => (s.pc i).bRole
  mux : ∀ i, s.mux = some i ↔ (s.pc i).inMux = true

theorem locks_newHub [DecidableEq ι] : Locks (newHub : State ι) where
  h := RWMutex.tracks_unlocked
  b := RWMutex.tracks_unlocked
  mux := by simp [newHub, PC.inMux]

/-- Only the owner of `tryAppendChunkMux` writes to the bus. -/
theorem PC.inMux_of_bRole {pc : PC} (h : pc.bRole = .wwait ∨ pc.bRole = .writing) :
    pc.inMux = true := by
  cases pc with
  | hRLock k => cases k <;> simp_all [bRole, inMux, HReader.inBroadcast]
  | hRLockWait k => cases k <;> simp_all [bRole, inMux, HReader.inBroadcast]
  | _ => simp_all [bRole, inMux]

theorem handLoop_roles (d n : ℕ) (fds : List Chunk) :
    (handLoop d n fds).roles = (.reading, .out, false) := by
  unfold handLoop
  split_ifs <;> rfl

theorem catchLoop_roles (d n after : ℕ) (fds : List Chunk) :
    (catchLoop d n after fds).roles = (.writing, .out, false) := by
  unfold catchLoop
  split_ifs <;> rfl

theorem Caller.done_roles (r : Caller) : r.done.roles = (.out, .out, false) := by
  cases r <;> rfl

theorem HWriter.enter_roles (k : HWriter) : k.enter.roles = (.writing, .out, false) := by
  cases k <;> rfl

theorem HReader.enter_roles (k : HReader) :
    k.enter.roles = (.reading, if k.inBroadcast then .writing else .out, k.inBroadcast) := by
  cases k <;> rfl

variable [DecidableEq ι] {s t : State ι} {i : ι}

/-- The general form: thread `i` moves to `pc`, and each lock follows its role. -/
theorem Locks.update {pc : PC} (hl : Locks s) (hpc : t.pc = Function.update s.pc i pc)
    (h : t.hmu.Tracks (Function.update (fun j => (s.pc j).hRole) i pc.hRole))
    (b : t.bmu.Tracks (Function.update (fun j => (s.pc j).bRole) i pc.bRole))
    (m : (t.mux = s.mux ∧ pc.inMux = (s.pc i).inMux) ∨
      (s.mux = none ∧ t.mux = some i ∧ pc.inMux = true) ∨
      (s.mux = some i ∧ t.mux = none ∧ pc.inMux = false)) : Locks t := by
  have hrole : ∀ f : PC → Role, (fun j => f (t.pc j)) =
      Function.update (fun j => f (s.pc j)) i (f pc) := by
    intro f
    funext j
    simp only [hpc, Function.update_apply]
    split_ifs <;> rfl
  refine ⟨by rw [hrole]; exact h, by rw [hrole]; exact b, fun j => ?_⟩
  have hj := hl.mux j
  rw [hpc, Function.update_apply]
  rcases m with ⟨m1, m2⟩ | ⟨m1, m2, m3⟩ | ⟨m1, m2, m3⟩
  · rw [m1, hj]
    split_ifs with he
    · rw [he, m2]
    · rfl
  · rw [m1] at hj
    rw [m2]
    split_ifs with he
    · simp [he, m3]
    · rw [← hj]
      simp [Ne.symm he]
  · rw [m1] at hj
    rw [m2]
    split_ifs with he
    · simp [m3]
    · rw [← hj]
      simp [Ne.symm he]

theorem Locks.move {pc : PC} (hl : Locks s) (hpc : t.pc = Function.update s.pc i pc)
    (hr : pc.roles = (s.pc i).roles) (h : t.hmu = s.hmu) (b : t.bmu = s.bmu)
    (m : t.mux = s.mux) : Locks t := by
  simp only [PC.roles, Prod.mk.injEq] at hr
  refine hl.update hpc ?_ ?_ (.inl ⟨m, hr.2.2⟩)
  · rw [h]
    exact hl.h.same hr.1.symm
  · rw [b]
    exact hl.b.same hr.2.1.symm

theorem Locks.moveH {pc : PC} (hl : Locks s) (hpc : t.pc = Function.update s.pc i pc) {r : Role}
    (h : t.hmu.Tracks (Function.update (fun j => (s.pc j).hRole) i r))
    (hr : pc.roles = (r, (s.pc i).bRole, (s.pc i).inMux)) (b : t.bmu = s.bmu)
    (m : t.mux = s.mux) : Locks t := by
  simp only [PC.roles, Prod.mk.injEq] at hr
  refine hl.update hpc ?_ ?_ (.inl ⟨m, hr.2.2⟩)
  · rw [hr.1]
    exact h
  · rw [b]
    exact hl.b.same hr.2.1.symm

theorem Locks.moveB {pc : PC} (hl : Locks s) (hpc : t.pc = Function.update s.pc i pc) {r : Role}
    (b : t.bmu.Tracks (Function.update (fun j => (s.pc j).bRole) i r))
    (hr : pc.roles = ((s.pc i).hRole, r, (s.pc i).inMux)) (h : t.hmu = s.hmu)
    (m : t.mux = s.mux) : Locks t := by
  simp only [PC.roles, Prod.mk.injEq] at hr
  refine hl.update hpc ?_ ?_ (.inl ⟨m, hr.2.2⟩)
  · rw [h]
    exact hl.h.same hr.1.symm
  · rw [hr.2.1]
    exact b

theorem Locks.stepLock {pc : PC} (hl : Locks s) (hpc : s.pc i = pc)
    (hs : s.stepLock i pc = some t) : Locks t := by
  cases pc with
  | hLock k =>
    simp only [State.stepLock] at hs
    split_ifs at hs with hw
    cases hs
    exact hl.moveH rfl (hl.h.announce (by rw [hpc]; rfl) hw) (by rw [hpc]; rfl) rfl rfl
  | hLockWait k =>
    simp only [State.stepLock] at hs
    split_ifs at hs with hr
    cases hs
    exact hl.moveH rfl (hl.h.acquire (by rw [hpc]; rfl) hr) (by rw [hpc, k.enter_roles]; rfl) rfl rfl
  | hRLock k =>
    cases hs
    exact hl.moveH rfl (hl.h.rlock (by rw [hpc]; rfl)) (by rw [hpc]; rfl) rfl rfl
  | hRLockWait k =>
    simp only [State.stepLock] at hs
    split_ifs at hs with hm
    cases hs
    exact hl.moveH rfl (hl.h.enter (by rw [hpc]; rfl) hm) (by rw [hpc, k.enter_roles]; rfl) rfl rfl
  | bRLock k =>
    cases hs
    exact hl.moveB rfl (hl.b.rlock (by rw [hpc]; rfl)) (by rw [hpc]; rfl) rfl rfl
  | bRLockWait k =>
    simp only [State.stepLock] at hs
    split_ifs at hs with hm
    cases hs
    exact hl.moveB rfl (hl.b.enter (by rw [hpc]; rfl) hm) (by rw [hpc]; rfl) rfl rfl
  | bLock r chunk =>
    simp only [State.stepLock] at hs
    split_ifs at hs with hw
    cases hs
    exact hl.moveB rfl (hl.b.announce (by rw [hpc]; rfl) hw) (by rw [hpc]; rfl) rfl rfl
  | bLockWait r chunk =>
    simp only [State.stepLock] at hs
    split_ifs at hs with hr
    cases hs
    exact hl.moveB rfl (hl.b.acquire (by rw [hpc]; rfl) hr) (by rw [hpc]; rfl) rfl rfl
  | _ => cases hs

theorem Locks.stepDial {pc : PC} {alt : Bool} (hl : Locks s) (hpc : s.pc i = pc)
    (hs : s.stepDial i alt pc = some t) : Locks t := by
  cases pc with
  | allocNodeID d =>
    have hu := hl.h.unlock (i := i) (by rw [hpc]; rfl)
    simp only [State.stepDial] at hs
    split at hs
    · cases hs
      refine hl.moveH rfl hu ?_ rfl rfl
      rw [hpc]
      cases alt <;> rfl
    · cases hs
      exact hl.moveH rfl hu (by rw [hpc]; rfl) rfl rfl
  | handCount d =>
    cases hs
    exact hl.move rfl (by rw [hpc, handLoop_roles]; rfl) rfl rfl rfl
  | handRUnlock d n fds =>
    cases hs
    exact hl.moveH rfl (hl.h.runlock (by rw [hpc]; rfl)) (by rw [hpc]; rfl) rfl rfl
  | handSend d n fds =>
    simp only [State.stepDial] at hs
    split_ifs at hs
    · cases hs
      exact hl.move rfl (by rw [hpc]; rfl) rfl rfl rfl
    · cases hs
      exact hl.move rfl (by rw [hpc]; rfl) rfl rfl rfl
  | afterCount d n =>
    simp only [State.stepDial] at hs
    split_ifs at hs
    · cases hs
      exact hl.move rfl (by rw [hpc, catchLoop_roles]; rfl) rfl rfl rfl
    · cases hs
      exact hl.move rfl (by rw [hpc]; rfl) rfl rfl rfl
  | catchSend d fds =>
    simp only [State.stepDial] at hs
    split_ifs at hs
    · cases hs
      exact hl.moveH rfl (hl.h.unlock (by rw [hpc]; rfl)) (by rw [hpc]; rfl) rfl rfl
    · cases hs
      exact hl.move rfl (by rw [hpc]; rfl) rfl rfl rfl
  | register d =>
    cases hs
    exact hl.moveH rfl (hl.h.unlock (by rw [hpc]; rfl)) (by rw [hpc]; rfl) rfl rfl
  | _ => cases hs

theorem Locks.stepHub {pc : PC} {alt : Bool} (hl : Locks s) (hpc : s.pc i = pc)
    (hs : s.stepHub i alt pc = some t) : Locks t := by
  cases pc with
  | expandRUnlock =>
    cases hs
    refine hl.moveH rfl (hl.h.runlock (by rw [hpc]; rfl)) ?_ rfl rfl
    rw [hpc]
    cases alt <;> rfl
  | respond =>
    cases hs
    exact hl.moveH rfl (hl.h.runlock (by rw [hpc]; rfl)) (by rw [hpc]; rfl) rfl rfl
  | cleanup d =>
    cases hs
    refine hl.move rfl ?_ rfl rfl rfl
    rw [hpc]
    cases alt <;> rfl
  | freeNodeID d =>
    cases hs
    exact hl.moveH rfl (hl.h.unlock (by rw [hpc]; rfl)) (by rw [hpc]; rfl) rfl rfl
  | delete d =>
    cases hs
    exact hl.moveH rfl (hl.h.unlock (by rw [hpc]; rfl)) (by rw [hpc]; rfl) rfl rfl
  | _ => cases hs

/-- After the read under `b.mu` the thread goes on with its old role at `h.mu`. -/
theorem busRead_pc (s : State ι) (i : ι) (alt : Bool) (k : BReader) :
    ∃ pc : PC, s.busRead i alt k = s.goto i pc ∧ pc.roles = (k.hRole, .out, false) := by
  cases k with
  | handshake d n fds =>
    simp only [State.busRead]
    split
    · exact ⟨_, rfl, handLoop_roles ..⟩
    · exact ⟨_, rfl, rfl⟩
  | catchUp d n after fds =>
    simp only [State.busRead]
    split
    · exact ⟨_, rfl, catchLoop_roles ..⟩
    · exact ⟨_, rfl, rfl⟩
  | expand => exact ⟨_, rfl, rfl⟩
  | undo r => exact ⟨_, rfl, rfl⟩
  | cleanup d => exact ⟨_, rfl, rfl⟩
  | scan r =>
    refine ⟨_, rfl, ?_⟩
    cases alt
    · exact r.done_roles
    · rfl

theorem Locks.stepAppend {pc : PC} {alt : Bool} (hl : Locks s) (hpc : s.pc i = pc)
    (hs : s.stepAppend i alt pc = some t) : Locks t := by
  cases pc with
  | bRead k =>
    obtain ⟨pc', hpc', hr⟩ := busRead_pc s i alt k
    simp only [State.stepAppend, hpc'] at hs
    cases hs
    exact hl.moveB rfl (hl.b.runlock (by rw [hpc]; rfl)) (by rw [hpc, hr]; rfl) rfl rfl
  | chunkCount r =>
    simp only [State.stepAppend] at hs
    split_ifs at hs
    · cases hs
      exact hl.move rfl (by rw [hpc]; rfl) rfl rfl rfl
    · cases hs
      exact hl.move rfl (by rw [hpc]; rfl) rfl rfl rfl
  | muxLock r n =>
    simp only [State.stepAppend] at hs
    split_ifs at hs with hm
    cases hs
    exact hl.update rfl (hl.h.same (by rw [hpc]; rfl)) (hl.b.same (by rw [hpc]; rfl))
      (.inr (.inl ⟨hm, rfl, rfl⟩))
  | recheck r n =>
    simp only [State.stepAppend] at hs
    split_ifs at hs
    · cases hs
      exact hl.move rfl (by rw [hpc]; rfl) rfl rfl rfl
    · cases hs
      exact hl.move rfl (by rw [hpc]; rfl) rfl rfl rfl
  | newChunk r n =>
    simp only [State.stepAppend] at hs
    split_ifs at hs
    · cases hs
      exact hl.move rfl (by rw [hpc]; rfl) rfl rfl rfl
    · cases hs
      exact hl.move rfl (by rw [hpc]; rfl) rfl rfl rfl
  | grow r chunk =>
    cases hs
    exact hl.move rfl (by rw [hpc]; rfl) rfl rfl rfl
  | snapshot r chunk =>
    cases hs
    exact hl.moveH rfl (hl.h.runlock (by rw [hpc]; rfl)) (by rw [hpc]; rfl) rfl rfl
  | broadcast r chunk nodes =>
    simp only [State.stepAppend] at hs
    split_ifs at hs
    cases hs
    exact hl.move rfl (by rw [hpc]; rfl) rfl rfl rfl
  | bUnlock r =>
    cases hs
    exact hl.moveB rfl (hl.b.unlock (by rw [hpc]; rfl)) (by rw [hpc]; rfl) rfl rfl
  | muxUnlock r failed =>
    cases hs
    have hmux : s.mux = some i := (hl.mux i).2 (by rw [hpc]; rfl)
    refine hl.update rfl (hl.h.same ?_) (hl.b.same ?_) (.inr (.inr ⟨hmux, rfl, ?_⟩))
    · rw [hpc]
      cases failed <;> rfl
    · rw [hpc]
      cases failed <;> rfl
    · cases failed <;> rfl
  | undo r =>
    cases hs
    refine hl.move rfl ?_ rfl rfl rfl
    rw [hpc]
    cases alt
    · exact r.done_roles
    · rfl
  | _ => cases hs

theorem locks_step {a : Action ι} (hl : Locks s) (hs : (hub ι).step s a = some t) : Locks t := by
  cases a with
  | callDial i name =>
    simp only [hub, step] at hs
    split_ifs at hs with hpc
    cases hs
    exact hl.move rfl (by rw [hpc]; rfl) rfl rfl rfl
  | callAlloc i =>
    simp only [hub, step] at hs
    split_ifs at hs with hpc
    cases hs
    exact hl.move rfl (by rw [hpc]; rfl) rfl rfl rfl
  | callExpand i =>
    simp only [hub, step] at hs
    split_ifs at hs with hpc
    cases hs
    exact hl.move rfl (by rw [hpc]; rfl) rfl rfl rfl
  | callWatchdog i d =>
    simp only [hub, step] at hs
    split_ifs at hs with hpc
    cases hs
    exact hl.move rfl (by rw [hpc.1]; rfl) rfl rfl rfl
  | run i alt =>
    simp only [hub, step, Option.orElse_eq_some] at hs
    rcases hs with hs | ⟨-, hs | ⟨-, hs | ⟨-, hs⟩⟩⟩
    · exact hl.stepLock rfl hs
    · exact hl.stepDial rfl hs
    · exact hl.stepHub rfl hs
    · exact hl.stepAppend rfl hs
  | sync i d alt =>
    cases hpc : s.pc i with
    | broadcast r chunk nodes =>
      simp only [hub, step, hpc, State.sync] at hs
      split_ifs at hs
      · cases hs
        exact hl.move rfl (by rw [hpc]; rfl) rfl rfl rfl
      · cases hs
        exact hl.move rfl (by rw [hpc]; rfl) rfl rfl rfl
    | _ => simp [hub, step, hpc, State.sync] at hs
  | recv d =>
    obtain ⟨x, -, rfl⟩ := Option.map_eq_some_iff.1 hs
    exact ⟨hl.h, hl.b, hl.mux⟩

theorem locks_of_reaches {ok : State ι → Action ι → Prop} (hr : (hub ι).Reaches ok s) :
    Locks s := by
  refine hr.invariant ?_ ?_
  · rintro s rfl
    exact locks_newHub
  · intro s a t _ hl _ hs
    exact locks_step hl hs

end Mmfg.Growth
