import Mmfg.Growth.Locks

/-!
# Lock cycles between hub and bus

`tryAppendChunk` takes `h.mu` for its broadcast while it holds `b.mu` for writing; `Dial` and
`handleExpandRequest` take `b.mu` in `GetChunk` while they hold `h.mu`.  These can meet:
`dial_append_deadlock` is a run in which a `Dial` that catches up and an append wait for each other.
Every cycle needs an append that owns `b.mu` and has not got `h.mu` yet (`Blocking`), and a thread
that waits for `b.mu` with `h.mu` in its hands or in the way of a writer of `h.mu`.  A run in which
no step brings these together has no deadlock (`no_deadlock`).
-/

namespace Mmfg.Growth

open RWMutex (Role)

variable {ι : Type}

/-- Thread `i` waits for a lock that `j` holds, or that `j` waits for as a writer. -/
def WaitsFor (s : State ι) (i j : ι) : Prop :=
  match s.pc i with
  | .hLock _ => s.hmu.writer = some j
  | .hLockWait _ => j ∈ s.hmu.readers
  | .hRLockWait _ => i ∈ s.hmu.waiting ∧ s.hmu.writer = some j
  | .bLock .. => s.bmu.writer = some j
  | .bLockWait .. => j ∈ s.bmu.readers
  | .bRLockWait _ => i ∈ s.bmu.waiting ∧ s.bmu.writer = some j
  | .muxLock .. => s.mux = some j
  | _ => False

/-- A set of threads each of which waits for another one of the set. -/
def Deadlock (s : State ι) : Prop :=
  ∃ S : Set ι, S.Nonempty ∧ ∀ i ∈ S, ∃ j ∈ S, WaitsFor s i j

/-- An append that owns `b.mu`, or waits for its readers to leave, before its broadcast. -/
def PC.beforeBroadcast : PC → Bool
  | .bLockWait .. | .grow .. => true
  | .hRLock k | .hRLockWait k => k.inBroadcast
  | _ => false

/-- Thread `A` is such an append, and has not been let into `h.mu`. -/
def Blocking (s : State ι) (A : ι) : Prop :=
  (s.pc A).beforeBroadcast = true ∧ A ∉ s.hmu.readers

/-- While an append is `Blocking`, nobody waits for `b.mu` who writes under `h.mu`, or who reads
under `h.mu` and keeps a writer of `h.mu` waiting. -/
def Apart (s : State ι) : Prop :=
  ∀ A, Blocking s A → (∀ R ∈ s.bmu.waiting, (s.pc R).hRole ≠ .writing) ∧
    (s.hmu.writer ≠ none → ∀ R ∈ s.hmu.readers, R ∉ s.bmu.waiting)

variable {s t : State ι} {i j : ι} {pc : PC}

/-! ## No deadlock where these are apart -/

theorem PC.of_bRole_rwait (h : pc.bRole = .rwait) : ∃ k, pc = .bRLockWait k := by
  cases pc with
  | bRLockWait k => exact ⟨k, rfl⟩
  | hRLock k => cases k <;> cases h
  | hRLockWait k => cases k <;> cases h
  | _ => cases h

theorem PC.of_bRole_reading (h : pc.bRole = .reading) : ∃ k, pc = .bRead k := by
  cases pc with
  | bRead k => exact ⟨k, rfl⟩
  | hRLock k => cases k <;> cases h
  | hRLockWait k => cases k <;> cases h
  | _ => cases h

theorem Locks.not_waitsFor_of_bReader (hl : Locks s) (hi : i ∈ s.bmu.readers) :
    ¬ WaitsFor s i j := by
  intro hw
  rcases hl.b.reader i hi with hr | hr
  · obtain ⟨k, hk⟩ := PC.of_bRole_rwait hr
    simp only [WaitsFor, hk] at hw
    exact hl.b.apart i hi hw.1
  · obtain ⟨k, hk⟩ := PC.of_bRole_reading hr
    simp [WaitsFor, hk] at hw

/-- A thread inside `tryAppendChunkMux` that waits for a waiting thread is `Blocking` and waits for
a writer of `h.mu`. -/
theorem Locks.blocking_of_inMux (hl : Locks s) {k : ι} (hi : (s.pc i).inMux = true)
    (hij : WaitsFor s i j) (hjk : WaitsFor s j k) :
    Blocking s i ∧ s.hmu.writer = some j := by
  cases hpc : s.pc i with
  | hRLockWait k =>
    rw [hpc] at hi
    simp only [WaitsFor, hpc] at hij
    refine ⟨⟨by rw [hpc]; exact hi, fun hr => hl.h.apart i hr hij.1⟩, hij.2⟩
  | bLock r chunk =>
    -- nobody else writes to the bus
    simp only [WaitsFor, hpc] at hij
    have hj := (hl.b.writer j).1 hij
    have hmux := (hl.mux j).2 (PC.inMux_of_bRole hj)
    rw [(hl.mux i).2 hi] at hmux
    obtain rfl : i = j := Option.some.inj hmux
    rw [hpc] at hj
    simp [PC.bRole] at hj
  | bLockWait r chunk =>
    simp only [WaitsFor, hpc] at hij
    exact absurd hjk (hl.not_waitsFor_of_bReader hij)
  | hRLock k => simp [WaitsFor, hpc] at hij
  | hLock k => rw [hpc] at hi; cases hi
  | hLockWait k => rw [hpc] at hi; cases hi
  | bRLockWait k => rw [hpc] at hi; cases hi
  | muxLock r n => rw [hpc] at hi; cases hi
  | _ => simp [WaitsFor, hpc] at hij

section

variable {S : Set ι}

/-- In a deadlock a thread that waits for `b.mu` waits for a `Blocking` append. -/
theorem Locks.blocking_of_bWait (hl : Locks s) (hS : ∀ i ∈ S, ∃ j ∈ S, WaitsFor s i j)
    (hi : i ∈ S) {k : BReader} (hpc : s.pc i = .bRLockWait k) :
    i ∈ s.bmu.waiting ∧ ∃ A ∈ S, Blocking s A := by
  obtain ⟨A, hA, hiA⟩ := hS i hi
  obtain ⟨j, hj, hAj⟩ := hS A hA
  obtain ⟨l, -, hjl⟩ := hS j hj
  simp only [WaitsFor, hpc] at hiA
  have hmux : (s.pc A).inMux = true := PC.inMux_of_bRole ((hl.b.writer A).1 hiA.2)
  exact ⟨hiA.1, A, hA, (hl.blocking_of_inMux hmux hAj hjl).1⟩

theorem Locks.blocking_of_hReader (hl : Locks s) (hS : ∀ i ∈ S, ∃ j ∈ S, WaitsFor s i j)
    (hi : i ∈ S) (hr : i ∈ s.hmu.readers) : i ∈ s.bmu.waiting ∧ ∃ A ∈ S, Blocking s A := by
  obtain ⟨j, hj, hij⟩ := hS i hi
  have hrole := hl.h.reader i hr
  cases hpc : s.pc i with
  | bRLockWait k => exact hl.blocking_of_bWait hS hi hpc
  | hRLockWait k =>
    simp only [WaitsFor, hpc] at hij
    exact absurd hij.1 (hl.h.apart i hr)
  | _ =>
    rw [hpc] at hrole
    simp [WaitsFor, hpc, PC.hRole] at hij hrole

/-- In a deadlock a writer of `h.mu`, waiting or not, is stopped by a `Blocking` append: it waits
for `b.mu` itself, or for a reader of `h.mu` that does. -/
theorem Locks.blocking_of_hWriter (hl : Locks s) (hS : ∀ i ∈ S, ∃ j ∈ S, WaitsFor s i j)
    (hi : i ∈ S) (hw : s.hmu.writer = some i) :
    (∃ A ∈ S, Blocking s A) ∧ ((i ∈ s.bmu.waiting ∧ (s.pc i).hRole = .writing) ∨
      ∃ R ∈ s.hmu.readers, R ∈ s.bmu.waiting) := by
  obtain ⟨j, hj, hij⟩ := hS i hi
  have hrole := (hl.h.writer i).1 hw
  cases hpc : s.pc i with
  | hLockWait k =>
    simp only [WaitsFor, hpc] at hij
    obtain ⟨hb, hA⟩ := hl.blocking_of_hReader hS hj hij
    exact ⟨hA, .inr ⟨j, hij, hb⟩⟩
  | bRLockWait k =>
    obtain ⟨hb, hA⟩ := hl.blocking_of_bWait hS hi hpc
    refine ⟨hA, .inl ⟨hb, ?_⟩⟩
    rw [hpc] at hrole
    cases k <;> simp [PC.hRole, BReader.hRole] at hrole ⊢
  | _ =>
    rw [hpc] at hrole
    simp [WaitsFor, hpc, PC.hRole] at hij hrole

/-- Every deadlock contains a `Blocking` append. -/
theorem Locks.exists_blocking (hl : Locks s) (hS : ∀ i ∈ S, ∃ j ∈ S, WaitsFor s i j)
    (hi : i ∈ S) : ∃ A ∈ S, Blocking s A := by
  obtain ⟨j, hj, hij⟩ := hS i hi
  obtain ⟨k, hk, hjk⟩ := hS j hj
  obtain ⟨l, -, hkl⟩ := hS k hk
  by_cases hmux : (s.pc i).inMux = true
  · exact ⟨i, hi, (hl.blocking_of_inMux hmux hij hjk).1⟩
  cases hpc : s.pc i with
  | hLock k =>
    simp only [WaitsFor, hpc] at hij
    exact (hl.blocking_of_hWriter hS hj hij).1
  | hLockWait k =>
    simp only [WaitsFor, hpc] at hij
    exact (hl.blocking_of_hReader hS hj hij).2
  | hRLockWait k =>
    simp only [WaitsFor, hpc] at hij
    exact (hl.blocking_of_hWriter hS hj hij.2).1
  | bRLockWait k => exact (hl.blocking_of_bWait hS hi hpc).2
  | muxLock r n =>
    simp only [WaitsFor, hpc] at hij
    exact ⟨j, hj, (hl.blocking_of_inMux ((hl.mux j).1 hij) hjk hkl).1⟩
  | bLock r chunk => exact absurd (by rw [hpc]; rfl) hmux
  | bLockWait r chunk => exact absurd (by rw [hpc]; rfl) hmux
  | _ => simp [WaitsFor, hpc] at hij

end

theorem PC.inMux_of_beforeBroadcast (h : pc.beforeBroadcast = true) : pc.inMux = true := by
  cases pc with
  | hRLock k => exact h
  | hRLockWait k => exact h
  | bLockWait r chunk => rfl
  | grow r chunk => rfl
  | _ => cases h

theorem Apart.not_deadlock (h : Apart s) (hl : Locks s) : ¬ Deadlock s := by
  rintro ⟨S, ⟨i, hi⟩, hS⟩
  obtain ⟨A, hA, hblock⟩ := hl.exists_blocking hS hi
  obtain ⟨W, hW, hAW⟩ := hS A hA
  obtain ⟨k, -, hWk⟩ := hS W hW
  have hw := (hl.blocking_of_inMux (PC.inMux_of_beforeBroadcast hblock.1) hAW hWk).2
  obtain ⟨h1, h2⟩ := h A hblock
  rcases (hl.blocking_of_hWriter hS hW hw).2 with ⟨hb, hrole⟩ | ⟨R, hR, hb⟩
  · exact h1 W hb hrole
  · exact h2 (by rw [hw]; exact Option.some_ne_none W) R hR hb

/-! ## Steps keep them apart -/

theorem apart_newHub : Apart (newHub : State ι) := by
  rintro A ⟨hA, -⟩
  cases hA

/-- Without threads waiting for `b.mu` there is nothing to keep apart. -/
theorem apart_of_waiting_empty (h : s.bmu.waiting = ∅) : Apart s := by
  intro A _
  simp [h]

/-- A change of `h.mu` by thread `i` that brings no new reader before a writer. -/
def Kept (m m' : RWMutex ι) (i : ι) : Prop :=
  (∀ A, A ≠ i → A ∈ m.readers → A ∈ m'.readers) ∧
    (m'.writer ≠ none → m.writer ≠ none ∧ ∀ R ∈ m'.readers, R ∈ m.readers)

theorem kept_refl (m : RWMutex ι) (i : ι) : Kept m m i :=
  ⟨fun _ _ h => h, fun h => ⟨h, fun _ hR => hR⟩⟩

theorem Locks.not_mem_waiting (hl : Locks s) (hr : (s.pc i).bRole ≠ .rwait) :
    i ∉ s.bmu.waiting := fun hm => hr (hl.b.waiter i hm)

variable [DecidableEq ι]

/-- The next step asks for a lock in a way that closes a cycle with a `Blocking` append: a `Dial`
that holds `h.mu` for writing asks for `b.mu`; a reader of `h.mu` asks for `b.mu` while a writer
waits for `h.mu`; a writer asks for `h.mu` while a reader of `h.mu` waits for `b.mu`. -/
def PC.asks (s : State ι) : PC → Bool
  | .bRLock (.catchUp ..) => true
  | .bRLock (.handshake ..) | .bRLock .expand => s.hmu.writer.isSome
  | .hLock _ => decide (∃ R ∈ s.hmu.readers, R ∈ s.bmu.waiting)
  | _ => false

/-- No such step is taken while an append is `Blocking`. -/
def NoMeet (s : State ι) : Action ι → Prop
  | .run i _ => (s.pc i).asks s = true → ∀ A, ¬ Blocking s A
  | _ => True

theorem kept_unlock (m : RWMutex ι) (i : ι) : Kept m m.unlock i :=
  ⟨fun _ _ h => Finset.mem_union_left _ h, fun h => absurd rfl h⟩

theorem kept_runlock (m : RWMutex ι) (i : ι) : Kept m (m.runlock i) i :=
  ⟨fun _ hA h => Finset.mem_erase.2 ⟨hA, h⟩, fun h => ⟨h, fun _ hR => Finset.mem_of_mem_erase hR⟩⟩

theorem kept_rlock (m : RWMutex ι) (i : ι) : Kept m (m.rlock i) i := by
  unfold RWMutex.rlock
  split_ifs with hw
  · exact ⟨fun _ _ h => Finset.mem_insert_of_mem h, fun h => absurd hw h⟩
  · exact ⟨fun _ _ h => h, fun h => ⟨h, fun _ hR => hR⟩⟩

/-- A step of thread `i` that starts no append and no wait for `b.mu`. -/
theorem Apart.update (h : Apart s) (hl : Locks s) (hpc : t.pc = Function.update s.pc i pc)
    (hb : pc.beforeBroadcast = true →
      (s.pc i).beforeBroadcast = true ∧ (s.pc i).hRole = .out)
    (hk : Kept s.hmu t.hmu i) (hw : ∀ R ∈ t.bmu.waiting, R ∈ s.bmu.waiting) (hi : i ∉ t.bmu.waiting) :
    Apart t := by
  rintro A ⟨hA, hAr⟩
  have hold : Blocking s A := by
    rw [hpc, Function.update_apply] at hA
    split_ifs at hA with hAi
    · subst hAi
      obtain ⟨hb1, hb2⟩ := hb hA
      refine ⟨hb1, fun hr => ?_⟩
      rcases hl.h.reader A hr with hr | hr <;> rw [hb2] at hr <;> cases hr
    · exact ⟨hA, fun hr => hAr (hk.1 A hAi hr)⟩
  obtain ⟨h1, h2⟩ := h A hold
  refine ⟨fun R hR => ?_, fun hwr R hR hRw => ?_⟩
  · have hRi : R ≠ i := fun he => hi (he ▸ hR)
    rw [hpc, Function.update_of_ne hRi]
    exact h1 R (hw R hR)
  · obtain ⟨hw1, hw2⟩ := hk.2 hwr
    exact h2 hw1 R (hw2 R hR) (hw R hRw)

theorem Apart.move (h : Apart s) (hl : Locks s) (hpc : t.pc = Function.update s.pc i pc)
    (hb : pc.beforeBroadcast = true →
      (s.pc i).beforeBroadcast = true ∧ (s.pc i).hRole = .out)
    (hk : Kept s.hmu t.hmu i) (hbmu : t.bmu = s.bmu) (hr : (s.pc i).bRole ≠ .rwait) : Apart t := by
  refine h.update hl hpc hb hk ?_ ?_
  · rw [hbmu]
    exact fun R hR => hR
  · rw [hbmu]
    exact hl.not_mem_waiting hr

theorem mem_waiting_rlock {m : RWMutex ι} {R : ι} (h : R ∈ (m.rlock i).waiting) :
    R ∈ m.waiting ∨ R = i := by
  unfold RWMutex.rlock at h
  split_ifs at h
  · exact .inl h
  · exact (Finset.mem_insert.1 h).symm

theorem Apart.bRLock (h : Apart s) (hl : Locks s) {k : BReader} (hi : s.pc i = .bRLock k)
    (hm : (s.pc i).asks s = true → ∀ A, ¬ Blocking s A) :
    Apart { s.goto i (.bRLockWait k) with bmu := s.bmu.rlock i } := by
  rintro A ⟨hA, hAr⟩
  have hAi : A ≠ i := by
    rintro rfl
    simp [State.goto, PC.beforeBroadcast] at hA
  have hold : Blocking s A := by
    simp only [State.goto, Function.update_of_ne hAi] at hA
    exact ⟨hA, hAr⟩
  obtain ⟨h1, h2⟩ := h A hold
  rw [hi] at hm
  have hrole : (s.pc i).hRole = k.hRole := by rw [hi]; rfl
  refine ⟨fun R hR => ?_, fun hwr R hR hRw => ?_⟩
  · by_cases hRi : R = i
    · -- a `Dial` that catches up would not ask
      simp only [State.goto, hRi, Function.update_self]
      cases k with
      | catchUp d n after fds => exact absurd hold (hm rfl A)
      | _ => simp [PC.hRole, BReader.hRole]
    · simp only [State.goto, Function.update_of_ne hRi]
      exact h1 R ((mem_waiting_rlock hR).resolve_right hRi)
  · rcases mem_waiting_rlock hRw with hRw | rfl
    · exact h2 hwr R hR hRw
    · have hreader := hl.h.reader R hR
      rw [hrole] at hreader
      cases k with
      | handshake d n fds => exact absurd hold (hm (Option.isSome_iff_ne_none.2 hwr) A)
      | expand => exact absurd hold (hm (Option.isSome_iff_ne_none.2 hwr) A)
      | catchUp d n after fds => exact absurd hold (hm rfl A)
      | _ => simp [BReader.hRole] at hreader

theorem Apart.hLock (h : Apart s) (hl : Locks s) {k : HWriter} (hi : s.pc i = .hLock k)
    (hm : (s.pc i).asks s = true → ∀ A, ¬ Blocking s A) :
    Apart { s.goto i (.hLockWait k) with hmu := s.hmu.announce i } := by
  rintro A ⟨hA, hAr⟩
  have hAi : A ≠ i := by
    rintro rfl
    simp [State.goto, PC.beforeBroadcast] at hA
  have hold : Blocking s A := by
    simp only [State.goto, Function.update_of_ne hAi] at hA
    exact ⟨hA, hAr⟩
  obtain ⟨h1, h2⟩ := h A hold
  rw [hi] at hm
  have hiw : i ∉ s.bmu.waiting := hl.not_mem_waiting (by rw [hi]; simp [PC.bRole])
  refine ⟨fun R hR => ?_, fun _ R hR hRw => ?_⟩
  swap
  · exact hm (decide_eq_true ⟨R, hR, hRw⟩) A hold
  have hRi : R ≠ i := fun he => hiw (he ▸ hR)
  simp only [State.goto, Function.update_of_ne hRi]
  exact h1 R hR

theorem Apart.stepLock (h : Apart s) (hl : Locks s)
    (hm : (s.pc i).asks s = true → ∀ A, ¬ Blocking s A) (hpc : s.pc i = pc)
    (hs : s.stepLock i pc = some t) : Apart t := by
  cases pc with
  | hLock k =>
    simp only [State.stepLock] at hs
    split_ifs at hs
    cases hs
    exact h.hLock hl hpc hm
  | hLockWait k =>
    simp only [State.stepLock] at hs
    split_ifs at hs
    cases hs
    exact h.move hl rfl (by cases k <;> simp [HWriter.enter, PC.beforeBroadcast]) (kept_refl _ _) rfl
      (by rw [hpc]; simp [PC.bRole])
  | hRLock k =>
    cases hs
    refine h.move hl rfl (fun hb => ⟨by rw [hpc]; exact hb, by rw [hpc]; rfl⟩) (kept_rlock _ _) rfl ?_
    rw [hpc]
    cases k <;> simp [PC.bRole, HReader.inBroadcast]
  | hRLockWait k =>
    simp only [State.stepLock] at hs
    split_ifs at hs
    cases hs
    refine h.move hl rfl (by cases k <;> simp [HReader.enter, PC.beforeBroadcast]) (kept_refl _ _)
      rfl ?_
    rw [hpc]
    cases k <;> simp [PC.bRole, HReader.inBroadcast]
  | bRLock k =>
    cases hs
    exact h.bRLock hl hpc hm
  | bRLockWait k =>
    simp only [State.stepLock] at hs
    split_ifs at hs with hr
    cases hs
    exact h.update hl rfl (by simp [PC.beforeBroadcast]) (kept_refl _ _) (fun R hR => hR)
      (hl.b.apart i hr)
  | bLock r chunk =>
    simp only [State.stepLock] at hs
    split_ifs at hs with hw
    cases hs
    exact apart_of_waiting_empty (hl.b.admitted hw)
  | bLockWait r chunk =>
    simp only [State.stepLock] at hs
    split_ifs at hs
    cases hs
    exact h.move hl rfl (fun _ => by rw [hpc]; exact ⟨rfl, rfl⟩) (kept_refl _ _) rfl
      (by rw [hpc]; simp [PC.bRole])
  | _ => cases hs

theorem handLoop_beforeBroadcast (d n : ℕ) (fds : List Chunk) :
    (handLoop d n fds).beforeBroadcast = false := by
  unfold handLoop
  split_ifs <;> rfl

theorem catchLoop_beforeBroadcast (d n after : ℕ) (fds : List Chunk) :
    (catchLoop d n after fds).beforeBroadcast = false := by
  unfold catchLoop
  split_ifs <;> rfl

theorem Caller.done_beforeBroadcast (r : Caller) : r.done.beforeBroadcast = false := by
  cases r <;> rfl

theorem Apart.leave (h : Apart s) (hl : Locks s) (hpc : t.pc = Function.update s.pc i pc)
    (hb : pc.beforeBroadcast = false) (hk : Kept s.hmu t.hmu i) (hbmu : t.bmu = s.bmu)
    (hr : (s.pc i).bRole ≠ .rwait) : Apart t :=
  h.move hl hpc (fun hb' => by rw [hb] at hb'; cases hb') hk hbmu hr

theorem Apart.stepDial (h : Apart s) (hl : Locks s) {alt : Bool} (hpc : s.pc i = pc)
    (hs : s.stepDial i alt pc = some t) : Apart t := by
  cases pc with
  | allocNodeID d =>
    have hr : (s.pc i).bRole ≠ .rwait := by rw [hpc]; simp [PC.bRole]
    simp only [State.stepDial] at hs
    split at hs
    · cases hs
      exact h.leave hl rfl (by cases alt <;> rfl) (kept_unlock _ _) rfl hr
    · cases hs
      exact h.leave hl rfl rfl (kept_unlock _ _) rfl hr
  | handCount d =>
    cases hs
    exact h.leave hl rfl (handLoop_beforeBroadcast ..) (kept_refl _ _) rfl
      (by rw [hpc]; simp [PC.bRole])
  | handRUnlock d n fds =>
    cases hs
    exact h.leave hl rfl rfl (kept_runlock _ _) rfl (by rw [hpc]; simp [PC.bRole])
  | handSend d n fds =>
    have hr : (s.pc i).bRole ≠ .rwait := by rw [hpc]; simp [PC.bRole]
    simp only [State.stepDial] at hs
    split_ifs at hs
    · cases hs
      exact h.leave hl rfl rfl (kept_refl _ _) rfl hr
    · cases hs
      exact h.leave hl rfl rfl (kept_refl _ _) rfl hr
  | afterCount d n =>
    have hr : (s.pc i).bRole ≠ .rwait := by rw [hpc]; simp [PC.bRole]
    simp only [State.stepDial] at hs
    split_ifs at hs
    · cases hs
      exact h.leave hl rfl (catchLoop_beforeBroadcast ..) (kept_refl _ _) rfl hr
    · cases hs
      exact h.leave hl rfl rfl (kept_refl _ _) rfl hr
  | catchSend d fds =>
    have hr : (s.pc i).bRole ≠ .rwait := by rw [hpc]; simp [PC.bRole]
    simp only [State.stepDial] at hs
    split_ifs at hs
    · cases hs
      exact h.leave hl rfl rfl (kept_unlock _ _) rfl hr
    · cases hs
      exact h.leave hl rfl rfl (kept_refl _ _) rfl hr
  | register d =>
    cases hs
    exact h.leave hl rfl rfl (kept_unlock _ _) rfl (by rw [hpc]; simp [PC.bRole])
  | _ => cases hs

theorem Apart.stepHub (h : Apart s) (hl : Locks s) {alt : Bool} (hpc : s.pc i = pc)
    (hs : s.stepHub i alt pc = some t) : Apart t := by
  cases pc with
  | expandRUnlock =>
    cases hs
    exact h.leave hl rfl (by cases alt <;> rfl) (kept_runlock _ _) rfl
      (by rw [hpc]; simp [PC.bRole])
  | respond =>
    cases hs
    exact h.leave hl rfl rfl (kept_runlock _ _) rfl (by rw [hpc]; simp [PC.bRole])
  | cleanup d =>
    cases hs
    exact h.leave hl rfl (by cases alt <;> rfl) (kept_refl _ _) rfl (by rw [hpc]; simp [PC.bRole])
  | freeNodeID d =>
    cases hs
    exact h.leave hl rfl rfl (kept_unlock _ _) rfl (by rw [hpc]; simp [PC.bRole])
  | delete d =>
    cases hs
    exact h.leave hl rfl rfl (kept_unlock _ _) rfl (by rw [hpc]; simp [PC.bRole])
  | _ => cases hs

theorem busRead_beforeBroadcast (s : State ι) (i : ι) (alt : Bool) (k : BReader) :
    ∃ pc : PC, s.busRead i alt k = s.goto i pc ∧ pc.beforeBroadcast = false := by
  cases k with
  | handshake d n fds =>
    simp only [State.busRead]
    split
    · exact ⟨_, rfl, handLoop_beforeBroadcast ..⟩
    · exact ⟨_, rfl, rfl⟩
  | catchUp d n after fds =>
    simp only [State.busRead]
    split
    · exact ⟨_, rfl, catchLoop_beforeBroadcast ..⟩
    · exact ⟨_, rfl, rfl⟩
  | expand => exact ⟨_, rfl, rfl⟩
  | undo r => exact ⟨_, rfl, rfl⟩
  | cleanup d => exact ⟨_, rfl, rfl⟩
  | scan r =>
    refine ⟨_, rfl, ?_⟩
    cases alt
    · exact r.done_beforeBroadcast
    · rfl

theorem Apart.stepAppend (h : Apart s) (hl : Locks s) {alt : Bool} (hpc : s.pc i = pc)
    (hs : s.stepAppend i alt pc = some t) : Apart t := by
  cases pc with
  | bRead k =>
    obtain ⟨pc', hpc', hb⟩ := busRead_beforeBroadcast s i alt k
    simp only [State.stepAppend, hpc'] at hs
    cases hs
    refine h.update hl rfl (fun hb' => by rw [hb] at hb'; cases hb') (kept_refl _ _) (fun R hR => hR) ?_
    exact hl.not_mem_waiting (by rw [hpc]; simp [PC.bRole])
  | chunkCount r =>
    simp only [State.stepAppend] at hs
    split_ifs at hs <;> cases hs <;>
      exact h.leave hl rfl rfl (kept_refl _ _) rfl (by rw [hpc]; simp [PC.bRole])
  | muxLock r n =>
    simp only [State.stepAppend] at hs
    split_ifs at hs
    cases hs
    exact h.leave hl rfl rfl (kept_refl _ _) rfl (by rw [hpc]; simp [PC.bRole])
  | recheck r n =>
    simp only [State.stepAppend] at hs
    split_ifs at hs <;> cases hs <;>
      exact h.leave hl rfl rfl (kept_refl _ _) rfl (by rw [hpc]; simp [PC.bRole])
  | newChunk r n =>
    simp only [State.stepAppend] at hs
    split_ifs at hs <;> cases hs <;>
      exact h.leave hl rfl rfl (kept_refl _ _) rfl (by rw [hpc]; simp [PC.bRole])
  | grow r chunk =>
    cases hs
    exact h.move hl rfl (fun _ => by rw [hpc]; exact ⟨rfl, rfl⟩) (kept_refl _ _) rfl
      (by rw [hpc]; simp [PC.bRole])
  | snapshot r chunk =>
    cases hs
    exact h.leave hl rfl rfl (kept_runlock _ _) rfl (by rw [hpc]; simp [PC.bRole])
  | broadcast r chunk nodes =>
    simp only [State.stepAppend] at hs
    split_ifs at hs
    cases hs
    exact h.leave hl rfl rfl (kept_refl _ _) rfl (by rw [hpc]; simp [PC.bRole])
  | bUnlock r =>
    cases hs
    exact apart_of_waiting_empty rfl
  | muxUnlock r failed =>
    cases hs
    exact h.leave hl rfl (by cases failed <;> rfl) (kept_refl _ _) rfl
      (by rw [hpc]; simp [PC.bRole])
  | undo r =>
    cases hs
    refine h.leave hl rfl ?_ (kept_refl _ _) rfl (by rw [hpc]; simp [PC.bRole])
    cases alt
    · exact r.done_beforeBroadcast
    · rfl
  | _ => cases hs

theorem apart_step {a : Action ι} (h : Apart s) (hl : Locks s) (ha : NoMeet s a)
    (hs : (hub ι).step s a = some t) : Apart t := by
  cases a with
  | callDial i name =>
    simp only [hub, step] at hs
    split_ifs at hs with hpc
    cases hs
    exact h.leave hl rfl rfl (kept_refl _ _) rfl (by rw [hpc]; simp [PC.bRole])
  | callAlloc i =>
    simp only [hub, step] at hs
    split_ifs at hs with hpc
    cases hs
    exact h.leave hl rfl rfl (kept_refl _ _) rfl (by rw [hpc]; simp [PC.bRole])
  | callExpand i =>
    simp only [hub, step] at hs
    split_ifs at hs with hpc
    cases hs
    exact h.leave hl rfl rfl (kept_refl _ _) rfl (by rw [hpc]; simp [PC.bRole])
  | callWatchdog i d =>
    simp only [hub, step] at hs
    split_ifs at hs with hpc
    cases hs
    exact h.leave hl rfl rfl (kept_refl _ _) rfl (by rw [hpc.1]; simp [PC.bRole])
  | run i alt =>
    simp only [hub, step, Option.orElse_eq_some] at hs
    rcases hs with hs | ⟨-, hs | ⟨-, hs | ⟨-, hs⟩⟩⟩
    · exact h.stepLock hl ha rfl hs
    · exact h.stepDial hl rfl hs
    · exact h.stepHub hl rfl hs
    · exact h.stepAppend hl rfl hs
  | sync i d alt =>
    cases hpc : s.pc i with
    | broadcast r chunk nodes =>
      have hr : (s.pc i).bRole ≠ .rwait := by rw [hpc]; simp [PC.bRole]
      simp only [hub, step, hpc, State.sync] at hs
      split_ifs at hs
      · cases hs
        exact h.leave hl rfl rfl (kept_refl _ _) rfl hr
      · cases hs
        exact h.leave hl rfl rfl (kept_refl _ _) rfl hr
    | _ => simp [hub, step, hpc, State.sync] at hs
  | recv d =>
    obtain ⟨x, -, rfl⟩ := Option.map_eq_some_iff.1 hs
    exact h

/-- In every run whose steps all satisfy `NoMeet`, no state reached has a deadlock. -/
theorem no_deadlock (s : State ι) (hr : (hub ι).Reaches NoMeet s) : ¬ Deadlock s := by
  suffices h : Apart s from h.not_deadlock (locks_of_reaches hr)
  refine hr.invariant ?_ ?_
  · rintro s rfl
    exact apart_newHub
  · intro s a t hr h ha hs
    exact apart_step h (locks_of_reaches hr) ha hs

instance (s : State ι) (A : ι) : Decidable (Blocking s A) :=
  inferInstanceAs (Decidable ((s.pc A).beforeBroadcast = true ∧ A ∉ s.hmu.readers))

instance [Fintype ι] (s : State ι) : (a : Action ι) → Decidable (NoMeet s a)
  | .run i _ => inferInstanceAs (Decidable ((s.pc i).asks s = true → ∀ A, ¬ Blocking s A))
  | .callDial .. | .callAlloc _ | .callExpand _ | .callWatchdog .. | .sync .. | .recv _ =>
    inferInstanceAs (Decidable True)

/-- An append waits in its broadcast for the `Dial` that holds `h.mu`, and the `Dial`, which has no
chunks to catch up with, goes on. -/
theorem no_deadlock_run : ∃ s : State Bool,
    (s.pc false = .hRLockWait (.broadcast .direct ⟨1⟩) ∧ false ∈ s.hmu.waiting ∧
      s.pc true = .register 0) ∧ ¬ Deadlock s := by
  obtain ⟨s, hr, hp⟩ := System.exists_reaches_of_runWith (hub Bool) NoMeet
    (List.flatten [[.callDial true 5], List.replicate 14 (.run true false), [.callAlloc false],
      List.replicate 2 (.run false false), [.run false true], List.replicate 8 (.run false false)])
    (fun s => decide (s.pc false = .hRLockWait (.broadcast .direct ⟨1⟩) ∧ false ∈ s.hmu.waiting ∧
      s.pc true = .register 0)) rfl (by decide +kernel)
  exact ⟨s, of_decide_eq_true hp, no_deadlock s hr⟩

/-- A `Dial` is in its second critical section when an append makes chunk 1 visible: the append waits
for `h.mu` to broadcast, the `Dial` for `b.mu` to read chunk 1. -/
theorem dial_append_deadlock : ∃ s : State Bool, (hub Bool).Reachable s ∧ Deadlock s := by
  obtain ⟨s, hr, hp⟩ := System.exists_reachable_of_run (hub Bool)
    (List.flatten [[.callDial true 5], List.replicate 13 (.run true false), [.callAlloc false],
      List.replicate 2 (.run false false), [.run false true], List.replicate 8 (.run false false),
      List.replicate 2 (.run true false)])
    (fun s => decide (s.pc true = .bRLockWait (.catchUp 0 1 2 []) ∧ true ∈ s.bmu.waiting ∧
      s.bmu.writer = some false ∧ s.pc false = .hRLockWait (.broadcast .direct ⟨1⟩) ∧
      false ∈ s.hmu.waiting ∧ s.hmu.writer = some true)) rfl (by decide +kernel)
  obtain ⟨h1, h2, h3, h4, h5, h6⟩ := of_decide_eq_true hp
  refine ⟨s, hr, Set.univ, ⟨true, trivial⟩, fun i _ => ⟨!i, trivial, ?_⟩⟩
  cases i with
  | true =>
    simp only [WaitsFor, h1]
    exact ⟨h2, h3⟩
  | false =>
    simp only [WaitsFor, h4]
    exact ⟨h5, h6⟩

end Mmfg.Growth
