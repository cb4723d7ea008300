import Mmfg.Slots.Basic

/-!
# What the semaphore guarantees

Each goroutine that is past the channel has an element in it and at most one slot, so while one of
them is still searching there is an idle slot (`Inv.exists_idle`).  But it looks at each slot once, at
different times: a slot behind it is freed, and the last idle one before it is taken by another call
(`slot_missed`).  If no call takes the last idle slot that another one has still before it, every call
finds a slot (`slot_guaranteed`).
-/

namespace Mmfg.Slots

open Hub (Status)

variable {ι : Type}

/-! ## Elements and slots -/

/-- The goroutine has an element in the channel. -/
def PC.holds : PC → Bool
  | .idle | .failed => false
  | _ => true

/-- The slot that the goroutine has. -/
def PC.slot : PC → Option ℕ
  | .setStatus slot | .opened slot | .freeSlot slot => some slot
  | _ => none

/-- The search that the goroutine is in. -/
def PC.search : PC → Option (UInt32 × ℕ)
  | .scan start i => some (start, i)
  | _ => none

/-- The search has an idle slot with `P` before it. -/
def State.Ahead (s : State ι) (start : UInt32) (i : ℕ) (P : ℕ → Prop) : Prop :=
  ∃ k < MaxTotalSlots, i ≤ k ∧ s.status (slotAt start k) = .idle ∧ P (slotAt start k)

/-- The channel has `n` elements, one for each goroutine that is past it. -/
def Counts (pc : ι → PC) (n : ℕ) : Prop :=
  ∃ T : Finset ι, (∀ j, j ∈ T ↔ (pc j).holds = true) ∧ T.card = n

/-- The slots that are not idle are those of the goroutines, each of one. -/
structure Owned (pc : ι → PC) (status : ℕ → Status) : Prop where
  taken : ∀ x, status x ≠ .idle → ∃ j, (pc j).slot = some x
  marked : ∀ j x, (pc j).slot = some x → status x ≠ .idle
  unique : ∀ j k x, (pc j).slot = some x → (pc k).slot = some x → j = k

/-- Moreover, every search has an idle slot before it, and none has failed. -/
structure Inv (s : State ι) : Prop where
  elements : Counts s.pc s.limit
  room : s.limit ≤ MaxTotalSlots
  owned : Owned s.pc s.status
  ahead : ∀ j start i, s.pc j = .scan start i → s.Ahead start i fun _ => True
  found : ∀ j, s.pc j ≠ .giveUp ∧ s.pc j ≠ .failed

variable [DecidableEq ι] {s t : State ι} {j : ι}

omit [DecidableEq ι] in
/-- A goroutine with an element and without a slot leaves one of the slots idle. -/
theorem Inv.exists_idle (h : Inv s) (hj : (s.pc j).holds = true) (hslot : (s.pc j).slot = none) :
    ∃ x, 1 ≤ x ∧ x ≤ MaxTotalSlots ∧ s.status x = .idle := by
  classical
  obtain ⟨T, hT, hcard⟩ := h.elements
  by_contra hno
  push Not at hno
  -- otherwise each of the slots has a goroutine other than `j`
  have hsub : Finset.Icc 1 MaxTotalSlots ⊆
      (T.erase j).image fun k => ((s.pc k).slot).getD 0 := by
    intro x hx
    obtain ⟨h1, h2⟩ := Finset.mem_Icc.1 hx
    obtain ⟨k, hk⟩ := h.owned.taken x (hno x h1 h2)
    refine Finset.mem_image.2 ⟨k, Finset.mem_erase.2 ⟨?_, (hT k).2 ?_⟩, by rw [hk, Option.getD_some]⟩
    · rintro rfl
      rw [hslot] at hk
      cases hk
    · revert hk
      cases s.pc k <;> simp [PC.slot, PC.holds]
  have hle := (Finset.card_le_card hsub).trans Finset.card_image_le
  rw [Nat.card_Icc, Finset.card_erase_of_mem ((hT j).2 hj), hcard] at hle
  have hroom := h.room
  simp only [MaxTotalSlots] at hle hroom
  omega

variable {pc : ι → PC} {pc' : PC} {status : ℕ → Status} {st : Status} {n x : ℕ}

theorem Counts.same (h : Counts pc n) (hsame : pc'.holds = (pc j).holds) :
    Counts (Function.update pc j pc') n := by
  obtain ⟨T, hT, hcard⟩ := h
  refine ⟨T, fun k => ?_, hcard⟩
  rw [Function.update_apply]
  split_ifs with hk
  · rw [hsame, ← hk]
    exact hT k
  · exact hT k

theorem Counts.enter (h : Counts pc n) (hout : (pc j).holds = false) (hin : pc'.holds = true) :
    Counts (Function.update pc j pc') (n + 1) := by
  obtain ⟨T, hT, hcard⟩ := h
  have hj : j ∉ T := by
    rw [hT, hout]
    exact Bool.false_ne_true
  refine ⟨insert j T, fun k => ?_, by rw [Finset.card_insert_of_notMem hj, hcard]⟩
  rw [Finset.mem_insert, Function.update_apply]
  split_ifs with hk
  · simp [hk, hin]
  · simp [hk, hT]

theorem Counts.leave (h : Counts pc n) (hin : (pc j).holds = true) (hout : pc'.holds = false) :
    Counts (Function.update pc j pc') (n - 1) := by
  obtain ⟨T, hT, hcard⟩ := h
  refine ⟨T.erase j, fun k => ?_, by rw [Finset.card_erase_of_mem ((hT j).2 hin), hcard]⟩
  rw [Finset.mem_erase, Function.update_apply]
  split_ifs with hk
  · simp [hk, hout]
  · simp [hk, hT]

theorem Owned.same (h : Owned pc status) (hsame : pc'.slot = (pc j).slot) :
    Owned (Function.update pc j pc') status := by
  have hslot : ∀ k, (Function.update pc j pc' k).slot = (pc k).slot := by
    intro k
    rw [Function.update_apply]
    split_ifs with hk
    · rw [hk, hsame]
    · rfl
  constructor
  · simpa only [hslot] using h.taken
  · simpa only [hslot] using h.marked
  · simpa only [hslot] using h.unique

/-- A slot gets a status of its goroutine, which has had it before or takes it now. -/
theorem Owned.mark (h : Owned pc status) (hst : st ≠ .idle) (hslot : pc'.slot = some x)
    (hbefore : (pc j).slot = some x ∨ (pc j).slot = none ∧ status x = .idle) :
    Owned (Function.update pc j pc') (Function.update status x st) := by
  -- no other goroutine has the slot
  have hother : ∀ k, (pc k).slot = some x → k = j := by
    intro k hk
    rcases hbefore with hj | ⟨-, hidle⟩
    · exact h.unique k j x hk hj
    · exact absurd hidle (h.marked k x hk)
  refine ⟨fun y hy => ?_, fun k y hk => ?_, fun k l y hk hl => ?_⟩
  · by_cases hyx : y = x
    · exact ⟨j, by rw [Function.update_self, hslot, hyx]⟩
    · rw [Function.update_of_ne hyx] at hy
      obtain ⟨k, hk⟩ := h.taken y hy
      refine ⟨k, ?_⟩
      rw [Function.update_of_ne ?_, hk]
      rintro rfl
      rcases hbefore with hj | ⟨hj, -⟩ <;> rw [hj] at hk <;> cases hk
      exact hyx rfl
  · rw [Function.update_apply]
    split_ifs with hyx
    · exact hst
    · rw [Function.update_apply] at hk
      split_ifs at hk with hkj
      · rw [hslot] at hk
        exact absurd (Option.some.inj hk).symm hyx
      · exact h.marked k y hk
  · rw [Function.update_apply] at hk hl
    split_ifs at hk hl with hkj hlj hlj
    · rw [hkj, hlj]
    · rw [hslot] at hk
      obtain rfl := Option.some.inj hk
      exact absurd (hother l hl) hlj
    · rw [hslot] at hl
      obtain rfl := Option.some.inj hl
      exact absurd (hother k hk) hkj
    · exact h.unique k l y hk hl

theorem Owned.free (h : Owned pc status) (hslot : (pc j).slot = some x) (hnone : pc'.slot = none) :
    Owned (Function.update pc j pc') (Function.update status x .idle) := by
  refine ⟨fun y hy => ?_, fun k y hk => ?_, fun k l y hk hl => ?_⟩
  · have hyx : y ≠ x := by
      rintro rfl
      exact hy (Function.update_self ..)
    rw [Function.update_of_ne hyx] at hy
    obtain ⟨k, hk⟩ := h.taken y hy
    refine ⟨k, ?_⟩
    rw [Function.update_of_ne ?_, hk]
    rintro rfl
    rw [hslot] at hk
    exact hyx (Option.some.inj hk).symm
  · rw [Function.update_apply] at hk
    split_ifs at hk with hkj
    · rw [hnone] at hk
      cases hk
    · rw [Function.update_of_ne]
      · exact h.marked k y hk
      · rintro rfl
        exact hkj (h.unique k j y hk hslot)
  · rw [Function.update_apply] at hk hl
    split_ifs at hk hl with hkj hlj hlj
    · rw [hkj, hlj]
    · rw [hnone] at hk
      cases hk
    · rw [hnone] at hl
      cases hl
    · exact h.unique k l y hk hl

/-! ## Steps -/

/-- A successful compare-and-swap leaves to every other search an idle slot before it. -/
def LeavesOne (s : State ι) : Action ι → Prop
  | .run j => ∀ p ∈ (s.pc j).search, p.2 < MaxTotalSlots → s.status (slotAt p.1 p.2) = .idle →
      ∀ k, k ≠ j → ∀ q ∈ (s.pc k).search, s.Ahead q.1 q.2 fun x => x ≠ slotAt p.1 p.2
  | _ => True

omit [DecidableEq ι] in
theorem State.Ahead.mono {start : UInt32} {i : ℕ} {P : ℕ → Prop} (h : s.Ahead start i P)
    (hidle : ∀ x, P x → s.status x = .idle → t.status x = .idle) : t.Ahead start i fun _ => True := by
  obtain ⟨k, hk, hik, hst, hp⟩ := h
  exact ⟨k, hk, hik, hidle _ hp hst, trivial⟩

/-- What is left to show of a step of goroutine `j`. -/
theorem Inv.of_goto (h : Inv s) (hpc : t.pc = Function.update s.pc j pc')
    (helements : Counts t.pc t.limit) (hroom : t.limit ≤ MaxTotalSlots)
    (howned : Owned t.pc t.status)
    (hself : ∀ start i, pc' = .scan start i → t.Ahead start i fun _ => True)
    (hothers : ∀ k start i, k ≠ j → s.pc k = .scan start i → t.Ahead start i fun _ => True)
    (hfound : pc' ≠ .giveUp ∧ pc' ≠ .failed) : Inv t := by
  refine ⟨helements, hroom, howned, fun k start i hk => ?_, fun k => ?_⟩
  · rw [hpc, Function.update_apply] at hk
    split_ifs at hk with hkj
    · exact hself start i hk
    · exact hothers k start i hkj hk
  · rw [hpc, Function.update_apply]
    split_ifs
    · exact hfound
    · exact h.found k

theorem Inv.move (h : Inv s) (hpc : t.pc = Function.update s.pc j pc') (hlimit : t.limit = s.limit)
    (hstatus : t.status = s.status) (hholds : pc'.holds = (s.pc j).holds)
    (hslot : pc'.slot = (s.pc j).slot)
    (hself : ∀ start i, pc' = .scan start i → t.Ahead start i fun _ => True)
    (hfound : pc' ≠ .giveUp ∧ pc' ≠ .failed) : Inv t := by
  refine h.of_goto hpc ?_ (hlimit ▸ h.room) ?_ hself (fun k start i _ hk => ?_) hfound
  · rw [hpc, hlimit]
    exact h.elements.same hholds
  · rw [hpc, hstatus]
    exact h.owned.same hslot
  · exact (h.ahead k start i hk).mono fun x _ hx => hstatus ▸ hx

theorem inv_call (h : Inv s) (hs : step s (.call j) = some t) : Inv t := by
  have hidle : s.pc j = .idle ∧ s.limit < MaxTotalSlots ∧
      t = { s.goto j .add with limit := s.limit + 1 } := by
    have hfound := h.found j
    simp only [step] at hs
    cases hpc : s.pc j with
    | idle =>
      rw [hpc] at hs
      dsimp only at hs
      split_ifs at hs with hroom
      cases hs
      exact ⟨rfl, hroom, rfl⟩
    | failed => exact absurd hpc hfound.2
    | _ =>
      rw [hpc] at hs
      cases hs
  obtain ⟨hpc, hroom, rfl⟩ := hidle
  refine h.of_goto rfl (h.elements.enter (by rw [hpc]; rfl) rfl) hroom
    (h.owned.same (by rw [hpc]; rfl)) (by simp) (fun k start i _ hk => ?_)
    (by simp)
  exact (h.ahead k start i hk).mono fun x _ hx => hx

theorem inv_close (h : Inv s) (hs : step s (.close j) = some t) : Inv t := by
  simp only [step] at hs
  cases hpc : s.pc j with
  | opened slot =>
    rw [hpc] at hs
    cases hs
    exact h.move rfl rfl rfl (by rw [hpc]; rfl) (by rw [hpc]; rfl) (by simp) (by simp)
  | _ =>
    rw [hpc] at hs
    cases hs

theorem Inv.setStatus (h : Inv s) (hslot : (s.pc j).slot = some x) (hst : st ≠ .idle)
    (hpc : t.pc = Function.update s.pc j pc') (hlimit : t.limit = s.limit)
    (hstatus : t.status = Function.update s.status x st) (hholds : pc'.holds = (s.pc j).holds)
    (hslot' : pc'.slot = some x) (hfound : pc' ≠ .giveUp ∧ pc' ≠ .failed)
    (hscan : ∀ start i, pc' ≠ .scan start i) : Inv t := by
  refine h.of_goto hpc ?_ (hlimit ▸ h.room) ?_ (fun start i hp => absurd hp (hscan start i))
    (fun k start i _ hk => ?_) hfound
  · rw [hpc, hlimit]
    exact h.elements.same hholds
  · rw [hpc, hstatus]
    exact h.owned.mark hst hslot' (.inl hslot)
  · refine (h.ahead k start i hk).mono fun y _ hy => ?_
    rw [hstatus, Function.update_of_ne, hy]
    rintro rfl
    exact h.owned.marked j y hslot hy

theorem inv_use (h : Inv s) (hs : step s (.use j st) = some t) : Inv t := by
  simp only [step] at hs
  cases hpc : s.pc j with
  | opened slot =>
    rw [hpc] at hs
    dsimp only at hs
    split_ifs at hs with hst
    cases hs
    have hsame : s.pc = Function.update s.pc j (.opened slot) := by
      rw [← hpc, Function.update_eq_self]
    exact h.setStatus (by rw [hpc]; rfl) hst hsame rfl rfl (by rw [hpc]) rfl (by simp) (by simp)
  | _ =>
    rw [hpc] at hs
    cases hs

theorem Inv.take (h : Inv s) (hok : LeavesOne s (.run j)) {start : UInt32} {i : ℕ}
    (hpc : s.pc j = .scan start i) (hi : i < MaxTotalSlots)
    (hidle : s.status (slotAt start i) = .idle) :
    Inv ((s.setStatus (slotAt start i) .busy).goto j (.setStatus (slotAt start i))) := by
  refine h.of_goto rfl (h.elements.same (by rw [hpc]; rfl)) h.room
    (h.owned.mark (by simp) rfl (.inr ⟨by rw [hpc]; rfl, hidle⟩)) (by simp)
    (fun k start' i' hkj hk => ?_) (by simp)
  have hsearch : (start, i) ∈ (s.pc j).search := by
    rw [hpc]
    rfl
  have hother : (start', i') ∈ (s.pc k).search := by
    rw [hk]
    rfl
  refine (hok _ hsearch hi hidle k hkj _ hother).mono fun x hx hst => ?_
  exact (Function.update_of_ne hx ..).trans hst

theorem inv_run (h : Inv s) (hok : LeavesOne s (.run j)) (hs : step s (.run j) = some t) :
    Inv t := by
  simp only [step] at hs
  cases hpc : s.pc j with
  | add =>
    rw [hpc] at hs
    cases hs
    refine h.move rfl rfl rfl (by rw [hpc]; rfl) (by rw [hpc]; rfl) (fun start i he => ?_)
      (by simp)
    cases he
    -- the search begins: some slot is idle, and it has its round
    obtain ⟨x, h1, hx, hidle⟩ := h.exists_idle (by rw [hpc]; rfl) (by rw [hpc]; rfl)
    obtain ⟨k, hk, rfl⟩ := exists_round (s.cursor + 1) h1 hx
    exact ⟨k, hk, Nat.zero_le k, hidle, trivial⟩
  | scan start i =>
    rw [hpc] at hs
    dsimp only at hs
    obtain ⟨k, hk, hik, hidle, -⟩ := h.ahead j start i hpc
    rw [if_pos (by omega)] at hs
    split_ifs at hs with hst
    · cases hs
      exact h.take hok hpc (by omega) hst
    · cases hs
      refine h.move rfl rfl rfl (by rw [hpc]; rfl) (by rw [hpc]; rfl) (fun start' i' he => ?_)
        (by simp)
      cases he
      refine ⟨k, hk, ?_, hidle, trivial⟩
      rcases hik.lt_or_eq with hlt | rfl
      · exact hlt
      · exact absurd hidle hst
  | setStatus slot =>
    rw [hpc] at hs
    cases hs
    have hready : Status.ready ≠ .idle := by simp
    exact h.setStatus (by rw [hpc]; rfl) hready rfl rfl rfl (by rw [hpc]; rfl) rfl (by simp) (by simp)
  | giveUp => exact absurd hpc (h.found j).1
  | freeSlot slot =>
    rw [hpc] at hs
    cases hs
    refine h.of_goto rfl (h.elements.same (by rw [hpc]; rfl)) h.room
      (h.owned.free (by rw [hpc]; rfl) rfl) (by simp) (fun k start i _ hk => ?_) (by simp)
    refine (h.ahead k start i hk).mono fun x _ hx => ?_
    change Function.update s.status slot .idle x = .idle
    rw [Function.update_apply]
    split_ifs
    · rfl
    · exact hx
  | release =>
    rw [hpc] at hs
    cases hs
    refine h.of_goto rfl (h.elements.leave (by rw [hpc]; rfl) rfl) ((Nat.sub_le _ _).trans h.room)
      (h.owned.same (by rw [hpc]; rfl)) (by simp) (fun k start i _ hk => ?_) (by simp)
    exact (h.ahead k start i hk).mono fun x _ hx => hx
  | _ =>
    rw [hpc] at hs
    cases hs

omit [DecidableEq ι] in
theorem inv_newSlots : Inv (newSlots : State ι) :=
  ⟨⟨∅, fun _ => iff_of_false (Finset.notMem_empty _) Bool.false_ne_true, rfl⟩, Nat.zero_le _,
    ⟨fun _ hx => absurd rfl hx, nofun, nofun⟩, nofun, by simp [newSlots]⟩

theorem inv_of_reaches (hr : (slots ι).Reaches LeavesOne s) : Inv s := by
  refine hr.invariant ?_ ?_
  · rintro s rfl
    exact inv_newSlots
  · intro s a t _ h hok hs
    cases a with
    | call j => exact inv_call h hs
    | close j => exact inv_close h hs
    | run j => exact inv_run h hok hs
    | use j st => exact inv_use h hs

/-- In every run in which no compare-and-swap takes the last idle slot that another search has before
it, no `allocSlot` fails: whoever is past the channel and still searching has an idle slot before
it. -/
theorem slot_guaranteed (s : State ι) (hr : (slots ι).Reaches LeavesOne s) (j : ι) :
    s.pc j ≠ .giveUp ∧ s.pc j ≠ .failed ∧
      ∀ start i, s.pc j = .scan start i → ∃ k < MaxTotalSlots, i ≤ k ∧
        s.status (slotAt start k) = .idle := by
  have h := inv_of_reaches hr
  refine ⟨(h.found j).1, (h.found j).2, fun start i hpc => ?_⟩
  obtain ⟨k, hk, hik, hidle, -⟩ := h.ahead j start i hpc
  exact ⟨k, hk, hik, hidle⟩

instance (s : State ι) (start : UInt32) (i : ℕ) (P : ℕ → Prop) [DecidablePred P] :
    Decidable (s.Ahead start i P) :=
  inferInstanceAs (Decidable (∃ k < MaxTotalSlots, _))

instance [Fintype ι] (s : State ι) : (a : Action ι) → Decidable (LeavesOne s a)
  | .run j => inferInstanceAs (Decidable (∀ p ∈ (s.pc j).search, _ → _ → ∀ k, k ≠ j → _))
  | .call _ | .close _ | .use .. => inferInstanceAs (Decidable True)

/-- A second goroutine opens its connection while the first has one, which is then closed. -/
theorem slot_guaranteed_run : ∃ s : State Bool, s.pc true = .opened 2 ∧ s.status 1 = .idle ∧
    s.pc true ≠ .failed := by
  obtain ⟨s, hr, hp⟩ := System.exists_reaches_of_runWith (s := newSlots) (slots Bool) LeavesOne
    [.call false, .run false, .run false, .call true, .run true, .run true, .run false,
      .run true, .close false, .run false, .run false]
    (fun s => decide (s.pc true = .opened 2 ∧ s.status 1 = .idle)) rfl (by decide +kernel)
  obtain ⟨hpc, hstatus⟩ := of_decide_eq_true hp
  exact ⟨s, hpc, hstatus, (slot_guaranteed s hr true).2.1⟩

/-! ## A slot that is missed -/

theorem open_run {y : ℕ} (hpc : s.pc j = .idle) (hroom : s.limit < MaxTotalSlots)
    (hy : slotAt (s.cursor + 1) 0 = y) (hidle : s.status y = .idle) :
    (slots ι).run s [.call j, .run j, .run j, .run j] =
      some ⟨s.limit + 1, s.cursor + 1, Function.update s.status y .ready,
        Function.update s.pc j (.opened y)⟩ := by
  simp [System.run, slots, step, State.goto, State.setStatus, hpc, hroom, hy, hidle]

theorem close_run (hpc : s.pc j = .opened x) :
    (slots ι).run s [.close j, .run j, .run j] =
      some ⟨s.limit - 1, s.cursor, Function.update s.status x .idle,
        Function.update s.pc j .idle⟩ := by
  simp [System.run, slots, step, State.goto, State.setStatus, hpc]

/-- A search without an idle slot before it fails if nothing else happens. -/
theorem search_fails {start : UInt32} {i : ℕ} (hr : (slots ι).Reachable s)
    (hpc : s.pc j = .scan start i) (hi : i ≤ MaxTotalSlots) (hlimit : 0 < s.limit)
    (hbusy : ∀ k, i ≤ k → k < MaxTotalSlots → s.status (slotAt start k) ≠ .idle) :
    ∃ t, (slots ι).Reachable t ∧ t.pc j = .failed ∧ t.status = s.status := by
  obtain ⟨n, hn⟩ := Nat.exists_eq_add_of_le hi
  induction n generalizing s i with
  | zero =>
    have hrun : (slots ι).run s [.run j, .run j] =
        some ⟨s.limit - 1, s.cursor, s.status, Function.update s.pc j .failed⟩ := by
      simp [System.run, slots, step, State.goto, hpc, hlimit, hn]
    exact ⟨_, hr.run (fun _ _ _ => trivial) hrun, Function.update_self .., rfl⟩
  | succ n ih =>
    have hstep : (slots ι).step s (.run j) = some (s.goto j (.scan start (i + 1))) := by
      simp only [slots, step, hpc]
      rw [if_pos (by omega), if_neg (hbusy i le_rfl (by omega))]
    exact ih (s := s.goto j (.scan start (i + 1))) (.step hr trivial hstep) (Function.update_self ..)
      (by omega) hlimit (fun k hk => hbusy k (by omega)) (by omega)

/-- Goroutine 0 has begun its search at slot 1, and goroutines 2 to `k + 1` have opened connections
on the slots of their numbers. -/
def filled (k : ℕ) : State ℕ where
  limit := k + 1
  cursor := .ofNat (k + 1)
  status x := if 2 ≤ x ∧ x ≤ k + 1 then .ready else .idle
  pc t := if t = 0 then .scan 1 0 else if 2 ≤ t ∧ t ≤ k + 1 then .opened t else .idle

theorem reachable_filled {k : ℕ} (hk : k + 1 ≤ MaxTotalSlots) :
    (slots ℕ).Reachable (filled k) := by
  induction k with
  | zero =>
    have hrun : (slots ℕ).run newSlots [.call 0, .run 0] = some (filled 0) := by
      simp [System.run, slots, step, State.goto, newSlots, filled]
      refine ⟨?_, ?_⟩
      · funext x
        rw [if_neg (by omega)]
      · funext t
        have hnone : ¬ (2 ≤ t ∧ t ≤ 1) := by omega
        rw [Function.update_apply, if_neg hnone]
    exact System.reachable_of_run rfl hrun
  | succ k ih =>
    have hcursor : (filled k).cursor + 1 = .ofNat (k + 2) := by
      rw [filled, UInt32.ofNat_add (k + 1) 1]
      rfl
    have hslot : slotAt ((filled k).cursor + 1) 0 = k + 2 := by
      rw [hcursor, slotAt_eq, UInt32.toNat_ofNat']
      simp only [MaxTotalSlots] at hk ⊢
      omega
    have hopen := @open_run ℕ _ (filled k) (k + 2) (k + 2) (by simp [filled]) hk hslot
      (by simp [filled])
    refine (ih (by omega)).run (fun _ _ _ => trivial) (hopen.trans (congrArg some ?_))
    rw [hcursor]
    simp only [filled, State.mk.injEq, true_and]
    refine ⟨?_, ?_⟩
    · funext x
      rw [Function.update_apply]
      split_ifs <;> first | rfl | omega
    · funext t
      rw [Function.update_apply]
      split_ifs <;> first | rfl | omega | (subst_vars; rfl)

/-- The run in which `allocSlot` fails although a slot is idle all the time: goroutine 0 tries slot 1
while another one has it, then slot 1 is freed, and slot 2, which is the last idle one before the
search, is taken. -/
theorem slot_missed : ∃ s : State ℕ, (slots ℕ).Reachable s ∧ s.pc 0 = .failed ∧
    s.status 1 = .idle := by
  have hfilled : (slots ℕ).Reachable (filled 4095) := reachable_filled (by decide)
  -- slot 2 becomes idle, a goroutine takes slot 1, and the search tries it
  have h₁ := hfilled.run (fun _ _ _ => trivial) (close_run (j := 2) (x := 2) rfl)
  have h₂ := h₁.run (fun _ _ _ => trivial)
    (open_run (j := 4097) (y := 1) rfl (by decide) (by decide) rfl)
  have h₃ := System.Reaches.step (a := .run 0) h₂ trivial rfl
  -- slot 1 becomes idle, and a goroutine takes slot 2
  have h₄ := h₃.run (fun _ _ _ => trivial) (close_run (j := 4097) (x := 1) rfl)
  have h₅ := h₄.run (fun _ _ _ => trivial)
    (open_run (j := 4098) (y := 2) rfl (by decide) (by decide) rfl)
  have hslot : ∀ k < MaxTotalSlots, slotAt 1 k = k + 1 := by
    intro k hk
    rw [slotAt_eq, show UInt32.toNat 1 = 1 from rfl]
    simp only [MaxTotalSlots] at hk ⊢
    omega
  obtain ⟨t, ht, hpc, hstatus⟩ := search_fails (j := 0) h₅ rfl (by decide) (by decide) (by
    intro k hk hlt
    rw [hslot k hlt]
    change Function.update (Function.update (Function.update (Function.update (filled 4095).status 2
      .idle) 1 .ready) 1 .idle) 2 .ready (k + 1) ≠ .idle
    simp only [Function.update_apply, filled]
    simp only [MaxTotalSlots] at hlt
    split_ifs <;> first | omega | exact nofun)
  exact ⟨t, ht, hpc, by rw [hstatus]; rfl⟩

end Mmfg.Slots
