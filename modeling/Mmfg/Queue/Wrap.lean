import Mmfg.Queue.Fifo

/-!
# The ring when the counters wrap

`QueueSize = 510` does not divide `2 ^ 32`: at the wrap of a 32-bit counter the cell index jumps
from 255 back to 0, so two positions 256 apart on the two sides of the wrap share a cell.  The
positions from the head to the next one to be claimed lie in different cells exactly when they do
not cross the wrap or when at most 255 entries are outstanding (`ringDistinct_iff`).  Runs whose
claims respect that bound never overwrite an entry (`queue_wrap`), and a run of the code that
does not is given (`queue_wrap_overwrites`).
-/

namespace Mmfg.Queue

/-- The number of outstanding entries, as the wrapping subtraction gives it. -/
def outstanding (head tail : UInt32) : ℕ := (tail - head).toNat

/-- The outstanding positions and the next one to be claimed are mapped to different cells. -/
def RingDistinct (head tail : UInt32) : Prop :=
  ∀ i j, i ≤ outstanding head tail → j ≤ outstanding head tail →
    cellOf (head + UInt32.ofNat i) = cellOf (head + UInt32.ofNat j) → i = j

theorem cellOf_add (head : UInt32) (i : ℕ) :
    cellOf (head + UInt32.ofNat i) = (head.toNat + i) % 2 ^ 32 % QueueSize := by
  rw [cellOf, UInt32.toNat_mod, UInt32.toNat_add, UInt32.toNat_ofNat', Nat.add_mod_mod]
  rfl

/-- `n` outstanding positions from `head` on and the next one have cells of their own: they do not
cross the wrap of the counter, or there are at most 255 of them. -/
def WrapFree (head n : ℕ) : Prop := head + n < 2 ^ 32 ∨ n ≤ 255

theorem ringDistinct_iff {head tail : UInt32} (hw : outstanding head tail ≤ QueueSize - 1) :
    RingDistinct head tail ↔ WrapFree head.toNat (outstanding head tail) := by
  have hh := head.toNat_lt
  unfold RingDistinct WrapFree
  simp only [cellOf_add]
  generalize outstanding head tail = n at hw
  generalize head.toNat = a at hh
  simp only [QueueSize] at hw ⊢
  constructor
  · intro h
    by_contra hc
    -- positions `i` and `i + 256` on the two sides of the wrap
    obtain ⟨i, hi, h1, h2⟩ : ∃ i, i + 256 ≤ n ∧ a + i < 2 ^ 32 ∧ 2 ^ 32 ≤ a + i + 256 :=
      ⟨2 ^ 32 - 256 - a, by omega, by omega, by omega⟩
    have := h i (i + 256) (by omega) hi (by omega)
    omega
  · intro h i j hi hj he
    -- past the wrap a position is `2 ^ 32` less, which is 256 modulo `QueueSize`
    have hmod : ∀ x, x < 2 ^ 32 + 2 ^ 32 → x % 2 ^ 32 = if x < 2 ^ 32 then x else x - 2 ^ 32 := by
      intro x hx
      split_ifs <;> omega
    rw [hmod (a + i) (by omega), hmod (a + j) (by omega)] at he
    split_ifs at he <;> omega

theorem distinct_iff {h t : ℕ} (hle : h ≤ t) (hw : t ≤ h + (QueueSize - 1)) :
    Distinct h t ↔ RingDistinct (UInt32.ofNat h) (UInt32.ofNat t) := by
  have hn : outstanding (UInt32.ofNat h) (UInt32.ofNat t) = t - h := by
    simp only [QueueSize] at hw
    rw [outstanding, ← UInt32.ofNat_sub hle]
    exact UInt32.toNat_ofNat_of_lt' (by simp only [UInt32.size]; omega)
  unfold Distinct RingDistinct
  rw [hn]
  constructor
  · intro hd i j hi hj he
    rw [← UInt32.ofNat_add, ← UInt32.ofNat_add] at he
    have := hd (h + i) (h + j) (by omega) (by omega) (by omega) (by omega) he
    omega
  · intro hd i j hi hi' hj hj' he
    have := hd (i - h) (j - h) (by omega) (by omega) (by
      rw [← UInt32.ofNat_add, ← UInt32.ofNat_add, Nat.add_sub_cancel' hi, Nat.add_sub_cancel' hj]
      exact he)
    omega

variable {ι : Type}

/-- The condition on the state in which the tail is claimed: there is room in the ring, and after
the claim the outstanding positions and the next one have cells of their own. -/
def ClaimOk (s : State ι) : Prop :=
  outstanding s.head s.tail + 1 ≤ QueueSize - 1 ∧
    WrapFree s.head.toNat (outstanding s.head s.tail + 1)

/-- No producer is about to store over an entry that has not been popped. -/
def NoOverwrite (s : State ι) : Prop :=
  ∀ p e tail, s.producer p = .store e tail → s.cells (cellOf tail) = 0

theorem Inv.noOverwrite {s : State ι} (h : Inv s) : NoOverwrite s := by
  intro p e tail hp
  obtain ⟨i, -, -, rfl, hc⟩ := h.claimed p e tail (by rw [hp]; rfl)
  exact hc

theorem Inv.outstanding_eq {s : State ι} (h : Inv s) :
    outstanding s.head s.tail = s.pushed.length - s.popped.length := h.sub_toNat

theorem Inv.room_of_claimOk {s : State ι} (h : Inv s) (hc : ClaimOk s) : Room s := by
  obtain ⟨hw, hf⟩ := hc
  have hle := h.length_le
  rw [h.outstanding_eq] at hw hf
  have hw' : s.pushed.length + 1 ≤ s.popped.length + (QueueSize - 1) := by omega
  refine ⟨hw', (distinct_iff (by omega) hw').2 ?_⟩
  have hn : outstanding (UInt32.ofNat s.popped.length) (UInt32.ofNat (s.pushed.length + 1)) =
      s.pushed.length - s.popped.length + 1 := by
    simp only [QueueSize] at hw'
    rw [outstanding, ← UInt32.ofNat_sub (by omega), Nat.sub_add_comm hle]
    exact UInt32.toNat_ofNat_of_lt' (by simp only [UInt32.size]; omega)
  rw [ringDistinct_iff (by rw [hn]; exact hw), hn, ← h.head]
  exact hf

variable [DecidableEq ι]

/-- Steps whose commands leave the ready bit free and whose claims satisfy `ClaimOk`. -/
def ClaimsOk (s : State ι) (a : Action ι) : Prop := CommandOk a ∧ (Claims s a → ClaimOk s)

/-- For all counters with at most `QueueSize - 1` outstanding entries the positions have cells of
their own exactly when they are `WrapFree`; and in every run, of any length, whose claims are made
in states that satisfy `ClaimOk`, every state reached has at most `QueueSize - 1` outstanding
entries in different cells and no push stores over an entry that has not been popped. -/
theorem queue_wrap :
    (∀ head tail : UInt32, outstanding head tail ≤ QueueSize - 1 →
      (RingDistinct head tail ↔ WrapFree head.toNat (outstanding head tail))) ∧
    ∀ s : State ι, (queue ι).Reaches ClaimsOk s →
      outstanding s.head s.tail ≤ QueueSize - 1 ∧ RingDistinct s.head s.tail ∧ NoOverwrite s := by
  refine ⟨fun head tail => ringDistinct_iff, fun s hr => ?_⟩
  have h : Inv s := by
    refine hr.invariant ?_ ?_
    · rintro s rfl
      exact inv_initial
    · intro s a t _ h hok hs
      exact inv_step h hok.1 (fun hc => h.room_of_claimOk (hok.2 hc)) hs
  refine ⟨?_, ?_, h.noOverwrite⟩
  · rw [h.outstanding_eq]
    have := h.window
    omega
  · rw [h.head, h.tail]
    exact (distinct_iff h.length_le h.window).1 h.distinct

/-- A push that claims position 0 of a new queue meets the condition. -/
theorem queue_wrap_first_claim : ∃ s : State Bool, s.pushed = [⟨7, 1⟩] ∧
    outstanding s.head s.tail ≤ QueueSize - 1 ∧ RingDistinct s.head s.tail ∧ NoOverwrite s := by
  have hok : ∀ a : Action Bool, CommandOk a → ∀ s : State Bool, s.head = 0 ∧ s.tail = 0 →
      ClaimsOk s a := by
    rintro a ha s ⟨hh, ht⟩
    refine ⟨ha, fun _ => ?_⟩
    rw [ClaimOk, hh, ht]
    exact ⟨by decide, .inl (by decide)⟩
  have h0 : (queue Bool).Reaches ClaimsOk initial := .init rfl
  have h1 := h0.step (hok (.callPush true .rust ⟨7, 1⟩) (by decide) _ ⟨rfl, rfl⟩) rfl
  have h2 := h1.step (hok (.push true) trivial _ ⟨rfl, rfl⟩) rfl
  have h3 := h2.step (hok (.push true) trivial _ ⟨rfl, rfl⟩) rfl
  have h4 := h3.step (hok (.push true) trivial _ ⟨rfl, rfl⟩) rfl
  exact ⟨_, rfl, queue_wrap.2 _ h4⟩

/-! ## A run across the wrap -/

/-- The state after a push by `p` that finds room. -/
def afterPush (s : State ι) (p : ι) (e : Entry) : State ι :=
  { s with
    tail := s.tail + 1
    cells := Function.update s.cells (cellOf s.tail) (pack e)
    producer := Function.update s.producer p (.returned true)
    pushed := s.pushed ++ [e] }

/-- The state after the same push up to its claim. -/
def afterClaim (s : State ι) (p : ι) (e : Entry) : State ι :=
  { s with
    tail := s.tail + 1
    producer := Function.update s.producer p (.store e s.tail)
    pushed := s.pushed ++ [e] }

/-- The state after a pop of a published entry. -/
def afterPop (s : State ι) : State ι :=
  { s with
    head := s.head + 1
    cells := Function.update s.cells (cellOf s.head) 0
    consumer := .returned (some (unpack (s.cells (cellOf s.head))))
    popped := s.popped ++ [unpack (s.cells (cellOf s.head))] }

theorem run_claim {s : State ι} {p : ι} {e : Entry} (hq : (s.producer p).Quiet = true)
    (hroom : outstanding s.head s.tail < QueueSize - 1) :
    (queue ι).run s [.callPush p .go e, .push p, .push p, .push p] = some (afterClaim s p e) := by
  have hfull : ¬ 509 ≤ s.tail - s.head := by
    rw [UInt32.le_iff_toNat_le]
    exact Nat.not_le.2 hroom
  simp [System.run_cons, queue, step, hq, State.stepPush, State.setProducer, hfull, afterClaim]

theorem run_push {s : State ι} {p : ι} {e : Entry} (hq : (s.producer p).Quiet = true)
    (hroom : outstanding s.head s.tail < QueueSize - 1) :
    (queue ι).run s ([.callPush p .go e, .push p, .push p, .push p] ++ [.push p]) =
      some (afterPush s p e) := by
  rw [System.run_append, run_claim hq hroom, Option.bind_some]
  simp [System.run_cons, queue, step, State.stepPush, afterClaim, afterPush]

theorem run_pop {s : State ι} {l : Lang} (hq : s.consumer.Quiet = true) (hne : s.head ≠ s.tail)
    (hr : l.ready (s.cells (cellOf s.head)) = true) :
    (queue ι).run s [.callPop l, .pop, .pop, .pop, .pop, .pop] = some (afterPop s) := by
  simp [System.run_cons, queue, step, hq, State.stepPop, State.setConsumer, hne, hr, afterPop]

/-- An empty queue with head and tail at `k`, reached with no call in progress. -/
def EmptyAt (k : ℕ) (s : State Unit) : Prop :=
  (queue Unit).Reaches Commands s ∧ s.head = UInt32.ofNat k ∧ s.tail = UInt32.ofNat k ∧
    (s.producer ()).Quiet = true ∧ s.consumer.Quiet = true

theorem outstanding_ofNat (k n : ℕ) (hn : n < 2 ^ 32) :
    outstanding (UInt32.ofNat k) (UInt32.ofNat (k + n)) = n := by
  rw [outstanding, ← UInt32.ofNat_sub (by omega), Nat.add_sub_cancel_left]
  exact UInt32.toNat_ofNat_of_lt' hn

theorem commands_push (e : Entry) (he : e.cmd.toNat < 2 ^ 31) :
    ∀ a ∈ ([.callPush () .go e, .push (), .push (), .push ()] ++ [.push ()] : List (Action Unit)),
      ∀ s, Commands s a := by
  simp only [List.cons_append, List.nil_append, List.mem_cons, List.not_mem_nil, or_false]
  rintro a (rfl | rfl | rfl | rfl | rfl) s
  · exact he
  all_goals trivial

/-- Pushing and popping one entry at a time reaches every counter value. -/
theorem exists_emptyAt : ∀ k, ∃ s, EmptyAt k s
  | 0 => ⟨initial, .init rfl, rfl, rfl, rfl, rfl⟩
  | k + 1 => by
    obtain ⟨s, hr, hh, ht, hp, hc⟩ := exists_emptyAt k
    have hroom : outstanding s.head s.tail < QueueSize - 1 := by
      have := outstanding_ofNat k 0 (by norm_num)
      rw [hh, ht]
      exact this.trans_lt (by norm_num)
    have h1 := hr.run (commands_push ⟨7, 1⟩ (by decide)) (run_push (e := ⟨7, 1⟩) hp hroom)
    have hcell : (afterPush s () ⟨7, 1⟩).cells (cellOf (afterPush s () ⟨7, 1⟩).head) =
        pack ⟨7, 1⟩ := by
      simp [afterPush, hh, ht]
    have hne : (afterPush s () ⟨7, 1⟩).head ≠ (afterPush s () ⟨7, 1⟩).tail := by
      simp [afterPush, hh, ht]
    have h2 := h1.run (fun a ha s => by
        simp only [List.mem_cons, List.not_mem_nil, or_false] at ha
        rcases ha with rfl | rfl | rfl | rfl | rfl | rfl <;> trivial)
      (run_pop (l := .go) hc hne (by rw [hcell]; exact ready_pack _ _))
    refine ⟨_, h2, ?_, ?_, ?_, rfl⟩
    · simp only [afterPop, afterPush, hh]
      exact (UInt32.ofNat_add k 1).symm
    · simp only [afterPop, afterPush, ht]
      exact (UInt32.ofNat_add k 1).symm
    · simp [afterPop, afterPush, Push.Quiet]

/-- From there up to 256 entries can be pushed without a pop; the cell of the first stays full. -/
theorem exists_filled (k : ℕ) : ∀ n ≤ 256, ∃ s : State Unit, (queue Unit).Reaches Commands s ∧
    s.head = UInt32.ofNat k ∧ s.tail = UInt32.ofNat (k + n) ∧ (s.producer ()).Quiet = true ∧
    (0 < n → s.cells (cellOf s.head) ≠ 0)
  | 0, _ => by
    obtain ⟨s, hr, hh, ht, hp, -⟩ := exists_emptyAt k
    exact ⟨s, hr, hh, ht, hp, fun h => absurd h (lt_irrefl 0)⟩
  | n + 1, hn => by
    obtain ⟨s, hr, hh, ht, hp, hc⟩ := exists_filled k n (by omega)
    have hroom : outstanding s.head s.tail < QueueSize - 1 := by
      rw [hh, ht, outstanding_ofNat k n (by omega)]
      simp only [QueueSize]
      omega
    refine ⟨_, hr.run (commands_push ⟨7, 1⟩ (by decide)) (run_push (e := ⟨7, 1⟩) hp hroom), hh, ?_,
      by simp [afterPush, Push.Quiet], fun _ => ?_⟩
    · simp only [afterPush, ht]
      exact (UInt32.ofNat_add (k + n) 1).symm
    · simp only [afterPush, Function.update_apply]
      split_ifs with he
      · exact pack_ne_zero _
      · apply hc
        rcases Nat.eq_zero_or_pos n with rfl | h
        · exact absurd (by rw [hh, ht, Nat.add_zero]) he
        · exact h

/-- Starting at position `2 ^ 32 - 256`, the claim after 256 pushes gets position 0 and with it the
cell of the oldest entry: two outstanding positions share a cell, and the push is about to store
over an entry that has not been popped. -/
theorem queue_wrap_overwrites :
    ∃ s : State Unit, (queue Unit).Reaches Commands s ∧
      outstanding s.head s.tail ≤ QueueSize - 1 ∧ ¬ RingDistinct s.head s.tail ∧
      ¬ NoOverwrite s := by
  obtain ⟨s, hr, hh, ht, hp, hc⟩ := exists_filled (2 ^ 32 - 256) 256 le_rfl
  have hroom : outstanding s.head s.tail < QueueSize - 1 := by
    rw [hh, ht, outstanding_ofNat _ _ (by norm_num)]
    norm_num
  have hclaim := hr.run (fun a ha => commands_push ⟨7, 1⟩ (by decide) a (by simp_all))
    (run_claim (e := ⟨7, 1⟩) hp hroom)
  have hout : outstanding s.head (s.tail + 1) = 257 := by
    rw [hh, ht]
    rfl
  refine ⟨_, hclaim, hout.trans_le (by norm_num), ?_, ?_⟩
  · change ¬ RingDistinct s.head (s.tail + 1)
    rw [ringDistinct_iff (hout.trans_le (by norm_num)), hout, hh]
    rintro (h | h)
    · exact absurd h (by decide)
    · exact absurd h (by decide)
  · intro hn
    refine hc (by norm_num) ?_
    have hcell := hn () ⟨7, 1⟩ s.tail (by simp [afterClaim])
    rw [ht] at hcell
    rw [hh]
    exact hcell

end Mmfg.Queue
