import Mmfg.Queue.Invariant

/-!
# The queue delivers every entry once, in order

As long as fewer than `2 ^ 32` positions have been claimed the counters do not wrap.  Then the head
that a producer has read is at most the current one (`Fresh`), so its fullness test leaves room for
the claim (`Fresh.room`), and the queue invariant holds in every reachable state.
-/

namespace Mmfg.Queue

variable {ι : Type}

/-- What a producer has read, while the counters do not wrap and `n` entries are popped: a head is
not ahead of the queue, and a tail that passed the fullness test still fits in the ring. -/
def Push.Fresh (n : ℕ) : Push → Prop
  | .readTail _ _ _ head => head.toNat ≤ n
  | .cas _ _ _ tail => tail.toNat + 1 ≤ n + (QueueSize - 1)
  | _ => True

theorem Push.Fresh.mono {n m : ℕ} {pc : Push} (h : pc.Fresh n) (hnm : n ≤ m) : pc.Fresh m := by
  cases pc <;> simp only [Push.Fresh] at h ⊢ <;> omega

/-- The same for all producers and the entries popped so far. -/
def Fresh (s : State ι) : Prop := ∀ p, (s.producer p).Fresh s.popped.length

theorem distinct_of_lt {h t : ℕ} (ht : t < 2 ^ 32) (hw : t ≤ h + (QueueSize - 1)) :
    Distinct h t := by
  intro i j hi hi' hj hj' he
  rw [cellAt_eq, cellAt_eq, Nat.mod_eq_of_lt (by omega : i < 2 ^ 32),
    Nat.mod_eq_of_lt (by omega : j < 2 ^ 32)] at he
  simp only [QueueSize] at he hw
  omega

namespace Inv

variable {s : State ι}

theorem head_toNat (h : Inv s) (hn : s.pushed.length < 2 ^ 32) :
    s.head.toNat = s.popped.length := by
  have := h.length_le
  rw [h.head]
  exact UInt32.toNat_ofNat_of_lt' (by simp only [UInt32.size]; omega)

theorem tail_toNat (h : Inv s) (hn : s.pushed.length < 2 ^ 32) :
    s.tail.toNat = s.pushed.length := by
  rw [h.tail]
  exact UInt32.toNat_ofNat_of_lt' (by simp only [UInt32.size]; omega)

/-- The wrapping difference of the counters is the number of outstanding entries. -/
theorem sub_toNat (h : Inv s) : (s.tail - s.head).toNat = s.pushed.length - s.popped.length := by
  have hle := h.length_le
  have hw := h.window
  simp only [QueueSize] at hw
  rw [h.head, h.tail, ← UInt32.ofNat_sub hle]
  exact UInt32.toNat_ofNat_of_lt' (by simp only [UInt32.size]; omega)

end Inv

variable {s t : State ι} {a : Action ι}

theorem Fresh.room (hf : Fresh s) (h : Inv s) (hn : s.pushed.length + 1 < 2 ^ 32)
    (hc : Claims s a) : Room s := by
  obtain ⟨p, l, e, spin, -, hp⟩ := hc
  have hp' := hf p
  rw [hp] at hp'
  simp only [Push.Fresh, h.tail_toNat (by omega)] at hp'
  exact ⟨hp', distinct_of_lt hn hp'⟩

theorem stepPop_frame (hs : s.stepPop = some t) :
    t.producer = s.producer ∧ t.tail = s.tail ∧ t.pushed = s.pushed ∧
      s.popped.length ≤ t.popped.length := by
  unfold State.stepPop at hs
  cases hc : s.consumer <;> simp only [hc] at hs <;> (try split_ifs at hs) <;>
    simp only [Option.some.injEq, reduceCtorEq] at hs <;> subst hs <;>
    simp [State.setConsumer]

variable [DecidableEq ι]

theorem Fresh.update (hf : Fresh s) {p : ι} (pc : Push) (hpc : pc.Fresh s.popped.length)
    (ht : t.producer = Function.update s.producer p pc) (hpop : t.popped = s.popped) : Fresh t := by
  intro q
  rw [ht, hpop]
  by_cases hq : q = p
  · subst hq
    rw [Function.update_self]
    exact hpc
  · rw [Function.update_of_ne hq]
    exact hf q

theorem fresh_stepPush (hf : Fresh s) (h : Inv s) (hn : s.pushed.length < 2 ^ 32) {p : ι}
    (hs : s.stepPush p = some t) : Fresh t := by
  unfold State.stepPush at hs
  cases hp : s.producer p with
  | idle | returned => simp [hp] at hs
  | readHead l e spin =>
    simp only [hp, Option.some.injEq] at hs
    subst hs
    exact hf.update (.readTail l e spin s.head) (h.head_toNat hn).le rfl rfl
  | readTail l e spin hd =>
    have hhd := hf p
    rw [hp] at hhd
    simp only [hp] at hs
    simp only [Push.Fresh] at hhd
    split_ifs at hs with hfull <;> simp only [Option.some.injEq] at hs <;> subst hs
    · exact hf.update (.readHead l e (spin + 1)) trivial rfl rfl
    · exact hf.update (.returned false) trivial rfl rfl
    · refine hf.update (.cas l e spin s.tail) ?_ rfl rfl
      -- the head read earlier is not ahead, so the wrapping difference is the true one
      have htl := h.tail_toNat hn
      have hle := h.length_le
      have hsub : (s.tail - hd).toNat = s.tail.toNat - hd.toNat :=
        UInt32.toNat_sub_of_le _ _ (UInt32.le_iff_toNat_le.2 (by omega))
      have hlt : (s.tail - hd).toNat < (QueueSize - 1).toUInt32.toNat := by
        rw [UInt32.le_iff_toNat_le] at hfull
        omega
      have h509 : (QueueSize - 1).toUInt32.toNat = 509 := rfl
      simp only [Push.Fresh, QueueSize]
      omega
  | cas l e spin tl =>
    simp only [hp] at hs
    split_ifs at hs <;> simp only [Option.some.injEq] at hs <;> subst hs
    · exact hf.update (.store e tl) trivial rfl rfl
    · exact hf.update (.readHead l e spin) trivial rfl rfl
  | store e tl =>
    simp only [hp, Option.some.injEq] at hs
    subst hs
    exact hf.update (.returned true) trivial rfl rfl

theorem stepPush_pushed {p : ι} (hs : s.stepPush p = some t) :
    (t.pushed = s.pushed ∧ t.tail = s.tail) ∨
      ((∃ e, t.pushed = s.pushed ++ [e]) ∧ Claims s (.push p)) := by
  unfold State.stepPush at hs
  cases hp : s.producer p <;> simp only [hp] at hs <;> (try split_ifs at hs) <;>
    simp only [Option.some.injEq, reduceCtorEq] at hs <;> subst hs
  all_goals try exact .inl ⟨rfl, rfl⟩
  rename_i l e spin tl htl
  subst htl
  exact .inr ⟨⟨e, rfl⟩, p, l, e, spin, rfl, hp⟩

/-- A step claims a position or leaves the claims as they are. -/
theorem step_pushed (hs : (queue ι).step s a = some t) :
    t.pushed = s.pushed ∨ ((∃ e, t.pushed = s.pushed ++ [e]) ∧ Claims s a) := by
  cases a with
  | callPush p l e =>
    simp only [queue, step] at hs
    split_ifs at hs
    cases hs
    exact .inl rfl
  | push p => exact (stepPush_pushed hs).imp_left And.left
  | callPop l =>
    simp only [queue, step] at hs
    split_ifs at hs
    cases hs
    exact .inl rfl
  | pop => exact .inl (stepPop_frame hs).2.2.1

theorem claims_pushed (hc : Claims s a) (hs : (queue ι).step s a = some t) :
    t.pushed.length = s.pushed.length + 1 := by
  obtain ⟨p, l, e, spin, rfl, hp⟩ := hc
  simp only [queue, step, State.stepPush, hp, if_pos, Option.some.injEq] at hs
  subst hs
  simp

theorem fresh_step (hf : Fresh s) (h : Inv s) (hn : s.pushed.length < 2 ^ 32)
    (hs : (queue ι).step s a = some t) : Fresh t := by
  cases a with
  | callPush p l e =>
    simp only [queue, step] at hs
    split_ifs at hs
    cases hs
    exact hf.update (.readHead l e 0) trivial rfl rfl
  | push p => exact fresh_stepPush hf h hn hs
  | callPop l =>
    simp only [queue, step] at hs
    split_ifs at hs
    cases hs
    exact hf
  | pop =>
    obtain ⟨hprod, -, -, hle⟩ := stepPop_frame hs
    exact fun p => hprod ▸ (hf p).mono hle

/-- Runs whose pushes leave the ready bit of the command free. -/
def Commands (_ : State ι) (a : Action ι) : Prop := CommandOk a

theorem inv_of_reaches (hr : (queue ι).Reaches Commands s) (hn : s.pushed.length < 2 ^ 32) :
    Inv s ∧ Fresh s := by
  revert hn
  refine hr.invariant (I := fun s => s.pushed.length < 2 ^ 32 → Inv s ∧ Fresh s) ?_ ?_
  · rintro s rfl -
    exact ⟨inv_initial, fun p => trivial⟩
  · intro s a t _ ih hok hs hn
    have hlen : s.pushed.length ≤ t.pushed.length := by
      rcases step_pushed hs with h | ⟨⟨e, h⟩, -⟩ <;> simp [h]
    obtain ⟨h, hf⟩ := ih (by omega)
    refine ⟨inv_step h hok (fun hc => hf.room h ?_ hc) hs, fresh_step hf h (by omega) hs⟩
    rw [claims_pushed hc hs] at hn
    exact hn

/-! ## A push that fails has changed nothing -/

/-- The push has claimed its position. -/
def Push.Claimed : Push → Prop
  | .store _ _ | .returned true => True
  | _ => False

/-- A step that is not a call of `p` keeps a claim of `p`. -/
theorem claimed_step {p : ι} (hp : (s.producer p).Claimed) (ha : ∀ l e, a ≠ .callPush p l e)
    (hs : (queue ι).step s a = some t) : (t.producer p).Claimed := by
  cases a with
  | callPush q l e =>
    simp only [queue, step] at hs
    split_ifs at hs
    cases hs
    have hpq : p ≠ q := fun h => ha l e (h ▸ rfl)
    simpa [State.setProducer, hpq] using hp
  | push q =>
    by_cases hpq : p = q
    · subst hpq
      simp only [queue, step, State.stepPush] at hs
      cases hpc : s.producer p with
      | store e tl =>
        simp only [hpc, Option.some.injEq] at hs
        subst hs
        simp [Push.Claimed]
      | returned ok => simp [hpc] at hs
      | idle | readHead | readTail | cas => simp [hpc, Push.Claimed] at hp
    · have hq : t.producer p = s.producer p := by
        simp only [queue, step, State.stepPush] at hs
        cases hpc : s.producer q <;> simp only [hpc] at hs <;> (try split_ifs at hs) <;>
          simp only [Option.some.injEq, reduceCtorEq] at hs <;> subst hs <;>
          simp [State.setProducer, hpq]
      rw [hq]
      exact hp
  | callPop l =>
    simp only [queue, step] at hs
    split_ifs at hs
    cases hs
    exact hp
  | pop => rw [(stepPop_frame hs).1]; exact hp

theorem claimed_run {p : ι} {as : List (Action ι)} (hp : (s.producer p).Claimed)
    (ha : ∀ l e, .callPush p l e ∉ as) (hs : (queue ι).run s as = some t) :
    (t.producer p).Claimed := by
  induction as generalizing s with
  | nil => cases hs; exact hp
  | cons a as ih =>
    rw [System.run_cons, Option.bind_eq_some_iff] at hs
    obtain ⟨u, hu, hs⟩ := hs
    refine ih (claimed_step hp (fun l e h => ha l e (by simp [h])) hu) ?_ hs
    exact fun l e h => ha l e (by simp [h])

/-- A step of a producer changes the memory only by claiming or by storing after a claim. -/
theorem stepPush_frame {p : ι} (hs : s.stepPush p = some t) :
    (t.head = s.head ∧ t.tail = s.tail ∧ t.cells = s.cells) ∨ (t.producer p).Claimed := by
  unfold State.stepPush at hs
  cases hp : s.producer p <;> simp only [hp] at hs <;> (try split_ifs at hs) <;>
    simp only [Option.some.injEq, reduceCtorEq] at hs <;> subst hs <;>
    simp [State.setProducer, Push.Claimed]

/-- The part of a run in which producer `p` runs one push to its failure: none of the steps it
takes there changes the counters or a cell. -/
def FailsSilently (s : State ι) : Prop :=
  ∀ p l e, s.producer p = .readHead l e 0 → ∀ as t, (queue ι).run s as = some t →
    (∀ l' e', .callPush p l' e' ∉ as) → t.producer p = .returned false →
    ∀ bs cs u v, as = bs ++ .push p :: cs → (queue ι).run s bs = some u →
      (queue ι).step u (.push p) = some v →
      v.head = u.head ∧ v.tail = u.tail ∧ v.cells = u.cells

theorem failsSilently (s : State ι) : FailsSilently s := by
  rintro p l e - as t has hcall ht bs cs u v rfl hbs huv
  rcases stepPush_frame huv with h | h
  · exact h
  · exfalso
    rw [System.run_append, hbs, Option.bind_some, System.run_cons, huv, Option.bind_some] at has
    have := claimed_run h (fun l' e' hmem => hcall l' e' (by simp [hmem])) has
    rw [ht] at this
    exact this

/-- Exactly-once FIFO delivery: in every reachable state of a run with fewer than `2 ^ 32` claims
the popped pairs are a prefix of the claimed ones, entries are stored into cleared cells only, at
most `QueueSize - 1` entries are outstanding, and a failed push has changed neither the counters
nor a cell. -/
theorem queue_fifo (s : State ι) (hr : (queue ι).Reaches Commands s)
    (hn : s.pushed.length < 2 ^ 32) :
    s.popped <+: s.pushed ∧
      (∀ p e tail, s.producer p = .store e tail → s.cells (cellOf tail) = 0) ∧
      (s.tail - s.head).toNat ≤ QueueSize - 1 ∧ FailsSilently s := by
  obtain ⟨h, -⟩ := inv_of_reaches hr hn
  refine ⟨h.fifo, fun p e tail hp => ?_, ?_, failsSilently s⟩
  · obtain ⟨i, -, -, rfl, hc⟩ := h.claimed p e tail (by rw [hp]; rfl)
    exact hc
  · rw [h.sub_toNat]
    have := h.window
    omega

instance : (a : Action ι) → Decidable (CommandOk a)
  | .callPush _ _ e => inferInstanceAs (Decidable (e.cmd.toNat < 2 ^ 31))
  | .push _ | .callPop _ | .pop => inferInstanceAs (Decidable True)

instance (s : State ι) (a : Action ι) : Decidable (Commands s a) :=
  inferInstanceAs (Decidable (CommandOk a))

/-- One entry pushed by a Rust producer and popped by the Go consumer. -/
theorem queue_fifo_run : ∃ s : State Bool, s.popped = [⟨7, 1⟩] ∧
    s.popped <+: s.pushed ∧
      (∀ p e tail, s.producer p = .store e tail → s.cells (cellOf tail) = 0) ∧
      (s.tail - s.head).toNat ≤ QueueSize - 1 ∧ FailsSilently s := by
  obtain ⟨s, hr, hp⟩ := System.exists_reaches_of_runWith (queue Bool) Commands
    [.callPush true .rust ⟨7, 1⟩, .push true, .push true, .push true, .callPop .go, .pop,
      .pop, .pop, .push true, .pop, .pop, .pop]
    (fun s => decide (s.pushed.length < 2 ^ 32 ∧ s.popped = [⟨7, 1⟩])) rfl (by decide)
  obtain ⟨hn, hpop⟩ := of_decide_eq_true hp
  exact ⟨s, hpop, queue_fifo s hr hn⟩

end Mmfg.Queue
