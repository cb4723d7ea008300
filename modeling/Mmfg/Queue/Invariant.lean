import Mmfg.Queue.Basic

/-!
# The queue invariant

Positions are numbered by the natural numbers, without wrapping: position `i` is the one of the
`i`-th claim, the outstanding positions are those from `s.popped.length` up to
`s.pushed.length`, and `cellAt i` is the ring cell that the wrapped 32-bit counter gives for it.

`Inv` ties the counters, the cells and the program points together as long as the outstanding
positions and the next one lie in different cells (`Distinct`).  Every step keeps it except for one
obligation: a successful claim needs room (`Room`).  The two users of this file discharge that
obligation, one from the fullness test while the counters do not wrap, the other from a condition on
the counters.
-/

namespace Mmfg.Queue

variable {ι : Type}

/-- The ring cell of position `i`, as the 32-bit counter addresses it. -/
def cellAt (i : ℕ) : ℕ := cellOf (UInt32.ofNat i)

theorem cellAt_eq (i : ℕ) : cellAt i = i % 2 ^ 32 % QueueSize := by
  rw [cellAt, cellOf, UInt32.toNat_mod]
  rfl

/-- The positions from `h` to `t`, both included, lie in different cells. -/
def Distinct (h t : ℕ) : Prop :=
  ∀ i j, h ≤ i → i ≤ t → h ≤ j → j ≤ t → cellAt i = cellAt j → i = j

theorem Distinct.mono {h t h' t' : ℕ} (hd : Distinct h t) (hh : h ≤ h') (ht : t' ≤ t) :
    Distinct h' t' := fun i j h1 h2 h3 h4 =>
  hd i j (hh.trans h1) (h2.trans ht) (hh.trans h3) (h4.trans ht)

/-- The entry of a push that has not yet been claimed. -/
def Push.pending : Push → Option Entry
  | .readHead _ e _ | .readTail _ e _ _ | .cas _ e _ _ => some e
  | _ => none

/-- The position a producer has claimed and not yet stored to. -/
def Push.claim : Push → Option (Entry × UInt32)
  | .store e tail => some (e, tail)
  | _ => none

/-- What the consumer has read is still what the queue holds. -/
def ConsumerOk (s : State ι) : Prop :=
  match s.consumer with
  | .readTail _ h => h = s.head
  | .readEntry _ h _ => h = s.head ∧ s.popped.length < s.pushed.length
  | .clear h w => h = s.head ∧
      ∃ e, s.pushed[s.popped.length]? = some e ∧ w = pack e ∧ s.cells (cellAt s.popped.length) = w
  | .storeHead h w => h = s.head ∧
      (∃ e, s.pushed[s.popped.length]? = some e ∧ w = pack e) ∧
      s.cells (cellAt s.popped.length) = 0 ∧
      ∀ p e, (s.producer p).claim ≠ some (e, UInt32.ofNat s.popped.length)
  | _ => True

/-- The consumer has cleared the head cell and not yet moved the head. -/
def Pop.cleared : Pop → Bool
  | .storeHead _ _ => true
  | _ => false

/-- The ring holds the entries that were pushed and not popped. -/
structure Inv (s : State ι) : Prop where
  head : s.head = UInt32.ofNat s.popped.length
  tail : s.tail = UInt32.ofNat s.pushed.length
  fifo : s.popped <+: s.pushed
  window : s.pushed.length ≤ s.popped.length + (QueueSize - 1)
  distinct : Distinct s.popped.length s.pushed.length
  commands : ∀ e ∈ s.pushed, e.cmd.toNat < 2 ^ 31
  pending : ∀ p e, (s.producer p).pending = some e → e.cmd.toNat < 2 ^ 31
  claimed : ∀ p e t, (s.producer p).claim = some (e, t) →
    ∃ i, s.popped.length ≤ i ∧ s.pushed[i]? = some e ∧ t = UInt32.ofNat i ∧ s.cells (cellAt i) = 0
  unique : ∀ p q e e' t, (s.producer p).claim = some (e, t) →
    (s.producer q).claim = some (e', t) → p = q
  published : ∀ i e, s.popped.length ≤ i → s.pushed[i]? = some e →
    (∀ p e', (s.producer p).claim ≠ some (e', UInt32.ofNat i)) →
    s.cells (cellAt i) = pack e ∨ (i = s.popped.length ∧ s.consumer.cleared = true)
  vacant : ∀ x, (∀ i, s.popped.length ≤ i → i < s.pushed.length → cellAt i ≠ x) → s.cells x = 0
  consumer : ConsumerOk s

/-- There is room for one more position: the window stays within the ring, and the position after
the claimed one still has a cell of its own. -/
def Room (s : State ι) : Prop :=
  s.pushed.length + 1 ≤ s.popped.length + (QueueSize - 1) ∧
    Distinct s.popped.length (s.pushed.length + 1)

theorem inv_initial : Inv (initial : State ι) where
  head := rfl
  tail := rfl
  fifo := List.nil_prefix
  window := Nat.zero_le _
  distinct i j _ hi _ hj _ := by
    simp only [initial, List.length_nil] at hi hj
    omega
  commands e he := by simp [initial] at he
  pending p e he := by simp [initial, Push.pending] at he
  claimed p e t h := by simp [initial, Push.claim] at h
  unique p q e e' t h := by simp [initial, Push.claim] at h
  published i e _ h := by simp [initial] at h
  vacant x _ := rfl
  consumer := trivial

namespace Inv

variable {s : State ι}

theorem length_le (h : Inv s) : s.popped.length ≤ s.pushed.length := h.fifo.length_le

theorem claimed_lt (h : Inv s) {p : ι} {e : Entry} {t : UInt32}
    (hp : (s.producer p).claim = some (e, t)) :
    ∃ i, s.popped.length ≤ i ∧ i < s.pushed.length ∧ s.pushed[i]? = some e ∧
      t = UInt32.ofNat i ∧ s.cells (cellAt i) = 0 := by
  obtain ⟨i, hi, he, ht, hc⟩ := h.claimed p e t hp
  exact ⟨i, hi, (List.getElem?_eq_some_iff.1 he).1, he, ht, hc⟩

/-- Outstanding positions with the same counter value are equal. -/
theorem pos_inj (h : Inv s) {i j : ℕ} (hi : s.popped.length ≤ i) (hi' : i ≤ s.pushed.length)
    (hj : s.popped.length ≤ j) (hj' : j ≤ s.pushed.length)
    (he : UInt32.ofNat i = UInt32.ofNat j) : i = j :=
  h.distinct i j hi hi' hj hj' (congrArg cellOf he)

theorem setConsumer (h : Inv s) {pc : Pop} (hold : s.consumer.cleared = false)
    (hok : ConsumerOk (s.setConsumer pc)) : Inv (s.setConsumer pc) := by
  refine ⟨h.head, h.tail, h.fifo, h.window, h.distinct, h.commands, h.pending, h.claimed, h.unique,
    fun i e hi he hn => ?_, h.vacant, hok⟩
  rcases h.published i e hi he hn with hc | ⟨-, hc⟩
  · exact .inl hc
  · rw [hold] at hc
    cases hc

theorem clear (h : Inv s) {hd : UInt32} {w : UInt64} (hc : s.consumer = .clear hd w) :
    Inv { s with
      cells := Function.update s.cells (cellOf hd) 0
      consumer := .storeHead hd w } := by
  have hcons := h.consumer
  unfold ConsumerOk at hcons
  simp only [hc] at hcons
  obtain ⟨rfl, e, he, rfl, hw⟩ := hcons
  have hlt := (List.getElem?_eq_some_iff.1 he).1
  have hd : cellOf s.head = cellAt s.popped.length := by rw [h.head]; rfl
  have hcell : ∀ j, s.popped.length ≤ j → j < s.pushed.length → j ≠ s.popped.length →
      Function.update s.cells (cellOf s.head) 0 (cellAt j) = s.cells (cellAt j) := by
    intro j hj hj' hji
    rw [hd]
    exact Function.update_of_ne
      (fun he => hji (h.distinct j _ hj hj'.le le_rfl h.length_le he)) _ _
  -- the entry at the head is published, so no producer holds a claim on it
  have hfree : ∀ q e', (s.producer q).claim ≠ some (e', UInt32.ofNat s.popped.length) := by
    intro q e' hq
    obtain ⟨j, hj, hj', -, ht, hjc⟩ := h.claimed_lt hq
    obtain rfl := h.pos_inj le_rfl h.length_le hj hj'.le ht
    rw [hw] at hjc
    exact pack_ne_zero e hjc
  refine ⟨h.head, h.tail, h.fifo, h.window, h.distinct, h.commands, h.pending, ?_, h.unique, ?_, ?_,
    ?_⟩
  all_goals try dsimp only
  · intro q e' t hq
    obtain ⟨j, hj, hj', hje, rfl, hjc⟩ := h.claimed_lt hq
    refine ⟨j, hj, hje, rfl, ?_⟩
    rw [hcell j hj hj' fun hji => hfree q e' (hji ▸ hq)]
    exact hjc
  · intro j e' hj hje hn
    by_cases hji : j = s.popped.length
    · exact .inr ⟨hji, rfl⟩
    · left
      rw [hcell j hj (List.getElem?_eq_some_iff.1 hje).1 hji]
      rcases h.published j e' hj hje hn with h1 | ⟨h1, -⟩
      · exact h1
      · exact absurd h1 hji
  · intro x hx
    simp only [Function.update_apply]
    split_ifs
    · rfl
    · exact h.vacant x hx
  · refine ⟨rfl, ⟨e, he, rfl⟩, ?_, hfree⟩
    simp only [hd, Function.update_self]

/-- Moving the head past the cleared cell returns the oldest entry. -/
theorem advance (h : Inv s) {hd : UInt32} {w : UInt64} (hc : s.consumer = .storeHead hd w) :
    Inv { s with
      head := hd + 1
      popped := s.popped ++ [unpack w]
      consumer := .returned (some (unpack w)) } := by
  have hcons := h.consumer
  unfold ConsumerOk at hcons
  simp only [hc] at hcons
  obtain ⟨rfl, ⟨e, he, rfl⟩, hzero, hfree⟩ := hcons
  have hlt := (List.getElem?_eq_some_iff.1 he).1
  have hcmd : e.cmd.toNat < 2 ^ 31 := h.commands e (List.mem_of_getElem? he)
  rw [unpack_pack hcmd]
  refine ⟨?_, h.tail, ?_, ?_, ?_, h.commands, h.pending, ?_, h.unique, ?_, ?_, trivial⟩
  · simp only [h.head, List.length_append, List.length_singleton]
    exact (UInt32.ofNat_add s.popped.length 1).symm
  · obtain ⟨rest, hrest⟩ := h.fifo
    rw [← hrest] at he
    rw [List.getElem?_append_right le_rfl, Nat.sub_self] at he
    cases rest with
    | nil => cases he
    | cons a rest =>
      cases he
      exact ⟨rest, by rw [← hrest]; simp⟩
  · have := h.window
    simp only [List.length_append, List.length_singleton]
    omega
  · exact h.distinct.mono (by simp) le_rfl
  · intro q e' t hq
    obtain ⟨j, hj, hje, rfl, hjc⟩ := h.claimed q e' t hq
    refine ⟨j, ?_, hje, rfl, hjc⟩
    have : j ≠ s.popped.length := fun hji => hfree q e' (hji ▸ hq)
    simp only [List.length_append, List.length_singleton]
    omega
  · intro j e' hj hje hn
    simp only [List.length_append, List.length_singleton] at hj
    rcases h.published j e' (by omega) hje hn with h1 | ⟨h1, -⟩
    · exact .inl h1
    · omega
  · intro x hx
    by_cases hxh : cellAt s.popped.length = x
    · rw [← hxh]
      exact hzero
    · refine h.vacant x fun i hi hi' => ?_
      rcases hi.eq_or_lt with rfl | hi
      · exact hxh
      · exact hx i (by simpa using hi) hi'

variable [DecidableEq ι]

/-- A producer that neither holds nor takes a claim can move freely. -/
theorem setProducer (h : Inv s) {p : ι} {pc : Push} (hold : (s.producer p).claim = none)
    (hnew : pc.claim = none) (hcmd : ∀ e, pc.pending = some e → e.cmd.toNat < 2 ^ 31) :
    Inv (s.setProducer p pc) := by
  have hclaim : ∀ q, ((s.setProducer p pc).producer q).claim = (s.producer q).claim := by
    intro q
    by_cases hq : q = p
    · subst hq
      simp [State.setProducer, hold, hnew]
    · simp [State.setProducer, hq]
  refine ⟨h.head, h.tail, h.fifo, h.window, h.distinct, h.commands, ?_, ?_, ?_, ?_, h.vacant, ?_⟩
  · intro q e hq
    by_cases hqp : q = p
    · subst hqp
      simp only [State.setProducer, Function.update_self] at hq
      exact hcmd e hq
    · simp only [State.setProducer, Function.update_of_ne hqp] at hq
      exact h.pending q e hq
  · intro q e t hq
    rw [hclaim] at hq
    exact h.claimed q e t hq
  · intro q r e e' t hq hr
    rw [hclaim] at hq hr
    exact h.unique q r e e' t hq hr
  · intro i e hi he hn
    exact h.published i e hi he fun q e' => by rw [← hclaim]; exact hn q e'
  · have hc := h.consumer
    unfold ConsumerOk at hc ⊢
    simp only [State.setProducer] at hc hclaim ⊢
    cases hcons : s.consumer <;> simp only [hcons] at hc ⊢
    all_goals try exact hc
    refine ⟨hc.1, hc.2.1, hc.2.2.1, fun q e => ?_⟩
    rw [hclaim]
    exact hc.2.2.2 q e

/-- Claiming the next position: its cell is vacant, since it is not the cell of any outstanding
position. -/
theorem claim (h : Inv s) (hroom : Room s) {p : ι} {e : Entry}
    (hold : (s.producer p).claim = none) (hcmd : e.cmd.toNat < 2 ^ 31) :
    Inv { s with
      tail := s.tail + 1
      pushed := s.pushed ++ [e]
      producer := Function.update s.producer p (.store e s.tail) } := by
  have hle := h.length_le
  have hclaim : ∀ q e' t, (Function.update s.producer p (.store e s.tail) q).claim = some (e', t) →
      (q = p ∧ e' = e ∧ t = s.tail) ∨ (q ≠ p ∧ (s.producer q).claim = some (e', t)) := by
    intro q e' t hq
    by_cases hqp : q = p
    · subst hqp
      simp only [Function.update_self, Push.claim, Option.some.injEq, Prod.mk.injEq] at hq
      exact .inl ⟨rfl, hq.1.symm, hq.2.symm⟩
    · rw [Function.update_of_ne hqp] at hq
      exact .inr ⟨hqp, hq⟩
  have hvacant : s.cells (cellAt s.pushed.length) = 0 := by
    apply h.vacant
    intro i hi hi' he
    have := h.distinct i s.pushed.length hi hi'.le hle le_rfl he
    omega
  have hfresh : ∀ q e', (s.producer q).claim ≠ some (e', s.tail) := by
    intro q e' hq
    obtain ⟨i, hi, hi', -, ht, -⟩ := h.claimed_lt hq
    have := h.pos_inj hle le_rfl hi hi'.le (h.tail.symm.trans ht)
    omega
  refine ⟨h.head, ?_, h.fifo.trans (List.prefix_append _ _), ?_, ?_, ?_, ?_, ?_, ?_, ?_, ?_, ?_⟩
  all_goals try dsimp only
  · simp only [h.tail, List.length_append, List.length_singleton]
    exact (UInt32.ofNat_add s.pushed.length 1).symm
  · simp only [List.length_append, List.length_singleton]
    exact hroom.1
  · simp only [List.length_append, List.length_singleton]
    exact hroom.2
  · intro e' he'
    simp only [List.mem_append, List.mem_singleton] at he'
    rcases he' with he' | rfl
    · exact h.commands e' he'
    · exact hcmd
  · intro q e' hq
    by_cases hqp : q = p
    · subst hqp
      simp [Push.pending] at hq
    · simp only [Function.update_of_ne hqp] at hq
      exact h.pending q e' hq
  · intro q e' t hq
    rcases hclaim q e' t hq with ⟨rfl, rfl, rfl⟩ | ⟨-, hq⟩
    · exact ⟨s.pushed.length, hle, by simp, h.tail, hvacant⟩
    · obtain ⟨i, hi, hi', he, ht, hc⟩ := h.claimed_lt hq
      exact ⟨i, hi, by rw [List.getElem?_append_left hi']; exact he, ht, hc⟩
  · intro q r e₁ e₂ t hq hr
    rcases hclaim q e₁ t hq with ⟨hqp, -, ht⟩ | ⟨-, hq'⟩ <;>
      rcases hclaim r e₂ t hr with ⟨hrp, -, ht'⟩ | ⟨-, hr'⟩
    · rw [hqp, hrp]
    · exact absurd (ht ▸ hr') (hfresh r e₂)
    · exact absurd (ht' ▸ hq') (hfresh q e₁)
    · exact h.unique q r e₁ e₂ t hq' hr'
  · intro i e' hi he' hn
    by_cases hlt : i < s.pushed.length
    · rw [List.getElem?_append_left hlt] at he'
      refine h.published i e' hi he' fun q e'' hq => ?_
      by_cases hqp : q = p
      · subst hqp
        rw [hold] at hq
        cases hq
      · exact hn q e'' (by rw [Function.update_of_ne hqp]; exact hq)
    · -- the new position is claimed by `p` itself
      have hi2 : i = s.pushed.length := by
        have := (List.getElem?_eq_some_iff.1 he').1
        simp only [List.length_append, List.length_singleton] at this
        omega
      exact absurd (by simp [Push.claim, hi2, h.tail]) (hn p e)
  · intro x hx
    apply h.vacant
    intro i hi hi'
    exact hx i hi (by simp only [List.length_append, List.length_singleton]; omega)
  · have hc := h.consumer
    unfold ConsumerOk at hc ⊢
    cases hcons : s.consumer with
    | readTail l hd => simpa [hcons] using hc
    | readEntry l hd n =>
      simp only [hcons, List.length_append, List.length_singleton] at hc ⊢
      exact ⟨hc.1, by omega⟩
    | clear hd w =>
      simp only [hcons] at hc ⊢
      obtain ⟨h1, e', h2, h3⟩ := hc
      exact ⟨h1, e', by rw [List.getElem?_append_left (List.getElem?_eq_some_iff.1 h2).1]; exact h2,
        h3⟩
    | storeHead hd w =>
      simp only [hcons] at hc ⊢
      obtain ⟨h1, ⟨e', h2, h3⟩, h4, h5⟩ := hc
      have hlt := (List.getElem?_eq_some_iff.1 h2).1
      refine ⟨h1, ⟨e', by rw [List.getElem?_append_left hlt]; exact h2, h3⟩, h4, fun q e'' hq => ?_⟩
      rcases hclaim q e'' _ hq with ⟨rfl, rfl, ht⟩ | ⟨-, hq⟩
      · have := h.pos_inj le_rfl hle hle le_rfl (ht.trans h.tail)
        omega
      · exact h5 q e'' hq
    | idle | readHead | returned => trivial

theorem publish (h : Inv s) {p : ι} {e : Entry} {t : UInt32} (hp : s.producer p = .store e t) :
    Inv { s with
      cells := Function.update s.cells (cellOf t) (pack e)
      producer := Function.update s.producer p (.returned true) } := by
  have hpc : (s.producer p).claim = some (e, t) := by rw [hp]; rfl
  obtain ⟨i, hi, hi', he, rfl, hc⟩ := h.claimed_lt hpc
  have hclaim : ∀ q e' u, (Function.update s.producer p (.returned true) q).claim = some (e', u) →
      q ≠ p ∧ (s.producer q).claim = some (e', u) := by
    intro q e' u hq
    by_cases hqp : q = p
    · subst hqp
      simp [Push.claim] at hq
    · rw [Function.update_of_ne hqp] at hq
      exact ⟨hqp, hq⟩
  -- the cells of the other outstanding positions are untouched
  have hcell : ∀ j, s.popped.length ≤ j → j ≤ s.pushed.length → j ≠ i →
      Function.update s.cells (cellOf (UInt32.ofNat i)) (pack e) (cellAt j) = s.cells (cellAt j) := by
    intro j hj hj' hji
    exact Function.update_of_ne (fun he => hji (h.distinct j i hj hj' hi hi'.le he)) _ _
  refine ⟨h.head, h.tail, h.fifo, h.window, h.distinct, h.commands, ?_, ?_, ?_, ?_, ?_, ?_⟩
  all_goals try dsimp only
  · intro q e' hq
    by_cases hqp : q = p
    · subst hqp
      simp [Push.pending] at hq
    · simp only [Function.update_of_ne hqp] at hq
      exact h.pending q e' hq
  · intro q e' u hq
    obtain ⟨hqp, hq⟩ := hclaim q e' u hq
    obtain ⟨j, hj, hj', hje, rfl, hjc⟩ := h.claimed_lt hq
    refine ⟨j, hj, hje, rfl, ?_⟩
    rw [hcell j hj hj'.le fun hji => hqp (h.unique q p e' e _ (hji ▸ hq) hpc)]
    exact hjc
  · intro q r e₁ e₂ u hq hr
    exact h.unique q r e₁ e₂ u (hclaim q e₁ u hq).2 (hclaim r e₂ u hr).2
  · intro j e' hj hje hn
    by_cases hji : j = i
    · subst hji
      left
      rw [he] at hje
      cases hje
      exact Function.update_self _ _ _
    · rw [hcell j hj (List.getElem?_eq_some_iff.1 hje).1.le hji]
      refine h.published j e' hj hje fun q e'' hq => ?_
      by_cases hqp : q = p
      · subst hqp
        rw [hpc] at hq
        simp only [Option.some.injEq, Prod.mk.injEq] at hq
        exact hji (h.pos_inj hi hi'.le hj (List.getElem?_eq_some_iff.1 hje).1.le hq.2).symm
      · exact hn q e'' (by simp only [Function.update_of_ne hqp]; exact hq)
  · intro x hx
    have hxi : x ≠ cellOf (UInt32.ofNat i) := fun hxi => hx i hi hi' hxi.symm
    rw [Function.update_of_ne hxi]
    exact h.vacant x hx
  · have hcons := h.consumer
    unfold ConsumerOk at hcons ⊢
    cases hpc' : s.consumer with
    | readTail l hd => simpa only [hpc'] using hcons
    | readEntry l hd n => simpa only [hpc'] using hcons
    | clear hd w =>
      simp only [hpc'] at hcons ⊢
      obtain ⟨h1, e', h2, h3, h4⟩ := hcons
      refine ⟨h1, e', h2, h3, ?_⟩
      rw [hcell _ le_rfl h.length_le, h4]
      rintro rfl
      rw [hc, h3] at h4
      exact pack_ne_zero e' h4.symm
    | storeHead hd w =>
      simp only [hpc'] at hcons ⊢
      obtain ⟨h1, h2, h3, h4⟩ := hcons
      refine ⟨h1, h2, ?_, fun q e'' hq => h4 q e'' (hclaim q e'' _ hq).2⟩
      rw [hcell _ le_rfl h.length_le, h3]
      rintro rfl
      exact h4 p e hpc
    | idle | readHead | returned => trivial

end Inv

/-! ## Steps -/

variable {s t : State ι} {a : Action ι}

/-- The step is a successful claim of the tail. -/
def Claims (s : State ι) (a : Action ι) : Prop :=
  ∃ p l e spin, a = .push p ∧ s.producer p = .cas l e spin s.tail

/-- Commands leave the ready bit free. -/
def CommandOk : Action ι → Prop
  | .callPush _ _ e => e.cmd.toNat < 2 ^ 31
  | _ => True

theorem Push.Quiet.claim {pc : Push} (h : pc.Quiet = true) : pc.claim = none := by
  cases pc <;> simp_all [Push.Quiet, Push.claim]

theorem Pop.Quiet.cleared {pc : Pop} (h : pc.Quiet = true) : pc.cleared = false := by
  cases pc <;> simp_all [Pop.Quiet, Pop.cleared]

theorem inv_stepPop (h : Inv s) (hs : s.stepPop = some t) : Inv t := by
  have hcons := h.consumer
  unfold State.stepPop at hs
  unfold ConsumerOk at hcons
  cases hc : s.consumer with
  | idle | returned => simp [hc] at hs
  | readHead l =>
    simp only [hc, Option.some.injEq] at hs
    subst hs
    exact h.setConsumer (by rw [hc]; rfl) rfl
  | readTail l hd =>
    simp only [hc] at hs hcons
    subst hcons
    split_ifs at hs with he <;> simp only [Option.some.injEq] at hs <;> subst hs
    · exact h.setConsumer (by rw [hc]; rfl) trivial
    · refine h.setConsumer (by rw [hc]; rfl) ⟨rfl, ?_⟩
      refine lt_of_le_of_ne h.length_le fun hl => he ?_
      rw [h.head, h.tail]
      exact congrArg _ hl
  | readEntry l hd spin =>
    simp only [hc] at hs hcons
    obtain ⟨rfl, hlt⟩ := hcons
    split_ifs at hs with hr <;> simp only [Option.some.injEq] at hs <;> subst hs
    · -- a ready word is nonzero, so the head entry is published
      refine h.setConsumer (by rw [hc]; rfl) ⟨rfl, ?_⟩
      have he : s.pushed[s.popped.length]? = some s.pushed[s.popped.length] :=
        List.getElem?_eq_getElem hlt
      have hhd : cellOf s.head = cellAt s.popped.length := by rw [h.head]; rfl
      rw [hhd] at hr
      have hfree : ∀ q e', (s.producer q).claim ≠ some (e', UInt32.ofNat s.popped.length) := by
        intro q e' hq
        obtain ⟨j, hj, hj', -, ht, hjc⟩ := h.claimed_lt hq
        obtain rfl := h.pos_inj le_rfl h.length_le hj hj'.le ht
        rw [hjc, ready_zero] at hr
        cases hr
      rcases h.published _ _ le_rfl he hfree with hw | ⟨-, hcl⟩
      · exact ⟨_, he, by rw [hhd]; exact hw, by rw [hhd]; rfl⟩
      · rw [hc] at hcl
        cases hcl
    · exact h.setConsumer (by rw [hc]; rfl) trivial
    · exact h.setConsumer (by rw [hc]; rfl) ⟨rfl, hlt⟩
  | clear hd w =>
    simp only [hc, Option.some.injEq] at hs
    subst hs
    exact h.clear hc
  | storeHead hd w =>
    simp only [hc, Option.some.injEq] at hs
    subst hs
    exact h.advance hc

variable [DecidableEq ι]

theorem inv_stepPush (h : Inv s) {p : ι} (hroom : Claims s (.push p) → Room s)
    (hs : s.stepPush p = some t) : Inv t := by
  unfold State.stepPush at hs
  cases hp : s.producer p with
  | idle | returned => simp [hp] at hs
  | readHead l e spin =>
    simp only [hp, Option.some.injEq] at hs
    subst hs
    refine h.setProducer (by rw [hp]; rfl) rfl fun e' he' => ?_
    exact h.pending p e' (by rw [hp]; exact he')
  | readTail l e spin hd =>
    have hcmd : e.cmd.toNat < 2 ^ 31 := h.pending p e (by rw [hp]; rfl)
    simp only [hp] at hs
    split_ifs at hs <;> simp only [Option.some.injEq] at hs <;> subst hs <;>
      refine h.setProducer (by rw [hp]; rfl) rfl fun e' he' => ?_ <;>
      simp only [Push.pending, Option.some.injEq, reduceCtorEq] at he' <;> exact he' ▸ hcmd
  | cas l e spin tl =>
    have hcmd : e.cmd.toNat < 2 ^ 31 := h.pending p e (by rw [hp]; rfl)
    simp only [hp] at hs
    split_ifs at hs with htl <;> simp only [Option.some.injEq] at hs <;> subst hs
    · subst htl
      exact h.claim (hroom ⟨p, l, e, spin, rfl, hp⟩) (by rw [hp]; rfl) hcmd
    · refine h.setProducer (by rw [hp]; rfl) rfl fun e' he' => ?_
      simp only [Push.pending, Option.some.injEq] at he'
      exact he' ▸ hcmd
  | store e tl =>
    simp only [hp, Option.some.injEq] at hs
    subst hs
    exact h.publish hp

/-- Every step keeps the invariant, given room for the claims. -/
theorem inv_step (h : Inv s) (hcmd : CommandOk a) (hroom : Claims s a → Room s)
    (hs : (queue ι).step s a = some t) : Inv t := by
  cases a with
  | callPush p l e =>
    simp only [queue, step] at hs
    split_ifs at hs with hq
    simp only [Option.some.injEq] at hs
    subst hs
    refine h.setProducer (Push.Quiet.claim hq) rfl fun e' he' => ?_
    simp only [Push.pending, Option.some.injEq] at he'
    exact he' ▸ hcmd
  | push p => exact inv_stepPush h hroom hs
  | callPop l =>
    simp only [queue, step] at hs
    split_ifs at hs with hq
    simp only [Option.some.injEq] at hs
    subst hs
    exact h.setConsumer (Pop.Quiet.cleared hq) trivial
  | pop => exact inv_stepPop h hs

end Mmfg.Queue
