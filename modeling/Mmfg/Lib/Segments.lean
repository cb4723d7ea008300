import Mathlib.Tactic

/-!
# Lists in segments

A list that is kept in segments, together with the positions at which the segments start.  A
position of the whole list lies in the last segment that starts at or before it (`getElem?_of_last`),
whatever search has found that segment.
-/

namespace Segments

variable {α : Type} {segs : List (List α)} {seg : List α} {i k n p : ℕ}

/-- The positions at which the segments start, the first one at `n`. -/
def starts (n : ℕ) : List (List α) → List ℕ
  | [] => []
  | seg :: segs => n :: starts (n + seg.length) segs

@[simp] theorem length_starts : (starts n segs).length = segs.length := by
  induction segs generalizing n with
  | nil => rfl
  | cons seg segs ih => rw [starts, List.length_cons, ih, List.length_cons]

theorem getElem?_starts (h : i < segs.length) :
    (starts n segs)[i]? = some (n + (segs.take i).flatten.length) := by
  induction segs generalizing n i with
  | nil => cases h
  | cons seg segs ih =>
    cases i with
    | zero => rfl
    | succ i =>
      rw [starts, List.getElem?_cons_succ, ih (Nat.lt_of_succ_lt_succ h), List.take_succ_cons,
        List.flatten_cons, List.length_append, Nat.add_assoc]

theorem getElem?_starts_iff {x : ℕ} : (starts 0 segs)[i]? = some x ↔
    i < segs.length ∧ x = (segs.take i).flatten.length := by
  constructor
  · intro h
    have hi : i < segs.length := by
      have := (List.getElem?_eq_some_iff.1 h).1
      rwa [length_starts] at this
    rw [getElem?_starts hi, Nat.zero_add] at h
    exact ⟨hi, (Option.some.inj h).symm⟩
  · rintro ⟨hi, rfl⟩
    rw [getElem?_starts hi, Nat.zero_add]

theorem length_flatten_take_succ (h : segs[i]? = some seg) :
    (segs.take (i + 1)).flatten.length = (segs.take i).flatten.length + seg.length := by
  rw [List.take_add_one, h, Option.toList_some, List.flatten_append, List.length_append,
    List.flatten_singleton]

theorem length_flatten_take_le (h : i ≤ k) :
    (segs.take i).flatten.length ≤ (segs.take k).flatten.length := by
  obtain ⟨d, rfl⟩ := Nat.exists_eq_add_of_le h
  rw [List.take_add, List.flatten_append, List.length_append]
  exact Nat.le_add_right _ _

theorem length_flatten_take_le_length : (segs.take i).flatten.length ≤ segs.flatten.length := by
  have h : segs.flatten = (segs.take i).flatten ++ (segs.drop i).flatten := by
    rw [← List.flatten_append, List.take_append_drop]
  rw [h, List.length_append]
  exact Nat.le_add_right _ _

theorem pairwise_starts : (starts 0 segs).Pairwise (· ≤ ·) := by
  rw [List.pairwise_iff_getElem]
  intro i j hi hj hij
  obtain ⟨-, hx⟩ := getElem?_starts_iff.1 (List.getElem?_eq_getElem hi)
  obtain ⟨-, hy⟩ := getElem?_starts_iff.1 (List.getElem?_eq_getElem hj)
  rw [hx, hy]
  exact length_flatten_take_le hij.le

theorem flatten_eq (h : segs[i]? = some seg) :
    segs.flatten = (segs.take i).flatten ++ (seg ++ (segs.drop (i + 1)).flatten) := by
  obtain ⟨hi, hseg⟩ := List.getElem?_eq_some_iff.1 h
  have hdrop : segs.drop i = seg :: segs.drop (i + 1) := by
    rw [List.drop_eq_getElem_cons hi, hseg]
  rw [← List.flatten_cons, ← hdrop, ← List.flatten_append, List.take_append_drop]

/-- What follows position `k` of segment `i`. -/
theorem drop_flatten (h : segs[i]? = some seg) (hk : k ≤ seg.length) :
    segs.flatten.drop ((segs.take i).flatten.length + k) =
      seg.drop k ++ (segs.drop (i + 1)).flatten := by
  rw [flatten_eq h, ← List.drop_drop, List.drop_left, List.drop_append_of_le_length hk]

theorem getElem?_flatten (h : segs[i]? = some seg) (hk : k < seg.length) :
    segs.flatten[(segs.take i).flatten.length + k]? = seg[k]? := by
  rw [flatten_eq h, List.getElem?_append_right (Nat.le_add_right _ _), Nat.add_sub_cancel_left,
    List.getElem?_append_left hk]

/-- Position `p` lies in a segment that starts at or before it, if the next one starts behind it. -/
theorem getElem?_of_last (hi : i < segs.length) (hle : (segs.take i).flatten.length ≤ p)
    (hnext : p < (segs.take (i + 1)).flatten.length) :
    (segs[i]?.bind (·[p - (segs.take i).flatten.length]?)) = segs.flatten[p]? := by
  have hseg := List.getElem?_eq_getElem hi
  have hlen := length_flatten_take_succ hseg
  obtain ⟨k, rfl⟩ := Nat.exists_eq_add_of_le hle
  rw [getElem?_flatten hseg (by omega), hseg, Nat.add_sub_cancel_left]
  rfl

/-- Behind a start that is passed by less than the next one, or by less than the whole list. -/
theorem lt_next (hp : p < segs.flatten.length)
    (hnext : ∀ x, (starts 0 segs)[i + 1]? = some x → p < x) :
    p < (segs.take (i + 1)).flatten.length := by
  by_cases hi : i + 1 < segs.length
  · exact hnext _ (getElem?_starts_iff.2 ⟨hi, rfl⟩)
  · rwa [List.take_of_length_le (by omega)]

end Segments
