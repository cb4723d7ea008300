import Mathlib.Tactic

/-!
# Searching

Two search functions for sorted lists, as far as their documentation determines them, and the first
position of a range that has a property.  A range is searched piece by piece: what is first in a
piece after one without any is first in both (`First.append`).  A ring is searched by going around
it once (`exists_visit`).
-/

namespace Search

/-! ## Sorted lists -/

/-- A function that finds the earliest position in a sorted list whose entry is not below `x`. -/
structure LowerBound where
  pos : List ℕ → ℕ → ℕ
  pos_le : ∀ {l : List ℕ} {x : ℕ}, l.Pairwise (· ≤ ·) → pos l x ≤ l.length
  below : ∀ {l : List ℕ} {x j y : ℕ}, l.Pairwise (· ≤ ·) → j < pos l x → l[j]? = some y → y < x
  above : ∀ {l : List ℕ} {x j y : ℕ}, l.Pairwise (· ≤ ·) → pos l x ≤ j → l[j]? = some y → x ≤ y

/-- A function that finds a position of `x` in a sorted list, or else the position at which it can be
inserted. -/
structure BinarySearch where
  search : List ℕ → ℕ → Except ℕ ℕ
  found : ∀ {l : List ℕ} {x i : ℕ}, l.Pairwise (· ≤ ·) → search l x = .ok i → l[i]? = some x
  below : ∀ {l : List ℕ} {x i j y : ℕ}, l.Pairwise (· ≤ ·) → search l x = .error i → j < i →
    l[j]? = some y → y < x
  above : ∀ {l : List ℕ} {x i j y : ℕ}, l.Pairwise (· ≤ ·) → search l x = .error i → i ≤ j →
    l[j]? = some y → x < y
  insert_le : ∀ {l : List ℕ} {x i : ℕ}, l.Pairwise (· ≤ ·) → search l x = .error i → i ≤ l.length

theorem getElem_le_of_pairwise {l : List ℕ} {i j x y : ℕ} (hs : l.Pairwise (· ≤ ·)) (hij : i ≤ j)
    (hi : l[i]? = some x) (hj : l[j]? = some y) : x ≤ y := by
  obtain ⟨hilt, rfl⟩ := List.getElem?_eq_some_iff.1 hi
  obtain ⟨hjlt, rfl⟩ := List.getElem?_eq_some_iff.1 hj
  rcases hij.eq_or_lt with rfl | hlt
  · exact le_rfl
  · exact List.pairwise_iff_getElem.1 hs i j hilt hjlt hlt

/-- The search from the front. -/
def linear : LowerBound where
  pos l x := l.findIdx (x ≤ ·)
  pos_le _ := List.findIdx_le_length
  below {l x j y} _ hj hy := by
    obtain ⟨hlt, rfl⟩ := List.getElem?_eq_some_iff.1 hy
    have := List.not_of_lt_findIdx hj
    simpa using this
  above {l x j y} hs hj hy := by
    have hlt : l.findIdx (x ≤ ·) < l.length :=
      lt_of_le_of_lt hj (List.getElem?_eq_some_iff.1 hy).1
    have hx : x ≤ l[l.findIdx (x ≤ ·)] := by
      simpa using List.findIdx_getElem (w := hlt)
    exact hx.trans (getElem_le_of_pairwise hs hj (List.getElem?_eq_getElem hlt) hy)

/-- Any search for the lower bound tells whether it has found its entry. -/
def LowerBound.toBinarySearch (S : LowerBound) : BinarySearch where
  search l x := if l[S.pos l x]? = some x then .ok (S.pos l x) else .error (S.pos l x)
  found {l x i} _ h := by
    split_ifs at h with hx
    obtain rfl := Except.ok.inj h
    exact hx
  below {l x i j y} hs h hj hy := by
    split_ifs at h
    obtain rfl := Except.error.inj h
    exact S.below hs hj hy
  above {l x i j y} hs h hj hy := by
    split_ifs at h with hx
    obtain rfl := Except.error.inj h
    have hlen : S.pos l x < l.length := lt_of_le_of_lt hj (List.getElem?_eq_some_iff.1 hy).1
    have hpos := List.getElem?_eq_getElem hlen
    have hle := S.above hs le_rfl hpos
    have hne : l[S.pos l x] ≠ x := fun he => hx (hpos.trans (congrArg some he))
    have := getElem_le_of_pairwise hs hj hpos hy
    omega
  insert_le {l x i} hs h := by
    split_ifs at h
    obtain rfl := Except.error.inj h
    exact S.pos_le hs

/-! ## The first position of a range -/

variable {P Q : ℕ → Prop} {lo mid hi : ℕ} {r : Option ℕ}

/-- `r` is the first position from `lo` on and below `hi` that has the property, if there is one. -/
def First (P : ℕ → Prop) (lo hi : ℕ) : Option ℕ → Prop
  | some p => lo ≤ p ∧ p < hi ∧ P p ∧ ∀ q, lo ≤ q → q < p → ¬ P q
  | none => ∀ q, lo ≤ q → q < hi → ¬ P q

theorem First.append (h : First P lo mid none) (hr : First P mid hi r) (hle : lo ≤ mid) :
    First P lo hi r := by
  have hbefore : ∀ q, lo ≤ q → (mid ≤ q → ¬ P q) → ¬ P q := fun q hq hmid => by
    by_cases hlt : q < mid
    · exact h q hq hlt
    · exact hmid (Nat.le_of_not_lt hlt)
  cases r with
  | none => exact fun q hlo hhi => hbefore q hlo fun hmid => hr q hmid hhi
  | some p =>
    obtain ⟨hmid, hhi, hp, hfirst⟩ := hr
    exact ⟨hle.trans hmid, hhi, hp, fun q hlo hqp => hbefore q hlo fun hq => hfirst q hq hqp⟩

theorem First.extend {p : ℕ} (h : First P lo mid (some p)) (hle : mid ≤ hi) :
    First P lo hi (some p) :=
  ⟨h.1, h.2.1.trans_le hle, h.2.2⟩

/-- If nothing behind the range has the property, the first position in it is the least of all. -/
theorem First.least (h : First P 0 hi r) (hout : ∀ q, hi ≤ q → ¬ P q) :
    (∀ p, r = some p ↔ P p ∧ ∀ q, q < p → ¬ P q) ∧ (r = none ↔ ∀ p, ¬ P p) := by
  cases r with
  | none =>
    have hno : ∀ p, ¬ P p := fun p => (Nat.lt_or_ge p hi).elim (h p (Nat.zero_le p)) (hout p)
    exact ⟨fun p => ⟨nofun, fun hp => absurd hp.1 (hno p)⟩, fun _ => hno, fun _ => rfl⟩
  | some p =>
    obtain ⟨-, -, hp, hfirst⟩ := h
    refine ⟨fun q => ⟨?_, fun hq => ?_⟩, nofun, fun hno => absurd hp (hno p)⟩
    · rintro ⟨⟩
      exact ⟨hp, fun q => hfirst q (Nat.zero_le q)⟩
    · obtain ⟨hq, hleast⟩ := hq
      rcases Nat.lt_trichotomy p q with hlt | rfl | hgt
      · exact absurd hp (hleast p hlt)
      · rfl
      · exact absurd hq (hfirst q (Nat.zero_le q) hgt)

theorem First.shift {d : ℕ} (h : First Q lo hi r) (hPQ : ∀ q, q < hi → (P (d + q) ↔ Q q)) :
    First P (d + lo) (d + hi) (r.map (d + ·)) := by
  have hback : ∀ q, d + lo ≤ q → q < d + hi → ∃ k, q = d + k ∧ lo ≤ k ∧ k < hi := by
    intro q h1 h2
    exact ⟨q - d, by omega, by omega, by omega⟩
  cases r with
  | none =>
    intro q h1 h2
    obtain ⟨k, rfl, hlo, hhi⟩ := hback q h1 h2
    rw [hPQ k hhi]
    exact h k hlo hhi
  | some p =>
    obtain ⟨hlo, hhi, hp, hfirst⟩ := h
    change d + lo ≤ d + p ∧ d + p < d + hi ∧ P (d + p) ∧ ∀ q, d + lo ≤ q → q < d + p → ¬ P q
    refine ⟨by omega, by omega, (hPQ p hhi).2 hp, fun q h1 h2 => ?_⟩
    obtain ⟨k, rfl, hlok, hkhi⟩ := hback q h1 (by omega)
    rw [hPQ k hkhi]
    exact hfirst k hlok (by omega)

/-! ## Rings -/

/-- Going around a ring of `n` places once, from anywhere, visits each of them. -/
theorem exists_visit {n w : ℕ} (start : ℕ) (hw : w < n) : ∃ j < n, (start + j) % n = w := by
  have hr : start % n < n := Nat.mod_lt _ (by omega)
  rcases le_or_gt (start % n) w with hle | hgt
  · refine ⟨w - start % n, by omega, ?_⟩
    rw [← Nat.mod_add_mod, Nat.add_sub_cancel' hle, Nat.mod_eq_of_lt hw]
  · refine ⟨w + n - start % n, by omega, ?_⟩
    rw [← Nat.mod_add_mod, Nat.add_sub_cancel' (by omega), Nat.add_mod_right, Nat.mod_eq_of_lt hw]

end Search
