import Mathlib.Data.List.Nodup
import Mathlib.Data.List.Perm.Basic
import Mathlib.Tactic

/-!
# Pools of items with exclusive holders

A pool hands items to holders.  `Exact own used` says that the used items are exactly those that
some holder has, that no item has two holders and that no holder has an item twice.  Taking unused
items, releasing an item and moving items between holders keep it.
-/

namespace Pool

variable {ι α : Type}

/-- The used items are exactly the held ones, each held once. -/
structure Exact (own : ι → List α) (used : α → Prop) : Prop where
  nodup : ∀ i, (own i).Nodup
  disjoint : ∀ i j a, a ∈ own i → a ∈ own j → i = j
  used_iff : ∀ a, used a ↔ ∃ i, a ∈ own i

variable {own own' : ι → List α} {used used' : α → Prop} {i j : ι} {a : α}

theorem exact_empty : Exact (fun _ : ι => ([] : List α)) fun _ => False := by
  constructor <;> simp

/-- Reordering what each holder has changes nothing. -/
theorem Exact.perm (h : Exact own used) (hp : ∀ i, (own' i).Perm (own i)) : Exact own' used where
  nodup i := (hp i).nodup_iff.2 (h.nodup i)
  disjoint i j a hi hj := h.disjoint i j a ((hp i).mem_iff.1 hi) ((hp j).mem_iff.1 hj)
  used_iff a := by
    rw [h.used_iff]
    exact exists_congr fun i => (hp i).mem_iff.symm

theorem Exact.congr_used (h : Exact own used) (hu : ∀ a, used' a ↔ used a) : Exact own used' :=
  ⟨h.nodup, h.disjoint, fun a => (hu a).trans (h.used_iff a)⟩

theorem Exact.take {new : List α} (h : Exact own used) (hnd : new.Nodup)
    (hnew : ∀ a ∈ new, ¬ used a) (hi : (own' i).Perm (own i ++ new))
    (hj : ∀ j, j ≠ i → (own' j).Perm (own j)) (hu : ∀ a, used' a ↔ used a ∨ a ∈ new) :
    Exact own' used' := by
  have hfree : ∀ j, ∀ a ∈ new, a ∉ own j := fun j a ha hm =>
    hnew a ha ((h.used_iff a).2 ⟨j, hm⟩)
  have hmem : ∀ j a, a ∈ own' j ↔ a ∈ own j ∨ (j = i ∧ a ∈ new) := by
    intro j a
    by_cases hji : j = i
    · subst hji
      rw [hi.mem_iff, List.mem_append]
      simp
    · rw [(hj j hji).mem_iff]
      simp [hji]
  refine ⟨fun j => ?_, fun j k a hja hka => ?_, fun a => ?_⟩
  · by_cases hji : j = i
    · subst hji
      rw [hi.nodup_iff, List.nodup_append]
      refine ⟨h.nodup j, hnd, ?_⟩
      rintro a ha b hb rfl
      exact hfree j a hb ha
    · rw [(hj j hji).nodup_iff]
      exact h.nodup j
  · rw [hmem] at hja hka
    rcases hja with hja | ⟨rfl, hja⟩ <;> rcases hka with hka | ⟨rfl, hka⟩
    · exact h.disjoint j k a hja hka
    · exact absurd hja (hfree j a hka)
    · exact absurd hka (hfree k a hja)
    · rfl
  · rw [hu, h.used_iff]
    constructor
    · rintro (⟨j, hja⟩ | ha)
      · exact ⟨j, (hmem j a).2 (.inl hja)⟩
      · exact ⟨i, (hmem i a).2 (.inr ⟨rfl, ha⟩)⟩
    · rintro ⟨j, hja⟩
      rcases (hmem j a).1 hja with hja | ⟨-, ha⟩
      · exact .inl ⟨j, hja⟩
      · exact .inr ha

theorem Exact.release (h : Exact own used) (hi : (own i).Perm (a :: own' i))
    (hj : ∀ j, j ≠ i → (own' j).Perm (own j)) (hu : ∀ b, used' b ↔ used b ∧ b ≠ a) :
    Exact own' used' := by
  have hnd : (a :: own' i).Nodup := hi.nodup_iff.1 (h.nodup i)
  have hai : a ∈ own i := hi.mem_iff.2 (by simp)
  have hmem : ∀ j b, b ∈ own' j ↔ b ∈ own j ∧ b ≠ a := by
    intro j b
    by_cases hji : j = i
    · subst hji
      rw [hi.mem_iff, List.mem_cons]
      constructor
      · intro hb
        refine ⟨.inr hb, ?_⟩
        rintro rfl
        exact (List.nodup_cons.1 hnd).1 hb
      · rintro ⟨rfl | hb, hne⟩
        · exact absurd rfl hne
        · exact hb
    · rw [(hj j hji).mem_iff]
      constructor
      · intro hb
        refine ⟨hb, ?_⟩
        rintro rfl
        exact hji (h.disjoint j i b hb hai)
      · exact And.left
  refine ⟨fun j => ?_, fun j k b hjb hkb => ?_, fun b => ?_⟩
  · by_cases hji : j = i
    · subst hji
      exact (List.nodup_cons.1 hnd).2
    · exact (hj j hji).nodup_iff.2 (h.nodup j)
  · exact h.disjoint j k b ((hmem j b).1 hjb).1 ((hmem k b).1 hkb).1
  · rw [hu, h.used_iff]
    constructor
    · rintro ⟨⟨j, hb⟩, hne⟩
      exact ⟨j, (hmem j b).2 ⟨hb, hne⟩⟩
    · rintro ⟨j, hb⟩
      obtain ⟨hb, hne⟩ := (hmem j b).1 hb
      exact ⟨⟨j, hb⟩, hne⟩

theorem Exact.pass (h : Exact own used) (hne : i ≠ j) (hi : (own i).Perm (a :: own' i))
    (hj : (own' j).Perm (own j ++ [a])) (hk : ∀ k, k ≠ i → k ≠ j → (own' k).Perm (own k)) :
    Exact own' used := by
  classical
  have hai : a ∈ own i := hi.mem_iff.2 (by simp)
  -- release by `i`, then take by `j`
  have hrel : Exact (Function.update own i (own' i)) fun b => used b ∧ b ≠ a :=
    h.release (i := i) (by simpa using hi) (fun k hki => by simp [hki]) fun b => Iff.rfl
  refine hrel.take (i := j) (List.nodup_singleton a) (by simp) (by simpa [hne.symm] using hj) ?_ ?_
  · intro k hkj
    by_cases hki : k = i
    · subst hki
      simp
    · simpa [hki] using hk k hki hkj
  · intro b
    by_cases hb : b = a
    · subst hb
      simp [(h.used_iff b).2 ⟨i, hai⟩]
    · simp [hb]

end Pool
