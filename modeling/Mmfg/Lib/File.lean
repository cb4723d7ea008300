import Mathlib.Tactic

/-!
# Files: windows and overlays

A file is a function from offsets to values, of which a window is looked at and on which data is
laid.  `window_add` and `overlay_append` split both at an offset, which is what a copy that proceeds
piece by piece does; `window_overlay` says what is read after a write.
-/

namespace File

variable {β : Type} {f g : ℕ → β} {off m n i : ℕ} {data more : List β}

/-- The `n` values from `off` on. -/
def window (f : ℕ → β) (off n : ℕ) : List β := (List.range n).map fun i => f (off + i)

/-- The file after `data` was written at `off`. -/
def overlay (f : ℕ → β) (off : ℕ) (data : List β) : ℕ → β := fun i =>
  if off ≤ i then (data[i - off]?).getD (f i) else f i

@[simp] theorem length_window : (window f off n).length = n := by simp [window]

@[simp] theorem window_zero : window f off 0 = [] := rfl

theorem getElem?_window : (window f off n)[i]? = if i < n then some (f (off + i)) else none := by
  unfold window
  rw [List.getElem?_map]
  split_ifs with h
  · rw [List.getElem?_range h]
    rfl
  · rw [List.getElem?_eq_none (by simpa using h)]
    rfl

theorem mem_window {x : β} (h : x ∈ window f off n) : ∃ i, off ≤ i ∧ i < off + n ∧ f i = x := by
  obtain ⟨i, hi, rfl⟩ := List.mem_map.1 h
  have := List.mem_range.1 hi
  exact ⟨off + i, by omega, by omega, rfl⟩

/-- A window is read in two pieces. -/
theorem window_add : window f off (m + n) = window f off m ++ window f (off + m) n := by
  simp only [window, List.range_add, List.map_append, List.map_map]
  refine congrArg _ (List.map_congr_left fun i _ => ?_)
  simp only [Function.comp_apply, Nat.add_assoc]

theorem window_congr (h : ∀ i, off ≤ i → i < off + n → f i = g i) :
    window f off n = window g off n := by
  refine List.map_congr_left fun i hi => h _ (by omega) ?_
  have := List.mem_range.1 hi
  omega

@[simp] theorem overlay_nil : overlay f off [] = f := by
  funext i
  simp [overlay]

theorem overlay_of_lt (h : i < off) : overlay f off data i = f i := if_neg (by omega)

theorem overlay_of_le (h : off + data.length ≤ i) : overlay f off data i = f i := by
  rw [overlay, if_pos (by omega), List.getElem?_eq_none (by omega), Option.getD_none]

theorem overlay_mem (h₁ : off ≤ i) (h₂ : i < off + data.length) :
    some (overlay f off data i) = data[i - off]? := by
  rw [overlay, if_pos h₁, List.getElem?_eq_getElem (by omega), Option.getD_some]

theorem overlay_eq_or : overlay f off data i = f i ∨ overlay f off data i ∈ data := by
  by_cases h₁ : off ≤ i
  · by_cases h₂ : i < off + data.length
    · exact .inr (List.mem_of_getElem? (overlay_mem h₁ h₂).symm)
    · exact .inl (overlay_of_le (by omega))
  · exact .inl (overlay_of_lt (by omega))

/-- Data is written in two pieces. -/
theorem overlay_append :
    overlay f off (data ++ more) = overlay (overlay f off data) (off + data.length) more := by
  funext i
  by_cases h₁ : i < off
  · rw [overlay_of_lt h₁, overlay_of_lt (by omega), overlay_of_lt h₁]
  · by_cases h₂ : i < off + data.length
    · rw [overlay_of_lt h₂, overlay, overlay, if_pos (by omega), if_pos (by omega),
        List.getElem?_append_left (by omega)]
    · have hidx : i - off - data.length = i - (off + data.length) := by omega
      rw [overlay, overlay, if_pos (by omega), if_pos (by omega),
        List.getElem?_append_right (by omega), overlay_of_le (by omega), hidx]

/-- A window that the data covers shows the data. -/
theorem window_overlay : window (overlay f off data) off data.length = data := by
  refine List.ext_getElem? fun i => ?_
  rw [getElem?_window]
  split_ifs with h
  · rw [overlay_mem (by omega) (by omega), Nat.add_sub_cancel_left]
  · exact (List.getElem?_eq_none (by omega)).symm

end File
