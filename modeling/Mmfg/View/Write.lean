import Mmfg.View.Range

/-!
# Writing through a view

`SetByteAt(i, b)` inside `View(offset, length)` stores a byte in a block of the stripe, at an address
that `View` and `findSegment` have computed; `ReadAt` computes its own.  They agree: after any calls
of `SetByteAt` the stripe reads as before, with the last byte written at each position in its place
(`view_writes_through`).
-/

namespace Mmfg.View.Viewer

open Search

variable {ι : Type} [DecidableEq ι]

/-- The memory after calls of `SetByteAt`, whose errors the callback ignores. -/
def setBytes (S : LowerBound) (v : Viewer ι) (mem : ι → UInt8) (writes : List (ℤ × UInt8)) :
    ι → UInt8 :=
  writes.foldl (fun mem w => (v.setByteAt S mem w.1 w.2).1) mem

end Mmfg.View.Viewer

namespace Mmfg.Shm

open File Search View

/-- The byte that was written last at position `i`. -/
def lastWritten (writes : List (ℤ × UInt8)) (i : ℤ) : Option UInt8 :=
  (writes.reverse.find? (·.1 = i)).map Prod.snd

/-- A file after writes at positions from `offset` on; those from `length` on were refused. -/
def rewritten (f : ℕ → UInt8) (offset length : ℤ) (writes : List (ℤ × UInt8)) : ℕ → UInt8 := fun p =>
  if offset ≤ p ∧ p < offset + length then (lastWritten writes (p - offset)).getD (f p) else f p

theorem lastWritten_cons (w : ℤ × UInt8) (writes : List (ℤ × UInt8)) (i : ℤ) (b : UInt8) :
    (lastWritten (w :: writes) i).getD b =
      (lastWritten writes i).getD (if w.1 = i then w.2 else b) := by
  rw [lastWritten, lastWritten, List.reverse_cons, List.find?_append]
  cases writes.reverse.find? (·.1 = i) with
  | some x => rfl
  | none => by_cases hw : w.1 = i <;> simp [hw]

/-! ## The cells of the stripe -/

section Place

variable {blocks : List BlockId} {p q : ℕ}

theorem place_fst_mem (h : p < blocks.length * BlockSize) : (place blocks p).1 ∈ blocks := by
  have hidx := List.getElem?_eq_getElem (div_lt_of_lt h)
  rw [place, cell, List.getD_eq_getElem?_getD, hidx, Option.getD_some]
  exact List.getElem_mem _

theorem place_inj (hnd : blocks.Nodup) (hp : p < blocks.length * BlockSize)
    (hq : q < blocks.length * BlockSize) (h : place blocks p = place blocks q) : p = q := by
  have hpi := div_lt_of_lt hp
  have hqi := div_lt_of_lt hq
  rw [place, place, cell, cell, Prod.mk.injEq, Fin.mk.injEq, List.getD_eq_getElem?_getD,
    List.getD_eq_getElem?_getD, List.getElem?_eq_getElem hpi, List.getElem?_eq_getElem hqi] at h
  obtain ⟨hblock, hmod⟩ := h
  have hdiv : p / BlockSize = q / BlockSize := (List.Nodup.getElem_inj_iff hnd).1 hblock
  rw [← Nat.div_add_mod p BlockSize, hdiv, hmod, Nat.div_add_mod]

end Place

/-! ## Runs of writes -/

section Writes

variable {S : LowerBound} {v : Viewer Cell} {blocks : List BlockId} {off n : ℕ} (hv : v.Wf)
  (hcells : v.segments.flatten = window (place blocks) off n)

include hv hcells

/-- One call stores its byte in one cell of the range, or nothing. -/
theorem setByteAt_cells (mem : Cell → UInt8) (w : ℤ × UInt8) :
    (v.setByteAt S mem w.1 w.2).1 =
      if 0 ≤ w.1 ∧ w.1 < n then Function.update mem (place blocks (off + w.1.toNat)) w.2 else mem := by
  have hlen : v.length = n := by rw [hv.length, hcells, length_window]
  by_cases hin : 0 ≤ w.1 ∧ w.1 < n
  · obtain ⟨c, hc, hset⟩ := exists_setByteAt hv S mem w.2 hin.1 (by omega)
    rw [hcells, getElem?_window, if_pos (by omega)] at hc
    rw [hset, if_pos hin, Option.some.inj hc]
  · rw [setByteAt_of_out S (by rwa [hlen]), if_neg hin]

theorem setBytes_of_ne (mem : Cell → UInt8) (writes : List (ℤ × UInt8)) {c : Cell}
    (hc : ∀ i < n, c ≠ place blocks (off + i)) : v.setBytes S mem writes c = mem c := by
  induction writes generalizing mem with
  | nil => rfl
  | cons w writes ih =>
    refine (ih (v.setByteAt S mem w.1 w.2).1).trans ?_
    rw [setByteAt_cells hv hcells]
    split_ifs with hin
    · exact Function.update_of_ne (hc _ (by omega)) _ _
    · rfl

/-- A cell of the range has the byte that was written last at its position. -/
theorem setBytes_place (hnd : blocks.Nodup) (hend : off + n ≤ blocks.length * BlockSize)
    (mem : Cell → UInt8) (writes : List (ℤ × UInt8)) {i : ℕ} (hi : i < n) :
    v.setBytes S mem writes (place blocks (off + i)) =
      (lastWritten writes i).getD (mem (place blocks (off + i))) := by
  induction writes generalizing mem with
  | nil => rfl
  | cons w writes ih =>
    refine (ih (v.setByteAt S mem w.1 w.2).1).trans ?_
    rw [lastWritten_cons, setByteAt_cells hv hcells]
    refine congrArg _ ?_
    by_cases hw : w.1 = i
    · rw [if_pos hw, if_pos (by omega), show w.1.toNat = i by omega, Function.update_self]
    · rw [if_neg hw]
      split_ifs with hin
      · refine Function.update_of_ne (fun h => hw ?_) _ _
        have := place_inj hnd (by omega) (by omega) h
        omega
      · rfl

theorem flat_setBytes (hnd : blocks.Nodup) (hend : off + n ≤ blocks.length * BlockSize)
    (mem : Memory) (writes : List (ℤ × UInt8)) {p : ℕ} (hp : p < blocks.length * BlockSize) :
    flat (Function.curry (v.setBytes S (Function.uncurry mem) writes)) blocks p =
      rewritten (flat mem blocks) off n writes p := by
  rw [flat_eq_place hp, Function.uncurry_curry, rewritten]
  split_ifs with hin
  · obtain ⟨i, rfl⟩ := Nat.exists_eq_add_of_le (show off ≤ p by omega)
    rw [setBytes_place hv hcells hnd hend _ _ (by omega), flat_eq_place hp,
      show ((off + i : ℕ) : ℤ) - off = i by omega]
  · rw [flat_eq_place hp]
    refine setBytes_of_ne hv hcells _ _ fun i hi h => ?_
    have := place_inj hnd hp (by omega) h
    omega

end Writes

/-- After any calls of `SetByteAt` in a view, `ReadAt` over the whole stripe returns the old data with
the last byte written at each position of the view, and everything else is as before: the header
block, the data beside the view, and every cell that is not in it. -/
theorem view_writes_through (S : LowerBound) (s : Stripe) (mem : Memory)
    (hcap : s.dataLen.toNat ≤ s.capacity) (hnd : s.blocks.Nodup) (offset length : ℤ)
    (h0 : 0 ≤ offset) (hpos : 0 < length) (hend : offset + length ≤ s.dataLen.toNat)
    (writes : List (ℤ × UInt8)) :
    ∃ v, s.viewer offset length = .ok v ∧
      let after := Function.curry (v.setBytes S (Function.uncurry mem) writes)
      s.readAt after s.dataLen.toNat 0 =
        (window (rewritten (s.content mem) offset length writes) 0 s.dataLen.toNat, none) ∧
      after s.header = mem s.header ∧ decodeHeader (after s.header) = decodeHeader (mem s.header) ∧
      (∀ p < s.capacity, ¬ (offset ≤ p ∧ p < offset + length) →
        s.content after p = s.content mem p) ∧
      ∀ c : Cell, (∀ p : ℕ, offset ≤ p → p < offset + length → c ≠ place s.blocks.tail p) →
        after c.1 c.2 = mem c.1 c.2 := by
  have hsize : s.dataLen.toNat < 2 ^ 32 := s.dataLen.toNat_lt
  have hview : (s.viewEnd offset length : ℤ) = offset + length := by
    rw [viewEnd_eq]
    omega
  have hafter : offset < (s.viewEnd offset length : ℤ) := by omega
  obtain ⟨v, hv, hwf, -, hcells⟩ := viewer_eq h0 (by omega) hcap hafter
  rw [show s.viewEnd offset length - offset.toNat = length.toNat by omega] at hcells
  have htail : s.blocks.tail.Nodup := hnd.sublist (List.tail_sublist _)
  have hfits : offset.toNat + length.toNat ≤ s.blocks.tail.length * BlockSize := by
    unfold Stripe.capacity at hcap
    omega
  have hne : s.blocks ≠ [] := by
    intro hnil
    rw [Stripe.capacity, hnil, List.tail_nil, List.length_nil, Nat.zero_mul] at hcap
    omega
  have hcontent : ∀ p < s.capacity,
      s.content (Function.curry (v.setBytes S (Function.uncurry mem) writes)) p =
        rewritten (s.content mem) offset length writes p := by
    intro p hp
    have := flat_setBytes hwf hcells htail hfits mem writes hp (S := S)
    rwa [Int.toNat_of_nonneg h0, Int.toNat_of_nonneg hpos.le] at this
  have hother : ∀ c : Cell, (∀ p : ℕ, offset ≤ p → p < offset + length → c ≠ place s.blocks.tail p) →
      v.setBytes S (Function.uncurry mem) writes c = Function.uncurry mem c := fun c hc =>
    setBytes_of_ne hwf hcells _ _ fun i hi => hc _ (by omega) (by omega)
  have hheader : Function.curry (v.setBytes S (Function.uncurry mem) writes) s.header =
      mem s.header := by
    funext i
    refine hother (s.header, i) fun p hp hlt h => ?_
    have hmem : (place s.blocks.tail p).1 ∈ s.blocks.tail := place_fst_mem (by omega)
    rw [← h] at hmem
    exact s.header_notMem_tail hne hnd hmem
  refine ⟨v, hv, ?_, hheader, congrArg decodeHeader hheader, fun p hp hout => ?_, hother⟩
  · rw [Stripe.readAt_eq hcap le_rfl (by omega), Int.toNat_zero, Nat.sub_zero, min_self]
    refine congrArg (·, none) (window_congr fun p _ hp => hcontent p (by omega))
  · rw [hcontent p hp, rewritten, if_neg hout]

/-- A byte is written twice and the position behind the view once: the last of the two is read. -/
theorem view_writes_through_twice : ∃ v, tenBytes.viewer 2 3 = .ok v ∧
    tenBytes.readAt (Function.curry (v.setBytes linear (Function.uncurry fun _ _ => 0)
      [(1, 7), (1, 8), (3, 9)])) 10 0 = ([0, 0, 0, 8, 0, 0, 0, 0, 0, 0], none) := by
  obtain ⟨v, hv, hread, -⟩ := view_writes_through linear tenBytes (fun _ _ => 0) (by decide +kernel)
    (by decide) 2 3 (by decide) (by decide) (by decide +kernel) [(1, 7), (1, 8), (3, 9)]
  have hexpected : window (rewritten (tenBytes.content fun _ _ => 0) 2 3
      [(1, 7), (1, 8), (3, 9)]) 0 tenBytes.dataLen.toNat = [0, 0, 0, 8, 0, 0, 0, 0, 0, 0] := by
    decide +kernel
  rw [hexpected] at hread
  exact ⟨v, hv, hread⟩

end Mmfg.Shm
