import Mmfg.Rust.Stripe
import Mmfg.View.Viewer

/-!
# The range of a view

`View(offset, length)` shows the data from `offset` on, up to `offset + length` or the data length.
Both languages convert the end of the range to 32 bits before they compare it with the data length,
and Go does not look at the sign of the length.  `view_selects_iff` says when the range is right
nevertheless; `view_wrong_range` has a negative length that shows everything and a large one that
shows nothing.
-/

namespace Mmfg.Shm

open File Segments View

/-- A byte of a block. -/
abbrev Cell := BlockId × Fin BlockSize

/-- The slice `Blocks[bIdx]`. -/
def blockCells (b : BlockId) : List Cell := (List.finRange BlockSize).map (b, ·)

/-- The slice of a segment. -/
def Segment.cells (g : Segment) : List Cell := ((blockCells g.block).drop g.innerOff).take g.copyLen

/-- The viewer that is passed to the callback, with the loop that adds up the offsets. -/
def newViewer (segments : List Segment) (actualLen : ℕ) : Viewer Cell :=
  { segments := segments.map Segment.cells
    offsets := starts 0 (segments.map Segment.cells)
    length := actualLen }

/-- The viewer with which `View` calls back, or its error. -/
def Stripe.viewer (s : Stripe) (offset length : ℤ) : Except IOError (Viewer Cell) :=
  match s.view offset length with
  | .error err => .error err
  | .ok (segments, actualLen) => .ok (newViewer segments actualLen)

end Mmfg.Shm

namespace Mmfg.Rust

open Shm View

/-- The errors of `Stripe::view`: "view offset out of bounds", "empty view range" and "view produced
no segments". -/
inductive ViewError
  | outOfBounds
  | emptyRange
  | noSegments
  deriving DecidableEq

/-- The stripe, and the viewer with which `call` is called or the error. -/
def Stripe.view (chunks : List Chunk) (s : Stripe) (mem : Memory) (offset length : ℕ) :
    Stripe × Except ViewError (Viewer Cell) :=
  let s := (s.refreshSequence chunks mem).getD s
  (s,
    if s.sequence = [] ∨ offset ≥ s.dataLen.toNat then .error .outOfBounds
    else
      let stop := (min (UInt32.ofNat (offset + length)) s.dataLen).toNat
      if stop ≤ offset then .error .emptyRange
      else
        let raw := resolveSegments chunks s.sequence (offset + BlockSize) (stop - offset)
        if raw = [] then .error .noSegments else .ok (newViewer raw (stop - offset)))

end Mmfg.Rust

namespace Mmfg.Shm

open File Segments View

/-! ## The cells of a range -/

section Cells

variable {mem : Memory} {blocks : List BlockId} {b : BlockId} {off n fuel i : ℕ}

/-- The cell at offset `i` of a block. -/
def cell (b : BlockId) (i : ℕ) : Cell := (b, ⟨i % BlockSize, Nat.mod_lt i (by decide)⟩)

/-- The cell at offset `i` of the blocks. -/
def place (blocks : List BlockId) (i : ℕ) : Cell := cell (blocks.getD (i / BlockSize) (0, 0)) i

theorem flat_eq_place (h : i < blocks.length * BlockSize) :
    flat mem blocks i = Function.uncurry mem (place blocks i) := by
  have hidx := List.getElem?_eq_getElem (div_lt_of_lt h)
  have hmod := Nat.mod_lt i (show BlockSize > 0 by decide)
  rw [flat, place, List.getD_eq_getElem?_getD, hidx, Option.map_some, Option.getD_some,
    Option.getD_some, Bytes.byte, dif_pos hmod]
  rfl

theorem segment_cells (h : off + n ≤ BlockSize) :
    (⟨b, off, n⟩ : Segment).cells = window (cell b) off n := by
  refine List.ext_getElem? fun i => ?_
  rw [getElem?_window, Segment.cells, List.getElem?_take, List.getElem?_drop]
  dsimp only
  split_ifs with hi
  · have hlt : off + i < BlockSize := by omega
    rw [blockCells, List.getElem?_map, List.getElem?_eq_getElem (by simpa using hlt)]
    simp only [Option.map_some, List.getElem_finRange, cell, Nat.mod_eq_of_lt hlt]
    rfl
  · rfl

/-- The pieces of `View` are not empty, and together they are the cells of the range. -/
theorem cells_viewLoop (h : off + n ≤ blocks.length * BlockSize) (hf : n ≤ fuel) :
    ((viewLoop blocks fuel off n).map Segment.cells).flatten = window (place blocks) off n ∧
      ∀ seg ∈ (viewLoop blocks fuel off n).map Segment.cells, seg ≠ [] := by
  induction fuel generalizing off n with
  | zero =>
    obtain rfl : n = 0 := by omega
    exact ⟨rfl, by simp [viewLoop]⟩
  | succ fuel ih =>
    rw [viewLoop]
    split_ifs with hn
    · rw [hn]
      exact ⟨rfl, by simp⟩
    · have hdiv := div_lt_of_lt (show off < blocks.length * BlockSize by omega)
      have hidx := List.getElem?_eq_getElem hdiv
      have hmod := Nat.mod_lt off (show BlockSize > 0 by decide)
      rw [hidx]
      dsimp only
      set k := min (BlockSize - off % BlockSize) n with hk
      have hkn : k ≤ n := min_le_right _ _
      obtain ⟨hflat, hne⟩ := @ih (off + k) (n - k) (by omega) (by omega)
      have hhead : (⟨blocks[off / BlockSize], off % BlockSize, k⟩ : Segment).cells =
          window (place blocks) off k := by
        rw [segment_cells (by omega)]
        refine List.map_congr_left fun i hi => ?_
        have hi : i < k := List.mem_range.1 hi
        obtain ⟨hsame, -⟩ := div_mod_add (show i < BlockSize - off % BlockSize by omega)
        rw [place, hsame, List.getD_eq_getElem?_getD, hidx, Option.getD_some, cell, cell]
        simp only [Nat.mod_add_mod]
      constructor
      · rw [List.map_cons, List.flatten_cons, hhead, hflat, ← window_add, Nat.add_sub_cancel' hkn]
      · intro seg hseg
        rcases List.mem_cons.1 hseg with rfl | hseg
        · rw [hhead, ← List.length_pos_iff, length_window]
          omega
        · exact hne seg hseg

end Cells

/-! ## The viewer -/

variable {s : Stripe} {mem : Memory} {offset length : ℤ}

/-- The end of the range, after the conversion to 32 bits. -/
def Stripe.viewEnd (s : Stripe) (offset length : ℤ) : ℕ :=
  (min (UInt32.ofInt (offset + length)) s.dataLen).toNat

theorem toNat_ofInt (x : ℤ) : ((UInt32.ofInt x).toNat : ℤ) = x % 2 ^ 32 := by
  rw [UInt32.ofInt, UInt32.toNat_ofNat']
  omega

theorem viewEnd_eq (s : Stripe) (offset length : ℤ) :
    ((s.viewEnd offset length : ℕ) : ℤ) =
      min ((offset + length) % 2 ^ 32) (s.dataLen.toNat : ℤ) := by
  rw [Stripe.viewEnd, UInt32.toNat_min, Nat.cast_min, toNat_ofInt]

theorem view_of_out (length : ℤ) (h : ¬ (0 ≤ offset ∧ offset < s.dataLen.toNat)) :
    ∃ err, s.viewer offset length = .error err := by
  rw [Stripe.viewer, Stripe.view]
  by_cases h0 : offset < 0
  · rw [if_pos h0]
    exact ⟨_, rfl⟩
  · rw [if_neg h0, if_pos (by omega)]
    exact ⟨_, rfl⟩

section InData

variable (h0 : 0 ≤ offset) (hlt : offset < s.dataLen.toNat)

include h0 hlt

theorem view_of_end_le (hend : s.viewEnd offset length ≤ offset) :
    s.viewer offset length = .error .eof := by
  have hview : s.view offset length = .error .eof := by
    rw [Stripe.view, if_neg (by omega), if_neg (by omega)]
    exact if_pos hend
  rw [Stripe.viewer, hview]

/-- The viewer shows the cells from the offset to the end. -/
theorem viewer_eq (hcap : s.dataLen.toNat ≤ s.capacity) (hend : offset < s.viewEnd offset length) :
    ∃ v, s.viewer offset length = .ok v ∧ v.Wf ∧
      v = newViewer (viewLoop s.blocks (s.viewEnd offset length - offset.toNat)
        (offset.toNat + BlockSize) (s.viewEnd offset length - offset.toNat))
        (s.viewEnd offset length - offset.toNat) ∧
      v.segments.flatten = window (place s.blocks.tail) offset.toNat
        (s.viewEnd offset length - offset.toNat) := by
  have hle : (s.viewEnd offset length : ℤ) ≤ s.dataLen.toNat := by
    rw [viewEnd_eq]
    exact min_le_right _ _
  unfold Stripe.capacity at hcap
  obtain ⟨hflat, hne⟩ := @cells_viewLoop s.blocks.tail offset.toNat
    (s.viewEnd offset length - offset.toNat) (s.viewEnd offset length - offset.toNat) (by omega) le_rfl
  rw [← viewLoop_skip] at hflat hne
  refine ⟨_, ?_, ⟨hne, rfl, ?_⟩, rfl, hflat⟩
  · have hview : s.view offset length =
        .ok (viewLoop s.blocks (s.viewEnd offset length - offset.toNat) (offset.toNat + BlockSize)
          (s.viewEnd offset length - offset.toNat), s.viewEnd offset length - offset.toNat) := by
      rw [Stripe.view, if_neg (by omega), if_neg (by omega)]
      exact if_neg (by unfold Stripe.viewEnd at hend; omega)
    rw [Stripe.viewer, hview]
  · exact ((congrArg List.length hflat).trans length_window).symm

end InData

theorem bytes_of_cells (mem : Memory) {v : Viewer Cell} {off n : ℕ} (hend : off + n ≤ s.capacity)
    (hv : v.segments.flatten = window (place s.blocks.tail) off n) :
    v.bytes (Function.uncurry mem) = window (s.content mem) off n := by
  rw [Viewer.bytes, hv, window, List.map_map]
  refine List.map_congr_left fun i hi => ?_
  have hi : i < n := List.mem_range.1 hi
  exact (flat_eq_place (by unfold Stripe.capacity at hend; omega)).symm

/-! ## The right range -/

/-- The range is selected: for an offset below the data length and a positive length, a well-formed
viewer shows exactly the data from the offset on, up to the end of the range or of the data;
otherwise there is no call back. -/
def Selects (s : Stripe) (mem : Memory) (offset length : ℤ) (result : Option (Viewer Cell)) : Prop :=
  if 0 ≤ offset ∧ offset < s.dataLen.toNat ∧ 0 < length then
    ∃ v, result = some v ∧ v.Wf ∧ v.bytes (Function.uncurry mem) =
      window (s.content mem) offset.toNat (min (offset + length) s.dataLen.toNat - offset).toNat
  else result = none

/-- The conversion of the end to 32 bits does no harm: with a positive length it does not change the
end, or leaves it beyond the data; otherwise the end stays at or before the offset. -/
def EndFits (dataLen : ℕ) (offset length : ℤ) : Prop :=
  0 ≤ offset → offset < dataLen →
    if 0 < length then offset + length < 2 ^ 32 ∨ dataLen ≤ (offset + length) % 2 ^ 32
    else (offset + length) % 2 ^ 32 ≤ offset

instance (dataLen : ℕ) (offset length : ℤ) : Decidable (EndFits dataLen offset length) :=
  inferInstanceAs (Decidable (_ → _))

theorem selects_iff (hcap : s.dataLen.toNat ≤ s.capacity) :
    Selects s mem offset length (s.viewer offset length).toOption ↔
      EndFits s.dataLen.toNat offset length := by
  have hsize : s.dataLen.toNat < 2 ^ 32 := s.dataLen.toNat_lt
  by_cases hin : 0 ≤ offset ∧ offset < s.dataLen.toNat
  swap
  · obtain ⟨err, herr⟩ := view_of_out length hin
    rw [Selects, if_neg fun h => hin ⟨h.1, h.2.1⟩, herr]
    exact ⟨fun _ h0 hlt => absurd ⟨h0, hlt⟩ hin, fun _ => rfl⟩
  obtain ⟨h0, hlt⟩ := hin
  have hend := viewEnd_eq s offset length
  simp only [Selects, EndFits, h0, hlt, true_and, true_implies]
  split_ifs with hpos
  · -- a positive length: the end must be the right one
    by_cases hle : (s.viewEnd offset length : ℤ) ≤ offset
    · rw [view_of_end_le h0 hlt hle]
      refine ⟨?_, fun h => by omega⟩
      rintro ⟨v, hv, -⟩
      cases hv
    · obtain ⟨v, hv, hwf, -, hcells⟩ := viewer_eq h0 hlt hcap (Int.lt_of_not_ge hle)
      have hbytes := bytes_of_cells (s := s) mem (by omega) hcells
      rw [hv]
      constructor
      · rintro ⟨_, ⟨⟩, -, hrange⟩
        have hlen := congrArg List.length (hbytes.symm.trans hrange)
        rw [length_window, length_window] at hlen
        omega
      · intro hfits
        refine ⟨v, rfl, hwf, hbytes.trans ?_⟩
        congr 1
        omega
  · -- otherwise there must be an error
    by_cases hle : (s.viewEnd offset length : ℤ) ≤ offset
    · rw [view_of_end_le h0 hlt hle]
      exact ⟨fun _ => by omega, fun _ => rfl⟩
    · obtain ⟨v, hv, -⟩ := viewer_eq h0 hlt hcap (Int.lt_of_not_ge hle)
      rw [hv]
      exact ⟨nofun, fun h => by omega⟩

/-- A Rust node that gets to the same blocks shows the same viewer, or none. -/
theorem rust_view_eq {chunks : List Chunk} {r : Rust.Stripe} (hcap : s.dataLen.toNat ≤ s.capacity)
    (hr : r.Leads chunks mem s.blocks) (hlen : (decodeHeader (mem r.header)).1 = s.dataLen)
    (h0 : 0 ≤ offset) (hl : 0 ≤ length) :
    (r.view chunks mem offset.toNat length.toNat).2.toOption =
      (s.viewer offset length).toOption := by
  have hrefresh := Rust.refreshSequence_eq (s := r) hr.physical_header hr.entries
  have hsegs : ∀ n, r.segments chunks mem offset.toNat n =
      viewLoop s.blocks n (offset.toNat + BlockSize) n := fun n => hr.segments_eq
  have hseq : (decodeHeader (mem r.header)).2.2 ≠ [] := by
    obtain ⟨cid, seq, hcons, -⟩ := hr.marker
    rw [hcons]
    exact List.cons_ne_nil _ _
  have hsum : (min (UInt32.ofNat (offset.toNat + length.toNat)) s.dataLen).toNat =
      s.viewEnd offset length := by
    have hint := toNat_ofInt (offset + length)
    rw [Stripe.viewEnd, UInt32.toNat_min, UInt32.toNat_min, UInt32.toNat_ofNat']
    omega
  simp only [Rust.Stripe.segments, hrefresh, Option.getD_some] at hsegs
  simp only [Rust.Stripe.view, hrefresh, Option.getD_some, hseq, false_or, hlen, hsum, hsegs]
  by_cases hlt : offset < s.dataLen.toNat
  swap
  · obtain ⟨err, herr⟩ := view_of_out length fun h => hlt h.2
    rw [if_pos (by omega), herr]
    rfl
  rw [if_neg (by omega)]
  by_cases hle : (s.viewEnd offset length : ℤ) ≤ offset
  · rw [if_pos (by omega), view_of_end_le h0 hlt hle]
    rfl
  · obtain ⟨v, hv, hwf, rfl, hcells⟩ := viewer_eq h0 hlt hcap (Int.lt_of_not_ge hle)
    have hne : viewLoop s.blocks (s.viewEnd offset length - offset.toNat) (offset.toNat + BlockSize)
        (s.viewEnd offset length - offset.toNat) ≠ [] := by
      intro hnil
      have hcount := congrArg List.length hcells
      rw [length_window, newViewer, hnil] at hcount
      simp only [List.map_nil, List.flatten_nil, List.length_nil] at hcount
      omega
    rw [if_neg (by omega), if_neg hne, hv]
    rfl

/-- `View` selects the requested range exactly where the conversion of its end to 32 bits does no
harm, and the Rust node does what `View` does. -/
theorem view_selects_iff (s : Stripe) (mem : Memory) (hcap : s.dataLen.toNat ≤ s.capacity)
    (offset length : ℤ) :
    (Selects s mem offset length (s.viewer offset length).toOption ↔
      EndFits s.dataLen.toNat offset length) ∧
    ∀ (chunks : List Chunk) (r : Rust.Stripe), r.Leads chunks mem s.blocks →
      (decodeHeader (mem r.header)).1 = s.dataLen → 0 ≤ offset → 0 ≤ length →
      (r.view chunks mem offset.toNat length.toNat).2.toOption =
        (s.viewer offset length).toOption :=
  ⟨selects_iff hcap, fun _ _ hr hlen h0 hl => rust_view_eq hcap hr hlen h0 hl⟩

/-- A stripe with a header block and a data block, and ten bytes in it. -/
def tenBytes : Stripe := { allocStripe [(-1, 256), (-1, 257)] with dataLen := 10 }

/-- Of its ten bytes, three are viewed. -/
theorem view_selects_iff_three :
    Selects tenBytes (fun _ _ => 0) 2 3 (tenBytes.viewer 2 3).toOption :=
  (view_selects_iff tenBytes (fun _ _ => 0) (by decide +kernel) 2 3).1.2 (by decide +kernel)

/-- With length -1 the callback gets all ten bytes, and with length 2³² there is no callback. -/
theorem view_wrong_range :
    (∃ v, tenBytes.viewer 0 (-1) = .ok v ∧ v.length = 10) ∧
    tenBytes.viewer 0 (2 ^ 32) = .error .eof ∧
    ¬ Selects tenBytes (fun _ _ => 0) 0 (-1) (tenBytes.viewer 0 (-1)).toOption ∧
    ¬ Selects tenBytes (fun _ _ => 0) 0 (2 ^ 32) (tenBytes.viewer 0 (2 ^ 32)).toOption := by
  have hcap : tenBytes.dataLen.toNat ≤ tenBytes.capacity := by decide +kernel
  have hnegative : tenBytes.view 0 (-1) = .ok ([⟨(-1, 257), 0, 10⟩], 10) := by decide +kernel
  refine ⟨⟨_, by rw [Stripe.viewer, hnegative], rfl⟩,
    view_of_end_le (by decide) (by decide +kernel) (by decide +kernel), ?_, ?_⟩
  · rw [selects_iff hcap]
    decide +kernel
  · rw [selects_iff hcap]
    decide +kernel

end Mmfg.Shm
