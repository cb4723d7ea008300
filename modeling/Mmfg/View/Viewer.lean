import Mmfg.Lib.Segments
import Mmfg.Lib.Search

/-!
# Viewers

A `Viewer` shows a range of a stripe as slices of its blocks.  A slice is a list of memory cells, so
that writing through a viewer is a change of the memory, and slices may overlap.

The accessors of both languages are those of one flat list of bytes (`viewer_is_flat`), whichever
binary search they are given, as long as it does what its documentation says.
-/

namespace Mmfg.View

open Search Segments

/-- The error of the accessors, and an index out of range, for which both languages panic. -/
inductive Err
  | outOfBounds
  | panic
  deriving DecidableEq

/-- A viewer with segments of cells from `ι`. -/
structure Viewer (ι : Type) where
  segments : List (List ι)
  offsets : List ℕ
  length : ℕ
  deriving DecidableEq

variable {ι : Type}

namespace Viewer

/-- The concatenation of the segments. -/
def bytes (v : Viewer ι) (mem : ι → UInt8) : List UInt8 := v.segments.flatten.map mem

/-- The cell `Segments[idx][innerOff]`. -/
def cellAt (v : Viewer ι) : ℕ × ℕ → Option ι
  | (idx, innerOff) => v.segments[idx]?.bind (·[innerOff]?)

/-- Segment `idx` and the inner offset, `offset - offsets[idx]`; a negative one is not an index. -/
def innerOff (v : Viewer ι) (offset idx : ℕ) : Option (ℕ × ℕ) :=
  match v.offsets[idx]? with
  | some start => if start ≤ offset then some (idx, offset - start) else none
  | none => none

/-- `findSegment`. -/
def findSegment (S : LowerBound) (v : Viewer ι) (offset : ℕ) : Option (ℕ × ℕ) :=
  let idx := S.pos v.offsets offset
  v.innerOff offset
    (if idx > 0 ∧ (idx = v.offsets.length ∨ v.offsets.getD idx 0 > offset) then idx - 1 else idx)

/-- `ByteAt`. -/
def byteAt (S : LowerBound) (v : Viewer ι) (mem : ι → UInt8) (offset : ℤ) : Except Err UInt8 :=
  if offset < 0 ∨ offset ≥ v.length then .error .outOfBounds
  else
    match (v.findSegment S offset.toNat).bind v.cellAt with
    | some c => .ok (mem c)
    | none => .error .panic

/-- The memory afterwards, and the error. -/
def setByteAt [DecidableEq ι] (S : LowerBound) (v : Viewer ι) (mem : ι → UInt8) (offset : ℤ)
    (val : UInt8) : (ι → UInt8) × Option Err :=
  if offset < 0 ∨ offset ≥ v.length then (mem, some .outOfBounds)
  else
    match (v.findSegment S offset.toNat).bind v.cellAt with
    | some c => (Function.update mem c val, none)
    | none => (mem, some .panic)

/-- The loop of the function that `Iterator` returns, over the segments from `segIdx` on. -/
def nextLoop (mem : ι → UInt8) : List (List ι) → ℕ × ℕ → (ℕ × ℕ) × Option UInt8
  | [], pos => (pos, none)
  | seg :: segs, (segIdx, innerIdx) =>
    match seg[innerIdx]? with
    | some c => ((segIdx, innerIdx + 1), some (mem c))
    | none => nextLoop mem segs (segIdx + 1, 0)

/-- A call of that function: its new state and its result, `none` at the end. -/
def next (v : Viewer ι) (mem : ι → UInt8) (pos : ℕ × ℕ) : (ℕ × ℕ) × Option UInt8 :=
  nextLoop mem (v.segments.drop pos.1) pos

/-- The results of `n` calls. -/
def nexts (v : Viewer ι) (mem : ι → UInt8) : ℕ → ℕ × ℕ → List (Option UInt8)
  | 0, _ => []
  | n + 1, pos => (v.next mem pos).2 :: v.nexts mem n (v.next mem pos).1

/-- The function that `Iterator` returns, called `n` times. -/
def iterator (v : Viewer ι) (mem : ι → UInt8) (n : ℕ) : List (Option UInt8) := v.nexts mem n (0, 0)

/-- The comparison of one segment; slicing `data` beyond its end panics. -/
def compareSegment (mem : ι → UInt8) (data : List UInt8) (start : ℕ) (seg : List ι) :
    Except Err Bool :=
  if start + seg.length > data.length then .error .panic
  else .ok (decide (seg.map mem = (data.drop start).take seg.length))

/-- The loop of `Compare`, from segment `i` on. -/
def compareLoop (v : Viewer ι) (mem : ι → UInt8) (data : List UInt8) :
    ℕ → List (List ι) → Except Err Bool
  | _, [] => .ok true
  | i, seg :: segs =>
    match v.offsets[i]? with
    | none => .error .panic
    | some start =>
      match compareSegment mem data start seg with
      | .ok true => v.compareLoop mem data (i + 1) segs
      | r => r

/-- `Compare`. -/
def compare (v : Viewer ι) (mem : ι → UInt8) (data : List UInt8) : Except Err Bool :=
  if data.length ≠ v.length then .ok false else v.compareLoop mem data 0 v.segments

end Viewer

end Mmfg.View

/-! ## The accessors of the Rust viewer -/

namespace Mmfg.Rust.Viewer

open Search View

variable {ι : Type}

/-- An insertion point 0 has no predecessor. -/
def findSegment (R : BinarySearch) (v : View.Viewer ι) (offset : ℕ) : Option (ℕ × ℕ) :=
  match R.search v.offsets offset with
  | .ok idx => v.innerOff offset idx
  | .error 0 => none
  | .error (idx + 1) => v.innerOff offset idx

/-- `byte_at`. -/
def byteAt (R : BinarySearch) (v : View.Viewer ι) (mem : ι → UInt8) (offset : ℕ) :
    Except Err UInt8 :=
  if offset ≥ v.length then .error .outOfBounds
  else
    match (findSegment R v offset).bind v.cellAt with
    | some c => .ok (mem c)
    | none => .error .panic

/-- `set_byte_at`. -/
def setByteAt [DecidableEq ι] (R : BinarySearch) (v : View.Viewer ι) (mem : ι → UInt8) (offset : ℕ)
    (val : UInt8) : (ι → UInt8) × Option Err :=
  if offset ≥ v.length then (mem, some .outOfBounds)
  else
    match (findSegment R v offset).bind v.cellAt with
    | some c => (Function.update mem c val, none)
    | none => (mem, some .panic)

/-- What the iterator yields before it ends. -/
def iter (v : View.Viewer ι) (mem : ι → UInt8) : List UInt8 :=
  v.segments.flatMap fun seg => seg.map mem

/-- The loop of `compare`. -/
def compareLoop (mem : ι → UInt8) (data : List UInt8) : ℕ → List (List ι) → Except Err Bool
  | _, [] => .ok true
  | pos, seg :: segs =>
    match View.Viewer.compareSegment mem data pos seg with
    | .ok true => compareLoop mem data (pos + seg.length) segs
    | r => r

/-- `compare`. -/
def compare (v : View.Viewer ι) (mem : ι → UInt8) (data : List UInt8) : Except Err Bool :=
  if data.length ≠ v.length then .ok false else compareLoop mem data 0 v.segments

end Mmfg.Rust.Viewer

/-! ## Viewers as flat lists -/

namespace Mmfg.View

open Search Segments

/-- A viewer as `View` builds it: no segment is empty, the offsets are where the segments start, and
the length is that of all of them. -/
structure Viewer.Wf {ι : Type} (v : Viewer ι) : Prop where
  nonempty : ∀ seg ∈ v.segments, seg ≠ []
  offsets : v.offsets = starts 0 v.segments
  length : v.length = v.segments.flatten.length

namespace Viewer.Wf

variable {ι : Type} {v : Viewer ι} {mem : ι → UInt8} {i p x : ℕ} (hv : v.Wf)

include hv

theorem sorted : v.offsets.Pairwise (· ≤ ·) := by
  rw [hv.offsets]
  exact pairwise_starts

theorem getElem?_offsets : v.offsets[i]? = some x ↔
    i < v.segments.length ∧ x = (v.segments.take i).flatten.length := by
  rw [hv.offsets]
  exact getElem?_starts_iff

theorem lt_succ {y : ℕ} (hx : v.offsets[i]? = some x) (hy : v.offsets[i + 1]? = some y) : x < y := by
  obtain ⟨hi, rfl⟩ := hv.getElem?_offsets.1 hx
  obtain ⟨-, rfl⟩ := hv.getElem?_offsets.1 hy
  have hseg := List.getElem?_eq_getElem hi
  have hpos := List.length_pos_iff.2 (hv.nonempty _ (List.mem_of_getElem? hseg))
  rw [length_flatten_take_succ hseg]
  omega

theorem exists_offset_zero (hp : p < v.segments.flatten.length) : v.offsets[0]? = some 0 := by
  refine hv.getElem?_offsets.2 ⟨?_, by simp⟩
  by_contra hlen
  rw [List.length_eq_zero_iff.1 (Nat.le_zero.1 (Nat.le_of_not_lt hlen))] at hp
  exact Nat.not_lt_zero _ hp

/-- The segment that starts last at or before `p` is the one in which `p` lies. -/
theorem innerOff_bind (hp : p < v.segments.flatten.length) (hx : v.offsets[i]? = some x)
    (hle : x ≤ p) (hnext : ∀ y, v.offsets[i + 1]? = some y → p < y) :
    (v.innerOff p i).bind v.cellAt = v.segments.flatten[p]? := by
  rw [innerOff, hx]
  dsimp only
  rw [if_pos hle, Option.bind_some]
  obtain ⟨hi, rfl⟩ := hv.getElem?_offsets.1 hx
  rw [hv.offsets] at hnext
  exact getElem?_of_last hi hle (lt_next hp hnext)

theorem findSegment_bind (S : LowerBound) (hp : p < v.segments.flatten.length) :
    (v.findSegment S p).bind v.cellAt = v.segments.flatten[p]? := by
  have hs := hv.sorted
  have h0 := hv.exists_offset_zero hp
  have hle := S.pos_le (x := p) hs
  unfold findSegment
  dsimp only
  split_ifs with hback
  · -- the segment before the insertion point
    obtain ⟨hpos, hend⟩ := hback
    obtain ⟨k, hk⟩ := Nat.exists_eq_add_of_lt hpos
    rw [Nat.zero_add] at hk
    rw [hk] at hend hle ⊢
    have hlt : k < v.offsets.length := by omega
    have hx := List.getElem?_eq_getElem hlt
    have hxp := S.below hs (by omega : k < S.pos v.offsets p) hx
    rw [Nat.add_sub_cancel]
    refine hv.innerOff_bind hp hx hxp.le fun y hy => ?_
    rcases hend with hend | hend
    · rw [List.getElem?_eq_none (by omega)] at hy
      cases hy
    · rwa [List.getD_eq_getElem?_getD, hy, Option.getD_some] at hend
  · -- an exact hit, or the first segment
    have hin : S.pos v.offsets p < v.offsets.length := by
      by_contra hout
      refine hback ⟨?_, .inl (by omega)⟩
      have := (List.getElem?_eq_some_iff.1 h0).1
      omega
    have hx := List.getElem?_eq_getElem hin
    have hxp : v.offsets[S.pos v.offsets p] ≤ p := by
      by_cases hzero : S.pos v.offsets p = 0
      · have hfirst := hx
        simp only [hzero] at hfirst hx ⊢
        rw [Option.some.inj (hfirst.symm.trans h0)]
        exact Nat.zero_le p
      · by_contra hgt
        refine hback ⟨by omega, .inr ?_⟩
        rw [List.getD_eq_getElem?_getD, hx, Option.getD_some]
        omega
    refine hv.innerOff_bind hp hx hxp fun y hy => ?_
    have hge := S.above hs le_rfl hx
    have := hv.lt_succ hx hy
    omega

/-- Rust takes the hit, or the segment before the insertion point. -/
theorem rust_findSegment_bind (R : BinarySearch) (hp : p < v.segments.flatten.length) :
    (Rust.Viewer.findSegment R v p).bind v.cellAt = v.segments.flatten[p]? := by
  have hs := hv.sorted
  unfold Rust.Viewer.findSegment
  cases hsearch : R.search v.offsets p with
  | ok i =>
    have hx := R.found hs hsearch
    exact hv.innerOff_bind hp hx le_rfl fun y hy => hv.lt_succ hx hy
  | error i =>
    cases i with
    | zero =>
      have := R.above hs hsearch le_rfl (hv.exists_offset_zero hp)
      omega
    | succ k =>
      have hle := R.insert_le hs hsearch
      have hx := List.getElem?_eq_getElem (show k < v.offsets.length by omega)
      have hxp := R.below hs hsearch (Nat.lt_succ_self k) hx
      exact hv.innerOff_bind hp hx hxp.le fun y hy => R.above hs hsearch le_rfl hy

end Viewer.Wf

/-! ## The iterator -/

section Iterator

variable {ι : Type} {v : Viewer ι} {mem : ι → UInt8}

/-- What an iterator that is at `innerIdx` of the first segment has not yielded yet. -/
def rest : List (List ι) → ℕ → List ι
  | [], _ => []
  | seg :: segs, innerIdx => seg.drop innerIdx ++ segs.flatten

theorem rest_zero (segs : List (List ι)) : rest segs 0 = segs.flatten := by
  cases segs with
  | nil => rfl
  | cons seg segs => rw [rest, List.drop_zero, List.flatten_cons]

theorem nextLoop_spec (mem : ι → UInt8) {segs : List (List ι)} {segIdx : ℕ} (innerIdx : ℕ)
    (hsegs : v.segments.drop segIdx = segs) :
    (Viewer.nextLoop mem segs (segIdx, innerIdx)).2 = (rest segs innerIdx).head?.map mem ∧
    rest (v.segments.drop (Viewer.nextLoop mem segs (segIdx, innerIdx)).1.1)
      (Viewer.nextLoop mem segs (segIdx, innerIdx)).1.2 = (rest segs innerIdx).tail := by
  induction segs generalizing segIdx innerIdx with
  | nil =>
    rw [Viewer.nextLoop]
    dsimp only
    rw [hsegs]
    exact ⟨rfl, rfl⟩
  | cons seg segs ih =>
    rw [Viewer.nextLoop]
    by_cases hin : innerIdx < seg.length
    · rw [List.getElem?_eq_getElem hin]
      dsimp only
      rw [hsegs, rest, rest, List.drop_eq_getElem_cons hin]
      exact ⟨rfl, rfl⟩
    · have hsucc : v.segments.drop (segIdx + 1) = segs := by
        rw [← List.tail_drop, hsegs, List.tail_cons]
      have hrest : rest (seg :: segs) innerIdx = rest segs 0 := by
        rw [rest, List.drop_of_length_le (Nat.le_of_not_lt hin), List.nil_append, rest_zero]
      rw [List.getElem?_eq_none (Nat.le_of_not_lt hin), hrest]
      exact ih 0 hsucc

theorem nexts_eq (n : ℕ) (pos : ℕ × ℕ) : v.nexts mem n pos =
    (List.range n).map fun k => (rest (v.segments.drop pos.1) pos.2)[k]?.map mem := by
  induction n generalizing pos with
  | zero => rfl
  | succ n ih =>
    obtain ⟨hval, hrest⟩ := nextLoop_spec mem pos.2
      (rfl : v.segments.drop pos.1 = v.segments.drop pos.1)
    rw [Viewer.nexts, ih, List.range_succ_eq_map, List.map_cons, List.map_map]
    refine congrArg₂ _ (hval.trans (by rw [List.head?_eq_getElem?])) ?_
    refine List.map_congr_left fun k _ => ?_
    rw [show rest (v.segments.drop (v.next mem pos).1.1) (v.next mem pos).1.2 = _ from hrest,
      List.getElem?_tail]
    rfl

/-- The iterator yields the bytes in order, and nothing more afterwards. -/
theorem iterator_eq (n : ℕ) :
    v.iterator mem n = (List.range n).map fun k => (v.bytes mem)[k]? := by
  rw [Viewer.iterator, nexts_eq, List.drop_zero, rest_zero]
  refine List.map_congr_left fun k _ => ?_
  rw [Viewer.bytes, List.getElem?_map]

end Iterator

/-! ## Comparisons -/

section Compare

variable {ι : Type} {v : Viewer ι} {mem : ι → UInt8} {data : List UInt8}

theorem rust_compareLoop_eq {segs : List (List ι)} {pos : ℕ}
    (hlen : data.length = pos + segs.flatten.length) :
    Rust.Viewer.compareLoop mem data pos segs =
      .ok (decide (data.drop pos = segs.flatten.map mem)) := by
  induction segs generalizing pos with
  | nil =>
    rw [Rust.Viewer.compareLoop, List.drop_of_length_le (by simpa using hlen.le)]
    rfl
  | cons seg segs ih =>
    rw [List.flatten_cons, List.length_append] at hlen
    have hsplit : data.drop pos = (data.drop pos).take seg.length ++ data.drop (pos + seg.length) := by
      rw [← List.drop_drop, List.take_append_drop]
    have htake : ((data.drop pos).take seg.length).length = (seg.map mem).length := by
      rw [List.length_take, List.length_drop, List.length_map]
      omega
    rw [Rust.Viewer.compareLoop, Viewer.compareSegment, if_neg (by omega), List.flatten_cons,
      List.map_append, hsplit]
    by_cases hseg : seg.map mem = (data.drop pos).take seg.length
    · rw [← hsplit, decide_eq_true hseg]
      dsimp only
      rw [ih (by omega), hsplit, ← hseg, decide_eq_decide.2 (List.append_right_inj _)]
    · have hne : ¬ ((data.drop pos).take seg.length ++ data.drop (pos + seg.length) =
          seg.map mem ++ segs.flatten.map mem) := fun h =>
        hseg (List.append_inj_left h htake).symm
      rw [← hsplit] at hne
      rw [← hsplit, decide_eq_false hseg, decide_eq_false hne]

/-- The offsets are the positions that Rust counts. -/
theorem compareLoop_eq (hv : v.Wf) {segs : List (List ι)} {i : ℕ}
    (hsegs : v.segments.drop i = segs) :
    v.compareLoop mem data i segs =
      Rust.Viewer.compareLoop mem data (v.segments.take i).flatten.length segs := by
  induction segs generalizing i with
  | nil => rfl
  | cons seg segs ih =>
    have hi : v.segments[i]? = some seg := by
      rw [← List.head?_drop, hsegs, List.head?_cons]
    have hsucc : v.segments.drop (i + 1) = segs := by
      rw [← List.tail_drop, hsegs, List.tail_cons]
    have hoff := hv.getElem?_offsets.2 ⟨(List.getElem?_eq_some_iff.1 hi).1, rfl⟩
    rw [Viewer.compareLoop, Rust.Viewer.compareLoop, hoff, ih hsucc, length_flatten_take_succ hi]

theorem rust_compare_eq (hv : v.Wf) :
    Rust.Viewer.compare v mem data = .ok (decide (data = v.bytes mem)) := by
  rw [Rust.Viewer.compare]
  split_ifs with hlen
  · have hne : data ≠ v.bytes mem := by
      rintro rfl
      exact hlen (by rw [Viewer.bytes, List.length_map, hv.length])
    rw [decide_eq_false hne]
  · rw [rust_compareLoop_eq (by rw [not_not.1 hlen, hv.length, Nat.zero_add]), List.drop_zero]
    rfl

theorem compare_eq_rust (hv : v.Wf) : v.compare mem data = Rust.Viewer.compare v mem data := by
  rw [Viewer.compare, Rust.Viewer.compare, compareLoop_eq hv (List.drop_zero ..)]
  rfl

end Compare

/-! ## The whole -/

section Flat

variable {ι : Type} [DecidableEq ι] {v : Viewer ι} {mem : ι → UInt8} {offset : ℤ} {val : UInt8}

theorem map_update {l : List ι} (hnd : l.Nodup) {k : ℕ} {c : ι} (hc : l[k]? = some c) :
    l.map (Function.update mem c val) = (l.map mem).set k val := by
  refine List.ext_getElem? fun j => ?_
  rw [List.getElem?_map, List.getElem?_set, List.length_map, List.getElem?_map]
  obtain ⟨hk, -⟩ := List.getElem?_eq_some_iff.1 hc
  by_cases hj : k = j
  · subst hj
    rw [if_pos rfl, if_pos hk, hc, Option.map_some, Function.update_self]
  · rw [if_neg hj]
    cases hx : l[j]? with
    | none => rfl
    | some x =>
      have hne : x ≠ c := by
        rintro rfl
        exact hj ((List.getElem?_inj hk hnd).1 (hc.trans hx.symm))
      rw [Option.map_some, Option.map_some, Function.update_of_ne hne]

omit [DecidableEq ι] in
theorem byteAt_eq (hv : v.Wf) (S : LowerBound) : v.byteAt S mem offset =
    if 0 ≤ offset ∧ offset < v.length then .ok ((v.bytes mem).getD offset.toNat 0)
    else .error .outOfBounds := by
  rw [Viewer.byteAt]
  by_cases hin : 0 ≤ offset ∧ offset < v.length
  · have hp : offset.toNat < v.segments.flatten.length := by
      rw [← hv.length]
      omega
    rw [if_neg (by omega), if_pos hin, hv.findSegment_bind S hp, List.getElem?_eq_getElem hp,
      Viewer.bytes, List.getD_eq_getElem?_getD, List.getElem?_map, List.getElem?_eq_getElem hp]
    rfl
  · rw [if_pos (by omega), if_neg hin]

theorem exists_setByteAt (hv : v.Wf) (S : LowerBound) (mem : ι → UInt8) (val : UInt8)
    (h0 : 0 ≤ offset) (hlt : offset < v.length) :
    ∃ c, v.segments.flatten[offset.toNat]? = some c ∧
      v.setByteAt S mem offset val = (Function.update mem c val, none) := by
  have hp : offset.toNat < v.segments.flatten.length := by
    rw [← hv.length]
    omega
  refine ⟨v.segments.flatten[offset.toNat], List.getElem?_eq_getElem hp, ?_⟩
  rw [Viewer.setByteAt, if_neg (by omega), hv.findSegment_bind S hp, List.getElem?_eq_getElem hp]

theorem setByteAt_of_out (S : LowerBound) (hout : ¬ (0 ≤ offset ∧ offset < v.length)) :
    v.setByteAt S mem offset val = (mem, some .outOfBounds) := by
  rw [Viewer.setByteAt, if_pos (by omega)]

omit [DecidableEq ι] in
theorem rust_byteAt_eq (hv : v.Wf) (S : LowerBound) (R : BinarySearch) (offset : ℕ) :
    Rust.Viewer.byteAt R v mem offset = v.byteAt S mem offset := by
  rw [Rust.Viewer.byteAt, Viewer.byteAt, Int.toNat_natCast]
  by_cases hin : offset < v.length
  · have hp : offset < v.segments.flatten.length := hv.length ▸ hin
    rw [if_neg (by omega), if_neg (by omega), hv.rust_findSegment_bind R hp,
      hv.findSegment_bind S hp]
  · rw [if_pos (by omega), if_pos (by omega)]

theorem rust_setByteAt_eq (hv : v.Wf) (S : LowerBound) (R : BinarySearch) (offset : ℕ) :
    Rust.Viewer.setByteAt R v mem offset val = v.setByteAt S mem offset val := by
  rw [Rust.Viewer.setByteAt, Viewer.setByteAt, Int.toNat_natCast]
  by_cases hin : offset < v.length
  · have hp : offset < v.segments.flatten.length := hv.length ▸ hin
    rw [if_neg (by omega), if_neg (by omega), hv.rust_findSegment_bind R hp,
      hv.findSegment_bind S hp]
  · rw [if_pos (by omega), if_pos (by omega)]

/-- A viewer is one flat list of bytes, for both languages: bytes are read and written at their
positions in the concatenation, the iterator goes through it, and comparisons are with the whole of
it.  A byte that is written is one cell of memory; unless slices overlap, it is seen at one position
only. -/
theorem viewer_is_flat (S : LowerBound) (R : BinarySearch) (v : Viewer ι) (hv : v.Wf)
    (mem : ι → UInt8) :
    (v.bytes mem).length = v.length ∧
    (∀ offset : ℤ, v.byteAt S mem offset =
      if 0 ≤ offset ∧ offset < v.length then .ok ((v.bytes mem).getD offset.toNat 0)
      else .error .outOfBounds) ∧
    (∀ (offset : ℤ) (val : UInt8),
      (0 ≤ offset ∧ offset < v.length → ∃ c, v.segments.flatten[offset.toNat]? = some c ∧
        v.setByteAt S mem offset val = (Function.update mem c val, none) ∧
        (v.segments.flatten.Nodup →
          v.bytes (v.setByteAt S mem offset val).1 = (v.bytes mem).set offset.toNat val)) ∧
      (¬ (0 ≤ offset ∧ offset < v.length) →
        v.setByteAt S mem offset val = (mem, some .outOfBounds))) ∧
    (∀ n, v.iterator mem n = (List.range n).map fun k => (v.bytes mem)[k]?) ∧
    (∀ data, v.compare mem data = .ok (decide (data = v.bytes mem))) ∧
    (∀ offset : ℕ, Rust.Viewer.byteAt R v mem offset = v.byteAt S mem offset) ∧
    (∀ (offset : ℕ) (val : UInt8),
      Rust.Viewer.setByteAt R v mem offset val = v.setByteAt S mem offset val) ∧
    Rust.Viewer.iter v mem = v.bytes mem ∧
    ∀ data, Rust.Viewer.compare v mem data = v.compare mem data := by
  refine ⟨?_, fun offset => byteAt_eq hv S, fun offset val => ⟨?_, setByteAt_of_out S⟩,
    iterator_eq, fun data => ?_, rust_byteAt_eq hv S R, fun offset val => rust_setByteAt_eq hv S R
    offset, ?_, fun data => (compare_eq_rust hv).symm⟩
  · rw [Viewer.bytes, List.length_map, hv.length]
  · rintro ⟨h0, hlt⟩
    obtain ⟨c, hc, hset⟩ := exists_setByteAt hv S mem val h0 hlt
    refine ⟨c, hc, hset, fun hnd => ?_⟩
    rw [hset]
    exact map_update hnd hc
  · rw [compare_eq_rust hv, rust_compare_eq hv]
  · rw [Rust.Viewer.iter, Viewer.bytes, List.map_flatten, List.flatMap_def]

/-- Two segments of two and three bytes. -/
theorem viewer_is_flat_twoSegments :
    (⟨[[0, 1], [2, 3, 4]], [0, 2], 5⟩ : Viewer ℕ).byteAt linear (UInt8.ofNat ·) 3 = .ok 3 ∧
    (⟨[[0, 1], [2, 3, 4]], [0, 2], 5⟩ : Viewer ℕ).iterator (UInt8.ofNat ·) 6 =
      [some 0, some 1, some 2, some 3, some 4, none] := by
  obtain ⟨-, hbyte, -, hiter, -⟩ := viewer_is_flat linear linear.toBinarySearch
    (⟨[[0, 1], [2, 3, 4]], [0, 2], 5⟩ : Viewer ℕ) ⟨by decide, by decide, by decide⟩ (UInt8.ofNat ·)
  exact ⟨(hbyte 3).trans (by decide), (hiter 6).trans (by decide)⟩

end Flat

end Mmfg.View
