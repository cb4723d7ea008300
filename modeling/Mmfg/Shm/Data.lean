import Mmfg.Lib.File
import Mmfg.Shm.Stripe

/-!
# Reading and writing stripes

`Stripe.ReadAt`, `WriteAt` and `View` go through the blocks of a stripe piece by piece, from the
block in which the offset lies.  Seen as one file, `flat`, the blocks are read by windows and written
by overlays (`readLoop_eq`, `writeLoop_eq`), as long as no block occurs twice.

The fuel of the loops is the number of bytes to copy: every round copies at least one.
-/

namespace Mmfg.Shm

open File

/-- The contents of all blocks. -/
abbrev Memory := BlockId → Bytes

/-- The errors of reads and writes: end of data, a negative offset, an offset beyond the blocks, an
index out of range (the Go runtime panics), and those of the connections: `AllocBlocks` failed,
`StripeDataSizeLimit` exceeded and an expansion refused. -/
inductive IOError
  | eof
  | negativeOffset
  | capacityExceeded
  | panic
  | allocFailed
  | limitReached
  | expandFailed
  deriving DecidableEq

/-- The blocks as one file, starting with the header block. -/
def flat (mem : Memory) (blocks : List BlockId) : ℕ → UInt8 := fun i =>
  ((blocks[i / BlockSize]?).map fun b => (mem b).byte (i % BlockSize)).getD 0

/-- The block after a copy into it. -/
def blit (b : Bytes) (innerOff : ℕ) (data : List UInt8) : Bytes := fun i =>
  overlay b.byte innerOff data i.val

/-- A piece of a copy. -/
structure Segment where
  block : BlockId
  innerOff : ℕ
  copyLen : ℕ
  deriving DecidableEq

/-- The loop of `ReadAt`. -/
def readLoop (mem : Memory) (blocks : List BlockId) : ℕ → ℕ → ℕ → List UInt8 × Option IOError
  | 0, _, _ => ([], none)
  | fuel + 1, off, remaining =>
    if remaining = 0 then ([], none) else
    match blocks[off / BlockSize]? with
    | none => ([], some .eof)
    | some b =>
      let innerOff := off % BlockSize
      let copyLen := min (BlockSize - innerOff) remaining
      let rest := readLoop mem blocks fuel (off + copyLen) (remaining - copyLen)
      (window (mem b).byte innerOff copyLen ++ rest.1, rest.2)

/-- The loop of `View`, which collects the pieces. -/
def viewLoop (blocks : List BlockId) : ℕ → ℕ → ℕ → List Segment
  | 0, _, _ => []
  | fuel + 1, off, remaining =>
    if remaining = 0 then [] else
    match blocks[off / BlockSize]? with
    | none => []
    | some b =>
      let innerOff := off % BlockSize
      let copyLen := min (BlockSize - innerOff) remaining
      ⟨b, innerOff, copyLen⟩ :: viewLoop blocks fuel (off + copyLen) (remaining - copyLen)

/-- The loop of `WriteAt`: the memory, the number of bytes written and the error. -/
def writeLoop (blocks : List BlockId) : ℕ → Memory → ℕ → List UInt8 → Memory × ℕ × Option IOError
  | 0, mem, _, _ => (mem, 0, none)
  | fuel + 1, mem, off, p =>
    if p = [] then (mem, 0, none) else
    match blocks[off / BlockSize]? with
    | none => (mem, 0, some .capacityExceeded)
    | some b =>
      let innerOff := off % BlockSize
      let copyLen := min (BlockSize - innerOff) p.length
      let mem := Function.update mem b (blit (mem b) innerOff (p.take copyLen))
      let rest := writeLoop blocks fuel mem (off + copyLen) (p.drop copyLen)
      (rest.1, copyLen + rest.2.1, rest.2.2)

/-! ## The loops as windows and overlays -/

variable {mem : Memory} {blocks : List BlockId} {off fuel n i : ℕ} {p : List UInt8}

/-- Within a block, offsets keep their block. -/
theorem div_mod_add (h : i < BlockSize - off % BlockSize) :
    (off + i) / BlockSize = off / BlockSize ∧
      (off + i) % BlockSize = off % BlockSize + i := by
  have hd := Nat.div_add_mod off BlockSize
  have hlt : off % BlockSize + i < BlockSize := by omega
  have he : off + i = BlockSize * (off / BlockSize) + (off % BlockSize + i) := by omega
  constructor
  · rw [he, Nat.mul_add_div (by decide), Nat.div_eq_of_lt hlt, Nat.add_zero]
  · rw [he, Nat.mul_add_mod, Nat.mod_eq_of_lt hlt]

theorem div_lt_of_lt (h : off < blocks.length * BlockSize) : off / BlockSize < blocks.length :=
  Nat.div_lt_of_lt_mul (by rwa [Nat.mul_comm] at h)

theorem getElem?_div_of_le (h : blocks.length * BlockSize ≤ off) :
    blocks[off / BlockSize]? = none :=
  List.getElem?_eq_none ((Nat.le_div_iff_mul_le (by decide)).2 h)

theorem flat_congr {mem' : Memory} {blocks' : List BlockId}
    (hb : blocks'[i / BlockSize]? = blocks[i / BlockSize]?)
    (hm : ∀ b ∈ blocks[i / BlockSize]?, mem' b = mem b) : flat mem' blocks' i = flat mem blocks i := by
  unfold flat
  rw [hb]
  cases h : blocks[i / BlockSize]? with
  | none => rfl
  | some b => rw [Option.map_some, Option.map_some, hm b h]

theorem window_byte {b : BlockId} (hb : blocks[off / BlockSize]? = some b)
    (hn : n ≤ BlockSize - off % BlockSize) :
    window (mem b).byte (off % BlockSize) n = window (flat mem blocks) off n := by
  refine List.map_congr_left fun i hi => ?_
  have hi : i < n := List.mem_range.1 hi
  obtain ⟨hdiv, hmod⟩ := div_mod_add (show i < BlockSize - off % BlockSize by omega)
  simp only [flat, hdiv, hmod, hb, Option.map_some, Option.getD_some]

theorem readLoop_eq (h : off + n ≤ blocks.length * BlockSize) (hf : n ≤ fuel) :
    readLoop mem blocks fuel off n = (window (flat mem blocks) off n, none) := by
  induction fuel generalizing off n with
  | zero =>
    obtain rfl : n = 0 := by omega
    rfl
  | succ fuel ih =>
    rw [readLoop]
    split_ifs with hn
    · rw [hn, window_zero]
    · have hlt := div_lt_of_lt (show off < blocks.length * BlockSize by omega)
      rw [List.getElem?_eq_getElem hlt]
      dsimp only
      have hmod := Nat.mod_lt off (show BlockSize > 0 by decide)
      set k := min (BlockSize - off % BlockSize) n with hk
      have hkn : k ≤ n := min_le_right _ _
      have hk0 : 0 < k := by omega
      rw [@ih (off + k) (n - k) (by omega) (by omega),
        window_byte (List.getElem?_eq_getElem hlt) (by omega), ← window_add,
        Nat.add_sub_cancel' hkn]

theorem flat_blit (hnd : blocks.Nodup) {b : BlockId} (hb : blocks[off / BlockSize]? = some b)
    (hp : p.length ≤ BlockSize - off % BlockSize) :
    flat (Function.update mem b (blit (mem b) (off % BlockSize) p)) blocks =
      overlay (flat mem blocks) off p := by
  have hd := Nat.div_add_mod off BlockSize
  funext i
  have hdi := Nat.div_add_mod i BlockSize
  have hmi := Nat.mod_lt i (show BlockSize > 0 by decide)
  by_cases hi : i / BlockSize = off / BlockSize
  · -- the block itself
    simp only [flat, hi, hb, Option.map_some, Option.getD_some, Function.update_self]
    have hbyte : (blit (mem b) (off % BlockSize) p).byte (i % BlockSize) =
        overlay (mem b).byte (off % BlockSize) p (i % BlockSize) := by
      rw [Bytes.byte, dif_pos hmi, blit]
    have hold : flat mem blocks i = (mem b).byte (i % BlockSize) := by
      simp only [flat, hi, hb, Option.map_some, Option.getD_some]
    rw [hi] at hdi
    rw [hbyte, overlay, overlay, hold]
    by_cases hle : off ≤ i
    · rw [if_pos hle, if_pos (by omega), show i % BlockSize - off % BlockSize = i - off by omega]
    · rw [if_neg hle, if_neg (by omega)]
  · have hne : ∀ c, blocks[i / BlockSize]? = some c → c ≠ b := by
      rintro c hc rfl
      exact hi ((List.getElem?_inj (List.getElem?_eq_some_iff.1 hc).1 hnd).1 (hc.trans hb.symm))
    have hout : i < off ∨ off + p.length ≤ i := by
      by_contra hcon
      apply hi
      obtain ⟨k, rfl⟩ := Nat.exists_eq_add_of_le (show off ≤ i by omega)
      exact (div_mod_add (by omega)).1
    rw [flat_congr rfl fun c hc => Function.update_of_ne (hne c hc) _ _]
    rcases hout with ho | ho
    · rw [overlay_of_lt ho]
    · rw [overlay_of_le ho]

/-- `WriteAt` writes what fits: all bytes up to the end of the last block. -/
theorem writeLoop_eq (hf : p.length ≤ fuel) :
    (blocks.Nodup → flat (writeLoop blocks fuel mem off p).1 blocks =
      overlay (flat mem blocks) off (p.take (blocks.length * BlockSize - off))) ∧
    (writeLoop blocks fuel mem off p).2 =
      (min p.length (blocks.length * BlockSize - off),
        if p.length ≤ blocks.length * BlockSize - off then none else some .capacityExceeded) := by
  induction fuel generalizing mem off p with
  | zero =>
    obtain rfl : p = [] := List.length_eq_zero_iff.1 (by omega)
    simp [writeLoop]
  | succ fuel ih =>
    rw [writeLoop]
    by_cases hp : p = []
    · subst hp
      simp
    have hpos : 0 < p.length := List.length_pos_iff.2 hp
    rw [if_neg hp]
    by_cases hlt : off < blocks.length * BlockSize
    · have hidx := div_lt_of_lt hlt
      have hmod := Nat.mod_lt off (show BlockSize > 0 by decide)
      have hend : BlockSize - off % BlockSize ≤ blocks.length * BlockSize - off := by
        have hd := Nat.div_add_mod off BlockSize
        have := Nat.mul_le_mul_left BlockSize (Nat.succ_le_of_lt hidx)
        rw [Nat.mul_succ, Nat.mul_comm BlockSize blocks.length] at this
        omega
      rw [List.getElem?_eq_getElem hidx]
      dsimp only
      set k := min (BlockSize - off % BlockSize) p.length with hk
      have hkp : k ≤ p.length := min_le_right _ _
      have hlen : (p.drop k).length = p.length - k := List.length_drop ..
      have htake : (p.take k).length = k := by rw [List.length_take]; omega
      obtain ⟨h1, h2⟩ := @ih (Function.update mem blocks[off / BlockSize]
        (blit (mem blocks[off / BlockSize]) (off % BlockSize) (p.take k))) (off + k) (p.drop k)
        (by omega)
      refine ⟨fun hnd => ?_, ?_⟩
      · have hsplit : p.take (blocks.length * BlockSize - off) =
            p.take k ++ (p.drop k).take (blocks.length * BlockSize - (off + k)) := by
          rw [← List.take_add]
          exact congrArg p.take (by omega)
        rw [h1 hnd, flat_blit hnd (List.getElem?_eq_getElem hidx) (by omega), hsplit, overlay_append,
          htake]
      · rw [h2, hlen]
        refine Prod.ext (by dsimp only; omega) ?_
        dsimp only
        split_ifs <;> first | rfl | omega
    · have hzero : blocks.length * BlockSize - off = 0 := by omega
      rw [getElem?_div_of_le (by omega), hzero, List.take_zero, overlay_nil, Nat.min_zero,
        if_neg (by omega)]
      exact ⟨fun _ => rfl, rfl⟩

theorem writeLoop_of_le (h : blocks.length * BlockSize ≤ off) (hp : p ≠ []) :
    writeLoop blocks p.length mem off p = (mem, 0, some .capacityExceeded) := by
  cases p with
  | nil => exact absurd rfl hp
  | cons b bs => rw [List.length_cons, writeLoop, if_neg hp, getElem?_div_of_le h]

theorem writeLoop_of_none (hf : p.length ≤ fuel) (h : (writeLoop blocks fuel mem off p).2.2 = none) :
    (writeLoop blocks fuel mem off p).2.1 = p.length := by
  induction fuel generalizing mem off p with
  | zero => exact (Nat.le_zero.1 hf).symm
  | succ fuel ih =>
    rw [writeLoop] at h ⊢
    split_ifs at h ⊢ with hp
    · rw [hp, List.length_nil]
    · have hpos := List.length_pos_iff.2 hp
      have hmod := Nat.mod_lt off (show BlockSize > 0 by decide)
      cases hb : blocks[off / BlockSize]? with
      | none =>
        rw [hb] at h
        cases h
      | some b =>
        rw [hb] at h
        dsimp only at h ⊢
        rw [ih (by rw [List.length_drop]; omega) h, List.length_drop]
        omega

theorem writeLoop_of_notMem {b : BlockId} (hb : b ∉ blocks) :
    (writeLoop blocks fuel mem off p).1 b = mem b := by
  induction fuel generalizing mem off p with
  | zero => rfl
  | succ fuel ih =>
    rw [writeLoop]
    split_ifs
    · rfl
    · split
      · rfl
      · rename_i c hc
        have hne : b ≠ c := by
          rintro rfl
          exact hb (List.mem_of_getElem? hc)
        rw [ih, Function.update_of_ne hne]

/-! ## Skipping the header block -/

theorem getElem?_skip : blocks[(off + BlockSize) / BlockSize]? = blocks.tail[off / BlockSize]? := by
  rw [Nat.add_div_right _ (by decide), List.getElem?_tail]

theorem readLoop_skip :
    readLoop mem blocks fuel (off + BlockSize) n = readLoop mem blocks.tail fuel off n := by
  induction fuel generalizing off n with
  | zero => rfl
  | succ fuel ih =>
    rw [readLoop, readLoop, getElem?_skip, Nat.add_mod_right]
    simp only [Nat.add_right_comm off BlockSize, ih]

theorem viewLoop_skip :
    viewLoop blocks fuel (off + BlockSize) n = viewLoop blocks.tail fuel off n := by
  induction fuel generalizing off n with
  | zero => rfl
  | succ fuel ih =>
    rw [viewLoop, viewLoop, getElem?_skip, Nat.add_mod_right]
    simp only [Nat.add_right_comm off BlockSize, ih]

theorem writeLoop_skip :
    writeLoop blocks fuel mem (off + BlockSize) p = writeLoop blocks.tail fuel mem off p := by
  induction fuel generalizing mem off p with
  | zero => rfl
  | succ fuel ih =>
    rw [writeLoop, writeLoop, getElem?_skip, Nat.add_mod_right]
    simp only [Nat.add_right_comm off BlockSize, ih]

/-- `ReadAt` copies the pieces that `View` collects. -/
theorem readLoop_fst : (readLoop mem blocks fuel off n).1 =
    (viewLoop blocks fuel off n).flatMap fun g => window (mem g.block).byte g.innerOff g.copyLen := by
  induction fuel generalizing off n with
  | zero => rfl
  | succ fuel ih =>
    rw [readLoop, viewLoop]
    split_ifs
    · rfl
    · split
      · rfl
      · dsimp only
        rw [List.flatMap_cons, ih]

/-! ## The operations -/

namespace Stripe

/-- The block that `Blocks[0]` refers to. -/
def header (s : Stripe) : BlockId := s.blocks.headD (0, 0)

/-- The bytes that the user can reach: those of all blocks but the first. -/
def capacity (s : Stripe) : ℕ := s.blocks.tail.length * BlockSize

/-- The data of the stripe, as the user sees it. -/
def content (s : Stripe) (mem : Memory) : ℕ → UInt8 := flat mem s.blocks.tail

/-- `UpdateDataLen`. -/
def updateDataLen (s : Stripe) (mem : Memory) (newLen : UInt32) : Stripe × Memory :=
  ({ s with dataLen := newLen },
    Function.update mem s.header (putDataLen (mem s.header) newLen))

/-- `Truncate`. -/
def truncate (s : Stripe) (mem : Memory) (newLen : UInt32) : Stripe × Memory :=
  if newLen > s.dataLen then (s, mem) else s.updateDataLen mem newLen

/-- The bytes read, and the error. -/
def readAt (s : Stripe) (mem : Memory) (len : ℕ) (off : ℤ) : List UInt8 × Option IOError :=
  if off < 0 then ([], some .negativeOffset)
  else if off ≥ s.dataLen.toNat then ([], some .eof)
  else
    let off := off.toNat
    let remaining := if off + len > s.dataLen.toNat then s.dataLen.toNat - off else len
    readLoop mem s.blocks remaining (off + BlockSize) remaining

/-- `ReadByteAt`. -/
def readByteAt (s : Stripe) (mem : Memory) (off : ℤ) : Except IOError UInt8 :=
  if off < 0 then .error .negativeOffset
  else if off ≥ s.dataLen.toNat then .error .eof
  else
    let off := off.toNat + BlockSize
    match s.blocks[off / BlockSize]? with
    | none => .error .eof
    | some b => .ok ((mem b).byte (off % BlockSize))

/-- The stripe and the memory, the number of bytes written, and the error.  Offsets are `int64`s;
where the header's size does not fit on top, the first block index is negative. -/
def writeAt (s : Stripe) (mem : Memory) (p : List UInt8) (off : ℤ) :
    (Stripe × Memory) × ℕ × Option IOError :=
  if off < 0 then ((s, mem), 0, some .negativeOffset)
  else if off + BlockSize ≥ 2 ^ 63 then ((s, mem), 0, if p = [] then none else some .panic)
  else
    let r := writeLoop s.blocks p.length mem (off.toNat + BlockSize) p
    let newEnd : UInt32 := .ofNat (off.toNat + r.2.1)
    (if 0 < r.2.1 ∧ newEnd > s.dataLen then s.updateDataLen r.1 newEnd else (s, r.1), r.2)

/-- `WriteByteAt`. -/
def writeByteAt (s : Stripe) (mem : Memory) (b : UInt8) (off : ℤ) :
    (Stripe × Memory) × Option IOError :=
  if off < 0 then ((s, mem), some .negativeOffset)
  else if off + BlockSize ≥ 2 ^ 63 then ((s, mem), some .panic)
  else
    let off := off.toNat + BlockSize
    match s.blocks[off / BlockSize]? with
    | none => ((s, mem), some .capacityExceeded)
    | some blk =>
      let mem := Function.update mem blk ((mem blk).setByte (off % BlockSize) b)
      let newEnd : UInt32 := .ofNat (off - BlockSize + 1)
      (if newEnd > s.dataLen then s.updateDataLen mem newEnd else (s, mem), none)

/-- The segments and the length of the `Viewer`. -/
def view (s : Stripe) (offset length : ℤ) : Except IOError (List Segment × ℕ) :=
  if offset < 0 then .error .negativeOffset
  else if offset ≥ s.dataLen.toNat then .error .eof
  else
    let n := min (UInt32.ofInt (offset + length)) s.dataLen
    if n.toNat ≤ offset then .error .eof
    else
      let actualLen := n.toNat - offset.toNat
      .ok (viewLoop s.blocks actualLen (offset.toNat + BlockSize) actualLen, actualLen)

/-! ## What the operations do -/

variable {s : Stripe} {off : ℤ}

theorem content_updateDataLen (hh : s.header ∉ s.blocks.tail) (newLen : UInt32) :
    (s.updateDataLen mem newLen).1.content (s.updateDataLen mem newLen).2 = s.content mem := by
  funext i
  refine flat_congr rfl fun b hb => Function.update_of_ne ?_ _ _
  rintro rfl
  exact hh (List.mem_of_getElem? hb)

theorem readLoop_one {off : ℕ} : readLoop mem blocks 1 off 1 =
    match blocks[off / BlockSize]? with
    | none => ([], some .eof)
    | some b => ([(mem b).byte (off % BlockSize)], none) := by
  have hmod := Nat.mod_lt off (show BlockSize > 0 by decide)
  have hk : min (BlockSize - off % BlockSize) 1 = 1 := by omega
  rw [readLoop, if_neg one_ne_zero]
  cases blocks[off / BlockSize]? with
  | none => rfl
  | some b =>
    simp only [hk, window, List.range_one, List.map_singleton, Nat.add_zero, readLoop,
      List.append_nil]

/-- Below the data length, and within the blocks, `ReadAt` reads a window of the data. -/
theorem readAt_eq (hcap : s.dataLen.toNat ≤ s.capacity) {len : ℕ} (h0 : 0 ≤ off)
    (hlt : off < s.dataLen.toNat) :
    s.readAt mem len off =
      (window (s.content mem) off.toNat (min len (s.dataLen.toNat - off.toNat)), none) := by
  have hrem : (if off.toNat + len > s.dataLen.toNat then s.dataLen.toNat - off.toNat else len) =
      min len (s.dataLen.toNat - off.toNat) := by
    split_ifs <;> omega
  rw [readAt, if_neg (by omega), if_neg (by omega)]
  dsimp only
  rw [hrem, readLoop_skip]
  refine readLoop_eq ?_ le_rfl
  unfold capacity at hcap
  omega

theorem readByteAt_eq (hcap : s.dataLen.toNat ≤ s.capacity) (h0 : 0 ≤ off)
    (hlt : off < s.dataLen.toNat) : s.readByteAt mem off = .ok (s.content mem off.toNat) := by
  unfold capacity at hcap
  have hidx := div_lt_of_lt (show off.toNat < s.blocks.tail.length * BlockSize by omega)
  rw [readByteAt, if_neg (by omega), if_neg (by omega)]
  dsimp only
  rw [getElem?_skip, List.getElem?_eq_getElem hidx]
  simp only [content, flat, List.getElem?_eq_getElem hidx, Option.map_some, Option.getD_some,
    Nat.add_mod_right]

theorem writeAt_mem (h0 : 0 ≤ off) (hoff : off + BlockSize < 2 ^ 63) :
    s.writeAt mem p off =
      let r := writeLoop s.blocks.tail p.length mem off.toNat p
      let newEnd : UInt32 := .ofNat (off.toNat + r.2.1)
      (if 0 < r.2.1 ∧ newEnd > s.dataLen then s.updateDataLen r.1 newEnd else (s, r.1), r.2) := by
  rw [writeAt, if_neg (by omega), if_neg (by omega)]
  simp only [writeLoop_skip]

theorem writeAt_of_none (h : (s.writeAt mem p off).2.2 = none) :
    (s.writeAt mem p off).2.1 = p.length := by
  unfold writeAt at h ⊢
  split_ifs at h ⊢ with h1 h2 h3
  · rw [h3]
    rfl
  · exact writeLoop_of_none le_rfl h

/-- A write changes nothing of the stripe but its data length. -/
theorem exists_writeAt_stripe : ∃ n, (s.writeAt mem p off).1.1 = { s with dataLen := n } := by
  unfold writeAt
  split_ifs
  · exact ⟨s.dataLen, rfl⟩
  · exact ⟨s.dataLen, rfl⟩
  · exact ⟨s.dataLen, rfl⟩
  · dsimp only
    split_ifs
    · exact ⟨_, rfl⟩
    · exact ⟨s.dataLen, rfl⟩

theorem blit_singleton (m : Bytes) (i : ℕ) (b : UInt8) : blit m i [b] = m.setByte i b := by
  funext j
  rw [blit, Bytes.setByte, overlay]
  by_cases hj : j.val = i
  · rw [if_pos hj, if_pos (by omega), hj, Nat.sub_self]
    rfl
  · have hbyte : m.byte j.val = m j := dif_pos j.isLt
    rw [if_neg hj, hbyte]
    split_ifs with hle
    · rw [List.getElem?_eq_none (by simp; omega), Option.getD_none]
    · rfl

/-- `WriteByteAt` is `WriteAt` with one byte. -/
theorem writeByteAt_eq (b : UInt8) :
    s.writeByteAt mem b off = ((s.writeAt mem [b] off).1, (s.writeAt mem [b] off).2.2) := by
  rw [writeByteAt, writeAt]
  split_ifs with h1 h2 h3
  · rfl
  · cases h3
  · rfl
  · simp only [List.length_singleton, writeLoop, List.cons_ne_nil, if_false]
    cases hblk : s.blocks[(off.toNat + BlockSize) / BlockSize]? with
    | none => simp
    | some blk =>
      have hmod := Nat.mod_lt (off.toNat + BlockSize) (show BlockSize > 0 by decide)
      have hk : min (BlockSize - (off.toNat + BlockSize) % BlockSize) 1 = 1 := by omega
      simp only [hk, List.take_succ_cons, List.take_zero, blit_singleton, Nat.add_sub_cancel,
        Nat.add_zero, Nat.zero_lt_one, true_and]

/-- The data length after a write that fits, without wraparound. -/
theorem toNat_newLen {off len : ℕ} (h : off + len < 2 ^ 32) :
    (s.newLen off len).toNat = if len = 0 then s.dataLen.toNat
      else max s.dataLen.toNat (off + len) := by
  have hnat : (UInt32.ofNat (off + len)).toNat = off + len := UInt32.toNat_ofNat_of_lt' h
  unfold newLen
  split_ifs with h1 h2 h2
  · omega
  · have := UInt32.lt_iff_toNat_lt.1 h1.2
    omega
  · rfl
  · have hle : ¬ s.dataLen < .ofNat (off + len) := fun hlt => h1 ⟨by omega, hlt⟩
    rw [UInt32.lt_iff_toNat_lt] at hle
    omega

/-- The number of bytes of a write that fit. -/
def fitting (s : Stripe) (p : List UInt8) (off : ℤ) : ℕ := min p.length (s.capacity - off.toNat)

section Write

variable (h0 : 0 ≤ off) (hoff : off + BlockSize < 2 ^ 63)

include h0 hoff

/-- `WriteAt` writes what fits and raises the data length to the end of that. -/
theorem writeAt_eq :
    s.writeAt mem p off =
      (if s.newLen off.toNat (s.fitting p off) = s.dataLen then
          (s, (writeLoop s.blocks.tail p.length mem off.toNat p).1)
        else s.updateDataLen (writeLoop s.blocks.tail p.length mem off.toNat p).1
          (s.newLen off.toNat (s.fitting p off)),
        s.fitting p off,
        if p.length ≤ s.capacity - off.toNat then none else some .capacityExceeded) := by
  have hres := (@writeLoop_eq mem s.blocks.tail off.toNat p.length p le_rfl).2
  rw [writeAt, if_neg (by omega), if_neg (by omega)]
  simp only [writeLoop_skip, hres]
  refine Prod.ext ?_ rfl
  change (if 0 < s.fitting p off ∧ s.dataLen < .ofNat (off.toNat + s.fitting p off) then
    s.updateDataLen _ (.ofNat (off.toNat + s.fitting p off)) else (s, _)) = _
  by_cases h : 0 < s.fitting p off ∧ s.dataLen < .ofNat (off.toNat + s.fitting p off)
  · have hne : UInt32.ofNat (off.toNat + s.fitting p off) ≠ s.dataLen := fun he =>
      UInt32.lt_irrefl _ (he ▸ h.2)
    simp only [newLen, if_pos h, if_neg hne]
  · simp only [newLen, if_neg h, if_true]

theorem writeAt_of_fits (hend : off + p.length ≤ s.capacity) :
    (s.writeAt mem p off).2 = (p.length, none) := by
  have hfit : s.fitting p off = p.length := by
    rw [fitting]
    omega
  have hle : p.length ≤ s.capacity - off.toNat := by omega
  simp only [writeAt_eq h0 hoff, hfit, if_pos hle]

theorem writeAt_stripe :
    (s.writeAt mem p off).1.1 = { s with dataLen := s.newLen off.toNat (s.fitting p off) } := by
  rw [writeAt_eq h0 hoff]
  dsimp only
  split_ifs with h
  · rw [h]
  · rfl

theorem writeAt_header (hh : s.header ∉ s.blocks.tail) :
    (s.writeAt mem p off).1.2 s.header =
      if s.newLen off.toNat (s.fitting p off) = s.dataLen then mem s.header
      else putDataLen (mem s.header) (s.newLen off.toNat (s.fitting p off)) := by
  rw [writeAt_eq h0 hoff]
  dsimp only
  split_ifs
  · exact writeLoop_of_notMem hh
  · simp only [updateDataLen, Function.update_self, writeLoop_of_notMem hh]

theorem writeAt_of_notMem {b : BlockId} (hb : b ∉ s.blocks.tail) (hne : b ≠ s.header) :
    (s.writeAt mem p off).1.2 b = mem b := by
  rw [writeAt_eq h0 hoff]
  dsimp only
  split_ifs
  · exact writeLoop_of_notMem hb
  · simp only [updateDataLen, Function.update_of_ne hne, writeLoop_of_notMem hb]

theorem content_writeAt (hnd : s.blocks.tail.Nodup) (hh : s.header ∉ s.blocks.tail) :
    s.content (s.writeAt mem p off).1.2 =
      overlay (s.content mem) off.toNat (p.take (s.fitting p off)) := by
  have htake : p.take (s.fitting p off) = p.take (s.blocks.tail.length * BlockSize - off.toNat) := by
    rw [fitting, min_comm, ← List.take_eq_take_min]
    rfl
  rw [writeAt_eq h0 hoff, htake]
  refine Eq.trans ?_ ((@writeLoop_eq mem s.blocks.tail off.toNat p.length p le_rfl).1 hnd)
  dsimp only
  split_ifs
  · rfl
  · exact content_updateDataLen hh _

end Write

/-- `ReadByteAt` is `ReadAt` with a buffer of one byte. -/
theorem readAt_one :
    s.readAt mem 1 off = match s.readByteAt mem off with
      | .ok b => ([b], none)
      | .error err => ([], some err) := by
  rw [readAt, readByteAt]
  by_cases h0 : off < 0
  · rw [if_pos h0, if_pos h0]
  by_cases hlen : off ≥ s.dataLen.toNat
  · rw [if_neg h0, if_pos hlen, if_neg h0, if_pos hlen]
  have hone : (if off.toNat + 1 > s.dataLen.toNat then s.dataLen.toNat - off.toNat else 1) = 1 :=
    if_neg (by omega)
  rw [if_neg h0, if_neg hlen, if_neg h0, if_neg hlen]
  dsimp only
  rw [hone, readLoop_one]
  cases s.blocks[(off.toNat + BlockSize) / BlockSize]? with
  | none => rfl
  | some b => rfl

theorem header_notMem_tail (hne : s.blocks ≠ []) (hnd : s.blocks.Nodup) :
    s.header ∉ s.blocks.tail := by
  obtain ⟨b, bs, hb⟩ := List.exists_cons_of_ne_nil hne
  rw [header, hb]
  rw [hb] at hnd
  exact (List.nodup_cons.1 hnd).1

theorem window_writeAt_of_fits (hne : s.blocks ≠ []) (hnd : s.blocks.Nodup) (h0 : 0 ≤ off)
    (hoff : off + BlockSize < 2 ^ 63) (hend : off + p.length ≤ s.capacity) :
    window ((s.writeAt mem p off).1.1.content (s.writeAt mem p off).1.2) off.toNat p.length = p := by
  have hfit : s.fitting p off = p.length := by
    rw [fitting]
    omega
  obtain ⟨n, hn⟩ := @exists_writeAt_stripe mem p s off
  have hcontent := @content_writeAt mem p s off h0 hoff (hnd.sublist (List.tail_sublist _))
    (header_notMem_tail hne hnd)
  rw [hn]
  change window (s.content _) _ _ = p
  rw [hcontent, hfit, List.take_length]
  exact window_overlay

/-- A stripe is an array of bytes, of which a prefix of the given length has been written: `WriteAt`
stores what fits and nothing else, `ReadAt` reads up to the data length, and the operations on single
bytes do the same as those on buffers of one byte. -/
theorem stripe_is_flat (s : Stripe) (mem : Memory) (hne : s.blocks ≠ []) (hnd : s.blocks.Nodup)
    (hcap : s.capacity < 2 ^ 32) (hlen : s.dataLen.toNat ≤ s.capacity) :
    (∀ (p : List UInt8) (off : ℤ), 0 ≤ off → off + BlockSize + p.length < 2 ^ 63 →
      let n := min p.length (s.capacity - off.toNat)
      let w := s.writeAt mem p off
      w.2.1 = n ∧ (w.2.2 ≠ none ↔ n < p.length) ∧ w.1.1.blocks = s.blocks ∧
      w.1.1.content w.1.2 = overlay (s.content mem) off.toNat (p.take n) ∧
      (∀ i, 4 ≤ i → (w.1.2 s.header).byte i = (mem s.header).byte i) ∧
      (∀ b, b ∉ s.blocks → w.1.2 b = mem b) ∧
      w.1.1.dataLen.toNat =
        (if n = 0 then s.dataLen.toNat else max s.dataLen.toNat (off.toNat + n)) ∧
      ((s.readAt mem p.length off).2 = some .eof ↔ s.dataLen.toNat ≤ off) ∧
      (off < s.dataLen.toNat → s.readAt mem p.length off =
        (window (s.content mem) off.toNat (min p.length (s.dataLen.toNat - off.toNat)), none))) ∧
    (∀ (b : UInt8) (off : ℤ),
      s.writeByteAt mem b off = ((s.writeAt mem [b] off).1, (s.writeAt mem [b] off).2.2)) ∧
    ∀ off : ℤ, s.readAt mem 1 off = match s.readByteAt mem off with
      | .ok b => ([b], none)
      | .error err => ([], some err) := by
  refine ⟨fun p off h0 hlt => ?_, fun b off => writeByteAt_eq b, fun off => readAt_one⟩
  intro n w
  have hoff : off + BlockSize < 2 ^ 63 := by omega
  have hh := header_notMem_tail hne hnd
  have htail : s.blocks.tail.Nodup := hnd.sublist (List.tail_sublist _)
  have hw : w.2 = (n, if p.length ≤ s.capacity - off.toNat then none else some .capacityExceeded) :=
    congrArg Prod.snd (writeAt_eq h0 hoff)
  have hstripe : w.1.1 = { s with dataLen := s.newLen off.toNat n } := writeAt_stripe h0 hoff
  refine ⟨by rw [hw], ?_, by rw [hstripe], ?_, fun i hi => ?_, fun b hb => ?_, ?_, ?_, fun hlt => ?_⟩
  · rw [hw]
    dsimp only
    split_ifs with hle
    · simp only [ne_eq, not_true_eq_false, false_iff]
      omega
    · simp only [ne_eq, reduceCtorEq, not_false_eq_true, true_iff]
      omega
  · have hcontent := @content_writeAt mem p s off h0 hoff htail hh
    rw [hstripe]
    exact hcontent
  · rw [show w.1.2 s.header = _ from writeAt_header h0 hoff hh]
    split_ifs
    · rfl
    · exact byte_putDataLen _ _ hi
  · refine writeAt_of_notMem h0 hoff (fun hm => hb (List.mem_of_mem_tail hm)) ?_
    rintro rfl
    obtain ⟨b, bs, hbs⟩ := List.exists_cons_of_ne_nil hne
    rw [header, hbs] at hb
    exact hb List.mem_cons_self
  · rw [hstripe]
    by_cases hn : n = 0
    · rw [hn, newLen, if_neg (by omega), if_pos rfl]
    · exact toNat_newLen (by omega)
  · constructor
    · intro he
      by_contra hlt
      rw [readAt_eq hlen h0 (by omega)] at he
      cases he
    · intro hle
      rw [readAt, if_neg (by omega), if_pos hle]
  · exact readAt_eq hlen h0 hlt

/-- Three bytes at the end of a stripe of two blocks: two of them fit. -/
theorem stripe_is_flat_twoBlocks :
    ((allocStripe [(-1, 256), (-1, 257)]).writeAt (fun _ _ => 0) [1, 2, 3] 4094).2.1 = 2 ∧
    ((allocStripe [(-1, 256), (-1, 257)]).writeAt (fun _ _ => 0) [1, 2, 3] 4094).2.2 ≠ none := by
  obtain ⟨h, -⟩ := stripe_is_flat (allocStripe [(-1, 256), (-1, 257)]) (fun _ _ => 0) (by decide)
    (by decide) (by decide +kernel) (by decide +kernel)
  obtain ⟨hn, herr, -⟩ := h [1, 2, 3] 4094 (by decide) (by decide +kernel)
  exact ⟨hn.trans (by decide +kernel), herr.2 (by decide +kernel)⟩

end Stripe

end Mmfg.Shm
