import Mmfg.Layout
import Mathlib.Tactic

/-!
# The header block of a stripe

The first block of a stripe starts with its data length, block count and sequence length, followed
by the sequence as little-endian `int16`s.  `UpdateStripeHeader` and `DecodeHeader` both stop
silently at the end of the block, where 2044 entries fit: what is decoded is the sequence cut to
2044 entries and filled up with zeros (`decodeHeader_update`).
-/

namespace Mmfg.Shm

/-- The memory of a block. -/
abbrev Bytes := Fin BlockSize → UInt8

namespace Bytes

/-- The byte at an offset. -/
def byte (b : Bytes) (off : ℕ) : UInt8 := if h : off < BlockSize then b ⟨off, h⟩ else 0

/-- A store of one byte. -/
def setByte (b : Bytes) (off : ℕ) (v : UInt8) : Bytes := fun i => if i.val = off then v else b i

/-- `binary.LittleEndian.PutUint16`. -/
def putUint16 (b : Bytes) (off : ℕ) (v : UInt16) : Bytes :=
  (b.setByte off (.ofNat (v.toNat % 256))).setByte (off + 1) (.ofNat (v.toNat / 256))

/-- `binary.LittleEndian.Uint16`. -/
def uint16 (b : Bytes) (off : ℕ) : UInt16 :=
  .ofNat ((b.byte off).toNat + 256 * (b.byte (off + 1)).toNat)

/-- `binary.LittleEndian.PutUint32`. -/
def putUint32 (b : Bytes) (off : ℕ) (v : UInt32) : Bytes :=
  (b.putUint16 off (.ofNat (v.toNat % 65536))).putUint16 (off + 2) (.ofNat (v.toNat / 65536))

/-- `binary.LittleEndian.Uint32`. -/
def uint32 (b : Bytes) (off : ℕ) : UInt32 :=
  .ofNat ((b.uint16 off).toNat + 65536 * (b.uint16 (off + 2)).toNat)

variable {b : Bytes} {off i : ℕ}

theorem byte_setByte (h : i < BlockSize) (v : UInt8) :
    (b.setByte off v).byte i = if i = off then v else b.byte i := by
  simp only [byte, setByte, h, dif_pos]

theorem uint16_putUint16 (h : off + 1 < BlockSize) (v : UInt16) :
    (b.putUint16 off v).uint16 off = v := by
  have hv := v.toNat_lt
  have h0 : (b.putUint16 off v).byte off = .ofNat (v.toNat % 256) := by
    rw [putUint16, byte_setByte (by omega), if_neg (by omega), byte_setByte (by omega), if_pos rfl]
  have h1 : (b.putUint16 off v).byte (off + 1) = .ofNat (v.toNat / 256) := by
    rw [putUint16, byte_setByte h, if_pos rfl]
  rw [uint16, h0, h1]
  apply UInt16.toNat_inj.1
  simp only [UInt8.toNat_ofNat', UInt16.toNat_ofNat']
  omega

theorem byte_putUint16_ne (v : UInt16) (h0 : i ≠ off) (h1 : i ≠ off + 1) :
    (b.putUint16 off v).byte i = b.byte i := by
  unfold putUint16 byte
  split_ifs
  · simp only [setByte, if_neg h0, if_neg h1]
  · rfl

theorem uint16_putUint16_ne (v : UInt16) (h : off + 1 < i ∨ i + 1 < off) :
    (b.putUint16 off v).uint16 i = b.uint16 i := by
  rw [uint16, uint16, byte_putUint16_ne v (by omega) (by omega),
    byte_putUint16_ne v (by omega) (by omega)]

theorem uint32_putUint32 (h : off + 3 < BlockSize) (v : UInt32) :
    (b.putUint32 off v).uint32 off = v := by
  have hv := v.toNat_lt
  rw [uint32, putUint32, uint16_putUint16_ne _ (by omega), uint16_putUint16 (by omega),
    uint16_putUint16 (by omega)]
  apply UInt32.toNat_inj.1
  simp only [UInt16.toNat_ofNat', UInt32.toNat_ofNat']
  omega

theorem uint16_putUint32_ne (v : UInt32) (h : off + 3 < i ∨ i + 1 < off) :
    (b.putUint32 off v).uint16 i = b.uint16 i := by
  rw [putUint32, uint16_putUint16_ne _ (by omega), uint16_putUint16_ne _ (by omega)]

theorem uint32_putUint16_ne (v : UInt16) (h : i + 3 < off) :
    (b.putUint16 off v).uint32 i = b.uint32 i := by
  rw [uint32, uint32, uint16_putUint16_ne _ (by omega), uint16_putUint16_ne _ (by omega)]

end Bytes

open Bytes

/-- The loop of `UpdateStripeHeader` over the sequence, from index `i` on. -/
def putSequence : List Int16 → ℕ → Bytes → Bytes
  | [], _, b => b
  | val :: rest, i, b =>
    let off := 8 + i * 2
    if off + 2 > BlockSize then b else putSequence rest (i + 1) (b.putUint16 off val.toUInt16)

/-- `UpdateStripeHeader`: data length, block count and sequence into the header block. -/
def updateStripeHeader (dataLen : UInt32) (blockCount : ℕ) (sequence : List Int16)
    (headerData : Bytes) : Bytes :=
  let b := headerData.putUint32 0 dataLen
  let b := b.putUint16 4 (.ofNat blockCount)
  let b := b.putUint16 6 (.ofNat sequence.length)
  putSequence sequence 0 b

/-- The entries that `DecodeHeader` reads into a slice of zeros, up to the end of the block. -/
def getSequence (headerData : Bytes) (seqLen : ℕ) : List Int16 :=
  (List.range seqLen).map fun i =>
    let off := 8 + i * 2
    if off + 2 > BlockSize then 0 else (headerData.uint16 off).toInt16

/-- `DecodeHeader`: data length, block count and sequence. -/
def decodeHeader (headerData : Bytes) : UInt32 × ℕ × List Int16 :=
  (headerData.uint32 0, (headerData.uint16 4).toNat,
    getSequence headerData (headerData.uint16 6).toNat)

/-- `updateDataLen` stores the length field alone. -/
def putDataLen (b : Bytes) (dataLen : UInt32) : Bytes := b.putUint32 0 dataLen

theorem putSequence_uint16_lt {off : ℕ} (h : off + 1 < 8) (seq : List Int16) :
    ∀ (i : ℕ) (b : Bytes), (putSequence seq i b).uint16 off = b.uint16 off := by
  induction seq with
  | nil => exact fun i b => rfl
  | cons val rest ih =>
    intro i b
    simp only [putSequence]
    split_ifs with hc
    · rfl
    · rw [ih, uint16_putUint16_ne _ (by omega)]

theorem putSequence_uint32_zero (seq : List Int16) (i : ℕ) (b : Bytes) :
    (putSequence seq i b).uint32 0 = b.uint32 0 := by
  rw [uint32, uint32, putSequence_uint16_lt (by omega), putSequence_uint16_lt (by omega)]

/-- Entry `j` of the sequence after the loop: what was stored, as far as the block reaches. -/
theorem putSequence_uint16 (seq : List Int16) : ∀ (i j : ℕ) (b : Bytes), j < HeaderEntries →
    (putSequence seq i b).uint16 (8 + j * 2) =
      if i ≤ j then (seq[j - i]?).elim (b.uint16 (8 + j * 2)) Int16.toUInt16
      else b.uint16 (8 + j * 2) := by
  induction seq with
  | nil =>
    intro i j b _
    simp [putSequence]
  | cons val rest ih =>
    intro i j b hj
    simp only [HeaderEntries] at hj
    simp only [putSequence, BlockSize]
    split_ifs with hc hij hij
    · omega
    · rfl
    · rw [ih _ _ _ (by simpa using hj)]
      by_cases he : i = j
      · subst he
        rw [if_neg (by omega), uint16_putUint16 (by simp only [BlockSize]; omega)]
        simp
      · rw [if_pos (by omega), uint16_putUint16_ne _ (by omega),
          show j - i = (j - (i + 1)) + 1 by omega, List.getElem?_cons_succ]
    · rw [ih _ _ _ (by simpa using hj), if_neg (by omega), uint16_putUint16_ne _ (by omega)]

/-- What `DecodeHeader` makes of a header that `UpdateStripeHeader` wrote: the entries that fit,
and zeros for the others. -/
theorem decodeHeader_update {dataLen : UInt32} {blockCount : ℕ} {seq : List Int16} {b : Bytes}
    (hb : blockCount < 2 ^ 16) (hs : seq.length < 2 ^ 16) :
    decodeHeader (updateStripeHeader dataLen blockCount seq b) =
      (dataLen, blockCount,
        seq.take HeaderEntries ++ List.replicate (seq.length - HeaderEntries) 0) := by
  have h6 : ((updateStripeHeader dataLen blockCount seq b).uint16 6).toNat = seq.length := by
    simp only [updateStripeHeader]
    rw [putSequence_uint16_lt (by omega), uint16_putUint16 (by simp only [BlockSize]; omega)]
    simp only [UInt16.toNat_ofNat']
    omega
  have h4 : ((updateStripeHeader dataLen blockCount seq b).uint16 4).toNat = blockCount := by
    simp only [updateStripeHeader]
    rw [putSequence_uint16_lt (by omega), uint16_putUint16_ne _ (by omega),
      uint16_putUint16 (by simp only [BlockSize]; omega)]
    simp only [UInt16.toNat_ofNat']
    omega
  have h0 : (updateStripeHeader dataLen blockCount seq b).uint32 0 = dataLen := by
    simp only [updateStripeHeader]
    rw [putSequence_uint32_zero, uint32_putUint16_ne _ (by omega), uint32_putUint16_ne _ (by omega),
      uint32_putUint32 (by simp only [BlockSize]; omega)]
  refine Prod.ext h0 (Prod.ext h4 ?_)
  simp only [decodeHeader, h6]
  apply List.ext_getElem?
  intro j
  simp only [getSequence, List.getElem?_map, List.getElem?_append, List.getElem?_take,
    List.length_take, List.getElem?_replicate, HeaderEntries, BlockSize]
  by_cases hj : j < seq.length
  · rw [List.getElem?_range hj]
    by_cases hfit : j < 2044
    · rw [if_pos (by omega), if_pos hfit]
      simp only [Option.map_some]
      rw [if_neg (by omega)]
      simp only [updateStripeHeader]
      rw [putSequence_uint16 _ _ _ _ (by simpa using hfit), if_pos (Nat.zero_le _), Nat.sub_zero,
        List.getElem?_eq_getElem hj]
      simp
    · rw [if_neg (by omega), if_pos (by omega)]
      simp only [Option.map_some]
      rw [if_pos (by omega)]
  · rw [List.getElem?_eq_none (by simp; omega)]
    split_ifs with h1 h2
    · omega
    · omega
    · omega
    · rfl

/-- A sequence that fits is decoded as it was stored. -/
theorem decodeHeader_update_of_le {dataLen : UInt32} {blockCount : ℕ} {seq : List Int16} {b : Bytes}
    (hb : blockCount < 2 ^ 16) (hs : seq.length ≤ HeaderEntries) :
    decodeHeader (updateStripeHeader dataLen blockCount seq b) = (dataLen, blockCount, seq) := by
  rw [decodeHeader_update hb (by simp only [HeaderEntries] at hs; omega), List.take_of_length_le hs,
    Nat.sub_eq_zero_of_le hs]
  simp

/-- The length field has four bytes. -/
theorem byte_putDataLen (b : Bytes) (dataLen : UInt32) {i : ℕ} (h : 4 ≤ i) :
    (putDataLen b dataLen).byte i = b.byte i := by
  rw [putDataLen, putUint32, byte_putUint16_ne _ (by omega) (by omega),
    byte_putUint16_ne _ (by omega) (by omega)]

theorem decodeHeader_putDataLen (b : Bytes) (dataLen : UInt32) :
    decodeHeader (putDataLen b dataLen) = (dataLen, (decodeHeader b).2) := by
  have h : ∀ off, 4 ≤ off → (putDataLen b dataLen).uint16 off = b.uint16 off := fun off ho =>
    uint16_putUint32_ne _ (by omega)
  simp only [decodeHeader, getSequence, h 4 le_rfl, h 6 (by omega)]
  refine Prod.ext (uint32_putUint32 (by simp only [BlockSize]; omega) _) (Prod.ext rfl ?_)
  refine List.map_congr_left fun i _ => ?_
  rw [h _ (by omega)]

end Mmfg.Shm
