import Mmfg.Rust.Stripe

/-!
# The header block as a code

`UpdateStripeHeader` and `DecodeHeader` are inverse to each other, as far as the sequence fits in the
block: what was stored is decoded, and what was decoded gives back the bytes it was decoded from,
whatever had been in the place of those bytes.  A Rust node reads the same values.
-/

namespace Mmfg.Shm

open Bytes

variable {b c : Bytes} {off i k n : ℕ}

namespace Bytes

theorem ext_byte (h : ∀ i < BlockSize, b.byte i = c.byte i) : b = c := by
  funext i
  have := h i.val i.isLt
  rwa [byte, byte, dif_pos i.isLt, dif_pos i.isLt] at this

theorem byte_putUint16 (hi : i < BlockSize) (v : UInt16) :
    (b.putUint16 off v).byte i =
      if i = off + 1 then .ofNat (v.toNat / 256) else if i = off then .ofNat (v.toNat % 256)
      else b.byte i := by
  rw [putUint16, byte_setByte hi, byte_setByte hi]

theorem putUint16_uint16 : b.putUint16 off (b.uint16 off) = b := by
  have h0 := (b.byte off).toNat_lt
  have h1 := (b.byte (off + 1)).toNat_lt
  refine ext_byte fun i hi => ?_
  rw [byte_putUint16 hi, uint16, UInt16.toNat_ofNat']
  split_ifs with hhigh hlow
  · rw [hhigh]
    apply UInt8.toNat_inj.1
    rw [UInt8.toNat_ofNat']
    omega
  · rw [hlow]
    apply UInt8.toNat_inj.1
    rw [UInt8.toNat_ofNat']
    omega
  · rfl

theorem putUint32_uint32 : b.putUint32 off (b.uint32 off) = b := by
  have h0 := (b.uint16 off).toNat_lt
  have h1 := (b.uint16 (off + 2)).toNat_lt
  have hlow : UInt16.ofNat ((b.uint32 off).toNat % 65536) = b.uint16 off := by
    apply UInt16.toNat_inj.1
    rw [uint32, UInt32.toNat_ofNat', UInt16.toNat_ofNat']
    omega
  have hhigh : UInt16.ofNat ((b.uint32 off).toNat / 65536) = b.uint16 (off + 2) := by
    apply UInt16.toNat_inj.1
    rw [uint32, UInt32.toNat_ofNat', UInt16.toNat_ofNat']
    omega
  rw [putUint32, hlow, hhigh, putUint16_uint16, putUint16_uint16]

/-- The blocks agree below `k` and from `n` on. -/
def Agree (k n : ℕ) (b c : Bytes) : Prop := ∀ i, i < k ∨ n ≤ i → b.byte i = c.byte i

theorem Agree.putUint16 (h : Agree k n b c) (v : UInt16) :
    Agree (k + 2) n (b.putUint16 k v) (c.putUint16 k v) := by
  intro i hi
  by_cases hlt : i < BlockSize
  · rw [byte_putUint16 hlt, byte_putUint16 hlt]
    split_ifs with h1 h2
    · rfl
    · rfl
    · exact h i (by omega)
  · rw [byte, byte, dif_neg hlt, dif_neg hlt]

theorem Agree.putUint32 (h : Agree k n b c) (v : UInt32) :
    Agree (k + 4) n (b.putUint32 k v) (c.putUint32 k v) :=
  (h.putUint16 _).putUint16 _

end Bytes

/-- The entries fill the gap between two blocks that agree elsewhere. -/
theorem Agree.putSequence {seq : List Int16} (hfit : i + seq.length ≤ HeaderEntries)
    (h : Agree (8 + i * 2) (8 + (i + seq.length) * 2) b c) :
    putSequence seq i b = putSequence seq i c := by
  have hentries : HeaderEntries = 2044 := rfl
  have hsize : BlockSize = 4096 := rfl
  induction seq generalizing i b c with
  | nil =>
    rw [Shm.putSequence, Shm.putSequence]
    rw [List.length_nil] at h
    exact ext_byte fun j _ => h j (by omega)
  | cons val rest ih =>
    rw [List.length_cons] at h hfit
    rw [Shm.putSequence, Shm.putSequence]
    rw [if_neg (by omega), if_neg (by omega)]
    refine ih (by omega) ?_
    have hput := h.putUint16 val.toUInt16
    rwa [show 8 + i * 2 + 2 = 8 + (i + 1) * 2 by omega,
      show i + (rest.length + 1) = i + 1 + rest.length by omega] at hput

theorem putSequence_self (i n : ℕ) (b : Bytes) :
    putSequence ((List.range' i n).map fun j => (b.uint16 (8 + j * 2)).toInt16) i b = b := by
  induction n generalizing i with
  | zero => rfl
  | succ n ih =>
    rw [List.range'_succ, List.map_cons, putSequence]
    split_ifs with hend
    · rfl
    · rw [show (b.uint16 (8 + i * 2)).toInt16.toUInt16 = b.uint16 (8 + i * 2) from rfl,
        putUint16_uint16, ih]

theorem getSequence_eq (b : Bytes) (hn : n ≤ HeaderEntries) :
    getSequence b n = (List.range' 0 n).map fun j => (b.uint16 (8 + j * 2)).toInt16 := by
  have hentries : HeaderEntries = 2044 := rfl
  have hsize : BlockSize = 4096 := rfl
  rw [getSequence, List.range_eq_range']
  refine List.map_congr_left fun j hj => ?_
  have hj := (List.mem_range'_1.1 hj).2
  dsimp only
  rw [if_neg (by omega)]

theorem length_getSequence (b : Bytes) (n : ℕ) : (getSequence b n).length = n := by
  rw [getSequence, List.length_map, List.length_range]

/-- What was decoded, stored over any block with the same bytes behind the sequence, gives back the
block it was decoded from. -/
theorem updateStripeHeader_decodeHeader (hn : (b.uint16 6).toNat ≤ HeaderEntries)
    (hrest : ∀ i, 8 + (b.uint16 6).toNat * 2 ≤ i → c.byte i = b.byte i) :
    updateStripeHeader (decodeHeader b).1 (decodeHeader b).2.1 (decodeHeader b).2.2 c = b := by
  have hsize : BlockSize = 4096 := rfl
  have hlen : (getSequence b (b.uint16 6).toNat).length = (b.uint16 6).toNat :=
    length_getSequence _ _
  -- over another block: the bytes that are not stored are the same
  have hother : updateStripeHeader (decodeHeader b).1 (decodeHeader b).2.1 (decodeHeader b).2.2 c =
      updateStripeHeader (decodeHeader b).1 (decodeHeader b).2.1 (decodeHeader b).2.2 b := by
    have h0 : Agree 0 (8 + (b.uint16 6).toNat * 2) c b := fun i hi => hrest i (by omega)
    refine Agree.putSequence (by rw [Nat.zero_add]; exact hlen.trans_le hn) ?_
    rw [Nat.zero_mul, Nat.zero_add, show (decodeHeader b).2.2.length = (b.uint16 6).toNat from hlen]
    exact ((h0.putUint32 _).putUint16 _).putUint16 _
  rw [hother]
  simp only [updateStripeHeader, decodeHeader, hlen, UInt16.ofNat_toNat]
  rw [putUint32_uint32, putUint16_uint16, putUint16_uint16,
    getSequence_eq b hn, putSequence_self]

theorem byte_putSequence (seq : List Int16) (h : 8 + (i + seq.length) * 2 ≤ k) :
    (putSequence seq i b).byte k = b.byte k := by
  induction seq generalizing i b with
  | nil => rfl
  | cons val rest ih =>
    rw [List.length_cons] at h
    rw [putSequence]
    split_ifs with hend
    · rfl
    · rw [ih (by omega), byte_putUint16_ne _ (by omega) (by omega)]

theorem byte_updateStripeHeader (dataLen : UInt32) (blockCount : ℕ) (seq : List Int16)
    (h : 8 + seq.length * 2 ≤ k) :
    (updateStripeHeader dataLen blockCount seq b).byte k = b.byte k := by
  rw [updateStripeHeader, byte_putSequence seq (by omega), byte_putUint16_ne _ (by omega) (by omega),
    byte_putUint16_ne _ (by omega) (by omega), ← putDataLen, byte_putDataLen _ _ (by omega)]

/-- Header blocks are a code for data length, block count and sequence: every such triple that fits
is decoded as it was stored, nothing else in the block is touched, every block is what its decoded
triple is stored as, and a Rust node reads that triple from it. -/
theorem header_round_trip (dataLen : UInt32) (blockCount : ℕ) (seq : List Int16) (b : Bytes)
    (hcount : blockCount < 2 ^ 16) (hseq : seq.length ≤ HeaderEntries) :
    decodeHeader (updateStripeHeader dataLen blockCount seq b) = (dataLen, blockCount, seq) ∧
    (∀ i, 8 + seq.length * 2 ≤ i →
      (updateStripeHeader dataLen blockCount seq b).byte i = b.byte i) ∧
    ∀ h : Bytes, (h.uint16 6).toNat ≤ HeaderEntries →
      (∀ c : Bytes, (∀ i, 8 + (h.uint16 6).toNat * 2 ≤ i → c.byte i = h.byte i) →
        updateStripeHeader (decodeHeader h).1 (decodeHeader h).2.1 (decodeHeader h).2.2 c = h) ∧
      ∀ (chunks : List Chunk) (mem : Memory) (s : Rust.Stripe) (p : BlockId),
        Rust.physical chunks s.header = some p → mem p = h →
        s.getMeta chunks mem = ((decodeHeader h).1, (decodeHeader h).2.1) ∧
        s.refreshSequence chunks mem = some { s with
          dataLen := (decodeHeader h).1
          blockCount := (decodeHeader h).2.1
          sequence := (decodeHeader h).2.2 } := by
  refine ⟨decodeHeader_update_of_le hcount hseq,
    fun i hi => byte_updateStripeHeader dataLen blockCount seq hi,
    fun h hn => ⟨fun c hrest => updateStripeHeader_decodeHeader hn hrest, ?_⟩⟩
  rintro chunks mem s p hp rfl
  refine ⟨?_, Rust.refreshSequence_eq hp ((length_getSequence _ _).trans_le hn)⟩
  rw [Rust.Stripe.getMeta, hp]
  rfl

/-- A sequence of three entries over a block of ones. -/
theorem header_round_trip_three :
    decodeHeader (updateStripeHeader 5000 2 [-1, 256, 257] fun _ => 1) = (5000, 2, [-1, 256, 257]) ∧
    (updateStripeHeader 5000 2 [-1, 256, 257] fun _ => 1).byte 14 = 1 := by
  obtain ⟨hdecode, hrest, -⟩ := header_round_trip 5000 2 [-1, 256, 257] (fun _ => 1) (by decide)
    (by decide)
  exact ⟨hdecode, (hrest 14 (by decide)).trans (by decide)⟩

end Mmfg.Shm
