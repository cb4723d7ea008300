import Mmfg.Shm.Sequence
import Mmfg.Slots.Basic

/-!
# The stripe registry in the control stripe

The registry is an array of entries of 16 bytes in the control stripe: status, header block and
owner.  The accessors of `shm.Control` reach it by offsets, and an offset beyond the blocks of the
control stripe reads as 0 and is not written.  Slots are numbered from 1; the entry of slot 0, whose
number wraps in the arithmetic of `uint32`, is such an offset.
-/

namespace Mmfg.Registry

open Shm (BlockId)

/-- Where the registry begins in the control stripe. -/
abbrev OffStripeRegistry : ℕ := 524288

/-- Bytes of an entry. -/
abbrev StripeEntrySize : ℕ := 16

/-- Where the status is in an entry. -/
abbrev StripeOffStatus : ℕ := 0

/-- Where the header is. -/
abbrev StripeOffHeader : ℕ := 4

/-- Where the owner is. -/
abbrev StripeOffOwner : ℕ := 8

/-- The status of a slot that is not in use. -/
abbrev StripeStatusIdle : UInt32 := 0

/-- The words of the control stripe, by their offsets: every access is to an aligned word. -/
abbrev Control := ℕ → UInt32

/-- `GetPointer` on the control stripe; `none` is nil. -/
def getPointer (offset : ℕ) : Option ℕ :=
  if offset / BlockSize < ControlBlocks then some offset else none

/-- `readU32`: a pointer out of range reads as 0. -/
def readU32 (c : Control) (offset : ℕ) : UInt32 :=
  match getPointer offset with
  | none => 0
  | some ptr => c ptr

/-- `writeU32`: a store out of range is dropped. -/
def writeU32 (c : Control) (offset : ℕ) (val : UInt32) : Control :=
  match getPointer offset with
  | none => c
  | some ptr => Function.update c ptr val

/-- The entry of a slot.  The subtraction wraps; a `uintptr` has 64 bits and holds the rest. -/
def getStripeEntryOffset (slotID : UInt32) : ℕ :=
  OffStripeRegistry + (slotID - 1).toNat * StripeEntrySize

/-- `GetStripeStatus`. -/
def getStripeStatus (c : Control) (slotID : UInt32) : UInt32 :=
  readU32 c (getStripeEntryOffset slotID + StripeOffStatus)

/-- The chunk ID in the upper half of the word and the block index in the lower. -/
def getStripeHeader (c : Control) (slotID : UInt32) : BlockId :=
  let val := readU32 c (getStripeEntryOffset slotID + StripeOffHeader)
  ((val >>> 16).toUInt16.toInt16, (val &&& 0xFFFF).toUInt16.toInt16)

/-- `GetStripeOwner`. -/
def getStripeOwner (c : Control) (slotID : UInt32) : UInt32 :=
  readU32 c (getStripeEntryOffset slotID + StripeOffOwner)

/-- `SetStripe`. -/
def setStripe (c : Control) (slotID status : UInt32) (headerCID headerOff : Int16)
    (owner : UInt32) : Control :=
  let base := getStripeEntryOffset slotID
  let combinedHeader := (headerCID.toUInt16.toUInt32 <<< 16) ||| headerOff.toUInt16.toUInt32
  let c := writeU32 c (base + StripeOffHeader) combinedHeader
  let c := writeU32 c (base + StripeOffOwner) owner
  writeU32 c (base + StripeOffStatus) status

/-- `FreeSlot`. -/
def freeSlot (c : Control) (slotID : UInt32) : Control :=
  writeU32 c (getStripeEntryOffset slotID + StripeOffStatus) StripeStatusIdle

/-- The entry as a whole. -/
def entry (c : Control) (slotID : UInt32) : UInt32 × BlockId × UInt32 :=
  (getStripeStatus c slotID, getStripeHeader c slotID, getStripeOwner c slotID)

/-- `AllocSlot` can return the slot. -/
def Allocatable (slotID : UInt32) : Prop :=
  ∃ start, ∃ i < MaxTotalSlots, Slots.slotAt start i = slotID.toNat

variable {c : Control} {slotID i : UInt32}

theorem allocatable_iff : Allocatable slotID ↔ 1 ≤ slotID.toNat ∧ slotID.toNat ≤ MaxTotalSlots := by
  constructor
  · rintro ⟨start, i, -, hi⟩
    rw [Slots.slotAt_eq] at hi
    have := Nat.mod_lt (start.toNat + (MaxTotalSlots - 1) + i) (show 0 < MaxTotalSlots by decide)
    omega
  · rintro ⟨h1, h2⟩
    exact ⟨0, Slots.exists_round 0 h1 h2⟩

/-! ## Reading what was written -/

theorem readU32_writeU32 (offset off : ℕ) (val : UInt32)
    (hoff : offset / BlockSize < ControlBlocks) :
    readU32 (writeU32 c off val) offset = if offset = off then val else readU32 c offset := by
  unfold readU32 writeU32 getPointer
  rw [if_pos hoff]
  split_ifs with hin heq heq
  · subst heq
    exact Function.update_self ..
  · exact Function.update_of_ne heq ..
  · rw [heq] at hoff
    exact absurd hoff hin
  · rfl

theorem readU32_of_le {offset : ℕ} (h : ControlBlocks ≤ offset / BlockSize) :
    readU32 c offset = 0 := by
  unfold readU32 getPointer
  rw [if_neg (by omega)]

theorem readU32_writeU32_of_ne {offset off : ℕ} (h : offset ≠ off) (val : UInt32) :
    readU32 (writeU32 c off val) offset = readU32 c offset := by
  rcases lt_or_ge (offset / BlockSize) ControlBlocks with hlt | hge
  · rw [readU32_writeU32 offset off val hlt, if_neg h]
  · rw [readU32_of_le hge, readU32_of_le hge]

/-- Words of entries are told apart by slot and field. -/
theorem entryOffset_inj {k k' : ℕ} (hk : k < StripeEntrySize) (hk' : k' < StripeEntrySize)
    (h : getStripeEntryOffset slotID + k = getStripeEntryOffset i + k') : slotID = i ∧ k = k' := by
  simp only [getStripeEntryOffset, StripeEntrySize] at h hk hk'
  have hsub : slotID - 1 = i - 1 := UInt32.toNat_inj.1 (by omega)
  obtain rfl := (UInt32.sub_left_inj 1).1 hsub
  exact ⟨rfl, by omega⟩

/-- Every word of an entry is in the control stripe. -/
theorem Allocatable.mapped (h : Allocatable slotID) {k : ℕ} (hk : k < StripeEntrySize) :
    (getStripeEntryOffset slotID + k) / BlockSize < ControlBlocks := by
  obtain ⟨h1, h2⟩ := allocatable_iff.1 h
  have hsub : (slotID - 1).toNat = slotID.toNat - 1 :=
    UInt32.toNat_sub_of_le _ _ (UInt32.le_iff_toNat_le.2 h1)
  simp only [getStripeEntryOffset, hsub, OffStripeRegistry, StripeEntrySize, BlockSize,
    ControlBlocks, MaxTotalSlots] at *
  omega

theorem readU32_writeU32_entry {k k' : ℕ} (hi : Allocatable i) (hk : k < StripeEntrySize)
    (hk' : k' < StripeEntrySize) (val : UInt32) :
    readU32 (writeU32 c (getStripeEntryOffset i + k') val) (getStripeEntryOffset slotID + k) =
      if slotID = i ∧ k = k' then val else readU32 c (getStripeEntryOffset slotID + k) := by
  split_ifs with h
  · obtain ⟨rfl, rfl⟩ := h
    rw [readU32_writeU32 _ _ _ (hi.mapped hk), if_pos rfl]
  · exact readU32_writeU32_of_ne (fun he => h (entryOffset_inj hk hk' he)) val

theorem packed_upper (a b : UInt16) :
    ((a.toUInt32 <<< 16 ||| b.toUInt32) >>> 16).toUInt16 = a := by
  apply UInt16.toBitVec_inj.1
  apply BitVec.eq_of_getLsbD_eq
  intro i hi
  have h1 : 16 + i < 32 := by omega
  have h2 : i < 32 := by omega
  simp [hi, h1, h2]

theorem packed_lower (a b : UInt16) :
    ((a.toUInt32 <<< 16 ||| b.toUInt32) &&& 0xFFFF).toUInt16 = b := by
  apply UInt16.toNat_inj.1
  have hzero : a.toNat <<< 16 % 65536 = 0 := by
    rw [Nat.shiftLeft_eq]
    exact Nat.mul_mod_left ..
  have hmod : b.toNat &&& 65535 = b.toNat := by
    rw [show 65535 = 2 ^ 16 - 1 from rfl, Nat.and_two_pow_sub_one_eq_mod]
    exact Nat.mod_eq_of_lt b.toNat_lt
  simp [hzero, hmod]

/-- `SetStripe` sets the entry of its slot and no other. -/
theorem entry_setStripe (hi : Allocatable i) (status : UInt32) (headerCID headerOff : Int16)
    (owner : UInt32) :
    entry (setStripe c i status headerCID headerOff owner) slotID =
      if slotID = i then (status, (headerCID, headerOff), owner) else entry c slotID := by
  have hstatus : StripeOffStatus < StripeEntrySize := by decide
  have hheader : StripeOffHeader < StripeEntrySize := by decide
  have howner : StripeOffOwner < StripeEntrySize := by decide
  simp only [entry, getStripeStatus, getStripeHeader, getStripeOwner, setStripe,
    readU32_writeU32_entry hi hstatus, readU32_writeU32_entry hi hheader,
    readU32_writeU32_entry hi howner, hstatus, hheader, howner]
  -- the fields are at different offsets
  by_cases h : slotID = i
  · simp only [h, true_and, StripeOffStatus, StripeOffHeader, StripeOffOwner, Nat.reduceEqDiff,
      OfNat.ofNat_ne_zero, OfNat.zero_ne_ofNat, reduceIte, packed_upper, packed_lower]
    rfl
  · simp [h]

/-- A slot with no entry reads as idle. -/
theorem getStripeStatus_zero : getStripeStatus c 0 = StripeStatusIdle :=
  readU32_of_le (by decide)

theorem getStripeStatus_freeSlot :
    getStripeStatus (freeSlot c i) slotID =
      if slotID = i then StripeStatusIdle else getStripeStatus c slotID := by
  unfold getStripeStatus freeSlot
  split_ifs with h
  · subst h
    rcases lt_or_ge ((getStripeEntryOffset slotID + StripeOffStatus) / BlockSize) ControlBlocks
      with hlt | hge
    · rw [readU32_writeU32 _ _ _ hlt, if_pos rfl]
    · exact readU32_of_le hge
  · exact readU32_writeU32_of_ne (fun he => h (entryOffset_inj (by decide) (by decide) he).1) _

/-- Freeing a slot leaves the other words of all entries. -/
theorem readU32_freeSlot {k : ℕ} (h0 : k ≠ StripeOffStatus) (hk : k < StripeEntrySize) :
    readU32 (freeSlot c i) (getStripeEntryOffset slotID + k) =
      readU32 c (getStripeEntryOffset slotID + k) :=
  readU32_writeU32_of_ne (fun he => h0 (entryOffset_inj hk (by decide) he).2) _

theorem getStripeHeader_freeSlot :
    getStripeHeader (freeSlot c i) slotID = getStripeHeader c slotID := by
  unfold getStripeHeader
  rw [readU32_freeSlot (by decide) (by decide)]

theorem getStripeOwner_freeSlot :
    getStripeOwner (freeSlot c i) slotID = getStripeOwner c slotID :=
  readU32_freeSlot (by decide) (by decide)

end Mmfg.Registry
