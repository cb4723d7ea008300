import Mmfg.Bus.NextFit
import Mmfg.Control.Region
import Mmfg.Shm.Represent

/-!
# A new hub

`NewHub` allocates the control stripe on a new bus and clears it.  The hub reaches the control region
through the blocks of that stripe, a Go node through slices of the first chunk it is sent, and a Rust
node by pointer arithmetic on that chunk.  They meet because a new bus gives out the first blocks of
chunk 0, in order (`new_hub_control`); and the region is blank, as `region_independent` asks.
-/

namespace Mmfg.NewHub

open Bus SharedMemory Control
open Shm (BlockId Memory)

/-! ## Three ways to the control region -/

/-- `GetPointer` on a stripe, given where its blocks begin; `none` is nil. -/
def getPointer (blocks : List (Chunk × ℕ)) (offset : ℕ) : Option (Chunk × ℕ) :=
  (blocks[offset / BlockSize]?).map fun b => (b.1, b.2 + offset % BlockSize)

/-- The blocks of the control stripe that `handshake` makes of the first chunk. -/
def handshakeBlocks (chunk : Chunk) : List (Chunk × ℕ) :=
  (List.range ControlBlocks).map fun j => (chunk, j * BlockSize)

/-- An access of `SharedMemory` to `n` bytes; `none` is a failed assertion. -/
def sharedMemory (chunk : Chunk) (offset n : ℕ) : Option (Chunk × ℕ) :=
  if offset + n ≤ ControlStripeSize then some (chunk, offset) else none

theorem getPointer_handshakeBlocks (chunk : Chunk) (offset : ℕ) :
    getPointer (handshakeBlocks chunk) offset =
      (Registry.getPointer offset).map fun ptr => (chunk, ptr) := by
  unfold getPointer handshakeBlocks Registry.getPointer
  rw [List.getElem?_map]
  split_ifs with h
  · rw [List.getElem?_range h]
    simp only [Option.map_some, Nat.div_add_mod']
  · rw [List.getElem?_eq_none (by simpa using h)]
    rfl

/-- Within a block the assertion fails exactly where the pointer is nil. -/
theorem sharedMemory_eq (chunk : Chunk) {offset n : ℕ} (hn : 0 < n)
    (hblock : offset % BlockSize + n ≤ BlockSize) :
    sharedMemory chunk offset n = (Registry.getPointer offset).map fun ptr => (chunk, ptr) := by
  have hiff : offset + n ≤ ControlStripeSize ↔ offset / BlockSize < ControlBlocks := by
    simp only [ControlStripeSize, ControlBlocks, BlockSize] at hblock ⊢
    omega
  unfold sharedMemory Registry.getPointer
  by_cases h : offset / BlockSize < ControlBlocks
  · rw [if_pos (hiff.2 h), if_pos h]
    rfl
  · rw [if_neg fun hle => h (hiff.1 hle), if_neg h]
    rfl

/-! ## The blocks of the control stripe -/

theorem freeFrom_zero (n : ℕ) : freeFrom (List.replicate n 0) 0 = List.range (32 * n) := by
  have h := flatMap_range' 0 n
  rw [Nat.mul_zero, ← List.range_eq_range'] at h
  rw [← h, freeFrom, List.length_replicate]
  refine List.flatMap_congr fun k hk => ?_
  have hk := List.mem_range.1 hk
  rw [Nat.zero_add, Nat.mod_eq_of_lt hk, clearAt, List.getElem?_replicate_of_lt hk, Option.getD_some,
    clearOf_zero, List.range'_eq_map_range, Nat.mul_comm]

/-- On a new bus the blocks are taken in the order of their addresses. -/
theorem take_searchOrder {count : ℕ} (h : count ≤ BlocksPerChunk) :
    (searchOrder (List.replicate (BlocksPerChunk / 32) 0) 0 1).take count = List.range count := by
  rw [searchOrder, freeFrom_zero, List.take_append_of_le_length (by rw [List.length_range]; exact h),
    List.take_range, Nat.min_eq_left (show count ≤ 32 * (BlocksPerChunk / 32) from h)]

variable {chunk0 : Chunk}

/-- The block at an address of chunk 0. -/
def blockOf (chunk0 : Chunk) (j : ℕ) : Block := ⟨-1, .ofNat j, some (chunk0, j * BlockSize)⟩

theorem eq_blockOf {chunks : List Chunk} {b : Block} (hb : b.Mapped chunks)
    (hchunks : [chunk0] <+: chunks) (hlt : b.address < BlocksPerChunk) :
    b = blockOf chunk0 b.address := by
  have haddr := hb.address_eq
  obtain ⟨h1, h2, h3, c, hc, hdata⟩ := hb
  have hmul : getBlockAddress b.chunkID b.blockIdx =
      (~~~b.chunkID).toInt * BlocksPerChunk + b.blockIdx.toInt := rfl
  simp only [BlocksPerChunk] at hlt h3 hmul
  have hzero : (~~~b.chunkID).toInt = 0 := by omega
  have hidx : b.blockIdx.toInt = b.address := by omega
  have hcid : b.chunkID = -1 := by
    rw [← Int16.not_not (a := b.chunkID), Int16.toInt_inj.1 (hzero.trans Int16.toInt_zero.symm)]
    rfl
  have hbidx : b.blockIdx = .ofNat b.address :=
    Int16.toInt_inj.1 (hidx.trans (toInt_ofNat_of_lt (by omega)).symm)
  obtain ⟨more, rfl⟩ := hchunks
  rw [hzero] at hc
  cases hc
  rw [hidx] at hdata
  cases b
  simp only [blockOf, Block.mk.injEq]
  exact ⟨hcid, hbidx, hdata⟩

/-- Chunk IDs and block indices. -/
def ids (blocks : List Block) : List BlockId := blocks.map fun b => (b.chunkID, b.blockIdx)

/-- The blocks make up the control region: hub and nodes reach the same bytes, `AllocStripe` leaves a
header that describes the stripe, and the rest of a new chunk is blank. -/
structure Ready (chunk0 : Chunk) (blocks : List Block) : Prop where
  pointers : ∃ D, blocks.map Block.data = D.map some ∧ ∀ offset,
    getPointer D offset = (Registry.getPointer offset).map (fun ptr => (chunk0, ptr)) ∧
    getPointer (handshakeBlocks chunk0) offset = getPointer D offset ∧
    ∀ n, 0 < n → offset % BlockSize + n ≤ BlockSize →
      sharedMemory chunk0 offset n = getPointer D offset
  header : Shm.Represents (Shm.Stripe.create (ids blocks) fun _ _ => 0).1
    (Shm.Stripe.create (ids blocks) fun _ _ => 0).2
  blank : Blank (Shm.flat (Shm.Stripe.create (ids blocks) fun _ _ => 0).2 (ids blocks))

/-- The first blocks of chunk 0. -/
def firstBlocks (chunk0 : Chunk) : List Block := (List.range ControlBlocks).map (blockOf chunk0)

theorem ids_firstBlocks (chunk0 : Chunk) :
    ids (firstBlocks chunk0) = (List.range ControlBlocks).map fun j => (-1, .ofNat j) := by
  rw [ids, firstBlocks, List.map_map]
  rfl

theorem granted_firstBlocks (chunk0 : Chunk) :
    Shm.Granted [] ControlBlocks (ids (firstBlocks chunk0)) := by
  rw [ids_firstBlocks]
  refine ⟨by rw [List.length_map, List.length_range], by decide +kernel, ?_, by simp⟩
  refine List.Nodup.map_on (fun j hj k hk he => ?_) List.nodup_range
  have hj := List.mem_range.1 hj
  have hk := List.mem_range.1 hk
  have hint := congrArg Int16.toInt (Prod.mk.inj he).2
  simp only [ControlBlocks] at hj hk
  rw [toInt_ofNat_of_lt (by omega), toInt_ofNat_of_lt (by omega)] at hint
  exact_mod_cast hint

theorem ready_firstBlocks (chunk0 : Chunk) : Ready chunk0 (firstBlocks chunk0) := by
  refine ⟨⟨handshakeBlocks chunk0, ?_, fun offset => ⟨?_, rfl, fun n hn hblock => ?_⟩⟩, ?_, ?_⟩
  · rw [firstBlocks, handshakeBlocks, List.map_map, List.map_map]
    rfl
  · exact getPointer_handshakeBlocks chunk0 offset
  · rw [getPointer_handshakeBlocks, sharedMemory_eq chunk0 hn hblock]
  · have hgranted := granted_firstBlocks chunk0
    rw [ids_firstBlocks] at hgranted ⊢
    exact .create hgranted (by decide) (by decide +kernel) _
  · rw [ids_firstBlocks]
    intro x hx
    have hbyte : ∀ off, Shm.Bytes.byte (fun _ => 0) off = 0 := by
      intro off
      unfold Shm.Bytes.byte
      split_ifs <;> rfl
    rw [Shm.flat, List.getElem?_map]
    rcases lt_or_ge (x / BlockSize) ControlBlocks with hlt | hge
    · -- only the first block holds the header
      have hne : ((-1, .ofNat (x / BlockSize)) : BlockId) ≠
          (Shm.allocStripe ((List.range ControlBlocks).map fun j => (-1, .ofNat j))).header := by
        intro he
        have hzero : Int16.ofNat (x / BlockSize) = Int16.ofNat 0 := congrArg Prod.snd he
        have hint := congrArg Int16.toInt hzero
        simp only [OffRespQueue, BlockSize, ControlBlocks] at hx hlt hint
        rw [toInt_ofNat_of_lt (by omega), toInt_ofNat_of_lt (by omega)] at hint
        omega
      rw [List.getElem?_range hlt, Option.map_some, Option.map_some, Option.getD_some]
      have hzero : (Shm.Stripe.create ((List.range ControlBlocks).map fun j => (-1, .ofNat j))
          fun _ _ => 0).2 (-1, .ofNat (x / BlockSize)) = fun _ => 0 := by
        simp only [Shm.Stripe.create]
        exact Function.update_of_ne hne _ fun _ _ => 0
      rw [hzero, hbyte]
    · rw [List.getElem?_eq_none (by simpa using hge)]
      rfl

/-- `NewHub`: the call of `AllocBlocks` for the control stripe on a new bus comes to return blocks that
make up the control region. -/
theorem new_hub_control (chunk0 : Chunk) (makeLimit : MakeLimit) :
    ∃ t, (bus Unit).step (newBus chunk0 makeLimit) (.callAlloc () ControlBlocks) = some t ∧
      (bus Unit).Inevitable (Sequential ()) (fun u => ∃ blocks,
        u.pc () = .returned ControlBlocks (.ok blocks) ∧ Ready chunk0 blocks) t := by
  have hmore : ControlBlocks ≤ BlocksPerChunk * (MaxChunks - 1) := by decide
  have hmake : ControlBlocks ≤ makeLimit.blocks := le_trans (by decide) makeLimit.full
  have htakes := (resting_newBus (ι := Unit) chunk0 makeLimit).takes_in_order () ControlBlocks
    (by decide) (show 0 < BlocksPerChunk / 32 by decide) (hmore.trans (Nat.le_add_left ..))
  refine ⟨_, step_callAlloc rfl hmake, (htakes.and_invariant (I := fun u => [chunk0] <+: u.chunks)
    (fun u a v hu _ hs => hu.trans (chunks_grow hs)) List.prefix_rfl).trans ?_⟩
  rintro u ⟨⟨blocks, -, hpc, haddresses, -, -, hmarked⟩, hchunks⟩
  have horder : blocks.map Block.address = List.range ControlBlocks :=
    haddresses.trans (take_searchOrder (by decide))
  have hlt : ∀ b ∈ blocks, b.address < BlocksPerChunk := by
    intro b hb
    have hmem := List.mem_range.1 (horder ▸ List.mem_map_of_mem hb)
    exact hmem.trans (by decide)
  have hblocks : blocks = firstBlocks chunk0 := by
    rw [firstBlocks, ← horder, List.map_map]
    exact (List.map_id _).symm.trans (List.map_congr_left fun b hb =>
      eq_blockOf (hmarked.mapped b hb) hchunks (hlt b hb))
  exact .here ⟨blocks, hpc, hblocks ▸ ready_firstBlocks chunk0⟩

end Mmfg.NewHub
