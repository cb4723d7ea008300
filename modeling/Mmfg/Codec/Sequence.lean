import Mmfg.Registry.Cleanup
import Mmfg.Conn.Node
import Mmfg.Rust.Stripe

/-!
# The readers of a sequence

A sequence is written in batches, by `AllocStripe` and then by `AllocBlocksForStripe`, each of which
looks up the chunk ID to go on from.  It is read in four places, with loops that start from different
chunk IDs.  However the blocks are split into batches, every reader gets them back in order
(`sequence_lossless`).
-/

namespace Mmfg.Shm

open Rust (physical resolveSegments walk)

/-- A block of the bus. -/
abbrev Address := Fin MaxChunks × Fin BlocksPerChunk

/-- The block as a sequence names it, by the complement of its chunk. -/
def blockOf (a : Address) : BlockId := (~~~Int16.ofNat a.1, Int16.ofNat a.2)

theorem toInt_ofNat {n : ℕ} (h : n < 2 ^ 15) : (Int16.ofNat n).toInt = n :=
  Int16.toInt_ofNat_of_lt h

theorem not_ofNat_lt {n : ℕ} (h : n < 2 ^ 15) : ~~~Int16.ofNat n < 0 := by
  have hn := toInt_ofNat h
  rw [Int16.lt_iff_toInt_lt, Int16.toInt_not, Int16.toInt_zero, hn]
  rw [Int.bmod_eq_of_le (by omega) (by omega)]
  omega

theorem blk_blockOf (a : Address) : Blk (blockOf a) := by
  have h1 : a.1.val < 64 := a.1.isLt
  have h2 : a.2.val < 1024 := a.2.isLt
  refine ⟨not_ofNat_lt (by omega), ?_⟩
  rw [Int16.le_iff_toInt_le, Int16.toInt_zero, blockOf, toInt_ofNat (by omega)]
  omega

theorem blk_map_blockOf (l : List Address) : ∀ b ∈ l.map blockOf, Blk b := by
  intro b hb
  obtain ⟨a, -, rfl⟩ := List.mem_map.1 hb
  exact blk_blockOf a

theorem blockOf_injective : Function.Injective blockOf := by
  intro a b h
  have ha1 : a.1.val < 64 := a.1.isLt
  have ha2 : a.2.val < 1024 := a.2.isLt
  have hb1 : b.1.val < 64 := b.1.isLt
  have hb2 : b.2.val < 1024 := b.2.isLt
  obtain ⟨h1, h2⟩ := Prod.ext_iff.1 h
  have h1 : (Int16.ofNat a.1).toInt = (Int16.ofNat b.1).toInt := congrArg _ (Int16.not_inj.1 h1)
  have h2 : (Int16.ofNat a.2).toInt = (Int16.ofNat b.2).toInt := congrArg _ h2
  rw [toInt_ofNat (by omega), toInt_ofNat (by omega)] at h1 h2
  exact Prod.ext (Fin.ext (by omega)) (Fin.ext (by omega))

/-! ## The writers -/

/-- `AllocStripe` for the first batch, then `AllocBlocksForStripe` for each of the others. -/
def allocBatches (first : List Address) (more : List (List Address)) : Stripe :=
  more.foldl (fun s batch => s.allocBlocks (batch.map blockOf)) (allocStripe (first.map blockOf))

/-- What the batches so far leave in a stripe. -/
structure Holds (s : Stripe) (l : List Address) : Prop where
  sequence : s.sequence = encode (l.map blockOf)
  blocks : s.blocks = l.map blockOf
  blockCount : s.blockCount = l.length

theorem Holds.allocStripe (l : List Address) : Holds (allocStripe (l.map blockOf)) l :=
  ⟨rfl, rfl, List.length_map _⟩

theorem Holds.allocBlocks {s : Stripe} {l : List Address} (h : Holds s l) (batch : List Address) :
    Holds (s.allocBlocks (batch.map blockOf)) (l ++ batch) where
  sequence := by
    rw [List.map_append, encode_append (blk_map_blockOf l), Stripe.allocBlocks, h.sequence]
  blocks := by rw [List.map_append, Stripe.allocBlocks, h.blocks]
  blockCount := by
    rw [Stripe.allocBlocks, h.blockCount, List.length_append, List.length_map]

theorem Holds.foldl {s : Stripe} {l : List Address} (h : Holds s l) (more : List (List Address)) :
    Holds (more.foldl (fun s batch => s.allocBlocks (batch.map blockOf)) s) (l ++ more.flatten) := by
  induction more generalizing s l with
  | nil => rwa [List.flatten_nil, List.append_nil]
  | cons batch more ih =>
    rw [List.flatten_cons, ← List.append_assoc]
    exact ih (h.allocBlocks batch)

/-- The split into batches leaves no trace. -/
theorem holds_allocBatches (first : List Address) (more : List (List Address)) :
    Holds (allocBatches first more) (first ++ more.flatten) :=
  (Holds.allocStripe first).foldl more

theorem sequence_prefix_allocBatches (first : List Address) (more : List (List Address))
    (batch : List Address) :
    (allocBatches first more).sequence <+: (allocBatches first (more ++ [batch])).sequence := by
  rw [allocBatches, allocBatches, List.foldl_append]
  exact List.prefix_append _ _

/-! ## The readers -/

/-- `FreeStripe`: the bitmap after the blocks of the sequence were freed. -/
def freeStripe (s : Stripe) (bitmap : List Bus.Word) : Option (List Bus.Word) :=
  Registry.freeSequence 0 s.sequence bitmap

theorem resolve_encode_any {blocks : List BlockId} (h : ∀ b ∈ blocks, Blk b) (chunkID : Int16) :
    resolve chunkID (encode blocks) = blocks := by
  cases blocks with
  | nil => rfl
  | cons b blocks => exact resolve_encode_of_ne_nil h (List.cons_ne_nil b blocks) chunkID

theorem physical_blockOf {chunks : List Chunk} {a : Address}
    (h : chunks[a.1.val]? = some ⟨a.1⟩) : physical chunks (blockOf a) = some (blockOf a) := by
  have h1 : a.1.val < 64 := a.1.isLt
  have hnot : ~~~(blockOf a).1 = Int16.ofNat a.1 := Int16.not_not
  have hint := toInt_ofNat (n := a.1) (by omega)
  have hnonneg : ¬ Int16.ofNat a.1 < 0 := by
    rw [Int16.lt_iff_toInt_lt, Int16.toInt_zero, hint]
    omega
  have hidx : (Int16.ofNat a.1).toNatClampNeg = a.1 := by
    rw [← Int16.toNat_toInt, hint, Int.toNat_natCast]
  rw [physical, Rust.getChunk, hnot, if_neg hnonneg, hidx, h]
  rfl

/-- A walk over all blocks from the start cuts out every block. -/
theorem walk_all {phys : BlockId → Option BlockId} {blocks : List BlockId}
    (hplace : ∀ b ∈ blocks, phys b = some b) :
    walk phys blocks 0 (blocks.length * BlockSize) = blocks.map fun b => ⟨b, 0, BlockSize⟩ := by
  induction blocks with
  | nil => rfl
  | cons b blocks ih =>
    have ih := ih fun b hb => hplace b (List.mem_cons_of_mem _ hb)
    rw [walk, if_neg (by decide), hplace b (by simp), List.length_cons, List.map_cons, Nat.succ_mul]
    dsimp only
    rw [Nat.sub_zero, min_eq_right (Nat.le_add_left _ _), Nat.add_sub_cancel, ih]
    split_ifs with hend
    · have hnil : blocks = [] := List.eq_nil_of_length_eq_zero
        ((Nat.mul_eq_zero.1 hend).resolve_right (by decide))
      rw [hnil, List.map_nil]
    · rfl

theorem resolveSegments_encode {chunks : List Chunk} {l : List Address}
    (hplace : ∀ a ∈ l, chunks[a.1.val]? = some ⟨a.1⟩) :
    resolveSegments chunks (encode (l.map blockOf)) 0 (l.length * BlockSize) =
      (l.map blockOf).map fun b => ⟨b, 0, BlockSize⟩ := by
  have hphys : ∀ b ∈ l.map blockOf, physical chunks b = some b := by
    intro b hb
    obtain ⟨a, ha, rfl⟩ := List.mem_map.1 hb
    exact physical_blockOf (hplace a ha)
  cases l with
  | nil => rfl
  | cons a l =>
    -- the sequence starts with a chunk ID, so the initial one of the loop is not used
    have hseq : encode ((a :: l).map blockOf) =
        (blockOf a).1 :: (blockOf a).2 :: encodeFrom (blockOf a).1 (l.map blockOf) :=
      encode_cons (blk_blockOf a) _
    have hpos : 0 < (a :: l).length * BlockSize :=
      Nat.mul_pos (Nat.zero_lt_succ _) (by decide)
    rw [hseq, Rust.resolveSegments_eq (blk_blockOf a).1 hpos 0, ← hseq,
      resolve_encode (blk_map_blockOf _), ← walk_all hphys, List.length_map]

/-- Every reader of a sequence gets the blocks it was written for, in their order: the two that free
blocks free exactly these one after the other, the Go node resolves the header's sequence to them
from the chunk ID of any header, and the segments of a Rust node are these blocks.  Each batch only
adds to the sequence, and no other list of blocks has the same one. -/
theorem sequence_lossless (first : List Address) (more : List (List Address)) :
    let s := allocBatches first more
    let blocks := (first ++ more.flatten).map blockOf
    s.blocks = blocks ∧
    (∀ bitmap, freeStripe s bitmap =
      blocks.foldlM (fun bm b => Bus.freeBlock bm b.1 b.2) bitmap) ∧
    (∀ (mem : Memory) (header : BlockId), (decodeHeader (mem header)).2.2 = s.sequence →
      (Conn.processSlot mem header).stripe.blocks = blocks ∧
      ∀ bitmap, Registry.freeSequence 0 (decodeHeader (mem header)).2.2 bitmap =
        blocks.foldlM (fun bm b => Bus.freeBlock bm b.1 b.2) bitmap) ∧
    (∀ chunks : List Chunk, (∀ a ∈ first ++ more.flatten, chunks[a.1.val]? = some ⟨a.1⟩) →
      resolveSegments chunks s.sequence 0 (blocks.length * BlockSize) =
        blocks.map fun b => ⟨b, 0, BlockSize⟩) ∧
    (∀ batch : List Address, s.sequence <+: (allocBatches first (more ++ [batch])).sequence) ∧
    ∀ first' more', (allocBatches first' more').sequence = s.sequence →
      first' ++ more'.flatten = first ++ more.flatten := by
  intro s blocks
  have hs : Holds s (first ++ more.flatten) := holds_allocBatches first more
  have hfree : ∀ bitmap, Registry.freeSequence 0 s.sequence bitmap =
      blocks.foldlM (fun bm b => Bus.freeBlock bm b.1 b.2) bitmap := by
    intro bitmap
    rw [Registry.freeSequence_eq, hs.sequence, resolve_encode (blk_map_blockOf _)]
  refine ⟨hs.blocks, hfree, fun mem header hseq => ⟨?_, fun bitmap => ?_⟩, fun chunks hplace => ?_,
    sequence_prefix_allocBatches first more, fun first' more' hseq => ?_⟩
  · change resolve header.1 (decodeHeader (mem header)).2.2 = blocks
    rw [hseq, hs.sequence, resolve_encode_any (blk_map_blockOf _)]
  · rw [hseq, hfree]
  · rw [hs.sequence, List.length_map]
    exact resolveSegments_encode hplace
  · rw [(holds_allocBatches first' more').sequence, hs.sequence] at hseq
    have hblocks := congrArg (resolve 0) hseq
    rw [resolve_encode (blk_map_blockOf _), resolve_encode (blk_map_blockOf _)] at hblocks
    exact blockOf_injective.list_map hblocks

/-- Two blocks of chunk 0, then a batch that goes on in it, then one in chunk 1. -/
theorem sequence_lossless_three :
    (allocBatches [(0, 0), (0, 1)] [[(0, 2)], [(1, 0)]]).sequence = [-1, 0, 1, 2, -2, 0] ∧
    resolveSegments [⟨0⟩, ⟨1⟩] [-1, 0, 1, 2, -2, 0] 0 (4 * BlockSize) =
      [⟨(-1, 0), 0, BlockSize⟩, ⟨(-1, 1), 0, BlockSize⟩, ⟨(-1, 2), 0, BlockSize⟩,
        ⟨(-2, 0), 0, BlockSize⟩] :=
  ⟨by decide, (sequence_lossless [(0, 0), (0, 1)] [[(0, 2)], [(1, 0)]]).2.2.2.1 [⟨0⟩, ⟨1⟩]
    (by simp)⟩

end Mmfg.Shm
