import Mmfg.Shm.Data

/-!
# Stripes of a Rust node

A Rust node keeps no list of blocks.  Each access reads the sequence again from the header block and
walks over it, taking one block size off the offset per block until the offset lies in the block.
Chunks are looked up by index in the table of attached chunks, and a block whose chunk is not there
is passed over.

The walk over the sequence is one over the blocks (`resolveSegments_eq`).  If every chunk is in its
place, it collects the pieces that the Go code copies (`walk_eq_viewLoop`), so that both read and
write the same bytes (`readLoop_fst`, `writeLoop_scatter`).
-/

namespace Mmfg.Rust

open File Shm

/-! ## Chunks -/

/-- `state.chunks.get(!cid as usize)`: a negative complement is an index beyond every table. -/
def getChunk (chunks : List Chunk) (cid : Int16) : Option Chunk :=
  if ~~~cid < 0 then none else chunks[(~~~cid).toNatClampNeg]?

/-- The block at index `val` of the memory of a chunk. -/
def blockAt (chunk : Chunk) (val : Int16) : BlockId := (~~~Int16.ofNat chunk.id, val)

/-- The block to which the node's table leads. -/
def physical (chunks : List Chunk) (b : BlockId) : Option BlockId :=
  (getChunk chunks b.1).map (blockAt · b.2)

/-! ## The header -/

/-- A stripe of a node; `header` is what `get_stripe_header` finds in the registry for its slot. -/
structure Stripe where
  header : BlockId
  sequence : List Int16
  blockCount : ℕ
  dataLen : UInt32
  deriving DecidableEq

namespace Stripe

/-- `Stripe::new`. -/
def new (header : BlockId) : Stripe := { header, sequence := [], blockCount := 0, dataLen := 0 }

/-- Data length and block count. -/
def getMeta (chunks : List Chunk) (s : Stripe) (mem : Memory) : UInt32 × ℕ :=
  match physical chunks s.header with
  | some b => ((mem b).uint32 0, ((mem b).uint16 4).toNat)
  | none => (0, 0)

/-- `update_data_len`. -/
def updateDataLen (chunks : List Chunk) (s : Stripe) (mem : Memory) (dataLen : UInt32) : Memory :=
  match physical chunks s.header with
  | some b => Function.update mem b (putDataLen (mem b) dataLen)
  | none => mem

/-- Entry `i` of the sequence.  Nothing stops at the end of the block: the entries that do not fit
are read from the blocks behind it. -/
def headerEntry (mem : Memory) (b : BlockId) (i : ℕ) : Int16 :=
  let pos := 8 + i * 2
  ((mem (b.1, b.2 + .ofNat (pos / BlockSize))).uint16 (pos % BlockSize)).toInt16

/-- The stripe as its header describes it; an error if the header's chunk is not in the table. -/
def refreshSequence (chunks : List Chunk) (s : Stripe) (mem : Memory) : Option Stripe :=
  (physical chunks s.header).map fun b =>
    { s with
      dataLen := (mem b).uint32 0
      blockCount := ((mem b).uint16 4).toNat
      sequence := (List.range ((mem b).uint16 6).toNat).map (headerEntry mem b) }

end Stripe

/-! ## Segments -/

/-- The loop of `resolve_segments`. -/
def resolveLoop (chunks : List Chunk) : List Int16 → Int16 → ℕ → ℕ → List Segment
  | [], _, _, _ => []
  | val :: seq, currentCid, offInStripe, remaining =>
    if val < 0 then resolveLoop chunks seq val offInStripe remaining
    else if offInStripe ≥ BlockSize then
      resolveLoop chunks seq currentCid (offInStripe - BlockSize) remaining
    else
      match getChunk chunks currentCid with
      | some chunk =>
        let take := min remaining (BlockSize - offInStripe)
        ⟨blockAt chunk val, offInStripe, take⟩ ::
          if remaining - take = 0 then [] else resolveLoop chunks seq currentCid 0 (remaining - take)
      | none =>
        -- the block is passed over, and the offset stays as it is
        if remaining = 0 then [] else resolveLoop chunks seq currentCid offInStripe remaining

/-- `resolve_segments`. -/
def resolveSegments (chunks : List Chunk) (seq : List Int16) (startOffInStripe want : ℕ) :
    List Segment :=
  if seq = [] ∨ want = 0 then [] else resolveLoop chunks seq (-1) startOffInStripe want

/-- The bytes of the segments, one after the other. -/
def gather (mem : Memory) (segments : List Segment) : List UInt8 :=
  segments.flatMap fun g => window (mem g.block).byte g.innerOff g.copyLen

/-- The memory after bytes were copied into the segments. -/
def scatter : List Segment → Memory → List UInt8 → Memory
  | [], mem, _ => mem
  | g :: segments, mem, p =>
    scatter segments
      (Function.update mem g.block (blit (mem g.block) g.innerOff (p.take g.copyLen)))
      (p.drop g.copyLen)

/-- The number of bytes in the segments. -/
def copied (segments : List Segment) : ℕ := (segments.map Segment.copyLen).sum

namespace Stripe

/-- The segments of `read_data` and `write_data`.  That the header could not be read is ignored. -/
def segments (chunks : List Chunk) (s : Stripe) (mem : Memory) (offset want : ℕ) : List Segment :=
  resolveSegments chunks ((s.refreshSequence chunks mem).getD s).sequence (offset + BlockSize) want

/-- The stripe and the bytes copied. -/
def readData (chunks : List Chunk) (s : Stripe) (mem : Memory) (offset len : ℕ) :
    Stripe × List UInt8 :=
  ((s.refreshSequence chunks mem).getD s, gather mem (s.segments chunks mem offset len))

/-- The stripe, the memory, and the number of bytes copied. -/
def writeData (chunks : List Chunk) (s : Stripe) (mem : Memory) (offset : ℕ) (buffer : List UInt8) :
    (Stripe × Memory) × ℕ :=
  let segments := s.segments chunks mem offset buffer.length
  (((s.refreshSequence chunks mem).getD s, scatter segments mem buffer), copied segments)

end Stripe

/-! ## The walk over the blocks -/

/-- `resolve_segments` over blocks instead of the entries of a sequence, wherever the blocks are
found. -/
def walk (phys : BlockId → Option BlockId) : List BlockId → ℕ → ℕ → List Segment
  | [], _, _ => []
  | b :: blocks, off, remaining =>
    if off ≥ BlockSize then walk phys blocks (off - BlockSize) remaining
    else
      match phys b with
      | some p =>
        let take := min remaining (BlockSize - off)
        ⟨p, off, take⟩ :: if remaining - take = 0 then [] else walk phys blocks 0 (remaining - take)
      | none => walk phys blocks off remaining

variable {chunks : List Chunk} {phys : BlockId → Option BlockId} {mem : Memory}
  {blocks : List BlockId} {off n fuel : ℕ}

theorem resolveLoop_eq (seq : List Int16) (cid : Int16) (hn : 0 < n) :
    resolveLoop chunks seq cid off n = walk (physical chunks) (resolve cid seq) off n := by
  induction seq generalizing cid off n with
  | nil => rfl
  | cons val seq ih =>
    rw [resolveLoop, resolve]
    by_cases hneg : val < 0
    · rw [if_pos hneg, if_pos hneg]
      exact ih val hn
    · rw [if_neg hneg, if_neg hneg, walk, physical]
      by_cases hoff : off ≥ BlockSize
      · rw [if_pos hoff, if_pos hoff]
        exact ih cid hn
      · rw [if_neg hoff, if_neg hoff]
        cases getChunk chunks cid with
        | none =>
          dsimp only [Option.map_none]
          rw [if_neg (by omega)]
          exact ih cid hn
        | some chunk =>
          dsimp only [Option.map_some]
          split_ifs with hlast
          · rfl
          · rw [ih cid (by omega)]

/-- A sequence that starts with a chunk ID is walked over as its blocks. -/
theorem resolveSegments_eq {cid : Int16} {seq : List Int16} (hcid : cid < 0) (hn : 0 < n)
    (chunkID : Int16) :
    resolveSegments chunks (cid :: seq) off n =
      walk (physical chunks) (resolve chunkID (cid :: seq)) off n := by
  rw [resolveSegments, if_neg (by simp; omega), resolveLoop_eq _ _ hn, resolve, resolve, if_pos hcid,
    if_pos hcid]

theorem viewLoop_zero : viewLoop blocks fuel off 0 = [] := by
  cases fuel with
  | zero => rfl
  | succ fuel => rw [viewLoop, if_pos rfl]

theorem viewLoop_nil : viewLoop [] fuel off n = [] := by
  cases fuel with
  | zero => rfl
  | succ fuel =>
    rw [viewLoop]
    split_ifs <;> rfl

theorem viewLoop_fuel (hf : n ≤ fuel) : viewLoop blocks fuel off n = viewLoop blocks n off n := by
  induction fuel using Nat.strong_induction_on generalizing off n with
  | _ fuel ih =>
    cases n with
    | zero => rw [viewLoop_zero, viewLoop_zero]
    | succ n =>
      obtain ⟨fuel, rfl⟩ : ∃ k, fuel = k + 1 := ⟨fuel - 1, by omega⟩
      rw [viewLoop, viewLoop]
      cases blocks[off / BlockSize]? with
      | none => rfl
      | some b =>
        have hmod := Nat.mod_lt off (show BlockSize > 0 by decide)
        dsimp only
        rw [ih fuel (by omega) (by omega),
          ← ih n (by omega) (n := n + 1 - min (BlockSize - off % BlockSize) (n + 1)) (by omega)]

/-- With every chunk in its place the walk collects the pieces of the Go code. -/
theorem walk_eq_viewLoop (hplace : ∀ b ∈ blocks, phys b = some b) (hn : 0 < n) :
    walk phys blocks off n = viewLoop blocks n off n := by
  induction blocks generalizing off n with
  | nil => rw [walk, viewLoop_nil]
  | cons b blocks ih =>
    have ih := fun {off n} => @ih off n (fun b hb => hplace b (by simp [hb]))
    rw [walk]
    split_ifs with hoff
    · obtain ⟨k, rfl⟩ := Nat.exists_eq_add_of_le' hoff
      rw [viewLoop_skip, Nat.add_sub_cancel, ih hn, List.tail_cons]
    · rw [hplace b (by simp)]
      obtain ⟨m, rfl⟩ : ∃ m, n = m + 1 := ⟨n - 1, by omega⟩
      rw [viewLoop, if_neg (by omega), Nat.div_eq_of_lt (by omega), Nat.mod_eq_of_lt (by omega)]
      dsimp only [List.getElem?_cons_zero]
      rw [min_comm]
      refine congrArg _ ?_
      split_ifs with hlast
      · rw [hlast, viewLoop_zero]
      · have hend : off + min (BlockSize - off) (m + 1) = 0 + BlockSize := by omega
        rw [hend, viewLoop_skip, List.tail_cons, viewLoop_fuel (by omega), ih (by omega)]

/-- A sequence that fits is read as the Go code reads it. -/
theorem refreshSequence_eq {s : Stripe} {b : BlockId} (hplace : physical chunks s.header = some b)
    (hfit : (decodeHeader (mem b)).2.2.length ≤ HeaderEntries) :
    s.refreshSequence chunks mem =
      some { s with
        dataLen := (decodeHeader (mem b)).1
        blockCount := (decodeHeader (mem b)).2.1
        sequence := (decodeHeader (mem b)).2.2 } := by
  have hseq : (List.range ((mem b).uint16 6).toNat).map (Stripe.headerEntry mem b) =
      (decodeHeader (mem b)).2.2 := by
    simp only [decodeHeader, getSequence, List.length_map, List.length_range, HeaderEntries] at hfit ⊢
    refine List.map_congr_left fun i hi => ?_
    have hi : i < 2044 := lt_of_lt_of_le (List.mem_range.1 hi) hfit
    have hpos : 8 + i * 2 < BlockSize := by
      simp only [BlockSize]
      omega
    simp only [Stripe.headerEntry, Nat.div_eq_of_lt hpos, Nat.mod_eq_of_lt hpos]
    rw [if_neg (by simp only [BlockSize]; omega), show Int16.ofNat 0 = 0 from rfl, Int16.add_zero]
  rw [Stripe.refreshSequence, hplace, Option.map_some, hseq]
  rfl

/-- `WriteAt` copies into the pieces that `View` collects. -/
theorem writeLoop_scatter {p : List UInt8} :
    (writeLoop blocks fuel mem off p).1 = scatter (viewLoop blocks fuel off p.length) mem p ∧
      (writeLoop blocks fuel mem off p).2.1 = copied (viewLoop blocks fuel off p.length) := by
  induction fuel generalizing mem off p with
  | zero => exact ⟨rfl, rfl⟩
  | succ fuel ih =>
    rw [writeLoop, viewLoop]
    by_cases hp : p = []
    · subst hp
      exact ⟨rfl, rfl⟩
    · rw [if_neg hp, if_neg (by simpa using hp)]
      cases blocks[off / BlockSize]? with
      | none => exact ⟨rfl, rfl⟩
      | some b =>
        dsimp only
        rw [ih.1, ih.2, List.length_drop]
        exact ⟨rfl, rfl⟩

/-! ## A header that leads to its blocks -/

/-- The node gets to `blocks` from the header of `s`: the sequence fits in the block and starts with a
chunk ID, the block it leads to first, and only first, is the header block, and all chunks are
attached. -/
structure Stripe.Leads (chunks : List Chunk) (mem : Memory) (s : Stripe) (blocks : List BlockId) :
    Prop where
  entries : (decodeHeader (mem s.header)).2.2.length ≤ HeaderEntries
  marker : ∃ cid seq, (decodeHeader (mem s.header)).2.2 = cid :: seq ∧ cid < 0
  resolved : resolve s.header.1 (decodeHeader (mem s.header)).2.2 = blocks
  first : blocks.head? = some s.header
  header_notMem : s.header ∉ blocks.tail
  mapped : ∀ b ∈ blocks, physical chunks b = some b

namespace Stripe.Leads

variable {s t : Stripe} {m : Memory} {data : List UInt8} (h : s.Leads chunks mem blocks)

include h

theorem physical_header : physical chunks s.header = some s.header :=
  h.mapped s.header (List.mem_of_mem_head? h.first)

theorem getMeta_eq (ht : t.header = s.header) (hm : m s.header = mem s.header) :
    t.getMeta chunks m = ((decodeHeader (mem s.header)).1, (decodeHeader (mem s.header)).2.1) := by
  rw [getMeta, ht, h.physical_header]
  dsimp only
  rw [hm]
  rfl

theorem refresh_eq : ∃ t, s.refreshSequence chunks mem = some t ∧ t.header = s.header ∧
    t.sequence = (decodeHeader (mem s.header)).2.2 :=
  ⟨_, refreshSequence_eq h.physical_header h.entries, rfl, rfl⟩

/-- The segments are the pieces that the Go code goes through. -/
theorem segments_eq : s.segments chunks mem off n = viewLoop blocks n (off + BlockSize) n := by
  obtain ⟨t, ht, -, hseq⟩ := h.refresh_eq
  obtain ⟨cid, seq, hcons, hcid⟩ := h.marker
  rw [segments, ht, Option.getD_some, hseq]
  rcases Nat.eq_zero_or_pos n with rfl | hpos
  · rw [resolveSegments, if_pos (Or.inr rfl), viewLoop_zero]
  · have hblocks := h.resolved
    rw [hcons] at hblocks ⊢
    rw [resolveSegments_eq hcid hpos s.header.1, hblocks, walk_eq_viewLoop h.mapped hpos]

/-- A write that fits is that of the Go code. -/
theorem writeData_eq (hle : off + data.length ≤ blocks.tail.length * BlockSize) :
    ∃ t m, s.writeData chunks mem off data = ((t, m), data.length) ∧ t.header = s.header ∧
      m s.header = mem s.header ∧
      writeLoop blocks data.length mem (off + BlockSize) data = (m, data.length, none) := by
  obtain ⟨t, ht, hth, -⟩ := h.refresh_eq
  have hres : (writeLoop blocks data.length mem (off + BlockSize) data).2 = (data.length, none) := by
    have hcap : data.length ≤ blocks.tail.length * BlockSize - off := by omega
    rw [writeLoop_skip, (writeLoop_eq le_rfl).2, if_pos hcap, min_eq_left hcap]
  obtain ⟨hmem, hcount⟩ := @writeLoop_scatter mem blocks (off + BlockSize) data.length data
  rw [hres] at hcount
  refine ⟨t, (writeLoop blocks data.length mem (off + BlockSize) data).1, ?_, hth, ?_,
    Prod.ext rfl hres⟩
  · rw [writeData, ht, Option.getD_some, h.segments_eq, ← hmem, ← hcount]
  · rw [writeLoop_skip, writeLoop_of_notMem h.header_notMem]

end Stripe.Leads

end Mmfg.Rust
