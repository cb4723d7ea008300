import Mmfg.Lib.System
import Mmfg.Lib.RWMutex
import Mmfg.Bus.Words

/-!
# The bus: concurrent block allocation

`AllocBlocks`, `tryAppendChunk` and `FreeBlock` of `go/shm/bus.go`, run by any number of threads.
A step of a thread makes one access to shared state: a lock operation, a load or a
compare-and-swap of a bitmap word, the growth of chunks and bitmap under the write lock.  The
bitmap is a slice of a backing array; growing it appends in place or copies to a new array, as
Go's `append` may do, and whoever kept the old slice would still write to the old array.

`AllocBlocks(count)` begins with `make([]Block, 0, count)`.  How many records the process can get is a
parameter, `MakeLimit`.
-/

namespace Mmfg.Bus

/-- A block: `data` is the chunk and the offset in it of the block's memory, and `none` where
looking up the chunk is out of range. -/
structure Block where
  chunkID : Int16
  blockIdx : Int16
  data : Option (Chunk × ℕ)
  deriving DecidableEq

/-- The address of a block on the bus. -/
def Block.address (b : Block) : ℕ := (getBlockAddress b.chunkID b.blockIdx).toNat

/-- The block that `AllocBlocks` makes of a bit position. -/
def blockAt (chunks : List Chunk) (bitPos : ℕ) : Block :=
  let (cid, bidx) := parseBlockAddress bitPos
  { chunkID := cid
    blockIdx := bidx
    data := (chunks[(~~~cid).toInt.toNat]?).map fun c => (c, bidx.toInt.toNat * BlockSize) }

/-- The number of `Block` records that `make` can serve.  A record has 32 bytes: the runtime panics above
2⁴⁸ bytes, and below that the process may run out of memory.  The records of all blocks that a bus can
have, 2 MiB, are taken to be there. -/
structure MakeLimit where
  blocks : ℕ
  full : BlocksPerChunk * MaxChunks ≤ blocks
  max : blocks ≤ 2 ^ 48 / 32

/-- Memory for the records of a full bus and no more. -/
def MakeLimit.least : MakeLimit := ⟨BlocksPerChunk * MaxChunks, le_rfl, by decide⟩

/-- As much memory as the runtime can use. -/
def MakeLimit.greatest : MakeLimit := ⟨2 ^ 48 / 32, by decide, le_rfl⟩

/-- `make([]Block, 0, count)` is served; a negative `count` is out of range too. -/
def CanMake (limit : MakeLimit) (count : ℤ) : Prop := 0 ≤ count ∧ count ≤ limit.blocks

instance (limit : MakeLimit) (count : ℤ) : Decidable (CanMake limit count) :=
  inferInstanceAs (Decidable (_ ∧ _))

/-- A slice of words: the first `len` words of the backing array `arr`. -/
structure Slice where
  arr : ℕ
  len : ℕ
  deriving DecidableEq

/-- The variables of a call `AllocBlocks(count)`. -/
structure Call where
  count : ℕ
  allocated : List Block
  remaining : ℕ
  deriving DecidableEq

/-- The variables of its scan over the bitmap. -/
structure Scan extends Call where
  bitmapSlice : Slice
  chunksSnapshot : List Chunk
  startWord : ℕ
  i : ℕ
  deriving DecidableEq

/-- The word that the search looks at in round `i`. -/
def Scan.wordIdx (f : Scan) : ℕ := (f.startWord + f.i) % f.bitmapSlice.len

/-- Who called `tryAppendChunk`. -/
inductive Appender
  | direct
  | alloc (c : Call)
  deriving DecidableEq

/-- The errors of `AllocBlocks`: "failed to allocate `count` blocks" once all `MaxChunks` chunks are
there, or the error of `NewChunk`. -/
inductive Err
  | full (count : ℕ)
  | newChunk
  deriving DecidableEq

/-- Who called `FreeBlock`: a holder of the block, or `AllocBlocks(count)` that gives back what it
has collected because of `err`: now the block `b`, later the `rest`. -/
inductive Freer
  | direct
  | alloc (count : ℕ) (err : Err) (b : Block) (rest : List Block)
  deriving DecidableEq

/-- Program points of a thread. -/
inductive PC
  | idle
  /-- `AllocBlocks(count)` has returned blocks or an error. -/
  | returned (count : ℕ) (result : Except Err (List Block))
  /-- An index was out of range. -/
  | panicked
  /-- `make([]Block, 0, count)` was not served. -/
  | makeFailed (count : ℕ)
  -- `AllocBlocks`
  | rlock (c : Call)
  | rwait (c : Call)
  | snapshot (c : Call)
  | position (c : Call) (bitmapSlice : Slice) (chunksSnapshot : List Chunk)
  | load (f : Scan)
  | cas (f : Scan) (old newVal : Word) (foundBits : List ℕ)
  | storePos (f : Scan)
  /-- `RUnlock` and return of the blocks. -/
  | finish (c : Call)
  /-- `RUnlock` after a scan that left blocks to be found. -/
  | runlock (c : Call)
  -- `tryAppendChunk`
  | chunkCount (r : Appender)
  | muxLock (r : Appender) (count : ℕ)
  | recheck (r : Appender) (count : ℕ)
  | newChunk (r : Appender) (count : ℕ)
  | lock (r : Appender) (chunk : Chunk)
  | lockWait (r : Appender) (chunk : Chunk)
  | grow (r : Appender) (chunk : Chunk)
  | callback (r : Appender) (chunk : Chunk)
  | unlock (r : Appender)
  | muxUnlock (r : Appender) (err : Option Err)
  -- `FreeBlock`
  | freeRLock (chunkID blockIdx : Int16) (u : Freer)
  | freeRWait (chunkID blockIdx : Int16) (u : Freer)
  | freeStart (chunkID blockIdx : Int16) (u : Freer)
  | freeLoad (chunkID blockIdx : Int16) (u : Freer) (bitmap : Slice)
  | freeCas (chunkID blockIdx : Int16) (u : Freer) (bitmap : Slice) (old : Word)
  | freeRUnlock (u : Freer)
  deriving DecidableEq

/-- No call is in progress. -/
def PC.Quiet : PC → Bool
  | .idle | .returned .. => true
  | _ => false

/-- The loop condition of the scan: go on with the next word or leave the loop. -/
def Scan.next (f : Scan) : PC :=
  if f.i < f.bitmapSlice.len ∧ 0 < f.remaining then .load f else .runlock f.toCall

/-- The error path of `AllocBlocks`: free the collected blocks one by one. -/
def undo (count : ℕ) (err : Err) : List Block → PC
  | [] => .returned count (.error err)
  | b :: rest => .freeRLock b.chunkID b.blockIdx (.alloc count err b rest)

/-- What follows a return from `tryAppendChunk`. -/
def Appender.resume (err : Option Err) : Appender → PC
  | .direct => .idle
  | .alloc c =>
    match err with
    | some err => undo c.count err c.allocated
    | none => .rlock c

/-- What follows a return from `FreeBlock`. -/
def Freer.resume : Freer → PC
  | .direct => .idle
  | .alloc count err _ rest => undo count err rest

/-- Shared memory of the bus, the program points of the threads and the blocks each one holds.
`makeLimit` does not change. -/
structure State (ι : Type) where
  makeLimit : MakeLimit
  arrays : ℕ → List Word
  bitmap : Slice
  chunks : List Chunk
  chunkCount : ℕ
  lastSearchPos : ℕ
  mu : RWMutex ι
  tryAppendChunkMux : Option ι
  pc : ι → PC
  held : ι → List Block

variable {ι : Type}

/-- A word of a backing array. -/
def State.word (s : State ι) (b : Slice) (w : ℕ) : Word := ((s.arrays b.arr)[w]?).getD 0

/-- A store to a word of the bitmap. -/
def State.storeWord (s : State ι) (b : Slice) (w : ℕ) (v : Word) : State ι :=
  { s with arrays := Function.update s.arrays b.arr ((s.arrays b.arr).set w v) }

/-- The words of the current bitmap. -/
def State.words (s : State ι) : List Word := (s.arrays s.bitmap.arr).take s.bitmap.len

variable [DecidableEq ι]

/-- Thread `i` goes to another program point. -/
def State.goto (s : State ι) (i : ι) (pc : PC) : State ι :=
  { s with pc := Function.update s.pc i pc }

/-- Append a chunk and 32 zero words.  With `copied` the words move to a new backing array,
otherwise the old one has capacity left. -/
def State.appendChunk (s : State ι) (chunk : Chunk) (copied : Bool) : State ι :=
  let arr := if copied then s.bitmap.arr + 1 else s.bitmap.arr
  { s with
    arrays := Function.update s.arrays arr (s.words ++ List.replicate (BlocksPerChunk / 32) 0)
    bitmap := ⟨arr, s.bitmap.len + BlocksPerChunk / 32⟩
    chunks := s.chunks ++ [chunk]
    chunkCount := s.chunkCount + 1 }

/-- The blocks that a successful compare-and-swap has taken, added to the collected ones. -/
def Scan.collect (f : Scan) (foundBits : List ℕ) : Scan :=
  { f with
    allocated := f.allocated ++
      foundBits.map fun bitIdx => blockAt f.chunksSnapshot (f.wordIdx * 32 + bitIdx)
    remaining := f.remaining - foundBits.length }

/-- One step of `AllocBlocks`. -/
def State.stepAlloc (s : State ι) (i : ι) : PC → Option (State ι)
  | .rlock c => some { s.goto i (.rwait c) with mu := s.mu.rlock i }
  | .rwait c => if i ∈ s.mu.readers then some (s.goto i (.snapshot c)) else none
  | .snapshot c => some (s.goto i (.position c s.bitmap s.chunks))
  | .position c bitmapSlice chunksSnapshot =>
    let f : Scan :=
      { c with
        bitmapSlice, chunksSnapshot, startWord := s.lastSearchPos % bitmapSlice.len, i := 0 }
    some (s.goto i f.next)
  | .load f =>
    let old := s.word f.bitmapSlice f.wordIdx
    if old = 0xFFFFFFFF then some (s.goto i { f with i := f.i + 1 }.next)
    else
      let (newVal, foundBits) := findBits f.remaining 32 (~~~old) old []
      if foundBits.length = 0 then some (s.goto i { f with i := f.i + 1 }.next)
      else some (s.goto i (.cas f old newVal foundBits))
  | .cas f old newVal foundBits =>
    if s.word f.bitmapSlice f.wordIdx = old then
      let f' := f.collect foundBits
      let s := s.storeWord f.bitmapSlice f.wordIdx newVal
      if f'.remaining = 0 then some (s.goto i (.storePos f'))
      else some (s.goto i { f' with i := f'.i + 1 }.next)
    else some (s.goto i (.load f))
  | .storePos f =>
    some { s.goto i (.finish f.toCall) with
      lastSearchPos := (f.wordIdx + 1) % f.bitmapSlice.len }
  | .finish c =>
    some { s.goto i (.returned c.count (.ok c.allocated)) with
      mu := s.mu.runlock i
      held := Function.update s.held i (s.held i ++ c.allocated) }
  | .runlock c => some { s.goto i (.chunkCount (.alloc c)) with mu := s.mu.runlock i }
  | _ => none

/-- One step of `tryAppendChunk`; `choice` says whether `NewChunk` succeeds and whether growing the
bitmap copies it. -/
def State.stepAppend (s : State ι) (i : ι) (choice : Bool) : PC → Option (State ι)
  | .chunkCount r =>
    if MaxChunks ≤ s.chunkCount then some (s.goto i (r.resume (some (.full s.chunkCount))))
    else some (s.goto i (.muxLock r s.chunkCount))
  | .muxLock r count =>
    if s.tryAppendChunkMux = none then
      some { s.goto i (.recheck r count) with tryAppendChunkMux := some i }
    else none
  | .recheck r count =>
    if count ≠ s.chunkCount then some (s.goto i (.muxUnlock r none))
    else some (s.goto i (.newChunk r count))
  | .newChunk r count =>
    if choice then some (s.goto i (.lock r ⟨count⟩))
    else some (s.goto i (.muxUnlock r (some .newChunk)))
  | .lock r chunk =>
    if s.mu.writer = none then
      some { s.goto i (.lockWait r chunk) with mu := s.mu.announce i }
    else none
  | .lockWait r chunk => if s.mu.readers = ∅ then some (s.goto i (.grow r chunk)) else none
  | .grow r chunk => some ((s.appendChunk chunk choice).goto i (.callback r chunk))
  -- `onChunkAppended` does not touch the bus
  | .callback r _ => some (s.goto i (.unlock r))
  | .unlock r => some { s.goto i (.muxUnlock r none) with mu := s.mu.unlock }
  | .muxUnlock r err => some { s.goto i (r.resume err) with tryAppendChunkMux := none }
  | _ => none

/-- What a caller of `FreeBlock` holds after the block is freed. -/
def Freer.released (chunkID blockIdx : Int16) (held : List Block) : Freer → List Block
  | .direct => held.eraseP fun b => b.chunkID = chunkID ∧ b.blockIdx = blockIdx
  | .alloc .. => held

/-- Thread `i` no longer has the block that it has freed. -/
def State.release (s : State ι) (i : ι) (chunkID blockIdx : Int16) (u : Freer) : State ι :=
  { s with held := Function.update s.held i (u.released chunkID blockIdx (s.held i)) }

/-- One step of `FreeBlock`. -/
def State.stepFree (s : State ι) (i : ι) : PC → Option (State ι)
  | .freeRLock chunkID blockIdx u =>
    some { s.goto i (.freeRWait chunkID blockIdx u) with mu := s.mu.rlock i }
  | .freeRWait chunkID blockIdx u =>
    if i ∈ s.mu.readers then some (s.goto i (.freeStart chunkID blockIdx u)) else none
  | .freeStart chunkID blockIdx u =>
    let wordIdx := wordIdxOf (getBlockAddress chunkID blockIdx)
    if s.bitmap.len ≤ wordIdx then some (s.goto i (.freeRUnlock u))
    else if wordIdx < 0 then some (s.goto i .panicked)
    else some (s.goto i (.freeLoad chunkID blockIdx u s.bitmap))
  | .freeLoad chunkID blockIdx u bitmap =>
    let wordIdx := wordIdxOf (getBlockAddress chunkID blockIdx)
    some (s.goto i (.freeCas chunkID blockIdx u bitmap (s.word bitmap wordIdx.toNat)))
  | .freeCas chunkID blockIdx u bitmap old =>
    let wordIdx := wordIdxOf (getBlockAddress chunkID blockIdx)
    if s.word bitmap wordIdx.toNat = old then
      let mask := freeMask (getBlockAddress chunkID blockIdx)
      let s := s.storeWord bitmap wordIdx.toNat (old &&& mask)
      some ((s.release i chunkID blockIdx u).goto i (.freeRUnlock u))
    else some (s.goto i (.freeLoad chunkID blockIdx u bitmap))
  | .freeRUnlock u => some { s.goto i u.resume with mu := s.mu.runlock i }
  | _ => none

/-- What can happen next: a thread calls `AllocBlocks`, `tryAppendChunk` or `FreeBlock`, hands a
block it holds to another thread, or takes a step of its call. -/
inductive Action (ι : Type)
  | callAlloc (i : ι) (count : ℕ)
  | callAppend (i : ι)
  | callFree (i : ι) (chunkID blockIdx : Int16)
  | give (i j : ι) (b : Block)
  | run (i : ι) (choice : Bool)

/-- A step of any thread. -/
def step (s : State ι) : Action ι → Option (State ι)
  | .callAlloc i count =>
    if (s.pc i).Quiet then
      if CanMake s.makeLimit count then some (s.goto i (.rlock ⟨count, [], count⟩))
      else some (s.goto i (.makeFailed count))
    else none
  | .callAppend i => if (s.pc i).Quiet then some (s.goto i (.chunkCount .direct)) else none
  | .callFree i chunkID blockIdx =>
    if (s.pc i).Quiet then some (s.goto i (.freeRLock chunkID blockIdx .direct)) else none
  | .give i j b =>
    if (s.pc i).Quiet ∧ b ∈ s.held i ∧ i ≠ j then
      some { s with
        held := Function.update (Function.update s.held i ((s.held i).erase b)) j
          (s.held j ++ [b]) }
    else none
  | .run i choice =>
    s.stepAlloc i (s.pc i) <|> s.stepAppend i choice (s.pc i) <|> s.stepFree i (s.pc i)

/-- `NewBus`: one chunk, its bitmap clear. -/
def newBus (firstChunk : Chunk) (makeLimit : MakeLimit) : State ι :=
  { makeLimit
    arrays := fun _ => List.replicate (BlocksPerChunk / 32) 0
    bitmap := ⟨0, BlocksPerChunk / 32⟩
    chunks := [firstChunk]
    chunkCount := 1
    lastSearchPos := 0
    mu := RWMutex.unlocked
    tryAppendChunkMux := none
    pc := fun _ => .idle
    held := fun _ => [] }

/-- The bus as a system. -/
def bus (ι : Type) [DecidableEq ι] : System (State ι) (Action ι) where
  Init s := ∃ firstChunk makeLimit, s = newBus firstChunk makeLimit
  step := step

end Mmfg.Bus
