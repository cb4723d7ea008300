import Mmfg.Lib.Pool
import Mmfg.Bus.Basic

/-!
# The invariant of the bus

`Inv` ties the bitmap to the threads: its set bits are exactly the addresses of the blocks that
threads hold or have collected, each once.  It rests on the two locks.  A thread inside the read
lock works on the current bitmap and chunk list, since both are replaced only under the write
lock; and the chunk count read before `tryAppendChunkMux` is still right after the second check,
since it changes only inside that mutex.
-/

namespace Mmfg.Bus

open RWMutex (Role)

/-- The block lies in a chunk of the list, and its memory is the right part of that chunk. -/
def Block.Mapped (chunks : List Chunk) (b : Block) : Prop :=
  0 ≤ (~~~b.chunkID).toInt ∧ 0 ≤ b.blockIdx.toInt ∧ b.blockIdx.toInt < BlocksPerChunk ∧
    ∃ c, chunks[(~~~b.chunkID).toInt.toNat]? = some c ∧
      b.data = some (c, b.blockIdx.toInt.toNat * BlockSize)

theorem Block.Mapped.append {chunks : List Chunk} {b : Block} (h : b.Mapped chunks)
    (c : Chunk) : b.Mapped (chunks ++ [c]) := by
  obtain ⟨h1, h2, h3, d, hd, hdata⟩ := h
  refine ⟨h1, h2, h3, d, ?_, hdata⟩
  rw [List.getElem?_append_left (List.getElem?_eq_some_iff.1 hd).1]
  exact hd

theorem Block.Mapped.address_eq {chunks : List Chunk} {b : Block} (h : b.Mapped chunks) :
    getBlockAddress b.chunkID b.blockIdx = b.address := by
  obtain ⟨h1, h2, -⟩ := h
  refine (Int.toNat_of_nonneg ?_).symm
  unfold getBlockAddress
  positivity

theorem Block.Mapped.address_lt {chunks : List Chunk} {b : Block} (h : b.Mapped chunks) :
    b.address < BlocksPerChunk * chunks.length := by
  have haddr := h.address_eq
  obtain ⟨h1, h2, h3, d, hd, -⟩ := h
  have hlt := (List.getElem?_eq_some_iff.1 hd).1
  simp only [getBlockAddress, BlocksPerChunk] at haddr h3 ⊢
  omega

theorem blockAt_mapped {chunks : List Chunk} {a : ℕ} (ha : a < BlocksPerChunk * chunks.length)
    (hmax : chunks.length ≤ MaxChunks) :
    (blockAt chunks a).Mapped chunks ∧ (blockAt chunks a).address = a := by
  simp only [BlocksPerChunk, MaxChunks] at ha hmax
  have hparse := getBlockAddress_parse (a := a) (by simp only [BlocksPerChunk, MaxChunks]; omega)
  have hcid : (~~~(parseBlockAddress a).1).toInt = (a / 1024 : ℕ) := by
    rw [parseBlockAddress, Int16.not_not, toInt_ofNat_of_lt (by simp only [BlocksPerChunk]; omega)]
  have hidx : (parseBlockAddress a).2.toInt = (a % 1024 : ℕ) := by
    rw [parseBlockAddress, toInt_ofNat_of_lt (by simp only [BlocksPerChunk]; omega)]
  have hget : chunks[a / 1024]? = some chunks[a / 1024] := List.getElem?_eq_getElem (by omega)
  refine ⟨⟨?_, ?_, ?_, chunks[a / 1024], ?_, ?_⟩, ?_⟩
  · simp only [blockAt, hcid]
    omega
  · simp only [blockAt, hidx]
    omega
  · simp only [blockAt, hidx, BlocksPerChunk]
    omega
  · simp only [blockAt, hcid, Int.toNat_natCast]
    exact hget
  · simp only [blockAt, hcid, Int.toNat_natCast, hget, Option.map_some]
  · simp only [Block.address, blockAt, hparse, Int.toNat_natCast]

/-! ## What a program point stands for -/

/-- What the thread does with `b.mu`. -/
def PC.role : PC → Role
  | .rwait .. | .freeRWait .. => .rwait
  | .snapshot .. | .position .. | .load .. | .cas .. | .storePos .. | .finish .. | .runlock ..
  | .freeStart .. | .freeLoad .. | .freeCas .. | .freeRUnlock .. => .reading
  | .lockWait .. => .wwait
  | .grow .. | .callback .. | .unlock .. => .writing
  | _ => .out

/-- The thread holds `tryAppendChunkMux`. -/
def PC.inMux : PC → Bool
  | .recheck .. | .newChunk .. | .lock .. | .lockWait .. | .grow .. | .callback .. | .unlock ..
  | .muxUnlock .. => true
  | _ => false

/-- The blocks that the caller has collected so far. -/
def Appender.collected : Appender → List Block
  | .direct => []
  | .alloc c => c.allocated

/-- The blocks still to be freed before the current one is. -/
def Freer.collected : Freer → List Block
  | .direct => []
  | .alloc _ _ b rest => b :: rest

/-- The blocks still to be freed after the current one. -/
def Freer.rest : Freer → List Block
  | .direct => []
  | .alloc _ _ _ rest => rest

/-- The blocks collected by an `AllocBlocks` in progress. -/
def PC.collected : PC → List Block
  | .idle | .returned .. | .panicked | .makeFailed _ => []
  | .rlock c | .rwait c | .snapshot c | .position c _ _ | .finish c | .runlock c => c.allocated
  | .load f | .cas f _ _ _ | .storePos f => f.allocated
  | .chunkCount r | .muxLock r _ | .recheck r _ | .newChunk r _ | .lock r _ | .lockWait r _
  | .grow r _ | .callback r _ | .unlock r | .muxUnlock r _ => r.collected
  | .freeRLock _ _ u | .freeRWait _ _ u | .freeStart _ _ u | .freeLoad _ _ u _
  | .freeCas _ _ u _ _ => u.collected
  | .freeRUnlock u => u.rest

/-- What the locks and the bitmap see of a program point. -/
def PC.view (pc : PC) : Role × Bool × List Block := (pc.role, pc.inMux, pc.collected)

/-- The blocks of a call are mapped, and with those it still needs they are as many as it was asked for. -/
def Call.Ok (chunks : List Chunk) (c : Call) : Prop :=
  c.allocated.length + c.remaining = c.count ∧ ∀ b ∈ c.allocated, b.Mapped chunks

/-- A search has the bitmap and the chunks of the bus in hand. -/
def Scan.Ok (bitmap : Slice) (chunks : List Chunk) (f : Scan) : Prop :=
  f.toCall.Ok chunks ∧ f.bitmapSlice = bitmap ∧ f.chunksSnapshot = chunks

/-- The same for the caller of `tryAppendChunk`. -/
def Appender.Ok (chunks : List Chunk) : Appender → Prop
  | .direct => True
  | .alloc c => c.Ok chunks

/-- The block named in a call of `FreeBlock` is held by the caller, or collected. -/
def Freer.Ok (chunks : List Chunk) (held : List Block) (chunkID blockIdx : Int16) : Freer → Prop
  | .direct => ∃ b ∈ held, b.chunkID = chunkID ∧ b.blockIdx = blockIdx
  | .alloc _ _ b rest =>
    b.chunkID = chunkID ∧ b.blockIdx = blockIdx ∧ ∀ x ∈ b :: rest, x.Mapped chunks

/-- What holds at a program point of a thread that holds the blocks `held`. -/
def PC.Ok (bitmap : Slice) (chunks : List Chunk) (count : ℕ) (held : List Block) : PC → Prop
  | .idle | .returned _ (.error _) | .makeFailed _ => True
  | .panicked => False
  | .returned n (.ok blocks) =>
    blocks.length = n ∧ (blocks.map Block.address).Nodup ∧ ∀ b ∈ blocks, b.Mapped chunks
  | .rlock c | .rwait c | .snapshot c | .runlock c => c.Ok chunks
  | .position c bm ch => c.Ok chunks ∧ bm = bitmap ∧ ch = chunks
  | .load f => f.Ok bitmap chunks
  | .cas f old newVal found => f.Ok bitmap chunks ∧ Found f.remaining old newVal found
  | .storePos f => f.Ok bitmap chunks ∧ f.remaining = 0
  | .finish c => c.Ok chunks ∧ c.remaining = 0
  | .chunkCount r | .callback r _ | .unlock r | .muxUnlock r _ => r.Ok chunks
  | .muxLock r n | .recheck r n => r.Ok chunks ∧ n < MaxChunks
  | .newChunk r n => r.Ok chunks ∧ n = count ∧ n < MaxChunks
  | .lock r _ | .lockWait r _ | .grow r _ => r.Ok chunks ∧ count < MaxChunks
  | .freeRLock cid idx u | .freeRWait cid idx u | .freeStart cid idx u => u.Ok chunks held cid idx
  | .freeLoad cid idx u bm | .freeCas cid idx u bm _ => u.Ok chunks held cid idx ∧ bm = bitmap
  | .freeRUnlock u => ∀ b ∈ u.rest, b.Mapped chunks

variable {ι : Type}

/-- The addresses a thread holds or has collected. -/
def State.own (s : State ι) (i : ι) : List ℕ :=
  (s.held i ++ (s.pc i).collected).map Block.address

/-- The invariant of the bus. -/
structure Inv (s : State ι) : Prop where
  mu : s.mu.Tracks fun i => (s.pc i).role
  mux : ∀ i, s.tryAppendChunkMux = some i ↔ (s.pc i).inMux = true
  words : (s.arrays s.bitmap.arr).length = s.bitmap.len
  len : s.bitmap.len = 32 * s.chunks.length
  count : s.chunkCount = s.chunks.length
  pos : 0 < s.chunks.length
  max : s.chunks.length ≤ MaxChunks
  own : Pool.Exact s.own fun a => bitAt (s.arrays s.bitmap.arr) a = true
  held : ∀ i, ∀ b ∈ s.held i, b.Mapped s.chunks
  pcs : ∀ i, (s.pc i).Ok s.bitmap s.chunks s.chunkCount (s.held i)

theorem inv_newBus (firstChunk : Chunk) (makeLimit : MakeLimit) :
    Inv (newBus firstChunk makeLimit : State ι) where
  mu := RWMutex.tracks_unlocked
  mux := by simp [newBus, PC.inMux]
  words := rfl
  len := rfl
  count := rfl
  pos := by simp [newBus]
  max := by simp [newBus]
  own := by
    refine Pool.exact_empty.congr_used fun a => ?_
    have hzero := @bitAt_append_zero [] (BlocksPerChunk / 32) a
    rw [List.nil_append] at hzero
    simp only [newBus, hzero]
    simp [bitAt]
  held := by simp [newBus]
  pcs _ := trivial

variable {s t : State ι} {i : ι}

/-! ## Program points -/

theorem undo_view (count : ℕ) (err : Err) (l : List Block) :
    (undo count err l).view = (.out, false, l) := by
  cases l <;> rfl

theorem undo_ok {bitmap : Slice} {chunks : List Chunk} {n count : ℕ} {held : List Block}
    {err : Err} {l : List Block} (h : ∀ b ∈ l, b.Mapped chunks) :
    (undo count err l).Ok bitmap chunks n held := by
  cases l with
  | nil => trivial
  | cons b rest => exact ⟨rfl, rfl, h⟩

theorem Appender.resume_view (err : Option Err) (r : Appender) :
    (r.resume err).view = (.out, false, r.collected) := by
  cases r with
  | direct => rfl
  | alloc c =>
    cases err with
    | none => rfl
    | some err => exact undo_view c.count err c.allocated

theorem Appender.resume_ok {bitmap : Slice} {chunks : List Chunk} {n : ℕ} {held : List Block}
    {err : Option Err} {r : Appender} (h : r.Ok chunks) :
    (r.resume err).Ok bitmap chunks n held := by
  cases r with
  | direct => trivial
  | alloc c =>
    cases err with
    | none => exact h
    | some err => exact undo_ok h.2

theorem Freer.resume_view (u : Freer) : u.resume.view = (.out, false, u.rest) := by
  cases u with
  | direct => rfl
  | alloc count err b rest => exact undo_view count err rest

theorem Freer.resume_ok {bitmap : Slice} {chunks : List Chunk} {n : ℕ} {held : List Block}
    {u : Freer} (h : ∀ b ∈ u.rest, b.Mapped chunks) : u.resume.Ok bitmap chunks n held := by
  cases u with
  | direct => trivial
  | alloc count err b rest => exact undo_ok h

theorem Scan.next_view (f : Scan) : f.next.view = (.reading, false, f.allocated) := by
  unfold next
  split_ifs <;> rfl

theorem Scan.next_ok {bitmap : Slice} {chunks : List Chunk} {n : ℕ} {held : List Block}
    {f : Scan} (h : f.Ok bitmap chunks) : f.next.Ok bitmap chunks n held := by
  unfold next
  split_ifs
  · exact h
  · exact h.1

theorem PC.Quiet.view {pc : PC} (h : pc.Quiet = true) : pc.view = (.out, false, []) := by
  cases pc <;> first | rfl | cases h

/-- A quiet thread may hold other blocks. -/
theorem PC.Quiet.ok {pc : PC} (h : pc.Quiet = true) {bitmap : Slice} {chunks : List Chunk} {n : ℕ}
    {held held' : List Block} (hok : pc.Ok bitmap chunks n held) :
    pc.Ok bitmap chunks n held' := by
  cases pc with
  | idle => trivial
  | returned n r => cases r <;> exact hok
  | _ => cases h

/-- More held blocks do no harm. -/
theorem PC.Ok.mono_held {pc : PC} {bitmap : Slice} {chunks : List Chunk} {n : ℕ}
    {held : List Block} (h : pc.Ok bitmap chunks n held) (new : List Block) :
    pc.Ok bitmap chunks n (held ++ new) := by
  have hfreer : ∀ {cid idx : Int16} {u : Freer}, u.Ok chunks held cid idx →
      u.Ok chunks (held ++ new) cid idx := by
    intro cid idx u hu
    cases u with
    | direct =>
      obtain ⟨b, hb, he⟩ := hu
      exact ⟨b, List.mem_append_left new hb, he⟩
    | alloc count err b rest => exact hu
  cases pc with
  | freeRLock cid idx u => exact hfreer h
  | freeRWait cid idx u => exact hfreer h
  | freeStart cid idx u => exact hfreer h
  | freeLoad cid idx u bm => exact ⟨hfreer h.1, h.2⟩
  | freeCas cid idx u bm old => exact ⟨hfreer h.1, h.2⟩
  | returned n r => cases r <;> exact h
  | _ => exact h

/-- Growth under the write lock does not disturb a thread that is neither inside the read lock nor
inside `tryAppendChunkMux`. -/
theorem PC.Ok.grow {pc : PC} {bitmap bitmap' : Slice} {chunks : List Chunk} {n n' : ℕ}
    {held : List Block} (h : pc.Ok bitmap chunks n held) (hr : pc.role ≠ .reading)
    (hm : pc.inMux = false) (c : Chunk) : pc.Ok bitmap' (chunks ++ [c]) n' held := by
  have hcall : ∀ {x : Call}, x.Ok chunks → x.Ok (chunks ++ [c]) := fun hx =>
    ⟨hx.1, fun b hb => (hx.2 b hb).append c⟩
  have happ : ∀ {r : Appender}, r.Ok chunks → r.Ok (chunks ++ [c]) := by
    intro r hx
    cases r with
    | direct => trivial
    | alloc x => exact hcall hx
  have hfreer : ∀ {cid idx : Int16} {u : Freer}, u.Ok chunks held cid idx →
      u.Ok (chunks ++ [c]) held cid idx := by
    intro cid idx u hu
    cases u with
    | direct => exact hu
    | alloc count err b rest => exact ⟨hu.1, hu.2.1, fun x hx => (hu.2.2 x hx).append c⟩
  cases pc with
  | idle | makeFailed n => trivial
  | panicked => exact h
  | returned n r =>
    cases r with
    | error e => trivial
    | ok blocks => exact ⟨h.1, h.2.1, fun b hb => (h.2.2 b hb).append c⟩
  | rlock x => exact hcall h
  | rwait x => exact hcall h
  | chunkCount r => exact happ h
  | muxLock r n => exact ⟨happ h.1, h.2⟩
  | freeRLock cid idx u => exact hfreer h
  | freeRWait cid idx u => exact hfreer h
  | _ => first | exact absurd rfl hr | cases hm

end Mmfg.Bus
