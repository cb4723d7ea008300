import Mmfg.Lib.Simulation
import Mmfg.Bus.Alloc

/-!
# The bitmap is an allocator

What the bus is for: a set of blocks in use, from which `take` takes unused blocks of the chunks
there are, several at once, to which `free` gives one back, and which grows by a chunk at a time.
A compare-and-swap of a bitmap word is one such operation.  `bus_refines_allocator` says that the
effects of a run, in their order, are a run of the allocator on the blocks that the bitmap marks,
and accounts for every `AllocBlocks`: it returns what its own steps have taken, and if it fails they
have given all of it back.
-/

namespace Mmfg.Bus

/-- The blocks in use, by their addresses, and the number of chunks. -/
structure Allocator where
  used : Finset ℕ
  chunks : ℕ
  deriving DecidableEq

/-- What a step does to the allocator. -/
inductive Effect where
  | take (blocks : List ℕ)
  | free (block : ℕ)
  | grow
  deriving DecidableEq

/-- A step of the allocator: free blocks are taken, blocks are freed, a chunk is added. -/
def allocatorStep (t : Allocator) : Effect → Option Allocator
  | .take blocks =>
    if blocks.Nodup ∧ ∀ a ∈ blocks, a < BlocksPerChunk * t.chunks ∧ a ∉ t.used then
      some { t with used := t.used ∪ blocks.toFinset }
    else none
  | .free block => if block ∈ t.used then some { t with used := t.used.erase block } else none
  | .grow => if t.chunks < MaxChunks then some { t with chunks := t.chunks + 1 } else none

/-- The allocator; there is a chunk from the beginning. -/
def allocator : System Allocator Effect where
  Init t := t = ⟨∅, 1⟩
  step := allocatorStep

variable {ι : Type}

/-- The steps that change the bitmap. -/
def State.effectAt (s : State ι) : PC → Option Effect
  | .cas f old _ foundBits =>
    if s.word f.bitmapSlice f.wordIdx = old then
      some (.take (foundBits.map (f.wordIdx * 32 + ·)))
    else none
  | .freeCas chunkID blockIdx _ bitmap old =>
    if s.word bitmap (wordIdxOf (getBlockAddress chunkID blockIdx)).toNat = old then
      some (.free (getBlockAddress chunkID blockIdx).toNat)
    else none
  | .grow _ _ => some .grow
  | _ => none

/-- What a step of the bus is for the allocator. -/
def effect (s : State ι) : Action ι → Option Effect
  | .run i _ => s.effectAt (s.pc i)
  | _ => none

/-- The blocks that the bitmap marks. -/
def State.marked (s : State ι) : Finset ℕ :=
  (Finset.range (BlocksPerChunk * s.chunks.length)).filter fun a =>
    bitAt (s.arrays s.bitmap.arr) a = true

/-- The allocator that the bus implements. -/
def State.allocator (s : State ι) : Allocator := ⟨s.marked, s.chunks.length⟩

variable {s t : State ι} {i : ι} {a : Action ι} {as : List (Action ι)}

theorem Inv.mem_marked (h : Inv s) {b : ℕ} :
    b ∈ s.marked ↔ bitAt (s.arrays s.bitmap.arr) b = true := by
  rw [State.marked, Finset.mem_filter, Finset.mem_range]
  refine and_iff_right_of_imp fun hbit => ?_
  have hlt := bitAt_lt hbit
  have hwords := h.words
  have hlen := h.len
  simp only [BlocksPerChunk]
  omega

variable [DecidableEq ι]

/-! ## Steps without an effect -/

/-- Bitmap and chunks are as before. -/
def SameMemory (s t : State ι) : Prop :=
  t.arrays = s.arrays ∧ t.bitmap = s.bitmap ∧ t.chunks = s.chunks

omit [DecidableEq ι] in
theorem SameMemory.allocator (h : SameMemory s t) : t.allocator = s.allocator := by
  obtain ⟨harr, hbm, hch⟩ := h
  simp only [State.allocator, State.marked, harr, hbm, hch]

theorem stepAlloc_memory {pc : PC} (hs : s.stepAlloc i pc = some t) (he : s.effectAt pc = none) :
    SameMemory s t := by
  cases pc with
  | cas f old newVal found =>
    simp only [State.effectAt, ite_eq_right_iff, reduceCtorEq, imp_false] at he
    simp only [State.stepAlloc, if_neg he, Option.some.injEq] at hs
    subst hs
    exact ⟨rfl, rfl, rfl⟩
  | _ =>
    simp only [State.stepAlloc, reduceCtorEq] at hs <;> (try split_ifs at hs) <;>
      simp only [Option.some.injEq] at hs <;> subst hs <;> exact ⟨rfl, rfl, rfl⟩

theorem stepAppend_memory {pc : PC} {choice : Bool} (hs : s.stepAppend i choice pc = some t)
    (he : s.effectAt pc = none) : SameMemory s t := by
  cases pc with
  | grow r chunk => cases he
  | _ =>
    simp only [State.stepAppend, reduceCtorEq] at hs <;> (try split_ifs at hs) <;>
      simp only [Option.some.injEq] at hs <;> subst hs <;> exact ⟨rfl, rfl, rfl⟩

theorem stepFree_memory {pc : PC} (hs : s.stepFree i pc = some t) (he : s.effectAt pc = none) :
    SameMemory s t := by
  cases pc with
  | freeCas cid idx u bm old =>
    simp only [State.effectAt, ite_eq_right_iff, reduceCtorEq, imp_false] at he
    simp only [State.stepFree, if_neg he, Option.some.injEq] at hs
    subst hs
    exact ⟨rfl, rfl, rfl⟩
  | _ =>
    simp only [State.stepFree, reduceCtorEq] at hs <;> (try split_ifs at hs) <;>
      simp only [Option.some.injEq] at hs <;> subst hs <;> exact ⟨rfl, rfl, rfl⟩

theorem step_memory (hs : (bus ι).step s a = some t) (he : effect s a = none) :
    SameMemory s t := by
  cases a with
  | callAlloc i count | callAppend i | callFree i cid idx | give i j b =>
    simp only [bus, step] at hs
    split_ifs at hs <;> cases hs <;> exact ⟨rfl, rfl, rfl⟩
  | run i choice =>
    simp only [bus, step, Option.orElse_eq_some] at hs
    rcases hs with hs | ⟨-, hs | ⟨-, hs⟩⟩
    · exact stepAlloc_memory hs he
    · exact stepAppend_memory hs he
    · exact stepFree_memory hs he

/-! ## Steps with an effect -/

theorem take_step (h : Inv s) {f : Scan} {old newVal : Word} {found : List ℕ}
    (hpc : s.pc i = .cas f old newVal found) (hw : s.word f.bitmapSlice f.wordIdx = old) (pc : PC) :
    allocatorStep s.allocator (.take (found.map (f.wordIdx * 32 + ·))) =
      some ((s.storeWord f.bitmapSlice f.wordIdx newVal).goto i pc).allocator := by
  have hi := h.pcs i
  rw [hpc] at hi
  obtain ⟨⟨-, hbm, -⟩, hfound⟩ := hi
  rw [hbm] at hw ⊢
  have hidx : f.wordIdx < s.bitmap.len := by
    rw [Scan.wordIdx, hbm]
    exact Nat.mod_lt _ h.bitmap_pos
  have hget := h.word_eq hidx
  rw [hw] at hget
  have hlen := h.len
  have hpos : ∀ b ∈ found.map (f.wordIdx * 32 + ·), b < BlocksPerChunk * s.chunks.length := by
    intro b hb
    obtain ⟨k, hk, rfl⟩ := List.mem_map.1 hb
    have := (hfound.clear k hk).1
    simp only [BlocksPerChunk]
    omega
  have hnodup : (found.map (f.wordIdx * 32 + ·)).Nodup :=
    hfound.nodup.map fun a b hab => by simpa using hab
  have hfree : ∀ b ∈ found.map (f.wordIdx * 32 + ·), b < BlocksPerChunk * s.chunks.length ∧
      b ∉ s.marked := by
    intro b hb
    refine ⟨hpos b hb, ?_⟩
    rw [h.mem_marked, bitAt_take_clear hget hfound hb]
    exact Bool.false_ne_true
  have harr : ((s.storeWord s.bitmap f.wordIdx newVal).goto i pc).arrays s.bitmap.arr =
      (s.arrays s.bitmap.arr).set f.wordIdx newVal := by
    simp [State.storeWord, State.goto]
  have hmarked : ((s.storeWord s.bitmap f.wordIdx newVal).goto i pc).marked =
      s.marked ∪ (found.map (f.wordIdx * 32 + ·)).toFinset := by
    ext b
    rw [Finset.mem_union, h.mem_marked, List.mem_toFinset, ← bitAt_take hget hfound, ← harr]
    rw [State.marked, Finset.mem_filter, Finset.mem_range]
    refine and_iff_right_of_imp fun hbit => ?_
    change bitAt (((s.storeWord s.bitmap f.wordIdx newVal).goto i pc).arrays s.bitmap.arr) b = true
      at hbit
    rw [harr, bitAt_take hget hfound, ← h.mem_marked, State.marked, Finset.mem_filter,
      Finset.mem_range] at hbit
    rcases hbit with hbit | hbit
    · exact hbit.1
    · exact hpos b hbit
  have htake : allocatorStep s.allocator (.take (found.map (f.wordIdx * 32 + ·))) =
      some ⟨s.marked ∪ (found.map (f.wordIdx * 32 + ·)).toFinset, s.chunks.length⟩ :=
    if_pos ⟨hnodup, hfree⟩
  rw [htake, ← hmarked]
  rfl

theorem free_step (h : Inv s) {cid idx : Int16} {u : Freer} {bm : Slice} {old : Word}
    (hpc : s.pc i = .freeCas cid idx u bm old)
    (hw : s.word bm (wordIdxOf (getBlockAddress cid idx)).toNat = old) :
    allocatorStep s.allocator (.free (getBlockAddress cid idx).toNat) =
      some (((s.storeWord bm (wordIdxOf (getBlockAddress cid idx)).toNat
        (old &&& freeMask (getBlockAddress cid idx))).release i cid idx u).goto i
          (.freeRUnlock u)).allocator := by
  have hi := h.pcs i
  rw [hpc] at hi
  obtain ⟨hu, rfl⟩ := hi
  obtain ⟨b, hb, hbc, hbi, hperm⟩ := hu.exists_block (h.held i)
  have haddr : getBlockAddress cid idx = b.address := by
    rw [← hbc, ← hbi]
    exact hb.address_eq
  -- the block is one of those the caller holds or has collected, so it is marked
  have hmem : b.address ∈ s.marked := by
    rw [h.mem_marked, h.own.used_iff]
    refine ⟨i, List.mem_map_of_mem ?_⟩
    rw [hpc]
    exact hperm.mem_iff.2 List.mem_cons_self
  rw [haddr, wordIdxOf_natCast, Int.toNat_natCast] at hw
  rw [haddr, wordIdxOf_natCast, Int.toNat_natCast, Int.toNat_natCast, freeMask_natCast]
  have hidx : b.address / 32 < s.bitmap.len := by
    have := hb.address_lt
    have := h.len
    simp only [BlocksPerChunk] at *
    omega
  have hget := h.word_eq hidx
  rw [hw] at hget
  have hmarked : (((s.storeWord s.bitmap (b.address / 32)
      (old &&& ~~~(1#32 <<< (b.address % 32)))).release i cid idx u).goto i (.freeRUnlock u)).marked =
      s.marked.erase b.address := by
    ext x
    rw [Finset.mem_erase, h.mem_marked, and_comm, ← bitAt_free hget, State.marked, Finset.mem_filter,
      Finset.mem_range]
    have harr : (((s.storeWord s.bitmap (b.address / 32)
        (old &&& ~~~(1#32 <<< (b.address % 32)))).release i cid idx u).goto i
          (.freeRUnlock u)).arrays s.bitmap.arr = (s.arrays s.bitmap.arr).set (b.address / 32)
            (old &&& ~~~(1#32 <<< (b.address % 32))) := by
      simp [State.storeWord, State.release, State.goto]
    change _ ∧ bitAt ((((s.storeWord s.bitmap (b.address / 32)
        (old &&& ~~~(1#32 <<< (b.address % 32)))).release i cid idx u).goto i
          (.freeRUnlock u)).arrays s.bitmap.arr) x = true ↔ _
    rw [harr]
    refine and_iff_right_of_imp fun hbit => ?_
    have := ((bitAt_free hget).1 hbit).1
    rw [← h.mem_marked, State.marked, Finset.mem_filter, Finset.mem_range] at this
    exact this.1
  have hfree : allocatorStep s.allocator (.free b.address) =
      some ⟨s.marked.erase b.address, s.chunks.length⟩ := if_pos hmem
  rw [hfree, ← hmarked]
  rfl

theorem grow_step (h : Inv s) {r : Appender} {chunk : Chunk} (hpc : s.pc i = .grow r chunk)
    (copied : Bool) :
    allocatorStep s.allocator .grow =
      some ((s.appendChunk chunk copied).goto i (.callback r chunk)).allocator := by
  have hi := h.pcs i
  rw [hpc] at hi
  have hmax : s.chunks.length < MaxChunks := h.count ▸ hi.2
  have hwords : s.words = s.arrays s.bitmap.arr := by
    rw [State.words, ← h.words, List.take_length]
  have hbits : ∀ b, bitAt (((s.appendChunk chunk copied).goto i (.callback r chunk)).arrays
      ((s.appendChunk chunk copied).goto i (.callback r chunk)).bitmap.arr) b =
      bitAt (s.arrays s.bitmap.arr) b := by
    intro b
    simp only [State.goto, State.appendChunk, Function.update_self, hwords, bitAt_append_zero]
  have hmarked : ((s.appendChunk chunk copied).goto i (.callback r chunk)).marked = s.marked := by
    ext b
    rw [h.mem_marked, State.marked, Finset.mem_filter, Finset.mem_range, hbits]
    refine and_iff_right_of_imp fun hbit => ?_
    rw [← h.mem_marked, State.marked, Finset.mem_filter, Finset.mem_range] at hbit
    simp only [State.goto, State.appendChunk, List.length_append, List.length_singleton,
      BlocksPerChunk] at hbit ⊢
    omega
  have hgrow : allocatorStep s.allocator .grow = some ⟨s.marked, s.chunks.length + 1⟩ := if_pos hmax
  rw [hgrow, ← hmarked, State.allocator]
  simp [State.goto, State.appendChunk]

/-- A step with an effect does to the allocator what the effect says. -/
theorem effect_step {b : Effect} (h : Inv s) (hs : (bus ι).step s a = some t)
    (he : effect s a = some b) : allocatorStep s.allocator b = some t.allocator := by
  cases a with
  | callAlloc i count | callAppend i | callFree i cid idx | give i j b => cases he
  | run i choice =>
    simp only [bus, step] at hs
    cases hpc : s.pc i with
    | cas f old newVal found =>
      simp only [effect, hpc, State.effectAt] at he
      split_ifs at he with hw
      cases he
      simp only [hpc, State.stepAlloc, if_pos hw] at hs
      split_ifs at hs <;> cases hs <;> exact take_step h hpc hw _
    | freeCas cid idx u bm old =>
      simp only [effect, hpc, State.effectAt] at he
      split_ifs at he with hw
      cases he
      simp only [hpc, State.stepAlloc, State.stepAppend, State.stepFree, if_pos hw] at hs
      cases hs
      exact free_step h hpc hw
    | grow r chunk =>
      simp only [effect, hpc, State.effectAt, Option.some.injEq] at he
      subst he
      simp only [hpc, State.stepAlloc, State.stepAppend] at hs
      cases hs
      exact grow_step h hpc choice
    | _ => simp [effect, hpc, State.effectAt] at he

/-- The bus simulates the allocator. -/
theorem bus_simulates : System.Simulates (bus ι) allocator FreesHeld effect
    (fun s t => Inv s ∧ t = s.allocator) where
  skip {s s' t a} hR hok hs he := by
    obtain ⟨h, rfl⟩ := hR
    exact ⟨inv_step h hok hs, (step_memory hs he).allocator.symm⟩
  take {s s' t a b} hR hok hs he := by
    obtain ⟨h, rfl⟩ := hR
    exact ⟨_, effect_step h hs he, inv_step h hok hs, rfl⟩

/-! ## What a call takes and gives back -/

/-- The steps of thread `i`. -/
def Action.isRun (i : ι) : Action ι → Bool
  | .run j _ => decide (j = i)
  | _ => false

/-- The thread calls one of the methods. -/
def Action.Calls (i : ι) : Action ι → Prop
  | .callAlloc j _ | .callAppend j | .callFree j _ _ => j = i
  | .give .. | .run .. => False

/-- The blocks that are taken, in order. -/
def takes (l : List Effect) : List ℕ :=
  l.flatMap fun
    | .take blocks => blocks
    | _ => []

/-- The blocks that are freed, in order. -/
def frees (l : List Effect) : List ℕ :=
  l.filterMap fun
    | .free block => some block
    | _ => none

/-- The thread is in `AllocBlocks`, or back from it. -/
def PC.InAlloc : PC → Prop
  | .idle | .panicked | .makeFailed _ => False
  | .chunkCount r | .muxLock r _ | .recheck r _ | .newChunk r _ | .lock r _ | .lockWait r _
  | .grow r _ | .callback r _ | .unlock r | .muxUnlock r _ => r ≠ .direct
  | .freeRLock _ _ u | .freeRWait _ _ u | .freeStart _ _ u | .freeLoad _ _ u _
  | .freeCas _ _ u _ _ | .freeRUnlock u => u ≠ .direct
  | _ => True

/-- The call has failed. -/
def PC.Undoing : PC → Prop
  | .freeRLock .. | .freeRWait .. | .freeStart .. | .freeLoad .. | .freeCas .. | .freeRUnlock ..
  | .returned _ (.error _) => True
  | _ => False

/-- The blocks that the call has or has returned. -/
def PC.blocks : PC → List Block
  | .returned _ (.ok blocks) => blocks
  | pc => pc.collected

/-- How the blocks of a call change with the effects `l` of its steps. -/
structure Accounts (pc pc' : PC) (l : List Effect) : Prop where
  inAlloc : pc'.InAlloc
  blocks : pc.blocks.map Block.address ++ takes l = frees l ++ pc'.blocks.map Block.address
  undoing : pc.Undoing → pc'.Undoing
  freed : pc'.Undoing ∨ frees l = []

theorem Accounts.move {pc pc' : PC} (hin : pc'.InAlloc) (hb : pc'.blocks = pc.blocks)
    (hu : pc.Undoing → pc'.Undoing) : Accounts pc pc' [] :=
  ⟨hin, by simp [takes, frees, hb], hu, .inr rfl⟩

theorem undo_inAlloc (count : ℕ) (err : Err) (l : List Block) :
    (undo count err l).InAlloc ∧ (undo count err l).Undoing ∧ (undo count err l).blocks = l := by
  cases l with
  | nil => exact ⟨trivial, trivial, rfl⟩
  | cons b rest => exact ⟨by simp [undo, PC.InAlloc], trivial, rfl⟩

theorem Scan.next_inAlloc (f : Scan) :
    f.next.InAlloc ∧ ¬ f.next.Undoing ∧ f.next.blocks = f.allocated := by
  unfold Scan.next
  split_ifs <;> exact ⟨trivial, id, rfl⟩

theorem Appender.resume_inAlloc {r : Appender} (h : r ≠ .direct) (err : Option Err) :
    (r.resume err).InAlloc ∧ (r.resume err).blocks = r.collected := by
  cases r with
  | direct => exact absurd rfl h
  | alloc c =>
    cases err with
    | none => exact ⟨trivial, rfl⟩
    | some err =>
      obtain ⟨hin, -, hb⟩ := undo_inAlloc c.count err c.allocated
      exact ⟨hin, hb⟩

theorem stepAlloc_accounts (h : Inv s) {pc : PC} (hpc : s.pc i = pc)
    (hs : s.stepAlloc i pc = some t) : Accounts pc (t.pc i) (s.effectAt pc).toList := by
  have hok := h.pcs i
  rw [hpc] at hok
  cases pc with
  | rlock c | snapshot c | storePos f | finish c | runlock c =>
    cases hs
    simp only [State.goto, Function.update_self]
    exact .move (by simp [PC.InAlloc]) rfl id
  | rwait c =>
    simp only [State.stepAlloc] at hs
    split_ifs at hs
    cases hs
    simp only [State.goto, Function.update_self]
    exact .move trivial rfl id
  | position c bm ch =>
    cases hs
    simp only [State.goto, Function.update_self]
    obtain ⟨hnext, -, hb⟩ := Scan.next_inAlloc ⟨c, bm, ch, s.lastSearchPos % bm.len, 0⟩
    exact .move hnext hb False.elim
  | load f =>
    simp only [State.stepAlloc] at hs
    obtain ⟨hnext, -, hb⟩ := Scan.next_inAlloc { f with i := f.i + 1 }
    split_ifs at hs <;> cases hs <;> simp only [State.goto, Function.update_self]
    · exact .move hnext hb False.elim
    · exact .move hnext hb False.elim
    · exact .move trivial rfl False.elim
  | cas f old newVal found =>
    obtain ⟨⟨-, hbm, hch⟩, hfound⟩ := hok
    -- the collected blocks are those at the bits found
    have haddr : (f.collect found).allocated.map Block.address =
        f.allocated.map Block.address ++ found.map (f.wordIdx * 32 + ·) := by
      have hidx : f.wordIdx < s.bitmap.len := by
        rw [Scan.wordIdx, hbm]
        exact Nat.mod_lt _ h.bitmap_pos
      have hlen := h.len
      rw [Scan.collect, List.map_append, List.map_map, hch]
      refine congrArg _ (List.map_congr_left fun k hk => (blockAt_mapped ?_ h.max).2)
      have := (hfound.clear k hk).1
      simp only [BlocksPerChunk]
      omega
    have htake : ∀ pc : PC, pc.InAlloc → pc.blocks = (f.collect found).allocated →
        Accounts (.cas f old newVal found) pc [.take (found.map (f.wordIdx * 32 + ·))] := by
      intro pc hin hb
      refine ⟨hin, ?_, False.elim, .inr rfl⟩
      rw [hb, haddr]
      simp [takes, frees, PC.blocks, PC.collected]
    simp only [State.stepAlloc] at hs
    by_cases hw : s.word f.bitmapSlice f.wordIdx = old
    · rw [State.effectAt, if_pos hw]
      simp only [if_pos hw] at hs
      split_ifs at hs <;> cases hs <;> simp only [State.goto, Function.update_self]
      · exact htake _ trivial rfl
      · obtain ⟨hnext, -, hb⟩ := Scan.next_inAlloc
          ⟨(f.collect found).toCall, f.bitmapSlice, f.chunksSnapshot, f.startWord, f.i + 1⟩
        exact htake _ hnext hb
    · rw [State.effectAt, if_neg hw]
      simp only [if_neg hw] at hs
      cases hs
      simp only [State.goto, Function.update_self]
      exact .move trivial rfl False.elim
  | _ => cases hs

theorem stepAppend_accounts {pc : PC} {choice : Bool} (hin : pc.InAlloc)
    (hs : s.stepAppend i choice pc = some t) : Accounts pc (t.pc i) (s.effectAt pc).toList := by
  cases pc with
  | chunkCount r =>
    obtain ⟨hres, hb⟩ := Appender.resume_inAlloc hin (some (.full s.chunkCount))
    simp only [State.stepAppend] at hs
    split_ifs at hs <;> cases hs <;> simp only [State.goto, Function.update_self]
    · exact .move hres hb False.elim
    · exact .move hin rfl False.elim
  | muxUnlock r err =>
    obtain ⟨hres, hb⟩ := Appender.resume_inAlloc hin err
    cases hs
    simp only [State.goto, Function.update_self]
    exact .move hres hb False.elim
  | grow r chunk =>
    cases hs
    simp only [State.goto, Function.update_self]
    refine ⟨hin, ?_, False.elim, .inr rfl⟩
    simp [takes, frees, PC.blocks, PC.collected, State.effectAt]
  | muxLock r n | recheck r n | newChunk r n | lock r c | lockWait r c | callback r c | unlock r =>
    simp only [State.stepAppend] at hs
    (try split_ifs at hs) <;> cases hs <;> simp only [State.goto, Function.update_self] <;>
      exact .move hin rfl False.elim
  | _ => cases hs

theorem stepFree_accounts (h : Inv s) {pc : PC} (hpc : s.pc i = pc) (hin : pc.InAlloc)
    (hs : s.stepFree i pc = some t) : Accounts pc (t.pc i) (s.effectAt pc).toList := by
  have hok := h.pcs i
  rw [hpc] at hok
  cases pc with
  | freeRLock cid idx u | freeLoad cid idx u bm =>
    cases hs
    simp only [State.goto, Function.update_self]
    exact .move hin rfl id
  | freeRWait cid idx u =>
    simp only [State.stepFree] at hs
    split_ifs at hs
    cases hs
    simp only [State.goto, Function.update_self]
    exact .move hin rfl id
  | freeStart cid idx u =>
    -- the block is mapped, so its word is there
    obtain ⟨b, hb, rfl, rfl, -⟩ := Freer.Ok.exists_block hok (h.held i)
    have haddr := hb.address_lt
    have hlen := h.len
    simp only [BlocksPerChunk] at haddr
    simp only [State.stepFree, hb.address_eq, wordIdxOf_natCast] at hs
    rw [if_neg (by omega), if_neg (by omega)] at hs
    cases hs
    simp only [State.goto, Function.update_self]
    exact .move hin rfl id
  | freeCas cid idx u bm old =>
    obtain ⟨hu, -⟩ := hok
    cases u with
    | direct => exact absurd rfl hin
    | alloc count err b rest =>
      obtain ⟨rfl, rfl, -⟩ := hu
      simp only [State.stepFree] at hs
      by_cases hw : s.word bm (wordIdxOf (getBlockAddress b.chunkID b.blockIdx)).toNat = old
      · rw [State.effectAt, if_pos hw]
        simp only [if_pos hw] at hs
        cases hs
        simp only [State.goto, Function.update_self]
        refine ⟨hin, ?_, fun _ => trivial, .inl trivial⟩
        simp [takes, frees, PC.blocks, PC.collected, Freer.collected, Freer.rest, Block.address]
      · rw [State.effectAt, if_neg hw]
        simp only [if_neg hw] at hs
        cases hs
        simp only [State.goto, Function.update_self]
        exact .move hin rfl id
  | freeRUnlock u =>
    cases u with
    | direct => exact absurd rfl hin
    | alloc count err b rest =>
      cases hs
      simp only [State.goto, Function.update_self]
      obtain ⟨hundo, hun, hb⟩ := undo_inAlloc count err rest
      exact .move hundo hb fun _ => hun
  | _ => cases hs

theorem Accounts.trans {pc pc' pc'' : PC} {l l' : List Effect} (h : Accounts pc pc' l)
    (h' : Accounts pc' pc'' l') : Accounts pc pc'' (l ++ l') where
  inAlloc := h'.inAlloc
  blocks := by
    have htakes : takes (l ++ l') = takes l ++ takes l' := List.flatMap_append
    have hfrees : Bus.frees (l ++ l') = Bus.frees l ++ Bus.frees l' := List.filterMap_append
    rw [htakes, hfrees, ← List.append_assoc, h.blocks, List.append_assoc, h'.blocks,
      List.append_assoc]
  undoing hu := h'.undoing (h.undoing hu)
  freed := by
    have hfrees : Bus.frees (l ++ l') = Bus.frees l ++ Bus.frees l' := List.filterMap_append
    rcases h.freed with hu | hl
    · exact .inl (h'.undoing hu)
    · rw [hfrees, hl, List.nil_append]
      exact h'.freed

theorem step_pc_of_ne (hs : (bus ι).step s a = some t) (ha : a.isRun i = false)
    (hcall : ¬ a.Calls i) : t.pc i = s.pc i := by
  have hgoto : ∀ {j : ι} (pc : PC), j ≠ i → (Function.update s.pc j pc) i = s.pc i :=
    fun pc hj => Function.update_of_ne (Ne.symm hj) _ _
  cases a with
  | callAlloc j count | callAppend j | callFree j cid idx =>
    simp only [bus, step] at hs
    split_ifs at hs <;> cases hs <;> exact hgoto _ hcall
  | give j k b =>
    simp only [bus, step] at hs
    split_ifs at hs
    cases hs
    rfl
  | run j choice =>
    have hj : j ≠ i := of_decide_eq_false ha
    simp only [bus, step, Option.orElse_eq_some] at hs
    generalize s.pc j = pc at hs
    rcases hs with hs | ⟨-, hs | ⟨-, hs⟩⟩
    · cases pc <;> simp only [State.stepAlloc, reduceCtorEq] at hs <;> (try split_ifs at hs) <;>
        cases hs <;> exact hgoto _ hj
    · cases pc <;> simp only [State.stepAppend, reduceCtorEq] at hs <;> (try split_ifs at hs) <;>
        cases hs <;> exact hgoto _ hj
    · cases pc <;> simp only [State.stepFree, reduceCtorEq] at hs <;> (try split_ifs at hs) <;>
        cases hs <;> exact hgoto _ hj

theorem run_accounts (h : Inv s) (hok : (bus ι).RunOk FreesHeld s as)
    (hr : (bus ι).run s as = some t) (hin : (s.pc i).InAlloc) (hcall : ∀ a ∈ as, ¬ a.Calls i) :
    Accounts (s.pc i) (t.pc i) ((bus ι).labelsOf effect (Action.isRun i) s as) := by
  induction as generalizing s with
  | nil =>
    cases hr
    exact .move hin rfl id
  | cons a as ih =>
    rw [System.run_cons, Option.bind_eq_some_iff] at hr
    obtain ⟨u, hu, hr⟩ := hr
    have hstep : Accounts (s.pc i) (u.pc i)
        (if a.isRun i then (effect s a).toList else []) := by
      cases ha : a.isRun i with
      | false =>
        rw [step_pc_of_ne hu ha (hcall a List.mem_cons_self)]
        exact .move hin rfl id
      | true =>
        cases a with
        | run j choice =>
          obtain rfl := of_decide_eq_true ha
          simp only [bus, step, Option.orElse_eq_some] at hu
          rcases hu with hu | ⟨-, hu | ⟨-, hu⟩⟩
          · exact stepAlloc_accounts h rfl hu
          · exact stepAppend_accounts hin hu
          · exact stepFree_accounts h rfl hin hu
        | _ => cases ha
    rw [System.labelsOf_cons hu]
    exact hstep.trans (ih (inv_step h hok.1 hu) (hok.2 u hu) hr hstep.inAlloc
      fun b hb => hcall b (List.mem_cons_of_mem _ hb))

omit [DecidableEq ι] in
theorem allocator_newBus (firstChunk : Chunk) (makeLimit : MakeLimit) :
    (newBus firstChunk makeLimit : State ι).allocator = ⟨∅, 1⟩ := by
  have hmarked : (newBus firstChunk makeLimit : State ι).marked = ∅ := by
    refine Finset.eq_empty_of_forall_notMem fun b hb => ?_
    have hinv : Inv (newBus firstChunk makeLimit : State ι) := inv_newBus firstChunk makeLimit
    obtain ⟨i, hi⟩ := (hinv.own.used_iff b).1 (hinv.mem_marked.1 hb)
    exact List.not_mem_nil hi
  rw [State.allocator, hmarked]
  rfl

/-- The call `AllocBlocks(count)` that thread `i` has made in state `u` and from which it is back in
state `v` has returned `count` blocks, those that its own steps have taken, or it has failed and
they have given back what they took. -/
def CallAccounted (u v : State ι) (as : List (Action ι)) (i : ι) (count : ℕ) : Prop :=
  let effects := (bus ι).labelsOf effect (Action.isRun i) u as
  ∀ result, v.pc i = .returned count result →
    match result with
    | .ok blocks =>
      blocks.length = count ∧ takes effects = blocks.map Block.address ∧ frees effects = []
    | .error _ => frees effects = takes effects

/-- In every run of the bus in which threads free blocks that they hold, the effects in their order
are a run of the allocator, which ends with the blocks that the bitmap marks; and every call of
`AllocBlocks` is accounted for. -/
theorem bus_refines_allocator (firstChunk : Chunk) (makeLimit : MakeLimit) (as : List (Action ι))
    (s : State ι) (hok : (bus ι).RunOk FreesHeld (newBus firstChunk makeLimit) as)
    (hr : (bus ι).run (newBus firstChunk makeLimit) as = some s) :
    allocator.run ⟨∅, 1⟩ (((bus ι).trace effect (newBus firstChunk makeLimit) as).map Prod.snd) =
      some s.allocator ∧
    ∀ bs cs u i count, as = bs ++ cs → (bus ι).run (newBus firstChunk makeLimit) bs = some u →
      u.pc i = .rlock ⟨count, [], count⟩ → (∀ a ∈ cs, ¬ a.Calls i) →
      CallAccounted u s cs i count := by
  have hinit := (allocator_newBus (ι := ι) firstChunk makeLimit).symm
  refine ⟨?_, ?_⟩
  · obtain ⟨t, ht, -, rfl⟩ := bus_simulates.run ⟨inv_newBus firstChunk makeLimit, hinit⟩ hok hr
    exact ht
  · rintro bs cs u i count rfl hbs hpc hcall result hresult
    obtain ⟨hokb, hokc⟩ := hok.append hbs
    rw [System.run_append, hbs, Option.bind_some] at hr
    obtain ⟨-, -, hu, -⟩ := bus_simulates.run ⟨inv_newBus firstChunk makeLimit, hinit⟩ hokb hbs
    obtain ⟨-, -, hs, -⟩ := bus_simulates.run ⟨hu, rfl⟩ hokc hr
    have hacc := run_accounts hu hokc hr (i := i) (by rw [hpc]; trivial) hcall
    rw [hpc, hresult] at hacc
    have hblocks := hacc.blocks
    cases result with
    | ok blocks =>
      have hfrees := hacc.freed.resolve_left id
      rw [hfrees] at hblocks
      have hlen := hs.pcs i
      rw [hresult] at hlen
      exact ⟨hlen.1, hblocks, hfrees⟩
    | error err =>
      simp only [PC.blocks, PC.collected, List.map_nil, List.nil_append, List.append_nil] at hblocks
      exact hblocks.symm

/-- Two blocks of a new bus. -/
theorem bus_refines_allocator_run : ∃ s : State Unit, s.pc () ≠ .idle ∧
    allocator.run ⟨∅, 1⟩ [.take [0, 1]] = some s.allocator := by
  have hrun : ((bus Unit).runWith FreesHeld (newBus ⟨0⟩ .least)
      (.callAlloc () 2 :: List.replicate 8 (.run () true))).map (fun s => decide (s.pc () ≠ .idle)) =
      some true := by decide +kernel
  obtain ⟨s, hs, hpc⟩ := Option.map_eq_some_iff.1 hrun
  obtain ⟨hr, hok⟩ := System.runOk_of_runWith hs
  have htrace : ((bus Unit).trace effect (newBus ⟨0⟩ .least)
      (.callAlloc () 2 :: List.replicate 8 (.run () true))).map Prod.snd = [.take [0, 1]] := by
    decide +kernel
  have h := (bus_refines_allocator ⟨0⟩ .least _ s hok hr).1
  rw [htrace] at h
  exact ⟨s, of_decide_eq_true hpc, h⟩

end Mmfg.Bus
