import Mmfg.Lib.Progress
import Mmfg.Bus.Refine

/-!
# Allocation makes progress

How many steps `AllocBlocks` and `FreeBlock` take, apart from waiting for a lock.  A compare-and-swap
fails only if another thread has changed the word, so each retry is paid for by an effect of another
thread.  A scan that leaves blocks to be found is followed by another one only after a chunk has been
added, by this thread or by another one, so that there are at most `MaxChunks` of them.

`calls_return` says that the calls are not stuck.  The one thing for which they wait outside of the bus
is `onChunkAppended`, which `tryAppendChunk` calls with both locks held; in the hub it takes `h.mu` (see
`Mmfg.Growth`).
-/

namespace Mmfg.Bus

/-- More than the steps of a scan and of the call of `tryAppendChunk` after it. -/
def roundSteps : ℕ := 2 * (32 * MaxChunks) + 20

/-- The steps of the rounds for which there is still a chunk to add. -/
def roundsLeft (chunks : ℕ) : ℕ := (MaxChunks - chunks) * roundSteps

theorem roundsLeft_anti {m n : ℕ} (h : m ≤ n) : roundsLeft n ≤ roundsLeft m :=
  Nat.mul_le_mul_right _ (Nat.sub_le_sub_left h _)

theorem roundsLeft_succ {n : ℕ} (h : n < MaxChunks) :
    roundsLeft n = roundsLeft (n + 1) + roundSteps := by
  rw [roundsLeft, roundsLeft, ← Nat.succ_mul]
  congr 1
  omega

/-- The number of blocks that the caller of `tryAppendChunk` was asked for. -/
def Appender.count : Appender → ℕ
  | .direct => 0
  | .alloc c => c.count

/-- How many changes of the bitmap the caller can still make. -/
def Appender.effectsLeft : Appender → ℕ
  | .direct => 0
  | .alloc c => 2 * c.remaining + c.allocated.length

variable {ι : Type}

/-- The steps before a thread at a program point, if nobody interferes. -/
def State.stepsLeft (s : State ι) : PC → ℕ
  | .idle | .returned .. | .panicked | .makeFailed _ => 0
  | .rlock c => roundsLeft s.chunks.length + roundSteps + 6 * c.count
  | .rwait c => roundsLeft s.chunks.length + roundSteps + 6 * c.count - 1
  | .snapshot c => roundsLeft s.chunks.length + roundSteps + 6 * c.count - 2
  | .position c _ _ => roundsLeft s.chunks.length + roundSteps + 6 * c.count - 3
  | .load f =>
    roundsLeft s.chunks.length + 6 * f.count + 2 * (f.bitmapSlice.len - f.i) + 16
  -- a word that has been changed meanwhile is loaded and swapped once more
  | .cas f old _ _ =>
    roundsLeft s.chunks.length + 6 * f.count + 2 * (f.bitmapSlice.len - f.i) +
      if s.word f.bitmapSlice f.wordIdx = old then 15 else 17
  | .storePos _ => 2
  | .finish _ => 1
  | .runlock c => roundsLeft s.chunks.length + 6 * c.count + 15
  | .chunkCount r => roundsLeft s.chunks.length + 6 * r.count + 14
  | .muxLock r n => roundsLeft n + 6 * r.count + 13
  | .recheck r n => roundsLeft n + 6 * r.count + 12
  | .newChunk r n => roundsLeft n + 6 * r.count + 11
  | .lock r _ => roundsLeft s.chunks.length + 6 * r.count + 10
  | .lockWait r _ => roundsLeft s.chunks.length + 6 * r.count + 9
  | .grow r _ => roundsLeft s.chunks.length + 6 * r.count + 8
  | .callback r _ => roundsLeft s.chunks.length + roundSteps + 6 * r.count + 3
  | .unlock r => roundsLeft s.chunks.length + roundSteps + 6 * r.count + 2
  | .muxUnlock r none => roundsLeft s.chunks.length + roundSteps + 6 * r.count + 1
  | .muxUnlock r (some _) => 6 * r.count + 1
  | .freeRLock _ _ u => 6 * u.rest.length + 6
  | .freeRWait _ _ u => 6 * u.rest.length + 5
  | .freeStart _ _ u => 6 * u.rest.length + 4
  | .freeLoad _ _ u _ => 6 * u.rest.length + 3
  | .freeCas chunkID blockIdx u bitmap old =>
    6 * u.rest.length +
      if s.word bitmap (wordIdxOf (getBlockAddress chunkID blockIdx)).toNat = old then 2 else 4
  | .freeRUnlock u => 6 * u.rest.length + 1

/-- How often a call changes the bitmap before it returns, at most: each block it wants may be taken
and given back. -/
def PC.effectsLeft : PC → ℕ
  | .idle | .returned .. | .panicked | .makeFailed _ | .storePos _ | .finish _ => 0
  | .rlock c | .rwait c | .snapshot c | .position c _ _ | .runlock c =>
    2 * c.remaining + c.allocated.length
  | .load f | .cas f _ _ _ => 2 * f.remaining + f.allocated.length
  | .chunkCount r | .muxLock r _ | .recheck r _ | .newChunk r _ | .lock r _ | .lockWait r _
  | .grow r _ | .callback r _ | .unlock r | .muxUnlock r _ => r.effectsLeft
  | .freeRLock _ _ u | .freeRWait _ _ u | .freeStart _ _ u | .freeLoad _ _ u _
  | .freeCas _ _ u _ _ => u.rest.length + 1
  | .freeRUnlock u => u.rest.length

/-- A scan is at a word of the bitmap, has found bits before it swaps, and a chunk count that was read
is not ahead of the chunks. -/
def State.InRound (s : State ι) : PC → Prop
  | .load f => f.i < f.bitmapSlice.len
  | .cas f _ _ foundBits => f.i < f.bitmapSlice.len ∧ 0 < foundBits.length
  | .muxLock _ n | .recheck _ n => n ≤ s.chunks.length
  | _ => True

variable {s t : State ι} {i : ι} {a : Action ι} {as : List (Action ι)}

theorem stepsLeft_undo (s : State ι) (count : ℕ) (err : Err) (l : List Block) :
    s.stepsLeft (undo count err l) = 6 * l.length := by
  cases l with
  | nil => rfl
  | cons b rest => exact (Nat.mul_succ 6 rest.length).symm

theorem stepsLeft_resume (s : State ι) {r : Appender} {chunks : List Chunk} (hr : r.Ok chunks)
    (err : Option Err) : s.stepsLeft (r.resume err) + 1 ≤ s.stepsLeft (.muxUnlock r err) := by
  cases r with
  | direct => cases err <;> simp [Appender.resume, State.stepsLeft]
  | alloc c =>
    have hlen := hr.1
    cases err with
    | none => exact le_rfl
    | some err =>
      change s.stepsLeft (undo c.count err c.allocated) + 1 ≤ 6 * c.count + 1
      rw [stepsLeft_undo]
      omega

theorem stepsLeft_next (s : State ι) (f : Scan) :
    s.stepsLeft f.next ≤
      roundsLeft s.chunks.length + 6 * f.count + 2 * (f.bitmapSlice.len - f.i) + 16 := by
  unfold Scan.next
  split_ifs
  · exact le_rfl
  · simp only [State.stepsLeft]
    omega

theorem next_inRound (s : State ι) (f : Scan) :
    s.InRound f.next ∧ f.next.effectsLeft = 2 * f.remaining + f.allocated.length := by
  unfold Scan.next
  split_ifs with h
  · exact ⟨h.1, rfl⟩
  · exact ⟨trivial, rfl⟩

theorem undo_inRound (s : State ι) (count : ℕ) (err : Err) (l : List Block) :
    s.InRound (undo count err l) ∧ (undo count err l).effectsLeft = l.length := by
  cases l <;> exact ⟨trivial, rfl⟩

theorem Appender.resume_inRound (s : State ι) (r : Appender) (err : Option Err) :
    s.InRound (r.resume err) ∧ (r.resume err).effectsLeft ≤ r.effectsLeft := by
  cases r with
  | direct => exact ⟨trivial, le_rfl⟩
  | alloc c =>
    cases err with
    | none => exact ⟨trivial, le_rfl⟩
    | some err =>
      obtain ⟨hin, hleft⟩ := undo_inRound s c.count err c.allocated
      exact ⟨hin, hleft.le.trans (Nat.le_add_left _ _)⟩

theorem Freer.resume_inRound (s : State ι) (u : Freer) :
    s.InRound u.resume ∧ u.resume.effectsLeft = u.rest.length := by
  cases u with
  | direct => exact ⟨trivial, rfl⟩
  | alloc count err b rest => exact undo_inRound s count err rest

theorem inRound_mono {pc : PC} (h : s.InRound pc) (hle : s.chunks.length ≤ t.chunks.length) :
    t.InRound pc := by
  cases pc with
  | muxLock r n | recheck r n => exact le_trans h hle
  | _ => exact h

/-! ## Own steps -/

/-- An own step comes to a point of the round, with fewer steps left, and pays for its effect. -/
structure Pays (s t : State ι) (i : ι) (pc : PC) : Prop where
  inRound : t.InRound (t.pc i)
  steps : t.stepsLeft (t.pc i) + 1 ≤ s.stepsLeft pc
  effects : (t.pc i).effectsLeft + (MaxChunks - t.chunks.length) +
    (s.effectAt pc).toList.length ≤ pc.effectsLeft + (MaxChunks - s.chunks.length)

theorem Pays.effect {pc pc' : PC} (hpc : t.pc i = pc') (hch : t.chunks = s.chunks)
    (hin : t.InRound pc') (hsteps : t.stepsLeft pc' + 1 ≤ s.stepsLeft pc)
    (heff : pc'.effectsLeft + (s.effectAt pc).toList.length ≤ pc.effectsLeft) : Pays s t i pc where
  inRound := hpc.symm ▸ hin
  steps := hpc.symm ▸ hsteps
  effects := by
    rw [hpc, hch]
    omega

theorem Pays.move {pc pc' : PC} (hpc : t.pc i = pc') (hch : t.chunks = s.chunks)
    (hin : t.InRound pc') (hsteps : t.stepsLeft pc' + 1 ≤ s.stepsLeft pc)
    (heff : pc'.effectsLeft ≤ pc.effectsLeft) (hnone : s.effectAt pc = none) : Pays s t i pc :=
  .effect hpc hch hin hsteps (by rw [hnone]; exact heff)

/-- The blocks that a CAS takes are not to be taken again. -/
theorem effectsLeft_cas {f : Scan} {old newVal : Word} {found : List ℕ}
    (hw : s.word f.bitmapSlice f.wordIdx = old) (hpos : 0 < found.length)
    (hle : found.length ≤ f.remaining) {pc : PC}
    (hpc : pc.effectsLeft ≤ 2 * (f.collect found).remaining + (f.collect found).allocated.length) :
    pc.effectsLeft + (s.effectAt (.cas f old newVal found)).toList.length ≤
      PC.effectsLeft (.cas f old newVal found) := by
  simp only [Scan.collect, List.length_append, List.length_map] at hpc
  have hone : (s.effectAt (.cas f old newVal found)).toList.length = 1 := by
    rw [State.effectAt, if_pos hw]
    rfl
  change _ ≤ 2 * f.remaining + f.allocated.length
  omega

variable [DecidableEq ι]

theorem goto_pc (s : State ι) (i : ι) (pc : PC) : (s.goto i pc).pc i = pc := Function.update_self ..

theorem cas_pays {f : Scan} {old newVal : Word} {found : List ℕ} (hle : found.length ≤ f.remaining)
    (hin : s.InRound (.cas f old newVal found))
    (hs : s.stepAlloc i (.cas f old newVal found) = some t) :
    Pays s t i (.cas f old newVal found) := by
  obtain ⟨hi, hpos⟩ := hin
  by_cases hw : s.word f.bitmapSlice f.wordIdx = old
  · have hleft : s.stepsLeft (.cas f old newVal found) =
        roundsLeft s.chunks.length + 6 * f.count + 2 * (f.bitmapSlice.len - f.i) + 15 := by
      simp only [State.stepsLeft, if_pos hw]
    let f' : Scan :=
      ⟨(f.collect found).toCall, f.bitmapSlice, f.chunksSnapshot, f.startWord, f.i + 1⟩
    obtain ⟨hnext, heff⟩ := next_inRound t f'
    have hsteps := stepsLeft_next t f'
    simp only [State.stepAlloc, if_pos hw] at hs
    split_ifs at hs <;> cases hs
    · refine .effect (goto_pc ..) rfl trivial ?_ (effectsLeft_cas hw hpos hle (Nat.zero_le _))
      rw [hleft]
      simp only [State.stepsLeft]
      omega
    · refine .effect (goto_pc ..) rfl hnext ?_ (effectsLeft_cas hw hpos hle heff.le)
      rw [hleft]
      refine (Nat.succ_le_succ hsteps).trans ?_
      simp only [State.goto, State.storeWord, f', Scan.collect]
      omega
  · simp only [State.stepAlloc, if_neg hw] at hs
    cases hs
    refine .move (goto_pc ..) rfl hi ?_ le_rfl (if_neg hw)
    simp only [State.goto, State.stepsLeft, if_neg hw]
    omega

theorem stepAlloc_pays (h : Inv s) {pc : PC} (hpc : s.pc i = pc) (hin : s.InRound pc)
    (hs : s.stepAlloc i pc = some t) : Pays s t i pc := by
  have hok := h.pcs i
  rw [hpc] at hok
  have hsteps : roundSteps = 4116 := rfl
  cases pc with
  | rlock c | snapshot c | runlock c =>
    cases hs
    refine .move (goto_pc ..) rfl trivial ?_ le_rfl rfl
    simp only [State.goto, State.stepsLeft, Appender.count]
    omega
  | storePos f | finish c =>
    cases hs
    exact .move (goto_pc ..) rfl trivial le_rfl le_rfl rfl
  | rwait c =>
    simp only [State.stepAlloc] at hs
    split_ifs at hs
    cases hs
    refine .move (goto_pc ..) rfl trivial ?_ le_rfl rfl
    simp only [State.goto, State.stepsLeft]
    omega
  | position c bm ch =>
    obtain ⟨-, rfl, -⟩ := hok
    have hlen := h.len
    have hmax := h.max
    simp only [MaxChunks] at hmax
    -- the whole bitmap is still to be scanned
    have hleft : s.stepsLeft (.position c s.bitmap ch) =
        roundsLeft s.chunks.length + roundSteps + 6 * c.count - 3 := rfl
    let f : Scan := ⟨c, s.bitmap, ch, s.lastSearchPos % s.bitmap.len, 0⟩
    obtain ⟨hnext, heff⟩ := next_inRound t f
    have hsteps := stepsLeft_next t f
    cases hs
    refine .move (goto_pc ..) rfl hnext ?_ heff.le rfl
    simp only [State.goto, f] at hsteps ⊢
    omega
  | load f =>
    have hi : f.i < f.bitmapSlice.len := hin
    have hleft : s.stepsLeft (.load f) =
        roundsLeft s.chunks.length + 6 * f.count + 2 * (f.bitmapSlice.len - f.i) + 16 := rfl
    obtain ⟨hnext, heff⟩ := next_inRound t { f with i := f.i + 1 }
    have hsteps := stepsLeft_next t { f with i := f.i + 1 }
    simp only [State.stepAlloc] at hs
    split_ifs at hs with hfull hnone <;> cases hs <;> simp only [State.goto] at hsteps
    · refine .move (goto_pc ..) rfl hnext ?_ heff.le rfl
      simp only [State.goto]
      omega
    · refine .move (goto_pc ..) rfl hnext ?_ heff.le rfl
      simp only [State.goto]
      omega
    · refine .move (goto_pc ..) rfl ⟨hi, Nat.pos_of_ne_zero hnone⟩ ?_ le_rfl rfl
      simp only [State.stepsLeft, State.goto, State.word, if_pos]
      omega
  | cas f old newVal found => exact cas_pays hok.2.le hin hs
  | _ => cases hs

theorem stepAppend_pays (h : Inv s) {pc : PC} {choice : Bool} (hpc : s.pc i = pc)
    (hin : s.InRound pc) (hs : s.stepAppend i choice pc = some t) : Pays s t i pc := by
  have hok := h.pcs i
  rw [hpc] at hok
  have hcount := h.count
  cases pc with
  | chunkCount r =>
    simp only [State.stepAppend] at hs
    split_ifs at hs <;> cases hs
    · obtain ⟨hres, heff⟩ := r.resume_inRound s (some (.full s.chunkCount))
      refine .move (goto_pc ..) rfl (inRound_mono hres le_rfl)
        ((stepsLeft_resume _ hok _).trans ?_) heff rfl
      simp only [State.stepsLeft]
      omega
    · refine .move (goto_pc ..) rfl hcount.le ?_ le_rfl rfl
      simp only [State.stepsLeft, hcount]
      omega
  | recheck r n =>
    have hn : n ≤ s.chunks.length := hin
    simp only [State.stepAppend] at hs
    split_ifs at hs with hne <;> cases hs
    · -- somebody else has added a chunk, which pays for the next round
      have hrounds : roundsLeft s.chunks.length + roundSteps ≤ roundsLeft n := by
        rw [roundsLeft_succ hok.2]
        have := roundsLeft_anti (show n + 1 ≤ s.chunks.length by omega)
        omega
      refine .move (goto_pc ..) rfl trivial ?_ le_rfl rfl
      simp only [State.goto, State.stepsLeft]
      omega
    · exact .move (goto_pc ..) rfl trivial le_rfl le_rfl rfl
  | newChunk r n =>
    obtain ⟨-, rfl, -⟩ := hok
    simp only [State.stepAppend] at hs
    split_ifs at hs <;> cases hs <;> refine .move (goto_pc ..) rfl trivial ?_ le_rfl rfl
    · simp only [State.goto, State.stepsLeft, hcount]
      omega
    · simp only [State.stepsLeft]
      omega
  | grow r chunk =>
    have hmax : s.chunks.length < MaxChunks := hcount ▸ hok.2
    have hrounds := roundsLeft_succ hmax
    cases hs
    refine ⟨?_, ?_, ?_⟩ <;> rw [goto_pc]
    · trivial
    · simp only [State.goto, State.appendChunk, State.stepsLeft, List.length_append,
        List.length_singleton]
      omega
    · simp only [State.goto, State.appendChunk, PC.effectsLeft, State.effectAt, List.length_append,
        List.length_singleton, Option.toList_some]
      omega
  | muxUnlock r err =>
    obtain ⟨hres, heff⟩ := r.resume_inRound s err
    cases hs
    refine .move (goto_pc ..) rfl (inRound_mono hres le_rfl)
      ((stepsLeft_resume _ hok err).trans ?_) heff rfl
    cases err <;> exact le_rfl
  | muxLock r n =>
    simp only [State.stepAppend] at hs
    split_ifs at hs
    cases hs
    exact .move (goto_pc ..) rfl hin le_rfl le_rfl rfl
  | lock r c | lockWait r c =>
    simp only [State.stepAppend] at hs
    split_ifs at hs
    cases hs
    exact .move (goto_pc ..) rfl trivial le_rfl le_rfl rfl
  | callback r c | unlock r =>
    cases hs
    exact .move (goto_pc ..) rfl trivial le_rfl le_rfl rfl
  | _ => cases hs

theorem stepFree_pays {pc : PC} (hs : s.stepFree i pc = some t) : Pays s t i pc := by
  cases pc with
  | freeRLock cid idx u =>
    cases hs
    exact .move (goto_pc ..) rfl trivial le_rfl le_rfl rfl
  | freeRWait cid idx u =>
    simp only [State.stepFree] at hs
    split_ifs at hs
    cases hs
    exact .move (goto_pc ..) rfl trivial le_rfl le_rfl rfl
  | freeStart cid idx u =>
    simp only [State.stepFree] at hs
    split_ifs at hs <;> cases hs
    · refine .move (goto_pc ..) rfl trivial ?_ (Nat.le_succ _) rfl
      simp only [State.stepsLeft]
      omega
    · refine .move (goto_pc ..) rfl trivial ?_ (Nat.zero_le _) rfl
      simp only [State.stepsLeft]
      omega
    · exact .move (goto_pc ..) rfl trivial le_rfl le_rfl rfl
  | freeLoad cid idx u bm =>
    cases hs
    refine .move (goto_pc ..) rfl trivial ?_ le_rfl rfl
    simp only [State.goto, State.stepsLeft, State.word, if_pos]
    omega
  | freeCas cid idx u bm old =>
    simp only [State.stepFree] at hs
    split_ifs at hs with hw <;> cases hs
    · refine .effect (goto_pc ..) rfl trivial ?_ ?_
      · simp only [State.stepsLeft, if_pos hw]
        omega
      · rw [State.effectAt, if_pos hw]
        exact le_rfl
    · refine .move (goto_pc ..) rfl trivial ?_ le_rfl (if_neg hw)
      simp only [State.stepsLeft, if_neg hw]
      omega
  | freeRUnlock u =>
    obtain ⟨hres, heff⟩ := u.resume_inRound s
    cases hs
    refine .move (goto_pc ..) rfl (inRound_mono hres le_rfl) ?_ heff.le rfl
    cases u with
    | direct => exact le_rfl
    | alloc count err b rest =>
      rw [Freer.resume, stepsLeft_undo]
      exact le_rfl
  | _ => cases hs

theorem run_pays (h : Inv s) {choice : Bool} (hin : s.InRound (s.pc i))
    (hs : (bus ι).step s (.run i choice) = some t) : Pays s t i (s.pc i) := by
  simp only [bus, step, Option.orElse_eq_some] at hs
  rcases hs with hs | ⟨-, hs | ⟨-, hs⟩⟩
  · exact stepAlloc_pays h rfl hin hs
  · exact stepAppend_pays h rfl hin hs
  · exact stepFree_pays hs

/-! ## Steps of others -/

theorem step_chunks_le (h : Inv s) (hs : (bus ι).step s a = some t) :
    s.chunks.length ≤ t.chunks.length := by
  cases he : effect s a with
  | none => exact (congrArg List.length (step_memory hs he).2.2).ge
  | some b =>
    have hstep := effect_step h hs he
    change s.allocator.chunks ≤ t.allocator.chunks
    generalize t.allocator = t' at hstep ⊢
    cases b <;> simp only [allocatorStep] at hstep <;> split_ifs at hstep <;> cases hstep
    · exact le_rfl
    · exact le_rfl
    · exact Nat.le_succ _

omit [DecidableEq ι] in
/-- What others do to the memory costs a call one more turn at its compare-and-swap. -/
theorem stepsLeft_le (hle : s.chunks.length ≤ t.chunks.length) (pc : PC) :
    t.stepsLeft pc ≤ s.stepsLeft pc + 2 := by
  have hrounds := roundsLeft_anti hle
  cases pc with
  | cas f old newVal found =>
    simp only [State.stepsLeft]
    split_ifs <;> omega
  | freeCas cid idx u bm old =>
    simp only [State.stepsLeft]
    split_ifs <;> omega
  | muxUnlock r err => cases err <;> simp only [State.stepsLeft] <;> omega
  | _ =>
    simp only [State.stepsLeft]
    omega

omit [DecidableEq ι] in
theorem SameMemory.stepsLeft (h : SameMemory s t) (pc : PC) : t.stepsLeft pc = s.stepsLeft pc := by
  obtain ⟨harr, -, hch⟩ := h
  cases pc with
  | muxUnlock r err => cases err <;> simp only [State.stepsLeft, hch]
  | cas f old newVal found | freeCas cid idx u bm old =>
    simp only [State.stepsLeft, State.word, harr, hch]
    rfl
  | _ => simp only [State.stepsLeft, hch]

/-- Another thread than `i` changes the bitmap. -/
def otherEffect (i : ι) (a : Action ι) (_ : Effect) : Bool := !a.isRun i

/-- A step of another thread costs a call two steps, and only if it changes the bitmap. -/
theorem stepsLeft_other (h : Inv s) (hs : (bus ι).step s a = some t) (ha : a.isRun i = false)
    (hcall : ¬ a.Calls i) :
    t.stepsLeft (t.pc i) ≤ s.stepsLeft (s.pc i) +
      if (effect s a).any (otherEffect i a) then 2 else 0 := by
  rw [step_pc_of_ne hs ha hcall]
  cases he : effect s a with
  | none => exact ((step_memory hs he).stepsLeft _).le
  | some b =>
    have hother : (some b).any (otherEffect i a) = true := by simp [otherEffect, ha]
    rw [if_pos hother]
    exact stepsLeft_le (step_chunks_le h hs) _

/-- Every thread is at a point of a round. -/
def InRounds (s : State ι) : Prop := ∀ i, s.InRound (s.pc i)

theorem inRounds_step (h : Inv s) (hin : InRounds s) (hs : (bus ι).step s a = some t) :
    InRounds t := by
  intro i
  have hmono := inRound_mono (hin i) (step_chunks_le h hs)
  cases ha : a.isRun i with
  | true =>
    cases a with
    | run j choice =>
      obtain rfl := of_decide_eq_true ha
      exact (run_pays h (hin _) hs).inRound
    | _ => cases ha
  | false =>
    by_cases hcall : a.Calls i
    · cases a with
      | callAlloc j count | callAppend j | callFree j cid idx =>
        obtain rfl := hcall
        simp only [bus, step] at hs
        split_ifs at hs <;> cases hs <;> rw [goto_pc] <;> trivial
      | give | run => exact hcall.elim
    · rw [step_pc_of_ne hs ha hcall]
      exact hmono

theorem inRounds_of_reaches (hr : (bus ι).Reaches FreesHeld s) : Inv s ∧ InRounds s := by
  refine ⟨inv_of_reaches hr, hr.invariant ?_ ?_⟩
  · rintro s ⟨firstChunk, makeLimit, rfl⟩ i
    trivial
  · intro s a t hs hin _ hst
    exact inRounds_step (inv_of_reaches hs) hin hst

/-- In every run from a call on, `AllocBlocks(count)` takes at most `roundSteps` steps for each chunk
that can still be added and one more scan, six for each block it may have to give back, and two for
each time that another thread changes the bitmap meanwhile; `FreeBlock` takes at most six and those
two. -/
theorem call_steps_le (s t : State ι) (i : ι) (as : List (Action ι))
    (hs : (bus ι).Reaches FreesHeld s) (hok : (bus ι).RunOk FreesHeld s as)
    (hcall : ∀ a ∈ as, ¬ a.Calls i) (hr : (bus ι).run s as = some t) :
    (∀ count, s.pc i = .rlock ⟨count, [], count⟩ → as.countP (Action.isRun i) ≤
      (MaxChunks - s.chunks.length + 1) * roundSteps + 6 * count +
        2 * ((bus ι).trace effect s as).countP fun x => otherEffect i x.1 x.2) ∧
    ∀ chunkID blockIdx, s.pc i = .freeRLock chunkID blockIdx .direct →
      as.countP (Action.isRun i) ≤
        6 + 2 * ((bus ι).trace effect s as).countP fun x => otherEffect i x.1 x.2 := by
  have hok' : (bus ι).RunOk (fun s a => FreesHeld s a ∧ ¬ a.Calls i) s as :=
    hok.and (System.runOk_of_forall fun a ha _ => hcall a ha)
  have hle := System.own_steps_le (fun s => Inv s ∧ InRounds s) (fun s => s.stepsLeft (s.pc i))
    (Action.isRun i) (fun s a => if (effect s a).any (otherEffect i a) then 2 else 0)
    ?_ ?_ ?_ (inRounds_of_reaches hs) hok' hr
  · rw [System.spent_eq] at hle
    refine ⟨fun count hpc => ?_, fun cid idx hpc => ?_⟩
    · rw [hpc] at hle
      simp only [State.stepsLeft, roundsLeft] at hle
      rw [Nat.succ_mul]
      omega
    · rw [hpc] at hle
      simp only [State.stepsLeft, Freer.rest, List.length_nil] at hle
      omega
  · rintro u a v ⟨hu, hin⟩ ⟨hfree, -⟩ hst
    exact ⟨inv_step hu hfree hst, inRounds_step hu hin hst⟩
  · rintro u a v ⟨hu, hin⟩ - hst ha
    cases a with
    | run j choice =>
      obtain rfl := of_decide_eq_true ha
      exact (run_pays hu (hin _) hst).steps
    | _ => cases ha
  · rintro u a v ⟨hu, -⟩ ⟨-, hnot⟩ hst ha
    exact stepsLeft_other hu hst ha hnot

/-- Two threads that both want a block of a new bus: the second one to swap goes round once more. -/
theorem call_steps_le_run : ∃ s t : State Bool, ∃ as : List (Action Bool),
    (bus Bool).run s as = some t ∧ (t.pc true).Quiet = true ∧
      as.countP (Action.isRun true) ≤ 64 * roundSteps + 6 * 1 + 2 * 1 := by
  let start : List (Action Bool) := [.callAlloc false 1, .callAlloc true 1]
  let as : List (Action Bool) := List.replicate 5 (.run true true) ++
    List.replicate 8 (.run false true) ++ List.replicate 5 (.run true true)
  let s : State Bool :=
    ((newBus ⟨0⟩ .least).goto false (.rlock ⟨1, [], 1⟩)).goto true (.rlock ⟨1, [], 1⟩)
  have hstart : (bus Bool).runWith FreesHeld (newBus ⟨0⟩ .least) start = some s := rfl
  have hs : (bus Bool).Reaches FreesHeld s := System.Reaches.runWith (.init ⟨⟨0⟩, .least, rfl⟩) hstart
  have hrun : ((bus Bool).runWith FreesHeld s as).map (fun t => (t.pc true).Quiet) = some true := by
    decide +kernel
  obtain ⟨t, ht, hquiet⟩ := Option.map_eq_some_iff.1 hrun
  obtain ⟨hr, hok⟩ := System.runOk_of_runWith ht
  have hle := (call_steps_le s t true as hs hok (by simp [as, Action.Calls]) hr).1 1 rfl
  have hcount : (((bus Bool).trace effect s as).countP fun x => otherEffect true x.1 x.2) = 1 := by
    decide +kernel
  rw [hcount] at hle
  exact ⟨s, t, as, hr, hquiet, hle⟩

/-! ## Every call returns -/

/-- `AllocBlocks` is called for as many blocks as `make` can serve. -/
def Served (s : State ι) : Action ι → Prop
  | .callAlloc _ count => CanMake s.makeLimit count
  | _ => True

/-- No thread has failed in `make`. -/
def PC.made : PC → Bool
  | .makeFailed _ => false
  | _ => true

/-- The thread is in `onChunkAppended`. -/
def PC.inCallback : PC → Bool
  | .callback .. => true
  | _ => false

theorem undo_made (count : ℕ) (err : Err) (l : List Block) : (undo count err l).made = true := by
  cases l <;> rfl

theorem Scan.next_made (f : Scan) : f.next.made = true := by
  unfold Scan.next
  split_ifs <;> rfl

theorem Appender.resume_made (err : Option Err) (r : Appender) : (r.resume err).made = true := by
  cases r with
  | direct => rfl
  | alloc c =>
    cases err with
    | none => rfl
    | some err => exact undo_made ..

theorem Freer.resume_made (u : Freer) : u.resume.made = true := by
  cases u with
  | direct => rfl
  | alloc count err b rest => exact undo_made ..

/-- A step of a call does not lead to a failed `make`. -/
theorem run_made {choice : Bool} (hs : (bus ι).step s (.run i choice) = some t) :
    (t.pc i).made = true := by
  simp only [bus, step, Option.orElse_eq_some] at hs
  rcases hs with hs | ⟨-, hs | ⟨-, hs⟩⟩
  · cases hpc : s.pc i <;> simp only [hpc, State.stepAlloc] at hs <;> (try split_ifs at hs) <;>
      cases hs <;> simp only [State.goto, Function.update_self] <;>
      first | rfl | exact Scan.next_made _
  · cases hpc : s.pc i <;> simp only [hpc, State.stepAppend] at hs <;> (try split_ifs at hs) <;>
      cases hs <;> simp only [State.goto, Function.update_self] <;>
      first | rfl | exact Appender.resume_made ..
  · cases hpc : s.pc i <;> simp only [hpc, State.stepFree] at hs <;> (try split_ifs at hs) <;>
      cases hs <;> simp only [State.goto, Function.update_self] <;>
      first | rfl | exact Freer.resume_made _

theorem made_step (h : ∀ i, (s.pc i).made = true) (ha : Served s a)
    (hs : (bus ι).step s a = some t) (i : ι) : (t.pc i).made = true := by
  by_cases hrun : a.isRun i = true
  · cases a with
    | run j choice =>
      obtain rfl := of_decide_eq_true hrun
      exact run_made hs
    | _ => cases hrun
  by_cases hcall : a.Calls i
  · cases a with
    | callAlloc j count =>
      obtain rfl := hcall
      simp only [bus, step, if_pos (show CanMake s.makeLimit count from ha)] at hs
      split_ifs at hs
      cases hs
      rw [goto_pc]
      rfl
    | callAppend j | callFree j cid idx =>
      obtain rfl := hcall
      simp only [bus, step] at hs
      split_ifs at hs
      cases hs
      rw [goto_pc]
      rfl
    | give | run => exact hcall.elim
  · rw [step_pc_of_ne hs (Bool.eq_false_of_not_eq_true hrun) hcall]
    exact h i

/-- No call is out of order, and none has failed in `make`. -/
structure Running (s : State ι) : Prop where
  inv : Inv s
  inRounds : InRounds s
  made : ∀ i, (s.pc i).made = true

theorem running_of_reaches (hs : (bus ι).Reaches (fun s a => FreesHeld s a ∧ Served s a) s) :
    Running s := by
  have hmade : ∀ i, (s.pc i).made = true := by
    refine System.Reaches.invariant (I := fun s => ∀ i, (s.pc i).made = true) ?_ ?_ hs
    · rintro s ⟨firstChunk, makeLimit, rfl⟩ i
      rfl
    · intro s a t _ hmade hok hst
      exact made_step hmade hok.2 hst
  obtain ⟨hinv, hin⟩ := inRounds_of_reaches (hs.mono fun _ _ h => h.1)
  exact ⟨hinv, hin, hmade⟩

theorem Running.run {choice : Bool} (h : Running s)
    (hst : (bus ι).step s (.run i choice) = some t) : Running t := by
  have hfree : FreesHeld s (.run i choice) := trivial
  have hserved : Served s (.run i choice) := trivial
  exact ⟨inv_step h.inv hfree hst, inRounds_step h.inv h.inRounds hst,
    made_step h.made hserved hst⟩

/-- Some step of a call can be taken. -/
def Enabled (s : State ι) : Prop := ∃ i choice t, (bus ι).step s (.run i choice) = some t

/-- What a thread in a call waits for, if it cannot go on. -/
inductive Waits (s : State ι) (i : ι) : Prop where
  | readLock (role : (s.pc i).role = .rwait) (out : i ∉ s.mu.readers)
  | mux {r : Appender} {n : ℕ} (pc : s.pc i = .muxLock r n) (taken : s.tryAppendChunkMux ≠ none)
  | writeLock {r : Appender} {chunk : Chunk} (pc : s.pc i = .lock r chunk)
      (taken : s.mu.writer ≠ none)
  | readers (role : (s.pc i).role = .wwait) (left : s.mu.readers ≠ ∅)

theorem enabled_or_waits (h : Running s) (hq : (s.pc i).Quiet = false) : Enabled s ∨ Waits s i := by
  have hok := h.inv.pcs i
  have hgo : ((bus ι).step s (.run i true)).isSome → Enabled s ∨ Waits s i :=
    fun ht => .inl ⟨i, true, Option.isSome_iff_exists.1 ht⟩
  cases hpc : s.pc i with
  | idle | returned n r =>
    rw [hpc] at hq
    cases hq
  | panicked =>
    rw [hpc] at hok
    exact hok.elim
  | makeFailed n =>
    have hm := h.made i
    rw [hpc] at hm
    cases hm
  | rwait c =>
    by_cases hm : i ∈ s.mu.readers
    · refine hgo ?_
      simp only [bus, step, hpc, State.stepAlloc, if_pos hm]
      rfl
    · exact .inr (.readLock (by rw [hpc]; rfl) hm)
  | freeRWait cid idx u =>
    by_cases hm : i ∈ s.mu.readers
    · refine hgo ?_
      simp only [bus, step, hpc, State.stepAlloc, State.stepAppend, State.stepFree, if_pos hm]
      rfl
    · exact .inr (.readLock (by rw [hpc]; rfl) hm)
  | muxLock r n =>
    by_cases hm : s.tryAppendChunkMux = none
    · refine hgo ?_
      simp only [bus, step, hpc, State.stepAlloc, State.stepAppend, if_pos hm]
      rfl
    · exact .inr (.mux hpc hm)
  | lock r c =>
    by_cases hm : s.mu.writer = none
    · refine hgo ?_
      simp only [bus, step, hpc, State.stepAlloc, State.stepAppend, if_pos hm]
      rfl
    · exact .inr (.writeLock hpc hm)
  | lockWait r c =>
    by_cases hm : s.mu.readers = ∅
    · refine hgo ?_
      simp only [bus, step, hpc, State.stepAlloc, State.stepAppend, if_pos hm]
      rfl
    · exact .inr (.readers (by rw [hpc]; rfl) hm)
  | _ =>
    refine hgo ?_
    simp only [bus, step, hpc, State.stepAlloc, State.stepAppend, State.stepFree]
    (try split_ifs) <;> rfl

omit [DecidableEq ι] in
theorem quiet_of_role {r : RWMutex.Role} (hi : (s.pc i).role = r) (hr : r ≠ .out) :
    (s.pc i).Quiet = false := by
  cases hpc : s.pc i <;> rw [hpc] at hi <;> first | rfl | exact absurd hi.symm hr

theorem enabled_of_reader (h : Running s) (hi : i ∈ s.mu.readers) : Enabled s := by
  have hrole := h.inv.mu.reader i hi
  have hq : (s.pc i).Quiet = false := by
    rcases hrole with hr | hr <;> exact quiet_of_role hr (by decide)
  rcases enabled_or_waits h hq with he | hw
  · exact he
  · cases hw with
    | readLock _ hout => exact absurd hi hout
    | mux hpc _ => simp [hpc, PC.role] at hrole
    | writeLock hpc _ => simp [hpc, PC.role] at hrole
    | readers hr _ => simp [hr] at hrole

theorem enabled_of_writer (h : Running s) (hi : s.mu.writer = some i) : Enabled s := by
  have hrole := (h.inv.mu.writer i).1 hi
  have hq : (s.pc i).Quiet = false := by
    rcases hrole with hr | hr <;> exact quiet_of_role hr (by decide)
  rcases enabled_or_waits h hq with he | hw
  · exact he
  · cases hw with
    | readLock hr _ => simp [hr] at hrole
    | mux hpc _ => simp [hpc, PC.role] at hrole
    | writeLock hpc _ => simp [hpc, PC.role] at hrole
    | readers _ hleft =>
      obtain ⟨j, hj⟩ := Finset.nonempty_iff_ne_empty.2 hleft
      exact enabled_of_reader h hj

/-- The holder of `tryAppendChunkMux` waits for `b.mu` only. -/
theorem enabled_of_mux (h : Running s) (hi : s.tryAppendChunkMux = some i) : Enabled s := by
  have hmux := (h.inv.mux i).1 hi
  have hq : (s.pc i).Quiet = false := by
    cases hpc : s.pc i <;> rw [hpc] at hmux <;> first | rfl | cases hmux
  rcases enabled_or_waits h hq with he | hw
  · exact he
  · cases hw with
    | readLock hr _ => cases hpc : s.pc i <;> simp [hpc, PC.role, PC.inMux] at hr hmux
    | mux hpc _ => simp [hpc, PC.inMux] at hmux
    | writeLock _ htaken =>
      obtain ⟨j, hj⟩ := Option.ne_none_iff_exists'.1 htaken
      exact enabled_of_writer h hj
    | readers _ hleft =>
      obtain ⟨j, hj⟩ := Finset.nonempty_iff_ne_empty.2 hleft
      exact enabled_of_reader h hj

/-- While a call is in progress, some call can take a step. -/
theorem enabled_of_not_quiet (h : Running s) (hq : (s.pc i).Quiet = false) : Enabled s := by
  rcases enabled_or_waits h hq with he | hw
  · exact he
  · cases hw with
    | readLock hr hout =>
      -- it was kept out by a writer
      have hwait := (h.inv.mu.rwait i hr).resolve_left hout
      obtain ⟨j, hj⟩ := Option.ne_none_iff_exists'.1 fun hnone => by
        rw [h.inv.mu.admitted hnone] at hwait
        exact absurd hwait (Finset.notMem_empty i)
      exact enabled_of_writer h hj
    | mux _ htaken =>
      obtain ⟨j, hj⟩ := Option.ne_none_iff_exists'.1 htaken
      exact enabled_of_mux h hj
    | writeLock _ htaken =>
      obtain ⟨j, hj⟩ := Option.ne_none_iff_exists'.1 htaken
      exact enabled_of_writer h hj
    | readers _ hleft =>
      obtain ⟨j, hj⟩ := Finset.nonempty_iff_ne_empty.2 hleft
      exact enabled_of_reader h hj

section Returns

variable [Fintype ι]

/-- How often the bitmap can still change without new calls. -/
def State.potential (s : State ι) : ℕ :=
  ∑ i, (s.pc i).effectsLeft + (MaxChunks - s.chunks.length)

/-- The steps that all threads have left. -/
def State.rank (s : State ι) : ℕ := ∑ i, s.stepsLeft (s.pc i)

/-- A step without an effect lowers the rank, one with an effect the potential. -/
theorem run_lowers (h : Inv s) (hin : InRounds s) {choice : Bool}
    (hs : (bus ι).step s (.run i choice) = some t) :
    t.potential < s.potential ∨ t.potential = s.potential ∧ t.rank < s.rank := by
  have hpays := run_pays h (hin i) hs
  have hother : ∀ j ∈ Finset.univ.erase i, t.pc j = s.pc j := fun j hj =>
    step_pc_of_ne hs (decide_eq_false (Finset.ne_of_mem_erase hj).symm) id
  have heffects := hpays.effects
  have hsum : ∑ j ∈ Finset.univ.erase i, (t.pc j).effectsLeft =
      ∑ j ∈ Finset.univ.erase i, (s.pc j).effectsLeft :=
    Finset.sum_congr rfl fun j hj => by rw [hother j hj]
  have hpot : t.potential + (s.effectAt (s.pc i)).toList.length ≤ s.potential := by
    rw [State.potential, State.potential, ← Finset.add_sum_erase _ _ (Finset.mem_univ i),
      ← Finset.add_sum_erase _ (fun j => (s.pc j).effectsLeft) (Finset.mem_univ i), hsum]
    omega
  cases he : s.effectAt (s.pc i) with
  | some b =>
    rw [he] at hpot
    exact .inl hpot
  | none =>
    have hmem := step_memory hs he
    have hrest : ∑ j ∈ Finset.univ.erase i, t.stepsLeft (t.pc j) =
        ∑ j ∈ Finset.univ.erase i, s.stepsLeft (s.pc j) :=
      Finset.sum_congr rfl fun j hj => by rw [hother j hj, hmem.stepsLeft]
    have hrank : t.rank < s.rank := by
      rw [State.rank, State.rank, ← Finset.add_sum_erase _ _ (Finset.mem_univ i),
        ← Finset.add_sum_erase _ (fun j => s.stepsLeft (s.pc j)) (Finset.mem_univ i), hrest]
      exact Nat.add_lt_add_right hpays.steps _
    rcases (Nat.le_of_add_right_le hpot).lt_or_eq with hlt | heq
    · exact .inl hlt
    · exact .inr ⟨heq, hrank⟩

/-- From every state with finitely many threads that is reached with calls that `make` can serve, in
every run in which no new call is made: all calls return or come to a call of `onChunkAppended` that does
not, and until then they are not stuck; and if the calls of `onChunkAppended` return, all calls return. -/
theorem calls_return (s : State ι)
    (hs : (bus ι).Reaches (fun s a => FreesHeld s a ∧ Served s a) s) :
    (bus ι).Inevitable (fun s a => ∃ i choice, a = .run i choice ∧ (s.pc i).inCallback = false)
      (fun t => (∀ i, (t.pc i).Quiet = true) ∨ ∃ i, (t.pc i).inCallback = true) s ∧
    (bus ι).Inevitable (fun _ a => ∃ i choice, a = .run i choice)
      (fun t => ∀ i, (t.pc i).Quiet = true) s := by
  have hnext : ∀ s : State ι, Running s → (¬ ∀ i, (s.pc i).Quiet = true) → Enabled s := by
    intro s h hQ
    push Not at hQ
    obtain ⟨i, hi⟩ := hQ
    exact enabled_of_not_quiet h (Bool.eq_false_of_not_eq_true hi)
  refine ⟨System.inevitable_of_potential Running State.potential State.rank ?_ ?_ ?_
    (running_of_reaches hs), System.inevitable_of_potential Running State.potential State.rank
    ?_ ?_ ?_ (running_of_reaches hs)⟩
  · rintro s _ t h ⟨i, choice, rfl, -⟩ hst
    exact h.run hst
  · intro s h hQ
    rw [not_or, not_exists] at hQ
    obtain ⟨i, choice, t, ht⟩ := hnext s h hQ.1
    exact ⟨_, t, ⟨i, choice, rfl, Bool.eq_false_of_not_eq_true (hQ.2 i)⟩, ht⟩
  · rintro s _ t h ⟨i, choice, rfl, -⟩ hst
    exact run_lowers h.inv h.inRounds hst
  · rintro s _ t h ⟨i, choice, rfl⟩ hst
    exact h.run hst
  · intro s h hQ
    obtain ⟨i, choice, t, ht⟩ := hnext s h hQ
    exact ⟨_, t, ⟨i, choice, rfl⟩, ht⟩
  · rintro s _ t h ⟨i, choice, rfl⟩ hst
    exact run_lowers h.inv h.inRounds hst

instance (s : State ι) : (a : Action ι) → Decidable (Served s a)
  | .callAlloc _ count => inferInstanceAs (Decidable (CanMake s.makeLimit count))
  | .callAppend _ | .callFree .. | .give .. | .run .. => inferInstanceAs (Decidable True)

/-- In a run of two threads, one of which waits for the write lock. -/
theorem calls_return_run : ∃ s : State Bool, (s.pc true).role = .wwait ∧
    (bus Bool).Inevitable (fun _ a => ∃ i choice, a = .run i choice)
      (fun t => ∀ i, (t.pc i).Quiet = true) s := by
  obtain ⟨s, hs, hpc⟩ := System.exists_reaches_of_runWith (bus Bool)
    (fun s a => FreesHeld s a ∧ Served s a)
    ([.callAlloc false 1, .run false true, .run false true, .callAppend true] ++
      List.replicate 5 (.run true true)) (fun s => decide ((s.pc true).role = .wwait))
    (⟨⟨0⟩, .least, rfl⟩ : (bus Bool).Init (newBus ⟨0⟩ .least)) (by decide +kernel)
  exact ⟨s, of_decide_eq_true hpc, (calls_return s hs).2⟩

end Returns

end Mmfg.Bus
