import Mmfg.Bus.Invariant

/-!
# Exclusive allocation of blocks

Every step of every thread keeps `Inv` (`inv_step`), so in all reachable states the bitmap marks
exactly the blocks that are held or being collected, and no block has two holders
(`bus_exclusive`).  The lemmas before it follow the kinds of steps: those that only move a program
point, those that use a lock, the two compare-and-swaps on a bitmap word, and growth.
-/

namespace Mmfg.Bus

open RWMutex (Role)

variable {ι : Type} {s t : State ι} {i j : ι}

theorem Inv.setPos (h : Inv s) (p : ℕ) : Inv { s with lastSearchPos := p } :=
  ⟨h.mu, h.mux, h.words, h.len, h.count, h.pos, h.max, h.own, h.held, h.pcs⟩

theorem Inv.word_eq (h : Inv s) {w : ℕ} (hw : w < s.bitmap.len) :
    (s.arrays s.bitmap.arr)[w]? = some (s.word s.bitmap w) := by
  rw [← h.words] at hw
  simp [State.word, List.getElem?_eq_getElem hw]

theorem Inv.bitmap_pos (h : Inv s) : 0 < s.bitmap.len := by
  have := h.pos
  rw [h.len]
  omega

variable [DecidableEq ι]

/-! ## Moving a program point -/

theorem goto_role (s : State ι) (i : ι) (pc : PC) :
    (fun j => ((s.goto i pc).pc j).role) =
      Function.update (fun j => (s.pc j).role) i pc.role := by
  funext j
  simp only [State.goto, Function.update_apply]
  split_ifs <;> rfl

theorem goto_own {pc : PC} (hc : pc.collected = (s.pc i).collected) :
    (s.goto i pc).own = s.own := by
  funext j
  simp only [State.own, State.goto, Function.update_apply]
  split_ifs with hj
  · rw [hc, hj]
  · rfl

theorem Inv.pcs_update (h : Inv s) {pc : PC}
    (hok : pc.Ok s.bitmap s.chunks s.chunkCount (s.held i)) (j : ι) :
    (Function.update s.pc i pc j).Ok s.bitmap s.chunks s.chunkCount (s.held j) := by
  rw [Function.update_apply]
  split_ifs with hj
  · rw [hj]
    exact hok
  · exact h.pcs j

theorem Inv.mux_update (h : Inv s) {pc : PC} (hm : pc.inMux = (s.pc i).inMux) (j : ι) :
    s.tryAppendChunkMux = some j ↔ (Function.update s.pc i pc j).inMux = true := by
  rw [h.mux, Function.update_apply]
  split_ifs with hj
  · rw [hj, hm]
  · rfl

/-- A thread changes `b.mu`, and nothing else that is shared. -/
theorem Inv.relock (h : Inv s) {pc : PC} {mu : RWMutex ι}
    (hmu : mu.Tracks (Function.update (fun j => (s.pc j).role) i pc.role))
    (hm : pc.inMux = (s.pc i).inMux) (hc : pc.collected = (s.pc i).collected)
    (hok : pc.Ok s.bitmap s.chunks s.chunkCount (s.held i)) :
    Inv { s.goto i pc with mu := mu } where
  mu := by
    rw [← goto_role] at hmu
    exact hmu
  mux := h.mux_update hm
  words := h.words
  len := h.len
  count := h.count
  pos := h.pos
  max := h.max
  own := by
    have := h.own
    rw [← goto_own hc] at this
    exact this
  held := h.held
  pcs := h.pcs_update hok

theorem Inv.move (h : Inv s) {pc : PC} (hv : pc.view = (s.pc i).view)
    (hok : pc.Ok s.bitmap s.chunks s.chunkCount (s.held i)) : Inv (s.goto i pc) := by
  obtain ⟨hr, hm, hc⟩ : pc.role = (s.pc i).role ∧ pc.inMux = (s.pc i).inMux ∧
      pc.collected = (s.pc i).collected := by
    simpa only [PC.view, Prod.mk.injEq] using hv
  exact h.relock (h.mu.same hr.symm) hm hc hok

theorem Inv.remux (h : Inv s) {pc : PC} {mux : Option ι} (hr : pc.role = (s.pc i).role)
    (hm : ∀ j, mux = some j ↔ (Function.update s.pc i pc j).inMux = true)
    (hc : pc.collected = (s.pc i).collected)
    (hok : pc.Ok s.bitmap s.chunks s.chunkCount (s.held i)) :
    Inv { s.goto i pc with tryAppendChunkMux := mux } where
  mu := by
    have := h.mu.same hr.symm
    rw [← goto_role] at this
    exact this
  mux := hm
  words := h.words
  len := h.len
  count := h.count
  pos := h.pos
  max := h.max
  own := by
    have := h.own
    rw [← goto_own hc] at this
    exact this
  held := h.held
  pcs := h.pcs_update hok

/-! ## The compare-and-swaps -/

/-- The state after a successful compare-and-swap of `AllocBlocks`: the found bits are set and
their blocks are collected. -/
theorem Inv.take (h : Inv s) {f : Scan} {old newVal : Word} {found : List ℕ} {pc : PC}
    (hpc : s.pc i = .cas f old newVal found)
    (hw : s.word f.bitmapSlice f.wordIdx = old)
    (hv : pc.view = (.reading, false, (f.collect found).allocated))
    (hok : (f.collect found).Ok s.bitmap s.chunks → pc.Ok s.bitmap s.chunks s.chunkCount (s.held i)) :
    Inv ((s.storeWord f.bitmapSlice f.wordIdx newVal).goto i pc) := by
  have hi := h.pcs i
  rw [hpc] at hi
  obtain ⟨⟨⟨hlen, hmapped⟩, hbm, hch⟩, hfound⟩ := hi
  rw [hbm] at hw ⊢
  have hidx : f.wordIdx < s.bitmap.len := by
    rw [Scan.wordIdx, hbm]
    exact Nat.mod_lt _ h.bitmap_pos
  have hget := h.word_eq hidx
  rw [hw] at hget
  -- the positions of the found bits lie in existing chunks
  have hpos : ∀ k ∈ found, f.wordIdx * 32 + k < BlocksPerChunk * s.chunks.length := by
    intro k hk
    have := (hfound.clear k hk).1
    have := h.len
    simp only [BlocksPerChunk]
    omega
  have hnew : ∀ k ∈ found, (blockAt s.chunks (f.wordIdx * 32 + k)).Mapped s.chunks ∧
      (blockAt s.chunks (f.wordIdx * 32 + k)).address = f.wordIdx * 32 + k :=
    fun k hk => blockAt_mapped (hpos k hk) h.max
  have hcollect : (f.collect found).Ok s.bitmap s.chunks := by
    refine ⟨⟨?_, fun b hb => ?_⟩, hbm, hch⟩
    · have := hfound.le
      simp only [Scan.collect, List.length_append, List.length_map]
      omega
    · rcases List.mem_append.1 hb with hb | hb
      · exact hmapped b hb
      · obtain ⟨k, hk, rfl⟩ := List.mem_map.1 hb
        rw [hch]
        exact (hnew k hk).1
  have haddr : (found.map fun k => blockAt f.chunksSnapshot (f.wordIdx * 32 + k)).map
      Block.address = found.map (f.wordIdx * 32 + ·) := by
    rw [List.map_map, hch]
    exact List.map_congr_left fun k hk => (hnew k hk).2
  simp only [PC.view, Prod.mk.injEq] at hv
  obtain ⟨hr, hm, hc⟩ := hv
  have harr : ((s.storeWord s.bitmap f.wordIdx newVal).goto i pc).arrays s.bitmap.arr =
      (s.arrays s.bitmap.arr).set f.wordIdx newVal := by
    simp [State.storeWord, State.goto]
  refine ⟨?_, ?_, ?_, h.len, h.count, h.pos, h.max, ?_, h.held, ?_⟩
  · rw [goto_role]
    exact h.mu.same (by rw [hpc, hr]; rfl)
  · exact h.mux_update (by rw [hm, hpc]; rfl)
  · change (((s.storeWord s.bitmap f.wordIdx newVal).goto i pc).arrays s.bitmap.arr).length = _
    rw [harr, List.length_set]
    exact h.words
  · have hnodup : (found.map (f.wordIdx * 32 + ·)).Nodup :=
      hfound.nodup.map fun a b hab => by simpa using hab
    refine h.own.take (i := i) hnodup ?_ ?_ ?_ ?_
    · intro a ha
      rw [bitAt_take_clear hget hfound ha]
      exact Bool.false_ne_true
    · simp only [State.own, State.goto, State.storeWord, Function.update_self]
      rw [hc, hpc]
      simp only [PC.collected, Scan.collect, List.map_append, List.append_assoc, haddr]
      exact .refl _
    · intro j hj
      simp only [State.own, State.goto, State.storeWord, Function.update_of_ne hj]
      exact .refl _
    · intro a
      change bitAt (((s.storeWord s.bitmap f.wordIdx newVal).goto i pc).arrays s.bitmap.arr) a =
        true ↔ _
      rw [harr]
      exact bitAt_take hget hfound
  · exact h.pcs_update (hok hcollect)

theorem Freer.Ok.exists_block {chunks : List Chunk} {held : List Block} {cid idx : Int16}
    {u : Freer} (h : u.Ok chunks held cid idx) (hheld : ∀ b ∈ held, b.Mapped chunks) :
    ∃ b : Block, b.Mapped chunks ∧ b.chunkID = cid ∧ b.blockIdx = idx ∧
      (held ++ u.collected).Perm (b :: (u.released cid idx held ++ u.rest)) := by
  cases u with
  | direct =>
    obtain ⟨x, hx, hxe⟩ := h
    obtain ⟨b, l₁, l₂, -, hb, hl, he⟩ := List.exists_of_eraseP
      (p := fun b : Block => b.chunkID = cid ∧ b.blockIdx = idx) hx (by simpa using hxe)
    obtain ⟨hbc, hbi⟩ : b.chunkID = cid ∧ b.blockIdx = idx := by simpa using hb
    refine ⟨b, hheld b (by simp [hl]), hbc, hbi, ?_⟩
    simp only [collected, rest, released, List.append_nil]
    rw [he, hl]
    exact List.perm_middle
  | alloc count err b rest =>
    obtain ⟨hbc, hbi, hm⟩ := h
    exact ⟨b, hm b (by simp), hbc, hbi, List.perm_middle⟩

theorem Freer.mem_of_mem_released {cid idx : Int16} {held : List Block} {u : Freer} {b : Block}
    (h : b ∈ u.released cid idx held) : b ∈ held := by
  cases u with
  | direct => exact List.mem_of_mem_eraseP h
  | alloc count err b rest => exact h

theorem Freer.Ok.rest_mapped {chunks : List Chunk} {held : List Block} {cid idx : Int16}
    {u : Freer} (h : u.Ok chunks held cid idx) : ∀ b ∈ u.rest, b.Mapped chunks := by
  cases u with
  | direct => simp [rest]
  | alloc count err b rest => exact fun x hx => h.2.2 x (List.mem_cons_of_mem b hx)

/-- A successful compare-and-swap of `FreeBlock` clears the bit of the block, and the caller loses
the block with it. -/
theorem Inv.free (h : Inv s) {cid idx : Int16} {u : Freer} {bm : Slice} {old : Word}
    (hpc : s.pc i = .freeCas cid idx u bm old)
    (hw : s.word bm (wordIdxOf (getBlockAddress cid idx)).toNat = old) :
    Inv (((s.storeWord bm (wordIdxOf (getBlockAddress cid idx)).toNat
      (old &&& freeMask (getBlockAddress cid idx))).release i cid idx u).goto i
        (.freeRUnlock u)) := by
  have hi := h.pcs i
  rw [hpc] at hi
  obtain ⟨hu, rfl⟩ := hi
  obtain ⟨b, hb, hbc, hbi, hperm⟩ := hu.exists_block (h.held i)
  have haddr : getBlockAddress cid idx = b.address := by
    rw [← hbc, ← hbi]
    exact hb.address_eq
  rw [haddr, wordIdxOf_natCast, Int.toNat_natCast] at hw ⊢
  rw [freeMask_natCast]
  have hidx : b.address / 32 < s.bitmap.len := by
    have := hb.address_lt
    have := h.len
    simp only [BlocksPerChunk] at *
    omega
  have hget := h.word_eq hidx
  rw [hw] at hget
  refine ⟨?_, ?_, ?_, h.len, h.count, h.pos, h.max, ?_, fun j x hx => ?_, fun j => ?_⟩
  · rw [goto_role]
    exact h.mu.same (by rw [hpc]; rfl)
  · exact h.mux_update (by rw [hpc]; rfl)
  · simp only [State.release, State.goto, State.storeWord, Function.update_self, List.length_set]
    exact h.words
  · refine h.own.release (i := i) (a := b.address) ?_ ?_ ?_
    · simp only [State.own, State.release, State.goto, State.storeWord, Function.update_self]
      rw [hpc]
      exact hperm.map Block.address
    · intro j hj
      simp only [State.own, State.release, State.goto, State.storeWord, Function.update_of_ne hj]
      exact .refl _
    · intro a
      simp only [State.release, State.goto, State.storeWord, Function.update_self]
      exact bitAt_free hget
  · simp only [State.release, State.goto, State.storeWord, Function.update_apply] at hx
    split_ifs at hx with hj
    · exact h.held i x (Freer.mem_of_mem_released hx)
    · exact h.held j x hx
  · simp only [State.release, State.goto, State.storeWord, Function.update_apply]
    split_ifs with hj
    · exact hu.rest_mapped
    · exact h.pcs j

/-! ## Growth, and blocks that change hands -/

theorem Inv.append (h : Inv s) {r : Appender} {chunk : Chunk} {copied : Bool}
    (hpc : s.pc i = .grow r chunk) :
    Inv ((s.appendChunk chunk copied).goto i (.callback r chunk)) := by
  have hi := h.pcs i
  rw [hpc] at hi
  obtain ⟨hr, hmax⟩ := hi
  have hwriting : (s.pc i).role = .writing := by rw [hpc]; rfl
  have hmux : s.tryAppendChunkMux = some i := (h.mux i).2 (by rw [hpc]; rfl)
  have hwords : s.words = s.arrays s.bitmap.arr := by
    rw [State.words, ← h.words, List.take_length]
  refine ⟨?_, ?_, ?_, ?_, ?_, ?_, ?_, ?_, ?_, fun j => ?_⟩
  · rw [goto_role]
    exact h.mu.same hwriting
  · exact h.mux_update (by rw [hpc]; rfl)
  · have := h.words
    simp only [State.goto, State.appendChunk, Function.update_self, hwords, List.length_append,
      List.length_replicate, this]
  · have := h.len
    simp only [State.goto, State.appendChunk, List.length_append, List.length_singleton,
      BlocksPerChunk]
    omega
  · simp only [State.goto, State.appendChunk, List.length_append, List.length_singleton, h.count]
  · simp only [State.goto, State.appendChunk, List.length_append, List.length_singleton]
    omega
  · rw [h.count] at hmax
    simp only [State.goto, State.appendChunk, List.length_append, List.length_singleton]
    omega
  · have hown : ((s.appendChunk chunk copied).goto i (.callback r chunk)).own = s.own :=
      goto_own (s := s.appendChunk chunk copied) (by
        change _ = (s.pc i).collected
        rw [hpc]
        rfl)
    rw [hown]
    refine h.own.congr_used fun a => ?_
    simp only [State.goto, State.appendChunk, Function.update_self, hwords, bitAt_append_zero]
  · exact fun j b hb => (h.held j b hb).append chunk
  · by_cases hj : j = i
    · subst hj
      simp only [State.goto, Function.update_self]
      cases r with
      | direct => trivial
      | alloc c => exact ⟨hr.1, fun b hb => (hr.2 b hb).append chunk⟩
    · simp only [State.goto, Function.update_of_ne hj]
      refine (h.pcs j).grow (h.mu.not_reading hwriting) ?_ chunk
      rw [← Bool.not_eq_true, ← h.mux j, hmux]
      exact fun he => hj (Option.some.inj he).symm

theorem Inv.finish (h : Inv s) {c : Call} (hpc : s.pc i = .finish c) :
    Inv { s.goto i (.returned c.count (.ok c.allocated)) with
      mu := s.mu.runlock i
      held := Function.update s.held i (s.held i ++ c.allocated) } := by
  have hi := h.pcs i
  rw [hpc] at hi
  obtain ⟨⟨hlen, hmapped⟩, hzero⟩ := hi
  have hreading : (s.pc i).role = .reading := by rw [hpc]; rfl
  refine ⟨?_, ?_, h.words, h.len, h.count, h.pos, h.max, ?_, fun j x hx => ?_, fun j => ?_⟩
  · have := h.mu.runlock hreading
    rw [show RWMutex.Role.out = (PC.returned c.count (.ok c.allocated)).role from rfl,
      ← goto_role] at this
    exact this
  · exact h.mux_update (by rw [hpc]; rfl)
  · refine h.own.perm fun j => ?_
    simp only [State.own, State.goto, Function.update_apply]
    split_ifs with hj
    · rw [hj, hpc]
      simp [PC.collected]
    · exact .refl _
  · simp only [Function.update_apply] at hx
    split_ifs at hx with hj
    · rcases List.mem_append.1 hx with hx | hx
      · exact h.held i x hx
      · exact hmapped x hx
    · exact h.held j x hx
  · simp only [State.goto, Function.update_apply]
    split_ifs with hj
    · refine ⟨by omega, ?_, hmapped⟩
      have := h.own.nodup i
      rw [State.own, hpc, List.map_append] at this
      exact (List.nodup_append.1 this).2.1
    · exact h.pcs j

theorem Inv.give (h : Inv s) {b : Block} (hq : (s.pc i).Quiet = true) (hb : b ∈ s.held i)
    (hne : i ≠ j) :
    Inv { s with
      held := Function.update (Function.update s.held i ((s.held i).erase b)) j
        (s.held j ++ [b]) } := by
  refine ⟨h.mu, h.mux, h.words, h.len, h.count, h.pos, h.max, ?_, fun k x hx => ?_, fun k => ?_⟩
  · refine h.own.pass (a := b.address) hne ?_ ?_ fun k hki hkj => ?_
    · simp only [State.own, Function.update_of_ne hne, Function.update_self]
      exact ((List.perm_cons_erase hb).append_right _).map Block.address
    · simp only [State.own, Function.update_self, List.map_append, List.append_assoc]
      exact (List.perm_append_comm).append_left _
    · simp only [State.own, Function.update_of_ne hki, Function.update_of_ne hkj]
      exact .refl _
  · simp only [Function.update_apply] at hx
    split_ifs at hx with h1 h2
    · rcases List.mem_append.1 hx with hx | hx
      · exact h.held j x hx
      · rw [List.mem_singleton.1 hx]
        exact h.held i b hb
    · exact h.held i x (List.mem_of_mem_erase hx)
    · exact h.held k x hx
  · simp only [Function.update_apply]
    split_ifs with h1 h2
    · rw [h1]
      exact (h.pcs j).mono_held [b]
    · rw [h2]
      exact PC.Quiet.ok hq (h.pcs i)
    · exact h.pcs k

/-! ## Every step keeps the invariant -/

theorem Scan.Ok.skip {bitmap : Slice} {chunks : List Chunk} {f : Scan} (h : f.Ok bitmap chunks)
    (n : ℕ) : { f with i := n }.Ok bitmap chunks := h

theorem inv_stepAlloc (h : Inv s) {pc : PC} (hpc : s.pc i = pc)
    (hs : s.stepAlloc i pc = some t) : Inv t := by
  have hok := h.pcs i
  rw [hpc] at hok
  cases pc with
  | rlock c =>
    cases hs
    exact h.relock (h.mu.rlock (by rw [hpc]; rfl)) (by rw [hpc]; rfl) (by rw [hpc]; rfl) hok
  | rwait c =>
    simp only [State.stepAlloc] at hs
    split_ifs at hs with hm
    cases hs
    exact h.relock (h.mu.enter (by rw [hpc]; rfl) hm) (by rw [hpc]; rfl) (by rw [hpc]; rfl) hok
  | snapshot c =>
    cases hs
    exact h.move (by rw [hpc]; rfl) ⟨hok, rfl, rfl⟩
  | position c bm ch =>
    obtain ⟨hc, rfl, rfl⟩ := hok
    cases hs
    exact h.move (by rw [hpc, Scan.next_view]; rfl) (Scan.next_ok ⟨hc, rfl, rfl⟩)
  | load f =>
    simp only [State.stepAlloc] at hs
    have hskip : Inv (s.goto i { f with i := f.i + 1 }.next) :=
      h.move (by rw [hpc, Scan.next_view]; rfl) (Scan.next_ok (hok.skip _))
    split_ifs at hs with h1 h2
    · cases hs
      exact hskip
    · cases hs
      exact hskip
    · cases hs
      exact h.move (by rw [hpc]; rfl) ⟨hok, (findBits_spec _ _).1⟩
  | cas f old newVal found =>
    simp only [State.stepAlloc] at hs
    split_ifs at hs with hw hz
    · cases hs
      exact h.take hpc hw rfl fun hc => ⟨hc, hz⟩
    · cases hs
      exact h.take hpc hw (Scan.next_view _) fun hc => Scan.next_ok (hc.skip _)
    · cases hs
      exact h.move (by rw [hpc]; rfl) hok.1
  | storePos f =>
    cases hs
    have hmove : Inv (s.goto i (.finish f.toCall)) :=
      h.move (by rw [hpc]; rfl) ⟨hok.1.1, hok.2⟩
    exact hmove.setPos _
  | finish c =>
    cases hs
    exact h.finish hpc
  | runlock c =>
    cases hs
    exact h.relock (h.mu.runlock (by rw [hpc]; rfl)) (by rw [hpc]; rfl) (by rw [hpc]; rfl) hok
  | _ => cases hs

theorem inv_stepAppend (h : Inv s) {pc : PC} {choice : Bool} (hpc : s.pc i = pc)
    (hs : s.stepAppend i choice pc = some t) : Inv t := by
  have hok := h.pcs i
  rw [hpc] at hok
  cases pc with
  | chunkCount r =>
    simp only [State.stepAppend] at hs
    split_ifs at hs with hmax
    · cases hs
      exact h.move (by rw [hpc, Appender.resume_view]; rfl) (Appender.resume_ok hok)
    · cases hs
      exact h.move (by rw [hpc]; rfl) ⟨hok, by omega⟩
  | muxLock r n =>
    simp only [State.stepAppend] at hs
    split_ifs at hs with hm
    cases hs
    refine h.remux (by rw [hpc]; rfl) (fun j => ?_) (by rw [hpc]; rfl) hok
    -- nobody was inside the mutex
    rw [Function.update_apply]
    split_ifs with hj
    · simp [hj, PC.inMux]
    · rw [← h.mux j, hm]
      simp [Ne.symm hj]
  | recheck r n =>
    simp only [State.stepAppend] at hs
    split_ifs at hs with hc
    · cases hs
      exact h.move (by rw [hpc]; rfl) hok.1
    · cases hs
      exact h.move (by rw [hpc]; rfl) ⟨hok.1, not_not.1 hc, hok.2⟩
  | newChunk r n =>
    obtain ⟨hr, rfl, hmax⟩ := hok
    simp only [State.stepAppend] at hs
    split_ifs at hs with hc
    · cases hs
      exact h.move (by rw [hpc]; rfl) ⟨hr, hmax⟩
    · cases hs
      exact h.move (by rw [hpc]; rfl) hr
  | lock r chunk =>
    simp only [State.stepAppend] at hs
    split_ifs at hs with hw
    cases hs
    exact h.relock (h.mu.announce (by rw [hpc]; rfl) hw) (by rw [hpc]; rfl) (by rw [hpc]; rfl) hok
  | lockWait r chunk =>
    simp only [State.stepAppend] at hs
    split_ifs at hs with hr
    cases hs
    exact h.relock (h.mu.acquire (by rw [hpc]; rfl) hr) (by rw [hpc]; rfl) (by rw [hpc]; rfl) hok
  | grow r chunk =>
    cases hs
    exact h.append hpc
  | callback r chunk =>
    cases hs
    exact h.move (by rw [hpc]; rfl) hok
  | unlock r =>
    cases hs
    exact h.relock (h.mu.unlock (by rw [hpc]; rfl)) (by rw [hpc]; rfl) (by rw [hpc]; rfl) hok
  | muxUnlock r err =>
    cases hs
    have hv := r.resume_view err
    simp only [PC.view, Prod.mk.injEq] at hv
    refine h.remux (by rw [hpc, hv.1]; rfl) (fun j => ?_) (by rw [hpc, hv.2.2]; rfl)
      (Appender.resume_ok hok)
    -- only this thread was inside the mutex
    have hmux : s.tryAppendChunkMux = some i := (h.mux i).2 (by rw [hpc]; rfl)
    rw [Function.update_apply]
    split_ifs with hj
    · simp [hv.2.1]
    · rw [← h.mux j, hmux]
      simp [Ne.symm hj]
  | _ => cases hs

theorem inv_stepFree (h : Inv s) {pc : PC} (hpc : s.pc i = pc)
    (hs : s.stepFree i pc = some t) : Inv t := by
  have hok := h.pcs i
  rw [hpc] at hok
  cases pc with
  | freeRLock cid idx u =>
    cases hs
    exact h.relock (h.mu.rlock (by rw [hpc]; rfl)) (by rw [hpc]; rfl) (by rw [hpc]; rfl) hok
  | freeRWait cid idx u =>
    simp only [State.stepFree] at hs
    split_ifs at hs with hm
    cases hs
    exact h.relock (h.mu.enter (by rw [hpc]; rfl) hm) (by rw [hpc]; rfl) (by rw [hpc]; rfl) hok
  | freeStart cid idx u =>
    obtain ⟨b, hb, rfl, rfl, -⟩ := hok.exists_block (h.held i)
    have hlt : b.address / 32 < s.bitmap.len := by
      have := hb.address_lt
      have := h.len
      simp only [BlocksPerChunk] at *
      omega
    simp only [State.stepFree, hb.address_eq, wordIdxOf_natCast] at hs
    rw [if_neg (by omega), if_neg (by omega)] at hs
    cases hs
    exact h.move (by rw [hpc]; rfl) ⟨hok, rfl⟩
  | freeLoad cid idx u bm =>
    cases hs
    exact h.move (by rw [hpc]; rfl) hok
  | freeCas cid idx u bm old =>
    simp only [State.stepFree] at hs
    split_ifs at hs with hw
    · cases hs
      exact h.free hpc hw
    · cases hs
      exact h.move (by rw [hpc]; rfl) hok
  | freeRUnlock u =>
    cases hs
    have hv := u.resume_view
    simp only [PC.view, Prod.mk.injEq] at hv
    refine h.relock ?_ (by rw [hpc, hv.2.1]; rfl) (by rw [hpc, hv.2.2]; rfl) (Freer.resume_ok hok)
    rw [hv.1]
    exact h.mu.runlock (by rw [hpc]; rfl)
  | _ => cases hs

/-- Each `FreeBlock` call names a block that its caller holds. -/
def FreesHeld (s : State ι) : Action ι → Prop
  | .callFree i chunkID blockIdx => ∃ b ∈ s.held i, b.chunkID = chunkID ∧ b.blockIdx = blockIdx
  | _ => True

theorem inv_step {a : Action ι} (h : Inv s) (ha : FreesHeld s a)
    (hs : (bus ι).step s a = some t) : Inv t := by
  cases a with
  | callAlloc i count =>
    simp only [bus, step] at hs
    split_ifs at hs with hq hmake
    · cases hs
      exact h.move (by rw [PC.Quiet.view hq]; rfl) ⟨by simp, by simp⟩
    · cases hs
      exact h.move (by rw [PC.Quiet.view hq]; rfl) trivial
  | callAppend i =>
    simp only [bus, step] at hs
    split_ifs at hs with hq
    cases hs
    exact h.move (by rw [PC.Quiet.view hq]; rfl) trivial
  | callFree i cid idx =>
    simp only [bus, step] at hs
    split_ifs at hs with hq
    cases hs
    exact h.move (by rw [PC.Quiet.view hq]; rfl) ha
  | give i j b =>
    simp only [bus, step] at hs
    split_ifs at hs with hq
    cases hs
    exact h.give hq.1 hq.2.1 hq.2.2
  | run i choice =>
    simp only [bus, step, Option.orElse_eq_some] at hs
    rcases hs with hs | ⟨-, hs | ⟨-, hs⟩⟩
    · exact inv_stepAlloc h rfl hs
    · exact inv_stepAppend h rfl hs
    · exact inv_stepFree h rfl hs

theorem inv_of_reaches (hr : (bus ι).Reaches FreesHeld s) : Inv s := by
  refine hr.invariant ?_ ?_
  · rintro s ⟨firstChunk, makeLimit, rfl⟩
    exact inv_newBus firstChunk makeLimit
  · intro s a t _ h ha hs
    exact inv_step h ha hs

/-- In every reachable state the set bits of the bitmap are the addresses of the blocks that threads
hold or have collected, all these lists are duplicate-free and disjoint, bitmap, chunk list and
chunk count fit together, every such block lies in an existing chunk, and an `AllocBlocks(count)`
that has succeeded has returned `count` different blocks. -/
theorem bus_exclusive (s : State ι) (hr : (bus ι).Reaches FreesHeld s) :
    (∀ a, bitAt s.words a = true ↔
      ∃ i, ∃ b ∈ s.held i ++ (s.pc i).collected, b.address = a) ∧
    (∀ i, ((s.held i ++ (s.pc i).collected).map Block.address).Nodup) ∧
    (∀ i j, i ≠ j → ∀ b ∈ s.held i ++ (s.pc i).collected,
      ∀ b' ∈ s.held j ++ (s.pc j).collected, b.address ≠ b'.address) ∧
    s.words.length = 32 * s.chunks.length ∧ s.bitmap.len = s.words.length ∧
    s.chunkCount = s.chunks.length ∧ s.chunks.length ≤ MaxChunks ∧
    (∀ i, ∀ b ∈ s.held i, b.Mapped s.chunks) ∧
    (∀ i, s.pc i ≠ .panicked) ∧
    ∀ i count blocks, s.pc i = .returned count (.ok blocks) →
      blocks.length = count ∧ (blocks.map Block.address).Nodup ∧
        ∀ b ∈ blocks, b.Mapped s.chunks := by
  have h := inv_of_reaches hr
  have hwords : s.words = s.arrays s.bitmap.arr := by
    rw [State.words, ← h.words, List.take_length]
  refine ⟨fun a => ?_, h.own.nodup, fun i j hij b hb b' hb' he => ?_, ?_, ?_, h.count, h.max, h.held,
    fun i hi => ?_, fun i count blocks hi => ?_⟩
  · rw [hwords, h.own.used_iff]
    simp only [State.own, List.mem_map]
  · refine hij (h.own.disjoint i j b.address (List.mem_map_of_mem hb) ?_)
    rw [he]
    exact List.mem_map_of_mem hb'
  · rw [hwords, h.words, h.len]
  · rw [hwords, h.words]
  · have := h.pcs i
    rw [hi] at this
    exact this
  · have := h.pcs i
    rw [hi] at this
    exact this

instance (s : State ι) : (a : Action ι) → Decidable (FreesHeld s a)
  | .callFree i chunkID blockIdx =>
    inferInstanceAs (Decidable (∃ b ∈ s.held i, b.chunkID = chunkID ∧ b.blockIdx = blockIdx))
  | .callAlloc .. | .callAppend _ | .give .. | .run .. => inferInstanceAs (Decidable True)

/-- A thread allocates two blocks of a new bus and frees the first; the second stays marked. -/
theorem bus_exclusive_run : ∃ s : State Unit, s.pc () = .idle ∧
    (s.held ()).map (fun b => (b.chunkID, b.blockIdx)) = [(-1, 1)] ∧ bitAt s.words 1 = true := by
  obtain ⟨s, hr, hp⟩ := System.exists_reaches_of_runWith (s := newBus ⟨0⟩ .least) (bus Unit)
    FreesHeld
    (List.flatten [[.callAlloc () 2], List.replicate 8 (.run () true), [.callFree () (-1) 0],
      List.replicate 6 (.run () true)])
    (fun s => decide (s.pc () = .idle ∧
      (s.held ()).map (fun b => (b.chunkID, b.blockIdx)) = [(-1, 1)])) ⟨_, _, rfl⟩ (by decide +kernel)
  obtain ⟨hpc, hheld⟩ := of_decide_eq_true hp
  refine ⟨s, hpc, hheld, ((bus_exclusive s hr).1 1).2 ⟨(), ?_⟩⟩
  obtain ⟨b, hb, he⟩ : ∃ b ∈ s.held (), (b.chunkID, b.blockIdx) = (-1, 1) := by
    rw [← List.mem_map, hheld]
    exact List.mem_singleton_self _
  obtain ⟨hc, hi⟩ := Prod.mk.inj he
  refine ⟨b, List.mem_append_left _ hb, ?_⟩
  rw [Block.address, hc, hi]
  decide

end Mmfg.Bus
