import Mmfg.Lib.Search
import Mmfg.Bus.Invariant

/-!
# Sequential allocation is complete and atomic

A call of `AllocBlocks` while no other thread acts.  A scan visits every word, from the search
position around to it again, and takes all clear bits of a word unless it needs fewer; so one that
ends without enough blocks leaves no clear bit (`scan_ends`).  Then the bitmap grows by a chunk and is
scanned again, or, with all chunks there, the blocks are given back one by one (`undo_ends`).
-/

namespace Mmfg.Bus

variable {ι : Type} [DecidableEq ι] {s t : State ι} {i : ι} {pc : PC}

/-- Only thread `i` acts, and its `NewChunk` succeeds. -/
def Sequential (i : ι) (s : State ι) (a : Action ι) : Prop :=
  ∃ choice, a = .run i choice ∧ ∀ r count, s.pc i = .newChunk r count → choice = true

/-- From every state with `P`, the call comes to one with `Q`. -/
abbrev Leads (i : ι) (P Q : State ι → Prop) : Prop := (bus ι).LeadsTo (Sequential i) P Q

/-! ## Single steps -/

section Steps

variable {Q : State ι → Prop}

theorem inevitable_of_run
    (h : ∀ choice, (∀ r count, s.pc i = .newChunk r count → choice = true) →
      ∃ t, step s (.run i choice) = some t ∧ Q t) :
    (bus ι).Inevitable (Sequential i) Q s := by
  refine .step ?_ ?_
  · obtain ⟨t, ht, -⟩ := h true fun _ _ _ => rfl
    exact ⟨.run i true, t, ⟨true, rfl, fun _ _ _ => rfl⟩, ht⟩
  · rintro a t ⟨choice, rfl, hchoice⟩ hs
    obtain ⟨u, hu, hq⟩ := h choice hchoice
    obtain rfl : u = t := Option.some.inj (hu.symm.trans hs)
    exact .here hq

theorem inevitable_of_alloc (hpc : s.pc i = pc) (hs : s.stepAlloc i pc = some t) (h : Q t) :
    (bus ι).Inevitable (Sequential i) Q s :=
  inevitable_of_run fun _ _ => ⟨t, by rw [step, hpc, hs]; rfl, h⟩

theorem inevitable_of_append (hpc : s.pc i = pc) (hnone : s.stepAlloc i pc = none)
    (h : ∀ choice, (∀ r count, pc = .newChunk r count → choice = true) →
      ∃ t, s.stepAppend i choice pc = some t ∧ Q t) :
    (bus ι).Inevitable (Sequential i) Q s :=
  inevitable_of_run fun choice hchoice => by
    obtain ⟨t, ht, hq⟩ := h choice (hpc ▸ hchoice)
    exact ⟨t, by rw [step, hpc, hnone, ht]; rfl, hq⟩

theorem inevitable_of_free (hpc : s.pc i = pc) (hnone : s.stepAlloc i pc = none)
    (hnone' : ∀ choice, s.stepAppend i choice pc = none) (hs : s.stepFree i pc = some t) (h : Q t) :
    (bus ι).Inevitable (Sequential i) Q s :=
  inevitable_of_run fun choice _ => ⟨t, by rw [step, hpc, hnone, hnone', hs]; rfl, h⟩

end Steps

/-- The bus during the call: where the thread is, the two locks, the slice `B` of the bitmap and its
words `W`, and the chunks `C`, which fit the bitmap. -/
structure At (i : ι) (pc : PC) (mu : RWMutex ι) (mux : Option ι) (B : Slice) (W : List Word)
    (C : List Chunk) (s : State ι) : Prop where
  pc : s.pc i = pc
  mu : s.mu = mu
  mux : s.tryAppendChunkMux = mux
  bitmap : s.bitmap = B
  words : s.arrays B.arr = W
  len : B.len = W.length
  chunks : s.chunks = C
  count : s.chunkCount = C.length
  size : W.length = 32 * C.length
  pos : 1 ≤ C.length
  max : C.length ≤ MaxChunks

variable {mu : RWMutex ι} {mux : Option ι} {B : Slice} {W W₀ : List Word} {C : List Chunk} {n : ℕ}

theorem At.goto (h : At i pc mu mux B W C s) (pc' : PC) : At i pc' mu mux B W C (s.goto i pc') :=
  { h with pc := Function.update_self _ _ _ }

omit [DecidableEq ι] in
theorem At.storeWord (h : At i pc mu mux B W C s) (w : ℕ) (v : Word) :
    At i pc mu mux B (W.set w v) C (s.storeWord B w v) :=
  { h with
    words := (Function.update_self ..).trans (by rw [h.words])
    len := h.len.trans (List.length_set ..).symm
    size := (List.length_set ..).trans h.size }

omit [DecidableEq ι] in
theorem At.words_eq (h : At i pc mu mux B W C s) : s.words = W := by
  rw [State.words, h.bitmap, h.words, h.len, List.take_length]

omit [DecidableEq ι] in
theorem At.appendChunk (h : At i pc mu mux B W C s) (hlt : C.length < MaxChunks) (chunk : Chunk)
    (copied : Bool) : ∃ B', At i pc mu mux B' (W ++ List.replicate (BlocksPerChunk / 32) 0)
      (C ++ [chunk]) (s.appendChunk chunk copied) := by
  refine ⟨_, h.pc, h.mu, h.mux, rfl, ?_, ?_, ?_, ?_, ?_, ?_, ?_⟩
  · exact (Function.update_self ..).trans (congrArg (· ++ _) h.words_eq)
  · change s.bitmap.len + _ = _
    rw [h.bitmap, h.len, List.length_append, List.length_replicate]
  · exact congrArg (· ++ [chunk]) h.chunks
  · rw [List.length_append, ← h.count]
    rfl
  · rw [List.length_append, List.length_append, List.length_replicate, h.size]
    simp only [BlocksPerChunk, List.length_singleton]
    omega
  · rw [List.length_append]
    exact Nat.le_add_right_of_le h.pos
  · rw [List.length_append]
    exact hlt

theorem At.release (h : At i pc mu mux B W C s) (chunkID blockIdx : Int16) (u : Freer) :
    At i pc mu mux B W C (s.release i chunkID blockIdx u) :=
  { h with }

/-- The mutex while the thread reads. -/
abbrev reading (i : ι) : RWMutex ι := RWMutex.unlocked.rlock i

theorem runlock_reading (i : ι) : (reading i).runlock i = .unlocked := by
  simp [reading, RWMutex.rlock, RWMutex.runlock, RWMutex.unlocked]

theorem unlock_announce (i : ι) : (RWMutex.unlocked.announce i).unlock = .unlocked := by
  simp [RWMutex.announce, RWMutex.unlock, RWMutex.unlocked]

/-! ## The scan -/

/-- The beginning of a round: the lock, the slices and the search position. -/
theorem round_starts (c : Call) :
    Leads i (At i (.rlock c) .unlocked none B W C) (fun t => ∃ f : Scan,
      At i f.next (reading i) none B W C t ∧ f.toCall = c ∧ f.bitmapSlice = B ∧
        f.chunksSnapshot = C ∧ f.i = 0) := by
  have hrlock : Leads i (At i (.rlock c) .unlocked none B W C)
      (At i (.rwait c) (reading i) none B W C) := fun s h =>
    inevitable_of_alloc h.pc rfl { h.goto (.rwait c) with mu := by rw [h.mu] }
  have hrwait : Leads i (At i (.rwait c) (reading i) none B W C)
      (At i (.snapshot c) (reading i) none B W C) := fun s h =>
    inevitable_of_alloc h.pc (if_pos (by rw [h.mu]; exact Finset.mem_insert_self _ _)) (h.goto _)
  have hsnapshot : Leads i (At i (.snapshot c) (reading i) none B W C)
      (At i (.position c B C) (reading i) none B W C) := fun s h =>
    inevitable_of_alloc h.pc (by rw [← h.bitmap, ← h.chunks]; rfl) (h.goto _)
  refine ((hrlock.trans hrwait).trans hsnapshot).trans fun s h => ?_
  exact inevitable_of_alloc h.pc rfl ⟨_, h.goto _, rfl, rfl, rfl, rfl⟩

/-- The blocks are different ones that are clear in `W₀`, and all that is marked in addition in
`W`. -/
structure Marked (W₀ W : List Word) (C : List Chunk) (blocks : List Block) : Prop where
  mapped : ∀ b ∈ blocks, b.Mapped C
  nodup : (blocks.map Block.address).Nodup
  clear : ∀ a ∈ blocks.map Block.address, bitAt W₀ a = false
  bits : ∀ a, bitAt W a = true ↔ bitAt W₀ a = true ∨ a ∈ blocks.map Block.address

/-- The call `AllocBlocks(n)` has found the bitmap `W₀`, and what it has collected is marked in
`W`. -/
structure Taken (n : ℕ) (W₀ W : List Word) (C : List Chunk) (c : Call) : Prop extends
    Marked W₀ W C c.allocated where
  count : c.count = n
  length : c.allocated.length + c.remaining = n

theorem Taken.take {f : Scan} {old newVal : Word} {found : List ℕ} (h : Taken n W₀ W C f.toCall)
    (hsize : W.length = 32 * C.length) (hmax : C.length ≤ MaxChunks) (hC : f.chunksSnapshot = C)
    (hget : W[f.wordIdx]? = some old) (hfound : Found f.remaining old newVal found) :
    Taken n W₀ (W.set f.wordIdx newVal) C (f.collect found).toCall := by
  have hlt : f.wordIdx < W.length := (List.getElem?_eq_some_iff.1 hget).1
  have hnew : ∀ k ∈ found, (blockAt C (f.wordIdx * 32 + k)).Mapped C ∧
      (blockAt C (f.wordIdx * 32 + k)).address = f.wordIdx * 32 + k := by
    intro k hk
    have hk32 := (hfound.clear k hk).1
    refine blockAt_mapped ?_ hmax
    simp only [BlocksPerChunk]
    omega
  have haddr : (f.collect found).allocated.map Block.address =
      f.allocated.map Block.address ++ found.map (f.wordIdx * 32 + ·) := by
    rw [Scan.collect, List.map_append, List.map_map, hC]
    exact congrArg _ (List.map_congr_left fun k hk => (hnew k hk).2)
  have hclear : ∀ a ∈ found.map (f.wordIdx * 32 + ·), bitAt W a = false :=
    fun a ha => bitAt_take_clear hget hfound ha
  refine ⟨⟨fun b hb => ?_, ?_, fun a ha => ?_, fun a => ?_⟩, h.count, ?_⟩
  · rcases List.mem_append.1 hb with hb | hb
    · exact h.mapped b hb
    · obtain ⟨k, hk, rfl⟩ := List.mem_map.1 hb
      rw [hC]
      exact (hnew k hk).1
  · rw [haddr, List.nodup_append]
    refine ⟨h.nodup, hfound.nodup.map fun x y hxy => by simpa using hxy, ?_⟩
    rintro a ha b hb rfl
    have hset := (h.bits a).2 (.inr ha)
    rw [hclear a hb] at hset
    cases hset
  · rw [haddr] at ha
    rcases List.mem_append.1 ha with ha | ha
    · exact h.clear a ha
    · rw [← Bool.not_eq_true]
      intro hset
      have := (h.bits a).2 (.inl hset)
      rw [hclear a ha] at this
      cases this
  · rw [bitAt_take hget hfound, h.bits, haddr, List.mem_append, or_assoc]
  · have := h.length
    have := hfound.le
    simp only [Scan.collect, List.length_append, List.length_map]
    omega

/-- The scan so far: it still needs blocks, and the words it has visited are full. -/
structure Scanning (n : ℕ) (W₀ W : List Word) (B : Slice) (C : List Chunk) (f : Scan) : Prop where
  slice : f.bitmapSlice = B
  snapshot : f.chunksSnapshot = C
  taken : Taken n W₀ W C f.toCall
  needs : 0 < f.remaining
  visited : ∀ j < f.i, W[(f.startWord + j) % W.length]? = some (BitVec.allOnes 32)

/-- How a scan ends: with all blocks, or with all words full. -/
def Scanned (n : ℕ) (i : ι) (W₀ : List Word) (B : Slice) (C : List Chunk) (s : State ι) : Prop :=
  (∃ f W, At i (.storePos f) (reading i) none B W C s ∧ Taken n W₀ W C f.toCall ∧ f.remaining = 0) ∨
  ∃ c W, At i (.runlock c) (reading i) none B W C s ∧ Taken n W₀ W C c ∧ 0 < c.remaining ∧
    ∀ a < 32 * W.length, bitAt W a = true

theorem found_ne_nil {remaining : ℕ} {old : Word} (hneeds : 0 < remaining)
    (hfull : old ≠ BitVec.allOnes 32) : (findBits remaining 32 (~~~old) old []).2 ≠ [] := by
  intro hnil
  obtain ⟨hfound, hall⟩ := findBits_spec remaining old
  have hvalue := hfound.value
  rw [hall (by rw [hnil]; exact hneeds), hnil] at hvalue
  refine hfull (BitVec.eq_of_getLsbD_eq fun k hk => ?_)
  have hone : (BitVec.allOnes 32).getLsbD k = true := by
    rw [BitVec.getLsbD_allOnes]
    exact decide_eq_true hk
  rw [hone]
  exact ((hvalue k).1 hone).resolve_right List.not_mem_nil

variable {f : Scan}

theorem word_ends (h : At i (.load f) (reading i) none B W C s) (hf : Scanning n W₀ W B C f)
    (hi : f.i < W.length) :
    (bus ι).Inevitable (Sequential i) (fun t => Scanned n i W₀ B C t ∨ ∃ f' W',
      At i f'.next (reading i) none B W' C t ∧ Scanning n W₀ W' B C f' ∧ f'.i = f.i + 1 ∧
        W'.length = W.length) s := by
  obtain rfl := hf.slice
  have hidx : f.wordIdx = (f.startWord + f.i) % W.length := by rw [Scan.wordIdx, h.len]
  have hlt : f.wordIdx < W.length := by
    rw [hidx]
    exact Nat.mod_lt _ (by omega)
  obtain ⟨old, hget⟩ : ∃ old, W[f.wordIdx]? = some old := ⟨_, List.getElem?_eq_getElem hlt⟩
  have hword : ∀ {t : State ι}, t.arrays f.bitmapSlice.arr = W →
      t.word f.bitmapSlice f.wordIdx = old := by
    intro t ht
    rw [State.word, ht, hget, Option.getD_some]
  -- a visited word is full, and the others are as they were
  have hvisited : ∀ v, v = BitVec.allOnes 32 → ∀ j < f.i + 1,
      (W.set f.wordIdx v)[(f.startWord + j) % W.length]? = some (BitVec.allOnes 32) := by
    rintro v rfl j hj
    rw [List.getElem?_set]
    split_ifs with heq
    · rfl
    · refine hf.visited j ?_
      rcases Nat.lt_succ_iff_lt_or_eq.1 hj with hj | rfl
      · exact hj
      · exact absurd hidx heq
  by_cases hfull : old = BitVec.allOnes 32
  · subst hfull
    refine inevitable_of_alloc h.pc (if_pos (hword h.words)) ?_
    refine .inr ⟨{ f with i := f.i + 1 }, W, h.goto _, { hf with visited := ?_ }, rfl, rfl⟩
    have hsame : W.set f.wordIdx (BitVec.allOnes 32) = W := by
      rw [← (List.getElem?_eq_some_iff.1 hget).2]
      exact List.set_getElem_self _
    have := hvisited _ rfl
    rwa [hsame] at this
  · obtain ⟨hfound, hall⟩ := findBits_spec f.remaining old
    have hne := found_ne_nil hf.needs hfull
    have hload : s.stepAlloc i (.load f) = some (s.goto i (.cas f old
        (findBits f.remaining 32 (~~~old) old []).1 (findBits f.remaining 32 (~~~old) old []).2)) := by
      simp only [State.stepAlloc, hword h.words]
      rw [if_neg (show ¬ old = 0xFFFFFFFF from hfull), if_neg (by simpa using hne)]
    generalize hr : findBits f.remaining 32 (~~~old) old [] = r at hfound hall hne hload
    obtain ⟨newVal, found⟩ := r
    refine (inevitable_of_alloc (Q := At i (.cas f old newVal found) (reading i) none _ W C) h.pc
      hload (h.goto _)).trans fun t ht => ?_
    have htaken := hf.taken.take h.size h.max hf.snapshot hget hfound
    have hstore := ht.storeWord f.wordIdx newVal
    by_cases hzero : (f.collect found).remaining = 0
    · refine inevitable_of_alloc ht.pc ((if_pos (hword ht.words)).trans (if_pos hzero)) ?_
      exact .inl (.inl ⟨_, _, hstore.goto _, htaken, hzero⟩)
    · refine inevitable_of_alloc ht.pc ((if_pos (hword ht.words)).trans (if_neg hzero)) ?_
      refine .inr ⟨{ f.collect found with i := f.i + 1 }, _, hstore.goto _, ?_, rfl, List.length_set ..⟩
      have hones : newVal = BitVec.allOnes 32 := by
        refine hall ?_
        change ¬ f.remaining - found.length = 0 at hzero
        exact Nat.lt_of_sub_ne_zero hzero
      refine ⟨rfl, hf.snapshot, htaken, Nat.pos_of_ne_zero hzero, ?_⟩
      rw [List.length_set]
      exact hvisited _ hones

/-- A whole scan, of which `k` words are left. -/
theorem scan_ends (k : ℕ) : Leads i (fun s => ∃ f W,
    At i f.next (reading i) none B W C s ∧ Scanning n W₀ W B C f ∧ f.i + k = W.length)
    (Scanned n i W₀ B C) := by
  induction k with
  | zero =>
    rintro s ⟨f, W, h, hf, hn⟩
    rw [Scan.next, hf.slice, h.len, if_neg (by omega)] at h
    refine .here (.inr ⟨f.toCall, W, h, hf.taken, hf.needs, fun a ha => ?_⟩)
    obtain ⟨j, hj, hvisit⟩ := Search.exists_visit f.startWord (show a / 32 < W.length by omega)
    rw [bitAt, ← hvisit, hf.visited j (by omega), Option.getD_some, BitVec.getLsbD_allOnes]
    exact decide_eq_true (Nat.mod_lt _ (by norm_num))
  | succ k ih =>
    rintro s ⟨f, W, h, hf, hn⟩
    rw [Scan.next, hf.slice, h.len, if_pos ⟨by omega, hf.needs⟩] at h
    refine (word_ends h hf (by omega)).trans fun t ht => ?_
    rcases ht with hdone | ⟨f', W', h', hf', hi, hlen⟩
    · exact .here hdone
    · exact ih t ⟨f', W', h', hf', by omega⟩

theorem finish_ends (f : Scan) : Leads i
    (At i (.storePos f) (reading i) none B W C)
    (At i (.returned f.count (.ok f.allocated)) .unlocked none B W C) := by
  have hstore : Leads i (At i (.storePos f) (reading i) none B W C)
      (At i (.finish f.toCall) (reading i) none B W C) := fun s h =>
    inevitable_of_alloc h.pc rfl { h.goto (.finish f.toCall) with }
  refine hstore.trans fun s h => inevitable_of_alloc h.pc rfl ?_
  exact { h.goto (.returned f.count (.ok f.allocated)) with mu := by rw [h.mu, runlock_reading] }

/-! ## Growth -/

theorem runlock_ends (c : Call) : Leads i
    (At i (.runlock c) (reading i) none B W C)
    (At i (.chunkCount (.alloc c)) .unlocked none B W C) := fun s h =>
  inevitable_of_alloc h.pc rfl
    { h.goto (.chunkCount (.alloc c)) with mu := by rw [h.mu, runlock_reading] }

/-- A chunk is appended, and the next round starts. -/
theorem append_ends (c : Call) (hlt : C.length < MaxChunks) : Leads i
    (At i (.chunkCount (.alloc c)) .unlocked none B W C) (fun t => ∃ B' chunk,
      At i (.rlock c) .unlocked none B' (W ++ List.replicate (BlocksPerChunk / 32) 0) (C ++ [chunk])
        t) := by
  have hcount : Leads i (At i (.chunkCount (.alloc c)) .unlocked none B W C)
      (At i (.muxLock (.alloc c) C.length) .unlocked none B W C) := fun s h =>
    inevitable_of_append h.pc rfl fun _ _ => by
      refine ⟨_, ?_, h.goto _⟩
      rw [State.stepAppend, h.count, if_neg (by omega)]
  have hmux : Leads i
      (At i (.muxLock (.alloc c) C.length) .unlocked none B W C)
      (At i (.recheck (.alloc c) C.length) .unlocked (some i) B W C) := fun s h =>
    inevitable_of_append h.pc rfl fun _ _ =>
      ⟨_, if_pos h.mux, { h.goto (.recheck (.alloc c) C.length) with mux := rfl }⟩
  have hrecheck : Leads i
      (At i (.recheck (.alloc c) C.length) .unlocked (some i) B W C)
      (At i (.newChunk (.alloc c) C.length) .unlocked (some i) B W C) := fun s h =>
    inevitable_of_append h.pc rfl fun _ _ =>
      ⟨_, if_neg (not_not.2 h.count.symm), h.goto _⟩
  have hnew : Leads i
      (At i (.newChunk (.alloc c) C.length) .unlocked (some i) B W C)
      (At i (.lock (.alloc c) ⟨C.length⟩) .unlocked (some i) B W C) := fun s h =>
    inevitable_of_append h.pc rfl fun choice hchoice =>
      ⟨_, if_pos (hchoice _ _ rfl), h.goto _⟩
  have hlock : Leads i
      (At i (.lock (.alloc c) ⟨C.length⟩) .unlocked (some i) B W C)
      (At i (.lockWait (.alloc c) ⟨C.length⟩) (RWMutex.unlocked.announce i) (some i) B W C) :=
    fun s h => inevitable_of_append h.pc rfl fun _ _ =>
      ⟨_, if_pos (by rw [h.mu]; rfl),
        { h.goto (.lockWait (.alloc c) ⟨C.length⟩) with mu := by rw [h.mu] }⟩
  have hwait : Leads i
      (At i (.lockWait (.alloc c) ⟨C.length⟩) (RWMutex.unlocked.announce i) (some i) B W C)
      (At i (.grow (.alloc c) ⟨C.length⟩) (RWMutex.unlocked.announce i) (some i) B W C) :=
    fun s h => inevitable_of_append h.pc rfl fun _ _ =>
      ⟨_, if_pos (by rw [h.mu]; rfl), h.goto _⟩
  have hgrow : Leads i
      (At i (.grow (.alloc c) ⟨C.length⟩) (RWMutex.unlocked.announce i) (some i) B W C)
      (fun t => ∃ B', At i (.callback (.alloc c) ⟨C.length⟩) (RWMutex.unlocked.announce i) (some i) B'
        (W ++ List.replicate (BlocksPerChunk / 32) 0) (C ++ [⟨C.length⟩]) t) := fun s h =>
    inevitable_of_append h.pc rfl fun choice _ => by
      obtain ⟨B', h'⟩ := h.appendChunk hlt ⟨C.length⟩ choice
      exact ⟨_, rfl, B', h'.goto _⟩
  refine ((((((hcount.trans hmux).trans hrecheck).trans hnew).trans hlock).trans hwait).trans
    hgrow).trans ?_
  rintro s ⟨B', h⟩
  generalize W ++ List.replicate (BlocksPerChunk / 32) 0 = W' at h ⊢
  generalize hC' : C ++ [⟨C.length⟩] = C' at h
  have hcallback : Leads i
      (At i (.callback (.alloc c) ⟨C.length⟩) (RWMutex.unlocked.announce i) (some i) B' W' C')
      (At i (.unlock (.alloc c)) (RWMutex.unlocked.announce i) (some i) B' W' C') := fun s h =>
    inevitable_of_append h.pc rfl fun _ _ => ⟨_, rfl, h.goto _⟩
  have hunlock : Leads i
      (At i (.unlock (.alloc c)) (RWMutex.unlocked.announce i) (some i) B' W' C')
      (At i (.muxUnlock (.alloc c) none) .unlocked (some i) B' W' C') := fun s h =>
    inevitable_of_append h.pc rfl fun _ _ => ⟨_, rfl,
      { h.goto (.muxUnlock (.alloc c) none) with mu := by rw [h.mu, unlock_announce] }⟩
  refine (hcallback.trans hunlock s h).trans fun t h => ?_
  refine inevitable_of_append h.pc rfl fun _ _ => ⟨_, rfl, B', ⟨C.length⟩, ?_⟩
  rw [hC']
  exact { h.goto (.rlock c) with mux := rfl }

/-! ## Giving back -/

theorem full_ends (c : Call) (hmax : MaxChunks ≤ C.length) :
    Leads i (At i (.chunkCount (.alloc c)) .unlocked none B W C)
      (At i (undo c.count (.full C.length) c.allocated) .unlocked none B W C) := fun s h =>
  inevitable_of_append h.pc rfl fun _ _ => by
    refine ⟨_, ?_, h.goto _⟩
    rw [State.stepAppend, h.count, if_pos hmax]
    rfl

theorem free_ends {b : Block} (hb : b.Mapped C) (count : ℕ) (err : Err) (rest : List Block) :
    Leads i (At i (.freeRLock b.chunkID b.blockIdx (.alloc count err b rest)) .unlocked none B W C)
      (fun t => ∃ W', At i (undo count err rest) .unlocked none B W' C t ∧
        ∀ a, bitAt W' a = true ↔ bitAt W a = true ∧ a ≠ b.address) := by
  set u : Freer := .alloc count err b rest with hu
  have hrlock : Leads i (At i (.freeRLock b.chunkID b.blockIdx u) .unlocked none B W C)
      (At i (.freeRWait b.chunkID b.blockIdx u) (reading i) none B W C) := fun s h =>
    inevitable_of_free h.pc rfl (fun _ => rfl) rfl
      { h.goto (.freeRWait b.chunkID b.blockIdx u) with mu := by rw [h.mu] }
  have hrwait : Leads i (At i (.freeRWait b.chunkID b.blockIdx u) (reading i) none B W C)
      (At i (.freeStart b.chunkID b.blockIdx u) (reading i) none B W C) := fun s h =>
    inevitable_of_free h.pc rfl (fun _ => rfl)
      (if_pos (by rw [h.mu]; exact Finset.mem_insert_self _ _)) (h.goto _)
  have hstart : Leads i (At i (.freeStart b.chunkID b.blockIdx u) (reading i) none B W C)
      (At i (.freeLoad b.chunkID b.blockIdx u B) (reading i) none B W C) := fun s h => by
    have haddr := hb.address_lt
    have hsize := h.size
    simp only [BlocksPerChunk] at haddr
    refine inevitable_of_free h.pc rfl (fun _ => rfl) ?_ (h.goto _)
    simp only [State.stepFree, hb.address_eq, wordIdxOf_natCast, h.bitmap, h.len]
    rw [if_neg (by omega), if_neg (by omega)]
  have hload : Leads i (At i (.freeLoad b.chunkID b.blockIdx u B) (reading i) none B W C)
      (At i (.freeCas b.chunkID b.blockIdx u B ((W[b.address / 32]?).getD 0)) (reading i) none B W
        C) := fun s h => by
    refine inevitable_of_free h.pc rfl (fun _ => rfl) ?_ (h.goto _)
    simp only [State.stepFree, hb.address_eq, wordIdxOf_natCast, Int.toNat_natCast, State.word,
      h.words]
  have hcas : Leads i
      (At i (.freeCas b.chunkID b.blockIdx u B ((W[b.address / 32]?).getD 0)) (reading i) none B W C)
      (At i (.freeRUnlock u) (reading i) none B (W.set (b.address / 32)
        ((W[b.address / 32]?).getD 0 &&& ~~~(1#32 <<< (b.address % 32)))) C) := fun s h => by
    have hstore := h.storeWord (b.address / 32)
      ((W[b.address / 32]?).getD 0 &&& ~~~(1#32 <<< (b.address % 32)))
    refine inevitable_of_free h.pc rfl (fun _ => rfl) ?_
      ((hstore.release b.chunkID b.blockIdx u).goto _)
    simp only [State.stepFree, hb.address_eq, wordIdxOf_natCast, Int.toNat_natCast, freeMask_natCast,
      State.word, h.words, if_true]
  refine ((((hrlock.trans hrwait).trans hstart).trans hload).trans hcas).trans fun s h => ?_
  refine inevitable_of_free h.pc rfl (fun _ => rfl) rfl
    ⟨_, { h.goto (undo count err rest) with mu := by rw [h.mu, runlock_reading] }, fun a => ?_⟩
  have hlt : b.address / 32 < W.length := by
    have haddr := hb.address_lt
    have hsize := h.size
    rw [List.length_set] at hsize
    simp only [BlocksPerChunk] at haddr
    omega
  have hget : W[b.address / 32]? = some ((W[b.address / 32]?).getD 0) := by
    rw [List.getElem?_eq_getElem hlt, Option.getD_some]
  exact bitAt_free hget

theorem undo_ends (count : ℕ) (err : Err) (blocks : List Block) :
    Leads i (fun s => ∃ W, At i (undo count err blocks) .unlocked none B W C s ∧
        Marked W₀ W C blocks)
      (fun t => ∃ W', At i (.returned count (.error err)) .unlocked none B W' C t ∧
        ∀ a, bitAt W' a = bitAt W₀ a) := by
  induction blocks with
  | nil =>
    rintro s ⟨W, h, hmarked⟩
    refine .here ⟨W, h, fun a => Bool.eq_iff_iff.2 ?_⟩
    rw [hmarked.bits, List.map_nil]
    exact or_iff_left List.not_mem_nil
  | cons b rest ih =>
    rintro s ⟨W, h, hmarked⟩
    have hnodup := hmarked.nodup
    have hclear := hmarked.clear
    have hbits := hmarked.bits
    rw [List.map_cons] at hnodup hclear hbits
    refine (free_ends (hmarked.mapped b List.mem_cons_self) count err rest s h).trans ?_
    rintro t ⟨W', h', hfree⟩
    refine ih t ⟨W', h', fun x hx => hmarked.mapped x (List.mem_cons_of_mem _ hx),
      (List.nodup_cons.1 hnodup).2, fun a ha => hclear a (List.mem_cons_of_mem _ ha), fun a => ?_⟩
    rw [hfree, hbits, List.mem_cons]
    constructor
    · rintro ⟨hset | rfl | hin, hne⟩
      · exact .inl hset
      · exact absurd rfl hne
      · exact .inr hin
    · rintro (hset | hin)
      · refine ⟨.inl hset, ?_⟩
        rintro rfl
        rw [hclear _ List.mem_cons_self] at hset
        cases hset
      · refine ⟨.inr (.inr hin), ?_⟩
        rintro rfl
        exact (List.nodup_cons.1 hnodup).1 hin

/-! ## Counting -/

/-- The number of clear bits of a bitmap. -/
def clearBits (W : List Word) : ℕ :=
  ((Finset.range (32 * W.length)).filter fun a => bitAt W a = false).card

/-- In a bitmap of `n` words that starts with `W₀`, there are the clear bits of `W₀` and the bits of
the other words. -/
theorem card_clear {n : ℕ} (hn : W₀.length ≤ n) :
    ((Finset.range (32 * n)).filter fun a => bitAt W₀ a = false).card =
      clearBits W₀ + 32 * (n - W₀.length) := by
  have hbeyond : ∀ a, 32 * W₀.length ≤ a → bitAt W₀ a = false := by
    intro a ha
    rw [← Bool.not_eq_true]
    exact fun hset => absurd (bitAt_lt hset) (not_lt.2 ha)
  have hsplit : (Finset.range (32 * n)).filter (fun a => bitAt W₀ a = false) =
      (Finset.range (32 * W₀.length)).filter (fun a => bitAt W₀ a = false) ∪
        Finset.Ico (32 * W₀.length) (32 * n) := by
    ext a
    simp only [Finset.mem_filter, Finset.mem_union, Finset.mem_range, Finset.mem_Ico]
    constructor
    · rintro ⟨hlt, hclear⟩
      rcases lt_or_ge a (32 * W₀.length) with h | h
      · exact .inl ⟨h, hclear⟩
      · exact .inr ⟨h, hlt⟩
    · rintro (⟨hlt, hclear⟩ | ⟨hge, hlt⟩)
      · exact ⟨by omega, hclear⟩
      · exact ⟨hlt, hbeyond a hge⟩
  have hdisjoint : Disjoint ((Finset.range (32 * W₀.length)).filter fun a => bitAt W₀ a = false)
      (Finset.Ico (32 * W₀.length) (32 * n)) := by
    refine Finset.disjoint_left.2 fun a ha hb => ?_
    have hlt := Finset.mem_range.1 (Finset.mem_filter.1 ha).1
    have hge := (Finset.mem_Ico.1 hb).1
    omega
  rw [hsplit, Finset.card_union_of_disjoint hdisjoint, Nat.card_Ico, clearBits]
  omega

/-- Collected blocks are clear bits of the bitmap that was found, and all of them if no bit of the
bitmap is clear any more. -/
theorem Marked.length_le {blocks : List Block} (h : Marked W₀ W C blocks)
    (hsize : W.length = 32 * C.length) (hle : W₀.length ≤ W.length) :
    blocks.length ≤ clearBits W₀ + 32 * (W.length - W₀.length) ∧
      ((∀ a < 32 * W.length, bitAt W a = true) →
        blocks.length = clearBits W₀ + 32 * (W.length - W₀.length)) := by
  have hcard : (blocks.map Block.address).toFinset.card = blocks.length := by
    rw [List.toFinset_card_of_nodup h.nodup, List.length_map]
  have hsub : (blocks.map Block.address).toFinset ⊆
      (Finset.range (32 * W.length)).filter fun a => bitAt W₀ a = false := by
    intro a ha
    have ha := List.mem_toFinset.1 ha
    refine Finset.mem_filter.2 ⟨Finset.mem_range.2 ?_, h.clear a ha⟩
    obtain ⟨b, hb, rfl⟩ := List.mem_map.1 ha
    have haddr := (h.mapped b hb).address_lt
    simp only [BlocksPerChunk] at haddr
    omega
  rw [← card_clear hle, ← hcard]
  refine ⟨Finset.card_le_card hsub, fun hfull => congrArg _ (hsub.antisymm fun a ha => ?_)⟩
  obtain ⟨hlt, hclear⟩ := Finset.mem_filter.1 ha
  rcases (h.bits a).1 (hfull a (Finset.mem_range.1 hlt)) with hset | hin
  · rw [hclear] at hset
    cases hset
  · exact List.mem_toFinset.2 hin

/-! ## The call -/

/-- The blocks there are: those that are clear, and those of the chunks to come. -/
def available (W₀ : List Word) (chunkCount : ℕ) : ℕ :=
  clearBits W₀ + BlocksPerChunk * (MaxChunks - chunkCount)

/-- `AllocBlocks(count)` has returned, having found the bitmap `W₀` of `n₀` chunks: it succeeds if and
only if there are enough blocks, it has then marked the blocks that it returns and nothing else, and
otherwise the bitmap is as before and clear in what has been added. -/
def Returned (i : ι) (W₀ : List Word) (n₀ count : ℕ) (t : State ι) : Prop :=
  ∃ result, t.pc i = .returned count result ∧
    ((∃ blocks, result = .ok blocks) ↔ count ≤ available W₀ n₀) ∧
    match result with
    | .ok blocks => blocks.length = count ∧ Marked W₀ t.words t.chunks blocks
    | .error _ => ∀ a, bitAt t.words a = bitAt W₀ a

/-- One round: the call returns its blocks, or all bits are set and it goes on to
`tryAppendChunk`. -/
theorem round_ends {n₀ : ℕ} (hn₀ : W₀.length = 32 * n₀) (hle : n₀ ≤ C.length) (c : Call)
    (htaken : Taken n W₀ W C c) (hneeds : 0 < c.remaining) :
    Leads i (At i (.rlock c) .unlocked none B W C) (fun t => Returned i W₀ n₀ n t ∨ ∃ c W,
      At i (.chunkCount (.alloc c)) .unlocked none B W C t ∧ Taken n W₀ W C c ∧ 0 < c.remaining ∧
        c.allocated.length = clearBits W₀ + BlocksPerChunk * (C.length - n₀)) := by
  intro s h
  refine (round_starts c s h).trans ?_
  rintro s ⟨f, hf, rfl, hslice, hsnap, hi⟩
  have hscan : Scanning n W₀ W B C f :=
    ⟨hslice, hsnap, htaken, hneeds, fun j hj => absurd hj (by omega)⟩
  refine (scan_ends W.length s ⟨f, W, hf, hscan, by omega⟩).trans ?_
  rintro s (⟨f, W, h, htaken, hzero⟩ | ⟨c, W, h, htaken, hneeds, hfull⟩)
  · refine (finish_ends f s h).trans fun t h =>
      .here (.inl ⟨.ok f.allocated, htaken.count ▸ h.pc, iff_of_true ⟨_, rfl⟩ ?_, ?_⟩)
    · have hlen := htaken.length
      have hmarked := (htaken.length_le h.size (by rw [h.size]; omega)).1
      have hsize := h.size
      have hmax := h.max
      simp only [available, BlocksPerChunk]
      omega
    · rw [h.words_eq, h.chunks]
      exact ⟨by rw [← htaken.length, hzero, Nat.add_zero], htaken.toMarked⟩
  · refine (runlock_ends c s h).trans fun t h' => .here (.inr ⟨c, W, h', htaken, hneeds, ?_⟩)
    have hsize := h.size
    rw [(htaken.length_le hsize (by omega)).2 hfull, hsize, hn₀]
    simp only [BlocksPerChunk]
    omega

theorem rounds_end {n₀ : ℕ} (hn₀ : W₀.length = 32 * n₀) (k : ℕ) :
    Leads i (fun s => ∃ B W C c, At i (.rlock c) .unlocked none B W C s ∧ Taken n W₀ W C c ∧
        0 < c.remaining ∧ n₀ ≤ C.length ∧ C.length + k = MaxChunks)
      (Returned i W₀ n₀ n) := by
  induction k with
  | zero =>
    rintro s ⟨B, W, C, c, h, htaken, hneeds, hle, hmax⟩
    refine (round_ends hn₀ hle c htaken hneeds s h).trans ?_
    rintro s (hdone | ⟨c, W, h, htaken, hneeds, hall⟩)
    · exact .here hdone
    refine (full_ends c (by omega) s h).trans fun s h => ?_
    refine (undo_ends _ _ _ s ⟨W, h, htaken.toMarked⟩).trans ?_
    rintro t ⟨W', h, hbits⟩
    refine .here ⟨_, htaken.count ▸ h.pc, iff_of_false (fun ⟨_, hok⟩ => nomatch hok) ?_, ?_⟩
    · have hlen := htaken.length
      simp only [available, BlocksPerChunk] at hall ⊢
      omega
    · rw [h.words_eq]
      exact hbits
  | succ k ih =>
    rintro s ⟨B, W, C, c, h, htaken, hneeds, hle, hmax⟩
    refine (round_ends hn₀ hle c htaken hneeds s h).trans ?_
    rintro s (hdone | ⟨c, W, h, htaken, hneeds, -⟩)
    · exact .here hdone
    refine (append_ends c (by omega) s h).trans ?_
    rintro t ⟨B', chunk, h⟩
    refine ih t ⟨B', _, _, c, h, ?_, hneeds, ?_, ?_⟩
    · exact
        { htaken with
          mapped := fun b hb => (htaken.mapped b hb).append chunk
          bits := fun a => by rw [bitAt_append_zero]; exact htaken.bits a }
    · rw [List.length_append]
      exact Nat.le_add_right_of_le hle
    · rw [List.length_append, List.length_singleton]
      omega

/-- No lock is held, and bitmap and chunks fit together. -/
structure Resting (s : State ι) : Prop where
  mu : s.mu = .unlocked
  mux : s.tryAppendChunkMux = none
  words : (s.arrays s.bitmap.arr).length = s.bitmap.len
  len : s.bitmap.len = 32 * s.chunkCount
  chunks : s.chunks.length = s.chunkCount
  pos : 1 ≤ s.chunkCount
  max : s.chunkCount ≤ MaxChunks

/-- A call on a bus at rest comes to its return. -/
theorem Resting.returns (hrest : Resting s) (i : ι) {count : ℕ} (hcount : 1 ≤ count) :
    (bus ι).Inevitable (Sequential i) (Returned i s.words s.chunkCount count)
      (s.goto i (.rlock ⟨count, [], count⟩)) := by
  have hwords : s.words = s.arrays s.bitmap.arr := by
    rw [State.words, ← hrest.words, List.take_length]
  have hlen : s.words.length = 32 * s.chunkCount := by rw [hwords, hrest.words, hrest.len]
  have hat : At i (.rlock ⟨count, [], count⟩) .unlocked none s.bitmap s.words s.chunks
      (s.goto i (.rlock ⟨count, [], count⟩)) :=
    ⟨Function.update_self .., hrest.mu, hrest.mux, rfl, hwords.symm, by rw [hlen, hrest.len], rfl,
      hrest.chunks.symm, by rw [hlen, hrest.chunks], hrest.chunks ▸ hrest.pos,
      hrest.chunks ▸ hrest.max⟩
  have htaken : Taken count s.words s.words s.chunks ⟨count, [], count⟩ :=
    ⟨⟨by simp, by simp, by simp, by simp⟩, rfl, Nat.zero_add _⟩
  refine rounds_end hlen (MaxChunks - s.chunkCount) _
    ⟨s.bitmap, s.words, s.chunks, _, hat, htaken, hcount, hrest.chunks.ge, ?_⟩
  rw [hrest.chunks]
  exact Nat.add_sub_cancel' hrest.max

omit [DecidableEq ι] in
theorem Resting.available_le (hrest : Resting s) :
    available s.words s.chunkCount ≤ BlocksPerChunk * MaxChunks := by
  have hclear : clearBits s.words ≤ 32 * s.words.length :=
    (Finset.card_filter_le _ _).trans (Finset.card_range _).le
  have hlen : s.words.length = 32 * s.chunkCount := by
    rw [State.words, ← hrest.words, List.take_length, hrest.words, hrest.len]
  have hmax := hrest.max
  simp only [available, BlocksPerChunk, MaxChunks] at hmax ⊢
  omega

theorem step_callAlloc {count : ℕ} (hquiet : (s.pc i).Quiet = true)
    (hmake : count ≤ s.makeLimit.blocks) :
    (bus ι).step s (.callAlloc i count) = some (s.goto i (.rlock ⟨count, [], count⟩)) := by
  have hcan : CanMake s.makeLimit count := ⟨Int.natCast_nonneg count, Int.ofNat_le.2 hmake⟩
  simp only [bus, step, if_pos hquiet, if_pos hcan]

theorem step_callAlloc_makeFailed {count : ℕ} (hquiet : (s.pc i).Quiet = true)
    (hmake : s.makeLimit.blocks < count) :
    (bus ι).step s (.callAlloc i count) = some (s.goto i (.makeFailed count)) := by
  have hcan : ¬ CanMake s.makeLimit count := fun hcan => hmake.not_ge (Int.ofNat_le.1 hcan.2)
  simp only [bus, step, if_pos hquiet, if_neg hcan]

/-- A thread whose `make` was not served does nothing any more. -/
theorem not_returns_of_makeFailed {W : List Word} {n count k : ℕ} (hpc : s.pc i = .makeFailed k) :
    ¬ (bus ι).Inevitable (Sequential i) (Returned i W n count) s := by
  intro h
  cases h with
  | here hret =>
    obtain ⟨result, hres, -⟩ := hret
    rw [hpc] at hres
    cases hres
  | step hsome _ =>
    obtain ⟨a, t, ⟨choice, rfl, -⟩, hs⟩ := hsome
    simp only [bus, step, hpc, State.stepAlloc, State.stepAppend, State.stepFree] at hs
    cases hs

/-- For every bitmap, search position and number of chunks, and a call `AllocBlocks(count)` of at least
one block while no other thread acts and with `NewChunk` succeeding: the call comes to its return, which
is as `Returned` says, if and only if `make` can serve `count` records. -/
theorem alloc_complete_iff (s : State ι) (i : ι) (count : ℕ) (hcount : 1 ≤ count)
    (hquiet : (s.pc i).Quiet = true) (hrest : Resting s) :
    (∃ t, (bus ι).step s (.callAlloc i count) = some t ∧
      (bus ι).Inevitable (Sequential i) (Returned i s.words s.chunkCount count) t) ↔
    count ≤ s.makeLimit.blocks := by
  constructor
  · rintro ⟨t, ht, hret⟩
    by_contra hmake
    rw [step_callAlloc_makeFailed hquiet (not_le.1 hmake), Option.some.injEq] at ht
    subst ht
    exact not_returns_of_makeFailed (Function.update_self ..) hret
  · exact fun hmake => ⟨_, step_callAlloc hquiet hmake, hrest.returns i hcount⟩

omit [DecidableEq ι] in
theorem resting_newBus (firstChunk : Chunk) (makeLimit : MakeLimit) :
    Resting (newBus firstChunk makeLimit : State ι) :=
  ⟨rfl, rfl, List.length_replicate .., rfl, rfl, le_rfl, show 1 ≤ MaxChunks by decide⟩

/-- A call on a new bus in a process that has little memory. -/
theorem alloc_complete_iff_newBus :
    ∃ t, (bus Unit).step (newBus ⟨0⟩ .least) (.callAlloc () 3) = some t ∧
      (bus Unit).Inevitable (Sequential ()) (Returned () (List.replicate 32 0) 1 3) t :=
  (alloc_complete_iff (newBus ⟨0⟩ .least) () 3 (by decide) rfl (resting_newBus ⟨0⟩ .least)).2
    (by decide)

/-- However much memory there is, a call for 2⁴³ + 1 blocks panics instead of reporting that there are
not so many. -/
theorem alloc_makeFailed :
    ∃ t, (bus Unit).step (newBus ⟨0⟩ .greatest) (.callAlloc () (2 ^ 43 + 1)) = some t ∧
      t.pc () = .makeFailed (2 ^ 43 + 1) ∧
      ¬ (bus Unit).Inevitable (Sequential ()) (Returned () (List.replicate 32 0) 1 (2 ^ 43 + 1)) t := by
  exact ⟨_, step_callAlloc_makeFailed rfl (show (2 ^ 48 / 32 : ℕ) < 2 ^ 43 + 1 by decide), rfl,
    not_returns_of_makeFailed rfl⟩

end Mmfg.Bus
