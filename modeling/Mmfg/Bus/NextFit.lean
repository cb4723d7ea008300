import Mmfg.Lib.Progress
import Mmfg.Bus.Complete

/-!
# Which blocks an allocation returns

`AllocBlocks` is a next-fit allocator.  When no other thread acts, it takes the clear bits of the
bitmap in a fixed order, that of `State.order`: word by word from the search position around to it
again, within a word from the lowest bit up, and then the blocks of the chunks that are appended.
It returns as many of them as it was asked for, and the next search begins behind the last word from
which it has taken a block (`alloc_next_fit`).

The invariant is that what the call has collected and what is clear, in this order, is the same list
at all times.
-/

namespace Mmfg.Bus

/-! ## The clear bits of a word -/

/-- The clear bits of a word, lowest first. -/
def clearOf (w : Word) : List ℕ := (List.range 32).filter fun k => !w.getLsbD k

theorem clearOf_allOnes : clearOf (BitVec.allOnes 32) = [] := by decide

theorem clearOf_zero : clearOf 0 = List.range 32 := by decide

/-- The lowest clear bit, and then those that are clear once it is set. -/
theorem clearOf_eq_cons {w : Word} (h : ~~~w ≠ 0) :
    clearOf w = (~~~w).ctz.toNat :: clearOf (w ||| (1#32 <<< (~~~w).ctz.toNat)) := by
  obtain ⟨hk, hbit⟩ := ctz_spec h
  have hlow : ∀ j < (~~~w).ctz.toNat, w.getLsbD j = true := by
    intro j hj
    have hj' := BitVec.getLsbD_false_of_lt_ctz hj
    rw [BitVec.getLsbD_not, decide_eq_true (show j < 32 by omega)] at hj'
    simpa using hj'
  generalize (~~~w).ctz.toNat = k at hk hbit hlow ⊢
  rw [BitVec.getLsbD_not, decide_eq_true hk] at hbit
  have hor : ∀ j, (w ||| (1#32 <<< k)).getLsbD j = (w.getLsbD j || decide (j = k)) := by
    intro j
    rw [BitVec.getLsbD_or, Bool.eq_iff_iff, Bool.or_eq_true, Bool.or_eq_true,
      getLsbD_one_shiftLeft hk, decide_eq_true_eq]
  have hsplit : List.range 32 = List.range k ++ k :: List.range' (k + 1) (31 - k) := by
    rw [List.range_eq_range', List.range_eq_range', ← List.range'_succ,
      show 31 - k + 1 = 32 - k by omega]
    have happend := @List.range'_append 0 k (32 - k) 1
    rw [Nat.zero_add, Nat.one_mul, show k + (32 - k) = 32 by omega] at happend
    exact happend.symm
  have hnil : ∀ v : Word, (∀ j < k, v.getLsbD j = true) →
      (List.range k).filter (fun j => !v.getLsbD j) = [] := by
    intro v hv
    refine List.filter_eq_nil_iff.2 fun j hj => ?_
    simp [hv j (List.mem_range.1 hj)]
  unfold clearOf
  rw [hsplit, List.filter_append, List.filter_append, hnil w hlow,
    hnil _ fun j hj => by rw [hor, hlow j hj]; rfl, List.filter_cons, List.filter_cons,
    if_pos (by simpa using hbit), if_neg (by simp [hor])]
  refine congrArg (k :: ·) (List.filter_congr fun j hj => ?_)
  have hne : ¬ j = k := by
    have := List.mem_range'_1.1 hj
    omega
  rw [hor, decide_eq_false hne, Bool.or_false]

theorem findBits_eq (remaining rounds : ℕ) (w : Word) (found : List ℕ)
    (h : (clearOf w).length ≤ rounds) :
    (findBits remaining rounds (~~~w) w found).2 =
        found ++ (clearOf w).take (remaining - found.length) ∧
      clearOf (findBits remaining rounds (~~~w) w found).1 =
        (clearOf w).drop (remaining - found.length) := by
  induction rounds generalizing w found with
  | zero =>
    have hnil : clearOf w = [] := List.length_eq_zero_iff.1 (Nat.le_zero.1 h)
    simp [findBits, hnil]
  | succ rounds ih =>
    unfold findBits
    split_ifs with hc
    · obtain ⟨hne, hlt⟩ := hc
      have hcons := clearOf_eq_cons hne
      have htemp : ~~~w &&& ~~~(1#32 <<< (~~~w).ctz.toNat) =
          ~~~(w ||| (1#32 <<< (~~~w).ctz.toNat)) := by
        rw [BitVec.not_or]
      rw [hcons, List.length_cons] at h
      dsimp only
      rw [htemp]
      obtain ⟨hfound, hrest⟩ := ih (w ||| (1#32 <<< (~~~w).ctz.toNat)) (found ++ [(~~~w).ctz.toNat])
        (by omega)
      have hsub : remaining - found.length =
          remaining - (found ++ [(~~~w).ctz.toNat]).length + 1 := by
        rw [List.length_append, List.length_singleton]
        omega
      rw [hfound, hrest, hcons, hsub, List.take_succ_cons, List.drop_succ_cons, List.append_assoc]
      exact ⟨rfl, rfl⟩
    · by_cases hzero : ~~~w = 0
      · have hones : w = BitVec.allOnes 32 := by
          rw [← BitVec.not_not (b := w), hzero]
          rfl
        rw [hones, clearOf_allOnes]
        simp
      · have hle : remaining - found.length = 0 := by
          have : ¬ found.length < remaining := fun hlt => hc ⟨hzero, hlt⟩
          omega
        rw [hle, List.take_zero, List.drop_zero, List.append_nil]
        exact ⟨rfl, rfl⟩

/-- What the search finds and what it leaves are the clear bits in their order. -/
theorem findBits_append (remaining : ℕ) (old : Word) :
    (findBits remaining 32 (~~~old) old []).2 ++
      clearOf (findBits remaining 32 (~~~old) old []).1 = clearOf old := by
  have hlen : (clearOf old).length ≤ 32 := (List.length_filter_le ..).trans_eq List.length_range
  obtain ⟨hfound, hrest⟩ := findBits_eq remaining 32 old [] hlen
  rw [hfound, hrest, List.nil_append, List.take_append_drop]

/-! ## The clear bits of a bitmap -/

/-- The clear bits of word `w`, as addresses of blocks. -/
def clearAt (W : List Word) (w : ℕ) : List ℕ := (clearOf ((W[w]?).getD 0)).map (w * 32 + ·)

/-- The addresses of the clear bits in the order of a search that begins at word `start`. -/
def freeFrom (W : List Word) (start : ℕ) : List ℕ :=
  (List.range W.length).flatMap fun j => clearAt W ((start + j) % W.length)

variable {W : List Word} {start i : ℕ} {old newVal : Word} {found : List ℕ}

theorem clearAt_full {w : ℕ} (h : W[w]? = some (BitVec.allOnes 32)) : clearAt W w = [] := by
  rw [clearAt, h, Option.getD_some, clearOf_allOnes, List.map_nil]

/-- A search that has found the words before the `i`-th full takes what is clear there first. -/
theorem freeFrom_take (hi : i < W.length)
    (hvisited : ∀ j < i, W[(start + j) % W.length]? = some (BitVec.allOnes 32))
    (hget : W[(start + i) % W.length]? = some old) (hsplit : found ++ clearOf newVal = clearOf old) :
    freeFrom W start = found.map ((start + i) % W.length * 32 + ·) ++
      freeFrom (W.set ((start + i) % W.length) newVal) start := by
  set w := (start + i) % W.length with hw
  have hne : ∀ j < W.length, j ≠ i → (start + j) % W.length ≠ w := by
    intro j hj hji he
    exact hji (Nat.ModEq.eq_of_lt_of_lt (Nat.ModEq.add_left_cancel' start he) hj hi)
  have hother : ∀ j < W.length, j ≠ i →
      clearAt (W.set w newVal) ((start + j) % W.length) = clearAt W ((start + j) % W.length) := by
    intro j hj hji
    rw [clearAt, clearAt, List.getElem?_set_ne (hne j hj hji).symm]
  have hat : clearAt W w = found.map (w * 32 + ·) ++ clearAt (W.set w newVal) w := by
    have hlt : w < W.length := (List.getElem?_eq_some_iff.1 hget).1
    rw [clearAt, clearAt, hget, List.getElem?_set_self hlt, Option.getD_some, Option.getD_some,
      ← hsplit, List.map_append]
  have hrange : List.range W.length = List.range i ++ i :: List.range' (i + 1) (W.length - 1 - i) := by
    rw [List.range_eq_range', List.range_eq_range', ← List.range'_succ,
      show W.length - 1 - i + 1 = W.length - i by omega]
    have happend := @List.range'_append 0 i (W.length - i) 1
    rw [Nat.zero_add, Nat.one_mul, show i + (W.length - i) = W.length by omega] at happend
    exact happend.symm
  have hnil : ∀ V : List Word, (∀ j < i, clearAt V ((start + j) % W.length) = []) →
      (List.range i).flatMap (fun j => clearAt V ((start + j) % W.length)) = [] := by
    intro V hV
    exact List.flatMap_eq_nil_iff.2 fun j hj => hV j (List.mem_range.1 hj)
  have hbefore : ∀ j < i, clearAt W ((start + j) % W.length) = [] :=
    fun j hj => clearAt_full (hvisited j hj)
  unfold freeFrom
  rw [List.length_set, hrange, List.flatMap_append, List.flatMap_append, hnil W hbefore,
    hnil (W.set w newVal) fun j hj => (hother j (by omega) (by omega)).trans (hbefore j hj),
    List.flatMap_cons, List.flatMap_cons, ← hw, hat, List.nil_append, List.nil_append,
    List.append_assoc]
  refine congrArg _ (congrArg _ (List.flatMap_congr fun j hj => ?_))
  have hj := List.mem_range'_1.1 hj
  exact (hother j (by omega) (by omega)).symm

theorem freeFrom_full (h : ∀ w < W.length, W[w]? = some (BitVec.allOnes 32)) (start : ℕ) :
    freeFrom W start = [] := by
  refine List.flatMap_eq_nil_iff.2 fun j hj => clearAt_full (h _ (Nat.mod_lt _ ?_))
  have := List.mem_range.1 hj
  omega

theorem flatMap_range' (a n : ℕ) :
    (List.range n).flatMap (fun k => List.range' (32 * (a + k)) 32) =
      List.range' (32 * a) (32 * n) := by
  induction n with
  | zero => rfl
  | succ n ih =>
    have happend := @List.range'_append (32 * a) (32 * n) 32 1
    rw [Nat.one_mul, ← Nat.mul_add, ← Nat.mul_succ] at happend
    rw [List.range_succ, List.flatMap_append, ih, List.flatMap_singleton, happend]

/-- Behind a full bitmap all bits of the new words are clear, and they come in order. -/
theorem freeFrom_append (h : ∀ w < W.length, W[w]? = some (BitVec.allOnes 32))
    (hstart : start < W.length) (n : ℕ) :
    freeFrom (W ++ List.replicate n 0) start = List.range' (32 * W.length) (32 * n) := by
  have hold : ∀ w < W.length, clearAt (W ++ List.replicate n 0) w = [] := by
    intro w hw
    refine clearAt_full ?_
    rw [List.getElem?_append_left hw]
    exact h w hw
  have hnew : ∀ k < n, clearAt (W ++ List.replicate n 0) (W.length + k) =
      List.range' (32 * (W.length + k)) 32 := by
    intro k hk
    rw [clearAt, List.getElem?_append_right (Nat.le_add_right ..), Nat.add_sub_cancel_left,
      List.getElem?_replicate_of_lt hk, Option.getD_some, clearOf_zero, Nat.mul_comm,
      List.range'_eq_map_range]
  -- the words from `start` to the end, the new words, and the words before `start`
  have hrange : List.range (W.length + n) = List.range (W.length - start) ++
      ((List.range n).map (W.length - start + ·) ++
        (List.range start).map (W.length - start + n + ·)) := by
    rw [← List.append_assoc, ← List.range_add, ← List.range_add]
    congr 1
    omega
  have hbefore : (List.range (W.length - start)).flatMap (fun j =>
      clearAt (W ++ List.replicate n 0) ((start + j) % (W.length + n))) = [] := by
    refine List.flatMap_eq_nil_iff.2 fun j hj => ?_
    have hj := List.mem_range.1 hj
    rw [Nat.mod_eq_of_lt (by omega)]
    exact hold _ (by omega)
  have hbehind : (List.range start).flatMap (fun j => clearAt (W ++ List.replicate n 0)
      ((start + (W.length - start + n + j)) % (W.length + n))) = [] := by
    refine List.flatMap_eq_nil_iff.2 fun j hj => ?_
    have hj := List.mem_range.1 hj
    rw [show start + (W.length - start + n + j) = W.length + n + j by omega, Nat.add_mod_left,
      Nat.mod_eq_of_lt (by omega)]
    exact hold j (by omega)
  unfold freeFrom
  rw [List.length_append, List.length_replicate, hrange, List.flatMap_append, List.flatMap_append,
    List.flatMap_map, List.flatMap_map, ← flatMap_range', hbefore, hbehind, List.nil_append,
    List.append_nil]
  refine List.flatMap_congr fun k hk => ?_
  have hk := List.mem_range.1 hk
  rw [← hnew k hk, Nat.mod_eq_of_lt (by omega)]
  congr 1
  omega

/-- The blocks in the order in which they are taken: those that are clear, and then those of the
chunks to come. -/
def searchOrder (W : List Word) (pos chunkCount : ℕ) : List ℕ :=
  freeFrom W pos ++ List.range' (32 * W.length) (BlocksPerChunk * (MaxChunks - chunkCount))

/-! ## The call -/

/-- What the order depends on. -/
structure View where
  words : List Word
  bitmap : Slice
  chunks : List Chunk
  chunkCount : ℕ
  lastSearchPos : ℕ

/-- The call that waits for `tryAppendChunk`, if there is one, satisfies `P`. -/
def Appender.All (P : Call → Prop) : Appender → Prop
  | .direct => True
  | .alloc c => P c

theorem Appender.All.imp {P Q : Call → Prop} {r : Appender} (h : r.All P) (hpq : ∀ c, P c → Q c) :
    r.All Q := by
  cases r with
  | direct => trivial
  | alloc c => exact hpq c h

namespace View

/-- Bitmap and chunks fit together, and the search position is in the bitmap. -/
structure Fits (v : View) : Prop where
  words : v.words.length = v.bitmap.len
  len : v.bitmap.len = 32 * v.chunkCount
  chunks : v.chunks.length = v.chunkCount
  max : v.chunkCount ≤ MaxChunks
  pos : v.lastSearchPos < v.bitmap.len

/-- Every bit of the bitmap is set. -/
def Full (v : View) : Prop := ∀ w < v.words.length, v.words[w]? = some (BitVec.allOnes 32)

/-- What the call has collected and what is still to be had make up `L`; it needs some more. -/
structure Ahead (v : View) (L : List ℕ) (c : Call) : Prop extends v.Fits where
  order : c.allocated.map Block.address ++ searchOrder v.words v.lastSearchPos v.chunkCount = L
  needs : 0 < c.remaining
  length : c.allocated.length + c.remaining = c.count

/-- The words that the scan has visited are full. -/
structure Visits (v : View) (f : Scan) : Prop where
  slice : f.bitmapSlice = v.bitmap
  snapshot : f.chunksSnapshot = v.chunks
  start : f.startWord = v.lastSearchPos
  visited : ∀ j < f.i, v.words[(f.startWord + j) % v.words.length]? = some (BitVec.allOnes 32)

/-- The blocks are the first `n` of `L`, and `w` is the word of the last of them. -/
structure Took (L : List ℕ) (n : ℕ) (blocks : List Block) (w : ℕ) : Prop where
  addresses : blocks.map Block.address = L.take n
  last : ∃ a, (L.take n).getLast? = some a ∧ a / 32 = w

/-- What holds at a program point of `AllocBlocks`. -/
def InOrder (v : View) (L : List ℕ) : PC → Prop
  | .rlock c | .rwait c | .snapshot c => v.Ahead L c
  | .position c bitmapSlice chunksSnapshot =>
    v.Ahead L c ∧ bitmapSlice = v.bitmap ∧ chunksSnapshot = v.chunks
  | .load f => v.Ahead L f.toCall ∧ v.Visits f ∧ f.i < v.words.length
  | .cas f old newVal foundBits =>
    v.Ahead L f.toCall ∧ v.Visits f ∧ f.i < v.words.length ∧
      findBits f.remaining 32 (~~~old) old [] = (newVal, foundBits) ∧ foundBits ≠ []
  | .storePos f =>
    v.Fits ∧ f.bitmapSlice = v.bitmap ∧ Took L f.count f.allocated f.wordIdx
  | .finish c => ∃ w, Took L c.count c.allocated w ∧ v.lastSearchPos = (w + 1) % v.bitmap.len
  | .returned n (.ok blocks) =>
    ∃ w, Took L n blocks w ∧ v.lastSearchPos = (w + 1) % v.bitmap.len
  | .runlock c => v.Ahead L c ∧ v.Full
  | .chunkCount r => r.All fun c => v.Ahead L c ∧ v.Full
  | .muxLock r _ | .recheck r _ | .newChunk r _ | .lock r _ | .lockWait r _ | .grow r _ =>
    r.All fun c => v.Ahead L c ∧ v.Full ∧ v.chunkCount < MaxChunks
  | .callback r _ | .unlock r | .muxUnlock r none => r.All (v.Ahead L)
  | _ => True

end View

variable {ι : Type}

/-- What a search sees of the state. -/
def State.view (s : State ι) : View :=
  ⟨s.arrays s.bitmap.arr, s.bitmap, s.chunks, s.chunkCount, s.lastSearchPos⟩

variable [DecidableEq ι] {s t : State ι} {p : ι} {pc : PC} {L : List ℕ} {v : View} {f : Scan}

theorem inOrder_goto (s : State ι) (p : ι) (pc : PC) (h : s.view.InOrder L pc) :
    (s.goto p pc).view.InOrder L ((s.goto p pc).pc p) := by
  change s.view.InOrder L (Function.update s.pc p pc p)
  rw [Function.update_self]
  exact h

theorem View.inOrder_next (h : v.Ahead L f.toCall) (hf : v.Visits f) (hi : f.i ≤ v.words.length) :
    v.InOrder L f.next := by
  unfold Scan.next
  rw [hf.slice, ← h.words]
  split_ifs with hnext
  · exact ⟨h, hf, hnext.1⟩
  · refine ⟨h, fun w hw => ?_⟩
    have hneeds := h.needs
    obtain ⟨j, hj, rfl⟩ := Search.exists_visit f.startWord hw
    exact hf.visited j (by omega)

theorem View.Visits.wordIdx_eq (hf : v.Visits f) (h : v.Fits) :
    f.wordIdx = (f.startWord + f.i) % v.words.length := by
  rw [Scan.wordIdx, hf.slice, ← h.words]

omit [DecidableEq ι] in
theorem State.getElem?_words (s : State ι) (hf : s.view.Visits f) (h : s.view.Fits)
    (hi : f.i < s.view.words.length) :
    s.view.words[f.wordIdx]? = some (s.word f.bitmapSlice f.wordIdx) := by
  have hlt : f.wordIdx < s.view.words.length := by
    rw [hf.wordIdx_eq h]
    exact Nat.mod_lt _ (by omega)
  rw [State.word, hf.slice]
  change _ = some ((s.view.words[f.wordIdx]?).getD 0)
  rw [List.getElem?_eq_getElem hlt, Option.getD_some]

theorem View.Visits.skip (hf : v.Visits f) (h : v.Fits)
    (hget : v.words[f.wordIdx]? = some (BitVec.allOnes 32)) : v.Visits { f with i := f.i + 1 } := by
  refine ⟨hf.slice, hf.snapshot, hf.start, fun j hj => ?_⟩
  rcases Nat.lt_succ_iff_lt_or_eq.1 hj with hj | rfl
  · exact hf.visited j hj
  · rw [← hf.wordIdx_eq h]
    exact hget

theorem View.take (h : v.Ahead L f.toCall) (hf : v.Visits f) (hi : f.i < v.words.length)
    (hget : v.words[f.wordIdx]? = some old)
    (hfind : findBits f.remaining 32 (~~~old) old [] = (newVal, found)) :
    (f.collect found).allocated.map Block.address =
        f.allocated.map Block.address ++ found.map (f.wordIdx * 32 + ·) ∧
      (f.collect found).allocated.map Block.address ++
        searchOrder (v.words.set f.wordIdx newVal) v.lastSearchPos v.chunkCount = L := by
  have hspec := (findBits_spec f.remaining old).1
  have hsplit := findBits_append f.remaining old
  rw [hfind] at hspec hsplit
  have hlt : f.wordIdx < v.words.length := (List.getElem?_eq_some_iff.1 hget).1
  have hwords := h.words
  have hlen := h.len
  have haddr : ∀ k ∈ found, (blockAt v.chunks (f.wordIdx * 32 + k)).address = f.wordIdx * 32 + k := by
    intro k hk
    have hk32 := (hspec.clear k hk).1
    refine (blockAt_mapped ?_ (h.chunks ▸ h.max)).2
    rw [h.chunks]
    simp only [BlocksPerChunk]
    omega
  have hnew : (f.collect found).allocated.map Block.address =
      f.allocated.map Block.address ++ found.map (f.wordIdx * 32 + ·) := by
    rw [Scan.collect, List.map_append, List.map_map, hf.snapshot]
    exact congrArg _ (List.map_congr_left haddr)
  refine ⟨hnew, ?_⟩
  have horder := h.order
  rw [hf.wordIdx_eq h.toFits] at hget
  have htake := freeFrom_take hi hf.visited hget hsplit
  rw [← hf.wordIdx_eq h.toFits, hf.start] at htake
  rw [searchOrder, htake, List.append_assoc] at horder
  rw [hnew, searchOrder, List.length_set, List.append_assoc]
  exact horder

theorem View.took_of_take (h : v.Ahead L f.toCall) (hf : v.Visits f) (hi : f.i < v.words.length)
    (hget : v.words[f.wordIdx]? = some old)
    (hfind : findBits f.remaining 32 (~~~old) old [] = (newVal, found)) (hne : found ≠ [])
    (hzero : (f.collect found).remaining = 0) :
    Took L f.count (f.collect found).allocated f.wordIdx := by
  obtain ⟨hnew, horder⟩ := v.take h hf hi hget hfind
  have hspec := (findBits_spec f.remaining old).1
  rw [hfind] at hspec
  have hle : found.length ≤ f.remaining := hspec.le
  have hlength := h.length
  have hcount : ((f.collect found).allocated.map Block.address).length = f.count := by
    rw [hnew, List.length_append, List.length_map, List.length_map]
    change f.remaining - found.length = 0 at hzero
    omega
  have haddresses : (f.collect found).allocated.map Block.address = L.take f.count := by
    rw [← horder, ← hcount, List.take_left]
  refine ⟨haddresses, ?_⟩
  obtain ⟨k, hk⟩ := Option.isSome_iff_exists.1 (List.getLast?_isSome.2 hne)
  have hk32 := (hspec.clear k (List.mem_of_getLast? hk)).1
  refine ⟨f.wordIdx * 32 + k, ?_, by omega⟩
  rw [← haddresses, hnew, List.getLast?_append, List.getLast?_map, hk]
  rfl

theorem View.inOrder_take (h : v.Ahead L f.toCall) (hf : v.Visits f) (hi : f.i < v.words.length)
    (hget : v.words[f.wordIdx]? = some old)
    (hfind : findBits f.remaining 32 (~~~old) old [] = (newVal, found))
    (hzero : (f.collect found).remaining ≠ 0) :
    ({ v with words := v.words.set f.wordIdx newVal } : View).InOrder L
      { f.collect found with i := (f.collect found).i + 1 }.next := by
  obtain ⟨hnew, horder⟩ := v.take h hf hi hget hfind
  obtain ⟨hspec, hall⟩ := findBits_spec f.remaining old
  rw [hfind] at hspec hall
  have hlt : f.wordIdx < v.words.length := (List.getElem?_eq_some_iff.1 hget).1
  have hlen : (v.words.set f.wordIdx newVal).length = v.words.length := List.length_set ..
  have hones : newVal = BitVec.allOnes 32 :=
    hall (Nat.lt_of_sub_ne_zero (show ¬ f.remaining - found.length = 0 from hzero))
  refine View.inOrder_next ⟨⟨hlen.trans h.words, h.len, h.chunks, h.max, h.pos⟩, horder,
    Nat.pos_of_ne_zero hzero, ?_⟩ ?_ ?_
  · have hlength : f.allocated.length + f.remaining = f.count := h.length
    have hle : found.length ≤ f.remaining := hspec.le
    change (f.allocated ++ _).length + (f.remaining - found.length) = f.count
    rw [List.length_append, List.length_map]
    omega
  · refine View.Visits.skip (f := f.collect found) ⟨hf.slice, hf.snapshot, hf.start, fun j hj => ?_⟩
      ⟨hlen.trans h.words, h.len, h.chunks, h.max, h.pos⟩ ?_
    · have hvisited := hf.visited j hj
      dsimp only
      rw [hlen, List.getElem?_set]
      split_ifs
      · exact congrArg some hones
      · exact hvisited
    · exact (List.getElem?_set_self hlt).trans (congrArg some hones)
  · exact hi.trans_eq hlen.symm

/-- Every step of the call keeps the order. -/
theorem inOrder_stepAlloc (h : s.view.InOrder L pc) (hs : s.stepAlloc p pc = some t) :
    t.view.InOrder L (t.pc p) := by
  cases pc with
  | rlock c => cases hs; exact inOrder_goto s p (.rwait c) h
  | rwait c =>
    simp only [State.stepAlloc] at hs
    split_ifs at hs
    cases hs
    exact inOrder_goto s p (.snapshot c) h
  | snapshot c =>
    cases hs
    exact inOrder_goto s p (.position c s.bitmap s.chunks) ⟨h, rfl, rfl⟩
  | position c bitmapSlice chunksSnapshot =>
    obtain ⟨h, rfl, rfl⟩ := h
    cases hs
    refine inOrder_goto s p _ (View.inOrder_next h ⟨rfl, rfl, ?_, fun j hj => ?_⟩ (Nat.zero_le _))
    · exact Nat.mod_eq_of_lt h.pos
    · exact absurd hj (Nat.not_lt_zero j)
  | load f =>
    obtain ⟨h, hf, hi⟩ := h
    have hget := s.getElem?_words hf h.toFits hi
    simp only [State.stepAlloc] at hs
    split_ifs at hs with hfull hnone
    · cases hs
      have hones := hget.trans (congrArg some hfull)
      exact inOrder_goto s p _ (View.inOrder_next h (hf.skip h.toFits hones) hi)
    · exact absurd (List.length_eq_zero_iff.1 hnone) (found_ne_nil h.needs hfull)
    · cases hs
      exact inOrder_goto s p _ ⟨h, hf, hi, rfl, found_ne_nil h.needs hfull⟩
  | cas f old newVal foundBits =>
    obtain ⟨h, hf, hi, hfind, hne⟩ := h
    have hget := s.getElem?_words hf h.toFits hi
    have hview : (s.storeWord f.bitmapSlice f.wordIdx newVal).view =
        { s.view with words := s.view.words.set f.wordIdx newVal } := by
      rw [State.storeWord, hf.slice]
      simp only [State.view, Function.update_self]
    have hfits : (s.storeWord f.bitmapSlice f.wordIdx newVal).view.Fits := by
      rw [hview]
      exact ⟨(List.length_set ..).trans h.words, h.len, h.chunks, h.max, h.pos⟩
    simp only [State.stepAlloc] at hs
    split_ifs at hs with hsame hzero
    · rw [hsame] at hget
      cases hs
      exact inOrder_goto _ p _ ⟨hfits, hf.slice, View.took_of_take h hf hi hget hfind hne hzero⟩
    · rw [hsame] at hget
      cases hs
      refine inOrder_goto _ p _ ?_
      rw [hview]
      exact View.inOrder_take h hf hi hget hfind hzero
    · cases hs
      exact inOrder_goto s p _ ⟨h, hf, hi⟩
  | storePos f =>
    obtain ⟨-, hslice, htook⟩ := h
    cases hs
    refine inOrder_goto
      { s with lastSearchPos := (f.wordIdx + 1) % f.bitmapSlice.len } p (.finish f.toCall) ⟨f.wordIdx, htook, ?_⟩
    exact congrArg (fun b => (f.wordIdx + 1) % Slice.len b) hslice
  | finish c =>
    cases hs
    exact inOrder_goto s p (.returned c.count (.ok c.allocated)) h
  | runlock c => cases hs; exact inOrder_goto s p (.chunkCount (.alloc c)) h
  | _ => cases hs

omit [DecidableEq ι] in
/-- The blocks of a new chunk take their place in the order. -/
theorem State.ahead_appendChunk {c : Call} (h : s.view.Ahead L c) (hfull : s.view.Full)
    (hlt : s.chunkCount < MaxChunks) (chunk : Chunk) (copied : Bool) :
    (s.appendChunk chunk copied).view.Ahead L c := by
  have hwords : s.words = s.view.words := by
    have hlen : (s.arrays s.bitmap.arr).length = s.bitmap.len := h.words
    rw [State.words, ← hlen, List.take_length]
    rfl
  have hview : (s.appendChunk chunk copied).view.words =
      s.view.words ++ List.replicate (BlocksPerChunk / 32) 0 := by
    rw [← hwords]
    exact Function.update_self ..
  have hlen := h.len
  have hpos := h.pos
  refine ⟨⟨?_, ?_, ?_, hlt, ?_⟩, ?_, h.needs, h.length⟩
  · rw [hview, List.length_append, List.length_replicate, h.words]
    rfl
  · change s.bitmap.len + BlocksPerChunk / 32 = 32 * (s.chunkCount + 1)
    change s.bitmap.len = 32 * s.chunkCount at hlen
    simp only [BlocksPerChunk]
    omega
  · exact (List.length_append ..).trans (congrArg (· + 1) h.chunks)
  · exact Nat.lt_add_right _ hpos
  · have horder := h.order
    rw [searchOrder, freeFrom_full hfull, List.nil_append] at horder
    have hwlen : s.view.words.length = 32 * s.chunkCount := h.words.trans hlen
    have hrange := @List.range'_append (32 * s.view.words.length) (32 * (BlocksPerChunk / 32))
      (BlocksPerChunk * (MaxChunks - (s.chunkCount + 1))) 1
    have hsum : 32 * (BlocksPerChunk / 32) + BlocksPerChunk * (MaxChunks - (s.chunkCount + 1)) =
        BlocksPerChunk * (MaxChunks - s.chunkCount) := by
      simp only [BlocksPerChunk]
      omega
    rw [hsum, Nat.one_mul, ← Nat.mul_add] at hrange
    rw [← horder, hview]
    change _ ++ searchOrder _ s.view.lastSearchPos (s.chunkCount + 1) = _
    rw [searchOrder, freeFrom_append hfull (h.words ▸ hpos), List.length_append,
      List.length_replicate, hrange]
    rfl

theorem View.inOrder_undo (v : View) (count : ℕ) (err : Err) (blocks : List Block) :
    v.InOrder L (undo count err blocks) := by
  cases blocks <;> trivial

theorem inOrder_stepAppend {choice : Bool} (h : s.view.InOrder L pc)
    (hs : s.stepAppend p choice pc = some t) : t.view.InOrder L (t.pc p) := by
  cases pc with
  | chunkCount r =>
    simp only [State.stepAppend] at hs
    split_ifs at hs with hmax
    · cases hs
      refine inOrder_goto s p _ ?_
      cases r with
      | direct => trivial
      | alloc c => exact View.inOrder_undo ..
    · cases hs
      exact inOrder_goto s p _ (Appender.All.imp h fun c hc => ⟨hc.1, hc.2, not_le.1 hmax⟩)
  | muxLock r count =>
    simp only [State.stepAppend] at hs
    split_ifs at hs
    cases hs
    exact inOrder_goto s p (.recheck r count) h
  | recheck r count =>
    simp only [State.stepAppend] at hs
    split_ifs at hs
    · cases hs
      exact inOrder_goto s p _ (Appender.All.imp h fun c hc => hc.1)
    · cases hs
      exact inOrder_goto s p _ h
  | newChunk r count =>
    simp only [State.stepAppend] at hs
    split_ifs at hs
    · cases hs
      exact inOrder_goto s p _ h
    · cases hs
      exact inOrder_goto s p _ trivial
  | lock r chunk =>
    simp only [State.stepAppend] at hs
    split_ifs at hs
    cases hs
    exact inOrder_goto s p (.lockWait r chunk) h
  | lockWait r chunk =>
    simp only [State.stepAppend] at hs
    split_ifs at hs
    cases hs
    exact inOrder_goto s p _ h
  | grow r chunk =>
    cases hs
    refine inOrder_goto (s.appendChunk chunk choice) p _ (Appender.All.imp h fun c hc => ?_)
    exact s.ahead_appendChunk hc.1 hc.2.1 hc.2.2 chunk choice
  | callback r chunk =>
    cases hs
    exact inOrder_goto s p _ h
  | unlock r =>
    cases hs
    exact inOrder_goto s p (.muxUnlock r none) h
  | muxUnlock r err =>
    cases hs
    refine inOrder_goto s p (r.resume err) ?_
    cases r with
    | direct => trivial
    | alloc c =>
      cases err with
      | none => exact h
      | some err => exact View.inOrder_undo ..
  | _ => cases hs

/-- Nothing is said about blocks that are given back. -/
theorem inOrder_stepFree (hs : s.stepFree p pc = some t) : t.view.InOrder L (t.pc p) := by
  cases pc with
  | freeRLock cid idx u =>
    cases hs
    exact inOrder_goto s p (.freeRWait cid idx u) trivial
  | freeRWait cid idx u =>
    simp only [State.stepFree] at hs
    split_ifs at hs
    cases hs
    exact inOrder_goto s p _ trivial
  | freeStart cid idx u =>
    simp only [State.stepFree] at hs
    split_ifs at hs <;> cases hs <;> exact inOrder_goto s p _ trivial
  | freeLoad cid idx u bitmap =>
    cases hs
    exact inOrder_goto s p _ trivial
  | freeCas cid idx u bitmap old =>
    simp only [State.stepFree] at hs
    split_ifs at hs <;> cases hs <;> exact inOrder_goto _ p _ trivial
  | freeRUnlock u =>
    cases hs
    refine inOrder_goto s p u.resume ?_
    cases u with
    | direct => trivial
    | alloc count err b rest => exact View.inOrder_undo ..
  | _ => cases hs

theorem inOrder_step {a : Action ι} (h : s.view.InOrder L (s.pc p)) (hok : Sequential p s a)
    (hs : (bus ι).step s a = some t) : t.view.InOrder L (t.pc p) := by
  obtain ⟨choice, rfl, -⟩ := hok
  simp only [bus, step, Option.orElse_eq_some] at hs
  rcases hs with ha | ⟨-, ha | ⟨-, ha⟩⟩
  · exact inOrder_stepAlloc h ha
  · exact inOrder_stepAppend h ha
  · exact inOrder_stepFree ha

theorem chunks_grow {a : Action ι} (hs : (bus ι).step s a = some t) : s.chunks <+: t.chunks := by
  cases a with
  | callAlloc i count | callAppend i | callFree i cid idx | give i j b =>
    simp only [bus, step] at hs
    split_ifs at hs <;> cases hs <;> exact List.prefix_rfl
  | run i choice =>
    simp only [bus, step, Option.orElse_eq_some] at hs
    rcases hs with hs | ⟨-, hs | ⟨-, hs⟩⟩
    · cases hpc : s.pc i <;> simp only [hpc, State.stepAlloc] at hs <;> (try split_ifs at hs) <;>
        cases hs <;> exact List.prefix_rfl
    · cases hpc : s.pc i <;> simp only [hpc, State.stepAppend] at hs <;> (try split_ifs at hs) <;>
        cases hs <;> first | exact List.prefix_rfl | exact List.prefix_append ..
    · cases hpc : s.pc i <;> simp only [hpc, State.stepFree] at hs <;> (try split_ifs at hs) <;>
        cases hs <;> exact List.prefix_rfl

/-- A call that finds enough blocks on a bus at rest takes the first ones in the order of the
search. -/
theorem Resting.takes_in_order (hrest : Resting s) (p : ι) (count : ℕ) (hcount : 1 ≤ count)
    (hpos : s.lastSearchPos < s.bitmap.len) (hle : count ≤ available s.words s.chunkCount) :
    (bus ι).Inevitable (Sequential p) (fun u => ∃ blocks a, u.pc p = .returned count (.ok blocks) ∧
        blocks.map Block.address =
          (searchOrder s.words s.lastSearchPos s.chunkCount).take count ∧
        (blocks.map Block.address).getLast? = some a ∧
        u.lastSearchPos = (a / 32 + 1) % u.bitmap.len ∧
        Marked s.words u.words u.chunks blocks)
      (s.goto p (.rlock ⟨count, [], count⟩)) := by
  have hwords : s.words = s.view.words := by
    rw [State.words, ← hrest.words, List.take_length]
    rfl
  have hahead : s.view.Ahead (searchOrder s.words s.lastSearchPos s.chunkCount) ⟨count, [], count⟩ := by
    rw [hwords]
    exact ⟨⟨hrest.words, hrest.len, hrest.chunks, hrest.max, hpos⟩, rfl, hcount, Nat.zero_add _⟩
  have hstart := inOrder_goto s p (.rlock ⟨count, [], count⟩) hahead
  refine ((hrest.returns p hcount).and_invariant (fun u a v => inOrder_step) hstart).trans ?_
  rintro u ⟨⟨result, hpc, hok, hresult⟩, horder⟩
  obtain ⟨blocks, rfl⟩ := hok.2 hle
  rw [hpc] at horder
  obtain ⟨w, ⟨haddresses, a, ha, rfl⟩, hlast⟩ := horder
  exact .here ⟨blocks, a, hpc, haddresses, haddresses ▸ ha, hlast, hresult.2⟩

/-- A call `AllocBlocks(count)` that finds enough blocks, while no other thread acts and with `NewChunk`
succeeding, comes to return the first `count` blocks in the order of the search; the next search begins
behind the word of the last one. -/
theorem alloc_next_fit (s : State ι) (p : ι) (count : ℕ) (hcount : 1 ≤ count)
    (hquiet : (s.pc p).Quiet = true) (hrest : Resting s) (hpos : s.lastSearchPos < s.bitmap.len)
    (hle : count ≤ available s.words s.chunkCount) :
    ∃ t, (bus ι).step s (.callAlloc p count) = some t ∧
      (bus ι).Inevitable (Sequential p) (fun u => ∃ blocks a, u.pc p = .returned count (.ok blocks) ∧
        blocks.map Block.address =
          (searchOrder s.words s.lastSearchPos s.chunkCount).take count ∧
        (blocks.map Block.address).getLast? = some a ∧
        u.lastSearchPos = (a / 32 + 1) % u.bitmap.len ∧
        Marked s.words u.words u.chunks blocks) t :=
  ⟨_, step_callAlloc hquiet (hle.trans (hrest.available_le.trans s.makeLimit.full)),
    hrest.takes_in_order p count hcount hpos hle⟩

/-- A bus whose last word has four clear bits and is the one to begin with. -/
def nearlyAround : State Unit :=
  { newBus ⟨0⟩ .least with
    arrays := fun _ => List.replicate 31 0 ++ [0xFFFFFFF0]
    lastSearchPos := 31 }

/-- Of six blocks four come from the last word and two from the first. -/
theorem alloc_next_fit_around : ∃ t, (bus Unit).step nearlyAround (.callAlloc () 6) = some t ∧
    (bus Unit).Inevitable (Sequential ()) (fun u => ∃ blocks,
      u.pc () = .returned 6 (.ok blocks) ∧
        blocks.map Block.address = [992, 993, 994, 995, 0, 1]) t := by
  have hrest : Resting nearlyAround := ⟨rfl, rfl, rfl, rfl, rfl, le_rfl, show 1 ≤ MaxChunks by decide⟩
  have hmore : 6 ≤ BlocksPerChunk * (MaxChunks - nearlyAround.chunkCount) := by decide
  obtain ⟨t, ht, hreturn⟩ := alloc_next_fit nearlyAround () 6 (by decide) rfl hrest (by decide)
    (hmore.trans (Nat.le_add_left ..))
  refine ⟨t, ht, hreturn.trans ?_⟩
  rintro u ⟨blocks, -, hpc, haddresses, -⟩
  exact .here ⟨blocks, hpc, haddresses.trans (by decide +kernel)⟩

end Mmfg.Bus
