import Mmfg.Layout
import Mathlib.Data.List.Nodup
import Mathlib.Data.Finset.Card
import Mathlib.Tactic

/-!
# The words of the allocation bitmap

Block addresses, the search for clear bits of one bitmap word in `AllocBlocks`, and the bits of a
bitmap given as a list of words.  `findBits_spec` says what the search finds: distinct clear bits,
as many as wanted or all there are.
-/

namespace Mmfg.Bus

/-- A word of the bitmap. -/
abbrev Word := BitVec 32

/-- The global bit index of a block. -/
def getBlockAddress (chunkID blockIdx : Int16) : ℤ :=
  (~~~chunkID).toInt * BlocksPerChunk + blockIdx.toInt

/-- The chunk ID and block index of a global bit index. -/
def parseBlockAddress (address : ℕ) : Int16 × Int16 :=
  (~~~Int16.ofNat (address / BlocksPerChunk), Int16.ofNat (address % BlocksPerChunk))

/-- The word of a global bit index; Go's division truncates. -/
def wordIdxOf (globalBlockIdx : ℤ) : ℤ := globalBlockIdx.tdiv 32

/-- The mask that clears the bit; a shift by a negative remainder, huge as a `uint`, gives 0. -/
def freeMask (globalBlockIdx : ℤ) : Word :=
  if globalBlockIdx.tmod 32 < 0 then ~~~0 else ~~~(1#32 <<< (globalBlockIdx.tmod 32).toNat)

theorem wordIdxOf_natCast (a : ℕ) : wordIdxOf a = (a / 32 : ℕ) := by
  rw [wordIdxOf, Int.tdiv_eq_ediv_of_nonneg (by omega)]
  omega

theorem freeMask_natCast (a : ℕ) : freeMask a = ~~~(1#32 <<< (a % 32)) := by
  rw [freeMask, Int.tmod_eq_emod_of_nonneg (by omega), if_neg (by omega)]
  congr 2

theorem toInt_ofNat_of_lt {n : ℕ} (h : n < 2 ^ 15) : (Int16.ofNat n).toInt = n :=
  Int16.toInt_ofNat_of_lt h

theorem toInt_complement (c : Int16) : (~~~c).toInt = -c.toInt - 1 := by
  have hle := c.le_toInt
  have hlt := c.toInt_lt
  rw [Int16.toInt_not]
  exact Int.bmod_eq_of_le (by omega) (by omega)

/-- Addresses of at most `MaxChunks` chunks survive parsing. -/
theorem getBlockAddress_parse {a : ℕ} (h : a < BlocksPerChunk * MaxChunks) :
    getBlockAddress (parseBlockAddress a).1 (parseBlockAddress a).2 = a := by
  simp only [BlocksPerChunk, MaxChunks] at h
  simp only [getBlockAddress, parseBlockAddress, BlocksPerChunk, Int16.not_not]
  rw [toInt_ofNat_of_lt (by omega), toInt_ofNat_of_lt (by omega)]
  omega

/-- The inner loop of `AllocBlocks`: collect clear bits of the word, lowest first, as long as there
are any and more are wanted.  A word has 32 bits, so 32 rounds are enough (`findBits_spec`). -/
def findBits (remaining : ℕ) : ℕ → Word → Word → List ℕ → Word × List ℕ
  | 0, _, newVal, foundBits => (newVal, foundBits)
  | rounds + 1, tempWord, newVal, foundBits =>
    if tempWord ≠ 0 ∧ foundBits.length < remaining then
      let bitIdx := tempWord.ctz.toNat
      findBits remaining rounds (tempWord &&& ~~~(1#32 <<< bitIdx)) (newVal ||| (1#32 <<< bitIdx))
        (foundBits ++ [bitIdx])
    else (newVal, foundBits)

/-- `newVal` is `old` with the distinct clear bits `found` set. -/
structure Found (remaining : ℕ) (old newVal : Word) (found : List ℕ) : Prop where
  nodup : found.Nodup
  clear : ∀ k ∈ found, k < 32 ∧ old.getLsbD k = false
  value : ∀ k, newVal.getLsbD k = true ↔ old.getLsbD k = true ∨ k ∈ found
  le : found.length ≤ remaining

theorem getLsbD_one_shiftLeft {j k : ℕ} (hj : j < 32) :
    (1#32 <<< j).getLsbD k = true ↔ k = j := by
  rw [BitVec.getLsbD_shiftLeft]
  simp only [Bool.and_eq_true, decide_eq_true_eq, Bool.not_eq_true', decide_eq_false_iff_not,
    BitVec.getLsbD_one]
  omega

theorem ctz_spec {w : Word} (h : w ≠ 0) :
    w.ctz.toNat < 32 ∧ w.getLsbD w.ctz.toNat = true := by
  have hlt : w.ctz.toNat < 32 := by
    have := BitVec.ctz_lt_iff_ne_zero.2 h
    simpa [BitVec.lt_def] using this
  exact ⟨hlt, BitVec.getLsbD_true_ctz_of_ne_zero h⟩

theorem Found.round {remaining : ℕ} {old newVal : Word} {found : List ℕ} {k : ℕ}
    (h : Found remaining old newVal found) (hk : k < 32) (hc : newVal.getLsbD k = false)
    (hlt : found.length < remaining) :
    Found remaining old (newVal ||| (1#32 <<< k)) (found ++ [k]) := by
  have hnew : ¬ (old.getLsbD k = true ∨ k ∈ found) := by
    rw [← h.value, hc]
    exact Bool.false_ne_true
  refine ⟨?_, ?_, fun j => ?_, ?_⟩
  · rw [List.nodup_append]
    refine ⟨h.nodup, List.nodup_singleton k, ?_⟩
    rintro a ha b hb rfl
    rw [List.mem_singleton.1 hb] at ha
    exact hnew (.inr ha)
  · intro j hj
    rcases List.mem_append.1 hj with hj | hj
    · exact h.clear j hj
    · rw [List.mem_singleton.1 hj]
      exact ⟨hk, by simpa using fun ho => hnew (.inl ho)⟩
  · rw [BitVec.getLsbD_or, Bool.or_eq_true, h.value, getLsbD_one_shiftLeft hk, List.mem_append,
      List.mem_singleton, or_assoc]
  · rw [List.length_append, List.length_singleton]
    exact hlt

theorem Found.full {remaining : ℕ} {old newVal : Word} {found : List ℕ}
    (h : Found remaining old newVal found) (hlen : 32 ≤ found.length) :
    newVal = BitVec.allOnes 32 := by
  have hsub : found.toFinset ⊆ Finset.range 32 := by
    intro k hk
    exact Finset.mem_range.2 (h.clear k (List.mem_toFinset.1 hk)).1
  have heq : found.toFinset = Finset.range 32 := by
    refine Finset.eq_of_subset_of_card_le hsub ?_
    rw [Finset.card_range, List.toFinset_card_of_nodup h.nodup]
    exact hlen
  apply BitVec.eq_of_getLsbD_eq
  intro k hk
  have : k ∈ found := by
    rw [← List.mem_toFinset, heq]
    exact Finset.mem_range.2 hk
  rw [(h.value k).2 (.inr this), BitVec.getLsbD_allOnes]
  simp [hk]

theorem findBits_found {remaining : ℕ} {old : Word} : ∀ (rounds : ℕ) {newVal : Word}
    {found : List ℕ}, Found remaining old newVal found → 32 ≤ found.length + rounds →
    let r := findBits remaining rounds (~~~newVal) newVal found
    Found remaining old r.1 r.2 ∧ (r.2.length < remaining → r.1 = BitVec.allOnes 32)
  | 0, newVal, found, h, hr => ⟨h, fun _ => h.full hr⟩
  | rounds + 1, newVal, found, h, hr => by
    unfold findBits
    split_ifs with hc
    · obtain ⟨hne, hlt⟩ := hc
      obtain ⟨hk, hbit⟩ := ctz_spec hne
      have htemp : ~~~newVal &&& ~~~(1#32 <<< (~~~newVal).ctz.toNat) =
          ~~~(newVal ||| (1#32 <<< (~~~newVal).ctz.toNat)) := by
        rw [BitVec.not_or]
      have hclear : newVal.getLsbD (~~~newVal).ctz.toNat = false := by
        rw [BitVec.getLsbD_not] at hbit
        simpa [hk] using hbit
      dsimp only
      rw [htemp]
      refine findBits_found rounds (h.round hk hclear hlt) ?_
      rw [List.length_append, List.length_singleton]
      omega
    · refine ⟨h, fun hlt => ?_⟩
      have hz : ~~~newVal = 0 := by
        by_contra hne
        exact hc ⟨hne, hlt⟩
      rw [← BitVec.not_not (b := newVal), hz]
      rfl

/-- The search finds distinct clear bits: as many as wanted, or all clear bits of the word. -/
theorem findBits_spec (remaining : ℕ) (old : Word) :
    let r := findBits remaining 32 (~~~old) old []
    Found remaining old r.1 r.2 ∧ (r.2.length < remaining → r.1 = BitVec.allOnes 32) := by
  refine findBits_found 32 ⟨List.nodup_nil, by simp, by simp, Nat.zero_le _⟩ (by simp)

/-! ## Bits of a bitmap -/

/-- Bit `a` of a bitmap; there are no bits beyond its words. -/
def bitAt (words : List Word) (a : ℕ) : Bool := ((words[a / 32]?).getD 0).getLsbD (a % 32)

theorem bitAt_lt {words : List Word} {a : ℕ} (h : bitAt words a = true) :
    a < 32 * words.length := by
  by_contra hc
  have : words[a / 32]? = none := List.getElem?_eq_none (by omega)
  simp [bitAt, this] at h

theorem bitAt_set {words : List Word} {w a : ℕ} {v : Word} (hw : w < words.length) :
    bitAt (words.set w v) a = if a / 32 = w then v.getLsbD (a % 32) else bitAt words a := by
  unfold bitAt
  rw [List.getElem?_set]
  split_ifs with h1 h2
  · simp
  · exact absurd h1.symm h2
  · exact absurd ‹a / 32 = w›.symm h1
  · rfl

theorem bitAt_append_zero {words : List Word} {n a : ℕ} :
    bitAt (words ++ List.replicate n 0) a = bitAt words a := by
  unfold bitAt
  rw [List.getElem?_append]
  split_ifs with h
  · rfl
  · rw [List.getElem?_replicate, List.getElem?_eq_none (by omega : words.length ≤ a / 32)]
    split_ifs <;> rfl

theorem div_mod_eq_iff {a w k : ℕ} (hk : k < 32) : a / 32 = w ∧ a % 32 = k ↔ a = w * 32 + k := by
  omega

/-- Writing back a word in which the bits `found` have been set takes exactly their addresses. -/
theorem bitAt_take {words : List Word} {w remaining a : ℕ} {old newVal : Word} {found : List ℕ}
    (hw : words[w]? = some old) (h : Found remaining old newVal found) :
    bitAt (words.set w newVal) a = true ↔
      bitAt words a = true ∨ a ∈ found.map (w * 32 + ·) := by
  have hlt : w < words.length := (List.getElem?_eq_some_iff.1 hw).1
  have hmem : a ∈ found.map (w * 32 + ·) ↔ a / 32 = w ∧ a % 32 ∈ found := by
    rw [List.mem_map]
    constructor
    · rintro ⟨k, hk, rfl⟩
      have := (h.clear k hk).1
      obtain ⟨h1, h2⟩ := (div_mod_eq_iff (a := w * 32 + k) (w := w) this).2 rfl
      exact ⟨h1, by rw [h2]; exact hk⟩
    · rintro ⟨h1, h2⟩
      exact ⟨a % 32, h2, by omega⟩
  rw [bitAt_set hlt, hmem]
  split_ifs with ha
  · subst ha
    rw [h.value, bitAt, hw]
    simp
  · simp [ha]

theorem bitAt_take_clear {words : List Word} {w remaining a : ℕ} {old newVal : Word}
    {found : List ℕ} (hw : words[w]? = some old) (h : Found remaining old newVal found)
    (ha : a ∈ found.map (w * 32 + ·)) : bitAt words a = false := by
  obtain ⟨k, hk, rfl⟩ := List.mem_map.1 ha
  obtain ⟨hk32, hc⟩ := h.clear k hk
  obtain ⟨h1, h2⟩ := (div_mod_eq_iff (a := w * 32 + k) (w := w) hk32).2 rfl
  rw [bitAt, h1, h2, hw]
  exact hc

/-- Writing back a word in which one bit has been cleared frees exactly its address. -/
theorem bitAt_free {words : List Word} {a b : ℕ} {old : Word} (hw : words[b / 32]? = some old) :
    bitAt (words.set (b / 32) (old &&& ~~~(1#32 <<< (b % 32)))) a = true ↔
      bitAt words a = true ∧ a ≠ b := by
  have hlt : b / 32 < words.length := (List.getElem?_eq_some_iff.1 hw).1
  have hb : b % 32 < 32 := Nat.mod_lt _ (by norm_num)
  rw [bitAt_set hlt]
  split_ifs with ha
  · rw [BitVec.getLsbD_and, Bool.and_eq_true, BitVec.getLsbD_not, bitAt, ha, hw]
    simp only [Option.getD_some, Bool.and_eq_true, decide_eq_true_eq, Bool.not_eq_true']
    have hone : (1#32 <<< (b % 32)).getLsbD (a % 32) = false ↔ a ≠ b := by
      rw [← Bool.not_eq_true, getLsbD_one_shiftLeft hb]
      constructor
      · rintro h rfl
        exact h rfl
      · intro h he
        exact h (by omega)
    rw [hone]
    constructor
    · rintro ⟨h1, -, h2⟩
      exact ⟨h1, h2⟩
    · rintro ⟨h1, h2⟩
      exact ⟨h1, Nat.mod_lt _ (by norm_num), h2⟩
  · have : a ≠ b := by
      rintro rfl
      exact ha rfl
    simp [this]

/-- `FreeBlock`; `none` is the panic of a negative index. -/
def freeBlock (bitmap : List Word) (chunkID blockIdx : Int16) : Option (List Word) :=
  let globalBlockIdx := getBlockAddress chunkID blockIdx
  let wordIdx := wordIdxOf globalBlockIdx
  if bitmap.length ≤ wordIdx then some bitmap
  else if wordIdx < 0 then none
  else some (bitmap.modify wordIdx.toNat (· &&& freeMask globalBlockIdx))

theorem freeBlock_spec {chunkID blockIdx : Int16} {b : ℕ}
    (hb : getBlockAddress chunkID blockIdx = b) (bitmap : List Word) :
    ∃ bitmap', freeBlock bitmap chunkID blockIdx = some bitmap' ∧
      ∀ a, bitAt bitmap' a = true ↔ bitAt bitmap a = true ∧ a ≠ b := by
  have hword := wordIdxOf_natCast b
  simp only [freeBlock, hb, hword, freeMask_natCast]
  split_ifs with hlen hneg
  · refine ⟨bitmap, rfl, fun a => ⟨fun ha => ⟨ha, ?_⟩, And.left⟩⟩
    have := bitAt_lt ha
    omega
  · omega
  · have hlt : b / 32 < bitmap.length := by omega
    refine ⟨_, rfl, fun a => ?_⟩
    rw [Int.toNat_natCast, List.modify_eq_set, List.getElem?_eq_getElem hlt]
    exact bitAt_free (List.getElem?_eq_getElem hlt)

end Mmfg.Bus
