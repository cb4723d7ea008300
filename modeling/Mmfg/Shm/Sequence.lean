import Mmfg.Layout
import Mathlib.Tactic

/-!
# Block sequences

A stripe's `Sequence` lists its blocks: a negative entry is a chunk ID, the non-negative ones after
it are block indices in that chunk.  `AllocStripe` writes a chunk ID wherever the chunk changes, and
`AllocBlocksForStripe` goes on from the last chunk ID in the sequence, so the sequence depends only
on the list of blocks (`encode_append`).  Readers get back exactly that list (`resolve_encode`), and
its length is the number of blocks plus the number of chunk changes (`length_encode`).
-/

namespace Mmfg.Shm

/-- A block as the sequence names it: chunk ID and block index. -/
abbrev BlockId := Int16 × Int16

instance : LawfulBEq BlockId := inferInstanceAs (LawfulBEq (Int16 × Int16))

-- Blocks are finitely many, but a quantifier over a list is decided on the list, not on all of them.
instance (priority := high) (blocks : List BlockId) (p : BlockId → Prop) [DecidablePred p] :
    Decidable (∀ b ∈ blocks, p b) :=
  List.decidableBAll p blocks

/-- Chunk IDs are complements, hence negative; block indices are not. -/
def Blk (b : BlockId) : Prop := b.1 < 0 ∧ 0 ≤ b.2

instance (b : BlockId) : Decidable (Blk b) := inferInstanceAs (Decidable (b.1 < 0 ∧ 0 ≤ b.2))

/-- The loop that appends blocks to a sequence, `chunkID` being the last chunk ID in it. -/
def encodeFrom (chunkID : Int16) : List BlockId → List Int16
  | [] => []
  | blk :: blocks =>
    if blk.1 ≠ chunkID then blk.1 :: blk.2 :: encodeFrom blk.1 blocks
    else blk.2 :: encodeFrom chunkID blocks

/-- The sequence of `AllocStripe`. -/
def encode (blocks : List BlockId) : List Int16 := encodeFrom 0 blocks

/-- The search of `AllocBlocksForStripe` for the last chunk ID, from the end. -/
def lastChunkID (seq : List Int16) : Int16 := (seq.reverse.find? (· < 0)).getD 0

/-- The loop of `FreeStripe`, `CleanupResources` and `processSlot` over a sequence. -/
def resolve (chunkID : Int16) : List Int16 → List BlockId
  | [] => []
  | id :: seq => if id < 0 then resolve id seq else (chunkID, id) :: resolve chunkID seq

/-- The number of chunk changes in a list of blocks. -/
def chunkRuns (chunkID : Int16) : List BlockId → ℕ
  | [] => 0
  | blk :: blocks => (if blk.1 ≠ chunkID then 1 else 0) + chunkRuns blk.1 blocks

/-- The chunk ID in force after a sequence. -/
def chunkAfter (chunkID : Int16) : List Int16 → Int16
  | [] => chunkID
  | id :: seq => chunkAfter (if id < 0 then id else chunkID) seq

theorem not_neg_of_nonneg {x : Int16} (h : 0 ≤ x) : ¬ x < 0 := by
  rw [Int16.not_lt]
  exact h

theorem length_encodeFrom (chunkID : Int16) (blocks : List BlockId) :
    (encodeFrom chunkID blocks).length = blocks.length + chunkRuns chunkID blocks := by
  induction blocks generalizing chunkID with
  | nil => rfl
  | cons blk blocks ih =>
    simp only [encodeFrom, chunkRuns]
    split_ifs with hc
    · simp only [List.length_cons, ih]
      omega
    · rw [not_not.1 hc]
      simp only [List.length_cons, ih]
      omega

theorem length_encode (blocks : List BlockId) :
    (encode blocks).length = blocks.length + chunkRuns 0 blocks := length_encodeFrom 0 blocks

theorem resolve_encodeFrom {blocks : List BlockId} (h : ∀ b ∈ blocks, Blk b) (chunkID : Int16) :
    resolve chunkID (encodeFrom chunkID blocks) = blocks := by
  induction blocks generalizing chunkID with
  | nil => rfl
  | cons blk blocks ih =>
    obtain ⟨h1, h2⟩ := h blk (by simp)
    have ih := fun c => ih (fun b hb => h b (by simp [hb])) c
    simp only [encodeFrom]
    split_ifs with hc
    · simp only [resolve, h1, if_true, not_neg_of_nonneg h2, if_false, ih]
    · simp only [resolve, not_neg_of_nonneg h2, if_false, ih, ← not_not.1 hc]

theorem resolve_encode {blocks : List BlockId} (h : ∀ b ∈ blocks, Blk b) :
    resolve 0 (encode blocks) = blocks := resolve_encodeFrom h 0

/-- The sequence starts with the chunk ID of the first block. -/
theorem encode_cons {blk : BlockId} (h : Blk blk) (blocks : List BlockId) :
    encode (blk :: blocks) = blk.1 :: blk.2 :: encodeFrom blk.1 blocks := by
  have hne : blk.1 ≠ 0 := fun h0 => by
    have := h.1
    rw [h0] at this
    exact absurd this (by decide)
  rw [encode, encodeFrom, if_pos hne]

/-- So it does not matter which chunk ID a reader starts with. -/
theorem resolve_encode_of_ne_nil {blocks : List BlockId} (h : ∀ b ∈ blocks, Blk b)
    (hne : blocks ≠ []) (chunkID : Int16) : resolve chunkID (encode blocks) = blocks := by
  obtain ⟨blk, rest, rfl⟩ := List.exists_cons_of_ne_nil hne
  have hblk := h blk (by simp)
  rw [encode_cons hblk]
  simp only [resolve, hblk.1, if_true, not_neg_of_nonneg hblk.2, if_false,
    resolve_encodeFrom (fun b hb => h b (List.mem_cons_of_mem _ hb))]

theorem resolve_append (chunkID : Int16) (xs ys : List Int16) :
    resolve chunkID (xs ++ ys) = resolve chunkID xs ++ resolve (chunkAfter chunkID xs) ys := by
  induction xs generalizing chunkID with
  | nil => rfl
  | cons id xs ih =>
    simp only [List.cons_append, resolve, chunkAfter]
    split_ifs with hc
    · exact ih id
    · rw [ih chunkID, List.cons_append]

theorem chunkAfter_append (chunkID : Int16) (xs ys : List Int16) :
    chunkAfter chunkID (xs ++ ys) = chunkAfter (chunkAfter chunkID xs) ys := by
  induction xs generalizing chunkID with
  | nil => rfl
  | cons id xs ih => exact ih _

/-- Searching from the end finds the chunk ID in force. -/
theorem lastChunkID_eq (seq : List Int16) : lastChunkID seq = chunkAfter 0 seq := by
  have key : ∀ (c : Int16) (seq : List Int16),
      (seq.reverse.find? (· < 0)).getD c = chunkAfter c seq := by
    intro c seq
    induction seq generalizing c with
    | nil => rfl
    | cons id seq ih =>
      rw [List.reverse_cons, List.find?_append, chunkAfter, ← ih]
      cases (seq.reverse.find? (· < 0)) with
      | none =>
        by_cases hid : id < 0 <;> simp [hid]
      | some x => rfl
  exact key 0 seq

theorem chunkAfter_encodeFrom {blocks : List BlockId} (h : ∀ b ∈ blocks, Blk b) (chunkID : Int16)
    (more : List BlockId) :
    encodeFrom chunkID (blocks ++ more) =
      encodeFrom chunkID blocks ++
        encodeFrom (chunkAfter chunkID (encodeFrom chunkID blocks)) more := by
  induction blocks generalizing chunkID with
  | nil => rfl
  | cons blk blocks ih =>
    obtain ⟨h1, h2⟩ := h blk (by simp)
    have ih := fun c => ih (fun b hb => h b (by simp [hb])) c
    simp only [List.cons_append, encodeFrom]
    split_ifs with hc
    · simp only [ih, List.cons_append, chunkAfter, h1, if_true, not_neg_of_nonneg h2, if_false]
    · simp only [ih, List.cons_append, chunkAfter, not_neg_of_nonneg h2, if_false]

/-- Appending blocks to a stripe gives the sequence of the longer list. -/
theorem encode_append {blocks : List BlockId} (h : ∀ b ∈ blocks, Blk b) (more : List BlockId) :
    encode (blocks ++ more) = encode blocks ++ encodeFrom (lastChunkID (encode blocks)) more := by
  rw [lastChunkID_eq]
  exact chunkAfter_encodeFrom h 0 more

/-- The part of a sequence that is new to a stripe with `l` old entries, as `refreshStripe` and
`OnExpandComplete` walk over it from index `i`. -/
def resolveFrom (l : ℕ) : ℕ → Int16 → List Int16 → List BlockId
  | _, _, [] => []
  | i, lastChunkID, id :: seq =>
    if id < 0 then resolveFrom l (i + 1) id seq
    else if i < l then resolveFrom l (i + 1) lastChunkID seq
    else (lastChunkID, id) :: resolveFrom l (i + 1) lastChunkID seq

theorem resolveFrom_of_le {l i : ℕ} (h : l ≤ i) (chunkID : Int16) (seq : List Int16) :
    resolveFrom l i chunkID seq = resolve chunkID seq := by
  induction seq generalizing i chunkID with
  | nil => rfl
  | cons id seq ih =>
    simp only [resolveFrom, resolve, if_neg (by omega : ¬ i < l), ih (i := i + 1) (by omega)]

/-- Walking over the old entries only follows the chunk IDs. -/
theorem resolveFrom_append {l i : ℕ} (chunkID : Int16) (old new : List Int16)
    (h : i + old.length = l) :
    resolveFrom l i chunkID (old ++ new) = resolve (chunkAfter chunkID old) new := by
  induction old generalizing i chunkID with
  | nil => exact resolveFrom_of_le (by simp at h; omega) chunkID new
  | cons id old ih =>
    rw [List.length_cons] at h
    simp only [List.cons_append, resolveFrom, chunkAfter]
    split_ifs with h1 h2
    · exact ih id (by omega)
    · exact ih chunkID (by omega)
    · omega

/-- A grown stripe resolves the new entries to the new blocks. -/
theorem resolveFrom_encode_append {blocks more : List BlockId} (h : ∀ b ∈ blocks, Blk b)
    (hm : ∀ b ∈ more, Blk b) :
    resolveFrom (encode blocks).length 0 0 (encode (blocks ++ more)) = more := by
  rw [encode_append h, resolveFrom_append 0 _ _ (Nat.zero_add _), lastChunkID_eq]
  exact resolve_encodeFrom hm _

end Mmfg.Shm
