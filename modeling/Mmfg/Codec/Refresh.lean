import Mmfg.Codec.Sequence

/-!
# Refreshing a stripe

While a node works on a stripe, `handleExpandRequest` adds blocks to its header alone.  The copies of
the hub and of the node catch up later, in `refreshStripe` and `OnExpandComplete`, by walking over
the new sequence and skipping as many entries as they have seen.  `Extends` says what any number of
updates has done to the header, and from it the copies are what a full resolution of the header's
sequence gives (`refresh_eq_rebuild`).
-/

namespace Mmfg.Shm

/-- What is done to a header while a copy is behind: `handleExpandRequest` with the two blocks it
got, or a new data length. -/
inductive Update where
  | expand (first second : Address)
  | setLen (dataLen : UInt32)

namespace Update

/-- The blocks that an update adds. -/
def blocks : Update → List BlockId
  | expand first second => [blockOf first, blockOf second]
  | setLen _ => []

/-- The header after an update. -/
def apply (header : Bytes) : Update → Bytes
  | expand first second => expandHeader header [blockOf first, blockOf second]
  | setLen dataLen => putDataLen header dataLen

/-- The sequence with the new blocks has its place in the header block. -/
def Fits (header : Bytes) : Update → Prop
  | expand first second =>
    ((decodeHeader header).2.2 ++ encodeFrom (lastChunkID (decodeHeader header).2.2)
      [blockOf first, blockOf second]).length ≤ HeaderEntries
  | setLen _ => True

instance (header : Bytes) : (u : Update) → Decidable (u.Fits header)
  | expand first second => inferInstanceAs (Decidable (((decodeHeader header).2.2 ++
      encodeFrom (lastChunkID (decodeHeader header).2.2) [blockOf first, blockOf second]).length ≤
        HeaderEntries))
  | setLen _ => inferInstanceAs (Decidable True)

/-- The header after the updates. -/
def applyAll (header : Bytes) (updates : List Update) : Bytes := updates.foldl apply header

/-- Every update fits when its turn comes. -/
def AllFit : Bytes → List Update → Prop
  | _, [] => True
  | header, u :: updates => u.Fits header ∧ AllFit (u.apply header) updates

instance decidableAllFit : (header : Bytes) → (updates : List Update) →
    Decidable (AllFit header updates)
  | _, [] => inferInstanceAs (Decidable True)
  | header, u :: updates =>
    have := decidableAllFit (u.apply header) updates
    inferInstanceAs (Decidable (u.Fits header ∧ AllFit (u.apply header) updates))

end Update

theorem length_resolve_le (chunkID : Int16) (seq : List Int16) :
    (resolve chunkID seq).length ≤ seq.length := by
  rw [length_resolve]
  exact List.length_filter_le _ _

theorem decodeHeader_expandHeader {header : Bytes} {blocks : List BlockId}
    (hcount : (decodeHeader header).2.1 + blocks.length < 2 ^ 16)
    (hfit : ((decodeHeader header).2.2 ++
      encodeFrom (lastChunkID (decodeHeader header).2.2) blocks).length ≤ HeaderEntries) :
    decodeHeader (expandHeader header blocks) =
      ((decodeHeader header).1, (decodeHeader header).2.1 + blocks.length,
        (decodeHeader header).2.2 ++
          encodeFrom (lastChunkID (decodeHeader header).2.2) blocks) :=
  decodeHeader_update_of_le hcount hfit

/-- The header goes on where the stripe's sequence ends, with entries that resolve to `new`. -/
structure Extends (s : Stripe) (header : Bytes) (new : List BlockId) : Prop where
  count : (decodeHeader header).2.1 = (resolve 0 s.sequence).length + new.length
  sequence : ∃ tail, (decodeHeader header).2.2 = s.sequence ++ tail ∧
    resolve (chunkAfter 0 s.sequence) tail = new ∧ (new = [] → tail = [])

variable {s : Stripe} {header : Bytes} {new : List BlockId}

theorem Extends.setLen (h : Extends s header new) (dataLen : UInt32) :
    Extends s (putDataLen header dataLen) new := by
  have hdec := decodeHeader_putDataLen header dataLen
  exact ⟨by rw [hdec]; exact h.count, by rw [hdec]; exact h.sequence⟩

theorem Extends.expand (h : Extends s header new) {first second : Address}
    (hfit : (Update.expand first second).Fits header) :
    Extends s (expandHeader header [blockOf first, blockOf second])
      (new ++ [blockOf first, blockOf second]) := by
  obtain ⟨tail, hseq, htail, -⟩ := h.sequence
  have hblk := blk_map_blockOf [first, second]
  -- the chunk ID found from the end is the one in force there
  have hnew : resolve (chunkAfter 0 s.sequence) (tail ++ encodeFrom
      (lastChunkID (decodeHeader header).2.2) [blockOf first, blockOf second]) =
      new ++ [blockOf first, blockOf second] := by
    rw [resolve_append, htail, hseq, lastChunkID_eq, chunkAfter_append]
    exact congrArg (new ++ ·) (resolve_encodeFrom hblk _)
  -- blocks are not more than entries, so their number fits too
  have hcount : (decodeHeader header).2.1 + [blockOf first, blockOf second].length < 2 ^ 16 := by
    have hentries : HeaderEntries = 2044 := rfl
    have hlen := (length_resolve_le 0 _).trans hfit
    rw [hseq, List.append_assoc, resolve_append, ← hseq, hnew] at hlen
    simp only [List.length_append, List.length_cons, List.length_nil] at hlen ⊢
    have := h.count
    omega
  have hdec := decodeHeader_expandHeader hcount hfit
  refine ⟨?_, tail ++ encodeFrom (lastChunkID (decodeHeader header).2.2)
    [blockOf first, blockOf second], ?_, hnew, by simp⟩
  · rw [hdec, h.count, List.length_append, Nat.add_assoc]
  · rw [hdec, ← List.append_assoc, ← hseq]

theorem Extends.applyAll (h : Extends s header new) {updates : List Update}
    (hfit : Update.AllFit header updates) :
    Extends s (Update.applyAll header updates) (new ++ updates.flatMap Update.blocks) := by
  induction updates generalizing header new with
  | nil => rwa [List.flatMap_nil, List.append_nil]
  | cons u updates ih =>
    obtain ⟨hu, hrest⟩ := hfit
    rw [List.flatMap_cons, ← List.append_assoc]
    refine ih ?_ hrest
    cases u with
    | expand first second => exact h.expand hu
    | setLen dataLen =>
      rw [show (Update.setLen dataLen).blocks = [] from rfl, List.append_nil]
      exact h.setLen dataLen

theorem Extends.resolve_eq (h : Extends s header new) :
    resolve 0 (decodeHeader header).2.2 = resolve 0 s.sequence ++ new := by
  obtain ⟨tail, hseq, htail, -⟩ := h.sequence
  rw [hseq, resolve_append, htail]

theorem Extends.resolveFrom_eq (h : Extends s header new) :
    resolveFrom s.sequence.length 0 0 (decodeHeader header).2.2 = new := by
  obtain ⟨tail, hseq, htail, -⟩ := h.sequence
  rw [hseq, resolveFrom_append 0 _ _ (Nat.zero_add _), htail]

/-- The hub's copy may stay as it is if the block count is the same. -/
theorem Extends.refresh_eq (h : Extends s header new) (hblocks : s.blocks = resolve 0 s.sequence)
    (hcount : s.blockCount = (resolve 0 s.sequence).length) :
    s.refresh header =
      { sequence := (decodeHeader header).2.2
        blockCount := (decodeHeader header).2.1
        blocks := resolve 0 (decodeHeader header).2.2
        dataLen := (decodeHeader header).1 } := by
  rw [h.resolve_eq, Stripe.refresh]
  dsimp only
  split_ifs with hne
  · rw [h.resolveFrom_eq, hblocks]
  · rw [not_not] at hne
    have hnil : new = [] := by
      apply List.eq_nil_of_length_eq_zero
      exact Nat.add_eq_left.1 (h.count.symm.trans (hne.trans hcount))
    obtain ⟨tail, hseq, -, htail⟩ := h.sequence
    rw [hseq, htail hnil, hnil, List.append_nil, List.append_nil, hne, ← hblocks]

/-- Refreshing is rebuilding: whatever expansions and data lengths have gone into the header of a
stripe with the blocks `blocks`, `refreshStripe` makes the hub's copy equal to the decoded header with
the full resolution of its sequence, and so does `OnExpandComplete` for the sequence and the blocks of
the node's.  That resolution consists of the old blocks and those of the expansions, in order. -/
theorem refresh_eq_rebuild (s : Stripe) (blocks : List BlockId) (header : Bytes)
    (updates : List Update) (hsequence : resolve 0 s.sequence = blocks) (hblocks : s.blocks = blocks)
    (hheader : (decodeHeader header).2 = (blocks.length, s.sequence))
    (hfit : Update.AllFit header updates) :
    let now := Update.applyAll header updates
    let rebuilt := resolve 0 (decodeHeader now).2.2
    (s.blockCount = blocks.length → s.refresh now =
      { sequence := (decodeHeader now).2.2
        blockCount := (decodeHeader now).2.1
        blocks := rebuilt
        dataLen := (decodeHeader now).1 }) ∧
    (∀ mem : Memory, mem s.header = now →
      (Conn.onExpandComplete s mem).sequence = (decodeHeader now).2.2 ∧
      (Conn.onExpandComplete s mem).blocks = rebuilt) ∧
    rebuilt = blocks ++ updates.flatMap Update.blocks := by
  subst hsequence
  obtain ⟨hcount, hseq⟩ := Prod.ext_iff.1 hheader
  have h0 : Extends s header [] := ⟨hcount, [], by rw [hseq, List.append_nil], rfl, fun _ => rfl⟩
  have h := h0.applyAll hfit
  rw [List.nil_append] at h
  intro now rebuilt
  refine ⟨fun hc => h.refresh_eq hblocks hc, fun mem hmem => ⟨?_, ?_⟩, h.resolve_eq⟩
  · change (decodeHeader (mem s.header)).2.2 = _
    rw [hmem]
  · change s.blocks ++ resolveFrom s.sequence.length 0 0 (decodeHeader (mem s.header)).2.2 = _
    rw [hmem, h.resolveFrom_eq, hblocks, ← h.resolve_eq]

/-- A stripe of two blocks, whose header is expanded across chunks before the data length is set. -/
theorem refresh_eq_rebuild_across :
    (allocStripe [(-1, 0), (-1, 1)]).refresh (Update.applyAll
      ((allocStripe [(-1, 0), (-1, 1)]).updateHeader fun _ => 0) [.expand (0, 2) (1, 0), .setLen 7]) =
      { sequence := [-1, 0, 1, 2, -2, 0]
        blockCount := 4
        blocks := [(-1, 0), (-1, 1), (-1, 2), (-2, 0)]
        dataLen := 7 } := by
  obtain ⟨hrefresh, -, hrebuilt⟩ := refresh_eq_rebuild (allocStripe [(-1, 0), (-1, 1)])
    [(-1, 0), (-1, 1)] ((allocStripe [(-1, 0), (-1, 1)]).updateHeader fun _ => 0)
    [.expand (0, 2) (1, 0), .setLen 7] (by decide) rfl
    (congrArg Prod.snd (decodeHeader_update_of_le (by decide) (by decide))) (by decide)
  rw [hrefresh rfl, hrebuilt]
  decide

end Mmfg.Shm
