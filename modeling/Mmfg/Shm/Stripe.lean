import Mmfg.Lib.System
import Mmfg.Bus.Words
import Mmfg.Shm.Header
import Mmfg.Shm.Sequence

/-!
# Stripes and their header block

A stripe grows by `Request`, by hub writes (`ensureCapacity`) and by expansions that the hub grants
to nodes; each growth rewrites the header block.  None of these checks that the sequence still fits
in the block.  `stripe_fits` says when it does: as long as every growth keeps the number of blocks
plus the number of chunk changes within 2044, each reader of the header gets the whole sequence and
with it exactly the stripe's blocks.  `request_overflows` is a `Request` that is too large.
-/

namespace Mmfg.Shm

/-- A stripe as the hub keeps it; `blocks` are the blocks whose memory `Blocks` refers to. -/
structure Stripe where
  sequence : List Int16
  blockCount : ℕ
  blocks : List BlockId
  dataLen : UInt32
  deriving DecidableEq

/-- `AllocStripe`, given the allocated blocks. -/
def allocStripe (blocks : List BlockId) : Stripe :=
  { sequence := encode blocks, blockCount := blocks.length, blocks := blocks, dataLen := 0 }

/-- `AllocBlocksForStripe`, given the allocated blocks. -/
def Stripe.allocBlocks (s : Stripe) (blocks : List BlockId) : Stripe :=
  { s with
    sequence := s.sequence ++ encodeFrom (lastChunkID s.sequence) blocks
    blockCount := s.blockCount + blocks.length
    blocks := s.blocks ++ blocks }

/-- `UpdateStripeHeader` on the stripe's header block. -/
def Stripe.updateHeader (s : Stripe) (header : Bytes) : Bytes :=
  updateStripeHeader s.dataLen s.blockCount s.sequence header

/-- The value of an `int` or `int64` expression: arithmetic wraps around. -/
def int64 (x : ℤ) : ℤ := Int.bmod x (2 ^ 64)

/-- The bytes behind the header block. -/
def userCap (s : Stripe) : ℤ := ((s.blockCount : ℤ) - 1) * BlockSize

/-- The blocks that `ensureCapacity(needed)` asks for. -/
def blocksNeeded (s : Stripe) (needed : ℤ) : ℤ :=
  (int64 (needed - userCap s + BlockSize - 1)).tdiv BlockSize

/-- The blocks that a write up to offset `stop` takes first. -/
def Stripe.growth (s : Stripe) (stop : ℕ) : ℕ :=
  if stop ≤ userCap s then 0 else (blocksNeeded s stop).toNat

/-- The arithmetic of a write up to offset `stop` does not wrap around (see `Mmfg.Conn` for the others,
which panic). -/
def InRange (stop : ℕ) : Prop := stop + BlockSize < 2 ^ 63

instance (stop : ℕ) : Decidable (InRange stop) := inferInstanceAs (Decidable (_ < _))

/-- The data length after a write of `len` bytes at `off` that fits. -/
def Stripe.newLen (s : Stripe) (off len : ℕ) : UInt32 :=
  if 0 < len ∧ s.dataLen < .ofNat (off + len) then .ofNat (off + len) else s.dataLen

/-- `refreshStripe`. -/
def Stripe.refresh (s : Stripe) (header : Bytes) : Stripe :=
  let (dataLen, blkCnt, seq) := decodeHeader header
  if blkCnt ≠ s.blockCount then
    { sequence := seq
      blockCount := blkCnt
      blocks := s.blocks ++ resolveFrom s.sequence.length 0 0 seq
      dataLen := dataLen }
  else { s with dataLen := dataLen }

/-- The header that `handleExpandRequest` writes, given the two new blocks: it decodes the header
into a stripe of its own, appends to that and encodes it again. -/
def expandHeader (header : Bytes) (blocks : List BlockId) : Bytes :=
  let (dataLen, blkCnt, seq) := decodeHeader header
  let seq := seq ++ encodeFrom (lastChunkID seq) blocks
  let header := updateStripeHeader dataLen (blkCnt + blocks.length) seq header
  updateStripeHeader dataLen (blkCnt + blocks.length) seq header

/-! ## The life of one stripe -/

/-- A connection's stripe, the memory of its header block, and the blocks of expansions that are in
the header but not yet in the hub's copy. -/
structure Conn where
  stripe : Stripe
  header : Bytes
  granted : List BlockId

/-- What can happen to the stripe, with the blocks that `AllocBlocks` returns where it is called:
`Request(blockCount)` (the header block contains `mem`), a hub write of `len` bytes at `off`, an
expansion for a node, a change of the data length by a node, and the return of `Next`. -/
inductive Action
  | request (blockCount : ℕ) (blocks : List BlockId) (mem : Bytes)
  | write (off len : ℕ) (blocks : List BlockId)
  | expand (blocks : List BlockId)
  | setLen (dataLen : UInt32)
  | refresh

/-- A hub write: capacity first, then the data and its length. -/
def Conn.write (c : Conn) (off len : ℕ) (blocks : List BlockId) : Conn :=
  let c :=
    if blocks = [] then c
    else
      let stripe := c.stripe.allocBlocks blocks
      { stripe, header := stripe.updateHeader c.header, granted := [] }
  let n := c.stripe.newLen off len
  if n = c.stripe.dataLen then c
  else { c with stripe := { c.stripe with dataLen := n }, header := putDataLen c.header n }

/-- A step of a connection and its handlers, one after the other. -/
def step : Option Conn → Action → Option (Option Conn)
  | none, .request blockCount blocks mem =>
    if blocks.length = blockCount + 1 ∧ ∀ b ∈ blocks, Blk b then
      let stripe := allocStripe blocks
      some (some ⟨stripe, stripe.updateHeader mem, []⟩)
    else none
  | some c, .write off len blocks =>
    if InRange (off + len) ∧ blocks.length = c.stripe.growth (off + len) ∧ ∀ b ∈ blocks, Blk b then
      some (some (c.write off len blocks))
    else none
  | some c, .expand blocks =>
    if blocks.length = 2 ∧ ∀ b ∈ blocks, Blk b then
      some (some { c with header := expandHeader c.header blocks, granted := c.granted ++ blocks })
    else none
  | some c, .setLen dataLen => some (some { c with header := putDataLen c.header dataLen })
  | some c, .refresh =>
    some (some { c with stripe := c.stripe.refresh c.header, granted := [] })
  | _, _ => none

/-- One stripe as a system; it starts before the `Request`. -/
def stripes : System (Option Conn) Action where
  Init s := s = none
  step := step

/-- The number of blocks and chunk changes fits in a header block. -/
def Fits (blocks : List BlockId) : Prop := blocks.length + chunkRuns 0 blocks ≤ HeaderEntries

instance (blocks : List BlockId) : Decidable (Fits blocks) :=
  inferInstanceAs (Decidable (_ ≤ _))

/-- A growth leaves a list of blocks that fits. -/
def GrowthFits : Option Conn → Action → Prop
  | none, .request _ blocks _ => Fits blocks
  | some c, .write _ _ blocks => Fits (c.stripe.blocks ++ blocks)
  | some c, .expand blocks => Fits (c.stripe.blocks ++ c.granted ++ blocks)
  | _, _ => True

theorem Fits.length_encode {blocks : List BlockId} (h : Fits blocks) :
    (encode blocks).length ≤ HeaderEntries := by
  rw [Shm.length_encode]
  exact h

theorem Fits.length_lt {blocks : List BlockId} (h : Fits blocks) : blocks.length < 2 ^ 16 := by
  unfold Fits HeaderEntries at h
  omega

/-- Header and stripe are those of a list of blocks that fits. -/
structure Good (c : Conn) : Prop where
  blk : ∀ b ∈ c.stripe.blocks ++ c.granted, Blk b
  sequence : c.stripe.sequence = encode c.stripe.blocks
  blockCount : c.stripe.blockCount = c.stripe.blocks.length
  fits : Fits c.stripe.blocks
  header : (decodeHeader c.header).2 =
    ((c.stripe.blocks ++ c.granted).length, encode (c.stripe.blocks ++ c.granted))
  headerFits : Fits (c.stripe.blocks ++ c.granted)

theorem decodeHeader_encode {blocks : List BlockId} (h : Fits blocks) (dataLen : UInt32)
    (b : Bytes) :
    decodeHeader (updateStripeHeader dataLen blocks.length (encode blocks) b) =
      (dataLen, blocks.length, encode blocks) :=
  decodeHeader_update_of_le h.length_lt h.length_encode

theorem good_request {blocks : List BlockId} (hb : ∀ b ∈ blocks, Blk b) (h : Fits blocks)
    (mem : Bytes) :
    Good ⟨allocStripe blocks, (allocStripe blocks).updateHeader mem, []⟩ := by
  refine ⟨by simpa [allocStripe] using hb, rfl, rfl, h, ?_, by simpa [allocStripe] using h⟩
  simp only [Stripe.updateHeader, allocStripe, decodeHeader_encode h, List.append_nil]

theorem Good.allocBlocks {c : Conn} (hc : Good c) {blocks : List BlockId}
    (hb : ∀ b ∈ blocks, Blk b) (h : Fits (c.stripe.blocks ++ blocks)) :
    Good ⟨c.stripe.allocBlocks blocks, (c.stripe.allocBlocks blocks).updateHeader c.header, []⟩ := by
  have hold : ∀ b ∈ c.stripe.blocks, Blk b := fun b hm => hc.blk b (List.mem_append_left _ hm)
  have hseq : (c.stripe.allocBlocks blocks).sequence = encode (c.stripe.blocks ++ blocks) := by
    rw [encode_append hold, ← hc.sequence]
    rfl
  have hcnt : (c.stripe.allocBlocks blocks).blockCount = (c.stripe.blocks ++ blocks).length := by
    rw [List.length_append, ← hc.blockCount]
    rfl
  refine ⟨?_, hseq, hcnt, h, ?_, ?_⟩
  · intro b hm
    rw [List.append_nil] at hm
    rcases List.mem_append.1 hm with hm | hm
    · exact hold b hm
    · exact hb b hm
  · simp only [Stripe.updateHeader, hseq, hcnt, List.append_nil]
    rw [decodeHeader_encode h]
    rfl
  · rw [List.append_nil]
    exact h

theorem Good.setLen {c : Conn} (hc : Good c) (n m : UInt32) :
    Good { c with stripe := { c.stripe with dataLen := n }, header := putDataLen c.header m } :=
  ⟨hc.blk, hc.sequence, hc.blockCount, hc.fits, by rw [decodeHeader_putDataLen]; exact hc.header,
    hc.headerFits⟩

theorem Good.write {c : Conn} (hc : Good c) {off len : ℕ} {blocks : List BlockId}
    (hb : ∀ b ∈ blocks, Blk b) (h : Fits (c.stripe.blocks ++ blocks)) :
    Good (c.write off len blocks) := by
  have hlen : ∀ d : Conn, Good d → ∀ n : UInt32, Good (if n = d.stripe.dataLen then d
      else { d with stripe := { d.stripe with dataLen := n }, header := putDataLen d.header n }) := by
    intro d hd n
    split_ifs
    · exact hd
    · exact hd.setLen n n
  unfold Conn.write
  split_ifs with he
  · exact hlen c hc _
  · exact hlen _ (hc.allocBlocks hb h) _

/-- The header that an expansion writes, over whatever is in the block. -/
theorem Good.decodeHeader_append {c : Conn} (hc : Good c) {blocks : List BlockId}
    (h : Fits (c.stripe.blocks ++ c.granted ++ blocks)) (dataLen : UInt32) (header : Bytes) :
    decodeHeader (updateStripeHeader dataLen ((decodeHeader c.header).2.1 + blocks.length)
      ((decodeHeader c.header).2.2 ++
        encodeFrom (lastChunkID (decodeHeader c.header).2.2) blocks) header) =
      (dataLen, (c.stripe.blocks ++ c.granted ++ blocks).length,
        encode (c.stripe.blocks ++ c.granted ++ blocks)) := by
  obtain ⟨h1, h2⟩ := Prod.ext_iff.1 hc.header
  rw [h1, h2, ← encode_append hc.blk blocks, ← List.length_append, decodeHeader_encode h]

theorem Good.grant {c : Conn} (hc : Good c) {blocks : List BlockId} {header : Bytes}
    (hb : ∀ b ∈ blocks, Blk b) (h : Fits (c.stripe.blocks ++ c.granted ++ blocks))
    (hdec : (decodeHeader header).2 = ((c.stripe.blocks ++ c.granted ++ blocks).length,
      encode (c.stripe.blocks ++ c.granted ++ blocks))) :
    Good { c with header := header, granted := c.granted ++ blocks } := by
  refine ⟨fun b hm => ?_, hc.sequence, hc.blockCount, hc.fits, ?_, ?_⟩
  · rw [← List.append_assoc] at hm
    rcases List.mem_append.1 hm with hm | hm
    · exact hc.blk b hm
    · exact hb b hm
  · rw [hdec, List.append_assoc]
  · rw [← List.append_assoc]
    exact h

theorem Good.expand {c : Conn} (hc : Good c) {blocks : List BlockId} (hb : ∀ b ∈ blocks, Blk b)
    (h : Fits (c.stripe.blocks ++ c.granted ++ blocks)) :
    Good { c with header := expandHeader c.header blocks, granted := c.granted ++ blocks } := by
  refine hc.grant hb h ?_
  simp only [expandHeader]
  rw [hc.decodeHeader_append h]

/-- `refreshStripe` takes over the blocks that were granted, and then agrees with the header. -/
theorem Good.refresh_eq {c : Conn} (hc : Good c) :
    (c.stripe.refresh c.header).blocks = c.stripe.blocks ++ c.granted ∧
      ((c.stripe.refresh c.header).dataLen, (c.stripe.refresh c.header).blockCount,
        (c.stripe.refresh c.header).sequence) = decodeHeader c.header := by
  have hold : ∀ b ∈ c.stripe.blocks, Blk b := fun b hm => hc.blk b (List.mem_append_left _ hm)
  have hnew : ∀ b ∈ c.granted, Blk b := fun b hm => hc.blk b (List.mem_append_right _ hm)
  obtain ⟨h1, h2⟩ := Prod.ext_iff.1 hc.header
  simp only [Stripe.refresh]
  split_ifs with hcnt
  · refine ⟨?_, rfl⟩
    rw [h2, hc.sequence, resolveFrom_encode_append hold hnew]
  · rw [not_not] at hcnt
    have hnil : c.granted = [] := by
      rw [h1, hc.blockCount, List.length_append] at hcnt
      exact List.length_eq_zero_iff.1 (by omega)
    rw [hnil, List.append_nil] at h2 ⊢
    refine ⟨rfl, Prod.ext rfl (Prod.ext hcnt.symm ?_)⟩
    exact hc.sequence.trans h2.symm

theorem Good.refresh {c : Conn} (hc : Good c) :
    Good { c with stripe := c.stripe.refresh c.header, granted := [] } := by
  obtain ⟨hb, hdec⟩ := hc.refresh_eq
  have hdec2 := (congrArg Prod.snd hdec).trans hc.header
  refine ⟨?_, ?_, ?_, ?_, ?_, ?_⟩
  · rw [hb, List.append_nil]
    exact hc.blk
  · rw [hb]
    exact congrArg Prod.snd hdec2
  · rw [hb]
    exact congrArg Prod.fst hdec2
  · rw [hb]
    exact hc.headerFits
  · rw [hb, List.append_nil]
    exact hc.header
  · rw [hb, List.append_nil]
    exact hc.headerFits

theorem good_step {c c' : Option Conn} {a : Action} (h : ∀ d, c = some d → Good d)
    (ha : GrowthFits c a) (hs : stripes.step c a = some c') : ∀ d, c' = some d → Good d := by
  cases c with
  | none =>
    cases a with
    | request n blocks mem =>
      simp only [stripes, step] at hs
      split_ifs at hs with hb
      cases hs
      rintro d ⟨⟩
      exact good_request hb.2 ha mem
    | _ => cases hs
  | some c =>
    have hc := h c rfl
    cases a with
    | request n blocks mem => cases hs
    | write off len blocks =>
      simp only [stripes, step] at hs
      split_ifs at hs with hb
      cases hs
      rintro d ⟨⟩
      exact hc.write hb.2.2 ha
    | expand blocks =>
      simp only [stripes, step] at hs
      split_ifs at hs with hb
      cases hs
      rintro d ⟨⟩
      exact hc.expand hb.2 ha
    | setLen n =>
      cases hs
      rintro d ⟨⟩
      exact hc.setLen c.stripe.dataLen n
    | refresh =>
      cases hs
      rintro d ⟨⟩
      exact hc.refresh

/-- A sequence of blocks fits in its header block exactly when there are at most 2044 blocks and
chunk changes; and in every run whose growths fit, every reader of the header gets at most 2044
entries, the whole sequence, and from it exactly the stripe's blocks. -/
theorem stripe_fits (blocks : List BlockId) :
    ((allocStripe blocks).sequence.length ≤ HeaderEntries ↔ Fits blocks) ∧
    ∀ c : Conn, stripes.Reaches GrowthFits (some c) →
      c.stripe.sequence.length ≤ HeaderEntries ∧ resolve 0 c.stripe.sequence = c.stripe.blocks ∧
      (decodeHeader c.header).2.2.length ≤ HeaderEntries ∧
      resolve 0 (decodeHeader c.header).2.2 = c.stripe.blocks ++ c.granted ∧
      (decodeHeader c.header).2.1 = (c.stripe.blocks ++ c.granted).length ∧
      (c.granted = [] → (decodeHeader c.header).2.2 = c.stripe.sequence) := by
  refine ⟨?_, fun c hr => ?_⟩
  · rw [Fits, ← length_encode]
    rfl
  have hc : Good c := by
    refine hr.invariant (I := fun s => ∀ d, s = some d → Good d) ?_ ?_ c rfl
    · rintro s rfl d ⟨⟩
    · intro s a t _ h ha hs
      exact good_step h ha hs
  obtain ⟨h1, h2⟩ := Prod.ext_iff.1 hc.header
  have hold : ∀ b ∈ c.stripe.blocks, Blk b := fun b hm => hc.blk b (List.mem_append_left _ hm)
  refine ⟨?_, ?_, ?_, ?_, h1, fun hg => ?_⟩
  · rw [hc.sequence]
    exact hc.fits.length_encode
  · rw [hc.sequence]
    exact resolve_encode hold
  · rw [h2]
    exact hc.headerFits.length_encode
  · rw [h2]
    exact resolve_encode hc.blk
  · rw [h2, hc.sequence, hg, List.append_nil]

instance : (s : Option Conn) → (a : Action) → Decidable (GrowthFits s a)
  | none, .request _ blocks _ => inferInstanceAs (Decidable (Fits blocks))
  | some c, .write _ _ blocks => inferInstanceAs (Decidable (Fits (c.stripe.blocks ++ blocks)))
  | some c, .expand blocks =>
    inferInstanceAs (Decidable (Fits (c.stripe.blocks ++ c.granted ++ blocks)))
  | none, .write .. | none, .expand .. | none, .setLen _ | none, .refresh
  | some _, .request .. | some _, .setLen _ | some _, .refresh => inferInstanceAs (Decidable True)

/-- `Request(2)`, a hub write that needs a third block, and an expansion that `Next` has not yet
taken over: the header describes all six blocks. -/
theorem stripe_fits_run : ∃ c : Conn, c.stripe.sequence = [-1, 256, 257, 258, -2, 7] ∧
    resolve 0 (decodeHeader c.header).2.2 =
      [(-1, 256), (-1, 257), (-1, 258), (-2, 7), (-2, 8), (-2, 9)] := by
  obtain ⟨s, hr, hp⟩ := System.exists_reaches_of_runWith stripes GrowthFits
    [.request 2 [(-1, 256), (-1, 257), (-1, 258)] fun _ => 0, .write 0 9000 [(-2, 7)],
      .expand [(-2, 8), (-2, 9)]]
    (fun s => decide (s.map (·.stripe.sequence) = some [-1, 256, 257, 258, -2, 7] ∧
      s.map (fun c => c.stripe.blocks ++ c.granted) =
        some [(-1, 256), (-1, 257), (-1, 258), (-2, 7), (-2, 8), (-2, 9)]))
    rfl (by decide +kernel)
  obtain ⟨hseq, hblocks⟩ := of_decide_eq_true hp
  cases s with
  | none => cases hseq
  | some c =>
    refine ⟨c, Option.some.inj hseq, ?_⟩
    rw [((stripe_fits c.stripe.blocks).2 c hr).2.2.2.1]
    exact Option.some.inj hblocks

theorem reachable_request {n : ℕ} {blocks : List BlockId} (mem : Bytes)
    (hn : blocks.length = n + 1) (hb : ∀ b ∈ blocks, Blk b) :
    stripes.Reachable (some ⟨allocStripe blocks, (allocStripe blocks).updateHeader mem, []⟩) :=
  .step (.init rfl) (a := .request n blocks mem) trivial (if_pos ⟨hn, hb⟩)

theorem decodeHeader_allocStripe {blocks : List BlockId} (hn : blocks.length < 2 ^ 16)
    (hs : (encode blocks).length < 2 ^ 16) (mem : Bytes) :
    (decodeHeader ((allocStripe blocks).updateHeader mem)).2.2 =
      (encode blocks).take HeaderEntries ++
        List.replicate ((encode blocks).length - HeaderEntries) 0 := by
  exact congrArg (·.2.2) (decodeHeader_update hn hs)

/-- A `Request` whose sequence does not fit: the entries that are cut off are read as zeros, so the
last block a reader finds has index 0. -/
theorem exists_overflow {n : ℕ} {blocks : List BlockId} (hn : blocks.length = n + 1)
    (hb : ∀ b ∈ blocks, Blk b) (hlen : blocks.length < 2 ^ 16)
    (hfit : HeaderEntries < (encode blocks).length) (hseq : (encode blocks).length < 2 ^ 16)
    (hlast : blocks.getLast?.map Prod.snd ≠ some 0) :
    ∃ c : Conn, stripes.Reachable (some c) ∧ c.stripe = allocStripe blocks ∧
      (decodeHeader c.header).2.2 ≠ c.stripe.sequence ∧
      resolve 0 (decodeHeader c.header).2.2 ≠ c.stripe.blocks := by
  have hres : resolve 0 (decodeHeader ((allocStripe blocks).updateHeader fun _ => 0)).2.2 ≠
      blocks := by
    intro h
    obtain ⟨k, hk⟩ := Nat.exists_eq_add_of_lt hfit
    rw [decodeHeader_allocStripe hlen hseq, hk, show HeaderEntries + k + 1 - HeaderEntries = k + 1 by
      omega, List.replicate_succ', ← List.append_assoc, resolve_append] at h
    rw [← h] at hlast
    simp [resolve] at hlast
  refine ⟨_, reachable_request (fun _ => 0) hn hb, rfl, fun h => hres ?_, hres⟩
  rw [h]
  exact resolve_encode hb

/-- The blocks of `AllocBlocks(2045)` on a new hub, whose control stripe occupies the first 256
blocks: the following ones, in chunks 0, 1 and 2. -/
def firstBlocks : List BlockId := (List.range' 256 2045).map Bus.parseBlockAddress

/-- `Request(2044)` on a new hub: the sequence has 2048 entries, and what readers of the header
decode is another sequence and resolves to other blocks. -/
theorem request_overflows : ∃ c : Conn, stripes.Reachable (some c) ∧
    c.stripe.sequence.length = 2048 ∧ (decodeHeader c.header).2.2 ≠ c.stripe.sequence ∧
    resolve 0 (decodeHeader c.header).2.2 ≠ c.stripe.blocks := by
  have hlen : firstBlocks.length = 2044 + 1 := by simp [firstBlocks]
  have hseq : (encode firstBlocks).length = 2048 := by decide +kernel
  have hlast : firstBlocks.getLast?.map Prod.snd ≠ some 0 := by decide +kernel
  obtain ⟨c, hr, hc, h⟩ := exists_overflow hlen (by decide +kernel) (by omega)
    (by rw [hseq]; decide) (by omega) hlast
  refine ⟨c, hr, ?_, h⟩
  rw [hc]
  exact hseq

end Mmfg.Shm
