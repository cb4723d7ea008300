import Mmfg.Bus.Alloc
import Mmfg.Shm.Data

/-!
# What a stripe represents

A `Stripe` and its header block say the same thing twice: data length, block count and sequence are
fields of the Go struct and bytes of the first block.  `Represents` says that both describe the same
list of different blocks.  It is kept by every operation on a stripe whose sequence fits in the
header block, and by whatever happens to the blocks of others.

`granted_of_finish` is the link to the bus: what `AllocBlocks` is about to return are blocks that
nobody holds.
-/

namespace Mmfg.Shm

open File

/-- A block of one of the at most 64 chunks. -/
def Valid (b : BlockId) : Prop :=
  Blk b ∧ -(MaxChunks : ℤ) ≤ b.1.toInt ∧ b.2.toInt < BlocksPerChunk

instance (b : BlockId) : Decidable (Valid b) := inferInstanceAs (Decidable (_ ∧ _ ∧ _))

/-- What `AllocBlocks(count)` returns to the owner of the blocks `owned`: as many different blocks,
none of which was owned. -/
def Granted (owned : List BlockId) (count : ℕ) (blocks : List BlockId) : Prop :=
  blocks.length = count ∧ (∀ b ∈ blocks, Valid b) ∧ blocks.Nodup ∧ ∀ b ∈ blocks, b ∉ owned

instance (owned : List BlockId) (count : ℕ) (blocks : List BlockId) :
    Decidable (Granted owned count blocks) := inferInstanceAs (Decidable (_ ∧ _ ∧ _ ∧ _))

namespace Stripe

/-- `AllocStripe`, given the allocated blocks: the stripe, and the memory with its header. -/
def create (blocks : List BlockId) (mem : Memory) : Stripe × Memory :=
  let s := allocStripe blocks
  (s, Function.update mem s.header (s.updateHeader (mem s.header)))

/-- `AllocBlocksForStripe`, given the result of `AllocBlocks`; `none` is an error. -/
def allocBlocksForStripe (s : Stripe) (mem : Memory) :
    Option (List BlockId) → (Stripe × Memory) × Option IOError
  | none => ((s, mem), some .allocFailed)
  | some blocks =>
    let s := s.allocBlocks blocks
    ((s, Function.update mem s.header (s.updateHeader (mem s.header))), none)

end Stripe

/-! ## The operations on one stripe -/

/-- The operations on a stripe, with the result of `AllocBlocks` where it is called, and the changes
that others make to their blocks. -/
inductive StripeOp
  | allocStripe (blockCount : ℕ) (blocks : List BlockId) (mem : Memory)
  | writeAt (p : List UInt8) (off : ℤ)
  | writeByteAt (b : UInt8) (off : ℤ)
  | truncate (newLen : UInt32)
  | allocBlocks (count : ℕ) (result : Option (List BlockId))
  | store (b : BlockId) (data : Bytes)

/-- An operation of the hub on a stripe. -/
def stripeStep : Option (Stripe × Memory) → StripeOp → Option (Option (Stripe × Memory))
  | none, .allocStripe blockCount blocks mem =>
    if 1 ≤ blockCount ∧ Granted [] blockCount blocks then
      some (some (Stripe.create blocks mem))
    else none
  | some (s, mem), .writeAt p off => some (some (s.writeAt mem p off).1)
  | some (s, mem), .writeByteAt b off => some (some (s.writeByteAt mem b off).1)
  | some (s, mem), .truncate newLen => some (some (s.truncate mem newLen))
  | some (s, mem), .allocBlocks count result =>
    if ∀ blocks ∈ result, Granted s.blocks count blocks then
      some (some (s.allocBlocksForStripe mem result).1)
    else none
  | some (s, mem), .store b data =>
    if b ∈ s.blocks then none else some (some (s, Function.update mem b data))
  | _, _ => none

/-- One stripe and the memory as a system; it starts before `AllocStripe`. -/
def stripeOps : System (Option (Stripe × Memory)) StripeOp where
  Init s := s = none
  step := stripeStep

/-- The sequence stays within the entries of a header block. -/
def SequenceFits : Option (Stripe × Memory) → StripeOp → Prop
  | none, .allocStripe _ blocks _ => (allocStripe blocks).sequence.length ≤ HeaderEntries
  | some (s, _), .allocBlocks _ (some blocks) =>
    (s.allocBlocks blocks).sequence.length ≤ HeaderEntries
  | _, _ => True

/-- The stripe's blocks are different blocks of the bus, at least one, and hold its data. -/
structure Stripe.Wf (s : Stripe) : Prop where
  nonempty : s.blocks ≠ []
  valid : ∀ b ∈ s.blocks, Valid b
  nodup : s.blocks.Nodup
  blockCount : s.blockCount = s.blocks.length
  dataLen : s.dataLen.toNat ≤ s.capacity

/-- The stripe and its header block describe the same list of blocks, which fits in the header. -/
structure Represents (s : Stripe) (mem : Memory) : Prop extends s.Wf where
  sequence : s.sequence = encode s.blocks
  fits : Fits s.blocks
  header : decodeHeader (mem s.header) = (s.dataLen, s.blockCount, s.sequence)

variable {s : Stripe} {mem : Memory} {p : List UInt8} {off : ℤ}

/-! ## Well-formed stripes -/

theorem Stripe.header_cons (h : s.blocks ≠ []) : s.blocks = s.header :: s.blocks.tail := by
  unfold Stripe.header
  cases hb : s.blocks with
  | nil => exact absurd hb h
  | cons b bs => rfl

theorem Stripe.mem_blocks (h : s.blocks ≠ []) {b : BlockId} :
    b ∈ s.blocks ↔ b = s.header ∨ b ∈ s.blocks.tail := by
  conv_lhs => rw [header_cons h]
  exact List.mem_cons

theorem length_le_of_mem_box {l : List (ℤ × ℤ)} {m n : ℕ} (hnd : l.Nodup)
    (h : ∀ x ∈ l, (-(m : ℤ) ≤ x.1 ∧ x.1 < 0) ∧ 0 ≤ x.2 ∧ x.2 < n) : l.length ≤ m * n := by
  have hsub : l.toFinset ⊆ Finset.Ico (-(m : ℤ)) 0 ×ˢ Finset.Ico (0 : ℤ) n := by
    intro x hx
    rw [Finset.mem_product, Finset.mem_Ico, Finset.mem_Ico]
    exact h x (List.mem_toFinset.1 hx)
  have hcard := Finset.card_le_card hsub
  rw [List.toFinset_card_of_nodup hnd, Finset.card_product, Int.card_Ico, Int.card_Ico] at hcard
  simpa using hcard

/-- A bus has at most 65536 blocks. -/
theorem length_le_of_valid {blocks : List BlockId} (hv : ∀ b ∈ blocks, Valid b)
    (hnd : blocks.Nodup) : blocks.length ≤ MaxChunks * BlocksPerChunk := by
  have hinj : Function.Injective fun b : BlockId => (b.1.toInt, b.2.toInt) := by
    intro b c h
    obtain ⟨h1, h2⟩ := Prod.mk.inj h
    exact Prod.ext (Int16.toInt_inj.1 h1) (Int16.toInt_inj.1 h2)
  rw [← List.length_map fun b : BlockId => (b.1.toInt, b.2.toInt)]
  refine length_le_of_mem_box (hnd.map hinj) fun x hx => ?_
  obtain ⟨b, hb, rfl⟩ := List.mem_map.1 hx
  obtain ⟨⟨h1, h2⟩, h3, h4⟩ := hv b hb
  exact ⟨⟨h3, Int16.lt_iff_toInt_lt.1 h1⟩, Int16.le_iff_toInt_le.1 h2, h4⟩

/-- A write raises the data length within the blocks. -/
theorem Stripe.newLen_le (hlen : s.dataLen.toNat ≤ s.capacity) (off : ℤ) (p : List UInt8) :
    (s.newLen off.toNat (s.fitting p off)).toNat ≤ s.capacity := by
  unfold newLen
  split_ifs with h
  · have hfit : s.fitting p off ≤ s.capacity - off.toNat := min_le_right _ _
    have hpos := h.1
    refine (Nat.mod_le _ _).trans ?_
    omega
  · exact hlen

theorem fits_iff {blocks : List BlockId} : Fits blocks ↔ (encode blocks).length ≤ HeaderEntries := by
  rw [Fits, length_encode]

namespace Stripe.Wf

theorem tail_nodup (h : s.Wf) : s.blocks.tail.Nodup := h.nodup.sublist (List.tail_sublist _)

theorem header_notMem (h : s.Wf) : s.header ∉ s.blocks.tail := by
  have hnd := h.nodup
  rw [header_cons h.nonempty] at hnd
  exact (List.nodup_cons.1 hnd).1

theorem blk (h : s.Wf) : ∀ b ∈ s.blocks, Blk b := fun b hb => (h.valid b hb).1

/-- Offsets in a stripe are far below the limits of the integers. -/
theorem capacity_lt (h : s.Wf) : s.capacity < 2 ^ 32 := by
  have hlen := length_le_of_valid h.valid h.nodup
  have htail : s.blocks.tail.length ≤ s.blocks.length := by simp
  simp only [capacity, BlockSize, BlocksPerChunk, MaxChunks] at *
  omega

theorem off_lt (h : s.Wf) (hoff : off ≤ s.capacity) : off + BlockSize < 2 ^ 63 := by
  have hcap := h.capacity_lt
  simp only [BlockSize]
  omega

theorem setDataLen (h : s.Wf) {n : UInt32} (hn : n.toNat ≤ s.capacity) :
    ({ s with dataLen := n } : Stripe).Wf :=
  ⟨h.nonempty, h.valid, h.nodup, h.blockCount, hn⟩

theorem writeAt (h : s.Wf) (mem : Memory) (p : List UInt8) (off : ℤ) :
    (s.writeAt mem p off).1.1.Wf := by
  by_cases h0 : off < 0
  · rw [Stripe.writeAt, if_pos h0]
    exact h
  by_cases hoff : off + BlockSize ≥ 2 ^ 63
  · rw [Stripe.writeAt, if_neg h0, if_pos hoff]
    exact h
  rw [writeAt_stripe (by omega) (by omega)]
  exact h.setDataLen (newLen_le h.dataLen off p)

theorem create {blocks : List BlockId} {count : ℕ} (h : Granted [] count blocks) (hc : 1 ≤ count) :
    (allocStripe blocks).Wf := by
  obtain ⟨hlen, hv, hnd, -⟩ := h
  refine ⟨?_, hv, hnd, rfl, Nat.zero_le _⟩
  rintro rfl
  rw [List.length_nil] at hlen
  omega

theorem allocBlocks (h : s.Wf) {count : ℕ} {blocks : List BlockId}
    (hg : Granted s.blocks count blocks) : (s.allocBlocks blocks).Wf := by
  obtain ⟨-, hv, hnd, hdisj⟩ := hg
  refine ⟨List.append_ne_nil_of_left_ne_nil h.nonempty _, ?_, ?_, ?_, ?_⟩
  · intro b hb
    rcases List.mem_append.1 hb with hb | hb
    · exact h.valid b hb
    · exact hv b hb
  · exact List.Nodup.append h.nodup hnd fun b hb hb' => hdisj b hb' hb
  · simp only [Stripe.allocBlocks, List.length_append, h.blockCount]
  · refine h.dataLen.trans ?_
    simp only [capacity, Stripe.allocBlocks, List.length_tail, List.length_append]
    exact Nat.mul_le_mul_right _ (by omega)

end Stripe.Wf

/-! ## Stripes and their header -/

namespace Represents

theorem congr {mem' : Memory} (h : Represents s mem) (hm : mem' s.header = mem s.header) :
    Represents s mem' :=
  { h with header := by rw [hm]; exact h.header }

theorem truncate (h : Represents s mem) (n : UInt32) :
    Represents (s.truncate mem n).1 (s.truncate mem n).2 := by
  unfold Stripe.truncate
  split_ifs with hn
  · exact h
  · have hle : n.toNat ≤ s.dataLen.toNat := UInt32.le_iff_toNat_le.1 (UInt32.not_lt.1 hn)
    refine ⟨h.toWf.setDataLen (hle.trans h.dataLen), h.sequence, h.fits, ?_⟩
    change decodeHeader (Function.update mem s.header (putDataLen (mem s.header) n) s.header) = _
    rw [Function.update_self, decodeHeader_putDataLen, h.header]
    rfl

theorem writeAt (h : Represents s mem) (p : List UInt8) (off : ℤ) :
    Represents (s.writeAt mem p off).1.1 (s.writeAt mem p off).1.2 := by
  by_cases h0 : off < 0
  · rw [Stripe.writeAt, if_pos h0]
    exact h
  by_cases hoff : off + BlockSize ≥ 2 ^ 63
  · rw [Stripe.writeAt, if_neg h0, if_pos hoff]
    exact h
  have hwf := h.toWf.writeAt mem p off
  rw [Stripe.writeAt_stripe (by omega) (by omega)] at hwf ⊢
  refine ⟨hwf, h.sequence, h.fits, ?_⟩
  change decodeHeader ((s.writeAt mem p off).1.2 s.header) = _
  rw [Stripe.writeAt_header (by omega) (by omega) h.header_notMem]
  split_ifs with he
  · rw [he, h.header]
  · rw [decodeHeader_putDataLen, h.header]

theorem writeByteAt (h : Represents s mem) (b : UInt8) (off : ℤ) :
    Represents (s.writeByteAt mem b off).1.1 (s.writeByteAt mem b off).1.2 := by
  rw [Stripe.writeByteAt_eq]
  exact h.writeAt [b] off

theorem create {blocks : List BlockId} {count : ℕ} (h : Granted [] count blocks) (hc : 1 ≤ count)
    (hfit : (Shm.allocStripe blocks).sequence.length ≤ HeaderEntries) (mem : Memory) :
    Represents (Stripe.create blocks mem).1 (Stripe.create blocks mem).2 := by
  have hfits : Fits blocks := fits_iff.2 hfit
  refine ⟨.create h hc, rfl, hfits, ?_⟩
  simp only [Stripe.create, Function.update_self]
  exact decodeHeader_encode hfits 0 _

theorem allocBlocks (h : Represents s mem) {count : ℕ} {result : Option (List BlockId)}
    (hg : ∀ blocks ∈ result, Granted s.blocks count blocks)
    (hfit : ∀ blocks ∈ result, (s.allocBlocks blocks).sequence.length ≤ HeaderEntries) :
    Represents (s.allocBlocksForStripe mem result).1.1 (s.allocBlocksForStripe mem result).1.2 := by
  cases result with
  | none => exact h
  | some blocks =>
    have hseq : (s.allocBlocks blocks).sequence = encode (s.blocks ++ blocks) := by
      rw [encode_append h.blk, ← h.sequence]
      rfl
    have hcnt : (s.allocBlocks blocks).blockCount = (s.blocks ++ blocks).length := by
      rw [List.length_append, ← h.blockCount]
      rfl
    have hfits : Fits (s.blocks ++ blocks) := fits_iff.2 (hseq ▸ hfit blocks rfl)
    refine ⟨h.toWf.allocBlocks (hg blocks rfl), hseq, hfits, ?_⟩
    simp only [Stripe.allocBlocksForStripe, Function.update_self, Stripe.updateHeader, hseq, hcnt]
    exact decodeHeader_encode hfits _ _

end Represents

theorem represents_step {c c' : Option (Stripe × Memory)} {a : StripeOp}
    (h : ∀ d, c = some d → Represents d.1 d.2) (ha : SequenceFits c a)
    (hs : stripeOps.step c a = some c') : ∀ d, c' = some d → Represents d.1 d.2 := by
  cases c with
  | none =>
    cases a with
    | allocStripe count blocks mem =>
      simp only [stripeOps, stripeStep] at hs
      split_ifs at hs with hg
      cases hs
      rintro d ⟨⟩
      exact .create hg.2 hg.1 ha mem
    | _ => cases hs
  | some c =>
    obtain ⟨s, mem⟩ := c
    have hc : Represents s mem := h _ rfl
    cases a with
    | allocStripe count blocks mem => cases hs
    | writeAt p off =>
      cases hs
      rintro d ⟨⟩
      exact hc.writeAt p off
    | writeByteAt b off =>
      cases hs
      rintro d ⟨⟩
      exact hc.writeByteAt b off
    | truncate n =>
      cases hs
      rintro d ⟨⟩
      exact hc.truncate n
    | allocBlocks count result =>
      simp only [stripeOps, stripeStep] at hs
      split_ifs at hs with hg
      cases hs
      rintro d ⟨⟩
      refine hc.allocBlocks hg fun blocks hb => ?_
      obtain rfl := Option.mem_def.1 hb
      exact ha
    | store b data =>
      simp only [stripeOps, stripeStep] at hs
      split_ifs at hs with hb
      cases hs
      rintro d ⟨⟩
      refine hc.congr (Function.update_of_ne ?_ _ _)
      rintro rfl
      exact hb ((Stripe.mem_blocks hc.nonempty).2 (.inl rfl))

theorem represents_of_reaches (hr : stripeOps.Reaches SequenceFits (some (s, mem))) :
    Represents s mem := by
  refine hr.invariant (I := fun c => ∀ d, c = some d → Represents d.1 d.2) ?_ ?_ (s, mem) rfl
  · rintro c rfl d ⟨⟩
  · intro c a t _ h ha hs
    exact represents_step h ha hs

/-- The non-negative entries of a sequence are its blocks. -/
theorem length_resolve (chunkID : Int16) (seq : List Int16) :
    (resolve chunkID seq).length = (seq.filter fun id => 0 ≤ id).length := by
  induction seq generalizing chunkID with
  | nil => rfl
  | cons id seq ih =>
    rw [resolve]
    split_ifs with hid
    · rw [ih, List.filter_cons_of_neg]
      simpa [Int16.not_le] using hid
    · rw [List.length_cons, ih chunkID, List.filter_cons_of_pos, List.length_cons]
      simpa [Int16.not_lt] using hid

/-- In every run in which the sequence fits in the header block, the stripe's block count is the
number of its blocks and of the block indices in its sequence, which denotes exactly these blocks,
all different; the data fits in them; and decoding the first block gives the stripe's data length,
block count and sequence. -/
theorem stripe_represents (s : Stripe) (mem : Memory)
    (hr : stripeOps.Reaches SequenceFits (some (s, mem))) :
    s.blockCount = s.blocks.length ∧ s.blockCount = (s.sequence.filter fun id => 0 ≤ id).length ∧
    resolve 0 s.sequence = s.blocks ∧ s.blocks.Nodup ∧
    s.dataLen.toNat ≤ (s.blockCount - 1) * BlockSize ∧
    ∃ header, s.blocks[0]? = some header ∧
      decodeHeader (mem header) = (s.dataLen, s.blockCount, s.sequence) := by
  have h := represents_of_reaches hr
  have hres : resolve 0 s.sequence = s.blocks := by
    rw [h.sequence]
    exact resolve_encode h.blk
  refine ⟨h.blockCount, ?_, hres, h.nodup, ?_, s.header, ?_, h.header⟩
  · rw [← length_resolve 0, hres, h.blockCount]
  · have hcap := h.dataLen
    rwa [Stripe.capacity, List.length_tail, ← h.blockCount] at hcap
  · rw [Stripe.header_cons h.nonempty]
    rfl

instance : (s : Option (Stripe × Memory)) → (a : StripeOp) → Decidable (SequenceFits s a)
  | none, .allocStripe _ blocks _ =>
    inferInstanceAs (Decidable ((allocStripe blocks).sequence.length ≤ HeaderEntries))
  | some (s, _), .allocBlocks _ (some blocks) =>
    inferInstanceAs (Decidable ((s.allocBlocks blocks).sequence.length ≤ HeaderEntries))
  | none, .writeAt .. | none, .writeByteAt .. | none, .truncate _ | none, .allocBlocks ..
  | none, .store .. | some _, .allocStripe .. | some _, .writeAt .. | some _, .writeByteAt ..
  | some _, .truncate _ | some _, .allocBlocks _ none | some _, .store .. =>
    inferInstanceAs (Decidable True)

/-- A stripe of two blocks is written beyond its end, cut, and grown by two blocks of another chunk
after a failed attempt; its header block describes all four blocks. -/
theorem stripe_represents_run : ∃ (s : Stripe) (mem : Memory),
    s.blocks = [(-1, 256), (-1, 257), (-2, 7), (-2, 8)] ∧
      decodeHeader (mem (-1, 256)) = (4097, 4, [-1, 256, 257, -2, 7, 8]) := by
  obtain ⟨s, hr, hp⟩ := System.exists_reaches_of_runWith stripeOps SequenceFits
    [.allocStripe 2 [(-1, 256), (-1, 257)] fun _ _ => 0, .writeAt (List.replicate 5 7) 4093,
      .truncate 4, .allocBlocks 2 none, .allocBlocks 2 (some [(-2, 7), (-2, 8)]),
      .store (-1, 9) fun _ => 1, .writeByteAt 3 4096]
    (fun s => decide (s.map Prod.fst = some
      ⟨[-1, 256, 257, -2, 7, 8], 4, [(-1, 256), (-1, 257), (-2, 7), (-2, 8)], 4097⟩))
    rfl (by decide +kernel)
  obtain ⟨⟨s, mem⟩, rfl, hs⟩ := Option.map_eq_some_iff.1 (of_decide_eq_true hp)
  obtain ⟨-, -, -, -, -, header, hh, hdec⟩ := stripe_represents s mem hr
  change s = _ at hs
  refine ⟨s, mem, by rw [hs], ?_⟩
  subst hs
  cases hh
  exact hdec

/-! ## The blocks that the bus hands out -/

section Bus

variable {ι : Type} {t : Bus.State ι}

/-- The block as the sequence names it. -/
def blockId (b : Bus.Block) : BlockId := (b.chunkID, b.blockIdx)

theorem valid_of_mapped {chunks : List Chunk} (hmax : chunks.length ≤ MaxChunks) {b : Bus.Block}
    (h : b.Mapped chunks) : Valid (blockId b) := by
  obtain ⟨h1, h2, h3, c, hc, -⟩ := h
  have hlt := (List.getElem?_eq_some_iff.1 hc).1
  have hnot := Bus.toInt_complement b.chunkID
  have hneg : b.chunkID.toInt < 0 := by omega
  refine ⟨⟨Int16.lt_iff_toInt_lt.2 hneg, Int16.le_iff_toInt_le.2 h2⟩, ?_, h3⟩
  change -(MaxChunks : ℤ) ≤ b.chunkID.toInt
  omega

/-- A call of `AllocBlocks` that is about to return has collected blocks as a stripe needs them,
whatever blocks `j` holds. -/
theorem granted_of_finish [DecidableEq ι] (hr : (Bus.bus ι).Reaches Bus.FreesHeld t) {i : ι}
    {c : Bus.Call} (hpc : t.pc i = .finish c) (j : ι) :
    Granted ((t.held j).map blockId) c.count (c.allocated.map blockId) := by
  have h := Bus.inv_of_reaches hr
  obtain ⟨⟨hlen, hmap⟩, hrem⟩ : c.Ok t.chunks ∧ c.remaining = 0 := by
    have := h.pcs i
    rwa [hpc] at this
  have hcol : (t.pc i).collected = c.allocated := by rw [hpc]; rfl
  have hown : (t.held i ++ c.allocated).map Bus.Block.address = t.own i := by
    rw [Bus.State.own, hcol]
  have hnd := h.own.nodup i
  rw [← hown, List.map_append] at hnd
  obtain ⟨-, hnd, hdisj⟩ := List.nodup_append.1 hnd
  -- blocks with the same name have the same address
  have haddr : ∀ b b' : Bus.Block, blockId b = blockId b' → b.address = b'.address := by
    intro b b' hb
    obtain ⟨h1, h2⟩ := Prod.mk.inj hb
    rw [Bus.Block.address, Bus.Block.address, h1, h2]
  refine ⟨?_, ?_, ?_, ?_⟩
  · rw [List.length_map]
    omega
  · intro b hb
    obtain ⟨d, hd, rfl⟩ := List.mem_map.1 hb
    exact valid_of_mapped h.max (hmap d hd)
  · refine List.Pairwise.map _ (fun b b' hne he => hne (haddr b b' he)) (List.pairwise_map.1 hnd)
  · intro b hb hj
    obtain ⟨d, hd, rfl⟩ := List.mem_map.1 hb
    obtain ⟨e, he, hed⟩ := List.mem_map.1 hj
    have hmem : d.address ∈ t.own i := by
      rw [← hown]
      exact List.mem_map_of_mem (List.mem_append_right _ hd)
    have hmemj : d.address ∈ t.own j := by
      rw [← haddr e d hed]
      exact List.mem_map_of_mem (List.mem_append_left _ he)
    obtain rfl := h.own.disjoint i j _ hmem hmemj
    exact hdisj _ (List.mem_map_of_mem he) _ (List.mem_map_of_mem hd) (haddr e d hed)

end Bus

end Mmfg.Shm
