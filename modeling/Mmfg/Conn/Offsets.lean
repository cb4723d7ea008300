import Mmfg.Conn.Expansion

/-!
# Writes at any offset

Before a positional write, hub and node compute the end of the write, the hub then the blocks that it
lacks, all as `int`s and from an offset that the caller chooses.  The end can be negative, and such
a write passes every check; the number of blocks can be more than `make` can serve, or negative.  Up to
there the hub's writes are clean, all or nothing, and the node's are as long as they need no expansion
(`writeAt_clean_iff`).
-/

namespace Mmfg.Conn

open File Shm
open Bus (MakeLimit CanMake)

/-! ## What can go wrong -/

/-- Everything was written, or there is an error and nothing was. -/
def CleanWrite (s : Stripe) (mem : Memory) (p : List UInt8) (off : ℤ)
    (r : (Stripe × Memory) × ℕ × Option IOError) : Prop :=
  (r.2 = (p.length, none) ∧ window (r.1.1.content r.1.2) off.toNat p.length = p) ∨
    ∃ err, err ≠ .panic ∧ r.2 = (0, some err) ∧ r.1 = (s, mem)

/-- The hub's write is clean, passes the test of the capacity only if it fits, and calls `AllocBlocks`
only for as many blocks as `make` can serve. -/
def BusConn.WritesCleanly (limit : MakeLimit) (c : BusConn) (mem : Memory) (p : List UInt8) (off : ℤ)
    (alloc : Option (List BlockId)) : Prop :=
  let r := c.writeAt mem p off alloc
  let needed := int64 (off + p.length)
  CleanWrite c.stripe mem p off ((r.1.1.stripe, r.1.2), r.2) ∧
    (needed ≤ userCap c.stripe → off + p.length ≤ userCap c.stripe) ∧
    (userCap c.stripe < needed → CanMake limit (blocksNeeded c.stripe needed))

/-- The node's write returns and is clean, and passes the test of the size only if it is within the
limit. -/
def NodeConn.WritesCleanly (c : NodeConn) (mem : Memory) (p : List UInt8) (off : ℤ)
    (answers : List (Option Memory)) : Prop :=
  (∃ r, c.writeAt mem p off answers = some r ∧
    CleanWrite c.stripe mem p off ((r.1.1.stripe, r.1.2), r.2)) ∧
    (int64 (off + p.length) ≤ StripeDataSizeLimit → off + p.length ≤ StripeDataSizeLimit)

/-- The stripe of a node's connection; its block count may be older than its blocks. -/
structure NodeStripe (s : Stripe) : Prop where
  nodup : s.blocks.Nodup
  pos : 1 ≤ s.blockCount
  count : s.blockCount ≤ s.blocks.length
  length : s.blocks.length < 2 ^ 16

variable {mem : Memory} {p : List UInt8} {off : ℤ}

theorem cleanWrite_of_fits {s s' : Stripe} {mem' : Memory} (hne : s'.blocks ≠ [])
    (hnd : s'.blocks.Nodup) (h0 : 0 ≤ off) (hoff : off + BlockSize < 2 ^ 63)
    (hfit : off + p.length ≤ s'.capacity) : CleanWrite s mem p off (s'.writeAt mem' p off) :=
  .inl ⟨Stripe.writeAt_of_fits h0 hoff hfit, Stripe.window_writeAt_of_fits hne hnd h0 hoff hfit⟩

/-! ## The hub -/

section Hub

variable {c : BusConn} {alloc : Option (List BlockId)}

theorem blocksNeeded_eq {s : Stripe} {needed : ℤ} (hn : userCap s < needed)
    (hlt : needed - userCap s + BlockSize ≤ 2 ^ 63) :
    blocksNeeded s needed = (needed - userCap s + BlockSize - 1) / BlockSize := by
  rw [blocksNeeded, int64_eq (by omega) (by omega), Int.tdiv_eq_ediv_of_nonneg (by omega)]

theorem canMake_iff {s : Stripe} {needed : ℤ} (limit : MakeLimit) (h0 : 0 ≤ userCap s)
    (hn : userCap s < needed) (hlt : needed < 2 ^ 63) :
    CanMake limit (blocksNeeded s needed) ↔ needed ≤ userCap s + limit.blocks * BlockSize := by
  have hblock : (BlockSize : ℤ) = 4096 := rfl
  have hmax : (limit.blocks : ℤ) ≤ 8796093022208 := Int.ofNat_le.2 limit.max
  by_cases hover : needed - userCap s + BlockSize ≤ 2 ^ 63
  · rw [CanMake, blocksNeeded_eq hn hover, hblock]
    omega
  · -- the sum wraps around, and the quotient is negative
    have hneg : blocksNeeded s needed < 0 := by
      rw [blocksNeeded, int64_of_ge (by omega) (by omega), hblock]
      have := Int.tdiv_le_tdiv (show (0 : ℤ) < 4096 by decide)
        (show needed - userCap s + 4096 - 1 - 2 ^ 64 ≤ -4096 by omega)
      exact this.trans_lt (by decide)
    rw [CanMake, hblock]
    omega

/-- The hub's write is clean exactly up to the size that `make` can serve. -/
theorem hub_writesCleanly_iff (limit : MakeLimit) (hwf : c.stripe.Wf) (h0 : 0 ≤ off)
    (hoff : off < 2 ^ 63) (hlen : p.length < 2 ^ 63) (hans : c.Answers (.writeAt p off) alloc) :
    c.WritesCleanly limit mem p off alloc ↔
      off + p.length ≤ userCap c.stripe + limit.blocks * BlockSize := by
  have hblock : (BlockSize : ℤ) = 4096 := rfl
  have hmax : (limit.blocks : ℤ) ≤ 8796093022208 := Int.ofNat_le.2 limit.max
  have hmul : (limit.blocks : ℤ) * BlockSize = limit.blocks * 4096 := rfl
  have hcap := hwf.capacity_lt
  have huser := userCap_eq hwf
  have huser0 : 0 ≤ userCap c.stripe := by omega
  unfold BusConn.WritesCleanly
  by_cases hwrap : off + p.length < 2 ^ 63
  · have hint : int64 (off + p.length) = off + p.length := int64_eq (by omega) (by omega)
    rw [hint]
    constructor
    · rintro ⟨-, -, hmake⟩
      by_cases hn : userCap c.stripe < off + p.length
      · exact (canMake_iff limit huser0 hn hwrap).1 (hmake hn)
      · omega
    · intro hle
      refine ⟨?_, id, fun hn => (canMake_iff limit huser0 hn hwrap).2 hle⟩
      rcases writeAt_cases mem hwf h0 (by omega) hans with ⟨-, hw⟩ | ⟨-, s₁, mem₁, hg, hfit, hw⟩
      · rw [hw]
        exact .inr ⟨.allocFailed, by decide, rfl, rfl⟩
      · rw [hw]
        exact cleanWrite_of_fits hg.wf.nonempty hg.wf.nodup h0 (hg.wf.off_lt (by omega)) hfit
  · -- the end of the write is negative, and passes the test
    have hint : int64 (off + p.length) = off + p.length - 2 ^ 64 := int64_of_ge (by omega) (by omega)
    rw [hint]
    refine iff_of_false (fun hclean => ?_) (by omega)
    have := hclean.2.1 (by omega)
    omega

end Hub

/-! ## Nodes -/

section Node

variable {c : NodeConn} {needCap : ℤ} {answers : List (Option Memory)}

theorem header_onExpandComplete {s : Stripe} (hne : s.blocks ≠ []) (m : Memory) :
    (onExpandComplete s m).header = s.header := by
  obtain ⟨b, bs, hb⟩ := List.exists_cons_of_ne_nil hne
  rw [Stripe.header, Stripe.header, onExpandComplete, hb]
  rfl

theorem expandLoop_of_full {r : (NodeConn × Memory) × Option IOError} {k : ℕ}
    (h : needCap > userCap c.stripe) (hne : c.stripe.blocks ≠ [])
    (hgrow : ∀ m, some m ∈ answers → k < (decodeHeader (m c.stripe.header)).2.2.length)
    (hr : NodeConn.expandLoop needCap answers c mem = some r) :
    r.2 = some .expandFailed ∧
      (k < c.stripe.sequence.length → k < r.1.1.stripe.sequence.length) := by
  induction answers generalizing c mem with
  | nil =>
    rw [NodeConn.expandLoop, if_pos h] at hr
    cases hr
  | cons a as ih =>
    cases a with
    | none =>
      rw [NodeConn.expandLoop, if_pos h] at hr
      cases hr
      exact ⟨rfl, id⟩
    | some m =>
      rw [NodeConn.expandLoop, if_pos h] at hr
      have hlong := hgrow m List.mem_cons_self
      obtain ⟨herr, hkeep⟩ := ih (c := { c with stripe := onExpandComplete c.stripe m }) h
        (List.append_ne_nil_of_left_ne_nil hne _) (fun m' hm' => by
          rw [header_onExpandComplete hne]
          exact hgrow m' (List.mem_cons_of_mem _ hm')) hr
      exact ⟨herr, fun _ => hkeep hlong⟩

theorem expandLoop_of_fits (h : needCap ≤ userCap c.stripe) :
    NodeConn.expandLoop needCap answers c mem = some ((c, mem), none) := by
  cases answers with
  | nil => rw [NodeConn.expandLoop, if_neg (by omega)]
  | cons a as => cases a <;> rw [NodeConn.expandLoop, if_neg (by omega)]

/-- A refusal after an expansion was granted leaves a stripe with a longer sequence. -/
theorem expandLoop_granted_refused {r : (NodeConn × Memory) × Option IOError} {m : Memory}
    (h : needCap > userCap c.stripe) (hne : c.stripe.blocks ≠ [])
    (hgrow : ∀ m', some m' ∈ some m :: answers →
      c.stripe.sequence.length < (decodeHeader (m' c.stripe.header)).2.2.length)
    (hr : NodeConn.expandLoop needCap (some m :: answers) c mem = some r) :
    r.2 = some .expandFailed ∧ c.stripe.sequence.length < r.1.1.stripe.sequence.length := by
  rw [NodeConn.expandLoop, if_pos h] at hr
  obtain ⟨herr, hlong⟩ := expandLoop_of_full (c := { c with stripe := onExpandComplete c.stripe m })
    (k := c.stripe.sequence.length) h (List.append_ne_nil_of_left_ne_nil hne _)
    (fun m' hm' => by
      rw [header_onExpandComplete hne]
      exact hgrow m' (List.mem_cons_of_mem _ hm')) hr
  exact ⟨herr, hlong (hgrow m List.mem_cons_self)⟩

/-- The node's write is clean exactly if its end does not wrap around, and no expansion is needed or
the first one is refused. -/
theorem node_writesCleanly_iff (hs : NodeStripe c.stripe) (h0 : 0 ≤ off) (hoff : off < 2 ^ 63)
    (hlen : p.length < 2 ^ 63)
    (hgrow : ∀ m, some m ∈ answers →
      c.stripe.sequence.length < (decodeHeader (m c.stripe.header)).2.2.length) :
    c.WritesCleanly mem p off answers ↔ off + p.length < 2 ^ 63 ∧
      (off + p.length ≤ userCap c.stripe ∨ StripeDataSizeLimit < off + p.length ∨
        answers.head? = some none) := by
  have hblock : (BlockSize : ℤ) = 4096 := rfl
  have hlimit : (StripeDataSizeLimit : ℤ) = 2097152 := rfl
  have hne : c.stripe.blocks ≠ [] := List.length_pos_iff.1 (hs.pos.trans hs.count)
  have hcap : userCap c.stripe ≤ c.stripe.capacity ∧ c.stripe.capacity < 2 ^ 28 := by
    have h1 := hs.pos
    have h2 := hs.count
    have h3 := hs.length
    rw [userCap, Stripe.capacity, List.length_tail, hblock]
    simp only [BlockSize]
    omega
  unfold NodeConn.WritesCleanly
  by_cases hwrap : off + p.length < 2 ^ 63
  · have hint : int64 (off + p.length) = off + p.length := int64_eq (by omega) (by omega)
    rw [hint, and_iff_left id, and_iff_right hwrap]
    unfold NodeConn.writeAt NodeConn.prepare
    rw [hint]
    by_cases hlim : off + p.length > StripeDataSizeLimit
    · rw [if_pos hlim]
      exact iff_of_true ⟨_, rfl, .inr ⟨.limitReached, by decide, rfl, rfl⟩⟩ (.inr (.inl hlim))
    rw [if_neg hlim]
    by_cases hfit : off + p.length ≤ userCap c.stripe
    · rw [expandLoop_of_fits hfit]
      refine iff_of_true ⟨_, rfl, ?_⟩ (.inl hfit)
      exact cleanWrite_of_fits hne hs.nodup h0 (by omega)
        (show off + p.length ≤ c.stripe.capacity by omega)
    · have hfull : off + p.length > userCap c.stripe := by omega
      rw [or_iff_right hfit, or_iff_right hlim]
      cases answers with
      | nil =>
        rw [NodeConn.expandLoop, if_pos hfull]
        refine iff_of_false ?_ (by simp)
        rintro ⟨r, hr, -⟩
        cases hr
      | cons a as =>
        cases a with
        | none =>
          rw [NodeConn.expandLoop, if_pos hfull]
          exact iff_of_true ⟨_, rfl, .inr ⟨.expandFailed, by decide, rfl, rfl⟩⟩ rfl
        | some m =>
          refine iff_of_false ?_ (by simp)
          rintro ⟨r, hr, hclean⟩
          obtain ⟨r', hr', rfl⟩ := Option.map_eq_some_iff.1 hr
          obtain ⟨herr, hlong⟩ := expandLoop_granted_refused hfull hne hgrow hr'
          rw [herr] at hclean
          rcases hclean with ⟨he, -⟩ | ⟨err, -, -, he⟩
          · cases congrArg Prod.snd he
          · rw [show r'.1.1.stripe = c.stripe from congrArg Prod.fst he] at hlong
            exact absurd hlong (lt_irrefl _)
  · have hint : int64 (off + p.length) = off + p.length - 2 ^ 64 := int64_of_ge (by omega) (by omega)
    rw [hint]
    refine iff_of_false (fun hclean => ?_) (by omega)
    have := hclean.2 (by omega)
    omega

end Node

/-! ## Both -/

/-- The offsets for which positional writes are clean, of the hub for any memory that its process has
and any answer of `AllocBlocks`, and of a node for any answers of the hub. -/
theorem writeAt_clean_iff (p : List UInt8) (off : ℤ) (h0 : 0 ≤ off) (hoff : off < 2 ^ 63)
    (hlen : p.length < 2 ^ 63) (mem : Memory) :
    (∀ (limit : MakeLimit) (c : BusConn) (alloc : Option (List BlockId)), c.stripe.Wf →
      c.Answers (.writeAt p off) alloc →
      (c.WritesCleanly limit mem p off alloc ↔
        off + p.length ≤ userCap c.stripe + limit.blocks * BlockSize)) ∧
    ∀ (c : NodeConn) (answers : List (Option Memory)), NodeStripe c.stripe →
      (∀ m, some m ∈ answers →
        c.stripe.sequence.length < (decodeHeader (m c.stripe.header)).2.2.length) →
      (c.WritesCleanly mem p off answers ↔ off + p.length < 2 ^ 63 ∧
        (off + p.length ≤ userCap c.stripe ∨ StripeDataSizeLimit < off + p.length ∨
          answers.head? = some none)) :=
  ⟨fun limit _ _ hwf hans => hub_writesCleanly_iff limit hwf h0 hoff hlen hans,
    fun _ _ hs hgrow => node_writesCleanly_iff hs h0 hoff hlen hgrow⟩

/-- The hub's connection to a stripe of two blocks. -/
def twoBlockBus : BusConn := ⟨twoBlockStripe.1, 0, 0⟩

theorem twoBlock_wf : twoBlockBus.stripe.Wf := by
  have hgranted : Granted [] 2 [(-1, 256), (-1, 257)] := by decide
  exact Stripe.Wf.create hgranted (by decide)

theorem twoBlock_nodeStripe : NodeStripe twoBlockConn.stripe := by
  have h := onStripe_twoBlocks
  exact ⟨h.nodup_blocks, h.pos, h.count, by decide +kernel⟩

/-- A write beyond what the bus can hold is refused cleanly by both, by the hub also if its process has
no more memory than it needs for a full bus. -/
theorem writeAt_clean_far :
    twoBlockBus.WritesCleanly .least twoBlockStripe.2 [1] (2 ^ 28 - 1) none ∧
    twoBlockConn.WritesCleanly twoBlockStripe.2 [1] (2 ^ 28 - 1) [] := by
  obtain ⟨hbus, hnode⟩ := writeAt_clean_iff [1] (2 ^ 28 - 1) (by decide) (by decide) (by decide)
    twoBlockStripe.2
  refine ⟨(hbus .least twoBlockBus none twoBlock_wf nofun).2 (by decide +kernel),
    (hnode twoBlockConn [] twoBlock_nodeStripe nofun).2 ⟨by decide, .inr (.inl (by decide))⟩⟩

/-- At the largest offset the hub and the node panic.  At 2⁶² the hub asks `AllocBlocks` for more blocks
than `make` can serve in any process. -/
theorem writeAt_panics :
    (twoBlockBus.writeAt twoBlockStripe.2 [1] (2 ^ 63 - 1) none).2 = (0, some .panic) ∧
    userCap twoBlockBus.stripe < int64 (2 ^ 62 + 1) ∧
    ¬ CanMake .greatest (blocksNeeded twoBlockBus.stripe (int64 (2 ^ 62 + 1))) ∧
    ∃ r, twoBlockConn.writeAt twoBlockStripe.2 [1] (2 ^ 63 - 1) [] = some r ∧
      r.2 = (0, some .panic) := by
  refine ⟨by decide +kernel, by decide +kernel, by decide +kernel, _, rfl, by decide +kernel⟩

end Mmfg.Conn
