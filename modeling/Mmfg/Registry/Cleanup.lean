import Mmfg.Registry.Basic
import Mmfg.Shm.Represent

/-!
# Cleaning up after a node

`Hub.CleanupResources` goes over the registry, frees the blocks of each stripe that the node owns,
as the header block of the stripe names them, and then its slot.  `Cleaned` says what the loop has
done after some of its rounds.  The loop runs over the slots 0 to 4095 and the registry over 1 to
4096, so the last slot is left as it is.
-/

namespace Mmfg.Registry

open Bus (Word bitAt getBlockAddress)
open Shm (BlockId Bytes Memory Stripe Represents decodeHeader resolve)

/-- What `CleanupResources` changes. -/
structure State where
  ctrl : Control
  bitmap : List Word

/-- The block that the hub slices out of a chunk; `none` is the panic of a missing chunk or of an
offset beyond it. -/
def headerBlock (chunks : ℕ) (mem : Memory) (cid off : Int16) : Option Bytes :=
  let realID := (~~~cid).toInt
  if realID < 0 ∨ chunks ≤ realID then none
  else if off.toInt < 0 ∨ BlocksPerChunk ≤ off.toInt then none
  else some (mem (cid, off))

/-- The loop over the decoded sequence. -/
def freeSequence (chunkID : Int16) : List Int16 → List Word → Option (List Word)
  | [], bitmap => some bitmap
  | id :: seq, bitmap =>
    if id < 0 then freeSequence id seq bitmap
    else do
      let bitmap ← Bus.freeBlock bitmap chunkID id
      freeSequence chunkID seq bitmap

section

variable (chunks : ℕ) (mem : Memory) (nodeID : ℕ)

/-- One round of the loop of `CleanupResources`. -/
def cleanupSlot (i : UInt32) (s : State) : Option State :=
  if getStripeStatus s.ctrl i ≠ StripeStatusIdle then
    let owner := getStripeOwner s.ctrl i
    if owner.toNat = nodeID then do
      let (cid, off) := getStripeHeader s.ctrl i
      let headerBlk ← headerBlock chunks mem cid off
      let (_, _, seq) := decodeHeader headerBlk
      let bitmap ← freeSequence 0 seq s.bitmap
      some ⟨freeSlot s.ctrl i, bitmap⟩
    else some s
  else some s

/-- The first rounds of the loop, for the slots below `n`. -/
def cleanupBelow : ℕ → State → Option State
  | 0, s => some s
  | n + 1, s => do
    let s ← cleanupBelow n s
    cleanupSlot chunks mem nodeID (.ofNat n) s

/-- `CleanupResources`. -/
def cleanupResources (s : State) : Option State := cleanupBelow chunks mem nodeID MaxTotalSlots s

end

/-! ## What it is to do -/

/-- The node owns the stripe in the slot. -/
def Owned (c : Control) (nodeID : ℕ) (slotID : UInt32) : Prop :=
  getStripeStatus c slotID ≠ StripeStatusIdle ∧ (getStripeOwner c slotID).toNat = nodeID

instance (c : Control) (nodeID : ℕ) (slotID : UInt32) : Decidable (Owned c nodeID slotID) :=
  inferInstanceAs (Decidable (_ ∧ _))

/-- The entry names the header block of a stripe in the chunks that are there. -/
def NamesStripe (chunks : ℕ) (mem : Memory) (c : Control) (slotID : UInt32) : Prop :=
  ∃ s : Stripe, Represents s mem ∧ s.header = getStripeHeader c slotID ∧
    ∀ b ∈ s.blocks, -(chunks : ℤ) ≤ b.1.toInt

/-- The blocks that the header block of the slot's stripe names. -/
def decodedBlocks (mem : Memory) (c : Control) (slotID : UInt32) : List BlockId :=
  resolve 0 (decodeHeader (mem (getStripeHeader c slotID))).2.2

/-- Bit `a` stands for one of the blocks of the slot's stripe. -/
def Names (mem : Memory) (c : Control) (slotID : UInt32) (a : ℕ) : Prop :=
  ∃ b ∈ decodedBlocks mem c slotID, getBlockAddress b.1 b.2 = a

/-- The node owns nothing any more, the blocks of what it owned are free, and nothing else has
changed. -/
structure Exact (mem : Memory) (nodeID : ℕ) (s t : State) : Prop where
  none_left : ∀ slotID, Allocatable slotID → ¬ Owned t.ctrl nodeID slotID
  freed : ∀ slotID, Allocatable slotID → Owned s.ctrl nodeID slotID →
    ∀ a, Names mem s.ctrl slotID a → bitAt t.bitmap a = false
  entries : ∀ slotID, Allocatable slotID → ¬ Owned s.ctrl nodeID slotID →
    entry t.ctrl slotID = entry s.ctrl slotID
  bits : ∀ a, (∀ slotID, Allocatable slotID → Owned s.ctrl nodeID slotID →
    ¬ Names mem s.ctrl slotID a) → bitAt t.bitmap a = bitAt s.bitmap a

variable {chunks nodeID n : ℕ} {mem : Memory} {s t : State} {slotID : UInt32}

/-! ## Freeing the blocks of one stripe -/

theorem freeSequence_eq (chunkID : Int16) (seq : List Int16) (bitmap : List Word) :
    freeSequence chunkID seq bitmap =
      (resolve chunkID seq).foldlM (fun bm b => Bus.freeBlock bm b.1 b.2) bitmap := by
  induction seq generalizing chunkID bitmap with
  | nil => rfl
  | cons id seq ih =>
    unfold freeSequence resolve
    split_ifs
    · exact ih id bitmap
    · rw [List.foldlM_cons]
      exact bind_congr fun bm => ih chunkID bm

theorem freeBlocks_spec {blocks : List BlockId}
    (h : ∀ b ∈ blocks, 0 ≤ getBlockAddress b.1 b.2) (bitmap : List Word) :
    ∃ bitmap', blocks.foldlM (fun bm b => Bus.freeBlock bm b.1 b.2) bitmap = some bitmap' ∧
      ∀ a : ℕ, bitAt bitmap' a = true ↔
        bitAt bitmap a = true ∧ ∀ b ∈ blocks, getBlockAddress b.1 b.2 ≠ a := by
  induction blocks generalizing bitmap with
  | nil => exact ⟨bitmap, rfl, fun a => by simp⟩
  | cons b blocks ih =>
    obtain ⟨k, hk⟩ := Int.eq_ofNat_of_zero_le (h b List.mem_cons_self)
    obtain ⟨bm, hfree, hbm⟩ := Bus.freeBlock_spec hk bitmap
    obtain ⟨bm', hrest, hbm'⟩ := ih (fun x hx => h x (List.mem_cons_of_mem b hx)) bm
    refine ⟨bm', ?_, fun a => ?_⟩
    · rw [List.foldlM_cons, hfree]
      exact hrest
    · have hne : getBlockAddress b.1 b.2 ≠ (a : ℤ) ↔ a ≠ k := by
        rw [hk]
        omega
      rw [hbm', hbm, List.forall_mem_cons, hne, and_assoc]

/-- What a well-formed stripe in the slot gives to the loop: a header block to read and blocks of
the bitmap to free. -/
theorem NamesStripe.spec (h : NamesStripe chunks mem s.ctrl slotID) :
    headerBlock chunks mem (getStripeHeader s.ctrl slotID).1 (getStripeHeader s.ctrl slotID).2 =
        some (mem (getStripeHeader s.ctrl slotID)) ∧
      ∀ b ∈ decodedBlocks mem s.ctrl slotID, 0 ≤ getBlockAddress b.1 b.2 := by
  obtain ⟨r, hr, hheader, hchunks⟩ := h
  have hmem : r.header ∈ r.blocks := by
    rw [r.header_cons hr.nonempty]
    exact List.mem_cons_self
  rw [decodedBlocks, ← hheader, hr.header]
  constructor
  · obtain ⟨⟨hneg, hpos⟩, -, hlt⟩ := hr.valid _ hmem
    have hnot := Bus.toInt_complement r.header.1
    have h1 := Int16.lt_iff_toInt_lt.1 hneg
    have h2 := Int16.le_iff_toInt_le.1 hpos
    have h3 := hchunks _ hmem
    rw [Int16.toInt_zero] at h1 h2
    unfold headerBlock
    rw [if_neg (by omega), if_neg (by omega)]
  · intro b hb
    rw [hr.sequence, Shm.resolve_encode hr.toWf.blk] at hb
    obtain ⟨hneg, hidx⟩ := hr.toWf.blk b hb
    have hnot := Bus.toInt_complement b.1
    have h1 := Int16.lt_iff_toInt_lt.1 hneg
    have h2 := Int16.le_iff_toInt_le.1 hidx
    rw [Int16.toInt_zero] at h1 h2
    have hpos : 0 ≤ (~~~b.1).toInt * (BlocksPerChunk : ℤ) := by
      apply mul_nonneg <;> omega
    exact add_nonneg hpos h2

/-! ## The loop -/

/-- After the rounds for the slots below `n`. -/
structure Cleaned (mem : Memory) (nodeID : ℕ) (s : State) (n : ℕ) (t : State) : Prop where
  owner : ∀ slotID, getStripeOwner t.ctrl slotID = getStripeOwner s.ctrl slotID
  header : ∀ slotID, getStripeHeader t.ctrl slotID = getStripeHeader s.ctrl slotID
  status : ∀ slotID, getStripeStatus t.ctrl slotID =
    if slotID.toNat < n ∧ Owned s.ctrl nodeID slotID then StripeStatusIdle
    else getStripeStatus s.ctrl slotID
  bits : ∀ a, bitAt t.bitmap a = true ↔ bitAt s.bitmap a = true ∧
    ∀ slotID : UInt32, slotID.toNat < n → Owned s.ctrl nodeID slotID → ¬ Names mem s.ctrl slotID a

theorem Cleaned.zero : Cleaned mem nodeID s 0 s where
  owner _ := rfl
  header _ := rfl
  status slotID := by rw [if_neg fun h => Nat.not_lt_zero _ h.1]
  bits a := ⟨fun h => ⟨h, fun slotID hlt => absurd hlt (Nat.not_lt_zero _)⟩, And.left⟩

/-- The slot of the next round is still as it was. -/
theorem Cleaned.owned_iff (h : Cleaned mem nodeID s n t) (hn : n ≤ slotID.toNat) :
    Owned t.ctrl nodeID slotID ↔ Owned s.ctrl nodeID slotID := by
  unfold Owned
  rw [h.owner, h.status, if_neg fun hc => absurd hc.1 (by omega)]

theorem lt_succ_iff (hn : slotID.toNat = n) (i : UInt32) :
    i.toNat < n + 1 ↔ i.toNat < n ∨ i = slotID := by
  rw [← UInt32.toNat_inj]
  omega

theorem Cleaned.skip (h : Cleaned mem nodeID s n t) (hn : slotID.toNat = n)
    (hown : ¬ Owned s.ctrl nodeID slotID) : Cleaned mem nodeID s (n + 1) t where
  owner := h.owner
  header := h.header
  status i := by
    have hiff : i.toNat < n + 1 ∧ Owned s.ctrl nodeID i ↔ i.toNat < n ∧ Owned s.ctrl nodeID i := by
      rw [lt_succ_iff hn]
      refine and_congr_left fun hi => or_iff_left ?_
      rintro rfl
      exact hown hi
    rw [h.status]
    simp only [hiff]
  bits a := by
    rw [h.bits]
    refine and_congr_right fun _ => ⟨fun hall i hi => ?_, fun hall i hi => hall i (by omega)⟩
    rcases (lt_succ_iff hn i).1 hi with hlt | rfl
    · exact hall i hlt
    · exact fun ho => absurd ho hown

theorem Cleaned.free (h : Cleaned mem nodeID s n t) (hn : slotID.toNat = n)
    (hown : Owned s.ctrl nodeID slotID) {bitmap : List Word}
    (hbits : ∀ a, bitAt bitmap a = true ↔ bitAt t.bitmap a = true ∧ ¬ Names mem s.ctrl slotID a) :
    Cleaned mem nodeID s (n + 1) ⟨freeSlot t.ctrl slotID, bitmap⟩ where
  owner i := getStripeOwner_freeSlot.trans (h.owner i)
  header i := getStripeHeader_freeSlot.trans (h.header i)
  status i := by
    rw [getStripeStatus_freeSlot, h.status]
    by_cases hi : i = slotID
    · subst hi
      rw [if_pos rfl, if_pos ⟨by omega, hown⟩]
    · have hiff : i.toNat < n + 1 ↔ i.toNat < n := by
        rw [lt_succ_iff hn, or_iff_left hi]
      rw [if_neg hi]
      simp only [hiff]
  bits a := by
    rw [hbits, h.bits, and_assoc]
    refine and_congr_right fun _ => ⟨?_, fun hall => ⟨?_, hall slotID (by omega) hown⟩⟩
    · rintro ⟨hall, hlast⟩ i hi ho
      rcases (lt_succ_iff hn i).1 hi with hlt | rfl
      · exact hall i hlt ho
      · exact hlast
    · exact fun i hi => hall i (by omega)

theorem cleanupSlot_spec (h : Cleaned mem nodeID s n t) (hn : slotID.toNat = n)
    (hstripe : Owned s.ctrl nodeID slotID → NamesStripe chunks mem s.ctrl slotID) :
    ∃ u, cleanupSlot chunks mem nodeID slotID t = some u ∧ Cleaned mem nodeID s (n + 1) u := by
  by_cases hown : Owned s.ctrl nodeID slotID
  · obtain ⟨hblock, haddr⟩ := (hstripe hown).spec
    obtain ⟨bitmap, hfree, hbits⟩ := freeBlocks_spec haddr t.bitmap
    obtain ⟨hstatus, howner⟩ := (h.owned_iff hn.ge).2 hown
    refine ⟨⟨freeSlot t.ctrl slotID, bitmap⟩, ?_, h.free hn hown fun a => ?_⟩
    · unfold cleanupSlot
      rw [if_pos hstatus, if_pos howner, h.header]
      simp only [hblock, Option.bind_eq_bind, Option.bind_some, freeSequence_eq]
      rw [← decodedBlocks, hfree]
      rfl
    · rw [hbits, Names]
      push Not
      rfl
  · refine ⟨t, ?_, h.skip hn hown⟩
    rw [← h.owned_iff hn.ge, Owned, not_and] at hown
    unfold cleanupSlot
    by_cases hstatus : getStripeStatus t.ctrl slotID ≠ StripeStatusIdle
    · rw [if_pos hstatus, if_neg (hown hstatus)]
    · rw [if_neg hstatus]

theorem cleanupBelow_spec
    (h : ∀ slotID, Allocatable slotID → getStripeStatus s.ctrl slotID ≠ StripeStatusIdle →
      NamesStripe chunks mem s.ctrl slotID) (hn : n ≤ MaxTotalSlots) :
    ∃ t, cleanupBelow chunks mem nodeID n s = some t ∧ Cleaned mem nodeID s n t := by
  induction n with
  | zero => exact ⟨s, rfl, .zero⟩
  | succ n ih =>
    obtain ⟨t, hrun, ht⟩ := ih (by omega)
    have hslot : (UInt32.ofNat n).toNat = n :=
      UInt32.toNat_ofNat_of_lt' (by simp only [UInt32.size, MaxTotalSlots] at *; omega)
    -- slot 0 reads as idle, so that an owned slot is one of the registry
    have hstripe : Owned s.ctrl nodeID (.ofNat n) → NamesStripe chunks mem s.ctrl (.ofNat n) := by
      intro ho
      refine h _ (allocatable_iff.2 ⟨?_, by omega⟩) ho.1
      rw [hslot, Nat.one_le_iff_ne_zero]
      rintro rfl
      exact ho.1 getStripeStatus_zero
    obtain ⟨u, hstep, hu⟩ := cleanupSlot_spec ht hslot hstripe
    refine ⟨u, ?_, hu⟩
    rw [cleanupBelow, hrun]
    exact hstep

/-! ## Complete and exact -/

/-- The number of the last slot of the registry. -/
abbrev lastSlot : UInt32 := 4096

theorem Cleaned.exact (h : Cleaned mem nodeID s MaxTotalSlots t)
    (hlast : ¬ Owned s.ctrl nodeID lastSlot) : Exact mem nodeID s t := by
  -- the slots of the registry that the node owns are among those of the loop
  have hlt : ∀ slotID, Allocatable slotID → Owned s.ctrl nodeID slotID →
      slotID.toNat < MaxTotalSlots := by
    intro slotID ha ho
    refine lt_of_le_of_ne (allocatable_iff.1 ha).2 fun he => hlast ?_
    rwa [show slotID = lastSlot from UInt32.toNat_inj.1 he] at ho
  refine ⟨?_, ?_, ?_, ?_⟩
  · rintro slotID ha ⟨hstatus, howner⟩
    rw [h.owner] at howner
    rw [h.status] at hstatus
    split_ifs at hstatus with hc
    · exact hstatus rfl
    · exact hc ⟨hlt slotID ha ⟨hstatus, howner⟩, hstatus, howner⟩
  · intro slotID ha ho a hnames
    rw [← Bool.not_eq_true, h.bits]
    exact fun hc => hc.2 slotID (hlt slotID ha ho) ho hnames
  · intro slotID _ ho
    rw [entry, entry, h.owner, h.header, h.status, if_neg fun hc => ho hc.2]
  · intro a hall
    rw [Bool.eq_iff_iff, h.bits]
    refine and_iff_left fun slotID hlt ho => hall slotID (allocatable_iff.2 ⟨?_, hlt.le⟩) ho
    rw [Nat.one_le_iff_ne_zero]
    intro h0
    rw [show slotID = 0 from UInt32.toNat_inj.1 h0] at ho
    exact ho.1 getStripeStatus_zero

/-- What the loop has left alone is still owned. -/
theorem Cleaned.owned_lastSlot (h : Cleaned mem nodeID s MaxTotalSlots t)
    (hlast : Owned s.ctrl nodeID lastSlot) : Owned t.ctrl nodeID lastSlot :=
  (h.owned_iff (by decide)).2 hlast

/-- Cleaning up after a node is complete and exact if and only if the node does not own the last
slot. -/
theorem cleanup_exact_iff (chunks : ℕ) (mem : Memory) (nodeID : ℕ) (s : State)
    (h : ∀ slotID, Allocatable slotID → getStripeStatus s.ctrl slotID ≠ StripeStatusIdle →
      NamesStripe chunks mem s.ctrl slotID) :
    (∃ t, cleanupResources chunks mem nodeID s = some t ∧ Exact mem nodeID s t) ↔
      ¬ Owned s.ctrl nodeID lastSlot := by
  obtain ⟨t, hrun, ht⟩ := cleanupBelow_spec h le_rfl
  constructor
  · rintro ⟨t', hrun', hexact⟩ hlast
    obtain rfl : t = t' := Option.some.inj (hrun.symm.trans hrun')
    exact hexact.none_left lastSlot (allocatable_iff.2 (by decide)) (ht.owned_lastSlot hlast)
  · exact fun hlast => ⟨t, hrun, ht.exact hlast⟩

/-! ## A registry with one stripe -/

/-- A stripe of two blocks and its memory. -/
def oneStripe : Stripe × Memory := Stripe.create [(-1, 256), (-1, 257)] fun _ _ => 0

/-- Node 1 owns the stripe, in the slot `slotID`; the blocks before it are those of the control
stripe. -/
def oneOwned (slotID : UInt32) : State where
  ctrl := setStripe (fun _ => 0) slotID 1 (-1) 256 1
  bitmap := List.replicate 8 (BitVec.allOnes 32) ++ 3 :: List.replicate 23 0

theorem entry_oneOwned (h : Allocatable slotID) :
    entry (oneOwned slotID).ctrl slotID = (1, (-1, 256), 1) := by
  rw [oneOwned, entry_setStripe h, if_pos rfl]

theorem owned_oneOwned (h : Allocatable slotID) : Owned (oneOwned slotID).ctrl 1 slotID := by
  have he := entry_oneOwned h
  simp only [entry, Prod.mk.injEq] at he
  rw [Owned, he.1, he.2.2]
  decide

theorem idle_oneOwned (h : Allocatable slotID) {i : UInt32} (hi : i ≠ slotID) :
    getStripeStatus (oneOwned slotID).ctrl i = StripeStatusIdle := by
  have he : entry (oneOwned slotID).ctrl i = entry (fun _ => 0) i := by
    rw [oneOwned, entry_setStripe h, if_neg hi]
  have hstatus := congrArg Prod.fst he
  simp only [entry, getStripeStatus, readU32] at hstatus ⊢
  rw [hstatus]
  split <;> rfl

theorem namesStripe_oneOwned (h : Allocatable slotID) (i : UInt32)
    (hi : getStripeStatus (oneOwned slotID).ctrl i ≠ StripeStatusIdle) :
    NamesStripe 1 oneStripe.2 (oneOwned slotID).ctrl i := by
  obtain rfl : i = slotID := by
    by_contra hne
    exact hi (idle_oneOwned h hne)
  have he := entry_oneOwned h
  simp only [entry, Prod.mk.injEq] at he
  have hgranted : Shm.Granted [] 2 [(-1, 256), (-1, 257)] := by decide
  refine ⟨oneStripe.1, .create hgranted (by decide) (by decide) _, ?_, by decide⟩
  rw [he.2.1]
  rfl

/-- Node 1 owns slot 5: the slot and the blocks 256 and 257 are free afterwards. -/
theorem cleanup_exact_slot5 : ∃ t, cleanupResources 1 oneStripe.2 1 (oneOwned 5) = some t ∧
    Exact oneStripe.2 1 (oneOwned 5) t := by
  have h5 : Allocatable 5 := allocatable_iff.2 (by decide)
  refine (cleanup_exact_iff 1 oneStripe.2 1 (oneOwned 5)
    fun i _ => namesStripe_oneOwned h5 i).2 fun hlast => ?_
  exact hlast.1 (idle_oneOwned h5 (by decide))

/-- Node 1 owns the last slot, and still does after it is gone. -/
theorem cleanup_misses_last_slot :
    (∀ i, getStripeStatus (oneOwned 4096).ctrl i ≠ StripeStatusIdle →
      NamesStripe 1 oneStripe.2 (oneOwned 4096).ctrl i) ∧
    Allocatable 4096 ∧ ∃ t, cleanupResources 1 oneStripe.2 1 (oneOwned 4096) = some t ∧
      Owned t.ctrl 1 4096 ∧ bitAt t.bitmap 256 = true := by
  have hlast : Allocatable 4096 := allocatable_iff.2 (by decide)
  obtain ⟨t, hrun, ht⟩ : ∃ t, cleanupBelow 1 oneStripe.2 1 MaxTotalSlots (oneOwned 4096) = some t ∧
      Cleaned oneStripe.2 1 (oneOwned 4096) MaxTotalSlots t :=
    cleanupBelow_spec (fun i _ => namesStripe_oneOwned hlast i) le_rfl
  refine ⟨namesStripe_oneOwned hlast, hlast, t, hrun,
    ht.owned_lastSlot (owned_oneOwned hlast), ?_⟩
  refine (ht.bits 256).2 ⟨by decide, fun i hi ho => absurd (idle_oneOwned hlast ?_) ho.1⟩
  rintro rfl
  exact absurd hi (by decide)

end Mmfg.Registry
