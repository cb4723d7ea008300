import Mmfg.Control.Ring

/-!
# The registry in the bytes of the control region

The methods of `shm.Control` on the stripe registry, called by any number of goroutines of the hub
and of the nodes.  Each step reads, writes or compares and swaps one field of one entry
(`RegLocal.next`).  `registry` makes these accesses in the bytes from `OffStripeRegistry` on,
`records` on a table of records; the bytes do what the table does (`registry_run`).

Rust arithmetic is checked here, as in a debug build.  A release build, where it wraps around, differs
for slot 0 only, which nobody hands out: its entry would be taken to lie before the registry.
-/

namespace Mmfg.Control

open SharedMemory Queue
open Registry (getPointer getStripeEntryOffset OffStripeRegistry StripeEntrySize StripeOffStatus
  StripeOffHeader StripeOffOwner StripeStatusIdle)

/-- `StripeStatusBusy`. -/
abbrev StripeStatusBusy : UInt32 := 1

/-- The fields of an entry. -/
inductive Field where
  | status
  | header
  | owner
  deriving DecidableEq

/-- Where a field is in its entry. -/
def Field.off : Field → ℕ
  | .status => StripeOffStatus
  | .header => StripeOffHeader
  | .owner => StripeOffOwner

/-- An access to a field of the entry of a slot. -/
inductive FieldAccess where
  | read (slotID : UInt32) (f : Field)
  | write (slotID : UInt32) (f : Field) (val : UInt32)
  | cas (slotID : UInt32) (f : Field) (old new : UInt32)
  deriving DecidableEq

/-- The calls of the registry methods. -/
inductive RegCall where
  | allocSlot
  | freeSlot (slotID : UInt32)
  | setStripe (slotID status : UInt32) (headerCID headerOff : Int16) (owner : UInt32)
  | getStripeStatus (slotID : UInt32)
  | getStripeHeader (slotID : UInt32)
  | getStripeOwner (slotID : UInt32)
  | setStripeStatus (slotID status : UInt32)
  deriving DecidableEq

/-- What they return. -/
inductive RegResult where
  | slot (slotID : Option UInt32)
  | word (val : UInt32)
  | header (cid off : Int16)
  | done
  deriving DecidableEq

/-- Where a goroutine is in a call. -/
inductive RegPC where
  | idle
  /-- `AllocSlot` before `c.cursor.Add(1)` -/
  | add
  | scan (start : UInt32) (i : ℕ)
  /-- `SetStripe` before its stores -/
  | putHeader (slotID status combinedHeader owner : UInt32)
  | putOwner (slotID status owner : UInt32)
  /-- the store of a status, the last one of `SetStripe` and the only one of `SetStripeStatus` and
  `FreeSlot` -/
  | putStatus (slotID status : UInt32)
  | get (slotID : UInt32) (f : Field)
  | returned (r : RegResult)
  deriving DecidableEq

/-- No call is in progress. -/
def RegPC.Quiet : RegPC → Bool
  | .idle | .returned _ => true
  | _ => false

/-- The first program point of a call. -/
def RegCall.entry : RegCall → RegPC
  | .allocSlot => .add
  | .freeSlot slotID => .putStatus slotID StripeStatusIdle
  | .setStripe slotID status headerCID headerOff owner =>
    .putHeader slotID status
      ((headerCID.toUInt16.toUInt32 <<< 16) ||| headerOff.toUInt16.toUInt32) owner
  | .getStripeStatus slotID => .get slotID .status
  | .getStripeHeader slotID => .get slotID .header
  | .getStripeOwner slotID => .get slotID .owner
  | .setStripeStatus slotID status => .putStatus slotID status

/-- What a getter makes of the word it reads. -/
def Field.result (val : UInt32) : Field → RegResult
  | .header => .header (val >>> 16).toUInt16.toInt16 (val &&& 0xFFFF).toUInt16.toInt16
  | .status | .owner => .word val

/-- The goroutines that use the registry, and the cursor of the hub's `Control`. -/
structure RegLocal (κ : Type) where
  cursor : UInt32
  pc : κ → RegPC

/-- A thread makes a call, or goes on in it. -/
inductive RegAction (κ : Type) where
  | call (j : κ) (c : RegCall)
  | run (j : κ)

variable {κ : Type} [DecidableEq κ]

namespace RegLocal

/-- Thread `j` goes to another program point. -/
def goto (s : RegLocal κ) (j : κ) (pc : RegPC) : RegLocal κ :=
  { s with pc := Function.update s.pc j pc }

/-- A step of a goroutine, with the field it accesses. -/
def nextRun (s : RegLocal κ) (j : κ) : Option (Option FieldAccess × (UInt32 → RegLocal κ)) :=
  match s.pc j with
  | .idle | .returned _ => none
  | .add =>
    some (none, fun _ => { s.goto j (.scan (s.cursor + 1) 0) with cursor := s.cursor + 1 })
  | .scan start i =>
    if i < MaxTotalSlots then
      let slot := (start + .ofNat i - 1) % .ofNat MaxTotalSlots + 1
      some (some (.cas slot .status StripeStatusIdle StripeStatusBusy), fun ok =>
        if ok = 1 then s.goto j (.returned (.slot (some slot)))
        else s.goto j (.scan start (i + 1)))
    else some (none, fun _ => s.goto j (.returned (.slot none)))
  | .putHeader slotID status combinedHeader owner =>
    some (some (.write slotID .header combinedHeader), fun _ =>
      s.goto j (.putOwner slotID status owner))
  | .putOwner slotID status owner =>
    some (some (.write slotID .owner owner), fun _ => s.goto j (.putStatus slotID status))
  | .putStatus slotID status =>
    some (some (.write slotID .status status), fun _ => s.goto j (.returned .done))
  | .get slotID f =>
    some (some (.read slotID f), fun val => s.goto j (.returned (f.result val)))

/-- The access that comes next, and how the thread goes on with what it has read. -/
def next (s : RegLocal κ) : RegAction κ → Option (Option FieldAccess × (UInt32 → RegLocal κ))
  | .call j c =>
    if (s.pc j).Quiet then some (none, fun _ => s.goto j c.entry) else none
  | .run j => s.nextRun j

/-- No thread is in a call. -/
def start : RegLocal κ := ⟨0, fun _ => .idle⟩

end RegLocal

/-! ## On records -/

/-- The entries of the registry. -/
abbrev Table := UInt32 → Field → UInt32

/-- The entry of the slot lies in the control stripe. -/
def Mapped (slotID : UInt32) : Prop :=
  getStripeEntryOffset slotID + StripeEntrySize ≤ ControlStripeSize

instance (slotID : UInt32) : Decidable (Mapped slotID) := inferInstanceAs (Decidable (_ ≤ _))

/-- A store to a field. -/
def Table.put (t : Table) (slotID : UInt32) (f : Field) (val : UInt32) : Table :=
  Function.update t slotID (Function.update (t slotID) f val)

/-- The access to a table of records; a slot without an entry reads as 0 and is not written. -/
def FieldAccess.perform (t : Table) : FieldAccess → Table × UInt32
  | .read slotID f => (t, t slotID f)
  | .write slotID f val => (if Mapped slotID then t.put slotID f val else t, 0)
  | .cas slotID f old new =>
    if Mapped slotID ∧ t slotID f = old then (t.put slotID f new, 1) else (t, 0)

/-- The access is made on records. -/
def recordsResume (t : Table) : Option FieldAccess × (UInt32 → RegLocal κ) → Table × RegLocal κ
  | (none, k) => (t, k 0)
  | (some acc, k) => ((acc.perform t).1, k (acc.perform t).2)

/-- The registry as a table of records. -/
def records (κ : Type) [DecidableEq κ] : System (Table × RegLocal κ) (RegAction κ) where
  Init x := x = (fun _ _ => 0, .start)
  step x a := (x.2.next a).map (recordsResume x.1)

/-! ## In bytes -/

/-- The offset of a field; in Rust `slot_id as usize - 1` panics for slot 0, if overflow is checked. -/
def fieldOffset (l : Lang) (slotID : UInt32) (f : Field) : Option ℕ :=
  match l with
  | .go => some (getStripeEntryOffset slotID + f.off)
  | .rust => if slotID = 0 then none else some (getStripeEntryOffset slotID + f.off)

/-- The access by an accessor of the language. -/
def FieldAccess.lower {σ : Type} (l : Lang) (acc : FieldAccess) (k : UInt32 → σ) :
    Option (Option Access × (ℕ → σ)) :=
  match acc with
  | .read slotID f => (fieldOffset l slotID f).bind fun off => readU32 l off k
  | .write slotID f val => (fieldOffset l slotID f).bind fun off => writeU32 l off val (k 0)
  | .cas slotID f old new =>
    (fieldOffset l slotID f).bind fun off => casU32 l off old new fun ok => k (if ok then 1 else 0)

/-- The goroutine that acts. -/
def RegAction.thread : RegAction κ → κ
  | .call j _ | .run j => j

/-- The same access as one to the bytes of the region. -/
def lowerNext (lang : κ → Lang) (s : RegLocal κ) (a : RegAction κ) :
    Option (Option Access × (ℕ → RegLocal κ)) :=
  (s.next a).bind fun x =>
    match x with
    | (none, k) => some (none, fun _ => k 0)
    | (some acc, k) => acc.lower (lang a.thread) k

/-- The bytes of the registry, to the end of the region. -/
def registryArea : Set ℕ := Set.Ico OffStripeRegistry ControlStripeSize

section Offsets

variable {l : Lang} {slotID slot' : UInt32} {f f' : Field} {off : ℕ}

theorem Field.off_le (f : Field) : f.off + 4 ≤ StripeEntrySize := by cases f <;> decide

theorem Field.off_inj (h : f.off < f'.off + 4) (h' : f'.off < f.off + 4) : f = f' := by
  simp only [Field.off, StripeOffStatus, StripeOffHeader, StripeOffOwner] at h h'
  cases f <;> cases f' <;> first | rfl | simp at h h'

theorem fieldOffset_eq (h : fieldOffset l slotID f = some off) :
    off = getStripeEntryOffset slotID + f.off := by
  unfold fieldOffset at h
  cases l with
  | go => exact (Option.some.inj h).symm
  | rust =>
    dsimp only at h
    split_ifs at h
    exact (Option.some.inj h).symm

/-- A field has an address exactly if its entry lies in the stripe. -/
theorem getPointer_field (slotID : UInt32) (f : Field) :
    getPointer (getStripeEntryOffset slotID + f.off) =
      if Mapped slotID then some (getStripeEntryOffset slotID + f.off) else none := by
  have hoff := f.off_le
  unfold getPointer
  refine if_congr ?_ rfl rfl
  simp only [Mapped, getStripeEntryOffset, OffStripeRegistry, StripeEntrySize, ControlStripeSize,
    ControlBlocks, BlockSize] at hoff ⊢
  omega

theorem Mapped.field_le (h : Mapped slotID) (f : Field) :
    getStripeEntryOffset slotID + f.off + 4 ≤ ControlStripeSize := by
  have := f.off_le
  unfold Mapped at h
  omega

theorem mapped_of_le (h : getStripeEntryOffset slotID + f.off + 4 ≤ ControlStripeSize) :
    Mapped slotID := by
  simp only [Mapped, getStripeEntryOffset, OffStripeRegistry, StripeEntrySize, ControlStripeSize,
    ControlBlocks, BlockSize] at h ⊢
  omega

theorem field_subset (h : Mapped slotID) (f : Field) :
    Set.Ico (getStripeEntryOffset slotID + f.off) (getStripeEntryOffset slotID + f.off + 4) ⊆
      registryArea :=
  Set.Ico_subset_Ico (by simp only [getStripeEntryOffset]; omega) (h.field_le f)

end Offsets

/-- The slot whose entry is accessed. -/
def FieldAccess.slotID : FieldAccess → UInt32
  | .read slotID _ | .write slotID _ _ | .cas slotID _ _ _ => slotID

/-- The access to the bytes of the field. -/
def FieldAccess.bytes : FieldAccess → Access
  | .read slotID f => .load 4 (getStripeEntryOffset slotID + f.off)
  | .write slotID f val => .store 4 (getStripeEntryOffset slotID + f.off) val.toNat
  | .cas slotID f old new => .cas 4 (getStripeEntryOffset slotID + f.off) old.toNat new.toNat

section Lower

variable {σ : Type} {l : Lang} {acc : FieldAccess} {k : UInt32 → σ} {x : Option Access × (ℕ → σ)}

/-- A field is accessed if its entry lies in the stripe; otherwise the program gets 0, in Go from
the accessor. -/
theorem lower_spec (h : acc.lower l k = some x) :
    (Mapped acc.slotID ∧ x.1 = some acc.bytes ∧
      ∀ m, x.2 (acc.bytes.perform m).2 = k (.ofNat (acc.bytes.perform m).2)) ∨
    (¬ Mapped acc.slotID ∧ x.1 = none ∧ x.2 0 = k 0) := by
  unfold FieldAccess.lower at h
  cases acc with
  | read slotID f =>
    obtain ⟨off, hoff, h⟩ := Option.bind_eq_some_iff.1 h
    obtain rfl := fieldOffset_eq hoff
    unfold readU32 at h
    cases l with
    | go =>
      simp only [getPointer_field] at h
      split_ifs at h with hm <;> cases h
      · exact .inl ⟨hm, rfl, fun m => rfl⟩
      · exact .inr ⟨hm, rfl, rfl⟩
    | rust =>
      dsimp only at h
      split_ifs at h with hle
      cases h
      exact .inl ⟨mapped_of_le hle, rfl, fun m => rfl⟩
  | write slotID f val =>
    obtain ⟨off, hoff, h⟩ := Option.bind_eq_some_iff.1 h
    obtain rfl := fieldOffset_eq hoff
    unfold writeU32 at h
    cases l with
    | go =>
      simp only [getPointer_field] at h
      split_ifs at h with hm <;> cases h
      · exact .inl ⟨hm, rfl, fun m => rfl⟩
      · exact .inr ⟨hm, rfl, rfl⟩
    | rust =>
      dsimp only at h
      split_ifs at h with hle
      cases h
      exact .inl ⟨mapped_of_le hle, rfl, fun m => rfl⟩
  | cas slotID f old new =>
    obtain ⟨off, hoff, h⟩ := Option.bind_eq_some_iff.1 h
    obtain rfl := fieldOffset_eq hoff
    unfold casU32 at h
    -- a compare-and-swap gives 1 or 0
    have hanswer : ∀ m : ByteMemory, k (if ((FieldAccess.cas slotID f old new).bytes.perform m).2 == 1
        then 1 else 0) = k (.ofNat ((FieldAccess.cas slotID f old new).bytes.perform m).2) := by
      intro m
      have hbit : ((FieldAccess.cas slotID f old new).bytes.perform m).2 = 1 ∨
          ((FieldAccess.cas slotID f old new).bytes.perform m).2 = 0 := by
        simp only [FieldAccess.bytes, Access.perform]
        split_ifs
        · exact .inl rfl
        · exact .inr rfl
      rcases hbit with hbit | hbit <;> rw [hbit] <;> rfl
    cases l with
    | go =>
      simp only [getPointer_field] at h
      by_cases hm : Mapped slotID
      · simp only [if_pos hm] at h
        cases h
        exact .inl ⟨hm, rfl, hanswer⟩
      · simp only [if_neg hm] at h
        cases h
        exact .inr ⟨hm, rfl, rfl⟩
    | rust =>
      by_cases hle : getStripeEntryOffset slotID + f.off + 4 ≤ ControlStripeSize
      · simp only [if_pos hle] at h
        cases h
        exact .inl ⟨mapped_of_le hle, rfl, hanswer⟩
      · simp only [if_neg hle] at h
        cases h

theorem lower_within {a : Access} {k' : ℕ → σ} (h : acc.lower l k = some (some a, k')) :
    a.footprint ⊆ registryArea := by
  obtain ⟨hm, hacc, -⟩ | ⟨-, hacc, -⟩ := lower_spec h
  · obtain rfl := Option.some.inj hacc
    cases acc with
    | read slotID f => exact field_subset hm f
    | write slotID f val => exact field_subset hm f
    | cas slotID f old new => exact field_subset hm f
  · cases hacc

end Lower

/-- The registry as a program on the control region. -/
def registry (lang : κ → Lang) : Program (RegLocal κ) (RegAction κ) where
  area := registryArea
  next := lowerNext lang
  within s a acc k h := by
    obtain ⟨⟨acc', k'⟩, -, h⟩ := Option.bind_eq_some_iff.1 h
    cases acc' with
    | none => simp at h
    | some acc' => exact lower_within h

/-- The records that the bytes stand for. -/
def table (m : ByteMemory) : Table := fun slotID f =>
  if Mapped slotID then load32 m (getStripeEntryOffset slotID + f.off) else 0

theorem table_store {m : ByteMemory} {slotID : UInt32} (h : Mapped slotID) (f : Field)
    (val : UInt32) :
    table (m.store (getStripeEntryOffset slotID + f.off) 4 val.toNat) =
      (table m).put slotID f val := by
  funext slot' f'
  unfold table Table.put
  by_cases hslot : slot' = slotID
  · subst hslot
    rw [Function.update_self, if_pos h]
    by_cases hf : f' = f
    · rw [hf, Function.update_self, load32_store]
    · rw [Function.update_of_ne hf]
      refine (load32_store_of_disjoint _ ?_).trans (if_pos h).symm
      by_contra hover
      exact hf (Field.off_inj (by omega) (by omega))
  · rw [Function.update_of_ne hslot]
    have hne : (slot' - 1).toNat ≠ (slotID - 1).toNat := fun he =>
      hslot ((UInt32.sub_left_inj 1).1 (UInt32.toNat_inj.1 he))
    have hoff := f.off_le
    have hoff' := f'.off_le
    split_ifs
    · refine load32_store_of_disjoint _ ?_
      simp only [getStripeEntryOffset, StripeEntrySize] at hoff hoff' ⊢
      omega
    · rfl

/-- The bytes of a field, accessed as the field of the table. -/
theorem bytes_perform {acc : FieldAccess} (hm : Mapped acc.slotID) (m : ByteMemory) :
    table (acc.bytes.perform m).1 = (acc.perform (table m)).1 ∧
      .ofNat (acc.bytes.perform m).2 = (acc.perform (table m)).2 := by
  cases acc with
  | read slotID f => exact ⟨rfl, (if_pos hm).symm⟩
  | write slotID f val =>
    refine ⟨?_, rfl⟩
    have hput : (FieldAccess.write slotID f val).perform (table m) = ((table m).put slotID f val, 0) :=
      congrArg (·, _) (if_pos hm)
    rw [hput]
    exact table_store hm f val
  | cas slotID f old new =>
    have hread : table m slotID f = load32 m (getStripeEntryOffset slotID + f.off) := if_pos hm
    simp only [FieldAccess.bytes, Access.perform, FieldAccess.perform, hread, load_eq_toNat_iff]
    split_ifs with h1 h2 h2
    · exact ⟨table_store hm f new, rfl⟩
    · exact absurd ⟨hm, h1⟩ h2
    · exact absurd h2.2 h1
    · exact ⟨rfl, rfl⟩

theorem perform_of_not_mapped {acc : FieldAccess} (hm : ¬ Mapped acc.slotID) (m : ByteMemory) :
    acc.perform (table m) = (table m, 0) := by
  cases acc with
  | read slotID f => exact congrArg _ (if_neg hm)
  | write slotID f val =>
    rw [FieldAccess.perform]
    exact congrArg (·, _) (if_neg hm)
  | cas slotID f old new => exact if_neg fun h => hm h.1

/-- An access to the bytes does what the access to the table does. -/
theorem lower_perform {σ : Type} {l : Lang} {acc : FieldAccess} {k : UInt32 → σ}
    {x : Option Access × (ℕ → σ)} (h : acc.lower l k = some x) (m : ByteMemory) :
    table (resume m x).1 = (acc.perform (table m)).1 ∧
      (resume m x).2 = k (acc.perform (table m)).2 := by
  have hspec := lower_spec h
  obtain ⟨a, k'⟩ := x
  obtain ⟨hm, rfl, hk⟩ | ⟨hm, rfl, hk⟩ := hspec
  · obtain ⟨hmem, hval⟩ := bytes_perform hm m
    refine ⟨hmem, ?_⟩
    rw [← hval]
    exact hk m
  · rw [perform_of_not_mapped hm]
    exact ⟨rfl, hk⟩

variable {lang : κ → Lang} {m : ByteMemory} {s : RegLocal κ}

theorem registry_step {a : RegAction κ} {y : ByteMemory × RegLocal κ}
    (h : (registry lang).step (m, s) a = some y) :
    (records κ).step (table m, s) a = some (table y.1, y.2) := by
  obtain ⟨x, hnext, rfl⟩ := Option.map_eq_some_iff.1 h
  obtain ⟨⟨acc, k⟩, hnext', hx⟩ := Option.bind_eq_some_iff.1 hnext
  change (s.next a).map (recordsResume (table m)) = _
  rw [hnext', Option.map_some]
  cases acc with
  | none =>
    cases hx
    rfl
  | some acc =>
    obtain ⟨hmem, hlocal⟩ := lower_perform hx m
    rw [hmem, hlocal]
    rfl

/-- A run of the bytes is the same run of the records. -/
theorem registry_run {as : List (RegAction κ)} {init : ByteMemory × RegLocal κ → Prop}
    {y : ByteMemory × RegLocal κ} (h : ((registry lang).alone init).run (m, s) as = some y) :
    (records κ).run (table m, s) as = some (table y.1, y.2) := by
  induction as generalizing m s with
  | nil =>
    cases h
    rfl
  | cons a as ih =>
    rw [System.run_cons, Option.bind_eq_some_iff] at h
    obtain ⟨⟨m', s'⟩, hstep, h⟩ := h
    rw [System.run_cons, registry_step hstep]
    exact ih h

end Mmfg.Control
