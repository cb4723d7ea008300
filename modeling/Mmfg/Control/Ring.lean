import Mmfg.Lib.SharedMemory
import Mmfg.Lib.Simulation
import Mmfg.Queue.Basic
import Mmfg.Registry.Basic

/-!
# A queue in the bytes of the control region

`Push` and `Pop` as they reach their queue: by the offset of the queue in the control region, one
atomic access to 4 or 8 little-endian bytes in each step.  Go goes through `GetPointer`, where an
offset beyond the control stripe gives nil; Rust asserts that the access lies inside the region.
`ring` is the program of the queue of one node id; its steps are those of `queue ι` on the counters
and cells that the bytes stand for (`ring_step`).
-/

namespace Mmfg.Control

open SharedMemory Queue
open Registry (getPointer)

/-- Bytes of the control region. -/
abbrev ControlStripeSize : ℕ := ControlBlocks * BlockSize

/-- Where the response queue begins. -/
abbrev OffRespQueue : ℕ := 4096

/-- Bytes of a queue. -/
abbrev RespQueueSize : ℕ := 4096

/-- Where the head is in a queue. -/
abbrev QOffHead : ℕ := 0

/-- Where the tail is. -/
abbrev QOffTail : ℕ := 4

/-- Where the entries begin. -/
abbrev QOffEntries : ℕ := 16

/-- The request queue of a node; that of id 0 is the response queue of the hub. -/
def getNodeReqQueueOffset (nodeID : ℕ) : ℕ := OffRespQueue + nodeID * RespQueueSize

/-! ## Accessors -/

section Accessors

variable {σ : Type}

/-- `readU32` and `atomic_read_u32`, and how the program goes on; `none` is a panic. -/
def readU32 (l : Lang) (offset : ℕ) (k : UInt32 → σ) : Option (Option Access × (ℕ → σ)) :=
  match l with
  | .go =>
    match getPointer offset with
    | none => some (none, fun _ => k 0)
    | some ptr => some (some (.load 4 ptr), fun v => k (.ofNat v))
  | .rust =>
    if offset + 4 ≤ ControlStripeSize then some (some (.load 4 offset), fun v => k (.ofNat v))
    else none

/-- `writeU32` and `atomic_write_u32`. -/
def writeU32 (l : Lang) (offset : ℕ) (val : UInt32) (s : σ) : Option (Option Access × (ℕ → σ)) :=
  match l with
  | .go =>
    match getPointer offset with
    | none => some (none, fun _ => s)
    | some ptr => some (some (.store 4 ptr val.toNat), fun _ => s)
  | .rust =>
    if offset + 4 ≤ ControlStripeSize then some (some (.store 4 offset val.toNat), fun _ => s)
    else none

/-- `casU32` and `atomic_cas_u32`. -/
def casU32 (l : Lang) (offset : ℕ) (old new : UInt32) (k : Bool → σ) :
    Option (Option Access × (ℕ → σ)) :=
  match l with
  | .go =>
    match getPointer offset with
    | none => some (none, fun _ => k false)
    | some ptr => some (some (.cas 4 ptr old.toNat new.toNat), fun v => k (v == 1))
  | .rust =>
    if offset + 4 ≤ ControlStripeSize then
      some (some (.cas 4 offset old.toNat new.toNat), fun v => k (v == 1))
    else none

/-- `atomic.LoadUint64` of a pointer and `atomic_read_u64`; Go dereferences the pointer as it is. -/
def readU64 (l : Lang) (offset : ℕ) (k : UInt64 → σ) : Option (Option Access × (ℕ → σ)) :=
  match l with
  | .go => (getPointer offset).map fun ptr => (some (.load 8 ptr), fun v => k (.ofNat v))
  | .rust =>
    if offset + 8 ≤ ControlStripeSize then some (some (.load 8 offset), fun v => k (.ofNat v))
    else none

/-- `atomic.StoreUint64` to a pointer and `atomic_write_u64`. -/
def writeU64 (l : Lang) (offset : ℕ) (val : UInt64) (s : σ) : Option (Option Access × (ℕ → σ)) :=
  match l with
  | .go => (getPointer offset).map fun ptr => (some (.store 8 ptr val.toNat), fun _ => s)
  | .rust =>
    if offset + 8 ≤ ControlStripeSize then some (some (.store 8 offset val.toNat), fun _ => s)
    else none

variable {l : Lang} {offset n : ℕ}

theorem getPointer_eq (h : offset + n ≤ ControlStripeSize) (hn : 0 < n) :
    getPointer offset = some offset := by
  simp only [ControlStripeSize, ControlBlocks, BlockSize] at h
  refine if_pos ?_
  simp only [ControlBlocks, BlockSize]
  omega

/-- Inside the region both languages make the access. -/
theorem readU32_eq (h : offset + 4 ≤ ControlStripeSize) (k : UInt32 → σ) :
    readU32 l offset k = some (some (.load 4 offset), fun v => k (.ofNat v)) := by
  cases l with
  | go => rw [readU32, getPointer_eq h (by decide)]
  | rust => exact if_pos h

theorem writeU32_eq (h : offset + 4 ≤ ControlStripeSize) (val : UInt32) (s : σ) :
    writeU32 l offset val s = some (some (.store 4 offset val.toNat), fun _ => s) := by
  cases l with
  | go => rw [writeU32, getPointer_eq h (by decide)]
  | rust => exact if_pos h

theorem casU32_eq (h : offset + 4 ≤ ControlStripeSize) (old new : UInt32) (k : Bool → σ) :
    casU32 l offset old new k =
      some (some (.cas 4 offset old.toNat new.toNat), fun v => k (v == 1)) := by
  cases l with
  | go => rw [casU32, getPointer_eq h (by decide)]
  | rust => exact if_pos h

theorem readU64_eq (h : offset + 8 ≤ ControlStripeSize) (k : UInt64 → σ) :
    readU64 l offset k = some (some (.load 8 offset), fun v => k (.ofNat v)) := by
  cases l with
  | go => rw [readU64, getPointer_eq h (by decide), Option.map_some]
  | rust => exact if_pos h

theorem writeU64_eq (h : offset + 8 ≤ ControlStripeSize) (val : UInt64) (s : σ) :
    writeU64 l offset val s = some (some (.store 8 offset val.toNat), fun _ => s) := by
  cases l with
  | go => rw [writeU64, getPointer_eq h (by decide), Option.map_some]
  | rust => exact if_pos h

end Accessors

/-! ## Words in bytes -/

/-- A load of four bytes. -/
def load32 (m : ByteMemory) (off : ℕ) : UInt32 := .ofNat (m.load off 4)

/-- A load of eight bytes. -/
def load64 (m : ByteMemory) (off : ℕ) : UInt64 := .ofNat (m.load off 8)

theorem load32_store (m : ByteMemory) (off : ℕ) (v : UInt32) :
    load32 (m.store off 4 v.toNat) off = v := by
  have hv : v.toNat < 256 ^ 4 := v.toNat_lt
  rw [load32, ByteMemory.load_store, Nat.mod_eq_of_lt hv]
  exact UInt32.ofNat_toNat

theorem load64_store (m : ByteMemory) (off : ℕ) (v : UInt64) :
    load64 (m.store off 8 v.toNat) off = v := by
  have hv : v.toNat < 256 ^ 8 := v.toNat_lt
  rw [load64, ByteMemory.load_store, Nat.mod_eq_of_lt hv]
  exact UInt64.ofNat_toNat

theorem load32_store_of_disjoint {m : ByteMemory} {off i n : ℕ} (v : ℕ)
    (h : i + 4 ≤ off ∨ off + n ≤ i) : load32 (m.store off n v) i = load32 m i := by
  rw [load32, ByteMemory.load_store_of_disjoint v h, ← load32]

theorem load64_store_of_disjoint {m : ByteMemory} {off i n : ℕ} (v : ℕ)
    (h : i + 8 ≤ off ∨ off + n ≤ i) : load64 (m.store off n v) i = load64 m i := by
  rw [load64, ByteMemory.load_store_of_disjoint v h, ← load64]

theorem load_eq_toNat_iff (m : ByteMemory) (off : ℕ) (v : UInt32) :
    m.load off 4 = v.toNat ↔ load32 m off = v := by
  have hlt := m.load_lt off 4
  rw [load32, ← UInt32.toNat_inj, UInt32.toNat_ofNat_of_lt' hlt]

section Resume

variable {σ : Type} {l : Lang} {offset : ℕ} (m : ByteMemory)

theorem map_readU32 (h : offset + 4 ≤ ControlStripeSize) (k : UInt32 → σ) :
    (readU32 l offset k).map (resume m) = some (m, k (load32 m offset)) := by
  rw [readU32_eq h]
  rfl

theorem map_writeU32 (h : offset + 4 ≤ ControlStripeSize) (val : UInt32) (s : σ) :
    (writeU32 l offset val s).map (resume m) = some (m.store offset 4 val.toNat, s) := by
  rw [writeU32_eq h]
  rfl

theorem map_casU32 (h : offset + 4 ≤ ControlStripeSize) (old new : UInt32) (k : Bool → σ) :
    (casU32 l offset old new k).map (resume m) =
      if load32 m offset = old then some (m.store offset 4 new.toNat, k true)
      else some (m, k false) := by
  rw [casU32_eq h]
  simp only [Option.map_some, resume, Access.perform, load_eq_toNat_iff]
  split_ifs <;> rfl

theorem map_readU64 (h : offset + 8 ≤ ControlStripeSize) (k : UInt64 → σ) :
    (readU64 l offset k).map (resume m) = some (m, k (load64 m offset)) := by
  rw [readU64_eq h]
  rfl

theorem map_writeU64 (h : offset + 8 ≤ ControlStripeSize) (val : UInt64) (s : σ) :
    (writeU64 l offset val s).map (resume m) = some (m.store offset 8 val.toNat, s) := by
  rw [writeU64_eq h]
  rfl

end Resume

/-! ## The program of a queue -/

/-- The program points of a queue's producers and of its consumer, with the histories of `queue`. -/
structure Local (ι : Type) where
  producer : ι → Push
  consumer : Pop
  pushed : List Entry
  popped : List Entry

variable {ι : Type} [DecidableEq ι]

namespace Local

/-- Producer `p` goes to another program point. -/
def setProducer (s : Local ι) (p : ι) (pc : Push) : Local ι :=
  { s with producer := Function.update s.producer p pc }

/-- The consumer goes to another program point. -/
def setConsumer (s : Local ι) (pc : Pop) : Local ι := { s with consumer := pc }

/-- The entry of a position. -/
def entryOff (qOffset : ℕ) (pos : UInt32) : ℕ := qOffset + QOffEntries + cellOf pos * 8

/-- A step of the push of producer `p`, which runs in language `lang p`. -/
def nextPush (qOffset : ℕ) (lang : ι → Lang) (s : Local ι) (p : ι) :
    Option (Option Access × (ℕ → Local ι)) :=
  match s.producer p with
  | .idle => none
  | .readHead l e spin =>
    readU32 (lang p) (qOffset + QOffHead) fun head => s.setProducer p (.readTail l e spin head)
  | .readTail l e spin head =>
    readU32 (lang p) (qOffset + QOffTail) fun tail =>
      if (QueueSize - 1).toUInt32 ≤ tail - head then
        if spin < l.pushSpins then s.setProducer p (.readHead l e (spin + 1))
        else s.setProducer p (.returned false)
      else s.setProducer p (.cas l e spin tail)
  | .cas l e spin tail =>
    casU32 (lang p) (qOffset + QOffTail) tail (tail + 1) fun ok =>
      if ok then { s.setProducer p (.store e tail) with pushed := s.pushed ++ [e] }
      else s.setProducer p (.readHead l e spin)
  | .store e tail =>
    writeU64 (lang p) (entryOff qOffset tail) (pack e) (s.setProducer p (.returned true))
  | .returned _ => none

/-- A step of the pop of the consumer, which runs in language `lang`. -/
def nextPop (qOffset : ℕ) (lang : Lang) (s : Local ι) : Option (Option Access × (ℕ → Local ι)) :=
  match s.consumer with
  | .idle => none
  | .readHead l =>
    readU32 lang (qOffset + QOffHead) fun head => s.setConsumer (.readTail l head)
  | .readTail l head =>
    readU32 lang (qOffset + QOffTail) fun tail =>
      if head = tail then s.setConsumer (.returned none)
      else s.setConsumer (.readEntry l head 0)
  | .readEntry l head spin =>
    readU64 lang (entryOff qOffset head) fun packed =>
      if l.ready packed then s.setConsumer (.clear head packed)
      else if l.popSpins = some spin then s.setConsumer (.returned none)
      else s.setConsumer (.readEntry l head (spin + 1))
  | .clear head packed =>
    writeU64 lang (entryOff qOffset head) 0 (s.setConsumer (.storeHead head packed))
  | .storeHead head packed =>
    writeU32 lang (qOffset + QOffHead) (head + 1)
      { s with
        popped := s.popped ++ [unpack packed]
        consumer := .returned (some (unpack packed)) }
  | .returned _ => none

/-- A step of the queue at `qOffset`; a call is made in the caller's language. -/
def next (qOffset : ℕ) (lang : ι → Lang) (consumerLang : Lang) (s : Local ι) :
    Action ι → Option (Option Access × (ℕ → Local ι))
  | .callPush p l e =>
    if l = lang p ∧ (s.producer p).Quiet then
      some (none, fun _ => s.setProducer p (.readHead l e 0))
    else none
  | .push p => s.nextPush qOffset lang p
  | .callPop l =>
    if l = consumerLang ∧ s.consumer.Quiet then some (none, fun _ => s.setConsumer (.readHead l))
    else none
  | .pop => s.nextPop qOffset consumerLang

/-- No call has been made. -/
def start : Local ι := ⟨fun _ => .idle, .idle, [], []⟩

end Local

/-- The bytes of the queue of a node id. -/
def queueArea (n : Fin MaxNodes) : Set ℕ :=
  Set.Ico (getNodeReqQueueOffset n) (getNodeReqQueueOffset n + RespQueueSize)

theorem cellOf_lt (pos : UInt32) : cellOf pos < QueueSize := by
  rw [cellOf, UInt32.toNat_mod]
  exact Nat.mod_lt _ (by decide)

theorem queue_le (n : Fin MaxNodes) :
    getNodeReqQueueOffset n + RespQueueSize ≤ ControlStripeSize := by
  have hn := n.isLt
  simp only [getNodeReqQueueOffset, OffRespQueue, RespQueueSize, ControlStripeSize, ControlBlocks,
    BlockSize, MaxNodes] at hn ⊢
  omega

theorem entryOff_le (qOffset : ℕ) (pos : UInt32) :
    Local.entryOff qOffset pos + 8 ≤ qOffset + RespQueueSize := by
  have hcell := cellOf_lt pos
  simp only [Local.entryOff, QOffEntries, RespQueueSize, QueueSize] at hcell ⊢
  omega

variable {n : Fin MaxNodes} {lang : ι → Lang} {consumerLang : Lang} {s : Local ι}
  {m : ByteMemory}

theorem head_le (n : Fin MaxNodes) :
    getNodeReqQueueOffset n + QOffHead + 4 ≤ ControlStripeSize := by
  have := queue_le n
  simp only [QOffHead, RespQueueSize] at *
  omega

theorem tail_le (n : Fin MaxNodes) :
    getNodeReqQueueOffset n + QOffTail + 4 ≤ ControlStripeSize := by
  have := queue_le n
  simp only [QOffTail, RespQueueSize] at *
  omega

theorem entry_le (n : Fin MaxNodes) (pos : UInt32) :
    Local.entryOff (getNodeReqQueueOffset n) pos + 8 ≤ ControlStripeSize :=
  (entryOff_le _ pos).trans (queue_le n)

/-- Every access of a queue is to its own bytes. -/
theorem next_within (s : Local ι) (a : Action ι) (acc : Access) (k : ℕ → Local ι)
    (h : s.next (getNodeReqQueueOffset n) lang consumerLang a = some (some acc, k)) :
    acc.footprint ⊆ queueArea n := by
  have hhead : Set.Ico (getNodeReqQueueOffset n + QOffHead) (getNodeReqQueueOffset n + QOffHead + 4)
      ⊆ queueArea n := Set.Ico_subset_Ico (by omega) (by simp only [QOffHead, RespQueueSize]; omega)
  have htail : Set.Ico (getNodeReqQueueOffset n + QOffTail) (getNodeReqQueueOffset n + QOffTail + 4)
      ⊆ queueArea n := Set.Ico_subset_Ico (by omega) (by simp only [QOffTail, RespQueueSize]; omega)
  have hentry : ∀ pos, Set.Ico (Local.entryOff (getNodeReqQueueOffset n) pos)
      (Local.entryOff (getNodeReqQueueOffset n) pos + 8) ⊆ queueArea n := fun pos =>
    Set.Ico_subset_Ico (by simp only [Local.entryOff]; omega) (entryOff_le _ pos)
  cases a with
  | callPush p l e =>
    simp only [Local.next] at h
    split_ifs at h
    cases h
  | callPop l =>
    simp only [Local.next] at h
    split_ifs at h
    cases h
  | push p =>
    simp only [Local.next, Local.nextPush] at h
    cases hp : s.producer p <;> simp only [hp] at h
    case readHead => rw [readU32_eq (head_le n)] at h; cases h; exact hhead
    case readTail => rw [readU32_eq (tail_le n)] at h; cases h; exact htail
    case cas => rw [casU32_eq (tail_le n)] at h; cases h; exact htail
    case store e tail => rw [writeU64_eq (entry_le n tail)] at h; cases h; exact hentry tail
    all_goals cases h
  | pop =>
    simp only [Local.next, Local.nextPop] at h
    cases hc : s.consumer <;> simp only [hc] at h
    case readHead => rw [readU32_eq (head_le n)] at h; cases h; exact hhead
    case readTail => rw [readU32_eq (tail_le n)] at h; cases h; exact htail
    case readEntry l head spin => rw [readU64_eq (entry_le n head)] at h; cases h; exact hentry head
    case clear head w => rw [writeU64_eq (entry_le n head)] at h; cases h; exact hentry head
    case storeHead => rw [writeU32_eq (head_le n)] at h; cases h; exact hhead
    all_goals cases h

/-- The queue of a node id as a program on the control region. -/
def ring (n : Fin MaxNodes) (lang : ι → Lang) (consumerLang : Lang) :
    Program (Local ι) (Action ι) where
  area := queueArea n
  next s a := s.next (getNodeReqQueueOffset n) lang consumerLang a
  within := next_within

/-! ## What the bytes stand for -/

omit [DecidableEq ι] in
/-- The counters and cells of the queue at `qOffset`. -/
def view (qOffset : ℕ) (m : ByteMemory) (s : Local ι) : Queue.State ι where
  head := load32 m (qOffset + QOffHead)
  tail := load32 m (qOffset + QOffTail)
  cells i := if i < QueueSize then load64 m (qOffset + QOffEntries + i * 8) else 0
  producer := s.producer
  consumer := s.consumer
  pushed := s.pushed
  popped := s.popped

section View

omit [DecidableEq ι]

variable (qOffset : ℕ) (m : ByteMemory) (s : Local ι)

theorem view_store_head (v : UInt32) :
    view qOffset (m.store (qOffset + QOffHead) 4 v.toNat) s = { view qOffset m s with head := v } := by
  have htail : load32 (m.store (qOffset + QOffHead) 4 v.toNat) (qOffset + QOffTail) =
      load32 m (qOffset + QOffTail) := load32_store_of_disjoint _ (.inr (by simp))
  have hcells : ∀ i, load64 (m.store (qOffset + QOffHead) 4 v.toNat) (qOffset + QOffEntries + i * 8) =
      load64 m (qOffset + QOffEntries + i * 8) := fun i =>
    load64_store_of_disjoint _ (.inr (by simp only [QOffHead, QOffEntries]; omega))
  simp only [view, load32_store, htail, hcells]

theorem view_store_tail (v : UInt32) :
    view qOffset (m.store (qOffset + QOffTail) 4 v.toNat) s = { view qOffset m s with tail := v } := by
  have hhead : load32 (m.store (qOffset + QOffTail) 4 v.toNat) (qOffset + QOffHead) =
      load32 m (qOffset + QOffHead) := load32_store_of_disjoint _ (.inl (by simp))
  have hcells : ∀ i, load64 (m.store (qOffset + QOffTail) 4 v.toNat) (qOffset + QOffEntries + i * 8) =
      load64 m (qOffset + QOffEntries + i * 8) := fun i =>
    load64_store_of_disjoint _ (.inr (by simp only [QOffTail, QOffEntries]; omega))
  simp only [view, load32_store, hhead, hcells]

theorem view_store_entry (pos : UInt32) (v : UInt64) :
    view qOffset (m.store (Local.entryOff qOffset pos) 8 v.toNat) s =
      { view qOffset m s with
        cells := Function.update (view qOffset m s).cells (cellOf pos) v } := by
  have hhead : load32 (m.store (Local.entryOff qOffset pos) 8 v.toNat) (qOffset + QOffHead) =
      load32 m (qOffset + QOffHead) := load32_store_of_disjoint _
    (.inl (by simp only [Local.entryOff, QOffHead, QOffEntries]; omega))
  have htail : load32 (m.store (Local.entryOff qOffset pos) 8 v.toNat) (qOffset + QOffTail) =
      load32 m (qOffset + QOffTail) := load32_store_of_disjoint _
    (.inl (by simp only [Local.entryOff, QOffTail, QOffEntries]; omega))
  simp only [view, hhead, htail, State.mk.injEq, true_and, and_true]
  funext i
  by_cases hi : i = cellOf pos
  · rw [hi, Function.update_self, if_pos (cellOf_lt pos), ← Local.entryOff, load64_store]
  · rw [Function.update_of_ne hi]
    split_ifs
    · refine load64_store_of_disjoint _ ?_
      simp only [Local.entryOff]
      omega
    · rfl

end View

omit [DecidableEq ι] in
theorem view_cells (qOffset : ℕ) (pos : UInt32) :
    (view qOffset m s).cells (cellOf pos) = load64 m (Local.entryOff qOffset pos) :=
  if_pos (cellOf_lt pos)

/-- The bytes do what the queue does. -/
theorem ring_stepPush {p : ι} {y : ByteMemory × Local ι}
    (h : (ring n lang consumerLang).step (m, s) (.push p) = some y) :
    (view (getNodeReqQueueOffset n) m s).stepPush p =
      some (view (getNodeReqQueueOffset n) y.1 y.2) := by
  change (s.nextPush (getNodeReqQueueOffset n) lang p).map (resume m) = some y at h
  unfold Local.nextPush at h
  unfold State.stepPush
  have hpc : (view (getNodeReqQueueOffset n) m s).producer p = s.producer p := rfl
  cases hp : s.producer p with
  | idle => simp [hp] at h
  | returned ok => simp [hp] at h
  | readHead l e spin =>
    simp only [hp, map_readU32 m (head_le n), Option.some.injEq] at h
    subst h
    simp only [hpc, hp]
    rfl
  | readTail l e spin hd =>
    simp only [hp, map_readU32 m (tail_le n), Option.some.injEq] at h
    subst h
    have htail : (view (getNodeReqQueueOffset n) m s).tail =
        load32 m (getNodeReqQueueOffset n + QOffTail) := rfl
    simp only [hpc, hp, htail]
    split_ifs <;> rfl
  | cas l e spin tl =>
    simp only [hp, map_casU32 m (tail_le n), if_true, Bool.false_eq_true, if_false] at h
    have htail : (view (getNodeReqQueueOffset n) m s).tail =
        load32 m (getNodeReqQueueOffset n + QOffTail) := rfl
    simp only [hpc, hp, htail]
    split_ifs at h ⊢ with htl <;> simp only [Option.some.injEq] at h <;> subst h
    · rw [view_store_tail]
      rfl
    · rfl
  | store e tl =>
    simp only [hp, map_writeU64 m (entry_le n tl), Option.some.injEq] at h
    subst h
    simp only [hpc, hp, view_store_entry]
    rfl

theorem ring_stepPop {y : ByteMemory × Local ι}
    (h : (ring n lang consumerLang).step (m, s) .pop = some y) :
    (view (getNodeReqQueueOffset n) m s).stepPop =
      some (view (getNodeReqQueueOffset n) y.1 y.2) := by
  change (s.nextPop (getNodeReqQueueOffset n) consumerLang).map (resume m) = some y at h
  unfold Local.nextPop at h
  unfold State.stepPop
  have hpc : (view (getNodeReqQueueOffset n) m s).consumer = s.consumer := rfl
  cases hc : s.consumer with
  | idle => simp [hc] at h
  | returned r => simp [hc] at h
  | readHead l =>
    simp only [hc, map_readU32 m (head_le n), Option.some.injEq] at h
    subst h
    simp only [hpc, hc]
    rfl
  | readTail l hd =>
    simp only [hc, map_readU32 m (tail_le n), Option.some.injEq] at h
    subst h
    have htail : (view (getNodeReqQueueOffset n) m s).tail =
        load32 m (getNodeReqQueueOffset n + QOffTail) := rfl
    simp only [hpc, hc, htail]
    split_ifs <;> rfl
  | readEntry l hd spin =>
    simp only [hc, map_readU64 m (entry_le n hd), Option.some.injEq] at h
    subst h
    simp only [hpc, hc, view_cells]
    split_ifs <;> rfl
  | clear hd w =>
    simp only [hc, map_writeU64 m (entry_le n hd), Option.some.injEq] at h
    subst h
    simp only [hpc, hc, view_store_entry]
    rfl
  | storeHead hd w =>
    simp only [hc, map_writeU32 m (head_le n), Option.some.injEq] at h
    subst h
    simp only [hpc, hc, view_store_head]
    rfl

theorem ring_step {a : Action ι} {y : ByteMemory × Local ι}
    (h : (ring n lang consumerLang).step (m, s) a = some y) :
    (queue ι).step (view (getNodeReqQueueOffset n) m s) a =
      some (view (getNodeReqQueueOffset n) y.1 y.2) := by
  cases a with
  | callPush p l e =>
    obtain ⟨⟨acc, k⟩, hnext, rfl⟩ := Option.map_eq_some_iff.1 h
    change (if l = lang p ∧ (s.producer p).Quiet = true then _ else _) = _ at hnext
    split_ifs at hnext with hq
    cases hnext
    exact if_pos hq.2
  | push p => exact ring_stepPush h
  | callPop l =>
    obtain ⟨⟨acc, k⟩, hnext, rfl⟩ := Option.map_eq_some_iff.1 h
    change (if l = consumerLang ∧ s.consumer.Quiet = true then _ else _) = _ at hnext
    split_ifs at hnext with hq
    cases hnext
    exact if_pos hq.2
  | pop => exact ring_stepPop h

/-- A run of the bytes is the same run of the queue. -/
theorem ring_run {as : List (Action ι)} {init : ByteMemory × Local ι → Prop}
    {y : ByteMemory × Local ι}
    (h : ((ring n lang consumerLang).alone init).run (m, s) as = some y) :
    (queue ι).run (view (getNodeReqQueueOffset n) m s) as =
      some (view (getNodeReqQueueOffset n) y.1 y.2) := by
  induction as generalizing m s with
  | nil =>
    cases h
    rfl
  | cons a as ih =>
    rw [System.run_cons, Option.bind_eq_some_iff] at h
    obtain ⟨⟨m', s'⟩, hstep, h⟩ := h
    rw [System.run_cons, ring_step hstep]
    exact ih h

end Mmfg.Control
