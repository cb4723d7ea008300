import Mmfg.Control.Registry

/-!
# The control region

The 64 queues and the registry in the bytes of the control stripe.  Their areas are disjoint, so for
every interleaving of the hub and the nodes each queue runs as `queue ι` does alone, the registry as
the table of records alone, and the other bytes, with the header of the control stripe in front of
the queues, stay as they are (`region_independent`).
-/

namespace Mmfg.Control

open SharedMemory Queue
open Registry (getPointer getStripeEntryOffset OffStripeRegistry StripeEntrySize StripeOffStatus
  StripeStatusIdle)

/-- The parts of the control region. -/
inductive Part where
  | queue (n : Fin MaxNodes)
  | registry
  deriving DecidableEq

variable {ι κ : Type} [DecidableEq ι] [DecidableEq κ]

/-- The local states of the threads that use a part. -/
abbrev PartState (ι κ : Type) : Part → Type
  | .queue _ => Local ι
  | .registry => RegLocal κ

/-- What these threads do next. -/
abbrev PartAction (ι κ : Type) : Part → Type
  | .queue _ => Action ι
  | .registry => RegAction κ

/-- The languages of the processes: of the producers and the consumer of each queue, and of the
users of the registry. -/
structure Langs (ι κ : Type) where
  producer : Fin MaxNodes → ι → Lang
  consumer : Fin MaxNodes → Lang
  registry : κ → Lang

/-- The programs of the parts. -/
def parts (L : Langs ι κ) : (k : Part) → Program (PartState ι κ k) (PartAction ι κ k)
  | .queue n => ring n (L.producer n) (L.consumer n)
  | .registry => registry L.registry

omit [DecidableEq ι] [DecidableEq κ] in
/-- No call has been made. -/
def startParts : (k : Part) → PartState ι κ k
  | .queue _ => .start
  | .registry => .start

/-! ## `Control.Init` -/

/-- `writeU32` of the hub. -/
def put32 (m : ByteMemory) (offset : ℕ) (val : UInt32) : ByteMemory :=
  match getPointer offset with
  | none => m
  | some ptr => m.store ptr 4 val.toNat

/-- The counters of a queue. -/
def initQueue (m : ByteMemory) (qOff : ℕ) : ByteMemory :=
  put32 (put32 m (qOff + QOffHead) 0) (qOff + QOffTail) 0

/-- `Init`; the loop over the registry runs from slot 0 on and leaves out the last one. -/
def init (m : ByteMemory) : ByteMemory :=
  let m := initQueue m OffRespQueue
  let m := (List.range MaxNodes).foldl (fun m i => initQueue m (getNodeReqQueueOffset i)) m
  (List.range MaxTotalSlots).foldl
    (fun m i => put32 m (getStripeEntryOffset (.ofNat i) + StripeOffStatus) StripeStatusIdle) m

/-- The memory is as before, or was cleared behind the first block. -/
def Cleared (m m' : ByteMemory) : Prop := ∀ x, m' x = m x ∨ m' x = 0 ∧ OffRespQueue ≤ x

theorem Cleared.put32 {m m' : ByteMemory} (h : Cleared m m') {offset : ℕ}
    (hoff : OffRespQueue ≤ offset) : Cleared m (put32 m' offset 0) := by
  unfold Control.put32
  cases hp : getPointer offset with
  | none => exact h
  | some ptr =>
    obtain ⟨-, rfl⟩ : _ ∧ offset = ptr := by
      unfold getPointer at hp
      split_ifs at hp with hlt
      exact ⟨hlt, Option.some.inj hp⟩
    intro x
    by_cases hx : offset ≤ x ∧ x < offset + 4
    · refine .inr ⟨?_, by omega⟩
      have hbyte : ∀ {n off : ℕ}, off ≤ x → x < off + n → m'.store off n 0 x = 0 := by
        intro n
        induction n with
        | zero => intro off h1 h2; omega
        | succ n ih =>
          intro off h1 h2
          rw [ByteMemory.store, Function.update_apply]
          split_ifs with hxo
          · rfl
          · exact ih (by omega) (by omega)
      exact hbyte hx.1 hx.2
    · dsimp only
      rw [ByteMemory.store_of_notMem _ (by omega)]
      exact h x

theorem Cleared.initQueue {m m' : ByteMemory} (h : Cleared m m') {qOff : ℕ}
    (hoff : OffRespQueue ≤ qOff) : Cleared m (initQueue m' qOff) :=
  (h.put32 (by omega)).put32 (by omega)

theorem foldl_cleared {α : Type} {m m' : ByteMemory} (f : ByteMemory → α → ByteMemory)
    (hf : ∀ m' a, Cleared m m' → Cleared m (f m' a)) (l : List α) (h : Cleared m m') :
    Cleared m (l.foldl f m') := by
  induction l generalizing m' with
  | nil => exact h
  | cons a l ih => exact ih (hf m' a h)

theorem cleared_init (m : ByteMemory) : Cleared m (init m) := by
  have hresp : Cleared m (initQueue m OffRespQueue) :=
    Cleared.initQueue (fun x => .inl rfl) le_rfl
  refine foldl_cleared _ (fun m' i h => h.put32 ?_) _ (foldl_cleared _ (fun m' i h =>
    h.initQueue ?_) _ hresp)
  · simp only [getStripeEntryOffset, OffStripeRegistry, OffRespQueue]
    omega
  · simp only [getNodeReqQueueOffset]
    omega

/-- Behind its first block the memory is all zero, as that of a new chunk is. -/
def Blank (m : ByteMemory) : Prop := ∀ x, OffRespQueue ≤ x → m x = 0

theorem Blank.init {m : ByteMemory} (h : Blank m) : Blank (init m) := by
  intro x hx
  rcases cleared_init m x with hsame | ⟨hzero, -⟩
  · rw [hsame, h x hx]
  · exact hzero

theorem Blank.load {m : ByteMemory} (h : Blank m) {off : ℕ} (hoff : OffRespQueue ≤ off) (n : ℕ) :
    m.load off n = 0 := by
  induction n generalizing off with
  | zero => rfl
  | succ n ih =>
    rw [ByteMemory.load, h off hoff, ih (by omega)]
    rfl

omit [DecidableEq ι] in
theorem Blank.view {m : ByteMemory} (h : Blank m) (n : Fin MaxNodes) :
    view (getNodeReqQueueOffset n) m (.start : Local ι) = initial := by
  have hq : OffRespQueue ≤ getNodeReqQueueOffset n := by simp only [getNodeReqQueueOffset]; omega
  have hhead : load32 m (getNodeReqQueueOffset n + QOffHead) = 0 := by
    rw [load32, h.load (by omega)]
    rfl
  have htail : load32 m (getNodeReqQueueOffset n + QOffTail) = 0 := by
    rw [load32, h.load (by omega)]
    rfl
  have hcells : ∀ i, load64 m (getNodeReqQueueOffset n + QOffEntries + i * 8) = 0 := by
    intro i
    rw [load64, h.load (by omega)]
    rfl
  simp only [Control.view, hhead, htail, hcells, ite_self]
  rfl

theorem Blank.table {m : ByteMemory} (h : Blank m) : table m = fun _ _ => 0 := by
  funext slotID f
  unfold Control.table
  split_ifs
  · rw [load32, h.load (by simp only [getStripeEntryOffset, OffStripeRegistry, OffRespQueue]; omega)]
    rfl
  · rfl

/-! ## The region -/

/-- The control region of a new hub: `Init` on a memory whose first block holds the header of the
control stripe. -/
def region (L : Langs ι κ) :
    System (ByteMemory × ((k : Part) → PartState ι κ k)) ((k : Part) × PartAction ι κ k) :=
  compose (parts L) fun x => ∃ m, Blank m ∧ x = (init m, startParts)

/-- No byte belongs to two parts. -/
theorem parts_disjoint (L : Langs ι κ) (j k : Part) (h : j ≠ k) (x : ℕ) (hj : x ∈ (parts L j).area) :
    x ∉ (parts L k).area := by
  intro hk
  cases j with
  | queue n =>
    have hn := n.isLt
    cases k with
    | queue n' =>
      have hne : n.val ≠ n'.val := fun he => h (congrArg _ (Fin.ext he))
      simp only [parts, ring, queueArea, getNodeReqQueueOffset, Set.mem_Ico] at hj hk
      simp only [RespQueueSize] at hj hk
      omega
    | registry =>
      simp only [parts, ring, queueArea, getNodeReqQueueOffset, registry, registryArea,
        Set.mem_Ico] at hj hk
      simp only [RespQueueSize, OffRespQueue, OffStripeRegistry, MaxNodes] at hj hk hn
      omega
  | registry =>
    cases k with
    | queue n =>
      have hn := n.isLt
      simp only [parts, ring, queueArea, getNodeReqQueueOffset, registry, registryArea,
        Set.mem_Ico] at hj hk
      simp only [RespQueueSize, OffRespQueue, OffStripeRegistry, MaxNodes] at hj hk hn
      omega
    | registry => exact h rfl

omit [DecidableEq ι] in
theorem view_congr {m m' : ByteMemory} {n : Fin MaxNodes} (h : Set.EqOn m m' (queueArea n))
    (s : Local ι) :
    view (getNodeReqQueueOffset n) m s = view (getNodeReqQueueOffset n) m' s := by
  have hload : ∀ off w, getNodeReqQueueOffset n ≤ off →
      off + w ≤ getNodeReqQueueOffset n + RespQueueSize → m.load off w = m'.load off w :=
    fun off w h1 h2 => ByteMemory.load_congr fun i hi hi' => h ⟨by omega, by omega⟩
  have hcells : ∀ i, i < QueueSize → load64 m (getNodeReqQueueOffset n + QOffEntries + i * 8) =
      load64 m' (getNodeReqQueueOffset n + QOffEntries + i * 8) := by
    intro i hi
    rw [load64, hload _ 8 (by omega) (by simp only [QOffEntries, RespQueueSize, QueueSize] at hi ⊢; omega),
      ← load64]
  simp only [view, State.mk.injEq, and_true]
  refine ⟨?_, ?_, funext fun i => ?_⟩
  · rw [load32, hload _ 4 (by omega) (by simp only [QOffHead, RespQueueSize]; omega), ← load32]
  · rw [load32, hload _ 4 (by omega) (by simp only [QOffTail, RespQueueSize]; omega), ← load32]
  · split_ifs with hi
    · exact hcells i hi
    · rfl

theorem table_congr {m m' : ByteMemory} (h : Set.EqOn m m' registryArea) : table m = table m' := by
  funext slotID f
  unfold table
  split_ifs with hm
  · have hload : m.load (getStripeEntryOffset slotID + f.off) 4 =
        m'.load (getStripeEntryOffset slotID + f.off) 4 :=
      ByteMemory.load_congr fun i hi hi' => h (field_subset hm f ⟨hi, hi'⟩)
    rw [load32, hload, ← load32]
  · rfl

/-- In every run of the control region, whatever the hub and the nodes do, each queue does what it
does alone on a new ring, the registry does what the table of records does alone, and the block of
the header and the bytes between the queues and the registry stay as they are. -/
theorem region_independent (L : Langs ι κ) (m : ByteMemory) (hm : Blank m)
    (as : List ((k : Part) × PartAction ι κ k)) (y : ByteMemory × ((k : Part) → PartState ι κ k))
    (hr : (region L).run (init m, startParts) as = some y) :
    (∀ n : Fin MaxNodes, (queue ι).run initial (as.filterMap (pick (Part.queue n))) =
      some (view (getNodeReqQueueOffset n) y.1 (y.2 (.queue n)))) ∧
    (records κ).run (fun _ _ => 0, .start) (as.filterMap (pick Part.registry)) =
      some (table y.1, y.2 .registry) ∧
    ∀ x, x < OffRespQueue ∨ getNodeReqQueueOffset MaxNodes ≤ x ∧ x < OffStripeRegistry →
      y.1 x = m x := by
  have hblank := hm.init
  have hcleared := cleared_init m
  generalize init m = m₀ at hr hblank hcleared
  refine ⟨fun n => ?_, ?_, fun x hx => ?_⟩
  · obtain ⟨m', hrun, heq⟩ := run_project (parts_disjoint L) hr (.queue n) (fun _ => True)
      fun _ _ => rfl
    rw [← hblank.view n, view_congr heq]
    exact ring_run hrun
  · obtain ⟨m', hrun, heq⟩ := run_project (parts_disjoint L) hr .registry (fun _ => True)
      fun _ _ => rfl
    rw [← hblank.table, table_congr heq]
    exact registry_run hrun
  · have houtside : ∀ k, x ∉ (parts L k).area := by
      intro k hk
      cases k with
      | queue n =>
        have hn := n.isLt
        simp only [parts, ring, queueArea, getNodeReqQueueOffset, Set.mem_Ico] at hk hx
        simp only [RespQueueSize, OffRespQueue, OffStripeRegistry, MaxNodes] at hx hk hn
        omega
      | registry =>
        simp only [parts, registry, registryArea, getNodeReqQueueOffset, Set.mem_Ico] at hk hx
        simp only [RespQueueSize, OffRespQueue, OffStripeRegistry, MaxNodes] at hx hk
        omega
    rw [run_outside hr houtside]
    rcases hcleared x with hsame | ⟨hzero, hge⟩
    · exact hsame
    · exact hzero.trans (hm x hge).symm

/-- The hub pushes to node 3, a Rust node answers on the response queue, and a slot is looked for, all
at the same time. -/
theorem region_independent_run : ∃ y : ByteMemory × ((k : Part) → PartState Bool Unit k),
    (queue Bool).run initial [.callPush true .go ⟨7, 1⟩, .push true, .push true] =
      some (view (getNodeReqQueueOffset (3 : Fin MaxNodes)) y.1 (y.2 (.queue 3))) := by
  have hrun : ∀ m, ((region (ι := Bool) (κ := Unit)
      ⟨fun n _ => if n = 0 then .rust else .go, fun n => if n = 0 then .go else .rust, fun _ => .go⟩).run
      (m, startParts) [⟨.queue 3, .callPush true .go ⟨7, 1⟩⟩,
        ⟨.queue 0, .callPush false .rust ⟨9, 1⟩⟩, ⟨.registry, .call () .allocSlot⟩,
        ⟨.queue 3, .push true⟩, ⟨.registry, .run ()⟩, ⟨.queue 0, .push false⟩,
        ⟨.queue 3, .push true⟩]).isSome := fun m => rfl
  obtain ⟨y, hy⟩ := Option.isSome_iff_exists.1 (hrun (init fun _ => 0))
  exact ⟨y, (region_independent _ _ (fun _ _ => rfl) _ y hy).1 3⟩

end Mmfg.Control
