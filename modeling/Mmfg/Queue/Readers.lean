import Mathlib.Data.Nat.Bitwise
import Mmfg.Queue.Wrap

/-!
# The two readers of the Rust crate

Besides `ControlRegion::pop` the crate has `RequestQueue::poll`.  It reads the ring word in two
halves and takes the first half for the command and the second for the slot ID.  In memory the slot
ID comes first, so `poll` looks for the ready bit in it, and it does not clear the cell.

On an empty queue both readers give nothing.  On any other they differ (`readers_agree_iff`), and as
long as slot IDs are below `2 ^ 31`, as all slot IDs of the registry are, `poll` never gives anything
at all (`poll_never_delivers`).
-/

namespace Mmfg.Queue

variable {ι : Type}

/-- `read_u32` at byte `off` of a ring word in little-endian memory. -/
def readU32 (w : UInt64) (off : ℕ) : UInt32 := (w >>> (8 * off).toUInt64).toUInt32

theorem readU32_zero (w : UInt64) : readU32 w 0 = slotOf w := by
  apply UInt32.toNat_inj.mp
  rw [readU32, slotOf, UInt64.toNat_toUInt32, UInt64.toNat_toUInt32, UInt64.toNat_and,
    UInt64.toNat_shiftRight, show UInt64.toNat 0xFFFFFFFF = 2 ^ 32 - 1 from rfl,
    Nat.and_two_pow_sub_one_eq_mod, Nat.mod_mod]
  rfl

theorem readU32_four (w : UInt64) : readU32 w 4 = commandOf w := rfl

/-! ## Whole calls -/

/-- A call of `poll`: what it returns, and the queue after it. -/
def State.poll (s : State ι) : Option Entry × State ι :=
  if s.head = s.tail then (none, s)
  else
    let entry := readU32 (s.cells (cellOf s.head)) 0
    if entry &&& readyBit = 0 then (none, s)
    else
      let request := ⟨readU32 (s.cells (cellOf s.head)) 4, entry &&& ~~~readyBit⟩
      (some request, { s with head := s.head + 1, popped := s.popped ++ [request] })

/-- A call of `pop` to which no other party's steps come in between. -/
def State.pop (s : State ι) : Option Entry × State ι :=
  if s.head = s.tail then (none, s)
  else if Lang.rust.ready (s.cells (cellOf s.head)) then
    (some (unpack (s.cells (cellOf s.head))),
      { s with
        head := s.head + 1
        cells := Function.update s.cells (cellOf s.head) 0
        popped := s.popped ++ [unpack (s.cells (cellOf s.head))] })
  else (none, s)

/-- What `n` calls return. -/
def reads (read : State ι → Option Entry × State ι) : ℕ → State ι → List (Option Entry)
  | 0, _ => []
  | n + 1, s => (read s).1 :: reads read n (read s).2

/-- The entry at the head, if there is one, was stored by its producer. -/
def HeadPublished (s : State ι) : Prop :=
  s.head ≠ s.tail → ∃ e : Entry, e.cmd.toNat < 2 ^ 31 ∧ s.cells (cellOf s.head) = pack e

/-- `poll` does what `pop` does, and goes on doing so. -/
def ReadersAgree (s : State ι) : Prop :=
  (s.poll.1 = s.pop.1 ∧ s.poll.2.head = s.pop.2.head ∧ s.poll.2.cells = s.pop.2.cells) ∧
  (s.poll.1 = none ↔ s.head = s.tail) ∧ (s.pop.1 = none ↔ s.head = s.tail) ∧
  ∀ n, reads State.poll n s = reads State.pop n s

variable {s : State ι} {e : Entry}

theorem poll_of_empty (h : s.head = s.tail) : s.poll = (none, s) := if_pos h

theorem pop_of_empty (h : s.head = s.tail) : s.pop = (none, s) := if_pos h

theorem pop_of_published (hne : s.head ≠ s.tail) (hcell : s.cells (cellOf s.head) = pack e)
    (hcmd : e.cmd.toNat < 2 ^ 31) :
    s.pop = (some e,
      { s with
        head := s.head + 1
        cells := Function.update s.cells (cellOf s.head) 0
        popped := s.popped ++ [e] }) := by
  rw [State.pop, if_neg hne, hcell, if_pos (ready_pack _ e), unpack_pack hcmd]

/-- The two halves are taken for each other. -/
theorem poll_of_published (hne : s.head ≠ s.tail) (hcell : s.cells (cellOf s.head) = pack e) :
    s.poll =
      if e.slotID &&& readyBit = 0 then (none, s)
      else (some ⟨e.cmd ||| readyBit, e.slotID &&& ~~~readyBit⟩,
        { s with
          head := s.head + 1
          popped := s.popped ++ [⟨e.cmd ||| readyBit, e.slotID &&& ~~~readyBit⟩] }) := by
  rw [State.poll, if_neg hne, hcell, readU32_zero, readU32_four, slotOf_pack, commandOf_pack]

theorem cells_poll (s : State ι) : s.poll.2.cells = s.cells := by
  unfold State.poll
  dsimp only
  split_ifs
  · rfl
  · rfl
  · rfl

theorem reads_of_empty {read : State ι → Option Entry × State ι} (h : read s = (none, s)) (n : ℕ) :
    reads read n s = List.replicate n none := by
  induction n with
  | zero => rfl
  | succ n ih => rw [reads, h, ih, List.replicate_succ]

theorem readersAgree_iff (hpub : HeadPublished s) : ReadersAgree s ↔ s.head = s.tail := by
  constructor
  · rintro ⟨⟨-, -, hcells⟩, -⟩
    by_contra hne
    obtain ⟨e, hcmd, hcell⟩ := hpub hne
    -- `pop` clears the cell, `poll` does not
    rw [cells_poll, pop_of_published hne hcell hcmd] at hcells
    have hword : pack e = Function.update s.cells (cellOf s.head) 0 (cellOf s.head) :=
      hcell.symm.trans (congrFun hcells _)
    rw [Function.update_self] at hword
    exact pack_ne_zero e hword
  · intro h
    have hpoll := poll_of_empty h
    have hpop := pop_of_empty h
    refine ⟨?_, ?_, ?_, fun n => ?_⟩
    · rw [hpoll, hpop]
      exact ⟨rfl, rfl, rfl⟩
    · rw [hpoll]
      exact iff_of_true rfl h
    · rw [hpop]
      exact iff_of_true rfl h
    · rw [reads_of_empty hpoll, reads_of_empty hpop]

/-! ## Step by step -/

/-- Where the consumer is in its poll. -/
inductive Poll where
  | idle
  | readHead
  | readTail (head : UInt32)
  | readEntry (head : UInt32)
  | readSlot (head : UInt32) (cmd : UInt32)
  | storeHead (head : UInt32) (request : Entry)
  | returned (result : Option Entry)
  deriving DecidableEq

/-- No poll is in progress. -/
def Poll.Quiet : Poll → Bool
  | .idle | .returned _ => true
  | _ => false

/-- A queue whose consumer may call either reader. -/
structure Readers (ι : Type) where
  queue : State ι
  poll : Poll

namespace Readers

/-- One memory access of the poll the consumer is in. -/
def stepPoll (s : Readers ι) : Option (Readers ι) :=
  match s.poll with
  | .idle => none
  | .readHead => some { s with poll := .readTail s.queue.head }
  | .readTail head =>
    if head = s.queue.tail then some { s with poll := .returned none }
    else some { s with poll := .readEntry head }
  | .readEntry head =>
    let entry := readU32 (s.queue.cells (cellOf head)) 0
    if entry &&& readyBit = 0 then some { s with poll := .returned none }
    else some { s with poll := .readSlot head (entry &&& ~~~readyBit) }
  | .readSlot head cmd =>
    some { s with poll := .storeHead head ⟨readU32 (s.queue.cells (cellOf head)) 4, cmd⟩ }
  | .storeHead head request =>
    some
      { queue := { s.queue with head := head + 1, popped := s.queue.popped ++ [request] }
        poll := .returned (some request) }
  | .returned _ => none

end Readers

/-- A step of the queue as before, a call of `poll`, or a step of it. -/
inductive ReaderAction (ι : Type) where
  | queue (a : Action ι)
  | callPoll
  | poll

variable [DecidableEq ι]

/-- There is one consumer, so it is in one call at a time. -/
def readerStep (s : Readers ι) : ReaderAction ι → Option (Readers ι)
  | .queue (.callPop l) =>
    if s.poll.Quiet then (step s.queue (.callPop l)).map fun q => { s with queue := q } else none
  | .queue a => (step s.queue a).map fun q => { s with queue := q }
  | .callPoll =>
    if s.poll.Quiet ∧ s.queue.consumer.Quiet then some { s with poll := .readHead } else none
  | .poll => s.stepPoll

/-- The queue with both readers. -/
def readers (ι : Type) [DecidableEq ι] : System (Readers ι) (ReaderAction ι) where
  Init s := s = ⟨initial, .idle⟩
  step := readerStep

/-- The steps of a poll by itself are the whole call. -/
theorem run_poll {s : Readers ι} (hp : s.poll.Quiet = true) (hc : s.queue.consumer.Quiet = true) :
    ∃ n, (readers ι).run s (.callPoll :: List.replicate n .poll) =
      some ⟨s.queue.poll.2, .returned s.queue.poll.1⟩ := by
  by_cases hne : s.queue.head = s.queue.tail
  · refine ⟨2, ?_⟩
    simp [System.run_cons, readers, readerStep, hp, hc, Readers.stepPoll, List.replicate,
      poll_of_empty hne, hne]
  by_cases hready : readU32 (s.queue.cells (cellOf s.queue.head)) 0 &&& readyBit = 0
  · refine ⟨3, ?_⟩
    simp [System.run_cons, readers, readerStep, hp, hc, Readers.stepPoll, List.replicate, State.poll,
      hne, hready]
  · refine ⟨5, ?_⟩
    simp [System.run_cons, readers, readerStep, hp, hc, Readers.stepPoll, List.replicate, State.poll,
      hne, hready]

/-- The same for a pop that finds nothing or a published entry. -/
theorem run_readers_pop {s : Readers ι} (hp : s.poll.Quiet = true)
    (hc : s.queue.consumer.Quiet = true) (hpub : HeadPublished s.queue) :
    ∃ n, (readers ι).run s (.queue (.callPop .rust) :: List.replicate n (.queue .pop)) =
      some ⟨s.queue.pop.2.setConsumer (.returned s.queue.pop.1), s.poll⟩ := by
  by_cases hne : s.queue.head = s.queue.tail
  · refine ⟨2, ?_⟩
    simp [System.run_cons, readers, readerStep, step, hp, hc, State.stepPop, List.replicate,
      pop_of_empty hne, hne, State.setConsumer]
  · obtain ⟨e, hcmd, hcell⟩ := hpub hne
    refine ⟨5, ?_⟩
    simp [System.run_cons, readers, readerStep, step, hp, hc, State.stepPop, List.replicate,
      pop_of_published hne hcell hcmd, hne, hcell, ready_pack, unpack_pack hcmd,
      State.setConsumer]

/-- In every state in which the consumer is in no call and the entry at the head is published, the
two readers agree if and only if the queue is empty; and the calls compared are those of the
consumer, taken step by step. -/
theorem readers_agree_iff (s : Readers ι) (hp : s.poll.Quiet = true)
    (hc : s.queue.consumer.Quiet = true) (hpub : HeadPublished s.queue) :
    (ReadersAgree s.queue ↔ s.queue.head = s.queue.tail) ∧
    (∃ n, (readers ι).run s (.callPoll :: List.replicate n .poll) =
      some ⟨s.queue.poll.2, .returned s.queue.poll.1⟩) ∧
    ∃ n, (readers ι).run s (.queue (.callPop .rust) :: List.replicate n (.queue .pop)) =
      some ⟨s.queue.pop.2.setConsumer (.returned s.queue.pop.1), s.poll⟩ :=
  ⟨readersAgree_iff hpub, run_poll hp hc, run_readers_pop hp hc hpub⟩

/-- On the fresh queue they agree. -/
theorem readers_agree_iff_fresh : ReadersAgree (initial : State Unit) :=
  (readers_agree_iff (⟨initial, .idle⟩ : Readers Unit) rfl rfl fun h => absurd rfl h).1.2 rfl

/-- After a push of slot 5 with command 1, `pop` returns it, and `poll` returns nothing however often
it is called. -/
theorem poll_misses_entry : ∃ s : Readers Unit, (readers Unit).Reachable s ∧
    s.poll.Quiet = true ∧ s.queue.consumer.Quiet = true ∧ HeadPublished s.queue ∧
    s.queue.pop.1 = some ⟨5, 1⟩ ∧ (∀ n, reads State.poll n s.queue = List.replicate n none) ∧
    ¬ ReadersAgree s.queue := by
  have hne : (afterPush (initial : State Unit) () ⟨5, 1⟩).head ≠ (afterPush initial () ⟨5, 1⟩).tail := by
    decide
  have hcell : (afterPush (initial : State Unit) () ⟨5, 1⟩).cells
      (cellOf (afterPush (initial : State Unit) () ⟨5, 1⟩).head) = pack ⟨5, 1⟩ := rfl
  have hpub : HeadPublished (afterPush (initial : State Unit) () ⟨5, 1⟩) := fun _ =>
    ⟨⟨5, 1⟩, by decide, hcell⟩
  have hrun : (readers Unit).run ⟨initial, .idle⟩ [.queue (.callPush () .go ⟨5, 1⟩),
      .queue (.push ()), .queue (.push ()), .queue (.push ()), .queue (.push ())] =
        some ⟨afterPush initial () ⟨5, 1⟩, .idle⟩ := by
    simp [System.run_cons, readers, readerStep, step, State.stepPush, State.setProducer, initial,
      Push.Quiet, afterPush]
  refine ⟨_, System.reachable_of_run rfl hrun, rfl, rfl, hpub, ?_, ?_, ?_⟩
  · rw [pop_of_published hne hcell (by decide)]
  · exact reads_of_empty ((poll_of_published hne hcell).trans (if_pos (by decide)))
  · rw [readersAgree_iff hpub]
    exact hne

/-! ## Slot IDs of the registry -/

/-- The pushes are of slot IDs below `2 ^ 31`. -/
def SmallSlots (_ : Readers ι) : ReaderAction ι → Prop
  | .queue (.callPush _ _ e) => e.slotID.toNat < 2 ^ 31
  | _ => True

/-- The entry of a push that is not yet in its cell. -/
def Push.entry : Push → Option Entry
  | .readHead _ e _ | .readTail _ e _ _ | .cas _ e _ _ | .store e _ => some e
  | _ => none

/-- The poll has not found a ready bit. -/
def Poll.Empty : Poll → Prop
  | .readSlot _ _ | .storeHead _ _ | .returned (some _) => False
  | _ => True

/-- There is no ready bit where `poll` looks for it. -/
structure Unready (s : Readers ι) : Prop where
  cells : ∀ i, slotOf (s.queue.cells i) &&& readyBit = 0
  entries : ∀ p e, (s.queue.producer p).entry = some e → e.slotID &&& readyBit = 0
  poll : s.poll.Empty

theorem and_readyBit_of_lt {x : UInt32} (h : x.toNat < 2 ^ 31) : x &&& readyBit = 0 := by
  apply UInt32.toNat_inj.mp
  rw [UInt32.toNat_and, show readyBit.toNat = 2 ^ 31 from rfl, Nat.and_two_pow,
    Nat.testBit_lt_two_pow h]
  rfl

/-- A step of a producer leaves the cells as they are or stores its entry, and nobody's entry
changes. -/
theorem stepPush_entry {s t : State ι} {p : ι} (hs : s.stepPush p = some t) :
    (t.cells = s.cells ∨
      ∃ e i, (s.producer p).entry = some e ∧ t.cells = Function.update s.cells i (pack e)) ∧
    ∀ q e, (t.producer q).entry = some e → (s.producer q).entry = some e := by
  have hupdate : ∀ pc : Push, (∀ e, pc.entry = some e → (s.producer p).entry = some e) →
      ∀ q e, (Function.update s.producer p pc q).entry = some e →
        (s.producer q).entry = some e := by
    intro pc hpc q e he
    by_cases hq : q = p
    · subst hq
      rw [Function.update_self] at he
      exact hpc e he
    · rwa [Function.update_of_ne hq] at he
  unfold State.stepPush at hs
  cases hp : s.producer p with
  | idle | returned => simp [hp] at hs
  | readHead l e spin =>
    simp only [hp, Option.some.injEq] at hs
    subst hs
    exact ⟨.inl rfl, hupdate _ fun _ he => by rw [hp]; exact he⟩
  | readTail l e spin hd =>
    simp only [hp] at hs
    split_ifs at hs <;> simp only [Option.some.injEq] at hs <;> subst hs
    · exact ⟨.inl rfl, hupdate _ fun _ he => by rw [hp]; exact he⟩
    · exact ⟨.inl rfl, hupdate _ nofun⟩
    · exact ⟨.inl rfl, hupdate _ fun _ he => by rw [hp]; exact he⟩
  | cas l e spin tl =>
    simp only [hp] at hs
    split_ifs at hs <;> simp only [Option.some.injEq] at hs <;> subst hs
    · exact ⟨.inl rfl, hupdate _ fun _ he => by rw [hp]; exact he⟩
    · exact ⟨.inl rfl, hupdate _ fun _ he => by rw [hp]; exact he⟩
  | store e tl =>
    simp only [hp, Option.some.injEq] at hs
    subst hs
    exact ⟨.inr ⟨e, cellOf tl, rfl, rfl⟩, hupdate _ nofun⟩

omit [DecidableEq ι] in
theorem stepPop_cells {s t : State ι} (hs : s.stepPop = some t) :
    t.cells = s.cells ∨ ∃ i, t.cells = Function.update s.cells i 0 := by
  unfold State.stepPop at hs
  cases hc : s.consumer with
  | idle | returned => simp [hc] at hs
  | readHead l | storeHead hd w =>
    simp only [hc, Option.some.injEq] at hs
    subst hs
    exact .inl rfl
  | readTail l hd | readEntry l hd spin =>
    simp only [hc] at hs
    split_ifs at hs <;> simp only [Option.some.injEq] at hs <;> subst hs <;> exact .inl rfl
  | clear hd w =>
    simp only [hc, Option.some.injEq] at hs
    subst hs
    exact .inr ⟨cellOf hd, rfl⟩

variable {r r' : Readers ι} {a : ReaderAction ι}

omit [DecidableEq ι] in
theorem Unready.update (h : Unready r) {i : ℕ} {w : UInt64} (hw : slotOf w &&& readyBit = 0) (j : ℕ) :
    slotOf (Function.update r.queue.cells i w j) &&& readyBit = 0 := by
  by_cases hj : j = i
  · rwa [hj, Function.update_self]
  · rw [Function.update_of_ne hj]
    exact h.cells j

theorem Unready.stepQueue (h : Unready r) {a : Action ι} (hok : SmallSlots r (.queue a))
    {q : State ι} (hs : step r.queue a = some q) : Unready { r with queue := q } := by
  cases a with
  | callPush p l e =>
    simp only [step] at hs
    split_ifs at hs
    cases hs
    refine ⟨h.cells, fun p' e' he => ?_, h.poll⟩
    change (Function.update r.queue.producer p (.readHead l e 0) p').entry = some e' at he
    by_cases hp : p' = p
    · rw [hp, Function.update_self] at he
      cases he
      exact and_readyBit_of_lt hok
    · rw [Function.update_of_ne hp] at he
      exact h.entries p' e' he
  | push p =>
    obtain ⟨hcells, hentries⟩ := stepPush_entry hs
    refine ⟨?_, fun p' e' he => h.entries p' e' (hentries p' e' he), h.poll⟩
    rcases hcells with hcells | ⟨e, i, he, hcells⟩
    · rw [hcells]
      exact h.cells
    · rw [hcells]
      refine h.update ?_
      rw [slotOf_pack]
      exact h.entries p e he
  | callPop l =>
    simp only [step] at hs
    split_ifs at hs
    cases hs
    exact ⟨h.cells, h.entries, h.poll⟩
  | pop =>
    refine ⟨?_, ?_, h.poll⟩
    · rcases stepPop_cells hs with hcells | ⟨i, hcells⟩
      · rw [hcells]
        exact h.cells
      · rw [hcells]
        exact h.update (by decide)
    · rw [(stepPop_frame hs).1]
      exact h.entries

omit [DecidableEq ι] in
theorem Unready.stepPoll (h : Unready r) (hs : r.stepPoll = some r') : Unready r' := by
  have hpoll := h.poll
  unfold Readers.stepPoll at hs
  cases hc : r.poll with
  | idle | returned => simp [hc] at hs
  | readHead =>
    simp only [hc, Option.some.injEq] at hs
    subst hs
    exact ⟨h.cells, h.entries, trivial⟩
  | readTail hd =>
    simp only [hc] at hs
    split_ifs at hs <;> simp only [Option.some.injEq] at hs <;> subst hs <;>
      exact ⟨h.cells, h.entries, trivial⟩
  | readEntry hd =>
    simp only [hc, readU32_zero, if_pos (h.cells (cellOf hd)), Option.some.injEq] at hs
    subst hs
    exact ⟨h.cells, h.entries, trivial⟩
  | readSlot hd cmd | storeHead hd e =>
    rw [hc] at hpoll
    cases hpoll

theorem Unready.step (h : Unready r) (hok : SmallSlots r a) (hs : (readers ι).step r a = some r') :
    Unready r' := by
  cases a with
  | queue a =>
    have hmap : (Queue.step r.queue a).map (fun q => { r with queue := q }) = some r' := by
      cases a with
      | callPop l =>
        simp only [readers, readerStep] at hs
        split_ifs at hs
        exact hs
      | callPush p l e => exact hs
      | push p => exact hs
      | pop => exact hs
    obtain ⟨q, hq, rfl⟩ := Option.map_eq_some_iff.1 hmap
    exact h.stepQueue hok hq
  | callPoll =>
    simp only [readers, readerStep] at hs
    split_ifs at hs
    cases hs
    exact ⟨h.cells, h.entries, trivial⟩
  | poll => exact h.stepPoll hs

/-- In no run with slot IDs below `2 ^ 31` does a `poll` return an entry or move the head. -/
theorem poll_never_delivers (hr : (readers ι).Reaches SmallSlots r) :
    r.queue.poll = (none, r.queue) ∧ ∀ result, r.poll = .returned result → result = none := by
  have h : Unready r := by
    refine hr.invariant ?_ fun s a t _ hs hok hst => hs.step hok hst
    rintro s rfl
    exact ⟨fun _ => show slotOf 0 &&& readyBit = 0 by decide, nofun, trivial⟩
  refine ⟨?_, fun result hresult => ?_⟩
  · rw [State.poll, readU32_zero]
    split_ifs with hne
    · rfl
    · exact if_pos (h.cells _)
  · have hpoll := h.poll
    rw [hresult] at hpoll
    cases result with
    | none => rfl
    | some e => cases hpoll

end Mmfg.Queue
