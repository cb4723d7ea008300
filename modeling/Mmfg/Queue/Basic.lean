import Mmfg.Lib.System
import Mmfg.Layout

/-!
# The shared-memory MPSC queue

A ring of 64-bit words with a 32-bit head and tail, written by `Control.Push` (Go) or
`ControlRegion::push` (Rust) from any number of producers and read by `Pop` or `pop` from one
consumer.  Every load, store and compare-and-swap of the two functions is one step of the system
`queue ι`, where `ι` names the producers; the wrapping 32-bit arithmetic is that of `UInt32`.

The fields `pushed` and `popped` of a state are history: the entries in the order of their tail
claims, and those returned by successful pops.
-/

namespace Mmfg

namespace Queue

/-- `Q_READY_BIT`: the high bit of the command half. -/
def readyBit : UInt32 := 0x80000000

/-- What a producer pushes and a pop returns. -/
structure Entry where
  slotID : UInt32
  cmd : UInt32
  deriving DecidableEq

/-- The ring word of an entry. -/
def pack (e : Entry) : UInt64 :=
  ((e.cmd ||| readyBit).toUInt64 <<< 32) ||| e.slotID.toUInt64

/-- The command half of a ring word, ready bit included. -/
def commandOf (packed : UInt64) : UInt32 := (packed >>> 32).toUInt32

/-- The slot in a queue entry. -/
def slotOf (packed : UInt64) : UInt32 := (packed &&& 0xFFFFFFFF).toUInt32

/-- What a pop returns for a ring word. -/
def unpack (packed : UInt64) : Entry := ⟨slotOf packed, commandOf packed &&& ~~~readyBit⟩

end Queue

open Queue

/-- The test of the ready bit: Go tests the 32-bit command, Rust the shifted 64-bit word. -/
def Lang.ready : Lang → UInt64 → Bool
  | .go, packed => commandOf packed &&& readyBit != 0
  | .rust, packed => (packed >>> 32) &&& readyBit.toUInt64 != 0

/-- How often a push that finds the ring full tries again: up to `spin = 75` in Go (yielding,
then sleeping), a million times in Rust. -/
def Lang.pushSpins : Lang → ℕ
  | .go => 75
  | .rust => 1000000

/-- How often a pop reads an unpublished entry again before it gives up; Go never does. -/
def Lang.popSpins : Lang → Option ℕ
  | .go => none
  | .rust => some 1000000

namespace Queue

/-- The ring cell of a position. -/
def cellOf (pos : UInt32) : ℕ := (pos % QueueSize.toUInt32).toNat

/-- Where a producer is in its push. -/
inductive Push where
  | idle
  | readHead (l : Lang) (e : Entry) (spin : ℕ)
  | readTail (l : Lang) (e : Entry) (spin : ℕ) (head : UInt32)
  | cas (l : Lang) (e : Entry) (spin : ℕ) (tail : UInt32)
  | store (e : Entry) (tail : UInt32)
  | returned (ok : Bool)
  deriving DecidableEq

/-- Where the consumer is in its pop. -/
inductive Pop where
  | idle
  | readHead (l : Lang)
  | readTail (l : Lang) (head : UInt32)
  | readEntry (l : Lang) (head : UInt32) (spin : ℕ)
  | clear (head : UInt32) (packed : UInt64)
  | storeHead (head : UInt32) (packed : UInt64)
  | returned (result : Option Entry)
  deriving DecidableEq

/-- The ring, the program points of all threads, and the history. -/
structure State (ι : Type) where
  head : UInt32
  tail : UInt32
  cells : ℕ → UInt64
  producer : ι → Push
  consumer : Pop
  pushed : List Entry
  popped : List Entry

variable {ι : Type} [DecidableEq ι]

namespace State

/-- Producer `p` goes to another program point. -/
def setProducer (s : State ι) (p : ι) (pc : Push) : State ι :=
  { s with producer := Function.update s.producer p pc }

/-- The consumer goes to another program point. -/
def setConsumer (s : State ι) (pc : Pop) : State ι := { s with consumer := pc }

/-- One atomic step of the push that producer `p` is in. -/
def stepPush (s : State ι) (p : ι) : Option (State ι) :=
  match s.producer p with
  | .idle => none
  | .readHead l e spin => some (s.setProducer p (.readTail l e spin s.head))
  | .readTail l e spin head =>
    if (QueueSize - 1).toUInt32 ≤ s.tail - head then
      if spin < l.pushSpins then some (s.setProducer p (.readHead l e (spin + 1)))
      else some (s.setProducer p (.returned false))
    else some (s.setProducer p (.cas l e spin s.tail))
  | .cas l e spin tail =>
    if s.tail = tail then
      some { s with
        tail := tail + 1
        pushed := s.pushed ++ [e]
        producer := Function.update s.producer p (.store e tail) }
    else some (s.setProducer p (.readHead l e spin))
  | .store e tail =>
    some { s with
      cells := Function.update s.cells (cellOf tail) (pack e)
      producer := Function.update s.producer p (.returned true) }
  | .returned _ => none

/-- One atomic step of the pop the consumer is in. -/
def stepPop (s : State ι) : Option (State ι) :=
  match s.consumer with
  | .idle => none
  | .readHead l => some (s.setConsumer (.readTail l s.head))
  | .readTail l head =>
    if head = s.tail then some (s.setConsumer (.returned none))
    else some (s.setConsumer (.readEntry l head 0))
  | .readEntry l head spin =>
    if l.ready (s.cells (cellOf head)) then
      some (s.setConsumer (.clear head (s.cells (cellOf head))))
    else if l.popSpins = some spin then some (s.setConsumer (.returned none))
    else some (s.setConsumer (.readEntry l head (spin + 1)))
  | .clear head packed =>
    some { s with
      cells := Function.update s.cells (cellOf head) 0
      consumer := .storeHead head packed }
  | .storeHead head packed =>
    some { s with
      head := head + 1
      popped := s.popped ++ [unpack packed]
      consumer := .returned (some (unpack packed)) }
  | .returned _ => none

end State

/-- A producer calls push, a producer takes its next step, the consumer calls pop, or the consumer
takes its next step. -/
inductive Action (ι : Type) where
  | callPush (p : ι) (l : Lang) (e : Entry)
  | push (p : ι)
  | callPop (l : Lang)
  | pop
  deriving DecidableEq

/-- No call is in progress. -/
def Push.Quiet : Push → Bool
  | .idle | .returned _ => true
  | _ => false

/-- No pop is in progress. -/
def Pop.Quiet : Pop → Bool
  | .idle | .returned _ => true
  | _ => false

/-- A step of a producer or of the consumer. -/
def step (s : State ι) : Action ι → Option (State ι)
  | .callPush p l e =>
    if (s.producer p).Quiet then some (s.setProducer p (.readHead l e 0)) else none
  | .push p => s.stepPush p
  | .callPop l => if s.consumer.Quiet then some (s.setConsumer (.readHead l)) else none
  | .pop => s.stepPop

/-- `Control.Init` on fresh shared memory: both counters and all cells are zero. -/
def initial : State ι where
  head := 0
  tail := 0
  cells _ := 0
  producer _ := .idle
  consumer := .idle
  pushed := []
  popped := []

/-- The queue with producers `ι`. -/
def queue (ι : Type) [DecidableEq ι] : System (State ι) (Action ι) where
  Init s := s = initial
  step := step

/-! ## Ring words -/

theorem pack_toNat (e : Entry) :
    (pack e).toNat = (e.cmd ||| readyBit).toNat * 2 ^ 32 + e.slotID.toNat := by
  have hc : (e.cmd ||| readyBit).toNat < 2 ^ 32 := UInt32.toNat_lt _
  have hs : e.slotID.toNat < 2 ^ 32 := UInt32.toNat_lt _
  simp only [pack, UInt64.toNat_or, UInt64.toNat_shiftLeft, UInt32.toNat_toUInt64]
  rw [show UInt64.toNat 32 % 64 = 32 from rfl,
    Nat.mod_eq_of_lt (by rw [Nat.shiftLeft_eq]; omega),
    ← Nat.shiftLeft_add_eq_or_of_lt hs, Nat.shiftLeft_eq]

theorem commandOf_pack (e : Entry) : commandOf (pack e) = e.cmd ||| readyBit := by
  have hc : (e.cmd ||| readyBit).toNat < 2 ^ 32 := UInt32.toNat_lt _
  have hs : e.slotID.toNat < 2 ^ 32 := UInt32.toNat_lt _
  apply UInt32.toNat_inj.mp
  rw [commandOf, UInt64.toNat_toUInt32, UInt64.toNat_shiftRight, pack_toNat,
    show UInt64.toNat 32 % 64 = 32 from rfl, Nat.shiftRight_eq_div_pow]
  omega

theorem slotOf_pack (e : Entry) : slotOf (pack e) = e.slotID := by
  have hs : e.slotID.toNat < 2 ^ 32 := UInt32.toNat_lt _
  apply UInt32.toNat_inj.mp
  rw [slotOf, UInt64.toNat_toUInt32, UInt64.toNat_and, pack_toNat,
    show UInt64.toNat 0xFFFFFFFF = 2 ^ 32 - 1 from rfl, Nat.and_two_pow_sub_one_eq_mod]
  omega

theorem or_readyBit_and (c : UInt32) : (c ||| readyBit) &&& readyBit = readyBit := by
  apply UInt32.toBitVec_inj.mp
  ext i hi
  simp only [UInt32.toBitVec_and, UInt32.toBitVec_or, BitVec.getElem_and, BitVec.getElem_or]
  cases readyBit.toBitVec[i] <;> simp

/-- Below `2 ^ 31` the ready bit is free, so masking it gives the command back. -/
theorem or_readyBit_mask {c : UInt32} (h : c.toNat < 2 ^ 31) :
    (c ||| readyBit) &&& ~~~readyBit = c := by
  apply UInt32.toNat_inj.mp
  have hor : c.toNat ||| 2 ^ 31 = 2 ^ 31 + c.toNat := by
    rw [Nat.or_comm]
    simpa using (Nat.two_pow_add_eq_or_of_lt h 1).symm
  rw [UInt32.toNat_and, UInt32.toNat_or, show readyBit.toNat = 2 ^ 31 from rfl,
    show (~~~readyBit).toNat = 2 ^ 31 - 1 from rfl, Nat.and_two_pow_sub_one_eq_mod, hor]
  omega

theorem unpack_pack {e : Entry} (h : e.cmd.toNat < 2 ^ 31) : unpack (pack e) = e := by
  simp only [unpack, slotOf_pack, commandOf_pack, or_readyBit_mask h]

/-- Both languages read the same ready bit. -/
theorem ready_eq (l : Lang) (w : UInt64) :
    l.ready w = (commandOf w &&& readyBit != 0) := by
  cases l with
  | go => rfl
  | rust =>
    have hm : (w >>> 32).toNat % 2 ^ 32 = (w >>> 32).toNat := by
      have := w.toNat_lt
      rw [UInt64.toNat_shiftRight, show UInt64.toNat 32 % 64 = 32 from rfl,
        Nat.shiftRight_eq_div_pow]
      omega
    have he : (w >>> 32) &&& readyBit.toUInt64 = (commandOf w &&& readyBit).toUInt64 := by
      apply UInt64.toNat_inj.mp
      rw [UInt64.toNat_and, UInt32.toNat_toUInt64, UInt32.toNat_toUInt64, UInt32.toNat_and,
        commandOf, UInt64.toNat_toUInt32, hm]
    rw [Lang.ready, he]
    simp only [bne, beq_eq_decide, ← UInt64.toNat_inj, ← UInt32.toNat_inj, UInt32.toNat_toUInt64]
    rfl

theorem ready_pack (l : Lang) (e : Entry) : l.ready (pack e) = true := by
  rw [ready_eq, commandOf_pack, or_readyBit_and]
  rfl

theorem ready_zero (l : Lang) : l.ready 0 = false := by cases l <;> rfl

theorem pack_ne_zero (e : Entry) : pack e ≠ 0 := by
  intro h
  have := ready_pack .go e
  rw [h, ready_zero] at this
  cases this

end Queue

end Mmfg
