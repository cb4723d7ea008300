import Mathlib.Data.Finset.Basic
import Mathlib.Tactic

/-!
# Read-write mutexes with writer preference

The mutex of Go's `sync` package: a writer first announces itself, which keeps new readers out, and
holds the mutex once the readers that were there before have left.  Readers that arrive meanwhile
queue up and are let in together when the writer unlocks.  `Tracks` ties the mutex to what every
thread is doing with it; each operation keeps it, and it excludes a reader beside a writer.
-/

/-- A read-write mutex.  `writer` holds the mutex for writing or has announced that it waits for
the `readers` to leave; `waiting` are the readers that came after it. -/
structure RWMutex (ι : Type) where
  writer : Option ι
  readers : Finset ι
  waiting : Finset ι

namespace RWMutex

variable {ι : Type}

/-- Nobody has the lock or waits for it. -/
def unlocked : RWMutex ι := ⟨none, ∅, ∅⟩

/-- The part of a thread's program that concerns the mutex. -/
inductive Role
  | out
  | rwait
  | reading
  | wwait
  | writing
  deriving DecidableEq

/-- The mutex agrees with the roles of all threads. -/
structure Tracks (m : RWMutex ι) (role : ι → Role) : Prop where
  reader : ∀ i, i ∈ m.readers → role i = .rwait ∨ role i = .reading
  waiter : ∀ i, i ∈ m.waiting → role i = .rwait
  reading : ∀ i, role i = .reading → i ∈ m.readers
  rwait : ∀ i, role i = .rwait → i ∈ m.readers ∨ i ∈ m.waiting
  writer : ∀ i, m.writer = some i ↔ role i = .wwait ∨ role i = .writing
  alone : ∀ i, role i = .writing → m.readers = ∅
  admitted : m.writer = none → m.waiting = ∅
  apart : ∀ i, i ∈ m.readers → i ∉ m.waiting

theorem tracks_unlocked : (unlocked : RWMutex ι).Tracks fun _ => .out := by
  constructor <;> simp [unlocked]

variable {m : RWMutex ι} {role : ι → Role} {i j : ι}

theorem Tracks.not_reading (h : m.Tracks role) (hi : role i = .writing) : role j ≠ .reading := by
  intro hj
  have := h.reading j hj
  simp [h.alone i hi] at this

theorem Tracks.writer_unique (h : m.Tracks role) (hi : role i = .wwait ∨ role i = .writing)
    (hj : role j = .wwait ∨ role j = .writing) : i = j := by
  have := (h.writer i).2 hi
  rw [(h.writer j).2 hj] at this
  exact (Option.some.inj this).symm

variable [DecidableEq ι]

/-- A reader asks for the mutex: it gets it unless a writer is there. -/
def rlock (m : RWMutex ι) (i : ι) : RWMutex ι :=
  if m.writer = none then { m with readers := insert i m.readers }
  else { m with waiting := insert i m.waiting }

/-- A reader leaves. -/
def runlock (m : RWMutex ι) (i : ι) : RWMutex ι := { m with readers := m.readers.erase i }

/-- A writer announces itself, unless another one is there. -/
def announce (m : RWMutex ι) (i : ι) : RWMutex ι := { m with writer := some i }

/-- The writer leaves and lets the waiting readers in. -/
def unlock (m : RWMutex ι) : RWMutex ι := ⟨none, m.readers ∪ m.waiting, ∅⟩

theorem Tracks.rlock (h : m.Tracks role) (hi : role i = .out) :
    (m.rlock i).Tracks (Function.update role i .rwait) := by
  obtain ⟨h1, h2, h3, h4, h5, h6, h7, h8⟩ := h
  unfold RWMutex.rlock
  split_ifs with hw <;> constructor <;> simp only [Function.update_apply] <;> grind

/-- A reader that has been let in goes on. -/
theorem Tracks.enter (h : m.Tracks role) (hi : role i = .rwait) (hm : i ∈ m.readers) :
    m.Tracks (Function.update role i .reading) := by
  obtain ⟨h1, h2, h3, h4, h5, h6, h7, h8⟩ := h
  have hw : ∀ j, role j ≠ .writing := by
    intro j hj
    simp [h6 j hj] at hm
  refine ⟨?_, ?_, ?_, ?_, ?_, ?_, h7, h8⟩ <;> simp only [Function.update_apply] <;> grind

theorem Tracks.runlock (h : m.Tracks role) (hi : role i = .reading) :
    (m.runlock i).Tracks (Function.update role i .out) := by
  obtain ⟨h1, h2, h3, h4, h5, h6, h7, h8⟩ := h
  constructor <;> simp only [RWMutex.runlock, Function.update_apply] <;> grind

theorem Tracks.announce (h : m.Tracks role) (hi : role i = .out) (hw : m.writer = none) :
    (m.announce i).Tracks (Function.update role i .wwait) := by
  obtain ⟨h1, h2, h3, h4, h5, h6, h7, h8⟩ := h
  constructor <;> simp only [RWMutex.announce, Function.update_apply] <;> grind

/-- The announced writer gets the mutex when the last reader has left. -/
theorem Tracks.acquire (h : m.Tracks role) (hi : role i = .wwait) (hr : m.readers = ∅) :
    m.Tracks (Function.update role i .writing) := by
  obtain ⟨h1, h2, h3, h4, h5, h6, h7, h8⟩ := h
  refine ⟨?_, ?_, ?_, ?_, ?_, ?_, h7, h8⟩ <;> simp only [Function.update_apply] <;> grind

theorem Tracks.unlock (h : m.Tracks role) (hi : role i = .writing) :
    m.unlock.Tracks (Function.update role i .out) := by
  obtain ⟨h1, h2, h3, h4, h5, h6, h7, h8⟩ := h
  constructor <;> simp only [RWMutex.unlock, Function.update_apply] <;> grind

/-- A step of `i` that does not concern the mutex. -/
theorem Tracks.same (h : m.Tracks role) {r : Role} (hi : role i = r) :
    m.Tracks (Function.update role i r) := by
  rw [← hi, Function.update_eq_self]
  exact h

end RWMutex
