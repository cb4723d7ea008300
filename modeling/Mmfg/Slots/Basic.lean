import Mmfg.Lib.Search
import Mmfg.Hub.Step

/-!
# Slots and their semaphore

`Hub.allocSlot` first sends on the channel `limit`, which has room for as many elements as there are
slots, and then tries each slot once, in cyclic order from a shared cursor on; `busConn.Close` frees
the slot and then takes an element out of the channel.  Any number of goroutines open and close
connections; a step makes one access to the channel, the cursor or the registry.

The rest of the hub is the environment.  A handoff changes the status of its slot and never makes it
idle.  `CleanupResources` is left out, as if no node went away: it frees slots that connections still
have, and takes nothing out of the channel (see `Mmfg.Registry.Cleanup`).  The slot that a search takes
is one that a connection of `Mmfg.Hub` may pick (`pick_of_scan`).
-/

namespace Mmfg.Slots

open Hub (Status)

/-- The slot of round `i` of `AllocSlot`, in the arithmetic of `uint32`. -/
def slotAt (start : UInt32) (i : ℕ) : ℕ :=
  ((start + .ofNat i - 1) % .ofNat MaxTotalSlots + 1).toNat

/-- Program points of a goroutine. -/
inductive PC
  /-- without a slot -/
  | idle
  /-- in `allocSlot`, with an element in the channel: before the cursor is moved -/
  | add
  /-- before the compare-and-swap of round `i` -/
  | scan (start : UInt32) (i : ℕ)
  /-- in `SetStripe` -/
  | setStatus (slot : ℕ)
  /-- no slot was found; before `<-h.limit` -/
  | giveUp
  /-- `allocSlot` has returned "no slots available" -/
  | failed
  | opened (slot : ℕ)
  /-- in `Close` -/
  | freeSlot (slot : ℕ)
  | release
  deriving DecidableEq

/-- The number of elements in the channel, the cursor, the registry and the goroutines. -/
structure State (ι : Type) where
  limit : ℕ
  cursor : UInt32
  status : ℕ → Status
  pc : ι → PC

variable {ι : Type} [DecidableEq ι]

/-- Goroutine `j` goes to another program point. -/
def State.goto (s : State ι) (j : ι) (pc : PC) : State ι :=
  { s with pc := Function.update s.pc j pc }

/-- A status is stored in the registry. -/
def State.setStatus (s : State ι) (slot : ℕ) (status : Status) : State ι :=
  { s with status := Function.update s.status slot status }

/-- A goroutine calls `allocSlot` or `Close`, goes on in such a call, or lets a handoff of its
connection change the status of the slot, which it never makes idle. -/
inductive Action (ι : Type)
  | call (j : ι)
  | close (j : ι)
  | run (j : ι)
  | use (j : ι) (status : Status)

/-- A step of a goroutine. -/
def step (s : State ι) : Action ι → Option (State ι)
  | .call j =>
    match s.pc j with
    | .idle | .failed =>
      if s.limit < MaxTotalSlots then some { s.goto j .add with limit := s.limit + 1 } else none
    | _ => none
  | .close j =>
    match s.pc j with
    | .opened slot => some (s.goto j (.freeSlot slot))
    | _ => none
  | .run j =>
    match s.pc j with
    | .add => some { s.goto j (.scan (s.cursor + 1) 0) with cursor := s.cursor + 1 }
    | .scan start i =>
      if i < MaxTotalSlots then
        if s.status (slotAt start i) = .idle then
          some ((s.setStatus (slotAt start i) .busy).goto j (.setStatus (slotAt start i)))
        else some (s.goto j (.scan start (i + 1)))
      else some (s.goto j .giveUp)
    | .setStatus slot => some ((s.setStatus slot .ready).goto j (.opened slot))
    | .giveUp =>
      if 0 < s.limit then some { s.goto j .failed with limit := s.limit - 1 } else none
    | .freeSlot slot => some ((s.setStatus slot .idle).goto j .release)
    -- a receive that does nothing on an empty channel
    | .release => some { s.goto j .idle with limit := s.limit - 1 }
    | _ => none
  | .use j status =>
    match s.pc j with
    | .opened slot => if status ≠ .idle then some (s.setStatus slot status) else none
    | _ => none

/-- A new hub. -/
def newSlots : State ι := ⟨0, 0, fun _ => .idle, fun _ => .idle⟩

/-- The slots as a system. -/
def slots (ι : Type) [DecidableEq ι] : System (State ι) (Action ι) where
  Init s := s = newSlots
  step := step

/-! ## The cyclic order -/

theorem slotAt_eq (start : UInt32) (i : ℕ) :
    slotAt start i = (start.toNat + (MaxTotalSlots - 1) + i) % MaxTotalSlots + 1 := by
  have hlt := start.toNat_lt
  have hone : UInt32.toNat 1 = 1 := rfl
  simp only [slotAt, MaxTotalSlots, UInt32.toNat_add, UInt32.toNat_mod, UInt32.toNat_sub,
    UInt32.toNat_ofNat']
  norm_num
  omega

/-- Every slot has its round. -/
theorem exists_round (start : UInt32) {x : ℕ} (h1 : 1 ≤ x) (hx : x ≤ MaxTotalSlots) :
    ∃ i < MaxTotalSlots, slotAt start i = x := by
  obtain ⟨i, hi, hvisit⟩ := Search.exists_visit (start.toNat + (MaxTotalSlots - 1))
    (show x - 1 < MaxTotalSlots by omega)
  refine ⟨i, hi, ?_⟩
  rw [slotAt_eq, hvisit]
  omega

theorem slotAt_mem (start : UInt32) (i : ℕ) :
    1 ≤ slotAt start i ∧ slotAt start i ≤ MaxTotalSlots := by
  rw [slotAt_eq]
  have hlt := Nat.mod_lt (start.toNat + (MaxTotalSlots - 1) + i) (show 0 < MaxTotalSlots by decide)
  omega

/-! ## The connections of the hub -/

/-- The slot that a search takes is one that a connection in `Hub.hub` may pick, and to the same
effect on the registry. -/
theorem pick_of_scan {s t : State ι} {j : ι} {start : UInt32} {k slot : ℕ} {h : Hub.State} {i : ℕ}
    {u : Hub.Use} (hpc : s.pc j = .scan start k) (hs : step s (.run j) = some t)
    (ht : t.pc j = .setStatus slot) (hstatus : ∀ x, (h.reg x).status = s.status x)
    (hi : (h.conns i).pc = .allocSlot u) :
    ∃ h', Hub.stepConn h i (.pick slot) = some h' ∧ ∀ x, (h'.reg x).status = t.status x := by
  simp only [step, hpc] at hs
  split_ifs at hs with hk hidle <;> cases hs
  · obtain rfl : slotAt start k = slot := by simpa [State.goto] using ht
    obtain ⟨h1, hmax⟩ := slotAt_mem start k
    generalize slotAt start k = slot at *
    refine ⟨(h.setReg slot { h.reg slot with status := .busy }).setConn i
      { h.conns i with pc := .setHeader u slot }, ?_, fun x => ?_⟩
    · unfold Hub.stepConn
      simp only [hi]
      exact if_pos ⟨h1, hmax, (hstatus slot).trans hidle⟩
    · by_cases hx : x = slot
      · simp [Hub.State.setReg, Hub.State.setConn, State.setStatus, State.goto, hx]
      · simp [Hub.State.setReg, Hub.State.setConn, State.setStatus, State.goto, hx, hstatus]
  · simp [State.goto] at ht
  · simp [State.goto] at ht

end Mmfg.Slots
