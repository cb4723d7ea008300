import Mmfg.Lib.System

/-!
# The event loop of a Go node and its handlers

`StartEventLoop` takes commands from the request queue of the node.  For `CMD_PROCESS` it starts a
goroutine, `processSlot`, that runs the handler and pushes a response.  A handler may call
`RequestExpand`: it makes a channel, puts it in the map `waiters` under the mutex `wMu`, pushes a
request to the hub and receives from the channel.  For `CMD_EXPAND_READY` and `CMD_EXPAND_ERROR` the
event loop takes `wMu`, looks up the channel and sends on it while it holds the mutex.  The channel has
no buffer, so the loop waits there until the handler receives, and sending on a closed channel panics.

Every access to the mutex, the map, a channel or a queue is a step of its own, and a send and the
receive that it meets are one step.  Queues are lists (see `Mmfg.Queue` for the ring buffers); a push
of a request succeeds or fails.

The hub is the environment.  It looks the owner of a slot up only when it takes a request from its
queue, and answers that node.  So the node may get the answer to a request that an earlier owner of the
slot has pushed (`Action.stray`), and a request of this node may be answered to a later owner and never
here.
-/

namespace Mmfg.Node

/-- Channels, in the order in which they are made. -/
abbrev Chan := ℕ

/-- An entry of the request queue.  `asker` is history: the channel of the call that is answered, if
it is a call of this node. -/
inductive Msg
  | process (slot : ℕ)
  | release (slot : ℕ)
  | expanded (slot : ℕ) (ok : Bool) (asker : Option Chan)
  deriving DecidableEq

/-- Program points of `processSlot`. -/
inductive HandlerPC
  /-- in the handler, outside of `RequestExpand` -/
  | running
  -- `RequestExpand`
  | lock (ch : Chan)
  | register (ch : Chan)
  | unlock (ch : Chan)
  | push (ch : Chan)
  | notify (ch : Chan)
  | receive (ch : Chan)
  | close (ch : Chan) (ok : Bool)
  -- behind the handler
  | setDone
  | respond
  | notifyHub
  | finished
  deriving DecidableEq

/-- A goroutine `processSlot(slot)`. -/
structure Handler where
  slot : ℕ
  pc : HandlerPC
  failed : Bool
  deriving DecidableEq

/-- Program points of `StartEventLoop`. -/
inductive LoopPC
  | idle
  | lock (slot : ℕ) (ok : Bool) (asker : Option Chan)
  | lookup (slot : ℕ) (ok : Bool) (asker : Option Chan)
  | send (slot : ℕ) (ok : Bool) (asker : Option Chan) (ch : Chan)
  | delete (slot : ℕ)
  | unlock
  | panicked
  deriving DecidableEq

/-- Who has the mutex. -/
inductive Holder
  | handler (i : ℕ)
  | loop
  deriving DecidableEq

/-- The node, and the part of the hub that it deals with: `asked` has the requests for expansion that
the hub has not answered, with the channels of the calls, `responses` the slots that were handed back
and `freed` those for which the node has called `FreeSlot`.  `answers` and `results` are history: what
the hub has answered to the call with a channel, and what the call has received. -/
structure State where
  wMu : Option Holder
  waiters : ℕ → Option Chan
  closed : Chan → Bool
  /-- the number of channels made -/
  made : ℕ
  /-- the number of goroutines started -/
  started : ℕ
  handlers : ℕ → Handler
  loop : LoopPC
  queue : List Msg
  asked : List (ℕ × Chan)
  responses : List ℕ
  freed : List ℕ
  answers : Chan → Option Bool
  results : Chan → Option Bool

namespace State

/-- The goroutine `i` goes to the program point `pc`. -/
def goto (s : State) (i : ℕ) (pc : HandlerPC) : State :=
  { s with handlers := Function.update s.handlers i { s.handlers i with pc := pc } }

/-- A step of the goroutine `i`; `choice` says whether a push of a request succeeds. -/
def stepHandler (s : State) (i : ℕ) (choice : Bool) : Option State :=
  let h := s.handlers i
  match h.pc with
  | .lock ch =>
    if s.wMu = none then some { s.goto i (.register ch) with wMu := some (.handler i) } else none
  | .register ch =>
    some { s.goto i (.unlock ch) with waiters := Function.update s.waiters h.slot (some ch) }
  | .unlock ch => some { s.goto i (.push ch) with wMu := none }
  | .push ch =>
    -- a failed push leaves the channel in the map
    if choice then some { s.goto i (.notify ch) with asked := s.asked ++ [(h.slot, ch)] }
    else some (s.goto i .running)
  | .notify ch => some (s.goto i (.receive ch))
  | .close ch ok =>
    some { s with
      closed := Function.update s.closed ch true
      handlers := Function.update s.handlers i ⟨h.slot, .running, h.failed || !ok⟩ }
  | .setDone => some (s.goto i .respond)
  -- `pushResponse` tries until it succeeds
  | .respond => some { s.goto i .notifyHub with responses := s.responses ++ [h.slot] }
  | .notifyHub => some (s.goto i .finished)
  | .running | .receive _ | .finished => none

/-- A step of the event loop. -/
def stepLoop (s : State) : Option State :=
  match s.loop with
  | .idle =>
    match s.queue with
    | [] => none
    | .process slot :: q =>
      some { s with
        queue := q
        started := s.started + 1
        handlers := Function.update s.handlers s.started ⟨slot, .running, false⟩ }
    | .release slot :: q => some { s with queue := q, freed := s.freed ++ [slot] }
    | .expanded slot ok asker :: q => some { s with queue := q, loop := .lock slot ok asker }
  | .lock slot ok asker =>
    if s.wMu = none then some { s with wMu := some .loop, loop := .lookup slot ok asker } else none
  | .lookup slot ok asker =>
    match s.waiters slot with
    | none => some { s with loop := .unlock }
    | some ch => some { s with loop := .send slot ok asker ch }
  | .send _ _ _ ch => if s.closed ch then some { s with loop := .panicked } else none
  | .delete slot =>
    some { s with waiters := Function.update s.waiters slot none, loop := .unlock }
  | .unlock => some { s with wMu := none, loop := .idle }
  | .panicked => none

/-- The event loop sends to the goroutine `i`. -/
def stepMeet (s : State) (i : ℕ) : Option State :=
  match s.loop, (s.handlers i).pc with
  | .send slot ok _ ch, .receive ch' =>
    if ch = ch' ∧ s.closed ch = false then
      some { s.goto i (.close ch ok) with
        loop := .delete slot
        results := Function.update s.results ch (some ok) }
    else none
  | _, _ => none

end State

/-- What happens next: the hub pushes a slot to process or to free, answers a request of this node or
of another one, a handler calls `RequestExpand`, returns or panics, or a goroutine takes a step. -/
inductive Action
  | submit (slot : ℕ)
  | release (slot : ℕ)
  | answer (slot : ℕ) (ch : Chan) (ok : Bool)
  | stray (slot : ℕ) (ok : Bool)
  | call (i : ℕ)
  | finish (i : ℕ)
  | panic (i : ℕ)
  | run (i : ℕ) (choice : Bool)
  | loop
  | meet (i : ℕ)
  deriving DecidableEq

/-- A step of the node or of the hub. -/
def step (s : State) : Action → Option State
  | .submit slot => some { s with queue := s.queue ++ [.process slot] }
  | .release slot => some { s with queue := s.queue ++ [.release slot] }
  | .answer slot ch ok =>
    if (slot, ch) ∈ s.asked then
      some { s with
        asked := s.asked.erase (slot, ch)
        queue := s.queue ++ [.expanded slot ok (some ch)]
        answers := Function.update s.answers ch (some ok) }
    else none
  | .stray slot ok => some { s with queue := s.queue ++ [.expanded slot ok none] }
  | .call i =>
    if (s.handlers i).pc = .running then some { s.goto i (.lock s.made) with made := s.made + 1 }
    else none
  | .finish i =>
    if (s.handlers i).pc = .running then
      some (s.goto i (if (s.handlers i).failed then .finished else .setDone))
    else none
  -- `recover` hands the slot back even if an expansion has failed
  | .panic i => if (s.handlers i).pc = .running then some (s.goto i .setDone) else none
  | .run i choice => s.stepHandler i choice
  | .loop => s.stepLoop
  | .meet i => s.stepMeet i

/-- No command has been taken yet. -/
def initial : State where
  wMu := none
  waiters _ := none
  closed _ := false
  made := 0
  started := 0
  handlers _ := ⟨0, .finished, false⟩
  loop := .idle
  queue := []
  asked := []
  responses := []
  freed := []
  answers _ := none
  results _ := none

/-- A Go node during a session. -/
def node : System State Action where
  Init s := s = initial
  step := step

end Mmfg.Node
