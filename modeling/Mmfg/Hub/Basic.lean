import Mmfg.Lib.System
import Mmfg.Shm.Stripe

/-!
# The hub, its connections and its nodes: state

A connection owns a stripe and, from its first handoff on, a slot of the registry and a completion
channel.  `Next` hands the slot to a node: it sets the registry entry, stores a pointer to its
channel in `waiters`, pushes the slot to the node's request queue and waits.  The node runs a
handler, sets the entry to `Done` and pushes the slot to the response queue; the dispatch loop takes
the waiter and sends on its channel.  A handler may ask for more blocks, which a goroutine of the
hub adds to the header block.

Queues are lists here (see `Mmfg.Queue` for the ring buffers), and the allocator hands out free
blocks (see `Mmfg.Bus` for the bitmap words).  Every access to shared state is a step of its own.
The semaphore `limit` only delays allocations and is left out, and so is `CMD_RELEASE`, which nobody
sends.
-/

namespace Mmfg.Hub

open Shm

/-- The status of a slot. -/
inductive Status | idle | busy | ready | done
  deriving DecidableEq

/-- The registry entry of a slot. -/
structure Entry where
  header : BlockId
  owner : ℕ
  status : Status
  deriving DecidableEq

/-- A handoff: the connection and the number of the handoff.  The code has no such identifiers; in
the model they tag what belongs to a handoff, and no step depends on them. -/
abbrev Handoff := ℕ × ℕ

/-- The commands of the queues. -/
inductive Cmd | process | requestExpand | expandReady | expandError
  deriving DecidableEq

/-- A queue entry, with the handoff it comes from. -/
structure Msg where
  slot : ℕ
  cmd : Cmd
  tag : Handoff
  deriving DecidableEq

/-- What is sent on a completion channel: `nil` or an error. -/
structure Completion where
  tag : Handoff
  ok : Bool
  deriving DecidableEq

/-! ## Connections -/

/-- A session with a node, from `Dial` to the end of its watchdog: the node ID, and a number that
tells apart the sessions with the same ID. -/
abbrev SessionId := ℕ × ℕ

/-- What `allocSlot` and `SetStripe` are called for: `Request`, the first part of `Next` on session
`d`, or the handoff itself. -/
inductive Use
  | request
  | next (d : SessionId)
  | handoff (d : SessionId)
  deriving DecidableEq

/-- Program points of the goroutine that uses a connection. -/
inductive ConnPC
  /-- before `Request` -/
  | absent
  /-- in `AllocStripe`, with the blocks taken so far -/
  | alloc (n : ℕ) (needSlot : Bool) (held : List BlockId)
  /-- freeing blocks after an error -/
  | undo (todo : List BlockId) (isOpen : Bool)
  /-- in `allocSlot`, then the three stores of `SetStripe`, then `donePool.Get` -/
  | allocSlot (u : Use)
  | setHeader (u : Use) (slot : ℕ)
  | setOwner (u : Use) (slot : ℕ)
  | setStatus (u : Use) (slot : ℕ)
  | getDone (u : Use) (slot : ℕ)
  /-- between two calls -/
  | opened
  /-- in a write of `len` bytes at `off`: taking `n` more blocks, then copying -/
  | grow (off len n : ℕ) (held : List BlockId)
  | copy (off len : ℕ)
  /-- in `Next` on session `d` -/
  | poll (d : SessionId)
  | clear (d : SessionId)
  | store (d : SessionId)
  | push (d : SessionId)
  | notify (d : SessionId)
  | wait
  | refresh
  /-- `Next` is about to return nil -/
  | returned
  /-- in `Close` -/
  | free (todo : List BlockId)
  | dropWaiter
  | putDone
  | freeSlot
  | dropDone
  | closed
  deriving DecidableEq

/-- A `busConn`; `done` is the number of its channel, `handoffs` counts its handoffs. -/
structure Conn where
  pc : ConnPC
  stripe : Stripe
  slotID : ℕ
  done : Option ℕ
  handoffs : ℕ
  deriving DecidableEq

/-! ## The hub's goroutines -/

/-- Program points of `dispatchLoop`. -/
inductive DispPC
  | idle
  | swap (slot : ℕ) (tag : Handoff)
  /-- sending on the channel of connection `conn` -/
  | send (conn : ℕ) (tag : Handoff)
  | owner (slot : ℕ) (tag : Handoff)
  deriving DecidableEq

/-- A decoded header: data length, block count, sequence. -/
abbrev Meta := UInt32 × ℕ × List Int16

/-- Program points of `handleExpandRequest`. -/
inductive ExpPC
  | header
  | decode (b : BlockId)
  | check (b : BlockId) (m : Meta)
  | alloc (b : BlockId) (m : Meta) (held : List BlockId)
  /-- the second `UpdateStripeHeader` -/
  | rewrite (b : BlockId) (m : Meta)
  | undo (todo : List BlockId)
  | respond (ok : Bool)
  | load
  | send (conn : ℕ)
  | gone
  deriving DecidableEq

/-- A goroutine `handleExpandRequest(node, slot)`. -/
structure Expander where
  node : ℕ
  slot : ℕ
  tag : Handoff
  pc : ExpPC
  deriving DecidableEq

/-- Program points of `watchdog` and `CleanupResources`. -/
inductive WatchPC
  /-- not dialled -/
  | absent
  /-- blocked in `Read` -/
  | reading
  | status (i : ℕ)
  | owner (i : ℕ)
  | header (i : ℕ)
  | decode (i : ℕ) (b : BlockId)
  | free (i : ℕ) (todo : List BlockId)
  | freeSlot (i : ℕ)
  | freeID
  | delete
  | close
  | gone
  deriving DecidableEq

/-! ## Nodes -/

/-- Program points of a handler; `again` tells a later look at the header from the first. -/
inductive HandlerPC
  | locate (again : Bool)
  | decode (again : Bool) (b : BlockId)
  | running
  | setDone
  | respond
  | finished
  deriving DecidableEq

/-- A handler on a slot: its view of the stripe, the number of expansions it has asked for and not
heard of, whether it has heard of a refusal, and whether one of them was refused. -/
structure Handler where
  slot : ℕ
  session : SessionId
  lang : Lang
  pc : HandlerPC
  header : BlockId
  sequence : List Int16
  blocks : List BlockId
  pending : ℕ
  failed : Bool
  refused : Bool
  deriving DecidableEq

/-- The hub's `NodeInfo` and the goroutine that watches the socket. -/
structure Session where
  name : ℕ
  lang : Lang
  closed : Bool
  watch : WatchPC
  deriving DecidableEq

/-! ## The state -/

/-- The whole state.  `pool` has the channels that are not in use, those not yet made included;
`ledger` records for which connection a block was allocated. -/
structure State where
  used : BlockId → Bool
  ledger : BlockId → Option ℕ
  mem : BlockId → Bytes
  reg : ℕ → Entry
  waiters : ℕ → Option ℕ
  chans : ℕ → Option Completion
  pool : ℕ → Bool
  conns : ℕ → Conn
  disp : DispPC
  exps : ℕ → Option Expander
  respQ : List Msg
  reqQ : ℕ → List Msg
  sessions : SessionId → Session
  /-- `h.nodes`: names and sessions -/
  names : List (ℕ × SessionId)
  /-- `h.nodeIDs` -/
  ids : ℕ → Bool
  handlers : Handoff → Option Handler
  /-- the nodes' maps of handlers that wait for an expansion, by session and slot -/
  waiting : SessionId → ℕ → Option Handoff

/-- The blocks of the control stripe. -/
def controlBlock (b : BlockId) : Bool := b.1 = -1 && 0 ≤ b.2 && b.2 < 256

/-- The state after `NewHub`; the contents of the memory are arbitrary. -/
def newHub (mem : BlockId → Bytes) : State where
  used := controlBlock
  ledger _ := none
  mem := mem
  reg _ := ⟨(0, 0), 0, .idle⟩
  waiters _ := none
  chans _ := none
  pool _ := true
  conns _ := ⟨.absent, ⟨[], 0, [], 0⟩, 0, none, 0⟩
  disp := .idle
  exps _ := none
  respQ := []
  reqQ _ := []
  sessions _ := ⟨0, .go, false, .absent⟩
  names := []
  ids _ := false
  handlers _ := none
  waiting _ _ := none

namespace State

/-- A CAS of `AllocBlocks` on behalf of connection `i`. -/
def take (s : State) (i : ℕ) (batch : List BlockId) : State :=
  { s with
    used := fun b => b ∈ batch || s.used b
    ledger := fun b => if b ∈ batch then some i else s.ledger b }

/-- The blocks can be taken at once: they are free. -/
def CanTake (s : State) (batch : List BlockId) : Prop :=
  batch.Nodup ∧ ∀ b ∈ batch, Blk b ∧ s.used b = false

instance (s : State) (batch : List BlockId) : Decidable (s.CanTake batch) :=
  inferInstanceAs (Decidable (_ ∧ _))

/-- `FreeBlock`. -/
def free (s : State) (b : BlockId) : State :=
  { s with
    used := Function.update s.used b false
    ledger := Function.update s.ledger b none }

/-- The record of connection `i` changes. -/
def setConn (s : State) (i : ℕ) (c : Conn) : State :=
  { s with conns := Function.update s.conns i c }

/-- A block is written. -/
def setMem (s : State) (b : BlockId) (bytes : Bytes) : State :=
  { s with mem := Function.update s.mem b bytes }

/-- A registry entry is written. -/
def setReg (s : State) (slot : ℕ) (e : Entry) : State :=
  { s with reg := Function.update s.reg slot e }

/-- A channel is filled or emptied. -/
def setChan (s : State) (ch : ℕ) (c : Option Completion) : State :=
  { s with chans := Function.update s.chans ch c }

/-- The goroutine `e` is started, or goes on. -/
def setExp (s : State) (e : ℕ) (x : Expander) : State :=
  { s with exps := Function.update s.exps e (some x) }

/-- The handler of `h` is started, or goes on. -/
def setHandler (s : State) (h : Handoff) (x : Handler) : State :=
  { s with handlers := Function.update s.handlers h (some x) }

/-- The watchdog of session `d` goes on. -/
def setWatch (s : State) (d : SessionId) (w : WatchPC) : State :=
  { s with sessions := Function.update s.sessions d { s.sessions d with watch := w } }

/-- `Push` on the request queue of node `n`. -/
def pushReq (s : State) (n : ℕ) (m : Msg) : State :=
  { s with reqQ := Function.update s.reqQ n (s.reqQ n ++ [m]) }

/-- `Push` on the response queue. -/
def pushResp (s : State) (m : Msg) : State :=
  { s with respQ := s.respQ ++ [m] }

/-- Some session in `h.nodes` has node ID `n`. -/
def Listed (s : State) (n : ℕ) : Prop := ∃ p ∈ s.names, p.2.1 = n

instance (s : State) (n : ℕ) : Decidable (s.Listed n) := inferInstanceAs (Decidable (∃ _ ∈ _, _))

end State

end Mmfg.Hub
