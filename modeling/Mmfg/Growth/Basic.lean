import Mmfg.Lib.System
import Mmfg.Lib.RWMutex
import Mmfg.Layout

/-!
# Growing the bus while nodes connect

`Hub.Dial`, `Bus.tryAppendChunk` with its callback `AppendedChunkBroacast`, `handleExpandRequest`
and the exit of `watchdog`, as threads that use three locks: the hub's `h.mu`, the bus's `b.mu` and
`tryAppendChunkMux`.  A request of a lock and its being granted are separate steps.  What the
threads send to a node goes through the socket of its session, in order; the node takes the
messages from there.

Which blocks are free does not matter here: a scan of the bitmap succeeds or not (`alt`), and the
loops that free blocks make any number of accesses to the bus.  Handoffs and slots do not matter
either: a connection may call `AllocBlocks`, and a node ask for an expansion, at any time.  `Next` has
`h.mu` for no more than the lookup of a name and is left out.
-/

namespace Mmfg.Growth

/-- Messages of the hub to a node, with the chunks whose descriptors they carry. -/
inductive Msg
  | handshake (fds : List Chunk)
  | newChunk (fds : List Chunk)
  deriving DecidableEq

/-- The node's side of a session: its chunk list once the handshake has been received. -/
inductive Node
  | waiting
  | ready (chunks : List Chunk)
  | failed
  deriving DecidableEq

/-- One call of `Dial` and the session it sets up.  `socket` holds the messages in flight, `live` is
set from the successful end of `Dial` until the watchdog sees the connection fail. -/
structure Session where
  name : ℕ
  nodeID : ℕ
  socket : List Msg
  node : Node
  live : Bool
  deriving DecidableEq

/-- Who called `AllocBlocks`: a connection, or `handleExpandRequest`. -/
inductive Caller
  | direct
  | expand
  deriving DecidableEq

/-- Who takes `h.mu` for writing: `allocNodeID` and the registration in `Dial` (`n` chunks sent with
the handshake), `freeNodeID` and the removal in `watchdog`. -/
inductive HWriter
  | allocNodeID (d : ℕ)
  | register (d n : ℕ)
  | freeNodeID (d : ℕ)
  | delete (d : ℕ)
  deriving DecidableEq

/-- Who takes `h.mu` for reading: `Dial` for the handshake, `handleExpandRequest`,
`expandResponse`, and the broadcast of a chunk by `tryAppendChunk`. -/
inductive HReader
  | handshake (d : ℕ)
  | expand
  | respond
  | broadcast (r : Caller) (chunk : Chunk)
  deriving DecidableEq

/-- Who takes `b.mu` for reading: the calls of `GetChunk` in `Dial` and in `handleExpandRequest`,
the scan of `AllocBlocks`, and the calls of `FreeBlock` and `GetChunk` that give blocks back. -/
inductive BReader
  | handshake (d n : ℕ) (fds : List Chunk)
  | catchUp (d n after : ℕ) (fds : List Chunk)
  | expand
  | scan (r : Caller)
  | undo (r : Caller)
  | cleanup (d : ℕ)
  deriving DecidableEq

/-- Program points. -/
inductive PC
  | idle
  | hLock (k : HWriter)
  | hLockWait (k : HWriter)
  | hRLock (k : HReader)
  | hRLockWait (k : HReader)
  | bRLock (k : BReader)
  | bRLockWait (k : BReader)
  | bRead (k : BReader)
  /-- `GetChunk` returned nil, and the caller has dereferenced it. -/
  | panicked (k : BReader)
  -- `Dial`
  | allocNodeID (d : ℕ)
  | handCount (d : ℕ)
  | handRUnlock (d n : ℕ) (fds : List Chunk)
  | handSend (d n : ℕ) (fds : List Chunk)
  | afterCount (d n : ℕ)
  | catchSend (d : ℕ) (fds : List Chunk)
  | register (d : ℕ)
  -- `handleExpandRequest`
  | expandRUnlock
  | respond
  -- `tryAppendChunk`
  | chunkCount (r : Caller)
  | muxLock (r : Caller) (count : ℕ)
  | recheck (r : Caller) (count : ℕ)
  | newChunk (r : Caller) (count : ℕ)
  | bLock (r : Caller) (chunk : Chunk)
  | bLockWait (r : Caller) (chunk : Chunk)
  | grow (r : Caller) (chunk : Chunk)
  | snapshot (r : Caller) (chunk : Chunk)
  | broadcast (r : Caller) (chunk : Chunk) (nodes : List ℕ)
  | bUnlock (r : Caller)
  | muxUnlock (r : Caller) (failed : Bool)
  | undo (r : Caller)
  -- `watchdog`
  | cleanup (d : ℕ)
  | freeNodeID (d : ℕ)
  | delete (d : ℕ)
  deriving DecidableEq

/-- The state: chunk list and count of the bus, the hub's table of nodes (name and session) and its
node IDs, all sessions so far, the locks, and the threads. -/
structure State (ι : Type) where
  chunks : List Chunk
  count : ℕ
  nodes : List (ℕ × ℕ)
  nodeIDs : List ℕ
  sessions : ℕ → Session
  next : ℕ
  hmu : RWMutex ι
  bmu : RWMutex ι
  mux : Option ι
  pc : ι → PC

/-- The program point behind a granted `h.mu.Lock()`. -/
def HWriter.enter : HWriter → PC
  | .allocNodeID d => .allocNodeID d
  | .register d n => .afterCount d n
  | .freeNodeID d => .freeNodeID d
  | .delete d => .delete d

/-- The program point behind a granted `h.mu.RLock()`. -/
def HReader.enter : HReader → PC
  | .handshake d => .handCount d
  | .expand => .bRLock .expand
  | .respond => .respond
  | .broadcast r chunk => .snapshot r chunk

/-- `AllocBlocks` returns, with blocks or an error: `handleExpandRequest` answers the node. -/
def Caller.done : Caller → PC
  | .direct => .idle
  | .expand => .hRLock .respond

/-- The loop of `Dial` over the chunks for the handshake. -/
def handLoop (d n : ℕ) (fds : List Chunk) : PC :=
  if fds.length < n then .bRLock (.handshake d n fds) else .handRUnlock d n fds

/-- Its loop over the chunks added meanwhile. -/
def catchLoop (d n after : ℕ) (fds : List Chunk) : PC :=
  if fds.length < after - n then .bRLock (.catchUp d n after fds) else .catchSend d fds

variable {ι : Type} [DecidableEq ι]

/-- Thread `i` goes to another program point. -/
def State.goto (s : State ι) (i : ι) (pc : PC) : State ι :=
  { s with pc := Function.update s.pc i pc }

/-- A session changes. -/
def State.setSession (s : State ι) (d : ℕ) (x : Session) : State ι :=
  { s with sessions := Function.update s.sessions d x }

/-- `SendMsgWithFDs` on the session's socket. -/
def State.send (s : State ι) (d : ℕ) (m : Msg) : State ι :=
  s.setSession d { s.sessions d with socket := (s.sessions d).socket ++ [m] }

/-- The body of `allocNodeID`: the first free ID. -/
def State.freeID (s : State ι) : Option ℕ :=
  (List.range' 1 (MaxNodes - 1)).find? fun id => id ∉ s.nodeIDs

/-- The read under `b.mu`, its `RUnlock`, and what the caller does next.  The last case is the scan
of `AllocBlocks`, which finds all blocks or, with `alt`, too few. -/
def State.busRead (s : State ι) (i : ι) (alt : Bool) : BReader → State ι
  | .handshake d n fds =>
    match s.chunks[fds.length]? with
    | some c => s.goto i (handLoop d n (fds ++ [c]))
    | none => s.goto i (.panicked (.handshake d n fds))
  | .catchUp d n after fds =>
    match s.chunks[n + fds.length]? with
    | some c => s.goto i (catchLoop d n after (fds ++ [c]))
    | none => s.goto i (.panicked (.catchUp d n after fds))
  | .expand => s.goto i .expandRUnlock
  | .undo r => s.goto i (.undo r)
  | .cleanup d => s.goto i (.cleanup d)
  | .scan r => s.goto i (if alt then .chunkCount r else r.done)

/-- Steps that take the locks `h.mu` and `b.mu`, or are granted them. -/
def State.stepLock (s : State ι) (i : ι) : PC → Option (State ι)
  | .hLock k =>
    if s.hmu.writer = none then some { s.goto i (.hLockWait k) with hmu := s.hmu.announce i }
    else none
  | .hLockWait k => if s.hmu.readers = ∅ then some (s.goto i k.enter) else none
  | .hRLock k => some { s.goto i (.hRLockWait k) with hmu := s.hmu.rlock i }
  | .hRLockWait k => if i ∈ s.hmu.readers then some (s.goto i k.enter) else none
  | .bRLock k => some { s.goto i (.bRLockWait k) with bmu := s.bmu.rlock i }
  | .bRLockWait k => if i ∈ s.bmu.readers then some (s.goto i (.bRead k)) else none
  | .bLock r chunk =>
    if s.bmu.writer = none then
      some { s.goto i (.bLockWait r chunk) with bmu := s.bmu.announce i }
    else none
  | .bLockWait r chunk => if s.bmu.readers = ∅ then some (s.goto i (.grow r chunk)) else none
  | _ => none

/-- Steps of `Dial`; with `alt` creating the eventfd or sending fails. -/
def State.stepDial (s : State ι) (i : ι) (alt : Bool) : PC → Option (State ι)
  | .allocNodeID d =>
    match s.freeID with
    | some id =>
      let s := s.setSession d { s.sessions d with nodeID := id }
      let s := { s with nodeIDs := id :: s.nodeIDs, hmu := s.hmu.unlock }
      some (s.goto i (if alt then .idle else .hRLock (.handshake d)))
    | none => some { s.goto i .idle with hmu := s.hmu.unlock }
  | .handCount d => some (s.goto i (handLoop d s.count []))
  | .handRUnlock d n fds => some { s.goto i (.handSend d n fds) with hmu := s.hmu.runlock i }
  | .handSend d n fds =>
    if alt then some (s.goto i .idle)
    else some ((s.send d (.handshake fds)).goto i (.hLock (.register d n)))
  | .afterCount d n =>
    if n ≠ s.count ∧ n < s.count then some (s.goto i (catchLoop d n s.count []))
    else some (s.goto i (.register d))
  | .catchSend d fds =>
    if alt then some { s.goto i .idle with hmu := s.hmu.unlock }
    else some ((s.send d (.newChunk fds)).goto i (.register d))
  | .register d =>
    let x := s.sessions d
    let s := s.setSession d { x with live := true }
    some { s.goto i .idle with
      nodes := (x.name, d) :: s.nodes.filter (·.1 ≠ x.name)
      hmu := s.hmu.unlock }
  | _ => none

/-- Steps of `handleExpandRequest` and `watchdog` outside their lock requests.  With `alt` the
requesting node is not the owner, or there is one more block to free. -/
def State.stepHub (s : State ι) (i : ι) (alt : Bool) : PC → Option (State ι)
  | .expandRUnlock =>
    some { s.goto i (if alt then .hRLock .respond else .bRLock (.scan .expand)) with
      hmu := s.hmu.runlock i }
  | .respond => some { s.goto i .idle with hmu := s.hmu.runlock i }
  | .cleanup d =>
    some (s.goto i (if alt then .bRLock (.cleanup d) else .hLock (.freeNodeID d)))
  | .freeNodeID d =>
    some { s.goto i (.hLock (.delete d)) with
      nodeIDs := s.nodeIDs.erase (s.sessions d).nodeID
      hmu := s.hmu.unlock }
  | .delete d =>
    some { s.goto i .idle with
      nodes := s.nodes.filter (·.1 ≠ (s.sessions d).name)
      hmu := s.hmu.unlock }
  | _ => none

/-- Steps of `AllocBlocks` and `tryAppendChunk`.  With `alt` the scan finds too few blocks,
`NewChunk` fails, or there is one more block to free. -/
def State.stepAppend (s : State ι) (i : ι) (alt : Bool) : PC → Option (State ι)
  | .bRead k => some { s.busRead i alt k with bmu := s.bmu.runlock i }
  | .chunkCount r =>
    if MaxChunks ≤ s.count then some (s.goto i (.undo r)) else some (s.goto i (.muxLock r s.count))
  | .muxLock r n =>
    if s.mux = none then some { s.goto i (.recheck r n) with mux := some i } else none
  | .recheck r n =>
    if n ≠ s.count then some (s.goto i (.muxUnlock r false)) else some (s.goto i (.newChunk r n))
  | .newChunk r n =>
    if alt then some (s.goto i (.muxUnlock r true)) else some (s.goto i (.bLock r ⟨n⟩))
  | .grow r chunk =>
    some { s.goto i (.hRLock (.broadcast r chunk)) with
      chunks := s.chunks ++ [chunk]
      count := s.count + 1 }
  | .snapshot r chunk =>
    some { s.goto i (.broadcast r chunk (s.nodes.map Prod.snd)) with hmu := s.hmu.runlock i }
  | .broadcast r _ nodes => if nodes = [] then some (s.goto i (.bUnlock r)) else none
  | .bUnlock r => some { s.goto i (.muxUnlock r false) with bmu := s.bmu.unlock }
  | .muxUnlock r failed =>
    some { s.goto i (if failed then .undo r else .bRLock (.scan r)) with mux := none }
  | .undo r => some (s.goto i (if alt then .bRLock (.undo r) else r.done))
  | _ => none

/-- `syncChunk` to one of the nodes still to be told; their order is that of a Go map. -/
def State.sync (s : State ι) (i : ι) (d : ℕ) (alt : Bool) : PC → Option (State ι)
  | .broadcast r chunk nodes =>
    if d ∈ nodes then
      let s := if alt then s else s.send d (.newChunk [chunk])
      some (s.goto i (.broadcast r chunk (nodes.erase d)))
    else none
  | _ => none

/-- The node takes a message from its socket: the first has to be the handshake. -/
def Session.recv (x : Session) : Option Session :=
  match x.socket with
  | [] => none
  | m :: rest =>
    match x.node, m with
    | .waiting, .handshake fds => some { x with socket := rest, node := .ready fds }
    | .ready chunks, .newChunk fds => some { x with socket := rest, node := .ready (chunks ++ fds) }
    | _, _ => some { x with socket := rest, node := .failed }

/-- What can happen next: a call by an idle thread, a step of a thread with its outcome, a
`syncChunk` of a broadcast, the receipt of a message by the node of session `d`. -/
inductive Action (ι : Type)
  | callDial (i : ι) (name : ℕ)
  | callAlloc (i : ι)
  | callExpand (i : ι)
  | callWatchdog (i : ι) (d : ℕ)
  | run (i : ι) (alt : Bool)
  | sync (i : ι) (d : ℕ) (alt : Bool)
  | recv (d : ℕ)

/-- A step of a thread or of a node. -/
def step (s : State ι) : Action ι → Option (State ι)
  | .callDial i name =>
    if s.pc i = .idle then
      let s' := s.setSession s.next ⟨name, 0, [], .waiting, false⟩
      some { s'.goto i (.hLock (.allocNodeID s.next)) with next := s.next + 1 }
    else none
  | .callAlloc i => if s.pc i = .idle then some (s.goto i (.bRLock (.scan .direct))) else none
  | .callExpand i => if s.pc i = .idle then some (s.goto i (.hRLock .expand)) else none
  | .callWatchdog i d =>
    if s.pc i = .idle ∧ (s.sessions d).live = true then
      some ((s.setSession d { s.sessions d with live := false }).goto i (.cleanup d))
    else none
  | .run i alt =>
    s.stepLock i (s.pc i) <|> s.stepDial i alt (s.pc i) <|> s.stepHub i alt (s.pc i) <|>
      s.stepAppend i alt (s.pc i)
  | .sync i d alt => s.sync i d alt (s.pc i)
  | .recv d => ((s.sessions d).recv).map fun x => s.setSession d x

/-- A new hub: the first chunk, no nodes. -/
def newHub : State ι :=
  { chunks := [⟨0⟩]
    count := 1
    nodes := []
    nodeIDs := []
    sessions := fun _ => ⟨0, 0, [], .waiting, false⟩
    next := 0
    hmu := RWMutex.unlocked
    bmu := RWMutex.unlocked
    mux := none
    pc := fun _ => .idle }

/-- Hub and bus as a system. -/
def hub (ι : Type) [DecidableEq ι] : System (State ι) (Action ι) where
  Init s := s = newHub
  step := step

end Mmfg.Growth
