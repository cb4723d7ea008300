import Mmfg.Layout
import Mathlib.Tactic

/-!
# Handshake messages and their descriptors

The hub's first message to a node carries the node ID in seven bytes and, as ancillary data, the
eventfds of node and hub and the descriptors of the chunks; later messages carry new chunks.  The
node reads them with `ReceiveMsgWithFDs` (Go) or `recv_msg_with_fds` (Rust) and from then on has to
close each descriptor or hand it on.

The functions return, besides their result, the trace of what they do with descriptors, with the
deferred calls and the drops where they happen.  Which mappings succeed is up to the environment.
-/

namespace Mmfg.Handshake

/-- A file descriptor. -/
abbrev Fd := ℕ

/-- An ancillary message: `SCM_RIGHTS` with descriptors, or anything else. -/
inductive ControlMessage where
  | rights (fds : List Fd)
  | other
  deriving DecidableEq

namespace ControlMessage

/-- The control message carries descriptors. -/
def isRights : ControlMessage → Bool
  | rights _ => true
  | other => false

/-- The descriptors that it carries. -/
def fds : ControlMessage → List Fd
  | rights fds => fds
  | other => []

end ControlMessage

/-- What `recvmsg` delivers.  `malformed` says that `ParseSocketControlMessage` refuses the ancillary
data, `truncated` is the flag `MSG_CTRUNC`. -/
structure Datagram where
  data : List UInt8
  scms : List ControlMessage
  malformed : Bool
  truncated : Bool

/-- What is done with descriptors; a mapping is named by the descriptor it was made from. -/
inductive Event where
  | parsed (fd : Fd)
  | mapped (fd : Fd)
  | unmapped (fd : Fd)
  | closed (fd : Fd)
  | connClosed
  deriving DecidableEq

/-- What can go wrong. -/
inductive Err where
  | read
  | eof
  | controlMessage
  | notRights
  | truncated
  | shortHeader (n : ℕ)
  | invalidHeader (header : List UInt8)
  | version (v : UInt8)
  | msgType (t : UInt8)
  | nodeID (id : ℕ)
  | fdCount (n : ℕ)
  | mmap
  | noChunks
  deriving DecidableEq

/-- The number of bytes read, the buffer and the descriptors. -/
structure Message where
  n : ℕ
  header : List UInt8
  fds : List Fd

/-- A zeroed buffer of `len` bytes after data was read into it. -/
def fill (len : ℕ) (data : List UInt8) : List UInt8 := (data ++ List.replicate len 0).take len

/-- All of these descriptors are closed. -/
def closeAll (fds : List Fd) : List Event := fds.map .closed

/-- A chunk: the descriptor from which its memory was mapped, and the field `Fd`. -/
structure Chunk where
  data : Fd
  fd : ℤ
  deriving DecidableEq

/-- What a node makes of a handshake; `control` is the chunk with the control region. -/
structure Session where
  nodeID : ℕ
  nodeEv : Fd
  hubEv : Fd
  control : Fd
  chunks : List Chunk
  deriving DecidableEq

/-- "MMFG" -/
def connHeader : List UInt8 := [77, 77, 70, 71]

/-- The version of the messages. -/
def connVersion : UInt8 := 2

/-- The type of a handshake. -/
def msgHandshake : UInt8 := 1

/-- The type of a message with new chunks. -/
def msgNewChunk : UInt8 := 2

/-! ## Go -/

/-- The loop over the ancillary messages: the descriptors so far, and whether it has failed. -/
def parseLoop : List ControlMessage → List Fd → List Fd × Bool
  | [], fds => (fds, false)
  | .rights scmFDs :: scms, fds => parseLoop scms (fds ++ scmFDs)
  | .other :: _, fds => (fds, true)

/-- A read of 0 bytes is `io.EOF`. -/
def receiveMsgWithFDs (msgLen : ℕ) : Option Datagram → Except Err Message × List Event
  | none => (.error .read, [])
  | some d =>
    if min d.data.length msgLen = 0 then (.error .eof, [])
    else if d.malformed then (.error .controlMessage, [])
    else
      match parseLoop d.scms [] with
      -- `return n, nil, err` sets the named result `fds` before the deferred function closes it
      | (fds, true) => (.error .notRights, fds.map .parsed ++ closeAll [])
      | (fds, false) =>
        (.ok ⟨min d.data.length msgLen, fill msgLen d.data, fds⟩, fds.map .parsed)

section

variable (mmap : Fd → Bool)

/-- `AttachChunk`: the chunk keeps its descriptor. -/
def attachChunk (fd : Fd) : Option Chunk := if mmap fd then some ⟨fd, fd⟩ else none

/-- `Chunk.Close`. -/
def Chunk.close (c : Chunk) : List Event :=
  .unmapped c.data :: if 0 ≤ c.fd then [.closed c.fd.toNat] else []

/-- The loop that attaches chunks, and on failure the deferred function that closes those it has. -/
def attachLoop : List Fd → List Chunk → Except Err (List Chunk) × List Event
  | [], chunks => (.ok chunks, [])
  | fd :: fds, chunks =>
    match attachChunk mmap fd with
    | none => (.error .mmap, chunks.flatMap Chunk.close)
    | some chunk =>
      let r := attachLoop fds (chunks ++ [{ chunk with fd := -1 }])
      (r.1, .mapped fd :: r.2)

/-- The body of `handshake` after its first `defer`. -/
def openSession (m : Message) : Except Err Session × List Event :=
  let nodeID := (m.header.getD 6 0).toNat
  if m.n ≠ 7 then (.error (.shortHeader m.n), [])
  else if m.header.take 4 ≠ connHeader then (.error (.invalidHeader (m.header.take 4)), [])
  else if m.header.getD 4 0 ≠ connVersion then (.error (.version (m.header.getD 4 0)), [])
  else if nodeID = 0 ∨ MaxNodes ≤ nodeID then (.error (.nodeID nodeID), [])
  else
    match m.fds with
    | nodeEv :: hubEv :: control :: more =>
      match attachLoop mmap (control :: more) [] with
      | (.error err, t) => (.error err, t)
      | (.ok chunks, t) => (.ok ⟨nodeID, nodeEv, hubEv, control, chunks⟩, t)
    | fds => (.error (.fdCount fds.length), [])

/-- The deferred function closes all descriptors after an error, else those from the third on. -/
def handshake (r : Option Datagram) : Except Err Session × List Event :=
  match receiveMsgWithFDs 7 r with
  | (.error err, t) => (.error err, t)
  | (.ok m, t) =>
    match openSession mmap m with
    | (.error err, t') => (.error err, t ++ t' ++ closeAll m.fds)
    | (.ok s, t') => (.ok s, t ++ t' ++ closeAll (m.fds.drop 2))

/-- `handleMessage`, with the chunks that it appends. -/
def handleMessage (r : Option Datagram) : Except Err (List Chunk) × List Event :=
  match receiveMsgWithFDs 1 r with
  | (.error err, t) => (.error err, t)
  | (.ok m, t) =>
    let x := if m.header.getD 0 0 = msgNewChunk then attachLoop mmap m.fds [] else (.ok [], [])
    (x.1, t ++ x.2 ++ closeAll m.fds)

end

/-- The handshake that the hub sends. -/
def handshakeMessage (nodeID : ℕ) : List UInt8 :=
  connHeader ++ [connVersion, msgHandshake, UInt8.ofNat nodeID]

/-! ## Rust -/

namespace Rust

/-- `recv_msg_with_fds`. -/
def recvMsgWithFds (bufLen : ℕ) : Option Datagram → Except Err Message × List Event
  | none => (.error .read, [])
  | some d =>
    let fds := d.scms.flatMap ControlMessage.fds
    if d.truncated then (.error .truncated, fds.map .parsed ++ closeAll fds)
    else (.ok ⟨min d.data.length bufLen, fill bufLen d.data, fds⟩, fds.map .parsed)

/-- What a Rust node takes from the handshake. -/
structure HandshakeResult where
  nodeID : ℕ
  nodeEvFd : Fd
  hubEvFd : Fd
  chunkFds : List Fd

/-- The checks of `perform_handshake`; each error return closes all descriptors first. -/
def checkMessage (m : Message) : Except Err HandshakeResult :=
  let nodeID := (m.header.getD 6 0).toNat
  if m.n ≠ 7 then .error (.shortHeader m.n)
  else if m.header.take 4 ≠ connHeader then .error (.invalidHeader (m.header.take 4))
  else if m.header.getD 4 0 ≠ connVersion then .error (.version (m.header.getD 4 0))
  else if m.header.getD 5 0 ≠ msgHandshake then .error (.msgType (m.header.getD 5 0))
  else if nodeID = 0 ∨ MaxNodes ≤ nodeID then .error (.nodeID nodeID)
  else
    match m.fds with
    | nodeEv :: hubEv :: control :: more => .ok ⟨nodeID, nodeEv, hubEv, control :: more⟩
    | fds => .error (.fdCount fds.length)

/-- `perform_handshake`. -/
def performHandshake (r : Option Datagram) : Except Err HandshakeResult × List Event :=
  match recvMsgWithFds 7 r with
  | (.error err, t) => (.error err, t)
  | (.ok m, t) =>
    match checkMessage m with
    | .error err => (.error err, t ++ closeAll m.fds)
    | .ok h => (.ok h, t)

/-- `drop` of a chunk: its own, and then that of the mapping. -/
def dropChunk (c : Chunk) : List Event :=
  (if 0 ≤ c.fd then [.closed c.fd.toNat] else []) ++ [.unmapped c.data]

variable (mmap : Fd → Bool)

/-- The loop over `chunk_fds`.  `Chunk::attach` takes the descriptor over in a `File`, which closes it
on return, mapped or not.  On failure the chunks so far are the result. -/
def attachChunks : List Fd → List Chunk → Except (List Chunk) (List Chunk) × List Event
  | [], chunks => (.ok chunks, [])
  | fd :: fds, chunks =>
    if mmap fd then
      let r := attachChunks fds (chunks ++ [⟨fd, -1⟩])
      (r.1, .mapped fd :: .closed fd :: r.2)
    else (.error chunks, [.closed fd])

/-- `Node::new`, without the handler. -/
def new (r : Option Datagram) : Except Err Session × List Event :=
  match performHandshake r with
  | (.error err, t) => (.error err, t ++ [.connClosed])
  | (.ok h, t) =>
    match attachChunks mmap h.chunkFds [] with
    | (.error chunks, t') =>
      (.error .mmap, t ++ t' ++ closeAll [h.nodeEvFd, h.hubEvFd] ++ [.connClosed] ++
        chunks.flatMap dropChunk)
    | (.ok [], t') =>
      (.error .noChunks, t ++ t' ++ closeAll [h.nodeEvFd, h.hubEvFd] ++ [.connClosed])
    | (.ok (control :: chunks), t') =>
      (.ok ⟨h.nodeID, h.nodeEvFd, h.hubEvFd, control.data, control :: chunks⟩, t ++ t')

end Rust

end Mmfg.Handshake
