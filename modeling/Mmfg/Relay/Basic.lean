import Mmfg.Conn.Expansion
import Mmfg.Expand.Basic
import Mmfg.Rust.Connection

/-!
# A stripe on its way

A connection writes its stripe, hands it to one node after the other with `Next`, and reads what they
have made of it.  Nothing is copied on the way: a node decodes the header block and works on the same
blocks, asks the hub for more, and when it is done `refreshStripe` brings the copy of the hub up to
date.

`State.step` is what the hub and the nodes do, one after the other; `Shared.step` adds the goroutines
`handleExpandRequest` for the slot, each of whose steps may come between any two of these.  `fileEvent`
is what the stripe is meant to be: one file, whose cursors go back to the start whenever it changes
hands.

There is one connection here, and the rest of the hub is its environment: nobody else gets the slot or
a block of the stripe meanwhile, a handler ends before `Next` returns, and the node that asks for an
expansion still owns the slot when the goroutine looks.  `Mmfg.Hub.Ownership` and `Mmfg.Hub.Safety` say
in which runs of the hub this is so; the goroutines are those of the hub (`Mmfg.Hub.Expanders`).
-/

namespace Mmfg.Relay

open File Shm Conn
open Expand (Expander ExpanderAct)

/-- Who has the stripe: the hub, or the handler of a node, with the connection it was given. -/
inductive Holder
  | hub
  | go (n : NodeConn)
  | rust (c : Rust.ShmConnection)

/-- The connection of the hub, which waits in `Next` while a node has the stripe. -/
structure State where
  conn : BusConn
  holder : Holder
  mem : Memory

/-- What happens to the stripe.  Calls come with the answer of `AllocBlocks`, accesses of a Rust node
with the chunks that it has attached. -/
inductive Event
  | call (call : Call) (alloc : Option (List BlockId))
  | next (lang : Lang)
  | goCall (call : Call)
  | onExpandComplete
  | access (chunks : List Chunk) (a : Rust.Access)
  /-- The handler has returned, or has panicked. -/
  | finish
  /-- Somebody else writes to a block. -/
  | store (b : BlockId) (data : Bytes)

/-- The header that `Next` enters in the registry. -/
def headerEntry (s : Stripe) : BlockId := ((s.sequence[0]?).getD 0, (s.sequence[1]?).getD 0)

/-- The connection that the handler is given. -/
def startHandler (mem : Memory) (header : BlockId) : Lang → Holder
  | .go => .go (processSlot mem header)
  | .rust => .rust (.new header)

/-- What a Rust node sees, as the result of a call. -/
def outcome : Rust.Outcome → Result UInt8
  | .bytes data => .bytes data none
  | .wrote n => .wrote n none

namespace State

/-- The connection of a successful `Request`. -/
def request (blocks : List BlockId) (mem : Memory) : State :=
  let r := BusConn.request blocks mem
  ⟨r.1, .hub, r.2⟩

/-- The read cursor of the holder. -/
def readOff (s : State) : ℤ :=
  match s.holder with
  | .hub => s.conn.readOff
  | .go n => n.readOff
  | .rust c => c.readPos

/-- The write cursor of the holder. -/
def writeOff (s : State) : ℤ :=
  match s.holder with
  | .hub => s.conn.writeOff
  | .go n => n.writeOff
  | .rust c => c.writePos

/-- One event, with the result of the call.  Writes of a Go node that need an expansion do not return,
and those of a Rust node fail or wait. -/
def step (s : State) : Event → Option (State × Option (Result UInt8))
  | .call call alloc =>
    match s.holder with
    | .hub =>
      let r := s.conn.call s.mem alloc call
      some (⟨r.1.1, .hub, r.1.2⟩, some r.2)
    | _ => none
  | .next lang =>
    match s.holder with
    | .hub =>
      some (⟨{ s.conn with readOff := 0, writeOff := 0 },
        startHandler s.mem (headerEntry s.conn.stripe) lang, s.mem⟩, none)
    | _ => none
  | .goCall call =>
    match s.holder with
    | .go n => (n.call s.mem [] call).map fun r => (⟨s.conn, .go r.1.1, r.1.2⟩, some r.2)
    | _ => none
  | .onExpandComplete =>
    match s.holder with
    | .go n => some (⟨s.conn, .go { n with stripe := onExpandComplete n.stripe s.mem }, s.mem⟩, none)
    | _ => none
  | .access chunks a =>
    match s.holder with
    | .rust c => (Rust.rustAccess chunks (c, s.mem) a).map fun r =>
        (⟨s.conn, .rust r.1.1, r.1.2⟩, some (outcome r.2))
    | _ => none
  | .finish =>
    match s.holder with
    | .hub => none
    | _ =>
      let stripe := s.conn.stripe.refresh (s.mem s.conn.stripe.header)
      some (⟨{ s.conn with stripe }, .hub, s.mem⟩, none)
  | .store b data => some ({ s with mem := Function.update s.mem b data }, none)

/-- The blocks in the header. -/
def blocks (s : State) : List BlockId :=
  resolve 0 (decodeHeader (s.mem s.conn.stripe.header)).2.2

/-- Offsets of writes are in range, `AllocBlocks` grants new blocks, the sequence has its place in the
header block, a Rust node has attached the chunks of the blocks, and nobody else writes to the stripe. -/
def Allows (s : State) : Event → Prop
  | .call call alloc =>
    s.conn.InRange call ∧ s.conn.Answers call alloc ∧
      (s.conn.call s.mem alloc call).1.1.stripe.sequence.length ≤ HeaderEntries
  | .goCall call => (⟨s.conn.stripe, s.readOff, s.writeOff⟩ : BusConn).InRange call
  | .access chunks _ => ∀ b ∈ s.blocks, Rust.physical chunks b = some b
  | .store b _ => b ∉ s.blocks
  | .next _ | .onExpandComplete | .finish => True

/-- The error of a write that is not carried out: there are no blocks, or it goes beyond the limit of
a Go node. -/
def refusal (s : State) : Event → Option IOError
  | .call call alloc => if s.conn.allocFails call alloc then some .allocFailed else none
  | .goCall call =>
    if ((⟨s.conn.stripe, s.readOff, s.writeOff⟩ : BusConn).needed call).any
        fun n : ℤ => decide (n > StripeDataSizeLimit) then
      some .limitReached
    else none
  | _ => none

instance (s : State) : (e : Event) → Decidable (s.Allows e)
  | .call .. => inferInstanceAs (Decidable (_ ∧ _ ∧ _))
  | .goCall call =>
    inferInstanceAs (Decidable ((⟨s.conn.stripe, s.readOff, s.writeOff⟩ : BusConn).InRange call))
  | .access chunks _ =>
    inferInstanceAs (Decidable (∀ b ∈ s.blocks, Rust.physical chunks b = some b))
  | .store b _ => inferInstanceAs (Decidable (b ∉ s.blocks))
  | .next _ | .onExpandComplete | .finish => inferInstanceAs (Decidable True)

end State

/-- The event may store a length, or gives the stripe back. -/
def Event.stores : Event → Bool
  | .call .. | .finish => true
  | .goCall c => c.writes
  | .access _ (.write ..) => true
  | .access _ (.read ..) | .next _ | .onExpandComplete | .store .. => false

/-! ## The goroutines -/

/-- The stripe, and the goroutines `handleExpandRequest` for its slot. -/
structure Shared where
  stripe : State
  expanders : List Expander

/-- What happens: an event of the holder, the start of a goroutine, or a step of one. -/
inductive Act
  | own (e : Event)
  | request
  | expander (i : ℕ) (a : ExpanderAct)

namespace Shared

/-- One step, with the result of the call. -/
def step (s : Shared) : Act → Option (Shared × Option (Result UInt8))
  | .own e => (s.stripe.step e).map fun r => (⟨r.1, s.expanders⟩, r.2)
  | .request => some (⟨s.stripe, s.expanders ++ [.started]⟩, none)
  | .expander i a =>
    let header := headerEntry s.stripe.conn.stripe
    s.expanders[i]?.bind fun x =>
      (x.advance (s.stripe.mem header) a).map fun r =>
        (⟨{ s.stripe with mem := Function.update s.stripe.mem header r.2 }, s.expanders.set i r.1⟩,
          none)

/-- No goroutine is between its reading of the header and its last update. -/
def NoUpdate (s : Shared) : Prop := ∀ x ∈ s.expanders, x.inUpdate = false

instance (s : Shared) : Decidable s.NoUpdate := inferInstanceAs (Decidable (∀ _ ∈ _, _))

/-- A node has the stripe. -/
def Handed (s : Shared) : Prop := s.stripe.holder ≠ .hub

instance (s : Shared) : Decidable s.Handed :=
  match h : s.stripe.holder with
  | .hub => .isFalse fun hne => hne h
  | .go _ => .isTrue fun heq => nomatch h.symm.trans heq
  | .rust _ => .isTrue fun heq => nomatch h.symm.trans heq

/-- Moreover nobody stores a length or gives the stripe back during an update, the header is read for
one only while a node has the stripe and no other update is going on, `AllocBlocks` grants new blocks,
and the extended sequence has its place in the header block. -/
def Allows (s : Shared) : Act → Prop
  | .own e => s.stripe.Allows e ∧ (e.stores = true → s.NoUpdate)
  | .expander _ .decode => s.Handed ∧ s.NoUpdate
  | .expander _ (.alloc (some blocks)) => Granted s.stripe.blocks 2 blocks
  | .expander i .update => ∀ x ∈ s.expanders[i]?, x.Fits
  | .request | .expander _ (.alloc none) | .expander _ .respond => True

instance (s : Shared) : (a : Act) → Decidable (s.Allows a)
  | .own _ => inferInstanceAs (Decidable (_ ∧ (_ → _)))
  | .expander _ .decode => inferInstanceAs (Decidable (_ ∧ _))
  | .expander _ (.alloc (some blocks)) => inferInstanceAs (Decidable (Granted s.stripe.blocks 2 blocks))
  | .expander i .update => inferInstanceAs (Decidable (∀ x ∈ s.expanders[i]?, x.Fits))
  | .request | .expander _ (.alloc none) | .expander _ .respond => inferInstanceAs (Decidable True)

end Shared

/-- An event that has happened, with its result. -/
structure Entry where
  event : Event
  refused : Option IOError
  result : Option (Result UInt8)

/-- What is recorded of a step. -/
def Shared.entry (s : Shared) (result : Option (Result UInt8)) : Act → List Entry
  | .own e => [⟨e, s.stripe.refusal e, result⟩]
  | .request | .expander .. => []

/-- The steps in order, with the events of the holders; `none` if one of them cannot happen. -/
def run : Shared → List Act → Option (Shared × List Entry)
  | s, [] => some (s, [])
  | s, a :: as =>
    if s.Allows a then
      (s.step a).bind fun r =>
        (run r.1 as).map fun t => (t.1, s.entry r.2 a ++ t.2)
    else none

/-! ## The reference -/

/-- What an event does to the file. -/
def fileEvent (g : Handle UInt8) (refused : Option IOError) :
    Event → Handle UInt8 × Option (Result UInt8)
  | .call call _ =>
    let r := fileCall id g refused call
    (r.1, some r.2)
  | .goCall call =>
    let r := fileCall id g refused call
    -- `WriteByte` of a Go node does not move the cursor
    (if call.isWriteByte then { r.1 with writeOff := g.writeOff } else r.1, some r.2)
  | .access _ (.read _ len) =>
    let r := fileCall id g none (.read len)
    -- the end of data is not an error there
    (r.1, some (.bytes r.2.values none))
  | .access _ (.write _ data) =>
    let r := fileCall id g none (.write data)
    (r.1, some r.2)
  | .next _ | .finish => ({ g with readOff := 0, writeOff := 0 }, none)
  | .onExpandComplete | .store .. => (g, none)

/-- The results of the events in order. -/
def fileRun : Handle UInt8 → List (Event × Option IOError) → List (Option (Result UInt8))
  | _, [] => []
  | g, (e, refused) :: es =>
    let r := fileEvent g refused e
    r.2 :: fileRun r.1 es

end Mmfg.Relay
