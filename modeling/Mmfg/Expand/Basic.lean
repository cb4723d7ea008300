import Mmfg.Lib.System
import Mmfg.Shm.Represent

/-!
# Expansions of one stripe: the model

While a node owns a slot, its handler may ask the hub to expand the stripe.  The dispatch loop starts
a goroutine `handleExpandRequest` for each request.  It decodes the header, allocates two blocks,
writes length, block count and sequence back as they were decoded and extended, and answers; nothing
keeps two of them apart, nor one of them from the node's writes, which store the data length.

A Go node waits in `RequestExpand` for the answer.  A Rust node sends the request when
`request_expand` is called, and the future that waits for the answer may be dropped; only an
expansion that `poll_write` asked for itself is awaited before the next write.

All of this happens during one handoff: the node owns the slot, so that the hub's check of the owner
passes, and the connection of the hub waits in `Next` and does not write.  (Once an expansion has been
refused, `Next` returns an error while the handler still runs; what the hub does to the stripe from then
on is in `Mmfg.Hub`, not here.)  What an earlier handoff of the slot has left
behind is there from the start: requests that the dispatch loop has not taken, goroutines at any
program point, and answers in the node's queue.  The goroutines are those of the hub
(`Mmfg.Hub.Expanders`).
-/

namespace Mmfg.Expand

open Shm

/-! ## The goroutines of the hub -/

/-- Program points of `handleExpandRequest`, with the stripe that it made from the header and the
blocks that it allocated.  `AllocBlocksForStripe` updates the header, and its caller does it again;
an answer is READY, with the blocks that are granted, or ERROR. -/
inductive Expander
  | started
  | decoded (stripe : Stripe)
  | allocated (stripe : Stripe) (blocks : List BlockId)
  | updated (stripe : Stripe) (blocks : List BlockId)
  | answer (grant : Option (List BlockId))
  | answered (grant : Option (List BlockId))
  deriving DecidableEq

namespace Expander

/-- The blocks that were allocated for the stripe. -/
def held : Expander → List BlockId
  | .allocated _ blocks | .updated _ blocks => blocks
  | .answer grant | .answered grant => grant.getD []
  | .started | .decoded _ => []

/-- The header has been read and will be written back. -/
def inUpdate : Expander → Bool
  | .decoded _ | .allocated _ _ | .updated _ _ => true
  | _ => false

/-- The stripe that will be written to the header, as it was when last read or written. -/
def current : Expander → Option Stripe
  | .decoded stripe | .allocated stripe _ | .updated stripe _ => some stripe
  | _ => none

theorem inUpdate_of_current {e : Expander} {stripe : Stripe} (h : e.current = some stripe) :
    e.inUpdate = true := by
  cases e <;> first | rfl | cases h

/-- The extended sequence fits in the header block. -/
def Fits : Expander → Prop
  | .allocated stripe blocks => (stripe.allocBlocks blocks).sequence.length ≤ HeaderEntries
  | _ => True

instance : (e : Expander) → Decidable e.Fits
  | .allocated _ _ => inferInstanceAs (Decidable (_ ≤ _))
  | .started | .decoded _ | .updated _ _ | .answer _ | .answered _ => isTrue trivial

/-- The header has been extended, and READY is still to be sent. -/
def due : Expander → Bool
  | .updated _ _ | .answer (some _) => true
  | _ => false

/-- READY has been sent. -/
def ready : Expander → Bool
  | .answered (some _) => true
  | _ => false

end Expander

/-! ## The node -/

/-- A Go handler: what it has of the stripe, and whether it is in `RequestExpand`. -/
structure GoNode where
  blockCount : ℕ
  dataLen : UInt32
  waiting : Bool
  deriving DecidableEq

/-- Whose receiver the registered sender belongs to: `poll_write` keeps its own in the connection,
the one of `request_expand` is in the future that it returns. -/
inductive Waiter | poll | future
  deriving DecidableEq

/-- What the receiver in the connection gives. -/
inductive Receiver | pending | resolved (ok : Bool)
  deriving DecidableEq

/-- Program points of a write in Rust after the data has been copied. -/
inductive WritePC | idle | getMeta | store
  deriving DecidableEq

/-- A Rust handler's connection, and the node's waiter for the slot. -/
structure RustNode where
  pc : WritePC
  writePos : ℕ
  expansionRx : Option Receiver
  waiter : Option Waiter
  deriving DecidableEq

/-- The handler that owns the slot. -/
inductive Node
  | go (c : GoNode)
  | rust (c : RustNode)
  deriving DecidableEq

/-- `register_waiter` drops the sender that was registered before. -/
def RustNode.register (c : RustNode) (w : Waiter) : RustNode :=
  { c with
    waiter := some w
    expansionRx := if c.waiter = some .poll then c.expansionRx.map fun _ => .resolved false
      else c.expansionRx }

/-- The event loop of the node hands an answer to the waiter. -/
def Node.hear (ok : Bool) : Node → Node
  | .go c => .go { c with waiting := false }
  | .rust c =>
    .rust { c with
      waiter := none
      expansionRx := if c.waiter = some .poll then some (.resolved ok) else c.expansionRx }

/-! ## The state -/

/-- The header block, the requests that wait in the response queue, the goroutines, and the answers
that wait in the node's queue.  `late` are the goroutines of earlier handoffs that had decoded a header
before this one began.  `blocks` are the blocks of the stripe at the handoff, and `top` is the largest
end offset that the node has written since. -/
structure State where
  blocks : List BlockId
  header : Bytes
  requests : ℕ
  expanders : List Expander
  late : List Expander
  answers : List Bool
  node : Node
  top : ℕ

namespace State

/-- All blocks that were allocated for the stripe. -/
def owned (s : State) : List BlockId := s.blocks ++ s.expanders.flatMap Expander.held

/-- These, and the blocks of the goroutines of earlier handoffs. -/
def taken (s : State) : List BlockId := s.owned ++ s.late.flatMap Expander.held

/-- A write up to `pos` is complete. -/
def wrote (s : State) (pos : ℕ) : State := { s with top := max s.top pos }

end State

/-- What a `handleExpandRequest` does next; the answer of `AllocBlocks` is given. -/
inductive ExpanderAct
  | decode
  | alloc (result : Option (List BlockId))
  | update
  | respond

/-- The stripe that `handleExpandRequest` makes from the header; its blocks are not filled in. -/
def decodeStripe (header : Bytes) : Stripe :=
  let (dataLen, blkCnt, seq) := decodeHeader header
  { sequence := seq, blockCount := blkCnt, blocks := [], dataLen := dataLen }

/-- A step of a `handleExpandRequest`, with the header that it leaves. -/
def Expander.advance (header : Bytes) : Expander → ExpanderAct → Option (Expander × Bytes)
  | .started, .decode => some (.decoded (decodeStripe header), header)
  | .decoded stripe, .alloc (some blocks) => some (.allocated stripe blocks, header)
  | .decoded _, .alloc none => some (.answer none, header)
  | .allocated stripe blocks, .update =>
    let stripe := stripe.allocBlocks blocks
    some (.updated stripe blocks, stripe.updateHeader header)
  | .updated stripe blocks, .update => some (.answer (some blocks), stripe.updateHeader header)
  | .answer grant, .respond => some (.answered grant, header)
  | _, _ => none

/-- The steps again, with one constructor for each. -/
inductive Expander.Advance (header : Bytes) : Expander → ExpanderAct → Expander → Bytes → Prop
  | decode : Advance header .started .decode (.decoded (decodeStripe header)) header
  | alloc (stripe : Stripe) (blocks : List BlockId) :
    Advance header (.decoded stripe) (.alloc (some blocks)) (.allocated stripe blocks) header
  | fail (stripe : Stripe) : Advance header (.decoded stripe) (.alloc none) (.answer none) header
  | extend (stripe : Stripe) (blocks : List BlockId) :
    Advance header (.allocated stripe blocks) .update (.updated (stripe.allocBlocks blocks) blocks)
      ((stripe.allocBlocks blocks).updateHeader header)
  | rewrite (stripe : Stripe) (blocks : List BlockId) :
    Advance header (.updated stripe blocks) .update (.answer (some blocks))
      (stripe.updateHeader header)
  | respond (grant : Option (List BlockId)) :
    Advance header (.answer grant) .respond (.answered grant) header

theorem Expander.advance_cases {header header' : Bytes} {e e' : Expander} {a : ExpanderAct}
    (h : e.advance header a = some (e', header')) : Advance header e a e' header' := by
  revert h
  fun_cases Expander.advance header e a with
  | case1 => rintro ⟨⟩; exact .decode
  | case2 stripe blocks => rintro ⟨⟩; exact .alloc stripe blocks
  | case3 stripe => rintro ⟨⟩; exact .fail stripe
  | case4 stripe blocks => rintro ⟨⟩; exact .extend stripe blocks
  | case5 stripe blocks => rintro ⟨⟩; exact .rewrite stripe blocks
  | case6 grant => rintro ⟨⟩; exact .respond grant
  | case7 => exact nofun

/-- The answers in the node's queue after the step. -/
def Expander.respond (answers : List Bool) : Expander → ExpanderAct → List Bool
  | .answer grant, .respond => answers ++ [grant.isSome]
  | _, _ => answers

/-- `AllocBlocks` returns blocks that were free. -/
def State.Grants (s : State) : ExpanderAct → Prop
  | .alloc (some blocks) => Granted s.taken 2 blocks
  | _ => True

instance (s : State) : (a : ExpanderAct) → Decidable (s.Grants a)
  | .alloc (some blocks) => inferInstanceAs (Decidable (Granted s.taken 2 blocks))
  | .alloc none | .decode | .update | .respond => inferInstanceAs (Decidable True)

/-- A step of the goroutine `i`. -/
def stepExpander (s : State) (i : ℕ) (a : ExpanderAct) : Option State :=
  s.expanders[i]?.bind fun e =>
    if s.Grants a then
      (e.advance s.header a).map fun r =>
        { s with
          header := r.2
          answers := e.respond s.answers a
          expanders := s.expanders.set i r.1 }
    else none

/-- The goroutines of earlier handoffs take the place of the others. -/
def State.swap (s : State) : State := { s with expanders := s.late, late := s.expanders }

/-- The same step of a goroutine of an earlier handoff. -/
def stepLate (s : State) (i : ℕ) (a : ExpanderAct) : Option State :=
  (stepExpander s.swap i a).map State.swap

/-- What the node's handler does next: it asks for an expansion, where the hub's queue may be full;
it writes `len` bytes at `off` (Go) or at its position (Rust), of which `n` are copied; and the rest
of a write in Rust. -/
inductive NodeAct
  | requestExpand (full : Bool)
  | writeAt (off len : ℕ)
  | pollWrite (len n : ℕ) (full : Bool)
  | getMeta
  | store

/-- A request is sent, unless the queue is full. -/
def State.request (s : State) (full : Bool) (node : Node) : State :=
  { s with requests := if full then s.requests else s.requests + 1, node := node }

/-- A step of a Go handler.  A write that does not fit asks for expansions; one that fits stores the
length if it is larger than the one the handler knows. -/
def stepGo (s : State) (c : GoNode) (a : NodeAct) : Option State :=
  if c.waiting then none else
  match a with
  | .requestExpand full => some (s.request full (.go { c with waiting := !full }))
  | .writeAt off len =>
    if off + len ≤ StripeDataSizeLimit ∧ off + len ≤ (c.blockCount - 1) * BlockSize then
      if len = 0 then some s
      else
        let newEnd := UInt32.ofNat (off + len)
        some (State.wrote (if newEnd > c.dataLen then
            { s with
              header := putDataLen s.header newEnd
              node := .go { c with dataLen := newEnd } }
          else s) (off + len))
    else none
  | _ => none

/-- `poll_write` from the point on where no expansion is awaited: it looks at the header, and asks for
an expansion or copies. -/
def stepTryWrite (s : State) (c : RustNode) (len n : ℕ) (full : Bool) : Option State :=
  let blkCnt := (decodeHeader s.header).2.1
  if blkCnt = 0 then none
  else if c.writePos + len > (blkCnt - 1) * BlockSize then
    -- if the request cannot be sent, the receiver is dropped, as that of a future may be
    if full then some (s.request full (.rust (c.register .future)))
    else some (s.request full (.rust { c.register .poll with expansionRx := some .pending }))
  else if n ≤ len then
    some { s with node := .rust { c with writePos := c.writePos + n, pc := .getMeta } }
  else none

/-- A step of a Rust handler. -/
def stepRust (s : State) (c : RustNode) (a : NodeAct) : Option State :=
  match c.pc, a with
  | .idle, .requestExpand full => some (s.request full (.rust (c.register .future)))
  | .idle, .pollWrite len n full =>
    match c.expansionRx with
    | some .pending => none
    | some (.resolved false) => some { s with node := .rust { c with expansionRx := none } }
    | some (.resolved true) | none => stepTryWrite s { c with expansionRx := none } len n full
  | .getMeta, .getMeta =>
    let curLen := (decodeHeader s.header).1
    if UInt32.ofNat c.writePos > curLen then some { s with node := .rust { c with pc := .store } }
    else some (State.wrote { s with node := .rust { c with pc := .idle } } c.writePos)
  | .store, .store =>
    some (State.wrote
      { s with
        header := putDataLen s.header (.ofNat c.writePos)
        node := .rust { c with pc := .idle } } c.writePos)
  | _, _ => none

/-- A step of the node's handler. -/
def stepNode (s : State) (a : NodeAct) : Option State :=
  match s.node with
  | .go c => stepGo s c a
  | .rust c => stepRust s c a

/-- Whose step it is: the dispatch loop, a goroutine, one of an earlier handoff, the node's event loop,
or its handler. -/
inductive Action
  | dispatch
  | expander (i : ℕ) (a : ExpanderAct)
  | late (i : ℕ) (a : ExpanderAct)
  | hear
  | node (a : NodeAct)

/-- A step of any of them. -/
def step (s : State) : Action → Option State
  | .dispatch =>
    if s.requests = 0 then none
    else
      some { s with requests := s.requests - 1, expanders := s.expanders ++ [.started] }
  | .expander i a => stepExpander s i a
  | .late i a => stepLate s i a
  | .hear =>
    match s.answers with
    | [] => none
    | ok :: answers => some { s with answers := answers, node := s.node.hear ok }
  | .node a => stepNode s a

/-- What earlier handoffs of the slot have left behind: requests, goroutines that have not decoded a
header, goroutines that have, answers, and a waiter of a Rust node. -/
structure Leftover where
  requests : ℕ
  started : ℕ
  late : List Expander
  decoded : ∀ e ∈ late, e ≠ .started
  answers : List Bool
  waiter : Bool

/-- Nothing is left. -/
def Leftover.none : Leftover := ⟨0, 0, [], nofun, [], false⟩

/-- The node at the start of the handler: `processSlot` decodes the header, a Rust connection only
knows the slot.  The receiver of a waiter that is left was dropped. -/
def Node.new (header : Bytes) (waiter : Bool) : Lang → Node
  | .go =>
    let (dataLen, blkCnt, _) := decodeHeader header
    .go { blockCount := blkCnt, dataLen := dataLen, waiting := false }
  | .rust =>
    .rust
      { pc := .idle
        writePos := 0
        expansionRx := none
        waiter := if waiter then some .future else none }

/-- The state at the start of a handler for a stripe with the given blocks and length. -/
def start (l : Lang) (blocks : List BlockId) (dataLen : UInt32) (mem : Bytes) (rest : Leftover) :
    State :=
  let header := updateStripeHeader dataLen blocks.length (encode blocks) mem
  { blocks
    header
    requests := rest.requests
    expanders := .replicate rest.started .started
    late := rest.late
    answers := rest.answers
    node := .new header rest.waiter l
    top := 0 }

/-- One handoff to a node, of any stripe that fits, whatever was left behind. -/
def handoff (l : Lang) : System State Action where
  Init s := (∀ b ∈ s.blocks, Valid b) ∧ s.blocks.Nodup ∧ Fits s.blocks ∧
    ∃ dataLen mem rest, s = start l s.blocks dataLen mem rest
  step := step

end Mmfg.Expand
