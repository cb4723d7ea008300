import Mmfg.Hub.Basic

/-!
# The hub, its connections and its nodes: steps

One function per kind of goroutine; an action names the goroutine and, where the code leaves one
open, the choice that is made: the blocks or the slot that are free, the channel that the pool
returns, the data that is written, and whether an operation fails.
-/

namespace Mmfg.Hub

open Shm

/-- What the goroutine of a connection does next. -/
inductive ConnAct
  | request (blockCount : ℕ) (needSlot : Bool)
  | take (batch : List BlockId)
  | pick (x : ℕ)
  | write (off len : ℕ)
  | poke (b : BlockId) (bytes : Bytes)
  | next (name : ℕ)
  | close
  | run
  | fail

/-- `cid, off := Sequence[0], Sequence[1]`. -/
def Conn.headerId (c : Conn) : BlockId := (c.stripe.sequence.getD 0 0, c.stripe.sequence.getD 1 0)

/-- The block that `Blocks[0]` refers to. -/
def Conn.header (c : Conn) : BlockId := c.stripe.blocks.headD (0, 0)

/-- The owner that `SetStripe` stores. -/
def Use.owner : Use → ℕ
  | .request | .next _ => 0
  | .handoff d => d.1

/-- The status that `SetStripe` stores. -/
def Use.status : Use → Status
  | .request | .next _ => .ready
  | .handoff _ => .busy

/-- Where `SetStripe` returns to. -/
def Use.after (slot : ℕ) : Use → ConnPC
  | .request => .getDone .request slot
  | .next d => .getDone (.next d) slot
  | .handoff d => .clear d

/-- Where the goroutine goes once it has a slot and a channel. -/
def Use.ready : Use → ConnPC
  | .request => .opened
  | .next d | .handoff d => .poll d

/-- A step of the goroutine that uses connection `i`. -/
def stepConn (s : State) (i : ℕ) (a : ConnAct) : Option State :=
  let c := s.conns i
  match c.pc, a with
  -- `Request`
  | .absent, .request n needSlot => some (s.setConn i { c with pc := .alloc (n + 1) needSlot [] })
  | .alloc n needSlot held, .take batch =>
    if s.CanTake batch ∧ held.length + batch.length ≤ n then
      some ((s.take i batch).setConn i { c with pc := .alloc n needSlot (held ++ batch) })
    else none
  | .alloc n needSlot held, .run =>
    if held.length = n then
      let c := { c with
        stripe := allocStripe held
        pc := if needSlot then .allocSlot .request else .opened }
      some ((s.setMem c.header (c.stripe.updateHeader (s.mem c.header))).setConn i c)
    else none
  | .alloc _ _ held, .fail => some (s.setConn i { c with pc := .undo held false })
  | .undo (b :: todo) isOpen, .run =>
    some ((s.free b).setConn i { c with pc := .undo todo isOpen })
  | .undo [] isOpen, .run => some (s.setConn i { c with pc := if isOpen then .opened else .closed })
  -- `allocSlot` and `SetStripe`
  | .allocSlot u, .pick slot =>
    if 1 ≤ slot ∧ slot ≤ MaxTotalSlots ∧ (s.reg slot).status = .idle then
      some ((s.setReg slot { s.reg slot with status := .busy }).setConn i
        { c with pc := .setHeader u slot })
    else none
  | .allocSlot .request, .fail =>
    some (s.setConn i { c with pc := .undo (resolve 0 c.stripe.sequence) false })
  | .allocSlot (.next _), .fail => some (s.setConn i { c with pc := .opened })
  | .setHeader u slot, .run =>
    some ((s.setReg slot { s.reg slot with header := c.headerId }).setConn i
      { c with pc := .setOwner u slot })
  | .setOwner u slot, .run =>
    some ((s.setReg slot { s.reg slot with owner := u.owner }).setConn i
      { c with pc := .setStatus u slot })
  | .setStatus u slot, .run =>
    some ((s.setReg slot { s.reg slot with status := u.status }).setConn i
      { c with pc := u.after slot })
  | .getDone u slot, .pick ch =>
    if s.pool ch then
      some ({ s with pool := Function.update s.pool ch false }.setConn i
        { c with slotID := slot, done := some ch, pc := u.ready })
    else none
  -- hub writes; `View` also gives access to the data
  | .opened, .write off len =>
    let n := c.stripe.growth (off + len)
    if InRange (off + len) then
      some (s.setConn i { c with pc := if n = 0 then .copy off len else .grow off len n [] })
    else none
  | .grow off len n held, .take batch =>
    if s.CanTake batch ∧ held.length + batch.length ≤ n then
      some ((s.take i batch).setConn i { c with pc := .grow off len n (held ++ batch) })
    else none
  | .grow off len n held, .run =>
    if held.length = n then
      let c := { c with stripe := c.stripe.allocBlocks held, pc := .copy off len }
      some ((s.setMem c.header (c.stripe.updateHeader (s.mem c.header))).setConn i c)
    else none
  | .grow _ _ _ held, .fail => some (s.setConn i { c with pc := .undo held true })
  | .opened, .poke b bytes | .copy _ _, .poke b bytes =>
    if b ∈ c.stripe.blocks.tail then some (s.setMem b bytes) else none
  | .copy off len, .run =>
    let n := c.stripe.newLen off len
    if n = c.stripe.dataLen then some (s.setConn i { c with pc := .opened })
    else
      some ((s.setMem c.header (putDataLen (s.mem c.header) n)).setConn i
        { c with stripe := { c.stripe with dataLen := n }, pc := .opened })
  -- `Next`
  | .opened, .next name =>
    (s.names.lookup name).map fun d =>
      s.setConn i { c with pc := if c.slotID = 0 then .allocSlot (.next d) else .poll d }
  | .poll d, .run =>
    if (s.reg c.slotID).status = .done ∨ (s.reg c.slotID).status = .ready then
      some (s.setConn i { c with pc := .setHeader (.handoff d) c.slotID })
    else none
  | .poll _, .fail =>
    if (s.reg c.slotID).status = .done ∨ (s.reg c.slotID).status = .ready then none
    else some (s.setConn i { c with pc := .opened })
  | .clear d, .run =>
    c.done.map fun ch => (s.setChan ch none).setConn i { c with pc := .store d }
  | .store d, .run =>
    some ({ s with waiters := Function.update s.waiters c.slotID (some i) }.setConn i
      { c with handoffs := c.handoffs + 1, pc := .push d })
  | .push d, .run =>
    some ((s.pushReq d.1 ⟨c.slotID, .process, (i, c.handoffs)⟩).setConn i
      { c with pc := .notify d })
  | .push d, .fail =>
    if (s.sessions d).closed then some (s.setConn i { c with pc := .opened }) else none
  | .notify d, .run =>
    if (s.sessions d).closed then none else some (s.setConn i { c with pc := .wait })
  | .notify d, .fail =>
    if (s.sessions d).closed then some (s.setConn i { c with pc := .opened }) else none
  | .wait, .run =>
    c.done.bind fun ch => (s.chans ch).map fun r =>
      (s.setChan ch none).setConn i { c with pc := if r.ok then .refresh else .opened }
  | .refresh, .run =>
    some (s.setConn i { c with stripe := c.stripe.refresh (s.mem c.header), pc := .returned })
  | .returned, .run => some (s.setConn i { c with pc := .opened })
  -- `Close`
  | .opened, .close => some (s.setConn i { c with pc := .free (resolve 0 c.stripe.sequence) })
  | .free (b :: todo), .run => some ((s.free b).setConn i { c with pc := .free todo })
  | .free [], .run =>
    some (s.setConn i { c with pc := if c.slotID = 0 then .closed else .dropWaiter })
  | .dropWaiter, .run =>
    some ({ s with waiters := Function.update s.waiters c.slotID none }.setConn i
      { c with pc := .putDone })
  | .putDone, .run =>
    c.done.map fun ch =>
      { s with pool := Function.update s.pool ch true }.setConn i { c with pc := .freeSlot }
  | .freeSlot, .run =>
    some ((s.setReg c.slotID { s.reg c.slotID with status := .idle }).setConn i
      { c with pc := .dropDone })
  | .dropDone, .run => some (s.setConn i { c with done := none, pc := .closed })
  | _, _ => none

/-- A step of `dispatchLoop`; `e` names the goroutine that it may start.  A send blocks while the
channel is full, and for ever on a nil channel. -/
def stepDisp (s : State) (e : ℕ) : Option State :=
  match s.disp with
  | .idle =>
    match s.respQ with
    | [] => none
    | m :: q =>
      some { s with
        respQ := q
        disp := match m.cmd with
          | .process => .swap m.slot m.tag
          | .requestExpand => .owner m.slot m.tag
          | .expandReady | .expandError => .idle }
  | .swap slot tag =>
    some { s with
      waiters := Function.update s.waiters slot none
      disp := match s.waiters slot with
        | some c => .send c tag
        | none => .idle }
  | .send c tag =>
    (s.conns c).done.bind fun ch =>
      if s.chans ch = none then some { s.setChan ch (some ⟨tag, true⟩) with disp := .idle } else none
  | .owner slot tag =>
    if s.exps e = none then
      some { s.setExp e ⟨(s.reg slot).owner, slot, tag, .header⟩ with disp := .idle }
    else none

/-- What a `handleExpandRequest` does next. -/
inductive ExpAct
  | take (batch : List BlockId)
  | run
  | fail

/-- Record that an expansion was refused to the handler. -/
def State.refuse (s : State) (h : Handoff) : State :=
  { s with
    handlers := Function.update s.handlers h
      ((s.handlers h).map fun x => { x with refused := true }) }

/-- The header after `AllocBlocksForStripe` on the decoded stripe. -/
def Meta.append (m : Meta) (blocks : List BlockId) : Meta :=
  (m.1, m.2.1 + blocks.length, m.2.2 ++ encodeFrom (lastChunkID m.2.2) blocks)

/-- `UpdateStripeHeader` with a decoded stripe. -/
def State.putMeta (s : State) (b : BlockId) (m : Meta) : State :=
  s.setMem b (updateStripeHeader m.1 m.2.1 m.2.2 (s.mem b))

/-- A step of the goroutine `e`. -/
def stepExp (s : State) (e : ℕ) (a : ExpAct) : Option State :=
  (s.exps e).bind fun x =>
  match x.pc, a with
  | .header, .run => some (s.setExp e { x with pc := .decode (s.reg x.slot).header })
  | .decode b, .run => some (s.setExp e { x with pc := .check b (decodeHeader (s.mem b)) })
  | .check b m, .run =>
    if (s.reg x.slot).owner = x.node then some (s.setExp e { x with pc := .alloc b m [] })
    else some ((s.refuse x.tag).setExp e { x with pc := .respond false })
  | .alloc b m held, .take batch =>
    if s.CanTake batch ∧ held.length + batch.length ≤ 2 then
      some ((s.take x.tag.1 batch).setExp e { x with pc := .alloc b m (held ++ batch) })
    else none
  | .alloc b m held, .run =>
    if held.length = 2 then
      some ((s.putMeta b (m.append held)).setExp e { x with pc := .rewrite b (m.append held) })
    else none
  | .alloc _ _ held, .fail => some ((s.refuse x.tag).setExp e { x with pc := .undo held })
  | .rewrite b m, .run => some ((s.putMeta b m).setExp e { x with pc := .respond true })
  | .undo (b :: todo), .run => some ((s.free b).setExp e { x with pc := .undo todo })
  | .undo [], .run => some (s.setExp e { x with pc := .respond false })
  | .respond ok, .run =>
    let x' := { x with pc := if ok then .gone else .load }
    if s.Listed x.node then
      let cmd := if ok then Cmd.expandReady else .expandError
      some ((s.pushReq x.node ⟨x.slot, cmd, x.tag⟩).setExp e x')
    else some (s.setExp e x')
  | .respond ok, .fail =>
    -- the request queue is full and the session has been closed
    if ∃ p ∈ s.names, p.2.1 = x.node ∧ (s.sessions p.2).closed then
      some (s.setExp e { x with pc := if ok then .gone else .load })
    else none
  | .load, .run =>
    some (s.setExp e { x with pc := match s.waiters x.slot with
      | some c => .send c
      | none => .gone })
  | .send c, .run =>
    (s.conns c).done.bind fun ch =>
      if s.chans ch = none then
        some ((s.setChan ch (some ⟨x.tag, false⟩)).setExp e { x with pc := .gone })
      else none
  | _, _ => none

/-- The event loop of the node of session `d` takes an entry from its request queue. -/
def stepPop (s : State) (d : SessionId) : Option State :=
  if (s.sessions d).watch = .absent then none else
  match s.reqQ d.1 with
  | [] => none
  | m :: q =>
    let s := { s with reqQ := Function.update s.reqQ d.1 q }
    match m.cmd with
    | .process =>
      some (s.setHandler m.tag
        ⟨m.slot, d, (s.sessions d).lang, .locate false, (0, 0), [], [], 0, false, false⟩)
    | .expandReady | .expandError =>
      match s.waiting d m.slot with
      | none => some s
      | some h =>
        some { s with
          waiting := Function.update s.waiting d (Function.update (s.waiting d) m.slot none)
          handlers := Function.update s.handlers h ((s.handlers h).map fun x =>
            { x with pending := x.pending - 1, failed := x.failed || m.cmd = .expandError }) }
    | .requestExpand => some s

/-- What a handler does next. -/
inductive HandAct
  | run
  | poke (b : BlockId) (bytes : Bytes)
  | setLen (dataLen : UInt32)
  | request
  | reload
  | finish
  | panic

/-- The blocks that a handler finds when it looks at a header: a Rust handler each time all of them,
a Go handler in `OnExpandComplete` only those that are new. -/
def Handler.resolve (x : Handler) (again : Bool) (b : BlockId) (seq : List Int16) : List BlockId :=
  match x.lang, again with
  | .go, false => Shm.resolve b.1 seq
  | .go, true => x.blocks ++ resolveFrom x.sequence.length 0 0 seq
  | .rust, _ => Shm.resolve (-1) seq

/-- The block in which a handler stores the data length: `Blocks[0]` in Go, the one that the registry
names in Rust. -/
def Handler.lenBlock (x : Handler) : BlockId :=
  match x.lang with
  | .go => x.blocks.headD (0, 0)
  | .rust => x.header

/-- A step of the handler of handoff `h`. -/
def stepHandler (s : State) (h : Handoff) (a : HandAct) : Option State :=
  (s.handlers h).bind fun x =>
  match x.pc, a with
  | .locate again, .run =>
    some (s.setHandler h { x with pc := .decode again (s.reg x.slot).header })
  | .decode again b, .run =>
    let seq := (decodeHeader (s.mem b)).2.2
    some (s.setHandler h
      { x with header := b, sequence := seq, blocks := x.resolve again b seq, pc := .running })
  | .running, .poke b bytes => if b ∈ x.blocks.tail then some (s.setMem b bytes) else none
  | .running, .setLen n => some (s.setMem x.lenBlock (putDataLen (s.mem x.lenBlock) n))
  | .running, .request =>
    some { (s.pushResp ⟨x.slot, .requestExpand, h⟩).setHandler h
        { x with pending := x.pending + 1 } with
      waiting := Function.update s.waiting x.session
        (Function.update (s.waiting x.session) x.slot (some h)) }
  | .running, .reload => some (s.setHandler h { x with pc := .locate true })
  | .running, .finish =>
    some (s.setHandler h { x with pc := if x.lang = .go ∧ x.failed then .finished else .setDone })
  | .running, .panic => some (s.setHandler h { x with pc := .setDone })
  | .setDone, .run =>
    some ((s.setReg x.slot { s.reg x.slot with status := .done }).setHandler h
      { x with pc := .respond })
  | .respond, .run =>
    some ((s.pushResp ⟨x.slot, .process, h⟩).setHandler h { x with pc := .finished })
  | _, _ => none

/-- A step of the watchdog of session `d`. -/
def stepWatch (s : State) (d : SessionId) : Option State :=
  let x := s.sessions d
  match x.watch with
  | .reading => some (s.setWatch d (.status 0))
  | .status i =>
    if i = MaxTotalSlots then some (s.setWatch d .freeID)
    else if (s.reg i).status = .idle then some (s.setWatch d (.status (i + 1)))
    else some (s.setWatch d (.owner i))
  | .owner i =>
    if (s.reg i).owner = d.1 then some (s.setWatch d (.header i))
    else some (s.setWatch d (.status (i + 1)))
  | .header i => some (s.setWatch d (.decode i (s.reg i).header))
  | .decode i b => some (s.setWatch d (.free i (resolve 0 (decodeHeader (s.mem b)).2.2)))
  | .free i (b :: todo) => some ((s.free b).setWatch d (.free i todo))
  | .free i [] => some (s.setWatch d (.freeSlot i))
  | .freeSlot i =>
    some ((s.setReg i { s.reg i with status := .idle }).setWatch d (.status (i + 1)))
  | .freeID => some ({ s with ids := Function.update s.ids d.1 false }.setWatch d .delete)
  | .delete =>
    some ({ s with names := s.names.filter fun p => p.1 ≠ x.name }.setWatch d .close)
  | .close =>
    some { s with sessions := Function.update s.sessions d { x with closed := true, watch := .gone } }
  | .absent | .gone => none

/-- `Dial`: session `d`, under `name`, with a free node ID (see `Mmfg.Growth` for its parts). -/
def stepDial (s : State) (d : SessionId) (name : ℕ) (lang : Lang) : Option State :=
  if (s.sessions d).watch = .absent ∧ 1 ≤ d.1 ∧ d.1 < MaxNodes ∧ s.ids d.1 = false then
    some { s with
      sessions := Function.update s.sessions d ⟨name, lang, false, .reading⟩
      names := (name, d) :: s.names.filter fun p => p.1 ≠ name
      ids := Function.update s.ids d.1 true }
  else none

/-- Whose step it is. -/
inductive Action
  | dial (d : SessionId) (name : ℕ) (lang : Lang)
  | watch (d : SessionId)
  | conn (i : ℕ) (a : ConnAct)
  | disp (e : ℕ)
  | exp (e : ℕ) (a : ExpAct)
  | pop (d : SessionId)
  | hand (h : Handoff) (a : HandAct)

/-- A step of any of them. -/
def step (s : State) : Action → Option State
  | .dial d name lang => stepDial s d name lang
  | .watch d => stepWatch s d
  | .conn i a => stepConn s i a
  | .disp e => stepDisp s e
  | .exp e a => stepExp s e a
  | .pop d => stepPop s d
  | .hand h a => stepHandler s h a

/-- The hub with its connections and nodes. -/
def hub : System State Action where
  Init s := s = newHub s.mem
  step := step

end Mmfg.Hub
