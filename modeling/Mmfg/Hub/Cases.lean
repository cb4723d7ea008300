import Mmfg.Hub.Step

/-!
# What each step does

The step functions again as relations, one constructor for each branch, with its guard and its
effect.  Invariants are proved by cases on these.
-/

namespace Mmfg.Hub

open Shm

/-- The steps of a connection's goroutine that change nothing but its own record. -/
inductive Move (s : State) (i : ℕ) (c : Conn) : Conn → Prop
  | request (n : ℕ) (needSlot : Bool) (hpc : c.pc = .absent) :
    Move s i c { c with pc := .alloc (n + 1) needSlot [] }
  | allocFail {n : ℕ} {needSlot : Bool} {held : List BlockId} (hpc : c.pc = .alloc n needSlot held) :
    Move s i c { c with pc := .undo held false }
  | undoEnd {isOpen : Bool} (hpc : c.pc = .undo [] isOpen) :
    Move s i c { c with pc := if isOpen then .opened else .closed }
  | slotFailRequest (hpc : c.pc = .allocSlot .request) :
    Move s i c { c with pc := .undo (resolve 0 c.stripe.sequence) false }
  | slotFailNext {d : SessionId} (hpc : c.pc = .allocSlot (.next d)) :
    Move s i c { c with pc := .opened }
  | write {off len n : ℕ} (hpc : c.pc = .opened) (hn : n = c.stripe.growth (off + len)) :
    Move s i c { c with pc := if n = 0 then .copy off len else .grow off len n [] }
  | growFail {off len n : ℕ} {held : List BlockId} (hpc : c.pc = .grow off len n held) :
    Move s i c { c with pc := .undo held true }
  | copyEnd {off len : ℕ} (hpc : c.pc = .copy off len) : Move s i c { c with pc := .opened }
  | next {name : ℕ} {d : SessionId} (hpc : c.pc = .opened) (hd : s.names.lookup name = some d) :
    Move s i c { c with pc := if c.slotID = 0 then .allocSlot (.next d) else .poll d }
  | poll {d : SessionId} (hpc : c.pc = .poll d)
    (hs : (s.reg c.slotID).status = .done ∨ (s.reg c.slotID).status = .ready) :
    Move s i c { c with pc := .setHeader (.handoff d) c.slotID }
  | pollFail {d : SessionId} (hpc : c.pc = .poll d) : Move s i c { c with pc := .opened }
  | pushFail {d : SessionId} (hpc : c.pc = .push d) (hd : (s.sessions d).closed = true) :
    Move s i c { c with pc := .opened }
  | refresh (hpc : c.pc = .refresh) :
    Move s i c { c with stripe := c.stripe.refresh (s.mem c.header), pc := .returned }
  | returned (hpc : c.pc = .returned) : Move s i c { c with pc := .opened }
  | close (hpc : c.pc = .opened) :
    Move s i c { c with pc := .free (resolve 0 c.stripe.sequence) }
  | freeEnd (hpc : c.pc = .free []) :
    Move s i c { c with pc := if c.slotID = 0 then .closed else .dropWaiter }
  | dropDone (hpc : c.pc = .dropDone) : Move s i c { c with done := none, pc := .closed }

/-- The steps of a connection's goroutine. -/
inductive ConnStep (s : State) (i : ℕ) (c : Conn) : ConnAct → State → Prop
  | move {a : ConnAct} {c' : Conn} (h : Move s i c c') : ConnStep s i c a (s.setConn i c')
  | allocTake {n : ℕ} {needSlot : Bool} {held batch : List BlockId}
    (hpc : c.pc = .alloc n needSlot held) (hb : s.CanTake batch) :
    ConnStep s i c (.take batch)
      ((s.take i batch).setConn i { c with pc := .alloc n needSlot (held ++ batch) })
  | allocEnd {n : ℕ} {needSlot : Bool} {held : List BlockId} {c' : Conn}
    (hpc : c.pc = .alloc n needSlot held) (hn : held.length = n)
    (hc : c' = { c with
      stripe := allocStripe held
      pc := if needSlot then .allocSlot .request else .opened }) :
    ConnStep s i c .run
      ((s.setMem c'.header (c'.stripe.updateHeader (s.mem c'.header))).setConn i c')
  | undo {b : BlockId} {todo : List BlockId} {isOpen : Bool} (hpc : c.pc = .undo (b :: todo) isOpen) :
    ConnStep s i c .run ((s.free b).setConn i { c with pc := .undo todo isOpen })
  | pickSlot {u : Use} {slot : ℕ} (hpc : c.pc = .allocSlot u) (hpos : 1 ≤ slot)
    (hidle : (s.reg slot).status = .idle) :
    ConnStep s i c (.pick slot) ((s.setReg slot { s.reg slot with status := .busy }).setConn i
      { c with pc := .setHeader u slot })
  | setHeader {u : Use} {slot : ℕ} (hpc : c.pc = .setHeader u slot) :
    ConnStep s i c .run ((s.setReg slot { s.reg slot with header := c.headerId }).setConn i
      { c with pc := .setOwner u slot })
  | setOwner {u : Use} {slot : ℕ} (hpc : c.pc = .setOwner u slot) :
    ConnStep s i c .run ((s.setReg slot { s.reg slot with owner := u.owner }).setConn i
      { c with pc := .setStatus u slot })
  | setStatus {u : Use} {slot : ℕ} (hpc : c.pc = .setStatus u slot) :
    ConnStep s i c .run ((s.setReg slot { s.reg slot with status := u.status }).setConn i
      { c with pc := u.after slot })
  | getDone {u : Use} {slot ch : ℕ} (hpc : c.pc = .getDone u slot) (hch : s.pool ch = true) :
    ConnStep s i c (.pick ch) ({ s with pool := Function.update s.pool ch false }.setConn i
      { c with slotID := slot, done := some ch, pc := u.ready })
  | growTake {off len n : ℕ} {held batch : List BlockId} (hpc : c.pc = .grow off len n held)
    (hb : s.CanTake batch) :
    ConnStep s i c (.take batch)
      ((s.take i batch).setConn i { c with pc := .grow off len n (held ++ batch) })
  | growEnd {off len n : ℕ} {held : List BlockId} {c' : Conn} (hpc : c.pc = .grow off len n held)
    (hc : c' = { c with stripe := c.stripe.allocBlocks held, pc := .copy off len }) :
    ConnStep s i c .run
      ((s.setMem c'.header (c'.stripe.updateHeader (s.mem c'.header))).setConn i c')
  | poke {b : BlockId} {bytes : Bytes} (hpc : c.pc = .opened ∨ ∃ off len, c.pc = .copy off len)
    (hb : b ∈ c.stripe.blocks.tail) : ConnStep s i c (.poke b bytes) (s.setMem b bytes)
  | copyLen {off len : ℕ} {n : UInt32} (hpc : c.pc = .copy off len) :
    ConnStep s i c .run ((s.setMem c.header (putDataLen (s.mem c.header) n)).setConn i
      { c with stripe := { c.stripe with dataLen := n }, pc := .opened })
  | clear {d : SessionId} {ch : ℕ} (hpc : c.pc = .clear d) (hch : c.done = some ch) :
    ConnStep s i c .run ((s.setChan ch none).setConn i { c with pc := .store d })
  | store {d : SessionId} (hpc : c.pc = .store d) :
    ConnStep s i c .run ({ s with waiters := Function.update s.waiters c.slotID (some i) }.setConn i
      { c with handoffs := c.handoffs + 1, pc := .push d })
  | push {d : SessionId} (hpc : c.pc = .push d) :
    ConnStep s i c .run
      ((s.pushReq d.1 ⟨c.slotID, .process, (i, c.handoffs)⟩).setConn i { c with pc := .notify d })
  | notify {d : SessionId} (hpc : c.pc = .notify d) :
    ConnStep s i c .run (s.setConn i { c with pc := .wait })
  | notifyFail {d : SessionId} (hpc : c.pc = .notify d) (hd : (s.sessions d).closed = true) :
    ConnStep s i c .fail (s.setConn i { c with pc := .opened })
  | recv {ch : ℕ} {r : Completion} (hpc : c.pc = .wait) (hch : c.done = some ch)
    (hr : s.chans ch = some r) :
    ConnStep s i c .run ((s.setChan ch none).setConn i
      { c with pc := if r.ok then .refresh else .opened })
  | free {b : BlockId} {todo : List BlockId} (hpc : c.pc = .free (b :: todo)) :
    ConnStep s i c .run ((s.free b).setConn i { c with pc := .free todo })
  | dropWaiter (hpc : c.pc = .dropWaiter) :
    ConnStep s i c .run ({ s with waiters := Function.update s.waiters c.slotID none }.setConn i
      { c with pc := .putDone })
  | putDone {ch : ℕ} (hpc : c.pc = .putDone) (hch : c.done = some ch) :
    ConnStep s i c .run ({ s with pool := Function.update s.pool ch true }.setConn i
      { c with pc := .freeSlot })
  | freeSlot (hpc : c.pc = .freeSlot) :
    ConnStep s i c .run ((s.setReg c.slotID { s.reg c.slotID with status := .idle }).setConn i
      { c with pc := .dropDone })

theorem connStep_of_step {s t : State} {i : ℕ} {a : ConnAct} (h : stepConn s i a = some t) :
    ConnStep s i (s.conns i) a t := by
  unfold stepConn at h
  cases hpc : (s.conns i).pc <;> cases a <;> simp only [hpc, reduceCtorEq] at h
  -- `Request`
  case absent.request n needSlot =>
    cases h
    exact .move (.request n needSlot hpc)
  case alloc.take n needSlot held batch =>
    split_ifs at h with hb
    cases h
    exact .allocTake hpc hb.1
  case alloc.run n needSlot held =>
    obtain ⟨hn, h⟩ := Option.ite_none_right_eq_some.1 h
    cases h
    exact .allocEnd hpc hn rfl
  case alloc.fail n needSlot held =>
    cases h
    exact .move (.allocFail hpc)
  case undo.run todo isOpen =>
    cases todo with
    | nil =>
      cases h
      exact .move (.undoEnd hpc)
    | cons b todo =>
      cases h
      exact .undo hpc
  -- `allocSlot`, `SetStripe` and `donePool.Get`
  case allocSlot.pick u slot =>
    split_ifs at h with hslot
    cases h
    exact .pickSlot hpc hslot.1 hslot.2.2
  case allocSlot.fail u =>
    cases u with
    | request =>
      cases h
      exact .move (.slotFailRequest hpc)
    | next d =>
      cases h
      exact .move (.slotFailNext hpc)
    | handoff d => cases h
  case setHeader.run u slot =>
    cases h
    exact .setHeader hpc
  case setOwner.run u slot =>
    cases h
    exact .setOwner hpc
  case setStatus.run u slot =>
    cases h
    exact .setStatus hpc
  case getDone.pick u slot ch =>
    split_ifs at h with hch
    cases h
    exact .getDone hpc hch
  -- hub writes
  case opened.write off len =>
    obtain ⟨-, h⟩ := Option.ite_none_right_eq_some.1 h
    cases h
    exact .move (.write hpc rfl)
  case opened.poke b bytes =>
    split_ifs at h with hb
    cases h
    exact .poke (.inl hpc) hb
  case grow.take off len n held batch =>
    split_ifs at h with hb
    cases h
    exact .growTake hpc hb.1
  case grow.run off len n held =>
    split_ifs at h with hn
    cases h
    exact .growEnd hpc rfl
  case grow.fail off len n held =>
    cases h
    exact .move (.growFail hpc)
  case copy.poke off len b bytes =>
    split_ifs at h with hb
    cases h
    exact .poke (.inr ⟨off, len, hpc⟩) hb
  case copy.run off len =>
    split_ifs at h
    · cases h
      exact .move (.copyEnd hpc)
    · cases h
      exact .copyLen hpc
  -- `Next`
  case opened.next name =>
    obtain ⟨d, hd, rfl⟩ := Option.map_eq_some_iff.1 h
    exact .move (.next hpc hd)
  case poll.run d =>
    split_ifs at h with hst
    cases h
    exact .move (.poll hpc hst)
  case poll.fail d =>
    split_ifs at h
    cases h
    exact .move (.pollFail hpc)
  case clear.run d =>
    obtain ⟨ch, hch, rfl⟩ := Option.map_eq_some_iff.1 h
    exact .clear hpc hch
  case store.run d =>
    cases h
    exact .store hpc
  case push.run d =>
    cases h
    exact .push hpc
  case push.fail d =>
    split_ifs at h with hclosed
    cases h
    exact .move (.pushFail hpc hclosed)
  case notify.run d =>
    split_ifs at h
    cases h
    exact .notify hpc
  case notify.fail d =>
    split_ifs at h with hclosed
    cases h
    exact .notifyFail hpc hclosed
  case wait.run =>
    obtain ⟨ch, hch, h⟩ := Option.bind_eq_some_iff.1 h
    obtain ⟨r, hr, rfl⟩ := Option.map_eq_some_iff.1 h
    exact .recv hpc hch hr
  case refresh.run =>
    cases h
    exact .move (.refresh hpc)
  case returned.run =>
    cases h
    exact .move (.returned hpc)
  -- `Close`
  case opened.close =>
    cases h
    exact .move (.close hpc)
  case free.run todo =>
    cases todo with
    | nil =>
      cases h
      exact .move (.freeEnd hpc)
    | cons b todo =>
      cases h
      exact .free hpc
  case dropWaiter.run =>
    cases h
    exact .dropWaiter hpc
  case putDone.run =>
    obtain ⟨ch, hch, rfl⟩ := Option.map_eq_some_iff.1 h
    exact .putDone hpc hch
  case freeSlot.run =>
    cases h
    exact .freeSlot hpc
  case dropDone.run =>
    cases h
    exact .move (.dropDone hpc)

/-- The steps of `dispatchLoop`. -/
inductive DispStep (s : State) : State → Prop
  | process {m : Msg} {q : List Msg} (hd : s.disp = .idle) (hq : s.respQ = m :: q)
    (hm : m.cmd = .process) : DispStep s { s with respQ := q, disp := .swap m.slot m.tag }
  | expand {m : Msg} {q : List Msg} (hd : s.disp = .idle) (hq : s.respQ = m :: q)
    (hm : m.cmd = .requestExpand) : DispStep s { s with respQ := q, disp := .owner m.slot m.tag }
  | skip {m : Msg} {q : List Msg} (hd : s.disp = .idle) (hq : s.respQ = m :: q)
    (hm : m.cmd ≠ .process ∧ m.cmd ≠ .requestExpand) : DispStep s { s with respQ := q }
  | swap {slot c : ℕ} {tag : Handoff} (hd : s.disp = .swap slot tag)
    (hw : s.waiters slot = some c) :
    DispStep s { s with waiters := Function.update s.waiters slot none, disp := .send c tag }
  | drop {slot : ℕ} {tag : Handoff} (hd : s.disp = .swap slot tag) (hw : s.waiters slot = none) :
    DispStep s { s with waiters := Function.update s.waiters slot none, disp := .idle }
  | send {c ch : ℕ} {tag : Handoff} (hd : s.disp = .send c tag) (hc : (s.conns c).done = some ch)
    (hch : s.chans ch = none) :
    DispStep s { s with
      chans := Function.update s.chans ch (some ⟨tag, true⟩)
      disp := .idle }
  | spawn {slot e : ℕ} {tag : Handoff} (hd : s.disp = .owner slot tag) (he : s.exps e = none) :
    DispStep s { s with
      exps := Function.update s.exps e (some ⟨(s.reg slot).owner, slot, tag, .header⟩)
      disp := .idle }

theorem dispStep_of_step {s t : State} {e : ℕ} (h : stepDisp s e = some t) : DispStep s t := by
  unfold stepDisp at h
  cases hd : s.disp with
  | idle =>
    cases hq : s.respQ with
    | nil => simp only [hd, hq, reduceCtorEq] at h
    | cons m q =>
      simp only [hd, hq, Option.some.injEq] at h
      subst h
      cases hm : m.cmd with
      | process => exact .process hd hq hm
      | requestExpand => exact .expand hd hq hm
      | expandReady | expandError =>
        rw [← hd]
        exact .skip hd hq (by simp [hm])
  | swap slot tag =>
    simp only [hd, Option.some.injEq] at h
    subst h
    cases hw : s.waiters slot with
    | none => exact .drop hd hw
    | some c => exact .swap hd hw
  | send c tag =>
    simp only [hd] at h
    obtain ⟨ch, hc, h⟩ := Option.bind_eq_some_iff.1 h
    split_ifs at h with hch
    cases h
    exact .send hd hc hch
  | owner slot tag =>
    simp only [hd] at h
    split_ifs at h with he
    cases h
    exact .spawn hd he

/-- The steps of `handleExpandRequest`. -/
inductive ExpStep (s : State) (e : ℕ) (x : Expander) : ExpAct → State → Prop
  | header (hpc : x.pc = .header) :
    ExpStep s e x .run (s.setExp e { x with pc := .decode (s.reg x.slot).header })
  | decode {b : BlockId} (hpc : x.pc = .decode b) :
    ExpStep s e x .run (s.setExp e { x with pc := .check b (decodeHeader (s.mem b)) })
  | check {b : BlockId} {m : Meta} (hpc : x.pc = .check b m) (ho : (s.reg x.slot).owner = x.node) :
    ExpStep s e x .run (s.setExp e { x with pc := .alloc b m [] })
  | refuse {b : BlockId} {m : Meta} (hpc : x.pc = .check b m) (ho : (s.reg x.slot).owner ≠ x.node) :
    ExpStep s e x .run ((s.refuse x.tag).setExp e { x with pc := .respond false })
  | take {b : BlockId} {m : Meta} {held batch : List BlockId} (hpc : x.pc = .alloc b m held)
    (hb : s.CanTake batch) :
    ExpStep s e x (.take batch)
      ((s.take x.tag.1 batch).setExp e { x with pc := .alloc b m (held ++ batch) })
  | commit {b : BlockId} {m : Meta} {held : List BlockId} (hpc : x.pc = .alloc b m held)
    (hn : held.length = 2) :
    ExpStep s e x .run
      ((s.putMeta b (m.append held)).setExp e { x with pc := .rewrite b (m.append held) })
  | fail {b : BlockId} {m : Meta} {held : List BlockId} (hpc : x.pc = .alloc b m held) :
    ExpStep s e x .fail ((s.refuse x.tag).setExp e { x with pc := .undo held })
  | rewrite {b : BlockId} {m : Meta} (hpc : x.pc = .rewrite b m) :
    ExpStep s e x .run ((s.putMeta b m).setExp e { x with pc := .respond true })
  | undo {b : BlockId} {todo : List BlockId} (hpc : x.pc = .undo (b :: todo)) :
    ExpStep s e x .run ((s.free b).setExp e { x with pc := .undo todo })
  | undoEnd (hpc : x.pc = .undo []) : ExpStep s e x .run (s.setExp e { x with pc := .respond false })
  | ready (hpc : x.pc = .respond true) :
    ExpStep s e x .run
      ((s.pushReq x.node ⟨x.slot, .expandReady, x.tag⟩).setExp e { x with pc := .gone })
  | readyLost {a : ExpAct} (hpc : x.pc = .respond true) :
    ExpStep s e x a (s.setExp e { x with pc := .gone })
  | error (hpc : x.pc = .respond false) :
    ExpStep s e x .run
      ((s.pushReq x.node ⟨x.slot, .expandError, x.tag⟩).setExp e { x with pc := .load })
  | errorLost {a : ExpAct} (hpc : x.pc = .respond false) :
    ExpStep s e x a (s.setExp e { x with pc := .load })
  | load {c : ℕ} (hpc : x.pc = .load) (hw : s.waiters x.slot = some c) :
    ExpStep s e x .run (s.setExp e { x with pc := .send c })
  | loadNil (hpc : x.pc = .load) (hw : s.waiters x.slot = none) :
    ExpStep s e x .run (s.setExp e { x with pc := .gone })
  | send {c ch : ℕ} (hpc : x.pc = .send c) (hc : (s.conns c).done = some ch)
    (hch : s.chans ch = none) :
    ExpStep s e x .run ((s.setChan ch (some ⟨x.tag, false⟩)).setExp e { x with pc := .gone })

theorem expStep_of_step {s t : State} {e : ℕ} {a : ExpAct} (hs : stepExp s e a = some t) :
    ∃ x, s.exps e = some x ∧ ExpStep s e x a t := by
  obtain ⟨x, hx, h⟩ := Option.bind_eq_some_iff.1 hs
  clear hs
  refine ⟨x, hx, ?_⟩
  cases hpc : x.pc <;> cases a <;> simp only [hpc, reduceCtorEq] at h
  case header.run =>
    cases h
    exact .header hpc
  case decode.run b =>
    cases h
    exact .decode hpc
  case check.run b m =>
    split_ifs at h with ho
    · cases h
      exact .check hpc ho
    · cases h
      exact .refuse hpc ho
  case alloc.take b m held batch =>
    split_ifs at h with hb
    cases h
    exact .take hpc hb.1
  case alloc.run b m held =>
    split_ifs at h with hn
    cases h
    exact .commit hpc hn
  case alloc.fail b m held =>
    cases h
    exact .fail hpc
  case rewrite.run b m =>
    cases h
    exact .rewrite hpc
  case undo.run todo =>
    cases todo with
    | nil =>
      cases h
      exact .undoEnd hpc
    | cons b todo =>
      cases h
      exact .undo hpc
  case respond.run ok =>
    by_cases hl : s.Listed x.node
    · rw [if_pos hl] at h
      cases h
      cases ok with
      | false => exact .error hpc
      | true => exact .ready hpc
    · rw [if_neg hl] at h
      cases h
      cases ok with
      | false => exact .errorLost hpc
      | true => exact .readyLost hpc
  case respond.fail ok =>
    obtain ⟨-, h⟩ := Option.ite_none_right_eq_some.1 h
    cases h
    cases ok with
    | false => exact .errorLost hpc
    | true => exact .readyLost hpc
  case load.run =>
    cases h
    cases hw : s.waiters x.slot with
    | none => exact .loadNil hpc hw
    | some c => exact .load hpc hw
  case send.run c =>
    obtain ⟨ch, hc, h⟩ := Option.bind_eq_some_iff.1 h
    split_ifs at h with hch
    cases h
    exact .send hpc hc hch

/-- The steps of a node's event loop. -/
inductive PopStep (s : State) (d : SessionId) : State → Prop
  | process {m : Msg} {q : List Msg} (hq : s.reqQ d.1 = m :: q) (hm : m.cmd = .process) :
    PopStep s d ({ s with reqQ := Function.update s.reqQ d.1 q }.setHandler m.tag
      ⟨m.slot, d, (s.sessions d).lang, .locate false, (0, 0), [], [], 0, false, false⟩)
  | reply {m : Msg} {q : List Msg} {h : Handoff} (hq : s.reqQ d.1 = m :: q)
    (hm : m.cmd = .expandReady ∨ m.cmd = .expandError) (hw : s.waiting d m.slot = some h) :
    PopStep s d { s with
      reqQ := Function.update s.reqQ d.1 q
      waiting := Function.update s.waiting d (Function.update (s.waiting d) m.slot none)
      handlers := Function.update s.handlers h ((s.handlers h).map fun x =>
        { x with pending := x.pending - 1, failed := x.failed || m.cmd = .expandError }) }
  | drop {m : Msg} {q : List Msg} (hq : s.reqQ d.1 = m :: q) (hm : m.cmd ≠ .process) :
    PopStep s d { s with reqQ := Function.update s.reqQ d.1 q }

theorem popStep_of_step {s t : State} {d : SessionId} (h : stepPop s d = some t) : PopStep s d t := by
  unfold stepPop at h
  split_ifs at h
  cases hq : s.reqQ d.1 with
  | nil => simp only [hq, reduceCtorEq] at h
  | cons m q =>
    cases hm : m.cmd with
    | process =>
      simp only [hq, hm, Option.some.injEq] at h
      exact h ▸ .process hq hm
    | requestExpand =>
      simp only [hq, hm, Option.some.injEq] at h
      exact h ▸ .drop hq (by simp [hm])
    | expandReady | expandError =>
      cases hw : s.waiting d m.slot with
      | none =>
        simp only [hq, hm, hw, Option.some.injEq] at h
        exact h ▸ .drop hq (by simp [hm])
      | some k =>
        have hreply : PopStep s d _ := .reply hq (by simp [hm]) hw
        simp only [hm] at hreply
        simp only [hq, hm, hw, Option.some.injEq] at h
        exact h ▸ hreply

/-- The steps of a handler. -/
inductive HandStep (s : State) (h : Handoff) (x : Handler) : HandAct → State → Prop
  | locate {again : Bool} (hpc : x.pc = .locate again) :
    HandStep s h x .run (s.setHandler h { x with pc := .decode again (s.reg x.slot).header })
  | decode {again : Bool} {b : BlockId} {seq : List Int16} (hpc : x.pc = .decode again b)
    (hseq : seq = (decodeHeader (s.mem b)).2.2) :
    HandStep s h x .run (s.setHandler h
      { x with header := b, sequence := seq, blocks := x.resolve again b seq, pc := .running })
  | poke {b : BlockId} {bytes : Bytes} (hpc : x.pc = .running) (hb : b ∈ x.blocks.tail) :
    HandStep s h x (.poke b bytes) (s.setMem b bytes)
  | setLen {n : UInt32} (hpc : x.pc = .running) :
    HandStep s h x (.setLen n) (s.setMem x.lenBlock (putDataLen (s.mem x.lenBlock) n))
  | request (hpc : x.pc = .running) :
    HandStep s h x .request { s with
      respQ := s.respQ ++ [⟨x.slot, .requestExpand, h⟩]
      handlers := Function.update s.handlers h (some { x with pending := x.pending + 1 })
      waiting := Function.update s.waiting x.session
        (Function.update (s.waiting x.session) x.slot (some h)) }
  | reload (hpc : x.pc = .running) :
    HandStep s h x .reload (s.setHandler h { x with pc := .locate true })
  | quit (hpc : x.pc = .running) (hl : x.lang = .go) (hf : x.failed = true) :
    HandStep s h x .finish (s.setHandler h { x with pc := .finished })
  | finish (hpc : x.pc = .running) (hl : ¬ (x.lang = .go ∧ x.failed = true)) :
    HandStep s h x .finish (s.setHandler h { x with pc := .setDone })
  | panic (hpc : x.pc = .running) :
    HandStep s h x .panic (s.setHandler h { x with pc := .setDone })
  | setDone (hpc : x.pc = .setDone) :
    HandStep s h x .run ((s.setReg x.slot { s.reg x.slot with status := .done }).setHandler h
      { x with pc := .respond })
  | respond (hpc : x.pc = .respond) :
    HandStep s h x .run
      ((s.pushResp ⟨x.slot, .process, h⟩).setHandler h { x with pc := .finished })

theorem handStep_of_step {s t : State} {h : Handoff} {a : HandAct}
    (hs : stepHandler s h a = some t) : ∃ x, s.handlers h = some x ∧ HandStep s h x a t := by
  obtain ⟨x, hx, hstep⟩ := Option.bind_eq_some_iff.1 hs
  clear hs
  refine ⟨x, hx, ?_⟩
  cases hpc : x.pc <;> cases a <;> simp only [hpc, reduceCtorEq] at hstep
  case locate.run again =>
    cases hstep
    exact .locate hpc
  case decode.run again b =>
    cases hstep
    exact .decode hpc rfl
  case running.poke b bytes =>
    split_ifs at hstep with hb
    cases hstep
    exact .poke hpc hb
  case running.setLen n =>
    cases hstep
    exact .setLen hpc
  case running.request =>
    rw [← hpc] at hstep
    cases hstep
    exact .request hpc
  case running.reload =>
    cases hstep
    exact .reload hpc
  case running.finish =>
    cases hstep
    split_ifs with hl
    · exact .quit hpc hl.1 hl.2
    · exact .finish hpc hl
  case running.panic =>
    cases hstep
    exact .panic hpc
  case setDone.run =>
    cases hstep
    exact .setDone hpc
  case respond.run =>
    cases hstep
    exact .respond hpc

end Mmfg.Hub
