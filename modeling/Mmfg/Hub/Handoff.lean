import Mmfg.Hub.Tokens

/-!
# Every handoff has exactly one token

`Tokens` collects what a run keeps: the token of each connection, and the facts that make sure that a
message reaches the party it is meant for.  Slots are reused, so a reply to an old handler could be
taken for one to a new handler on the same slot; it is not, because the old reply is ahead of the new
request in the same queue (`Order`).
-/

namespace Mmfg.Hub

open Shm

/-- Handoff `k` of the connection has been pushed. -/
def Conn.Past (c : Conn) (k : ℕ) : Prop := k ≤ c.handoffs ∧ ∀ d, c.pc = .push d → k < c.handoffs

/-- The handler of `h` runs on `slot`. -/
def State.HandlerOn (s : State) (h : Handoff) (slot : ℕ) : Prop :=
  ∃ y, s.handlers h = some y ∧ y.slot = slot

/-- Requests for expansions name the slot of the handler that made them. -/
structure Asks (s : State) : Prop where
  resp : ∀ m ∈ s.respQ, m.cmd = .requestExpand → s.HandlerOn m.tag m.slot
  disp : ∀ slot tag, s.disp = .owner slot tag → s.HandlerOn tag slot
  exp : ∀ e x, s.exps e = some x → s.HandlerOn x.tag x.slot
  wait : ∀ d slot h, s.waiting d slot = some h →
    ∃ y, s.handlers h = some y ∧ y.slot = slot ∧ y.session = d

/-- The request of a `Next` that is still in progress. -/
def State.LiveReq (s : State) (m : Msg) : Prop :=
  m.cmd = .process ∧ (s.conns m.tag.1).pc.awaits = true ∧ (s.conns m.tag.1).handoffs = m.tag.2

/-- No refusal is on its way to a slot behind the request that is to be handled on it, nor while an
active handler runs on it. -/
structure Order (s : State) : Prop where
  req : ∀ n, (s.reqQ n).Pairwise fun m m' =>
    s.LiveReq m → m'.cmd = .expandError → m'.slot ≠ m.slot
  hand : ∀ h y, s.handlers h = some y → y.active = true →
    ∀ m ∈ s.reqQ y.session.1, m.cmd = .expandError → m.slot ≠ y.slot

/-- A handler that was refused an expansion sends no response, and only such a handler hears of a
refusal. -/
def Handler.Told (y : Handler) : Prop :=
  (y.refused = true → y.pc.working = true ∨ y.pc = .finished) ∧
  (y.failed = true → y.refused = true ∨ y.pc = .finished)

/-- The invariant of handoffs. -/
structure Tokens (s : State) : Prop where
  slots : Slots s
  good : ∀ i, ∃ tok, Good s i tok
  pool : ∀ ch, s.pool ch = true → s.chans ch = none
  req : ∀ n, ∀ m ∈ s.reqQ n, m.cmd = .process → (s.conns m.tag.1).Past m.tag.2
  hand : ∀ h y, s.handlers h = some y → (s.conns h.1).Past h.2
  told : ∀ h y, s.handlers h = some y → y.Told
  asks : Asks s
  order : Order s

theorem tokens_newHub (mem : BlockId → Bytes) : Tokens (newHub mem) where
  slots := slots_newHub mem
  good i := ⟨.none, rfl, rfl, trivial⟩
  pool _ _ := rfl
  req _ _ h := by cases h
  hand _ _ h := by cases h
  told _ _ h := by cases h
  asks := by constructor <;> intros <;> contradiction
  order := ⟨fun _ => .nil, fun _ _ h => by cases h⟩

variable {s t : State} {i : ℕ} {c : Conn}

/-! ## Steps of connections -/

/-- Queues, handlers and the hub's goroutines are as before. -/
structure Still (s t : State) : Prop where
  reqQ : t.reqQ = s.reqQ
  handlers : t.handlers = s.handlers
  respQ : t.respQ = s.respQ
  disp : t.disp = s.disp
  exps : t.exps = s.exps
  waiting : t.waiting = s.waiting

theorem Still.frame (h : Still s t) {j : ℕ} (hc : t.conns j = s.conns j)
    (hch : ∀ ch, (s.conns j).heldChan = some ch → t.chans ch = s.chans ch)
    (hw : ∀ slot, (s.conns j).heldSlot = some slot → t.waiters slot = s.waiters slot)
    (hr : ∀ slot, (s.conns j).heldSlot = some slot → t.reg slot = s.reg slot) : Frame s t j := by
  refine frame_of hc ?_ ?_ ?_ ?_ ?_ hch hw hr
  · intro n k
    rw [h.reqQ]
  · intro k
    rw [h.handlers]
  · rw [h.respQ]
  · rw [h.disp]
  · intro e
    rw [h.exps]

theorem Still.asks (h : Still s t) (ha : Asks s) : Asks t := by
  have hon : ∀ k slot, s.HandlerOn k slot → t.HandlerOn k slot := by
    intro k slot hk
    unfold State.HandlerOn
    rw [h.handlers]
    exact hk
  refine ⟨fun m hm hc => ?_, fun slot tag hd => ?_, fun e x hx => ?_, fun d slot k hk => ?_⟩
  · rw [h.respQ] at hm
    exact hon _ _ (ha.resp m hm hc)
  · rw [h.disp] at hd
    exact hon _ _ (ha.disp slot tag hd)
  · rw [h.exps] at hx
    exact hon _ _ (ha.exp e x hx)
  · rw [h.waiting] at hk
    rw [h.handlers]
    exact ha.wait d slot k hk

/-- The view of a connection whose own record changes. -/
theorem Still.view (h : Still s t) (hc : t.conns i = c)
    (ha : c.pc.awaits = (s.conns i).pc.awaits) (hk : c.handoffs = (s.conns i).handoffs) :
    t.view i = { s.view i with chan := c.heldChan.bind t.chans } := by
  refine View.ext (funext fun n => ?_) (funext fun k => ?_) ?_ ?_ (funext fun e => ?_) ?_
  · simp only [State.view, h.reqQ, hc, ha, hk]
  · simp only [State.view, h.handlers]
  · simp only [State.view, h.respQ]
  · simp only [State.view, h.disp]
  · simp only [State.view, h.exps]
  · simp only [State.view, hc]

/-- The channels and slots that the other connections hold are as before. -/
structure Others (s t : State) (i : ℕ) : Prop where
  chans : ∀ j, j ≠ i → ∀ ch, (s.conns j).heldChan = some ch → t.chans ch = s.chans ch
  waiters : ∀ j, j ≠ i → ∀ slot, (s.conns j).heldSlot = some slot → t.waiters slot = s.waiters slot
  reg : ∀ j, j ≠ i → ∀ slot, (s.conns j).heldSlot = some slot → t.reg slot = s.reg slot

theorem others_of_eq (hch : t.chans = s.chans) (hw : t.waiters = s.waiters) (hr : t.reg = s.reg) :
    Others s t i := by
  constructor
  · rw [hch]
    exact fun _ _ _ _ => rfl
  · rw [hw]
    exact fun _ _ _ _ => rfl
  · rw [hr]
    exact fun _ _ _ _ => rfl

/-- A store to the slot of one connection is not seen by another. -/
theorem Slots.update_slot (h : Slots s) {slot : ℕ} (hi : (s.conns i).heldSlot = some slot)
    {β : Type} (f : ℕ → β) (v : β) :
    ∀ j, j ≠ i → ∀ sl, (s.conns j).heldSlot = some sl → Function.update f slot v sl = f sl :=
  fun j hj sl hsl => Function.update_of_ne (fun he : sl = slot => h.slot_ne hi j hj (he ▸ hsl)) v f

theorem Slots.update_chan (h : Slots s) {ch : ℕ} (hi : (s.conns i).heldChan = some ch)
    {β : Type} (f : ℕ → β) (v : β) :
    ∀ j, j ≠ i → ∀ c, (s.conns j).heldChan = some c → Function.update f ch v c = f c :=
  fun j hj c hc => Function.update_of_ne (fun he : c = ch => h.chan_ne hi j hj (he ▸ hc)) v f

theorem Slots.others_reg (h : Slots s) {slot : ℕ} (hi : (s.conns i).heldSlot = some slot) {e : Entry}
    (hch : t.chans = s.chans) (hw : t.waiters = s.waiters)
    (hr : t.reg = Function.update s.reg slot e) : Others s t i := by
  have hsame : Others s { t with reg := s.reg } i := others_of_eq hch hw rfl
  refine ⟨hsame.chans, hsame.waiters, ?_⟩
  rw [hr]
  exact h.update_slot hi s.reg e

theorem Slots.others_waiters (h : Slots s) {slot : ℕ} (hi : (s.conns i).heldSlot = some slot)
    {w : Option ℕ} (hch : t.chans = s.chans) (hw : t.waiters = Function.update s.waiters slot w)
    (hr : t.reg = s.reg) : Others s t i := by
  have hsame : Others s { t with waiters := s.waiters } i := others_of_eq hch rfl hr
  refine ⟨hsame.chans, ?_, hsame.reg⟩
  rw [hw]
  exact h.update_slot hi s.waiters w

theorem Slots.others_chans (h : Slots s) {ch : ℕ} (hi : (s.conns i).heldChan = some ch)
    {r : Option Completion} (hch : t.chans = Function.update s.chans ch r)
    (hw : t.waiters = s.waiters) (hr : t.reg = s.reg) : Others s t i := by
  have hsame : Others s { t with chans := s.chans } i := others_of_eq rfl hw hr
  refine ⟨?_, hsame.waiters, hsame.reg⟩
  rw [hch]
  exact h.update_chan hi s.chans r

theorem Tokens.conn (h : Tokens s) (hs : Still s t) (hc : t.conns = Function.update s.conns i c)
    (hslots : Slots t) (hpast : ∀ k, (s.conns i).Past k → c.Past k)
    (hawait : c.pc.awaits = true →
      (s.conns i).pc.awaits = true ∧ c.handoffs = (s.conns i).handoffs)
    (hpool : ∀ ch, t.pool ch = true → t.chans ch = none) (hothers : Others s t i)
    (hgood : ∃ tok, Good t i tok) : Tokens t := by
  have hself : t.conns i = c := by rw [hc, Function.update_self]
  have hother : ∀ j, j ≠ i → t.conns j = s.conns j := fun j hj => by
    rw [hc, Function.update_of_ne hj]
  have hpast' : ∀ j k, (s.conns j).Past k → (t.conns j).Past k := by
    intro j k hk
    by_cases hj : j = i
    · subst hj
      rw [hself]
      exact hpast k hk
    · rw [hother j hj]
      exact hk
  refine ⟨hslots, fun j => ?_, hpool, fun n m hm hcmd => ?_, fun k y hy => ?_, fun k y hy => ?_,
    hs.asks h.asks, fun n => ?_, fun k y hy hact m hm => ?_⟩
  · by_cases hj : j = i
    · subst hj
      exact hgood
    · obtain ⟨tok, hg⟩ := h.good j
      have hframe := hs.frame (hother j hj) (hothers.chans j hj) (hothers.waiters j hj) (hothers.reg j hj)
      exact ⟨tok, hg.frame hframe (h.slots.wf j)⟩
  · rw [hs.reqQ] at hm
    exact hpast' _ _ (h.req n m hm hcmd)
  · rw [hs.handlers] at hy
    exact hpast' _ _ (h.hand k y hy)
  · rw [hs.handlers] at hy
    exact h.told k y hy
  · rw [hs.reqQ]
    refine (h.order.req n).imp fun {m m'} hlive hm => hlive ?_
    obtain ⟨hcmd, ha, hk⟩ := hm
    by_cases hj : m.tag.1 = i
    · rw [hj, hself] at ha hk
      obtain ⟨ha', hk'⟩ := hawait ha
      exact ⟨hcmd, by rw [hj]; exact ha', by rw [hj, ← hk']; exact hk⟩
    · rw [hother _ hj] at ha hk
      exact ⟨hcmd, ha, hk⟩
  · rw [hs.handlers] at hy
    rw [hs.reqQ] at hm
    exact h.order.hand k y hy hact m hm

/-- Program points without a token and without facts about the slot. -/
def ConnPC.plain : ConnPC → Bool
  | .setStatus (.handoff _) _ | .clear _ | .store _ | .push _ | .refresh | .returned | .notify _
  | .wait => false
  | _ => true

theorem ConnPC.awaits_of_plain {pc : ConnPC} (h : pc.plain = true) : pc.awaits = false := by
  cases pc <;> first | rfl | cases h

theorem State.quietAt_of_plain {pc : ConnPC} (h : pc.plain = true) : s.QuietAt i pc := by
  unfold State.QuietAt
  split <;> trivial

theorem ConnPC.ne_push_of_plain {pc : ConnPC} (h : pc.plain = true) (d : SessionId) :
    pc ≠ .push d := by
  rintro rfl
  cases h

theorem Move.plain {c' : Conn} (h : Move s i c c') :
    c.pc.awaits = false ∧ c'.handoffs = c.handoffs ∧
      (c'.pc.plain = true ∨ c.pc = .refresh ∧ c'.pc = .returned) := by
  cases h with
  | request n needSlot hpc | allocFail hpc | slotFailRequest hpc | slotFailNext hpc | growFail hpc
  | copyEnd hpc | poll hpc | pollFail hpc | pushFail hpc | returned hpc | close hpc
  | dropDone hpc =>
    rw [hpc]
    exact ⟨rfl, rfl, .inl rfl⟩
  | refresh hpc =>
    rw [hpc]
    exact ⟨rfl, rfl, .inr ⟨rfl, rfl⟩⟩
  | undoEnd hpc | write hpc | next hpc | freeEnd hpc =>
    rw [hpc]
    refine ⟨rfl, rfl, .inl ?_⟩
    dsimp only
    split_ifs <;> rfl

theorem Conn.Past.of_ne_push {c c' : Conn} {k : ℕ} (h : c.Past k) (hk : c'.handoffs = c.handoffs)
    (hne : ∀ d, c'.pc ≠ .push d) : c'.Past k :=
  ⟨by rw [hk]; exact h.1, fun d hd => absurd hd (hne d)⟩

/-! ### Outside of a handoff -/

theorem Good.eq_none {tok : Tok} (h : Good s i tok) (ha : (s.conns i).pc.awaits = false) :
    tok = .none := by
  have := h.live
  rw [ha] at this
  cases tok <;> first | rfl | cases this

/-- Outside of a handoff the view of a connection is empty. -/
theorem Tokens.view_empty (h : Tokens s) (ha : (s.conns i).pc.awaits = false) :
    s.view i = .empty ∧ s.QuietAt i (s.conns i).pc := by
  obtain ⟨tok, hg⟩ := h.good i
  obtain rfl := hg.eq_none ha
  exact ⟨hg.view, hg.ok⟩

theorem Tokens.chan_none (h : Tokens s) (ha : (s.conns i).pc.awaits = false)
    (hheld : c.heldChan = (s.conns i).heldChan) : c.heldChan.bind s.chans = none := by
  rw [hheld]
  exact congrArg View.chan (h.view_empty ha).1

/-- A step of a connection to a point without a token, once no handler, response or goroutine of the
hub has to do with it. -/
theorem Tokens.quiet (h : Tokens s) (hs : Still s t) (hc : t.conns = Function.update s.conns i c)
    (hslots : Slots t)
    (hempty : { s.view i with reqs := fun _ => [], chan := none } = View.empty)
    (ha' : c.pc.awaits = false) (hpast : ∀ k, (s.conns i).Past k → c.Past k)
    (hpool : ∀ ch, t.pool ch = true → t.chans ch = none) (hothers : Others s t i)
    (hchan : c.heldChan.bind t.chans = none) (hq : t.QuietAt i c.pc) : Tokens t := by
  have hself : t.conns i = c := by rw [hc, Function.update_self]
  refine h.conn hs hc hslots hpast (fun hx => by rw [ha'] at hx; cases hx) hpool hothers
    ⟨.none, ?_, by rw [hself, ha']; rfl, by rw [← hself] at hq; exact hq⟩
  refine View.ext (funext fun n => ?_) (funext fun k => ?_) ?_ ?_ (funext fun e => ?_) ?_
  · simp only [State.view, hself, ha', Bool.false_eq_true, if_false]
    rfl
  · have := congrFun (congrArg View.active hempty) k
    simp only [State.view, hs.handlers] at this ⊢
    exact this
  · have := congrArg View.resps hempty
    simp only [State.view, hs.respQ] at this ⊢
    exact this
  · have := congrArg View.disp hempty
    simp only [State.view, hs.disp] at this ⊢
    exact this
  · have := congrFun (congrArg View.exps hempty) e
    simp only [State.view, hs.exps] at this ⊢
    exact this
  · simp only [State.view, hself]
    exact hchan

theorem Tokens.outside (h : Tokens s) (hs : Still s t) (hc : t.conns = Function.update s.conns i c)
    (hslots : Slots t) (ha : (s.conns i).pc.awaits = false) (ha' : c.pc.awaits = false)
    (hpast : ∀ k, (s.conns i).Past k → c.Past k)
    (hpool : ∀ ch, t.pool ch = true → t.chans ch = none) (hothers : Others s t i)
    (hchan : c.heldChan.bind t.chans = none) (hq : t.QuietAt i c.pc) : Tokens t := by
  refine h.quiet hs hc hslots ?_ ha' hpast hpool hothers hchan hq
  rw [(h.view_empty ha).1]
  rfl

theorem Tokens.plain (h : Tokens s) (hs : Still s t) (hc : t.conns = Function.update s.conns i c)
    (hslots : Slots t) (ha : (s.conns i).pc.awaits = false) (hp : c.pc.plain = true)
    (hk : c.handoffs = (s.conns i).handoffs) (hpool : t.pool = s.pool) (hchans : t.chans = s.chans)
    (hothers : Others s t i) (hheld : c.heldChan = (s.conns i).heldChan) : Tokens t := by
  refine h.outside hs hc hslots ha (ConnPC.awaits_of_plain hp)
    (fun _ hpast => hpast.of_ne_push hk (ConnPC.ne_push_of_plain hp)) ?_ hothers ?_ (State.quietAt_of_plain hp)
  · rw [hpool, hchans]
    exact h.pool
  · rw [hchans]
    exact h.chan_none ha hheld

theorem Tokens.same (h : Tokens s) (hslots : Slots t) (hs : Still s t) (hc : t.conns = s.conns)
    (hchans : t.chans = s.chans) (hw : t.waiters = s.waiters) (hr : t.reg = s.reg)
    (hpool : t.pool = s.pool) : Tokens t := by
  have hframe : ∀ j, Frame s t j := fun j =>
    hs.frame (by rw [hc]) (by rw [hchans]; exact fun _ _ => rfl) (by rw [hw]; exact fun _ _ => rfl)
      (by rw [hr]; exact fun _ _ => rfl)
  obtain ⟨tok, hg⟩ := h.good 0
  refine h.conn (i := 0) (c := s.conns 0) hs (by rw [hc, Function.update_eq_self]) hslots
    (fun _ => id) (fun ha => ⟨ha, rfl⟩) ?_ (others_of_eq hchans hw hr)
    ⟨tok, hg.frame (hframe 0) (h.slots.wf 0)⟩
  rw [hpool, hchans]
  exact h.pool

/-! ### Facts about the slot, the waiter and the handler -/

theorem setConn_self : (s.setConn i c).conns i = c := Function.update_self ..

theorem State.Waited.congr (h : s.Waited i) (hslot : (t.conns i).slotID = (s.conns i).slotID)
    (hw : t.waiters (s.conns i).slotID = s.waiters (s.conns i).slotID) : t.Waited i := by
  unfold State.Waited
  rw [hslot, hw]
  exact h

theorem State.Handed.congr {n : ℕ} (h : s.Handed i n)
    (hslot : (t.conns i).slotID = (s.conns i).slotID)
    (hr : t.reg (s.conns i).slotID = s.reg (s.conns i).slotID) : t.Handed i n := by
  unfold State.Handed
  rw [hslot, hr]
  exact h

theorem State.Finished.congr (h : s.Finished i)
    (hk : (t.conns i).handoffs = (s.conns i).handoffs)
    (hh : t.handlers (i, (s.conns i).handoffs) = s.handlers (i, (s.conns i).handoffs)) :
    t.Finished i := by
  unfold State.Finished
  rw [hk, hh]
  exact h

/-- What holds while the token is there depends on the slot, the waiter and the handler. -/
theorem Tok.Ok.congr {tok : Tok} (h : tok.Ok s i) (hn : tok.isNone = false)
    (hslot : (t.conns i).slotID = (s.conns i).slotID)
    (hk : (t.conns i).handoffs = (s.conns i).handoffs)
    (hw : t.waiters (s.conns i).slotID = s.waiters (s.conns i).slotID)
    (hr : t.reg (s.conns i).slotID = s.reg (s.conns i).slotID)
    (hh : t.handlers (i, (s.conns i).handoffs) = s.handlers (i, (s.conns i).handoffs)) :
    tok.Ok t i := by
  cases tok with
  | none => cases hn
  | queued n => exact ⟨h.1.congr hslot hw, h.2.1.congr hslot hr, by rw [hk, hh]; exact h.2.2⟩
  | handling =>
    obtain ⟨h1, y, h2, h3, h4⟩ := h
    exact ⟨h1.congr hslot hw, y, by rw [hk, hh]; exact h2, by rw [hslot]; exact h3,
      fun hp => (h4 hp).congr hslot hr⟩
  | responding | swapping => exact ⟨h.1.congr hslot hw, h.2.congr hk hh⟩
  | sending => exact State.Finished.congr h hk hh
  | failing e x =>
    exact ⟨h.1.congr hslot hw, by rw [hslot]; exact h.2.1, by rw [hk]; exact h.2.2.1, h.2.2.2⟩
  | full ok => exact fun ho => (h ho).congr hk hh

/-! ### The push of a request -/

theorem filter_isRequest_eq_nil {q : List Msg} {k : Handoff}
    (h : ∀ m ∈ q, m.cmd = .process → m.tag ≠ k) : q.filter (Msg.isRequest k) = [] := by
  rw [List.filter_eq_nil_iff]
  intro m hm hreq
  simp only [Msg.isRequest, decide_eq_true_eq] at hreq
  exact h m hm hreq.1 hreq.2

section Push

variable {d : SessionId} (hpc : (s.conns i).pc = .push d)
include hpc

/-- The number of the handoff is new: no request has it. -/
theorem Tokens.tag_ne (h : Tokens s) {n : ℕ} {m : Msg} (hm : m ∈ s.reqQ n) (hcmd : m.cmd = .process) :
    m.tag ≠ (i, (s.conns i).handoffs) := by
  intro htag
  have := (h.req n m hm hcmd).2 d
  rw [htag] at this
  exact absurd (this hpc) (lt_irrefl _)

/-- No handler has it, either. -/
theorem Tokens.handler_none (h : Tokens s) : s.handlers (i, (s.conns i).handoffs) = none := by
  cases hy : s.handlers (i, (s.conns i).handoffs) with
  | none => rfl
  | some y => exact absurd ((h.hand _ y hy).2 d hpc) (lt_irrefl _)

variable (ht : t = (s.pushReq d.1 ⟨(s.conns i).slotID, .process, (i, (s.conns i).handoffs)⟩).setConn i
  { s.conns i with pc := .notify d })
include ht

omit hpc in
theorem conns_push : t.conns i = { s.conns i with pc := .notify d } ∧
    ∀ j, j ≠ i → t.conns j = s.conns j := by
  subst ht
  exact ⟨Function.update_self .., fun j hj => Function.update_of_ne hj ..⟩

omit hpc in
theorem mem_reqQ_push {n : ℕ} {m : Msg} (hm : m ∈ t.reqQ n) :
    m ∈ s.reqQ n ∨ m = ⟨(s.conns i).slotID, .process, (i, (s.conns i).handoffs)⟩ := by
  subst ht
  change m ∈ Function.update s.reqQ d.1 _ n at hm
  by_cases hn : n = d.1
  · subst hn
    rw [Function.update_self, List.mem_append, List.mem_singleton] at hm
    exact hm
  · rw [Function.update_of_ne hn] at hm
    exact .inl hm

/-- The token is in the queue. -/
theorem Tokens.good_push (h : Tokens s) : Good t i (.queued d.1) := by
  obtain ⟨hv, hq⟩ := h.view_empty (show (s.conns i).pc.awaits = false by rw [hpc]; rfl)
  rw [hpc] at hq
  have hself := (conns_push ht).1
  have hslot : (t.conns i).slotID = (s.conns i).slotID := by rw [hself]
  refine ⟨?_, by rw [hself]; rfl, hq.2.congr hslot (by rw [ht]; rfl), hq.1.congr hslot (by rw [ht]; rfl),
    ?_⟩
  · rw [hself]
    refine View.ext (funext fun n => ?_) ?_ ?_ ?_ ?_ ?_
    · have hnil : ∀ n, (s.reqQ n).filter (Msg.isRequest (i, (s.conns i).handoffs)) = [] := fun n =>
        filter_isRequest_eq_nil fun m hm => h.tag_ne hpc hm
      simp only [State.view, hself, ConnPC.awaits, if_true, Tok.view]
      rw [ht]
      change (Function.update s.reqQ d.1 _ n).filter _ = _
      by_cases hn : n = d.1
      · subst hn
        rw [Function.update_self, Function.update_self, List.filter_append, hnil]
        simp [Msg.isRequest]
      · rw [Function.update_of_ne hn, Function.update_of_ne hn, hnil]
    · have := congrArg View.active hv
      rw [ht]
      exact this
    · have := congrArg View.resps hv
      rw [ht]
      exact this
    · have := congrArg View.disp hv
      rw [ht]
      exact this
    · have := congrArg View.exps hv
      rw [ht]
      exact this
    · have := congrArg View.chan hv
      simp only [State.view, hself, Conn.heldChan, hpc] at this ⊢
      rw [ht]
      exact this
  · rw [hself, ht]
    exact h.handler_none hpc

omit hpc in
theorem frame_push {j : ℕ} (hj : j ≠ i) : Frame s t j := by
  subst ht
  refine frame_of ((conns_push rfl).2 j hj) (fun n k => ?_) (fun _ => rfl) rfl rfl (fun _ => rfl)
    (fun _ _ => rfl) (fun _ _ => rfl) (fun _ _ => rfl)
  change (Function.update s.reqQ d.1 _ n).filter _ = _
  by_cases hn : n = d.1
  · subst hn
    rw [Function.update_self, List.filter_append]
    simp [Msg.isRequest, Ne.symm hj]
  · rw [Function.update_of_ne hn]

/-- It is behind the refusals that are on their way to the slot. -/
theorem Tokens.order_push (h : Tokens s) : Order t := by
  obtain ⟨hself, hother⟩ := conns_push ht
  have hlive : ∀ {n m}, m ∈ s.reqQ n → t.LiveReq m → s.LiveReq m := by
    rintro n m hm ⟨hcmd, haw, hk⟩
    by_cases hj : m.tag.1 = i
    · rw [hj, hself] at hk
      exact absurd (Prod.ext hj hk.symm) (h.tag_ne hpc hm hcmd)
    · rw [hother _ hj] at haw hk
      exact ⟨hcmd, haw, hk⟩
  have hold : ∀ n, (s.reqQ n).Pairwise fun m m' =>
      t.LiveReq m → m'.cmd = .expandError → m'.slot ≠ m.slot := fun n =>
    List.pairwise_iff_forall_sublist.2 fun {a b} hab hl =>
      List.pairwise_iff_forall_sublist.1 (h.order.req n) hab (hlive (hab.subset (by simp)) hl)
  have hreqQ : t.reqQ = Function.update s.reqQ d.1
      (s.reqQ d.1 ++ [⟨(s.conns i).slotID, .process, (i, (s.conns i).handoffs)⟩]) := by rw [ht]; rfl
  refine ⟨fun n => ?_, fun k y hy hact m hm hcmd => ?_⟩
  · rw [hreqQ]
    by_cases hn : n = d.1
    · subst hn
      rw [Function.update_self, List.pairwise_append]
      refine ⟨hold _, List.pairwise_singleton .., fun m _ m' hm' _ hcmd => ?_⟩
      rw [List.mem_singleton.1 hm'] at hcmd
      cases hcmd
    · rw [Function.update_of_ne hn]
      exact hold n
  · rcases mem_reqQ_push ht hm with hm | rfl
    · rw [ht] at hy
      exact h.order.hand k y hy hact m hm hcmd
    · cases hcmd

/-- The request that is pushed is the only one of its handoff. -/
theorem Tokens.push (h : Tokens s) (hslots : Slots t) : Tokens t := by
  obtain ⟨hself, hother⟩ := conns_push ht
  have hpast : ∀ j k, (s.conns j).Past k → (t.conns j).Past k := by
    intro j k hk
    by_cases hj : j = i
    · subst hj
      rw [hself]
      exact hk.of_ne_push rfl (by simp)
    · rw [hother j hj]
      exact hk
  refine ⟨hslots, fun j => ?_, by rw [ht]; exact h.pool, fun n m hm hcmd => ?_, fun k y hy => ?_,
    by rw [ht]; exact h.told, ?_, h.order_push hpc ht⟩
  · by_cases hj : j = i
    · subst hj
      exact ⟨_, h.good_push hpc ht⟩
    · obtain ⟨tok, hg⟩ := h.good j
      exact ⟨tok, hg.frame (frame_push ht hj) (h.slots.wf j)⟩
  · rcases mem_reqQ_push ht hm with hm | rfl
    · exact hpast _ _ (h.req n m hm hcmd)
    · change (t.conns i).Past _
      rw [hself]
      exact ⟨le_rfl, nofun⟩
  · rw [ht] at hy
    exact hpast _ _ (h.hand k y hy)
  · rw [ht]
    exact ⟨h.asks.resp, h.asks.disp, h.asks.exp, h.asks.wait⟩

end Push

/-! ### The other steps of a handoff -/

theorem Tokens.pool_update (h : Tokens s) {ch : ℕ} (hheld : (s.conns i).heldChan = some ch)
    (r : Option Completion) (c : ℕ) (hc : s.pool c = true) :
    Function.update s.chans ch r c = none := by
  have hne : c ≠ ch := by
    rintro rfl
    rw [h.slots.out i c hheld] at hc
    cases hc
  rw [Function.update_of_ne hne]
  exact h.pool c hc

/-- Taking an empty channel from the pool or putting it there. -/
theorem Tokens.pool_setPool (h : Tokens s) {ch : ℕ} (hch : s.chans ch = none) (b : Bool) :
    ∀ c, Function.update s.pool ch b c = true → s.chans c = none := by
  intro c hc
  by_cases he : c = ch
  · rw [he]
    exact hch
  · rw [Function.update_of_ne he] at hc
    exact h.pool c hc

theorem Tokens.notify (h : Tokens s) {d : SessionId} (hpc : (s.conns i).pc = .notify d)
    (ht : t = s.setConn i { s.conns i with pc := .wait }) (hslots : Slots t) : Tokens t := by
  subst ht
  have ha : (s.conns i).pc.awaits = true := by rw [hpc]; rfl
  obtain ⟨tok, hg⟩ := h.good i
  have hn : tok.isNone = false := by rw [hg.live, ha]; rfl
  have hself : (s.setConn i { s.conns i with pc := .wait }).conns i =
      { s.conns i with pc := .wait } := setConn_self
  refine h.conn ⟨rfl, rfl, rfl, rfl, rfl, rfl⟩ rfl hslots (fun _ hk => hk.of_ne_push rfl (by simp))
    (fun _ => ⟨ha, rfl⟩) h.pool (others_of_eq rfl rfl rfl)
    ⟨tok, ?_, ?_, hg.ok.congr hn ?_ ?_ rfl rfl rfl⟩
  · have hs : Still s (s.setConn i { s.conns i with pc := .wait }) :=
      ⟨rfl, rfl, rfl, rfl, rfl, rfl⟩
    rw [hs.view hself (by rw [hpc]; rfl) rfl, hself]
    have hv := hg.view
    have hheld : Conn.heldChan { s.conns i with pc := .wait } = (s.conns i).heldChan := by
      simp only [Conn.heldChan, hpc]
    rw [hheld]
    cases tok <;> exact hv
  · rw [hself, hn]
    rfl
  · rw [hself]
  · rw [hself]

/-- `Next` gives up; the request is still in the queue, and no longer counts. -/
theorem Tokens.notifyFail (h : Tokens s) {d : SessionId} (hpc : (s.conns i).pc = .notify d)
    (hlive : Live s (.conn i .fail)) (ht : t = s.setConn i { s.conns i with pc := .opened })
    (hslots : Slots t) : Tokens t := by
  subst ht
  have ha : (s.conns i).pc.awaits = true := by rw [hpc]; rfl
  obtain ⟨tok, hg⟩ := h.good i
  simp only [Live, hpc] at hlive
  obtain ⟨m, hm, hcmd, htag⟩ := hlive
  obtain ⟨rfl, -⟩ := hg.queued ha hm (by simp [Msg.isRequest, hcmd, htag])
  refine h.quiet ⟨rfl, rfl, rfl, rfl, rfl, rfl⟩ rfl hslots (by rw [hg.view]; rfl) rfl
    (fun _ hk => hk.of_ne_push rfl (by simp)) h.pool (others_of_eq rfl rfl rfl) ?_ trivial
  have hv := congrArg View.chan hg.view
  simp only [State.view, Conn.heldChan, hpc] at hv ⊢
  exact hv

/-- The completion is taken out of the channel; it was the token. -/
theorem Tokens.recv (h : Tokens s) {ch : ℕ} {r : Completion} (hpc : (s.conns i).pc = .wait)
    (hch : (s.conns i).done = some ch) (hr : s.chans ch = some r)
    (ht : t = (s.setChan ch none).setConn i
      { s.conns i with pc := if r.ok then .refresh else .opened }) (hslots : Slots t) :
    Tokens t := by
  subst ht
  have ha : (s.conns i).pc.awaits = true := by rw [hpc]; rfl
  obtain ⟨tok, hg⟩ := h.good i
  have hheld : (s.conns i).heldChan = some ch := by rw [Conn.heldChan_of_awaits ha, hch]
  obtain ⟨rfl, htag⟩ := hg.full hheld hr
  have hheld' : Conn.heldChan { s.conns i with pc := if r.ok then .refresh else .opened } =
      some ch := by
    cases r.ok <;> simp only [Conn.heldChan, hch, if_true, Bool.false_eq_true, if_false]
  refine h.quiet ⟨rfl, rfl, rfl, rfl, rfl, rfl⟩ rfl hslots (by rw [hg.view]; rfl)
    (by cases r.ok <;> rfl)
    (fun _ hk => hk.of_ne_push rfl fun d hd => by cases hok : r.ok <;> simp [hok] at hd)
    (h.pool_update hheld none) (h.slots.others_chans hheld rfl rfl rfl) ?_ ?_
  · rw [hheld']
    exact Function.update_self ..
  · cases hok : r.ok with
    | false => trivial
    | true =>
      exact State.Finished.congr (hg.ok hok) (by rw [setConn_self]) rfl

/-! ### Steps at the program points outside of a handoff -/

theorem Tokens.move (h : Tokens s) (hm : Move s i (s.conns i) c) (hslots : Slots (s.setConn i c)) :
    Tokens (s.setConn i c) := by
  have hheld := (hm.wf (h.slots.wf i)).2.2
  obtain ⟨ha, hk, hp | ⟨hpc, hpc'⟩⟩ := hm.plain
  · exact h.plain ⟨rfl, rfl, rfl, rfl, rfl, rfl⟩ rfl hslots ha hp hk rfl rfl (others_of_eq rfl rfl rfl)
      hheld
  · -- `refresh`, after which the handler is still known to have finished
    have hq := (h.view_empty ha).2
    rw [hpc] at hq
    refine h.outside ⟨rfl, rfl, rfl, rfl, rfl, rfl⟩ rfl hslots ha (by rw [hpc']; rfl)
      (fun _ hpast => hpast.of_ne_push hk fun d => by rw [hpc']; nofun) h.pool (others_of_eq rfl rfl rfl)
      (h.chan_none ha hheld) ?_
    rw [hpc']
    exact State.Finished.congr hq (by rw [setConn_self, hk]) rfl

theorem Tokens.pickSlot (h : Tokens s) {u : Use} {slot : ℕ} (hpc : (s.conns i).pc = .allocSlot u)
    (hidle : (s.reg slot).status = .idle)
    (ht : t = (s.setReg slot { s.reg slot with status := .busy }).setConn i
      { s.conns i with pc := .setHeader u slot }) (hslots : Slots t) : Tokens t := by
  subst ht
  have hothers : Others s ((s.setReg slot { s.reg slot with status := .busy }).setConn i
      { s.conns i with pc := .setHeader u slot }) i :=
    ⟨fun _ _ _ _ => rfl, fun _ _ _ _ => rfl, fun j _ sl hsl =>
      Function.update_of_ne (fun he => h.slots.busy j sl hsl (by rw [he]; exact hidle)) _ _⟩
  refine h.plain ⟨rfl, rfl, rfl, rfl, rfl, rfl⟩ rfl hslots (by rw [hpc]; rfl) rfl rfl rfl rfl hothers ?_
  simp only [Conn.heldChan, hpc]

theorem Tokens.setHeader (h : Tokens s) {u : Use} {slot : ℕ}
    (hpc : (s.conns i).pc = .setHeader u slot)
    (ht : t = (s.setReg slot { s.reg slot with header := (s.conns i).headerId }).setConn i
      { s.conns i with pc := .setOwner u slot }) (hslots : Slots t) : Tokens t := by
  subst ht
  have hheld : (s.conns i).heldSlot = some slot := by simp only [Conn.heldSlot, hpc]
  refine h.plain ⟨rfl, rfl, rfl, rfl, rfl, rfl⟩ rfl hslots (by rw [hpc]; rfl) rfl rfl rfl rfl
    (h.slots.others_reg hheld rfl rfl rfl) ?_
  simp only [Conn.heldChan, hpc]

theorem Tokens.setOwner (h : Tokens s) {u : Use} {slot : ℕ} (hpc : (s.conns i).pc = .setOwner u slot)
    (ht : t = (s.setReg slot { s.reg slot with owner := u.owner }).setConn i
      { s.conns i with pc := .setStatus u slot }) (hslots : Slots t) : Tokens t := by
  subst ht
  have ha : (s.conns i).pc.awaits = false := by rw [hpc]; rfl
  have hheld : (s.conns i).heldSlot = some slot := by simp only [Conn.heldSlot, hpc]
  refine h.outside ⟨rfl, rfl, rfl, rfl, rfl, rfl⟩ rfl hslots ha rfl (fun _ hk => hk.of_ne_push rfl (by simp))
    h.pool (h.slots.others_reg hheld rfl rfl rfl)
    (h.chan_none ha (by simp only [Conn.heldChan, hpc])) ?_
  cases u with
  | request | next d => trivial
  | handoff d =>
    have hwf := h.slots.wf i
    simp only [Conn.WF, hpc] at hwf
    change (Function.update s.reg slot _ (Function.update s.conns i _ i).slotID).owner = d.1
    rw [Function.update_self, hwf.1, Function.update_self]
    rfl

theorem Tokens.setStatus (h : Tokens s) {u : Use} {slot : ℕ}
    (hpc : (s.conns i).pc = .setStatus u slot)
    (ht : t = (s.setReg slot { s.reg slot with status := u.status }).setConn i
      { s.conns i with pc := u.after slot }) (hslots : Slots t) : Tokens t := by
  subst ht
  have hwf := h.slots.wf i
  have ha : (s.conns i).pc.awaits = false := by rw [hpc]; rfl
  have hheld : (s.conns i).heldSlot = some slot := by simp only [Conn.heldSlot, hpc]
  have hq := (h.view_empty ha).2
  rw [hpc] at hq
  refine h.outside ⟨rfl, rfl, rfl, rfl, rfl, rfl⟩ rfl hslots ha (by cases u <;> rfl)
    (fun _ hk => hk.of_ne_push rfl fun d => by cases u <;> simp [Use.after]) h.pool
    (h.slots.others_reg hheld rfl rfl rfl) (h.chan_none ha ?_) ?_
  · rw [(Conn.wf_after hpc hwf).2.2]
    simp only [Conn.heldChan, hpc]
  · cases u with
    | request | next d => trivial
    | handoff d =>
      simp only [Conn.WF, hpc] at hwf
      change (Function.update s.reg slot _ (Function.update s.conns i _ i).slotID).status = _ ∧
        (Function.update s.reg slot _ (Function.update s.conns i _ i).slotID).owner = _
      rw [Function.update_self, hwf.1, Function.update_self]
      exact ⟨rfl, hq⟩

theorem Tokens.getDone (h : Tokens s) {u : Use} {slot ch : ℕ}
    (hpc : (s.conns i).pc = .getDone u slot) (hch : s.pool ch = true)
    (ht : t = { s with pool := Function.update s.pool ch false }.setConn i
      { s.conns i with slotID := slot, done := some ch, pc := u.ready }) (hslots : Slots t) :
    Tokens t := by
  subst ht
  have hheld : Conn.heldChan { s.conns i with slotID := slot, done := some ch, pc := u.ready } =
      some ch := by cases u <;> rfl
  refine h.outside ⟨rfl, rfl, rfl, rfl, rfl, rfl⟩ rfl hslots (by rw [hpc]; rfl) (by cases u <;> rfl)
    (fun _ hk => hk.of_ne_push rfl fun d => by cases u <;> simp [Use.ready])
    (h.pool_setPool (h.pool ch hch) false) (others_of_eq rfl rfl rfl) ?_ (by cases u <;> trivial)
  rw [hheld]
  exact h.pool ch hch

theorem Tokens.clear (h : Tokens s) {d : SessionId} {ch : ℕ} (hpc : (s.conns i).pc = .clear d)
    (hch : (s.conns i).done = some ch)
    (ht : t = (s.setChan ch none).setConn i { s.conns i with pc := .store d }) (hslots : Slots t) :
    Tokens t := by
  subst ht
  have ha : (s.conns i).pc.awaits = false := by rw [hpc]; rfl
  have hq := (h.view_empty ha).2
  rw [hpc] at hq
  have hheld : (s.conns i).heldChan = some ch := by simp only [Conn.heldChan, hpc, hch]
  refine h.outside ⟨rfl, rfl, rfl, rfl, rfl, rfl⟩ rfl hslots ha rfl (fun _ hk => hk.of_ne_push rfl (by simp))
    (h.pool_update hheld none) (h.slots.others_chans hheld rfl rfl rfl) ?_ ?_
  · simp only [Conn.heldChan, hch]
    exact Function.update_self ..
  · exact State.Handed.congr hq (by rw [setConn_self]) rfl

/-- From here on the slot has its waiter, and the handoff a number. -/
theorem Tokens.store (h : Tokens s) {d : SessionId} (hpc : (s.conns i).pc = .store d)
    (ht : t = { s with waiters := Function.update s.waiters (s.conns i).slotID (some i) }.setConn i
      { s.conns i with handoffs := (s.conns i).handoffs + 1, pc := .push d }) (hslots : Slots t) :
    Tokens t := by
  subst ht
  have hwf := h.slots.wf i
  simp only [Conn.WF, hpc] at hwf
  have ha : (s.conns i).pc.awaits = false := by rw [hpc]; rfl
  have hq := (h.view_empty ha).2
  rw [hpc] at hq
  have hslot : (s.conns i).heldSlot = some (s.conns i).slotID := by
    simp only [Conn.heldSlot, hpc]
    exact if_neg hwf.1
  refine h.outside ⟨rfl, rfl, rfl, rfl, rfl, rfl⟩ rfl hslots ha rfl
    (fun k hk => ⟨Nat.le_succ_of_le hk.1, fun _ _ => Nat.lt_succ_of_le hk.1⟩) h.pool
    (h.slots.others_waiters hslot rfl rfl rfl) (h.chan_none ha (by simp only [Conn.heldChan, hpc]))
    ⟨State.Handed.congr hq (by rw [setConn_self]) rfl, ?_⟩
  change Function.update s.waiters _ _ (Function.update s.conns i _ i).slotID = some i
  rw [Function.update_self, Function.update_self]

theorem Tokens.dropWaiter (h : Tokens s) (hpc : (s.conns i).pc = .dropWaiter)
    (ht : t = { s with waiters := Function.update s.waiters (s.conns i).slotID none }.setConn i
      { s.conns i with pc := .putDone }) (hslots : Slots t) : Tokens t := by
  subst ht
  have hwf := h.slots.wf i
  simp only [Conn.WF, hpc] at hwf
  have ha : (s.conns i).pc.awaits = false := by rw [hpc]; rfl
  have hslot : (s.conns i).heldSlot = some (s.conns i).slotID := by
    simp only [Conn.heldSlot, hpc]
    exact if_neg hwf.1
  exact h.outside ⟨rfl, rfl, rfl, rfl, rfl, rfl⟩ rfl hslots ha rfl (fun _ hk => hk.of_ne_push rfl (by simp))
    h.pool (h.slots.others_waiters hslot rfl rfl rfl)
    (h.chan_none ha (by simp only [Conn.heldChan, hpc])) trivial

theorem Tokens.putDone (h : Tokens s) {ch : ℕ} (hpc : (s.conns i).pc = .putDone)
    (hch : (s.conns i).done = some ch)
    (ht : t = { s with pool := Function.update s.pool ch true }.setConn i
      { s.conns i with pc := .freeSlot }) (hslots : Slots t) : Tokens t := by
  subst ht
  have ha : (s.conns i).pc.awaits = false := by rw [hpc]; rfl
  have hheld : (s.conns i).heldChan = some ch := by simp only [Conn.heldChan, hpc, hch]
  have hnone : s.chans ch = none := by
    have := h.chan_none ha rfl
    rwa [hheld] at this
  exact h.outside ⟨rfl, rfl, rfl, rfl, rfl, rfl⟩ rfl hslots ha rfl (fun _ hk => hk.of_ne_push rfl (by simp))
    (h.pool_setPool hnone true) (others_of_eq rfl rfl rfl) rfl trivial

theorem Tokens.freeSlot (h : Tokens s) (hpc : (s.conns i).pc = .freeSlot)
    (ht : t = (s.setReg (s.conns i).slotID
      { s.reg (s.conns i).slotID with status := .idle }).setConn i
      { s.conns i with pc := .dropDone }) (hslots : Slots t) : Tokens t := by
  subst ht
  have hwf := h.slots.wf i
  simp only [Conn.WF, hpc] at hwf
  have hslot : (s.conns i).heldSlot = some (s.conns i).slotID := by
    simp only [Conn.heldSlot, hpc]
    exact if_neg hwf.1
  refine h.plain ⟨rfl, rfl, rfl, rfl, rfl, rfl⟩ rfl hslots (by rw [hpc]; rfl) rfl rfl rfl rfl
    (h.slots.others_reg hslot rfl rfl rfl) ?_
  simp only [Conn.heldChan, hpc]

theorem Tokens.connStep (h : Tokens s) {a : ConnAct} (hlive : Live s (.conn i a))
    (hs : ConnStep s i (s.conns i) a t) : Tokens t := by
  have hslots := h.slots.connStep hs
  cases hs with
  | move hm => exact h.move hm hslots
  | poke hpc hb => exact h.same hslots ⟨rfl, rfl, rfl, rfl, rfl, rfl⟩ rfl rfl rfl rfl rfl
  | allocTake hpc | undo hpc | growTake hpc | copyLen hpc | free hpc =>
    refine h.plain ⟨rfl, rfl, rfl, rfl, rfl, rfl⟩ rfl hslots (by rw [hpc]; rfl) rfl rfl rfl rfl
      (others_of_eq rfl rfl rfl) ?_
    simp only [Conn.heldChan, hpc]
  | @allocEnd n needSlot held c' hpc hn hc =>
    subst hc
    refine h.plain ⟨rfl, rfl, rfl, rfl, rfl, rfl⟩ rfl hslots (by rw [hpc]; rfl) ?_ rfl rfl rfl
      (others_of_eq rfl rfl rfl) ?_
    · cases needSlot <;> rfl
    · cases needSlot <;> simp only [Conn.heldChan, hpc, if_true, Bool.false_eq_true, if_false]
  | growEnd hpc hc =>
    subst hc
    refine h.plain ⟨rfl, rfl, rfl, rfl, rfl, rfl⟩ rfl hslots (by rw [hpc]; rfl) rfl rfl rfl rfl
      (others_of_eq rfl rfl rfl) ?_
    simp only [Conn.heldChan, hpc]
  | pickSlot hpc hpos hidle => exact h.pickSlot hpc hidle rfl hslots
  | setHeader hpc => exact h.setHeader hpc rfl hslots
  | setOwner hpc => exact h.setOwner hpc rfl hslots
  | setStatus hpc => exact h.setStatus hpc rfl hslots
  | getDone hpc hch => exact h.getDone hpc hch rfl hslots
  | clear hpc hch => exact h.clear hpc hch rfl hslots
  | store hpc => exact h.store hpc rfl hslots
  | push hpc => exact h.push hpc rfl hslots
  | notify hpc => exact h.notify hpc rfl hslots
  | notifyFail hpc hd => exact h.notifyFail hpc hlive rfl hslots
  | recv hpc hch hr => exact h.recv hpc hch hr rfl hslots
  | dropWaiter hpc => exact h.dropWaiter hpc rfl hslots
  | putDone hpc hch => exact h.putDone hpc hch rfl hslots
  | freeSlot hpc => exact h.freeSlot hpc rfl hslots

end Mmfg.Hub
