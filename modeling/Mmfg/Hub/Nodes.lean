import Mmfg.Hub.Dispatch

/-!
# Tokens under the steps of the nodes

A node's event loop takes a message from its queue and starts a handler or wakes one that waits for
an expansion; a handler passes its token on with its response.
-/

namespace Mmfg.Hub

open Shm

variable {s t : State} {i : ℕ} {tok : Tok}

/-! ## Nodes -/

/-- A handler changes without moving its token: it stays on its slot and session, and it neither goes
back from its last two program points nor gets to them. -/
structure Keeps (y y' : Handler) : Prop where
  slot : y'.slot = y.slot
  session : y'.session = y.session
  active : y'.active = y.active
  finished : y.pc = .finished → y'.pc = .finished
  respond : y.pc = .respond → y'.pc = .respond

theorem Keeps.refl (y : Handler) : Keeps y y := ⟨rfl, rfl, rfl, id, id⟩

section SetHandler

variable {k : Handoff} {y y' : Handler} (hy : s.handlers k = some y)
  (ht : t.handlers = Function.update s.handlers k (some y')) (hkeeps : Keeps y y')
include hy ht hkeeps

theorem exists_keeps {k' : Handoff} {z : Handler} (hz : s.handlers k' = some z) :
    ∃ z', t.handlers k' = some z' ∧ Keeps z z' := by
  by_cases hk : k' = k
  · subst hk
    obtain rfl := Option.some.inj (hy.symm.trans hz)
    exact ⟨y', by rw [ht, Function.update_self], hkeeps⟩
  · exact ⟨z, by rw [ht, Function.update_of_ne hk]; exact hz, .refl z⟩

theorem any_active_keeps (k' : Handoff) :
    (t.handlers k').any Handler.active = (s.handlers k').any Handler.active := by
  by_cases hk : k' = k
  · subst hk
    rw [ht, Function.update_self, hy, Option.any_some, Option.any_some, hkeeps.active]
  · rw [ht, Function.update_of_ne hk]

theorem State.Finished.keeps (h : s.Finished i) (hc : t.conns i = s.conns i) : t.Finished i := by
  obtain ⟨z, hz, hpc⟩ := h
  obtain ⟨z', hz', hk⟩ := exists_keeps hy ht hkeeps hz
  exact ⟨z', by rw [hc]; exact hz', hk.finished hpc⟩

theorem Tok.Ok.keeps (h : tok.Ok s i) (hc : t.conns i = s.conns i) (hwait : t.waiters = s.waiters)
    (hreg : t.reg = s.reg) : tok.Ok t i := by
  have hslot : (t.conns i).slotID = (s.conns i).slotID := by rw [hc]
  have hW : s.Waited i → t.Waited i := fun h => h.congr hslot (by rw [hwait])
  have hH : ∀ {n}, s.Handed i n → t.Handed i n := fun h => h.congr hslot (by rw [hreg])
  have hF : s.Finished i → t.Finished i := fun h => h.keeps hy ht hkeeps hc
  cases tok with
  | none =>
    change t.QuietAt i (t.conns i).pc
    change s.QuietAt i (s.conns i).pc at h
    rw [hc]
    cases hpc : (s.conns i).pc with
    | setStatus u slot =>
      cases u with
      | handoff d =>
        rw [hpc] at h
        change (t.reg (t.conns i).slotID).owner = d.1
        rw [hc, hreg]
        exact h
      | _ => trivial
    | clear d | store d =>
      rw [hpc] at h
      exact hH h
    | push d =>
      rw [hpc] at h
      exact ⟨hH h.1, hW h.2⟩
    | refresh | returned =>
      rw [hpc] at h
      exact hF h
    | _ => trivial
  | queued n =>
    refine ⟨hW h.1, hH h.2.1, ?_⟩
    rw [hc, ht, Function.update_of_ne]
    · exact h.2.2
    · intro he
      have hnone := h.2.2
      rw [he, hy] at hnone
      cases hnone
  | handling =>
    obtain ⟨hw, z, hz, hs, hr⟩ := h
    obtain ⟨z', hz', hk⟩ := exists_keeps hy ht hkeeps hz
    refine ⟨hW hw, z', by rw [hc]; exact hz', by rw [hslot, hk.slot, hs], fun hp => ?_⟩
    rw [hk.session]
    exact hH (hr fun hzr => hp (hk.respond hzr))
  | responding | swapping => exact ⟨hW h.1, hF h.2⟩
  | sending => exact hF h
  | failing e x => exact ⟨hW h.1, by rw [hslot]; exact h.2.1, by rw [hc]; exact h.2.2.1, h.2.2.2⟩
  | full ok => exact fun ho => hF (h ho)

end SetHandler

theorem filter_pop {n : ℕ} {m : Msg} {q : List Msg} (hq : s.reqQ n = m :: q)
    (ht : t.reqQ = Function.update s.reqQ n q) {k : Handoff} (hm : m.isRequest k = false) (n' : ℕ) :
    (t.reqQ n').filter (Msg.isRequest k) = (s.reqQ n').filter (Msg.isRequest k) := by
  rw [ht]
  by_cases hn : n' = n
  · subst hn
    rw [Function.update_self, hq, List.filter_cons_of_neg (by rw [hm]; exact Bool.false_ne_true)]
  · rw [Function.update_of_ne hn]

theorem sublist_pop {n : ℕ} {m : Msg} {q : List Msg} (hq : s.reqQ n = m :: q)
    (ht : t.reqQ = Function.update s.reqQ n q) (n' : ℕ) : (t.reqQ n').Sublist (s.reqQ n') := by
  rw [ht]
  by_cases hn : n' = n
  · subst hn
    rw [Function.update_self, hq]
    exact List.sublist_cons_self m q
  · rw [Function.update_of_ne hn]

section Process

variable {d : SessionId} {m : Msg} {q : List Msg} {y : Handler} (hq : s.reqQ d.1 = m :: q)
  (hreqQ : t.reqQ = Function.update s.reqQ d.1 q)
  (hh : t.handlers = Function.update s.handlers m.tag (some y))
include hq hreqQ hh

/-- The view of the connection once its request is taken and the handler runs. -/
theorem view_process
    (hv : s.view m.tag.1 = Tok.view m.tag.1 (s.conns m.tag.1) (.queued d.1))
    (ha : (s.conns m.tag.1).pc.awaits = true) (hk : (s.conns m.tag.1).handoffs = m.tag.2)
    (hreq : m.isRequest (m.tag.1, (s.conns m.tag.1).handoffs) = true) (hact : y.active = true)
    (hc : t.conns = s.conns) (hresp : t.respQ = s.respQ) (hdisp : t.disp = s.disp)
    (hexps : t.exps = s.exps) (hchans : t.chans = s.chans) :
    t.view m.tag.1 = Tok.view m.tag.1 (t.conns m.tag.1) .handling := by
  have htag : m.tag = (m.tag.1, (s.conns m.tag.1).handoffs) := Prod.ext rfl hk.symm
  refine View.ext (funext fun n => ?_) (funext fun k => ?_) ?_ ?_ ?_ ?_
  · have := congrFun (congrArg View.reqs hv) n
    simp only [State.view, hc, ha, if_true, Tok.view, hreqQ] at this ⊢
    by_cases hn : n = d.1
    · subst hn
      rw [Function.update_self, hq, List.filter_cons_of_pos hreq, List.cons.injEq] at this
      rw [Function.update_self]
      exact this.2
    · rw [Function.update_of_ne hn] at this ⊢
      exact this
  · have := congrFun (congrArg View.active hv) k
    simp only [State.view, hc, Tok.view, hh] at this ⊢
    by_cases hkk : k = (s.conns m.tag.1).handoffs
    · rw [hkk, ← htag, Function.update_self, Function.update_self, Option.any_some, hact]
    · rw [Function.update_of_ne hkk, Function.update_of_ne]
      · exact this
      · exact fun he => hkk (by rw [hk, ← he])
  · have := congrArg View.resps hv
    simp only [State.view, hresp] at this ⊢
    exact this
  · have := congrArg View.disp hv
    simp only [State.view, hdisp] at this ⊢
    exact this
  · have := congrArg View.exps hv
    simp only [State.view, hexps] at this ⊢
    exact this
  · have := congrArg View.chan hv
    simp only [State.view, hc, hchans] at this ⊢
    exact this

/-- Refusals behind the request go to other slots. -/
theorem Order.process (h : Order s) (hlive : s.LiveReq m) (hc : t.conns = s.conns)
    (hys : y.slot = m.slot) (hsess : y.session = d) : Order t := by
  refine ⟨fun n => ?_, fun k z hz hza m' hm' hcmd => ?_⟩
  · refine ((h.req n).sublist (sublist_pop hq hreqQ n)).imp fun {a b} hr hl => hr ?_
    unfold State.LiveReq at hl
    rw [hc] at hl
    exact hl
  · rw [hh] at hz
    by_cases hkm : k = m.tag
    · rw [hkm, Function.update_self] at hz
      obtain rfl := Option.some.inj hz
      have hpw := h.req d.1
      rw [hq, List.pairwise_cons] at hpw
      rw [hreqQ, hsess, Function.update_self] at hm'
      rw [hys]
      exact hpw.1 m' hm' hlive hcmd
    · rw [Function.update_of_ne hkm] at hz
      exact h.hand k z hz hza m' ((sublist_pop hq hreqQ _).subset hm') hcmd

end Process

/-- A node starts a handler: the token goes from the queue to the handler. -/
theorem Tokens.popProcess (h : Tokens s) {d : SessionId} {m : Msg} {q : List Msg} {y : Handler}
    (hq : s.reqQ d.1 = m :: q) (hm : m.cmd = .process)
    (hlive : (s.conns m.tag.1).pc.awaits = true ∧ (s.conns m.tag.1).handoffs = m.tag.2)
    (ht : t = { s with reqQ := Function.update s.reqQ d.1 q }.setHandler m.tag y)
    (hys : y.slot = m.slot) (hsess : y.session = d) (hact : y.active = true) (htold : y.Told)
    (hslots : Slots t) : Tokens t := by
  have hh : t.handlers = Function.update s.handlers m.tag (some y) := by rw [ht]; rfl
  subst ht
  obtain ⟨ha, hk⟩ := hlive
  obtain ⟨tok, hg⟩ := h.good m.tag.1
  have htag : m.tag = (m.tag.1, (s.conns m.tag.1).handoffs) := Prod.ext rfl hk.symm
  have hreq : m.isRequest (m.tag.1, (s.conns m.tag.1).handoffs) = true := by
    simp [Msg.isRequest, hm, hk]
  have hmem : m ∈ s.reqQ d.1 := by
    rw [hq]
    exact List.mem_cons_self
  obtain ⟨rfl, hmsg⟩ := hg.queued ha hmem hreq
  obtain ⟨hwait, hhand, hnone⟩ := hg.ok
  rw [← htag] at hnone
  have hplaces : Places s ({ s with reqQ := Function.update s.reqQ d.1 q }.setHandler m.tag y) := by
    intro k z hz
    have hne : k ≠ m.tag := by
      rintro rfl
      rw [hnone] at hz
      cases hz
    exact ⟨z, (Function.update_of_ne hne ..).trans hz, rfl, rfl⟩
  refine h.hubStep (i := m.tag.1) hslots rfl h.pool
    (fun n m' hm' _ => (sublist_pop hq rfl n).subset hm')
    (known_update hh (.inr (h.req d.1 m hmem hm))) (h.told_update hh htold)
    (h.asks.mono hplaces (fun _ hm _ => .inl hm) (fun _ _ hd => .inl hd)
      (fun e x hx => .inl ⟨x, hx, rfl, rfl⟩) fun _ _ _ hk => .inl hk)
    (h.order.process hq rfl hh ⟨hm, ha, hk⟩ rfl hys hsess)
    ⟨.handling, view_process hq rfl hh hg.view ha hk hreq hact rfl rfl rfl rfl rfl, ?_, hwait, y, ?_,
      hys.trans (congrArg Msg.slot hmsg), fun _ => hsess ▸ hhand⟩ fun j hj => ?_
  · change _ = !(s.conns m.tag.1).pc.awaits
    rw [ha]
    rfl
  · change Function.update s.handlers m.tag _ (m.tag.1, (s.conns m.tag.1).handoffs) = _
    rw [← htag, Function.update_self]
  · refine frame_of rfl (fun n k => filter_pop hq rfl ?_ n) (handlers_of_ne hh hj) rfl rfl
      (fun _ => rfl) (fun _ _ => rfl) (fun _ _ => rfl) (fun _ _ => rfl)
    simp only [Msg.isRequest, decide_eq_false_iff_not, not_and]
    exact fun _ he => hj (by rw [he])

/-- All but the handlers and the queues is as before. -/
structure Calm (s t : State) : Prop where
  conns : t.conns = s.conns
  disp : t.disp = s.disp
  exps : t.exps = s.exps
  chans : t.chans = s.chans
  waiters : t.waiters = s.waiters
  reg : t.reg = s.reg
  pool : t.pool = s.pool

theorem Tokens.setHandler (h : Tokens s) {k : Handoff} {y y' : Handler} (hslots : Slots t)
    (hy : s.handlers k = some y) (ht : t.handlers = Function.update s.handlers k (some y'))
    (hs : Calm s t)
    (hreq : ∀ n k', (t.reqQ n).filter (Msg.isRequest k') = (s.reqQ n).filter (Msg.isRequest k'))
    (hsub : ∀ n, (t.reqQ n).Sublist (s.reqQ n))
    (hresp : ∀ j, t.respQ.filter (Msg.isResponse j) = s.respQ.filter (Msg.isResponse j))
    (hkeeps : Keeps y y') (htold : y'.Told) (hasks : Asks t) : Tokens t := by
  have hview : ∀ j, t.view j = s.view j := fun j =>
    view_congr (by rw [hs.conns]) (fun n k' => hreq n _) (fun k' => any_active_keeps hy ht hkeeps _)
      (hresp j) (by rw [hs.disp]) (fun e => by rw [hs.exps]) fun ch _ => by rw [hs.chans]
  have hactives : Actives s t := actives_update hy ht hkeeps.slot hkeeps.session fun ha => by
    rw [← hkeeps.active]
    exact ha
  obtain ⟨tok, hg⟩ := h.good k.1
  have hgood : Good t k.1 tok :=
    ⟨by rw [hview, hs.conns, hg.view], by rw [hs.conns, hg.live],
      hg.ok.keeps hy ht hkeeps (by rw [hs.conns]) hs.waiters hs.reg⟩
  refine h.hubStep (i := k.1) hslots hs.conns ?_ (mem_of_filter hreq)
    (known_update ht (.inl (by rw [hy]; rfl))) (h.told_update ht htold) hasks
    (h.order.mono hs.conns hsub hactives) ⟨tok, hgood⟩ fun j hj => ?_
  · rw [hs.pool, hs.chans]
    exact h.pool
  · exact ⟨by rw [hs.conns], hview j, fun _ _ => by rw [hs.waiters], fun _ _ => by rw [hs.reg],
      fun k' => by rw [handlers_of_ne ht hj]⟩

theorem Tokens.popStep (h : Tokens s) {d : SessionId} (hok : Live s (.pop d)) (hs : PopStep s d t) :
    Tokens t := by
  have hslots := h.slots.popStep hs
  cases hs with
  | @process m q hq hm =>
    simp only [Live, hq, List.head?_cons, Option.mem_def, Option.some.injEq, forall_eq'] at hok
    exact h.popProcess hq hm (hok hm) rfl rfl rfl rfl
      ⟨fun hf => (by cases hf), fun hf => (by cases hf)⟩ hslots
  | @reply m q k hq hm hw =>
    obtain ⟨y, hy, hys, hsess⟩ := h.asks.wait d m.slot k hw
    have hmem : m ∈ s.reqQ d.1 := by rw [hq]; simp
    have hnp : m.cmd ≠ .process := by rcases hm with hm | hm <;> rw [hm] <;> simp
    have hset : ∀ f : Handler → Handler, Function.update s.handlers k ((s.handlers k).map f) =
        Function.update s.handlers k (some (f y)) := fun f => by rw [hy]; rfl
    refine h.setHandler hslots hy (hset _) ⟨rfl, rfl, rfl, rfl, rfl, rfl, rfl⟩
      (fun n k' => filter_pop hq rfl (by simp [Msg.isRequest, hnp]) n) (sublist_pop hq rfl)
      (fun _ => rfl) ⟨rfl, rfl, rfl, id, id⟩ ⟨(h.told k y hy).1, fun hf => ?_⟩ ?_
    · -- a handler that hears of a refusal is not active: the refusal was its own
      rw [Bool.or_eq_true, decide_eq_true_eq] at hf
      rcases hf with hf | hf
      · exact (h.told k y hy).2 hf
      · by_contra hcon
        have hact : y.active = true := by
          simp only [not_or] at hcon
          simp [Handler.active, hcon.1, hcon.2]
        refine h.order.hand k y hy hact m ?_ hf hys.symm
        rw [hsess]
        exact hmem
    · refine h.asks.mono (places_update hy (hset _) rfl rfl)
        (fun _ hm _ => .inl hm) (fun _ _ hd => .inl hd) (fun e x hx => .inl ⟨x, hx, rfl, rfl⟩)
        fun d' slot k' hk' => .inl ?_
      dsimp only at hk'
      by_cases hd : d' = d
      · subst hd
        rw [Function.update_self] at hk'
        by_cases hsl : slot = m.slot
        · rw [hsl, Function.update_self] at hk'
          cases hk'
        · rw [Function.update_of_ne hsl] at hk'
          exact hk'
      · rw [Function.update_of_ne hd] at hk'
        exact hk'
  | @drop m q hq hm =>
    have hf : ∀ j, Frame s { s with reqQ := Function.update s.reqQ d.1 q } j := fun j =>
      ⟨rfl, view_congr rfl (fun n k => filter_pop hq rfl (by simp [Msg.isRequest, hm]) n)
        (fun _ => rfl) rfl rfl (fun _ => rfl) fun _ _ => rfl, fun _ _ => rfl, fun _ _ => rfl,
        fun _ => rfl⟩
    exact h.hubStep (i := 0) hslots rfl h.pool (fun n m' hm' _ => (sublist_pop hq rfl n).subset hm')
      (fun k y hy => .inl (by rw [show s.handlers k = some y from hy]; rfl)) h.told
      ⟨h.asks.resp, h.asks.disp, h.asks.exp, h.asks.wait⟩
      (h.order.mono rfl (sublist_pop hq rfl) (actives_refl rfl)) (h.good_of_frame hf 0)
      fun j _ => hf j

/-! ## Handlers -/

/-- A handler sets its slot to `Done`; it has the token. -/
theorem Tokens.active_of_setDone (h : Tokens s) {k : Handoff} {y : Handler}
    (hy : s.handlers k = some y) (hpc : y.pc = .setDone ∨ y.pc = .respond) :
    Good s k.1 .handling ∧ k.2 = (s.conns k.1).handoffs ∧ y.active = true := by
  have hnr : y.refused = false := by
    by_contra hr
    rcases (h.told k y hy).1 (by simpa using hr) with hw | hf
    · rcases hpc with hpc | hpc <;> rw [hpc] at hw <;> cases hw
    · rcases hpc with hpc | hpc <;> rw [hpc] at hf <;> cases hf
  have hact : y.active = true := by
    rcases hpc with hpc | hpc <;> simp [Handler.active, hnr, hpc]
  obtain ⟨tok, hg⟩ := h.good k.1
  obtain ⟨rfl, hk⟩ := hg.handling (k := k.2) hy hact
  exact ⟨hg, hk, hact⟩

theorem Tokens.work (h : Tokens s) {k : Handoff} {y y' : Handler} (hy : s.handlers k = some y)
    (hslots : Slots (s.setHandler k y')) (hw : y.pc.working = true) (hslot : y'.slot = y.slot)
    (hsess : y'.session = y.session) (hact : y'.active = y.active) (htold : y'.Told) :
    Tokens (s.setHandler k y') := by
  have hasks : Asks (s.setHandler k y') :=
    h.asks.mono (places_update hy rfl hslot hsess) (fun _ hm _ => .inl hm) (fun _ _ hd => .inl hd)
      (fun e x hx => .inl ⟨x, hx, rfl, rfl⟩) fun _ _ _ hk => .inl hk
  refine h.setHandler hslots hy rfl ⟨rfl, rfl, rfl, rfl, rfl, rfl, rfl⟩ (fun _ _ => rfl)
    (fun _ => List.Sublist.refl _) (fun _ => rfl)
    ⟨hslot, hsess, hact, fun hpc => ?_, fun hpc => ?_⟩ htold hasks
  · rw [hpc] at hw
    cases hw
  · rw [hpc] at hw
    cases hw

/-- A handler that works hears only of refusals of its own. -/
theorem Handler.Told.refused {y : Handler} (h : y.Told) (hw : y.pc.working = true)
    (hf : y.failed = true) : y.refused = true := by
  rcases h.2 hf with hr | hpc
  · exact hr
  · rw [hpc] at hw
    cases hw

theorem Tokens.handRequest (h : Tokens s) {k : Handoff} {y y' : Handler}
    (hy : s.handlers k = some y)
    (ht : t = { s with
      respQ := s.respQ ++ [⟨y.slot, .requestExpand, k⟩]
      handlers := Function.update s.handlers k (some y')
      waiting := Function.update s.waiting y.session
        (Function.update (s.waiting y.session) y.slot (some k)) })
    (hslot : y'.slot = y.slot) (hsess : y'.session = y.session) (hpc : y'.pc = y.pc)
    (href : y'.refused = y.refused) (hfail : y'.failed = y.failed) (hslots : Slots t) :
    Tokens t := by
  subst ht
  have hself : Function.update s.handlers k (some y') k = some y' := Function.update_self ..
  refine h.setHandler hslots hy rfl ⟨rfl, rfl, rfl, rfl, rfl, rfl, rfl⟩ (fun _ _ => rfl)
    (fun _ => List.Sublist.refl _) (fun j => ?_)
    ⟨hslot, hsess, ?_, fun he => hpc.trans he, fun he => hpc.trans he⟩ ?_ ?_
  · rw [List.filter_append]
    simp [Msg.isResponse]
  · rw [Handler.active, Handler.active, href, hpc]
  · have htold := h.told k y hy
    rw [Handler.Told, href, hfail, hpc]
    exact htold
  · refine h.asks.mono (places_update hy rfl hslot hsess) (fun m hm hcmd => ?_)
      (fun _ _ hd => .inl hd) (fun e x hx => .inl ⟨x, hx, rfl, rfl⟩) fun d slot k' hk' => ?_
    · rcases List.mem_append.1 hm with hm | hm
      · exact .inl hm
      · obtain rfl := List.mem_singleton.1 hm
        exact .inr ⟨y', hself, hslot⟩
    · dsimp only at hk'
      by_cases hd : d = y.session
      · subst hd
        rw [Function.update_self] at hk'
        by_cases hsl : slot = y.slot
        · subst hsl
          rw [Function.update_self] at hk'
          obtain rfl := Option.some.inj hk'
          exact .inr ⟨y', hself, hslot, hsess⟩
        · rw [Function.update_of_ne hsl] at hk'
          exact .inl hk'
      · rw [Function.update_of_ne hd] at hk'
        exact .inl hk'

/-- The last steps of a handler, which has the token: it sets the slot to `Done`, it responds. -/
theorem Tokens.handEnd (h : Tokens s) {k : Handoff} {y y' : Handler} {tok : Tok}
    (hy : s.handlers k = some y) (hpc : y.pc = .setDone ∨ y.pc = .respond) (hslots : Slots t)
    (hc : t.conns = s.conns) (hreq : t.reqQ = s.reqQ) (hdisp : t.disp = s.disp)
    (hexps : t.exps = s.exps) (hchans : t.chans = s.chans) (hwaiters : t.waiters = s.waiters)
    (hpool : t.pool = s.pool) (hwaiting : t.waiting = s.waiting)
    (hreg : ∀ slot, slot ≠ y.slot → t.reg slot = s.reg slot)
    (hresp : ∀ m ∈ t.respQ, m.cmd = .requestExpand → m ∈ s.respQ)
    (hfilter : ∀ j, j ≠ k.1 →
      t.respQ.filter (Msg.isResponse j) = s.respQ.filter (Msg.isResponse j))
    (ht : t.handlers = Function.update s.handlers k (some y')) (hslot : y'.slot = y.slot)
    (hsess : y'.session = y.session) (href : y'.refused = false) (hfail : y'.failed = y.failed)
    (hgood : Good t k.1 tok) : Tokens t := by
  obtain ⟨hg, hk, hact⟩ := h.active_of_setDone hy hpc
  have hheld : (s.conns k.1).heldSlot = some y.slot := by
    obtain ⟨-, z, hz, hzs, -⟩ := hg.ok
    rw [← hk] at hz
    obtain rfl := Option.some.inj (hy.symm.trans hz)
    rw [hzs]
    exact Conn.heldSlot_of_awaits (h.slots.wf k.1) (hg.awaits rfl)
  have hasks : Asks t := by
    refine h.asks.mono (places_update hy ht hslot hsess) (fun m hm hcmd => .inl (hresp m hm hcmd))
      (fun _ _ hd => .inl (by rw [← hdisp]; exact hd)) (fun e x hx => .inl ⟨x, ?_, rfl, rfl⟩)
      fun _ _ _ hk => .inl (by rw [← hwaiting]; exact hk)
    rw [← hexps]
    exact hx
  have htold : y'.Told := by
    refine ⟨fun hr => ?_, fun hf => ?_⟩
    · rw [href] at hr
      cases hr
    · -- an active handler has not heard of a refusal
      rw [hfail] at hf
      rcases (h.told k y hy).2 hf with hr | hp
      · rw [Handler.active, hr] at hact
        cases hact
      · rcases hpc with hpc | hpc <;> rw [hpc] at hp <;> cases hp
  refine h.hubStep (i := k.1) hslots hc (by rw [hpool, hchans]; exact h.pool)
    (by rw [hreq]; exact fun _ _ hm _ => hm) (known_update ht (.inl (by rw [hy]; rfl)))
    (h.told_update ht htold) hasks
    (h.order.mono hc (fun n => by rw [hreq]) (actives_update hy ht hslot hsess fun _ => hact))
    ⟨tok, hgood⟩ fun j hj => ?_
  refine frame_of (by rw [hc]) (fun n k' => by rw [hreq]) (handlers_of_ne ht hj) (hfilter j hj)
    (by rw [hdisp]) (fun e => by rw [hexps]) (fun ch _ => by rw [hchans])
    (fun _ _ => by rw [hwaiters]) fun slot hs => hreg slot ?_
  rintro rfl
  exact hj (h.slots.slot_inj j k.1 _ hs hheld)

theorem Good.setDone {k : Handoff} {y : Handler} (hg : Good s k.1 .handling)
    (hy : s.handlers k = some y) (hk : k.2 = (s.conns k.1).handoffs) (hact : y.active = true)
    (hpc : y.pc = .setDone) :
    Good ((s.setReg y.slot { s.reg y.slot with status := .done }).setHandler k
      { y with pc := .respond }) k.1 .handling := by
  have htag : k = (k.1, (s.conns k.1).handoffs) := Prod.ext rfl hk
  obtain ⟨hw, z, hz, hzs, -⟩ := hg.ok
  rw [← htag] at hz
  obtain rfl := Option.some.inj (hy.symm.trans hz)
  refine ⟨?_, hg.live, hw, { y with pc := .respond }, ?_, hzs, fun hr => absurd rfl hr⟩
  · refine Eq.trans (b := s.view k.1) ?_ hg.view
    refine view_congr rfl (fun _ _ => rfl) (fun k' => ?_) rfl rfl (fun _ => rfl) fun _ _ => rfl
    change (Function.update s.handlers k _ (k.1, k')).any _ = _
    by_cases hkk : (k.1, k') = k
    · rw [hkk, Function.update_self, hy, Option.any_some, Option.any_some, hact]
      simpa [Handler.active, hpc] using hact
    · rw [Function.update_of_ne hkk]
  · change Function.update s.handlers k _ (k.1, (s.conns k.1).handoffs) = _
    rw [← htag, Function.update_self]

theorem Good.respond {k : Handoff} {y : Handler} (hg : Good s k.1 .handling)
    (hy : s.handlers k = some y) (hk : k.2 = (s.conns k.1).handoffs) :
    Good ((s.pushResp ⟨y.slot, .process, k⟩).setHandler k { y with pc := .finished }) k.1
      .responding := by
  have htag : k = (k.1, (s.conns k.1).handoffs) := Prod.ext rfl hk
  obtain ⟨hw, z, hz, hzs, -⟩ := hg.ok
  rw [← htag] at hz
  obtain rfl := Option.some.inj (hy.symm.trans hz)
  have hv := hg.view
  have hreqs := congrArg View.reqs hv
  have hdisp := congrArg View.disp hv
  have hexps := congrArg View.exps hv
  have hchan := congrArg View.chan hv
  refine ⟨?_, hg.live, hw, { y with pc := .finished }, ?_, rfl⟩
  · refine View.ext hreqs (funext fun k' => ?_) ?_ hdisp hexps hchan
    · have := congrFun (congrArg View.active hv) k'
      change (Function.update s.handlers k _ (k.1, k')).any _ = false
      by_cases hkk : k' = k.2
      · subst hkk
        rw [Function.update_self]
        simp [Handler.active]
      · rw [Function.update_of_ne (fun he => hkk (congrArg Prod.snd he))]
        simp only [State.view, Tok.view] at this
        rw [this, Function.update_of_ne]
        rw [← hk]
        exact hkk
    · have hnil : s.respQ.filter (Msg.isResponse k.1) = [] := congrArg View.resps hv
      have hmsg : (⟨y.slot, .process, k⟩ : Msg) =
          ⟨(s.conns k.1).slotID, .process, (k.1, (s.conns k.1).handoffs)⟩ := by
        rw [← htag, hzs]
      change (s.respQ ++ [_]).filter _ = [(⟨(s.conns k.1).slotID, .process, _⟩ : Msg)]
      rw [List.filter_append, hnil]
      refine Eq.trans ?_ (congrArg (fun m => [m]) hmsg)
      simp [Msg.isResponse]
  · change Function.update s.handlers k _ (k.1, (s.conns k.1).handoffs) = _
    rw [← htag, Function.update_self]

theorem Tokens.handStep (h : Tokens s) {k : Handoff} {y : Handler} {a : HandAct}
    (hy : s.handlers k = some y) (hok : RefusedStops s (.hand k a)) (hs : HandStep s k y a t) :
    Tokens t := by
  have hslots := h.slots.handStep hs
  have htold := h.told k y hy
  have hok' : y.refused = true → _ := hok y hy
  cases hs with
  | poke hpc hb => exact h.same hslots ⟨rfl, rfl, rfl, rfl, rfl, rfl⟩ rfl rfl rfl rfl rfl
  | setLen hpc => exact h.same hslots ⟨rfl, rfl, rfl, rfl, rfl, rfl⟩ rfl rfl rfl rfl rfl
  | locate hpc =>
    have hw : y.pc.working = true := by rw [hpc]; rfl
    exact h.work hy hslots hw rfl rfl (by simp [Handler.active, hpc])
      ⟨fun _ => .inl rfl, fun hf => .inl (htold.refused hw hf)⟩
  | decode hpc hseq =>
    have hw : y.pc.working = true := by rw [hpc]; rfl
    exact h.work hy hslots hw rfl rfl (by simp [Handler.active, hpc])
      ⟨fun _ => .inl rfl, fun hf => .inl (htold.refused hw hf)⟩
  | request hpc => exact h.handRequest hy rfl rfl rfl rfl rfl rfl hslots
  | reload hpc =>
    have hw : y.pc.working = true := by rw [hpc]; rfl
    exact h.work hy hslots hw rfl rfl (by simp [Handler.active, hpc])
      ⟨fun _ => .inl rfl, fun hf => .inl (htold.refused hw hf)⟩
  | quit hpc hl hf =>
    -- a Go handler that was told of a refusal had none left to send
    have hw : y.pc.working = true := by rw [hpc]; rfl
    have hr := htold.refused hw hf
    exact h.work hy hslots hw rfl rfl (by simp [Handler.active, hr]) ⟨fun _ => .inr rfl, fun _ => .inr rfl⟩
  | finish hpc hl =>
    have hw : y.pc.working = true := by rw [hpc]; rfl
    exact h.work hy hslots hw rfl rfl (by simp [Handler.active, hpc])
      ⟨fun hr => absurd (hok' hr) hl, fun hf => .inl (htold.refused hw hf)⟩
  | panic hpc =>
    have hw : y.pc.working = true := by rw [hpc]; rfl
    exact h.work hy hslots hw rfl rfl (by simp [Handler.active, hpc])
      ⟨fun hr => (hok' hr).elim, fun hf => .inl (htold.refused hw hf)⟩
  | setDone hpc =>
    obtain ⟨hg, hk, hact⟩ := h.active_of_setDone hy (.inl hpc)
    have hnr : y.refused = false := by
      simp only [Handler.active, Bool.and_eq_true, Bool.not_eq_true'] at hact
      exact hact.1
    refine h.handEnd (y := y) hy (.inl hpc) hslots rfl rfl rfl rfl rfl rfl rfl rfl
      (fun slot hne => Function.update_of_ne hne ..) (fun _ hm _ => hm) (fun _ _ => rfl) rfl rfl rfl
      hnr rfl (hg.setDone hy hk hact hpc)
  | respond hpc =>
    obtain ⟨hg, hk, hact⟩ := h.active_of_setDone hy (.inr hpc)
    have hnr : y.refused = false := by
      simp only [Handler.active, Bool.and_eq_true, Bool.not_eq_true'] at hact
      exact hact.1
    refine h.handEnd (y := y) hy (.inr hpc) hslots rfl rfl rfl rfl rfl rfl rfl rfl
      (fun _ _ => rfl) (fun m hm hcmd => ?_) (fun j hj => ?_) rfl rfl rfl hnr rfl
      (hg.respond hy hk)
    · rcases List.mem_append.1 hm with hm | hm
      · exact hm
      · obtain rfl := List.mem_singleton.1 hm
        cases hcmd
    · change (s.respQ ++ [_]).filter _ = _
      rw [List.filter_append]
      simp [Msg.isResponse, Ne.symm hj]

/-! ## All steps -/

/-- The table of sessions is of no importance to tokens. -/
theorem Tokens.sessions (h : Tokens s) (hslots : Slots t)
    (ht : t = { s with sessions := t.sessions, names := t.names, ids := t.ids }) : Tokens t := by
  refine h.same hslots ⟨?_, ?_, ?_, ?_, ?_, ?_⟩ ?_ ?_ ?_ ?_ ?_ <;> rw [ht]

theorem tokens_step {a : Action} (h : Tokens s) (hmatch : NoMatch s a) (hlive : Live s a)
    (href : RefusedStops s a) (hs : hub.step s a = some t) : Tokens t := by
  cases a with
  | dial d name lang => exact h.sessions (h.slots.stepDial hs) (stepDial_eq hs)
  | watch d => exact h.sessions (h.slots.stepWatch hmatch hs) (h.slots.stepWatch_eq hmatch hs)
  | conn i a => exact h.connStep hlive (connStep_of_step hs)
  | disp e => exact h.dispStep (dispStep_of_step hs)
  | exp e a =>
    obtain ⟨x, hx, hst⟩ := expStep_of_step hs
    exact h.expStep hx href hst
  | pop d => exact h.popStep hlive (popStep_of_step hs)
  | hand k a =>
    obtain ⟨y, hy, hst⟩ := handStep_of_step hs
    exact h.handStep hy href hst

end Mmfg.Hub
