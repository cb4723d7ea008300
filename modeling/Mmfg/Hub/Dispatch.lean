import Mmfg.Hub.Handoff

/-!
# Tokens under the steps of the hub

The dispatch loop and the goroutines that handle expansions pass tokens on; each of their steps
concerns one connection.
-/

namespace Mmfg.Hub

open Shm

variable {s t : State} {i : ℕ} {tok : Tok}

/-! ## Requests for expansions, and the order of replies -/

/-- Handlers stay on their slot and session. -/
def Places (s t : State) : Prop := ∀ k y, s.handlers k = some y →
  ∃ y', t.handlers k = some y' ∧ y'.slot = y.slot ∧ y'.session = y.session

theorem places_refl (h : t.handlers = s.handlers) : Places s t := fun k y hy =>
  ⟨y, by rw [h]; exact hy, rfl, rfl⟩

theorem places_update {k : Handoff} {y y' : Handler} (hy : s.handlers k = some y)
    (ht : t.handlers = Function.update s.handlers k (some y')) (hslot : y'.slot = y.slot)
    (hsess : y'.session = y.session) : Places s t := by
  intro k' z hz
  by_cases hk : k' = k
  · subst hk
    obtain rfl : y = z := Option.some.inj (hy.symm.trans hz)
    exact ⟨y', by rw [ht, Function.update_self], hslot, hsess⟩
  · exact ⟨z, by rw [ht, Function.update_of_ne hk]; exact hz, rfl, rfl⟩

theorem State.HandlerOn.mono {k : Handoff} {slot : ℕ} (h : s.HandlerOn k slot) (hp : Places s t) :
    t.HandlerOn k slot := by
  obtain ⟨y, hy, rfl⟩ := h
  obtain ⟨y', hy', hslot, -⟩ := hp k y hy
  exact ⟨y', hy', hslot⟩

theorem Asks.mono (h : Asks s) (hp : Places s t)
    (hresp : ∀ m ∈ t.respQ, m.cmd = .requestExpand → m ∈ s.respQ ∨ t.HandlerOn m.tag m.slot)
    (hdisp : ∀ slot tag, t.disp = .owner slot tag →
      s.disp = .owner slot tag ∨ t.HandlerOn tag slot)
    (hexp : ∀ e x, t.exps e = some x →
      (∃ x', s.exps e = some x' ∧ x'.tag = x.tag ∧ x'.slot = x.slot) ∨ t.HandlerOn x.tag x.slot)
    (hwait : ∀ d slot k, t.waiting d slot = some k → s.waiting d slot = some k ∨
      ∃ y, t.handlers k = some y ∧ y.slot = slot ∧ y.session = d) : Asks t := by
  refine ⟨fun m hm hcmd => ?_, fun slot tag hd => ?_, fun e x hx => ?_, fun d slot k hk => ?_⟩
  · rcases hresp m hm hcmd with hm | hm
    · exact (h.resp m hm hcmd).mono hp
    · exact hm
  · rcases hdisp slot tag hd with hd | hd
    · exact (h.disp slot tag hd).mono hp
    · exact hd
  · rcases hexp e x hx with ⟨x', hx', htag, hslot⟩ | hx
    · rw [← htag, ← hslot]
      exact (h.exp e x' hx').mono hp
    · exact hx
  · rcases hwait d slot k hk with hk | hk
    · obtain ⟨y, hy, hslot, hsess⟩ := h.wait d slot k hk
      obtain ⟨y', hy', hslot', hsess'⟩ := hp k y hy
      exact ⟨y', hy', hslot'.trans hslot, hsess'.trans hsess⟩
    · exact hk

/-- Active handlers of the new state were active before. -/
def Actives (s t : State) : Prop := ∀ k y', t.handlers k = some y' → y'.active = true →
  ∃ y, s.handlers k = some y ∧ y.active = true ∧ y.slot = y'.slot ∧ y.session = y'.session

theorem actives_refl (h : t.handlers = s.handlers) : Actives s t := fun k y hy ha =>
  ⟨y, by rw [← h]; exact hy, ha, rfl, rfl⟩

theorem actives_update {k : Handoff} {y y' : Handler} (hy : s.handlers k = some y)
    (ht : t.handlers = Function.update s.handlers k (some y')) (hslot : y'.slot = y.slot)
    (hsess : y'.session = y.session) (hact : y'.active = true → y.active = true) :
    Actives s t := by
  intro k' z hz ha
  rw [ht] at hz
  by_cases hk : k' = k
  · subst hk
    rw [Function.update_self] at hz
    obtain rfl := Option.some.inj hz
    exact ⟨y, hy, hact ha, hslot.symm, hsess.symm⟩
  · rw [Function.update_of_ne hk] at hz
    exact ⟨z, hz, ha, rfl, rfl⟩

theorem Order.mono (h : Order s) (hc : t.conns = s.conns)
    (hq : ∀ n, (t.reqQ n).Sublist (s.reqQ n)) (ha : Actives s t) : Order t := by
  refine ⟨fun n => ?_, fun k y hy hact m hm hcmd => ?_⟩
  · refine ((h.req n).sublist (hq n)).imp fun {m m'} hr hl => hr ?_
    unfold State.LiveReq at hl
    rw [hc] at hl
    exact hl
  · obtain ⟨y', hy', hact', hslot, hsess⟩ := ha k y hy hact
    rw [← hslot]
    rw [← hsess] at hm
    exact h.hand k y' hy' hact' m ((hq _).subset hm) hcmd

/-- A reply is pushed; a refusal goes to a slot on which nothing else is waiting. -/
theorem Order.pushReq (h : Order s) (hc : t.conns = s.conns) (hh : t.handlers = s.handlers) {n : ℕ}
    {m : Msg} (ht : t.reqQ = Function.update s.reqQ n (s.reqQ n ++ [m]))
    (hreq : m.cmd = .expandError → ∀ m' ∈ s.reqQ n, s.LiveReq m' → m.slot ≠ m'.slot)
    (hhand : m.cmd = .expandError → ∀ k y, s.handlers k = some y → y.active = true →
      m.slot ≠ y.slot) : Order t := by
  have hlive : ∀ m, t.LiveReq m → s.LiveReq m := fun m hl => by
    unfold State.LiveReq at hl
    rw [hc] at hl
    exact hl
  have hold : ∀ n, (s.reqQ n).Pairwise fun m m' =>
      t.LiveReq m → m'.cmd = .expandError → m'.slot ≠ m.slot := fun n =>
    (h.req n).imp fun {a b} hab hl => hab (hlive a hl)
  refine ⟨fun n' => ?_, fun k y hy hact m' hm' hcmd => ?_⟩
  · rw [ht]
    by_cases hn : n' = n
    · subst hn
      rw [Function.update_self, List.pairwise_append]
      refine ⟨hold _, List.pairwise_singleton .., fun a ha b hb hl hcmd => ?_⟩
      obtain rfl := List.mem_singleton.1 hb
      exact hreq hcmd a ha (hlive a hl)
    · rw [Function.update_of_ne hn]
      exact hold n'
  · rw [hh] at hy
    rw [ht] at hm'
    by_cases hn : y.session.1 = n
    · subst hn
      rw [Function.update_self, List.mem_append, List.mem_singleton] at hm'
      rcases hm' with hm' | rfl
      · exact h.hand k y hy hact m' hm' hcmd
      · exact hhand hcmd k y hy hact
    · rw [Function.update_of_ne hn] at hm'
      exact h.hand k y hy hact m' hm' hcmd

/-! ## Assembling the invariant -/

/-- A step that is not one of a connection and concerns connection `i`. -/
theorem Tokens.hubStep (h : Tokens s) (hslots : Slots t) (hc : t.conns = s.conns)
    (hpool : ∀ ch, t.pool ch = true → t.chans ch = none)
    (hreq : ∀ n, ∀ m ∈ t.reqQ n, m.cmd = .process → m ∈ s.reqQ n)
    (hhand : ∀ k y, t.handlers k = some y → (s.handlers k).isSome = true ∨ (s.conns k.1).Past k.2)
    (htold : ∀ k y, t.handlers k = some y → y.Told) (hasks : Asks t) (horder : Order t)
    (hgood : ∃ tok, Good t i tok) (hframe : ∀ j, j ≠ i → Frame s t j) : Tokens t := by
  refine ⟨hslots, fun j => ?_, hpool, fun n m hm hcmd => ?_, fun k y hy => ?_, htold, hasks, horder⟩
  · by_cases hj : j = i
    · subst hj
      exact hgood
    · obtain ⟨tok, hg⟩ := h.good j
      exact ⟨tok, hg.frame (hframe j hj) (h.slots.wf j)⟩
  · rw [hc]
    exact h.req n m (hreq n m hm hcmd) hcmd
  · rw [hc]
    rcases hhand k y hy with hk | hk
    · obtain ⟨z, hz⟩ := Option.isSome_iff_exists.1 hk
      exact h.hand k z hz
    · exact hk

/-- A step of the hub that leaves queues to nodes and handlers alone. -/
theorem Tokens.hubStill (h : Tokens s) (hslots : Slots t) (hc : t.conns = s.conns)
    (hpool : ∀ ch, t.pool ch = true → t.chans ch = none) (hreq : t.reqQ = s.reqQ)
    (hhand : t.handlers = s.handlers) (hasks : Asks t) (hgood : ∃ tok, Good t i tok)
    (hframe : ∀ j, j ≠ i → Frame s t j) : Tokens t := by
  refine h.hubStep hslots hc hpool (by rw [hreq]; exact fun _ _ hm _ => hm) (fun k y hy => ?_) ?_ hasks
    (h.order.mono hc (fun n => by rw [hreq]) (actives_refl hhand)) hgood hframe
  · rw [hhand] at hy
    exact .inl (by rw [hy]; rfl)
  · rw [hhand]
    exact h.told

theorem Tokens.good_of_frame (h : Tokens s) (hf : ∀ j, Frame s t j) (i : ℕ) :
    ∃ tok, Good t i tok := by
  obtain ⟨tok, hg⟩ := h.good i
  exact ⟨tok, hg.frame (hf i) (h.slots.wf i)⟩

theorem Tokens.hubFramed (h : Tokens s) (hslots : Slots t) (hc : t.conns = s.conns)
    (hpool : ∀ ch, t.pool ch = true → t.chans ch = none) (hreq : t.reqQ = s.reqQ)
    (hhand : t.handlers = s.handlers) (hasks : Asks t) (hf : ∀ j, Frame s t j) : Tokens t :=
  h.hubStill (i := 0) hslots hc hpool hreq hhand hasks (h.good_of_frame hf 0) fun j _ => hf j

section Handler

variable {k : Handoff} {y' : Handler} (ht : t.handlers = Function.update s.handlers k (some y'))
include ht

theorem handlers_of_ne {j : ℕ} (hj : j ≠ k.1) (k' : ℕ) : t.handlers (j, k') = s.handlers (j, k') := by
  rw [ht, Function.update_of_ne]
  exact fun he => hj (congrArg Prod.fst he)

theorem known_update (hk : (s.handlers k).isSome = true ∨ (s.conns k.1).Past k.2) (k' : Handoff)
    (z : Handler) (hz : t.handlers k' = some z) :
    (s.handlers k').isSome = true ∨ (s.conns k'.1).Past k'.2 := by
  rw [ht] at hz
  by_cases hkk : k' = k
  · rw [hkk]
    exact hk
  · rw [Function.update_of_ne hkk] at hz
    exact .inl (by rw [hz]; rfl)

theorem Tokens.told_update (h : Tokens s) (htold : y'.Told) (k' : Handoff) (z : Handler)
    (hz : t.handlers k' = some z) : z.Told := by
  rw [ht] at hz
  by_cases hkk : k' = k
  · rw [hkk, Function.update_self] at hz
    exact Option.some.inj hz ▸ htold
  · rw [Function.update_of_ne hkk] at hz
    exact h.told k' z hz

end Handler

/-! ## The dispatch loop -/

/-- The dispatch loop takes nothing for a request of an expansion that is not one. -/
theorem Asks.dispatch (h : Asks s) (hhand : t.handlers = s.handlers) (hexps : t.exps = s.exps)
    (hwait : t.waiting = s.waiting) (hresp : ∀ m ∈ t.respQ, m ∈ s.respQ)
    (hdisp : ∀ slot tag, t.disp = .owner slot tag →
      s.disp = .owner slot tag ∨ t.HandlerOn tag slot) : Asks t := by
  refine h.mono (places_refl hhand) (fun m hm _ => .inl (hresp m hm)) hdisp (fun e x hx => ?_)
    fun d slot k hk => ?_
  · rw [hexps] at hx
    exact .inl ⟨x, hx, rfl, rfl⟩
  · rw [hwait] at hk
    exact .inl hk

section Dispatch

variable {m : Msg} {q : List Msg} {slot : ℕ} {tag : Handoff}

theorem Tokens.takeResponse (h : Tokens s) (hd : s.disp = .idle) (hq : s.respQ = m :: q)
    (hm : m.cmd = .process) (ht : t = { s with respQ := q, disp := .swap m.slot m.tag })
    (hslots : Slots t) : Tokens t := by
  subst ht
  obtain ⟨tok, hg⟩ := h.good m.tag.1
  have hresp : m.isResponse m.tag.1 = true := by simp [Msg.isResponse, hm]
  obtain ⟨rfl, hmsg⟩ := hg.responding (by rw [hq]; simp) hresp
  have hnil : q.filter (Msg.isResponse m.tag.1) = [] := by
    have := congrArg View.resps hg.view
    simp only [State.view, hq, List.filter_cons_of_pos hresp, Tok.view, List.cons.injEq] at this
    exact this.2
  have hasks : Asks { s with respQ := q, disp := .swap m.slot m.tag } :=
    h.asks.dispatch rfl rfl rfl (fun m' hm' => by rw [hq]; exact List.mem_cons_of_mem _ hm') (by simp)
  refine h.hubStill (i := m.tag.1) hslots rfl h.pool rfl rfl hasks
    ⟨.swapping, ?_, by rw [hg.awaits rfl]; rfl, hg.ok⟩ fun j hj => ?_
  · have hv : State.view { s with respQ := q, disp := .swap m.slot m.tag } m.tag.1 =
        { s.view m.tag.1 with resps := [], disp := .swap m.slot m.tag } := by
      simp [State.view, hnil, DispPC.on]
    rw [hv, hg.view, hmsg]
    rfl
  · refine frame_of rfl (fun _ _ => rfl) (fun _ => rfl) ?_ ?_ (fun _ => rfl) (fun _ _ => rfl)
      (fun _ _ => rfl) (fun _ _ => rfl)
    · rw [hq, List.filter_cons_of_neg]
      simp [Msg.isResponse, Ne.symm hj]
    · simp [DispPC.on, hd, Ne.symm hj]

theorem Tokens.takeExpand (h : Tokens s) (hd : s.disp = .idle) (hq : s.respQ = m :: q)
    (hm : m.cmd = .requestExpand) (ht : t = { s with respQ := q, disp := .owner m.slot m.tag })
    (hslots : Slots t) : Tokens t := by
  subst ht
  refine h.hubFramed hslots rfl h.pool rfl rfl (h.asks.dispatch rfl rfl rfl (fun m' hm' => ?_) ?_)
    fun j => frame_of rfl (fun _ _ => rfl) (fun _ => rfl) ?_ ?_ (fun _ => rfl) (fun _ _ => rfl)
      (fun _ _ => rfl) (fun _ _ => rfl)
  · rw [hq]
    exact List.mem_cons_of_mem _ hm'
  · rintro slot tag ⟨⟩
    exact .inr (h.asks.resp m (by rw [hq]; simp) hm)
  · rw [hq, List.filter_cons_of_neg]
    simp [Msg.isResponse, hm]
  · simp [DispPC.on, hd]

theorem Tokens.takeOther (h : Tokens s) (hq : s.respQ = m :: q) (hm : m.cmd ≠ .process)
    (ht : t = { s with respQ := q }) (hslots : Slots t) : Tokens t := by
  subst ht
  refine h.hubFramed hslots rfl h.pool rfl rfl
    (h.asks.dispatch rfl rfl rfl (fun m' hm' => ?_) fun _ _ => .inl)
    fun j => frame_of rfl (fun _ _ => rfl) (fun _ => rfl) ?_ rfl (fun _ => rfl) (fun _ _ => rfl)
      (fun _ _ => rfl) (fun _ _ => rfl)
  · rw [hq]
    exact List.mem_cons_of_mem _ hm'
  · rw [hq, List.filter_cons_of_neg]
    simp [Msg.isResponse, hm]

/-- The waiter that is taken is the connection that the token belongs to. -/
theorem Tokens.swap (h : Tokens s) {c : ℕ} (hd : s.disp = .swap slot tag)
    (hw : s.waiters slot = some c)
    (ht : t = { s with waiters := Function.update s.waiters slot none, disp := .send c tag })
    (hslots : Slots t) : Tokens t := by
  subst ht
  obtain ⟨tok, hg⟩ := h.good tag.1
  obtain ⟨rfl, hslot, hk⟩ := hg.swapping hd
  have ha := hg.awaits rfl
  obtain rfl : c = tag.1 := by
    rw [hslot, hg.ok.1] at hw
    exact (Option.some.inj hw).symm
  have hheld := Conn.heldSlot_of_awaits (h.slots.wf tag.1) ha
  rw [← hslot] at hheld
  have hasks : Asks { s with
      waiters := Function.update s.waiters slot none
      disp := .send tag.1 tag } := h.asks.dispatch rfl rfl rfl (fun _ hm => hm) (by simp)
  refine h.hubStill (i := tag.1) hslots rfl h.pool rfl rfl hasks
    ⟨.sending, ?_, by rw [ha]; rfl, hg.ok.2⟩ fun j hj => ?_
  · have hv : State.view
        { s with waiters := Function.update s.waiters slot none, disp := .send tag.1 tag } tag.1 =
        { s.view tag.1 with disp := .send tag.1 tag } := by
      simp [State.view, DispPC.on]
    rw [hv, hg.view]
    simp only [Tok.view, ← hk]
  · refine frame_of rfl (fun _ _ => rfl) (fun _ => rfl) rfl ?_ (fun _ => rfl) (fun _ _ => rfl)
      (h.slots.update_slot hheld _ _ j hj) (fun _ _ => rfl)
    simp [DispPC.on, hd, Ne.symm hj]

theorem Tokens.exists_waiter (h : Tokens s) (hd : s.disp = .swap slot tag) :
    s.waiters slot ≠ none := by
  intro hw
  obtain ⟨tok, hg⟩ := h.good tag.1
  obtain ⟨rfl, hslot, -⟩ := hg.swapping hd
  rw [hslot, hg.ok.1] at hw
  cases hw

theorem Tokens.sendDone (h : Tokens s) {c ch : ℕ} (hd : s.disp = .send c tag)
    (hc : (s.conns c).done = some ch)
    (ht : t = { s with chans := Function.update s.chans ch (some ⟨tag, true⟩), disp := .idle })
    (hslots : Slots t) : Tokens t := by
  subst ht
  obtain ⟨tok, hg⟩ := h.good tag.1
  obtain ⟨rfl, rfl, hk⟩ := hg.sending hd
  have ha := hg.awaits rfl
  have hheld : (s.conns tag.1).heldChan = some ch := by rw [Conn.heldChan_of_awaits ha, hc]
  have hasks : Asks { s with
      chans := Function.update s.chans ch (some ⟨tag, true⟩)
      disp := .idle } := h.asks.dispatch rfl rfl rfl (fun _ hm => hm) (by simp)
  refine h.hubStill (i := tag.1) hslots rfl (h.pool_update hheld _) rfl rfl hasks
    ⟨.full true, ?_, by rw [ha]; rfl, fun _ => hg.ok⟩ fun j hj => ?_
  · have hv : State.view
        { s with chans := Function.update s.chans ch (some ⟨tag, true⟩), disp := .idle } tag.1 =
        { s.view tag.1 with disp := .idle, chan := some ⟨tag, true⟩ } := by
      simp [State.view, DispPC.on, hheld]
    rw [hv, hg.view]
    simp only [Tok.view, ← hk]
    rfl
  · refine frame_of rfl (fun _ _ => rfl) (fun _ => rfl) rfl ?_ (fun _ => rfl)
      (h.slots.update_chan hheld _ _ j hj) (fun _ _ => rfl) (fun _ _ => rfl)
    simp [DispPC.on, hd, Ne.symm hj]

theorem Tokens.spawn (h : Tokens s) {e : ℕ} (hd : s.disp = .owner slot tag) (he : s.exps e = none)
    (ht : t = { s with
      exps := Function.update s.exps e (some ⟨(s.reg slot).owner, slot, tag, .header⟩)
      disp := .idle }) (hslots : Slots t) : Tokens t := by
  subst ht
  refine h.hubFramed hslots rfl h.pool rfl rfl ?_ fun j => frame_of rfl (fun _ _ => rfl)
    (fun _ => rfl) rfl ?_ (fun e' => ?_) (fun _ _ => rfl) (fun _ _ => rfl) (fun _ _ => rfl)
  · refine h.asks.mono (places_refl rfl) (fun _ hm _ => .inl hm) nofun (fun e' x hx => ?_)
      fun _ _ _ hk => .inl hk
    dsimp only at hx
    by_cases hee : e' = e
    · subst hee
      rw [Function.update_self] at hx
      cases hx
      exact .inr (h.asks.disp slot tag hd)
    · rw [Function.update_of_ne hee] at hx
      exact .inl ⟨x, hx, rfl, rfl⟩
  · simp [DispPC.on, hd]
  · by_cases hee : e' = e
    · subst hee
      simp [he, Option.filter, Expander.refusesFor, ExpPC.refusing]
    · simp [Function.update_of_ne hee]

end Dispatch

theorem Tokens.dispStep (h : Tokens s) (hs : DispStep s t) : Tokens t := by
  have hslots := h.slots.dispStep hs
  cases hs with
  | process hd hq hm => exact h.takeResponse hd hq hm rfl hslots
  | expand hd hq hm => exact h.takeExpand hd hq hm rfl hslots
  | skip hd hq hm => exact h.takeOther hq hm.1 rfl hslots
  | swap hd hw => exact h.swap hd hw rfl hslots
  | drop hd hw => exact absurd hw (h.exists_waiter hd)
  | send hd hc hch => exact h.sendDone hd hc rfl hslots
  | spawn hd he => exact h.spawn hd he rfl hslots

/-! ## Expansions -/

/-- All but the expansions and the queues to the nodes is as before. -/
structure Alike (s t : State) : Prop where
  conns : t.conns = s.conns
  handlers : t.handlers = s.handlers
  respQ : t.respQ = s.respQ
  disp : t.disp = s.disp
  waiters : t.waiters = s.waiters
  reg : t.reg = s.reg
  chans : t.chans = s.chans
  pool : t.pool = s.pool
  waiting : t.waiting = s.waiting

theorem Alike.frame (h : Alike s t) {j : ℕ}
    (hreq : ∀ n k, (t.reqQ n).filter (Msg.isRequest (j, k)) =
      (s.reqQ n).filter (Msg.isRequest (j, k)))
    (hexp : ∀ e, (t.exps e).filter (Expander.refusesFor j) =
      (s.exps e).filter (Expander.refusesFor j)) : Frame s t j := by
  refine frame_of (by rw [h.conns]) hreq ?_ ?_ ?_ hexp ?_ ?_ ?_
  · rw [h.handlers]
    exact fun _ => rfl
  · rw [h.respQ]
  · rw [h.disp]
  · rw [h.chans]
    exact fun _ _ => rfl
  · rw [h.waiters]
    exact fun _ _ => rfl
  · rw [h.reg]
    exact fun _ _ => rfl

section Expander

variable {e : ℕ} {x x' : Expander}

theorem asks_setExp (hx : s.exps e = some x)
    (ht : t.exps = Function.update s.exps e (some x')) (htag : x'.tag = x.tag)
    (hslot : x'.slot = x.slot) : ∀ e' z, t.exps e' = some z →
    (∃ z', s.exps e' = some z' ∧ z'.tag = z.tag ∧ z'.slot = z.slot) ∨ t.HandlerOn z.tag z.slot := by
  intro e' z hz
  rw [ht] at hz
  by_cases he : e' = e
  · subst he
    rw [Function.update_self] at hz
    obtain rfl := Option.some.inj hz
    exact .inl ⟨x, hx, htag.symm, hslot.symm⟩
  · rw [Function.update_of_ne he] at hz
    exact .inl ⟨z, hz, rfl, rfl⟩

/-- The expansion does not concern connection `j`, or it has not been refused. -/
theorem filter_setExp {j : ℕ} (hx : s.exps e = some x)
    (ht : t.exps = Function.update s.exps e (some x')) (hr : x.refusesFor j = false)
    (hr' : x'.refusesFor j = false) (e' : ℕ) :
    (t.exps e').filter (Expander.refusesFor j) = (s.exps e').filter (Expander.refusesFor j) := by
  rw [ht]
  by_cases he : e' = e
  · subst he
    simp [hx, Option.filter, hr, hr']
  · rw [Function.update_of_ne he]

theorem refusesFor_of_ne {j : ℕ} (hj : j ≠ x.tag.1) : x.refusesFor j = false := by
  simp [Expander.refusesFor, Ne.symm hj]

theorem refusesFor_of_not {j : ℕ} (hr : x.pc.refusing = false) : x.refusesFor j = false := by
  simp [Expander.refusesFor, hr]

theorem Alike.asks (h : Alike s t) (ha : Asks s) (hx : s.exps e = some x)
    (ht : t.exps = Function.update s.exps e (some x')) (htag : x'.tag = x.tag)
    (hslot : x'.slot = x.slot) : Asks t := by
  refine ha.mono (places_refl h.handlers) ?_ ?_ (asks_setExp hx ht htag hslot) ?_
  · rw [h.respQ]
    exact fun _ hm _ => .inl hm
  · rw [h.disp]
    exact fun _ _ hd => .inl hd
  · rw [h.waiting]
    exact fun _ _ _ hk => .inl hk

/-- No request appears in a queue if none appears among those of any handoff. -/
theorem mem_of_filter (hreq : ∀ n k, (t.reqQ n).filter (Msg.isRequest k) =
    (s.reqQ n).filter (Msg.isRequest k)) : ∀ n, ∀ m ∈ t.reqQ n, m.cmd = .process → m ∈ s.reqQ n := by
  intro n m hm hcmd
  have : m ∈ (t.reqQ n).filter (Msg.isRequest m.tag) :=
    List.mem_filter.2 ⟨hm, by simp [Msg.isRequest, hcmd]⟩
  rw [hreq] at this
  exact (List.mem_filter.1 this).1

theorem Tokens.expMove (h : Tokens s) (hslots : Slots t) (hs : Alike s t)
    (hreq : ∀ n k, (t.reqQ n).filter (Msg.isRequest k) = (s.reqQ n).filter (Msg.isRequest k))
    (hord : Order t) (hx : s.exps e = some x) (ht : t.exps = Function.update s.exps e (some x'))
    (htag : x'.tag = x.tag) (hslot : x'.slot = x.slot) (hgood : ∃ tok, Good t x.tag.1 tok) :
    Tokens t := by
  refine h.hubStep (i := x.tag.1) hslots hs.conns ?_ (mem_of_filter hreq) (fun k y hy => ?_) ?_
    (hs.asks h.asks hx ht htag hslot) hord hgood fun j hj => ?_
  · rw [hs.pool, hs.chans]
    exact h.pool
  · rw [hs.handlers] at hy
    exact .inl (by rw [hy]; rfl)
  · rw [hs.handlers]
    exact h.told
  · exact hs.frame (fun n k => hreq n _)
      (filter_setExp hx ht (refusesFor_of_ne hj) (refusesFor_of_ne (by rw [htag]; exact hj)))

theorem Tokens.expQuiet (h : Tokens s) (hslots : Slots t) (hs : Alike s t)
    (hreq : ∀ n k, (t.reqQ n).filter (Msg.isRequest k) = (s.reqQ n).filter (Msg.isRequest k))
    (hord : Order t) (hx : s.exps e = some x) (ht : t.exps = Function.update s.exps e (some x'))
    (htag : x'.tag = x.tag) (hslot : x'.slot = x.slot) (hr : x.pc.refusing = false)
    (hr' : x'.pc.refusing = false) : Tokens t := by
  obtain ⟨tok, hg⟩ := h.good x.tag.1
  refine h.expMove hslots hs hreq hord hx ht htag hslot ⟨tok, hg.frame ?_ (h.slots.wf _)⟩
  exact hs.frame (fun n k => hreq n _)
    (filter_setExp hx ht (refusesFor_of_not hr) (refusesFor_of_not hr'))

/-- The view of the connection that a refused expansion belongs to. -/
theorem Alike.view (hs : Alike s t) (hreq : ∀ n k, (t.reqQ n).filter (Msg.isRequest (i, k)) =
      (s.reqQ n).filter (Msg.isRequest (i, k)))
    (ht : t.exps = Function.update s.exps e (some x')) (hr : x'.refusesFor i = true) :
    t.view i = { s.view i with exps := Function.update (s.view i).exps e (some x') } := by
  refine View.ext (funext fun n => ?_) ?_ ?_ ?_ (funext fun e' => ?_) ?_
  · simp only [State.view, hs.conns, hreq]
  · simp only [State.view, hs.handlers]
  · simp only [State.view, hs.respQ]
  · simp only [State.view, hs.disp]
  · simp only [State.view, ht]
    by_cases he : e' = e
    · subst he
      simp [Option.filter, hr]
    · rw [Function.update_of_ne he, Function.update_of_ne he]
  · simp only [State.view, hs.conns, hs.chans]

theorem Tokens.failing (h : Tokens s) (hx : s.exps e = some x) (hr : x.pc.refusing = true) :
    Good s x.tag.1 (.failing e x) := by
  obtain ⟨tok, hg⟩ := h.good x.tag.1
  obtain rfl := hg.failing hx hr
  exact hg

theorem Tokens.expRefusing (h : Tokens s) (hslots : Slots t) (hs : Alike s t)
    (hreq : ∀ n k, (t.reqQ n).filter (Msg.isRequest k) = (s.reqQ n).filter (Msg.isRequest k))
    (hord : Order t) (hx : s.exps e = some x) (ht : t.exps = Function.update s.exps e (some x'))
    (htag : x'.tag = x.tag) (hslot : x'.slot = x.slot) (hr : x.pc.refusing = true)
    (hr' : x'.pc.refusing = true) (hsend : ∀ c, x'.pc = .send c → c = x.tag.1) : Tokens t := by
  have hg := h.failing hx hr
  refine h.expMove hslots hs hreq hord hx ht htag hslot ⟨.failing e x', ?_, ?_, ?_⟩
  · rw [hs.view (fun n k => hreq n _) ht (by simp [Expander.refusesFor, htag, hr']), hg.view]
    simp only [Tok.view, Function.update_idem]
  · rw [hs.conns, hg.awaits rfl]
    rfl
  · obtain ⟨hw, hsl, htg, -⟩ := hg.ok
    refine ⟨?_, ?_, ?_, hsend⟩
    · unfold State.Waited
      rw [hs.conns, hs.waiters]
      exact hw
    · rw [hs.conns, hslot]
      exact hsl
    · rw [hs.conns, htag]
      exact htg

end Expander

theorem filter_pushReq {n : ℕ} {m : Msg} (hm : m.cmd ≠ .process) (n' : ℕ) (k : Handoff) :
    ((s.pushReq n m).reqQ n').filter (Msg.isRequest k) = (s.reqQ n').filter (Msg.isRequest k) := by
  change (Function.update s.reqQ n _ n').filter _ = _
  by_cases hn : n' = n
  · subst hn
    rw [Function.update_self, List.filter_append]
    simp [Msg.isRequest, hm]
  · rw [Function.update_of_ne hn]

/-- Two connections that await a completion have different slots. -/
theorem Tokens.eq_of_slotID (h : Tokens s) {j : ℕ} (hi : (s.conns i).pc.awaits = true)
    (hj : (s.conns j).pc.awaits = true) (he : (s.conns i).slotID = (s.conns j).slotID) : i = j := by
  have hsi := Conn.heldSlot_of_awaits (h.slots.wf i) hi
  have hsj := Conn.heldSlot_of_awaits (h.slots.wf j) hj
  rw [← he] at hsj
  exact h.slots.slot_inj i j _ hsi hsj

/-- A refusal goes to a slot on which no request and no active handler is waiting. -/
theorem Tokens.order_error (h : Tokens s) {e : ℕ} {x : Expander} (hx : s.exps e = some x)
    (hr : x.pc.refusing = true) {n : ℕ} (hc : t.conns = s.conns) (hh : t.handlers = s.handlers)
    (ht : t.reqQ = Function.update s.reqQ n (s.reqQ n ++ [⟨x.slot, .expandError, x.tag⟩])) :
    Order t := by
  have hg := h.failing hx hr
  have ha := hg.awaits rfl
  refine h.order.pushReq hc hh ht (fun _ m hm hl he => ?_) fun _ k y hy hact he => ?_
  · obtain ⟨hcmd, haw, hk⟩ := hl
    obtain ⟨tok, hg'⟩ := h.good m.tag.1
    have hreq : m.isRequest (m.tag.1, (s.conns m.tag.1).handoffs) = true := by
      simp [Msg.isRequest, hcmd, hk]
    have hmsg := (hg'.queued haw hm hreq).2
    have hij : x.tag.1 = m.tag.1 := by
      refine h.eq_of_slotID ha haw ?_
      rw [← hg.ok.2.1]
      exact he.trans (congrArg Msg.slot hmsg)
    rw [← hij] at hreq
    cases (hg.queued ha hm hreq).1
  · obtain ⟨tok, hg'⟩ := h.good k.1
    obtain ⟨rfl, hk⟩ := hg'.handling (k := k.2) hy hact
    obtain ⟨-, y', hy', hslot, -⟩ := hg'.ok
    rw [← hk, show s.handlers (k.1, k.2) = some y from hy] at hy'
    obtain rfl := Option.some.inj hy'
    have hij : x.tag.1 = k.1 := by
      refine h.eq_of_slotID ha (hg'.awaits rfl) ?_
      rw [← hg.ok.2.1, ← hslot]
      exact he
    have hy2 : s.handlers (x.tag.1, k.2) = some y := by
      rw [hij]
      exact hy
    cases (hg.handling hy2 hact).1

theorem Tokens.handling_of_working (h : Tokens s) {e : ℕ} {x : Expander} {y : Handler}
    (hx : s.exps e = some x) (hy : s.handlers x.tag = some y) (hw : y.pc.working = true)
    (hnr : y.refused = false) :
    Good s x.tag.1 .handling ∧ x.tag.2 = (s.conns x.tag.1).handoffs ∧
      x.slot = (s.conns x.tag.1).slotID := by
  have hact : y.active = true := by
    have hpc : y.pc ≠ .finished := by
      intro hpc
      rw [hpc] at hw
      cases hw
    simp [Handler.active, hnr, hpc]
  obtain ⟨tok, hg⟩ := h.good x.tag.1
  obtain ⟨rfl, hk⟩ := hg.handling (k := x.tag.2) hy hact
  refine ⟨hg, hk, ?_⟩
  obtain ⟨-, y₁, hy₁, hslot₁, -⟩ := hg.ok
  rw [← hk] at hy₁
  obtain rfl := Option.some.inj (hy.symm.trans hy₁)
  obtain ⟨y₂, hy₂, hslot₂⟩ := h.asks.exp e x hx
  obtain rfl := Option.some.inj (hy.symm.trans hy₂)
  rw [← hslot₂, hslot₁]

section Refuse

variable {e : ℕ} {x x' : Expander} {y : Handler} (htag : x'.tag = x.tag)
  (hr' : x'.pc.refusing = true)
  (hh : t.handlers = Function.update s.handlers x.tag (some { y with refused := true }))
  (hex : t.exps = Function.update s.exps e (some x'))
include htag hr' hh hex

/-- The view of the connection once the handler is no longer active and the expansion refuses. -/
theorem view_refuse (hv : s.view x.tag.1 = Tok.view x.tag.1 (s.conns x.tag.1) .handling)
    (hk : x.tag.2 = (s.conns x.tag.1).handoffs) (hc : t.conns = s.conns) (hreq : t.reqQ = s.reqQ)
    (hresp : t.respQ = s.respQ) (hdisp : t.disp = s.disp) (hchans : t.chans = s.chans) :
    t.view x.tag.1 = Tok.view x.tag.1 (t.conns x.tag.1) (.failing e x') := by
  refine View.ext ?_ (funext fun k => ?_) ?_ ?_ (funext fun e' => ?_) ?_
  · have := congrArg View.reqs hv
    simp only [State.view, hc, hreq] at this ⊢
    exact this
  · simp only [State.view, hh, Tok.view, View.empty]
    by_cases hkk : (x.tag.1, k) = x.tag
    · rw [hkk, Function.update_self]
      simp [Handler.active]
    · rw [Function.update_of_ne hkk]
      have := congrFun (congrArg View.active hv) k
      have hkn : k ≠ (s.conns x.tag.1).handoffs := by
        rintro rfl
        exact hkk (Prod.ext rfl hk.symm)
      simp only [State.view, Tok.view, Function.update_of_ne hkn] at this
      exact this
  · have := congrArg View.resps hv
    simp only [State.view, hresp] at this ⊢
    exact this
  · have := congrArg View.disp hv
    simp only [State.view, hdisp] at this ⊢
    exact this
  · have := congrFun (congrArg View.exps hv) e'
    simp only [State.view, hex, Tok.view] at this ⊢
    by_cases he : e' = e
    · subst he
      simp [Option.filter, Expander.refusesFor, htag, hr']
    · rw [Function.update_of_ne he, Function.update_of_ne he]
      exact this
  · have := congrArg View.chan hv
    simp only [State.view, hc, hchans] at this ⊢
    exact this

end Refuse

/-- The token goes from the handler to the expansion that was refused to it. -/
theorem Tokens.refuse (h : Tokens s) {e : ℕ} {x x' : Expander} {y : Handler} (hslots : Slots t)
    (hx : s.exps e = some x) (hy : s.handlers x.tag = some y) (hw : y.pc.working = true)
    (hnr : y.refused = false) (ht : t = (s.refuse x.tag).setExp e x') (htag : x'.tag = x.tag)
    (hslot : x'.slot = x.slot) (hr' : x'.pc.refusing = true)
    (hsend : ∀ c, x'.pc = .send c → c = x.tag.1) : Tokens t := by
  obtain ⟨hg, hk, hxs⟩ := h.handling_of_working hx hy hw hnr
  have hh : t.handlers = Function.update s.handlers x.tag (some { y with refused := true }) := by
    rw [ht]
    change Function.update s.handlers x.tag _ = _
    rw [hy]
    rfl
  subst ht
  have hasks : Asks ((s.refuse x.tag).setExp e x') :=
    h.asks.mono (places_update hy hh rfl rfl) (fun _ hm _ => .inl hm) (fun _ _ hd => .inl hd)
      (asks_setExp hx rfl htag hslot) fun _ _ _ hk => .inl hk
  have horder : Order ((s.refuse x.tag).setExp e x') :=
    h.order.mono rfl (fun _ => List.Sublist.refl _)
      (actives_update hy hh rfl rfl fun hf => by simp [Handler.active] at hf)
  refine h.hubStep (i := x.tag.1) hslots rfl h.pool (fun _ _ hm _ => hm)
    (known_update hh (.inl (by rw [hy]; rfl)))
    (h.told_update hh ⟨fun _ => .inl hw, fun _ => .inl rfl⟩) hasks horder
    ⟨.failing e x', view_refuse htag hr' hh rfl hg.view hk rfl rfl rfl rfl rfl, ?_,
      hg.ok.1, hslot.trans hxs, htag.trans (Prod.ext rfl hk), hsend⟩ fun j hj => ?_
  · change _ = !(s.conns x.tag.1).pc.awaits
    rw [hg.awaits rfl]
    rfl
  · exact frame_of rfl (fun _ _ => rfl) (handlers_of_ne hh hj) rfl rfl
      (filter_setExp hx rfl (refusesFor_of_ne hj) (refusesFor_of_ne (by rw [htag]; exact hj)))
      (fun _ _ => rfl) (fun _ _ => rfl) (fun _ _ => rfl)

theorem Tokens.sendError (h : Tokens s) {e c ch : ℕ} {x : Expander} (hx : s.exps e = some x)
    (hpc : x.pc = .send c) (hc : (s.conns c).done = some ch)
    (ht : t = (s.setChan ch (some ⟨x.tag, false⟩)).setExp e { x with pc := .gone })
    (hslots : Slots t) : Tokens t := by
  subst ht
  have hg := h.failing hx (by rw [hpc]; rfl)
  have ha := hg.awaits rfl
  obtain ⟨-, -, htag, hsend⟩ := hg.ok
  obtain rfl := hsend c hpc
  have hheld : (s.conns x.tag.1).heldChan = some ch := by rw [Conn.heldChan_of_awaits ha, hc]
  have hasks : Asks ((s.setChan ch (some ⟨x.tag, false⟩)).setExp e { x with pc := .gone }) :=
    h.asks.mono (places_refl rfl) (fun _ hm _ => .inl hm) (fun _ _ hd => .inl hd)
      (asks_setExp hx rfl rfl rfl) fun _ _ _ hk => .inl hk
  refine h.hubStill (i := x.tag.1) hslots rfl (h.pool_update hheld _) rfl rfl hasks
    ⟨.full false, ?_, ?_, nofun⟩ fun j hj => ?_
  · have hv := hg.view
    have hreqs := congrArg View.reqs hv
    have hactive := congrArg View.active hv
    have hresps := congrArg View.resps hv
    have hdisp := congrArg View.disp hv
    refine View.ext hreqs hactive hresps hdisp (funext fun e' => ?_) ?_
    · have := congrFun (congrArg View.exps hv) e'
      simp only [State.view, Tok.view] at this ⊢
      change (Function.update s.exps e _ e').filter _ = _
      by_cases he : e' = e
      · subst he
        rw [Function.update_self]
        simp [Option.filter, Expander.refusesFor, ExpPC.refusing, View.empty]
      · rw [Function.update_of_ne he] at this ⊢
        exact this
    · change (s.conns x.tag.1).heldChan.bind (Function.update s.chans ch _) = some ⟨_, false⟩
      rw [hheld]
      change Function.update s.chans ch _ ch = _
      rw [Function.update_self, htag]
      rfl
  · change _ = !(s.conns x.tag.1).pc.awaits
    rw [ha]
    rfl
  · exact frame_of rfl (fun _ _ => rfl) (fun _ => rfl) rfl rfl
      (filter_setExp hx rfl (refusesFor_of_ne hj) (refusesFor_of_ne hj))
      (h.slots.update_chan hheld _ _ j hj) (fun _ _ => rfl) (fun _ _ => rfl)

theorem Tokens.expStep (h : Tokens s) {e : ℕ} {x : Expander} {a : ExpAct} (hx : s.exps e = some x)
    (hok : RefusedStops s (.exp e a)) (hs : ExpStep s e x a t) : Tokens t := by
  have hslots := h.slots.expStep hs
  have hok' : x.Refuses s a → ∃ y, s.handlers x.tag = some y ∧ y.pc.working = true ∧
      y.refused = false := fun hr => hok x hx hr
  cases hs with
  | header hpc | decode hpc | check hpc | take hpc | commit hpc | rewrite hpc | readyLost hpc =>
    exact h.expQuiet hslots ⟨rfl, rfl, rfl, rfl, rfl, rfl, rfl, rfl, rfl⟩ (fun _ _ => rfl)
      (h.order.mono rfl (fun n => List.Sublist.refl _) (actives_refl rfl)) hx rfl rfl rfl
      (by rw [hpc]; rfl) rfl
  | refuse hpc ho =>
    obtain ⟨y, hy, hw, hnr⟩ := hok' (by simp only [Expander.Refuses, hpc]; exact ho)
    exact h.refuse hslots hx hy hw hnr rfl rfl rfl rfl fun c hc => by cases hc
  | fail hpc =>
    obtain ⟨y, hy, hw, hnr⟩ := hok' (by simp only [Expander.Refuses, hpc])
    exact h.refuse hslots hx hy hw hnr rfl rfl rfl rfl fun c hc => by cases hc
  | ready hpc =>
    exact h.expQuiet hslots ⟨rfl, rfl, rfl, rfl, rfl, rfl, rfl, rfl, rfl⟩
      (fun n k => filter_pushReq (by simp) n k)
      (h.order.pushReq rfl rfl rfl (fun hc => by cases hc) fun hc => by cases hc) hx rfl rfl rfl
      (by rw [hpc]; rfl) rfl
  | undo hpc | undoEnd hpc | errorLost hpc =>
    exact h.expRefusing hslots ⟨rfl, rfl, rfl, rfl, rfl, rfl, rfl, rfl, rfl⟩ (fun _ _ => rfl)
      (h.order.mono rfl (fun n => List.Sublist.refl _) (actives_refl rfl)) hx rfl rfl rfl
      (by rw [hpc]; rfl) rfl fun c hc => by cases hc
  | error hpc =>
    exact h.expRefusing hslots ⟨rfl, rfl, rfl, rfl, rfl, rfl, rfl, rfl, rfl⟩
      (fun n k => filter_pushReq (by simp) n k)
      (h.order_error hx (by rw [hpc]; rfl) rfl rfl rfl) hx rfl rfl rfl (by rw [hpc]; rfl) rfl
      fun c hc => by cases hc
  | @load c hpc hw =>
    have hg := h.failing hx (by rw [hpc]; rfl)
    rw [hg.ok.2.1, hg.ok.1] at hw
    obtain rfl := Option.some.inj hw
    exact h.expRefusing hslots ⟨rfl, rfl, rfl, rfl, rfl, rfl, rfl, rfl, rfl⟩ (fun _ _ => rfl)
      (h.order.mono rfl (fun n => List.Sublist.refl _) (actives_refl rfl)) hx rfl rfl rfl
      (by rw [hpc]; rfl) rfl fun c hc => by cases hc; rfl
  | loadNil hpc hw =>
    have hg := h.failing hx (by rw [hpc]; rfl)
    rw [hg.ok.2.1, hg.ok.1] at hw
    cases hw
  | send hpc hc hch => exact h.sendError hx hpc hc rfl hslots

end Mmfg.Hub
