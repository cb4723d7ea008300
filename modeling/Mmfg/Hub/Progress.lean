import Mmfg.Hub.Sources

/-!
# Every handoff can be completed

While nodes stay connected, sessions are never closed, requests in the queues belong to calls of
`Next` that wait, and the party that has the token of a handoff can always take a step that brings
the completion nearer.
-/

namespace Mmfg.Hub

open Shm

/-- The hub does not learn of a disconnect. -/
def NoDisconnect (_ : State) : Action → Prop
  | .watch _ => False
  | _ => True

/-- No node disconnects, and a refused expansion ends the handler that asked for it. -/
def Orderly (s : State) (a : Action) : Prop := NoDisconnect s a ∧ RefusedStops s a

/-- The session has been dialled. -/
def State.Dialled (s : State) (d : SessionId) : Prop := (s.sessions d).watch ≠ .absent

/-- The session that the slot is for. -/
def Use.session : Use → Option SessionId
  | .request => none
  | .next d | .handoff d => some d

/-- The session that the goroutine of a connection works with. -/
def ConnPC.session : ConnPC → Option SessionId
  | .allocSlot u | .setHeader u _ | .setOwner u _ | .setStatus u _ | .getDone u _ => u.session
  | .poll d | .clear d | .store d | .push d | .notify d => some d
  | _ => none

/-- What holds while no node disconnects. -/
structure Open (s : State) : Prop where
  closed : ∀ d, (s.sessions d).closed = false
  names : ∀ p ∈ s.names, s.Dialled p.2
  conns : ∀ i d, (s.conns i).pc.session = some d → s.Dialled d
  req : ∀ n, ∀ m ∈ s.reqQ n, m.cmd = .process → s.LiveReq m ∧ ∃ d, d.1 = n ∧ s.Dialled d
  exps : ∃ n, ∀ e, n ≤ e → s.exps e = none

theorem open_newHub (mem : BlockId → Bytes) : Open (newHub mem) where
  closed _ := rfl
  names _ h := by cases h
  conns _ _ h := by cases h
  req _ _ h := by cases h
  exps := ⟨0, fun _ _ => rfl⟩

variable {s t : State} {i : ℕ}

/-! ## Sessions and requests -/

theorem ConnStep.conns_of_ne {a : ConnAct} {c : Conn} (h : ConnStep s i c a t) {j : ℕ} (hj : j ≠ i) :
    t.conns j = s.conns j := by
  cases h with
  | poke hpc hb => rfl
  | _ => exact Function.update_of_ne hj ..

/-- Only `Next` chooses a session, one that is in `h.nodes`. -/
theorem Move.session {c c' : Conn} (h : Move s i c c') {d : SessionId}
    (hd : c'.pc.session = some d) : c.pc.session = some d ∨ ∃ p ∈ s.names, p.2 = d := by
  cases h with
  | @next name d' hpc hl =>
    obtain ⟨l₁, l₂, hn, -⟩ := List.lookup_eq_some_iff.1 hl
    refine .inr ⟨(name, d'), by rw [hn]; simp, ?_⟩
    split_ifs at hd <;> exact Option.some.inj hd
  | poll hpc hs =>
    rw [hpc]
    exact .inl hd
  | undoEnd hpc | write hpc hn | freeEnd hpc => split_ifs at hd <;> cases hd
  | _ => cases hd

/-- A connection that has a request in a queue stays where the request is still to be answered. -/
theorem Open.liveReq (h : Open s) (hT : Tokens s) {a : ConnAct} {n : ℕ} {m : Msg}
    (hs : ConnStep s i (s.conns i) a t) (hm : m ∈ s.reqQ n) (hcmd : m.cmd = .process) :
    t.LiveReq m := by
  obtain ⟨-, ha, hk⟩ := (h.req n m hm hcmd).1
  by_cases hi : m.tag.1 = i
  · subst hi
    have hreq : m.isRequest (m.tag.1, (s.conns m.tag.1).handoffs) = true := by
      simp [Msg.isRequest, hcmd, hk]
    have hself : ∀ c, Function.update s.conns m.tag.1 c m.tag.1 = c := fun _ =>
      Function.update_self ..
    rw [State.LiveReq]
    cases hs with
    | poke hpc hb => exact ⟨hcmd, ha, hk⟩
    | notify hpc =>
      change _ ∧ (Function.update s.conns _ _ m.tag.1).pc.awaits = true ∧
        (Function.update s.conns _ _ m.tag.1).handoffs = _
      rw [hself]
      exact ⟨hcmd, rfl, hk⟩
    | @notifyFail d hpc hd =>
      rw [h.closed d] at hd
      cases hd
    | recv hpc hch hr =>
      -- the completion would be a second token
      obtain ⟨tok, hg⟩ := hT.good m.tag.1
      obtain ⟨rfl, -⟩ := hg.queued ha hm hreq
      obtain ⟨hfull, -⟩ := hg.full ((Conn.heldChan_of_awaits ha).trans hch) hr
      cases hfull
    | move hmove =>
      rw [hmove.plain.1] at ha
      cases ha
    | _ hpc =>
      rw [hpc] at ha
      cases ha
  · have := hs.conns_of_ne hi
    rw [State.LiveReq, this]
    exact ⟨hcmd, ha, hk⟩

theorem ConnStep.session {a : ConnAct} (h : ConnStep s i (s.conns i) a t) {j : ℕ} {d : SessionId}
    (hd : (t.conns j).pc.session = some d) :
    (s.conns j).pc.session = some d ∨ ∃ p ∈ s.names, p.2 = d := by
  by_cases hj : j = i
  · subst hj
    have hself : ∀ c, Function.update s.conns j c j = c := fun _ => Function.update_self ..
    cases h with
    | poke hpc hb => exact .inl hd
    | move hm =>
      change (Function.update s.conns j _ j).pc.session = some d at hd
      rw [hself] at hd
      exact hm.session hd
    | allocEnd hpc hn hc =>
      change (Function.update s.conns j _ j).pc.session = some d at hd
      rw [hself, hc] at hd
      dsimp only at hd
      split_ifs at hd <;> cases hd
    | growEnd hpc hc =>
      change (Function.update s.conns j _ j).pc.session = some d at hd
      rw [hself, hc] at hd
      cases hd
    | recv hpc hch hr =>
      change (Function.update s.conns j _ j).pc.session = some d at hd
      rw [hself] at hd
      dsimp only at hd
      split_ifs at hd <;> cases hd
    | @setStatus u slot hpc =>
      change (Function.update s.conns j _ j).pc.session = some d at hd
      rw [hself] at hd
      rw [hpc]
      cases u <;> exact .inl hd
    | @getDone u slot ch hpc hch =>
      change (Function.update s.conns j _ j).pc.session = some d at hd
      rw [hself] at hd
      rw [hpc]
      cases u with
      | request => cases hd
      | next | handoff => exact .inl hd
    | notify hpc | notifyFail hpc =>
      change (Function.update s.conns j _ j).pc.session = some d at hd
      rw [hself] at hd
      cases hd
    | _ hpc =>
      change (Function.update s.conns j _ j).pc.session = some d at hd
      rw [hself] at hd
      rw [hpc]
      exact .inl hd
  · rw [h.conns_of_ne hj] at hd
    exact .inl hd

theorem Open.keep (h : Open s) (hsess : t.sessions = s.sessions) (hnames : t.names = s.names)
    (hconns : ∀ j d, (t.conns j).pc.session = some d → s.Dialled d)
    (hreq : ∀ n, ∀ m ∈ t.reqQ n, m.cmd = .process → m ∈ s.reqQ n)
    (hlive : ∀ n, ∀ m ∈ s.reqQ n, m.cmd = .process → t.LiveReq m)
    (hexps : ∃ n, ∀ e, n ≤ e → t.exps e = none) : Open t := by
  have hdial : ∀ d, s.Dialled d → t.Dialled d := fun d hd => by
    rw [State.Dialled, hsess]
    exact hd
  refine ⟨?_, fun p hp => ?_, fun j d hd => hdial d (hconns j d hd), fun n m hm hcmd => ?_, hexps⟩
  · rw [hsess]
    exact h.closed
  · rw [hnames] at hp
    exact hdial _ (h.names p hp)
  · have hm' := hreq n m hm hcmd
    obtain ⟨-, d, hd, hdd⟩ := h.req n m hm' hcmd
    exact ⟨hlive n m hm' hcmd, d, hd, hdial d hdd⟩

theorem Open.other (h : Open s) (hsess : t.sessions = s.sessions) (hnames : t.names = s.names)
    (hc : t.conns = s.conns) (hreq : ∀ n, ∀ m ∈ t.reqQ n, m.cmd = .process → m ∈ s.reqQ n)
    (hexps : ∃ n, ∀ e, n ≤ e → t.exps e = none) : Open t := by
  refine h.keep hsess hnames ?_ hreq (fun n m hm hcmd => ?_) hexps
  · rw [hc]
    exact h.conns
  · rw [State.LiveReq, hc]
    exact (h.req n m hm hcmd).1

theorem exps_update (h : ∃ n, ∀ e, n ≤ e → s.exps e = none) {e : ℕ} {x : Expander}
    (ht : t.exps = Function.update s.exps e (some x)) : ∃ n, ∀ e, n ≤ e → t.exps e = none := by
  obtain ⟨n, hn⟩ := h
  refine ⟨max n (e + 1), fun e' he => ?_⟩
  rw [ht, Function.update_of_ne (by omega)]
  exact hn e' (by omega)

theorem Open.connStep (h : Open s) (hT : Tokens s) {a : ConnAct}
    (hs : ConnStep s i (s.conns i) a t) : Open t := by
  have hconns : ∀ j d, (t.conns j).pc.session = some d → s.Dialled d := by
    intro j d hd
    rcases hs.session hd with hd | ⟨p, hp, rfl⟩
    · exact h.conns j d hd
    · exact h.names p hp
  have hlive : ∀ n, ∀ m ∈ s.reqQ n, m.cmd = .process → t.LiveReq m :=
    fun n m hm hcmd => h.liveReq hT hs hm hcmd
  cases hs with
  | @push d hpc =>
    have hdial : s.Dialled d := h.conns i d (by rw [hpc]; rfl)
    refine ⟨h.closed, h.names, hconns, fun n m hm hcmd => ?_, h.exps⟩
    have hm : m ∈ Function.update s.reqQ d.1 _ n := hm
    by_cases hn : n = d.1
    · subst hn
      rw [Function.update_self, List.mem_append, List.mem_singleton] at hm
      rcases hm with hm | rfl
      · exact ⟨hlive _ m hm hcmd, d, rfl, hdial⟩
      · refine ⟨⟨rfl, ?_⟩, d, rfl, hdial⟩
        change (Function.update s.conns i _ i).pc.awaits = true ∧
          (Function.update s.conns i _ i).handoffs = _
        rw [Function.update_self]
        exact ⟨rfl, rfl⟩
    · rw [Function.update_of_ne hn] at hm
      exact ⟨hlive n m hm hcmd, (h.req n m hm hcmd).2⟩
  | _ => exact h.keep rfl rfl hconns (fun _ _ hm _ => hm) hlive h.exps

theorem Open.expStep (h : Open s) {e : ℕ} {x : Expander} {a : ExpAct} (hs : ExpStep s e x a t) :
    Open t := by
  cases hs with
  | ready hpc | error hpc =>
    refine h.other rfl rfl rfl (fun n m hm hcmd => ?_) (exps_update h.exps rfl)
    have hm : m ∈ Function.update s.reqQ x.node _ n := hm
    by_cases hn : n = x.node
    · subst hn
      rw [Function.update_self, List.mem_append, List.mem_singleton] at hm
      rcases hm with hm | rfl
      · exact hm
      · cases hcmd
    · rw [Function.update_of_ne hn] at hm
      exact hm
  | _ => exact h.other rfl rfl rfl (fun _ _ hm _ => hm) (exps_update h.exps rfl)

theorem Open.popStep (h : Open s) {d : SessionId} (hs : PopStep s d t) : Open t := by
  cases hs with
  | process hq hm =>
    exact h.other rfl rfl rfl (fun n m hm _ => (sublist_pop hq rfl n).subset hm) h.exps
  | reply hq hm hw =>
    exact h.other rfl rfl rfl (fun n m hm _ => (sublist_pop hq rfl n).subset hm) h.exps
  | drop hq hm =>
    exact h.other rfl rfl rfl (fun n m hm _ => (sublist_pop hq rfl n).subset hm) h.exps

theorem Open.stepDial (h : Open s) {d : SessionId} {name : ℕ} {lang : Lang}
    (hs : stepDial s d name lang = some t) : Open t := by
  simp only [Hub.stepDial] at hs
  split_ifs at hs with hd
  cases hs
  have hdial : ∀ d', s.Dialled d' →
      (Function.update s.sessions d ⟨name, lang, false, .reading⟩ d').watch ≠ .absent := by
    intro d' hd'
    by_cases he : d' = d
    · rw [he, Function.update_self]
      exact WatchPC.noConfusion
    · rw [Function.update_of_ne he]
      exact hd'
  refine ⟨fun d' => ?_, fun p hp => ?_, fun j d' hd' => hdial d' (h.conns j d' hd'),
    fun n m hm hcmd => ?_, h.exps⟩
  · dsimp only
    by_cases he : d' = d
    · rw [he, Function.update_self]
    · rw [Function.update_of_ne he]
      exact h.closed d'
  · rcases List.mem_cons.1 hp with rfl | hp
    · dsimp only [State.Dialled]
      rw [Function.update_self]
      exact WatchPC.noConfusion
    · exact hdial _ (h.names p (List.mem_filter.1 hp).1)
  · obtain ⟨hl, d', hd', hdd⟩ := h.req n m hm hcmd
    exact ⟨hl, d', hd', hdial d' hdd⟩

/-- In such a state requests are taken in time. -/
theorem Open.live (h : Open s) {a : Action} (hs : hub.step s a = some t) : Live s a := by
  cases a with
  | pop d => exact fun m hm hcmd => (h.req d.1 m (List.mem_of_mem_head? hm) hcmd).1.2
  | conn i a =>
    cases a with
    | fail =>
      rw [Live]
      split
      · rename_i d hpc
        change stepConn s i .fail = some t at hs
        unfold stepConn at hs
        simp only [hpc, h.closed, Bool.false_eq_true, if_false] at hs
        cases hs
      · trivial
    | _ => trivial
  | _ => trivial

theorem NoDisconnect.noMatch {a : Action} (h : NoDisconnect s a) : NoMatch s a := by
  cases a with
  | watch d => exact h.elim
  | _ => trivial

theorem open_step {a : Action} (h : Open s) (hT : Tokens s) (hok : NoDisconnect s a)
    (hs : hub.step s a = some t) : Open t := by
  cases a with
  | dial d name lang => exact h.stepDial hs
  | watch d => exact hok.elim
  | conn i a => exact h.connStep hT (connStep_of_step hs)
  | disp e =>
    have hst := dispStep_of_step hs
    cases hst with
    | spawn hd he => exact h.other rfl rfl rfl (fun _ _ hm _ => hm) (exps_update h.exps rfl)
    | _ => exact h.other rfl rfl rfl (fun _ _ hm _ => hm) h.exps
  | exp e a =>
    obtain ⟨x, -, hst⟩ := expStep_of_step hs
    exact h.expStep hst
  | pop d => exact h.popStep (popStep_of_step hs)
  | hand k a =>
    obtain ⟨y, -, hst⟩ := handStep_of_step hs
    cases hst <;> exact h.other rfl rfl rfl (fun _ _ hm _ => hm) h.exps

/-- While no node disconnects, there is one token for each call of `Next`. -/
theorem tokens_of_orderly {ok : State → Action → Prop} (hok : ∀ s a, ok s a → Orderly s a)
    (h : hub.Reaches ok s) : Tokens s ∧ Open s := by
  refine h.invariant (I := fun s => Tokens s ∧ Open s) (fun s hs => ?_)
    fun s a t _ ⟨hT, hO⟩ ha hs => ?_
  · rw [show s = newHub s.mem from hs]
    exact ⟨tokens_newHub s.mem, open_newHub s.mem⟩
  · obtain ⟨hdis, href⟩ := hok s a ha
    exact ⟨tokens_step hT hdis.noMatch (hO.live hs) href hs, open_step hO hT hdis hs⟩

/-! ## The token moves on -/

/-- The call of `Next` for handoff `h` finds its completion in its channel. -/
def State.Completed (s : State) (h : Handoff) : Prop :=
  (s.conns h.1).pc = .wait ∧ (s.conns h.1).handoffs = h.2 ∧
    ∃ ch r, (s.conns h.1).done = some ch ∧ s.chans ch = some r

/-- The call of `Next` for handoff `h` is waiting or about to wait. -/
def State.Awaits (s : State) (h : Handoff) : Prop :=
  (s.conns h.1).pc.awaits = true ∧ (s.conns h.1).handoffs = h.2

variable {h : Handoff}

theorem tokens_open (hr : hub.Reaches Orderly s) : Tokens s ∧ Open s :=
  tokens_of_orderly (fun _ _ ho => ho) hr

/-- A completion is in the channel: `Next` gets to the point where it receives. -/
theorem canComplete_full (hO : Open s) (ha : s.Awaits h) {ch : ℕ} {r : Completion}
    (hc : (s.conns h.1).done = some ch) (hr : s.chans ch = some r) :
    hub.CanReach Orderly (·.Completed h) s := by
  cases hpc : (s.conns h.1).pc with
  | wait => exact .here ⟨hpc, ha.2, ch, r, hc, hr⟩
  | notify d =>
    have hst : hub.step s (.conn h.1 .run) =
        some (s.setConn h.1 { s.conns h.1 with pc := .wait }) := by
      change stepConn s h.1 .run = _
      unfold stepConn
      simp only [hpc, hO.closed, Bool.false_eq_true, if_false]
    refine .step (a := .conn h.1 .run) ⟨trivial, trivial⟩ hst (.here ?_)
    rw [State.Completed]
    change (Function.update s.conns h.1 _ h.1).pc = _ ∧
      (Function.update s.conns h.1 _ h.1).handoffs = _ ∧
      ∃ ch r, (Function.update s.conns h.1 _ h.1).done = some ch ∧ s.chans ch = some r
    rw [Function.update_self]
    exact ⟨rfl, ha.2, ch, r, hc, hr⟩
  | _ =>
    have := ha.1
    rw [hpc] at this
    cases this

/-- A send for handoff `h` finds the channel of the connection empty. -/
theorem Good.chan_empty {tok : Tok} (hg : Good s i tok) (hwf : (s.conns i).WF)
    (hn : tok.isNone = false) (hf : ∀ ok, tok ≠ .full ok) :
    ∃ ch, (s.conns i).done = some ch ∧ s.chans ch = none := by
  have ha := hg.awaits hn
  obtain ⟨ch, hch⟩ := Option.isSome_iff_exists.1 (hwf.bound_of_awaits ha).2
  refine ⟨ch, hch, ?_⟩
  have hv := congrArg View.chan hg.view
  simp only [State.view, Conn.heldChan_of_awaits ha, hch, Option.bind_some] at hv
  rw [hv]
  cases tok with
  | full ok => exact absurd rfl (hf ok)
  | _ => rfl

/-- The dispatch loop is never stuck. -/
theorem Tokens.disp_enabled (hT : Tokens s) {e : ℕ} (he : s.exps e = none)
    (hd : s.disp ≠ .idle ∨ s.respQ ≠ []) : ∃ t, hub.step s (.disp e) = some t := by
  simp only [hub, step]
  cases hpc : s.disp with
  | idle =>
    cases hq : s.respQ with
    | nil => exact absurd hq (hd.resolve_left fun hne => hne hpc)
    | cons m q => exact ⟨_, by rw [stepDisp, hpc, hq]⟩
  | swap slot tag => exact ⟨_, by rw [stepDisp, hpc]⟩
  | send c tag =>
    obtain ⟨tok, hg⟩ := hT.good tag.1
    obtain ⟨rfl, rfl, -⟩ := hg.sending hpc
    obtain ⟨ch, hch, hnone⟩ := hg.chan_empty (hT.slots.wf _) rfl fun ok => Tok.noConfusion
    exact ⟨_, by rw [stepDisp, hpc]; simp only [hch, Option.bind_some, hnone, if_true]; rfl⟩
  | owner slot tag => exact ⟨_, by rw [stepDisp, hpc]; simp only [he, if_true]; rfl⟩

theorem exists_dispStep (hr : hub.Reaches Orderly s) (hd : s.disp ≠ .idle ∨ s.respQ ≠ []) :
    ∃ e t, hub.step s (.disp e) = some t ∧ hub.Reaches Orderly t ∧ DispStep s t := by
  obtain ⟨hT, hO⟩ := tokens_open hr
  obtain ⟨n, hn⟩ := hO.exps
  obtain ⟨t, ht⟩ := hT.disp_enabled (hn n le_rfl) hd
  exact ⟨n, t, ht, .step hr (a := .disp n) ⟨trivial, trivial⟩ ht, dispStep_of_step ht⟩

theorem canComplete_sending (hr : hub.Reaches Orderly s) {c : ℕ} (hd : s.disp = .send c h) :
    hub.CanReach Orderly (·.Completed h) s := by
  obtain ⟨hT, -⟩ := tokens_open hr
  obtain ⟨tok, hg⟩ := hT.good h.1
  obtain ⟨rfl, rfl, hk⟩ := hg.sending hd
  obtain ⟨e, t, hst, hrt, hs⟩ := exists_dispStep hr (.inl (by rw [hd]; exact DispPC.noConfusion))
  refine .step (a := .disp e) ⟨trivial, trivial⟩ hst ?_
  have hO := (tokens_open hrt).2
  cases hs with
  | @send c ch tag hd' hc hch =>
    rw [hd] at hd'
    cases hd'
    exact canComplete_full hO ⟨hg.awaits rfl, hk.symm⟩ hc (Function.update_self ..)
  | _ hd' => rw [hd] at hd'; cases hd'

theorem canComplete_swapping (hr : hub.Reaches Orderly s) {slot : ℕ} (hd : s.disp = .swap slot h) :
    hub.CanReach Orderly (·.Completed h) s := by
  obtain ⟨hT, -⟩ := tokens_open hr
  obtain ⟨tok, hg⟩ := hT.good h.1
  obtain ⟨rfl, rfl, hk⟩ := hg.swapping hd
  obtain ⟨e, t, hst, hrt, hs⟩ := exists_dispStep hr (.inl (by rw [hd]; exact DispPC.noConfusion))
  refine .step (a := .disp e) ⟨trivial, trivial⟩ hst ?_
  cases hs with
  | @swap slot c tag hd' hw =>
    rw [hd] at hd'
    cases hd'
    exact canComplete_sending hrt rfl
  | @drop slot tag hd' hw =>
    rw [hd] at hd'
    cases hd'
    rw [hg.ok.1] at hw
    cases hw
  | _ hd' => rw [hd] at hd'; cases hd'

theorem findIdx_pop {p : Msg → Bool} {m m' : Msg} {q : List Msg} (hm : m ∈ m' :: q)
    (hp : p m = true) (hp' : p m' = false) :
    m ∈ q ∧ (m' :: q).findIdx p = q.findIdx p + 1 := by
  refine ⟨(List.mem_cons.1 hm).resolve_left fun he => ?_, ?_⟩
  · rw [he, hp'] at hp
    cases hp
  · rw [List.findIdx_cons, hp', cond_false]

/-- The steps of the dispatch loop to its next message. -/
def DispPC.rank : DispPC → ℕ
  | .idle => 0
  | .send .. | .owner .. => 1
  | .swap .. => 2

/-- The dispatch loop works off the responses that are ahead in the queue. -/
theorem canComplete_responding (hr : hub.Reaches Orderly s) (ha : s.Awaits h)
    (hm : ∃ m ∈ s.respQ, m.isResponse h.1 = true) :
    hub.CanReach Orderly (·.Completed h) s := by
  refine hr.canReach (P := fun s => s.Awaits h ∧ ∃ m ∈ s.respQ, m.isResponse h.1 = true)
    (fun s => 3 * s.respQ.findIdx (Msg.isResponse h.1) + s.disp.rank) ?_ ⟨ha, hm⟩
  rintro s hr ⟨ha, m, hm, hresp⟩
  obtain ⟨e, t, hst, hrt, hs⟩ := exists_dispStep hr (.inr (List.ne_nil_of_mem hm))
  cases hs with
  | @process m' q hd hq hm' =>
    by_cases hi : m'.isResponse h.1 = true
    · obtain ⟨hT, -⟩ := tokens_open hr
      obtain ⟨tok, hg⟩ := hT.good h.1
      obtain ⟨-, hmsg⟩ := hg.responding (by rw [hq]; exact List.mem_cons_self) hi
      have htag : m'.tag = h := by
        rw [hmsg]
        exact Prod.ext rfl ha.2
      refine .inl (.step (a := .disp e) ⟨trivial, trivial⟩ hst ?_)
      exact canComplete_swapping hrt (by rw [← htag])
    · rw [hq] at hm
      obtain ⟨hmem, hidx⟩ := findIdx_pop hm hresp (by simpa using hi)
      refine .inr ⟨.disp e, _, ⟨trivial, trivial⟩, hst, ⟨ha, m, hmem, hresp⟩, ?_⟩
      simp only [hq, hd, hidx, DispPC.rank]
      omega
  | @expand m' q hd hq hm' =>
    rw [hq] at hm
    obtain ⟨hmem, hidx⟩ := findIdx_pop hm hresp (by simp [Msg.isResponse, hm'])
    refine .inr ⟨.disp e, _, ⟨trivial, trivial⟩, hst, ⟨ha, m, hmem, hresp⟩, ?_⟩
    simp only [hq, hd, hidx, DispPC.rank]
    omega
  | @skip m' q hd hq hm' =>
    rw [hq] at hm
    obtain ⟨hmem, hidx⟩ := findIdx_pop hm hresp (by simp [Msg.isResponse, hm'.1])
    refine .inr ⟨.disp e, _, ⟨trivial, trivial⟩, hst, ⟨ha, m, hmem, hresp⟩, ?_⟩
    simp only [hq, hd, hidx, DispPC.rank]
    omega
  | swap hd hw | drop hd hw | send hd hc hch | spawn hd he =>
    refine .inr ⟨.disp e, _, ⟨trivial, trivial⟩, hst, ⟨ha, m, hm, hresp⟩, ?_⟩
    simp only [hd, DispPC.rank]
    omega

/-- The steps of a handler to its end. -/
def HandlerPC.rank : HandlerPC → ℕ
  | .locate _ => 5
  | .decode .. => 4
  | .running => 3
  | .setDone => 2
  | .respond => 1
  | .finished => 0

/-- An active handler gets on; from `running` on it returns. -/
theorem Handler.exists_step {y : Handler} (hy : s.handlers h = some y) (hact : y.active = true)
    (htold : y.Told) : ∃ a t, Orderly s (.hand h a) ∧ hub.step s (.hand h a) = some t ∧
      t.conns = s.conns ∧ ((∃ m ∈ t.respQ, m.isResponse h.1 = true) ∨
        ∃ y', t.handlers h = some y' ∧ y'.active = true ∧ y'.pc.rank < y.pc.rank) := by
  have hnr : y.refused = false := by
    simp only [Handler.active, Bool.and_eq_true, Bool.not_eq_true'] at hact
    exact hact.1
  have hok : ∀ a, Orderly s (.hand h a) := fun a => ⟨trivial, fun z hz hr => by
    obtain rfl := Option.some.inj (hy.symm.trans hz)
    rw [hnr] at hr
    cases hr⟩
  have hset : ∀ y' : Handler, Function.update s.handlers h (some y') h = some y' := fun _ =>
    Function.update_self ..
  obtain ⟨a, t, ha, ht⟩ : ∃ a t, (a = .run ∨ a = .finish) ∧ hub.step s (.hand h a) = some t := by
    cases hpc : y.pc with
    | finished => simp [Handler.active, hpc] at hact
    | running => exact ⟨.finish, by simp [hub, step, stepHandler, hy, hpc]⟩
    | _ => exact ⟨.run, by simp [hub, step, stepHandler, hy, hpc]⟩
  refine ⟨a, t, hok a, ht, ?_⟩
  obtain ⟨z, hz, hst⟩ := handStep_of_step ht
  obtain rfl := Option.some.inj (hy.symm.trans hz)
  cases hst with
  | locate hpc | decode hpc | finish hpc | setDone hpc =>
    refine ⟨rfl, .inr ⟨_, hset _, by simp [Handler.active, hnr], ?_⟩⟩
    rw [hpc]
    exact Nat.lt_succ_self _
  | quit hpc hl hf =>
    have := htold.refused (by rw [hpc]; rfl) hf
    rw [hnr] at this
    cases this
  | respond hpc =>
    refine ⟨rfl, .inl ⟨_, List.mem_append_right _ List.mem_cons_self, ?_⟩⟩
    simp [Msg.isResponse]
  | _ => simp at ha

theorem canComplete_handling (hr : hub.Reaches Orderly s) (ha : s.Awaits h)
    (hy : ∃ y, s.handlers h = some y ∧ y.active = true) :
    hub.CanReach Orderly (·.Completed h) s := by
  refine hr.canReach (P := fun s => s.Awaits h ∧ ∃ y, s.handlers h = some y ∧ y.active = true)
    (fun s => (s.handlers h).elim 0 fun y => y.pc.rank) ?_ ⟨ha, hy⟩
  rintro s hr ⟨ha, y, hy, hact⟩
  obtain ⟨hT, -⟩ := tokens_open hr
  obtain ⟨a, t, hok, hst, hc, hm | ⟨y', hy', hact', hlt⟩⟩ :=
    Handler.exists_step hy hact (hT.told h y hy)
  · have hat : t.Awaits h := by rw [State.Awaits, hc]; exact ha
    exact .inl (.step hok hst (canComplete_responding (.step hr hok hst) hat hm))
  · refine .inr ⟨_, t, hok, hst, ⟨?_, y', hy', hact'⟩, ?_⟩
    · rw [State.Awaits, hc]
      exact ha
    · simp only [hy, hy', Option.elim_some]
      exact hlt

theorem PopStep.pops {d : SessionId} (hs : PopStep s d t) : ∃ m q, s.reqQ d.1 = m :: q ∧
    t.reqQ d.1 = q ∧ t.conns = s.conns ∧
    (m.cmd = .process → ∃ y, t.handlers m.tag = some y ∧ y.active = true) := by
  have hset : ∀ q, Function.update s.reqQ d.1 q d.1 = q := fun _ => Function.update_self ..
  cases hs with
  | @process m q hq hm => exact ⟨m, q, hq, hset q, rfl, fun _ => ⟨_, Function.update_self .., rfl⟩⟩
  | @reply m q k hq hm hw =>
    refine ⟨m, q, hq, hset q, rfl, fun hcmd => ?_⟩
    rcases hm with hm | hm <;> rw [hm] at hcmd <;> cases hcmd
  | @drop m q hq hm => exact ⟨m, q, hq, hset q, rfl, fun hcmd => absurd hcmd hm⟩

/-- The node works off the entries that are ahead in its queue. -/
theorem canComplete_queued (hr : hub.Reaches Orderly s) (ha : s.Awaits h) {n : ℕ}
    (hm : ∃ m ∈ s.reqQ n, m.isRequest h = true) : hub.CanReach Orderly (·.Completed h) s := by
  refine hr.canReach (P := fun s => s.Awaits h ∧ ∃ m ∈ s.reqQ n, m.isRequest h = true)
    (fun s => (s.reqQ n).findIdx (Msg.isRequest h)) ?_ ⟨ha, hm⟩
  rintro s hr ⟨ha, m, hm, hreq⟩
  obtain ⟨hT, hO⟩ := tokens_open hr
  have hcmd : m.cmd = .process := by
    simp only [Msg.isRequest, decide_eq_true_eq] at hreq
    exact hreq.1
  obtain ⟨-, d, rfl, hd⟩ := hO.req n m hm hcmd
  obtain ⟨t, ht⟩ : ∃ t, hub.step s (.pop d) = some t := by
    simp only [hub, step, stepPop, if_neg (show ¬ (s.sessions d).watch = .absent from hd)]
    split
    · rename_i hq
      rw [hq] at hm
      cases hm
    · split
      · exact ⟨_, rfl⟩
      · split <;> exact ⟨_, rfl⟩
      · split <;> exact ⟨_, rfl⟩
      · exact ⟨_, rfl⟩
  have hrt : hub.Reaches Orderly t := .step hr (a := .pop d) ⟨trivial, trivial⟩ ht
  obtain ⟨m', q, hq, hqt, hc, hstart⟩ := (popStep_of_step ht).pops
  have hat : t.Awaits h := by rw [State.Awaits, hc]; exact ha
  by_cases hi : m'.isRequest h = true
  · simp only [Msg.isRequest, decide_eq_true_eq] at hi
    obtain ⟨hcmd', rfl⟩ := hi
    exact .inl (.step (a := .pop d) ⟨trivial, trivial⟩ ht
      (canComplete_handling hrt hat (hstart hcmd')))
  · rw [hq] at hm
    obtain ⟨hmem, hidx⟩ := findIdx_pop hm hreq (by simpa using hi)
    refine .inr ⟨.pop d, t, ⟨trivial, trivial⟩, ht, ⟨hat, m, ?_, hreq⟩, ?_⟩
    · rw [hqt]
      exact hmem
    · rw [hqt, hq, hidx]
      exact Nat.lt_succ_self _

/-! ## Refused expansions -/

/-- The steps of a goroutine that refuses to its end. -/
def ExpPC.rank : ExpPC → ℕ
  | .undo todo => todo.length + 4
  | .respond _ => 3
  | .load => 2
  | .send _ => 1
  | _ => 0

theorem Expander.exists_step (hr : hub.Reaches Orderly s) {e : ℕ} {x : Expander}
    (hx : s.exps e = some x) (href : x.pc.refusing = true) :
    ∃ t, Orderly s (.exp e .run) ∧ hub.step s (.exp e .run) = some t ∧ t.conns = s.conns ∧
      ((∃ ch r, (s.conns x.tag.1).done = some ch ∧ t.chans ch = some r) ∨
        ∃ x', t.exps e = some x' ∧ x'.tag = x.tag ∧ x'.pc.refusing = true ∧
          x'.pc.rank < x.pc.rank) := by
  obtain ⟨hT, -⟩ := tokens_open hr
  obtain ⟨tok, hg⟩ := hT.good x.tag.1
  obtain rfl := hg.failing hx href
  obtain ⟨hwait, hslot, htag, hsend⟩ := hg.ok
  obtain ⟨ch, hch, hnone⟩ := hg.chan_empty (hT.slots.wf _) rfl fun ok => Tok.noConfusion
  rw [State.Waited, ← hslot] at hwait
  have hok : Orderly s (.exp e .run) := ⟨trivial, fun z hz hf => by
    obtain rfl := Option.some.inj (hx.symm.trans hz)
    rw [Expander.Refuses] at hf
    cases hpc : x.pc <;> rw [hpc] at hf href <;> first | cases hf | cases href⟩
  obtain ⟨t, ht⟩ : ∃ t, hub.step s (.exp e .run) = some t := by
    simp only [hub, step, stepExp, hx, Option.bind_some]
    cases hpc : x.pc with
    | undo todo => cases todo <;> exact ⟨_, rfl⟩
    | respond ok =>
      dsimp only
      split_ifs <;> exact ⟨_, rfl⟩
    | load => exact ⟨_, rfl⟩
    | send c =>
      obtain rfl := hsend c hpc
      simp only [hch, Option.bind_some, hnone, if_true]
      exact ⟨_, rfl⟩
    | _ => rw [hpc] at href; cases href
  refine ⟨t, hok, ht, ?_⟩
  obtain ⟨z, hz, hst⟩ := expStep_of_step ht
  obtain rfl := Option.some.inj (hx.symm.trans hz)
  have hset : ∀ x' : Expander, Function.update s.exps e (some x') e = some x' := fun _ =>
    Function.update_self ..
  cases hst with
  | undo hpc | undoEnd hpc | error hpc | errorLost hpc | load hpc hw =>
    refine ⟨rfl, .inr ⟨_, hset _, rfl, rfl, ?_⟩⟩
    rw [hpc]
    simp [ExpPC.rank]
  | loadNil hpc hw =>
    rw [hwait] at hw
    cases hw
  | @send c ch' hpc hc hch' =>
    obtain rfl := hsend c hpc
    exact ⟨rfl, .inl ⟨ch', _, hc, Function.update_self ..⟩⟩
  | _ hpc => rw [hpc] at href; cases href

theorem canComplete_failing (hr : hub.Reaches Orderly s) (ha : s.Awaits h) {e : ℕ}
    (hx : ∃ x, s.exps e = some x ∧ x.tag = h ∧ x.pc.refusing = true) :
    hub.CanReach Orderly (·.Completed h) s := by
  refine hr.canReach
    (P := fun s => s.Awaits h ∧ ∃ x, s.exps e = some x ∧ x.tag = h ∧ x.pc.refusing = true)
    (fun s => (s.exps e).elim 0 fun x => x.pc.rank) ?_ ⟨ha, hx⟩
  clear hx
  rintro s hr ⟨ha, x, hx, rfl, href⟩
  obtain ⟨t, hok, hst, hc, ⟨ch, r, hch, hr'⟩ | ⟨x', hx', htag, href', hlt⟩⟩ :=
    Expander.exists_step hr hx href
  · have hat : t.Awaits x.tag := by rw [State.Awaits, hc]; exact ha
    refine .inl (.step hok hst ?_)
    exact canComplete_full (tokens_open (.step hr hok hst)).2 hat (by rw [hc]; exact hch) hr'
  · refine .inr ⟨_, t, hok, hst, ⟨?_, x', hx', htag, href'⟩, ?_⟩
    · rw [State.Awaits, hc]
      exact ha
    · simp only [hx, hx', Option.elim_some]
      exact hlt

/-- Every call of `Next` that waits can get its completion. -/
theorem canComplete (hr : hub.Reaches Orderly s) (ha : s.Awaits h) :
    hub.CanReach Orderly (·.Completed h) s := by
  obtain ⟨hT, hO⟩ := tokens_open hr
  obtain ⟨src, hp⟩ := hT.exists_pending ha.1
  rw [ha.2] at hp
  cases src with
  | request n p =>
    obtain ⟨m, hm, hcmd, htag⟩ := hp
    exact canComplete_queued hr ha
      ⟨m, List.mem_of_getElem? hm, by simp [Msg.isRequest, hcmd, htag]⟩
  | handler =>
    obtain ⟨y, hy, hact⟩ := hp
    exact canComplete_handling hr ha ⟨y, hy, hact⟩
  | response p =>
    obtain ⟨m, hm, hcmd, htag⟩ := hp
    exact canComplete_responding hr ha
      ⟨m, List.mem_of_getElem? hm, by simp [Msg.isResponse, hcmd, htag]⟩
  | dispatcher =>
    rcases hp with ⟨slot, hd⟩ | ⟨c, hd⟩
    · exact canComplete_swapping hr hd
    · exact canComplete_sending hr hd
  | expander e =>
    obtain ⟨x, hx, htag, href⟩ := hp
    exact canComplete_failing hr ha ⟨x, hx, htag, href⟩
  | channel ch =>
    obtain ⟨r, hr', htag⟩ := hp
    obtain ⟨hheld, -⟩ := hT.full hr'
    rw [htag, Conn.heldChan_of_awaits ha.1] at hheld
    exact canComplete_full hO ha hheld hr'

end Mmfg.Hub
