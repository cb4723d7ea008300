import Mmfg.Hub.Nodes

/-!
# Where a completion comes from

The sources of completions of a handoff, one by one: its request in the queue of a node, its handler,
its response in the queue to the hub, the dispatch loop, a refused expansion, and a channel that
holds a completion.  A handoff that is waited for has exactly one.
-/

namespace Mmfg.Hub

open Shm

/-- Entry `p` of the queue of node `n`, the handler, entry `p` of the queue of responses, the dispatch
loop, the goroutine `e`, the content of channel `ch`. -/
inductive Source
  | request (n p : ℕ)
  | handler
  | response (p : ℕ)
  | dispatcher
  | expander (e : ℕ)
  | channel (ch : ℕ)
  deriving DecidableEq

/-- The source is there, and leads to a completion of handoff `h`. -/
def State.Pending (s : State) (h : Handoff) : Source → Prop
  | .request n p => ∃ m, (s.reqQ n)[p]? = some m ∧ m.cmd = .process ∧ m.tag = h
  | .handler => ∃ y, s.handlers h = some y ∧ y.active = true
  | .response p => ∃ m, s.respQ[p]? = some m ∧ m.cmd = .process ∧ m.tag = h
  | .dispatcher => (∃ slot, s.disp = .swap slot h) ∨ ∃ c, s.disp = .send c h
  | .expander e => ∃ x, s.exps e = some x ∧ x.tag = h ∧ x.pc.refusing = true
  | .channel ch => ∃ r, s.chans ch = some r ∧ r.tag = h

variable {s : State} {i : ℕ}

/-! ## Entries of queues -/

theorem exists_getElem_of_filter {l : List Msg} {q : Msg → Bool} {a : Msg} (hl : l.filter q = [a]) :
    ∃ p : ℕ, l[p]? = some a ∧ ∀ (p' : ℕ) (m : Msg), l[p']? = some m → q m = true → p' = p := by
  induction l with
  | nil => cases hl
  | cons b l ih =>
    by_cases hb : q b = true
    · rw [List.filter_cons_of_pos hb, List.cons.injEq, List.filter_eq_nil_iff] at hl
      refine ⟨0, by rw [← hl.1]; rfl, fun p' m hp' hm => ?_⟩
      cases p' with
      | zero => rfl
      | succ p' => exact absurd hm (hl.2 m (List.mem_of_getElem? hp'))
    · rw [List.filter_cons_of_neg hb] at hl
      obtain ⟨p, hp, huniq⟩ := ih hl
      refine ⟨p + 1, hp, fun p' m hp' hm => ?_⟩
      cases p' with
      | zero =>
        obtain rfl := Option.some.inj hp'
        exact absurd hm hb
      | succ p' => rw [huniq p' m hp' hm]

/-- A channel that holds a completion is held by the connection that waits for it. -/
theorem Tokens.full (hT : Tokens s) {ch : ℕ} {r : Completion} (hr : s.chans ch = some r) :
    (s.conns r.tag.1).heldChan = some ch ∧
      (s.conns r.tag.1).pc.awaits = true ∧ (s.conns r.tag.1).handoffs = r.tag.2 := by
  have hpool : s.pool ch = false := by
    by_contra hp
    rw [hT.pool ch (by simpa using hp)] at hr
    cases hr
  obtain ⟨j, hj⟩ := hT.slots.held ch hpool
  obtain ⟨tok, hg⟩ := hT.good j
  obtain ⟨rfl, htag⟩ := hg.full hj hr
  rw [htag]
  exact ⟨hj, hg.awaits rfl, rfl⟩

/-! ## One source for each token -/

/-- The token is at the source. -/
def Tok.At : Tok → Source → Prop
  | .queued n, .request n' _ => n' = n
  | .handling, .handler => True
  | .responding, .response _ => True
  | .swapping, .dispatcher | .sending, .dispatcher => True
  | .failing e _, .expander e' => e' = e
  | .full _, .channel _ => True
  | _, _ => False

/-- A source of a completion has the token of its connection. -/
theorem Good.at_of_pending {tok : Tok} {h : Handoff} (hT : Tokens s) (hg : Good s h.1 tok)
    (hreq : ∀ n, ∀ m ∈ s.reqQ n, m.cmd = .process → s.LiveReq m) {src : Source}
    (hp : s.Pending h src) : tok.At src ∧ h.2 = (s.conns h.1).handoffs := by
  cases src with
  | request n p =>
    obtain ⟨m, hm, hcmd, rfl⟩ := hp
    have hmem := List.mem_of_getElem? hm
    obtain ⟨-, ha, hk⟩ := hreq n m hmem hcmd
    obtain ⟨rfl, -⟩ := hg.queued ha hmem (by simp [Msg.isRequest, hcmd, hk])
    exact ⟨rfl, hk.symm⟩
  | handler =>
    obtain ⟨y, hy, hact⟩ := hp
    obtain ⟨rfl, hk⟩ := hg.handling (k := h.2) hy hact
    exact ⟨trivial, hk⟩
  | response p =>
    obtain ⟨m, hm, hcmd, rfl⟩ := hp
    obtain ⟨rfl, hmsg⟩ := hg.responding (List.mem_of_getElem? hm) (by simp [Msg.isResponse, hcmd])
    exact ⟨trivial, congrArg (·.tag.2) hmsg⟩
  | dispatcher =>
    rcases hp with ⟨slot, hd⟩ | ⟨c, hd⟩
    · obtain ⟨rfl, -, hk⟩ := hg.swapping hd
      exact ⟨trivial, hk⟩
    · obtain ⟨rfl, -, hk⟩ := hg.sending hd
      exact ⟨trivial, hk⟩
  | expander e =>
    obtain ⟨x, hx, rfl, href⟩ := hp
    obtain rfl := hg.failing hx href
    exact ⟨rfl, congrArg Prod.snd hg.ok.2.2.1⟩
  | channel ch =>
    obtain ⟨r, hr, rfl⟩ := hp
    obtain ⟨hheld, -, hk⟩ := hT.full hr
    obtain ⟨rfl, -⟩ := hg.full hheld hr
    exact ⟨trivial, hk.symm⟩

/-- Two sources of completions of one handoff are the same. -/
theorem Good.pending_unique {tok : Tok} {h : Handoff} (hT : Tokens s) (hg : Good s h.1 tok)
    (hreq : ∀ n, ∀ m ∈ s.reqQ n, m.cmd = .process → s.LiveReq m) {src src' : Source}
    (hp : s.Pending h src) (hp' : s.Pending h src') : src = src' := by
  have hat := (hg.at_of_pending hT hreq hp).1
  have hat' := (hg.at_of_pending hT hreq hp').1
  have hh : (h.1, (s.conns h.1).handoffs) = h :=
    Prod.ext rfl (hg.at_of_pending hT hreq hp).2.symm
  have hv := hg.view
  cases tok with
  | none => cases src <;> exact hat.elim
  | queued n =>
    have hf := congrFun (congrArg View.reqs hv) n
    simp only [State.view, hg.awaits rfl, if_true, Tok.view, Function.update_self, hh] at hf
    obtain ⟨p₀, -, huniq⟩ := exists_getElem_of_filter hf
    cases src with
    | request n₁ p =>
      cases src' with
      | request n₂ p' =>
        obtain rfl : n₁ = n := hat
        obtain rfl : n₂ = n₁ := hat'
        obtain ⟨m, hm, hcmd, htag⟩ := hp
        obtain ⟨m', hm', hcmd', htag'⟩ := hp'
        rw [huniq p m hm (by simp [Msg.isRequest, hcmd, htag]),
          huniq p' m' hm' (by simp [Msg.isRequest, hcmd', htag'])]
      | _ => exact hat'.elim
    | _ => exact hat.elim
  | responding =>
    have hf := congrArg View.resps hv
    simp only [State.view, Tok.view] at hf
    obtain ⟨p₀, -, huniq⟩ := exists_getElem_of_filter hf
    cases src with
    | response p =>
      cases src' with
      | response p' =>
        obtain ⟨m, hm, hcmd, htag⟩ := hp
        obtain ⟨m', hm', hcmd', htag'⟩ := hp'
        rw [huniq p m hm (by simp [Msg.isResponse, hcmd, htag]),
          huniq p' m' hm' (by simp [Msg.isResponse, hcmd', htag'])]
      | _ => exact hat'.elim
    | _ => exact hat.elim
  | full ok =>
    cases src with
    | channel ch =>
      cases src' with
      | channel ch' =>
        obtain ⟨r, hr, htag⟩ := hp
        obtain ⟨r', hr', htag'⟩ := hp'
        have hheld := (hT.full hr).1
        have hheld' := (hT.full hr').1
        rw [htag] at hheld
        rw [htag'] at hheld'
        rw [Option.some.inj (hheld.symm.trans hheld')]
      | _ => exact hat'.elim
    | _ => exact hat.elim
  | failing e x =>
    cases src with
    | expander e₁ =>
      cases src' with
      | expander e₂ =>
        obtain rfl : e₁ = e := hat
        obtain rfl : e₂ = e₁ := hat'
        rfl
      | _ => exact hat'.elim
    | _ => exact hat.elim
  | handling =>
    cases src with
    | handler =>
      cases src' with
      | handler => rfl
      | _ => exact hat'.elim
    | _ => exact hat.elim
  | swapping | sending =>
    cases src with
    | dispatcher =>
      cases src' with
      | dispatcher => rfl
      | _ => exact hat'.elim
    | _ => exact hat.elim

theorem DispPC.eq_of_on {p q : DispPC} (h : p.on i = q) (hq : q ≠ .idle) : p = q := by
  subst h
  cases p with
  | idle => exact absurd rfl hq
  | owner slot tag => exact absurd rfl hq
  | swap slot tag | send c tag =>
    simp only [DispPC.on] at hq ⊢
    split_ifs at hq ⊢
    · rfl
    · exact absurd rfl hq

/-- A handoff that is waited for has a source. -/
theorem Tokens.exists_pending (hT : Tokens s) (ha : (s.conns i).pc.awaits = true) :
    ∃ src, s.Pending (i, (s.conns i).handoffs) src := by
  obtain ⟨tok, hg⟩ := hT.good i
  have hv := hg.view
  cases tok with
  | none =>
    have := hg.live
    rw [ha] at this
    cases this
  | queued n =>
    have hf := congrFun (congrArg View.reqs hv) n
    simp only [State.view, ha, if_true, Tok.view, Function.update_self] at hf
    obtain ⟨p, hp, -⟩ := exists_getElem_of_filter hf
    exact ⟨.request n p, _, hp, rfl, rfl⟩
  | handling =>
    obtain ⟨-, y, hy, -, -⟩ := hg.ok
    refine ⟨.handler, y, hy, ?_⟩
    have hf := congrFun (congrArg View.active hv) (s.conns i).handoffs
    simpa only [State.view, hy, Option.any_some, Tok.view, Function.update_self] using hf
  | responding =>
    have hf := congrArg View.resps hv
    simp only [State.view, Tok.view] at hf
    obtain ⟨p, hp, -⟩ := exists_getElem_of_filter hf
    exact ⟨.response p, _, hp, rfl, rfl⟩
  | swapping =>
    have hf : s.disp.on i = .swap (s.conns i).slotID (i, (s.conns i).handoffs) :=
      congrArg View.disp hv
    exact ⟨.dispatcher, .inl ⟨_, DispPC.eq_of_on hf DispPC.noConfusion⟩⟩
  | sending =>
    have hf : s.disp.on i = .send i (i, (s.conns i).handoffs) := congrArg View.disp hv
    exact ⟨.dispatcher, .inr ⟨_, DispPC.eq_of_on hf DispPC.noConfusion⟩⟩
  | failing e x =>
    have hf := congrFun (congrArg View.exps hv) e
    simp only [State.view, Tok.view, Function.update_self] at hf
    obtain ⟨hx, href⟩ := Option.filter_eq_some_iff.1 hf
    simp only [Expander.refusesFor, Bool.and_eq_true] at href
    exact ⟨.expander e, x, hx, hg.ok.2.2.1, href.2⟩
  | full ok =>
    have hf := congrArg View.chan hv
    simp only [State.view, Tok.view] at hf
    obtain ⟨ch, -, hch⟩ := Option.bind_eq_some_iff.1 hf
    exact ⟨.channel ch, _, hch, rfl⟩

end Mmfg.Hub
