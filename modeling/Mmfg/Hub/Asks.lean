import Mmfg.Hub.Nodes

/-!
# One expansion at a time

A handler that waits for each expansion it asks for (`Waits`) has at most one on its way: as a
request in the response queue, at the dispatch loop, in a goroutine that may still extend the header,
or as READY in the queue of its node.  While it is on its way the handler runs, has not been refused
anything and does nothing (`Asking`).
-/

namespace Mmfg.Hub

open Shm

/-! ## Conditions on steps -/

/-- A handler waits for each expansion that it has asked for before it does anything else. -/
def Waits (s : State) : Action → Prop
  | .hand h _ => ∀ y ∈ s.handlers h, y.pending = 0
  | _ => True

/-- A handler that was refused an expansion writes nothing and asks for nothing any more. -/
def RefusedIdle (s : State) : Action → Prop
  | .hand h (.poke ..) | .hand h (.setLen _) | .hand h .request =>
    ∀ y ∈ s.handlers h, y.refused = false
  | _ => True

/-! ## Functions with at most one count -/

/-- The function is 1 at one point and 0 elsewhere, or 0 everywhere. -/
def Lone {α : Type} [DecidableEq α] (f : α → ℕ) : Prop := ∀ p, 0 < f p → f = Pi.single p 1

section Lone

variable {α : Type} [DecidableEq α] {f g : α → ℕ} {p q : α}

theorem lone_zero : Lone (0 : α → ℕ) := fun _ hp => absurd hp (lt_irrefl 0)

theorem lone_single (p : α) : Lone (Pi.single p 1) := by
  intro q hq
  by_cases h : q = p
  · rw [h]
  · rw [Pi.single_eq_of_ne h] at hq
    exact absurd hq (lt_irrefl 0)

theorem Lone.eq_of_pos (h : Lone f) (hp : 0 < f p) (hq : 0 < f q) : p = q := by
  have hf := h q hq
  by_contra hne
  rw [hf, Pi.single_eq_of_ne hne] at hp
  exact absurd hp (lt_irrefl 0)

/-- The one count goes from `p` to `q`. -/
theorem Lone.move (h : Lone f) (hp : 0 < f p) (hg : g + Pi.single p 1 = f + Pi.single q 1) :
    g = Pi.single q 1 := by
  rw [h p hp, add_comm] at hg
  exact add_left_cancel hg

theorem Lone.drop (h : Lone f) (hg : g + Pi.single p 1 = f) : g = 0 := by
  have hp : 0 < f p := by
    rw [← hg, Pi.add_apply, Pi.single_eq_same]
    exact Nat.succ_pos _
  have hf := h p hp
  rw [← hg] at hf
  exact add_right_cancel (hf.trans (zero_add _).symm)

end Lone

/-! ## Expansions on their way -/

/-- A request of the handler of `h`. -/
def Msg.asks (h : Handoff) (m : Msg) : Bool := decide (m.cmd = .requestExpand ∧ m.tag = h)

/-- The answer READY to a request of the handler of `h`. -/
def Msg.readies (h : Handoff) (m : Msg) : Bool := decide (m.cmd = .expandReady ∧ m.tag = h)

/-- The expansion has not been refused, and READY has not been sent. -/
def ExpPC.live : ExpPC → Bool
  | .header | .decode _ | .check .. | .alloc .. | .rewrite .. | .respond true => true
  | _ => false

/-- The goroutine works on a request of the handler of `h`. -/
def Expander.liveFor (h : Handoff) (x : Expander) : Bool := decide (x.tag = h) && x.pc.live

/-- The dispatch loop is about to start such a goroutine. -/
def DispPC.owns (h : Handoff) : DispPC → Bool
  | .owner _ tag => decide (tag = h)
  | _ => false

/-- Where an expansion is on its way. -/
inductive Place
  | resp
  | disp
  | exp (e : ℕ)
  | ready (n : ℕ)
  deriving DecidableEq

/-- How many expansions of a handler are at each place. -/
def State.asked (s : State) (h : Handoff) : Place → ℕ
  | .resp => s.respQ.countP (Msg.asks h)
  | .disp => (s.disp.owns h).toNat
  | .exp e => ((s.exps e).any (Expander.liveFor h)).toNat
  | .ready n => (s.reqQ n).countP (Msg.readies h)

/-- At most one expansion of each handler is on its way, and while one is, the handler waits; READY
names the slot of the handler. -/
structure Asking (s : State) : Prop where
  lone : ∀ h, Lone (s.asked h)
  waits : ∀ h p, 0 < s.asked h p →
    ∃ y, s.handlers h = some y ∧ y.pc = .running ∧ y.refused = false ∧ 1 ≤ y.pending
  ready : ∀ n, ∀ m ∈ s.reqQ n, m.cmd = .expandReady → s.HandlerOn m.tag m.slot

theorem asking_newHub (mem : BlockId → Bytes) : Asking (newHub mem) := by
  have h0 : ∀ h, (newHub mem).asked h = 0 := fun h => funext fun p => by cases p <;> rfl
  refine ⟨fun h => ?_, fun h p hp => ?_, fun n m hm => by cases hm⟩
  · rw [h0]
    exact lone_zero
  · rw [h0] at hp
    exact absurd hp (lt_irrefl 0)

variable {s t : State}

theorem Asking.active (h : Asking s) {k : Handoff} {p : Place} (hp : 0 < s.asked k p) :
    ∃ y, s.handlers k = some y ∧ y.active = true := by
  obtain ⟨y, hy, hpc, hr, -⟩ := h.waits k p hp
  exact ⟨y, hy, by simp [Handler.active, hpc, hr]⟩

theorem asked_ne_zero {k : Handoff} {p : Place} (h : 0 < s.asked k p) : s.asked k ≠ 0 := by
  intro h0
  rw [h0] at h
  exact absurd h (lt_irrefl 0)

theorem asked_eq_zero {k : Handoff} (h : ∀ p, ¬ 0 < s.asked k p) : s.asked k = 0 :=
  funext fun p => Nat.eq_zero_of_not_pos (h p)

/-- A handler without pending expansions has none on its way. -/
theorem Asking.none (h : Asking s) {k : Handoff} {y : Handler} (hy : s.handlers k = some y)
    (h0 : y.pending = 0) : s.asked k = 0 := by
  refine asked_eq_zero fun p hp => ?_
  obtain ⟨z, hz, -, -, hpend⟩ := h.waits k p hp
  obtain rfl := Option.some.inj (hy.symm.trans hz)
  omega

theorem asked_congr (hresp : ∀ k, t.respQ.countP (Msg.asks k) = s.respQ.countP (Msg.asks k))
    (hdisp : ∀ k, t.disp.owns k = s.disp.owns k)
    (hexps : ∀ e k, (t.exps e).any (Expander.liveFor k) = (s.exps e).any (Expander.liveFor k))
    (hreq : ∀ n k, (t.reqQ n).countP (Msg.readies k) = (s.reqQ n).countP (Msg.readies k)) :
    ∀ k, t.asked k = s.asked k := by
  intro k
  funext p
  cases p with
  | resp => exact hresp k
  | disp => exact congrArg Bool.toNat (hdisp k)
  | exp e => exact congrArg Bool.toNat (hexps e k)
  | ready n => exact hreq n k

/-- Handlers that wait go on waiting. -/
def KeepsWaiting (s t : State) : Prop := ∀ k y, s.asked k ≠ 0 → s.handlers k = some y →
  ∃ y', t.handlers k = some y' ∧ y'.pc = y.pc ∧ y'.refused = y.refused ∧ y'.pending = y.pending

theorem keepsWaiting_refl (h : t.handlers = s.handlers) : KeepsWaiting s t := fun _ y _ hy =>
  ⟨y, by rw [h]; exact hy, rfl, rfl, rfl⟩

/-- Only handler `k` changes, and it has no expansion on its way. -/
theorem keepsWaiting_update {k : Handoff} {y : Option Handler} (h0 : s.asked k = 0)
    (ht : t.handlers = Function.update s.handlers k y) : KeepsWaiting s t := by
  intro k' z hne hz
  have hk : k' ≠ k := by
    rintro rfl
    exact hne h0
  exact ⟨z, by rw [ht, Function.update_of_ne hk]; exact hz, rfl, rfl, rfl⟩

theorem KeepsWaiting.waits (hw : KeepsWaiting s t) (h : Asking s) {k : Handoff} {p : Place}
    (hp : 0 < s.asked k p) :
    ∃ y, t.handlers k = some y ∧ y.pc = .running ∧ y.refused = false ∧ 1 ≤ y.pending := by
  obtain ⟨y, hy, hpc, hr, hpend⟩ := h.waits k p hp
  obtain ⟨y', hy', h1, h2, h3⟩ := hw k y (asked_ne_zero hp) hy
  exact ⟨y', hy', by rw [h1, hpc], by rw [h2, hr], by rw [h3]; exact hpend⟩

/-- READY still names the slot of its handler. -/
def ReadySlots (s t : State) : Prop := ∀ n, ∀ m ∈ t.reqQ n, m.cmd = .expandReady →
  m ∈ s.reqQ n ∨ t.HandlerOn m.tag m.slot

theorem ReadySlots.ready (hr : ReadySlots s t) (h : Asking s) (hp : Places s t) :
    ∀ n, ∀ m ∈ t.reqQ n, m.cmd = .expandReady → t.HandlerOn m.tag m.slot := by
  intro n m hm hcmd
  rcases hr n m hm hcmd with hm | hon
  · exact (h.ready n m hm hcmd).mono hp
  · exact hon

/-- Nothing that is on its way moves. -/
theorem Asking.same (h : Asking s) (hasked : ∀ k, t.asked k = s.asked k) (hw : KeepsWaiting s t)
    (hp : Places s t) (hr : ReadySlots s t) : Asking t := by
  refine ⟨fun k => by rw [hasked]; exact h.lone k, fun k p hpos => ?_, hr.ready h hp⟩
  rw [hasked] at hpos
  exact hw.waits h hpos

/-- The expansion of handler `k` moves from `p` to `q`. -/
theorem Asking.move (h : Asking s) {k : Handoff} {p q : Place} (hpos : 0 < s.asked k p)
    (hk : t.asked k + Pi.single p 1 = s.asked k + Pi.single q 1)
    (hother : ∀ k', k' ≠ k → t.asked k' = s.asked k') (hhand : t.handlers = s.handlers)
    (hr : ReadySlots s t) : Asking t := by
  have hnew := (h.lone k).move hpos hk
  refine ⟨fun k' => ?_, fun k' p' hpos' => ?_, hr.ready h (places_refl hhand)⟩
  · by_cases he : k' = k
    · rw [he, hnew]
      exact lone_single q
    · rw [hother k' he]
      exact h.lone k'
  · rw [hhand]
    by_cases he : k' = k
    · rw [he]
      exact h.waits k p hpos
    · rw [hother k' he] at hpos'
      exact h.waits k' p' hpos'

/-- The expansion of handler `k` is no longer on its way; only that handler may have changed. -/
theorem Asking.drop (h : Asking s) {k : Handoff} {p : Place}
    (hk : t.asked k + Pi.single p 1 = s.asked k)
    (hother : ∀ k', k' ≠ k → t.asked k' = s.asked k')
    (hhand : ∀ k', k' ≠ k → s.asked k' ≠ 0 → t.handlers k' = s.handlers k') (hp : Places s t)
    (hr : ReadySlots s t) : Asking t := by
  have hnew := (h.lone k).drop hk
  refine ⟨fun k' => ?_, fun k' p' hpos => ?_, hr.ready h hp⟩
  · by_cases he : k' = k
    · rw [he, hnew]
      exact lone_zero
    · rw [hother k' he]
      exact h.lone k'
  · by_cases he : k' = k
    · rw [he, hnew] at hpos
      exact absurd hpos (lt_irrefl 0)
    · rw [hother k' he] at hpos
      rw [hhand k' he (asked_ne_zero hpos)]
      exact h.waits k' p' hpos

/-! ## The steps of the hub -/

theorem countP_cons_eq {α : Type} {p : α → Bool} {a : α} {l : List α} (h : p a = false) :
    (a :: l).countP p = l.countP p :=
  List.countP_cons_of_neg (by rw [h]; exact Bool.false_ne_true)

theorem countP_concat_eq {α : Type} {p : α → Bool} {a : α} {l : List α} (h : p a = false) :
    (l ++ [a]).countP p = l.countP p := by
  rw [List.countP_append, countP_cons_eq h, List.countP_nil, Nat.add_zero]

theorem countP_pushReq {p : Msg → Bool} {n : ℕ} {m : Msg}
    (ht : t.reqQ = Function.update s.reqQ n (s.reqQ n ++ [m])) (hm : p m = false) (n' : ℕ) :
    (t.reqQ n').countP p = (s.reqQ n').countP p := by
  rw [ht]
  by_cases hn : n' = n
  · rw [hn, Function.update_self, countP_concat_eq hm]
  · rw [Function.update_of_ne hn]

theorem readySlots_pushReq {n : ℕ} {m : Msg}
    (ht : t.reqQ = Function.update s.reqQ n (s.reqQ n ++ [m]))
    (hm : m.cmd = .expandReady → t.HandlerOn m.tag m.slot) : ReadySlots s t := by
  intro n' m' hm' hcmd
  rw [ht] at hm'
  by_cases hn : n' = n
  · rw [hn, Function.update_self, List.mem_append, List.mem_singleton] at hm'
    rcases hm' with hm' | rfl
    · rw [hn]
      exact .inl hm'
    · exact .inr (hm hcmd)
  · rw [Function.update_of_ne hn] at hm'
    exact .inl hm'

theorem readySlots_refl (h : t.reqQ = s.reqQ) : ReadySlots s t := by
  intro n m hm _
  rw [h] at hm
  exact .inl hm

/-- Requests and goroutines are as before, and so are the handlers. -/
theorem Asking.other (h : Asking s) (hresp : t.respQ = s.respQ) (hdisp : t.disp = s.disp)
    (hexps : t.exps = s.exps) (hreq : t.reqQ = s.reqQ) (hhand : t.handlers = s.handlers) :
    Asking t := by
  refine h.same (asked_congr ?_ ?_ ?_ ?_) (keepsWaiting_refl hhand) (places_refl hhand)
    (readySlots_refl hreq)
  · rw [hresp]
    exact fun _ => rfl
  · rw [hdisp]
    exact fun _ => rfl
  · rw [hexps]
    exact fun _ _ => rfl
  · rw [hreq]
    exact fun _ _ => rfl

theorem Asking.connStep (h : Asking s) {i : ℕ} {c : Conn} {a : ConnAct} (hs : ConnStep s i c a t) :
    Asking t := by
  cases hs with
  | push hpc =>
    refine h.same (asked_congr (fun _ => rfl) (fun _ => rfl) (fun _ _ => rfl) fun n k => ?_)
      (keepsWaiting_refl rfl) (places_refl rfl) (readySlots_pushReq rfl fun hm => by cases hm)
    exact countP_pushReq rfl (by simp [Msg.readies]) n
  | _ => exact h.other rfl rfl rfl rfl rfl

theorem Asking.dispStep (h : Asking s) (hs : DispStep s t) : Asking t := by
  cases hs with
  | @process m q hd hq hm =>
    refine h.same (asked_congr (fun k => ?_) (fun k => ?_) (fun _ _ => rfl) fun _ _ => rfl)
      (keepsWaiting_refl rfl) (places_refl rfl) (readySlots_refl rfl)
    · rw [hq, countP_cons_eq (by simp [Msg.asks, hm])]
    · rw [hd]
      rfl
  | @expand m q hd hq hm =>
    have hasks : m.asks m.tag = true := by simp [Msg.asks, hm]
    refine h.move (k := m.tag) (p := .resp) (q := .disp) ?_ ?_ (fun k hk => ?_) rfl
      (readySlots_refl rfl)
    · change 0 < s.respQ.countP _
      rw [hq, List.countP_cons_of_pos hasks]
      exact Nat.succ_pos _
    · funext p
      cases p with
      | resp =>
        change q.countP _ + _ = s.respQ.countP _ + _
        rw [hq, List.countP_cons_of_pos hasks, Pi.single_eq_same, Pi.single_eq_of_ne (by simp),
          Nat.add_zero]
      | disp =>
        change (DispPC.owns m.tag (.owner m.slot m.tag)).toNat + _ = (s.disp.owns m.tag).toNat + _
        rw [hd, Pi.single_eq_same, Pi.single_eq_of_ne (by simp)]
        simp [DispPC.owns]
      | exp e | ready n =>
        rw [Pi.add_apply, Pi.add_apply, Pi.single_eq_of_ne (by simp), Pi.single_eq_of_ne (by simp)]
        rfl
    · refine funext fun p => ?_
      cases p with
      | resp =>
        change q.countP _ = s.respQ.countP _
        rw [hq, countP_cons_eq (by simp [Msg.asks, Ne.symm hk])]
      | disp =>
        change (DispPC.owns k (.owner m.slot m.tag)).toNat = (s.disp.owns k).toNat
        rw [hd]
        simp [DispPC.owns, Ne.symm hk]
      | exp e | ready n => rfl
  | @skip m q hd hq hm =>
    refine h.same (asked_congr (fun k => ?_) (fun _ => rfl) (fun _ _ => rfl) fun _ _ => rfl)
      (keepsWaiting_refl rfl) (places_refl rfl) (readySlots_refl rfl)
    rw [hq, countP_cons_eq (by simp [Msg.asks, hm.2])]
  | swap hd hw | drop hd hw | send hd hc hch =>
    refine h.same (asked_congr (fun _ => rfl) (fun k => ?_) (fun _ _ => rfl) fun _ _ => rfl)
      (keepsWaiting_refl rfl) (places_refl rfl) (readySlots_refl rfl)
    rw [hd]
    rfl
  | @spawn slot e tag hd he =>
    refine h.move (k := tag) (p := .disp) (q := .exp e) ?_ ?_ (fun k hk => ?_) rfl
      (readySlots_refl rfl)
    · change 0 < (s.disp.owns tag).toNat
      simp [hd, DispPC.owns]
    · funext p
      cases p with
      | disp =>
        change 0 + _ = (s.disp.owns tag).toNat + _
        rw [hd, Pi.single_eq_same, Pi.single_eq_of_ne (by simp)]
        simp [DispPC.owns]
      | exp e' =>
        change (Option.any _ (Function.update s.exps e _ e')).toNat + _ =
          ((s.exps e').any _).toNat + _
        rw [Pi.single_eq_of_ne (by simp)]
        by_cases hee : e' = e
        · subst hee
          rw [Function.update_self, Pi.single_eq_same, he]
          change (decide (tag = tag) && true).toNat + 0 = 0 + 1
          simp
        · rw [Function.update_of_ne hee, Pi.single_eq_of_ne (by simp [hee])]
      | resp | ready n =>
        rw [Pi.add_apply, Pi.add_apply, Pi.single_eq_of_ne (by simp), Pi.single_eq_of_ne (by simp)]
        rfl
    · refine funext fun p => ?_
      cases p with
      | disp =>
        change 0 = (s.disp.owns k).toNat
        simp [hd, DispPC.owns, Ne.symm hk]
      | exp e' =>
        change (Option.any _ (Function.update s.exps e _ e')).toNat = ((s.exps e').any _).toNat
        by_cases hee : e' = e
        · subst hee
          rw [Function.update_self, he]
          simp [Expander.liveFor, Ne.symm hk]
        · rw [Function.update_of_ne hee]
      | resp | ready n => rfl

section Expanders

variable {e : ℕ} {x x' : Expander}

theorem any_setExp (hx : s.exps e = some x) (ht : t.exps = Function.update s.exps e (some x'))
    {k : Handoff} (hlive : x'.liveFor k = x.liveFor k) (e' : ℕ) :
    (t.exps e').any (Expander.liveFor k) = (s.exps e').any (Expander.liveFor k) := by
  rw [ht]
  by_cases he : e' = e
  · rw [he, Function.update_self, hx, Option.any_some, Option.any_some, hlive]
  · rw [Function.update_of_ne he]

theorem asked_exp (hx : s.exps e = some x) (hlive : x.pc.live = true) :
    0 < s.asked x.tag (.exp e) := by
  change 0 < ((s.exps e).any _).toNat
  simp [hx, Expander.liveFor, hlive]

theorem liveFor_of_tag {k : Handoff} (hk : k ≠ x.tag) : x.liveFor k = false := by
  simp [Expander.liveFor, Ne.symm hk]

theorem Asking.expSame (h : Asking s) (hx : s.exps e = some x)
    (ht : t.exps = Function.update s.exps e (some x')) (htag : x'.tag = x.tag)
    (hlive : x'.pc.live = x.pc.live) (hresp : t.respQ = s.respQ) (hdisp : t.disp = s.disp)
    (hreq : ∀ n k, (t.reqQ n).countP (Msg.readies k) = (s.reqQ n).countP (Msg.readies k))
    (hhand : t.handlers = s.handlers) (hr : ReadySlots s t) : Asking t := by
  refine h.same (asked_congr ?_ ?_ (fun e' k => any_setExp hx ht ?_ e') hreq)
    (keepsWaiting_refl hhand) (places_refl hhand) hr
  · rw [hresp]
    exact fun _ => rfl
  · rw [hdisp]
    exact fun _ => rfl
  · rw [Expander.liveFor, Expander.liveFor, htag, hlive]

theorem Asking.expDrop (h : Asking s) (hx : s.exps e = some x)
    (ht : t.exps = Function.update s.exps e (some x')) (htag : x'.tag = x.tag)
    (hlive : x.pc.live = true) (hlive' : x'.pc.live = false) (hresp : t.respQ = s.respQ)
    (hdisp : t.disp = s.disp) (hreq : t.reqQ = s.reqQ)
    (hhand : ∀ k, k ≠ x.tag → t.handlers k = s.handlers k) (hp : Places s t) : Asking t := by
  refine h.drop (k := x.tag) (p := .exp e) ?_ (fun k hk => ?_) (fun k hk _ => hhand k hk) hp
    (readySlots_refl hreq)
  · funext p
    cases p with
    | exp e' =>
      change (Option.any _ (t.exps e')).toNat + _ = ((s.exps e').any _).toNat
      rw [ht]
      by_cases he : e' = e
      · subst he
        rw [Function.update_self, Pi.single_eq_same, hx]
        simp [Expander.liveFor, hlive, hlive']
      · rw [Function.update_of_ne he, Pi.single_eq_of_ne (by simp [he]), Nat.add_zero]
    | resp | disp | ready n =>
      rw [Pi.add_apply, Pi.single_eq_of_ne (by simp), Nat.add_zero]
      simp only [State.asked, hresp, hdisp, hreq]
  · refine funext fun p => ?_
    cases p with
    | exp e' =>
      refine congrArg Bool.toNat (any_setExp hx ht ?_ e')
      rw [liveFor_of_tag hk, liveFor_of_tag (htag ▸ hk)]
    | resp | disp | ready n => simp only [State.asked, hresp, hdisp, hreq]

theorem Asking.expReady (h : Asking s) (hx : s.exps e = some x) (hpc : x.pc = .respond true)
    (hon : s.HandlerOn x.tag x.slot) :
    Asking ((s.pushReq x.node ⟨x.slot, .expandReady, x.tag⟩).setExp e { x with pc := .gone }) := by
  have hlive : x.pc.live = true := by
    rw [hpc]
    rfl
  refine h.move (k := x.tag) (p := .exp e) (q := .ready x.node) (asked_exp hx hlive) ?_
    (fun k hk => ?_) rfl (readySlots_pushReq rfl fun _ => hon)
  · funext p
    cases p with
    | exp e' =>
      change (Option.any _ (Function.update s.exps e _ e')).toNat + _ = ((s.exps e').any _).toNat + _
      rw [Pi.single_eq_of_ne (by simp : Place.exp e' ≠ .ready x.node), Nat.add_zero]
      by_cases he : e' = e
      · subst he
        rw [Function.update_self, Pi.single_eq_same, hx]
        change (decide (x.tag = x.tag) && false).toNat + 1 = (decide (x.tag = x.tag) && x.pc.live).toNat
        simp [hlive]
      · rw [Function.update_of_ne he, Pi.single_eq_of_ne (by simp [he]), Nat.add_zero]
    | ready n =>
      change (Function.update s.reqQ x.node _ n).countP _ + _ = (s.reqQ n).countP _ + _
      rw [Pi.single_eq_of_ne (by simp : Place.ready n ≠ .exp e), Nat.add_zero]
      by_cases hn : n = x.node
      · subst hn
        rw [Function.update_self, Pi.single_eq_same, List.countP_append]
        simp [Msg.readies]
      · rw [Function.update_of_ne hn, Pi.single_eq_of_ne (by simp [hn]), Nat.add_zero]
    | resp | disp =>
      rw [Pi.add_apply, Pi.add_apply, Pi.single_eq_of_ne (by simp), Pi.single_eq_of_ne (by simp)]
      rfl
  · refine funext fun p => ?_
    cases p with
    | exp e' =>
      refine congrArg Bool.toNat (any_setExp hx rfl ?_ e')
      exact (liveFor_of_tag (x := { x with pc := .gone }) hk).trans (liveFor_of_tag hk).symm
    | ready n => exact countP_pushReq rfl (by simp [Msg.readies, Ne.symm hk]) n
    | resp | disp => rfl

theorem Asking.expStep (h : Asking s) (ha : Asks s) {a : ExpAct} (hx : s.exps e = some x)
    (hs : ExpStep s e x a t) : Asking t := by
  -- a refusal changes the handler that asked, and no other
  have hrefuse : ∀ x' : Expander, x'.tag = x.tag → x.pc.live = true → x'.pc.live = false →
      Asking ((s.refuse x.tag).setExp e x') := by
    intro x' htag hlive hlive'
    obtain ⟨y, hy, -⟩ := h.waits _ _ (asked_exp hx hlive)
    have hhand : ((s.refuse x.tag).setExp e x').handlers =
        Function.update s.handlers x.tag (some { y with refused := true }) := by
      change Function.update s.handlers x.tag _ = _
      rw [hy]
      rfl
    refine h.expDrop hx rfl htag hlive hlive' rfl rfl rfl (fun k hk => ?_)
      (places_update hy hhand rfl rfl)
    rw [hhand, Function.update_of_ne hk]
  cases hs with
  | header hpc | decode hpc | check hpc ho | take hpc hb | commit hpc hn | rewrite hpc | undo hpc
  | undoEnd hpc | errorLost hpc | load hpc hw | loadNil hpc hw | send hpc hc hch =>
    exact h.expSame hx rfl rfl (by rw [hpc]; rfl) rfl rfl (fun _ _ => rfl) rfl (readySlots_refl rfl)
  | refuse hpc ho => exact hrefuse _ rfl (by rw [hpc]; rfl) rfl
  | fail hpc => exact hrefuse _ rfl (by rw [hpc]; rfl) rfl
  | ready hpc => exact h.expReady hx hpc (ha.exp e x hx)
  | readyLost hpc =>
    exact h.expDrop hx rfl rfl (by rw [hpc]; rfl) rfl rfl rfl rfl (fun _ _ => rfl) (places_refl rfl)
  | error hpc =>
    refine h.expSame hx rfl rfl (by rw [hpc]; rfl) rfl rfl (fun n k => ?_) rfl
      (readySlots_pushReq rfl fun hm => by cases hm)
    exact countP_pushReq rfl (by simp [Msg.readies]) n

end Expanders

/-! ## The steps of the nodes -/

/-- Two active handlers do not share a slot. -/
theorem Tokens.active_unique (h : Tokens s) {k k' : Handoff} {y y' : Handler}
    (hy : s.handlers k = some y) (hy' : s.handlers k' = some y') (ha : y.active = true)
    (ha' : y'.active = true) (hslot : y.slot = y'.slot) : k = k' := by
  obtain ⟨tok, hg⟩ := h.good k.1
  obtain ⟨tok', hg'⟩ := h.good k'.1
  obtain ⟨rfl, hk⟩ := hg.handling (k := k.2) hy ha
  obtain ⟨rfl, hk'⟩ := hg'.handling (k := k'.2) hy' ha'
  obtain ⟨-, z, hz, hzs, -⟩ := hg.ok
  obtain ⟨-, z', hz', hzs', -⟩ := hg'.ok
  rw [← hk] at hz
  rw [← hk'] at hz'
  obtain rfl := Option.some.inj (hy.symm.trans hz)
  obtain rfl := Option.some.inj (hy'.symm.trans hz')
  have hi : k.1 = k'.1 := h.eq_of_slotID (hg.awaits rfl) (hg'.awaits rfl) (by rw [← hzs, ← hzs', hslot])
  refine Prod.ext hi ?_
  rw [hk, hk', hi]

theorem countP_pop {p : Msg → Bool} {n : ℕ} {m : Msg} {q : List Msg} (hq : s.reqQ n = m :: q)
    (ht : t.reqQ = Function.update s.reqQ n q) (hm : p m = false) (n' : ℕ) :
    (t.reqQ n').countP p = (s.reqQ n').countP p := by
  rw [ht]
  by_cases hn : n' = n
  · rw [hn, Function.update_self, hq, countP_cons_eq hm]
  · rw [Function.update_of_ne hn]

theorem readySlots_pop {n : ℕ} {m : Msg} {q : List Msg} (hq : s.reqQ n = m :: q)
    (ht : t.reqQ = Function.update s.reqQ n q) : ReadySlots s t := by
  intro n' m' hm' _
  rw [ht] at hm'
  by_cases hn : n' = n
  · rw [hn, Function.update_self] at hm'
    rw [hn, hq]
    exact .inl (List.mem_cons_of_mem _ hm')
  · rw [Function.update_of_ne hn] at hm'
    exact .inl hm'

theorem Asking.popReady (h : Asking s) {n : ℕ} {m : Msg} {q : List Msg} (hq : s.reqQ n = m :: q)
    (hm : m.cmd = .expandReady) (ht : t.reqQ = Function.update s.reqQ n q)
    (hresp : t.respQ = s.respQ) (hdisp : t.disp = s.disp) (hexps : t.exps = s.exps)
    (hhand : ∀ k, k ≠ m.tag → s.asked k ≠ 0 → t.handlers k = s.handlers k) (hp : Places s t) :
    Asking t := by
  refine h.drop (k := m.tag) (p := .ready n) ?_ (fun k hk => ?_) hhand hp (readySlots_pop hq ht)
  · funext p
    cases p with
    | ready n' =>
      change (t.reqQ n').countP _ + _ = (s.reqQ n').countP _
      rw [ht]
      by_cases hn : n' = n
      · subst hn
        rw [Function.update_self, Pi.single_eq_same, hq,
          List.countP_cons_of_pos (by simp [Msg.readies, hm])]
      · rw [Function.update_of_ne hn, Pi.single_eq_of_ne (by simp [hn]), Nat.add_zero]
    | resp | disp | exp e =>
      rw [Pi.add_apply, Pi.single_eq_of_ne (by simp), Nat.add_zero]
      simp only [State.asked, hresp, hdisp, hexps]
  · refine funext fun p => ?_
    cases p with
    | ready n' => exact countP_pop hq ht (by simp [Msg.readies, Ne.symm hk]) n'
    | resp | disp | exp e => simp only [State.asked, hresp, hdisp, hexps]

theorem asked_ready {n : ℕ} {m : Msg} (hm : m ∈ s.reqQ n) (hcmd : m.cmd = .expandReady) :
    0 < s.asked m.tag (.ready n) :=
  List.countP_pos_iff.2 ⟨m, hm, by simp [Msg.readies, hcmd]⟩

/-- The handler of a request that is still waited for does not exist yet. -/
theorem Tokens.no_handler (h : Tokens s) {n : ℕ} {m : Msg} (hm : m ∈ s.reqQ n)
    (hcmd : m.cmd = .process) (ha : (s.conns m.tag.1).pc.awaits = true)
    (hk : (s.conns m.tag.1).handoffs = m.tag.2) : s.handlers m.tag = none := by
  obtain ⟨tok, hg⟩ := h.good m.tag.1
  obtain ⟨rfl, -⟩ := hg.queued ha hm (by simp [Msg.isRequest, hcmd, hk])
  have hnone := hg.ok.2.2
  rwa [hk] at hnone

/-- A handler hears of an expansion; only its own expansion can be on its way. -/
theorem Asking.popReply (h : Asking s) (hT : Tokens s) {d : SessionId} {m : Msg} {q : List Msg}
    {k : Handoff} {y' : Handler} (hq : s.reqQ d.1 = m :: q)
    (hm : m.cmd = .expandReady ∨ m.cmd = .expandError) (hw : s.waiting d m.slot = some k)
    (ht : t.reqQ = Function.update s.reqQ d.1 q) (hresp : t.respQ = s.respQ)
    (hdisp : t.disp = s.disp) (hexps : t.exps = s.exps)
    (hhand : t.handlers = Function.update s.handlers k (some y')) (hp : Places s t) : Asking t := by
  obtain ⟨y, hy, hslot, hsess⟩ := hT.asks.wait d m.slot k hw
  have hmem : m ∈ s.reqQ d.1 := by
    rw [hq]
    exact List.mem_cons_self
  rcases hm with hm | hm
  · refine h.popReady hq hm ht hresp hdisp hexps (fun k' hk' hne => ?_) hp
    rw [hhand]
    by_cases he : k' = k
    · -- the handler that waits on the slot is the one that READY is for
      subst he
      obtain ⟨z, hz, hact⟩ := h.active (asked_ready hmem hm)
      obtain ⟨z', hz', hzslot⟩ := h.ready _ m hmem hm
      obtain rfl := Option.some.inj (hz.symm.trans hz')
      obtain ⟨p, hpos⟩ : ∃ p, 0 < s.asked k' p := by
        by_contra hno
        exact hne (asked_eq_zero fun p hpos => hno ⟨p, hpos⟩)
      obtain ⟨w, hw', hwact⟩ := h.active hpos
      obtain rfl := Option.some.inj (hy.symm.trans hw')
      exact absurd (hT.active_unique hy hz hwact hact (by rw [hslot, hzslot])) hk'
    · rw [Function.update_of_ne he]
  · have h0 : s.asked k = 0 := by
      refine asked_eq_zero fun p hpos => ?_
      obtain ⟨z, hz, hact⟩ := h.active hpos
      obtain rfl := Option.some.inj (hy.symm.trans hz)
      refine hT.order.hand k y hy hact m ?_ hm hslot.symm
      rw [hsess]
      exact hmem
    refine h.same (asked_congr ?_ ?_ ?_ fun n k' => countP_pop hq ht (by simp [Msg.readies, hm]) n)
      (keepsWaiting_update h0 hhand) hp (readySlots_pop hq ht)
    · rw [hresp]
      exact fun _ => rfl
    · rw [hdisp]
      exact fun _ => rfl
    · rw [hexps]
      exact fun _ _ => rfl

theorem Asking.popStep (h : Asking s) (hT : Tokens s) {d : SessionId} (hok : Live s (.pop d))
    (hs : PopStep s d t) : Asking t := by
  cases hs with
  | @process m q hq hm =>
    obtain ⟨ha, hk⟩ := hok m (by rw [hq]; rfl) hm
    have hnone := hT.no_handler (by rw [hq]; exact List.mem_cons_self) hm ha hk
    have h0 : s.asked m.tag = 0 := by
      refine asked_eq_zero fun p hpos => ?_
      obtain ⟨z, hz, -⟩ := h.waits _ _ hpos
      rw [hnone] at hz
      cases hz
    refine h.same (asked_congr (fun _ => rfl) (fun _ => rfl) (fun _ _ => rfl) fun n k =>
      countP_pop hq rfl (by simp [Msg.readies, hm]) n) (keepsWaiting_update h0 rfl) ?_
      (readySlots_pop hq rfl)
    intro k y hy
    have hne : k ≠ m.tag := by
      rintro rfl
      rw [hnone] at hy
      cases hy
    exact ⟨y, (Function.update_of_ne hne _ _).trans hy, rfl, rfl⟩
  | @reply m q k hq hm hw =>
    obtain ⟨y, hy, hslot, hsess⟩ := hT.asks.wait d m.slot k hw
    rw [hy]
    exact h.popReply hT hq hm hw rfl rfl rfl rfl rfl (places_update hy rfl rfl rfl)
  | @drop m q hq hm =>
    by_cases hr : m.cmd = .expandReady
    · exact h.popReady hq hr rfl rfl rfl rfl (fun _ _ _ => rfl) (places_refl rfl)
    · refine h.same (asked_congr (fun _ => rfl) (fun _ => rfl) (fun _ _ => rfl) fun n k =>
        countP_pop hq rfl (by simp [Msg.readies, hr]) n) (keepsWaiting_refl rfl) (places_refl rfl)
        (readySlots_pop hq rfl)

theorem Asking.handRequest (h : Asking s) {k : Handoff} {y y' : Handler} {m : Msg}
    (hy : s.handlers k = some y) (h0 : s.asked k = 0)
    (hhand : t.handlers = Function.update s.handlers k (some y')) (hslot : y'.slot = y.slot)
    (hsess : y'.session = y.session) (hpc : y'.pc = .running) (hr : y'.refused = false)
    (hpend : 1 ≤ y'.pending) (hresp : t.respQ = s.respQ ++ [m]) (hcmd : m.cmd = .requestExpand)
    (htag : m.tag = k) (hdisp : t.disp = s.disp) (hexps : t.exps = s.exps)
    (hreq : t.reqQ = s.reqQ) : Asking t := by
  have hplaces := places_update hy hhand hslot hsess
  have hk : t.asked k = Pi.single .resp 1 := by
    funext p
    have hp : s.asked k p = 0 := congrFun h0 p
    cases p with
    | resp =>
      change t.respQ.countP _ = _
      rw [hresp, List.countP_append, show s.respQ.countP (Msg.asks k) = 0 from hp,
        Pi.single_eq_same]
      simp [Msg.asks, hcmd, htag]
    | disp | exp e | ready n =>
      rw [Pi.single_eq_of_ne (by simp), ← hp]
      simp only [State.asked, hdisp, hexps, hreq]
  have hother : ∀ k', k' ≠ k → t.asked k' = s.asked k' := by
    intro k' hne
    funext p
    cases p with
    | resp =>
      change t.respQ.countP _ = s.respQ.countP _
      rw [hresp, countP_concat_eq (by simp [Msg.asks, htag, Ne.symm hne])]
    | disp | exp e | ready n => simp only [State.asked, hdisp, hexps, hreq]
  refine ⟨fun k' => ?_, fun k' p hpos => ?_, (readySlots_refl hreq).ready h hplaces⟩
  · by_cases he : k' = k
    · rw [he, hk]
      exact lone_single _
    · rw [hother k' he]
      exact h.lone k'
  · by_cases he : k' = k
    · rw [he, hhand, Function.update_self]
      exact ⟨y', rfl, hpc, hr, hpend⟩
    · rw [hother k' he] at hpos
      rw [hhand, Function.update_of_ne he]
      exact h.waits k' p hpos

theorem Asking.handStep (h : Asking s) {k : Handoff} {y : Handler} {a : HandAct}
    (hy : s.handlers k = some y) (hwait : Waits s (.hand k a)) (hidle : RefusedIdle s (.hand k a))
    (hs : HandStep s k y a t) : Asking t := by
  have h0 : s.asked k = 0 := h.none hy (hwait y hy)
  -- a step that changes the handler alone
  have hset : ∀ y' : Handler, t.handlers = Function.update s.handlers k (some y') →
      y'.slot = y.slot → y'.session = y.session →
      (∀ k, t.respQ.countP (Msg.asks k) = s.respQ.countP (Msg.asks k)) → t.disp = s.disp →
      t.exps = s.exps → t.reqQ = s.reqQ → Asking t := by
    intro y' ht hslot hsess hresp hdisp hexps hreq
    refine h.same (asked_congr hresp ?_ ?_ ?_) (keepsWaiting_update h0 ht)
      (places_update hy ht hslot hsess) (readySlots_refl hreq)
    · rw [hdisp]
      exact fun _ => rfl
    · rw [hexps]
      exact fun _ _ => rfl
    · rw [hreq]
      exact fun _ _ => rfl
  cases hs with
  | poke hpc hb | setLen hpc => exact h.other rfl rfl rfl rfl rfl
  | request hpc =>
    have hr : y.refused = false := hidle y hy
    exact h.handRequest hy h0 rfl rfl rfl hpc hr (Nat.succ_pos _) rfl rfl rfl rfl rfl rfl
  | respond hpc =>
    exact hset _ rfl rfl rfl (fun k' => countP_concat_eq (by simp [Msg.asks])) rfl rfl rfl
  | locate hpc | decode hpc hseq | reload hpc | quit hpc hl hf | finish hpc hl | panic hpc
  | setDone hpc => exact hset _ rfl rfl rfl (fun _ => rfl) rfl rfl rfl

/-- One expansion at a time, in every step that satisfies the conditions. -/
theorem asking_step {a : Action} (h : Asking s) (hT : Tokens s) (hmatch : NoMatch s a)
    (hlive : Live s a) (hwait : Waits s a) (hidle : RefusedIdle s a)
    (hs : hub.step s a = some t) : Asking t := by
  have hsess : t = { s with sessions := t.sessions, names := t.names, ids := t.ids } → Asking t := by
    intro ht
    refine h.other ?_ ?_ ?_ ?_ ?_ <;> rw [ht]
  cases a with
  | dial d name lang => exact hsess (stepDial_eq hs)
  | watch d => exact hsess (hT.slots.stepWatch_eq hmatch hs)
  | conn i a => exact h.connStep (connStep_of_step hs)
  | disp e => exact h.dispStep (dispStep_of_step hs)
  | exp e a =>
    obtain ⟨x, hx, hst⟩ := expStep_of_step hs
    exact h.expStep hT.asks hx hst
  | pop d => exact h.popStep hT hlive (popStep_of_step hs)
  | hand k a =>
    obtain ⟨y, hy, hst⟩ := handStep_of_step hs
    exact h.handStep hy hwait hidle hst

end Mmfg.Hub
