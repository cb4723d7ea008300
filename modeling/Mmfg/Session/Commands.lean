import Mmfg.Session.Table

/-!
# Commands and the sessions they are for

A request queue belongs to a node ID.  If an ID is given to a new session while a hub operation
still has to push to the old one, or while entries are left in the queue, the new session gets
commands that were meant for the old one (`late_push_reaches_new_session`).

`commands_reach_their_session`: this is the only way.  In every run in which IDs are reused only when
the old session is done with, every entry is popped by the session it was pushed for.  The invariant
is that whatever is still going on with an ID concerns the newest session that has it.
-/

namespace Mmfg.Session

variable {ν : Type}

/-- Every entry was popped by the session it was for. -/
def Addressed (s : State ν) : Prop := ∀ e ∈ s.popped, e.1 = e.2

/-- The operation has still to claim or to write its entry. -/
def OpStage.active : OpStage → Bool
  | .found | .claimed => true
  | .pushed | .done => false

/-- The session is neither listed nor looping, and no push to it is under way. -/
def Quiet (s : State ν) (i : ℕ) (x : NodeInfo ν) : Prop :=
  x.looping = false ∧ s.nodes x.name ≠ some i ∧
    ∀ k < s.started, ∀ op ∈ s.ops k, op.target = i → op.stage.active = false

instance (s : State ν) (i : ℕ) (x : NodeInfo ν) : Decidable (Quiet s i x) :=
  inferInstanceAs (Decidable (_ ∧ _ ∧ _))

/-- `Dial` gets an ID whose queue is empty and whose former sessions are quiet. -/
def ReusesQuiet (s : State ν) : Action ν → Prop
  | .dial _ => ∀ id ∈ allocNodeID s.nodeIDs, s.queues id = [] ∧
      ∀ i < s.dialled, ∀ x ∈ s.sessions i, x.nodeID = id → Quiet s i x
  | _ => True

instance (s : State ν) : (a : Action ν) → Decidable (ReusesQuiet s a)
  | .dial _ => inferInstanceAs (Decidable (∀ id ∈ allocNodeID s.nodeIDs, _))
  | .handshake _ | .handshakeFails _ | .newChunksFail _ | .list _ | .disconnect _
  | .cleanupResources _ | .freeNodeID _ | .delete _ | .closeConn _ | .closeEventfd _ | .next _
  | .expandResponse .. | .claim _ | .giveUp _ | .publish _ | .notify _ | .pop _ | .stop _ =>
    inferInstanceAs (Decidable True)

/-! ## The newest session with an ID -/

/-- The ID of a session. -/
def idOf (s : State ν) (i : ℕ) : Option ℕ := (s.sessions i).map NodeInfo.nodeID

/-- The session is the last one that got the ID. -/
def Newest (s : State ν) (i id : ℕ) : Prop :=
  idOf s i = some id ∧ ∀ j, idOf s j = some id → j ≤ i

variable {s t : State ν} {a : Action ν} {i j id : ℕ}

theorem Newest.eq (hi : Newest s i id) (hj : Newest s j id) : i = j :=
  le_antisymm (hj.2 i hi.1) (hi.2 j hj.1)

theorem Newest.congr (h : Newest s i id) (hid : idOf t = idOf s) : Newest t i id := by
  rw [Newest, hid]
  exact h

theorem idOf_eq_some {x : NodeInfo ν} (hx : s.sessions i = some x) : idOf s i = some x.nodeID := by
  rw [idOf, hx, Option.map_some]

theorem idOf_update {x y : NodeInfo ν} (hx : s.sessions i = some x) (hid : y.nodeID = x.nodeID)
    (ht : t.sessions = Function.update s.sessions i (some y)) : idOf t = idOf s := by
  funext j
  rw [idOf, ht]
  by_cases hj : j = i
  · subst hj
    rw [Function.update_self, Option.map_some, hid, idOf_eq_some hx]
  · rw [Function.update_of_ne hj]
    rfl

variable [DecidableEq ν]

/-! ## The invariant -/

/-- The session has its ID, is listed, or its node may pop. -/
def InPlay (s : State ν) (i : ℕ) (x : NodeInfo ν) : Prop := InUse s i x ∨ x.looping = true

/-- Whatever is going on with an ID concerns the newest session that has it. -/
structure Current (s : State ν) : Prop where
  session : ∀ i x, s.sessions i = some x → InPlay s i x → Newest s i x.nodeID
  started : ∀ k op, s.ops k = some op → k < s.started
  op : ∀ k op, s.ops k = some op → op.stage.active = true → ∃ id, Newest s op.target id
  queue : ∀ q, ∀ e ∈ s.queues q, Newest s e.target q
  popped : Addressed s

/-- Only a new session comes into play. -/
theorem inPlay_back (hc : Change s a t) {z : NodeInfo ν} (hz : t.sessions j = some z)
    (hp : InPlay t j z) :
    (∃ w, s.sessions j = some w ∧ w.nodeID = z.nodeID ∧ InPlay s j w) ∨
      ∃ name, a = .dial name ∧ allocNodeID s.nodeIDs = some z.nodeID ∧ j = s.dialled := by
  rcases hp with hu | hloop
  · refine (inUse_back hc hz hu).imp_left ?_
    rintro ⟨w, hw, hid, hu⟩
    exact ⟨w, hw, hid, .inl hu⟩
  have hstage : ∀ {i : ℕ} {x : NodeInfo ν} {stage : Stage}, s.sessions i = some x →
      Function.update s.sessions i (some { x with stage := stage }) j = some z →
      ∃ w, s.sessions j = some w ∧ w.nodeID = z.nodeID ∧ InPlay s j w := by
    intro i x stage hx hz
    rcases update_session_cases hz with ⟨rfl, rfl⟩ | ⟨-, hz⟩
    · exact ⟨x, hx, rfl, .inr hloop⟩
    · exact ⟨z, hz, rfl, .inr hloop⟩
  cases hc with
  | dial name id hid =>
    rcases update_session_cases hz with ⟨rfl, rfl⟩ | ⟨-, hz⟩
    · cases hloop
    · exact .inl ⟨z, hz, rfl, .inr hloop⟩
  | session i x y hx hgoes =>
    rcases update_session_cases hz with ⟨rfl, rfl⟩ | ⟨-, hz⟩
    · refine .inl ⟨x, hx, hgoes.nodeID.symm, ?_⟩
      exact (hgoes.looping hloop).elim .inr fun hholds => .inl (.inl hholds)
    · exact .inl ⟨z, hz, rfl, .inr hloop⟩
  | list i x hx _ => exact .inl (hstage hx hz)
  | freeNodeID i x hx _ => exact .inl (hstage hx hz)
  | delete i x hx _ => exact .inl (hstage hx hz)
  | startOp name i hi => exact .inl ⟨z, hz, rfl, .inr hloop⟩
  | claim k op x hop hx hstage => exact .inl ⟨z, hz, rfl, .inr hloop⟩
  | publish k op x hop hx => exact .inl ⟨z, hz, rfl, .inr hloop⟩
  | finish k op hop => exact .inl ⟨z, hz, rfl, .inr hloop⟩
  | pop i x e rest hx hqueue _ => exact .inl ⟨z, hz, rfl, .inr hloop⟩

theorem Current.dial (h : Current s) (hb : Base s) {name : ν} (hok : ReusesQuiet s (.dial name))
    (hid : allocNodeID s.nodeIDs = some id) :
    Current { s with
      nodeIDs := Function.update s.nodeIDs id true
      sessions := Function.update s.sessions s.dialled (some ⟨name, id, .dialing, false⟩)
      dialled := s.dialled + 1 } := by
  set t : State ν := { s with
    nodeIDs := Function.update s.nodeIDs id true
    sessions := Function.update s.sessions s.dialled (some ⟨name, id, .dialing, false⟩)
    dialled := s.dialled + 1 } with ht
  obtain ⟨hempty, hquiet⟩ := hok id hid
  have hbound : ∀ j q, idOf s j = some q → ∃ x, s.sessions j = some x ∧ x.nodeID = q ∧
      j < s.dialled := by
    intro j q hj
    obtain ⟨x, hx, hq⟩ := Option.map_eq_some_iff.1 hj
    exact ⟨x, hx, hq, hb.bound j x hx⟩
  have hidOf : ∀ j, idOf t j = if j = s.dialled then some id else idOf s j := by
    intro j
    change Option.map _ (Function.update s.sessions s.dialled _ j) = _
    split_ifs with hj
    · rw [hj, Function.update_self, Option.map_some]
    · rw [Function.update_of_ne hj]
      rfl
  -- the newest sessions with other IDs stay what they are
  have hother : ∀ j q, q ≠ id → Newest s j q → Newest t j q := by
    intro j q hq hj
    obtain ⟨x, -, -, hlt⟩ := hbound j q hj.1
    refine ⟨by rw [hidOf, if_neg hlt.ne, hj.1], fun k hk => ?_⟩
    rw [hidOf] at hk
    split_ifs at hk with hkd
    · exact absurd (Option.some.inj hk).symm hq
    · exact hj.2 k hk
  have hnew : Newest t s.dialled id := by
    refine ⟨by rw [hidOf, if_pos rfl], fun k hk => ?_⟩
    rw [hidOf] at hk
    split_ifs at hk with hkd
    · exact hkd.le
    · obtain ⟨x, -, -, hlt⟩ := hbound k id hk
      exact hlt.le
  refine ⟨fun j z hz hp => ?_, h.started, fun k op hop hact => ?_, fun q e he => ?_, h.popped⟩
  · rcases inPlay_back (.dial name id hid) hz hp with ⟨w, hw, hidw, hpw⟩ | ⟨name', ha, hid', rfl⟩
    · refine hother j _ ?_ (hidw ▸ h.session j w hw hpw)
      rintro rfl
      obtain ⟨hloop, hlisted, -⟩ := hquiet j (hb.bound j w hw) w hw hidw
      rcases hpw with (hholds | hnodes) | hlooping
      · have hfree := allocNodeID_eq_some hid
        rw [← hidw, hb.bit j w hw hholds] at hfree
        cases hfree
      · exact hlisted hnodes
      · rw [hlooping] at hloop
        cases hloop
    · rw [hid] at hid'
      rw [← Option.some.inj hid']
      exact hnew
  · obtain ⟨q, hq⟩ := h.op k op hop hact
    refine ⟨q, hother _ q ?_ hq⟩
    rintro rfl
    obtain ⟨x, hx, hidx, hlt⟩ := hbound _ _ hq.1
    obtain ⟨-, -, hops⟩ := hquiet _ hlt x hx hidx
    rw [hops k (h.started k op hop) op hop rfl] at hact
    cases hact
  · refine hother _ q ?_ (h.queue q e he)
    rintro rfl
    change e ∈ s.queues q at he
    rw [hempty] at he
    cases he

omit [DecidableEq ν] in
theorem Current.moveOp (h : Current s) {k : ℕ} {op : Op} (hop : s.ops k = some op)
    {after : OpStage} (hact : after.active = true → op.stage.active = true)
    {queues : ℕ → List Entry} (hqueue : ∀ q, ∀ e ∈ queues q, Newest s e.target q) :
    Current { s with
      ops := Function.update s.ops k (some { op with stage := after })
      queues := queues } := by
  refine ⟨h.session, fun l o ho => ?_, fun l o ho hoact => ?_, hqueue, h.popped⟩
  · change Function.update s.ops k _ l = some o at ho
    by_cases hl : l = k
    · subst hl
      exact h.started l op hop
    · rw [Function.update_of_ne hl] at ho
      exact h.started l o ho
  · change Function.update s.ops k _ l = some o at ho
    by_cases hl : l = k
    · subst hl
      rw [Function.update_self] at ho
      cases ho
      exact h.op l op hop (hact hoact)
    · rw [Function.update_of_ne hl] at ho
      exact h.op l o ho hoact

theorem Current.sessions (h : Current s) (hc : Change s a t) (hid : idOf t = idOf s)
    (hdial : ∀ name, a ≠ .dial name) (hops : t.ops = s.ops) (hstarted : t.started = s.started)
    (hqueues : t.queues = s.queues) (hpopped : t.popped = s.popped) : Current t := by
  refine ⟨fun j z hz hp => ?_, ?_, fun k op hop hact => ?_, fun q e he => ?_, ?_⟩
  · rcases inPlay_back hc hz hp with ⟨w, hw, hidw, hpw⟩ | ⟨name, ha, -⟩
    · rw [← hidw]
      exact (h.session j w hw hpw).congr hid
    · exact absurd ha (hdial name)
  · rw [hops, hstarted]
    exact h.started
  · rw [hops] at hop
    obtain ⟨q, hq⟩ := h.op k op hop hact
    exact ⟨q, hq.congr hid⟩
  · rw [hqueues] at he
    exact (h.queue q e he).congr hid
  · rw [Addressed, hpopped]
    exact h.popped

theorem current_step (h : Current s) (hb : Base s) (hok : ReusesQuiet s a) (hc : Change s a t) :
    Current t := by
  cases hc with
  | dial name id hid => exact h.dial hb hok hid
  | session i x y hx hgoes =>
    -- which of the actions it was does not matter
    exact h.sessions (.session (a := .disconnect i) i x y hx hgoes fun _ => .inr rfl)
      (idOf_update hx hgoes.nodeID rfl) (fun _ ha => by cases ha) rfl rfl rfl rfl
  | list i x hx hstage =>
    exact h.sessions (.list i x hx hstage) (idOf_update (y := { x with stage := .live }) hx rfl rfl)
      (fun _ ha => by cases ha) rfl rfl rfl rfl
  | freeNodeID i x hx hstage =>
    exact h.sessions (.freeNodeID i x hx hstage)
      (idOf_update (y := { x with stage := .freed }) hx rfl rfl) (fun _ ha => by cases ha) rfl rfl rfl
      rfl
  | delete i x hx hstage =>
    exact h.sessions (.delete i x hx hstage)
      (idOf_update (y := { x with stage := .deleted }) hx rfl rfl) (fun _ ha => by cases ha) rfl rfl
      rfl rfl
  | startOp name i hi =>
    obtain ⟨x, hx, rfl, -⟩ := hb.nodes name i hi
    have hnewest : Newest s i x.nodeID := h.session i x hx (.inl (.inr hi))
    refine ⟨h.session, fun k op hop => ?_, fun k op hop hact => ?_, h.queue, h.popped⟩
    · change k < s.started + 1
      by_cases hk : k = s.started
      · omega
      · replace hop : s.ops k = some op := (Function.update_of_ne hk ..).symm.trans hop
        exact Nat.lt_succ_of_lt (h.started k op hop)
    · change Function.update s.ops s.started _ k = some op at hop
      by_cases hk : k = s.started
      · subst hk
        rw [Function.update_self] at hop
        cases hop
        exact ⟨_, hnewest⟩
      · rw [Function.update_of_ne hk] at hop
        exact h.op k op hop hact
  | claim k op x hop hx hstage =>
    refine h.moveOp hop (fun _ => by rw [hstage]; rfl) fun q e he => ?_
    by_cases hq : q = x.nodeID
    · subst hq
      rw [Function.update_self] at he
      rcases List.mem_append.1 he with he | he
      · exact h.queue _ e he
      · obtain rfl := List.mem_singleton.1 he
        obtain ⟨id, hid⟩ := h.op k op hop (by rw [hstage]; rfl)
        have := hid.1
        rw [idOf_eq_some hx] at this
        cases this
        exact hid
    · rw [Function.update_of_ne hq] at he
      exact h.queue q e he
  | publish k op x hop hx =>
    refine h.moveOp hop (fun ha => by cases ha) fun q e he => ?_
    by_cases hq : q = x.nodeID
    · subst hq
      rw [Function.update_self] at he
      obtain ⟨e', he', rfl⟩ := List.mem_map.1 he
      have := h.queue _ e' he'
      split_ifs
      · exact this
      · exact this
    · rw [Function.update_of_ne hq] at he
      exact h.queue q e he
  | finish k op hop => exact h.moveOp hop (fun ha => by cases ha) h.queue
  | pop i x e rest hx hqueue hloop =>
    have hpopper : Newest s i x.nodeID := h.session i x hx (.inr hloop)
    have htarget : Newest s e.target x.nodeID := h.queue _ e (by rw [hqueue]; simp)
    refine ⟨h.session, h.started, h.op, fun q e' he' => ?_, fun p hp => ?_⟩
    · change e' ∈ Function.update s.queues x.nodeID rest q at he'
      by_cases hq : q = x.nodeID
      · subst hq
        rw [Function.update_self] at he'
        exact h.queue _ e' (by rw [hqueue]; simp [he'])
      · rw [Function.update_of_ne hq] at he'
        exact h.queue q e' he'
    · rcases List.mem_append.1 hp with hp | hp
      · exact h.popped p hp
      · rw [List.mem_singleton.1 hp]
        exact hpopper.eq htarget

/-- In every run in which a node ID is given to a new session only when its queue is empty and
nothing is going on with its former sessions, every entry that a session pops was pushed for it. -/
theorem commands_reach_their_session (s : State ν) (h : (hub ν).Reaches ReusesQuiet s) :
    Addressed s := by
  have hc : Current s := by
    refine h.invariant (fun s hs => ?_) fun s a t hr hcur hok hst =>
      current_step hcur (base_of_reaches hr) hok (change_of_step hst)
    obtain rfl : s = initial := hs
    refine ⟨fun i x hx => ?_, fun k op hop => ?_, fun k op hop => ?_, fun q e he => ?_, fun e he => ?_⟩
    · cases hx
    · cases hop
    · cases hop
    · cases he
    · cases he
  exact hc.popped

/-- The rest of the watchdog of session `i`, after the ID is free. -/
def closed (i : ℕ) : List (Action ℕ) := [.delete i, .closeConn i, .closeEventfd i]

/-- A push, from the lookup to the notification. -/
def pushed (k name : ℕ) : List (Action ℕ) := [.next name, .claim k, .publish k, .notify k]

/-- A session gets a command and goes away; its ID is given to another one, which gets the next. -/
theorem commands_reach_their_session_run :
    ∃ s, (hub ℕ).Reaches ReusesQuiet s ∧ s.popped = [(0, 0), (1, 1)] ∧ Addressed s := by
  obtain ⟨s, hs, hp⟩ := System.exists_reaches_of_runWith (hub ℕ) ReusesQuiet
    (List.flatten [dialled 0 0, pushed 0 0, [.pop 0, .stop 0], freed 0, closed 0, dialled 1 0,
      pushed 1 0, [.pop 1]])
    (fun s => decide (s.popped = [(0, 0), (1, 1)])) (s := initial) rfl (by decide +kernel)
  exact ⟨s, hs, of_decide_eq_true hp, commands_reach_their_session s hs⟩

/-- Two ways for a command to reach the wrong session, the new one with the same ID: `Next` has
looked up the old session and pushes when the new one is there; or the entry was pushed in time, but
the old session went away without popping it. -/
theorem late_push_reaches_new_session :
    ((hub ℕ).run initial (List.flatten [dialled 0 0, [.next 0, .stop 0], freed 0, closed 0,
      dialled 1 0, [.claim 0, .publish 0, .pop 1]])).map State.popped = some [(1, 0)] ∧
    ((hub ℕ).run initial (List.flatten [dialled 0 0, pushed 0 0, [.stop 0], freed 0, closed 0,
      dialled 1 0, [.pop 1]])).map State.popped = some [(1, 0)] := by
  decide +kernel

end Mmfg.Session
