import Mmfg.Session.Basic

/-!
# The node table

The watchdog of a session frees its ID before it deletes its name, and it deletes the name whoever
is listed under it.  In between, the table has a session without an ID, another `Dial` can get that
ID, and a session that was dialled anew under the name is taken from the table though it is alive
(`node_table_broken`).

So every disconnect of a listed session leaves the table for a while with an ID that is marked as free
(`not_bitsSet_of_disconnect`).  The two other defects need a `Dial` during that time: they do not occur
if an ID is allocated, and a session listed under a name, only when no earlier session with that ID or
under that name is between its listing and its watchdog's `delete`.
-/

namespace Mmfg.Session

variable {ν : Type}

/-! ## Properties and conditions -/

/-- The listed sessions have different IDs. -/
def DistinctIDs (s : State ν) : Prop :=
  ∀ m n i j x y, s.nodes m = some i → s.nodes n = some j → s.sessions i = some x →
    s.sessions j = some y → x.nodeID = y.nodeID → m = n

/-- The IDs of listed sessions are marked as used. -/
def BitsSet (s : State ν) : Prop :=
  ∀ name i x, s.nodes name = some i → s.sessions i = some x → s.nodeIDs x.nodeID = true

/-- The session that was last dialled under a name is listed under it while it is alive. -/
def NewestListed (s : State ν) : Prop :=
  ∀ name i x, s.latest name = some i → s.sessions i = some x → x.stage = .live →
    s.nodes name = some i

/-- `Dial` gets an ID only when no earlier session with that ID is between its listing and the
`delete` of its watchdog. -/
def AllocatesUnwatched (s : State ν) : Action ν → Prop
  | .dial _ => ∀ id ∈ allocNodeID s.nodeIDs, ∀ i < s.dialled, ∀ x ∈ s.sessions i,
      x.nodeID = id → x.stage.watched = false
  | _ => True

/-- No session loses its connection while it is listed. -/
def DisconnectsUnlisted (s : State ν) : Action ν → Prop
  | .disconnect i => ∀ x ∈ s.sessions i, s.nodes x.name ≠ some i
  | _ => True

/-- `Dial` lists a session only when no earlier session under that name is between its listing and the
`delete` of its watchdog. -/
def ListsUnwatched (s : State ν) : Action ν → Prop
  | .list i => ∀ x ∈ s.sessions i, ∀ j < s.dialled, ∀ y ∈ s.sessions j, y.name = x.name →
      y.stage.watched = false
  | _ => True

instance (s : State ν) : (a : Action ν) → Decidable (AllocatesUnwatched s a)
  | .dial _ => inferInstanceAs (Decidable (∀ id ∈ allocNodeID s.nodeIDs, _))
  | .handshake _ | .handshakeFails _ | .newChunksFail _ | .list _ | .disconnect _
  | .cleanupResources _ | .freeNodeID _ | .delete _ | .closeConn _ | .closeEventfd _ | .next _
  | .expandResponse .. | .claim _ | .giveUp _ | .publish _ | .notify _ | .pop _ | .stop _ =>
    inferInstanceAs (Decidable True)

instance [DecidableEq ν] (s : State ν) : (a : Action ν) → Decidable (DisconnectsUnlisted s a)
  | .disconnect i => inferInstanceAs (Decidable (∀ x ∈ s.sessions i, _))
  | .dial _ | .handshake _ | .handshakeFails _ | .newChunksFail _ | .list _ | .freeNodeID _
  | .cleanupResources _ | .delete _ | .closeConn _ | .closeEventfd _ | .next _
  | .expandResponse .. | .claim _ | .giveUp _ | .publish _ | .notify _ | .pop _ | .stop _ =>
    inferInstanceAs (Decidable True)

instance [DecidableEq ν] (s : State ν) : (a : Action ν) → Decidable (ListsUnwatched s a)
  | .list i => inferInstanceAs (Decidable (∀ x ∈ s.sessions i, _))
  | .dial _ | .handshake _ | .handshakeFails _ | .newChunksFail _ | .delete _ | .disconnect _
  | .cleanupResources _ | .freeNodeID _ | .closeConn _ | .closeEventfd _ | .next _
  | .expandResponse .. | .claim _ | .giveUp _ | .publish _ | .notify _ | .pop _ | .stop _ =>
    inferInstanceAs (Decidable True)

/-! ## Sessions from one state to the next -/

/-- What every step of a session keeps. -/
structure Keeps (x y : NodeInfo ν) : Prop where
  name : y.name = x.name
  nodeID : y.nodeID = x.nodeID
  holds : y.stage.holds = true → x.stage.holds = true
  successful : x.stage.successful = true → y.stage.successful = true

theorem Keeps.refl (x : NodeInfo ν) : Keeps x x := ⟨rfl, rfl, id, id⟩

theorem keeps_stage (x : NodeInfo ν) {stage : Stage}
    (hholds : stage.holds = true → x.stage.holds = true) (hsucc : stage.successful = true) :
    Keeps x { x with stage := stage } :=
  ⟨rfl, rfl, hholds, fun _ => hsucc⟩

theorem Goes.keeps {x y : NodeInfo ν} (h : Goes x y) : Keeps x y :=
  ⟨h.name, h.nodeID, fun hy => h.holds ▸ hy, fun hx => h.successful ▸ hx⟩

section Update

variable {sessions : ℕ → Option (NodeInfo ν)} {i j : ℕ} {x y w z : NodeInfo ν}

theorem update_session_cases (h : Function.update sessions i (some y) j = some z) :
    j = i ∧ z = y ∨ j ≠ i ∧ sessions j = some z := by
  by_cases hj : j = i
  · subst hj
    rw [Function.update_self] at h
    exact .inl ⟨rfl, (Option.some.inj h).symm⟩
  · rw [Function.update_of_ne hj] at h
    exact .inr ⟨hj, h⟩

theorem keeps_back (hx : sessions i = some x) (hk : Keeps x y)
    (h : Function.update sessions i (some y) j = some z) :
    ∃ w, sessions j = some w ∧ Keeps w z := by
  rcases update_session_cases h with ⟨rfl, rfl⟩ | ⟨-, hz⟩
  · exact ⟨x, hx, hk⟩
  · exact ⟨z, hz, .refl z⟩

theorem keeps_forth (hx : sessions i = some x) (hk : Keeps x y) (h : sessions j = some w) :
    ∃ z, Function.update sessions i (some y) j = some z ∧ Keeps w z := by
  by_cases hj : j = i
  · subst hj
    rw [hx] at h
    cases h
    exact ⟨y, Function.update_self .., hk⟩
  · exact ⟨w, by rw [Function.update_of_ne hj, h], .refl w⟩

end Update

/-! ## What always holds -/

/-- At most one session has an ID, and that ID is marked as used; those in the table were dialled
successfully under that name. -/
structure Base (s : State ν) : Prop where
  bound : ∀ i x, s.sessions i = some x → i < s.dialled
  bit : ∀ i x, s.sessions i = some x → x.stage.holds = true → s.nodeIDs x.nodeID = true
  unique : ∀ i j x y, s.sessions i = some x → s.sessions j = some y → x.stage.holds = true →
    y.stage.holds = true → x.nodeID = y.nodeID → i = j
  nodes : ∀ name i, s.nodes name = some i →
    ∃ x, s.sessions i = some x ∧ x.name = name ∧ x.stage.successful = true
  latest : ∀ name i, s.latest name = some i →
    ∃ x, s.sessions i = some x ∧ x.name = name ∧ x.stage.successful = true

variable {s t : State ν} {a : Action ν}

/-- A step of one session which leaves the IDs of the others alone. -/
theorem Base.update (h : Base s) {i : ℕ} {x y : NodeInfo ν} (hx : s.sessions i = some x)
    (hk : Keeps x y) (hsessions : t.sessions = Function.update s.sessions i (some y))
    (hdialled : t.dialled = s.dialled)
    (hbit : ∀ j z, t.sessions j = some z → z.stage.holds = true →
      s.nodeIDs z.nodeID = true → t.nodeIDs z.nodeID = true)
    (hnodes : ∀ name j, t.nodes name = some j →
      s.nodes name = some j ∨ j = i ∧ name = y.name ∧ y.stage.successful = true)
    (hlatest : ∀ name j, t.latest name = some j →
      s.latest name = some j ∨ j = i ∧ name = y.name ∧ y.stage.successful = true) : Base t := by
  have hlisted : ∀ name j, (∃ w, s.sessions j = some w ∧ w.name = name ∧
        w.stage.successful = true) ∨ j = i ∧ name = y.name ∧ y.stage.successful = true →
      ∃ z, t.sessions j = some z ∧ z.name = name ∧ z.stage.successful = true := by
    rintro name j (⟨w, hw, hname, hsucc⟩ | ⟨rfl, rfl, hsucc⟩)
    · obtain ⟨z, hz, hkz⟩ := keeps_forth hx hk hw
      exact ⟨z, by rw [hsessions, hz], hkz.name.trans hname, hkz.successful hsucc⟩
    · exact ⟨y, by rw [hsessions, Function.update_self], rfl, hsucc⟩
  refine ⟨fun j z hz => ?_, fun j z hz hholds => ?_, fun j k z z' hz hz' hh hh' hid => ?_,
    fun name j hj => hlisted name j ((hnodes name j hj).imp_left (h.nodes name j)),
    fun name j hj => hlisted name j ((hlatest name j hj).imp_left (h.latest name j))⟩
  · rw [hsessions] at hz
    obtain ⟨w, hw, -⟩ := keeps_back hx hk hz
    rw [hdialled]
    exact h.bound j w hw
  · refine hbit j z hz hholds ?_
    rw [hsessions] at hz
    obtain ⟨w, hw, hkw⟩ := keeps_back hx hk hz
    rw [hkw.nodeID]
    exact h.bit j w hw (hkw.holds hholds)
  · rw [hsessions] at hz hz'
    obtain ⟨w, hw, hkw⟩ := keeps_back hx hk hz
    obtain ⟨w', hw', hkw'⟩ := keeps_back hx hk hz'
    rw [hkw.nodeID, hkw'.nodeID] at hid
    exact h.unique j k w w' hw hw' (hkw.holds hh) (hkw'.holds hh') hid

theorem Base.congr (h : Base s) (hsessions : t.sessions = s.sessions)
    (hdialled : t.dialled = s.dialled) (hids : t.nodeIDs = s.nodeIDs) (hnodes : t.nodes = s.nodes)
    (hlatest : t.latest = s.latest) : Base t := by
  constructor
  · rw [hsessions, hdialled]
    exact h.bound
  · rw [hsessions, hids]
    exact h.bit
  · rw [hsessions]
    exact h.unique
  · rw [hsessions, hnodes]
    exact h.nodes
  · rw [hsessions, hlatest]
    exact h.latest

theorem Base.dial (h : Base s) {name : ν} {id : ℕ} (hid : allocNodeID s.nodeIDs = some id) :
    Base { s with
      nodeIDs := Function.update s.nodeIDs id true
      sessions := Function.update s.sessions s.dialled (some ⟨name, id, .dialing, false⟩)
      dialled := s.dialled + 1 } := by
  have hold : ∀ j z, s.sessions j = some z →
      Function.update s.sessions s.dialled (some ⟨name, id, .dialing, false⟩) j = some z := by
    intro j z hz
    rw [Function.update_of_ne (h.bound j z hz).ne, hz]
  have hcases : ∀ j z,
      Function.update s.sessions s.dialled (some ⟨name, id, .dialing, false⟩) j = some z →
      s.sessions j = some z ∨ j = s.dialled ∧ z.nodeID = id := by
    intro j z hz
    rcases update_session_cases hz with ⟨rfl, rfl⟩ | ⟨-, hz⟩
    · exact .inr ⟨rfl, rfl⟩
    · exact .inl hz
  have hfree := allocNodeID_eq_some hid
  -- no session that has an ID has the new one
  have hne : ∀ j z, s.sessions j = some z → z.stage.holds = true → z.nodeID ≠ id := by
    rintro j z hz hholds rfl
    rw [h.bit j z hz hholds] at hfree
    cases hfree
  refine ⟨fun j z hz => ?_, fun j z hz hholds => ?_, fun j k z z' hz hz' hh hh' he => ?_,
    fun m j hj => ?_, fun m j hj => ?_⟩
  · rcases hcases j z hz with hz | ⟨rfl, -⟩
    · exact Nat.lt_succ_of_lt (h.bound j z hz)
    · exact Nat.lt_succ_self _
  · dsimp only
    rcases hcases j z hz with hz | ⟨rfl, rfl⟩
    · rw [Function.update_of_ne (hne j z hz hholds)]
      exact h.bit j z hz hholds
    · rw [Function.update_self]
  · rcases hcases j z hz with hz | ⟨rfl, rfl⟩ <;> rcases hcases k z' hz' with hz' | ⟨rfl, hid'⟩
    · exact h.unique j k z z' hz hz' hh hh' he
    · exact absurd (he.trans hid') (hne j z hz hh)
    · exact absurd he.symm (hne k z' hz' hh')
    · rfl
  · obtain ⟨z, hz, hrest⟩ := h.nodes m j hj
    exact ⟨z, hold j z hz, hrest⟩
  · obtain ⟨z, hz, hrest⟩ := h.latest m j hj
    exact ⟨z, hold j z hz, hrest⟩

variable [DecidableEq ν]

theorem update_eq_some {f : ν → Option ℕ} {m n : ν} {i j : ℕ}
    (h : Function.update f m (some i) n = some j) : f n = some j ∨ j = i ∧ n = m := by
  by_cases hn : n = m
  · subst hn
    rw [Function.update_self] at h
    exact .inr ⟨(Option.some.inj h).symm, rfl⟩
  · rw [Function.update_of_ne hn] at h
    exact .inl h

theorem of_update_none {f : ν → Option ℕ} {m n : ν} {j : ℕ}
    (h : Function.update f m none n = some j) : n ≠ m ∧ f n = some j := by
  by_cases hn : n = m
  · subst hn
    rw [Function.update_self] at h
    cases h
  · rw [Function.update_of_ne hn] at h
    exact ⟨hn, h⟩

theorem base_step (h : Base s) (hc : Change s a t) : Base t := by
  cases hc with
  | dial name id hid => exact h.dial hid
  | session i x y hx hgoes =>
    exact h.update hx hgoes.keeps rfl rfl (fun _ _ _ _ hb => hb) (fun _ _ hj => .inl hj)
      (fun _ _ hj => .inl hj)
  | list i x hx hstage =>
    have hholds : x.stage.holds = true := by
      rw [hstage]
      rfl
    refine h.update hx (keeps_stage x (fun _ => hholds) rfl) rfl rfl (fun _ _ _ _ hb => hb)
      (fun n j hj => ?_) (fun n j hj => ?_)
    · exact (update_eq_some hj).imp_right fun hi => ⟨hi.1, hi.2, rfl⟩
    · exact (update_eq_some hj).imp_right fun hi => ⟨hi.1, hi.2, rfl⟩
  | freeNodeID i x hx hstage =>
    refine h.update hx (keeps_stage x (fun hf => by cases hf) rfl) rfl rfl
      (fun j z hz hholds hb => ?_) (fun _ _ hj => .inl hj) (fun _ _ hj => .inl hj)
    rcases update_session_cases hz with ⟨rfl, rfl⟩ | ⟨hj, hz⟩
    · cases hholds
    · -- another session with an ID has another one
      have hne : z.nodeID ≠ x.nodeID := fun he =>
        hj (h.unique j i z x hz hx hholds (by rw [hstage]; rfl) he)
      dsimp only
      rw [Function.update_of_ne hne]
      exact hb
  | delete i x hx hstage =>
    exact h.update hx (keeps_stage x (fun hf => by cases hf) rfl) rfl rfl (fun _ _ _ _ hb => hb)
      (fun n j hj => .inl (of_update_none hj).2) (fun _ _ hj => .inl hj)
  | startOp name i hi => exact h.congr rfl rfl rfl rfl rfl
  | claim k op x hop hx hstage => exact h.congr rfl rfl rfl rfl rfl
  | publish k op x hop hx => exact h.congr rfl rfl rfl rfl rfl
  | finish k op hop => exact h.congr rfl rfl rfl rfl rfl
  | pop i x e rest hx hqueue hloop => exact h.congr rfl rfl rfl rfl rfl

theorem base_of_reaches {ok : State ν → Action ν → Prop} (h : (hub ν).Reaches ok s) : Base s := by
  refine h.invariant (fun s hs => ?_) fun s a t _ hb _ hst => base_step hb (change_of_step hst)
  obtain rfl : s = initial := hs
  constructor <;> intros <;> contradiction

/-- The listed sessions have not come to the `delete` of their watchdogs. -/
def ListedWatched (s : State ν) : Prop :=
  ∀ name i x, s.nodes name = some i → s.sessions i = some x → x.stage.watched = true

theorem listedWatched_step (hb : Base s) (h : ListedWatched s) (hc : Change s a t) :
    ListedWatched t := by
  intro n j z hn hz
  cases hc with
  | dial name id hid =>
    obtain ⟨w, hw, -⟩ := hb.nodes n j hn
    rcases update_session_cases hz with ⟨rfl, rfl⟩ | ⟨-, hz⟩
    · exact absurd (hb.bound _ w hw) (lt_irrefl _)
    · exact h n j z hn hz
  | session i x y hx hgoes =>
    rcases update_session_cases hz with ⟨rfl, rfl⟩ | ⟨-, hz⟩
    · rw [hgoes.watched]
      exact h n j x hn hx
    · exact h n j z hn hz
  | list i x hx hstage =>
    rcases update_session_cases hz with ⟨rfl, rfl⟩ | ⟨hj, hz⟩
    · rfl
    · exact h n j z ((update_eq_some hn).resolve_right fun hi => hj hi.1) hz
  | freeNodeID i x hx hstage =>
    rcases update_session_cases hz with ⟨rfl, rfl⟩ | ⟨-, hz⟩
    · rfl
    · exact h n j z hn hz
  | delete i x hx hstage =>
    obtain ⟨hname, hold⟩ := of_update_none hn
    rcases update_session_cases hz with ⟨rfl, rfl⟩ | ⟨-, hz⟩
    · -- a session is listed under its own name only, which is deleted here
      obtain ⟨w, hw, rfl, -⟩ := hb.nodes n j hold
      rw [hx] at hw
      cases hw
      exact absurd rfl hname
    · exact h n j z hold hz
  | startOp name i hi => exact h n j z hn hz
  | claim k op x hop hx hstage => exact h n j z hn hz
  | publish k op x hop hx => exact h n j z hn hz
  | finish k op hop => exact h n j z hn hz
  | pop i x e rest hx hqueue hloop => exact h n j z hn hz

theorem listedWatched_of_reaches {ok : State ν → Action ν → Prop} (h : (hub ν).Reaches ok s) :
    ListedWatched s := by
  refine h.invariant (fun s hs => ?_) fun s a t hr hl _ hst =>
    listedWatched_step (base_of_reaches hr) hl (change_of_step hst)
  obtain rfl : s = initial := hs
  intro n j z hn
  cases hn

/-! ## Different IDs -/

/-- The session has its ID or is listed. -/
def InUse (s : State ν) (i : ℕ) (x : NodeInfo ν) : Prop :=
  x.stage.holds = true ∨ s.nodes x.name = some i

/-- Only a new session comes into use. -/
theorem inUse_back (hc : Change s a t) {j : ℕ} {z : NodeInfo ν} (hz : t.sessions j = some z)
    (hu : InUse t j z) :
    (∃ w, s.sessions j = some w ∧ w.nodeID = z.nodeID ∧ InUse s j w) ∨
      ∃ name, a = .dial name ∧ allocNodeID s.nodeIDs = some z.nodeID ∧ j = s.dialled := by
  have hkeep : ∀ {i x y}, s.sessions i = some x → Keeps x y →
      Function.update s.sessions i (some y) j = some z → (s.nodes z.name = some j ∨ z.stage.holds) →
      ∃ w, s.sessions j = some w ∧ w.nodeID = z.nodeID ∧ InUse s j w := by
    intro i x y hx hk hz hu
    obtain ⟨w, hw, hkw⟩ := keeps_back hx hk hz
    refine ⟨w, hw, hkw.nodeID.symm, ?_⟩
    rcases hu with hu | hu
    · rw [hkw.name] at hu
      exact .inr hu
    · exact .inl (hkw.holds hu)
  cases hc with
  | dial name id hid =>
    rcases update_session_cases hz with ⟨rfl, rfl⟩ | ⟨-, hz⟩
    · exact .inr ⟨name, rfl, hid, rfl⟩
    · exact .inl ⟨z, hz, rfl, hu⟩
  | session i x y hx hgoes => exact .inl (hkeep hx hgoes.keeps hz hu.symm)
  | list i x hx hstage =>
    rcases update_session_cases hz with ⟨rfl, rfl⟩ | ⟨hj, hz⟩
    · exact .inl ⟨x, hx, rfl, .inl (by rw [hstage]; rfl)⟩
    · refine .inl ⟨z, hz, rfl, hu.imp_right fun hn => ?_⟩
      exact (update_eq_some hn).resolve_right fun hi => hj hi.1
  | freeNodeID i x hx hstage =>
    exact .inl (hkeep hx (keeps_stage x (fun hf => by cases hf) rfl) hz hu.symm)
  | delete i x hx hstage =>
    exact .inl (hkeep hx (keeps_stage x (fun hf => by cases hf) rfl) hz
      (hu.symm.imp_left fun hn => (of_update_none hn).2))
  | startOp name i hi => exact .inl ⟨z, hz, rfl, hu⟩
  | claim k op x hop hx hstage => exact .inl ⟨z, hz, rfl, hu⟩
  | publish k op x hop hx => exact .inl ⟨z, hz, rfl, hu⟩
  | finish k op hop => exact .inl ⟨z, hz, rfl, hu⟩
  | pop i x e rest hx hqueue hloop => exact .inl ⟨z, hz, rfl, hu⟩

/-- No two sessions in use have the same ID. -/
def UniqueInUse (s : State ν) : Prop :=
  ∀ i j x y, s.sessions i = some x → s.sessions j = some y → InUse s i x → InUse s j y →
    x.nodeID = y.nodeID → i = j

theorem uniqueInUse_step (hb : Base s) (hl : ListedWatched s) (hok : AllocatesUnwatched s a)
    (h : UniqueInUse s) (hc : Change s a t) : UniqueInUse t := by
  -- a new ID is not in use
  have hnew : ∀ {name i x id}, a = .dial name → allocNodeID s.nodeIDs = some id →
      s.sessions i = some x → InUse s i x → x.nodeID ≠ id := by
    rintro name i x id rfl hid hx (hholds | hlisted) rfl
    · have hfree := allocNodeID_eq_some hid
      rw [hb.bit i x hx hholds] at hfree
      cases hfree
    · have hnot := hok _ hid i (hb.bound i x hx) x hx rfl
      rw [hl x.name i x hlisted hx] at hnot
      cases hnot
  intro i j x y hx hy hux huy hid
  rcases inUse_back hc hx hux with ⟨x', hx', hidx, hux'⟩ | ⟨name, ha, halloc, rfl⟩ <;>
    rcases inUse_back hc hy huy with ⟨y', hy', hidy, huy'⟩ | ⟨name', ha', halloc', rfl⟩
  · exact h i j x' y' hx' hy' hux' huy' (by rw [hidx, hidy, hid])
  · exact absurd (hidx.trans hid) (hnew ha' halloc' hx' hux')
  · exact absurd (hidy.trans hid.symm) (hnew ha halloc hy' huy')
  · rfl

theorem distinctIDs_of_reaches (h : (hub ν).Reaches AllocatesUnwatched s) : DistinctIDs s := by
  have hu : UniqueInUse s := by
    refine h.invariant (fun s hs => ?_) fun s a t hr hu hok hst =>
      uniqueInUse_step (base_of_reaches hr) (listedWatched_of_reaches hr) hok hu (change_of_step hst)
    obtain rfl : s = initial := hs
    intro i j x y hx
    cases hx
  have hb := base_of_reaches h
  intro m n i j x y hm hn hx hy hid
  obtain ⟨x', hx', rfl, -⟩ := hb.nodes m i hm
  obtain ⟨y', hy', rfl, -⟩ := hb.nodes n j hn
  rw [hx] at hx'
  rw [hy] at hy'
  cases hx'
  cases hy'
  obtain rfl := hu i j x y hx hy (.inr hm) (.inr hn) hid
  rw [hx] at hy
  cases hy
  rfl

/-! ## Used IDs -/

/-- The listed sessions have their connections. -/
def ListedLive (s : State ν) : Prop :=
  ∀ name i x, s.nodes name = some i → s.sessions i = some x → x.stage = .live

theorem listedLive_step (hb : Base s) (hok : DisconnectsUnlisted s a) (h : ListedLive s)
    (hc : Change s a t) : ListedLive t := by
  -- the other steps of a session are not steps of one that is alive
  have hnot : ∀ {n j x stage}, s.nodes n = some j → s.sessions j = some x → x.stage = stage →
      stage ≠ .live → False := fun hn hx hs hne => hne (hs ▸ h _ _ _ hn hx)
  intro n j z hn hz
  cases hc with
  | dial name id hid =>
    obtain ⟨w, hw, -⟩ := hb.nodes n j hn
    rcases update_session_cases hz with ⟨rfl, rfl⟩ | ⟨-, hz⟩
    · exact absurd (hb.bound _ w hw) (lt_irrefl _)
    · exact h n j z hn hz
  | session i x y hx hgoes hlost =>
    rcases update_session_cases hz with ⟨rfl, rfl⟩ | ⟨-, hz⟩
    · rcases hlost (h n j x hn hx) with hlive | rfl
      · exact hlive
      · obtain ⟨w, hw, rfl, -⟩ := hb.nodes n j hn
        exact absurd hn (hok w hw)
    · exact h n j z hn hz
  | list i x hx hstage =>
    rcases update_session_cases hz with ⟨rfl, rfl⟩ | ⟨hj, hz⟩
    · rfl
    · exact h n j z ((update_eq_some hn).resolve_right fun hi => hj hi.1) hz
  | freeNodeID i x hx hstage =>
    rcases update_session_cases hz with ⟨rfl, rfl⟩ | ⟨-, hz⟩
    · exact (hnot hn hx hstage (by decide)).elim
    · exact h n j z hn hz
  | delete i x hx hstage =>
    obtain ⟨-, hold⟩ := of_update_none hn
    rcases update_session_cases hz with ⟨rfl, rfl⟩ | ⟨-, hz⟩
    · exact (hnot hold hx hstage (by decide)).elim
    · exact h n j z hold hz
  | startOp name i hi => exact h n j z hn hz
  | claim k op x hop hx hstage => exact h n j z hn hz
  | publish k op x hop hx => exact h n j z hn hz
  | finish k op hop => exact h n j z hn hz
  | pop i x e rest hx hqueue hloop => exact h n j z hn hz

theorem bitsSet_of_reaches (h : (hub ν).Reaches DisconnectsUnlisted s) : BitsSet s := by
  have hl : ListedLive s := by
    refine h.invariant (fun s hs => ?_) fun s a t hr hl hok hst =>
      listedLive_step (base_of_reaches hr) hok hl (change_of_step hst)
    obtain rfl : s = initial := hs
    intro n j z hn
    cases hn
  intro name i x hn hx
  refine (base_of_reaches h).bit i x hx ?_
  rw [hl name i x hn hx]
  rfl

/-- The watchdog of session `i`, up to where the ID is free. -/
def freed (i : ℕ) : List (Action ν) := [.disconnect i, .cleanupResources i, .freeNodeID i]

omit [DecidableEq ν] in
theorem move_of_stage {i : ℕ} {x : NodeInfo ν} {before after : Stage}
    {effect : NodeInfo ν → State ν → State ν} (hx : s.sessions i = some x) (hs : x.stage = before) :
    s.move i before after effect = some (effect x (s.setSession i { x with stage := after })) := by
  simp only [State.move, hx, hs, if_true]

omit [DecidableEq ν] in
theorem move_setSession (s : State ν) (i : ℕ) (x : NodeInfo ν) {before after : Stage}
    {effect : NodeInfo ν → State ν → State ν} (hs : x.stage = before) :
    (s.setSession i x).move i before after effect =
      some (effect x (s.setSession i { x with stage := after })) := by
  rw [move_of_stage (x := x) (Function.update_self ..) hs]
  simp only [State.setSession, Function.update_idem]

/-- A listed session that loses its connection is still listed when its ID is free. -/
theorem not_bitsSet_of_disconnect {name : ν} {i : ℕ} {x : NodeInfo ν} (hn : s.nodes name = some i)
    (hx : s.sessions i = some x) (hlive : x.stage = .live) :
    ∃ t, (hub ν).run s (freed i) = some t ∧ t.nodes name = some i ∧ ¬ BitsSet t := by
  refine ⟨{ s.setSession i { x with stage := .freed } with
    nodeIDs := Function.update s.nodeIDs x.nodeID false }, ?_, hn, fun hbits => ?_⟩
  · simp only [freed, System.run_cons, System.run_nil, hub, step]
    rw [move_of_stage hx hlive, Option.bind_some, move_setSession _ _ _ rfl, Option.bind_some,
      move_setSession _ _ _ rfl, Option.bind_some]
    rfl
  · have hbit := hbits name i { x with stage := .freed } hn (Function.update_self ..)
    dsimp only at hbit
    rw [Function.update_self] at hbit
    cases hbit

/-! ## The newest session under a name -/

/-- A session comes to be watched when it is listed. -/
theorem watched_back (hc : Change s a t) {j : ℕ} {z : NodeInfo ν} (hz : t.sessions j = some z)
    (hw : z.stage.watched = true) :
    ∃ w, s.sessions j = some w ∧ w.name = z.name ∧ (w.stage.watched = true ∨ a = .list j) := by
  cases hc with
  | dial name id hid =>
    rcases update_session_cases hz with ⟨rfl, rfl⟩ | ⟨-, hz⟩
    · cases hw
    · exact ⟨z, hz, rfl, .inl hw⟩
  | session i x y hx hgoes =>
    rcases update_session_cases hz with ⟨rfl, rfl⟩ | ⟨-, hz⟩
    · exact ⟨x, hx, hgoes.name.symm, .inl (hgoes.watched ▸ hw)⟩
    · exact ⟨z, hz, rfl, .inl hw⟩
  | list i x hx hstage =>
    rcases update_session_cases hz with ⟨rfl, rfl⟩ | ⟨-, hz⟩
    · exact ⟨x, hx, rfl, .inr rfl⟩
    · exact ⟨z, hz, rfl, .inl hw⟩
  | freeNodeID i x hx hstage =>
    rcases update_session_cases hz with ⟨rfl, rfl⟩ | ⟨-, hz⟩
    · exact ⟨x, hx, rfl, .inl (by rw [hstage]; rfl)⟩
    · exact ⟨z, hz, rfl, .inl hw⟩
  | delete i x hx hstage =>
    rcases update_session_cases hz with ⟨rfl, rfl⟩ | ⟨-, hz⟩
    · cases hw
    · exact ⟨z, hz, rfl, .inl hw⟩
  | startOp name i hi => exact ⟨z, hz, rfl, .inl hw⟩
  | claim k op x hop hx hstage => exact ⟨z, hz, rfl, .inl hw⟩
  | publish k op x hop hx => exact ⟨z, hz, rfl, .inl hw⟩
  | finish k op hop => exact ⟨z, hz, rfl, .inl hw⟩
  | pop i x e rest hx hqueue hloop => exact ⟨z, hz, rfl, .inl hw⟩

/-- At most one session under a name is between its listing and the `delete` of its watchdog. -/
def UniqueWatched (s : State ν) : Prop :=
  ∀ i j x y, s.sessions i = some x → s.sessions j = some y → x.stage.watched = true →
    y.stage.watched = true → x.name = y.name → i = j

theorem uniqueWatched_step (hb : Base s) (hok : ListsUnwatched s a) (h : UniqueWatched s)
    (hc : Change s a t) : UniqueWatched t := by
  -- no other session under the name of the one that is listed
  have hnew : ∀ {i j x y}, a = .list i → s.sessions i = some x → s.sessions j = some y →
      y.stage.watched = true → y.name = x.name → False := by
    rintro i j x y rfl hx hy hw hname
    have hnot := hok x hx j (hb.bound j y hy) y hy hname
    rw [hw] at hnot
    cases hnot
  intro i j x y hx hy hwx hwy hname
  obtain ⟨x', hx', hnx, hx''⟩ := watched_back hc hx hwx
  obtain ⟨y', hy', hny, hy''⟩ := watched_back hc hy hwy
  have hname' : x'.name = y'.name := by rw [hnx, hny, hname]
  rcases hx'' with hwx' | ha
  · rcases hy'' with hwy' | ha
    · exact h i j x' y' hx' hy' hwx' hwy' hname'
    · exact (hnew ha hy' hx' hwx' hname').elim
  · rcases hy'' with hwy' | ha'
    · exact (hnew ha hx' hy' hwy' hname'.symm).elim
    · exact Action.list.inj (ha.symm.trans ha')

theorem newestListed_step (hb : Base s) (hu : UniqueWatched s) (h : NewestListed s)
    (hc : Change s a t) : NewestListed t := by
  intro n j z hn hz hlive
  cases hc with
  | dial name id hid =>
    rcases update_session_cases hz with ⟨rfl, rfl⟩ | ⟨-, hz⟩
    · cases hlive
    · exact h n j z hn hz hlive
  | session i x y hx hgoes =>
    rcases update_session_cases hz with ⟨rfl, rfl⟩ | ⟨-, hz⟩
    · exact h n j x hn hx (hgoes.live hlive)
    · exact h n j z hn hz hlive
  | list i x hx hstage =>
    change Function.update s.nodes x.name (some i) n = some j
    change Function.update s.latest x.name (some i) n = some j at hn
    by_cases hname : n = x.name
    · rw [hname, Function.update_self] at hn ⊢
      exact hn
    · rw [Function.update_of_ne hname] at hn ⊢
      rcases update_session_cases hz with ⟨rfl, rfl⟩ | ⟨-, hz⟩
      · obtain ⟨w, hw, rfl, -⟩ := hb.latest n j hn
        rw [hx] at hw
        cases hw
        exact absurd rfl hname
      · exact h n j z hn hz hlive
  | freeNodeID i x hx hstage =>
    rcases update_session_cases hz with ⟨rfl, rfl⟩ | ⟨-, hz⟩
    · cases hlive
    · exact h n j z hn hz hlive
  | delete i x hx hstage =>
    rcases update_session_cases hz with ⟨rfl, rfl⟩ | ⟨hj, hz⟩
    · cases hlive
    · have hlisted := h n j z hn hz hlive
      change Function.update s.nodes x.name none n = some j
      have hname : n ≠ x.name := by
        obtain ⟨w, hw, rfl, -⟩ := hb.latest n j hn
        rw [hz] at hw
        cases hw
        exact fun he => hj (hu j i z x hz hx (by rw [hlive]; rfl) (by rw [hstage]; rfl) he)
      rw [Function.update_of_ne hname]
      exact hlisted
  | startOp name i hi => exact h n j z hn hz hlive
  | claim k op x hop hx hstage => exact h n j z hn hz hlive
  | publish k op x hop hx => exact h n j z hn hz hlive
  | finish k op hop => exact h n j z hn hz hlive
  | pop i x e rest hx hqueue hloop => exact h n j z hn hz hlive

theorem newestListed_of_reaches (h : (hub ν).Reaches ListsUnwatched s) : NewestListed s := by
  refine (h.invariant (I := fun s => UniqueWatched s ∧ NewestListed s) (fun s hs => ?_)
    fun s a t hr hl hok hst => ?_).2
  · obtain rfl : s = initial := hs
    exact ⟨fun i j x y hx => (nomatch hx), fun n j z hn => (nomatch hn)⟩
  · have hb := base_of_reaches hr
    have hc := change_of_step hst
    exact ⟨uniqueWatched_step hb hok hl.1 hc, newestListed_step hb hl.1 hl.2 hc⟩

/-! ## The table along runs -/

/-- In every state of every run: if IDs are allocated only when no earlier session with that ID is
between its listing and the `delete` of its watchdog, the listed sessions have different IDs; if no
session loses its connection while it is listed, their IDs are marked as used; and if sessions are
listed only when no earlier session under that name is between its listing and the `delete` of its
watchdog, the session last dialled under a name is listed under it until its connection fails. -/
theorem node_table (s : State ν) :
    ((hub ν).Reaches AllocatesUnwatched s → DistinctIDs s) ∧
    ((hub ν).Reaches DisconnectsUnlisted s → BitsSet s) ∧
    ((hub ν).Reaches ListsUnwatched s → NewestListed s) :=
  ⟨distinctIDs_of_reaches, bitsSet_of_reaches, newestListed_of_reaches⟩

/-- `Dial` for session `i` under a name, to the end. -/
def dialled (i name : ℕ) : List (Action ℕ) := [.dial name, .handshake i, .list i]

/-- Two sessions under different names, of which the first disconnects, and a third one that gets its
ID after the `delete`; a second session under one name, whose predecessor then loses its connection and
its ID; and a session that is dialled again after its watchdog's `delete`. -/
theorem node_table_runs :
    (∃ s, (hub ℕ).Reaches AllocatesUnwatched s ∧ s.nodes 1 = some 1 ∧ s.nodes 2 = some 2 ∧
      DistinctIDs s) ∧
    (∃ s, (hub ℕ).Reaches DisconnectsUnlisted s ∧ s.nodes 0 = some 1 ∧ BitsSet s) ∧
    (∃ s, (hub ℕ).Reaches ListsUnwatched s ∧ s.nodes 0 = some 1 ∧ NewestListed s) := by
  refine ⟨?_, ?_, ?_⟩
  · obtain ⟨s, hs, hp⟩ := System.exists_reaches_of_runWith (hub ℕ) AllocatesUnwatched
      (dialled 0 0 ++ dialled 1 1 ++ freed 0 ++ [.delete 0] ++ dialled 2 2)
      (fun s => decide (s.nodes 1 = some 1 ∧ s.nodes 2 = some 2)) (s := initial) rfl
      (by decide +kernel)
    obtain ⟨h1, h2⟩ := of_decide_eq_true hp
    exact ⟨s, hs, h1, h2, (node_table s).1 hs⟩
  · obtain ⟨s, hs, hp⟩ := System.exists_reaches_of_runWith (hub ℕ) DisconnectsUnlisted
      (dialled 0 0 ++ dialled 1 0 ++ freed 0) (fun s => decide (s.nodes 0 = some 1)) (s := initial)
      rfl (by decide +kernel)
    exact ⟨s, hs, of_decide_eq_true hp, (node_table s).2.1 hs⟩
  · obtain ⟨s, hs, hp⟩ := System.exists_reaches_of_runWith (hub ℕ) ListsUnwatched
      (dialled 0 0 ++ freed 0 ++ [.delete 0] ++ dialled 1 0)
      (fun s => decide (s.nodes 0 = some 1)) (s := initial) rfl (by decide +kernel)
    exact ⟨s, hs, of_decide_eq_true hp, (node_table s).2.2 hs⟩

/-- The session of a name has the ID `id`. -/
def listedWith (s : State ℕ) (name id : ℕ) : Bool :=
  ((s.nodes name).bind s.sessions).any fun x => x.nodeID == id

/-- Three runs that break the table: a listed session's ID is freed and then given to a session with
another name; and an old session's watchdog deletes the new one, which is alive. -/
theorem node_table_broken :
    (∃ s, (hub ℕ).Reachable s ∧ listedWith s 0 1 = true ∧ s.nodeIDs 1 = false) ∧
    (∃ s, (hub ℕ).Reachable s ∧ listedWith s 0 1 = true ∧ listedWith s 1 1 = true) ∧
    (∃ s, (hub ℕ).Reachable s ∧ s.latest 0 = some 1 ∧
      (s.sessions 1).map NodeInfo.stage = some .live ∧ s.nodes 0 = none) := by
  refine ⟨?_, ?_, ?_⟩
  · obtain ⟨s, hs, hp⟩ := System.exists_reachable_of_run (hub ℕ) (dialled 0 0 ++ freed 0)
      (fun s => decide (listedWith s 0 1 = true ∧ s.nodeIDs 1 = false)) (s := initial) rfl
      (by decide +kernel)
    exact ⟨s, hs, of_decide_eq_true hp⟩
  · obtain ⟨s, hs, hp⟩ := System.exists_reachable_of_run (hub ℕ)
      (dialled 0 0 ++ freed 0 ++ dialled 1 1)
      (fun s => decide (listedWith s 0 1 = true ∧ listedWith s 1 1 = true)) (s := initial) rfl
      (by decide +kernel)
    exact ⟨s, hs, of_decide_eq_true hp⟩
  · obtain ⟨s, hs, hp⟩ := System.exists_reachable_of_run (hub ℕ)
      (dialled 0 0 ++ dialled 1 0 ++ freed 0 ++ [.delete 0])
      (fun s => decide (s.latest 0 = some 1 ∧ (s.sessions 1).map NodeInfo.stage = some .live ∧
        s.nodes 0 = none)) (s := initial) rfl (by decide +kernel)
    exact ⟨s, hs, of_decide_eq_true hp⟩

end Mmfg.Session
