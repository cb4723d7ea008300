import Mmfg.Hub.Cases
import Mmfg.Lib.Simulation
import Mmfg.Session.Tables

/-!
# The sessions of the hub

Here `Dial` is one step, which takes some free ID, and `CleanupResources` is many; in `Mmfg.Session` it
is the other way round.  Where `Dial` takes the ID that `allocNodeID` finds, the node table, the node
IDs and the sessions of the hub are at any time those of a reachable state there (`tables_reachable`),
so that what holds of the tables there holds here.  The commands in the request queues are not compared:
here the queues have no bound.
-/

namespace Mmfg

open Session (Base Info Leads Shows Tables leads_of_step)

namespace Hub

/-- How far the session has come. -/
def WatchPC.stage : WatchPC → Option Session.Stage
  | .absent => none
  | .reading => some .live
  | .status _ | .owner _ | .header _ | .decode _ _ | .free _ _ | .freeSlot _ => some .lost
  | .freeID => some .cleaned
  | .delete => some .freed
  | .close => some .deleted
  | .gone => some .closed

/-- What the state says of session `d`, when it has come to `stage`. -/
def State.info (s : State) (d : SessionId) (stage : Session.Stage) : Info ℕ :=
  ⟨(s.sessions d).name, d.1, stage⟩

/-- The tables of the hub. -/
def State.tables (s : State) : Tables SessionId ℕ where
  nodes := s.names
  nodeIDs := s.ids
  At d y := ∃ stage, (s.sessions d).watch.stage = some stage ∧ y = s.info d stage

/-- `Dial` takes the ID that `allocNodeID` finds. -/
def TakesFirstID (s : State) : Action → Prop
  | .dial d _ _ => Session.allocNodeID s.ids = some d.1
  | _ => True

instance (s : State) : (a : Action) → Decidable (TakesFirstID s a)
  | .dial _ _ _ => inferInstanceAs (Decidable (_ = _))
  | .watch _ | .conn _ _ | .disp _ | .exp _ _ | .pop _ | .hand _ _ => isTrue trivial

variable {s t : State} {d : SessionId}

theorem at_info {stage : Session.Stage} (h : (s.sessions d).watch.stage = some stage) :
    s.tables.At d (s.info d stage) := ⟨stage, h, rfl⟩

/-- A session is dialled, or comes to another stage. -/
theorem tables_update {stage : Session.Stage} {x : Session} (hx : x.watch.stage = some stage) :
    { s with sessions := Function.update s.sessions d x }.tables =
      s.tables.set d ⟨x.name, d.1, stage⟩ := by
  simp only [State.tables, Tables.set, State.info, Tables.mk.injEq, true_and]
  funext e y
  by_cases he : e = d
  · subst he
    simp [Function.update_self, hx]
  · simp [he]

theorem tables_setWatch {stage : Session.Stage} {w : WatchPC} (hw : w.stage = some stage) :
    (s.setWatch d w).tables = s.tables.set d (s.info d stage) :=
  tables_update (x := { s.sessions d with watch := w }) hw

theorem tables_of_same_stage {w : WatchPC} (hw : w.stage = (s.sessions d).watch.stage) :
    (s.setWatch d w).tables = s.tables := by
  simp only [State.tables, State.setWatch, State.info, Tables.mk.injEq, true_and]
  funext e y
  by_cases he : e = d
  · subst he
    simp [Function.update_self, hw]
  · simp [Function.update_of_ne he]

theorem ConnStep.tables_eq {i : ℕ} {c : Conn} {a : ConnAct} (h : ConnStep s i c a t) :
    t.tables = s.tables := by
  cases h <;> rfl

theorem DispStep.tables_eq (h : DispStep s t) : t.tables = s.tables := by
  cases h <;> rfl

theorem ExpStep.tables_eq {e : ℕ} {x : Expander} {a : ExpAct} (h : ExpStep s e x a t) :
    t.tables = s.tables := by
  cases h <;> rfl

theorem PopStep.tables_eq (h : PopStep s d t) : t.tables = s.tables := by
  cases h <;> rfl

theorem HandStep.tables_eq {h : Handoff} {x : Handler} {a : HandAct} (hs : HandStep s h x a t) :
    t.tables = s.tables := by
  cases hs <;> rfl

/-! ## Runs -/

theorem tables_newHub (mem : Shm.BlockId → Shm.Bytes) :
    Shows (fun _ => 0) (newHub mem).tables (Session.initial : Session.State ℕ) where
  nodeIDs := rfl
  nodes _ := rfl
  known := nofun
  sessions d y := by
    rintro ⟨stage, ⟨⟩, -⟩
  inj d e y z := by
    rintro ⟨stage, ⟨⟩, -⟩

variable {num : SessionId → ℕ} {x : Session.State ℕ}

/-- A step of `CleanupResources`; `u` is the state with the freed block or slot. -/
theorem leads_cleanup {u : State} (h : Shows num s.tables x) (hu : u.tables = s.tables)
    {w : WatchPC} (hw : w.stage = (u.sessions d).watch.stage) : Leads x (u.setWatch d w).tables :=
  h.leads ((tables_of_same_stage hw).trans hu)

theorem leads_stepWatch (h : Shows num s.tables x) (hs : stepWatch s d = some t) :
    Leads x t.tables := by
  have hat : ∀ {w stage}, (s.sessions d).watch = w → w.stage = some stage →
      s.tables.At d (s.info d stage) := fun hw hstage => at_info (hw ▸ hstage)
  have hcleanup : ∀ {w w'}, (s.sessions d).watch = w → w'.stage = w.stage →
      Leads x (s.setWatch d w').tables := fun hw hstage => leads_cleanup h rfl (hw ▸ hstage)
  unfold stepWatch at hs
  cases hw : (s.sessions d).watch with
  | absent | gone => simp [hw] at hs
  | reading =>
    simp only [hw, Option.some.injEq] at hs
    subst hs
    exact leads_of_step (a := .disconnect (num d)) (h.stage (hat hw rfl) rfl)
      (tables_setWatch rfl)
  | status i =>
    simp only [hw] at hs
    split_ifs at hs <;> cases hs
    · exact leads_of_step (a := .cleanupResources (num d)) (h.stage (hat hw rfl) rfl)
        (tables_setWatch rfl)
    · exact hcleanup hw rfl
    · exact hcleanup hw rfl
  | owner i =>
    simp only [hw] at hs
    split_ifs at hs <;> cases hs
    · exact hcleanup hw rfl
    · exact hcleanup hw rfl
  | header i | decode i b =>
    simp only [hw, Option.some.injEq] at hs
    subst hs
    exact hcleanup hw rfl
  | free i todo =>
    cases todo with
    | nil =>
      simp only [hw, Option.some.injEq] at hs
      subst hs
      exact hcleanup hw rfl
    | cons b todo =>
      simp only [hw, Option.some.injEq] at hs
      subst hs
      exact leads_cleanup (u := s.free b) h rfl (congrArg WatchPC.stage hw).symm
  | freeSlot i =>
    simp only [hw, Option.some.injEq] at hs
    subst hs
    exact leads_cleanup (u := s.setReg i { s.reg i with status := .idle }) h rfl
      (congrArg WatchPC.stage hw).symm
  | freeID =>
    simp only [hw, Option.some.injEq] at hs
    subst hs
    exact leads_of_step (h.freeNodeID (hat hw rfl) rfl) (tables_setWatch rfl)
  | delete =>
    simp only [hw, Option.some.injEq] at hs
    subst hs
    exact leads_of_step (h.delete (hat hw rfl) rfl) (tables_setWatch rfl)
  | close =>
    simp only [hw, Option.some.injEq] at hs
    subst hs
    obtain ⟨y, hy, hy'⟩ := h.stage (a := .closeConn (num d)) (hat hw rfl) rfl
    refine .step hy (leads_of_step (hy'.stage (a := .closeEventfd (num d)) (s.tables.at_self d _) rfl) ?_)
    rw [Tables.set_set]
    exact tables_update (x := { s.sessions d with closed := true, watch := .gone }) rfl

/-- `Dial`, which is three steps of the session. -/
theorem leads_stepDial (h : Shows num s.tables x) (hb : Base x) {name : ℕ} {lang : Lang}
    (hid : Session.allocNodeID s.ids = some d.1) (hs : stepDial s d name lang = some t) :
    Leads x t.tables := by
  unfold stepDial at hs
  split_ifs at hs with hd
  cases hs
  have hnew : ∀ y, ¬ s.tables.At d y := by
    rintro y ⟨stage, hstage, -⟩
    rw [hd.1] at hstage
    cases hstage
  obtain ⟨x₁, hx₁, h₁⟩ := h.dial hb hnew name hid
  obtain ⟨x₂, hx₂, h₂⟩ := h₁.handshake (k := d) (.inl ⟨rfl, rfl⟩) rfl
  obtain ⟨x₃, hx₃, h₃⟩ := h₂.list (k := d) (.inl ⟨rfl, rfl⟩) rfl
  refine .step hx₁ (.step hx₂ (.step hx₃ (h₃.leads ?_)))
  refine (tables_update (s := { s with
    names := (name, d) :: s.names.filter fun p => p.1 ≠ name
    ids := Function.update s.ids d.1 true }) rfl).trans ?_
  simp only [Tables.set, State.tables, State.info, Tables.mk.injEq, true_and]
  funext e y
  by_cases he : e = d <;> simp [he]

theorem leads_step {a : Action} (h : Shows num s.tables x) (hb : Base x) (ha : TakesFirstID s a)
    (hs : step s a = some t) : Leads x t.tables := by
  cases a with
  | dial d name lang => exact leads_stepDial h hb ha hs
  | watch d => exact leads_stepWatch h hs
  | conn i a => exact h.leads (connStep_of_step hs).tables_eq
  | disp e => exact h.leads (dispStep_of_step hs).tables_eq
  | exp e a =>
    obtain ⟨x, -, hs⟩ := expStep_of_step hs
    exact h.leads hs.tables_eq
  | pop d => exact h.leads (popStep_of_step hs).tables_eq
  | hand k a =>
    obtain ⟨x, -, hs⟩ := handStep_of_step hs
    exact h.leads hs.tables_eq

/-- The tables of the hub are those of a reachable state of the sessions. -/
theorem tables_reachable (h : hub.Reaches TakesFirstID s) :
    ∃ x, (Session.hub ℕ).Reachable x ∧ ∃ num, Shows num s.tables x := by
  refine h.refines (R := fun s x => ∃ num, Shows num s.tables x) ?_ ?_
  · intro s hs
    exact ⟨Session.initial, rfl, _, congrArg State.tables hs ▸ tables_newHub s.mem⟩
  · rintro s a t x - hx ⟨num, h⟩ ha hs
    exact leads_step h (Session.base_of_reaches hx) ha hs

/-- So no two sessions have the same ID at a time. -/
theorem eq_of_nodeID_eq (h : hub.Reaches TakesFirstID s) {d e : SessionId} {y z : Info ℕ}
    (hd : s.tables.At d y) (he : s.tables.At e z) (hy : y.stage.holds = true)
    (hz : z.stage.holds = true) (hid : d.1 = e.1) : d = e := by
  obtain ⟨x, hx, num, hv⟩ := tables_reachable h
  refine hv.nodeID_inj (Session.base_of_reaches hx) hd he hy hz ?_
  obtain ⟨-, -, rfl⟩ := hd
  obtain ⟨-, -, rfl⟩ := he
  exact hid

end Hub

end Mmfg
