import Mmfg.Session.Table

/-!
# The tables as other models of the hub have them

The models of the handoffs and of the growing bus have the node table, the node IDs and the sessions,
too, each next to what it is about.  `Tables` is what such a model says of them, and `Shows` that a
state of `Session.hub` says the same.  For each step of `Dial` and of a watchdog there is a lemma: when
the model takes that step, so can the sessions.
-/

namespace Mmfg.Session

variable {κ ν : Type}

/-- What a model says of a session. -/
structure Info (ν : Type) where
  name : ν
  nodeID : ℕ
  stage : Stage

/-- The record of the session in the state. -/
def Info.node (y : Info ν) (looping : Bool) : NodeInfo ν := ⟨y.name, y.nodeID, y.stage, looping⟩

/-- The node table, the node IDs, and how far the sessions have come; `κ` names the sessions. -/
@[ext] structure Tables (κ ν : Type) where
  nodes : List (ν × κ)
  nodeIDs : ℕ → Bool
  At : κ → Info ν → Prop

/-- Session `k` comes to `z`. -/
def Tables.set (v : Tables κ ν) (k : κ) (z : Info ν) : Tables κ ν :=
  { v with At := fun l y => l = k ∧ y = z ∨ l ≠ k ∧ v.At l y }

@[simp] theorem Tables.set_set (v : Tables κ ν) (k : κ) (y z : Info ν) :
    (v.set k y).set k z = v.set k z := by
  simp only [Tables.set, Tables.mk.injEq, true_and]
  funext l u
  by_cases hl : l = k <;> simp [hl]

theorem Tables.at_self (v : Tables κ ν) (k : κ) (z : Info ν) : (v.set k z).At k z := .inl ⟨rfl, rfl⟩

section

variable [DecidableEq ν]

/-- The tables are those of the state, where session `k` has the number `num k`. -/
structure Shows (num : κ → ℕ) (v : Tables κ ν) (x : State ν) : Prop where
  nodeIDs : x.nodeIDs = v.nodeIDs
  nodes : ∀ name, x.nodes name = (v.nodes.lookup name).map num
  known : ∀ p ∈ v.nodes, ∃ y, v.At p.2 y ∧ y.name = p.1
  sessions : ∀ k y, v.At k y → ∃ looping, x.sessions (num k) = some (y.node looping)
  inj : ∀ k l y z, v.At k y → v.At l z → num k = num l → k = l

theorem lookup_filter_ne (nodes : List (ν × κ)) (m n : ν) :
    (nodes.filter fun p => p.1 ≠ m).lookup n = if n = m then none else nodes.lookup n := by
  induction nodes with
  | nil => simp
  | cons p nodes ih =>
    obtain ⟨a, k⟩ := p
    by_cases ha : a = m
    · rw [List.filter_cons_of_neg (by simpa using ha), ih, List.lookup_cons]
      split_ifs with hn
      · rfl
      · rw [beq_false_of_ne (ha ▸ hn)]
    · rw [List.filter_cons_of_pos (by simpa using ha), List.lookup_cons, List.lookup_cons, ih]
      split_ifs with hn
      · rw [beq_false_of_ne (hn ▸ Ne.symm ha)]
      · rfl

variable {num : κ → ℕ} {v w : Tables κ ν} {x x' : State ν} {k l : κ} {y z : Info ν} {a : Action ν}

namespace Shows

theorem at_unique (h : Shows num v x) (hy : v.At k y) (hz : v.At k z) : y = z := by
  obtain ⟨b, hb⟩ := h.sessions k y hy
  obtain ⟨c, hc⟩ := h.sessions k z hz
  rw [hb, Option.some.injEq] at hc
  cases y
  cases z
  cases hc
  rfl

/-- Sessions that have their IDs have different ones. -/
theorem nodeID_inj (h : Shows num v x) (hb : Base x) (hy : v.At k y) (hz : v.At l z)
    (hyh : y.stage.holds = true) (hzh : z.stage.holds = true) (hid : y.nodeID = z.nodeID) :
    k = l := by
  obtain ⟨b, hyx⟩ := h.sessions k y hy
  obtain ⟨c, hzx⟩ := h.sessions l z hz
  exact h.inj k l y z hy hz (hb.unique _ _ _ _ hyx hzx hyh hzh hid)

/-! ## Steps -/

/-- Session `k` takes a step, and its name may be entered in the table or taken out of it. -/
theorem move (h : Shows num v x) (hy : v.At k y) (after : Stage) (b : Bool)
    (hw : w.At = (v.set k { y with stage := after }).At)
    (hsessions : x'.sessions =
      Function.update x.sessions (num k) (some (Info.node { y with stage := after } b)))
    (hids : x'.nodeIDs = w.nodeIDs)
    (hnodes : ∀ name, x'.nodes name = (w.nodes.lookup name).map num)
    (hmem : ∀ p ∈ w.nodes, p = (y.name, k) ∨ p ∈ v.nodes) : Shows num w x' := by
  have hat : ∀ l u, w.At l u → ∃ u', v.At l u' := by
    intro l u hu
    rw [hw] at hu
    rcases hu with ⟨rfl, -⟩ | ⟨-, hu⟩
    · exact ⟨y, hy⟩
    · exact ⟨u, hu⟩
  refine ⟨hids, hnodes, fun p hp => ?_, fun l u hu => ?_, fun l m u u' hu hu' hnum => ?_⟩
  · rw [hw]
    rcases hmem p hp with rfl | hp
    · exact ⟨_, v.at_self k _, rfl⟩
    · obtain ⟨u, hu, hup⟩ := h.known p hp
      by_cases hpk : p.2 = k
      · rw [hpk] at hu ⊢
        exact ⟨_, v.at_self k _, h.at_unique hy hu ▸ hup⟩
      · exact ⟨u, .inr ⟨hpk, hu⟩, hup⟩
  · rw [hsessions]
    rw [hw] at hu
    rcases hu with ⟨rfl, rfl⟩ | ⟨hl, hu⟩
    · exact ⟨b, Function.update_self ..⟩
    · rw [Function.update_of_ne fun he => hl (h.inj l k u y hu hy he)]
      exact h.sessions l u hu
  · obtain ⟨t, ht⟩ := hat l u hu
    obtain ⟨t', ht'⟩ := hat m u' hu'
    exact h.inj l m t t' ht ht' hnum

theorem exists_step (h : Shows num v x) (hy : v.At k y) {after : Stage}
    {effect : NodeInfo ν → State ν → State ν}
    (hstep : step x a = x.move (num k) y.stage after effect) :
    ∃ b, step x a =
      some (effect (y.node b) (x.setSession (num k) (Info.node { y with stage := after } b))) := by
  obtain ⟨b, hx⟩ := h.sessions k y hy
  exact ⟨b, hstep.trans (move_of_stage hx rfl)⟩

theorem stage (h : Shows num v x) (hy : v.At k y) {after : Stage}
    (hstep : step x a = x.move (num k) y.stage after fun _ t => t) :
    ∃ x', step x a = some x' ∧ Shows num (v.set k { y with stage := after }) x' := by
  obtain ⟨b, hs⟩ := h.exists_step hy hstep
  exact ⟨_, hs, h.move hy after b rfl rfl h.nodeIDs h.nodes fun _ hp => .inr hp⟩

theorem handshake (h : Shows num v x) (hy : v.At k y) (hstage : y.stage = .dialing) :
    ∃ x', step x (.handshake (num k)) = some x' ∧ Shows num (v.set k { y with stage := .sent }) x' := by
  obtain ⟨b, hs⟩ := h.exists_step hy (a := .handshake (num k)) (by rw [step, hstage])
  exact ⟨_, hs, h.move hy .sent true rfl (Function.update_idem ..) h.nodeIDs h.nodes
    fun _ hp => .inr hp⟩

theorem list (h : Shows num v x) (hy : v.At k y) (hstage : y.stage = .sent) :
    ∃ x', step x (.list (num k)) = some x' ∧
      Shows num { v.set k { y with stage := .live } with
        nodes := (y.name, k) :: v.nodes.filter fun p => p.1 ≠ y.name } x' := by
  obtain ⟨b, hs⟩ := h.exists_step hy (a := .list (num k)) (by rw [step, hstage])
  refine ⟨_, hs, h.move hy .live b rfl rfl h.nodeIDs (fun name => ?_) fun p hp => ?_⟩
  · change Function.update x.nodes y.name (some (num k)) name = _
    rw [List.lookup_cons, lookup_filter_ne]
    by_cases hname : name = y.name
    · rw [hname, Function.update_self, beq_self_eq_true]
      rfl
    · rw [Function.update_of_ne hname, beq_false_of_ne hname, if_neg hname]
      exact h.nodes name
  · rcases List.mem_cons.1 hp with hp | hp
    · exact .inl hp
    · exact .inr (List.mem_of_mem_filter hp)

theorem freeNodeID (h : Shows num v x) (hy : v.At k y) (hstage : y.stage = .cleaned) :
    ∃ x', step x (.freeNodeID (num k)) = some x' ∧
      Shows num { v.set k { y with stage := .freed } with
        nodeIDs := Function.update v.nodeIDs y.nodeID false } x' := by
  obtain ⟨b, hs⟩ := h.exists_step hy (a := .freeNodeID (num k)) (by rw [step, hstage])
  refine ⟨_, hs, h.move hy .freed b rfl rfl ?_ h.nodes fun _ hp => .inr hp⟩
  rw [← h.nodeIDs]
  rfl

theorem delete (h : Shows num v x) (hy : v.At k y) (hstage : y.stage = .freed) :
    ∃ x', step x (.delete (num k)) = some x' ∧
      Shows num { v.set k { y with stage := .deleted } with
        nodes := v.nodes.filter fun p => p.1 ≠ y.name } x' := by
  obtain ⟨b, hs⟩ := h.exists_step hy (a := .delete (num k)) (by rw [step, hstage])
  refine ⟨_, hs, h.move hy .deleted b rfl rfl h.nodeIDs (fun name => ?_) fun p hp =>
    .inr (List.mem_of_mem_filter hp)⟩
  change Function.update x.nodes y.name none name = _
  rw [lookup_filter_ne, Function.update_apply]
  split_ifs with hname
  · rfl
  · exact h.nodes name

/-- A new session gets the next number. -/
theorem dial [DecidableEq κ] (h : Shows num v x) (hb : Base x) (hnew : ∀ y, ¬ v.At k y) (name : ν)
    {id : ℕ} (hid : allocNodeID v.nodeIDs = some id) :
    ∃ x', step x (.dial name) = some x' ∧
      Shows (Function.update num k x.dialled) { v.set k ⟨name, id, .dialing⟩ with
        nodeIDs := Function.update v.nodeIDs id true } x' := by
  refine ⟨{ x with
    nodeIDs := Function.update x.nodeIDs id true
    sessions := Function.update x.sessions x.dialled (some ⟨name, id, .dialing, false⟩)
    dialled := x.dialled + 1 }, by simp only [step, h.nodeIDs, hid], ?_⟩
  have hne : ∀ l y, v.At l y → num l < x.dialled := by
    intro l y hy
    obtain ⟨_, hl⟩ := h.sessions l y hy
    exact hb.bound _ _ hl
  have hold : ∀ l y, v.At l y → Function.update num k x.dialled l = num l := by
    intro l y hy
    refine Function.update_of_ne ?_ ..
    rintro rfl
    exact hnew y hy
  have hcases : ∀ l u, (v.set k ⟨name, id, .dialing⟩).At l u →
      l = k ∧ u = ⟨name, id, .dialing⟩ ∨ v.At l u := fun l u hu => hu.imp_right And.right
  refine ⟨congrArg (Function.update · id true) h.nodeIDs, fun m => ?_, fun p hp => ?_,
    fun l u hu => ?_, fun l m u u' hu hu' hnum => ?_⟩
  · dsimp only [Tables.set]
    rw [h.nodes]
    cases hm : v.nodes.lookup m with
    | none => rfl
    | some l =>
      obtain ⟨l₁, l₂, heq, -⟩ := List.lookup_eq_some_iff.1 hm
      obtain ⟨y, hy, -⟩ := h.known (m, l) (by rw [heq]; simp)
      rw [Option.map_some, Option.map_some, hold l y hy]
  · obtain ⟨y, hy, hname⟩ := h.known p hp
    exact ⟨y, .inr ⟨fun he => hnew y (he ▸ hy), hy⟩, hname⟩
  · dsimp only
    rcases hcases l u hu with ⟨rfl, rfl⟩ | hu
    · exact ⟨false, by rw [Function.update_self, Function.update_self]; rfl⟩
    · rw [hold l u hu, Function.update_of_ne (hne l u hu).ne]
      exact h.sessions l u hu
  · replace hu := hcases l u hu
    replace hu' := hcases m u' hu'
    rcases hu with ⟨rfl, -⟩ | hu <;> rcases hu' with ⟨rfl, -⟩ | hu'
    · rfl
    · rw [Function.update_self, hold m u' hu'] at hnum
      exact absurd hnum.symm (hne m u' hu').ne
    · rw [Function.update_self, hold l u hu] at hnum
      exact absurd hnum (hne l u hu).ne
    · rw [hold l u hu, hold m u' hu'] at hnum
      exact h.inj l m u u' hu hu' hnum

end Shows

/-! ## Runs -/

/-- From the state, the sessions can come to the tables. -/
def Leads (x : State ν) (v : Tables κ ν) : Prop :=
  ∃ as x', (hub ν).run x as = some x' ∧ ∃ num, Shows num v x'

theorem Shows.leads (h : Shows num v x) (hw : w = v) : Leads x w := ⟨[], x, rfl, num, hw ▸ h⟩

/-- A model may forget sessions that are not in the table. -/
theorem Shows.leads_of_forget (h : Shows num v x) (hids : w.nodeIDs = v.nodeIDs)
    (hnodes : w.nodes = v.nodes) (hknown : ∀ p ∈ w.nodes, ∃ y, w.At p.2 y ∧ y.name = p.1)
    (hAt : ∀ k y, w.At k y → v.At k y) : Leads x w := by
  refine ⟨[], x, rfl, num, h.nodeIDs.trans hids.symm, fun name => ?_, hknown,
    fun k y hy => h.sessions k y (hAt k y hy), fun k l y z hy hz => ?_⟩
  · rw [hnodes, h.nodes]
  · exact h.inj k l y z (hAt k y hy) (hAt l z hz)

theorem Leads.step (hs : step x a = some x') (h : Leads x' v) : Leads x v := by
  obtain ⟨as, x'', hr, hv⟩ := h
  exact ⟨a :: as, x'', Option.bind_eq_some_iff.2 ⟨x', hs, hr⟩, hv⟩

theorem leads_of_step (h : ∃ x', Session.step x a = some x' ∧ Shows num v x') (hw : w = v) :
    Leads x w := by
  obtain ⟨x', hs, hv⟩ := h
  exact .step hs (hv.leads hw)

end

end Mmfg.Session
