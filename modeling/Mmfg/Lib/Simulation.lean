import Mmfg.Lib.System

/-!
# Forward simulation between systems

A label says which abstract action, if any, a step stands for; it may read the state before the
step.  `Simulates` asks that a step with a label is matched by the abstract step and that one
without a label is not seen.  Then every run of the concrete system is a run of the abstract one
over its labels, in the order of the labelled steps (`Simulates.run`).

Where only the states matter, a step may also stand for a whole run (`Reaches.refines`).
-/

namespace System

variable {σ τ α β : Type} {M : System σ α} {N : System τ β} {ok : σ → α → Prop}
  {label : σ → α → Option β} {R : σ → τ → Prop} {s t : σ} {a : α} {as : List α}

variable (M) in
/-- Every step of the run satisfies `ok` when it is taken. -/
def RunOk (ok : σ → α → Prop) : σ → List α → Prop
  | _, [] => True
  | s, a :: as => ok s a ∧ ∀ t ∈ M.step s a, RunOk ok t as

variable (M) in
/-- The labelled steps of a run. -/
def trace (label : σ → α → Option β) : σ → List α → List (α × β)
  | _, [] => []
  | s, a :: as =>
    ((label s a).map fun b => (a, b)).toList ++ (M.step s a).elim [] fun t => trace label t as

theorem runOk_of_forall (h : ∀ a ∈ as, ∀ s, ok s a) : M.RunOk ok s as := by
  induction as generalizing s with
  | nil => trivial
  | cons a as ih =>
    refine ⟨h a List.mem_cons_self s, fun t _ => ih fun b hb => ?_⟩
    exact h b (List.mem_cons_of_mem _ hb)

theorem RunOk.and {ok' : σ → α → Prop} (h : M.RunOk ok s as) (h' : M.RunOk ok' s as) :
    M.RunOk (fun s a => ok s a ∧ ok' s a) s as := by
  induction as generalizing s with
  | nil => trivial
  | cons a as ih => exact ⟨⟨h.1, h'.1⟩, fun t ht => ih (h.2 t ht) (h'.2 t ht)⟩

/-- The end of a run satisfies what the run does. -/
theorem RunOk.append {bs : List α} (h : M.RunOk ok s (as ++ bs)) (hr : M.run s as = some t) :
    M.RunOk ok s as ∧ M.RunOk ok t bs := by
  induction as generalizing s with
  | nil =>
    cases hr
    exact ⟨trivial, h⟩
  | cons a as ih =>
    rw [run_cons, Option.bind_eq_some_iff] at hr
    obtain ⟨u, hu, hr⟩ := hr
    obtain ⟨has, hbs⟩ := ih (h.2 u hu) hr
    refine ⟨⟨h.1, fun v hv => ?_⟩, hbs⟩
    obtain rfl : u = v := Option.some.inj (hu.symm.trans hv)
    exact has

theorem runOk_of_runWith [∀ s a, Decidable (ok s a)] (h : M.runWith ok s as = some t) :
    M.run s as = some t ∧ M.RunOk ok s as := by
  induction as generalizing s with
  | nil => exact ⟨h, trivial⟩
  | cons a as ih =>
    rw [System.runWith] at h
    split_ifs at h with ha
    rw [Option.bind_eq_some_iff] at h
    obtain ⟨u, hu, h⟩ := h
    obtain ⟨hr, hok⟩ := ih h
    refine ⟨by rw [run_cons, hu]; exact hr, ha, fun v hv => ?_⟩
    obtain rfl : u = v := Option.some.inj (hu.symm.trans hv)
    exact hok

theorem trace_cons (h : M.step s a = some t) :
    M.trace label s (a :: as) =
      ((label s a).map fun b => (a, b)).toList ++ M.trace label t as := by
  rw [trace, h, Option.elim_some]

variable (M) in
/-- The labels of the steps of a run that `mine` picks. -/
def labelsOf (label : σ → α → Option β) (mine : α → Bool) (s : σ) (as : List α) : List β :=
  ((M.trace label s as).filter fun x => mine x.1).map Prod.snd

theorem labelsOf_cons {mine : α → Bool} (h : M.step s a = some t) :
    M.labelsOf label mine s (a :: as) =
      (if mine a then (label s a).toList else []) ++ M.labelsOf label mine t as := by
  unfold labelsOf
  rw [trace_cons h, List.filter_append, List.map_append]
  congr 1
  cases label s a with
  | none => cases mine a <;> rfl
  | some b => cases hm : mine a <;> simp [hm]

variable (M N) in
/-- The steps of `M` that satisfy `ok` stand for the steps of `N` that `label` gives. -/
structure Simulates (ok : σ → α → Prop) (label : σ → α → Option β) (R : σ → τ → Prop) : Prop where
  skip {s s' : σ} {t : τ} {a : α} : R s t → ok s a → M.step s a = some s' → label s a = none →
    R s' t
  take {s s' : σ} {t : τ} {a : α} {b : β} : R s t → ok s a → M.step s a = some s' →
    label s a = some b → ∃ t', N.step t b = some t' ∧ R s' t'

/-- A run is a run of the abstract system over its labels. -/
theorem Simulates.run (h : Simulates M N ok label R) {s s' : σ} {t : τ} (hR : R s t)
    (hok : M.RunOk ok s as) (hr : M.run s as = some s') :
    ∃ t', N.run t ((M.trace label s as).map Prod.snd) = some t' ∧ R s' t' := by
  induction as generalizing s t with
  | nil =>
    cases hr
    exact ⟨t, rfl, hR⟩
  | cons a as ih =>
    rw [run_cons, Option.bind_eq_some_iff] at hr
    obtain ⟨u, hu, hr⟩ := hr
    rw [trace_cons hu]
    cases hlabel : label s a with
    | none => exact ih (h.skip hR hok.1 hu hlabel) (hok.2 u hu) hr
    | some b =>
      obtain ⟨t₁, ht₁, hR⟩ := h.take hR hok.1 hu hlabel
      obtain ⟨t', ht', hR⟩ := ih hR (hok.2 u hu) hr
      refine ⟨t', ?_, hR⟩
      rw [Option.map_some, Option.toList_some, List.cons_append, List.nil_append, List.map_cons,
        run_cons, ht₁]
      exact ht'

/-- If each step is matched by a run, every state that is reached is related to a reachable one. -/
theorem Reaches.refines (init : ∀ s, M.Init s → ∃ t, N.Init t ∧ R s t)
    (step : ∀ s a s' t, M.Reaches ok s → N.Reachable t → R s t → ok s a → M.step s a = some s' →
      ∃ bs t', N.run t bs = some t' ∧ R s' t')
    (h : M.Reaches ok s) : ∃ t, N.Reachable t ∧ R s t := by
  induction h with
  | init hs =>
    obtain ⟨t, ht, hR⟩ := init _ hs
    exact ⟨t, .init ht, hR⟩
  | step hs hok hst ih =>
    obtain ⟨t, ht, hR⟩ := ih
    obtain ⟨bs, t', hr, hR'⟩ := step _ _ _ t hs ht hR hok hst
    exact ⟨t', ht.run (fun _ _ _ => trivial) hr, hR'⟩

end System
