import Mathlib.Tactic

/-!
# Transition systems with a guarded step function

A system is a set of initial states and a partial step function: `step s a` is `none` when action
`a` is not enabled in `s`.  `Reaches ok` collects the states of the runs whose steps all satisfy
the condition `ok`, which reads the state before the step and the action; `Reachable` is the case
without a condition.  Invariants are proved with `Reaches.invariant`, concrete runs are replayed
with `run` and turned into reachability facts by `reaches_of_run`.
-/

/-- Initial states and a partial step function. -/
structure System (σ α : Type) where
  Init : σ → Prop
  step : σ → α → Option σ

namespace System

variable {σ α : Type} (M : System σ α)

/-- The states reached by runs whose steps all satisfy `ok`. -/
inductive Reaches (ok : σ → α → Prop) : σ → Prop where
  | init {s : σ} : M.Init s → Reaches ok s
  | step {s t : σ} {a : α} : Reaches ok s → ok s a → M.step s a = some t → Reaches ok t

/-- The states reached by any run. -/
def Reachable : σ → Prop := M.Reaches fun _ _ => True

/-- Perform the actions in order; `none` as soon as one of them is not enabled. -/
def run : σ → List α → Option σ
  | s, [] => some s
  | s, a :: as => (M.step s a).bind fun t => run t as

/-- The actions are performed in order and each one satisfies `ok` when it is taken. -/
def runWith (ok : σ → α → Prop) [∀ s a, Decidable (ok s a)] : σ → List α → Option σ
  | s, [] => some s
  | s, a :: as => if ok s a then (M.step s a).bind fun t => runWith ok t as else none

variable {M} {ok ok' : σ → α → Prop} {s t u : σ}

@[simp] theorem run_nil : M.run s [] = some s := rfl

theorem run_cons (a : α) (as : List α) :
    M.run s (a :: as) = (M.step s a).bind fun t => M.run t as := rfl

theorem run_append (as bs : List α) :
    M.run s (as ++ bs) = (M.run s as).bind fun t => M.run t bs := by
  induction as generalizing s with
  | nil => rfl
  | cons a as ih =>
    rw [List.cons_append, run_cons, run_cons, Option.bind_assoc]
    exact congrArg _ (funext fun t => ih)

/-- What holds initially and is kept by every step that satisfies `ok` holds in every state
reached; the step case may use that the state before the step is reached. -/
theorem Reaches.invariant {I : σ → Prop} (init : ∀ s, M.Init s → I s)
    (step : ∀ s a t, M.Reaches ok s → I s → ok s a → M.step s a = some t → I t)
    (h : M.Reaches ok s) : I s := by
  induction h with
  | init hs => exact init _ hs
  | step hs hok hst ih => exact step _ _ _ hs ih hok hst

theorem Reaches.mono (himp : ∀ s a, ok s a → ok' s a) (h : M.Reaches ok s) : M.Reaches ok' s := by
  induction h with
  | init hs => exact .init hs
  | step _ hok hst ih => exact .step ih (himp _ _ hok) hst

theorem Reaches.reachable (h : M.Reaches ok s) : M.Reachable s := h.mono fun _ _ _ => trivial

theorem Reaches.run {as : List α} (h : M.Reaches ok s) (hok : ∀ a ∈ as, ∀ s, ok s a)
    (hr : M.run s as = some t) : M.Reaches ok t := by
  induction as generalizing s with
  | nil => cases hr; exact h
  | cons a as ih =>
    rw [run_cons, Option.bind_eq_some_iff] at hr
    obtain ⟨u, hu, hr⟩ := hr
    refine ih (.step h (hok a (by simp) s) hu) (fun b hb => hok b (by simp [hb])) hr

theorem reachable_of_run {as : List α} (hs : M.Init s) (hr : M.run s as = some t) :
    M.Reachable t :=
  Reaches.run (.init hs) (fun _ _ _ => trivial) hr

theorem Reaches.runWith [∀ s a, Decidable (ok s a)] {as : List α} (h : M.Reaches ok s)
    (hr : M.runWith ok s as = some t) : M.Reaches ok t := by
  induction as generalizing s with
  | nil => cases hr; exact h
  | cons a as ih =>
    rw [System.runWith] at hr
    split_ifs at hr with ha
    rw [Option.bind_eq_some_iff] at hr
    obtain ⟨u, hu, hr⟩ := hr
    exact ih (.step h ha hu) hr

variable (M) in
/-- Some run from the state, with steps that all satisfy `ok`, ends in a state with `Q`. -/
inductive CanReach (ok : σ → α → Prop) (Q : σ → Prop) : σ → Prop where
  | here {s : σ} : Q s → CanReach ok Q s
  | step {s t : σ} {a : α} : ok s a → M.step s a = some t → CanReach ok Q t → CanReach ok Q s

/-- Steps that make a rank smaller lead to `Q`, if they can be taken until `Q` can be reached. -/
theorem Reaches.canReach {P Q : σ → Prop} (rank : σ → ℕ)
    (next : ∀ s, M.Reaches ok s → P s → M.CanReach ok Q s ∨
      ∃ a t, ok s a ∧ M.step s a = some t ∧ P t ∧ rank t < rank s)
    (h : M.Reaches ok s) (hp : P s) : M.CanReach ok Q s := by
  generalize hn : rank s = n
  induction n using Nat.strong_induction_on generalizing s with
  | _ n ih =>
    rcases next s h hp with hq | ⟨a, t, hok, hst, hpt, hlt⟩
    · exact hq
    · exact .step hok hst (ih (rank t) (hn ▸ hlt) (.step h hok hst) hpt rfl)

variable (M) in
/-- Every run of steps that satisfy `ok` comes to a state with `Q`: short of it some such step can be
taken, and after each of them the same holds. -/
inductive Inevitable (ok : σ → α → Prop) (Q : σ → Prop) : σ → Prop where
  | here {s : σ} : Q s → Inevitable ok Q s
  | step {s : σ} : (∃ a t, ok s a ∧ M.step s a = some t) →
      (∀ a t, ok s a → M.step s a = some t → Inevitable ok Q t) → Inevitable ok Q s

theorem Inevitable.trans {P Q : σ → Prop} (h : M.Inevitable ok P s)
    (hnext : ∀ t, P t → M.Inevitable ok Q t) : M.Inevitable ok Q s := by
  induction h with
  | here hp => exact hnext _ hp
  | step hsome _ ih => exact .step hsome ih

variable (M) in
/-- From every state with `P`, all runs come to one with `Q`. -/
def LeadsTo (ok : σ → α → Prop) (P Q : σ → Prop) : Prop := ∀ s, P s → M.Inevitable ok Q s

theorem LeadsTo.trans {P Q R : σ → Prop} (h : M.LeadsTo ok P Q) (h' : M.LeadsTo ok Q R) :
    M.LeadsTo ok P R :=
  fun s hs => (h s hs).trans h'

variable (M) in
/-- A predicate found at the end of a replayed run holds in some reachable state. -/
theorem exists_reachable_of_run (as : List α) (p : σ → Bool) (hs : M.Init s)
    (hr : (M.run s as).map p = some true) : ∃ t, M.Reachable t ∧ p t = true := by
  obtain ⟨t, ht, hp⟩ := Option.map_eq_some_iff.1 hr
  exact ⟨t, reachable_of_run hs ht, hp⟩

variable (M ok) in
/-- The same for runs whose steps satisfy `ok`. -/
theorem exists_reaches_of_runWith [∀ s a, Decidable (ok s a)] (as : List α) (p : σ → Bool)
    (hs : M.Init s) (hr : (M.runWith ok s as).map p = some true) :
    ∃ t, M.Reaches ok t ∧ p t = true := by
  obtain ⟨t, ht, hp⟩ := Option.map_eq_some_iff.1 hr
  exact ⟨t, Reaches.runWith (.init hs) ht, hp⟩

end System
