import Mmfg.Lib.Simulation

/-!
# Progress under interference

A rank that every own step of a thread makes smaller, and to which each step of another thread may
add what it costs: then the own steps of a run are at most the rank at its start and the cost of
what the others do (`own_steps_le`).  `spent_eq` counts the cost by the labelled steps of others.
`inevitable_of_potential` is the rule for a whole system: if every step lowers a potential, or keeps
it and lowers a rank, and some step can be taken until the goal is reached, every run reaches it.
-/

namespace System

variable {σ α β : Type} {M : System σ α} {ok : σ → α → Prop} {s t : σ} {a : α} {as : List α}

variable (M) in
/-- What the steps of a run cost. -/
def spent (cost : σ → α → ℕ) : σ → List α → ℕ
  | _, [] => 0
  | s, a :: as => cost s a + (M.step s a).elim 0 fun t => spent cost t as

theorem spent_cons {cost : σ → α → ℕ} (h : M.step s a = some t) :
    M.spent cost s (a :: as) = cost s a + M.spent cost t as := by
  rw [spent, h, Option.elim_some]

/-- Own steps pay from the rank, other steps may add their cost to it. -/
theorem own_steps_le (I : σ → Prop) (rank : σ → ℕ) (own : α → Bool) (cost : σ → α → ℕ)
    (keep : ∀ s a t, I s → ok s a → M.step s a = some t → I t)
    (pay : ∀ s a t, I s → ok s a → M.step s a = some t → own a = true → rank t + 1 ≤ rank s)
    (add : ∀ s a t, I s → ok s a → M.step s a = some t → own a = false → rank t ≤ rank s + cost s a)
    (hI : I s) (hok : M.RunOk ok s as) (hr : M.run s as = some t) :
    as.countP own + rank t ≤ rank s + M.spent cost s as := by
  induction as generalizing s with
  | nil =>
    cases hr
    exact (Nat.zero_add _).le
  | cons a as ih =>
    rw [run_cons, Option.bind_eq_some_iff] at hr
    obtain ⟨u, hu, hr⟩ := hr
    have hrest := ih (keep s a u hI hok.1 hu) (hok.2 u hu) hr
    rw [spent_cons hu]
    cases hown : own a with
    | true =>
      have := pay s a u hI hok.1 hu hown
      rw [List.countP_cons_of_pos hown]
      omega
    | false =>
      have := add s a u hI hok.1 hu hown
      rw [List.countP_cons_of_neg (by simp [hown])]
      omega

/-- A fixed cost for each step that has a label of a certain kind. -/
theorem spent_eq (label : σ → α → Option β) (kind : α → β → Bool) (c : ℕ) (s : σ) (as : List α) :
    M.spent (fun s a => if (label s a).any (kind a) then c else 0) s as =
      c * ((M.trace label s as).countP fun x => kind x.1 x.2) := by
  induction as generalizing s with
  | nil => rfl
  | cons a as ih =>
    have hrest : (M.step s a).elim 0 (fun t => M.spent
        (fun s a => if (label s a).any (kind a) then c else 0) t as) =
        c * ((M.step s a).elim [] fun t => M.trace label t as).countP fun x => kind x.1 x.2 := by
      cases M.step s a with
      | none => rfl
      | some t => exact ih t
    rw [spent, trace, List.countP_append, Nat.mul_add, hrest]
    congr 1
    cases label s a with
    | none => rfl
    | some b => cases hk : kind a b <;> simp [hk]

/-- What every step keeps still holds where the runs come to. -/
theorem Inevitable.and_invariant {I Q : σ → Prop}
    (keep : ∀ s a t, I s → ok s a → M.step s a = some t → I t) (h : M.Inevitable ok Q s) (hI : I s) :
    M.Inevitable ok (fun t => Q t ∧ I t) s := by
  induction h with
  | here hq => exact .here ⟨hq, hI⟩
  | step hsome _ ih => exact .step hsome fun a t hok hs => ih a t hok hs (keep _ a t hI hok hs)

/-- A system that is not stuck before `Q`, and whose steps lower the potential or else the rank, comes
to `Q` whatever steps it takes. -/
theorem inevitable_of_potential {Q : σ → Prop} (I : σ → Prop) (potential rank : σ → ℕ)
    (keep : ∀ s a t, I s → ok s a → M.step s a = some t → I t)
    (next : ∀ s, I s → ¬ Q s → ∃ a t, ok s a ∧ M.step s a = some t)
    (lower : ∀ s a t, I s → ok s a → M.step s a = some t →
      potential t < potential s ∨ potential t = potential s ∧ rank t < rank s)
    (hI : I s) : M.Inevitable ok Q s := by
  generalize hn : potential s = n
  induction n using Nat.strong_induction_on generalizing s with
  | _ n ihn =>
    generalize hm : rank s = m
    induction m using Nat.strong_induction_on generalizing s with
    | _ m ihm =>
      by_cases hQ : Q s
      · exact .here hQ
      · refine .step (next s hI hQ) fun a t hok hs => ?_
        have hIt := keep s a t hI hok hs
        rcases lower s a t hI hok hs with hlt | ⟨heq, hlt⟩
        · exact ihn _ (hn ▸ hlt) hIt rfl
        · exact ihm _ (hm ▸ hlt) hIt (heq.trans hn) rfl

end System
