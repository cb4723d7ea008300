import Mathlib.Tactic

/-!
# Fair schedules

Several parties take turns on one state, and a schedule says whose turn is next.  The rule of helpful
parties: if in every state short of the goal the turn of one party lowers a rank, and the turns of the
others lower it as well or leave both the rank and that party as they are, then every schedule that
lets each party act again and again reaches the goal (`exists_goal`).
-/

namespace Schedule

variable {σ ι : Type}

/-- Each party has its turn again and again. -/
def Fair (turns : ℕ → ι) : Prop := ∀ (p : ι) (n : ℕ), ∃ m, n ≤ m ∧ turns m = p

/-- The state after `k` turns. -/
def after (step : σ → ι → σ) (turns : ℕ → ι) (s : σ) : ℕ → σ
  | 0 => s
  | k + 1 => step (after step turns s k) (turns k)

variable {step : σ → ι → σ} {turns : ℕ → ι} {s : σ} {I goal : σ → Prop} {rank : σ → ℕ}
  {helper : σ → ι}

theorem after_invariant (hs : I s) (hstep : ∀ s p, I s → I (step s p)) (k : ℕ) :
    I (after step turns s k) := by
  induction k with
  | zero => exact hs
  | succ k ih => exact hstep _ _ ih

/-- Short of the goal, the rank is lower at some later time. -/
theorem exists_lower (hI : ∀ k, I (after step turns s k))
    (hhelp : ∀ s, I s → ¬ goal s → rank (step s (helper s)) < rank s)
    (hothers : ∀ s p, I s → ¬ goal s → rank (step s p) < rank s ∨
      rank (step s p) = rank s ∧ helper (step s p) = helper s)
    (hfair : Fair turns) (hgoal : ∀ k, ¬ goal (after step turns s k)) (n : ℕ) :
    ∃ k, rank (after step turns s k) < rank (after step turns s n) := by
  by_contra hno
  push Not at hno
  -- then the rank stays, and the helpful party with it, until that party has its turn
  have hstay : ∀ d, rank (after step turns s (n + d)) = rank (after step turns s n) ∧
      helper (after step turns s (n + d)) = helper (after step turns s n) := by
    intro d
    induction d with
    | zero => exact ⟨rfl, rfl⟩
    | succ d ih =>
      have hle := hno (n + d + 1)
      rcases hothers _ (turns (n + d)) (hI (n + d)) (hgoal (n + d)) with hlt | ⟨hrank, hhelper⟩
      · exact absurd (ih.1 ▸ hlt) (not_lt.2 hle)
      · exact ⟨hrank.trans ih.1, hhelper.trans ih.2⟩
  obtain ⟨m, hm, hturn⟩ := hfair (helper (after step turns s n)) n
  obtain ⟨d, rfl⟩ := Nat.exists_eq_add_of_le hm
  have hlt := hhelp _ (hI (n + d)) (hgoal (n + d))
  rw [(hstay d).2, ← hturn, (hstay d).1] at hlt
  exact absurd hlt (not_lt.2 (hno (n + d + 1)))

theorem exists_goal (hs : I s) (hstep : ∀ s p, I s → I (step s p))
    (hhelp : ∀ s, I s → ¬ goal s → rank (step s (helper s)) < rank s)
    (hothers : ∀ s p, I s → ¬ goal s → rank (step s p) < rank s ∨
      rank (step s p) = rank s ∧ helper (step s p) = helper s)
    (hfair : Fair turns) : ∃ k, goal (after step turns s k) := by
  by_contra hno
  push Not at hno
  have hlower := exists_lower (after_invariant hs hstep) hhelp hothers hfair hno
  -- the lowest rank of all times is not the lowest
  obtain ⟨r, ⟨n, hn⟩, hmin⟩ := WellFounded.has_min (wellFounded_lt : WellFounded (· < · : ℕ → ℕ → Prop))
    (Set.range fun k => rank (after step turns s k)) ⟨_, 0, rfl⟩
  obtain ⟨k, hk⟩ := hlower n
  exact hmin _ ⟨k, rfl⟩ (hn ▸ hk)

end Schedule
