import Mmfg.Lib.Progress
import Mmfg.Queue.Linear

/-!
# A push waits for nobody

How many steps a push takes.  It goes round once for every time it finds the ring full, which it
gives up after `pushSpins` times, and once more each time another producer claims the tail between
its read and its compare-and-swap.  So a push that goes on forever sees others succeed forever:
no producer can stop another one, not even by stopping itself in the middle of a push.
-/

namespace Mmfg.Queue

variable {ι : Type}

/-- The steps a push has before it, if nobody interferes. -/
def Push.stepsLeft (tail : UInt32) : Push → ℕ
  | .idle | .returned _ => 0
  | .readHead l _ spin => 2 * (l.pushSpins - spin) + 4
  | .readTail l _ spin _ => 2 * (l.pushSpins - spin) + 3
  -- a tail that has been claimed meanwhile means one more round
  | .cas l _ spin tail' => 2 * (l.pushSpins - spin) + if tail = tail' then 2 else 5
  | .store _ _ => 1

/-- A push of another producer than `p`. -/
def otherPush [DecidableEq ι] (p : ι) (a : Action ι) : Effect → Bool
  | .push _ => decide (a ≠ .push p)
  | _ => false

variable [DecidableEq ι] {s t : State ι} {a : Action ι} {p : ι}

theorem stepsLeft_push (hs : s.stepPush p = some t) :
    (t.producer p).stepsLeft t.tail + 1 ≤ (s.producer p).stepsLeft s.tail := by
  unfold State.stepPush at hs
  cases hp : s.producer p with
  | idle | returned => simp [hp] at hs
  | readHead l e spin =>
    simp only [hp, Option.some.injEq] at hs
    subst hs
    simp [State.setProducer, Push.stepsLeft]
  | readTail l e spin hd =>
    simp only [hp] at hs
    split_ifs at hs with hfull hspin <;> simp only [Option.some.injEq] at hs <;> subst hs
    · simp only [State.setProducer, Function.update_self, Push.stepsLeft]
      omega
    · simp [State.setProducer, Push.stepsLeft]
    · simp [State.setProducer, Push.stepsLeft]
  | cas l e spin tl =>
    simp only [hp] at hs
    split_ifs at hs with htl <;> simp only [Option.some.injEq] at hs <;> subst hs
    · simp [Push.stepsLeft, htl]
    · simp [State.setProducer, Push.stepsLeft, htl]
  | store e tl =>
    simp only [hp, Option.some.injEq] at hs
    subst hs
    simp [Push.stepsLeft]

theorem step_tail (hs : (queue ι).step s a = some t) :
    t.tail = s.tail ∨ ∃ e, effect s a = some (.push e) := by
  cases a with
  | callPush q l e =>
    simp only [queue, step] at hs
    split_ifs at hs
    cases hs
    exact .inl rfl
  | push q =>
    change s.stepPush q = some t at hs
    unfold State.stepPush at hs
    unfold effect
    cases hp : s.producer q <;> simp only [hp] at hs ⊢ <;> (try split_ifs at hs ⊢) <;>
      simp only [Option.some.injEq, reduceCtorEq] at hs <;> subst hs
    all_goals first | exact .inl rfl | exact .inr ⟨_, rfl⟩
  | callPop l =>
    simp only [queue, step] at hs
    split_ifs at hs
    cases hs
    exact .inl rfl
  | pop => exact .inl (stepPop_frame hs).2.1

theorem stepsLeft_le (tail tail' : UInt32) (pc : Push) :
    pc.stepsLeft tail' ≤ pc.stepsLeft tail + 3 := by
  cases pc with
  | cas l e spin tl =>
    simp only [Push.stepsLeft]
    split_ifs <;> omega
  | _ => simp [Push.stepsLeft]

/-- A step of another thread costs a push at most one round, and only if it is a claim. -/
theorem stepsLeft_other (hs : (queue ι).step s a = some t) (hcall : ∀ l e, a ≠ .callPush p l e)
    (ha : a ≠ .push p) :
    (t.producer p).stepsLeft t.tail ≤ (s.producer p).stepsLeft s.tail +
      if (effect s a).any (otherPush p a) then 3 else 0 := by
  rw [step_producer_of_ne hs hcall ha]
  rcases step_tail hs with htail | ⟨e, he⟩
  · rw [htail]
    omega
  · have hcost : (effect s a).any (otherPush p a) = true := by
      rw [he]
      simp [otherPush, ha]
    rw [if_pos hcost]
    exact stepsLeft_le _ _ _

/-- In every run from the call of a push on, the push takes at most four steps, two for each time it
may find the ring full, and three for each entry that others have claimed meanwhile. -/
theorem push_steps_le (s t : State ι) (p : ι) (l : Lang) (e : Entry) (as : List (Action ι))
    (hp : s.producer p = .readHead l e 0) (hcall : ∀ l' e', .callPush p l' e' ∉ as)
    (hr : (queue ι).run s as = some t) :
    as.countP (fun a => decide (a = .push p)) ≤ 2 * l.pushSpins + 4 +
      3 * ((queue ι).trace effect s as).countP fun x => otherPush p x.1 x.2 := by
  have hok : (queue ι).RunOk (fun _ a => ∀ l' e', a ≠ .callPush p l' e') s as := by
    refine System.runOk_of_forall fun a ha _ l' e' he => ?_
    exact hcall l' e' (he ▸ ha)
  have hle := System.own_steps_le (fun _ => True) (fun s => (s.producer p).stepsLeft s.tail)
    (fun a => decide (a = .push p))
    (fun s a => if (effect s a).any (otherPush p a) then 3 else 0)
    (fun _ _ _ _ _ _ => trivial) ?_ ?_ trivial hok hr
  · rw [System.spent_eq, hp] at hle
    simp only [Push.stepsLeft] at hle
    omega
  · intro u a v _ _ hs ha
    obtain rfl := of_decide_eq_true ha
    exact stepsLeft_push hs
  · intro u a v _ hcall hs ha
    exact stepsLeft_other hs hcall (of_decide_eq_false ha)

/-- A push of the hub that meets a claim of another goroutine at its compare-and-swap. -/
theorem push_steps_le_run : ∃ s t : State Bool, ∃ as : List (Action Bool),
    (queue Bool).run s as = some t ∧ t.producer true = .returned true ∧
      as.countP (fun a => decide (a = .push true)) ≤ 2 * Lang.pushSpins .go + 4 + 3 * 1 := by
  let s : State Bool := ⟨0, 0, fun _ => 0, fun _ => .readHead .go ⟨7, 1⟩ 0, .idle, [], []⟩
  let as : List (Action Bool) := [.push true, .push true, .push false, .push false, .push false,
    .push true, .push true, .push true, .push true, .push true]
  have hrun : ((queue Bool).run s as).map (fun t => t.producer true) = some (.returned true) := by
    decide
  obtain ⟨t, ht, hret⟩ := Option.map_eq_some_iff.1 hrun
  have hle := push_steps_le s t true .go ⟨7, 1⟩ as rfl (by simp [as]) ht
  have hcount : (((queue Bool).trace effect s as).countP fun x => otherPush true x.1 x.2) = 1 := by
    decide
  rw [hcount] at hle
  exact ⟨s, t, as, ht, hret, hle⟩

end Mmfg.Queue
