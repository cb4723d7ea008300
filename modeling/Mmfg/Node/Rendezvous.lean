import Mmfg.Lib.Progress
import Mmfg.Node.Invariant

/-!
# Every answer reaches the call that asked

The event loop sends while it holds `wMu`.  If the goroutine that it sends to needed the mutex, or never
came to receive, the node would be stuck with all its handlers.  `answers_arrive` says that this does
not happen, as long as at any time there is at most one call of `RequestExpand` for a slot and the hub
answers to the node nothing but its own requests: the loop never sends on a closed channel, what a call
receives is what the hub has answered to it, and from every state on the node comes to hand over all the
answers that it has.  An answer to the request of another node can be received in place of the own one.
-/

namespace Mmfg.Node

variable {s t : State} {i : ℕ}

/-! ## Progress -/

/-- The node takes a step by itself. -/
def Internal (_ : State) : Action → Prop
  | .run .. | .loop | .meet _ => True
  | _ => False

/-- Bounds the steps that a goroutine can take before the handler goes on or the hub answers. -/
def HandlerPC.rank : HandlerPC → ℕ
  | .lock _ => 7
  | .register _ => 6
  | .unlock _ => 5
  | .push _ => 4
  | .notify _ => 3
  | .receive _ => 2
  | .close .. => 1
  | .setDone => 3
  | .respond => 2
  | .notifyHub => 1
  | .running | .finished => 0

/-- The steps of the event loop to its next command. -/
def LoopPC.rank : LoopPC → ℕ
  | .lock .. => 5
  | .lookup .. => 4
  | .send .. => 3
  | .delete _ => 2
  | .unlock => 1
  | .idle | .panicked => 0

/-- The steps that handlers and event loop have left without a new command. -/
def State.rank (s : State) : ℕ :=
  ∑ i ∈ Finset.range s.started, (s.handlers i).pc.rank + s.loop.rank + 6 * s.queue.length

theorem rank_moves (h : Inv s) {pc : HandlerPC} (hm : Moves s t i pc)
    (hlt : pc.rank < (s.handlers i).pc.rank) :
    ∑ i ∈ Finset.range t.started, (t.handlers i).pc.rank <
      ∑ i ∈ Finset.range s.started, (s.handlers i).pc.rank := by
  have hi : i < s.started := h.live fun he => by
    rw [he] at hlt
    exact absurd hlt (Nat.not_lt_zero _)
  have hrank : ∀ j, (t.handlers j).pc.rank = Function.update (s.seen HandlerPC.rank) i pc.rank j :=
    fun j => congrFun (hm.seen HandlerPC.rank) j
  rw [hm.started]
  refine Finset.sum_lt_sum (fun j _ => ?_) ⟨i, Finset.mem_range.2 hi, ?_⟩
  · rw [hrank]
    by_cases hj : j = i
    · subst hj
      rw [Function.update_self]
      exact hlt.le
    · rw [Function.update_of_ne hj]
      rfl
  · rw [hrank, Function.update_self]
    exact hlt

theorem rank_stepHandler {choice : Bool} (h : Inv s) (hs : s.stepHandler i choice = some t) :
    t.rank < s.rank ∧ t.answers = s.answers := by
  have key : ∃ pc, Moves s t i pc ∧ pc.rank < (s.handlers i).pc.rank ∧ t.loop = s.loop ∧
      t.queue = s.queue ∧ t.answers = s.answers := by
    unfold State.stepHandler at hs
    cases hpc : (s.handlers i).pc <;> simp only [hpc] at hs
    case lock ch =>
      split_ifs at hs
      cases hs
      exact ⟨_, moves_of rfl rfl, by simp [HandlerPC.rank], rfl, rfl, rfl⟩
    case push ch =>
      cases choice <;> cases hs <;>
        exact ⟨_, moves_of rfl rfl, by simp [HandlerPC.rank], rfl, rfl, rfl⟩
    all_goals cases hs
    all_goals exact ⟨_, moves_of rfl rfl, by simp [HandlerPC.rank], rfl, rfl, rfl⟩
  obtain ⟨pc, hm, hlt, hloop, hqueue, hanswers⟩ := key
  have := rank_moves h hm hlt
  refine ⟨?_, hanswers⟩
  rw [State.rank, State.rank, hloop, hqueue]
  omega

theorem rank_stepLoop (h : Inv s) (hs : s.stepLoop = some t) :
    t.rank < s.rank ∧ t.answers = s.answers := by
  unfold State.stepLoop at hs
  cases hl : s.loop <;> simp only [hl] at hs
  case idle =>
    cases hq : s.queue with
    | nil =>
      rw [hq] at hs
      cases hs
    | cons m q =>
      rw [hq] at hs
      cases m <;> cases hs <;> refine ⟨?_, rfl⟩
      · -- the new handler is with its own code
        have hsum : ∀ k, ∑ j ∈ Finset.range (s.started + 1), (Function.update s.handlers s.started
            (Handler.mk k .running false) j).pc.rank =
            ∑ j ∈ Finset.range s.started, (s.handlers j).pc.rank := by
          intro k
          rw [Finset.sum_range_succ, Function.update_self]
          refine (Nat.add_zero _).trans (Finset.sum_congr rfl fun j hj => ?_)
          rw [Function.update_of_ne (Finset.mem_range.1 hj).ne]
        simp only [State.rank, hsum, hl, hq, List.length_cons]
        omega
      · simp only [State.rank, hl, hq, List.length_cons]
        omega
      · simp only [State.rank, hl, hq, List.length_cons, LoopPC.rank]
        omega
  case lock k ok c =>
    split_ifs at hs
    cases hs
    simp [State.rank, hl, LoopPC.rank]
  case lookup k ok asker =>
    obtain ⟨c, rfl⟩ := h.exists_asker (congrArg LoopPC.solicited hl)
    rw [(h.lookup hl).1] at hs
    cases hs
    simp [State.rank, hl, LoopPC.rank]
  case send k ok c ch =>
    rw [h.send_open hl] at hs
    cases hs
  all_goals cases hs
  all_goals simp [State.rank, hl, LoopPC.rank]

theorem rank_stepMeet (h : Inv s) (hs : s.stepMeet i = some t) :
    t.rank < s.rank ∧ t.answers = s.answers := by
  obtain ⟨k, ok, c, ch, hl, hpc, rfl⟩ := stepMeet_eq_some hs
  refine ⟨?_, rfl⟩
  have hsum := rank_moves h (t := { s.goto i (.close ch ok) with
    loop := .delete k
    results := Function.update s.results ch (some ok) }) (moves_of rfl rfl)
    (by simp [hpc, HandlerPC.rank])
  simp only [State.rank, hl, LoopPC.rank] at hsum ⊢
  change _ + 2 + 6 * s.queue.length < _
  omega

theorem rank_step {a : Action} (h : Inv s) (ha : Internal s a) (hs : step s a = some t) :
    t.rank < s.rank ∧ t.answers = s.answers := by
  cases a with
  | run i choice => exact rank_stepHandler h hs
  | loop => exact rank_stepLoop h hs
  | meet i => exact rank_stepMeet h hs
  | _ => exact ha.elim

/-- All answers have been handed over, and the handlers that wait for one wait for the hub. -/
structure Settled (s : State) : Prop where
  queue : s.queue = []
  loop : s.loop = .idle
  handlers : ∀ i, (s.handlers i).pc = .running ∨ (s.handlers i).pc = .finished ∨
    ∃ ch, (s.handlers i).pc = .receive ch ∧ ((s.handlers i).slot, ch) ∈ s.asked

/-- A goroutine that can always go on. -/
def HandlerPC.free : HandlerPC → Bool
  | .running | .finished | .lock _ | .receive _ => false
  | _ => true

theorem HandlerPC.free_of_holds {pc : HandlerPC} (h : pc.holds = true) : pc.free = true := by
  cases pc <;> first | rfl | cases h

theorem exists_stepHandler (h : (s.handlers i).pc.free = true) :
    ∃ t, s.stepHandler i true = some t := by
  unfold State.stepHandler
  cases hpc : (s.handlers i).pc <;> rw [hpc] at h <;> simp only [hpc] <;>
    first | exact ⟨_, rfl⟩ | cases h

/-- If no goroutine can go on by itself, the mutex is free or the event loop has it. -/
theorem wMu_of_not_free (h : Inv s) (hfree : ∀ i, (s.handlers i).pc.free = false)
    (hl : s.loop.holds = false) : s.wMu = none := by
  cases hmu : s.wMu with
  | none => rfl
  | some holder =>
    cases holder with
    | loop => exact nomatch (h.mutex.loop.1 hmu).symm.trans hl
    | handler i =>
      have hi := HandlerPC.free_of_holds ((h.mutex.handler i).1 hmu)
      exact nomatch hi.symm.trans (hfree i)

/-- Before everything is handed over some step can be taken. -/
theorem exists_step (h : Inv s) (hnot : ¬ Settled s) :
    ∃ a t, Internal s a ∧ step s a = some t := by
  by_cases hfree : ∃ i, (s.handlers i).pc.free = true
  · obtain ⟨i, hi⟩ := hfree
    obtain ⟨t, ht⟩ := exists_stepHandler hi
    exact ⟨.run i true, t, trivial, ht⟩
  have hblocked : ∀ i, (s.handlers i).pc.free = false := fun i => by
    simpa using fun he => hfree ⟨i, he⟩
  cases hl : s.loop with
  | idle =>
    have hmu := wMu_of_not_free h hblocked (by rw [hl]; rfl)
    cases hq : s.queue with
    | cons m q =>
      refine ⟨.loop, ?_⟩
      cases m <;> exact ⟨_, trivial, by simp [step, State.stepLoop, hl, hq]; rfl⟩
    | nil =>
      by_cases hlock : ∃ i ch, (s.handlers i).pc = .lock ch
      · obtain ⟨i, ch, hpc⟩ := hlock
        exact ⟨.run i true, _, trivial, by simp [step, State.stepHandler, hpc, hmu]; rfl⟩
      · refine absurd ⟨hq, hl, fun i => ?_⟩ hnot
        have hi := hblocked i
        cases hpc : (s.handlers i).pc <;> rw [hpc] at hi
        case running => exact .inl rfl
        case finished => exact .inr (.inl rfl)
        case lock ch => exact absurd ⟨i, ch, hpc⟩ hlock
        case receive ch =>
          have hm := (h.tokens.mem _ _).2 ⟨i, rfl, congrArg HandlerPC.awaits hpc⟩
          simp only [State.tokens, State.flight, State.slotOf, hl, hq, LoopPC.answer] at hm
          exact .inr (.inr ⟨ch, rfl, by simpa using hm⟩)
        all_goals cases hi
  | lock k ok c =>
    have hmu := wMu_of_not_free h hblocked (by rw [hl]; rfl)
    exact ⟨.loop, _, trivial, by simp [step, State.stepLoop, hl, hmu]; rfl⟩
  | lookup k ok asker =>
    obtain ⟨c, rfl⟩ := h.exists_asker (congrArg LoopPC.solicited hl)
    exact ⟨.loop, _, trivial, by simp [step, State.stepLoop, hl, (h.lookup hl).1]; rfl⟩
  | send k ok asker c =>
    -- the call that is answered needs nothing but this to go on
    obtain rfl := h.sends k ok asker c hl
    obtain ⟨i, -, hi, -, -⟩ := h.asker_of_loop (congrArg LoopPC.answer hl)
    have hpc : (s.handlers i).pc = .receive c := by
      have hfr := hblocked i
      simp only [State.seen] at hi
      cases hpc : (s.handlers i).pc <;> rw [hpc] at hi hfr <;> cases hi
      · cases hfr
      · rfl
    exact ⟨.meet i, _, trivial, by simp [step, State.stepMeet, hl, hpc, h.send_open hl]; rfl⟩
  | delete k => exact ⟨.loop, _, trivial, by simp [step, State.stepLoop, hl]; rfl⟩
  | unlock => exact ⟨.loop, _, trivial, by simp [step, State.stepLoop, hl]; rfl⟩
  | panicked => exact absurd hl h.calm

theorem Inv.results_eq (h : Inv s) (hs : Settled s) : s.results = s.answers := by
  have hflight : s.flight = [] := by
    simp [State.flight, hs.queue, hs.loop, LoopPC.answer]
  funext ch
  cases ha : s.answers ch with
  | some ok =>
    refine (h.history.answered ch ok ha).resolve_right ?_
    rintro ⟨k, hk⟩
    rw [hflight] at hk
    cases hk
  | none =>
    cases hr : s.results ch with
    | none => rfl
    | some ok =>
      have hans := h.history.received ch ok hr
      rw [ha] at hans
      cases hans

/-- If there is never more than one call of `RequestExpand` for a slot, and the hub answers to the node
nothing but its own requests, the event loop does not panic, a call receives what the hub has answered to
its own request, and the node comes to hand over all the answers that it has, whatever the order of its
steps. -/
theorem answers_arrive (h : node.Reaches Orderly s) :
    s.loop ≠ .panicked ∧ (∀ ch ok, s.results ch = some ok → s.answers ch = some ok) ∧
    node.Inevitable Internal (fun t => Settled t ∧ t.results = s.answers) s := by
  have hinv := inv_of_reaches h
  refine ⟨hinv.calm, hinv.history.received, ?_⟩
  have horderly : ∀ t a, Internal t a → Orderly t a := by
    intro t a ha
    cases a <;> first | exact ⟨trivial, trivial⟩ | exact ha.elim
  refine System.inevitable_of_potential (fun t => Inv t ∧ t.answers = s.answers) State.rank
    (fun _ => 0) ?_ ?_ ?_ ⟨hinv, rfl⟩
  · rintro t a u ⟨ht, hans⟩ ha hs
    exact ⟨inv_step ht (horderly t a ha) hs, (rank_step ht ha hs).2.trans hans⟩
  · rintro t ⟨ht, hans⟩ hnot
    exact exists_step ht fun hset => hnot ⟨hset, (ht.results_eq hset).trans hans⟩
  · rintro t a u ⟨ht, -⟩ ha hs
    exact .inl (rank_step ht ha hs).1

/-- Two handlers ask, and the hub answers the second one before the first. -/
theorem answers_arrive_swapped :
    ∃ s, node.Reaches Orderly s ∧
      s.queue = [.expanded 7 false (some 1), .expanded 5 true (some 0)] ∧
      node.Inevitable Internal (fun t => Settled t ∧ t.results = s.answers) s := by
  obtain ⟨s, hr, hq⟩ := System.exists_reaches_of_runWith node Orderly
    ([.submit 5, .submit 7, .loop, .loop, .call 0, .call 1] ++
      [.run 0 true, .run 0 true, .run 0 true, .run 0 true] ++
      [.run 1 true, .run 1 true, .run 1 true, .run 1 true] ++
      [.answer 7 1 false, .answer 5 0 true])
    (fun s => s.queue = [.expanded 7 false (some 1), .expanded 5 true (some 0)])
    (rfl : node.Init initial) (by decide +kernel)
  exact ⟨s, hr, of_decide_eq_true hq, (answers_arrive hr).2.2⟩

-- the call 0 receives the answer to the request of an earlier owner; its own request is not answered
example : (node.run initial ([.submit 5, .loop, .call 0] ++
      [.run 0 true, .run 0 true, .run 0 true, .run 0 true, .run 0 true] ++
      [.stray 5 true, .loop, .loop, .loop, .meet 0])).map
    (fun s => (s.results 0, s.answers 0, s.asked)) = some (some true, none, [(5, 0)]) := by decide +kernel

end Mmfg.Node
