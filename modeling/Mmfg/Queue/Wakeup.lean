import Mmfg.Queue.Wrap

/-!
# Event loops

Every queue has an eventfd.  Producers push and then notify, which adds one to its counter; the
consumer pops until it gets nothing and then waits, which blocks while the counter is 0 and resets it
otherwise.  The hub's `dispatchLoop` starts with a pop, the loops of the nodes with a wait.

`no_lost_wakeup`: when the consumer sleeps with counter 0 and the queue is not empty, some producer
has claimed an entry and has still to notify.  For a consumer in Go this is always so, since its pop
gives nothing only when head and tail are equal.  A pop in Rust also gives up on an entry that is not
published; that the producer of such an entry has still to notify depends on the queue invariant, and
so on the condition under which the counters may wrap.  Without it a Rust node can sleep forever on
a queue with an entry (`wakeup_lost_after_wrap`).
-/

namespace Mmfg.Queue

variable {ι : Type}

/-- A queue with its eventfd; `waiting` says that the consumer is in `Wait`. -/
structure Loop (ι : Type) where
  queue : State ι
  counter : ℕ
  waiting : Bool

/-- Producers call push, take the steps of the push and notify; the consumer calls pop, takes the
steps of the pop, goes to `Wait` after a pop that gave nothing, and returns from it. -/
inductive LoopAction (ι : Type)
  | callPush (p : ι) (l : Lang) (e : Entry)
  | push (p : ι)
  | notify (p : ι)
  | callPop
  | pop
  | sleep
  | wake

variable [DecidableEq ι]

/-- The steps, for a consumer in language `l`.  A producer that has returned from a successful push
notifies before it does anything else. -/
def loopStep (l : Lang) (s : Loop ι) : LoopAction ι → Option (Loop ι)
  | .callPush p l e =>
    if s.queue.producer p = .returned true then none
    else (step s.queue (.callPush p l e)).map fun q => { s with queue := q }
  | .push p => (step s.queue (.push p)).map fun q => { s with queue := q }
  | .notify p =>
    if s.queue.producer p = .returned true then
      some { s with queue := s.queue.setProducer p .idle, counter := s.counter + 1 }
    else none
  | .callPop =>
    if s.waiting = true ∨ s.queue.consumer = .returned none then none
    else (step s.queue (.callPop l)).map fun q => { s with queue := q }
  | .pop => (step s.queue .pop).map fun q => { s with queue := q }
  | .sleep =>
    if s.waiting = false ∧ s.queue.consumer = .returned none then
      some { s with queue := s.queue.setConsumer .idle, waiting := true }
    else none
  | .wake =>
    if s.waiting = true ∧ 0 < s.counter then some { s with counter := 0, waiting := false } else none

/-- The event loop of a consumer in language `l`, which starts with `Wait` or with a pop. -/
def eventLoop (ι : Type) [DecidableEq ι] (l : Lang) (waitsFirst : Bool) :
    System (Loop ι) (LoopAction ι) where
  Init s := s = { queue := initial, counter := 0, waiting := waitsFirst }
  step := loopStep l

/-- A consumer that sleeps with counter 0 on a queue that is not empty will be notified. -/
def NoLostWakeup (s : Loop ι) : Prop :=
  s.waiting = true → s.counter = 0 → s.queue.head ≠ s.queue.tail →
    ∃ p, (s.queue.producer p).Claimed

/-- The steps of the queue that a step of the loop takes. -/
def LoopAction.queue (l : Lang) : LoopAction ι → Option (Action ι)
  | .callPush p l e => some (.callPush p l e)
  | .push p => some (.push p)
  | .callPop => some (.callPop l)
  | .pop => some .pop
  | .notify _ | .sleep | .wake => none

/-- The command leaves the ready bit free, and a claim is made in a state that satisfies
`ClaimOk`. -/
def LoopClaimsOk (l : Lang) (s : Loop ι) (a : LoopAction ι) : Prop :=
  ∀ b ∈ a.queue l, ClaimsOk s.queue b

/-! ## The invariant -/

/-- The head that the consumer has read is the head. -/
def HeadRead (s : State ι) : Prop :=
  match s.consumer with
  | .readTail _ h | .readEntry _ h _ | .clear h _ | .storeHead h _ => h = s.head
  | _ => True

/-- The consumer will see what is in the queue: there is nothing, or it is or will be notified. -/
def WillSee (s : Loop ι) : Prop :=
  s.queue.head = s.queue.tail ∨ 0 < s.counter ∨ ∃ p, (s.queue.producer p).Claimed

/-- The consumer has found nothing and is about to wait or waits. -/
def Resting (s : Loop ι) : Prop := s.waiting = true ∨ s.queue.consumer = .returned none

/-- The language of a pop in progress. -/
def Pop.lang : Pop → Option Lang
  | .readHead l | .readTail l _ | .readEntry l _ _ => some l
  | _ => none

/-- What holds of the loop of a consumer in language `l`. -/
structure LoopInv (l : Lang) (s : Loop ι) : Prop where
  head : HeadRead s.queue
  lang : ∀ l' ∈ s.queue.consumer.lang, l' = l
  idle : s.waiting = true → s.queue.consumer = .idle
  rest : Resting s → WillSee s

variable {l : Lang} {s t : Loop ι} {a : LoopAction ι}

/-- A step of a producer leaves head and consumer alone; it claims, or it leaves the tail alone and
keeps its claim. -/
theorem stepPush_cases {q r : State ι} {p : ι} (hs : q.stepPush p = some r) :
    (r.head = q.head ∧ r.consumer = q.consumer ∧ ∀ p' ≠ p, r.producer p' = q.producer p') ∧
      ((r.producer p).Claimed ∨ r.tail = q.tail ∧ ¬ (q.producer p).Claimed) := by
  unfold State.stepPush at hs
  cases hp : q.producer p with
  | idle | returned => simp [hp] at hs
  | readHead l e spin | store e tl =>
    simp only [hp, Option.some.injEq] at hs
    subst hs
    refine ⟨⟨rfl, rfl, fun p' hp' => Function.update_of_ne hp' _ _⟩, ?_⟩
    simp [State.setProducer, Push.Claimed]
  | readTail l e spin hd | cas l e spin tl =>
    simp only [hp] at hs
    split_ifs at hs <;> simp only [Option.some.injEq] at hs <;> subst hs <;>
      refine ⟨⟨rfl, rfl, fun p' hp' => Function.update_of_ne hp' _ _⟩, ?_⟩ <;>
      simp [State.setProducer, Push.Claimed]

/-- After a step of a producer the consumer will still see. -/
theorem willSee_push {q : State ι} {p : ι} (h : WillSee s) (hs : s.queue.stepPush p = some q) :
    WillSee { s with queue := q } := by
  obtain ⟨⟨hhead, -, hother⟩, hclaim⟩ := stepPush_cases hs
  rcases hclaim with hclaim | ⟨htail, hnot⟩
  · exact .inr (.inr ⟨p, hclaim⟩)
  · rcases h with h | h | ⟨p', hp'⟩
    · refine .inl ?_
      change q.head = q.tail
      rw [hhead, htail, h]
    · exact .inr (.inl h)
    · have hne : p' ≠ p := by
        rintro rfl
        exact hnot hp'
      refine .inr (.inr ⟨p', ?_⟩)
      change (q.producer p').Claimed
      rw [hother p' hne]
      exact hp'

/-- A pop reads an entry that is not ready for the last time. -/
def GivesUp (q : State ι) : Prop :=
  ∃ l spin, q.consumer = .readEntry l q.head spin ∧ l.popSpins = some spin ∧
    l.ready (q.cells (cellOf q.head)) = false

omit [DecidableEq ι] in
/-- A step of the consumer's pop; it returns nothing if there is nothing or if it gives up. -/
theorem stepPop_cases {q r : State ι} (h : HeadRead q) (hs : q.stepPop = some r) :
    HeadRead r ∧ (∀ l ∈ r.consumer.lang, l ∈ q.consumer.lang) ∧ q.consumer ≠ .idle ∧
      (r.consumer = .returned none → r.producer = q.producer ∧ (r.head = r.tail ∨ GivesUp q)) := by
  unfold State.stepPop at hs
  unfold HeadRead at h
  cases hc : q.consumer with
  | idle | returned => simp [hc] at hs
  | readHead l =>
    simp only [hc, Option.some.injEq] at hs
    subst hs
    exact ⟨rfl, by simp [State.setConsumer, Pop.lang], by simp, by simp [State.setConsumer]⟩
  | readTail l hd =>
    simp only [hc] at hs h
    subst h
    split_ifs at hs with he <;> simp only [Option.some.injEq] at hs <;> subst hs
    · exact ⟨trivial, by simp [State.setConsumer, Pop.lang], by simp, fun _ => ⟨rfl, .inl he⟩⟩
    · exact ⟨rfl, by simp [State.setConsumer, Pop.lang], by simp, by simp [State.setConsumer]⟩
  | readEntry l hd spin =>
    simp only [hc] at hs h
    subst h
    split_ifs at hs with hr hspin <;> simp only [Option.some.injEq] at hs <;> subst hs
    · exact ⟨rfl, by simp [State.setConsumer, Pop.lang], by simp, by simp [State.setConsumer]⟩
    · exact ⟨trivial, by simp [State.setConsumer, Pop.lang], by simp,
        fun _ => ⟨rfl, .inr ⟨l, spin, hc, hspin, by simpa using hr⟩⟩⟩
    · exact ⟨rfl, by simp [State.setConsumer, Pop.lang], by simp, by simp [State.setConsumer]⟩
  | clear hd w =>
    simp only [hc, Option.some.injEq] at hs h
    subst hs
    exact ⟨h, by simp [Pop.lang], by simp, by simp⟩
  | storeHead hd w =>
    simp only [hc, Option.some.injEq] at hs
    subst hs
    exact ⟨trivial, by simp [Pop.lang], by simp, by simp⟩

/-- Every step keeps the invariant, if a pop gives up only on an entry that is still claimed. -/
theorem loopInv_step (h : LoopInv l s)
    (hclaimed : GivesUp s.queue → ∃ p, (s.queue.producer p).Claimed)
    (hst : loopStep l s a = some t) : LoopInv l t := by
  cases a with
  | callPush p l' e =>
    simp only [loopStep] at hst
    split_ifs at hst with hret
    obtain ⟨q, hq, rfl⟩ := Option.map_eq_some_iff.1 hst
    simp only [step] at hq
    split_ifs at hq with hquiet
    cases hq
    refine ⟨h.head, h.lang, h.idle, fun hrest => ?_⟩
    rcases h.rest hrest with hr | hr | ⟨p', hp'⟩
    · exact .inl hr
    · exact .inr (.inl hr)
    · -- a producer that calls push has no claim
      have hne : p' ≠ p := by
        rintro rfl
        cases hpc : s.queue.producer p' with
        | idle | readHead | readTail | cas | store => simp_all [Push.Quiet, Push.Claimed]
        | returned ok => cases ok <;> simp_all [Push.Claimed]
      refine .inr (.inr ⟨p', ?_⟩)
      simpa [State.setProducer, Function.update_of_ne hne] using hp'
  | push p =>
    obtain ⟨q, hq, rfl⟩ := Option.map_eq_some_iff.1 hst
    obtain ⟨⟨hhead, hcons, -⟩, -⟩ := stepPush_cases hq
    refine ⟨?_, ?_, ?_, fun hrest => willSee_push (h.rest ?_) hq⟩
    · have := h.head
      unfold HeadRead at this ⊢
      simp only [hhead, hcons]
      exact this
    · simp only [hcons]
      exact h.lang
    · simp only [hcons]
      exact h.idle
    · simpa only [Resting, hcons] using hrest
  | notify p =>
    simp only [loopStep] at hst
    split_ifs at hst
    cases hst
    exact ⟨h.head, h.lang, h.idle, fun _ => .inr (.inl (Nat.succ_pos _))⟩
  | callPop =>
    simp only [loopStep] at hst
    split_ifs at hst with hrest
    obtain ⟨q, hq, rfl⟩ := Option.map_eq_some_iff.1 hst
    simp only [step] at hq
    split_ifs at hq
    cases hq
    refine ⟨trivial, ?_, fun hw => absurd (.inl hw) hrest, fun hr => ?_⟩
    · simp [State.setConsumer, Pop.lang]
    · rcases hr with hw | hr
      · exact absurd (.inl hw) hrest
      · cases hr
  | pop =>
    obtain ⟨q, hq, rfl⟩ := Option.map_eq_some_iff.1 hst
    obtain ⟨hhead, hlang, hne, hnone⟩ := stepPop_cases h.head hq
    have hw : s.waiting ≠ true := fun hw => hne (h.idle hw)
    refine ⟨hhead, fun l' hl' => h.lang l' (hlang l' hl'), fun hw' => absurd hw' hw, fun hrest => ?_⟩
    obtain ⟨hprod, hempty | hgives⟩ := hnone (hrest.resolve_left hw)
    · exact .inl hempty
    · obtain ⟨p, hp⟩ := hclaimed hgives
      refine .inr (.inr ⟨p, ?_⟩)
      change (q.producer p).Claimed
      rw [hprod]
      exact hp
  | sleep =>
    simp only [loopStep] at hst
    split_ifs at hst with hs
    cases hst
    exact ⟨trivial, by simp [State.setConsumer, Pop.lang], fun _ => rfl, fun _ => h.rest (.inr hs.2)⟩
  | wake =>
    simp only [loopStep] at hst
    split_ifs at hst with hs
    cases hst
    refine ⟨h.head, h.lang, (fun hw => by cases hw), fun hrest => ?_⟩
    rcases hrest with hw | hr
    · cases hw
    · change s.queue.consumer = _ at hr
      rw [h.idle hs.1] at hr
      cases hr

omit [DecidableEq ι] in
theorem loopInv_init (l : Lang) (waitsFirst : Bool) :
    LoopInv l ({ queue := initial, counter := 0, waiting := waitsFirst } : Loop ι) :=
  ⟨trivial, by simp [initial, Pop.lang], fun _ => rfl, fun _ => .inl rfl⟩

omit [DecidableEq ι] in
theorem LoopInv.noLostWakeup (h : LoopInv l s) : NoLostWakeup s := by
  intro hw hc hne
  rcases h.rest (.inl hw) with hr | hr | hr
  · exact absurd hr hne
  · omega
  · exact hr

/-! ## Consumers in Rust -/

omit [DecidableEq ι] in
/-- An entry on which a pop gives up is claimed by a producer that has not stored it. -/
theorem Inv.claimed_of_givesUp {q : State ι} (h : Inv q) (hg : GivesUp q) :
    ∃ p, (q.producer p).Claimed := by
  obtain ⟨l, spin, hc, -, hready⟩ := hg
  have hcons := h.consumer
  unfold ConsumerOk at hcons
  simp only [hc] at hcons
  have he := List.getElem?_eq_getElem hcons.2
  by_contra hnone
  push Not at hnone
  have hfree : ∀ p e', (q.producer p).claim ≠ some (e', UInt32.ofNat q.popped.length) := by
    intro p e' hp
    apply hnone p
    cases hpc : q.producer p <;> simp_all [Push.claim, Push.Claimed]
  rcases h.published _ _ le_rfl he hfree with hw | ⟨-, hcl⟩
  · rw [h.head] at hready
    change l.ready (q.cells (cellAt q.popped.length)) = false at hready
    rw [hw, ready_pack] at hready
    cases hready
  · rw [hc] at hcl
    cases hcl

theorem inv_loopStep (h : Inv s.queue) (hok : LoopClaimsOk l s a) (hst : loopStep l s a = some t) :
    Inv t.queue := by
  have hqueue : ∀ {b : Action ι} {q : State ι}, a.queue l = some b → step s.queue b = some q →
      Inv q := by
    intro b q hb hq
    obtain ⟨hcmd, hclaim⟩ := hok b hb
    exact inv_step h hcmd (fun hc => h.room_of_claimOk (hclaim hc)) hq
  cases a with
  | callPush p l' e =>
    simp only [loopStep] at hst
    split_ifs at hst
    obtain ⟨q, hq, rfl⟩ := Option.map_eq_some_iff.1 hst
    exact hqueue rfl hq
  | push p =>
    obtain ⟨q, hq, rfl⟩ := Option.map_eq_some_iff.1 hst
    exact hqueue rfl hq
  | notify p =>
    simp only [loopStep] at hst
    split_ifs at hst with hp
    cases hst
    exact h.setProducer (by rw [hp]; rfl) rfl (by simp [Push.pending])
  | callPop =>
    simp only [loopStep] at hst
    split_ifs at hst
    obtain ⟨q, hq, rfl⟩ := Option.map_eq_some_iff.1 hst
    exact hqueue rfl hq
  | pop =>
    obtain ⟨q, hq, rfl⟩ := Option.map_eq_some_iff.1 hst
    exact hqueue rfl hq
  | sleep =>
    simp only [loopStep] at hst
    split_ifs at hst with hs
    cases hst
    exact h.setConsumer (by rw [hs.2]; rfl) trivial
  | wake =>
    simp only [loopStep] at hst
    split_ifs at hst
    cases hst
    exact h

/-- No wakeup is lost: in every state of every run for a consumer in Go, and for a consumer in Rust
in every run whose claims satisfy `ClaimOk`. -/
theorem no_lost_wakeup (waitsFirst : Bool) (s : Loop ι) :
    ((eventLoop ι .go waitsFirst).Reachable s → NoLostWakeup s) ∧
    ((eventLoop ι .rust waitsFirst).Reaches (LoopClaimsOk .rust) s → NoLostWakeup s) := by
  constructor
  · intro hr
    have h : LoopInv .go s := by
      refine System.Reaches.invariant (fun s hs => ?_) (fun s a t _ h _ hst => ?_) hr
      · obtain rfl : s = _ := hs
        exact loopInv_init .go waitsFirst
      · refine loopInv_step h (fun hg => ?_) hst
        -- a pop in Go never gives up
        obtain ⟨l, spin, hc, hspins, -⟩ := hg
        obtain rfl := h.lang l (by rw [hc]; rfl)
        cases hspins
    exact h.noLostWakeup
  · intro hr
    have h : LoopInv .rust s ∧ Inv s.queue := by
      refine hr.invariant (I := fun s => LoopInv .rust s ∧ Inv s.queue) (fun s hs => ?_)
        fun s a t _ h hok hst => ?_
      · obtain rfl : s = _ := hs
        exact ⟨loopInv_init .rust waitsFirst, inv_initial⟩
      · exact ⟨loopInv_step h.1 h.2.claimed_of_givesUp hst, inv_loopStep h.2 hok hst⟩
    exact h.1.noLostWakeup

/-- The hub's loop that finds nothing and goes to sleep, and the loop of a Rust node that sleeps
from the start, with a producer that has claimed an entry since. -/
theorem no_lost_wakeup_run :
    (∃ s : Loop Bool, s.waiting = true ∧ s.counter = 0 ∧ s.queue.head ≠ s.queue.tail ∧
      (eventLoop Bool .go false).Reachable s ∧ NoLostWakeup s) ∧
    ∃ s : Loop Bool, s.waiting = true ∧ s.counter = 0 ∧ s.queue.head ≠ s.queue.tail ∧
      (eventLoop Bool .rust true).Reaches (LoopClaimsOk .rust) s ∧ NoLostWakeup s := by
  constructor
  · obtain ⟨s, hr, hp⟩ := System.exists_reachable_of_run (eventLoop Bool .go false)
      [.callPop, .pop, .pop, .sleep, .callPush true .rust ⟨7, 1⟩, .push true, .push true, .push true]
      (fun s => decide (s.waiting = true ∧ s.counter = 0 ∧ s.queue.head ≠ s.queue.tail)) rfl
      (by decide +kernel)
    obtain ⟨hw, hc, hne⟩ := of_decide_eq_true hp
    exact ⟨s, hw, hc, hne, hr, (no_lost_wakeup false s).1 hr⟩
  · have hok : ∀ a : LoopAction Bool, (∀ b ∈ a.queue .rust, CommandOk b) → ∀ s : Loop Bool,
        s.queue.head = 0 ∧ s.queue.tail = 0 → LoopClaimsOk .rust s a := by
      rintro a ha s ⟨hh, ht⟩ b hb
      refine ⟨ha b hb, fun _ => ?_⟩
      rw [ClaimOk, hh, ht]
      exact ⟨by decide, .inl (by decide)⟩
    have hpush : ∀ b ∈ (LoopAction.push true).queue .rust, CommandOk b := by
      rintro b ⟨⟩
      trivial
    have hcall : ∀ b ∈ (LoopAction.callPush true .go ⟨7, 1⟩).queue .rust, CommandOk b := by
      rintro b ⟨⟩
      decide
    have h0 : (eventLoop Bool .rust true).Reaches (LoopClaimsOk .rust)
      { queue := initial, counter := 0, waiting := true } := .init rfl
    have h1 := h0.step (hok (.callPush true .go ⟨7, 1⟩) hcall _ ⟨rfl, rfl⟩) rfl
    have h2 := h1.step (hok (.push true) hpush _ ⟨rfl, rfl⟩) rfl
    have h3 := h2.step (hok (.push true) hpush _ ⟨rfl, rfl⟩) rfl
    have h4 := h3.step (hok (.push true) hpush _ ⟨rfl, rfl⟩) rfl
    exact ⟨_, rfl, rfl, by decide, h4, (no_lost_wakeup true _).2 h4⟩

/-! ## A wakeup that is lost -/

/-- The loop of a Rust node with one producer. -/
abbrev rustLoop : System (Loop Unit) (LoopAction Unit) := eventLoop Unit .rust true

/-- A push with its notification. -/
def pushNotify (e : Entry) : List (LoopAction Unit) :=
  [.callPush () .go e, .push (), .push (), .push (), .push (), .notify ()]

theorem run_pushNotify {s : Loop Unit} {e : Entry} (hidle : s.queue.producer () = .idle)
    (hroom : outstanding s.queue.head s.queue.tail < QueueSize - 1) :
    rustLoop.run s (pushNotify e) =
      some
        { s with
          queue := (afterPush s.queue () e).setProducer () .idle
          counter := s.counter + 1 } := by
  have hfull : ¬ 509 ≤ s.queue.tail - s.queue.head := by
    rw [UInt32.le_iff_toNat_le]
    exact Nat.not_le.2 hroom
  simp [pushNotify, System.run_cons, rustLoop, eventLoop, loopStep, step, hidle, Push.Quiet,
    State.stepPush, State.setProducer, hfull, afterPush]

/-- The consumer is between two pops, or has just woken up. -/
def Awake (s : Loop Unit) : Prop :=
  s.waiting = false ∧ s.queue.consumer.Quiet = true ∧ s.queue.consumer ≠ .returned none

theorem run_callPop {s : Loop Unit} (ha : Awake s) (hne : s.queue.head ≠ s.queue.tail) :
    rustLoop.run s [.callPop, .pop, .pop] =
      some { s with queue := s.queue.setConsumer (.readEntry .rust s.queue.head 0) } := by
  obtain ⟨hw, hq, hn⟩ := ha
  simp [System.run_cons, rustLoop, eventLoop, loopStep, step, hw, hq, hn, State.stepPop,
    State.setConsumer, hne]

theorem run_popOne {s : Loop Unit} (ha : Awake s) (hne : s.queue.head ≠ s.queue.tail)
    (hr : Lang.rust.ready (s.queue.cells (cellOf s.queue.head)) = true) :
    rustLoop.run s ([.callPop, .pop, .pop] ++ [.pop, .pop, .pop]) =
      some { s with queue := afterPop s.queue } := by
  rw [System.run_append, run_callPop ha hne, Option.bind_some]
  simp [System.run_cons, rustLoop, eventLoop, loopStep, step, State.stepPop, State.setConsumer, hr,
    afterPop]

theorem run_rest {s : Loop Unit} (ha : Awake s) (he : s.queue.head = s.queue.tail) :
    rustLoop.run s [.callPop, .pop, .pop, .sleep] =
      some { s with queue := s.queue.setConsumer .idle, waiting := true } := by
  obtain ⟨hw, hq, hn⟩ := ha
  simp [System.run_cons, rustLoop, eventLoop, loopStep, step, hw, hq, hn, State.stepPop,
    State.setConsumer, he]

theorem run_wake {s : Loop Unit} (hw : s.waiting = true) (hc : 0 < s.counter) :
    rustLoop.run s [.wake] = some { s with counter := 0, waiting := false } := by
  simp [System.run_cons, rustLoop, eventLoop, loopStep, hw, hc]

/-- Reading an entry that is not ready again and again. -/
theorem run_spin {s : Loop Unit} {hd : UInt32}
    (hr : Lang.rust.ready (s.queue.cells (cellOf hd)) = false) (n spin : ℕ)
    (hn : spin + n ≤ 1000000) (hc : s.queue.consumer = .readEntry .rust hd spin) :
    rustLoop.run s (List.replicate n .pop) =
      some { s with queue := s.queue.setConsumer (.readEntry .rust hd (spin + n)) } := by
  induction n generalizing s spin with
  | zero =>
    rw [List.replicate_zero, System.run_nil, Nat.add_zero, ← hc]
    rfl
  | succ n ih =>
    have hspin : Lang.rust.popSpins ≠ some spin := by
      simp only [Lang.popSpins, ne_eq, Option.some.injEq]
      omega
    have hstep : rustLoop.step s .pop =
        some { s with queue := s.queue.setConsumer (.readEntry .rust hd (spin + 1)) } := by
      simp [rustLoop, eventLoop, loopStep, step, State.stepPop, hc, hr, hspin]
    rw [List.replicate_succ, System.run_cons, hstep, Option.bind_some,
      ih (s := { s with queue := s.queue.setConsumer (.readEntry .rust hd (spin + 1)) }) hr
        (spin + 1) (by omega) rfl, Nat.add_assoc, Nat.add_comm 1 n]
    rfl

/-- The queue is empty at position `k`, and everybody is idle. -/
structure Parked (k : ℕ) (s : Loop Unit) : Prop where
  reachable : rustLoop.Reachable s
  head : s.queue.head = UInt32.ofNat k
  tail : s.queue.tail = UInt32.ofNat k
  producer : s.queue.producer () = .idle
  consumer : s.queue.consumer = .idle
  waiting : s.waiting = true
  counter : s.counter = 0

theorem exists_parked : ∀ k, ∃ s, Parked k s
  | 0 => ⟨_, .init rfl, rfl, rfl, rfl, rfl, rfl, rfl⟩
  | k + 1 => by
    obtain ⟨s, h⟩ := exists_parked k
    have hroom : outstanding s.queue.head s.queue.tail < QueueSize - 1 := by
      have := outstanding_ofNat k 0 (by norm_num)
      rw [h.head, h.tail]
      exact this.trans_lt (by norm_num)
    have h1 := h.reachable.run (fun _ _ _ => trivial) (run_pushNotify (e := ⟨7, 1⟩) h.producer hroom)
    have h2 := h1.run (fun _ _ _ => trivial) (run_wake h.waiting (Nat.succ_pos _))
    have hidle : ∀ q : State Unit, q.consumer = .idle → ∀ c,
        Awake { queue := q, counter := c, waiting := false } := by
      intro q hq c
      exact ⟨rfl, by rw [hq]; rfl, by simp [hq]⟩
    have h3 := h2.run (fun _ _ _ => trivial) (run_popOne (hidle _ h.consumer 0)
      (by simp [State.setProducer, afterPush, h.head, h.tail])
      (by simp [State.setProducer, afterPush, h.head, h.tail, ready_pack]))
    have h4 := h3.run (fun _ _ _ => trivial) (run_rest ⟨rfl, rfl, by simp [afterPop]⟩
      (by simp [afterPop, State.setProducer, afterPush, h.head, h.tail]))
    refine ⟨_, h4, ?_, ?_, by simp [afterPop, State.setConsumer, State.setProducer], rfl, rfl, rfl⟩
    · simp only [afterPop, State.setConsumer, State.setProducer, afterPush, h.head]
      exact (UInt32.ofNat_add k 1).symm
    · simp only [afterPop, State.setConsumer, State.setProducer, afterPush, h.tail]
      exact (UInt32.ofNat_add k 1).symm

/-- The last position before the wrap with 256 positions to go; it lies in cell 0. -/
def lastRound : ℕ := 2 ^ 32 - 256

theorem cellOf_lastRound {i : ℕ} (hi : i ≤ 256) :
    cellOf (UInt32.ofNat (lastRound + i)) = if i < 256 then i else 0 := by
  change cellAt (lastRound + i) = _
  rw [cellAt_eq, lastRound]
  simp only [QueueSize]
  split_ifs <;> omega

/-- `n` entries have been pushed from there on. -/
structure Filled (n : ℕ) (s : Loop Unit) : Prop where
  reachable : rustLoop.Reachable s
  head : s.queue.head = UInt32.ofNat lastRound
  tail : s.queue.tail = UInt32.ofNat (lastRound + n)
  producer : s.queue.producer () = .idle
  consumer : s.queue.consumer = .idle
  waiting : s.waiting = true
  counter : s.counter = n
  cells : ∀ i < min n 256, s.queue.cells i = pack ⟨7, 1⟩

theorem exists_filledTo : ∀ n ≤ 257, ∃ s, Filled n s
  | 0, _ => by
    obtain ⟨s, h⟩ := exists_parked lastRound
    exact ⟨s, h.reachable, h.head, h.tail, h.producer, h.consumer, h.waiting, h.counter, by simp⟩
  | n + 1, hn => by
    obtain ⟨s, h⟩ := exists_filledTo n (by omega)
    have hroom : outstanding s.queue.head s.queue.tail < QueueSize - 1 := by
      rw [h.head, h.tail, outstanding_ofNat _ n (by omega)]
      simp only [QueueSize]
      omega
    refine ⟨_, h.reachable.run (fun _ _ _ => trivial)
      (run_pushNotify (e := ⟨7, 1⟩) h.producer hroom), h.head, ?_, by simp [State.setProducer],
      h.consumer, h.waiting, congrArg (· + 1) h.counter, fun i hi => ?_⟩
    · simp only [State.setProducer, afterPush, h.tail]
      exact (UInt32.ofNat_add (lastRound + n) 1).symm
    · simp only [State.setProducer, afterPush, h.tail, cellOf_lastRound (by omega : n ≤ 256),
        Function.update_apply]
      by_cases he : i = if n < 256 then n else 0
      · rw [if_pos he]
      · rw [if_neg he]
        refine h.cells i ?_
        split_ifs at he <;> omega

/-- `j` of the 257 entries have been popped; the last one overwrote the first. -/
structure Drained (j : ℕ) (s : Loop Unit) : Prop where
  reachable : rustLoop.Reachable s
  head : s.queue.head = UInt32.ofNat (lastRound + j)
  tail : s.queue.tail = 1
  producer : s.queue.producer () = .idle
  awake : Awake s
  counter : s.counter = 0
  cleared : ∀ i < j, s.queue.cells i = 0
  cells : ∀ i, j ≤ i → i < 256 → s.queue.cells i = pack ⟨7, 1⟩

theorem exists_drained : ∀ j ≤ 256, ∃ s, Drained j s
  | 0, _ => by
    obtain ⟨s, h⟩ := exists_filledTo 257 le_rfl
    refine ⟨_, h.reachable.run (fun _ _ _ => trivial)
      (run_wake h.waiting (by rw [h.counter]; norm_num)), h.head, h.tail, h.producer, ?_, rfl,
      by simp, fun i _ hi => h.cells i (by omega)⟩
    exact ⟨rfl, by simp [h.consumer, Pop.Quiet], by simp [h.consumer]⟩
  | j + 1, hj => by
    obtain ⟨s, h⟩ := exists_drained j (by omega)
    have hcell : cellOf s.queue.head = j := by
      rw [h.head, cellOf_lastRound (by omega), if_pos (by omega)]
    have hne : s.queue.head ≠ s.queue.tail := by
      rw [h.head, h.tail]
      intro he
      have := congrArg UInt32.toNat he
      rw [UInt32.toNat_ofNat', lastRound] at this
      simp only [UInt32.toNat_one] at this
      omega
    have hready : Lang.rust.ready (s.queue.cells (cellOf s.queue.head)) = true := by
      rw [hcell, h.cells j le_rfl (by omega), ready_pack]
    refine ⟨_, h.reachable.run (fun _ _ _ => trivial) (run_popOne h.awake hne hready), ?_, h.tail,
      h.producer, ⟨h.awake.1, rfl, by simp [afterPop]⟩, h.counter, fun i hi => ?_,
      fun i hi hi' => ?_⟩
    · simp only [afterPop, h.head]
      exact (UInt32.ofNat_add (lastRound + j) 1).symm
    · simp only [afterPop, hcell, Function.update_apply]
      split_ifs with he
      · rfl
      · exact h.cleared i (by omega)
    · simp only [afterPop, hcell, Function.update_of_ne (show i ≠ j by omega)]
      exact h.cells i (by omega) hi'

/-- 257 entries are pushed from position `2 ^ 32 - 256` on, so that the last overwrites the first.
The Rust node pops 256 of them, gives up on the last position, whose cell is empty, and goes to
sleep.  Its queue is not empty, and the producer has notified. -/
theorem wakeup_lost_after_wrap :
    ∃ s, rustLoop.Reachable s ∧ s.waiting = true ∧ s.counter = 0 ∧
      s.queue.head ≠ s.queue.tail ∧ s.queue.producer () = .idle ∧ ¬ NoLostWakeup s := by
  obtain ⟨s, h⟩ := exists_drained 256 le_rfl
  have hhead : s.queue.head = 0 := by
    rw [h.head]
    rfl
  have hne : s.queue.head ≠ s.queue.tail := by
    rw [hhead, h.tail]
    decide
  have hready : Lang.rust.ready (s.queue.cells (cellOf s.queue.head)) = false := by
    rw [hhead, show cellOf 0 = 0 from rfl, h.cleared 0 (by norm_num), ready_zero]
  have h1 := h.reachable.run (fun _ _ _ => trivial) (run_callPop h.awake hne)
  have h2 := h1.run (fun _ _ _ => trivial) (run_spin
    (s := { s with queue := s.queue.setConsumer (.readEntry .rust s.queue.head 0) })
    hready 1000000 0 le_rfl rfl)
  -- one more reading, and the consumer gives up
  have hlast : rustLoop.run { s with
        queue := (s.queue.setConsumer (.readEntry .rust s.queue.head 0)).setConsumer
          (.readEntry .rust s.queue.head (0 + 1000000)) } [.pop, .sleep] =
      some { s with queue := s.queue.setConsumer .idle, waiting := true } := by
    simp [System.run_cons, rustLoop, eventLoop, loopStep, step, State.stepPop, State.setConsumer,
      hready, Lang.popSpins, h.awake.1]
  have h3 := h2.run (fun _ _ _ => trivial) hlast
  refine ⟨_, h3, rfl, h.counter, hne, h.producer, fun hlost => ?_⟩
  obtain ⟨p, hp⟩ := hlost rfl h.counter hne
  have hidle : s.queue.producer p = .idle := h.producer
  change (s.queue.producer p).Claimed at hp
  simp [hidle, Push.Claimed] at hp

end Mmfg.Queue
