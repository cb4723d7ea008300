import Mmfg.Lib.Simulation
import Mmfg.Queue.Wakeup

/-!
# The ring is an atomic bounded queue

What push and pop are for: a list of entries that takes at most `QueueSize - 1` of them, to which a
push appends and from which a pop takes the oldest.  A call takes effect in one of its own steps: a
push when it claims the tail, a pop when it moves the head or when it reads a tail equal to the
head.  `queue_linearizable` says that the effects of a run, in the order in which they happen, are a
run of the list (`mailbox`), and that the answer of every call is the effect it has had; a pop in
Rust may also answer `None` without an effect, and then the oldest entry was claimed and not yet
stored.
-/

namespace Mmfg.Queue

/-- What a call does to the list. -/
inductive Effect where
  | push (e : Entry)
  | pop (e : Entry)
  | empty
  deriving DecidableEq

/-- The list of a bounded queue. -/
def mailboxStep (l : List Entry) : Effect → Option (List Entry)
  | .push e => if l.length < QueueSize - 1 then some (l ++ [e]) else none
  | .pop e => if l.head? = some e then some l.tail else none
  | .empty => if l = [] then some l else none

/-- The bounded queue. -/
def mailbox : System (List Entry) Effect where
  Init l := l = []
  step := mailboxStep

variable {ι : Type}

/-- The step in which a call takes effect. -/
def effect (s : State ι) : Action ι → Option Effect
  | .push p =>
    match s.producer p with
    | .cas _ e _ tail => if s.tail = tail then some (.push e) else none
    | _ => none
  | .pop =>
    match s.consumer with
    | .readTail _ head => if head = s.tail then some .empty else none
    | .storeHead _ packed => some (.pop (unpack packed))
    | _ => none
  | _ => none

/-- The entries that are claimed and not popped. -/
def State.contents (s : State ι) : List Entry := s.pushed.drop s.popped.length

/-- Steps whose commands leave the ready bit free and whose claims find room. -/
def StepOk (s : State ι) (a : Action ι) : Prop := CommandOk a ∧ (Claims s a → Room s)

variable {s t : State ι} {a : Action ι} {as : List (Action ι)} {p : ι}

theorem length_contents (s : State ι) :
    s.contents.length = s.pushed.length - s.popped.length := List.length_drop

theorem Inv.contents_eq_nil (h : Inv s) (he : s.head = s.tail) : s.contents = [] := by
  rw [h.head, h.tail] at he
  refine List.drop_eq_nil_of_le ?_
  rw [h.pos_inj le_rfl h.length_le h.length_le le_rfl he]

theorem Inv.contents_advance (h : Inv s) {hd : UInt32} {w : UInt64}
    (hc : s.consumer = .storeHead hd w) :
    s.contents = unpack w :: s.pushed.drop (s.popped.length + 1) := by
  have hcons := h.consumer
  unfold ConsumerOk at hcons
  simp only [hc] at hcons
  obtain ⟨-, ⟨e, he, rfl⟩, -⟩ := hcons
  obtain ⟨hlt, rfl⟩ := List.getElem?_eq_some_iff.1 he
  rw [unpack_pack (h.commands _ (List.getElem_mem hlt))]
  exact List.drop_eq_getElem_cons hlt

theorem stepPop_contents (hs : s.stepPop = some t) (he : effect s .pop = none) :
    t.contents = s.contents := by
  unfold State.stepPop at hs
  unfold effect at he
  cases hc : s.consumer <;> simp only [hc] at hs he <;> (try split_ifs at hs) <;>
    simp only [Option.some.injEq, reduceCtorEq] at hs he <;> subst hs <;> rfl

variable [DecidableEq ι]

theorem stepPush_contents (hs : s.stepPush p = some t) (he : effect s (.push p) = none) :
    t.contents = s.contents := by
  unfold State.stepPush at hs
  unfold effect at he
  cases hp : s.producer p <;> simp only [hp] at hs he <;> (try split_ifs at hs he) <;>
    simp only [Option.some.injEq, reduceCtorEq] at hs he <;> subst hs <;> rfl

theorem effect_contents (hs : (queue ι).step s a = some t) (he : effect s a = none) :
    t.contents = s.contents := by
  cases a with
  | callPush p l e =>
    simp only [queue, step] at hs
    split_ifs at hs
    cases hs
    rfl
  | push p => exact stepPush_contents hs he
  | callPop l =>
    simp only [queue, step] at hs
    split_ifs at hs
    cases hs
    rfl
  | pop => exact stepPop_contents hs he

/-- A step with an effect does to the entries what the list does. -/
theorem effect_step {b : Effect} (h : Inv s) (hroom : Claims s a → Room s)
    (hs : (queue ι).step s a = some t) (he : effect s a = some b) :
    mailboxStep s.contents b = some t.contents := by
  cases a with
  | callPush p l e => cases he
  | callPop l => cases he
  | push p =>
    cases hp : s.producer p with
    | cas l e spin tl =>
      simp only [effect, hp] at he
      split_ifs at he with htl
      cases he
      subst htl
      obtain ⟨hlt, -⟩ := hroom ⟨p, l, e, spin, rfl, hp⟩
      simp only [queue, step, State.stepPush, hp, if_true, Option.some.injEq] at hs
      subst hs
      have hle := h.length_le
      rw [mailboxStep, if_pos (by rw [length_contents]; omega)]
      simp only [State.contents]
      rw [List.drop_append_of_le_length h.length_le]
    | _ => simp [effect, hp] at he
  | pop =>
    cases hc : s.consumer with
    | readTail l hd =>
      simp only [effect, hc] at he
      split_ifs at he with hhd
      cases he
      have hread := h.consumer
      unfold ConsumerOk at hread
      simp only [hc] at hread
      simp only [queue, step, State.stepPop, hc, if_pos hhd, Option.some.injEq] at hs
      subst hs
      exact if_pos (h.contents_eq_nil (hread ▸ hhd))
    | storeHead hd w =>
      simp only [effect, hc, Option.some.injEq] at he
      subst he
      simp only [queue, step, State.stepPop, hc, Option.some.injEq] at hs
      subst hs
      rw [h.contents_advance hc]
      simp [mailboxStep, State.contents]
    | _ => simp [effect, hc] at he

/-- The ring simulates the list. -/
theorem queue_simulates : System.Simulates (queue ι) mailbox StepOk effect
    (fun s l => Inv s ∧ l = s.contents) where
  skip {s s' l a} hR hok hs he := by
    obtain ⟨h, rfl⟩ := hR
    exact ⟨inv_step h hok.1 hok.2 hs, (effect_contents hs he).symm⟩
  take {s s' l a b} hR hok hs he := by
    obtain ⟨h, rfl⟩ := hR
    exact ⟨_, effect_step h hok.2 hs he, inv_step h hok.1 hok.2 hs, rfl⟩

/-! ## Fewer than `2 ^ 32` claims -/

theorem step_pushed_le (hs : (queue ι).step s a = some t) :
    s.pushed.length ≤ t.pushed.length := by
  rcases step_pushed hs with h | ⟨⟨e, h⟩, -⟩ <;> simp [h]

theorem run_pushed_le (hr : (queue ι).run s as = some t) : s.pushed.length ≤ t.pushed.length := by
  induction as generalizing s with
  | nil =>
    cases hr
    exact le_rfl
  | cons a as ih =>
    rw [System.run_cons, Option.bind_eq_some_iff] at hr
    obtain ⟨u, hu, hr⟩ := hr
    exact (step_pushed_le hu).trans (ih hr)

/-- While the counters do not wrap, claims find room. -/
theorem runOk_of_lt (h : Inv s) (hf : Fresh s) (hcmd : ∀ a ∈ as, CommandOk a)
    (hr : (queue ι).run s as = some t) (hn : t.pushed.length < 2 ^ 32) :
    (queue ι).RunOk StepOk s as := by
  induction as generalizing s with
  | nil => trivial
  | cons a as ih =>
    rw [System.run_cons, Option.bind_eq_some_iff] at hr
    obtain ⟨u, hu, hr⟩ := hr
    have hle := run_pushed_le hr
    have hle' := step_pushed_le hu
    have hok : StepOk s a := by
      refine ⟨hcmd a List.mem_cons_self, fun hc => hf.room h ?_ hc⟩
      have := claims_pushed hc hu
      omega
    refine ⟨hok, fun u' hu' => ?_⟩
    obtain rfl : u = u' := Option.some.inj (hu.symm.trans hu')
    refine ih (inv_step h hok.1 hok.2 hu) (fresh_step hf h (by omega) hu) ?_ hr
    exact fun b hb => hcmd b (List.mem_cons_of_mem _ hb)

/-! ## The effect of a call -/

/-- The effects of producer `p`. -/
def pushEffects (p : ι) (s : State ι) (as : List (Action ι)) : List Effect :=
  (queue ι).labelsOf effect (fun a => decide (a = .push p)) s as

/-- The effects of the consumer. -/
def popEffects (s : State ι) (as : List (Action ι)) : List Effect :=
  (queue ι).labelsOf effect (fun a => decide (a = .pop)) s as

/-- A step that is neither a call nor a step of `p` leaves `p` where it is. -/
theorem step_producer_of_ne (hs : (queue ι).step s a = some t) (hcall : ∀ l e, a ≠ .callPush p l e)
    (ha : a ≠ .push p) : t.producer p = s.producer p := by
  cases a with
  | callPush q l e =>
    simp only [queue, step] at hs
    split_ifs at hs
    cases hs
    refine Function.update_of_ne ?_ _ _
    rintro rfl
    exact hcall l e rfl
  | push q =>
    refine (stepPush_cases hs).1.2.2 p ?_
    rintro rfl
    exact ha rfl
  | callPop l =>
    simp only [queue, step] at hs
    split_ifs at hs
    cases hs
    rfl
  | pop => rw [(stepPop_frame hs).1]

theorem step_consumer_of_ne (hs : (queue ι).step s a = some t) (hcall : ∀ l, a ≠ .callPop l)
    (ha : a ≠ .pop) : t.consumer = s.consumer := by
  cases a with
  | callPush q l e =>
    simp only [queue, step] at hs
    split_ifs at hs
    cases hs
    rfl
  | push q => exact (stepPush_cases hs).1.2.1
  | callPop l => exact absurd rfl (hcall l)
  | pop => exact absurd rfl ha

/-- The effects that a push still has before it returns `ok`. -/
def Push.due (ok : Bool) : Push → List Effect
  | .readHead _ e _ | .readTail _ e _ _ | .cas _ e _ _ => if ok then [.push e] else []
  | _ => []

/-- Where the push is decides what it can still return. -/
def Push.CanReturn (ok : Bool) : Push → Prop
  | .idle => False
  | .store _ _ => ok = true
  | .returned ok' => ok = ok'
  | _ => True

theorem stepPush_due {ok : Bool} (hs : s.stepPush p = some t)
    (hret : (t.producer p).CanReturn ok) :
    (s.producer p).CanReturn ok ∧
      (s.producer p).due ok = (effect s (.push p)).toList ++ (t.producer p).due ok := by
  unfold State.stepPush at hs
  unfold effect
  cases hp : s.producer p with
  | idle | returned => simp [hp] at hs
  | readHead l e spin =>
    simp only [hp, Option.some.injEq] at hs
    subst hs
    simp [hp, State.setProducer, Push.due, Push.CanReturn]
  | readTail l e spin hd =>
    simp only [hp] at hs
    split_ifs at hs <;> simp only [Option.some.injEq] at hs <;> subst hs <;>
      simp_all [State.setProducer, Push.due, Push.CanReturn]
  | cas l e spin tl =>
    simp only [hp] at hs
    split_ifs at hs with htl <;> simp only [Option.some.injEq] at hs <;> subst hs <;>
      simp_all [State.setProducer, Push.due, Push.CanReturn]
  | store e tl =>
    simp only [hp, Option.some.injEq] at hs
    subst hs
    simp_all [Push.due, Push.CanReturn]

/-- A push that ends with `ok` has the effects that were due. -/
theorem pushEffects_eq {ok : Bool} (hr : (queue ι).run s as = some t)
    (hcall : ∀ l e, .callPush p l e ∉ as) (ht : t.producer p = .returned ok) :
    (s.producer p).CanReturn ok ∧ pushEffects p s as = (s.producer p).due ok := by
  induction as generalizing s with
  | nil =>
    cases hr
    rw [ht]
    exact ⟨rfl, rfl⟩
  | cons a as ih =>
    rw [System.run_cons, Option.bind_eq_some_iff] at hr
    obtain ⟨u, hu, hr⟩ := hr
    obtain ⟨hret, hdue⟩ := ih hr fun l e he => hcall l e (List.mem_cons_of_mem _ he)
    rw [pushEffects, System.labelsOf_cons hu, ← pushEffects, hdue]
    by_cases ha : a = .push p
    · subst ha
      obtain ⟨hret', hdue'⟩ := stepPush_due hu hret
      exact ⟨hret', by simpa using hdue'.symm⟩
    · have hsame := step_producer_of_ne hu (fun l e he => hcall l e (he ▸ List.mem_cons_self)) ha
      rw [← hsame]
      exact ⟨hret, by simp [ha]⟩

/-- The oldest entry is claimed and not yet stored. -/
def OldestPending (s : State ι) : Prop :=
  ∃ p e, s.contents.head? = some e ∧ s.producer p = .store e s.head

omit [DecidableEq ι] in
/-- A pop gives up on an entry that its producer has still to store. -/
theorem Inv.oldestPending_of_givesUp (h : Inv s) (hg : GivesUp s) : OldestPending s := by
  obtain ⟨l, spin, hc, -, hready⟩ := hg
  have hcons := h.consumer
  unfold ConsumerOk at hcons
  simp only [hc] at hcons
  obtain ⟨-, hlt⟩ := hcons
  have he := List.getElem?_eq_getElem hlt
  have hclaim : ∃ p e, (s.producer p).claim = some (e, UInt32.ofNat s.popped.length) := by
    by_contra hnone
    push Not at hnone
    rcases h.published _ _ le_rfl he hnone with hw | ⟨-, hcl⟩
    · rw [h.head] at hready
      change l.ready (s.cells (cellAt s.popped.length)) = false at hready
      rw [hw, ready_pack] at hready
      cases hready
    · rw [hc] at hcl
      cases hcl
  obtain ⟨p, e, hp⟩ := hclaim
  obtain ⟨i, hi, hi', hie, heq, -⟩ := h.claimed_lt hp
  obtain rfl := h.pos_inj le_rfl h.length_le hi hi'.le heq
  refine ⟨p, e, ?_, ?_⟩
  · rw [State.contents, List.head?_drop]
    exact hie
  · rw [h.head]
    cases hpc : s.producer p with
    | store e' tl =>
      simp only [hpc, Push.claim, Option.some.injEq, Prod.mk.injEq] at hp
      rw [hp.1, hp.2]
    | _ => simp [hpc, Push.claim] at hp

/-- A pop of the run gives up on an entry that is not stored. -/
def MeetsPending (s : State ι) (as : List (Action ι)) : Prop :=
  ∃ bs cs u, as = bs ++ .pop :: cs ∧ (queue ι).run s bs = some u ∧ OldestPending u

theorem MeetsPending.cons (h : MeetsPending t as) (hs : (queue ι).step s a = some t) :
    MeetsPending s (a :: as) := by
  obtain ⟨bs, cs, u, rfl, hr, hu⟩ := h
  refine ⟨a :: bs, cs, u, rfl, ?_, hu⟩
  rw [System.run_cons, hs]
  exact hr

/-- How the effects of a pop that returns `r` fit its answer. -/
def Answers (l : Lang) (pending : Prop) (effects : List Effect) : Option Entry → Prop
  | some e => effects = [.pop e]
  | none => effects = [.empty] ∨ effects = [] ∧ l = .rust ∧ pending

theorem Answers.mono {l : Lang} {P Q : Prop} {effects : List Effect} {r : Option Entry}
    (h : Answers l P effects r) (hPQ : P → Q) : Answers l Q effects r := by
  cases r with
  | some e => exact h
  | none => exact h.imp_right fun ⟨h1, h2, h3⟩ => ⟨h1, h2, hPQ h3⟩

/-- The effects that a pop still has before it returns `r`. -/
def Pop.Due (pending : Prop) (effects : List Effect) (r : Option Entry) : Pop → Prop
  | .idle => False
  | .readHead l | .readTail l _ | .readEntry l _ _ => Answers l pending effects r
  | .clear _ w | .storeHead _ w => r = some (unpack w) ∧ effects = [.pop (unpack w)]
  | .returned r' => r = r' ∧ effects = []

theorem Pop.Due.mono {P Q : Prop} {effects : List Effect} {r : Option Entry} {pc : Pop}
    (h : pc.Due P effects r) (hPQ : P → Q) : pc.Due Q effects r := by
  cases pc with
  | readHead l | readTail l hd | readEntry l hd spin => exact Answers.mono h hPQ
  | _ => exact h

omit [DecidableEq ι] in
theorem stepPop_due {P : Prop} {effects : List Effect} {r : Option Entry} (h : Inv s)
    (hs : s.stepPop = some t) (hdue : t.consumer.Due P effects r) (hP : OldestPending s → P) :
    s.consumer.Due P ((effect s .pop).toList ++ effects) r := by
  have hread := h.consumer
  unfold ConsumerOk at hread
  unfold State.stepPop at hs
  unfold effect
  cases hc : s.consumer with
  | idle | returned => simp [hc] at hs
  | readHead l =>
    simp only [hc, Option.some.injEq] at hs
    subst hs
    exact hdue
  | readTail l hd =>
    simp only [hc] at hs
    split_ifs at hs with he <;> simp only [Option.some.injEq] at hs <;> subst hs
    · obtain ⟨rfl, rfl⟩ := hdue
      simp [he, Pop.Due, Answers]
    · simp only [if_neg he]
      exact hdue
  | readEntry l hd spin =>
    simp only [hc] at hs hread
    obtain ⟨rfl, hlt⟩ := hread
    split_ifs at hs with hr hspin <;> simp only [Option.some.injEq] at hs <;> subst hs
    · obtain ⟨rfl, rfl⟩ := hdue
      rfl
    · -- it gives up: the oldest entry is claimed and not stored
      obtain ⟨rfl, rfl⟩ := hdue
      have hg : GivesUp s := ⟨l, spin, hc, hspin, by simpa using hr⟩
      refine .inr ⟨rfl, ?_, hP (h.oldestPending_of_givesUp hg)⟩
      cases l with
      | go => cases hspin
      | rust => rfl
    · exact hdue
  | clear hd w =>
    simp only [hc, Option.some.injEq] at hs
    subst hs
    exact hdue
  | storeHead hd w =>
    simp only [hc, Option.some.injEq] at hs
    subst hs
    obtain ⟨rfl, rfl⟩ := hdue
    exact ⟨rfl, rfl⟩

/-- A pop that returns `r` has the effects that were due. -/
theorem popEffects_due {r : Option Entry} (h : Inv s) (hok : (queue ι).RunOk StepOk s as)
    (hr : (queue ι).run s as = some t) (hcall : ∀ l, .callPop l ∉ as)
    (ht : t.consumer = .returned r) :
    s.consumer.Due (MeetsPending s as) (popEffects s as) r := by
  induction as generalizing s with
  | nil =>
    cases hr
    rw [ht]
    exact ⟨rfl, rfl⟩
  | cons a as ih =>
    rw [System.run_cons, Option.bind_eq_some_iff] at hr
    obtain ⟨u, hu, hr⟩ := hr
    have hdue := ih (inv_step h hok.1.1 hok.1.2 hu) (hok.2 u hu) hr
      fun l hl => hcall l (List.mem_cons_of_mem _ hl)
    replace hdue := hdue.mono fun hm => hm.cons hu
    rw [popEffects, System.labelsOf_cons hu, ← popEffects]
    by_cases ha : a = .pop
    · subst ha
      have hstep := stepPop_due h hu hdue fun hp => ⟨[], as, s, rfl, rfl, hp⟩
      simpa using hstep
    · have hsame := step_consumer_of_ne hu (fun l he => hcall l (he ▸ List.mem_cons_self)) ha
      rw [← hsame]
      simpa [ha] using hdue

/-! ## Linearizability -/

/-- The calls that are made in state `u` and return in state `v`, after the steps `as`, have had the
effects that they answer, each in one step of its own. -/
def CallsAnswered (u v : State ι) (as : List (Action ι)) : Prop :=
  (∀ p l e ok, u.producer p = .readHead l e 0 → (∀ l' e', .callPush p l' e' ∉ as) →
    v.producer p = .returned ok → pushEffects p u as = if ok then [.push e] else []) ∧
  ∀ l r, u.consumer = .readHead l → (∀ l', .callPop l' ∉ as) → v.consumer = .returned r →
    Answers l (MeetsPending u as) (popEffects u as) r

/-- In every run with fewer than `2 ^ 32` claims, from any producers, in both languages, the effects
in their order are a run of the bounded queue that ends with the entries that are claimed and not
popped, and every call answers the effect it has had. -/
theorem queue_linearizable (as : List (Action ι)) (s : State ι)
    (hr : (queue ι).run initial as = some s) (hcmd : ∀ a ∈ as, CommandOk a)
    (hn : s.pushed.length < 2 ^ 32) :
    mailbox.run [] (((queue ι).trace effect initial as).map Prod.snd) = some s.contents ∧
      ∀ bs cs u, as = bs ++ cs → (queue ι).run initial bs = some u → CallsAnswered u s cs := by
  have hok : (queue ι).RunOk StepOk initial as :=
    runOk_of_lt inv_initial (fun p => trivial) hcmd hr hn
  refine ⟨?_, ?_⟩
  · obtain ⟨l, hl, -, rfl⟩ := queue_simulates.run ⟨inv_initial, rfl⟩ hok hr
    exact hl
  · rintro bs cs u rfl hbs
    rw [System.run_append, hbs, Option.bind_some] at hr
    have hle := run_pushed_le hr
    have hcmd' : ∀ a ∈ cs, CommandOk a := fun a ha => hcmd a (List.mem_append_right _ ha)
    obtain ⟨hu, hf⟩ := inv_of_reaches (s := u) (System.Reaches.run (.init rfl)
      (fun a ha _ => hcmd a (List.mem_append_left _ ha)) hbs) (by omega)
    refine ⟨fun p l e ok hp hcall ht => ?_, fun l r hc hcall ht => ?_⟩
    · rw [(pushEffects_eq hr hcall ht).2, hp]
      rfl
    · have hdue := popEffects_due hu (runOk_of_lt hu hf hcmd' hr hn) hr hcall ht
      rw [hc] at hdue
      exact hdue

/-- A push by a Rust node and a pop by the hub that meet in the ring. -/
theorem queue_linearizable_run : ∃ s : State Bool, s.popped = [⟨7, 1⟩] ∧
    mailbox.run [] [.push ⟨7, 1⟩, .pop ⟨7, 1⟩] = some s.contents := by
  have hrun : ((queue Bool).run initial [.callPush true .rust ⟨7, 1⟩, .push true, .push true,
      .push true, .callPop .go, .pop, .pop, .pop, .push true, .pop, .pop, .pop]).isSome := by decide
  obtain ⟨s, hs⟩ := Option.isSome_iff_exists.1 hrun
  have hpop : s.popped = [⟨7, 1⟩] ∧ s.pushed = [⟨7, 1⟩] := by
    cases hs
    decide
  refine ⟨s, hpop.1, ?_⟩
  have h := (queue_linearizable _ s hs (by decide) (by rw [hpop.2]; decide)).1
  exact h

end Mmfg.Queue
