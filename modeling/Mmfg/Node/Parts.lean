import Mmfg.Node.Basic

/-!
# What the mutex, the map and the messages keep

The five parts of the invariant of the Go node.  Each looks at the program points of the handlers
through a function of its own (`State.seen`), so that a step is of interest only to the parts whose
function it changes, and each has a lemma for every kind of step that it sees.
-/

namespace Mmfg.Node

/-! ## Program points -/

namespace HandlerPC

/-- The channel of a call of `RequestExpand`. -/
def chan : HandlerPC → Option Chan
  | .lock ch | .register ch | .unlock ch | .push ch | .notify ch | .receive ch | .close ch _ =>
    some ch
  | _ => none

/-- The goroutine has the mutex. -/
def holds : HandlerPC → Bool
  | .register _ | .unlock _ => true
  | _ => false

/-- The channel of a call that has not pushed its request. -/
def early : HandlerPC → Option Chan
  | .lock ch | .register ch | .unlock ch | .push ch => some ch
  | _ => none

/-- The channel of a call that is in the map and waits to be woken. -/
def registered : HandlerPC → Option Chan
  | .unlock ch | .push ch | .notify ch | .receive ch => some ch
  | _ => none

/-- The channel of a call that has pushed its request and has not been answered. -/
def awaits : HandlerPC → Option Chan
  | .notify ch | .receive ch => some ch
  | _ => none

theorem chan_of_registered {pc : HandlerPC} {ch : Chan} (h : pc.registered = some ch) :
    pc.chan = some ch := by
  cases pc <;> first | exact h | cases h

theorem registered_of_awaits {pc : HandlerPC} {ch : Chan} (h : pc.awaits = some ch) :
    pc.registered = some ch := by
  cases pc <;> first | exact h | cases h

theorem early_of_awaits {pc : HandlerPC} {ch : Chan} (h : pc.awaits = some ch) : pc.early = none := by
  cases pc <;> first | rfl | cases h

theorem chan_of_early {pc : HandlerPC} {ch : Chan} (h : pc.early = some ch) : pc.chan = some ch := by
  cases pc <;> first | exact h | cases h

end HandlerPC

/-- The event loop has the mutex. -/
def LoopPC.holds : LoopPC → Bool
  | .lookup .. | .send .. | .delete _ | .unlock => true
  | _ => false

/-- The answer to a call of this node that the event loop has taken from the queue and not yet sent. -/
def LoopPC.answer : LoopPC → Option (ℕ × Bool × Chan)
  | .lock slot ok (some ch) | .lookup slot ok (some ch) | .send slot ok (some ch) _ =>
    some (slot, ok, ch)
  | _ => none

/-- The event loop is not with an answer to the request of another node. -/
def LoopPC.solicited : LoopPC → Bool
  | .lock _ _ asker | .lookup _ _ asker | .send _ _ asker _ => asker.isSome
  | _ => true

/-- An answer to a call of this node. -/
def Msg.answer : Msg → Option (ℕ × Bool × Chan)
  | .expanded slot ok (some ch) => some (slot, ok, ch)
  | _ => none

/-- Not an answer to the request of another node. -/
def Msg.solicited : Msg → Bool
  | .expanded _ _ asker => asker.isSome
  | _ => true

namespace State

/-- The program points of the goroutines, seen through `π`. -/
def seen {β : Type} (s : State) (π : HandlerPC → β) : ℕ → β := fun i => π (s.handlers i).pc

/-- The slots of the goroutines. -/
def slotOf (s : State) : ℕ → ℕ := fun i => (s.handlers i).slot

/-- The answers on their way. -/
def flight (s : State) : List (ℕ × Bool × Chan) :=
  s.loop.answer.toList ++ s.queue.filterMap Msg.answer

/-- The requests that were pushed and whose answers have not been received. -/
def tokens (s : State) : List (ℕ × Chan) := s.asked ++ s.flight.map fun m => (m.1, m.2.2)

end State

variable {s t : State} {i : ℕ}

/-- In `t` the goroutine `i` has gone to `pc`, and the others are where they were. -/
structure Moves (s t : State) (i : ℕ) (pc : HandlerPC) : Prop where
  started : t.started = s.started
  slot : t.slotOf = s.slotOf
  seen : ∀ {β : Type} (π : HandlerPC → β), t.seen π = Function.update (s.seen π) i (π pc)

theorem moves_of {pc : HandlerPC} {failed : Bool} (hst : t.started = s.started)
    (hh : t.handlers = Function.update s.handlers i ⟨(s.handlers i).slot, pc, failed⟩) :
    Moves s t i pc := by
  refine ⟨hst, funext fun j => ?_, fun π => funext fun j => ?_⟩ <;> by_cases hj : j = i
  · subst hj
    simp [State.slotOf, hh]
  · simp [State.slotOf, hh, hj]
  · subst hj
    simp [State.seen, hh]
  · simp [State.seen, hh, hj]

/-- A function of the program points that does not tell the old one from the new one. -/
theorem seen_same {β : Type} {π : HandlerPC → β} {pc pc' : HandlerPC} (hpc : (s.handlers i).pc = pc)
    (h : π pc' = π pc) : Function.update (s.seen π) i (π pc') = s.seen π := by
  rw [h, ← hpc]
  exact Function.update_eq_self i (s.seen π)

/-! ## The parts of the invariant -/

/-- The mutex is held by those who are at a program point where they hold it. -/
structure Mutex (wMu : Option Holder) (holds : ℕ → Bool) (loopHolds : Bool) : Prop where
  handler : ∀ i, wMu = some (.handler i) ↔ holds i = true
  loop : wMu = some .loop ↔ loopHolds = true

namespace Mutex

variable {wMu : Option Holder} {holds : ℕ → Bool} {loopHolds : Bool}

theorem lock (h : Mutex none holds loopHolds) (i : ℕ) :
    Mutex (some (.handler i)) (Function.update holds i true) loopHolds := by
  refine ⟨fun j => ?_, ⟨fun he => (Holder.noConfusion (Option.some.inj he)), fun he => ?_⟩⟩
  · have hj := h.handler j
    by_cases hji : j = i
    · subst hji
      simp
    · simp only [Function.update_of_ne hji, Option.some.injEq, Holder.handler.injEq]
      constructor
      · exact fun he => absurd he.symm hji
      · exact fun he => nomatch hj.2 he
  · exact nomatch h.loop.2 he

theorem unlock (h : Mutex wMu holds loopHolds) {i : ℕ} (hi : holds i = true) :
    Mutex none (Function.update holds i false) loopHolds := by
  have hmu := (h.handler i).2 hi
  refine ⟨fun j => ⟨fun he => (nomatch he), fun he => ?_⟩, ⟨fun he => (nomatch he), fun he => ?_⟩⟩
  · by_cases hji : j = i
    · subst hji
      simp at he
    · rw [Function.update_of_ne hji] at he
      have hj := (h.handler j).2 he
      rw [hmu] at hj
      exact absurd (Holder.handler.inj (Option.some.inj hj)).symm hji
  · have hl := h.loop.2 he
    rw [hmu] at hl
    cases hl

theorem lockLoop (h : Mutex none holds loopHolds) : Mutex (some .loop) holds true :=
  ⟨fun i => ⟨fun he => (nomatch he), fun he => (nomatch (h.handler i).2 he)⟩, by simp⟩

theorem unlockLoop (h : Mutex wMu holds true) : Mutex none holds false := by
  have hmu := h.loop.2 rfl
  refine ⟨fun i => ⟨fun he => (nomatch he), fun he => ?_⟩, by simp⟩
  have hi := (h.handler i).2 he
  rw [hmu] at hi
  cases hi

/-- While the loop has the mutex no handler has it. -/
theorem not_holds (h : Mutex wMu holds true) (i : ℕ) : holds i ≠ true := by
  intro hi
  have hmu := (h.handler i).2 hi
  rw [h.loop.2 rfl] at hmu
  cases hmu

end Mutex

/-- The calls in progress have different open channels and are for different slots. -/
structure Calls (made : ℕ) (closed : Chan → Bool) (slot : ℕ → ℕ) (chan : ℕ → Option Chan) : Prop where
  unmade : ∀ ch, made ≤ ch → closed ch = false
  opened : ∀ i ch, chan i = some ch → ch < made ∧ closed ch = false
  apart : ∀ i j ch ch', chan i = some ch → chan j = some ch' → i ≠ j → ch ≠ ch' ∧ slot i ≠ slot j


namespace Calls

variable {made : ℕ} {closed : Chan → Bool} {slot : ℕ → ℕ} {chan : ℕ → Option Chan}

/-- A call for a slot that has none. -/
theorem begun (h : Calls made closed slot chan) {i : ℕ}
    (hone : ∀ j, j ≠ i → slot j = slot i → chan j = none) :
    Calls (made + 1) closed slot (Function.update chan i (some made)) := by
  have hother : ∀ j ch, j ≠ i → chan j = some ch → made ≠ ch ∧ slot i ≠ slot j := by
    intro j ch hj hch
    refine ⟨(h.opened j ch hch).1.ne', fun hs => ?_⟩
    rw [hone j hj hs.symm] at hch
    cases hch
  refine ⟨fun ch hch => h.unmade ch (Nat.le_of_succ_le hch), ?_, ?_⟩
  · intro j ch hch
    by_cases hj : j = i
    · subst hj
      rw [Function.update_self, Option.some.injEq] at hch
      subst hch
      exact ⟨Nat.lt_succ_self made, h.unmade made le_rfl⟩
    · rw [Function.update_of_ne hj] at hch
      exact ⟨Nat.lt_succ_of_lt (h.opened j ch hch).1, (h.opened j ch hch).2⟩
  · intro j k ch ch' hj hk hjk
    by_cases hji : j = i
    · subst hji
      rw [Function.update_self, Option.some.injEq] at hj
      rw [Function.update_of_ne hjk.symm] at hk
      subst hj
      exact hother k ch' hjk.symm hk
    · rw [Function.update_of_ne hji] at hj
      by_cases hki : k = i
      · subst hki
        rw [Function.update_self, Option.some.injEq] at hk
        subst hk
        have := hother j ch hji hj
        exact ⟨this.1.symm, this.2.symm⟩
      · rw [Function.update_of_ne hki] at hk
        exact h.apart j k ch ch' hj hk hjk

theorem ended (h : Calls made closed slot chan) (i : ℕ) :
    Calls made closed slot (Function.update chan i none) := by
  have hold : ∀ j ch, Function.update chan i none j = some ch → chan j = some ch := by
    intro j ch hch
    by_cases hj : j = i
    · subst hj
      rw [Function.update_self] at hch
      cases hch
    · rwa [Function.update_of_ne hj] at hch
  exact ⟨h.unmade, fun j ch hch => h.opened j ch (hold j ch hch),
    fun j k ch ch' hj hk => h.apart j k ch ch' (hold j ch hj) (hold k ch' hk)⟩

theorem close (h : Calls made closed slot chan) {i : ℕ} {ch : Chan} (hi : chan i = some ch) :
    Calls made (Function.update closed ch true) slot (Function.update chan i none) := by
  refine ⟨fun ch' hch => ?_, fun j ch' hch => ?_, (h.ended i).apart⟩
  · rw [Function.update_of_ne ((h.opened i ch hi).1.trans_le hch).ne']
    exact h.unmade ch' hch
  obtain ⟨hlt, hopen⟩ := (h.ended i).opened j ch' hch
  have hj : j ≠ i := by
    rintro rfl
    rw [Function.update_self] at hch
    cases hch
  rw [Function.update_of_ne hj] at hch
  rw [Function.update_of_ne (h.apart j i ch' ch hch hi hj).1]
  exact ⟨hlt, hopen⟩

/-- Only the slots of calls matter. -/
theorem slot_congr (h : Calls made closed slot chan) {slot' : ℕ → ℕ}
    (heq : ∀ i ch, chan i = some ch → slot' i = slot i) : Calls made closed slot' chan := by
  refine { h with apart := fun i j ch ch' hi hj hij => ?_ }
  rw [heq i ch hi, heq j ch' hj]
  exact h.apart i j ch ch' hi hj hij

end Calls


/-- The map has the channels of the calls that are registered. -/
def InMap (waiters : ℕ → Option Chan) (slot : ℕ → ℕ) (registered : ℕ → Option Chan) : Prop :=
  ∀ i ch, registered i = some ch → waiters (slot i) = some ch

namespace InMap

variable {waiters : ℕ → Option Chan} {slot : ℕ → ℕ} {registered : ℕ → Option Chan}

theorem register (h : InMap waiters slot registered) {i : ℕ} (ch : Chan)
    (hone : ∀ j ch', j ≠ i → registered j = some ch' → slot j ≠ slot i) :
    InMap (Function.update waiters (slot i) (some ch)) slot
      (Function.update registered i (some ch)) := by
  intro j ch' hj
  by_cases hji : j = i
  · subst hji
    rw [Function.update_self] at hj ⊢
    exact hj
  · rw [Function.update_of_ne hji] at hj
    rw [Function.update_of_ne (hone j ch' hji hj)]
    exact h j ch' hj

theorem leave (h : InMap waiters slot registered) (i : ℕ) :
    InMap waiters slot (Function.update registered i none) := by
  intro j ch hj
  by_cases hji : j = i
  · subst hji
    rw [Function.update_self] at hj
    cases hj
  · rw [Function.update_of_ne hji] at hj
    exact h j ch hj

theorem delete (h : InMap waiters slot registered) {k : ℕ}
    (hnone : ∀ j ch, registered j = some ch → slot j ≠ k) :
    InMap (Function.update waiters k none) slot registered := by
  intro j ch hj
  rw [Function.update_of_ne (hnone j ch hj)]
  exact h j ch hj

theorem slot_congr (h : InMap waiters slot registered) {slot' : ℕ → ℕ}
    (heq : ∀ i ch, registered i = some ch → slot' i = slot i) : InMap waiters slot' registered := by
  intro i ch hi
  rw [heq i ch hi]
  exact h i ch hi

end InMap

/-- The requests whose answers have not been received are those of the calls that wait for one. -/
structure Tokens (tokens : List (ℕ × Chan)) (slot : ℕ → ℕ) (awaits : ℕ → Option Chan) : Prop where
  nodup : tokens.Nodup
  mem : ∀ k ch, (k, ch) ∈ tokens ↔ ∃ i, slot i = k ∧ awaits i = some ch

namespace Tokens

variable {tokens tokens' : List (ℕ × Chan)} {slot : ℕ → ℕ} {awaits : ℕ → Option Chan}

theorem perm (h : Tokens tokens slot awaits) (hp : tokens'.Perm tokens) :
    Tokens tokens' slot awaits :=
  ⟨hp.nodup_iff.2 h.nodup, fun k ch => hp.mem_iff.trans (h.mem k ch)⟩

theorem ask (h : Tokens tokens slot awaits) {i : ℕ} {ch : Chan} (hi : awaits i = none)
    (hne : ∀ j, awaits j ≠ some ch) :
    Tokens ((slot i, ch) :: tokens) slot (Function.update awaits i (some ch)) := by
  have hnew : (slot i, ch) ∉ tokens := by
    intro hm
    obtain ⟨j, -, hj⟩ := (h.mem _ _).1 hm
    exact hne j hj
  refine ⟨List.nodup_cons.2 ⟨hnew, h.nodup⟩, fun k ch' => ?_⟩
  rw [List.mem_cons, h.mem, Prod.mk.injEq]
  constructor
  · rintro (⟨rfl, rfl⟩ | ⟨j, hs, hj⟩)
    · exact ⟨i, rfl, Function.update_self ..⟩
    · refine ⟨j, hs, ?_⟩
      rwa [Function.update_of_ne]
      rintro rfl
      rw [hi] at hj
      cases hj
  · rintro ⟨j, rfl, hj⟩
    by_cases hji : j = i
    · subst hji
      rw [Function.update_self, Option.some.injEq] at hj
      exact .inl ⟨rfl, hj.symm⟩
    · rw [Function.update_of_ne hji] at hj
      exact .inr ⟨j, rfl, hj⟩

theorem receive {k : ℕ} {ch : Chan} (h : Tokens ((k, ch) :: tokens) slot awaits) {i : ℕ}
    (hi : awaits i = some ch) (hinj : ∀ j, awaits j = some ch → j = i) :
    Tokens tokens slot (Function.update awaits i none) := by
  obtain ⟨hnot, hnodup⟩ := List.nodup_cons.1 h.nodup
  have hk : slot i = k := by
    obtain ⟨j, hs, hj⟩ := (h.mem k ch).1 List.mem_cons_self
    exact hinj j hj ▸ hs
  refine ⟨hnodup, fun k' ch' => ⟨fun hm => ?_, ?_⟩⟩
  · obtain ⟨j, hs, hj⟩ := (h.mem k' ch').1 (List.mem_cons_of_mem _ hm)
    refine ⟨j, hs, ?_⟩
    rwa [Function.update_of_ne]
    rintro rfl
    rw [hi, Option.some.injEq] at hj
    subst hj hs hk
    exact hnot hm
  · rintro ⟨j, rfl, hj⟩
    by_cases hji : j = i
    · subst hji
      rw [Function.update_self] at hj
      cases hj
    · rw [Function.update_of_ne hji] at hj
      refine ((List.mem_cons.1 ((h.mem _ _).2 ⟨j, rfl, hj⟩)).resolve_left fun he => ?_)
      rw [(Prod.mk.inj he).2] at hj
      exact hji (hinj j hj)

theorem slot_congr (h : Tokens tokens slot awaits) {slot' : ℕ → ℕ}
    (heq : ∀ i ch, awaits i = some ch → slot' i = slot i) : Tokens tokens slot' awaits := by
  refine ⟨h.nodup, fun k ch => (h.mem k ch).trans (exists_congr fun i => ?_)⟩
  exact and_congr_left fun hi => by rw [heq i ch hi]

end Tokens

/-- What the hub has answered is on its way or has been received, and nothing else has. -/
structure History (made : ℕ) (asked : List (ℕ × Chan)) (flight : List (ℕ × Bool × Chan))
    (answers results : Chan → Option Bool) (early : ℕ → Option Chan) : Prop where
  unmade : ∀ ch, made ≤ ch → answers ch = none
  unasked : ∀ i ch, early i = some ch → answers ch = none
  waiting : ∀ k ch, (k, ch) ∈ asked → answers ch = none
  coming : ∀ k ok ch, (k, ok, ch) ∈ flight → answers ch = some ok
  received : ∀ ch ok, results ch = some ok → answers ch = some ok
  answered : ∀ ch ok, answers ch = some ok → results ch = some ok ∨ ∃ k, (k, ok, ch) ∈ flight

namespace History

variable {made : ℕ} {asked : List (ℕ × Chan)} {flight : List (ℕ × Bool × Chan)}
  {answers results : Chan → Option Bool} {early : ℕ → Option Chan}

theorem begun (h : History made asked flight answers results early) (i : ℕ) :
    History (made + 1) asked flight answers results (Function.update early i (some made)) := by
  refine ⟨fun ch hch => h.unmade ch (Nat.le_of_succ_le hch), fun j ch hj => ?_, h.waiting, h.coming,
    h.received, h.answered⟩
  by_cases hji : j = i
  · subst hji
    rw [Function.update_self, Option.some.injEq] at hj
    exact h.unmade ch hj.le
  · rw [Function.update_of_ne hji] at hj
    exact h.unasked j ch hj

theorem leave (h : History made asked flight answers results early) (i : ℕ) :
    History made asked flight answers results (Function.update early i none) := by
  refine { h with unasked := fun j ch hj => ?_ }
  by_cases hji : j = i
  · subst hji
    rw [Function.update_self] at hj
    cases hj
  · rw [Function.update_of_ne hji] at hj
    exact h.unasked j ch hj

theorem ask (h : History made asked flight answers results early) {i : ℕ} {ch : Chan}
    (hi : early i = some ch) (k : ℕ) :
    History made (asked ++ [(k, ch)]) flight answers results (Function.update early i none) := by
  refine { h.leave i with waiting := fun k' ch' hm => ?_ }
  rcases List.mem_append.1 hm with hm | hm
  · exact h.waiting k' ch' hm
  · rw [List.mem_singleton, Prod.mk.injEq] at hm
    rw [hm.2]
    exact h.unasked i ch hi

/-- The hub answers the only request with the channel. -/
theorem answer (h : History made asked flight answers results early) {k : ℕ} {ch : Chan}
    (hm : (k, ch) ∈ asked) (hlt : ch < made) (hone : ∀ k', (k', ch) ∉ asked.erase (k, ch))
    (hearly : ∀ i, early i ≠ some ch) (ok : Bool) :
    History made (asked.erase (k, ch)) (flight ++ [(k, ok, ch)])
      (Function.update answers ch (some ok)) results early := by
  have hnone := h.waiting k ch hm
  constructor
  · intro ch' hch
    rw [Function.update_of_ne (hlt.trans_le hch).ne']
    exact h.unmade ch' hch
  · intro i ch' hi
    rw [Function.update_of_ne fun he : ch' = ch => hearly i (he ▸ hi)]
    exact h.unasked i ch' hi
  · intro k' ch' hm'
    rw [Function.update_of_ne fun he : ch' = ch => hone k' (he ▸ hm')]
    exact h.waiting k' ch' (List.mem_of_mem_erase hm')
  · intro k' ok' ch' hm'
    rcases List.mem_append.1 hm' with hm' | hm'
    · have hold := h.coming k' ok' ch' hm'
      rw [Function.update_of_ne fun he => ?_]
      · exact hold
      · rw [he, hnone] at hold
        cases hold
    · rw [List.mem_singleton, Prod.mk.injEq, Prod.mk.injEq] at hm'
      rw [hm'.2.2, hm'.2.1, Function.update_self]
  · intro ch' ok' hr
    have hold := h.received ch' ok' hr
    rw [Function.update_of_ne fun he => ?_]
    · exact hold
    · rw [he, hnone] at hold
      cases hold
  · intro ch' ok' ha
    by_cases hch : ch' = ch
    · subst hch
      rw [Function.update_self, Option.some.injEq] at ha
      exact .inr ⟨k, by simp [ha]⟩
    · rw [Function.update_of_ne hch] at ha
      refine (h.answered ch' ok' ha).imp_right ?_
      rintro ⟨k', hk'⟩
      exact ⟨k', List.mem_append_left _ hk'⟩

theorem receive {k : ℕ} {ok : Bool} {ch : Chan}
    (h : History made asked ((k, ok, ch) :: flight) answers results early) :
    History made asked flight answers (Function.update results ch (some ok)) early := by
  have hans := h.coming k ok ch List.mem_cons_self
  refine { h with
    coming := fun k' ok' ch' hm => h.coming k' ok' ch' (List.mem_cons_of_mem _ hm)
    received := fun ch' ok' hr => ?_
    answered := fun ch' ok' ha => ?_ }
  · by_cases hch : ch' = ch
    · subst hch
      rw [Function.update_self] at hr
      exact hans.trans hr
    · rw [Function.update_of_ne hch] at hr
      exact h.received ch' ok' hr
  · by_cases hch : ch' = ch
    · subst hch
      rw [Function.update_self]
      exact .inl (hans.symm.trans ha)
    · rw [Function.update_of_ne hch]
      refine (h.answered ch' ok' ha).imp_right ?_
      rintro ⟨k', hm⟩
      refine ⟨k', (List.mem_cons.1 hm).resolve_left fun he => hch ?_⟩
      exact (Prod.mk.inj (Prod.mk.inj he).2).2

end History

end Mmfg.Node
