import Mmfg.Node.Parts

/-!
# The invariant of the Go node

It holds as long as at any time there is at most one call of `RequestExpand` for a slot (`OneCall`) and
the hub answers to this node nothing but its own requests (`Solicited`).  The hub does so as long as the
owner of a slot is still the node that pushed the request when the dispatch loop takes it
(`Hub.AskedByOwner`).
-/

namespace Mmfg.Node

variable {s t : State} {i : ℕ}

/-- A call of `RequestExpand` is made only while there is no other one for the slot. -/
def OneCall (s : State) : Action → Prop
  | .call i => ∀ j < s.started, j ≠ i → s.slotOf j = s.slotOf i → s.seen HandlerPC.chan j = none
  | _ => True

instance (s : State) : (a : Action) → Decidable (OneCall s a)
  | .call i => inferInstanceAs (Decidable (∀ j < s.started, j ≠ i → s.slotOf j = s.slotOf i →
      s.seen HandlerPC.chan j = none))
  | .submit _ | .release _ | .answer .. | .stray .. | .finish _ | .panic _ | .run .. | .loop
  | .meet _ => inferInstanceAs (Decidable True)

/-- The hub does not answer to this node what another one has asked. -/
def Solicited (_ : State) : Action → Prop
  | .stray .. => False
  | _ => True

instance (s : State) : (a : Action) → Decidable (Solicited s a)
  | .stray .. => inferInstanceAs (Decidable False)
  | .submit _ | .release _ | .answer .. | .call _ | .finish _ | .panic _ | .run .. | .loop
  | .meet _ => inferInstanceAs (Decidable True)

/-- One call for a slot at a time, and answers to this node's requests only. -/
def Orderly (s : State) (a : Action) : Prop := OneCall s a ∧ Solicited s a

instance (s : State) (a : Action) : Decidable (Orderly s a) :=
  inferInstanceAs (Decidable (_ ∧ _))

/-- The parts of the invariant, each about the fields that it needs. -/
structure Inv (s : State) : Prop where
  unstarted : ∀ i, s.started ≤ i → (s.handlers i).pc = .finished
  mutex : Mutex s.wMu (s.seen HandlerPC.holds) s.loop.holds
  calls : Calls s.made s.closed s.slotOf (s.seen HandlerPC.chan)
  inMap : InMap s.waiters s.slotOf (s.seen HandlerPC.registered)
  tokens : Tokens s.tokens s.slotOf (s.seen HandlerPC.awaits)
  history : History s.made s.asked s.flight s.answers s.results (s.seen HandlerPC.early)
  solicited : s.loop.solicited = true ∧ ∀ m ∈ s.queue, m.solicited = true
  sends : ∀ k ok asker ch, s.loop = .send k ok asker ch → asker = some ch
  deletes : ∀ k, s.loop = .delete k → ∀ j ch, s.seen HandlerPC.registered j = some ch → s.slotOf j ≠ k
  calm : s.loop ≠ .panicked

theorem inv_initial : Inv initial where
  unstarted _ _ := rfl
  mutex := ⟨by simp [initial, State.seen, HandlerPC.holds], by simp [initial, LoopPC.holds]⟩
  calls := ⟨fun _ _ => rfl, fun _ _ h => (nomatch h), fun _ _ _ _ h => (nomatch h)⟩
  inMap _ _ h := nomatch h
  tokens := ⟨List.nodup_nil, fun _ _ => ⟨fun h => (nomatch h), fun ⟨_, _, h⟩ => (nomatch h)⟩⟩
  history := ⟨fun _ _ => rfl, fun _ _ h => (nomatch h), fun _ _ h => (nomatch h),
    fun _ _ _ h => (nomatch h), fun _ _ h => (nomatch h), fun _ _ h => (nomatch h)⟩
  solicited := ⟨rfl, fun _ h => (nomatch h)⟩
  sends _ _ _ _ h := nomatch h
  deletes _ h := nomatch h
  calm h := nomatch h

/-! ## Steps of a handler -/

namespace Inv

theorem live (h : Inv s) (hpc : (s.handlers i).pc ≠ .finished) : i < s.started := by
  by_contra hge
  exact hpc (h.unstarted i (by omega))

theorem unstarted_moves (h : Inv s) {pc : HandlerPC} (hm : Moves s t i pc)
    (hlive : (s.handlers i).pc ≠ .finished) :
    ∀ j, t.started ≤ j → (t.handlers j).pc = .finished := by
  have hi := h.live hlive
  intro j hj
  rw [hm.started] at hj
  have hsame := congrFun (hm.seen id) j
  rw [Function.update_of_ne (show j ≠ i by omega)] at hsame
  exact hsame.trans (h.unstarted j hj)

/-- What has to be shown for a step of a handler, with the program point that it has gone to. -/
theorem of_moves (h : Inv s) {pc : HandlerPC} (hm : Moves s t i pc)
    (hlive : (s.handlers i).pc ≠ .finished) (hloop : t.loop = s.loop) (hqueue : t.queue = s.queue)
    (mutex : Mutex t.wMu (Function.update (s.seen HandlerPC.holds) i pc.holds) s.loop.holds)
    (calls : Calls t.made t.closed s.slotOf (Function.update (s.seen HandlerPC.chan) i pc.chan))
    (inMap : InMap t.waiters s.slotOf
      (Function.update (s.seen HandlerPC.registered) i pc.registered))
    (tokens : Tokens t.tokens s.slotOf (Function.update (s.seen HandlerPC.awaits) i pc.awaits))
    (history : History t.made t.asked t.flight t.answers t.results
      (Function.update (s.seen HandlerPC.early) i pc.early))
    (deletes : pc.registered = s.seen HandlerPC.registered i ∨ pc.registered = none ∨
      s.loop.holds = false) : Inv t := by
  rw [← hm.seen] at mutex calls inMap tokens history
  rw [← hm.slot] at calls inMap tokens
  rw [← hloop] at mutex
  refine ⟨h.unstarted_moves hm hlive, mutex, calls, inMap, tokens, history, ?_, ?_,
    fun k hk j ch hj => ?_, ?_⟩
  · rw [hloop, hqueue]
    exact h.solicited
  · rw [hloop]
    exact h.sends
  · rw [hloop] at hk
    rw [hm.slot]
    refine h.deletes k hk j ch ?_
    rw [hm.seen] at hj
    by_cases hji : j = i
    · subst hji
      rw [Function.update_self] at hj
      rcases deletes with hd | hd | hd
      · exact hd.symm.trans hj
      · exact nomatch hd.symm.trans hj
      · rw [hk] at hd
        cases hd
    · rwa [Function.update_of_ne hji] at hj
  · rw [hloop]
    exact h.calm

theorem outside (h : Inv s) {pc pc' : HandlerPC} (hpc : (s.handlers i).pc = pc)
    (hlive : pc ≠ .finished) (hout : pc.chan = none) (hout' : pc'.chan = none) :
    Inv (s.goto i pc') := by
  have hall : ∀ {pc : HandlerPC}, pc.chan = none →
      pc.holds = false ∧ pc.registered = none ∧ pc.awaits = none ∧ pc.early = none := by
    intro pc hnone
    cases pc <;> first | exact ⟨rfl, rfl, rfl, rfl⟩ | cases hnone
  obtain ⟨hholds, hreg, hawaits, hearly⟩ := hall hout
  obtain ⟨hholds', hreg', hawaits', hearly'⟩ := hall hout'
  refine h.of_moves (moves_of rfl rfl) (hpc ▸ hlive) rfl rfl ?_ ?_ ?_ ?_ ?_ (.inr (.inl hreg'))
  · rw [seen_same hpc (hholds'.trans hholds.symm)]
    exact h.mutex
  · rw [seen_same hpc (hout'.trans hout.symm)]
    exact h.calls
  · rw [seen_same hpc (hreg'.trans hreg.symm)]
    exact h.inMap
  · rw [seen_same hpc (hawaits'.trans hawaits.symm)]
    exact h.tokens
  · rw [seen_same hpc (hearly'.trans hearly.symm)]
    exact h.history

variable {ch : Chan}

theorem call (h : Inv s) (hpc : (s.handlers i).pc = .running) (hok : OneCall s (.call i)) :
    Inv { s.goto i (.lock s.made) with made := s.made + 1 } := by
  have hone : ∀ j, j ≠ i → s.slotOf j = s.slotOf i → s.seen HandlerPC.chan j = none := by
    intro j hji hs
    rcases lt_or_ge j s.started with hj | hj
    · exact hok j hj hji hs
    · exact congrArg HandlerPC.chan (h.unstarted j hj)
  refine h.of_moves (moves_of rfl rfl) (by simp [hpc]) rfl rfl ?_ (h.calls.begun hone)
    ?_ ?_ (h.history.begun i) (.inr (.inl rfl))
  · rw [seen_same hpc]
    exacts [h.mutex, rfl]
  · rw [seen_same hpc]
    exacts [h.inMap, rfl]
  · rw [seen_same hpc]
    exacts [h.tokens, rfl]

theorem lock (h : Inv s) (hpc : (s.handlers i).pc = .lock ch) (hmu : s.wMu = none) :
    Inv { s.goto i (.register ch) with wMu := some (.handler i) } := by
  refine h.of_moves (moves_of rfl rfl) (by simp [hpc]) rfl rfl ?_ ?_ ?_ ?_ ?_
    (.inr (.inl rfl))
  · have hmutex := h.mutex
    rw [hmu] at hmutex
    exact hmutex.lock i
  · rw [seen_same hpc]
    exacts [h.calls, rfl]
  · rw [seen_same hpc]
    exacts [h.inMap, rfl]
  · rw [seen_same hpc]
    exacts [h.tokens, rfl]
  · rw [seen_same hpc]
    exacts [h.history, rfl]

theorem register (h : Inv s) (hpc : (s.handlers i).pc = .register ch) :
    Inv { s.goto i (.unlock ch) with
      waiters := Function.update s.waiters (s.handlers i).slot (some ch) } := by
  have hchan : s.seen HandlerPC.chan i = some ch := congrArg HandlerPC.chan hpc
  have hfree : s.loop.holds = false := by
    by_contra hl
    have hmutex := h.mutex
    rw [Bool.not_eq_false] at hl
    rw [hl] at hmutex
    exact hmutex.not_holds i (congrArg HandlerPC.holds hpc)
  refine h.of_moves (moves_of rfl rfl) (by simp [hpc]) rfl rfl ?_ ?_ ?_ ?_ ?_
    (.inr (.inr hfree))
  · rw [seen_same hpc]
    exacts [h.mutex, rfl]
  · rw [seen_same hpc]
    exacts [h.calls, rfl]
  · refine h.inMap.register ch fun j ch' hji hj => ?_
    exact (h.calls.apart j i ch' ch (HandlerPC.chan_of_registered hj) hchan hji).2
  · rw [seen_same hpc]
    exacts [h.tokens, rfl]
  · rw [seen_same hpc]
    exacts [h.history, rfl]

theorem unlock (h : Inv s) (hpc : (s.handlers i).pc = .unlock ch) :
    Inv { s.goto i (.push ch) with wMu := none } := by
  refine h.of_moves (moves_of rfl rfl) (by simp [hpc]) rfl rfl ?_ ?_ ?_ ?_ ?_
    (.inl (congrArg HandlerPC.registered hpc).symm)
  · exact h.mutex.unlock (congrArg HandlerPC.holds hpc)
  · rw [seen_same hpc]
    exacts [h.calls, rfl]
  · rw [seen_same hpc]
    exacts [h.inMap, rfl]
  · rw [seen_same hpc]
    exacts [h.tokens, rfl]
  · rw [seen_same hpc]
    exacts [h.history, rfl]

theorem push (h : Inv s) (hpc : (s.handlers i).pc = .push ch) :
    Inv { s.goto i (.notify ch) with asked := s.asked ++ [((s.handlers i).slot, ch)] } := by
  have hchan : s.seen HandlerPC.chan i = some ch := congrArg HandlerPC.chan hpc
  have hawaits : s.seen HandlerPC.awaits i = none := congrArg HandlerPC.awaits hpc
  refine h.of_moves (moves_of rfl rfl) (by simp [hpc]) rfl rfl ?_ ?_ ?_ ?_
    (h.history.ask (congrArg HandlerPC.early hpc) _) (.inl (congrArg HandlerPC.registered hpc).symm)
  · rw [seen_same hpc]
    exacts [h.mutex, rfl]
  · rw [seen_same hpc]
    exacts [h.calls, rfl]
  · rw [seen_same hpc]
    exacts [h.inMap, rfl]
  · refine (h.tokens.ask hawaits fun j hj => ?_).perm ?_
    · by_cases hji : j = i
      · rw [hji, hawaits] at hj
        cases hj
      · have hjc := HandlerPC.chan_of_registered (HandlerPC.registered_of_awaits hj)
        exact (h.calls.apart j i ch ch hjc hchan hji).1 rfl
    · simp only [State.tokens, List.append_assoc]
      exact List.perm_middle

theorem pushFailed (h : Inv s) (hpc : (s.handlers i).pc = .push ch) : Inv (s.goto i .running) := by
  refine h.of_moves (moves_of rfl rfl) (by simp [hpc]) rfl rfl ?_ (h.calls.ended i)
    (h.inMap.leave i) ?_ (h.history.leave i) (.inr (.inl rfl))
  · rw [seen_same hpc]
    exacts [h.mutex, rfl]
  · rw [seen_same hpc]
    exacts [h.tokens, rfl]

theorem notify (h : Inv s) (hpc : (s.handlers i).pc = .notify ch) : Inv (s.goto i (.receive ch)) := by
  refine h.of_moves (moves_of rfl rfl) (by simp [hpc]) rfl rfl ?_ ?_ ?_ ?_ ?_
    (.inl (congrArg HandlerPC.registered hpc).symm)
  · rw [seen_same hpc]
    exacts [h.mutex, rfl]
  · rw [seen_same hpc]
    exacts [h.calls, rfl]
  · rw [seen_same hpc]
    exacts [h.inMap, rfl]
  · rw [seen_same hpc]
    exacts [h.tokens, rfl]
  · rw [seen_same hpc]
    exacts [h.history, rfl]

theorem close {ok : Bool} (h : Inv s) (hpc : (s.handlers i).pc = .close ch ok) (failed : Bool) :
    Inv { s with
      closed := Function.update s.closed ch true
      handlers := Function.update s.handlers i ⟨(s.handlers i).slot, .running, failed⟩ } := by
  refine h.of_moves (moves_of rfl rfl) (by simp [hpc]) rfl rfl ?_
    (h.calls.close (congrArg HandlerPC.chan hpc)) ?_ ?_ ?_ (.inr (.inl rfl))
  · rw [seen_same hpc]
    exacts [h.mutex, rfl]
  · rw [seen_same hpc]
    exacts [h.inMap, rfl]
  · rw [seen_same hpc]
    exacts [h.tokens, rfl]
  · rw [seen_same hpc]
    exacts [h.history, rfl]

/-! ## Steps of the hub and of the event loop -/

theorem asker (h : Inv s) {k : ℕ} (hm : (k, ch) ∈ s.tokens) :
    ∃ i, s.slotOf i = k ∧ s.seen HandlerPC.awaits i = some ch ∧
      s.seen HandlerPC.chan i = some ch ∧ s.waiters k = some ch := by
  obtain ⟨i, rfl, hi⟩ := (h.tokens.mem k ch).1 hm
  have hreg := HandlerPC.registered_of_awaits hi
  exact ⟨i, rfl, hi, HandlerPC.chan_of_registered hreg, h.inMap i ch hreg⟩

/-- Two goroutines in a call with the same channel are one. -/
theorem eq_of_chan (h : Inv s) {j : ℕ} (hi : s.seen HandlerPC.chan i = some ch)
    (hj : s.seen HandlerPC.chan j = some ch) : i = j := by
  by_contra hne
  exact (h.calls.apart i j ch ch hi hj hne).1 rfl

theorem pushed {q : List Msg} {m : Msg} (hq : ∀ m ∈ q, m.solicited = true)
    (hm : m.solicited = true) : ∀ m' ∈ q ++ [m], m'.solicited = true := by
  intro m' hm'
  rcases List.mem_append.1 hm' with hm' | hm'
  · exact hq m' hm'
  · exact List.mem_singleton.1 hm' ▸ hm

theorem submit (h : Inv s) {m : Msg} (hm : m.answer = none) (hsol : m.solicited = true) :
    Inv { s with queue := s.queue ++ [m] } := by
  have hflight : State.flight { s with queue := s.queue ++ [m] } = s.flight := by
    simp [State.flight, hm]
  refine { h with tokens := ?_, history := ?_, solicited := h.solicited.imp_right (pushed · hsol) }
  · rw [State.tokens, hflight]
    exact h.tokens
  · rw [hflight]
    exact h.history

theorem answer (h : Inv s) {k : ℕ} (hm : (k, ch) ∈ s.asked) (ok : Bool) :
    Inv { s with
      asked := s.asked.erase (k, ch)
      queue := s.queue ++ [.expanded k ok (some ch)]
      answers := Function.update s.answers ch (some ok) } := by
  have hflight : s.loop.answer.toList ++ (s.queue ++ [Msg.expanded k ok (some ch)]).filterMap Msg.answer =
      s.flight ++ [(k, ok, ch)] := by
    simp [State.flight, Msg.answer]
  have hasked : s.asked ⊆ s.tokens := List.subset_append_left ..
  obtain ⟨i, hk, hi, hchan, -⟩ := h.asker (hasked hm)
  have hnodup : s.asked.Nodup := (List.nodup_append.1 h.tokens.nodup).1
  refine { h with
    tokens := ?_, history := ?_, solicited := h.solicited.imp_right (pushed · rfl) }
  · refine h.tokens.perm ?_
    simp only [State.tokens, State.flight] at hflight ⊢
    rw [hflight, List.map_append, ← List.append_assoc]
    refine (List.perm_append_singleton ..).trans ?_
    rw [← List.cons_append]
    exact (List.perm_cons_erase hm).symm.append_right _
  · simp only [State.flight] at hflight ⊢
    rw [hflight]
    refine h.history.answer hm (h.calls.opened i ch hchan).1 (fun k' hm' => ?_) (fun j hj => ?_) ok
    · -- the channel tells the call and with it the slot
      obtain ⟨j, hk', -, hj, -⟩ := h.asker (hasked (List.mem_of_mem_erase hm'))
      rw [← hk', ← h.eq_of_chan hchan hj, hk] at hm'
      exact hnodup.not_mem_erase hm'
    · obtain rfl := h.eq_of_chan hchan (HandlerPC.chan_of_early hj)
      exact nomatch hj.symm.trans (HandlerPC.early_of_awaits hi)

theorem process (h : Inv s) {k : ℕ} {q : List Msg} (hq : s.queue = .process k :: q) :
    Inv { s with
      queue := q
      started := s.started + 1
      handlers := Function.update s.handlers s.started ⟨k, .running, false⟩ } := by
  have hflight : s.loop.answer.toList ++ q.filterMap Msg.answer = s.flight := by
    simp [State.flight, hq, List.filterMap_cons, Msg.answer]
  have hold := h.unstarted s.started le_rfl
  generalize hhs : Function.update s.handlers s.started ⟨k, .running, false⟩ = hs
  have hother : ∀ j, j ≠ s.started → hs j = s.handlers j := fun j hj => by
    rw [← hhs, Function.update_of_ne hj]
  -- no part of the invariant tells `running` from `finished`, and the slot is of no interest yet
  have hseen : ∀ {β : Type} (π : HandlerPC → β), π .running = π .finished →
      (fun j => π (hs j).pc) = s.seen π := by
    intro β π hπ
    funext j
    by_cases hj : j = s.started
    · subst hj
      simp [State.seen, ← hhs, hold, hπ]
    · simp [State.seen, hother j hj]
  have hslot : ∀ j ch, s.seen HandlerPC.chan j = some ch → (hs j).slot = s.slotOf j := by
    intro j ch hj
    have hne : j ≠ s.started := by
      rintro rfl
      rw [State.seen, hold] at hj
      cases hj
    simp [State.slotOf, hother j hne]
  constructor
  · intro j hj
    have hlt : s.started < j := hj
    exact (congrArg Handler.pc (hother j hlt.ne')).trans (h.unstarted j hlt.le)
  · change Mutex s.wMu (fun j => (hs j).pc.holds) s.loop.holds
    rw [hseen HandlerPC.holds rfl]
    exact h.mutex
  · change Calls s.made s.closed (fun j => (hs j).slot) (fun j => (hs j).pc.chan)
    rw [hseen HandlerPC.chan rfl]
    exact h.calls.slot_congr hslot
  · change InMap s.waiters (fun j => (hs j).slot) (fun j => (hs j).pc.registered)
    rw [hseen HandlerPC.registered rfl]
    exact h.inMap.slot_congr fun j ch hj => hslot j ch (HandlerPC.chan_of_registered hj)
  · change Tokens (s.asked ++ (s.loop.answer.toList ++ q.filterMap Msg.answer).map _)
      (fun j => (hs j).slot) (fun j => (hs j).pc.awaits)
    rw [hseen HandlerPC.awaits rfl, hflight]
    exact h.tokens.slot_congr fun j ch hj =>
      hslot j ch (HandlerPC.chan_of_registered (HandlerPC.registered_of_awaits hj))
  · change History s.made s.asked (s.loop.answer.toList ++ q.filterMap Msg.answer) s.answers s.results
      (fun j => (hs j).pc.early)
    rw [hseen HandlerPC.early rfl, hflight]
    exact h.history
  · exact h.solicited.imp_right fun hall m hm => hall m (hq ▸ List.mem_cons_of_mem _ hm)
  · exact h.sends
  · intro n hn j ch hj
    have hreg : s.seen HandlerPC.registered j = some ch := by
      rw [← hseen HandlerPC.registered rfl]
      exact hj
    change (hs j).slot ≠ n
    rw [hslot j ch (HandlerPC.chan_of_registered hreg)]
    exact h.deletes n hn j ch hreg
  · exact h.calm

/-- What has to be shown for a step of the event loop that leaves the handlers. -/
theorem of_loop (h : Inv s) {pc : LoopPC} {q : List Msg} {wMu : Option Holder}
    (hflight : pc.answer.toList ++ q.filterMap Msg.answer = s.flight)
    (hsol : pc.solicited = true) (hq : q ⊆ s.queue)
    (mutex : Mutex wMu (s.seen HandlerPC.holds) pc.holds)
    (sends : ∀ k ok asker ch, pc = .send k ok asker ch → asker = some ch)
    (deletes : ∀ k, pc ≠ .delete k) (calm : pc ≠ .panicked) :
    Inv { s with wMu := wMu, queue := q, loop := pc } := by
  refine { h with
    mutex := mutex, tokens := ?_, history := ?_, sends := sends,
    solicited := ⟨hsol, fun m hm => h.solicited.2 m (hq hm)⟩
    deletes := fun k hk => absurd hk (deletes k), calm := calm }
  · simp only [State.tokens, State.flight] at hflight ⊢
    rw [hflight]
    exact h.tokens
  · simp only [State.flight] at hflight ⊢
    rw [hflight]
    exact h.history

variable {k : ℕ} {ok : Bool} {c : Chan}

theorem take {q : List Msg} (h : Inv s) (hl : s.loop = .idle)
    (hq : s.queue = .expanded k ok (some c) :: q) :
    Inv { s with queue := q, loop := .lock k ok (some c) } := by
  refine h.of_loop ?_ rfl (hq ▸ List.subset_cons_self ..) ?_ (fun _ _ _ _ he => nomatch he) (fun _ he => nomatch he) (fun he => nomatch he)
  · simp [State.flight, hq, hl, Msg.answer, LoopPC.answer]
  · have hmutex := h.mutex
    rw [hl] at hmutex
    exact hmutex

theorem release {q : List Msg} (h : Inv s) (hl : s.loop = .idle) (hq : s.queue = .release k :: q) :
    Inv { s with queue := q, freed := s.freed ++ [k] } := by
  have hinv : Inv { s with queue := q, loop := .idle } := by
    refine h.of_loop ?_ rfl (hq ▸ List.subset_cons_self ..) ?_ (fun _ _ _ _ he => nomatch he) (fun _ he => nomatch he)
      (fun he => nomatch he)
    · simp [State.flight, hq, hl, Msg.answer, List.filterMap_cons]
    · rw [← hl]
      exact h.mutex
  rw [← hl] at hinv
  exact { hinv with }

theorem lockLoop (h : Inv s) (hl : s.loop = .lock k ok (some c)) (hmu : s.wMu = none) :
    Inv { s with wMu := some .loop, loop := .lookup k ok (some c) } := by
  refine h.of_loop ?_ rfl (List.Subset.refl _) ?_ (fun _ _ _ _ he => nomatch he) (fun _ he => nomatch he) (fun he => nomatch he)
  · simp [State.flight, hl, LoopPC.answer]
  · have hmutex := h.mutex
    rw [hmu] at hmutex
    exact hmutex.lockLoop

theorem asker_of_loop (h : Inv s) (hl : s.loop.answer = some (k, ok, c)) :
    ∃ i, s.slotOf i = k ∧ s.seen HandlerPC.awaits i = some c ∧
      s.seen HandlerPC.chan i = some c ∧ s.waiters k = some c :=
  h.asker (by simp [State.tokens, State.flight, hl])

/-- The lookup finds the channel of the call. -/
theorem lookup (h : Inv s) (hl : s.loop = .lookup k ok (some c)) :
    s.waiters k = some c ∧ Inv { s with loop := .send k ok (some c) c } := by
  obtain ⟨-, -, -, -, hw⟩ := h.asker_of_loop (by rw [hl]; rfl)
  refine ⟨hw, h.of_loop ?_ rfl (List.Subset.refl _) ?_ ?_ (fun _ he => nomatch he) (fun he => nomatch he)⟩
  · simp [State.flight, hl, LoopPC.answer]
  · have hmutex := h.mutex
    rw [hl] at hmutex
    exact hmutex
  · rintro k' ok' asker ch ⟨⟩
    rfl

/-- The channel is open when the loop sends. -/
theorem send_open {asker : Option Chan} (h : Inv s) (hl : s.loop = .send k ok asker ch) :
    s.closed ch = false := by
  obtain rfl := h.sends k ok asker ch hl
  obtain ⟨i, -, -, hchan, -⟩ := h.asker_of_loop (congrArg LoopPC.answer hl)
  exact (h.calls.opened i ch hchan).2

theorem delete (h : Inv s) (hl : s.loop = .delete k) :
    Inv { s with waiters := Function.update s.waiters k none, loop := .unlock } := by
  have hmutex := h.mutex
  rw [hl] at hmutex
  have hflight : LoopPC.answer .unlock = s.loop.answer := by rw [hl]; rfl
  refine { h with
    mutex := hmutex, inMap := h.inMap.delete (h.deletes k hl), tokens := ?_, history := ?_,
    solicited := ⟨rfl, h.solicited.2⟩
    sends := fun _ _ _ _ he => (nomatch he), deletes := fun _ he => (nomatch he),
    calm := fun he => (nomatch he) }
  · simp only [State.tokens, State.flight, hflight]
    exact h.tokens
  · simp only [State.flight, hflight]
    exact h.history

theorem unlockLoop (h : Inv s) (hl : s.loop = .unlock) : Inv { s with wMu := none, loop := .idle } := by
  refine h.of_loop ?_ rfl (List.Subset.refl _) ?_ (fun _ _ _ _ he => nomatch he) (fun _ he => nomatch he) (fun he => nomatch he)
  · simp [State.flight, hl, LoopPC.answer]
  · have hmutex := h.mutex
    rw [hl] at hmutex
    exact hmutex.unlockLoop

/-- The answer is received by the call that has asked for it, and by no other. -/
theorem meet {asker : Option Chan} (h : Inv s) (hl : s.loop = .send k ok asker c)
    (hpc : (s.handlers i).pc = .receive c) :
    Inv { s.goto i (.close c ok) with
      loop := .delete k
      results := Function.update s.results c (some ok) } := by
  obtain rfl := h.sends k ok asker c hl
  have hchan : s.seen HandlerPC.chan i = some c := congrArg HandlerPC.chan hpc
  have hflight : s.flight = (k, ok, c) :: s.queue.filterMap Msg.answer := by
    simp [State.flight, hl, LoopPC.answer]
  have hslot : s.slotOf i = k := by
    obtain ⟨j, hj, -, hjc, -⟩ := h.asker_of_loop (congrArg LoopPC.answer hl)
    exact h.eq_of_chan hchan hjc ▸ hj
  have hm : Moves s { s.goto i (.close c ok) with
      loop := .delete k
      results := Function.update s.results c (some ok) } i (.close c ok) := moves_of rfl rfl
  refine ⟨h.unstarted_moves hm (by simp [hpc]), ?_, ?_, ?_, ?_, ?_, ⟨rfl, h.solicited.2⟩,
    fun _ _ _ _ he => (nomatch he), ?_, fun he => (nomatch he)⟩
  · have hmutex := h.mutex
    rw [hl] at hmutex
    rw [hm.seen, seen_same hpc]
    exacts [hmutex, rfl]
  · rw [hm.seen, hm.slot, seen_same hpc]
    exacts [h.calls, rfl]
  · rw [hm.seen, hm.slot]
    exact h.inMap.leave i
  · have htokens := h.tokens
    rw [State.tokens, hflight, List.map_cons] at htokens
    rw [hm.seen, hm.slot]
    refine (htokens.perm List.perm_middle.symm).receive (congrArg HandlerPC.awaits hpc) fun j hj => ?_
    exact h.eq_of_chan (HandlerPC.chan_of_registered (HandlerPC.registered_of_awaits hj)) hchan
  · have hhistory := h.history
    rw [hflight] at hhistory
    rw [hm.seen, seen_same hpc]
    exacts [hhistory.receive, rfl]
  · rintro k' ⟨⟩ j ch' hj
    rw [hm.seen] at hj
    rw [hm.slot, ← hslot]
    by_cases hji : j = i
    · subst hji
      rw [Function.update_self] at hj
      cases hj
    · rw [Function.update_of_ne hji] at hj
      exact (h.calls.apart j i ch' c (HandlerPC.chan_of_registered hj) hchan hji).2

end Inv

theorem inv_stepHandler {choice : Bool} (h : Inv s) (hs : s.stepHandler i choice = some t) : Inv t := by
  unfold State.stepHandler at hs
  cases hpc : (s.handlers i).pc <;> simp only [hpc] at hs
  case lock ch =>
    split_ifs at hs with hmu
    cases hs
    exact h.lock hpc hmu
  case register ch => cases hs; exact h.register hpc
  case unlock ch => cases hs; exact h.unlock hpc
  case push ch =>
    cases choice <;> cases hs
    · exact h.pushFailed hpc
    · exact h.push hpc
  case notify ch => cases hs; exact h.notify hpc
  case close ch ok => cases hs; exact h.close hpc _
  case setDone => cases hs; exact h.outside hpc nofun rfl rfl
  case respond =>
    cases hs
    exact { h.outside hpc nofun rfl (rfl : HandlerPC.notifyHub.chan = none) with }
  case notifyHub => cases hs; exact h.outside hpc nofun rfl rfl
  all_goals cases hs

/-- The event loop has only answers to calls of this node. -/
theorem Inv.exists_asker (h : Inv s) {asker : Option Chan}
    (hl : s.loop.solicited = asker.isSome) : ∃ c, asker = some c :=
  Option.isSome_iff_exists.1 (hl.symm.trans h.solicited.1)

theorem inv_stepLoop (h : Inv s) (hs : s.stepLoop = some t) : Inv t := by
  unfold State.stepLoop at hs
  cases hl : s.loop <;> simp only [hl] at hs
  case idle =>
    cases hq : s.queue with
    | nil =>
      rw [hq] at hs
      cases hs
    | cons m q =>
      rw [hq] at hs
      cases m with
      | process k =>
        cases hs
        exact hl ▸ h.process hq
      | release k =>
        cases hs
        exact hl ▸ h.release hl hq
      | expanded k ok asker =>
        have hsol : asker.isSome = true :=
          h.solicited.2 (.expanded k ok asker) (hq ▸ List.mem_cons_self)
        obtain ⟨c, rfl⟩ := Option.isSome_iff_exists.1 hsol
        cases hs
        exact h.take hl hq
  case lock k ok asker =>
    obtain ⟨c, rfl⟩ := h.exists_asker (congrArg LoopPC.solicited hl)
    split_ifs at hs with hmu
    cases hs
    exact h.lockLoop hl hmu
  case lookup k ok asker =>
    obtain ⟨c, rfl⟩ := h.exists_asker (congrArg LoopPC.solicited hl)
    obtain ⟨hw, hinv⟩ := h.lookup hl
    rw [hw] at hs
    cases hs
    exact hinv
  case send k ok c ch =>
    rw [h.send_open hl] at hs
    cases hs
  case delete k => cases hs; exact h.delete hl
  case unlock => cases hs; exact h.unlockLoop hl
  case panicked => cases hs

theorem stepMeet_eq_some (hs : s.stepMeet i = some t) :
    ∃ k ok c ch, s.loop = .send k ok c ch ∧ (s.handlers i).pc = .receive ch ∧
      t = { s.goto i (.close ch ok) with
        loop := .delete k
        results := Function.update s.results ch (some ok) } := by
  unfold State.stepMeet at hs
  split at hs
  · rename_i k ok c ch ch' hl hpc
    split_ifs at hs with hch
    obtain ⟨rfl, -⟩ := hch
    cases hs
    exact ⟨k, ok, c, ch, hl, hpc, rfl⟩
  · cases hs

theorem inv_step {a : Action} (h : Inv s) (hok : Orderly s a) (hs : step s a = some t) : Inv t := by
  cases a with
  | submit k => cases hs; exact h.submit rfl rfl
  | release k => cases hs; exact h.submit rfl rfl
  | answer k ch ok =>
    rw [step] at hs
    split_ifs at hs with hm
    cases hs
    exact h.answer hm ok
  | stray k ok => exact hok.2.elim
  | call i =>
    rw [step] at hs
    split_ifs at hs with hpc
    cases hs
    exact h.call hpc hok.1
  | finish i =>
    rw [step] at hs
    split_ifs at hs with hpc hfailed <;> cases hs
    · exact h.outside hpc nofun rfl rfl
    · exact h.outside hpc nofun rfl rfl
  | panic i =>
    rw [step] at hs
    split_ifs at hs with hpc
    cases hs
    exact h.outside hpc nofun rfl rfl
  | run i choice => exact inv_stepHandler h hs
  | loop => exact inv_stepLoop h hs
  | meet i =>
    obtain ⟨k, ok, c, ch, hl, hpc, rfl⟩ := stepMeet_eq_some hs
    exact h.meet hl hpc

theorem inv_of_reaches (h : node.Reaches Orderly s) : Inv s := by
  refine h.invariant ?_ fun _ _ _ _ hI hok hs => inv_step hI hok hs
  rintro s rfl
  exact inv_initial

end Mmfg.Node
