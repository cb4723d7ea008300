import Mmfg.Hub.Ownership

/-!
# Handoffs without failures

While no node disconnects and no expansion is refused, and handlers wait for the expansions they ask
for: a handler runs on a slot only while the slot is handed to its node and the connection is in
`Next`, and when `Next` returns nil the handler has finished and the connection's copy of the stripe
is what is in the header.
-/

namespace Mmfg.Hub

open Shm

variable {s t : State} {i j : ℕ}

/-! ## No refusals -/

/-- No expansion is turned down. -/
def NoRefusal (s : State) : Action → Prop
  | .exp e a => ∀ x ∈ s.exps e, ¬ x.Refuses s a
  | _ => True

instance (s : State) : (a : Action) → Decidable (NoRefusal s a)
  | .exp .. => inferInstanceAs (Decidable (∀ _ ∈ _, ¬ _))
  | .watch _ | .dial .. | .conn .. | .disp _ | .pop _ | .hand .. => .isTrue trivial

/-- No handler has been refused an expansion. -/
def NoneRefused (s : State) : Prop := ∀ k y, s.handlers k = some y → y.refused = false

theorem NoneRefused.update (h : NoneRefused s) {k : Handoff} {y : Handler}
    (ht : t.handlers = Function.update s.handlers k (some y)) (hy : y.refused = false) :
    NoneRefused t := by
  intro k' z hz
  rw [ht] at hz
  by_cases hk : k' = k
  · rw [hk, Function.update_self] at hz
    obtain rfl := Option.some.inj hz
    exact hy
  · rw [Function.update_of_ne hk] at hz
    exact h k' z hz

theorem NoneRefused.same (h : NoneRefused s) (ht : t.handlers = s.handlers) : NoneRefused t := by
  intro k y hy
  rw [ht] at hy
  exact h k y hy

theorem ConnStep.handlers_eq {c : Conn} {a : ConnAct} (h : ConnStep s i c a t) :
    t.handlers = s.handlers := by
  cases h <;> rfl

theorem DispStep.handlers_eq (h : DispStep s t) : t.handlers = s.handlers := by
  cases h <;> rfl

theorem noneRefused_step {a : Action} (h : NoneRefused s) (hT : Tokens s) (hdis : NoDisconnect s a)
    (hno : NoRefusal s a) (hs : hub.step s a = some t) : NoneRefused t := by
  cases a with
  | dial d name lang =>
    refine h.same ?_
    rw [stepDial_eq hs]
  | watch d => exact hdis.elim
  | conn i a => exact h.same (connStep_of_step hs).handlers_eq
  | disp e => exact h.same (dispStep_of_step hs).handlers_eq
  | exp e a =>
    obtain ⟨x, hx, hst⟩ := expStep_of_step hs
    have hrefuses := hno x hx
    cases hst with
    | refuse hpc ho =>
      simp only [Expander.Refuses, hpc] at hrefuses
      exact absurd ho hrefuses
    | fail hpc =>
      simp only [Expander.Refuses, hpc] at hrefuses
      exact absurd trivial hrefuses
    | _ => exact h.same rfl
  | pop d =>
    have hst := popStep_of_step hs
    cases hst with
    | process hq hm => exact h.update rfl rfl
    | @reply m q k hq hm hw =>
      obtain ⟨y, hy, -, -⟩ := hT.asks.wait d m.slot k hw
      refine h.update (k := k) (y := { y with
        pending := y.pending - 1, failed := y.failed || m.cmd = .expandError }) ?_ (h k y hy)
      rw [hy]
      rfl
    | drop hq hm => exact h.same rfl
  | hand k a =>
    obtain ⟨y, hy, hst⟩ := handStep_of_step hs
    have hr := h k y hy
    cases hst with
    | poke _ _ | setLen _ => exact h.same rfl
    | _ => exact h.update rfl hr

theorem NoneRefused.refusedStops {a : Action} (h : NoneRefused s) (hno : NoRefusal s a) :
    RefusedStops s a := by
  cases a with
  | exp e a => exact fun x hx hr => absurd hr (hno x hx)
  | hand k a =>
    intro y hy hr
    rw [h k y hy] at hr
    cases hr
  | _ => trivial

theorem NoneRefused.refusedIdle {a : Action} (h : NoneRefused s) : RefusedIdle s a := by
  cases a with
  | hand k a =>
    cases a with
    | poke _ _ | setLen _ | request => exact fun y hy => h k y hy
    | _ => trivial
  | _ => trivial

/-! ## Whose handler it is -/

/-- The last part of `Next`. -/
def ConnPC.served : ConnPC → Bool
  | .notify _ | .wait | .refresh | .returned => true
  | _ => false

/-- The handler of the current handoff is one of the node that the slot was handed to. -/
def State.Served (s : State) (i : ℕ) : Prop := (s.conns i).pc.served = true →
  ∀ y, s.handlers (i, (s.conns i).handoffs) = some y →
    (s.reg (s.conns i).slotID).owner = y.session.1

theorem State.Served.congr (h : s.Served i) (hc : t.conns i = s.conns i)
    (ho : (s.conns i).pc.served = true →
      (t.reg (s.conns i).slotID).owner = (s.reg (s.conns i).slotID).owner)
    (hh : ∀ k y, t.handlers (i, k) = some y → ∃ z, s.handlers (i, k) = some z ∧
      z.session = y.session) : t.Served i := by
  intro hpc y hy
  rw [hc] at hpc hy ⊢
  obtain ⟨z, hz, hsess⟩ := hh _ y hy
  rw [ho hpc, h hpc z hz, hsess]

/-- The owner of a slot is set before the handoff. -/
theorem State.Served.connStep {a : ConnAct} (h : ∀ i, s.Served i) (hT : Tokens s)
    (hs : ConnStep s j (s.conns j) a t) : t.Served i := by
  have hhand : t.handlers = s.handlers := hs.handlers_eq
  by_cases hij : i = j
  · subst hij
    intro hpc y hy
    rw [hhand] at hy
    -- the steps after which the connection is in the last part of `Next`
    have hkeep : ∀ c : Conn, t.conns = Function.update s.conns i c → t.reg = s.reg →
        c.slotID = (s.conns i).slotID → c.handoffs = (s.conns i).handoffs →
        (s.conns i).pc.served = true → (t.reg (t.conns i).slotID).owner = y.session.1 := by
      intro c hc hreg hslot hk hold
      have hself : t.conns i = c := by rw [hc, Function.update_self]
      rw [hself, hk] at hy
      rw [hself, hreg, hslot]
      exact h i hold y hy
    have hno : ∀ c : Conn, t.conns = Function.update s.conns i c → c.pc.served = false →
        (t.reg (t.conns i).slotID).owner = y.session.1 := by
      intro c hc hf
      rw [hc, Function.update_self, hf] at hpc
      cases hpc
    cases hs with
    | move hm =>
      cases hm with
      | refresh hp => exact hkeep _ rfl rfl rfl rfl (by rw [hp]; rfl)
      | undoEnd hp | write hp _ | next hp _ | freeEnd hp =>
        refine hno _ rfl ?_
        dsimp only
        split_ifs <;> rfl
      | _ => exact hno _ rfl rfl
    | poke hp hb =>
      rcases hp with hp | ⟨off, len, hp⟩ <;>
      · change (s.conns i).pc.served = true at hpc
        rw [hp] at hpc
        cases hpc
    | @allocEnd n needSlot held c hp hn hc =>
      refine hno c rfl ?_
      rw [hc]
      dsimp only
      split_ifs <;> rfl
    | @growEnd off len n held c hp hc =>
      refine hno c rfl ?_
      rw [hc]
      rfl
    | @setStatus u slot hp => exact hno _ rfl (by cases u <;> rfl)
    | @getDone u slot ch hp hch => exact hno _ rfl (by cases u <;> rfl)
    | @push d hp =>
      -- a handler of this handoff does not exist yet
      have hself : (Function.update s.conns i { s.conns i with pc := .notify d } i) =
          { s.conns i with pc := .notify d } := Function.update_self ..
      change s.handlers (i, (Function.update s.conns i _ i).handoffs) = some y at hy
      rw [hself] at hy
      exact absurd ((hT.hand _ y hy).2 d hp) (lt_irrefl _)
    | notify hp => exact hkeep _ rfl rfl rfl rfl (by rw [hp]; rfl)
    | recv hp _ _ => exact hkeep _ rfl rfl rfl rfl (by rw [hp]; rfl)
    | _ => exact hno _ rfl rfl
  · refine (h i).congr (hs.conns_of_ne hij) (fun hpc => ?_) fun k y hy => ⟨y, by rw [← hhand]; exact hy, rfl⟩
    have hwf := hT.slots.wf i
    have hheld : (s.conns i).heldSlot = some (s.conns i).slotID := by
      cases hp : (s.conns i).pc with
      | notify d | wait | refresh | returned =>
        simp only [Conn.WF, hp] at hwf
        simp only [Conn.heldSlot, hp]
        exact if_neg hwf.1
      | _ =>
        rw [hp] at hpc
        cases hpc
    -- a store to the entry of another slot, or one that keeps the owner
    have hset : ∀ slot e, (e.owner = (s.reg slot).owner ∨ (s.conns j).heldSlot = some slot) →
        (Function.update s.reg slot e (s.conns i).slotID).owner =
          (s.reg (s.conns i).slotID).owner := by
      intro slot e he
      by_cases hsl : (s.conns i).slotID = slot
      · rw [hsl, Function.update_self]
        rcases he with he | he
        · exact he
        · rw [← hsl] at he
          exact absurd (hT.slots.slot_inj i j _ hheld he) hij
      · rw [Function.update_of_ne hsl]
    cases hs with
    | pickSlot hp _ _ | setHeader hp | setStatus hp | freeSlot hp => exact hset _ _ (.inl rfl)
    | @setOwner u slot hp => exact hset _ _ (.inr (by simp only [Conn.heldSlot, hp]))
    | _ => rfl

theorem served_step {a : Action} (h : ∀ i, s.Served i) (hT : Tokens s) (hdis : NoDisconnect s a)
    (hlive : Live s a) (hs : hub.step s a = some t) : ∀ i, t.Served i := by
  intro i
  -- a step after which handlers and registry are as before
  have hsame : t.conns = s.conns → (∀ slot, (t.reg slot).owner = (s.reg slot).owner) →
      (∀ k y, t.handlers k = some y → ∃ z, s.handlers k = some z ∧ z.session = y.session) →
      t.Served i := by
    intro hc hr hh
    exact (h i).congr (by rw [hc]) (fun _ => hr _) fun k y hy => hh _ y hy
  have hrefl : t.handlers = s.handlers →
      ∀ k y, t.handlers k = some y → ∃ z, s.handlers k = some z ∧ z.session = y.session :=
    fun ht k y hy => ⟨y, by rw [← ht]; exact hy, rfl⟩
  have hupd : ∀ k y y', s.handlers k = some y →
      t.handlers = Function.update s.handlers k (some y') → y'.session = y.session →
      ∀ k y, t.handlers k = some y → ∃ z, s.handlers k = some z ∧ z.session = y.session := by
    intro k y y' hy ht hsess k' z hz
    rw [ht] at hz
    by_cases hk : k' = k
    · rw [hk, Function.update_self] at hz
      obtain rfl := Option.some.inj hz
      exact ⟨y, by rw [hk]; exact hy, hsess.symm⟩
    · rw [Function.update_of_ne hk] at hz
      exact ⟨z, hz, rfl⟩
  cases a with
  | dial d name lang =>
    have ht := stepDial_eq hs
    exact hsame (by rw [ht]) (fun _ => by rw [ht]) (hrefl (by rw [ht]))
  | watch d => exact hdis.elim
  | conn j a => exact State.Served.connStep h hT (connStep_of_step hs)
  | disp e =>
    have hst := dispStep_of_step hs
    cases hst <;> exact hsame rfl (fun _ => rfl) (hrefl rfl)
  | exp e a =>
    obtain ⟨x, hx, hst⟩ := expStep_of_step hs
    obtain ⟨y, hy, -⟩ := hT.asks.exp e x hx
    have hrefuse : (s.refuse x.tag).handlers =
        Function.update s.handlers x.tag (some { y with refused := true }) := by
      change Function.update s.handlers x.tag _ = _
      rw [hy]
      rfl
    cases hst with
    | refuse hpc ho => exact hsame rfl (fun _ => rfl) (hupd x.tag y _ hy hrefuse rfl)
    | fail hpc => exact hsame rfl (fun _ => rfl) (hupd x.tag y _ hy hrefuse rfl)
    | _ => exact hsame rfl (fun _ => rfl) (hrefl rfl)
  | pop d =>
    have hst := popStep_of_step hs
    cases hst with
    | @process m q hq hm =>
      obtain ⟨ha, hk⟩ := hlive m (by rw [hq]; rfl) hm
      have hmem : m ∈ s.reqQ d.1 := by
        rw [hq]
        exact List.mem_cons_self
      intro hpc y hy
      change Function.update s.handlers m.tag _ (i, (s.conns i).handoffs) = some y at hy
      by_cases hi : (i, (s.conns i).handoffs) = m.tag
      · rw [hi, Function.update_self] at hy
        cases hy
        obtain ⟨tok, hg⟩ := hT.good m.tag.1
        obtain ⟨rfl, -⟩ := hg.queued ha hmem (by simp [Msg.isRequest, hm, hk])
        obtain rfl : i = m.tag.1 := congrArg Prod.fst hi
        exact hg.ok.2.1.2
      · rw [Function.update_of_ne hi] at hy
        exact h i hpc y hy
    | @reply m q k hq hm hw =>
      obtain ⟨y, hy, -, -⟩ := hT.asks.wait d m.slot k hw
      refine hsame rfl (fun _ => rfl) (hupd k y { y with
        pending := y.pending - 1, failed := y.failed || m.cmd = .expandError } hy ?_ rfl)
      rw [hy]
      rfl
    | drop hq hm => exact hsame rfl (fun _ => rfl) (hrefl rfl)
  | hand k a =>
    obtain ⟨y, hy, hst⟩ := handStep_of_step hs
    cases hst with
    | poke _ _ | setLen _ => exact hsame rfl (fun _ => rfl) (hrefl rfl)
    | setDone hpc =>
      refine hsame rfl (fun slot => ?_) (hupd k y _ hy rfl rfl)
      change (Function.update s.reg y.slot _ slot).owner = _
      by_cases hsl : slot = y.slot
      · rw [hsl, Function.update_self]
      · rw [Function.update_of_ne hsl]
    | _ => exact hsame rfl (fun _ => rfl) (hupd k y _ hy rfl rfl)

/-! ## Safety -/

/-- No node disconnects, no expansion is refused, a handler waits for each expansion that it asks for,
and sequences fit into their header. -/
def FailureFree (s : State) (a : Action) : Prop :=
  NoDisconnect s a ∧ NoRefusal s a ∧ Waits s a ∧ SequencesFit s a

instance (s : State) (a : Action) : Decidable (FailureFree s a) :=
  inferInstanceAs (Decidable (_ ∧ _ ∧ _ ∧ _))

/-- What holds in runs without failures. -/
structure Safe (s : State) : Prop where
  owned : Owned false s
  isOpen : Open s
  refused : NoneRefused s
  served : ∀ i, s.Served i

theorem safe_of_failureFree (hr : hub.Reaches FailureFree s) : Safe s := by
  refine hr.invariant (fun s hs => ⟨owned_init hs, ?_, ?_, ?_⟩) fun s a t _ h hok hs => ?_
  · rw [show s = newHub s.mem from hs]
    exact open_newHub _
  · intro k y hy
    rw [show s = newHub s.mem from hs] at hy
    cases hy
  · intro i hpc
    rw [show s = newHub s.mem from hs] at hpc
    cases hpc
  · obtain ⟨hdis, hno, hwait, hfit⟩ := hok
    have hT := h.owned.tokens
    have hlive := h.isOpen.live hs
    exact ⟨h.owned.step hdis.noMatch hlive (h.refused.refusedStops hno) hwait h.refused.refusedIdle
      hfit (fun hl => by cases hl) hs, open_step h.isOpen hT hdis hs,
      noneRefused_step h.refused hT hdis hno hs, served_step h.served hT hdis hlive hs⟩

/-- The handler has not set the slot to `Done` yet. -/
def Handler.running (y : Handler) : Prop := y.pc ≠ .respond ∧ y.pc ≠ .finished

/-- Safety of handoffs without failures: ownership of slots and blocks, what a running handler can rely
on, and what `Next` returns with. -/
theorem handoff_safe (hr : hub.Reaches FailureFree s) :
    (∀ i j, (s.conns i).pc.isOpen = true → (s.conns j).pc.isOpen = true → i ≠ j →
      ((s.conns i).slotID ≠ 0 → (s.conns i).slotID ≠ (s.conns j).slotID) ∧
      (s.conns i).stripe.blocks.Disjoint (s.conns j).stripe.blocks ∧
      (s.stripeBlocks i).Disjoint (s.stripeBlocks j)) ∧
    (∀ k y, s.handlers k = some y → y.running →
      (s.reg y.slot).status = .busy ∧ (s.reg y.slot).owner = y.session.1 ∧
      (s.conns k.1).slotID = y.slot ∧ (s.conns k.1).pc.awaits = true ∧
      ∀ k' y', s.handlers k' = some y' → y'.running → y'.slot = y.slot → k' = k) ∧
    (∀ i, (s.conns i).pc = .returned →
      (∃ y, s.handlers (i, (s.conns i).handoffs) = some y ∧ y.pc = .finished ∧
        y.session.1 = (s.reg (s.conns i).slotID).owner) ∧
      ((s.conns i).stripe.dataLen, (s.conns i).stripe.blockCount, (s.conns i).stripe.sequence) =
        decodeHeader (s.mem (s.conns i).header) ∧
      (s.conns i).stripe.blocks = s.stripeBlocks i) := by
  obtain ⟨⟨hT, -, hown⟩, -, hrefused, hserved⟩ := safe_of_failureFree hr
  have hactive : ∀ k y, s.handlers k = some y → y.running → y.active = true := fun k y hy hrun => by
    simp [Handler.active, hrefused k y hy, hrun.2]
  refine ⟨fun i j hi hj hne => ⟨hT.slots.slotID_ne hi hj hne, ?_, hown.disjoint hi hj hne⟩,
    fun k y hy hrun => ?_, fun i hpc => ?_⟩
  · intro b hbi hbj
    exact hown.disjoint hi hj hne (hown.blocks_subset hi hbi) (hown.blocks_subset hj hbj)
  · have hact := hactive k y hy hrun
    obtain ⟨tok, hg⟩ := hT.good k.1
    obtain ⟨rfl, hk⟩ := hg.handling (k := k.2) hy hact
    obtain ⟨-, z, hz, hslot, hhanded⟩ := hg.ok
    rw [← hk] at hz
    obtain rfl := Option.some.inj (hy.symm.trans hz)
    obtain ⟨hbusy, howner⟩ := hhanded hrun.1
    rw [hslot]
    refine ⟨hbusy, howner, rfl, hg.awaits rfl, fun k' y' hy' hrun' hsl => ?_⟩
    exact hT.active_unique hy' hy (hactive k' y' hy' hrun') hact (hsl.trans hslot.symm)
  · obtain ⟨granted, taken, lost, -, hst, -⟩ := hown.conn i
    obtain ⟨tok, hg⟩ := hT.good i
    obtain rfl := hg.eq_none (by rw [hpc]; rfl)
    have hfin : s.Finished i := by
      have hquiet : s.QuietAt i (s.conns i).pc := hg.ok
      rw [hpc] at hquiet
      exact hquiet
    obtain ⟨y, hy, hfinished⟩ := hfin
    have hdec := hst.returned hpc
    refine ⟨⟨y, hy, hfinished, (hserved i (by rw [hpc]; rfl) y hy).symm⟩, hdec.symm, ?_⟩
    rw [State.stripeBlocks, hdec]
    exact (hst.resolve (by rw [hpc]; rfl)).symm

/-- `Next` returns after a handoff in which an expansion was granted. -/
theorem handoff_safe_granted : ∃ s, hub.Reaches FailureFree s ∧ (s.conns 0).pc = .returned ∧
    (s.conns 0).stripe.blocks = s.stripeBlocks 0 ∧ (s.stripeBlocks 0).length = 3 := by
  obtain ⟨s, hr, hp⟩ := System.exists_reaches_of_runWith hub FailureFree
    (List.flatten [[.dial (1, 0) 0 .go], requestRun 0 (-1, 256) 1 0, handoffRun, askRun 0,
      grantRun 0 [(-1, 257), (-1, 258)], returnRun.dropLast])
    (fun s => decide ((s.conns 0).pc = .returned ∧ (s.conns 0).stripe.blocks.length = 3))
    (s := newHub fun _ _ => 0) rfl (by decide +kernel)
  obtain ⟨hpc, hlen⟩ := of_decide_eq_true hp
  have hblocks := ((handoff_safe hr).2.2 0 hpc).2.2
  exact ⟨s, hr, hpc, hblocks, by rw [← hblocks]; exact hlen⟩

end Mmfg.Hub
