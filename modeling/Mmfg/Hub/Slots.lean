import Mmfg.Hub.Cases

/-!
# Slots and channels

A connection holds its slot from the CAS of `AllocSlot` to the store of `FreeSlot`, and its channel
from `donePool.Get` to `donePool.Put`.  As long as `CleanupResources` frees nothing (`NoMatch`), no
two connections hold the same slot or the same channel, and a slot that is held is not idle.
-/

namespace Mmfg.Hub

open Shm

/-- `CleanupResources` finds no slot that belongs to its node: the test of the owner fails. -/
def NoMatch (s : State) : Action → Prop
  | .watch d =>
    match (s.sessions d).watch with
    | .owner i => (s.reg i).owner ≠ d.1
    | _ => True
  | _ => True

/-- The slot that a connection holds. -/
def Conn.heldSlot (c : Conn) : Option ℕ :=
  match c.pc with
  | .setHeader _ slot | .setOwner _ slot | .setStatus _ slot | .getDone _ slot => some slot
  | .dropDone | .closed => none
  | _ => if c.slotID = 0 then none else some c.slotID

/-- The channel that a connection holds. -/
def Conn.heldChan (c : Conn) : Option ℕ :=
  match c.pc with
  | .freeSlot | .dropDone | .closed => none
  | _ => c.done

/-- The connection has no slot yet. -/
def Conn.Unbound (c : Conn) : Prop := c.slotID = 0 ∧ c.done = none

/-- The connection has a slot and a channel. -/
def Conn.Bound (c : Conn) : Prop := c.slotID ≠ 0 ∧ c.done.isSome = true

/-- What the slot and channel fields are at each program point. -/
def Conn.WF (c : Conn) : Prop :=
  match c.pc with
  | .absent | .alloc .. | .undo _ false | .allocSlot .request | .allocSlot (.next _) => c.Unbound
  | .setHeader (.handoff _) slot | .setOwner (.handoff _) slot | .setStatus (.handoff _) slot =>
    slot = c.slotID ∧ c.Bound
  | .setHeader .request slot | .setOwner .request slot | .setStatus .request slot
  | .getDone .request slot | .setHeader (.next _) slot | .setOwner (.next _) slot
  | .setStatus (.next _) slot | .getDone (.next _) slot => slot ≠ 0 ∧ c.Unbound
  | .allocSlot (.handoff _) | .getDone (.handoff _) _ => False
  | .opened | .undo _ true | .grow .. | .copy .. | .free _ => c.Unbound ∨ c.Bound
  | .poll _ | .clear _ | .store _ | .push _ | .notify _ | .wait | .refresh | .returned
  | .dropWaiter | .putDone | .freeSlot | .dropDone => c.Bound
  | .closed => True

/-- The watchdog has found no slot to free. -/
def WatchPC.Quiet : WatchPC → Prop
  | .header _ | .decode .. | .free .. | .freeSlot _ => False
  | _ => True

/-- Slots and channels are held by one connection each. -/
structure Slots (s : State) : Prop where
  wf : ∀ i, (s.conns i).WF
  busy : ∀ i slot, (s.conns i).heldSlot = some slot → (s.reg slot).status ≠ .idle
  slot_inj : ∀ i j slot, (s.conns i).heldSlot = some slot → (s.conns j).heldSlot = some slot → i = j
  out : ∀ i ch, (s.conns i).heldChan = some ch → s.pool ch = false
  chan_inj : ∀ i j ch, (s.conns i).heldChan = some ch → (s.conns j).heldChan = some ch → i = j
  held : ∀ ch, s.pool ch = false → ∃ i, (s.conns i).heldChan = some ch
  watch : ∀ d, (s.sessions d).watch.Quiet

theorem slots_newHub (mem : BlockId → Bytes) : Slots (newHub mem) where
  wf _ := ⟨rfl, rfl⟩
  busy _ _ h := by cases h
  slot_inj _ _ _ h := by cases h
  out _ _ h := by cases h
  chan_inj _ _ _ h := by cases h
  held _ h := by cases h
  watch _ := trivial

theorem Move.wf {s : State} {i : ℕ} {c c' : Conn} (h : Move s i c c') (hc : c.WF) :
    c'.WF ∧ c'.heldSlot = c.heldSlot ∧ c'.heldChan = c.heldChan := by
  cases h with
  | request n needSlot hpc | allocFail hpc | slotFailRequest hpc | growFail hpc | copyEnd hpc
  | close hpc | refresh hpc =>
    simp only [Conn.WF, Conn.heldSlot, Conn.heldChan, hpc, and_true] at hc ⊢
    exact hc
  | slotFailNext hpc =>
    simp only [Conn.WF, Conn.heldSlot, Conn.heldChan, hpc, and_true] at hc ⊢
    exact .inl hc
  | pollFail hpc | pushFail hpc | returned hpc =>
    simp only [Conn.WF, Conn.heldSlot, Conn.heldChan, hpc, and_true] at hc ⊢
    exact .inr hc
  | dropDone hpc =>
    simp only [Conn.WF, Conn.heldSlot, Conn.heldChan, hpc, and_self]
  | poll hpc hs =>
    simp only [Conn.WF, Conn.heldSlot, Conn.heldChan, hpc, true_and, and_true] at hc ⊢
    exact ⟨hc, (if_neg hc.1).symm⟩
  | write hpc hn =>
    simp only [Conn.WF, Conn.heldSlot, Conn.heldChan, hpc] at hc ⊢
    split_ifs <;> exact ⟨hc, rfl, rfl⟩
  | @undoEnd isOpen hpc =>
    cases isOpen with
    | true =>
      simp only [Conn.WF, Conn.heldSlot, Conn.heldChan, hpc, if_true, and_true] at hc ⊢
      exact hc
    | false =>
      simp only [Conn.WF, Conn.heldSlot, Conn.heldChan, hpc] at hc ⊢
      exact ⟨trivial, (if_pos hc.1).symm, hc.2.symm⟩
  | next hpc hd =>
    simp only [Conn.WF, Conn.heldSlot, Conn.heldChan, hpc] at hc ⊢
    by_cases h0 : c.slotID = 0
    · have hu : c.Unbound := hc.resolve_right fun hb => hb.1 h0
      rw [if_pos h0]
      exact ⟨hu, rfl, rfl⟩
    · have hb : c.Bound := hc.resolve_left fun hu => h0 hu.1
      rw [if_neg h0]
      exact ⟨hb, rfl, rfl⟩
  | freeEnd hpc =>
    simp only [Conn.WF, Conn.heldSlot, Conn.heldChan, hpc] at hc ⊢
    by_cases h0 : c.slotID = 0
    · have hu : c.Unbound := hc.resolve_right fun hb => hb.1 h0
      rw [if_pos h0, if_pos h0]
      exact ⟨trivial, rfl, hu.2.symm⟩
    · have hb : c.Bound := hc.resolve_left fun hu => h0 hu.1
      rw [if_neg h0, if_neg h0]
      exact ⟨hb, rfl, rfl⟩

variable {s t : State}

/-- A step of connection `i`, with what the new slot and channel have to satisfy. -/
theorem Slots.update (h : Slots s) {i : ℕ} {c : Conn} (hc : t.conns = Function.update s.conns i c)
    (hsess : t.sessions = s.sessions) (hwf : c.WF)
    (hslot : ∀ slot, c.heldSlot = some slot →
      (t.reg slot).status ≠ .idle ∧ ∀ j, j ≠ i → (s.conns j).heldSlot ≠ some slot)
    (hreg : ∀ j slot, j ≠ i → (s.conns j).heldSlot = some slot → (t.reg slot).status ≠ .idle)
    (hchan : ∀ ch, c.heldChan = some ch →
      t.pool ch = false ∧ ∀ j, j ≠ i → (s.conns j).heldChan ≠ some ch)
    (hpool : ∀ j ch, j ≠ i → (s.conns j).heldChan = some ch → t.pool ch = false)
    (hheld : ∀ ch, t.pool ch = false →
      c.heldChan = some ch ∨ ∃ j, j ≠ i ∧ (s.conns j).heldChan = some ch) : Slots t := by
  have hself : t.conns i = c := by rw [hc, Function.update_self]
  have hother : ∀ j, j ≠ i → t.conns j = s.conns j := fun j hj => by
    rw [hc, Function.update_of_ne hj]
  refine ⟨fun j => ?_, fun j slot hj => ?_, fun j k slot hj hk => ?_, fun j ch hj => ?_,
    fun j k ch hj hk => ?_, fun ch hch => ?_, fun d => by rw [hsess]; exact h.watch d⟩
  · by_cases hji : j = i
    · rw [hji, hself]
      exact hwf
    · rw [hother j hji]
      exact h.wf j
  · by_cases hji : j = i
    · rw [hji, hself] at hj
      exact (hslot slot hj).1
    · rw [hother j hji] at hj
      exact hreg j slot hji hj
  · by_cases hji : j = i
    · by_cases hki : k = i
      · rw [hji, hki]
      · rw [hji, hself] at hj
        rw [hother k hki] at hk
        exact absurd hk ((hslot slot hj).2 k hki)
    · rw [hother j hji] at hj
      by_cases hki : k = i
      · rw [hki, hself] at hk
        exact absurd hj ((hslot slot hk).2 j hji)
      · rw [hother k hki] at hk
        exact h.slot_inj j k slot hj hk
  · by_cases hji : j = i
    · rw [hji, hself] at hj
      exact (hchan ch hj).1
    · rw [hother j hji] at hj
      exact hpool j ch hji hj
  · by_cases hji : j = i
    · by_cases hki : k = i
      · rw [hji, hki]
      · rw [hji, hself] at hj
        rw [hother k hki] at hk
        exact absurd hk ((hchan ch hj).2 k hki)
    · rw [hother j hji] at hj
      by_cases hki : k = i
      · rw [hki, hself] at hk
        exact absurd hj ((hchan ch hk).2 j hji)
      · rw [hother k hki] at hk
        exact h.chan_inj j k ch hj hk
  · rcases hheld ch hch with hc | ⟨j, hj, hc⟩
    · exact ⟨i, by rw [hself]; exact hc⟩
    · exact ⟨j, by rw [hother j hj]; exact hc⟩

theorem Slots.still_held (h : Slots s) {i ch : ℕ} {c : Conn}
    (hchan : c.heldChan = (s.conns i).heldChan) (hch : s.pool ch = false) :
    c.heldChan = some ch ∨ ∃ j, j ≠ i ∧ (s.conns j).heldChan = some ch := by
  obtain ⟨j, hj⟩ := h.held ch hch
  by_cases hji : j = i
  · subst hji
    exact .inl (hchan.trans hj)
  · exact .inr ⟨j, hji, hj⟩

/-- What a connection holds, nobody else does. -/
theorem Slots.slot_ne (h : Slots s) {i slot : ℕ} (hi : (s.conns i).heldSlot = some slot) :
    ∀ j, j ≠ i → (s.conns j).heldSlot ≠ some slot :=
  fun j hj hs => hj (h.slot_inj j i slot hs hi)

theorem Slots.chan_ne (h : Slots s) {i ch : ℕ} (hi : (s.conns i).heldChan = some ch) :
    ∀ j, j ≠ i → (s.conns j).heldChan ≠ some ch :=
  fun j hj hs => hj (h.chan_inj j i ch hs hi)

theorem Slots.keep (h : Slots s) {i : ℕ} {c : Conn} (hc : t.conns = Function.update s.conns i c)
    (hsess : t.sessions = s.sessions)
    (hreg : ∀ slot, (s.reg slot).status ≠ .idle → (t.reg slot).status ≠ .idle)
    (hpool : t.pool = s.pool) (hwf : c.WF)
    (hslot : c.heldSlot = (s.conns i).heldSlot) (hchan : c.heldChan = (s.conns i).heldChan) :
    Slots t := by
  refine h.update hc hsess hwf (fun slot hs => ?_) (fun j slot _ hj => hreg slot (h.busy j slot hj))
    (fun ch hs => ?_) (fun j ch _ hj => by rw [hpool]; exact h.out j ch hj)
    fun ch hch => h.still_held hchan (by rw [← hpool]; exact hch)
  · rw [hslot] at hs
    exact ⟨hreg slot (h.busy i slot hs), h.slot_ne hs⟩
  · rw [hchan] at hs
    exact ⟨by rw [hpool]; exact h.out i ch hs, h.chan_ne hs⟩

theorem Slots.other (h : Slots s) (hc : t.conns = s.conns)
    (hreg : ∀ slot, (s.reg slot).status ≠ .idle → (t.reg slot).status ≠ .idle)
    (hpool : t.pool = s.pool) (hwatch : ∀ d, (t.sessions d).watch.Quiet) : Slots t := by
  refine ⟨?_, fun j slot hj => hreg slot (h.busy j slot (by rwa [hc] at hj)), ?_, ?_, ?_, ?_, hwatch⟩
  · rw [hc]
    exact h.wf
  · rw [hc]
    exact h.slot_inj
  · rw [hc, hpool]
    exact h.out
  · rw [hc]
    exact h.chan_inj
  · rw [hc, hpool]
    exact h.held

/-- A store into the registry that does not make a slot idle. -/
theorem setReg_busy {slot : ℕ} {e : Entry} (hreg : t.reg = Function.update s.reg slot e)
    (he : (s.reg slot).status ≠ .idle → e.status ≠ .idle) :
    ∀ sl, (s.reg sl).status ≠ .idle → (t.reg sl).status ≠ .idle := by
  intro sl hsl
  rw [hreg]
  by_cases h : sl = slot
  · subst h
    rw [Function.update_self]
    exact he hsl
  · rw [Function.update_of_ne h]
    exact hsl

theorem Use.status_ne_idle (u : Use) : u.status ≠ .idle := by cases u <;> simp [Use.status]

/-- The stores of `SetStripe` keep the slot and the channel. -/
theorem Conn.wf_setOwner {c : Conn} {u : Use} {slot : ℕ} (hpc : c.pc = .setHeader u slot)
    (h : c.WF) : Conn.WF { c with pc := .setOwner u slot } := by
  cases u <;> simp only [Conn.WF, hpc] at h ⊢ <;> exact h

theorem Conn.wf_setStatus {c : Conn} {u : Use} {slot : ℕ} (hpc : c.pc = .setOwner u slot)
    (h : c.WF) : Conn.WF { c with pc := .setStatus u slot } := by
  cases u <;> simp only [Conn.WF, hpc] at h ⊢ <;> exact h

theorem Conn.wf_after {c : Conn} {u : Use} {slot : ℕ} (hpc : c.pc = .setStatus u slot)
    (h : c.WF) :
    Conn.WF { c with pc := u.after slot } ∧
      Conn.heldSlot { c with pc := u.after slot } = some slot ∧
      Conn.heldChan { c with pc := u.after slot } = c.done := by
  cases u with
  | request | next d =>
    simp only [Conn.WF, hpc] at h
    exact ⟨h, rfl, rfl⟩
  | handoff d =>
    simp only [Conn.WF, hpc] at h
    obtain ⟨rfl, hb⟩ := h
    exact ⟨hb, if_neg hb.1, rfl⟩

/-- The CAS of `AllocSlot`: the slot was idle, so nobody held it. -/
theorem Slots.pickSlot (h : Slots s) {i slot : ℕ} {u : Use} (hpc : (s.conns i).pc = .allocSlot u)
    (hpos : 1 ≤ slot) (hidle : (s.reg slot).status = .idle) :
    Slots ((s.setReg slot { s.reg slot with status := .busy }).setConn i
      { s.conns i with pc := .setHeader u slot }) := by
  have hwf := h.wf i
  have hbusy := setReg_busy (s := s) (t := s.setReg slot { s.reg slot with status := .busy }) rfl
    fun _ => Status.noConfusion
  refine h.update rfl rfl ?_ (fun sl hs => ?_) (fun j sl _ hj => hbusy sl (h.busy j sl hj))
    (fun ch hs => ?_) (fun j ch _ hj => h.out j ch hj)
    fun ch hch => h.still_held (by simp only [Conn.heldChan, hpc]) hch
  · cases u with
    | request | next d =>
      simp only [Conn.WF, hpc] at hwf ⊢
      exact ⟨by omega, hwf⟩
    | handoff d => simp only [Conn.WF, hpc] at hwf
  · obtain rfl : slot = sl := Option.some.inj hs
    refine ⟨?_, fun j _ hj => h.busy j slot hj hidle⟩
    change (Function.update s.reg slot _ slot).status ≠ _
    rw [Function.update_self]
    exact Status.noConfusion
  · have hch : (s.conns i).heldChan = some ch := by
      simp only [Conn.heldChan, hpc]
      exact hs
    exact ⟨h.out i ch hch, h.chan_ne hch⟩

/-- `donePool.Get`: a channel in the pool is held by nobody. -/
theorem Slots.getDone (h : Slots s) {i slot ch : ℕ} {u : Use} (hpc : (s.conns i).pc = .getDone u slot)
    (hch : s.pool ch = true) :
    Slots ({ s with pool := Function.update s.pool ch false }.setConn i
      { s.conns i with slotID := slot, done := some ch, pc := u.ready }) := by
  have hwf := h.wf i
  have hfree : ∀ j, (s.conns j).heldChan ≠ some ch := fun j hj => by
    rw [h.out j ch hj] at hch
    cases hch
  have hslot : (s.conns i).heldSlot = some slot := by simp only [Conn.heldSlot, hpc]
  have hpos : slot ≠ 0 := by
    cases u with
    | request | next d =>
      simp only [Conn.WF, hpc] at hwf
      exact hwf.1
    | handoff d => simp only [Conn.WF, hpc] at hwf
  have hnew : Conn.WF { s.conns i with slotID := slot, done := some ch, pc := u.ready } ∧
      Conn.heldSlot { s.conns i with slotID := slot, done := some ch, pc := u.ready } = some slot ∧
      Conn.heldChan { s.conns i with slotID := slot, done := some ch, pc := u.ready } = some ch := by
    cases u with
    | request => exact ⟨.inr ⟨hpos, rfl⟩, if_neg hpos, rfl⟩
    | next d | handoff d => exact ⟨⟨hpos, rfl⟩, if_neg hpos, rfl⟩
  refine h.update rfl rfl hnew.1 (fun sl hs => ?_) (fun j sl _ hj => h.busy j sl hj)
    (fun c hc => ?_) (fun j c _ hj => ?_) fun c hc => ?_
  · obtain rfl : slot = sl := Option.some.inj (hnew.2.1.symm.trans hs)
    exact ⟨h.busy i slot hslot, h.slot_ne hslot⟩
  · obtain rfl : ch = c := Option.some.inj (hnew.2.2.symm.trans hc)
    exact ⟨Function.update_self .., fun j _ => hfree j⟩
  · have hne : c ≠ ch := fun he => hfree j (he ▸ hj)
    change Function.update s.pool ch false c = false
    rw [Function.update_of_ne hne]
    exact h.out j c hj
  · by_cases he : c = ch
    · rw [he]
      exact .inl hnew.2.2
    · have hc : Function.update s.pool ch false c = false := hc
      rw [Function.update_of_ne he] at hc
      obtain ⟨j, hj⟩ := h.held c hc
      refine .inr ⟨j, fun hji => ?_, hj⟩
      have hdone : (s.conns i).done = none := by
        cases u with
        | request | next d =>
          simp only [Conn.WF, hpc] at hwf
          exact hwf.2.2
        | handoff d => simp only [Conn.WF, hpc] at hwf
      rw [hji] at hj
      simp only [Conn.heldChan, hpc, hdone] at hj
      cases hj

theorem Slots.putDone (h : Slots s) {i ch : ℕ} (hpc : (s.conns i).pc = .putDone)
    (hch : (s.conns i).done = some ch) :
    Slots ({ s with pool := Function.update s.pool ch true }.setConn i
      { s.conns i with pc := .freeSlot }) := by
  have hwf := h.wf i
  simp only [Conn.WF, hpc] at hwf
  have hheld : (s.conns i).heldChan = some ch := by simp only [Conn.heldChan, hpc, hch]
  have hslot : (s.conns i).heldSlot = some (s.conns i).slotID := by
    simp only [Conn.heldSlot, hpc]
    exact if_neg hwf.1
  refine h.update rfl rfl hwf (fun sl hs => ?_) (fun j sl _ hj => h.busy j sl hj)
    (fun c hc => by cases hc) (fun j c hj hc => ?_) fun c hc => ?_
  · have hs : some (s.conns i).slotID = some sl := (if_neg hwf.1).symm.trans hs
    rw [hs] at hslot
    exact ⟨h.busy i sl hslot, h.slot_ne hslot⟩
  · have hne : c ≠ ch := fun he => h.chan_ne hheld j hj (he ▸ hc)
    change Function.update s.pool ch true c = false
    rw [Function.update_of_ne hne]
    exact h.out j c hc
  · have hne : c ≠ ch := by
      rintro rfl
      have hc : Function.update s.pool c true c = false := hc
      rw [Function.update_self] at hc
      cases hc
    have hc : Function.update s.pool ch true c = false := hc
    rw [Function.update_of_ne hne] at hc
    obtain ⟨j, hj⟩ := h.held c hc
    refine .inr ⟨j, fun hji => hne ?_, hj⟩
    rw [hji] at hj
    exact Option.some.inj (hj.symm.trans hheld)

theorem Slots.freeSlot (h : Slots s) {i : ℕ} (hpc : (s.conns i).pc = .freeSlot) :
    Slots ((s.setReg (s.conns i).slotID { s.reg (s.conns i).slotID with status := .idle }).setConn i
      { s.conns i with pc := .dropDone }) := by
  have hwf := h.wf i
  simp only [Conn.WF, hpc] at hwf
  have hslot : (s.conns i).heldSlot = some (s.conns i).slotID := by
    simp only [Conn.heldSlot, hpc]
    exact if_neg hwf.1
  refine h.update rfl rfl hwf (fun sl hs => by cases hs) (fun j sl hj hs => ?_)
    (fun c hc => by cases hc) (fun j c _ hc => h.out j c hc)
    fun ch hch => h.still_held (by simp only [Conn.heldChan, hpc]) hch
  have hne : sl ≠ (s.conns i).slotID := fun he => h.slot_ne hslot j hj (he ▸ hs)
  change (Function.update s.reg _ _ sl).status ≠ _
  rw [Function.update_of_ne hne]
  exact h.busy j sl hs

theorem Slots.connStep (h : Slots s) {i : ℕ} {a : ConnAct} (hs : ConnStep s i (s.conns i) a t) :
    Slots t := by
  have hwf := h.wf i
  have hid : ∀ slot, (s.reg slot).status ≠ .idle → (s.reg slot).status ≠ .idle := fun _ => id
  cases hs with
  | move hm =>
    obtain ⟨hwf', hslot, hchan⟩ := hm.wf hwf
    exact h.keep rfl rfl hid rfl hwf' hslot hchan
  | pickSlot hpc hpos hidle => exact h.pickSlot hpc hpos hidle
  | getDone hpc hch => exact h.getDone hpc hch
  | putDone hpc hch => exact h.putDone hpc hch
  | freeSlot hpc => exact h.freeSlot hpc
  | setHeader hpc =>
    refine h.keep rfl rfl (setReg_busy rfl fun he => he) rfl (Conn.wf_setOwner hpc hwf) ?_ ?_
    · simp only [Conn.heldSlot, hpc]
    · simp only [Conn.heldChan, hpc]
  | setOwner hpc =>
    refine h.keep rfl rfl (setReg_busy rfl fun he => he) rfl (Conn.wf_setStatus hpc hwf) ?_ ?_
    · simp only [Conn.heldSlot, hpc]
    · simp only [Conn.heldChan, hpc]
  | @setStatus u slot hpc =>
    obtain ⟨hwf', hslot, hchan⟩ := Conn.wf_after hpc hwf
    refine h.keep rfl rfl (setReg_busy rfl fun _ => u.status_ne_idle) rfl hwf' ?_ ?_
    · rw [hslot]
      simp only [Conn.heldSlot, hpc]
    · rw [hchan]
      simp only [Conn.heldChan, hpc]
  | poke hpc hb => exact h.other rfl hid rfl h.watch
  | @allocEnd n needSlot held c' hpc hn hc =>
    subst hc
    simp only [Conn.WF, hpc] at hwf
    refine h.keep rfl rfl hid rfl ?_ ?_ ?_
    · cases needSlot with
      | true => exact hwf
      | false => exact .inl hwf
    · cases needSlot <;> simp only [Conn.heldSlot, hpc, if_true, Bool.false_eq_true, if_false]
    · cases needSlot <;> simp only [Conn.heldChan, hpc, if_true, Bool.false_eq_true, if_false]
  | growEnd hpc hc =>
    subst hc
    simp only [Conn.WF, hpc] at hwf
    refine h.keep rfl rfl hid rfl hwf ?_ ?_
    · simp only [Conn.heldSlot, hpc]
    · simp only [Conn.heldChan, hpc]
  | @undo b todo isOpen hpc =>
    refine h.keep rfl rfl hid rfl ?_ ?_ ?_
    · cases isOpen <;> simp only [Conn.WF, hpc] at hwf ⊢ <;> exact hwf
    · simp only [Conn.heldSlot, hpc]
    · simp only [Conn.heldChan, hpc]
  | notifyFail hpc hd =>
    simp only [Conn.WF, hpc] at hwf
    refine h.keep rfl rfl hid rfl (.inr hwf) ?_ ?_
    · simp only [Conn.heldSlot, hpc]
    · simp only [Conn.heldChan, hpc]
  | @recv ch r hpc hch hr =>
    simp only [Conn.WF, hpc] at hwf
    refine h.keep rfl rfl hid rfl ?_ ?_ ?_
    · cases r.ok with
      | true => exact hwf
      | false => exact .inr hwf
    · cases r.ok <;> simp only [Conn.heldSlot, hpc, if_true, Bool.false_eq_true, if_false]
    · cases r.ok <;> simp only [Conn.heldChan, hpc, if_true, Bool.false_eq_true, if_false]
  | allocTake hpc | growTake hpc | copyLen hpc | clear hpc | store hpc | push hpc | notify hpc
  | free hpc | dropWaiter hpc =>
    simp only [Conn.WF, hpc] at hwf
    refine h.keep rfl rfl hid rfl hwf ?_ ?_
    · simp only [Conn.heldSlot, hpc]
    · simp only [Conn.heldChan, hpc]

theorem Slots.dispStep (h : Slots s) (hs : DispStep s t) : Slots t := by
  cases hs <;> exact h.other rfl (fun _ => id) rfl h.watch

theorem Slots.expStep (h : Slots s) {e : ℕ} {x : Expander} {a : ExpAct} (hs : ExpStep s e x a t) :
    Slots t := by
  cases hs <;> exact h.other rfl (fun _ => id) rfl h.watch

theorem Slots.popStep (h : Slots s) {d : SessionId} (hs : PopStep s d t) : Slots t := by
  cases hs <;> exact h.other rfl (fun _ => id) rfl h.watch

theorem Slots.handStep (h : Slots s) {k : Handoff} {x : Handler} {a : HandAct}
    (hs : HandStep s k x a t) : Slots t := by
  cases hs with
  | setDone hpc => exact h.other rfl (setReg_busy rfl fun _ => Status.noConfusion) rfl h.watch
  | _ => exact h.other rfl (fun _ => id) rfl h.watch

theorem Slots.setWatch (h : Slots s) {d : SessionId} {x : Session} (hc : t.conns = s.conns)
    (hreg : t.reg = s.reg) (hpool : t.pool = s.pool)
    (hsess : t.sessions = Function.update s.sessions d x) (hx : x.watch.Quiet) : Slots t := by
  refine h.other hc (fun slot hsl => by rwa [hreg]) hpool fun d' => ?_
  rw [hsess]
  by_cases hd : d' = d
  · rw [hd, Function.update_self]
    exact hx
  · rw [Function.update_of_ne hd]
    exact h.watch d'

theorem Slots.stepWatch (h : Slots s) {d : SessionId} (hok : NoMatch s (.watch d))
    (hs : stepWatch s d = some t) : Slots t := by
  have hq := h.watch d
  simp only [NoMatch] at hok
  cases hw : (s.sessions d).watch with
  | absent | gone => simp [Hub.stepWatch, hw] at hs
  | header i | decode i b | free i l | freeSlot i =>
    rw [hw] at hq
    exact hq.elim
  | reading | freeID | delete | close =>
    simp only [Hub.stepWatch, hw, Option.some.injEq] at hs
    subst hs
    exact h.setWatch rfl rfl rfl rfl trivial
  | status i =>
    simp only [Hub.stepWatch, hw] at hs
    split_ifs at hs <;> cases hs <;> exact h.setWatch rfl rfl rfl rfl trivial
  | owner i =>
    simp only [Hub.stepWatch, hw] at hs
    rw [hw] at hok
    rw [if_neg hok] at hs
    cases hs
    exact h.setWatch rfl rfl rfl rfl trivial

/-- The table of sessions is all that a watchdog changes which frees nothing. -/
theorem Slots.stepWatch_eq (h : Slots s) {d : SessionId} (hok : NoMatch s (.watch d))
    (hs : Hub.stepWatch s d = some t) :
    t = { s with sessions := t.sessions, names := t.names, ids := t.ids } := by
  have hq := h.watch d
  simp only [NoMatch] at hok
  cases hw : (s.sessions d).watch with
  | absent | gone => simp [Hub.stepWatch, hw] at hs
  | header i | decode i b | free i l | freeSlot i =>
    rw [hw] at hq
    exact hq.elim
  | reading | freeID | delete | close =>
    simp only [Hub.stepWatch, hw, Option.some.injEq] at hs
    subst hs
    rfl
  | status i =>
    simp only [Hub.stepWatch, hw] at hs
    split_ifs at hs <;> cases hs <;> rfl
  | owner i =>
    simp only [Hub.stepWatch, hw] at hs
    rw [hw] at hok
    rw [if_neg hok] at hs
    cases hs
    rfl

theorem stepDial_eq {d : SessionId} {name : ℕ} {lang : Lang}
    (hs : Hub.stepDial s d name lang = some t) :
    t = { s with sessions := t.sessions, names := t.names, ids := t.ids } := by
  unfold Hub.stepDial at hs
  split_ifs at hs
  cases hs
  rfl

theorem Slots.stepDial (h : Slots s) {d : SessionId} {name : ℕ} {lang : Lang}
    (hs : stepDial s d name lang = some t) : Slots t := by
  simp only [Hub.stepDial] at hs
  split_ifs at hs
  cases hs
  exact h.setWatch rfl rfl rfl rfl trivial

end Mmfg.Hub
