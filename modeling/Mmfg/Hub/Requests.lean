import Mmfg.Hub.Next
import Mmfg.Hub.Ownership

/-!
# Who asks for an expansion

An entry of the response queue has a slot and a command, but not the node that pushed it.  The
dispatch loop takes the owner of the slot from the registry for the node that asks, and
`handleExpandRequest` then checks that this node owns the slot.  A request that comes late, when the
slot has another owner, is taken for a request of that owner (`AskedByOwner` fails).  And after the
check nothing keeps the slot with the node until the header is written (`Stays`).

`Traced` is the hub with the history of its requests: who pushed the entries, and for whom a
goroutine works.
-/

namespace Mmfg.Hub

open Shm

/-- The slot belongs to node `n`. -/
def State.Owns (s : State) (slot n : ℕ) : Prop :=
  (s.reg slot).owner = n ∧ (s.reg slot).status ≠ .idle

instance (s : State) (slot n : ℕ) : Decidable (s.Owns slot n) := inferInstanceAs (Decidable (_ ∧ _))

/-- The hub and the history of its requests, on which no step depends. -/
structure Traced where
  hub : State
  /-- the nodes that pushed the entries of the response queue -/
  pushers : List ℕ
  /-- the node that pushed the entry which the dispatch loop took last -/
  pusher : ℕ
  /-- the goroutines that have been started -/
  started : List ℕ
  /-- the nodes that pushed the requests which they handle -/
  asker : ℕ → ℕ

/-- The history after a step to `t`. -/
def Traced.record (s : Traced) (t : State) : Action → Traced
  | .hand h _ =>
    let node := (s.hub.handlers h).elim 0 fun x => x.session.1
    { s with
      hub := t
      pushers := if t.respQ = s.hub.respQ then s.pushers else s.pushers ++ [node] }
  | .disp e =>
    match s.hub.disp with
    | .idle => { s with hub := t, pushers := s.pushers.tail, pusher := s.pushers.headD 0 }
    | .owner _ _ =>
      { s with
        hub := t
        started := e :: s.started
        asker := Function.update s.asker e s.pusher }
    | .swap _ _ | .send _ _ => { s with hub := t }
  | .conn _ _ | .watch _ | .dial .. | .exp _ _ | .pop _ => { s with hub := t }

/-- The hub with the history of its requests. -/
def traced : System Traced Action where
  Init s := s.hub = newHub s.hub.mem ∧ s.pushers = []
  step s a := (step s.hub a).map fun t => s.record t a

/-! ## Conditions on steps -/

/-- The goroutine has read where the header is, and may still write it. -/
def ExpPC.located : ExpPC → Bool
  | .decode _ | .check .. | .alloc .. | .rewrite .. => true
  | .header | .undo _ | .respond _ | .load | .send _ | .gone => false

/-- The goroutine has passed its check, and may still mark blocks or write the header. -/
def ExpPC.granted : ExpPC → Bool
  | .alloc .. | .rewrite .. | .undo _ => true
  | .header | .decode _ | .check .. | .respond _ | .load | .send _ | .gone => false

/-- The goroutine has not come to its answer. -/
def ExpPC.works : ExpPC → Bool
  | .header | .decode _ | .check .. | .alloc .. | .rewrite .. | .undo _ => true
  | .respond _ | .load | .send _ | .gone => false

/-- No goroutine for the slot is at such a program point. -/
def Traced.NoneAt (s : Traced) (slot : ℕ) (p : ExpPC → Bool) : Prop :=
  ∀ e ∈ s.started, ∀ x ∈ s.hub.exps e, x.slot = slot → p x.pc = false

instance (s : Traced) (slot : ℕ) (p : ExpPC → Bool) : Decidable (s.NoneAt slot p) :=
  inferInstanceAs (Decidable (∀ e ∈ _, ∀ x ∈ _, _))

/-- When the dispatch loop takes the owner of the slot for the node that asks, it is that node, and the
slot has not been freed. -/
def AskedByOwner (s : Traced) : Action → Prop
  | .disp _ =>
    match s.hub.disp with
    | .owner slot _ => s.hub.Owns slot s.pusher
    | _ => True
  | _ => True

/-- The slot stays with the node while a goroutine works for it: `SetStripe` gives it no other header
once the goroutine has looked for the header, and no other owner once the goroutine has passed its
check; the slot is not freed. -/
def Stays (s : Traced) : Action → Prop
  | .conn i _ =>
    match (s.hub.conns i).pc with
    | .setHeader _ slot =>
      (s.hub.conns i).headerId = (s.hub.reg slot).header ∨ s.NoneAt slot ExpPC.located
    | .setOwner u slot => u.owner = (s.hub.reg slot).owner ∨ s.NoneAt slot ExpPC.granted
    | .freeSlot => s.NoneAt (s.hub.conns i).slotID ExpPC.works
    | _ => True
  | .watch d =>
    match (s.hub.sessions d).watch with
    | .freeSlot i => s.NoneAt i ExpPC.works
    | _ => True
  | _ => True

/-- Both conditions. -/
def KeepsOwner (s : Traced) (a : Action) : Prop := AskedByOwner s a ∧ Stays s a

variable {s s' : Traced} {t u : State} {e : ℕ} {x : Expander} {a : Action}

theorem Traced.record_hub : (s.record t a).hub = t := by
  cases a with
  | disp =>
    unfold Traced.record
    dsimp only
    split <;> rfl
  | hand | exp | conn | watch | dial | pop => rfl

/-- Every state of the hub is reached with its history. -/
theorem exists_traced (h : hub.Reachable t) : ∃ s, traced.Reachable s ∧ s.hub = t := by
  induction h with
  | @init t ht => exact ⟨⟨t, [], 0, [], fun _ => 0⟩, .init ⟨ht, rfl⟩, rfl⟩
  | @step t u a _ _ hs ih =>
    obtain ⟨s, hr, rfl⟩ := ih
    refine ⟨s.record u a, .step (a := a) hr trivial ?_, Traced.record_hub⟩
    exact Option.map_eq_some_iff.2 ⟨u, hs, rfl⟩

/-! ## What a goroutine relies on -/

/-- What a goroutine for node `n` relies on at a program point: the registry entry of its slot has not
been freed, has the header that the goroutine has read, and names the node since the check. -/
def ExpPC.Holds (pc : ExpPC) (r : Entry) (n : ℕ) : Prop :=
  match pc with
  | .header => r.status ≠ .idle
  | .decode b | .check b _ => r.header = b ∧ r.status ≠ .idle
  | .alloc b _ _ | .rewrite b _ => r.header = b ∧ r.owner = n ∧ r.status ≠ .idle
  | .undo _ => r.owner = n ∧ r.status ≠ .idle
  | .respond _ | .load | .send _ | .gone => True

section Holds

variable {pc : ExpPC} {r r' : Entry} {n : ℕ}

theorem ExpPC.Holds.of_not_works (h : pc.works = false) : pc.Holds r n := by
  cases pc <;> first | exact trivial | cases h

theorem ExpPC.Holds.setStatus {st : Status} (h : pc.Holds r n) (hst : st ≠ .idle) :
    pc.Holds { r with status := st } n := by
  cases pc with
  | header => exact hst
  | decode | check => exact ⟨h.1, hst⟩
  | alloc | rewrite => exact ⟨h.1, h.2.1, hst⟩
  | undo => exact ⟨h.1, hst⟩
  | respond | load | send | gone => trivial

theorem ExpPC.Holds.setHeader {b : BlockId} (h : pc.Holds r n)
    (hb : b = r.header ∨ pc.located = false) : pc.Holds { r with header := b } n := by
  rcases hb with rfl | hb
  · exact h
  · cases pc with
    | header | undo => exact h
    | decode | check | alloc | rewrite => cases hb
    | respond | load | send | gone => trivial

theorem ExpPC.Holds.setOwner {o : ℕ} (h : pc.Holds r n)
    (ho : o = r.owner ∨ pc.granted = false) : pc.Holds { r with owner := o } n := by
  rcases ho with rfl | ho
  · exact h
  · cases pc with
    | header | decode | check => exact h
    | alloc | rewrite | undo => cases ho
    | respond | load | send | gone => trivial

/-- A goroutine that may change something works for the owner. -/
theorem ExpPC.Holds.owns (h : pc.Holds r n) (hg : pc.granted = true) :
    r.owner = n ∧ r.status ≠ .idle := by
  cases pc with
  | alloc | rewrite => exact h.2
  | undo => exact h
  | header | decode | check | respond | load | send | gone => cases hg

theorem ExpPC.Holds.status (h : pc.Holds r n) (hw : pc.works = true) : r.status ≠ .idle := by
  cases pc with
  | header => exact h
  | decode | check | undo => exact h.2
  | alloc | rewrite => exact h.2.2
  | respond | load | send | gone => cases hw

theorem ExpPC.Holds.setReg {slot k : ℕ} (h : pc.Holds (t.reg k) n)
    (hr : k = slot → pc.Holds r n) : pc.Holds ((t.setReg slot r).reg k) n := by
  by_cases hk : k = slot
  · subst hk
    simp only [State.setReg, Function.update_self]
    exact hr rfl
  · simp only [State.setReg, Function.update_of_ne hk]
    exact h

end Holds

/-- Every goroutine works for the node that asked. -/
structure Attributed (s : Traced) : Prop where
  started : ∀ {e x}, s.hub.exps e = some x → e ∈ s.started
  node : ∀ {e x}, s.hub.exps e = some x → x.node = s.asker e
  holds : ∀ {e x}, s.hub.exps e = some x → x.pc.Holds (s.hub.reg x.slot) x.node

theorem Attributed.noneAt {slot : ℕ} {p : ExpPC → Bool} (h : Attributed s) (hn : s.NoneAt slot p)
    (hx : s.hub.exps e = some x) (hslot : x.slot = slot) : p x.pc = false :=
  hn e (h.started hx) x hx hslot

/-! ## Steps of others -/

theorem exps_of_conn {i : ℕ} {b : ConnAct} (h : stepConn t i b = some u) : u.exps = t.exps := by
  cases connStep_of_step h <;> rfl

theorem exps_of_hand {k : Handoff} {b : HandAct} (h : stepHandler t k b = some u) :
    u.exps = t.exps := by
  obtain ⟨x, -, hs⟩ := handStep_of_step h
  cases hs <;> rfl

theorem exps_of_pop {d : SessionId} (h : stepPop t d = some u) : u.exps = t.exps := by
  cases popStep_of_step h <;> rfl

theorem reg_of_pop {d : SessionId} (h : stepPop t d = some u) : u.reg = t.reg := by
  cases popStep_of_step h <;> rfl

theorem reg_of_dial {d : SessionId} {name : ℕ} {lang : Lang} (h : stepDial t d name lang = some u) :
    u.reg = t.reg := by
  unfold stepDial at h
  split_ifs at h
  obtain rfl := Option.some.inj h
  rfl

theorem Attributed.holds_conn {i : ℕ} {b : ConnAct} (h : Attributed s) (hok : Stays s (.conn i b))
    (ht : stepConn s.hub i b = some t) (hx : s.hub.exps e = some x) :
    x.pc.Holds (t.reg x.slot) x.node := by
  have hf := h.holds hx
  cases connStep_of_step ht with
  | pickSlot hpc _ hidle =>
    refine hf.setReg fun hslot => ?_
    rw [← hslot]
    exact hf.setStatus nofun
  | setHeader hpc =>
    simp only [Stays, hpc] at hok
    refine hf.setReg fun hslot => ?_
    rw [← hslot] at hok ⊢
    exact hf.setHeader (hok.imp id fun hn => h.noneAt hn hx rfl)
  | setOwner hpc =>
    simp only [Stays, hpc] at hok
    refine hf.setReg fun hslot => ?_
    rw [← hslot] at hok ⊢
    exact hf.setOwner (hok.imp id fun hn => h.noneAt hn hx rfl)
  | @setStatus u slot hpc =>
    refine hf.setReg fun hslot => ?_
    rw [← hslot]
    exact hf.setStatus (by cases u <;> exact nofun)
  | freeSlot hpc =>
    simp only [Stays, hpc] at hok
    exact hf.setReg fun hslot => .of_not_works (h.noneAt hok hx hslot)
  | _ => exact hf

theorem Attributed.holds_watch {d : SessionId} (h : Attributed s) (hok : Stays s (.watch d))
    (ht : stepWatch s.hub d = some t) (hx : s.hub.exps e = some x) :
    x.pc.Holds (t.reg x.slot) x.node := by
  have hf := h.holds hx
  simp only [Stays] at hok
  revert ht
  fun_cases stepWatch s.hub d
  all_goals intro ht
  all_goals cases ht
  all_goals try exact hf
  rename_i i hw
  rw [hw] at hok
  exact hf.setReg fun hslot => .of_not_works (h.noneAt hok hx hslot)

theorem Attributed.holds_hand {k : Handoff} {b : HandAct} (h : Attributed s)
    (ht : stepHandler s.hub k b = some t) (hx : s.hub.exps e = some x) :
    x.pc.Holds (t.reg x.slot) x.node := by
  have hf := h.holds hx
  obtain ⟨y, -, hs⟩ := handStep_of_step ht
  cases hs with
  | setDone =>
    refine hf.setReg fun hslot => ?_
    rw [← hslot]
    exact hf.setStatus nofun
  | _ => exact hf

theorem Attributed.other (h : Attributed s) (hexps : t.exps = s.hub.exps)
    (hreg : ∀ e x, s.hub.exps e = some x → x.pc.Holds (t.reg x.slot) x.node)
    (hstarted : (s.record t a).started = s.started) (hasker : (s.record t a).asker = s.asker) :
    Attributed (s.record t a) := by
  have hhub : (s.record t a).hub.exps = s.hub.exps := by rw [Traced.record_hub, hexps]
  refine ⟨fun hx => ?_, fun hx => ?_, fun hx => ?_⟩ <;> rw [hhub] at hx
  · rw [hstarted]
    exact h.started hx
  · rw [hasker]
    exact h.node hx
  · rw [Traced.record_hub]
    exact hreg _ _ hx

theorem Attributed.disp (h : Attributed s) (hok : AskedByOwner s (.disp e))
    (ht : stepDisp s.hub e = some t) : Attributed (s.record t (.disp e)) := by
  cases hd : s.hub.disp with
  | owner slot tag =>
    simp only [AskedByOwner, hd] at hok
    simp only [stepDisp, hd] at ht
    split_ifs at ht
    obtain rfl := Option.some.inj ht
    simp only [Traced.record, hd]
    refine ⟨fun {k x} hx => ?_, fun {k x} hx => ?_, fun {k x} hx => ?_⟩ <;>
      simp only [State.setExp] at hx ⊢ <;> by_cases hk : k = e
    · exact hk ▸ List.mem_cons_self
    · rw [Function.update_of_ne hk] at hx
      exact List.mem_cons_of_mem _ (h.started hx)
    · subst hk
      rw [Function.update_self] at hx ⊢
      obtain rfl := Option.some.inj hx
      exact hok.1
    · rw [Function.update_of_ne hk] at hx ⊢
      exact h.node hx
    · subst hk
      rw [Function.update_self] at hx
      obtain rfl := Option.some.inj hx
      exact hok.2
    · rw [Function.update_of_ne hk] at hx
      exact h.holds hx
  | idle | swap | send =>
    have hsame : t.exps = s.hub.exps ∧ t.reg = s.hub.reg := by
      cases dispStep_of_step ht with
      | spawn hd' => simp [hd] at hd'
      | _ => exact ⟨rfl, rfl⟩
    refine h.other hsame.1 (fun k x hx => ?_) ?_ ?_
    · rw [hsame.2]
      exact h.holds hx
    all_goals simp only [Traced.record, hd]

/-! ## Steps of a goroutine -/

theorem Attributed.setExp {x' : Expander} (h : Attributed s) (hx : s.hub.exps e = some x)
    (hexps : t.exps = Function.update s.hub.exps e (some x')) (hreg : t.reg = s.hub.reg)
    (hnode : x'.node = x.node) (hslot : x'.slot = x.slot)
    (hpc : x'.pc.Holds (s.hub.reg x.slot) x.node) : Attributed { s with hub := t } := by
  refine ⟨fun {k y} hy => ?_, fun {k y} hy => ?_, fun {k y} hy => ?_⟩ <;> dsimp only at hy ⊢ <;>
    rw [hexps] at hy <;> by_cases hk : k = e
  · exact hk ▸ h.started hx
  · rw [Function.update_of_ne hk] at hy
    exact h.started hy
  · subst hk
    rw [Function.update_self] at hy
    obtain rfl := Option.some.inj hy
    rw [hnode]
    exact h.node hx
  · rw [Function.update_of_ne hk] at hy
    exact h.node hy
  · subst hk
    rw [Function.update_self] at hy
    obtain rfl := Option.some.inj hy
    rw [hnode, hslot, hreg]
    exact hpc
  · rw [Function.update_of_ne hk] at hy
    rw [hreg]
    exact h.holds hy

theorem Attributed.exp {b : ExpAct} (h : Attributed s) (ht : stepExp s.hub e b = some t) :
    Attributed (s.record t (.exp e b)) := by
  obtain ⟨x, hx, hs⟩ := expStep_of_step ht
  have hf := h.holds hx
  cases hs with
  | header hpc =>
    rw [hpc] at hf
    exact h.setExp hx rfl rfl rfl rfl ⟨rfl, hf⟩
  | check hpc ho =>
    rw [hpc] at hf
    exact h.setExp hx rfl rfl rfl rfl ⟨hf.1, ho, hf.2⟩
  | fail hpc =>
    rw [hpc] at hf
    exact h.setExp hx rfl rfl rfl rfl hf.2
  | decode hpc | take hpc | commit hpc | undo hpc =>
    rw [hpc] at hf
    exact h.setExp hx rfl rfl rfl rfl hf
  | refuse | rewrite | undoEnd | ready | readyLost | error | errorLost | load | loadNil | send =>
    exact h.setExp hx rfl rfl rfl rfl trivial

theorem attributed_step (h : Attributed s) (hok : KeepsOwner s a) (hs : traced.step s a = some s') :
    Attributed s' := by
  obtain ⟨t, ht, rfl⟩ := Option.map_eq_some_iff.1 hs
  cases a with
  | disp e => exact h.disp hok.1 ht
  | exp e b => exact h.exp ht
  | conn i b => exact h.other (exps_of_conn ht) (fun _ _ hx => h.holds_conn hok.2 ht hx) rfl rfl
  | hand k b => exact h.other (exps_of_hand ht) (fun _ _ hx => h.holds_hand ht hx) rfl rfl
  | pop d =>
    refine h.other (exps_of_pop ht) (fun _ _ hx => ?_) rfl rfl
    rw [reg_of_pop ht]
    exact h.holds hx
  | watch d =>
    exact h.other (elsewhere_watch ht).exps (fun _ _ hx => h.holds_watch hok.2 ht hx) rfl rfl
  | dial d name lang =>
    refine h.other (elsewhere_dial ht).exps (fun _ _ hx => ?_) rfl rfl
    rw [reg_of_dial ht]
    exact h.holds hx

theorem attributed_of_reaches (hr : traced.Reaches KeepsOwner s) : Attributed s := by
  refine hr.invariant (fun s hs => ?_) fun s a s' _ h hok hs => attributed_step h hok hs
  have hnone (e : ℕ) : s.hub.exps e = none := by
    rw [hs.1]
    rfl
  refine ⟨fun {e x} hx => ?_, fun {e x} hx => ?_, fun {e x} hx => ?_⟩ <;>
    exact nomatch (hnone e).symm.trans hx

/-! ## Only the owner's stripe grows -/

/-- A step that marks or frees blocks, or writes memory. -/
theorem granted_of_changed {b : ExpAct} (hx : t.exps e = some x) (ht : stepExp t e b = some u)
    (hgrow : u.used ≠ t.used ∨ u.mem ≠ t.mem) : x.pc.granted = true := by
  obtain ⟨y, hy, hs⟩ := expStep_of_step ht
  obtain rfl : x = y := Option.some.inj (hx.symm.trans hy)
  cases hs with
  | take hpc | commit hpc | rewrite hpc | undo hpc =>
    rw [hpc]
    rfl
  | _ => exact absurd hgrow (by simp [State.setExp, State.refuse, State.pushReq, State.setChan])

/-- The memory that a goroutine writes is the header of its slot. -/
theorem Attributed.header_of_written {b : ExpAct} {c : BlockId} (h : Attributed s)
    (hx : s.hub.exps e = some x) (ht : stepExp s.hub e b = some t) (hc : t.mem c ≠ s.hub.mem c) :
    c = (s.hub.reg x.slot).header := by
  obtain ⟨y, hy, hs⟩ := expStep_of_step ht
  obtain rfl : x = y := Option.some.inj (hx.symm.trans hy)
  have hf := h.holds hx
  cases hs with
  | commit hpc | rewrite hpc =>
    rw [hpc] at hf
    by_contra hne
    exact hc (Function.update_of_ne (fun heq => hne (heq.trans hf.1.symm)) ..)
  | _ => exact absurd rfl hc

/-- A goroutine of the hub marks blocks and writes memory only while the node that pushed the request
owns the slot, and the memory that it writes is the header of that slot's stripe; to a node that does
not own the slot it sends the error, and changes nothing. -/
theorem only_owner_grows (hr : traced.Reaches KeepsOwner s) (hx : s.hub.exps e = some x) :
    (∀ b t, stepExp s.hub e b = some t → t.used ≠ s.hub.used ∨ t.mem ≠ s.hub.mem →
      s.hub.Owns x.slot (s.asker e)) ∧
    (∀ b t c, stepExp s.hub e b = some t → t.mem c ≠ s.hub.mem c →
      c = (s.hub.reg x.slot).header) ∧
    (∀ c m, x.pc = .check c m → ¬ s.hub.Owns x.slot (s.asker e) →
      ∃ t, stepExp s.hub e .run = some t ∧ t.used = s.hub.used ∧ t.mem = s.hub.mem ∧
        t.exps e = some { x with pc := .respond false }) ∧
    (∀ ok, x.pc = .respond ok → s.hub.Listed (s.asker e) →
      ∃ t, stepExp s.hub e .run = some t ∧ t.reqQ (s.asker e) =
        s.hub.reqQ (s.asker e) ++ [⟨x.slot, if ok then .expandReady else .expandError, x.tag⟩]) := by
  have h := attributed_of_reaches hr
  have hf := h.holds hx
  rw [← h.node hx]
  refine ⟨fun b t ht hgrow => hf.owns (granted_of_changed hx ht hgrow),
    fun b t c ht hc => h.header_of_written hx ht hc, fun c m hpc ho => ?_, fun ok hpc hl => ?_⟩
  · have hne : (s.hub.reg x.slot).owner ≠ x.node := fun heq =>
      ho ⟨heq, hf.status (by rw [hpc]; rfl)⟩
    refine ⟨(s.hub.refuse x.tag).setExp e { x with pc := .respond false }, ?_, rfl, rfl, ?_⟩
    · simp only [stepExp, hx, Option.bind_some, hpc]
      rw [if_neg hne]
    · simp only [State.setExp, Function.update_self]
  · refine ⟨(s.hub.pushReq x.node ⟨x.slot, if ok then .expandReady else .expandError, x.tag⟩).setExp e
      { x with pc := if ok then .gone else .load }, ?_, ?_⟩
    · simp only [stepExp, hx, Option.bind_some, hpc]
      rw [if_pos hl]
    · simp only [State.pushReq, State.setExp, Function.update_self]

instance (s : Traced) : (a : Action) → Decidable (AskedByOwner s a)
  | .disp _ => decidable_of_iff ((match s.hub.disp with
      | .owner slot _ => decide (s.hub.Owns slot s.pusher)
      | _ => true) = true) <| by
      cases hd : s.hub.disp <;> simp [AskedByOwner, hd]
  | .conn .. | .watch _ | .dial .. | .exp .. | .pop _ | .hand .. => .isTrue trivial

instance (s : Traced) : (a : Action) → Decidable (Stays s a)
  | .conn i _ => decidable_of_iff ((match (s.hub.conns i).pc with
      | .setHeader _ slot => decide ((s.hub.conns i).headerId = (s.hub.reg slot).header ∨
          s.NoneAt slot ExpPC.located)
      | .setOwner u slot =>
        decide (u.owner = (s.hub.reg slot).owner ∨ s.NoneAt slot ExpPC.granted)
      | .freeSlot => decide (s.NoneAt (s.hub.conns i).slotID ExpPC.works)
      | _ => true) = true) <| by
      cases hpc : (s.hub.conns i).pc <;> simp [Stays, hpc]
  | .watch d => decidable_of_iff ((match (s.hub.sessions d).watch with
      | .freeSlot i => decide (s.NoneAt i ExpPC.works)
      | _ => true) = true) <| by
      cases hw : (s.hub.sessions d).watch <;> simp [Stays, hw]
  | .disp _ | .dial .. | .exp .. | .pop _ | .hand .. => .isTrue trivial

instance (s : Traced) (a : Action) : Decidable (KeepsOwner s a) :=
  inferInstanceAs (Decidable (_ ∧ _))

/-- The hub at its start, without history. -/
def tracedHub : Traced := ⟨newHub fun _ _ => 0, [], 0, [], fun _ => 0⟩

/-- The handler of connection 0 asks for blocks, and the hub takes two. -/
theorem only_owner_grows_run : ∃ s t, traced.Reaches KeepsOwner s ∧
    stepExp s.hub 0 (.take [(-1, 257), (-1, 258)]) = some t ∧ t.used (-1, 257) = true ∧
    s.hub.used (-1, 257) = false ∧ s.asker 0 = 1 ∧ s.hub.Owns 1 1 := by
  obtain ⟨s, hr, hp⟩ := System.exists_reaches_of_runWith traced KeepsOwner
    (List.flatten [[.dial (1, 0) 0 .go], requestRun 0 (-1, 256) 1 0, handoffRun, askRun 0])
    (fun s => decide (s.asker 0 = 1 ∧ s.hub.used (-1, 257) = false ∧
      ((stepExp s.hub 0 (.take [(-1, 257), (-1, 258)])).map fun t => t.used (-1, 257)) =
        some true ∧ (s.hub.exps 0).map (·.slot) = some 1))
    (s := tracedHub) ⟨rfl, rfl⟩ (by decide +kernel)
  obtain ⟨hasker, hfree, hstep, hslot⟩ := of_decide_eq_true hp
  obtain ⟨x, hx, hx1⟩ := Option.map_eq_some_iff.1 hslot
  obtain ⟨t, ht, hused⟩ := Option.map_eq_some_iff.1 hstep
  refine ⟨s, t, hr, ht, hused, hfree, hasker, ?_⟩
  have howns := (only_owner_grows hr hx).1 _ t ht (.inl fun heq => by
    rw [heq, hfree] at hused
    cases hused)
  rwa [hx1, hasker] at howns

/-! ## A late request -/

/-- Goroutine `e` is at `x`, on behalf of node `n`. -/
structure Works (s : Traced) (e : ℕ) (x : Expander) (n : ℕ) (reg : ℕ → Entry) : Prop where
  exps : s.hub.exps e = some x
  asker : s.asker e = n
  reg : s.hub.reg = reg

variable {n : ℕ} {reg : ℕ → Entry}

theorem Works.goOn {x' : Expander} (h : Works s e x n reg)
    (hstep : stepExp s.hub e .run = some (s.hub.setExp e x')) :
    ∃ s', traced.step s (.exp e .run) = some s' ∧ Works s' e x' n reg :=
  ⟨_, Option.map_eq_some_iff.2 ⟨_, hstep, rfl⟩, Function.update_self .., h.asker, h.reg⟩

theorem Works.header (h : Works s e x n reg) (hpc : x.pc = .header) :
    ∃ b s', traced.step s (.exp e .run) = some s' ∧
      Works s' e { x with pc := .decode b } n reg :=
  ⟨(s.hub.reg x.slot).header, h.goOn (by simp only [stepExp, h.exps, Option.bind_some, hpc])⟩

theorem Works.decode {b : BlockId} (h : Works s e x n reg) (hpc : x.pc = .decode b) :
    ∃ m s', traced.step s (.exp e .run) = some s' ∧
      Works s' e { x with pc := .check b m } n reg :=
  ⟨decodeHeader (s.hub.mem b), h.goOn (by simp only [stepExp, h.exps, Option.bind_some, hpc])⟩

/-- The check is passed if the registry has the node that the dispatch loop took it for. -/
theorem Works.check {b : BlockId} {m : Meta} (h : Works s e x n reg) (hpc : x.pc = .check b m)
    (ho : (reg x.slot).owner = x.node) :
    ∃ s', traced.step s (.exp e .run) = some s' ∧ Works s' e { x with pc := .alloc b m [] } n reg := by
  refine h.goOn ?_
  simp only [stepExp, h.exps, Option.bind_some, hpc]
  rw [h.reg, if_pos ho]

/-- Whenever the dispatch loop takes another node for the one that asks, or the slot has been freed,
the goroutine passes its check and goes on to take blocks. -/
theorem stale_request_granted {slot : ℕ} {tag : Handoff} (hd : s.hub.disp = .owner slot tag)
    (he : s.hub.exps e = none) (hne : ¬ s.hub.Owns slot s.pusher) :
    ∃ s' b m, traced.run s [.disp e, .exp e .run, .exp e .run, .exp e .run] = some s' ∧
      ¬ s'.hub.Owns slot (s'.asker e) ∧
      s'.hub.exps e = some ⟨(s.hub.reg slot).owner, slot, tag, .alloc b m []⟩ := by
  obtain ⟨s₁, hs₁, h₁⟩ : ∃ s₁, traced.step s (.disp e) = some s₁ ∧
      Works s₁ e ⟨(s.hub.reg slot).owner, slot, tag, .header⟩ s.pusher s.hub.reg := by
    have hspawn : stepDisp s.hub e = some
        { s.hub.setExp e ⟨(s.hub.reg slot).owner, slot, tag, .header⟩ with disp := .idle } := by
      simp only [stepDisp, hd, he, if_true]
    have hrec (t : State) : s.record t (.disp e) = { s with
        hub := t
        started := e :: s.started
        asker := Function.update s.asker e s.pusher } := by
      simp only [Traced.record, hd]
    exact ⟨_, Option.map_eq_some_iff.2 ⟨_, hspawn, hrec _⟩, Function.update_self ..,
      Function.update_self .., rfl⟩
  obtain ⟨b, s₂, hs₂, h₂⟩ := h₁.header rfl
  obtain ⟨m, s₃, hs₃, h₃⟩ := h₂.decode rfl
  obtain ⟨s₄, hs₄, h₄⟩ := h₃.check rfl rfl
  refine ⟨s₄, b, m, ?_, ?_, h₄.exps⟩
  · simp only [System.run_cons, hs₁, hs₂, hs₃, hs₄, Option.bind_some, System.run_nil]
  · rw [State.Owns, h₄.reg, h₄.asker]
    exact hne

/-- The handoff of connection 0 to node 1 fails because an expansion is refused; its handler runs on.
The connection is closed, and connection 1 gets the slot and is handed to node 2.  Now the handler
asks again: the stripe of connection 1 grows, though node 1 does not own the slot. -/
theorem stale_handler_grows : ∃ s t, traced.Reachable s ∧ s.asker 1 = 1 ∧
    s.hub.reg 1 = ⟨(-1, 300), 2, .busy⟩ ∧ s.hub.used (-1, 257) = true ∧
    (decodeHeader (s.hub.mem (-1, 300))).2 = (1, [-1, 300]) ∧ stepExp s.hub 1 .run = some t ∧
    (decodeHeader (t.mem (-1, 300))).2 = (3, [-1, 300, 257, 258]) := by
  obtain ⟨s, hr, hp⟩ := System.exists_reachable_of_run traced
    (List.flatten [[.dial (1, 0) 0 .go, .dial (2, 0) 1 .go], requestRun 0 (-1, 256) 1 0, handoffRun,
      askRun 0, [.exp 0 .fail], List.replicate 4 (.exp 0 .run), [.conn 0 .run], closeRun 1,
      requestRun 1 (-1, 300) 1 1, [.conn 1 (.next 1)], List.replicate 8 (.conn 1 .run), askRun 1,
      [.exp 1 (.take [(-1, 257), (-1, 258)])]])
    (fun s => decide (s.asker 1 = 1 ∧
      s.hub.reg 1 = ⟨(-1, 300), 2, .busy⟩ ∧ s.hub.used (-1, 257) = true ∧
      (decodeHeader (s.hub.mem (-1, 300))).2 = (1, [-1, 300]) ∧
      ((stepExp s.hub 1 .run).map fun t => (decodeHeader (t.mem (-1, 300))).2) =
        some (3, [-1, 300, 257, 258])))
    (s := tracedHub) ⟨rfl, rfl⟩ (by decide +kernel)
  obtain ⟨hasker, hreg, hused, hbefore, hstep⟩ := of_decide_eq_true hp
  obtain ⟨t, ht, hafter⟩ := Option.map_eq_some_iff.1 hstep
  exact ⟨s, t, hr, hasker, hreg, hused, hbefore, ht, hafter⟩

end Mmfg.Hub
