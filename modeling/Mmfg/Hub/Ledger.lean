import Mmfg.Hub.Asks

/-!
# Who owns a block

The ledger records for which connection each block was allocated.  The blocks of a connection are
those of its own copy of the stripe or those that it is about to add or free, those that were granted
to its node and are in the header only, those that an expansion has taken and not yet put into the
header, and those that have been lost: blocks that were granted and that the connection overwrote in
the header, or did not know of when it was closed.

`Own` says so for every connection, together with what header, goroutines and handlers have to do with
it; `Own true` that nothing was lost.
-/

namespace Mmfg.Hub

open Shm

/-! ## Conditions on steps -/

/-- A sequence that is written to a header has at most 2044 entries. -/
def SequencesFit (s : State) : Action → Prop
  | .conn i .run =>
    match (s.conns i).pc with
    | .alloc _ _ held => (allocStripe held).sequence.length ≤ HeaderEntries
    | .grow _ _ _ held => ((s.conns i).stripe.allocBlocks held).sequence.length ≤ HeaderEntries
    | _ => True
  | .exp e .run => ∀ x ∈ s.exps e,
    match x.pc with
    | .alloc _ m held => (m.append held).2.2.length ≤ HeaderEntries
    | _ => True
  | _ => True

/-- The connection's copy of the stripe has as many blocks as the header. -/
def State.UpToDate (s : State) (i : ℕ) : Prop :=
  (decodeHeader (s.mem (s.conns i).header)).2.1 = (s.conns i).stripe.blockCount

/-- A connection writes its header, and is closed, only with an up-to-date copy of the stripe. -/
def KeepsUp (s : State) : Action → Prop
  | .conn i .close => s.UpToDate i
  | .conn i .run =>
    match (s.conns i).pc with
    | .grow .. => s.UpToDate i
    | _ => True
  | _ => True

/-! ## The blocks of a connection -/

/-- The connection has a stripe. -/
def ConnPC.isOpen : ConnPC → Bool
  | .absent | .alloc .. | .undo _ false | .free _ | .dropWaiter | .putDone | .freeSlot | .dropDone
  | .closed => false
  | _ => true

/-- The blocks that a connection knows of. -/
def Conn.base (c : Conn) : List BlockId :=
  match c.pc with
  | .absent | .dropWaiter | .putDone | .freeSlot | .dropDone | .closed => []
  | .alloc _ _ held => held
  | .undo todo false | .free todo => todo
  | .undo todo true => c.stripe.blocks ++ todo
  | .grow _ _ _ held => c.stripe.blocks ++ held
  | _ => c.stripe.blocks

/-- Program points at which nothing is known but of the stripe. -/
def ConnPC.unmarked : ConnPC → Bool
  | .alloc 0 _ _ | .allocSlot .request | .returned => false
  | _ => true

/-- The registry has been told of the header for a handoff. -/
def ConnPC.handed : ConnPC → Bool
  | .setOwner (.handoff _) _ | .setStatus (.handoff _) _ | .clear _ | .store _ | .push _ | .notify _
  | .wait => true
  | _ => false

/-- The blocks recorded for connection `i` are `bs`, each once. -/
def State.Holds (s : State) (i : ℕ) (bs : List BlockId) : Prop :=
  bs.Nodup ∧ ∀ b, s.ledger b = some i ↔ b ∈ bs

/-- The bitmap has the control stripe and the blocks of the ledger. -/
structure Books (s : State) : Prop where
  used : ∀ b, s.used b = true ↔ controlBlock b = true ∨ s.ledger b ≠ none
  control : ∀ b, controlBlock b = true → s.ledger b = none
  blk : ∀ b i, s.ledger b = some i → Blk b

/-- Connection `i` with its blocks: `granted` are in the header only, `taken` with an expansion, and
`lost` nowhere. -/
structure Stock (s : State) (i : ℕ) (granted taken lost : List BlockId) : Prop where
  holds : s.Holds i ((s.conns i).base ++ granted ++ taken ++ lost)
  alloc : ∀ n needSlot held, (s.conns i).pc = .alloc n needSlot held → 1 ≤ n
  closed : (s.conns i).pc.isOpen = false → granted = []
  fresh : (s.conns i).pc = .allocSlot .request → granted = []
  nonempty : (s.conns i).pc.isOpen = true → (s.conns i).stripe.blocks ≠ []
  good : (s.conns i).pc.isOpen = true →
    Shm.Good ⟨(s.conns i).stripe, s.mem (s.conns i).header, granted⟩
  entry : (s.conns i).pc.handed = true →
    (s.reg (s.conns i).slotID).header = (s.conns i).header
  returned : (s.conns i).pc = .returned → decodeHeader (s.mem (s.conns i).header) =
    ((s.conns i).stripe.dataLen, (s.conns i).stripe.blockCount, (s.conns i).stripe.sequence)

/-! ## Goroutines and handlers -/

/-- The blocks that an expansion has taken and not put into the header. -/
def ExpPC.held : ExpPC → List BlockId
  | .alloc _ _ held => held
  | .undo todo => todo
  | _ => []

/-- What an expansion knows of the header block `hb`. -/
def ExpPC.Knows (mem : BlockId → Bytes) (hb : BlockId) : ExpPC → Prop
  | .decode b => b = hb
  | .check b m | .alloc b m _ | .rewrite b m => b = hb ∧ m = decodeHeader (mem hb)
  | _ => True

/-- What a handler knows of a stripe with header block `hb` and blocks `bs`. -/
structure Handler.Sees (y : Handler) (hb : BlockId) (bs : List BlockId) : Prop where
  header : y.header = hb
  blocks : y.blocks <+: bs
  nonempty : y.blocks ≠ []
  sequence : y.sequence = encode y.blocks

/-- The handler knows the header block, and sees the stripe once it has decoded it. -/
def Handler.Knows (y : Handler) (hb : BlockId) (bs : List BlockId) : Prop :=
  match y.pc with
  | .locate true | .running => y.Sees hb bs
  | .decode again b => b = hb ∧ (again = true → y.Sees hb bs)
  | .locate false | .setDone | .respond | .finished => True

/-- The expansions and handlers of connection `i`. -/
structure Workers (s : State) (i : ℕ) (granted taken : List BlockId) : Prop where
  knows : ∀ e x, s.exps e = some x → x.tag.1 = i → x.pc.Knows s.mem (s.conns i).header
  held : ∀ e x, s.exps e = some x → x.tag.1 = i → x.pc.held ≠ [] → taken = x.pc.held
  none : (∀ e x, s.exps e = some x → x.tag.1 = i → x.pc.held = []) → taken = []
  hand : ∀ k y, s.handlers (i, k) = some y → y.active = true →
    y.Knows (s.conns i).header ((s.conns i).stripe.blocks ++ granted)

/-- Every connection has its own blocks. -/
structure Own (lossless : Bool) (s : State) : Prop where
  books : Books s
  conn : ∀ i, ∃ granted taken lost, (lossless = true → lost = []) ∧ Stock s i granted taken lost ∧
    Workers s i granted taken

variable {s t : State} {i j : ℕ} {l : Bool} {granted taken lost : List BlockId}

/-! ## Changes of the ledger -/

theorem State.Holds.perm {bs bs' : List BlockId} (h : s.Holds i bs) (hp : bs'.Perm bs)
    (hl : ∀ b, t.ledger b = some i ↔ s.ledger b = some i) : t.Holds i bs' :=
  ⟨hp.nodup_iff.2 h.1, fun b => by rw [hl, h.2, hp.mem_iff]⟩

theorem State.Holds.ledger {bs : List BlockId} (h : s.Holds i bs) {b : BlockId} (hb : b ∈ bs) :
    s.ledger b = some i := (h.2 b).2 hb

theorem Books.not_used (h : Books s) {b : BlockId} (hb : s.used b = false) :
    controlBlock b = false ∧ s.ledger b = Option.none := by
  have hno : ¬ (controlBlock b = true ∨ s.ledger b ≠ Option.none) := by
    rw [← h.used, hb]
    exact Bool.false_ne_true
  push Not at hno
  exact ⟨Bool.not_eq_true _ ▸ hno.1, hno.2⟩

theorem Books.take (h : Books s) {batch : List BlockId} (hb : s.CanTake batch) :
    Books (s.take i batch) := by
  refine ⟨fun b => ?_, fun b hc => ?_, fun b j hj => ?_⟩
  · by_cases hm : b ∈ batch
    · simp [State.take, hm]
    · simp [State.take, hm, h.used b]
  · have hm : b ∉ batch := fun hm => by
      rw [(h.not_used (hb.2 b hm).2).1] at hc
      cases hc
    simp only [State.take, if_neg hm]
    exact h.control b hc
  · by_cases hm : b ∈ batch
    · exact (hb.2 b hm).1
    · simp only [State.take, if_neg hm] at hj
      exact h.blk b j hj

/-- Free blocks are recorded for the connection that takes them. -/
theorem Books.ledger_take (h : Books s) {batch : List BlockId} (hb : s.CanTake batch) :
    (∀ b, (s.take i batch).ledger b = some i ↔ s.ledger b = some i ∨ b ∈ batch) ∧
    ∀ j, j ≠ i → ∀ b, (s.take i batch).ledger b = some j ↔ s.ledger b = some j := by
  refine ⟨fun b => ?_, fun j hj b => ?_⟩
  · by_cases hm : b ∈ batch <;> simp [State.take, hm]
  · by_cases hm : b ∈ batch
    · simp [State.take, hm, Ne.symm hj, (h.not_used (hb.2 b hm).2).2]
    · simp [State.take, hm]

theorem Books.holds_take (h : Books s) {batch bs bs' : List BlockId} (hb : s.CanTake batch)
    (hs : s.Holds i bs) (hp : bs'.Perm (bs ++ batch))
    (ht : t.ledger = (s.take i batch).ledger) : t.Holds i bs' := by
  refine ⟨?_, fun b => ?_⟩
  · rw [hp.nodup_iff, List.nodup_append]
    refine ⟨hs.1, hb.1, ?_⟩
    rintro b hm _ hb' rfl
    have hnone := (h.not_used (hb.2 b hb').2).2
    rw [hs.ledger hm] at hnone
    cases hnone
  · rw [ht, (h.ledger_take hb).1, hs.2, hp.mem_iff, List.mem_append]

theorem Books.free (h : Books s) {b : BlockId} (hb : s.ledger b = some i) : Books (s.free b) := by
  have hc : controlBlock b = false := by
    by_contra hc
    rw [Bool.not_eq_false] at hc
    rw [h.control b hc] at hb
    cases hb
  refine ⟨fun b' => ?_, fun b' hb' => ?_, fun b' j hj => ?_⟩
  · by_cases he : b' = b
    · subst he
      simp [State.free, hc]
    · simp [State.free, Function.update_of_ne he, h.used b']
  · by_cases he : b' = b
    · subst he
      simp [State.free]
    · simp only [State.free, Function.update_of_ne he]
      exact h.control b' hb'
  · by_cases he : b' = b
    · subst he
      simp [State.free] at hj
    · simp only [State.free, Function.update_of_ne he] at hj
      exact h.blk b' j hj

theorem holds_free {b : BlockId} {bs bs' : List BlockId} (hs : s.Holds i bs)
    (hp : bs.Perm (b :: bs')) (ht : t.ledger = (s.free b).ledger) : t.Holds i bs' := by
  have hnd := List.nodup_cons.1 (hp.nodup_iff.1 hs.1)
  refine ⟨hnd.2, fun b' => ?_⟩
  rw [ht]
  by_cases he : b' = b
  · subst he
    simp [State.free, hnd.1]
  · simp [State.free, hs.2, hp.mem_iff, he]

theorem ledger_free {b : BlockId} (hb : s.ledger b = some i) :
    ∀ j, j ≠ i → ∀ b', (s.free b).ledger b' = some j ↔ s.ledger b' = some j := by
  intro j hj b'
  by_cases he : b' = b
  · subst he
    simp [State.free, hb, Ne.symm hj]
  · simp [State.free, Function.update_of_ne he]

/-! ## What is not changed by others -/

/-- The stripe of connection `j` is the same in both states. -/
structure Kept (s t : State) (j : ℕ) : Prop where
  conn : t.conns j = s.conns j
  ledger : ∀ b, t.ledger b = some j ↔ s.ledger b = some j
  mem : ∀ b, s.ledger b = some j → t.mem b = s.mem b
  entry : ∀ slot, (s.conns j).heldSlot = some slot → (t.reg slot).header = (s.reg slot).header

/-- What belongs to connection `j` is the same in both states. -/
structure Apart (s t : State) (j : ℕ) : Prop extends Kept s t j where
  exps : ∀ e x, x.tag.1 = j → (t.exps e = some x ↔ s.exps e = some x)
  handlers : ∀ k,
    (t.handlers (j, k)).filter Handler.active = (s.handlers (j, k)).filter Handler.active

theorem Conn.heldSlot_of_handed {c : Conn} (h : c.WF) (hh : c.pc.handed = true) :
    c.heldSlot = some c.slotID := by
  cases hpc : c.pc with
  | setOwner u slot | setStatus u slot =>
    cases u with
    | handoff d =>
      simp only [Conn.WF, hpc] at h
      simp only [Conn.heldSlot, hpc, h.1]
    | _ =>
      rw [hpc] at hh
      cases hh
  | clear d | store d | push d | notify d | wait =>
    simp only [Conn.WF, hpc] at h
    simp only [Conn.heldSlot, hpc]
    exact if_neg h.1
  | _ =>
    rw [hpc] at hh
    cases hh

/-- An open connection knows of the blocks of its stripe, and perhaps of more. -/
theorem Conn.base_of_open {c : Conn} (ho : c.pc.isOpen = true) :
    ∃ more, c.base = c.stripe.blocks ++ more := by
  cases hpc : c.pc with
  | undo todo isOpen =>
    cases isOpen with
    | true => exact ⟨todo, by simp only [Conn.base, hpc]⟩
    | false =>
      rw [hpc] at ho
      cases ho
  | grow off len n held => exact ⟨held, by simp only [Conn.base, hpc]⟩
  | absent | alloc _ _ _ | free _ | dropWaiter | putDone | freeSlot | dropDone | closed =>
    rw [hpc] at ho
    cases ho
  | _ => exact ⟨[], by simp only [Conn.base, hpc, List.append_nil]⟩

theorem Conn.header_mem {c : Conn} (h : c.stripe.blocks ≠ []) : c.header ∈ c.stripe.blocks := by
  obtain ⟨b, bs, hb⟩ := List.exists_cons_of_ne_nil h
  rw [Conn.header, hb]
  exact List.mem_cons_self

/-- The blocks of an open connection, in its copy and in the header, are recorded for it. -/
theorem Stock.ledger (h : Stock s i granted taken lost) (ho : (s.conns i).pc.isOpen = true)
    {b : BlockId} (hb : b ∈ (s.conns i).stripe.blocks ++ granted) : s.ledger b = some i := by
  obtain ⟨more, hbase⟩ := Conn.base_of_open ho
  refine h.holds.ledger ?_
  rcases List.mem_append.1 hb with hb | hb
  · simp [hbase, hb]
  · simp [hb]

/-- The blocks of an open connection, in its copy and in the header, are all different. -/
theorem Stock.nodup (h : Stock s i granted taken lost) (ho : (s.conns i).pc.isOpen = true) :
    ((s.conns i).stripe.blocks ++ granted).Nodup := by
  obtain ⟨more, hbase⟩ := Conn.base_of_open ho
  have hnd := h.holds.1
  rw [hbase] at hnd
  refine hnd.sublist ?_
  simp only [List.append_assoc]
  exact (List.Sublist.refl _).append
    ((List.sublist_append_left _ _).trans (List.sublist_append_right _ _))

theorem Stock.ledger_header (h : Stock s i granted taken lost)
    (ho : (s.conns i).pc.isOpen = true) : s.ledger (s.conns i).header = some i :=
  h.ledger ho (List.mem_append_left _ (Conn.header_mem (h.nonempty ho)))

theorem Kept.stock (hf : Kept s t j) (h : Stock s j granted taken lost)
    (hwf : (s.conns j).WF) : Stock t j granted taken lost := by
  have hmem : (s.conns j).pc.isOpen = true → t.mem (s.conns j).header = s.mem (s.conns j).header :=
    fun ho => hf.mem _ (h.ledger_header ho)
  refine ⟨?_, ?_, ?_, ?_, ?_, fun ho => ?_, fun hh => ?_, fun hr => ?_⟩
  · rw [hf.conn]
    exact h.holds.perm (.refl _) hf.ledger
  · rw [hf.conn]
    exact h.alloc
  · rw [hf.conn]
    exact h.closed
  · rw [hf.conn]
    exact h.fresh
  · rw [hf.conn]
    exact h.nonempty
  · rw [hf.conn] at ho ⊢
    rw [hmem ho]
    exact h.good ho
  · rw [hf.conn] at hh ⊢
    rw [hf.entry _ (Conn.heldSlot_of_handed hwf hh)]
    exact h.entry hh
  · rw [hf.conn] at hr ⊢
    rw [hmem (by rw [hr]; rfl)]
    exact h.returned hr

/-! ## Who works for a connection -/

/-- An expansion that has an effect on its connection belongs to its current handoff, whose call of
`Next` waits. -/
theorem Asking.live (h : Asking s) (hT : Tokens s) {e : ℕ} {x : Expander} (hx : s.exps e = some x)
    (hl : x.pc.live = true) :
    Good s x.tag.1 .handling ∧ x.tag.2 = (s.conns x.tag.1).handoffs ∧
      x.slot = (s.conns x.tag.1).slotID := by
  obtain ⟨y, hy, hact⟩ := h.active (asked_exp hx hl)
  obtain ⟨tok, hg⟩ := hT.good x.tag.1
  obtain ⟨rfl, hk⟩ := hg.handling (k := x.tag.2) hy hact
  obtain ⟨z, hz, hslot⟩ := hT.asks.exp e x hx
  obtain ⟨-, w, hw, hws, -⟩ := hg.ok
  rw [← hk] at hw
  obtain rfl := Option.some.inj (hz.symm.trans hw)
  exact ⟨hg, hk, hslot.symm.trans hws⟩

/-- No expansion and no handler works for the connection. -/
structure NoWork (s : State) (i : ℕ) : Prop where
  exp : ∀ e x, s.exps e = some x → x.tag.1 = i → x.pc = .gone
  hand : ∀ k y, s.handlers (i, k) = some y → y.active = false

theorem ExpPC.eq_gone {pc : ExpPC} (hl : pc.live = false) (hr : pc.refusing = false) :
    pc = .gone := by
  cases pc with
  | gone => rfl
  | respond ok =>
    cases ok with
    | true => cases hl
    | false => cases hr
  | header | decode | check | alloc | rewrite => cases hl
  | undo | load | send => cases hr

/-- Nobody works for a connection that waits for nothing. -/
theorem Asking.noWork (h : Asking s) (hT : Tokens s) (ha : (s.conns i).pc.awaits = false) :
    NoWork s i := by
  obtain ⟨tok, hg⟩ := hT.good i
  obtain rfl := hg.eq_none ha
  refine ⟨fun e x hx htag => ExpPC.eq_gone ?_ ?_, fun k y hy => ?_⟩
  · by_contra hl
    subst htag
    have haw := (h.live hT hx (Bool.not_eq_false _ ▸ hl)).1.awaits rfl
    rw [ha] at haw
    cases haw
  · by_contra hr
    subst htag
    have := hg.failing hx (Bool.not_eq_false _ ▸ hr)
    cases this
  · by_contra hact
    have := (hg.handling hy (Bool.not_eq_false _ ▸ hact)).1
    cases this

theorem NoWork.workers (h : NoWork s i) (granted : List BlockId) : Workers s i granted [] := by
  refine ⟨fun e x hx htag => ?_, fun e x hx htag hne => ?_, fun _ => rfl, fun k y hy hact => ?_⟩
  · rw [h.exp e x hx htag]
    trivial
  · rw [h.exp e x hx htag] at hne
    exact absurd rfl hne
  · rw [h.hand k y hy] at hact
    cases hact

theorem NoWork.taken_eq (h : NoWork s i) (hw : Workers s i granted taken) : taken = [] := by
  refine hw.none fun e x hx htag => ?_
  rw [h.exp e x hx htag]
  rfl

theorem NoWork.congr (h : NoWork s i) (he : ∀ e x, x.tag.1 = i → t.exps e = some x → s.exps e = some x)
    (hh : ∀ k, (t.handlers (i, k)).filter Handler.active =
      (s.handlers (i, k)).filter Handler.active) : NoWork t i := by
  refine ⟨fun e x hx htag => h.exp e x (he e x htag hx) htag, fun k y hy => ?_⟩
  by_contra hact
  rw [Bool.not_eq_false] at hact
  have hk := hh k
  rw [hy, Option.filter_some, if_pos hact, eq_comm, Option.filter_eq_some_iff] at hk
  rw [h.hand k y hk.1] at hact
  cases hact

theorem ConnPC.isOpen_of_awaits {pc : ConnPC} (h : pc.awaits = true) : pc.isOpen = true := by
  cases pc <;> first | rfl | cases h

theorem Apart.workers (hf : Apart s t j) (h : Stock s j granted taken lost)
    (hw : Workers s j granted taken) (hA : Asking s) (hT : Tokens s) : Workers t j granted taken := by
  cases ho : (s.conns j).pc.isOpen with
  | false =>
    have ha : (s.conns j).pc.awaits = false := by
      by_contra ha
      rw [ConnPC.isOpen_of_awaits (Bool.not_eq_false _ ▸ ha)] at ho
      cases ho
    have hno := hA.noWork hT ha
    rw [hno.taken_eq hw]
    exact (hno.congr (fun e x htag => (hf.exps e x htag).1) hf.handlers).workers _
  | true =>
    have hmem := hf.mem _ (h.ledger_header ho)
    refine ⟨fun e x hx htag => ?_, fun e x hx htag => ?_, fun hx => hw.none fun e x hex htag => ?_,
      fun k y hy hact => ?_⟩
    · rw [hf.conn]
      have hk := hw.knows e x ((hf.exps e x htag).1 hx) htag
      unfold ExpPC.Knows at hk ⊢
      rw [hmem]
      exact hk
    · exact hw.held e x ((hf.exps e x htag).1 hx) htag
    · exact hx e x ((hf.exps e x htag).2 hex) htag
    · rw [hf.conn]
      have hk := hf.handlers k
      rw [hy, Option.filter_some, if_pos hact, eq_comm, Option.filter_eq_some_iff] at hk
      exact hw.hand k y hk.1 hact

/-- A step that concerns connection `i` alone. -/
theorem Own.update (h : Own l s) (hT : Tokens s) (hA : Asking s) (hbooks : Books t)
    (hap : ∀ j, j ≠ i → Apart s t j)
    (hi : ∃ granted taken lost, (l = true → lost = []) ∧ Stock t i granted taken lost ∧
      Workers t i granted taken) : Own l t := by
  refine ⟨hbooks, fun j => ?_⟩
  by_cases hj : j = i
  · rw [hj]
    exact hi
  · obtain ⟨granted, taken, lost, hl, hst, hw⟩ := h.conn j
    have hf := hap j hj
    exact ⟨granted, taken, lost, hl, hf.toKept.stock hst (hT.slots.wf j), hf.workers hst hw hA hT⟩

/-! ## Steps of connections -/

section Conn

variable {c : Conn}

/-- A step of connection `i`, which writes to its own blocks and its own slot. -/
structure OnConn (s t : State) (i : ℕ) (c : Conn) : Prop where
  conns : t.conns = Function.update s.conns i c
  exps : t.exps = s.exps
  handlers : t.handlers = s.handlers
  ledger : ∀ j, j ≠ i → ∀ b, t.ledger b = some j ↔ s.ledger b = some j
  mem : ∀ b, s.ledger b ≠ some i → t.mem b = s.mem b
  entry : ∀ slot, (s.conns i).heldSlot ≠ some slot → (t.reg slot).header = (s.reg slot).header

theorem OnConn.self (h : OnConn s t i c) : t.conns i = c := by
  rw [h.conns, Function.update_self]

theorem OnConn.apart (h : OnConn s t i c) (hs : Slots s) : ∀ j, j ≠ i → Apart s t j := by
  intro j hj
  refine ⟨⟨by rw [h.conns, Function.update_of_ne hj], h.ledger j hj, fun b hb => h.mem b ?_,
    fun slot hsl => h.entry slot fun hi => hj (hs.slot_inj j i slot hsl hi)⟩, fun e x _ => ?_,
    fun k => ?_⟩
  · rw [hb]
    exact fun he => hj (Option.some.inj he)
  · rw [h.exps]
  · rw [h.handlers]

theorem Own.reset (h : Own l s) (hT : Tokens s) (hA : Asking s) (hs : OnConn s t i c)
    (ha : (s.conns i).pc.awaits = false) (hbooks : Books t)
    (hi : ∀ granted lost, (l = true → lost = []) → Stock s i granted [] lost →
      ∃ granted' lost', (l = true → lost' = []) ∧ Stock t i granted' [] lost') : Own l t := by
  refine h.update hT hA hbooks (hs.apart hT.slots) ?_
  obtain ⟨granted, taken, lost, hl, hst, hw⟩ := h.conn i
  have hno := hA.noWork hT ha
  rw [hno.taken_eq hw] at hst
  obtain ⟨granted', lost', hl', hst'⟩ := hi granted lost hl hst
  refine ⟨granted', [], lost', hl', hst', (hno.congr ?_ ?_).workers _⟩
  · rw [hs.exps]
    exact fun _ _ _ hx => hx
  · rw [hs.handlers]
    exact fun _ => rfl

/-- A step that leaves ledger, memory and stripe alone. -/
structure Idles (s t : State) (i : ℕ) (c : Conn) : Prop extends OnConn s t i c where
  used : t.used = s.used
  ledger_eq : t.ledger = s.ledger
  mem_eq : t.mem = s.mem
  stripe : c.stripe = (s.conns i).stripe
  base : c.base = (s.conns i).base
  isOpen : c.pc.isOpen = (s.conns i).pc.isOpen
  unmarked : c.pc.unmarked = true

theorem ConnPC.one_le_of_unmarked {pc : ConnPC} (h : pc.unmarked = true) {n : ℕ} {needSlot : Bool}
    {held : List BlockId} (hpc : pc = .alloc n needSlot held) : 1 ≤ n := by
  subst hpc
  cases n with
  | zero => cases h
  | succ n => exact Nat.succ_pos n

theorem ConnPC.ne_request_of_unmarked {pc : ConnPC} (h : pc.unmarked = true) :
    pc ≠ .allocSlot .request := by
  rintro rfl
  cases h

theorem ConnPC.ne_returned_of_unmarked {pc : ConnPC} (h : pc.unmarked = true) : pc ≠ .returned := by
  rintro rfl
  cases h

theorem Idles.header (h : Idles s t i c) : c.header = (s.conns i).header := by
  rw [Conn.header, h.stripe]
  rfl

theorem Books.congr (h : Books s) (hu : t.used = s.used) (hl : t.ledger = s.ledger) : Books t := by
  refine ⟨?_, ?_, ?_⟩
  · rw [hu, hl]
    exact h.used
  · rw [hl]
    exact h.control
  · rw [hl]
    exact h.blk

theorem Own.idle (h : Own l s) (hT : Tokens s) (hA : Asking s) (hs : Idles s t i c)
    (hentry : ∀ granted taken lost, Stock s i granted taken lost → c.pc.handed = true →
      (t.reg c.slotID).header = (s.conns i).header) : Own l t := by
  refine h.update hT hA (h.books.congr hs.used hs.ledger_eq) (hs.apart hT.slots) ?_
  obtain ⟨granted, taken, lost, hl, hst, hw⟩ := h.conn i
  refine ⟨granted, taken, lost, hl, ⟨?_, ?_, ?_, ?_, ?_, fun ho => ?_, fun hh => ?_, ?_⟩,
    ⟨fun e x hx htag => ?_, fun e x hx => ?_, fun hx => hw.none ?_, fun k y hy hact => ?_⟩⟩
  · rw [hs.self, hs.base]
    exact hst.holds.perm (.refl _) (by rw [hs.ledger_eq]; exact fun _ => Iff.rfl)
  · rw [hs.self]
    exact fun _ _ _ he => ConnPC.one_le_of_unmarked hs.unmarked he
  · rw [hs.self, hs.isOpen]
    exact hst.closed
  · rw [hs.self]
    exact fun he => absurd he (ConnPC.ne_request_of_unmarked hs.unmarked)
  · rw [hs.self, hs.isOpen, hs.stripe]
    exact hst.nonempty
  · rw [hs.self, hs.isOpen] at ho
    rw [hs.self, hs.header, hs.mem_eq, hs.stripe]
    exact hst.good ho
  · rw [hs.self] at hh ⊢
    rw [hs.header]
    exact hentry granted taken lost hst hh
  · rw [hs.self]
    exact fun he => absurd he (ConnPC.ne_returned_of_unmarked hs.unmarked)
  · rw [hs.self, hs.header, hs.mem_eq]
    rw [hs.exps] at hx
    exact hw.knows e x hx htag
  · rw [hs.exps] at hx
    exact hw.held e x hx
  · rw [← hs.exps]
    exact hx
  · rw [hs.handlers] at hy
    rw [hs.self, hs.header, hs.stripe]
    exact hw.hand k y hy hact

end Conn

end Mmfg.Hub
