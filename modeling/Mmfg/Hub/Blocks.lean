import Mmfg.Hub.Ledger

/-!
# Blocks under the steps of connections

A connection takes free blocks for its stripe, writes its own header, takes over what was granted to
its node when `Next` succeeds, and frees what it knows of when it is closed.
-/

namespace Mmfg.Hub

open Shm

variable {s t : State} {i : ℕ} {l : Bool} {c : Conn}

/-! ## Steps that leave the blocks alone -/

/-- Both states have the same stripes. -/
structure Aside (s u : State) : Prop where
  used : u.used = s.used
  ledger : u.ledger = s.ledger
  mem : u.mem = s.mem
  conns : u.conns = s.conns
  header : ∀ slot, (u.reg slot).header = (s.reg slot).header

theorem aside_refl (s : State) : Aside s s := ⟨rfl, rfl, rfl, rfl, fun _ => rfl⟩

theorem aside_setReg {slot : ℕ} {e : Entry} (he : e.header = (s.reg slot).header) :
    Aside s (s.setReg slot e) := by
  refine ⟨rfl, rfl, rfl, rfl, fun slot' => ?_⟩
  change (Function.update s.reg slot e slot').header = _
  by_cases h : slot' = slot
  · rw [h, Function.update_self, he]
  · rw [Function.update_of_ne h]

theorem Own.stay (h : Own l s) (hT : Tokens s) (hA : Asking s) {u : State} (hu : Aside s u)
    (hexps : u.exps = s.exps) (hhand : u.handlers = s.handlers)
    (hstripe : c.stripe = (s.conns i).stripe) (hbase : c.base = (s.conns i).base)
    (hopen : c.pc.isOpen = (s.conns i).pc.isOpen) (hpc : c.pc.unmarked = true)
    (hh : c.pc.handed = true → (s.conns i).pc.handed = true ∧ c.slotID = (s.conns i).slotID) :
    Own l (u.setConn i c) := by
  refine h.idle hT hA (i := i) (c := c) ⟨⟨?_, hexps, hhand, fun _ _ _ => ?_, fun _ _ => ?_,
    fun slot _ => hu.header slot⟩, hu.used, hu.ledger, hu.mem, hstripe, hbase, hopen, hpc⟩
    fun _ _ _ hst hc => ?_
  · change Function.update u.conns i c = _
    rw [hu.conns]
  · change u.ledger _ = _ ↔ _
    rw [hu.ledger]
  · change u.mem _ = _
    rw [hu.mem]
  · obtain ⟨hold, hslot⟩ := hh hc
    change (u.reg c.slotID).header = _
    rw [hu.header, hslot]
    exact hst.entry hold

/-- `Sequence[0], Sequence[1]` is the header block. -/
theorem Stock.headerId {granted taken lost : List BlockId} (h : Stock s i granted taken lost)
    (ho : (s.conns i).pc.isOpen = true) : (s.conns i).headerId = (s.conns i).header := by
  obtain ⟨b, bs, hb⟩ := List.exists_cons_of_ne_nil (h.nonempty ho)
  have hgood := h.good ho
  have hblk : Blk b := hgood.blk b (by simp [hb])
  rw [Conn.headerId, Conn.header, show (s.conns i).stripe.sequence = _ from hgood.sequence, hb,
    encode_cons hblk]
  rfl

/-! ## The end of a stripe -/

theorem onConn_setConn (s : State) (i : ℕ) (c : Conn) : OnConn s (s.setConn i c) i c :=
  ⟨rfl, rfl, rfl, fun _ _ _ => Iff.rfl, fun _ _ => rfl, fun _ _ => rfl⟩

/-- What the connection frees is its copy of the stripe. -/
theorem Stock.resolve {granted taken lost : List BlockId} (h : Stock s i granted taken lost)
    (ho : (s.conns i).pc.isOpen = true) :
    resolve 0 (s.conns i).stripe.sequence = (s.conns i).stripe.blocks := by
  have hgood := h.good ho
  rw [show (s.conns i).stripe.sequence = _ from hgood.sequence]
  exact resolve_encode fun b hb => hgood.blk b (List.mem_append_left _ hb)

/-- An up-to-date copy has all blocks that are in the header. -/
theorem Stock.granted_eq {granted taken lost : List BlockId} (h : Stock s i granted taken lost)
    (ho : (s.conns i).pc.isOpen = true) (hup : s.UpToDate i) : granted = [] := by
  have hgood := h.good ho
  have hcnt : (decodeHeader (s.mem (s.conns i).header)).2.1 =
      ((s.conns i).stripe.blocks ++ granted).length := congrArg Prod.fst hgood.header
  have hlen : (s.conns i).stripe.blockCount = (s.conns i).stripe.blocks.length := hgood.blockCount
  rw [show (decodeHeader _).2.1 = _ from hup, hlen, List.length_append] at hcnt
  exact List.length_eq_zero_iff.1 (by omega)

/-- The connection starts to free its stripe; what was granted and is not in its copy is lost. -/
theorem Own.drop (h : Own l s) (hT : Tokens s) (hA : Asking s) {pc : ConnPC}
    (ha : (s.conns i).pc.awaits = false) (ho : (s.conns i).pc.isOpen = true)
    (hbase : (s.conns i).base = (s.conns i).stripe.blocks) (hpc : pc.isOpen = false)
    (hbase' : Conn.base { s.conns i with pc := pc } = Shm.resolve 0 (s.conns i).stripe.sequence)
    (halloc : ∀ n needSlot held, pc ≠ .alloc n needSlot held)
    (hup : ∀ granted lost, Stock s i granted [] lost → l = true → granted = []) :
    Own l (s.setConn i { s.conns i with pc := pc }) := by
  refine h.reset hT hA (onConn_setConn s i _) ha (h.books.congr rfl rfl) fun granted lost hl hst => ?_
  have hself : (s.setConn i { s.conns i with pc := pc }).conns i = { s.conns i with pc := pc } :=
    Function.update_self ..
  refine ⟨[], granted ++ lost, fun hll => ?_, ?_⟩
  · rw [hup granted lost hst hll, hl hll]
    rfl
  · have hclosed : ∀ {p : Prop}, pc.isOpen = true → p := fun hx => by
      rw [hpc] at hx
      cases hx
    refine ⟨?_, ?_, fun _ => rfl, fun _ => rfl, ?_, ?_, ?_, ?_⟩
    · rw [hself, hbase', hst.resolve ho]
      refine hst.holds.perm ?_ fun _ => Iff.rfl
      rw [hbase]
      simp
    · rw [hself]
      exact fun n needSlot held he => absurd he (halloc n needSlot held)
    · rw [hself]
      exact hclosed
    · rw [hself]
      exact hclosed
    · rw [hself]
      intro hh
      refine hclosed ?_
      cases pc <;> first | rfl | cases hh
    · rw [hself]
      intro hr
      exact hclosed (by rw [show pc = _ from hr]; rfl)

theorem Conn.header_append {c' : Conn} {more : List BlockId} (hne : c.stripe.blocks ≠ [])
    (hb : c'.stripe.blocks = c.stripe.blocks ++ more) : c'.header = c.header := by
  obtain ⟨b, bs, hbs⟩ := List.exists_cons_of_ne_nil hne
  rw [Conn.header, Conn.header, hb, hbs]
  rfl

/-- `refreshStripe`: the connection takes over what was granted. -/
theorem Own.refresh (h : Own l s) (hT : Tokens s) (hA : Asking s) (hpc : (s.conns i).pc = .refresh) :
    Own l (s.setConn i { s.conns i with
      stripe := (s.conns i).stripe.refresh (s.mem (s.conns i).header), pc := .returned }) := by
  refine h.reset hT hA (onConn_setConn s i _) (by rw [hpc]; rfl) (h.books.congr rfl rfl)
    fun granted lost hl hst => ⟨[], lost, hl, ?_⟩
  have ho : (s.conns i).pc.isOpen = true := by
    rw [hpc]
    rfl
  have hgood := hst.good ho
  have hne := hst.nonempty ho
  have hblocks : ((s.conns i).stripe.refresh (s.mem (s.conns i).header)).blocks =
      (s.conns i).stripe.blocks ++ granted := hgood.refresh_eq.1
  have hheader : Conn.header { s.conns i with
      stripe := (s.conns i).stripe.refresh (s.mem (s.conns i).header), pc := .returned } =
      (s.conns i).header := Conn.header_append hne hblocks
  have hself : (s.setConn i { s.conns i with
      stripe := (s.conns i).stripe.refresh (s.mem (s.conns i).header), pc := .returned }).conns i =
      { s.conns i with
        stripe := (s.conns i).stripe.refresh (s.mem (s.conns i).header), pc := .returned } :=
    Function.update_self ..
  refine ⟨?_, ?_, fun _ => rfl, fun _ => rfl, fun _ => ?_, fun _ => ?_, ?_, fun _ => ?_⟩
  · rw [hself]
    refine hst.holds.perm ?_ fun _ => Iff.rfl
    simp only [Conn.base, hpc, hblocks]
    simp
  · rw [hself]
    exact fun n needSlot held he => by cases he
  · rw [hself, hblocks]
    exact fun he => hne (List.append_eq_nil_iff.1 he).1
  · rw [hself, hheader]
    exact hgood.refresh
  · rw [hself]
    exact fun hh => by cases hh
  · rw [hself, hheader]
    exact hgood.refresh_eq.2.symm

theorem Own.move (h : Own l s) (hT : Tokens s) (hA : Asking s)
    (hclose : l = true → (s.conns i).pc = .opened → c.pc.isOpen = false → s.UpToDate i)
    (hm : Move s i (s.conns i) c) : Own l (s.setConn i c) := by
  have hno : ∀ {p : Prop}, false = true → p := fun hf => by cases hf
  cases hm with
  | request n needSlot hpc | allocFail hpc | slotFailNext hpc | growFail hpc | copyEnd hpc
  | poll hpc hs | pollFail hpc | pushFail hpc hd | returned hpc | dropDone hpc =>
    exact h.stay hT hA (aside_refl s) rfl rfl rfl (by simp only [Conn.base, hpc]) (by rw [hpc]; rfl) rfl hno
  | @undoEnd isOpen hpc =>
    cases isOpen with
    | true =>
      exact h.stay hT hA (aside_refl s) rfl rfl rfl
        (by simp only [Conn.base, hpc, if_true, List.append_nil]) (by rw [hpc]; rfl) rfl hno
    | false =>
      exact h.stay hT hA (aside_refl s) rfl rfl rfl
        (by simp only [Conn.base, hpc, Bool.false_eq_true, if_false]) (by rw [hpc]; rfl) rfl hno
  | @write off len n hpc hn =>
    split_ifs with h0
    · exact h.stay hT hA (aside_refl s) rfl rfl rfl (by simp only [Conn.base, hpc]) (by rw [hpc]; rfl) rfl
        hno
    · exact h.stay hT hA (aside_refl s) rfl rfl rfl (by simp only [Conn.base, hpc, List.append_nil])
        (by rw [hpc]; rfl) rfl hno
  | next hpc hd =>
    split_ifs with h0
    · exact h.stay hT hA (aside_refl s) rfl rfl rfl (by simp only [Conn.base, hpc]) (by rw [hpc]; rfl) rfl
        hno
    · exact h.stay hT hA (aside_refl s) rfl rfl rfl (by simp only [Conn.base, hpc]) (by rw [hpc]; rfl) rfl
        hno
  | freeEnd hpc =>
    split_ifs with h0
    · exact h.stay hT hA (aside_refl s) rfl rfl rfl (by simp only [Conn.base, hpc]) (by rw [hpc]; rfl) rfl
        hno
    · exact h.stay hT hA (aside_refl s) rfl rfl rfl (by simp only [Conn.base, hpc]) (by rw [hpc]; rfl) rfl
        hno
  | slotFailRequest hpc =>
    refine h.drop hT hA (by rw [hpc]; rfl) (by rw [hpc]; rfl) (by simp only [Conn.base, hpc]) rfl rfl
      (fun _ _ _ => ConnPC.noConfusion) fun granted lost hst _ => hst.fresh hpc
  | refresh hpc => exact h.refresh hT hA hpc
  | close hpc =>
    have ho : (s.conns i).pc.isOpen = true := by
      rw [hpc]
      rfl
    refine h.drop hT hA (by rw [hpc]; rfl) ho (by simp only [Conn.base, hpc]) rfl rfl
      (fun _ _ _ => ConnPC.noConfusion) fun granted lost hst hl => ?_
    exact hst.granted_eq ho (hclose hl hpc rfl)

/-! ## Blocks that a connection takes and frees -/

theorem Own.rebase (h : Own l s) (hT : Tokens s) (hA : Asking s) {used : BlockId → Bool}
    {ledger : BlockId → Option ℕ} (hbooks : Books { s with used := used, ledger := ledger })
    (hledger : ∀ j, j ≠ i → ∀ b, ledger b = some j ↔ s.ledger b = some j)
    (hholds : ∀ rest, s.Holds i ((s.conns i).base ++ rest) →
      State.Holds { s with used := used, ledger := ledger } i (c.base ++ rest))
    (ha : (s.conns i).pc.awaits = false) (hstripe : c.stripe = (s.conns i).stripe)
    (hopen : c.pc.isOpen = (s.conns i).pc.isOpen)
    (hpc : (∀ n needSlot held, (s.conns i).pc = .alloc n needSlot held → 1 ≤ n) →
      c.pc.unmarked = true)
    (hh : c.pc.handed = false) :
    Own l ({ s with used := used, ledger := ledger }.setConn i c) := by
  have hs : OnConn s ({ s with used := used, ledger := ledger }.setConn i c) i c :=
    ⟨rfl, rfl, rfl, hledger, fun _ _ => rfl, fun _ _ => rfl⟩
  refine h.reset hT hA hs ha (hbooks.congr rfl rfl) fun granted lost hl hst => ⟨granted, lost, hl, ?_⟩
  have hheader : c.header = (s.conns i).header := by
    rw [Conn.header, hstripe]
    rfl
  have hun := hpc hst.alloc
  refine ⟨?_, ?_, ?_, ?_, ?_, fun ho => ?_, ?_, ?_⟩
  · rw [hs.self]
    have hall := hholds (granted ++ [] ++ lost) (by simpa only [List.append_assoc] using hst.holds)
    refine hall.perm ?_ fun _ => Iff.rfl
    simp only [List.append_assoc, List.Perm.refl]
  · rw [hs.self]
    exact fun _ _ _ he => ConnPC.one_le_of_unmarked hun he
  · rw [hs.self, hopen]
    exact hst.closed
  · rw [hs.self]
    exact fun he => absurd he (ConnPC.ne_request_of_unmarked hun)
  · rw [hs.self, hopen, hstripe]
    exact hst.nonempty
  · rw [hs.self, hopen] at ho
    rw [hs.self, hheader, hstripe]
    exact hst.good ho
  · rw [hs.self, hh]
    exact fun hf => by cases hf
  · rw [hs.self]
    exact fun he => absurd he (ConnPC.ne_returned_of_unmarked hun)

theorem Own.takes (h : Own l s) (hT : Tokens s) (hA : Asking s) {batch : List BlockId}
    (hb : s.CanTake batch) (hbase : c.base = (s.conns i).base ++ batch)
    (ha : (s.conns i).pc.awaits = false) (hstripe : c.stripe = (s.conns i).stripe)
    (hopen : c.pc.isOpen = (s.conns i).pc.isOpen)
    (hpc : (∀ n needSlot held, (s.conns i).pc = .alloc n needSlot held → 1 ≤ n) →
      c.pc.unmarked = true)
    (hh : c.pc.handed = false) : Own l ((s.take i batch).setConn i c) := by
  refine h.rebase hT hA (h.books.take hb) (h.books.ledger_take hb).2 (fun rest hr => ?_) ha hstripe
    hopen hpc hh
  refine h.books.holds_take hb hr ?_ rfl
  rw [hbase, List.append_assoc, List.append_assoc]
  exact List.Perm.append_left _ List.perm_append_comm

theorem Own.frees (h : Own l s) (hT : Tokens s) (hA : Asking s) {b : BlockId}
    (hbase : (s.conns i).base.Perm (b :: c.base))
    (ha : (s.conns i).pc.awaits = false) (hstripe : c.stripe = (s.conns i).stripe)
    (hopen : c.pc.isOpen = (s.conns i).pc.isOpen) (hpc : c.pc.unmarked = true)
    (hh : c.pc.handed = false) : Own l ((s.free b).setConn i c) := by
  obtain ⟨granted, taken, lost, -, hst, -⟩ := h.conn i
  have hb : s.ledger b = some i := by
    refine hst.holds.ledger ?_
    simp only [List.append_assoc]
    exact List.mem_append_left _ (hbase.mem_iff.2 List.mem_cons_self)
  refine h.rebase hT hA (h.books.free hb) (ledger_free hb) (fun rest hr => ?_) ha hstripe hopen
    (fun _ => hpc) hh
  exact holds_free hr (hbase.append_right rest) rfl

/-! ## Writes of the connection to its own blocks -/

theorem Own.writeHeader (h : Own l s) (hT : Tokens s) (hA : Asking s) {bytes : Bytes}
    (ha : (s.conns i).pc.awaits = false) (hown : s.ledger c.header = some i)
    (hopen : c.pc.isOpen = true) (hret : c.pc ≠ .returned) (hh : c.pc.handed = false)
    (hi : ∀ granted lost, (l = true → lost = []) → Stock s i granted [] lost →
      ∃ granted' lost', (l = true → lost' = []) ∧
        (c.base ++ granted' ++ lost').Perm ((s.conns i).base ++ granted ++ lost) ∧
        (c.pc = .allocSlot .request → granted' = []) ∧ c.stripe.blocks ≠ [] ∧
        Shm.Good ⟨c.stripe, bytes, granted'⟩) :
    Own l ((s.setMem c.header bytes).setConn i c) := by
  have hs : OnConn s ((s.setMem c.header bytes).setConn i c) i c := by
    refine ⟨rfl, rfl, rfl, fun _ _ _ => Iff.rfl, fun b hb => ?_, fun _ _ => rfl⟩
    refine Function.update_of_ne ?_ _ _
    rintro rfl
    exact hb hown
  refine h.reset hT hA hs ha (h.books.congr rfl rfl) fun granted lost hl hst => ?_
  obtain ⟨granted', lost', hl', hperm, hfresh, hne, hgood⟩ := hi granted lost hl hst
  refine ⟨granted', lost', hl', ?_, ?_, ?_, ?_, ?_, fun _ => ?_, ?_, ?_⟩
  · rw [hs.self]
    refine hst.holds.perm ?_ fun _ => Iff.rfl
    simpa only [List.append_nil] using hperm
  · rw [hs.self]
    intro n needSlot held he
    rw [he] at hopen
    cases hopen
  · rw [hs.self, hopen]
    exact fun hf => by cases hf
  · rw [hs.self]
    exact hfresh
  · rw [hs.self]
    exact fun _ => hne
  · rw [hs.self]
    change Shm.Good ⟨c.stripe, Function.update s.mem c.header bytes c.header, granted'⟩
    rw [Function.update_self]
    exact hgood
  · rw [hs.self, hh]
    exact fun hf => by cases hf
  · rw [hs.self]
    exact fun he => absurd he hret

theorem fits_of_length {blocks : List BlockId} (h : (encode blocks).length ≤ HeaderEntries) :
    Fits blocks := by
  rw [Shm.length_encode] at h
  exact h

theorem Own.allocEnd (h : Own l s) (hT : Tokens s) (hA : Asking s) {n : ℕ} {needSlot : Bool}
    {held : List BlockId} (hpc : (s.conns i).pc = .alloc n needSlot held) (hn : held.length = n)
    (hfit : (encode held).length ≤ HeaderEntries)
    (hc : c = { s.conns i with
      stripe := allocStripe held
      pc := if needSlot then .allocSlot .request else .opened }) :
    Own l ((s.setMem c.header (c.stripe.updateHeader (s.mem c.header))).setConn i c) := by
  obtain ⟨granted, taken, lost, -, hst, -⟩ := h.conn i
  have hbase : (s.conns i).base = held := by simp only [Conn.base, hpc]
  have hheld : ∀ b ∈ held, s.ledger b = some i := fun b hb => hst.holds.ledger (by simp [hbase, hb])
  have hne : held ≠ [] := by
    have := hst.alloc n needSlot held hpc
    rintro rfl
    rw [← hn, List.length_nil] at this
    omega
  have hblocks : c.stripe.blocks = held := by
    rw [hc]
    rfl
  have hmem : c.header ∈ held := hblocks ▸ Conn.header_mem (hblocks ▸ hne)
  have hpc' : c.pc = .allocSlot .request ∨ c.pc = .opened := by
    rw [hc]
    cases needSlot with
    | true => exact .inl rfl
    | false => exact .inr rfl
  have hbase' : c.base = held := by
    rcases hpc' with he | he
    · simp only [Conn.base, he, hblocks]
    · simp only [Conn.base, he, hblocks]
  refine h.writeHeader hT hA (by rw [hpc]; rfl) (hheld _ hmem) ?_ ?_ ?_ fun granted lost hl hst => ?_
  · rcases hpc' with he | he <;> rw [he] <;> rfl
  · rcases hpc' with he | he <;> rw [he] <;> exact ConnPC.noConfusion
  · rcases hpc' with he | he <;> rw [he] <;> rfl
  · have hg : granted = [] := hst.closed (by rw [hpc]; rfl)
    refine ⟨[], lost, hl, ?_, fun _ => rfl, hblocks ▸ hne, ?_⟩
    · rw [hbase, hbase', hg]
    · have hgood := good_request (fun b hb => h.books.blk b i (hheld b hb)) (fits_of_length hfit)
        (s.mem c.header)
      rw [show c.stripe = allocStripe held by rw [hc]]
      exact hgood

/-- The end of a growth; what was granted and is not in the copy is lost. -/
theorem Own.growEnd (h : Own l s) (hT : Tokens s) (hA : Asking s) {off len n : ℕ}
    {held : List BlockId} (hpc : (s.conns i).pc = .grow off len n held)
    (hfit : ((s.conns i).stripe.allocBlocks held).sequence.length ≤ HeaderEntries)
    (hup : l = true → s.UpToDate i)
    (hc : c = { s.conns i with
      stripe := (s.conns i).stripe.allocBlocks held, pc := .copy off len }) :
    Own l ((s.setMem c.header (c.stripe.updateHeader (s.mem c.header))).setConn i c) := by
  obtain ⟨granted, taken, lost, -, hst, -⟩ := h.conn i
  have ho : (s.conns i).pc.isOpen = true := by
    rw [hpc]
    rfl
  have hbase : (s.conns i).base = (s.conns i).stripe.blocks ++ held := by simp only [Conn.base, hpc]
  have hheld : ∀ b ∈ held, s.ledger b = some i := fun b hb => hst.holds.ledger (by simp [hbase, hb])
  have hblocks : c.stripe.blocks = (s.conns i).stripe.blocks ++ held := by
    rw [hc]
    rfl
  have hheader : c.header = (s.conns i).header := Conn.header_append (hst.nonempty ho) hblocks
  have hpc' : c.pc = .copy off len := by rw [hc]
  refine h.writeHeader hT hA (by rw [hpc]; rfl) (hheader ▸ hst.ledger_header ho) (by rw [hpc']; rfl)
    (by rw [hpc']; exact ConnPC.noConfusion) (by rw [hpc']; rfl) fun granted lost hl hst => ?_
  have hgood := hst.good ho
  have hseq : ((s.conns i).stripe.allocBlocks held).sequence =
      encode ((s.conns i).stripe.blocks ++ held) := by
    rw [encode_append fun b hb => hgood.blk b (List.mem_append_left _ hb)]
    rw [← show (s.conns i).stripe.sequence = _ from hgood.sequence]
    rfl
  rw [hseq] at hfit
  refine ⟨[], granted ++ lost, fun hll => ?_, ?_, fun _ => rfl, ?_, ?_⟩
  · rw [hst.granted_eq ho (hup hll), hl hll]
    rfl
  · rw [hbase, show c.base = c.stripe.blocks by simp only [Conn.base, hpc'], hblocks,
      List.append_nil, ← List.append_assoc]
  · rw [hblocks]
    exact fun he => hst.nonempty ho (List.append_eq_nil_iff.1 he).1
  · have hnew := hgood.allocBlocks (fun b hb => h.books.blk b i (hheld b hb)) (fits_of_length hfit)
    rw [hheader, show c.stripe = (s.conns i).stripe.allocBlocks held by rw [hc]]
    exact hnew

theorem Own.copyLen (h : Own l s) (hT : Tokens s) (hA : Asking s) {off len : ℕ} (n : UInt32)
    (hpc : (s.conns i).pc = .copy off len) :
    Own l ((s.setMem (s.conns i).header (putDataLen (s.mem (s.conns i).header) n)).setConn i
      { s.conns i with stripe := { (s.conns i).stripe with dataLen := n }, pc := .opened }) := by
  obtain ⟨granted, taken, lost, -, hst, -⟩ := h.conn i
  have ho : (s.conns i).pc.isOpen = true := by
    rw [hpc]
    rfl
  refine h.writeHeader hT hA
    (c := { s.conns i with stripe := { (s.conns i).stripe with dataLen := n }, pc := .opened })
    (by rw [hpc]; rfl) (hst.ledger_header ho) rfl ConnPC.noConfusion rfl
    fun granted lost hl hst => ⟨granted, lost, hl, ?_, fun he => ?_, hst.nonempty ho, ?_⟩
  · simp only [Conn.base, hpc]
    exact .refl _
  · cases he
  · exact (hst.good ho).setLen n n

theorem Stock.header_not_tail {granted taken lost : List BlockId}
    (h : Stock s i granted taken lost) (ho : (s.conns i).pc.isOpen = true) :
    (s.conns i).header ∉ ((s.conns i).stripe.blocks ++ granted).tail := by
  obtain ⟨b, bs, hb⟩ := List.exists_cons_of_ne_nil (h.nonempty ho)
  have hnd := h.nodup ho
  rw [Conn.header, hb]
  rw [hb] at hnd
  exact (List.nodup_cons.1 hnd).1

theorem Own.poke (h : Own l s) (hT : Tokens s) (hA : Asking s) {b : BlockId} {bytes : Bytes}
    (hpc : (s.conns i).pc = .opened ∨ ∃ off len, (s.conns i).pc = .copy off len)
    (hb : b ∈ (s.conns i).stripe.blocks.tail) : Own l (s.setMem b bytes) := by
  have ho : (s.conns i).pc.isOpen = true := by
    rcases hpc with hpc | ⟨off, len, hpc⟩ <;> rw [hpc] <;> rfl
  have ha : (s.conns i).pc.awaits = false := by
    rcases hpc with hpc | ⟨off, len, hpc⟩ <;> rw [hpc] <;> rfl
  obtain ⟨granted, taken, lost, -, hst, -⟩ := h.conn i
  have hown : s.ledger b = some i :=
    hst.ledger ho (List.mem_append_left _ (List.mem_of_mem_tail hb))
  have hs : OnConn s (s.setMem b bytes) i (s.conns i) := by
    refine ⟨(Function.update_eq_self i s.conns).symm, rfl, rfl, fun _ _ _ => Iff.rfl, fun b' hb' => ?_,
      fun _ _ => rfl⟩
    refine Function.update_of_ne ?_ _ _
    rintro rfl
    exact hb' hown
  have hmem : (s.setMem b bytes).mem (s.conns i).header = s.mem (s.conns i).header := by
    refine Function.update_of_ne ?_ _ _
    intro he
    refine hst.header_not_tail ho ?_
    rw [List.tail_append_of_ne_nil (hst.nonempty ho), he]
    exact List.mem_append_left _ hb
  refine h.reset hT hA hs ha (h.books.congr rfl rfl) fun granted lost hl hst =>
    ⟨granted, lost, hl, hst.holds, hst.alloc, hst.closed, hst.fresh, hst.nonempty, fun ho => ?_,
      hst.entry, fun hr => ?_⟩
  · change Shm.Good ⟨(s.conns i).stripe, (s.setMem b bytes).mem (s.conns i).header, granted⟩
    rw [hmem]
    exact hst.good ho
  · change decodeHeader ((s.setMem b bytes).mem (s.conns i).header) = _
    rw [hmem]
    exact hst.returned hr

/-! ## Steps of connections -/

/-- Only `Close` makes an open connection give up its stripe. -/
theorem close_of_step {a : ConnAct} (hpc : (s.conns i).pc = .opened)
    (hs : stepConn s i a = some t) (hclosed : (t.conns i).pc.isOpen = false) : a = .close := by
  unfold stepConn at hs
  simp only [hpc] at hs
  cases a with
  | close => rfl
  | write off len =>
    obtain ⟨-, hs⟩ := Option.ite_none_right_eq_some.1 hs
    cases hs
    simp only [State.setConn, Function.update_self] at hclosed
    split_ifs at hclosed <;> cases hclosed
  | poke b bytes =>
    obtain ⟨-, hs⟩ := Option.ite_none_right_eq_some.1 hs
    cases hs
    rw [show ((s.setMem b bytes).conns i).pc = _ from hpc] at hclosed
    cases hclosed
  | next name =>
    obtain ⟨d, -, rfl⟩ := Option.map_eq_some_iff.1 hs
    simp only [State.setConn, Function.update_self] at hclosed
    split_ifs at hclosed <;> cases hclosed
  | _ => cases hs

theorem Own.connStep (h : Own l s) (hT : Tokens s) (hA : Asking s) {a : ConnAct}
    (hclose : l = true → (s.conns i).pc = .opened → (t.conns i).pc.isOpen = false → s.UpToDate i)
    (hfit : SequencesFit s (.conn i a)) (hkeep : l = true → KeepsUp s (.conn i a))
    (hs : ConnStep s i (s.conns i) a t) : Own l t := by
  have hno : ∀ {p : Prop}, false = true → p := fun hf => by cases hf
  have hwf := hT.slots.wf i
  cases hs with
  | @move a c hm =>
    refine h.move hT hA ?_ hm
    intro hl hpc hc
    refine hclose hl hpc ?_
    change (Function.update s.conns i c i).pc.isOpen = false
    rwa [Function.update_self]
  | @allocTake n needSlot held batch hpc hb =>
    refine h.takes hT hA hb (by simp only [Conn.base, hpc]) (by rw [hpc]; rfl) rfl (by rw [hpc]; rfl)
      (fun hal => ?_) rfl
    obtain ⟨m, rfl⟩ := Nat.exists_eq_succ_of_ne_zero (Nat.one_le_iff_ne_zero.1 (hal _ _ _ hpc))
    rfl
  | allocEnd hpc hn hc =>
    refine h.allocEnd hT hA hpc hn ?_ hc
    simpa only [SequencesFit, hpc, allocStripe] using hfit
  | @undo b todo isOpen hpc =>
    cases isOpen with
    | true =>
      refine h.frees hT hA ?_ (by rw [hpc]; rfl) rfl (by rw [hpc]; rfl) rfl rfl
      simp only [Conn.base, hpc]
      exact List.perm_middle
    | false =>
      refine h.frees hT hA ?_ (by rw [hpc]; rfl) rfl (by rw [hpc]; rfl) rfl rfl
      simp only [Conn.base, hpc]
      exact .refl _
  | @pickSlot u slot hpc hpos hidle =>
    exact h.stay hT hA (aside_setReg rfl) rfl rfl rfl (by simp only [Conn.base, hpc]) (by rw [hpc]; rfl) rfl
      hno
  | @setHeader u slot hpc =>
    refine h.idle hT hA (i := i) (c := { s.conns i with pc := .setOwner u slot })
      ⟨⟨rfl, rfl, rfl, fun _ _ _ => Iff.rfl, fun _ _ => rfl, fun slot' hne => ?_⟩, rfl, rfl, rfl, rfl,
        by simp only [Conn.base, hpc], by rw [hpc]; rfl, rfl⟩ fun granted taken lost hst hh => ?_
    · have hheld : (s.conns i).heldSlot = some slot := by simp only [Conn.heldSlot, hpc]
      rw [hheld] at hne
      change (Function.update s.reg slot _ slot').header = _
      rw [Function.update_of_ne fun he => hne (by rw [he])]
    · cases u with
      | handoff d =>
        simp only [Conn.WF, hpc] at hwf
        change (Function.update s.reg slot _ (s.conns i).slotID).header = _
        rw [← hwf.1, Function.update_self]
        exact hst.headerId (by rw [hpc]; rfl)
      | request => cases hh
      | next d => cases hh
  | @setOwner u slot hpc =>
    refine h.stay hT hA (aside_setReg rfl) rfl rfl rfl (by simp only [Conn.base, hpc]) (by rw [hpc]; rfl) rfl
      fun hh => ⟨?_, rfl⟩
    rw [hpc]
    cases u with
    | handoff d => rfl
    | request | next d => cases hh
  | @setStatus u slot hpc =>
    cases u with
    | handoff d =>
      refine h.stay hT hA (aside_setReg rfl) rfl rfl rfl (by simp only [Conn.base, hpc, Use.after])
        (by rw [hpc]; rfl) rfl fun _ => ⟨?_, rfl⟩
      rw [hpc]
      rfl
    | request | next d =>
      exact h.stay hT hA (aside_setReg rfl) rfl rfl rfl (by simp only [Conn.base, hpc, Use.after])
        (by rw [hpc]; rfl) rfl hno
  | @getDone u slot ch hpc hch =>
    cases u with
    | handoff d =>
      simp only [Conn.WF, hpc] at hwf
    | request | next d =>
      exact h.stay hT hA ⟨rfl, rfl, rfl, rfl, fun _ => rfl⟩ rfl rfl rfl
        (by simp only [Conn.base, hpc, Use.ready]) (by rw [hpc]; rfl) rfl hno
  | growTake hpc hb =>
    refine h.takes hT hA hb ?_ (by rw [hpc]; rfl) rfl (by rw [hpc]; rfl) (fun _ => rfl) rfl
    simp only [Conn.base, hpc, List.append_assoc]
  | growEnd hpc hc =>
    refine h.growEnd hT hA hpc ?_ (fun hl => ?_) hc
    · simpa only [SequencesFit, hpc] using hfit
    · simpa only [KeepsUp, hpc] using hkeep hl
  | poke hpc hb => exact h.poke hT hA hpc hb
  | @copyLen off len n hpc => exact h.copyLen hT hA n hpc
  | clear hpc _ | store hpc | push hpc | notify hpc =>
    refine h.stay hT hA ⟨rfl, rfl, rfl, rfl, fun _ => rfl⟩ rfl rfl rfl
      (by simp only [Conn.base, hpc]) (by rw [hpc]; rfl) rfl fun _ => ⟨?_, rfl⟩
    rw [hpc]
    rfl
  | notifyFail hpc _ | dropWaiter hpc | putDone hpc _ =>
    exact h.stay hT hA ⟨rfl, rfl, rfl, rfl, fun _ => rfl⟩ rfl rfl rfl
      (by simp only [Conn.base, hpc]) (by rw [hpc]; rfl) rfl hno
  | @recv ch r hpc _ _ =>
    split_ifs
    · exact h.stay hT hA ⟨rfl, rfl, rfl, rfl, fun _ => rfl⟩ rfl rfl rfl
        (by simp only [Conn.base, hpc]) (by rw [hpc]; rfl) rfl hno
    · exact h.stay hT hA ⟨rfl, rfl, rfl, rfl, fun _ => rfl⟩ rfl rfl rfl
        (by simp only [Conn.base, hpc]) (by rw [hpc]; rfl) rfl hno
  | free hpc =>
    refine h.frees hT hA ?_ (by rw [hpc]; rfl) rfl (by rw [hpc]; rfl) rfl rfl
    simp only [Conn.base, hpc]
    exact .refl _
  | freeSlot hpc =>
    exact h.stay hT hA (aside_setReg rfl) rfl rfl rfl (by simp only [Conn.base, hpc]) (by rw [hpc]; rfl) rfl
      hno

end Mmfg.Hub
