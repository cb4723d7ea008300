import Mmfg.Relay.Copies

/-!
# What the holder of a stripe does

Whatever the hub and the nodes it visits do with a stripe, they do to one file.  `Tracks` is the
invariant: the header block describes the whole stripe, and the copies of hub and node are behind it.
`Carried` says what one event does, first to the blocks, if it adds some, and then to every file that
they show.
-/

namespace Mmfg.Relay

open File Shm Conn

/-- The hub waits in `Next` with a copy that is behind and its cursors at the start. -/
structure Waiting (c : BusConn) (all : Stripe) : Prop where
  behind : Behind c.stripe all
  count : c.stripe.blockCount = c.stripe.blocks.length
  readOff : c.readOff = 0
  writeOff : c.writeOff = 0

/-- What the holder knows of the stripe; a Go node never learns of a new block count, and a Rust node
reads the header each time. -/
def Holder.Tracks (c : BusConn) (all : Stripe) : Holder → Prop
  | .hub => c.stripe = all
  | .go n =>
    Waiting c all ∧ Part n.stripe all ∧ 1 ≤ n.stripe.blockCount ∧
      n.stripe.blockCount ≤ n.stripe.blocks.length
  | .rust r =>
    Waiting c all ∧ r.stripe.header = all.header ∧ r.expansionRx = false ∧
      r.writePos ≤ all.dataLen.toNat

/-- The header describes the stripe `all`. -/
structure Tracks (s : State) (all : Stripe) : Prop where
  rep : Represents all s.mem
  readOff : 0 ≤ s.readOff
  writeOff : 0 ≤ s.writeOff
  holder : s.holder.Tracks s.conn all

/-- The whole stripe with the cursors of the holder. -/
def State.view (s : State) (all : Stripe) : BusConn := ⟨all, s.readOff, s.writeOff⟩

/-- What a step does: the stripe may grow, and then every file that it shows changes as `effect` says. -/
def Carries (s : State) (all : Stripe) (effect : Handle UInt8 → Handle UInt8 × Option (Result UInt8))
    (s' : State) (all' : Stripe) (res : Option (Result UInt8)) : Prop :=
  Tracks s' all' ∧ ∃ all₁ mem₁, Grown all s.mem all₁ mem₁ ∧ all'.blocks = all₁.blocks ∧
    ∀ g, Shows (s.view all₁) mem₁ g →
      (effect g).2 = res ∧ Shows (s'.view all') s'.mem (effect g).1 ∧
      ∀ i, all₁.capacity ≤ i → (effect g).1.data i = g.data i

/-- An event does what the reference says; the stripe is the same afterwards unless one may have been
stored. -/
def Carried (s : State) (all : Stripe) (e : Event) (s' : State) (res : Option (Result UInt8)) : Prop :=
  ∃ all', (e.stores = false → all' = all) ∧
    Carries s all (fun g => fileEvent g (s.refusal e) e) s' all' res

variable {s s' : State} {all : Stripe} {mem : Memory} {g : Handle UInt8}

theorem Carries.same {effect : Handle UInt8 → Handle UInt8 × Option (Result UInt8)}
    {res : Option (Result UInt8)} (h : Tracks s all) (h' : Tracks s' all)
    (hfile : ∀ g, Shows (s.view all) s.mem g → (effect g).2 = res ∧
      Shows (s'.view all) s'.mem (effect g).1 ∧ (effect g).1.data = g.data) :
    Carries s all effect s' all res := by
  refine ⟨h', all, s.mem, .refl h.rep.toWf, rfl, fun g hg => ?_⟩
  obtain ⟨hres, hshow, hdata⟩ := hfile g hg
  exact ⟨hres, hshow, fun i _ => by rw [hdata]⟩

theorem Carried.same {e : Event} {res : Option (Result UInt8)} (h : Tracks s all)
    (h' : Tracks s' all)
    (hfile : ∀ g, Shows (s.view all) s.mem g → (fileEvent g (s.refusal e) e).2 = res ∧
      Shows (s'.view all) s'.mem (fileEvent g (s.refusal e) e).1 ∧
      (fileEvent g (s.refusal e) e).1.data = g.data) : Carried s all e s' res :=
  ⟨all, fun _ => rfl, .same h h' hfile⟩

theorem blocks_eq (h : Tracks s all) : s.blocks = all.blocks := by
  have hheader : s.conn.stripe.header = all.header := by
    have hh := h.holder
    cases hc : s.holder with
    | hub =>
      rw [hc] at hh
      exact congrArg Stripe.header hh
    | go n =>
      rw [hc] at hh
      exact hh.1.behind.header_eq
    | rust r =>
      rw [hc] at hh
      exact hh.1.behind.header_eq
  rw [State.blocks, hheader, h.rep.header, h.rep.sequence]
  exact resolve_encode h.rep.blk

/-! ## The hub -/

/-- A stripe that grows for a write is described by its header, if the sequence fits. -/
theorem represents_ensureCapacity {st : Stripe} {needed : ℤ} {alloc : Option (List BlockId)}
    (h : Represents st mem)
    (hg : ∀ blocks ∈ alloc, Granted st.blocks (blocksNeeded st needed).toNat blocks)
    (hfit : (ensureCapacity st mem needed alloc).1.1.sequence.length ≤ HeaderEntries) :
    Represents (ensureCapacity st mem needed alloc).1.1
      (ensureCapacity st mem needed alloc).1.2 := by
  unfold ensureCapacity at hfit ⊢
  split_ifs at hfit ⊢ with h1 h2
  · exact h
  · exact h
  · refine h.allocBlocks hg fun blocks hb => ?_
    obtain rfl := Option.mem_def.1 hb
    exact hfit

theorem sequence_writeAt (st : Stripe) (mem : Memory) (p : List UInt8) (off : ℤ) :
    (st.writeAt mem p off).1.1.sequence = st.sequence := by
  obtain ⟨n, hn⟩ := @Stripe.exists_writeAt_stripe mem p st off
  rw [hn]

theorem represents_writeAt {c : BusConn} {alloc : Option (List BlockId)} {data : List UInt8} {off : ℤ}
    (h : Represents c.stripe mem) (hans : c.Answers (.writeAt data off) alloc)
    (hfit : (c.writeAt mem data off alloc).1.1.stripe.sequence.length ≤ HeaderEntries) :
    Represents (c.writeAt mem data off alloc).1.1.stripe (c.writeAt mem data off alloc).1.2 := by
  have hg := fun blocks hb => hans blocks hb _ rfl
  unfold BusConn.writeAt at hfit ⊢
  dsimp only at hfit ⊢
  cases he : (ensureCapacity c.stripe mem (int64 (off + data.length)) alloc).2 with
  | some err =>
    simp only [he] at hfit ⊢
    exact represents_ensureCapacity h hg hfit
  | none =>
    simp only [he] at hfit ⊢
    rw [sequence_writeAt] at hfit
    exact (represents_ensureCapacity h hg hfit).writeAt data off

theorem write_writeAt (c : BusConn) (mem : Memory) (data : List UInt8)
    (alloc : Option (List BlockId)) :
    (c.write mem data alloc).1.1.stripe = (c.writeAt mem data c.writeOff alloc).1.1.stripe ∧
      (c.write mem data alloc).1.2 = (c.writeAt mem data c.writeOff alloc).1.2 := by
  unfold BusConn.write
  dsimp only
  split <;> exact ⟨rfl, rfl⟩

/-- Every call of the hub leaves a header that describes the stripe. -/
theorem represents_call {c : BusConn} {alloc : Option (List BlockId)} {call : Call}
    (h : Represents c.stripe mem) (hans : c.Answers call alloc)
    (hfit : (c.call mem alloc call).1.1.stripe.sequence.length ≤ HeaderEntries) :
    Represents (c.call mem alloc call).1.1.stripe (c.call mem alloc call).1.2 := by
  have hwrite : ∀ data : List UInt8, c.Answers (.write data) alloc →
      (c.write mem data alloc).1.1.stripe.sequence.length ≤ HeaderEntries →
      Represents (c.write mem data alloc).1.1.stripe (c.write mem data alloc).1.2 := by
    intro data hans hfit
    obtain ⟨hstripe, hmem⟩ := write_writeAt c mem data alloc
    rw [hstripe] at hfit
    rw [hstripe, hmem]
    exact represents_writeAt h hans hfit
  cases call with
  | write data => exact hwrite data hans hfit
  | writeByte b =>
    simp only [BusConn.call, writeByte_eq] at hfit ⊢
    exact hwrite [b] hans hfit
  | writeAt data off => exact represents_writeAt h hans hfit
  | read len =>
    obtain ⟨r, hr⟩ := read_conn c mem len
    simp only [BusConn.call, hr]
    exact h
  | readByte =>
    obtain ⟨r, hr⟩ := readByte_conn c mem
    simp only [BusConn.call, hr]
    exact h
  | readAt len off => exact h
  | writeTo bufs =>
    obtain ⟨r, hr⟩ := copyLoop_conn c mem bufs (c.stripe.dataLen.toNat + 1) 0 c.stripe.dataLen.toNat
    simp only [BusConn.call, BusConn.writeTo, hr]
    exact h
  | dataLen => exact h

theorem carried_call {call : Call} {alloc : Option (List BlockId)} {res : Option (Result UInt8)}
    (h : Tracks s all) (hok : s.Allows (.call call alloc))
    (hs : s.step (.call call alloc) = some (s', res)) : Carried s all (.call call alloc) s' res := by
  obtain ⟨c, holder, mem⟩ := s
  obtain ⟨hin, hans, hfit⟩ := hok
  cases holder with
  | go n => cases hs
  | rust r => cases hs
  | hub =>
    obtain rfl : c.stripe = all := h.holder
    cases hs
    have hrep := represents_call h.rep hans hfit
    have hw : 0 ≤ c.writeOff := h.writeOff
    cases hfail : c.allocFails call alloc with
    | true =>
      obtain ⟨hsame, hfile⟩ := call_failed mem h.rep.toWf hw hin hans hfail
      have href : State.refusal ⟨c, .hub, mem⟩ (.call call alloc) = some .allocFailed := if_pos hfail
      refine .same h ?_ fun g hg => ?_
      · rw [hsame]
        exact h
      · rw [href, fileEvent, hfile g]
        refine ⟨rfl, ?_, rfl⟩
        rw [hsame]
        exact hg
    | false =>
      obtain ⟨s₁, mem₁, hc⟩ := call_carries mem h.rep.toWf hw hin hans hfail
      have href : State.refusal ⟨c, .hub, mem⟩ (.call call alloc) = none := by
        rw [State.refusal, hfail]
        rfl
      have hr : 0 ≤ c.readOff := h.readOff
      have hshow := hc.shows _
        (shows_handle (c := { c with stripe := s₁ }) hc.grown.wf hr hw fun _ _ => rfl)
      refine ⟨(c.call mem alloc call).1.1.stripe, nofun, ⟨hrep, ?_, ?_, rfl⟩, s₁, mem₁, hc.grown,
        hc.blocks, fun g hg => ?_⟩
      · exact (Int.natCast_nonneg _).trans_eq hshow.readOff.symm
      · exact (Int.natCast_nonneg _).trans_eq hshow.writeOff.symm
      · dsimp only
        rw [href]
        exact ⟨congrArg some (hc.result g hg), hc.shows g hg, hc.beyond g hg⟩

/-! ## Handing over -/

theorem shows_rewind {c : BusConn} (h : Shows c mem g) :
    Shows { c with readOff := 0, writeOff := 0 } mem { g with readOff := 0, writeOff := 0 } :=
  ⟨h.wf, h.len, rfl, rfl, h.data⟩

theorem carried_next {lang : Lang} {res : Option (Result UInt8)} (h : Tracks s all)
    (hs : s.step (.next lang) = some (s', res)) : Carried s all (.next lang) s' res := by
  obtain ⟨c, holder, mem⟩ := s
  cases holder with
  | go n => cases hs
  | rust r => cases hs
  | hub =>
    obtain rfl : c.stripe = all := h.holder
    cases hs
    have hrep : Represents c.stripe mem := h.rep
    have hbehind : Behind c.stripe c.stripe := .refl hrep
    have hwait : Waiting { c with readOff := 0, writeOff := 0 } c.stripe :=
      ⟨hbehind, hrep.blockCount, rfl, rfl⟩
    have hcount : 1 ≤ c.stripe.blockCount := by
      rw [hrep.blockCount]
      exact List.length_pos_iff.2 hrep.nonempty
    simp only [hbehind.headerEntry_eq hrep]
    cases lang with
    | go =>
      rw [startHandler, processSlot_eq hrep]
      refine .same h ⟨hrep, le_rfl, le_rfl, hwait, ⟨hbehind, rfl, hrep.dataLen⟩, hcount, ?_⟩
        fun g hg => ⟨rfl, shows_rewind hg, rfl⟩
      exact hrep.blockCount.le
    | rust =>
      exact .same h ⟨hrep, le_rfl, le_rfl, hwait, rfl, rfl, Nat.zero_le _⟩
        fun g hg => ⟨rfl, shows_rewind hg, rfl⟩

/-- While a node has the stripe, the hub waits. -/
theorem waiting_of_tracks (h : Tracks s all) (hne : s.holder ≠ .hub) : Waiting s.conn all := by
  have hh := h.holder
  cases hc : s.holder with
  | hub => exact absurd hc hne
  | go n =>
    rw [hc] at hh
    exact hh.1
  | rust r =>
    rw [hc] at hh
    exact hh.1

theorem carried_finish {res : Option (Result UInt8)} (h : Tracks s all)
    (hs : s.step .finish = some (s', res)) : Carried s all .finish s' res := by
  have hne : s.holder ≠ .hub := by
    intro hc
    simp only [State.step, hc] at hs
    cases hs
  have hwait := waiting_of_tracks h hne
  have hback : (⟨{ s.conn with stripe := all }, .hub, s.mem⟩, none) = (s', res) := by
    have hrefresh := hwait.behind.refresh_eq h.rep hwait.count
    rw [← hrefresh]
    cases hc : s.holder with
    | hub => exact absurd hc hne
    | go n =>
      simp only [State.step, hc, Option.some.injEq] at hs
      exact hs
    | rust r =>
      simp only [State.step, hc, Option.some.injEq] at hs
      exact hs
  cases hback
  refine .same h ⟨h.rep, hwait.readOff.ge, hwait.writeOff.ge, rfl⟩ fun g hg => ⟨rfl, ?_, rfl⟩
  have hview : State.view ⟨{ s.conn with stripe := all }, .hub, s.mem⟩ all = ⟨all, 0, 0⟩ := by
    simp only [State.view, State.readOff, State.writeOff, hwait.readOff, hwait.writeOff]
  rw [hview]
  exact shows_rewind hg

theorem carried_store {b : BlockId} {data : Bytes} {res : Option (Result UInt8)} (h : Tracks s all)
    (hok : s.Allows (.store b data)) (hs : s.step (.store b data) = some (s', res)) :
    Carried s all (.store b data) s' res := by
  have hb : b ∉ all.blocks := blocks_eq h ▸ hok
  cases hs
  have hmem : ∀ d ∈ all.blocks, Function.update s.mem b data d = s.mem d := by
    intro d hd
    have hne : d ≠ b := fun he => hb (he ▸ hd)
    exact Function.update_of_ne hne _ _
  have hrep : Represents all (Function.update s.mem b data) :=
    h.rep.congr (hmem _ ((Stripe.mem_blocks h.rep.nonempty).2 (.inl rfl)))
  refine .same h ⟨hrep, h.readOff, h.writeOff, h.holder⟩ fun g hg => ⟨rfl, ?_, rfl⟩
  refine ⟨hg.wf, hg.len, hg.readOff, hg.writeOff, fun i hi => (hg.data i hi).trans ?_⟩
  exact (flat_congr rfl fun d hd => hmem d (List.mem_of_mem_tail (List.mem_of_getElem? hd))).symm

/-! ## Go nodes -/

theorem userCap_le {st : Stripe} (hpos : 1 ≤ st.blockCount) (hle : st.blockCount ≤ st.blocks.length) :
    userCap st ≤ st.capacity := by
  have hmul := Nat.mul_le_mul_right BlockSize (Nat.sub_le_sub_right hle 1)
  have hcast : userCap st = ((st.blockCount - 1 : ℕ) : ℤ) * BlockSize := by
    rw [userCap, Nat.cast_sub hpos, Nat.cast_one]
  rw [hcast, Stripe.capacity, List.length_tail]
  exact_mod_cast hmul

theorem prepare_eq (n : NodeConn) (mem : Memory) (needCap : ℤ) :
    n.prepare mem needCap [] =
      if needCap > StripeDataSizeLimit then some ((n, mem), some .limitReached)
      else if needCap > userCap n.stripe then none else some ((n, mem), none) := rfl

section Go

variable {c : BusConn} {n : NodeConn}

/-- A write of the node is one to the whole stripe. -/
theorem tracks_written (h : Tracks ⟨c, .go n, mem⟩ all) {p : List UInt8} {off w : ℤ} (h0 : 0 ≤ off)
    (hend : off + p.length ≤ userCap n.stripe) (hw : 0 ≤ w) :
    (n.stripe.writeAt mem p off).1.2 = (all.writeAt mem p off).1.2 ∧
      (all.writeAt mem p off).1.1.blocks = all.blocks ∧
      off + p.length ≤ all.capacity ∧
      Tracks ⟨c, .go { n with stripe := (n.stripe.writeAt mem p off).1.1, writeOff := w },
        (all.writeAt mem p off).1.2⟩ (all.writeAt mem p off).1.1 := by
  obtain ⟨⟨hbehind, hcount, hr, hw'⟩, hpart, hpos, hle⟩ := h.holder
  have hcap : off + p.length ≤ n.stripe.capacity := hend.trans (userCap_le hpos hle)
  obtain ⟨d, hnode, hall, hd⟩ := hpart.writeAt_eq h.rep h0 hcap
  have hrep := h.rep.writeAt p off
  have hblocks : (all.writeAt mem p off).1.1.blocks = all.blocks := by rw [hall]
  have hlen := hpart.capacity_le
  refine ⟨by rw [hnode], hblocks, by omega, hrep, h.readOff, hw, ?_⟩
  rw [hnode, hall]
  exact ⟨⟨⟨hbehind.nonempty, hbehind.blocks, hbehind.sequence⟩, hcount, hr, hw'⟩,
    ⟨⟨hpart.nonempty, hpart.blocks, hpart.sequence⟩, rfl, hd⟩, hpos, hle⟩

theorem node_read (hpart : Part n.stripe all) (hg : Shows ⟨all, n.readOff, n.writeOff⟩ mem g)
    (len : ℕ) :
    n.read mem len =
      if g.len ≤ g.readOff then (n, [], some .eof)
      else ({ n with readOff := n.readOff + (g.readAt len g.readOff).length },
        g.readAt len g.readOff, none) := by
  have hoff : n.readOff = g.readOff := hg.readOff
  have hr : all.readAt mem len n.readOff =
      if g.len ≤ n.readOff.toNat then ([], some .eof)
      else (g.readAt len n.readOff.toNat, none) := hg.readAt (by omega) len
  rw [hoff, Int.toNat_natCast] at hr
  rw [NodeConn.read, hpart.readAt_eq, hoff, hr]
  split_ifs with he <;> rfl

theorem node_readByte (hpart : Part n.stripe all) (hg : Shows ⟨all, n.readOff, n.writeOff⟩ mem g) :
    n.readByte mem =
      if g.len ≤ g.readOff then (n, .error .eof)
      else ({ n with readOff := n.readOff + 1 }, .ok (g.data g.readOff)) := by
  have hlen : g.len = all.dataLen.toNat := hg.len
  have hcap : all.dataLen.toNat ≤ all.capacity := hg.wf.dataLen
  have hoff : n.readOff = g.readOff := hg.readOff
  rw [NodeConn.readByte, hpart.readByteAt_eq, hoff]
  split_ifs with he
  · rw [Stripe.readByteAt, if_neg (by omega), if_pos (by omega)]
  · rw [Stripe.readByteAt_eq hcap (by omega) (by omega), Int.toNat_natCast,
      hg.data g.readOff (show g.readOff < all.capacity by omega)]

theorem node_readAt (hpart : Part n.stripe all) (hg : Shows ⟨all, n.readOff, n.writeOff⟩ mem g)
    (len : ℕ) (off : ℤ) :
    n.readAt mem len off =
      if off < 0 then ([], some .negativeOffset)
      else if g.len ≤ off.toNat then ([], some .eof)
      else (g.readAt len off.toNat, none) := by
  rw [NodeConn.readAt, hpart.readAt_eq]
  split_ifs with h0 he
  · rw [Stripe.readAt, if_pos h0]
  · exact (hg.readAt (not_lt.1 h0) len).trans (if_pos he)
  · exact (hg.readAt (not_lt.1 h0) len).trans (if_neg he)

/-- A read of a Go node: what it returns is what the file returns, and the cursors agree. -/
theorem carried_goRead {call : Call} {n' : NodeConn} {r : Result UInt8}
    (h : Tracks ⟨c, .go n, mem⟩ all) (hn : ∃ k : ℕ, n' = { n with readOff := n.readOff + k })
    (hb : call.isWriteByte = false)
    (href : State.refusal ⟨c, .go n, mem⟩ (.goCall call) = none)
    (hfile : ∀ g, Shows ⟨all, n.readOff, n.writeOff⟩ mem g →
      ∃ k, fileCall id g none call = (g.skip k, r) ∧ n'.readOff = n.readOff + k) :
    Carried ⟨c, .go n, mem⟩ all (.goCall call) ⟨c, .go n', mem⟩ (some r) := by
  obtain ⟨k, rfl⟩ := hn
  have hr : 0 ≤ n.readOff := h.readOff
  refine .same h ⟨h.rep, ?_, h.writeOff, h.holder⟩ fun g hg => ?_
  · change 0 ≤ n.readOff + k
    omega
  · obtain ⟨j, hcall, hoff⟩ := hfile g hg
    obtain rfl : k = j := by
      dsimp only at hoff
      omega
    rw [href, fileEvent, hcall, hb]
    exact ⟨rfl, hg.skip k, rfl⟩

/-- The three outcomes of `WriteAt` without an expansion. -/
theorem node_writeAt_eq {p : List UInt8} {off : ℤ} (hint : int64 (off + p.length) = off + p.length) :
    n.writeAt mem p off [] =
      if off + p.length > StripeDataSizeLimit then some ((n, mem), 0, some .limitReached)
      else if off + p.length > userCap n.stripe then none
      else some (({ n with stripe := (n.stripe.writeAt mem p off).1.1 },
        (n.stripe.writeAt mem p off).1.2), (n.stripe.writeAt mem p off).2) := by
  rw [NodeConn.writeAt, hint, prepare_eq]
  split_ifs <;> rfl

theorem writeAt_fits (h : Tracks ⟨c, .go n, mem⟩ all) {p : List UInt8} {off : ℤ} (h0 : 0 ≤ off)
    (hend : off + p.length ≤ userCap n.stripe) :
    (n.stripe.writeAt mem p off).2 = (p.length, none) := by
  obtain ⟨-, hpart, hpos, hle⟩ := h.holder
  have hcap := hend.trans (userCap_le hpos hle)
  have hlen := hpart.capacity_le
  exact Stripe.writeAt_of_fits h0 (h.rep.toWf.off_lt (by omega)) hcap

theorem goCall_writeAt (h : Tracks ⟨c, .go n, mem⟩ all) {p : List UInt8} {off : ℤ} (h0 : 0 ≤ off)
    (hint : int64 (off + p.length) = off + p.length) :
    n.call mem [] (.writeAt p off) =
      if off + p.length > StripeDataSizeLimit then
        some ((n, mem), .wrote 0 (some .limitReached))
      else if off + p.length > userCap n.stripe then none
      else some (({ n with stripe := (n.stripe.writeAt mem p off).1.1, writeOff := n.writeOff },
        (n.stripe.writeAt mem p off).1.2), .wrote p.length none) := by
  rw [NodeConn.call, node_writeAt_eq hint]
  split_ifs with hlim hcap
  · rfl
  · rfl
  · rw [Option.map_some, writeAt_fits h h0 (not_lt.1 hcap)]

theorem goCall_write (h : Tracks ⟨c, .go n, mem⟩ all) {p : List UInt8}
    (hint : int64 (n.writeOff + p.length) = n.writeOff + p.length) :
    n.call mem [] (.write p) =
      if n.writeOff + p.length > StripeDataSizeLimit then
        some ((n, mem), .wrote 0 (some .limitReached))
      else if n.writeOff + p.length > userCap n.stripe then none
      else some (({ n with
          stripe := (n.stripe.writeAt mem p n.writeOff).1.1
          writeOff := n.writeOff + p.length },
        (n.stripe.writeAt mem p n.writeOff).1.2), .wrote p.length none) := by
  have hw : 0 ≤ n.writeOff := h.writeOff
  rw [NodeConn.call, NodeConn.write, node_writeAt_eq hint]
  split_ifs with hlim hcap
  · rfl
  · rfl
  · rw [Option.map_some, Option.map_some, writeAt_fits h hw (not_lt.1 hcap)]

/-- The cursor stays where it is. -/
theorem goCall_writeByte (h : Tracks ⟨c, .go n, mem⟩ all) {b : UInt8}
    (hint : int64 (n.writeOff + ([b].length : ℕ)) = n.writeOff + ([b].length : ℕ)) :
    n.call mem [] (.writeByte b) =
      if n.writeOff + ([b].length : ℕ) > StripeDataSizeLimit then
        some ((n, mem), .done (some .limitReached))
      else if n.writeOff + ([b].length : ℕ) > userCap n.stripe then none
      else some (({ n with
          stripe := (n.stripe.writeAt mem [b] n.writeOff).1.1
          writeOff := n.writeOff },
        (n.stripe.writeAt mem [b] n.writeOff).1.2), .done none) := by
  have hw : 0 ≤ n.writeOff := h.writeOff
  rw [NodeConn.call, NodeConn.writeByte,
    show n.writeOff + 1 = n.writeOff + ([b].length : ℕ) from rfl, hint, prepare_eq]
  split_ifs with hlim hcap
  · rfl
  · rfl
  · simp only [Option.map_some, Stripe.writeByteAt_eq, writeAt_fits h hw (not_lt.1 hcap)]

theorem refusal_goCall {call : Call} {stop : ℤ}
    (hneed : (⟨c.stripe, n.readOff, n.writeOff⟩ : BusConn).needed call = some stop) :
    State.refusal ⟨c, .go n, mem⟩ (.goCall call) =
      if stop > StripeDataSizeLimit then some .limitReached else none := by
  have hsame : (⟨c.stripe, State.readOff ⟨c, .go n, mem⟩, State.writeOff ⟨c, .go n, mem⟩⟩ :
      BusConn).needed call = some stop := hneed
  simp only [State.refusal, hsame, Option.any_some, decide_eq_true_eq]

/-- A write of a Go node: it goes beyond the limit, it waits for an expansion, or it is one to the file
at the same place, with `w` as the cursor after it. -/
theorem carried_goWrite {call : Call} {p : List UInt8} {off w : ℤ} {r r₀ r' : Result UInt8}
    {n' : NodeConn} {m : Memory} (h : Tracks ⟨c, .go n, mem⟩ all) (h0 : 0 ≤ off) (hw : 0 ≤ w)
    (hneed : (⟨c.stripe, n.readOff, n.writeOff⟩ : BusConn).needed call = some (off + p.length))
    (heq : n.call mem [] call =
      if off + p.length > StripeDataSizeLimit then some ((n, mem), r₀)
      else if off + p.length > userCap n.stripe then none
      else some (({ n with stripe := (n.stripe.writeAt mem p off).1.1, writeOff := w },
        (n.stripe.writeAt mem p off).1.2), r))
    (hrefused : ∀ g, fileCall id g (some .limitReached) call = (g, r₀))
    (hfile : ∀ g, Shows ⟨all, n.readOff, n.writeOff⟩ mem g →
      fileEvent g none (.goCall call) = ({ g.writeAt p off.toNat with writeOff := w.toNat }, some r))
    (hcall : n.call mem [] call = some ((n', m), r')) :
    Carried ⟨c, .go n, mem⟩ all (.goCall call) ⟨c, .go n', m⟩ (some r') := by
  have href : State.refusal ⟨c, .go n, mem⟩ (.goCall call) = _ := refusal_goCall hneed
  rw [heq] at hcall
  split_ifs at hcall with hlim hcap
  · rw [if_pos hlim] at href
    cases hcall
    refine .same h h fun g hg => ?_
    rw [href, fileEvent, hrefused g]
    refine ⟨rfl, ?_, ?_⟩
    · dsimp only
      split_ifs <;> exact hg
    · dsimp only
      split_ifs <;> rfl
  · rw [if_neg hlim] at href
    cases hcall
    obtain ⟨hmem, hblocks, hend, htracks⟩ := tracks_written h h0 (not_lt.1 hcap) hw
    rw [hmem]
    have hstores : (Event.goCall call).stores = true := BusConn.writes_of_needed hneed
    refine ⟨_, fun hno => (nomatch hstores.symm.trans hno), htracks, all, mem, .refl h.rep.toWf,
      hblocks, fun g hg => ?_⟩
    have hwrite := (hg.writeAt h0 hend).2
    dsimp only
    rw [href, hfile g hg]
    refine ⟨rfl, ⟨hwrite.wf, hwrite.len, hwrite.readOff, (Int.toNat_of_nonneg hw).symm, hwrite.data⟩,
      fun i hi => overlay_of_le (by omega)⟩

theorem carried_goCall {call : Call} {res : Option (Result UInt8)} (h : Tracks s all)
    (hok : s.Allows (.goCall call)) (hs : s.step (.goCall call) = some (s', res)) :
    Carried s all (.goCall call) s' res := by
  obtain ⟨c, holder, mem⟩ := s
  cases holder with
  | hub => cases hs
  | rust r => cases hs
  | go n =>
    obtain ⟨⟨⟨n', m⟩, r⟩, hcall, hs⟩ := Option.map_eq_some_iff.1 hs
    cases hs
    have hpart : Part n.stripe all := h.holder.2.1
    have hw : 0 ≤ n.writeOff := h.writeOff
    have hr : 0 ≤ n.readOff := h.readOff
    -- some file that the stripe shows
    have hsome : Shows ⟨all, n.readOff, n.writeOff⟩ mem _ :=
      shows_handle (c := ⟨all, n.readOff, n.writeOff⟩) h.rep.toWf hr hw fun _ _ => rfl
    cases call with
    | read len =>
      cases hcall
      refine carried_goRead h ?_ rfl rfl fun g hg => ?_
      · rw [node_read hpart hsome len]
        split_ifs
        · exact ⟨0, by simp⟩
        · exact ⟨_, rfl⟩
      · rw [node_read hpart hg len, fileCall]
        split_ifs
        · exact ⟨0, rfl, (add_zero _).symm⟩
        · exact ⟨_, rfl, rfl⟩
    | readByte =>
      cases hcall
      refine carried_goRead h ?_ rfl rfl fun g hg => ?_
      · rw [node_readByte hpart hsome]
        split_ifs
        · exact ⟨0, by simp⟩
        · exact ⟨1, rfl⟩
      · rw [node_readByte hpart hg, fileCall]
        split_ifs
        · exact ⟨0, rfl, (add_zero _).symm⟩
        · exact ⟨1, rfl, rfl⟩
    | readAt len off =>
      cases hcall
      refine carried_goRead h ⟨0, by simp⟩ rfl rfl fun g hg => ⟨0, ?_, (add_zero _).symm⟩
      rw [fileCall, node_readAt hpart hg]
      split_ifs <;> rfl
    | dataLen =>
      cases hcall
      refine carried_goRead h ⟨0, by simp⟩ rfl rfl fun g hg => ⟨0, ?_, (add_zero _).symm⟩
      have hlen : g.len = all.dataLen.toNat := hg.len
      rw [fileCall, hlen, hpart.dataLen]
      rfl
    | writeTo bufs => cases hcall
    | write data =>
      have hin : n.writeOff + data.length + BlockSize < 2 ^ 63 := hok
      have hint : int64 (n.writeOff + data.length) = n.writeOff + data.length :=
        int64_eq (by omega) (by omega)
      refine carried_goWrite h hw (by omega) (congrArg some hint) (goCall_write h hint) (fun g => rfl)
        (fun g hg => ?_) hcall
      have hoff : n.writeOff = g.writeOff := hg.writeOff
      simp only [fileEvent, fileCall, Call.isWriteByte, Bool.false_eq_true, if_false, List.map_id,
        Handle.write, hoff]
      rfl
    | writeByte b =>
      have hin : n.writeOff + 1 + BlockSize < 2 ^ 63 := hok
      have hint : int64 (n.writeOff + ([b].length : ℕ)) = n.writeOff + ([b].length : ℕ) :=
        int64_eq (by omega) (by simp only [List.length_singleton]; omega)
      refine carried_goWrite h hw hw (congrArg some hint) (goCall_writeByte h hint) (fun g => rfl)
        (fun g hg => ?_) hcall
      have hoff : n.writeOff = g.writeOff := hg.writeOff
      simp only [fileEvent, fileCall, Call.isWriteByte, if_true, Handle.write, hoff]
      rfl
    | writeAt data off =>
      obtain ⟨h0, hin⟩ : 0 ≤ off ∧ off + data.length + BlockSize < 2 ^ 63 := hok
      have hint : int64 (off + data.length) = off + data.length := int64_eq (by omega) (by omega)
      refine carried_goWrite h h0 hw (congrArg some hint) (goCall_writeAt h h0 hint) (fun g => rfl)
        (fun g hg => ?_) hcall
      have hoff : n.writeOff = g.writeOff := hg.writeOff
      simp only [fileEvent, fileCall, Call.isWriteByte, Bool.false_eq_true, if_false, List.map_id,
        hoff]
      rfl

theorem carried_onExpandComplete {res : Option (Result UInt8)} (h : Tracks s all)
    (hs : s.step .onExpandComplete = some (s', res)) : Carried s all .onExpandComplete s' res := by
  obtain ⟨c, holder, mem⟩ := s
  cases holder with
  | hub => cases hs
  | rust r => cases hs
  | go n =>
    cases hs
    obtain ⟨hwait, hpart, hpos, hle⟩ := h.holder
    rw [hpart.toBehind.onExpandComplete h.rep]
    have hcap := hpart.capacity.trans hpart.capacity_le
    have hlen := hle.trans hpart.blocks.length_le
    refine .same h ⟨h.rep, h.readOff, h.writeOff, hwait,
      ⟨⟨h.rep.nonempty, List.prefix_rfl, h.rep.sequence⟩, hpart.dataLen, hcap⟩, hpos, hlen⟩
      fun g hg => ⟨rfl, hg, rfl⟩

end Go

/-! ## Rust nodes -/

section Rust

variable {c : BusConn} {r : Rust.ShmConnection} {chunks : List Chunk}

theorem agree_of_tracks (h : Tracks ⟨c, .rust r, mem⟩ all)
    (hmapped : ∀ b ∈ all.blocks, Rust.physical chunks b = some b) :
    Rust.Agree chunks all.header ⟨all, r.readPos, r.writePos, false⟩ r mem := by
  obtain ⟨-, hheader, hidle, hwritten⟩ := h.holder
  have hrep : Represents all mem := h.rep
  have hcons := Stripe.header_cons hrep.nonempty
  have hblk : Blk all.header := hrep.blk _ ((Stripe.mem_blocks hrep.nonempty).2 (.inl rfl))
  refine ⟨⟨?_, ?_, ?_, hrep.header_notMem, hmapped, hrep.dataLen⟩, ?_, hrep.header, hheader, hidle,
    rfl, rfl, hwritten⟩
  · rw [hrep.sequence]
    exact fits_iff.1 hrep.fits
  · refine ⟨all.header.1, all.header.2 :: encodeFrom all.header.1 all.blocks.tail, ?_, hblk.1⟩
    rw [← encode_cons hblk, ← hcons]
    exact hrep.sequence
  · rw [hcons]
    rfl
  · rw [hrep.sequence]
    exact (resolve_encode_of_ne_nil hrep.blk hrep.nonempty _).symm

theorem carried_rustRead {api : Rust.Api} {len : ℕ} (h : Tracks ⟨c, .rust r, mem⟩ all)
    (hmapped : ∀ b ∈ all.blocks, Rust.physical chunks b = some b)
    {r' : Rust.ShmConnection} {m : Memory} {o : Rust.Outcome}
    (ha : Rust.rustAccess chunks (r, mem) (.read api len) = some ((r', m), o)) :
    Carried ⟨c, .rust r, mem⟩ all (.access chunks (.read api len)) ⟨c, .rust r', m⟩
      (some (outcome o)) := by
  have hagree := agree_of_tracks h hmapped
  obtain ⟨n', c', data, hgo, hrust, hagree', hstripe, hwrite⟩ := hagree.read_step api len
  rw [hrust] at ha
  cases ha
  have hpart : Part all all := ⟨.refl h.rep, rfl, h.rep.dataLen⟩
  obtain ⟨hwait, hheader, hidle, hwritten⟩ := h.holder
  have hpos : r'.writePos = r.writePos := by
    have hoff : (r'.writePos : ℤ) = r.writePos := hagree'.writePos.symm.trans hwrite
    exact_mod_cast hoff
  have htracks : Tracks ⟨c, .rust r', mem⟩ all :=
    ⟨h.rep, Int.natCast_nonneg _, Int.natCast_nonneg _, hwait, hagree'.stripe, hagree'.idle,
      hpos ▸ hwritten⟩
  have href : State.refusal ⟨c, .rust r, mem⟩ (.access chunks (.read api len)) = none := rfl
  refine .same h htracks fun g hg => ?_
  have hread := node_read (n := ⟨all, r.readPos, r.writePos, false⟩) hpart hg len
  simp only [Rust.goAccess, hread] at hgo
  have hoff := hagree'.readPos
  have hview : ∀ k : ℕ, n'.readOff = r.readPos + k → Shows (State.view ⟨c, .rust r', mem⟩ all) mem
      (g.skip k) := by
    intro k hk
    have hnext : State.view ⟨c, .rust r', mem⟩ all = ⟨all, r.readPos + k, r.writePos⟩ := by
      simp only [State.view, State.readOff, State.writeOff, ← hoff, hk, hpos]
    rw [hnext]
    exact hg.skip k
  split_ifs at hgo with he
  · simp only [Option.some.injEq, Prod.mk.injEq, Rust.Outcome.bytes.injEq] at hgo
    obtain ⟨⟨rfl, -⟩, rfl⟩ := hgo
    have hfile : fileEvent g none (.access chunks (.read api len)) =
        (g.skip 0, some (.bytes [] none)) := by
      simp only [fileEvent, fileCall, if_pos he]
      rfl
    rw [href, hfile]
    exact ⟨rfl, hview 0 (add_zero _).symm, rfl⟩
  · simp only [Option.some.injEq, Prod.mk.injEq, Rust.Outcome.bytes.injEq] at hgo
    obtain ⟨⟨rfl, -⟩, rfl⟩ := hgo
    have hfile : fileEvent g none (.access chunks (.read api len)) =
        (g.skip (g.readAt len g.readOff).length,
          some (.bytes (g.readAt len g.readOff) none)) := by
      simp only [fileEvent, fileCall, if_neg he]
      rfl
    rw [href, hfile]
    exact ⟨rfl, hview _ rfl, rfl⟩

/-- `poll_write` and `write` store what the Go code stores. -/
theorem rust_writeFitting (h : Tracks ⟨c, .rust r, mem⟩ all)
    (hmapped : ∀ b ∈ all.blocks, Rust.physical chunks b = some b) {data : List UInt8}
    (hend : r.writePos + data.length ≤ all.capacity) :
    ∃ r', r.writeFitting chunks mem data = ((r', (all.writeAt mem data r.writePos).1.2), data.length) ∧
      r'.stripe.header = all.header ∧ r'.expansionRx = false ∧ r'.readPos = r.readPos ∧
      r'.writePos = r.writePos + data.length ∧
      r'.writePos ≤ (all.writeAt mem data r.writePos).1.1.dataLen.toNat := by
  have hagree := agree_of_tracks h hmapped
  obtain ⟨-, hheader, hidle, hwritten⟩ := h.holder
  have hrep : Represents all mem := h.rep
  obtain ⟨t, m, hrust, hth, hkeep, hloop⟩ := Rust.ShmConnection.writeFitting_eq hagree.leads hend
  rw [hheader] at hrust hth hkeep
  rw [hrep.header] at hrust
  have hlt := hrep.toWf.capacity_lt
  have hsize : (UInt32.ofNat (r.writePos + data.length)).toNat = r.writePos + data.length := by
    rw [UInt32.toNat_ofNat']
    omega
  have hgt : all.dataLen < .ofNat (r.writePos + data.length) ↔
      all.dataLen.toNat < r.writePos + data.length := by
    rw [UInt32.lt_iff_toNat_lt, hsize]
  have hgo : all.writeAt mem data r.writePos =
      (if 0 < data.length ∧ all.dataLen < .ofNat (r.writePos + data.length) then
        all.updateDataLen m (.ofNat (r.writePos + data.length)) else (all, m),
        data.length, none) := by
    rw [Stripe.writeAt, if_neg (by omega), if_neg (by simp only [BlockSize, Nat.cast_ofNat]; omega)]
    simp only [Int.toNat_natCast, hloop, gt_iff_lt]
  rw [hgo]
  refine ⟨{ r with stripe := t, writePos := r.writePos + data.length }, hrust.trans ?_, hth, hidle,
    rfl, rfl, ?_⟩
  · by_cases hraise : all.dataLen.toNat < r.writePos + data.length
    · rw [if_pos (hgt.2 hraise), if_pos ⟨by omega, hgt.2 hraise⟩]
      rfl
    · rw [if_neg fun hcon => hraise (hgt.1 hcon), if_neg fun hcon => hraise (hgt.1 hcon.2)]
  · by_cases hraise : all.dataLen.toNat < r.writePos + data.length
    · rw [if_pos ⟨by omega, hgt.2 hraise⟩]
      exact hsize.ge
    · rw [if_neg fun hcon => hraise (hgt.1 hcon.2)]
      exact not_lt.1 hraise

theorem shows_write {ro wo : ℤ} (h : Shows ⟨all, ro, wo⟩ mem g) (data : List UInt8) (h0 : 0 ≤ wo)
    (hend : wo + data.length ≤ all.capacity) :
    Shows ⟨(all.writeAt mem data wo).1.1, ro, wo + data.length⟩ (all.writeAt mem data wo).1.2
      (g.write data) := by
  have hoff : wo = g.writeOff := h.writeOff
  have hw := (h.writeAt h0 hend).2.advance data.length
  rw [show wo.toNat = g.writeOff by omega] at hw
  exact hw

/-- A write of a Rust node that has left the stripe `w.1`. -/
theorem carried_rustWritten {api : Rust.Api} {data : List UInt8} {w : Stripe × Memory}
    {r' : Rust.ShmConnection} (h : Tracks ⟨c, .rust r, mem⟩ all) (hrep : Represents w.1 w.2)
    (hblocks : w.1.blocks = all.blocks) (hend : r.writePos + data.length ≤ all.capacity)
    (hheader : r'.stripe.header = all.header) (hidle : r'.expansionRx = false)
    (hread : r'.readPos = r.readPos) (hwrite : r'.writePos = r.writePos + data.length)
    (hle : r'.writePos ≤ w.1.dataLen.toNat)
    (hshow : ∀ g, Shows ⟨all, r.readPos, r.writePos⟩ mem g →
      Shows ⟨w.1, r.readPos, r.writePos + data.length⟩ w.2 (g.write data)) :
    Carried ⟨c, .rust r, mem⟩ all (.access chunks (.write api data)) ⟨c, .rust r', w.2⟩
      (some (.wrote data.length none)) := by
  obtain ⟨⟨hbehind, hcount, hro, hwo⟩, -⟩ := h.holder
  have hheader' : w.1.header = all.header := by rw [Stripe.header, Stripe.header, hblocks]
  have hbehind' : Behind c.stripe w.1 := hbehind.trans (by rw [hblocks])
  have htracks : Tracks ⟨c, .rust r', w.2⟩ w.1 :=
    ⟨hrep, Int.natCast_nonneg _, Int.natCast_nonneg _, ⟨hbehind', hcount, hro, hwo⟩,
      hheader.trans hheader'.symm, hidle, hle⟩
  have hwf : all.Wf := h.rep.toWf
  refine ⟨w.1, (by rintro ⟨⟩), htracks, all, mem, .refl hwf, hblocks, fun g hg => ?_⟩
  have hoff : (r.writePos : ℤ) = g.writeOff := hg.writeOff
  have hview : State.view ⟨c, .rust r', w.2⟩ w.1 =
      ⟨w.1, r.readPos, r.writePos + data.length⟩ := by
    simp only [State.view, State.readOff, State.writeOff, hread, hwrite, Nat.cast_add]
  have hfile : fileEvent g none (.access chunks (.write api data)) =
      (g.write data, some (.wrote data.length none)) := by
    simp only [fileEvent, fileCall, List.map_id]
  have href : State.refusal ⟨c, .rust r, mem⟩ (.access chunks (.write api data)) = none := rfl
  dsimp only
  rw [hview, href, hfile]
  exact ⟨rfl, hshow g hg, fun i hi => overlay_of_le (by omega)⟩

theorem carried_rustWrite {api : Rust.Api} {data : List UInt8} (h : Tracks ⟨c, .rust r, mem⟩ all)
    (hmapped : ∀ b ∈ all.blocks, Rust.physical chunks b = some b)
    {r' : Rust.ShmConnection} {m : Memory} {o : Rust.Outcome}
    (ha : Rust.rustAccess chunks (r, mem) (.write api data) = some ((r', m), o)) :
    Carried ⟨c, .rust r, mem⟩ all (.access chunks (.write api data)) ⟨c, .rust r', m⟩
      (some (outcome o)) := by
  have hrep : Represents all mem := h.rep
  obtain ⟨-, hheader, hidle, -⟩ := h.holder
  have hmeta : r.stripe.getMeta chunks mem = (all.dataLen, all.blockCount) :=
    (agree_of_tracks h hmapped).getMeta_eq hheader rfl
  have hpos : all.blockCount ≠ 0 := by
    rw [hrep.blockCount]
    exact (List.length_pos_iff.2 hrep.nonempty).ne'
  have hcap : (all.blockCount - 1) * BlockSize = all.capacity := by
    rw [Stripe.capacity, List.length_tail, hrep.blockCount]
  -- otherwise the write fails or waits
  have hend : r.writePos + data.length ≤ all.capacity := by
    by_contra hfull
    rw [not_le] at hfull
    cases api with
    | poll =>
      simp only [Rust.rustAccess, Rust.ShmConnection.pollWrite, hidle, Bool.false_eq_true, if_false,
        Rust.ShmConnection.tryWrite_eq, hmeta, if_neg hpos, hcap, gt_iff_lt, if_pos hfull,
        reduceCtorEq] at ha
    | blocking =>
      simp only [Rust.rustAccess, Rust.ShmConnection.write, hmeta, if_neg hpos, hcap, gt_iff_lt,
        if_pos hfull, reduceCtorEq] at ha
  obtain ⟨r₁, hfit, hstripe, hidle', hread, hwrite, hle⟩ := rust_writeFitting h hmapped hend
  have hdone : Rust.rustAccess chunks (r, mem) (.write api data) =
      some ((r₁, (all.writeAt mem data r.writePos).1.2), .wrote data.length) := by
    have hnot : ¬ all.capacity < r.writePos + data.length := not_lt.2 hend
    cases api with
    | poll =>
      simp only [Rust.rustAccess, Rust.ShmConnection.pollWrite, hidle, Bool.false_eq_true, if_false,
        Rust.ShmConnection.tryWrite_eq, hmeta, if_neg hpos, hcap, gt_iff_lt, if_neg hnot, hfit]
    | blocking =>
      simp only [Rust.rustAccess, Rust.ShmConnection.write, hmeta, if_neg hpos, hcap, gt_iff_lt,
        if_neg hnot, hfit]
  rw [hdone] at ha
  cases ha
  have h0 : (0 : ℤ) ≤ r.writePos := Int.natCast_nonneg _
  exact carried_rustWritten h (hrep.writeAt data r.writePos)
    (writeAt_blocks hrep.toWf h0 (by omega)) hend hstripe hidle' hread hwrite hle
    fun g hg => shows_write hg data h0 (by exact_mod_cast hend)

theorem carried_access {a : Rust.Access} {res : Option (Result UInt8)} (h : Tracks s all)
    (hok : s.Allows (.access chunks a)) (hs : s.step (.access chunks a) = some (s', res)) :
    Carried s all (.access chunks a) s' res := by
  have hmapped : ∀ b ∈ all.blocks, Rust.physical chunks b = some b := blocks_eq h ▸ hok
  obtain ⟨c, holder, mem⟩ := s
  cases holder with
  | hub => cases hs
  | go n => cases hs
  | rust r =>
    obtain ⟨⟨⟨r', m⟩, o⟩, ha, hs⟩ := Option.map_eq_some_iff.1 hs
    cases hs
    cases a with
    | read api len => exact carried_rustRead h hmapped ha
    | write api data => exact carried_rustWrite h hmapped ha

end Rust

theorem carried_step {e : Event} {res : Option (Result UInt8)} (h : Tracks s all) (hok : s.Allows e)
    (hs : s.step e = some (s', res)) : Carried s all e s' res := by
  cases e with
  | call call alloc => exact carried_call h hok hs
  | next lang => exact carried_next h hs
  | goCall call => exact carried_goCall h hok hs
  | onExpandComplete => exact carried_onExpandComplete h hs
  | access chunks a => exact carried_access h hok hs
  | finish => exact carried_finish h hs
  | store b data => exact carried_store h hok hs

end Mmfg.Relay
