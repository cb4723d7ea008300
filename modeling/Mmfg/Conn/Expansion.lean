import Mmfg.Conn.Node

/-!
# Writes of a node that need more blocks

A `nodeConn` asks for expansions until the write fits, but its test reads the block count that it
decoded when the handler started, and `OnExpandComplete` does not renew that: once an expansion is
needed, no number of granted expansions ends the loop (`expandLoop_granted`).  A write that fits asks
for nothing, and the hub reads it back after the handoff.
-/

namespace Mmfg.Conn

open File Shm

/-! ## The answers of the hub -/

/-- The memory after the hub has granted `k` expansions of the stripe with header block `header`, with
the blocks `grants 0`, `grants 1`, … -/
def afterGrants (header : BlockId) (mem : Memory) (grants : ℕ → List BlockId) : ℕ → Memory
  | 0 => mem
  | k + 1 =>
    let m := afterGrants header mem grants k
    Function.update m header (expandHeader (m header) (grants k))

/-- The answers to the first `k` requests. -/
def granting (header : BlockId) (mem : Memory) (grants : ℕ → List BlockId) (k : ℕ) :
    List (Option Memory) :=
  (List.range k).map fun i => some (afterGrants header mem grants (i + 1))

/-- The expansions by two blocks that give room for `missing` more bytes. -/
def expansionsNeeded (missing : ℕ) : ℕ := (missing + (2 * BlockSize - 1)) / (2 * BlockSize)

/-- Where and what a call writes. -/
def Call.span (c : NodeConn) : Call → Option (ℤ × List UInt8)
  | .write p => some (c.writeOff, p)
  | .writeByte b => some (c.writeOff, [b])
  | .writeAt p off => some (off, p)
  | _ => none

/-- What a call that has written `p` returns. -/
def Call.wrote (p : List UInt8) : Call → Result UInt8
  | .writeByte _ => .done none
  | _ => .wrote p.length none

variable {c : NodeConn} {mem : Memory} {hub : Stripe} {granted : List BlockId} {needCap : ℤ}

/-- Once an expansion is needed, granted expansions do not end the loop. -/
theorem expandLoop_granted (h : needCap > userCap c.stripe) {answers : List (Option Memory)}
    (hall : ∀ a ∈ answers, a ≠ none) : NodeConn.expandLoop needCap answers c mem = none := by
  induction answers generalizing c mem with
  | nil => rw [NodeConn.expandLoop, if_pos h]
  | cons a as ih =>
    cases a with
    | none => exact absurd rfl (hall none List.mem_cons_self)
    | some m =>
      rw [NodeConn.expandLoop, if_pos h]
      refine ih ?_ fun a ha => hall a (List.mem_cons_of_mem _ ha)
      -- the block count, and with it the capacity, stays
      exact h

theorem granting_ne_none {header : BlockId} {grants : ℕ → List BlockId} {k : ℕ} :
    ∀ a ∈ granting header mem grants k, a ≠ none := by
  intro a ha
  obtain ⟨i, -, rfl⟩ := List.mem_map.1 ha
  exact Option.some_ne_none _

/-- A write that needs an expansion does not return while expansions are granted. -/
theorem call_granted {call : Call} {off : ℤ} {p : List UInt8} (hspan : call.span c = some (off, p))
    (h0 : 0 ≤ off) (hlim : off + p.length ≤ StripeDataSizeLimit)
    (hfull : userCap c.stripe < off + p.length) {answers : List (Option Memory)}
    (hall : ∀ a ∈ answers, a ≠ none) : c.call mem answers call = none := by
  have hlimit : StripeDataSizeLimit = 2097152 := rfl
  have hint : int64 (off + p.length) = off + p.length := int64_eq (by omega) (by omega)
  have hprep : c.prepare mem (int64 (off + p.length)) answers = none := by
    rw [hint, NodeConn.prepare, if_neg (by omega)]
    exact expandLoop_granted hfull hall
  cases call with
  | write q =>
    cases hspan
    simp only [NodeConn.call, NodeConn.write, NodeConn.writeAt, hprep, Option.map_none]
  | writeByte b =>
    cases hspan
    rw [List.length_singleton, Nat.cast_one] at hprep
    simp only [NodeConn.call, NodeConn.writeByte, hprep, Option.map_none]
  | writeAt q off' =>
    cases hspan
    simp only [NodeConn.call, NodeConn.writeAt, hprep, Option.map_none]
  | _ => cases hspan

/-! ## Writes that fit -/

/-- The connection of a node to a stripe of the hub, whose own copy is `hub`; the blocks `granted` are
in the header only. -/
structure OnStripe (c : NodeConn) (mem : Memory) (hub : Stripe) (granted : List BlockId) : Prop where
  good : Shm.Good ⟨hub, mem hub.header, granted⟩
  nodup : (hub.blocks ++ granted).Nodup
  nonempty : hub.blocks ≠ []
  blocks : c.stripe.blocks <+: hub.blocks ++ granted
  count : c.stripe.blockCount ≤ c.stripe.blocks.length
  pos : 1 ≤ c.stripe.blockCount
  length : c.stripe.dataLen = (decodeHeader (mem hub.header)).1
  dataLen : c.stripe.dataLen.toNat ≤ c.stripe.capacity

/-- `processSlot` gives the handler such a connection. -/
theorem onStripe_processSlot (hgood : Shm.Good ⟨hub, mem hub.header, granted⟩)
    (hnd : (hub.blocks ++ granted).Nodup) (hne : hub.blocks ≠ [])
    (hlen : (decodeHeader (mem hub.header)).1.toNat ≤
      (hub.blocks ++ granted).tail.length * BlockSize) (readOff writeOff : ℤ) (failed : Bool) :
    OnStripe ⟨(processSlot mem hub.header).stripe, readOff, writeOff, failed⟩ mem hub granted := by
  have hheader : (decodeHeader (mem hub.header)).2 =
      ((hub.blocks ++ granted).length, encode (hub.blocks ++ granted)) := hgood.header
  have hall : hub.blocks ++ granted ≠ [] := fun he => hne (List.append_eq_nil_iff.1 he).1
  have hblocks : (processSlot mem hub.header).stripe.blocks = hub.blocks ++ granted := by
    change resolve hub.header.1 (decodeHeader (mem hub.header)).2.2 = _
    rw [hheader]
    exact resolve_encode_of_ne_nil hgood.blk hall _
  have hcount : (processSlot mem hub.header).stripe.blockCount = (hub.blocks ++ granted).length :=
    congrArg Prod.fst hheader
  refine ⟨hgood, hnd, hne, ?_, ?_, ?_, rfl, ?_⟩
  · change (processSlot mem hub.header).stripe.blocks <+: _
    rw [hblocks]
  · change (processSlot mem hub.header).stripe.blockCount ≤
      (processSlot mem hub.header).stripe.blocks.length
    rw [hblocks, hcount]
  · change 1 ≤ (processSlot mem hub.header).stripe.blockCount
    rw [hcount]
    exact List.length_pos_iff.2 hall
  · change (decodeHeader (mem hub.header)).1.toNat ≤
      (processSlot mem hub.header).stripe.blocks.tail.length * BlockSize
    rw [hblocks]
    exact hlen

namespace OnStripe

theorem ne_nil (h : OnStripe c mem hub granted) : c.stripe.blocks ≠ [] :=
  List.length_pos_iff.1 (h.pos.trans h.count)

theorem header_eq (h : OnStripe c mem hub granted) : c.stripe.header = hub.header := by
  obtain ⟨b, bs, hb⟩ := List.exists_cons_of_ne_nil h.ne_nil
  obtain ⟨b', bs', hb'⟩ := List.exists_cons_of_ne_nil h.nonempty
  obtain ⟨more, hmore⟩ := h.blocks
  rw [hb, hb'] at hmore
  rw [Stripe.header, Stripe.header, hb, hb']
  exact (List.cons.inj hmore).1

theorem nodup_blocks (h : OnStripe c mem hub granted) : c.stripe.blocks.Nodup :=
  h.nodup.sublist h.blocks.sublist

theorem userCap_le (h : OnStripe c mem hub granted) : userCap c.stripe ≤ c.stripe.capacity := by
  have hcount := h.count
  have hpos := h.pos
  have hle : c.stripe.blockCount - 1 ≤ c.stripe.blocks.length - 1 := by omega
  have hmul := Nat.mul_le_mul_right BlockSize hle
  have hcast : userCap c.stripe = ((c.stripe.blockCount - 1 : ℕ) : ℤ) * BlockSize := by
    rw [userCap, Nat.cast_sub hpos, Nat.cast_one]
  rw [hcast, Stripe.capacity, List.length_tail]
  exact_mod_cast hmul

theorem flat_eq (h : OnStripe c mem hub granted) (m : Memory) {i : ℕ} (hi : i < c.stripe.capacity) :
    flat m (hub.blocks ++ granted).tail i = c.stripe.content m i := by
  obtain ⟨more, hmore⟩ := h.blocks
  refine flat_congr ?_ fun _ _ => rfl
  rw [← hmore, List.tail_append_of_ne_nil h.ne_nil,
    List.getElem?_append_left (div_lt_of_lt hi)]

end OnStripe

theorem readAt_fst {s : Stripe} {len : ℕ} {off : ℤ} (hcap : s.dataLen.toNat ≤ s.capacity)
    (h0 : 0 ≤ off) (hend : len = 0 ∨ off + len ≤ s.dataLen.toNat) :
    (s.readAt mem len off).1 = window (s.content mem) off.toNat len := by
  by_cases hlt : off < s.dataLen.toNat
  · rw [Stripe.readAt_eq hcap h0 hlt, show min len (s.dataLen.toNat - off.toNat) = len by omega]
  · obtain rfl : len = 0 := by omega
    rw [Stripe.readAt, if_neg (by omega), if_pos (by omega), window_zero]

section Fits

variable {off : ℤ} {p : List UInt8} (h : OnStripe c mem hub granted) (h0 : 0 ≤ off)
  (hlim : off + p.length ≤ StripeDataSizeLimit) (hfit : off + p.length ≤ userCap c.stripe)

include h h0 hlim hfit

theorem dataLen_written :
    (c.stripe.writeAt mem p off).1.1.dataLen.toNat ≤ (c.stripe.writeAt mem p off).1.1.capacity ∧
      (p.length = 0 ∨ off + p.length ≤ (c.stripe.writeAt mem p off).1.1.dataLen.toNat) := by
  have hlimit : StripeDataSizeLimit = 2097152 := rfl
  have hblock : BlockSize = 4096 := rfl
  have hcap := h.userCap_le
  have hdata := h.dataLen
  have hfitting : c.stripe.fitting p off = p.length := by
    rw [Stripe.fitting]
    omega
  rw [Stripe.writeAt_stripe h0 (by omega), hfitting]
  change (c.stripe.newLen off.toNat p.length).toNat ≤ c.stripe.capacity ∧
    (_ ∨ _ ≤ ((c.stripe.newLen off.toNat p.length).toNat : ℤ))
  rw [Stripe.toNat_newLen (by omega)]
  split_ifs <;> omega

theorem content_written : window ((c.stripe.writeAt mem p off).1.1.content
    (c.stripe.writeAt mem p off).1.2) off.toNat p.length = p := by
  have hlimit : StripeDataSizeLimit = 2097152 := rfl
  have hblock : BlockSize = 4096 := rfl
  have hcap := h.userCap_le
  exact Stripe.window_writeAt_of_fits h.ne_nil h.nodup_blocks h0 (by omega) (by omega)

theorem node_reads_back :
    ((c.stripe.writeAt mem p off).1.1.readAt (c.stripe.writeAt mem p off).1.2 p.length off).1 = p := by
  obtain ⟨hlen, hend⟩ := dataLen_written h h0 hlim hfit
  rw [readAt_fst hlen h0 hend]
  exact content_written h h0 hlim hfit

omit hfit in
theorem header_written :
    Shm.Good ⟨hub, (c.stripe.writeAt mem p off).1.2 hub.header, granted⟩ ∧
      (decodeHeader ((c.stripe.writeAt mem p off).1.2 hub.header)).1 =
        (c.stripe.writeAt mem p off).1.1.dataLen := by
  have hlimit : StripeDataSizeLimit = 2097152 := rfl
  have hblock : BlockSize = 4096 := rfl
  have hheader := @Stripe.writeAt_header mem p c.stripe off h0 (by omega)
    (Stripe.header_notMem_tail h.ne_nil h.nodup_blocks)
  rw [h.header_eq] at hheader
  rw [hheader, Stripe.writeAt_stripe h0 (by omega)]
  have hgood := h.good
  split_ifs with hsame
  · exact ⟨hgood, by rw [hsame]; exact h.length.symm⟩
  · rw [decodeHeader_putDataLen]
    refine ⟨⟨hgood.blk, hgood.sequence, hgood.blockCount, hgood.fits, ?_, hgood.headerFits⟩, rfl⟩
    rw [decodeHeader_putDataLen]
    exact hgood.header

theorem hub_reads_back :
    ((hub.refresh ((c.stripe.writeAt mem p off).1.2 hub.header)).readAt
      (c.stripe.writeAt mem p off).1.2 p.length off).1 = p := by
  obtain ⟨hgood, hdec⟩ := header_written h h0 hlim
  obtain ⟨hblocks, hmeta⟩ := hgood.refresh_eq
  have hdataLen : (hub.refresh ((c.stripe.writeAt mem p off).1.2 hub.header)).dataLen =
      (c.stripe.writeAt mem p off).1.1.dataLen := (congrArg Prod.fst hmeta).trans hdec
  obtain ⟨hlen, hend⟩ := dataLen_written h h0 hlim hfit
  have hcap : (c.stripe.writeAt mem p off).1.1.capacity = c.stripe.capacity := by
    obtain ⟨n, hn⟩ := @Stripe.exists_writeAt_stripe mem p c.stripe off
    rw [hn]
    rfl
  have hle : c.stripe.capacity ≤
      (hub.refresh ((c.stripe.writeAt mem p off).1.2 hub.header)).capacity := by
    rw [Stripe.capacity, Stripe.capacity, show (hub.refresh _).blocks = _ from hblocks]
    have := h.blocks.length_le
    simp only [List.length_tail]
    exact Nat.mul_le_mul_right _ (by omega)
  rw [readAt_fst (by rw [hdataLen]; omega) h0 (by rw [hdataLen]; exact hend)]
  refine Eq.trans (window_congr fun i hi1 hi2 => ?_) (content_written h h0 hlim hfit)
  have hcapacity := h.userCap_le
  rw [Stripe.content, show (hub.refresh _).blocks = _ from hblocks, h.flat_eq _ (by omega)]
  obtain ⟨n, hn⟩ := @Stripe.exists_writeAt_stripe mem p c.stripe off
  rw [hn]
  rfl

end Fits

/-! ## Expansions that are asked for -/

/-- The call ends after the expansions that it needs; it has written everything, and node and hub read
it back. -/
def Completes (c : NodeConn) (mem : Memory) (hub : Stripe) (grants : ℕ → List BlockId) (call : Call)
    (off : ℤ) (p : List UInt8) : Prop :=
  let needed := expansionsNeeded (off + p.length - userCap c.stripe).toNat
  (∀ j < needed, c.call mem (granting hub.header mem grants j) call = none) ∧
  ∃ c' m, c.call mem (granting hub.header mem grants needed) call = some ((c', m), call.wrote p) ∧
    (c'.readAt m p.length off).1 = p ∧ ((hub.refresh (m hub.header)).readAt m p.length off).1 = p

/-- Against a hub that grants every expansion, a write of a node completes if and only if it needs
none. -/
theorem node_write_completes_iff (h : OnStripe c mem hub granted) (grants : ℕ → List BlockId)
    {call : Call} {off : ℤ} {p : List UInt8} (hspan : call.span c = some (off, p)) (h0 : 0 ≤ off)
    (hlim : off + p.length ≤ StripeDataSizeLimit) :
    Completes c mem hub grants call off p ↔ off + p.length ≤ userCap c.stripe := by
  constructor
  · rintro ⟨-, c', m, hcall, -, -⟩
    by_contra hfull
    rw [call_granted hspan h0 hlim (by omega) granting_ne_none] at hcall
    cases hcall
  · intro hfit
    have hlimit : StripeDataSizeLimit = 2097152 := rfl
    have hle : off + p.length ≤ min c.stripe.capacity StripeDataSizeLimit := by
      have := h.userCap_le
      omega
    have hzero : expansionsNeeded (off + p.length - userCap c.stripe).toNat = 0 := by
      rw [expansionsNeeded, Int.toNat_of_nonpos (by omega)]
      rfl
    have hall : (c.stripe.writeAt mem p off).2 = (p.length, none) := writeAt_within hle h0
    -- the call is a write to the stripe
    have hcall : ∃ c' : NodeConn, c'.stripe = (c.stripe.writeAt mem p off).1.1 ∧
        c.call mem [] call = some ((c', (c.stripe.writeAt mem p off).1.2), call.wrote p) := by
      cases call with
      | write q =>
        cases hspan
        refine ⟨{ c with stripe := _, writeOff := c.writeOff + p.length }, rfl, ?_⟩
        rw [NodeConn.call, node_write_within mem hfit hle h0 rfl rfl, Option.map_some]
        rfl
      | writeByte b =>
        cases hspan
        refine ⟨{ c with stripe := _ }, rfl, ?_⟩
        rw [NodeConn.call, node_writeByte_within mem h0 hfit hle, Option.map_some, hall]
        rfl
      | writeAt q off' =>
        cases hspan
        refine ⟨{ c with stripe := _ }, rfl, ?_⟩
        rw [NodeConn.call, node_writeAt_within mem (by omega) hfit hle rfl, Option.map_some, hall]
        rfl
      | _ => cases hspan
    obtain ⟨c', hstripe, hcall⟩ := hcall
    refine ⟨fun j hj => absurd hj (by omega), c', (c.stripe.writeAt mem p off).1.2, ?_, ?_,
      hub_reads_back h h0 hlim hfit⟩
    · rw [hzero]
      exact hcall
    · rw [NodeConn.readAt, hstripe]
      exact node_reads_back h h0 hlim hfit

/-- A stripe of two blocks, as the hub made it, and the node's connection to it. -/
def twoBlockStripe : Stripe × Memory := Stripe.create [(-1, 256), (-1, 257)] fun _ _ => 0

/-- A node's connection for a stripe of two blocks. -/
def twoBlockConn : NodeConn := processSlot twoBlockStripe.2 twoBlockStripe.1.header

theorem onStripe_twoBlocks : OnStripe twoBlockConn twoBlockStripe.2 twoBlockStripe.1 [] := by
  refine onStripe_processSlot ?_ (by decide) (by decide) (by decide +kernel) 0 0 false
  have hheader : twoBlockStripe.2 twoBlockStripe.1.header =
      (allocStripe [(-1, 256), (-1, 257)]).updateHeader fun _ => 0 :=
    @Function.update_self BlockId (fun _ => Bytes) _ (-1, 256) _ fun _ _ => 0
  rw [hheader]
  exact good_request (by decide) (by decide) _

/-- Three bytes at offset 4000 fit into a stripe of two blocks. -/
theorem node_write_completes_twoBlocks :
    Completes twoBlockConn twoBlockStripe.2 twoBlockStripe.1
      (fun k => [(-1, 258 + 2 * Int16.ofNat k), (-1, 259 + 2 * Int16.ofNat k)])
      (.writeAt [1, 2, 3] 4000) 4000 [1, 2, 3] :=
  (node_write_completes_iff onStripe_twoBlocks _ rfl (by decide) (by decide)).2 (by decide +kernel)

/-- One byte at offset 4096 needs one expansion; the call does not return, however many are granted. -/
theorem node_write_never_returns :
    expansionsNeeded (4096 + 1 - userCap twoBlockConn.stripe).toNat = 1 ∧
    ∀ (grants : ℕ → List BlockId) (k : ℕ), twoBlockConn.call twoBlockStripe.2
      (granting twoBlockStripe.1.header twoBlockStripe.2 grants k) (.writeAt [1] 4096) = none := by
  refine ⟨by decide +kernel, fun grants k => ?_⟩
  exact call_granted rfl (by decide) (by decide) (by decide +kernel) granting_ne_none

end Mmfg.Conn
