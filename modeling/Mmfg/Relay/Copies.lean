import Mmfg.Codec.Refresh
import Mmfg.Relay.Basic

/-!
# Copies of a stripe

While a node has the stripe, there are up to three copies of it: that of the hub, that of the node and
the header block, which alone is up to date.  `Behind` says how a copy may differ from the header:
its blocks are the first ones of those in the header.  Below their end it makes no difference on which
copy a call is carried out.
-/

namespace Mmfg.Relay

open File Shm Conn

/-- A copy of the stripe `all` with the blocks that were there some time ago. -/
structure Behind (s all : Stripe) : Prop where
  nonempty : s.blocks ≠ []
  blocks : s.blocks <+: all.blocks
  sequence : s.sequence = encode s.blocks

variable {s all : Stripe} {mem : Memory}

theorem Behind.refl (h : Represents all mem) : Behind all all :=
  ⟨h.nonempty, List.prefix_rfl, h.sequence⟩

theorem Behind.trans {all' : Stripe} (h : Behind s all) (hb : all.blocks <+: all'.blocks) :
    Behind s all' :=
  ⟨h.nonempty, h.blocks.trans hb, h.sequence⟩

namespace Behind

theorem header_eq (h : Behind s all) : s.header = all.header := by
  obtain ⟨b, bs, hb⟩ := List.exists_cons_of_ne_nil h.nonempty
  obtain ⟨more, hmore⟩ := h.blocks
  rw [Stripe.header, Stripe.header, ← hmore, hb]
  rfl

theorem headerEntry_eq (h : Behind s all) (hrep : Represents all mem) :
    headerEntry s = all.header := by
  obtain ⟨b, bs, hb⟩ := List.exists_cons_of_ne_nil h.nonempty
  have hblk : Blk b := hrep.blk b (h.blocks.subset (by rw [hb]; exact List.mem_cons_self))
  rw [← h.header_eq, headerEntry, h.sequence, Stripe.header, hb, encode_cons hblk]
  rfl

/-- The header goes on where the copy ends. -/
theorem exists_extends (h : Behind s all) (hrep : Represents all mem) :
    ∃ new, s.blocks ++ new = all.blocks ∧ Extends s (mem all.header) new := by
  obtain ⟨new, hnew⟩ := h.blocks
  have hblk : ∀ b ∈ s.blocks, Blk b := fun b hb => hrep.blk b (h.blocks.subset hb)
  have hblk' : ∀ b ∈ new, Blk b := fun b hb => hrep.blk b (hnew ▸ List.mem_append_right _ hb)
  have hseq : all.sequence = s.sequence ++ encodeFrom (lastChunkID s.sequence) new := by
    rw [hrep.sequence, ← hnew, h.sequence]
    exact encode_append hblk new
  refine ⟨new, hnew, ?_, encodeFrom (lastChunkID s.sequence) new, ?_, ?_, ?_⟩
  · rw [hrep.header, h.sequence, resolve_encode hblk, ← List.length_append, hnew]
    exact hrep.blockCount
  · rw [hrep.header]
    exact hseq
  · rw [lastChunkID_eq]
    exact resolve_encodeFrom hblk' _
  · rintro rfl
    rfl

/-- `refreshStripe` brings the copy of the hub up to date. -/
theorem refresh_eq (h : Behind s all) (hrep : Represents all mem)
    (hcount : s.blockCount = s.blocks.length) : s.refresh (mem s.header) = all := by
  obtain ⟨new, -, hext⟩ := h.exists_extends hrep
  have hres : resolve 0 s.sequence = s.blocks := by
    rw [h.sequence]
    exact resolve_encode fun b hb => hrep.blk b (h.blocks.subset hb)
  have hall : resolve 0 all.sequence = all.blocks := by
    rw [hrep.sequence]
    exact resolve_encode hrep.blk
  rw [h.header_eq, hext.refresh_eq hres.symm (by rw [hres, hcount]), hrep.header, hall]

/-- `OnExpandComplete` gives a node the blocks that it misses. -/
theorem onExpandComplete (h : Behind s all) (hrep : Represents all mem) :
    Conn.onExpandComplete s mem = { s with blocks := all.blocks, sequence := all.sequence } := by
  obtain ⟨new, hnew, hext⟩ := h.exists_extends hrep
  rw [Conn.onExpandComplete, h.header_eq, hext.resolveFrom_eq, hnew, hrep.header]

end Behind

theorem processSlot_eq (hrep : Represents all mem) :
    processSlot mem all.header = ⟨all, 0, 0, false⟩ := by
  have hblocks : resolve all.header.1 all.sequence = all.blocks := by
    rw [hrep.sequence]
    exact resolve_encode_of_ne_nil hrep.blk hrep.nonempty _
  simp only [processSlot, hrep.header, hblocks]

/-! ## Reads and writes on a copy -/

/-- A copy that knows the data length, and has the blocks up to there. -/
structure Part (s all : Stripe) : Prop extends Behind s all where
  dataLen : s.dataLen = all.dataLen
  capacity : s.dataLen.toNat ≤ s.capacity

/-- More blocks make no difference to a write that ends before them. -/
theorem writeLoop_append {blocks more : List BlockId} {fuel off : ℕ} {p : List UInt8}
    (h : off + p.length ≤ blocks.length * BlockSize) :
    writeLoop (blocks ++ more) fuel mem off p = writeLoop blocks fuel mem off p := by
  induction fuel generalizing mem off p with
  | zero => rfl
  | succ fuel ih =>
    rw [writeLoop, writeLoop]
    split_ifs with hp
    · rfl
    · have hpos := List.length_pos_iff.2 hp
      have hidx : off / BlockSize < blocks.length := div_lt_of_lt (by omega)
      rw [List.getElem?_append_left hidx, List.getElem?_eq_getElem hidx]
      dsimp only
      rw [ih]
      rw [List.length_drop]
      omega

namespace Part

theorem capacity_le (h : Part s all) : s.capacity ≤ all.capacity := by
  have hlen := h.blocks.length_le
  rw [Stripe.capacity, Stripe.capacity, List.length_tail, List.length_tail]
  exact Nat.mul_le_mul_right _ (by omega)

theorem content_eq (h : Part s all) {i : ℕ} (hi : i < s.capacity) :
    s.content mem i = all.content mem i := by
  obtain ⟨more, hmore⟩ := h.blocks
  refine (flat_congr ?_ fun _ _ => rfl).symm
  rw [← hmore, getElem?_tail_of_append h.nonempty hi]

theorem readAt_eq (h : Part s all) (len : ℕ) (off : ℤ) :
    s.readAt mem len off = all.readAt mem len off := by
  have hlen := h.dataLen
  by_cases h0 : off < 0
  · rw [Stripe.readAt, Stripe.readAt, if_pos h0, if_pos h0]
  by_cases hend : off < s.dataLen.toNat
  · have hcap := h.capacity
    have hcap' : all.dataLen.toNat ≤ all.capacity := by
      rw [← hlen]
      exact hcap.trans h.capacity_le
    rw [Stripe.readAt_eq hcap (by omega) hend,
      Stripe.readAt_eq hcap' (by omega) (by rwa [← hlen]), ← hlen]
    refine Prod.ext (window_congr fun i _ hi => h.content_eq ?_) rfl
    omega
  · rw [Stripe.readAt, Stripe.readAt, if_neg h0, if_neg h0, if_pos (by omega), ← hlen,
      if_pos (by omega)]

theorem readByteAt_eq (h : Part s all) (off : ℤ) :
    s.readByteAt mem off = all.readByteAt mem off := by
  have hlen := h.dataLen
  by_cases h0 : off < 0
  · rw [Stripe.readByteAt, Stripe.readByteAt, if_pos h0, if_pos h0]
  by_cases hend : off < s.dataLen.toNat
  · have hcap := h.capacity
    have hcap' : all.dataLen.toNat ≤ all.capacity := by
      rw [← hlen]
      exact hcap.trans h.capacity_le
    rw [Stripe.readByteAt_eq hcap (by omega) hend,
      Stripe.readByteAt_eq hcap' (by omega) (by rwa [← hlen]), h.content_eq (by omega)]
  · rw [Stripe.readByteAt, Stripe.readByteAt, if_neg h0, if_neg h0, if_pos (by omega), ← hlen,
      if_pos (by omega)]

/-- A write within the copy, seen from both. -/
theorem writeAt_eq (h : Part s all) (hrep : Represents all mem) {p : List UInt8} {off : ℤ}
    (h0 : 0 ≤ off) (hend : off + p.length ≤ s.capacity) :
    ∃ d, (s.writeAt mem p off).1 = ({ s with dataLen := d }, (all.writeAt mem p off).1.2) ∧
      (all.writeAt mem p off).1.1 = { all with dataLen := d } ∧ d.toNat ≤ s.capacity := by
  obtain ⟨more, hmore⟩ := h.blocks
  have hcap := h.capacity_le
  have hlt := hrep.toWf.capacity_lt
  have hoff : off + BlockSize < 2 ^ 63 := hrep.toWf.off_lt (by omega)
  have htail : all.blocks.tail = s.blocks.tail ++ more := by
    rw [← hmore, List.tail_append_of_ne_nil h.nonempty]
  have hfit : s.fitting p off = p.length ∧ all.fitting p off = p.length := by
    rw [Stripe.fitting, Stripe.fitting]
    omega
  have hloop := @writeLoop_append mem s.blocks.tail more p.length off.toNat p (by
    unfold Stripe.capacity at hend
    omega)
  have hlen : ∀ n, all.newLen off.toNat n = s.newLen off.toNat n := by
    intro n
    rw [Stripe.newLen, Stripe.newLen, h.dataLen]
  refine ⟨s.newLen off.toNat p.length, ?_, ?_, ?_⟩
  · rw [Stripe.writeAt_eq h0 hoff, Stripe.writeAt_eq h0 hoff, hfit.1, hfit.2, htail, hloop, hlen,
      ← h.dataLen]
    dsimp only
    split_ifs with hsame
    · rw [hsame]
    · rw [Stripe.updateDataLen, Stripe.updateDataLen, h.header_eq]
  · rw [Stripe.writeAt_stripe h0 hoff, hfit.2, hlen]
  · have hle := Stripe.newLen_le h.capacity off p
    rwa [hfit.1] at hle

end Part

end Mmfg.Relay
