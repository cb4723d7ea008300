import Mmfg.Rust.Connection

/-!
# Chunks that arrive late, or never

The hub announces new chunks over the socket, while the queue entries that refer to them come
through shared memory.  A Go node waits for a chunk that is missing.  A Rust node passes over the
blocks in it, so that the bytes behind take their place, and a read for which no block is left
reports the end of data.  A chunk that could not be attached leaves no gap in the table, and all
later chunks are found one index too early.

`rust_copies_right` says when the bytes are the right ones: if the chunks of the header and of the
blocks in question are in their places, up to where the request is satisfied or no block further on
can be found at all.  If no chunk failed to attach, this is also necessary.
-/

namespace Mmfg.Rust

open File Shm

/-! ## The node's table -/

/-- A node with the stripe of one slot; `received` chunks have been announced to it. -/
structure NodeState where
  chunks : List Chunk
  received : ℕ
  stripe : Stripe

/-- A new chunk is announced and can be attached or not; the stripe is read or written, the memory
being what it is then. -/
inductive Event
  | newChunk (attached : Bool)
  | access (mem : Memory)

namespace NodeState

/-- The node after the handshake, which failed unless all of its chunks could be attached, when it
starts to process a slot. -/
def start (handshakeChunks : ℕ) (header : BlockId) : NodeState :=
  { chunks := (List.range handshakeChunks).map Chunk.mk
    received := handshakeChunks
    stripe := .new header }

/-- What an event does to the node's chunks. -/
def event (n : NodeState) : Event → NodeState
  | .newChunk attached =>
    { n with
      chunks := if attached then n.chunks ++ [⟨n.received⟩] else n.chunks
      received := n.received + 1 }
  | .access mem => { n with stripe := (n.stripe.refreshSequence n.chunks mem).getD n.stripe }

/-- The node after some events, in any order. -/
def run (handshakeChunks : ℕ) (header : BlockId) (events : List Event) : NodeState :=
  events.foldl event (start handshakeChunks header)

end NodeState

/-! ## What is right -/

/-- The places of the bytes in the segments. -/
def addresses (segments : List Segment) : List (BlockId × ℕ) :=
  segments.flatMap fun g => (List.range g.copyLen).map fun i => (g.block, g.innerOff + i)

/-- The bytes that `read_data` or `write_data` copies are those that `ReadAt` or `WriteAt` uses for
the same offsets, as many as it copies. -/
def CopiesRight (n : NodeState) (s : Shm.Stripe) (mem : Memory) (off want : ℕ) : Prop :=
  addresses (n.stripe.segments n.chunks mem off want) <+:
    addresses (viewLoop s.blocks want (off + BlockSize) want)

/-- A read below the data length does not report the end of data. -/
def ReadsData (n : NodeState) (s : Shm.Stripe) (mem : Memory) (off want : ℕ) : Prop :=
  off < s.dataLen.toNat → 0 < want → ∀ c : ShmConnection, c.stripe = n.stripe → c.readPos = off →
    (c.pollRead n.chunks mem want).2 ≠ [] ∧ (c.read n.chunks mem want).2 ≠ []

/-- The data blocks of a stripe from an offset on. -/
def blocksFrom (s : Shm.Stripe) (off : ℕ) : List BlockId := s.blocks.tail.drop (off / BlockSize)

/-- The header is in its place, and so are the blocks from the offset on until the request is
satisfied or no block further on is found. -/
def InPlace (chunks : List Chunk) (s : Shm.Stripe) (off want : ℕ) : Prop :=
  physical chunks s.header = some s.header ∧
    ∃ m, (∀ b ∈ (blocksFrom s off).take m, physical chunks b = some b) ∧
      (off % BlockSize + want ≤ m * BlockSize ∨
        ∀ b ∈ (blocksFrom s off).drop m, physical chunks b = none)

/-- The header is in its place, and the block in which the offset lies is found. -/
def Reachable (chunks : List Chunk) (s : Shm.Stripe) (off : ℕ) : Prop :=
  physical chunks s.header = some s.header ∧
    ∃ b ∈ (blocksFrom s off).head?, physical chunks b ≠ none

/-! ## The walk -/

section Walk

variable {phys : BlockId → Option BlockId} {blocks : List BlockId} {off n m : ℕ}

theorem walk_skip : walk phys blocks off n =
    walk phys (blocks.drop (off / BlockSize)) (off % BlockSize) n := by
  induction blocks generalizing off with
  | nil => rw [List.drop_nil, walk, walk]
  | cons b blocks ih =>
    by_cases hoff : off ≥ BlockSize
    · obtain ⟨k, rfl⟩ := Nat.exists_eq_add_of_le' hoff
      rw [walk, if_pos hoff, Nat.add_sub_cancel, ih, Nat.add_div_right _ (by decide),
        List.drop_succ_cons, Nat.add_mod_right]
    · rw [Nat.div_eq_of_lt (by omega), List.drop_zero, Nat.mod_eq_of_lt (by omega)]

theorem walk_cases (hoff : off < BlockSize) :
    (walk phys blocks off n = [] ∧ ∀ b ∈ blocks, phys b = none) ∨
      ∃ b ∈ blocks, ∃ p rest, phys b = some p ∧
        walk phys blocks off n = ⟨p, off, min n (BlockSize - off)⟩ :: rest := by
  induction blocks with
  | nil => exact .inl ⟨rfl, by simp⟩
  | cons b blocks ih =>
    rw [walk, if_neg (by omega)]
    cases hb : phys b with
    | some p => exact .inr ⟨b, by simp, p, _, hb, rfl⟩
    | none =>
      rcases ih with ⟨hnil, hnone⟩ | ⟨b', hb', p, rest, hp, hwalk⟩
      · refine .inl ⟨hnil, fun c hc => ?_⟩
        rcases List.mem_cons.1 hc with rfl | hc
        · exact hb
        · exact hnone c hc
      · exact .inr ⟨b', by simp [hb'], p, rest, hp, hwalk⟩

/-- In the blocks that are in their places the walk does not go wrong. -/
theorem walk_isPrefix (hoff : off < BlockSize) (hn : 0 < n)
    (hplace : ∀ b ∈ blocks.take m, phys b = some b)
    (hend : off + n ≤ m * BlockSize ∨ ∀ b ∈ blocks.drop m, phys b = none) :
    walk phys blocks off n <+: walk some blocks off n := by
  induction blocks generalizing off n m with
  | nil => exact List.prefix_rfl
  | cons b blocks ih =>
    cases m with
    | zero =>
      have hnone : ∀ c ∈ b :: blocks, phys c = none := hend.resolve_left (by omega)
      rcases @walk_cases phys (b :: blocks) off n hoff with ⟨hnil, -⟩ | ⟨c, hc, p, -, hp, -⟩
      · rw [hnil]
        exact List.nil_prefix
      · rw [hnone c hc] at hp
        cases hp
    | succ m =>
      rw [walk, walk, if_neg (by omega), if_neg (by omega), hplace b (by simp)]
      dsimp only
      split_ifs with hlast
      · exact List.prefix_rfl
      · rw [List.cons_prefix_cons]
        refine ⟨rfl, ih (m := m) (by decide) (by omega) (fun c hc => hplace c (by simp [hc])) ?_⟩
        exact hend.imp (fun h => by rw [Nat.succ_mul] at h; omega) fun h => by simpa using h

theorem addresses_cons (g : Segment) (segments : List Segment) :
    addresses (g :: segments) =
      (List.range g.copyLen).map (fun i => (g.block, g.innerOff + i)) ++ addresses segments :=
  List.flatMap_cons

theorem head?_addresses_cons {g : Segment} (hg : 0 < g.copyLen) (segments : List Segment) :
    (addresses (g :: segments)).head? = some (g.block, g.innerOff) := by
  obtain ⟨k, hk⟩ := Nat.exists_eq_succ_of_ne_zero (by omega : g.copyLen ≠ 0)
  rw [addresses_cons, hk, Nat.succ_eq_add_one, List.range_succ_eq_map]
  rfl

/-- If each block is in its place or not found, the walk goes wrong at the first block that is not
found but followed by one that is. -/
theorem exists_of_isPrefix (hphys : ∀ b ∈ blocks, phys b = none ∨ phys b = some b)
    (hnd : blocks.Nodup) (hoff : off < BlockSize) (hn : 0 < n)
    (h : addresses (walk phys blocks off n) <+: addresses (walk some blocks off n)) :
    ∃ m, (∀ b ∈ blocks.take m, phys b = some b) ∧
      (off + n ≤ m * BlockSize ∨ ∀ b ∈ blocks.drop m, phys b = none) := by
  induction blocks generalizing off n with
  | nil => exact ⟨0, by simp, .inr (by simp)⟩
  | cons b blocks ih =>
    have hrest := fun c hc => hphys c (List.mem_cons_of_mem b hc)
    have hcopy : 0 < min n (BlockSize - off) := by omega
    rcases hphys b (by simp) with hb | hb
    · -- `b` is not found
      refine ⟨0, by simp, .inr fun c hc => ?_⟩
      rcases List.mem_cons.1 hc with rfl | hc
      · exact hb
      by_contra hne
      rw [walk, walk, if_neg (by omega), if_neg (by omega), hb] at h
      dsimp only at h
      rcases @walk_cases phys blocks off n hoff with ⟨-, hnone⟩ | ⟨c', hc', p, rest, hp, hwalk⟩
      · exact hne (hnone c hc)
      · have hpc : p = c' := by
          rcases hrest c' hc' with h' | h' <;> rw [h'] at hp <;> cases hp
          rfl
        subst hpc
        obtain ⟨t, ht⟩ := h
        have hhead := congrArg List.head? ht
        rw [hwalk, List.head?_append, head?_addresses_cons hcopy, head?_addresses_cons hcopy] at hhead
        obtain ⟨rfl, -⟩ := Prod.mk.inj (Option.some.inj hhead)
        exact (List.nodup_cons.1 hnd).1 hc'
    · rw [walk, walk, if_neg (by omega), if_neg (by omega), hb] at h
      dsimp only at h
      split_ifs at h with hlast
      · exact ⟨1, by simpa using hb, .inl (by omega)⟩
      · rw [addresses_cons, addresses_cons, List.prefix_append_right_inj] at h
        obtain ⟨m, hm, hend⟩ := ih hrest hnd.of_cons (by decide) (by omega) h
        refine ⟨m + 1, fun c hc => ?_, ?_⟩
        · rcases List.mem_cons.1 hc with rfl | hc
          · exact hb
          · exact hm c hc
        · exact hend.imp (fun h => by rw [Nat.succ_mul]; omega) fun h => by simpa using h

end Walk

/-! ## The table along a run -/

theorem run_header (handshakeChunks : ℕ) (header : BlockId) (events : List Event) :
    (NodeState.run handshakeChunks header events).stripe.header = header := by
  induction events using List.reverseRecOn with
  | nil => rfl
  | append_singleton events e ih =>
    rw [NodeState.run, List.foldl_append] at *
    cases e with
    | newChunk attached => exact ih
    | access mem =>
      simp only [List.foldl_cons, List.foldl_nil, NodeState.event, Stripe.refreshSequence]
      cases physical _ _ with
      | none => exact ih
      | some b => exact ih

/-- If all chunks could be attached, each is at the index that is its number. -/
theorem run_chunks (handshakeChunks : ℕ) (header : BlockId) {events : List Event}
    (hall : ∀ attached, .newChunk attached ∈ events → attached = true) :
    (NodeState.run handshakeChunks header events).chunks =
      (List.range (NodeState.run handshakeChunks header events).received).map Chunk.mk := by
  induction events using List.reverseRecOn with
  | nil => rfl
  | append_singleton events e ih =>
    have ih := ih fun attached h => hall attached (by simp [h])
    rw [NodeState.run, List.foldl_append] at *
    cases e with
    | newChunk attached =>
      obtain rfl := hall attached (by simp)
      simp only [List.foldl_cons, List.foldl_nil, NodeState.event, if_true, List.range_succ,
        List.map_append, ← ih]
      rfl
    | access mem => exact ih

/-- In a table without gaps a block is in its place or not found. -/
theorem physical_of_inOrder (k : ℕ) (b : BlockId) :
    physical ((List.range k).map Chunk.mk) b = none ∨
      physical ((List.range k).map Chunk.mk) b = some b := by
  rw [physical, getChunk]
  split_ifs with hneg
  · exact .inl rfl
  · rw [List.getElem?_map]
    by_cases hk : (~~~b.1).toNatClampNeg < k
    · right
      have hcid : ~~~Int16.ofNat (~~~b.1).toNatClampNeg = b.1 := by
        rw [Int16.ofNat_toNatClampNeg _ (Int16.not_lt.1 hneg), Int16.not_not]
      rw [List.getElem?_range hk, Option.map_some, Option.map_some, blockAt, hcid]
    · left
      rw [List.getElem?_eq_none (by simpa using hk)]
      rfl

/-! ## The stripe of the hub -/

section Stripe

variable {s : Shm.Stripe} {mem : Memory} {chunks : List Chunk} {r : Stripe} {off want : ℕ}

theorem sequence_cons (hs : Represents s mem) : ∃ cid seq, s.sequence = cid :: seq ∧ cid < 0 := by
  have hblk := hs.blk s.header ((Stripe.mem_blocks hs.nonempty).2 (.inl rfl))
  refine ⟨s.header.1, s.header.2 :: encodeFrom s.header.1 s.blocks.tail, ?_, hblk.1⟩
  rw [hs.sequence, encode, Stripe.header_cons hs.nonempty, encodeFrom, if_pos]
  · rfl
  · intro h0
    exact absurd (h0 ▸ hblk.1) (by decide)

/-- With the header in its place, the node walks over the blocks of the hub's stripe. -/
theorem segments_eq_walk (hs : Represents s mem) (hr : r.header = s.header)
    (hplace : physical chunks s.header = some s.header) (hwant : 0 < want) :
    r.segments chunks mem off want =
      walk (physical chunks) (blocksFrom s off) (off % BlockSize) want := by
  obtain ⟨cid, seq, hcons, hcid⟩ := sequence_cons hs
  have hdec : (decodeHeader (mem r.header)).2.2 = s.sequence := by rw [hr, hs.header]
  have hlen : (decodeHeader (mem r.header)).2.2.length ≤ HeaderEntries := by
    rw [hdec, hs.sequence]
    exact hs.fits.length_encode
  have hrefresh := refreshSequence_eq (hr ▸ hplace) hlen
  rw [Stripe.segments, hrefresh, Option.getD_some, hdec, hcons, resolveSegments_eq hcid hwant 0,
    ← hcons, hs.sequence, resolve_encode hs.blk, walk_skip, Nat.add_div_right _ (by decide),
    Nat.add_mod_right, ← List.drop_tail]
  rfl

theorem viewLoop_eq_walk (hwant : 0 < want) :
    viewLoop s.blocks want (off + BlockSize) want =
      walk some (blocksFrom s off) (off % BlockSize) want := by
  rw [← walk_eq_viewLoop (fun _ _ => rfl) hwant, walk_skip, Nat.add_div_right _ (by decide),
    Nat.add_mod_right, ← List.drop_tail]
  rfl

theorem copiesRight_of_inPlace {n : NodeState} (hs : Represents s mem)
    (hr : n.stripe.header = s.header) (h : InPlace n.chunks s off want) :
    CopiesRight n s mem off want := by
  rw [CopiesRight]
  rcases Nat.eq_zero_or_pos want with rfl | hwant
  · rw [Stripe.segments, resolveSegments, if_pos (.inr rfl)]
    exact List.nil_prefix
  · obtain ⟨hheader, m, hplace, hend⟩ := h
    rw [segments_eq_walk hs hr hheader hwant, viewLoop_eq_walk hwant]
    obtain ⟨t, ht⟩ := walk_isPrefix (Nat.mod_lt _ (by decide)) hwant hplace hend
    rw [← ht, addresses, addresses, List.flatMap_append]
    exact List.prefix_append _ _

/-- A read below the data length, with the header in its place: what is walked over is read. -/
theorem read_eq_gather (hs : Represents s mem) {c : ShmConnection} (hr : c.stripe.header = s.header)
    (hplace : physical chunks s.header = some s.header) (hoff : c.readPos < s.dataLen.toNat)
    (hwant : 0 < want) :
    ∃ k, 0 < k ∧ (c.pollRead chunks mem want).2 = (c.read chunks mem want).2 ∧
      (c.read chunks mem want).2 =
        gather mem (walk (physical chunks) (blocksFrom s c.readPos) (c.readPos % BlockSize) k) := by
  have hmeta : (c.stripe.getMeta chunks mem).1 = s.dataLen := by
    have hdec := congrArg Prod.fst hs.header
    rw [Stripe.getMeta, hr, hplace]
    exact hdec
  have hk : 0 < min (s.dataLen.toNat - c.readPos) want := by omega
  refine ⟨_, hk, ?_, ?_⟩
  · simp only [ShmConnection.pollRead, ShmConnection.read, hmeta, if_neg hk.ne']
  · simp only [ShmConnection.read, hmeta, ge_iff_le, if_neg (not_le.2 hoff), Stripe.readData,
      segments_eq_walk hs hr hplace hk]

theorem gather_ne_nil {g : Segment} (hg : 0 < g.copyLen) (segments : List Segment) :
    gather mem (g :: segments) ≠ [] := by
  rw [gather, List.flatMap_cons]
  intro h
  have hlen := congrArg List.length (List.append_eq_nil_iff.1 h).1
  rw [length_window] at hlen
  exact hg.ne' hlen

/-- The read returns something if and only if some block further on is found. -/
theorem gather_walk_eq_nil_iff {phys : BlockId → Option BlockId} {blocks : List BlockId} {k : ℕ}
    (hoff : off < BlockSize) (hk : 0 < k) :
    gather mem (walk phys blocks off k) = [] ↔ ∀ b ∈ blocks, phys b = none := by
  rcases @walk_cases phys blocks off k hoff with ⟨hnil, hnone⟩ | ⟨b, hb, p, rest, hp, hwalk⟩
  · rw [hnil]
    exact ⟨fun _ => hnone, fun _ => rfl⟩
  · refine ⟨fun h => ?_, fun h => ?_⟩
    · rw [hwalk] at h
      exact absurd h (gather_ne_nil (by dsimp only; omega) rest)
    · rw [h b hb] at hp
      cases hp

theorem readsData_of_reachable {n : NodeState} (hs : Represents s mem)
    (hr : n.stripe.header = s.header) (h : Reachable n.chunks s off) : ReadsData n s mem off want := by
  rintro hoff hwant c hc rfl
  obtain ⟨hheader, b, hb, hfound⟩ := h
  obtain ⟨k, hk, hpoll, hread⟩ := read_eq_gather hs (hc ▸ hr) hheader hoff hwant
  have hne : (c.read n.chunks mem want).2 ≠ [] := by
    rw [hread, Ne, gather_walk_eq_nil_iff (Nat.mod_lt _ (by decide)) hk]
    exact fun hnone => hfound (hnone b (List.mem_of_head? hb))
  rw [hpoll]
  exact ⟨hne, hne⟩

/-- Without failures, what is right comes from chunks in their places. -/
theorem inPlace_of_right {n : NodeState} (hs : Represents s mem) (hr : n.stripe.header = s.header)
    (hphys : ∀ b, physical n.chunks b = none ∨ physical n.chunks b = some b)
    (hoff : off < s.dataLen.toNat) (hwant : 0 < want) (hcopies : CopiesRight n s mem off want)
    (hdata : ReadsData n s mem off want) :
    InPlace n.chunks s off want ∧ Reachable n.chunks s off := by
  obtain ⟨-, hread⟩ := hdata hoff hwant ⟨n.stripe, off, 0, false⟩ rfl rfl
  have hmod := Nat.mod_lt off (show BlockSize > 0 by decide)
  have hheader : physical n.chunks s.header = some s.header := by
    refine (hphys s.header).resolve_left fun hnone => hread ?_
    simp [ShmConnection.read, Stripe.getMeta, hr, hnone]
  have hnd : (blocksFrom s off).Nodup := hs.tail_nodup.sublist (List.drop_sublist _ _)
  rw [CopiesRight, segments_eq_walk hs hr hheader hwant, viewLoop_eq_walk hwant] at hcopies
  obtain ⟨m, hplace, hend⟩ :=
    exists_of_isPrefix (fun b _ => hphys b) hnd hmod hwant hcopies
  refine ⟨⟨hheader, m, hplace, hend⟩, hheader, ?_⟩
  -- something is read, so that not all blocks are missing and `m` is positive
  obtain ⟨k, hk, -, hgather⟩ := read_eq_gather (c := ⟨n.stripe, off, 0, false⟩) hs hr hheader hoff hwant
  rw [hgather, Ne, gather_walk_eq_nil_iff hmod hk] at hread
  cases hblocks : blocksFrom s off with
  | nil =>
    rw [hblocks] at hread
    exact absurd (by simp) hread
  | cons b blocks =>
    refine ⟨b, rfl, ?_⟩
    rw [hblocks] at hplace hend hread
    cases m with
    | zero => exact absurd (hend.resolve_left (by omega)) hread
    | succ m =>
      rw [hplace b (by simp)]
      exact Option.some_ne_none b

end Stripe

/-- Whatever the order in which a Rust node attaches chunks and uses a stripe of the hub, and
whichever of the chunks fail to attach: the bytes copied at an offset are the right ones if the
header and the blocks from there on are in their places, and a read below the data length reports no
end of data if its first block is found.  If no chunk fails to attach, this is also necessary. -/
theorem rust_copies_right (s : Shm.Stripe) (mem : Memory) (hs : Represents s mem)
    (handshakeChunks : ℕ) (events : List Event) (off want : ℕ) :
    (InPlace (NodeState.run handshakeChunks s.header events).chunks s off want →
      CopiesRight (NodeState.run handshakeChunks s.header events) s mem off want) ∧
    (Reachable (NodeState.run handshakeChunks s.header events).chunks s off →
      ReadsData (NodeState.run handshakeChunks s.header events) s mem off want) ∧
    ((∀ attached, .newChunk attached ∈ events → attached = true) → off < s.dataLen.toNat → 0 < want →
      (CopiesRight (NodeState.run handshakeChunks s.header events) s mem off want ∧
          ReadsData (NodeState.run handshakeChunks s.header events) s mem off want ↔
        InPlace (NodeState.run handshakeChunks s.header events).chunks s off want ∧
          Reachable (NodeState.run handshakeChunks s.header events).chunks s off)) := by
  have hr := run_header handshakeChunks s.header events
  refine ⟨copiesRight_of_inPlace hs hr, readsData_of_reachable hs hr, fun hall hoff hwant => ?_⟩
  refine ⟨fun h => inPlace_of_right hs hr (fun b => ?_) hoff hwant h.1 h.2, fun h =>
    ⟨copiesRight_of_inPlace hs hr h.1, readsData_of_reachable hs hr h.2⟩⟩
  rw [run_chunks handshakeChunks s.header hall]
  exact physical_of_inOrder _ b

/-- A stripe of the given blocks and data length. -/
def stripeOf (blocks : List BlockId) (dataLen : UInt32) : Shm.Stripe :=
  { allocStripe blocks with dataLen }

/-- A memory in which nothing but the header of that stripe has been written. -/
def memoryOf (blocks : List BlockId) (dataLen : UInt32) : Memory :=
  Function.update (fun _ _ => 0) (stripeOf blocks dataLen).header
    ((stripeOf blocks dataLen).updateHeader fun _ => 0)

theorem represents_stripeOf {blocks : List BlockId} {dataLen : UInt32} (hne : blocks ≠ [])
    (hvalid : ∀ b ∈ blocks, Valid b) (hnd : blocks.Nodup) (hfits : Fits blocks)
    (hlen : dataLen.toNat ≤ (stripeOf blocks dataLen).capacity) :
    Represents (stripeOf blocks dataLen) (memoryOf blocks dataLen) :=
  { nonempty := hne
    valid := hvalid
    nodup := hnd
    blockCount := rfl
    dataLen := hlen
    sequence := rfl
    fits := hfits
    header := by
      rw [memoryOf, Function.update_self]
      exact decodeHeader_update_of_le hfits.length_lt hfits.length_encode }

/-- A stripe over two chunks, the second of which has arrived. -/
theorem rust_copies_right_arrived :
    CopiesRight (NodeState.run 1 (-1, 256) [.newChunk true])
        (stripeOf [(-1, 256), (-2, 0), (-1, 257)] 5000)
        (memoryOf [(-1, 256), (-2, 0), (-1, 257)] 5000) 0 5000 ∧
      ReadsData (NodeState.run 1 (-1, 256) [.newChunk true])
        (stripeOf [(-1, 256), (-2, 0), (-1, 257)] 5000)
        (memoryOf [(-1, 256), (-2, 0), (-1, 257)] 5000) 0 5000 :=
  ((rust_copies_right (stripeOf [(-1, 256), (-2, 0), (-1, 257)] 5000)
    (memoryOf [(-1, 256), (-2, 0), (-1, 257)] 5000)
    (represents_stripeOf (by decide) (by decide) (by decide) (by decide) (by decide))
    1 [.newChunk true] 0 5000).2.2 (by simp) (by decide) (by decide)).2
    ⟨⟨by decide, 2, by decide, .inl (by decide)⟩, by decide, (-2, 0), rfl, by decide⟩

/-- Three ways to go wrong: the second chunk has not arrived, and a byte of the block behind is read
in place of the first; there is no block behind, and the read of data that is there reports the end
of data; the second chunk could not be attached, and the third is used in its place. -/
theorem rust_missing_chunk :
    (Represents (stripeOf [(-1, 256), (-2, 0), (-1, 257)] 5000)
        (memoryOf [(-1, 256), (-2, 0), (-1, 257)] 5000) ∧
      addresses ((NodeState.run 1 (-1, 256) []).stripe.segments (NodeState.run 1 (-1, 256) []).chunks
        (memoryOf [(-1, 256), (-2, 0), (-1, 257)] 5000) 0 1) = [((-1, 257), 0)] ∧
      addresses (viewLoop (stripeOf [(-1, 256), (-2, 0), (-1, 257)] 5000).blocks 1 (0 + BlockSize) 1) =
        [((-2, 0), 0)]) ∧
    (Represents (stripeOf [(-1, 256), (-2, 0)] 5) (memoryOf [(-1, 256), (-2, 0)] 5) ∧
      ((ShmConnection.new (-1, 256)).pollRead (NodeState.run 1 (-1, 256) []).chunks
        (memoryOf [(-1, 256), (-2, 0)] 5) 5).2 = []) ∧
    addresses ((NodeState.run 1 (-1, 256) [.newChunk false, .newChunk true]).stripe.segments
      (NodeState.run 1 (-1, 256) [.newChunk false, .newChunk true]).chunks
      (memoryOf [(-1, 256), (-2, 0)] 5) 0 1) = [((-3, 0), 0)] := by
  have h1 : Represents (stripeOf [(-1, 256), (-2, 0), (-1, 257)] 5000)
      (memoryOf [(-1, 256), (-2, 0), (-1, 257)] 5000) :=
    represents_stripeOf (by decide) (by decide) (by decide) (by decide) (by decide)
  have h2 : Represents (stripeOf [(-1, 256), (-2, 0)] 5) (memoryOf [(-1, 256), (-2, 0)] 5) :=
    represents_stripeOf (by decide) (by decide) (by decide) (by decide) (by decide)
  refine ⟨⟨h1, ?_, by decide⟩, ⟨h2, ?_⟩, ?_⟩
  · rw [segments_eq_walk h1 rfl (by decide) (by decide)]
    decide
  · obtain ⟨k, hk, hpoll, hread⟩ := @read_eq_gather _ _ [⟨0⟩] 5 h2 (.new (-1, 256)) rfl (by decide)
      (by decide) (by decide)
    refine hpoll.trans (hread.trans ?_)
    rw [gather_walk_eq_nil_iff (by decide) hk]
    decide
  · rw [segments_eq_walk h2 rfl (by decide) (by decide)]
    decide

end Mmfg.Rust
