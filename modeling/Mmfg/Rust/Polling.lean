import Mmfg.Lib.Schedule
import Mmfg.Conn.Expansion
import Mmfg.Rust.Connection

/-!
# Polls of a write that needs more blocks

`poll_write` asks for one expansion at a time and keeps the receiver of the answer; a poll that finds
no answer returns at once, one that finds it goes on to the next test of the capacity.  Its steps
alternate in any order with those of the hub, which grants a request and rewrites the header, and of
the event loop of the node, which passes the answer on to the waiter.

Whatever the schedule, the write makes the requests that it needs and no other, one after the other,
and stores its buffer; a schedule that lets everyone act again and again gets it to its end
(`poll_write_completes`).
-/

namespace Mmfg.Rust

open File Shm Conn

/-- Where a task stands: outside of `poll_write`, at its beginning (also in the call that it makes to
itself), past the receiver, between `register_waiter` and the push, and behind its last return. -/
inductive PollPC
  | idle
  | entry
  | check
  | push
  | done (result : Except ConnError ℕ)

/-- A task that polls a write.  `answer` is what was sent through the channel whose receiver the
connection keeps, and `waiter` says whether its sender is in the map of waiters.  The requests that
were pushed are handled by the hub in order, and its answers received by the node in order. -/
structure Polling where
  conn : ShmConnection
  mem : Memory
  pc : PollPC
  answer : Option Bool
  waiter : Bool
  pushed : ℕ
  handled : ℕ
  received : ℕ

/-- Who acts: the task, the hub, and the event loop of the node. -/
inductive Party
  | task
  | hub
  | worker

namespace Polling

variable (chunks : List Chunk) (buf : List UInt8) (grants : ℕ → List BlockId)

/-- A connection before its first poll. -/
def new (c : ShmConnection) (mem : Memory) : Polling :=
  { conn := c, mem, pc := .idle, answer := none, waiter := false, pushed := 0, handled := 0,
    received := 0 }

/-- The next step of the task, which polls again whenever a poll has returned without a result. -/
def task (s : Polling) : Polling :=
  match s.pc with
  | .idle => { s with pc := .entry }
  | .entry =>
    if s.conn.expansionRx then
      match s.answer with
      | none => { s with pc := .idle }
      | some true => { s with conn := { s.conn with expansionRx := false }, pc := .check }
      | some false =>
        { s with
          conn := { s.conn with expansionRx := false }
          pc := .done (.error .expansionFailed) }
    else { s with pc := .check }
  | .check =>
    let blkCnt := (s.conn.stripe.getMeta chunks s.mem).2
    if blkCnt = 0 then { s with pc := .done (.error .panic) }
    else if s.conn.writePos + buf.length > (blkCnt - 1) * BlockSize then
      { s with answer := none, waiter := true, pc := .push }
    else
      let w := s.conn.writeFitting chunks s.mem buf
      { s with conn := w.1.1, mem := w.1.2, pc := .done (.ok w.2) }
  | .push =>
    { s with
      conn := { s.conn with expansionRx := true }
      pc := .entry
      pushed := s.pushed + 1 }
  | .done _ => s

/-- `handleExpandRequest`, with the blocks that it allocates. -/
def hub (s : Polling) : Polling :=
  if s.handled < s.pushed then
    let header := s.conn.stripe.header
    { s with
      mem := Function.update s.mem header (expandHeader (s.mem header) (grants s.handled))
      handled := s.handled + 1 }
  else s

/-- The event loop, on `CMD_EXPAND_READY`. -/
def worker (s : Polling) : Polling :=
  if s.received < s.handled then
    { s with
      answer := if s.waiter then some true else s.answer
      waiter := false
      received := s.received + 1 }
  else s

/-- A step of one of the parties. -/
def step (s : Polling) : Party → Polling
  | .task => s.task chunks buf
  | .hub => s.hub grants
  | .worker => s.worker

/-! ## Single polls -/

/-- The task stands where `poll_write` has returned with `r`. -/
def Shows (s : Polling) (r : (ShmConnection × Memory) × Poll (Except ConnError ℕ)) : Prop :=
  (s.conn, s.mem) = r.1 ∧ match r.2 with
    | .pending => s.pc = .idle
    | .ready x => s.pc = .done x

/-- Requests that are granted before the receiver is polled, from grant `i` on. -/
def atOnce (header : BlockId) : ℕ → ℕ → Memory → List Request
  | 0, _, _ => []
  | n + 1, i, mem =>
    let m := Function.update mem header (expandHeader (mem header) (grants i))
    .sent (.granted m) :: atOnce header n (i + 1) m

/-- What polling the receiver gives. -/
def awaited (s : Polling) : Answer :=
  match s.answer with
  | none => .pending
  | some true => .granted s.mem
  | some false => .refused

variable {chunks buf grants} {s : Polling}

/-- The test finds a block count, and that the write does not fit. -/
def Full (chunks : List Chunk) (buf : List UInt8) (c : ShmConnection) (mem : Memory) : Prop :=
  (c.stripe.getMeta chunks mem).2 ≠ 0 ∧
    c.writePos + buf.length > ((c.stripe.getMeta chunks mem).2 - 1) * BlockSize

/-- A write that fits makes no request. -/
theorem shows_of_not_full (requests : List Request) (hpc : s.pc = .check)
    (hnot : ¬ Full chunks buf s.conn s.mem) :
    (s.task chunks buf).Shows (s.conn.tryWrite chunks buf requests s.mem) := by
  rw [task, hpc, ShmConnection.tryWrite_eq]
  dsimp only
  by_cases h0 : (s.conn.stripe.getMeta chunks s.mem).2 = 0
  · rw [if_pos h0, if_pos h0]
    exact ⟨rfl, rfl⟩
  · have hfit := fun hfull => hnot ⟨h0, hfull⟩
    rw [if_neg h0, if_neg h0, if_neg hfit, if_neg hfit]
    exact ⟨rfl, rfl⟩

/-- Past the receiver, the steps of the task and of those who answer at once are `tryWrite`. -/
theorem exists_turns_tryWrite (n : ℕ) (hpc : s.pc = .check) (hrx : s.conn.expansionRx = false)
    (hh : s.handled = s.pushed) (hr : s.received = s.pushed) : ∃ turns : List Party,
    (turns.foldl (step chunks buf grants) s).Shows
      (s.conn.tryWrite chunks buf (atOnce grants s.conn.stripe.header n s.handled s.mem) s.mem) := by
  induction n generalizing s with
  | zero =>
    by_cases hfull : Full chunks buf s.conn s.mem
    · -- the third step finds no answer and returns
      refine ⟨[.task, .task, .task], ?_⟩
      simp only [List.foldl_cons, List.foldl_nil, step, atOnce, ShmConnection.tryWrite_eq]
      simp [task, hpc, hfull.1, hfull.2, Shows]
    · exact ⟨[.task], shows_of_not_full _ hpc hfull⟩
  | succ n ih =>
    by_cases hfull : Full chunks buf s.conn s.mem
    · obtain ⟨⟨stripe, readPos, writePos, rx⟩, mem, pc, a, w, i, j, k⟩ := s
      cases hpc
      cases hrx
      cases hh
      cases hr
      obtain ⟨turns, hturns⟩ := @ih ⟨⟨stripe, readPos, writePos, false⟩,
        Function.update mem stripe.header (expandHeader (mem stripe.header) (grants i)), .check,
        some true, false, i + 1, i + 1, i + 1⟩ rfl rfl rfl rfl
      refine ⟨[.task, .task, .hub, .worker, .task] ++ turns, ?_⟩
      rw [List.foldl_append, ShmConnection.tryWrite_eq]
      have hrun : [Party.task, .task, .hub, .worker, .task].foldl (step chunks buf grants)
          ⟨⟨stripe, readPos, writePos, false⟩, mem, .check, a, w, i, i, i⟩ =
          ⟨⟨stripe, readPos, writePos, false⟩,
            Function.update mem stripe.header (expandHeader (mem stripe.header) (grants i)), .check,
            some true, false, i + 1, i + 1, i + 1⟩ := by
        simp only [List.foldl_cons, List.foldl_nil, step]
        simp [task, hub, worker, hfull.1, hfull.2]
      rw [hrun]
      simpa [atOnce, hfull.1, hfull.2] using hturns
    · exact ⟨[.task], shows_of_not_full _ hpc hfull⟩

/-- Every single poll of a write, with as many requests answered at once as one likes, is a run of
these steps. -/
theorem exists_turns_pollWrite (n : ℕ) (hpc : s.pc = .idle) (hh : s.handled = s.pushed)
    (hr : s.received = s.pushed) : ∃ turns : List Party,
    (turns.foldl (step chunks buf grants) s).Shows
      (s.conn.pollWrite chunks s.mem buf s.awaited
        (atOnce grants s.conn.stripe.header n s.handled s.mem)) := by
  obtain ⟨⟨stripe, readPos, writePos, rx⟩, mem, pc, a, w, i, j, k⟩ := s
  cases hpc
  cases hh
  cases hr
  cases rx with
  | false =>
    obtain ⟨turns, hturns⟩ := @exists_turns_tryWrite chunks buf grants
      ⟨⟨stripe, readPos, writePos, false⟩, mem, .check, a, w, i, i, i⟩ n rfl rfl rfl rfl
    exact ⟨.task :: .task :: turns, hturns⟩
  | true =>
    rcases a with _ | _ | _
    · exact ⟨[.task, .task], rfl, rfl⟩
    · exact ⟨[.task, .task], rfl, rfl⟩
    · obtain ⟨turns, hturns⟩ := @exists_turns_tryWrite chunks buf grants
        ⟨⟨stripe, readPos, writePos, false⟩, mem, .check, some true, w, i, i, i⟩ n rfl rfl rfl rfl
      exact ⟨.task :: .task :: turns, hturns⟩

end Polling

/-! ## The blocks that are granted -/

/-- The blocks of the first `k` grants. -/
def grantedBlocks (grants : ℕ → List BlockId) (k : ℕ) : List BlockId := (List.range k).flatMap grants

theorem grantedBlocks_succ (grants : ℕ → List BlockId) (k : ℕ) :
    grantedBlocks grants (k + 1) = grantedBlocks grants k ++ grants k := by
  rw [grantedBlocks, List.range_succ, List.flatMap_append]
  simp [grantedBlocks]

/-- The hub has built `header` for a stripe of `blocks`, and it can grant `n` expansions by two blocks:
the blocks are distinct, the sequence stays within the header block, and the node has attached all
chunks. -/
structure Growing (chunks : List Chunk) (mem : Memory) (header : BlockId) (blocks : List BlockId)
    (grants : ℕ → List BlockId) (n : ℕ) : Prop where
  first : blocks.head? = some header
  built : (decodeHeader (mem header)).2 = (blocks.length, encode blocks)
  two : ∀ i < n, (grants i).length = 2
  nodup : (blocks ++ grantedBlocks grants n).Nodup
  blk : ∀ b ∈ blocks ++ grantedBlocks grants n, Blk b
  mapped : ∀ b ∈ blocks ++ grantedBlocks grants n, physical chunks b = some b
  entries : (encode (blocks ++ grantedBlocks grants n)).length ≤ HeaderEntries

/-- The write at `pos` is in the memory: the data of the stripe is as before with `buf` laid over it,
and the header has the larger one of the two lengths and the blocks. -/
structure Stored (mem m : Memory) (header : BlockId) (blocks : List BlockId) (pos : ℕ)
    (buf : List UInt8) : Prop where
  data : flat m blocks.tail = overlay (flat mem blocks.tail) pos buf
  dataLen : (decodeHeader (m header)).1.toNat =
    max (decodeHeader (mem header)).1.toNat (pos + buf.length)
  header : (decodeHeader (m header)).2 = (blocks.length, encode blocks)

theorem grantedBlocks_mono (grants : ℕ → List BlockId) {k n : ℕ} (hk : k ≤ n) :
    grantedBlocks grants k <+: grantedBlocks grants n := by
  induction n, hk using Nat.le_induction with
  | base => exact List.prefix_rfl
  | succ n _ ih =>
    rw [grantedBlocks_succ]
    exact ih.trans (List.prefix_append _ _)

theorem afterGrants_of_ne {header b : BlockId} (hb : b ≠ header) (mem : Memory)
    (grants : ℕ → List BlockId) (k : ℕ) : afterGrants header mem grants k b = mem b := by
  induction k with
  | zero => rfl
  | succ k ih =>
    rw [afterGrants]
    exact (Function.update_of_ne hb _ _).trans ih

namespace Growing

variable {chunks : List Chunk} {mem : Memory} {header : BlockId} {blocks : List BlockId}
  {grants : ℕ → List BlockId} {n k : ℕ}

/-- Fewer grants are possible as well. -/
theorem mono (h : Growing chunks mem header blocks grants n) (hk : k ≤ n) :
    Growing chunks mem header blocks grants k := by
  obtain ⟨rest, hrest⟩ := (List.prefix_append_right_inj blocks).2 (grantedBlocks_mono grants hk)
  have hsub : ∀ b ∈ blocks ++ grantedBlocks grants k, b ∈ blocks ++ grantedBlocks grants n :=
    fun b hb => hrest ▸ List.mem_append_left _ hb
  have hblk := fun b hb => h.blk b (hsub b hb)
  refine ⟨h.first, h.built, fun i hi => h.two i (by omega), ?_, hblk,
    fun b hb => h.mapped b (hsub b hb), ?_⟩
  · exact (List.nodup_append.1 (hrest ▸ h.nodup)).1
  · have hlen := h.entries
    rw [← hrest, encode_append hblk, List.length_append] at hlen
    omega

variable (h : Growing chunks mem header blocks grants n)

include h

theorem length_pos : 1 ≤ blocks.length := by
  obtain ⟨bs, rfl⟩ := List.head?_eq_some_iff.1 h.first
  exact Nat.succ_le_succ (Nat.zero_le _)

theorem length_eq : (blocks ++ grantedBlocks grants n).length = blocks.length + 2 * n := by
  induction n with
  | zero => rw [grantedBlocks, List.range_zero, List.flatMap_nil, List.append_nil, Nat.mul_zero,
      Nat.add_zero]
  | succ n ih =>
    have hn := ih (h.mono (Nat.le_succ n))
    have htwo := h.two n (Nat.lt_succ_self n)
    rw [grantedBlocks_succ, ← List.append_assoc, List.length_append, hn, htwo]
    omega

theorem decodeHeader_eq : decodeHeader (afterGrants header mem grants n header) =
    ((decodeHeader (mem header)).1, (blocks ++ grantedBlocks grants n).length,
      encode (blocks ++ grantedBlocks grants n)) := by
  induction n with
  | zero =>
    rw [grantedBlocks, List.range_zero, List.flatMap_nil, List.append_nil]
    exact Prod.ext rfl h.built
  | succ n ih =>
    have hn := h.mono (Nat.le_succ n)
    have ih := ih hn
    have hfits := Shm.fits_iff.2 hn.entries
    have hgood : Shm.Good ⟨allocStripe (blocks ++ grantedBlocks grants n),
        afterGrants header mem grants n header, []⟩ := by
      refine ⟨?_, rfl, rfl, hfits, ?_, ?_⟩
      · rw [List.append_nil]
        exact hn.blk
      · rw [List.append_nil]
        exact congrArg Prod.snd ih
      · rw [List.append_nil]
        exact hfits
    have hall : blocks ++ grantedBlocks grants n ++ [] ++ grants n =
        blocks ++ grantedBlocks grants (n + 1) := by
      rw [List.append_nil, List.append_assoc, ← grantedBlocks_succ]
    have hnext : Fits (blocks ++ grantedBlocks grants n ++ [] ++ grants n) := by
      rw [hall]
      exact Shm.fits_iff.2 h.entries
    have hdec := hgood.decodeHeader_append hnext (decodeHeader (mem header)).1
    dsimp only [allocStripe] at hdec
    rw [hall] at hdec
    rw [afterGrants, @Function.update_self BlockId (fun _ => Bytes)]
    simp only [expandHeader, congrArg Prod.fst ih]
    exact hdec _

theorem leads {s : Stripe} (hs : s.header = header) :
    s.Leads chunks (afterGrants header mem grants n) (blocks ++ grantedBlocks grants n) := by
  subst hs
  obtain ⟨bs, rfl⟩ := List.head?_eq_some_iff.1 h.first
  have hdec : (decodeHeader (afterGrants s.header mem grants n s.header)).2.2 =
      encode (s.header :: bs ++ grantedBlocks grants n) := congrArg (·.2.2) h.decodeHeader_eq
  have hblk : Blk s.header := h.blk _ (by simp)
  refine ⟨?_, ?_, ?_, rfl, ?_, h.mapped⟩
  · rw [hdec]
    exact h.entries
  · rw [hdec, List.cons_append, encode_cons hblk]
    exact ⟨_, _, rfl, hblk.1⟩
  · rw [hdec]
    exact resolve_encode_of_ne_nil h.blk (List.cons_ne_nil _ _) _
  · exact (List.nodup_cons.1 h.nodup).1

theorem stored {c : ShmConnection} (hc : c.stripe.header = header) {buf : List UInt8}
    (hle : c.writePos + buf.length ≤ (blocks.length + 2 * n - 1) * BlockSize) :
    ∃ t m, c.writeFitting chunks (afterGrants header mem grants n) buf =
        (({ c with stripe := t, writePos := c.writePos + buf.length }, m), buf.length) ∧
      t.header = header ∧ Stored mem m header (blocks ++ grantedBlocks grants n) c.writePos buf := by
  have hlead := h.leads hc
  have htail : (blocks ++ grantedBlocks grants n).tail.length = blocks.length + 2 * n - 1 := by
    rw [List.length_tail, h.length_eq]
  have hfit : (blocks.length + 2 * n) ≤ HeaderEntries := by
    have hentries := h.entries
    rw [length_encode, h.length_eq] at hentries
    omega
  have hsize : (UInt32.ofNat (c.writePos + buf.length)).toNat = c.writePos + buf.length := by
    rw [UInt32.toNat_ofNat']
    simp only [BlockSize, HeaderEntries] at hle hfit
    omega
  obtain ⟨t, m, hwrite, ht, hheader, hloop⟩ :=
    ShmConnection.writeFitting_eq hlead (by rw [htail]; exact hle)
  rw [hc] at hwrite ht hheader
  have hnot : header ∉ (blocks ++ grantedBlocks grants n).tail := hc ▸ hlead.header_notMem
  have hdata : flat m (blocks ++ grantedBlocks grants n).tail =
      overlay (flat mem (blocks ++ grantedBlocks grants n).tail) c.writePos buf := by
    have hold : flat (afterGrants header mem grants n) (blocks ++ grantedBlocks grants n).tail =
        flat mem (blocks ++ grantedBlocks grants n).tail := by
      funext i
      refine flat_congr rfl fun b hb => afterGrants_of_ne ?_ _ _ _
      rintro rfl
      exact hnot (List.mem_of_getElem? hb)
    have hall := (@writeLoop_eq (afterGrants header mem grants n) _ c.writePos buf.length buf
      le_rfl).1 h.nodup.tail
    rw [writeLoop_skip] at hloop
    rw [hloop, List.take_of_length_le (by rw [htail]; omega), hold] at hall
    exact hall
  have hdec : decodeHeader (m header) = ((decodeHeader (mem header)).1,
      (blocks ++ grantedBlocks grants n).length, encode (blocks ++ grantedBlocks grants n)) := by
    rw [hheader]
    exact h.decodeHeader_eq
  rw [congrArg Prod.fst h.decodeHeader_eq] at hwrite
  refine ⟨t, _, hwrite, ht, ?_⟩
  split_ifs with hraise
  · refine ⟨?_, ?_, ?_⟩
    · rw [← hdata]
      funext i
      refine flat_congr rfl fun b hb => Function.update_of_ne ?_ _ _
      rintro rfl
      exact hnot (List.mem_of_getElem? hb)
    · rw [@Function.update_self BlockId (fun _ => Bytes), decodeHeader_putDataLen, hsize]
      rw [gt_iff_lt, UInt32.lt_iff_toNat_lt, hsize] at hraise
      exact (max_eq_right hraise.le).symm
    · rw [@Function.update_self BlockId (fun _ => Bytes), decodeHeader_putDataLen, hdec]
  · refine ⟨hdata, ?_, congrArg Prod.snd hdec⟩
    rw [gt_iff_lt, UInt32.lt_iff_toNat_lt, hsize] at hraise
    rw [hdec]
    exact (max_eq_left (not_lt.1 hraise)).symm

end Growing

/-! ## The steps of a write -/

section Run

variable (chunks : List Chunk) (c : ShmConnection) (mem : Memory) (blocks : List BlockId)
  (grants : ℕ → List BlockId) (buf : List UInt8)

/-- The expansions that the write needs. -/
abbrev needed : ℕ := expansionsNeeded (c.writePos + buf.length - (blocks.length - 1) * BlockSize)

/-- The connection while it awaits an expansion, or not. -/
abbrev awaiting (rx : Bool) : ShmConnection := { c with expansionRx := rx }

/-- The memory after `k` grants. -/
abbrev memAfter (k : ℕ) : Memory := afterGrants c.stripe.header mem grants k

/-- The states of the write: between requests, with a request in the queue of the hub, with its answer
in the queue of the node, with the answer received, at the test, before a push, and at the end. -/
inductive Phase : Polling → Prop
  | resting {k : ℕ} {pc : PollPC} {a : Option Bool} {w : Bool} (hk : k ≤ needed c blocks buf)
      (hpc : pc = .idle ∨ pc = .entry) :
      Phase ⟨awaiting c false, memAfter c mem grants k, pc, a, w, k, k, k⟩
  | waiting {k : ℕ} {pc : PollPC} (hk : k < needed c blocks buf) (hpc : pc = .idle ∨ pc = .entry) :
      Phase ⟨awaiting c true, memAfter c mem grants k, pc, none, true, k + 1, k, k⟩
  | granted {k : ℕ} {pc : PollPC} (hk : k < needed c blocks buf) (hpc : pc = .idle ∨ pc = .entry) :
      Phase ⟨awaiting c true, memAfter c mem grants (k + 1), pc, none, true, k + 1, k + 1, k⟩
  | answered {k : ℕ} {pc : PollPC} (hk : k < needed c blocks buf)
      (hpc : pc = .idle ∨ pc = .entry) :
      Phase ⟨awaiting c true, memAfter c mem grants (k + 1), pc, some true, false, k + 1, k + 1, k + 1⟩
  | check {k : ℕ} {a : Option Bool} {w : Bool} (hk : k ≤ needed c blocks buf) :
      Phase ⟨awaiting c false, memAfter c mem grants k, .check, a, w, k, k, k⟩
  | push {k : ℕ} (hk : k < needed c blocks buf) :
      Phase ⟨awaiting c false, memAfter c mem grants k, .push, none, true, k, k, k⟩
  | done {k : ℕ} {t : Stripe} {m : Memory} {a : Option Bool} {w : Bool}
      (hk : k = needed c blocks buf)
      (hstored : Stored mem m c.stripe.header (blocks ++ grantedBlocks grants k) c.writePos buf) :
      Phase ⟨{ c with stripe := t, writePos := c.writePos + buf.length, expansionRx := false }, m,
        .done (.ok buf.length), a, w, k, k, k⟩

variable {chunks c mem blocks grants buf}

theorem full_iff (hpos : 1 ≤ blocks.length) (k : ℕ) :
    c.writePos + buf.length > (blocks.length + 2 * k - 1) * BlockSize ↔ k < needed c blocks buf := by
  unfold needed expansionsNeeded
  simp only [BlockSize]
  omega

theorem phase_new (hidle : c.expansionRx = false) :
    Phase c mem blocks grants buf (Polling.new c mem) := by
  have hc : c = awaiting c false := by
    cases c
    cases hidle
    rfl
  have h : Phase c mem blocks grants buf
      ⟨awaiting c false, memAfter c mem grants 0, .idle, none, false, 0, 0, 0⟩ :=
    .resting (Nat.zero_le _) (.inl rfl)
  rwa [← hc] at h

variable {s : Polling}

/-- Requests are handled, and answers received, after they were sent; at most one is outstanding. -/
theorem Phase.counts (hs : Phase c mem blocks grants buf s) :
    s.received ≤ s.handled ∧ s.handled ≤ s.pushed ∧ s.pushed ≤ s.received + 1 ∧
      s.pushed ≤ needed c blocks buf := by
  cases hs <;> dsimp only <;> omega

theorem phase_hub (hs : Phase c mem blocks grants buf s) :
    Phase c mem blocks grants buf (s.hub grants) := by
  by_cases hlt : s.handled < s.pushed
  · cases hs with
    | waiting hk hpc =>
      rw [Polling.hub, if_pos hlt]
      exact .granted hk hpc
    | _ => exact absurd hlt (lt_irrefl _)
  · rw [Polling.hub, if_neg hlt]
    exact hs

theorem phase_worker (hs : Phase c mem blocks grants buf s) :
    Phase c mem blocks grants buf s.worker := by
  by_cases hlt : s.received < s.handled
  · cases hs with
    | granted hk hpc =>
      rw [Polling.worker, if_pos hlt]
      exact .answered hk hpc
    | _ => exact absurd hlt (lt_irrefl _)
  · rw [Polling.worker, if_neg hlt]
    exact hs

section Task

variable (h : Growing chunks mem c.stripe.header blocks grants (needed c blocks buf))

include h

/-- The test finds the block count of the grants so far. -/
theorem getMeta_memAfter {k : ℕ} (hk : k ≤ needed c blocks buf) :
    (c.stripe.getMeta chunks (memAfter c mem grants k)).2 = blocks.length + 2 * k := by
  have hgrow := h.mono hk
  rw [(hgrow.leads rfl).getMeta_eq rfl rfl, hgrow.decodeHeader_eq]
  exact hgrow.length_eq

theorem task_full {k : ℕ} (hk : k < needed c blocks buf) (a : Option Bool) (w : Bool) :
    Polling.task chunks buf ⟨awaiting c false, memAfter c mem grants k, .check, a, w, k, k, k⟩ =
      ⟨awaiting c false, memAfter c mem grants k, .push, none, true, k, k, k⟩ := by
  have hmeta := getMeta_memAfter h hk.le
  have hpos := h.length_pos
  have hfull := (full_iff hpos k).2 hk
  simp only [Polling.task, hmeta, if_neg (show blocks.length + 2 * k ≠ 0 by omega), if_pos hfull]

theorem task_fits (a : Option Bool) (w : Bool) : ∃ t m,
    Polling.task chunks buf ⟨awaiting c false, memAfter c mem grants (needed c blocks buf), .check, a,
        w, needed c blocks buf, needed c blocks buf, needed c blocks buf⟩ =
      ⟨{ c with stripe := t, writePos := c.writePos + buf.length, expansionRx := false }, m,
        .done (.ok buf.length), a, w, needed c blocks buf, needed c blocks buf, needed c blocks buf⟩ ∧
      Stored mem m c.stripe.header (blocks ++ grantedBlocks grants (needed c blocks buf)) c.writePos
        buf := by
  have hmeta := getMeta_memAfter h le_rfl
  have hpos := h.length_pos
  have hfit : ¬ c.writePos + buf.length > (blocks.length + 2 * needed c blocks buf - 1) * BlockSize :=
    fun hfull => absurd ((full_iff hpos _).1 hfull) (lt_irrefl _)
  obtain ⟨t, m, hwrite, -, hstored⟩ := h.stored (c := awaiting c false) rfl (not_lt.1 hfit)
  refine ⟨t, m, ?_, hstored⟩
  simp only [Polling.task, hmeta, if_neg hfit, hwrite,
    if_neg (show blocks.length + 2 * needed c blocks buf ≠ 0 by omega)]

theorem phase_task (hs : Phase c mem blocks grants buf s) :
    Phase c mem blocks grants buf (s.task chunks buf) := by
  cases hs with
  | resting hk hpc =>
    rcases hpc with rfl | rfl
    · exact .resting hk (.inr rfl)
    · exact .check hk
  | waiting hk hpc =>
    rcases hpc with rfl | rfl
    · exact .waiting hk (.inr rfl)
    · exact .waiting hk (.inl rfl)
  | granted hk hpc =>
    rcases hpc with rfl | rfl
    · exact .granted hk (.inr rfl)
    · exact .granted hk (.inl rfl)
  | answered hk hpc =>
    rcases hpc with rfl | rfl
    · exact .answered hk (.inr rfl)
    · exact .check hk
  | @check k a w hk =>
    rcases hk.lt_or_eq with hlt | rfl
    · rw [task_full h hlt]
      exact .push hlt
    · obtain ⟨t, m, htask, hstored⟩ := task_fits h a w
      rw [htask]
      exact .done rfl hstored
  | push hk => exact .waiting hk (.inr rfl)
  | done hk hstored => exact .done hk hstored

end Task

/-! ## Progress -/

/-- How far a write is from its end. -/
def Polling.rank (n : ℕ) (s : Polling) : ℕ :=
  match s.pc with
  | .done _ => 0
  | .check => 8 * (n - s.pushed) + 3
  | .push => 8 * (n - s.pushed) + 2
  | .entry =>
    8 * (n - s.pushed) +
      if s.pushed = s.received then 4 else if s.pushed = s.handled then 6 else 7
  | .idle =>
    8 * (n - s.pushed) +
      if s.pushed = s.received then 5 else if s.pushed = s.handled then 6 else 7

/-- Who gets the write on. -/
def Polling.helper (s : Polling) : Party :=
  if s.pushed = s.received then .task else if s.pushed = s.handled then .worker else .hub

/-- A turn of the helpful party brings the write closer to its end, and that of another one leaves
it, and the helpful party, as they are. -/
structure Turn (n : ℕ) (s t : Polling) (p : Party) : Prop where
  helps : p = s.helper → t.rank n < s.rank n
  others : p ≠ s.helper → t.rank n = s.rank n ∧ t.helper = s.helper

theorem turn_stays {n : ℕ} {p : Party} (hne : p ≠ s.helper) : Turn n s s p :=
  ⟨fun he => absurd he hne, fun _ => ⟨rfl, rfl⟩⟩

theorem turn_hub (hs : Phase c mem blocks grants buf s) :
    Turn (needed c blocks buf) s (s.hub grants) .hub := by
  by_cases hlt : s.handled < s.pushed
  · cases hs with
    | waiting hk hpc =>
      rw [Polling.hub, if_pos hlt]
      refine ⟨fun _ => ?_, fun hne => absurd (by simp [Polling.helper]) hne⟩
      rcases hpc with rfl | rfl <;> simp [Polling.rank]
    | _ => exact absurd hlt (lt_irrefl _)
  · obtain ⟨-, hle, -⟩ := hs.counts
    rw [Polling.hub, if_neg hlt]
    refine turn_stays ?_
    rw [Polling.helper, if_pos (show s.pushed = s.handled by omega)]
    split_ifs <;> exact nofun

theorem turn_worker (hs : Phase c mem blocks grants buf s) :
    Turn (needed c blocks buf) s s.worker .worker := by
  by_cases hlt : s.received < s.handled
  · cases hs with
    | granted hk hpc =>
      rw [Polling.worker, if_pos hlt]
      refine ⟨fun _ => ?_, fun hne => absurd (by simp [Polling.helper]) hne⟩
      rcases hpc with rfl | rfl <;> simp [Polling.rank]
    | _ => exact absurd hlt (lt_irrefl _)
  · obtain ⟨hle, -, -⟩ := hs.counts
    rw [Polling.worker, if_neg hlt]
    refine turn_stays ?_
    unfold Polling.helper
    split_ifs with h1 h2
    · exact nofun
    · omega
    · exact nofun

theorem turn_task (h : Growing chunks mem c.stripe.header blocks grants (needed c blocks buf))
    (hs : Phase c mem blocks grants buf s) (hrun : ∀ r, s.pc ≠ .done r) :
    Turn (needed c blocks buf) s (s.task chunks buf) .task := by
  cases hs with
  | resting hk hpc =>
    refine ⟨fun _ => ?_, fun hne => absurd (if_pos rfl).symm hne⟩
    rcases hpc with rfl | rfl <;> simp [Polling.rank, Polling.task]
  | waiting hk hpc =>
    refine ⟨fun he => absurd he (by simp [Polling.helper]), fun _ => ?_⟩
    rcases hpc with rfl | rfl <;> simp [Polling.rank, Polling.task, Polling.helper]
  | granted hk hpc =>
    refine ⟨fun he => absurd he (by simp [Polling.helper]), fun _ => ?_⟩
    rcases hpc with rfl | rfl <;> simp [Polling.rank, Polling.task, Polling.helper]
  | answered hk hpc =>
    refine ⟨fun _ => ?_, fun hne => absurd (if_pos rfl).symm hne⟩
    rcases hpc with rfl | rfl <;> simp [Polling.rank, Polling.task]
  | @check k a w hk =>
    refine ⟨fun _ => ?_, fun hne => absurd (if_pos rfl).symm hne⟩
    rcases hk.lt_or_eq with hlt | rfl
    · rw [task_full h hlt]
      simp [Polling.rank]
    · obtain ⟨t, m, htask, -⟩ := task_fits h a w
      rw [htask]
      simp [Polling.rank]
  | push hk =>
    refine ⟨fun _ => ?_, fun hne => absurd (if_pos rfl).symm hne⟩
    simp [Polling.rank, Polling.task]
    omega
  | done => exact absurd rfl (hrun _)

/-! ## All schedules -/

variable {turns : ℕ → Party}

theorem phase_step (h : Growing chunks mem c.stripe.header blocks grants (needed c blocks buf))
    (s : Polling) (p : Party) (hs : Phase c mem blocks grants buf s) :
    Phase c mem blocks grants buf (s.step chunks buf grants p) := by
  cases p with
  | task => exact phase_task h hs
  | hub => exact phase_hub hs
  | worker => exact phase_worker hs

theorem turn_step (h : Growing chunks mem c.stripe.header blocks grants (needed c blocks buf))
    (s : Polling) (p : Party) (hs : Phase c mem blocks grants buf s) (hrun : ¬ ∃ r, s.pc = .done r) :
    Turn (needed c blocks buf) s (s.step chunks buf grants p) p := by
  cases p with
  | task => exact turn_task h hs fun r hr => hrun ⟨r, hr⟩
  | hub => exact turn_hub hs
  | worker => exact turn_worker hs

end Run

/-- Every poll schedule of a write, for a header that the hub has built and that grows as far as the
write needs: at no time is more than one request outstanding, nor more than the needed ones made; if
the write returns, it has made exactly these, returns the length of the buffer (and no error, so that
`blk_cnt - 1` never underflows) and has stored it; and it returns if everyone acts again and again. -/
theorem poll_write_completes (chunks : List Chunk) (c : ShmConnection) (mem : Memory)
    (blocks : List BlockId) (grants : ℕ → List BlockId) (buf : List UInt8)
    (hidle : c.expansionRx = false)
    (h : Growing chunks mem c.stripe.header blocks grants (needed c blocks buf))
    (turns : ℕ → Party) :
    (∀ k s, Schedule.after (Polling.step chunks buf grants) turns (.new c mem) k = s →
      s.pushed ≤ needed c blocks buf ∧ s.pushed ≤ s.received + 1 ∧
      ∀ r, s.pc = .done r → r = .ok buf.length ∧
        s.pushed = needed c blocks buf ∧
        s.conn.writePos = c.writePos + buf.length ∧
        Stored mem s.mem c.stripe.header (blocks ++ grantedBlocks grants s.pushed) c.writePos buf) ∧
    (Schedule.Fair turns → ∃ k,
      (Schedule.after (Polling.step chunks buf grants) turns (.new c mem) k).pc =
        .done (.ok buf.length)) := by
  have hphase := @Schedule.after_invariant _ _ _ turns _ _ (phase_new hidle) (phase_step h)
  have hdone : ∀ {s r}, Phase c mem blocks grants buf s → s.pc = .done r → r = .ok buf.length ∧
      s.pushed = needed c blocks buf ∧ s.conn.writePos = c.writePos + buf.length ∧
      Stored mem s.mem c.stripe.header (blocks ++ grantedBlocks grants s.pushed) c.writePos buf := by
    intro s r hs hr
    cases hs with
    | done hk hstored =>
      cases hr
      exact ⟨rfl, hk, rfl, hstored⟩
    | check | push => cases hr
    | resting hk hpc | waiting hk hpc | granted hk hpc | answered hk hpc =>
      rcases hpc with rfl | rfl <;> cases hr
  constructor
  · rintro k s rfl
    obtain ⟨-, -, hone, hle⟩ := (hphase k).counts
    exact ⟨hle, hone, fun r hr => hdone (hphase k) hr⟩
  · intro hfair
    obtain ⟨k, r, hr⟩ := Schedule.exists_goal (phase_new hidle) (phase_step h)
      (fun s hs hrun => (turn_step h s _ hs hrun).helps rfl)
      (fun s p hs hrun => by
        by_cases hp : p = s.helper
        · exact .inl ((turn_step h s p hs hrun).helps hp)
        · exact .inr ((turn_step h s p hs hrun).others hp)) hfair
    refine ⟨k, ?_⟩
    rw [hr, (hdone (hphase k) hr).1]

/-- The three take turns. -/
def roundRobin (n : ℕ) : Party := if n % 3 = 0 then .task else if n % 3 = 1 then .hub else .worker

theorem fair_roundRobin : Schedule.Fair roundRobin := by
  intro p n
  cases p with
  | task => exact ⟨3 * n, by omega, by rw [roundRobin, if_pos (by omega)]⟩
  | hub => exact ⟨3 * n + 1, by omega, by rw [roundRobin, if_neg (by omega), if_pos (by omega)]⟩
  | worker => exact ⟨3 * n + 2, by omega, by rw [roundRobin, if_neg (by omega), if_neg (by omega)]⟩

/-- A write behind the end of a stripe of two blocks. -/
theorem poll_write_completes_twoBlocks : ∃ k,
    (Schedule.after (Polling.step [⟨0⟩] [7] fun _ => [(-1, 258), (-1, 259)]) roundRobin
      (.new ⟨.new (-1, 256), 0, 4096, false⟩ twoBlocks) k).pc = .done (.ok 1) := by
  refine (poll_write_completes [⟨0⟩] ⟨.new (-1, 256), 0, 4096, false⟩ twoBlocks
    [(-1, 256), (-1, 257)] (fun _ => [(-1, 258), (-1, 259)]) [7] rfl ?_ roundRobin).2 fair_roundRobin
  exact ⟨rfl, congrArg Prod.snd decodeHeader_twoBlocks, fun _ _ => rfl, by decide, by decide,
    by decide, by decide⟩

end Mmfg.Rust
