import Mmfg.Conn.Node
import Mmfg.Rust.Stripe

/-!
# Connections of a Rust node

A `ShmConnection` reads and writes at two positions, either with `poll_read` and `poll_write` or with
the blocking `read` and `write`.  Before each access it reads data length and block count from the
header block, where a Go node goes by the copy it decoded in the beginning.

`rust_agrees_with_go`: on a well-formed header, and as long as the writes fit, both kinds of nodes
return the same bytes and leave the same memory.

Overflow is taken to be checked, as in a debug build, so that `blk_cnt - 1` panics if the header has
block count 0.  In a release build it wraps around and every write passes the test.  The results are
about headers that the hub has written, which count at least the header block.
-/

namespace Mmfg.Rust

open File Shm Conn

/-- The errors of writes: the hub refused, its queue was full, a blocking write does not fit, and the
checked subtraction in `blk_cnt - 1` overflows. -/
inductive ConnError
  | expansionFailed
  | requestFailed
  | wouldBlock
  | panic
  deriving DecidableEq

/-- A connection; `expansionRx` says whether it waits for an expansion. -/
structure ShmConnection where
  stripe : Stripe
  readPos : ℕ
  writePos : ℕ
  expansionRx : Bool
  deriving DecidableEq

/-- What polling the receiver of an expansion gives; the hub has then written to the memory. -/
inductive Answer
  | pending
  | refused
  | granted (mem : Memory)

/-- What becomes of an expansion request: the hub's queue is full, or it is sent and answered. -/
inductive Request
  | full
  | sent (answer : Answer)

/-- The result of a poll. -/
inductive Poll (α : Type)
  | pending
  | ready (result : α)

namespace ShmConnection

/-- `ShmConnection::new`. -/
def new (header : BlockId) : ShmConnection :=
  { stripe := .new header, readPos := 0, writePos := 0, expansionRx := false }

variable (chunks : List Chunk)

/-! ## Reads -/

/-- `read`. -/
def read (c : ShmConnection) (mem : Memory) (len : ℕ) : ShmConnection × List UInt8 :=
  let dataLen := (c.stripe.getMeta chunks mem).1.toNat
  if c.readPos ≥ dataLen then (c, [])
  else
    let n := min (dataLen - c.readPos) len
    let r := c.stripe.readData chunks mem c.readPos n
    ({ c with stripe := r.1, readPos := c.readPos + r.2.length }, r.2)

/-- `poll_read`. -/
def pollRead (c : ShmConnection) (mem : Memory) (len : ℕ) : ShmConnection × List UInt8 :=
  let dataLen := (c.stripe.getMeta chunks mem).1.toNat
  if c.readPos ≥ dataLen then (c, [])
  else
    let n := min (dataLen - c.readPos) len
    if n = 0 then (c, [])
    else
      let r := c.stripe.readData chunks mem c.readPos n
      ({ c with stripe := r.1, readPos := c.readPos + r.2.length }, r.2)

/-! ## Writes -/

/-- The part that `poll_write` and `write` have in common: the data, then its length. -/
def writeFitting (c : ShmConnection) (mem : Memory) (buf : List UInt8) :
    (ShmConnection × Memory) × ℕ :=
  let w := c.stripe.writeData chunks mem c.writePos buf
  let writePos := c.writePos + w.2
  let curLen := (w.1.1.getMeta chunks w.1.2).1
  let mem :=
    if UInt32.ofNat writePos > curLen then w.1.1.updateDataLen chunks w.1.2 (.ofNat writePos)
    else w.1.2
  (({ c with stripe := w.1.1, writePos }, mem), w.2)

/-- `write`. -/
def write (c : ShmConnection) (mem : Memory) (buf : List UInt8) :
    (ShmConnection × Memory) × Except ConnError ℕ :=
  let blkCnt := (c.stripe.getMeta chunks mem).2
  if blkCnt = 0 then ((c, mem), .error .panic)
  else if c.writePos + buf.length > (blkCnt - 1) * BlockSize then ((c, mem), .error .wouldBlock)
  else
    let w := c.writeFitting chunks mem buf
    (w.1, .ok w.2)

/-- `poll_write` from the point on where no expansion is awaited, given what becomes of the requests
that it makes. -/
def tryWrite (buf : List UInt8) : List Request → ShmConnection → Memory →
    (ShmConnection × Memory) × Poll (Except ConnError ℕ)
  | requests, c, mem =>
    let blkCnt := (c.stripe.getMeta chunks mem).2
    if blkCnt = 0 then ((c, mem), .ready (.error .panic))
    else if c.writePos + buf.length > (blkCnt - 1) * BlockSize then
      match requests with
      | .full :: _ => ((c, mem), .ready (.error .requestFailed))
      | [] | .sent .pending :: _ => (({ c with expansionRx := true }, mem), .pending)
      | .sent .refused :: _ => ((c, mem), .ready (.error .expansionFailed))
      | .sent (.granted mem) :: requests => tryWrite buf requests c mem
    else
      let w := c.writeFitting chunks mem buf
      (w.1, .ready (.ok w.2))

/-- `poll_write`, given the answer to the expansion that is awaited, if any. -/
def pollWrite (c : ShmConnection) (mem : Memory) (buf : List UInt8) (awaited : Answer)
    (requests : List Request) : (ShmConnection × Memory) × Poll (Except ConnError ℕ) :=
  if c.expansionRx then
    match awaited with
    | .pending => ((c, mem), .pending)
    | .refused => (({ c with expansionRx := false }, mem), .ready (.error .expansionFailed))
    | .granted mem => tryWrite chunks buf requests { c with expansionRx := false } mem
  else tryWrite chunks buf requests c mem

variable {chunks} {c : ShmConnection} {mem : Memory} {blocks : List BlockId} {buf : List UInt8}

-- The recursion is on the requests, but they are looked at only where the write does not fit.
theorem tryWrite_eq (requests : List Request) :
    tryWrite chunks buf requests c mem =
      if (c.stripe.getMeta chunks mem).2 = 0 then ((c, mem), .ready (.error .panic))
      else if c.writePos + buf.length > ((c.stripe.getMeta chunks mem).2 - 1) * BlockSize then
        match requests with
        | .full :: _ => ((c, mem), .ready (.error .requestFailed))
        | [] | .sent .pending :: _ => (({ c with expansionRx := true }, mem), .pending)
        | .sent .refused :: _ => ((c, mem), .ready (.error .expansionFailed))
        | .sent (.granted mem) :: requests => tryWrite chunks buf requests c mem
      else ((c.writeFitting chunks mem buf).1, .ready (.ok (c.writeFitting chunks mem buf).2)) := by
  cases requests with
  | nil => rfl
  | cons request requests =>
    cases request with
    | full => rfl
    | sent answer =>
      cases answer with
      | pending => rfl
      | refused => rfl
      | granted m => rfl

/-- A write that fits copies what the Go code copies, and raises the length in the header. -/
theorem writeFitting_eq (h : c.stripe.Leads chunks mem blocks)
    (hle : c.writePos + buf.length ≤ blocks.tail.length * BlockSize) :
    ∃ s m, c.writeFitting chunks mem buf =
        (({ c with stripe := s, writePos := c.writePos + buf.length },
          if UInt32.ofNat (c.writePos + buf.length) > (decodeHeader (mem c.stripe.header)).1 then
            Function.update m c.stripe.header
              (putDataLen (m c.stripe.header) (.ofNat (c.writePos + buf.length)))
          else m), buf.length) ∧
      s.header = c.stripe.header ∧ m c.stripe.header = mem c.stripe.header ∧
      writeLoop blocks buf.length mem (c.writePos + BlockSize) buf = (m, buf.length, none) := by
  obtain ⟨s, m, hdata, hsh, hheader, hloop⟩ := h.writeData_eq hle
  refine ⟨s, m, ?_, hsh, hheader, hloop⟩
  simp only [writeFitting, hdata, h.getMeta_eq hsh hheader, Stripe.updateDataLen, hsh,
    h.physical_header]

end ShmConnection

/-! ## Runs of reads and writes -/

/-- The two interfaces of a Rust connection. -/
inductive Api
  | poll
  | blocking

/-- A sequential read or write; on a Go node there is one interface only. -/
inductive Access
  | read (api : Api) (len : ℕ)
  | write (api : Api) (data : List UInt8)

/-- What an access returns. -/
inductive Outcome
  | bytes (data : List UInt8)
  | wrote (n : ℕ)
  deriving DecidableEq

/-- An access on a Rust node.  It has no outcome if it fails or has to wait. -/
def rustAccess (chunks : List Chunk) (s : ShmConnection × Memory) :
    Access → Option ((ShmConnection × Memory) × Outcome)
  | .read .poll len =>
    let r := s.1.pollRead chunks s.2 len
    some ((r.1, s.2), .bytes r.2)
  | .read .blocking len =>
    let r := s.1.read chunks s.2 len
    some ((r.1, s.2), .bytes r.2)
  | .write .poll data =>
    match s.1.pollWrite chunks s.2 data .pending [] with
    | (t, .ready (.ok n)) => some (t, .wrote n)
    | _ => none
  | .write .blocking data =>
    match s.1.write chunks s.2 data with
    | (t, .ok n) => some (t, .wrote n)
    | _ => none

/-- An access on a Go node, where reads report the end of data by an error. -/
def goAccess (s : NodeConn × Memory) : Access → Option ((NodeConn × Memory) × Outcome)
  | .read _ len =>
    let r := s.1.read s.2 len
    match r.2.2 with
    | none | some .eof => some ((r.1, s.2), .bytes r.2.1)
    | some _ => none
  | .write _ data =>
    match s.1.write s.2 data [] with
    | some (t, n, none) => some (t, .wrote n)
    | _ => none

/-- The accesses in order, with their outcomes. -/
def runAccesses {σ : Type} (access : σ → Access → Option (σ × Outcome)) :
    σ → List Access → Option (σ × List Outcome)
  | s, [] => some (s, [])
  | s, a :: as => (access s a).bind fun r =>
    (runAccesses access r.1 as).map fun t => (t.1, r.2 :: t.2)

/-- How many bytes the access writes. -/
def Access.written : Access → ℕ
  | .read .. => 0
  | .write _ data => data.length

/-- The number of bytes that the accesses write. -/
def written (as : List Access) : ℕ := (as.map Access.written).sum

/-- A stripe decoded from a header that is well-formed: the sequence fits in the block and starts
with a chunk ID, the block it leads to first, and only first, is the header block, all chunks are
attached, and the data does not go beyond the blocks. -/
structure WellFormed (chunks : List Chunk) (header : BlockId) (s : Shm.Stripe) : Prop where
  entries : s.sequence.length ≤ HeaderEntries
  marker : ∃ cid seq, s.sequence = cid :: seq ∧ cid < 0
  first : s.blocks.head? = some header
  header_notMem : header ∉ s.blocks.tail
  mapped : ∀ b ∈ s.blocks, physical chunks b = some b
  dataLen : s.dataLen.toNat ≤ s.capacity

/-- The connections of a Go node and of a Rust node stand at the same point of the same stripe. -/
structure Agree (chunks : List Chunk) (header : BlockId) (n : NodeConn) (c : ShmConnection)
    (mem : Memory) : Prop where
  wf : WellFormed chunks header n.stripe
  blocks : n.stripe.blocks = resolve header.1 n.stripe.sequence
  decoded : decodeHeader (mem header) =
    (n.stripe.dataLen, n.stripe.blockCount, n.stripe.sequence)
  stripe : c.stripe.header = header
  idle : c.expansionRx = false
  readPos : n.readOff = c.readPos
  writePos : n.writeOff = c.writePos
  written : c.writePos ≤ n.stripe.dataLen.toNat

variable {chunks : List Chunk} {header : BlockId} {n : NodeConn} {c : ShmConnection} {mem : Memory}
  {off len : ℕ}

theorem WellFormed.header_eq {s : Shm.Stripe} (h : WellFormed chunks header s) :
    s.header = header ∧ physical chunks header = some header := by
  obtain ⟨bs, hbs⟩ := List.head?_eq_some_iff.1 h.first
  refine ⟨by rw [Shm.Stripe.header, hbs, List.headD_cons], h.mapped header ?_⟩
  rw [hbs]
  exact List.mem_cons_self

namespace Agree

variable (h : Agree chunks header n c mem)

include h

/-- The Rust node gets to the blocks of the Go node. -/
theorem leads : c.stripe.Leads chunks mem n.stripe.blocks := by
  have hdec := congrArg (·.2.2) h.decoded
  rw [← h.stripe] at hdec
  exact
    { entries := by rw [hdec]; exact h.wf.entries
      marker := by rw [hdec]; exact h.wf.marker
      resolved := by rw [hdec, h.stripe]; exact h.blocks.symm
      first := by rw [h.stripe]; exact h.wf.first
      header_notMem := by rw [h.stripe]; exact h.wf.header_notMem
      mapped := h.wf.mapped }

theorem getMeta_eq {s : Stripe} (hs : s.header = header) {m : Memory} (hm : m header = mem header) :
    s.getMeta chunks m = (n.stripe.dataLen, n.stripe.blockCount) := by
  rw [h.leads.getMeta_eq (hs.trans h.stripe.symm) (by rw [h.stripe]; exact hm), h.stripe, h.decoded]

theorem gather_segments : gather mem (c.stripe.segments chunks mem off len) =
    (readLoop mem n.stripe.blocks len (off + BlockSize) len).1 := by
  rw [h.leads.segments_eq, readLoop_fst]
  rfl

/-! ### Reads -/

theorem readAt_eq (hlt : c.readPos < n.stripe.dataLen.toNat) :
    n.stripe.readAt mem len n.readOff =
      (gather mem (c.stripe.segments chunks mem c.readPos
        (min (n.stripe.dataLen.toNat - c.readPos) len)), none) := by
  have hrem : (if c.readPos + len > n.stripe.dataLen.toNat then n.stripe.dataLen.toNat - c.readPos
      else len) = min (n.stripe.dataLen.toNat - c.readPos) len := by
    split_ifs <;> omega
  have hcap := h.wf.dataLen
  unfold Shm.Stripe.capacity at hcap
  rw [h.readPos, Shm.Stripe.readAt, if_neg (by omega), if_neg (by omega)]
  dsimp only
  rw [Int.toNat_natCast, hrem, h.gather_segments, readLoop_skip]
  refine Prod.ext rfl ?_
  rw [readLoop_eq (by omega) le_rfl]

theorem advance {s : Stripe} (hs : s.header = header) (k : ℕ) :
    Agree chunks header { n with readOff := n.readOff + k }
      { c with stripe := s, readPos := c.readPos + k } mem :=
  { h with
    stripe := hs
    readPos := by
      dsimp only
      rw [h.readPos, Nat.cast_add] }

theorem read_step (api : Api) (len : ℕ) : ∃ n' c' data,
    goAccess (n, mem) (.read api len) = some ((n', mem), .bytes data) ∧
    rustAccess chunks (c, mem) (.read api len) = some ((c', mem), .bytes data) ∧
    Agree chunks header n' c' mem ∧ n'.stripe = n.stripe ∧ n'.writeOff = n.writeOff := by
  have hmeta := h.getMeta_eq h.stripe rfl
  by_cases hlt : c.readPos < n.stripe.dataLen.toNat
  · -- below the end of data
    obtain ⟨s, hs, hsh, -⟩ := h.leads.refresh_eq
    rw [h.stripe] at hsh
    have hgo := @readAt_eq _ _ _ _ _ len h hlt
    set k := min (n.stripe.dataLen.toNat - c.readPos) len with hk
    set data := gather mem (c.stripe.segments chunks mem c.readPos k) with hdata
    have hrust : c.read chunks mem len =
        ({ c with stripe := s, readPos := c.readPos + data.length }, data) := by
      simp only [ShmConnection.read, hmeta, if_neg (not_le.2 hlt), ge_iff_le, Stripe.readData, hs,
        Option.getD_some, ← hk, ← hdata]
    refine ⟨{ n with readOff := n.readOff + data.length }, ?_⟩
    have hgoAccess : goAccess (n, mem) (.read api len) =
        some (({ n with readOff := n.readOff + data.length }, mem), .bytes data) := by
      simp only [goAccess, NodeConn.read, hgo]
    cases api with
    | blocking =>
      refine ⟨_, data, hgoAccess, ?_, h.advance hsh data.length, rfl, rfl⟩
      rw [rustAccess, hrust]
    | poll =>
      by_cases hk0 : k = 0
      · have hnil : data = [] := by
          rw [hdata, hk0, h.gather_segments]
          rfl
        rw [hnil] at hgoAccess ⊢
        refine ⟨c, [], hgoAccess, ?_, h.advance h.stripe 0, rfl, rfl⟩
        simp only [rustAccess, ShmConnection.pollRead, hmeta, if_neg (not_le.2 hlt), ge_iff_le,
          ← hk, if_pos hk0]
      · have hpoll : c.pollRead chunks mem len = c.read chunks mem len := by
          simp only [ShmConnection.pollRead, ShmConnection.read, hmeta, ← hk, if_neg hk0]
        refine ⟨_, data, hgoAccess, ?_, h.advance hsh data.length, rfl, rfl⟩
        rw [rustAccess, hpoll, hrust]
  · -- at the end of data
    have hle : n.stripe.dataLen.toNat ≤ c.readPos := not_lt.1 hlt
    refine ⟨n, c, [], ?_, ?_, h, rfl, rfl⟩
    · have heof : n.stripe.readAt mem len n.readOff = ([], some .eof) := by
        rw [h.readPos, Shm.Stripe.readAt, if_neg (by omega), if_pos (by omega)]
      simp only [goAccess, NodeConn.read, heof]
    · cases api <;>
        simp only [rustAccess, ShmConnection.pollRead, ShmConnection.read, hmeta, ge_iff_le, if_pos hle]

/-! ### Writes -/

section Write

variable {data : List UInt8}
  (hle : c.writePos + data.length ≤ min n.stripe.capacity StripeDataSizeLimit)

include hle

/-- Both nodes raise the length alike. -/
theorem writeFitting_eq : ∃ s d m,
    c.writeFitting chunks mem data =
      (({ c with stripe := s, writePos := c.writePos + data.length }, m), data.length) ∧
    n.stripe.writeAt mem data n.writeOff = (({ n.stripe with dataLen := d }, m), data.length, none) ∧
    s.header = header ∧ decodeHeader (m header) = (d, n.stripe.blockCount, n.stripe.sequence) ∧
    c.writePos + data.length ≤ d.toNat ∧ d.toNat ≤ n.stripe.capacity := by
  obtain ⟨s, m, hrust, hsh, hheader, hloop⟩ :=
    ShmConnection.writeFitting_eq h.leads (hle.trans (min_le_left _ _))
  rw [h.stripe, h.decoded] at hrust
  rw [h.stripe] at hsh hheader
  have hcap := h.wf.dataLen
  have hwritten := h.written
  have hlim : StripeDataSizeLimit = 2097152 := rfl
  have hsize : (UInt32.ofNat (c.writePos + data.length)).toNat = c.writePos + data.length := by
    rw [UInt32.toNat_ofNat']
    omega
  have hgt : n.stripe.dataLen < .ofNat (c.writePos + data.length) ↔
      n.stripe.dataLen.toNat < c.writePos + data.length := by
    rw [UInt32.lt_iff_toNat_lt, hsize]
  have hgo : n.stripe.writeAt mem data n.writeOff =
      (if 0 < data.length ∧ n.stripe.dataLen < .ofNat (c.writePos + data.length) then
        n.stripe.updateDataLen m (.ofNat (c.writePos + data.length)) else (n.stripe, m),
        data.length, none) := by
    rw [h.writePos, Shm.Stripe.writeAt, if_neg (by omega),
      if_neg (by simp only [BlockSize, Nat.cast_ofNat]; omega)]
    simp only [Int.toNat_natCast, hloop, gt_iff_lt]
  by_cases hraise : n.stripe.dataLen.toNat < c.writePos + data.length
  · refine ⟨s, .ofNat (c.writePos + data.length), Function.update m header
      (putDataLen (m header) (.ofNat (c.writePos + data.length))), ?_, ?_, hsh, ?_, ?_, ?_⟩
    · rw [hrust, if_pos (hgt.2 hraise)]
    · rw [hgo, if_pos ⟨by omega, hgt.2 hraise⟩, Shm.Stripe.updateDataLen, h.wf.header_eq.1]
    · rw [Function.update_self, decodeHeader_putDataLen, hheader, h.decoded]
    · rw [hsize]
    · rw [hsize]
      omega
  · refine ⟨s, n.stripe.dataLen, m, ?_, ?_, hsh, ?_, not_lt.1 hraise, hcap⟩
    · rw [hrust, if_neg fun hcon => hraise (hgt.1 hcon)]
    · rw [hgo, if_neg fun hcon => hraise (hgt.1 hcon.2)]
    · rw [hheader, h.decoded]

theorem write_step (huser : c.writePos + data.length ≤ userCap n.stripe) (api : Api) :
    ∃ n' c' m, goAccess (n, mem) (.write api data) = some ((n', m), .wrote data.length) ∧
      rustAccess chunks (c, mem) (.write api data) = some ((c', m), .wrote data.length) ∧
      Agree chunks header n' c' m ∧ (∃ d, n'.stripe = { n.stripe with dataLen := d }) ∧
      c'.writePos = c.writePos + data.length := by
  obtain ⟨s, d, m, hrust, hgo, hsh, hdec, hpos, hcap⟩ := h.writeFitting_eq hle
  have hmeta := h.getMeta_eq h.stripe rfl
  have hcount : n.stripe.blockCount ≠ 0 ∧
      ¬ c.writePos + data.length > (n.stripe.blockCount - 1) * BlockSize := by
    unfold userCap at huser
    simp only [BlockSize] at huser ⊢
    omega
  refine ⟨{ n with stripe := { n.stripe with dataLen := d }, writeOff := n.writeOff + data.length },
    { c with stripe := s, writePos := c.writePos + data.length }, m, ?_, ?_, ?_, ⟨d, rfl⟩, rfl⟩
  · rw [← h.writePos] at huser
    have hwithin := node_write_within mem (n := n) huser (by rw [h.writePos]; omega)
      (by rw [h.writePos]; omega) rfl rfl
    rw [goAccess, hwithin, hgo]
  · cases api with
    | poll =>
      have hpoll : c.pollWrite chunks mem data .pending [] =
          (({ c with stripe := s, writePos := c.writePos + data.length }, m),
            .ready (.ok data.length)) := by
        rw [ShmConnection.pollWrite, if_neg (by simp [h.idle]), ShmConnection.tryWrite_eq]
        simp only [hmeta, if_neg hcount.1, if_neg hcount.2, hrust]
      rw [rustAccess, hpoll]
    | blocking =>
      have hwrite : c.write chunks mem data =
          (({ c with stripe := s, writePos := c.writePos + data.length }, m), .ok data.length) := by
        simp only [ShmConnection.write, hmeta, if_neg hcount.1, if_neg hcount.2, hrust]
      rw [rustAccess, hwrite]
  · exact
      { wf := { h.wf with dataLen := hcap }
        blocks := h.blocks
        decoded := hdec
        stripe := hsh
        idle := h.idle
        readPos := h.readPos
        writePos := by
          dsimp only
          rw [h.writePos, Nat.cast_add]
        written := hpos }

end Write

end Agree

/-! ## Whole runs -/

theorem agree_run {as : List Access} (h : Agree chunks header n c mem)
    (huser : c.writePos + written as ≤ userCap n.stripe)
    (hle : c.writePos + written as ≤ min n.stripe.capacity StripeDataSizeLimit) :
    ∃ n' c' m outcomes, runAccesses goAccess (n, mem) as = some ((n', m), outcomes) ∧
      runAccesses (rustAccess chunks) (c, mem) as = some ((c', m), outcomes) := by
  induction as generalizing n c mem with
  | nil => exact ⟨n, c, mem, [], rfl, rfl⟩
  | cons a as ih =>
    have hsum : written (a :: as) = a.written + written as := by
      rw [written, List.map_cons, List.sum_cons, written]
    cases a with
    | read api len =>
      obtain ⟨n₁, c₁, data, hgo, hrust, h₁, hstripe, hoff⟩ := h.read_step api len
      have hpos : c₁.writePos = c.writePos := by
        have := h.writePos
        have := h₁.writePos
        omega
      rw [Access.written, Nat.zero_add] at hsum
      rw [hsum, ← hpos, ← hstripe] at huser hle
      obtain ⟨n', c', m, outcomes, hgo', hrust'⟩ := ih h₁ huser hle
      refine ⟨n', c', m, .bytes data :: outcomes, ?_, ?_⟩
      · rw [runAccesses, hgo, Option.bind_some, hgo', Option.map_some]
      · rw [runAccesses, hrust, Option.bind_some, hrust', Option.map_some]
    | write api data =>
      rw [Access.written] at hsum
      have hfit : c.writePos + data.length ≤ min n.stripe.capacity StripeDataSizeLimit := by omega
      obtain ⟨n₁, c₁, m₁, hgo, hrust, h₁, ⟨d, hstripe⟩, hpos⟩ := h.write_step hfit (by omega) api
      have huser₁ : userCap n₁.stripe = userCap n.stripe := by rw [hstripe]; rfl
      have hcap₁ : n₁.stripe.capacity = n.stripe.capacity := by rw [hstripe]; rfl
      obtain ⟨n', c', m, outcomes, hgo', hrust'⟩ :=
        ih h₁ (by rw [huser₁]; omega) (by rw [hcap₁]; omega)
      refine ⟨n', c', m, .wrote data.length :: outcomes, ?_, ?_⟩
      · rw [runAccesses, hgo, Option.bind_some, hgo', Option.map_some]
      · rw [runAccesses, hrust, Option.bind_some, hrust', Option.map_some]

theorem agree_new (h : WellFormed chunks header (processSlot mem header).stripe) :
    Agree chunks header (processSlot mem header) (.new header) mem :=
  { wf := h
    blocks := rfl
    decoded := rfl
    stripe := rfl
    idle := rfl
    readPos := rfl
    writePos := rfl
    written := Nat.zero_le _ }

/-- A Go node and a Rust node that process a slot with a well-formed header get the same bytes from
every read and leave the same memory, in every run of sequential reads and writes in which the bytes
written fit in the stripe (by its block count and by its blocks) and in the limit. -/
theorem rust_agrees_with_go (chunks : List Chunk) (mem : Memory) (header : BlockId)
    (hwf : WellFormed chunks header (processSlot mem header).stripe) (as : List Access)
    (huser : written as ≤ userCap (processSlot mem header).stripe)
    (hle : written as ≤ min (processSlot mem header).stripe.capacity StripeDataSizeLimit) :
    ∃ n c m outcomes,
      runAccesses goAccess (processSlot mem header, mem) as = some ((n, m), outcomes) ∧
      runAccesses (rustAccess chunks) (.new header, mem) as = some ((c, m), outcomes) := by
  refine agree_run (agree_new hwf) ?_ ?_
  · simpa [ShmConnection.new] using huser
  · simpa [ShmConnection.new] using hle

/-- A stripe of a header block and one data block. -/
def twoBlocks : Memory :=
  Function.update (fun _ _ => 0) (-1, 256) (updateStripeHeader 0 2 [-1, 256, 257] fun _ => 0)

theorem decodeHeader_twoBlocks : decodeHeader (twoBlocks (-1, 256)) = (0, 2, [-1, 256, 257]) := by
  rw [twoBlocks, Function.update_self]
  exact decodeHeader_update_of_le (by decide) (by decide)

theorem processSlot_twoBlocks : (processSlot twoBlocks (-1, 256)).stripe =
    { sequence := [-1, 256, 257], blockCount := 2, blocks := [(-1, 256), (-1, 257)], dataLen := 0 } := by
  simp only [processSlot, decodeHeader_twoBlocks]
  decide

/-- A write, a read of it and a read at the end of data. -/
theorem rust_agrees_with_go_twoBlocks : ∃ n c m outcomes,
    runAccesses goAccess (processSlot twoBlocks (-1, 256), twoBlocks)
      [.write .poll [1, 2, 3], .read .blocking 5, .read .poll 1] = some ((n, m), outcomes) ∧
    runAccesses (rustAccess [⟨0⟩]) (.new (-1, 256), twoBlocks)
      [.write .poll [1, 2, 3], .read .blocking 5, .read .poll 1] = some ((c, m), outcomes) := by
  refine rust_agrees_with_go [⟨0⟩] twoBlocks (-1, 256) ?_ _ ?_ ?_
  · rw [processSlot_twoBlocks]
    exact ⟨by decide, ⟨-1, _, rfl, by decide⟩, rfl, by decide, by decide, Nat.zero_le _⟩
  · rw [processSlot_twoBlocks]
    decide
  · rw [processSlot_twoBlocks]
    decide

end Mmfg.Rust
