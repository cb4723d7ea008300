import Mmfg.Shm.Represent

/-!
# The connection of the hub

A `busConn` reads and writes its stripe at two cursors or at given offsets.  Before a write,
`ensureCapacity` appends blocks to the stripe if the write does not fit (`ensureCapacity_spec`).
What `AllocBlocks` answers is an input of each call.
-/

namespace Mmfg.Conn

open File Shm

/-- The calls of a connection; a read is given the size of its buffer, and the reads that `WriteTo`
makes the sizes, less one, of theirs. -/
inductive Call
  | write (data : List UInt8)
  | writeByte (b : UInt8)
  | writeAt (data : List UInt8) (off : ℤ)
  | read (len : ℕ)
  | readByte
  | readAt (len : ℕ) (off : ℤ)
  | writeTo (bufs : ℕ → ℕ)
  | dataLen

/-- The call writes. -/
def Call.writes : Call → Bool
  | .write _ | .writeByte _ | .writeAt _ _ => true
  | .read _ | .readByte | .readAt _ _ | .writeTo _ | .dataLen => false

/-- What a call returns: bytes that were read, one byte, the number of bytes written, the error of
`WriteByte`, and the data length. -/
inductive Result (β : Type)
  | bytes (data : List β) (err : Option IOError)
  | byte (result : Except IOError β)
  | wrote (n : ℕ) (err : Option IOError)
  | done (err : Option IOError)
  | len (n : ℕ)

/-- The values that a call returns. -/
def Result.values {β : Type} : Result β → List β
  | .bytes data _ => data
  | .byte (.ok b) => [b]
  | _ => []

/-- A connection, as far as reads and writes go. -/
structure BusConn where
  stripe : Stripe
  readOff : ℤ
  writeOff : ℤ
  deriving DecidableEq

/-- The connection of a successful `Request`, given the blocks that were allocated. -/
def BusConn.request (blocks : List BlockId) (mem : Memory) : BusConn × Memory :=
  let r := Stripe.create blocks mem
  ({ stripe := r.1, readOff := 0, writeOff := 0 }, r.2)

/-! ## Capacity -/

/-- `ensureCapacity`, given the answer of `AllocBlocks`; that panics if the count is negative. -/
def ensureCapacity (s : Stripe) (mem : Memory) (needed : ℤ) (alloc : Option (List BlockId)) :
    (Stripe × Memory) × Option IOError :=
  if needed ≤ userCap s then ((s, mem), none)
  else if blocksNeeded s needed < 0 then ((s, mem), some .panic)
  else s.allocBlocksForStripe mem alloc

namespace BusConn

/-! ## Writes -/

/-- `WriteAt`. -/
def writeAt (c : BusConn) (mem : Memory) (data : List UInt8) (off : ℤ)
    (alloc : Option (List BlockId)) : (BusConn × Memory) × ℕ × Option IOError :=
  let e := ensureCapacity c.stripe mem (int64 (off + data.length)) alloc
  match e.2 with
  | some err => (({ c with stripe := e.1.1 }, e.1.2), 0, some err)
  | none =>
    let w := e.1.1.writeAt e.1.2 data off
    (({ c with stripe := w.1.1 }, w.1.2), w.2)

/-- `Write`: at the write cursor, which moves if there is no error. -/
def write (c : BusConn) (mem : Memory) (data : List UInt8) (alloc : Option (List BlockId)) :
    (BusConn × Memory) × ℕ × Option IOError :=
  let w := c.writeAt mem data c.writeOff alloc
  match w.2.2 with
  | some _ => w
  | none => (({ w.1.1 with writeOff := w.1.1.writeOff + w.2.1 }, w.1.2), w.2)

/-- `WriteByte`. -/
def writeByte (c : BusConn) (mem : Memory) (b : UInt8) (alloc : Option (List BlockId)) :
    (BusConn × Memory) × Option IOError :=
  let e := ensureCapacity c.stripe mem (int64 (c.writeOff + 1)) alloc
  match e.2 with
  | some err => (({ c with stripe := e.1.1 }, e.1.2), some err)
  | none =>
    let w := e.1.1.writeByteAt e.1.2 b c.writeOff
    let c := { c with stripe := w.1.1 }
    match w.2 with
    | some err => ((c, w.1.2), some err)
    | none => (({ c with writeOff := c.writeOff + 1 }, w.1.2), none)

/-! ## Reads -/

/-- `ReadAt`. -/
def readAt (c : BusConn) (mem : Memory) (len : ℕ) (off : ℤ) : List UInt8 × Option IOError :=
  c.stripe.readAt mem len off

/-- `Read`: at the read cursor, which moves if there is no error. -/
def read (c : BusConn) (mem : Memory) (len : ℕ) : BusConn × List UInt8 × Option IOError :=
  let r := c.readAt mem len c.readOff
  match r.2 with
  | some _ => (c, r)
  | none => ({ c with readOff := c.readOff + r.1.length }, r)

/-- `ReadByte`. -/
def readByte (c : BusConn) (mem : Memory) : BusConn × Except IOError UInt8 :=
  match c.stripe.readByteAt mem c.readOff with
  | .error err => (c, .error err)
  | .ok b => ({ c with readOff := c.readOff + 1 }, .ok b)

/-- The loop of `io.Copy` over an `io.LimitReader` that has `limit` bytes left, with a buffer of
`bufs k + 1` bytes in round `k`.  Each round reads at least one byte or ends the loop, so that
`limit + 1` rounds are enough. -/
def copyLoop (mem : Memory) (bufs : ℕ → ℕ) : ℕ → ℕ → BusConn → ℕ →
    BusConn × List UInt8 × Option IOError
  | 0, _, c, _ => (c, [], none)
  | fuel + 1, k, c, limit =>
    -- `LimitReader` reports the end of file when nothing is left
    if limit = 0 then (c, [], none)
    else
      let r := c.read mem (min (bufs k + 1) limit)
      match r.2.2 with
      | some .eof => (r.1, r.2.1, none)
      | some err => (r.1, r.2.1, some err)
      | none =>
        let rest := copyLoop mem bufs fuel (k + 1) r.1 (limit - r.2.1.length)
        (rest.1, r.2.1 ++ rest.2.1, rest.2.2)

/-- `WriteTo`, to a writer that accepts everything. -/
def writeTo (c : BusConn) (mem : Memory) (bufs : ℕ → ℕ) : BusConn × List UInt8 × Option IOError :=
  copyLoop mem bufs (c.stripe.dataLen.toNat + 1) 0 c c.stripe.dataLen.toNat

/-! ## All calls -/

/-- One call, with its result. -/
def call (c : BusConn) (mem : Memory) (alloc : Option (List BlockId)) :
    Call → (BusConn × Memory) × Result UInt8
  | .write data =>
    let r := c.write mem data alloc
    (r.1, .wrote r.2.1 r.2.2)
  | .writeByte b =>
    let r := c.writeByte mem b alloc
    (r.1, .done r.2)
  | .writeAt data off =>
    let r := c.writeAt mem data off alloc
    (r.1, .wrote r.2.1 r.2.2)
  | .read len =>
    let r := c.read mem len
    ((r.1, mem), .bytes r.2.1 r.2.2)
  | .readByte =>
    let r := c.readByte mem
    ((r.1, mem), .byte r.2)
  | .readAt len off =>
    let r := c.readAt mem len off
    ((c, mem), .bytes r.1 r.2)
  | .writeTo bufs =>
    let r := c.writeTo mem bufs
    ((r.1, mem), .bytes r.2.1 r.2.2)
  | .dataLen => ((c, mem), .len c.stripe.dataLen.toNat)

/-- The end of the write that a call makes, as the code computes it; `none` for reads. -/
def needed (c : BusConn) : Call → Option ℤ
  | .write data => some (int64 (c.writeOff + data.length))
  | .writeByte _ => some (int64 (c.writeOff + 1))
  | .writeAt data off => some (int64 (off + data.length))
  | _ => none

theorem writes_of_needed {c : BusConn} {call : Call} {n : ℤ} (h : c.needed call = some n) :
    call.writes = true := by
  cases call <;> first | rfl | cases h

/-- The answer of `AllocBlocks` is one it can give: as many blocks as were asked for, and new. -/
def Answers (c : BusConn) (call : Call) (alloc : Option (List BlockId)) : Prop :=
  ∀ blocks ∈ alloc, ∀ n ∈ c.needed call, Granted c.stripe.blocks (blocksNeeded c.stripe n).toNat blocks

end BusConn

/-! ## What growing keeps -/

/-- The stripe has grown, and nothing else: the old data and length are there, and memory outside
the blocks is unchanged. -/
structure Grown (s : Stripe) (mem : Memory) (s' : Stripe) (mem' : Memory) : Prop where
  wf : s'.Wf
  dataLen : s'.dataLen = s.dataLen
  capacity : s.capacity ≤ s'.capacity
  blocks : s.blocks <+: s'.blocks
  mem : ∀ b, b ≠ s.header → mem' b = mem b

variable {s : Stripe} {mem : Memory} {needed : ℤ} {alloc : Option (List BlockId)}

theorem Grown.refl (h : s.Wf) : Grown s mem s mem := ⟨h, rfl, le_rfl, List.prefix_rfl, fun _ _ => rfl⟩

theorem userCap_of_count (hne : s.blocks ≠ []) (hcnt : s.blockCount = s.blocks.length) :
    userCap s = s.capacity := by
  have hpos := List.length_pos_iff.2 hne
  rw [userCap, Stripe.capacity, List.length_tail, hcnt]
  push_cast [Nat.cast_sub hpos]
  rfl

theorem userCap_eq (h : s.Wf) : userCap s = s.capacity := userCap_of_count h.nonempty h.blockCount

theorem int64_eq {x : ℤ} (h1 : -2 ^ 63 ≤ x) (h2 : x < 2 ^ 63) : int64 x = x :=
  Int.bmod_eq_of_le (by omega) (by omega)

theorem int64_of_ge {x : ℤ} (h1 : 2 ^ 63 ≤ x) (h2 : x < 2 ^ 64) : int64 x = x - 2 ^ 64 := by
  rw [int64, Int.bmod_def]
  simp only [Nat.cast_pow, Nat.cast_ofNat]
  split_ifs <;> omega

/-- Without overflow, the blocks asked for are enough. -/
theorem le_blocksNeeded (h : s.Wf) (hn : userCap s < needed) (hlt : needed + BlockSize < 2 ^ 63) :
    0 ≤ blocksNeeded s needed ∧ needed ≤ userCap s + blocksNeeded s needed * BlockSize := by
  have hcap : 0 ≤ userCap s := by
    rw [userCap_eq h]
    positivity
  have hint := int64_eq (x := needed - userCap s + BlockSize - 1) (by omega) (by omega)
  rw [blocksNeeded, hint, Int.tdiv_eq_ediv_of_nonneg (by omega)]
  simp only [BlockSize, Nat.cast_ofNat]
  omega

variable (mem) in
theorem grown_allocBlocks (h : s.Wf) {count : ℕ} {blocks : List BlockId}
    (hg : Granted s.blocks count blocks) :
    Grown s mem (s.allocBlocksForStripe mem (some blocks)).1.1
      (s.allocBlocksForStripe mem (some blocks)).1.2 where
  wf := h.allocBlocks hg
  dataLen := rfl
  capacity := by
    simp only [Stripe.capacity, Stripe.allocBlocksForStripe, Stripe.allocBlocks, List.length_tail,
      List.length_append]
    exact Nat.mul_le_mul_right _ (by omega)
  blocks := List.prefix_append _ _
  mem := by
    intro b hb
    have hheader : (s.allocBlocks blocks).header = s.header := by
      rw [Stripe.header, Stripe.allocBlocks, Stripe.header_cons h.nonempty]
      rfl
    simp only [Stripe.allocBlocksForStripe, hheader, Function.update_of_ne hb]

variable (mem) in
/-- `ensureCapacity` either fails, and changes nothing, or the stripe is large enough. -/
theorem ensureCapacity_spec (h : s.Wf) (hlt : needed + BlockSize < 2 ^ 63)
    (halloc : ∀ blocks ∈ alloc, Granted s.blocks (blocksNeeded s needed).toNat blocks) :
    (ensureCapacity s mem needed alloc = ((s, mem), some .allocFailed) ∧ alloc = none ∧
      userCap s < needed) ∨
    ((ensureCapacity s mem needed alloc).2 = none ∧ (alloc = none → needed ≤ userCap s) ∧
      Grown s mem (ensureCapacity s mem needed alloc).1.1 (ensureCapacity s mem needed alloc).1.2 ∧
      needed ≤ (ensureCapacity s mem needed alloc).1.1.capacity) := by
  unfold ensureCapacity
  by_cases hn : needed ≤ userCap s
  · rw [if_pos hn]
    refine .inr ⟨rfl, fun _ => hn, .refl h, ?_⟩
    rwa [userCap_eq h] at hn
  · obtain ⟨hpos, hle⟩ := le_blocksNeeded h (by omega) hlt
    rw [if_neg hn, if_neg (by omega)]
    cases alloc with
    | none => exact .inl ⟨rfl, rfl, by omega⟩
    | some blocks =>
      have hg := halloc blocks rfl
      have hgrown := grown_allocBlocks mem h hg
      refine .inr ⟨rfl, nofun, hgrown, ?_⟩
      have hcap : userCap (s.allocBlocks blocks) =
          userCap s + blocksNeeded s needed * BlockSize := by
        simp only [userCap, Stripe.allocBlocks, hg.1]
        push_cast [Int.toNat_of_nonneg hpos]
        ring
      rw [← userCap_eq hgrown.wf]
      exact hle.trans hcap.symm.le

end Mmfg.Conn
