import Mmfg.Conn.File

/-!
# The connection of a node

A `nodeConn` has the same calls as the hub's connection, written a second time.  Where a write does
not fit it asks the hub for an expansion and waits; within the capacity it never does.

There the two behave alike, except that `nodeConn.WriteByte` does not move the write cursor: the
cursors differ afterwards by the number of bytes written that way (`runs_apart`), and without such
calls nothing differs (`node_agrees_iff`).
-/

namespace Mmfg.Conn

open File Shm

/-- A node's connection to the stripe of a slot; `failed` records a refused expansion. -/
structure NodeConn where
  stripe : Stripe
  readOff : ℤ
  writeOff : ℤ
  failed : Bool
  deriving DecidableEq

/-- `OnExpandComplete`: the blocks that are new in the header.  The block count stays. -/
def onExpandComplete (s : Stripe) (mem : Memory) : Stripe :=
  let newSequence := (decodeHeader (mem s.header)).2.2
  { s with
    blocks := s.blocks ++ resolveFrom s.sequence.length 0 0 newSequence
    sequence := newSequence }

/-- The connection that `processSlot` gives to the handler, given the header's entry in the
registry. -/
def processSlot (mem : Memory) (header : BlockId) : NodeConn :=
  let (dataLen, blkCnt, seq) := decodeHeader (mem header)
  { stripe :=
      { sequence := seq, blockCount := blkCnt, blocks := resolve header.1 seq, dataLen := dataLen }
    readOff := 0
    writeOff := 0
    failed := false }

namespace NodeConn

/-- The loop that asks for expansions until `needCap` bytes fit.  The answers are those of the hub,
with the memory after it; `none` is a refusal.  Without an answer the call does not return. -/
def expandLoop (needCap : ℤ) : List (Option Memory) → NodeConn → Memory →
    Option ((NodeConn × Memory) × Option IOError)
  | [], c, mem => if needCap > userCap c.stripe then none else some ((c, mem), none)
  | answer :: answers, c, mem =>
    if needCap > userCap c.stripe then
      match answer with
      | none => some (({ c with failed := true }, mem), some .expandFailed)
      | some mem =>
        expandLoop needCap answers { c with stripe := onExpandComplete c.stripe mem } mem
    else some ((c, mem), none)

/-- What a write checks first. -/
def prepare (c : NodeConn) (mem : Memory) (needCap : ℤ) (answers : List (Option Memory)) :
    Option ((NodeConn × Memory) × Option IOError) :=
  if needCap > StripeDataSizeLimit then some ((c, mem), some .limitReached)
  else expandLoop needCap answers c mem

/-- `WriteAt`. -/
def writeAt (c : NodeConn) (mem : Memory) (p : List UInt8) (off : ℤ)
    (answers : List (Option Memory)) : Option ((NodeConn × Memory) × ℕ × Option IOError) :=
  (c.prepare mem (int64 (off + p.length)) answers).map fun r =>
    match r.2 with
    | some err => (r.1, 0, some err)
    | none =>
      let w := r.1.1.stripe.writeAt r.1.2 p off
      (({ r.1.1 with stripe := w.1.1 }, w.1.2), w.2)

/-- `Write`: at the write cursor, which moves if there is no error. -/
def write (c : NodeConn) (mem : Memory) (p : List UInt8) (answers : List (Option Memory)) :
    Option ((NodeConn × Memory) × ℕ × Option IOError) :=
  (c.writeAt mem p c.writeOff answers).map fun w =>
    match w.2.2 with
    | some err => (w.1, 0, some err)
    | none => (({ w.1.1 with writeOff := w.1.1.writeOff + w.2.1 }, w.1.2), w.2)

/-- The cursor stays where it is. -/
def writeByte (c : NodeConn) (mem : Memory) (b : UInt8) (answers : List (Option Memory)) :
    Option ((NodeConn × Memory) × Option IOError) :=
  (c.prepare mem (int64 (c.writeOff + 1)) answers).map fun r =>
    match r.2 with
    | some err => (r.1, some err)
    | none =>
      let w := r.1.1.stripe.writeByteAt r.1.2 b c.writeOff
      (({ r.1.1 with stripe := w.1.1 }, w.1.2), w.2)

/-- `ReadAt`. -/
def readAt (c : NodeConn) (mem : Memory) (len : ℕ) (off : ℤ) : List UInt8 × Option IOError :=
  c.stripe.readAt mem len off

/-- `Read`: at the read cursor, which moves if there is no error. -/
def read (c : NodeConn) (mem : Memory) (len : ℕ) : NodeConn × List UInt8 × Option IOError :=
  let r := c.stripe.readAt mem len c.readOff
  match r.2 with
  | some _ => (c, r)
  | none => ({ c with readOff := c.readOff + r.1.length }, r)

/-- `ReadByte`. -/
def readByte (c : NodeConn) (mem : Memory) : NodeConn × Except IOError UInt8 :=
  match c.stripe.readByteAt mem c.readOff with
  | .error err => (c, .error err)
  | .ok b => ({ c with readOff := c.readOff + 1 }, .ok b)

/-- A call; there is no `WriteTo`. -/
def call (c : NodeConn) (mem : Memory) (answers : List (Option Memory)) :
    Call → Option ((NodeConn × Memory) × Result UInt8)
  | .write data => (c.write mem data answers).map fun r => (r.1, .wrote r.2.1 r.2.2)
  | .writeByte b => (c.writeByte mem b answers).map fun r => (r.1, .done r.2)
  | .writeAt data off => (c.writeAt mem data off answers).map fun r => (r.1, .wrote r.2.1 r.2.2)
  | .read len =>
    let r := c.read mem len
    some ((r.1, mem), .bytes r.2.1 r.2.2)
  | .readByte =>
    let r := c.readByte mem
    some ((r.1, mem), .byte r.2)
  | .readAt len off =>
    let r := c.readAt mem len off
    some ((c, mem), .bytes r.1 r.2)
  | .writeTo _ => none
  | .dataLen => some ((c, mem), .len c.stripe.dataLen.toNat)

/-- The calls in order, without any expansion. -/
def run : NodeConn × Memory → List Call → Option ((NodeConn × Memory) × List (Result UInt8))
  | s, [] => some (s, [])
  | s, call :: calls =>
    (s.1.call s.2 [] call).bind fun r => (run r.1 calls).map fun t => (t.1, r.2 :: t.2)

end NodeConn

/-- The calls in order, without any allocation. -/
def BusConn.runCalls : BusConn × Memory → List Call → (BusConn × Memory) × List (Result UInt8)
  | s, [] => (s, [])
  | s, call :: calls =>
    let r := s.1.call s.2 none call
    let t := runCalls r.1 calls
    (t.1, r.2 :: t.2)

/-- The call is one that both have, and a write ends within the blocks and the limit. -/
def BusConn.Within (c : BusConn) : Call → Prop
  | .write data => c.writeOff + data.length ≤ min c.stripe.capacity StripeDataSizeLimit
  | .writeByte _ => c.writeOff + 1 ≤ min c.stripe.capacity StripeDataSizeLimit
  | .writeAt data off =>
    -2 ^ 63 ≤ off ∧ off + data.length ≤ min c.stripe.capacity StripeDataSizeLimit
  | .writeTo _ => False
  | _ => True

/-- Every call of a sequence stays within the stripe. -/
def BusConn.StaysWithin : BusConn × Memory → List Call → Prop
  | _, [] => True
  | s, call :: calls => s.1.Within call ∧ StaysWithin (s.1.call s.2 none call).1 calls

instance (c : BusConn) : (call : Call) → Decidable (c.Within call)
  | .write _ | .writeByte _ => inferInstanceAs (Decidable (_ ≤ _))
  | .writeAt .. => inferInstanceAs (Decidable (_ ∧ _))
  | .writeTo _ => inferInstanceAs (Decidable False)
  | .read _ | .readByte | .readAt .. | .dataLen => inferInstanceAs (Decidable True)

instance BusConn.decidableStaysWithin : (s : BusConn × Memory) → (calls : List Call) →
    Decidable (StaysWithin s calls)
  | _, [] => inferInstanceAs (Decidable True)
  | s, call :: calls =>
    have := decidableStaysWithin (s.1.call s.2 none call).1 calls
    inferInstanceAs (Decidable (_ ∧ _))

/-- The node's connection that corresponds to the hub's. -/
def BusConn.onNode (c : BusConn) (failed : Bool) : NodeConn :=
  { stripe := c.stripe, readOff := c.readOff, writeOff := c.writeOff, failed }

/-- The call is a `WriteByte`. -/
def Call.isWriteByte : Call → Bool
  | .writeByte _ => true
  | _ => false

variable {c : BusConn} {n : NodeConn} {mem mem' : Memory} {call : Call}

/-! ## Writes within the capacity -/

section Within

variable {s : Stripe} {data : List UInt8} {off : ℤ} (hlow : -2 ^ 63 ≤ off)
  (huser : off + data.length ≤ userCap s)
  (hle : off + data.length ≤ min s.capacity StripeDataSizeLimit)

include hle

theorem le_userCap (hne : s.blocks ≠ []) (hcnt : s.blockCount = s.blocks.length) :
    off + data.length ≤ userCap s := by
  rw [userCap_of_count hne hcnt]
  omega

include hlow

theorem int64_within : int64 (off + data.length) = off + data.length := by
  have hlim : StripeDataSizeLimit = 2097152 := rfl
  exact int64_eq (by omega) (by omega)

include huser

theorem hub_writeAt_within (hs : c.stripe = s) :
    c.writeAt mem data off none =
      (({ c with stripe := (s.writeAt mem data off).1.1 }, (s.writeAt mem data off).1.2),
        (s.writeAt mem data off).2) := by
  subst hs
  simp only [BusConn.writeAt, int64_within hlow hle, ensureCapacity, if_pos huser]

variable (mem) in
theorem node_prepare_within (hs : n.stripe = s) :
    n.prepare mem (int64 (off + data.length)) [] = some ((n, mem), none) := by
  subst hs
  rw [int64_within hlow hle, NodeConn.prepare, if_neg (by omega), NodeConn.expandLoop,
    if_neg (by omega)]

variable (mem) in
theorem node_writeAt_within (hs : n.stripe = s) :
    n.writeAt mem data off [] =
      some (({ n with stripe := (s.writeAt mem data off).1.1 }, (s.writeAt mem data off).1.2),
        (s.writeAt mem data off).2) := by
  rw [NodeConn.writeAt, node_prepare_within mem hlow huser hle hs, ← hs]
  rfl

omit hlow huser in
theorem writeAt_within (h0 : 0 ≤ off) : (s.writeAt mem data off).2 = (data.length, none) := by
  have hlim : StripeDataSizeLimit = 2097152 := rfl
  have hblock : BlockSize = 4096 := rfl
  exact Stripe.writeAt_of_fits h0 (by omega) (by omega)

omit hlow in
theorem hub_write_within (h0 : 0 ≤ off) (hs : c.stripe = s) (hoff : c.writeOff = off) :
    c.write mem data none =
      (({ c with stripe := (s.writeAt mem data off).1.1, writeOff := off + data.length },
        (s.writeAt mem data off).1.2), data.length, none) := by
  rw [BusConn.write, hoff, hub_writeAt_within (by omega) huser hle hs,
    writeAt_within hle h0, ← hoff]

variable (mem) in
omit hlow in
theorem node_write_within (h0 : 0 ≤ off) (hs : n.stripe = s) (hoff : n.writeOff = off) :
    n.write mem data [] =
      some (({ n with stripe := (s.writeAt mem data off).1.1, writeOff := off + data.length },
        (s.writeAt mem data off).1.2), data.length, none) := by
  rw [NodeConn.write, hoff, node_writeAt_within mem (by omega) huser hle hs,
    writeAt_within hle h0, ← hoff]
  rfl

end Within

variable (mem) in
theorem node_writeByte_within {b : UInt8} (h0 : 0 ≤ n.writeOff)
    (huser : n.writeOff + [b].length ≤ userCap n.stripe)
    (hle : n.writeOff + [b].length ≤ min n.stripe.capacity StripeDataSizeLimit) :
    n.writeByte mem b [] =
      some (({ n with stripe := (n.stripe.writeAt mem [b] n.writeOff).1.1 },
        (n.stripe.writeAt mem [b] n.writeOff).1.2), (n.stripe.writeAt mem [b] n.writeOff).2.2) := by
  have hprep := node_prepare_within mem (by omega) huser hle rfl
  rw [NodeConn.writeByte, show (1 : ℤ) = ([b].length : ℕ) from rfl, hprep]
  simp only [Option.map_some, Stripe.writeByteAt_eq]

/-! ## One call -/

/-- How far a call moves the hub's write cursor. -/
def Call.advance : Call → ℕ
  | .write data => data.length
  | .writeByte _ => 1
  | _ => 0

/-- Stripes with the same blocks, and block counts that fit. -/
def SameBlocks (s t : Stripe) : Prop := s.blocks = t.blocks ∧ s.blockCount = t.blockCount

theorem sameBlocks_writeAt {s t : Stripe} (h : SameBlocks s t) (p : List UInt8) (off : ℤ) :
    SameBlocks (s.writeAt mem p off).1.1 t := by
  obtain ⟨k, hk⟩ := @Stripe.exists_writeAt_stripe mem p s off
  rw [hk]
  exact h

section Step

variable (hne : c.stripe.blocks ≠ []) (hcnt : c.stripe.blockCount = c.stripe.blocks.length)
  (hwithin : c.Within call)

include hne hcnt hwithin

variable (mem) in
theorem hub_call (h0 : 0 ≤ c.writeOff) :
    SameBlocks (c.call mem none call).1.1.stripe c.stripe ∧
      (c.call mem none call).1.1.writeOff = c.writeOff + call.advance := by
  have hwrite : ∀ data : List UInt8, c.Within (.write data) →
      SameBlocks (c.write mem data none).1.1.stripe c.stripe ∧
        (c.write mem data none).1.1.writeOff = c.writeOff + data.length := by
    intro data hw
    rw [hub_write_within (le_userCap hw hne hcnt) hw h0 rfl rfl]
    exact ⟨sameBlocks_writeAt ⟨rfl, rfl⟩ data _, rfl⟩
  cases call with
  | write data => exact hwrite data hwithin
  | writeByte b =>
    have := hwrite [b] hwithin
    simp only [BusConn.call, writeByte_eq]
    exact this
  | writeAt data off =>
    simp only [BusConn.call,
      hub_writeAt_within hwithin.1 (le_userCap hwithin.2 hne hcnt) hwithin.2 rfl]
    exact ⟨sameBlocks_writeAt ⟨rfl, rfl⟩ data off, (add_zero _).symm⟩
  | read len =>
    obtain ⟨r, hr⟩ := read_conn c mem len
    simp only [BusConn.call, hr]
    exact ⟨⟨rfl, rfl⟩, (add_zero _).symm⟩
  | readByte =>
    obtain ⟨r, hr⟩ := readByte_conn c mem
    simp only [BusConn.call, hr]
    exact ⟨⟨rfl, rfl⟩, (add_zero _).symm⟩
  | readAt len off => exact ⟨⟨rfl, rfl⟩, (add_zero _).symm⟩
  | writeTo bufs => exact absurd hwithin id
  | dataLen => exact ⟨⟨rfl, rfl⟩, (add_zero _).symm⟩

variable (mem) in
/-- Without `WriteByte` both do the same. -/
theorem node_call_eq (h0 : 0 ≤ c.writeOff) (hb : call.isWriteByte = false) (failed : Bool) :
    (c.onNode failed).call mem [] call =
      some (((c.call mem none call).1.1.onNode failed, (c.call mem none call).1.2),
        (c.call mem none call).2) := by
  cases call with
  | write data =>
    have huser := le_userCap hwithin hne hcnt
    simp only [NodeConn.call, BusConn.call, hub_write_within huser hwithin h0 rfl rfl,
      node_write_within mem (n := c.onNode failed) huser hwithin h0 rfl rfl]
    rfl
  | writeByte b => cases hb
  | writeAt data off =>
    have huser := le_userCap hwithin.2 hne hcnt
    simp only [NodeConn.call, BusConn.call, hub_writeAt_within hwithin.1 huser hwithin.2 rfl,
      node_writeAt_within mem (n := c.onNode failed) hwithin.1 huser hwithin.2 rfl]
    rfl
  | read len =>
    simp only [NodeConn.call, BusConn.call, NodeConn.read, BusConn.read, BusConn.readAt,
      BusConn.onNode]
    cases (c.stripe.readAt mem len c.readOff).2 <;> rfl
  | readByte =>
    simp only [NodeConn.call, BusConn.call, NodeConn.readByte, BusConn.readByte, BusConn.onNode]
    cases c.stripe.readByteAt mem c.readOff <;> rfl
  | readAt len off => rfl
  | writeTo bufs => exact absurd hwithin id
  | dataLen => rfl

variable (mem) in
theorem node_call (hs : SameBlocks n.stripe c.stripe) (h0 : 0 ≤ n.writeOff)
    (hle : n.writeOff ≤ c.writeOff) :
    ∃ n' m res, n.call mem [] call = some ((n', m), res) ∧ SameBlocks n'.stripe c.stripe ∧
      n'.writeOff = n.writeOff + if call.isWriteByte then 0 else call.advance := by
  have hne' : n.stripe.blocks ≠ [] := hs.1 ▸ hne
  have hcnt' : n.stripe.blockCount = n.stripe.blocks.length := by rw [hs.1, hs.2, hcnt]
  have hcap : n.stripe.capacity = c.stripe.capacity := by rw [Stripe.capacity, hs.1, Stripe.capacity]
  cases call with
  | write data =>
    have hw : n.writeOff + data.length ≤ min n.stripe.capacity StripeDataSizeLimit := by
      simp only [BusConn.Within] at hwithin
      rw [hcap]
      omega
    have hcall := node_write_within mem (n := n) (le_userCap hw hne' hcnt') hw h0 rfl rfl
    exact ⟨_, _, _, congrArg (Option.map _) hcall, sameBlocks_writeAt hs data n.writeOff, rfl⟩
  | writeByte b =>
    have hw : n.writeOff + [b].length ≤ min n.stripe.capacity StripeDataSizeLimit := by
      simp only [BusConn.Within] at hwithin
      rw [hcap, List.length_singleton]
      omega
    have hcall := node_writeByte_within mem h0 (le_userCap hw hne' hcnt') hw
    exact ⟨_, _, _, congrArg (Option.map _) hcall, sameBlocks_writeAt hs [b] n.writeOff,
      (add_zero _).symm⟩
  | writeAt data off =>
    have hw : off + data.length ≤ min n.stripe.capacity StripeDataSizeLimit := by
      rw [hcap]
      exact hwithin.2
    have hcall := node_writeAt_within mem (n := n) hwithin.1 (le_userCap hw hne' hcnt') hw rfl
    exact ⟨_, _, _, congrArg (Option.map _) hcall, sameBlocks_writeAt hs data off,
      (add_zero _).symm⟩
  | read len =>
    refine ⟨_, _, _, rfl, ?_⟩
    unfold NodeConn.read
    dsimp only
    split
    · exact ⟨hs, (add_zero _).symm⟩
    · exact ⟨hs, (add_zero _).symm⟩
  | readByte =>
    refine ⟨_, _, _, rfl, ?_⟩
    unfold NodeConn.readByte
    split
    · exact ⟨hs, (add_zero _).symm⟩
    · exact ⟨hs, (add_zero _).symm⟩
  | readAt len off => exact ⟨_, _, _, rfl, hs, (add_zero _).symm⟩
  | writeTo bufs => exact absurd hwithin id
  | dataLen => exact ⟨_, _, _, rfl, hs, (add_zero _).symm⟩

end Step

/-! ## Runs -/

theorem SameBlocks.count {s t : Stripe} (h : SameBlocks s t) (hne : t.blocks ≠ [])
    (hcnt : t.blockCount = t.blocks.length) :
    s.blocks ≠ [] ∧ s.blockCount = s.blocks.length := by
  rw [h.1, h.2]
  exact ⟨hne, hcnt⟩

theorem run_eq {calls : List Call} (hne : c.stripe.blocks ≠ [])
    (hcnt : c.stripe.blockCount = c.stripe.blocks.length) (h0 : 0 ≤ c.writeOff)
    (hin : BusConn.StaysWithin (c, mem) calls) (hb : ∀ call ∈ calls, call.isWriteByte = false)
    (failed : Bool) :
    NodeConn.run (c.onNode failed, mem) calls =
      some (((BusConn.runCalls (c, mem) calls).1.1.onNode failed,
        (BusConn.runCalls (c, mem) calls).1.2), (BusConn.runCalls (c, mem) calls).2) := by
  induction calls generalizing c mem with
  | nil => rfl
  | cons call calls ih =>
    obtain ⟨hsame, hoff⟩ := hub_call mem hne hcnt hin.1 h0
    obtain ⟨hne', hcnt'⟩ := hsame.count hne hcnt
    have hstep := node_call_eq mem hne hcnt hin.1 h0 (hb call (by simp)) failed
    rw [NodeConn.run, hstep, Option.bind_some, ih hne' hcnt' (by omega) hin.2
      (fun k hk => hb k (by simp [hk]))]
    rfl

variable (mem') in
/-- After any run the hub's cursor is ahead by the number of `WriteByte` calls. -/
theorem runs_apart {calls : List Call} (hne : c.stripe.blocks ≠ [])
    (hcnt : c.stripe.blockCount = c.stripe.blocks.length)
    (hin : BusConn.StaysWithin (c, mem) calls) (hs : SameBlocks n.stripe c.stripe)
    (h0 : 0 ≤ n.writeOff) (hle : n.writeOff ≤ c.writeOff) :
    ∃ n' m res, NodeConn.run (n, mem') calls = some ((n', m), res) ∧
      (BusConn.runCalls (c, mem) calls).1.1.writeOff - n'.writeOff =
        c.writeOff - n.writeOff + (calls.filter Call.isWriteByte).length := by
  induction calls generalizing c n mem mem' with
  | nil => exact ⟨n, mem', [], rfl, (add_zero _).symm⟩
  | cons call calls ih =>
    obtain ⟨hsame, hoff⟩ := hub_call mem hne hcnt hin.1 (by omega)
    obtain ⟨hne', hcnt'⟩ := hsame.count hne hcnt
    obtain ⟨n₁, m₁, res₁, hcall, hs₁, hoff₁⟩ := node_call mem' hne hcnt hin.1 hs h0 hle
    have hadv : (if call.isWriteByte then 0 else call.advance) ≤ call.advance := by
      split_ifs <;> omega
    obtain ⟨n', m, res, hrun, hdiff⟩ := ih m₁ hne' hcnt' hin.2
      ⟨hs₁.1.trans hsame.1.symm, hs₁.2.trans hsame.2.symm⟩ (by omega) (by omega)
    refine ⟨n', m, res₁ :: res, ?_, ?_⟩
    · rw [NodeConn.run, hcall, Option.bind_some, hrun]
      rfl
    · change (BusConn.runCalls (c.call mem none call).1 calls).1.1.writeOff - _ = _
      rw [hdiff, hoff, hoff₁, List.filter_cons]
      cases call with
      | writeByte b =>
        simp only [Call.isWriteByte, Call.advance, if_true, List.length_cons]
        push_cast
        ring
      | _ =>
        simp only [Call.isWriteByte, Bool.false_eq_true, if_false]
        ring

/-- A node's connection and the hub's, started on the same stripe with the same cursors, return the
same results and end with the same stripe, memory and cursors, for every sequence of calls that
stays within capacity and limit, if and only if `WriteByte` is not among them. -/
theorem node_agrees_iff (s : Stripe) (hne : s.blocks ≠ []) (hcnt : s.blockCount = s.blocks.length)
    (mem : Memory) (readOff writeOff : ℤ) (h0 : 0 ≤ writeOff) (failed : Bool) (calls : List Call)
    (hin : BusConn.StaysWithin (⟨s, readOff, writeOff⟩, mem) calls) :
    (∃ n m, NodeConn.run (⟨s, readOff, writeOff, failed⟩, mem) calls =
        some ((n, m), (BusConn.runCalls (⟨s, readOff, writeOff⟩, mem) calls).2) ∧
      (BusConn.runCalls (⟨s, readOff, writeOff⟩, mem) calls).1 =
        (⟨n.stripe, n.readOff, n.writeOff⟩, m)) ↔
    ∀ call ∈ calls, call.isWriteByte = false := by
  constructor
  · rintro ⟨n, m, hrun, hend⟩
    obtain ⟨n', m', res, hrun', hdiff⟩ := runs_apart mem (n := ⟨s, readOff, writeOff, failed⟩)
      hne hcnt hin ⟨rfl, rfl⟩ h0 le_rfl
    rw [hrun] at hrun'
    cases hrun'
    rw [hend] at hdiff
    have hzero : (calls.filter Call.isWriteByte).length = 0 := by
      dsimp only at hdiff
      omega
    intro call hcall
    have hnil := List.filter_eq_nil_iff.1 (List.length_eq_zero_iff.1 hzero) call hcall
    simpa using hnil
  · intro hb
    exact ⟨_, _, run_eq hne hcnt h0 hin hb failed, rfl⟩

/-- A stripe of two blocks, and a write, a read and a positional write that agree. -/
theorem node_agrees_iff_run : ∃ n m, NodeConn.run
    (⟨allocStripe [(-1, 256), (-1, 257)], 0, 0, false⟩, fun _ _ => 0)
      [.write [1, 2, 3], .read 2, .writeAt [4] 100] =
      some ((n, m), (BusConn.runCalls (⟨allocStripe [(-1, 256), (-1, 257)], 0, 0⟩, fun _ _ => 0)
        [.write [1, 2, 3], .read 2, .writeAt [4] 100]).2) ∧
    (BusConn.runCalls (⟨allocStripe [(-1, 256), (-1, 257)], 0, 0⟩, fun _ _ => 0)
      [.write [1, 2, 3], .read 2, .writeAt [4] 100]).1 = (⟨n.stripe, n.readOff, n.writeOff⟩, m) :=
  (node_agrees_iff (allocStripe [(-1, 256), (-1, 257)]) (by decide) (by decide) (fun _ _ => 0) 0 0
    le_rfl false [.write [1, 2, 3], .read 2, .writeAt [4] 100]
    (by decide +kernel)).2 (by decide)

/-- Two bytes written one by one and read back: the hub returns both, the node the second alone, at
offset 0. -/
theorem node_writeByte_overwrites :
    (BusConn.runCalls (⟨allocStripe [(-1, 256), (-1, 257)], 0, 0⟩, fun _ _ => 0)
      [.writeByte 1, .writeByte 2, .read 2]).2.map Result.values = [[], [], [1, 2]] ∧
    (NodeConn.run (⟨allocStripe [(-1, 256), (-1, 257)], 0, 0, false⟩, fun _ _ => 0)
      [.writeByte 1, .writeByte 2, .read 2]).map (fun r => r.2.map Result.values) =
        some [[], [], [2]] := by
  decide +kernel

end Mmfg.Conn
