import Mmfg.Conn.File

/-!
# What a new connection can see of old data

Blocks are recycled without being cleared.  A new connection reads below its data length only, but a
positional write beyond the end raises the length over bytes that it has not written, and those
still hold the data of an earlier connection.

`isolated_iff_covered` says exactly when this happens.  The calls are run on a file of marks, which
says of each offset whether the connection has written it.  The results are independent of what the
blocks contained if and only if no read or view returns an unmarked byte: run on symbolic values,
the file of the connection shows where each byte comes from, and both runs are images of that one.
-/

namespace Mmfg.Conn

open File Shm

variable {β γ : Type}

/-! ## Calls and views -/

/-- What is done with a connection: a call, with the answer of `AllocBlocks`, or a view. -/
inductive Op
  | call (call : Call) (alloc : Option (List BlockId))
  | view (offset length : ℤ)

/-- The bytes that `View` shows to its callback. -/
def BusConn.view (c : BusConn) (mem : Memory) (offset length : ℤ) : Result UInt8 :=
  match c.stripe.view offset length with
  | .error err => .bytes [] (some err)
  | .ok (segments, _) =>
    .bytes (segments.flatMap fun g => window (mem g.block).byte g.innerOff g.copyLen) none

/-- One operation, with its result. -/
def BusConn.op (c : BusConn) (mem : Memory) : Op → (BusConn × Memory) × Result UInt8
  | .call call alloc => c.call mem alloc call
  | .view offset length => ((c, mem), c.view mem offset length)

/-- The results of a run. -/
def BusConn.outputs : BusConn × Memory → List Op → List (Result UInt8)
  | _, [] => []
  | (c, mem), op :: ops =>
    let r := c.op mem op
    r.2 :: outputs r.1 ops

/-- Memory without any old data. -/
def blank : Memory := fun _ _ => 0

/-- The connection after an operation, which does not depend on the memory. -/
def BusConn.next (c : BusConn) (op : Op) : BusConn := (c.op blank op).1.1

namespace Result

/-- The result with other data. -/
def map (f : β → γ) : Result β → Result γ
  | .bytes data err => .bytes (data.map f) err
  | .byte result => .byte (result.map f)
  | .wrote n err => .wrote n err
  | .done err => .done err
  | .len n => .len n

/-- The error of a write. -/
def writeErr : Result β → Option IOError
  | .wrote _ err => err
  | .done err => err
  | _ => none

end Result

/-- The error of a write that is not carried out; nor does this depend on the memory. -/
def BusConn.refusal (c : BusConn) (op : Op) : Option IOError := (c.op blank op).2.writeErr

/-- Offsets of writes are `int64`s and not negative, buffers fit in the address space, and
`AllocBlocks` answers what it can answer. -/
def BusConn.Allows (c : BusConn) : Op → Prop
  | .call (.writeAt data off) alloc =>
    0 ≤ off ∧ off < 2 ^ 63 ∧ data.length < 2 ^ 48 ∧ c.Answers (.writeAt data off) alloc
  | .call (.write data) alloc => data.length < 2 ^ 48 ∧ c.Answers (.write data) alloc
  | .call call alloc => c.Answers call alloc
  | .view .. => True

/-- Each operation of a sequence is allowed when it is made. -/
def BusConn.Allowed : BusConn → List Op → Prop
  | _, [] => True
  | c, op :: ops => c.Allows op ∧ Allowed (c.next op) ops

/-- A view of the reference file. -/
def fileView (h : Handle β) (offset length : ℤ) : Result β :=
  if offset < 0 then .bytes [] (some .negativeOffset)
  else if h.len ≤ offset.toNat then .bytes [] (some .eof)
  else
    let n := min (UInt32.ofInt (offset + length)).toNat h.len
    if n ≤ offset.toNat then .bytes [] (some .eof)
    else .bytes (window h.data offset.toNat (n - offset.toNat)) none

/-- The same operation on a file. -/
def fileOp (lift : UInt8 → β) (h : Handle β) (refused : Option IOError) : Op → Handle β × Result β
  | .call call _ => fileCall lift h refused call
  | .view offset length => (h, fileView h offset length)

/-- The results of the reference for the operations on a connection. -/
def fileOps (lift : UInt8 → β) : Handle β → BusConn → List Op → List (Result β)
  | _, _, [] => []
  | h, c, op :: ops =>
    let r := fileOp lift h (c.refusal op) op
    r.2 :: fileOps lift r.1 (c.next op) ops

/-- Every byte that is returned was written before: run on marks, which are set by writes. -/
def Covered (c : BusConn) (ops : List Op) : Prop :=
  ∀ r ∈ fileOps (fun _ => true) (.fresh fun _ => false) c ops, ∀ x ∈ r.values, x = true

/-! ## The reference does not look at the values -/

theorem fileCall_map (f : β → γ) (lift : UInt8 → β) (h : Handle β) (refused : Option IOError)
    (call : Call) :
    fileCall (fun b => f (lift b)) (h.map f) refused call =
      ((fileCall lift h refused call).1.map f, (fileCall lift h refused call).2.map f) := by
  have hmap : ∀ data : List UInt8, data.map (fun b => f (lift b)) = (data.map lift).map f :=
    fun data => by rw [List.map_map]; rfl
  cases call with
  | write data =>
    cases refused with
    | some err => rfl
    | none => simp only [fileCall, hmap, Handle.map_write, Result.map]
  | writeByte b =>
    cases refused with
    | some err => rfl
    | none =>
      simp only [fileCall, Handle.map_write, Result.map, List.map_cons, List.map_nil]
  | writeAt data off =>
    cases refused with
    | some err => rfl
    | none => simp only [fileCall, hmap, Handle.map_writeAt, Result.map]
  | read len =>
    simp only [fileCall, Handle.map_readAt, show (h.map f).len = h.len from rfl,
      show (h.map f).readOff = h.readOff from rfl, List.length_map]
    split_ifs with he <;> rfl
  | readByte =>
    simp only [fileCall, show (h.map f).len = h.len from rfl,
      show (h.map f).readOff = h.readOff from rfl]
    split_ifs with he <;> rfl
  | readAt len off =>
    simp only [fileCall, Handle.map_readAt, show (h.map f).len = h.len from rfl]
    split_ifs with h0 he <;> rfl
  | writeTo bufs =>
    simp only [fileCall, Handle.map_readAt, show (h.map f).len = h.len from rfl,
      show (h.map f).readOff = h.readOff from rfl, List.length_map]
    rfl
  | dataLen => rfl

theorem fileOp_map (f : β → γ) (lift : UInt8 → β) (h : Handle β) (refused : Option IOError)
    (op : Op) :
    fileOp (fun b => f (lift b)) (h.map f) refused op =
      ((fileOp lift h refused op).1.map f, (fileOp lift h refused op).2.map f) := by
  cases op with
  | call call alloc => exact fileCall_map f lift h refused call
  | view offset length =>
    have hwin : ∀ off n, window (h.map f).data off n = (window h.data off n).map f := by
      intro off n
      unfold window
      rw [List.map_map]
      rfl
    simp only [fileOp, fileView, hwin, show (h.map f).len = h.len from rfl]
    split_ifs <;> rfl

theorem fileOps_map (f : β → γ) (lift : UInt8 → β) (ops : List Op) : ∀ (h : Handle β) (c : BusConn),
    fileOps (fun b => f (lift b)) (h.map f) c ops = (fileOps lift h c ops).map (Result.map f) := by
  induction ops with
  | nil => exact fun _ _ => rfl
  | cons op ops ih =>
    intro h c
    simp only [fileOps, fileOp_map, List.map_cons, ih]

/-! ## The connection does not depend on the memory -/

section Independence

variable (mem mem' : Memory)

theorem writeLoop_snd (blocks : List BlockId) (fuel off : ℕ) (p : List UInt8) :
    (writeLoop blocks fuel mem off p).2 = (writeLoop blocks fuel mem' off p).2 := by
  induction fuel generalizing mem mem' off p with
  | zero => rfl
  | succ fuel ih =>
    rw [writeLoop, writeLoop]
    split_ifs
    · rfl
    · split
      · rfl
      · dsimp only
        rw [ih]

theorem stripe_writeAt_indep (s : Stripe) (p : List UInt8) (off : ℤ) :
    (s.writeAt mem p off).1.1 = (s.writeAt mem' p off).1.1 ∧
      (s.writeAt mem p off).2 = (s.writeAt mem' p off).2 := by
  unfold Stripe.writeAt
  split_ifs with h1 h2 h3
  · exact ⟨rfl, rfl⟩
  · exact ⟨rfl, rfl⟩
  · exact ⟨rfl, rfl⟩
  · dsimp only
    rw [writeLoop_snd mem mem']
    refine ⟨?_, rfl⟩
    split_ifs <;> rfl

theorem ensureCapacity_indep (s : Stripe) (needed : ℤ) (alloc : Option (List BlockId)) :
    (ensureCapacity s mem needed alloc).1.1 = (ensureCapacity s mem' needed alloc).1.1 ∧
      (ensureCapacity s mem needed alloc).2 = (ensureCapacity s mem' needed alloc).2 := by
  unfold ensureCapacity
  split_ifs
  · exact ⟨rfl, rfl⟩
  · exact ⟨rfl, rfl⟩
  · cases alloc <;> exact ⟨rfl, rfl⟩

variable (c : BusConn) (alloc : Option (List BlockId))

theorem writeAt_indep (data : List UInt8) (off : ℤ) :
    (c.writeAt mem data off alloc).1.1 = (c.writeAt mem' data off alloc).1.1 ∧
      (c.writeAt mem data off alloc).2 = (c.writeAt mem' data off alloc).2 := by
  obtain ⟨h1, h2⟩ := ensureCapacity_indep mem mem' c.stripe (int64 (off + data.length)) alloc
  unfold BusConn.writeAt
  dsimp only
  rw [h1, h2]
  cases (ensureCapacity c.stripe mem' (int64 (off + data.length)) alloc).2 with
  | some err => exact ⟨rfl, rfl⟩
  | none =>
    obtain ⟨h3, h4⟩ := stripe_writeAt_indep
      (ensureCapacity c.stripe mem (int64 (off + data.length)) alloc).1.2
      (ensureCapacity c.stripe mem' (int64 (off + data.length)) alloc).1.2
      (ensureCapacity c.stripe mem' (int64 (off + data.length)) alloc).1.1 data off
    dsimp only
    rw [h3, h4]
    exact ⟨rfl, rfl⟩

theorem write_indep (data : List UInt8) :
    (c.write mem data alloc).1.1 = (c.write mem' data alloc).1.1 ∧
      (c.write mem data alloc).2 = (c.write mem' data alloc).2 := by
  obtain ⟨h1, h2⟩ := writeAt_indep mem mem' c alloc data c.writeOff
  unfold BusConn.write
  dsimp only
  rw [h2]
  cases herr : (c.writeAt mem' data c.writeOff alloc).2.2 with
  | some err => exact ⟨h1, h2⟩
  | none =>
    dsimp only
    rw [h1]
    exact ⟨rfl, rfl⟩

theorem readLoop_indep (blocks : List BlockId) (fuel off n : ℕ) :
    (readLoop mem blocks fuel off n).1.length = (readLoop mem' blocks fuel off n).1.length ∧
      (readLoop mem blocks fuel off n).2 = (readLoop mem' blocks fuel off n).2 := by
  induction fuel generalizing off n with
  | zero => exact ⟨rfl, rfl⟩
  | succ fuel ih =>
    rw [readLoop, readLoop]
    split_ifs
    · exact ⟨rfl, rfl⟩
    · split
      · exact ⟨rfl, rfl⟩
      · dsimp only
        rw [List.length_append, List.length_append, (ih _ _).1, (ih _ _).2, length_window,
          length_window]
        exact ⟨rfl, rfl⟩

theorem read_indep (len : ℕ) :
    (c.read mem len).1 = (c.read mem' len).1 ∧
      (c.read mem len).2.1.length = (c.read mem' len).2.1.length ∧
      (c.read mem len).2.2 = (c.read mem' len).2.2 := by
  have hr : (c.readAt mem len c.readOff).1.length = (c.readAt mem' len c.readOff).1.length ∧
      (c.readAt mem len c.readOff).2 = (c.readAt mem' len c.readOff).2 := by
    unfold BusConn.readAt Stripe.readAt
    split_ifs
    · exact ⟨rfl, rfl⟩
    · exact ⟨rfl, rfl⟩
    · exact readLoop_indep mem mem' _ _ _ _
  unfold BusConn.read
  dsimp only
  rw [hr.2]
  cases herr : (c.readAt mem' len c.readOff).2 with
  | some err => exact ⟨rfl, hr⟩
  | none =>
    dsimp only
    rw [hr.1, hr.2]
    exact ⟨rfl, rfl, rfl⟩

theorem copyLoop_indep (bufs : ℕ → ℕ) (fuel k limit : ℕ) :
    (c.copyLoop mem bufs fuel k limit).1 = (c.copyLoop mem' bufs fuel k limit).1 := by
  induction fuel generalizing c k limit with
  | zero => rfl
  | succ fuel ih =>
    obtain ⟨h1, h2, h3⟩ := read_indep mem mem' c (min (bufs k + 1) limit)
    rw [BusConn.copyLoop, BusConn.copyLoop]
    split_ifs
    · rfl
    · dsimp only
      rw [h1, h2, h3]
      split
      · rfl
      · rfl
      · exact ih _ _ _

theorem readByte_indep : (c.readByte mem).1 = (c.readByte mem').1 := by
  unfold BusConn.readByte Stripe.readByteAt
  split_ifs
  · rfl
  · rfl
  · dsimp only
    cases c.stripe.blocks[(c.readOff.toNat + BlockSize) / BlockSize]? <;> rfl

/-- Which connection a call leaves, and the error of a write, do not depend on the memory. -/
theorem op_indep (op : Op) :
    (c.op mem op).1.1 = (c.op mem' op).1.1 ∧ (c.op mem op).2.writeErr = (c.op mem' op).2.writeErr := by
  cases op with
  | view offset length =>
    refine ⟨rfl, ?_⟩
    simp only [BusConn.op, BusConn.view]
    cases c.stripe.view offset length <;> rfl
  | call call alloc =>
    cases call with
    | write data =>
      obtain ⟨h1, h2⟩ := write_indep mem mem' c alloc data
      exact ⟨h1, congrArg Prod.snd h2⟩
    | writeByte b =>
      obtain ⟨h1, h2⟩ := write_indep mem mem' c alloc [b]
      simp only [BusConn.op, BusConn.call, writeByte_eq]
      exact ⟨h1, congrArg Prod.snd h2⟩
    | writeAt data off =>
      obtain ⟨h1, h2⟩ := writeAt_indep mem mem' c alloc data off
      exact ⟨h1, congrArg Prod.snd h2⟩
    | read len =>
      simp only [BusConn.op, BusConn.call, Result.writeErr, and_true]
      exact (read_indep mem mem' c len).1
    | readByte =>
      simp only [BusConn.op, BusConn.call, Result.writeErr, and_true]
      exact readByte_indep mem mem' c
    | readAt len off => simp only [BusConn.op, BusConn.call, Result.writeErr, and_self]
    | writeTo bufs =>
      simp only [BusConn.op, BusConn.call, BusConn.writeTo, Result.writeErr, and_true]
      exact copyLoop_indep mem mem' c bufs _ _ _
    | dataLen => exact ⟨rfl, rfl⟩

end Independence

/-! ## One operation -/

/-- What holds of a connection between operations. -/
structure Sound (c : BusConn) : Prop where
  wf : c.stripe.Wf
  readOff : 0 ≤ c.readOff
  writeOff : 0 ≤ c.writeOff
  written : c.writeOff ≤ c.stripe.capacity

variable {c : BusConn} {mem : Memory} {alloc : Option (List BlockId)} {call : Call} {op : Op}

/-- A write whose end is beyond the integers fails: the sum wraps around or as many blocks cannot be
allocated. -/
theorem writeAt_out_of_range (hwf : c.stripe.Wf) {data : List UInt8} {off : ℤ} (h0 : 0 ≤ off)
    (hlt : off < 2 ^ 63) (hlen : data.length < 2 ^ 48)
    (hout : 2 ^ 63 ≤ off + data.length + BlockSize) (hans : c.Answers (.writeAt data off) alloc) :
    ∃ err, ∀ mem, c.writeAt mem data off alloc = ((c, mem), 0, some err) := by
  have hcap := hwf.capacity_lt
  have huser := userCap_eq hwf
  simp only [BlockSize, Nat.cast_ofNat] at hout
  by_cases hwrap : off + data.length < 2 ^ 63
  · -- no overflow yet, but no bus has that many blocks
    have hint : int64 (off + data.length) = off + data.length := int64_eq (by omega) hwrap
    have hneed : ¬ off + data.length ≤ userCap c.stripe := by omega
    by_cases hneg : blocksNeeded c.stripe (off + data.length) < 0
    · refine ⟨.panic, fun mem => ?_⟩
      simp only [BusConn.writeAt, hint, ensureCapacity, if_neg hneed, if_pos hneg]
    · cases alloc with
      | none =>
        refine ⟨.allocFailed, fun mem => ?_⟩
        simp only [BusConn.writeAt, hint, ensureCapacity, if_neg hneed, if_neg hneg,
          Stripe.allocBlocksForStripe]
      | some blocks =>
        obtain ⟨hcount, hv, hnd, -⟩ := hans blocks rfl _ rfl
        have hle := length_le_of_valid hv hnd
        rw [hint] at hcount
        exfalso
        -- the count is negative if the rounding overflows, and too large if not
        unfold blocksNeeded at hneg hcount
        by_cases hx : off + data.length - userCap c.stripe + BlockSize - 1 < 2 ^ 63
        · rw [int64_eq (by omega) hx, Int.tdiv_eq_ediv_of_nonneg (by omega)] at hcount
          simp only [BlockSize, BlocksPerChunk, MaxChunks, Nat.cast_ofNat] at hcount hle
          omega
        · apply hneg
          simp only [BlockSize, Nat.cast_ofNat] at hx ⊢
          rw [int64_of_ge (by omega) (by omega), ← neg_neg (_ - 2 ^ 64), Int.neg_tdiv,
            Int.tdiv_eq_ediv_of_nonneg (by omega)]
          omega
  · have hint : int64 (off + data.length) < 0 := by
      rw [int64_of_ge (by omega) (by omega)]
      omega
    have hneed : int64 (off + data.length) ≤ userCap c.stripe := by omega
    have hne : data ≠ [] := by
      rintro rfl
      simp at hwrap
      omega
    by_cases hoff : off + BlockSize ≥ 2 ^ 63
    · refine ⟨.panic, fun mem => ?_⟩
      simp only [BusConn.writeAt, ensureCapacity, if_pos hneed, Stripe.writeAt,
        if_neg (show ¬ off < 0 by omega), if_pos hoff, if_neg hne]
    · refine ⟨.capacityExceeded, fun mem => ?_⟩
      have hle : c.stripe.blocks.tail.length * BlockSize ≤ off.toNat := by
        unfold Stripe.capacity at hcap
        omega
      simp only [BusConn.writeAt, ensureCapacity, if_pos hneed]
      rw [Stripe.writeAt_mem h0 (by omega), writeLoop_of_le hle hne]
      simp

theorem fileCall_writeErr (lift : UInt8 → β) (h : Handle β) (refused : Option IOError)
    (hn : c.needed call ≠ none) : (fileCall lift h refused call).2.writeErr = refused := by
  cases call with
  | write data => cases refused <;> rfl
  | writeByte b => cases refused <;> rfl
  | writeAt data off => cases refused <;> rfl
  | _ => exact absurd rfl hn

theorem call_cases (h : Sound c) (ha : c.Allows (.call call alloc)) :
    (∃ err, ∀ mem, (c.call mem alloc call).1 = (c, mem) ∧
      (c.call mem alloc call).2.writeErr = some err ∧
      ∀ g, fileCall id g (some err) call = (g, (c.call mem alloc call).2)) ∨
    ∀ mem, ∃ s₁ mem₁, Carries c mem alloc call s₁ mem₁ := by
  have hans : c.Answers call alloc := by
    cases call with
    | write data => exact ha.2
    | writeAt data off => exact ha.2.2.2
    | _ => exact ha
  by_cases hin : c.InRange call
  · cases hf : c.allocFails call alloc with
    | true =>
      refine .inl ⟨.allocFailed, fun mem => ?_⟩
      obtain ⟨hsame, hcall⟩ := call_failed mem h.wf h.writeOff hin hans hf
      refine ⟨hsame, ?_, hcall⟩
      have hn : c.needed call ≠ none := by
        intro hn
        rw [BusConn.allocFails, hn] at hf
        cases hf
      rw [← fileCall_writeErr id (.fresh fun _ => 0) (some .allocFailed) hn, hcall]
    | false => exact .inr fun mem => call_carries mem h.wf h.writeOff hin hans hf
  · have hcap := h.wf.capacity_lt
    have hw := h.written
    cases call with
    | write data =>
      have := ha.1
      refine absurd ?_ hin
      simp only [BusConn.InRange, BlockSize]
      omega
    | writeByte b =>
      refine absurd ?_ hin
      simp only [BusConn.InRange, BlockSize]
      omega
    | writeAt data off =>
      obtain ⟨h0, hlt, hlen, -⟩ := ha
      have hout : 2 ^ 63 ≤ off + data.length + BlockSize := by
        by_contra hcon
        exact hin ⟨h0, by omega⟩
      obtain ⟨err, herr⟩ := writeAt_out_of_range h.wf h0 hlt hlen hout hans
      refine .inl ⟨err, fun mem => ?_⟩
      simp only [BusConn.call, herr, Result.writeErr, fileCall, implies_true, and_self]
    | _ => exact absurd trivial hin

theorem Grown.header {s s' : Stripe} {mem' : Memory} (h : Grown s mem s' mem') (hwf : s.Wf) :
    s'.header = s.header := by
  obtain ⟨more, hmore⟩ := h.blocks
  rw [Stripe.header, ← hmore, Stripe.header_cons hwf.nonempty]
  rfl

theorem Carries.refusal {s₁ : Stripe} {mem₁ : Memory} (h : Sound c)
    (hc : Carries c blank alloc call s₁ mem₁) : c.refusal (.call call alloc) = none := by
  by_cases hn : c.needed call = none
  · cases call with
    | write data => cases hn
    | writeByte b => cases hn
    | writeAt data off => cases hn
    | _ => simp only [BusConn.refusal, BusConn.op, BusConn.call, Result.writeErr]
  · have hshow : Shows { c with stripe := s₁ } mem₁ _ :=
      shows_handle (c := { c with stripe := s₁ }) hc.grown.wf h.readOff h.writeOff fun _ _ => rfl
    rw [BusConn.refusal, BusConn.op, ← hc.result _ hshow]
    exact fileCall_writeErr id _ none hn

theorem Carries.sound {s₁ : Stripe} {mem₁ : Memory} (h : Sound c)
    (hc : Carries c mem alloc call s₁ mem₁) : Sound (c.call mem alloc call).1.1 := by
  have hshow : Shows { c with stripe := s₁ } mem₁ _ :=
    shows_handle (c := { c with stripe := s₁ }) hc.grown.wf h.readOff h.writeOff fun _ _ => rfl
  have hnext := hc.shows _ hshow
  refine ⟨hnext.wf, by rw [hnext.readOff]; omega, by rw [hnext.writeOff]; omega, ?_⟩
  have hle := hc.grown.capacity
  have hw := h.written
  rw [Stripe.capacity, hc.blocks, ← Stripe.capacity]
  exact hc.written (by omega)

/-- The state after an operation, and that the stripe only grows. -/
theorem op_sound (h : Sound c) (ha : c.Allows op) :
    Sound (c.next op) ∧ c.stripe.blocks <+: (c.next op).stripe.blocks := by
  cases op with
  | view offset length => exact ⟨h, List.prefix_rfl⟩
  | call call alloc =>
    rcases call_cases h ha with ⟨err, herr⟩ | hc
    · have hsame : c.next (.call call alloc) = c := congrArg Prod.fst (herr blank).1
      rw [hsame]
      exact ⟨h, List.prefix_rfl⟩
    · obtain ⟨s₁, mem₁, hc⟩ := hc blank
      refine ⟨hc.sound h, ?_⟩
      have := hc.grown.blocks
      rwa [← hc.blocks] at this

theorem Shows.view {g : Handle UInt8} (h : Shows c mem g) (offset length : ℤ) :
    c.view mem offset length = fileView g offset length := by
  have hlen := h.len
  have hcap := h.wf.dataLen
  have hmin : (min (UInt32.ofInt (offset + length)) c.stripe.dataLen).toNat =
      min (UInt32.ofInt (offset + length)).toNat g.len := by
    rw [hlen, UInt32.toNat_min]
  unfold BusConn.view fileView Stripe.view
  by_cases h0 : offset < 0
  · rw [if_pos h0, if_pos h0]
  by_cases h1 : offset ≥ c.stripe.dataLen.toNat
  · rw [if_neg h0, if_neg h0, if_pos h1, if_pos (show g.len ≤ offset.toNat by omega)]
  rw [if_neg h0, if_neg h0, if_neg h1, if_neg (show ¬ g.len ≤ offset.toNat by omega)]
  dsimp only
  rw [hmin]
  by_cases h2 : ((min (UInt32.ofInt (offset + length)).toNat g.len : ℕ) : ℤ) ≤ offset
  · rw [if_pos h2, if_pos (Int.le_toNat (by omega) |>.2 h2)]
  · rw [if_neg h2, if_neg (fun hle => h2 (Int.le_toNat (by omega) |>.1 hle))]
    dsimp only
    rw [← readLoop_fst, readLoop_skip, readLoop_eq (by unfold Stripe.capacity at hcap; omega) le_rfl]
    exact congrArg (Result.bytes · none) (h.window_eq (by omega))

theorem flat_of_prefix {s : Stripe} {D : List BlockId} (hwf : s.Wf) (hpre : s.blocks <+: D)
    {i : ℕ} (hi : i < s.capacity) : flat mem D.tail i = s.content mem i := by
  obtain ⟨more, rfl⟩ := hpre
  exact flat_congr (getElem?_tail_of_append hwf.nonempty hi) fun _ _ => rfl

theorem notMem_of_getElem?_tail {blocks more : List BlockId} (hne : blocks ≠ [])
    (hnd : (blocks ++ more).Nodup) {i : ℕ} (hi : blocks.tail.length * BlockSize ≤ i) {b : BlockId}
    (hb : b ∈ (blocks ++ more).tail[i / BlockSize]?) : b ∉ blocks := by
  rw [List.tail_append_of_ne_nil hne,
    List.getElem?_append_right ((Nat.le_div_iff_mul_le (by decide)).2 hi)] at hb
  exact fun hmem => (List.nodup_append.1 hnd).2.2 b hmem b (List.mem_of_getElem? hb) rfl

/-- An operation on the connection is the operation on the file that the blocks hold, including
those blocks of `D` that the stripe does not have yet. -/
theorem op_next (h : Sound c) (ha : c.Allows op) {D : List BlockId} (hD : D.Nodup)
    (hpre : (c.next op).stripe.blocks <+: D) (mem : Memory) :
    fileOp id (c.handle (flat mem D.tail)) (c.refusal op) op =
      ((c.next op).handle (flat (c.op mem op).1.2 D.tail), (c.op mem op).2) := by
  cases op with
  | view offset length =>
    have hshow : Shows c mem (c.handle (flat mem D.tail)) :=
      shows_handle h.wf h.readOff h.writeOff fun i hi => flat_of_prefix h.wf hpre hi
    exact Prod.ext rfl (hshow.view offset length).symm
  | call call alloc =>
    rcases call_cases h ha with ⟨err, herr⟩ | hc
    · have hsame : c.next (.call call alloc) = c := congrArg Prod.fst (herr blank).1
      have hrefusal : c.refusal (.call call alloc) = some err := (herr blank).2.1
      obtain ⟨h1, -, h3⟩ := herr mem
      rw [hsame, hrefusal, fileOp, h3, BusConn.op, h1]
    · obtain ⟨_, _, hblank⟩ := hc blank
      rw [hblank.refusal h]
      obtain ⟨s₁, mem₁, hc⟩ := hc mem
      have hconn : (c.call mem alloc call).1.1 = c.next (.call call alloc) :=
        (op_indep mem blank c (.call call alloc)).1
      rw [← hconn, hc.blocks] at hpre
      obtain ⟨more, rfl⟩ := hpre
      have hheader := hc.grown.header h.wf
      have hcap : (c.call mem alloc call).1.1.stripe.capacity = s₁.capacity := by
        rw [Stripe.capacity, hc.blocks, Stripe.capacity]
      -- the grown stripe shows the file that the blocks held before the call
      have hshow : Shows { c with stripe := s₁ } mem₁
          (c.handle (flat mem (s₁.blocks ++ more).tail)) := by
        have hhandle : c.handle (flat mem (s₁.blocks ++ more).tail) =
            ({ c with stripe := s₁ } : BusConn).handle (flat mem (s₁.blocks ++ more).tail) := by
          simp only [BusConn.handle, hc.grown.dataLen]
        rw [hhandle]
        refine shows_handle (c := { c with stripe := s₁ }) hc.grown.wf h.readOff h.writeOff
          fun i hi => ?_
        refine flat_congr (getElem?_tail_of_append hc.grown.wf.nonempty hi) fun b hb => ?_
        refine (hc.grown.mem b ?_).symm
        rintro rfl
        rw [← hheader] at hb
        exact hc.grown.wf.header_notMem (List.mem_of_getElem? hb)
      refine Prod.ext ?_ (hc.result _ hshow)
      rw [← hconn]
      refine (hc.shows _ hshow).eq_handle (fun i hi => ?_) fun i hi => ?_
      · exact flat_of_prefix (hc.shows _ hshow).wf ⟨more, by rw [hc.blocks]⟩ hi
      · -- beyond the grown stripe nothing was written
        rw [hcap] at hi
        rw [hc.beyond _ hshow i hi]
        refine flat_congr rfl fun b hb => ?_
        have hb' := notMem_of_getElem?_tail hc.grown.wf.nonempty hD hi hb
        have hne : b ≠ c.stripe.header := by
          rintro rfl
          rw [← hheader] at hb'
          exact hb' ((Stripe.mem_blocks hc.grown.wf.nonempty).2 (.inl rfl))
        exact ((hc.frame b hb').trans (hc.grown.mem b hne)).symm

/-! ## Whole runs -/

/-- The connection at the end of a run. -/
def BusConn.final : BusConn → List Op → BusConn
  | c, [] => c
  | c, op :: ops => final (c.next op) ops

theorem final_sound {ops : List Op} (h : Sound c) (ha : c.Allowed ops) :
    Sound (c.final ops) ∧ c.stripe.blocks <+: (c.final ops).stripe.blocks := by
  induction ops generalizing c with
  | nil => exact ⟨h, List.prefix_rfl⟩
  | cons op ops ih =>
    obtain ⟨hnext, hpre⟩ := op_sound h ha.1
    obtain ⟨hfinal, hpre'⟩ := ih hnext ha.2
    exact ⟨hfinal, hpre.trans hpre'⟩

/-- A run of the connection is the run of the file that its blocks hold in the beginning, those that
it gets later included. -/
theorem outputs_eq {ops : List Op} (h : Sound c) (ha : c.Allowed ops) (mem : Memory) :
    BusConn.outputs (c, mem) ops =
      fileOps id (c.handle (flat mem (c.final ops).stripe.blocks.tail)) c ops := by
  induction ops generalizing c mem with
  | nil => rfl
  | cons op ops ih =>
    obtain ⟨hnext, -⟩ := op_sound h ha.1
    obtain ⟨hfinal, hpre⟩ := final_sound hnext ha.2
    have hop := op_next h ha.1 hfinal.wf.nodup hpre mem
    have hconn : (c.op mem op).1 = (c.next op, (c.op mem op).1.2) :=
      Prod.ext (op_indep mem blank c op).1 rfl
    rw [BusConn.outputs, fileOps, BusConn.final, hop, hconn, ih hnext ha.2]

/-- The symbolic run: a byte is either the one found at an offset in the beginning or one that was
written. -/
def symbolic (c : BusConn) (ops : List Op) : List (Result (ℕ ⊕ UInt8)) :=
  fileOps .inr (.fresh .inl) c ops

theorem fileOps_eq_symbolic (f : ℕ → UInt8) (c : BusConn) (ops : List Op) :
    fileOps id (.fresh f) c ops = (symbolic c ops).map (Result.map (Sum.elim f id)) :=
  fileOps_map (Sum.elim f id) .inr ops (.fresh .inl) c

theorem marks_eq_symbolic (c : BusConn) (ops : List Op) :
    fileOps (fun _ => true) (.fresh fun _ => false) c ops =
      (symbolic c ops).map (Result.map Sum.isRight) :=
  fileOps_map Sum.isRight .inr ops (.fresh .inl) c

theorem mem_values_fileOp {lift : UInt8 → β} {h : Handle β} {refused : Option IOError} {x : β}
    (hx : x ∈ (fileOp lift h refused op).2.values) : ∃ i < h.len, h.data i = x := by
  have hread : ∀ n off, x ∈ h.readAt n off → ∃ i < h.len, h.data i = x := by
    intro n off hx
    obtain ⟨i, h1, h2, rfl⟩ := mem_window hx
    exact ⟨i, by omega, rfl⟩
  cases op with
  | view offset length =>
    simp only [fileOp, fileView] at hx
    split_ifs at hx with h0 h1 h2
    · simp [Result.values] at hx
    · simp [Result.values] at hx
    · simp [Result.values] at hx
    · obtain ⟨i, h3, h4, rfl⟩ := mem_window hx
      exact ⟨i, by omega, rfl⟩
  | call call alloc =>
    cases call with
    | write data => cases refused <;> simp [fileOp, fileCall, Result.values] at hx
    | writeByte b => cases refused <;> simp [fileOp, fileCall, Result.values] at hx
    | writeAt data off => cases refused <;> simp [fileOp, fileCall, Result.values] at hx
    | read len =>
      simp only [fileOp, fileCall] at hx
      split_ifs at hx with he
      · simp [Result.values] at hx
      · exact hread _ _ hx
    | readByte =>
      simp only [fileOp, fileCall] at hx
      split_ifs at hx with he
      · simp [Result.values] at hx
      · exact ⟨h.readOff, by omega, (List.mem_singleton.1 hx).symm⟩
    | readAt len off =>
      simp only [fileOp, fileCall] at hx
      split_ifs at hx with h0 he
      · simp [Result.values] at hx
      · simp [Result.values] at hx
      · exact hread _ _ hx
    | writeTo bufs => exact hread _ _ hx
    | dataLen => simp [fileOp, fileCall, Result.values] at hx

theorem data_fileOp (lift : UInt8 → β) (h : Handle β) (refused : Option IOError) (op : Op) (i : ℕ) :
    (fileOp lift h refused op).1.data i = h.data i ∨
      ∃ b, (fileOp lift h refused op).1.data i = lift b := by
  have hover : ∀ (off : ℕ) (data : List UInt8), overlay h.data off (data.map lift) i = h.data i ∨
      ∃ b, overlay h.data off (data.map lift) i = lift b := by
    intro off data
    rcases @overlay_eq_or _ h.data off i (data.map lift) with he | hm
    · exact .inl he
    · obtain ⟨b, -, hb⟩ := List.mem_map.1 hm
      exact .inr ⟨b, hb.symm⟩
  cases op with
  | view offset length => exact .inl rfl
  | call call alloc =>
    cases call with
    | write data => cases refused with
      | none => exact hover h.writeOff data
      | some err => exact .inl rfl
    | writeByte b => cases refused with
      | none => exact hover h.writeOff [b]
      | some err => exact .inl rfl
    | writeAt data off => cases refused with
      | none => exact hover off.toNat data
      | some err => exact .inl rfl
    | read len =>
      left
      simp only [fileOp, fileCall]
      split_ifs <;> rfl
    | readByte =>
      left
      simp only [fileOp, fileCall]
      split_ifs <;> rfl
    | readAt len off =>
      left
      simp only [fileOp, fileCall]
      split_ifs <;> rfl
    | writeTo bufs => exact .inl rfl
    | dataLen => exact .inl rfl

/-- Length and cursors. -/
def shape (h : Handle β) : Handle Unit := h.map fun _ => ()

theorem shape_next (h : Sound c) (ha : c.Allows op) {lift : UInt8 → β} {g : Handle β}
    (hg : shape g = shape (c.handle fun _ => 0)) :
    shape (fileOp lift g (c.refusal op) op).1 = shape ((c.next op).handle fun _ => 0) := by
  obtain ⟨hnext, -⟩ := op_sound h ha
  have hop := op_next h ha hnext.wf.nodup List.prefix_rfl blank
  have h1 := congrArg Prod.fst (fileOp_map (fun _ => ()) lift g (c.refusal op) op)
  have h2 := congrArg Prod.fst (fileOp_map (fun _ => ()) id
    (c.handle (flat blank (c.next op).stripe.blocks.tail)) (c.refusal op) op)
  rw [hop] at h2
  have hsame : ∀ f, shape (c.handle f) = shape (c.handle fun _ => 0) := fun _ => rfl
  change (fileOp (fun _ => ()) (shape g) (c.refusal op) op).1 = _ at h1
  change (fileOp (fun _ => ()) (shape (c.handle _)) (c.refusal op) op).1 = _ at h2
  rw [hg] at h1
  rw [hsame] at h2
  exact h1.symm.trans h2

theorem stale_lt {ops : List Op} (h : Sound c) (ha : c.Allowed ops) {g : Handle (ℕ ⊕ UInt8)}
    (hg : shape g = shape (c.handle fun _ => 0)) (hs : ∀ i j, g.data i = .inl j → j = i) :
    ∀ r ∈ fileOps .inr g c ops, ∀ o, .inl o ∈ r.values → o < (c.final ops).stripe.capacity := by
  induction ops generalizing c g with
  | nil => simp [fileOps]
  | cons op ops ih =>
    obtain ⟨hnext, -⟩ := op_sound h ha.1
    obtain ⟨-, hpre⟩ := final_sound h ha
    intro r hr o ho
    rcases List.mem_cons.1 hr with rfl | hr
    · obtain ⟨i, hi, hdata⟩ := mem_values_fileOp ho
      obtain rfl := hs i o hdata
      have hlen : g.len = c.stripe.dataLen.toNat := congrArg Handle.len hg
      have hcap := h.wf.dataLen
      have hmono : c.stripe.capacity ≤ (c.final (op :: ops)).stripe.capacity := by
        simp only [Stripe.capacity, List.length_tail]
        exact Nat.mul_le_mul_right _ (Nat.sub_le_sub_right hpre.length_le 1)
      omega
    · refine ih hnext ha.2 (shape_next h ha.1 hg) (fun i j hj => ?_) r hr o ho
      rcases data_fileOp .inr g (c.refusal op) op i with hd | ⟨b, hd⟩
      · exact hs i j (hd.symm.trans hj)
      · rw [hd] at hj
        cases hj

theorem Result.map_congr {f g : β → γ} {r : Result β} (h : ∀ x ∈ r.values, f x = g x) :
    r.map f = r.map g := by
  cases r with
  | bytes data err => exact congrArg (Result.bytes · err) (List.map_congr_left h)
  | byte result =>
    cases result with
    | error err => rfl
    | ok b => exact congrArg (fun x => Result.byte (.ok x)) (h b (List.mem_singleton_self b))
  | _ => rfl

theorem Result.values_map (f : β → γ) (r : Result β) : (r.map f).values = r.values.map f := by
  cases r with
  | byte result => cases result <;> rfl
  | _ => rfl

theorem outputs_request {blockCount : ℕ} {blocks : List BlockId}
    (hg : Granted [] (blockCount + 1) blocks) {ops : List Op}
    (ha : (BusConn.request blocks blank).1.Allowed ops) (mem : Memory) :
    BusConn.outputs (BusConn.request blocks mem) ops =
      (symbolic (BusConn.request blocks blank).1 ops).map (Result.map (Sum.elim
        (flat mem ((BusConn.request blocks blank).1.final ops).stripe.blocks.tail) id)) := by
  set c := (BusConn.request blocks blank).1 with hc
  have hsound : Sound c := ⟨.create hg (by omega), le_rfl, le_rfl, Int.natCast_nonneg _⟩
  obtain ⟨hfinal, hpre⟩ := final_sound hsound ha
  have hout := outputs_eq hsound ha (BusConn.request blocks mem).2
  rw [← fileOps_eq_symbolic]
  -- the header block, which the request has written, is none of the data blocks
  have hflat : flat (BusConn.request blocks mem).2 (c.final ops).stripe.blocks.tail =
      flat mem (c.final ops).stripe.blocks.tail := by
    funext i
    refine flat_congr rfl fun b hb => Function.update_of_ne ?_ _ _
    rintro rfl
    apply hfinal.wf.header_notMem
    obtain ⟨more, hmore⟩ := hpre
    have hheader : (c.final ops).stripe.header = (allocStripe blocks).header := by
      rw [Stripe.header, ← hmore, Stripe.header_cons hsound.wf.nonempty]
      rfl
    rw [hheader]
    exact List.mem_of_getElem? hb
  rw [hflat] at hout
  exact hout

/-- The results of a run on a new connection do not depend on what the blocks contained if and only
if no read or view covers an offset, below the data length, that the connection has not written. -/
theorem isolated_iff_covered (blockCount : ℕ) (blocks : List BlockId)
    (hg : Granted [] (blockCount + 1) blocks) (ops : List Op)
    (ha : (BusConn.request blocks blank).1.Allowed ops) :
    (∀ mem mem', BusConn.outputs (BusConn.request blocks mem) ops =
      BusConn.outputs (BusConn.request blocks mem') ops) ↔
    Covered (BusConn.request blocks blank).1 ops := by
  have hmarks := marks_eq_symbolic (BusConn.request blocks blank).1 ops
  constructor
  · intro heq r hr x hx
    rw [hmarks] at hr
    obtain ⟨r, hmem, rfl⟩ := List.mem_map.1 hr
    rw [Result.values_map] at hx
    obtain ⟨y, hy, rfl⟩ := List.mem_map.1 hx
    cases y with
    | inr b => rfl
    | inl o =>
      -- a stale byte: two memories that differ there give different results
      exfalso
      have hsound : Sound (BusConn.request blocks blank).1 :=
        ⟨.create hg (by omega), le_rfl, le_rfl, Int.natCast_nonneg _⟩
      have ho := stale_lt hsound ha (g := .fresh .inl) rfl (fun i j hij => by cases hij; rfl) r
        hmem o hy
      have hmap := heq (fun _ _ => 0) fun _ _ => 1
      rw [outputs_request hg ha, outputs_request hg ha] at hmap
      have hval := congrArg Result.values (List.map_inj_left.1 hmap r hmem)
      rw [Result.values_map, Result.values_map] at hval
      have hbyte := List.map_inj_left.1 hval _ hy
      simp only [Sum.elim_inl, flat, List.getElem?_eq_getElem (div_lt_of_lt ho), Option.map_some,
        Option.getD_some, Bytes.byte] at hbyte
      rw [dif_pos (Nat.mod_lt _ (by decide)), dif_pos (Nat.mod_lt _ (by decide))] at hbyte
      cases hbyte
  · intro hcov mem mem'
    rw [outputs_request hg ha, outputs_request hg ha]
    refine List.map_congr_left fun r hr => Result.map_congr fun x hx => ?_
    have hmark : (r.map Sum.isRight) ∈ fileOps (fun _ => true) (.fresh fun _ => false)
        (BusConn.request blocks blank).1 ops := by
      rw [hmarks]
      exact List.mem_map_of_mem hr
    have hright : Sum.isRight x = true := by
      refine hcov _ hmark _ ?_
      rw [Result.values_map]
      exact List.mem_map_of_mem hx
    cases x with
    | inl o => cases hright
    | inr b => rfl

instance (c : BusConn) (ops : List Op) : Decidable (Covered c ops) :=
  inferInstanceAs (Decidable (∀ r ∈ _, ∀ x ∈ Result.values r, x = true))

/-- Three bytes are written, of which two are read and the last two are viewed: it does not matter
whether the blocks were full of sevens or of nines. -/
theorem isolated_iff_covered_written :
    BusConn.outputs (BusConn.request [(-1, 256), (-1, 257)] fun _ _ => 7)
      [.call (.write [1, 2, 3]) none, .call (.read 2) none, .view 1 2] =
    BusConn.outputs (BusConn.request [(-1, 256), (-1, 257)] fun _ _ => 9)
      [.call (.write [1, 2, 3]) none, .call (.read 2) none, .view 1 2] :=
  (isolated_iff_covered 1 [(-1, 256), (-1, 257)] (by decide)
    [.call (.write [1, 2, 3]) none, .call (.read 2) none, .view 1 2]
    ⟨⟨by decide, nofun⟩, nofun, trivial, trivial⟩).2 (by decide +kernel) _ _

/-- One byte written at offset 10 makes the ten bytes before it readable, which an earlier connection
has left there. -/
theorem gap_shows_old_data :
    (BusConn.request [(-1, 256), (-1, 257)] blank).1.Allowed
      [.call (.writeAt [1] 10) none, .call (.readAt 11 0) none] ∧
    (BusConn.outputs (BusConn.request [(-1, 256), (-1, 257)] fun _ _ => 7)
      [.call (.writeAt [1] 10) none, .call (.readAt 11 0) none]).map Result.values =
        [[], [7, 7, 7, 7, 7, 7, 7, 7, 7, 7, 1]] ∧
    (BusConn.outputs (BusConn.request [(-1, 256), (-1, 257)] fun _ _ => 9)
      [.call (.writeAt [1] 10) none, .call (.readAt 11 0) none]).map Result.values =
        [[], [9, 9, 9, 9, 9, 9, 9, 9, 9, 9, 1]] := by
  refine ⟨⟨⟨by decide, by decide, by decide, nofun⟩, nofun, trivial⟩, ?_, ?_⟩
  · decide +kernel
  · decide +kernel

end Mmfg.Conn
