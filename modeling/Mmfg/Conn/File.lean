import Mmfg.Lib.Cursor
import Mmfg.Conn.Basic

/-!
# A connection is a file with two cursors

`fileCall` is what the calls of a connection are meant to do, on a growable file with a read and a
write cursor; a write whose allocation fails does nothing.  `Shows` relates a connection to such a
file: what the blocks hold is what the file holds, up to the capacity.  One call keeps it
(`call_shows`), and for whole runs the file's initial contents are what the blocks happen to contain
when they are allocated (`exists_contents`).
-/

namespace Mmfg.Conn

open File Shm

variable {β : Type}

/-! ## The reference -/

/-- A call on the reference file; `refused` is the error of a write that is not carried out, and
`lift` turns bytes into the values of the file. -/
def fileCall (lift : UInt8 → β) (h : Handle β) (refused : Option IOError) :
    Call → Handle β × Result β
  | .write data =>
    match refused with
    | some err => (h, .wrote 0 (some err))
    | none => (h.write (data.map lift), .wrote data.length none)
  | .writeByte b =>
    match refused with
    | some err => (h, .done (some err))
    | none => (h.write [lift b], .done none)
  | .writeAt data off =>
    match refused with
    | some err => (h, .wrote 0 (some err))
    | none => (h.writeAt (data.map lift) off.toNat, .wrote data.length none)
  | .read len =>
    if h.len ≤ h.readOff then (h, .bytes [] (some .eof))
    else
      let data := h.readAt len h.readOff
      (h.skip data.length, .bytes data none)
  | .readByte =>
    if h.len ≤ h.readOff then (h, .byte (.error .eof))
    else (h.skip 1, .byte (.ok (h.data h.readOff)))
  | .readAt len off =>
    if off < 0 then (h, .bytes [] (some .negativeOffset))
    else if h.len ≤ off.toNat then (h, .bytes [] (some .eof))
    else (h, .bytes (h.readAt len off.toNat) none)
  | .writeTo _ =>
    let data := h.readAt h.len h.readOff
    (h.skip data.length, .bytes data none)
  | .dataLen => (h, .len h.len)

/-- The results of the calls in order. -/
def fileRun (lift : UInt8 → β) : Handle β → List (Call × Option IOError) → List (Result β)
  | _, [] => []
  | h, (call, refused) :: calls =>
    let r := fileCall lift h refused call
    r.2 :: fileRun lift r.1 calls

/-! ## Runs of a connection -/

/-- What happens: a call, with the answer of `AllocBlocks` if it asks for blocks, and a change of a
block that is not the connection's. -/
inductive Event
  | call (call : Call) (alloc : Option (List BlockId))
  | store (b : BlockId) (data : Bytes)

/-- A call that was made, with the state before and after it and its result. -/
structure Entry where
  call : Call
  failed : Bool
  before : BusConn × Memory
  after : BusConn × Memory
  result : Result UInt8

namespace BusConn

/-- Offsets are not negative, and with the header block before them the ends of writes are below the
limit of the integers. -/
def InRange (c : BusConn) : Call → Prop
  | .write data => c.writeOff + data.length + BlockSize < 2 ^ 63
  | .writeByte _ => c.writeOff + 1 + BlockSize < 2 ^ 63
  | .writeAt data off => 0 ≤ off ∧ off + data.length + BlockSize < 2 ^ 63
  | _ => True

instance (c : BusConn) : (call : Call) → Decidable (c.InRange call)
  | .write _ => inferInstanceAs (Decidable (_ < _))
  | .writeByte _ => inferInstanceAs (Decidable (_ < _))
  | .writeAt .. => inferInstanceAs (Decidable (_ ∧ _))
  | .read _ | .readByte | .readAt .. | .writeTo _ | .dataLen => inferInstanceAs (Decidable True)

/-- The call needs blocks and `AllocBlocks` fails. -/
def allocFails (c : BusConn) (call : Call) (alloc : Option (List BlockId)) : Bool :=
  (c.needed call).any fun n => userCap c.stripe < n && alloc.isNone

instance (c : BusConn) (call : Call) (alloc : Option (List BlockId)) :
    Decidable (c.Answers call alloc) := by
  unfold Answers
  infer_instance

/-- The calls of a run; `none` if a call is out of range, `AllocBlocks` answers what it cannot
answer, or somebody else changes a block of the connection. -/
def run : BusConn × Memory → List Event → Option (List Entry)
  | _, [] => some []
  | (c, mem), .call call alloc :: events =>
    if c.InRange call ∧ c.Answers call alloc then
      let r := c.call mem alloc call
      (run r.1 events).map
        (⟨call, c.allocFails call alloc, (c, mem), r.1, r.2⟩ :: ·)
    else none
  | (c, mem), .store b data :: events =>
    if b ∈ c.stripe.blocks then none else run (c, Function.update mem b data) events

end BusConn

/-! ## One call -/

/-- The connection shows the file. -/
structure Shows (c : BusConn) (mem : Memory) (g : Handle UInt8) : Prop where
  wf : c.stripe.Wf
  len : g.len = c.stripe.dataLen.toNat
  readOff : c.readOff = g.readOff
  writeOff : c.writeOff = g.writeOff
  data : ∀ i < c.stripe.capacity, g.data i = c.stripe.content mem i

variable {c : BusConn} {mem : Memory} {g : Handle UInt8}

namespace Shows

/-- A window below the data length is the same on both sides. -/
theorem window_eq (h : Shows c mem g) {off n : ℕ} (hn : off + n ≤ c.stripe.dataLen.toNat) :
    window (c.stripe.content mem) off n = window g.data off n := by
  refine window_congr fun i _ hi => (h.data i ?_).symm
  have := h.wf.dataLen
  omega

theorem readAt (h : Shows c mem g) {off : ℤ} (h0 : 0 ≤ off) (len : ℕ) :
    c.readAt mem len off =
      if g.len ≤ off.toNat then ([], some .eof) else (g.readAt len off.toNat, none) := by
  have hlen := h.len
  split_ifs with he
  · rw [BusConn.readAt, Stripe.readAt, if_neg (by omega), if_pos (by omega)]
  · rw [BusConn.readAt, Stripe.readAt_eq h.wf.dataLen h0 (by omega), h.window_eq (by omega),
      Handle.readAt, hlen]

theorem skip (h : Shows c mem g) (n : ℕ) :
    Shows { c with readOff := c.readOff + n } mem (g.skip n) where
  wf := h.wf
  len := h.len
  readOff := by
    simp only [h.readOff, Handle.skip]
    push_cast
    rfl
  writeOff := h.writeOff
  data := h.data

theorem advance (h : Shows c mem g) (n : ℕ) :
    Shows { c with writeOff := c.writeOff + n } mem { g with writeOff := g.writeOff + n } where
  wf := h.wf
  len := h.len
  readOff := h.readOff
  writeOff := by
    simp only [h.writeOff]
    push_cast
    rfl
  data := h.data

theorem read (h : Shows c mem g) (len : ℕ) :
    c.read mem len =
      if g.len ≤ g.readOff then (c, [], some .eof)
      else ({ c with readOff := c.readOff + (g.readAt len g.readOff).length },
        g.readAt len g.readOff, none) := by
  have hr := h.readAt (show 0 ≤ c.readOff by rw [h.readOff]; omega) len
  rw [h.readOff, Int.toNat_natCast] at hr
  rw [BusConn.read, h.readOff, hr]
  split_ifs with he <;> rfl

theorem readByte (h : Shows c mem g) :
    c.readByte mem =
      if g.len ≤ g.readOff then (c, .error .eof)
      else ({ c with readOff := c.readOff + 1 }, .ok (g.data g.readOff)) := by
  have hlen := h.len
  have hcap := h.wf.dataLen
  rw [BusConn.readByte, h.readOff]
  split_ifs with he
  · rw [Stripe.readByteAt, if_neg (by omega), if_pos (by omega)]
  · rw [Stripe.readByteAt_eq hcap (by omega) (by omega), Int.toNat_natCast,
      h.data g.readOff (by omega)]

/-- The loop of `io.Copy` delivers what is left below the limit. -/
theorem copyLoop (h : Shows c mem g) (bufs : ℕ → ℕ) {fuel k limit : ℕ} (hf : limit < fuel) :
    c.copyLoop mem bufs fuel k limit =
      ({ c with readOff := c.readOff + (g.readAt limit g.readOff).length },
        g.readAt limit g.readOff, none) := by
  induction fuel generalizing c g k limit with
  | zero => omega
  | succ fuel ih =>
    rw [BusConn.copyLoop]
    split_ifs with hl
    · simp [hl, Handle.readAt]
    dsimp only
    rw [h.read]
    split_ifs with he
    · have hnil : g.readAt limit g.readOff = [] := by
        rw [Handle.readAt, Nat.sub_eq_zero_of_le he, Nat.min_zero, window_zero]
      simp [hnil]
    · -- one round reads `m` bytes, the rest follows
      dsimp only
      set m := min (min (bufs k + 1) limit) (g.len - g.readOff) with hm
      have hread : g.readAt (min (bufs k + 1) limit) g.readOff = window g.data g.readOff m := rfl
      have hlen : (window g.data g.readOff m).length = m := length_window
      have hrest := ih (h.skip m) (k := k + 1) (show limit - m < fuel by omega)
      have hsplit : g.readAt limit g.readOff =
          window g.data g.readOff m ++ (g.skip m).readAt (limit - m) (g.skip m).readOff := by
        simp only [Handle.readAt, Handle.skip]
        rw [← window_add]
        exact congrArg _ (by omega)
      rw [hread, hlen, hrest, hsplit]
      simp only [List.length_append, hlen]
      push_cast
      rw [add_assoc]

theorem writeTo (h : Shows c mem g) (bufs : ℕ → ℕ) :
    c.writeTo mem bufs =
      ({ c with readOff := c.readOff + (g.readAt g.len g.readOff).length },
        g.readAt g.len g.readOff, none) := by
  rw [BusConn.writeTo, ← h.len]
  exact h.copyLoop bufs (Nat.lt_succ_self _)

theorem writeAt (h : Shows c mem g) {data : List UInt8} {off : ℤ} (h0 : 0 ≤ off)
    (hend : off + data.length ≤ c.stripe.capacity) :
    (c.stripe.writeAt mem data off).2 = (data.length, none) ∧
    Shows { c with stripe := (c.stripe.writeAt mem data off).1.1 }
      (c.stripe.writeAt mem data off).1.2 (g.writeAt data off.toNat) := by
  have hcap := h.wf.capacity_lt
  have hoff := h.wf.off_lt (show off ≤ c.stripe.capacity by omega)
  have hnd := h.wf.tail_nodup
  have hfit : c.stripe.fitting data off = data.length := by
    rw [Stripe.fitting]
    omega
  have hstripe := @Stripe.writeAt_stripe mem data c.stripe off h0 hoff
  rw [hfit] at hstripe
  refine ⟨?_, ?_, ?_, h.readOff, h.writeOff, ?_⟩
  · exact Stripe.writeAt_of_fits h0 hoff hend
  · exact h.wf.writeAt mem data off
  · rw [hstripe]
    simp only [Handle.writeAt, h.len, Stripe.toNat_newLen (show off.toNat + data.length < 2 ^ 32 by omega),
      List.length_eq_zero_iff]
  · intro i hi
    have hcontent := @Stripe.content_writeAt mem data c.stripe off h0 hoff hnd h.wf.header_notMem
    rw [hfit, List.take_length] at hcontent
    rw [hstripe] at hi ⊢
    change overlay g.data off.toNat data i = c.stripe.content (c.stripe.writeAt mem data off).1.2 i
    rw [hcontent]
    unfold overlay
    rw [h.data i hi]

end Shows

/-! ## Writes and growth -/

section Writes

variable {alloc : Option (List BlockId)} {data : List UInt8} {off : ℤ}

variable (mem) in
theorem writeAt_cases (hwf : c.stripe.Wf) (h0 : 0 ≤ off)
    (hin : off + data.length + BlockSize < 2 ^ 63)
    (hans : c.Answers (.writeAt data off) alloc) :
    (c.allocFails (.writeAt data off) alloc = true ∧
      c.writeAt mem data off alloc = ((c, mem), 0, some .allocFailed)) ∨
    (c.allocFails (.writeAt data off) alloc = false ∧
      ∃ s₁ mem₁, Grown c.stripe mem s₁ mem₁ ∧ off + data.length ≤ s₁.capacity ∧
        c.writeAt mem data off alloc =
          (({ c with stripe := (s₁.writeAt mem₁ data off).1.1 }, (s₁.writeAt mem₁ data off).1.2),
            (s₁.writeAt mem₁ data off).2)) := by
  have hint : int64 (off + data.length) = off + data.length := int64_eq (by omega) (by omega)
  have hans' := fun blocks hb => hans blocks hb _ rfl
  rw [hint] at hans'
  have hfails : c.allocFails (.writeAt data off) alloc =
      (decide (userCap c.stripe < off + data.length) && alloc.isNone) := by
    simp only [BusConn.allocFails, BusConn.needed, hint, Option.any_some]
  unfold BusConn.writeAt
  rw [hint, hfails]
  rcases ensureCapacity_spec mem hwf hin hans' with ⟨he, rfl, hlt⟩ | ⟨he, hfit, hg, hle⟩
  · left
    simp [he, hlt]
  · right
    refine ⟨?_, _, _, hg, hle, ?_⟩
    · cases alloc with
      | none => simpa using hfit rfl
      | some blocks => simp
    · dsimp only
      rw [he]

/-- `WriteByte` is `Write` with one byte. -/
theorem writeByte_eq (b : UInt8) :
    c.writeByte mem b alloc = ((c.write mem [b] alloc).1, (c.write mem [b] alloc).2.2) := by
  unfold BusConn.writeByte BusConn.write BusConn.writeAt
  rw [List.length_singleton, Nat.cast_one]
  dsimp only
  cases he : (ensureCapacity c.stripe mem (int64 (c.writeOff + 1)) alloc).2 with
  | some err => rfl
  | none =>
    dsimp only
    rw [Stripe.writeByteAt_eq]
    dsimp only
    set w := (ensureCapacity c.stripe mem (int64 (c.writeOff + 1)) alloc).1.1.writeAt
      (ensureCapacity c.stripe mem (int64 (c.writeOff + 1)) alloc).1.2 [b] c.writeOff with hw
    cases herr : w.2.2 with
    | some err => simp [herr]
    | none =>
      have hone : w.2.1 = 1 := Stripe.writeAt_of_none herr
      simp [hone, herr]

variable (mem) in
theorem write_cases (hwf : c.stripe.Wf) (h0 : 0 ≤ c.writeOff)
    (hin : c.writeOff + data.length + BlockSize < 2 ^ 63) (hans : c.Answers (.write data) alloc) :
    (c.allocFails (.write data) alloc = true ∧
      c.write mem data alloc = ((c, mem), 0, some .allocFailed)) ∨
    (c.allocFails (.write data) alloc = false ∧
      ∃ s₁ mem₁, Grown c.stripe mem s₁ mem₁ ∧ c.writeOff + data.length ≤ s₁.capacity ∧
        c.write mem data alloc =
          (({ c with
              stripe := (s₁.writeAt mem₁ data c.writeOff).1.1
              writeOff := c.writeOff + data.length }, (s₁.writeAt mem₁ data c.writeOff).1.2),
            data.length, none)) := by
  rcases writeAt_cases mem hwf h0 hin hans with ⟨hf, hw⟩ | ⟨hf, s₁, mem₁, hg, hle, hw⟩
  · refine .inl ⟨hf, ?_⟩
    rw [BusConn.write, hw]
  · refine .inr ⟨hf, s₁, mem₁, hg, hle, ?_⟩
    rw [BusConn.write, hw, Stripe.writeAt_of_fits h0 (hg.wf.off_lt (by omega)) hle]

end Writes

/-! ## All calls -/

section Calls

variable {alloc : Option (List BlockId)} {call : Call}

variable (mem) in
theorem call_failed (hwf : c.stripe.Wf) (hw : 0 ≤ c.writeOff) (hin : c.InRange call)
    (hans : c.Answers call alloc) (hf : c.allocFails call alloc = true) :
    (c.call mem alloc call).1 = (c, mem) ∧
      ∀ g, fileCall id g (some .allocFailed) call = (g, (c.call mem alloc call).2) := by
  cases call with
  | write data =>
    rcases write_cases mem hwf hw hin hans with ⟨-, hc⟩ | ⟨hf', -⟩
    · simp only [BusConn.call, hc, fileCall, implies_true, and_self]
    · simp [hf] at hf'
  | writeByte b =>
    have hin : _ + (([b].length : ℕ) : ℤ) + _ < _ := hin
    rcases write_cases mem hwf hw hin hans with ⟨-, hc⟩ | ⟨hf', -⟩
    · simp only [BusConn.call, writeByte_eq, hc, fileCall, implies_true, and_self]
    · exact absurd (hf.symm.trans hf') (by decide)
  | writeAt data off =>
    rcases writeAt_cases mem hwf hin.1 hin.2 hans with ⟨-, hc⟩ | ⟨hf', -⟩
    · simp only [BusConn.call, hc, fileCall, implies_true, and_self]
    · simp [hf] at hf'
  | _ => cases hf

/-- The call does to every file that the grown stripe `s₁` shows what it does to the connection. -/
structure Carries (c : BusConn) (mem : Memory) (alloc : Option (List BlockId)) (call : Call)
    (s₁ : Stripe) (mem₁ : Memory) : Prop where
  grown : Grown c.stripe mem s₁ mem₁
  written : c.writeOff ≤ s₁.capacity → (c.call mem alloc call).1.1.writeOff ≤ s₁.capacity
  blocks : (c.call mem alloc call).1.1.stripe.blocks = s₁.blocks
  frame : ∀ b ∉ s₁.blocks, (c.call mem alloc call).1.2 b = mem₁ b
  result : ∀ g, Shows { c with stripe := s₁ } mem₁ g →
    (fileCall id g none call).2 = (c.call mem alloc call).2
  shows : ∀ g, Shows { c with stripe := s₁ } mem₁ g →
    Shows (c.call mem alloc call).1.1 (c.call mem alloc call).1.2 (fileCall id g none call).1
  beyond : ∀ g, Shows { c with stripe := s₁ } mem₁ g →
    ∀ i, s₁.capacity ≤ i → (fileCall id g none call).1.data i = g.data i

variable {s₁ : Stripe} {mem₁ : Memory} {data : List UInt8} {off : ℤ}

theorem writeAt_blocks (h : s₁.Wf) (h0 : 0 ≤ off) (hend : off + data.length ≤ s₁.capacity) :
    (s₁.writeAt mem₁ data off).1.1.blocks = s₁.blocks := by
  rw [Stripe.writeAt_stripe h0 (h.off_lt (by omega))]

theorem writeAt_frame (h : s₁.Wf) (h0 : 0 ≤ off) (hend : off + data.length ≤ s₁.capacity)
    {b : BlockId} (hb : b ∉ s₁.blocks) : (s₁.writeAt mem₁ data off).1.2 b = mem₁ b := by
  rw [Stripe.mem_blocks h.nonempty, not_or] at hb
  exact Stripe.writeAt_of_notMem h0 (h.off_lt (by omega)) hb.2 hb.1

theorem carries_writeAt (hg : Grown c.stripe mem s₁ mem₁) (h0 : 0 ≤ off)
    (hend : off + data.length ≤ s₁.capacity)
    (heq : c.writeAt mem data off alloc =
      (({ c with stripe := (s₁.writeAt mem₁ data off).1.1 }, (s₁.writeAt mem₁ data off).1.2),
        (s₁.writeAt mem₁ data off).2)) :
    Carries c mem alloc (.writeAt data off) s₁ mem₁ where
  grown := hg
  written hle := by
    simp only [BusConn.call, heq]
    exact hle
  blocks := by
    simp only [BusConn.call, heq]
    exact writeAt_blocks hg.wf h0 hend
  frame b hb := by
    simp only [BusConn.call, heq]
    exact writeAt_frame hg.wf h0 hend hb
  result g h := by
    simp only [BusConn.call, heq, fileCall, (h.writeAt h0 hend).1]
  shows g h := by
    simp only [BusConn.call, heq, fileCall, List.map_id]
    exact (h.writeAt h0 hend).2
  beyond g h i hi := by
    simp only [fileCall, List.map_id, Handle.writeAt]
    exact overlay_of_le (by omega)

theorem carries_write (hg : Grown c.stripe mem s₁ mem₁) (h0 : 0 ≤ c.writeOff)
    (hend : c.writeOff + data.length ≤ s₁.capacity)
    (heq : c.write mem data alloc =
      (({ c with
          stripe := (s₁.writeAt mem₁ data c.writeOff).1.1
          writeOff := c.writeOff + data.length }, (s₁.writeAt mem₁ data c.writeOff).1.2),
        data.length, none)) :
    Carries c mem alloc (.write data) s₁ mem₁ where
  grown := hg
  written _ := by
    simp only [BusConn.call, heq]
    exact hend
  blocks := by
    simp only [BusConn.call, heq]
    exact writeAt_blocks hg.wf h0 hend
  frame b hb := by
    simp only [BusConn.call, heq]
    exact writeAt_frame hg.wf h0 hend hb
  result g h := by simp only [BusConn.call, heq, fileCall]
  shows g h := by
    have hoff : c.writeOff = g.writeOff := h.writeOff
    have hw := (h.writeAt h0 hend).2
    rw [show c.writeOff.toNat = g.writeOff by omega] at hw
    simp only [BusConn.call, heq, fileCall, List.map_id, Handle.write]
    exact hw.advance data.length
  beyond g h i hi := by
    have hoff : c.writeOff = g.writeOff := h.writeOff
    simp only [fileCall, List.map_id, Handle.write, Handle.writeAt]
    exact overlay_of_le (by omega)

theorem carries_read (hwf : c.stripe.Wf) (hmem : (c.call mem alloc call).1.2 = mem)
    (hconn : ∃ r, (c.call mem alloc call).1.1 = { c with readOff := r })
    (hres : ∀ g, Shows c mem g → (fileCall id g none call).2 = (c.call mem alloc call).2 ∧
      Shows (c.call mem alloc call).1.1 mem (fileCall id g none call).1 ∧
      (fileCall id g none call).1.data = g.data) :
    Carries c mem alloc call c.stripe mem := by
  obtain ⟨r, hr⟩ := hconn
  refine ⟨.refl hwf, ?_, ?_, ?_, fun g h => (hres g h).1, fun g h => ?_, fun g h i _ => ?_⟩
  · rw [hr]
    exact id
  · rw [hr]
  · rw [hmem]
    exact fun _ _ => rfl
  · rw [hmem]
    exact (hres g h).2.1
  · rw [(hres g h).2.2]

variable (c mem) in
theorem read_conn (len : ℕ) : ∃ r, (c.read mem len).1 = { c with readOff := r } := by
  unfold BusConn.read
  dsimp only
  split
  · exact ⟨c.readOff, rfl⟩
  · exact ⟨_, rfl⟩

variable (c mem) in
theorem readByte_conn : ∃ r, (c.readByte mem).1 = { c with readOff := r } := by
  unfold BusConn.readByte
  split
  · exact ⟨c.readOff, rfl⟩
  · exact ⟨_, rfl⟩

variable (c mem) in
theorem copyLoop_conn (bufs : ℕ → ℕ) (fuel k limit : ℕ) :
    ∃ r, (c.copyLoop mem bufs fuel k limit).1 = { c with readOff := r } := by
  induction fuel generalizing c k limit with
  | zero => exact ⟨c.readOff, rfl⟩
  | succ fuel ih =>
    obtain ⟨r, hr⟩ := read_conn c mem (min (bufs k + 1) limit)
    rw [BusConn.copyLoop]
    split_ifs with hl
    · exact ⟨c.readOff, rfl⟩
    · dsimp only
      rw [hr]
      split
      · exact ⟨r, rfl⟩
      · exact ⟨r, rfl⟩
      · exact ih _ _ _

variable (mem) in
theorem call_carries (hwf : c.stripe.Wf) (hw : 0 ≤ c.writeOff) (hin : c.InRange call)
    (hans : c.Answers call alloc) (hf : c.allocFails call alloc = false) :
    ∃ s₁ mem₁, Carries c mem alloc call s₁ mem₁ := by
  cases call with
  | write data =>
    rcases write_cases mem hwf hw hin hans with ⟨hf', -⟩ | ⟨-, s₁, mem₁, hg, hle, heq⟩
    · exact absurd (hf.symm.trans hf') (by decide)
    · exact ⟨s₁, mem₁, carries_write hg hw hle heq⟩
  | writeByte b =>
    rcases write_cases mem hwf hw (show _ + (([b].length : ℕ) : ℤ) + _ < _ from hin) hans with
      ⟨hf', -⟩ | ⟨-, s₁, mem₁, hg, hle, heq⟩
    · exact absurd (hf.symm.trans hf') (by decide)
    · have hc := carries_write hg hw hle heq
      have hstate : (c.call mem alloc (.writeByte b)).1 = (c.call mem alloc (.write [b])).1 := by
        simp only [BusConn.call, writeByte_eq]
      refine ⟨s₁, mem₁, hg, ?_, ?_, ?_, fun g h => ?_, fun g h => ?_, hc.beyond⟩
      · rw [hstate]
        exact hc.written
      · rw [hstate]
        exact hc.blocks
      · rw [hstate]
        exact hc.frame
      · simp only [fileCall, BusConn.call, writeByte_eq, heq]
      · rw [hstate]
        exact hc.shows g h
  | writeAt data off =>
    rcases writeAt_cases mem hwf hin.1 hin.2 hans with
      ⟨hf', -⟩ | ⟨-, s₁, mem₁, hg, hle, heq⟩
    · exact absurd (hf.symm.trans hf') (by decide)
    · exact ⟨s₁, mem₁, carries_writeAt hg hin.1 hle heq⟩
  | read len =>
    refine ⟨_, _, carries_read hwf rfl (read_conn c mem len) fun g h => ?_⟩
    · simp only [BusConn.call, fileCall, h.read]
      split_ifs with he
      · exact ⟨rfl, h, rfl⟩
      · exact ⟨rfl, h.skip _, rfl⟩
  | readByte =>
    refine ⟨_, _, carries_read hwf rfl (readByte_conn c mem) fun g h => ?_⟩
    · simp only [BusConn.call, fileCall, h.readByte]
      split_ifs with he
      · exact ⟨rfl, h, rfl⟩
      · exact ⟨rfl, h.skip 1, rfl⟩
  | readAt len off =>
    refine ⟨_, _, carries_read hwf rfl ⟨c.readOff, rfl⟩ fun g h => ?_⟩
    simp only [BusConn.call, fileCall]
    by_cases h0 : off < 0
    · rw [if_pos h0, BusConn.readAt, Stripe.readAt, if_pos h0]
      exact ⟨rfl, h, rfl⟩
    · rw [if_neg h0, h.readAt (by omega)]
      split_ifs with he
      · exact ⟨rfl, h, rfl⟩
      · exact ⟨rfl, h, rfl⟩
  | writeTo bufs =>
    refine ⟨_, _, carries_read hwf rfl (copyLoop_conn c mem bufs _ _ _) fun g h => ?_⟩
    · simp only [BusConn.call, fileCall, h.writeTo, true_and]
      exact ⟨h.skip _, rfl⟩
  | dataLen =>
    refine ⟨_, _, carries_read hwf rfl ⟨c.readOff, rfl⟩ fun g h => ⟨?_, h, rfl⟩⟩
    simp only [fileCall, BusConn.call, h.len]

end Calls

/-! ## Whole runs -/

/-- The file of a connection, given what the file contains. -/
def BusConn.handle (c : BusConn) (f : ℕ → UInt8) : Handle UInt8 :=
  ⟨f, c.stripe.dataLen.toNat, c.readOff.toNat, c.writeOff.toNat⟩

/-- The call as the reference sees it. -/
def Entry.request (e : Entry) : Call × Option IOError :=
  (e.call, if e.failed then some .allocFailed else none)

theorem shows_handle (hwf : c.stripe.Wf) (hr : 0 ≤ c.readOff) (hw : 0 ≤ c.writeOff)
    {f : ℕ → UInt8} (hf : ∀ i < c.stripe.capacity, f i = c.stripe.content mem i) :
    Shows c mem (c.handle f) :=
  ⟨hwf, rfl, (Int.toNat_of_nonneg hr).symm, (Int.toNat_of_nonneg hw).symm, hf⟩

theorem Shows.eq_handle (h : Shows c mem g) {f : ℕ → UInt8}
    (hf : ∀ i < c.stripe.capacity, f i = c.stripe.content mem i)
    (hb : ∀ i, c.stripe.capacity ≤ i → g.data i = f i) : g = c.handle f := by
  have hdata : g.data = f := by
    funext i
    by_cases hi : i < c.stripe.capacity
    · rw [h.data i hi, hf i hi]
    · exact hb i (by omega)
  unfold BusConn.handle
  rw [h.readOff, h.writeOff, Int.toNat_natCast, Int.toNat_natCast, ← hdata, ← h.len]

/-- A longer list has the same data blocks at the start. -/
theorem getElem?_tail_of_append {blocks more : List BlockId} (hne : blocks ≠ []) {i : ℕ}
    (hi : i < blocks.tail.length * BlockSize) :
    (blocks ++ more).tail[i / BlockSize]? = blocks.tail[i / BlockSize]? := by
  rw [List.tail_append_of_ne_nil hne, List.getElem?_append_left (div_lt_of_lt hi)]

/-- A grown stripe has the same data below the old capacity. -/
theorem Grown.content {s s' : Stripe} {mem' : Memory} (h : Grown s mem s' mem') (hwf : s.Wf) {i : ℕ}
    (hi : i < s.capacity) : s'.content mem' i = s.content mem i := by
  obtain ⟨more, hmore⟩ := h.blocks
  refine flat_congr ?_ fun b hb => h.mem b ?_
  · rw [← hmore, getElem?_tail_of_append hwf.nonempty hi]
  · rintro rfl
    exact hwf.header_notMem (List.mem_of_getElem? hb)

theorem exists_contents {events : List Event} : ∀ {c : BusConn} {mem : Memory} {entries : List Entry},
    c.stripe.Wf → 0 ≤ c.readOff → 0 ≤ c.writeOff → BusConn.run (c, mem) events = some entries →
    ∃ f : ℕ → UInt8, (∀ i < c.stripe.capacity, f i = c.stripe.content mem i) ∧
      fileRun id (c.handle f) (entries.map Entry.request) = entries.map Entry.result ∧
      ∀ e ∈ entries, e.failed = true → e.after = e.before := by
  induction events with
  | nil =>
    intro c mem entries hwf _ _ hrun
    cases hrun
    exact ⟨c.stripe.content mem, fun _ _ => rfl, rfl, by simp⟩
  | cons event events ih =>
    intro c mem entries hwf hr hw hrun
    cases event with
    | store b data =>
      rw [BusConn.run] at hrun
      split_ifs at hrun with hb
      obtain ⟨f, hf, hres⟩ := ih hwf hr hw hrun
      refine ⟨f, fun i hi => ?_, hres⟩
      rw [hf i hi]
      refine flat_congr rfl fun d hd => Function.update_of_ne ?_ _ _
      rintro rfl
      exact hb (List.mem_of_mem_tail (List.mem_of_getElem? hd))
    | call call alloc =>
      rw [BusConn.run] at hrun
      split_ifs at hrun with hok
      obtain ⟨hin, hans⟩ := hok
      obtain ⟨rest, hrest, rfl⟩ := Option.map_eq_some_iff.1 hrun
      cases hfail : c.allocFails call alloc with
      | true =>
        obtain ⟨hsame, hcall⟩ := call_failed mem hwf hw hin hans hfail
        rw [hsame] at hrest ⊢
        obtain ⟨f, hf, hres, hkeep⟩ := ih hwf hr hw hrest
        refine ⟨f, hf, ?_, ?_⟩
        · simp only [List.map_cons, fileRun, Entry.request, if_true, hcall]
          exact congrArg _ hres
        · intro e he
          rcases List.mem_cons.1 he with rfl | he
          · exact fun _ => rfl
          · exact hkeep e he
      | false =>
        obtain ⟨s₁, mem₁, hc⟩ := call_carries mem hwf hw hin hans hfail
        have hsame : ∀ f, ({ c with stripe := s₁ } : BusConn).handle f = c.handle f := by
          intro f
          simp only [BusConn.handle, hc.grown.dataLen]
        have hnext := hc.shows _
          (shows_handle (c := { c with stripe := s₁ }) hc.grown.wf hr hw fun _ _ => rfl)
        obtain ⟨f', hf', hres, hkeep⟩ := ih hnext.wf (by rw [hnext.readOff]; omega)
          (by rw [hnext.writeOff]; omega) hrest
        -- the blocks contain what they contained when they were allocated
        set f : ℕ → UInt8 := fun i => if i < s₁.capacity then s₁.content mem₁ i else f' i with hfdef
        have hcap : (c.call mem alloc call).1.1.stripe.capacity = s₁.capacity := by
          rw [Stripe.capacity, hc.blocks, Stripe.capacity]
        have hshow : Shows { c with stripe := s₁ } mem₁ (c.handle f) := by
          rw [← hsame]
          exact shows_handle (c := { c with stripe := s₁ }) hc.grown.wf hr hw fun i hi => if_pos hi
        have hhandle : (fileCall id (c.handle f) none call).1 =
            (c.call mem alloc call).1.1.handle f' := by
          refine (hc.shows _ hshow).eq_handle hf' fun i hi => ?_
          rw [hcap] at hi
          rw [hc.beyond _ hshow i hi]
          exact if_neg (by omega)
        refine ⟨f, fun i hi => ?_, ?_, ?_⟩
        · rw [hfdef]
          dsimp only
          rw [if_pos (lt_of_lt_of_le hi hc.grown.capacity)]
          exact hc.grown.content hwf hi
        · simp only [List.map_cons, fileRun, Entry.request, if_neg Bool.false_ne_true,
            hc.result _ hshow, hhandle]
          exact congrArg _ hres
        · intro e he
          rcases List.mem_cons.1 he with rfl | he
          · exact fun hcontra => absurd hcontra Bool.false_ne_true
          · exact hkeep e he

/-- A new connection is a file with two cursors: for every run there are initial contents with which
the reference gives the same results, where a write fails exactly if it needs blocks and
`AllocBlocks` fails, and such a write leaves connection and memory as they were. -/
theorem conn_refines_file (blockCount : ℕ) (blocks : List BlockId) (mem : Memory)
    (hg : Granted [] (blockCount + 1) blocks) (events : List Event) (entries : List Entry)
    (hrun : BusConn.run (BusConn.request blocks mem) events = some entries) :
    (∃ f : ℕ → UInt8,
      fileRun id (.fresh f) (entries.map Entry.request) = entries.map Entry.result) ∧
    ∀ e ∈ entries, e.failed = true → e.after = e.before := by
  obtain ⟨f, -, hres, hkeep⟩ := exists_contents (.create hg (by omega)) le_rfl le_rfl hrun
  exact ⟨⟨f, hres⟩, hkeep⟩

/-- Five calls, of which the second needs a block and the third fails for want of one. -/
theorem conn_refines_file_run : ∃ (entries : List Entry) (f : ℕ → UInt8),
    entries.map Entry.failed = [false, false, true, false, false] ∧
      fileRun id (.fresh f) (entries.map Entry.request) = entries.map Entry.result := by
  let events : List Event :=
    [.call (.write [1, 2, 3]) none, .call (.writeAt [4, 5] 5000) (some [(-2, 7)]),
      .store (-2, 9) fun _ => 1, .call (.writeAt [6] 9000) none, .call (.read 2) none,
      .call (.writeTo fun _ => 3) none]
  have hsome : ((BusConn.run (BusConn.request [(-1, 256), (-1, 257)] fun _ _ => 0) events).map
      (List.map Entry.failed)) = some [false, false, true, false, false] := by decide +kernel
  obtain ⟨entries, hrun, hfailed⟩ := Option.map_eq_some_iff.1 hsome
  obtain ⟨⟨f, hf⟩, -⟩ := conn_refines_file 1 [(-1, 256), (-1, 257)] (fun _ _ => 0) (by decide)
    events entries hrun
  exact ⟨entries, f, hfailed, hf⟩

end Mmfg.Conn
