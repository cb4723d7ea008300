import Mmfg.Lib.System
import Mathlib.Data.Set.Function
import Mathlib.Order.Interval.Set.Defs

/-!
# Programs that share a byte memory

A memory of bytes with little-endian loads, stores and compare-and-swaps of any number of bytes.  A
`Program` makes at most one access in each step, inside its own area of the memory.  Programs with
disjoint areas do not see each other: whatever the interleaving, what one of them does in a run of
all is what it does alone (`run_project`), and bytes outside all areas stay as they are
(`run_outside`).
-/

/-- A memory of bytes. -/
abbrev ByteMemory := ℕ → UInt8

namespace ByteMemory

variable {m m' : ByteMemory} {off i n k : ℕ}

/-- The little-endian number in the `n` bytes from `off` on. -/
def load (m : ByteMemory) (off : ℕ) : ℕ → ℕ
  | 0 => 0
  | n + 1 => (m off).toNat + 256 * m.load (off + 1) n

/-- Store a number in the `n` bytes from `off` on. -/
def store (m : ByteMemory) (off : ℕ) : ℕ → ℕ → ByteMemory
  | 0, _ => m
  | n + 1, v => Function.update (m.store (off + 1) n (v / 256)) off (UInt8.ofNat v)

theorem load_congr (h : ∀ i, off ≤ i → i < off + n → m i = m' i) : m.load off n = m'.load off n := by
  induction n generalizing off with
  | zero => rfl
  | succ n ih =>
    have hrest : m.load (off + 1) n = m'.load (off + 1) n :=
      ih fun i hi hi' => h i (by omega) (by omega)
    rw [load, load, h off le_rfl (by omega), hrest]

theorem store_of_notMem (v : ℕ) (h : i < off ∨ off + n ≤ i) : m.store off n v i = m i := by
  induction n generalizing off v with
  | zero => rfl
  | succ n ih =>
    rw [store, Function.update_of_ne (by omega)]
    exact ih (v / 256) (by omega)

theorem load_store (m : ByteMemory) (off n v : ℕ) : (m.store off n v).load off n = v % 256 ^ n := by
  induction n generalizing off v with
  | zero => rw [load, pow_zero, Nat.mod_one]
  | succ n ih =>
    have hrest : (m.store off (n + 1) v).load (off + 1) n = v / 256 % 256 ^ n := by
      rw [← ih]
      refine load_congr fun i hi _ => ?_
      rw [store, Function.update_of_ne (by omega)]
    have hpow : 256 ^ (n + 1) = 256 * 256 ^ n := pow_succ' 256 n
    rw [load, hrest, store, Function.update_self, UInt8.toNat_ofNat', hpow, Nat.mod_mul]

/-- A store is not seen by a load of other bytes. -/
theorem load_store_of_disjoint (v : ℕ) (h : i + k ≤ off ∨ off + n ≤ i) :
    (m.store off n v).load i k = m.load i k :=
  load_congr fun j hj hj' => store_of_notMem v (by omega)

theorem load_lt (m : ByteMemory) (off n : ℕ) : m.load off n < 256 ^ n := by
  induction n generalizing off with
  | zero => exact Nat.one_pos
  | succ n ih =>
    have hbyte := (m off).toNat_lt
    have hrest := ih (off + 1)
    rw [load, pow_succ']
    omega

theorem store_congr (v : ℕ) (h : off ≤ i) (h' : i < off + n) :
    m.store off n v i = m'.store off n v i := by
  induction n generalizing off v with
  | zero => omega
  | succ n ih =>
    rw [store, store, Function.update_apply, Function.update_apply]
    split_ifs with hi
    · rfl
    · exact ih (v / 256) (by omega) (by omega)

end ByteMemory

namespace SharedMemory

/-- An atomic access to `n` bytes. -/
inductive Access where
  | load (n off : ℕ)
  | store (n off v : ℕ)
  | cas (n off old new : ℕ)
  deriving DecidableEq

namespace Access

/-- The bytes of the access. -/
def footprint : Access → Set ℕ
  | .load n off | .store n off _ | .cas n off _ _ => Set.Ico off (off + n)

/-- The memory after the access, and what the program gets: the number loaded, or 1 for a
compare-and-swap that succeeds. -/
def perform (m : ByteMemory) : Access → ByteMemory × ℕ
  | .load n off => (m, m.load off n)
  | .store n off v => (m.store off n v, 0)
  | .cas n off old new => if m.load off n = old then (m.store off n new, 1) else (m, 0)

variable {m m' : ByteMemory} {area : Set ℕ} {acc : Access} {x : ℕ}

theorem perform_of_notMem (hx : x ∉ acc.footprint) : (acc.perform m).1 x = m x := by
  have hstore : ∀ {n off : ℕ} (v : ℕ), x ∉ Set.Ico off (off + n) → m.store off n v x = m x := by
    intro n off v hx
    refine ByteMemory.store_of_notMem v ?_
    rw [Set.mem_Ico] at hx
    omega
  cases acc with
  | load n off => rfl
  | store n off v => exact hstore v hx
  | cas n off old new =>
    rw [perform]
    split_ifs
    · exact hstore new hx
    · rfl

/-- An access sees only its own bytes. -/
theorem perform_eqOn (hsub : acc.footprint ⊆ area) (h : Set.EqOn m m' area) :
    Set.EqOn (acc.perform m).1 (acc.perform m').1 area ∧ (acc.perform m).2 = (acc.perform m').2 := by
  have hload : ∀ {n off : ℕ}, Set.Ico off (off + n) ⊆ area → m.load off n = m'.load off n :=
    fun hs => ByteMemory.load_congr fun i hi hi' => h (hs ⟨hi, hi'⟩)
  have hstore : ∀ (n off v : ℕ), Set.EqOn (m.store off n v) (m'.store off n v) area := by
    intro n off v x hx
    by_cases hin : off ≤ x ∧ x < off + n
    · exact ByteMemory.store_congr v hin.1 hin.2
    · rw [ByteMemory.store_of_notMem v (by omega), ByteMemory.store_of_notMem v (by omega)]
      exact h hx
  cases acc with
  | load n off => exact ⟨h, hload hsub⟩
  | store n off v => exact ⟨hstore n off v, rfl⟩
  | cas n off old new =>
    rw [perform, perform, hload hsub]
    split_ifs
    · exact ⟨hstore n off new, rfl⟩
    · exact ⟨h, rfl⟩

end Access

/-- A program over the shared memory: in a state, an action makes at most one access, inside the
program's area, and goes on with what it gets. -/
structure Program (σ α : Type) where
  area : Set ℕ
  next : σ → α → Option (Option Access × (ℕ → σ))
  within : ∀ s a acc k, next s a = some (some acc, k) → acc.footprint ⊆ area

/-- The access of a step is made. -/
def resume {σ : Type} (m : ByteMemory) : Option Access × (ℕ → σ) → ByteMemory × σ
  | (none, k) => (m, k 0)
  | (some acc, k) => ((acc.perform m).1, k (acc.perform m).2)

namespace Program

variable {σ α : Type} (P : Program σ α)

/-- The next access of the threads is made. -/
def step (x : ByteMemory × σ) (a : α) : Option (ByteMemory × σ) := (P.next x.2 a).map (resume x.1)

/-- The program alone. -/
def alone (init : ByteMemory × σ → Prop) : System (ByteMemory × σ) α where
  Init := init
  step := P.step

variable {P} {m m' : ByteMemory} {s : σ} {a : α} {y : ByteMemory × σ}

theorem step_of_notMem (h : P.step (m, s) a = some y) {x : ℕ} (hx : x ∉ P.area) : y.1 x = m x := by
  obtain ⟨⟨acc, k⟩, hnext, rfl⟩ := Option.map_eq_some_iff.1 h
  cases acc with
  | none => rfl
  | some acc => exact Access.perform_of_notMem fun hin => hx (P.within s a acc k hnext hin)

/-- A step sees only the program's area. -/
theorem step_eqOn (h : P.step (m, s) a = some y) (heq : Set.EqOn m m' P.area) :
    ∃ n, P.step (m', s) a = some (n, y.2) ∧ Set.EqOn y.1 n P.area := by
  obtain ⟨⟨acc, k⟩, hnext, rfl⟩ := Option.map_eq_some_iff.1 h
  cases acc with
  | none => exact ⟨m', by rw [step, hnext]; rfl, heq⟩
  | some acc =>
    obtain ⟨hmem, hval⟩ := Access.perform_eqOn (P.within s a acc k hnext) heq
    refine ⟨(acc.perform m').1, ?_, hmem⟩
    rw [step, hnext]
    simp only [resume, Option.map_some, hval]

end Program

/-! ## Programs side by side -/

section Compose

variable {κ : Type} [DecidableEq κ] {σ α : κ → Type} (P : (k : κ) → Program (σ k) (α k))

/-- A step of one of the programs. -/
def composeStep (x : ByteMemory × ((k : κ) → σ k)) (a : (k : κ) × α k) :
    Option (ByteMemory × ((k : κ) → σ k)) :=
  ((P a.1).step (x.1, x.2 a.1) a.2).map fun y => (y.1, Function.update x.2 a.1 y.2)

/-- The programs on one memory. -/
def compose (init : ByteMemory × ((k : κ) → σ k) → Prop) :
    System (ByteMemory × ((k : κ) → σ k)) ((k : κ) × α k) where
  Init := init
  step := composeStep P

/-- The action, if it is one of program `k`. -/
def pick (k : κ) (a : (k : κ) × α k) : Option (α k) := if h : a.1 = k then some (h ▸ a.2) else none

theorem pick_self (k : κ) (a : α k) : pick k ⟨k, a⟩ = some a := dif_pos rfl

theorem pick_of_ne {k j : κ} (h : j ≠ k) (a : α j) : pick k ⟨j, a⟩ = none := dif_neg h

variable {P} {init : ByteMemory × ((k : κ) → σ k) → Prop} {x y : ByteMemory × ((k : κ) → σ k)}
  {as : List ((k : κ) × α k)}

/-- In a run of all programs, program `k` does what it does alone. -/
theorem run_project (hdisj : ∀ j k, j ≠ k → ∀ b ∈ (P j).area, b ∉ (P k).area)
    (hr : (compose P init).run x as = some y) (k : κ) (init' : ByteMemory × σ k → Prop)
    {m : ByteMemory} (hm : Set.EqOn x.1 m (P k).area) :
    ∃ n, ((P k).alone init').run (m, x.2 k) (as.filterMap (pick k)) = some (n, y.2 k) ∧
      Set.EqOn y.1 n (P k).area := by
  induction as generalizing x m with
  | nil =>
    cases hr
    exact ⟨m, rfl, hm⟩
  | cons a as ih =>
    rw [System.run_cons, Option.bind_eq_some_iff] at hr
    obtain ⟨z, hz, hr⟩ := hr
    obtain ⟨w, hw, rfl⟩ := Option.map_eq_some_iff.1 hz
    obtain ⟨j, a⟩ := a
    dsimp only at hw hr
    by_cases hjk : j = k
    · subst hjk
      obtain ⟨n, hn, heq⟩ := Program.step_eqOn hw hm
      obtain ⟨n', hn', heq'⟩ := ih hr heq
      refine ⟨n', ?_, heq'⟩
      rw [List.filterMap_cons, pick_self]
      dsimp only
      rw [System.run_cons, Option.bind_eq_some_iff]
      refine ⟨_, hn, ?_⟩
      simpa only [Function.update_self] using hn'
    · -- a step of another program leaves the area and the state of `k`
      have heq : Set.EqOn w.1 m (P k).area := by
        intro b hb
        rw [Program.step_of_notMem hw fun hb' => hdisj j k hjk b hb' hb]
        exact hm hb
      obtain ⟨n, hn, heq'⟩ := ih hr heq
      refine ⟨n, ?_, heq'⟩
      rw [List.filterMap_cons, pick_of_ne hjk]
      simpa only [Function.update_of_ne (Ne.symm hjk)] using hn

/-- Bytes that belong to no program stay as they are. -/
theorem run_outside (hr : (compose P init).run x as = some y) {b : ℕ} (hb : ∀ k, b ∉ (P k).area) :
    y.1 b = x.1 b := by
  induction as generalizing x with
  | nil =>
    cases hr
    rfl
  | cons a as ih =>
    rw [System.run_cons, Option.bind_eq_some_iff] at hr
    obtain ⟨z, hz, hr⟩ := hr
    obtain ⟨w, hw, rfl⟩ := Option.map_eq_some_iff.1 hz
    rw [ih hr]
    exact Program.step_of_notMem hw (hb a.1)

end Compose

end SharedMemory
