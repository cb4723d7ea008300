import Mmfg.Lib.File

/-!
# Files with two cursors

A growable file with a length, a read cursor and a write cursor.  What lies beyond the length is
arbitrary, and stays visible if a positional write leaves a gap.  The operations do not look at the
values, so they commute with every map of them (`map_write`, `map_readAt`): running them on symbolic
values says where each value that is read comes from.
-/

namespace File

/-- Contents, length and the two cursors. -/
structure Handle (β : Type) where
  data : ℕ → β
  len : ℕ
  readOff : ℕ
  writeOff : ℕ

namespace Handle

variable {β γ : Type}

/-- An empty file, with contents that no read returns yet. -/
def fresh (data : ℕ → β) : Handle β := ⟨data, 0, 0, 0⟩

/-- A write at an offset; an empty one does not make the file longer. -/
def writeAt (h : Handle β) (p : List β) (off : ℕ) : Handle β :=
  { h with
    data := overlay h.data off p
    len := if p = [] then h.len else max h.len (off + p.length) }

/-- A write at the write cursor, which moves behind it. -/
def write (h : Handle β) (p : List β) : Handle β :=
  { h.writeAt p h.writeOff with writeOff := h.writeOff + p.length }

/-- At most `n` values from `off` on. -/
def readAt (h : Handle β) (n off : ℕ) : List β := window h.data off (min n (h.len - off))

/-- The read cursor moves on. -/
def skip (h : Handle β) (n : ℕ) : Handle β := { h with readOff := h.readOff + n }

/-- The same handle on other data. -/
def map (g : β → γ) (h : Handle β) : Handle γ :=
  { data := fun i => g (h.data i), len := h.len, readOff := h.readOff, writeOff := h.writeOff }

@[simp] theorem map_fresh (g : β → γ) (data : ℕ → β) :
    (fresh data).map g = fresh fun i => g (data i) := rfl

@[simp] theorem map_skip (g : β → γ) (h : Handle β) (n : ℕ) :
    (h.skip n).map g = (h.map g).skip n := rfl

theorem map_writeAt (g : β → γ) (h : Handle β) (p : List β) (off : ℕ) :
    (h.writeAt p off).map g = (h.map g).writeAt (p.map g) off := by
  have hdata : (fun i => g (overlay h.data off p i)) =
      overlay (fun i => g (h.data i)) off (p.map g) := by
    funext i
    unfold overlay
    split_ifs with hi
    · rw [List.getElem?_map]
      cases p[i - off]? <;> rfl
    · rfl
  simp only [map, writeAt, hdata, List.map_eq_nil_iff, List.length_map]

theorem map_write (g : β → γ) (h : Handle β) (p : List β) :
    (h.write p).map g = (h.map g).write (p.map g) := by
  have hw := map_writeAt g h p h.writeOff
  unfold write
  rw [show (h.map g).writeOff = h.writeOff from rfl, ← hw, List.length_map]
  rfl

theorem map_readAt (g : β → γ) (h : Handle β) (n off : ℕ) :
    (h.map g).readAt n off = (h.readAt n off).map g := by
  unfold readAt window
  rw [List.map_map]
  rfl

end Handle

end File
