import Mathlib.Tactic

/-!
# Constants of the shared memory layout

The sizes of `go/shm/layout.go` (`rust/src/layout.rs` repeats them): chunks of 1024 blocks of
4 KiB, at most 64 chunks, rings of 510 entries, 4096 registry slots, and the header block at the
start of every stripe.
-/

namespace Mmfg

/-- Bytes in a block. -/
abbrev BlockSize : ℕ := 4096

/-- Blocks in a chunk. -/
abbrev BlocksPerChunk : ℕ := 1024

/-- Node ids run from 1 to `MaxNodes - 1`; id 0 is the hub. -/
abbrev MaxNodes : ℕ := 64

/-- Chunks of a bus. -/
abbrev MaxChunks : ℕ := 64

/-- Entries in a ring. -/
abbrev QueueSize : ℕ := 510

/-- Slots in the registry, numbered from 1. -/
abbrev MaxTotalSlots : ℕ := 4096

/-- Blocks of the control stripe: 1 MiB. -/
abbrev ControlBlocks : ℕ := 256

/-- The `int16` entries that fit in a header block after its eight bytes of fields. -/
abbrev HeaderEntries : ℕ := 2044

/-- The bytes of data that a node lets a stripe have. -/
abbrev StripeDataSizeLimit : ℕ := 512 * BlockSize

/-- A mapped chunk, identified by the number in its name. -/
structure Chunk where
  id : ℕ
  deriving DecidableEq

/-- The two implementations of a node. -/
inductive Lang
  | go
  | rust
  deriving DecidableEq

end Mmfg
