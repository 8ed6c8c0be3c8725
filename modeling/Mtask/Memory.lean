import Mathlib.Data.Nat.Notation

/-!
# Blocks of memory

What `mtask_malloc` and `mtask_free` do to the blocks of a part of the program. A block is known by
its address; the addresses that are handed out here are never used again, so that a block which is
freed twice would be seen.
-/

namespace Mtask

/-- The next address to be handed out, and the addresses that were freed. -/
structure Memory where
  next : ℕ
  freed : List ℕ
  deriving DecidableEq, Repr

namespace Memory

/-- `mtask_malloc` -/
def malloc (m : Memory) : ℕ × Memory :=
  (m.next, { m with next := m.next + 1 })

/-- `mtask_free` -/
def free (m : Memory) (addr : ℕ) : Memory :=
  { m with freed := m.freed ++ [addr] }

end Memory

/-- A block, and the bytes that were written to it. -/
structure Block where
  addr : ℕ
  bytes : List UInt8
  deriving DecidableEq, Repr

end Mtask
