import Mathlib.Algebra.Order.Ring.Nat

/-!
Status values and the allocator shared by every layer.

The device is a 32-bit target: `size_t` has 32 bits and its largest value is `sizeMax`.
Sizes are natural numbers here, and every ceiling is a 32-bit word, so a size that a
ceiling has admitted never wraps.
-/

namespace PhyNspire.Platform

/-- Typed errors, in the order of `phy_status`; the numbering is part of the document format. -/
inductive Status where
  | ok
  | platformInit
  | displayUnsupported
  | alreadyInitialized
  | notInitialized
  | invalidArgument
  | outOfMemory
  | interrupted
  | parse
  | type
  | domain
  | assumption
  | unsupported
  | overflow
  | timeout
  | nodeLimit
  | depthLimit
  | termLimit
  | memoryLimit
  | backend
  | corruptDocument
deriving DecidableEq, Repr

/-- `(size_t)-1`. -/
def sizeMax : Nat := 4294967295

/-- Arithmetic in `uint64_t`. -/
def u64 (n : Nat) : Nat := n % 2 ^ 64

theorem u64_of_lt {n : Nat} (inside : n < 2 ^ 64) : u64 n = n := Nat.mod_eq_of_lt inside

/-- The system allocator: whether the request of each number is granted is not under
the program's control. -/
structure Heap where
  grants : Nat → Bool
  taken : Nat

/-- `phy_alloc`: the answer to the next request. -/
def Heap.alloc (heap : Heap) : Bool × Heap :=
  (heap.grants heap.taken, { heap with taken := heap.taken + 1 })

end PhyNspire.Platform
