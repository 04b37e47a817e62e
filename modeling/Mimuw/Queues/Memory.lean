import Mathlib

/-!
# Memory and calls of the queues

Addresses come from an allocator that hands out any address that is not in use,
so also one that was freed before.
-/

namespace Mimuw.Queues

/-- `int64_t` -/
abbrev Value := BitVec 64

def emptyValue : Value := 0

def takenValue : Value := -1

abbrev Tid := Nat

/-- A pointer is `none` when it is `NULL`. -/
abbrev Ptr := Nat

/-- Nothing stands at an address that is not allocated. -/
abbrev Heap (Node : Type) := Ptr → Option Node

/-- A thread calls an operation of the queue, or goes on with the one it is in; then
`fresh` is what `malloc` returns if the step calls it. -/
inductive Event where
  | push (t : Tid) (item : Value)
  | pop (t : Tid)
  | next (t : Tid) (fresh : Ptr)
  deriving DecidableEq

end Mimuw.Queues
