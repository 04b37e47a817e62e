import Mathlib.Algebra.BigOperators.Group.Finset.Basic
import Mathlib.Algebra.Order.Monoid.Defs
import Mathlib.Order.Monotone.Basic

/-!
# Cheapest paths through layers

A path takes one vertex in each layer. A table that obeys the recurrence of dynamic
programming bounds the cost of every path, and is the cost of a path that realises it.
-/

namespace Mimuw.Lib

open Finset

variable {V M : Type*} [AddCommMonoid M] [PartialOrder M] [IsOrderedAddMonoid M]
  {cost table : Nat → V → M} {path : Nat → V} {n : Nat}

/-- The cost of the first `n` vertices -/
def pathCost (cost : Nat → V → M) (path : Nat → V) (n : Nat) : M :=
  ∑ i ∈ range n, cost i (path i)

theorem table_le_pathCost (next : V → V → Prop) (hfirst : ∀ v, table 0 v ≤ cost 0 v)
    (hstep : ∀ i u v, next u v → table (i + 1) v ≤ cost (i + 1) v + table i u)
    (hpath : ∀ i < n, next (path i) (path (i + 1))) :
    table n (path n) ≤ pathCost cost path (n + 1) := by
  induction n with
  | zero => simpa [pathCost] using hfirst (path 0)
  | succ n ih =>
      have hlast := hstep n (path n) (path (n + 1)) (hpath n n.lt_succ_self)
      have hbefore := ih fun i hi => hpath i (Nat.lt_succ_of_lt hi)
      calc table (n + 1) (path (n + 1))
          ≤ cost (n + 1) (path (n + 1)) + table n (path n) := hlast
        _ ≤ cost (n + 1) (path (n + 1)) + pathCost cost path (n + 1) := by gcongr
        _ = pathCost cost path (n + 1 + 1) := by
            rw [pathCost, pathCost, sum_range_succ _ (n + 1), add_comm]

omit [PartialOrder M] [IsOrderedAddMonoid M] in
theorem table_eq_pathCost (hfirst : table 0 (path 0) = cost 0 (path 0))
    (hstep : ∀ i < n, table (i + 1) (path (i + 1)) =
      cost (i + 1) (path (i + 1)) + table i (path i)) :
    table n (path n) = pathCost cost path (n + 1) := by
  induction n with
  | zero => simpa [pathCost] using hfirst
  | succ n ih =>
      have hbefore := ih fun i hi => hstep i (Nat.lt_succ_of_lt hi)
      rw [hstep n n.lt_succ_self, hbefore, pathCost, pathCost, sum_range_succ _ (n + 1), add_comm]

end Mimuw.Lib
