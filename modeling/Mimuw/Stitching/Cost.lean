import Mathlib.Algebra.Order.BigOperators.Group.Finset
import Mathlib.Algebra.Order.Ring.Abs
import Mathlib.Data.Int.ModEq
import Mathlib.Tactic.Zify
import Mimuw.Stitching.Rounding

/-!
# The cost of a pixel

The difference of the images and its square are taken in eight bits, where they wrap,
and are made numbers of single precision afterwards.
-/

namespace Mimuw.Stitching

open Mimuw.Lib

section Bytes

variable {cvtColor : Pixel → UInt8} {rows cols : Nat} {s d : Nat → Nat → UInt8}

end Bytes

end Mimuw.Stitching
