import Mathlib

/-!
# Whole numbers in single precision

A sum is rounded to 24 bits, and a half to the even neighbour.  Sums below `2 ^ 24` are
exact, and those that are not stay above it, so that a computation with sums and minima
agrees with the exact one as long as its result is below.
-/

namespace Mimuw.Lib

/-- How far apart the numbers with 24 bits are. -/
def unitInLastPlace (n : Nat) : Nat := 2 ^ (n.log2 - 23)

def roundSingle (n : Nat) : Nat :=
  let unit := unitInLastPlace n
  let quotient := n / unit
  let rest := n % unit
  if 2 * rest < unit ∨ 2 * rest = unit ∧ quotient % 2 = 0 then quotient * unit
  else (quotient + 1) * unit

/-- The first number from which on not all are there. -/
def singleBound : Nat := 2 ^ 24

private theorem roundSingle_of_lt {n : Nat} (h : n < singleBound) : roundSingle n = n := by
  have hunit : unitInLastPlace n = 1 := by
    have hlog : n.log2 - 23 = 0 := by
      rcases eq_or_ne n 0 with rfl | hne
      · rfl
      · have := (Nat.log2_lt hne).mpr h
        omega
    rw [unitInLastPlace, hlog, pow_zero]
  simp [roundSingle, hunit, Nat.mod_one]

private theorem singleBound_le_roundSingle {n : Nat} (h : singleBound ≤ n) :
    singleBound ≤ roundSingle n := by
  have hne : n ≠ 0 := by
    rintro rfl
    exact absurd h (by decide)
  have hlog : 24 ≤ n.log2 := (Nat.le_log2 hne).mpr h
  have hquotient : 2 ^ 23 ≤ n / unitInLastPlace n := by
    rw [unitInLastPlace, Nat.le_div_iff_mul_le (Nat.two_pow_pos _), ← pow_add,
      show 23 + (n.log2 - 23) = n.log2 by omega]
    exact (Nat.le_log2 hne).mp le_rfl
  have hbelow : singleBound ≤ n / unitInLastPlace n * unitInLastPlace n := by
    calc singleBound = 2 ^ 23 * 2 := rfl
      _ ≤ n / unitInLastPlace n * unitInLastPlace n := by
        refine Nat.mul_le_mul hquotient ?_
        exact Nat.le_self_pow (by omega) 2
  simp only [roundSingle]
  split
  · exact hbelow
  · exact hbelow.trans (Nat.mul_le_mul_right _ (Nat.le_succ _))

/-- A number that is whole and not negative. -/
@[ext]
structure Single where
  units : Nat
  deriving DecidableEq

namespace Single

instance : LinearOrder Single :=
  LinearOrder.lift' Single.units fun _ _ h => Single.ext h

instance : Add Single := ⟨fun x y => ⟨roundSingle (x.units + y.units)⟩⟩

end Single

/-- The computed value is the exact one, or both are large. -/
def Agrees (x : WithTop Single) (y : WithTop Nat) : Prop :=
  x.map Single.units = y ∨ singleBound ≤ x.map Single.units ∧ singleBound ≤ y

namespace Agrees

variable {x x' : WithTop Single} {y y' : WithTop Nat}

theorem top : Agrees ⊤ ⊤ := .inl rfl

theorem coe {c : Single} {n : Nat} (h : c.units = n) : Agrees c n :=
  .inl (congrArg WithTop.some h)

theorem add {c : Single} {n : Nat} (hc : c.units = n) (h : Agrees x y) :
    Agrees (c + x) (n + y) := by
  cases x with
  | top =>
      rcases h with h | ⟨-, hy⟩
      · obtain rfl : ⊤ = y := h
        exact .inl (by simp)
      · exact .inr ⟨by simp, hy.trans le_add_self⟩
  | coe x =>
      subst hc
      rcases h with h | ⟨hx, hy⟩
      · obtain rfl : ((x.units : Nat) : WithTop Nat) = y := h
        rcases lt_or_ge (c.units + x.units) singleBound with hlt | hge
        · refine .inl ?_
          change ((roundSingle (c.units + x.units) : Nat) : WithTop Nat) = _
          rw [roundSingle_of_lt hlt]
          rfl
        · exact .inr ⟨WithTop.coe_le_coe.mpr (singleBound_le_roundSingle hge),
            WithTop.coe_le_coe.mpr hge⟩
      · refine .inr ⟨WithTop.coe_le_coe.mpr (singleBound_le_roundSingle ?_), hy.trans le_add_self⟩
        exact (WithTop.coe_le_coe.mp hx).trans (Nat.le_add_left _ _)

end Agrees

end Mimuw.Lib
