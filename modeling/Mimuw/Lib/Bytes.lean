import Mathlib.Tactic

/-!
# Fixed-width numbers and fields in byte strings

`toBytes w n` is the big-endian form of `n` in `w` bytes, as `htobe64` and
`htonl` leave it in memory; a number too large for its width is truncated.
`slice` reads a field of a packed structure.
-/

namespace Mimuw.Lib

def toBytes : Nat → Nat → List UInt8
  | 0, _ => []
  | w + 1, n => toBytes w (n / 256) ++ [UInt8.ofNat n]

def ofBytes (bytes : List UInt8) : Nat :=
  bytes.foldl (fun acc b => 256 * acc + b.toNat) 0

def slice (bytes : List UInt8) (offset width : Nat) : List UInt8 :=
  (bytes.drop offset).take width

@[simp] theorem length_toBytes (w n : Nat) : (toBytes w n).length = w := by
  induction w generalizing n with
  | zero => rfl
  | succ w ih => simp [toBytes, ih]

private theorem ofBytes_append_singleton (bytes : List UInt8) (b : UInt8) :
    ofBytes (bytes ++ [b]) = 256 * ofBytes bytes + b.toNat := by
  simp [ofBytes, List.foldl_append]

theorem ofBytes_lt (bytes : List UInt8) : ofBytes bytes < 256 ^ bytes.length := by
  induction bytes using List.reverseRecOn with
  | nil => simp [ofBytes]
  | append_singleton bytes b ih =>
      have hb := b.toNat_lt
      rw [ofBytes_append_singleton, List.length_append, List.length_singleton, pow_succ]
      omega

/-- Reading back gives the number, up to the width. -/
@[simp] theorem ofBytes_toBytes (w n : Nat) : ofBytes (toBytes w n) = n % 256 ^ w := by
  induction w generalizing n with
  | zero => simp [toBytes, ofBytes, Nat.mod_one]
  | succ w ih =>
      rw [toBytes, ofBytes_append_singleton, ih]
      have hbyte : (UInt8.ofNat n).toNat = n % 256 := by simp
      have hsplit := Nat.mod_mul (x := n) (a := 256) (b := 256 ^ w)
      rw [hbyte, pow_succ, Nat.mul_comm (256 ^ w) 256, hsplit]
      omega

theorem slice_mid {a b c : List UInt8} {offset width : Nat}
    (hoffset : offset = a.length) (hwidth : width = b.length) :
    slice (a ++ b ++ c) offset width = b := by
  subst hoffset hwidth
  simp [slice]

theorem slice_last {a b : List UInt8} {offset width : Nat}
    (hoffset : offset = a.length) (hwidth : width = b.length) :
    slice (a ++ b) offset width = b := by
  simpa using slice_mid (c := []) hoffset hwidth

theorem slice_append_left {a b : List UInt8} {offset width : Nat}
    (h : offset + width ≤ a.length) : slice (a ++ b) offset width = slice a offset width := by
  have hdrop : offset ≤ a.length := by omega
  unfold slice
  rw [List.drop_append_of_le_length hdrop, List.take_append_of_le_length]
  simp
  omega

end Mimuw.Lib
