import Mathlib
import Mimuw.Crosswords.Letters

/-!
# The edges of the coordinate range

Next to `SIZE_MAX` the constructor of a word cuts its text, and printing goes two
columns further than the area. Both compute with wrapping coordinates; what comes
of it is told here from the numbers behind them.
-/

namespace Mimuw.Crosswords

open Mimuw.Lib

theorem toNat_le_sizeMax (x : Coordinate) : x.toNat ≤ sizeMax.toNat := by
  have := x.toNat_lt
  rw [sizeMax_toNat]
  omega

private theorem toNat_sizeMax_sub (x : Coordinate) :
    (sizeMax - x).toNat = sizeMax.toNat - x.toNat :=
  UInt64.toNat_sub_of_le _ _ (UInt64.le_iff_toNat_le.mpr (toNat_le_sizeMax x))

/-! ## Words -/

/-- A `std::string`, which is shorter than `max_size()` allows. -/
structure Text where
  chars : List CChar
  size : chars.length < 2 ^ 63

/-- The word has a letter, and its end is as many cells further as it has other letters. -/
def Word.EndsRight (w : Word) : Prop :=
  1 ≤ w.length.toNat ∧ ∃ e : Coordinate,
    w.getEndPosition = w.orientation.pos w.line e ∧ e.toNat = w.start.toNat + (w.length.toNat - 1)

/-- Where the constructor puts a word as it should. A vertical word near the last column is
cut by its row, and otherwise not cut at all. -/
def Placed (first second : Coordinate) (text : List CChar) : Orientation → Prop
  | .H => text = [] → first ≠ sizeMax
  | .V =>
      if sizeMax.toNat ≤ first.toNat + text.length then text ≠ [] ∧ second ≠ 0
      else second.toNat + text.length ≤ 2 ^ 64

private theorem stop_toNat {w : Word} (h : 1 ≤ w.length.toNat) :
    w.stop.toNat = min (w.start.toNat + (w.length.toNat - 1)) sizeMax.toNat := by
  have hstart := toNat_le_sizeMax w.start
  have hone : (w.length - 1).toNat = w.length.toNat - 1 :=
    UInt64.toNat_sub_of_le _ _ (UInt64.le_iff_toNat_le.mpr h)
  rw [Word.stop]
  split
  next hfar =>
    rw [UInt64.lt_iff_toNat_lt, toNat_sizeMax_sub] at hfar
    omega
  next hnear =>
    rw [UInt64.lt_iff_toNat_lt, toNat_sizeMax_sub] at hnear
    rw [sizeMax_toNat] at *
    rw [UInt64.toNat_add, hone]
    omega

private theorem endsRight_iff (w : Word) :
    w.EndsRight ↔ 1 ≤ w.length.toNat ∧ w.start.toNat + (w.length.toNat - 1) ≤ sizeMax.toNat := by
  refine and_congr_right fun hlength => ?_
  constructor
  · rintro ⟨e, -, he⟩
    exact he ▸ toNat_le_sizeMax e
  · intro hle
    refine ⟨w.stop, rfl, ?_⟩
    rw [stop_toNat hlength]
    omega

section Make

variable {first second x : Coordinate} {o : Orientation} {text : List CChar}

private theorem cut_iff (h : text.length < 2 ^ 63) :
    sizeMax - first < UInt64.ofNat text.length + 1 ↔
      sizeMax.toNat ≤ first.toNat + text.length := by
  have hfirst := toNat_le_sizeMax first
  have hlength : (UInt64.ofNat text.length + 1).toNat = text.length + 1 := by
    rw [UInt64.toNat_add, UInt64.toNat_ofNat', UInt64.toNat_one]
    omega
  rw [UInt64.lt_iff_toNat_lt, toNat_sizeMax_sub, hlength]
  omega

/-- What is left of the line from a coordinate on; from `0` the count wraps. -/
private theorem toNat_left (x : Coordinate) :
    (sizeMax - x + 1).toNat = if x = 0 then 0 else sizeMax.toNat - x.toNat + 1 := by
  have hx := toNat_le_sizeMax x
  rw [UInt64.toNat_add, toNat_sizeMax_sub, UInt64.toNat_one]
  rw [sizeMax_toNat] at *
  split
  next hzero => simp [hzero]
  next hne =>
    have : x.toNat ≠ 0 := fun h => hne (UInt64.toNat_inj.mp h)
    omega

private theorem length_make (first second : Coordinate) (o : Orientation)
    (h : text.length < 2 ^ 63) : (Word.make first second o text).length.toNat =
      if sizeMax.toNat ≤ first.toNat + text.length then
        min (sizeMax - (Word.make first second o text).start + 1).toNat text.length
      else max text.length 1 := by
  have hkept : (Word.make first second o text).word =
      if sizeMax.toNat ≤ first.toNat + text.length then
        text.take (sizeMax - (Word.make first second o text).start + 1).toNat
      else if text.isEmpty then [63] else text := by
    simp only [Word.make, Word.start, cut_iff h]
    cases o <;> simp
  rw [Word.length, hkept, UInt64.toNat_ofNat']
  split
  next => rw [List.length_take]; omega
  next =>
    cases text with
    | nil => rfl
    | cons c text =>
        simp only [List.isEmpty_cons, Bool.false_eq_true, if_false] at *
        rw [Nat.max_eq_left (by simp)]
        omega

/-- A word of any text at any position ends where its length says exactly if it is placed where the
constructor can tell. -/
theorem word_ends_right_iff (first second : Coordinate) (o : Orientation) (text : Text) :
    (Word.make first second o text.chars).EndsRight ↔ Placed first second text.chars o := by
  have hfirst := toNat_le_sizeMax first
  have hsecond := toNat_le_sizeMax second
  have hzero (x : Coordinate) : x = 0 ↔ x.toNat = 0 := UInt64.toNat_inj.symm
  have hnil : text.chars = [] ↔ text.chars.length = 0 := List.length_eq_zero_iff.symm
  rw [endsRight_iff, length_make first second o text.size, toNat_left, sizeMax_toNat] at *
  cases o with
  | H =>
      have hlast : first = sizeMax ↔ first.toNat = sizeMax.toNat := UInt64.toNat_inj.symm
      simp only [Placed, Word.make, Word.start, hzero, hnil, ne_eq, hlast, sizeMax_toNat]
      have := text.size
      split <;> [split; skip] <;> omega
  | V =>
      simp only [Placed, Word.make, Word.start, hzero, hnil, ne_eq, sizeMax_toNat]
      have := text.size
      split <;> [split; skip] <;> omega

end Make

/-- In the last column the empty text stays empty, a vertical word is cut to nothing, and near the
last row it is not cut. -/
theorem words_end_wrong :
    ¬ (Word.make sizeMax 0 .H []).EndsRight ∧ ¬ (Word.make sizeMax 0 .V [65]).EndsRight ∧
      ¬ (Word.make 0 sizeMax .V [65, 66]).EndsRight := by
  simp only [endsRight_iff]
  decide

end Mimuw.Crosswords
