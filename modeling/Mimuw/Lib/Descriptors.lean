import Mathlib.Data.List.Basic
import Mathlib.Tactic.Common

/-!
# Descriptor tables

The open files of a process by their descriptors, and the calls that change them.
-/

namespace Mimuw.Lib

/-- The entry of a descriptor that is not open is `none`. -/
abbrev Descriptors (F : Type*) := List (Option F)

namespace Descriptors

variable {F : Type*} {t t' : Descriptors F} {d e : Nat}

def file (t : Descriptors F) (d : Nat) : Option F := t[d]?.join

def assign (t : Descriptors F) (d : Nat) (o : Option F) : Descriptors F :=
  (t ++ List.replicate (d + 1 - t.length) none).set d o

def lowest (t : Descriptors F) : Nat := t.findIdx Option.isNone

def dup2 (t : Descriptors F) (old new : Nat) : Option (Descriptors F) :=
  (t.file old).map fun f => t.assign new (some f)

def close (t : Descriptors F) (d : Nat) : Option (Descriptors F) :=
  (t.file d).map fun _ => t.assign d none

/-- The two ends of a new pipe get the lowest descriptors, the read end first. -/
def pipe (t : Descriptors F) (read write : F) : Option (Descriptors F × Nat × Nat) :=
  let r := t.lowest
  let opened := t.assign r (some read)
  let w := opened.lowest
  some (opened.assign w (some write), r, w)

theorem file_assign (t : Descriptors F) (d : Nat) (o : Option F) (e : Nat) :
    (t.assign d o).file e = if e = d then o else t.file e := by
  unfold file assign
  by_cases he : e = d
  · rw [he, if_pos rfl, List.getElem?_set_self (by simp; omega)]
    rfl
  · rw [if_neg he, List.getElem?_set_ne (Ne.symm he)]
    by_cases hlt : e < t.length
    · rw [List.getElem?_append_left hlt]
    · rw [List.getElem?_append_right (Nat.le_of_not_lt hlt),
        List.getElem?_eq_none (Nat.le_of_not_lt hlt), List.getElem?_replicate]
      split_ifs <;> rfl

private theorem file_lowest (t : Descriptors F) : t.file t.lowest = none := by
  unfold file lowest
  cases h : t[t.findIdx Option.isNone]? with
  | none => rfl
  | some o =>
      obtain ⟨hlt, hget⟩ := List.getElem?_eq_some_iff.mp h
      have hnone := List.findIdx_getElem (w := hlt)
      rw [hget, Option.isNone_iff_eq_none] at hnone
      rw [hnone]
      rfl

private theorem file_of_lt_lowest (h : d < t.lowest) : t.file d ≠ none := by
  intro hnone
  have hlt : d < t.length := Nat.lt_of_lt_of_le h List.findIdx_le_length
  have hsome := List.not_of_lt_findIdx h
  rw [file, List.getElem?_eq_getElem hlt] at hnone
  have hget : t[d] = none := hnone
  rw [hget] at hsome
  cases hsome

theorem dup2_eq {f : F} (h : t.file d = some f) : t.dup2 d e = some (t.assign e (some f)) := by
  rw [dup2, h]
  rfl

theorem close_eq {f : F} (h : t.file d = some f) : t.close d = some (t.assign d none) := by
  rw [close, h]
  rfl

/-- What a call that opens a pipe does. -/
def OpensPipe (t : Descriptors F) (read write : F) (t' : Descriptors F) (r w : Nat) : Prop :=
  (t.file r = none ∧ ∀ d < r, t.file d ≠ none) ∧
  (r < w ∧ t.file w = none ∧ ∀ d < w, d ≠ r → t.file d ≠ none) ∧
  ∀ d, t'.file d = if d = r then some read else if d = w then some write else t.file d

theorem pipe_opens (t : Descriptors F) (read write : F) :
    ∃ t' r w, t.pipe read write = some (t', r, w) ∧ OpensPipe t read write t' r w := by
  have hw := file_lowest (t.assign t.lowest (some read))
  rw [file_assign] at hw
  have hne : (t.assign t.lowest (some read)).lowest ≠ t.lowest := by
    intro heq
    rw [if_pos heq] at hw
    cases hw
  rw [if_neg hne] at hw
  have hlt : t.lowest < (t.assign t.lowest (some read)).lowest := by
    refine Nat.lt_of_le_of_ne ?_ (Ne.symm hne)
    by_contra hle
    exact file_of_lt_lowest (Nat.lt_of_not_le hle) hw
  refine ⟨_, _, _, rfl, ⟨file_lowest t, fun d hd => file_of_lt_lowest hd⟩, ⟨hlt, hw, ?_⟩, ?_⟩
  · intro d hd hdr
    have hopen := file_of_lt_lowest hd
    rwa [file_assign, if_neg hdr] at hopen
  · intro d
    rw [file_assign, file_assign]
    split_ifs with h1 h2
    · exact absurd (h1.symm.trans h2) hne
    · rfl
    · rfl
    · rfl

end Descriptors

end Mimuw.Lib
