import Mimuw.Sequences.Partition

/-!
# Walks along a string

What the three ways to call `seq_walk` find.
-/

namespace Mimuw.Sequences

open Mimuw.Lib

@[simp] theorem digit?_char (d : Digit) : digit? d.char = some d := by
  cases d <;> rfl

private theorem char_of_digit? {c : Char} {d : Digit} (h : digit? c = some d) : c = d.char := by
  simp only [digit?] at h
  split_ifs at h with h₀ h₁ h₂ <;> cases h <;> assumption

private theorem mapM_digit? {s : List Char} {w : Word} :
    s.mapM digit? = some w ↔ s = w.map Digit.char := by
  induction s generalizing w with
  | nil => cases w <;> simp
  | cons c s ih =>
      cases w with
      | nil => cases hc : digit? c <;> cases hs : s.mapM digit? <;> simp [List.mapM_cons, hc, hs]
      | cons d w =>
          simp only [List.mapM_cons, List.map_cons, List.cons.injEq, Option.bind_eq_bind,
            Option.bind_eq_some_iff, Option.pure_def, Option.some.injEq]
          constructor
          · rintro ⟨e, he, v, hv, rfl, rfl⟩
            exact ⟨char_of_digit? he, ih.mp hv⟩
          · rintro ⟨rfl, rfl⟩
            exact ⟨d, digit?_char d, w, ih.mpr rfl, rfl, rfl⟩

private theorem dropWhile_digit? (s : List Char) :
    s.dropWhile (fun c => (digit? c).isSome) = [] ↔ ∃ w : Word, s = w.map Digit.char := by
  induction s with
  | nil => exact ⟨fun _ => ⟨[], rfl⟩, fun _ => rfl⟩
  | cons c s ih =>
      rw [List.dropWhile_cons]
      cases hc : digit? c with
      | none =>
          simp only [Option.isSome_none, Bool.false_eq_true, if_false, reduceCtorEq, false_iff]
          rintro ⟨w, hw⟩
          cases w with
          | nil => cases hw
          | cons d w =>
              obtain ⟨rfl, -⟩ := List.cons.inj hw
              simp at hc
      | some d =>
          simp only [Option.isSome_some, if_true, ih]
          constructor
          · rintro ⟨w, rfl⟩
            exact ⟨d :: w, by rw [char_of_digit? hc, List.map_cons]⟩
          · rintro ⟨w, hw⟩
            cases w with
            | nil => cases hw
            | cons e w => exact ⟨w, (List.cons.inj hw).2⟩

/-- `seq_bad` tells the strings that stand for no sequence. -/
theorem word_cases (s : CString) :
    word? s = none ∧ seqBad s = -1 ∨
      ∃ w, w ≠ [] ∧ word? s = some w ∧ seqBad s = 1 ∧ s = some (w.map Digit.char) := by
  cases s with
  | none => exact .inl ⟨rfl, rfl⟩
  | some s =>
      cases hm : s.mapM digit? with
      | none =>
          refine .inl ⟨by simp [word?, hm], ?_⟩
          have hdrop : s.dropWhile (fun c => (digit? c).isSome) ≠ [] := by
            rw [Ne, dropWhile_digit?]
            rintro ⟨w, hw⟩
            rw [mapM_digit?.mpr hw] at hm
            cases hm
          have hne : s ≠ [] := by
            rintro rfl
            exact hdrop rfl
          rw [seqBad, if_neg hne, if_neg hdrop]
      | some w =>
          obtain rfl := mapM_digit?.mp hm
          by_cases hw : w = []
          · subst hw
            exact .inl ⟨rfl, rfl⟩
          · refine .inr ⟨w, hw, by simp [word?, hm, hw], ?_, rfl⟩
            have hdrop := (dropWhile_digit? (w.map Digit.char)).mpr ⟨w, rfl⟩
            simp [seqBad, hdrop, hw]

section Walk

variable {root : Seq}

private theorem walk_find (w u : Word) (i : Nat) (hu : (root.label u).isSome) :
    (root.label (u ++ w)).isSome ∧
        walk root 0 (w.map Digit.char) u i = (u ++ w, i + w.length, false) ∨
      ∃ v d v', w = v ++ d :: v' ∧ (root.label (u ++ v)).isSome ∧
        root.label (u ++ v ++ [d]) = none ∧
          walk root 0 (w.map Digit.char) u i = (u ++ v, i + v.length + 1, true) := by
  induction w generalizing u i with
  | nil => exact .inl ⟨by simpa using hu, by simp [walk]⟩
  | cons d w ih =>
      cases hd : (root.label (u ++ [d])).isSome with
      | false =>
          refine .inr ⟨[], d, w, rfl, by simpa using hu, by simpa using hd, ?_⟩
          simp [walk, hd]
      | true =>
          have hwalk : walk root 0 ((d :: w).map Digit.char) u i =
              walk root 0 (w.map Digit.char) (u ++ [d]) (i + 1) := by
            simp [walk, hd]
          rcases ih (u ++ [d]) (i + 1) hd with ⟨hw, heq⟩ | ⟨v, e, v', rfl, hv, hnone, heq⟩
          · refine .inl ⟨by simpa using hw, ?_⟩
            rw [hwalk, heq]
            simp [Nat.add_comm, Nat.add_left_comm]
          · refine .inr ⟨d :: v, e, v', rfl, by simpa using hv, by simpa using hnone, ?_⟩
            rw [hwalk, heq]
            simp [Nat.add_comm, Nat.add_left_comm]

/-- With `step` 1 the last character is not walked. -/
private theorem walk_step (s : List Char) (c : Char) (u : Word) (i : Nat) :
    walk root 1 (s ++ [c]) u i = walk root 0 s u i := by
  induction s generalizing u i with
  | nil => simp [walk]
  | cons e s ih => simp [walk, ih]

variable (hroot : (root.label []).isSome)

include hroot

theorem seqWalk_find (w : Word) :
    seqWalk root (w.map Digit.char) 0 none =
      (if (root.label w).isSome then some w else none, none) := by
  rcases walk_find w [] 0 hroot with ⟨hw, heq⟩ | ⟨v, d, v', rfl, hv, hnone, heq⟩
  · rw [List.nil_append] at hw
    simp [seqWalk, heq, hw]
  · have hw : root.label (v ++ d :: v') = none := by
      simpa using Trie.label_append_none hnone v'
    rw [seqWalk, heq, hw]
    simp

theorem seqWalk_add {w : Word} (hw : (root.label w).isSome) :
    ∃ l, seqWalk root (w.map Digit.char) 0 (some 0) = (none, l) := by
  rcases walk_find w [] 0 hroot with ⟨-, heq⟩ | ⟨v, d, v', rfl, hv, hnone, -⟩
  · exact ⟨some w.length, by simp [seqWalk, heq]⟩
  · have hnone' := Trie.label_append_none hnone v'
    simp [show root.label (v ++ d :: v') = none by simpa using hnone'] at hw

theorem seqWalk_add_new {w : Word} (hw : root.label w = none) :
    ∃ u d v, w = u ++ d :: v ∧ (root.label u).isSome ∧ root.label (u ++ [d]) = none ∧
      seqWalk root (w.map Digit.char) 0 (some 0) = (some u, some (u.length + 1)) := by
  rcases walk_find w [] 0 hroot with ⟨hw', -⟩ | ⟨u, d, v, rfl, hu, hnone, heq⟩
  · simp [hw] at hw'
  · refine ⟨u, d, v, rfl, by simpa using hu, by simpa using hnone, ?_⟩
    rw [seqWalk, heq]
    simp

theorem seqWalk_remove (u : Word) (d : Digit) :
    (root.label u).isSome ∧
        seqWalk root ((u ++ [d]).map Digit.char) 1 (some 0) = (some u, some u.length) ∨
      root.label u = none ∧
        ∃ l, seqWalk root ((u ++ [d]).map Digit.char) 1 (some 0) = (none, l) := by
  rw [List.map_append, List.map_singleton, seqWalk, walk_step]
  rcases walk_find u [] 0 hroot with ⟨hu, heq⟩ | ⟨v, e, v', rfl, hv, hnone, heq⟩
  · exact .inl ⟨by simpa using hu, by simp [heq]⟩
  · refine .inr ⟨by simpa using Trie.label_append_none hnone v', some (v.length + 1), ?_⟩
    rw [heq]
    simp

end Walk

end Mimuw.Sequences
