import Mathlib.Computability.RegularExpressions

/-!
# Patterns over an alphabet

The regular expressions that stand for a class of letters, an optional part and a
part that is repeated, and what letters a word that matches is made of.
-/

namespace Mimuw.Lib.Pattern

open RegularExpression

variable {α : Type*} {letters word : List α} {P Q : RegularExpression α}

/-- `[abc]` -/
def oneOf : List α → RegularExpression α
  | [] => 0
  | a :: letters => char a + oneOf letters

/-- `P?` -/
def opt (P : RegularExpression α) : RegularExpression α := 1 + P

/-- `P{m,n}` -/
def repeated (P : RegularExpression α) (m n : Nat) : RegularExpression α := P ^ m * opt P ^ (n - m)

theorem mem_oneOf : word ∈ (oneOf letters).matches' ↔ ∃ a ∈ letters, word = [a] := by
  induction letters with
  | nil => simp [oneOf, Language.notMem_zero]
  | cons a letters ih =>
      rw [oneOf, matches'_add, Language.mem_add, ih, matches'_char, List.exists_mem_cons_iff]
      exact Iff.rfl

theorem mem_opt : word ∈ (opt P).matches' ↔ word = [] ∨ word ∈ P.matches' := by
  rw [opt, matches'_add, Language.mem_add, matches'_epsilon, Language.mem_one]

/-! ## The letters of a word that matches -/

theorem subset_of_oneOf (h : word ∈ (oneOf letters).matches') : word ⊆ letters := by
  obtain ⟨a, ha, rfl⟩ := mem_oneOf.mp h
  exact List.cons_subset.mpr ⟨ha, List.nil_subset _⟩

private theorem flatten_subset {words : List (List α)} (h : ∀ u ∈ words, u ⊆ letters) :
    words.flatten ⊆ letters := by
  intro a ha
  obtain ⟨u, hu, ha⟩ := List.mem_flatten.mp ha
  exact h u hu ha

theorem subset_of_star (hP : ∀ u ∈ P.matches', u ⊆ letters) (h : word ∈ P.star.matches') :
    word ⊆ letters := by
  rw [matches'_star, Language.mem_kstar] at h
  obtain ⟨words, rfl, hwords⟩ := h
  exact flatten_subset fun u hu => hP u (hwords u hu)

private theorem subset_of_opt (hP : ∀ u ∈ P.matches', u ⊆ letters) (h : word ∈ (opt P).matches') :
    word ⊆ letters := by
  rcases mem_opt.mp h with rfl | h
  · exact List.nil_subset _
  · exact hP word h

theorem subset_of_mul (hP : ∀ u ∈ P.matches', u ⊆ letters) (hQ : ∀ u ∈ Q.matches', u ⊆ letters)
    (h : word ∈ (P * Q).matches') : word ⊆ letters := by
  rw [matches'_mul] at h
  obtain ⟨u, hu, v, hv, rfl⟩ := Language.mem_mul.mp h
  exact List.append_subset.mpr ⟨hP u hu, hQ v hv⟩

private theorem subset_of_pow (hP : ∀ u ∈ P.matches', u ⊆ letters) {n : Nat}
    (h : word ∈ (P ^ n).matches') : word ⊆ letters := by
  rw [matches'_pow] at h
  obtain ⟨words, rfl, -, hwords⟩ := Language.mem_pow.mp h
  exact flatten_subset fun u hu => hP u (hwords u hu)

theorem subset_of_repeated (hP : ∀ u ∈ P.matches', u ⊆ letters) {m n : Nat}
    (h : word ∈ (repeated P m n).matches') : word ⊆ letters :=
  subset_of_mul (fun _ => subset_of_pow hP) (fun _ => subset_of_pow fun _ => subset_of_opt hP) h

end Mimuw.Lib.Pattern
