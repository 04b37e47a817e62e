import Mathlib.Computability.Language
import Mimuw.Regexp.Model

/-!
# The matcher decides the language

Each step of the matcher takes the derivative of the language and then an
expression of the same language.  An expression is `empty` when its language is.
-/

namespace Mimuw.Regexp

open Computability

variable {α : Type*}

def language : Reg α → Language α
  | .lit c => {[c]}
  | .concat r₁ r₂ => language r₁ * language r₂
  | .or r₁ r₂ => language r₁ + language r₂
  | .star r => (language r)∗
  | .eps => 1
  | .empty => 0

@[simp] theorem mem_lit (c : α) (w : List α) : w ∈ language (.lit c) ↔ w = [c] := Iff.rfl

@[simp] theorem mem_or (r₁ r₂ : Reg α) (w : List α) :
    w ∈ language (.or r₁ r₂) ↔ w ∈ language r₁ ∨ w ∈ language r₂ := Iff.rfl

@[simp] theorem mem_eps (w : List α) : w ∈ language .eps ↔ w = [] := Iff.rfl

@[simp] theorem notMem_empty (w : List α) : w ∉ language .empty := Language.notMem_zero w

theorem language_simpl (r : Reg α) : language (simpl r) = language r := by
  induction r using simpl.induct with
  | case1 r₁ ih => simp [simpl, language, ih]
  | case2 r₂ hne ih => simp [simpl, language, ih]
  | case3 r₁ => simp [simpl, language]
  | case4 r₂ hne => simp [simpl, language]
  | case5 r₁ hne ih => simp [simpl, language, ih]
  | case6 r₂ h₁ h₂ ih => simp [simpl, language, ih]
  | case7 a => rfl
  | case8 r₁ r₂ h₁ h₂ h₃ h₄ ih₁ ih₂ => simp [simpl, language, ih₁, ih₂]
  | case9 r₁ r₂ h₁ h₂ ih₁ ih₂ => simp [simpl, language, ih₁, ih₂]
  | case10 r ih => simp [simpl, language, ih]
  | case11 => rfl
  | case12 => rfl

private theorem nullable_iff (r : Reg α) : nullable r ↔ [] ∈ language r := by
  induction r with
  | lit c => simp [nullable]
  | concat r₁ r₂ ih₁ ih₂ => simp [nullable, language, Language.mem_mul, ih₁, ih₂]
  | or r₁ r₂ ih₁ ih₂ => simp [nullable, ih₁, ih₂]
  | star r ih => simp [nullable, language, Language.nil_mem_kstar]
  | eps => simp [nullable]
  | empty => simp [nullable]

private theorem forall_notMem_mul (l m : Language α) :
    (∀ w, w ∉ l * m) ↔ (∀ w, w ∉ l) ∨ ∀ w, w ∉ m := by
  constructor
  · intro h
    by_contra hne
    push Not at hne
    obtain ⟨⟨u, hu⟩, v, hv⟩ := hne
    exact h (u ++ v) (Language.append_mem_mul hu hv)
  · intro h w hw
    obtain ⟨u, hu, v, hv, -⟩ := Language.mem_mul.mp hw
    exact h.elim (fun hl => hl u hu) fun hm => hm v hv

private theorem empty_iff_language (r : Reg α) : empty r ↔ ∀ w, w ∉ language r := by
  have hword {l : Language α} (w : List α) (hw : w ∈ l) : false = true ↔ ∀ w, w ∉ l :=
    iff_of_false Bool.false_ne_true fun h => h w hw
  induction r with
  | lit c => exact hword [c] rfl
  | concat r₁ r₂ ih₁ ih₂ =>
      simp only [empty, Bool.or_eq_true, ih₁, ih₂, language, forall_notMem_mul]
  | or r₁ r₂ ih₁ ih₂ =>
      simp only [empty, Bool.and_eq_true, ih₁, ih₂, mem_or, not_or, forall_and]
  | star r _ => exact hword [] (Language.nil_mem_kstar (language r))
  | eps => exact hword [] rfl
  | empty => simp [empty]

/-- A word of the iteration that starts with `a` has a first word of the
language that does. -/
private theorem cons_mem_kstar (l : Language α) (a : α) (w : List α) :
    a :: w ∈ l∗ ↔ ∃ u v, u ++ v = w ∧ a :: u ∈ l ∧ v ∈ l∗ := by
  constructor
  · intro h
    obtain ⟨words, hw, hwords⟩ := Language.mem_kstar_iff_exists_nonempty.mp h
    cases words with
    | nil => cases hw
    | cons first words =>
        obtain ⟨hfirst, hne⟩ := hwords first List.mem_cons_self
        cases first with
        | nil => exact absurd rfl hne
        | cons b u =>
            rw [List.flatten_cons, List.cons_append] at hw
            obtain ⟨rfl, rfl⟩ := List.cons.inj hw
            refine ⟨u, words.flatten, rfl, hfirst, Language.join_mem_kstar ?_⟩
            exact fun word hword => (hwords word (List.mem_cons_of_mem _ hword)).1
  · rintro ⟨u, v, rfl, hu, hv⟩
    obtain ⟨words, rfl, hwords⟩ := Language.mem_kstar.mp hv
    refine Language.mem_kstar.mpr ⟨(a :: u) :: words, rfl, fun word hword => ?_⟩
    rcases List.mem_cons.mp hword with rfl | hword
    · exact hu
    · exact hwords word hword

/-- A word of the product starts in the first factor, or in the second when the
first has the empty word. -/
private theorem cons_mem_mul (l m : Language α) (a : α) (w : List α) :
    a :: w ∈ l * m ↔
      (∃ u v, u ++ v = w ∧ a :: u ∈ l ∧ v ∈ m) ∨ [] ∈ l ∧ a :: w ∈ m := by
  rw [Language.mem_mul]
  constructor
  · rintro ⟨u, hu, v, hv, huv⟩
    cases u with
    | nil => exact .inr ⟨hu, huv ▸ hv⟩
    | cons b u =>
        rw [List.cons_append] at huv
        obtain ⟨rfl, rfl⟩ := List.cons.inj huv
        exact .inl ⟨u, v, rfl, hu, hv⟩
  · rintro (⟨u, v, rfl, hu, hv⟩ | ⟨hnil, hw⟩)
    · exact ⟨a :: u, hu, v, hv, rfl⟩
    · exact ⟨[], hnil, a :: w, hw, rfl⟩

variable [DecidableEq α]

private theorem mem_der (a : α) (r : Reg α) (w : List α) :
    w ∈ language (der a r) ↔ a :: w ∈ language r := by
  induction r generalizing w with
  | lit c =>
      by_cases h : c = a
      · simp [der, h]
      · simp [der, h, Ne.symm h]
  | concat r₁ r₂ ih₁ ih₂ =>
      have hleft : w ∈ language (der a r₁) * language r₂ ↔
          ∃ u v, u ++ v = w ∧ a :: u ∈ language r₁ ∧ v ∈ language r₂ := by
        rw [Language.mem_mul]
        constructor
        · rintro ⟨u, hu, v, hv, rfl⟩
          exact ⟨u, v, rfl, (ih₁ u).mp hu, hv⟩
        · rintro ⟨u, v, rfl, hu, hv⟩
          exact ⟨u, (ih₁ u).mpr hu, v, hv, rfl⟩
      rw [language, cons_mem_mul, ← nullable_iff, ← hleft, ← ih₂]
      by_cases h : nullable r₁
      · simp only [der, h, if_true, mem_or, true_and]
        rfl
      · simp only [der, h, Bool.false_eq_true, if_false, false_and, or_false]
        rfl
  | or r₁ r₂ ih₁ ih₂ => simp [der, ih₁, ih₂]
  | star r ih =>
      rw [der, language, language, cons_mem_kstar, Language.mem_mul]
      constructor
      · rintro ⟨u, hu, v, hv, rfl⟩
        exact ⟨u, v, rfl, (ih u).mp hu, hv⟩
      · rintro ⟨u, v, rfl, hu, hv⟩
        exact ⟨u, (ih u).mpr hu, v, hv, rfl⟩
  | eps => simp [der]
  | empty => simp [der]

private theorem mem_ders (w v : List α) (r : Reg α) :
    v ∈ language (ders w r) ↔ w ++ v ∈ language r := by
  induction w generalizing r with
  | nil => rfl
  | cons a w ih => rw [ders, ih, language_simpl, mem_der, List.cons_append]

theorem nullable_ders (w : List α) (r : Reg α) : nullable (ders w r) ↔ w ∈ language r := by
  rw [nullable_iff, mem_ders, List.append_nil]

/-- The matcher accepts exactly the words of the language. -/
theorem accept_iff (r : Reg α) (w : List α) : accept r w ↔ w ∈ language r := nullable_ders w r

/-- An expression is empty when the matcher accepts no word. -/
theorem empty_iff (r : Reg α) : empty r ↔ ∀ w, accept r w = false := by
  simp only [empty_iff_language, accept, ← nullable_ders, Bool.not_eq_true]

end Mimuw.Regexp
