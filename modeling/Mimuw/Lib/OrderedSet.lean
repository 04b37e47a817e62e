import Mathlib

/-!
# Ordered sets as sorted lists

`std::set` keeps its elements in the order of a comparator and treats two
elements that the comparator does not separate as equal: an insertion next to
an equivalent element does nothing, and an erasure removes whatever element is
equivalent to its argument.
-/

namespace Mimuw.Lib

variable {α : Type*}

def setInsert (lt : α → α → Bool) (x : α) : List α → List α
  | [] => [x]
  | y :: ys =>
      if lt y x then y :: setInsert lt x ys
      else if lt x y then x :: y :: ys
      else y :: ys

def setErase (lt : α → α → Bool) (x : α) : List α → List α
  | [] => []
  | y :: ys =>
      if lt y x then y :: setErase lt x ys
      else if lt x y then y :: ys
      else ys

def setFind? (lt : α → α → Bool) (x : α) (s : List α) : Option α :=
  s.find? fun y => !lt x y && !lt y x

def setContains (lt : α → α → Bool) (x : α) (s : List α) : Bool :=
  (setFind? lt x s).isSome

variable {lt : α → α → Bool} {x : α}

theorem setInsert_of_forall_lt {s : List α}
    (hfirst : ∀ y ∈ s, lt x y = true) (hasymm : ∀ y ∈ s, lt y x = false) :
    setInsert lt x s = x :: s := by
  cases s with
  | nil => rfl
  | cons y ys => simp [setInsert, hfirst y, hasymm y]

theorem head?_setInsert_of_not_lt {y : α} {ys : List α} (h : lt x y = false) :
    (setInsert lt x (y :: ys)).head? = some y := by
  unfold setInsert
  split
  · rfl
  · simp [h]

private theorem setErase_head {s : List α} (hirrefl : lt x x = false) :
    setErase lt x (x :: s) = s := by
  simp [setErase, hirrefl]

theorem setErase_sublist (s : List α) : (setErase lt x s).Sublist s := by
  induction s with
  | nil => exact .slnil
  | cons y ys ih =>
      unfold setErase
      split
      · exact ih.cons_cons y
      · split
        · exact .refl _
        · exact List.sublist_cons_self y ys

/-- In a sorted list, erasing the first element with a property removes it and
nothing else. -/
theorem setErase_of_find? {p : α → Bool} {s : List α} (hirrefl : ∀ y, lt y y = false)
    (hsorted : s.Pairwise fun y z => lt y z = true) (h : s.find? p = some x) :
    setErase lt x s = s.eraseP p := by
  induction s with
  | nil => simp at h
  | cons y ys ih =>
      rw [List.pairwise_cons] at hsorted
      rw [List.find?_cons] at h
      cases hp : p y with
      | true =>
          simp only [hp, Option.some.injEq] at h
          subst h
          rw [setErase_head (hirrefl _), List.eraseP_cons_of_pos hp]
      | false =>
          simp only [hp] at h
          have hyx : lt y x = true := hsorted.1 x (List.mem_of_find?_eq_some h)
          rw [List.eraseP_cons_of_neg (by simp [hp]), ← ih hsorted.2 h]
          simp [setErase, hyx]

/-! ## Comparators that compare a key -/

section Keyed

variable {κ : Type*} [LinearOrder κ] {key : α → κ} {s : List α} {y : α}

def keyLt (key : α → κ) (x y : α) : Bool := key x < key y

def SortedBy (key : α → κ) (s : List α) : Prop := s.Pairwise fun x y => key x < key y

/-- In a sorted list the key tells the element. -/
theorem SortedBy.eq_of_key_eq (h : SortedBy key s) (hx : x ∈ s) (hy : y ∈ s)
    (hkey : key x = key y) : x = y := by
  induction s with
  | nil => cases hx
  | cons z s ih =>
      obtain ⟨hz, hs⟩ := List.pairwise_cons.mp h
      rcases List.mem_cons.mp hx with rfl | hx'
      · rcases List.mem_cons.mp hy with rfl | hy'
        · rfl
        · exact absurd hkey (hz y hy').ne
      · rcases List.mem_cons.mp hy with rfl | hy'
        · exact absurd hkey (hz x hx').ne'
        · exact ih hs hx' hy'

/-- The first element of a sorted list that a key does not follow is the only one it can
be equal to. -/
private theorem SortedBy.key_ne_of_lt {k : κ} (h : SortedBy key (y :: s)) (hk : k < key y) :
    ∀ z ∈ y :: s, key z ≠ k := by
  intro z hz
  rcases List.mem_cons.mp hz with rfl | hz
  · exact hk.ne'
  · exact (hk.trans ((List.pairwise_cons.mp h).1 z hz)).ne'

theorem mem_setInsert (h : SortedBy key s) :
    y ∈ setInsert (keyLt key) x s ↔ y ∈ s ∨ y = x ∧ ∀ z ∈ s, key z ≠ key x := by
  induction s with
  | nil => simp [setInsert]
  | cons z s ih =>
      have ih := ih (List.pairwise_cons.mp h).2
      simp only [setInsert, keyLt, decide_eq_true_eq]
      split
      next hzx =>
        have hne : key z ≠ key x := hzx.ne
        simp only [List.mem_cons, ih, forall_eq_or_imp, hne, ne_eq, not_false_eq_true, true_and,
          or_assoc]
      next hzx =>
        split
        next hxz =>
          have hne := h.key_ne_of_lt hxz
          rw [List.mem_cons, or_comm]
          exact or_congr_right (iff_self_and.mpr fun _ => hne)
        next hxz =>
          have heq : key z = key x := le_antisymm (not_lt.mp hxz) (not_lt.mp hzx)
          exact (or_iff_left fun hy => hy.2 z (List.mem_cons_self ..) heq).symm

theorem SortedBy.setInsert (h : SortedBy key s) : SortedBy key (setInsert (keyLt key) x s) := by
  induction s with
  | nil => exact List.pairwise_singleton _ _
  | cons z s ih =>
      obtain ⟨hz, hs⟩ := List.pairwise_cons.mp h
      simp only [Lib.setInsert, keyLt, decide_eq_true_eq]
      split
      next hzx =>
        refine List.pairwise_cons.mpr ⟨fun w hw => ?_, ih hs⟩
        rcases (mem_setInsert hs).mp hw with hw | ⟨rfl, -⟩
        · exact hz w hw
        · exact hzx
      next hzx =>
        split
        next hxz =>
          refine List.pairwise_cons.mpr ⟨fun w hw => ?_, h⟩
          rcases List.mem_cons.mp hw with rfl | hw
          · exact hxz
          · exact hxz.trans (hz w hw)
        · exact h

theorem setFind?_eq_some (h : SortedBy key s) :
    setFind? (keyLt key) x s = some y ↔ y ∈ s ∧ key y = key x := by
  have hiff : ∀ z, (!keyLt key x z && !keyLt key z x) = true ↔ key z = key x := by
    intro z
    simp only [keyLt, Bool.and_eq_true, Bool.not_eq_true', decide_eq_false_iff_not, not_lt]
    exact antisymm_iff
  constructor
  · intro hfind
    have hmatch := List.find?_some hfind
    exact ⟨List.mem_of_find?_eq_some hfind, (hiff y).mp hmatch⟩
  · rintro ⟨hy, hkey⟩
    cases hfind : setFind? (keyLt key) x s with
    | none => exact absurd ((hiff y).mpr hkey) (List.find?_eq_none.mp hfind y hy)
    | some z =>
        have hmatch := List.find?_some hfind
        have hz : key z = key x := (hiff z).mp hmatch
        rw [h.eq_of_key_eq (List.mem_of_find?_eq_some hfind) hy (hz.trans hkey.symm)]

end Keyed

end Mimuw.Lib
