import Mathlib.Data.List.Basic
import Mathlib.Logic.Function.Basic

/-!
# Threads and locks

Threads are updated one at a time.  A lock has the thread that is inside the
section it protects, and what a thread owns no other thread does.
-/

namespace Mimuw.Lib

variable {ι π α : Type*} {inside : π → Prop} {pc : ι → π} {mtx : Option ι} {t u : ι} {x : π}

/-- The thread inside, and no other, has the lock. -/
def Owns (inside : π → Prop) (pc : ι → π) (mtx : Option ι) : Prop :=
  ∀ t, inside (pc t) ↔ mtx = some t

namespace Owns

theorem unique (h : Owns inside pc mtx) (ht : inside (pc t)) (hu : inside (pc u)) : t = u := by
  have hmtx := (h t).mp ht
  rw [(h u).mp hu] at hmtx
  exact (Option.some.inj hmtx).symm

variable [DecidableEq ι]

theorem keep (h : Owns inside pc mtx) (hx : inside x ↔ inside (pc t)) :
    Owns inside (Function.update pc t x) mtx := by
  intro u
  rcases eq_or_ne u t with rfl | hne
  · rw [Function.update_self, hx]
    exact h u
  · rw [Function.update_of_ne hne]
    exact h u

theorem lock (h : Owns inside pc none) (hx : inside x) :
    Owns inside (Function.update pc t x) (some t) := by
  intro u
  rcases eq_or_ne u t with rfl | hne
  · simp [hx]
  · have hout : ¬ inside (pc u) := fun hin => nomatch (h u).mp hin
    simp [hne, hne.symm, hout]

theorem unlock (h : Owns inside pc mtx) (ht : inside (pc t)) (hx : ¬ inside x) :
    Owns inside (Function.update pc t x) none := by
  intro u
  rcases eq_or_ne u t with rfl | hne
  · simp [hx]
  · have hout : ¬ inside (pc u) := fun hin => hne (h.unique hin ht)
    simp [hne, hout]

end Owns

/-- What the owner of a lock has in its hands. -/
def inHand (share : π → List α) (pc : ι → π) : Option ι → List α
  | some t => share (pc t)
  | none => []

section InHand

variable {share : π → List α}

theorem Owns.inHand_eq (h : Owns inside pc mtx) (ht : inside (pc t)) :
    inHand share pc mtx = share (pc t) := by
  rw [(h t).mp ht, inHand]

variable [DecidableEq ι]

theorem inHand_update (h : share x = share (pc t)) :
    inHand share (Function.update pc t x) mtx = inHand share pc mtx := by
  cases mtx with
  | none => rfl
  | some u =>
      rcases eq_or_ne u t with rfl | hne
      · rw [inHand, inHand, Function.update_self, h]
      · rw [inHand, inHand, Function.update_of_ne hne]

omit [DecidableEq ι] in
private theorem Owns.inHand_of_only (h : Owns inside pc mtx) (hout : ∀ y, ¬ inside y → share y = [])
    (honly : ∀ u, inside (pc u) → u = t) : inHand share pc mtx = share (pc t) := by
  cases hmtx : mtx with
  | none =>
      have hin : ¬ inside (pc t) := fun hin => nomatch hmtx.symm.trans ((h t).mp hin)
      rw [hout _ hin, inHand]
  | some u => rw [honly u ((h u).mpr hmtx), inHand]

/-- A step of a thread that is inside, or gets there, or leaves, and one of a thread that
is outside before and after. -/
theorem Owns.inHand_step {mtx' : Option ι} (h : Owns inside pc mtx)
    (h' : Owns inside (Function.update pc t x) mtx') (hout : ∀ y, ¬ inside y → share y = []) :
    inHand share pc mtx = share (pc t) ∧
        inHand share (Function.update pc t x) mtx' = share x ∨
      ¬ inside (pc t) ∧ ¬ inside x ∧
        inHand share (Function.update pc t x) mtx' = inHand share pc mtx := by
  by_cases hmoves : inside (pc t) ∨ inside x
  · have honly : ∀ u, inside (pc u) → u = t := by
      intro u hu
      by_contra hne
      rcases hmoves with ht | hx
      · exact hne (h.unique hu ht)
      · exact hne (h'.unique (by rwa [Function.update_of_ne hne]) (by rwa [Function.update_self]))
    have honly' : ∀ u, inside (Function.update pc t x u) → u = t := by
      intro u hu
      by_contra hne
      rw [Function.update_of_ne hne] at hu
      exact hne (honly u hu)
    refine .inl ⟨h.inHand_of_only hout honly, ?_⟩
    rw [h'.inHand_of_only hout honly', Function.update_self]
  · obtain ⟨ht, hx⟩ := not_or.mp hmoves
    refine .inr ⟨ht, hx, ?_⟩
    have hsame : mtx' = mtx := by
      refine Option.ext fun u => ?_
      rw [← h u, ← h' u]
      rcases eq_or_ne u t with rfl | hne
      · rw [Function.update_self]
        exact iff_of_false hx ht
      · rw [Function.update_of_ne hne]
    rw [hsame]
    exact inHand_update ((hout x hx).trans (hout _ ht).symm)

end InHand

section Absent

variable [DecidableEq ι] {make : α → π}

/-- Where the thread that moves was not, no thread was. -/
theorem ne_of_update (hfrom : ∀ a, pc t ≠ make a)
    (hno : ∀ u a, Function.update pc t x u ≠ make a) (u : ι) (a : α) : pc u ≠ make a := by
  rcases eq_or_ne u t with rfl | hne
  · exact hfrom a
  · rw [← Function.update_of_ne hne x pc]
    exact hno u a

omit [DecidableEq ι] in
/-- Where a thread inside is not, no thread is. -/
theorem Owns.ne_of_inside (h : Owns inside pc mtx) (hmake : ∀ a, inside (make a))
    (ht : inside (pc t)) (hfrom : ∀ a, pc t ≠ make a) (u : ι) (a : α) : pc u ≠ make a := by
  intro hu
  obtain rfl := h.unique ht (show inside (pc u) from hu ▸ hmake a)
  exact hfrom a hu

end Absent

/-- What a thread owns, it owns alone. -/
def Sole (owns : π → Option α) (pc : ι → π) : Prop :=
  ∀ t u a, owns (pc t) = some a → owns (pc u) = some a → t = u

namespace Sole

variable [DecidableEq ι] {owns : π → Option α}

theorem update (h : Sole owns pc) (hx : ∀ a, owns x = some a → ∀ u, u ≠ t → owns (pc u) ≠ some a) :
    Sole owns (Function.update pc t x) := by
  intro u v a hu hv
  rcases eq_or_ne u t with rfl | hut
  · rw [Function.update_self] at hu
    rcases eq_or_ne v u with rfl | hvu
    · rfl
    · rw [Function.update_of_ne hvu] at hv
      exact absurd hv (hx a hu v hvu)
  · rw [Function.update_of_ne hut] at hu
    rcases eq_or_ne v t with rfl | hvt
    · rw [Function.update_self] at hv
      exact absurd hu (hx a hv u hut)
    · rw [Function.update_of_ne hvt] at hv
      exact h u v a hu hv

theorem keep (h : Sole owns pc) (hx : ∀ a, owns x = some a → owns (pc t) = some a) :
    Sole owns (Function.update pc t x) :=
  h.update fun a ha u hu hown => hu (h u t a hown (hx a ha))

end Sole

theorem disjoint_update [DecidableEq ι] {lists : ι → List α} {l : List α}
    (h : ∀ u v, u ≠ v → List.Disjoint (lists u) (lists v))
    (hl : ∀ u, u ≠ t → List.Disjoint l (lists u)) (u v : ι) (huv : u ≠ v) :
    List.Disjoint (Function.update lists t l u) (Function.update lists t l v) := by
  rcases eq_or_ne u t with rfl | hu
  · rw [Function.update_self, Function.update_of_ne huv.symm]
    exact hl v huv.symm
  · rw [Function.update_of_ne hu]
    rcases eq_or_ne v t with rfl | hv
    · rw [Function.update_self]
      exact fun r hr hl' => hl u hu hl' hr
    · rw [Function.update_of_ne hv]
      exact h u v huv

end Mimuw.Lib
