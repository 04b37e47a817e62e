import Mathlib.Data.Set.Basic
import Mathlib.Order.Defs.Unbundled

/-!
# Partial orders on a set, edited one pair at a time

A relation that is a partial order on a set of points stays one when a pair of
unrelated points is added together with what transitivity demands, when a
covering pair is dropped, when it is restricted along an injection, and when an
isolated point joins the set.
-/

namespace Mimuw.Lib

variable {α β : Type*}

/-- `r` is reflexive, antisymmetric and transitive on the points of `s`. -/
structure PartialOrderOn (s : Set α) (r : α → α → Prop) : Prop where
  refl : ∀ x ∈ s, r x x
  antisymm : ∀ x ∈ s, ∀ y ∈ s, r x y → r y x → x = y
  trans : ∀ x ∈ s, ∀ y ∈ s, ∀ z ∈ s, r x y → r y z → r x z

/-- The least transitive relation above a preorder `r` that puts `a` below `b`. -/
def extendRel (r : α → α → Prop) (a b x y : α) : Prop :=
  r x y ∨ (r x a ∧ r b y)

/-- The relation without the pair `(a, b)`. -/
def punchRel (r : α → α → Prop) (a b x y : α) : Prop :=
  r x y ∧ ¬(x = a ∧ y = b)

namespace PartialOrderOn

variable {s : Set α} {r r' : α → α → Prop}

theorem congr (h : PartialOrderOn s r)
    (hr : ∀ x ∈ s, ∀ y ∈ s, r' x y ↔ r x y) : PartialOrderOn s r' where
  refl x hx := (hr x hx x hx).2 (h.refl x hx)
  antisymm x hx y hy hxy hyx :=
    h.antisymm x hx y hy ((hr x hx y hy).1 hxy) ((hr y hy x hx).1 hyx)
  trans x hx y hy z hz hxy hyz :=
    (hr x hx z hz).2
      (h.trans x hx y hy z hz ((hr x hx y hy).1 hxy) ((hr y hy z hz).1 hyz))

/-- Adding a pair of points not related the other way round. -/
theorem extend (h : PartialOrderOn s r) {a b : α} (ha : a ∈ s) (hb : b ∈ s)
    (hba : ¬r b a) : PartialOrderOn s (extendRel r a b) where
  refl x hx := .inl (h.refl x hx)
  antisymm x hx y hy hxy hyx := by
    rcases hxy with hxy | ⟨hxa, hby⟩
    · rcases hyx with hyx | ⟨hya, hbx⟩
      · exact h.antisymm x hx y hy hxy hyx
      · exact absurd (h.trans b hb x hx a ha hbx (h.trans x hx y hy a ha hxy hya)) hba
    · rcases hyx with hyx | ⟨hya, hbx⟩
      · exact absurd (h.trans b hb y hy a ha hby (h.trans y hy x hx a ha hyx hxa)) hba
      · exact absurd (h.trans b hb y hy a ha hby hya) hba
  trans x hx y hy z hz hxy hyz := by
    rcases hxy with hxy | ⟨hxa, hby⟩
    · rcases hyz with hyz | ⟨hya, hbz⟩
      · exact .inl (h.trans x hx y hy z hz hxy hyz)
      · exact .inr ⟨h.trans x hx y hy a ha hxy hya, hbz⟩
    · rcases hyz with hyz | ⟨hya, hbz⟩
      · exact .inr ⟨hxa, h.trans b hb y hy z hz hby hyz⟩
      · exact .inr ⟨hxa, hbz⟩

/-- Dropping a pair of distinct points with nothing strictly between them. -/
theorem punch (h : PartialOrderOn s r) {a b : α} (hab : a ≠ b)
    (hcover : ∀ c ∈ s, c ≠ a → c ≠ b → ¬(r a c ∧ r c b)) :
    PartialOrderOn s (punchRel r a b) where
  refl x hx := ⟨h.refl x hx, fun ⟨hxa, hxb⟩ => hab (hxa.symm.trans hxb)⟩
  antisymm x hx y hy hxy hyx := h.antisymm x hx y hy hxy.1 hyx.1
  trans x hx y hy z hz hxy hyz := by
    refine ⟨h.trans x hx y hy z hz hxy.1 hyz.1, ?_⟩
    rintro ⟨rfl, rfl⟩
    refine hcover y hy ?_ ?_ ⟨hxy.1, hyz.1⟩
    · rintro rfl
      exact hyz.2 ⟨rfl, rfl⟩
    · rintro rfl
      exact hxy.2 ⟨rfl, rfl⟩

/-- The relation seen through an injection of another set into `s`. -/
theorem comap (h : PartialOrderOn s r) {t : Set β} {f : β → α}
    (hf : ∀ x ∈ t, f x ∈ s) (hinj : ∀ x ∈ t, ∀ y ∈ t, f x = f y → x = y) :
    PartialOrderOn t fun x y => r (f x) (f y) where
  refl x hx := h.refl _ (hf x hx)
  antisymm x hx y hy hxy hyx :=
    hinj x hx y hy (h.antisymm _ (hf x hx) _ (hf y hy) hxy hyx)
  trans x hx y hy z hz := h.trans _ (hf x hx) _ (hf y hy) _ (hf z hz)

/-- A new point related to itself only. -/
theorem insert_isolated (h : PartialOrderOn s r) {a : α}
    (hself : r' a a) (hleft : ∀ x ∈ s, ¬r' a x) (hright : ∀ x ∈ s, ¬r' x a)
    (hold : ∀ x ∈ s, ∀ y ∈ s, r' x y ↔ r x y) :
    PartialOrderOn (insert a s) r' where
  refl x hx := by
    rcases hx with rfl | hx
    · exact hself
    · exact (hold x hx x hx).2 (h.refl x hx)
  antisymm x hx y hy hxy hyx := by
    rcases hx with rfl | hx <;> rcases hy with rfl | hy
    · rfl
    · exact absurd hxy (hleft y hy)
    · exact absurd hxy (hright x hx)
    · exact h.antisymm x hx y hy ((hold x hx y hy).1 hxy) ((hold y hy x hx).1 hyx)
  trans x hx y hy z hz hxy hyz := by
    rcases hy with rfl | hy
    · rcases hx with rfl | hx
      · exact hyz
      · exact absurd hxy (hright x hx)
    · rcases hx with rfl | hx
      · exact absurd hxy (hleft y hy)
      · rcases hz with rfl | hz
        · exact absurd hyz (hright y hy)
        · exact (hold x hx z hz).2 (h.trans x hx y hy z hz
            ((hold x hx y hy).1 hxy) ((hold y hy z hz).1 hyz))

end PartialOrderOn

end Mimuw.Lib
