import Mathlib.Data.Set.Insert
import Mathlib.Logic.Relation

/-!
# Exploring by removal

A depth-first search that removes the vertices it visits: from a vertex of a set it
goes on to each neighbour that is still there.  What an exploration leaves is a
smaller set, and no vertex that it removed has a neighbour left.
-/

namespace Mimuw.Lib

variable {V : Type*} {next : V → V → Prop} {v u x : V} {S R T : Set V}

/-- Paths of which all vertices after the first are in the set. -/
def Reaches (next : V → V → Prop) (S : Set V) : V → V → Prop :=
  Relation.ReflTransGen fun x y => next x y ∧ y ∈ S

theorem Reaches.mono (h : Reaches next R v x) (hRS : R ⊆ S) : Reaches next S v x :=
  Relation.ReflTransGen.mono (fun _ _ hstep => And.imp_right (fun hy => hRS hy) hstep) _ _ h

/-- An exploration of `S` from `v` that leaves `R`, with neighbours of `v` still to be visited. -/
structure Exploring (next : V → V → Prop) (v : V) (S R : Set V) : Prop where
  subset : R ⊆ S
  start : v ∉ R
  reached : ∀ x ∈ S, x ∉ R → Reaches next S v x
  closed : ∀ x ∈ S, x ∉ R → x ≠ v → ∀ y, next x y → y ∉ R

/-- No neighbour of `v` is left either. -/
structure Explored (next : V → V → Prop) (v : V) (S R : Set V) : Prop
    extends Exploring next v S R where
  done : ∀ y, next v y → y ∉ R

namespace Exploring

theorem remove : Exploring next v S (S \ {v}) where
  subset _ h := h.1
  start h := h.2 rfl
  reached x hx hnot := by
    have hxv : x = v := by
      by_contra hne
      exact hnot ⟨hx, hne⟩
    rw [hxv]
    exact .refl
  closed _ hx hnot hne := absurd ⟨hx, hne⟩ hnot

/-- A neighbour that is still there is explored in what is left. -/
theorem visit (h : Exploring next v S R) (hu : u ∈ R) (hnext : next v u)
    (hvisit : Explored next u R T) : Exploring next v S T where
  subset := hvisit.subset.trans h.subset
  start hv := h.start (hvisit.subset hv)
  reached x hx hnot := by
    by_cases hR : x ∈ R
    · have hpath : Reaches next S u x := (hvisit.reached x hR hnot).mono h.subset
      exact .head ⟨hnext, h.subset hu⟩ hpath
    · exact h.reached x hx hR
  closed x hx hnot hne y hxy := by
    by_cases hR : x ∈ R
    · by_cases hxu : x = u
      · subst hxu
        exact hvisit.done y hxy
      · exact hvisit.closed x hR hnot hxu y hxy
    · intro hy
      exact h.closed x hx hR hne y hxy (hvisit.subset hy)

end Exploring

namespace Explored

/-- From a vertex that is gone, no step of a path leads to one that is left. -/
theorem gone (h : Explored next v S R) (hpath : Reaches next S v x) : x ∉ R := by
  induction hpath with
  | refl => exact h.start
  | @tail y z hpath hstep ih =>
      by_cases hyv : y = v
      · subst hyv
        exact h.done z hstep.1
      · have hy : y ∈ S := by
          cases hpath with
          | refl => exact absurd rfl hyv
          | tail _ hlast => exact hlast.2
        exact h.closed y hy ih hyv z hstep.1

/-- What can be reached is removed, and nothing else. -/
theorem mem_iff (h : Explored next v S R) : x ∈ R ↔ x ∈ S ∧ ¬ Reaches next S v x := by
  constructor
  · intro hx
    exact ⟨h.subset hx, fun hpath => h.gone hpath hx⟩
  · rintro ⟨hx, hpath⟩
    by_contra hnot
    exact hpath (h.reached x hx hnot)

end Explored

end Mimuw.Lib
