import Mimuw.Crosswords.Letters

/-!
# Words of one orientation

The check refuses a cell that a word of the same orientation wrote.  At a crossing the tag
is that of the later word, so that a third word can go through it along the earlier one.
-/

namespace Mimuw.Crosswords

open Mimuw.Lib

/-- The words have one orientation and a common cell. -/
def Overlap (u w : Word) : Prop :=
  u.orientation = w.orientation ∧ ∃ p, u.Covers p ∧ w.Covers p

/-- Of all accepted words no two overlap. -/
def Crossword.Apart (c : Crossword) : Prop := c.words.Pairwise fun u w => ¬ Overlap u w

/-- Words of both orientations occupy the cell. -/
def Crossword.Crossing (c : Crossword) (p : Pos) : Prop :=
  (∃ u ∈ c.words, u.orientation = .H ∧ u.Covers p) ∧
    ∃ v ∈ c.words, v.orientation = .V ∧ v.Covers p

/-- A word that passes the check goes through no crossing. -/
def AvoidsCrossings (c : Crossword) (w : Word) : Prop :=
  checkWord c.letters w = true → ∀ p, w.Covers p → ¬ c.Crossing p

/-- Every word that the call inserts avoids the crossings there are by then. -/
def CallAvoidsCrossings (crosswords : List Crossword) : Call → Prop
  | .construct firstWord otherWords =>
      CallsMeet Crossword.insertWord AvoidsCrossings .empty (firstWord :: otherWords)
  | .insertWord i word => ∀ c, crosswords[i]? = some c → AvoidsCrossings c word
  | .add i j | .addAssign i j => ∀ c other, crosswords[i]? = some c → crosswords[j]? = some other →
      CallsMeet Crossword.insertWord AvoidsCrossings c other.words

/-! ## One word -/

private theorem crossing_of_covers {c : Crossword} {p : Pos} {u v : Word} (hu : u ∈ c.words)
    (hv : v ∈ c.words) (hup : u.Covers p) (hvp : v.Covers p)
    (hne : u.orientation ≠ v.orientation) : c.Crossing p := by
  cases ho : u.orientation with
  | H =>
      cases ho' : v.orientation with
      | H => exact absurd (ho.trans ho'.symm) hne
      | V => exact ⟨⟨u, hu, ho, hup⟩, v, hv, ho', hvp⟩
  | V =>
      cases ho' : v.orientation with
      | H => exact ⟨⟨v, hv, ho', hvp⟩, u, hu, ho, hup⟩
      | V => exact absurd (ho.trans ho'.symm) hne

/-- A word overlaps an accepted one exactly where it goes through a crossing. -/
private theorem overlap_iff {c : Crossword} {w : Word} (h : Inv c)
    (hcheck : checkWord c.letters w = true) :
    (∃ u ∈ c.words, Overlap u w) ↔ ∃ p, w.Covers p ∧ c.Crossing p := by
  constructor
  · rintro ⟨u, hu, ho, p, hup, hwp⟩
    refine ⟨p, hwp, ?_⟩
    obtain ⟨x, hx, rfl⟩ := hwp
    obtain ⟨y, hy, hp⟩ := hup
    -- the cell holds a letter, which a word of the other orientation wrote last
    obtain ⟨tag, htag⟩ := h.holds u hu y hy
    rw [hp] at htag
    have hother := (of_checkWord hcheck hx htag (convertLetter_ne _)).1
    obtain ⟨v, hv, hvp, hvo⟩ := h.owner _ _ htag (convertLetter_ne _)
    refine crossing_of_covers hu hv ⟨y, hy, hp⟩ hvp ?_
    rw [ho, hvo]
    exact hother.symm
  · rintro ⟨p, hwp, ⟨u, hu, huo, hup⟩, v, hv, hvo, hvp⟩
    cases ho : w.orientation with
    | H => exact ⟨u, hu, huo.trans ho.symm, p, hup, hwp⟩
    | V => exact ⟨v, hv, hvo.trans ho.symm, p, hvp, hwp⟩

private theorem apart_insertWord_iff (c : Crossword) (w : Word) (h : Inv c) (hapart : c.Apart) :
    (c.insertWord w).1.Apart ↔ AvoidsCrossings c w := by
  by_cases hcheck : checkWord c.letters w = true
  · have hnew : (c.insertWord w).1.Apart ↔ ∀ u ∈ c.words, ¬ Overlap u w := by
      rw [Crossword.Apart, (insertWord_of_check hcheck).1, List.pairwise_append]
      simp only [List.pairwise_singleton, true_and, List.mem_singleton, forall_eq]
      exact and_iff_right hapart
    have hoverlap := not_congr (overlap_iff h hcheck)
    push Not at hoverlap
    rw [hnew, hoverlap]
    exact ⟨fun havoid _ => havoid, fun havoid => havoid hcheck⟩
  · rw [insertWord_of_not hcheck]
    exact iff_of_true hapart fun h => absurd h hcheck

private theorem apart_insertWords_iff (c : Crossword) (ws : List Word) (h : Inv c)
    (hapart : c.Apart) :
    (c.insertWords ws).Apart ↔ CallsMeet Crossword.insertWord AvoidsCrossings c ws := by
  rw [callsMeet_iff_always (P := Crossword.Apart) inv_insertWord apart_insertWord_iff h hapart]
  constructor
  · rintro hlast before ⟨rest, rfl⟩
    -- accepted words stay, so they are apart before if they are apart at the end
    have hext := extends_insertWords rest (c.insertWords before)
    have hsplit : (c.insertWords before).insertWords rest = c.insertWords (before ++ rest) := by
      simp only [Crossword.insertWords, calls_append]
    rw [hsplit] at hext
    exact hlast.sublist hext.words.sublist
  · exact fun hall => hall ws List.prefix_rfl

/-! ## Any sequence of calls -/

section Crosswords

variable {crosswords : List Crossword} {P : Crossword → Prop}

private theorem forall_append_iff (h : ∀ c ∈ crosswords, P c) (c₁ : Crossword) :
    (∀ c ∈ crosswords ++ [c₁], P c) ↔ P c₁ := by
  simp only [List.forall_mem_append, List.forall_mem_singleton]
  exact and_iff_right h

private theorem forall_set_iff (h : ∀ c ∈ crosswords, P c) {i : Nat} {c₀ : Crossword}
    (hc₀ : crosswords[i]? = some c₀) (c₁ : Crossword) :
    (∀ c ∈ crosswords.set i c₁, P c) ↔ P c₁ := by
  constructor
  · have hi : i < (crosswords.set i c₁).length := by
      rw [List.length_set]
      exact (List.getElem?_eq_some_iff.mp hc₀).1
    exact fun hall => hall c₁ (List.mem_of_getElem (h := hi) (List.getElem_set_self ..))
  · intro hc₁ c hc
    rcases List.mem_or_eq_of_mem_set hc with hc | rfl
    · exact h c hc
    · exact hc₁

private theorem forall_some_iff {i j : Nat} {c₀ d₀ : Crossword} {Q : Crossword → Crossword → Prop}
    (hc₀ : crosswords[i]? = some c₀) (hd₀ : crosswords[j]? = some d₀) :
    (∀ c d, crosswords[i]? = some c → crosswords[j]? = some d → Q c d) ↔ Q c₀ d₀ := by
  simp only [hc₀, hd₀, Option.some.injEq]
  exact ⟨fun h => h _ _ rfl rfl, fun h c d hc hd => hc ▸ hd ▸ h⟩

end Crosswords

private theorem apart_step (crosswords : List Crossword) (call : Call) (h : ∀ c ∈ crosswords, Inv c)
    (hapart : ∀ c ∈ crosswords, c.Apart) :
    (∀ c ∈ (step crosswords call).1, c.Apart) ↔ CallAvoidsCrossings crosswords call := by
  cases call with
  | construct firstWord otherWords =>
      rw [step, forall_append_iff hapart]
      exact apart_insertWords_iff _ _ inv_empty List.Pairwise.nil
  | insertWord i word =>
      simp only [step, CallAvoidsCrossings]
      split
      next c₀ hc₀ =>
        have hmem := List.mem_of_getElem? hc₀
        rw [forall_set_iff hapart hc₀, apart_insertWord_iff c₀ word (h c₀ hmem) (hapart c₀ hmem)]
        exact ⟨fun havoid c hc => Option.some.inj (hc₀.symm.trans hc) ▸ havoid,
          fun hall => hall c₀ hc₀⟩
      next hnone =>
        refine iff_of_true hapart fun c hc => ?_
        rw [hnone] at hc
        cases hc
  | add i j =>
      simp only [step, CallAvoidsCrossings]
      split
      next c₀ other hc₀ hother =>
        have hmem := List.mem_of_getElem? hc₀
        rw [forall_append_iff hapart, Crossword.add,
          apart_insertWords_iff c₀ other.words (h c₀ hmem) (hapart c₀ hmem)]
        exact (forall_some_iff (Q := fun c d =>
          CallsMeet Crossword.insertWord AvoidsCrossings c d.words) hc₀ hother).symm
      next hnone => exact iff_of_true hapart fun c d hc hd => absurd hd (hnone c d hc)
  | addAssign i j =>
      simp only [step, CallAvoidsCrossings]
      split
      next c₀ other hc₀ hother =>
        have hmem := List.mem_of_getElem? hc₀
        rw [forall_set_iff hapart hc₀, Crossword.add,
          apart_insertWords_iff c₀ other.words (h c₀ hmem) (hapart c₀ hmem)]
        exact (forall_some_iff (Q := fun c d =>
          CallsMeet Crossword.insertWord AvoidsCrossings c d.words) hc₀ hother).symm
      next hnone => exact iff_of_true hapart fun c d hc hd => absurd hd (hnone c d hc)

/-- In every state of a history the accepted words of one orientation are apart, exactly
when no word that passes the check goes through a crossing. -/
theorem apart_iff_avoid_crossings (history : List Call) :
    (∀ before, before <+: history → ∀ c ∈ (calls step [] before).1, c.Apart) ↔
      CallsMeet step CallAvoidsCrossings [] history :=
  (callsMeet_iff_always (I := fun crosswords => ∀ c ∈ crosswords, Inv c)
    (P := fun crosswords => ∀ c ∈ crosswords, c.Apart) inv_step apart_step
    (fun _ hc => absurd hc List.not_mem_nil) (fun _ hc => absurd hc List.not_mem_nil)
    history).symm

/-- A vertical letter, the same one written horizontally, and vertically again. -/
theorem not_apart_thrice :
    ∃ c ∈ (calls step [] [.construct (.make 5 5 .V [65]) [.make 5 5 .H [65], .make 5 5 .V [65]]]).1,
      c.words = [.make 5 5 .V [65], .make 5 5 .H [65], .make 5 5 .V [65]] ∧ ¬ c.Apart := by
  have hwords : ((calls step []
      [.construct (.make 5 5 .V [65]) [.make 5 5 .H [65], .make 5 5 .V [65]]]).1.map (·.words)) =
      [[.make 5 5 .V [65], .make 5 5 .H [65], .make 5 5 .V [65]]] := by decide +kernel
  obtain ⟨c, hc, hcwords⟩ := List.mem_map.mp (hwords ▸ List.mem_singleton_self _)
  refine ⟨c, hc, hcwords, fun hapart => ?_⟩
  rw [Crossword.Apart, hcwords] at hapart
  have hcover : (Word.make 5 5 .V [65]).Covers (5, 5) := ⟨5, by decide, rfl⟩
  exact (List.pairwise_cons.mp hapart).1 (.make 5 5 .V [65]) (by simp) ⟨rfl, _, hcover, hcover⟩

end Mimuw.Crosswords
