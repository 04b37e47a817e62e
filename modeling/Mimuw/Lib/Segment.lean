import Mathlib.Data.List.Nodup
import Mathlib.Logic.Function.Basic

/-!
# Linked segments

A list of cells, each of which names the next one, and the last none.
-/

namespace Mimuw.Lib

variable {α : Type*} {next next' : α → Option α} {a b z : α} {l : List α}

def Segment (next : α → Option α) : List α → Prop
  | [] => False
  | [a] => next a = none
  | a :: b :: l => next a = some b ∧ Segment next (b :: l)

namespace Segment

theorem next_head (h : Segment next (a :: l)) : next a = l.head? := by
  cases l with
  | nil => exact h
  | cons b l => exact h.1

theorem tail (h : Segment next (a :: b :: l)) : Segment next (b :: l) := h.2

theorem congr (h : Segment next l) (heq : ∀ a ∈ l, next' a = next a) : Segment next' l := by
  induction l with
  | nil => exact h
  | cons a l ih =>
      have ha := heq a List.mem_cons_self
      cases l with
      | nil => exact ha.trans h
      | cons b l => exact ⟨ha.trans h.1, ih h.2 fun c hc => heq c (List.mem_cons_of_mem a hc)⟩

theorem next_getLast (h : Segment next l) (hz : l.getLast? = some z) : next z = none := by
  induction l with
  | nil => cases hz
  | cons a l ih =>
      cases l with
      | nil =>
          obtain rfl : a = z := by simpa using hz
          exact h
      | cons b l => exact ih h.2 (by simpa [List.getLast?_cons_cons] using hz)

theorem getLast_of_next_none (h : Segment next l) (hz : z ∈ l) (hnone : next z = none) :
    l.getLast? = some z := by
  induction l with
  | nil => cases hz
  | cons a l ih =>
      cases l with
      | nil => exact congrArg some (List.mem_singleton.mp hz).symm
      | cons b l =>
          rw [List.getLast?_cons_cons]
          rcases List.mem_cons.mp hz with rfl | hz
          · cases h.1.symm.trans hnone
          · exact ih h.2 hz

theorem next_mem_tail (h : Segment next l) (ha : a ∈ l) (hb : next a = some b) : b ∈ l.tail := by
  induction l with
  | nil => cases ha
  | cons c l ih =>
      cases l with
      | nil =>
          obtain rfl := List.mem_singleton.mp ha
          cases h.symm.trans hb
      | cons d l =>
          rcases List.mem_cons.mp ha with rfl | ha
          · obtain rfl := Option.some.inj (h.1.symm.trans hb)
            exact List.mem_cons_self
          · exact List.mem_cons_of_mem d (ih h.2 ha)

theorem concat (h : Segment next l) (hnodup : l.Nodup) (hz : l.getLast? = some z)
    (hlink : next' z = some b) (hb : next' b = none) (heq : ∀ a ∈ l, a ≠ z → next' a = next a) :
    Segment next' (l ++ [b]) := by
  induction l with
  | nil => cases hz
  | cons a l ih =>
      obtain ⟨hnotMem, hnodup⟩ := List.nodup_cons.mp hnodup
      cases l with
      | nil =>
          obtain rfl : a = z := by simpa using hz
          exact ⟨hlink, hb⟩
      | cons c l =>
          have hz' : (c :: l).getLast? = some z := by simpa [List.getLast?_cons_cons] using hz
          have hne : a ≠ z := by
            rintro rfl
            exact hnotMem (List.mem_of_getLast? hz')
          exact ⟨(heq a List.mem_cons_self hne).trans h.1,
            ih h.2 hnodup hz' fun c hc => heq c (List.mem_cons_of_mem a hc)⟩

end Segment

end Mimuw.Lib
