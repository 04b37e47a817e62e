import Mathlib.Data.List.Basic
import Mathlib.Logic.Function.Basic

/-!
# Linked lists in a heap

A path leads from one pointer to another through cells that each hold a content and a
pointer to the next cell.  It is given with the addresses and the contents on the way.
-/

namespace Mimuw.Lib

structure Cell (α β : Type*) where
  content : β
  next : Option α

variable {α β : Type*} {heap heap' : α → Option (Cell α β)} {start stop stop' : Option α} {a : α}
  {b b' : β} {l m : List (α × β)}

def Path (heap : α → Option (Cell α β)) : Option α → List (α × β) → Option α → Prop
  | start, [], stop => start = stop
  | start, (a, b) :: l, stop =>
      start = some a ∧ ∃ next, heap a = some ⟨b, next⟩ ∧ Path heap next l stop

namespace Path

theorem append_iff :
    Path heap start (l ++ m) stop ↔ ∃ mid, Path heap start l mid ∧ Path heap mid m stop := by
  induction l generalizing start with
  | nil => simp [Path]
  | cons c l ih =>
      simp only [List.cons_append, Path, ih]
      constructor
      · rintro ⟨hstart, next, hcell, mid, hfirst, hsecond⟩
        exact ⟨mid, ⟨hstart, next, hcell, hfirst⟩, hsecond⟩
      · rintro ⟨mid, ⟨hstart, next, hcell, hfirst⟩, hsecond⟩
        exact ⟨hstart, next, hcell, mid, hfirst, hsecond⟩

/-- Only the cells on the way matter. -/
theorem congr (h : Path heap start l stop) (heq : ∀ c ∈ l, heap' c.1 = heap c.1) :
    Path heap' start l stop := by
  induction l generalizing start with
  | nil => exact h
  | cons c l ih =>
      obtain ⟨hstart, next, hcell, hrest⟩ := h
      exact ⟨hstart, next, (heq c List.mem_cons_self).trans hcell,
        ih hrest fun d hd => heq d (List.mem_cons_of_mem c hd)⟩

theorem cell (h : Path heap start l stop) {c : α × β} (hc : c ∈ l) :
    ∃ next, heap c.1 = some ⟨c.2, next⟩ := by
  induction l generalizing start with
  | nil => cases hc
  | cons d l ih =>
      obtain ⟨-, next, hcell, hrest⟩ := h
      rcases List.mem_cons.mp hc with rfl | hc
      · exact ⟨next, hcell⟩
      · exact ih hrest hc

theorem eq_nil_of_none (h : Path heap none l stop) : l = [] := by
  cases l with
  | nil => rfl
  | cons c l => cases h.1

theorem update_of_notMem [DecidableEq α] (h : Path heap start l stop) (ha : a ∉ l.map Prod.fst)
    (cell : Option (Cell α β)) : Path (Function.update heap a cell) start l stop := by
  refine h.congr fun c hc => Function.update_of_ne ?_ _ _
  rintro rfl
  exact ha (List.mem_map_of_mem hc)

/-- The first cell gets another content. -/
theorem rewrite_first [DecidableEq α] (h : Path heap start ((a, b) :: l) stop)
    (ha : a ∉ l.map Prod.fst) (b' : β) :
    ∃ next, heap a = some ⟨b, next⟩ ∧ Path heap next l stop ∧
      Path (Function.update heap a (some ⟨b', next⟩)) start ((a, b') :: l) stop := by
  obtain ⟨hstart, next, hcell, hrest⟩ := h
  exact ⟨next, hcell, hrest, hstart, next, Function.update_self .., hrest.update_of_notMem ha _⟩

/-- The last cell gets another content and points elsewhere. -/
theorem relink [DecidableEq α] (h : Path heap start (l ++ [(a, b)]) stop)
    (ha : a ∉ l.map Prod.fst) :
    Path (Function.update heap a (some ⟨b', stop'⟩)) start (l ++ [(a, b')]) stop' := by
  obtain ⟨mid, hfirst, hlast, -⟩ := append_iff.mp h
  exact append_iff.mpr
    ⟨mid, hfirst.update_of_notMem ha _, hlast, stop', Function.update_self .., rfl⟩

end Path

end Mimuw.Lib
