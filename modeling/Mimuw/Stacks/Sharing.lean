import Mathlib
import Mimuw.Lib.Sharing
import Mimuw.Stacks.Refinement

/-!
# Stacks that share an inner stack

Copies of a `cxx::stack` point to one inner stack until one of them is modified or gives a
reference to a value.  The copy constructor does not share an inner stack that may have
been referenced; the assignment shares any.  A reference is usable until its stack is next
modified.  The `const` fronts, whose references cannot be written through, are left out.
-/

namespace Mimuw.Stacks

open Mimuw.Lib Mimuw.Lib.Sharing

variable {K V : Type*}

/-! ## The stacks of a program -/

/-- The handles are the stacks, and an inner stack holds the cells of its values. -/
abbrev Memory (K V : Type*) := Sharing (InnerStack K Nat) V

def start (value : Nat → V) : Memory K V := ⟨value, 0, fun _ => .empty, 0, [], []⟩

section Model

variable [LinearOrder K]

/-- The copy constructor of `Inner_stack`. -/
def copyInner (m : Memory K V) (s : InnerStack K Nat) : Memory K V × InnerStack K Nat :=
  let (m, copy) := s.elementSet.reverse.foldl
    (fun (mc : Memory K V × InnerStack K Nat) e =>
      (mc.1.alloc (mc.1.value e.value), mc.2.push e.key mc.1.used)) (m, .empty)
  (m, { copy with wasReferenced := false })

/-- `detach` of the stack `s`, whose pointer is `p`, with its new pointer. -/
def detach (m : Memory K V) (s p : Nat) : Memory K V × Nat :=
  let (m, copy) := copyInner m (m.node p)
  ((m.make copy).point s (some m.made), m.made)

def detachShared (m : Memory K V) (s p : Nat) : Memory K V × Nat :=
  if m.unique p then (m, p) else detach m s p

/-- The statements of a program with several stacks. -/
inductive Statement (K V : Type*) where
  /-- A new stack -/
  | create
  /-- A new stack, constructed from `source` -/
  | copy (source : Nat)
  /-- A new stack, constructed from `std::move(source)` -/
  | move (source : Nat)
  | assign (target source : Nat)
  | destroy (s : Nat)
  | call (s : Nat) (operation : Operation K V)
  /-- Write through the reference that the front with this number has returned. -/
  | write (reference : Nat) (value : V)

/-- What both pops do once the stack is known to have the element. -/
def popInner (m : Memory K V) (s p : Nat) (pop : InnerStack K Nat → Option (InnerStack K Nat)) :
    Memory K V × Answer K V :=
  let (detached, p) := detachShared m s p
  match pop (detached.node p) with
  | some inner => ((detached.revoke s).setNode p inner, .unit)
  | none => (m, .undefinedBehaviour)

/-- What both fronts do once the stack is known to have the element. -/
def frontInner (m : Memory K V) (s p : Nat)
    (front : InnerStack K Nat → Option (Nat × (V → Answer K V))) : Memory K V × Answer K V :=
  let (detached, p) := detachShared m s p
  match front (detached.node p) with
  | some (cell, answer) =>
      ((detached.setNode p { detached.node p with wasReferenced := true }).lend s cell,
        answer (detached.value cell))
  | none => (m, .undefinedBehaviour)

/-- A call on the stack `s`, whose pointer is `p`.  A stack that is modified takes its
references back. -/
def call (m : Memory K V) (s p : Nat) : Operation K V → Memory K V × Answer K V
  | .push key value =>
      let (detached, p) := detachShared m s p
      (((detached.revoke s).alloc value).setNode p ((detached.node p).push key detached.used),
        .unit)
  | .pop =>
      if (m.node p).size == 0 then (m, .invalidArgument) else popInner m s p InnerStack.pop
  | .popKey key =>
      if (m.node p).count key == 0 then (m, .invalidArgument)
      else popInner m s p fun inner => inner.popKey key
  | .front =>
      if (m.node p).size == 0 then (m, .invalidArgument)
      else frontInner m s p fun inner => inner.front.map fun found => (found.2, .pair found.1)
  | .frontKey key =>
      if (m.node p).count key == 0 then (m, .invalidArgument)
      else frontInner m s p fun inner => (inner.frontKey key).map fun cell => (cell, .value)
  | .size => (m, .size (m.node p).size)
  | .count key => (m, .size ((m.node p).count key))
  | .clear =>
      let (detached, p) := detachShared m s p
      ((detached.revoke s).setNode p .empty, .unit)

/-- A stack that has been moved from or destroyed is not used. -/
def execute (m : Memory K V) : Statement K V → Memory K V × Answer K V
  | .create => ((m.make .empty).addHandle (some m.made), .unit)
  | .copy source =>
      match m.target source with
      | none => (m, .undefinedBehaviour)
      | some p =>
          if (m.node p).wasReferenced then
            let (copied, copy) := copyInner m (m.node p)
            ((copied.make copy).addHandle (some copied.made), .unit)
          else (m.addHandle (some p), .unit)
  | .move source =>
      match m.target source with
      | none => (m, .undefinedBehaviour)
      | some _ => (m.pass source, .unit)
  | .assign target source =>
      match m.target source with
      | none => (m, .undefinedBehaviour)
      | some p =>
          if target < m.handle.length then ((m.revoke target).point target (some p), .unit)
          else (m, .undefinedBehaviour)
  | .destroy s =>
      match m.target s with
      | none => (m, .undefinedBehaviour)
      | some _ => ((m.revoke s).point s none, .unit)
  | .call s operation =>
      match m.target s with
      | none => (m, .undefinedBehaviour)
      | some p => call m s p operation
  | .write reference value =>
      match m.lent reference with
      | none => (m, .undefinedBehaviour)
      | some (_, cell) => (m.store cell value, .unit)

end Model

/-! ## The cells of an inner stack -/

def InnerStack.cells (s : InnerStack K Nat) : Set Nat :=
  {c | (∃ e ∈ s.elementSet, e.value = c) ∨
    ∃ key elements, s.elementMap key = some elements ∧ ∃ e ∈ elements, e.value = c}

def layout : Layout (InnerStack K Nat) := ⟨InnerStack.cells, fun s => s.wasReferenced = true⟩

def Element.mapValue {V W : Type*} (f : V → W) (e : Element K V) : Element K W :=
  ⟨e.key, f e.value, e.height⟩

def InnerStack.mapValue {V W : Type*} (f : V → W) (s : InnerStack K V) : InnerStack K W where
  keys := s.keys
  elementMap key := (s.elementMap key).map fun elements => elements.map (Element.mapValue f)
  elementSet := s.elementSet.map (Element.mapValue f)
  wasReferenced := s.wasReferenced
  height := s.height

/-- The inner stack of `s`, with the cells and with the values in them. -/
def held (m : Memory K V) (s : Nat) : Option (InnerStack K Nat × InnerStack K V) :=
  view (fun value inner => (inner, inner.mapValue value)) m s

def contents (m : Memory K V) (s : Nat) : Option (InnerStack K V) := (held m s).map Prod.snd

theorem mapValue_congr (value value' : Nat → V) (s : InnerStack K Nat)
    (h : ∀ c ∈ layout.cells s, value c = value' c) : s.mapValue value = s.mapValue value' := by
  have helement (e : Element K Nat) (he : e.value ∈ s.cells) :
      e.mapValue value = e.mapValue value' := by
    rw [Element.mapValue, Element.mapValue, h e.value he]
  unfold InnerStack.mapValue
  congr 1
  · funext key
    cases hkey : s.elementMap key with
    | none => rfl
    | some elements =>
        refine congrArg some (List.map_congr_left fun e he => helement e ?_)
        exact .inr ⟨key, elements, hkey, e, he, rfl⟩
  · exact List.map_congr_left fun e he => helement e (.inl ⟨e, he, rfl⟩)

theorem value_eq_of_mapValue_eq {value value' : Nat → V} {s : InnerStack K Nat} {c : Nat}
    (h : s.mapValue value = s.mapValue value') (hc : c ∈ s.cells) : value c = value' c := by
  have helement {l : List (Element K Nat)} {e : Element K Nat} (he : e ∈ l)
      (hl : l.map (Element.mapValue value) = l.map (Element.mapValue value')) :
      value e.value = value' e.value :=
    congrArg Element.value (List.map_inj_left.mp hl e he)
  rcases hc with ⟨e, he, rfl⟩ | ⟨key, elements, hkey, e, he, rfl⟩
  · exact helement he (congrArg InnerStack.elementSet h)
  · have hmap := congrFun (congrArg InnerStack.elementMap h) key
    simp only [InnerStack.mapValue, hkey, Option.map_some, Option.some.injEq] at hmap
    exact helement he hmap

section Cells

variable {s s' : InnerStack K Nat} {key : K} {c d : Nat}

theorem cells_empty : (InnerStack.empty : InnerStack K Nat).cells = ∅ := by
  ext c
  simp [InnerStack.cells, InnerStack.empty]

private theorem cells_subset (hset : s'.elementSet ⊆ s.elementSet)
    (hmap : ∀ k elements, s'.elementMap k = some elements →
      ∃ old, s.elementMap k = some old ∧ elements ⊆ old) : s'.cells ⊆ s.cells := by
  rintro c (⟨e, he, rfl⟩ | ⟨k, elements, hk, e, he, rfl⟩)
  · exact .inl ⟨e, hset he, rfl⟩
  · obtain ⟨old, hold, hsub⟩ := hmap k elements hk
    exact .inr ⟨k, old, hold, e, hsub he, rfl⟩

theorem front_mem_cells {p : K × Nat} (h : s.front = some p) : p.2 ∈ s.cells := by
  obtain ⟨e, he, rfl⟩ := Option.map_eq_some_iff.mp h
  exact .inl ⟨e, List.mem_of_mem_head? he, rfl⟩

theorem frontKey_mem_cells (h : s.frontKey key = some c) : c ∈ s.cells := by
  obtain ⟨e, he, rfl⟩ := Option.map_eq_some_iff.mp h
  unfold InnerStack.top at he
  split at he
  next e' rest hkey =>
    obtain rfl := Option.some_inj.mp he
    exact .inr ⟨key, _, hkey, e', List.mem_cons_self, rfl⟩
  next => cases he

variable [LinearOrder K]

private theorem mem_setInsert_subset {α : Type*} {lt : α → α → Bool} {x y : α} {l : List α}
    (h : y ∈ setInsert lt x l) : y = x ∨ y ∈ l := by
  induction l with
  | nil => exact .inl (List.mem_singleton.mp h)
  | cons z l ih =>
      rw [setInsert] at h
      split_ifs at h
      · rcases List.mem_cons.mp h with rfl | h
        · exact .inr List.mem_cons_self
        · exact (ih h).imp_right (List.mem_cons_of_mem z)
      · exact List.mem_cons.mp h
      · exact .inr h

theorem cells_push (h : c ∈ (s.push key d).cells) : c ∈ s.cells ∨ c = d := by
  unfold InnerStack.push at h
  rw [keyComparator_find] at h
  rcases h with ⟨e, he, rfl⟩ | ⟨k, elements, hk, e, he, rfl⟩
  · rcases mem_setInsert_subset he with rfl | he
    · exact .inr rfl
    · exact .inl (.inl ⟨e, he, rfl⟩)
  · by_cases hkey : k = key
    · rw [hkey] at hk
      simp only [Function.update_self, Option.some.injEq] at hk
      rw [← hk] at he
      rcases List.mem_cons.mp he with rfl | he
      · exact .inr rfl
      · cases hold : s.elementMap key with
        | none => simp [hold] at he
        | some old =>
            rw [hold] at he
            exact .inl (.inr ⟨key, old, hold, e, he, rfl⟩)
    · simp only [Function.update_of_ne hkey] at hk
      exact .inl (.inr ⟨k, elements, hk, e, he, rfl⟩)

private theorem popFromKey_parts (h : s.popFromKey key = some s') : s'.elementSet = s.elementSet ∧
    ∀ k elements, s'.elementMap k = some elements →
      ∃ old, s.elementMap k = some old ∧ elements ⊆ old := by
  unfold InnerStack.popFromKey at h
  split at h
  next e hkey =>
    obtain rfl := Option.some_inj.mp h
    refine ⟨rfl, fun k elements hk => ?_⟩
    by_cases hkk : k = key
    · simp [hkk] at hk
    · simp only [Function.update_of_ne hkk] at hk
      exact ⟨elements, hk, List.Subset.refl _⟩
  next e rest hne hkey =>
    obtain rfl := Option.some_inj.mp h
    refine ⟨rfl, fun k elements hk => ?_⟩
    by_cases hkk : k = key
    · simp only [hkk, Function.update_self, Option.some.injEq] at hk
      rw [← hk, hkk]
      exact ⟨_, hkey, List.subset_cons_self _ _⟩
    · simp only [Function.update_of_ne hkk] at hk
      exact ⟨elements, hk, List.Subset.refl _⟩
  next => cases h

theorem cells_pop (h : s.pop = some s') : s'.cells ⊆ s.cells := by
  unfold InnerStack.pop at h
  split at h
  next => cases h
  next e es hset =>
    obtain ⟨popped, hpopped, rfl⟩ := Option.map_eq_some_iff.mp h
    obtain ⟨hsame, hmap⟩ := popFromKey_parts hpopped
    refine cells_subset ?_ hmap
    change popped.elementSet ⊆ _
    rw [hsame]
    exact (setErase_sublist s.elementSet).subset

theorem cells_popKey (h : s.popKey key = some s') : s'.cells ⊆ s.cells := by
  unfold InnerStack.popKey at h
  obtain ⟨e, -, h⟩ := Option.bind_eq_some_iff.mp h
  obtain ⟨popped, hpopped, rfl⟩ := Option.map_eq_some_iff.mp h
  obtain ⟨hsame, hmap⟩ := popFromKey_parts hpopped
  refine cells_subset ?_ hmap
  rw [← hsame]
  exact (setErase_sublist popped.elementSet).subset

end Cells

end Mimuw.Stacks
