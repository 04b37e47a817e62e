import Mimuw.Stacks.Model

/-!
# The keyed stack and the plain list of pairs

`Represents` couples the three containers with a list of pairs: the set read
from the top is the list, each key's stack is the part of the set with that
key, and the height is the length.  The two pops keep it, and so does a push
whose height number is above every height in the set.  A push that is not made
above the top leaves the old top in front.
-/

namespace Mimuw.Stacks

open Mimuw.Lib

variable {K V : Type*}

/-! ## The abstract stack -/

section Abstract

variable [DecidableEq K]

/-- A list of key/value pairs, top first. -/
def listStep (l : List (K × V)) : Operation K V → List (K × V) × Answer K V
  | .push key value => ((key, value) :: l, .unit)
  | .pop =>
      match l with
      | [] => (l, .invalidArgument)
      | _ :: rest => (rest, .unit)
  | .popKey key =>
      match l.find? fun p => p.1 == key with
      | none => (l, .invalidArgument)
      | some _ => (l.eraseP fun p => p.1 == key, .unit)
  | .front =>
      match l with
      | [] => (l, .invalidArgument)
      | (key, value) :: _ => (l, .pair key value)
  | .frontKey key =>
      match l.find? fun p => p.1 == key with
      | none => (l, .invalidArgument)
      | some (_, value) => (l, .value value)
  | .size => (l, .size l.length)
  | .count key => (l, .size (l.countP fun p => p.1 == key))
  | .clear => ([], .unit)

end Abstract

/-! ## The coupling invariant -/

def Element.pair (e : Element K V) : K × V := (e.key, e.value)

variable [LinearOrder K]

def withKey (key : K) (elements : List (Element K V)) : List (Element K V) :=
  elements.filter fun e => e.key == key

/-- What the map holds for a key: emptied stacks are erased with their key. -/
def stackEntry (elements : List (Element K V)) : Option (List (Element K V)) :=
  match elements with
  | [] => none
  | e :: es => some (e :: es)

structure Represents (s : InnerStack K V) (l : List (K × V)) : Prop where
  pairs : s.elementSet.map Element.pair = l
  sorted : s.elementSet.Pairwise fun a b => elementHeightComparator a b = true
  map : ∀ key, s.elementMap key = stackEntry (withKey key s.elementSet)
  height : s.height = s.elementSet.length

/-- A push finds every stored height below the number it gives out. -/
def PushedAboveAll (s : InnerStack K V) : Operation K V → Prop
  | .push _ _ => ∀ e ∈ s.elementSet, e.height < s.height
  | _ => True

theorem represents_empty : Represents (.empty : InnerStack K V) [] where
  pairs := rfl
  sorted := List.Pairwise.nil
  map _ := rfl
  height := rfl

omit [LinearOrder K] in
private theorem elementHeightComparator_irrefl (e : Element K V) :
    elementHeightComparator e e = false := by
  simp [elementHeightComparator]

theorem keyComparator_find (key : K) (keys : List K) :
    (setFind? keyComparator key keys).getD key = key := by
  cases h : setFind? keyComparator key keys with
  | none => rfl
  | some found =>
      have := List.find?_some h
      simp only [keyComparator, Bool.and_eq_true, Bool.not_eq_true', decide_eq_false_iff_not,
        not_lt] at this
      exact le_antisymm this.1 this.2

section Pairs

variable {s : InnerStack K V} {l : List (K × V)}

theorem Represents.length (h : Represents s l) : s.height = l.length := by
  rw [h.height, ← h.pairs, List.length_map]

theorem Represents.count (h : Represents s l) (key : K) :
    s.count key = l.countP fun p => p.1 == key := by
  have hmap : l.countP (fun p => p.1 == key) = (withKey key s.elementSet).length := by
    rw [← h.pairs, List.countP_map, List.countP_eq_length_filter]
    rfl
  rw [hmap, InnerStack.count, h.map]
  cases withKey key s.elementSet <;> rfl

theorem Represents.find? (h : Represents s l) (key : K) :
    (l.find? fun p => p.1 == key) = (s.top key).map Element.pair := by
  have hfind : (l.find? fun p => p.1 == key) =
      (withKey key s.elementSet).head?.map Element.pair := by
    rw [← h.pairs, List.find?_map, withKey, List.head?_filter]
    rfl
  rw [hfind, InnerStack.top, h.map]
  cases withKey key s.elementSet <;> rfl

theorem Represents.count_eq_zero (h : Represents s l) (key : K) :
    s.count key = 0 ↔ s.top key = none := by
  rw [InnerStack.count, InnerStack.top, h.map]
  cases withKey key s.elementSet <;> simp [stackEntry]

end Pairs

/-! ## One call -/

theorem Represents.push {s : InnerStack K V} {l : List (K × V)} (h : Represents s l)
    {key : K} {value : V} (habove : ∀ e ∈ s.elementSet, e.height < s.height) :
    Represents (s.push key value) ((key, value) :: l) := by
  have hset : setInsert elementHeightComparator ⟨key, value, s.height⟩ s.elementSet =
      ⟨key, value, s.height⟩ :: s.elementSet := by
    apply setInsert_of_forall_lt
    · intro e he
      simpa [elementHeightComparator] using habove e he
    · intro e he
      simpa [elementHeightComparator] using (habove e he).le
  unfold InnerStack.push
  simp only [keyComparator_find, hset]
  constructor
  · simp [Element.pair, ← h.pairs]
  · refine List.pairwise_cons.mpr ⟨fun e he => ?_, h.sorted⟩
    simpa [elementHeightComparator] using habove e he
  · intro k
    by_cases hk : k = key
    · subst hk
      simp only [Function.update_self, withKey, List.filter_cons, beq_self_eq_true, if_true,
        stackEntry, h.map]
      cases hw : List.filter (fun e => e.key == k) s.elementSet <;> rfl
    · have hne : (key == k) = false := by simpa using Ne.symm hk
      simp [Function.update_of_ne hk, withKey, hne, h.map]
  · simp [h.height]

theorem Represents.remove {s s' : InnerStack K V} {l : List (K × V)} (h : Represents s l)
    {key : K} {e : Element K V} {rest : List (Element K V)}
    (hkey : withKey key s.elementSet = e :: rest)
    (hset : s'.elementSet = setErase elementHeightComparator e s.elementSet)
    (hmap : s'.elementMap = Function.update s.elementMap key (stackEntry rest))
    (hheight : s'.height = s.height - 1) :
    Represents s' (l.eraseP fun p => p.1 == key) := by
  have hfind : s.elementSet.find? (fun e => e.key == key) = some e := by
    rw [← List.head?_filter]
    exact congrArg List.head? hkey
  have herase : s'.elementSet = s.elementSet.eraseP fun e => e.key == key :=
    hset.trans (setErase_of_find? elementHeightComparator_irrefl h.sorted hfind)
  have hmem : e ∈ s.elementSet := List.mem_of_find?_eq_some hfind
  have hekey : (e.key == key) = true :=
    List.find?_some (p := fun e : Element K V => e.key == key) hfind
  constructor
  · rw [herase, ← h.pairs, List.eraseP_map]
    rfl
  · rw [herase]
    exact h.sorted.sublist List.eraseP_sublist
  · intro k
    rw [hmap, herase]
    obtain ⟨a, before, after, hbefore, ha, hsplit, heraseEq⟩ :=
      List.exists_of_eraseP (p := fun e : Element K V => e.key == key) hmem hekey
    rw [heraseEq]
    have hnone : ∀ b ∈ before, ¬(b.key == key) = true := hbefore
    have hfilter : withKey key before = [] := by
      simpa [withKey, List.filter_eq_nil_iff] using hnone
    by_cases hk : k = key
    · subst hk
      rw [Function.update_self]
      rw [hsplit] at hkey
      simp only [withKey, List.filter_append, List.filter_cons, ha, if_true] at hkey hfilter ⊢
      rw [hfilter, List.nil_append] at hkey ⊢
      rw [(List.cons.inj hkey).2]
    · have hka : (a.key == k) = false := by
        have : a.key = key := by simpa using ha
        simpa [this] using Ne.symm hk
      rw [Function.update_of_ne hk, h.map, hsplit]
      simp [withKey, List.filter_append, hka]
  · rw [hheight, herase, h.height,
      List.length_eraseP_of_mem (p := fun e : Element K V => e.key == key) hmem hekey]

private theorem popFromKey_eq {s : InnerStack K V} {key : K} {e : Element K V}
    {rest : List (Element K V)} (h : s.elementMap key = some (e :: rest)) :
    ∃ keys, s.popFromKey key = some { s with
      keys := keys
      elementMap := Function.update s.elementMap key (stackEntry rest) } := by
  unfold InnerStack.popFromKey
  rw [h]
  cases rest with
  | nil => exact ⟨_, rfl⟩
  | cons e' rest => exact ⟨s.keys, rfl⟩

theorem Represents.pop {s : InnerStack K V} {p : K × V} {l : List (K × V)}
    (h : Represents s (p :: l)) : ∃ s', s.pop = some s' ∧ Represents s' l := by
  obtain ⟨e, es, hes, rfl, -⟩ := List.map_eq_cons_iff.mp h.pairs
  have hkey : withKey e.key s.elementSet = e :: withKey e.key es := by
    simp [withKey, hes]
  have hmap : s.elementMap e.key = some (e :: withKey e.key es) := by
    rw [h.map, hkey]
    rfl
  let erased := { s with elementSet := setErase elementHeightComparator e s.elementSet }
  obtain ⟨keys, hpop⟩ := popFromKey_eq (s := erased) hmap
  refine ⟨_, by unfold InnerStack.pop; rw [hes]; simp only [← hes]; rw [hpop]; rfl, ?_⟩
  have hrest : (e.pair :: l).eraseP (fun p => p.1 == e.key) = l := by
    simp [Element.pair]
  rw [← hrest]
  exact h.remove hkey rfl rfl rfl

theorem Represents.popKey {s : InnerStack K V} {l : List (K × V)} (h : Represents s l)
    {key : K} {e : Element K V} (htop : s.top key = some e) :
    ∃ s', s.popKey key = some s' ∧ Represents s' (l.eraseP fun p => p.1 == key) := by
  obtain ⟨rest, hkey⟩ : ∃ rest, withKey key s.elementSet = e :: rest := by
    rw [InnerStack.top, h.map] at htop
    cases hw : withKey key s.elementSet with
    | nil => simp [hw, stackEntry] at htop
    | cons e' rest =>
        simp only [hw, stackEntry, Option.some.injEq] at htop
        exact ⟨rest, by rw [htop]⟩
  have hmap : s.elementMap key = some (e :: rest) := by
    rw [h.map, hkey]
    rfl
  obtain ⟨keys, hpop⟩ := popFromKey_eq hmap
  refine ⟨_, by unfold InnerStack.popKey; rw [htop, Option.bind_some, hpop]; rfl, ?_⟩
  exact h.remove hkey rfl rfl rfl

theorem step_represents {s : InnerStack K V} {l : List (K × V)} (h : Represents s l)
    (op : Operation K V) (hguard : PushedAboveAll s op) :
    Represents (step s op).1 (listStep l op).1 ∧ (step s op).2 = (listStep l op).2 := by
  have hwas : ∀ b, Represents { s with wasReferenced := b } l :=
    fun _ => ⟨h.pairs, h.sorted, h.map, h.height⟩
  have hsize : s.size = l.length := h.length
  cases op with
  | push key value => exact ⟨h.push hguard, rfl⟩
  | pop =>
      cases l with
      | nil => simp [step, listStep, hsize, h]
      | cons p l =>
          obtain ⟨s', hpop, hrep⟩ := h.pop
          simp [step, listStep, hsize, hpop, answerPop, hrep]
  | popKey key =>
      simp only [step, listStep, beq_iff_eq, h.count_eq_zero, h.find? key]
      cases htop : s.top key with
      | none => simp [h]
      | some e =>
          obtain ⟨s', hpop, hrep⟩ := h.popKey htop
          simp [hpop, answerPop, hrep]
  | front =>
      cases l with
      | nil => simp [step, listStep, hsize, h]
      | cons p l =>
          obtain ⟨e, es, hes, rfl, -⟩ := List.map_eq_cons_iff.mp h.pairs
          refine ⟨?_, by simp [step, listStep, hsize, InnerStack.front, hes, Element.pair]⟩
          simpa [step, listStep, hsize, InnerStack.front, hes, Element.pair] using hwas true
  | frontKey key =>
      simp only [step, listStep, beq_iff_eq, h.count_eq_zero, h.find? key]
      cases htop : s.top key with
      | none => simp [h]
      | some e => simp [InnerStack.frontKey, htop, Element.pair, hwas]
  | size => exact ⟨h, by simp [step, listStep, hsize]⟩
  | count key => exact ⟨h, by simp [step, listStep, h.count]⟩
  | clear => exact ⟨represents_empty, rfl⟩

/-! ## Whole histories -/

/-- A push below a stored element is not seen by `front`. -/
private theorem front_after_push_below {s : InnerStack K V} {p : K × V} {l : List (K × V)}
    (h : Represents s (p :: l)) {key : K} {value : V}
    (hbelow : ¬PushedAboveAll s (.push key value)) :
    (step (s.push key value) .front).2 = .pair p.1 p.2 := by
  obtain ⟨e, es, hes, rfl, -⟩ := List.map_eq_cons_iff.mp h.pairs
  -- the highest element is not below the new one
  have htop : s.height ≤ e.height := by
    by_contra hlt
    refine hbelow fun a ha => ?_
    rw [hes] at ha
    rcases List.mem_cons.mp ha with rfl | ha
    · omega
    · have := (List.pairwise_cons.mp (hes ▸ h.sorted)).1 a ha
      simp only [elementHeightComparator, decide_eq_true_eq] at this
      omega
  have hhead : (s.push key value).elementSet.head? = some e := by
    simp only [InnerStack.push, hes]
    apply head?_setInsert_of_not_lt
    simpa [elementHeightComparator] using htop
  have hsize : (s.push key value).size = s.height + 1 := rfl
  simp [step, hsize, InnerStack.front, hhead, Element.pair]

/-- A history in which every push is made above all stored elements is answered
as by the list.  Conversely, such a history followed by a push that is not made
above all of them is told apart from the list by `front`, unless the pushed pair
equals the old top. -/
theorem stack_answers_as_list (history : List (Operation K V)) :
    (CallsMeet step PushedAboveAll .empty history →
      (calls step .empty history).2 = (calls listStep [] history).2) ∧
    ∀ key value, CallsMeet step PushedAboveAll .empty history →
      ¬PushedAboveAll (calls step .empty history).1 (.push key value) →
      (calls listStep [] history).1.head? ≠ some (key, value) →
      (calls step .empty (history ++ [Operation.push key value, .front])).2 ≠
        (calls listStep [] (history ++ [Operation.push key value, .front])).2 := by
  have hsim := fun hmeet : CallsMeet step PushedAboveAll (.empty : InnerStack K V) history =>
    calls_simulation (R := Represents) (T := listStep)
      (fun _ _ op h hguard => step_represents h op hguard) represents_empty hmeet
  refine ⟨fun hmeet => (hsim hmeet).2, fun key value hmeet hbelow hnew heq => ?_⟩
  obtain ⟨hrep, -⟩ := hsim hmeet
  rw [calls_append, calls_append] at heq
  have htail := (List.append_inj' heq rfl).2
  cases hl : (calls listStep [] history).1 with
  | nil =>
      refine hbelow fun e he => ?_
      rw [hl] at hrep
      have hempty : (calls step (.empty : InnerStack K V) history).1.elementSet = [] :=
        List.map_eq_nil_iff.mp hrep.pairs
      simp [hempty] at he
  | cons p l =>
      rw [hl] at hrep hnew htail
      have hfront := front_after_push_below hrep hbelow
      simp only [calls_cons, calls_nil, listStep, List.cons.injEq, and_true] at htail
      rw [show (step (calls step .empty history).1 (.push key value)).1 =
        (calls step .empty history).1.push key value from rfl, hfront] at htail
      simp only [Answer.pair.injEq] at htail
      exact hnew (by simp [← htail.2.1, ← htail.2.2])

/-- A removal from the middle undone before the next push, and one that is not. -/
theorem stack_answers_as_list_small :
    (calls step (.empty : InnerStack Nat Nat)
        [.push 1 10, .push 2 20, .popKey 1, .pop, .push 3 30, .front]).2 =
      [.unit, .unit, .unit, .unit, .unit, .pair 3 30] ∧
    (calls step (.empty : InnerStack Nat Nat)
        ([Operation.push 1 10, .push 2 20, .popKey 1] ++ [Operation.push 3 30, .front])).2 ≠
      (calls listStep [] ([Operation.push 1 10, .push 2 20, .popKey 1] ++
        [Operation.push 3 30, .front])).2 := by
  constructor
  · rw [(stack_answers_as_list (K := Nat) (V := Nat) _).1
      (by simp [CallsMeet, PushedAboveAll]; decide)]
    decide
  · exact (stack_answers_as_list _).2 3 30 (by simp [CallsMeet, PushedAboveAll]; decide)
      (by simp [PushedAboveAll]; decide) (by decide)

/-- After `push`, `push`, `pop` of the lower key and `push`, the last pair is
not in front. -/
theorem stack_not_list :
    ¬∀ history : List (Operation Nat Nat),
      (calls step .empty history).2 = (calls listStep [] history).2 := by
  intro h
  have := h [.push 1 10, .push 2 20, .popKey 1, .push 3 30, .front]
  revert this
  decide

end Mimuw.Stacks
