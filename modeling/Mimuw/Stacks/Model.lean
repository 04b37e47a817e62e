import Mimuw.Lib.OrderedSet
import Mimuw.Lib.Runs
import Mathlib.Tactic

/-!
# The keyed stack

`Inner_stack` keeps the elements of a stack three times: the set of keys, a map
from each key to the stack of its elements, and the set of all elements ordered
by a height number, highest first.  The height given to a pushed element is the
number of elements at that moment.

A single `cxx::stack` owns its inner stack, so `unique()` holds in every call
and nothing is detached; the two rollback helpers act only when an exception
passes through them.  Pointers to keys and values are represented by what they
point to.  `size_t` is unbounded: memory ends long before it wraps.
-/

namespace Mimuw.Stacks

open Mimuw.Lib

structure Element (K V : Type*) where
  key : K
  value : V
  height : Nat
  deriving DecidableEq, Repr

variable {K V : Type*}

/-- `element_height_comparator`: higher elements come first. -/
def elementHeightComparator (a b : Element K V) : Bool := decide (a.height > b.height)

/-- `key_comparator` compares what the pointers point to. -/
def keyComparator [LinearOrder K] (a b : K) : Bool := decide (a < b)

structure InnerStack (K V : Type*) where
  keys : List K
  /-- For each key, its stack of elements, top first. -/
  elementMap : K → Option (List (Element K V))
  elementSet : List (Element K V)
  wasReferenced : Bool
  height : Nat

namespace InnerStack

variable [LinearOrder K]

def empty : InnerStack K V := ⟨[], fun _ => none, [], false, 0⟩

def push (s : InnerStack K V) (key : K) (value : V) : InnerStack K V :=
  let keyPointer := (setFind? keyComparator key s.keys).getD key
  let element : Element K V := ⟨keyPointer, value, s.height⟩
  let elements := (s.elementMap keyPointer).getD []
  { keys := if setContains keyComparator key s.keys then s.keys
            else setInsert keyComparator key s.keys
    elementMap := Function.update s.elementMap keyPointer (some (element :: elements))
    elementSet := setInsert elementHeightComparator element s.elementSet
    wasReferenced := true
    height := s.height + 1 }

/-- What both `pop`s do to the key set and the map once the element is chosen:
the top of the key's stack goes, and an emptied stack goes with its key.
Popping a `std::stack` that is empty is undefined. -/
def popFromKey (s : InnerStack K V) (key : K) : Option (InnerStack K V) :=
  match s.elementMap key with
  | some (_ :: []) =>
      some { s with
        keys := setErase keyComparator key s.keys
        elementMap := Function.update s.elementMap key none }
  | some (_ :: rest) =>
      some { s with elementMap := Function.update s.elementMap key (some rest) }
  | _ => none

/-- `none` stands for undefined behaviour: `*begin()` of an empty set, or the
pop of an empty stack. -/
def pop (s : InnerStack K V) : Option (InnerStack K V) :=
  match s.elementSet with
  | [] => none
  | element :: _ =>
      let erased :=
        { s with elementSet := setErase elementHeightComparator element s.elementSet }
      (erased.popFromKey element.key).map fun s' =>
        { s' with height := s'.height - 1, wasReferenced := true }

/-- `element_map[key].top()`; an empty stack has no top. -/
def top (s : InnerStack K V) (key : K) : Option (Element K V) :=
  match s.elementMap key with
  | some (element :: _) => some element
  | _ => none

def popKey (s : InnerStack K V) (key : K) : Option (InnerStack K V) :=
  (s.top key).bind fun element =>
    (s.popFromKey key).map fun s' =>
      { s' with
        elementSet := setErase elementHeightComparator element s'.elementSet
        height := s'.height - 1
        wasReferenced := true }

def front (s : InnerStack K V) : Option (K × V) :=
  s.elementSet.head?.map fun element => (element.key, element.value)

def frontKey (s : InnerStack K V) (key : K) : Option V :=
  (s.top key).map Element.value

def size (s : InnerStack K V) : Nat := s.height

def count (s : InnerStack K V) (key : K) : Nat :=
  match s.elementMap key with
  | none => 0
  | some elements => elements.length

end InnerStack

/-! ## `cxx::stack` -/

inductive Operation (K V : Type*) where
  | push (key : K) (value : V)
  | pop
  | popKey (key : K)
  | front
  | frontKey (key : K)
  | size
  | count (key : K)
  | clear
  deriving DecidableEq, Repr

inductive Answer (K V : Type*) where
  | unit
  /-- `std::invalid_argument` is thrown. -/
  | invalidArgument
  | pair (key : K) (value : V)
  | value (value : V)
  | size (n : Nat)
  | undefinedBehaviour
  deriving DecidableEq, Repr

variable [LinearOrder K]

def answerPop (s : InnerStack K V) :
    Option (InnerStack K V) → InnerStack K V × Answer K V
  | some s' => (s', .unit)
  | none => (s, .undefinedBehaviour)

def step (s : InnerStack K V) : Operation K V → InnerStack K V × Answer K V
  | .push key value => (s.push key value, .unit)
  | .pop =>
      if s.size == 0 then (s, .invalidArgument) else answerPop s s.pop
  | .popKey key =>
      if s.count key == 0 then (s, .invalidArgument) else answerPop s (s.popKey key)
  | .front =>
      if s.size == 0 then (s, .invalidArgument)
      else match s.front with
        | some (key, value) => ({ s with wasReferenced := true }, .pair key value)
        | none => (s, .undefinedBehaviour)
  | .frontKey key =>
      if s.count key == 0 then (s, .invalidArgument)
      else match s.frontKey key with
        | some value => ({ s with wasReferenced := true }, .value value)
        | none => (s, .undefinedBehaviour)
  | .size => (s, .size s.size)
  | .count key => (s, .size (s.count key))
  | .clear => (.empty, .unit)

end Mimuw.Stacks
