import Mimuw.Lib.Runs

/-!
# The poset module

A poset is kept as the vector of its element names and, in parallel, a square
matrix with one label for every ordered pair of elements.  All posets live in
one map keyed by identifier, beside the queue of identifiers freed by
`poset_delete` and the counter that supplies fresh ones.  A `char const *`
argument is `none` when it is `NULL`.

The diagnostic output on the error stream is left out: no result and no state
depends on it.
-/

namespace Mimuw.Posets

open Mimuw.Lib

/-- `unsigned long`; `nextID++` wraps. -/
abbrev PosetID := UInt64

abbrev PosetElem := String

abbrev RelationType := Int

abbrev PosetRelationsArray := List (List RelationType)

def relation : RelationType := 1

def noRelation : RelationType := -1

def relTransitivity : RelationType := 2

structure Poset where
  names : List PosetElem
  relations : PosetRelationsArray
  deriving DecidableEq, Repr

/-! ## The relation matrix -/

/-- `relationArr->at(i)[j]`; every access of the module is in range. -/
def entry (arr : PosetRelationsArray) (i j : Nat) : RelationType :=
  (arr.getD i []).getD j 0

def setEntry (arr : PosetRelationsArray) (i j : Nat) (label : RelationType) :
    PosetRelationsArray :=
  arr.modify i fun row => row.set j label

/-- The test `x == RELATION || x == REL_TRANSITIVITY`. -/
def isRelated (label : RelationType) : Bool :=
  label == relation || label == relTransitivity

def related (arr : PosetRelationsArray) (i j : Nat) : Bool :=
  isRelated (entry arr i j)

def somethingIsBetweenTwoElem (arr : PosetRelationsArray) (idx1 idx2 : Nat) : Bool :=
  (List.range arr.length).any fun i =>
    i != idx1 && i != idx2 && related arr idx1 i && related arr i idx2

def changeRelationForSmallerElem (arr : PosetRelationsArray)
    (currentElem idxOfElemToDelete nbrOfRows : Nat) : PosetRelationsArray :=
  forLoop nbrOfRows (fun arr j =>
    if related arr idxOfElemToDelete j && entry arr currentElem j == relTransitivity then
      setEntry arr currentElem j relation
    else arr) arr

def changeRelationForLargerElem (arr : PosetRelationsArray)
    (currentElem idxOfElemToDelete nbrOfRows : Nat) : PosetRelationsArray :=
  forLoop nbrOfRows (fun arr j =>
    if related arr j idxOfElemToDelete && entry arr j currentElem == relTransitivity then
      setEntry arr j currentElem relation
    else arr) arr

/-- The inner loop of `addTransitivityRelations`: every element above
`index2` becomes an element above `i`. -/
def addAllAbove (arr : PosetRelationsArray) (i index2 nbrOfRows : Nat) :
    PosetRelationsArray :=
  forLoop nbrOfRows (fun arr j =>
    if related arr index2 j && entry arr i j == noRelation then
      setEntry arr i j relTransitivity
    else arr) arr

/-- One iteration of the outer loop of `addTransitivityRelations`. -/
def addTransitivityRow (index1 index2 nbrOfRows : Nat)
    (arr : PosetRelationsArray) (i : Nat) : PosetRelationsArray :=
  if i != index1 && i != index2 then
    if related arr i index1 && entry arr i index2 == noRelation then
      addAllAbove (setEntry arr i index2 relTransitivity) i index2 nbrOfRows
    else if entry arr index1 i == noRelation && related arr index2 i then
      setEntry arr index1 i relTransitivity
    else arr
  else arr

def addTransitivityRelations (arr : PosetRelationsArray) (index1 index2 : Nat) :
    PosetRelationsArray :=
  forLoop arr.length (addTransitivityRow index1 index2 arr.length) arr

/-! ## Operations on one poset -/

/-- The index of the first element named `value`, if there is one. -/
def checkIfElemExistInVecOfStr (names : List PosetElem) (value : PosetElem) :
    Option Nat :=
  names.findIdx? (· == value)

def Poset.empty : Poset := ⟨[], []⟩

def addRowAndColumn (arr : PosetRelationsArray) : PosetRelationsArray :=
  let rows := arr ++ [List.replicate arr.length noRelation]
  let arr' := rows.map fun row => row ++ [noRelation]
  setEntry arr' (arr'.length - 1) (arr'.length - 1) relation

def Poset.insert (p : Poset) (value : PosetElem) : Poset × Bool :=
  if p.names.any (· == value) then (p, false)
  else (⟨p.names ++ [value], addRowAndColumn p.relations⟩, true)

/-- One iteration of the loop of `poset_remove` that promotes labels. -/
def promoteAround (idxOfElemToDelete nbrOfRows : Nat)
    (arr : PosetRelationsArray) (i : Nat) : PosetRelationsArray :=
  if i != idxOfElemToDelete then
    if related arr i idxOfElemToDelete then
      changeRelationForSmallerElem arr i idxOfElemToDelete nbrOfRows
    else if related arr idxOfElemToDelete i then
      changeRelationForLargerElem arr i idxOfElemToDelete nbrOfRows
    else arr
  else arr

def eraseRowAndColumn (arr : PosetRelationsArray) (idx : Nat) : PosetRelationsArray :=
  (arr.map fun row => row.eraseIdx idx).eraseIdx idx

def Poset.remove (p : Poset) (value : PosetElem) : Poset × Bool :=
  match checkIfElemExistInVecOfStr p.names value with
  | some idx =>
      let nbrOfRows := p.relations.length
      let arr := forLoop nbrOfRows (promoteAround idx nbrOfRows) p.relations
      (⟨p.names.eraseIdx idx, eraseRowAndColumn arr idx⟩, true)
  | none => (p, false)

def Poset.add (p : Poset) (value1 value2 : PosetElem) : Poset × Bool :=
  match checkIfElemExistInVecOfStr p.names value1,
      checkIfElemExistInVecOfStr p.names value2 with
  | some index1, some index2 =>
      if related p.relations index1 index2 || related p.relations index2 index1 then
        (p, false)
      else
        let arr := setEntry p.relations index1 index2 relation
        ({ p with relations := addTransitivityRelations arr index1 index2 }, true)
  | _, _ => (p, false)

def Poset.del (p : Poset) (value1 value2 : PosetElem) : Poset × Bool :=
  match checkIfElemExistInVecOfStr p.names value1,
      checkIfElemExistInVecOfStr p.names value2 with
  | some index1, some index2 =>
      if index1 == index2 then (p, false)
      else if related p.relations index1 index2 then
        if somethingIsBetweenTwoElem p.relations index1 index2 then (p, false)
        else
          let arr := setEntry p.relations index1 index2 noRelation
          ({ p with relations := setEntry arr index2 index1 noRelation }, true)
      else (p, false)
  | _, _ => (p, false)

def Poset.test (p : Poset) (value1 value2 : PosetElem) : Bool :=
  match checkIfElemExistInVecOfStr p.names value1,
      checkIfElemExistInVecOfStr p.names value2 with
  | some index1, some index2 => related p.relations index1 index2
  | _, _ => false

/-! ## The module state -/

structure State where
  allPosets : PosetID → Option Poset
  availableIDs : List PosetID
  nextID : PosetID

def State.initial : State := ⟨fun _ => none, [], 0⟩

/-- `it->second` is overwritten; the key is already in the map. -/
def State.assign (s : State) (id : PosetID) (p : Poset) : State :=
  { s with allPosets := Function.update s.allPosets id (some p) }

/-- `allPosets.insert({id, p})`: a key already in the map keeps its value. -/
def State.insertNew (s : State) (id : PosetID) (p : Poset) : State :=
  match s.allPosets id with
  | some _ => s
  | none => s.assign id p

inductive Result where
  | unit
  | id (id : PosetID)
  | size (n : Nat)
  | bool (b : Bool)
  deriving DecidableEq, Repr

def posetNew (s : State) : State × Result :=
  match s.availableIDs with
  | id :: rest => ({ s with availableIDs := rest }.insertNew id .empty, .id id)
  | [] =>
      ({ s with nextID := s.nextID + 1 }.insertNew s.nextID .empty, .id s.nextID)

def posetDelete (s : State) (id : PosetID) : State × Result :=
  match s.allPosets id with
  | some _ =>
      ({ s with
          availableIDs := s.availableIDs ++ [id]
          allPosets := Function.update s.allPosets id none }, .unit)
  | none => (s, .unit)

def posetSize (s : State) (id : PosetID) : State × Result :=
  match s.allPosets id with
  | some p => (s, .size p.names.length)
  | none => (s, .size 0)

/-- What `poset_insert` and `poset_remove` share: the checks of the name and of
the identifier around the operation itself. -/
def withElem (op : Poset → PosetElem → Poset × Bool) (s : State) (id : PosetID)
    (value : Option PosetElem) : State × Result :=
  match value, s.allPosets id with
  | some value, some p =>
      let (p', b) := op p value
      (s.assign id p', .bool b)
  | _, _ => (s, .bool false)

def posetInsert : State → PosetID → Option PosetElem → State × Result :=
  withElem Poset.insert

def posetRemove : State → PosetID → Option PosetElem → State × Result :=
  withElem Poset.remove

/-- What `poset_add` and `poset_del` share. -/
def withPair (op : Poset → PosetElem → PosetElem → Poset × Bool) (s : State)
    (id : PosetID) (value1 value2 : Option PosetElem) : State × Result :=
  match value1, value2, s.allPosets id with
  | some value1, some value2, some p =>
      let (p', b) := op p value1 value2
      (s.assign id p', .bool b)
  | _, _, _ => (s, .bool false)

def posetAdd : State → PosetID → Option PosetElem → Option PosetElem → State × Result :=
  withPair Poset.add

def posetDel : State → PosetID → Option PosetElem → Option PosetElem → State × Result :=
  withPair Poset.del

def posetTest (s : State) (id : PosetID) (value1 value2 : Option PosetElem) :
    State × Result :=
  match value1, value2, s.allPosets id with
  | some value1, some value2, some p => (s, .bool (p.test value1 value2))
  | _, _, _ => (s, .bool false)

def posetClear (s : State) (id : PosetID) : State × Result :=
  match s.allPosets id with
  | some _ => (s.assign id .empty, .unit)
  | none => (s, .unit)

inductive Call where
  | new
  | delete (id : PosetID)
  | size (id : PosetID)
  | insert (id : PosetID) (value : Option PosetElem)
  | remove (id : PosetID) (value : Option PosetElem)
  | add (id : PosetID) (value1 value2 : Option PosetElem)
  | del (id : PosetID) (value1 value2 : Option PosetElem)
  | test (id : PosetID) (value1 value2 : Option PosetElem)
  | clear (id : PosetID)
  deriving DecidableEq, Repr

def step (s : State) : Call → State × Result
  | .new => posetNew s
  | .delete id => posetDelete s id
  | .size id => posetSize s id
  | .insert id value => posetInsert s id value
  | .remove id value => posetRemove s id value
  | .add id value1 value2 => posetAdd s id value1 value2
  | .del id value1 value2 => posetDel s id value1 value2
  | .test id value1 value2 => posetTest s id value1 value2
  | .clear id => posetClear s id

def after (history : List Call) : State := (calls step .initial history).1

end Mimuw.Posets
