import Mathlib.Data.List.Lex
import Mathlib.Data.Prod.Lex
import Mathlib.Logic.Function.Basic
import Mathlib.Order.Fin.Basic
import Mimuw.Lib.OrderedSet
import Mimuw.Lib.Runs

/-!
# The college

A `std::shared_ptr` is the address of its object together with the `const` fields behind
it, which is all that the two comparators read.  What can change in an object is looked
up in the state.  The objects that a caller makes for itself are there from the start,
so that any pointer may be passed to any call.

Searching by patterns changes nothing and is in a module of its own.
-/

namespace Mimuw.College

open Mimuw.Lib

/-- `std::string`, whose `<` compares unsigned bytes. -/
abbrev Name := List (Fin 256)

structure CoursePtr where
  address : Nat
  name : Name
  deriving DecidableEq, Repr

/-- The dynamic type of a person. -/
inductive Kind where
  | student
  | teacher
  | phdStudent
  deriving DecidableEq, Repr

/-- The `T` of the templates, `Student` or `Teacher`; a `PhDStudent` is both. -/
inductive Role where
  | student
  | teacher
  deriving DecidableEq, Repr

/-- `std::dynamic_pointer_cast<T>` is not null. -/
def Kind.isA : Kind → Role → Bool
  | .student, .student => true
  | .teacher, .teacher => true
  | .phdStudent, _ => true
  | _, _ => false

structure PersonPtr where
  address : Nat
  name : Name
  surname : Name
  kind : Kind
  deriving DecidableEq, Repr

/-- `std::shared_ptr<T>`. -/
abbrev PtrTo (T : Role) := {person : PersonPtr // person.kind.isA T = true}

/-- `Student::active`, `Student::courses` and `Teacher::courses`. -/
structure Person where
  active : Bool
  courses : Role → List CoursePtr

def courseComparator (a b : CoursePtr) : Bool := a.name < b.name

def personComparator (a b : PersonPtr) : Bool :=
  if a.surname ≠ b.surname then a.surname < b.surname else a.name < b.name

/-- An entry of `courses`: the students enrolled and the teachers leading. -/
structure Entry where
  course : CoursePtr
  assigned : Role → List PersonPtr

def entryComparator (a b : Entry) : Bool := courseComparator a.course b.course

structure State where
  people : List PersonPtr
  courses : List Entry
  isActive : CoursePtr → Bool
  person : PersonPtr → Person
  nextAddress : Nat

/-- `College()` among objects of the caller's own. -/
def State.initial (isActive : CoursePtr → Bool) (person : PersonPtr → Person) : State :=
  ⟨[], [], isActive, person, 0⟩

inductive Result where
  | bool (b : Bool)
  | logicError (what : String)
  deriving DecidableEq, Repr

/-! ## Courses -/

/-- `courses.find(course)` -/
def State.findEntry (s : State) (course : CoursePtr) : Option Entry :=
  setFind? entryComparator ⟨course, fun _ => []⟩ s.courses

/-- The iterator that `courses.find(course)` gives, if it points to the very object. -/
def State.itsEntry (s : State) (course : CoursePtr) : Option Entry :=
  (s.findEntry course).filter fun entry => entry.course = course

def State.setActive (s : State) (course : CoursePtr) (active : Bool) : State :=
  { s with isActive := Function.update s.isActive course active }

/-- `std::make_shared<Course>(name, active)` is evaluated even if nothing is inserted. -/
def addCourse (s : State) (name : Name) (active : Bool) : State × Result :=
  let course : CoursePtr := ⟨s.nextAddress, name⟩
  let s := { s.setActive course active with nextAddress := s.nextAddress + 1 }
  let entry : Entry := ⟨course, fun _ => []⟩
  ({ s with courses := setInsert entryComparator entry s.courses },
    .bool (!setContains entryComparator entry s.courses))

def changeCourseActiveness (s : State) (course : CoursePtr) (active : Bool) : State × Result :=
  match s.itsEntry course with
  | some entry => (s.setActive entry.course active, .bool true)
  | none => (s, .bool false)

def removeCourse (s : State) (course : CoursePtr) : State × Result :=
  match s.findEntry course with
  | some entry =>
      let s := s.setActive entry.course false
      ({ s with courses := setErase entryComparator entry s.courses }, .bool true)
  | none => (s, .bool false)

/-- `find<T>(course)` -/
def State.find (s : State) (T : Role) (course : CoursePtr) : List PersonPtr :=
  match s.itsEntry course with
  | some entry => entry.assigned T
  | none => []

/-! ## People -/

/-- `*people.find(person) == person` -/
def State.hasPerson (s : State) (person : PersonPtr) : Bool :=
  setFind? personComparator person s.people == some person

/-- A `Teacher` has no `active`. -/
def addPerson (s : State) (kind : Kind) (name surname : Name) (active : Bool) : State × Result :=
  let person : PersonPtr := ⟨s.nextAddress, name, surname, kind⟩
  ({ s with
      people := setInsert personComparator person s.people
      person := Function.update s.person person ⟨active, fun _ => []⟩
      nextAddress := s.nextAddress + 1 },
    .bool (!setContains personComparator person s.people))

/-- The cast of what `people.find(student)` points to is never null: it is `student`. -/
def changeStudentActiveness (s : State) (student : PtrTo .student) (active : Bool) :
    State × Result :=
  if s.hasPerson student then
    ({ s with
        person := Function.update s.person student { s.person student with active := active } },
      .bool true)
  else (s, .bool false)

/-- The first of the tests of `assign_course` that fails, with its text. -/
def State.assignError (s : State) (T : Role) (person : PersonPtr) (course : CoursePtr) :
    Option String :=
  if !s.isActive course then some "Incorrect operation on an inactive course."
  else if (s.itsEntry course).isNone then some "Non-existing course."
  else if !s.hasPerson person then some "Non-existing person."
  else if T = .student && !(s.person person).active then
    some "Incorrect operation for an inactive student."
  else none

/-- `person->courses.insert(course)` -/
def State.hold (s : State) (T : Role) (person : PersonPtr) (course : CoursePtr) : State :=
  let old := s.person person
  { s with
    person := Function.update s.person person
      { old with
        courses := Function.update old.courses T
          (setInsert courseComparator course (old.courses T)) } }

/-- `course_it->second.first.insert(person)`, or `second.second` for a teacher. -/
def Entry.assign (entry : Entry) (T : Role) (person : PersonPtr) : Entry :=
  { entry with
    assigned := Function.update entry.assigned T
      (setInsert personComparator person (entry.assigned T)) }

def State.enrol (s : State) (T : Role) (person : PersonPtr) (course : CoursePtr) : State :=
  { s with
    courses := s.courses.map fun entry =>
      if entry.course = course then entry.assign T person else entry }

def assignCourse (s : State) (T : Role) (person : PtrTo T) (course : CoursePtr) :
    State × Result :=
  match s.assignError T person course with
  | some what => (s, .logicError what)
  | none =>
      let inserted := !setContains courseComparator course ((s.person person).courses T)
      ((s.hold T person course).enrol T person course, .bool inserted)

/-! ## Calls -/

inductive Call where
  | addCourse (name : Name) (active : Bool)
  | removeCourse (course : CoursePtr)
  | changeCourseActiveness (course : CoursePtr) (active : Bool)
  | addPerson (kind : Kind) (name surname : Name) (active : Bool)
  | changeStudentActiveness (student : PtrTo .student) (active : Bool)
  | assignCourse (T : Role) (person : PtrTo T) (course : CoursePtr)

def step (s : State) : Call → State × Result
  | .addCourse name active => addCourse s name active
  | .removeCourse course => removeCourse s course
  | .changeCourseActiveness course active => changeCourseActiveness s course active
  | .addPerson kind name surname active => addPerson s kind name surname active
  | .changeStudentActiveness student active => changeStudentActiveness s student active
  | .assignCourse T person course => assignCourse s T person course

end Mimuw.College
