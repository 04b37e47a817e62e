import Mathlib.Data.List.Forall2
import Mimuw.College.Enrolment

/-!
# What is looked up in a college

Courses and people are listed by patterns for their names. A single course is
looked up by its name too, and then it has to be the very object that was asked
for; `remove_course` is the one call that does not look.
-/

namespace Mimuw.College

open Mimuw.Lib

/-! ## Patterns -/

def asterisk : Fin 256 := ⟨42, by decide⟩

def questionMark : Fin 256 := ⟨63, by decide⟩

/-- `College::match`: a star is tried with every suffix, also with the whole of `check`, and is
then tried as a character of its own. -/
def matchPattern (check : Name) : (pattern : Name) → Bool
  | [] => check.isEmpty
  | p :: pattern =>
      if p = asterisk ∧
          (List.range (check.length + 1)).any fun i => matchPattern (check.drop i) pattern then
        true
      else
        match check with
        | [] => false
        | c :: rest => (p = questionMark || p = c) && matchPattern rest pattern

/-- The pieces that one character of a pattern stands for. -/
def PieceMatches (p : Fin 256) (piece : Name) : Prop :=
  if p = asterisk then True else if p = questionMark then piece.length = 1 else piece = [p]

def Splits (check pattern : Name) : Prop :=
  ∃ pieces : List Name, List.Forall₂ PieceMatches pattern pieces ∧ pieces.flatten = check

variable {check pattern : Name} {p : Fin 256}

private theorem splits_nil : Splits check [] ↔ check = [] := by
  simp only [Splits, List.forall₂_nil_left_iff, exists_eq_left, List.flatten_nil]
  exact eq_comm

private theorem splits_cons :
    Splits check (p :: pattern) ↔
      ∃ piece rest, PieceMatches p piece ∧ Splits rest pattern ∧ piece ++ rest = check := by
  constructor
  · rintro ⟨pieces, hpieces, rfl⟩
    cases hpieces with
    | cons hpiece hrest => exact ⟨_, _, hpiece, ⟨_, hrest, rfl⟩, rfl⟩
  · rintro ⟨piece, rest, hpiece, ⟨pieces, hpieces, rfl⟩, rfl⟩
    exact ⟨piece :: pieces, .cons hpiece hpieces, rfl⟩

private theorem splits_asterisk :
    Splits check (asterisk :: pattern) ↔ ∃ i ≤ check.length, Splits (check.drop i) pattern := by
  rw [splits_cons]
  constructor
  · rintro ⟨piece, rest, -, hrest, rfl⟩
    exact ⟨piece.length, by simp, by simpa using hrest⟩
  · rintro ⟨i, -, hrest⟩
    exact ⟨check.take i, check.drop i, by simp [PieceMatches], hrest, List.take_append_drop i check⟩

private theorem splits_single (hp : p ≠ asterisk) :
    Splits check (p :: pattern) ↔
      ∃ c rest, check = c :: rest ∧ (p = questionMark ∨ p = c) ∧ Splits rest pattern := by
  rw [splits_cons]
  constructor
  · rintro ⟨piece, rest, hpiece, hrest, rfl⟩
    rw [PieceMatches, if_neg hp] at hpiece
    split at hpiece
    next hany =>
      obtain ⟨c, rfl⟩ := List.length_eq_one_iff.mp hpiece
      exact ⟨c, rest, rfl, .inl hany, hrest⟩
    next => exact ⟨p, rest, by rw [hpiece]; rfl, .inr rfl, hrest⟩
  · rintro ⟨c, rest, rfl, hc, hrest⟩
    refine ⟨[c], rest, ?_, hrest, rfl⟩
    rw [PieceMatches, if_neg hp]
    split
    next => rfl
    next hne => rw [hc.resolve_left hne]

private theorem matchPattern_cons :
    matchPattern check (p :: pattern) =
      if p = asterisk ∧
          (List.range (check.length + 1)).any fun i => matchPattern (check.drop i) pattern then
        true
      else
        match check with
        | [] => false
        | c :: rest => (p = questionMark || p = c) && matchPattern rest pattern := by
  cases check <;> rfl

/-- A pattern matches exactly what can be cut into pieces for its characters. -/
theorem matchPattern_iff (check pattern : Name) :
    matchPattern check pattern = true ↔ Splits check pattern := by
  induction pattern generalizing check with
  | nil => simp [matchPattern, splits_nil]
  | cons p pattern ih =>
      have hstar : ((List.range (check.length + 1)).any fun i =>
          matchPattern (check.drop i) pattern) = true ↔
          ∃ i ≤ check.length, Splits (check.drop i) pattern := by
        simp [List.any_eq_true, ih]
      rw [matchPattern_cons]
      by_cases hp : p = asterisk
      · subst hp
        rw [splits_asterisk]
        split
        next hsplit => exact iff_of_true rfl (hstar.mp hsplit.2)
        next hnone =>
          -- the star itself in `check` is one of the pieces that were tried
          refine iff_of_false ?_ fun hsplit => hnone ⟨rfl, hstar.mpr hsplit⟩
          cases check with
          | nil => simp
          | cons c rest =>
              intro hmatch
              rw [Bool.and_eq_true, ih] at hmatch
              exact hnone ⟨rfl, hstar.mpr ⟨1, by simp, hmatch.2⟩⟩
      · rw [if_neg fun h => hp h.1, splits_single hp]
        cases check with
        | nil => simp
        | cons c rest => simp [ih]

/-- `find_courses`, in the order of the names. -/
def State.findCourses (s : State) (pattern : Name) : List CoursePtr :=
  (s.courses.map Entry.course).filter fun course => matchPattern course.name pattern

/-- `find<T>(name_pattern, surname_pattern)` -/
def State.findPeople (s : State) (isT : Kind → Bool) (namePattern surnamePattern : Name) :
    List PersonPtr :=
  s.people.filter fun person =>
    matchPattern person.name namePattern && matchPattern person.surname surnamePattern &&
      isT person.kind

theorem mem_findCourses {s : State} {course : CoursePtr} :
    course ∈ s.findCourses pattern ↔
      (∃ entry ∈ s.courses, entry.course = course) ∧ Splits course.name pattern := by
  simp [State.findCourses, matchPattern_iff]

theorem mem_findPeople {s : State} {isT : Kind → Bool} {person : PersonPtr}
    {namePattern surnamePattern : Name} :
    person ∈ s.findPeople isT namePattern surnamePattern ↔
      person ∈ s.people ∧ Splits person.name namePattern ∧ Splits person.surname surnamePattern ∧
        isT person.kind = true := by
  simp [State.findPeople, matchPattern_iff, and_assoc]

/-! ## Courses that are not of the college -/

/-- The calls about a course that is not of the college change nothing and say so. -/
structure Refuses (s : State) (course : CoursePtr) : Prop where
  activeness : ∀ active, changeCourseActiveness s course active = (s, .bool false)
  remove : removeCourse s course = (s, .bool false)
  assign : ∀ T (person : PtrTo T), ∃ what, assignCourse s T person course = (s, .logicError what)
  find : ∀ T, s.find T course = []

section Strangers

variable {s : State} {course : CoursePtr}

private theorem Inv.itsEntry_eq_none (h : Inv s)
    (hnot : ∀ entry ∈ s.courses, entry.course ≠ course) :
    s.itsEntry course = none := by
  refine Option.eq_none_iff_forall_not_mem.mpr fun entry hentry => ?_
  obtain ⟨hmem, heq⟩ := h.itsEntry_eq.mp hentry
  exact hnot entry hmem heq

private theorem Inv.findEntry_eq_none (h : Inv s) :
    s.findEntry course = none ↔ ∀ entry ∈ s.courses, entry.course.name ≠ course.name := by
  simp only [Option.eq_none_iff_forall_not_mem, Option.mem_def, h.findEntry_eq]
  grind

private theorem assignError_stranger (hnone : s.itsEntry course = none) (T : Role)
    (person : PersonPtr) :
    ∃ what, s.assignError T person course = some what := by
  cases hactive : s.isActive course with
  | false => exact ⟨_, by rw [State.assignError, hactive]; rfl⟩
  | true => exact ⟨_, by rw [State.assignError, hactive, hnone]; rfl⟩

/-- Only `remove_course` looks no further than the name. -/
private theorem Inv.refuses_iff (h : Inv s) (hnot : ∀ entry ∈ s.courses, entry.course ≠ course) :
    Refuses s course ↔ ∀ entry ∈ s.courses, entry.course.name ≠ course.name := by
  have hits := h.itsEntry_eq_none hnot
  rw [← h.findEntry_eq_none]
  constructor
  · rintro ⟨-, hremove, -, -⟩
    cases hfind : s.findEntry course with
    | none => rfl
    | some entry => simp [removeCourse, hfind] at hremove
  · intro hfind
    refine ⟨fun active => ?_, ?_, fun T person => ?_, fun T => ?_⟩
    · rw [changeCourseActiveness, hits]
    · rw [removeCourse, hfind]
    · obtain ⟨what, hwhat⟩ := assignError_stranger hits T person
      exact ⟨what, by rw [assignCourse, hwhat]⟩
    · rw [State.find, hits]

end Strangers

/-- In every college that can be reached, the calls about a course object that is not one of its
courses leave everything as it is exactly when no current course has the name of that object. -/
theorem strangers_refused_iff (isActive : CoursePtr → Bool) (person : PersonPtr → Person)
    (history : List Call) (course : CoursePtr) :
    let s := (calls step (.initial isActive person) history).1
    (∀ entry ∈ s.courses, entry.course ≠ course) →
      (Refuses s course ↔ ∀ entry ∈ s.courses, entry.course.name ≠ course.name) := by
  intro s hnot
  have hinv : Inv s := calls_invariant inv_step (inv_initial isActive person) history
  exact hinv.refuses_iff hnot

/-- Nothing of that name is there. -/
theorem strangers_refused_other_name :
    Refuses (calls step (.initial (fun _ => true) fun _ => ⟨true, fun _ => []⟩)
      [.addCourse [65] true]).1 ⟨7, [66]⟩ :=
  (strangers_refused_iff (fun _ => true) (fun _ => ⟨true, fun _ => []⟩) [.addCourse [65] true]
    ⟨7, [66]⟩ (by decide)).mpr (by decide)

/-- An object of the caller's own with the name of a course removes that course. -/
theorem namesake_removes :
    let s := (calls step (.initial (fun _ => true) fun _ => ⟨true, fun _ => []⟩)
      [.addCourse [65] true]).1
    (∀ entry ∈ s.courses, entry.course ≠ ⟨7, [65]⟩) ∧
      (removeCourse s ⟨7, [65]⟩).2 = .bool true ∧
      (removeCourse s ⟨7, [65]⟩).1.courses.length < s.courses.length ∧
      ¬ Refuses s ⟨7, [65]⟩ := by
  intro s
  have hremove : (removeCourse s ⟨7, [65]⟩).2 = .bool true := by decide
  refine ⟨by decide, hremove, by decide, fun hrefuses => ?_⟩
  rw [hrefuses.remove] at hremove
  cases hremove

end Mimuw.College
