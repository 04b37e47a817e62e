import Mimuw.College.Model

/-!
# Who attends a course

That somebody is assigned to a course is kept twice: with the course, among the pointers
ordered by name, and with the person, among the courses ordered by name.  The two agree as
long as no course is assigned to a person who still holds a removed course of that name.
-/

namespace Mimuw.College

open Mimuw.Lib

/-! ## The keys of the comparators -/

def PersonPtr.key (person : PersonPtr) : Name ×ₗ Name := toLex (person.surname, person.name)

def Entry.name (entry : Entry) : Name := entry.course.name

private theorem courseComparator_eq : courseComparator = keyLt CoursePtr.name := by
  funext a b
  exact decide_eq_decide.mpr Iff.rfl

private theorem entryComparator_eq : entryComparator = keyLt Entry.name := by
  funext a b
  exact decide_eq_decide.mpr Iff.rfl

private theorem personComparator_eq : personComparator = keyLt PersonPtr.key := by
  funext a b
  simp only [personComparator, keyLt, PersonPtr.key, Prod.Lex.toLex_lt_toLex]
  split
  next hne => simp [hne]
  next heq => simp [not_not.mp heq]

/-! ## The invariant -/

structure Inv (s : State) : Prop where
  people : SortedBy PersonPtr.key s.people
  courses : SortedBy Entry.name s.courses
  assigned : ∀ entry ∈ s.courses, ∀ T, SortedBy PersonPtr.key (entry.assigned T)
  known : ∀ entry ∈ s.courses, ∀ T, ∀ person ∈ entry.assigned T, person ∈ s.people
  held : ∀ person ∈ s.people, ∀ T, SortedBy CoursePtr.name ((s.person person).courses T)
  entry_lt : ∀ entry ∈ s.courses, entry.course.address < s.nextAddress
  person_lt : ∀ person ∈ s.people, person.address < s.nextAddress
  held_lt : ∀ person ∈ s.people, ∀ T, ∀ course ∈ (s.person person).courses T,
    course.address < s.nextAddress

/-- The courses of the college and its people tell the same. -/
def Agrees (s : State) : Prop :=
  ∀ T, ∀ entry ∈ s.courses, ∀ person ∈ s.people,
    person.kind.isA T = true →
      (person ∈ s.find T entry.course ↔ entry.course ∈ (s.person person).courses T)

/-- A person that a course is about to be assigned to holds no other course of its name. -/
def OnlyOfItsName (s : State) : Call → Prop
  | .assignCourse T person course =>
      s.assignError T person course = none →
        ∀ held ∈ (s.person person).courses T, held.name = course.name → held = course
  | _ => True

section Find

variable {s : State} {entry : Entry} {person : PersonPtr} {course : CoursePtr}

theorem Inv.findEntry_eq (h : Inv s) :
    s.findEntry course = some entry ↔ entry ∈ s.courses ∧ entry.course.name = course.name := by
  rw [State.findEntry, entryComparator_eq, setFind?_eq_some h.courses]
  rfl

theorem Inv.itsEntry_eq (h : Inv s) :
    s.itsEntry course = some entry ↔ entry ∈ s.courses ∧ entry.course = course := by
  simp only [State.itsEntry, Option.filter_eq_some_iff, h.findEntry_eq, decide_eq_true_eq]
  exact ⟨fun hentry => ⟨hentry.1.1, hentry.2⟩,
    fun hentry => ⟨⟨hentry.1, congrArg CoursePtr.name hentry.2⟩, hentry.2⟩⟩

private theorem Inv.find_eq (h : Inv s) (hentry : entry ∈ s.courses) (T : Role) :
    s.find T entry.course = entry.assigned T := by
  rw [State.find, h.itsEntry_eq.mpr ⟨hentry, rfl⟩]

private theorem Inv.hasPerson_iff (h : Inv s) : s.hasPerson person = true ↔ person ∈ s.people := by
  rw [State.hasPerson, beq_iff_eq, personComparator_eq, setFind?_eq_some h.people]
  exact and_iff_left rfl

private theorem agrees_iff (h : Inv s) :
    Agrees s ↔ ∀ T, ∀ entry ∈ s.courses, ∀ person ∈ s.people, person.kind.isA T = true →
      (person ∈ entry.assigned T ↔ entry.course ∈ (s.person person).courses T) := by
  refine forall_congr' fun T => forall₂_congr fun entry hentry => ?_
  rw [h.find_eq hentry T]

end Find

/-! ## What each call does -/

section Steps

variable {s : State}

theorem inv_initial (isActive : CoursePtr → Bool) (person : PersonPtr → Person) :
    Inv (.initial isActive person) := by
  constructor <;> first | exact .nil | exact fun _ hmem => absurd hmem List.not_mem_nil

private theorem agrees_initial (isActive : CoursePtr → Bool) (person : PersonPtr → Person) :
    Agrees (.initial isActive person) :=
  fun _ _ hentry => absurd hentry List.not_mem_nil

theorem Inv.setActive (h : Inv s) (course : CoursePtr) (active : Bool) :
    Inv (s.setActive course active) := ⟨h.1, h.2, h.3, h.4, h.5, h.6, h.7, h.8⟩

private theorem mem_courses_add (h : Inv s) {name : Name} {active : Bool} {entry : Entry}
    (hentry : entry ∈ (addCourse s name active).1.courses) :
    entry ∈ s.courses ∨ entry = ⟨⟨s.nextAddress, name⟩, fun _ => []⟩ := by
  simp only [addCourse, entryComparator_eq] at hentry
  exact ((mem_setInsert h.courses).mp hentry).imp_right And.left

private theorem inv_addCourse (h : Inv s) (name : Name) (active : Bool) :
    Inv (addCourse s name active).1 where
  people := h.people
  courses := by
    simp only [addCourse, entryComparator_eq]
    exact h.courses.setInsert
  assigned entry hentry T := by
    rcases mem_courses_add h hentry with hold | rfl
    · exact h.assigned entry hold T
    · exact .nil
  known entry hentry T person hperson := by
    rcases mem_courses_add h hentry with hold | rfl
    · exact h.known entry hold T person hperson
    · exact absurd hperson List.not_mem_nil
  held := h.held
  entry_lt entry hentry := by
    rcases mem_courses_add h hentry with hold | rfl
    · exact (h.entry_lt entry hold).trans (Nat.lt_succ_self _)
    · exact Nat.lt_succ_self _
  person_lt person hperson := (h.person_lt person hperson).trans (Nat.lt_succ_self _)
  held_lt person hperson T course hcourse :=
    (h.held_lt person hperson T course hcourse).trans (Nat.lt_succ_self _)

private theorem agrees_addCourse (h : Inv s) (hagrees : Agrees s) (name : Name) (active : Bool) :
    Agrees (addCourse s name active).1 := by
  rw [agrees_iff (inv_addCourse h name active)]
  rw [agrees_iff h] at hagrees
  intro T entry hentry person hperson hkind
  rcases mem_courses_add h hentry with hold | rfl
  · exact hagrees T entry hold person hperson hkind
  · refine iff_of_false List.not_mem_nil fun hheld => ?_
    exact (h.held_lt person hperson T _ hheld).false

private theorem mem_courses_remove {course : CoursePtr} {entry : Entry}
    (hentry : entry ∈ (removeCourse s course).1.courses) : entry ∈ s.courses := by
  unfold removeCourse at hentry
  split at hentry
  · exact (setErase_sublist _).subset hentry
  · exact hentry

private theorem inv_removeCourse (h : Inv s) (course : CoursePtr) :
    Inv (removeCourse s course).1 := by
  unfold removeCourse
  split
  next entry hfind =>
    have herase : ∀ other ∈ setErase entryComparator entry s.courses, other ∈ s.courses :=
      fun _ hother => (setErase_sublist _).subset hother
    exact {
      people := h.people
      courses := h.courses.sublist (setErase_sublist _)
      assigned := fun other hother => h.assigned other (herase other hother)
      known := fun other hother => h.known other (herase other hother)
      held := h.held
      entry_lt := fun other hother => h.entry_lt other (herase other hother)
      person_lt := h.person_lt
      held_lt := h.held_lt }
  · exact h

private theorem removeCourse_person (course : CoursePtr) :
    (removeCourse s course).1.people = s.people ∧
      (removeCourse s course).1.person = s.person := by
  unfold removeCourse
  split <;> exact ⟨rfl, rfl⟩

private theorem agrees_removeCourse (h : Inv s) (hagrees : Agrees s) (course : CoursePtr) :
    Agrees (removeCourse s course).1 := by
  rw [agrees_iff (inv_removeCourse h course)]
  rw [agrees_iff h] at hagrees
  obtain ⟨hpeople, hpersons⟩ := removeCourse_person (s := s) course
  rw [hpeople, hpersons]
  exact fun T entry hentry => hagrees T entry (mem_courses_remove hentry)

private theorem mem_people_add (h : Inv s) {kind : Kind} {name surname : Name} {active : Bool}
    {person : PersonPtr} (hperson : person ∈ (addPerson s kind name surname active).1.people) :
    person ∈ s.people ∨ person = ⟨s.nextAddress, name, surname, kind⟩ := by
  simp only [addPerson, personComparator_eq] at hperson
  exact ((mem_setInsert h.people).mp hperson).imp_right And.left

private theorem addPerson_person (h : Inv s) (kind : Kind) (name surname : Name) (active : Bool) :
    (∀ person ∈ s.people,
      (addPerson s kind name surname active).1.person person = s.person person) ∧
    ∀ T, ((addPerson s kind name surname active).1.person
      ⟨s.nextAddress, name, surname, kind⟩).courses T = [] := by
  refine ⟨fun person hperson => ?_, fun T => ?_⟩
  · refine Function.update_of_ne ?_ _ _
    rintro rfl
    exact (h.person_lt _ hperson).false
  · simp only [addPerson, Function.update_self]

private theorem inv_addPerson (h : Inv s) (kind : Kind) (name surname : Name) (active : Bool) :
    Inv (addPerson s kind name surname active).1 := by
  obtain ⟨hsame, hnew⟩ := addPerson_person h kind name surname active
  refine ⟨?_, h.courses, h.assigned, fun entry hentry T person hperson => ?_,
    fun person hperson T => ?_, fun entry hentry => ?_, fun person hperson => ?_,
    fun person hperson T course hcourse => ?_⟩
  · simp only [addPerson, personComparator_eq]
    exact h.people.setInsert
  · simp only [addPerson, personComparator_eq]
    exact (mem_setInsert h.people).mpr (.inl (h.known entry hentry T person hperson))
  · rcases mem_people_add h hperson with hold | rfl
    · rw [hsame person hold]
      exact h.held person hold T
    · rw [hnew T]
      exact .nil
  · exact (h.entry_lt entry hentry).trans (Nat.lt_succ_self _)
  · rcases mem_people_add h hperson with hold | rfl
    · exact (h.person_lt person hold).trans (Nat.lt_succ_self _)
    · exact Nat.lt_succ_self _
  · rcases mem_people_add h hperson with hold | rfl
    · rw [hsame person hold] at hcourse
      exact (h.held_lt person hold T course hcourse).trans (Nat.lt_succ_self _)
    · rw [hnew T] at hcourse
      cases hcourse

private theorem agrees_addPerson (h : Inv s) (hagrees : Agrees s) (kind : Kind)
    (name surname : Name) (active : Bool) : Agrees (addPerson s kind name surname active).1 := by
  obtain ⟨hsame, hnew⟩ := addPerson_person h kind name surname active
  rw [agrees_iff (inv_addPerson h kind name surname active)]
  rw [agrees_iff h] at hagrees
  intro T entry hentry person hperson hkind
  rcases mem_people_add h hperson with hold | rfl
  · rw [hsame person hold]
    exact hagrees T entry hentry person hold hkind
  · rw [hnew T]
    refine iff_of_false (fun hassigned => ?_) List.not_mem_nil
    exact (h.person_lt _ (h.known entry hentry T _ hassigned)).false

private theorem changeStudentActiveness_same (student : PtrTo .student) (active : Bool) :
    (changeStudentActiveness s student active).1.people = s.people ∧
      (changeStudentActiveness s student active).1.courses = s.courses ∧
      (changeStudentActiveness s student active).1.nextAddress = s.nextAddress ∧
      ∀ person, ((changeStudentActiveness s student active).1.person person).courses =
        (s.person person).courses := by
  unfold changeStudentActiveness
  split
  · refine ⟨rfl, rfl, rfl, fun person => ?_⟩
    simp only [Function.update_apply]
    split
    next heq => rw [heq]
    · rfl
  · exact ⟨rfl, rfl, rfl, fun _ => rfl⟩

theorem Inv.congr (h : Inv s) {t : State} (hpeople : t.people = s.people)
    (hcourses : t.courses = s.courses) (hnext : t.nextAddress = s.nextAddress)
    (hperson : ∀ person, (t.person person).courses = (s.person person).courses) : Inv t := by
  obtain ⟨people, courses, isActive, person, nextAddress⟩ := t
  obtain rfl := hpeople
  obtain rfl := hcourses
  obtain rfl := hnext
  exact ⟨h.1, h.2, h.3, h.4, fun p hp T => by rw [hperson]; exact h.held p hp T, h.6, h.7,
    fun p hp T => by rw [hperson]; exact h.held_lt p hp T⟩

theorem Agrees.congr (h : Inv s) (hagrees : Agrees s) {t : State} (hpeople : t.people = s.people)
    (hcourses : t.courses = s.courses) (hnext : t.nextAddress = s.nextAddress)
    (hperson : ∀ person, (t.person person).courses = (s.person person).courses) : Agrees t := by
  rw [agrees_iff (h.congr hpeople hcourses hnext hperson)]
  rw [agrees_iff h] at hagrees
  simp only [hpeople, hcourses, hperson]
  exact hagrees

end Steps

/-! ## Assigning a course -/

section Assign

variable {s : State} {T : Role} {person : PersonPtr} {course : CoursePtr}

private theorem assignError_eq_none (h : Inv s) (hnone : s.assignError T person course = none) :
    (∃ entry ∈ s.courses, entry.course = course) ∧ person ∈ s.people := by
  unfold State.assignError at hnone
  split at hnone
  · cases hnone
  · split at hnone
    · cases hnone
    next hentry =>
      split at hnone
      · cases hnone
      next hperson =>
        constructor
        · obtain ⟨entry, hfound⟩ :=
            Option.ne_none_iff_exists'.mp (mt Option.isNone_iff_eq_none.mpr hentry)
          exact ⟨entry, h.itsEntry_eq.mp hfound⟩
        · exact h.hasPerson_iff.mp (by simpa using hperson)

private theorem hold_courses (other : PersonPtr) (T' : Role) :
    ((s.hold T person course).person other).courses T' =
      if other = person ∧ T' = T then
        setInsert courseComparator course ((s.person person).courses T)
      else (s.person other).courses T' := by
  by_cases hother : other = person
  · subst hother
    by_cases hT : T' = T
    · subst hT
      simp [State.hold]
    · simp [State.hold, hT]
  · simp [State.hold, hother]

private theorem mem_enrol {entry : Entry} (hentry : entry ∈ (s.enrol T person course).courses) :
    ∃ old ∈ s.courses, entry.course = old.course ∧
      ∀ T', entry.assigned T' =
        if old.course = course ∧ T' = T then setInsert personComparator person (old.assigned T)
        else old.assigned T' := by
  obtain ⟨old, hold, rfl⟩ := List.mem_map.mp hentry
  refine ⟨old, hold, ?_, fun T' => ?_⟩
  · split <;> rfl
  · split
    next heq =>
      by_cases hT : T' = T
      · subst hT
        simp [heq, Entry.assign]
      · simp [heq, hT, Entry.assign]
    next hne => simp [hne]

private theorem inv_assign (h : Inv s) (hperson : person ∈ s.people)
    (hentry : ∃ entry ∈ s.courses, entry.course = course) :
    Inv ((s.hold T person course).enrol T person course) where
  people := h.people
  courses := by
    refine List.pairwise_map.mpr (h.courses.imp fun {a b} hab => ?_)
    have hname : ∀ entry : Entry, Entry.name
        (if entry.course = course then entry.assign T person else entry) = entry.name := by
      intro entry
      split <;> rfl
    rw [hname a, hname b]
    exact hab
  assigned entry hmem T' := by
    obtain ⟨old, hold, -, hassigned⟩ := mem_enrol hmem
    rw [hassigned T', personComparator_eq]
    split
    · exact (h.assigned old hold T).setInsert
    · exact h.assigned old hold T'
  known entry hmem T' other hother := by
    obtain ⟨old, hold, -, hassigned⟩ := mem_enrol hmem
    rw [hassigned T', personComparator_eq] at hother
    split at hother
    · rcases (mem_setInsert (h.assigned old hold T)).mp hother with hother | ⟨rfl, -⟩
      · exact h.known old hold T other hother
      · exact hperson
    · exact h.known old hold T' other hother
  held other hother T' := by
    change SortedBy CoursePtr.name (((s.hold T person course).person other).courses T')
    rw [hold_courses, courseComparator_eq]
    split
    · exact (h.held person hperson T).setInsert
    · exact h.held other hother T'
  entry_lt entry hmem := by
    obtain ⟨old, hold, hcourse, -⟩ := mem_enrol hmem
    rw [hcourse]
    exact h.entry_lt old hold
  person_lt := h.person_lt
  held_lt other hother T' held hheld := by
    change held ∈ ((s.hold T person course).person other).courses T' at hheld
    rw [hold_courses, courseComparator_eq] at hheld
    split at hheld
    · rcases (mem_setInsert (h.held person hperson T)).mp hheld with hheld | ⟨rfl, -⟩
      · exact h.held_lt person hperson T held hheld
      · obtain ⟨entry, hmem, rfl⟩ := hentry
        exact h.entry_lt entry hmem
    · exact h.held_lt other hother T' held hheld

/-- The person is enrolled, whatever he holds. -/
private theorem mem_assigned_enrol (h : Inv s) (hperson : person ∈ s.people) {old entry : Entry}
    (hold : old ∈ s.courses) {T' : Role} {other : PersonPtr}
    (hassigned : entry.assigned T' =
      if old.course = course ∧ T' = T then setInsert personComparator person (old.assigned T)
      else old.assigned T') :
    other ∈ entry.assigned T' ↔
      other ∈ old.assigned T' ∨ old.course = course ∧ T' = T ∧ other = person := by
  rw [hassigned, personComparator_eq]
  split
  next heq =>
    obtain ⟨hcourse, rfl⟩ := heq
    rw [mem_setInsert (h.assigned old hold T')]
    constructor
    · exact Or.imp_right fun hnew => ⟨hcourse, rfl, hnew.1⟩
    · rintro (hother | ⟨-, -, rfl⟩)
      · exact .inl hother
      · by_cases hin : other ∈ old.assigned T'
        · exact .inl hin
        · refine .inr ⟨rfl, fun z hz hkey => hin ?_⟩
          rwa [← h.people.eq_of_key_eq (h.known old hold T' z hz) hperson hkey]
  next hne =>
    rw [or_iff_left]
    exact fun hnew => hne ⟨hnew.1, hnew.2.1⟩

private theorem mem_courses_hold (h : Inv s) (hperson : person ∈ s.people) {T' : Role}
    {other : PersonPtr} {held : CoursePtr} :
    held ∈ ((s.hold T person course).person other).courses T' ↔
      held ∈ (s.person other).courses T' ∨ other = person ∧ T' = T ∧ held = course ∧
        ∀ z ∈ (s.person person).courses T, z.name ≠ course.name := by
  rw [hold_courses, courseComparator_eq]
  split
  next heq =>
    obtain ⟨rfl, rfl⟩ := heq
    rw [mem_setInsert (h.held other hperson T')]
    exact or_congr_right ⟨fun hnew => ⟨rfl, rfl, hnew⟩, fun hnew => hnew.2.2⟩
  next hne =>
    rw [or_iff_left]
    exact fun hnew => hne ⟨hnew.1, hnew.2.1⟩

/-- The two insertions go together exactly when the course is not kept out by another one. -/
private theorem agrees_assign_iff (h : Inv s) (hagrees : Agrees s)
    (hkind : person.kind.isA T = true)
    (hperson : person ∈ s.people) (hentry : ∃ entry ∈ s.courses, entry.course = course) :
    Agrees ((s.hold T person course).enrol T person course) ↔
      ∀ held ∈ (s.person person).courses T, held.name = course.name → held = course := by
  rw [agrees_iff (inv_assign h hperson hentry)]
  rw [agrees_iff h] at hagrees
  constructor
  · intro hagrees' held hheld hname
    obtain ⟨old, hold, rfl⟩ := hentry
    have hmem : old.assign T person ∈
        ((s.hold T person old.course).enrol T person old.course).courses := by
      have hmap := List.mem_map_of_mem hold
        (f := fun entry => if entry.course = old.course then entry.assign T person else entry)
      rwa [if_pos rfl] at hmap
    have hassigned : (old.assign T person).assigned T =
        if old.course = old.course ∧ T = T then setInsert personComparator person (old.assigned T)
        else old.assigned T := by
      rw [if_pos ⟨rfl, rfl⟩]
      exact Function.update_self ..
    have henrolled := (hagrees' T _ hmem person hperson hkind).mp
      ((mem_assigned_enrol h hperson hold hassigned).mpr (.inr ⟨rfl, rfl, rfl⟩))
    rcases (mem_courses_hold h hperson).mp henrolled with hin | ⟨-, -, -, hnone⟩
    · exact (h.held person hperson T).eq_of_key_eq hheld hin hname
    · exact absurd hname (hnone held hheld)
  · intro honly T' entry hmem other hother hkind'
    obtain ⟨old, hold, hcourse, hassigned⟩ := mem_enrol hmem
    change _ ↔ entry.course ∈ ((s.hold T person course).person other).courses T'
    rw [mem_assigned_enrol h hperson hold (hassigned T'), mem_courses_hold h hperson, hcourse,
      hagrees T' old hold other hother hkind']
    constructor
    · rintro (hin | ⟨heq, rfl, rfl⟩)
      · exact .inl hin
      · by_cases hin : old.course ∈ (s.person other).courses T'
        · exact .inl hin
        · refine .inr ⟨rfl, rfl, heq, fun z hz hname => hin ?_⟩
          rw [heq, ← honly z hz hname]
          exact hz
    · exact Or.imp_right fun ⟨heq, hT, hcourse', _⟩ => ⟨hcourse', hT, heq⟩

end Assign

/-! ## Any sequence of calls -/

theorem inv_step (s : State) (call : Call) (h : Inv s) : Inv (step s call).1 := by
  cases call with
  | addCourse name active => exact inv_addCourse h name active
  | removeCourse course => exact inv_removeCourse h course
  | changeCourseActiveness course active =>
      simp only [step, changeCourseActiveness]
      split
      · exact h.setActive _ active
      · exact h
  | addPerson kind name surname active => exact inv_addPerson h kind name surname active
  | changeStudentActiveness student active =>
      obtain ⟨hpeople, hcourses, hnext, hperson⟩ :=
        changeStudentActiveness_same (s := s) student active
      exact h.congr hpeople hcourses hnext hperson
  | assignCourse T person course =>
      simp only [step, assignCourse]
      split
      · exact h
      next hnone =>
        obtain ⟨hentry, hperson⟩ := assignError_eq_none h hnone
        exact inv_assign h hperson hentry

private theorem agrees_step (s : State) (call : Call) (h : Inv s) (hagrees : Agrees s) :
    Agrees (step s call).1 ↔ OnlyOfItsName s call := by
  cases call with
  | addCourse name active => exact iff_of_true (agrees_addCourse h hagrees name active) trivial
  | removeCourse course => exact iff_of_true (agrees_removeCourse h hagrees course) trivial
  | changeCourseActiveness course active =>
      refine iff_of_true ?_ trivial
      simp only [step, changeCourseActiveness]
      split <;> exact hagrees
  | addPerson kind name surname active =>
      exact iff_of_true (agrees_addPerson h hagrees kind name surname active) trivial
  | changeStudentActiveness student active =>
      obtain ⟨hpeople, hcourses, hnext, hperson⟩ :=
        changeStudentActiveness_same (s := s) student active
      exact iff_of_true (hagrees.congr h hpeople hcourses hnext hperson) trivial
  | assignCourse T person course =>
      simp only [step, assignCourse, OnlyOfItsName]
      split
      next hsome => exact iff_of_true hagrees fun hnone => absurd (hsome.symm.trans hnone) nofun
      next hnone =>
        obtain ⟨hentry, hperson⟩ := assignError_eq_none h hnone
        rw [agrees_assign_iff h hagrees person.2 hperson hentry]
        exact ⟨fun honly _ => honly, fun honly => honly hnone⟩

/-- The two records of who attends what agree in every state of a history exactly when
every course is assigned to people who hold no other course of its name. -/
theorem enrolment_agrees_iff (isActive : CoursePtr → Bool) (person : PersonPtr → Person)
    (history : List Call) :
    (∀ before, before <+: history →
      Agrees (calls step (.initial isActive person) before).1) ↔
      CallsMeet step OnlyOfItsName (.initial isActive person) history :=
  (callsMeet_iff_always inv_step agrees_step (inv_initial isActive person)
    (agrees_initial isActive person) history).symm

def reopened : List Call :=
  [.addCourse [65] true, .addPerson .student [66] [67] true,
    .assignCourse .student ⟨⟨1, [66], [67], .student⟩, rfl⟩ ⟨0, [65]⟩, .removeCourse ⟨0, [65]⟩,
    .addCourse [65] true, .assignCourse .student ⟨⟨1, [66], [67], .student⟩, rfl⟩ ⟨2, [65]⟩]

/-- The student is enrolled in the new course and does not hold it. -/
theorem not_agrees_reopened :
    let s := (calls step (.initial (fun _ => false) fun _ => ⟨false, fun _ => []⟩) reopened).1
    ⟨1, [66], [67], .student⟩ ∈ s.find .student ⟨2, [65]⟩ ∧
      ⟨2, [65]⟩ ∉ (s.person ⟨1, [66], [67], .student⟩).courses .student ∧ ¬ Agrees s := by
  intro s
  have henrolled : ⟨1, [66], [67], .student⟩ ∈ s.find .student ⟨2, [65]⟩ := by decide
  have hheld : ⟨2, [65]⟩ ∉ (s.person ⟨1, [66], [67], .student⟩).courses .student := by decide
  refine ⟨henrolled, hheld, fun hagrees => hheld ?_⟩
  have hcourse : ∃ entry ∈ s.courses, entry.course = ⟨2, [65]⟩ := by decide
  obtain ⟨entry, hentry, heq⟩ := hcourse
  have hperson : (⟨1, [66], [67], .student⟩ : PersonPtr) ∈ s.people := by decide
  rw [← heq] at henrolled ⊢
  exact (hagrees .student entry hentry _ hperson rfl).mp henrolled

end Mimuw.College
