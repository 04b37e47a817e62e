import Mathlib.Data.List.TakeWhile
import Mathlib.Tactic.Common
import Mimuw.Lib.Pattern

/-!
# The lines of the parking meter

A line orders a payment, with a plate and two times, or checks one, with a plate and
a time.  Times are between 8.00 and 20.00.
-/

namespace Mimuw.Parking

open RegularExpression Mimuw.Lib.Pattern

abbrev Str := List Char

/-- `hour_t`: minutes since midnight. -/
abbrev Hour := ℤ

def minutesInHour : Hour := 60

def minPaymentInMin : Hour := 10

def maxPaymentInMin : Hour := 719

def openingTimeMin : Hour := 480

def closingTimeMin : Hour := 1200

/-- What `\s` matches and `>>` skips. -/
def spaces : List Char := [' ', '\t', '\n', '\x0b', '\x0c', '\r']

/-- `[A-Z]` -/
def between (lo hi : Char) : List Char :=
  (List.range' lo.toNat (hi.toNat + 1 - lo.toNat)).map Char.ofNat

/-- `[\s\t]*` -/
def blanks : RegularExpression Char := (oneOf spaces).star

/-- `[\s\t]+` -/
def gap : RegularExpression Char := oneOf spaces * blanks

/-- `[A-Z][A-Z0-9]{2,10}` -/
def plate : RegularExpression Char :=
  oneOf (between 'A' 'Z') * repeated (oneOf (between 'A' 'Z' ++ between '0' '9')) 2 10

/-- `0?[8-9]|1[0-9]` -/
def hours : RegularExpression Char :=
  opt (char '0') * oneOf (between '8' '9') + char '1' * oneOf (between '0' '9')

/-- `((0?[8-9]|1[0-9])\.[0-5][0-9]|20\.00)` -/
def time : RegularExpression Char :=
  hours * (char '.' * (oneOf (between '0' '5') * oneOf (between '0' '9'))) +
    char '2' * (char '0' * (char '.' * (char '0' * char '0')))

def validatePaymentLine (line : Str) : Bool :=
  (blanks * (plate * (gap * (time * (gap * (time * blanks)))))).rmatch line

def validateCheckingLine (line : Str) : Bool :=
  (blanks * (plate * (gap * (time * blanks)))).rmatch line

/-- `stoi`, of a string that begins with a digit. -/
def stoi (s : Str) : ℤ :=
  (s.takeWhile Char.isDigit).foldl (fun n c => 10 * n + (c.toNat - '0'.toNat : ℕ)) 0

/-- The hours are all but the last three characters, the minutes the last two. -/
def dateToMinutesPastMidnight (date : Str) : Hour :=
  minutesInHour * stoi (date.take (date.length - 3)) + stoi (date.drop (date.length - 2))

/-- `iss >> word`, with what is left of the line. -/
def nextWord (iss : Str) : Str × Str :=
  let rest := iss.dropWhile (· ∈ spaces)
  (rest.takeWhile (· ∉ spaces), rest.dropWhile (· ∉ spaces))

def parsePaymentLine (line : Str) : Str × Hour × Hour :=
  let (licensePlate, iss) := nextWord line
  let (firstDate, iss) := nextWord iss
  let (secondDate, _) := nextWord iss
  (licensePlate, dateToMinutesPastMidnight firstDate, dateToMinutesPastMidnight secondDate)

def parseCheckingLine (line : Str) : Str × Hour :=
  let (licensePlate, iss) := nextWord line
  let (date, _) := nextWord iss
  (licensePlate, dateToMinutesPastMidnight date)

example : parsePaymentLine " WA1234 8.05\t20.00".toList = ("WA1234".toList, 485, 1200) := by
  decide +kernel

/-! ## Lines that are accepted -/

private theorem forall_mem_of_all {letters : Str} {p : Char → Prop} [DecidablePred p]
    (h : (letters.all fun c => decide (p c)) = true) : ∀ c ∈ letters, p c := by
  simpa using h

section Words

variable {skipped word rest : Str}

private theorem nextWord_append (hskipped : skipped ⊆ spaces)
    (hword : word.Disjoint spaces) (hne : word ≠ [])
    (hrest : ∀ c ∈ rest.head?, c ∈ spaces) :
    nextWord (skipped ++ (word ++ rest)) = (word, rest) := by
  have hstart : (skipped ++ (word ++ rest)).dropWhile (· ∈ spaces) = word ++ rest := by
    rw [List.dropWhile_append_of_pos fun c hc => decide_eq_true (hskipped hc)]
    cases word with
    | nil => exact absurd rfl hne
    | cons c word =>
        have hc : c ∉ spaces := fun hc => hword List.mem_cons_self hc
        rw [List.cons_append, List.dropWhile_cons_of_neg (by simpa using hc)]
  have hall : ∀ c ∈ word, decide (c ∉ spaces) = true := fun c hc =>
    decide_eq_true fun hspace => hword hc hspace
  have hstop : rest.takeWhile (· ∉ spaces) = [] ∧ rest.dropWhile (· ∉ spaces) = rest := by
    cases rest with
    | nil => exact ⟨rfl, rfl⟩
    | cons c rest =>
        have hc : ¬ decide (c ∉ spaces) = true := by simpa using hrest c rfl
        exact ⟨List.takeWhile_cons_of_neg hc, List.dropWhile_cons_of_neg hc⟩
  simp only [nextWord]
  rw [hstart, List.takeWhile_append_of_pos hall, List.dropWhile_append_of_pos hall, hstop.1,
    hstop.2, List.append_nil]

private theorem subset_of_blanks (h : skipped ∈ blanks.matches') : skipped ⊆ spaces :=
  subset_of_star (fun _ => subset_of_oneOf) h

private theorem head_of_blanks (h : rest ∈ blanks.matches') : ∀ c ∈ rest.head?, c ∈ spaces :=
  fun _ hc =>
  subset_of_blanks h (List.mem_of_mem_head? hc)

private theorem subset_of_gap (h : skipped ∈ gap.matches') : skipped ⊆ spaces :=
  subset_of_mul (fun _ => subset_of_oneOf) (fun _ => subset_of_blanks) h

private theorem head_of_gap (h : skipped ∈ gap.matches') :
    ∀ c ∈ (skipped ++ rest).head?, c ∈ spaces := by
  rw [gap, matches'_mul] at h
  obtain ⟨u, hu, v, -, rfl⟩ := Language.mem_mul.mp h
  obtain ⟨a, ha, rfl⟩ := mem_oneOf.mp hu
  simpa using ha

private theorem word_of_plate (h : word ∈ plate.matches') : word.Disjoint spaces ∧ word ≠ [] := by
  have hletters : word ⊆ between 'A' 'Z' ++ between '0' '9' :=
    subset_of_mul (fun _ hu => List.Subset.trans (subset_of_oneOf hu) (List.subset_append_left _ _))
      (fun _ => subset_of_repeated fun _ => subset_of_oneOf) h
  refine ⟨fun c hc hspace => ?_, ?_⟩
  · have hnone : ∀ c ∈ between 'A' 'Z' ++ between '0' '9', c ∉ spaces :=
      forall_mem_of_all (by decide)
    exact hnone c (hletters hc) hspace
  · rw [plate, matches'_mul] at h
    obtain ⟨u, hu, v, -, rfl⟩ := Language.mem_mul.mp h
    obtain ⟨a, -, rfl⟩ := mem_oneOf.mp hu
    simp

private theorem mem_time (h : word ∈ time.matches') : ∃ hh a b, word = hh ++ ['.', a, b] ∧
    a ∈ between '0' '9' ∧ b ∈ between '0' '9' ∧
    (hh ∈ hours.matches' ∧ a ∈ between '0' '5' ∨ hh = ['2', '0'] ∧ a = '0' ∧ b = '0') := by
  simp only [time, matches'_add, matches'_mul, matches'_char, Language.mem_add,
    Language.mem_mul] at h
  rcases h with ⟨hh, hhh, _, ⟨_, rfl, _, ⟨u, hu, v, hv, rfl⟩, rfl⟩, rfl⟩ |
    ⟨_, rfl, _, ⟨_, rfl, _, ⟨_, rfl, _, ⟨_, rfl, _, rfl, rfl⟩, rfl⟩, rfl⟩, rfl⟩
  · obtain ⟨a, ha, rfl⟩ := mem_oneOf.mp hu
    obtain ⟨b, hb, rfl⟩ := mem_oneOf.mp hv
    have hsub : ∀ c ∈ between '0' '5', c ∈ between '0' '9' := forall_mem_of_all (by decide)
    exact ⟨hh, a, b, rfl, hsub a ha, hb, .inl ⟨hhh, ha⟩⟩
  · exact ⟨['2', '0'], '0', '0', rfl, by decide, by decide, .inr ⟨rfl, rfl, rfl⟩⟩

private theorem mem_hours (h : word ∈ hours.matches') :
    word ⊆ between '0' '9' ∧ 8 ≤ stoi word ∧ stoi word ≤ 19 := by
  simp only [hours, matches'_add, matches'_mul, matches'_char, Language.mem_add, Language.mem_mul,
    mem_opt] at h
  rcases h with ⟨u, hu, v, hv, rfl⟩ | ⟨_, rfl, v, hv, rfl⟩
  · obtain ⟨a, ha, rfl⟩ := mem_oneOf.mp hv
    rcases hu with rfl | hu
    · revert a
      exact forall_mem_of_all (by decide)
    · obtain rfl : u = ['0'] := hu
      revert a
      exact forall_mem_of_all (by decide)
  · obtain ⟨a, ha, rfl⟩ := mem_oneOf.mp hv
    revert a
    exact forall_mem_of_all (by decide)

private theorem stoi_minutes {a b : Char} (ha : a ∈ between '0' '5') (hb : b ∈ between '0' '9') :
    0 ≤ stoi [a, b] ∧ stoi [a, b] ≤ 59 := by
  have hall : ∀ a ∈ between '0' '5', ((between '0' '9').all fun b =>
      decide (0 ≤ stoi [a, b] ∧ stoi [a, b] ≤ 59)) = true := forall_mem_of_all (by decide)
  exact forall_mem_of_all (hall a ha) b hb

private theorem word_of_time (h : word ∈ time.matches') : word.Disjoint spaces ∧ word ≠ [] := by
  obtain ⟨hh, a, b, rfl, ha, hb, hcase⟩ := mem_time h
  have hdigits : hh ⊆ between '0' '9' := by
    rcases hcase with ⟨hhh, -⟩ | ⟨rfl, -⟩
    · exact (mem_hours hhh).1
    · decide
  have hletters : hh ++ ['.', a, b] ⊆ '.' :: between '0' '9' := by
    refine List.append_subset.mpr ⟨List.subset_cons_of_subset _ hdigits, ?_⟩
    simp [ha, hb]
  refine ⟨fun c hc hspace => ?_, by simp⟩
  have hnone : ∀ c ∈ '.' :: between '0' '9', c ∉ spaces := forall_mem_of_all (by decide)
  exact hnone c (hletters hc) hspace

theorem open_of_time (h : word ∈ time.matches') :
    openingTimeMin ≤ dateToMinutesPastMidnight word ∧
      dateToMinutesPastMidnight word ≤ closingTimeMin := by
  obtain ⟨hh, a, b, rfl, ha, hb, hcase⟩ := mem_time h
  have hhours : (hh ++ ['.', a, b]).take ((hh ++ ['.', a, b]).length - 3) = hh := by simp
  have hminutes : (hh ++ ['.', a, b]).drop ((hh ++ ['.', a, b]).length - 2) = [a, b] := by
    have hlength : (hh ++ ['.', a, b]).length - 2 = hh.length + 1 := by simp
    rw [hlength, List.drop_append]
    simp
  rw [dateToMinutesPastMidnight, hhours, hminutes]
  rcases hcase with ⟨hhh, ha⟩ | ⟨rfl, rfl, rfl⟩
  · obtain ⟨-, hlo, hhi⟩ := mem_hours hhh
    obtain ⟨hlo', hhi'⟩ := stoi_minutes ha hb
    constructor
    · change (480 : ℤ) ≤ 60 * stoi hh + stoi [a, b]
      omega
    · change 60 * stoi hh + stoi [a, b] ≤ (1200 : ℤ)
      omega
  · decide

end Words

section Lines

variable {line : Str}

private theorem words_of_validatePaymentLine (h : validatePaymentLine line = true) :
    ∃ p ∈ plate.matches', ∃ first ∈ time.matches', ∃ second ∈ time.matches', ∃ u v w,
      nextWord line = (p, u) ∧ nextWord u = (first, v) ∧ nextWord v = (second, w) := by
  simp only [validatePaymentLine, rmatch_iff_matches', matches'_mul, Language.mem_mul] at h
  obtain ⟨u, hu, _, ⟨p, hp, _,
    ⟨v, hv, _, ⟨first, hfirst, _, ⟨w, hw, _, ⟨second, hsecond, x, hx, rfl⟩,
    rfl⟩, rfl⟩, rfl⟩, rfl⟩, rfl⟩ := h
  obtain ⟨hpword, hpne⟩ := word_of_plate hp
  obtain ⟨hfword, hfne⟩ := word_of_time hfirst
  obtain ⟨hsword, hsne⟩ := word_of_time hsecond
  exact ⟨p, hp, first, hfirst, second, hsecond, _, _, _,
    nextWord_append (subset_of_blanks hu) hpword hpne (head_of_gap hv),
    nextWord_append (subset_of_gap hv) hfword hfne (head_of_gap hw),
    nextWord_append (subset_of_gap hw) hsword hsne (head_of_blanks hx)⟩

private theorem words_of_validateCheckingLine (h : validateCheckingLine line = true) :
    ∃ p ∈ plate.matches', ∃ date ∈ time.matches', ∃ u v,
      nextWord line = (p, u) ∧ nextWord u = (date, v) ∧ v ⊆ spaces := by
  simp only [validateCheckingLine, rmatch_iff_matches', matches'_mul, Language.mem_mul] at h
  obtain ⟨u, hu, _, ⟨p, hp, _, ⟨v, hv, _, ⟨date, hdate, x, hx, rfl⟩, rfl⟩, rfl⟩, rfl⟩ := h
  obtain ⟨hpword, hpne⟩ := word_of_plate hp
  obtain ⟨hdword, hdne⟩ := word_of_time hdate
  exact ⟨p, hp, date, hdate, _, x,
    nextWord_append (subset_of_blanks hu) hpword hpne (head_of_gap hv),
    nextWord_append (subset_of_gap hv) hdword hdne (head_of_blanks hx), subset_of_blanks hx⟩

theorem parse_of_validatePaymentLine (h : validatePaymentLine line = true) :
    ∃ p ∈ plate.matches', ∃ first ∈ time.matches', ∃ second ∈ time.matches', parsePaymentLine line =
      (p, dateToMinutesPastMidnight first, dateToMinutesPastMidnight second) := by
  obtain ⟨p, hp, first, hfirst, second, hsecond, u, v, w, hu, hv, hw⟩ :=
    words_of_validatePaymentLine h
  exact ⟨p, hp, first, hfirst, second, hsecond, by simp only [parsePaymentLine, hu, hv, hw]⟩

theorem parse_of_validateCheckingLine (h : validateCheckingLine line = true) :
    ∃ p ∈ plate.matches', ∃ date ∈ time.matches',
      parseCheckingLine line = (p, dateToMinutesPastMidnight date) := by
  obtain ⟨p, hp, date, hdate, u, v, hu, hv, -⟩ := words_of_validateCheckingLine h
  exact ⟨p, hp, date, hdate, by simp only [parseCheckingLine, hu, hv]⟩

/-- No line is of both kinds. -/
theorem validatePaymentLine_of_validateCheckingLine (h : validateCheckingLine line = true) :
    validatePaymentLine line = false := by
  rw [← Bool.not_eq_true]
  intro hpay
  obtain ⟨p, -, date, -, u, v, hu, hv, hblank⟩ := words_of_validateCheckingLine h
  obtain ⟨p', -, first, -, second, hsecond, u', v', w, hu', hv', hw⟩ :=
    words_of_validatePaymentLine hpay
  obtain rfl : u = u' := congrArg Prod.snd (hu.symm.trans hu')
  obtain rfl : v = v' := congrArg Prod.snd (hv.symm.trans hv')
  have hempty : v.dropWhile (· ∈ spaces) = [] :=
    List.dropWhile_eq_nil_iff.mpr fun c hc => decide_eq_true (hblank hc)
  have hsecondEq : second = [] := by
    have hword := congrArg Prod.fst hw
    simp only [nextWord, hempty, List.takeWhile_nil] at hword
    exact hword.symm
  exact (word_of_time hsecond).2 hsecondEq

end Lines

end Mimuw.Parking
