import Mimuw.Cards.Server
import Mimuw.Cards.Wire

/-!
# The card of a trick

What `receive_trick_message` of the server adds to a trick.  The text of the card is
parsed again by `add_card_to_cards`.
-/

namespace Mimuw.Cards

/-- The trick after a message; `none` is undefined behaviour. -/
def trickAfter (index : Nat) (currentTrick : Trick) (message : Str) : Option Trick :=
  match receiveTrickMessage message index with
  | .card cards => currentTrick.addCardToCards cards
  | .closed | .wrong => some currentTrick

/-! ## The number of a trick -/

/-- The value of some digits, as `stoull` computes it. -/
def digitsValue (digits : Str) : Nat :=
  digits.foldl (fun n c => 10 * n + (c.toNat - '0'.toNat)) 0

/-- What `stoull` does after the blanks and the sign. -/
def readDigits (negative : Bool) (s : Str) : Option Nat :=
  if s.takeWhile Char.isDigit = [] ∨ 2 ^ 64 ≤ digitsValue (s.takeWhile Char.isDigit) then none
  else
    some (if negative then (2 ^ 64 - digitsValue (s.takeWhile Char.isDigit)) % 2 ^ 64
      else digitsValue (s.takeWhile Char.isDigit))

private theorem stoull_eq (s : Str) : ∃ blanks t, s = blanks ++ t ∧ (stoull s = readDigits false t ∨
    ∃ sign t', t = sign :: t' ∧ ∃ negative, stoull s = readDigits negative t') := by
  refine ⟨_, _, (List.takeWhile_append_dropWhile
    (p := fun c => decide (c ∈ [' ', '\t', '\n', '\x0b', '\x0c', '\x0d'])) (l := s)).symm, ?_⟩
  unfold stoull
  generalize s.dropWhile (fun c => decide (c ∈ [' ', '\t', '\n', '\x0b', '\x0c', '\x0d'])) = t
  match t with
  | [] => exact .inl rfl
  | c :: t =>
      by_cases hminus : c = '-'
      · subst hminus
        exact .inr ⟨'-', t, rfl, true, rfl⟩
      · by_cases hplus : c = '+'
        · subst hplus
          exact .inr ⟨'+', t, rfl, false, rfl⟩
        · left
          simp only
          split
          · exact absurd (List.cons.inj ‹_›).1 hminus
          · exact absurd (List.cons.inj ‹_›).1 hplus
          · rfl

private theorem mem_digits {c : Char} (h : c.isDigit) :
    c ∈ ['0', '1', '2', '3', '4', '5', '6', '7', '8', '9'] := by
  have hrange : 48 ≤ c.toNat ∧ c.toNat ≤ 57 := Char.isDigit_iff_toNat.mp h
  obtain ⟨hlow, hhigh⟩ := hrange
  rw [← Char.ofNat_toNat c]
  generalize c.toNat = n at hlow hhigh
  interval_cases n <;> decide

private theorem digitsValue_short {digits : Str} (h : ∀ c ∈ digits, c.isDigit)
    (hlength : digits.length ≤ 1) :
    digitsValue digits ≤ 9 := by
  match digits with
  | [] => decide
  | [c] =>
      have hc := mem_digits (h c List.mem_cons_self)
      generalize c = c at hc
      fin_cases hc <;> decide
  | _ :: _ :: _ => simp at hlength

private theorem readDigits_some {negative : Bool} {s : Str} {n : Nat}
    (h : readDigits negative s = some n) :
    ∃ digits rest : Str, s = digits ++ rest ∧ digits ≠ [] ∧ (∀ c ∈ digits, c.isDigit) ∧
      digitsValue digits < 2 ^ 64 ∧
      n = if negative then (2 ^ 64 - digitsValue digits) % 2 ^ 64 else digitsValue digits := by
  refine ⟨_, _, (List.takeWhile_append_dropWhile (p := Char.isDigit) (l := s)).symm, ?_⟩
  unfold readDigits at h
  split at h
  · cases h
  · rename_i hdigits
    rw [not_or, not_le] at hdigits
    exact ⟨hdigits.1, fun c hc => List.mem_takeWhile_imp hc, hdigits.2, (Option.some.inj h).symm⟩

/-- After a sign, less than two digits do not give a number of a trick from 10 on, and
no digits give nothing. -/
private theorem readDigits_short {negative : Bool} {s : Str} {n : Nat}
    (h : readDigits negative s = some n) (hn : 10 ≤ n ∧ n ≤ 13) : 2 ≤ s.length := by
  obtain ⟨digits, rest, rfl, hne, hdigits, hlt, hvalue⟩ := readDigits_some h
  by_contra hlength
  rw [List.length_append] at hlength
  have hsmall := digitsValue_short hdigits (by omega)
  cases negative with
  | false => simp only [Bool.false_eq_true, if_false] at hvalue; omega
  | true => simp only [if_true] at hvalue; omega

/-- Of the strings of its length only the number itself is read as the number. -/
private theorem safeStoi_eq_iff {n : Nat} (hn : 1 ≤ n ∧ n ≤ 13) {s : Str}
    (hlength : s.length = numberLength n) : safeStoi s = some n ↔ s = toStr n := by
  constructor
  · intro h
    obtain ⟨blanks, t, rfl, hread⟩ := stoull_eq s
    rw [safeStoi] at h
    rw [h] at hread
    rw [List.length_append] at hlength
    by_cases hsmall : n < 10
    · rw [numberLength, if_pos hsmall] at hlength
      rcases hread with hread | ⟨sign, t', rfl, negative, hread⟩
      · obtain ⟨digits, rest, rfl, hne, hdigits, -, hvalue⟩ := readDigits_some hread.symm
        have hpos := List.length_pos_iff.mpr hne
        rw [List.length_append] at hlength
        obtain rfl : blanks = [] := List.eq_nil_of_length_eq_zero (by omega)
        obtain rfl : rest = [] := List.eq_nil_of_length_eq_zero (by omega)
        obtain ⟨c, rfl⟩ := List.length_eq_one_iff.mp (by omega : digits.length = 1)
        have hc := mem_digits (hdigits c List.mem_cons_self)
        simp only [Bool.false_eq_true, if_false] at hvalue
        subst hvalue
        fin_cases hc <;> decide
      · obtain ⟨digits, rest, rfl, hne, -, -, -⟩ := readDigits_some hread.symm
        have hpos := List.length_pos_iff.mpr hne
        simp only [List.length_cons, List.length_append] at hlength
        omega
    · rw [numberLength, if_neg hsmall] at hlength
      have hrange : 10 ≤ n ∧ n ≤ 13 := ⟨by omega, hn.2⟩
      rcases hread with hread | ⟨sign, t', rfl, negative, hread⟩
      · have htwo := readDigits_short hread.symm hrange
        obtain ⟨digits, rest, rfl, -, hdigits, -, hvalue⟩ := readDigits_some hread.symm
        simp only [Bool.false_eq_true, if_false] at hvalue
        have hlong : 2 ≤ digits.length := by
          by_contra hshort
          have := digitsValue_short hdigits (by omega)
          omega
        rw [List.length_append] at hlength
        obtain rfl : blanks = [] := List.eq_nil_of_length_eq_zero (by omega)
        obtain rfl : rest = [] := List.eq_nil_of_length_eq_zero (by omega)
        obtain ⟨a, b, rfl⟩ := List.length_eq_two.mp (by omega : digits.length = 2)
        have ha := mem_digits (hdigits a List.mem_cons_self)
        have hb := mem_digits (hdigits b (List.mem_cons_of_mem _ List.mem_cons_self))
        have hall : ∀ a ∈ ['0', '1', '2', '3', '4', '5', '6', '7', '8', '9'],
            ((['0', '1', '2', '3', '4', '5', '6', '7', '8', '9'] : Str).all fun b =>
              decide (10 ≤ digitsValue [a, b] → [a, b] = toStr (digitsValue [a, b]))) = true := by
          intro a ha
          fin_cases ha <;> decide
        have := List.all_eq_true.mp (hall a ha) b hb
        simpa [hvalue] using of_decide_eq_true this (hvalue ▸ hrange.1)
      · have htwo := readDigits_short hread.symm hrange
        simp only [List.length_cons] at hlength
        omega
  · rintro rfl
    obtain ⟨i, rfl⟩ := Nat.exists_eq_add_of_le' hn.1
    exact (toStr_trick (by omega : i < 13)).2

/-! ## Messages -/

/-- TRICK, the number and one card. -/
def IsPlay (n : Nat) (card : PlayingCard) (message : Str) : Prop :=
  message = ['T', 'R', 'I', 'C', 'K'] ++ toStr n ++ card.text

/-- What is to happen with a message: exactly the card of a play is added, and any
other message is refused. -/
structure AnsweredRight (n : Nat) (trick : Trick) (message : Str) : Prop where
  play : ∀ card, IsPlay n card message → trickAfter n trick message = some { trick with
    cardsString := trick.cardsString ++ card.text
    cards := trick.cards ++ [card.entry] }
  refuse : (∀ card, ¬ IsPlay n card message) →
    (receiveTrickMessage message n = .wrong ∨ receiveTrickMessage message n = .closed) ∧
      trickAfter n trick message = some trick

/-- The tests that refuse a message. -/
def Refused (n : Nat) (message : Str) : Prop :=
  message.length < 5 + numberLength n ∨
    (message.drop 5).take (numberLength n) ≠ toStr n ∨
    2 ≤ (splitCards (message.drop (5 + numberLength n))).length

instance (n : Nat) (message : Str) : Decidable (Refused n message) :=
  inferInstanceAs (Decidable (_ ∨ _ ∨ _))

private theorem checkCorrectness_found (s : Str) (maxSize : Nat) :
    checkCorrectness (splitCards s) maxSize = decide ((splitCards s).length ≤ maxSize) := by
  obtain ⟨cards, -, hsplit⟩ := cardMatches_cards s
  rw [hsplit, List.length_map]
  by_cases hle : cards.length ≤ maxSize
  · rw [checkCorrectness_text hle, decide_eq_true hle]
  · simp [checkCorrectness, hle]

section Answers

variable {n : Nat} {message : Str}

private theorem receiveTrickMessage_eq (hn : 1 ≤ n ∧ n ≤ 13) (message : Str) :
    receiveTrickMessage message n =
      if message.length < 5 + numberLength n then .closed
      else if Refused n message then .wrong
      else .card (message.drop (5 + numberLength n)) := by
  unfold receiveTrickMessage
  by_cases hshort : message.length < 5 + numberLength n
  · simp only [numberLength] at hshort ⊢
    simp [hshort]
  · have hfive : ¬ (message.length < 5 ∧ message.take 5 ≠ ['T', 'R', 'I', 'C', 'K']) := by omega
    have hlength : ((message.drop 5).take (numberLength n)).length = numberLength n := by
      rw [List.length_take, List.length_drop]
      omega
    have hstoi := safeStoi_eq_iff hn hlength
    rw [if_neg hfive]
    have hnumber : (if n < 10 then 1 else 2) = numberLength n := rfl
    simp only [hnumber, checkCorrectness_found, Refused, hshort, if_false, false_or]
    by_cases hcards : (splitCards (message.drop (5 + numberLength n))).length ≤ 1
    · have hfew : ¬ 2 ≤ (splitCards (message.drop (5 + numberLength n))).length := by omega
      simp only [hcards, decide_true, if_true, hfew, or_false]
      cases hread : safeStoi ((message.drop 5).take (numberLength n)) with
      | none =>
          have hne : (message.drop 5).take (numberLength n) ≠ toStr n := by
            intro heq
            rw [hstoi.mpr heq] at hread
            cases hread
          simp [hne]
      | some number =>
          rw [hread, Option.some.injEq] at hstoi
          by_cases hsame : number = n
          · simp [hsame, hstoi.mp hsame]
          · simp [hsame, mt hstoi.mpr hsame]
    · have hmany : 2 ≤ (splitCards (message.drop (5 + numberLength n))).length := by omega
      simp [hcards, hmany]

private theorem isPlay_parse (hn : 1 ≤ n ∧ n ≤ 13) {card : PlayingCard}
    (h : IsPlay n card message) :
    5 + numberLength n ≤ message.length ∧ (message.drop 5).take (numberLength n) = toStr n ∧
      message.drop (5 + numberLength n) = card.text := by
  obtain ⟨i, rfl⟩ := Nat.exists_eq_add_of_le' hn.1
  have hlength := (toStr_trick (by omega : i < 13)).1
  have hname : ['T', 'R', 'I', 'C', 'K'].length = 5 := rfl
  rw [IsPlay] at h
  subst h
  refine ⟨?_, ?_, ?_⟩
  · simp only [List.length_append, hname, hlength]
    omega
  · rw [List.append_assoc, List.drop_left' hname, List.take_left' hlength]
  · exact List.drop_left' (by rw [List.length_append, hname, hlength])

private theorem not_refused_of_isPlay (hn : 1 ≤ n ∧ n ≤ 13) {card : PlayingCard}
    (h : IsPlay n card message) :
    ¬ Refused n message := by
  obtain ⟨hlength, hnumber, hcards⟩ := isPlay_parse hn h
  have hfound : splitCards card.text = [card.text] := by
    simpa [cardsText] using splitCards_cardsText [card]
  simp [Refused, hnumber, hcards, hfound, hlength]

/-- A message is answered right exactly where it is a play, or a test refuses it. -/
theorem answeredRight_iff (hn : 1 ≤ n ∧ n ≤ 13) (trick : Trick) (message : Str) :
    AnsweredRight n trick message ↔ (∃ card, IsPlay n card message) ∨ Refused n message := by
  have hread := receiveTrickMessage_eq hn message
  constructor
  · intro h
    by_contra hnot
    rw [not_or, not_exists] at hnot
    obtain ⟨hplay, hrefused⟩ := hnot
    have hlong : ¬ message.length < 5 + numberLength n := fun hshort => hrefused (.inl hshort)
    rw [if_neg hlong, if_neg hrefused] at hread
    have hrefuse := (h.refuse hplay).1
    simp [hread] at hrefuse
  · rintro (⟨card, hplay⟩ | hrefused)
    · obtain ⟨hlength, -, hcards⟩ := isPlay_parse hn hplay
      rw [if_neg (not_lt.mpr hlength), if_neg (not_refused_of_isPlay hn hplay), hcards] at hread
      refine ⟨fun card' hplay' => ?_, fun hnone => absurd hplay (hnone card)⟩
      have htext := hcards.symm.trans (isPlay_parse hn hplay').2.2
      rw [trickAfter, hread, ← PlayingCard.text_injective htext]
      exact Trick.addCardToCards_entry trick card
    · refine ⟨fun card hplay => absurd hrefused (not_refused_of_isPlay hn hplay), fun _ => ?_⟩
      rw [if_pos hrefused] at hread
      split at hread
      · exact ⟨.inr hread, by rw [trickAfter, hread]⟩
      · exact ⟨.inl hread, by rw [trickAfter, hread]⟩

end Answers

def otherWord : Str := "HELLO12C".toList

theorem answeredRight_otherWord : ¬ AnsweredRight 1 .new otherWord := by
  intro h
  have hcondition := (answeredRight_iff (n := 1) (by decide) .new otherWord).mp h
  rcases hcondition with ⟨card, hplay⟩ | hrefused
  · exact absurd (List.cons.inj hplay).1 (by decide)
  · exact absurd hrefused (by decide)

theorem other_word_accepted : ¬ ∀ n, 1 ≤ n ∧ n ≤ 13 → ∀ trick message,
    AnsweredRight n trick message := by
  intro h
  have hrefuse := (h 1 (by decide) .new otherWord).refuse fun card hplay =>
    absurd (List.cons.inj hplay).1 (by decide)
  exact absurd hrefuse.1 (by decide)

end Mimuw.Cards
