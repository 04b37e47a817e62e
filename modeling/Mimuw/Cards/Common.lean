import Mathlib

/-!
# Seats, cards and their text

What both sides of the card game share: `network_utility` and `card_values`.
Strings are lists of characters.
-/

namespace Mimuw.Cards

abbrev Str := List Char

abbrev Seat := Fin 4

instance fourSeats : NeZero 4 := ⟨Nat.succ_ne_zero 3⟩

/-- `none` stands for -1. -/
def charToIndex : Char → Option Seat
  | 'N' => some 0
  | 'E' => some 1
  | 'S' => some 2
  | 'W' => some 3
  | _ => none

def indexToChar : Seat → Char
  | 0 => 'N'
  | 1 => 'E'
  | 2 => 'S'
  | 3 => 'W'

def checkSuit (suit : Char) : Bool := suit ∈ ['C', 'D', 'H', 'S']

def checkPosition (position : Char) : Bool := position ∈ ['N', 'E', 'S', 'W']

/-- `card_values` -/
def cardValue (value : Str) : Option Nat :=
  match value with
  | ['2'] => some 2
  | ['3'] => some 3
  | ['4'] => some 4
  | ['5'] => some 5
  | ['6'] => some 6
  | ['7'] => some 7
  | ['8'] => some 8
  | ['9'] => some 9
  | ['1', '0'] => some 10
  | ['J'] => some 11
  | ['Q'] => some 12
  | ['K'] => some 13
  | ['A'] => some 14
  | _ => none

/-- The pattern `(10|[2-9JQKA])([CDHS])` at the beginning of a string. -/
def matchCard : Str → Option (Str × Char)
  | '1' :: '0' :: suit :: _ => if checkSuit suit then some (['1', '0'], suit) else none
  | value :: suit :: _ =>
      if value ∈ ['2', '3', '4', '5', '6', '7', '8', '9', 'J', 'Q', 'K', 'A'] ∧ checkSuit suit then
        some ([value], suit)
      else none
  | _ => none

/-- What the loop around `regex_search` finds; the counter is the number of
characters that still belong to the last match. -/
def cardMatchesFrom : Nat → Str → List (Str × Char)
  | _, [] => []
  | skip + 1, _ :: s => cardMatchesFrom skip s
  | 0, c :: s =>
      match matchCard (c :: s) with
      | some (value, suit) => (value, suit) :: cardMatchesFrom value.length s
      | none => cardMatchesFrom 0 s

def cardMatches (s : Str) : List (Str × Char) := cardMatchesFrom 0 s

def splitCards (s : Str) : List Str := (cardMatches s).map fun (value, suit) => value ++ [suit]

/-- `true` stands for 0. -/
def checkCorrectness (cards : List Str) (maxSize : Nat) : Bool :=
  decide (cards.length ≤ maxSize) && cards.all fun card =>
    (card.getLast?.any checkSuit) && (cardValue card.dropLast).isSome

/-- `std::stoull`: blanks, a sign, and as many digits as there are. -/
def stoull (s : Str) : Option Nat :=
  let s := s.dropWhile fun c => c ∈ [' ', '\t', '\n', '\x0b', '\x0c', '\x0d']
  let (negative, s) := match s with
    | '-' :: s => (true, s)
    | '+' :: s => (false, s)
    | s => (false, s)
  let digits := s.takeWhile Char.isDigit
  let value := digits.foldl (fun n c => 10 * n + (c.toNat - '0'.toNat)) 0
  if digits = [] ∨ 2 ^ 64 ≤ value then none
  else some (if negative then (2 ^ 64 - value) % 2 ^ 64 else value)

/-- `none` when the conversion throws. -/
def safeStoi (s : Str) : Option Nat := stoull s

/-- `std::to_string` -/
def toStr (n : Nat) : Str := Nat.toDigits 10 n

/-! ## Cards -/

inductive Suit where
  | clubs
  | diamonds
  | hearts
  | spades
  deriving DecidableEq, Repr

def Suit.char : Suit → Char
  | clubs => 'C'
  | diamonds => 'D'
  | hearts => 'H'
  | spades => 'S'

def values : List Str :=
  [['2'], ['3'], ['4'], ['5'], ['6'], ['7'], ['8'], ['9'], ['1', '0'], ['J'], ['Q'], ['K'], ['A']]

structure PlayingCard where
  value : Str
  suit : Suit
  valid : value ∈ values
  deriving DecidableEq

def suitHand (suit : Suit) : List PlayingCard :=
  values.attach.map fun value => ⟨value.val, suit, value.property⟩

def PlayingCard.text (card : PlayingCard) : Str := card.value ++ [card.suit.char]

def cardsText (cards : List PlayingCard) : Str := (cards.map PlayingCard.text).flatten

theorem Suit.char_injective : Function.Injective Suit.char := by
  intro a b h
  cases a <;> cases b <;> first | rfl | cases h

theorem PlayingCard.text_injective : Function.Injective PlayingCard.text := by
  intro a b h
  obtain ⟨hvalue, hsuit⟩ := List.append_inj' h rfl
  have hsuit' := Suit.char_injective (List.singleton_inj.mp hsuit)
  cases a
  cases b
  simp_all

@[simp] theorem checkSuit_char (suit : Suit) : checkSuit suit.char = true := by
  cases suit <;> rfl

@[simp] theorem charToIndex_indexToChar (seat : Seat) :
    charToIndex (indexToChar seat) = some seat := by
  fin_cases seat <;> rfl

theorem indexToChar_injective : Function.Injective indexToChar := by
  intro seat seat' h
  have hindex := congrArg charToIndex h
  rwa [charToIndex_indexToChar, charToIndex_indexToChar, Option.some.injEq] at hindex

@[simp] theorem checkPosition_indexToChar (seat : Seat) :
    checkPosition (indexToChar seat) = true := by
  fin_cases seat <;> rfl

theorem cardValue_isSome {value : Str} (h : value ∈ values) : (cardValue value).isSome := by
  revert value
  decide

private theorem matchCard_text (card : PlayingCard) (rest : Str) :
    matchCard (card.text ++ rest) = some (card.value, card.suit.char) := by
  obtain ⟨value, suit, h⟩ := card
  simp only [values, List.mem_cons, List.not_mem_nil, or_false] at h
  rcases h with rfl | rfl | rfl | rfl | rfl | rfl | rfl | rfl | rfl | rfl | rfl | rfl | rfl <;>
    cases suit <;> rfl

private theorem cardMatchesFrom_skip (skipped rest : Str) :
    cardMatchesFrom skipped.length (skipped ++ rest) = cardMatches rest := by
  induction skipped with
  | nil => rfl
  | cons c skipped ih => exact ih

private theorem cardMatches_text (card : PlayingCard) (rest : Str) :
    cardMatches (card.text ++ rest) = (card.value, card.suit.char) :: cardMatches rest := by
  have hmatch := matchCard_text card rest
  have hne : card.value ≠ [] := by
    intro hnil
    have := card.valid
    simp [hnil, values] at this
  obtain ⟨c, tail, hvalue⟩ := List.exists_cons_of_ne_nil hne
  have htext : card.text = c :: (tail ++ [card.suit.char]) := by
    rw [PlayingCard.text, hvalue, List.cons_append]
  have hlength : card.value.length = (tail ++ [card.suit.char]).length := by simp [hvalue]
  rw [htext, List.cons_append] at hmatch ⊢
  rw [cardMatches, cardMatchesFrom, hmatch]
  simp only
  rw [hlength, cardMatchesFrom_skip]

theorem cardMatches_cardsText (cards : List PlayingCard) :
    cardMatches (cardsText cards) = cards.map fun card => (card.value, card.suit.char) := by
  induction cards with
  | nil => rfl
  | cons card cards ih =>
      rw [cardsText, List.map_cons, List.flatten_cons, cardMatches_text, List.map_cons]
      exact congrArg _ ih

private theorem exists_suit {c : Char} (h : checkSuit c) : ∃ suit : Suit, suit.char = c := by
  simp only [checkSuit, List.mem_cons, List.not_mem_nil, or_false, decide_eq_true_eq] at h
  rcases h with rfl | rfl | rfl | rfl
  · exact ⟨.clubs, rfl⟩
  · exact ⟨.diamonds, rfl⟩
  · exact ⟨.hearts, rfl⟩
  · exact ⟨.spades, rfl⟩

private theorem matchCard_card {s value : Str} {c : Char} (h : matchCard s = some (value, c)) :
    ∃ card : PlayingCard, card.value = value ∧ card.suit.char = c := by
  unfold matchCard at h
  split at h
  · split at h
    · rename_i hsuit
      obtain ⟨rfl, rfl⟩ := Prod.mk.inj (Option.some.inj h)
      obtain ⟨suit, hchar⟩ := exists_suit hsuit
      exact ⟨⟨['1', '0'], suit, by decide⟩, rfl, hchar⟩
    · cases h
  · split at h
    · rename_i v _ _ _ hmatch
      obtain ⟨rfl, rfl⟩ := Prod.mk.inj (Option.some.inj h)
      obtain ⟨suit, hchar⟩ := exists_suit hmatch.2
      have hvalue : [v] ∈ values := by
        have := hmatch.1
        simp only [List.mem_cons, List.not_mem_nil, or_false] at this
        simp only [values, List.mem_cons, List.cons.injEq, and_true, reduceCtorEq, and_false,
          List.not_mem_nil, or_false, false_or]
        tauto
      exact ⟨⟨[v], suit, hvalue⟩, rfl, hchar⟩
    · cases h
  · cases h

private theorem cardMatchesFrom_cards (skip : Nat) (s : Str) : ∃ cards : List PlayingCard,
    cardMatchesFrom skip s = cards.map fun card => (card.value, card.suit.char) := by
  induction s generalizing skip with
  | nil => exact ⟨[], by cases skip <;> rfl⟩
  | cons c s ih =>
      cases skip with
      | succ skip => exact ih skip
      | zero =>
          rw [cardMatchesFrom]
          split
          · rename_i value suit hmatch
            obtain ⟨card, rfl, rfl⟩ := matchCard_card hmatch
            obtain ⟨cards, hcards⟩ := ih card.value.length
            exact ⟨card :: cards, by rw [hcards, List.map_cons]⟩
          · exact ih 0

/-- Whatever a string is, only cards of the deck are found in it. -/
theorem cardMatches_cards (s : Str) : ∃ cards : List PlayingCard,
    cardMatches s = (cards.map fun card => (card.value, card.suit.char)) ∧
      splitCards s = cards.map PlayingCard.text := by
  obtain ⟨cards, hcards⟩ := cardMatchesFrom_cards 0 s
  refine ⟨cards, hcards, ?_⟩
  rw [splitCards, cardMatches, hcards, List.map_map]
  rfl

theorem splitCards_cardsText (cards : List PlayingCard) :
    splitCards (cardsText cards) = cards.map PlayingCard.text := by
  rw [splitCards, cardMatches_cardsText, List.map_map]
  rfl

theorem checkCorrectness_text {cards : List PlayingCard} {maxSize : Nat}
    (h : cards.length ≤ maxSize) : checkCorrectness (cards.map PlayingCard.text) maxSize := by
  simp only [checkCorrectness, List.length_map, h, decide_true, Bool.true_and, List.all_eq_true,
    List.mem_map]
  rintro _ ⟨card, -, rfl⟩
  simp [PlayingCard.text, cardValue_isSome card.valid]

end Mimuw.Cards
