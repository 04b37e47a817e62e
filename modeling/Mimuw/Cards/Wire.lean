import Mimuw.Cards.Replay
import Mimuw.Cards.Seating

/-!
# Messages on the wire

What the server writes to a client during a deal, and how the client takes it
apart again.  Nothing separates a number from the cards after it, or the cards
from the seat after them.
-/

namespace Mimuw.Cards

def trickMessage (trick : Trick) (index : Nat) : Str :=
  ['T', 'R', 'I', 'C', 'K'] ++ toStr index ++ trick.cardsString

/-- `std::to_string` of a signed number -/
def intToStr : Int → Str
  | .ofNat n => toStr n
  | .negSucc n => '-' :: toStr (n + 1)

def scoresText (scores : Seat → Int) : Str :=
  (List.finRange 4).flatMap fun p => indexToChar p :: intToStr (scores p)

def scoreMessage (scores : Seat → Int) : Str := ['S', 'C', 'O', 'R', 'E'] ++ scoresText scores

def totalMessage (scores : Seat → Int) : Str := ['T', 'O', 'T', 'A', 'L'] ++ scoresText scores

/-! ## What the client reads -/

namespace Client

/-- The number and the cards after the name of a message; `none` unless the number
is the one waited for. -/
def readNumbered (trickNumber : Nat) (message : Str) : Option Str :=
  if message.length < 5 + numberLength trickNumber then none
  else if safeStoi ((message.drop 5).take (numberLength trickNumber)) = some trickNumber then
    some (message.drop (5 + numberLength trickNumber))
  else none

/-- The checks of `receive_trick_message`: the cards as they came, and one by one. -/
def readTrick (trickNumber : Nat) (message : Str) : Option (Str × List Str) :=
  if message.length < 5 ∨ message.take 5 ≠ ['T', 'R', 'I', 'C', 'K'] then none
  else (readNumbered trickNumber message).bind fun cards =>
    if checkCorrectness (splitCards cards) 3 then some (cards, splitCards cards) else none

/-- The checks of `receive_taken_message`: who takes the trick, and its cards. -/
def readTaken (trickNumber : Nat) (message : Str) : Option (Char × List Str) :=
  if message.length < 5 ∨ message.take 5 ≠ ['T', 'A', 'K', 'E', 'N'] then none
  else
    message.getLast?.bind fun position =>
      if !checkPosition position then none
      else (readNumbered trickNumber message.dropLast).bind fun cards =>
        if (splitCards cards).length ≠ 4 ∨ !checkCorrectness (splitCards cards) 4 then none
        else some (position, splitCards cards)

/-- The inner loop of `receive_score_message`.  A place that is not one, or that has
a score already, and a place without a number are passed over. -/
def readScores (scores : Char → Option Nat) : Str → (Char → Option Nat)
  | [] => scores
  | position :: message =>
      if !checkPosition position then readScores scores message
      else if (scores position).isSome then readScores scores message
      else
        readScores
          (match safeStoi (message.takeWhile Char.isDigit) with
          | some score => Function.update scores position (some score)
          | none => scores)
          (message.dropWhile Char.isDigit)
  termination_by message => message.length
  decreasing_by
    all_goals
      simp only [List.length_cons]
      have := (List.dropWhile_sublist Char.isDigit (l := message)).length_le
      omega

def readNamedScores (name message : Str) : Option (Char → Option Nat) :=
  if message.length < 5 ∨ message.take 5 ≠ name then none
  else some (readScores (fun _ => none) (message.drop 5))

/-! ## What it does then

A human player is shown a text, the messages to an automatic one are logged. -/

def listed (items : List Str) : Str := [',', ' '].intercalate items

def placesShown (places : List Str) : Str :=
  "Place busy, list of busy places received: ".toList ++ listed places ++ ['.']

def busyShown (message : Str) : Str := placesShown ((message.drop 4).map fun place => [place])

def newDealShown (dealType position : Str) (cardsVector : List Str) : Str :=
  "New deal ".toList ++ dealType ++ ": staring place ".toList ++ position ++
    ", your cards: ".toList ++ listed cardsVector ++ ['.']

def dealShown (message : Str) : Str :=
  newDealShown ((message.drop 4).take 1) ((message.drop 5).take 1) (splitCards (message.drop 6))

def trickShown (trickNumber : Nat) (cardsVector available : List Str) : Str :=
  "Trick: (".toList ++ toStr trickNumber ++ ") ".toList ++ listed cardsVector ++ ['\n'] ++
    "Available: ".toList ++ listed available

def takenShown (trickNumber : Nat) (position : Char) (cardsVector : List Str) : Str :=
  "A trick ".toList ++ toStr trickNumber ++ " is taken by ".toList ++ [position] ++
    ", cards ".toList ++ listed cardsVector ++ ['.']

def receiveTrickMessage (isAutoPlayer : Bool) (trickNumber : Nat)
    (player : Player) (message : Str) :
    Option (Player × Str) :=
  (readTrick trickNumber message).map fun (cards, cardsVector) =>
    ((player.setCardsFromTrick cards).setCurrentTrick cardsVector,
      if isAutoPlayer then [] else trickShown trickNumber cardsVector player.availableCards)

def receiveTakenMessage (isAutoPlayer : Bool) (myPosition : Char) (trickNumber : Nat)
    (player : Player) (message : Str) : Option (Player × Str) :=
  (readTaken trickNumber message).map fun (position, cardsVector) =>
    if isAutoPlayer then (player, [])
    else
      (if position = myPosition then player.addTakenTrick cardsVector else player,
        takenShown trickNumber position cardsVector)

/-- The keys of a map come in their order. -/
def scoresShown (scores : Char → Option Nat) : Str :=
  ['E', 'N', 'S', 'W'].flatMap fun position =>
    ((scores position).map fun score =>
      [position] ++ " | ".toList ++ toStr score ++ ['\n']).getD []

def receiveScoreMessage (isAutoPlayer : Bool) (message : Str) : Option Str :=
  (readNamedScores ['S', 'C', 'O', 'R', 'E'] message).map fun scores =>
    if isAutoPlayer then [] else "The scores are:\n".toList ++ scoresShown scores

def receiveTotalMessage (isAutoPlayer : Bool) (message : Str) : Option Str :=
  (readNamedScores ['T', 'O', 'T', 'A', 'L'] message).map fun scores =>
    if isAutoPlayer then [] else "The total scores are:\n".toList ++ scoresShown scores

end Client

/-! ## Numbers -/

private theorem stoull_toStr {n : Nat} (h : n < 2 ^ 64) : stoull (toStr n) = some n := by
  have hdigit : ∀ c ∈ toStr n, c.isDigit := fun c hc =>
    Nat.isDigit_of_mem_toDigits (by decide) (by decide) hc
  have hvalue : (toStr n).foldl (fun n c => 10 * n + (c.toNat - '0'.toNat)) 0 = n :=
    Nat.ofDigitChars_ten_toDigits
  have hne : toStr n ≠ [] := Nat.toDigits_ne_nil
  generalize toStr n = s at hdigit hvalue hne
  obtain ⟨c, s, rfl⟩ := List.exists_cons_of_ne_nil hne
  have hc := hdigit c List.mem_cons_self
  have hblank : ¬ c ∈ [' ', '\t', '\n', '\x0b', '\x0c', '\x0d'] := by
    rintro hmem
    simp only [List.mem_cons, List.not_mem_nil, or_false] at hmem
    rcases hmem with rfl | rfl | rfl | rfl | rfl | rfl <;> cases hc
  have hminus : c ≠ '-' := by
    rintro rfl
    cases hc
  have hplus : c ≠ '+' := by
    rintro rfl
    cases hc
  have htake : (c :: s).takeWhile Char.isDigit = c :: s := List.takeWhile_eq_self_iff.mpr hdigit
  have hdrop : (c :: s).dropWhile
      (fun c => decide (c ∈ [' ', '\t', '\n', '\x0b', '\x0c', '\x0d'])) = c :: s := by
    rw [List.dropWhile_cons_of_neg (by simpa using hblank)]
  unfold stoull
  simp only [hdrop]
  split
  · exact absurd (List.cons.inj ‹_›).1 hminus
  · exact absurd (List.cons.inj ‹_›).1 hplus
  · simp only [htake, hvalue]
    have hrange : ¬ (c :: s = [] ∨ 2 ^ 64 ≤ n) := by
      rintro (hnil | hle)
      · exact hne hnil
      · exact absurd h (Nat.not_lt.mpr hle)
    rw [if_neg hrange]
    rfl

private theorem intToStr_of_nonneg {score : Int} (h : 0 ≤ score) :
    intToStr score = toStr score.toNat := by
  cases score with
  | ofNat n => rfl
  | negSucc n => cases h

/-! ## Numbers before cards -/

private theorem numbered_text {name : Str} {n : Nat} (hname : name.length = 5) (hn : 1 ≤ n ∧ n ≤ 13)
    (rest : Str) :
    5 + numberLength n ≤ (name ++ toStr n ++ rest).length ∧
      safeStoi (((name ++ toStr n ++ rest).drop 5).take (numberLength n)) = some n ∧
      (name ++ toStr n ++ rest).drop (5 + numberLength n) = rest := by
  obtain ⟨i, rfl⟩ := Nat.exists_eq_add_of_le' hn.1
  obtain ⟨hlength, hstoi⟩ := toStr_trick (by omega : i < 13)
  have hdrop : (name ++ toStr (i + 1) ++ rest).drop 5 = toStr (i + 1) ++ rest := by
    rw [List.append_assoc, List.drop_left' hname]
  have hnumber : ((name ++ toStr (i + 1) ++ rest).drop 5).take (numberLength (i + 1)) =
      toStr (i + 1) := by
    rw [hdrop, List.take_left' hlength]
  have hrest : (name ++ toStr (i + 1) ++ rest).drop (5 + numberLength (i + 1)) = rest :=
    List.drop_left' (by rw [List.length_append, hname, hlength])
  refine ⟨?_, by rw [hnumber, hstoi], hrest⟩
  simp only [List.length_append, hname, hlength]
  omega

private theorem readNumbered_text {name : Str} {n : Nat} (hname : name.length = 5)
    (hn : 1 ≤ n ∧ n ≤ 13)
    (rest : Str) : Client.readNumbered n (name ++ toStr n ++ rest) = some rest := by
  obtain ⟨hlength, hstoi, hrest⟩ := numbered_text hname hn rest
  rw [Client.readNumbered, if_neg (Nat.not_lt.mpr hlength), if_pos hstoi, hrest]

private theorem has_name {name : Str} (hname : name.length = 5) (s : Str) :
    ¬ ((name ++ s).length < 5 ∨ (name ++ s).take 5 ≠ name) := by
  simp [List.take_left' hname, hname]

private theorem readTrick_text {n : Nat} (hn : 1 ≤ n ∧ n ≤ 13) {cards : List PlayingCard}
    (hcards : cards.length ≤ 3) :
    Client.readTrick n (['T', 'R', 'I', 'C', 'K'] ++ toStr n ++ cardsText cards) =
      some (cardsText cards, cards.map PlayingCard.text) := by
  rw [Client.readTrick, if_neg (by rw [List.append_assoc]; exact has_name rfl _),
    readNumbered_text rfl hn, Option.bind_some, splitCards_cardsText,
    if_pos (checkCorrectness_text hcards)]

private theorem readTaken_text {n : Nat} (hn : 1 ≤ n ∧ n ≤ 13) {cards : List PlayingCard}
    (hcards : cards.length = 4) (winner : Seat) :
    Client.readTaken n
        (['T', 'A', 'K', 'E', 'N'] ++ toStr n ++ cardsText cards ++ [indexToChar winner]) =
      some (indexToChar winner, cards.map PlayingCard.text) := by
  have hname := has_name (by rfl : ['T', 'A', 'K', 'E', 'N'].length = 5)
    (toStr n ++ (cardsText cards ++ [indexToChar winner]))
  simp only [← List.append_assoc] at hname
  rw [Client.readTaken, if_neg hname, List.getLast?_concat, Option.bind_some,
    List.dropLast_concat, readNumbered_text rfl hn]
  simp [splitCards_cardsText, checkCorrectness_text hcards.le, hcards]

/-! ## Scores -/

private theorem readScores_cons {position : Char} (hposition : checkPosition position) {n : Nat}
    (hn : n < 2 ^ 64) {scores : Char → Option Nat} (hnone : scores position = none) {rest : Str}
    (hrest : ∀ c ∈ rest.head?, ¬ c.isDigit) :
    Client.readScores scores (position :: (toStr n ++ rest)) =
      Client.readScores (Function.update scores position (some n)) rest := by
  have hdigits : ∀ c ∈ toStr n, c.isDigit := fun c hc =>
    Nat.isDigit_of_mem_toDigits (by decide) (by decide) hc
  have htake : (toStr n ++ rest).takeWhile Char.isDigit = toStr n := by
    rw [List.takeWhile_append_of_pos hdigits]
    cases rest with
    | nil => simp
    | cons c rest => simp [hrest c rfl]
  have hdrop : (toStr n ++ rest).dropWhile Char.isDigit = rest := by
    rw [List.dropWhile_append_of_pos hdigits]
    cases rest with
    | nil => rfl
    | cons c rest => simp [hrest c rfl]
  rw [Client.readScores, htake, hdrop, safeStoi, stoull_toStr hn]
  simp [hposition, hnone]

private theorem readScores_scoresText {scores : Seat → Int}
    (h : ∀ p, 0 ≤ scores p ∧ scores p < 2 ^ 31)
    (p : Seat) : Client.readScores (fun _ => none) (scoresText scores) (indexToChar p) =
      some (scores p).toNat := by
  have hsmall : ∀ p, (scores p).toNat < 2 ^ 64 := by
    intro p
    have := h p
    omega
  have htext : scoresText scores =
      'N' :: (toStr (scores 0).toNat ++ ('E' :: (toStr (scores 1).toNat ++
        ('S' :: (toStr (scores 2).toNat ++ ('W' :: (toStr (scores 3).toNat ++ []))))))) := by
    have hfin : List.finRange 4 = [0, 1, 2, 3] := rfl
    simp only [scoresText, hfin, List.flatMap_cons, List.flatMap_nil,
      intToStr_of_nonneg (h _).1, indexToChar, List.cons_append, List.append_nil]
  rw [htext, readScores_cons rfl (hsmall 0) rfl (by simp),
    readScores_cons rfl (hsmall 1) (by simp) (by simp),
    readScores_cons rfl (hsmall 2) (by simp) (by simp),
    readScores_cons rfl (hsmall 3) (by simp) (by simp), Client.readScores]
  fin_cases p <;> simp [indexToChar]

/-! ## The wire format -/

def trickOf (cards : List PlayingCard) : Option Trick :=
  cards.foldlM (fun (trick : Trick) card => trick.addCardToCards card.text) .new

private theorem trickOf_cardsString (cards : List PlayingCard) :
    ∃ trick, trickOf cards = some trick ∧ trick.cardsString = cardsText cards := by
  have hfold : ∀ (cards : List PlayingCard) (t : Trick), ∃ trick,
      cards.foldlM (fun (trick : Trick) card => trick.addCardToCards card.text) t = some trick ∧
        trick.cardsString = t.cardsString ++ cardsText cards := by
    intro cards
    induction cards with
    | nil => exact fun t => ⟨t, rfl, (List.append_nil _).symm⟩
    | cons card cards ih =>
        intro t
        obtain ⟨t', ht', hstring⟩ := addCardToCards_text t card
        obtain ⟨trick, htrick, hrest⟩ := ih t'
        refine ⟨trick, ?_, ?_⟩
        · rw [List.foldlM_cons, ht', Option.bind_eq_bind, Option.bind_some, htrick]
        · rw [hrest, hstring, List.append_assoc]
          rfl
  exact hfold cards .new

theorem receiveDealMessage_text {dealType : Nat} (htype : 1 ≤ dealType ∧ dealType ≤ 7)
    (lead seat : Seat) {hand : List PlayingCard} (hhand : hand.length = 13) (player : Player) :
    let deal := (Deal.new dealType (indexToChar lead)).addPlayerCards seat (cardsText hand)
    ∃ player', receiveDealMessage player (dealMessage deal seat) = (.done, player') ∧
      splitCards player'.cards = hand.map PlayingCard.text ∧
      player'.availableCards = player.availableCards ++ hand.map PlayingCard.text ∧
      (∀ suit : Suit, player'.cardsBySuit suit.char = player.cardsBySuit suit.char ++
        (hand.filter (·.suit = suit)).map PlayingCard.value) ∧
      Client.dealShown (dealMessage deal seat) =
        Client.newDealShown (toStr dealType) [indexToChar lead] (hand.map PlayingCard.text) := by
  intro deal
  obtain ⟨c, hc, hstoi⟩ := toStr_deal htype
  have hmessage : dealMessage deal seat =
      ['D', 'E', 'A', 'L', c, indexToChar lead] ++ cardsText hand := by
    simp [deal, dealMessage, Deal.addPlayerCards, Deal.new, hc]
  obtain ⟨player', hplayer, hsuits, havailable⟩ := addMatches_spec player hand
  have hadd : player.addCards (cardsText hand) = (true, player') := by
    simp [Player.addCards, cardMatches_cardsText, hplayer, hhand]
  have hrange : ¬ (dealType = 0 ∨ 7 < dealType) := by omega
  refine ⟨player'.setCards (cardsText hand), ?_, splitCards_cardsText hand, havailable, hsuits, ?_⟩
  · simp [hmessage, receiveDealMessage, hstoi, hrange, hadd]
  · rw [hmessage, hc, ← splitCards_cardsText hand]
    rfl

private theorem receiveDealMessage_busy {occupied : Seat → Bool} (h : ∃ p, occupied p)
    (player : Player) :
    receiveDealMessage player (busyMessage occupied) = (.busy, player) ∧
      ((busyMessage occupied).drop 4).filterMap charToIndex =
        (List.finRange 4).filter occupied ∧
      Client.busyShown (busyMessage occupied) =
        Client.placesShown (((List.finRange 4).filter occupied).map fun p => [indexToChar p]) := by
  have hdrop : (busyMessage occupied).drop 4 =
      ((List.finRange 4).filter occupied).map indexToChar := rfl
  have hlength : ((List.finRange 4).filter occupied).length ≤ 4 :=
    (List.length_filter_le _ _).trans (by rw [List.length_finRange])
  have hne : (List.finRange 4).filter occupied ≠ [] := by
    obtain ⟨p, hp⟩ := h
    exact List.ne_nil_of_mem (List.mem_filter.mpr ⟨List.mem_finRange p, hp⟩)
  refine ⟨?_, ?_, ?_⟩
  · have hname : (busyMessage occupied).take 4 = ['B', 'U', 'S', 'Y'] := rfl
    rw [receiveDealMessage, if_pos hname, hdrop, if_neg]
    simp only [List.length_map, List.map_eq_nil_iff, List.any_map]
    simp [hne, hlength]
  · rw [hdrop, List.filterMap_map]
    have hseat : charToIndex ∘ indexToChar = some := funext charToIndex_indexToChar
    rw [hseat, List.filterMap_some]
  · rw [Client.busyShown, hdrop, List.map_map]
    rfl

section Format

variable {n : Nat} {cards : List PlayingCard} (isAutoPlayer : Bool) (player : Player)

private theorem receiveTrickMessage_text (hn : 1 ≤ n ∧ n ≤ 13) (hcards : cards.length ≤ 3) :
    ∃ trick, trickOf cards = some trick ∧
      Client.receiveTrickMessage isAutoPlayer n player (trickMessage trick n) =
        some ((player.setCardsFromTrick (cardsText cards)).setCurrentTrick
            (cards.map PlayingCard.text),
          if isAutoPlayer then [] else
            Client.trickShown n (cards.map PlayingCard.text) player.availableCards) := by
  obtain ⟨trick, htrick, hstring⟩ := trickOf_cardsString cards
  refine ⟨trick, htrick, ?_⟩
  rw [Client.receiveTrickMessage, trickMessage, hstring, readTrick_text hn hcards]
  rfl

private theorem receiveTakenMessage_text (hn : 1 ≤ n ∧ n ≤ 13) (hcards : cards.length = 4)
    (winner : Seat) (myPosition : Char) :
    ∃ trick message, trickOf cards = some trick ∧
      takenMessage (trick.setWinningPlayer winner) n = some message ∧
      Client.readTaken n message = some (indexToChar winner, cards.map PlayingCard.text) ∧
      Client.receiveTakenMessage isAutoPlayer myPosition n player message =
        some (if isAutoPlayer then (player, []) else
          (if indexToChar winner = myPosition then
              player.addTakenTrick (cards.map PlayingCard.text) else player,
            Client.takenShown n (indexToChar winner) (cards.map PlayingCard.text))) := by
  obtain ⟨trick, htrick, hstring⟩ := trickOf_cardsString cards
  have hread := readTaken_text hn hcards winner
  refine ⟨trick, _, htrick, rfl, ?_, ?_⟩
  · change Client.readTaken n (['T', 'A', 'K', 'E', 'N'] ++ toStr n ++ trick.cardsString ++
      [indexToChar winner]) = _
    rw [hstring, hread]
  · change Client.receiveTakenMessage isAutoPlayer myPosition n player
      (['T', 'A', 'K', 'E', 'N'] ++ toStr n ++ trick.cardsString ++ [indexToChar winner]) = _
    rw [hstring, Client.receiveTakenMessage, hread]
    rfl

/-- The first TRICK of a deal, or of what is left of one, is read by another parser; it
remembers the cards only where there are some. -/
theorem receiveTakenOrTrickMessage_trick (hn : 1 ≤ n ∧ n ≤ 13) (hcards : cards.length ≤ 3)
    (myPosition : Seat) :
    ∃ trick, trickOf cards = some trick ∧
      receiveTakenOrTrickMessage isAutoPlayer myPosition n player (trickMessage trick n) =
        (.trick, if cards = [] then player else
          (player.setCardsFromTrick (cardsText cards)).setCurrentTrick
            (cards.map PlayingCard.text)) := by
  obtain ⟨trick, htrick, hstring⟩ := trickOf_cardsString cards
  obtain ⟨hlength, hstoi, hrest⟩ := numbered_text (by rfl : ['T', 'R', 'I', 'C', 'K'].length = 5)
    hn (cardsText cards)
  have hname : (['T', 'R', 'I', 'C', 'K'] ++ toStr n ++ cardsText cards).take 5 =
      ['T', 'R', 'I', 'C', 'K'] := rfl
  refine ⟨trick, htrick, ?_⟩
  rw [trickMessage, hstring]
  generalize ['T', 'R', 'I', 'C', 'K'] ++ toStr n ++ cardsText cards = message at *
  have hcorrect := checkCorrectness_text hcards
  cases cards with
  | nil => simp [receiveTakenOrTrickMessage, hname, hlength, hstoi, hrest, cardsText]
  | cons card cards =>
      have hne : cardsText (card :: cards) ≠ [] := by simp [cardsText, PlayingCard.text]
      rw [List.map_cons] at hcorrect
      simp [receiveTakenOrTrickMessage, hname, hlength, hstoi, hrest, hne, splitCards_cardsText,
        hcorrect]

/-- A TAKEN before that TRICK: the card at the place of the client leaves its hand. -/
theorem receiveTakenOrTrickMessage_taken (hn : 1 ≤ n ∧ n ≤ 13) (hcards : cards.length = 4)
    (winner myPosition : Seat) :
    ∃ trick message card, trickOf cards = some trick ∧ cards[myPosition.val]? = some card ∧
      takenMessage (trick.setWinningPlayer winner) n = some message ∧
      receiveTakenOrTrickMessage isAutoPlayer myPosition n player message =
        (.done,
          if isAutoPlayer then player.eraseFromCardsBySuit card.text
          else if winner = myPosition then
            (player.eraseFromAvailableCards card.text).addTakenTrick (cards.map PlayingCard.text)
          else player.eraseFromAvailableCards card.text) := by
  obtain ⟨trick, htrick, hstring⟩ := trickOf_cardsString cards
  obtain ⟨card, hcard⟩ : ∃ card, cards[myPosition.val]? = some card :=
    ⟨_, List.getElem?_eq_getElem (by omega)⟩
  obtain ⟨hlength, hstoi, hrest⟩ := numbered_text (by rfl : ['T', 'A', 'K', 'E', 'N'].length = 5)
    hn (cardsText cards)
  have hmine : indexToChar winner = indexToChar myPosition ↔ winner = myPosition :=
    indexToChar_injective.eq_iff
  have hname : (['T', 'A', 'K', 'E', 'N'] ++ toStr n ++ cardsText cards ++
      [indexToChar winner]).take 5 = ['T', 'A', 'K', 'E', 'N'] := rfl
  have hne : cardsText cards ≠ [] := by
    obtain ⟨c, cs, rfl⟩ := List.exists_cons_of_ne_nil (List.ne_nil_of_length_eq_add_one hcards)
    simp [cardsText, PlayingCard.text]
  have htake := takeCards_text isAutoPlayer myPosition player hcards hcard
  refine ⟨trick, _, card, htrick, hcard, rfl, ?_⟩
  change receiveTakenOrTrickMessage isAutoPlayer myPosition n player
    (['T', 'A', 'K', 'E', 'N'] ++ toStr n ++ trick.cardsString ++ [indexToChar winner]) = _
  rw [hstring]
  generalize ['T', 'A', 'K', 'E', 'N'] ++ toStr n ++ cardsText cards = message at *
  simp only [receiveTakenOrTrickMessage, if_pos hname, List.getLast?_concat, List.dropLast_concat,
    checkPosition_indexToChar, hlength, hstoi, hrest, if_neg hne, htake, hmine]
  cases isAutoPlayer <;> by_cases h : winner = myPosition <;> simp [h, splitCards_cardsText]

private theorem readNamedScores_text {name : Str} (hname : name.length = 5) {scores : Seat → Int}
    (h : ∀ p, 0 ≤ scores p ∧ scores p < 2 ^ 31) :
    ∃ read, Client.readNamedScores name (name ++ scoresText scores) = some read ∧
      ∀ p, read (indexToChar p) = some (scores p).toNat := by
  refine ⟨_, if_neg (has_name hname _), fun p => ?_⟩
  rw [List.drop_left' hname, readScores_scoresText h]

end Format

/-- The client takes every message of a deal apart as the server put it together. -/
theorem wire_format {dealType : Nat} (htype : 1 ≤ dealType ∧ dealType ≤ 7) (lead seat : Seat)
    {hand : List PlayingCard} (hhand : hand.length = 13) {n : Nat} (hn : 1 ≤ n ∧ n ≤ 13)
    {cards : List PlayingCard} (hcards : cards.length ≤ 3) {taken : List PlayingCard}
    (htaken : taken.length = 4) (winner : Seat) {occupied : Seat → Bool} (hbusy : ∃ p, occupied p)
    {scores : Seat → Int} (hscores : ∀ p, 0 ≤ scores p ∧ scores p < 2 ^ 31) (isAutoPlayer : Bool)
    (myPosition : Char) (player : Player) :
    (let deal := (Deal.new dealType (indexToChar lead)).addPlayerCards seat (cardsText hand)
      ∃ player', receiveDealMessage player (dealMessage deal seat) = (.done, player') ∧
        splitCards player'.cards = hand.map PlayingCard.text ∧
        player'.availableCards = player.availableCards ++ hand.map PlayingCard.text ∧
        (∀ suit : Suit, player'.cardsBySuit suit.char = player.cardsBySuit suit.char ++
          (hand.filter (·.suit = suit)).map PlayingCard.value) ∧
        Client.dealShown (dealMessage deal seat) =
          Client.newDealShown (toStr dealType) [indexToChar lead] (hand.map PlayingCard.text)) ∧
    (∃ trick, trickOf cards = some trick ∧
      Client.receiveTrickMessage isAutoPlayer n player (trickMessage trick n) =
        some ((player.setCardsFromTrick (cardsText cards)).setCurrentTrick
            (cards.map PlayingCard.text),
          if isAutoPlayer then [] else
            Client.trickShown n (cards.map PlayingCard.text) player.availableCards)) ∧
    (∃ trick message, trickOf taken = some trick ∧
      takenMessage (trick.setWinningPlayer winner) n = some message ∧
      Client.readTaken n message = some (indexToChar winner, taken.map PlayingCard.text) ∧
      Client.receiveTakenMessage isAutoPlayer myPosition n player message =
        some (if isAutoPlayer then (player, []) else
          (if indexToChar winner = myPosition then
              player.addTakenTrick (taken.map PlayingCard.text) else player,
            Client.takenShown n (indexToChar winner) (taken.map PlayingCard.text)))) ∧
    (∃ read, Client.readNamedScores ['S', 'C', 'O', 'R', 'E'] (scoreMessage scores) = some read ∧
      (∀ p, read (indexToChar p) = some (scores p).toNat) ∧
      Client.receiveScoreMessage isAutoPlayer (scoreMessage scores) =
        some (if isAutoPlayer then [] else
          "The scores are:\n".toList ++ Client.scoresShown read)) ∧
    (∃ read, Client.readNamedScores ['T', 'O', 'T', 'A', 'L'] (totalMessage scores) = some read ∧
      (∀ p, read (indexToChar p) = some (scores p).toNat) ∧
      Client.receiveTotalMessage isAutoPlayer (totalMessage scores) =
        some (if isAutoPlayer then [] else
          "The total scores are:\n".toList ++ Client.scoresShown read)) ∧
    receiveDealMessage player (busyMessage occupied) = (.busy, player) ∧
      ((busyMessage occupied).drop 4).filterMap charToIndex =
        (List.finRange 4).filter occupied ∧
      Client.busyShown (busyMessage occupied) =
        Client.placesShown (((List.finRange 4).filter occupied).map fun p => [indexToChar p]) := by
  have hscore := readNamedScores_text (by rfl : ['S', 'C', 'O', 'R', 'E'].length = 5) hscores
  have htotal := readNamedScores_text (by rfl : ['T', 'O', 'T', 'A', 'L'].length = 5) hscores
  obtain ⟨read, hread, hseats⟩ := hscore
  obtain ⟨read', hread', hseats'⟩ := htotal
  exact ⟨receiveDealMessage_text htype lead seat hhand player,
    receiveTrickMessage_text isAutoPlayer player hn hcards,
    receiveTakenMessage_text isAutoPlayer player hn htaken winner myPosition,
    ⟨read, hread, hseats, by rw [Client.receiveScoreMessage, scoreMessage, hread]; rfl⟩,
    ⟨read', hread', hseats', by rw [Client.receiveTotalMessage, totalMessage, hread']; rfl⟩,
    receiveDealMessage_busy hbusy player⟩

/-- A ten after the number, a spade before the seat. -/
theorem wire_format_tens :
    ∃ trick, trickOf [⟨['1', '0'], .clubs, by decide⟩] = some trick ∧
      Client.receiveTrickMessage true 1 .new (trickMessage trick 1) =
        some ((Player.new.setCardsFromTrick ['1', '0', 'C']).setCurrentTrick [['1', '0', 'C']],
          []) :=
  (wire_format (by decide : 1 ≤ 1 ∧ 1 ≤ 7) 0 0 (by rfl : (suitHand .spades).length = 13)
    (by decide : 1 ≤ 1 ∧ 1 ≤ 13) (by decide) (by rfl : (List.take 4 (suitHand .hearts)).length = 4)
    2 (⟨0, rfl⟩ : ∃ p, (fun _ => true) p)
    (by decide : ∀ p : Seat, 0 ≤ (p.val : Int) ∧ (p.val : Int) < 2 ^ 31) true 'S' .new).2.1

end Mimuw.Cards
