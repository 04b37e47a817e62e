import Mimuw.Cards.Common

/-!
# The player of a client

The client keeps the hand twice, by suit for an automatic player and as a list
for a human one.
-/

namespace Mimuw.Cards

structure Player where
  cardsBySuit : Char → List Str
  cards : Str
  cardsFromTrick : Str
  availableCards : List Str
  takenTricks : List (List Str)
  currentTrick : List Str

namespace Player

def new : Player := ⟨fun _ => [], [], [], [], [], []⟩

/-- What the loop of `add_cards` does with a match. -/
def addCard (player : Player) (value : Str) (suit : Char) : Option Player :=
  if (cardValue value).isNone then none
  else if !checkSuit suit then none
  else some { player with
    cardsBySuit := Function.update player.cardsBySuit suit (player.cardsBySuit suit ++ [value])
    availableCards := player.availableCards ++ [value ++ [suit]] }

/-- The loop of `add_cards`; `false` when it returns early. -/
def addMatches (player : Player) : List (Str × Char) → Bool × Player
  | [] => (true, player)
  | (value, suit) :: found =>
      match player.addCard value suit with
      | some player => player.addMatches found
      | none => (false, player)

/-- `true` stands for 0; the cards found are added in any case. -/
def addCards (player : Player) (cards : Str) : Bool × Player :=
  let found := cardMatches cards
  let (complete, player) := player.addMatches found
  (complete && found.length == 13, player)

def setCards (player : Player) (cards : Str) : Player := { player with cards := cards }

def setCardsFromTrick (player : Player) (cards : Str) : Player :=
  { player with cardsFromTrick := cards }

def setCurrentTrick (player : Player) (cards : List Str) : Player :=
  { player with currentTrick := cards }

def addTakenTrick (player : Player) (cards : List Str) : Player :=
  { player with takenTricks := player.takenTricks ++ [cards] }

/-- A card without a last character is not passed. -/
def eraseFromCardsBySuit (player : Player) (card : Str) : Player :=
  match card.getLast? with
  | some suit =>
      { player with
        cardsBySuit := Function.update player.cardsBySuit suit
          ((player.cardsBySuit suit).filter (· ≠ card.dropLast)) }
  | none => player

def eraseFromAvailableCards (player : Player) (card : Str) : Player :=
  { player with availableCards := player.availableCards.filter (· ≠ card) }

end Player

/-! ## Messages -/

inductive Received where
  /-- The message is not the one waited for. -/
  | again
  | done
  /-- `receive_deal_message` returns -1. -/
  | busy
  /-- `receive_taken_or_trick_message` returns 1. -/
  | trick
  deriving DecidableEq, Repr

def receiveDealMessage (player : Player) (message : Str) : Received × Player :=
  if message.take 4 = ['B', 'U', 'S', 'Y'] then
    let takenPlaces := message.drop 4
    if takenPlaces.length > 4 ∨ takenPlaces = [] ∨ takenPlaces.any (!checkPosition ·) then
      (.again, player)
    else (.busy, player)
  else if message.take 4 = ['D', 'E', 'A', 'L'] then
    match message.drop 4 with
    | dealType :: pos :: cards =>
        match safeStoi [dealType] with
        | none => (.again, player)
        | some dealType =>
            if dealType < 1 ∨ dealType > 7 ∨ !checkPosition pos then (.again, player)
            else
              match player.addCards cards with
              | (true, player) => (.done, player.setCards cards)
              | (false, player) => (.again, player)
    | _ => (.again, player)
  else (.again, player)

def numberLength (trickNumber : Nat) : Nat := if trickNumber < 10 then 1 else 2

/-- What `receive_taken_or_trick_message` does with the cards of a TAKEN message. -/
def takeCards (isAutoPlayer : Bool) (myPosition : Seat) (player : Player) (cards : Str) :
    Received × Player :=
  let cardsVector := splitCards cards
  if cardsVector.length ≠ 4 ∨ !checkCorrectness cardsVector 4 then (.again, player)
  else
    match cardsVector[myPosition.val]? with
    | some card =>
        (.done, if isAutoPlayer then player.eraseFromCardsBySuit card
          else player.eraseFromAvailableCards card)
    | none => (.again, player)

def receiveTakenOrTrickMessage (isAutoPlayer : Bool) (myPosition : Seat) (trickNumber : Nat)
    (player : Player) (message : Str) : Received × Player :=
  let start := 5 + numberLength trickNumber
  let hasNumber (message : Str) : Bool :=
    decide (start ≤ message.length) &&
      safeStoi ((message.drop 5).take (numberLength trickNumber)) == some trickNumber
  if message.take 5 = ['T', 'A', 'K', 'E', 'N'] then
    match message.getLast? with
    | none => (.again, player)
    | some position =>
        if !checkPosition position then (.again, player)
        else
          let message := message.dropLast
          if !hasNumber message then (.again, player)
          else
            let cards := message.drop start
            -- Without any card the message is accepted as it is.
            let (received, taken) :=
              if cards = [] then (.done, player) else takeCards isAutoPlayer myPosition player cards
            if received = .done ∧ !isAutoPlayer ∧ position = indexToChar myPosition then
              (.done, taken.addTakenTrick (splitCards cards))
            else (received, taken)
  else if message.take 5 = ['T', 'R', 'I', 'C', 'K'] then
    if !hasNumber message then (.again, player)
    else
      let cards := message.drop start
      if cards = [] then (.trick, player)
      else if !checkCorrectness (splitCards cards) 3 then (.again, player)
      else (.trick, (player.setCardsFromTrick cards).setCurrentTrick (splitCards cards))
  else (.again, player)

/-! ## The beginning of a deal -/

/-- What `mess_handler` waits for: DEAL, the TAKEN or TRICK with a number, or
something after that. -/
inductive Waiting where
  | deal
  | taken (trickNumber : Nat)
  | other
  deriving DecidableEq, Repr

structure Client where
  player : Player
  waiting : Waiting

def Client.new : Client := ⟨.new, .deal⟩

def Client.receive (isAutoPlayer : Bool) (myPosition : Seat) (client : Client) (message : Str) :
    Client :=
  match client.waiting with
  | .deal =>
      match receiveDealMessage client.player message with
      | (.done, player) => ⟨player, .taken 1⟩
      | (.again, player) => ⟨player, .deal⟩
      | (_, player) => ⟨player, .other⟩
  | .taken n =>
      match receiveTakenOrTrickMessage isAutoPlayer myPosition n client.player message with
      | (.done, player) => ⟨player, .taken (n + 1)⟩
      | (.again, player) => ⟨player, .taken n⟩
      | (_, player) => ⟨player, .other⟩
  | .other => client

/-- The cards in hand, in the place where this kind of player looks them up. -/
def Player.held (isAutoPlayer : Bool) (player : Player) : List Str :=
  if isAutoPlayer then
    ['C', 'D', 'H', 'S'].flatMap fun suit => (player.cardsBySuit suit).map (· ++ [suit])
  else player.availableCards

end Mimuw.Cards
