import Mimuw.Cards.Common

/-!
# Deals and their messages

What the server keeps of a deal, and the messages that tell a client about it.
-/

namespace Mimuw.Cards

structure Card where
  valueString : Str
  suit : Char
  valueInt : Nat
  deriving DecidableEq, Repr

/-- What a trick keeps of a card of the deck. -/
def PlayingCard.entry (card : PlayingCard) : Card :=
  ⟨card.value, card.suit.char, (cardValue card.value).getD 0⟩

structure Trick where
  /-- -1 before the trick is complete -/
  winningPlayer : Option Seat
  cardsString : Str
  cards : List Card
  deriving DecidableEq, Repr

namespace Trick

def new : Trick := ⟨none, [], []⟩

/-- `none` is undefined behaviour: an empty string, or a value that is not in the
map. -/
def addCardToCards (t : Trick) (c : Str) : Option Trick := do
  let suit ← c.getLast?
  let valueInt ← cardValue c.dropLast
  return { t with
    cardsString := t.cardsString ++ c
    cards := t.cards ++ [⟨c.dropLast, suit, valueInt⟩] }

theorem addCardToCards_entry (t : Trick) (card : PlayingCard) :
    t.addCardToCards card.text = some { t with
      cardsString := t.cardsString ++ card.text
      cards := t.cards ++ [card.entry] } := by
  obtain ⟨n, hn⟩ := Option.isSome_iff_exists.mp (cardValue_isSome card.valid)
  simp [addCardToCards, PlayingCard.text, PlayingCard.entry, hn]

def setWinningPlayer (t : Trick) (player : Seat) : Trick := { t with winningPlayer := some player }

end Trick

structure Deal where
  dealType : Nat
  leadPlayer : Char
  /-- the line of each player in the game file -/
  hands : Seat → Str
  tricks : Nat → Trick

namespace Deal

def new (dealType : Nat) (lead : Char) : Deal := ⟨dealType, lead, fun _ => [], fun _ => .new⟩

def addPlayerCards (deal : Deal) (seat : Seat) (cards : Str) : Deal :=
  { deal with hands := Function.update deal.hands seat cards }

def setTrick (deal : Deal) (i : Nat) (trick : Trick) : Deal :=
  { deal with tricks := Function.update deal.tricks i trick }

end Deal

/-! ## Messages

The delimiter that ends a message is added and taken off by the transport. -/

def dealMessage (deal : Deal) (seat : Seat) : Str :=
  ['D', 'E', 'A', 'L'] ++ toStr deal.dealType ++ [deal.leadPlayer] ++ deal.hands seat

/-- `index_to_char` throws without a winner. -/
def takenMessage (trick : Trick) (index : Nat) : Option Str :=
  trick.winningPlayer.map fun winner =>
    ['T', 'A', 'K', 'E', 'N'] ++ toStr index ++ trick.cardsString ++ [indexToChar winner]

/-- The messages of `send_deal_and_taken_msg` when so many tricks are complete. -/
def sendDealAndTakenMsg (deal : Deal) (seat : Seat) (currentTrick : Nat) : Option (List Str) :=
  ((List.range currentTrick).mapM fun i => takenMessage (deal.tricks i) (i + 1)).map
    (dealMessage deal seat :: ·)

end Mimuw.Cards
