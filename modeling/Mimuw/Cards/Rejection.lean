import Mimuw.Cards.Wire

/-!
# Rejected deals

A DEAL message after which `receive_deal_message` goes on waiting.
-/

namespace Mimuw.Cards

/-- The tests before the cards: the length, the type of the deal, the seat. -/
def readsCards (message : Str) : Bool :=
  match message.drop 4 with
  | dealType :: pos :: _ =>
      (safeStoi [dealType]).any (fun dealType => decide (1 ≤ dealType ∧ dealType ≤ 7)) &&
        checkPosition pos
  | _ => false

structure Player.SameCards (player player' : Player) : Prop where
  bySuit : player'.cardsBySuit = player.cardsBySuit
  available : player'.availableCards = player.availableCards

/-- The player has exactly the cards of a hand more. -/
structure Player.Gains (player player' : Player) (hand : List PlayingCard) : Prop where
  bySuit : ∀ suit : Suit, player'.cardsBySuit suit.char = player.cardsBySuit suit.char ++
    (hand.filter (·.suit = suit)).map PlayingCard.value
  available : player'.availableCards = player.availableCards ++ hand.map PlayingCard.text

/-- Any valid DEAL that `player'` receives leaves it with what `player` had and the hand. -/
def Player.NextDealExact (player player' : Player) : Prop :=
  ∀ (dealType : Nat) (lead seat : Seat) (hand : List PlayingCard),
    1 ≤ dealType ∧ dealType ≤ 7 → hand.length = 13 →
      let deal := (Deal.new dealType (indexToChar lead)).addPlayerCards seat (cardsText hand)
      let result := receiveDealMessage player' (dealMessage deal seat)
      result.1 = .done ∧ player.Gains result.2 hand

private theorem Player.SameCards.nextDealExact {player player' : Player}
    (h : player.SameCards player') :
    player.NextDealExact player' := by
  intro dealType lead seat hand htype hhand
  obtain ⟨dealt, hdealt, -, havailable, hsuits, -⟩ :=
    receiveDealMessage_text htype lead seat hhand player'
  simp only [hdealt, true_and]
  refine ⟨fun suit => ?_, ?_⟩
  · rw [hsuits, h.bySuit]
  · rw [havailable, h.available]

private theorem receiveDealMessage_deal {message : Str} (h : message.take 4 = ['D', 'E', 'A', 'L'])
    (player : Player) : receiveDealMessage player message =
      if readsCards message then
        if (player.addCards (message.drop 6)).1 then
          (.done, (player.addCards (message.drop 6)).2.setCards (message.drop 6))
        else (.again, (player.addCards (message.drop 6)).2)
      else (.again, player) := by
  have hbusy : ¬ message.take 4 = ['B', 'U', 'S', 'Y'] := by simp [h]
  have hdrop : message.drop 6 = (message.drop 4).drop 2 := by rw [List.drop_drop]
  rw [receiveDealMessage, if_neg hbusy, if_pos h, readsCards, hdrop]
  rcases message.drop 4 with _ | ⟨dealType, _ | ⟨pos, cards⟩⟩
  · rfl
  · rfl
  · cases htype : safeStoi [dealType] with
      | none => simp only [htype, Option.any_none, Bool.false_and, Bool.false_eq_true, if_false]
      | some n =>
          by_cases hn : 1 ≤ n ∧ n ≤ 7
          · cases hpos : checkPosition pos with
            | false => simp [htype, hn, hpos]
            | true =>
                have hn' : ¬ (n < 1 ∨ n > 7) := by omega
                obtain ⟨added, player', hadd⟩ : ∃ added player', player.addCards cards =
                    (added, player') := ⟨_, _, rfl⟩
                simp only [htype, Option.any_some, hn, hpos, and_self, decide_true, Bool.and_self,
                  Bool.not_true, Bool.false_eq_true, or_false, hn', if_true, if_false]
                cases added <;> simp [hadd]
          · have hn' : n < 1 ∨ n > 7 := by omega
            simp only [htype, Option.any_some, hn, decide_false, Bool.false_and, ← or_assoc, hn',
              true_or, if_true, Bool.false_eq_true, if_false]

/-- The cards found are added even where there are not 13 of them. -/
private theorem addCards_gains (player : Player) (s : Str) : ∃ cards player',
    splitCards s = cards.map PlayingCard.text ∧
      player.addCards s = (decide (cards.length = 13), player') ∧ player.Gains player' cards := by
  obtain ⟨cards, hmatches, hsplit⟩ := cardMatches_cards s
  obtain ⟨player', hplayer', hsuits, havailable⟩ := addMatches_spec player cards
  refine ⟨cards, player', hsplit, ?_, hsuits, havailable⟩
  simp [Player.addCards, hmatches, hplayer', Bool.beq_eq_decide_eq]

/-- A rejected DEAL leaves the player as it was exactly where it is rejected before
the cards are looked for, or no card is found. -/
theorem rejected_deal_unchanged_iff (player : Player) (message : Str)
    (hdeal : message.take 4 = ['D', 'E', 'A', 'L'])
    (hagain : (receiveDealMessage player message).1 = .again) :
    (player.SameCards (receiveDealMessage player message).2 ∧
        player.NextDealExact (receiveDealMessage player message).2) ↔
      readsCards message = false ∨ splitCards (message.drop 6) = [] := by
  obtain ⟨cards, player', hsplit, hadd, hgains⟩ := addCards_gains player (message.drop 6)
  rw [receiveDealMessage_deal hdeal, hadd] at hagain ⊢
  cases hreads : readsCards message with
  | false =>
      simp only [Bool.false_eq_true, if_false, true_or, iff_true]
      have hsame : player.SameCards player := ⟨rfl, rfl⟩
      exact ⟨hsame, hsame.nextDealExact⟩
  | true =>
      have hcount : ¬ cards.length = 13 := by
        intro hcount
        simp [hreads, hcount] at hagain
      simp only [hcount, decide_false, if_true, Bool.true_eq_false, false_or, hsplit,
        List.map_eq_nil_iff]
      constructor
      · rintro ⟨hsame, -⟩
        have havailable : player'.availableCards = player.availableCards := hsame.available
        rw [hgains.available] at havailable
        simpa using havailable
      · rintro rfl
        have hnone : cardMatches (message.drop 6) = [] := by simpa [splitCards] using hsplit
        obtain ⟨-, rfl⟩ : false = false ∧ player = player' := by
          simpa [Player.addCards, hnone, Player.addMatches] using hadd
        have hsame : player.SameCards player := ⟨rfl, rfl⟩
        exact ⟨hsame, hsame.nextDealExact⟩

def shortHand : Str := "DEAL1N2C".toList

theorem rejected_deal_shortHand :
    ¬ (Player.new.SameCards (receiveDealMessage .new shortHand).2 ∧
      Player.new.NextDealExact (receiveDealMessage .new shortHand).2) := by
  intro h
  have hcondition := (rejected_deal_unchanged_iff .new shortHand (by decide) (by decide)).mp h
  exact absurd hcondition (by decide)

theorem rejected_deal_changes : ¬ ∀ (player : Player) (message : Str),
    message.take 4 = ['D', 'E', 'A', 'L'] → (receiveDealMessage player message).1 = .again →
      player.SameCards (receiveDealMessage player message).2 ∧
        player.NextDealExact (receiveDealMessage player message).2 := by
  intro h
  have hsame := (h .new shortHand (by decide) (by decide)).1
  exact absurd hsame.available (by decide)

end Mimuw.Cards
