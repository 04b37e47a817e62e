import Mimuw.Cards.Deals
import Mimuw.Cards.Player

/-!
# The hand after a reconnection

A client that comes back gets its deal and the tricks taken so far, and takes its
own cards out of them.
-/

namespace Mimuw.Cards

/-- A deal of which some tricks are complete. -/
structure PlayedDeal where
  dealType : Nat
  lead : Seat
  hands : Seat → List PlayingCard
  /-- for each complete trick the card of every seat, and the winner -/
  tricks : List ((Seat → PlayingCard) × Seat)
  type_valid : 1 ≤ dealType ∧ dealType ≤ 7
  hand_size : ∀ seat, (hands seat).length = 13
  trick_count : tricks.length < 13
  played_own : ∀ seat, (tricks.map fun trick => trick.1 seat).Subperm (hands seat)

/-- The server appends the cards in the order of play. -/
def playTrick (lead : Seat) (plays : Seat → PlayingCard) (winner : Seat) : Option Trick :=
  (([0, 1, 2, 3] : List Seat).foldlM
    (fun (trick : Trick) k => trick.addCardToCards (plays (lead + k)).text) Trick.new).map
      (·.setWinningPlayer winner)

namespace PlayedDeal

variable (p : PlayedDeal)

def dealt : Deal :=
  ([0, 1, 2, 3] : List Seat).foldl
    (fun deal seat => deal.addPlayerCards seat (cardsText (p.hands seat)))
    (.new p.dealType (indexToChar p.lead))

def deal : Option Deal :=
  (p.tricks.mapM fun trick => playTrick p.lead trick.1 trick.2).map fun tricks =>
    tricks.zipIdx.foldl (fun deal trick => deal.setTrick trick.2 trick.1) p.dealt

def played (seat : Seat) : List PlayingCard := p.tricks.map fun trick => trick.1 seat

/-- The cards that stand at the seat's own index in the order of play. -/
def standing (seat : Seat) : List PlayingCard :=
  p.tricks.map fun trick => trick.1 (p.lead + seat)

def reconnected (isAutoPlayer : Bool) (seat : Seat) : Option Client :=
  p.deal.bind fun deal =>
    (sendDealAndTakenMsg deal seat p.tricks.length).map fun messages =>
      messages.foldl (Client.receive isAutoPlayer seat) .new

/-- The client waits for the next trick with exactly the cards it has not played. -/
def Restored (isAutoPlayer : Bool) (seat : Seat) : Prop :=
  ∃ client, p.reconnected isAutoPlayer seat = some client ∧
    client.waiting = .taken (p.tricks.length + 1) ∧
    (client.player.held isAutoPlayer).Perm
      (((p.hands seat).diff (p.played seat)).map PlayingCard.text)

end PlayedDeal

/-! ## What the server sends -/

def inOrder (lead : Seat) (plays : Seat → PlayingCard) : List PlayingCard :=
  ([0, 1, 2, 3] : List Seat).map fun k => plays (lead + k)

theorem addCardToCards_text (t : Trick) (card : PlayingCard) :
    ∃ t', t.addCardToCards card.text = some t' ∧ t'.cardsString = t.cardsString ++ card.text := by
  obtain ⟨n, hn⟩ := Option.isSome_iff_exists.mp (cardValue_isSome card.valid)
  refine ⟨{ t with
    cardsString := t.cardsString ++ card.text
    cards := t.cards ++ [⟨card.value, card.suit.char, n⟩] }, ?_, rfl⟩
  simp [Trick.addCardToCards, PlayingCard.text, hn]

private theorem playTrick_spec (lead : Seat) (plays : Seat → PlayingCard) (winner : Seat) :
    ∃ t, playTrick lead plays winner = some t ∧ t.winningPlayer = some winner ∧
      t.cardsString = cardsText (inOrder lead plays) := by
  obtain ⟨t₀, h₀, hs₀⟩ := addCardToCards_text .new (plays (lead + 0))
  obtain ⟨t₁, h₁, hs₁⟩ := addCardToCards_text t₀ (plays (lead + 1))
  obtain ⟨t₂, h₂, hs₂⟩ := addCardToCards_text t₁ (plays (lead + 2))
  obtain ⟨t₃, h₃, hs₃⟩ := addCardToCards_text t₂ (plays (lead + 3))
  refine ⟨t₃.setWinningPlayer winner, ?_, rfl, ?_⟩
  · simp only [playTrick, List.foldlM_cons, List.foldlM_nil, Option.bind_eq_bind, h₀, h₁, h₂, h₃,
      Option.bind_some, Option.pure_def, Option.map_some]
  · change t₃.cardsString = _
    rw [hs₃, hs₂, hs₁, hs₀]
    simp [cardsText, inOrder, Trick.new]

private theorem foldl_setTrick (tricks : List Trick) (k : Nat) (deal : Deal) :
    let result := (tricks.zipIdx k).foldl (fun deal trick => deal.setTrick trick.2 trick.1) deal
    (result.dealType = deal.dealType ∧ result.leadPlayer = deal.leadPlayer ∧
        result.hands = deal.hands) ∧
      (∀ i, i < k → result.tricks i = deal.tricks i) ∧
      ∀ i trick, tricks[i]? = some trick → result.tricks (k + i) = trick := by
  induction tricks generalizing k deal with
  | nil => exact ⟨⟨rfl, rfl, rfl⟩, fun _ _ => rfl, by simp⟩
  | cons first tricks ih =>
      obtain ⟨hfields, hbefore, hthere⟩ := ih (k + 1) (deal.setTrick k first)
      refine ⟨hfields, fun i hi => ?_, fun i trick htrick => ?_⟩
      · refine (hbefore i (by omega)).trans ?_
        exact Function.update_of_ne (by omega) _ _
      · cases i with
        | zero =>
            obtain rfl := Option.some.inj htrick
            refine (hbefore k (Nat.lt_succ_self k)).trans ?_
            exact Function.update_self _ _ _
        | succ i =>
            have := hthere i trick htrick
            rwa [Nat.add_right_comm, Nat.add_assoc] at this

private theorem mapM_playTrick (lead : Seat) (tricks : List ((Seat → PlayingCard) × Seat)) :
    ∃ complete : List Trick,
      (tricks.mapM fun trick => playTrick lead trick.1 trick.2) = some complete ∧
      ∀ (i : Nat) trick, tricks[i]? = some trick → ∃ t, complete[i]? = some t ∧
        t.winningPlayer = some trick.2 ∧ t.cardsString = cardsText (inOrder lead trick.1) := by
  induction tricks with
  | nil => exact ⟨[], rfl, by simp⟩
  | cons first tricks ih =>
      obtain ⟨complete, hcomplete, hall⟩ := ih
      obtain ⟨t, ht, hwinner, hstring⟩ := playTrick_spec lead first.1 first.2
      refine ⟨t :: complete, by simp [List.mapM_cons, ht, hcomplete], fun i trick htrick => ?_⟩
      cases i with
      | zero =>
          obtain rfl := Option.some.inj htrick
          exact ⟨t, rfl, hwinner, hstring⟩
      | succ i => exact hall i trick htrick

namespace PlayedDeal

variable (p : PlayedDeal)

def takenText (i : Nat) (trick : (Seat → PlayingCard) × Seat) : Str :=
  ['T', 'A', 'K', 'E', 'N'] ++ toStr (i + 1) ++ cardsText (inOrder p.lead trick.1) ++
    [indexToChar trick.2]

def dealText (seat : Seat) : Str :=
  ['D', 'E', 'A', 'L'] ++ toStr p.dealType ++ [indexToChar p.lead] ++ cardsText (p.hands seat)

private theorem deal_spec :
    ∃ deal, p.deal = some deal ∧ (∀ seat, dealMessage deal seat = p.dealText seat) ∧
    ∀ i trick, p.tricks[i]? = some trick →
      takenMessage (deal.tricks i) (i + 1) = some (p.takenText i trick) := by
  obtain ⟨complete, hcomplete, hall⟩ := mapM_playTrick p.lead p.tricks
  refine ⟨_, by rw [deal, hcomplete]; rfl, fun seat => ?_, fun i trick htrick => ?_⟩
  · obtain ⟨⟨htype, hlead, hhands⟩, -⟩ := foldl_setTrick complete 0 p.dealt
    have hdealt : p.dealt.hands seat = cardsText (p.hands seat) := by
      fin_cases seat <;> rfl
    rw [dealMessage, htype, hlead, hhands, hdealt]
    rfl
  · obtain ⟨-, -, hthere⟩ := foldl_setTrick complete 0 p.dealt
    obtain ⟨t, ht, hwinner, hstring⟩ := hall i trick htrick
    have := hthere i t ht
    rw [Nat.zero_add] at this
    rw [this, takenMessage, hwinner, hstring]
    rfl

/-- The messages a client gets when it comes back. -/
def messages (seat : Seat) : List Str :=
  p.dealText seat ::
    (List.range p.tricks.length).map fun i => (p.tricks[i]?).elim [] (p.takenText i)

private theorem sent_messages (seat : Seat) : ∃ deal, p.deal = some deal ∧
    sendDealAndTakenMsg deal seat p.tricks.length = some (p.messages seat) := by
  obtain ⟨deal, hdeal, hmessage, htaken⟩ := p.deal_spec
  have hmapM : ∀ indices : List Nat, (∀ i ∈ indices, i < p.tricks.length) →
      (indices.mapM fun i => takenMessage (deal.tricks i) (i + 1)) =
        some (indices.map fun i => (p.tricks[i]?).elim [] (p.takenText i)) := by
    intro indices hindices
    induction indices with
    | nil => rfl
    | cons i indices ih =>
        have hi := hindices i List.mem_cons_self
        have hrest := ih fun i hi => hindices i (List.mem_cons_of_mem _ hi)
        simp only [List.mapM_cons, htaken i _ (List.getElem?_eq_getElem hi), hrest,
          List.getElem?_eq_getElem hi, Option.bind_eq_bind, Option.bind_some, Option.pure_def,
          List.map_cons, Option.elim_some]
  refine ⟨deal, hdeal, ?_⟩
  rw [sendDealAndTakenMsg, hmapM _ fun i hi => List.mem_range.mp hi, hmessage]
  rfl

private theorem reconnected_eq (isAutoPlayer : Bool) (seat : Seat) :
    p.reconnected isAutoPlayer seat =
    some ((p.messages seat).foldl (Client.receive isAutoPlayer seat) .new) := by
  obtain ⟨deal, hdeal, hmessages⟩ := p.sent_messages seat
  simp [reconnected, hdeal, hmessages]

end PlayedDeal

/-! ## What the client makes of it -/

/-- These are the cards in hand, in the order in which they were dealt. -/
def Holds (isAutoPlayer : Bool) (player : Player) (cards : List PlayingCard) : Prop :=
  if isAutoPlayer then
    ∀ suit : Suit, player.cardsBySuit suit.char =
      (cards.filter (·.suit = suit)).map PlayingCard.value
  else player.availableCards = cards.map PlayingCard.text

private theorem suits_perm (cards : List PlayingCard) :
    (cards.filter (·.suit = .clubs) ++ (cards.filter (·.suit = .diamonds) ++
      (cards.filter (·.suit = .hearts) ++ cards.filter (·.suit = .spades)))).Perm cards := by
  rw [List.perm_iff_count]
  intro card
  induction cards with
  | nil => rfl
  | cons first cards ih =>
      simp only [List.count_append, List.count_cons] at ih ⊢
      cases hsuit : first.suit <;>
        simp only [List.filter_cons, hsuit, decide_true, if_true, reduceCtorEq, decide_false,
          Bool.false_eq_true, if_false, List.count_cons] <;>
        omega

theorem Holds.held {isAutoPlayer : Bool} {player : Player} {cards : List PlayingCard}
    (h : Holds isAutoPlayer player cards) :
    (player.held isAutoPlayer).Perm (cards.map PlayingCard.text) := by
  cases isAutoPlayer with
  | false => exact h ▸ List.Perm.refl _
  | true =>
      have hsuit (suit : Suit) : (player.cardsBySuit suit.char).map (· ++ [suit.char]) =
          (cards.filter (·.suit = suit)).map PlayingCard.text := by
        rw [h suit, List.map_map]
        refine List.map_congr_left fun card hcard => ?_
        have : card.suit = suit := by simpa using (List.mem_filter.mp hcard).2
        simp [PlayingCard.text, this]
      have hheld : player.held true = (cards.filter (·.suit = .clubs) ++
          (cards.filter (·.suit = .diamonds) ++ (cards.filter (·.suit = .hearts) ++
            cards.filter (·.suit = .spades)))).map PlayingCard.text := by
        have hclubs := hsuit .clubs
        have hdiamonds := hsuit .diamonds
        have hhearts := hsuit .hearts
        have hspades := hsuit .spades
        simp only [Suit.char] at hclubs hdiamonds hhearts hspades
        simp [Player.held, hclubs, hdiamonds, hhearts, hspades]
      rw [hheld]
      exact (suits_perm cards).map _

theorem addMatches_spec (player : Player) (cards : List PlayingCard) :
    ∃ player', player.addMatches (cards.map fun card => (card.value, card.suit.char)) =
        (true, player') ∧
      (∀ suit : Suit, player'.cardsBySuit suit.char = player.cardsBySuit suit.char ++
        (cards.filter (·.suit = suit)).map PlayingCard.value) ∧
      player'.availableCards = player.availableCards ++ cards.map PlayingCard.text := by
  induction cards generalizing player with
  | nil => exact ⟨player, rfl, by simp, by simp⟩
  | cons card cards ih =>
      have hadd : player.addCard card.value card.suit.char = some { player with
          cardsBySuit := Function.update player.cardsBySuit card.suit.char
            (player.cardsBySuit card.suit.char ++ [card.value])
          availableCards := player.availableCards ++ [card.text] } := by
        have hvalue := cardValue_isSome card.valid
        simp [Player.addCard, Option.isNone_eq_false_iff.mpr hvalue, PlayingCard.text]
      obtain ⟨player', hplayer', hsuits, havailable⟩ := ih { player with
          cardsBySuit := Function.update player.cardsBySuit card.suit.char
            (player.cardsBySuit card.suit.char ++ [card.value])
          availableCards := player.availableCards ++ [card.text] }
      refine ⟨player', by rw [List.map_cons, Player.addMatches, hadd]; exact hplayer',
        fun suit => ?_, by simp [havailable]⟩
      rw [hsuits]
      by_cases hsuit : card.suit = suit
      · subst hsuit
        simp
      · have hne : suit.char ≠ card.suit.char := fun h => hsuit (Suit.char_injective h).symm
        simp [Function.update_of_ne hne, hsuit]

theorem toStr_deal {dealType : Nat} (h : 1 ≤ dealType ∧ dealType ≤ 7) :
    ∃ c, toStr dealType = [c] ∧ safeStoi [c] = some dealType := by
  obtain ⟨hlow, hhigh⟩ := h
  interval_cases dealType <;> exact ⟨_, rfl, rfl⟩

theorem toStr_trick {i : Nat} (h : i < 13) : (toStr (i + 1)).length = numberLength (i + 1) ∧
    safeStoi (toStr (i + 1)) = some (i + 1) := by
  revert i
  decide

theorem takeCards_text (isAutoPlayer : Bool) (seat : Seat) (player : Player)
    {cards : List PlayingCard} {card : PlayingCard} (hcards : cards.length = 4)
    (hcard : cards[seat.val]? = some card) :
    takeCards isAutoPlayer seat player (cardsText cards) =
      (.done, if isAutoPlayer then player.eraseFromCardsBySuit card.text
        else player.eraseFromAvailableCards card.text) := by
  have hcorrect := checkCorrectness_text hcards.le
  have hchecks : ¬ ((cards.map PlayingCard.text).length ≠ 4 ∨
      !checkCorrectness (cards.map PlayingCard.text) 4) := by
    simp [hcards, hcorrect]
  have htext : (cards.map PlayingCard.text)[seat.val]? = some card.text := by
    rw [List.getElem?_map, hcard, Option.map_some]
  simp only [takeCards, splitCards_cardsText, if_neg hchecks, htext]

namespace PlayedDeal

variable (p : PlayedDeal)

private theorem receive_deal (isAutoPlayer : Bool) (seat : Seat) : ∃ player,
    Client.receive isAutoPlayer seat .new (p.dealText seat) = ⟨player, .taken 1⟩ ∧
      Holds isAutoPlayer player (p.hands seat) := by
  obtain ⟨c, hc, hstoi⟩ := toStr_deal p.type_valid
  obtain ⟨player, hplayer, hsuits, havailable⟩ := addMatches_spec .new (p.hands seat)
  refine ⟨player.setCards (cardsText (p.hands seat)), ?_, ?_⟩
  · have htype : ¬ (p.dealType = 0 ∨ 7 < p.dealType) := by
      have := p.type_valid
      omega
    have hadd : Player.new.addCards (cardsText (p.hands seat)) = (true, player) := by
      simp [Player.addCards, cardMatches_cardsText, hplayer, p.hand_size seat]
    simp [Client.receive, Client.new, receiveDealMessage, dealText, hc, hstoi, htype, hadd]
  · cases isAutoPlayer with
    | false => exact havailable
    | true => exact fun suit => (hsuits suit).trans (List.nil_append _)

private theorem takeCards_spec (isAutoPlayer : Bool) (seat lead : Seat) (plays : Seat → PlayingCard)
    {player : Player} {cards : List PlayingCard} (h : Holds isAutoPlayer player cards) :
    ∃ player', takeCards isAutoPlayer seat player (cardsText (inOrder lead plays)) =
        (.done, player') ∧
      Holds isAutoPlayer player' (cards.filter (· ≠ plays (lead + seat))) := by
  have hcard : (inOrder lead plays)[seat.val]? = some (plays (lead + seat)) := by
    fin_cases seat <;> rfl
  generalize plays (lead + seat) = card at hcard ⊢
  refine ⟨_, takeCards_text isAutoPlayer seat player rfl hcard, ?_⟩
  cases isAutoPlayer with
  | false =>
      have havailable : player.availableCards = cards.map PlayingCard.text := h
      change player.availableCards.filter (· ≠ card.text) = _
      rw [havailable, List.filter_map]
      refine congrArg _ (List.filter_congr fun c _ => ?_)
      simp [PlayingCard.text_injective.eq_iff]
  | true =>
      intro suit
      have hsuits : player.cardsBySuit suit.char =
        (cards.filter (·.suit = suit)).map PlayingCard.value := h suit
      have herase : (player.eraseFromCardsBySuit card.text).cardsBySuit =
          Function.update player.cardsBySuit card.suit.char
            ((player.cardsBySuit card.suit.char).filter (· ≠ card.value)) := by
        simp [Player.eraseFromCardsBySuit, PlayingCard.text]
      rw [if_pos rfl, herase]
      by_cases hsuit : suit = card.suit
      · subst hsuit
        rw [Function.update_self, hsuits, List.filter_map, List.filter_filter,
          List.filter_filter]
        refine congrArg _ (List.filter_congr fun c _ => ?_)
        by_cases hc : c.suit = card.suit
        · have : c = card ↔ c.value = card.value := by
            constructor
            · rintro rfl
              rfl
            · intro hvalue
              cases c
              cases card
              simp_all
          simp [hc, this]
        · have : c ≠ card := fun heq => hc (heq ▸ rfl)
          simp [hc]
      · have hne : suit.char ≠ card.suit.char := fun heq => hsuit (Suit.char_injective heq)
        rw [Function.update_of_ne hne, hsuits, List.filter_filter]
        refine congrArg _ (List.filter_congr fun c _ => ?_)
        by_cases hc : c.suit = suit
        · have : c ≠ card := fun heq => hsuit (hc ▸ heq ▸ rfl)
          simp [hc, this]
        · simp [hc]

/-- A trick's message says its number and its cards. -/
private theorem takenText_parse {i : Nat} (hi : i < 12) (trick : (Seat → PlayingCard) × Seat) :
    (p.takenText i trick).take 5 = ['T', 'A', 'K', 'E', 'N'] ∧
      (p.takenText i trick).getLast? = some (indexToChar trick.2) ∧
      5 + numberLength (i + 1) ≤ (p.takenText i trick).dropLast.length ∧
      ((p.takenText i trick).dropLast.drop 5).take (numberLength (i + 1)) = toStr (i + 1) ∧
      (p.takenText i trick).dropLast.drop (5 + numberLength (i + 1)) =
        cardsText (inOrder p.lead trick.1) := by
  have hlength := (toStr_trick (by omega : i < 13)).1
  have hdropLast : (p.takenText i trick).dropLast =
      ['T', 'A', 'K', 'E', 'N'] ++ (toStr (i + 1) ++ cardsText (inOrder p.lead trick.1)) := by
    rw [takenText, List.dropLast_concat, List.append_assoc]
  have hdrop : (p.takenText i trick).dropLast.drop 5 =
      toStr (i + 1) ++ cardsText (inOrder p.lead trick.1) := by
    rw [hdropLast]
    rfl
  refine ⟨rfl, by rw [takenText, List.getLast?_concat], ?_, ?_, ?_⟩
  · rw [hdropLast]
    simp only [List.length_append, hlength, List.length_cons, List.length_nil]
    omega
  · rw [hdrop, ← hlength, List.take_left']
    rfl
  · rw [← List.drop_drop, hdrop, ← hlength, List.drop_left']
    rfl

private theorem receive_taken (isAutoPlayer : Bool) (seat : Seat) {i : Nat}
    {trick : (Seat → PlayingCard) × Seat} (hi : i < 12) {player : Player}
    {cards : List PlayingCard} (h : Holds isAutoPlayer player cards) : ∃ player',
    Client.receive isAutoPlayer seat ⟨player, .taken (i + 1)⟩ (p.takenText i trick) =
        ⟨player', .taken (i + 2)⟩ ∧
      Holds isAutoPlayer player' (cards.filter (· ≠ trick.1 (p.lead + seat))) := by
  obtain ⟨hword, hlast, hlength, hnumber, hcards⟩ := p.takenText_parse hi trick
  obtain ⟨player', htake, hholds⟩ := takeCards_spec isAutoPlayer seat p.lead trick.1 h
  have hne : cardsText (inOrder p.lead trick.1) ≠ [] := by
    simp [cardsText, inOrder, PlayingCard.text]
  have hstoi := (toStr_trick (by omega : i < 13)).2
  generalize p.takenText i trick = message at hword hlast hlength hnumber hcards ⊢
  have hlong : ¬ message.length - 1 < 5 + numberLength (i + 1) := by
    rw [List.length_dropLast] at hlength
    omega
  by_cases hmine : isAutoPlayer = false ∧ indexToChar trick.2 = indexToChar seat
  · obtain ⟨rfl, hposition⟩ := hmine
    refine ⟨player'.addTakenTrick (splitCards (cardsText (inOrder p.lead trick.1))), ?_, hholds⟩
    simp [Client.receive, receiveTakenOrTrickMessage, hword, hlast, hlong, hnumber, hcards, hstoi,
      hne, htake, hposition]
  · refine ⟨player', ?_, hholds⟩
    simp [Client.receive, receiveTakenOrTrickMessage, hword, hlast, hlong, hnumber, hcards, hstoi,
      hne, htake, hmine]

/-- What the client has at the end: the dealt cards but for those that stand at
its own index. -/
private theorem reconnected_holds (isAutoPlayer : Bool) (seat : Seat) : ∃ client,
    p.reconnected isAutoPlayer seat = some client ∧
      client.waiting = .taken (p.tricks.length + 1) ∧
      Holds isAutoPlayer client.player ((p.hands seat).filter (· ∉ p.standing seat)) := by
  obtain ⟨player, hdeal, hholds⟩ := p.receive_deal isAutoPlayer seat
  have htaken : ∀ n, n ≤ p.tricks.length → ∃ player',
      ((List.range n).map fun i => (p.tricks[i]?).elim [] (p.takenText i)).foldl
          (Client.receive isAutoPlayer seat) ⟨player, .taken 1⟩ = ⟨player', .taken (n + 1)⟩ ∧
        Holds isAutoPlayer player'
          ((p.hands seat).filter (· ∉ (p.standing seat).take n)) := by
    intro n
    induction n with
    | zero => exact fun _ => ⟨player, rfl, by simpa using hholds⟩
    | succ n ih =>
        intro hn
        obtain ⟨player', hfold, hplayer'⟩ := ih (by omega)
        have hcount := p.trick_count
        obtain ⟨player'', hreceive, hplayer''⟩ :=
          @receive_taken p isAutoPlayer seat n p.tricks[n] (by omega) player' _ hplayer'
        refine ⟨player'', ?_, ?_⟩
        · rw [List.range_succ, List.map_append, List.foldl_append, hfold, List.map_singleton,
            List.getElem?_eq_getElem (by omega), Option.elim_some, List.foldl_cons, hreceive]
          rfl
        · have hfilter : ((p.hands seat).filter (· ∉ (p.standing seat).take n)).filter
              (· ≠ p.tricks[n].1 (p.lead + seat)) =
                (p.hands seat).filter (· ∉ (p.standing seat).take (n + 1)) := by
            have hstanding : (p.standing seat)[n]? = some (p.tricks[n].1 (p.lead + seat)) := by
              rw [standing, List.getElem?_map, List.getElem?_eq_getElem (by omega)]
              rfl
            rw [List.filter_filter, List.take_add_one, hstanding]
            refine List.filter_congr fun card _ => ?_
            simp [not_or, Bool.and_comm]
          rw [← hfilter]
          exact hplayer''
  obtain ⟨player', hfold, hplayer'⟩ := htaken p.tricks.length le_rfl
  refine ⟨⟨player', .taken (p.tricks.length + 1)⟩, ?_, rfl, ?_⟩
  · rw [reconnected_eq, messages, List.foldl_cons, hdeal, hfold]
  · have hlength : (p.standing seat).length = p.tricks.length := by simp [standing]
    rwa [← hlength, List.take_length] at hplayer'

/-- The client takes out the cards at its own index; these are to be the ones it
played. -/
private theorem restored_iff (isAutoPlayer : Bool) (seat : Seat) : p.Restored isAutoPlayer seat ↔
    ((p.hands seat).filter (· ∉ p.standing seat)).Perm ((p.hands seat).diff (p.played seat)) := by
  obtain ⟨client, hclient, hwaiting, hholds⟩ := p.reconnected_holds isAutoPlayer seat
  constructor
  · rintro ⟨client', hclient', -, hperm⟩
    obtain rfl := Option.some.inj (hclient.symm.trans hclient')
    exact (List.map_perm_map_iff PlayingCard.text_injective).mp (hholds.held.symm.trans hperm)
  · exact fun hperm => ⟨client, hclient, hwaiting, hholds.held.trans (hperm.map _)⟩

structure Distinct : Prop where
  hand : ∀ seat, (p.hands seat).Nodup
  hands : ∀ seat seat' card, card ∈ p.hands seat → card ∈ p.hands seat' → seat = seat'

/-- The cards at the client's own index are, among those it was dealt, the ones it
played. -/
def StandsRight (seat : Seat) : Prop :=
  (∀ card ∈ p.hands seat, card ∈ p.standing seat ↔ card ∈ p.played seat) ∧
    ∀ card ∈ p.played seat, (p.played seat).count card = (p.hands seat).count card

private theorem perm_iff_standsRight (seat : Seat) :
    ((p.hands seat).filter (· ∉ p.standing seat)).Perm ((p.hands seat).diff (p.played seat)) ↔
      p.StandsRight seat := by
  have hown (card : PlayingCard) :
      (p.played seat).count card ≤ (p.hands seat).count card := (p.played_own seat).count_le card
  have hcount (card : PlayingCard) : ((p.hands seat).filter (· ∉ p.standing seat)).count card =
      if card ∈ p.standing seat then 0 else (p.hands seat).count card := by
    split_ifs with hcard
    · rw [List.count_eq_zero]
      simp [hcard]
    · rw [List.count_filter]
      simpa using hcard
  rw [List.perm_iff_count]
  simp only [hcount, List.count_diff]
  constructor
  · intro h
    have hstanding (card : PlayingCard) (hcard : card ∈ p.hands seat) :
        card ∈ p.standing seat ↔ card ∈ p.played seat := by
      have hpos := List.count_pos_iff.mpr hcard
      have heq := h card
      have hle := hown card
      rw [← @List.count_pos_iff _ _ _ card (p.played seat)]
      split_ifs at heq with hin
      · simp only [hin, true_iff]
        omega
      · simp only [hin, false_iff]
        omega
    refine ⟨hstanding, fun card hcard => ?_⟩
    have hdealt : card ∈ p.hands seat := (p.played_own seat).subset hcard
    have heq := h card
    have hle := hown card
    rw [if_pos ((hstanding card hdealt).mpr hcard)] at heq
    omega
  · rintro ⟨hstanding, hall⟩ card
    by_cases hcard : card ∈ p.hands seat
    · split_ifs with hin
      · have := hall card ((hstanding card hcard).mp hin)
        omega
      · have : card ∉ p.played seat := mt (hstanding card hcard).mpr hin
        rw [List.count_eq_zero.mpr this, Nat.sub_zero]
    · have := List.count_eq_zero.mpr hcard
      split_ifs <;> omega

private theorem standsRight_distinct (h : p.Distinct) (seat : Seat) :
    p.StandsRight seat ↔ p.tricks = [] ∨ p.lead = 0 := by
  constructor
  · rintro ⟨hstanding, -⟩
    cases htricks : p.tricks with
    | nil => exact .inl rfl
    | cons trick tricks =>
        refine .inr ?_
        have hplayed : trick.1 seat ∈ p.played seat := by simp [played, htricks]
        have hdealt := (p.played_own seat).subset hplayed
        have hstands := (hstanding _ hdealt).mpr hplayed
        have hother : trick.1 seat ∈ p.hands (p.lead + seat) := (p.played_own _).subset hstands
        have hseat := h.hands _ _ _ hdealt hother
        exact (add_eq_right.mp hseat.symm)
  · intro hcase
    have heq : p.standing seat = p.played seat := by
      rcases hcase with htricks | hlead
      · simp [standing, played, htricks]
      · simp [standing, played, hlead]
    refine ⟨fun card _ => by rw [heq], fun card hcard => ?_⟩
    have hle := (p.played_own seat).count_le card
    have hone := List.nodup_iff_count_le_one.mp (h.hand seat) card
    have hpos := List.count_pos_iff.mpr hcard
    change (p.played seat).count card ≤ _ at hle
    omega

end PlayedDeal

/-- When every card is dealt once, the hand is restored only if no trick was
complete or the north player leads. -/
theorem replay_restores (p : PlayedDeal) (isAutoPlayer : Bool) (seat : Seat) :
    (p.Restored isAutoPlayer seat ↔ p.StandsRight seat) ∧
      (p.Distinct → (p.Restored isAutoPlayer seat ↔ p.tricks = [] ∨ p.lead = 0)) := by
  have hrestored : p.Restored isAutoPlayer seat ↔ p.StandsRight seat :=
    (p.restored_iff isAutoPlayer seat).trans (p.perm_iff_standsRight seat)
  exact ⟨hrestored, fun h => hrestored.trans (p.standsRight_distinct h seat)⟩

def eastLeads : PlayedDeal where
  dealType := 1
  lead := 1
  hands seat := suitHand (![.clubs, .diamonds, .hearts, .spades] seat)
  tricks := [(fun seat => ⟨['2'], ![.clubs, .diamonds, .hearts, .spades] seat, by decide⟩, 1)]
  type_valid := by decide
  hand_size seat := rfl
  trick_count := by decide
  played_own := by decide

theorem replay_keeps_played :
    ¬ ∀ (p : PlayedDeal) isAutoPlayer seat, p.Restored isAutoPlayer seat := by
  intro h
  have hperm := (eastLeads.restored_iff true 0).mp (h eastLeads true 0)
  exact absurd hperm (by decide)

end Mimuw.Cards
