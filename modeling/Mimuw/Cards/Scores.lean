import Mimuw.Cards.Deals

/-!
# Scores

`calculate_points` of a deal, with the seven rules of the game.
-/

namespace Mimuw.Cards

abbrev Scores := Seat → Int

/-- `scores[winner] += points`; `none` is undefined behaviour, as in a trick without
a winner. -/
def award (winner : Option Seat) (points : Int) (scores : Scores) : Option Scores :=
  winner.map fun winner => Function.update scores winner (scores winner + points)

def awardIf (condition : Prop) [Decidable condition] (winner : Option Seat) (points : Int)
    (scores : Scores) : Option Scores :=
  if condition then award winner points scores else some scores

/-- The loop over the cards of a trick in the rules 2 to 5. -/
def awardCards (counts : Card → Bool) (winner : Option Seat) (points : Int) (cards : List Card)
    (scores : Scores) : Option Scores :=
  cards.foldlM (fun scores card => awardIf (counts card) winner points scores) scores

/-- What the rule 7 gives for a card. -/
def awardRobber (winner : Option Seat) (card : Card) (scores : Scores) : Option Scores := do
  let scores ← awardIf (card.suit = 'H') winner 1 scores
  let scores ← awardIf (card.valueString = ['Q']) winner 5 scores
  let scores ← awardIf (card.valueString = ['J'] ∨ card.valueString = ['K']) winner 2 scores
  awardIf (card.valueString = ['K'] ∧ card.suit = 'H') winner 18 scores

def calculateTrick (dealType i : Nat) (trick : Trick) (scores : Scores) : Option Scores :=
  let winner := trick.winningPlayer
  match dealType with
  | 1 => award winner 1 scores
  | 2 => awardCards (fun card => card.suit = 'H') winner 1 trick.cards scores
  | 3 => awardCards (fun card => card.valueString = ['Q']) winner 5 trick.cards scores
  | 4 => awardCards (fun card => card.valueString = ['J'] ∨ card.valueString = ['K']) winner 2
      trick.cards scores
  | 5 => awardCards (fun card => card.valueString = ['K'] ∧ card.suit = 'H') winner 18
      trick.cards scores
  | 6 => awardIf (i = 6 ∨ i = 12) winner 10 scores
  | 7 => do
      let scores ← award winner 1 scores
      let scores ← trick.cards.foldlM (fun scores card => awardRobber winner card scores) scores
      awardIf (i = 6 ∨ i = 12) winner 10 scores
  | _ => some scores

/-- The scores of a new deal are 0. -/
def Deal.calculatePoints (deal : Deal) : Option Scores :=
  (List.range 13).foldlM
    (fun scores i => calculateTrick deal.dealType i (deal.tricks i) scores) 0

/-! ## What a trick is worth -/

def cardWorth (dealType : Nat) (card : Card) : Int :=
  match dealType with
  | 2 => if card.suit = 'H' then 1 else 0
  | 3 => if card.valueString = ['Q'] then 5 else 0
  | 4 => if card.valueString = ['J'] ∨ card.valueString = ['K'] then 2 else 0
  | 5 => if card.valueString = ['K'] ∧ card.suit = 'H' then 18 else 0
  | 7 => (if card.suit = 'H' then 1 else 0) + (if card.valueString = ['Q'] then 5 else 0) +
      (if card.valueString = ['J'] ∨ card.valueString = ['K'] then 2 else 0) +
      (if card.valueString = ['K'] ∧ card.suit = 'H' then 18 else 0)
  | _ => 0

def trickWorth (dealType i : Nat) : Int :=
  match dealType with
  | 1 => 1
  | 6 => if i = 6 ∨ i = 12 then 10 else 0
  | 7 => 1 + if i = 6 ∨ i = 12 then 10 else 0
  | _ => 0

def worth (dealType i : Nat) (cards : List Card) : Int :=
  trickWorth dealType i + (cards.map (cardWorth dealType)).sum

def score (deal : Deal) (seat : Seat) : Int :=
  ∑ i ∈ Finset.range 13,
    if (deal.tricks i).winningPlayer = some seat then
      worth deal.dealType i (deal.tricks i).cards
    else 0

def Scores.add (scores : Scores) (winner : Seat) (points : Int) : Scores :=
  Function.update scores winner (scores winner + points)

private theorem Scores.add_apply (scores : Scores) (winner seat : Seat) (points : Int) :
    scores.add winner points seat = scores seat + if winner = seat then points else 0 := by
  rcases eq_or_ne seat winner with rfl | h
  · simp [Scores.add]
  · simp [Scores.add, h, h.symm]

@[simp] theorem Scores.add_add (scores : Scores) (winner : Seat) (p q : Int) :
    (scores.add winner p).add winner q = scores.add winner (p + q) := by
  funext seat
  simp only [Scores.add_apply]
  split <;> ring

@[simp] theorem Scores.add_zero (scores : Scores) (winner : Seat) :
    scores.add winner 0 = scores := by
  funext seat
  simp [Scores.add_apply]

@[simp] theorem award_some (winner : Seat) (points : Int) (scores : Scores) :
    award (some winner) points scores = some (scores.add winner points) := rfl

@[simp] theorem awardIf_some (condition : Prop) [Decidable condition] (winner : Seat) (points : Int)
    (scores : Scores) : awardIf condition (some winner) points scores =
      some (scores.add winner (if condition then points else 0)) := by
  unfold awardIf
  split <;> simp

private theorem awardRobber_some (winner : Seat) (card : Card) (scores : Scores) :
    awardRobber (some winner) card scores = some (scores.add winner (cardWorth 7 card)) := by
  simp [awardRobber, cardWorth, add_assoc]

/-- A loop that awards the winner card by card awards the sum. -/
private theorem foldlM_award {winner : Seat} {worth : Card → Int}
    {step : Scores → Card → Option Scores}
    (h : ∀ scores card, step scores card = some (scores.add winner (worth card)))
    (cards : List Card) (scores : Scores) :
    cards.foldlM step scores = some (scores.add winner (cards.map worth).sum) := by
  induction cards generalizing scores with
  | nil => simp
  | cons card cards ih =>
      rw [List.foldlM_cons, h, Option.bind_eq_bind, Option.bind_some, ih, Scores.add_add,
        List.map_cons, List.sum_cons]

private theorem awardCards_some {counts : Card → Bool} {points : Int} {worth : Card → Int}
    (h : ∀ card, (if counts card then points else 0) = worth card) (winner : Seat)
    (cards : List Card) (scores : Scores) : awardCards counts (some winner) points cards scores =
      some (scores.add winner (cards.map worth).sum) := by
  apply foldlM_award
  intro scores card
  rw [awardIf_some, h]

private theorem calculateTrick_eq {dealType i : Nat} (htype : 1 ≤ dealType ∧ dealType ≤ 7)
    {trick : Trick}
    {winner : Seat} (hwinner : trick.winningPlayer = some winner) (scores : Scores) :
    calculateTrick dealType i trick scores =
      some (scores.add winner (worth dealType i trick.cards)) := by
  obtain ⟨hlow, hhigh⟩ := htype
  have hnone (dealType : Nat) (h : cardWorth dealType = fun _ => 0) :
      worth dealType i trick.cards = trickWorth dealType i := by
    simp [worth, h]
  have hcards (dealType : Nat) (h : trickWorth dealType i = 0) :
      worth dealType i trick.cards = (trick.cards.map (cardWorth dealType)).sum := by
    rw [worth, h, zero_add]
  interval_cases dealType
  case «1» => rw [hnone 1 rfl, calculateTrick, hwinner, award_some, trickWorth]
  case «2» =>
    rw [hcards 2 rfl, calculateTrick, hwinner]
    exact awardCards_some (fun card => by simp [cardWorth]) ..
  case «3» =>
    rw [hcards 3 rfl, calculateTrick, hwinner]
    exact awardCards_some (fun card => by simp [cardWorth]) ..
  case «4» =>
    rw [hcards 4 rfl, calculateTrick, hwinner]
    exact awardCards_some (fun card => by simp [cardWorth]) ..
  case «5» =>
    rw [hcards 5 rfl, calculateTrick, hwinner]
    exact awardCards_some (fun card => by simp [cardWorth]) ..
  case «6» => rw [hnone 6 rfl, calculateTrick, hwinner, awardIf_some, trickWorth]
  case «7» =>
    have hrobber := foldlM_award
      (fun scores card => awardRobber_some winner card scores) trick.cards
    rw [calculateTrick, hwinner, award_some, Option.bind_eq_bind, Option.bind_some]
    rw [hrobber, Option.bind_some, awardIf_some, Scores.add_add, Scores.add_add]
    congr 2
    rw [worth, trickWorth]
    ring

/-! ## The whole deal -/

structure Deal.Played (deal : Deal) : Prop where
  four : ∀ i < 13, (deal.tricks i).cards.length = 4
  valid : ∀ i < 13, ∀ card ∈ (deal.tricks i).cards, ∃ c : PlayingCard, c.entry = card
  winner : ∀ i < 13, (deal.tricks i).winningPlayer.isSome

def Deal.cards (deal : Deal) : List Card :=
  (List.range 13).flatMap fun i => (deal.tricks i).cards

def Deal.withType (deal : Deal) (dealType : Nat) : Deal := { deal with dealType := dealType }

private theorem foldlM_calculateTrick {dealType : Nat} (htype : 1 ≤ dealType ∧ dealType ≤ 7)
    {tricks : Nat → Trick} {n : Nat} (h : ∀ i < n, (tricks i).winningPlayer.isSome)
    (scores : Scores) :
    (List.range n).foldlM (fun scores i => calculateTrick dealType i (tricks i) scores) scores =
      some fun seat => scores seat + ∑ i ∈ Finset.range n,
        if (tricks i).winningPlayer = some seat then worth dealType i (tricks i).cards else 0 := by
  induction n with
  | zero => simp
  | succ n ih =>
      obtain ⟨winner, hwinner⟩ := Option.isSome_iff_exists.mp (h n (Nat.lt_succ_self n))
      rw [List.range_succ, List.foldlM_append, ih fun i hi => h i (Nat.lt_succ_of_lt hi),
        Option.bind_eq_bind, Option.bind_some, List.foldlM_cons, calculateTrick_eq htype hwinner,
        Option.bind_eq_bind, Option.bind_some, List.foldlM_nil, Option.pure_def]
      congr 1
      funext seat
      rw [Scores.add_apply, Finset.sum_range_succ, hwinner, add_assoc]
      simp only [Option.some.injEq]

private theorem calculatePoints_eq {deal : Deal} (htype : 1 ≤ deal.dealType ∧ deal.dealType ≤ 7)
    (h : deal.Played) : deal.calculatePoints = some (score deal) := by
  rw [Deal.calculatePoints, foldlM_calculateTrick htype h.winner]
  simp only [Pi.zero_apply, zero_add]
  rfl

private theorem sum_robber (cards : List Card) : (cards.map (cardWorth 7)).sum =
    (cards.map (cardWorth 2)).sum + (cards.map (cardWorth 3)).sum + (cards.map (cardWorth 4)).sum +
      (cards.map (cardWorth 5)).sum := by
  induction cards with
  | nil => rfl
  | cons card cards ih =>
      have hcard : cardWorth 7 card =
          cardWorth 2 card + cardWorth 3 card + cardWorth 4 card + cardWorth 5 card := rfl
      simp only [List.map_cons, List.sum_cons, ih, hcard]
      ring

private theorem worth_robber (i : Nat) (cards : List Card) :
    worth 7 i cards = ∑ dealType ∈ Finset.Icc 1 6, worth dealType i cards := by
  have hIcc : Finset.Icc 1 6 = {1, 2, 3, 4, 5, 6} := rfl
  have hnone (dealType : Nat) (h : cardWorth dealType = fun _ => 0) :
      (cards.map (cardWorth dealType)).sum = 0 := by
    simp [h]
  simp only [hIcc, worth, trickWorth, sum_robber]
  simp [hnone 1 rfl, hnone 6 rfl]
  ring

private theorem score_withType (deal : Deal) (dealType : Nat) (seat : Seat) :
    score (deal.withType dealType) seat = ∑ i ∈ Finset.range 13,
      if (deal.tricks i).winningPlayer = some seat then worth dealType i (deal.tricks i).cards
      else 0 := rfl

/-- The seven rules give the seats the sum of the six. -/
private theorem score_robber (deal : Deal) (seat : Seat) :
    score (deal.withType 7) seat = ∑ dealType ∈ Finset.Icc 1 6,
      score (deal.withType dealType) seat := by
  simp only [score_withType]
  rw [Finset.sum_comm]
  apply Finset.sum_congr rfl
  intro i hi
  by_cases hseat : (deal.tricks i).winningPlayer = some seat
  · simp only [if_pos hseat, worth_robber]
  · simp only [if_neg hseat, Finset.sum_const_zero]

private theorem sum_flatMap_range {α : Type} (f : α → Int) (lists : Nat → List α) (n : Nat) :
    (((List.range n).flatMap lists).map f).sum =
      ∑ i ∈ Finset.range n, ((lists i).map f).sum := by
  induction n with
  | zero => rfl
  | succ n ih =>
      rw [List.range_succ, List.flatMap_append, List.map_append, List.sum_append, ih,
        Finset.sum_range_succ, List.flatMap_singleton]

private theorem sum_score {deal : Deal} (h : deal.Played) : ∑ seat, score deal seat =
    ∑ i ∈ Finset.range 13, trickWorth deal.dealType i +
      (deal.cards.map (cardWorth deal.dealType)).sum := by
  have htrick : ∀ i ∈ Finset.range 13, (∑ seat, if (deal.tricks i).winningPlayer = some seat then
      worth deal.dealType i (deal.tricks i).cards else 0) =
        trickWorth deal.dealType i + ((deal.tricks i).cards.map (cardWorth deal.dealType)).sum := by
    intro i hi
    obtain ⟨winner, hwinner⟩ := Option.isSome_iff_exists.mp (h.winner i (Finset.mem_range.mp hi))
    simp [hwinner, worth]
  simp only [score]
  rw [Finset.sum_comm, Finset.sum_congr rfl htrick, Finset.sum_add_distrib, Deal.cards,
    sum_flatMap_range]

/-! ## The deck -/

def suits : List Suit := [.clubs, .diamonds, .hearts, .spades]

def deck : List PlayingCard :=
  suits.flatMap suitHand

private theorem mem_deck (card : PlayingCard) : card ∈ deck := by
  simp only [deck, suitHand, List.mem_flatMap, List.mem_map]
  refine ⟨card.suit, ?_, ⟨card.value, card.valid⟩, List.mem_attach _ _, rfl⟩
  cases card.suit <;> decide

private theorem nodup_deck : deck.Nodup := by decide +kernel

private theorem PlayingCard.entry_injective : Function.Injective PlayingCard.entry := by
  intro a b h
  obtain ⟨hvalue, hsuit, -⟩ := Card.mk.inj h
  have hsuit' := Suit.char_injective hsuit
  cases a
  cases b
  simp_all

private theorem cards_perm_deck {deal : Deal} (h : deal.Played)
    (hcount : ∀ card : PlayingCard, deal.cards.count card.entry = 1) :
    deal.cards.Perm (deck.map PlayingCard.entry) := by
  rw [List.perm_iff_count]
  intro entry
  by_cases hentry : ∃ card : PlayingCard, card.entry = entry
  · obtain ⟨card, rfl⟩ := hentry
    rw [hcount, List.count_map_of_injective _ _ PlayingCard.entry_injective,
      List.count_eq_one_of_mem nodup_deck (mem_deck card)]
  · have hplayed : entry ∉ deal.cards := by
      simp only [Deal.cards, List.mem_flatMap, List.mem_range]
      rintro ⟨i, hi, hmem⟩
      exact hentry (h.valid i hi entry hmem)
    have hdeck : entry ∉ deck.map PlayingCard.entry := by
      rintro hmem
      obtain ⟨card, -, rfl⟩ := List.mem_map.mp hmem
      exact hentry ⟨card, rfl⟩
    rw [List.count_eq_zero_of_not_mem hplayed, List.count_eq_zero_of_not_mem hdeck]

private theorem sum_score_deck {deal : Deal} (h : deal.Played)
    (hcount : ∀ card : PlayingCard, deal.cards.count card.entry = 1) (dealType : Nat) :
    ∑ seat, score (deal.withType dealType) seat =
      ∑ i ∈ Finset.range 13, trickWorth dealType i +
        ((deck.map PlayingCard.entry).map (cardWorth dealType)).sum := by
  have hplayed : (deal.withType dealType).Played := ⟨h.four, h.valid, h.winner⟩
  have hperm := (cards_perm_deck h hcount).map (cardWorth dealType)
  rw [sum_score hplayed, ← hperm.sum_eq]
  rfl

/-- `calculate_points` under the rules 1 to 7, on the same tricks. -/
theorem scores_add_up (deal : Deal) (h : deal.Played) : ∃ scores : Nat → Scores,
    (∀ dealType, 1 ≤ dealType ∧ dealType ≤ 7 →
      (deal.withType dealType).calculatePoints = some (scores dealType)) ∧
    (∀ seat, scores 7 seat = ∑ dealType ∈ Finset.Icc 1 6, scores dealType seat) ∧
    ((∀ card : PlayingCard, deal.cards.count card.entry = 1) →
      [1, 2, 3, 4, 5, 6, 7].map (fun dealType => ∑ seat, scores dealType seat) =
        [13, 13, 20, 16, 18, 20, 100]) := by
  refine ⟨fun dealType => score (deal.withType dealType), fun dealType htype => ?_,
    score_robber deal, fun hcount => ?_⟩
  · exact calculatePoints_eq htype ⟨h.four, h.valid, h.winner⟩
  · simp only [sum_score_deck h hcount]
    decide +kernel

def valuesInTurn : Deal :=
  { Deal.new 1 'N' with
    tricks := fun i =>
      { Trick.new with
        winningPlayer := some (if i % 2 = 0 then 0 else 3)
        cards := (deck.filter fun card => card.value = values.getD i []).map PlayingCard.entry } }

theorem scores_add_up_valuesInTurn :
    ∃ scores : Nat → Scores, (valuesInTurn.withType 7).calculatePoints = some (scores 7) ∧
      ∑ seat, scores 7 seat = 100 := by
  have hplayed : valuesInTurn.Played := by
    refine ⟨by decide +kernel, fun i hi card hcard => ?_, fun i hi => rfl⟩
    obtain ⟨c, -, hc⟩ := List.mem_map.mp hcard
    exact ⟨c, hc⟩
  have hcount : ∀ card ∈ deck, valuesInTurn.cards.count card.entry = 1 := by decide +kernel
  obtain ⟨scores, hscores, -, htotals⟩ := scores_add_up valuesInTurn hplayed
  have htotal := htotals fun card => hcount card (mem_deck card)
  exact ⟨scores, hscores 7 (by decide), by simpa using congrArg (·.getLast?) htotal⟩

end Mimuw.Cards
