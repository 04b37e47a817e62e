import Mimuw.Cards.Wire
import Mimuw.Lib.Runs

/-!
# The commands of a human player

The whole of `mess_handler` with a human player.  It reads messages, and after a TRICK it
waits until the user has named a card.  The card is checked against the trick that the
player remembers.
-/

namespace Mimuw.Cards

open Mimuw.Lib

/-- The last character, of a string that has one. -/
def back (card : Str) : Char := card.getLastD 'C'

namespace Player

/-- `true` stands for 0. -/
def checkIfExistsSuit (player : Player) (suit : Char) : Bool :=
  player.availableCards.all fun card => back card ≠ suit

/-- `true` stands for 0. -/
def checkIfCorrectCard (player : Player) (card : Str) : Bool :=
  match player.currentTrick with
  | [] => true
  | firstCard :: _ =>
      if back card = back firstCard then true else player.checkIfExistsSuit (back firstCard)

/-- `none` stands for -1; the card played is the one that is passed. -/
def setPlayedCard (player : Player) (card : Str) : Option Player :=
  if player.availableCards.contains card then
    some { player with availableCards := player.availableCards.erase card }
  else none

def eraseTakenTricks (player : Player) : Player := { player with takenTricks := [] }

end Player

/-- Where `mess_handler` is, with its counter of tricks. -/
inductive Handling where
  | deal
  | takenOrTrick (i : Nat)
  | trick (i : Nat)
  /-- The user may name a card, after a TRICK message with these cards. -/
  | user (i : Nat) (listed : List Str)
  | taken (i : Nat)
  | score
  | total
  | ended
  deriving DecidableEq

structure Human where
  player : Player
  handling : Handling
  sent : List Str

inductive HumanEvent where
  | message (message : Str)
  /-- a line with `!` before the card -/
  | command (card : Str)
  /-- the end of the connection, or an error of it -/
  | closed

def Human.start : Human := ⟨.new, .deal, []⟩

def trickCards (trickNumber : Nat) (message : Str) : Str :=
  message.drop (5 + numberLength trickNumber)

def handleMessage (position : Seat) (h : Human) (message : Str) : Option Human :=
  match h.handling with
  | .deal =>
      match receiveDealMessage h.player message with
      | (.done, player) => some { h with player := player, handling := .takenOrTrick 0 }
      | (.again, player) => some { h with player := player }
      | (_, player) => some { h with player := player, handling := .ended }
  | .takenOrTrick i =>
      match receiveTakenOrTrickMessage false position (i + 1) h.player message with
      | (.trick, player) =>
          some { h with
            player := player
            handling := .user i (splitCards (trickCards (i + 1) message)) }
      | (.again, player) => some { h with player := player }
      | (_, player) => some { h with player := player, handling := .takenOrTrick (i + 1) }
  | .trick i =>
      match Client.receiveTrickMessage false (i + 1) h.player message with
      | some (player, _) =>
          some { h with
            player := player
            handling := .user i (splitCards (trickCards (i + 1) message)) }
      | none => some h
  | .taken i =>
      match Client.receiveTakenMessage false (indexToChar position) (i + 1) h.player message with
      | some (player, _) =>
          some { h with
            player := player
            handling := if i + 1 < 13 then .trick (i + 1) else .score }
      | none => some h
  | .score =>
      match Client.receiveScoreMessage false message with
      | some _ => some { h with handling := .total }
      | none => some h
  | .total =>
      match Client.receiveTotalMessage false message with
      | some _ => some { h with player := h.player.eraseTakenTricks, handling := .deal }
      | none => some h
  | .user _ _ | .ended => none

/-- What `user_input_thread` does with a card, and then `send_trick_message`. -/
def handleCommand (h : Human) (card : Str) : Human :=
  match h.handling with
  | .user i _ =>
      if !h.player.checkIfCorrectCard card then h
      else
        match h.player.setPlayedCard card with
        | some player =>
            { player := player
              handling := .taken i
              sent := h.sent ++ [['T', 'R', 'I', 'C', 'K'] ++ toStr (i + 1) ++ card] }
        | none => h
  | _ => h

/-- A command without a card has no last character to look at. -/
def humanStep (position : Seat) (h : Human) : HumanEvent → Option Human
  | .message message => handleMessage position h message
  | .command card => if card = [] then none else some (handleCommand h card)
  | .closed => some { h with handling := .ended }

/-! ## The check of a card -/

/-- The card follows the cards listed: there are none, or it has the suit of the first, or
the player has no card of that suit. -/
def Follows (listed available : List Str) (card : Str) : Prop :=
  ∀ first ∈ listed.head?, back card = back first ∨ ∀ held ∈ available, back held ≠ back first

/-- While the user may name a card, the check accepts the cards that follow the trick. -/
def Human.ChecksRight (h : Human) : Prop :=
  ∀ i listed, h.handling = .user i listed → ∀ card ≠ [],
    (h.player.checkIfCorrectCard card = true ↔ Follows listed h.player.availableCards card)

/-- A TRICK message with a number and nothing behind it. -/
def IsBareTrick (trickNumber : Nat) (message : Str) : Prop :=
  message.take 5 = ['T', 'R', 'I', 'C', 'K'] ∧
    safeStoi ((message.drop 5).take (numberLength trickNumber)) = some trickNumber ∧
    message.length = 5 + numberLength trickNumber

/-- The player can lead any card in spite of the trick that is remembered: there is none,
or no card in hand has the suit of its first card. -/
def Player.Unbound (player : Player) : Prop :=
  ∀ first ∈ player.currentTrick.head?, ∀ held ∈ player.availableCards, back held ≠ back first

/-- When the first TRICK of a deal comes without cards, no remembered trick binds the
player. -/
def LeadsUnbound (h : Human) (event : HumanEvent) : Prop :=
  ∀ i message, event = .message message → h.handling = .takenOrTrick i →
    IsBareTrick (i + 1) message → h.player.Unbound

private theorem checkIfCorrectCard_iff (player : Player) (card : Str) :
    player.checkIfCorrectCard card = true ↔
      Follows player.currentTrick player.availableCards card := by
  cases htrick : player.currentTrick with
  | nil => simp [Player.checkIfCorrectCard, Follows, htrick]
  | cons first rest =>
      simp only [Player.checkIfCorrectCard, htrick, Follows, List.head?_cons, Option.mem_some_iff,
        forall_eq']
      split
      · simp_all
      · simp_all [Player.checkIfExistsSuit]

private theorem unbound_iff (player : Player) :
    player.Unbound ↔ ∀ card ≠ [], player.checkIfCorrectCard card = true := by
  constructor
  · intro h card _
    rw [checkIfCorrectCard_iff]
    exact fun first hfirst => .inr (h first hfirst)
  · intro h first hfirst held hheld hsuit
    obtain ⟨c, hc⟩ : ∃ c, c ≠ back first := by
      by_cases hclub : back first = 'C'
      · exact ⟨'D', by rw [hclub]; decide⟩
      · exact ⟨'C', Ne.symm hclub⟩
    have hcheck := h [c] (List.cons_ne_nil c [])
    rw [checkIfCorrectCard_iff] at hcheck
    rcases hcheck first hfirst with heq | hnone
    · exact hc heq
    · exact hnone held hheld hsuit

/-! ## What is remembered -/

private theorem trickCards_eq_nil {n : Nat} {message : Str}
    (h : 5 + numberLength n ≤ message.length) :
    trickCards n message = [] ↔ message.length = 5 + numberLength n := by
  rw [trickCards, List.drop_eq_nil_iff]
  omega

private theorem takeCards_ne_trick (isAutoPlayer : Bool) (myPosition : Seat) (player : Player)
    (cards : Str) : (takeCards isAutoPlayer myPosition player cards).1 ≠ .trick := by
  simp only [takeCards]
  split
  · simp
  · split <;> simp

private theorem taken_ne_trick {position : Seat} {n : Nat} {player : Player} {message : Str}
    (htaken : message.take 5 = ['T', 'A', 'K', 'E', 'N']) :
    (receiveTakenOrTrickMessage false position n player message).1 ≠ .trick := by
  have hcards := takeCards_ne_trick false position player
  simp only [receiveTakenOrTrickMessage, if_pos htaken]
  repeat' split
  all_goals first | exact hcards _ | simp

/-- A TRICK message that is accepted at the beginning of a deal: without cards nothing is
remembered, and otherwise its cards are. -/
private theorem receiveTakenOrTrick_trick {position : Seat} {n : Nat} {player player' : Player}
    {message : Str}
    (h : receiveTakenOrTrickMessage false position n player message = (.trick, player')) :
    IsBareTrick n message ∧ player' = player ∧ splitCards (trickCards n message) = [] ∨
      ¬ IsBareTrick n message ∧ player'.currentTrick = splitCards (trickCards n message) := by
  have htaken : message.take 5 ≠ ['T', 'A', 'K', 'E', 'N'] := fun htaken =>
    taken_ne_trick htaken (congrArg Prod.fst h)
  simp only [receiveTakenOrTrickMessage, if_neg htaken] at h
  split at h
  · rename_i htrick
    split at h
    · cases h
    · rename_i hnumber
      simp only [Bool.not_eq_true', Bool.not_eq_false, Bool.and_eq_true, decide_eq_true_eq,
        beq_iff_eq] at hnumber
      have hbare : IsBareTrick n message ↔ trickCards n message = [] := by
        simp [IsBareTrick, htrick, hnumber, trickCards_eq_nil hnumber.1]
      rw [hbare]
      change (if trickCards n message = [] then _ else _) = _ at h
      split at h
      · rename_i hempty
        obtain ⟨-, rfl⟩ := Prod.mk.inj h
        exact .inl ⟨hempty, rfl, by rw [hempty]; rfl⟩
      · rename_i hsome
        split at h
        · cases h
        · obtain ⟨-, rfl⟩ := Prod.mk.inj h
          exact .inr ⟨hsome, rfl⟩
  · cases h

private theorem receiveTakenOrTrick_bare {position : Seat} {n : Nat} {message : Str}
    (h : IsBareTrick n message) (player : Player) :
    receiveTakenOrTrickMessage false position n player message = (.trick, player) := by
  obtain ⟨htrick, hnumber, hlength⟩ := h
  have hempty : message.drop (5 + numberLength n) = [] := by
    rw [List.drop_eq_nil_iff, hlength]
  simp [receiveTakenOrTrickMessage, htrick, hnumber, hlength, hempty]

private theorem receiveTrickMessage_trick {n : Nat} {player player' : Player} {message shown : Str}
    (h : Client.receiveTrickMessage false n player message = some (player', shown)) :
    player'.currentTrick = splitCards (trickCards n message) := by
  simp only [Client.receiveTrickMessage, Option.map_eq_some_iff] at h
  obtain ⟨⟨cards, cardsVector⟩, hread, hplayer⟩ := h
  obtain ⟨rfl, -⟩ := Prod.mk.inj hplayer
  simp only [Client.readTrick] at hread
  split at hread
  · cases hread
  · obtain ⟨text, htext, hcards⟩ := Option.bind_eq_some_iff.mp hread
    have htrick : text = trickCards n message := by
      simp only [Client.readNumbered] at htext
      split at htext
      · cases htext
      · split at htext
        · exact (Option.some_inj.mp htext).symm
        · cases htext
    split at hcards
    · obtain ⟨-, rfl⟩ := Prod.mk.inj (Option.some_inj.mp hcards)
      exact congrArg splitCards htrick
    · cases hcards

private theorem checksRight_of_remembered {h : Human}
    (hremembered : ∀ i listed, h.handling = .user i listed → h.player.currentTrick = listed) :
    h.ChecksRight := by
  intro i listed hhandling card _
  rw [checkIfCorrectCard_iff, hremembered i listed hhandling]

private theorem checksRight_of_no_user {h : Human} (hno : ∀ i listed, h.handling ≠ .user i listed) :
    h.ChecksRight := fun i listed hhandling => absurd hhandling (hno i listed)

private theorem checksRight_message {position : Seat} {h h' : Human} {message : Str}
    (hdeal : ∀ i, h.handling ≠ .takenOrTrick i)
    (hstep : handleMessage position h message = some h') : h'.ChecksRight := by
  cases hhandling : h.handling with
  | takenOrTrick i => exact absurd hhandling (hdeal i)
  | trick i =>
      simp only [handleMessage, hhandling] at hstep
      split at hstep
      · rename_i player shown hread
        obtain rfl := Option.some_inj.mp hstep
        refine checksRight_of_remembered fun j listed hlisted => ?_
        obtain ⟨-, rfl⟩ := Handling.user.inj hlisted
        exact receiveTrickMessage_trick hread
      · obtain rfl := Option.some_inj.mp hstep
        exact checksRight_of_no_user (by simp [hhandling])
  | taken i =>
      simp only [handleMessage, hhandling] at hstep
      split at hstep
      · obtain rfl := Option.some_inj.mp hstep
        refine checksRight_of_no_user fun j listed => ?_
        dsimp only
        split <;> exact Handling.noConfusion
      · obtain rfl := Option.some_inj.mp hstep
        exact checksRight_of_no_user (by simp [hhandling])
  | deal =>
      simp only [handleMessage, hhandling] at hstep
      split at hstep <;> obtain rfl := Option.some_inj.mp hstep <;>
        exact checksRight_of_no_user (by simp)
  | score =>
      simp only [handleMessage, hhandling] at hstep
      split at hstep <;> obtain rfl := Option.some_inj.mp hstep <;>
        exact checksRight_of_no_user (by simp [hhandling])
  | total =>
      simp only [handleMessage, hhandling] at hstep
      split at hstep <;> obtain rfl := Option.some_inj.mp hstep <;>
        exact checksRight_of_no_user (by simp [hhandling])
  | user i listed => simp [handleMessage, hhandling] at hstep
  | ended => simp [handleMessage, hhandling] at hstep

private theorem checksRight_first {position : Seat} {h h' : Human} {message : Str} {i : Nat}
    (hhandling : h.handling = .takenOrTrick i)
    (hstep : handleMessage position h message = some h') :
    h'.ChecksRight ↔ (IsBareTrick (i + 1) message → h.player.Unbound) := by
  simp only [handleMessage, hhandling] at hstep
  split at hstep
  · rename_i player hread
    obtain rfl := Option.some_inj.mp hstep
    rcases receiveTakenOrTrick_trick hread with ⟨hbare, rfl, hnone⟩ | ⟨hbare, hremembered⟩
    · have huser : Human.ChecksRight { h with
          handling := .user i (splitCards (trickCards (i + 1) message)) } ↔
          ∀ card ≠ [], h.player.checkIfCorrectCard card = true := by
        constructor
        · intro hright card hcard
          refine (hright i _ rfl card hcard).mpr ?_
          simp [Follows, hnone]
        · intro hall j listed hlisted card hcard
          obtain ⟨-, rfl⟩ := Handling.user.inj hlisted
          exact iff_of_true (hall card hcard) (by simp [Follows, hnone])
      simp only [hbare, true_implies, unbound_iff]
      exact huser
    · refine iff_of_true (checksRight_of_remembered fun j listed hlisted => ?_)
        fun h => absurd h hbare
      obtain ⟨-, rfl⟩ := Handling.user.inj hlisted
      exact hremembered
  · rename_i player hread
    obtain rfl := Option.some_inj.mp hstep
    refine iff_of_true (checksRight_of_no_user (by simp)) fun hbare => ?_
    rw [receiveTakenOrTrick_bare hbare] at hread
    cases hread
  · rename_i received player hother _ hread
    obtain rfl := Option.some_inj.mp hstep
    refine iff_of_true (checksRight_of_no_user (by simp)) fun hbare => ?_
    rw [receiveTakenOrTrick_bare hbare] at hread
    exact absurd (Prod.mk.inj hread).1.symm hother

private theorem handleCommand_cases (h : Human) (card : Str) :
    handleCommand h card = h ∨ ∃ i, (handleCommand h card).handling = .taken i := by
  simp only [handleCommand]
  repeat' split
  all_goals first | exact .inl rfl | exact .inr ⟨_, rfl⟩

/-- The check goes wrong at no step but one that leaves the player bound. -/
private theorem checksRight_step {position : Seat} {h h' : Human} {event : HumanEvent}
    (hright : h.ChecksRight) (hstep : humanStep position h event = some h') :
    h'.ChecksRight ↔ LeadsUnbound h event := by
  cases event with
  | closed =>
      obtain rfl := Option.some_inj.mp hstep
      exact iff_of_true (checksRight_of_no_user fun _ _ => Handling.noConfusion)
        fun _ _ hevent => HumanEvent.noConfusion hevent
  | command card =>
      refine iff_of_true ?_ fun _ _ hevent => HumanEvent.noConfusion hevent
      simp only [humanStep] at hstep
      split at hstep
      · cases hstep
      · obtain rfl := Option.some_inj.mp hstep
        rcases handleCommand_cases h card with hsame | ⟨i, htaken⟩
        · exact hsame.symm ▸ hright
        · exact checksRight_of_no_user (by simp [htaken])
  | message message =>
      by_cases hdeal : ∃ i, h.handling = .takenOrTrick i
      · obtain ⟨i, hhandling⟩ := hdeal
        rw [checksRight_first hhandling hstep]
        constructor
        · intro hunbound j text hevent hfirst hbare
          obtain rfl := HumanEvent.message.inj hevent
          obtain rfl := Handling.takenOrTrick.inj (hhandling.symm.trans hfirst)
          exact hunbound hbare
        · exact fun hleads => hleads i message rfl hhandling
      · have hother : ∀ i, h.handling ≠ .takenOrTrick i := fun i hi => hdeal ⟨i, hi⟩
        exact iff_of_true (checksRight_message hother hstep) fun i _ _ hhandling =>
          absurd hhandling (hother i)

private theorem leadsUnbound_stuck {position : Seat} {h : Human} {event : HumanEvent}
    (hstuck : humanStep position h event = none) : LeadsUnbound h event := by
  rintro i message rfl hhandling
  simp only [humanStep, handleMessage, hhandling] at hstuck
  split at hstuck <;> cases hstuck

/-- In every run the check is right whenever the user may name a card exactly if every deal
that begins with a bare TRICK finds the player unbound. -/
theorem check_right_iff (position : Seat) (events : List HumanEvent) :
    (∀ before h, before <+: events → run (humanStep position) .start before = some h →
      h.ChecksRight) ↔
    Meets (humanStep position) LeadsUnbound .start events :=
  (meets_iff_always (I := fun _ => True) (fun _ _ _ _ _ => trivial)
    (fun _ _ _ _ => checksRight_step) (fun _ _ => leadsUnbound_stuck) trivial
    (checksRight_of_no_user fun _ _ => Handling.noConfusion) events).symm

def clubLed (i : Nat) (value : Str) : List HumanEvent :=
  [.message (['T', 'R', 'I', 'C', 'K'] ++ toStr (i + 1) ++ value ++ ['C']),
    .command (value ++ ['D']),
    .message (['T', 'A', 'K', 'E', 'N'] ++ toStr (i + 1) ++
      ['C', 'D', 'H', 'S'].flatMap (fun suit => value ++ [suit]) ++ ['N'])]

def eastLeadsNext : List HumanEvent :=
  let first := (Deal.new 1 'N').addPlayerCards 1 (cardsText (suitHand .diamonds))
  let second := (Deal.new 1 'E').addPlayerCards 1
    (['2', 'C'] ++ cardsText ((suitHand .diamonds).drop 1))
  [HumanEvent.message (dealMessage first 1)] ++
    (values.zipIdx.flatMap fun (value, i) => clubLed i value) ++
    [HumanEvent.message (scoreMessage fun p => if p = 0 then 13 else 0),
      .message (totalMessage fun p => if p = 0 then 13 else 0),
      .message (dealMessage second 1),
      .message (trickMessage .new 1)]

/-- East may lead what it likes, and is told to follow a club of the deal before. -/
theorem lead_refused :
    ∃ h, run (humanStep 1) .start eastLeadsNext = some h ∧ h.handling = .user 0 [] ∧
      ¬ h.ChecksRight := by
  have hend : ((run (humanStep 1) .start eastLeadsNext).map fun h =>
      (h.handling, h.player.checkIfCorrectCard ['3', 'D'])) = some (.user 0 [], false) := by
    decide +kernel
  obtain ⟨h, hrun, hpair⟩ := Option.map_eq_some_iff.mp hend
  obtain ⟨hhandling, hcheck⟩ := Prod.mk.inj hpair
  refine ⟨h, hrun, hhandling, fun hright => ?_⟩
  have haccepts := (hright 0 [] hhandling ['3', 'D'] (by decide)).mpr (by simp [Follows])
  rw [hcheck] at haccepts
  cases haccepts

end Mimuw.Cards
