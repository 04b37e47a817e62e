import Mimuw.Cards.Deals
import Mimuw.Cards.Seating

/-!
# The handlers of the server

`client_handler.cpp`: one thread for each client, and what the threads share.  A step
is one access to what is shared, or one call of the socket; `error` ends the process.
-/

namespace Mimuw.Cards

open Mimuw.Lib

structure GameState where
  seatOccupied : Bool
  currentDeal : Nat
  currentTrick : Nat
  disconnectOnDealHandler : Bool
  disconnectOnTrickHandler : Bool
  disconnectOnSendTakenMsg : Bool
  disconnectOnScoreTotalHandler : Bool
  deriving DecidableEq

def GameState.new : GameState := ⟨false, 0, 0, false, false, false, false⟩

inductive Barrier where
  | dealStart
  | dealEnd
  | trickStart
  | trickEnd
  deriving DecidableEq

/-- The calls of `arrive_and_wait`; two of them are to `deal_end_barrier`. -/
inductive Meeting where
  | dealStart
  | trickStart
  | trickEnd
  | dealEnd
  | last
  deriving DecidableEq

def Meeting.barrier : Meeting → Barrier
  | dealStart => .dealStart
  | trickStart => .trickStart
  | trickEnd => .trickEnd
  | dealEnd => .dealEnd
  | last => .dealEnd

/-- The statements with which a handler gives up its client. -/
inductive Leaving where
  | setDeal (j : Nat)
  | setTrick (i : Nat)
  | setDisconnectOnDealHandler
  | setDisconnectOnTrickHandler
  | setDisconnectOnSendTakenMsg
  | setDisconnectOnScoreTotalHandler
  | setSeat
  | release
  | clearSocket
  deriving DecidableEq

namespace Leaving

def onDealHandler (j : Nat) : List Leaving :=
  [setDeal j, setDisconnectOnDealHandler, setSeat, clearSocket]

def onTrickHandler (j i : Nat) : List Leaving :=
  [setDeal j, setTrick i, setDisconnectOnTrickHandler, setSeat, release, clearSocket]

def onSendTakenMsg (j i : Nat) : List Leaving :=
  [setDisconnectOnSendTakenMsg, setSeat, setTrick (i + 1), setDeal j, release, clearSocket]

def onScoreTotalHandler (j : Nat) : List Leaving :=
  [setDisconnectOnScoreTotalHandler, setSeat, setDeal (j + 1), clearSocket]

/-- What a statement stores of the game. -/
def store (g : GameState) : Leaving → GameState
  | setDeal j => { g with currentDeal := j }
  | setTrick i => { g with currentTrick := i }
  | setDisconnectOnDealHandler => { g with disconnectOnDealHandler := true }
  | setDisconnectOnTrickHandler => { g with disconnectOnTrickHandler := true }
  | setDisconnectOnSendTakenMsg => { g with disconnectOnSendTakenMsg := true }
  | setDisconnectOnScoreTotalHandler => { g with disconnectOnScoreTotalHandler := true }
  | setSeat => { g with seatOccupied := false }
  | release => g
  | clearSocket => g

end Leaving

inductive Pc where
  | start
  | dealLoop
  | sendDeal
  | setTurn
  | checkLead
  | releaseLead
  | trickLoop
  /-- after `trick_start_barrier` -/
  | enterTrick
  | waitForTurn
  | sendTrick
  | receiveTrick
  | setWinner
  | passTurn
  | releaseNext
  | sendTaken
  /-- after the tricks of the deal -/
  | checkTurn
  | acquireTurn
  | scoreTotal
  | shutdown
  | finished
  | arriving (meeting : Meeting)
  | waiting (meeting : Meeting)
  | leaving (todo : List Leaving)
  deriving DecidableEq

/-- Where `arrive_and_wait` returns to. -/
def Meeting.next : Meeting → Pc
  | dealStart => .sendDeal
  | trickStart => .enterTrick
  | trickEnd => .sendTaken
  | dealEnd => .scoreTotal
  | last => .shutdown

structure Thread where
  clientSocket : Nat
  clientPosition : Seat
  j : Nat
  i : Nat
  pc : Pc
  deriving DecidableEq

/-- The last arrival at a barrier lets everyone who waits there go on. -/
def Thread.wake (barrier : Barrier) (t : Thread) : Thread :=
  match t.pc with
  | .waiting meeting => if meeting.barrier = barrier then { t with pc := meeting.next } else t
  | _ => t

structure Server where
  deals : List Deal
  gameStates : Seat → GameState
  clientSockets : Fin 4 → Option Nat
  /-- `none` stands for -1. -/
  currentTurn : Option Seat
  playerSemaphores : Seat → Nat
  /-- the arrivals of the current phase of each barrier -/
  arrived : Barrier → Nat
  clientThreads : List Thread
  shutdownPipe : Bool
  exited : Bool
  /-- Who appended what to each trick of each deal; no handler reads it. -/
  appended : Nat → Nat → List (Seat × Str)

namespace Server

def start (deals : List Deal) : Server :=
  { deals
    gameStates := fun _ => .new
    clientSockets := fun _ => none
    currentTurn := some 0
    playerSemaphores := fun _ => 0
    arrived := fun _ => 0
    clientThreads := []
    shutdownPipe := false
    exited := false
    appended := fun _ _ => [] }

def setGameState (s : Server) (p : Seat) (g : GameState) : Server :=
  { s with gameStates := Function.update s.gameStates p g }

def setSemaphore (s : Server) (p : Seat) (permits : Nat) : Server :=
  { s with playerSemaphores := Function.update s.playerSemaphores p permits }

def release (s : Server) (p : Seat) : Server := s.setSemaphore p (s.playerSemaphores p + 1)

def setThread (s : Server) (k : Nat) (t : Thread) : Server :=
  { s with clientThreads := s.clientThreads.set k t }

def setTrick (s : Server) (j i : Nat) (trick : Trick) : Server :=
  { s with deals := s.deals.modify j (·.setTrick i trick) }

def append (s : Server) (j i : Nat) (p : Seat) (cards : Str) : Server :=
  { s with
    appended := Function.update s.appended j
      (Function.update (s.appended j) i (s.appended j i ++ [(p, cards)])) }

def error (s : Server) : Server := { s with exited := true }

end Server

/-- A deal of the game file, with the line of each player. -/
def loadDeal (dealType : Nat) (lead : Char) (hands : Seat → Str) : Deal :=
  (List.finRange 4).foldl (fun deal p => deal.addPlayerCards p (hands p)) (.new dealType lead)

def loadGame (game : List (Nat × Char × (Seat → Str))) : List Deal :=
  game.map fun (dealType, lead, hands) => loadDeal dealType lead hands

/-! ## Sockets -/

inductive Sent where
  | done
  /-- -2 -/
  | gone
  /-- -1 -/
  | failed
  deriving DecidableEq

inductive Incoming where
  | message (text : Str)
  /-- -3 -/
  | timeout
  /-- -2 -/
  | gone
  /-- -1 -/
  | failed
  deriving DecidableEq

/-- What the socket calls of a step return. -/
structure Io where
  sent : Sent
  received : Incoming

inductive TrickMessage where
  | closed
  | wrong
  | card (cards : Str)
  deriving DecidableEq

/-- What `receive_trick_message` makes of a message. -/
def receiveTrickMessage (message : Str) (index : Nat) : TrickMessage :=
  if message.length < 5 ∧ message.take 5 ≠ ['T', 'R', 'I', 'C', 'K'] then .closed
  else
    let numberLength := if index < 10 then 1 else 2
    if message.length < 5 + numberLength then .closed
    else
      let cards := message.drop (5 + numberLength)
      if checkCorrectness (splitCards cards) 1 then
        match safeStoi ((message.drop 5).take numberLength) with
        | some trickNumber => if trickNumber = index then .card cards else .wrong
        | none => .wrong
      else .wrong

/-- `send_deal_and_taken_msg` ignores a client that is gone; it fails on an error, and
on a trick without a winner. -/
def resends (deal : Deal) (p : Seat) (g : GameState) (sent : Sent) : Bool :=
  sent ≠ .failed && (sendDealAndTakenMsg deal p g.currentTrick).isSome

/-! ## Tricks -/

/-- A seat number modulo 4, where -1 is 3. -/
def residue (seat : Option Seat) : Seat := seat.getD 3

/-- The index of the highest card of the first suit; `none` without cards. -/
def winningIndex : List Card → Option Nat
  | [] => none
  | first :: rest =>
      some ((rest.zipIdx 1).foldl
        (fun (best : Nat × Nat) c =>
          if c.1.suit = first.suit ∧ best.1 < c.1.valueInt then (c.1.valueInt, c.2) else best)
        (first.valueInt, 0)).2

/-! ## Steps -/

/-- `arrive_and_wait` -/
def arrive (s : Server) (k : Nat) (t : Thread) (meeting : Meeting) : Server :=
  let s' := s.setThread k { t with pc := .waiting meeting }
  if s.arrived meeting.barrier = 3 then
    { s' with
      arrived := Function.update s.arrived meeting.barrier 0
      clientThreads := s'.clientThreads.map (Thread.wake meeting.barrier) }
  else
    { s' with
      arrived := Function.update s.arrived meeting.barrier (s.arrived meeting.barrier + 1) }

def leavingStep (s : Server) (p : Seat) (x : Leaving) : Server :=
  match x with
  | .release => s.release p
  | .clearSocket => { s with clientSockets := Function.update s.clientSockets p none }
  | x => s.setGameState p (x.store (s.gameStates p))

/-- The end of `deal_handler`. -/
def afterDeal (s : Server) (k : Nat) (t : Thread) : Server :=
  let g := s.gameStates t.clientPosition
  (s.setGameState t.clientPosition { g with disconnectOnDealHandler := false }).setThread k
    { t with i := g.currentTrick, pc := .trickLoop }

/-- `reset_trick` and the way to `deal_end_barrier`. -/
def afterTricks (s : Server) (k : Nat) (t : Thread) : Server :=
  (s.setGameState t.clientPosition
    { s.gameStates t.clientPosition with currentTrick := 0 }).setThread k
      { t with pc := .arriving .dealEnd }

/-- `none` where the handler has to wait, and for undefined behaviour. -/
def handlerStep (s : Server) (k : Nat) (t : Thread) (io : Io) : Option Server :=
  let p := t.clientPosition
  let g := s.gameStates p
  match t.pc with
  | .start => some (s.setThread k { t with j := g.currentDeal, pc := .dealLoop })
  | .dealLoop =>
      match s.deals[t.j]? with
      | none => some (s.setThread k { t with pc := .arriving .last })
      | some deal =>
          if g.disconnectOnScoreTotalHandler && !resends deal p g io.sent then some s.error
          else
            let s := s.setGameState p { g with disconnectOnScoreTotalHandler := false }
            if g.disconnectOnSendTakenMsg || g.disconnectOnTrickHandler then
              some (s.setThread k { t with i := g.currentTrick, pc := .trickLoop })
            else if g.disconnectOnDealHandler then some (s.setThread k { t with pc := .sendDeal })
            else some (s.setThread k { t with pc := .arriving .dealStart })
  | .sendDeal =>
      match io.sent with
      | .done => some (s.setThread k { t with pc := .setTurn })
      | .gone => some (s.setThread k { t with pc := .leaving (Leaving.onDealHandler t.j) })
      | .failed => some s.error
  | .setTurn =>
      s.deals[t.j]?.map fun deal =>
        { s with currentTurn := charToIndex deal.leadPlayer }.setThread k
          { t with pc := .checkLead }
  | .checkLead =>
      if some p = s.currentTurn then some (s.setThread k { t with pc := .releaseLead })
      else some (afterDeal s k t)
  | .releaseLead => some (afterDeal (s.release p) k t)
  | .trickLoop =>
      if t.i < 13 then
        s.deals[t.j]?.map fun deal =>
          if g.disconnectOnTrickHandler then
            if resends deal p g io.sent then
              (s.setGameState p { g with disconnectOnTrickHandler := false }).setThread k
                { t with pc := .enterTrick }
            else s.error
          else s.setThread k { t with pc := .arriving .trickStart }
      else some (s.setThread k { t with pc := .checkTurn })
  | .enterTrick =>
      s.deals[t.j]?.map fun deal =>
        if g.disconnectOnSendTakenMsg then
          if resends deal p g io.sent then
            (s.setGameState p { g with disconnectOnSendTakenMsg := false }).setThread k
              { t with pc := .waitForTurn }
          else s.error
        else s.setThread k { t with pc := .waitForTurn }
  | .waitForTurn =>
      if 0 < s.playerSemaphores p then
        some ((s.setSemaphore p (s.playerSemaphores p - 1)).setThread k { t with pc := .sendTrick })
      else none
  | .sendTrick =>
      match io.sent with
      | .done => some (s.setThread k { t with pc := .receiveTrick })
      | .gone => some (s.setThread k { t with pc := .leaving (Leaving.onTrickHandler t.j t.i) })
      | .failed => some s.error
  | .receiveTrick =>
      match io.received with
      | .failed => some s.error
      | .timeout => some (s.setThread k { t with pc := .sendTrick })
      | .gone => some (s.setThread k { t with pc := .leaving (Leaving.onTrickHandler t.j t.i) })
      | .message text =>
          match receiveTrickMessage text (t.i + 1) with
          | .closed => some (s.setThread k { t with pc := .setWinner })
          | .wrong => if io.sent = .done then some s else some s.error
          | .card cards => do
              let deal ← s.deals[t.j]?
              let trick ← (deal.tricks t.i).addCardToCards cards
              return ((s.setTrick t.j t.i trick).append t.j t.i p cards).setThread k
                { t with pc := .setWinner }
  | .setWinner => do
      let deal ← s.deals[t.j]?
      let lead := residue (charToIndex deal.leadPlayer)
      if s.currentTurn = some (lead + 3) then
        let trick := deal.tricks t.i
        let index ← winningIndex trick.cards
        return (s.setTrick t.j t.i (trick.setWinningPlayer (lead + Fin.ofNat 4 index))).setThread k
          { t with pc := .passTurn }
      else return s.setThread k { t with pc := .passTurn }
  | .passTurn =>
      some ({ s with currentTurn := some (residue s.currentTurn + 1) }.setThread k
        { t with pc := .releaseNext })
  | .releaseNext =>
      s.currentTurn.map fun next =>
        (s.release next).setThread k { t with pc := .arriving .trickEnd }
  | .sendTaken => do
      let deal ← s.deals[t.j]?
      if (takenMessage (deal.tricks t.i) (t.i + 1)).isNone then return s.error
      else
        match io.sent with
        | .done => return s.setThread k { t with i := t.i + 1, pc := .trickLoop }
        | .gone =>
            if t.i ≠ 12 then
              return s.setThread k { t with pc := .leaving (Leaving.onSendTakenMsg t.j t.i) }
            else return s.setThread k { t with i := t.i + 1, pc := .trickLoop }
        | .failed => return s.error
  | .checkTurn =>
      if some p = s.currentTurn then some (s.setThread k { t with pc := .acquireTurn })
      else some (afterTricks s k t)
  | .acquireTurn => do
      let turn ← s.currentTurn
      if 0 < s.playerSemaphores turn then
        return afterTricks (s.setSemaphore turn (s.playerSemaphores turn - 1)) k t
      else none
  | .scoreTotal =>
      match io.sent with
      | .done => some (s.setThread k { t with j := t.j + 1, pc := .dealLoop })
      | .gone =>
          if t.j ≠ s.deals.length - 1 then
            some (s.setThread k { t with pc := .leaving (Leaving.onScoreTotalHandler t.j) })
          else some (s.setThread k { t with j := t.j + 1, pc := .dealLoop })
      | .failed => some s.error
  | .shutdown =>
      some ({ s with shutdownPipe := s.shutdownPipe || decide (some p = s.currentTurn) }.setThread k
        { t with pc := .finished })
  | .finished => none
  | .arriving meeting => some (arrive s k t meeting)
  | .waiting _ => none
  | .leaving [] => none
  | .leaving (x :: todo) => some ((leavingStep s p x).setThread k { t with pc := .leaving todo })

/-- One round of `accept_clients`. -/
def acceptStep (s : Server) (clientSocket : Nat) (io : Io) : Option Server :=
  if s.shutdownPipe then none
  else
    match io.received with
    | .message text =>
        match receiveIamMessage (fun p => (s.gameStates p).seatOccupied) text with
        | .ignored => some s
        | .busy _ => if io.sent = .done then some s else some s.error
        | .seated seat =>
            let s := s.setGameState seat { s.gameStates seat with seatOccupied := true }
            match findFree s.clientSockets with
            | some pos =>
                some { s with
                  clientSockets := Function.update s.clientSockets pos (some clientSocket)
                  clientThreads := s.clientThreads ++ [⟨clientSocket, seat, 0, 0, .start⟩] }
            | none => some s
    | _ => some s.error

inductive ServerEvent where
  | handler (k : Nat) (io : Io)
  | accept (clientSocket : Nat) (io : Io)

def serverStep (s : Server) (event : ServerEvent) : Option Server :=
  if s.exited then none
  else
    match event with
    | .handler k io => s.clientThreads[k]?.bind fun t => handlerStep s k t io
    | .accept clientSocket io => acceptStep s clientSocket io

/-! ## The tricks -/

/-- What a step of a handler does to the tricks: nothing, or it appends the cards of a
message, or it sets a winner. -/
private theorem handlerStep_tricks {s s' : Server} {k : Nat} {t : Thread} {io : Io}
    (hstep : handlerStep s k t io = some s') :
    (s'.deals = s.deals ∧ s'.appended = s.appended) ∨
      (∃ deal trick text cards, t.pc = .receiveTrick ∧ io.received = .message text ∧
        receiveTrickMessage text (t.i + 1) = .card cards ∧ s.deals[t.j]? = some deal ∧
        (deal.tricks t.i).addCardToCards cards = some trick ∧
        s' = ((s.setTrick t.j t.i trick).append t.j t.i t.clientPosition cards).setThread k
          { t with pc := .setWinner }) ∨
      ∃ deal winner, s.deals[t.j]? = some deal ∧
        s' = (s.setTrick t.j t.i ((deal.tricks t.i).setWinningPlayer winner)).setThread k
          { t with pc := .passTurn } := by
  by_cases hreceive : t.pc = .receiveTrick
  · simp only [handlerStep, hreceive] at hstep
    split at hstep
    · cases hstep
      exact .inl ⟨rfl, rfl⟩
    · cases hstep
      exact .inl ⟨rfl, rfl⟩
    · cases hstep
      exact .inl ⟨rfl, rfl⟩
    · rename_i text hreceived
      split at hstep
      · cases hstep
        exact .inl ⟨rfl, rfl⟩
      · split at hstep
        · cases hstep
          exact .inl ⟨rfl, rfl⟩
        · cases hstep
          exact .inl ⟨rfl, rfl⟩
      · rename_i cards hcards
        simp only [Option.bind_eq_bind, Option.bind_eq_some_iff, Option.pure_def,
          Option.some.injEq] at hstep
        obtain ⟨deal, hdeal, trick, htrick, rfl⟩ := hstep
        exact .inr (.inl ⟨deal, trick, text, cards, hreceive, hreceived, hcards,
          hdeal, htrick, rfl⟩)
  · by_cases hwinner : t.pc = .setWinner
    · simp only [handlerStep, hwinner, Option.bind_eq_bind, Option.bind_eq_some_iff] at hstep
      obtain ⟨deal, hdeal, hstep⟩ := hstep
      split_ifs at hstep
      · simp only [Option.bind_eq_some_iff, Option.pure_def, Option.some.injEq] at hstep
        obtain ⟨index, -, rfl⟩ := hstep
        exact .inr (.inr ⟨deal, _, hdeal, rfl⟩)
      · cases hstep
        exact .inl ⟨rfl, rfl⟩
    · refine .inl ?_
      have hleaving : ∀ x, (leavingStep s t.clientPosition x).deals = s.deals ∧
          (leavingStep s t.clientPosition x).appended = s.appended := by
        intro x
        cases x <;> exact ⟨rfl, rfl⟩
      have harrive : ∀ meeting, (arrive s k t meeting).deals = s.deals ∧
          (arrive s k t meeting).appended = s.appended := by
        intro meeting
        unfold arrive
        simp only
        split <;> exact ⟨rfl, rfl⟩
      cases hpc : t.pc
      case receiveTrick => exact absurd hpc hreceive
      case setWinner => exact absurd hpc hwinner
      case start | releaseLead | passTurn | shutdown =>
        simp only [handlerStep, hpc] at hstep
        cases hstep
        exact ⟨rfl, rfl⟩
      case dealLoop | sendDeal | checkLead | waitForTurn | sendTrick | checkTurn | scoreTotal =>
        simp only [handlerStep, hpc] at hstep
        repeat' split at hstep
        all_goals cases hstep
        all_goals exact ⟨rfl, rfl⟩
      case trickLoop =>
        simp only [handlerStep, hpc] at hstep
        split at hstep
        · obtain ⟨deal, -, rfl⟩ := Option.map_eq_some_iff.mp hstep
          split_ifs <;> exact ⟨rfl, rfl⟩
        · cases hstep
          exact ⟨rfl, rfl⟩
      case setTurn | enterTrick | releaseNext =>
        simp only [handlerStep, hpc] at hstep
        obtain ⟨_, -, rfl⟩ := Option.map_eq_some_iff.mp hstep
        first | exact ⟨rfl, rfl⟩ | split_ifs <;> exact ⟨rfl, rfl⟩
      case sendTaken | acquireTurn =>
        simp only [handlerStep, hpc, Option.bind_eq_bind, Option.bind_eq_some_iff] at hstep
        obtain ⟨_, -, hstep⟩ := hstep
        repeat' split at hstep
        all_goals cases hstep
        all_goals exact ⟨rfl, rfl⟩
      case arriving meeting =>
        simp only [handlerStep, hpc] at hstep
        cases hstep
        exact harrive meeting
      case leaving todo =>
        cases todo with
        | nil => simp [handlerStep, hpc] at hstep
        | cons x todo =>
            simp only [handlerStep, hpc] at hstep
            cases hstep
            exact hleaving x
      case waiting | finished => simp [handlerStep, hpc] at hstep

theorem serverStep_tricks {s s' : Server} {event : ServerEvent}
    (hstep : serverStep s event = some s') :
    (s'.deals = s.deals ∧ s'.appended = s.appended) ∨
      (∃ (k : Nat) (io : Io) (t : Thread) (deal : Deal) (trick : Trick) (text cards : Str),
        event = .handler k io ∧ s.clientThreads[k]? = some t ∧
        t.pc = .receiveTrick ∧ io.received = .message text ∧
        receiveTrickMessage text (t.i + 1) = .card cards ∧ s.deals[t.j]? = some deal ∧
        (deal.tricks t.i).addCardToCards cards = some trick ∧
        s' = ((s.setTrick t.j t.i trick).append t.j t.i t.clientPosition cards).setThread k
          { t with pc := .setWinner }) ∨
      ∃ (k : Nat) (t : Thread) (deal : Deal) (winner : Seat), s.deals[t.j]? = some deal ∧
        s' = (s.setTrick t.j t.i ((deal.tricks t.i).setWinningPlayer winner)).setThread k
          { t with pc := .passTurn } := by
  unfold serverStep at hstep
  split at hstep
  · cases hstep
  · cases event with
    | accept clientSocket io =>
        simp only [acceptStep] at hstep
        repeat' split at hstep
        all_goals cases hstep
        all_goals exact .inl ⟨rfl, rfl⟩
    | handler k io =>
        obtain ⟨t, hk, hstep⟩ := Option.bind_eq_some_iff.mp hstep
        rcases handlerStep_tricks hstep with hsame | ⟨deal, trick, text, cards, hrest⟩ |
          ⟨deal, winner, hrest⟩
        · exact .inl hsame
        · exact .inr (.inl ⟨k, io, t, deal, trick, text, cards, rfl, hk, hrest⟩)
        · exact .inr (.inr ⟨k, t, deal, winner, hrest⟩)

end Mimuw.Cards
