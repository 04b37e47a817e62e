import Mathlib.Tactic
import Mimuw.Lib.Runs

/-!
# The MIMPI library

Every rank runs the calls of its program one after another on its main thread,
and one receiver thread for each peer moves that peer's messages from a channel
into the rank's variables.  A channel is a queue of whole messages.

The main thread moves in steps between the points where other threads can
interfere: each `MIMPI_Send` is one step, and `MIMPI_Recv` is cut where it takes
the lock, where it has tested everything, where it waits, and where it has
released the lock to send its verdict.  While it holds `lock[source]` the
receiver thread of `source` takes nothing.
-/

namespace Mimuw.Mimpi

inductive Retcode where
  | success
  | attemptedSelfOp
  | noSuchRank
  | remoteFinished
  | deadlockDetected
  deriving DecidableEq

inductive Op where
  | max
  | min
  | sum
  | prod
  deriving DecidableEq

/-- A message; its `count` is the number of its bytes. -/
structure Message where
  tag : Int
  data : List UInt8
  deriving DecidableEq

def finishedTag : Int := -1
def barrierTag : Int := -2
def bcastTag : Int := -3
def reduceTag : Int := -4
def deadlockTag : Int := -5
def waitingTag : Int := -6
def notWaitingTag : Int := -7

structure Config where
  worldSize : Nat
  deadlockDetection : Bool

/-- What a call of the library still has to do: the return code, with what is
then in the caller's buffer, or the next `MIMPI_Send` or `MIMPI_Recv` and what
follows it.  A receive passes on the bytes it copied, if it copied any. -/
inductive Prog where
  | ret (code : Retcode) (data : List UInt8)
  | send (data : List UInt8) (destination tag : Int) (next : Retcode → Prog)
  | recv (count : Nat) (source tag : Int) (next : Retcode → Option (List UInt8) → Prog)

inductive Call where
  | send (data : List UInt8) (destination tag : Int)
  | recv (count : Nat) (source tag : Int)
  | barrier
  | bcast (data : List UInt8) (root : Nat)
  /-- `scratch` is what the fresh memory of `recv_buffer` holds -/
  | reduce (sendData recvData scratch : List UInt8) (op : Op) (root : Nat)
  | finalize
  deriving DecidableEq

/-! ## The collective operations -/

/-- A send whose return code is not looked at. -/
def Prog.sendTo (data : List UInt8) (destination : Nat) (tag : Int) (next : Prog) : Prog :=
  .send data destination tag fun _ => next

/-- A receive from a peer that may have finished, which ends the call. -/
def Prog.recvFrom (count source : Nat) (tag : Int) (data : List UInt8)
    (next : Option (List UInt8) → Prog) : Prog :=
  .recv count source tag fun code received =>
    if code = .remoteFinished then .ret code data else next received

section Barrier

variable (worldSize rank : Nat)

/-- The last sends of `MIMPI_Barrier`. -/
def barrierNotifyRight : Prog :=
  if 2 * rank + 2 < worldSize then .sendTo [] (2 * rank + 2) barrierTag (.ret .success [])
  else .ret .success []

def barrierNotify : Prog :=
  if 2 * rank + 1 < worldSize then
    .sendTo [] (2 * rank + 1) barrierTag (barrierNotifyRight worldSize rank)
  else barrierNotifyRight worldSize rank

def barrierAwaitParent : Prog :=
  .recvFrom 0 ((rank - 1) / 2) barrierTag [] fun _ => barrierNotify worldSize rank

def barrierNotifyParent : Prog :=
  if rank ≠ 0 then
    .sendTo [] ((rank - 1) / 2) barrierTag (barrierAwaitParent worldSize rank)
  else barrierNotify worldSize rank

def barrierAwaitRight : Prog :=
  if 2 * rank + 2 < worldSize then
    .recvFrom 0 (2 * rank + 2) barrierTag [] fun _ => barrierNotifyParent worldSize rank
  else barrierNotifyParent worldSize rank

def barrier : Prog :=
  if 2 * rank + 1 < worldSize then
    .recvFrom 0 (2 * rank + 1) barrierTag [] fun _ => barrierAwaitRight worldSize rank
  else barrierAwaitRight worldSize rank

end Barrier

section Tree

variable (worldSize rank root : Nat)

def relativeRank : Nat := (rank + worldSize - root) % worldSize

/-- A rank of the tree turned to `root`; `none` stands for `-1`. -/
def relativeChild (relativeChild : Nat) : Option Nat :=
  if relativeChild ≥ worldSize then none else some ((relativeChild + root) % worldSize)

def leftChild : Option Nat :=
  relativeChild worldSize root (2 * relativeRank worldSize rank root + 1)

def rightChild : Option Nat :=
  relativeChild worldSize root (2 * relativeRank worldSize rank root + 2)

/-- Used by ranks other than the root only. -/
def parent : Nat := ((relativeRank worldSize rank root - 1) / 2 + root) % worldSize

end Tree

/-- A send to a child, if there is one. -/
def Prog.sendToChild (data : List UInt8) (child : Option Nat) (tag : Int) (next : Prog) :
    Prog :=
  match child with
  | some destination => .sendTo data destination tag next
  | none => next

/-- The sends of `MIMPI_Bcast` to both children. -/
def bcastSend (worldSize rank root : Nat) (data : List UInt8) : Prog :=
  .sendToChild data (leftChild worldSize rank root) bcastTag
    (.sendToChild data (rightChild worldSize rank root) bcastTag (.ret .success data))

def bcast (worldSize rank : Nat) (data : List UInt8) (root : Nat) : Prog :=
  if rank = root then bcastSend worldSize rank root data
  else
    .recvFrom data.length (parent worldSize rank root) bcastTag data fun received =>
      bcastSend worldSize rank root (received.getD data)

/-- One byte of a child's buffer into one of the rank's own. -/
def Op.apply : Op → UInt8 → UInt8 → UInt8
  | .sum, a, b => a + b
  | .max, a, b => if a < b then b else a
  | .min, a, b => if a > b then b else a
  | .prod, a, b => a * b

/-- The loop over `count` bytes. -/
def Op.combine (op : Op) (buffer received : List UInt8) : List UInt8 :=
  List.zipWith op.apply buffer received

/-- `MIMPI_Reduce` after both children. -/
def reduceSend (worldSize rank root : Nat) (recvData buffer : List UInt8) : Prog :=
  if rank ≠ root then
    .sendTo buffer (parent worldSize rank root) reduceTag (.ret .success recvData)
  else .ret .success buffer

/-- Receives from a child, if there is one, and goes on with both buffers. -/
def reduceChild (child : Option Nat) (op : Op) (recvData buffer scratch : List UInt8)
    (next : List UInt8 → List UInt8 → Prog) : Prog :=
  match child with
  | some source =>
      .recvFrom buffer.length source reduceTag recvData fun received =>
        next (op.combine buffer (received.getD scratch)) (received.getD scratch)
  | none => next buffer scratch

def reduce (worldSize rank : Nat) (sendData recvData scratch : List UInt8) (op : Op)
    (root : Nat) : Prog :=
  reduceChild (leftChild worldSize rank root) op recvData sendData scratch
    fun buffer scratch =>
      reduceChild (rightChild worldSize rank root) op recvData buffer scratch
        fun buffer _ => reduceSend worldSize rank root recvData buffer

/-- The loop of `MIMPI_Finalize`; a send to a finished rank does nothing. -/
def finalizeFrom (rank : Nat) : Nat → Prog
  | 0 => .ret .success []
  | left + 1 => .sendTo [] rank finishedTag (finalizeFrom (rank + 1) left)

def program (worldSize rank : Nat) : Call → Prog
  | .send data destination tag => .send data destination tag fun code => .ret code []
  | .recv count source tag =>
      .recv count source tag fun code received => .ret code (received.getD [])
  | .barrier => barrier worldSize rank
  | .bcast data root => bcast worldSize rank data root
  | .reduce sendData recvData scratch op root =>
      reduce worldSize rank sendData recvData scratch op root
  | .finalize => finalizeFrom 0 worldSize

/-! ## One rank -/

inductive Thread where
  | idle
  | run (prog : Prog)
  /-- in `MIMPI_Recv` with `lock[source]` taken, about to test -/
  | locked (count source : Nat) (tag : Int) (next : Retcode → Option (List UInt8) → Prog)
  /-- in `pthread_cond_wait`; a wakeup leads to the next test -/
  | waiting (count source : Nat) (tag : Int) (next : Retcode → Option (List UInt8) → Prog)
  /-- the deadlock is detected and the lock released, but the peer not told yet -/
  | deciding (count source : Nat) (tag : Int) (next : Retcode → Option (List UInt8) → Prog)

/-- The variables of one process, each array indexed by the peer.  The arrays of the code
have 16 places, so it is about at most 16 ranks.  `buffers_size` is the length of the list. -/
structure Rank where
  finishedProcesses : Nat → Bool
  buffers : Nat → List Message
  processWaitingForMe : Nat → Bool
  deadlock : Nat → Bool
  sendedBarrier : Nat → Bool
  receiverThreadActive : Nat → Bool
  /-- the receiver thread has not left its loop -/
  receiving : Nat → Bool
  thread : Thread
  /-- the calls made so far, the current one included -/
  issued : List Call
  /-- what the finished calls returned and left in the caller's buffer -/
  results : List (Retcode × List UInt8)

def Rank.init : Rank where
  finishedProcesses _ := false
  buffers _ := []
  processWaitingForMe _ := false
  deadlock _ := false
  sendedBarrier _ := false
  receiverThreadActive _ := true
  receiving _ := true
  thread := .idle
  issued := []
  results := []

/-- `a[i] = v`. -/
def assign {α : Type} (a : Nat → α) (i : Nat) (v : α) : Nat → α :=
  fun j => if j = i then v else a j

/-- Messages with their destinations. -/
abbrev Outbox := List (Nat × Message)

/-- `MIMPI_Send` -/
def Rank.send (cfg : Config) (rank : Nat) (x : Rank) (data : List UInt8)
    (destination tag : Int) : Retcode × Outbox :=
  if (rank : Int) = destination ∧ tag ≠ finishedTag then (.attemptedSelfOp, [])
  else if destination < 0 ∨ destination ≥ cfg.worldSize then (.noSuchRank, [])
  else if x.finishedProcesses destination.toNat then (.remoteFinished, [])
  else (.success, [(destination.toNat, ⟨tag, data⟩)])

/-- A control message, sent when deadlock detection is on. -/
def Rank.control (cfg : Config) (rank : Nat) (x : Rank) (peer : Nat) (tag : Int) : Outbox :=
  (x.send cfg rank [] peer tag).2

def Message.isMatch (count : Nat) (tag : Int) (m : Message) : Bool :=
  (m.data.length = count ∧ m.tag = tag) ∨ (m.data.length = count ∧ tag = 0 ∧ m.tag ≥ 0)

/-- The first match of the list, and the list without it. -/
def extract (count : Nat) (tag : Int) : List Message → Option (Message × List Message)
  | [] => none
  | m :: rest =>
      if m.isMatch count tag then some (m, rest)
      else (extract count tag rest).map fun (found, others) => (found, m :: others)

/-- One turn of the loop of `MIMPI_Recv`, up to its return or to the wait. -/
def Rank.test (cfg : Config) (rank : Nat) (x : Rank) (count source : Nat) (tag : Int)
    (next : Retcode → Option (List UInt8) → Prog) : Rank × Outbox :=
  if x.sendedBarrier source then
    ({ x with
        sendedBarrier := assign x.sendedBarrier source false
        thread := .run (next .success none) }, [])
  else
    match extract count tag (x.buffers source) with
    | some (m, rest) =>
        ({ x with
            buffers := assign x.buffers source rest
            thread := .run (next .success (some m.data)) },
          if cfg.deadlockDetection ∧ rank < source then
            x.control cfg rank source notWaitingTag
          else [])
    | none =>
        if cfg.deadlockDetection ∧ x.processWaitingForMe source ∧ rank > source then
          ({ x with
              processWaitingForMe := assign x.processWaitingForMe source false
              thread := .deciding count source tag next }, [])
        else if cfg.deadlockDetection ∧ x.deadlock source ∧ rank < source then
          ({ x with
              deadlock := assign x.deadlock source false
              thread := .run (next .deadlockDetected none) }, [])
        else if x.finishedProcesses source ∧ (x.buffers source).length = 0 then
          ({ x with thread := .run (next .remoteFinished none) }, [])
        else ({ x with thread := .waiting count source tag next }, [])

def Rank.step (cfg : Config) (rank : Nat) (x : Rank) : Option (Rank × Outbox) :=
  match x.thread with
  | .idle => none
  | .run (.ret code data) =>
      some ({ x with thread := .idle, results := x.results ++ [(code, data)] }, [])
  | .run (.send data destination tag next) =>
      let (code, out) := x.send cfg rank data destination tag
      some ({ x with thread := .run (next code) }, out)
  | .run (.recv count source tag next) =>
      if (rank : Int) = source then
        some ({ x with thread := .run (next .attemptedSelfOp none) }, [])
      else if source < 0 ∨ source ≥ cfg.worldSize then
        some ({ x with thread := .run (next .noSuchRank none) }, [])
      else
        some ({ x with thread := .locked count source.toNat tag next },
          if cfg.deadlockDetection ∧ rank < source.toNat then
            x.control cfg rank source.toNat waitingTag
          else [])
  | .locked count source tag next => some (x.test cfg rank count source tag next)
  | .waiting count source tag next => some (x.test cfg rank count source tag next)
  | .deciding _ source _ next =>
      some ({ x with thread := .run (next .deadlockDetected none) },
        x.control cfg rank source deadlockTag)

/-- `receive_message` with a whole message of the peer `i`. -/
def Rank.receiveMessage (cfg : Config) (x : Rank) (i : Nat) (m : Message) : Rank :=
  if cfg.deadlockDetection ∧ m.tag = deadlockTag then
    { x with deadlock := assign x.deadlock i true }
  else if cfg.deadlockDetection ∧ m.tag = waitingTag then
    { x with processWaitingForMe := assign x.processWaitingForMe i true }
  else if cfg.deadlockDetection ∧ m.tag = notWaitingTag then
    { x with processWaitingForMe := assign x.processWaitingForMe i false }
  else if m.tag = finishedTag then
    { x with
      finishedProcesses := assign x.finishedProcesses i true
      receiverThreadActive := assign x.receiverThreadActive i false }
  else if m.tag = barrierTag then { x with sendedBarrier := assign x.sendedBarrier i true }
  else { x with buffers := assign x.buffers i (x.buffers i ++ [m]) }

/-- The end of a turn of the receiver thread's loop. -/
def Rank.endTurn (x : Rank) (i : Nat) : Rank :=
  { x with receiving := assign x.receiving i (x.receiverThreadActive i) }

/-- The main thread holds `lock[i]`. -/
def Thread.holds (i : Nat) : Thread → Bool
  | .locked _ source _ _ => source = i
  | _ => false

/-- The start of a call; `MIMPI_Finalize` first tells the receiver threads to end. -/
def Rank.call (cfg : Config) (rank : Nat) (x : Rank) (c : Call) : Rank :=
  { x with
    thread := .run (program cfg.worldSize rank c)
    issued := x.issued ++ [c]
    receiverThreadActive :=
      if c = .finalize then fun _ => false else x.receiverThreadActive }

def Thread.isIdle : Thread → Bool
  | .idle => true
  | _ => false

/-! ## The world -/

structure World where
  ranks : Nat → Rank
  /-- the messages on their way from one rank to another -/
  channel : Nat → Nat → List Message

def World.init : World := ⟨fun _ => .init, fun _ _ => []⟩

inductive Action where
  | call (rank : Nat) (c : Call)
  | step (rank : Nat)
  /-- the receiver thread of `destination` for `source` takes a message -/
  | deliver (source destination : Nat)
  deriving DecidableEq

def Outbox.to (out : Outbox) (destination : Nat) : List Message :=
  (out.filter fun d => d.1 = destination).map (·.2)

def World.post (w : World) (rank : Nat) (x : Rank) (out : Outbox) : World where
  ranks := assign w.ranks rank x
  channel := fun s d => if s = rank then w.channel s d ++ out.to d else w.channel s d

def World.take (cfg : Config) (w : World) (source destination : Nat) (m : Message)
    (rest : List Message) : World where
  ranks := assign w.ranks destination
    (((w.ranks destination).receiveMessage cfg source m).endTurn source)
  channel := fun s d => if s = source ∧ d = destination then rest else w.channel s d

def worldStep (cfg : Config) (w : World) : Action → Option World
  | .call rank c =>
      if rank < cfg.worldSize ∧ (w.ranks rank).thread.isIdle ∧
          .finalize ∉ (w.ranks rank).issued then
        some (w.post rank ((w.ranks rank).call cfg rank c) [])
      else none
  | .step rank =>
      if rank < cfg.worldSize then
        ((w.ranks rank).step cfg rank).map fun (x, out) => w.post rank x out
      else none
  | .deliver source destination =>
      -- a receiver thread reads nothing once the rank's own channel is readable
      if source < cfg.worldSize ∧ destination < cfg.worldSize ∧ source ≠ destination ∧
          (w.ranks destination).receiving source ∧
          ¬ (w.ranks destination).thread.holds source ∧
          w.channel destination destination = [] then
        match w.channel source destination with
        | m :: rest => some (w.take cfg source destination m rest)
        | [] => none
      else none

end Mimuw.Mimpi
