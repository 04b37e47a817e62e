import Mimuw.Lib.Runs
import Mimuw.Ppcb.Client

/-!
# A client and the server over an unreliable network

Every datagram ever sent stays on record, and the network may put a copy of any
of them into the receiver's socket, at any time and any number of times: loss,
duplication, delay and reordering are all choices of when to copy what.  The
network may also add datagrams of other parties.  A receive loop times out only
when its socket is empty.
-/

namespace Mimuw.Ppcb

open Mimuw.Lib

inductive DatagramProtocol where
  | udp
  | udpr
  deriving DecidableEq

def DatagramProtocol.id : DatagramProtocol → UInt8
  | .udp => udpProtocolId
  | .udpr => udprProtocolId

/-- One run of a client, which has its data in memory. -/
structure Transfer where
  protocol : DatagramProtocol
  client : ClientConfig
  clientAddr : SockAddr
  fits : client.data.length < 2 ^ 64

namespace Transfer

def data (c : Transfer) : List UInt8 := c.client.data

/-- The session as the server knows it. -/
def session (c : Transfer) : Session := ⟨c.clientAddr, c.client.sessionId⟩

def conn (c : Transfer) : Datagram :=
  connPacket c.client.sessionId c.protocol.id c.data.length

/-- The DATA packet with the number `m`. -/
def dataNumber (c : Transfer) (m : Nat) : Datagram :=
  dataPacket c.client.sessionId m (chunk c.data m)

def handleClient (c : Transfer) : ClientState → Event → ClientState × Sends :=
  match c.protocol with
  | .udp => handleUdpClient c.client
  | .udpr => handleUdprClient c.client

end Transfer

/-- The client has not closed its socket. -/
def ClientState.running : ClientState → Bool
  | .succeeded | .failed => false
  | _ => true

/-- One serving of a session: from the CONN packet that opened it on. -/
structure Handling where
  session : Session
  accepted : List UInt8
  rcvdSent : Bool
  deriving DecidableEq

structure World where
  client : ClientState
  server : ServerState
  clientSent : Sends
  serverSent : Sends
  clientSocket : List (SockAddr × Datagram)
  serverSocket : List (SockAddr × Datagram)
  /-- the servings so far, the latest first -/
  handlings : List Handling

namespace World

def init (c : Transfer) : World where
  client := .recvConacc 0
  server := .waitConn
  clientSent := sendTo c.client c.conn
  serverSent := []
  clientSocket := []
  serverSocket := []
  handlings := []

end World

def record (handlings : List Handling) (r : Reaction) : List Handling :=
  let opened := match r.opened with
    | none => handlings
    | some session => ⟨session, [], false⟩ :: handlings
  match opened with
  | [] => []
  | h :: rest =>
      { h with accepted := h.accepted ++ r.accepted, rcvdSent := h.rcvdSent || r.completed } ::
        rest

def World.serverReacts (w : World) (event : Event) (rest : List (SockAddr × Datagram)) :
    World :=
  let r := handleUdpConnection w.server event
  { w with
    server := r.state
    serverSent := w.serverSent ++ r.sends
    serverSocket := rest
    handlings := record w.handlings r }

def World.clientReacts (c : Transfer) (w : World) (event : Event)
    (rest : List (SockAddr × Datagram)) : World :=
  let r := c.handleClient w.client event
  { w with
    client := r.1
    clientSent := w.clientSent ++ r.2
    clientSocket := rest }

inductive Action where
  /-- a copy of the client's `i`-th datagram reaches the server's socket -/
  | toServer (i : Nat)
  | toClient (i : Nat)
  | foreignToServer (source : SockAddr) (bytes : Datagram)
  | foreignToClient (source : SockAddr) (bytes : Datagram)
  | serverReceives
  | serverTimesOut
  | clientReceives
  | clientTimesOut
  deriving DecidableEq

/-- Not from `peer`, or of another session. -/
def Foreign (c : Transfer) (peer source : SockAddr) (bytes : Datagram) : Prop :=
  source ≠ peer ∨ sessionField bytes ≠ c.client.sessionId.bytes

instance (c : Transfer) (peer source : SockAddr) (bytes : Datagram) :
    Decidable (Foreign c peer source bytes) :=
  inferInstanceAs (Decidable (_ ∨ _))

def networkStep (c : Transfer) (w : World) : Action → Option World
  | .toServer i =>
      match w.clientSent[i]? with
      | some (destination, bytes) =>
          if destination = c.client.serverAddr then
            some { w with serverSocket := w.serverSocket ++ [(c.clientAddr, bytes)] }
          else none
      | none => none
  | .toClient i =>
      match w.serverSent[i]? with
      | some (destination, bytes) =>
          if destination = c.clientAddr ∧ w.client.running then
            some { w with clientSocket := w.clientSocket ++ [(c.client.serverAddr, bytes)] }
          else none
      | none => none
  | .foreignToServer source bytes =>
      if Foreign c c.clientAddr source bytes then
        some { w with serverSocket := w.serverSocket ++ [(source, bytes)] }
      else none
  | .foreignToClient source bytes =>
      if Foreign c c.client.serverAddr source bytes ∧ w.client.running then
        some { w with clientSocket := w.clientSocket ++ [(source, bytes)] }
      else none
  | .serverReceives =>
      match w.serverSocket with
      | (source, bytes) :: rest => some (w.serverReacts (.datagram source bytes) rest)
      | [] => none
  | .serverTimesOut =>
      match w.serverSocket with
      | [] => some (w.serverReacts .timeout [])
      | _ :: _ => none
  | .clientReceives =>
      match w.clientSocket with
      | (source, bytes) :: rest =>
          if w.client.running then some (w.clientReacts c (.datagram source bytes) rest)
          else none
      | [] => none
  | .clientTimesOut =>
      match w.clientSocket with
      | [] => if w.client.running then some (w.clientReacts c .timeout []) else none
      | _ :: _ => none

/-! ## What a step can do -/

/-- The event a party reads, and what is left in its socket. -/
inductive Reads : List (SockAddr × Datagram) → Event → List (SockAddr × Datagram) → Prop where
  | datagram (source : SockAddr) (bytes : Datagram) (rest : List (SockAddr × Datagram)) :
      Reads ((source, bytes) :: rest) (.datagram source bytes) rest
  | timeout : Reads [] .timeout []

/-- The action by which the server reads the event. -/
def Event.server : Event → Action
  | .datagram _ _ => .serverReceives
  | .timeout => .serverTimesOut

/-- The action by which the client reads the event. -/
def Event.client : Event → Action
  | .datagram _ _ => .clientReceives
  | .timeout => .clientTimesOut

inductive StepKind (c : Transfer) (w : World) : Action → World → Prop where
  | toServer (i : Nat) (bytes : Datagram) (h : (c.client.serverAddr, bytes) ∈ w.clientSent) :
      StepKind c w (.toServer i)
        { w with serverSocket := w.serverSocket ++ [(c.clientAddr, bytes)] }
  | toClient (i : Nat) (bytes : Datagram) (h : (c.clientAddr, bytes) ∈ w.serverSent)
      (hrun : w.client.running) :
      StepKind c w (.toClient i)
        { w with clientSocket := w.clientSocket ++ [(c.client.serverAddr, bytes)] }
  | foreignToServer (source : SockAddr) (bytes : Datagram)
      (h : Foreign c c.clientAddr source bytes) :
      StepKind c w (.foreignToServer source bytes)
        { w with serverSocket := w.serverSocket ++ [(source, bytes)] }
  | foreignToClient (source : SockAddr) (bytes : Datagram)
      (h : Foreign c c.client.serverAddr source bytes) (hrun : w.client.running) :
      StepKind c w (.foreignToClient source bytes)
        { w with clientSocket := w.clientSocket ++ [(source, bytes)] }
  | server (event : Event) (rest : List (SockAddr × Datagram))
      (h : Reads w.serverSocket event rest) :
      StepKind c w event.server (w.serverReacts event rest)
  | client (event : Event) (rest : List (SockAddr × Datagram))
      (h : Reads w.clientSocket event rest) (hrun : w.client.running) :
      StepKind c w event.client (w.clientReacts c event rest)

theorem networkStep_cases {c : Transfer} {w w' : World} {a : Action}
    (h : networkStep c w a = some w') : StepKind c w a w' := by
  cases a with
  | toServer i =>
      simp only [networkStep] at h
      split at h
      · rename_i destination bytes hsent
        split at h
        · rename_i hdest
          cases h
          exact .toServer i bytes (hdest ▸ List.mem_of_getElem? hsent)
        · cases h
      · cases h
  | toClient i =>
      simp only [networkStep] at h
      split at h
      · rename_i destination bytes hsent
        split at h
        · rename_i hdest
          cases h
          exact .toClient i bytes (hdest.1 ▸ List.mem_of_getElem? hsent) hdest.2
        · cases h
      · cases h
  | foreignToServer source bytes =>
      simp only [networkStep] at h
      split at h
      · cases h
        exact .foreignToServer source bytes ‹_›
      · cases h
  | foreignToClient source bytes =>
      simp only [networkStep] at h
      split at h
      · rename_i hforeign
        cases h
        exact .foreignToClient source bytes hforeign.1 hforeign.2
      · cases h
  | serverReceives =>
      simp only [networkStep] at h
      split at h
      · rename_i source bytes rest hsocket
        cases h
        exact .server (.datagram source bytes) rest (hsocket ▸ .datagram source bytes rest)
      · cases h
  | serverTimesOut =>
      simp only [networkStep] at h
      split at h
      · rename_i hsocket
        cases h
        exact .server .timeout [] (hsocket ▸ .timeout)
      · cases h
  | clientReceives =>
      simp only [networkStep] at h
      split at h
      · rename_i source bytes rest hsocket
        split at h
        · cases h
          exact .client (.datagram source bytes) rest (hsocket ▸ .datagram source bytes rest)
            ‹_›
        · cases h
      · cases h
  | clientTimesOut =>
      simp only [networkStep] at h
      split at h
      · rename_i hsocket
        split at h
        · cases h
          exact .client .timeout [] (hsocket ▸ .timeout) ‹_›
        · cases h
      · cases h

end Mimuw.Ppcb
