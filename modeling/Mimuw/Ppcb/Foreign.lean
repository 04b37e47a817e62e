import Mimuw.Lib.Reactions
import Mimuw.Ppcb.Network
import Mimuw.Ppcb.Serving

/-!
# Datagrams from others

What a session does for its peer does not depend on the datagrams that come from other
addresses or ports, whatever they hold.
-/

namespace Mimuw.Ppcb

open Mimuw.Lib

/-- A timeout, or a datagram of the peer. -/
def Event.fromPeer (peer : SockAddr) : Event → Bool
  | .datagram source _ => source = peer
  | .timeout => true

/-- What the peer of a session and the standard output see. -/
inductive Observation where
  | accepted (payload : List UInt8)
  | sent (packet : Datagram)
  deriving DecidableEq

def sentTo (peer : SockAddr) (sends : Sends) : List Observation :=
  (sends.filter (·.1 = peer)).map fun (_, packet) => .sent packet

/-! ## The server -/

/-- A session of the server, which ends when the server waits for the next CONN. -/
inductive Serving where
  | serving (state : ServerState)
  | ended (completed : Bool)
  deriving DecidableEq

def Reaction.serving (r : Reaction) : Serving :=
  if r.state.session? = none then .ended r.completed else .serving r.state

def Reaction.observed (peer : SockAddr) (r : Reaction) : List Observation :=
  (if r.accepted = [] then [] else [Observation.accepted r.accepted]) ++ sentTo peer r.sends

/-- The session of a peer goes on to the next `recvfrom`. -/
def serve (peer : SockAddr) (s : Serving) (event : Event) : Serving × List Observation :=
  match s with
  | .ended _ => (s, [])
  | .serving state =>
      let r := handleUdpConnection state event
      (r.serving, r.observed peer)

/-- The session is one with the peer. -/
def Serving.With (peer : SockAddr) : Serving → Prop
  | .serving state => ∃ session, state.session? = some session ∧ session.clientAddr = peer
  | .ended _ => True

section Server

variable {peer source : SockAddr} {session : Session} {state : ServerState}

private theorem sentTo_eq_nil {sends : Sends} (h : ∀ d ∈ sends, d.1 ≠ peer) :
    sentTo peer sends = [] := by
  rw [sentTo, List.filter_eq_nil_iff.mpr fun d hd => by simpa using h d hd]
  rfl

/-- A loop that receives from another address answers there, if at all, and goes on. -/
private theorem recvDataPackets_foreign (bytes : Datagram) (packetNumber readSize dataLen : Nat)
    (hsource : source ≠ session.clientAddr) :
    ∃ sends, recvDataPackets session packetNumber readSize dataLen source bytes = (sends, .again) ∧
      sentTo session.clientAddr sends = [] := by
  simp only [recvDataPackets, if_pos hsource]
  split
  · exact ⟨_, rfl, sentTo_eq_nil (by simpa using hsource)⟩
  · split
    · exact ⟨_, rfl, sentTo_eq_nil (by simpa using hsource)⟩
    · exact ⟨_, rfl, rfl⟩

private theorem recvDataPacketRetr_foreign (bytes : Datagram) (packetNumber readSize dataLen : Nat)
    (hsource : source ≠ session.clientAddr) :
    ∃ sends, recvDataPacketRetr session packetNumber readSize dataLen source bytes =
      (sends, .again) ∧ sentTo session.clientAddr sends = [] := by
  simp only [recvDataPacketRetr, if_pos hsource]
  split
  · exact ⟨_, rfl, sentTo_eq_nil (by simpa using hsource)⟩
  · split
    · exact ⟨_, rfl, sentTo_eq_nil (by simpa using hsource)⟩
    · exact ⟨_, rfl, rfl⟩

private theorem handleUdpConnection_foreign (bytes : Datagram)
    (hsession : state.session? = some session) (hsource : source ≠ session.clientAddr) :
    ∃ sends, handleUdpConnection state (.datagram source bytes) = .goto state sends ∧
      sentTo session.clientAddr sends = [] := by
  cases state with
  | waitConn => cases hsession
  | recvData _ dataLen readSize packetNumber =>
      cases hsession
      obtain ⟨sends, hrecv, hsent⟩ :=
        recvDataPackets_foreign bytes packetNumber readSize dataLen hsource
      exact ⟨sends, by simp only [handleUdpConnection, hrecv], hsent⟩
  | recvFirst _ dataLen attempts =>
      cases hsession
      obtain ⟨sends, hrecv, hsent⟩ :=
        recvDataPacketRetr_foreign bytes firstPacketNumber 0 dataLen hsource
      exact ⟨sends, by simp only [handleUdpConnection, hrecv], hsent⟩
  | recvNext _ dataLen readSize packetNumber attempts =>
      cases hsession
      obtain ⟨sends, hrecv, hsent⟩ :=
        recvDataPacketRetr_foreign bytes packetNumber readSize dataLen hsource
      exact ⟨sends, by simp only [handleUdpConnection, hrecv], hsent⟩

private theorem handleUdpConnection_session (event : Event)
    (hsession : state.session? = some session) :
    ∀ next ∈ (handleUdpConnection state event).state.session?, next = session := by
  have hsame : ∀ next ∈ state.session?, next = session := fun next hnext =>
    Option.some.inj (hnext.symm.trans hsession)
  cases event with
  | timeout =>
      cases state with
      | waitConn => cases hsession
      | recvData _ dataLen readSize packetNumber => rintro next ⟨⟩
      | recvFirst _ dataLen attempts =>
          simp only [handleUdpConnection]
          split
          · exact hsame
          · rintro next ⟨⟩
      | recvNext _ dataLen readSize packetNumber attempts =>
          simp only [handleUdpConnection]
          split
          · exact hsame
          · rintro next ⟨⟩
  | datagram source bytes =>
      cases state with
      | waitConn => cases hsession
      | recvData _ dataLen readSize packetNumber =>
          cases hsession
          simp only [handleUdpConnection]
          split
          · exact hsame
          · rintro next ⟨⟩
          · exact fun next hnext => (loopRecvData_session hnext).1
      | recvFirst _ dataLen attempts =>
          cases hsession
          simp only [handleUdpConnection]
          split
          · exact hsame
          · rintro next ⟨⟩
          · exact fun next hnext => (loopSendAcc_session hnext).1
      | recvNext _ dataLen readSize packetNumber attempts =>
          cases hsession
          simp only [handleUdpConnection]
          split
          · exact hsame
          · rintro next ⟨⟩
          · exact fun next hnext => (loopSendAcc_session hnext).1

private theorem Reaction.with_serving {r : Reaction}
    (h : ∀ session ∈ r.state.session?, session.clientAddr = peer) : r.serving.With peer := by
  unfold Reaction.serving
  split
  · trivial
  next hne =>
    obtain ⟨session, hsession⟩ := Option.ne_none_iff_exists'.mp hne
    exact ⟨session, hsession, h session hsession⟩

private theorem serve_with {s : Serving} (event : Event) (h : s.With peer) :
    (serve peer s event).1.With peer := by
  cases s with
  | ended completed => trivial
  | serving state =>
      obtain ⟨session, hsession, rfl⟩ := h
      exact Reaction.with_serving fun next hnext =>
        congrArg Session.clientAddr (handleUdpConnection_session event hsession next hnext)

private theorem serve_foreign {s : Serving} {event : Event} (h : s.With peer)
    (hforeign : event.fromPeer peer = false) : serve peer s event = (s, []) := by
  cases event with
  | timeout => cases hforeign
  | datagram source bytes =>
      have hsource : source ≠ peer := by simpa [Event.fromPeer] using hforeign
      cases s with
      | ended completed => rfl
      | serving state =>
          obtain ⟨session, hsession, rfl⟩ := h
          obtain ⟨sends, hgoto, hsent⟩ := handleUdpConnection_foreign bytes hsession hsource
          simp only [serve, hgoto]
          simp [Reaction.goto, Reaction.serving, Reaction.observed, hsession, hsent]

end Server

private theorem with_of_conn (source : SockAddr) (bytes : Datagram) :
    (handleUdpConnection .waitConn (.datagram source bytes)).serving.With source := by
  refine Reaction.with_serving fun session hsession => ?_
  simp only [handleUdpConnection] at hsession
  split at hsession
  · cases hsession
  · split at hsession
    · rw [(loopRecvData_session hsession).1]
    · cases hsession
      rfl

/-! ## The clients -/

/-- A client goes on to its next `recvfrom`. -/
def Transfer.follow (c : Transfer) (state : ClientState) (event : Event) :
    ClientState × List Observation :=
  let (state, sends) := c.handleClient state event
  (state, sentTo c.client.serverAddr sends)

private theorem follow_foreign (c : Transfer) (state : ClientState) (event : Event)
    (hforeign : event.fromPeer c.client.serverAddr = false) :
    c.follow state event = (state, []) := by
  cases event with
  | timeout => cases hforeign
  | datagram source bytes =>
      have hsource : source ≠ c.client.serverAddr := by simpa [Event.fromPeer] using hforeign
      unfold Transfer.follow Transfer.handleClient
      cases c.protocol with
      | udp =>
          cases state with
          | recvConacc attempts =>
              simp [handleUdpClient, recvConaccPacket, hsource, sentTo]
          | recvAcc packetNumber offset attempts => rfl
          | recvRcvd => simp [handleUdpClient, recvRcvdPacket, hsource, sentTo]
          | succeeded => rfl
          | failed => rfl
      | udpr =>
          cases state with
          | recvConacc attempts =>
              simp [handleUdprClient, recvConaccPacket, hsource, sentTo]
          | recvAcc packetNumber offset attempts =>
              simp [handleUdprClient, recvAccPacketRetr, hsource, sentTo]
          | recvRcvd => simp [handleUdprClient, recvRcvdPacketWithRetr, hsource, sentTo]
          | succeeded => rfl
          | failed => rfl

/-- A session from its CONN on, at the server and at the client, ends in the same way, with
the same payloads accepted and the same packets sent to the peer, when all datagrams of
others are left out. -/
theorem foreign_datagrams_ignored :
    (∀ (source : SockAddr) (conn : Datagram) (events : List Event),
      let opened := (handleUdpConnection .waitConn (.datagram source conn)).serving
      transcript (serve source) opened (events.filter (Event.fromPeer source)) =
        transcript (serve source) opened events) ∧
    ∀ (c : Transfer) (events : List Event),
      transcript c.follow (.recvConacc 0) (events.filter (Event.fromPeer c.client.serverAddr)) =
        transcript c.follow (.recvConacc 0) events := by
  refine ⟨fun source conn events => ?_, fun c events => ?_⟩
  · exact transcript_filter (fun s event h => serve_with event h)
      (fun s event h hforeign => serve_foreign h hforeign) (with_of_conn source conn) events
  · exact transcript_filter (I := fun _ => True) (fun _ _ _ => trivial)
      (fun state event _ hforeign => follow_foreign c state event hforeign) trivial events

end Mimuw.Ppcb
