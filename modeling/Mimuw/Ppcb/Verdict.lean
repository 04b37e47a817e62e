import Mimuw.Ppcb.Duplicates

/-!
# The verdict of the retransmitting client

Over a network that carries this session only, everything the client can read is
a CONACC, an ACC it has earned, a rejection or the RCVD.  Once RCVD lies in its
socket the client can no longer time out, so the packets it reads decide the
verdict, each by the receive loop it is read in.
-/

namespace Mimuw.Ppcb

open Mimuw.Lib

/-- The network carries nothing but the session's datagrams: it may still lose,
duplicate, delay and reorder them. -/
def sessionStep (c : Transfer) (w : World) : Action → Option World
  | .foreignToServer _ _ | .foreignToClient _ _ => none
  | action => networkStep c w action

/-- The client has sent the chunk `m`. -/
def Reached (c : Transfer) (client : ClientState) (m : Nat) : Prop :=
  m * bufferSize < c.data.length ∧
    match client with
    | .recvConacc _ => False
    | .recvAcc packetNumber _ _ => m ≤ packetNumber
    | _ => True

/-- What the server can have sent the client. -/
inductive Answer (c : Transfer) (client : ClientState) : Datagram → Prop where
  | conacc : Answer c client (conaccPacket c.client.sessionId)
  | acc (m : Nat) (h : Reached c client m) : Answer c client (accPacket c.client.sessionId m)
  | rjt (id : SessionId) (m : Nat) : Answer c client (rjtPacket id m)
  | conrjt (id : SessionId) : Answer c client (conrjtPacket id)
  | rcvd : Answer c client (rcvdPacket c.client.sessionId)

/-- The receive loop the client is in has a place for the type of the packet. -/
def InPlace (client : ClientState) (type : UInt8) : Prop :=
  match client with
  | .recvConacc _ => type = conaccPacketType
  | .recvAcc packetNumber _ _ =>
      type = accPacketType ∨ type = conaccPacketType ∧ packetNumber = firstPacketNumber
  | .recvRcvd => type = accPacketType ∨ type = rcvdPacketType
  | .succeeded | .failed => True

/-- A client about to read a packet has a place for it. -/
def ReadsInPlace (w : World) : Action → Prop
  | .clientReceives => ∀ d ∈ w.clientSocket.head?, InPlace w.client (packetType d.2)
  | _ => True

/-! ## One packet read -/

section Client

variable {c : Transfer} {client : ClientState}

private theorem recvConacc_exit_iff {attempts : Nat} {bytes : Datagram}
    (hanswer : Answer c (.recvConacc attempts) bytes) :
    recvConaccPacket c.client c.client.serverAddr bytes = .exit ↔
      packetType bytes ≠ conaccPacketType := by
  cases hanswer with
  | conacc => simp [recvConaccPacket_conacc]
  | acc m h => exact absurd h.2 id
  | rjt id m =>
      have htype : packetType (rjtPacket id m) ≠ conaccPacketType :=
        show rjtPacketType ≠ conaccPacketType by decide
      simp only [recvConaccPacket_other htype, htype, ne_eq, not_false_eq_true]
  | conrjt id =>
      have htype : packetType (conrjtPacket id) ≠ conaccPacketType :=
        show conrjtPacketType ≠ conaccPacketType by decide
      simp only [recvConaccPacket_other htype, htype, ne_eq, not_false_eq_true]
  | rcvd =>
      have htype : packetType (rcvdPacket c.client.sessionId) ≠ conaccPacketType :=
        show rcvdPacketType ≠ conaccPacketType by decide
      simp only [recvConaccPacket_other htype, htype, ne_eq, not_false_eq_true]

private theorem recvAcc_exit_iff {packetNumber offset attempts : Nat} {bytes : Datagram}
    (hanswer : Answer c (.recvAcc packetNumber offset attempts) bytes) :
    recvAccPacketRetr c.client packetNumber c.client.serverAddr bytes = .exit ↔
      ¬ (packetType bytes = accPacketType ∨
        packetType bytes = conaccPacketType ∧ packetNumber = firstPacketNumber) := by
  cases hanswer with
  | conacc =>
      have htype : ¬ conaccPacketType = accPacketType := by decide
      simp only [recvAccPacketRetr_conacc, packetType_conaccPacket, htype, false_or, true_and]
      by_cases hfirst : packetNumber = firstPacketNumber <;> simp [hfirst]
  | acc m h =>
      have hle : m ≤ packetNumber := h.2
      simp only [recvAccPacketRetr_acc _ (number_small h.1), packetType_accPacket, true_or,
        not_true_eq_false, iff_false]
      by_cases hlt : m < packetNumber
      · simp [hlt]
      · simp [show m = packetNumber by omega]
  | rjt id m =>
      have hacc : packetType (rjtPacket id m) ≠ accPacketType :=
        show rjtPacketType ≠ accPacketType by decide
      have hconacc : packetType (rjtPacket id m) ≠ conaccPacketType :=
        show rjtPacketType ≠ conaccPacketType by decide
      simp only [recvAccPacketRetr_other _ hacc hconacc, hacc, hconacc, false_and, or_self,
        not_false_eq_true]
  | conrjt id =>
      have hacc : packetType (conrjtPacket id) ≠ accPacketType :=
        show conrjtPacketType ≠ accPacketType by decide
      have hconacc : packetType (conrjtPacket id) ≠ conaccPacketType :=
        show conrjtPacketType ≠ conaccPacketType by decide
      simp only [recvAccPacketRetr_other _ hacc hconacc, hacc, hconacc, false_and, or_self,
        not_false_eq_true]
  | rcvd =>
      have hacc : packetType (rcvdPacket c.client.sessionId) ≠ accPacketType :=
        show rcvdPacketType ≠ accPacketType by decide
      have hconacc : packetType (rcvdPacket c.client.sessionId) ≠ conaccPacketType :=
        show rcvdPacketType ≠ conaccPacketType by decide
      simp only [recvAccPacketRetr_other _ hacc hconacc, hacc, hconacc, false_and, or_self,
        not_false_eq_true]

private theorem recvRcvd_exit_iff {bytes : Datagram} (hanswer : Answer c .recvRcvd bytes) :
    recvRcvdPacketWithRetr c.client c.client.serverAddr bytes = .exit ↔
      ¬ (packetType bytes = accPacketType ∨ packetType bytes = rcvdPacketType) := by
  by_cases htype : packetType bytes = accPacketType ∨ packetType bytes = rcvdPacketType
  · have hrjt : ¬ (rjtPacketType = accPacketType ∨ rjtPacketType = rcvdPacketType) := by decide
    have hconrjt : ¬ (conrjtPacketType = accPacketType ∨ conrjtPacketType = rcvdPacketType) := by
      decide
    have hconacc : ¬ (conaccPacketType = accPacketType ∨ conaccPacketType = rcvdPacketType) := by
      decide
    cases hanswer with
    | conacc => exact absurd htype hconacc
    | acc m h => simp [recvRcvdPacketWithRetr_acc]
    | rjt id m => exact absurd htype hrjt
    | conrjt id => exact absurd htype hconrjt
    | rcvd => simp [recvRcvdPacketWithRetr_rcvd]
  · obtain ⟨hacc, hrcvd⟩ := not_or.mp htype
    simp only [recvRcvdPacketWithRetr_other hacc hrcvd, htype, not_false_eq_true]

private theorem loopSendData_running (packetNumber offset : Nat) :
    (loopSendData c.client packetNumber offset).1.running := by
  unfold loopSendData
  split <;> rfl

/-- Reading an answer fails the client exactly when it is out of place. -/
private theorem reads_failed_iff {bytes : Datagram} (hudpr : c.protocol = .udpr)
    (hanswer : Answer c client bytes) (hrun : client.running) :
    (c.handleClient client (.datagram c.client.serverAddr bytes)).1 = .failed ↔
      ¬ InPlace client (packetType bytes) := by
  have hrunning (packetNumber offset : Nat) :
      (loopSendData c.client packetNumber offset).1 ≠ .failed := by
    intro hfailed
    have := loopSendData_running (c := c) packetNumber offset
    simp [hfailed, ClientState.running] at this
  simp only [Transfer.handleClient, hudpr]
  cases client with
  | succeeded => simp [ClientState.running] at hrun
  | failed => simp [ClientState.running] at hrun
  | recvConacc attempts =>
      rw [InPlace, ← ne_eq, ← recvConacc_exit_iff hanswer]
      simp only [handleUdprClient]
      split <;> simp_all
  | recvAcc packetNumber offset attempts =>
      rw [InPlace, ← recvAcc_exit_iff hanswer]
      simp only [handleUdprClient]
      split <;> simp_all
  | recvRcvd =>
      rw [InPlace, ← recvRcvd_exit_iff hanswer]
      simp only [handleUdprClient]
      split <;> simp_all

end Client

/-! ## What is in flight -/

/-- A datagram the client has sent by now. -/
def SentBy (c : Transfer) (client : ClientState) (bytes : Datagram) : Prop :=
  bytes = c.conn ∨ ∃ m, Reached c client m ∧ bytes = c.dataNumber m

structure SessionOnly (c : Transfer) (w : World) : Prop where
  safe : Safe c w
  session : ∀ session, w.server.session? = some session → session = c.session
  acked : Acked (Reached c w.client) w.server
  clientSent : ∀ d ∈ w.clientSent, SentBy c w.client d.2
  serverSocket : ∀ d ∈ w.serverSocket, d.1 = c.clientAddr ∧ SentBy c w.client d.2
  serverSent : ∀ d ∈ w.serverSent, Answer c w.client d.2
  clientSocket : ∀ d ∈ w.clientSocket, d.1 = c.client.serverAddr ∧ Answer c w.client d.2

section InFlight

variable {c : Transfer} {w : World}

private theorem reached_loopSendData {packetNumber offset m : Nat}
    (hle : m ≤ packetNumber) (hm : m * bufferSize < c.data.length) :
    Reached c (loopSendData c.client packetNumber offset).1 m := by
  unfold loopSendData
  split
  · exact ⟨hm, hle⟩
  · exact ⟨hm, trivial⟩

private theorem reached_react {client : ClientState} {event : Event} {m : Nat}
    (hudpr : c.protocol = .udpr) (h : Reached c client m) :
    Reached c (c.handleClient client event).1 m := by
  simp only [Transfer.handleClient, hudpr, handleUdprClient]
  split
  · exact absurd h.2 id
  · exact absurd h.2 id
  · split
    · exact ⟨h.1, h.2⟩
    · exact ⟨h.1, trivial⟩
  · split
    · exact h
    · exact ⟨h.1, trivial⟩
    · exact reached_loopSendData (Nat.le_succ_of_le h.2) h.1
  · exact ⟨h.1, trivial⟩
  · split <;> exact ⟨h.1, trivial⟩
  · exact h
  · exact h

theorem SentBy.mono {client : ClientState} {event : Event} {bytes : Datagram}
    (hudpr : c.protocol = .udpr) (h : SentBy c client bytes) :
    SentBy c (c.handleClient client event).1 bytes := by
  rcases h with h | ⟨m, hm, h⟩
  · exact .inl h
  · exact .inr ⟨m, reached_react hudpr hm, h⟩

theorem Answer.mono {client : ClientState} {event : Event} {bytes : Datagram}
    (hudpr : c.protocol = .udpr) (h : Answer c client bytes) :
    Answer c (c.handleClient client event).1 bytes := by
  cases h with
  | conacc => exact .conacc
  | acc m h => exact .acc m (reached_react hudpr h)
  | rjt id m => exact .rjt id m
  | conrjt id => exact .conrjt id
  | rcvd => exact .rcvd

theorem Acked.mono {client : ClientState} {event : Event} {server : ServerState}
    (hudpr : c.protocol = .udpr) (h : Acked (Reached c client) server) :
    Acked (Reached c (c.handleClient client event).1) server := by
  cases server with
  | recvNext session dataLen readSize packetNumber attempts => exact reached_react hudpr h
  | _ => trivial

private theorem sentBy_dataAt {packetNumber offset attempts : Nat}
    (h : offset = packetNumber * bufferSize) (hlt : offset < c.data.length) :
    ∀ d ∈ sendTo c.client (dataAt c.client packetNumber offset),
      SentBy c (.recvAcc packetNumber offset attempts) d.2 := by
  rw [dataAt_eq h]
  exact List.forall_mem_singleton.mpr
    (.inr ⟨packetNumber, ⟨h ▸ hlt, Nat.le_refl packetNumber⟩, rfl⟩)

private theorem sentBy_loopSendData {packetNumber offset : Nat}
    (h : offset < c.data.length → offset = packetNumber * bufferSize) :
    ∀ d ∈ (loopSendData c.client packetNumber offset).2,
      SentBy c (loopSendData c.client packetNumber offset).1 d.2 := by
  unfold loopSendData
  split
  · rename_i hlt
    exact sentBy_dataAt (h hlt) hlt
  · simp

private theorem sentBy_react {client : ClientState} {event : Event} (hudpr : c.protocol = .udpr)
    (hok : ClientOk c client) :
    ∀ d ∈ (c.handleClient client event).2,
      SentBy c (c.handleClient client event).1 d.2 := by
  have hconn : c.conn = connPacket c.client.sessionId udprProtocolId c.client.data.length := by
    simp [Transfer.conn, hudpr, DatagramProtocol.id, Transfer.data]
  simp only [Transfer.handleClient, hudpr, handleUdprClient]
  split
  · split
    · exact List.forall_mem_singleton.mpr (.inl hconn.symm)
    · simp
  · split
    · simp
    · simp
    · exact sentBy_loopSendData (by simp [firstPacketNumber])
  · split
    · exact sentBy_dataAt hok.1 hok.2
    · simp
  · split
    · simp
    · simp
    · exact sentBy_loopSendData (next_offset hok.1 hok.2)
  · simp
  · split <;> simp
  · simp
  · simp

/-! ## The server serves this session only -/

private theorem opened_by_conn {server : ServerState} {event : Event} {session : Session}
    (h : (handleUdpConnection server event).opened = some session) :
    ∃ source bytes p, event = .datagram source bytes ∧ recvConnPacket bytes = some p ∧
      session = ⟨source, p.sessionId⟩ := by
  unfold handleUdpConnection at h
  split at h
  · cases h
  · rename_i source bytes
    split at h
    · cases h
    · rename_i p hconn
      refine ⟨source, bytes, p, rfl, hconn, ?_⟩
      split at h
      · simpa using h.symm
      · simpa using h.symm
  · cases h
  · split at h
    · cases h
    · cases h
    · simp at h
  · split at h <;> cases h
  · split at h
    · cases h
    · cases h
    · simp at h
  · split at h <;> cases h
  · split at h
    · cases h
    · cases h
    · simp at h

/-- The datagrams of the event are the client's. -/
def FromClient (c : Transfer) (client : ClientState) : Event → Prop
  | .datagram source bytes => source = c.clientAddr ∧ SentBy c client bytes
  | .timeout => True

private theorem recvConnPacket_sentBy {client : ClientState} {bytes : Datagram} {p : ConnPacket}
    (h : recvConnPacket bytes = some p) (hsent : SentBy c client bytes) :
    p.sessionId = c.client.sessionId := by
  rcases hsent with rfl | ⟨m, -, rfl⟩
  · rw [recvConnPacket_conn, Option.some.injEq] at h
    exact h ▸ rfl
  · have htype := (recvConnPacket_some h).1
    simp [connPacketType, dataPacketType] at htype

private theorem session_react {client : ClientState} {server : ServerState} {event : Event}
    {session : Session} (hevent : FromClient c client event)
    (hsession : ∀ session, server.session? = some session → session = c.session)
    (h : (handleUdpConnection server event).opened.or server.session? = some session) :
    session = c.session := by
  cases hopened : (handleUdpConnection server event).opened with
  | none =>
      rw [hopened, Option.none_or] at h
      exact hsession session h
  | some opened =>
      rw [hopened, Option.some_or, Option.some.injEq] at h
      subst h
      obtain ⟨source, bytes, p, rfl, hconn, rfl⟩ := opened_by_conn hopened
      obtain ⟨rfl, hsent⟩ := hevent
      rw [recvConnPacket_sentBy hconn hsent]
      rfl

private theorem carries_fromClient {client : ClientState} {event : Event}
    (hevent : FromClient c client event) : Carries (Reached c client) event := by
  cases event with
  | timeout => trivial
  | datagram source bytes =>
      intro htype
      rcases hevent.2 with rfl | ⟨m, hm, rfl⟩
      · simp [connPacketType, dataPacketType] at htype
      · rw [take_dataNumber, numberField_dataNumber hm.1]
        exact hm

private theorem answer_of_serverSends {client : ClientState} {session? : Option Session}
    {completed : Bool} {d : SockAddr × Datagram}
    (hsession : ∀ session, session? = some session → session = c.session)
    (h : ServerSends (Reached c client) session? completed d) : Answer c client d.2 := by
  cases h with
  | rejection h =>
      cases h with
      | conrjt destination id => exact .conrjt id
      | rjt destination id m => exact .rjt id m
  | conacc h =>
      cases hsession _ h
      exact .conacc
  | acc h hn =>
      cases hsession _ h
      exact .acc _ hn
  | rcvd h hcompleted =>
      cases hsession _ h
      exact .rcvd

/-! ## Preservation -/

private theorem sessionOnly_init (c : Transfer) : SessionOnly c (.init c) where
  safe := safe_init c
  session := by simp [World.init, ServerState.session?]
  acked := trivial
  clientSent := List.forall_mem_singleton.mpr (.inl rfl)
  serverSocket := by simp [World.init]
  serverSent := by simp [World.init]
  clientSocket := by simp [World.init]

private theorem fromClient_reads {event : Event} {rest : List (SockAddr × Datagram)}
    (hw : SessionOnly c w) (h : Reads w.serverSocket event rest) :
    FromClient c w.client event := by
  cases event with
  | datagram source bytes => exact hw.serverSocket _ h.mem
  | timeout => trivial

private theorem sessionOnly_serverReacts {event : Event} {rest : List (SockAddr × Datagram)}
    (hw : SessionOnly c w) (h : Reads w.serverSocket event rest) :
    SessionOnly c (w.serverReacts event rest) := by
  have hevent := fromClient_reads hw h
  have hsends := handleUdpConnection_sends hw.acked (carries_fromClient hevent)
  exact {
    safe := safe_serverReacts hw.safe h
    session := fun s hs => session_react hevent hw.session (hsends.session s hs)
    acked := hsends.acked
    clientSent := hw.clientSent
    serverSocket := fun d hd => hw.serverSocket d (h.subset d hd)
    serverSent := by
      intro d hd
      rcases List.mem_append.mp hd with hd | hd
      · exact hw.serverSent d hd
      · exact answer_of_serverSends (fun s hs => session_react hevent hw.session hs)
          (hsends.sends d hd)
    clientSocket := hw.clientSocket }

private theorem sessionOnly_clientReacts {event : Event} {rest : List (SockAddr × Datagram)}
    (hudpr : c.protocol = .udpr) (hw : SessionOnly c w)
    (h : Reads w.clientSocket event rest) (hrun : w.client.running) :
    SessionOnly c (w.clientReacts c event rest) where
  safe := safe_clientReacts hw.safe h hrun
  session := hw.session
  acked := hw.acked.mono hudpr
  clientSent := by
    intro d hd
    rcases List.mem_append.mp hd with hd | hd
    · exact (hw.clientSent d hd).mono hudpr
    · exact sentBy_react hudpr hw.safe.client d hd
  serverSocket := fun d hd => ⟨(hw.serverSocket d hd).1, (hw.serverSocket d hd).2.mono hudpr⟩
  serverSent := fun d hd => (hw.serverSent d hd).mono hudpr
  clientSocket := fun d hd =>
    ⟨(hw.clientSocket d (h.subset d hd)).1, (hw.clientSocket d (h.subset d hd)).2.mono hudpr⟩

private theorem sessionStep_cases {w' : World} {a : Action} (h : sessionStep c w a = some w') :
    networkStep c w a = some w' ∧
      (∀ source bytes, a ≠ .foreignToServer source bytes) ∧
      ∀ source bytes, a ≠ .foreignToClient source bytes := by
  cases a <;> simp_all [sessionStep]

private theorem sessionOnly_step {w' : World} {a : Action} (hudpr : c.protocol = .udpr)
    (hw : SessionOnly c w) (h : sessionStep c w a = some w') : SessionOnly c w' := by
  obtain ⟨hstep, hserver, hclient⟩ := sessionStep_cases h
  have hsafe := safe_step hw.safe hstep
  cases networkStep_cases hstep with
  | toServer i bytes hsent =>
      refine ⟨hsafe, hw.session, hw.acked, hw.clientSent, ?_, hw.serverSent, hw.clientSocket⟩
      intro d hd
      rcases List.mem_append.mp hd with hd | hd
      · exact hw.serverSocket d hd
      · cases List.mem_singleton.mp hd
        have hsentBy := hw.clientSent _ hsent
        exact ⟨rfl, hsentBy⟩
  | toClient i bytes hsent hrun =>
      refine ⟨hsafe, hw.session, hw.acked, hw.clientSent, hw.serverSocket, hw.serverSent, ?_⟩
      intro d hd
      rcases List.mem_append.mp hd with hd | hd
      · exact hw.clientSocket d hd
      · cases List.mem_singleton.mp hd
        have hanswer := hw.serverSent _ hsent
        exact ⟨rfl, hanswer⟩
  | foreignToServer source bytes hforeign => exact absurd rfl (hserver source bytes)
  | foreignToClient source bytes hforeign hrun => exact absurd rfl (hclient source bytes)
  | server event rest hreads => exact sessionOnly_serverReacts hw hreads
  | client event rest hreads hrun => exact sessionOnly_clientReacts hudpr hw hreads hrun

/-! ## The verdict -/

/-- The client has succeeded, or still has RCVD to read. -/
def RcvdAhead (c : Transfer) (w : World) : Prop :=
  w.client = .succeeded ∨
    w.client.running ∧ (c.client.serverAddr, rcvdPacket c.client.sessionId) ∈ w.clientSocket

private theorem RcvdAhead.not_failed (h : RcvdAhead c w) : w.client ≠ .failed := by
  rcases h with h | ⟨hrun, -⟩
  · simp [h]
  · intro hfailed
    simp [hfailed, ClientState.running] at hrun

private theorem failed_absorbs {w' : World} {a : Action} (hfailed : w.client = .failed)
    (h : sessionStep c w a = some w') : w'.client = .failed := by
  cases networkStep_cases (sessionStep_cases h).1 with
  | client event rest hreads hrun => simp [hfailed, ClientState.running] at hrun
  | _ => exact hfailed

private theorem inPlace_rcvd {client : ClientState} {id : SessionId} (hrun : client.running)
    (h : InPlace client (packetType (rcvdPacket id))) : client = .recvRcvd := by
  have hconacc : ¬ rcvdPacketType = conaccPacketType := by decide
  have hacc : ¬ rcvdPacketType = accPacketType := by decide
  cases client with
  | recvConacc attempts => exact absurd h hconacc
  | recvAcc packetNumber offset attempts =>
      simp [InPlace, hconacc, hacc] at h
  | recvRcvd => rfl
  | succeeded => simp [ClientState.running] at hrun
  | failed => simp [ClientState.running] at hrun

private theorem running_of_not_ended {client : ClientState} (hsucceeded : client ≠ .succeeded)
    (hfailed : client ≠ .failed) : client.running := by
  cases client <;> simp_all [ClientState.running]

/-- A read in its place keeps RCVD ahead; any other ends the client. -/
private theorem clientReacts_verdict {event : Event} {rest : List (SockAddr × Datagram)}
    (hudpr : c.protocol = .udpr) (hw : SessionOnly c w) (hahead : RcvdAhead c w)
    (h : Reads w.clientSocket event rest) (hrun : w.client.running) :
    (ReadsInPlace w event.client → RcvdAhead c (w.clientReacts c event rest)) ∧
      (¬ ReadsInPlace w event.client → (w.clientReacts c event rest).client = .failed) := by
  have hrcvd : (c.client.serverAddr, rcvdPacket c.client.sessionId) ∈ w.clientSocket := by
    rcases hahead with hsucceeded | ⟨-, hmem⟩
    · simp [hsucceeded, ClientState.running] at hrun
    · exact hmem
  generalize hsocket : w.clientSocket = socket at h hrcvd
  cases h with
  | timeout => cases hrcvd
  | datagram source bytes rest =>
      have hanswer := hw.clientSocket (source, bytes) (by simp [hsocket])
      obtain ⟨rfl, hanswer⟩ := hanswer
      have hfails := reads_failed_iff hudpr hanswer hrun
      have hreads : ReadsInPlace w (Event.datagram c.client.serverAddr bytes).client ↔
          InPlace w.client (packetType bytes) := by
        simp [ReadsInPlace, Event.client, hsocket]
      rw [hreads]
      refine ⟨fun hplace => ?_, hfails.mpr⟩
      have hnot : (c.handleClient w.client (.datagram c.client.serverAddr bytes)).1 ≠ .failed :=
        fun hfailed => hfails.mp hfailed hplace
      rcases List.mem_cons.mp hrcvd with heq | hrest
      · simp only [Prod.mk.injEq, true_and] at heq
        subst heq
        have hclient := inPlace_rcvd hrun hplace
        left
        simp only [World.clientReacts, hclient, handleClient_rcvd]
      · by_cases hsucceeded :
            (c.handleClient w.client (.datagram c.client.serverAddr bytes)).1 = .succeeded
        · exact .inl hsucceeded
        · exact .inr ⟨running_of_not_ended hsucceeded hnot, hrest⟩

private theorem sessionStep_verdict {w' : World} {a : Action} (hudpr : c.protocol = .udpr)
    (hw : SessionOnly c w) (hahead : RcvdAhead c w) (h : sessionStep c w a = some w') :
    (ReadsInPlace w a → RcvdAhead c w') ∧ (¬ ReadsInPlace w a → w'.client = .failed) := by
  cases networkStep_cases (sessionStep_cases h).1 with
  | client event rest hreads hrun => exact clientReacts_verdict hudpr hw hahead hreads hrun
  | server event rest hreads =>
      cases event <;> exact ⟨fun _ => hahead, fun hnot => absurd trivial hnot⟩
  | toClient i bytes hsent hrun =>
      refine ⟨fun _ => ?_, fun hnot => absurd trivial hnot⟩
      exact hahead.imp id (And.imp id (List.mem_append_left _))
  | foreignToClient source bytes hforeign hrun =>
      refine ⟨fun _ => ?_, fun hnot => absurd trivial hnot⟩
      exact hahead.imp id (And.imp id (List.mem_append_left _))
  | toServer i bytes hsent => exact ⟨fun _ => hahead, fun hnot => absurd trivial hnot⟩
  | foreignToServer source bytes hforeign =>
      exact ⟨fun _ => hahead, fun hnot => absurd trivial hnot⟩

private theorem failed_run {w' : World} {actions : List Action} (hfailed : w.client = .failed)
    (h : run (sessionStep c) w actions = some w') : w'.client = .failed :=
  run_invariant (I := fun w => w.client = .failed) (fun _ _ _ => failed_absorbs) hfailed h

/-- From a state with RCVD ahead, the client does not fail exactly in the runs
that read everything in its place. -/
private theorem verdict_run {w' : World} {actions : List Action} (hudpr : c.protocol = .udpr)
    (hw : SessionOnly c w) (hahead : RcvdAhead c w)
    (h : run (sessionStep c) w actions = some w') :
    w'.client ≠ .failed ↔ Meets (sessionStep c) ReadsInPlace w actions := by
  induction actions generalizing w with
  | nil =>
      simp only [run_nil, Option.some.injEq] at h
      subst h
      simpa [Meets] using hahead.not_failed
  | cons a actions ih =>
      obtain ⟨w₁, hstep, hrest⟩ := run_cons.mp h
      obtain ⟨hplace, hfails⟩ := sessionStep_verdict hudpr hw hahead hstep
      by_cases hreads : ReadsInPlace w a
      · rw [ih (sessionOnly_step hudpr hw hstep) (hplace hreads) hrest]
        simp [Meets, hreads, hstep]
      · have hfailed := failed_run (hfails hreads) hrest
        simp [Meets, hreads, hfailed]

end InFlight

/-- Once RCVD is in the client's socket, the client does not fail if and only if
it reads every later packet in a receive loop that has a place for it. -/
theorem client_verdict (c : Transfer) (before after : List Action) (w w' : World)
    (hudpr : c.protocol = .udpr)
    (hbefore : run (sessionStep c) (.init c) before = some w) (hopen : w.client.running)
    (hdelivered : (c.client.serverAddr, rcvdPacket c.client.sessionId) ∈ w.clientSocket)
    (hafter : run (sessionStep c) w after = some w') :
    w'.client ≠ .failed ↔ Meets (sessionStep c) ReadsInPlace w after := by
  have hw : SessionOnly c w :=
    run_invariant (fun _ _ _ => sessionOnly_step hudpr) (sessionOnly_init c) hbefore
  exact verdict_run hudpr hw (.inr ⟨hopen, hdelivered⟩) hafter

/-! ### The two orders of the last ACC and RCVD -/

theorem client_verdict_oneByte :
    ∃ w w', run (sessionStep oneByteRetr) (.init oneByteRetr)
        (firstChunk ++ [Action.toClient 1, .toClient 2]) = some w ∧
      run (sessionStep oneByteRetr) w [.clientReceives, .clientReceives] = some w' ∧
      Meets (sessionStep oneByteRetr) ReadsInPlace w [.clientReceives, .clientReceives] :=
  ⟨_, _, rfl, rfl,
    (client_verdict oneByteRetr (firstChunk ++ [Action.toClient 1, .toClient 2])
      [.clientReceives, .clientReceives] _ _ rfl rfl rfl (by decide) rfl).mp (by decide)⟩

/-- The last ACC is lost: RCVD meets the loop that awaits the ACC. -/
theorem client_fails_on_rcvd :
    ∃ w w', run (sessionStep oneByteRetr) (.init oneByteRetr) (firstChunk ++ [Action.toClient 2]) =
        some w ∧
      w.client.running ∧
      (oneByteRetr.client.serverAddr, rcvdPacket oneByteRetr.client.sessionId) ∈
        w.clientSocket ∧
      run (sessionStep oneByteRetr) w [.clientReceives] = some w' ∧ w'.client = .failed :=
  ⟨_, _, rfl, rfl, by decide, rfl, rfl⟩

end Mimuw.Ppcb
