import Mimuw.Ppcb.Serving

/-!
# Safety of a transfer

The invariant of the whole network: the client sends its CONN and its chunks
only, each serving of the session keeps to the data, and an RCVD of the session
on its way to the client stands for a serving that took all of it.
-/

namespace Mimuw.Ppcb

open Mimuw.Lib

/-! ## The client's side -/

/-- `offset` is where the chunk of the packet number starts. -/
def ClientOk (c : Transfer) : ClientState → Prop
  | .recvAcc packetNumber offset _ =>
      offset = packetNumber * bufferSize ∧ offset < c.data.length
  | _ => True

/-- A datagram of the client to the server. -/
def ClientSends (c : Transfer) (d : SockAddr × Datagram) : Prop :=
  d.1 = c.client.serverAddr ∧ Genuine c d.2

section Client

variable {c : Transfer}

theorem dataAt_eq {packetNumber offset : Nat} (h : offset = packetNumber * bufferSize) :
    dataAt c.client packetNumber offset = c.dataNumber packetNumber := by
  subst h
  rfl

theorem next_offset {packetNumber offset : Nat} (h : offset = packetNumber * bufferSize)
    (hlt : offset < c.data.length)
    (hnext : offset + ((c.data.drop offset).take bufferSize).length < c.data.length) :
    offset + ((c.data.drop offset).take bufferSize).length =
      (packetNumber + 1) * bufferSize := by
  subst h
  have hoffset := offset_succ hlt
  simp only [chunk] at hoffset
  omega

private theorem clientSends_data {packetNumber offset : Nat}
    (h : offset = packetNumber * bufferSize) (hlt : offset < c.data.length) :
    ∀ d ∈ sendTo c.client (dataAt c.client packetNumber offset), ClientSends c d := by
  rw [dataAt_eq h]
  exact List.forall_mem_singleton.mpr ⟨rfl, .inr ⟨packetNumber, h ▸ hlt, rfl⟩⟩

private theorem sendDataPackets_sends {fuel packetNumber offset : Nat}
    (h : offset < c.data.length → offset = packetNumber * bufferSize) :
    ∀ d ∈ sendDataPackets c.client fuel packetNumber offset, ClientSends c d := by
  induction fuel generalizing packetNumber offset with
  | zero => simp [sendDataPackets]
  | succ fuel ih =>
      simp only [sendDataPackets]
      split
      · rename_i hlt
        intro d hd
        rcases List.mem_append.mp hd with hd | hd
        · exact clientSends_data (h hlt) hlt d hd
        · exact ih (next_offset (h hlt) hlt) d hd
      · simp

private theorem loopSendData_ok {packetNumber offset : Nat}
    (h : offset < c.data.length → offset = packetNumber * bufferSize) :
    ClientOk c (loopSendData c.client packetNumber offset).1 ∧
      ∀ d ∈ (loopSendData c.client packetNumber offset).2, ClientSends c d := by
  unfold loopSendData
  split
  · rename_i hlt
    exact ⟨⟨h hlt, hlt⟩, clientSends_data (h hlt) hlt⟩
  · exact ⟨trivial, by simp⟩

private theorem handleUdpClient_ok (state : ClientState) (event : Event)
    (hok : ClientOk c state) :
    ClientOk c (handleUdpClient c.client state event).1 ∧
      ∀ d ∈ (handleUdpClient c.client state event).2, ClientSends c d := by
  unfold handleUdpClient
  split
  · exact ⟨trivial, by simp⟩
  · split
    · exact ⟨hok, by simp⟩
    · exact ⟨trivial, by simp⟩
    · exact ⟨trivial, sendDataPackets_sends (by simp)⟩
  · exact ⟨trivial, by simp⟩
  · split <;> exact ⟨trivial, by simp⟩
  · exact ⟨hok, by simp⟩

private theorem handleUdprClient_ok (state : ClientState) (event : Event)
    (hprotocol : c.protocol = .udpr) (hok : ClientOk c state) :
    ClientOk c (handleUdprClient c.client state event).1 ∧
      ∀ d ∈ (handleUdprClient c.client state event).2, ClientSends c d := by
  unfold handleUdprClient
  split
  · split
    · have hconn : c.conn =
          connPacket c.client.sessionId udprProtocolId c.client.data.length := by
        simp [Transfer.conn, hprotocol, DatagramProtocol.id, Transfer.data]
      exact ⟨trivial, List.forall_mem_singleton.mpr ⟨rfl, .inl hconn.symm⟩⟩
    · exact ⟨trivial, by simp⟩
  · split
    · exact ⟨hok, by simp⟩
    · exact ⟨trivial, by simp⟩
    · exact loopSendData_ok (by simp [firstPacketNumber])
  · split
    · exact ⟨hok, clientSends_data hok.1 hok.2⟩
    · exact ⟨trivial, by simp⟩
  · split
    · exact ⟨hok, by simp⟩
    · exact ⟨trivial, by simp⟩
    · exact loopSendData_ok (next_offset hok.1 hok.2)
  · exact ⟨trivial, by simp⟩
  · split <;> exact ⟨trivial, by simp⟩
  · exact ⟨hok, by simp⟩
  · exact ⟨hok, by simp⟩

private theorem clientOk_react (state : ClientState) (event : Event) (hok : ClientOk c state) :
    ClientOk c (c.handleClient state event).1 ∧
      ∀ d ∈ (c.handleClient state event).2, ClientSends c d := by
  unfold Transfer.handleClient
  cases hprotocol : c.protocol with
  | udp => exact handleUdpClient_ok state event hok
  | udpr => exact handleUdprClient_ok state event hprotocol hok

/-! ## Success -/

/-- An RCVD packet of the session. -/
def IsRcvd (c : Transfer) (bytes : Datagram) : Prop :=
  packetType bytes = rcvdPacketType ∧ sessionField bytes = c.client.sessionId.bytes

private theorem recvRcvdPacket_ok {source : SockAddr} {bytes : Datagram}
    (h : recvRcvdPacket c.client source bytes = .ok) :
    source = c.client.serverAddr ∧ IsRcvd c bytes := by
  simp only [recvRcvdPacket] at h
  split_ifs at h with hsource _ htype hsession
  exact ⟨by simpa using hsource, by simpa [conaccSize] using htype,
    by simpa [conaccSize] using hsession⟩

private theorem recvRcvdPacketWithRetr_ok {source : SockAddr} {bytes : Datagram}
    (h : recvRcvdPacketWithRetr c.client source bytes = .ok) :
    source = c.client.serverAddr ∧ IsRcvd c bytes := by
  simp only [recvRcvdPacketWithRetr] at h
  split_ifs at h with hsource _ _ htype hsession
  exact ⟨by simpa using hsource, by simpa [accSize] using htype,
    by simpa [accSize] using hsession⟩

private theorem loopSendData_not_succeeded (packetNumber offset : Nat) :
    (loopSendData c.client packetNumber offset).1 ≠ .succeeded := by
  unfold loopSendData
  split <;> simp

/-- A client that is running succeeds only on an RCVD from the server. -/
private theorem succeeds_on_rcvd {state : ClientState} {event : Event} (hrun : state.running)
    (h : (c.handleClient state event).1 = .succeeded) :
    ∃ bytes, event = .datagram c.client.serverAddr bytes ∧ IsRcvd c bytes := by
  unfold Transfer.handleClient at h
  cases hprotocol : c.protocol with
  | udp =>
      simp only [hprotocol, handleUdpClient] at h
      split at h
      · cases h
      · split at h <;> cases h
      · cases h
      · rename_i source bytes
        split at h
        · cases h
        · cases h
        · rename_i hrecv
          obtain ⟨rfl, hrcvd⟩ := recvRcvdPacket_ok hrecv
          exact ⟨bytes, rfl, hrcvd⟩
      · simp only at h
        simp [h, ClientState.running] at hrun
  | udpr =>
      simp only [hprotocol, handleUdprClient] at h
      split at h
      · split at h <;> cases h
      · split at h
        · cases h
        · cases h
        · exact absurd h (loopSendData_not_succeeded _ _)
      · split at h <;> cases h
      · split at h
        · cases h
        · cases h
        · exact absurd h (loopSendData_not_succeeded _ _)
      · cases h
      · rename_i source bytes
        split at h
        · cases h
        · cases h
        · rename_i hrecv
          obtain ⟨rfl, hrcvd⟩ := recvRcvdPacketWithRetr_ok hrecv
          exact ⟨bytes, rfl, hrcvd⟩
      · simp [ClientState.running] at hrun
      · cases h

end Client

/-! ## The invariant of the network -/

/-- A serving of the session has ended with RCVD. -/
def Delivered (c : Transfer) (handlings : List Handling) : Prop :=
  ∃ h ∈ handlings, h.session = c.session ∧ h.rcvdSent

structure Safe (c : Transfer) (w : World) : Prop where
  server : ServerOk c w.server w.handlings
  client : ClientOk c w.client
  clientSent : ∀ d ∈ w.clientSent, ClientSends c d
  serverSocket : ∀ d ∈ w.serverSocket, ServerHears c d.1 d.2
  serverSent : ∀ d ∈ w.serverSent, d.1 = c.clientAddr → IsRcvd c d.2 →
    Delivered c w.handlings
  clientSocket : ∀ d ∈ w.clientSocket, d.1 = c.client.serverAddr → IsRcvd c d.2 →
    Delivered c w.handlings
  succeeded : w.client = .succeeded → Delivered c w.handlings

section Network

variable {c : Transfer} {w : World}

theorem safe_init (c : Transfer) : Safe c (.init c) where
  server := ⟨by simp [World.init], fun _ h => by simp [World.init, ServerState.session?] at h⟩
  client := trivial
  clientSent := List.forall_mem_singleton.mpr ⟨rfl, .inl rfl⟩
  serverSocket := by simp [World.init]
  serverSent := by simp [World.init]
  clientSocket := by simp [World.init]
  succeeded := by simp [World.init]

theorem Delivered.record {handlings : List Handling} (h : Delivered c handlings)
    (r : Reaction) : Delivered c (record handlings r) := by
  obtain ⟨done, hmem, hours, hrcvd⟩ := h
  unfold Mimuw.Ppcb.record
  cases r.opened with
  | some session => exact ⟨done, List.mem_cons_of_mem _ hmem, hours, hrcvd⟩
  | none =>
      cases hmem with
      | head rest => exact ⟨_, List.mem_cons_self, hours, by simp [hrcvd]⟩
      | tail first hmem => exact ⟨done, List.mem_cons_of_mem _ hmem, hours, hrcvd⟩

private theorem record_head {server : ServerState} {handlings : List Handling} {event : Event}
    {session : Session} (hok : ServerOk c server handlings)
    (hsession : (handleUdpConnection server event).opened.or server.session? =
      some session) :
    ∃ accepted rest,
      record handlings (handleUdpConnection server event) =
        ⟨session, accepted, (handleUdpConnection server event).completed⟩ :: rest := by
  unfold record
  cases hopened : (handleUdpConnection server event).opened with
  | some opened =>
      simp only [hopened, Option.some_or, Option.some.injEq] at hsession
      exact ⟨_, handlings, by rw [hsession]; rfl⟩
  | none =>
      simp only [hopened, Option.none_or] at hsession
      obtain ⟨accepted, rest, rfl, -⟩ := hok.current session hsession
      exact ⟨_, rest, rfl⟩

/-- An RCVD of the session goes out only at the end of a serving of it. -/
private theorem rcvd_sent {event : Event} {d : SockAddr × Datagram}
    (hd : d ∈ (handleUdpConnection w.server event).sends)
    (hdest : d.1 = c.clientAddr) (hrcvd : IsRcvd c d.2) :
    (handleUdpConnection w.server event).opened.or w.server.session? = some c.session ∧
      (handleUdpConnection w.server event).completed := by
  have hsends := (handleUdpConnection_sends (P := fun _ => True)
    (by unfold Acked; split <;> trivial)
    (by unfold Carries; split <;> simp)).sends d hd
  obtain ⟨htype, hsession⟩ := hrcvd
  cases hsends with
  | rejection h =>
      cases h with
      | conrjt destination id =>
          simp [conrjtPacket, conrjtPacketType, rcvdPacketType] at htype
      | rjt destination id packetNumber =>
          simp [rjtPacket, rjtPacketType, rcvdPacketType] at htype
  | conacc h => simp [conaccPacket, conaccPacketType, rcvdPacketType] at htype
  | acc h hn => simp [accPacket, accPacketType, rcvdPacketType] at htype
  | rcvd h hcompleted =>
      refine ⟨?_, hcompleted⟩
      rename_i session
      simp only [rcvdPacket, sessionField_sessionPacket] at hsession
      have hid : session.sessionId = c.client.sessionId := by
        cases hs : session.sessionId
        cases hs' : c.client.sessionId
        simp_all
      rw [h, Transfer.session, ← hid, ← hdest]

private theorem delivered_of_rcvd {event : Event} {d : SockAddr × Datagram}
    (hok : ServerOk c w.server w.handlings)
    (hd : d ∈ (handleUdpConnection w.server event).sends)
    (hdest : d.1 = c.clientAddr) (hrcvd : IsRcvd c d.2) :
    Delivered c (record w.handlings (handleUdpConnection w.server event)) := by
  obtain ⟨hsession, hcompleted⟩ := rcvd_sent hd hdest hrcvd
  obtain ⟨accepted, rest, hrecord⟩ := record_head hok hsession
  rw [hrecord]
  exact ⟨_, List.mem_cons_self, rfl, hcompleted⟩

theorem Reads.subset {socket rest : List (SockAddr × Datagram)} {event : Event}
    (h : Reads socket event rest) : ∀ d ∈ rest, d ∈ socket := by
  cases h with
  | datagram source bytes rest => exact fun d hd => List.mem_cons_of_mem _ hd
  | timeout => exact fun d hd => hd

theorem Reads.mem {socket rest : List (SockAddr × Datagram)} {source : SockAddr}
    {bytes : Datagram} (h : Reads socket (.datagram source bytes) rest) :
    (source, bytes) ∈ socket := by
  cases h
  exact List.mem_cons_self

private theorem serverHearsEvent {event : Event} {rest : List (SockAddr × Datagram)}
    (hsocket : ∀ d ∈ w.serverSocket, ServerHears c d.1 d.2)
    (h : Reads w.serverSocket event rest) : ServerHearsEvent c event := by
  cases event with
  | datagram source bytes => exact hsocket _ h.mem
  | timeout => trivial

theorem safe_serverReacts {event : Event} {rest : List (SockAddr × Datagram)}
    (hsafe : Safe c w) (h : Reads w.serverSocket event rest) :
    Safe c (w.serverReacts event rest) where
  server := serverOk_react hsafe.server (serverHearsEvent hsafe.serverSocket h)
  client := hsafe.client
  clientSent := hsafe.clientSent
  serverSocket := fun d hd => hsafe.serverSocket d (h.subset d hd)
  serverSent := by
    intro d hd hdest hrcvd
    rcases List.mem_append.mp hd with hd | hd
    · exact (hsafe.serverSent d hd hdest hrcvd).record _
    · exact delivered_of_rcvd hsafe.server hd hdest hrcvd
  clientSocket := fun d hd hsource hrcvd => (hsafe.clientSocket d hd hsource hrcvd).record _
  succeeded := fun hsucc => (hsafe.succeeded hsucc).record _

theorem safe_clientReacts {event : Event} {rest : List (SockAddr × Datagram)}
    (hsafe : Safe c w) (h : Reads w.clientSocket event rest) (hrun : w.client.running) :
    Safe c (w.clientReacts c event rest) where
  server := hsafe.server
  client := (clientOk_react w.client event hsafe.client).1
  clientSent := by
    intro d hd
    rcases List.mem_append.mp hd with hd | hd
    · exact hsafe.clientSent d hd
    · exact (clientOk_react w.client event hsafe.client).2 d hd
  serverSocket := hsafe.serverSocket
  serverSent := hsafe.serverSent
  clientSocket := fun d hd => hsafe.clientSocket d (h.subset d hd)
  succeeded := by
    intro hsucc
    obtain ⟨bytes, rfl, hrcvd⟩ := succeeds_on_rcvd hrun hsucc
    exact hsafe.clientSocket _ h.mem rfl hrcvd

private theorem safe_reachServer {d : SockAddr × Datagram} (hsafe : Safe c w)
    (h : ServerHears c d.1 d.2) :
    Safe c { w with serverSocket := w.serverSocket ++ [d] } where
  server := hsafe.server
  client := hsafe.client
  clientSent := hsafe.clientSent
  serverSocket := by
    intro d' hd'
    rcases List.mem_append.mp hd' with hd' | hd'
    · exact hsafe.serverSocket d' hd'
    · cases List.mem_singleton.mp hd'
      exact h
  serverSent := hsafe.serverSent
  clientSocket := hsafe.clientSocket
  succeeded := hsafe.succeeded

private theorem safe_reachClient {d : SockAddr × Datagram} (hsafe : Safe c w)
    (h : d.1 = c.client.serverAddr → IsRcvd c d.2 → Delivered c w.handlings) :
    Safe c { w with clientSocket := w.clientSocket ++ [d] } where
  server := hsafe.server
  client := hsafe.client
  clientSent := hsafe.clientSent
  serverSocket := hsafe.serverSocket
  serverSent := hsafe.serverSent
  clientSocket := by
    intro d' hd'
    rcases List.mem_append.mp hd' with hd' | hd'
    · exact hsafe.clientSocket d' hd'
    · cases List.mem_singleton.mp hd'
      exact h
  succeeded := hsafe.succeeded

theorem safe_step {w' : World} {a : Action} (hsafe : Safe c w)
    (h : networkStep c w a = some w') : Safe c w' := by
  cases networkStep_cases h with
  | toServer i bytes hsent =>
      exact safe_reachServer hsafe fun _ _ => (hsafe.clientSent _ hsent).2
  | toClient i bytes hsent hrun =>
      exact safe_reachClient hsafe fun _ hrcvd => hsafe.serverSent _ hsent rfl hrcvd
  | foreignToServer source bytes hforeign =>
      refine safe_reachServer hsafe fun hsource hsession => ?_
      exact hforeign.elim (absurd hsource) (absurd hsession)
  | foreignToClient source bytes hforeign hrun =>
      refine safe_reachClient hsafe fun hsource hrcvd => ?_
      exact hforeign.elim (absurd hsource) (absurd hrcvd.2)
  | server event rest hreads => exact safe_serverReacts hsafe hreads
  | client event rest hreads hrun => exact safe_clientReacts hsafe hreads hrun

theorem safe_run {actions : List Action}
    (h : run (networkStep c) (.init c) actions = some w) : Safe c w :=
  run_invariant (fun _ _ _ => safe_step) (safe_init c) h

theorem Delivered.accepted (hok : ServerOk c w.server w.handlings)
    (h : Delivered c w.handlings) :
    ∃ h ∈ w.handlings, h.session = c.session ∧ h.accepted = c.data := by
  obtain ⟨done, hmem, hours, hrcvd⟩ := h
  exact ⟨done, hmem, hours, (hok.handlingsOk done hmem hours).2 hrcvd⟩

end Network

/-! ## Safety -/

/-- In every run over the unreliable network, each serving of the session has
accepted a prefix of the data, a serving in which RCVD goes out has accepted all
of it, and a client that ends successfully has had all of it accepted. -/
theorem transfer_safe (c : Transfer) (actions : List Action) (w : World)
    (h : run (networkStep c) (.init c) actions = some w) :
    (∀ serving ∈ w.handlings, serving.session = c.session → serving.accepted <+: c.data) ∧
      (∀ event rest, Reads w.serverSocket event rest →
        (c.clientAddr, rcvdPacket c.client.sessionId) ∈
          (handleUdpConnection w.server event).sends →
        ∃ earlier, (w.serverReacts event rest).handlings =
          ⟨c.session, c.data, true⟩ :: earlier) ∧
      (w.client = .succeeded →
        ∃ serving ∈ w.handlings,
          serving.session = c.session ∧ serving.accepted = c.data) := by
  have hsafe := safe_run h
  refine ⟨fun serving hmem hours => (hsafe.server.handlingsOk serving hmem hours).1, ?_,
    fun hsucc => (hsafe.succeeded hsucc).accepted hsafe.server⟩
  intro event rest hreads hsent
  have hafter := (safe_serverReacts hsafe hreads).server
  have hrcvd : IsRcvd c (rcvdPacket c.client.sessionId) := by
    simp [IsRcvd, rcvdPacket]
  obtain ⟨hsession, hcompleted⟩ := rcvd_sent hsent rfl hrcvd
  obtain ⟨accepted, earlier, hrecord⟩ := record_head hsafe.server hsession
  have hall := (hafter.handlingsOk ⟨c.session, accepted, true⟩
    (by simp [World.serverReacts, hrecord, hcompleted]) rfl).2 rfl
  simp only at hall
  refine ⟨earlier, ?_⟩
  simp only [World.serverReacts, hrecord, hcompleted, hall]

/-! ### A transfer of one byte -/

def oneByte : Transfer where
  protocol := .udp
  client := ⟨[7], ⟨[1, 2, 3, 4, 5, 6, 7, 8], rfl⟩, ⟨16777343, 2000⟩⟩
  clientAddr := ⟨16777343, 3000⟩
  fits := by decide

def oneByteActions : List Action :=
  [.toServer 0, .serverReceives, .toClient 0, .clientReceives, .toServer 1,
    .serverReceives, .toClient 1, .clientReceives]

theorem transfer_safe_oneByte :
    ∃ w, run (networkStep oneByte) (.init oneByte) oneByteActions = some w ∧
      ∃ serving ∈ w.handlings,
        serving.session = oneByte.session ∧ serving.accepted = oneByte.data :=
  ⟨_, rfl, (transfer_safe oneByte oneByteActions _ rfl).2.2 rfl⟩

/-- What the server has accepted under one session, over all its servings. -/
def acceptedInAll (session : Session) (handlings : List Handling) : List UInt8 :=
  ((handlings.reverse.filter fun h => h.session = session).map (·.accepted)).flatten

/-- A CONN and a DATA packet that arrive twice are served twice. -/
theorem transfer_served_twice :
    ∃ w, run (networkStep oneByte) (.init oneByte)
        (oneByteActions ++ [Action.toServer 0, .serverReceives, .toServer 1, .serverReceives]) =
          some w ∧
      ¬ acceptedInAll oneByte.session w.handlings <+: oneByte.data :=
  ⟨_, rfl, by decide⟩

end Mimuw.Ppcb
