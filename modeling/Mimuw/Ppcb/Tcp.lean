import Mimuw.Ppcb.FaultFree

/-!
# The stream protocol

One connection of `handle_tcp_connection` with one `handle_tcp_client`.  The two
byte streams are queues without a bound, so a `writen` succeeds at once; a `read`
inside `readn` gives back any positive number of the bytes that are there and
still wanted.  `readn` falls short only when a read meets the end of the stream
or a timeout, and then the party gives up.
-/

namespace Mimuw.Ppcb

open Mimuw.Lib

/-! ## The server -/

/-- The `readn` the server is in, with the bytes it has got so far. -/
inductive TcpServerState where
  /-- in `read_conn_packet` -/
  | readConn (got : List UInt8)
  /-- in `read_data_packets`, reading a header -/
  | readHeader (sessionId : SessionId) (dataLen readSize packetNumber : Nat)
      (got : List UInt8)
  /-- in `read_data_packets`, reading the data of a packet -/
  | readData (sessionId : SessionId) (dataLen readSize packetNumber dataBytesLen : Nat)
      (got : List UInt8)
  /-- the connection is closed, after RCVD or after an error -/
  | closed (ok : Bool)
  deriving DecidableEq

structure TcpReaction where
  state : TcpServerState
  writes : List UInt8
  accepted : List UInt8

/-- How many bytes the `readn` still wants. -/
def TcpServerState.wants : TcpServerState → Nat
  | .readConn got => connSize - got.length
  | .readHeader _ _ _ _ got => dataHeaderSize - got.length
  | .readData _ _ _ _ dataBytesLen got => dataBytesLen - got.length
  | .closed _ => 0

/-- The top of the loop of `read_data_packets`. -/
def loopReadData (sessionId : SessionId) (dataLen readSize packetNumber : Nat)
    (writes accepted : List UInt8) : TcpReaction :=
  if readSize < dataLen then
    ⟨.readHeader sessionId dataLen readSize packetNumber [], writes, accepted⟩
  else ⟨.closed true, writes ++ rcvdPacket sessionId, accepted⟩

/-- `read_conn_packet` with the whole packet, and what follows it. -/
def readConnPacket (packet : List UInt8) : TcpReaction :=
  if packetType packet ≠ connPacketType then ⟨.closed false, [], []⟩
  else if protocolIdField packet ≠ tcpProtocolId then ⟨.closed false, [], []⟩
  else
    loopReadData (readSessionId packet) (dataLenField packet) 0 0
      (conaccPacket (readSessionId packet)) []

/-- The checks of `read_data_packets` on a whole header.  The sum of lengths is one of
`uint64_t`. -/
def readDataHeader (sessionId : SessionId) (dataLen readSize packetNumber : Nat)
    (header : List UInt8) : TcpReaction :=
  let rejected : TcpReaction :=
    ⟨.closed false, rjtPacket (readSessionId header) packetNumber, []⟩
  if sessionField header ≠ sessionId.bytes then rejected
  else if numberField header ≠ packetNumber then rejected
  else if packetType header ≠ dataPacketType then rejected
  else if (dataBytesLenField header + readSize) % 2 ^ 64 > dataLen then rejected
  else if dataBytesLenField header < minDataLen ∨
      dataBytesLenField header > maxDataLen then
    rejected
  else
    ⟨.readData sessionId dataLen readSize packetNumber (dataBytesLenField header) [], [], []⟩

/-- One `read` of the server. -/
def tcpServerReads (state : TcpServerState) (input : List UInt8) : TcpReaction :=
  match state with
  | .readConn got =>
      if (got ++ input).length < connSize then ⟨.readConn (got ++ input), [], []⟩
      else readConnPacket (got ++ input)
  | .readHeader sessionId dataLen readSize packetNumber got =>
      if (got ++ input).length < dataHeaderSize then
        ⟨.readHeader sessionId dataLen readSize packetNumber (got ++ input), [], []⟩
      else readDataHeader sessionId dataLen readSize packetNumber (got ++ input)
  | .readData sessionId dataLen readSize packetNumber dataBytesLen got =>
      if (got ++ input).length < dataBytesLen then
        ⟨.readData sessionId dataLen readSize packetNumber dataBytesLen (got ++ input), [], []⟩
      else
        loopReadData sessionId dataLen ((readSize + dataBytesLen) % 2 ^ 64)
          ((packetNumber + 1) % 2 ^ 64) [] (got ++ input)
  | .closed _ => ⟨state, [], []⟩

/-! ## The client -/

inductive TcpClientState where
  | readConacc (got : List UInt8)
  | readRcvd (got : List UInt8)
  | ended (ok : Bool)
  deriving DecidableEq

def TcpClientState.wants : TcpClientState → Nat
  | .readConacc got => conaccSize - got.length
  | .readRcvd got => conaccSize - got.length
  | .ended _ => 0

/-- The loop of `write_data_packets`, with fuel past the length of the data. -/
def writeDataPackets (c : ClientConfig) : Nat → Nat → Nat → List UInt8
  | 0, _, _ => []
  | fuel + 1, packetNumber, offset =>
      if offset < c.data.length then
        let chunkSize :=
          if c.data.length - offset > bufferSize then bufferSize else c.data.length - offset
        dataHeader c.sessionId packetNumber chunkSize ++
          (c.data.drop offset).take chunkSize ++
          writeDataPackets c fuel (packetNumber + 1) (offset + chunkSize)
      else []

/-- The checks of `read_conacc_packet` on a whole packet. -/
def readConaccPacket (c : ClientConfig) (packet : List UInt8) : Bool :=
  sessionField packet = c.sessionId.bytes ∧ packetType packet = conaccPacketType

/-- The checks of `read_rcvd_packet`, none of which is reported. -/
def readRcvdPacket (c : ClientConfig) (packet : List UInt8) : Bool :=
  packetType packet = rcvdPacketType ∧ sessionField packet = c.sessionId.bytes

/-- One `read` of the client, and what it writes before the next one. -/
def tcpClientReads (c : ClientConfig) (state : TcpClientState) (input : List UInt8) :
    TcpClientState × List UInt8 :=
  match state with
  | .readConacc got =>
      if (got ++ input).length < conaccSize then (.readConacc (got ++ input), [])
      else if readConaccPacket c (got ++ input) then
        (.readRcvd [], writeDataPackets c (c.data.length + 1) 0 0)
      else (.ended false, [])
  | .readRcvd got =>
      if (got ++ input).length < conaccSize then (.readRcvd (got ++ input), [])
      else (.ended (readRcvdPacket c (got ++ input)), [])
  | .ended _ => (state, [])

/-! ## The connection -/

structure Stream where
  client : TcpClientState
  server : TcpServerState
  toServer : List UInt8
  toClient : List UInt8
  accepted : List UInt8

inductive TcpTurn where
  /-- a `read` of the server gives back `k` bytes -/
  | serverReads (k : Nat)
  | clientReads (k : Nat)
  /-- a `read` of the server meets a timeout or the end of the stream -/
  | serverFails
  | clientFails
  deriving DecidableEq

namespace Stream

def init (c : ClientConfig) : Stream :=
  ⟨.readConacc [], .readConn [], connPacket c.sessionId tcpProtocolId c.data.length, [], []⟩

def serverReacts (x : Stream) (k : Nat) : Stream :=
  let r := tcpServerReads x.server (x.toServer.take k)
  { x with
    server := r.state
    toServer := x.toServer.drop k
    toClient := x.toClient ++ r.writes
    accepted := x.accepted ++ r.accepted }

def clientReacts (c : ClientConfig) (x : Stream) (k : Nat) : Stream :=
  let r := tcpClientReads c x.client (x.toClient.take k)
  { x with
    client := r.1
    toServer := x.toServer ++ r.2
    toClient := x.toClient.drop k }

def quiet (x : Stream) : Bool := x.toServer.isEmpty && x.toClient.isEmpty

end Stream

def tcpStep (c : ClientConfig) (x : Stream) : TcpTurn → Option Stream
  | .serverReads k =>
      if 1 ≤ k ∧ k ≤ x.toServer.length ∧ k ≤ x.server.wants then some (x.serverReacts k)
      else none
  | .clientReads k =>
      if 1 ≤ k ∧ k ≤ x.toClient.length ∧ k ≤ x.client.wants then some (x.clientReacts c k)
      else none
  | .serverFails =>
      if x.quiet ∧ 0 < x.server.wants then some { x with server := .closed false } else none
  | .clientFails =>
      if x.quiet ∧ 0 < x.client.wants then some { x with client := .ended false } else none

/-- Both sides have ended the session well, and the server has accepted `data`. -/
def TcpDone (c : ClientConfig) (x : Stream) : Prop :=
  x.client = .ended true ∧ x.server = .closed true ∧ x.accepted = c.data

/-! ## Reading a piece of a stream -/

/-- One `read` on the way to `piece`: some of it is still missing, or it is all
there and the stream is left at what follows. -/
theorem readn_cases {got rest piece tail : List UInt8} {k : Nat}
    (h : got ++ rest = piece ++ tail) (hk : k ≤ rest.length)
    (hwants : k ≤ piece.length - got.length) (hgot : got.length < piece.length) :
    (got ++ rest.take k).length < piece.length ∧
        (got ++ rest.take k) ++ rest.drop k = piece ++ tail ∨
      got ++ rest.take k = piece ∧ rest.drop k = tail := by
  have hsplit : (got ++ rest.take k) ++ rest.drop k = piece ++ tail := by
    rw [List.append_assoc, List.take_append_drop, h]
  have hlength : (got ++ rest.take k).length = got.length + k := by
    simp only [List.length_append, List.length_take]
    omega
  by_cases hless : (got ++ rest.take k).length < piece.length
  · exact .inl ⟨hless, hsplit⟩
  · exact .inr (List.append_inj hsplit (by omega))

theorem rest_pos {got rest piece tail : List UInt8} (h : got ++ rest = piece ++ tail)
    (hgot : got.length < piece.length) : 1 ≤ rest.length := by
  have hlength := congrArg List.length h
  simp only [List.length_append] at hlength
  omega

section Steps

variable {c : Transfer}

private theorem tcpStep_server {x x' : Stream} {t : TcpTurn} (hclient : x.toClient = [])
    (hserver : 1 ≤ x.toServer.length) (h : tcpStep c.client x t = some x') :
    ∃ k, 1 ≤ k ∧ k ≤ x.toServer.length ∧ k ≤ x.server.wants ∧ x' = x.serverReacts k := by
  have hquiet : x.quiet = false := by
    cases htoServer : x.toServer with
    | nil => simp [htoServer] at hserver
    | cons b rest => simp [Stream.quiet, htoServer]
  cases t with
  | serverReads k =>
      simp only [tcpStep] at h
      split at h
      · rename_i hk
        exact ⟨k, hk.1, hk.2.1, hk.2.2, by simpa using h.symm⟩
      · cases h
  | clientReads k =>
      simp only [tcpStep, hclient, List.length_nil] at h
      split at h
      · omega
      · cases h
  | serverFails => simp [tcpStep, hquiet] at h
  | clientFails => simp [tcpStep, hquiet] at h

private theorem tcpStep_client {x x' : Stream} {t : TcpTurn} (hserver : x.toServer = [])
    (hclient : 1 ≤ x.toClient.length) (h : tcpStep c.client x t = some x') :
    ∃ k, 1 ≤ k ∧ k ≤ x.toClient.length ∧ k ≤ x.client.wants ∧
      x' = x.clientReacts c.client k := by
  have hquiet : x.quiet = false := by
    cases htoClient : x.toClient with
    | nil => simp [htoClient] at hclient
    | cons b rest => simp [Stream.quiet, htoClient]
  cases t with
  | clientReads k =>
      simp only [tcpStep] at h
      split at h
      · rename_i hk
        exact ⟨k, hk.1, hk.2.1, hk.2.2, by simpa using h.symm⟩
      · cases h
  | serverReads k =>
      simp only [tcpStep, hserver, List.length_nil] at h
      split at h
      · omega
      · cases h
  | serverFails => simp [tcpStep, hquiet] at h
  | clientFails => simp [tcpStep, hquiet] at h

private theorem tcpDone_step {x x' : Stream} {t : TcpTurn} (hdone : TcpDone c.client x)
    (h : tcpStep c.client x t = some x') : TcpDone c.client x' := by
  obtain ⟨hclient, hserver, -⟩ := hdone
  cases t <;> simp [tcpStep, hclient, hserver, TcpClientState.wants, TcpServerState.wants] at h
    <;> omega

/-! ## What each party makes of a whole piece -/

theorem readConnPacket_conn :
    readConnPacket (connPacket c.client.sessionId tcpProtocolId c.data.length) =
      loopReadData c.client.sessionId c.data.length 0 0 (conaccPacket c.client.sessionId)
        [] := by
  have hdataLen : c.data.length % 2 ^ 64 = c.data.length := Nat.mod_eq_of_lt c.fits
  simp only [readConnPacket, packetType_connPacket, protocolIdField_connPacket,
    readSessionId_connPacket, dataLenField_connPacket, hdataLen, ne_eq, not_true_eq_false,
    if_false]

/-- The header of the DATA packet `n`. -/
def Transfer.header (c : Transfer) (n : Nat) : List UInt8 :=
  dataHeader c.client.sessionId n (chunk c.data n).length

theorem dataNumber_eq (n : Nat) : c.dataNumber n = c.header n ++ chunk c.data n := rfl

@[simp] theorem length_header (n : Nat) : (c.header n).length = dataHeaderSize := by
  simp [Transfer.header]

theorem readDataHeader_header {n : Nat} (hn : n * bufferSize < c.data.length) :
    readDataHeader c.client.sessionId c.data.length (n * bufferSize) n (c.header n) =
      ⟨.readData c.client.sessionId c.data.length (n * bufferSize) n
        (chunk c.data n).length [], [], []⟩ := by
  have hpos := length_chunk_pos hn
  have hle := length_chunk_le c.data n
  have hnext := offset_succ hn
  have hnumber : numberField (c.header n) = n := by
    rw [Transfer.header, numberField_dataHeader, Nat.mod_eq_of_lt (number_small hn)]
  have hlen : dataBytesLenField (c.header n) = (chunk c.data n).length := by
    rw [Transfer.header, dataBytesLenField_dataHeader, Nat.mod_eq_of_lt]
    simp only [bufferSize] at hle
    omega
  have hsession : sessionField (c.header n) = c.client.sessionId.bytes :=
    sessionField_dataHeader _ n _
  have htype : packetType (c.header n) = dataPacketType := rfl
  have hroom : ¬ ((chunk c.data n).length + n * bufferSize) % 2 ^ 64 > c.data.length := by omega
  have hbounds : ¬ ((chunk c.data n).length < minDataLen ∨
      (chunk c.data n).length > maxDataLen) := by
    simp only [minDataLen, maxDataLen, bufferSize] at hle ⊢
    omega
  simp only [readDataHeader, hsession, hnumber, hlen, htype, if_neg hroom, if_neg hbounds, ne_eq,
    not_true_eq_false, if_false]

theorem counters_succ {n : Nat} (hn : n * bufferSize < c.data.length) :
    (n * bufferSize + (chunk c.data n).length) % 2 ^ 64 =
        min ((n + 1) * bufferSize) c.data.length ∧ (n + 1) % 2 ^ 64 = n + 1 := by
  have hnext := offset_succ hn
  have hfits : c.data.length < 2 ^ 64 := c.fits
  simp only [bufferSize] at hn hnext ⊢
  omega

theorem writeDataPackets_remaining {fuel packetNumber offset : Nat}
    (hoffset : offset = min (packetNumber * bufferSize) c.data.length)
    (hfuel : c.data.length < offset + fuel) :
    ∃ packets, Remaining c packetNumber packets ∧
      writeDataPackets c.client fuel packetNumber offset = packets.flatten := by
  induction fuel generalizing packetNumber offset with
  | zero => omega
  | succ fuel ih =>
      by_cases hlt : offset < c.data.length
      · have heq : offset = packetNumber * bufferSize := by omega
        have hlt' := heq ▸ hlt
        have hlength := length_chunk c.data packetNumber
        have hpos := length_chunk_pos hlt'
        have hsize : (if c.client.data.length - offset > bufferSize then bufferSize
            else c.client.data.length - offset) = (chunk c.data packetNumber).length := by
          rw [hlength, ← heq]
          simp only [Transfer.data]
          split <;> omega
        have htake : (c.client.data.drop offset).take (chunk c.data packetNumber).length =
            chunk c.data packetNumber := by
          rw [hlength, heq]
          simp [chunk, Transfer.data, List.take_eq_take_iff]
        have hnext : offset + (chunk c.data packetNumber).length =
            min ((packetNumber + 1) * bufferSize) c.data.length := by
          rw [heq]
          exact offset_succ hlt'
        obtain ⟨packets, hremaining, hwrites⟩ := ih hnext (by omega)
        refine ⟨c.dataNumber packetNumber :: packets, .more hlt' hremaining, ?_⟩
        have hlt : offset < c.client.data.length := hlt
        simp only [writeDataPackets, if_pos hlt, hsize, htake, hwrites, List.flatten_cons]
        rfl
      · refine ⟨[], .done (by omega), ?_⟩
        have hlt : ¬ offset < c.client.data.length := hlt
        simp only [writeDataPackets, if_neg hlt, List.flatten_nil]

private theorem readConaccPacket_conacc :
    readConaccPacket c.client (conaccPacket c.client.sessionId) = true := by
  simp [readConaccPacket, conaccPacket]

private theorem readRcvdPacket_rcvd :
    readRcvdPacket c.client (rcvdPacket c.client.sessionId) = true := by
  simp [readRcvdPacket, rcvdPacket]

end Steps

/-! ## The phases -/

section Phases

variable {c : Transfer}

def Transfer.stream (c : Transfer) : List UInt8 :=
  writeDataPackets c.client (c.data.length + 1) 0 0

/-- The phases of a transfer, each with a bound on the bytes still to be read. -/
inductive TcpPhase (c : Transfer) : Stream → Nat → Prop where
  | conn (got rest : List UInt8) (hgot : got.length < connSize)
      (h : got ++ rest = connPacket c.client.sessionId tcpProtocolId c.data.length ++ []) :
      TcpPhase c ⟨.readConacc [], .readConn got, rest, [], []⟩
        (rest.length + (c.stream.length + 27))
  | conacc (hpos : 0 < c.data.length) (got rest : List UInt8) (hgot : got.length < conaccSize)
      (h : got ++ rest = conaccPacket c.client.sessionId ++ []) :
      TcpPhase c ⟨.readConacc got, .readHeader c.client.sessionId c.data.length 0 0 [], [], rest,
        []⟩ (rest.length + (c.stream.length + 9))
  | conaccEmpty (hempty : c.data = []) (got rest : List UInt8) (hgot : got.length < conaccSize)
      (h : got ++ rest = conaccPacket c.client.sessionId ++ rcvdPacket c.client.sessionId) :
      TcpPhase c ⟨.readConacc got, .closed true, [], rest, []⟩
        (rest.length + (c.stream.length + 9))
  | header (n : Nat) (got rest : List UInt8) (packets : List Datagram)
      (hn : n * bufferSize < c.data.length) (hremaining : Remaining c (n + 1) packets)
      (hgot : got.length < dataHeaderSize)
      (h : got ++ rest = c.header n ++ (chunk c.data n ++ packets.flatten)) :
      TcpPhase c ⟨.readRcvd [],
        .readHeader c.client.sessionId c.data.length (n * bufferSize) n got, rest, [],
        c.data.take (n * bufferSize)⟩ (rest.length + 9)
  | data (n : Nat) (got rest : List UInt8) (packets : List Datagram)
      (hn : n * bufferSize < c.data.length) (hremaining : Remaining c (n + 1) packets)
      (hgot : got.length < (chunk c.data n).length)
      (h : got ++ rest = chunk c.data n ++ packets.flatten) :
      TcpPhase c ⟨.readRcvd [],
        .readData c.client.sessionId c.data.length (n * bufferSize) n
          (chunk c.data n).length got, rest, [],
        c.data.take (n * bufferSize)⟩ (rest.length + 9)
  | rcvd (got rest : List UInt8) (hgot : got.length < conaccSize)
      (h : got ++ rest = rcvdPacket c.client.sessionId ++ []) :
      TcpPhase c ⟨.readRcvd got, .closed true, [], rest, c.data⟩ rest.length
  | done : TcpPhase c ⟨.ended true, .closed true, [], [], c.data⟩ 0

private theorem tcpPhase_conn {got rest : List UInt8} {k : Nat} (hgot : got.length < connSize)
    (h : got ++ rest = connPacket c.client.sessionId tcpProtocolId c.data.length ++ [])
    (hpos : 1 ≤ k) (hk : k ≤ rest.length) (hwants : k ≤ connSize - got.length) :
    ∃ m < rest.length + (c.stream.length + 27), TcpPhase c
      (Stream.serverReacts ⟨.readConacc [], .readConn got, rest, [], []⟩ k) m := by
  have hsize : connSize =
      (connPacket c.client.sessionId tcpProtocolId c.data.length).length := by simp
  rcases readn_cases h hk (hsize ▸ hwants) (hsize ▸ hgot) with ⟨hless, hmore⟩ | ⟨hall, htail⟩
  · rw [← hsize] at hless
    have hphase := TcpPhase.conn (c := c) _ _ hless hmore
    simp only [Stream.serverReacts, tcpServerReads, if_pos hless, List.append_nil]
    refine ⟨_, ?_, hphase⟩
    simp only [List.length_drop]
    omega
  · have hfull : ¬ (got ++ rest.take k).length < connSize := by
      rw [hall, ← hsize]
      exact lt_irrefl _
    simp only [Stream.serverReacts, tcpServerReads, if_neg hfull]
    simp only [hall, htail, readConnPacket_conn, loopReadData]
    by_cases hsome : 0 < c.data.length
    · have hphase := TcpPhase.conacc hsome [] (conaccPacket c.client.sessionId) (by decide)
        (by simp)
      refine ⟨_, ?_, by simpa [hsome] using hphase⟩
      simp only [conaccPacket, length_sessionPacket, conaccSize]
      omega
    · have hempty : c.data = [] := by simpa using hsome
      have hphase := TcpPhase.conaccEmpty hempty []
        (conaccPacket c.client.sessionId ++ rcvdPacket c.client.sessionId) (by decide) (by simp)
      refine ⟨_, ?_, by simpa [hempty] using hphase⟩
      simp only [conaccPacket, rcvdPacket, length_sessionPacket, conaccSize]
      omega

private theorem tcpPhase_start (hpos : 0 < c.data.length) :
    TcpPhase c ⟨.readRcvd [], .readHeader c.client.sessionId c.data.length 0 0 [], c.stream, [],
      []⟩ (c.stream.length + 9) := by
  have hfirst : 0 * bufferSize < c.data.length := by omega
  have hzero : 0 = min (0 * bufferSize) c.data.length := by simp
  have hfuel : c.data.length < 0 + (c.data.length + 1) := by omega
  obtain ⟨packets, hremaining, hwrites⟩ := writeDataPackets_remaining hzero hfuel
  obtain ⟨rest, rfl, hrest⟩ := hremaining.eq_cons hfirst
  have hphase := TcpPhase.header 0 [] c.stream rest hfirst hrest (by decide)
    (by rw [Transfer.stream, hwrites]; simp [dataNumber_eq])
  simpa using hphase

private theorem tcpPhase_conacc {got rest : List UInt8} {k : Nat} (hsome : 0 < c.data.length)
    (hgot : got.length < conaccSize)
    (h : got ++ rest = conaccPacket c.client.sessionId ++ [])
    (hpos : 1 ≤ k) (hk : k ≤ rest.length) (hwants : k ≤ conaccSize - got.length) :
    ∃ m < rest.length + (c.stream.length + 9), TcpPhase c
      (Stream.clientReacts c.client ⟨.readConacc got,
        .readHeader c.client.sessionId c.data.length 0 0 [], [], rest, []⟩ k) m := by
  have hsize : conaccSize = (conaccPacket c.client.sessionId).length := by
    simp [conaccPacket]
  rcases readn_cases h hk (hsize ▸ hwants) (hsize ▸ hgot) with ⟨hless, hmore⟩ | ⟨hall, htail⟩
  · rw [← hsize] at hless
    have hphase := TcpPhase.conacc hsome _ _ hless hmore
    simp only [Stream.clientReacts, tcpClientReads, if_pos hless, List.append_nil]
    refine ⟨_, ?_, hphase⟩
    simp only [List.length_drop]
    omega
  · have hfull : ¬ (got ++ rest.take k).length < conaccSize := by
      rw [hall, ← hsize]
      exact lt_irrefl _
    simp only [Stream.clientReacts, tcpClientReads, if_neg hfull]
    simp only [hall, htail, readConaccPacket_conacc, if_true]
    exact ⟨_, by omega, tcpPhase_start hsome⟩

private theorem tcpPhase_conaccEmpty {got rest : List UInt8} {k : Nat} (hempty : c.data = [])
    (hgot : got.length < conaccSize)
    (h : got ++ rest = conaccPacket c.client.sessionId ++ rcvdPacket c.client.sessionId)
    (hpos : 1 ≤ k) (hk : k ≤ rest.length) (hwants : k ≤ conaccSize - got.length) :
    ∃ m < rest.length + (c.stream.length + 9), TcpPhase c
      (Stream.clientReacts c.client ⟨.readConacc got, .closed true, [], rest, []⟩ k) m := by
  have hsize : conaccSize = (conaccPacket c.client.sessionId).length := by
    simp [conaccPacket]
  rcases readn_cases h hk (hsize ▸ hwants) (hsize ▸ hgot) with ⟨hless, hmore⟩ | ⟨hall, htail⟩
  · rw [← hsize] at hless
    have hphase := TcpPhase.conaccEmpty hempty _ _ hless hmore
    simp only [Stream.clientReacts, tcpClientReads, if_pos hless, List.append_nil]
    refine ⟨_, ?_, hphase⟩
    simp only [List.length_drop]
    omega
  · have hfull : ¬ (got ++ rest.take k).length < conaccSize := by
      rw [hall, ← hsize]
      exact lt_irrefl _
    have hempty' : c.client.data = [] := hempty
    have hphase := TcpPhase.rcvd (c := c) [] (rcvdPacket c.client.sessionId) (by decide)
      (by simp)
    have hshort : (rcvdPacket c.client.sessionId).length ≤ 9 := by
      simp [rcvdPacket, conaccSize]
    simp only [Stream.clientReacts, tcpClientReads, if_neg hfull]
    simp only [hall, htail, readConaccPacket_conacc, if_true]
    refine ⟨_, ?_, by simpa [writeDataPackets, hempty, hempty'] using hphase⟩
    omega

private theorem tcpPhase_header {n : Nat} {got rest : List UInt8} {packets : List Datagram}
    {k : Nat} (hn : n * bufferSize < c.data.length) (hremaining : Remaining c (n + 1) packets)
    (hgot : got.length < dataHeaderSize)
    (h : got ++ rest = c.header n ++ (chunk c.data n ++ packets.flatten))
    (hpos : 1 ≤ k) (hk : k ≤ rest.length) (hwants : k ≤ dataHeaderSize - got.length) :
    ∃ m < rest.length + 9, TcpPhase c
      (Stream.serverReacts ⟨.readRcvd [],
        .readHeader c.client.sessionId c.data.length (n * bufferSize) n got, rest, [],
        c.data.take (n * bufferSize)⟩ k) m := by
  have hsize : dataHeaderSize = (c.header n).length := by simp
  rcases readn_cases h hk (hsize ▸ hwants) (hsize ▸ hgot) with ⟨hless, hmore⟩ | ⟨hall, htail⟩
  · rw [← hsize] at hless
    have hphase := TcpPhase.header n _ _ packets hn hremaining hless hmore
    simp only [Stream.serverReacts, tcpServerReads, if_pos hless, List.append_nil]
    refine ⟨_, ?_, hphase⟩
    simp only [List.length_drop]
    omega
  · have hfull : ¬ (got ++ rest.take k).length < dataHeaderSize := by
      rw [hall, ← hsize]
      exact lt_irrefl _
    have hphase := TcpPhase.data n [] (rest.drop k) packets hn hremaining
      (length_chunk_pos hn) (by rw [htail, List.nil_append])
    simp only [Stream.serverReacts, tcpServerReads, if_neg hfull]
    simp only [hall, readDataHeader_header hn, List.append_nil]
    refine ⟨_, ?_, hphase⟩
    simp only [List.length_drop]
    omega

private theorem tcpPhase_data {n : Nat} {got rest : List UInt8} {packets : List Datagram} {k : Nat}
    (hn : n * bufferSize < c.data.length) (hremaining : Remaining c (n + 1) packets)
    (hgot : got.length < (chunk c.data n).length)
    (h : got ++ rest = chunk c.data n ++ packets.flatten)
    (hpos : 1 ≤ k) (hk : k ≤ rest.length) (hwants : k ≤ (chunk c.data n).length - got.length) :
    ∃ m < rest.length + 9, TcpPhase c
      (Stream.serverReacts ⟨.readRcvd [],
        .readData c.client.sessionId c.data.length (n * bufferSize) n
          (chunk c.data n).length got, rest, [], c.data.take (n * bufferSize)⟩ k) m := by
  obtain ⟨hnext, hnumber⟩ := counters_succ hn
  have htake := take_succ_chunk c.data n
  rcases readn_cases h hk hwants hgot with ⟨hless, hmore⟩ | ⟨hall, htail⟩
  · have hphase := TcpPhase.data n _ _ packets hn hremaining hless hmore
    simp only [Stream.serverReacts, tcpServerReads, if_pos hless, List.append_nil]
    refine ⟨_, ?_, hphase⟩
    simp only [List.length_drop]
    omega
  · have hfull : ¬ (got ++ rest.take k).length < (chunk c.data n).length := by
      rw [hall]
      exact lt_irrefl _
    simp only [Stream.serverReacts, tcpServerReads, if_neg hfull]
    simp only [hall, htail, hnext, hnumber, loopReadData]
    by_cases hmore : (n + 1) * bufferSize < c.data.length
    · obtain ⟨rest', rfl, hrest⟩ := hremaining.eq_cons hmore
      have hphase := TcpPhase.header (n + 1) [] (rest.drop k) rest' hmore hrest (by decide)
        (by rw [htail, List.nil_append, List.flatten_cons, dataNumber_eq, List.append_assoc])
      refine ⟨(rest.drop k).length + 9, ?_, ?_⟩
      · simp only [List.length_drop]
        omega
      · rw [Nat.min_eq_left hmore.le, if_pos hmore, ← htake, List.append_nil, ← htail]
        exact hphase
    · have hend : c.data.length ≤ (n + 1) * bufferSize := by omega
      have hphase := TcpPhase.rcvd (c := c) [] (rcvdPacket c.client.sessionId) (by decide)
        (by simp)
      have hshort : (rcvdPacket c.client.sessionId).length ≤ 9 := by
        simp [rcvdPacket, conaccSize]
      rw [take_all hend] at htake
      refine ⟨(rcvdPacket c.client.sessionId).length, by omega, ?_⟩
      rw [Nat.min_eq_right hend, if_neg (lt_irrefl _), ← htake, hremaining.eq_nil hend]
      exact hphase

private theorem tcpPhase_rcvd {got rest : List UInt8} {k : Nat} (hgot : got.length < conaccSize)
    (h : got ++ rest = rcvdPacket c.client.sessionId ++ [])
    (hpos : 1 ≤ k) (hk : k ≤ rest.length) (hwants : k ≤ conaccSize - got.length) :
    ∃ m < rest.length, TcpPhase c
      (Stream.clientReacts c.client ⟨.readRcvd got, .closed true, [], rest, c.data⟩ k) m := by
  have hsize : conaccSize = (rcvdPacket c.client.sessionId).length := by
    simp [rcvdPacket]
  rcases readn_cases h hk (hsize ▸ hwants) (hsize ▸ hgot) with ⟨hless, hmore⟩ | ⟨hall, htail⟩
  · rw [← hsize] at hless
    have hphase := TcpPhase.rcvd (c := c) _ _ hless hmore
    simp only [Stream.clientReacts, tcpClientReads, if_pos hless, List.append_nil]
    refine ⟨_, ?_, hphase⟩
    simp only [List.length_drop]
    omega
  · have hfull : ¬ (got ++ rest.take k).length < conaccSize := by
      rw [hall, ← hsize]
      exact lt_irrefl _
    simp only [Stream.clientReacts, tcpClientReads, if_neg hfull]
    simp only [hall, htail, readRcvdPacket_rcvd, List.append_nil]
    exact ⟨0, by omega, .done⟩

private theorem tcpPhase_step {x : Stream} {n : Nat} (h : TcpPhase c x n) :
    TcpDone c.client x ∨ (∃ t, (tcpStep c.client x t).isSome) ∧
      ∀ t x', tcpStep c.client x t = some x' → ∃ m, m < n ∧ TcpPhase c x' m := by
  cases h with
  | conn got rest hgot h =>
      have hrest : 1 ≤ rest.length := rest_pos h (by simpa using hgot)
      refine .inr ⟨⟨.serverReads 1, ?_⟩, fun t x' hstep => ?_⟩
      · have hwants : 1 ≤ connSize - got.length := by omega
        simp [tcpStep, TcpServerState.wants, hrest, hwants]
      · obtain ⟨k, hpos, hk, hwants, rfl⟩ := tcpStep_server rfl hrest hstep
        exact tcpPhase_conn hgot h hpos hk hwants
  | conacc hsome got rest hgot h =>
      have hrest : 1 ≤ rest.length := rest_pos h (by simpa [conaccPacket] using hgot)
      refine .inr ⟨⟨.clientReads 1, ?_⟩, fun t x' hstep => ?_⟩
      · have hwants : 1 ≤ conaccSize - got.length := by omega
        simp [tcpStep, TcpClientState.wants, hrest, hwants]
      · obtain ⟨k, hpos, hk, hwants, rfl⟩ := tcpStep_client rfl hrest hstep
        exact tcpPhase_conacc hsome hgot h hpos hk hwants
  | conaccEmpty hempty got rest hgot h =>
      have hrest : 1 ≤ rest.length := rest_pos h (by simpa [conaccPacket] using hgot)
      refine .inr ⟨⟨.clientReads 1, ?_⟩, fun t x' hstep => ?_⟩
      · have hwants : 1 ≤ conaccSize - got.length := by omega
        simp [tcpStep, TcpClientState.wants, hrest, hwants]
      · obtain ⟨k, hpos, hk, hwants, rfl⟩ := tcpStep_client rfl hrest hstep
        exact tcpPhase_conaccEmpty hempty hgot h hpos hk hwants
  | header n got rest packets hn hremaining hgot h =>
      have hrest : 1 ≤ rest.length := rest_pos h (by simpa using hgot)
      refine .inr ⟨⟨.serverReads 1, ?_⟩, fun t x' hstep => ?_⟩
      · have hwants : 1 ≤ dataHeaderSize - got.length := by omega
        simp [tcpStep, TcpServerState.wants, hrest, hwants]
      · obtain ⟨k, hpos, hk, hwants, rfl⟩ := tcpStep_server rfl hrest hstep
        exact tcpPhase_header hn hremaining hgot h hpos hk hwants
  | data n got rest packets hn hremaining hgot h =>
      have hrest : 1 ≤ rest.length := rest_pos h hgot
      refine .inr ⟨⟨.serverReads 1, ?_⟩, fun t x' hstep => ?_⟩
      · have hwants : 1 ≤ (chunk c.data n).length - got.length := by omega
        simp only [tcpStep, TcpServerState.wants, hrest, hwants, le_refl, and_self, if_true,
          Option.isSome_some]
      · obtain ⟨k, hpos, hk, hwants, rfl⟩ := tcpStep_server rfl hrest hstep
        exact tcpPhase_data hn hremaining hgot h hpos hk hwants
  | rcvd got rest hgot h =>
      have hrest : 1 ≤ rest.length := rest_pos h (by simpa [rcvdPacket] using hgot)
      refine .inr ⟨⟨.clientReads 1, ?_⟩, fun t x' hstep => ?_⟩
      · have hwants : 1 ≤ conaccSize - got.length := by omega
        simp [tcpStep, TcpClientState.wants, hrest, hwants]
      · obtain ⟨k, hpos, hk, hwants, rfl⟩ := tcpStep_client rfl hrest hstep
        exact tcpPhase_rcvd hgot h hpos hk hwants
  | done => exact .inl ⟨rfl, rfl, rfl⟩

theorem tcp_inevitable (c : Transfer) :
    Inevitable (tcpStep c.client) (TcpDone c.client) (.init c.client) := by
  apply inevitable_of_variant (fun x n => tcpPhase_step) (fun _ _ _ => tcpDone_step)
  exact TcpPhase.conn [] _ (by decide) (by simp [Transfer.data])

end Phases

end Mimuw.Ppcb
