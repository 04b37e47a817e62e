import Mimuw.Ppcb.Server

/-!
# The datagram clients

`handleUdpClient` and `handleUdprClient`, as reactions between two calls of
`recvfrom`, in the same way as the server.  Both start by sending CONN.
-/

namespace Mimuw.Ppcb

/-- The piece of the data that packet `n` carries: `data + offset`, where each
earlier packet has advanced `offset` by a full buffer. -/
def chunk (data : List UInt8) (n : Nat) : List UInt8 :=
  (data.drop (n * bufferSize)).take bufferSize

structure ClientConfig where
  data : List UInt8
  sessionId : SessionId
  serverAddr : SockAddr

/-! ## Receiving one packet -/

/-- How a client's receive loop takes one datagram. -/
inductive Taken where
  | again
  | ok
  | exit
  deriving DecidableEq

/-- The checks `recv_conacc_packet` and `recv_conacc_packet_retr` share. -/
def recvConaccPacket (c : ClientConfig) (source : SockAddr) (bytes : Datagram) : Taken :=
  let buffer := bytes.take conaccSize
  if source ≠ c.serverAddr then .again
  else if buffer.length ≠ conaccSize then .exit
  else if packetType buffer = conrjtPacketType then .exit
  else if packetType buffer ≠ conaccPacketType then .exit
  else if sessionField buffer ≠ c.sessionId.bytes then .exit
  else .ok

/-- `recv_rcvd_packet` of the plain client. -/
def recvRcvdPacket (c : ClientConfig) (source : SockAddr) (bytes : Datagram) : Taken :=
  let buffer := bytes.take conaccSize
  if source ≠ c.serverAddr then .again
  else if buffer.length ≠ conaccSize then .exit
  else if packetType buffer ≠ rcvdPacketType then .exit
  else if sessionField buffer ≠ c.sessionId.bytes then .exit
  else .ok

def recvAccPacketRetr (c : ClientConfig) (packetNumber : Nat) (source : SockAddr)
    (bytes : Datagram) : Taken :=
  let buffer := bytes.take accSize
  if source ≠ c.serverAddr then .again
  else if packetNumber = firstPacketNumber ∧ buffer.length = conaccSize ∧
      packetType buffer = conaccPacketType then .again
  else if buffer.length ≠ accSize then .exit
  else if packetType buffer ≠ accPacketType then .exit
  else if sessionField buffer ≠ c.sessionId.bytes then .exit
  else if numberField buffer < packetNumber then .again
  else if numberField buffer ≠ packetNumber then .exit
  else .ok

/-- `recv_rcvd_packet_with_retr`: its buffer holds an ACC packet. -/
def recvRcvdPacketWithRetr (c : ClientConfig) (source : SockAddr) (bytes : Datagram) :
    Taken :=
  let buffer := bytes.take accSize
  if source ≠ c.serverAddr then .again
  else if buffer.length = accSize ∧ packetType buffer = accPacketType then .again
  else if buffer.length ≠ conaccSize then .exit
  else if packetType buffer ≠ rcvdPacketType then .exit
  else if sessionField buffer ≠ c.sessionId.bytes then .exit
  else .ok

/-! ## The runs -/

/-- Where a client is blocked, or how it ended. -/
inductive ClientState where
  | recvConacc (attempts : Nat)
  | recvAcc (packetNumber offset attempts : Nat)
  | recvRcvd
  | succeeded
  | failed
  deriving DecidableEq

def sendTo (c : ClientConfig) (bytes : Datagram) : Sends := [(c.serverAddr, bytes)]

def sendConn (c : ClientConfig) (protocolId : UInt8) : Sends :=
  sendTo c (connPacket c.sessionId protocolId c.data.length)

/-- The DATA packet built from `offset` and `packetNumber`. -/
def dataAt (c : ClientConfig) (packetNumber offset : Nat) : Datagram :=
  dataPacket c.sessionId packetNumber ((c.data.drop offset).take bufferSize)

/-- The loop of `send_data_packets`, from `packetNumber` and `offset` on; each
turn advances `offset`, so `fuel` past the length is never used up. -/
def sendDataPackets (c : ClientConfig) : Nat → Nat → Nat → Sends
  | 0, _, _ => []
  | fuel + 1, packetNumber, offset =>
      if offset < c.data.length then
        sendTo c (dataAt c packetNumber offset) ++
          sendDataPackets c fuel (packetNumber + 1)
            (offset + ((c.data.drop offset).take bufferSize).length)
      else []

/-- `handle_udp_client`, after its CONN. -/
def handleUdpClient (c : ClientConfig) (state : ClientState) (event : Event) :
    ClientState × Sends :=
  match state, event with
  | .recvConacc _, .timeout => (.failed, [])
  | .recvConacc _, .datagram source bytes =>
      match recvConaccPacket c source bytes with
      | .again => (state, [])
      | .exit => (.failed, [])
      | .ok => (.recvRcvd, sendDataPackets c (c.data.length + 1) 0 0)
  | .recvRcvd, .timeout => (.failed, [])
  | .recvRcvd, .datagram source bytes =>
      match recvRcvdPacket c source bytes with
      | .again => (state, [])
      | .exit => (.failed, [])
      | .ok => (.succeeded, [])
  | _, _ => (state, [])

/-- The top of the loop of `send_data_packets_and_recv_acc_retr`. -/
def loopSendData (c : ClientConfig) (packetNumber offset : Nat) : ClientState × Sends :=
  if offset < c.data.length then
    (.recvAcc packetNumber offset 0, sendTo c (dataAt c packetNumber offset))
  else (.recvRcvd, [])

/-- `handle_udpr_client`, after its first CONN. -/
def handleUdprClient (c : ClientConfig) (state : ClientState) (event : Event) :
    ClientState × Sends :=
  match state, event with
  | .recvConacc attempts, .timeout =>
      if attempts + 1 ≤ maxRetransmits then
        (.recvConacc (attempts + 1), sendConn c udprProtocolId)
      else (.failed, [])
  | .recvConacc _, .datagram source bytes =>
      match recvConaccPacket c source bytes with
      | .again => (state, [])
      | .exit => (.failed, [])
      | .ok => loopSendData c firstPacketNumber 0
  | .recvAcc packetNumber offset attempts, .timeout =>
      if attempts + 1 ≤ maxRetransmits then
        (.recvAcc packetNumber offset (attempts + 1),
          sendTo c (dataAt c packetNumber offset))
      else (.failed, [])
  | .recvAcc packetNumber offset _, .datagram source bytes =>
      match recvAccPacketRetr c packetNumber source bytes with
      | .again => (state, [])
      | .exit => (.failed, [])
      | .ok =>
          loopSendData c (packetNumber + 1)
            (offset + ((c.data.drop offset).take bufferSize).length)
  | .recvRcvd, .timeout => (.failed, [])
  | .recvRcvd, .datagram source bytes =>
      match recvRcvdPacketWithRetr c source bytes with
      | .again => (state, [])
      | .exit => (.failed, [])
      | .ok => (.succeeded, [])
  | .succeeded, _ | .failed, _ => (state, [])

end Mimuw.Ppcb
