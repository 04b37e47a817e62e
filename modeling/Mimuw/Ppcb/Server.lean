import Mimuw.Ppcb.Packets

/-!
# The datagram server

`handleUdpConnection` is one thread that blocks only in `recvfrom`, so its
state is the loop it is blocked in together with the variables that loop
reads.  One reaction takes it from a received datagram or a timeout to the next
call of `recvfrom`, with everything sent on the way.  `sendto` succeeds and
`recvfrom` fails only by its timeout.  The sums of lengths and the numbers of packets
are those of `uint64_t`.
-/

namespace Mimuw.Ppcb

structure SockAddr where
  ip : UInt32
  port : UInt16
  deriving DecidableEq

structure Session where
  clientAddr : SockAddr
  sessionId : SessionId
  deriving DecidableEq

/-- What `recvfrom` gives back. -/
inductive Event where
  | datagram (source : SockAddr) (bytes : Datagram)
  | timeout

/-- Destinations and contents of the datagrams sent, in order. -/
abbrev Sends := List (SockAddr × Datagram)

/-- How a receive loop takes one datagram: `continue`, leave the loop with the
payload, or return `EXIT_COMMUNICATION`. -/
inductive Received where
  | again
  | ok (payload : List UInt8)
  | exit
  deriving DecidableEq

/-- What `printf("%s", data)` writes. -/
def printed (payload : List UInt8) : List UInt8 := payload.takeWhile (· != 0)

/-! ## Receiving one packet -/

structure ConnPacket where
  sessionId : SessionId
  protocolId : UInt8
  dataLen : Nat
  deriving DecidableEq

def recvConnPacket (bytes : Datagram) : Option ConnPacket :=
  let buffer := bytes.take connSize
  if buffer.length ≠ connSize then none
  else if packetType buffer ≠ connPacketType then none
  else if protocolIdField buffer ≠ udpProtocolId ∧
      protocolIdField buffer ≠ udprProtocolId then none
  else some ⟨readSessionId buffer, protocolIdField buffer, dataLenField buffer⟩

/-- `send_rjt_packet` to the session's client, before an error return. -/
def rejectClient (session : Session) (packetNumber : Nat) : Sends × Received :=
  ([(session.clientAddr, rjtPacket session.sessionId packetNumber)], .exit)

/-- The body of the loop of `recv_data_packets`. -/
def recvDataPackets (session : Session) (packetNumber readSize dataLen : Nat)
    (source : SockAddr) (bytes : Datagram) : Sends × Received :=
  let buffer := bytes.take maxLen
  if source ≠ session.clientAddr then
    if buffer.length = connSize ∧ packetType buffer = connPacketType then
      ([(source, conrjtPacket (readSessionId buffer))], .again)
    else if buffer.length = dataHeaderSize ∧ packetType buffer = dataPacketType then
      ([(source, rjtPacket (readSessionId buffer) packetNumber)], .again)
    else ([], .again)
  else if buffer.length < dataHeaderSize then rejectClient session packetNumber
  else if buffer.length ≠ dataHeaderSize + dataBytesLenField buffer then
    rejectClient session packetNumber
  else if (readSize + dataBytesLenField buffer) % 2 ^ 64 > dataLen then
    rejectClient session packetNumber
  else if sessionField buffer ≠ session.sessionId.bytes then
    rejectClient session packetNumber
  else if packetType buffer ≠ dataPacketType then rejectClient session packetNumber
  else if numberField buffer ≠ packetNumber then rejectClient session packetNumber
  else if dataBytesLenField buffer < minDataLen ∨
      dataBytesLenField buffer > maxDataLen then
    rejectClient session packetNumber
  else ([], .ok (payloadField buffer))

/-- The body of the loop of `recv_data_packet_retr`. -/
def recvDataPacketRetr (session : Session) (expectedPacketNumber readSize dataLen : Nat)
    (source : SockAddr) (bytes : Datagram) : Sends × Received :=
  let buffer := bytes.take maxLen
  if source ≠ session.clientAddr then
    if buffer.length = connSize ∧ packetType buffer = connPacketType then
      ([(source, conrjtPacket (readSessionId buffer))], .again)
    else if buffer.length = dataHeaderSize then
      ([(source, rjtPacket (readSessionId buffer) expectedPacketNumber)], .again)
    else ([], .again)
  else if expectedPacketNumber = firstPacketNumber ∧ buffer.length = connSize ∧
      packetType buffer = connPacketType then ([], .again)
  else if buffer.length < dataHeaderSize then rejectClient session expectedPacketNumber
  else if buffer.length ≠ dataHeaderSize + dataBytesLenField buffer then
    rejectClient session expectedPacketNumber
  else if sessionField buffer ≠ session.sessionId.bytes then
    rejectClient session expectedPacketNumber
  else if packetType buffer ≠ dataPacketType then
    rejectClient session expectedPacketNumber
  else if (dataBytesLenField buffer + readSize) % 2 ^ 64 > dataLen then
    rejectClient session expectedPacketNumber
  else if dataBytesLenField buffer < minDataLen ∨
      dataBytesLenField buffer > maxDataLen then
    rejectClient session expectedPacketNumber
  else if numberField buffer < expectedPacketNumber then ([], .again)
  else if numberField buffer ≠ expectedPacketNumber then
    rejectClient session expectedPacketNumber
  else ([], .ok (payloadField buffer))

/-! ## The loops of a session -/

/-- Where the server is blocked. -/
inductive ServerState where
  /-- in `recv_conn_packet` -/
  | waitConn
  /-- in `recv_data_packets` -/
  | recvData (session : Session) (dataLen readSize packetNumber : Nat)
  /-- in `send_conacc_packet_and_recv_data_packet` -/
  | recvFirst (session : Session) (dataLen attempts : Nat)
  /-- in `send_acc_packet_and_recv_data_packet`, waiting for `packetNumber` -/
  | recvNext (session : Session) (dataLen readSize packetNumber attempts : Nat)
  deriving DecidableEq

def ServerState.session? : ServerState → Option Session
  | .waitConn => none
  | .recvData session .. | .recvFirst session .. | .recvNext session .. => some session

structure Reaction where
  state : ServerState
  sends : Sends
  /-- the session a CONN packet has just opened -/
  opened : Option Session
  /-- the payload of the DATA packet just accepted -/
  accepted : List UInt8
  /-- whether `send_rcvd_packet` was reached -/
  completed : Bool

/-- Nothing but a change of loop and some datagrams. -/
def Reaction.goto (state : ServerState) (sends : Sends) : Reaction :=
  ⟨state, sends, none, [], false⟩

/-- The top of the loop of `recv_data_packets`. -/
def loopRecvData (session : Session) (dataLen readSize packetNumber : Nat)
    (sends : Sends) (opened : Option Session) (accepted : List UInt8) : Reaction :=
  if readSize < dataLen then
    ⟨.recvData session dataLen readSize packetNumber, sends, opened, accepted, false⟩
  else
    ⟨.waitConn, sends ++ [(session.clientAddr, rcvdPacket session.sessionId)],
      opened, accepted, true⟩

/-- The top of the outer loop of `send_acc_packet_and_recv_data_packet`. -/
def loopSendAcc (session : Session) (dataLen readSize packetNumber : Nat)
    (accepted : List UInt8) : Reaction :=
  let acc := (session.clientAddr, accPacket session.sessionId packetNumber)
  if readSize = dataLen then
    ⟨.waitConn, [acc, (session.clientAddr, rcvdPacket session.sessionId)],
      none, accepted, true⟩
  else
    ⟨.recvNext session dataLen readSize ((packetNumber + 1) % 2 ^ 64) 0, [acc], none, accepted,
      false⟩

/-- From one `recvfrom` of `handle_udp_connection` to the next. -/
def handleUdpConnection (state : ServerState) (event : Event) : Reaction :=
  match state, event with
  | .waitConn, .timeout => .goto .waitConn []
  | .waitConn, .datagram source bytes =>
      match recvConnPacket bytes with
      | none => .goto .waitConn []
      | some conn =>
          let session : Session := ⟨source, conn.sessionId⟩
          let conacc := (source, conaccPacket conn.sessionId)
          if conn.protocolId = udpProtocolId then
            loopRecvData session conn.dataLen 0 0 [conacc] (some session) []
          else
            ⟨.recvFirst session conn.dataLen 0, [conacc], some session, [], false⟩
  | .recvData .., .timeout => .goto .waitConn []
  | .recvData session dataLen readSize packetNumber, .datagram source bytes =>
      match recvDataPackets session packetNumber readSize dataLen source bytes with
      | (sends, .again) => .goto state sends
      | (sends, .exit) => .goto .waitConn sends
      | (sends, .ok payload) =>
          loopRecvData session dataLen ((readSize + payload.length) % 2 ^ 64)
            ((packetNumber + 1) % 2 ^ 64) sends none payload
  | .recvFirst session dataLen attempts, .timeout =>
      if attempts + 1 ≤ maxRetransmits then
        .goto (.recvFirst session dataLen (attempts + 1))
          [(session.clientAddr, conaccPacket session.sessionId)]
      else .goto .waitConn []
  | .recvFirst session dataLen _, .datagram source bytes =>
      match recvDataPacketRetr session firstPacketNumber 0 dataLen source bytes with
      | (sends, .again) => .goto state sends
      | (sends, .exit) => .goto .waitConn sends
      | (_, .ok payload) =>
          loopSendAcc session (dataLen - payload.length) 0 firstPacketNumber payload
  | .recvNext session dataLen readSize packetNumber attempts, .timeout =>
      -- the ACC packet was built before the inner loop, for the previous number
      if attempts + 1 ≤ maxRetransmits then
        .goto (.recvNext session dataLen readSize packetNumber (attempts + 1))
          [(session.clientAddr,
            accPacket session.sessionId ((packetNumber + (2 ^ 64 - 1)) % 2 ^ 64))]
      else .goto .waitConn []
  | .recvNext session dataLen readSize packetNumber _, .datagram source bytes =>
      match recvDataPacketRetr session packetNumber readSize dataLen source bytes with
      | (sends, .again) => .goto state sends
      | (sends, .exit) => .goto .waitConn sends
      | (_, .ok payload) =>
          loopSendAcc session dataLen ((readSize + payload.length) % 2 ^ 64) packetNumber payload

end Mimuw.Ppcb
