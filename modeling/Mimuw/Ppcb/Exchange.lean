import Mimuw.Ppcb.Safety

/-!
# How each party takes the other's packets

The outcome of every receive loop on every packet of the session: the expected
one, an earlier one again, or one that ends the session.
-/

namespace Mimuw.Ppcb

open Mimuw.Lib

variable {c : Transfer}

/-! ## The server -/

theorem length_chunk_pos {m : Nat} (hm : m * bufferSize < c.data.length) :
    1 ≤ (chunk c.data m).length := by
  rw [length_chunk]
  simp only [bufferSize] at hm ⊢
  omega

private theorem recvDataPackets_dataNumber {m packetNumber readSize dataLen : Nat}
    (hm : m * bufferSize < c.data.length) :
    recvDataPackets c.session packetNumber readSize dataLen c.clientAddr (c.dataNumber m) =
      if (readSize + (chunk c.data m).length) % 2 ^ 64 > dataLen then
        rejectClient c.session packetNumber
      else if m ≠ packetNumber then rejectClient c.session packetNumber
      else ([], .ok (chunk c.data m)) := by
  have hpos := length_chunk_pos hm
  have hle := length_chunk_le c.data m
  have hshort : ¬ dataHeaderSize + (chunk c.data m).length < dataHeaderSize := by omega
  have hbounds : ¬ ((chunk c.data m).length < minDataLen ∨
      (chunk c.data m).length > maxDataLen) := by
    simp only [minDataLen, maxDataLen, bufferSize] at hle ⊢
    omega
  simp only [recvDataPackets, take_dataNumber, length_dataNumber, hshort,
    dataBytesLenField_dataNumber, sessionField_dataNumber, packetType_dataNumber,
    numberField_dataNumber hm, payloadField_dataNumber, hbounds, Transfer.session, ne_eq,
    not_true_eq_false, if_false]

theorem recvDataPacketRetr_dataNumber {m packetNumber readSize dataLen : Nat}
    (hm : m * bufferSize < c.data.length) :
    recvDataPacketRetr c.session packetNumber readSize dataLen c.clientAddr
        (c.dataNumber m) =
      if ((chunk c.data m).length + readSize) % 2 ^ 64 > dataLen then
        rejectClient c.session packetNumber
      else if m < packetNumber then ([], .again)
      else if m ≠ packetNumber then rejectClient c.session packetNumber
      else ([], .ok (chunk c.data m)) := by
  have hpos := length_chunk_pos hm
  have hle := length_chunk_le c.data m
  have hshort : ¬ dataHeaderSize + (chunk c.data m).length < dataHeaderSize := by omega
  have hconn : ¬ dataPacketType = connPacketType := by decide
  have hbounds : ¬ ((chunk c.data m).length < minDataLen ∨
      (chunk c.data m).length > maxDataLen) := by
    simp only [minDataLen, maxDataLen, bufferSize] at hle ⊢
    omega
  simp only [recvDataPacketRetr, take_dataNumber, length_dataNumber, hshort, hconn,
    dataBytesLenField_dataNumber, sessionField_dataNumber, packetType_dataNumber,
    numberField_dataNumber hm, payloadField_dataNumber, hbounds, Transfer.session, ne_eq,
    not_true_eq_false, if_false, and_false]

theorem recvDataPacketRetr_conn {packetNumber readSize dataLen : Nat} :
    recvDataPacketRetr c.session packetNumber readSize dataLen c.clientAddr c.conn =
      if packetNumber = firstPacketNumber then ([], .again)
      else rejectClient c.session packetNumber := by
  have htake : c.conn.take maxLen = c.conn :=
    List.take_of_length_le (by simp [connSize, maxLen])
  have hshort : connSize < dataHeaderSize := by decide
  simp only [recvDataPacketRetr, htake, length_conn, packetType_conn, hshort,
    Transfer.session, ne_eq, not_true_eq_false, if_false, and_true, if_true]

theorem recvConnPacket_conn :
    recvConnPacket c.conn =
      some ⟨c.client.sessionId, c.protocol.id, c.data.length⟩ := by
  have htake : c.conn.take connSize = c.conn := List.take_of_length_le (by simp)
  have hprotocol : ¬ (c.protocol.id ≠ udpProtocolId ∧ c.protocol.id ≠ udprProtocolId) := by
    cases c.protocol <;> simp [DatagramProtocol.id]
  have hdataLen : dataLenField c.conn = c.data.length := by
    simp only [Transfer.conn, dataLenField_connPacket]
    exact Nat.mod_eq_of_lt c.fits
  have hprotocolId : protocolIdField c.conn = c.protocol.id := by simp [Transfer.conn]
  have hsession : readSessionId c.conn = c.client.sessionId := by simp [Transfer.conn]
  simp only [recvConnPacket, htake, length_conn, packetType_conn, hprotocolId, hprotocol,
    hsession, hdataLen, ne_eq, not_true_eq_false, if_false]

/-! ## The client -/

section Client

variable (id : SessionId) (n : Nat)

@[simp] theorem take_sessionPacket (t : UInt8) :
    (sessionPacket t id).take conaccSize = sessionPacket t id :=
  List.take_of_length_le (by simp)

@[simp] theorem take_numberPacket (t : UInt8) :
    (numberPacket t id n).take accSize = numberPacket t id n :=
  List.take_of_length_le (by simp)

@[simp] theorem take_sessionPacket_accSize (t : UInt8) :
    (sessionPacket t id).take accSize = sessionPacket t id :=
  List.take_of_length_le (by simp [conaccSize, accSize])

private theorem accSize_ne_conaccSize : ¬ accSize = conaccSize := by decide

private theorem conaccSize_ne_accSize : ¬ conaccSize = accSize := by decide

theorem recvConaccPacket_conacc :
    recvConaccPacket c.client c.client.serverAddr (conaccPacket c.client.sessionId) =
      .ok := by
  have htype : ¬ conaccPacketType = conrjtPacketType := by decide
  simp [recvConaccPacket, conaccPacket, htype]

private theorem recvRcvdPacket_rcvd :
    recvRcvdPacket c.client c.client.serverAddr (rcvdPacket c.client.sessionId) = .ok := by
  simp [recvRcvdPacket, rcvdPacket]

theorem recvRcvdPacketWithRetr_rcvd :
    recvRcvdPacketWithRetr c.client c.client.serverAddr (rcvdPacket c.client.sessionId) =
      .ok := by
  simp [recvRcvdPacketWithRetr, rcvdPacket, conaccSize_ne_accSize]

theorem recvRcvdPacketWithRetr_acc :
    recvRcvdPacketWithRetr c.client c.client.serverAddr (accPacket id n) = .again := by
  simp [recvRcvdPacketWithRetr, accPacket]

theorem recvAccPacketRetr_acc {m : Nat} (hm : m < 2 ^ 64) :
    recvAccPacketRetr c.client n c.client.serverAddr (accPacket c.client.sessionId m) =
      if m < n then .again else if m ≠ n then .exit else .ok := by
  have hnumber : m % 18446744073709551616 = m := Nat.mod_eq_of_lt hm
  simp [recvAccPacketRetr, accPacket, accSize_ne_conaccSize, hnumber]

theorem recvAccPacketRetr_conacc :
    recvAccPacketRetr c.client n c.client.serverAddr (conaccPacket id) =
      if n = firstPacketNumber then .again else .exit := by
  simp [recvAccPacketRetr, conaccPacket, conaccSize_ne_accSize]

/-! Packets of another type end the client, whatever else they say. -/

theorem recvConaccPacket_other {bytes : Datagram} (h : packetType bytes ≠ conaccPacketType) :
    recvConaccPacket c.client c.client.serverAddr bytes = .exit := by
  have htype : packetType (bytes.take conaccSize) ≠ conaccPacketType := by
    rwa [packetType_take _ (by decide)]
  simp [recvConaccPacket, htype]

theorem recvAccPacketRetr_other {bytes : Datagram} (hacc : packetType bytes ≠ accPacketType)
    (hconacc : packetType bytes ≠ conaccPacketType) :
    recvAccPacketRetr c.client n c.client.serverAddr bytes = .exit := by
  have htype : packetType (bytes.take accSize) = packetType bytes :=
    packetType_take _ (by decide)
  simp [recvAccPacketRetr, htype, hacc, hconacc]

theorem recvRcvdPacketWithRetr_other {bytes : Datagram}
    (hacc : packetType bytes ≠ accPacketType) (hrcvd : packetType bytes ≠ rcvdPacketType) :
    recvRcvdPacketWithRetr c.client c.client.serverAddr bytes = .exit := by
  have htype : packetType (bytes.take accSize) = packetType bytes :=
    packetType_take _ (by decide)
  simp [recvRcvdPacketWithRetr, htype, hacc, hrcvd]

end Client

/-! ## Whole reactions to the expected packet -/

/-- The destination and contents of a CONACC of the session. -/
def Transfer.conacc (c : Transfer) : SockAddr × Datagram :=
  (c.clientAddr, conaccPacket c.client.sessionId)

theorem handleUdpConnection_conn_udp (hudp : c.protocol = .udp) :
    handleUdpConnection .waitConn (.datagram c.clientAddr c.conn) =
      loopRecvData c.session c.data.length 0 0 [c.conacc] (some c.session) [] := by
  simp [handleUdpConnection, recvConnPacket_conn, hudp, DatagramProtocol.id,
    Transfer.session, Transfer.conacc]

theorem handleUdpConnection_conn_udpr (hudpr : c.protocol = .udpr) :
    handleUdpConnection .waitConn (.datagram c.clientAddr c.conn) =
      ⟨.recvFirst c.session c.data.length 0, [c.conacc], some c.session, [], false⟩ := by
  have hid : ¬ udprProtocolId = udpProtocolId := by decide
  simp [handleUdpConnection, recvConnPacket_conn, hudpr, DatagramProtocol.id, hid,
    Transfer.session, Transfer.conacc]

theorem handleUdpConnection_data {readSize n : Nat} (hn : n * bufferSize < c.data.length)
    (hroom : readSize + (chunk c.data n).length ≤ c.data.length) :
    handleUdpConnection (.recvData c.session c.data.length readSize n)
        (.datagram c.clientAddr (c.dataNumber n)) =
      loopRecvData c.session c.data.length (readSize + (chunk c.data n).length) (n + 1)
        [] none (chunk c.data n) := by
  have hsmall : c.data.length < 2 ^ 64 := c.fits
  have hsum : (readSize + (chunk c.data n).length) % 2 ^ 64 =
      readSize + (chunk c.data n).length := Nat.mod_eq_of_lt (hroom.trans_lt hsmall)
  have hfits := not_lt.mpr hroom
  simp only [handleUdpConnection, recvDataPackets_dataNumber hn, hsum, number_succ hn,
    gt_iff_lt, if_neg hfits, ne_eq, not_true_eq_false, if_false]

theorem handleUdpConnection_first {attempts : Nat} (hpos : 0 < c.data.length) :
    handleUdpConnection (.recvFirst c.session c.data.length attempts)
        (.datagram c.clientAddr (c.dataNumber 0)) =
      loopSendAcc c.session (c.data.length - (chunk c.data 0).length) 0 0
        (chunk c.data 0) := by
  have hfirst : 0 * bufferSize < c.data.length := by omega
  have hlen := length_chunk c.data 0
  have hsmall : c.data.length < 2 ^ 64 := c.fits
  have hfits : ¬ ((chunk c.data 0).length + 0) % 2 ^ 64 > c.data.length := by
    rw [Nat.add_zero, Nat.mod_eq_of_lt (by omega)]
    omega
  simp only [handleUdpConnection, recvDataPacketRetr_dataNumber hfirst, firstPacketNumber,
    if_neg hfits, lt_irrefl, ne_eq, not_true_eq_false, if_false]

theorem handleUdpConnection_next {dataLen readSize n attempts : Nat}
    (hn : n * bufferSize < c.data.length) (hdataLen : dataLen ≤ c.data.length)
    (hroom : readSize + (chunk c.data n).length ≤ dataLen) :
    handleUdpConnection (.recvNext c.session dataLen readSize n attempts)
        (.datagram c.clientAddr (c.dataNumber n)) =
      loopSendAcc c.session dataLen (readSize + (chunk c.data n).length) n
        (chunk c.data n) := by
  have hsmall : c.data.length < 2 ^ 64 := c.fits
  have hsum : (readSize + (chunk c.data n).length) % 2 ^ 64 =
      readSize + (chunk c.data n).length :=
    Nat.mod_eq_of_lt ((hroom.trans hdataLen).trans_lt hsmall)
  have hfits := not_lt.mpr hroom
  simp only [handleUdpConnection, recvDataPacketRetr_dataNumber hn,
    Nat.add_comm (chunk c.data n).length, hsum, gt_iff_lt, if_neg hfits,
    lt_irrefl, ne_eq, not_true_eq_false, if_false]

theorem handleClient_conacc_udp {attempts : Nat} (hudp : c.protocol = .udp) :
    c.handleClient (.recvConacc attempts)
        (.datagram c.client.serverAddr (conaccPacket c.client.sessionId)) =
      (.recvRcvd, sendDataPackets c.client (c.data.length + 1) 0 0) := by
  simp [Transfer.handleClient, hudp, handleUdpClient, recvConaccPacket_conacc, Transfer.data]

theorem handleClient_conacc_udpr {attempts : Nat} (hudpr : c.protocol = .udpr) :
    c.handleClient (.recvConacc attempts)
        (.datagram c.client.serverAddr (conaccPacket c.client.sessionId)) =
      loopSendData c.client 0 0 := by
  simp [Transfer.handleClient, hudpr, handleUdprClient, recvConaccPacket_conacc,
    firstPacketNumber]

theorem handleClient_acc {n attempts : Nat} (hudpr : c.protocol = .udpr)
    (hn : n * bufferSize < c.data.length) :
    c.handleClient (.recvAcc n (n * bufferSize) attempts)
        (.datagram c.client.serverAddr (accPacket c.client.sessionId n)) =
      loopSendData c.client (n + 1) (n * bufferSize + (chunk c.data n).length) := by
  have hacc := recvAccPacketRetr_acc (c := c) n (number_small hn)
  simp only [lt_irrefl, ne_eq, not_true_eq_false, if_false] at hacc
  simp only [Transfer.handleClient, hudpr, handleUdprClient, hacc]
  rfl

theorem handleClient_rcvd :
    c.handleClient .recvRcvd
        (.datagram c.client.serverAddr (rcvdPacket c.client.sessionId)) =
      (.succeeded, []) := by
  unfold Transfer.handleClient
  cases c.protocol with
  | udp => simp only [handleUdpClient, recvRcvdPacket_rcvd]
  | udpr => simp only [handleUdprClient, recvRcvdPacketWithRetr_rcvd]

end Mimuw.Ppcb
