import Mimuw.Lib.Bytes

/-!
# Packets

The packed structures of `common.h`, as the bytes that travel.  Numbers are
big-endian on the wire except the session identifier, which is copied as it
lies in memory and only ever compared.
-/

namespace Mimuw.Ppcb

open Mimuw.Lib

abbrev Datagram := List UInt8

/-- `uint64_t session_id`, as the eight bytes in memory. -/
structure SessionId where
  bytes : List UInt8
  size : bytes.length = 8
  deriving DecidableEq

/-! ## Constants -/

def bufferSize : Nat := 64000
def minDataLen : Nat := 1
def maxDataLen : Nat := 64000
def maxLen : Nat := 64100
def firstPacketNumber : Nat := 0
def maxRetransmits : Nat := 5

def connPacketType : UInt8 := 1
def conaccPacketType : UInt8 := 2
def conrjtPacketType : UInt8 := 3
def dataPacketType : UInt8 := 4
def accPacketType : UInt8 := 5
def rjtPacketType : UInt8 := 6
def rcvdPacketType : UInt8 := 7

def tcpProtocolId : UInt8 := 1
def udpProtocolId : UInt8 := 2
def udprProtocolId : UInt8 := 3

/-- `sizeof(CONN_packet)` -/
def connSize : Nat := 18
/-- `sizeof(CONACC_packet)`, also of CONRJT and RCVD packets -/
def conaccSize : Nat := 9
/-- `sizeof(ACC_packet)`, also of RJT packets -/
def accSize : Nat := 17
/-- `sizeof(DATA_header)`, also `sizeof(DATA_packet)` -/
def dataHeaderSize : Nat := 21

/-! ## Writing -/

def connPacket (session : SessionId) (protocolId : UInt8) (dataLen : Nat) : Datagram :=
  [connPacketType] ++ session.bytes ++ [protocolId] ++ toBytes 8 dataLen

/-- A packet that carries its type and session only: CONACC, CONRJT, RCVD. -/
def sessionPacket (type : UInt8) (session : SessionId) : Datagram :=
  [type] ++ session.bytes

def conaccPacket (session : SessionId) : Datagram := sessionPacket conaccPacketType session
def conrjtPacket (session : SessionId) : Datagram := sessionPacket conrjtPacketType session
def rcvdPacket (session : SessionId) : Datagram := sessionPacket rcvdPacketType session

/-- A packet that carries a packet number besides: ACC, RJT. -/
def numberPacket (type : UInt8) (session : SessionId) (packetNumber : Nat) : Datagram :=
  [type] ++ session.bytes ++ toBytes 8 packetNumber

def accPacket (session : SessionId) (packetNumber : Nat) : Datagram :=
  numberPacket accPacketType session packetNumber

def rjtPacket (session : SessionId) (packetNumber : Nat) : Datagram :=
  numberPacket rjtPacketType session packetNumber

def dataHeader (session : SessionId) (packetNumber dataBytesLen : Nat) : Datagram :=
  [dataPacketType] ++ session.bytes ++ toBytes 8 packetNumber ++ toBytes 4 dataBytesLen

def dataPacket (session : SessionId) (packetNumber : Nat) (payload : List UInt8) : Datagram :=
  dataHeader session packetNumber payload.length ++ payload

/-! ## Reading -/

def packetType (d : Datagram) : UInt8 := d.getD 0 0

def sessionField (d : Datagram) : List UInt8 := slice d 1 8

/-- The packet number of a DATA, ACC or RJT packet. -/
def numberField (d : Datagram) : Nat := ofBytes (slice d 9 8)

theorem numberField_lt (d : Datagram) : numberField d < 2 ^ 64 := by
  have hlength : (slice d 9 8).length ≤ 8 := by simp [slice]
  exact (ofBytes_lt _).trans_le (Nat.pow_le_pow_right (by decide) hlength)

def dataBytesLenField (d : Datagram) : Nat := ofBytes (slice d 17 4)

def payloadField (d : Datagram) : List UInt8 := d.drop dataHeaderSize

def protocolIdField (d : Datagram) : UInt8 := d.getD 9 0

/-- `data_len` of a CONN packet. -/
def dataLenField (d : Datagram) : Nat := ofBytes (slice d 10 8)

/-- The session identifier of a packet, read only after its size was checked. -/
def readSessionId (d : Datagram) : SessionId :=
  ⟨(sessionField d ++ List.replicate 8 0).take 8, by simp [sessionField, slice]⟩

/-! ## Reading what was written -/

section RoundTrip

variable (s : SessionId) (n : Nat)

@[simp] theorem length_connPacket (p : UInt8) : (connPacket s p n).length = connSize := by
  simp [connPacket, s.size, connSize]

@[simp] theorem length_sessionPacket (t : UInt8) :
    (sessionPacket t s).length = conaccSize := by
  simp [sessionPacket, s.size, conaccSize]

@[simp] theorem length_numberPacket (t : UInt8) : (numberPacket t s n).length = accSize := by
  simp [numberPacket, s.size, accSize]

@[simp] theorem length_dataHeader (len : Nat) : (dataHeader s n len).length = dataHeaderSize := by
  simp [dataHeader, s.size, dataHeaderSize]

@[simp] theorem length_dataPacket (payload : List UInt8) :
    (dataPacket s n payload).length = dataHeaderSize + payload.length := by
  simp [dataPacket]

@[simp] theorem packetType_connPacket (p : UInt8) :
    packetType (connPacket s p n) = connPacketType := rfl

@[simp] theorem packetType_sessionPacket (t : UInt8) :
    packetType (sessionPacket t s) = t := rfl

@[simp] theorem packetType_numberPacket (t : UInt8) :
    packetType (numberPacket t s n) = t := rfl

@[simp] theorem packetType_conaccPacket : packetType (conaccPacket s) = conaccPacketType := rfl

@[simp] theorem packetType_conrjtPacket : packetType (conrjtPacket s) = conrjtPacketType := rfl

@[simp] theorem packetType_rcvdPacket : packetType (rcvdPacket s) = rcvdPacketType := rfl

@[simp] theorem packetType_accPacket : packetType (accPacket s n) = accPacketType := rfl

@[simp] theorem packetType_rjtPacket : packetType (rjtPacket s n) = rjtPacketType := rfl

@[simp] theorem packetType_dataPacket (payload : List UInt8) :
    packetType (dataPacket s n payload) = dataPacketType := rfl

private theorem sessionField_append (t : UInt8) (rest : List UInt8) :
    sessionField ([t] ++ s.bytes ++ rest) = s.bytes :=
  slice_mid rfl s.size.symm

@[simp] theorem sessionField_connPacket (p : UInt8) :
    sessionField (connPacket s p n) = s.bytes := by
  unfold connPacket
  rw [List.append_assoc ([connPacketType] ++ s.bytes)]
  exact sessionField_append s _ _

@[simp] theorem sessionField_sessionPacket (t : UInt8) :
    sessionField (sessionPacket t s) = s.bytes := by
  simpa [sessionPacket] using sessionField_append s t []

@[simp] theorem sessionField_numberPacket (t : UInt8) :
    sessionField (numberPacket t s n) = s.bytes :=
  sessionField_append s _ _

@[simp] theorem sessionField_dataHeader (len : Nat) :
    sessionField (dataHeader s n len) = s.bytes := by
  unfold dataHeader
  rw [List.append_assoc ([dataPacketType] ++ s.bytes)]
  exact sessionField_append s _ _

@[simp] theorem readSessionId_connPacket (p : UInt8) :
    readSessionId (connPacket s p n) = s := by
  simp [readSessionId, s.size]

@[simp] theorem protocolIdField_connPacket (p : UInt8) :
    protocolIdField (connPacket s p n) = p := by
  simp [protocolIdField, connPacket, s.size]

@[simp] theorem dataLenField_connPacket (p : UInt8) :
    dataLenField (connPacket s p n) = n % 2 ^ 64 := by
  unfold dataLenField connPacket
  rw [slice_last (by simp [s.size]) (by simp), ofBytes_toBytes]
  rfl

@[simp] theorem numberField_numberPacket (t : UInt8) :
    numberField (numberPacket t s n) = n % 2 ^ 64 := by
  unfold numberField numberPacket
  rw [slice_last (by simp [s.size]) (by simp), ofBytes_toBytes]
  rfl

@[simp] theorem numberField_dataHeader (len : Nat) :
    numberField (dataHeader s n len) = n % 2 ^ 64 := by
  unfold numberField dataHeader
  rw [slice_mid (by simp [s.size]) (by simp), ofBytes_toBytes]
  rfl

@[simp] theorem dataBytesLenField_dataHeader (len : Nat) :
    dataBytesLenField (dataHeader s n len) = len % 2 ^ 32 := by
  unfold dataBytesLenField dataHeader
  rw [slice_last (by simp [s.size]) (by simp), ofBytes_toBytes]
  rfl

private theorem slice_dataPacket {offset width : Nat} (h : offset + width ≤ dataHeaderSize)
    (payload : List UInt8) : slice (dataPacket s n payload) offset width =
      slice (dataHeader s n payload.length) offset width := by
  rw [dataPacket, slice_append_left (by simpa using h)]

@[simp] theorem sessionField_dataPacket (payload : List UInt8) :
    sessionField (dataPacket s n payload) = s.bytes :=
  (slice_dataPacket s n (by decide) payload).trans (sessionField_dataHeader s n _)

@[simp] theorem numberField_dataPacket (payload : List UInt8) :
    numberField (dataPacket s n payload) = n % 2 ^ 64 :=
  (congrArg ofBytes (slice_dataPacket s n (by decide) payload)).trans
    (numberField_dataHeader s n _)

@[simp] theorem dataBytesLenField_dataPacket (payload : List UInt8) :
    dataBytesLenField (dataPacket s n payload) = payload.length % 2 ^ 32 :=
  (congrArg ofBytes (slice_dataPacket s n (by decide) payload)).trans
    (dataBytesLenField_dataHeader s n _)

@[simp] theorem payloadField_dataPacket (payload : List UInt8) :
    payloadField (dataPacket s n payload) = payload := by
  unfold payloadField dataPacket
  exact List.drop_left' (length_dataHeader s n payload.length)

end RoundTrip

end Mimuw.Ppcb
