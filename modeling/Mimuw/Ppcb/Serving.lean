import Mimuw.Ppcb.Network

/-!
# One serving of a session

What the server has accepted in one serving of the session is the data cut at a
chunk boundary.  The invariant ties the counters of the server to that prefix;
it rests on the client having sent nothing but its CONN and its chunks under
their own numbers.
-/

namespace Mimuw.Ppcb

open Mimuw.Lib

/-! ## Truncated reads -/

@[simp] theorem packetType_take (bytes : Datagram) {k : Nat} (hk : 0 < k) :
    packetType (bytes.take k) = packetType bytes := by
  cases bytes with
  | nil => simp
  | cons b rest =>
      cases k with
      | zero => omega
      | succ k => rfl

@[simp] theorem sessionField_take (bytes : Datagram) {k : Nat} (hk : 9 ≤ k) :
    sessionField (bytes.take k) = sessionField bytes := by
  have hmin : min 8 (k - 1) = 8 := by omega
  simp [sessionField, slice, List.drop_take, List.take_take, hmin]

/-! ## Chunks -/

section Chunks

variable (data : List UInt8) (n : Nat)

theorem take_succ_chunk :
    data.take ((n + 1) * bufferSize) = data.take (n * bufferSize) ++ chunk data n := by
  rw [Nat.succ_mul, List.take_add]
  rfl

theorem length_chunk_le : (chunk data n).length ≤ bufferSize := by
  simp [chunk]

theorem length_chunk : (chunk data n).length = min bufferSize (data.length - n * bufferSize) := by
  simp [chunk]

@[simp] theorem chunk_zero : chunk data 0 = data.take bufferSize := by
  simp [chunk]

theorem offset_succ {data : List UInt8} {n : Nat} (h : n * bufferSize < data.length) :
    n * bufferSize + (chunk data n).length = min ((n + 1) * bufferSize) data.length := by
  rw [length_chunk, Nat.succ_mul]
  omega

end Chunks

/-! ## What the server's receive loops let through -/

/-- The checks that every accepted DATA packet has passed. -/
structure Accepts (session : Session) (packetNumber readSize dataLen : Nat)
    (source : SockAddr) (bytes : Datagram) (payload : List UInt8) : Prop where
  source_eq : source = session.clientAddr
  session_eq : sessionField bytes = session.sessionId.bytes
  type_eq : packetType bytes = dataPacketType
  number_eq : numberField (bytes.take maxLen) = packetNumber
  payload_eq : payload = payloadField (bytes.take maxLen)
  fits : (readSize + payload.length) % 2 ^ 64 ≤ dataLen
  nonempty : 0 < payload.length

private theorem length_payloadField {b : Datagram} (hlen : ¬ b.length < dataHeaderSize)
    (h : ¬ b.length ≠ dataHeaderSize + dataBytesLenField b) :
    (payloadField b).length = dataBytesLenField b := by
  simp only [payloadField, List.length_drop]
  omega

/-- The loop goes on past a check only when the check holds. -/
private theorem passes_check {p : Prop} [Decidable p] {session : Session}
    {packetNumber : Nat} {rest : Sends × Received} {sends : Sends} {payload : List UInt8} :
    (if p then rejectClient session packetNumber else rest) = (sends, .ok payload) ↔
      ¬ p ∧ rest = (sends, .ok payload) := by
  by_cases h : p <;> simp [h, rejectClient]

private theorem passes_skip {p : Prop} [Decidable p] {skipped : Sends}
    {rest : Sends × Received} {sends : Sends} {payload : List UInt8} :
    (if p then (skipped, Received.again) else rest) = (sends, .ok payload) ↔
      ¬ p ∧ rest = (sends, .ok payload) := by
  by_cases h : p <;> simp [h]

private theorem recvDataPackets_ok {session : Session} {packetNumber readSize dataLen : Nat}
    {source : SockAddr} {bytes : Datagram} {sends : Sends} {payload : List UInt8}
    (h : recvDataPackets session packetNumber readSize dataLen source bytes =
      (sends, .ok payload)) :
    sends = [] ∧
      Accepts session packetNumber readSize dataLen source bytes payload := by
  unfold recvDataPackets at h
  by_cases hsource : source = session.clientAddr
  · rw [if_neg (not_not.mpr hsource)] at h
    simp only [passes_check, Prod.mk.injEq, Received.ok.injEq] at h
    obtain ⟨hlen, hsize, hroom, hsession, htype, hnumber, hbounds, hsends, hpayload⟩ := h
    have hlength := length_payloadField hlen hsize
    rw [hpayload] at hlength
    simp only [not_or, not_lt, minDataLen] at hbounds
    refine ⟨hsends.symm, ⟨hsource, ?_, ?_, not_not.mp hnumber, hpayload.symm, ?_, ?_⟩⟩
    · simpa [maxLen] using hsession
    · simpa [maxLen] using htype
    · omega
    · omega
  · rw [if_pos hsource] at h
    simp only [passes_skip, Prod.mk.injEq, reduceCtorEq, and_false] at h

private theorem recvDataPacketRetr_ok {session : Session} {packetNumber readSize dataLen : Nat}
    {source : SockAddr} {bytes : Datagram} {sends : Sends} {payload : List UInt8}
    (h : recvDataPacketRetr session packetNumber readSize dataLen source bytes =
      (sends, .ok payload)) :
    sends = [] ∧
      Accepts session packetNumber readSize dataLen source bytes payload := by
  unfold recvDataPacketRetr at h
  by_cases hsource : source = session.clientAddr
  · rw [if_neg (not_not.mpr hsource)] at h
    simp only [passes_check, passes_skip, Prod.mk.injEq, Received.ok.injEq] at h
    obtain ⟨-, hlen, hsize, hsession, htype, hroom, hbounds, -, hnumber, hsends,
      hpayload⟩ := h
    have hlength := length_payloadField hlen hsize
    rw [hpayload] at hlength
    simp only [not_or, not_lt, minDataLen] at hbounds
    refine ⟨hsends.symm, ⟨hsource, ?_, ?_, not_not.mp hnumber, hpayload.symm, ?_, ?_⟩⟩
    · simpa [maxLen] using hsession
    · simpa [maxLen] using htype
    · omega
    · omega
  · rw [if_pos hsource] at h
    simp only [passes_skip, Prod.mk.injEq, reduceCtorEq, and_false] at h

/-- An accepted payload ends where its datagram ends, inside the buffer. -/
structure Fills (bytes : Datagram) (payload : List UInt8) : Prop where
  payload_eq : payload = payloadField (bytes.take maxLen)
  size : (bytes.take maxLen).length = dataHeaderSize + dataBytesLenField (bytes.take maxLen)
  fits : dataBytesLenField (bytes.take maxLen) ≤ maxDataLen

theorem recvDataPackets_fills {session : Session} {packetNumber readSize dataLen : Nat}
    {source : SockAddr} {bytes : Datagram} {sends : Sends} {payload : List UInt8}
    (h : recvDataPackets session packetNumber readSize dataLen source bytes =
      (sends, .ok payload)) : Fills bytes payload := by
  have hsource := (recvDataPackets_ok h).2.source_eq
  unfold recvDataPackets at h
  rw [if_neg (not_not.mpr hsource)] at h
  simp only [passes_check, Prod.mk.injEq, Received.ok.injEq] at h
  obtain ⟨-, hsize, -, -, -, -, hbounds, -, hpayload⟩ := h
  exact ⟨hpayload.symm, not_not.mp hsize, not_lt.mp fun hlt => hbounds (.inr hlt)⟩

theorem recvDataPacketRetr_fills {session : Session} {packetNumber readSize dataLen : Nat}
    {source : SockAddr} {bytes : Datagram} {sends : Sends} {payload : List UInt8}
    (h : recvDataPacketRetr session packetNumber readSize dataLen source bytes =
      (sends, .ok payload)) : Fills bytes payload := by
  have hsource := (recvDataPacketRetr_ok h).2.source_eq
  unfold recvDataPacketRetr at h
  rw [if_neg (not_not.mpr hsource)] at h
  simp only [passes_check, passes_skip, Prod.mk.injEq, Received.ok.injEq] at h
  obtain ⟨-, -, hsize, -, -, -, hbounds, -, -, -, hpayload⟩ := h
  exact ⟨hpayload.symm, not_not.mp hsize, not_lt.mp fun hlt => hbounds (.inr hlt)⟩

theorem recvConnPacket_some {bytes : Datagram} {p : ConnPacket}
    (h : recvConnPacket bytes = some p) :
    packetType bytes = connPacketType ∧ sessionField bytes = p.sessionId.bytes ∧
      p.dataLen = dataLenField (bytes.take connSize) := by
  simp only [recvConnPacket] at h
  split_ifs at h with hlen htype hprotocol
  all_goals simp only [Option.some.injEq] at h
  subst h
  have hsize : (sessionField bytes).length = 8 := by
    simp only [connSize, List.length_take] at hlen
    simp only [sessionField, slice, List.length_take, List.length_drop]
    omega
  refine ⟨by simpa [connSize] using htype, ?_, rfl⟩
  have hk : 9 ≤ connSize := by simp [connSize]
  simp only [readSessionId, sessionField_take bytes hk]
  rw [List.take_append_of_le_length (by omega), List.take_of_length_le (by omega)]

/-! ## What the client sends -/

/-- A datagram the client of the transfer sends. -/
def Genuine (c : Transfer) (bytes : Datagram) : Prop :=
  bytes = c.conn ∨ ∃ m, m * bufferSize < c.data.length ∧ bytes = c.dataNumber m

section Genuine

variable {c : Transfer}

theorem number_small {m : Nat} (h : m * bufferSize < c.data.length) : m < 2 ^ 64 := by
  have := c.fits
  simp only [Transfer.data, bufferSize] at h
  omega

/-- The counter of packets does not come round within the data. -/
theorem number_succ {m : Nat} (h : m * bufferSize < c.data.length) :
    (m + 1) % 2 ^ 64 = m + 1 := by
  have := c.fits
  simp only [Transfer.data, bufferSize] at h
  exact Nat.mod_eq_of_lt (by omega)

@[simp] theorem packetType_conn : packetType c.conn = connPacketType := by
  simp [Transfer.conn]

@[simp] theorem packetType_dataNumber (m : Nat) :
    packetType (c.dataNumber m) = dataPacketType := by
  simp [Transfer.dataNumber]

@[simp] theorem sessionField_conn : sessionField c.conn = c.client.sessionId.bytes := by
  simp [Transfer.conn]

@[simp] theorem sessionField_dataNumber (m : Nat) :
    sessionField (c.dataNumber m) = c.client.sessionId.bytes := by
  simp [Transfer.dataNumber]

@[simp] theorem length_conn : c.conn.length = connSize := by
  simp [Transfer.conn]

@[simp] theorem length_dataNumber (m : Nat) :
    (c.dataNumber m).length = dataHeaderSize + (chunk c.data m).length := by
  simp [Transfer.dataNumber]

@[simp] theorem take_dataNumber (m : Nat) :
    (c.dataNumber m).take maxLen = c.dataNumber m := by
  have hchunk := length_chunk_le c.data m
  have hlen : (c.dataNumber m).length ≤ maxLen := by
    simp only [length_dataNumber, dataHeaderSize, maxLen, bufferSize] at hchunk ⊢
    omega
  exact List.take_of_length_le hlen

theorem numberField_dataNumber {m : Nat} (h : m * bufferSize < c.data.length) :
    numberField (c.dataNumber m) = m := by
  simp only [Transfer.dataNumber, numberField_dataPacket]
  exact Nat.mod_eq_of_lt (number_small h)

@[simp] theorem payloadField_dataNumber (m : Nat) :
    payloadField (c.dataNumber m) = chunk c.data m := by
  simp [Transfer.dataNumber]

@[simp] theorem dataBytesLenField_dataNumber (m : Nat) :
    dataBytesLenField (c.dataNumber m) = (chunk c.data m).length := by
  have hchunk := length_chunk_le c.data m
  simp only [Transfer.dataNumber, dataBytesLenField_dataPacket]
  simp only [bufferSize] at hchunk
  omega

/-- A genuine packet that passes the checks for DATA `n` carries chunk `n`. -/
private theorem Accepts.genuine {packetNumber readSize dataLen : Nat} {source : SockAddr}
    {bytes : Datagram} {payload : List UInt8}
    (h : Accepts c.session packetNumber readSize dataLen source bytes payload)
    (hgenuine : Genuine c bytes) :
    payload = chunk c.data packetNumber ∧ packetNumber * bufferSize < c.data.length := by
  rcases hgenuine with rfl | ⟨m, hm, rfl⟩
  · have htype := h.type_eq
    simp [connPacketType, dataPacketType] at htype
  · have hnumber := h.number_eq
    have hpayload := h.payload_eq
    rw [take_dataNumber, numberField_dataNumber hm] at hnumber
    rw [take_dataNumber, payloadField_dataNumber] at hpayload
    subst hnumber
    exact ⟨hpayload, hm⟩

end Genuine

/-! ## The server's side of the invariant -/

/-- The datagrams of the session's client in front of the server are genuine. -/
def ServerHears (c : Transfer) (source : SockAddr) (bytes : Datagram) : Prop :=
  source = c.clientAddr → sessionField bytes = c.client.sessionId.bytes → Genuine c bytes

def ServerHearsEvent (c : Transfer) : Event → Prop
  | .datagram source bytes => ServerHears c source bytes
  | .timeout => True

/-- How the variables of the server stand to what it has accepted, in a serving
of the session. -/
def Progress (c : Transfer) (accepted : List UInt8) : ServerState → Prop
  | .waitConn => True
  | .recvData _ dataLen readSize packetNumber =>
      dataLen = c.data.length ∧ readSize = accepted.length ∧ readSize < dataLen ∧
        accepted = c.data.take (packetNumber * bufferSize)
  | .recvFirst _ dataLen _ => dataLen = c.data.length ∧ accepted = []
  | .recvNext _ dataLen readSize packetNumber _ =>
      1 ≤ packetNumber ∧ dataLen + (chunk c.data 0).length = c.data.length ∧
        readSize + (chunk c.data 0).length = accepted.length ∧ readSize < dataLen ∧
        accepted = c.data.take (packetNumber * bufferSize)

/-- What holds of a serving that was opened. -/
def HandlingOk (c : Transfer) (h : Handling) : Prop :=
  h.session = c.session →
    h.accepted <+: c.data ∧ (h.rcvdSent → h.accepted = c.data)

structure ServerOk (c : Transfer) (server : ServerState) (handlings : List Handling) :
    Prop where
  handlingsOk : ∀ h ∈ handlings, HandlingOk c h
  current : ∀ session, server.session? = some session →
    ∃ accepted rest, handlings = ⟨session, accepted, false⟩ :: rest ∧
      (session = c.session → Progress c accepted server)

@[simp] theorem record_goto (handlings : List Handling) (state : ServerState) (sends : Sends) :
    record handlings (.goto state sends) = handlings := by
  cases handlings <;> simp [record, Reaction.goto]

section Server

variable {c : Transfer} {handlings : List Handling} {server : ServerState}

theorem ServerOk.waiting (h : ServerOk c server handlings) : ServerOk c .waitConn handlings :=
  ⟨h.handlingsOk, fun _ hsession => by simp [ServerState.session?] at hsession⟩

/-- Where the server may be after it has taken `accepted` in all. -/
structure Advances (c : Transfer) (accepted : List UInt8) (r : Reaction) : Prop where
  within : accepted <+: c.data
  completed : r.completed → accepted = c.data
  progress : Progress c accepted r.state

theorem ServerOk.accept {r : Reaction} {session : Session}
    (hok : ServerOk c server handlings) (hsession : server.session? = some session)
    (hopened : r.opened = none)
    (hstate : ∀ s, r.state.session? = some s → s = session ∧ r.completed = false)
    (hadvances : ∀ before, session = c.session → Progress c before server →
      Advances c (before ++ r.accepted) r) :
    ServerOk c r.state (record handlings r) := by
  obtain ⟨before, rest, rfl, hprogress⟩ := hok.current session hsession
  have hrecord : record (⟨session, before, false⟩ :: rest) r =
      ⟨session, before ++ r.accepted, r.completed⟩ :: rest := by
    simp [record, hopened]
  rw [hrecord]
  constructor
  · intro h hmem
    rcases List.mem_cons.mp hmem with rfl | hmem
    · intro hours
      have hadv := hadvances before hours (hprogress hours)
      exact ⟨hadv.within, hadv.completed⟩
    · exact hok.handlingsOk h (List.mem_cons_of_mem _ hmem)
  · intro s hs
    obtain ⟨rfl, hcompleted⟩ := hstate s hs
    refine ⟨before ++ r.accepted, rest, by rw [hcompleted], fun hours => ?_⟩
    exact (hadvances before hours (hprogress hours)).progress

theorem ServerOk.open {r : Reaction} (session : Session)
    (hok : ServerOk c server handlings) (hopened : r.opened = some session)
    (hstate : ∀ s, r.state.session? = some s → s = session ∧ r.completed = false)
    (hadvances : session = c.session → Advances c r.accepted r) :
    ServerOk c r.state (record handlings r) := by
  have hrecord : record handlings r =
      ⟨session, r.accepted, r.completed⟩ :: handlings := by
    simp [record, hopened]
  rw [hrecord]
  constructor
  · intro h hmem
    rcases List.mem_cons.mp hmem with rfl | hmem
    · intro hours
      exact ⟨(hadvances hours).within, (hadvances hours).completed⟩
    · exact hok.handlingsOk h hmem
  · intro s hs
    obtain ⟨rfl, hcompleted⟩ := hstate s hs
    exact ⟨r.accepted, handlings, by rw [hcompleted], fun hours => (hadvances hours).progress⟩

/-! ### The tops of the loops -/

private theorem prefix_take_chunk {data accepted payload : List UInt8} {n : Nat}
    (haccepted : accepted = data.take (n * bufferSize)) (hpayload : payload = chunk data n) :
    accepted ++ payload = data.take ((n + 1) * bufferSize) := by
  rw [haccepted, hpayload, take_succ_chunk]

/-- No sum of the lengths of packets of the data comes round. -/
private theorem length_take_small {accepted : List UInt8} {k : Nat} (h : accepted = c.data.take k) :
    accepted.length < 2 ^ 64 :=
  Nat.lt_of_le_of_lt (h ▸ List.length_take_le' k c.data) c.fits

private theorem eq_of_prefix_of_length {data accepted : List UInt8} (h : accepted <+: data)
    (hlen : data.length ≤ accepted.length) : accepted = data :=
  h.eq_of_length_le hlen

private theorem loopRecvData_advances {accepted payload : List UInt8} {session : Session}
    {sends : Sends} {opened : Option Session} (packetNumber : Nat)
    (haccepted : accepted = c.data.take (packetNumber * bufferSize)) :
    Advances c accepted
      (loopRecvData session c.data.length accepted.length packetNumber sends opened
        payload) := by
  have hwithin : accepted <+: c.data := haccepted ▸ List.take_prefix _ _
  simp only [loopRecvData]
  split
  · rename_i hless
    exact ⟨hwithin, by simp, rfl, rfl, hless, haccepted⟩
  · rename_i hless
    exact ⟨hwithin, fun _ => eq_of_prefix_of_length hwithin (by omega), trivial⟩

/-- `send_acc_packet_and_recv_data_packet`, whose sizes leave out chunk 0. -/
private theorem loopSendAcc_advances {accepted payload : List UInt8} {session : Session}
    {dataLen readSize packetNumber : Nat}
    (haccepted : accepted = c.data.take ((packetNumber + 1) * bufferSize))
    (hdataLen : dataLen + (chunk c.data 0).length = c.data.length)
    (hreadSize : readSize + (chunk c.data 0).length = accepted.length) :
    Advances c accepted (loopSendAcc session dataLen readSize packetNumber payload) := by
  have hwithin : accepted <+: c.data := haccepted ▸ List.take_prefix _ _
  have hle := hwithin.length_le
  simp only [loopSendAcc]
  split
  · exact ⟨hwithin, fun _ => eq_of_prefix_of_length hwithin (by omega), trivial⟩
  · rename_i hless
    have hnumber : packetNumber * bufferSize < c.data.length := by
      have hlength := congrArg List.length haccepted
      rw [List.length_take, Nat.succ_mul] at hlength
      omega
    rw [number_succ hnumber]
    exact ⟨hwithin, by simp, by omega, hdataLen, hreadSize, by omega, haccepted⟩

@[simp] theorem loopRecvData_opened {session : Session} {dataLen readSize packetNumber : Nat}
    {sends : Sends} {opened : Option Session} {accepted : List UInt8} :
    (loopRecvData session dataLen readSize packetNumber sends opened accepted).opened =
      opened := by
  unfold loopRecvData
  split <;> rfl

@[simp] theorem loopRecvData_accepted {session : Session} {dataLen readSize packetNumber : Nat}
    {sends : Sends} {opened : Option Session} {accepted : List UInt8} :
    (loopRecvData session dataLen readSize packetNumber sends opened accepted).accepted =
      accepted := by
  unfold loopRecvData
  split <;> rfl

theorem loopRecvData_session {session s : Session} {dataLen readSize packetNumber : Nat}
    {sends : Sends} {opened : Option Session} {accepted : List UInt8}
    (h : (loopRecvData session dataLen readSize packetNumber sends opened
      accepted).state.session? = some s) :
    s = session ∧ (loopRecvData session dataLen readSize packetNumber sends opened
      accepted).completed = false := by
  unfold loopRecvData at h ⊢
  split at h <;> simp_all [ServerState.session?]

@[simp] theorem loopSendAcc_opened {session : Session} {dataLen readSize packetNumber : Nat}
    {accepted : List UInt8} :
    (loopSendAcc session dataLen readSize packetNumber accepted).opened = none := by
  unfold loopSendAcc
  split <;> rfl

@[simp] theorem loopSendAcc_accepted {session : Session} {dataLen readSize packetNumber : Nat}
    {accepted : List UInt8} :
    (loopSendAcc session dataLen readSize packetNumber accepted).accepted = accepted := by
  unfold loopSendAcc
  split <;> rfl

theorem loopSendAcc_session {session s : Session} {dataLen readSize packetNumber : Nat}
    {accepted : List UInt8}
    (h : (loopSendAcc session dataLen readSize packetNumber accepted).state.session? =
      some s) :
    s = session ∧
      (loopSendAcc session dataLen readSize packetNumber accepted).completed = false := by
  unfold loopSendAcc at h ⊢
  split at h <;> simp_all [ServerState.session?]

/-! ### One reaction -/

private theorem conn_dataLen {source : SockAddr} {bytes : Datagram} {p : ConnPacket}
    (h : recvConnPacket bytes = some p) (hhears : ServerHears c source bytes)
    (hours : (⟨source, p.sessionId⟩ : Session) = c.session) :
    p.dataLen = c.data.length := by
  obtain ⟨htype, hsession, hdataLen⟩ := recvConnPacket_some h
  simp only [Transfer.session, Session.mk.injEq] at hours
  rcases hhears hours.1 (hours.2 ▸ hsession) with rfl | ⟨m, _, rfl⟩
  · rw [hdataLen, List.take_of_length_le (by simp)]
    simp only [Transfer.conn, dataLenField_connPacket]
    exact Nat.mod_eq_of_lt c.fits
  · simp [connPacketType, dataPacketType] at htype

private theorem Accepts.chunk_eq {packetNumber readSize dataLen : Nat} {source : SockAddr}
    {bytes : Datagram} {payload : List UInt8} {session : Session}
    (h : Accepts session packetNumber readSize dataLen source bytes payload)
    (hhears : ServerHears c source bytes) (hours : session = c.session) :
    payload = chunk c.data packetNumber ∧ packetNumber * bufferSize < c.data.length := by
  subst hours
  exact h.genuine (hhears h.source_eq h.session_eq)

private theorem serverOk_waitConn {source : SockAddr} {bytes : Datagram}
    (hok : ServerOk c .waitConn handlings) (hhears : ServerHears c source bytes) :
    ServerOk c (handleUdpConnection .waitConn (.datagram source bytes)).state
      (record handlings (handleUdpConnection .waitConn (.datagram source bytes))) := by
  simp only [handleUdpConnection]
  split
  · rw [record_goto]
    exact hok
  · rename_i p hconn
    split
    · apply hok.open ⟨source, p.sessionId⟩ (by simp)
      · exact fun s hs => loopRecvData_session hs
      · intro hours
        rw [conn_dataLen hconn hhears hours, loopRecvData_accepted]
        have hnone : [] = c.data.take (0 * bufferSize) := by simp
        exact loopRecvData_advances 0 hnone
    · apply hok.open ⟨source, p.sessionId⟩ rfl
      · intro s hs
        simp only [ServerState.session?, Option.some.injEq] at hs
        exact ⟨hs.symm, rfl⟩
      · intro hours
        exact ⟨List.nil_prefix, by simp, conn_dataLen hconn hhears hours, rfl⟩

private theorem serverOk_recvData {session : Session} {dataLen readSize packetNumber : Nat}
    {source : SockAddr} {bytes : Datagram}
    (hok : ServerOk c (.recvData session dataLen readSize packetNumber) handlings)
    (hhears : ServerHears c source bytes) :
    ServerOk c
      (handleUdpConnection (.recvData session dataLen readSize packetNumber)
        (.datagram source bytes)).state
      (record handlings
        (handleUdpConnection (.recvData session dataLen readSize packetNumber)
          (.datagram source bytes))) := by
  simp only [handleUdpConnection]
  split
  · rw [record_goto]
    exact hok
  · rw [record_goto]
    exact hok.waiting
  · rename_i sends payload hrecv
    obtain ⟨-, haccepts⟩ := recvDataPackets_ok hrecv
    apply hok.accept rfl (by simp) (fun s hs => loopRecvData_session hs)
    rintro accepted hours ⟨rfl, rfl, -, haccepted⟩
    obtain ⟨hpayload, hnumber⟩ := haccepts.chunk_eq hhears hours
    have hnext := prefix_take_chunk haccepted hpayload
    rw [loopRecvData_accepted, ← List.length_append, number_succ hnumber,
      Nat.mod_eq_of_lt (length_take_small hnext)]
    exact loopRecvData_advances _ hnext

private theorem serverOk_recvFirst {session : Session} {dataLen attempts : Nat}
    {source : SockAddr} {bytes : Datagram}
    (hok : ServerOk c (.recvFirst session dataLen attempts) handlings)
    (hhears : ServerHears c source bytes) :
    ServerOk c
      (handleUdpConnection (.recvFirst session dataLen attempts)
        (.datagram source bytes)).state
      (record handlings
        (handleUdpConnection (.recvFirst session dataLen attempts)
          (.datagram source bytes))) := by
  simp only [handleUdpConnection]
  split
  · rw [record_goto]
    exact hok
  · rw [record_goto]
    exact hok.waiting
  · rename_i sends payload hrecv
    obtain ⟨-, haccepts⟩ := recvDataPacketRetr_ok hrecv
    apply hok.accept rfl (by simp) (fun s hs => loopSendAcc_session hs)
    rintro accepted hours ⟨rfl, rfl⟩
    obtain ⟨rfl, -⟩ := haccepts.chunk_eq hhears hours
    have hchunk := List.length_take_le' bufferSize c.data
    rw [loopSendAcc_accepted]
    apply loopSendAcc_advances
    · exact prefix_take_chunk (by simp [firstPacketNumber]) rfl
    · rw [firstPacketNumber, chunk_zero]
      omega
    · simp [firstPacketNumber]

private theorem serverOk_recvNext {session : Session}
    {dataLen readSize packetNumber attempts : Nat} {source : SockAddr} {bytes : Datagram}
    (hok : ServerOk c (.recvNext session dataLen readSize packetNumber attempts) handlings)
    (hhears : ServerHears c source bytes) :
    ServerOk c
      (handleUdpConnection (.recvNext session dataLen readSize packetNumber attempts)
        (.datagram source bytes)).state
      (record handlings
        (handleUdpConnection (.recvNext session dataLen readSize packetNumber attempts)
          (.datagram source bytes))) := by
  simp only [handleUdpConnection]
  split
  · rw [record_goto]
    exact hok
  · rw [record_goto]
    exact hok.waiting
  · rename_i sends payload hrecv
    obtain ⟨-, haccepts⟩ := recvDataPacketRetr_ok hrecv
    apply hok.accept rfl (by simp) (fun s hs => loopSendAcc_session hs)
    rintro accepted hours ⟨-, hdataLen, hreadSize, -, haccepted⟩
    obtain ⟨rfl, -⟩ := haccepts.chunk_eq hhears hours
    have hnext := prefix_take_chunk haccepted rfl
    have hsmall := length_take_small hnext
    rw [List.length_append] at hsmall
    rw [loopSendAcc_accepted, Nat.mod_eq_of_lt (by omega)]
    apply loopSendAcc_advances hnext hdataLen
    simp only [List.length_append]
    omega

private theorem serverOk_timeout (hok : ServerOk c server handlings) :
    ServerOk c (handleUdpConnection server .timeout).state
      (record handlings (handleUdpConnection server .timeout)) := by
  cases server with
  | waitConn => exact (record_goto ..).symm ▸ hok
  | recvData session dataLen readSize packetNumber => exact (record_goto ..).symm ▸ hok.waiting
  | recvFirst session dataLen attempts =>
      simp only [handleUdpConnection]
      split
      · rw [record_goto]
        exact ⟨hok.handlingsOk, hok.current⟩
      · rw [record_goto]
        exact hok.waiting
  | recvNext session dataLen readSize packetNumber attempts =>
      simp only [handleUdpConnection]
      split
      · rw [record_goto]
        exact ⟨hok.handlingsOk, hok.current⟩
      · rw [record_goto]
        exact hok.waiting

theorem serverOk_react {event : Event} (hok : ServerOk c server handlings)
    (hhears : ServerHearsEvent c event) :
    ServerOk c (handleUdpConnection server event).state
      (record handlings (handleUdpConnection server event)) := by
  cases event with
  | timeout => exact serverOk_timeout hok
  | datagram source bytes =>
      cases server with
      | waitConn => exact serverOk_waitConn hok hhears
      | recvData session dataLen readSize packetNumber => exact serverOk_recvData hok hhears
      | recvFirst session dataLen attempts => exact serverOk_recvFirst hok hhears
      | recvNext session dataLen readSize packetNumber attempts =>
          exact serverOk_recvNext hok hhears

end Server

/-! ## What the server sends -/

/-- CONRJT and RJT packets, to anybody. -/
inductive Rejection : SockAddr × Datagram → Prop where
  | conrjt (destination : SockAddr) (id : SessionId) :
      Rejection (destination, conrjtPacket id)
  | rjt (destination : SockAddr) (id : SessionId) (packetNumber : Nat) :
      Rejection (destination, rjtPacket id packetNumber)

private def RejectsOnly (r : Sends × Received) : Prop := ∀ d ∈ r.1, Rejection d

private theorem RejectsOnly.ite {p : Prop} [Decidable p] {r r' : Sends × Received}
    (h : RejectsOnly r) (h' : RejectsOnly r') : RejectsOnly (if p then r else r') := by
  by_cases hp : p
  · simpa only [if_pos hp] using h
  · simpa only [if_neg hp] using h'

private theorem rejectsOnly_nil (received : Received) : RejectsOnly ([], received) := by
  simp [RejectsOnly]

private theorem rejectsOnly_rejectClient (session : Session) (packetNumber : Nat) :
    RejectsOnly (rejectClient session packetNumber) :=
  List.forall_mem_singleton.mpr (.rjt _ _ _)

private theorem recvDataPackets_sends (session : Session) (packetNumber readSize dataLen : Nat)
    (source : SockAddr) (bytes : Datagram) :
    ∀ d ∈ (recvDataPackets session packetNumber readSize dataLen source bytes).1,
      Rejection d := by
  have hreject := rejectsOnly_rejectClient session packetNumber
  have hconrjt := List.forall_mem_singleton.mpr
    (Rejection.conrjt source (readSessionId (bytes.take maxLen)))
  have hrjt := List.forall_mem_singleton.mpr
    (Rejection.rjt source (readSessionId (bytes.take maxLen)) packetNumber)
  refine RejectsOnly.ite ?_ ?_
  · exact .ite hconrjt (.ite hrjt (rejectsOnly_nil _))
  · exact .ite hreject (.ite hreject (.ite hreject (.ite hreject (.ite hreject
      (.ite hreject (.ite hreject (rejectsOnly_nil _)))))))

private theorem recvDataPacketRetr_sends (session : Session) (packetNumber readSize dataLen : Nat)
    (source : SockAddr) (bytes : Datagram) :
    ∀ d ∈ (recvDataPacketRetr session packetNumber readSize dataLen source bytes).1,
      Rejection d := by
  have hreject := rejectsOnly_rejectClient session packetNumber
  have hconrjt := List.forall_mem_singleton.mpr
    (Rejection.conrjt source (readSessionId (bytes.take maxLen)))
  have hrjt := List.forall_mem_singleton.mpr
    (Rejection.rjt source (readSessionId (bytes.take maxLen)) packetNumber)
  refine RejectsOnly.ite ?_ ?_
  · exact .ite hconrjt (.ite hrjt (rejectsOnly_nil _))
  · refine .ite (rejectsOnly_nil _) ?_
    exact .ite hreject (.ite hreject (.ite hreject (.ite hreject (.ite hreject
      (.ite hreject (.ite (rejectsOnly_nil _) (.ite hreject (rejectsOnly_nil _))))))))

/-- What a reaction may send while it serves `session?`; `P` holds of the
packet numbers acknowledged. -/
inductive ServerSends (P : Nat → Prop) (session? : Option Session) (completed : Bool) :
    SockAddr × Datagram → Prop where
  | rejection {d : SockAddr × Datagram} (h : Rejection d) :
      ServerSends P session? completed d
  | conacc {session : Session} (h : session? = some session) :
      ServerSends P session? completed (session.clientAddr, conaccPacket session.sessionId)
  | acc {session : Session} (h : session? = some session) {packetNumber : Nat}
      (hn : P packetNumber) :
      ServerSends P session? completed
        (session.clientAddr, accPacket session.sessionId packetNumber)
  | rcvd {session : Session} (h : session? = some session) (hcompleted : completed) :
      ServerSends P session? completed (session.clientAddr, rcvdPacket session.sessionId)

/-- `P` holds of the number the server has acknowledged last. -/
def Acked (P : Nat → Prop) : ServerState → Prop
  | .recvNext _ _ _ packetNumber _ => P ((packetNumber + (2 ^ 64 - 1)) % 2 ^ 64)
  | _ => True

/-- `P` holds of the packet number of a DATA packet. -/
def Carries (P : Nat → Prop) : Event → Prop
  | .datagram _ bytes =>
      packetType bytes = dataPacketType → P (numberField (bytes.take maxLen))
  | .timeout => True

/-- The reaction sends nothing else, and stays in its session and in step with `P`. -/
structure SendsOnly (P : Nat → Prop) (session? : Option Session) (r : Reaction) : Prop where
  sends : ∀ d ∈ r.sends, ServerSends P session? r.completed d
  acked : Acked P r.state
  session : ∀ session, r.state.session? = some session → session? = some session

section Sends

variable {P : Nat → Prop} {session : Session}

private theorem sendsOnly_loopRecvData {dataLen readSize packetNumber : Nat} {sends : Sends}
    {opened : Option Session} {accepted : List UInt8}
    (h : sends = [] ∨ sends = [(session.clientAddr, conaccPacket session.sessionId)]) :
    SendsOnly P (some session)
      (loopRecvData session dataLen readSize packetNumber sends opened accepted) := by
  have hsends : ∀ completed, ∀ d ∈ sends, ServerSends P (some session) completed d := by
    intro completed d hd
    rcases h with rfl | rfl
    · simp at hd
    · exact List.mem_singleton.mp hd ▸ .conacc rfl
  simp only [loopRecvData]
  split
  · exact ⟨hsends false, trivial, fun _ hs => hs⟩
  · refine ⟨fun d hd => ?_, trivial, by simp [ServerState.session?]⟩
    rcases List.mem_append.mp hd with hd | hd
    · exact hsends true d hd
    · cases List.mem_singleton.mp hd
      exact .rcvd rfl rfl

private theorem sendsOnly_loopSendAcc {dataLen readSize packetNumber : Nat} {accepted : List UInt8}
    (hn : P packetNumber) (hsmall : packetNumber < 2 ^ 64) :
    SendsOnly P (some session)
      (loopSendAcc session dataLen readSize packetNumber accepted) := by
  simp only [loopSendAcc]
  split
  · refine ⟨fun d hd => ?_, trivial, by simp [ServerState.session?]⟩
    simp only [List.mem_cons, List.not_mem_nil, or_false] at hd
    rcases hd with rfl | rfl
    · exact .acc rfl hn
    · exact .rcvd rfl rfl
  · have hlast : ((packetNumber + 1) % 2 ^ 64 + (2 ^ 64 - 1)) % 2 ^ 64 = packetNumber := by
      omega
    refine ⟨List.forall_mem_singleton.mpr (.acc rfl hn), ?_, fun _ hs => hs⟩
    simpa only [Acked, hlast] using hn

private theorem sendsOnly_waitConn {sends : Sends} {session? : Option Session}
    (hsends : ∀ d ∈ sends, Rejection d) :
    SendsOnly P session? (.goto .waitConn sends) :=
  ⟨fun d hd => .rejection (hsends d hd), trivial, by simp [Reaction.goto, ServerState.session?]⟩

private theorem sendsOnly_again {state : ServerState} {sends : Sends}
    (hsends : ∀ d ∈ sends, Rejection d) (hacked : Acked P state) :
    SendsOnly P state.session? (.goto state sends) :=
  ⟨fun d hd => .rejection (hsends d hd), hacked, fun _ hs => hs⟩

theorem handleUdpConnection_sends {server : ServerState} {event : Event}
    (hacked : Acked P server) (hcarries : Carries P event) :
    SendsOnly P ((handleUdpConnection server event).opened.or server.session?)
      (handleUdpConnection server event) := by
  cases event with
  | timeout =>
      cases server with
      | waitConn => exact sendsOnly_waitConn (by simp)
      | recvData session dataLen readSize packetNumber => exact sendsOnly_waitConn (by simp)
      | recvFirst session dataLen attempts =>
          simp only [handleUdpConnection]
          split
          · exact ⟨List.forall_mem_singleton.mpr (.conacc rfl), trivial, fun _ hs => hs⟩
          · exact sendsOnly_waitConn (by simp)
      | recvNext session dataLen readSize packetNumber attempts =>
          simp only [handleUdpConnection]
          split
          · exact ⟨List.forall_mem_singleton.mpr (.acc rfl hacked), hacked, fun _ hs => hs⟩
          · exact sendsOnly_waitConn (by simp)
  | datagram source bytes =>
      cases server with
      | waitConn =>
          simp only [handleUdpConnection]
          split
          · exact sendsOnly_waitConn (by simp)
          · split
            · rw [loopRecvData_opened]
              exact sendsOnly_loopRecvData (.inr rfl)
            · rename_i p _ _
              have hconacc : ServerSends P (some ⟨source, p.sessionId⟩) false
                  (source, conaccPacket p.sessionId) := .conacc rfl
              exact ⟨List.forall_mem_singleton.mpr hconacc, trivial, fun _ hs => hs⟩
      | recvData session dataLen readSize packetNumber =>
          have hsends := recvDataPackets_sends session packetNumber readSize dataLen
            source bytes
          simp only [handleUdpConnection]
          split
          · exact sendsOnly_again (by simp_all) hacked
          · exact sendsOnly_waitConn (by simp_all)
          · rename_i hrecv
            rw [loopRecvData_opened]
            exact sendsOnly_loopRecvData (.inl (recvDataPackets_ok hrecv).1)
      | recvFirst session dataLen attempts =>
          have hsends := recvDataPacketRetr_sends session firstPacketNumber 0 dataLen
            source bytes
          simp only [handleUdpConnection]
          split
          · exact sendsOnly_again (by simp_all) hacked
          · exact sendsOnly_waitConn (by simp_all)
          · rename_i hrecv
            have haccepts := (recvDataPacketRetr_ok hrecv).2
            rw [loopSendAcc_opened]
            exact sendsOnly_loopSendAcc (haccepts.number_eq ▸ hcarries haccepts.type_eq)
              (haccepts.number_eq ▸ numberField_lt _)
      | recvNext session dataLen readSize packetNumber attempts =>
          have hsends := recvDataPacketRetr_sends session packetNumber readSize dataLen
            source bytes
          simp only [handleUdpConnection]
          split
          · exact sendsOnly_again (by simp_all) hacked
          · exact sendsOnly_waitConn (by simp_all)
          · rename_i hrecv
            have haccepts := (recvDataPacketRetr_ok hrecv).2
            rw [loopSendAcc_opened]
            exact sendsOnly_loopSendAcc (haccepts.number_eq ▸ hcarries haccepts.type_eq)
              (haccepts.number_eq ▸ numberField_lt _)

end Sends

end Mimuw.Ppcb
