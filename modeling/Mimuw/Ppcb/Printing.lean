import Mathlib.Data.List.TakeWhile
import Mimuw.Lib.Reactions
import Mimuw.Ppcb.Serving
import Mimuw.Ppcb.Tcp

/-!
# What the servers print

Each receive loop puts a zero byte behind the payload it has accepted and prints the
payload as a C string.
-/

namespace Mimuw.Ppcb

open Mimuw.Lib

/-! ## Printing -/

/-- `char buffer[MAX_LEN]` -/
abbrev Buffer := {buffer : List UInt8 // buffer.length = maxLen}

/-- `buffer` after `recvfrom`: what it held before stays behind the datagram. -/
def received (buffer : Buffer) (bytes : Datagram) : List UInt8 :=
  bytes.take maxLen ++ buffer.val.drop (bytes.take maxLen).length

/-- `data[data_bytes_len] = '\0'` and `printf("%s", data)` in the buffer of a datagram. -/
def printPayload (memory : List UInt8) : List UInt8 :=
  printed ((memory.set (dataHeaderSize + dataBytesLenField memory) 0).drop dataHeaderSize)

/-- The payload accepted and the bytes printed for it. -/
structure Print where
  payload : List UInt8
  stdout : List UInt8

/-- One reaction of a datagram server, with what the buffer held before it. -/
def udpPrints (state : ServerState) (input : Event × Buffer) : ServerState × List Print :=
  let r := handleUdpConnection state input.1
  (r.state,
    match input.1 with
    | .datagram _ bytes =>
        if r.accepted = [] then [] else [⟨r.accepted, printPayload (received input.2 bytes)⟩]
    | .timeout => [])

/-- One `read` of the stream server; `data` is allocated for each payload, with one more
byte for the zero. -/
def tcpPrints (state : TcpServerState) (input : List UInt8) : TcpServerState × List Print :=
  let r := tcpServerReads state input
  (r.state, if r.accepted = [] then [] else [⟨r.accepted, printed (r.accepted ++ [0])⟩])

def accepted (prints : List Print) : List UInt8 := prints.flatMap Print.payload

def stdout (prints : List Print) : List UInt8 := prints.flatMap Print.stdout

/-! ## C strings -/

private theorem printed_append_zero (payload rest : List UInt8) :
    printed (payload ++ 0 :: rest) = printed payload := by
  induction payload with
  | nil => rfl
  | cons b payload ih =>
      simp only [printed] at ih ⊢
      rw [List.cons_append, List.takeWhile_cons, List.takeWhile_cons, ih]

private theorem printed_eq_self_iff (payload : List UInt8) :
    printed payload = payload ↔ 0 ∉ payload := by
  rw [printed, List.takeWhile_eq_self_iff]
  constructor
  · intro h hzero
    exact absurd (h 0 hzero) (by decide)
  · intro h b hb
    have hne : b ≠ 0 := by
      rintro rfl
      exact h hb
    simpa using hne

private theorem length_printed_le (payload : List UInt8) :
    (printed payload).length ≤ payload.length :=
  (List.takeWhile_sublist _).length_le

private theorem length_stdout_le {prints : List Print}
    (h : ∀ p ∈ prints, p.stdout = printed p.payload) :
    (stdout prints).length ≤ (accepted prints).length := by
  induction prints with
  | nil => rfl
  | cons p prints ih =>
      have hrest := ih fun q hq => h q (List.mem_cons_of_mem _ hq)
      have hfirst := length_printed_le p.payload
      rw [← h p List.mem_cons_self] at hfirst
      simp only [stdout, accepted, List.flatMap_cons, List.length_append] at hrest ⊢
      omega

/-- Printed as C strings, payloads come out whole exactly where none has a zero byte. -/
private theorem stdout_eq_iff {prints : List Print}
    (h : ∀ p ∈ prints, p.stdout = printed p.payload) :
    stdout prints = accepted prints ↔ 0 ∉ accepted prints := by
  induction prints with
  | nil => simp [stdout, accepted]
  | cons p prints ih =>
      have htail : ∀ q ∈ prints, q.stdout = printed q.payload :=
        fun q hq => h q (List.mem_cons_of_mem _ hq)
      have hp := h p List.mem_cons_self
      have hrest := ih htail
      simp only [stdout, accepted, List.flatMap_cons, List.mem_append, not_or] at hrest ⊢
      rw [← hrest, ← printed_eq_self_iff, hp]
      constructor
      · intro heq
        have hshort := length_printed_le p.payload
        have hshortRest := length_stdout_le htail
        have hlength := congrArg List.length heq
        simp only [List.length_append, stdout, accepted] at hlength hshortRest
        exact List.append_inj heq (by omega)
      · rintro ⟨hfirst, hothers⟩
        rw [hfirst, hothers]

/-! ## The servers -/

private theorem printPayload_received {bytes : Datagram} {payload : List UInt8} (buffer : Buffer)
    (h : Fills bytes payload) : printPayload (received buffer bytes) = printed payload := by
  obtain ⟨hpayload, hsize, hfits⟩ := h
  obtain ⟨buffer, hbuffer⟩ := buffer
  rw [received]
  generalize bytes.take maxLen = b at hpayload hsize hfits ⊢
  have hfield : dataBytesLenField (b ++ buffer.drop b.length) = dataBytesLenField b := by
    rw [dataBytesLenField, slice_append_left (by simp only [dataHeaderSize] at hsize; omega)]
    rfl
  obtain ⟨old, rest, hrest⟩ : ∃ old rest, buffer.drop b.length = old :: rest := by
    apply List.exists_cons_of_ne_nil
    rw [ne_eq, List.drop_eq_nil_iff, hbuffer]
    simp only [maxLen, maxDataLen, dataHeaderSize] at hfits hsize ⊢
    omega
  have hset : (b ++ old :: rest).set b.length 0 = b ++ 0 :: rest := by
    rw [List.set_append_right _ _ (le_refl _), Nat.sub_self, List.set_cons_zero]
  have hdrop : (b ++ 0 :: rest).drop dataHeaderSize = payload ++ 0 :: rest := by
    rw [List.drop_append_of_le_length (by omega), hpayload, payloadField]
  rw [printPayload, hfield, ← hsize, hrest, hset, hdrop, printed_append_zero]

/-- What a datagram server accepts, one of its two receive loops has let through. -/
private theorem accepted_fills {state : ServerState} {event : Event}
    (h : (handleUdpConnection state event).accepted ≠ []) :
    ∃ source bytes, event = .datagram source bytes ∧
      Fills bytes (handleUdpConnection state event).accepted := by
  cases event with
  | timeout =>
      have hnone : (handleUdpConnection state .timeout).accepted = [] := by
        cases state with
        | waitConn | recvData => rfl
        | recvFirst | recvNext =>
            simp only [handleUdpConnection]
            split <;> rfl
      exact absurd hnone h
  | datagram source bytes =>
      refine ⟨source, bytes, rfl, ?_⟩
      cases state with
      | waitConn =>
          simp only [handleUdpConnection] at h
          split at h
          · exact absurd rfl h
          · split at h
            · simp at h
            · exact absurd rfl h
      | recvData session dataLen readSize packetNumber =>
          simp only [handleUdpConnection] at h ⊢
          split at h
          · exact absurd rfl h
          · exact absurd rfl h
          · rename_i hok
            simpa using recvDataPackets_fills hok
      | recvFirst session dataLen attempts =>
          simp only [handleUdpConnection] at h ⊢
          split at h
          · exact absurd rfl h
          · exact absurd rfl h
          · rename_i hok
            simpa using recvDataPacketRetr_fills hok
      | recvNext session dataLen readSize packetNumber attempts =>
          simp only [handleUdpConnection] at h ⊢
          split at h
          · exact absurd rfl h
          · exact absurd rfl h
          · rename_i hok
            simpa using recvDataPacketRetr_fills hok

private theorem udpPrints_printed (state : ServerState) (input : Event × Buffer) :
    ∀ p ∈ (udpPrints state input).2, p.stdout = printed p.payload := by
  obtain ⟨event, buffer⟩ := input
  intro p hp
  cases event with
  | timeout => exact absurd hp List.not_mem_nil
  | datagram source bytes =>
      simp only [udpPrints] at hp
      split at hp
      · exact absurd hp List.not_mem_nil
      · rename_i hne
        obtain rfl := List.mem_singleton.mp hp
        obtain ⟨source', bytes', hevent, hfills⟩ := accepted_fills hne
        obtain ⟨rfl, rfl⟩ := Event.datagram.inj hevent
        exact printPayload_received buffer hfills

private theorem tcpPrints_printed (state : TcpServerState) (input : List UInt8) :
    ∀ p ∈ (tcpPrints state input).2, p.stdout = printed p.payload := by
  intro p hp
  simp only [tcpPrints] at hp
  split at hp
  · exact absurd hp List.not_mem_nil
  · obtain rfl := List.mem_singleton.mp hp
    exact printed_append_zero _ []

/-- In any session of any of the servers, from any state of it on, the bytes printed are
the bytes accepted exactly where no zero byte is accepted. -/
theorem stdout_eq_accepted_iff (state : ServerState) (inputs : List (Event × Buffer))
    (tcpState : TcpServerState) (tcpInputs : List (List UInt8)) :
    let prints := (transcript udpPrints state inputs).2
    let tcpPrinted := (transcript tcpPrints tcpState tcpInputs).2
    (stdout prints = accepted prints ↔ 0 ∉ accepted prints) ∧
      (stdout tcpPrinted = accepted tcpPrinted ↔ 0 ∉ accepted tcpPrinted) := by
  constructor
  · exact stdout_eq_iff (forall_transcript udpPrints_printed state inputs)
  · exact stdout_eq_iff (forall_transcript tcpPrints_printed tcpState tcpInputs)

/-! ## A zero byte -/

def someSession : SessionId := ⟨List.replicate 8 7, rfl⟩

def someAddr : SockAddr := ⟨0x7f000001, 2000⟩

def someBuffer : Buffer := ⟨List.replicate maxLen 0, List.length_replicate⟩

def zeroSession (protocolId : UInt8) : List (Event × Buffer) :=
  [(.datagram someAddr (connPacket someSession protocolId 1), someBuffer),
    (.datagram someAddr (dataPacket someSession 0 [0]), someBuffer)]

def zeroStream : List (List UInt8) :=
  [connPacket someSession tcpProtocolId 1, dataHeader someSession 0 1, [0]]

private theorem zero_accepted :
    (∀ protocolId ∈ [udpProtocolId, udprProtocolId],
      0 ∈ accepted (transcript udpPrints .waitConn (zeroSession protocolId)).2) ∧
    0 ∈ accepted (transcript tcpPrints (.readConn []) zeroStream).2 := by
  decide +kernel

theorem zero_not_printed :
    (∀ protocolId ∈ [udpProtocolId, udprProtocolId],
      let prints := (transcript udpPrints .waitConn (zeroSession protocolId)).2
      stdout prints ≠ accepted prints) ∧
    stdout (transcript tcpPrints (.readConn []) zeroStream).2 ≠
      accepted (transcript tcpPrints (.readConn []) zeroStream).2 := by
  refine ⟨fun protocolId hprotocol heq => ?_, fun heq => ?_⟩
  · exact (stdout_eq_iff (forall_transcript udpPrints_printed _ _)).mp heq
      (zero_accepted.1 protocolId hprotocol)
  · exact (stdout_eq_iff (forall_transcript tcpPrints_printed _ _)).mp heq zero_accepted.2

end Mimuw.Ppcb
