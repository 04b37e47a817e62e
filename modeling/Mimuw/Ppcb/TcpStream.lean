import Mimuw.Ppcb.Tcp

/-!
# Reading a byte stream

The server alone, with the whole stream of a peer in front of it.  The stream of
`write_conn_packet` and `write_data_packets` is taken in whole, however the reads cut it.
A hostile stream can have more accepted than it announced only where the sum of
`uint64_t` in the check of a header wraps.
-/

namespace Mimuw.Ppcb

open Mimuw.Lib

structure Reader where
  server : TcpServerState
  stream : List UInt8
  accepted : List UInt8

def Reader.start (stream : List UInt8) : Reader := ⟨.readConn [], stream, []⟩

def Reader.reads (x : Reader) (k : Nat) : Reader :=
  let r := tcpServerReads x.server (x.stream.take k)
  ⟨r.state, x.stream.drop k, x.accepted ++ r.accepted⟩

/-- A `read` gives back at least one byte, of those that are there and wanted. -/
def readStep (x : Reader) (k : Nat) : Option Reader :=
  if 1 ≤ k ∧ k ≤ x.stream.length ∧ k ≤ x.server.wants then some (x.reads k) else none

private theorem readStep_some {x x' : Reader} {k : Nat} (h : readStep x k = some x') :
    1 ≤ k ∧ k ≤ x.stream.length ∧ k ≤ x.server.wants ∧ x' = x.reads k := by
  simp only [readStep] at h
  split at h
  · rename_i hk
    exact ⟨hk.1, hk.2.1, hk.2.2, by simpa using h.symm⟩
  · cases h

private theorem loopReadData_accepted (sessionId : SessionId) (dataLen readSize packetNumber : Nat)
    (writes accepted : List UInt8) :
    (loopReadData sessionId dataLen readSize packetNumber writes accepted).accepted = accepted := by
  unfold loopReadData
  split <;> rfl

/-! ## A stream of the client -/

section Written

variable {c : Transfer} {extra : List UInt8}

/-- Where the reads of a written stream come to, with `extra` bytes behind it. -/
inductive Reading (c : Transfer) (extra : List UInt8) : Reader → Prop where
  | conn (got rest : List UInt8) (hgot : got.length < connSize)
      (h : got ++ rest =
        connPacket c.client.sessionId tcpProtocolId c.data.length ++ (c.stream ++ extra)) :
      Reading c extra ⟨.readConn got, rest, []⟩
  | header (n : Nat) (got rest : List UInt8) (packets : List Datagram)
      (hn : n * bufferSize < c.data.length) (hremaining : Remaining c (n + 1) packets)
      (hgot : got.length < dataHeaderSize)
      (h : got ++ rest = c.header n ++ (chunk c.data n ++ (packets.flatten ++ extra))) :
      Reading c extra ⟨.readHeader c.client.sessionId c.data.length (n * bufferSize) n got,
        rest, c.data.take (n * bufferSize)⟩
  | data (n : Nat) (got rest : List UInt8) (packets : List Datagram)
      (hn : n * bufferSize < c.data.length) (hremaining : Remaining c (n + 1) packets)
      (hgot : got.length < (chunk c.data n).length)
      (h : got ++ rest = chunk c.data n ++ (packets.flatten ++ extra)) :
      Reading c extra ⟨.readData c.client.sessionId c.data.length (n * bufferSize) n
        (chunk c.data n).length got, rest, c.data.take (n * bufferSize)⟩
  | done : Reading c extra ⟨.closed true, extra, c.data⟩

private theorem reading_loop (extra : List UInt8) {n : Nat} {packets : List Datagram}
    (h : Remaining c n packets) (writes accepted : List UInt8) :
    Reading c extra
      ⟨(loopReadData c.client.sessionId c.data.length (min (n * bufferSize) c.data.length) n
        writes accepted).state, packets.flatten ++ extra, c.data.take (n * bufferSize)⟩ := by
  cases h with
  | done hend =>
      simp only [loopReadData, Nat.min_eq_right hend, lt_irrefl, if_false,
        List.take_of_length_le hend]
      exact .done
  | more hn hrest =>
      simp only [loopReadData, Nat.min_eq_left hn.le, if_pos hn, List.flatten_cons,
        dataNumber_eq, List.append_assoc]
      exact .header n [] _ _ hn hrest (by decide) (List.nil_append _)

private theorem reading_step {x x' : Reader} {k : Nat} (h : Reading c extra x)
    (hstep : readStep x k = some x') : Reading c extra x' := by
  obtain ⟨hpos, hk, hwants, rfl⟩ := readStep_some hstep
  cases h with
  | conn got rest hgot h =>
      have hsize : connSize =
          (connPacket c.client.sessionId tcpProtocolId c.data.length).length := by simp
      rcases readn_cases h hk (hsize ▸ hwants) (hsize ▸ hgot) with
        ⟨hless, hmore⟩ | ⟨hall, htail⟩
      · rw [← hsize] at hless
        simp only [Reader.reads, tcpServerReads, if_pos hless, List.append_nil]
        exact .conn _ _ hless hmore
      · have hfull : ¬ (got ++ rest.take k).length < connSize := by
          rw [hall, ← hsize]
          exact lt_irrefl _
        have hzero : 0 = min (0 * bufferSize) c.data.length := by simp
        have hfuel : c.data.length < 0 + (c.data.length + 1) := by omega
        obtain ⟨packets, hremaining, hwrites⟩ := writeDataPackets_remaining hzero hfuel
        have hloop := reading_loop extra hremaining (conaccPacket c.client.sessionId) []
        rw [← hzero, ← hwrites, Nat.zero_mul, List.take_zero] at hloop
        simp only [Reader.reads, tcpServerReads, if_neg hfull]
        simp only [hall, htail, readConnPacket_conn, loopReadData_accepted, List.append_nil]
        exact hloop
  | header n got rest packets hn hremaining hgot h =>
      have hsize : dataHeaderSize = (c.header n).length := by simp
      rcases readn_cases h hk (hsize ▸ hwants) (hsize ▸ hgot) with
        ⟨hless, hmore⟩ | ⟨hall, htail⟩
      · rw [← hsize] at hless
        simp only [Reader.reads, tcpServerReads, if_pos hless, List.append_nil]
        exact .header n _ _ packets hn hremaining hless hmore
      · have hfull : ¬ (got ++ rest.take k).length < dataHeaderSize := by
          rw [hall, ← hsize]
          exact lt_irrefl _
        simp only [Reader.reads, tcpServerReads, if_neg hfull]
        simp only [hall, htail, readDataHeader_header hn, List.append_nil]
        exact .data n [] _ packets hn hremaining (length_chunk_pos hn) (List.nil_append _)
  | data n got rest packets hn hremaining hgot h =>
      rcases readn_cases h hk hwants hgot with ⟨hless, hmore⟩ | ⟨hall, htail⟩
      · simp only [Reader.reads, tcpServerReads, if_pos hless, List.append_nil]
        exact .data n _ _ packets hn hremaining hless hmore
      · have hfull : ¬ (got ++ rest.take k).length < (chunk c.data n).length := by
          rw [hall]
          exact lt_irrefl _
        obtain ⟨hnext, hnumber⟩ := counters_succ hn
        simp only [Reader.reads, tcpServerReads, if_neg hfull]
        simp only [hall, htail, hnext, hnumber, loopReadData_accepted, ← take_succ_chunk]
        exact reading_loop extra hremaining [] (chunk c.data n)
  | done =>
      simp only [TcpServerState.wants] at hwants
      omega

private theorem reading_enabled {x : Reader} (h : Reading c extra x) :
    x = ⟨.closed true, extra, c.data⟩ ∨ ∃ k, (readStep x k).isSome := by
  cases h with
  | conn got rest hgot h =>
      have hrest : 1 ≤ rest.length := rest_pos h (by simpa using hgot)
      have hwants : 1 ≤ connSize - got.length := by omega
      exact .inr ⟨1, by simp [readStep, TcpServerState.wants, hrest, hwants]⟩
  | header n got rest packets hn hremaining hgot h =>
      have hrest : 1 ≤ rest.length := rest_pos h (by simpa using hgot)
      have hwants : 1 ≤ dataHeaderSize - got.length := by omega
      exact .inr ⟨1, by simp [readStep, TcpServerState.wants, hrest, hwants]⟩
  | data n got rest packets hn hremaining hgot h =>
      have hrest : 1 ≤ rest.length := rest_pos h hgot
      have hwants : 1 ≤ (chunk c.data n).length - got.length := by omega
      exact .inr ⟨1, by simp only [readStep, TcpServerState.wants, hrest, hwants, le_refl,
        and_self, if_true, Option.isSome_some]⟩
  | done => exact .inl rfl

/-- However the stream is cut, the server comes to accept the data, with nothing read of
what follows. -/
private theorem written_inevitable (c : Transfer) (extra : List UInt8) :
    Inevitable readStep (· = ⟨.closed true, extra, c.data⟩)
      (.start (connPacket c.client.sessionId tcpProtocolId c.data.length ++
        (c.stream ++ extra))) := by
  apply inevitable_of_variant (I := fun x n => Reading c extra x ∧ n = x.stream.length)
  · rintro x _ ⟨hreading, rfl⟩
    refine (reading_enabled hreading).imp_right fun henabled => ⟨henabled, fun k x' hstep => ?_⟩
    obtain ⟨hpos, hk, -, hx'⟩ := readStep_some hstep
    refine ⟨x'.stream.length, ?_, reading_step hreading hstep, rfl⟩
    simp only [hx', Reader.reads, List.length_drop]
    omega
  · rintro x k x' rfl hstep
    obtain ⟨hpos, -, hwants, -⟩ := readStep_some hstep
    simp only [TcpServerState.wants] at hwants
    omega
  · exact ⟨.conn [] _ (by decide) (List.nil_append _), rfl⟩

end Written

/-! ## Any stream -/

section Any

variable {dataLen : Nat}

/-- The server accepts no more than `dataLen` bytes, and the packet it is reading fits. -/
def Within (dataLen : Nat) (x : Reader) : Prop :=
  match x.server with
  | .readConn got => x.accepted = [] ∧ dataLenField (got ++ x.stream) = dataLen
  | .readHeader _ len readSize _ _ =>
      len = dataLen ∧ readSize = x.accepted.length ∧ readSize < dataLen
  | .readData _ len readSize _ dataBytesLen _ =>
      len = dataLen ∧ readSize = x.accepted.length ∧ readSize + dataBytesLen ≤ dataLen
  | .closed _ => x.accepted.length ≤ dataLen

private theorem Within.accepted_le {x : Reader} (h : Within dataLen x) :
    x.accepted.length ≤ dataLen := by
  unfold Within at h
  split at h
  · rw [h.1]
    exact Nat.zero_le _
  · omega
  · omega
  · exact h

private theorem within_loop (sessionId : SessionId) {readSize : Nat} (packetNumber : Nat)
    {accepted stream writes input : List UInt8} (hsize : readSize = accepted.length)
    (hle : readSize ≤ dataLen) :
    Within dataLen
      ⟨(loopReadData sessionId dataLen readSize packetNumber writes input).state, stream,
        accepted⟩ := by
  unfold loopReadData
  split
  · exact ⟨rfl, hsize, by assumption⟩
  · simp only [Within]
    omega

private theorem within_header {sessionId : SessionId} {readSize packetNumber : Nat}
    {header stream accepted : List UInt8} (hroom : dataLen + maxDataLen ≤ 2 ^ 64)
    (hsize : readSize = accepted.length) (hlt : readSize < dataLen) :
    let r := readDataHeader sessionId dataLen readSize packetNumber header
    Within dataLen ⟨r.state, stream, accepted ++ r.accepted⟩ := by
  have hle : accepted.length ≤ dataLen := by omega
  simp only [readDataHeader]
  split_ifs with hsession hnumber htype hsum hbounds
  all_goals try simpa [Within] using hle
  simp only [Within, List.append_nil]
  refine ⟨trivial, hsize, ?_⟩
  omega

private theorem within_step {x x' : Reader} {k : Nat} (hroom : dataLen + maxDataLen ≤ 2 ^ 64)
    (h : Within dataLen x) (hstep : readStep x k = some x') : Within dataLen x' := by
  obtain ⟨hpos, hk, hwants, rfl⟩ := readStep_some hstep
  obtain ⟨server, stream, accepted⟩ := x
  cases server with
  | readConn got =>
      obtain ⟨rfl, hannounced⟩ := h
      rw [← List.take_append_drop k stream, ← List.append_assoc] at hannounced
      simp only [Reader.reads, tcpServerReads, List.nil_append]
      split
      · exact ⟨rfl, hannounced⟩
      · rename_i hfull
        simp only [connSize, not_lt] at hfull
        have hfield : dataLenField (got ++ stream.take k) = dataLen := by
          rw [← hannounced]
          exact congrArg ofBytes (slice_append_left hfull).symm
        simp only [readConnPacket, hfield]
        split_ifs
        · exact Nat.zero_le _
        · exact Nat.zero_le _
        · rw [loopReadData_accepted]
          exact within_loop _ 0 rfl (Nat.zero_le _)
  | readHeader sessionId len readSize packetNumber got =>
      obtain ⟨rfl, hsize, hlt⟩ := h
      simp only [Reader.reads, tcpServerReads]
      split
      · exact ⟨rfl, by simpa using hsize, hlt⟩
      · exact within_header hroom hsize hlt
  | readData sessionId len readSize packetNumber dataBytesLen got =>
      obtain ⟨rfl, hsize, hfits⟩ := h
      simp only [Reader.reads, tcpServerReads]
      split
      · exact ⟨rfl, by simpa using hsize, hfits⟩
      · rw [loopReadData_accepted]
        have hnowrap : (readSize + dataBytesLen) % 2 ^ 64 = readSize + dataBytesLen := by
          simp only [maxDataLen] at hroom
          omega
        have hpiece : (got ++ stream.take k).length = dataBytesLen := by
          simp only [TcpServerState.wants] at hwants
          simp only [List.length_append, List.length_take] at *
          omega
        rw [hnowrap]
        refine within_loop sessionId _ ?_ hfits
        rw [List.length_append, hpiece, hsize]
  | closed ok =>
      simpa [Within, Reader.reads, tcpServerReads] using h

private theorem accepted_le {stream : List UInt8} {ks : List Nat} {x : Reader}
    (hroom : dataLenField stream + maxDataLen ≤ 2 ^ 64)
    (hrun : run readStep (.start stream) ks = some x) :
    x.accepted.length ≤ dataLenField stream := by
  have hstart : Within (dataLenField stream) (.start stream) := ⟨rfl, rfl⟩
  exact (run_invariant (fun _ _ _ h hstep => within_step hroom h hstep) hstart hrun).accepted_le

end Any

/-! ## A stream that makes the sum wrap -/

section Wrapping

variable (sessionId : SessionId) {dataLen readSize n : Nat} {payload : List UInt8}
  (rest accepted : List UInt8)

private theorem readDataHeader_accepts (hn : n < 2 ^ 64) (hpos : 1 ≤ payload.length)
    (hmax : payload.length ≤ maxDataLen)
    (hsum : (payload.length + readSize) % 2 ^ 64 ≤ dataLen) :
    readDataHeader sessionId dataLen readSize n (dataHeader sessionId n payload.length) =
      ⟨.readData sessionId dataLen readSize n payload.length [], [], []⟩ := by
  have hlen : payload.length % 2 ^ 32 = payload.length := by
    simp only [maxDataLen] at hmax
    omega
  have hbounds : ¬ (payload.length < minDataLen ∨ payload.length > maxDataLen) := by
    simp only [minDataLen]
    omega
  have htype : packetType (dataHeader sessionId n payload.length) = dataPacketType := rfl
  simp only [readDataHeader, sessionField_dataHeader, numberField_dataHeader,
    dataBytesLenField_dataHeader, Nat.mod_eq_of_lt hn, hlen, htype, ne_eq, not_true_eq_false,
    if_false, if_neg hsum.not_gt, if_neg hbounds]

private theorem run_packet (hn : n < 2 ^ 64) (hpos : 1 ≤ payload.length)
    (hmax : payload.length ≤ maxDataLen)
    (hsum : (payload.length + readSize) % 2 ^ 64 ≤ dataLen) :
    run readStep
        ⟨.readHeader sessionId dataLen readSize n [], dataPacket sessionId n payload ++ rest,
          accepted⟩ [dataHeaderSize, payload.length] =
      some ⟨(loopReadData sessionId dataLen ((readSize + payload.length) % 2 ^ 64)
        ((n + 1) % 2 ^ 64) [] payload).state, rest, accepted ++ payload⟩ := by
  have hsize : (dataHeader sessionId n payload.length).length = dataHeaderSize := by simp
  have hheader : readStep
      ⟨.readHeader sessionId dataLen readSize n [], dataPacket sessionId n payload ++ rest,
        accepted⟩ dataHeaderSize =
      some ⟨.readData sessionId dataLen readSize n payload.length [], payload ++ rest,
        accepted⟩ := by
    have htake : (dataPacket sessionId n payload ++ rest).take dataHeaderSize =
        dataHeader sessionId n payload.length := by
      rw [dataPacket, List.append_assoc, List.take_left' hsize]
    have hdrop : (dataPacket sessionId n payload ++ rest).drop dataHeaderSize =
        payload ++ rest := by
      rw [dataPacket, List.append_assoc, List.drop_left' hsize]
    have hthere : 1 ≤ dataHeaderSize ∧
        dataHeaderSize ≤ (dataPacket sessionId n payload ++ rest).length ∧
        dataHeaderSize ≤ dataHeaderSize - ([] : List UInt8).length := by
      simp [dataHeaderSize]
      omega
    simp only [readStep, TcpServerState.wants, if_pos hthere, Reader.reads, tcpServerReads, htake,
      hdrop, List.nil_append, hsize, lt_irrefl, if_false,
      readDataHeader_accepts sessionId hn hpos hmax hsum, List.append_nil]
  have hdata : readStep
      ⟨.readData sessionId dataLen readSize n payload.length [], payload ++ rest, accepted⟩
        payload.length =
      some ⟨(loopReadData sessionId dataLen ((readSize + payload.length) % 2 ^ 64)
        ((n + 1) % 2 ^ 64) [] payload).state, rest, accepted ++ payload⟩ := by
    simp [readStep, Reader.reads, tcpServerReads, TcpServerState.wants, hpos,
      loopReadData_accepted]
  simp only [run, hheader, hdata, Option.bind_some]

/-- `count` packets of one byte each, from number 0 on. -/
def bytePackets (sessionId : SessionId) (count : Nat) : List UInt8 :=
  (List.range count).flatMap fun n => dataPacket sessionId n [0]

def byteCuts (count : Nat) : List Nat := (List.range count).flatMap fun _ => [dataHeaderSize, 1]

private theorem run_bytePackets (rest : List UInt8) {count : Nat} (hcount : count < dataLen)
    (hdataLen : dataLen < 2 ^ 64) :
    run readStep
        ⟨.readHeader sessionId dataLen 0 0 [], bytePackets sessionId count ++ rest, []⟩
        (byteCuts count) =
      some ⟨.readHeader sessionId dataLen count count [], rest, List.replicate count 0⟩ := by
  induction count generalizing rest with
  | zero => rfl
  | succ count ih =>
      have hbefore := ih (dataPacket sessionId count [0] ++ rest) (by omega)
      have hsum : ([0] : List UInt8).length + count ≤ dataLen := by
        rw [List.length_singleton]
        omega
      have hlast := run_packet sessionId rest (List.replicate count 0)
        (show count < 2 ^ 64 by omega) (show 1 ≤ ([0] : List UInt8).length by decide) (by decide)
        ((Nat.mod_le _ _).trans hsum)
      have hnumber : (count + 1) % 2 ^ 64 = count + 1 := by omega
      simp only [List.length_singleton, hnumber, loopReadData, if_pos hcount] at hlast
      simp only [bytePackets, byteCuts, List.range_succ, List.flatMap_append,
        List.flatMap_singleton, List.append_assoc] at hbefore ⊢
      rw [List.replicate_succ']
      exact run_append.mpr ⟨_, hbefore, hlast⟩

/-- All but one of the announced bytes one by one, and then the longest packet there is. -/
def wrappingStream (sessionId : SessionId) (dataLen : Nat) : List UInt8 :=
  connPacket sessionId tcpProtocolId dataLen ++ (bytePackets sessionId (dataLen - 1) ++
    dataPacket sessionId (dataLen - 1) (List.replicate maxDataLen 0))

def wrappingCuts (dataLen : Nat) : List Nat :=
  connSize :: (byteCuts (dataLen - 1) ++ [dataHeaderSize, maxDataLen])

private theorem dataLenField_wrapping (hdataLen : dataLen < 2 ^ 64) :
    dataLenField (wrappingStream sessionId dataLen) = dataLen := by
  have hfield := dataLenField_connPacket sessionId dataLen tcpProtocolId
  rw [Nat.mod_eq_of_lt hdataLen] at hfield
  refine Eq.trans (congrArg ofBytes (slice_append_left ?_)) hfield
  rw [length_connPacket, connSize]

private theorem readStep_conn (hpos : 0 < dataLen) (hdataLen : dataLen < 2 ^ 64) :
    readStep (.start (connPacket sessionId tcpProtocolId dataLen ++ rest)) connSize =
      some ⟨.readHeader sessionId dataLen 0 0 [], rest, []⟩ := by
  have hsize : (connPacket sessionId tcpProtocolId dataLen).length = connSize := by simp
  have hthere : 1 ≤ connSize ∧
      connSize ≤ (connPacket sessionId tcpProtocolId dataLen ++ rest).length ∧
      connSize ≤ connSize - ([] : List UInt8).length := by
    simp [connSize]
  simp only [readStep, Reader.start, TcpServerState.wants, if_pos hthere, Reader.reads,
    tcpServerReads, List.take_left' hsize, List.drop_left' hsize, List.nil_append, hsize,
    lt_irrefl, if_false]
  simp only [readConnPacket, packetType_connPacket, protocolIdField_connPacket,
    readSessionId_connPacket, dataLenField_connPacket, Nat.mod_eq_of_lt hdataLen, ne_eq,
    not_true_eq_false, if_false, loopReadData, if_pos hpos]

private theorem run_wrapping (hdataLen : dataLen < 2 ^ 64)
    (hwraps : 2 ^ 64 < dataLen + maxDataLen) :
    ∃ x, run readStep (.start (wrappingStream sessionId dataLen)) (wrappingCuts dataLen) =
      some x ∧ x.accepted.length = dataLen - 1 + maxDataLen := by
  have hpos : 0 < dataLen := by
    simp only [maxDataLen] at hwraps
    omega
  have hbefore : dataLen - 1 < dataLen := by omega
  have hbytes := run_bytePackets sessionId
    (dataPacket sessionId (dataLen - 1) (List.replicate maxDataLen 0)) hbefore hdataLen
  have hlength : (List.replicate maxDataLen (0 : UInt8)).length = maxDataLen :=
    List.length_replicate
  have hsum : ((List.replicate maxDataLen (0 : UInt8)).length + (dataLen - 1)) % 2 ^ 64 ≤
      dataLen := by
    rw [hlength]
    simp only [maxDataLen] at hwraps ⊢
    omega
  have hlast := run_packet sessionId [] (List.replicate (dataLen - 1) 0)
    (hbefore.trans hdataLen) (by rw [hlength]; decide) hlength.le hsum
  rw [List.append_nil, List.length_replicate] at hlast
  have hpackets := run_append.mpr ⟨_, hbytes, hlast⟩
  refine ⟨_, run_cons.mpr ⟨_, readStep_conn sessionId _ hpos hdataLen, hpackets⟩, ?_⟩
  simp

end Wrapping

/-! ## Both streams -/

/-- The client's own stream is always taken in whole.  For which lengths no stream can have
more accepted than it announces is told by the sum that must not wrap. -/
theorem streams_read_iff (dataLen : UInt64) :
    (∀ (c : Transfer) (extra : List UInt8),
      Inevitable readStep (· = ⟨.closed true, extra, c.data⟩)
        (.start (connPacket c.client.sessionId tcpProtocolId c.data.length ++
          (c.stream ++ extra)))) ∧
    ((∀ stream ks x, dataLenField stream = dataLen.toNat →
        run readStep (.start stream) ks = some x → x.accepted.length ≤ dataLen.toNat) ↔
      dataLen.toNat + maxDataLen ≤ 2 ^ 64) := by
  refine ⟨written_inevitable, fun h => ?_, ?_⟩
  · by_contra hwraps
    have hdataLen := dataLen.toNat_lt
    obtain ⟨x, hrun, haccepted⟩ := run_wrapping ⟨List.replicate 8 0, rfl⟩ hdataLen (by omega)
    have hle := h _ _ x (dataLenField_wrapping _ hdataLen) hrun
    simp only [maxDataLen] at haccepted
    omega
  · intro hroom stream ks x hannounced hrun
    rw [← hannounced] at hroom ⊢
    exact accepted_le hroom hrun

/-- A stream that announces `UINT64_MAX` bytes and has 63999 more accepted. -/
theorem wrapping_accepts_more :
    let stream := wrappingStream ⟨List.replicate 8 0, rfl⟩ (2 ^ 64 - 1)
    dataLenField stream = 2 ^ 64 - 1 ∧
      ∃ x, run readStep (.start stream) (wrappingCuts (2 ^ 64 - 1)) = some x ∧
        ¬ x.accepted.length ≤ dataLenField stream := by
  intro stream
  have hdataLen : 2 ^ 64 - 1 < 2 ^ 64 := by omega
  have hwraps : 2 ^ 64 < 2 ^ 64 - 1 + maxDataLen := by
    simp only [maxDataLen]
    omega
  have hannounced : dataLenField stream = 2 ^ 64 - 1 := dataLenField_wrapping _ hdataLen
  obtain ⟨x, hrun, haccepted⟩ := run_wrapping ⟨List.replicate 8 0, rfl⟩ hdataLen hwraps
  refine ⟨hannounced, x, hrun, ?_⟩
  rw [haccepted, hannounced, maxDataLen]
  omega

end Mimuw.Ppcb
