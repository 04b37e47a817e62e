import Mimuw.Ppcb.Exchange

/-!
# Late duplicates in the retransmitting protocol

At every point of a transfer, what becomes of a packet that the peer sent
earlier in the session and that arrives once more.  The server checks the size
of the packet against what it still expects before it looks at the number, so
near the end of the data an old full chunk is rejected and not skipped; and the
opening packets are skipped only while the first answer is awaited.
-/

namespace Mimuw.Ppcb

open Mimuw.Lib

/-- The server is serving the session and waits for the DATA packet `n`. -/
def AwaitsData (c : Transfer) (n : Nat) : ServerState → Prop
  | .recvFirst session _ _ => session = c.session ∧ n = firstPacketNumber
  | .recvNext session _ _ packetNumber _ => session = c.session ∧ n = packetNumber
  | _ => False

/-- The client waits for the ACC packet `n`. -/
def AwaitsAcc (n : Nat) : ClientState → Prop
  | .recvAcc packetNumber _ _ => n = packetNumber
  | _ => False

/-- The server drops the client's datagram, and neither moves nor answers. -/
def ServerDiscards (c : Transfer) (w : World) (bytes : Datagram) : Prop :=
  handleUdpConnection w.server (.datagram c.clientAddr bytes) = .goto w.server []

/-- The client drops the server's datagram, and neither moves nor answers. -/
def ClientDiscards (c : Transfer) (w : World) (bytes : Datagram) : Prop :=
  c.handleClient w.client (.datagram c.client.serverAddr bytes) = (w.client, [])

private theorem length_full_chunk {data : List UInt8} {m n : Nat}
    (hn : n * bufferSize < data.length) (hm : m < n) :
    (chunk data m).length = bufferSize := by
  have hnext : (m + 1) * bufferSize ≤ n * bufferSize := Nat.mul_le_mul_right _ hm
  rw [length_chunk]
  rw [Nat.succ_mul] at hnext
  generalize n * bufferSize = before at *
  generalize m * bufferSize = before' at *
  omega

section Server

variable {c : Transfer} {w : World} {n : Nat}

private theorem goto_ne {session : Session} {dataLen readSize packetNumber attempts : Nat}
    {sends : Sends} :
    Reaction.goto .waitConn sends ≠
      .goto (.recvNext session dataLen readSize packetNumber attempts) [] := by
  simp [Reaction.goto]

private theorem serverDiscards_conn (hawaits : AwaitsData c n w.server)
    (hok : ServerOk c w.server w.handlings) :
    ServerDiscards c w c.conn ↔ n = 0 := by
  unfold ServerDiscards
  cases hserver : w.server with
  | waitConn => simp [hserver, AwaitsData] at hawaits
  | recvData session dataLen readSize packetNumber => simp [hserver, AwaitsData] at hawaits
  | recvFirst session dataLen attempts =>
      simp only [hserver, AwaitsData] at hawaits
      obtain ⟨rfl, rfl⟩ := hawaits
      simp [handleUdpConnection, recvDataPacketRetr_conn, firstPacketNumber]
  | recvNext session dataLen readSize packetNumber attempts =>
      simp only [hserver, AwaitsData] at hawaits
      obtain ⟨rfl, rfl⟩ := hawaits
      obtain ⟨accepted, rest, -, hprogress⟩ := hok.current c.session (by rw [hserver]; rfl)
      have hprogress := hprogress rfl
      rw [hserver] at hprogress
      have hpos : n ≠ firstPacketNumber := by
        have := hprogress.1
        simp only [firstPacketNumber]
        omega
      simp only [handleUdpConnection, recvDataPacketRetr_conn, if_neg hpos, rejectClient]
      simp only [goto_ne, false_iff]
      exact hpos

private theorem serverDiscards_data {m : Nat} (hawaits : AwaitsData c n w.server)
    (hok : ServerOk c w.server w.handlings) (hm : m < n) :
    ServerDiscards c w (c.dataNumber m) ↔ (n + 1) * bufferSize ≤ c.data.length := by
  unfold ServerDiscards
  cases hserver : w.server with
  | waitConn => simp [hserver, AwaitsData] at hawaits
  | recvData session dataLen readSize packetNumber => simp [hserver, AwaitsData] at hawaits
  | recvFirst session dataLen attempts =>
      simp only [hserver, AwaitsData, firstPacketNumber] at hawaits
      omega
  | recvNext session dataLen readSize packetNumber attempts =>
      simp only [hserver, AwaitsData] at hawaits
      obtain ⟨rfl, rfl⟩ := hawaits
      obtain ⟨accepted, rest, -, hprogress⟩ := hok.current c.session (by rw [hserver]; rfl)
      have hprogress := hprogress rfl
      rw [hserver] at hprogress
      obtain ⟨-, hdataLen, hreadSize, hless, haccepted⟩ := hprogress
      have hlength : accepted.length = min (n * bufferSize) c.data.length := by
        rw [haccepted, List.length_take]
      have hnext : n * bufferSize < c.data.length := by omega
      -- chunks 0 and `m` are full, since there is a chunk `n` after them
      rw [length_full_chunk hnext (by omega : 0 < n)] at hdataLen hreadSize
      have hfull := length_full_chunk hnext hm
      have hmlt : m * bufferSize < c.data.length :=
        lt_of_le_of_lt (Nat.mul_le_mul_right _ hm.le) hnext
      have hsmall : c.data.length < 2 ^ 64 := c.fits
      have hsum : (bufferSize + readSize) % 2 ^ 64 = bufferSize + readSize :=
        Nat.mod_eq_of_lt (by omega)
      simp only [handleUdpConnection, recvDataPacketRetr_dataNumber hmlt, if_pos hm, hfull, hsum]
      rw [Nat.succ_mul]
      generalize n * bufferSize = received at *
      by_cases hroom : bufferSize + readSize > dataLen
      · simp only [if_pos hroom, rejectClient, goto_ne, false_iff]
        omega
      · simp only [if_neg hroom, true_iff]
        omega

end Server

section Client

variable {c : Transfer} {w : World} {n : Nat}

private theorem clientDiscards_conacc (hudpr : c.protocol = .udpr)
    (hawaits : AwaitsAcc n w.client) :
    ClientDiscards c w (conaccPacket c.client.sessionId) ↔ n = 0 := by
  unfold ClientDiscards Transfer.handleClient
  cases hclient : w.client with
  | recvAcc packetNumber offset attempts =>
      simp only [hclient, AwaitsAcc] at hawaits
      subst hawaits
      simp only [hudpr, handleUdprClient, recvAccPacketRetr_conacc, firstPacketNumber]
      by_cases hn : n = 0
      · simp [hn]
      · simp [hn]
  | _ => simp [hclient, AwaitsAcc] at hawaits

private theorem clientDiscards_acc {m : Nat} (hudpr : c.protocol = .udpr)
    (hawaits : AwaitsAcc n w.client) (hok : ClientOk c w.client) (hm : m < n) :
    ClientDiscards c w (accPacket c.client.sessionId m) := by
  unfold ClientDiscards Transfer.handleClient
  cases hclient : w.client with
  | recvAcc packetNumber offset attempts =>
      simp only [hclient, AwaitsAcc] at hawaits
      subst hawaits
      simp only [hclient, ClientOk] at hok
      have hnumber := number_small (c := c) (hok.1 ▸ hok.2)
      simp only [hudpr, handleUdprClient, recvAccPacketRetr_acc n (by omega : m < 2 ^ 64),
        if_pos hm]
  | _ => simp [hclient, AwaitsAcc] at hawaits

end Client

/-- At every point of every transfer, exactly which late duplicates are dropped. -/
theorem late_duplicates (c : Transfer) (actions : List Action) (w : World)
    (hudpr : c.protocol = .udpr)
    (h : run (networkStep c) (.init c) actions = some w) :
    (∀ n, AwaitsData c n w.server →
      (ServerDiscards c w c.conn ↔ n = 0) ∧
        ∀ m < n, (ServerDiscards c w (c.dataNumber m) ↔
          (n + 1) * bufferSize ≤ c.data.length)) ∧
      ∀ n, AwaitsAcc n w.client →
        (ClientDiscards c w (conaccPacket c.client.sessionId) ↔ n = 0) ∧
          ∀ m < n, ClientDiscards c w (accPacket c.client.sessionId m) := by
  have hsafe := safe_run h
  constructor
  · intro n hawaits
    exact ⟨serverDiscards_conn hawaits hsafe.server,
      fun m hm => serverDiscards_data hawaits hsafe.server hm⟩
  · intro n hawaits
    exact ⟨clientDiscards_conacc hudpr hawaits,
      fun m hm => clientDiscards_acc hudpr hawaits hsafe.client hm⟩

/-! ### A duplicate that is dropped, and one that is not -/

def oneByteRetr : Transfer := { oneByte with protocol := .udpr }

theorem late_duplicates_oneByte :
    ∃ w, run (networkStep oneByteRetr) (.init oneByteRetr) [.toServer 0, .serverReceives] =
        some w ∧
      ServerDiscards oneByteRetr w oneByteRetr.conn :=
  ⟨_, rfl,
    ((late_duplicates oneByteRetr [.toServer 0, .serverReceives] _ rfl rfl).1 0
      ⟨rfl, rfl⟩).1.mpr rfl⟩

def firstChunk : List Action :=
  [.toServer 0, .serverReceives, .toClient 0, .clientReceives, .toServer 1, .serverReceives]

private theorem run_firstChunk {c : Transfer} (hudpr : c.protocol = .udpr)
    (hlong : bufferSize < c.data.length) :
    (run (networkStep c) (.init c) firstChunk).map World.server =
      some (.recvNext c.session (c.data.length - bufferSize) 0 1 0) := by
  have hpos : 0 < c.data.length := by omega
  have hchunk : (chunk c.data 0).length = bufferSize := by
    rw [length_chunk]
    omega
  have hmore : ¬ 0 = c.data.length - bufferSize := by omega
  have hsend : loopSendData c.client 0 0 =
      (.recvAcc 0 0 0, [(c.client.serverAddr, c.dataNumber 0)]) := by
    unfold loopSendData
    rw [if_pos (show 0 < c.client.data.length from hpos)]
    rfl
  have hsecond : (0 + 1) % 2 ^ 64 = 1 := by omega
  simp only [firstChunk, run, networkStep, World.init, sendTo, World.serverReacts,
    World.clientReacts, handleUdpConnection_conn_udpr hudpr, Transfer.conacc,
    handleClient_conacc_udpr hudpr, hsend, handleUdpConnection_first hpos, hchunk,
    loopSendAcc, if_neg hmore, hsecond, List.getElem?_cons_zero, List.getElem?_cons_succ,
    List.nil_append, List.cons_append, Option.bind_some, if_true, ClientState.running,
    and_self, Option.map_some]

def longData : Transfer where
  protocol := .udpr
  client := ⟨List.replicate (bufferSize + 1) 7, oneByte.client.sessionId,
    oneByte.client.serverAddr⟩
  clientAddr := oneByte.clientAddr
  fits := List.length_replicate.trans_lt (by decide)

/-- Waiting for the last byte, the server rejects the first chunk again. -/
theorem late_duplicate_rejected :
    ∃ w, run (networkStep longData) (.init longData) firstChunk = some w ∧
      AwaitsData longData 1 w.server ∧ ¬ ServerDiscards longData w (longData.dataNumber 0) := by
  have hlength : longData.data.length = bufferSize + 1 := List.length_replicate
  have hrun := run_firstChunk (c := longData) rfl (by omega)
  obtain ⟨w, hw, hserver⟩ := Option.map_eq_some_iff.mp hrun
  have hawaits : AwaitsData longData 1 w.server := by
    rw [hserver]
    exact ⟨rfl, rfl⟩
  refine ⟨w, hw, hawaits, fun hdiscards => ?_⟩
  have hfits := (serverDiscards_data hawaits (safe_run hw).server Nat.zero_lt_one).mp hdiscards
  simp only [hlength, bufferSize] at hfits
  omega

end Mimuw.Ppcb
