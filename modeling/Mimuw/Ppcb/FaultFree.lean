import Mimuw.Ppcb.Exchange

/-!
# The datagram protocols over a fault-free network

What one party sends is queued for the other at once and in order, and a receive
loop times out only when nothing is on its way in either direction.  Each
protocol goes through a fixed sequence of phases, and the number of phases ahead
is the variant that brings every run to the end.
-/

namespace Mimuw.Ppcb

open Mimuw.Lib

structure Line where
  client : ClientState
  server : ServerState
  toServer : List Datagram
  toClient : List Datagram
  handlings : List Handling

inductive Turn where
  | serverReceives
  | clientReceives
  | serverTimesOut
  | clientTimesOut
  deriving DecidableEq

/-- The contents of the datagrams sent to one address. -/
def arriving (destination : SockAddr) (sends : Sends) : List Datagram :=
  (sends.filter fun d => d.1 = destination).map (·.2)

namespace Line

def init (c : Transfer) : Line :=
  ⟨.recvConacc 0, .waitConn, arriving c.client.serverAddr (sendTo c.client c.conn), [], []⟩

def serverReacts (c : Transfer) (l : Line) (event : Event) (rest : List Datagram) : Line :=
  let r := handleUdpConnection l.server event
  { l with
    server := r.state
    toServer := rest
    toClient := l.toClient ++ arriving c.clientAddr r.sends
    handlings := record l.handlings r }

def clientReacts (c : Transfer) (l : Line) (event : Event) (rest : List Datagram) : Line :=
  let r := c.handleClient l.client event
  { l with
    client := r.1
    toServer := l.toServer ++ arriving c.client.serverAddr r.2
    toClient := rest }

def quiet (l : Line) : Bool := l.toServer.isEmpty && l.toClient.isEmpty

end Line

def lineStep (c : Transfer) (l : Line) : Turn → Option Line
  | .serverReceives =>
      match l.toServer with
      | bytes :: rest => some (l.serverReacts c (.datagram c.clientAddr bytes) rest)
      | [] => none
  | .clientReceives =>
      match l.toClient with
      | bytes :: rest =>
          if l.client.running then
            some (l.clientReacts c (.datagram c.client.serverAddr bytes) rest)
          else none
      | [] => none
  | .serverTimesOut => if l.quiet then some (l.serverReacts c .timeout []) else none
  | .clientTimesOut =>
      if l.quiet ∧ l.client.running then some (l.clientReacts c .timeout []) else none

/-- Both sides have ended the session well, and the server has accepted `data`. -/
def LineDone (c : Transfer) (l : Line) : Prop :=
  l.client = .succeeded ∧ l.server = .waitConn ∧ l.handlings = [⟨c.session, c.data, true⟩] ∧
    l.toServer = [] ∧ l.toClient = []

section Steps

variable {c : Transfer}

@[simp] theorem arriving_nil (destination : SockAddr) : arriving destination [] = [] := rfl

@[simp] theorem arriving_sendTo (bytes : Datagram) :
    arriving c.client.serverAddr (sendTo c.client bytes) = [bytes] := by
  simp [arriving, sendTo]

@[simp] theorem arriving_cons (destination : SockAddr) (bytes : Datagram) (sends : Sends) :
    arriving destination ((destination, bytes) :: sends) = bytes :: arriving destination sends := by
  simp [arriving]

private theorem arriving_append (destination : SockAddr) (sends sends' : Sends) :
    arriving destination (sends ++ sends') =
      arriving destination sends ++ arriving destination sends' := by
  simp [arriving]

private theorem lineStep_server {l l' : Line} {t : Turn} {bytes : Datagram} {rest : List Datagram}
    (hserver : l.toServer = bytes :: rest) (hclient : l.toClient = [])
    (h : lineStep c l t = some l') :
    l' = l.serverReacts c (.datagram c.clientAddr bytes) rest := by
  cases t <;> simp_all [lineStep, Line.quiet]

private theorem lineStep_client {l l' : Line} {t : Turn} {bytes : Datagram} {rest : List Datagram}
    (hserver : l.toServer = []) (hclient : l.toClient = bytes :: rest)
    (h : lineStep c l t = some l') :
    l' = l.clientReacts c (.datagram c.client.serverAddr bytes) rest := by
  cases t <;> simp_all [lineStep, Line.quiet]

private theorem lineDone_step {l l' : Line} {t : Turn} (hdone : LineDone c l)
    (h : lineStep c l t = some l') : LineDone c l' := by
  obtain ⟨hclient, hserver, hhandlings, htoServer, htoClient⟩ := hdone
  cases t with
  | serverReceives => simp [lineStep, htoServer] at h
  | clientReceives => simp [lineStep, htoClient] at h
  | clientTimesOut => simp [lineStep, hclient, ClientState.running] at h
  | serverTimesOut =>
      simp only [lineStep, Line.quiet, htoServer, htoClient, List.isEmpty_nil, Bool.and_self,
        if_true, Option.some.injEq] at h
      subst h
      simp [LineDone, Line.serverReacts, hclient, hserver, hhandlings, htoClient,
        handleUdpConnection, Reaction.goto, record]

end Steps

/-! ## The DATA packets still to come -/

/-- The packets from number `n` on. -/
inductive Remaining (c : Transfer) : Nat → List Datagram → Prop where
  | done {n : Nat} (h : c.data.length ≤ n * bufferSize) : Remaining c n []
  | more {n : Nat} {packets : List Datagram} (h : n * bufferSize < c.data.length)
      (rest : Remaining c (n + 1) packets) : Remaining c n (c.dataNumber n :: packets)

section Remaining

variable {c : Transfer}

private theorem sendDataPackets_remaining {fuel packetNumber offset : Nat}
    (hoffset : offset = min (packetNumber * bufferSize) c.data.length)
    (hfuel : c.data.length < offset + fuel) :
    Remaining c packetNumber
      (arriving c.client.serverAddr (sendDataPackets c.client fuel packetNumber offset)) := by
  induction fuel generalizing packetNumber offset with
  | zero => omega
  | succ fuel ih =>
      unfold sendDataPackets
      split
      · rename_i hlt
        have hlt : offset < c.data.length := hlt
        have heq : offset = packetNumber * bufferSize := by omega
        rw [heq] at hlt
        have hnext := offset_succ hlt
        have hpos : 1 ≤ ((c.client.data.drop offset).take bufferSize).length :=
          heq ▸ length_chunk_pos hlt
        rw [arriving_append, arriving_sendTo, dataAt_eq heq]
        refine .more hlt (ih ?_ (by omega))
        rw [heq]
        exact hnext
      · rename_i hend
        have hend : ¬ offset < c.data.length := hend
        exact .done (by omega)

end Remaining

/-! ## The plain protocol -/

section Udp

variable {c : Transfer}

def Transfer.packets (c : Transfer) : Nat := (c.data.length + bufferSize - 1) / bufferSize

private theorem lt_packets {n : Nat} : n * bufferSize < c.data.length ↔ n < c.packets := by
  unfold Transfer.packets bufferSize
  omega

/-- The serving after the first `n` packets. -/
def Transfer.serving (c : Transfer) (n : Nat) (rcvdSent : Bool) : Handling :=
  ⟨c.session, c.data.take (n * bufferSize), rcvdSent⟩

/-- The phases of a plain transfer, each with the number of steps ahead. -/
inductive UdpPhase (c : Transfer) : Line → Nat → Prop where
  | conn :
      UdpPhase c ⟨.recvConacc 0, .waitConn, [c.conn], [], []⟩ (c.packets + 3)
  | conacc (hpos : 0 < c.data.length) :
      UdpPhase c ⟨.recvConacc 0, .recvData c.session c.data.length 0 0, [],
        [conaccPacket c.client.sessionId], [c.serving 0 false]⟩ (c.packets + 2)
  | conaccEmpty (hempty : c.data = []) :
      UdpPhase c ⟨.recvConacc 0, .waitConn, [],
        [conaccPacket c.client.sessionId, rcvdPacket c.client.sessionId],
        [⟨c.session, c.data, true⟩]⟩ 2
  | data (n : Nat) (packets : List Datagram) (hn : n * bufferSize < c.data.length)
      (h : Remaining c n packets) :
      UdpPhase c ⟨.recvRcvd, .recvData c.session c.data.length (n * bufferSize) n, packets,
        [], [c.serving n false]⟩ (c.packets - n + 1)
  | rcvd :
      UdpPhase c ⟨.recvRcvd, .waitConn, [], [rcvdPacket c.client.sessionId],
        [⟨c.session, c.data, true⟩]⟩ 1
  | done :
      UdpPhase c ⟨.succeeded, .waitConn, [], [], [⟨c.session, c.data, true⟩]⟩ 0

theorem Remaining.eq_nil {n : Nat} {packets : List Datagram} (h : Remaining c n packets)
    (hn : c.data.length ≤ n * bufferSize) : packets = [] := by
  cases h with
  | done h => rfl
  | more h rest => omega

theorem Remaining.eq_cons {n : Nat} {packets : List Datagram} (h : Remaining c n packets)
    (hn : n * bufferSize < c.data.length) :
    ∃ rest, packets = c.dataNumber n :: rest ∧ Remaining c (n + 1) rest := by
  cases h with
  | done h => omega
  | more h rest => exact ⟨_, rfl, rest⟩

theorem take_all {n : Nat} (hn : c.data.length ≤ n * bufferSize) :
    c.data.take (n * bufferSize) = c.data :=
  List.take_of_length_le hn

private theorem udpPhase_conn (hudp : c.protocol = .udp) :
    ∃ m < c.packets + 3, UdpPhase c
      (Line.serverReacts c ⟨.recvConacc 0, .waitConn, [c.conn], [], []⟩
        (.datagram c.clientAddr c.conn) []) m := by
  simp only [Line.serverReacts, handleUdpConnection_conn_udp hudp, loopRecvData]
  by_cases hpos : 0 < c.data.length
  · refine ⟨c.packets + 2, by omega, ?_⟩
    have hphase := UdpPhase.conacc hpos
    simpa [hpos, Transfer.conacc, record, Transfer.serving] using hphase
  · have hempty : c.data = [] := by simpa using hpos
    refine ⟨2, by omega, ?_⟩
    have hphase := UdpPhase.conaccEmpty hempty
    simpa [hempty, Transfer.conacc, record, Transfer.session] using hphase

private theorem udpPhase_conacc (hudp : c.protocol = .udp) (hpos : 0 < c.data.length) :
    ∃ m < c.packets + 2, UdpPhase c
      (Line.clientReacts c ⟨.recvConacc 0, .recvData c.session c.data.length 0 0, [],
        [conaccPacket c.client.sessionId], [c.serving 0 false]⟩
        (.datagram c.client.serverAddr (conaccPacket c.client.sessionId)) []) m := by
  have hremaining : Remaining c 0 (arriving c.client.serverAddr
      (sendDataPackets c.client (c.data.length + 1) 0 0)) :=
    sendDataPackets_remaining (by simp) (by omega)
  have hfirst : 0 * bufferSize < c.data.length := by omega
  refine ⟨c.packets - 0 + 1, by omega, ?_⟩
  have hphase := UdpPhase.data 0 _ hfirst hremaining
  simpa [Line.clientReacts, handleClient_conacc_udp hudp] using hphase

private theorem udpPhase_conaccEmpty (hudp : c.protocol = .udp) (hempty : c.data = []) :
    UdpPhase c
      (Line.clientReacts c ⟨.recvConacc 0, .waitConn, [],
        [conaccPacket c.client.sessionId, rcvdPacket c.client.sessionId],
        [⟨c.session, c.data, true⟩]⟩
        (.datagram c.client.serverAddr (conaccPacket c.client.sessionId))
        [rcvdPacket c.client.sessionId]) 1 := by
  have hempty' : c.client.data = [] := hempty
  have hphase := UdpPhase.rcvd (c := c)
  simpa [Line.clientReacts, handleClient_conacc_udp hudp, hempty, hempty', sendDataPackets]
    using hphase

private theorem udpPhase_data {n : Nat} {rest : List Datagram} (hn : n * bufferSize < c.data.length)
    (h : Remaining c (n + 1) rest) :
    ∃ m < c.packets - n + 1, UdpPhase c
      (Line.serverReacts c ⟨.recvRcvd, .recvData c.session c.data.length (n * bufferSize) n,
        c.dataNumber n :: rest, [], [c.serving n false]⟩
        (.datagram c.clientAddr (c.dataNumber n)) rest) m := by
  have hnext := offset_succ hn
  have htake := take_succ_chunk c.data n
  have hpackets := lt_packets.mp hn
  have hroom : n * bufferSize + (chunk c.data n).length ≤ c.data.length := by omega
  simp only [Line.serverReacts, handleUdpConnection_data hn hroom, hnext, loopRecvData]
  by_cases hmore : (n + 1) * bufferSize < c.data.length
  · have hphase := UdpPhase.data (n + 1) rest hmore h
    refine ⟨c.packets - (n + 1) + 1, by omega, ?_⟩
    rw [Nat.min_eq_left hmore.le, if_pos hmore]
    simp only [record, Transfer.serving, ← htake]
    simpa [Transfer.serving] using hphase
  · have hend : c.data.length ≤ (n + 1) * bufferSize := by omega
    have hphase := UdpPhase.rcvd (c := c)
    refine ⟨1, by omega, ?_⟩
    rw [Nat.min_eq_right hend, if_neg (lt_irrefl _), h.eq_nil hend]
    simp only [record, Transfer.serving, ← htake, take_all hend]
    simpa [Transfer.session] using hphase

private theorem udpPhase_step (hudp : c.protocol = .udp) {l : Line} {n : Nat} (h : UdpPhase c l n) :
    LineDone c l ∨ (∃ t, (lineStep c l t).isSome) ∧
      ∀ t l', lineStep c l t = some l' → ∃ m, m < n ∧ UdpPhase c l' m := by
  cases h with
  | conn =>
      refine .inr ⟨⟨.serverReceives, rfl⟩, fun t l' hstep => ?_⟩
      rw [lineStep_server rfl rfl hstep]
      exact udpPhase_conn hudp
  | conacc hpos =>
      refine .inr ⟨⟨.clientReceives, rfl⟩, fun t l' hstep => ?_⟩
      rw [lineStep_client rfl rfl hstep]
      exact udpPhase_conacc hudp hpos
  | conaccEmpty hempty =>
      refine .inr ⟨⟨.clientReceives, rfl⟩, fun t l' hstep => ?_⟩
      rw [lineStep_client rfl rfl hstep]
      exact ⟨1, by omega, udpPhase_conaccEmpty hudp hempty⟩
  | data n packets hn hremaining =>
      obtain ⟨rest, rfl, hrest⟩ := hremaining.eq_cons hn
      refine .inr ⟨⟨.serverReceives, rfl⟩, fun t l' hstep => ?_⟩
      rw [lineStep_server rfl rfl hstep]
      exact udpPhase_data hn hrest
  | rcvd =>
      refine .inr ⟨⟨.clientReceives, rfl⟩, fun t l' hstep => ?_⟩
      rw [lineStep_client rfl rfl hstep]
      have hphase := UdpPhase.done (c := c)
      exact ⟨0, by omega, by simpa [Line.clientReacts, handleClient_rcvd] using hphase⟩
  | done => exact .inl ⟨rfl, rfl, rfl, rfl, rfl⟩

theorem udp_inevitable (hudp : c.protocol = .udp) :
    Inevitable (lineStep c) (LineDone c) (.init c) := by
  apply inevitable_of_variant (fun l n => udpPhase_step hudp) (fun _ _ _ => lineDone_step)
  simpa [Line.init] using UdpPhase.conn (c := c)

end Udp

/-! ## The retransmitting protocol -/

section Udpr

variable {c : Transfer}

/-- The server as it waits for packet `n`: the first one in a loop of its own. -/
def Transfer.awaiting (c : Transfer) (n : Nat) : ServerState :=
  if n = 0 then .recvFirst c.session c.data.length 0
  else .recvNext c.session (c.data.length - (chunk c.data 0).length)
    (n * bufferSize - (chunk c.data 0).length) n 0

/-- The phases of a retransmitting transfer, each with the number of steps ahead. -/
inductive UdprPhase (c : Transfer) : Line → Nat → Prop where
  | conn :
      UdprPhase c ⟨.recvConacc 0, .waitConn, [c.conn], [], []⟩ (2 * c.packets + 3)
  | conacc :
      UdprPhase c ⟨.recvConacc 0, c.awaiting 0, [], [conaccPacket c.client.sessionId],
        [c.serving 0 false]⟩ (2 * c.packets + 2)
  | data (n : Nat) (hn : n * bufferSize < c.data.length) :
      UdprPhase c ⟨.recvAcc n (n * bufferSize) 0, c.awaiting n, [c.dataNumber n], [],
        [c.serving n false]⟩ (2 * (c.packets - n) + 1)
  | acc (n : Nat) (hn : (n + 1) * bufferSize < c.data.length) :
      UdprPhase c ⟨.recvAcc n (n * bufferSize) 0, c.awaiting (n + 1), [],
        [accPacket c.client.sessionId n], [c.serving (n + 1) false]⟩ (2 * (c.packets - n))
  | accRcvd (n : Nat) (hn : n * bufferSize < c.data.length)
      (hend : c.data.length ≤ (n + 1) * bufferSize) :
      UdprPhase c ⟨.recvAcc n (n * bufferSize) 0, .waitConn, [],
        [accPacket c.client.sessionId n, rcvdPacket c.client.sessionId],
        [⟨c.session, c.data, true⟩]⟩ 2
  | rcvd :
      UdprPhase c ⟨.recvRcvd, .waitConn, [], [rcvdPacket c.client.sessionId],
        [⟨c.session, c.data, true⟩]⟩ 1
  | done :
      UdprPhase c ⟨.succeeded, .waitConn, [], [], [⟨c.session, c.data, true⟩]⟩ 0

private theorem handleUdpConnection_awaiting {n : Nat} (hn : n * bufferSize < c.data.length) :
    handleUdpConnection (c.awaiting n) (.datagram c.clientAddr (c.dataNumber n)) =
      loopSendAcc c.session (c.data.length - (chunk c.data 0).length)
        (min ((n + 1) * bufferSize) c.data.length - (chunk c.data 0).length) n
        (chunk c.data n) := by
  have hfirst := length_chunk c.data 0
  have hnext := offset_succ hn
  unfold Transfer.awaiting
  by_cases hzero : n = 0
  · subst hzero
    have hsize : min ((0 + 1) * bufferSize) c.data.length - (chunk c.data 0).length = 0 := by
      omega
    rw [if_pos rfl, handleUdpConnection_first (by omega), hsize]
  · have hmul : 1 * bufferSize ≤ n * bufferSize := Nat.mul_le_mul_right _ (by omega)
    have hread : n * bufferSize - (chunk c.data 0).length + (chunk c.data n).length =
        min ((n + 1) * bufferSize) c.data.length - (chunk c.data 0).length := by
      omega
    have hroom : n * bufferSize - (chunk c.data 0).length + (chunk c.data n).length ≤
        c.data.length - (chunk c.data 0).length := by
      omega
    rw [if_neg hzero, handleUdpConnection_next hn (Nat.sub_le _ _) hroom, hread]

private theorem udprPhase_conn (hudpr : c.protocol = .udpr) :
    UdprPhase c
      (Line.serverReacts c ⟨.recvConacc 0, .waitConn, [c.conn], [], []⟩
        (.datagram c.clientAddr c.conn) []) (2 * c.packets + 2) := by
  have hphase := UdprPhase.conacc (c := c)
  simpa [Line.serverReacts, handleUdpConnection_conn_udpr hudpr, Transfer.conacc, record,
    Transfer.serving, Transfer.awaiting] using hphase

private theorem loopSendData_next {n : Nat} (hn : n * bufferSize < c.data.length) :
    loopSendData c.client n (n * bufferSize) =
      (.recvAcc n (n * bufferSize) 0, sendTo c.client (c.dataNumber n)) := by
  have hlt : n * bufferSize < c.client.data.length := hn
  rw [loopSendData, if_pos hlt, dataAt_eq rfl]

private theorem udprPhase_conacc (hudpr : c.protocol = .udpr) (hpos : 0 < c.data.length) :
    UdprPhase c
      (Line.clientReacts c ⟨.recvConacc 0, c.awaiting 0, [],
        [conaccPacket c.client.sessionId], [c.serving 0 false]⟩
        (.datagram c.client.serverAddr (conaccPacket c.client.sessionId)) [])
      (2 * (c.packets - 0) + 1) := by
  have hfirst : 0 * bufferSize < c.data.length := by omega
  have hphase := UdprPhase.data 0 hfirst
  have hsend := loopSendData_next hfirst
  rw [Nat.zero_mul] at hsend
  simpa [Line.clientReacts, handleClient_conacc_udpr hudpr, hsend] using hphase

private theorem udprPhase_data {n : Nat} (hn : n * bufferSize < c.data.length) :
    UdprPhase c
      (Line.serverReacts c ⟨.recvAcc n (n * bufferSize) 0, c.awaiting n, [c.dataNumber n], [],
        [c.serving n false]⟩ (.datagram c.clientAddr (c.dataNumber n)) [])
      (2 * (c.packets - n)) := by
  have htake := take_succ_chunk c.data n
  have hpackets := lt_packets.mp hn
  have hfirst : (chunk c.data 0).length ≤ (n + 1) * bufferSize :=
    (length_chunk_le c.data 0).trans (Nat.le_mul_of_pos_left _ n.succ_pos)
  simp only [Line.serverReacts, handleUdpConnection_awaiting hn, loopSendAcc,
    number_succ hn]
  by_cases hmore : (n + 1) * bufferSize < c.data.length
  · have hless : ¬ min ((n + 1) * bufferSize) c.data.length - (chunk c.data 0).length =
        c.data.length - (chunk c.data 0).length := by
      generalize (n + 1) * bufferSize = next at hmore hfirst
      omega
    have hphase := UdprPhase.acc n hmore
    rw [if_neg hless, Nat.min_eq_left hmore.le]
    simp only [record, Transfer.serving, ← htake]
    simpa [Transfer.serving, Transfer.awaiting, Transfer.session] using hphase
  · have hend : c.data.length ≤ (n + 1) * bufferSize := by omega
    have hphase := UdprPhase.accRcvd n hn hend
    have hlast : 2 * (c.packets - n) = 2 := by
      have := mt lt_packets.mpr hmore
      omega
    rw [hlast, Nat.min_eq_right hend, if_pos rfl]
    simp only [record, Transfer.serving, ← htake, take_all hend]
    simpa [Transfer.session] using hphase

private theorem udprPhase_acc {n : Nat} (hudpr : c.protocol = .udpr)
    (hn : (n + 1) * bufferSize < c.data.length) :
    UdprPhase c
      (Line.clientReacts c ⟨.recvAcc n (n * bufferSize) 0, c.awaiting (n + 1), [],
        [accPacket c.client.sessionId n], [c.serving (n + 1) false]⟩
        (.datagram c.client.serverAddr (accPacket c.client.sessionId n)) [])
      (2 * (c.packets - (n + 1)) + 1) := by
  have hlt : n * bufferSize < c.data.length :=
    lt_of_le_of_lt (Nat.mul_le_mul_right _ (Nat.le_succ n)) hn
  have hphase := UdprPhase.data (n + 1) hn
  simpa [Line.clientReacts, handleClient_acc hudpr hlt, offset_succ hlt,
    Nat.min_eq_left hn.le, loopSendData_next hn] using hphase

private theorem udprPhase_accRcvd {n : Nat} (hudpr : c.protocol = .udpr)
    (hn : n * bufferSize < c.data.length) (hend : c.data.length ≤ (n + 1) * bufferSize) :
    UdprPhase c
      (Line.clientReacts c ⟨.recvAcc n (n * bufferSize) 0, .waitConn, [],
        [accPacket c.client.sessionId n, rcvdPacket c.client.sessionId],
        [⟨c.session, c.data, true⟩]⟩
        (.datagram c.client.serverAddr (accPacket c.client.sessionId n))
        [rcvdPacket c.client.sessionId]) 1 := by
  have hphase := UdprPhase.rcvd (c := c)
  have hstop : loopSendData c.client (n + 1) c.data.length = (.recvRcvd, []) := by
    simp [loopSendData, Transfer.data]
  simpa [Line.clientReacts, handleClient_acc hudpr hn, offset_succ hn, Nat.min_eq_right hend,
    hstop] using hphase

private theorem udprPhase_step (hudpr : c.protocol = .udpr) (hpos : 0 < c.data.length) {l : Line}
    {n : Nat} (h : UdprPhase c l n) :
    LineDone c l ∨ (∃ t, (lineStep c l t).isSome) ∧
      ∀ t l', lineStep c l t = some l' → ∃ m, m < n ∧ UdprPhase c l' m := by
  cases h with
  | conn =>
      refine .inr ⟨⟨.serverReceives, rfl⟩, fun t l' hstep => ?_⟩
      rw [lineStep_server rfl rfl hstep]
      exact ⟨_, by omega, udprPhase_conn hudpr⟩
  | conacc =>
      refine .inr ⟨⟨.clientReceives, rfl⟩, fun t l' hstep => ?_⟩
      rw [lineStep_client rfl rfl hstep]
      exact ⟨_, by omega, udprPhase_conacc hudpr hpos⟩
  | data n hn =>
      refine .inr ⟨⟨.serverReceives, rfl⟩, fun t l' hstep => ?_⟩
      rw [lineStep_server rfl rfl hstep]
      exact ⟨_, by omega, udprPhase_data hn⟩
  | acc n hn =>
      have hpackets := lt_packets.mp hn
      refine .inr ⟨⟨.clientReceives, rfl⟩, fun t l' hstep => ?_⟩
      rw [lineStep_client rfl rfl hstep]
      exact ⟨_, by omega, udprPhase_acc hudpr hn⟩
  | accRcvd n hn hend =>
      refine .inr ⟨⟨.clientReceives, rfl⟩, fun t l' hstep => ?_⟩
      rw [lineStep_client rfl rfl hstep]
      exact ⟨1, by omega, udprPhase_accRcvd hudpr hn hend⟩
  | rcvd =>
      refine .inr ⟨⟨.clientReceives, rfl⟩, fun t l' hstep => ?_⟩
      rw [lineStep_client rfl rfl hstep]
      have hphase := UdprPhase.done (c := c)
      exact ⟨0, by omega, by simpa [Line.clientReacts, handleClient_rcvd] using hphase⟩
  | done => exact .inl ⟨rfl, rfl, rfl, rfl, rfl⟩

theorem udpr_inevitable (hudpr : c.protocol = .udpr) (hpos : 0 < c.data.length) :
    Inevitable (lineStep c) (LineDone c) (.init c) := by
  apply inevitable_of_variant (fun l n => udprPhase_step hudpr hpos)
    (fun _ _ _ => lineDone_step)
  simpa [Line.init] using UdprPhase.conn (c := c)

/-- Without data the client awaits RCVD and the server a first DATA packet; the
client gives up. -/
private theorem udpr_empty_fails (hudpr : c.protocol = .udpr) (hempty : c.data = []) :
    run (lineStep c) (.init c) [.serverReceives, .clientReceives, .clientTimesOut] =
      some ⟨.failed, .recvFirst c.session 0 0, [], [], [⟨c.session, [], false⟩]⟩ := by
  have hempty' : c.client.data = [] := hempty
  have htimeout : c.handleClient .recvRcvd .timeout = (.failed, []) := by
    simp [Transfer.handleClient, hudpr, handleUdprClient]
  simp [run, lineStep, Line.init, Line.serverReacts, Line.clientReacts, Line.quiet,
    handleUdpConnection_conn_udpr hudpr, Transfer.conacc, record, hempty, hempty',
    handleClient_conacc_udpr hudpr, loopSendData, htimeout, ClientState.running]

private theorem failed_stays {l l' : Line} {t : Turn} (hfailed : l.client = .failed)
    (h : lineStep c l t = some l') : l'.client = .failed := by
  cases t with
  | serverReceives =>
      simp only [lineStep] at h
      split at h
      · cases h
        exact hfailed
      · cases h
  | serverTimesOut =>
      simp only [lineStep] at h
      split at h
      · cases h
        exact hfailed
      · cases h
  | clientReceives =>
      simp only [lineStep, hfailed, ClientState.running] at h
      split at h <;> simp at h
  | clientTimesOut => simp [lineStep, hfailed, ClientState.running] at h

theorem udpr_empty_not_inevitable (hudpr : c.protocol = .udpr) (hempty : c.data = []) :
    ¬ Inevitable (lineStep c) (LineDone c) (.init c) := by
  refine not_inevitable (I := fun l => l.client = .failed) ?_ (fun _ _ _ => failed_stays)
    (udpr_empty_fails hudpr hempty) rfl
  rintro l hfailed ⟨hsucceeded, -⟩
  simp [hfailed] at hsucceeded

end Udpr

end Mimuw.Ppcb
