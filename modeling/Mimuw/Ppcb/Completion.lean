import Mimuw.Ppcb.Tcp

/-!
# Fault-free sessions under the three protocols

The same data goes over a fault-free network with each of the three pairs of
client and server.
-/

namespace Mimuw.Ppcb

open Mimuw.Lib

inductive Protocol where
  | tcp
  | datagram (protocol : DatagramProtocol)
  deriving DecidableEq

/-- Over a fault-free network every run of the session comes to success on both
sides, with exactly the data accepted. -/
def CompletesFaultFree (client : ClientConfig) (clientAddr : SockAddr)
    (fits : client.data.length < 2 ^ 64) : Protocol → Prop
  | .tcp => Inevitable (tcpStep client) (TcpDone client) (.init client)
  | .datagram protocol =>
      let c : Transfer := ⟨protocol, client, clientAddr, fits⟩
      Inevitable (lineStep c) (LineDone c) (.init c)

/-- Of the three protocols, only the retransmitting one with nothing to send
does not complete. -/
theorem completes_iff (client : ClientConfig) (clientAddr : SockAddr)
    (fits : client.data.length < 2 ^ 64) (protocol : Protocol) :
    CompletesFaultFree client clientAddr fits protocol ↔
      (protocol = .datagram .udpr → client.data ≠ []) := by
  cases protocol with
  | tcp =>
      have hdone := tcp_inevitable ⟨.udp, client, clientAddr, fits⟩
      simpa [CompletesFaultFree] using hdone
  | datagram protocol =>
      cases protocol with
      | udp =>
          have hdone := udp_inevitable (c := ⟨.udp, client, clientAddr, fits⟩) rfl
          simpa [CompletesFaultFree] using hdone
      | udpr =>
          constructor
          · intro hdone _ hempty
            exact udpr_empty_not_inevitable (c := ⟨.udpr, client, clientAddr, fits⟩) rfl hempty
              hdone
          · intro hsome
            exact udpr_inevitable rfl (List.length_pos_iff.mpr (hsome rfl))

theorem completes_oneByte :
    CompletesFaultFree oneByte.client oneByte.clientAddr oneByte.fits (.datagram .udpr) :=
  (completes_iff oneByte.client oneByte.clientAddr oneByte.fits (.datagram .udpr)).mpr
    fun _ => by decide

/-- Nothing to send, over the retransmitting protocol. -/
theorem empty_session_fails :
    ¬ CompletesFaultFree ⟨[], ⟨[1, 2, 3, 4, 5, 6, 7, 8], rfl⟩, ⟨16777343, 2000⟩⟩
      ⟨16777343, 3000⟩ (by decide) (.datagram .udpr) :=
  udpr_empty_not_inevitable rfl rfl

end Mimuw.Ppcb
