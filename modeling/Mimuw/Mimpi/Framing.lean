import Mimuw.Lib.Bytes
import Mimuw.Mimpi.Steps

/-!
# Messages on a channel

A channel carries bytes.  `MIMPI_Send` cuts the header and the payload of a message into
chunks; `receive_message` reads a header and then the payload, as much of it as there is.
The model of the library has whole messages on its channels, and this is why it may.

`chsend` appends its chunk at once, and `chrecv` returns the bytes that are there, up to
the number asked for.
-/

namespace Mimuw.Mimpi

open Mimuw.Lib

def maxChunkSize : Nat := 512

/-! ## Headers -/

/-- An `int` in memory, the least significant byte first. -/
def intBytes (n : Int) : List UInt8 := (toBytes 4 (n % 2 ^ 32).toNat).reverse

def readInt (bytes : List UInt8) : Int :=
  let n := ofBytes bytes.reverse
  if n < 2 ^ 31 then n else n - 2 ^ 32

/-- A message that `MIMPI_Send` is called with.  A control message has no bytes. -/
structure Outgoing where
  message : Message
  /-- what stands in `msg->data`, an address of the sender or `NULL` -/
  pointer : List UInt8
  pointer_size : pointer.length = 8
  count_fits : message.data.length < 2 ^ 31
  tag_fits : -2 ^ 31 ≤ message.tag ∧ message.tag < 2 ^ 31
  control : message.tag ∈ [finishedTag, barrierTag, deadlockTag, waitingTag, notWaitingTag] →
    message.data = []

/-- `sizeof(message_t)` -/
def headerSize : Nat := 24

/-- A `message_t`: `data`, `count`, `tag` and `next`. -/
def header (m : Outgoing) : List UInt8 :=
  m.pointer ++ intBytes m.message.data.length ++ intBytes m.message.tag ++ List.replicate 8 0

def wire (m : Outgoing) : List UInt8 := header m ++ m.message.data

def countField (header : List UInt8) : Int := readInt (slice header 8 4)

def tagField (header : List UInt8) : Int := readInt (slice header 12 4)

/-! ## The channel and its two ends -/

/-- Where the receiver thread is in `receive_message`. -/
inductive Reading where
  /-- before the header -/
  | header
  /-- in the loop that reads the payload, with what it has got -/
  | payload (tag : Int) (count : Nat) (got : List UInt8)
  deriving DecidableEq

structure Link where
  /-- the calls of `MIMPI_Send` that have not begun -/
  toSend : List Outgoing
  /-- what the call that has begun still has to write -/
  writing : List UInt8
  fifo : List UInt8
  reading : Reading
  /-- the variables of the receiver -/
  rank : Rank

def Link.init (sent : List Outgoing) : Link := ⟨sent, [], [], .header, .init⟩

inductive LinkAction where
  /-- the next call of `MIMPI_Send` begins -/
  | send
  /-- one `chsend` -/
  | write
  /-- one `chrecv` -/
  | read
  deriving DecidableEq

/-- The control messages are handled before any payload is read. -/
def isControl (cfg : Config) (tag : Int) : Bool :=
  cfg.deadlockDetection && (tag = deadlockTag || tag = waitingTag || tag = notWaitingTag) ||
    tag = finishedTag || tag = barrierTag

section Link

variable (cfg : Config) (i : Nat)

/-- The test of the loop over the payload, and what comes after the loop. -/
def Link.collect (l : Link) (tag : Int) (count : Nat) (got : List UInt8) : Link :=
  if got.length < count then { l with reading := .payload tag count got }
  else { l with reading := .header, rank := l.rank.receiveMessage cfg i ⟨tag, got⟩ }

/-- `receive_message` after `chrecv` of the header; a short read is dropped.  A negative
count is undefined behaviour. -/
def Link.readHeader (l : Link) (bytes : List UInt8) : Option Link :=
  if bytes.length ≠ headerSize then some l
  else if isControl cfg (tagField bytes) then
    some { l with rank := l.rank.receiveMessage cfg i ⟨tagField bytes, []⟩ }
  else if countField bytes < 0 then none
  else some (l.collect cfg i (tagField bytes) (countField bytes).toNat [])

def linkStep (l : Link) : LinkAction → Option Link
  | .send =>
      match l.toSend with
      | m :: rest =>
          if l.writing = [] then some { l with toSend := rest, writing := wire m } else none
      | [] => none
  | .write =>
      if l.writing = [] then none
      else some { l with
        writing := l.writing.drop maxChunkSize
        fifo := l.fifo ++ l.writing.take maxChunkSize }
  | .read =>
      if l.fifo = [] then none
      else
        match l.reading with
        | .header =>
            Link.readHeader cfg i { l with fifo := l.fifo.drop headerSize }
              (l.fifo.take headerSize)
        | .payload tag count got =>
            let chunkSize := min maxChunkSize (count - got.length)
            some (Link.collect cfg i { l with fifo := l.fifo.drop chunkSize } tag count
              (got ++ l.fifo.take chunkSize))

end Link

/-! ## Headers are read back -/

@[simp] theorem length_intBytes (n : Int) : (intBytes n).length = 4 := by
  simp [intBytes]

private theorem readInt_intBytes {n : Int} (h : -2 ^ 31 ≤ n ∧ n < 2 ^ 31) :
    readInt (intBytes n) = n := by
  have hmod : ((n % 2 ^ 32).toNat : Int) = n % 2 ^ 32 :=
    Int.toNat_of_nonneg (Int.emod_nonneg n (by decide))
  have hvalue : ofBytes (intBytes n).reverse = (n % 2 ^ 32).toNat := by
    rw [intBytes, List.reverse_reverse, ofBytes_toBytes]
    apply Nat.mod_eq_of_lt
    omega
  simp only [readInt, hvalue]
  split <;> omega

@[simp] theorem length_header (m : Outgoing) : (header m).length = headerSize := by
  simp [header, m.pointer_size, headerSize]

@[simp] theorem length_wire (m : Outgoing) :
    (wire m).length = headerSize + m.message.data.length := by
  simp [wire]

private theorem countField_header (m : Outgoing) :
    countField (header m) = m.message.data.length := by
  have hslice : slice (header m) 8 4 = intBytes m.message.data.length := by
    rw [header, List.append_assoc (m.pointer ++ _)]
    exact slice_mid m.pointer_size.symm (by simp)
  rw [countField, hslice]
  apply readInt_intBytes
  have := m.count_fits
  omega

private theorem tagField_header (m : Outgoing) : tagField (header m) = m.message.tag := by
  have hslice : slice (header m) 12 4 = intBytes m.message.tag := by
    rw [header]
    exact slice_mid (by simp [m.pointer_size]) (by simp)
  rw [tagField, hslice, readInt_intBytes m.tag_fits]

/-! ## What is where -/

def wires (ms : List Outgoing) : List UInt8 := ms.flatMap wire

/-- The variables after some messages have been received whole. -/
def receivedWhole (cfg : Config) (i : Nat) (ms : List Message) : Rank :=
  ms.foldl (fun x m => x.receiveMessage cfg i m) .init

/-- The messages sent are those received, the one being read, those with bytes on the
channel or being written, and those not begun; `left` is missing of the one being read. -/
structure Parts (cfg : Config) (i : Nat) (sent : List Outgoing) (l : Link)
    (taken current inflight : List Outgoing) (left : List UInt8) : Prop where
  sent_eq : sent = taken ++ (current ++ (inflight ++ l.toSend))
  bytes : l.fifo ++ l.writing = left ++ wires inflight
  /-- the header is written first, all in one chunk -/
  chunk : ∀ m ∈ inflight.getLast?, l.writing.length = (wire m).length ∨
    l.writing.length ≤ m.message.data.length
  rank_eq : l.rank = receivedWhole cfg i (taken.map Outgoing.message)

/-- The invariant of the channel. -/
inductive Framed (cfg : Config) (i : Nat) (sent : List Outgoing) (l : Link) : Prop where
  | header (taken inflight : List Outgoing) (hreading : l.reading = .header)
      (h : Parts cfg i sent l taken [] inflight [])
  | payload (taken : List Outgoing) (m : Outgoing) (inflight : List Outgoing)
      (got left : List UInt8)
      (hreading : l.reading = .payload m.message.tag m.message.data.length got)
      (hdata : m.message.data = got ++ left) (hleft : left ≠ [])
      (h : Parts cfg i sent l taken [m] inflight left)

section Steps

variable {cfg : Config} {i : Nat} {sent taken current inflight : List Outgoing} {l l' : Link}
  {m : Outgoing} {got left : List UInt8}

private theorem framed_init (sent : List Outgoing) : Framed cfg i sent (.init sent) :=
  .header [] [] rfl ⟨rfl, rfl, by simp, rfl⟩

private theorem length_wire_le {z : Outgoing} {ms : List Outgoing} (h : z ∈ ms) :
    (wire z).length ≤ (wires ms).length := by
  induction ms with
  | nil => cases h
  | cons m ms ih =>
      rw [wires, List.flatMap_cons, List.length_append]
      rcases List.mem_cons.mp h with rfl | h
      · exact Nat.le_add_right _ _
      · exact (ih h).trans (Nat.le_add_left _ _)

/-- Where a header is to be read and there is something to read, there is all of it. -/
private theorem header_complete (h : Parts cfg i sent l taken [] (m :: inflight) [])
    (hfifo : l.fifo ≠ []) : headerSize ≤ l.fifo.length := by
  have hlength := congrArg List.length h.bytes
  simp only [List.nil_append, wires, List.flatMap_cons, List.length_append, length_wire] at hlength
  have hpos := List.length_pos_iff.mpr hfifo
  cases inflight with
  | nil =>
      have hchunk := h.chunk m rfl
      simp only [List.flatMap_nil, List.length_nil, length_wire] at hlength hchunk
      omega
  | cons m' inflight =>
      obtain ⟨z, hz⟩ : ∃ z, (m' :: inflight).getLast? = some z :=
        ⟨_, List.getLast?_eq_some_getLast (by simp)⟩
      have hchunk := h.chunk z (by rw [List.getLast?_cons_cons]; exact hz)
      have hwire := length_wire_le (List.mem_of_getLast? hz)
      rw [wires] at hwire
      simp only [length_wire] at hchunk hwire
      omega

private theorem framed_collect (h : Parts cfg i sent l taken [m] inflight left)
    (hdata : m.message.data = got ++ left) :
    Framed cfg i sent (l.collect cfg i m.message.tag m.message.data.length got) := by
  have hlength := congrArg List.length hdata
  rw [List.length_append] at hlength
  unfold Link.collect
  split
  · rename_i hshort
    have hleft : left ≠ [] := by
      rintro rfl
      simp at hlength
      omega
    exact .payload taken m inflight got left rfl hdata hleft
      ⟨h.sent_eq, h.bytes, h.chunk, h.rank_eq⟩
  · rename_i hall
    obtain rfl : left = [] := List.eq_nil_of_length_eq_zero (by omega)
    rw [List.append_nil] at hdata
    refine .header (taken ++ [m]) inflight rfl ⟨?_, h.bytes, h.chunk, ?_⟩
    · rw [h.sent_eq, List.append_assoc, List.nil_append]
    · rw [List.map_append, receivedWhole, List.foldl_append, ← hdata]
      exact congrArg (·.receiveMessage cfg i m.message) h.rank_eq

theorem Parts.send (h : Parts cfg i sent l taken current inflight left) {rest : List Outgoing}
    (hsend : l.toSend = m :: rest) (hwriting : l.writing = []) :
    Parts cfg i sent { l with toSend := rest, writing := wire m } taken current (inflight ++ [m])
      left := by
  refine ⟨?_, ?_, ?_, h.rank_eq⟩
  · rw [h.sent_eq, hsend, List.append_assoc, List.singleton_append]
  · have hbytes := h.bytes
    rw [hwriting, List.append_nil] at hbytes
    simp only [hbytes, wires, List.flatMap_append, List.flatMap_singleton, List.append_assoc]
  · rintro z hz
    rw [List.getLast?_concat] at hz
    obtain rfl := Option.some.inj hz
    exact .inl rfl

theorem Parts.write (h : Parts cfg i sent l taken current inflight left)
    (hwriting : l.writing ≠ []) :
    Parts cfg i sent { l with
      writing := l.writing.drop maxChunkSize
      fifo := l.fifo ++ l.writing.take maxChunkSize } taken current inflight left := by
  refine ⟨h.sent_eq, ?_, fun z hz => .inr ?_, h.rank_eq⟩
  · rw [← h.bytes, List.append_assoc, List.take_append_drop]
  · have hchunk := h.chunk z hz
    have hpos := List.length_pos_iff.mpr hwriting
    rw [length_wire] at hchunk
    simp only [List.length_drop, maxChunkSize, headerSize] at hchunk ⊢
    omega

private theorem framed_send (h : Framed cfg i sent l) (hstep : linkStep cfg i l .send = some l') :
    Framed cfg i sent l' := by
  simp only [linkStep] at hstep
  split at hstep
  · rename_i m rest hsend
    split at hstep
    · rename_i hwriting
      obtain rfl := Option.some.inj hstep
      cases h with
      | header taken inflight hreading h => exact .header _ _ hreading (h.send hsend hwriting)
      | payload taken m inflight got left hreading hdata hleft h =>
          exact .payload _ _ _ _ _ hreading hdata hleft (h.send hsend hwriting)
    · cases hstep
  · cases hstep

private theorem framed_write (h : Framed cfg i sent l) (hstep : linkStep cfg i l .write = some l') :
    Framed cfg i sent l' := by
  simp only [linkStep] at hstep
  split at hstep
  · cases hstep
  · rename_i hwriting
    obtain rfl := Option.some.inj hstep
    cases h with
    | header taken inflight hreading h => exact .header _ _ hreading (h.write hwriting)
    | payload taken m inflight got left hreading hdata hleft h =>
        exact .payload _ _ _ _ _ hreading hdata hleft (h.write hwriting)

private theorem data_eq_nil_of_isControl (m : Outgoing) (h : isControl cfg m.message.tag = true) :
    m.message.data = [] := by
  apply m.control
  simp only [isControl, Bool.or_eq_true, Bool.and_eq_true, decide_eq_true_eq] at h
  simp only [List.mem_cons, List.not_mem_nil, or_false]
  tauto

private theorem framed_readHeader (hreading : l.reading = .header)
    (h : Parts cfg i sent l taken [] inflight []) (hfifo : l.fifo ≠ []) :
    ∃ l', linkStep cfg i l .read = some l' ∧ Framed cfg i sent l' := by
  cases inflight with
  | nil =>
      have hbytes : l.fifo ++ l.writing = [] := h.bytes
      exact absurd (List.append_eq_nil_iff.mp hbytes).1 hfifo
  | cons m inflight =>
      have hcomplete := header_complete h hfifo
      have hsplit : l.fifo ++ l.writing = header m ++ (m.message.data ++ wires inflight) := by
        rw [h.bytes, wires, List.flatMap_cons, wire, List.nil_append, List.append_assoc]
        rfl
      have htake : l.fifo.take headerSize = header m := by
        rw [← List.take_append_of_le_length hcomplete, hsplit, List.take_left' (length_header m)]
      have hdrop : l.fifo.drop headerSize ++ l.writing = m.message.data ++ wires inflight := by
        rw [← List.drop_append_of_le_length hcomplete, hsplit, List.drop_left' (length_header m)]
      have hparts : Parts cfg i sent { l with fifo := l.fifo.drop headerSize } taken [m] inflight
          m.message.data := by
        refine ⟨h.sent_eq, hdrop, fun z hz => h.chunk z ?_, h.rank_eq⟩
        cases inflight with
        | nil => cases hz
        | cons _ _ => rwa [List.getLast?_cons_cons]
      have hcount : ¬ countField (header m) < 0 := by
        rw [countField_header]
        omega
      have hstep : linkStep cfg i l .read =
          Link.readHeader cfg i { l with fifo := l.fifo.drop headerSize } (header m) := by
        simp only [linkStep, if_neg hfifo, htake]
        split
        · rfl
        · rename_i hpayload
          cases hreading.symm.trans hpayload
      rw [hstep, Link.readHeader, if_neg (not_not.mpr (length_header m)), tagField_header,
        if_neg hcount, countField_header, Int.toNat_natCast]
      split
      · rename_i hcontrol
        have hcollected := framed_collect hparts (List.nil_append _).symm
        simp only [Link.collect, data_eq_nil_of_isControl m hcontrol, List.length_nil, lt_irrefl,
          if_false, ← hreading] at hcollected
        exact ⟨_, rfl, hcollected⟩
      · exact ⟨_, rfl, framed_collect hparts rfl⟩

private theorem framed_readPayload {m : Outgoing} (hreading : l.reading =
      .payload m.message.tag m.message.data.length got)
    (hdata : m.message.data = got ++ left) (hleft : left ≠ [])
    (h : Parts cfg i sent l taken [m] inflight left) (hfifo : l.fifo ≠ []) :
    ∃ l', linkStep cfg i l .read = some l' ∧ Framed cfg i sent l' := by
  have hlength := congrArg List.length hdata
  rw [List.length_append] at hlength
  generalize hk : min maxChunkSize (m.message.data.length - got.length) = k
  have hstep : linkStep cfg i l .read = some (Link.collect cfg i { l with fifo := l.fifo.drop k }
      m.message.tag m.message.data.length (got ++ l.fifo.take k)) := by
    simp only [linkStep, if_neg hfifo, ← hk]
    split
    · rename_i hheader
      cases hreading.symm.trans hheader
    · rename_i hpayload
      obtain ⟨rfl, rfl, rfl⟩ := Reading.payload.inj (hreading.symm.trans hpayload)
      rfl
  -- What is read is the beginning of what is missing, and no more.
  obtain ⟨left', rfl⟩ : l.fifo.take k <+: left := by
    refine List.prefix_of_prefix_length_le ?_ (List.prefix_append left (wires inflight)) ?_
    · rw [← h.bytes]
      exact (List.take_prefix k l.fifo).trans (List.prefix_append _ _)
    · rw [List.length_take]
      omega
  have hbytes : l.fifo.drop k ++ l.writing = left' ++ wires inflight := by
    have hall := h.bytes
    nth_rewrite 1 [← List.take_append_drop k l.fifo] at hall
    rw [List.append_assoc, List.append_assoc] at hall
    exact List.append_cancel_left hall
  rw [hstep]
  exact ⟨_, rfl, framed_collect ⟨h.sent_eq, hbytes, h.chunk, h.rank_eq⟩
    (by rw [hdata, List.append_assoc])⟩

private theorem framed_read (h : Framed cfg i sent l) (hfifo : l.fifo ≠ []) :
    ∃ l', linkStep cfg i l .read = some l' ∧ Framed cfg i sent l' := by
  cases h with
  | header taken inflight hreading h => exact framed_readHeader hreading h hfifo
  | payload taken m inflight got left hreading hdata hleft h =>
      exact framed_readPayload hreading hdata hleft h hfifo

private theorem framed_step {action : LinkAction} (h : Framed cfg i sent l)
    (hstep : linkStep cfg i l action = some l') : Framed cfg i sent l' := by
  cases action with
  | send => exact framed_send h hstep
  | write => exact framed_write h hstep
  | read =>
      have hfifo : l.fifo ≠ [] := by
        intro hempty
        simp [linkStep, hempty] at hstep
      obtain ⟨l₁, hread, hframed⟩ := framed_read h hfifo
      exact Option.some.inj (hread.symm.trans hstep) ▸ hframed

private theorem framed_run {actions : List LinkAction}
    (hrun : run (linkStep cfg i) (.init sent) actions = some l) : Framed cfg i sent l :=
  run_invariant (fun _ _ _ => framed_step) (framed_init sent) hrun

private theorem framed_received (h : Framed cfg i sent l) :
    ∃ taken rest, sent = taken ++ rest ∧ l.rank = receivedWhole cfg i (taken.map Outgoing.message) ∧
      (l.toSend = [] → l.writing = [] → l.fifo = [] → rest = []) := by
  cases h with
  | header taken inflight hreading h =>
      refine ⟨taken, inflight ++ l.toSend, h.sent_eq, h.rank_eq, fun hsend hwriting hfifo => ?_⟩
      have hbytes := h.bytes
      cases inflight with
      | nil => exact hsend
      | cons m inflight =>
          have hlength := congrArg List.length hbytes
          simp [hfifo, hwriting, wires, headerSize] at hlength
          omega
  | payload taken m inflight got left hreading hdata hleft h =>
      refine ⟨taken, [m] ++ (inflight ++ l.toSend), h.sent_eq, h.rank_eq,
        fun hsend hwriting hfifo => absurd ?_ hleft⟩
      have hbytes := h.bytes
      rw [hfifo, hwriting, List.append_nil] at hbytes
      exact (List.append_eq_nil_iff.mp hbytes.symm).1

end Steps

private theorem receiveMessage_data {m : Message} (h : 0 ≤ m.tag) (cfg : Config) (x : Rank)
    (i : Nat) : (x.receiveMessage cfg i m).buffers i = x.buffers i ++ [m] := by
  have htags : m.tag ≠ deadlockTag ∧ m.tag ≠ waitingTag ∧ m.tag ≠ notWaitingTag ∧
      m.tag ≠ finishedTag ∧ m.tag ≠ barrierTag := by
    simp only [deadlockTag, waitingTag, notWaitingTag, finishedTag, barrierTag]
    omega
  simp [Rank.receiveMessage, htags]

private theorem received_buffers {cfg : Config} {i : Nat} {ms : List Message}
    (h : ∀ m ∈ ms, 0 ≤ m.tag) : (receivedWhole cfg i ms).buffers i = ms := by
  induction ms using List.reverseRecOn with
  | nil => rfl
  | append_singleton ms m ih =>
      rw [receivedWhole, List.foldl_append, List.foldl_cons, List.foldl_nil,
        receiveMessage_data (h m (by simp))]
      exact congrArg (· ++ [m]) (ih fun m hm => h m (List.mem_append_left _ hm))

/-- However the chunks are written and read, what one rank has in its list is a beginning
of what the other has sent, and all of it once all the bytes are read. -/
theorem framing (cfg : Config) (i : Nat) (sent : List Outgoing)
    (htags : ∀ m ∈ sent, 0 ≤ m.message.tag) (actions : List LinkAction) (l : Link)
    (hrun : run (linkStep cfg i) (.init sent) actions = some l) :
    l.rank.buffers i <+: sent.map Outgoing.message ∧
      (l.toSend = [] ∧ l.writing = [] ∧ l.fifo = [] →
        l.rank.buffers i = sent.map Outgoing.message) ∧
      (l.fifo ≠ [] → (linkStep cfg i l .read).isSome) := by
  have hframed := framed_run hrun
  obtain ⟨taken, rest, rfl, hrank, hall⟩ := framed_received hframed
  have hbuffers : l.rank.buffers i = taken.map Outgoing.message := by
    rw [hrank]
    apply received_buffers
    intro m hm
    obtain ⟨o, ho, rfl⟩ := List.mem_map.mp hm
    exact htags o (List.mem_append_left _ ho)
  refine ⟨?_, ?_, fun hfifo => ?_⟩
  · rw [hbuffers, List.map_append]
    exact List.prefix_append _ _
  · rintro ⟨hsend, hwriting, hfifo⟩
    rw [hbuffers, hall hsend hwriting hfifo, List.append_nil]
  · obtain ⟨l', hread, -⟩ := framed_read hframed hfifo
    rw [hread]
    rfl

/-- A message of 600 bytes, which takes two chunks. -/
def longMessage : Outgoing where
  message := ⟨4, List.replicate 600 7⟩
  pointer := List.replicate 8 1
  pointer_size := rfl
  count_fits := by
    rw [List.length_replicate]
    norm_num
  tag_fits := by decide
  control h := absurd h (by decide)

theorem framing_longMessage : ∃ l, run (linkStep ⟨2, false⟩ 1) (.init [longMessage])
    [.send, .write, .read, .read, .write, .read] = some l ∧
      l.rank.buffers 1 = [longMessage.message] := by
  have hrun : ∃ l ∈ run (linkStep ⟨2, false⟩ 1) (.init [longMessage])
      [.send, .write, .read, .read, .write, .read],
        l.toSend = [] ∧ l.writing = [] ∧ l.fifo = [] := by
    decide +kernel
  obtain ⟨l, hl, hempty⟩ := hrun
  exact ⟨l, hl, (framing ⟨2, false⟩ 1 [longMessage] (by decide) _ l hl).2.1 hempty⟩

end Mimuw.Mimpi
