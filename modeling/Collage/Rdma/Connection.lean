import Mathlib.Data.List.Perm.Basic
import Collage.Lib.Run
import Collage.Rdma.Buffers

/-!
# RDMA connections

`RDMAConnection` between the exchange of the setup messages and the disconnect. A side writes into
its source buffer and posts an RDMA write into the sink buffer of its peer; the immediate data
tells the peer how many bytes have come and how many of its messages have been handled. A read
takes bytes from the sink buffer and reports them in flow-control messages.

The verbs are a network that delivers the posted operations of a side in their order, each into a
posted receive, and later reports their completion. A message is posted by its buffer: what is sent
is what the buffer holds when the verbs carry out the send, and what is handled is what the receive
buffer holds then. A write or read that has to wait leaves the connection as it is and is tried
again.
-/

namespace Collage.Rdma

abbrev U32 := BitVec 32

/-- The largest number of bytes of one RDMA write. -/
def maxBS : ℕ := 2 ^ 28 - 1

/-- The largest number of messages acknowledged by one RDMA write. -/
def maxFC : ℕ := 2 ^ 4 - 1

def fcMessageFrequency : ℕ := 12

/-- `RDMAFCImm`, the immediate data of an RDMA write. -/
structure FCImm where
  bytesSent : BitVec 28
  fcsReceived : BitVec 4
  deriving DecidableEq

structure FCPayload where
  bytesReceived : U32
  writesReceived : U32
  deriving DecidableEq

/-- `RDMAMessage`, the contents of a message buffer. Of the setup payload only the size of the sink
is kept; `invalid` is what `resize` and `freeBuffer` leave in a buffer. -/
inductive Message where
  | setup (rlen : U32)
  | fc (payload : FCPayload)
  | invalid
  deriving DecidableEq

/-- A posted send: an RDMA write with its region in the source and its address in the remote sink,
or the message in a buffer of the pool. -/
inductive Send where
  | write (source length target : U32) (imm : FCImm)
  | message (buffer : ℕ)
  deriving DecidableEq

inductive Sent where
  | write (length : U32)
  | message (buffer : ℕ)
  deriving DecidableEq

inductive Completion where
  | recvRDMAWithImm (imm : FCImm) (buffer : ℕ)
  | recv (buffer : ℕ)
  | send (buffer : ℕ)
  | rdmaWrite (length : U32)
  deriving DecidableEq

namespace Send

def buffer? : Send → Option ℕ
  | write _ _ _ _ => none
  | message buffer => some buffer

def sent : Send → Sent
  | write _ length _ _ => .write length
  | message buffer => .message buffer

/-- How the completion queue of the peer names the send. -/
def arrival : Send → ℕ → Completion
  | write _ _ _ imm, buffer => .recvRDMAWithImm imm buffer
  | message _, buffer => .recv buffer

end Send

namespace Sent

def buffer? : Sent → Option ℕ
  | write _ => none
  | message buffer => some buffer

def completion : Sent → Completion
  | write length => .rdmaWrite length
  | message buffer => .send buffer

end Sent

namespace Completion

def buffer? : Completion → Option ℕ
  | recvRDMAWithImm _ buffer => some buffer
  | recv buffer => some buffer
  | send buffer => some buffer
  | rdmaWrite _ => none

def message? : Completion → Option ℕ
  | recvRDMAWithImm _ _ => none
  | recv buffer => some buffer
  | send _ => none
  | rdmaWrite _ => none

end Completion

/-- One end of a connection. The bytes that `write` has accepted and `readSync` has returned, and
the marks `reused` and `truncated`, are kept for the specification only. -/
structure Side where
  depth : ℕ
  writes : ℕ
  fcs : ℕ
  wcredits : ℤ
  fcredits : ℤ
  readBytes : ℕ
  /-- The bytes announced to the reader, in a pipe. -/
  availBytes : ℕ
  msgbuf : BufferPool
  /-- The contents of the message buffers. -/
  msgs : ℕ → Message
  source : Ring 32
  sourcebuf : Memory
  sink : Ring 32
  sinkbuf : Memory
  rptr : Ring 32
  receives : List ℕ
  posted : List Send
  /-- The sends that have been carried out and are yet to be reported as complete. -/
  unacked : List Sent
  cq : List Completion
  /-- The receives the running `checkCQ` has to post again. -/
  numRecvs : ℕ
  accepted : List UInt8
  obtained : List UInt8
  /-- A buffer was handed out that was in use. -/
  reused : Bool
  /-- A count did not fit its field of the immediate data. -/
  truncated : Bool

namespace Side

variable (s : Side)

/-- The message buffers that are posted or wait for their completion. -/
def inUse : List ℕ :=
  s.receives ++ s.posted.filterMap Send.buffer? ++ s.unacked.filterMap Sent.buffer? ++
    s.cq.filterMap Completion.buffer?

/-- The messages that are posted, the oldest one first. -/
def sending : List Message := (s.posted.filterMap Send.buffer?).map s.msgs

/-- The messages that have come and are yet to be handled, the oldest one first. -/
def received : List Message := (s.cq.filterMap Completion.message?).map s.msgs

def getBuffer : ℕ × Side :=
  (s.msgbuf.getBuffer.1,
    { s with
      msgbuf := s.msgbuf.getBuffer.2
      reused := s.reused || decide (s.msgbuf.getBuffer.1 ∈ s.inUse) })

def freeBuffer (buffer : ℕ) : Side :=
  { s with
    msgbuf := s.msgbuf.freeBuffer buffer
    msgs := Function.update s.msgs buffer .invalid }

def postReceives : ℕ → Side → Side
  | 0, s => s
  | count + 1, s =>
      postReceives count
        { s.getBuffer.2 with receives := s.getBuffer.2.receives ++ [s.getBuffer.1] }

def needFC : Bool := s.availBytes == 0 || decide (fcMessageFrequency ≤ s.writes % 2 ^ 32)

def recvRDMAWrite (imm : FCImm) : Side :=
  { s with
    sink := s.sink.incrHead (imm.bytesSent.setWidth 32)
    availBytes := s.availBytes + imm.bytesSent.toNat
    fcredits := s.fcredits + imm.fcsReceived.toNat
    writes := s.writes + 1 }

/-- The count of messages goes through a cast to `uint16_t`. -/
def makeImm (bytes : U32) : FCImm × Side :=
  let fcsReceived := min maxFC (s.fcs % 2 ^ 16)
  let imm : FCImm := ⟨bytes.setWidth 28, BitVec.ofNat 4 fcsReceived⟩
  (imm,
    { s with
      fcs := s.fcs - imm.fcsReceived.toNat
      truncated := s.truncated || imm.bytesSent.toNat != bytes.toNat ||
        imm.fcsReceived.toNat != min maxFC s.fcs })

def postRDMAWrite : Side :=
  let length := s.source.head.value - s.source.middle.value
  let (imm, s') := s.makeImm length
  { s' with
    source := s.source.incrMiddle length
    rptr := s.rptr.incrHead length
    wcredits := s.wcredits - 1
    posted := s.posted ++
      [.write (s.source.middle.ptr s.source.num) length (s.rptr.head.ptr s.rptr.num) imm] }

def recvFC (fc : FCPayload) : Side :=
  { s with
    rptr := s.rptr.incrTail fc.bytesReceived
    wcredits := s.wcredits + fc.writesReceived.toNat
    fcs := s.fcs + 1 }

/-- `_recvSetup`. The remote region has as many bytes as the setup message says. -/
def recvSetupPayload (rlen : U32) : Side := { s with rptr := .clear rlen }

def recvMessage : Message → Side
  | .setup rlen => s.recvSetupPayload rlen
  | .fc payload => s.recvFC payload
  | .invalid => s

def postMessage (buffer : ℕ) : Side :=
  { s with
    fcredits := s.fcredits - 1
    posted := s.posted ++ [.message buffer] }

def report : FCPayload := ⟨BitVec.ofNat 32 s.readBytes, BitVec.ofNat 32 s.writes⟩

def postFC : Side :=
  let (buffer, s') := s.getBuffer
  postMessage
    { s' with
      msgs := Function.update s'.msgs buffer (.fc s.report)
      writes := s.writes - s.report.writesReceived.toNat
      readBytes := 0 }
    buffer

def complete : Completion → Side
  | .recvRDMAWithImm imm buffer =>
      { (s.recvRDMAWrite imm).freeBuffer buffer with numRecvs := s.numRecvs + 1 }
  | .recv buffer =>
      { (s.recvMessage (s.msgs buffer)).freeBuffer buffer with numRecvs := s.numRecvs + 1 }
  | .send buffer => s.freeBuffer buffer
  | .rdmaWrite length => { s with source := s.source.incrTail length }

/-- Handles the first `count` completions. -/
def completions : ℕ → Side → Side
  | 0, s => s
  | count + 1, s =>
      match s.cq with
      | [] => s
      | completion :: cq => completions count (complete { s with cq } completion)

/-- One pass of `checkCQ` over at most `depth` of the completions that are there. -/
def checkCQ (count : ℕ) : Side :=
  let s' := completions (min count s.depth) { s with numRecvs := 0 }
  { postReceives s'.numRecvs s' with numRecvs := 0 }

/-- How many bytes `fill` takes of an offer. -/
def fillSize (bytes : ℕ) : ℕ :=
  min (min (min bytes maxBS) (min s.source.negAvailable.toNat s.rptr.negAvailable.toNat))
    (s.source.num - s.source.head.ptr s.source.num).toNat

def fill (bytes : List UInt8) : Side :=
  { s with
    sourcebuf := s.sourcebuf.store s.source.num.toNat (s.source.head.ptr s.source.num).toNat bytes
    source := s.source.incrHead (BitVec.ofNat 32 bytes.length) }

/-- The end of a `write` that has a credit and puts some bytes. -/
def put (bytes : List UInt8) : Side :=
  postRDMAWrite { s.fill bytes with accepted := s.accepted ++ bytes }

def write (bytes : List UInt8) : Side :=
  if s.wcredits = 0 then s
  else if s.fillSize bytes.length = 0 then s
  else s.put (bytes.take (s.fillSize bytes.length))

/-- How many bytes `drain` gives for a request. -/
def drainSize (bytes : ℕ) : ℕ := min (bytes % 2 ^ 32) s.sink.available.toNat

def drain (taken : ℕ) : Side :=
  { s with
    sink := s.sink.incrTail (BitVec.ofNat 32 taken)
    obtained := s.obtained ++
      s.sinkbuf.load s.sink.num.toNat (s.sink.tail.ptr s.sink.num).toNat taken }

/-- The end of a `readSync` that takes some bytes. -/
def take (taken : ℕ) : Side :=
  { s.drain taken with
    availBytes := s.availBytes - taken
    readBytes := s.readBytes + taken }

/-- A round of `readSync`. -/
def readSync (bytes : ℕ) : Side :=
  if s.needFC ∧ s.fcredits = 0 then s
  else if s.availBytes = 0 then s
  else if s.drainSize bytes = 0 then { s with availBytes := 0 }
  else if (s.take (s.drainSize bytes)).needFC then (s.take (s.drainSize bytes)).postFC
  else s.take (s.drainSize bytes)

/-- A round of `readSync` takes some bytes and reports. -/
def PostsFC (bytes : ℕ) : Prop :=
  ¬ (s.needFC ∧ s.fcredits = 0) ∧ s.availBytes ≠ 0 ∧ s.drainSize bytes ≠ 0 ∧
    (s.take (s.drainSize bytes)).needFC

instance (bytes : ℕ) : Decidable (s.PostsFC bytes) := inferInstanceAs (Decidable (_ ∧ _))

/-- The state after `initProtocol` and the allocation of the buffers. -/
def init (depth : ℕ) (size : U32) : Side where
  depth
  writes := 0
  fcs := 0
  wcredits := depth / 2 - 2
  fcredits := depth / 2 + 2
  readBytes := 0
  availBytes := 0
  msgbuf := .resize (2 * depth)
  msgs := fun _ => .invalid
  source := .clear size
  sourcebuf := fun _ => 0
  sink := .clear size
  sinkbuf := fun _ => 0
  rptr := .clear size
  receives := []
  posted := []
  unacked := []
  cq := []
  numRecvs := 0
  accepted := []
  obtained := []
  reused := false
  truncated := false

/-- The setup message is sent and, before anything else happens, received by the peer. -/
def postSetup : Side :=
  { s.getBuffer.2 with
    msgs := Function.update s.msgs s.getBuffer.1 (.setup s.sink.num)
    fcredits := s.fcredits - 1
    unacked := [.message s.getBuffer.1] }

/-- The setup message of the peer comes in the first receive, which is posted again. -/
def recvSetup : Side :=
  match s.receives with
  | [] => s
  | buffer :: receives => postReceives 1 (freeBuffer { s with receives } buffer)

def connect (depth : ℕ) (size : U32) : Side :=
  (postReceives depth (init depth size)).postSetup.recvSetup

/-- What is known of a side when the setup messages have been exchanged. The completion of its own
setup message may still be under way, and nothing is said of the order of the free buffers. -/
structure Established (depth : ℕ) (size : U32) (s : Side) : Prop where
  depth_eq : s.depth = depth
  writes : s.writes = 0
  fcs : s.fcs = 0
  wcredits : s.wcredits = depth / 2 - 2
  fcredits : s.fcredits = depth / 2 + 2 - 1
  readBytes : s.readBytes = 0
  availBytes : s.availBytes = 0
  source : s.source = .clear size
  sink : s.sink = .clear size
  rptr : s.rptr = .clear size
  posted : s.posted = []
  cq : s.cq = []
  numRecvs : s.numRecvs = 0
  accepted : s.accepted = []
  obtained : s.obtained = []
  reused : s.reused = false
  truncated : s.truncated = false
  receives : s.receives.length = depth
  buffers : ∃ free setup, s.unacked = [.message setup] ∧ s.msgbuf.Holds (2 * depth) free ∧
    (free ++ s.receives ++ [setup]).Perm (List.range (2 * depth))

variable {s}

theorem needFC_iff :
    s.needFC = true ↔ s.availBytes = 0 ∨ fcMessageFrequency ≤ s.writes % 2 ^ 32 := by
  simp only [needFC, Bool.or_eq_true, beq_iff_eq, decide_eq_true_eq]

theorem write_cases (bytes : List UInt8) :
    s.write bytes = s ∨ s.wcredits ≠ 0 ∧ ∃ put, put ≠ [] ∧ put <+: bytes ∧
      put.length ≤ s.fillSize bytes.length ∧ s.write bytes = s.put put := by
  rw [write]
  split_ifs with hcredits hsize
  · exact Or.inl rfl
  · exact Or.inl rfl
  · refine Or.inr ⟨hcredits, _, ?_, List.take_prefix _ _, List.length_take_le _ _, rfl⟩
    intro hnil
    rw [List.take_eq_nil_iff] at hnil
    rcases hnil with hnil | hnil
    · exact hsize hnil
    · rw [hnil] at hsize
      exact hsize (by simp [fillSize])

theorem readSync_cases (bytes : ℕ) :
    s.readSync bytes = s ∨ s.readSync bytes = { s with availBytes := 0 } ∨
      s.availBytes ≠ 0 ∧
        ∃ taken, 0 < taken ∧ taken ≤ s.sink.available.toNat ∧
          ((s.take taken).needFC = true ∧ s.PostsFC bytes ∧
              s.readSync bytes = (s.take taken).postFC ∨
            (s.take taken).needFC = false ∧ s.readSync bytes = s.take taken) := by
  rw [readSync]
  split_ifs with hcredits havail htaken hneed
  · exact Or.inl rfl
  · exact Or.inl rfl
  · exact Or.inr (Or.inl rfl)
  · exact Or.inr (Or.inr ⟨havail, _, Nat.pos_of_ne_zero htaken, Nat.min_le_right _ _,
      Or.inl ⟨hneed, ⟨hcredits, havail, htaken, hneed⟩, rfl⟩⟩)
  · exact Or.inr (Or.inr ⟨havail, _, Nat.pos_of_ne_zero htaken, Nat.min_le_right _ _,
      Or.inr ⟨eq_false_of_ne_true hneed, rfl⟩⟩)

@[simp] theorem write_numRecvs (bytes : List UInt8) : (s.write bytes).numRecvs = s.numRecvs := by
  obtain heq | ⟨-, put, -, -, -, heq⟩ := write_cases (s := s) bytes <;> rw [heq]
  rfl

@[simp] theorem readSync_numRecvs (bytes : ℕ) : (s.readSync bytes).numRecvs = s.numRecvs := by
  obtain heq | heq | ⟨-, taken, -, -, ⟨-, -, heq⟩ | ⟨-, heq⟩⟩ := readSync_cases (s := s) bytes <;>
    rw [heq] <;> rfl

theorem postReceives_eq (count : ℕ) (s : Side) : ∃ msgbuf receives reused,
    postReceives count s = { s with msgbuf, receives, reused } := by
  induction count generalizing s with
  | zero => exact ⟨_, _, _, rfl⟩
  | succ count ih =>
      obtain ⟨msgbuf, receives, reused, heq⟩ :=
        ih { s.getBuffer.2 with receives := s.getBuffer.2.receives ++ [s.getBuffer.1] }
      exact ⟨msgbuf, receives, reused, heq⟩

theorem completions_invariant (P : Side → Prop)
    (hstep : ∀ s completion cq, P s → s.cq = completion :: cq →
      P (complete { s with cq } completion))
    (count : ℕ) {s : Side} (hs : P s) : P (completions count s) := by
  induction count generalizing s with
  | zero => exact hs
  | succ count ih =>
      rw [completions]
      split
      · exact hs
      · next completion cq hcq => exact ih (hstep s completion cq hs hcq)

theorem checkCQ_eq (s : Side) (count : ℕ) : ∃ msgbuf receives reused,
    s.checkCQ count =
      { completions (min count s.depth) { s with numRecvs := 0 } with
        msgbuf, receives, reused, numRecvs := 0 } := by
  obtain ⟨msgbuf, receives, reused, heq⟩ := postReceives_eq
    (completions (min count s.depth) { s with numRecvs := 0 }).numRecvs
    (completions (min count s.depth) { s with numRecvs := 0 })
  exact ⟨msgbuf, receives, reused, by simp only [checkCQ, heq]⟩

/-- What does not depend on the posting of receives is kept by a pass if each completion keeps
it. -/
theorem checkCQ_invariant (P : Side → Prop)
    (hframe : ∀ s msgbuf receives numRecvs reused, P s →
      P { s with msgbuf, receives, numRecvs, reused })
    (hstep : ∀ s completion cq, P s → s.cq = completion :: cq →
      P (complete { s with cq } completion))
    (count : ℕ) (hs : P s) : P (s.checkCQ count) := by
  have hreset : P { s with numRecvs := 0 } := hframe s s.msgbuf s.receives 0 s.reused hs
  have hcompletions := completions_invariant P hstep (min count s.depth) hreset
  obtain ⟨msgbuf, receives, reused, heq⟩ := checkCQ_eq s count
  rw [heq]
  exact hframe _ msgbuf receives 0 reused hcompletions

end Side

inductive End where
  | initiator
  | target
  deriving DecidableEq

def End.peer : End → End
  | initiator => target
  | target => initiator

@[simp] theorem End.peer_peer (e : End) : e.peer.peer = e := by
  cases e <;> rfl

abbrev World := End → Side

inductive Event where
  | write (e : End) (bytes : List UInt8)
  | readSync (e : End) (bytes : ℕ)
  | checkCQ (e : End) (count : ℕ)
  /-- The verbs carry out the oldest send of the end. -/
  | deliver (e : End)
  /-- The verbs report the completion of the oldest delivered send of the end. -/
  | acknowledge (e : End)
  deriving DecidableEq

/-- The effect of a send on the sink of the receiver. -/
def Send.transfer (send : Send) (sender receiver : Side) : Memory :=
  match send with
  | write source length target _ =>
      receiver.sinkbuf.store receiver.sink.num.toNat target.toNat
        (sender.sourcebuf.load sender.source.num.toNat source.toNat length.toNat)
  | message _ => receiver.sinkbuf

/-- The effect of a send on the message buffers of the receiver, when it comes in a receive. -/
def Send.copy (send : Send) (sender receiver : Side) (buffer : ℕ) : ℕ → Message :=
  match send with
  | write _ _ _ _ => receiver.msgs
  | message source => Function.update receiver.msgs buffer (sender.msgs source)

namespace World

variable (w : World)

def deliver (e : End) : Option World :=
  match (w e).posted, (w e.peer).receives with
  | send :: posted, buffer :: receives =>
      some (fun x =>
        if x = e then { w e with posted, unacked := (w e).unacked ++ [send.sent] }
        else
          { w e.peer with
            receives
            sinkbuf := send.transfer (w e) (w e.peer)
            msgs := send.copy (w e) (w e.peer) buffer
            cq := (w e.peer).cq ++ [send.arrival buffer] })
  | _, _ => none

def acknowledge (e : End) : Option World :=
  match (w e).unacked with
  | [] => none
  | sent :: unacked =>
      some (Function.update w e { w e with unacked, cq := (w e).cq ++ [sent.completion] })

def step : Event → Option World
  | .write e bytes => some (Function.update w e ((w e).write bytes))
  | .readSync e bytes => some (Function.update w e ((w e).readSync bytes))
  | .checkCQ e count => some (Function.update w e ((w e).checkCQ count))
  | .deliver e => w.deliver e
  | .acknowledge e => w.acknowledge e

variable {w} {w' : World} {e : End}

theorem deliver_cases (h : w.deliver e = some w') :
    ∃ send posted buffer receives, (w e).posted = send :: posted ∧
      (w e.peer).receives = buffer :: receives ∧
      w' e = { w e with posted, unacked := (w e).unacked ++ [send.sent] } ∧
      w' e.peer =
        { w e.peer with
          receives
          sinkbuf := send.transfer (w e) (w e.peer)
          msgs := send.copy (w e) (w e.peer) buffer
          cq := (w e.peer).cq ++ [send.arrival buffer] } := by
  rw [World.deliver] at h
  split at h
  · next send posted buffer receives hposted hreceives =>
      cases h
      refine ⟨send, posted, buffer, receives, hposted, hreceives, if_pos rfl, if_neg ?_⟩
      cases e <;> decide
  · cases h

theorem acknowledge_cases (h : w.acknowledge e = some w') :
    ∃ sent unacked, (w e).unacked = sent :: unacked ∧
      w' = Function.update w e { w e with unacked, cq := (w e).cq ++ [sent.completion] } := by
  rw [World.acknowledge] at h
  split at h
  · cases h
  · next sent unacked hunacked =>
      cases h
      exact ⟨sent, unacked, hunacked, rfl⟩

end World

end Collage.Rdma
