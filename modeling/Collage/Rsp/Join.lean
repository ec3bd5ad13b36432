import Collage.Rsp.Group
import Collage.Rsp.Speaker

/-!
# Joining a group that is already at work

The joiner `a` announces itself while the member `b` keeps writing. Their datagrams reach each
other in the order in which they were sent, from the moment `a` opens its socket. All other members
of the group are the environment, which may send anything at any time in other names than theirs.

Beside the two connections a state carries a history that no handler reads: the sequence numbers
counted without wrap, for each datagram what its number counts, and with which number `a` has
recorded `b`.
-/

namespace Collage.Rsp

open Serial

def Connection.opening (cfg : Config) (id : U16) : Connection where
  id := id
  idAccepted := false
  listening := false
  stopped := false
  timeouts := 0
  sequence := 0
  children := []
  appBuffers := (newBuffers cfg).map some
  threadBuffers := []
  writeBuffers := []
  repeatQueue := []
  writing := []
  inHand := none
  finishing := none
  sent := []

structure Join where
  a : Connection
  b : Connection
  /-- The next datagram of `b` to reach `a`; `none` while the socket of `a` is closed. -/
  toA : Option ℕ
  /-- The next datagram of `a` to reach `b`. -/
  toB : ℕ
  /-- How many packets `b` has numbered. -/
  assigned : ℕ
  /-- For each datagram of `b`, how many packets were numbered when it was sent. -/
  stamps : List ℕ
  /-- The expected sequence number with which `a` has recorded `b`. -/
  recorded : Option ℕ
  /-- The packet of `b` that `a` expects next. -/
  expected : ℕ
  /-- For each ack of `a` to `b`, the count of packets up to the number it carries. -/
  counts : List ℕ
  /-- The count of the last ack of `a` that `b` has taken over. -/
  newest : Option ℕ

inductive JoinEvent
  | boot
  | atA (e : Event)
  | atB (e : Event)
  | toA
  | toB
  | envA (d : Datagram)
  | envB (d : Datagram)
  deriving DecidableEq

/-- The ack is for this connection, comes from a known reader and is not recognised as late. -/
def Connection.takesOver (cfg : Config) (c : Connection) : Datagram → Bool
  | .ack readerID writerID sequence => decide (writerID = c.id) &&
      (c.findConnection readerID).any (fun reader => !Connection.late cfg reader.acked sequence)
  | .data _ | .ackReq _ _ | .nack _ _ _ | .node _ _ _ => false

namespace Join

def start (cfg : Config) (idA idB : U16) (members : List (U16 × U16)) : Join where
  a := Connection.opening cfg idA
  b := Connection.start cfg idB members
  toA := none
  toB := 0
  assigned := 0
  stamps := []
  recorded := none
  expected := 0
  counts := []
  newest := none

def count (writer : U16) (expected : ℕ) : Datagram → ℕ
  | .ack _ w s => if w = writer then upTo expected s else 0
  | .data _ | .ackReq _ _ | .nack _ _ _ | .node _ _ _ => 0

def advanceB (j : Join) (c : Connection) : Join :=
  let assigned := j.assigned + (c.sequence - j.b.sequence).toNat
  { j with
    b := c
    assigned := assigned
    stamps := j.stamps ++ List.replicate (c.sent.length - j.b.sent.length) assigned }

/-- The step records `b` at the joiner. -/
def records (j : Join) (c : Connection) : Prop :=
  j.a.findConnection j.b.id = none ∧ c.findConnection j.b.id ≠ none

instance (j : Join) (c : Connection) : Decidable (j.records c) :=
  inferInstanceAs (Decidable (_ ∧ _))

/-- Replace the joiner; `stamp` counts the packets up to the number of the datagram handled. -/
def advanceA (j : Join) (stamp : ℕ) (c : Connection) : Join :=
  let expected := if j.records c then stamp
    else j.expected + (Member.expects c j.b.id - Member.expects j.a j.b.id).toNat
  { j with
    a := c
    recorded := if j.records c then some stamp else j.recorded
    expected := expected
    counts := j.counts ++ (c.sent.drop j.a.sent.length).map (count j.b.id expected) }

def step (cfg : Config) (j : Join) : JoinEvent → Option Join
  | .boot => match j.toA with
    | some _ => none
    | none => some { j.advanceA j.assigned (j.a.sendSimpleDatagram .hello j.a.id) with
        toA := some j.b.sent.length }
  | .atA e => if j.toA.isSome ∧ e.isPacket = false then
      (j.a.step cfg e).map (j.advanceA j.assigned)
    else none
  | .atB e => if e.isPacket = false then (j.b.step cfg e).map j.advanceB else none
  | .toA => j.toA.bind (fun k => (j.b.sent[k]?).bind (fun d =>
      (j.a.step cfg (.packet 0 d)).map (fun c =>
        { j.advanceA (j.stamps.getD k 0) c with toA := some (k + 1) })))
  | .toB => (j.a.sent[j.toB]?).bind (fun d =>
      (j.b.step cfg (.packet 0 d)).map (fun c =>
        { j.advanceB c with
          toB := j.toB + 1
          newest := if j.b.takesOver cfg d then some (j.counts.getD j.toB 0) else j.newest }))
  | .envA d => if j.toA.isSome then (j.a.step cfg (.packet 0 d)).map (j.advanceA j.assigned)
    else none
  | .envB d => (j.b.step cfg (.packet 0 d)).map j.advanceB

/-- Every packet that `b` has released and `a` waits for was acknowledged by `a`: an ack that
counts it has reached `b`. -/
def ReleasedAcked (j : Join) : Prop :=
  ∀ s i, j.recorded = some s → s ≤ i → i + j.b.writeBuffers.length < j.assigned →
    ∃ k u, k < j.toB ∧ j.counts[k]? = some u ∧ i < u ∧
      j.a.sent[k]? = some (.ack j.a.id j.b.id (serial 16 u - 1))

end Join

def Datagram.isReply : Datagram → Bool
  | .node type _ _ => decide (type = .helloReply)
  | .data _ | .ackReq _ _ | .nack _ _ _ | .ack _ _ _ => false

namespace Connection

def oldest (c : Connection) : U16 := c.sequence - BitVec.ofNat 16 c.writeBuffers.length

/-- The last remote child has not acknowledged the oldest packet: its cursor is none of the next
numbers that can be released. -/
def LastBehind (cfg : Config) (c : Connection) : Prop :=
  ∀ child ∈ c.remote.getLast?, 2 * cfg.numBuffers ≤ (child.acked - c.oldest).toNat

def LastIs (c : Connection) (id : U16) : Prop := ∃ child ∈ c.remote.getLast?, child.id = id

/-- The cursor of every remote child lies within the last `_numBuffers` numbers. -/
def AllNear (cfg : Config) (c : Connection) : Prop :=
  ∀ child ∈ c.remote, (c.sequence - 1 - child.acked).toNat ≤ cfg.numBuffers

instance (cfg : Config) (c : Connection) : Decidable (c.LastBehind cfg) :=
  inferInstanceAs (Decidable (∀ child ∈ c.remote.getLast?, _))

instance (c : Connection) (id : U16) : Decidable (c.LastIs id) :=
  inferInstanceAs (Decidable (∃ child ∈ c.remote.getLast?, _))

instance (cfg : Config) (c : Connection) : Decidable (c.AllNear cfg) :=
  inferInstanceAs (Decidable (∀ child ∈ c.remote, _))

/-- The next `_processOutgoing` numbers a packet and releases it at once. -/
def ReleasesAlone (c : Connection) : Prop :=
  c.children.length = 1 ∧ c.threadBuffers ≠ [] ∧ c.repeatQueue = []

instance (c : Connection) : Decidable c.ReleasesAlone := inferInstanceAs (Decidable (_ ∧ _ ∧ _))

instance (c : Connection) : (e : Event) → Decidable (c.Patient e)
  | .timeout _ => inferInstanceAs (Decidable (¬ (_ ∧ _ ∧ _ ∧ _)))
  | .write _ | .writePop | .writePush | .read _ _ | .outgoing _ | .finishStep | .packet _ _ =>
      isTrue trivial

end Connection

namespace Join

/-- The datagrams of `b` on their way to `a`, with their stamps. -/
def onTheWay (j : Join) : List (ℕ × Datagram) :=
  j.toA.elim [] (fun k => (j.stamps.zip j.b.sent).drop k)

/-- The numbers from which on `a` relies on `b`: the recorded one, or those that replies on their
way to `a` carry. -/
def promises (j : Join) : List ℕ := match j.recorded with
  | some s => [s]
  | none => (j.onTheWay.filter (fun p => p.2.isReply)).map Prod.fst

/-- The other members speak in their own names. -/
def Apart (j : Join) : JoinEvent → Prop
  | .envA d | .envB d => d.speaker ≠ j.a.id ∧ d.speaker ≠ j.b.id
  | .boot | .atA _ | .atB _ | .toA | .toB => True

/-- Neither side reaches `CO_RSP_MAX_TIMEOUTS`. -/
def Patient (j : Join) : JoinEvent → Prop
  | .atA e => j.a.Patient e
  | .atB e => j.b.Patient e
  | .boot | .toA | .toB | .envA _ | .envB _ => True

/-- While `a` relies on it, `b` numbers no packet that it would release at once because it sees
nobody else. -/
def NotAlone (j : Join) : JoinEvent → Prop
  | .atB (.outgoing _) | .atB (.timeout _) => j.promises ≠ [] → ¬ j.b.ReleasesAlone
  | _ => True

/-- An ack that `b` takes over releases nothing, or only what `a` has acknowledged. -/
def Counted (cfg : Config) (j : Join) (d : Datagram) : Prop := match d with
  | .ack readerID _ sequence => j.b.takesOver cfg d = true →
      (∀ x ∈ j.promises, j.assigned ≤ x) ∨
      (j.b.recordAck readerID sequence).LastBehind cfg ∨
      (j.newest.isSome ∨ readerID = j.a.id) ∧
        ((j.b.recordAck readerID sequence).LastIs j.a.id ∨
          (j.b.findConnection j.a.id).isSome ∧ (j.b.recordAck readerID sequence).AllNear cfg)
  | .data _ | .ackReq _ _ | .nack _ _ _ | .node _ _ _ => True

def AcksCounted (cfg : Config) (j : Join) : JoinEvent → Prop
  | .toB => ∀ d ∈ j.a.sent[j.toB]?, j.Counted cfg d
  | .envB d => j.Counted cfg d
  | .boot | .atA _ | .atB _ | .toA | .envA _ => True

/-- The condition on every step of a join. -/
def Careful (cfg : Config) (j : Join) (e : JoinEvent) : Prop :=
  j.Apart e ∧ j.Patient e ∧ j.NotAlone e ∧ j.AcksCounted cfg e

instance (j : Join) (e : JoinEvent) : Decidable (j.Apart e) := by
  unfold Apart; split <;> infer_instance

instance (j : Join) (e : JoinEvent) : Decidable (j.Patient e) := by
  unfold Patient; split <;> infer_instance

instance (j : Join) (e : JoinEvent) : Decidable (j.NotAlone e) := by
  unfold NotAlone; split <;> infer_instance

instance (cfg : Config) (j : Join) (d : Datagram) : Decidable (j.Counted cfg d) := by
  unfold Counted; split <;> infer_instance

instance (cfg : Config) (j : Join) (e : JoinEvent) : Decidable (j.AcksCounted cfg e) := by
  unfold AcksCounted; split <;> infer_instance

instance (cfg : Config) (j : Join) (e : JoinEvent) : Decidable (j.Careful cfg e) :=
  inferInstanceAs (Decidable (_ ∧ _ ∧ _ ∧ _))

end Join
end Collage.Rsp
