import Collage.Lib.Run
import Collage.Rsp.Timeout
import Mathlib.Logic.Function.Basic

/-!
# A fixed group on a multicast network

Every datagram a member has handed to its socket may reach every other member at any later time,
any number of times or never. Beside its connection a member carries a history that the code does
not have: the bytes written and obtained, and the sequence numbers counted without wrap. The
history serves to say what a run does and how late a datagram is; no handler reads it.
-/

namespace Collage.Rsp

open Serial

/-- The unwrapped count of packets up to the number `s`, the largest one that is at most `n`. -/
def upTo (n : ℕ) (s : U16) : ℕ := n - (serial 16 n - 1 - s).toNat

structure Member where
  conn : Connection
  written : List UInt8
  /-- By writer, the bytes that `readSync` has returned. -/
  obtained : U16 → List UInt8
  /-- How many packets have been numbered. -/
  assigned : ℕ
  /-- By writer, the packet expected next. -/
  expected : U16 → ℕ
  /-- For each datagram sent, the count of packets up to the number it carries. -/
  marks : List ℕ
  /-- By reader, the highest count that a delivered ack carried. -/
  newest : U16 → ℕ
  /-- By reader, the place of the ack delivered last among the reader's datagrams. -/
  lastAck : U16 → ℕ

namespace Member

def expects (c : Connection) (w : U16) : U16 := (c.findConnection w).elim 0 Child.sequence

def mark (assigned : ℕ) (expected : U16 → ℕ) : Datagram → ℕ
  | .data d => upTo assigned d.sequence
  | .ack _ w s => upTo (expected w) s
  | .ackReq _ _ | .nack _ _ _ | .node _ _ _ => 0

/-- Replace the connection and carry the counters forward by what the wrapped numbers moved. -/
def advance (m : Member) (c : Connection) : Member :=
  let assigned := m.assigned + (c.sequence - m.conn.sequence).toNat
  let expected := fun w => m.expected w + (expects c w - expects m.conn w).toNat
  { m with
    conn := c
    assigned := assigned
    expected := expected
    marks := m.marks ++ (c.sent.drop m.conn.sent.length).map (mark assigned expected) }

/-- What the application sees of one of its own steps. -/
def observe (cfg : Config) (m m' : Member) : Event → Member
  | .write bytes => { m' with written := m.written ++ bytes }
  | .read w n =>
      let bytes := ((m.conn.findConnection w).bind (Child.readSync cfg n)).elim [] Prod.snd
      { m' with obtained := Function.update m.obtained w (m.obtained w ++ bytes) }
  | .writePop | .writePush | .outgoing _ | .finishStep | .packet _ _ | .timeout _ => m'

/-- Note the delivery of the `k`-th datagram of the member `r`, which carries the count `u`. -/
def hear (m : Member) (r : U16) (k u : ℕ) : Datagram → Member
  | .ack _ w _ =>
      if w = m.conn.id then
        { m with
          newest := Function.update m.newest r (max (m.newest r) u)
          lastAck := Function.update m.lastAck r k }
      else m
  | .data _ | .ackReq _ _ | .nack _ _ _ | .node _ _ _ => m

end Member

abbrev Group := U16 → Member

inductive GroupEvent
  | app (n : U16) (e : Event)
  | deliver (m : U16) (k : ℕ) (n : U16)
  deriving DecidableEq

def Event.isPacket : Event → Bool
  | .packet _ _ => true
  | _ => false

namespace Group

/-- Every sequence number is 0; `order n` is the order in which `n` keeps the members. -/
def start (cfg : Config) (order : U16 → List U16) : Group := fun n =>
  { conn := Connection.start cfg n ((order n).map (fun w => (w, 0)))
    written := []
    obtained := fun _ => []
    assigned := 0
    expected := fun _ => 0
    marks := []
    newest := fun _ => 0
    lastAck := fun _ => 0 }

def step (cfg : Config) (members : List U16) (g : Group) : GroupEvent → Option Group
  | .app n e =>
      if n ∈ members ∧ e.isPacket = false then
        ((g n).conn.step cfg e).map (fun c =>
          Function.update g n (Member.observe cfg (g n) ((g n).advance c) e))
      else none
  | .deliver m k n =>
      if m ∈ members ∧ n ∈ members ∧ m ≠ n then
        ((g m).conn.sent[k]?).bind (fun d =>
          ((g n).conn.step cfg (.packet 0 d)).map (fun c =>
            Function.update g n (((g n).advance c).hear m k ((g m).marks.getD k 0) d)))
      else none

/-- No writer reaches `CO_RSP_MAX_TIMEOUTS`. -/
def Patient (g : Group) : GroupEvent → Prop
  | .app n (.timeout expired) => ¬ (g n).conn.waitedOut expired
  | _ => True

/-- No data is delivered once its writer has numbered 32768 or more later packets. -/
def FreshData (g : Group) : GroupEvent → Prop
  | .deliver m k _ => match (g m).conn.sent[k]? with
    | some (.data _) => (g m).assigned < (g m).marks.getD k 0 + 32768
    | _ => True
  | .app _ _ => True

/-- The acks of one reader arrive in the order in which they were sent. -/
def AcksInOrder (g : Group) : GroupEvent → Prop
  | .deliver m k n => match (g m).conn.sent[k]? with
    | some (.ack _ w _) => w = n → (g n).lastAck m ≤ k
    | _ => True
  | .app _ _ => True

/-- An ack is overtaken by fewer than 32768 sequence numbers. -/
def AcksNearby (g : Group) : GroupEvent → Prop
  | .deliver m k n => match (g m).conn.sent[k]? with
    | some (.ack _ w _) => w = n → (g n).newest m < (g m).marks.getD k 0 + 32768
    | _ => True
  | .app _ _ => True

instance (g : Group) (e : GroupEvent) : Decidable (Patient g e) := by
  unfold Patient Connection.waitedOut; split <;> infer_instance

instance (g : Group) (e : GroupEvent) : Decidable (FreshData g e) := by
  unfold FreshData; split
  · split <;> infer_instance
  · infer_instance

instance (g : Group) (e : GroupEvent) : Decidable (AcksInOrder g e) := by
  unfold AcksInOrder; split
  · split <;> infer_instance
  · infer_instance

instance (g : Group) (e : GroupEvent) : Decidable (AcksNearby g e) := by
  unfold AcksNearby; split
  · split <;> infer_instance
  · infer_instance

end Group
end Collage.Rsp
