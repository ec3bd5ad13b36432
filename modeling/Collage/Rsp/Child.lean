import Collage.Rsp.Datagram

/-!
# A connected child: the reader of one writer's stream

A listening connection keeps one child for every member of the group, itself included. The child
holds the reorder queue and the ready packets of its member's stream, and the cursor `acked` of
what that member has acknowledged of the parent's own stream.
-/

namespace Collage.Rsp

structure Child where
  id : U16
  sequence : U16
  acked : U16
  threadBuffers : List Buffer
  recvBuffers : List (Option Buffer)
  appBuffers : List (Option Buffer)
  readBuffer : Option Buffer
  readBufferPos : ℕ
  deriving DecidableEq, Repr

namespace Child

/-- The child that `_addConnection` creates: every buffer is free for reading. -/
def new (cfg : Config) (id sequence : U16) : Child where
  id := id
  sequence := sequence
  acked := BitVec.allOnes 16
  threadBuffers := newBuffers cfg
  recvBuffers := []
  appBuffers := []
  readBuffer := none
  readBufferPos := 0

/-- `_newDataBuffer`: take a free buffer and swap its contents with the incoming ones. Returns the
filled buffer and what the incoming buffer holds afterwards. -/
def newDataBuffer (c : Child) (d : DatagramData) : Option (Buffer × DatagramData × Child) :=
  match c.threadBuffers with
  | [] => none
  | b :: free => some ({ b with data := d }, b.data, { c with threadBuffers := free })

/-- `_pushDataBuffer`: the packet becomes readable; every `_ackFreq`-th one is acknowledged. -/
def pushDataBuffer (cfg : Config) (parentID : U16) (b : Buffer) (c : Child) : Child × List U16 :=
  ({ c with sequence := c.sequence + 1, appBuffers := c.appBuffers ++ [some b] },
    if (c.sequence.toNat + parentID.toNat) % cfg.ackFreq = 0 then [c.sequence] else [])

/-- Enqueue the pending packets that became ready, up to the first gap, and drop the gap's entry
so that the queue is relative to the new expected number. -/
def enqueueReady (cfg : Config) (parentID : U16) :
    List (Option Buffer) → Child → Child × List U16
  | [], c => ({ c with recvBuffers := [] }, [])
  | none :: rest, c => ({ c with recvBuffers := rest }, [])
  | some b :: rest, c =>
      let pushed := pushDataBuffer cfg parentID b c
      let more := enqueueReady cfg parentID rest pushed.1
      (more.1, pushed.2 ++ more.2)

/-- Hand prepared buffers to the readers of the loopback child. -/
def post (bs : List Buffer) (c : Child) : Child :=
  { c with
    appBuffers := c.appBuffers ++ bs.map some
    sequence := c.sequence + BitVec.ofNat 16 bs.length }

/-- Queue a null entry, which ends the reading of the child. -/
def pushNull (c : Child) : Child := { c with appBuffers := c.appBuffers ++ [none] }

def setAcked (sequence : U16) (c : Child) : Child := { c with acked := sequence }

/-- The test of `_handleData` for a packet that is a repetition for another reader. -/
def ignores (numBuffers : ℕ) (expected sequence : U16) : Bool :=
  decide (sequence.toNat < expected.toNat ∧
    numBuffers < 65535 - expected.toNat + sequence.toNat) ||
  decide (expected.toNat < sequence.toNat ∧ numBuffers < sequence.toNat - expected.toNat)

/-- The index of the last packet present in a reorder queue. -/
def lastReceived : List (Option Buffer) → Option ℕ
  | [] => none
  | b :: rest => match lastReceived rest with
    | some i => some (i + 1)
    | none => if b.isSome then some 0 else none

/-- The early nack for the packets missing before an out-of-order packet that was just stored as
entry `size - 1` of the queue. -/
def earlyNack (expected sequence : U16) (queue : List (Option Buffer)) (size : ℕ) :
    Option Nack :=
  if 3 ≤ size ∧ (queue[size - 2]?).join.isSome then none
  else
    let start := if 3 ≤ size then
        match lastReceived (queue.take (size - 1)) with
        | some i => expected + BitVec.ofNat 16 i
        | none => expected
      else expected
    let stop := sequence - 1
    some ⟨start, if stop < start then BitVec.allOnes 16 else stop⟩

/-- `_handleData` for a packet of this child's member: the new child, the numbers it acknowledges
and the early nack it sends. -/
def handleData (cfg : Config) (parentID : U16) (d : DatagramData) (c : Child) :
    Child × List U16 × Option Nack :=
  if c.sequence = d.sequence then
    match c.newDataBuffer d with
    | none => (c, [], none)
    | some (b, _, c') =>
        let pushed := pushDataBuffer cfg parentID b c'
        let ready := enqueueReady cfg parentID c.recvBuffers pushed.1
        (ready.1, pushed.2 ++ ready.2, none)
  else if ignores cfg.numBuffers c.sequence d.sequence then (c, [], none)
  else
    let size := (d.sequence - c.sequence).toNat
    if (c.recvBuffers[size - 1]?).join.isSome then (c, [], none)
    else
      match c.newDataBuffer d with
      | none => (c, [], none)
      | some (b, _, c') =>
          let resized := c.recvBuffers ++ List.replicate (size - c.recvBuffers.length) none
          let queue := resized.set (size - 1) (some b)
          ({ c' with recvBuffers := queue }, [],
            earlyNack c.sequence d.sequence queue size)

/-- One iteration of the loop of `readSync` that still wants `bytesLeft` bytes: the bytes copied
out. It waits while nothing is ready; a null entry ends the connection. -/
def readSync (cfg : Config) (bytesLeft : ℕ) (c : Child) : Option (Child × List UInt8) :=
  let source : Option (Option Buffer × Child) := match c.readBuffer with
    | some b => some (some b, c)
    | none => match c.appBuffers with
      | [] => none
      | b :: rest => some (b, { c with appBuffers := rest })
  match source with
  | none => none
  | some (none, c') => some (c', [])
  | some (some b, c') =>
      let size := min bytesLeft (b.data.size.toNat - c.readBufferPos)
      let taken := (b.data.payload.drop c.readBufferPos).take size
      if b.data.size.toNat ≤ c.readBufferPos + size then
        some ({ c' with threadBuffers := pushThread cfg.numBuffers c'.threadBuffers b
                        readBuffer := none
                        readBufferPos := 0 }, taken)
      else
        some ({ c' with readBuffer := some b, readBufferPos := c.readBufferPos + size }, taken)

end Child
end Collage.Rsp
