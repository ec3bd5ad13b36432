import Collage.Lib.Keyed
import Collage.Lib.Serial
import Collage.Rsp.Child
import Collage.Rsp.Repeat

/-!
# The listening connection

State and handlers of `RSPConnection` as the protocol thread and the writing application run them.
`sent` collects what is handed to the socket. `_finishWriteQueue` waits for the application to
drain its own loopback child, so it is a loop of separate steps: `finishing` holds the loop's local
variables while the protocol thread is inside it. Timers, the send rate and the event
notifications decide only when a handler runs and are left to the environment.
-/

namespace Collage.Rsp

def maxTimeouts : ℕ := 1000

/-- The local variables of a running `_finishWriteQueue`: `size` packets are to be kept. -/
structure Finish where
  size : U16
  readBuffers : List Buffer
  freeBuffers : List Buffer
  deriving DecidableEq, Repr

structure Connection where
  id : U16
  idAccepted : Bool
  listening : Bool
  stopped : Bool
  timeouts : ℕ
  sequence : U16
  children : List Child
  appBuffers : List (Option Buffer)
  threadBuffers : List Buffer
  writeBuffers : List Buffer
  repeatQueue : List Nack
  /-- The bytes the running `write` call has not put into a buffer yet. -/
  writing : List UInt8
  /-- The buffer the running `write` call has taken and not queued yet. -/
  inHand : Option Buffer
  finishing : Option Finish
  sent : List Datagram
  deriving DecidableEq, Repr

namespace Connection

def findConnection (c : Connection) (id : U16) : Option Child := Keyed.lookup Child.id id c.children

def updateChild (c : Connection) (id : U16) (f : Child → Child) : Connection :=
  { c with children := Keyed.update Child.id id f c.children }

def send (c : Connection) (ds : List Datagram) : Connection := { c with sent := c.sent ++ ds }

def sendSimpleDatagram (c : Connection) (type : NodeType) (id : U16) : Connection :=
  c.send [.node type id c.sequence]

def sendCountNode (c : Connection) : Connection :=
  if (c.findConnection c.id).isSome then
    c.send [.node .countNode c.id (BitVec.ofNat 16 c.children.length)]
  else c

def addConnection (cfg : Config) (c : Connection) (id sequence : U16) : Connection :=
  if (c.findConnection id).isSome then c
  else sendCountNode { c with children := c.children ++ [Child.new cfg id sequence] }

def removeConnection (c : Connection) (id : U16) : Connection :=
  if id = c.id then c
  else sendCountNode { c with children := c.children.eraseP (fun child => child.id = id) }

def remote (c : Connection) : List Child := c.children.filter (fun child => child.id ≠ c.id)

/-- Enter `_finishWriteQueue( sequence )`. -/
def finishWriteQueue (c : Connection) (sequence : U16) : Connection :=
  { c with finishing := some ⟨c.sequence - sequence - 1, [], []⟩ }

/-- Post the prepared buffers to the loopback child. -/
def postReadBuffers (c : Connection) (f : Finish) : Connection :=
  { c.updateChild c.id (Child.post f.readBuffers) with
    finishing := some { f with readBuffers := [] } }

/-- The end of `_finishWriteQueue`, after the last packet to release. -/
def finishEnd (c : Connection) (f : Finish) : Connection :=
  let posted := c.postReadBuffers f
  { posted.updateChild c.id (fun self => self.setAcked (self.sequence - 1)) with
    appBuffers := c.appBuffers ++ f.freeBuffers.map some
    timeouts := 0
    finishing := none }

/-- One step of the loop of `_finishWriteQueue`: release the oldest packet to the loopback child,
post what is prepared when the child has no free buffer, or leave the loop. It waits for the
application when the child has no free buffer and nothing is prepared. -/
def finishStep (c : Connection) : Option Connection :=
  match c.finishing, c.findConnection c.id with
  | some f, some self =>
      match c.writeBuffers with
      | [] => some (c.finishEnd f)
      | b :: rest =>
          if rest.length + 1 ≤ f.size.toNat then some (c.finishEnd f)
          else match self.newDataBuffer b.data with
            | some (read, old, self') =>
                some { c.updateChild c.id (fun _ => self') with
                  writeBuffers := rest
                  finishing := some { f with
                    readBuffers := f.readBuffers ++ [read]
                    freeBuffers := f.freeBuffers ++ [{ b with data := old }] } }
            | none => if f.readBuffers = [] then none else some (c.postReadBuffers f)
  | _, _ => none

/-- Merge queued packets into `d` while they fit: the merged packet, the buffers set free and the
remaining queue. -/
def mergeWrites (cfg : Config) : DatagramData → List Buffer → DatagramData × List Buffer × List Buffer
  | d, [] => (d, [], [])
  | d, b :: queue =>
      if d.size.toNat < cfg.payloadSize ∧ d.size.toNat + b.data.size.toNat ≤ cfg.payloadSize then
        let merged := mergeWrites cfg
          { d with size := d.size + b.data.size, payload := d.bytes ++ b.data.bytes } queue
        (merged.1, b :: merged.2.1, merged.2.2)
      else (d, [], b :: queue)

def writeData (cfg : Config) (c : Connection) : Connection :=
  match c.threadBuffers with
  | [] => c
  | b :: queue =>
      let merged := mergeWrites cfg { b.data with sequence := c.sequence } queue
      let c' := { c with
        timeouts := 0
        sequence := c.sequence + 1
        threadBuffers := merged.2.2
        appBuffers := c.appBuffers ++ merged.2.1.map some
        writeBuffers := c.writeBuffers ++ [{ b with data := merged.1 }]
        sent := c.sent ++ [.data { merged.1 with payload := merged.1.bytes }] }
      if c.children.length = 1 then c'.finishWriteQueue c.sequence else c'

def repeatData (c : Connection) : Connection :=
  let answer := repeatLoop c.sequence c.writeBuffers (repeatWork c.repeatQueue) c.repeatQueue
  { c with
    timeouts := 0
    repeatQueue := answer.1
    sent := c.sent ++ (answer.2.map (fun d => .data { d with payload := d.bytes })).toList }

/-- `_processOutgoing`; `expired` tells whether the ack timeout has passed on the clock. -/
def processOutgoing (cfg : Config) (expired : Bool) (c : Connection) : Connection :=
  let c' := if c.repeatQueue = [] then c.writeData cfg else c.repeatData
  if c'.finishing.isSome ∨ c'.threadBuffers ≠ [] ∨ c'.repeatQueue ≠ [] then c'
  else if c'.writeBuffers = [] then { c' with timeouts := 0 }
  else if expired then
    let c'' := { c' with timeouts := c'.timeouts + 1 }
    if c''.timeouts < maxTimeouts then c''.send [.ackReq c.id (c''.sequence - 1)] else c''
  else c'

def clearWriteQueues (c : Connection) : Connection :=
  finishWriteQueue { c with writeBuffers := c.writeBuffers ++ c.threadBuffers, threadBuffers := [] }
    (c.sequence - 1)

/-- The test by which `_handleConnectedTimeout` finds every remote reader gone. -/
def allFailed (cfg : Config) (c : Connection) : Bool :=
  c.remote.all (fun child => (child.acked.toNat : ℤ) < (c.sequence.toNat : ℤ) - cfg.numBuffers)

/-- One turn of the loop that closes the failed readers and resets the cursor of the others. -/
def evictOrReset (c : Connection) (child : Child) : Connection :=
  if (child.acked.toNat : ℤ) < (c.sequence.toNat : ℤ) - 1 ∧ c.id ≠ child.id then
    (c.sendSimpleDatagram .exit child.id).removeConnection child.id
  else c.updateChild child.id
    (Child.setAcked (c.sequence - BitVec.ofNat 16 c.writeBuffers.length))

/-- Close the connection and all its children, and unlock the write and read functions. -/
def giveUp (c : Connection) : Connection :=
  let c' := c.sendSimpleDatagram .exit c.id
  { clearWriteQueues { c' with
      appBuffers := none :: c'.appBuffers
      children := c'.children.map Child.pushNull } with
    stopped := true }

/-- `_handleConnectedTimeout`. Entering `_finishWriteQueue` on the way resets `_timeouts`, so the
two never meet in one call. -/
def handleConnectedTimeout (cfg : Config) (expired : Bool) (c : Connection) : Connection :=
  let c' := c.processOutgoing cfg expired
  if c'.timeouts < maxTimeouts ∨ c'.finishing.isSome then c'
  else if c'.allFailed cfg then c'.giveUp
  else { c'.children.foldl evictOrReset c' with timeouts := 0 }

def handleAcceptIDTimeout (cfg : Config) (c : Connection) : Connection :=
  if c.timeouts + 1 < 20 then
    sendSimpleDatagram { c with timeouts := c.timeouts + 1 } .hello c.id
  else
    let c' := (c.sendSimpleDatagram .confirm c.id).addConnection cfg c.id c.sequence
    sendCountNode { c' with idAccepted := true, timeouts := 0 }

def handleInitTimeout (c : Connection) : Connection :=
  if c.timeouts + 1 < 20 then sendCountNode { c with timeouts := c.timeouts + 1 }
  else { c with listening := true, timeouts := 0 }

def handleTimeout (cfg : Config) (expired : Bool) (c : Connection) : Connection :=
  if c.listening then c.handleConnectedTimeout cfg expired
  else if c.idAccepted then c.handleInitTimeout
  else c.handleAcceptIDTimeout cfg

def checkNewID (c : Connection) (id : U16) : Connection :=
  if id = c.id ∨ (c.findConnection id).isSome then c.sendSimpleDatagram .deny c.id
  else c.sendSimpleDatagram .helloReply c.id

/-- `newID` is the number `_buildNewID` draws if it is asked for one. -/
def handleAcceptIDData (cfg : Config) (newID : U16) (c : Connection) (type : NodeType)
    (connectionID data : U16) : Connection :=
  match type with
  | .hello => c.checkNewID connectionID
  | .helloReply => c.addConnection cfg connectionID data
  | .deny =>
      if connectionID = c.id then
        sendSimpleDatagram { c with timeouts := 0, id := newID } .hello newID
      else c
  | .exit => c.removeConnection connectionID
  | .confirm => c
  | .countNode => c

def handleInitData (cfg : Config) (connected : Bool) (c : Connection) (type : NodeType)
    (connectionID data : U16) : Connection :=
  let c' := if connected then c else { c with timeouts := 0 }
  match type with
  | .hello => c'.checkNewID connectionID
  | .confirm => c'.addConnection cfg connectionID data
  | .countNode => c
  | .helloReply => c.addConnection cfg connectionID data
  | .exit => c.removeConnection connectionID
  | .deny => c

def sendNack (c : Connection) (writerID : U16) (nacks : List Nack) : Connection :=
  if writerID = c.id then { c with repeatQueue := (addRepeat c.repeatQueue nacks).1 }
  else c.send [.nack c.id writerID nacks]

def handleData (cfg : Config) (d : DatagramData) (c : Connection) : Connection :=
  match c.findConnection d.writerID with
  | none => c
  | some child =>
      let handled := child.handleData cfg c.id d
      let c' := (c.updateChild d.writerID (fun _ => handled.1)).send
        (handled.2.1.map (fun sequence => .ack c.id d.writerID sequence))
      match handled.2.2 with
      | none => c'
      | some nack => c'.sendNack d.writerID [nack]

/-- The test of `_handleAck` for an ack older than one already received. -/
def late (cfg : Config) (acked sequence : U16) : Bool :=
  decide (sequence.toNat ≤ acked.toNat ∧ acked.toNat - sequence.toNat ≤ cfg.numBuffers)

/-- The number up to which every remote child has acknowledged, by wrapping distances. -/
def minAcked (cfg : Config) (c : Connection) (sequence : U16) : U16 :=
  Serial.serialMin cfg.numBuffers sequence (c.remote.map Child.acked)

/-- Take over the number a reader has acknowledged. -/
def recordAck (c : Connection) (readerID sequence : U16) : Connection :=
  { c.updateChild readerID (Child.setAcked sequence) with timeouts := 0 }

def handleAck (cfg : Config) (readerID writerID sequence : U16) (c : Connection) : Connection :=
  if writerID ≠ c.id then c
  else match c.findConnection readerID with
    | none => c
    | some reader =>
        if late cfg reader.acked sequence then c
        else
          let c' := c.recordAck readerID sequence
          let acked := c'.minAcked cfg sequence
          match c'.findConnection c.id with
          | none => c'
          | some self =>
              if (acked - self.acked).toNat ≤ cfg.numBuffers then c'.finishWriteQueue acked
              else c'

def handleNack (readerID writerID : U16) (nacks : List Nack) (c : Connection) : Connection :=
  if c.id ≠ writerID then c
  else match c.findConnection readerID with
    | none => c
    | some _ => { c with timeouts := 0, repeatQueue := (addRepeat c.repeatQueue nacks).1 }

def handleAckRequest (cfg : Config) (writerID reqID : U16) (c : Connection) : Connection :=
  match c.findConnection writerID with
  | none => c
  | some child =>
      let gotID := child.sequence - 1
      if reqID = gotID ∨ (reqID < gotID ∧ gotID.toNat - reqID.toNat ≤ cfg.numBuffers) ∨
          (gotID < reqID ∧ cfg.numBuffers < (reqID - gotID).toNat) then
        c.send [.ack c.id writerID gotID]
      else c.sendNack writerID
        (ackRequestNacks cfg.numBuffers child.sequence reqID child.recvBuffers)

/-- `_handlePacket` up to the call of `_processOutgoing`, which is a step of its own. While it is
not listening, a connection takes nothing but node datagrams. -/
def handlePacket (cfg : Config) (newID : U16) (c : Connection) (d : Datagram) : Connection :=
  match d with
  | .data d => if c.listening then c.handleData cfg d else c
  | .ack readerID writerID sequence =>
      if c.listening then c.handleAck cfg readerID writerID sequence else c
  | .nack readerID writerID nacks =>
      if c.listening then c.handleNack readerID writerID nacks else c
  | .ackReq writerID sequence => if c.listening then c.handleAckRequest cfg writerID sequence else c
  | .node type connectionID data =>
      if c.listening then c.handleInitData cfg true type connectionID data
      else if c.idAccepted then c.handleInitData cfg false type connectionID data
      else c.handleAcceptIDData cfg newID type connectionID data

/-- The running `write` call takes an empty buffer; a null entry makes it give up. -/
def writePop (c : Connection) : Option Connection :=
  if c.writing = [] ∨ c.inHand.isSome then none
  else match c.appBuffers with
    | [] => none
    | none :: rest => some { c with appBuffers := rest, writing := [] }
    | some b :: rest => some { c with appBuffers := rest, inHand := some b }

/-- The running `write` call fills its buffer and queues it for the protocol thread. -/
def writePush (cfg : Config) (c : Connection) : Option Connection :=
  match c.inHand with
  | none => none
  | some b =>
      let packet := c.writing.take cfg.payloadSize
      let data := { b.data with
        size := BitVec.ofNat 16 packet.length, writerID := c.id, payload := packet }
      some { c with
        threadBuffers := pushThread cfg.numBuffers c.threadBuffers { b with data := data }
        writing := c.writing.drop cfg.payloadSize
        inHand := none }

end Connection

/-- What can happen at one connection. Every protocol thread event runs to its end before the next
one; the application's `write` and `readSync` calls interleave with them. -/
inductive Event
  | write (bytes : List UInt8)
  | writePop
  | writePush
  | read (writer : U16) (bytesLeft : ℕ)
  | outgoing (expired : Bool)
  | finishStep
  | packet (newID : U16) (d : Datagram)
  | timeout (expired : Bool)
  deriving DecidableEq, Repr

/-- The protocol thread is free to take the next event. -/
def Connection.idle (c : Connection) : Bool := !c.stopped && c.finishing.isNone

def Connection.step (cfg : Config) (c : Connection) : Event → Option Connection
  | .write bytes =>
    if c.writing = [] ∧ c.inHand = none then some { c with writing := bytes } else none
  | .writePop => c.writePop
  | .writePush => c.writePush cfg
  | .read writer bytesLeft =>
      (c.findConnection writer).bind (fun child =>
        (child.readSync cfg bytesLeft).map (fun r => c.updateChild writer (fun _ => r.1)))
  | .outgoing expired => if c.idle ∧ c.listening then some (c.processOutgoing cfg expired) else none
  | .finishStep => c.finishStep
  | .packet newID d => if c.idle then some (c.handlePacket cfg newID d) else none
  | .timeout expired => if c.idle then some (c.handleTimeout cfg expired) else none

end Collage.Rsp
