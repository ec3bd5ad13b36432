import Collage.Lib.Run
import Mathlib.Logic.Function.Basic

/-!
# Connecting nodes

Two nodes open connections to each other (`localNode.cpp`). The node that opens a connection sends
CONNECT. The other node registers the connection and replies, or refuses if it is connected already.
On the reply, the first node connects and sends CONNECT_ACK, on which the other node connects. Node
objects and connections are numbered here. Both nodes have the same numbers for the connections, and
each one has its own objects for the other node.
-/

namespace Collage.Connect

inductive Message
  | connect
  | reply
  /-- A reply without the identifier of the node. -/
  | refuse
  | ack
  deriving DecidableEq

structure LocalNode where
  /-- The object with the identifier of the peer. -/
  nodes : Option ℕ
  /-- The connection of each object that is connected. -/
  outgoing : ℕ → Option ℕ
  incoming : ℕ → Bool
  connectionNodes : ℕ → Option ℕ
  /-- The data of the request of each connection that this node has opened. -/
  requests : ℕ → Option ℕ
  /-- The number of the next object. -/
  created : ℕ
  /-- The objects with a pending CMD_NODE_DISCONNECT. -/
  disconnects : List ℕ

namespace LocalNode

def init : LocalNode where
  nodes := none
  outgoing := fun _ => none
  incoming := fun _ => false
  connectionNodes := fun _ => none
  requests := fun _ => none
  created := 0
  disconnects := []

variable (l : LocalNode)

def connection : Option ℕ := l.nodes.bind l.outgoing

def removeConnection (c : ℕ) : LocalNode :=
  { l with incoming := Function.update l.incoming c false }

def createNode : LocalNode := { l with created := l.created + 1 }

def register (c o : ℕ) : LocalNode :=
  { l with connectionNodes := Function.update l.connectionNodes c (some o), nodes := some o }

def connect (c o : ℕ) : LocalNode :=
  { l with outgoing := Function.update l.outgoing o (some c) }

def serveRequest (c : ℕ) : LocalNode :=
  { l with requests := Function.update l.requests c none }

def closeNode (o : ℕ) : LocalNode :=
  match l.outgoing o with
  | none => { l with nodes := none }
  | some c =>
      { l.removeConnection c with
        outgoing := Function.update l.outgoing o none
        connectionNodes := Function.update l.connectionNodes c none
        nodes := none }

/-- `cmdConnect`, with the reply. A node may be unable to create objects for its peer. -/
def cmdConnect (creates : Bool) (c : ℕ) : LocalNode × Message :=
  match l.nodes with
  | some o =>
      if (l.outgoing o).isSome then (l.removeConnection c, .refuse) else (l.register c o, .reply)
  | none =>
      if creates then (l.createNode.register c l.created, .reply)
      else (l.removeConnection c, .refuse)

/-- `cmdConnectReply` for a refused connection. -/
def cmdConnectRefused (c : ℕ) : LocalNode := (l.removeConnection c).serveRequest c

/-- `cmdConnectReply`, with the acknowledgement. -/
def cmdConnectReply (c : ℕ) : LocalNode × List Message :=
  match l.nodes with
  | some o =>
      if (l.outgoing o).isSome then (((l.removeConnection c).closeNode o).serveRequest c, [])
      else (((l.register c o).connect c o).serveRequest c, [.ack])
  | none =>
      match l.requests c with
      | some o => (((l.register c o).connect c o).serveRequest c, [.ack])
      | none => (l.removeConnection c, [])

def cmdConnectAck (c : ℕ) : LocalNode :=
  match l.connectionNodes c with
  | some o => l.connect c o
  | none => l

def handleDisconnect (c : ℕ) : LocalNode :=
  match l.connectionNodes c with
  | some o =>
      if l.outgoing o = some c then (l.closeNode o).removeConnection c else l.removeConnection c
  | none => l.removeConnection c

end LocalNode

/-- The two nodes. -/
structure World where
  node : Bool → LocalNode
  /-- The messages that are on the way to each node, for each connection. -/
  messages : Bool → ℕ → List Message
  /-- The node that has opened each connection. -/
  opener : ℕ → Bool
  broken : ℕ → Bool
  /-- The number of the next connection. -/
  opened : ℕ

inductive Event
  /-- An object is created by the application. -/
  | create (n : Bool)
  /-- `_connect` is called with an object. -/
  | connect (n : Bool) (o : ℕ)
  /-- The request of a connection times out. -/
  | timeout (n : Bool) (c : ℕ)
  /-- The next message of a connection arrives. -/
  | receive (n : Bool) (c : ℕ)
  /-- `handleDisconnect`, when there are no more data. -/
  | disconnected (n : Bool) (c : ℕ)
  /-- `disconnect` is called with an object. -/
  | disconnect (n : Bool) (o : ℕ)
  | cmdDisconnect (n : Bool)
  /-- A connection breaks, and only some messages still arrive at a node. -/
  | lose (n : Bool) (c count : ℕ)

namespace World

def init : World where
  node := fun _ => LocalNode.init
  messages := fun _ _ => []
  opener := fun _ => false
  broken := fun _ => false
  opened := 0

variable (creates : Bool → Bool) (w : World)

/-- A node closes the connections that it has removed. -/
def put (n : Bool) (l : LocalNode) : World :=
  { w with
    node := Function.update w.node n l
    messages := Function.update w.messages n
      (fun c => if l.incoming c then w.messages n c else []) }

def setMessages (n : Bool) (c : ℕ) (messages : List Message) : World :=
  { w with
    messages := Function.update w.messages n (Function.update (w.messages n) c messages) }

def send (n : Bool) (c : ℕ) (messages : List Message) : World :=
  if (w.node (!n)).incoming c ∧ w.broken c = false then
    w.setMessages (!n) c (w.messages (!n) c ++ messages)
  else w

def connect (n : Bool) (o : ℕ) : World :=
  { node := fun m =>
      { w.node m with
        incoming := Function.update (w.node m).incoming w.opened true
        requests := if m = n then Function.update (w.node m).requests w.opened (some o)
          else (w.node m).requests }
    messages := fun m => Function.update (w.messages m) w.opened
      (if m = n then [] else [.connect])
    opener := Function.update w.opener w.opened n
    broken := Function.update w.broken w.opened false
    opened := w.opened + 1 }

def handle (n : Bool) (c : ℕ) (message : Message) : World :=
  match message with
  | .connect =>
      let reply := (w.node n).cmdConnect (creates n) c
      (w.send n c [reply.2]).put n reply.1
  | .reply =>
      let reply := (w.node n).cmdConnectReply c
      (w.send n c reply.2).put n reply.1
  | .refuse => w.put n ((w.node n).cmdConnectRefused c)
  | .ack => w.put n ((w.node n).cmdConnectAck c)

def step (w : World) : Event → Option World
  | .create n => some (w.put n (w.node n).createNode)
  | .connect n o =>
      if o < (w.node n).created ∧ (w.node n).outgoing o = none then some (w.connect n o) else none
  | .timeout n c => some (w.put n ((w.node n).serveRequest c))
  | .receive n c =>
      match (w.node n).incoming c, w.messages n c with
      | true, message :: messages =>
          some ((w.setMessages n c messages).handle creates n c message)
      | _, _ => none
  | .disconnected n c =>
      if (w.node n).incoming c = true ∧ w.messages n c = [] ∧
          ((w.node (!n)).incoming c = false ∨ w.broken c = true) then
        some (w.put n ((w.node n).handleDisconnect c))
      else none
  | .disconnect n o =>
      if ((w.node n).outgoing o).isSome then
        some (w.put n { w.node n with disconnects := (w.node n).disconnects ++ [o] })
      else none
  | .cmdDisconnect n =>
      match (w.node n).disconnects with
      | [] => none
      | o :: disconnects => some (w.put n ({ w.node n with disconnects }.closeNode o))
  | .lose n c count =>
      some { w.setMessages n c ((w.messages n c).take count) with
        broken := Function.update w.broken c true }

/-- All messages and closures have been processed. -/
def Settled : Prop :=
  ∀ n c, (w.node n).incoming c = true →
    w.messages n c = [] ∧ (w.node (!n)).incoming c = true ∧ w.broken c = false

/-- The nodes use one connection, or none, and have removed all other ones from their tables. -/
def Agreed : Prop :=
  ∃ connection : Option ℕ, ∀ n, (w.node n).connection = connection ∧
    (∀ o c, (w.node n).outgoing o = some c → connection = some c) ∧
    ∀ c, connection ≠ some c →
      (w.node n).incoming c = false ∧ (w.node n).connectionNodes c = none

end World

end Collage.Connect
