import Collage.Lib.Run
import Collage.Object.Connections
import Collage.Object.Slave

/-!
# A master and its slaves

One object with its master and the slaves on other nodes, which have no instance cache. The requests
of a node arrive at the master in order. What the master sends to a node travels on the unicast and
on the multicast connection of the node; each of them keeps the order, but one may overtake the
other. A commit waits for its slaves before it takes the lock, so other events may come between.
-/

namespace Collage.Object

variable {S : Type}

inductive Up
  | map (command : MasterCommand)
  | unsubscribe (instanceID : ℕ)
  | maxVersion (instanceID version : ℕ)
  deriving DecidableEq, Repr

structure MapRequest (S : Type) where
  instanceID : ℕ
  maxVersions : ℕ
  state : S

structure Node (S : Type) where
  requests : List (MapRequest S)
  /-- The attached slaves. -/
  slaves : List (Slave S)
  /-- The deltas among `pendingCommands`. -/
  pending : List VersionData
  /-- The next instance identifier. -/
  nextID : ℕ

namespace Node

variable (node : Node S)

/-- A command for all instances that could not be dispatched is dispatched again. -/
def redispatch : Node S :=
  if node.slaves = [] then node
  else
    { node with
      slaves := node.slaves.map (fun s => node.pending.foldl Slave.cmdData s)
      pending := [] }

/-- `_attach` of the object of a request. -/
def attach (instanceID : ℕ) : Node S :=
  match Keyed.lookup MapRequest.instanceID instanceID node.requests with
  | none => node
  | some r =>
      { node with
        requests := node.requests.filter (fun r => r.instanceID ≠ instanceID)
        slaves := node.slaves ++ [Slave.attached r.instanceID r.maxVersions r.state] }.redispatch

def dispatch (instanceID : ℕ) (message : Message) : Node S :=
  { node with
    slaves := node.slaves.map (fun s =>
      if s.instanceID = instanceID then s.handle [] message else s) }

/-- What the receiver thread of node `n` does with a message. Messages to other nodes of a multicast
group are ignored; instance data of a commit is dropped without a slave, a delta is kept. -/
def receive (n : ℕ) : Message → Node S
  | .mapSuccess target _ instanceID => if target = n then node.attach instanceID else node
  | .mapData target instanceID is =>
      if target = n then node.dispatch instanceID (.mapData target instanceID is) else node
  | .mapReply reply =>
      if reply.node = n then node.dispatch reply.requestID (.mapReply reply) else node
  | .commit is =>
      if node.slaves = [] then
        if is.hasInstanceData then node else { node with pending := node.pending ++ [is] }
      else { node with slaves := node.slaves.map (fun s => s.handle [] (.commit is)) }
  | .detach instanceID =>
      { node with slaves := node.slaves.filter (fun s => s.instanceID ≠ instanceID) }

def find (instanceID : ℕ) : Option (Slave S) :=
  Keyed.lookup Slave.instanceID instanceID node.slaves

def set (s : Slave S) : Node S :=
  { node with slaves := Keyed.update Slave.instanceID s.instanceID (fun _ => s) node.slaves }

def empty : Node S := ⟨[], [], [], 0⟩

end Node

structure World (S : Type) where
  master : MasterCM S
  /-- For each commit that has waited and not yet taken the lock, the version it waited at. -/
  waited : List ℕ
  up : ℕ → List Up
  /-- What was sent to each node and has not arrived. -/
  down : ℕ → List Sent
  nodes : ℕ → Node S

def post (groups : ℕ → Option ℕ) (message : Message) (down : ℕ → List Sent) (c : Connection) :
    ℕ → List Sent :=
  fun n => if c.reaches groups n then down n ++ [⟨c.isMulticast, message⟩] else down n

def sendAll (groups : ℕ → Option ℕ) (node : ℕ) (messages : List Sent) (down : ℕ → List Sent) :
    ℕ → List Sent :=
  messages.foldl (fun down sent =>
    post groups sent.message down (getConnection groups node sent.multicast)) down

def broadcast (groups : ℕ → Option ℕ) (nodes : List ℕ) (message : Message) (down : ℕ → List Sent) :
    ℕ → List Sent :=
  (gatherConnections groups nodes).foldl (post groups message) down

inductive Event (S : Type)
  /-- The application changes the state of the master. -/
  | modify (state : S)
  /-- `commit` up to the end of its wait. -/
  | wait
  /-- `commit` from the lock on, by the thread at an index of `waited`. -/
  | commit (index incarnation : ℕ)
  /-- `commit` of an object that is not dirty. -/
  | commitClean (incarnation : ℕ)
  | setAutoObsolete (count : ℕ)
  /-- `mapObject` on a node. -/
  | map (node : ℕ) (state : S) (maxVersions version : ℕ)
  | unmap (node instanceID : ℕ)
  /-- The master handles the next request of a node. -/
  | serve (node : ℕ)
  /-- A message arrives at a node. -/
  | deliver (node index : ℕ)
  | sync (node instanceID version : ℕ)
  /-- The application thread of a slave makes a step. -/
  | advance (node instanceID : ℕ)
  | disconnect (node : ℕ)

namespace World

variable (cls : ObjectClass S) (groups : ℕ → Option ℕ) (w : World S)

def serve (node : ℕ) : Up → World S
  | .map command =>
      { w with
        master := w.master.addSlave command
        down := sendAll groups node (w.master.mapMessages command) w.down }
  | .unsubscribe instanceID =>
      { w with
        master := w.master.removeSlave node instanceID
        down := sendAll groups node [⟨false, .detach instanceID⟩] w.down }
  | .maxVersion instanceID version =>
      { w with master := w.master.cmdMaxVersion node instanceID version }

/-- The request of `mapObject`, without cached versions. -/
def mapCommand (node : ℕ) (n : Node S) (maxVersions version : ℕ) : MasterCommand :=
  ⟨node, version, versionHead, versionNone, 0, maxVersions, n.nextID, n.nextID, 0, false⟩

def mapObject (node : ℕ) (state : S) (maxVersions version : ℕ) : World S :=
  let n := w.nodes node
  { w with
    up := Function.update w.up node
      (w.up node ++ [.map (mapCommand node n maxVersions version)])
    nodes := Function.update w.nodes node
      { n with
        requests := n.requests ++ [⟨n.nextID, maxVersions, state⟩]
        nextID := n.nextID + 1 } }

/-- The message at an index may arrive if none before it is on the same connection. -/
def deliver (node index : ℕ) : Option (World S) :=
  match (w.down node)[index]? with
  | none => none
  | some sent =>
      if ∀ earlier ∈ (w.down node).take index, earlier.multicast ≠ sent.multicast then
        some
          { w with
            down := Function.update w.down node ((w.down node).eraseIdx index)
            nodes := Function.update w.nodes node ((w.nodes node).receive node sent.message) }
      else none

/-- The slave of an instance is changed, and it may send a request. -/
def setSlave (node : ℕ) (s : Slave S) (requests : List Up) : World S :=
  { w with
    up := Function.update w.up node (w.up node ++ requests)
    nodes := Function.update w.nodes node ((w.nodes node).set s) }

def step : Event S → Option (World S)
  | .modify state => some { w with master := { w.master with state := state } }
  | .wait =>
      if cls.isDirty (w.master.history w.master.version) w.master.state ∧
          w.master.version + 1 ≤ w.master.maxVersion then
        some { w with waited := w.waited ++ [w.master.version] }
      else none
  | .commit index incarnation =>
      if index < w.waited.length then
        let (master, sent) := w.master.commit cls incarnation
        some
          { w with
            master := master
            waited := w.waited.eraseIdx index
            down := match sent with
              | none => w.down
              | some is => broadcast groups w.master.slaves (.commit is) w.down }
      else none
  | .commitClean incarnation =>
      if cls.isDirty (w.master.history w.master.version) w.master.state then none
      else some { w with master := w.master.commitClean incarnation }
  | .setAutoObsolete count => some { w with master := w.master.setAutoObsolete count }
  | .map node state maxVersions version => some (w.mapObject node state maxVersions version)
  | .unmap node instanceID =>
      match (w.nodes node).find instanceID with
      | none => none
      | some s =>
          if s.task = .idle then
            some (w.setSlave node { s with task := .unmapping } [.unsubscribe instanceID])
          else none
  | .serve node =>
      match w.up node with
      | [] => none
      | request :: rest =>
          some ({ w with up := Function.update w.up node rest }.serve groups node request)
  | .deliver node index => w.deliver node index
  | .sync node instanceID version =>
      match (w.nodes node).find instanceID with
      | none => none
      | some s => if s.task = .idle then some (w.setSlave node (s.sync version) []) else none
  | .advance node instanceID =>
      match (w.nodes node).find instanceID with
      | none => none
      | some s =>
          match s.advance cls with
          | none => none
          | some (s', ack) =>
              some (w.setSlave node s' (ack.toList.map (Up.maxVersion instanceID)))
  | .disconnect node =>
      some
        { w with
          master := w.master.removeSlaves node
          up := Function.update w.up node []
          down := Function.update w.down node []
          nodes := Function.update w.nodes node
            { Node.empty with nextID := (w.nodes node).nextID } }

def start (s : S) (instanceID : ℕ) : World S where
  master := MasterCM.init cls s instanceID
  waited := []
  up := fun _ => []
  down := fun _ => []
  nodes := fun _ => Node.empty

end World

end Collage.Object
