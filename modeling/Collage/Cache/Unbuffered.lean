import Mathlib.Data.List.Nodup
import Collage.Cache.Holding
import Collage.Object.Serializable

/-!
# Unbuffered objects and the cache

An unbuffered object whose slaves are mapped and synchronised by nodes with an instance cache. The
master numbers its versions, but a commit without slaves or without changes to send keeps the
number, and its data is that of the object at the time it is sent. Messages to a node may arrive in
any order. The data of a version is one message, which is not the last one if the data ends with
empty writes behind a full buffer.
-/

namespace Collage.Cache.Unbuffered

open Object

inductive Packet
  /-- Instance data, for the cache of the node. -/
  | data (chunk : Chunk)
  /-- The reply to a request, with the version and the instance data of the object when the master
  answered. Unless the cache is used, that data was sent. -/
  | reply (requestID version : ℕ) (current : List UInt8)
  deriving DecidableEq, Repr

namespace Packet

def chunk : Packet → Option Chunk
  | data chunk => some chunk
  | reply _ _ _ => none

def request : Packet → Option ℕ
  | data _ => none
  | reply requestID _ _ => some requestID

end Packet

/-- The data that a completed request has applied, and that of the object when the master
answered. -/
structure Result where
  requestID : ℕ
  data : List UInt8
  current : List UInt8
  deriving DecidableEq, Repr

structure Node where
  store : Store
  inbox : List Packet
  results : List Result
  deriving DecidableEq, Repr

/-- The master of an object and the nodes that use it. -/
structure World (S : Type) (n : ℕ) where
  objectID : ℕ
  /-- The node of the master. -/
  masterNode : ℕ
  master : MasterCM S
  /-- The instance data of the object has changed since the last commit. -/
  modified : Bool
  nodes : Fin n → Node

def payload (s : DataStream) : List UInt8 := s.commands.flatMap Chunk.payload

def lastVersion (streams : List DataStream) : ℕ :=
  (streams.getLast?.map DataStream.getVersion).getD versionNone

namespace Node

variable (x : Node)

/-- What a request gets with its reply; nothing if it is refused. A sync without data does not
complete. -/
def receive (r : Request) (reply : Reply) (version : ℕ) (current : List UInt8) :
    Option (List UInt8) :=
  if reply.result = false then none
  else if reply.useCache then
    (x.store.streamsOf r.command.objectID).bind (fun streams =>
      (if r.isSync then streams.getLast?
        else streams.find? (fun s => s.getVersion = version)).map payload)
  else if r.isSync = true ∧ current = [] then none
  else some current

def complete (requestID version : ℕ) (current : List UInt8) : List Result :=
  (((x.store.find requestID).bind (fun r =>
    r.reply.bind (fun reply => x.receive r reply version current))).map
      (fun data => ⟨requestID, data, current⟩)).toList

/-- A message arrives: `_cmdInstance`, `_cmdMapReply` and `_cmdSyncReply`. -/
def deliver (p : ℕ) (now : ℤ) (order : List ℕ) : Option Node :=
  match x.inbox[p]? with
  | none => none
  | some (.data chunk) =>
      (x.store.step (.add chunk 0 now order : StoreOp Unit)).map (fun store =>
        { x with store := store, inbox := x.inbox.eraseIdx p })
  | some (.reply requestID version current) =>
      (x.store.deliver requestID order).map (fun store =>
        { store := store
          inbox := x.inbox.eraseIdx p
          results := x.results ++ x.complete requestID version current })

end Node

inductive Event (S : Type) (n : ℕ)
  /-- The application changes the object. -/
  | modify (s : S)
  | commit
  /-- The object store of a node acts by itself: it requests the object, or it uses its cache for
  other objects. -/
  | act (k : Fin n) (op : StoreOp S)
  /-- The master answers a request. `others` are nodes of the same multicast group. -/
  | serve (k : Fin n) (requestID size : ℕ) (others : List (Fin n))
  /-- The message at an index of the inbox arrives. -/
  | deliver (k : Fin n) (p : ℕ) (now : ℤ) (order : List ℕ)
  /-- `CMD_NODE_UNSUBSCRIBE_OBJECT`. -/
  | unmap (k : Fin n) (instanceID : ℕ)
  /-- `CMD_OBJECT_MAX_VERSION`. -/
  | limit (k : Fin n) (instanceID version : ℕ)

namespace World

variable {S : Type} {n : ℕ} (cls : ObjectClass S) (w : World S n)

/-- A registered object, and nodes with the sizes of their caches. -/
def start (objectID masterNode instanceID : ℕ) (s : S) (sizes : Fin n → Option (ℕ × ℕ)) :
    World S n where
  objectID := objectID
  masterNode := masterNode
  master := { MasterCM.init cls s instanceID with instanceDatas := [] }
  modified := false
  nodes := fun k => ⟨Store.start (sizes k), [], []⟩

/-- The instance data that the master sends for a request. -/
def current (r : Request) : List UInt8 :=
  if r.isSync = false ∧ r.command.requestedVersion = versionNone then []
  else cls.getInstanceData w.master.state

/-- The change manager that `_cmdMap` or `_cmdSync` finds. -/
def manager (r : Request) : Option (Manager S) :=
  if r.isSync = true ∧ r.command.instanceID ≠ instanceAll ∧
      r.command.instanceID ≠ w.master.instanceID then none
  else some (.unbuffered w.master.instanceID w.master.version true)

def replyTo (r : Request) : Reply :=
  if r.isSync then cmdSync (w.manager r) r.command else cmdMap (w.manager r) r.command

def chunk (size : ℕ) : Chunk where
  id := w.objectID
  version := w.master.version
  instanceID := w.master.instanceID
  node := w.masterNode
  sequence := 0
  isLast := Stream.ObjectDataOStream.hasSentData cls.objectBufferSize
    (cls.instanceWrites w.master.state)
  size := size
  payload := cls.getInstanceData w.master.state

def dataFor (r : Request) (size : ℕ) : List Packet :=
  if (w.replyTo r).result = true ∧ (w.replyTo r).useCache = false ∧ w.current cls r ≠ [] then
    [.data (w.chunk cls size)]
  else []

def serve (k : Fin n) (requestID size : ℕ) (others : List (Fin n)) : Option (World S n) :=
  match (w.nodes k).store.find requestID with
  | none => none
  | some r =>
      if r.command.objectID ≠ w.objectID then none
      else
        ((w.nodes k).store.answer requestID (w.manager r)).map (fun store =>
          let data := w.dataFor cls r size
          let reply := Packet.reply requestID w.master.version (w.current cls r)
          { w with
            master := if r.isSync then w.master
              else w.master.addSlave { r.command with node := k }
            nodes := fun j =>
              if j = k then
                { w.nodes k with store := store, inbox := (w.nodes k).inbox ++ (data ++ [reply]) }
              else if j ∈ others then { w.nodes j with inbox := (w.nodes j).inbox ++ data }
              else w.nodes j })

/-- `UnbufferedMasterCM::commit`, which waits for slaves that are too far behind. -/
def commit : Option (World S n) :=
  if cls.isDirty (w.master.history w.master.version) w.master.state = false then
    some { w with modified := false }
  else if w.master.maxVersion < w.master.version + 1 then none
  else some { w with master := (w.master.commitUnbuffered cls).1, modified := false }

/-- What a node may do by itself: its requests for the object are for the node of the master, and
its messages are not about the object. -/
def Local (st : Store) : StoreOp S → Prop
  | .map _ id master _ _ _ => id = w.objectID → master = w.masterNode
  | .sync _ id master _ _ => id = w.objectID → master = w.masterNode
  | .answer requestID _ => ∀ r ∈ st.find requestID, r.command.objectID ≠ w.objectID
  | .deliver requestID _ => ∀ r ∈ st.find requestID, r.command.objectID ≠ w.objectID
  | .add chunk _ _ _ => chunk.id ≠ w.objectID
  | .erase _ => True
  | .expire _ _ => True
  | .disconnect _ => False

instance (st : Store) : (op : StoreOp S) → Decidable (w.Local st op)
  | .map _ id master _ _ _ => inferInstanceAs (Decidable (id = w.objectID → master = w.masterNode))
  | .sync _ id master _ _ => inferInstanceAs (Decidable (id = w.objectID → master = w.masterNode))
  | .answer requestID _ =>
      inferInstanceAs (Decidable (∀ r ∈ st.find requestID, r.command.objectID ≠ w.objectID))
  | .deliver requestID _ =>
      inferInstanceAs (Decidable (∀ r ∈ st.find requestID, r.command.objectID ≠ w.objectID))
  | .add chunk _ _ _ => inferInstanceAs (Decidable (chunk.id ≠ w.objectID))
  | .erase _ => isTrue trivial
  | .expire _ _ => isTrue trivial
  | .disconnect _ => isFalse id

def setNode (k : Fin n) (x : Node) : World S n :=
  { w with nodes := Function.update w.nodes k x }

def step : Event S n → Option (World S n)
  | .modify s =>
      some { w with
        master := { w.master with state := s }
        modified := w.modified ||
          decide (cls.getInstanceData s ≠ cls.getInstanceData w.master.state) }
  | .commit => w.commit cls
  | .act k op =>
      if w.Local (w.nodes k).store op then
        ((w.nodes k).store.step op).map (fun store =>
          w.setNode k { w.nodes k with store := store })
      else none
  | .serve k requestID size others => w.serve cls k requestID size others
  | .deliver k p now order => ((w.nodes k).deliver p now order).map (w.setNode k)
  | .unmap k instanceID => some { w with master := w.master.removeSlave k instanceID }
  | .limit k instanceID version =>
      some { w with master := w.master.cmdMaxVersion k instanceID version }

end World

end Collage.Cache.Unbuffered
