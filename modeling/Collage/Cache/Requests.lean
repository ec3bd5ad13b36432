import Collage.Cache.InstanceCache
import Collage.Object.Master

/-!
# Requests of the object store

The part of `objectStore.cpp` that uses the instance cache. A request to map or to sync an object
pins the item of the object, tells the master which versions it holds, and releases the item when
the reply arrives. Which replies there are is decided on the node of the master, from the change
manager it finds.
-/

namespace Collage.Cache

open Object

def instanceAll : ℕ := 0xffffffff

structure Reply where
  result : Bool
  releaseCache : Bool
  useCache : Bool
  deriving DecidableEq, Repr

/-- The change manager of a master: `ObjectCM::_initSlave` and `ObjectCM::sendSync` for static and
unbuffered objects, which may be detached meanwhile, or a buffered object. -/
inductive Manager (S : Type)
  | unbuffered (instanceID version : ℕ) (attached : Bool)
  | buffered (m : MasterCM S)

namespace Manager

variable {S : Type}

def replyOf (messages : List Sent) : Option Reply :=
  messages.findSome? (fun sent => match sent.message with
    | .mapReply reply => some ⟨reply.result, reply.releaseCache, reply.useCache⟩
    | _ => none)

/-- The reply of `addSlave`, if it succeeds. -/
def addSlave (command : MasterCommand) : Manager S → Option Reply
  | .unbuffered instanceID version attached =>
      if command.requestedVersion = versionNone then some ⟨true, command.useCache, false⟩
      else if command.useCache ∧ command.masterInstanceID = instanceID ∧
          command.minCachedVersion ≤ version ∧ version ≤ command.maxCachedVersion then
        some ⟨true, command.useCache, true⟩
      else if attached then some ⟨true, command.useCache, false⟩
      else none
  | .buffered m => replyOf (m.mapMessages command)

/-- The reply of `sendSync`, if it succeeds. -/
def sendSync (command : MasterCommand) : Manager S → Option Reply
  | .unbuffered instanceID version attached =>
      if attached then
        some ⟨true, command.useCache, command.useCache &&
          decide (command.masterInstanceID = instanceID ∧ command.maxCachedVersion = version)⟩
      else none
  | .buffered m =>
      some ⟨true, command.useCache, command.useCache &&
        decide (command.masterInstanceID = m.instanceID ∧ command.maxCachedVersion = m.version)⟩

end Manager

def refusal (command : MasterCommand) : Reply := ⟨false, command.useCache, false⟩

variable {S : Type}

def cmdMap (cm : Option (Manager S)) (command : MasterCommand) : Reply :=
  (cm.bind (Manager.addSlave command)).getD (refusal command)

def cmdSync (cm : Option (Manager S)) (command : MasterCommand) : Reply :=
  (cm.bind (Manager.sendSync command)).getD (refusal command)

/-- A request that is outstanding: `command` is what was sent to the master, `reply` its reply when
it is on the way. -/
structure Request where
  isSync : Bool
  command : MasterCommand
  /-- The node of the master. -/
  master : ℕ
  reply : Option Reply
  deriving DecidableEq, Repr

def Request.requestID (r : Request) : ℕ := r.command.requestID

structure Store where
  /-- `_instanceCache`. -/
  cache : Option InstanceCache
  requests : List Request
  deriving DecidableEq, Repr

/-- The version of a stream; `VERSION_INVALID` until it is ready. -/
def DataStream.getVersion (s : DataStream) : ℕ :=
  if s.isReady then s.getPendingVersion else 0xfffffffffffffffe

/-- What `_checkInstanceCache` finds: the first and the last version, and the instance identifier of
the master. -/
def Item.cachedRange (i : Item) : ℕ × ℕ × ℕ :=
  ((i.versions.head?.map DataStream.getVersion).getD versionHead,
    (i.versions.getLast?.map DataStream.getVersion).getD versionNone, i.masterInstanceID)

/-- `_checkInstanceCache`, which pins the item. -/
def checkInstanceCache (cache : Option InstanceCache) (id : ℕ) :
    Option (ℕ × ℕ × ℕ) × Option InstanceCache :=
  match cache with
  | none => (none, none)
  | some c => ((c.access id).1.map Item.cachedRange, some (c.access id).2)

namespace Store

variable (st : Store)

/-- A request with the cached versions, or with none of them. -/
def request (isSync : Bool) (requestID id master version maxVersion instanceID : ℕ) (useCache : Bool)
    (range : Option (ℕ × ℕ × ℕ)) : Request :=
  let (first, last, cachedInstance) := range.getD (versionHead, versionNone, 0)
  ⟨isSync, ⟨master, version, first, last, id, maxVersion, requestID, instanceID, cachedInstance,
    useCache⟩, master, none⟩

def mapNB (requestID id master version maxVersion instanceID : ℕ) : Store :=
  let (range, cache) := checkInstanceCache st.cache id
  { cache := cache
    requests := st.requests ++
      [request false requestID id master version maxVersion instanceID range.isSome range] }

/-- `_startSync`. An item of another instance is released at once. -/
def startSync (requestID id master instanceID : ℕ) (order : List ℕ) : Store :=
  let (range, cache) := checkInstanceCache st.cache id
  let useCache := range.any (fun r => instanceID = instanceAll ∨ instanceID = r.2.2)
  { cache := if range.isSome && !useCache then cache.map (fun c => (c.release id 1 order).2)
      else cache
    requests := st.requests ++
      [request true requestID id master 0xfffffffffffffffb 0 instanceID useCache range] }

def find (requestID : ℕ) : Option Request := Keyed.lookup Request.requestID requestID st.requests

def answer (requestID : ℕ) (cm : Option (Manager S)) : Option Store :=
  match st.find requestID with
  | none => none
  | some r =>
      if r.reply.isSome then none
      else
        let reply := if r.isSync then cmdSync cm r.command else cmdMap cm r.command
        some { st with
          requests := Keyed.update Request.requestID requestID
            (fun r => { r with reply := some reply }) st.requests }

/-- What `_cmdMapReply` and `_cmdSyncReply` do to the cache. -/
def handleReply (c : InstanceCache) (id : ℕ) (reply : Reply) (order : List ℕ) : InstanceCache :=
  if reply.result then
    if reply.useCache then ((c.access id).2.release id 2 order).2
    else if reply.releaseCache then (c.release id 1 order).2
    else c
  else if reply.releaseCache then (c.release id 1 order).2
  else c

def deliver (requestID : ℕ) (order : List ℕ) : Option Store :=
  match st.find requestID with
  | none => none
  | some r =>
      match r.reply with
      | none => none
      | some reply =>
          some
            { cache := st.cache.map (fun c => handleReply c r.command.objectID reply order)
              requests := st.requests.filter (fun r => r.requestID ≠ requestID) }

/-- A node disconnects: its items are removed, and it answers no more. -/
def disconnect (node : ℕ) : Store where
  cache := st.cache.map (fun c => c.remove node)
  requests := st.requests.filter (fun r => r.master ≠ node)

end Store

inductive StoreOp (S : Type)
  | map (requestID id master version maxVersion instanceID : ℕ)
  | sync (requestID id master instanceID : ℕ) (order : List ℕ)
  | answer (requestID : ℕ) (cm : Option (Manager S))
  | deliver (requestID : ℕ) (order : List ℕ)
  | add (chunk : Chunk) (usage : ℕ) (now : ℤ) (order : List ℕ)
  | erase (id : ℕ)
  | expire (now timeout : ℤ)
  | disconnect (node : ℕ)

/-- A new request has an identifier that no other one has. -/
def Store.step (st : Store) : StoreOp S → Option Store
  | .map requestID id master version maxVersion instanceID =>
      if (st.find requestID).isSome then none
      else some (st.mapNB requestID id master version maxVersion instanceID)
  | .sync requestID id master instanceID order =>
      if (st.find requestID).isSome then none
      else some (st.startSync requestID id master instanceID order)
  | .answer requestID cm => st.answer requestID cm
  | .deliver requestID order => st.deliver requestID order
  | .add chunk usage now order =>
      some { st with cache := st.cache.map (fun c => (c.add chunk usage now order).2) }
  | .erase id => some { st with cache := st.cache.map (fun c => (c.erase id).2) }
  | .expire now timeout => some { st with cache := st.cache.map (fun c => c.expire now timeout) }
  | .disconnect node => some (st.disconnect node)

/-- A store without requests, whose cache may be disabled. -/
def Store.start (cache : Option (ℕ × ℕ)) : Store where
  cache := cache.map (fun sizes => InstanceCache.start sizes.1 sizes.2)
  requests := []

end Collage.Cache
