import Mathlib.Algebra.Ring.Nat
import Mathlib.Data.List.Dedup
import Mathlib.Data.List.DropRight
import Mathlib.Data.List.Sort
import Collage.Stream.Chunking

/-!
# The masters of buffered objects

The change managers of `versionedMasterCM.cpp`, `fullMasterCM.cpp` and `deltaMasterCM.cpp`. They
serialise each version once, keep the instance data of the latest ones and send them to new slaves.
What the application provides with an object is a parameter; the data of a version is one record,
however many commands carry it. Commands of a change that no last one follows make no version at a
slave, and are left out. Counts of commits and versions do not wrap around here.
-/

namespace Collage.Object

def versionNone : ℕ := 0

def versionFirst : ℕ := 1

def versionOldest : ℕ := 0xfffffffffffffffc

def versionNext : ℕ := 0xfffffffffffffffd

def versionHead : ℕ := 0xffffffffffffffff

/-- `std::numeric_limits< uint64_t >::max()`. -/
def unlimited : ℕ := 0xffffffffffffffff

def commitNext : ℕ := 0xffffffff

inductive ChangeType
  /-- `INSTANCE`. -/
  | full
  /-- `DELTA`. -/
  | delta
  deriving DecidableEq, Repr

/-- What the application implements for an object with the states `S`. A change is packed relative
to the state of the last version. -/
structure ObjectClass (S : Type) where
  changeType : ChangeType
  isDirty : S → S → Bool
  /-- `Global::getObjectBufferSize`, for the streams of the object. -/
  objectBufferSize : ℕ
  /-- The writes of `getInstanceData` to its stream. -/
  instanceWrites : S → List Stream.Bytes
  applyInstanceData : List UInt8 → S → S
  /-- The writes of `pack`. -/
  packWrites : S → S → List Stream.Bytes
  unpack : List UInt8 → S → S

namespace ObjectClass

variable {S : Type} (cls : ObjectClass S)

def getInstanceData (s : S) : List UInt8 := (cls.instanceWrites s).flatten

def pack (old new : S) : List UInt8 := (cls.packWrites old new).flatten

/-- `hasSentData` of the stream to the slaves after `pack`. -/
def packSent (old new : S) : Bool :=
  Stream.ObjectDataOStream.hasSentData cls.objectBufferSize (cls.packWrites old new)

theorem packSent_iff {old new : S} : cls.packSent old new = true ↔
    cls.pack old new ≠ [] ∧ Stream.EndsInTime cls.objectBufferSize (cls.packWrites old new) :=
  Stream.ObjectDataOStream.hasSentData_iff

end ObjectClass

structure VersionData where
  version : ℕ
  hasInstanceData : Bool
  data : List UInt8
  deriving DecidableEq, Repr

/-- `MasterCMCommand`: a request to map an object. -/
structure MasterCommand where
  node : ℕ
  requestedVersion : ℕ
  minCachedVersion : ℕ
  maxCachedVersion : ℕ
  objectID : ℕ
  maxVersion : ℕ
  requestID : ℕ
  instanceID : ℕ
  masterInstanceID : ℕ
  useCache : Bool
  deriving DecidableEq, Repr

/-- `CMD_NODE_MAP_OBJECT_REPLY`. -/
structure MapReply where
  node : ℕ
  objectID : ℕ
  version : ℕ
  requestID : ℕ
  result : Bool
  releaseCache : Bool
  useCache : Bool
  deriving DecidableEq, Repr

inductive Message
  | mapSuccess (node requestID instanceID : ℕ)
  /-- Instance data for one slave. -/
  | mapData (node instanceID : ℕ) (is : VersionData)
  | mapReply (reply : MapReply)
  /-- Data of a new version, for all slaves. -/
  | commit (is : VersionData)
  | detach (instanceID : ℕ)
  deriving DecidableEq, Repr

/-- A message to one node, with the preference for its multicast connection. -/
structure Sent where
  multicast : Bool
  message : Message
  deriving DecidableEq, Repr

structure InstanceData where
  version : ℕ
  data : List UInt8
  commitCount : ℕ
  deriving DecidableEq, Repr

def InstanceData.stream (d : InstanceData) : VersionData := ⟨d.version, true, d.data⟩

structure SlaveData where
  node : ℕ
  instanceID : ℕ
  maxVersion : ℕ
  deriving DecidableEq, Repr

def usort (nodes : List ℕ) : List ℕ := (nodes.insertionSort (· ≤ ·)).dedup

theorem mem_usort {nodes : List ℕ} {n : ℕ} : n ∈ usort nodes ↔ n ∈ nodes := by
  rw [usort, List.mem_dedup, List.mem_insertionSort]

theorem nodup_usort (nodes : List ℕ) : (usort nodes).Nodup := List.nodup_dedup _

structure MasterCM (S : Type) where
  state : S
  /-- The state at each version. -/
  history : ℕ → S
  instanceID : ℕ
  version : ℕ
  instanceDatas : List InstanceData
  /-- Unsigned 32-bit in the source, like `nVersions`. A result that depends on it bounds the calls. -/
  commitCount : ℕ
  nVersions : ℕ
  slaveData : List SlaveData
  slaves : List ℕ
  maxVersion : ℕ
  /-- `_deltaData.hasSentData()`. -/
  deltaSent : Bool

/-- The loop of `_updateCommitCount`: buffers of a later incarnation, but not the first one. -/
def popFuture (commitCount : ℕ) (datas : List InstanceData) : List InstanceData :=
  datas.take 1 ++ (datas.drop 1).rdropWhile (fun d => commitCount < d.commitCount)

/-- The loop of `_obsolete`. -/
def popObsolete (commitCount nVersions : ℕ) : List InstanceData → List InstanceData
  | d :: e :: datas =>
      if nVersions < commitCount ∧ d.commitCount < commitCount - nVersions then
        popObsolete commitCount nVersions (e :: datas)
      else d :: e :: datas
  | datas => datas

/-- The limit of `_updateMaxVersion`. -/
def minLimit (slaves : List SlaveData) : ℕ :=
  slaves.foldl (fun limit d =>
    if d.maxVersion ≠ unlimited ∧ d.maxVersion < limit then d.maxVersion else limit) unlimited

def sendMapSuccess (command : MasterCommand) (multicast : Bool) : Sent :=
  ⟨multicast, .mapSuccess command.node command.requestID command.instanceID⟩

def sendMapReply (command : MasterCommand) (version : ℕ) (result useCache multicast : Bool) :
    Sent :=
  ⟨multicast, .mapReply ⟨command.node, command.objectID, version, command.requestID, result,
    command.useCache, useCache⟩⟩

def sendEmptyVersion (command : MasterCommand) (version : ℕ) (multicast : Bool) : Sent :=
  ⟨multicast, .mapData command.node command.instanceID ⟨version, true, []⟩⟩

def sendMapData (command : MasterCommand) (d : InstanceData) : Sent :=
  ⟨true, .mapData command.node command.instanceID d.stream⟩

namespace MasterCM

variable {S : Type} (cls : ObjectClass S) (m : MasterCM S)

/-- A registered object after `init`. -/
def init (s : S) (instanceID : ℕ) : MasterCM S where
  state := s
  history := fun _ => s
  instanceID := instanceID
  version := versionFirst
  instanceDatas := [⟨versionFirst, cls.getInstanceData s, 0⟩]
  commitCount := 1
  nVersions := 0
  slaveData := []
  slaves := []
  maxVersion := unlimited
  deltaSent := false

def updateMaxVersion : MasterCM S := { m with maxVersion := minLimit m.slaveData }

def updateCommitCount (incarnation : ℕ) : MasterCM S :=
  if incarnation = commitNext then { m with commitCount := m.commitCount + 1 }
  else if m.commitCount ≤ incarnation then { m with commitCount := incarnation }
  else
    let datas := popFuture incarnation m.instanceDatas
    match datas.getLast? with
    | none => { m with commitCount := incarnation, instanceDatas := datas }
    | some back =>
        if incarnation < back.commitCount then
          { m with
            commitCount := incarnation
            instanceDatas := datas.dropLast ++ [{ back with commitCount := 0 }]
            version := back.version }
        else { m with commitCount := incarnation, instanceDatas := datas }

def obsolete : MasterCM S :=
  { m with instanceDatas := popObsolete m.commitCount m.nVersions m.instanceDatas }

def setAutoObsolete (count : ℕ) : MasterCM S := { m with nVersions := count }.obsolete

/-- `++_version` and `_addInstanceData`. -/
def addVersion (data : List UInt8) : MasterCM S :=
  { m with
    version := m.version + 1
    history := Function.update m.history (m.version + 1) m.state
    instanceDatas := m.instanceDatas ++ [⟨m.version + 1, data, m.commitCount⟩] }

/-- `FullMasterCM::_commit`: the manager and what it sends to the slaves. -/
def commitFull : MasterCM S × Option VersionData :=
  let data := cls.getInstanceData m.state
  if data ≠ [] then (m.addVersion data, some ⟨m.version + 1, true, data⟩) else (m, none)

/-- `DeltaMasterCM::_commit`. -/
def commitDelta : MasterCM S × Option VersionData :=
  let delta := cls.pack (m.history m.version) m.state
  let sent := if m.slaves ≠ [] then cls.packSent (m.history m.version) m.state else m.deltaSent
  let m' := { m with deltaSent := sent }
  if m.slaves = [] ∨ sent then
    let data := cls.getInstanceData m.state
    if sent ∨ data ≠ [] then
      (m'.addVersion data,
        if m.slaves ≠ [] then some ⟨m.version + 1, false, delta⟩ else none)
    else (m', none)
  else (m', none)

/-- The part of `commit` under the lock, for an object that is dirty. -/
def commit (incarnation : ℕ) : MasterCM S × Option VersionData :=
  let m' := m.updateCommitCount incarnation
  let (m'', sent) := match cls.changeType with
    | .full => m'.commitFull cls
    | .delta => m'.commitDelta cls
  (m''.obsolete, sent)

/-- `commit` of an object that is not dirty. -/
def commitClean (incarnation : ℕ) : MasterCM S := (m.updateCommitCount incarnation).obsolete

def oldest : ℕ := (m.instanceDatas.head?.map InstanceData.version).getD versionNone

def startVersion (requested : ℕ) : ℕ :=
  if requested = versionOldest ∨ requested < m.oldest then m.oldest else requested

/-- The first and the last version `_initSlave` sends. -/
def sendRange (command : MasterCommand) (replyUseCache : Bool) : ℕ × ℕ :=
  let start := m.startVersion command.requestedVersion
  if replyUseCache then
    if command.minCachedVersion ≤ start ∧ start ≤ command.maxCachedVersion then
      (command.maxCachedVersion + 1, m.version)
    else if command.maxCachedVersion = m.version then
      (start, max start (command.minCachedVersion - 1))
    else (start, m.version)
  else (start, m.version)

/-- The instance data of the versions from `start` to `last`. -/
def dataRange (range : ℕ × ℕ) : List InstanceData :=
  (m.instanceDatas.dropWhile (fun d => d.version < range.1)).takeWhile
    (fun d => d.version ≤ range.2)

def initSlave (command : MasterCommand) (replyUseCache : Bool) : List Sent :=
  let datas := m.dataRange (m.sendRange command replyUseCache)
  let reply := m.startVersion command.requestedVersion
  if datas = [] then
    [sendMapSuccess command false, sendMapReply command reply true replyUseCache false]
  else
    sendMapSuccess command true :: datas.map (sendMapData command) ++
      [sendMapReply command reply true replyUseCache true]

/-- What `_addSlave` sends. -/
def mapMessages (command : MasterCommand) : List Sent :=
  if command.requestedVersion = versionNone then
    [sendMapSuccess command false, sendEmptyVersion command versionNone false,
      sendMapReply command versionNone true false false]
  else
    m.initSlave command
      (command.useCache && decide (command.masterInstanceID = m.instanceID))

def slaveLimit (maxVersion : ℕ) : ℕ :=
  if maxVersion = 0 then unlimited
  else if maxVersion < unlimited then (maxVersion + m.version) % 2 ^ 64
  else maxVersion

/-- `VersionedMasterCM::addSlave`, after the messages. -/
def addSlave (command : MasterCommand) : MasterCM S :=
  let data : SlaveData :=
    ⟨command.node, command.instanceID, m.slaveLimit command.maxVersion⟩
  { m with
    slaveData := m.slaveData ++ [data]
    slaves := usort (m.slaves ++ [command.node]) }.updateMaxVersion

def removeSlave (node instanceID : ℕ) : MasterCM S :=
  if m.slaveData.any (fun d => d.node = node ∧ d.instanceID = instanceID) then
    let slaveData := m.slaveData.eraseP (fun d => d.node = node ∧ d.instanceID = instanceID)
    { m with
      slaveData := slaveData
      slaves := usort (slaveData.map SlaveData.node) }.updateMaxVersion
  else m

def removeSlaves (node : ℕ) : MasterCM S :=
  if node ∈ m.slaves then
    { m with
      slaves := m.slaves.erase node
      slaveData := m.slaveData.filter (fun d => d.node ≠ node) }.updateMaxVersion
  else m

/-- The first slave of the list is updated. -/
def setLimit (node instanceID version : ℕ) : List SlaveData → List SlaveData
  | [] => []
  | d :: slaves =>
      if d.node = node ∧ d.instanceID = instanceID then { d with maxVersion := version } :: slaves
      else d :: setLimit node instanceID version slaves

def cmdMaxVersion (node instanceID version : ℕ) : MasterCM S :=
  if m.slaveData.any (fun d => d.node = node ∧ d.instanceID = instanceID) then
    { m with slaveData := setLimit node instanceID version m.slaveData }.updateMaxVersion
  else m

end MasterCM

end Collage.Object
