import Collage.Object.Master

/-!
# Slaves of versioned objects

The change manager of `versionedSlaveCM.cpp`. The receiver thread queues the versions it gets, and
the application thread applies them: first the data it was mapped to, then, in calls of `sync`, one
version after the other. Such a call is a task, which waits while the queue is empty. Debug
assertions are recorded when they fail.
-/

namespace Collage.Object

inductive Assertion
  /-- The order of versions in `_cmdData`. -/
  | queuedNext
  /-- The order of versions in `_unpackOneVersion`. -/
  | unpackedNext
  /-- `hasInstanceData()` in `applyMapData`. -/
  | mappedInstance
  /-- `getVersion() > version` in `applyMapData`. -/
  | mappedNewer
  /-- The order at the front of the queue in `addInstanceDatas`. -/
  | addedFront
  /-- The order at the back of the queue in `addInstanceDatas`. -/
  | addedBack
  deriving DecidableEq, Repr

/-- What the application thread does with a slave. -/
inductive Task
  /-- Waits for the map reply. -/
  | mapping
  /-- In `applyMapData`. -/
  | applying (version : ℕ)
  | idle
  /-- In `sync` to a version. -/
  | syncing (version : ℕ)
  /-- In `_syncToHead`. -/
  | heading
  /-- In `unmap`. -/
  | unmapping
  deriving DecidableEq, Repr

structure Slave (S : Type) where
  instanceID : ℕ
  /-- `getMaxVersions()`. -/
  maxVersions : ℕ
  state : S
  version : ℕ
  queue : List VersionData
  /-- All versions the receiver thread has queued. -/
  received : List VersionData
  /-- The version of the map reply. -/
  reply : Option ℕ
  task : Task
  failed : List Assertion

def check (p : Prop) [Decidable p] (a : Assertion) : List Assertion := if p then [] else [a]

namespace Slave

variable {S : Type} (cls : ObjectClass S) (s : Slave S)

def attached (instanceID maxVersions : ℕ) (state : S) : Slave S where
  instanceID := instanceID
  maxVersions := maxVersions
  state := state
  version := versionNone
  queue := []
  received := []
  reply := none
  task := .mapping
  failed := []

/-- `_cmdData` with the last command of a version. -/
def cmdData (is : VersionData) : Slave S :=
  { s with
    queue := s.queue ++ [is]
    received := s.received ++ [is]
    failed := s.failed ++ check (∀ back ∈ s.queue.getLast?,
      back.version + 1 = is.version ∨ back.version = versionNone) .queuedNext }

def cmdMapReply (version : ℕ) : Slave S :=
  match s.reply with
  | none => { s with reply := some version, task := .applying version }
  | some _ => s

/-- `_unpackOneVersion` with the front of the queue. -/
def unpackOneVersion (is : VersionData) (queue : List VersionData) : Slave S :=
  { s with
    queue := queue
    state := if is.hasInstanceData then cls.applyInstanceData is.data s.state
      else cls.unpack is.data s.state
    version := is.version
    failed := s.failed ++
      check (s.version + 1 = is.version ∨ s.version = versionNone) .unpackedNext }

/-- The limit `_sendAck` sends, unless it overflows. -/
def ack : Option ℕ :=
  let maxVersion := (s.version + s.maxVersions) % 2 ^ 64
  if maxVersion ≤ s.version then none else some maxVersion

/-- A turn of the loop of `applyMapData` with the front of the queue. -/
def applyMapData (version : ℕ) (is : VersionData) (queue : List VersionData) : Slave S :=
  if is.version = version then
    { s with
      queue := queue
      state := if is.data ≠ [] then cls.applyInstanceData is.data s.state else s.state
      version := version
      task := .idle
      failed := s.failed ++ check (is.hasInstanceData = true) .mappedInstance }
  else
    { s with
      queue := queue
      failed := s.failed ++ check (version < is.version) .mappedNewer }

/-- `sync` up to its loop. -/
def sync (v : ℕ) : Slave S :=
  if s.version = v then s
  else if v = versionHead then { s with task := .heading }
  else { s with task := .syncing (if v = versionNext then s.version + 1 else v) }

/-- The next step of the application thread: the slave, and the limit it acknowledges. -/
def advance : Option (Slave S × Option ℕ) :=
  match s.task with
  | .mapping => none
  | .idle => none
  | .unmapping => none
  | .applying version =>
      match s.queue with
      | [] => none
      | is :: queue => some (s.applyMapData cls version is queue, none)
  | .syncing version =>
      if s.version < version then
        match s.queue with
        | [] => none
        | is :: queue =>
            let s' := s.unpackOneVersion cls is queue
            some (s', s'.ack)
      else some ({ s with task := .idle }, none)
  | .heading =>
      match s.queue with
      | [] => some ({ s with task := .idle }, none)
      | is :: queue =>
          let s' := s.unpackOneVersion cls is queue
          some (s', s'.ack)

/-- The loop of `addInstanceDatas` over the cache: the versions before the queue, in the order they
are pushed to its front, and those behind it. -/
def splitCached (startVersion oldest newest : ℕ) :
    List VersionData → List VersionData × List VersionData
  | [] => ([], [])
  | is :: cache =>
      let (head, tail) := splitCached startVersion oldest newest cache
      if is.version < startVersion then (head, tail)
      else if is.version < oldest then (head ++ [is], tail)
      else if newest < is.version then (head, is :: tail)
      else (head, tail)

def pushFront (is : VersionData) : Slave S :=
  { s with
    queue := is :: s.queue
    failed := s.failed ++
      check (∀ front ∈ s.queue.head?, front.version = is.version + 1) .addedFront }

def pushBack (is : VersionData) : Slave S :=
  { s with
    queue := s.queue ++ [is]
    failed := s.failed ++
      check (∀ back ∈ s.queue.getLast?, back.version + 1 = is.version) .addedBack }

/-- `addInstanceDatas`, for a cache whose streams are ready. -/
def addInstanceDatas (cache : List VersionData) (startVersion : ℕ) : Slave S :=
  let oldest := (s.queue.head?.map VersionData.version).getD versionNone
  let newest := (s.queue.getLast?.map VersionData.version).getD versionNone
  let (head, tail) := splitCached startVersion oldest newest cache
  tail.foldl pushBack (head.foldl pushFront s)

/-- What the receiver thread does with a message for the slave. The versions of the object in the
instance cache are taken with the map reply. -/
def handle (cache : List VersionData) (s : Slave S) : Message → Slave S
  | .mapSuccess _ _ _ => s
  | .mapData _ _ is => s.cmdData is
  | .mapReply reply =>
      (if reply.useCache then s.addInstanceDatas cache reply.version else s).cmdMapReply
        reply.version
  | .commit is => s.cmdData is
  | .detach _ => s

end Slave

end Collage.Object
