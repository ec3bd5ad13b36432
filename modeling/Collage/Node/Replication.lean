import Collage.Node.Versions

/-!
# Replicas of a master

A slave instance on another node, from the bytes of the connection to its object. The receiver
thread queues the versions as streams. The application thread applies them in calls of `sync`, each
through the reads of the object; such a call waits while the queue is empty. However the two threads
take turns, the object is always in a state of its master, the one its version number names.
-/

namespace Collage.Replication

open Collage.Stream (Bytes Config CompressorNames DataIStream Entry Follows Keys OCommand Read
  ReadError Senders writeAll)
open Collage.Transfer (Allocator Fitting OnWire Reader)
open Collage.Versions

/-- A class of objects, by what its instances read from the data of a version. -/
structure ObjectClass (S : Type) where
  applyInstanceData : S → Read S
  unpack : S → Read S

def ObjectClass.apply {S : Type} (cls : ObjectClass S) (isInstance : Bool) (object : S) : Read S :=
  if isInstance then cls.applyInstanceData object else cls.unpack object

/-- `VERSION_NEWEST`, the first of the special version numbers. -/
def versionNewest : BitVec 128 := 0xfffffffffffffffb

def versionNext : BitVec 128 := 0xfffffffffffffffd

def versionInvalid : BitVec 128 := 0xfffffffffffffffe

def versionHead : BitVec 128 := 0xffffffffffffffff

/-- What the application thread does with the slave. -/
inductive Task
  | idle
  /-- In the loop of `sync` to a version. -/
  | syncing (version : BitVec 128)
  /-- In `_syncToHead`. -/
  | heading
  deriving DecidableEq, Repr

inductive Failure
  /-- The assertion about the order of versions in `_unpackOneVersion`. -/
  | order
  /-- A read that logs an error. -/
  | read (e : ReadError)
  /-- "did not unpack all data". -/
  | remaining
  deriving DecidableEq, Repr

structure Replica (S : Type) where
  object : S
  version : BitVec 128
  streams : Streams
  task : Task
  failed : List Failure

namespace Replica

variable {S : Type} (cfg : Config) (cls : ObjectClass S) (r : Replica S)

/-- `_cmdData` for some data commands. -/
def receive (commands : List Received) : Replica S :=
  { r with streams := commands.foldl Streams.cmdData r.streams }

/-- `_unpackOneVersion` with the front of the queue. -/
def unpackOneVersion (is : List Received) (queue : List (List Received)) : Replica S :=
  let version := (getVersion is).getD versionInvalid
  let streams := { r.streams with queuedVersions := queue }
  let failed := r.failed ++ if r.version = version - 1 ∨ r.version = 0 then [] else [.order]
  match cls.apply (hasInstanceData is = some true) r.object
    (DataIStream.start (is.map Received.command)) with
  | .ok (object, s) =>
      { r with
        object := object
        version := version
        streams := streams
        failed := failed ++ if s.hasData cfg then [.remaining] else [] }
  | .error e => { r with version := version, streams := streams, failed := failed ++ [.read e] }

/-- `sync` up to its loop. -/
def sync (v : BitVec 128) : Replica S :=
  if r.version = v then r
  else if v = versionHead then { r with task := .heading }
  else { r with task := .syncing (if v = versionNext then r.version + 1 else v) }

def advance : Option (Replica S) :=
  match r.task with
  | .idle => none
  | .syncing version =>
      if r.version < version then
        match r.streams.queuedVersions with
        | [] => none
        | is :: queue => some (r.unpackOneVersion cfg cls is queue)
      else some { r with task := .idle }
  | .heading =>
      match r.streams.queuedVersions with
      | [] => some { r with task := .idle }
      | is :: queue => some (r.unpackOneVersion cfg cls is queue)

end Replica

/-- The receiver thread of a node, and a slave on it. -/
structure World (S : Type) where
  reader : Reader
  replica : Replica S

inductive Event
  | handleData (call : Reader.Call)
  /-- The application calls `sync`. -/
  | sync (version : BitVec 128)
  | advance

namespace World

variable {S : Type} (cfg : Config) (names : CompressorNames) (cls : ObjectClass S)
  (slave : SlaveID) (allocator : Allocator)

/-- The slave has been mapped, and no data of a further version has arrived. -/
def start (incoming : Stream' UInt8) (object : S) (mapped : BitVec 128) : World S where
  reader := Reader.start allocator incoming
  replica := ⟨object, mapped, .start, .idle, []⟩

/-- The receiver thread has made a call, and the slave gets what it has dispatched. -/
def receive (w : World S) (reader : Reader) : World S where
  reader := reader
  replica := w.replica.receive
    ((reader.dispatched.drop w.reader.dispatched.length).filterMap (forSlave names slave))

def step (w : World S) : Event → Option (World S)
  | .handleData call => (w.reader.step allocator call).map (fun reader =>
      w.receive names slave reader)
  | .sync version =>
      if w.replica.task = .idle then some { w with replica := w.replica.sync version } else none
  | .advance => (w.replica.advance cfg cls).map (fun replica => { w with replica := replica })

/-- No call of `sync` asks for an older version, as it asserts. -/
def Allowed (w : World S) : Event → Prop
  | .handleData call => w.reader.Regular allocator call
  | .sync version => version = versionHead ∨ version = versionNext ∨ w.replica.version ≤ version
  | .advance => True

end World

/-- The versions of a master that goes through the given states: they have consecutive numbers, and
the reads of a version lead from one state to the next. -/
structure History {cfg : Config} {keys : Keys} {S : Type} (cls : ObjectClass S) (states : ℕ → S)
    (mapped : BitVec 128) (versions : List (Version cfg keys)) : Prop where
  version : ∀ k v, versions[k]? = some v → v.version = mapped + BitVec.ofNat 128 (k + 1)
  applies : ∀ k v, versions[k]? = some v →
    Follows cfg (cls.apply v.isInstance (states k)) (states (k + 1)) (writeAll v.entries)
  bound : mapped.toNat + versions.length < versionNewest.toNat

section Queue

theorem foldl_cmdData_append (popped : List (List Received)) (rs : List Received) (s : Streams) :
    rs.foldl Streams.cmdData ⟨s.currentIStream, popped ++ s.queuedVersions⟩ =
      ⟨(rs.foldl Streams.cmdData s).currentIStream,
        popped ++ (rs.foldl Streams.cmdData s).queuedVersions⟩ := by
  induction rs generalizing s with
  | nil => rfl
  | cons r rs ih =>
      rw [List.foldl_cons, List.foldl_cons, ← ih]
      congr 1
      unfold Streams.cmdData
      split_ifs
      · exact congrArg (Streams.mk none) (List.append_assoc _ _ _)
      · rfl

theorem streamsOf_append (names : CompressorNames) (slave : SlaveID)
    (dispatched more : List Stream.ICommand) :
    streamsOf names slave (dispatched ++ more) =
      (more.filterMap (forSlave names slave)).foldl Streams.cmdData
        (streamsOf names slave dispatched) := by
  rw [streamsOf, List.filterMap_append, List.foldl_append]
  rfl

end Queue

section Replay

variable {S : Type} {cfg : Config} {keys : Keys} {names : CompressorNames} {cls : ObjectClass S}
  {states : ℕ → S} {mapped : BitVec 128} {versions : List (Version cfg keys)} {r : Replica S}
  {is : List Received} {queue : List (List Received)} {k : ℕ} {v : Version cfg keys}

/-- The slave is in the state of the master after `k` versions. -/
structure Replica.Shows (r : Replica S) (states : ℕ → S) (mapped : BitVec 128) (k : ℕ) : Prop where
  object : r.object = states k
  version : r.version = mapped + BitVec.ofNat 128 k
  failed : r.failed = []

theorem History.toNat_add (h : History cls states mapped versions) (hk : k ≤ versions.length) :
    (mapped + BitVec.ofNat 128 k).toNat = mapped.toNat + k := by
  have hbound := h.bound
  have hnewest : versionNewest.toNat < 2 ^ 128 := versionNewest.isLt
  rw [BitVec.toNat_add, BitVec.toNat_ofNat, Nat.mod_eq_of_lt (a := k) (by omega),
    Nat.mod_eq_of_lt (by omega)]

theorem Replica.Shows.unpack_version (h : r.Shows states mapped k)
    (hhistory : History cls states mapped versions) (hv : versions[k]? = some v)
    (his : Delivered v is) :
    (r.unpackOneVersion cfg cls is queue).Shows states mapped (k + 1) := by
  obtain ⟨s, hread, hs⟩ := v.read_all (hhistory.applies k v hv)
  have hversion := hhistory.version k v hv
  have horder : r.version = v.version - 1 := by
    rw [h.version, hversion, BitVec.ofNat_add, ← BitVec.add_assoc]
    exact (BitVec.add_sub_cancel _ _).symm
  rw [← h.object, ← his.commands] at hread
  have hinstance : decide (hasInstanceData is = some true) = v.isInstance := by
    rw [his.isInstance]
    cases v.isInstance <;> rfl
  have hunpack : r.unpackOneVersion cfg cls is queue =
      { r with
        object := states (k + 1)
        version := v.version
        streams := { r.streams with queuedVersions := queue } } := by
    simp only [unpackOneVersion, his.version, Option.getD_some, hinstance, hread, hs,
      if_pos (Or.inl horder), h.failed]
    rfl
  rw [hunpack]
  exact ⟨rfl, hversion, h.failed⟩

end Replay

section World

variable {S : Type} {cfg : Config} {keys : Keys} {names : CompressorNames} {cls : ObjectClass S}
  {slave : SlaveID} {allocator : Allocator} {states : ℕ → S} {mapped : BitVec 128}
  {versions : List (Version cfg keys)} {w w' : World S} {k : ℕ}

theorem Replica.unpackOneVersion_frame (cfg : Config) (cls : ObjectClass S) (r : Replica S)
    (is : List Received) (queue : List (List Received)) :
    (r.unpackOneVersion cfg cls is queue).task = r.task ∧
      (r.unpackOneVersion cfg cls is queue).streams =
        ⟨r.streams.currentIStream, queue⟩ := by
  unfold Replica.unpackOneVersion
  split <;> exact ⟨rfl, rfl⟩

theorem Replica.advance_cases {r r' : Replica S} (h : r.advance cfg cls = some r') :
    (r' = { r with task := .idle } ∧ (r.task = .heading ∧ r.streams.queuedVersions = [] ∨
      ∃ target, r.task = .syncing target ∧ ¬ r.version < target)) ∨
    ∃ is queue, r.streams.queuedVersions = is :: queue ∧
      r' = r.unpackOneVersion cfg cls is queue ∧
      (r.task = .heading ∨ ∃ target, r.task = .syncing target ∧ r.version < target) := by
  unfold Replica.advance at h
  cases htask : r.task with
  | idle =>
      rw [htask] at h
      cases h
  | syncing target =>
      rw [htask] at h
      simp only at h
      split_ifs at h with hless
      · cases hqueue : r.streams.queuedVersions with
        | nil =>
            rw [hqueue] at h
            cases h
        | cons is queue =>
            rw [hqueue] at h
            exact Or.inr ⟨is, queue, rfl, (Option.some.inj h).symm, Or.inr ⟨target, rfl, hless⟩⟩
      · exact Or.inl ⟨(Option.some.inj h).symm, Or.inr ⟨target, rfl, hless⟩⟩
  | heading =>
      rw [htask] at h
      simp only at h
      cases hqueue : r.streams.queuedVersions with
      | nil =>
          rw [hqueue] at h
          exact Or.inl ⟨(Option.some.inj h).symm, Or.inl ⟨rfl, rfl⟩⟩
      | cons is queue =>
          rw [hqueue] at h
          exact Or.inr ⟨is, queue, rfl, (Option.some.inj h).symm, Or.inl rfl⟩

namespace World

/-- The slave has applied the first `k` versions that arrived and queued the others, and does not
wait for an older version than it has. -/
structure Kept (names : CompressorNames) (slave : SlaveID) (states : ℕ → S) (mapped : BitVec 128)
    (w : World S) (k : ℕ) : Prop where
  shows : w.replica.Shows states mapped k
  streams : ∃ popped, popped.length = k ∧ streamsOf names slave w.reader.dispatched =
    ⟨w.replica.streams.currentIStream, popped ++ w.replica.streams.queuedVersions⟩
  task : ∀ target, w.replica.task = .syncing target → w.replica.version ≤ target

theorem exists_version {popped queue : List (List Received)} {is : List Received}
    (hsize : ∀ v ∈ versions, ∀ o ∈ v.commands, (o.oCommand names).size < 2 ^ 64)
    (hcfg : cfg.compressor.Proper)
    (h : popped ++ is :: queue <+: versions.map (fun v => v.commands.map (receivedOf names))) :
    ∃ v, versions[popped.length]? = some v ∧ Delivered v is := by
  obtain ⟨rest, heq⟩ := h
  have hfront := congrArg (fun l => l[popped.length]?) heq
  simp only [List.append_assoc, List.cons_append, List.getElem?_append_right le_rfl,
    Nat.sub_self, List.getElem?_cons_zero, List.getElem?_map] at hfront
  obtain ⟨v, hv, rfl⟩ := Option.map_eq_some_iff.1 hfront.symm
  exact ⟨v, hv, v.delivered hcfg (hsize v (List.mem_of_getElem? hv))⟩

theorem Kept.receive (h : w.Kept names slave states mapped k) {reader : Reader}
    (hgrows : w.reader.dispatched <+: reader.dispatched) :
    (w.receive names slave reader).Kept names slave states mapped k := by
  obtain ⟨more, hmore⟩ := hgrows
  obtain ⟨popped, hpopped, hstreams⟩ := h.streams
  refine ⟨⟨h.shows.object, h.shows.version, h.shows.failed⟩, ⟨popped, hpopped, ?_⟩, h.task⟩
  have hdrop : reader.dispatched.drop w.reader.dispatched.length = more := by
    rw [← hmore, List.drop_left]
  simp only [World.receive, Replica.receive, hdrop, ← foldl_cmdData_append, ← hstreams]
  rw [← hmore, streamsOf_append]

theorem Kept.le_length (h : w.Kept names slave states mapped k)
    (hqueued : (streamsOf names slave w.reader.dispatched).queuedVersions <+:
      versions.map (fun v => v.commands.map (receivedOf names))) :
    k + w.replica.streams.queuedVersions.length ≤ versions.length := by
  obtain ⟨popped, rfl, hstreams⟩ := h.streams
  rw [hstreams] at hqueued
  have hlen := hqueued.length_le
  rwa [List.length_append, List.length_map] at hlen

theorem Kept.sync (h : w.Kept names slave states mapped k)
    (hhistory : History cls states mapped versions) (hk : k ≤ versions.length)
    {v : BitVec 128} (hallowed : v = versionHead ∨ v = versionNext ∨ w.replica.version ≤ v) :
    ({ w with replica := w.replica.sync v } : World S).Kept names slave states mapped k := by
  unfold Replica.sync
  split_ifs with hsame hhead hnext
  · exact h
  · exact ⟨⟨h.shows.object, h.shows.version, h.shows.failed⟩, h.streams, by simp⟩
  · refine ⟨⟨h.shows.object, h.shows.version, h.shows.failed⟩, h.streams, ?_⟩
    rintro target ⟨⟩
    have hbound := hhistory.bound
    have hnewest : versionNewest.toNat + 1 < 2 ^ 128 := by decide
    have hversion := hhistory.toNat_add hk
    have hone : (w.replica.version + 1).toNat = w.replica.version.toNat + 1 := by
      rw [h.shows.version, BitVec.toNat_add, hversion]
      refine Nat.mod_eq_of_lt ?_
      change mapped.toNat + k + 1 < 2 ^ 128
      omega
    change w.replica.version ≤ w.replica.version + 1
    rw [BitVec.le_def, hone]
    omega
  · refine ⟨⟨h.shows.object, h.shows.version, h.shows.failed⟩, h.streams, ?_⟩
    rintro target ⟨⟩
    exact (hallowed.resolve_left hhead).resolve_left hnext

theorem Kept.unpack_version (h : w.Kept names slave states mapped k)
    (hhistory : History cls states mapped versions)
    (hsize : ∀ v ∈ versions, ∀ o ∈ v.commands, (o.oCommand names).size < 2 ^ 64)
    (hcfg : cfg.compressor.Proper)
    (hqueued : (streamsOf names slave w.reader.dispatched).queuedVersions <+:
      versions.map (fun v => v.commands.map (receivedOf names)))
    {is : List Received} {queue : List (List Received)}
    (hqueue : w.replica.streams.queuedVersions = is :: queue)
    (hless : ∀ target, w.replica.task = .syncing target → w.replica.version < target) :
    ({ w with replica := w.replica.unpackOneVersion cfg cls is queue } : World S).Kept
      names slave states mapped (k + 1) := by
  obtain ⟨popped, rfl, hstreams⟩ := h.streams
  have hlen := h.le_length hqueued
  rw [hqueue, List.length_cons] at hlen
  rw [hstreams, hqueue] at hqueued
  obtain ⟨v, hv, hdelivered⟩ := exists_version hsize hcfg hqueued
  have hshows : (w.replica.unpackOneVersion cfg cls is queue).Shows states mapped
      (popped.length + 1) := h.shows.unpack_version hhistory hv hdelivered
  obtain ⟨htask, hframe⟩ := Replica.unpackOneVersion_frame cfg cls w.replica is queue
  refine ⟨hshows, ⟨popped ++ [is], by simp, ?_⟩, fun target ht => ?_⟩
  · rw [hstreams, hframe, hqueue, List.append_assoc]
    rfl
  · have hbefore := BitVec.lt_def.1 (hless target (htask ▸ ht))
    rw [h.shows.version, hhistory.toNat_add (by omega)] at hbefore
    rw [hshows.version, BitVec.le_def, hhistory.toNat_add (by omega)]
    omega

/-- A step of the application thread applies the next version, or ends a call, when the version is
the one that it was asked for or nothing is queued. -/
theorem Kept.advance (h : w.Kept names slave states mapped k)
    (hhistory : History cls states mapped versions)
    (hsize : ∀ v ∈ versions, ∀ o ∈ v.commands, (o.oCommand names).size < 2 ^ 64)
    (hcfg : cfg.compressor.Proper)
    (hqueued : (streamsOf names slave w.reader.dispatched).queuedVersions <+:
      versions.map (fun v => v.commands.map (receivedOf names)))
    {r : Replica S} (hadvance : w.replica.advance cfg cls = some r) :
    (({ w with replica := r } : World S).Kept names slave states mapped k ∧ r.task = .idle ∧
        r.streams = w.replica.streams ∧
        (w.replica.task = .heading → w.replica.streams.queuedVersions = []) ∧
        ∀ target, w.replica.task = .syncing target → r.version = target) ∨
      ({ w with replica := r } : World S).Kept names slave states mapped (k + 1) ∧
        r.task = w.replica.task ∧
        w.replica.streams.queuedVersions.length = r.streams.queuedVersions.length + 1 := by
  rcases Replica.advance_cases hadvance with ⟨rfl, hends⟩ | ⟨is, queue, hqueue, rfl, htask⟩
  · refine Or.inl ⟨⟨⟨h.shows.object, h.shows.version, h.shows.failed⟩, h.streams, by simp⟩,
      rfl, rfl, fun hheading => ?_, fun target htarget => ?_⟩
    · rcases hends with ⟨-, hnil⟩ | ⟨target, htask, -⟩
      · exact hnil
      · rw [htask] at hheading
        cases hheading
    · rcases hends with ⟨htask, -⟩ | ⟨target', htask, hless⟩
      · rw [htask] at htarget
        cases htarget
      · rw [htask] at htarget
        cases htarget
        have hle := h.task target htask
        rw [BitVec.le_def] at hle
        rw [BitVec.lt_def] at hless
        change w.replica.version = target
        exact BitVec.eq_of_toNat_eq (by omega)
  · obtain ⟨hsame, hframe⟩ := Replica.unpackOneVersion_frame cfg cls w.replica is queue
    refine Or.inr ⟨h.unpack_version hhistory hsize hcfg hqueued hqueue (fun target htarget => ?_),
      hsame, ?_⟩
    · rcases htask with htask | ⟨target', htask, hless⟩
      · rw [htask] at htarget
        cases htarget
      · rw [htask] at htarget
        cases htarget
        exact hless
    · rw [hqueue, hframe, List.length_cons]

section Runs

variable {threads : ℕ → List OCommand} {main : ℕ} {memory : ℕ → UInt8} {t : Senders}
  {incoming : Stream' UInt8} {es : List Event}

/-- Everything was sent, and taken off an open connection. -/
structure Complete (main : ℕ) (t : Senders) (w : World S) : Prop where
  obtained : w.reader.obtained = t.wire
  free : t.holder = none
  todo : t.todo main = []
  connected : w.reader.connection.state = .connected

end Runs

end World

end World

section Replication

variable {S : Type} {cfg : Config} {keys : Keys} {names : CompressorNames} {cls : ObjectClass S}
  {slave : SlaveID} {allocator : Allocator} {states : ℕ → S} {mapped : BitVec 128}
  {versions : List (Version cfg keys)} {w : World S} {threads : ℕ → List OCommand} {main : ℕ}
  {memory : ℕ → UInt8} {t : Senders} {incoming : Stream' UInt8} {es : List Event}

end Replication

end Collage.Replication
