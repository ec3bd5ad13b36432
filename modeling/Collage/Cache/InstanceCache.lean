import Mathlib.Algebra.Ring.Nat
import Mathlib.Data.Int.Notation
import Collage.Lib.Keyed
import Collage.Lib.Run

/-!
# The instance cache

The cache of received object versions of `instanceCache.cpp`. A version may come in several data
commands; its stream is ready, and counted in the size of the cache, with the last of them. The
items are kept in a hash map, so an eviction takes the order in which it visits them as a parameter.
The two debug assertions of `_deleteStream` and the one of `release` are recorded when they fail.
-/

namespace Collage.Cache

structure Chunk where
  id : ℕ
  version : ℕ
  /-- The instance identifier of the master. -/
  instanceID : ℕ
  /-- The node that sent it. -/
  node : ℕ
  sequence : ℕ
  isLast : Bool
  /-- The size of the whole command. -/
  size : ℕ
  payload : List UInt8
  deriving DecidableEq, Repr

/-- `ObjectDataIStream`. -/
structure DataStream where
  commands : List Chunk
  isReady : Bool
  deriving DecidableEq, Repr

namespace DataStream

def empty : DataStream := ⟨[], false⟩

def addDataCommand (s : DataStream) (c : Chunk) : DataStream where
  commands := s.commands ++ [c]
  isReady := s.isReady || c.isLast

theorem empty_addDataCommand (c : Chunk) : empty.addDataCommand c = ⟨[c], c.isLast⟩ := rfl

def getDataSize (s : DataStream) : ℕ := (s.commands.map Chunk.size).sum

/-- `VERSION_INVALID` without commands. -/
def getPendingVersion (s : DataStream) : ℕ :=
  (s.commands.getLast?.map Chunk.version).getD 0xfffffffffffffffe

end DataStream

structure Item where
  id : ℕ
  masterInstanceID : ℕ
  versions : List DataStream
  times : List ℤ
  /-- Unsigned 32-bit in the source, like `access`; here neither wraps. -/
  used : ℕ
  access : ℕ
  /-- `from`. -/
  sender : ℕ
  deriving DecidableEq, Repr

inductive Assertion
  /-- `isReady()` in `_deleteStream`. -/
  | deletedReady
  /-- `_size >= getDataSize()` in `_deleteStream`. -/
  | deletedCounted
  /-- `access >= count` in `release`. -/
  | releasedPinned
  deriving DecidableEq, Repr

structure InstanceCache where
  items : List Item
  size : ℕ
  maxSize : ℕ
  /-- `uint64_t( float( _maxSize ) * 0.8f )`. -/
  target : ℕ
  /-- The assertions that have failed. -/
  failed : List Assertion
  deriving DecidableEq, Repr

/-- Unsigned subtraction of `w` bits. -/
def wrapSub (w a b : ℕ) : ℕ := if b ≤ a then a - b else a + 2 ^ w - b

namespace Item

def create (c : Chunk) : Item where
  id := c.id
  masterInstanceID := c.instanceID
  versions := []
  times := []
  used := 0
  access := 0
  sender := c.node

def clear (i : Item) : Item := { i with versions := [], times := [] }

def push (i : Item) (c : Chunk) (now : ℤ) : Item :=
  { i with
    versions := i.versions ++ [DataStream.empty.addDataCommand c]
    times := i.times ++ [now] }

def append (i : Item) (c : Chunk) : Item :=
  match i.versions.getLast? with
  | none => i
  | some back => { i with versions := i.versions.dropLast ++ [back.addDataCommand c] }

/-- The first part of `add`, about the master: the streams it deletes and the item. -/
def take (i : Item) (c : Chunk) (usage : ℕ) : Option (List DataStream × Item) :=
  if i.masterInstanceID ≠ c.instanceID ∨ i.sender ≠ c.node then
    if i.access ≠ 0 then none
    else some (i.versions.reverse,
      { i.clear with masterInstanceID := c.instanceID, sender := c.node, used := usage })
  else some ([], { i with used := max i.used usage })

/-- The second part of `add`, about the version. -/
def enter (i : Item) (c : Chunk) (now : ℤ) : Option (List DataStream × Item) :=
  match i.versions.getLast? with
  | none => some ([], i.push c now)
  | some back =>
      if back.getPendingVersion = c.version then
        if back.isReady then none else some ([], i.append c)
      else if c.version < back.getPendingVersion then none
      else if back.getPendingVersion + 1 ≠ c.version then
        if i.access ≠ 0 then none else some (i.versions.reverse, i.clear.push c now)
      else some ([], i.push c now)

def completed (i : Item) : ℕ :=
  match i.versions.getLast? with
  | none => 0
  | some back => if back.isReady then back.getDataSize else 0

/-- The number of streams, from the first one on, that are ready and old enough. -/
def expired (minTime : ℤ) : List DataStream → List ℤ → ℕ
  | s :: versions, time :: times =>
      if time ≤ minTime ∧ s.isReady then expired minTime versions times + 1 else 0
  | _, _ => 0

/-- `_releaseStreams` with a time, for an item that is not pinned. -/
def expire (minTime : ℤ) (i : Item) : List DataStream × Item :=
  if i.access ≠ 0 then ([], i)
  else
    let n := expired minTime i.versions i.times
    (i.versions.take n, { i with versions := i.versions.drop n, times := i.times.drop n })

end Item

namespace InstanceCache

variable (c : InstanceCache)

def find (id : ℕ) : Option Item := Keyed.lookup Item.id id c.items

def set (i : Item) : InstanceCache :=
  { c with items := Keyed.update Item.id i.id (fun _ => i) c.items }

def drop (id : ℕ) : InstanceCache :=
  { c with items := c.items.filter (fun i => i.id ≠ id) }

def deleteStream (s : DataStream) : InstanceCache :=
  { c with
    size := wrapSub 64 c.size s.getDataSize
    failed := c.failed ++ (if s.isReady then [] else [.deletedReady]) ++
      (if s.getDataSize ≤ c.size then [] else [.deletedCounted]) }

def deleteStreams (streams : List DataStream) : InstanceCache := streams.foldl deleteStream c

def releaseFirstStream (i : Item) : InstanceCache :=
  match i.versions with
  | [] => c
  | s :: versions => (c.set { i with versions := versions, times := i.times.tail }).deleteStream s

/-- The state of an eviction: the items it visited, and whether one of them has more streams. -/
structure Sweep where
  cache : InstanceCache
  keys : List ℕ
  streamsLeft : Bool

/-- The first loop of `_releaseItems` at an item. -/
def releaseFirst (minUsage : ℕ) (s : Sweep) (id : ℕ) : Sweep :=
  if s.cache.size ≤ s.cache.target then s
  else match s.cache.find id with
    | none => s
    | some i =>
        if i.access = 0 ∧ minUsage ≤ i.used then
          ⟨s.cache.releaseFirstStream i, s.keys ++ [id],
            s.streamsLeft || decide (1 < i.versions.length)⟩
        else s

def releaseNext (minUsage : ℕ) (s : Sweep) (id : ℕ) : Sweep :=
  if s.cache.size ≤ s.cache.target then s
  else match s.cache.find id with
    | none => s
    | some i =>
        if i.versions ≠ [] ∧ i.access = 0 ∧ minUsage ≤ i.used then
          { s with
            cache := s.cache.releaseFirstStream i
            streamsLeft := s.streamsLeft || decide (1 < i.versions.length) }
        else s

/-- The second loop. Each turn but the last deletes a stream, so the number of streams is enough
turns. -/
def releaseMore (minUsage : ℕ) : ℕ → Sweep → Sweep
  | 0, s => s
  | n + 1, s =>
      if s.streamsLeft ∧ s.cache.target < s.cache.size then
        releaseMore minUsage n
          (s.keys.foldl (releaseNext minUsage) { s with streamsLeft := false })
      else s

def eraseEmpty (id : ℕ) : InstanceCache :=
  match c.find id with
  | none => c
  | some i => if i.versions = [] then c.drop id else c

def releaseItems (minUsage : ℕ) (order : List ℕ) : InstanceCache :=
  if c.size ≤ c.maxSize then c
  else
    let first := order.foldl (releaseFirst minUsage) ⟨c, [], false⟩
    let sweep := releaseMore minUsage (c.items.map (fun i => i.versions.length)).sum first
    sweep.keys.foldl eraseEmpty sweep.cache

def withItem (chunk : Chunk) : InstanceCache :=
  if (c.find chunk.id).isSome then c else { c with items := c.items ++ [Item.create chunk] }

/-- `add` up to the evictions; nothing if the command is refused. -/
def enter (chunk : Chunk) (usage : ℕ) (now : ℤ) : Bool × InstanceCache :=
  match (c.withItem chunk).find chunk.id with
  | none => (false, c.withItem chunk)
  | some i =>
      match i.take chunk usage with
      | none => (false, c.withItem chunk)
      | some (deleted, taken) =>
          let c' := ((c.withItem chunk).set taken).deleteStreams deleted
          match taken.enter chunk now with
          | none => (false, c')
          | some (deleted', entered) =>
              let c'' := (c'.set entered).deleteStreams deleted'
              (true, { c'' with size := c''.size + entered.completed })

def add (chunk : Chunk) (usage : ℕ) (now : ℤ) (order : List ℕ) : Bool × InstanceCache :=
  match c.enter chunk usage now with
  | (false, c') => (false, c')
  | (true, c') => (true, (c'.releaseItems 1 order).releaseItems 0 order)

/-- `remove`: all items from a node that are not pinned. -/
def remove (node : ℕ) : InstanceCache :=
  let removed := c.items.filter (fun i => i.sender = node ∧ i.access = 0)
  { c with items := c.items.filter (fun i => ¬ (i.sender = node ∧ i.access = 0)) }.deleteStreams
    (removed.flatMap (fun i : Item => i.versions.reverse))

/-- `operator[]`, which pins the item. -/
def access (id : ℕ) : Option Item × InstanceCache :=
  match c.find id with
  | none => (none, c)
  | some i =>
      let i' := { i with access := i.access + 1, used := i.used + 1 }
      (some i', c.set i')

/-- `release` up to the eviction. -/
def unpin (i : Item) (count : ℕ) : InstanceCache :=
  { c.set { i with access := wrapSub 32 i.access count } with
    failed := c.failed ++ if count ≤ i.access then [] else [.releasedPinned] }

def release (id count : ℕ) (order : List ℕ) : Bool × InstanceCache :=
  match c.find id with
  | none => (false, c)
  | some i => (true, (c.unpin i count).releaseItems 1 order)

def erase (id : ℕ) : Bool × InstanceCache :=
  match c.find id with
  | none => (false, c)
  | some i =>
      if i.access ≠ 0 then (false, c)
      else (true, (c.drop id).deleteStreams i.versions.reverse)

def expire (now timeout : ℤ) : InstanceCache :=
  if now - timeout ≤ 0 then c
  else
    let items := c.items.map (Item.expire (now - timeout))
    { c with items := (items.map Prod.snd).filter (fun i => i.access ≠ 0 ∨ i.versions ≠ []) }
      |>.deleteStreams (items.flatMap Prod.fst)

end InstanceCache

inductive Op
  | add (chunk : Chunk) (usage : ℕ) (now : ℤ) (order : List ℕ)
  | access (id : ℕ)
  | release (id count : ℕ) (order : List ℕ)
  | remove (node : ℕ)
  | erase (id : ℕ)
  | expire (now timeout : ℤ)
  deriving DecidableEq, Repr

def InstanceCache.step (c : InstanceCache) : Op → Option InstanceCache
  | .add chunk usage now order => some (c.add chunk usage now order).2
  | .access id => some (c.access id).2
  | .release id count order => some (c.release id count order).2
  | .remove node => some (c.remove node)
  | .erase id => some (c.erase id).2
  | .expire now timeout => some (c.expire now timeout)

def InstanceCache.start (maxSize target : ℕ) : InstanceCache where
  items := []
  size := 0
  maxSize := maxSize
  target := target
  failed := []

end Collage.Cache
