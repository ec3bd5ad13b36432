import Mathlib.Data.List.AList
import Collage.Lib.Run

/-!
# Object maps

The registry of `objectMap.cpp`. The master instance holds registered objects, commits them with
itself, and sends its slaves what was added, removed and changed since the last commit. Slave
instances map some of the objects. Objects have an identifier; what their own commit returns is up to
them.
-/

namespace Collage.ObjectMap

def objectTypeNone : ℕ := 0

structure Entry (I : Type) where
  version : ℕ
  object : Option I
  type : ℕ
  deriving DecidableEq

def Entry.new {I : Type} : Entry I := ⟨0, none, objectTypeNone⟩

abbrev Map (K I : Type) := AList (fun _ : K => Entry I)

/-- `operator []`, which inserts a new item for an identifier that is not in the map. -/
def Map.touch {K I : Type} [DecidableEq K] (map : Map K I) (k : K) : Map K I :=
  if k ∈ map then map else map.insert k Entry.new

/-- The item that `operator []` returns. -/
def Map.at {K I : Type} [DecidableEq K] (map : Map K I) (k : K) : Entry I :=
  (map.lookup k).getD Entry.new

/-- `DIRTY_ADDED`, `DIRTY_REMOVED` and `DIRTY_CHANGED`. -/
structure Dirty where
  added : Bool
  removed : Bool
  changed : Bool
  deriving DecidableEq

def Dirty.none : Dirty := ⟨false, false, false⟩

abbrev Data (K : Type) := List (K × ℕ × ℕ)

/-- What is serialised since the last commit. The part of a bit that is not set is empty. -/
structure Delta (K : Type) where
  added : Data K
  removed : List K
  changed : List (K × ℕ)

structure Master (K O : Type) where
  map : Map K O
  masters : List O
  added : List K
  removed : List K
  changed : List (K × ℕ)
  dirty : Dirty
  /-- The version of each object. -/
  version : O → ℕ
  /-- The objects with changes. -/
  isDirty : O → Bool
  /-- The type each object was registered with. -/
  type : O → ℕ

section Master

variable {K O : Type} [DecidableEq K] [DecidableEq O] (id : O → K) (static : O → Bool)

namespace Master

variable (m : Master K O)

def init : Master K O where
  map := ∅
  masters := []
  added := []
  removed := []
  changed := []
  dirty := Dirty.none
  version := fun _ => 0
  isDirty := fun _ => false
  type := fun _ => objectTypeNone

/-- `register_`, of an object that is at `version` once it is registered. -/
def register (o : O) (type version : ℕ) : Master K O × Bool :=
  if id o ∈ m.map then (m, false)
  else
    ({ m with
       map := m.map.insert (id o) ⟨version, some o, type⟩
       masters := m.masters ++ [o]
       added := m.added ++ [id o]
       dirty := { m.dirty with added := true }
       version := Function.update m.version o version
       type := Function.update m.type o type }, true)

def deregister (o : O) : Master K O × Bool :=
  if id o ∈ m.map ∧ o ∈ m.masters then
    ({ m with
       map := m.map.erase (id o)
       masters := m.masters.erase o
       removed := m.removed ++ [id o]
       dirty := { m.dirty with removed := true } }, true)
  else (m, false)

/-- A turn of the loop of `_commitMasters`, where the commit of the object returns `version`. -/
def commitMaster (versions : O → ℕ) (m : Master K O) (o : O) : Master K O :=
  if m.isDirty o = false ∨ static o then m
  else
    let map := m.map.touch (id o)
    let entry := map.at (id o)
    let m' := { m with
      map := map
      version := Function.update m.version o (versions o)
      isDirty := Function.update m.isDirty o false }
    if entry.version = versions o then m'
    else
      { m' with
        map := map.insert (id o) { entry with version := versions o }
        changed := m.changed ++ [(id o, versions o)] }

def commitMasters (versions : O → ℕ) : Master K O :=
  let m' := m.masters.foldl (commitMaster id static versions) m
  if m'.changed ≠ [] then { m' with dirty := { m'.dirty with changed := true } } else m'

/-- `serialize` with `DIRTY_ALL`. -/
def serializeAll : Data K := m.map.entries.map (fun e => (e.1, e.2.version, e.2.type))

/-- `serialize` with other dirty bits. -/
def serialize (bits : Dirty) : Master K O × Delta K :=
  let map := if bits.added then m.added.foldl Map.touch m.map else m.map
  ({ m with map := map },
    { added := if bits.added then m.added.map (fun k => (k, (map.at k).version, (map.at k).type))
        else []
      removed := if bits.removed then m.removed else []
      changed := if bits.changed then m.changed else [] })

/-- `commit`: the delta that is sent if there are slaves, and the instance data of the new version. -/
def commit (versions : O → ℕ) (slaves : Bool) : Master K O × Option (Delta K × Data K) :=
  let m₁ := m.commitMasters id static versions
  let (m₂, delta) := if slaves ∧ m₁.dirty ≠ Dirty.none then
      ((m₁.serialize m₁.dirty).1, some (m₁.serialize m₁.dirty).2)
    else (m₁, none)
  ({ m₂ with
     added := []
     removed := []
     changed := []
     dirty := Dirty.none }, delta.map (fun d => (d, m₂.serializeAll)))

end Master

inductive Event (O : Type)
  | register (o : O) (type version : ℕ)
  | deregister (o : O)
  /-- The application changes an object. -/
  | modify (o : O)
  | commit (versions : O → ℕ) (slaves : Bool)
  /-- `serialize`, with `DIRTY_ALL` if no bits are given. -/
  | serialize (bits : Option Dirty)

def Master.step (m : Master K O) : Event O → Option (Master K O)
  | .register o type version => some (m.register id o type version).1
  | .deregister o => some (m.deregister id o).1
  | .modify o => some { m with isDirty := Function.update m.isDirty o true }
  | .commit versions slaves => some (m.commit id static versions slaves).1
  | .serialize bits => some (bits.elim m (fun bits => (m.serialize bits).1))

end Master

end Collage.ObjectMap
