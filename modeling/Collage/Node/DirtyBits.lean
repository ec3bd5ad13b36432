import Collage.Node.Replication
import Mathlib.Data.List.Chain

/-!
# Dirty bits across nodes

Objects of a class that derives from `Serializable` (`serializable.cpp`). The master writes the
parts of its content that are marked by dirty bits, with the bits in front; the slave reads the bits
and these parts. If the application marks what it changes, a slave has the content of a commit as
a whole, and after the newest version it differs from the master in marked parts only.
-/

namespace Collage.Replication

open Collage.Stream (Bytes Config CompressorNames DataChunk DataIStream Entry Follows Keys OCommand
  ObjectDataOCommand ObjectDataOStream Read Senders ofBytes writeAll)
open Collage.Transfer (Allocator Fitting Reader)
open Collage.Versions

def dirtyAll : BitVec 64 := BitVec.allOnes 64

/-- A class that derives from `Serializable`. -/
structure SerializableClass (keys : Keys) (S : Type) where
  serialize : S → BitVec 64 → List (Entry keys)
  deserialize : S → BitVec 64 → Read S

/-- A read that is skipped if the stream has no data. -/
def ifData {S : Type} (cfg : Config) (object : S) (x : Read S) : Read S := fun s =>
  let (hasData, s') := s.checkBuffer cfg
  if hasData then x s' else .ok (object, s')

def dirtyEntry (keys : Keys) (dirty : BitVec 64) : Entry keys :=
  ⟨.one (.plain 8 true), ofBytes 8 (toLE 8 dirty.toNat), trivial⟩

namespace SerializableClass

variable {keys : Keys} {S : Type} (cls : SerializableClass keys S)

/-- `applyInstanceData` and `unpack`. -/
def object (cfg : Config) : ObjectClass S where
  applyInstanceData := fun s => ifData cfg s (cls.deserialize s dirtyAll)
  unpack := fun s => ifData cfg s (do
    let dirty ← DataIStream.read cfg 8
    cls.deserialize s (BitVec.ofNat 64 (ofLE dirty)))

def getInstanceData (content : S) : List (Entry keys) := cls.serialize content dirtyAll

def pack (content : S) (dirty : BitVec 64) : List (Entry keys) :=
  if dirty = 0 then [] else dirtyEntry keys dirty :: cls.serialize content dirty

end SerializableClass

/-- The parts of a content that are not marked are the same. -/
def Within {S α : Type} (part : ℕ → S → α) (bits : BitVec 64) (s s' : S) : Prop :=
  ∀ i < 64, bits.getLsbD i = false → part i s = part i s'

/-- A version of the master: whether instance data is sent, the content and the dirty bits. -/
structure Commit (S : Type) where
  isInstance : Bool
  content : S
  dirty : BitVec 64

def Commit.entries {keys : Keys} {S : Type} (cls : SerializableClass keys S) (c : Commit S) :
    List (Entry keys) :=
  if c.isInstance then cls.getInstanceData c.content else cls.pack c.content c.dirty

/-- A master instance. The versions are kept for the specification. -/
structure Master (S : Type) where
  content : S
  dirty : BitVec 64
  mapped : Commit S
  commits : List (Commit S)

inductive Change (S : Type)
  /-- The derived class changes its data and calls `setDirty`. -/
  | modify (content : S) (bits : BitVec 64)
  | unsetDirty (bits : BitVec 64)
  /-- `commit`, with a change manager that sends instance data or changes. -/
  | commit (isInstance : Bool)

namespace Master

variable {S α : Type} (part : ℕ → S → α) (m : Master S)

def start (content : S) : Master S := ⟨content, 0, ⟨true, content, dirtyAll⟩, []⟩

def last : Commit S := (m.mapped :: m.commits).getLast (List.cons_ne_nil _ _)

def step : Change S → Master S
  | .modify content bits => { m with content := content, dirty := m.dirty ||| bits }
  | .unsetDirty bits => { m with dirty := m.dirty &&& ~~~bits }
  | .commit isInstance =>
      if m.dirty = 0 then m
      else { m with dirty := 0, commits := m.commits ++ [⟨isInstance, m.content, m.dirty⟩] }

/-- The application marks what it changes, and takes a mark back only from what is as committed. -/
def Marked : Change S → Prop
  | .modify content bits => Within part bits m.content content
  | .unsetDirty bits => Within part (m.dirty &&& ~~~bits) m.last.content m.content
  | .commit _ => True

/-- Each version differs from the one before in its marked parts only, and the content from the
newest version. -/
structure Tracked (m : Master S) : Prop where
  content : Within part m.dirty m.last.content m.content
  commits : (m.mapped :: m.commits).IsChain (fun a b =>
    b.dirty ≠ 0 ∧ Within part b.dirty a.content b.content)

end Master

/-- The versions carry the commits, with consecutive numbers. -/
structure Published {cfg : Config} {keys : Keys} {S : Type} (cls : SerializableClass keys S)
    (mapped : BitVec 128) (commits : List (Commit S)) (versions : List (Version cfg keys)) :
    Prop where
  entries : List.Forall₂ (fun c v => v.isInstance = c.isInstance ∧ v.entries = c.entries cls)
    commits versions
  version : ∀ k v, versions[k]? = some v → v.version = mapped + BitVec.ofNat 128 (k + 1)
  bound : mapped.toNat + versions.length < versionNewest.toNat

section Within

variable {S α : Type} {part : ℕ → S → α} {bits bits' : BitVec 64} {s s' s'' : S}

theorem Within.or (h : Within part bits s s') (h' : Within part bits' s' s'') :
    Within part (bits ||| bits') s s'' := by
  intro i hi hbit
  rw [BitVec.getLsbD_or, Bool.or_eq_false_iff] at hbit
  exact (h i hi hbit.1).trans (h' i hi hbit.2)

theorem Master.Tracked.step {m : Master S} (h : m.Tracked part) {c : Change S}
    (hc : m.Marked part c) : (m.step c).Tracked part := by
  cases c with
  | modify content bits => exact ⟨h.content.or hc, h.commits⟩
  | unsetDirty bits => exact ⟨hc, h.commits⟩
  | commit isInstance =>
      unfold Master.step
      split_ifs with hdirty
      · exact h
      · refine ⟨?_, ?_⟩
        · intro i _ _
          simp [Master.last]
        · simp only
          rw [← List.cons_append, List.isChain_append]
          refine ⟨h.commits, List.isChain_singleton _, ?_⟩
          intro a ha b hb
          obtain rfl : _ = b := by simpa using hb
          rw [List.getLast?_eq_some_getLast (List.cons_ne_nil _ _), Option.mem_some_iff] at ha
          exact ⟨hdirty, ha ▸ h.content⟩

end Within

section Reads

variable {S α : Type} {cfg : Config} {keys : Keys} {part : ℕ → S → α}
  {cls : SerializableClass keys S}

theorem Follows.ifData {object v : S} {x : Read S} {ws : List Bytes} (h : Follows cfg x v ws)
    (hne : ws.flatten ≠ []) : Follows cfg (ifData cfg object x) v ws := by
  intro s more hs
  obtain ⟨hcheck, hbefore, -⟩ := hs.checkBuffer
  have hdata : (ws ++ more).flatten ≠ [] := by
    rw [List.flatten_append]
    exact List.append_ne_nil_of_left_ne_nil hne _
  have hread : Replication.ifData cfg object x s = x (s.checkBuffer cfg).2 := by
    unfold Replication.ifData
    simp only [hcheck, decide_eq_true hdata, if_true]
  rw [hread]
  exact h _ more hbefore

end Reads

/-- The content of the version with a number from the mapped one on. -/
def Master.contents {S : Type} (m : Master S) (k : ℕ) : S :=
  ((m.mapped :: m.commits)[k]?.getD m.mapped).content

section History

variable {S α : Type} {cfg : Config} {keys : Keys} {part : ℕ → S → α}
  {cls : SerializableClass keys S} {m : Master S} {mapped : BitVec 128}
  {versions : List (Version cfg keys)}

theorem Published.length_eq (h : Published cls mapped m.commits versions) :
    versions.length = m.commits.length :=
  h.entries.length_eq.symm

end History

section Serializable

variable {S α : Type} {cfg : Config} {keys : Keys} {names : CompressorNames} {part : ℕ → S → α}
  {cls : SerializableClass keys S} {slave : SlaveID} {allocator : Allocator} {mapped : BitVec 128}
  {versions : List (Version cfg keys)} {w : World S} {threads : ℕ → List OCommand} {main : ℕ}
  {memory : ℕ → UInt8} {t : Stream.Senders} {incoming : Stream' UInt8} {es : List Event}

end Serializable

end Collage.Replication
