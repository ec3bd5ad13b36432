import Collage.Lib.LittleEndian
import Collage.Stream.IStream

/-!
# Stream operators

The values that `operator <<` and `operator >>` support, with the writes and reads of each kind. A
`Kind` is a C++ type without its name: a plain item is known by its size. Sets and maps list their
elements in the order in which the writer visits them.
-/

namespace Collage.Stream

inductive Kind
  /-- Copied byte by byte; arrays of it are one block if it is a POD for the compiler. -/
  | plain (size : ℕ+) (isPod : Bool)
  | string
  /-- `lunchbox::Buffer`. -/
  | buffer (elem : Kind)
  /-- `std::vector` of one of the number types with its own operator. -/
  | flatVector (size : ℕ+)
  | vector (elem : Kind)
  | map (key value : Kind)
  | set (elem : Kind)
  | hashMap (key value : Kind)
  | hashSet (elem : Kind)
  deriving DecidableEq

namespace Kind

abbrev Value : Kind → Type
  | plain size _ => Fin size → UInt8
  | string => Bytes
  | buffer k => List k.Value
  | flatVector size => List (Fin size → UInt8)
  | vector k => List k.Value
  | map k v => List (k.Value × v.Value)
  | set k => List k.Value
  | hashMap k v => List (k.Value × v.Value)
  | hashSet k => List k.Value

def isPod : Kind → Bool
  | plain _ pod => pod
  | _ => false

end Kind

/-- The comparison of the keys of ordered containers, and of hashed ones. -/
structure Keys where
  less : (k : Kind) → k.Value → k.Value → Bool
  equal : (k : Kind) → k.Value → k.Value → Bool

def flatBytes {size : ℕ} (l : List (Fin size → UInt8)) : Bytes := (l.map List.ofFn).flatten

def ofBytes (size : ℕ) (bytes : Bytes) : Fin size → UInt8 := fun i => bytes.getD i 0

def ofFlatBytes (size : ℕ) : ℕ → Bytes → List (Fin size → UInt8)
  | 0, _ => []
  | n + 1, bytes => ofBytes size (bytes.take size) :: ofFlatBytes size n (bytes.drop size)

def writeArray : (k : Kind) → (k.Value → List Bytes) → List k.Value → List Bytes
  | .plain _ true, _, l => [flatBytes l]
  | _, item, l => (l.map item).flatten

/-- `operator <<`. -/
def Kind.write : (k : Kind) → k.Value → List Bytes
  | plain _ _, v => [List.ofFn v]
  | string, str => toLE 8 str.length :: if 0 < str.length then [str] else []
  | buffer k, l => toLE 8 l.length :: writeArray k (write k) l
  | flatVector _, l => toLE 8 l.length :: if 0 < l.length then [flatBytes l] else []
  | vector k, l => toLE 8 l.length :: (l.map (write k)).flatten
  | map k v, l => toLE 8 l.length :: (l.map (fun p => write k p.1 ++ write v p.2)).flatten
  | set k, l => toLE 8 l.length :: (l.map (write k)).flatten
  | hashMap k v, l => toLE 8 l.length :: (l.map (fun p => write k p.1 ++ write v p.2)).flatten
  | hashSet k, l => toLE 8 l.length :: (l.map (write k)).flatten

/-- `value[i] = a` for the next index. -/
def append {α : Type} (a : α) (l : List α) : List α := l ++ [a]

/-- `insert` of an ordered container. -/
def insertLess {α : Type} (less : α → α → Bool) (a : α) : List α → List α
  | [] => [a]
  | b :: l => if less b a then b :: insertLess less a l else if less a b then a :: b :: l else b :: l

/-- `insert` of a hashed container. -/
def insertNew {α : Type} (equal : α → α → Bool) (a : α) (l : List α) : List α :=
  if l.any (fun b => equal b a) then l else l ++ [a]

/-- Read `n` items into a container. -/
def readInto {α : Type} (insert : α → List α → List α) (item : Read α) :
    ℕ → List α → Read (List α)
  | 0, l => pure l
  | n + 1, l => do
      let a ← item
      readInto insert item n (insert a l)

section

variable (cfg : Config)

/-- A `uint64_t`. -/
def readCount : Read ℕ := ofLE <$> DataIStream.read cfg 8

def readArray : (k : Kind) → Read k.Value → ℕ → Read (List k.Value)
  | .plain size true, _, n => ofFlatBytes size n <$> DataIStream.read cfg (n * size)
  | _, item, n => readInto append item n []

def readString : Read Bytes := do
  let nElems ← readCount cfg
  let maxElems ← DataIStream.getRemainingBufferSize cfg
  if nElems = 0 then pure []
  else if nElems ≤ maxElems then DataIStream.getRemainingBuffer cfg nElems
  else DataIStream.getRemainingBuffer cfg maxElems

def readPair {α β : Type} (key : Read α) (value : Read β) : Read (α × β) := do
  let k ← key
  let v ← value
  pure (k, v)

/-- `operator >>`. -/
def Kind.read (keys : Keys) : (k : Kind) → Read k.Value
  | plain size _ => ofBytes size <$> DataIStream.read cfg size
  | string => readString cfg
  | buffer k => do
      let nElems ← readCount cfg
      readArray cfg k (read keys k) nElems
  | flatVector size => do
      let nElems ← readCount cfg
      if 0 < nElems then ofFlatBytes size nElems <$> DataIStream.read cfg (nElems * size)
      else pure []
  | vector k => do
      let nElems ← readCount cfg
      readInto append (read keys k) nElems []
  | map k v => do
      let nElems ← readCount cfg
      readInto (insertLess (fun p q => keys.less k p.1 q.1))
        (readPair (read keys k) (read keys v)) nElems []
  | set k => do
      let nElems ← readCount cfg
      readInto (insertLess (keys.less k)) (read keys k) nElems []
  | hashMap k v => do
      let nElems ← readCount cfg
      readInto (insertNew (fun p q => keys.equal k p.1 q.1))
        (readPair (read keys k) (read keys v)) nElems []
  | hashSet k => do
      let nElems ← readCount cfg
      readInto (insertNew (keys.equal k)) (read keys k) nElems []

end

/-- What every container is by its type: its size is a `uint64_t`, an ordered one is sorted, and a
hashed one has no equal keys. -/
def Kind.Valid (keys : Keys) : (k : Kind) → k.Value → Prop
  | plain _ _, _ => True
  | string, str => str.length < 2 ^ 64
  | buffer k, l => l.length < 2 ^ 64 ∧ ∀ a ∈ l, Valid keys k a
  | flatVector _, l => l.length < 2 ^ 64
  | vector k, l => l.length < 2 ^ 64 ∧ ∀ a ∈ l, Valid keys k a
  | map k v, l => l.length < 2 ^ 64 ∧ l.Pairwise (fun p q => keys.less k p.1 q.1) ∧
      ∀ p ∈ l, Valid keys k p.1 ∧ Valid keys v p.2
  | set k, l => l.length < 2 ^ 64 ∧ l.Pairwise (fun a b => keys.less k a b) ∧
      ∀ a ∈ l, Valid keys k a
  | hashMap k v, l => l.length < 2 ^ 64 ∧ l.Pairwise (fun p q => keys.equal k p.1 q.1 = false) ∧
      ∀ p ∈ l, Valid keys k p.1 ∧ Valid keys v p.2
  | hashSet k, l => l.length < 2 ^ 64 ∧ l.Pairwise (fun a b => keys.equal k a b = false) ∧
      ∀ a ∈ l, Valid keys k a

/-- What is streamed: a value, or an array in the memory of the caller. -/
inductive Item
  | one (k : Kind)
  | array (k : Kind) (num : ℕ)
  deriving DecidableEq

namespace Item

abbrev Value : Item → Type
  | one k => k.Value
  | array k _ => List k.Value

def write : (i : Item) → i.Value → List Bytes
  | one k, v => k.write v
  | array k _, l => writeArray k k.write l

def read (cfg : Config) (keys : Keys) : (i : Item) → Read i.Value
  | one k => k.read cfg keys
  | array k num => readArray cfg k (k.read cfg keys) num

def Valid (keys : Keys) : (i : Item) → i.Value → Prop
  | one k, v => k.Valid keys v
  | array k num, l => l.length = num ∧ ∀ a ∈ l, k.Valid keys a

end Item

structure Entry (keys : Keys) where
  item : Item
  value : item.Value
  valid : item.Valid keys value

def writeAll {keys : Keys} (es : List (Entry keys)) : List Bytes :=
  (es.map (fun e => e.item.write e.value)).flatten

def readAll (cfg : Config) (keys : Keys) : List Item → Read (List ((i : Item) × i.Value))
  | [] => pure []
  | i :: items => do
      let v ← i.read cfg keys
      let vs ← readAll cfg keys items
      pure (⟨i, v⟩ :: vs)

end Collage.Stream
