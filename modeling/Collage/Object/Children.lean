import Collage.Lib.Matching
import Collage.Stream.Symmetry

/-!
# Child objects

A list of children goes through a stream as the identifiers and versions of its entries. The
receiver takes a previous child for each identifier if one is left, creates and maps the others, and
unmaps and releases the previous children that were not asked for. `ObjectFinder` looks into every
candidate it passes, also into a null entry of the previous list.
-/

namespace Collage.Children

open Collage.Stream

structure ObjectVersion where
  identifier : BitVec 128
  version : BitVec 128
  deriving DecidableEq, Repr

def versionNone : BitVec 128 := 0

def versionHead : BitVec 128 := 0xffffffffffffffff

/-- An object that is or was a child; identifiers are unique and never zero. -/
structure Child where
  id : BitVec 128
  version : BitVec 128
  isAttached : Bool
  isMaster : Bool
  id_ne : id ≠ 0
  deriving DecidableEq, Repr

namespace ObjectVersion

/-- `ObjectVersion( const Object* )`. -/
def ofObject : Option Child → ObjectVersion
  | none => ⟨0, versionNone⟩
  | some c => if c.isAttached then ⟨c.id, c.version⟩ else ⟨0, versionNone⟩

def bytes (v : ObjectVersion) : Bytes := toLE 16 v.identifier.toNat ++ toLE 16 v.version.toNat

def ofBytes (bytes : Bytes) : ObjectVersion :=
  ⟨BitVec.ofNat 128 (ofLE (bytes.take 16)), BitVec.ofNat 128 (ofLE (bytes.drop 16))⟩

theorem length_bytes (v : ObjectVersion) : v.bytes.length = 32 := by
  simp [bytes, length_toLE]

theorem ofBytes_bytes (v : ObjectVersion) : ofBytes v.bytes = v := by
  have hlen : (toLE 16 v.identifier.toNat).length = 16 := length_toLE 16 _
  have hword : ∀ w : BitVec 128, BitVec.ofNat 128 (ofLE (toLE 16 w.toNat)) = w := by
    intro w
    rw [ofLE_toLE_of_lt (lt_of_lt_of_eq w.isLt (by norm_num)), BitVec.ofNat_toNat]
    exact BitVec.setWidth_eq w
  rw [ofBytes, bytes, List.take_left' hlen, List.drop_left' hlen, hword, hword]

end ObjectVersion

/-- What can be serialized: all children are registered or mapped. -/
structure Serialized where
  children : List (Option Child)
  attached : ∀ c, some c ∈ children → c.isAttached = true
  length_lt : children.length < 2 ^ 64

def Serialized.ids (s : Serialized) : List (Option (BitVec 128)) :=
  s.children.map (Option.map Child.id)

def Serialized.versions (s : Serialized) : List ObjectVersion := s.children.map ObjectVersion.ofObject

def Serialized.serializeChildren (s : Serialized) : List Bytes :=
  toLE 8 s.children.length :: s.versions.map ObjectVersion.bytes

/-- `operator >>` of a version, which is no POD: it is read on its own. -/
def readVersion (cfg : Config) : Read ObjectVersion :=
  ObjectVersion.ofBytes <$> DataIStream.read cfg 32

/-- `operator >>` of `ObjectVersions`. -/
def readVersions (cfg : Config) : Read (List ObjectVersion) := do
  let nElems ← readCount cfg
  if 0 < nElems then readInto append (readVersion cfg) nElems []
  else pure []

/-- What is called on the parent, the node and the children. Children are known by their address. -/
inductive Call
  | create (address : ℕ)
  | mapObject (address : ℕ) (version : ObjectVersion)
  | sync (address : ℕ) (version : BitVec 128)
  | unmapObject (address : ℕ)
  | release (address : ℕ)
  deriving DecidableEq, Repr

/-- The objects in memory, the next address for a new one, and the calls so far. -/
structure Memory where
  child : ℕ → Child
  next : ℕ
  calls : List Call

namespace Memory

variable (m : Memory)

def call (c : Call) : Memory := { m with calls := m.calls ++ [c] }

def set (address : ℕ) (c : Child) : Memory :=
  { m with child := fun a => if a = address then c else m.child a }

def key (address : ℕ) : BitVec 128 := (m.child address).id

def sync (address : ℕ) (version : BitVec 128) : Memory := m.call (.sync address version)

/-- `create`, and `mapObject` of what it creates. -/
def createMapped (v : ObjectVersion) (h : v.identifier ≠ 0) : Memory :=
  { (m.set m.next ⟨v.identifier, v.version, true, false, h⟩) with
    next := m.next + 1
    calls := m.calls ++ [.create m.next, .mapObject m.next v] }

def unmapObject (address : ℕ) : Memory :=
  (m.set address { m.child address with isAttached := false, isMaster := false }).call
    (.unmapObject address)

def IsMapped (address : ℕ) : Prop :=
  (m.child address).isAttached = true ∧ (m.child address).isMaster = false

instance (address : ℕ) : Decidable (m.IsMapped address) := inferInstanceAs (Decidable (_ ∧ _))

def remove : Option ℕ → Memory
  | none => m
  | some c => (if m.IsMapped c then m.unmapObject c else m).call (.release c)

def created : List ℕ := m.calls.filterMap (fun | .create a => some a | _ => none)

def mapped : List ℕ := m.calls.filterMap (fun | .mapObject a _ => some a | _ => none)

def synced : List ℕ := m.calls.filterMap (fun | .sync a _ => some a | _ => none)

def unmapped : List ℕ := m.calls.filterMap (fun | .unmapObject a => some a | _ => none)

def released : List ℕ := m.calls.filterMap (fun | .release a => some a | _ => none)

end Memory

inductive Fault
  /-- A null child is dereferenced. -/
  | nullAccess
  /-- `LBCHECK` of `mapObject`. -/
  | checkFailed
  deriving DecidableEq, Repr

/-- `find_if` with an `ObjectFinder`: the place of the child, or the end. -/
def findIf (m : Memory) (identifier : BitVec 128) : List (Option ℕ) → Except Fault ℕ
  | [] => .ok 0
  | none :: _ => .error .nullAccess
  | some c :: old =>
      if m.key c = identifier then .ok 0 else (findIf m identifier old).map (· + 1)

/-- The object whose children these are, and whether its node can map an object. -/
structure Parent where
  isMaster : Bool
  mapObject : ObjectVersion → Bool

namespace Parent

variable (o : Parent)

/-- One entry of the serialized list: its child, the remaining previous ones and the memory. -/
def entry (v : ObjectVersion) (old : List (Option ℕ)) (m : Memory) :
    Except Fault (Option ℕ × List (Option ℕ) × Memory) :=
  if h : v.identifier = 0 then .ok (none, old, m)
  else match findIf m v.identifier old with
    | .error e => .error e
    | .ok j => match old[j]? with
      | some (some c) =>
          .ok (some c, old.eraseIdx j, m.sync c (if o.isMaster then versionHead else v.version))
      | some none => .error .nullAccess
      | none =>
          if o.mapObject v then .ok (some m.next, old, m.createMapped v h) else .error .checkFailed

def rebuild : List ObjectVersion → List (Option ℕ) → Memory →
    Except Fault (List (Option ℕ) × List (Option ℕ) × Memory)
  | [], old, m => .ok ([], old, m)
  | v :: versions, old, m => do
      let (child, old, m) ← o.entry v old m
      let (result, old, m) ← rebuild versions old m
      pure (child :: result, old, m)

/-- The loop over the removed children, which starts at the back. -/
def removeAll (old : List (Option ℕ)) (m : Memory) : Memory :=
  old.foldr (fun c m => m.remove c) m

/-- What becomes of the previous children, with the calls that are made. -/
def update (versions : List ObjectVersion) (old : List (Option ℕ)) (m : Memory) :
    Except Fault (List (Option ℕ) × Memory) := do
  let (result, rest, m) ← o.rebuild versions old { m with calls := [] }
  pure (result, removeAll rest m)

def deserializeChildren (cfg : Config) (old : List (Option ℕ)) (m : Memory) :
    Read (Except Fault (List (Option ℕ) × Memory)) := do
  let versions ← readVersions cfg
  pure (o.update versions old m)

end Parent

theorem Serialized.follows_readVersions (cfg : Config) (s : Serialized) :
    Follows cfg (readVersions cfg) s.versions s.serializeChildren := by
  have hread : ∀ v : ObjectVersion, Follows cfg (readVersion cfg) v [v.bytes] := by
    intro v
    have hplain := (Follows.read cfg v.bytes).map ObjectVersion.ofBytes
    rwa [v.length_bytes, v.ofBytes_bytes] at hplain
  have hlen : s.versions.length = s.children.length := List.length_map _
  have hwrites : (s.versions.map (fun v => [v.bytes])).flatten =
      s.versions.map ObjectVersion.bytes := by
    rw [← List.flatMap_def, ← List.map_eq_flatMap]
  let elements : ℕ → Read (List ObjectVersion) := fun n =>
    if 0 < n then readInto append (readVersion cfg) n [] else pure []
  have hlist : Follows cfg (elements s.versions.length) s.versions
      (s.versions.map ObjectVersion.bytes) := by
    by_cases hpos : 0 < s.versions.length
    · have hall : Follows cfg (readInto append (readVersion cfg) s.versions.length []) s.versions
          (s.versions.map (fun v => [v.bytes])).flatten := Follows.readInto_append
            (fun v _ => hread v)
      have helements : elements s.versions.length =
          readInto append (readVersion cfg) s.versions.length [] := if_pos hpos
      rwa [helements, ← hwrites]
    · have helements : elements s.versions.length = pure [] := if_neg hpos
      rw [helements, List.length_eq_zero_iff.1 (Nat.eq_zero_of_not_pos hpos)]
      exact Follows.pure cfg []
  have hcounted : Follows cfg (readCount cfg >>= elements) s.versions
      (toLE 8 s.versions.length :: s.versions.map ObjectVersion.bytes) :=
    Follows.readCount_bind (hlen ▸ s.length_lt) hlist
  rwa [hlen] at hcounted

theorem Serialized.settled (s : Serialized) (more : List Bytes) :
    Settled s.serializeChildren more := by
  refine settled_of_forall_ne (fun w hw => ?_) more
  rw [← List.length_pos_iff]
  rcases List.mem_cons.1 hw with rfl | hw
  · simp [length_toLE]
  · obtain ⟨v, -, rfl⟩ := List.mem_map.1 hw
    simp [v.length_bytes]

/-- What an entry of the serialized list asks for. -/
def request (v : ObjectVersion) : Option (BitVec 128) :=
  if v.identifier = 0 then none else some v.identifier

theorem Serialized.map_request (s : Serialized) : s.versions.map request = s.ids := by
  rw [versions, ids, List.map_map]
  refine List.map_congr_left (fun c hc => ?_)
  cases c with
  | none => rfl
  | some c =>
      have hid : ¬ c.id = 0#128 := c.id_ne
      simp [ObjectVersion.ofObject, s.attached c hc, request, hid]

section Find

variable {m : Memory} {key : ℕ → BitVec 128} {front : List ℕ} {id : BitVec 128}

theorem findIf_some (back : List (Option ℕ)) {c : ℕ} (hkey : ∀ a ∈ front, m.key a = key a)
    (h : front.find? (fun a => key a = id) = some c) :
    ∃ j, findIf m id (front.map some ++ back) = .ok j ∧
      (front.map some ++ back)[j]? = some (some c) ∧
      (front.map some ++ back).eraseIdx j =
        (front.eraseP (fun a => key a = id)).map some ++ back := by
  induction front with
  | nil => cases h
  | cons a front ih =>
      rw [List.map_cons, List.cons_append, findIf, hkey a List.mem_cons_self]
      by_cases ha : key a = id
      · rw [List.find?_cons_of_pos (by simpa using ha), Option.some.injEq] at h
        rw [if_pos ha, List.eraseP_cons_of_pos (by simpa using ha), h]
        exact ⟨0, rfl, rfl, rfl⟩
      · rw [List.find?_cons_of_neg (by simpa using ha)] at h
        obtain ⟨j, hfind, hget, herase⟩ := ih (fun b hb => hkey b (List.mem_cons_of_mem a hb)) h
        rw [if_neg ha, hfind, List.eraseP_cons_of_neg (by simpa using ha)]
        exact ⟨j + 1, rfl, hget, congrArg (some a :: ·) herase⟩

theorem findIf_none (back : List (Option ℕ)) (hkey : ∀ a ∈ front, m.key a = key a)
    (h : front.find? (fun a => key a = id) = none) :
    findIf m id (front.map some ++ back) = (findIf m id back).map (· + front.length) := by
  induction front with
  | nil =>
      rw [List.map_nil, List.nil_append]
      cases findIf m id back <;> rfl
  | cons a front ih =>
      have ha : ¬ key a = id := by
        intro ha
        rw [List.find?_cons_of_pos (by simpa using ha)] at h
        cases h
      rw [List.find?_cons_of_neg (by simpa using ha)] at h
      rw [List.map_cons, List.cons_append, findIf, hkey a List.mem_cons_self, if_neg ha,
        ih (fun b hb => hkey b (List.mem_cons_of_mem a hb)) h]
      cases findIf m id back <;> rfl

end Find

namespace Parent

variable {o : Parent}

/-- A run of the loop over the serialized list in which the entries got the previous children
`answers`. -/
inductive Built (o : Parent) : List ObjectVersion → (answers : List (Option ℕ)) → Memory →
    List (Option ℕ) → Memory → Prop
  | nil (m : Memory) : Built o [] [] m [] m
  | null {v : ObjectVersion} {vs : List ObjectVersion} {answers result : List (Option ℕ)}
      {m m' : Memory} (hv : v.identifier = 0) (h : Built o vs answers m result m') :
      Built o (v :: vs) (none :: answers) m (none :: result) m'
  | reuse {v : ObjectVersion} {vs : List ObjectVersion} {answers result : List (Option ℕ)}
      {m m' : Memory} {c : ℕ} (hv : v.identifier ≠ 0) (hc : m.key c = v.identifier)
      (h : Built o vs answers (m.sync c (if o.isMaster then versionHead else v.version))
        result m') :
      Built o (v :: vs) (some c :: answers) m (some c :: result) m'
  | new {v : ObjectVersion} {vs : List ObjectVersion} {answers result : List (Option ℕ)}
      {m m' : Memory} (hv : v.identifier ≠ 0)
      (h : Built o vs answers (m.createMapped v hv) result m') :
      Built o (v :: vs) (none :: answers) m (some m.next :: result) m'

section Entry

variable {m : Memory} {key : ℕ → BitVec 128} {front : List ℕ} {back : List (Option ℕ)}
  {v : ObjectVersion}

theorem entry_null (o : Parent) (hv : v.identifier = 0) (old : List (Option ℕ)) (m : Memory) :
    o.entry v old m = .ok (none, old, m) := dif_pos hv

theorem entry_reuse (o : Parent) {c : ℕ} (hv : v.identifier ≠ 0)
    (hkey : ∀ a ∈ front, m.key a = key a)
    (h : front.find? (fun a => key a = v.identifier) = some c) :
    o.entry v (front.map some ++ back) m = .ok (some c,
      (front.eraseP (fun a => key a = v.identifier)).map some ++ back,
      m.sync c (if o.isMaster then versionHead else v.version)) := by
  obtain ⟨j, hfind, hget, herase⟩ := findIf_some back hkey h
  unfold entry
  rw [dif_neg hv, hfind]
  simp only
  rw [hget, herase]

theorem entry_new (hmap : o.mapObject v = true) (hv : v.identifier ≠ 0)
    (hkey : ∀ a ∈ front, m.key a = key a)
    (h : front.find? (fun a => key a = v.identifier) = none) :
    o.entry v (front.map some) m = .ok (some m.next, front.map some, m.createMapped v hv) := by
  have hfind : findIf m v.identifier (front.map some) = .ok front.length := by
    have hall := findIf_none [] hkey h
    rw [List.append_nil] at hall
    simpa [findIf, Except.map] using hall
  have hget : (front.map some)[front.length]? = none := by simp
  unfold entry
  rw [dif_neg hv, hfind]
  simp only
  rw [hget]
  exact if_pos hmap

theorem entry_error (o : Parent) (hv : v.identifier ≠ 0) (hkey : ∀ a ∈ front, m.key a = key a)
    (h : front.find? (fun a => key a = v.identifier) = none) :
    o.entry v (front.map some ++ none :: back) m = .error .nullAccess := by
  unfold entry
  rw [dif_neg hv, findIf_none _ hkey h]
  rfl

end Entry

section Rebuild

theorem rebuild_cons {v : ObjectVersion} {vs : List ObjectVersion} {old old' : List (Option ℕ)}
    {m m' : Memory} {c : Option ℕ} (h : o.entry v old m = .ok (c, old', m')) :
    o.rebuild (v :: vs) old m =
      (o.rebuild vs old' m').map (fun r => (c :: r.1, r.2.1, r.2.2)) := by
  rw [rebuild, h]
  change (o.rebuild vs old' m' >>= _) = _
  cases o.rebuild vs old' m' <;> rfl

theorem rebuild_cons_error {v : ObjectVersion} {vs : List ObjectVersion} {old : List (Option ℕ)}
    {m : Memory} {e : Fault} (h : o.entry v old m = .error e) :
    o.rebuild (v :: vs) old m = .error e := by
  rw [rebuild, h]
  rfl

theorem key_createMapped {m : Memory} {v : ObjectVersion} {hv : v.identifier ≠ 0}
    {key : ℕ → BitVec 128} {front : List ℕ} (hkey : ∀ a ∈ front, m.key a = key a)
    (hlt : ∀ a ∈ front, a < m.next) :
    ∀ a ∈ front, (m.createMapped v hv).key a = key a := by
  intro a ha
  have hne : a ≠ m.next := (hlt a ha).ne
  rw [← hkey a ha]
  exact congrArg Child.id (if_neg hne)

theorem rebuild_ok (key : ℕ → BitVec 128) (back : List (Option ℕ)) (vs : List ObjectVersion)
    (hmap : ∀ v ∈ vs, o.mapObject v = true) (front : List ℕ) (m : Memory)
    (hkey : ∀ a ∈ front, m.key a = key a) (hlt : ∀ a ∈ front, a < m.next)
    (h : back = [] ∨ (vs.map request).reduceOption.Subperm (front.map key)) :
    ∃ result m', o.rebuild vs (front.map some ++ back) m =
        .ok (result, (serve key (vs.map request) front).2.map some ++ back, m') ∧
      Built o vs (serve key (vs.map request) front).1 m result m' := by
  induction vs generalizing front m with
  | nil => exact ⟨[], m, rfl, Built.nil m⟩
  | cons v vs ih =>
      have hmap' : ∀ v ∈ vs, o.mapObject v = true :=
        fun w hw => hmap w (List.mem_cons_of_mem v hw)
      rw [List.map_cons] at h ⊢
      by_cases hv : v.identifier = 0
      · have hreq : request v = none := if_pos hv
        rw [hreq] at h ⊢
        rw [List.reduceOption_cons_of_none] at h
        obtain ⟨result, m', heq, hbuilt⟩ := ih hmap' front m hkey hlt h
        rw [rebuild_cons (entry_null o hv _ m), heq]
        exact ⟨none :: result, m', rfl, Built.null hv hbuilt⟩
      · have hreq : request v = some v.identifier := if_neg hv
        rw [hreq] at h ⊢
        rw [List.reduceOption_cons_of_some] at h
        rw [serve]
        have hsub : ∀ a ∈ front.eraseP (fun a => key a = v.identifier), a ∈ front :=
          fun a ha => List.mem_of_mem_eraseP ha
        cases hfind : front.find? (fun a => key a = v.identifier) with
        | some c =>
            have hc := List.mem_of_find?_eq_some hfind
            have hkc : key c = v.identifier := by simpa using List.find?_some hfind
            have htail : back = [] ∨ (vs.map request).reduceOption.Subperm
                ((front.eraseP (fun a => key a = v.identifier)).map key) := by
              rw [map_eraseP_key]
              exact h.imp_right (fun hs => (cons_subperm_iff.1 hs).2)
            obtain ⟨result, m', heq, hbuilt⟩ := ih hmap' _
              (m.sync c (if o.isMaster then versionHead else v.version))
              (fun a ha => hkey a (hsub a ha)) (fun a ha => hlt a (hsub a ha)) htail
            rw [rebuild_cons (entry_reuse o hv hkey hfind), heq]
            exact ⟨some c :: result, m', rfl, Built.reuse hv ((hkey c hc).trans hkc) hbuilt⟩
        | none =>
            have hnot := (find?_key_eq_none_iff key).1 hfind
            have hnil : back = [] := h.resolve_right (fun hs => hnot (cons_subperm_iff.1 hs).1)
            have hsame : front.eraseP (fun a => key a = v.identifier) = front :=
              List.eraseP_of_forall_not (fun a ha => by simpa using List.find?_eq_none.1 hfind a ha)
            have hentry := entry_new (hmap v List.mem_cons_self) hv hkey hfind
            rw [hsame]
            obtain ⟨result, m', heq, hbuilt⟩ := ih hmap' front (m.createMapped v hv)
              (key_createMapped hkey hlt) (fun a ha => Nat.lt_succ_of_lt (hlt a ha)) (Or.inl hnil)
            rw [hnil, List.append_nil, List.append_nil] at heq ⊢
            rw [rebuild_cons hentry, heq]
            exact ⟨some m.next :: result, m', rfl, Built.new hv hbuilt⟩

theorem rebuild_error (o : Parent) (key : ℕ → BitVec 128) (back : List (Option ℕ))
    (vs : List ObjectVersion) (front : List ℕ) (m : Memory) (hkey : ∀ a ∈ front, m.key a = key a)
    (h : ¬ (vs.map request).reduceOption.Subperm (front.map key)) :
    o.rebuild vs (front.map some ++ none :: back) m = .error .nullAccess := by
  induction vs generalizing front m with
  | nil => exact absurd (List.nil_subperm) h
  | cons v vs ih =>
      rw [List.map_cons] at h
      by_cases hv : v.identifier = 0
      · have hreq : request v = none := if_pos hv
        rw [hreq, List.reduceOption_cons_of_none] at h
        rw [rebuild_cons (entry_null o hv _ m), ih front m hkey h]
        rfl
      · have hreq : request v = some v.identifier := if_neg hv
        rw [hreq, List.reduceOption_cons_of_some, cons_subperm_iff] at h
        cases hfind : front.find? (fun a => key a = v.identifier) with
        | none => exact rebuild_cons_error (entry_error o hv hkey hfind)
        | some c =>
            have hmem : v.identifier ∈ front.map key := by
              by_contra hnot
              rw [(find?_key_eq_none_iff key).2 hnot] at hfind
              cases hfind
            have htail : ¬ (vs.map request).reduceOption.Subperm
                ((front.eraseP (fun a => key a = v.identifier)).map key) := by
              rw [map_eraseP_key]
              exact fun hs => h ⟨hmem, hs⟩
            rw [rebuild_cons (entry_reuse o hv hkey hfind),
              ih _ (m.sync c (if o.isMaster then versionHead else v.version))
                (fun a ha => hkey a (List.mem_of_mem_eraseP ha)) htail]
            rfl

end Rebuild

namespace Built

variable {vs : List ObjectVersion} {answers result : List (Option ℕ)} {m m' : Memory}

theorem child_eq_of_lt (h : Built o vs answers m result m') :
    m.next ≤ m'.next ∧ ∀ c < m.next, m'.child c = m.child c := by
  induction h with
  | nil m => exact ⟨le_rfl, fun _ _ => rfl⟩
  | null _ _ ih => exact ih
  | reuse _ _ _ ih => exact ih
  | new hv _ ih =>
      refine ⟨Nat.le_of_succ_le ih.1, fun c hc => ?_⟩
      rw [ih.2 c (Nat.lt_succ_of_lt hc)]
      exact if_neg hc.ne

theorem map_key_result (h : Built o vs answers m result m')
    (hlt : ∀ c, some c ∈ answers → c < m.next) :
    result.map (Option.map m'.key) = vs.map request := by
  induction h with
  | nil m => rfl
  | null hv _ ih =>
      rw [List.map_cons, List.map_cons, ih (fun c hc => hlt c (List.mem_cons_of_mem _ hc)),
        request, if_pos hv]
      rfl
  | @reuse v _ _ _ m m' c hv hc h ih =>
      have hkey : m'.key c = v.identifier :=
        (congrArg Child.id (h.child_eq_of_lt.2 c (hlt c List.mem_cons_self))).trans hc
      rw [List.map_cons, List.map_cons, ih (fun a ha => hlt a (List.mem_cons_of_mem _ ha)),
        request, if_neg hv, Option.map_some, hkey]
  | @new v _ _ _ m m' hv h ih =>
      have hkey : m'.key m.next = v.identifier :=
        (congrArg Child.id (h.child_eq_of_lt.2 m.next (Nat.lt_succ_self _))).trans
          (congrArg Child.id (if_pos rfl))
      have hrest := ih (fun a ha => Nat.lt_succ_of_lt (hlt a (List.mem_cons_of_mem _ ha)))
      rw [List.map_cons, List.map_cons, hrest, request, if_neg hv, Option.map_some, hkey]

theorem answer_or_new (h : Built o vs answers m result m') {i c : ℕ}
    (hi : result[i]? = some (some c)) :
    answers[i]? = some (some c) ∨ answers[i]? = some none ∧ m.next ≤ c := by
  induction h generalizing i with
  | nil m => cases hi
  | null _ _ ih => cases i with
    | zero => cases hi
    | succ i => exact ih hi
  | reuse _ _ _ ih => cases i with
    | zero => exact Or.inl hi
    | succ i => exact ih hi
  | new _ _ ih => cases i with
    | zero =>
        rw [List.getElem?_cons_zero, Option.some.injEq, Option.some.injEq] at hi
        exact Or.inr ⟨rfl, hi.le⟩
    | succ i => exact (ih hi).imp_right (And.imp_right Nat.le_of_succ_le)

theorem count_result (h : Built o vs answers m result m') {c : ℕ} (hc : c < m.next) :
    result.count (some c) = answers.count (some c) := by
  induction h with
  | nil m => rfl
  | null _ _ ih => rw [List.count_cons, List.count_cons, ih hc]
  | reuse _ _ _ ih => rw [List.count_cons, List.count_cons, ih hc]
  | new _ _ ih =>
      rw [List.count_cons_of_ne (by simpa using hc.ne'), List.count_cons_of_ne (by simp),
        ih (Nat.lt_succ_of_lt hc)]

theorem synced_eq (h : Built o vs answers m result m') :
    m'.synced = m.synced ++ answers.reduceOption := by
  induction h with
  | nil m => simp
  | null _ _ ih => rw [ih, List.reduceOption_cons_of_none]
  | reuse _ _ _ ih =>
      rw [ih, List.reduceOption_cons_of_some]
      simp [Memory.synced, Memory.sync, Memory.call]
  | new _ _ ih =>
      rw [ih, List.reduceOption_cons_of_none]
      simp [Memory.synced, Memory.createMapped]

theorem created_eq (h : Built o vs answers m result m') {n : ℕ} (hn : n ≤ m.next)
    (hlt : ∀ c, some c ∈ answers → c < n) :
    m'.created = m.created ++ result.reduceOption.filter (fun c => n ≤ c) := by
  induction h with
  | nil m => simp
  | null _ _ ih =>
      rw [ih hn (fun c hc => hlt c (List.mem_cons_of_mem _ hc)), List.reduceOption_cons_of_none]
  | @reuse v vs as r m m' c _ _ _ ih =>
      have hc : ¬ n ≤ c := not_le.2 (hlt c List.mem_cons_self)
      rw [ih hn (fun a ha => hlt a (List.mem_cons_of_mem _ ha)), List.reduceOption_cons_of_some,
        List.filter_cons_of_neg (by simpa using hc)]
      simp [Memory.created, Memory.sync, Memory.call]
  | new _ _ ih =>
      rw [ih (Nat.le_succ_of_le hn) (fun a ha => hlt a (List.mem_cons_of_mem _ ha)),
        List.reduceOption_cons_of_some, List.filter_cons_of_pos (by simpa using hn)]
      simp [Memory.created, Memory.createMapped]

theorem mapped_eq_created (h : Built o vs answers m result m') (hm : m.mapped = m.created) :
    m'.mapped = m'.created := by
  induction h with
  | nil m => exact hm
  | null _ _ ih => exact ih hm
  | reuse _ _ _ ih =>
      refine ih ?_
      simpa [Memory.mapped, Memory.created, Memory.sync, Memory.call] using hm
  | new _ _ ih =>
      refine ih ?_
      simpa [Memory.mapped, Memory.created, Memory.createMapped] using hm

theorem unmapped_released_eq (h : Built o vs answers m result m') :
    m'.unmapped = m.unmapped ∧ m'.released = m.released := by
  induction h with
  | nil m => exact ⟨rfl, rfl⟩
  | null _ _ ih => exact ih
  | reuse _ _ _ ih =>
      rw [ih.1, ih.2]
      simp [Memory.unmapped, Memory.released, Memory.sync, Memory.call]
  | new _ _ ih =>
      rw [ih.1, ih.2]
      simp [Memory.unmapped, Memory.released, Memory.createMapped]

end Built

section Remove

theorem remove_frame (m : Memory) (c : Option ℕ) :
    (m.remove c).key = m.key ∧ (m.remove c).created = m.created ∧
      (m.remove c).mapped = m.mapped ∧ (m.remove c).synced = m.synced := by
  cases c with
  | none => exact ⟨rfl, rfl, rfl, rfl⟩
  | some c =>
      by_cases hc : m.IsMapped c
      · have hkey : (m.unmapObject c).key = m.key := by
          funext a
          by_cases ha : a = c
          · rw [ha]
            simp [Memory.key, Memory.unmapObject, Memory.call, Memory.set]
          · exact congrArg Child.id (if_neg ha)
        rw [Memory.remove, if_pos hc]
        refine ⟨hkey, ?_, ?_, ?_⟩ <;>
          simp [Memory.created, Memory.mapped, Memory.synced, Memory.unmapObject, Memory.call,
            Memory.set]
      · rw [Memory.remove, if_neg hc]
        refine ⟨rfl, ?_, ?_, ?_⟩ <;>
          simp [Memory.created, Memory.mapped, Memory.synced, Memory.call]

theorem removeAll_frame (old : List (Option ℕ)) (m : Memory) :
    (removeAll old m).key = m.key ∧ (removeAll old m).created = m.created ∧
      (removeAll old m).mapped = m.mapped ∧ (removeAll old m).synced = m.synced := by
  induction old with
  | nil => exact ⟨rfl, rfl, rfl, rfl⟩
  | cons c old ih =>
      obtain ⟨hkey, hcreated, hmapped, hsynced⟩ := remove_frame (removeAll old m) c
      exact ⟨hkey.trans ih.1, hcreated.trans ih.2.1, hmapped.trans ih.2.2.1,
        hsynced.trans ih.2.2.2⟩

theorem count_released_remove (m : Memory) (c : Option ℕ) (a : ℕ) :
    (m.remove c).released.count a = m.released.count a + if c = some a then 1 else 0 := by
  cases c with
  | none => rfl
  | some c =>
      have hsame : (if m.IsMapped c then m.unmapObject c else m).released = m.released := by
        split_ifs
        · simp [Memory.released, Memory.unmapObject, Memory.call, Memory.set]
        · rfl
      have happend : (m.remove (some c)).released = m.released ++ [c] := by
        rw [← hsame]
        simp [Memory.remove, Memory.released, Memory.call]
      rw [happend, List.count_append, List.count_singleton]
      simp

theorem count_released_removeAll (old : List (Option ℕ)) (m : Memory) (a : ℕ) :
    (removeAll old m).released.count a = m.released.count a + old.count (some a) := by
  induction old with
  | nil => rfl
  | cons c old ih =>
      have hcons : removeAll (c :: old) m = (removeAll old m).remove c := rfl
      rw [hcons, count_released_remove, ih, List.count_cons, Nat.add_assoc]
      simp

theorem isMapped_remove (m : Memory) (c : Option ℕ) (a : ℕ) :
    (m.remove c).IsMapped a ↔ m.IsMapped a ∧ c ≠ some a := by
  cases c with
  | none => simp [Memory.remove]
  | some c =>
      by_cases hc : m.IsMapped c
      · rw [Memory.remove, if_pos hc]
        by_cases ha : a = c
        · simp [Memory.IsMapped, Memory.unmapObject, Memory.call, Memory.set, ha]
        · simp [Memory.IsMapped, Memory.unmapObject, Memory.call, Memory.set, ha, Ne.symm ha]
      · rw [Memory.remove, if_neg hc]
        refine ⟨fun h => ⟨h, ?_⟩, And.left⟩
        rintro ⟨⟩
        exact hc h

theorem isMapped_removeAll (old : List (Option ℕ)) (m : Memory) (a : ℕ) :
    (removeAll old m).IsMapped a ↔ m.IsMapped a ∧ some a ∉ old := by
  induction old with
  | nil => simp [removeAll]
  | cons c old ih =>
      have hcons : removeAll (c :: old) m = (removeAll old m).remove c := rfl
      rw [hcons, isMapped_remove, ih, List.mem_cons, not_or, and_assoc, and_comm (a := some a ∉ old),
        ne_comm]

theorem count_unmapped_remove (m : Memory) (c : Option ℕ) (a : ℕ) :
    (m.remove c).unmapped.count a =
      m.unmapped.count a + if m.IsMapped a ∧ c = some a then 1 else 0 := by
  cases c with
  | none => simp [Memory.remove]
  | some c =>
      by_cases hc : m.IsMapped c
      · have happend : (m.remove (some c)).unmapped = m.unmapped ++ [c] := by
          simp [Memory.remove, Memory.unmapped, Memory.unmapObject, Memory.call, Memory.set, hc]
        rw [happend, List.count_append, List.count_singleton]
        by_cases ha : c = a
        · simp [← ha, hc]
        · simp [ha]
      · have hsame : (m.remove (some c)).unmapped = m.unmapped := by
          simp [Memory.remove, Memory.unmapped, Memory.call, hc]
        rw [hsame, if_neg, Nat.add_zero]
        rintro ⟨ha, ⟨⟩⟩
        exact hc ha

/-- A removed child is unmapped only once: then it is no longer mapped. -/
theorem count_unmapped_removeAll (old : List (Option ℕ)) (m : Memory) (a : ℕ) :
    (removeAll old m).unmapped.count a =
      m.unmapped.count a + if m.IsMapped a ∧ some a ∈ old then 1 else 0 := by
  induction old with
  | nil => simp [removeAll]
  | cons c old ih =>
      have hcons : removeAll (c :: old) m = (removeAll old m).remove c := rfl
      simp only [hcons, count_unmapped_remove, ih, isMapped_removeAll, List.mem_cons,
        eq_comm (a := some a) (b := c)]
      by_cases hold : some a ∈ old <;> by_cases hc : c = some a <;> simp [hold, hc]

end Remove

end Parent

end Collage.Children
