import Collage.Lib.Run
import Collage.Object.InstanceIDs

/-!
# The table of attached objects

The object store of a node lists its attached objects by their identifier (`objectStore.cpp`), and
each object knows its identifier and its instance (`object.cpp`). Objects are attached and detached
by the receiver thread, and a master may be swapped for another object while it is attached. The
table and the objects agree all the time, and as long as no instance identifier has come up twice,
a command reaches exactly the objects it is addressed to.
-/

namespace Collage.ObjectTable

open InstanceIDs (genIDs genNextID)

def instanceNone : BitVec 32 := 0xfffffffd

def instanceInvalid : BitVec 32 := 0xfffffffe

structure Object (I : Type) where
  id : I
  instanceID : BitVec 32
  /-- Of its change manager. -/
  isMaster : Bool
  deriving DecidableEq, Repr

namespace Object

variable {I : Type}

def isAttached (object : Object I) : Prop := object.instanceID ≠ instanceInvalid

instance (object : Object I) : Decidable object.isAttached := inferInstanceAs (Decidable (_ ≠ _))

def detach (object : Object I) : Object I := { object with instanceID := instanceInvalid }

theorem not_isAttached_detach (object : Object I) : ¬ object.detach.isAttached := fun h => h rfl

end Object

/-- Objects are known by a number in place of their address. -/
structure Table (I : Type) where
  /-- `_objects`. -/
  objects : I → Option (List ℕ)
  object : ℕ → Object I
  instanceIDs : BitVec 32

namespace Table

variable {I : Type} [DecidableEq I] (max : BitVec 32) (t : Table I)

/-- The list of an identifier, which is empty where the table has none. -/
def entry (id : I) : List ℕ := (t.objects id).getD []

def attach (o : ℕ) (id : I) (inInstanceID : BitVec 32) : Table I :=
  let draw := InstanceIDs.attach max instanceInvalid inInstanceID t.instanceIDs
  { objects := Function.update t.objects id (some (t.entry id ++ [o]))
    object := Function.update t.object o { t.object o with id := id, instanceID := draw.1 }
    instanceIDs := draw.2 }

def detach (o : ℕ) : Table I :=
  if (t.object o).isAttached then
    let objects := (t.entry (t.object o).id).erase o
    { t with
      objects := Function.update t.objects (t.object o).id
        (if objects = [] then none else some objects)
      object := Function.update t.object o (t.object o).detach }
  else t

def cmdDetach (id : I) (instanceID : BitVec 32) : Table I :=
  match (t.entry id).find? (fun o => (t.object o).instanceID = instanceID) with
  | none => t
  | some o => t.detach o

def cmdUnmap (id : I) : Table I :=
  { t with
    objects := Function.update t.objects id none
    object := fun o => if o ∈ t.entry id then (t.object o).detach else t.object o }

/-- `swap`, with `Object::transfer`. -/
def swap (oldObject newObject : ℕ) : Table I :=
  if (t.object oldObject).isAttached ∧ oldObject ∈ t.entry (t.object oldObject).id then
    { t with
      objects := Function.update t.objects (t.object oldObject).id
        (some ((t.entry (t.object oldObject).id).replace oldObject newObject))
      object := Function.update (Function.update t.object newObject (t.object oldObject)) oldObject
        { (t.object oldObject).detach with isMaster := false } }
  else t

/-- `dispatchObjectCommand`: the objects that get the command, unless it is to be kept. -/
def dispatchObjectCommand (id : I) (instanceID : BitVec 32) : Option (List ℕ) :=
  match t.objects id with
  | none => if instanceID = instanceNone then some [] else none
  | some objects =>
      if instanceID ≤ max then
        (objects.find? (fun o => (t.object o).instanceID = instanceID)).map (fun o => [o])
      else some objects

/-- The objects in the table are the attached ones, each once and under its identifier, and no list
is empty. -/
structure Agrees : Prop where
  mem_entry : ∀ id o, o ∈ t.entry id ↔ (t.object o).isAttached ∧ (t.object o).id = id
  nodup : ∀ id, (t.entry id).Nodup
  nonempty : ∀ id, t.objects id ≠ some []

variable {max t}

theorem entry_attach (o : ℕ) (id : I) (inInstanceID : BitVec 32) (id' : I) :
    (t.attach max o id inInstanceID).entry id' =
      if id' = id then t.entry id ++ [o] else t.entry id' := by
  unfold entry attach
  by_cases h : id' = id
  · subst h
    simp [entry]
  · simp [h]

theorem entry_detach {o : ℕ} (ho : (t.object o).isAttached) (id' : I) :
    (t.detach o).entry id' =
      if id' = (t.object o).id then (t.entry (t.object o).id).erase o else t.entry id' := by
  rw [detach, if_pos ho]
  unfold entry
  by_cases h : id' = (t.object o).id
  · subst h
    simp only [Function.update_self, if_true]
    split_ifs with hnil
    · exact hnil.symm
    · rfl
  · simp [h]

theorem entry_cmdUnmap (id id' : I) :
    (t.cmdUnmap id).entry id' = if id' = id then [] else t.entry id' := by
  unfold entry cmdUnmap
  by_cases h : id' = id
  · subst h
    simp
  · simp [h]

theorem entry_swap {oldObject newObject : ℕ}
    (h : (t.object oldObject).isAttached ∧ oldObject ∈ t.entry (t.object oldObject).id) (id' : I) :
    (t.swap oldObject newObject).entry id' = if id' = (t.object oldObject).id then
      (t.entry (t.object oldObject).id).replace oldObject newObject else t.entry id' := by
  rw [swap, if_pos h]
  unfold entry
  by_cases hid : id' = (t.object oldObject).id
  · subst hid
    simp
  · simp [hid]

theorem Agrees.attach (h : t.Agrees) {o : ℕ} (ho : ¬ (t.object o).isAttached) (id : I)
    {inInstanceID : BitVec 32}
    (hvalid : (InstanceIDs.attach max instanceInvalid inInstanceID t.instanceIDs).1 ≠
      instanceInvalid) : (t.attach max o id inInstanceID).Agrees where
  mem_entry := fun id' o' => by
    have hold : ∀ id', o ∉ t.entry id' := fun id' hmem => ho ((h.mem_entry id' o).1 hmem).1
    rw [entry_attach]
    by_cases hobject : o' = o
    · subst hobject
      have hself : ((t.attach max o' id inInstanceID).object o').isAttached ∧
          ((t.attach max o' id inInstanceID).object o').id = id := by
        simp only [Table.attach, Function.update_self]
        exact ⟨hvalid, trivial⟩
      by_cases hid : id' = id
      · subst hid
        simpa [hself.2] using hself.1
      · rw [if_neg hid]
        exact iff_of_false (hold id') (fun hnew => hid (hnew.2.symm.trans hself.2))
    · have hsame : (t.attach max o id inInstanceID).object o' = t.object o' := by
        simp [Table.attach, hobject]
      rw [hsame, ← h.mem_entry id' o']
      split_ifs with hid
      · subst hid
        simp [hobject]
      · rfl
  nodup := fun id' => by
    rw [entry_attach]
    split_ifs with hid
    · refine (h.nodup id).append (List.nodup_singleton o) ?_
      rw [List.disjoint_singleton]
      exact fun hmem => ho ((h.mem_entry id o).1 hmem).1
    · exact h.nodup id'
  nonempty := fun id' => by
    unfold Table.attach
    by_cases hid : id' = id
    · subst hid
      simp
    · simpa [hid] using h.nonempty id'

theorem object_detach {o : ℕ} (ho : (t.object o).isAttached) :
    (t.detach o).object = Function.update t.object o (t.object o).detach := by
  rw [detach, if_pos ho]

theorem Agrees.detach (h : t.Agrees) (o : ℕ) : (t.detach o).Agrees := by
  by_cases ho : (t.object o).isAttached
  swap
  · rw [Table.detach, if_neg ho]
    exact h
  refine ⟨fun id' o' => ?_, fun id' => ?_, fun id' => ?_⟩
  · rw [entry_detach ho, object_detach ho]
    by_cases hobject : o' = o
    · subst hobject
      have hgone : ¬ ((t.object o').detach).isAttached := Object.not_isAttached_detach _
      rw [Function.update_self]
      refine iff_of_false ?_ (fun hnew => hgone hnew.1)
      split_ifs with hid
      · exact (h.nodup _).not_mem_erase
      · exact fun hmem => hid ((h.mem_entry id' o').1 hmem).2.symm
    · rw [Function.update_of_ne hobject, ← h.mem_entry id' o']
      split_ifs with hid
      · rw [hid, List.mem_erase_of_ne hobject]
      · rfl
  · rw [entry_detach ho]
    split_ifs
    · exact (h.nodup _).erase o
    · exact h.nodup id'
  · rw [Table.detach, if_pos ho]
    by_cases hid : id' = (t.object o).id
    · subst hid
      simp only [Function.update_self]
      split_ifs with hnil
      · exact nofun
      · exact fun hsome => hnil (Option.some.inj hsome)
    · simpa [hid] using h.nonempty id'

theorem Agrees.cmdDetach (h : t.Agrees) (id : I) (instanceID : BitVec 32) :
    (t.cmdDetach id instanceID).Agrees := by
  unfold Table.cmdDetach
  split
  · exact h
  · exact h.detach _

theorem Agrees.cmdUnmap (h : t.Agrees) (id : I) : (t.cmdUnmap id).Agrees where
  mem_entry := fun id' o => by
    rw [entry_cmdUnmap]
    simp only [Table.cmdUnmap]
    by_cases ho : o ∈ t.entry id
    · rw [if_pos ho]
      refine iff_of_false ?_ (fun hnew => Object.not_isAttached_detach _ hnew.1)
      split_ifs with hid
      · exact List.not_mem_nil
      · exact fun hmem => hid (((h.mem_entry id' o).1 hmem).2.symm.trans ((h.mem_entry id o).1 ho).2)
    · rw [if_neg ho, ← h.mem_entry id' o]
      split_ifs with hid
      · rw [hid]
        exact iff_of_false List.not_mem_nil ho
      · rfl
  nodup := fun id' => by
    rw [entry_cmdUnmap]
    split_ifs
    · exact List.nodup_nil
    · exact h.nodup id'
  nonempty := fun id' => by
    unfold Table.cmdUnmap
    by_cases hid : id' = id
    · simp [hid]
    · simpa [hid] using h.nonempty id'

theorem replace_eq {l : List ℕ} (hl : l.Nodup) {a : ℕ} (ha : a ∈ l) :
    ∃ xs ys, l = xs ++ a :: ys ∧ a ∉ xs ++ ys ∧ ∀ b, l.replace a b = xs ++ b :: ys := by
  obtain ⟨xs, ys, rfl⟩ := List.append_of_mem ha
  rw [List.nodup_middle, List.nodup_cons] at hl
  refine ⟨xs, ys, rfl, hl.1, fun b => ?_⟩
  rw [List.replace_append_right (fun hmem => hl.1 (List.mem_append_left ys hmem)),
    List.replace_cons_self]

theorem Agrees.swap (h : t.Agrees) {oldObject newObject : ℕ} (hne : newObject ≠ oldObject)
    (hnew : ¬ (t.object newObject).isAttached) : (t.swap oldObject newObject).Agrees := by
  by_cases hcond : (t.object oldObject).isAttached ∧ oldObject ∈ t.entry (t.object oldObject).id
  swap
  · rw [Table.swap, if_neg hcond]
    exact h
  obtain ⟨xs, ys, hentry, hout, hreplace⟩ := replace_eq (h.nodup _) hcond.2
  have hfresh : ∀ id, newObject ∉ t.entry id :=
    fun id hmem => hnew ((h.mem_entry id newObject).1 hmem).1
  have hobject : ∀ o, (t.swap oldObject newObject).object o =
      if o = oldObject then { (t.object oldObject).detach with isMaster := false }
      else if o = newObject then t.object oldObject else t.object o := by
    intro o
    rw [Table.swap, if_pos hcond]
    simp only [Function.update_apply]
  refine ⟨fun id' o => ?_, fun id' => ?_, fun id' => ?_⟩
  · rw [entry_swap hcond, hobject, hreplace]
    by_cases hold : o = oldObject
    · subst hold
      rw [if_pos rfl]
      refine iff_of_false ?_ (fun hgone => hgone.1 rfl)
      split_ifs with hid
      · simpa [hne.symm] using hout
      · exact fun hmem => hid ((h.mem_entry id' o).1 hmem).2.symm
    rw [if_neg hold]
    by_cases hobj : o = newObject
    · subst hobj
      rw [if_pos rfl]
      split_ifs with hid
      · subst hid
        simp [hcond.1]
      · exact iff_of_false (hfresh id') (fun hsame => hid hsame.2.symm)
    · rw [if_neg hobj, ← h.mem_entry id' o]
      split_ifs with hid
      · rw [hid, hentry]
        simp [hold, hobj]
      · rfl
  · rw [entry_swap hcond, hreplace]
    split_ifs
    · have hnodup := h.nodup (t.object oldObject).id
      have hnot := hfresh (t.object oldObject).id
      rw [hentry] at hnodup hnot
      rw [List.nodup_middle, List.nodup_cons] at hnodup ⊢
      refine ⟨fun hmem => hnot ?_, hnodup.2⟩
      rcases List.mem_append.1 hmem with hmem | hmem
      · exact List.mem_append_left _ hmem
      · exact List.mem_append_right _ (List.mem_cons_of_mem _ hmem)
    · exact h.nodup id'
  · rw [Table.swap, if_pos hcond]
    by_cases hid : id' = (t.object oldObject).id
    · subst hid
      rw [hreplace]
      simp
    · simpa [hid] using h.nonempty id'

/-- An attached object that a command is addressed to. -/
def Concerns (max : BitVec 32) (t : Table I) (id : I) (instanceID : BitVec 32) (o : ℕ) : Prop :=
  (t.object o).isAttached ∧ (t.object o).id = id ∧
    ((t.object o).instanceID = instanceID ∨ max < instanceID)

/-- No two attached objects have the same instance identifier. -/
def Distinct (t : Table I) : Prop :=
  ∀ o o', (t.object o).isAttached → (t.object o').isAttached →
    (t.object o).instanceID = (t.object o').instanceID → o = o'

/-- A command goes to the objects that it concerns, once to each of them. If there are none it is
kept, unless it is for no instance: then it is dropped. -/
def Dispatches (max : BitVec 32) (t : Table I) (id : I) (instanceID : BitVec 32) : Prop :=
  match t.dispatchObjectCommand max id instanceID with
  | some objects => objects.Nodup ∧ (∀ o, o ∈ objects ↔ t.Concerns max id instanceID o) ∧
      (objects = [] → instanceID = instanceNone)
  | none => instanceID ≠ instanceNone ∧ ∀ o, ¬ t.Concerns max id instanceID o

omit [DecidableEq I] in
theorem Agrees.dispatches (h : t.Agrees) (hmax : max < instanceNone) (hdistinct : t.Distinct)
    (id : I) (instanceID : BitVec 32) : t.Dispatches max id instanceID := by
  unfold Dispatches dispatchObjectCommand
  have hmem := h.mem_entry id
  cases hobjects : t.objects id with
  | none =>
      rw [entry, hobjects] at hmem
      have hnone : ∀ o, ¬ t.Concerns max id instanceID o :=
        fun o ho => List.not_mem_nil ((hmem o).2 ⟨ho.1, ho.2.1⟩)
      by_cases hinstance : instanceID = instanceNone
      · simp only [if_pos hinstance]
        exact ⟨List.nodup_nil, fun o => iff_of_false List.not_mem_nil (hnone o), fun _ => hinstance⟩
      · simp only [if_neg hinstance]
        exact ⟨hinstance, hnone⟩
  | some objects =>
      have hnodup := h.nodup id
      rw [entry, hobjects, Option.getD_some] at hmem hnodup
      by_cases hle : instanceID ≤ max
      · have hnot : ¬ max < instanceID := BitVec.not_lt.2 hle
        cases hfind : objects.find? (fun o => (t.object o).instanceID = instanceID) with
        | none =>
            simp only [if_pos hle, hfind, Option.map_none]
            refine ⟨fun hinstance => hnot (hinstance ▸ hmax), fun o ho => ?_⟩
            have hother := List.find?_eq_none.1 hfind o ((hmem o).2 ⟨ho.1, ho.2.1⟩)
            exact hother (decide_eq_true (ho.2.2.resolve_right hnot))
        | some o =>
            simp only [if_pos hle, hfind, Option.map_some]
            have hinstance : (t.object o).instanceID = instanceID := by
              simpa using List.find?_some hfind
            obtain ⟨hattached, hid⟩ := (hmem o).1 (List.mem_of_find?_eq_some hfind)
            refine ⟨List.nodup_singleton o, fun o' => ?_, fun hnil => absurd hnil (by simp)⟩
            rw [List.mem_singleton]
            constructor
            · rintro rfl
              exact ⟨hattached, hid, Or.inl hinstance⟩
            · rintro ⟨hattached', -, hinstance'⟩
              exact hdistinct o' o hattached' hattached
                ((hinstance'.resolve_right hnot).trans hinstance.symm)
      · simp only [if_neg hle]
        refine ⟨hnodup, fun o => ?_, fun hnil => absurd (hnil ▸ hobjects) (h.nonempty id)⟩
        rw [hmem]
        exact ⟨fun ho => ⟨ho.1, ho.2, Or.inr (BitVec.not_le.1 hle)⟩, fun ho => ⟨ho.1, ho.2.1⟩⟩

end Table

/-- The store of a node with its requests to attach objects: those of the node itself, and those
that wait for the answer of a master. -/
structure Store (I : Type) where
  table : Table I
  requests : List (ℕ × I × BitVec 32)
  /-- The identifiers that were generated so far. -/
  drawn : List (BitVec 32)

inductive Event (I : Type)
  /-- `register_` and `attach`, in an application thread. -/
  | attach (o : ℕ) (id : I) (instanceID : BitVec 32)
  | mapNB (o : ℕ) (id : I)
  /-- `_cmdAttach`, or `_cmdMapSuccess` for this node. -/
  | attached (o : ℕ)
  /-- `_cmdMapReply` without success. -/
  | refused (o : ℕ)
  | cmdDetach (id : I) (instanceID : BitVec 32)
  | cmdUnmap (id : I)
  | swap (oldObject newObject : ℕ)
  /-- `setupChangeManager` with another role. -/
  | setup (o : ℕ) (isMaster : Bool)

def Event.instanceID {I : Type} : Event I → BitVec 32
  | .attach _ _ instanceID => instanceID
  | _ => instanceInvalid

namespace Store

variable {I : Type} [DecidableEq I] (max : BitVec 32)

def start (object : ℕ → Object I) (instanceIDs : BitVec 32) : Store I :=
  ⟨⟨fun _ => none, fun o => (object o).detach, instanceIDs⟩, [], []⟩

def Free (s : Store I) (o : ℕ) : Prop :=
  ¬ (s.table.object o).isAttached ∧ o ∉ s.requests.map Prod.fst

instance (s : Store I) (o : ℕ) : Decidable (s.Free o) := inferInstanceAs (Decidable (_ ∧ _))

/-- The objects that applications give to `attach`, `mapNB` and `swap` are free. -/
def step (s : Store I) : Event I → Option (Store I)
  | .attach o id instanceID =>
      if s.Free o then some { s with requests := s.requests ++ [(o, id, instanceID)] } else none
  | .mapNB o id =>
      if s.Free o ∧ (s.table.object o).isMaster = false then
        let draw := genNextID max s.table.instanceIDs
        some { table := { s.table with instanceIDs := draw.val }
               requests := s.requests ++ [(o, id, draw.result)]
               drawn := s.drawn ++ [draw.result] }
      else none
  | .attached o => (s.requests.find? (fun r => r.1 = o)).map (fun r =>
      { table := s.table.attach max o r.2.1 r.2.2
        requests := s.requests.filter (fun r => r.1 ≠ o)
        drawn := if r.2.2 = instanceInvalid then
          s.drawn ++ [(genNextID max s.table.instanceIDs).result] else s.drawn })
  | .refused o => some { s with requests := s.requests.filter (fun r => r.1 ≠ o) }
  | .cmdDetach id instanceID => some { s with table := s.table.cmdDetach id instanceID }
  | .cmdUnmap id => some { s with table := s.table.cmdUnmap id }
  | .swap oldObject newObject =>
      if s.Free newObject ∧ newObject ≠ oldObject ∧ (s.table.object oldObject).isMaster = true then
        some { s with table := s.table.swap oldObject newObject }
      else none
  | .setup o isMaster =>
      some { s with table := { s.table with
        object := Function.update s.table.object o { s.table.object o with isMaster := isMaster } } }

/-- An object has an instance identifier, or asks to be attached with it. -/
def Holds (s : Store I) (o : ℕ) (instanceID : BitVec 32) : Prop :=
  (s.table.object o).isAttached ∧ (s.table.object o).instanceID = instanceID ∨
    instanceID ≠ instanceInvalid ∧ ∃ id, (o, id, instanceID) ∈ s.requests

def counter (val : BitVec 32) (n : ℕ) : BitVec 32 := (fun v => (genNextID max v).val)^[n] val

/-- What the table and the requests are like when all identifiers are generated. -/
structure Sound (max val : BitVec 32) (s : Store I) : Prop where
  agrees : s.table.Agrees
  once : (s.requests.map Prod.fst).Nodup
  waiting : ∀ o ∈ s.requests.map Prod.fst, ¬ (s.table.object o).isAttached
  counter : s.table.instanceIDs = counter max val s.drawn.length
  drawn : s.drawn = genIDs max s.drawn.length val
  holds : ∀ o i, s.Holds o i → i ∈ s.drawn
  alone : ∀ o o' i, s.Holds o i → s.Holds o' i → o = o'

variable {max} {val : BitVec 32} {s s' : Store I}

theorem genIDs_succ (val : BitVec 32) (n : ℕ) : genIDs max (n + 1) val =
    genIDs max n val ++ [(genNextID max (Store.counter max val n)).result] := by
  induction n generalizing val with
  | zero => rfl
  | succ n ih =>
      rw [genIDs, ih, genIDs, List.cons_append, Store.counter, Store.counter,
        Function.iterate_succ_apply]

omit [DecidableEq I] in
theorem Sound.distinct (h : s.Sound max val) : s.table.Distinct :=
  fun o o' ho ho' heq => h.alone o o' _ (Or.inl ⟨ho, rfl⟩) (Or.inl ⟨ho', heq.symm⟩)

omit [DecidableEq I] in
theorem Sound.of_drawn_eq (h : s.Sound max val) {f : ℕ → ℕ} (hf : Function.Injective f)
    (hagrees : s'.table.Agrees) (honce : (s'.requests.map Prod.fst).Nodup)
    (hwaiting : ∀ o ∈ s'.requests.map Prod.fst, ¬ (s'.table.object o).isAttached)
    (hcounter : s'.table.instanceIDs = s.table.instanceIDs) (hdrawn : s'.drawn = s.drawn)
    (hholds : ∀ o i, s'.Holds o i → s.Holds (f o) i) : s'.Sound max val where
  agrees := hagrees
  once := honce
  waiting := hwaiting
  counter := by rw [hcounter, hdrawn, h.counter]
  drawn := by rw [hdrawn, ← h.drawn]
  holds := fun o i ho => hdrawn ▸ h.holds (f o) i (hholds o i ho)
  alone := fun o o' i ho ho' => hf (h.alone _ _ i (hholds o i ho) (hholds o' i ho'))

omit [DecidableEq I] in
theorem Sound.of_drawn_append (h : s.Sound max val) (hlen : s.drawn.length ≤ max.toNat) (new : ℕ)
    (hagrees : s'.table.Agrees) (honce : (s'.requests.map Prod.fst).Nodup)
    (hwaiting : ∀ o ∈ s'.requests.map Prod.fst, ¬ (s'.table.object o).isAttached)
    (hcounter : s'.table.instanceIDs = (genNextID max s.table.instanceIDs).val)
    (hdrawn : s'.drawn = s.drawn ++ [(genNextID max s.table.instanceIDs).result])
    (hholds : ∀ o i, s'.Holds o i → s.Holds o i ∨
      o = new ∧ i = (genNextID max s.table.instanceIDs).result) : s'.Sound max val := by
  have hall : s'.drawn = genIDs max (s.drawn.length + 1) val := by
    rw [hdrawn, genIDs_succ, ← h.drawn, h.counter]
  have hnodup : s'.drawn.Nodup := by
    rw [hall]
    exact (InstanceIDs.genIDs_initial (Nat.succ_le_succ hlen)).sublist.nodup
      (InstanceIDs.nodup_cycle max val)
  have hfresh : (genNextID max s.table.instanceIDs).result ∉ s.drawn := by
    rw [hdrawn, List.nodup_append] at hnodup
    exact fun hmem => hnodup.2.2 _ hmem _ (List.mem_singleton_self _) rfl
  have hlength : s'.drawn.length = s.drawn.length + 1 := by
    rw [hdrawn, List.length_append, List.length_singleton]
  refine ⟨hagrees, honce, hwaiting, ?_, by rw [hlength, hall], fun o i ho => ?_,
    fun o o' i ho ho' => ?_⟩
  · rw [hcounter, hlength, h.counter, Store.counter, Store.counter, Function.iterate_succ_apply']
  · rw [hdrawn]
    rcases hholds o i ho with hold | ⟨-, rfl⟩
    · exact List.mem_append_left _ (h.holds o i hold)
    · exact List.mem_append_right _ (List.mem_singleton_self _)
  · rcases hholds o i ho with hold | ⟨rfl, rfl⟩
    · rcases hholds o' i ho' with hold' | ⟨-, rfl⟩
      · exact h.alone o o' i hold hold'
      · exact absurd (h.holds o _ hold) hfresh
    · rcases hholds o' _ ho' with hold' | ⟨rfl, -⟩
      · exact absurd (h.holds o' _ hold') hfresh
      · rfl

omit [DecidableEq I] in
theorem sound_start (object : ℕ → Object I) (val : BitVec 32) :
    (start object val).Sound max val where
  agrees := by
    refine ⟨fun id o => ?_, fun _ => List.nodup_nil, fun _ => nofun⟩
    exact iff_of_false List.not_mem_nil (fun ho => Object.not_isAttached_detach _ ho.1)
  once := List.nodup_nil
  waiting := fun _ ho => absurd ho List.not_mem_nil
  counter := rfl
  drawn := rfl
  holds := fun o i ho => by
    rcases ho with ⟨ho, -⟩ | ⟨-, id, hmem⟩
    · exact absurd ho (Object.not_isAttached_detach _)
    · cases hmem
  alone := fun o o' i ho _ => by
    rcases ho with ⟨ho, -⟩ | ⟨-, id, hmem⟩
    · exact absurd ho (Object.not_isAttached_detach _)
    · cases hmem

omit [DecidableEq I] in
theorem Sound.of_detached (h : s.Sound max val) (hagrees : s'.table.Agrees)
    (hrequests : s'.requests.Sublist s.requests) (hdrawn : s'.drawn = s.drawn)
    (hcounter : s'.table.instanceIDs = s.table.instanceIDs)
    (hattached : ∀ o, (s'.table.object o).isAttached → (s.table.object o).isAttached ∧
      (s'.table.object o).instanceID = (s.table.object o).instanceID) : s'.Sound max val := by
  have hsub := hrequests.map Prod.fst
  refine h.of_drawn_eq Function.injective_id hagrees (hsub.nodup h.once)
    (fun o ho ho' => h.waiting o (hsub.subset ho) (hattached o ho').1) hcounter hdrawn
    (fun o i ho => ?_)
  rcases ho with ⟨ho, rfl⟩ | ⟨hi, id, hmem⟩
  · exact Or.inl ⟨(hattached o ho).1, (hattached o ho).2.symm⟩
  · exact Or.inr ⟨hi, id, hrequests.subset hmem⟩

theorem attached_detach {t : Table I} {o o' : ℕ} (h : ((t.detach o).object o').isAttached) :
    (t.object o').isAttached ∧
      ((t.detach o).object o').instanceID = (t.object o').instanceID := by
  by_cases ho : (t.object o).isAttached
  · rw [Table.object_detach ho] at h ⊢
    by_cases hobject : o' = o
    · subst hobject
      rw [Function.update_self] at h
      exact absurd h (Object.not_isAttached_detach _)
    · rw [Function.update_of_ne hobject] at h ⊢
      exact ⟨h, rfl⟩
  · rw [Table.detach, if_neg ho] at h ⊢
    exact ⟨h, rfl⟩

theorem Sound.cmdDetach (h : s.Sound max val) (id : I) (instanceID : BitVec 32) :
    ({ s with table := s.table.cmdDetach id instanceID } : Store I).Sound max val := by
  refine h.of_detached (h.agrees.cmdDetach id instanceID) (List.Sublist.refl _) rfl ?_ ?_
  · simp only [Table.cmdDetach]
    split
    · rfl
    · unfold Table.detach
      split_ifs <;> rfl
  · intro o ho
    simp only [Table.cmdDetach] at ho ⊢
    split at ho
    · exact ⟨ho, rfl⟩
    · exact attached_detach ho

theorem Sound.cmdUnmap (h : s.Sound max val) (id : I) :
    ({ s with table := s.table.cmdUnmap id } : Store I).Sound max val := by
  refine h.of_detached (h.agrees.cmdUnmap id) (List.Sublist.refl _) rfl rfl (fun o ho => ?_)
  simp only [Table.cmdUnmap] at ho ⊢
  split_ifs at ho ⊢
  · exact absurd ho (Object.not_isAttached_detach _)
  · exact ⟨ho, rfl⟩

omit [DecidableEq I] in
theorem Sound.request_attach (h : s.Sound max val) {o : ℕ} (hfree : s.Free o) (id : I) :
    ({ s with requests := s.requests ++ [(o, id, instanceInvalid)] } : Store I).Sound max val := by
  refine h.of_drawn_eq Function.injective_id h.agrees ?_ ?_ rfl rfl (fun o' i ho => ?_)
  · rw [List.map_append, List.map_singleton, List.nodup_append_comm]
    exact List.nodup_cons.2 ⟨hfree.2, h.once⟩
  · intro o' ho'
    rw [List.map_append, List.mem_append] at ho'
    rcases ho' with ho' | ho'
    · exact h.waiting o' ho'
    · exact List.mem_singleton.1 ho' ▸ hfree.1
  · rcases ho with ho | ⟨hi, id', hmem⟩
    · exact Or.inl ho
    · rcases List.mem_append.1 hmem with hmem | hmem
      · exact Or.inr ⟨hi, id', hmem⟩
      · simp only [List.mem_singleton, Prod.mk.injEq] at hmem
        exact absurd hmem.2.2 hi

omit [DecidableEq I] in
theorem Sound.mapNB (h : s.Sound max val) (hlen : s.drawn.length ≤ max.toNat) {o : ℕ}
    (hfree : s.Free o) (id : I) :
    Store.Sound max val
      { table := { s.table with instanceIDs := (genNextID max s.table.instanceIDs).val }
        requests := s.requests ++ [(o, id, (genNextID max s.table.instanceIDs).result)]
        drawn := s.drawn ++ [(genNextID max s.table.instanceIDs).result] } := by
  refine h.of_drawn_append hlen o
    ⟨h.agrees.mem_entry, h.agrees.nodup, h.agrees.nonempty⟩ ?_ ?_ rfl rfl
    (fun o' i ho => ?_)
  · rw [List.map_append, List.map_singleton, List.nodup_append_comm]
    exact List.nodup_cons.2 ⟨hfree.2, h.once⟩
  · intro o' ho'
    rw [List.map_append, List.mem_append] at ho'
    rcases ho' with ho' | ho'
    · exact h.waiting o' ho'
    · exact List.mem_singleton.1 ho' ▸ hfree.1
  · rcases ho with ho | ⟨hi, id', hmem⟩
    · exact Or.inl (Or.inl ho)
    · rcases List.mem_append.1 hmem with hmem | hmem
      · exact Or.inl (Or.inr ⟨hi, id', hmem⟩)
      · simp only [List.mem_singleton, Prod.mk.injEq] at hmem
        exact Or.inr ⟨hmem.1, hmem.2.2⟩

theorem Sound.attached (h : s.Sound max val) (hmax : max < instanceNone)
    (hlen : s.drawn.length ≤ max.toNat) {o : ℕ} {r : ℕ × I × BitVec 32}
    (hr : s.requests.find? (fun r => r.1 = o) = some r) :
    Store.Sound max val
      { table := s.table.attach max o r.2.1 r.2.2
        requests := s.requests.filter (fun r => r.1 ≠ o)
        drawn := if r.2.2 = instanceInvalid then
          s.drawn ++ [(genNextID max s.table.instanceIDs).result] else s.drawn } := by
  obtain ⟨o', id, instanceID⟩ := r
  obtain rfl : o' = o := by simpa using List.find?_some hr
  have hmem := List.mem_of_find?_eq_some hr
  have hsub : (s.requests.filter (fun r => r.1 ≠ o')).Sublist s.requests := List.filter_sublist
  have hfree := h.waiting o' (List.mem_map_of_mem hmem)
  have hother : ∀ o, o ≠ o' → (s.table.attach max o' id instanceID).object o = s.table.object o :=
    fun o ho => Function.update_of_ne ho _ _
  have honce : ((s.requests.filter (fun r => r.1 ≠ o')).map Prod.fst).Nodup :=
    (hsub.map Prod.fst).nodup h.once
  have hwaiting : ∀ o ∈ (s.requests.filter (fun r => r.1 ≠ o')).map Prod.fst,
      ¬ ((s.table.attach max o' id instanceID).object o).isAttached := by
    intro o ho
    obtain ⟨r, hr, rfl⟩ := List.mem_map.1 ho
    obtain ⟨hr, hne⟩ := List.mem_filter.1 hr
    rw [hother r.1 (of_decide_eq_true hne)]
    exact h.waiting r.1 (List.mem_map_of_mem hr)
  by_cases hinvalid : instanceID = instanceInvalid
  · subst hinvalid
    have hdraw : InstanceIDs.attach max instanceInvalid instanceInvalid s.table.instanceIDs =
        ((genNextID max s.table.instanceIDs).result, (genNextID max s.table.instanceIDs).val) :=
      if_pos rfl
    have hvalid : (genNextID max s.table.instanceIDs).result ≠ instanceInvalid := by
      have hle := InstanceIDs.result_le max s.table.instanceIDs
      rintro heq
      have hinvalid : instanceInvalid.toNat = 0xfffffffe := rfl
      have hnone : instanceNone.toNat = 0xfffffffd := rfl
      rw [heq, BitVec.le_def] at hle
      rw [BitVec.lt_def] at hmax
      omega
    refine h.of_drawn_append hlen o'
      (h.agrees.attach hfree id (by rw [hdraw]; exact hvalid)) honce hwaiting
      (by simp only [Table.attach, hdraw]) (by simp only [if_true]) (fun o i ho => ?_)
    rcases ho with ⟨ho, rfl⟩ | ⟨hi, id', hmem'⟩
    · by_cases hobject : o = o'
      · subst hobject
        refine Or.inr ⟨rfl, ?_⟩
        simp only [Table.attach, Function.update_self, hdraw]
      · rw [hother o hobject] at ho ⊢
        exact Or.inl (Or.inl ⟨ho, rfl⟩)
    · exact Or.inl (Or.inr ⟨hi, id', hsub.subset hmem'⟩)
  · have hdraw : InstanceIDs.attach max instanceInvalid instanceID s.table.instanceIDs =
        (instanceID, s.table.instanceIDs) := if_neg hinvalid
    refine h.of_drawn_eq Function.injective_id
      (h.agrees.attach hfree id (by rw [hdraw]; exact hinvalid)) honce hwaiting
      (by simp only [Table.attach, hdraw]) (if_neg hinvalid) (fun o i ho => ?_)
    rcases ho with ⟨ho, rfl⟩ | ⟨hi, id', hmem'⟩
    · by_cases hobject : o = o'
      · subst hobject
        refine Or.inr ⟨?_, id, ?_⟩ <;>
          simp only [Table.attach, Function.update_self, hdraw]
        · exact hinvalid
        · exact hmem
      · rw [hother o hobject] at ho ⊢
        exact Or.inl ⟨ho, rfl⟩
    · exact Or.inr ⟨hi, id', hsub.subset hmem'⟩

theorem Sound.swap (h : s.Sound max val) {oldObject newObject : ℕ} (hfree : s.Free newObject)
    (hne : newObject ≠ oldObject) :
    ({ s with table := s.table.swap oldObject newObject } : Store I).Sound max val := by
  by_cases hcond : (s.table.object oldObject).isAttached ∧
      oldObject ∈ s.table.entry (s.table.object oldObject).id
  swap
  · rw [Table.swap, if_neg hcond]
    exact h
  have hobject : ∀ o, (s.table.swap oldObject newObject).object o =
      if o = oldObject then { (s.table.object oldObject).detach with isMaster := false }
      else if o = newObject then s.table.object oldObject else s.table.object o := by
    intro o
    rw [Table.swap, if_pos hcond]
    simp only [Function.update_apply]
  have hrequest : ∀ o ∈ s.requests.map Prod.fst, o ≠ newObject ∧ o ≠ oldObject :=
    fun o ho => ⟨fun heq => hfree.2 (heq ▸ ho), fun heq => h.waiting o ho (heq ▸ hcond.1)⟩
  refine h.of_drawn_eq (Equiv.swap oldObject newObject).injective (h.agrees.swap hne hfree.1) h.once
    (fun o ho => ?_) (by rw [Table.swap, if_pos hcond]) rfl (fun o i ho => ?_)
  · simp only [hobject]
    rw [if_neg (hrequest o ho).2, if_neg (hrequest o ho).1]
    exact h.waiting o ho
  · rcases ho with ⟨ho, hi⟩ | ⟨hi, id, hmem⟩
    · simp only [hobject] at ho hi
      split_ifs at ho hi with hold hnew
      · exact absurd rfl ho
      · subst hnew
        rw [Equiv.swap_apply_right]
        exact Or.inl ⟨ho, hi⟩
      · rw [Equiv.swap_apply_of_ne_of_ne hold hnew]
        exact Or.inl ⟨ho, hi⟩
    · obtain ⟨hnew, hold⟩ := hrequest o (List.mem_map_of_mem hmem)
      rw [Equiv.swap_apply_of_ne_of_ne hold hnew]
      exact Or.inr ⟨hi, id, hmem⟩

omit [DecidableEq I] in
theorem Sound.setup (h : s.Sound max val) (o : ℕ) (isMaster : Bool) :
    ({ s with table := { s.table with
      object := Function.update s.table.object o
        { s.table.object o with isMaster := isMaster } } } : Store I).Sound max val := by
  have hsame : ∀ o', (Function.update s.table.object o
      { s.table.object o with isMaster := isMaster } o').id = (s.table.object o').id ∧
      (Function.update s.table.object o
        { s.table.object o with isMaster := isMaster } o').instanceID =
          (s.table.object o').instanceID := by
    intro o'
    by_cases ho : o' = o
    · subst ho
      simp
    · simp [ho]
  refine h.of_detached ⟨fun id o' => ?_, h.agrees.nodup, h.agrees.nonempty⟩ (List.Sublist.refl _) rfl
    rfl (fun o' ho' => ?_)
  · have hmem := h.agrees.mem_entry id o'
    rw [Object.isAttached, ← (hsame o').1, ← (hsame o').2] at hmem
    exact hmem
  · rw [Object.isAttached] at ho' ⊢
    simp only [(hsame o').2] at ho' ⊢
    exact ⟨ho', trivial⟩

/-- The application leaves the instance identifiers to the store, and there are enough of them. -/
def Generated (max : BitVec 32) (s : Store I) (e : Event I) : Prop :=
  s.drawn.length ≤ max.toNat ∧ e.instanceID = instanceInvalid

instance (s : Store I) (e : Event I) : Decidable (Generated max s e) :=
  inferInstanceAs (Decidable (_ ∧ _))

theorem Sound.step (h : s.Sound max val) (hmax : max < instanceNone) {e : Event I}
    (hok : Generated max s e) (hs : s.step max e = some s') : s'.Sound max val := by
  obtain ⟨hlen, hgenerated⟩ := hok
  cases e with
  | attach o id instanceID =>
      obtain rfl : instanceID = instanceInvalid := hgenerated
      simp only [Store.step] at hs
      split_ifs at hs with hfree
      exact Option.some.inj hs ▸ h.request_attach hfree id
  | mapNB o id =>
      simp only [Store.step] at hs
      split_ifs at hs with hfree
      exact Option.some.inj hs ▸ h.mapNB hlen hfree.1 id
  | attached o =>
      obtain ⟨r, hr, rfl⟩ := Option.map_eq_some_iff.1 hs
      exact h.attached hmax hlen hr
  | refused o =>
      obtain rfl := Option.some.inj hs
      exact h.of_detached h.agrees List.filter_sublist rfl rfl (fun _ ho => ⟨ho, rfl⟩)
  | cmdDetach id instanceID => exact Option.some.inj hs ▸ h.cmdDetach id instanceID
  | cmdUnmap id => exact Option.some.inj hs ▸ h.cmdUnmap id
  | swap oldObject newObject =>
      simp only [Store.step] at hs
      split_ifs at hs with hfree
      exact Option.some.inj hs ▸ h.swap hfree.1 hfree.2.1
  | setup o isMaster => exact Option.some.inj hs ▸ h.setup o isMaster

/-- When all instance identifiers are generated: whatever is attached, mapped, swapped and detached,
the table lists the attached objects, and a command is handed to exactly the objects it is addressed
to, once to each. If there are none it is kept, unless it is for no instance. -/
theorem table_dispatches (hmax : max < instanceNone) {object : ℕ → Object I} {es : List (Event I)}
    (hok : Machine.Steps (Store.step max) (Generated max) (start object val) es)
    (hrun : Machine.run (Store.step max) (start object val) es = some s) :
    s.table.Agrees ∧ s.table.Distinct ∧ ∀ id instanceID, s.table.Dispatches max id instanceID := by
  have hsound := Machine.run_invariant (Sound max val) (fun _ _ _ h hok hs => h.step hmax hok hs)
    (sound_start object val) hok hrun
  exact ⟨hsound.agrees, hsound.distinct, hsound.agrees.dispatches hmax hsound.distinct⟩

/-- A master and a slave of one identifier, the master swapped for another object. -/
theorem table_dispatches_swap : ∃ s : Store ℕ,
    Machine.run (Store.step 0xfffffff0)
      (start (fun _ => ⟨0, 0, false⟩) (BitVec.ofInt 32 (-0x7FFFFFFF)))
        [.setup 0 true, .attach 0 7 instanceInvalid, .mapNB 1 7, .attached 0, .attached 1,
          .swap 0 2] = some s ∧
      s.table.entry 7 = [2, 1] ∧ s.table.Dispatches 0xfffffff0 7 2 := by
  have h : (Machine.run (Store.step 0xfffffff0)
      (start (fun _ => ⟨0, 0, false⟩) (BitVec.ofInt 32 (-0x7FFFFFFF)))
        [.setup 0 true, .attach 0 7 instanceInvalid, .mapNB 1 7, .attached 0, .attached 1,
          .swap 0 2]).map (fun s => decide (s.table.entry 7 = [2, 1])) = some true := by
    decide +kernel
  obtain ⟨s, hrun, hs⟩ := Option.map_eq_some_iff.1 h
  exact ⟨s, hrun, of_decide_eq_true hs,
    (table_dispatches (by decide) (by decide +kernel) hrun).2.2 7 2⟩

end Store

end Collage.ObjectTable
