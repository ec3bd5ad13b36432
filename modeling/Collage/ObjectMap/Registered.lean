import Collage.ObjectMap.Map

/-!
# The map of the master

The identifiers in the map of the master instance are those of the registered objects, as long as no
delta is serialised that names an object as added which is not registered any more.
-/

namespace Collage.ObjectMap

variable {K O : Type} [DecidableEq K] [DecidableEq O] {id : O → K} {static : O → Bool}
  {m m' : Master K O}

theorem Map.touch_of_mem {I : Type} {map : Map K I} {k : K} (h : k ∈ map) : map.touch k = map :=
  if_pos h

theorem Map.foldl_touch {I : Type} {map : Map K I} {ks : List K} (h : ∀ k ∈ ks, k ∈ map) :
    ks.foldl Map.touch map = map := by
  induction ks with
  | nil => rfl
  | cons k ks ih =>
      rw [List.foldl_cons, Map.touch_of_mem (h k List.mem_cons_self)]
      exact ih (fun k' hk' => h k' (List.mem_cons_of_mem _ hk'))

namespace Master

/-- The commit of the objects leaves alone what was added and removed. -/
structure Framed (m m' : Master K O) : Prop where
  added : m'.added = m.added
  removed : m'.removed = m.removed
  type : m'.type = m.type
  masters : m'.masters = m.masters
  dirtyAdded : m'.dirty.added = m.dirty.added
  dirtyRemoved : m'.dirty.removed = m.dirty.removed

theorem framed_commitMaster (id : O → K) (static : O → Bool) (versions : O → ℕ) (m : Master K O)
    (o : O) : Framed m (commitMaster id static versions m o) := by
  simp only [commitMaster]
  split_ifs <;> exact ⟨rfl, rfl, rfl, rfl, rfl, rfl⟩

theorem framed_commitMasters (id : O → K) (static : O → Bool) (versions : O → ℕ) (m : Master K O) :
    Framed m (m.commitMasters id static versions) := by
  have hfold (os : List O) (m : Master K O) :
      Framed m (os.foldl (commitMaster id static versions) m) := by
    induction os generalizing m with
    | nil => exact ⟨rfl, rfl, rfl, rfl, rfl, rfl⟩
    | cons o os ih =>
        have hstep := framed_commitMaster id static versions m o
        have hrest := ih (commitMaster id static versions m o)
        exact ⟨hrest.added.trans hstep.added, hrest.removed.trans hstep.removed,
          hrest.type.trans hstep.type, hrest.masters.trans hstep.masters,
          hrest.dirtyAdded.trans hstep.dirtyAdded, hrest.dirtyRemoved.trans hstep.dirtyRemoved⟩
  have h := hfold m.masters m
  simp only [commitMasters]
  split_ifs
  · exact ⟨h.added, h.removed, h.type, h.masters, h.dirtyAdded, h.dirtyRemoved⟩
  · exact h

/-- The map holds the registered objects, with their versions and types. -/
structure Registered (id : O → K) (m : Master K O) : Prop where
  keys : ∀ k, k ∈ m.map ↔ k ∈ m.masters.map id
  entries : ∀ o ∈ m.masters, m.map.lookup (id o) = some ⟨m.version o, some o, m.type o⟩
  distinct : (m.masters.map id).Nodup

omit [DecidableEq O] in
theorem registered_init : (init : Master K O).Registered id := by
  refine ⟨fun k => ?_, nofun, List.nodup_nil⟩
  exact iff_of_false (AList.notMem_empty k) List.not_mem_nil

namespace Registered

omit [DecidableEq O] in
theorem id_injective (h : m.Registered id) {o o' : O} (ho : o ∈ m.masters) (ho' : o' ∈ m.masters)
    (heq : id o = id o') : o = o' :=
  List.inj_on_of_nodup_map h.distinct ho ho' heq

theorem register (h : m.Registered id) (o : O) (type version : ℕ) :
    (m.register id o type version).1.Registered id := by
  unfold Master.register
  split_ifs with hmem
  · exact h
  · have hnew : id o ∉ m.masters.map id := fun hid => hmem ((h.keys _).2 hid)
    refine ⟨fun k => ?_, fun o' ho' => ?_, ?_⟩
    · rw [AList.mem_insert, h.keys, List.map_append, List.mem_append, List.map_singleton,
        List.mem_singleton, or_comm]
    · rcases List.mem_append.1 ho' with ho' | ho'
      · have hid : id o' ≠ id o := fun heq => hnew (heq ▸ List.mem_map_of_mem ho')
        have hne : o' ≠ o := fun heq => hid (congrArg id heq)
        simp only [AList.lookup_insert_ne hid, h.entries o' ho', Function.update_of_ne hne]
      · obtain rfl := List.mem_singleton.1 ho'
        simp only [AList.lookup_insert, Function.update_self]
    · rw [List.map_append, List.map_singleton]
      exact List.nodup_append_comm.1 (List.nodup_cons.2 ⟨hnew, h.distinct⟩)

theorem deregister (h : m.Registered id) (o : O) : (m.deregister id o).1.Registered id := by
  unfold Master.deregister
  split_ifs with hmem
  · have hids {o' : O} (ho' : o' ∈ m.masters) : id o' ≠ id o ↔ o' ≠ o :=
      not_congr ⟨h.id_injective ho' hmem.2, congrArg id⟩
    have herase {o' : O} : o' ∈ m.masters.erase o ↔ o' ≠ o ∧ o' ∈ m.masters :=
      h.distinct.of_map.mem_erase_iff
    refine ⟨fun k => ?_, fun o' ho' => ?_, ?_⟩
    · rw [AList.mem_erase, h.keys, List.mem_map, List.mem_map]
      constructor
      · rintro ⟨hne, o', ho', rfl⟩
        exact ⟨o', herase.2 ⟨(hids ho').1 hne, ho'⟩, rfl⟩
      · rintro ⟨o', ho', rfl⟩
        obtain ⟨hne, ho'⟩ := herase.1 ho'
        exact ⟨(hids ho').2 hne, o', ho', rfl⟩
    · obtain ⟨hne, ho'⟩ := herase.1 ho'
      simp only [AList.lookup_erase_ne ((hids ho').2 hne)]
      exact h.entries o' ho'
    · exact h.distinct.sublist (List.erase_sublist.map id)
  · exact h

omit [DecidableEq O] in
theorem touch (h : m.Registered id) {o : O} (ho : o ∈ m.masters) :
    m.map.touch (id o) = m.map ∧ m.map.at (id o) = ⟨m.version o, some o, m.type o⟩ := by
  refine ⟨Map.touch_of_mem ((h.keys _).2 (List.mem_map_of_mem ho)), ?_⟩
  rw [Map.at, h.entries o ho, Option.getD_some]

theorem commitMaster (h : m.Registered id) (static : O → Bool) {o : O} (ho : o ∈ m.masters)
    (versions : O → ℕ) :
    (Master.commitMaster id static versions m o).Registered id := by
  obtain ⟨htouch, hat⟩ := h.touch ho
  simp only [Master.commitMaster, htouch, hat]
  split_ifs with hskip hsame
  · exact h
  · refine ⟨h.keys, fun o' ho' => ?_, h.distinct⟩
    rcases eq_or_ne o' o with rfl | hne
    · simp only [Function.update_self, ← hsame]
      exact h.entries o' ho'
    · simp only [Function.update_of_ne hne]
      exact h.entries o' ho'
  · refine ⟨fun k => ?_, fun o' ho' => ?_, h.distinct⟩
    · rw [AList.mem_insert, h.keys]
      refine or_iff_right_of_imp ?_
      rintro rfl
      exact List.mem_map_of_mem ho
    · rcases eq_or_ne o' o with rfl | hne
      · simp only [AList.lookup_insert, Function.update_self]
      · have hid : id o' ≠ id o := fun heq => hne (h.id_injective ho' ho heq)
        simp only [AList.lookup_insert_ne hid, Function.update_of_ne hne]
        exact h.entries o' ho'

theorem foldl_commitMaster (h : m.Registered id) (static : O → Bool) {os : List O}
    (hos : ∀ o ∈ os, o ∈ m.masters) (versions : O → ℕ) :
    (os.foldl (Master.commitMaster id static versions) m).Registered id := by
  induction os generalizing m with
  | nil => exact h
  | cons o os ih =>
      refine ih (h.commitMaster static (hos o List.mem_cons_self) versions) (fun o' ho' => ?_)
      rw [(framed_commitMaster id static versions m o).masters]
      exact hos o' (List.mem_cons_of_mem _ ho')

theorem commitMasters (h : m.Registered id) (static : O → Bool) (versions : O → ℕ) :
    (m.commitMasters id static versions).Registered id := by
  have hfold := h.foldl_commitMaster static (fun _ ho => ho) versions
  simp only [Master.commitMasters]
  split_ifs
  · exact ⟨hfold.keys, hfold.entries, hfold.distinct⟩
  · exact hfold

omit [DecidableEq O] in
/-- A delta that names only registered objects as added. -/
theorem serialize (h : m.Registered id) (bits : Dirty)
    (hadded : bits.added = true → ∀ k ∈ m.added, k ∈ m.masters.map id) :
    (m.serialize bits).1.Registered id := by
  have hmap : (m.serialize bits).1 = m := by
    simp only [Master.serialize]
    split_ifs with hbit
    · rw [Map.foldl_touch (fun k hk => (h.keys k).2 (hadded hbit k hk))]
    · rfl
  rw [hmap]
  exact h

theorem commit (h : m.Registered id) (static : O → Bool) (versions : O → ℕ) {slaves : Bool}
    (hadded : slaves = true → ∀ k ∈ m.added, k ∈ m.masters.map id) :
    (m.commit id static versions slaves).1.Registered id := by
  have hframed := framed_commitMasters id static versions m
  have hmasters := h.commitMasters static versions
  simp only [Master.commit]
  split_ifs with hsent
  · have hpresent : ∀ k ∈ (m.commitMasters id static versions).added,
        k ∈ (m.commitMasters id static versions).masters.map id := by
      rw [hframed.added, hframed.masters]
      exact hadded hsent.1
    have hserialize := hmasters.serialize (m.commitMasters id static versions).dirty
      (fun _ => hpresent)
    exact ⟨hserialize.keys, hserialize.entries, hserialize.distinct⟩
  · exact ⟨hmasters.keys, hmasters.entries, hmasters.distinct⟩

end Registered

/-- A delta is serialised only while every object that was added is registered. -/
def Present (id : O → K) (m : Master K O) : Event O → Prop
  | .commit _ slaves => slaves = true → ∀ k ∈ m.added, k ∈ m.masters.map id
  | .serialize (some bits) => bits.added = true → ∀ k ∈ m.added, k ∈ m.masters.map id
  | _ => True

instance decidablePresent (id : O → K) (m : Master K O) : (e : Event O) → Decidable (m.Present id e)
  | .commit _ _ => inferInstanceAs (Decidable (_ → _))
  | .serialize (some _) => inferInstanceAs (Decidable (_ → _))
  | .serialize none | .register _ _ _ | .deregister _ | .modify _ => isTrue trivial

theorem Registered.step (h : m.Registered id) {e : Event O} (hpresent : m.Present id e)
    (hstep : m.step id static e = some m') : m'.Registered id := by
  cases e with
  | register o type version =>
      obtain rfl := Option.some.inj hstep
      exact h.register o type version
  | deregister o =>
      obtain rfl := Option.some.inj hstep
      exact h.deregister o
  | modify o =>
      obtain rfl := Option.some.inj hstep
      exact ⟨h.keys, h.entries, h.distinct⟩
  | commit versions slaves =>
      obtain rfl := Option.some.inj hstep
      exact h.commit static versions hpresent
  | serialize bits =>
      obtain rfl := Option.some.inj hstep
      cases bits with
      | none => exact h
      | some bits => exact h.serialize bits hpresent

/-- The identifiers in the map are those of the registered objects, each with the version and the type
of the object, and an object can be registered if its identifier is not. -/
theorem map_eq_masters {es : List (Event O)}
    (hpresent : Machine.Steps (Master.step id static) (Present id) init es)
    (hrun : Machine.run (Master.step id static) init es = some m) :
    (∀ k, k ∈ m.map ↔ k ∈ m.masters.map id) ∧
    (∀ o ∈ m.masters, m.map.lookup (id o) = some ⟨m.version o, some o, m.type o⟩) ∧
    ∀ o type version, (m.register id o type version).2 = true ↔ id o ∉ m.masters.map id := by
  have h : m.Registered id := Machine.run_invariant (Registered id)
    (fun _ _ _ h hok hstep => h.step hok hstep) registered_init hpresent hrun
  refine ⟨h.keys, h.entries, fun o type version => ?_⟩
  rw [← h.keys]
  by_cases hmem : id o ∈ m.map
  · simp [Master.register, hmem]
  · simp [Master.register, hmem]

/-- Two objects are registered, one of them is changed and the other one deregistered. -/
theorem map_eq_masters_two : ∃ m : Master ℕ ℕ,
    Machine.run (Master.step (fun o => o) (fun _ => false)) init
        [.register 1 7 1, .register 2 8 1, .commit (fun _ => 1) true, .modify 1, .deregister 2,
          .commit (fun _ => 2) true] = some m ∧
      m.masters = [1] ∧ ∀ k, k ∈ m.map ↔ k ∈ m.masters.map (fun o => o) := by
  have h : (Machine.run (Master.step (fun o => o) (fun _ => false)) (init : Master ℕ ℕ)
      [.register 1 7 1, .register 2 8 1, .commit (fun _ => 1) true, .modify 1, .deregister 2,
        .commit (fun _ => 2) true]).map (fun m => decide (m.masters = [1])) = some true := by
    decide +kernel
  obtain ⟨m, hrun, hm⟩ := Option.map_eq_some_iff.1 h
  exact ⟨m, hrun, of_decide_eq_true hm, (map_eq_masters (by decide +kernel) hrun).1⟩

/-- An object is registered and deregistered before a commit. It stays in the map, and cannot be
registered again. -/
theorem ghost_after_commit : ∃ m : Master ℕ ℕ,
    Machine.run (Master.step (fun o => o) (fun _ => false)) init
        [.register 1 7 1, .deregister 1, .commit (fun _ => 1) true] = some m ∧
      m.masters = [] ∧ 1 ∈ m.map ∧ (m.register (fun o => o) 1 7 1).2 = false := by
  have h : (Machine.run (Master.step (fun o => o) (fun _ => false)) (init : Master ℕ ℕ)
      [.register 1 7 1, .deregister 1, .commit (fun _ => 1) true]).map (fun m => decide
        (m.masters = [] ∧ 1 ∈ m.map ∧ (m.register (fun o => o) 1 7 1).2 = false)) = some true := by
    decide +kernel
  obtain ⟨m, hrun, hm⟩ := Option.map_eq_some_iff.1 h
  exact ⟨m, hrun, of_decide_eq_true hm⟩

end Master

end Collage.ObjectMap
