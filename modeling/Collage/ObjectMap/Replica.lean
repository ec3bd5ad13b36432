import Collage.ObjectMap.Deltas

/-!
# A slave that follows the master

The master instance sends the deltas of its commits to a slave instance, which applies them one after
the other. With each delta the instance data of its version are noted: the slave holds what it would
have read from them, as long as no identifier was both added and removed since the last commit, and
the objects that were changed are mapped.
-/

namespace Collage.ObjectMap

variable {K O : Type} [DecidableEq K] [DecidableEq O]

/-- A master instance and a slave instance. -/
structure World (K O : Type) where
  master : Master K O
  /-- The instance data of the last commit. -/
  latest : Data K
  /-- The commits that are to be applied, with their instance data. -/
  queue : List (Delta K × Data K)
  slave : Option (Slave K)
  /-- The instance data of the version that the slave is at. -/
  current : Data K

inductive World.Event (K O : Type)
  | register (o : O) (type version : ℕ)
  | deregister (o : O)
  | modify (o : O)
  | commit (versions : O → ℕ)
  /-- The slave instance is mapped, to the last version. -/
  | join
  /-- The slave instance is unmapped. -/
  | leave
  /-- The slave applies the next delta. -/
  | apply
  | mapObject (k : K) (version : ℕ)
  | unmapObject (k : K)

namespace World

variable (id : O → K) (static : O → Bool)

def init : World K O := ⟨Master.init, [], [], none, []⟩

def commit (w : World K O) (versions : O → ℕ) : World K O :=
  let result := w.master.commit id static versions w.slave.isSome
  { w with
    master := result.1
    latest := if (w.master.commitMasters id static versions).dirty = Dirty.none then w.latest
      else result.1.serializeAll
    queue := w.queue ++ result.2.toList }

def step (w : World K O) : Event K O → Option (World K O)
  | .register o type version => some { w with master := (w.master.register id o type version).1 }
  | .deregister o => some { w with master := (w.master.deregister id o).1 }
  | .modify o =>
      some { w with
        master := { w.master with isDirty := Function.update w.master.isDirty o true } }
  | .commit versions => some (w.commit id static versions)
  | .join =>
      match w.slave with
      | some _ => none
      | none => some { w with
          slave := some (Slave.deserializeAll w.latest), current := w.latest, queue := [] }
  | .leave => some { w with slave := none, queue := [] }
  | .apply =>
      match w.slave, w.queue with
      | some s, (d, data) :: queue =>
          some { w with slave := some (s.deserialize d), current := data, queue := queue }
      | _, _ => none
  | .mapObject k version => some { w with slave := w.slave.map (fun s => s.mapObject k version) }
  | .unmapObject k => some { w with slave := w.slave.map (fun s => s.unmapObject k) }

end World

def Data.view (data : Data K) (k : K) : Option (ℕ × ℕ) := (Slave.deserializeAll data).map.view k

omit [DecidableEq O] in
theorem Master.view_serializeAll (m : Master K O) :
    (Slave.deserializeAll m.serializeAll).failed = false ∧
      Data.view m.serializeAll = m.map.view := by
  have hkeys : m.serializeAll.map Prod.fst = m.map.keys := by
    simp only [serializeAll, List.map_map]
    rfl
  have hnodup : (m.serializeAll.map Prod.fst).Nodup := hkeys ▸ m.map.keys_nodup
  obtain ⟨hfailed, hitems, hother⟩ := Slave.foldl_add (s := ⟨∅, false⟩) hnodup
    (fun item _ => AList.notMem_empty item.1)
  refine ⟨hfailed, funext (fun k => ?_)⟩
  by_cases hk : k ∈ m.map
  · obtain ⟨e, he⟩ := Option.isSome_iff_exists.1 (AList.lookup_isSome.2 hk)
    have hitem : (k, e.version, e.type) ∈ m.serializeAll :=
      List.mem_map.2 ⟨⟨k, e⟩, AList.mem_lookup_iff.1 he, rfl⟩
    have hvalue := hitems _ hitem
    rw [Data.view, Map.view, Slave.deserializeAll, hvalue, Map.view, he]
    rfl
  · have hvalue := hother k (by rw [hkeys]; exact hk)
    rw [Data.view, Map.view, Slave.deserializeAll, hvalue, Map.view_eq_none.2 hk]
    rfl

namespace Master

variable {id : O → K} {static : O → Bool} {m : Master K O}

/-- The commit of objects changes the versions of some identifiers in the map. -/
def Updated (m m' : Master K O) : Prop :=
  ∃ items, m'.changed = m.changed ++ items ∧
    (∀ item ∈ items, ∃ version type, m.map.view item.1 = some (version, type) ∧
      version ≠ item.2 ∧ m'.map.view item.1 = some (item.2, type)) ∧
    ∀ k, k ∉ items.map Prod.fst → m'.map.view k = m.map.view k

theorem Registered.updated_commitMaster (h : m.Registered id) (static : O → Bool) {o : O}
    (ho : o ∈ m.masters) (versions : O → ℕ) :
    Updated m (Master.commitMaster id static versions m o) ∧
      ∀ k, k ≠ id o → (Master.commitMaster id static versions m o).map.view k = m.map.view k := by
  obtain ⟨htouch, hat⟩ := h.touch ho
  simp only [Master.commitMaster, htouch, hat]
  split_ifs with hskip hsame
  · exact ⟨⟨[], (List.append_nil _).symm, fun _ hitem => absurd hitem List.not_mem_nil,
      fun _ _ => rfl⟩, fun _ _ => rfl⟩
  · exact ⟨⟨[], (List.append_nil _).symm, fun _ hitem => absurd hitem List.not_mem_nil,
      fun _ _ => rfl⟩, fun _ _ => rfl⟩
  · refine ⟨⟨[(id o, versions o)], rfl, fun item hitem => ?_, fun k hk => ?_⟩, fun k hk => ?_⟩
    · obtain rfl := List.mem_singleton.1 hitem
      refine ⟨m.version o, m.type o, ?_, hsame, ?_⟩
      · rw [Map.view, h.entries o ho]
        rfl
      · exact Map.view_insert.trans (if_pos rfl)
    · exact Map.view_insert.trans (if_neg (fun heq => hk (List.mem_singleton.2 heq)))
    · exact Map.view_insert.trans (if_neg hk)

theorem Registered.foldl_updated (h : m.Registered id) (static : O → Bool) {os : List O}
    (hos : ∀ o ∈ os, o ∈ m.masters) (hnodup : (os.map id).Nodup) (versions : O → ℕ) :
    Updated m (os.foldl (Master.commitMaster id static versions) m) ∧
      ∀ k, k ∉ os.map id →
        (os.foldl (Master.commitMaster id static versions) m).map.view k = m.map.view k := by
  induction os generalizing m with
  | nil => exact ⟨⟨[], (List.append_nil _).symm, nofun, fun _ _ => rfl⟩, fun _ _ => rfl⟩
  | cons o os ih =>
      have ho := hos o List.mem_cons_self
      rw [List.map_cons, List.nodup_cons] at hnodup
      obtain ⟨⟨items, hitems, hchanged, hsame⟩, hother⟩ := h.updated_commitMaster static ho versions
      obtain ⟨⟨items', hitems', hchanged', hsame'⟩, hother'⟩ :=
        ih (h.commitMaster static ho versions) (fun o' ho' => by
          rw [(framed_commitMaster id static versions m o).masters]
          exact hos o' (List.mem_cons_of_mem _ ho')) hnodup.2
      refine ⟨⟨items ++ items', ?_, fun item hitem => ?_, fun k hk => ?_⟩, fun k hk => ?_⟩
      · rw [List.foldl_cons, hitems', hitems, List.append_assoc]
      · rcases List.mem_append.1 hitem with hitem | hitem
        · obtain ⟨version, type, hold, hne, hnew⟩ := hchanged item hitem
          have hkey : item.1 = id o := by
            by_contra hkey
            rw [hother _ hkey, hold, Option.some.injEq, Prod.mk.injEq] at hnew
            exact hne hnew.1
          exact ⟨version, type, hold, hne, (hother' _ (hkey ▸ hnodup.1)).trans hnew⟩
        · obtain ⟨version, type, hold, hne, hnew⟩ := hchanged' item hitem
          have hkey : item.1 ∈ os.map id := by
            by_contra hkey
            rw [hother' _ hkey, hold, Option.some.injEq, Prod.mk.injEq] at hnew
            exact hne hnew.1
          have hfirst := hother item.1 (fun heq => hnodup.1 (heq ▸ hkey))
          exact ⟨version, type, hfirst ▸ hold, hne, hnew⟩
      · rw [List.map_append, List.mem_append, not_or] at hk
        rw [List.foldl_cons, hsame' k hk.2, hsame k hk.1]
      · rw [List.map_cons, List.mem_cons, not_or] at hk
        rw [List.foldl_cons, hother' k hk.2, hother k hk.1]

/-- No identifier was both added and removed since the last commit. -/
def Separate (m : Master K O) : Prop := ∀ k ∈ m.added, k ∉ m.removed

instance (m : Master K O) : Decidable m.Separate := inferInstanceAs (Decidable (∀ k ∈ m.added, _))

/-- What was added and removed leads from the data of the last commit to the map. -/
structure Since (m : Master K O) (view : K → Option (ℕ × ℕ)) : Prop where
  addedNodup : m.added.Nodup
  added : ∀ k ∈ m.added, view k = none ∧ k ∈ m.map
  removedNodup : m.removed.Nodup
  removed : ∀ k ∈ m.removed, view k ≠ none ∧ k ∉ m.map
  same : ∀ k, k ∉ m.added → k ∉ m.removed → m.map.view k = view k

/-- The state between the calls of a master instance. -/
structure Pending (m : Master K O) (view : K → Option (ℕ × ℕ)) : Prop where
  addedBit : m.added ≠ [] → m.dirty.added = true
  removedBit : m.removed ≠ [] → m.dirty.removed = true
  changed : m.changed = []
  present : ∀ k ∈ m.added, k ∈ m.removed ∨ k ∈ m.map
  since : m.Separate → m.Since view

namespace Pending

variable {view : K → Option (ℕ × ℕ)}

omit [DecidableEq O] in
/-- Nothing was added or removed since the last commit. -/
theorem of_nil (hadded : m.added = []) (hremoved : m.removed = []) (hchanged : m.changed = [])
    (hview : ∀ k, m.map.view k = view k) : m.Pending view where
  addedBit := fun h => absurd hadded h
  removedBit := fun h => absurd hremoved h
  changed := hchanged
  present := fun k hk => by
    rw [hadded] at hk
    cases hk
  since := fun _ => by
    refine ⟨hadded ▸ List.nodup_nil, fun k hk => ?_, hremoved ▸ List.nodup_nil, fun k hk => ?_,
      fun k _ _ => hview k⟩
    · rw [hadded] at hk
      cases hk
    · rw [hremoved] at hk
      cases hk

theorem register (h : m.Pending view) (o : O) (type version : ℕ) :
    (m.register id o type version).1.Pending view := by
  unfold Master.register
  split_ifs with hmem
  · exact h
  · refine ⟨fun _ => rfl, h.removedBit, h.changed, fun k hk => ?_, fun hsep => ?_⟩
    · rcases List.mem_append.1 hk with hk | hk
      · exact (h.present k hk).imp_right (fun hk => (AList.mem_insert _).2 (Or.inr hk))
      · exact Or.inr ((AList.mem_insert _).2 (Or.inl (List.mem_singleton.1 hk)))
    · have hnotRemoved : id o ∉ m.removed :=
        hsep (id o) (List.mem_append_right _ (List.mem_singleton_self _))
      have hsince := h.since (fun k hk => hsep k (List.mem_append_left _ hk))
      have hnotAdded : id o ∉ m.added := fun hk => hmem (hsince.added _ hk).2
      refine ⟨?_, fun k hk => ?_, hsince.removedNodup, fun k hk => ?_, fun k hadded hremoved => ?_⟩
      · exact List.nodup_append_comm.1 (List.nodup_cons.2 ⟨hnotAdded, hsince.addedNodup⟩)
      · rcases List.mem_append.1 hk with hk | hk
        · exact ⟨(hsince.added k hk).1, (AList.mem_insert _).2 (Or.inr (hsince.added k hk).2)⟩
        · obtain rfl := List.mem_singleton.1 hk
          refine ⟨?_, (AList.mem_insert _).2 (Or.inl rfl)⟩
          rw [← hsince.same _ hnotAdded hnotRemoved, Map.view_eq_none]
          exact hmem
      · refine ⟨(hsince.removed k hk).1, fun hin => ?_⟩
        rcases (AList.mem_insert _).1 hin with rfl | hin
        · exact hnotRemoved hk
        · exact (hsince.removed k hk).2 hin
      · have hne : k ≠ id o := fun heq =>
          hadded (List.mem_append_right _ (List.mem_singleton.2 heq))
        exact (Map.view_insert.trans (if_neg hne)).trans
          (hsince.same k (fun hk => hadded (List.mem_append_left _ hk)) hremoved)

theorem deregister (h : m.Pending view) (o : O) : (m.deregister id o).1.Pending view := by
  unfold Master.deregister
  split_ifs with hmem
  · have hin {k : K} (hk : k ∈ m.map) (hne : k ≠ id o) : k ∈ m.map.erase (id o) :=
      AList.mem_erase.2 ⟨hne, hk⟩
    refine ⟨h.addedBit, fun _ => rfl, h.changed, fun k hk => ?_, fun hsep => ?_⟩
    · rcases eq_or_ne k (id o) with rfl | hne
      · exact Or.inl (List.mem_append_right _ (List.mem_singleton_self _))
      · exact (h.present k hk).imp (List.mem_append_left _) (fun hk => hin hk hne)
    · have hnotAdded : id o ∉ m.added := fun hk =>
        hsep _ hk (List.mem_append_right _ (List.mem_singleton_self _))
      have hsince := h.since (fun k hk hr => hsep k hk (List.mem_append_left _ hr))
      have hnotRemoved : id o ∉ m.removed := fun hk => (hsince.removed _ hk).2 hmem.1
      refine ⟨hsince.addedNodup, fun k hk => ?_, ?_, fun k hk => ?_, fun k hadded hremoved => ?_⟩
      · refine ⟨(hsince.added k hk).1, hin (hsince.added k hk).2 ?_⟩
        rintro rfl
        exact hnotAdded hk
      · exact List.nodup_append_comm.1 (List.nodup_cons.2 ⟨hnotRemoved, hsince.removedNodup⟩)
      · rcases List.mem_append.1 hk with hk | hk
        · exact ⟨(hsince.removed k hk).1,
            fun hin => (hsince.removed k hk).2 (AList.mem_erase.1 hin).2⟩
        · obtain rfl := List.mem_singleton.1 hk
          refine ⟨?_, fun hin => (AList.mem_erase.1 hin).1 rfl⟩
          rw [← hsince.same _ hnotAdded hnotRemoved, Ne, Map.view_eq_none, not_not]
          exact hmem.1
      · have hne : k ≠ id o := fun heq =>
          hremoved (List.mem_append_right _ (List.mem_singleton.2 heq))
        rw [Map.view, AList.lookup_erase_ne hne]
        exact hsince.same k hadded (fun hk => hremoved (List.mem_append_left _ hk))
  · exact h

end Pending

theorem Registered.updated_commitMasters (h : m.Registered id) (static : O → Bool)
    (versions : O → ℕ) : Updated m (m.commitMasters id static versions) := by
  have hfold := (h.foldl_updated static (fun _ ho => ho) h.distinct versions).1
  simp only [Master.commitMasters]
  split_ifs
  · exact hfold
  · exact hfold

section Commit

variable {view : K → Option (ℕ × ℕ)}

theorem Registered.mem_commitMasters (h : m.Registered id) (static : O → Bool) (versions : O → ℕ)
    (k : K) : k ∈ (m.commitMasters id static versions).map ↔ k ∈ m.map := by
  rw [(h.commitMasters static versions).keys, h.keys,
    (framed_commitMasters id static versions m).masters]

theorem Pending.serialize (h : m.Pending view) (hreg : m.Registered id) (hsep : m.Separate)
    (static : O → Bool) (versions : O → ℕ) {m₁ : Master K O}
    (hm₁ : m.commitMasters id static versions = m₁) :
    (m₁.serialize m₁.dirty).1 = m₁ ∧ (m₁.serialize m₁.dirty).2 =
      { added := m.added.map (fun k => (k, (m₁.map.at k).version, (m₁.map.at k).type))
        removed := m.removed
        changed := m₁.changed } := by
  have hframed := framed_commitMasters id static versions m
  have hpresent : ∀ k ∈ m.added, k ∈ m₁.map := fun k hk =>
    hm₁ ▸ (hreg.mem_commitMasters static versions k).2 ((h.since hsep).added k hk).2
  have hmap : (if m₁.dirty.added then m₁.added.foldl Map.touch m₁.map else m₁.map) = m₁.map := by
    rw [← hm₁, hframed.added, hm₁, Map.foldl_touch hpresent, ite_self]
  have hchanged : (if m₁.dirty.changed then m₁.changed else []) = m₁.changed := by
    rcases eq_or_ne m₁.changed [] with hnil | hne
    · rw [hnil, ite_self]
    · rw [if_pos]
      rw [← hm₁] at hne ⊢
      simp only [Master.commitMasters] at hne ⊢
      split_ifs at hne ⊢ with hempty
      · rfl
      · exact absurd hne hempty
  have hadded : m₁.added ≠ [] → m₁.dirty.added = true := by
    rw [← hm₁, hframed.added, hframed.dirtyAdded]
    exact h.addedBit
  have hremoved : m₁.removed ≠ [] → m₁.dirty.removed = true := by
    rw [← hm₁, hframed.removed, hframed.dirtyRemoved]
    exact h.removedBit
  rw [← hframed.added, ← hframed.removed, hm₁]
  simp only [Master.serialize, hmap, hchanged, true_and]
  congr 1
  · rcases eq_or_ne m₁.added [] with hnil | hne
    · rw [hnil, List.map_nil, ite_self]
    · rw [if_pos (hadded hne)]
  · rcases eq_or_ne m₁.removed [] with hnil | hne
    · rw [hnil, ite_self]
    · rw [if_pos (hremoved hne)]

theorem Pending.carries (h : m.Pending view) (hreg : m.Registered id) (hsep : m.Separate)
    (static : O → Bool) (versions : O → ℕ) {m₁ : Master K O}
    (hm₁ : m.commitMasters id static versions = m₁) :
    (m₁.serialize m₁.dirty).2.Carries view m₁.map.view := by
  have hsince := h.since hsep
  have hmem (k : K) : k ∈ m₁.map ↔ k ∈ m.map := hm₁ ▸ hreg.mem_commitMasters static versions k
  obtain ⟨items, hitems, hchanged, hsame⟩ := hreg.updated_commitMasters static versions
  rw [h.changed, List.nil_append] at hitems
  rw [(h.serialize hreg hsep static versions hm₁).2, ← hm₁, hitems, hm₁]
  rw [hm₁] at hchanged hsame
  have hkeys : (m.added.map (fun k => (k, (m₁.map.at k).version, (m₁.map.at k).type))).map Prod.fst =
      m.added := by
    rw [List.map_map]
    exact List.map_id _
  refine ⟨?_, fun item hitem => ?_, hsince.removedNodup, fun k hk => ?_, fun item hitem => ?_,
    fun k hk hr hc => ?_⟩
  · rw [hkeys]
    exact hsince.addedNodup
  · obtain ⟨k, hk, rfl⟩ := List.mem_map.1 hitem
    exact ⟨(hsince.added k hk).1, Map.view_at ((hmem k).2 (hsince.added k hk).2)⟩
  · refine ⟨(hsince.removed k hk).1, Map.view_eq_none.2 (fun hk' => ?_)⟩
    exact (hsince.removed k hk).2 ((hmem k).1 hk')
  · obtain ⟨version, type, hold, -, hnew⟩ := hchanged item hitem
    refine ⟨type, hnew, fun hadded => ⟨version, ?_⟩⟩
    rw [hkeys] at hadded
    rw [← hsince.same item.1 hadded (fun hr => ?_), hold]
    exact (hsince.removed _ hr).2 (Map.view_isSome.1 (hold ▸ rfl))
  · rw [hkeys] at hk
    rw [hsame k hc, hsince.same k hk hr]

theorem Pending.view_eq_of_clean (h : m.Pending view) (hreg : m.Registered id) (static : O → Bool)
    (versions : O → ℕ) (hclean : (m.commitMasters id static versions).dirty = Dirty.none) (k : K) :
    (m.commitMasters id static versions).map.view k = view k := by
  have hframed := framed_commitMasters id static versions m
  have hadded : m.added = [] := by
    by_contra hne
    have hbit := h.addedBit hne
    rw [← hframed.dirtyAdded, hclean] at hbit
    cases hbit
  have hremoved : m.removed = [] := by
    by_contra hne
    have hbit := h.removedBit hne
    rw [← hframed.dirtyRemoved, hclean] at hbit
    cases hbit
  obtain ⟨items, hitems, -, hsame⟩ := hreg.updated_commitMasters static versions
  have hnil : items = [] := by
    rw [h.changed, List.nil_append] at hitems
    rw [← hitems]
    by_contra hne
    simp only [Master.commitMasters] at hne hclean
    split_ifs at hne hclean with hempty
    · cases congrArg Dirty.changed hclean
    · exact absurd hne hempty
  rw [hsame k (hnil ▸ List.not_mem_nil)]
  have hsince := h.since (fun k hk => by
    rw [hadded] at hk
    cases hk)
  exact hsince.same k (hadded ▸ List.not_mem_nil) (hremoved ▸ List.not_mem_nil)

theorem commit_sent {versions : O → ℕ} {slaves : Bool} {m₁ : Master K O}
    (hm₁ : m.commitMasters id static versions = m₁) (h : slaves = true ∧ m₁.dirty ≠ Dirty.none) :
    (m.commit id static versions slaves).1.map = (m₁.serialize m₁.dirty).1.map ∧
      (m.commit id static versions slaves).2 =
        some ((m₁.serialize m₁.dirty).2, (m.commit id static versions slaves).1.serializeAll) := by
  simp only [Master.commit, hm₁, if_pos h, Option.map_some, true_and]
  rfl

theorem commit_unsent {versions : O → ℕ} {slaves : Bool} {m₁ : Master K O}
    (hm₁ : m.commitMasters id static versions = m₁)
    (h : ¬(slaves = true ∧ m₁.dirty ≠ Dirty.none)) :
    (m.commit id static versions slaves).1.map = m₁.map ∧
      (m.commit id static versions slaves).2 = none := by
  simp only [Master.commit, hm₁, if_neg h, Option.map_none, and_self]

end Commit

end Master

namespace Slave

variable (s : Slave K) (k : K)

theorem view_mapObject (version : ℕ) (k' : K) :
    (s.mapObject k version).map.view k' = s.map.view k' := by
  unfold mapObject
  split
  · rfl
  · rename_i entry hentry
    split
    · rfl
    · refine Map.view_insert.trans ?_
      split_ifs with hk
      · rw [hk, Map.view, hentry]
        rfl
      · rfl

theorem failed_mapObject (version : ℕ) : (s.mapObject k version).failed = s.failed := by
  unfold mapObject
  split
  · rfl
  · split <;> rfl

theorem view_unmapObject (k' : K) : (s.unmapObject k).map.view k' = s.map.view k' := by
  unfold unmapObject
  split
  · rfl
  · rename_i entry hentry
    refine Map.view_insert.trans ?_
    split_ifs with hk
    · rw [hk, Map.view, hentry]
      rfl
    · rfl

theorem failed_unmapObject : (s.unmapObject k).failed = s.failed := by
  unfold unmapObject
  split <;> rfl

end Slave

namespace World

variable {id : O → K} {static : O → Bool} {w w' : World K O}

/-- The deltas lead from the data of one version to those of another one. -/
def Chain : Data K → List (Delta K × Data K) → Data K → Prop
  | data, [], latest => data = latest
  | data, (d, data') :: queue, latest =>
      d.Carries data.view data'.view ∧ Chain data' queue latest

omit [DecidableEq O] in
theorem Chain.snoc {data latest latest' : Data K} {queue : List (Delta K × Data K)} {d : Delta K}
    (h : Chain data queue latest) (hd : d.Carries latest.view latest'.view) :
    Chain data (queue ++ [(d, latest')]) latest' := by
  induction queue generalizing data with
  | nil =>
      obtain rfl : data = latest := h
      exact ⟨hd, rfl⟩
  | cons first queue ih => exact ⟨h.1, ih h.2⟩

/-- The slave holds the data of its version, from which the deltas lead to the last commit. -/
structure Follows (id : O → K) (w : World K O) : Prop where
  registered : w.master.Registered id
  pending : w.master.Pending w.latest.view
  latest : (Slave.deserializeAll w.latest).failed = false
  slave : ∀ s ∈ w.slave, s.failed = false ∧ ∀ k, s.map.view k = w.current.view k
  chain : w.slave.isSome = true → Chain w.current w.queue w.latest

omit [DecidableEq O] in
theorem follows_init : (init : World K O).Follows id where
  registered := Master.registered_init
  pending := Master.Pending.of_nil rfl rfl rfl (fun _ => rfl)
  latest := rfl
  slave := nofun
  chain := nofun

/-- A commit for a slave is made only with different identifiers added and removed. A delta is applied
only while the objects it changes are mapped. -/
def Followable (w : World K O) : Event K O → Prop
  | .commit _ => w.slave.isSome = true → w.master.Separate
  | .apply => ∀ s ∈ w.slave, ∀ item ∈ w.queue.head?, s.Mapped item.1
  | _ => True

instance decidableFollowable (w : World K O) : (e : Event K O) → Decidable (w.Followable e)
  | .commit _ => inferInstanceAs (Decidable (_ → _))
  | .apply => inferInstanceAs (Decidable (∀ s ∈ w.slave, ∀ item ∈ w.queue.head?, _))
  | .register _ _ _ | .deregister _ | .modify _ | .join | .leave | .mapObject _ _
  | .unmapObject _ => isTrue trivial

namespace Follows

theorem commit (h : w.Follows id) (versions : O → ℕ)
    (hsep : w.slave.isSome = true → w.master.Separate) :
    (w.commit id static versions).Follows id := by
  obtain ⟨m₁, hm₁⟩ : ∃ m₁, w.master.commitMasters id static versions = m₁ := ⟨_, rfl⟩
  obtain ⟨r, hr⟩ : ∃ r, w.master.commit id static versions w.slave.isSome = r := ⟨_, rfl⟩
  have hregistered : r.1.Registered id := hr ▸ h.registered.commit static versions
    (fun hslave k hk => (h.registered.keys k).1 ((h.pending.since (hsep hslave)).added k hk).2)
  obtain ⟨hread, hview⟩ := r.1.view_serializeAll
  have hempty : r.1.added = [] ∧ r.1.removed = [] ∧ r.1.changed = [] := by
    rw [← hr]
    exact ⟨rfl, rfl, rfl⟩
  by_cases hclean : m₁.dirty = Dirty.none
  · have hunsent : ¬(w.slave.isSome = true ∧ m₁.dirty ≠ Dirty.none) := fun hsent => hsent.2 hclean
    obtain ⟨hmap, hnone⟩ := Master.commit_unsent hm₁ hunsent
    rw [hr] at hmap hnone
    have hw : w.commit id static versions = { w with master := r.1 } := by
      simp only [World.commit, hm₁, hr, if_pos hclean, hnone, Option.toList_none, List.append_nil]
    have hsame := h.pending.view_eq_of_clean h.registered static versions (hm₁.symm ▸ hclean)
    rw [hm₁, ← hmap] at hsame
    rw [hw]
    exact ⟨hregistered, Master.Pending.of_nil hempty.1 hempty.2.1 hempty.2.2 hsame, h.latest, h.slave,
      h.chain⟩
  · have hpending : r.1.Pending r.1.serializeAll.view :=
      Master.Pending.of_nil hempty.1 hempty.2.1 hempty.2.2 (fun k => congrFun hview.symm k)
    have hw : w.commit id static versions = { w with
        master := r.1
        latest := r.1.serializeAll
        queue := w.queue ++ r.2.toList } := by
      simp only [World.commit, hm₁, hr, if_neg hclean]
    rw [hw]
    refine ⟨hregistered, hpending, hread, h.slave, fun hslave => ?_⟩
    obtain ⟨hmap, hsome⟩ := Master.commit_sent hm₁ ⟨hslave, hclean⟩
    rw [hr] at hmap hsome
    have hcarries := h.pending.carries h.registered (hsep hslave) static versions hm₁
    rw [(h.pending.serialize h.registered (hsep hslave) static versions hm₁).1] at hmap
    rw [← hmap, ← hview] at hcarries
    rw [hsome]
    exact (h.chain hslave).snoc hcarries

omit [DecidableEq O] in
theorem slave_map (h : w.Follows id) {f : Slave K → Slave K}
    (hfailed : ∀ s, (f s).failed = s.failed) (hview : ∀ s k, (f s).map.view k = s.map.view k) :
    { w with slave := w.slave.map f }.Follows id := by
  refine ⟨h.registered, h.pending, h.latest, fun s hs => ?_, fun hslave => ?_⟩
  · obtain ⟨s₀, hs₀, rfl⟩ := Option.map_eq_some_iff.1 hs
    obtain ⟨hold, hviews⟩ := h.slave s₀ hs₀
    exact ⟨(hfailed s₀).trans hold, fun k => (hview s₀ k).trans (hviews k)⟩
  · rw [Option.isSome_map] at hslave
    exact h.chain hslave

theorem step (h : w.Follows id) {e : Event K O} (hok : w.Followable e)
    (hstep : w.step id static e = some w') : w'.Follows id := by
  cases e with
  | register o type version =>
      obtain rfl := Option.some.inj hstep
      exact ⟨h.registered.register o type version, h.pending.register o type version, h.latest,
        h.slave,
        h.chain⟩
  | deregister o =>
      obtain rfl := Option.some.inj hstep
      exact ⟨h.registered.deregister o, h.pending.deregister o, h.latest, h.slave, h.chain⟩
  | modify o =>
      obtain rfl := Option.some.inj hstep
      have hreg := h.registered
      have hpending := h.pending
      exact ⟨⟨hreg.keys, hreg.entries, hreg.distinct⟩,
        ⟨hpending.addedBit, hpending.removedBit, hpending.changed, hpending.present,
          fun hsep => ⟨(hpending.since hsep).addedNodup, (hpending.since hsep).added,
            (hpending.since hsep).removedNodup, (hpending.since hsep).removed,
            (hpending.since hsep).same⟩⟩, h.latest, h.slave, h.chain⟩
  | commit versions =>
      obtain rfl := Option.some.inj hstep
      exact h.commit versions hok
  | join =>
      simp only [World.step] at hstep
      split at hstep
      · cases hstep
      · obtain rfl := Option.some.inj hstep
        refine ⟨h.registered, h.pending, h.latest, fun s hs => ?_, fun _ => rfl⟩
        obtain rfl := Option.some.inj hs
        exact ⟨h.latest, fun _ => rfl⟩
  | leave =>
      obtain rfl := Option.some.inj hstep
      exact ⟨h.registered, h.pending, h.latest, nofun, nofun⟩
  | apply =>
      simp only [World.step] at hstep
      split at hstep
      · rename_i s d data queue hs hqueue
        obtain rfl := Option.some.inj hstep
        have hchain := h.chain (hs ▸ rfl)
        rw [hqueue] at hchain
        obtain ⟨hfailed, hview⟩ := h.slave s hs
        have hmapped : s.Mapped d := hok s hs (d, data) (hqueue ▸ rfl)
        obtain ⟨hnext, hnextView⟩ := Slave.view_deserialize hview hchain.1 hmapped
        refine ⟨h.registered, h.pending, h.latest, fun s' hs' => ?_, fun _ => hchain.2⟩
        obtain rfl := Option.some.inj hs'
        exact ⟨hnext.trans hfailed, hnextView⟩
      · cases hstep
  | mapObject k version =>
      obtain rfl := Option.some.inj hstep
      exact h.slave_map (fun s => s.failed_mapObject k version) (fun s => s.view_mapObject k version)
  | unmapObject k =>
      obtain rfl := Option.some.inj hstep
      exact h.slave_map (fun s => s.failed_unmapObject k) (fun s => s.view_unmapObject k)

end Follows

/-- The slave holds the identifiers of its version with their types and versions, as read from the
instance data, and no assertion fails. After the last commit, they are those of the master. -/
theorem replica_agrees {es : List (Event K O)}
    (hok : Machine.Steps (World.step id static) Followable init es)
    (hrun : Machine.run (World.step id static) init es = some w) {s : Slave K}
    (hs : w.slave = some s) :
    s.failed = false ∧ (∀ k, s.map.view k = (Slave.deserializeAll w.current).map.view k) ∧
      (w.queue = [] → w.master.added = [] → w.master.removed = [] →
        ∀ k, s.map.view k = w.master.map.view k) := by
  have h : w.Follows id := Machine.run_invariant (Follows id)
    (fun _ _ _ h hok hstep => h.step hok hstep) follows_init hok hrun
  obtain ⟨hfailed, hview⟩ := h.slave s hs
  refine ⟨hfailed, hview, fun hqueue hadded hremoved k => ?_⟩
  have hchain := h.chain (hs ▸ rfl)
  rw [hqueue] at hchain
  have hlatest : w.current = w.latest := hchain
  have hsince := h.pending.since (fun k hk => by
    rw [hadded] at hk
    cases hk)
  rw [hview, hlatest, hsince.same k (hadded ▸ List.not_mem_nil) (hremoved ▸ List.not_mem_nil)]

/-- A slave follows a commit of an object that it has mapped, and of one that is added. -/
theorem replica_agrees_mapped : ∃ (w : World ℕ ℕ) (s : Slave ℕ),
    Machine.run (World.step (fun o => o) (fun _ => false)) init
        [.register 1 7 1, .commit (fun _ => 1), .join, .mapObject 1 1, .modify 1, .register 2 8 1,
          .commit (fun _ => 2), .apply] = some w ∧ w.slave = some s ∧
      s.map.view 1 = some (2, 7) ∧ s.failed = false ∧ ∀ k, s.map.view k = w.master.map.view k := by
  have h : (Machine.run (World.step (fun o => o) (fun _ => false)) (init : World ℕ ℕ)
      [.register 1 7 1, .commit (fun _ => 1), .join, .mapObject 1 1, .modify 1, .register 2 8 1,
        .commit (fun _ => 2), .apply]).map (fun w => decide (w.slave.isSome = true ∧
          (∀ s ∈ w.slave, s.map.view 1 = some (2, 7)) ∧ w.queue.length = 0 ∧ w.master.added = [] ∧
          w.master.removed = [])) = some true := by
    decide +kernel
  obtain ⟨w, hrun, hw⟩ := Option.map_eq_some_iff.1 h
  obtain ⟨hslave, hversion, hqueue, hadded, hremoved⟩ := of_decide_eq_true hw
  obtain ⟨s, hs⟩ := Option.isSome_iff_exists.1 hslave
  obtain ⟨hfailed, -, hmaster⟩ := replica_agrees (by decide +kernel) hrun hs
  exact ⟨w, s, hrun, hs, hversion s hs, hfailed,
    hmaster (List.length_eq_zero_iff.1 hqueue) hadded hremoved⟩

/-- A slave does not note the new version of an object that it has not mapped. It has lost an object
that was deregistered and registered again before a commit. -/
theorem replica_differs :
    (∃ (w : World ℕ ℕ) (s : Slave ℕ),
      Machine.run (World.step (fun o => o) (fun _ => false)) init
          [.register 1 7 1, .commit (fun _ => 1), .join, .modify 1, .commit (fun _ => 2),
            .apply] = some w ∧ w.slave = some s ∧
        s.map.view 1 = some (1, 7) ∧ (Slave.deserializeAll w.current).map.view 1 = some (2, 7)) ∧
    ∃ (w : World ℕ ℕ) (s : Slave ℕ),
      Machine.run (World.step (fun o => o) (fun _ => false)) init
          [.register 1 7 1, .commit (fun _ => 1), .join, .deregister 1, .register 1 7 2,
            .commit (fun _ => 2), .apply] = some w ∧ w.slave = some s ∧
        s.failed = true ∧ s.map.view 1 = none ∧
        (Slave.deserializeAll w.current).map.view 1 = some (2, 7) := by
  have h : (Machine.run (World.step (fun o => o) (fun _ => false)) (init : World ℕ ℕ)
      [.register 1 7 1, .commit (fun _ => 1), .join, .modify 1, .commit (fun _ => 2),
        .apply]).map (fun w => decide (w.slave.isSome = true ∧
          (∀ s ∈ w.slave, s.map.view 1 = some (1, 7)) ∧
          (Slave.deserializeAll w.current).map.view 1 = some (2, 7))) = some true := by
    decide +kernel
  have h' : (Machine.run (World.step (fun o => o) (fun _ => false)) (init : World ℕ ℕ)
      [.register 1 7 1, .commit (fun _ => 1), .join, .deregister 1, .register 1 7 2,
        .commit (fun _ => 2), .apply]).map (fun w => decide (w.slave.isSome = true ∧
          (∀ s ∈ w.slave, s.failed = true ∧ s.map.view 1 = none) ∧
          (Slave.deserializeAll w.current).map.view 1 = some (2, 7))) = some true := by
    decide +kernel
  obtain ⟨w, hrun, hw⟩ := Option.map_eq_some_iff.1 h
  obtain ⟨hslave, hversion, hdata⟩ := of_decide_eq_true hw
  obtain ⟨s, hs⟩ := Option.isSome_iff_exists.1 hslave
  obtain ⟨w', hrun', hw'⟩ := Option.map_eq_some_iff.1 h'
  obtain ⟨hslave', hlost, hdata'⟩ := of_decide_eq_true hw'
  obtain ⟨s', hs'⟩ := Option.isSome_iff_exists.1 hslave'
  exact ⟨⟨w, s, hrun, hs, hversion s hs, hdata⟩,
    w', s', hrun', hs', (hlost s' hs').1, (hlost s' hs').2, hdata'⟩

end World

end Collage.ObjectMap
