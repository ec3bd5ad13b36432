import Collage.ObjectMap.Registered

/-!
# The maps of the slaves

A slave instance starts from the instance data of a version and applies the deltas of the later
commits. The versions of changed objects are those that their instances on the slave are synchronised
to, so that they are not noted for objects that are not mapped.
-/

namespace Collage.ObjectMap

variable {K O : Type} [DecidableEq K]

/-- A slave instance. The objects are instances with a version; an assertion may fail. -/
structure Slave (K : Type) where
  map : Map K ℕ
  failed : Bool

namespace Slave

variable (s : Slave K)

def add (item : K × ℕ × ℕ) : Slave K where
  map := (s.map.touch item.1).insert item.1
    { (s.map.touch item.1).at item.1 with version := item.2.1, type := item.2.2 }
  failed := s.failed || decide (item.1 ∈ s.map)

def remove (k : K) : Slave K where
  map := s.map.erase k
  failed := s.failed || decide (k ∉ s.map)

/-- A new version. An instance that is not newer is synchronised to it. -/
def change (item : K × ℕ) : Slave K :=
  let map := s.map.touch item.1
  let failed := s.failed || decide (item.1 ∉ s.map)
  match (map.at item.1).object with
  | none => ⟨map, failed⟩
  | some version =>
      if item.2 < version then ⟨map, failed⟩
      else
        ⟨map.insert item.1 { map.at item.1 with version := item.2, object := some item.2 }, failed⟩

/-- `deserialize` with `DIRTY_ALL`, of a new instance. -/
def deserializeAll (data : Data K) : Slave K := data.foldl add ⟨∅, false⟩

/-- `deserialize` with other dirty bits. -/
def deserialize (delta : Delta K) : Slave K :=
  delta.changed.foldl change (delta.removed.foldl remove (delta.added.foldl add s))

/-- `map`, where the instance is mapped to `version`. -/
def mapObject (k : K) (version : ℕ) : Slave K :=
  match s.map.lookup k with
  | none => s
  | some entry =>
      match entry.object with
      | some _ => s
      | none => { s with map := s.map.insert k { entry with object := some version } }

/-- `unmap`. -/
def unmapObject (k : K) : Slave K :=
  match s.map.lookup k with
  | none => s
  | some entry => { s with map := s.map.insert k { entry with object := none } }

end Slave

def Map.view {I : Type} (map : Map K I) (k : K) : Option (ℕ × ℕ) :=
  (map.lookup k).map (fun e => (e.version, e.type))

namespace Map

variable {I : Type} {map : Map K I} {k k' : K} {e : Entry I}

theorem view_isSome : (map.view k).isSome = true ↔ k ∈ map := by
  rw [view, Option.isSome_map, AList.lookup_isSome]

theorem view_eq_none : map.view k = none ↔ k ∉ map := by
  rw [view, Option.map_eq_none_iff, AList.lookup_eq_none]

theorem view_insert : Map.view (map.insert k' e) k =
    if k = k' then some (e.version, e.type) else map.view k := by
  unfold view
  split_ifs with hk
  · rw [hk, AList.lookup_insert, Option.map_some]
  · rw [AList.lookup_insert_ne hk]

theorem view_at (h : k ∈ map) : map.view k = some ((map.at k).version, (map.at k).type) := by
  obtain ⟨e, he⟩ := Option.isSome_iff_exists.1 (AList.lookup_isSome.2 h)
  rw [view, Map.at, he]
  rfl

end Map

/-- A delta leads from the data of a version to those of the next one. -/
structure Delta.Carries (view : K → Option (ℕ × ℕ)) (d : Delta K) (view' : K → Option (ℕ × ℕ)) :
    Prop where
  addedNodup : (d.added.map Prod.fst).Nodup
  added : ∀ item ∈ d.added, view item.1 = none ∧ view' item.1 = some item.2
  removedNodup : d.removed.Nodup
  removed : ∀ k ∈ d.removed, view k ≠ none ∧ view' k = none
  changed : ∀ item ∈ d.changed, ∃ type, view' item.1 = some (item.2, type) ∧
    (item.1 ∉ d.added.map Prod.fst → ∃ version, view item.1 = some (version, type))
  same : ∀ k, k ∉ d.added.map Prod.fst → k ∉ d.removed → k ∉ d.changed.map Prod.fst →
    view' k = view k

namespace Slave

variable {s : Slave K}

theorem foldl_add {items : Data K} (hnodup : (items.map Prod.fst).Nodup)
    (hnew : ∀ item ∈ items, item.1 ∉ s.map) :
    (items.foldl add s).failed = s.failed ∧
      (∀ item ∈ items, (items.foldl add s).map.lookup item.1 = some ⟨item.2.1, none, item.2.2⟩) ∧
      ∀ k, k ∉ items.map Prod.fst → (items.foldl add s).map.lookup k = s.map.lookup k := by
  induction items generalizing s with
  | nil => exact ⟨rfl, nofun, fun _ _ => rfl⟩
  | cons item items ih =>
      have hitem : item.1 ∉ s.map := hnew item List.mem_cons_self
      rw [List.map_cons, List.nodup_cons] at hnodup
      have hmap : (s.add item).map =
          (s.map.insert item.1 Entry.new).insert item.1 ⟨item.2.1, none, item.2.2⟩ := by
        rw [add, Map.touch, if_neg hitem, Map.at, AList.lookup_insert]
        rfl
      have hfailed : (s.add item).failed = s.failed := by
        rw [add, decide_eq_false hitem, Bool.or_false]
      have hother {k : K} (hk : k ≠ item.1) : (s.add item).map.lookup k = s.map.lookup k := by
        rw [hmap, AList.lookup_insert_ne hk, AList.lookup_insert_ne hk]
      obtain ⟨hrestFailed, hrestItems, hrest⟩ := @ih (s.add item) hnodup.2 (fun item' hitem' => by
        have hne : item'.1 ≠ item.1 := fun he => hnodup.1 (he ▸ List.mem_map_of_mem hitem')
        rw [← AList.lookup_eq_none, hother hne, AList.lookup_eq_none]
        exact hnew item' (List.mem_cons_of_mem _ hitem'))
      refine ⟨hrestFailed.trans hfailed, fun item' hitem' => ?_, fun k hk => ?_⟩
      · rcases List.mem_cons.1 hitem' with rfl | hitem'
        · rw [List.foldl_cons, hrest _ hnodup.1, hmap, AList.lookup_insert]
        · exact hrestItems item' hitem'
      · rw [List.map_cons, List.mem_cons, not_or] at hk
        rw [List.foldl_cons, hrest k hk.2, hother hk.1]

theorem foldl_remove {ks : List K} (hnodup : ks.Nodup) (hold : ∀ k ∈ ks, k ∈ s.map) :
    (ks.foldl remove s).failed = s.failed ∧
      ∀ k, (ks.foldl remove s).map.lookup k = if k ∈ ks then none else s.map.lookup k := by
  induction ks generalizing s with
  | nil => exact ⟨rfl, fun _ => rfl⟩
  | cons k₀ ks ih =>
      rw [List.nodup_cons] at hnodup
      have hfailed : (s.remove k₀).failed = s.failed := by
        rw [remove, decide_eq_false (not_not.2 (hold k₀ List.mem_cons_self)), Bool.or_false]
      obtain ⟨hrestFailed, hrest⟩ := @ih (s.remove k₀) hnodup.2 (fun k hk => by
        refine AList.mem_erase.2 ⟨?_, hold k (List.mem_cons_of_mem _ hk)⟩
        rintro rfl
        exact hnodup.1 hk)
      refine ⟨hrestFailed.trans hfailed, fun k => ?_⟩
      rw [List.foldl_cons, hrest k]
      rcases eq_or_ne k k₀ with rfl | hne
      · rw [if_neg hnodup.1, if_pos List.mem_cons_self]
        exact AList.lookup_erase k s.map
      · have hmem : k ∈ k₀ :: ks ↔ k ∈ ks := List.mem_cons.trans (or_iff_right hne)
        rw [if_congr hmem rfl rfl]
        congr 1
        exact AList.lookup_erase_ne hne

/-- The version of an item is noted already, or will be with the synchronisation of its instance. -/
def Ready (s : Slave K) (view : K → Option (ℕ × ℕ)) (item : K × ℕ) : Prop :=
  ∃ entry, s.map.lookup item.1 = some entry ∧ view item.1 = some (item.2, entry.type) ∧
    ((entry.object = none ∧ entry.version = item.2) ∨
      ∃ version, entry.object = some version ∧ version ≤ item.2)

theorem view_change {view : K → Option (ℕ × ℕ)} {item : K × ℕ} (hready : s.Ready view item) :
    (s.change item).failed = s.failed ∧ (s.change item).map.view item.1 = view item.1 ∧
      (∀ k, k ≠ item.1 → (s.change item).map.lookup k = s.map.lookup k) ∧
      ∀ item', s.Ready view item' → (s.change item).Ready view item' := by
  obtain ⟨entry, hentry, hview, hcase⟩ := hready
  have hmem : item.1 ∈ s.map := AList.lookup_isSome.1 (by rw [hentry]; rfl)
  have hat : s.map.at item.1 = entry := by rw [Map.at, hentry, Option.getD_some]
  have hchecked : (s.failed || decide (item.1 ∉ s.map)) = s.failed := by
    rw [decide_eq_false (not_not.2 hmem), Bool.or_false]
  rcases hcase with ⟨hobject, hversion⟩ | ⟨version, hobject, hle⟩
  · have hchange : s.change item = s := by
      simp only [change, Map.touch_of_mem hmem, hat, hobject, hchecked]
    rw [hchange]
    refine ⟨rfl, ?_, fun _ _ => rfl, fun _ => id⟩
    rw [Map.view, hentry, hview, ← hversion]
    rfl
  · have hchange : s.change item =
        ⟨s.map.insert item.1 { entry with version := item.2, object := some item.2 }, s.failed⟩ := by
      simp only [change, Map.touch_of_mem hmem, hat, hobject, hchecked, if_neg (not_lt.2 hle)]
    rw [hchange]
    refine ⟨rfl, ?_, fun k hk => AList.lookup_insert_ne hk, fun item' hready' => ?_⟩
    · rw [Map.view_insert, if_pos rfl, hview]
    · obtain ⟨entry', hentry', hview', hcase'⟩ := hready'
      rcases eq_or_ne item'.1 item.1 with heq | hne
      · rw [heq, hentry] at hentry'
        obtain rfl := Option.some.inj hentry'
        rw [heq, hview, Option.some.injEq, Prod.mk.injEq] at hview'
        refine ⟨{ entry with version := item.2, object := some item.2 }, ?_, ?_,
          Or.inr ⟨item.2, rfl, Nat.le_of_eq hview'.1⟩⟩
        · rw [heq]
          exact AList.lookup_insert _
        · rw [heq, hview, hview'.1]
      · exact ⟨entry', (AList.lookup_insert_ne hne).trans hentry', hview', hcase'⟩

theorem foldl_change {view : K → Option (ℕ × ℕ)} {items : List (K × ℕ)}
    (hready : ∀ item ∈ items, s.Ready view item)
    (hsame : ∀ k, k ∉ items.map Prod.fst → s.map.view k = view k) :
    (items.foldl change s).failed = s.failed ∧ ∀ k, (items.foldl change s).map.view k = view k := by
  induction items generalizing s with
  | nil => exact ⟨rfl, fun k => hsame k List.not_mem_nil⟩
  | cons item items ih =>
      obtain ⟨hfailed, hview, hother, hkeep⟩ := view_change (hready item List.mem_cons_self)
      obtain ⟨hrestFailed, hrest⟩ := @ih (s.change item)
        (fun item' hitem' => hkeep item' (hready item' (List.mem_cons_of_mem _ hitem')))
        (fun k hk => by
          rcases eq_or_ne k item.1 with rfl | hne
          · exact hview
          · rw [Map.view, hother k hne]
            exact hsame k (by simp [hne, hk]))
      exact ⟨hrestFailed.trans hfailed, hrest⟩

/-- Each object that was changed, and not just added, is mapped, to a version that is not newer. -/
def Mapped (s : Slave K) (d : Delta K) : Prop :=
  ∀ item ∈ d.changed, item.1 ∉ d.added.map Prod.fst →
    ∃ version ∈ (s.map.lookup item.1).bind Entry.object, version ≤ item.2

instance (s : Slave K) (d : Delta K) : Decidable (s.Mapped d) :=
  inferInstanceAs (Decidable (∀ item ∈ d.changed, item.1 ∉ d.added.map Prod.fst → _))

theorem view_deserialize {view view' : K → Option (ℕ × ℕ)} {d : Delta K}
    (hview : ∀ k, s.map.view k = view k) (h : d.Carries view view') (hmapped : s.Mapped d) :
    (s.deserialize d).failed = s.failed ∧ ∀ k, (s.deserialize d).map.view k = view' k := by
  obtain ⟨haddFailed, hadded, hnotAdded⟩ := foldl_add (s := s) h.addedNodup (fun item hitem => by
    rw [← Map.view_eq_none, hview]
    exact (h.added item hitem).1)
  have hkept {k : K} (hk : k ∈ d.removed) : k ∉ d.added.map Prod.fst := by
    intro hmem
    obtain ⟨item, hitem, rfl⟩ := List.mem_map.1 hmem
    exact (h.removed _ hk).1 (h.added item hitem).1
  obtain ⟨hremoveFailed, hremoved⟩ := foldl_remove (s := d.added.foldl add s) h.removedNodup
    (fun k hk => by
      rw [← AList.lookup_isSome, hnotAdded k (hkept hk), AList.lookup_isSome, ← Map.view_isSome,
        hview,
        Option.isSome_iff_ne_none]
      exact (h.removed k hk).1)
  have hchanged {item : K × ℕ} (hitem : item ∈ d.changed) : item.1 ∉ d.removed := by
    intro hmem
    obtain ⟨type, hnew, -⟩ := h.changed item hitem
    rw [(h.removed _ hmem).2] at hnew
    cases hnew
  have hready : ∀ item ∈ d.changed,
      (d.removed.foldl remove (d.added.foldl add s)).Ready view' item := by
    intro item hitem
    obtain ⟨type, hnew, hold⟩ := h.changed item hitem
    by_cases hadd : item.1 ∈ d.added.map Prod.fst
    · obtain ⟨item', hitem', heq⟩ := List.mem_map.1 hadd
      have hvalue := (h.added item' hitem').2
      rw [heq, hnew, Option.some.injEq] at hvalue
      refine ⟨⟨item'.2.1, none, item'.2.2⟩, ?_, ?_, Or.inl ⟨rfl, ?_⟩⟩
      · rw [hremoved, if_neg (hchanged hitem), ← heq, hadded item' hitem']
      · rw [hnew, ← hvalue]
      · rw [← hvalue]
    · obtain ⟨oldVersion, hold⟩ := hold hadd
      obtain ⟨version, hversion, hle⟩ := hmapped item hitem hadd
      obtain ⟨entry, hentry, hobject⟩ := Option.bind_eq_some_iff.1 hversion
      have htype : entry.type = type := by
        have hentryView := hview item.1
        rw [Map.view, hentry, hold, Option.map_some, Option.some.injEq, Prod.mk.injEq] at hentryView
        exact hentryView.2
      refine ⟨entry, ?_, ?_, Or.inr ⟨version, hobject, hle⟩⟩
      · rw [hremoved, if_neg (hchanged hitem), hnotAdded _ hadd, hentry]
      · rw [hnew, htype]
  have hsame : ∀ k, k ∉ d.changed.map Prod.fst →
      (d.removed.foldl remove (d.added.foldl add s)).map.view k = view' k := by
    intro k hk
    rw [Map.view, hremoved]
    by_cases hremove : k ∈ d.removed
    · rw [if_pos hremove, (h.removed k hremove).2]
      rfl
    · rw [if_neg hremove]
      by_cases hadd : k ∈ d.added.map Prod.fst
      · obtain ⟨item, hitem, rfl⟩ := List.mem_map.1 hadd
        rw [hadded item hitem, (h.added item hitem).2]
        rfl
      · rw [hnotAdded k hadd, h.same k hadd hremove hk, ← hview]
        rfl
  obtain ⟨hchangeFailed, hfinal⟩ := foldl_change hready hsame
  exact ⟨hchangeFailed.trans (hremoveFailed.trans haddFailed), hfinal⟩

end Slave

end Collage.ObjectMap
