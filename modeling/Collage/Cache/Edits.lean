import Collage.Cache.InstanceCache

/-!
# What the operations of the cache do

The cases of the two parts of `add` for an item, the list of items after one of them is changed, and
the rule that what every deletion of an eviction keeps is kept by the eviction.
-/

namespace Collage.Cache

namespace Item

/-- A command is from another master than the item. -/
def Foreign (i : Item) (chunk : Chunk) : Prop :=
  i.masterInstanceID ≠ chunk.instanceID ∨ i.sender ≠ chunk.node

instance (i : Item) (chunk : Chunk) : Decidable (i.Foreign chunk) :=
  inferInstanceAs (Decidable (_ ∨ _))

/-- Some version is missing between the last one of the item and that of a command. -/
def Hole (i : Item) (chunk : Chunk) : Prop :=
  match i.versions.getLast? with
  | none => False
  | some back => back.getPendingVersion + 1 < chunk.version

instance (i : Item) (chunk : Chunk) : Decidable (i.Hole chunk) :=
  match h : i.versions.getLast? with
  | none => isFalse (by simp [Hole, h])
  | some back => decidable_of_iff (back.getPendingVersion + 1 < chunk.version) (by
      simp [Hole, h])

theorem take_cases {i taken : Item} {chunk : Chunk} {usage : ℕ} {deleted : List DataStream}
    (h : i.take chunk usage = some (deleted, taken)) :
    (¬ i.Foreign chunk ∧ deleted = [] ∧ taken = { i with used := max i.used usage }) ∨
      (i.Foreign chunk ∧ i.access = 0 ∧ deleted = i.versions.reverse ∧ taken =
        { i.clear with
          masterInstanceID := chunk.instanceID
          sender := chunk.node
          used := usage }) := by
  unfold take at h
  split_ifs at h with hforeign haccess
  · obtain ⟨rfl, rfl⟩ := Prod.mk.inj (Option.some.inj h)
    exact Or.inr ⟨hforeign, not_not.1 haccess, rfl, rfl⟩
  · obtain ⟨rfl, rfl⟩ := Prod.mk.inj (Option.some.inj h)
    exact Or.inl ⟨hforeign, rfl, rfl⟩

theorem take_eq_none {i : Item} {chunk : Chunk} {usage : ℕ} (h : i.take chunk usage = none) :
    i.Foreign chunk ∧ i.access ≠ 0 := by
  unfold take at h
  split_ifs at h with hforeign haccess
  exact ⟨hforeign, haccess⟩

theorem enter_cases {i entered : Item} {chunk : Chunk} {now : ℤ} {deleted : List DataStream}
    (h : i.enter chunk now = some (deleted, entered)) :
    (deleted = [] ∧ entered = i.push chunk now ∧
      ∀ back ∈ i.versions.getLast?, back.getPendingVersion + 1 = chunk.version) ∨
    (deleted = [] ∧ ∃ back, i.versions.getLast? = some back ∧ back.isReady = false ∧
      back.getPendingVersion = chunk.version ∧
      entered = { i with versions := i.versions.dropLast ++ [back.addDataCommand chunk] }) ∨
    (i.Hole chunk ∧ i.access = 0 ∧ deleted = i.versions.reverse ∧
      entered = i.clear.push chunk now) := by
  unfold enter at h
  split at h
  · next hnone =>
    obtain ⟨rfl, rfl⟩ := Prod.mk.inj (Option.some.inj h)
    exact Or.inl ⟨rfl, rfl, by simp [hnone]⟩
  · next back hback =>
    split_ifs at h with hsame hready hold hnext haccess
    · obtain ⟨rfl, rfl⟩ := Prod.mk.inj (Option.some.inj h)
      refine Or.inr (Or.inl ⟨rfl, back, hback, by simpa using hready, hsame, ?_⟩)
      simp only [append, hback]
    · obtain ⟨rfl, rfl⟩ := Prod.mk.inj (Option.some.inj h)
      refine Or.inr (Or.inr ⟨?_, not_not.1 haccess, rfl, rfl⟩)
      simp only [Hole, hback]
      omega
    · obtain ⟨rfl, rfl⟩ := Prod.mk.inj (Option.some.inj h)
      refine Or.inl ⟨rfl, rfl, fun b hb => ?_⟩
      rw [← Option.some.inj (hback.symm.trans hb)]
      exact not_not.1 hnext

theorem take_id {i taken : Item} {chunk : Chunk} {usage : ℕ} {deleted : List DataStream}
    (h : i.take chunk usage = some (deleted, taken)) : taken.id = i.id := by
  rcases take_cases h with ⟨-, -, rfl⟩ | ⟨-, -, -, rfl⟩ <;> rfl

theorem mem_of_mem_take {i taken : Item} {chunk : Chunk} {usage : ℕ} {deleted : List DataStream}
    (h : i.take chunk usage = some (deleted, taken)) {s : DataStream} (hs : s ∈ taken.versions) :
    s ∈ i.versions := by
  rcases take_cases h with ⟨-, -, rfl⟩ | ⟨-, -, -, rfl⟩
  · exact hs
  · cases hs

theorem enter_id {i entered : Item} {chunk : Chunk} {now : ℤ} {deleted : List DataStream}
    (h : i.enter chunk now = some (deleted, entered)) : entered.id = i.id := by
  rcases enter_cases h with ⟨-, rfl, -⟩ | ⟨-, back, -, -, -, rfl⟩ | ⟨-, -, -, rfl⟩ <;> rfl

/-- An item that has lost some of its first streams. -/
structure ShrunkFrom (j i : Item) : Prop where
  id : j.id = i.id
  versions : j.versions <:+ i.versions
  sender : j.sender = i.sender
  master : j.masterInstanceID = i.masterInstanceID

theorem ShrunkFrom.refl (i : Item) : i.ShrunkFrom i := ⟨rfl, List.suffix_refl _, rfl, rfl⟩

theorem ShrunkFrom.trans {i j k : Item} (hkj : k.ShrunkFrom j) (hji : j.ShrunkFrom i) :
    k.ShrunkFrom i :=
  ⟨hkj.id.trans hji.id, hkj.versions.trans hji.versions, hkj.sender.trans hji.sender,
    hkj.master.trans hji.master⟩

theorem shrunkFrom_expire (minTime : ℤ) (i : Item) : (i.expire minTime).2.ShrunkFrom i := by
  unfold expire
  split_ifs
  · exact ShrunkFrom.refl i
  · exact ⟨rfl, List.drop_suffix _ _, rfl, rfl⟩

/-- What becomes of an item when a command is added. -/
def Added (i : Item) (chunk : Chunk) (usage : ℕ) (now : ℤ) (j : Item) : Prop :=
  (i.take chunk usage = none ∧ j = i) ∨
    ∃ deleted taken, i.take chunk usage = some (deleted, taken) ∧
      ((taken.enter chunk now = none ∧ j = taken) ∨
        ∃ deleted', taken.enter chunk now = some (deleted', j))

theorem Added.id_eq {i j : Item} {chunk : Chunk} {usage : ℕ} {now : ℤ}
    (h : i.Added chunk usage now j) : j.id = i.id := by
  rcases h with ⟨-, rfl⟩ | ⟨deleted, taken, htake, ⟨-, rfl⟩ | ⟨deleted', henter⟩⟩
  · rfl
  · exact take_id htake
  · exact (enter_id henter).trans (take_id htake)

end Item

namespace InstanceCache

variable {c : InstanceCache}

def Distinct (c : InstanceCache) : Prop := (c.items.map Item.id).Nodup

theorem find_split (hc : c.Distinct) {id : ℕ} {i : Item} (h : c.find id = some i) :
    i.id = id ∧ ∃ xs ys, c.items = xs ++ i :: ys ∧
      (∀ i' : Item, i'.id = i.id → (c.set i').items = xs ++ i' :: ys) ∧
      (c.drop id).items = xs ++ ys := by
  have hid : i.id = id := Keyed.key_of_lookup h
  obtain ⟨xs, ys, hsplit⟩ := List.append_of_mem (Keyed.mem_of_lookup h)
  have hnd : ((xs ++ i :: ys).map Item.id).Nodup := hsplit ▸ hc
  refine ⟨hid, xs, ys, hsplit, fun i' hi' => ?_, ?_⟩
  · rw [set, hsplit, hi']
    exact Keyed.update_append_cons hnd
  · rw [drop, hsplit, ← hid]
    exact Keyed.filter_append_cons hnd

@[simp] theorem items_deleteStreams (c : InstanceCache) (streams : List DataStream) :
    (c.deleteStreams streams).items = c.items := by
  induction streams generalizing c with
  | nil => rfl
  | cons s streams ih => exact (ih (c.deleteStream s)).trans rfl

theorem find_deleteStreams (c : InstanceCache) (streams : List DataStream) (id : ℕ) :
    (c.deleteStreams streams).find id = c.find id := by
  rw [find, items_deleteStreams, find]

theorem find_set {id : ℕ} {i i' : Item} (hi : c.find id = some i) (hid : i'.id = i.id) :
    (c.set i').find id = some i' := by
  have hkey : i.id = id := Keyed.key_of_lookup hi
  unfold find InstanceCache.set
  rw [hid, hkey]
  exact Keyed.lookup_update_self (fun _ _ => hid.trans hkey) hi

theorem find_set_ne {id k : ℕ} {i i' : Item} (hi : c.find id = some i) (hid : i'.id = i.id)
    (hk : k ≠ id) : (c.set i').find k = c.find k := by
  have hkey : i.id = id := Keyed.key_of_lookup hi
  unfold find InstanceCache.set
  rw [Keyed.lookup_update (fun _ _ => rfl), if_neg (by rwa [hid, hkey])]

theorem find_drop (c : InstanceCache) (id k : ℕ) :
    (c.drop id).find k = if k = id then none else c.find k :=
  Keyed.lookup_filter id k c.items

theorem withItem_cases (c : InstanceCache) (chunk : Chunk) :
    (∃ i, c.find chunk.id = some i ∧ c.withItem chunk = c) ∨
      (c.find chunk.id = none ∧
        c.withItem chunk = { c with items := c.items ++ [Item.create chunk] } ∧
        (c.withItem chunk).find chunk.id = some (Item.create chunk)) := by
  unfold withItem
  cases h : c.find chunk.id with
  | some i => exact Or.inl ⟨i, rfl, by simp⟩
  | none =>
      refine Or.inr ⟨rfl, by simp, ?_⟩
      simp only [Option.isSome_none, Bool.false_eq_true, if_false, find, Keyed.lookup]
      simp only [find, Keyed.lookup] at h
      rw [List.find?_append, h]
      simp [Item.create]

theorem releaseFirstStream_cases (c : InstanceCache) (i : Item) :
    (i.versions = [] ∧ c.releaseFirstStream i = c) ∨
      ∃ s versions, i.versions = s :: versions ∧ c.releaseFirstStream i =
        (c.set { i with versions := versions, times := i.times.tail }).deleteStreams [s] := by
  unfold releaseFirstStream
  split
  · next h => exact Or.inl ⟨h, rfl⟩
  · next s versions h => exact Or.inr ⟨s, versions, h, rfl⟩

/-- How often each item is pinned stays as it is when an item is replaced by one that is pinned as
often. -/
theorem find_set_access {id : ℕ} {i i' : Item} (hi : c.find id = some i) (hid : i'.id = i.id)
    (haccess : i'.access = i.access) (k : ℕ) :
    ((c.set i').find k).map Item.access = (c.find k).map Item.access := by
  unfold find InstanceCache.set
  rw [Keyed.lookup_update (fun _ _ => rfl)]
  split_ifs with hk
  · have hki : k = id := hk.trans (hid.trans (Keyed.key_of_lookup hi))
    rw [hki, hid, show i.id = id from Keyed.key_of_lookup hi]
    unfold find at hi
    rw [hi, Option.map_some, Option.map_some, Option.map_some, haccess]
  · rfl

theorem releaseFirstStream_access {id : ℕ} {i : Item} (hi : c.find id = some i) (k : ℕ) :
    ((c.releaseFirstStream i).find k).map Item.access = (c.find k).map Item.access := by
  rcases releaseFirstStream_cases c i with ⟨-, heq⟩ | ⟨s, versions, -, heq⟩
  · rw [heq]
  · rw [heq, find_deleteStreams]
    refine find_set_access hi ?_ ?_ k <;> rfl

theorem releaseItems_induct {P : InstanceCache → Prop} {minUsage : ℕ}
    (hfirst : ∀ (c : InstanceCache) (id : ℕ) (i : Item), P c → c.find id = some i →
      i.access = 0 → minUsage ≤ i.used → P (c.releaseFirstStream i))
    (hdrop : ∀ (c : InstanceCache) (id : ℕ) (i : Item), P c → c.find id = some i →
      i.access = 0 → i.versions = [] → P (c.drop id))
    (h : P c) (order : List ℕ) : P (c.releaseItems minUsage order) := by
  let Q : List ℕ → InstanceCache → Prop := fun keys c =>
    P c ∧ ∀ id ∈ keys, ∀ n ∈ (c.find id).map Item.access, n = 0
  have hrelease {keys : List ℕ} {c : InstanceCache} {id : ℕ} {i : Item} (hc : Q keys c)
      (hi : c.find id = some i) (haccess : i.access = 0) (hused : minUsage ≤ i.used) :
      Q keys (c.releaseFirstStream i) := by
    refine ⟨hfirst c id i hc.1 hi haccess hused, fun k hk n hn => hc.2 k hk n ?_⟩
    rwa [releaseFirstStream_access hi] at hn
  have hstart (ids : List ℕ) (s : Sweep) (hs : Q s.keys s.cache) :
      Q (ids.foldl (releaseFirst minUsage) s).keys (ids.foldl (releaseFirst minUsage) s).cache := by
    refine List.foldlRecOn (motive := fun s : Sweep => Q s.keys s.cache) ids _ hs
      (fun s hs id _ => ?_)
    unfold releaseFirst
    split_ifs
    · exact hs
    · split
      · exact hs
      · next i hi =>
        split_ifs with hfree
        · obtain ⟨hP, hkeys⟩ := hrelease hs hi hfree.1 hfree.2
          refine ⟨hP, fun k hk => ?_⟩
          rcases List.mem_append.1 hk with hk | hk
          · exact hkeys k hk
          · rw [List.mem_singleton.1 hk, releaseFirstStream_access hi, hi]
            intro n hn
            exact (Option.some.inj hn).symm.trans hfree.1
        · exact hs
  have hnext (ids : List ℕ) (s : Sweep) (hs : Q s.keys s.cache) :
      Q (ids.foldl (releaseNext minUsage) s).keys (ids.foldl (releaseNext minUsage) s).cache := by
    refine List.foldlRecOn (motive := fun s : Sweep => Q s.keys s.cache) ids _ hs
      (fun s hs id _ => ?_)
    unfold releaseNext
    split_ifs
    · exact hs
    · split
      · exact hs
      · next i hi =>
        split_ifs with hfree
        · exact hrelease hs hi hfree.2.1 hfree.2.2
        · exact hs
  have hmore (n : ℕ) (s : Sweep) (hs : Q s.keys s.cache) :
      Q (releaseMore minUsage n s).keys (releaseMore minUsage n s).cache := by
    induction n generalizing s with
    | zero => exact hs
    | succ n ih =>
        unfold releaseMore
        split_ifs
        · exact ih _ (hnext _ _ hs)
        · exact hs
  have herase (ids keys : List ℕ) (c : InstanceCache) (hids : ∀ id ∈ ids, id ∈ keys)
      (hc : Q keys c) : Q keys (ids.foldl eraseEmpty c) := by
    refine List.foldlRecOn (motive := Q keys) ids _ hc (fun c hc id hid => ?_)
    unfold eraseEmpty
    split
    · exact hc
    · next i hi =>
      split_ifs with hempty
      · have haccess : i.access = 0 := hc.2 id (hids id hid) i.access (by rw [hi]; rfl)
        refine ⟨hdrop c id i hc.1 hi haccess hempty, fun k hk n hn => hc.2 k hk n ?_⟩
        rw [find_drop] at hn
        split_ifs at hn with hki
        · cases hn
        · exact hn
      · exact hc
  unfold releaseItems
  split_ifs
  · exact h
  · exact (herase _ _ _ (fun _ hid => hid) (hmore _ _ (hstart _ _ ⟨h, by simp⟩))).1

theorem Distinct.set (h : c.Distinct) (i : Item) : (c.set i).Distinct := by
  unfold Distinct InstanceCache.set
  rwa [Keyed.map_update (fun _ _ hk => hk.symm)]

theorem Distinct.drop (h : c.Distinct) (id : ℕ) : (c.drop id).Distinct :=
  h.sublist ((List.filter_sublist).map _)

theorem Distinct.deleteStreams (h : c.Distinct) (streams : List DataStream) :
    (c.deleteStreams streams).Distinct := by
  unfold Distinct
  rwa [items_deleteStreams]

theorem mem_set {i j : Item} (h : j ∈ (c.set i).items) : j = i ∨ j ∈ c.items := by
  rcases Keyed.mem_update h with ⟨hj, -⟩ | ⟨-, -, -, hj⟩
  · exact Or.inr hj
  · exact Or.inl hj

theorem Distinct.releaseItems (h : c.Distinct) (minUsage : ℕ) (order : List ℕ) :
    (c.releaseItems minUsage order).Distinct := by
  refine releaseItems_induct (fun c id i hc _ _ _ => ?_) (fun c id _ hc _ _ _ => hc.drop id) h order
  rcases releaseFirstStream_cases c i with ⟨-, heq⟩ | ⟨s, versions, -, heq⟩
  · rwa [heq]
  · rw [heq]
    exact (hc.set _).deleteStreams _

theorem Distinct.withItem (h : c.Distinct) (chunk : Chunk) : (c.withItem chunk).Distinct := by
  rcases withItem_cases c chunk with ⟨i, -, heq⟩ | ⟨hnone, heq, -⟩
  · rwa [heq]
  · rw [heq]
    unfold Distinct
    rw [List.map_append, List.map_singleton]
    refine List.nodup_append.2 ⟨h, List.nodup_singleton _, ?_⟩
    intro id hid id' hid' he
    rw [List.mem_singleton.1 hid'] at he
    rw [he] at hid
    exact Keyed.lookup_eq_none_iff.1 hnone hid

theorem Distinct.enter (h : c.Distinct) (chunk : Chunk) (usage : ℕ) (now : ℤ) :
    (c.enter chunk usage now).2.Distinct := by
  have hc := h.withItem chunk
  unfold InstanceCache.enter
  split
  · exact hc
  · split
    · exact hc
    · next deleted taken _ =>
      have hc' := (hc.set taken).deleteStreams deleted
      simp only
      split
      · exact hc'
      · next deleted' entered _ => exact (hc'.set entered).deleteStreams deleted'

theorem Distinct.step (h : c.Distinct) {op : Op} {c' : InstanceCache} (hs : c.step op = some c') :
    c'.Distinct := by
  cases op with
  | add chunk usage now order =>
      obtain rfl := Option.some.inj hs
      have henter := h.enter chunk usage now
      unfold InstanceCache.add
      split
      · next heq => rwa [heq] at henter
      · next heq =>
        rw [heq] at henter
        exact (henter.releaseItems 1 order).releaseItems 0 order
  | access id =>
      obtain rfl := Option.some.inj hs
      unfold InstanceCache.access
      split
      · exact h
      · exact h.set _
  | release id count order =>
      obtain rfl := Option.some.inj hs
      unfold InstanceCache.release
      split
      · exact h
      · next i _ =>
        have hunpin : (c.unpin i count).Distinct := h.set _
        exact hunpin.releaseItems 1 order
  | remove node =>
      obtain rfl := Option.some.inj hs
      refine Distinct.deleteStreams ?_ _
      exact List.Nodup.sublist (List.filter_sublist.map _) h
  | erase id =>
      obtain rfl := Option.some.inj hs
      unfold InstanceCache.erase
      split
      · exact h
      · split_ifs
        · exact h
        · exact (h.drop id).deleteStreams _
  | expire now timeout =>
      obtain rfl := Option.some.inj hs
      unfold InstanceCache.expire
      split_ifs
      · exact h
      · refine Distinct.deleteStreams (List.Nodup.sublist (List.filter_sublist.map _) ?_) _
        rw [List.map_map, List.map_map]
        refine (congrArg List.Nodup (List.map_congr_left (fun i _ => ?_))).mpr h
        exact (i.shrunkFrom_expire _).id

/-- Every item of `c'` is one of `c`, or what is left of it. -/
def Shrinks (c c' : InstanceCache) : Prop := ∀ j ∈ c'.items, ∃ i ∈ c.items, j.ShrunkFrom i

theorem Shrinks.set {c₀ : InstanceCache} (h : c₀.Shrinks c) {id : ℕ} {i i' : Item}
    (hi : c.find id = some i) (hshrunk : i'.ShrunkFrom i) : c₀.Shrinks (c.set i') := by
  intro j hj
  rcases mem_set hj with rfl | hj
  · obtain ⟨i₀, hmem, hi₀⟩ := h i (Keyed.mem_of_lookup hi)
    exact ⟨i₀, hmem, hshrunk.trans hi₀⟩
  · exact h j hj

theorem Shrinks.releaseItems {c₀ : InstanceCache} (h : c₀.Shrinks c) (minUsage : ℕ)
    (order : List ℕ) : c₀.Shrinks (c.releaseItems minUsage order) := by
  refine releaseItems_induct (fun c id i hc hi _ _ => ?_) (fun c id _ hc _ _ _ => ?_) h order
  · rcases releaseFirstStream_cases c i with ⟨-, heq⟩ | ⟨s, versions, hversions, heq⟩
    · rwa [heq]
    · rw [heq]
      unfold Shrinks
      rw [items_deleteStreams]
      exact hc.set hi ⟨rfl, hversions ▸ List.suffix_cons s versions, rfl, rfl⟩
  · exact fun j hj => hc j (List.mem_of_mem_filter hj)

theorem Shrinks.refl (c : InstanceCache) : c.Shrinks c := fun i hi => ⟨i, hi, Item.ShrunkFrom.refl i⟩

/-- All operations but `add` only take streams away. -/
theorem shrinks_step {op : Op} (hop : ∀ chunk usage now order, op ≠ .add chunk usage now order)
    {c' : InstanceCache} (hs : c.step op = some c') : c.Shrinks c' := by
  have hself := Shrinks.refl c
  cases op with
  | add chunk usage now order => exact absurd rfl (hop chunk usage now order)
  | access id =>
      obtain rfl := Option.some.inj hs
      unfold InstanceCache.access
      split
      · exact hself
      · next i hi => exact hself.set hi ⟨rfl, List.suffix_refl _, rfl, rfl⟩
  | release id count order =>
      obtain rfl := Option.some.inj hs
      unfold InstanceCache.release
      split
      · exact hself
      · next i hi =>
        have hunpin : c.Shrinks (c.unpin i count) :=
          hself.set hi ⟨rfl, List.suffix_refl _, rfl, rfl⟩
        exact hunpin.releaseItems 1 order
  | remove node =>
      obtain rfl := Option.some.inj hs
      unfold Shrinks InstanceCache.remove
      rw [items_deleteStreams]
      exact fun j hj => hself j (List.mem_of_mem_filter hj)
  | erase id =>
      obtain rfl := Option.some.inj hs
      unfold InstanceCache.erase
      split
      · exact hself
      · split_ifs
        · exact hself
        · unfold Shrinks
          rw [items_deleteStreams]
          exact fun j hj => hself j (List.mem_of_mem_filter hj)
  | expire now timeout =>
      obtain rfl := Option.some.inj hs
      unfold InstanceCache.expire
      split_ifs
      · exact hself
      · unfold Shrinks
        rw [items_deleteStreams]
        intro j hj
        obtain ⟨p, hp, rfl⟩ := List.mem_map.1 (List.mem_of_mem_filter hj)
        obtain ⟨i, hi, rfl⟩ := List.mem_map.1 hp
        exact ⟨i, hi, i.shrunkFrom_expire _⟩

/-- The item of a command in the cache, or the one that is entered for it. -/
def Found (c : InstanceCache) (chunk : Chunk) (i : Item) : Prop :=
  c.find chunk.id = some i ∨ (c.find chunk.id = none ∧ i = Item.create chunk)

theorem Found.id_eq {chunk : Chunk} {i : Item} (h : c.Found chunk i) : i.id = chunk.id := by
  rcases h with hi | ⟨-, rfl⟩
  · exact Keyed.key_of_lookup hi
  · rfl

theorem withItem_found (c : InstanceCache) (chunk : Chunk) :
    ∃ i, (c.withItem chunk).find chunk.id = some i ∧ c.Found chunk i ∧
      ∀ j ∈ (c.withItem chunk).items, j.id ≠ chunk.id → j ∈ c.items := by
  rcases withItem_cases c chunk with ⟨i, hi, heq⟩ | ⟨hnone, heq, hi⟩
  · exact ⟨i, heq.symm ▸ hi, Or.inl hi, fun j hj _ => heq ▸ hj⟩
  · refine ⟨_, hi, Or.inr ⟨hnone, rfl⟩, fun j hj hne => ?_⟩
    rw [heq] at hj
    rcases List.mem_append.1 hj with hj | hj
    · exact hj
    · rw [List.mem_singleton.1 hj] at hne
      exact absurd rfl hne

theorem enter_items (hc : c.Distinct) {chunk : Chunk} {usage : ℕ} {now : ℤ} {j : Item}
    (hj : j ∈ (c.enter chunk usage now).2.items) :
    (j ∈ c.items ∧ j.id ≠ chunk.id) ∨ ∃ i, c.Found chunk i ∧ i.Added chunk usage now j := by
  obtain ⟨i, hi, hfound, hother⟩ := withItem_found c chunk
  have hc₀ := hc.withItem chunk
  have hid : i.id = chunk.id := Keyed.key_of_lookup hi
  unfold InstanceCache.enter at hj
  generalize c.withItem chunk = c₀ at hi hother hc₀ hj
  rw [hi] at hj
  simp only at hj
  split at hj
  · next htake =>
    by_cases hne : j.id = chunk.id
    · obtain rfl := Keyed.eq_of_lookup hc₀ hi hj hne
      exact Or.inr ⟨j, hfound, Or.inl ⟨htake, rfl⟩⟩
    · exact Or.inl ⟨hother j hj hne, hne⟩
  next deleted taken htake =>
  have htaken : taken.id = chunk.id := (Item.take_id htake).trans hid
  have hset : ∀ j ∈ (c₀.set taken).items, j = taken ∨ (j ∈ c.items ∧ j.id ≠ chunk.id) := by
    intro j hj
    rcases Keyed.mem_update hj with ⟨hj, hne⟩ | ⟨-, -, -, hj⟩
    · rw [htaken] at hne
      exact Or.inr ⟨hother j hj hne, hne⟩
    · exact Or.inl hj
  split at hj
  · next henter =>
    rw [items_deleteStreams] at hj
    rcases hset j hj with rfl | hj
    · exact Or.inr ⟨i, hfound, Or.inr ⟨deleted, j, htake, Or.inl ⟨henter, rfl⟩⟩⟩
    · exact Or.inl hj
  · next deleted' entered henter =>
    simp only [items_deleteStreams] at hj
    rcases Keyed.mem_update hj with ⟨hj, hne⟩ | ⟨-, -, -, rfl⟩
    · rw [Item.enter_id henter, htaken] at hne
      rw [items_deleteStreams] at hj
      rcases hset j hj with rfl | hj
      · exact absurd htaken hne
      · exact Or.inl hj
    · exact Or.inr ⟨i, hfound, Or.inr ⟨deleted, taken, htake, Or.inr ⟨deleted', henter⟩⟩⟩

end InstanceCache

end Collage.Cache
