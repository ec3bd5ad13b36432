import Mathlib.Data.List.Induction
import Collage.Cache.Accounting
import Collage.Lib.Loop
import Collage.Lib.Single

/-!
# Evictions

Both loops of `_releaseItems` visit items and may delete the first stream of each. What a series of
visits does is stated once for both loops. The second loop terminates as each of its turns but the
last deletes a stream, and when it ends above the target, every item that it may evict is empty.
-/

namespace Collage.Cache

def Item.withoutFirst (i : Item) : Item :=
  match i.versions with
  | [] => i
  | _ :: versions => { i with versions := versions, times := i.times.tail }

namespace Item

variable (i : Item)

@[simp] theorem withoutFirst_access : i.withoutFirst.access = i.access := by
  unfold withoutFirst; split <;> rfl

@[simp] theorem withoutFirst_used : i.withoutFirst.used = i.used := by
  unfold withoutFirst; split <;> rfl

@[simp] theorem withoutFirst_versions : i.withoutFirst.versions = i.versions.tail := by
  unfold withoutFirst
  split
  · next h => rw [h, List.tail_nil]
  · next h => rw [h, List.tail_cons]

structure LeftOf (j i : Item) : Prop where
  shrunk : j.ShrunkFrom i
  access : j.access = i.access
  used : j.used = i.used

/-- An eviction with the least usage `minUsage` may delete streams of the item. -/
def Evictable (minUsage : ℕ) (i : Item) : Prop := i.access = 0 ∧ minUsage ≤ i.used

instance (minUsage : ℕ) : Decidable (i.Evictable minUsage) := inferInstanceAs (Decidable (_ ∧ _))

theorem withoutFirst_evictable {minUsage : ℕ} :
    i.withoutFirst.Evictable minUsage ↔ i.Evictable minUsage := by
  rw [Evictable, withoutFirst_access, withoutFirst_used, Evictable]

end Item

namespace InstanceCache

variable {c : InstanceCache} {minUsage : ℕ}

def streams (c : InstanceCache) : ℕ := (c.items.map (fun i => i.versions.length)).sum

theorem sum_set (hc : c.Distinct) {id : ℕ} {i j : Item} (hi : c.find id = some i)
    (hid : j.id = i.id) (f : Item → ℕ) :
    ((c.set j).items.map f).sum + f i = (c.items.map f).sum + f j := by
  obtain ⟨-, xs, ys, hitems, hset, -⟩ := find_split hc hi
  rw [hset j hid, hitems]
  simp only [List.map_append, List.map_cons, List.sum_append, List.sum_cons]
  omega

theorem find_releaseFirstStream {id : ℕ} {i : Item} (hi : c.find id = some i) (k : ℕ) :
    (c.releaseFirstStream i).find k = if k = id then some i.withoutFirst else c.find k := by
  have hid : i.id = id := Keyed.key_of_lookup hi
  unfold Item.withoutFirst
  rcases releaseFirstStream_cases c i with ⟨hversions, heq⟩ | ⟨s, versions, hversions, heq⟩
  · rw [heq, hversions]
    split_ifs with hk
    · rw [hk, hi]
    · rfl
  · rw [heq, hversions, find_deleteStreams]
    split_ifs with hk
    · rw [hk]
      exact find_set hi rfl
    · exact find_set_ne hi rfl hk

theorem streams_releaseFirstStream (hc : c.Distinct) {id : ℕ} {i : Item}
    (hi : c.find id = some i) :
    (c.releaseFirstStream i).streams + min i.versions.length 1 = c.streams := by
  rcases releaseFirstStream_cases c i with ⟨hversions, heq⟩ | ⟨s, versions, hversions, heq⟩
  · rw [heq, hversions]
    rfl
  · have hsum := sum_set hc hi (j := { i with versions := versions, times := i.times.tail }) rfl
      (fun i => i.versions.length)
    rw [heq]
    unfold streams
    rw [items_deleteStreams]
    simp only [hversions, List.length_cons] at hsum ⊢
    omega

@[simp] theorem target_deleteStreams (c : InstanceCache) (deleted : List DataStream) :
    (c.deleteStreams deleted).target = c.target ∧
      (c.deleteStreams deleted).maxSize = c.maxSize := by
  induction deleted generalizing c with
  | nil => exact ⟨rfl, rfl⟩
  | cons s deleted ih => exact ih (c.deleteStream s)

theorem target_releaseFirstStream (c : InstanceCache) (i : Item) :
    (c.releaseFirstStream i).target = c.target ∧
      (c.releaseFirstStream i).maxSize = c.maxSize := by
  rcases releaseFirstStream_cases c i with ⟨-, heq⟩ | ⟨s, versions, -, heq⟩
  · rw [heq]
    exact ⟨rfl, rfl⟩
  · rw [heq]
    exact target_deleteStreams _ _

theorem Evicting.size_releaseFirstStream {id : ℕ} {i : Item} (h : Evicting minUsage c)
    (hi : c.find id = some i) (hevict : i.Evictable minUsage) :
    (c.releaseFirstStream i).size ≤ c.size := by
  rw [(h.releaseFirstStream hi hevict.1 hevict.2).accounted.size, h.accounted.size]
  rcases releaseFirstStream_cases c i with ⟨-, heq⟩ | ⟨s, versions, hversions, heq⟩
  · rw [heq]
  · have hsum := sum_set h.distinct hi
      (j := { i with versions := versions, times := i.times.tail }) rfl
      (fun i => readySize i.versions)
    rw [heq]
    unfold total
    rw [items_deleteStreams]
    simp only [hversions, readySize_cons] at hsum ⊢
    omega

/-- What either loop of an eviction does with an item. -/
inductive Visit (minUsage id : ℕ) (s : Sweep) : Sweep → Prop
  | skip (h : s.cache.target < s.cache.size → ∀ i, s.cache.find id = some i →
      i.Evictable minUsage → i.versions = [] ∧ id ∈ s.keys) : Visit minUsage id s s
  | release {i : Item} {keys : List ℕ} (hi : s.cache.find id = some i)
      (hevict : i.Evictable minUsage) (hkeys : ∀ k, k ∈ keys ↔ k ∈ s.keys ∨ k = id) :
      Visit minUsage id s
        ⟨s.cache.releaseFirstStream i, keys, s.streamsLeft || decide (1 < i.versions.length)⟩

theorem visit_releaseFirst (minUsage : ℕ) (s : Sweep) (id : ℕ) :
    Visit minUsage id s (releaseFirst minUsage s id) := by
  unfold releaseFirst
  split_ifs with hsize
  · exact Visit.skip (fun hlt => absurd hlt (Nat.not_lt.2 hsize))
  · split
    · next hnone =>
      refine Visit.skip (fun _ i hi => ?_)
      rw [hnone] at hi
      cases hi
    · next i hi =>
      split_ifs with hevict
      · exact Visit.release hi hevict (by simp)
      · refine Visit.skip (fun _ j hj hfree => absurd hfree ?_)
        rwa [← Option.some.inj (hi.symm.trans hj)]

theorem visit_releaseNext (minUsage : ℕ) {s : Sweep} {id : ℕ} (hid : id ∈ s.keys) :
    Visit minUsage id s (releaseNext minUsage s id) := by
  unfold releaseNext
  split_ifs with hsize
  · exact Visit.skip (fun hlt => absurd hlt (Nat.not_lt.2 hsize))
  · split
    · next hnone =>
      refine Visit.skip (fun _ i hi => ?_)
      rw [hnone] at hi
      cases hi
    · next i hi =>
      split_ifs with hevict
      · refine Visit.release hi hevict.2 (fun k => ⟨Or.inl, ?_⟩)
        rintro (hk | rfl)
        · exact hk
        · exact hid
      · refine Visit.skip (fun _ j hj hfree => ⟨?_, hid⟩)
        rw [← Option.some.inj (hi.symm.trans hj)] at hfree ⊢
        by_contra hne
        exact hevict ⟨hne, hfree⟩

/-- What the visits of the items `ids` do. -/
structure Visited (minUsage : ℕ) (ids : List ℕ) (s t : Sweep) : Prop where
  evicting : Evicting minUsage t.cache
  limits : t.cache.target = s.cache.target ∧ t.cache.maxSize = s.cache.maxSize
  size : t.cache.size ≤ s.cache.size
  keys : ∀ k ∈ s.keys, k ∈ t.keys
  streams : t.cache.streams ≤ s.cache.streams
  more : t.streamsLeft = true → s.streamsLeft = true ∨ t.cache.streams < s.cache.streams
  evictable : ∀ k i, t.cache.find k = some i →
    ∃ i₀, s.cache.find k = some i₀ ∧ (i.Evictable minUsage ↔ i₀.Evictable minUsage)
  empty : ∀ k i, t.cache.find k = some i → i.versions = [] →
    k ∈ t.keys ∨ ∃ i₀, s.cache.find k = some i₀ ∧ i₀.versions = []
  /-- Above the target, every item that may be evicted was, and has more streams only if
  `streamsLeft` says so. -/
  done : t.cache.target < t.cache.size → ∀ k ∈ ids, ∀ i, t.cache.find k = some i →
    i.Evictable minUsage → k ∈ t.keys ∧ (t.streamsLeft = false → i.versions = [])

namespace Visited

variable {s t u : Sweep} {ids : List ℕ}

theorem refl (hs : Evicting minUsage s.cache) : Visited minUsage [] s s where
  evicting := hs
  limits := ⟨rfl, rfl⟩
  size := le_rfl
  keys := fun _ hk => hk
  streams := le_rfl
  more := Or.inl
  evictable := fun _ i hi => ⟨i, hi, Iff.rfl⟩
  empty := fun _ i hi hempty => Or.inr ⟨i, hi, hempty⟩
  done := fun _ _ hk => nomatch hk

theorem snoc (h : Visited minUsage ids s t) {id : ℕ} (hvisit : Visit minUsage id t u) :
    Visited minUsage (ids ++ [id]) s u := by
  cases hvisit with
  | skip hskip =>
      refine { h with done := fun hlt k hk i hi hevict => ?_ }
      rcases List.mem_append.1 hk with hk | hk
      · exact h.done hlt k hk i hi hevict
      · rw [List.mem_singleton.1 hk] at hi ⊢
        obtain ⟨hempty, hkey⟩ := hskip hlt i hi hevict
        exact ⟨hkey, fun _ => hempty⟩
  | @release j keys hj hevict hkeys =>
      have hstreams := streams_releaseFirstStream h.evicting.distinct hj
      have hsize := h.evicting.size_releaseFirstStream hj hevict
      have hlimits := target_releaseFirstStream t.cache j
      have hless := h.streams
      have hkey (k : ℕ) (hk : k ∈ t.keys) : k ∈ keys := (hkeys k).2 (Or.inl hk)
      have hself : id ∈ keys := (hkeys id).2 (Or.inr rfl)
      refine ⟨h.evicting.releaseFirstStream hj hevict.1 hevict.2,
        ⟨hlimits.1.trans h.limits.1, hlimits.2.trans h.limits.2⟩, hsize.trans h.size,
        fun k hk => hkey k (h.keys k hk), ?_, fun hleft => ?_, fun k i hi => ?_,
        fun k i hi hempty => ?_, fun hlt k hk i hi hfree => ?_⟩
      · simp only
        omega
      · rcases Bool.or_eq_true_iff.1 hleft with hleft | hleft
        · exact (h.more hleft).imp_right (fun hlt => by simp only; omega)
        · have hlong := of_decide_eq_true hleft
          refine Or.inr ?_
          simp only
          omega
      · rw [find_releaseFirstStream hj] at hi
        split_ifs at hi with hk
        · obtain ⟨i₀, hi₀, hiff⟩ := h.evictable id j hj
          rw [← Option.some.inj hi, hk, Item.withoutFirst_evictable]
          exact ⟨i₀, hi₀, hiff⟩
        · exact h.evictable k i hi
      · rw [find_releaseFirstStream hj] at hi
        split_ifs at hi with hk
        · exact Or.inl (hk ▸ hself)
        · exact (h.empty k i hi hempty).imp_left (hkey k)
      · have hlt' : t.cache.target < t.cache.size := by
          have htarget := hlimits.1
          simp only at hlt
          omega
        rw [find_releaseFirstStream hj] at hi
        simp only [Bool.or_eq_false_iff, decide_eq_false_iff_not]
        split_ifs at hi with hki
        · rw [← Option.some.inj hi, Item.withoutFirst_versions]
          refine ⟨hki ▸ hself, fun hleft => List.eq_nil_iff_length_eq_zero.2 ?_⟩
          rw [List.length_tail]
          omega
        · rcases List.mem_append.1 hk with hk | hk
          · obtain ⟨hmem, hleft⟩ := h.done hlt' k hk i hi hfree
            exact ⟨hkey k hmem, fun hnone => hleft hnone.1⟩
          · exact absurd (List.mem_singleton.1 hk) hki

theorem foldl {visit : Sweep → ℕ → Sweep}
    (hvisit : ∀ t : Sweep, ∀ id ∈ ids, (∀ k ∈ s.keys, k ∈ t.keys) →
      Visit minUsage id t (visit t id))
    (hs : Evicting minUsage s.cache) : Visited minUsage ids s (ids.foldl visit s) := by
  induction ids using List.reverseRecOn with
  | nil => exact refl hs
  | append_singleton ids id ih =>
      have h := ih (fun t k hk => hvisit t k (List.mem_append_left _ hk))
      rw [List.foldl_concat]
      exact h.snoc (hvisit _ id (List.mem_append_right _ (List.mem_singleton_self id)) h.keys)

end Visited

namespace Sweep

/-- The condition of the second loop of `_releaseItems`. -/
def Again (s : Sweep) : Prop := s.streamsLeft = true ∧ s.cache.target < s.cache.size

instance : DecidablePred Again := fun _ => inferInstanceAs (Decidable (_ ∧ _))

def turn (minUsage : ℕ) (s : Sweep) : Sweep :=
  s.keys.foldl (releaseNext minUsage) { s with streamsLeft := false }

end Sweep

/-- The first loop of `_releaseItems`. -/
def firstSweep (c : InstanceCache) (minUsage : ℕ) (order : List ℕ) : Sweep :=
  order.foldl (releaseFirst minUsage) ⟨c, [], false⟩

def Stocked (c : InstanceCache) : Prop := ∀ i ∈ c.items, i.versions ≠ []

def Covers (c : InstanceCache) (order : List ℕ) : Prop := ∀ i ∈ c.items, i.id ∈ order

instance (c : InstanceCache) (order : List ℕ) : Decidable (c.Covers order) :=
  List.decidableBAll _ _

/-- What holds between the turns of an eviction of `c`. -/
structure Sweeping (minUsage : ℕ) (order : List ℕ) (c : InstanceCache) (s : Sweep) : Prop where
  evicting : Evicting minUsage s.cache
  limits : s.cache.target = c.target ∧ s.cache.maxSize = c.maxSize
  empty : ∀ k i, s.cache.find k = some i → i.versions = [] → k ∈ s.keys
  done : s.cache.target < s.cache.size → ∀ k ∈ order, ∀ i, s.cache.find k = some i →
    i.Evictable minUsage → k ∈ s.keys ∧ (s.streamsLeft = false → i.versions = [])

namespace Sweeping

variable {order : List ℕ} {s : Sweep}

theorem sweeping_firstSweep (h : Evicting minUsage c) (hstocked : c.Stocked) (order : List ℕ) :
    Sweeping minUsage order c (c.firstSweep minUsage order) ∧
      ((c.firstSweep minUsage order).streamsLeft = true →
        (c.firstSweep minUsage order).cache.streams < c.streams) := by
  have hvisited : Visited minUsage order ⟨c, [], false⟩ (c.firstSweep minUsage order) :=
    Visited.foldl (fun t id _ _ => visit_releaseFirst minUsage t id) h
  refine ⟨⟨hvisited.evicting, hvisited.limits, fun k i hi hempty => ?_, hvisited.done⟩,
    fun hleft => ?_⟩
  · rcases hvisited.empty k i hi hempty with hk | ⟨i₀, hi₀, hempty₀⟩
    · exact hk
    · exact absurd hempty₀ (hstocked i₀ (Keyed.mem_of_lookup hi₀))
  · exact (hvisited.more hleft).resolve_left Bool.false_ne_true

theorem sweeping_turn (h : Sweeping minUsage order c s) (hagain : s.Again) :
    Sweeping minUsage order c (s.turn minUsage) ∧
      ((s.turn minUsage).streamsLeft = true →
        (s.turn minUsage).cache.streams < s.cache.streams) := by
  have hvisited : Visited minUsage s.keys { s with streamsLeft := false } (s.turn minUsage) :=
    Visited.foldl (fun t _ hid hkeys => visit_releaseNext minUsage (hkeys _ hid)) h.evicting
  refine ⟨⟨hvisited.evicting, ⟨hvisited.limits.1.trans h.limits.1,
    hvisited.limits.2.trans h.limits.2⟩, fun k i hi hempty => ?_, fun hlt k hk i hi hevict => ?_⟩,
    fun hleft => ?_⟩
  · rcases hvisited.empty k i hi hempty with hk | ⟨i₀, hi₀, hempty₀⟩
    · exact hk
    · exact hvisited.keys k (h.empty k i₀ hi₀ hempty₀)
  · obtain ⟨i₀, hi₀, hiff⟩ := hvisited.evictable k i hi
    exact hvisited.done hlt k (h.done hagain.2 k hk i₀ hi₀ (hiff.1 hevict)).1 i hi hevict
  · exact (hvisited.more hleft).resolve_left Bool.false_ne_true

end Sweeping

/-- The second loop terminates. -/
theorem loop_releaseMore (h : Evicting minUsage c) (hstocked : c.Stocked) (order : List ℕ) :
    Loop Sweep.Again (Sweep.turn minUsage) (c.firstSweep minUsage order)
      (releaseMore minUsage c.streams (c.firstSweep minUsage order)) := by
  obtain ⟨hfirst, hless⟩ := Sweeping.sweeping_firstSweep h hstocked order
  refine Loop.of_fuel (P := Sweeping minUsage order c)
    (m := fun s => if s.streamsLeft then s.cache.streams + 1 else 0)
    (fun _ => rfl) (fun _ _ => rfl) (fun s hs hagain => ?_) hfirst ?_
  · obtain ⟨hturn, hless⟩ := hs.sweeping_turn hagain
    refine ⟨hturn, ?_⟩
    simp only [hagain.1, if_true]
    split_ifs with hleft
    · exact Nat.add_lt_add_right (hless hleft) 1
    · exact Nat.succ_pos _
  · split_ifs with hleft
    · exact hless hleft
    · exact Nat.zero_le _

theorem foldl_eraseEmpty (hc : c.Distinct) (keys : List ℕ) :
    keys.foldl eraseEmpty c =
      { c with items := c.items.filter (fun i => ¬ (i.id ∈ keys ∧ i.versions = [])) } := by
  induction keys generalizing c with
  | nil => simp
  | cons k keys ih =>
      have hone : c.eraseEmpty k =
          { c with items := c.items.filter (fun i => ¬ (i.id = k ∧ i.versions = [])) } := by
        have hself (h : ∀ i ∈ c.items, i.id = k → i.versions ≠ []) :
            c.items.filter (fun i => ¬ (i.id = k ∧ i.versions = [])) = c.items :=
          List.filter_eq_self.2 (fun i hi => decide_eq_true (fun hk => h i hi hk.1 hk.2))
        unfold eraseEmpty
        split
        · next hnone =>
          rw [hself (fun i hi hid => absurd (List.mem_map.2 ⟨i, hi, hid⟩)
            (Keyed.lookup_eq_none_iff.1 hnone))]
        · next i hi =>
          split_ifs with hempty
          · refine congrArg (fun items => { c with items := items }) (List.filter_congr ?_)
            intro j hj
            by_cases hid : j.id = k
            · rw [← Keyed.eq_of_lookup hc hi hj hid] at hempty
              simp [hid, hempty]
            · simp [hid]
          · rw [hself (fun j hj hid => ?_)]
            rwa [Keyed.eq_of_lookup hc hi hj hid]
      have hc' : (c.eraseEmpty k).Distinct := by
        rw [hone]
        exact List.Nodup.sublist (List.filter_sublist.map _) hc
      rw [List.foldl_cons, ih hc', hone]
      simp only [List.filter_filter]
      refine congrArg (fun items => { c with items := items }) (List.filter_congr ?_)
      intro i _
      by_cases hempty : i.versions = [] <;> simp [hempty, Bool.and_comm]

/-- An eviction of `c` yields `c'`. -/
structure Evicted (minUsage : ℕ) (c c' : InstanceCache) : Prop where
  /-- Items that are pinned are neither removed nor shortened. -/
  pinned : ∀ i ∈ c.items, i.access ≠ 0 → i ∈ c'.items
  /-- The first streams of an item are deleted first. -/
  left : ∀ j ∈ c'.items, ∃ i ∈ c.items, j.LeftOf i
  stocked : c'.Stocked
  limits : c'.target = c.target ∧ c'.maxSize = c.maxSize
  enough : c'.size ≤ c.maxSize ∨ ∀ i ∈ c'.items, ¬ i.Evictable minUsage

theorem pinned_releaseItems (hc : c.Distinct) {i : Item} (hi : i ∈ c.items) (hpinned : i.access ≠ 0)
    (minUsage : ℕ) (order : List ℕ) : i ∈ (c.releaseItems minUsage order).items := by
  have hother {c : InstanceCache} {id : ℕ} {j : Item} (h : c.Distinct ∧ i ∈ c.items)
      (hj : c.find id = some j) (haccess : j.access = 0) : i.id ≠ id := by
    intro hid
    rw [Keyed.eq_of_lookup h.1 hj h.2 hid] at hpinned
    exact hpinned haccess
  refine (releaseItems_induct (P := fun c => c.Distinct ∧ i ∈ c.items)
    (fun c id j h hj haccess _ => ?_) (fun c id j h hj haccess _ => ?_) ⟨hc, hi⟩ order).2
  · have hne := hother h hj haccess
    have hid : j.id = id := Keyed.key_of_lookup hj
    rcases releaseFirstStream_cases c j with ⟨-, heq⟩ | ⟨s, versions, -, heq⟩
    · rwa [heq]
    · rw [heq]
      refine ⟨(h.1.set _).deleteStreams _, ?_⟩
      rw [items_deleteStreams]
      exact Keyed.mem_update_of_mem h.2 (fun he => hne (he.trans hid))
  · have hne := hother h hj haccess
    exact ⟨h.1.drop id, List.mem_filter.2 ⟨h.2, by simpa using hne⟩⟩

theorem left_releaseItems (c : InstanceCache) (minUsage : ℕ) (order : List ℕ) :
    ∀ j ∈ (c.releaseItems minUsage order).items, ∃ i ∈ c.items, j.LeftOf i := by
  refine releaseItems_induct (P := fun c' => ∀ j ∈ c'.items, ∃ i ∈ c.items, j.LeftOf i)
    (fun c' id j hc' hj _ _ => ?_) (fun c' id _ hc' _ _ _ => ?_)
    (fun i hi => ⟨i, hi, ⟨Item.ShrunkFrom.refl i, rfl, rfl⟩⟩) order
  · rcases releaseFirstStream_cases c' j with ⟨-, heq⟩ | ⟨s, versions, hversions, heq⟩
    · rwa [heq]
    · rw [heq, items_deleteStreams]
      intro j' hj'
      rcases mem_set hj' with rfl | hj'
      · obtain ⟨i, hi, hleft⟩ := hc' j (Keyed.mem_of_lookup hj)
        refine ⟨i, hi, ⟨Item.ShrunkFrom.trans ?_ hleft.shrunk, hleft.access, hleft.used⟩⟩
        exact ⟨rfl, hversions ▸ List.suffix_cons s versions, rfl, rfl⟩
      · exact hc' j' hj'
  · exact fun j hj => hc' j (List.mem_of_mem_filter hj)

theorem evicted_releaseItems (h : Evicting minUsage c) (hstocked : c.Stocked)
    (htarget : c.target ≤ c.maxSize) {order : List ℕ} (horder : c.Covers order) :
    Evicted minUsage c (c.releaseItems minUsage order) := by
  have hleft := left_releaseItems c minUsage order
  have hpinned := fun i hi hfree => pinned_releaseItems (i := i) h.distinct hi hfree minUsage order
  by_cases hsize : c.size ≤ c.maxSize
  · have hsame : c.releaseItems minUsage order = c := if_pos hsize
    rw [hsame] at hleft hpinned ⊢
    exact ⟨hpinned, hleft, hstocked, ⟨rfl, rfl⟩, Or.inl hsize⟩
  · have hloop := loop_releaseMore h hstocked order
    have hsweep := hloop.invariant (P := Sweeping minUsage order c)
      (fun s hs hagain => (hs.sweeping_turn hagain).1)
        (Sweeping.sweeping_firstSweep h hstocked order).1
    have hexit := hloop.not_cond
    have heq : c.releaseItems minUsage order =
        (releaseMore minUsage c.streams (c.firstSweep minUsage order)).keys.foldl eraseEmpty
          (releaseMore minUsage c.streams (c.firstSweep minUsage order)).cache := if_neg hsize
    generalize releaseMore minUsage c.streams (c.firstSweep minUsage order) = s at *
    rw [foldl_eraseEmpty hsweep.evicting.distinct] at heq
    have hmem : ∀ i ∈ (c.releaseItems minUsage order).items, s.cache.find i.id = some i ∧
        (i.id ∈ s.keys → i.versions ≠ []) := by
      intro i hi
      rw [heq] at hi
      obtain ⟨hi, hkept⟩ := List.mem_filter.1 hi
      exact ⟨Keyed.lookup_of_mem hsweep.evicting.distinct hi,
        fun hk hempty => of_decide_eq_true hkept ⟨hk, hempty⟩⟩
    refine ⟨hpinned, hleft, fun i hi hempty => ?_, ?_, ?_⟩
    · obtain ⟨hfind, hkept⟩ := hmem i hi
      exact hkept (hsweep.empty i.id i hfind hempty) hempty
    · rw [heq]
      exact hsweep.limits
    · by_cases hlt : s.cache.target < s.cache.size
      · refine Or.inr (fun i hi hevict => ?_)
        obtain ⟨hfind, hkept⟩ := hmem i hi
        obtain ⟨i₀, hi₀, hof⟩ := hleft i hi
        obtain ⟨hkey, hdone⟩ :=
          hsweep.done hlt i.id (hof.shrunk.id ▸ horder i₀ hi₀) i hfind hevict
        have hlast : s.streamsLeft = false := by
          by_contra hmore
          exact hexit ⟨by simpa using hmore, hlt⟩
        exact hkept hkey (hdone hlast)
      · refine Or.inl ?_
        rw [heq]
        have hlimit := hsweep.limits.1
        simp only
        omega

end InstanceCache

end Collage.Cache
