import Mathlib.Algebra.Order.BigOperators.Group.List
import Mathlib.Data.List.Chain
import Collage.Cache.Evict

/-!
# The limit of the instance cache

A cache that is larger than its limit holds nothing but pinned items. Every operation keeps this,
and with it the other things that are true of a cache between two operations, unless it deletes a
stream that waits for commands.
-/

namespace Collage.Cache

/-- The target of an eviction, `uint64_t( float( _maxSize ) * 0.8f )`. -/
def releaseTarget (maxSize : ℕ) : ℕ := Single.scale 13421773 24 maxSize

example : releaseTarget 100 = 80 := by decide +kernel

theorem releaseTarget_le (maxSize : ℕ) : releaseTarget maxSize ≤ maxSize :=
  Single.scale_le (by decide) maxSize

namespace Item

/-- Each version of an item is the one before it and one. -/
def Contiguous (i : Item) : Prop :=
  i.versions.IsChain (fun s t => t.getPendingVersion = s.getPendingVersion + 1)

variable {i j : Item} {chunk : Chunk} {usage : ℕ} {now : ℤ}

@[simp] theorem getPendingVersion_addDataCommand (s : DataStream) :
    (s.addDataCommand chunk).getPendingVersion = chunk.version := by
  simp [DataStream.getPendingVersion, DataStream.addDataCommand]

theorem Contiguous.concat {streams : List DataStream} {s : DataStream}
    (h : streams.IsChain (fun s t => t.getPendingVersion = s.getPendingVersion + 1))
    (hlast : ∀ back ∈ streams.getLast?, s.getPendingVersion = back.getPendingVersion + 1) :
    (streams ++ [s]).IsChain (fun s t => t.getPendingVersion = s.getPendingVersion + 1) := by
  refine List.IsChain.append h (List.IsChain.singleton s) (fun back hback t ht => ?_)
  rw [← Option.some.inj ht]
  exact hlast back hback

theorem Contiguous.push (h : i.Contiguous)
    (hnext : ∀ back ∈ i.versions.getLast?, back.getPendingVersion + 1 = chunk.version) :
    (i.push chunk now).Contiguous :=
  Contiguous.concat h (fun back hback => by
    rw [getPendingVersion_addDataCommand, hnext back hback])

theorem Contiguous.enter (h : i.Contiguous) {deleted : List DataStream}
    (henter : i.enter chunk now = some (deleted, j)) : j.Contiguous := by
  rcases enter_cases henter with ⟨-, rfl, hnext⟩ | ⟨-, back, hback, -, hversion, rfl⟩ | ⟨-, -, -, rfl⟩
  · exact h.push hnext
  · obtain ⟨init, hinit⟩ := List.getLast?_eq_some_iff.1 hback
    unfold Contiguous at h ⊢
    rw [hinit] at h ⊢
    simp only [List.dropLast_concat]
    refine Contiguous.concat h.left_of_append (fun s hs => ?_)
    rw [getPendingVersion_addDataCommand, ← hversion]
    exact (List.isChain_append.1 h).2.2 s hs back rfl
  · exact Contiguous.push (i := i.clear) List.IsChain.nil (fun _ hback => nomatch hback)

theorem Contiguous.of_added (h : i.Contiguous) (hadded : i.Added chunk usage now j) :
    j.Contiguous := by
  rcases hadded with ⟨-, rfl⟩ | ⟨deleted, taken, htake, hadded⟩
  · exact h
  have htaken : taken.Contiguous := by
    rcases take_cases htake with ⟨-, -, rfl⟩ | ⟨-, -, -, rfl⟩
    · exact h
    · exact List.IsChain.nil
  rcases hadded with ⟨-, rfl⟩ | ⟨deleted', henter⟩
  · exact htaken
  · exact htaken.enter henter

theorem Added.versions_ne_nil (h : i.Added chunk usage now j)
    (hi : i.versions ≠ [] ∨ ¬ i.Foreign chunk) : j.versions ≠ [] := by
  rcases h with ⟨htake, rfl⟩ | ⟨deleted, taken, htake, ⟨henter, rfl⟩ | ⟨deleted', henter⟩⟩
  · exact hi.resolve_right (not_not.2 (take_eq_none htake).1)
  · intro hempty
    rw [enter, hempty] at henter
    cases henter
  · rcases enter_cases henter with ⟨-, rfl, -⟩ | ⟨-, back, -, -, -, rfl⟩ | ⟨-, -, -, rfl⟩ <;>
      simp [push]

/-- Pins of the item of a command stay as they are, and so does its usage at least. -/
theorem Added.access_eq (h : i.Added chunk usage now j) :
    j.access = i.access ∧ (i.access ≠ 0 → i.used ≤ j.used) := by
  have hentered {taken : Item} {deleted : List DataStream}
      (h : taken.enter chunk now = some (deleted, j)) :
      j.access = taken.access ∧ j.used = taken.used := by
    rcases enter_cases h with ⟨-, rfl, -⟩ | ⟨-, back, -, -, -, rfl⟩ | ⟨-, -, -, rfl⟩ <;>
      exact ⟨rfl, rfl⟩
  have htaken {taken : Item} {deleted : List DataStream}
      (h : i.take chunk usage = some (deleted, taken)) :
      taken.access = i.access ∧ (i.access ≠ 0 → i.used ≤ taken.used) := by
    rcases take_cases h with ⟨-, -, rfl⟩ | ⟨-, hfree, -, rfl⟩
    · exact ⟨rfl, fun _ => le_max_left _ _⟩
    · exact ⟨rfl, fun hne => absurd hfree hne⟩
  rcases h with ⟨-, rfl⟩ | ⟨deleted, taken, htake, ⟨-, rfl⟩ | ⟨deleted', henter⟩⟩
  · exact ⟨rfl, fun _ => le_rfl⟩
  · exact htaken htake
  · obtain ⟨haccess, hused⟩ := hentered henter
    rw [haccess, hused]
    exact htaken htake

end Item

namespace InstanceCache

variable {c : InstanceCache}

def pinnedSize (c : InstanceCache) : ℕ :=
  ((c.items.filter (fun i => i.access ≠ 0)).map (fun i => readySize i.versions)).sum

/-- The cache is larger than its limit only if all items are pinned. -/
def Bounded (c : InstanceCache) : Prop := c.size ≤ c.maxSize ∨ ∀ i ∈ c.items, i.access ≠ 0

instance (c : InstanceCache) : Decidable c.Bounded := inferInstanceAs (Decidable (_ ∨ _))

structure WellFormed (c : InstanceCache) : Prop where
  distinct : c.Distinct
  accounted : c.Accounted
  target : c.target = releaseTarget c.maxSize
  stocked : c.Stocked
  contiguous : ∀ i ∈ c.items, i.Contiguous
  /-- A pinned item was used. -/
  used : ∀ i ∈ c.items, i.access ≠ 0 → 1 ≤ i.used

/-- What is true of a cache between two operations. -/
structure Valid (c : InstanceCache) : Prop where
  wellFormed : c.WellFormed
  bounded : c.Bounded

theorem Valid.start (maxSize : ℕ) : (start maxSize (releaseTarget maxSize)).Valid where
  wellFormed :=
    { distinct := List.nodup_nil
      accounted := ⟨rfl, by simp [InstanceCache.start], by simp [InstanceCache.start]⟩
      target := rfl
      stocked := fun _ hi => nomatch hi
      contiguous := fun _ hi => nomatch hi
      used := fun _ hi => nomatch hi }
  bounded := Or.inl (Nat.zero_le _)

theorem Bounded.size_le (h : c.Bounded) (hc : c.Accounted) :
    c.size ≤ max c.maxSize c.pinnedSize := by
  rcases h with h | h
  · exact h.trans (le_max_left _ _)
  · refine le_max_of_le_right ?_
    rw [hc.size, total, pinnedSize, List.filter_eq_self.2 (fun i hi => decide_eq_true (h i hi))]

namespace WellFormed

variable {minUsage : ℕ} {order : List ℕ}

theorem evicted_releaseItems (h : c.WellFormed) (hsafe : c.EvictionSafe minUsage)
    (horder : c.Covers order) : Evicted minUsage c (c.releaseItems minUsage order) := by
  by_cases hsize : c.size ≤ c.maxSize
  · have hsame : c.releaseItems minUsage order = c := if_pos hsize
    rw [hsame]
    exact ⟨fun _ hi _ => hi, fun i hi => ⟨i, hi, ⟨Item.ShrunkFrom.refl i, rfl, rfl⟩⟩, h.stocked,
      ⟨rfl, rfl⟩, Or.inl hsize⟩
  · exact InstanceCache.evicted_releaseItems
      ⟨h.accounted, h.distinct, hsafe.resolve_left hsize⟩ h.stocked
      (h.target ▸ releaseTarget_le _) horder

theorem releaseItems (h : c.WellFormed) (hsafe : c.EvictionSafe minUsage)
    (horder : c.Covers order) : (c.releaseItems minUsage order).WellFormed := by
  have hevicted := h.evicted_releaseItems hsafe horder
  refine ⟨h.distinct.releaseItems minUsage order, h.accounted.releaseItems h.distinct hsafe order,
    ?_, hevicted.stocked, fun j hj => ?_, fun j hj hpinned => ?_⟩
  · rw [hevicted.limits.1, hevicted.limits.2]
    exact h.target
  · obtain ⟨i, hi, hleft⟩ := hevicted.left j hj
    exact (h.contiguous i hi).suffix hleft.shrunk.versions
  · obtain ⟨i, hi, hleft⟩ := hevicted.left j hj
    rw [hleft.access] at hpinned
    rw [hleft.used]
    exact h.used i hi hpinned

theorem covers_releaseItems (h : c.Covers order) (minUsage : ℕ) (order' : List ℕ) :
    (c.releaseItems minUsage order').Covers order := by
  intro j hj
  obtain ⟨i, hi, hleft⟩ := left_releaseItems c minUsage order' j hj
  exact hleft.shrunk.id ▸ h i hi

theorem valid_evictions (h : c.WellFormed) (hsafe : c.EvictionSafe 1)
    (hsafe' : (c.releaseItems 1 order).EvictionSafe 0) (horder : c.Covers order) :
    ((c.releaseItems 1 order).releaseItems 0 order).Valid := by
  have h' := h.releaseItems hsafe horder
  have horder' := covers_releaseItems horder 1 order
  have hevicted := h'.evicted_releaseItems hsafe' horder'
  refine ⟨h'.releaseItems hsafe' horder', ?_⟩
  unfold Bounded
  rw [hevicted.limits.2]
  refine hevicted.enough.imp_right (fun hnone i hi hfree => ?_)
  exact hnone i hi ⟨hfree, Nat.zero_le _⟩

theorem valid_eviction (h : c.WellFormed) (hsafe : c.EvictionSafe 1)
    (hused : c.size ≤ c.maxSize ∨ ∀ i ∈ c.items, 1 ≤ i.used) (horder : c.Covers order) :
    (c.releaseItems 1 order).Valid := by
  have hevicted := h.evicted_releaseItems hsafe horder
  refine ⟨h.releaseItems hsafe horder, ?_⟩
  rcases hused with hsize | hused
  · rw [InstanceCache.releaseItems, if_pos hsize]
    exact Or.inl hsize
  · unfold Bounded
    rw [hevicted.limits.2]
    refine hevicted.enough.imp_right (fun hnone j hj hfree => ?_)
    obtain ⟨i, hi, hleft⟩ := hevicted.left j hj
    exact hnone j hj ⟨hfree, hleft.used ▸ hused i hi⟩

end WellFormed

theorem enter_cases (c : InstanceCache) (chunk : Chunk) (usage : ℕ) (now : ℤ) :
    ((c.enter chunk usage now).1 = true ∧ (c.enter chunk usage now).2.target = c.target ∧
      (c.enter chunk usage now).2.maxSize = c.maxSize) ∨
    ∃ i, c.find chunk.id = some i ∧ ((c.enter chunk usage now).2 = c ∨
      (c.enter chunk usage now).2 = c.set { i with used := max i.used usage }) := by
  have hlimits : (c.withItem chunk).target = c.target ∧
      (c.withItem chunk).maxSize = c.maxSize := by
    unfold withItem
    split_ifs <;> exact ⟨rfl, rfl⟩
  unfold InstanceCache.enter
  rcases withItem_cases c chunk with ⟨i, hi, heq⟩ | ⟨-, -, hi⟩
  · rw [heq, hi]
    simp only
    split
    · exact Or.inr ⟨i, rfl, Or.inl rfl⟩
    next deleted taken htake =>
    split
    · next henter =>
      refine Or.inr ⟨i, rfl, Or.inr ?_⟩
      rcases Item.take_cases htake with ⟨-, rfl, rfl⟩ | ⟨-, -, -, rfl⟩
      · rfl
      · cases henter
    · refine Or.inl ⟨rfl, ?_⟩
      simp only [target_deleteStreams]
      exact ⟨(target_deleteStreams _ _).1, (target_deleteStreams _ _).2⟩
  · rw [hi]
    have htake : (Item.create chunk).take chunk usage =
        some ([], { Item.create chunk with used := max (Item.create chunk).used usage }) := by
      simp [Item.take, Item.create]
    simp only [htake]
    refine Or.inl ⟨rfl, ?_⟩
    simp only [target_deleteStreams]
    exact hlimits

theorem WellFormed.enter (h : c.WellFormed) {chunk : Chunk}
    (hkeep : ∀ i, c.find chunk.id = some i → i.access = 0 → i.Foreign chunk ∨ i.Hole chunk →
      i.Complete) (usage : ℕ) (now : ℤ) : (c.enter chunk usage now).2.WellFormed := by
  have hitems {P : Item → Prop} (hall : ∀ i ∈ c.items, P i) (hcreate : P (Item.create chunk))
      {j : Item} (hj : j ∈ (c.enter chunk usage now).2.items) :
      P j ∨ ∃ i, P i ∧ i.Added chunk usage now j := by
    rcases enter_items h.distinct hj with ⟨hj, -⟩ | ⟨i, hi | ⟨-, rfl⟩, hadded⟩
    · exact Or.inl (hall j hj)
    · exact Or.inr ⟨i, hall i (Keyed.mem_of_lookup hi), hadded⟩
    · exact Or.inr ⟨_, hcreate, hadded⟩
  have hnative : ¬ (Item.create chunk).Foreign chunk := by
    simp [Item.Foreign, Item.create]
  refine ⟨h.distinct.enter chunk usage now, h.accounted.enter h.distinct hkeep usage now, ?_,
    fun j hj => ?_, fun j hj => ?_, fun j hj => ?_⟩
  · rcases enter_cases c chunk usage now with ⟨-, htarget, hmax⟩ | ⟨i, -, heq | heq⟩
    · rw [htarget, hmax]
      exact h.target
    · rw [heq]
      exact h.target
    · rw [heq]
      exact h.target
  · rcases enter_items h.distinct hj with ⟨hj, -⟩ | ⟨i, hi | ⟨-, rfl⟩, hadded⟩
    · exact h.stocked j hj
    · exact hadded.versions_ne_nil (Or.inl (h.stocked i (Keyed.mem_of_lookup hi)))
    · exact hadded.versions_ne_nil (Or.inr hnative)
  · rcases hitems h.contiguous List.IsChain.nil hj with hj | ⟨i, hi, hadded⟩
    · exact hj
    · exact hi.of_added hadded
  · rcases hitems (P := fun i => i.access ≠ 0 → 1 ≤ i.used) h.used
      (fun hne => absurd rfl hne) hj with hj | ⟨i, hi, hadded⟩
    · exact hj
    · obtain ⟨haccess, hused⟩ := hadded.access_eq
      rw [haccess]
      exact fun hpinned => (hi hpinned).trans (hused hpinned)

theorem WellFormed.set (h : c.WellFormed) {id : ℕ} {i i' : Item} (hi : c.find id = some i)
    (hid : i'.id = i.id) (hversions : i'.versions = i.versions)
    (hused : i'.access ≠ 0 → 1 ≤ i'.used) : (c.set i').WellFormed := by
  have hmem := Keyed.mem_of_lookup hi
  refine ⟨h.distinct.set i', h.accounted.set_of_versions_eq h.distinct hi i' hid hversions, h.target,
    fun j hj => ?_, fun j hj => ?_, fun j hj => ?_⟩
  all_goals rcases mem_set hj with rfl | hj
  · rw [hversions]
    exact h.stocked i hmem
  · exact h.stocked j hj
  · rw [Item.Contiguous, hversions]
    exact h.contiguous i hmem
  · exact h.contiguous j hj
  · exact hused
  · exact h.used j hj

theorem Bounded.set (h : c.Bounded) {id : ℕ} {i i' : Item} (hi : c.find id = some i)
    (hpinned : i.access ≠ 0 → i'.access ≠ 0) : (c.set i').Bounded := by
  refine h.imp_right (fun hall j hj => ?_)
  rcases mem_set hj with rfl | hj
  · exact hpinned (hall i (Keyed.mem_of_lookup hi))
  · exact hall j hj

theorem WellFormed.add (h : c.WellFormed) {chunk : Chunk} {usage : ℕ} {now : ℤ} {order : List ℕ}
    (hkeep : c.Keeps (.add chunk usage now order))
    (horder : (c.enter chunk usage now).2.Covers order)
    (hbounded : (c.add chunk usage now order).1 = true ∨ c.Bounded) :
    (c.add chunk usage now order).2.Valid := by
  have hentered := h.enter hkeep.1 usage now
  have hevict := hkeep.2
  have hcases := enter_cases c chunk usage now
  unfold InstanceCache.add at hbounded ⊢
  split at hbounded
  · next heq =>
    rw [heq] at hcases hentered
    obtain ⟨i, hi, hsame⟩ := hcases.resolve_left (fun hyes => Bool.false_ne_true hyes.1)
    have hbounded := hbounded.resolve_left Bool.false_ne_true
    refine ⟨hentered, ?_⟩
    rcases hsame with hsame | hsame
    · exact hsame ▸ hbounded
    · exact hsame ▸ hbounded.set hi id
  · next heq =>
    rw [heq] at hentered hevict horder
    exact hentered.valid_evictions (hevict rfl).1 (hevict rfl).2 horder

theorem Valid.of_leftOf (h : c.Valid) {c' : InstanceCache} (hdistinct : c'.Distinct)
    (haccounted : c'.Accounted) (hlimits : c'.target = c.target ∧ c'.maxSize = c.maxSize)
    (hless : c'.total ≤ c.total) (hstocked : c'.Stocked)
    (hleft : ∀ j ∈ c'.items, ∃ i ∈ c.items, j.LeftOf i) : c'.Valid := by
  refine ⟨⟨hdistinct, haccounted, ?_, hstocked, fun j hj => ?_, fun j hj hpinned => ?_⟩, ?_⟩
  · rw [hlimits.1, hlimits.2]
    exact h.wellFormed.target
  · obtain ⟨i, hi, hof⟩ := hleft j hj
    exact (h.wellFormed.contiguous i hi).suffix hof.shrunk.versions
  · obtain ⟨i, hi, hof⟩ := hleft j hj
    rw [hof.used]
    exact h.wellFormed.used i hi (hof.access ▸ hpinned)
  · rcases h.bounded with hsize | hall
    · refine Or.inl ?_
      rw [haccounted.size, hlimits.2]
      exact (hless.trans_eq h.wellFormed.accounted.size.symm).trans hsize
    · refine Or.inr (fun j hj => ?_)
      obtain ⟨i, hi, hof⟩ := hleft j hj
      rw [hof.access]
      exact hall i hi

theorem Valid.filter (h : c.Valid) (p : Item → Bool) {deleted : List DataStream}
    (haccounted : (({ c with items := c.items.filter p } : InstanceCache).deleteStreams
      deleted).Accounted) :
    (({ c with items := c.items.filter p } : InstanceCache).deleteStreams deleted).Valid := by
  refine h.of_leftOf ?_ haccounted (target_deleteStreams _ _) ?_ ?_ ?_
  · exact Distinct.deleteStreams (List.Nodup.sublist (List.filter_sublist.map _)
      h.wellFormed.distinct) _
  · unfold total
    rw [items_deleteStreams]
    exact (List.filter_sublist.map _).sum_le_sum (fun _ _ => Nat.zero_le _)
  · intro i hi
    rw [items_deleteStreams] at hi
    exact h.wellFormed.stocked i (List.mem_of_mem_filter hi)
  · intro i hi
    rw [items_deleteStreams] at hi
    exact ⟨i, List.mem_of_mem_filter hi, ⟨Item.ShrunkFrom.refl i, rfl, rfl⟩⟩

namespace Valid

theorem add (h : c.Valid) {chunk : Chunk} {usage : ℕ} {now : ℤ} {order : List ℕ}
    (hkeep : c.Keeps (.add chunk usage now order))
    (horder : (c.enter chunk usage now).2.Covers order) :
    (c.add chunk usage now order).2.Valid :=
  h.wellFormed.add hkeep horder (Or.inr h.bounded)

theorem access (h : c.Valid) (id : ℕ) : (c.access id).2.Valid := by
  unfold InstanceCache.access
  split
  · exact h
  · next i hi =>
    refine ⟨h.wellFormed.set hi rfl rfl (fun _ => Nat.le_add_left 1 _), h.bounded.set hi ?_⟩
    exact fun _ => Nat.succ_ne_zero _

theorem release (h : c.Valid) {id count : ℕ} {order : List ℕ}
    (hkeep : c.Keeps (.release id count order)) (horder : c.Covers order)
    (hcount : ∀ i, c.find id = some i → count ≤ i.access) :
    (c.release id count order).2.Valid := by
  unfold InstanceCache.release
  split
  · exact h
  · next i hi =>
    have hmem := Keyed.mem_of_lookup hi
    have hunpin : (c.unpin i count).WellFormed := by
      refine ⟨h.wellFormed.distinct.set _, h.wellFormed.accounted.unpin h.wellFormed.distinct hi _,
        h.wellFormed.target, fun j hj => ?_, fun j hj => ?_, fun j hj hpinned => ?_⟩
      all_goals rcases mem_set hj with rfl | hj
      · exact h.wellFormed.stocked i hmem
      · exact h.wellFormed.stocked j hj
      · exact h.wellFormed.contiguous i hmem
      · exact h.wellFormed.contiguous j hj
      · rw [wrapSub, if_pos (hcount i hi)] at hpinned
        exact h.wellFormed.used i hmem (fun hzero => hpinned (by simp only; omega))
      · exact h.wellFormed.used j hj hpinned
    have hcovers : (c.unpin i count).Covers order := by
      intro j hj
      rcases mem_set hj with rfl | hj
      · exact horder i hmem
      · exact horder j hj
    refine hunpin.valid_eviction (hkeep i hi) ?_ hcovers
    refine h.bounded.imp_right (fun hall j hj => ?_)
    rcases mem_set hj with rfl | hj
    · exact h.wellFormed.used i hmem (hall i hmem)
    · exact h.wellFormed.used j hj (hall j hj)

theorem remove (h : c.Valid) {node : ℕ} (hkeep : c.Keeps (.remove node)) :
    (c.remove node).Valid :=
  h.filter _ (h.wellFormed.accounted.remove hkeep)

theorem erase (h : c.Valid) {id : ℕ} (hkeep : c.Keeps (.erase id)) : (c.erase id).2.Valid := by
  unfold InstanceCache.erase
  split
  · exact h
  · next i hi =>
    split_ifs with haccess
    · exact h
    · have hdrop := h.wellFormed.accounted.drop h.wellFormed.distinct hi
        (hkeep i hi (not_not.1 haccess))
      exact h.filter _ hdrop

theorem expire (h : c.Valid) (now timeout : ℤ) : (c.expire now timeout).Valid := by
  have haccounted := h.wellFormed.accounted.expire now timeout
  have hdistinct : (c.expire now timeout).Distinct :=
    h.wellFormed.distinct.step (show c.step (.expire now timeout) = some _ from rfl)
  unfold InstanceCache.expire at haccounted hdistinct ⊢
  split_ifs at haccounted hdistinct ⊢
  · exact h
  · have hmem {j : Item} (hj : j ∈ ((c.items.map (Item.expire (now - timeout))).map
        Prod.snd).filter (fun i => i.access ≠ 0 ∨ i.versions ≠ [])) :
        ∃ i ∈ c.items, j = (i.expire (now - timeout)).2 ∧ (j.access ≠ 0 ∨ j.versions ≠ []) := by
      obtain ⟨hj, hkept⟩ := List.mem_filter.1 hj
      obtain ⟨p, hp, rfl⟩ := List.mem_map.1 hj
      obtain ⟨i, hi, rfl⟩ := List.mem_map.1 hp
      exact ⟨i, hi, rfl, of_decide_eq_true hkept⟩
    refine h.of_leftOf hdistinct haccounted (target_deleteStreams _ _) ?_ ?_ ?_
    · unfold total
      rw [items_deleteStreams, List.map_map]
      refine ((List.filter_sublist.map _).sum_le_sum (fun _ _ => Nat.zero_le _)).trans ?_
      rw [List.map_map]
      refine List.sum_le_sum (fun i _ => ?_)
      have hsize := (i.expire_size (now - timeout)).2
      simp only [Function.comp_apply]
      omega
    · intro j hj hempty
      rw [items_deleteStreams] at hj
      obtain ⟨i, hi, rfl, hkept⟩ := hmem hj
      have hpinned : (i.expire (now - timeout)).2.access ≠ 0 :=
        hkept.resolve_right (not_not.2 hempty)
      unfold Item.expire at hempty hpinned
      split_ifs at hempty hpinned with hfree
      · exact h.wellFormed.stocked i hi hempty
      · exact hpinned (not_not.1 hfree)
    · intro j hj
      rw [items_deleteStreams] at hj
      obtain ⟨i, hi, rfl, -⟩ := hmem hj
      refine ⟨i, hi, ⟨i.shrunkFrom_expire _, ?_, ?_⟩⟩ <;>
        · unfold Item.expire
          split_ifs <;> rfl

end Valid

/-- What the callers of the cache and its hash map promise: a sweep goes through all items, and
only pins that were taken are released. -/
def Used (c : InstanceCache) : Op → Prop
  | .add chunk usage now order => (c.enter chunk usage now).2.Covers order
  | .release id count order => c.Covers order ∧ ∀ i, c.find id = some i → count ≤ i.access
  | _ => True

instance (c : InstanceCache) : (op : Op) → Decidable (c.Used op)
  | .add chunk usage now order =>
      inferInstanceAs (Decidable ((c.enter chunk usage now).2.Covers order))
  | .release id count _ =>
      have := decidableFound (c.find id) (fun i => count ≤ i.access)
      instDecidableAnd
  | .access _ => isTrue trivial
  | .remove _ => isTrue trivial
  | .erase _ => isTrue trivial
  | .expire _ _ => isTrue trivial

theorem Valid.step (h : c.Valid) {op : Op} (hkeep : c.Keeps op) (hused : c.Used op)
    {c' : InstanceCache} (hs : c.step op = some c') : c'.Valid := by
  cases op <;> obtain rfl := Option.some.inj hs
  case add => exact h.add hkeep hused
  case access id => exact h.access id
  case release => exact h.release hkeep hused.1 hused.2
  case remove => exact h.remove hkeep
  case erase => exact h.erase hkeep
  case expire now timeout => exact h.expire now timeout

/-- In every run that deletes no stream that waits for commands, the cache is larger than its limit
only if all items are pinned. -/
theorem valid_run (maxSize : ℕ) {ops : List Op} {t : InstanceCache}
    (hops : Machine.Steps step (fun c op => c.Keeps op ∧ c.Used op)
      (start maxSize (releaseTarget maxSize)) ops)
    (hrun : Machine.run step (start maxSize (releaseTarget maxSize)) ops = some t) : t.Valid :=
  Machine.run_invariant Valid (fun _ _ _ h hok hs => h.step hok.1 hok.2 hs) (Valid.start maxSize)
    hops hrun

theorem complete_enter (hc : c.Distinct) (hready : ∀ i ∈ c.items, i.Complete) {chunk : Chunk}
    (hlast : chunk.isLast = true) (usage : ℕ) (now : ℤ) :
    ∀ i ∈ (c.enter chunk usage now).2.items, i.Complete := by
  intro j hj
  rcases enter_items hc hj with ⟨hj, -⟩ | ⟨i, hfound, hadded⟩
  · exact hready j hj
  have hi : i.Complete := by
    rcases hfound with hi | ⟨-, rfl⟩
    · exact hready i (Keyed.mem_of_lookup hi)
    · exact fun _ hs => nomatch hs
  rcases hadded with ⟨-, rfl⟩ | ⟨deleted, taken, htake, hadded⟩
  · exact hi
  have htaken : taken.Complete := by
    rcases Item.take_cases htake with ⟨-, -, rfl⟩ | ⟨-, -, -, rfl⟩
    · exact hi
    · exact fun _ hs => nomatch hs
  have hpush {k : Item} (hk : k.Complete) : (k.push chunk now).Complete := by
    intro s hs
    rcases List.mem_append.1 hs with hs | hs
    · exact hk s hs
    · rw [List.mem_singleton.1 hs]
      exact hlast
  rcases hadded with ⟨-, rfl⟩ | ⟨deleted', henter⟩
  · exact htaken
  · rcases Item.enter_cases henter with ⟨-, rfl, -⟩ | ⟨-, back, hback, hwait, -⟩ | ⟨-, -, -, rfl⟩
    · exact hpush htaken
    · rw [htaken back (List.mem_of_getLast? hback)] at hwait
      cases hwait
    · exact hpush (fun _ hs => nomatch hs)

theorem maxSize_releaseItems (c : InstanceCache) (minUsage : ℕ) (order : List ℕ) :
    (c.releaseItems minUsage order).maxSize = c.maxSize :=
  releaseItems_induct (P := fun c' => c'.maxSize = c.maxSize)
    (fun c' _ i h _ _ _ => (target_releaseFirstStream c' i).2.trans h) (fun _ _ _ h _ _ _ => h)
    rfl order

theorem maxSize_enter (c : InstanceCache) (chunk : Chunk) (usage : ℕ) (now : ℤ) :
    (c.enter chunk usage now).2.maxSize = c.maxSize := by
  rcases enter_cases c chunk usage now with ⟨-, -, hmax⟩ | ⟨i, -, heq | heq⟩
  · exact hmax
  · rw [heq]
  · rw [heq]
    rfl

theorem maxSize_add (c : InstanceCache) (chunk : Chunk) (usage : ℕ) (now : ℤ) (order : List ℕ) :
    (c.add chunk usage now order).2.maxSize = c.maxSize := by
  have henter := maxSize_enter c chunk usage now
  unfold InstanceCache.add
  split
  · next heq => rwa [heq] at henter
  · next heq =>
    rw [heq] at henter
    rw [maxSize_releaseItems, maxSize_releaseItems]
    exact henter

/-- When no stream waits for commands, or the command does not take the cache over its limit, none
that waits is deleted. -/
theorem keeps_add (hc : c.Distinct) (hready : ∀ i ∈ c.items, i.Complete) {chunk : Chunk}
    {usage : ℕ} {now : ℤ} (order : List ℕ)
    (h : chunk.isLast = true ∨ (c.enter chunk usage now).2.size ≤ c.maxSize) :
    c.Keeps (.add chunk usage now order) := by
  refine ⟨fun i hi _ _ => hready i (Keyed.mem_of_lookup hi), fun _ => ?_⟩
  rcases h with hlast | hsize
  · have hentered := complete_enter hc hready hlast usage now
    refine ⟨Or.inr (fun i hi _ _ => hentered i hi), Or.inr (fun j hj _ _ s hs => ?_)⟩
    obtain ⟨i, hi, hleft⟩ := left_releaseItems _ 1 order j hj
    exact hentered i hi s (hleft.shrunk.versions.mem hs)
  · rw [← maxSize_enter c chunk usage now] at hsize
    rw [releaseItems, if_pos hsize]
    exact ⟨Or.inl hsize, Or.inl hsize⟩

end InstanceCache

end Collage.Cache
