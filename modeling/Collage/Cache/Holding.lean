import Collage.Cache.Limit
import Collage.Cache.Pins

/-!
# What a pinned item holds

No operation takes a stream from an item that is pinned afterwards. A command for it adds a stream,
if it is of the version after the last one.
-/

namespace Collage.Cache

namespace Item

variable {i j : Item} {chunk : Chunk} {usage : ℕ} {now : ℤ}

theorem Added.mem_versions (h : i.Added chunk usage now j) (hready : i.Complete) {s : DataStream}
    (hs : s ∈ j.versions) : s ∈ i.versions ∨ s = ⟨[chunk], chunk.isLast⟩ := by
  rcases h with ⟨-, rfl⟩ | ⟨deleted, taken, htake, ⟨-, rfl⟩ | ⟨deleted', henter⟩⟩
  · exact Or.inl hs
  · exact Or.inl (mem_of_mem_take htake hs)
  · rcases enter_cases henter with ⟨-, rfl, -⟩ | ⟨-, back, hback, hwait, -⟩ | ⟨-, -, -, rfl⟩
    · refine (List.mem_append.1 hs).imp (mem_of_mem_take htake) List.mem_singleton.1
    · rw [hready back (mem_of_mem_take htake (List.mem_of_getLast? hback))] at hwait
      cases hwait
    · exact Or.inr (List.mem_singleton.1 hs)

/-- A command of a pinned item without unfinished streams is refused, or is of the next version. -/
theorem Added.versions_eq (h : i.Added chunk usage now j) (hready : i.Complete)
    (hpinned : i.access ≠ 0) :
    j.versions = i.versions ∨ (j.versions = i.versions ++ [⟨[chunk], chunk.isLast⟩] ∧
      ∀ back ∈ i.versions.getLast?, back.getPendingVersion + 1 = chunk.version) := by
  rcases h with ⟨-, rfl⟩ | ⟨deleted, taken, htake, hentered⟩
  · exact Or.inl rfl
  rcases take_cases htake with ⟨-, -, rfl⟩ | ⟨-, hfree, -, -⟩
  · rcases hentered with ⟨-, rfl⟩ | ⟨deleted', henter⟩
    · exact Or.inl rfl
    · rcases enter_cases henter with ⟨-, rfl, hnext⟩ | ⟨-, back, hback, hwait, -⟩ | ⟨-, hfree, -, -⟩
      · exact Or.inr ⟨rfl, hnext⟩
      · rw [hready back (List.mem_of_getLast? hback)] at hwait
        cases hwait
      · exact absurd hfree hpinned
  · exact absurd hfree hpinned

end Item

namespace InstanceCache

variable {c c' : InstanceCache} {id : ℕ}

def streamsOf (c : InstanceCache) (id : ℕ) : Option (List DataStream) :=
  (c.find id).map Item.versions

theorem streamsOf_eq_some {streams : List DataStream} :
    c.streamsOf id = some streams ↔ ∃ i, c.find id = some i ∧ i.versions = streams :=
  Option.map_eq_some_iff

theorem find_of_pinned (h : c.accessOf id ≠ 0) : ∃ i, c.find id = some i ∧ i.access ≠ 0 := by
  unfold accessOf at h
  cases hi : c.find id with
  | none =>
      rw [hi] at h
      exact absurd rfl h
  | some i =>
      rw [hi] at h
      exact ⟨i, rfl, h⟩

theorem find_of_mem (hc : c.Distinct) {i : Item} (hi : i ∈ c.items) (hid : i.id = id) :
    c.find id = some i :=
  hid ▸ Keyed.lookup_of_mem hc hi

theorem find_of_left (hc : c.Distinct) (hc' : c'.Distinct)
    (hleft : ∀ j ∈ c'.items, ∃ i ∈ c.items, i.id = j.id ∧ i.access = j.access)
    (hkept : ∀ i ∈ c.items, i.access ≠ 0 → i ∈ c'.items) (h : c'.accessOf id ≠ 0) :
    c'.find id = c.find id := by
  obtain ⟨j, hj, hpinned⟩ := find_of_pinned h
  obtain ⟨i, hi, hid, haccess⟩ := hleft j (Keyed.mem_of_lookup hj)
  have hid' : i.id = id := hid.trans (Keyed.key_of_lookup hj)
  rw [find_of_mem hc' (hkept i hi (haccess ▸ hpinned)) hid', find_of_mem hc hi hid']

theorem find_releaseItems (hc : c.Distinct) {minUsage : ℕ} {order : List ℕ}
    (h : (c.releaseItems minUsage order).accessOf id ≠ 0) :
    (c.releaseItems minUsage order).find id = c.find id := by
  refine find_of_left hc (hc.releaseItems minUsage order) (fun j hj => ?_)
    (fun i hi hpinned => pinned_releaseItems hc hi hpinned minUsage order) h
  obtain ⟨i, hi, hji⟩ := left_releaseItems c minUsage order j hj
  exact ⟨i, hi, hji.shrunk.id.symm, hji.access.symm⟩

theorem streamsOf_set {k : ℕ} {i i' : Item} (hi : c.find k = some i) (hid : i'.id = i.id)
    (hversions : i'.versions = i.versions) : (c.set i').streamsOf id = c.streamsOf id := by
  unfold streamsOf
  rcases eq_or_ne id k with rfl | hne
  · rw [find_set hi hid, hi, Option.map_some, Option.map_some, hversions]
  · rw [find_set_ne hi hid hne]

theorem streamsOf_access (c : InstanceCache) (k : ℕ) :
    (c.access k).2.streamsOf id = c.streamsOf id := by
  unfold access
  split
  · rfl
  · next i hi => exact streamsOf_set hi rfl rfl

theorem streamsOf_release (hc : c.Distinct) {k count : ℕ} {order : List ℕ}
    (h : (c.release k count order).2.accessOf id ≠ 0) :
    (c.release k count order).2.streamsOf id = c.streamsOf id := by
  unfold InstanceCache.release at h ⊢
  split at h
  · rfl
  · next i hi =>
    have hunpin : (c.unpin i count).Distinct := hc.set _
    rw [streamsOf, find_releaseItems hunpin h]
    exact streamsOf_set hi rfl rfl

theorem streamsOf_erase {k : ℕ} (h : (c.erase k).2.accessOf id ≠ 0) :
    (c.erase k).2.streamsOf id = c.streamsOf id := by
  unfold InstanceCache.erase at h ⊢
  split at h
  · rfl
  · split_ifs at h ⊢
    · rfl
    · rw [accessOf, find_deleteStreams, find_drop] at h
      rw [streamsOf, find_deleteStreams, find_drop]
      split_ifs at h ⊢
      · exact absurd rfl h
      · rfl

theorem find_remove (hc : c.Distinct) {node : ℕ} (h : (c.remove node).accessOf id ≠ 0) :
    (c.remove node).find id = c.find id := by
  have hitems : (c.remove node).items =
      c.items.filter (fun i => ¬ (i.sender = node ∧ i.access = 0)) := items_deleteStreams _ _
  have hs : c.step (.remove node) = some (c.remove node) := rfl
  refine find_of_left hc (hc.step hs) (fun j hj => ?_)
    (fun i hi hpinned => ?_) h
  · rw [hitems] at hj
    exact ⟨j, List.mem_of_mem_filter hj, rfl, rfl⟩
  · rw [hitems]
    exact List.mem_filter.2 ⟨hi, decide_eq_true (fun hfree => hpinned hfree.2)⟩

theorem find_expire (hc : c.Distinct) {now timeout : ℤ}
    (h : (c.expire now timeout).accessOf id ≠ 0) : (c.expire now timeout).find id = c.find id := by
  have hs : c.step (.expire now timeout) = some (c.expire now timeout) := rfl
  refine find_of_left hc (hc.step hs) (fun j hj => ?_)
    (fun i hi hpinned => ?_) h
  · unfold InstanceCache.expire at hj
    split_ifs at hj
    · exact ⟨j, hj, rfl, rfl⟩
    · rw [items_deleteStreams] at hj
      obtain ⟨p, hp, rfl⟩ := List.mem_map.1 (List.mem_of_mem_filter hj)
      obtain ⟨i, hi, rfl⟩ := List.mem_map.1 hp
      refine ⟨i, hi, (i.shrunkFrom_expire _).id.symm, ?_⟩
      unfold Item.expire
      split_ifs <;> rfl
  · unfold InstanceCache.expire
    split_ifs
    · exact hi
    · rw [items_deleteStreams]
      have hself : (i.expire (now - timeout)).2 = i := by
        rw [Item.expire, if_pos hpinned]
      refine List.mem_filter.2 ⟨List.mem_map.2 ⟨_, List.mem_map_of_mem hi, hself⟩, ?_⟩
      exact decide_eq_true (Or.inl hpinned)

theorem find_withItem_ne (c : InstanceCache) {chunk : Chunk} (hne : id ≠ chunk.id) :
    (c.withItem chunk).find id = c.find id := by
  rcases withItem_cases c chunk with ⟨i, -, heq⟩ | ⟨-, heq, -⟩
  · rw [heq]
  · have hcreate : ¬ (Item.create chunk).id = id := fun he => hne he.symm
    rw [heq]
    unfold find Keyed.lookup
    rw [List.find?_append, List.find?_cons_of_neg (by simpa using hcreate), List.find?_nil,
      Option.or_none]

theorem find_enter_ne (c : InstanceCache) {chunk : Chunk} {usage : ℕ} {now : ℤ}
    (hne : id ≠ chunk.id) : (c.enter chunk usage now).2.find id = c.find id := by
  have hitem := find_withItem_ne c hne
  obtain ⟨i, hi, -⟩ := withItem_found c chunk
  unfold InstanceCache.enter
  rw [hi]
  simp only
  split
  · exact hitem
  next deleted taken htake =>
  have hid := Item.take_id htake
  have htaken : (((c.withItem chunk).set taken).deleteStreams deleted).find id = c.find id := by
    rw [find_deleteStreams, find_set_ne hi hid hne, hitem]
  split
  · exact htaken
  next deleted' entered henter =>
  have hfind : (((c.withItem chunk).set taken).deleteStreams deleted).find chunk.id =
      some taken := by
    rw [find_deleteStreams]
    exact find_set hi hid
  change ((_ : InstanceCache).deleteStreams deleted').find id = _
  rw [find_deleteStreams, find_set_ne hfind (Item.enter_id henter) hne, htaken]

/-- An item that is pinned after a command was added is as it was when the command was entered. -/
theorem find_add (hc : c.Distinct) {chunk : Chunk} {usage : ℕ} {now : ℤ} {order : List ℕ}
    (h : (c.add chunk usage now order).2.accessOf id ≠ 0) :
    (c.add chunk usage now order).2.find id = (c.enter chunk usage now).2.find id := by
  have henter := hc.enter chunk usage now
  unfold InstanceCache.add at h ⊢
  split at h
  · next heq => rw [heq]
  · next heq =>
    rw [heq] at henter ⊢
    have hfind := find_releaseItems (henter.releaseItems 1 order) h
    rw [accessOf, hfind] at h
    exact hfind.trans (find_releaseItems henter h)

/-- All operations but a command for the item itself leave the streams of an item that is pinned
afterwards as they were. -/
theorem streamsOf_step (hc : c.Distinct) {op : Op} (hs : c.step op = some c')
    (hop : ∀ chunk usage now order, op = .add chunk usage now order → id ≠ chunk.id)
    (h : c'.accessOf id ≠ 0) : c'.streamsOf id = c.streamsOf id := by
  cases op with
  | add chunk usage now order =>
      obtain rfl := Option.some.inj hs
      rw [streamsOf, find_add hc h, find_enter_ne c (hop chunk usage now order rfl), streamsOf]
  | access k =>
      obtain rfl := Option.some.inj hs
      exact streamsOf_access c k
  | release k count order =>
      obtain rfl := Option.some.inj hs
      exact streamsOf_release hc h
  | remove node =>
      obtain rfl := Option.some.inj hs
      rw [streamsOf, find_remove hc h, streamsOf]
  | erase k =>
      obtain rfl := Option.some.inj hs
      exact streamsOf_erase h
  | expire now timeout =>
      obtain rfl := Option.some.inj hs
      rw [streamsOf, find_expire hc h, streamsOf]

theorem streamsOf_add (hc : c.Distinct) {chunk : Chunk} {usage : ℕ} {now : ℤ} {order : List ℕ}
    {streams : List DataStream} (hstreams : c.streamsOf chunk.id = some streams)
    (hready : ∀ s ∈ streams, s.isReady = true)
    (h : (c.add chunk usage now order).2.accessOf chunk.id ≠ 0) :
    (c.add chunk usage now order).2.streamsOf chunk.id = some streams ∨
      ((c.add chunk usage now order).2.streamsOf chunk.id =
          some (streams ++ [⟨[chunk], chunk.isLast⟩]) ∧
        ∀ back ∈ streams.getLast?, back.getPendingVersion + 1 = chunk.version) := by
  obtain ⟨i, hi, rfl⟩ := streamsOf_eq_some.1 hstreams
  have hfind := find_add hc h
  obtain ⟨j, hj, hpinned⟩ := find_of_pinned h
  rw [hfind] at hj
  rw [streamsOf, hfind, hj, Option.map_some]
  rcases enter_items hc (Keyed.mem_of_lookup hj) with ⟨-, hne⟩ | ⟨i', hfound, hadded⟩
  · exact absurd (Keyed.key_of_lookup hj) hne
  · have hi' : i' = i := by
      rcases hfound with hi' | ⟨hnone, -⟩
      · exact Option.some.inj (hi'.symm.trans hi)
      · cases hi.symm.trans hnone
    subst hi'
    rw [hadded.access_eq.1] at hpinned
    exact (hadded.versions_eq hready hpinned).imp (congrArg some)
      (And.imp_left (congrArg some))

def Every (id : ℕ) (Q : DataStream → Prop) (c : InstanceCache) : Prop :=
  ∀ i ∈ c.items, i.id = id → ∀ s ∈ i.versions, Q s

variable {Q : DataStream → Prop}

theorem shrinks_enter (c : InstanceCache) (chunk : Chunk) (usage : ℕ) (now : ℤ) (order : List ℕ) :
    (c.enter chunk usage now).2.Shrinks (c.add chunk usage now order).2 := by
  unfold InstanceCache.add
  split
  · next heq =>
    rw [heq]
    exact Shrinks.refl _
  · next heq =>
    rw [heq]
    exact ((Shrinks.refl _).releaseItems 1 order).releaseItems 0 order

structure Spares (id : ℕ) (c c' : InstanceCache) : Prop where
  shrinks : ∀ j ∈ c'.items, j.id = id → ∃ i ∈ c.items, j.ShrunkFrom i
  streams : c'.accessOf id ≠ 0 → c'.streamsOf id = c.streamsOf id

theorem Spares.refl (c : InstanceCache) : c.Spares id c :=
  ⟨fun j hj _ => ⟨j, hj, Item.ShrunkFrom.refl j⟩, fun _ => rfl⟩

theorem spares_step (hc : c.Distinct) {op : Op} (hs : c.step op = some c')
    (hop : ∀ chunk usage now order, op = .add chunk usage now order → id ≠ chunk.id) :
    c.Spares id c' := by
  refine ⟨fun j hj hid => ?_, streamsOf_step hc hs hop⟩
  by_cases hadd : ∃ chunk usage now order, op = .add chunk usage now order
  · obtain ⟨chunk, usage, now, order, rfl⟩ := hadd
    obtain rfl := Option.some.inj hs
    have hne := hop chunk usage now order rfl
    obtain ⟨i, hi, hji⟩ := shrinks_enter c chunk usage now order j hj
    have hid' : i.id = id := hji.id.symm.trans hid
    rcases enter_items hc hi with ⟨hi, -⟩ | ⟨i', hfound, hadded⟩
    · exact ⟨i, hi, hji⟩
    · exact absurd (hid'.symm.trans (hadded.id_eq.trans hfound.id_eq)) hne
  · exact shrinks_step (fun chunk usage now order he => hadd ⟨chunk, usage, now, order, he⟩) hs j hj

theorem spares_access_release (hc : c.Distinct) (k count : ℕ) (order : List ℕ) :
    c.Spares id ((c.access k).2.release k count order).2 := by
  have hpin : c.step (.access k) = some (c.access k).2 := rfl
  have hrelease : (c.access k).2.step (.release k count order) =
      some ((c.access k).2.release k count order).2 := rfl
  refine ⟨fun j hj _ => ?_,
    fun h => (streamsOf_release (hc.step hpin) h).trans (streamsOf_access c k)⟩
  obtain ⟨i, hi, hji⟩ := shrinks_step (fun _ _ _ _ he => by cases he) hrelease j hj
  obtain ⟨i', hi', hii'⟩ := shrinks_step (fun _ _ _ _ he => by cases he) hpin i hi
  exact ⟨i', hi', hji.trans hii'⟩

theorem spares_handleReply (hc : c.Distinct) (k : ℕ) (reply : Reply) (order : List ℕ) :
    c.Spares id (Store.handleReply c k reply order) := by
  have hs : c.step (.release k 1 order) = some (c.release k 1 order).2 := rfl
  have hrelease : c.Spares id (c.release k 1 order).2 :=
    spares_step hc hs (by rintro _ _ _ _ ⟨⟩)
  unfold Store.handleReply
  split_ifs
  · exact spares_access_release hc k 2 order
  · exact hrelease
  · exact Spares.refl c
  · exact hrelease
  · exact Spares.refl c

theorem Every.of_spares (h : c.Every id Q) (hspares : c.Spares id c') : c'.Every id Q := by
  intro j hj hid s hs
  obtain ⟨i, hi, hji⟩ := hspares.shrinks j hj hid
  exact h i hi (hji.id.symm.trans hid) s (hji.versions.mem hs)

theorem Every.add (h : c.Every id Q) (hc : c.Distinct) (hready : ∀ s, Q s → s.isReady = true)
    {chunk : Chunk} (hchunk : chunk.id = id → Q ⟨[chunk], chunk.isLast⟩) (usage : ℕ) (now : ℤ)
    (order : List ℕ) : (c.add chunk usage now order).2.Every id Q := by
  have henter : (c.enter chunk usage now).2.Every id Q := by
    intro j hj hid s hs
    rcases enter_items hc hj with ⟨hj, -⟩ | ⟨i, hfound, hadded⟩
    · exact h j hj hid s hs
    · have hi : i.id = id := hadded.id_eq.symm.trans hid
      have hstreams : ∀ s ∈ i.versions, Q s := by
        rcases hfound with hfound | ⟨-, rfl⟩
        · exact h i (Keyed.mem_of_lookup hfound) hi
        · exact fun _ hs => nomatch hs
      rcases hadded.mem_versions (fun s hs => hready s (hstreams s hs)) hs with hs | rfl
      · exact hstreams s hs
      · exact hchunk (hfound.id_eq.symm.trans hi)
  intro j hj hid s hs
  obtain ⟨i, hi, hji⟩ := shrinks_enter c chunk usage now order j hj
  exact henter i hi (hji.id.symm.trans hid) s (hji.versions.mem hs)

theorem Every.streams (h : c.Every id Q) {streams : List DataStream}
    (hstreams : c.streamsOf id = some streams) : ∀ s ∈ streams, Q s := by
  obtain ⟨i, hi, rfl⟩ := streamsOf_eq_some.1 hstreams
  exact h i (Keyed.mem_of_lookup hi) (Keyed.key_of_lookup hi)

end InstanceCache

namespace Store

variable {S : Type} {st st' : Store} {id : ℕ}

def streamsOf (st : Store) (id : ℕ) : Option (List DataStream) :=
  st.cache.bind (fun c => c.streamsOf id)

/-- What an operation of the store leaves of an item. -/
def Spares (id : ℕ) (st st' : Store) : Prop :=
  ∃ f : InstanceCache → InstanceCache, st'.cache = st.cache.map f ∧
    ∀ c ∈ st.cache, c.Distinct → c.Spares id (f c)

theorem spares_step {op : StoreOp S} (hs : st.step op = some st')
    (hop : ∀ chunk usage now order, op = .add chunk usage now order → id ≠ chunk.id) :
    st.Spares id st' := by
  have hstep (op : Op) (f : InstanceCache → InstanceCache)
      (hf : ∀ c : InstanceCache, c.step op = some (f c))
      (hop : ∀ chunk usage now order, op = .add chunk usage now order → id ≠ chunk.id) :
      ∀ c ∈ st.cache, c.Distinct → c.Spares id (f c) :=
    fun c _ hc => InstanceCache.spares_step hc (hf c) hop
  cases op with
  | map requestID k master version maxVersion instanceID =>
      simp only [Store.step] at hs
      split_ifs at hs
      obtain rfl := Option.some.inj hs
      refine ⟨fun c => (c.access k).2, ?_,
        hstep (.access k) _ (fun _ => rfl) (by rintro _ _ _ _ ⟨⟩)⟩
      simp only [mapNB, checkInstanceCache]
      cases st.cache <;> rfl
  | sync requestID k master instanceID order =>
      simp only [Store.step] at hs
      split_ifs at hs
      obtain rfl := Option.some.inj hs
      have hcache : (checkInstanceCache st.cache k).2 = st.cache.map (fun c => (c.access k).2) := by
        cases st.cache <;> rfl
      simp only [startSync, hcache]
      split_ifs
      · refine ⟨fun c => ((c.access k).2.release k 1 order).2, Option.map_map _ _ _,
          fun c _ hc => InstanceCache.spares_access_release hc k 1 order⟩
      · exact ⟨fun c => (c.access k).2, rfl,
          hstep (.access k) _ (fun _ => rfl) (by rintro _ _ _ _ ⟨⟩)⟩
  | answer requestID cm =>
      simp only [Store.step, Store.answer] at hs
      split at hs
      · cases hs
      · split_ifs at hs <;> obtain rfl := Option.some.inj hs <;>
          exact ⟨fun c => c, Option.map_id'.symm ▸ rfl, fun c _ _ => InstanceCache.Spares.refl c⟩
  | deliver requestID order =>
      simp only [Store.step, Store.deliver] at hs
      split at hs
      · cases hs
      next r _ =>
      split at hs
      · cases hs
      next reply _ =>
      obtain rfl := Option.some.inj hs
      exact ⟨fun c => handleReply c r.command.objectID reply order, rfl,
        fun c _ hc => InstanceCache.spares_handleReply hc _ reply order⟩
  | add chunk usage now order =>
      obtain rfl := Option.some.inj hs
      refine ⟨_, rfl, hstep (.add chunk usage now order) _ (fun _ => rfl)
        (fun chunk' _ _ _ he => ?_)⟩
      cases he
      exact hop chunk usage now order rfl
  | erase k =>
      obtain rfl := Option.some.inj hs
      exact ⟨_, rfl, hstep (.erase k) _ (fun _ => rfl) (by rintro _ _ _ _ ⟨⟩)⟩
  | expire now timeout =>
      obtain rfl := Option.some.inj hs
      exact ⟨_, rfl, hstep (.expire now timeout) _ (fun _ => rfl)
        (by rintro _ _ _ _ ⟨⟩)⟩
  | disconnect node =>
      obtain rfl := Option.some.inj hs
      exact ⟨_, rfl, hstep (.remove node) _ (fun _ => rfl) (by rintro _ _ _ _ ⟨⟩)⟩

theorem Balanced.exists_cache (h : st.Balanced) (hpins : st.pins id ≠ 0) :
    ∃ c, st.cache = some c ∧ c.accessOf id ≠ 0 := by
  cases hcache : st.cache with
  | none =>
      refine absurd (List.countP_eq_zero.2 (fun r hr => ?_)) hpins
      simp [h.disabled hcache r hr]
  | some c => exact ⟨c, rfl, (h.cache c hcache).access id ▸ hpins⟩

theorem Spares.streamsOf (h : st.Spares id st') (hst : st.Balanced) (hst' : st'.Balanced)
    (hpins : st'.pins id ≠ 0) : st'.streamsOf id = st.streamsOf id := by
  obtain ⟨f, hcache, hf⟩ := h
  obtain ⟨c', hc', hpinned⟩ := hst'.exists_cache hpins
  rw [hcache] at hc'
  obtain ⟨c, hc, rfl⟩ := Option.map_eq_some_iff.1 hc'
  rw [Store.streamsOf, Store.streamsOf, hcache, hc]
  exact (hf c hc (hst.cache c hc).distinct).streams hpinned

theorem Balanced.streamsOf_add (h : st.Balanced) {chunk : Chunk} {usage : ℕ} {now : ℤ}
    {order : List ℕ} (hs : st.step (S := S) (.add chunk usage now order) = some st')
    (hst' : st'.Balanced) (hpins : st'.pins chunk.id ≠ 0) {streams : List DataStream}
    (hstreams : st.streamsOf chunk.id = some streams)
    (hready : ∀ s ∈ streams, s.isReady = true) :
    st'.streamsOf chunk.id = some streams ∨
      (st'.streamsOf chunk.id = some (streams ++ [⟨[chunk], chunk.isLast⟩]) ∧
        ∀ back ∈ streams.getLast?, back.getPendingVersion + 1 = chunk.version) := by
  obtain ⟨c', hc', hpinned⟩ := hst'.exists_cache hpins
  obtain rfl := Option.some.inj hs
  obtain ⟨c, hc, rfl⟩ := Option.map_eq_some_iff.1 hc'
  have hstreams' : c.streamsOf chunk.id = some streams := by
    rwa [Store.streamsOf, hc] at hstreams
  rw [Store.streamsOf, hc]
  exact InstanceCache.streamsOf_add (h.cache c hc).distinct hstreams' hready hpinned

/-- All streams of an item of the cache have a property. -/
def Every (id : ℕ) (Q : DataStream → Prop) (st : Store) : Prop := ∀ c ∈ st.cache, c.Every id Q

variable {Q : DataStream → Prop}

theorem Every.of_spares (h : st.Every id Q) (hst : st.Balanced) (hspares : st.Spares id st') :
    st'.Every id Q := by
  obtain ⟨f, hcache, hf⟩ := hspares
  intro c' hc'
  rw [hcache] at hc'
  obtain ⟨c, hc, rfl⟩ := Option.map_eq_some_iff.1 hc'
  exact (h c hc).of_spares (hf c hc (hst.cache c hc).distinct)

theorem Every.add (h : st.Every id Q) (hst : st.Balanced) (hready : ∀ s, Q s → s.isReady = true)
    {chunk : Chunk} {usage : ℕ} {now : ℤ} {order : List ℕ}
    (hs : st.step (S := S) (.add chunk usage now order) = some st')
    (hchunk : chunk.id = id → Q ⟨[chunk], chunk.isLast⟩) : st'.Every id Q := by
  obtain rfl := Option.some.inj hs
  intro c' hc'
  obtain ⟨c, hc, rfl⟩ := Option.map_eq_some_iff.1 hc'
  exact (h c hc).add (hst.cache c hc).distinct hready hchunk usage now order

theorem Every.streams (h : st.Every id Q) {streams : List DataStream}
    (hstreams : st.streamsOf id = some streams) : ∀ s ∈ streams, Q s := by
  obtain ⟨c, hc, hstreams⟩ := Option.bind_eq_some_iff.1 hstreams
  exact (h c hc).streams hstreams

end Store

end Collage.Cache
