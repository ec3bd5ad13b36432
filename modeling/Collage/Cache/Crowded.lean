import Collage.Cache.Limit

/-!
# Commands for a full cache

Pinned items may take a cache over its limit. A command that does not complete its version is then
evicted with the new item it was added to. Its stream was not counted in the size of the cache, but
`_deleteStream` takes it off.
-/

namespace Collage.Cache

namespace InstanceCache

variable {c : InstanceCache}

theorem releaseItems_of_not_evictable {minUsage : ℕ} (h : ∀ i ∈ c.items, ¬ i.Evictable minUsage)
    (order : List ℕ) : c.releaseItems minUsage order = c := by
  have hfirst : order.foldl (releaseFirst minUsage) ⟨c, [], false⟩ = ⟨c, [], false⟩ := by
    refine List.foldlRecOn (motive := fun s : Sweep => s = ⟨c, [], false⟩) order _ rfl ?_
    rintro s rfl id -
    unfold releaseFirst
    split_ifs
    · rfl
    · split
      · rfl
      · next i hi => exact if_neg (h i (Keyed.mem_of_lookup hi))
  have hmore (n : ℕ) : releaseMore minUsage n ⟨c, [], false⟩ = ⟨c, [], false⟩ := by
    cases n with
    | zero => rfl
    | succ n => exact if_neg (fun hleft => Bool.false_ne_true hleft.1)
  simp only [releaseItems, hfirst, hmore]
  split_ifs <;> rfl

/-- A cache that holds pinned items and one more, with a single stream. -/
structure OneFree (c : InstanceCache) (pinned : List Item) (i : Item) (s : DataStream) : Prop where
  items : c.items = pinned ++ [i]
  access : ∀ j ∈ pinned, j.access ≠ 0
  id : ∀ j ∈ pinned, j.id ≠ i.id
  versions : i.versions = [s]

namespace OneFree

variable {pinned : List Item} {i : Item} {s : DataStream} {minUsage : ℕ}

theorem find_eq (h : c.OneFree pinned i s) (id : ℕ) :
    (id = i.id ∧ c.find id = some i) ∨
      (id ≠ i.id ∧ ∀ j, c.find id = some j → j ∈ pinned) := by
  by_cases hid : id = i.id
  · refine Or.inl ⟨hid, ?_⟩
    have hnone : Keyed.lookup Item.id i.id pinned = none := by
      rw [Keyed.lookup_eq_none_iff, List.mem_map]
      rintro ⟨j, hj, he⟩
      exact h.id j hj he
    rw [find, h.items, hid]
    unfold Keyed.lookup at hnone ⊢
    rw [List.find?_append, hnone, Option.none_or]
    simp
  · refine Or.inr ⟨hid, fun j hj => ?_⟩
    have hmem := Keyed.mem_of_lookup hj
    rw [h.items] at hmem
    rcases List.mem_append.1 hmem with hmem | hmem
    · exact hmem
    · rw [List.mem_singleton.1 hmem] at hj
      exact absurd (Keyed.key_of_lookup hj).symm hid

theorem releaseFirstStream_eq (h : c.OneFree pinned i s) :
    c.releaseFirstStream i = (({ c with
      items := pinned ++ [{ i with versions := [], times := i.times.tail }] } : InstanceCache)
        |>.deleteStream s) := by
  have hpinned : Keyed.update Item.id i.id
      (fun _ => { i with versions := [], times := i.times.tail }) pinned = pinned := by
    refine (List.map_congr_left (fun j hj => ?_)).trans (List.map_id pinned)
    exact if_neg (h.id j hj)
  have hset : c.set { i with versions := [], times := i.times.tail } = { c with
      items := pinned ++ [{ i with versions := [], times := i.times.tail }] } := by
    have hsplit : Keyed.update Item.id i.id
        (fun _ => { i with versions := [], times := i.times.tail }) (pinned ++ [i]) =
          pinned ++ [{ i with versions := [], times := i.times.tail }] := by
      unfold Keyed.update at hpinned ⊢
      rw [List.map_append, hpinned]
      simp
    rw [set, h.items, hsplit]
  unfold releaseFirstStream
  rw [h.versions]
  simp only [hset]

theorem find_released (h : c.OneFree pinned i s) (id : ℕ) :
    (id = i.id ∧ (c.releaseFirstStream i).find id = some i.withoutFirst) ∨
      (id ≠ i.id ∧ ∀ j, (c.releaseFirstStream i).find id = some j → j ∈ pinned) := by
  have hself : c.find i.id = some i := by
    rcases h.find_eq i.id with ⟨-, hi⟩ | ⟨hne, -⟩
    · exact hi
    · exact absurd rfl hne
  rw [find_releaseFirstStream hself]
  rcases h.find_eq id with ⟨hid, -⟩ | ⟨hid, hfind⟩
  · exact Or.inl ⟨hid, if_pos hid⟩
  · rw [if_neg hid]
    exact Or.inr ⟨hid, hfind⟩

theorem firstSweep_eq (h : c.OneFree pinned i s) (hfree : i.Evictable minUsage)
    (hsize : c.target < c.size) {order : List ℕ} (horder : i.id ∈ order) :
    ∃ keys : List ℕ, (∀ k, k ∈ keys ↔ k = i.id) ∧
      c.firstSweep minUsage order = ⟨c.releaseFirstStream i, keys, false⟩ := by
  have hskip {c' : InstanceCache} {keys : List ℕ} {id : ℕ}
      (hfind : ∀ j, c'.find id = some j → j ∈ pinned) :
      releaseFirst minUsage ⟨c', keys, false⟩ id = ⟨c', keys, false⟩ := by
    unfold releaseFirst
    split_ifs
    · rfl
    · split
      · rfl
      · next j hj => exact if_neg (fun he => h.access j (hfind j hj) he.1)
  have hall : (i.id ∉ order ∧ c.firstSweep minUsage order = ⟨c, [], false⟩) ∨
      ∃ keys : List ℕ, (∀ k, k ∈ keys ↔ k = i.id) ∧
        c.firstSweep minUsage order = ⟨c.releaseFirstStream i, keys, false⟩ := by
    unfold firstSweep
    clear horder
    induction order using List.reverseRecOn with
    | nil => exact Or.inl ⟨List.not_mem_nil, rfl⟩
    | append_singleton order id ih =>
        rw [List.foldl_concat]
        rcases ih with ⟨hnot, heq⟩ | ⟨keys, hkeys, heq⟩
        · rw [heq]
          rcases h.find_eq id with ⟨rfl, hfind⟩ | ⟨hne, hfind⟩
          · refine Or.inr ⟨[i.id], fun k => List.mem_singleton, ?_⟩
            unfold releaseFirst
            rw [if_neg (Nat.not_le.2 hsize)]
            simp only [hfind]
            rw [if_pos (show i.access = 0 ∧ minUsage ≤ i.used from hfree), h.versions]
            rfl
          · refine Or.inl ⟨fun hmem => ?_, hskip hfind⟩
            rcases List.mem_append.1 hmem with hmem | hmem
            · exact hnot hmem
            · exact hne (List.mem_singleton.1 hmem).symm
        · rw [heq]
          refine Or.inr ?_
          rcases h.find_released id with ⟨rfl, hfind⟩ | ⟨-, hfind⟩
          · unfold releaseFirst
            split_ifs
            · exact ⟨keys, hkeys, rfl⟩
            · simp only [hfind]
              have hfree' : i.withoutFirst.access = 0 ∧ minUsage ≤ i.withoutFirst.used :=
                i.withoutFirst_evictable.2 hfree
              rw [if_pos hfree']
              have hempty : i.withoutFirst.versions = [] := by
                rw [Item.withoutFirst_versions, h.versions]
                rfl
              have hsame : (c.releaseFirstStream i).releaseFirstStream i.withoutFirst =
                  c.releaseFirstStream i := by
                conv_lhs => unfold releaseFirstStream
                simp only [hempty]
                rfl
              refine ⟨keys ++ [i.id], fun k => ?_, ?_⟩
              · simp [hkeys]
              · rw [hempty]
                exact congrArg (fun c' => (⟨c', keys ++ [i.id], false⟩ : Sweep)) hsame
          · exact ⟨keys, hkeys, hskip hfind⟩
  exact hall.resolve_left (fun hnone => hnone.1 horder)

/-- The item goes with its only stream, which is taken off the size whether it is ready or not. -/
theorem releaseItems_eq (h : c.OneFree pinned i s) (hc : c.Distinct) (hfree : i.Evictable minUsage)
    (htarget : c.target ≤ c.maxSize) (hsize : c.maxSize < c.size) {order : List ℕ}
    (horder : i.id ∈ order) :
    c.releaseItems minUsage order = ({ c with items := pinned } : InstanceCache).deleteStream s := by
  obtain ⟨keys, hkeys, hsweep⟩ := h.firstSweep_eq hfree (htarget.trans_lt hsize) horder
  have hmore (n : ℕ) : releaseMore minUsage n ⟨c.releaseFirstStream i, keys, false⟩ =
      ⟨c.releaseFirstStream i, keys, false⟩ := by
    cases n with
    | zero => rfl
    | succ n => exact if_neg (fun hleft => Bool.false_ne_true hleft.1)
  have heq : c.releaseItems minUsage order =
      (releaseMore minUsage c.streams (c.firstSweep minUsage order)).keys.foldl eraseEmpty
        (releaseMore minUsage c.streams (c.firstSweep minUsage order)).cache :=
    if_neg (Nat.not_le.2 hsize)
  rw [hsweep, hmore] at heq
  have hdistinct : (c.releaseFirstStream i).Distinct := by
    rcases releaseFirstStream_cases c i with ⟨-, hsame⟩ | ⟨t, versions, -, hsame⟩
    · rwa [hsame]
    · rw [hsame]
      exact (hc.set _).deleteStreams _
  rw [heq, foldl_eraseEmpty hdistinct, h.releaseFirstStream_eq]
  have hfilter : (pinned ++ [{ i with versions := [], times := i.times.tail }]).filter
      (fun j => ¬ (j.id ∈ keys ∧ j.versions = [])) = pinned := by
    rw [List.filter_append, List.filter_eq_self.2 (fun j hj => ?_), List.filter_cons_of_neg ?_,
      List.filter_nil, List.append_nil]
    · simp [hkeys]
    · simp [hkeys, h.id j hj]
  simp only [deleteStream]
  rw [hfilter]

end OneFree

theorem readySize_le_size (h : c.Accounted) {id : ℕ} {i : Item} (hi : c.find id = some i) :
    readySize i.versions ≤ c.size := by
  rw [h.size, total]
  exact List.le_sum_of_mem (List.mem_map.2 ⟨i, Keyed.mem_of_lookup hi, rfl⟩)

theorem size_deleteStreams_le {streams : List DataStream} (h : ∀ s ∈ streams, s.isReady = true)
    (hle : readySize streams ≤ c.size) : (c.deleteStreams streams).size ≤ c.size := by
  rw [deleteStreams_of_ready h hle]
  exact Nat.sub_le _ _

theorem size_enter_le (h : c.Accounted) (hc : c.Distinct) (hready : ∀ i ∈ c.items, i.Complete)
    {chunk : Chunk} (hlast : chunk.isLast = false) (usage : ℕ) (now : ℤ) :
    (c.enter chunk usage now).2.size ≤ c.size := by
  have h₀ := h.withItem chunk
  have hc₀ := hc.withItem chunk
  obtain ⟨i, hi, hfound, -⟩ := withItem_found c chunk
  have hcomplete : i.Complete := by
    rcases hfound with hfound | ⟨-, rfl⟩
    · exact hready i (Keyed.mem_of_lookup hfound)
    · exact fun _ hs => absurd hs List.not_mem_nil
  have hsize : (c.withItem chunk).size = c.size := by
    unfold withItem
    split_ifs <;> rfl
  rw [← hsize]
  unfold InstanceCache.enter
  generalize c.withItem chunk = c₀ at h₀ hc₀ hi
  rw [hi]
  simp only
  split
  · exact le_rfl
  next deleted taken htake =>
  have hid := Item.take_id htake
  have hdeleted : ∀ s ∈ deleted, s.isReady = true := by
    rcases Item.take_cases htake with ⟨-, rfl, -⟩ | ⟨-, -, rfl, -⟩
    · exact fun _ hs => absurd hs List.not_mem_nil
    · exact fun s hs => hcomplete s (List.mem_reverse.1 hs)
  have htaken : taken.Complete := by
    rcases Item.take_cases htake with ⟨-, -, rfl⟩ | ⟨-, -, -, rfl⟩
    · exact hcomplete
    · exact fun _ hs => absurd hs List.not_mem_nil
  have h₁ : ((c₀.set taken).deleteStreams deleted).Accounted :=
    h₀.set_deleteStreams hc₀ hi hid hdeleted (Item.take_size htake)
  have hi₁ : ((c₀.set taken).deleteStreams deleted).find chunk.id = some taken := by
    rw [find_deleteStreams]
    exact find_set hi hid
  have hless : ((c₀.set taken).deleteStreams deleted).size ≤ c₀.size := by
    have hle := readySize_le_size h₀ hi
    have htaken := Item.take_size htake
    exact size_deleteStreams_le (c := c₀.set taken) hdeleted
      (show readySize deleted ≤ c₀.size by omega)
  split
  · exact hless
  next deleted' entered henter =>
  have hnone : entered.completed = 0 := by
    rcases Item.enter_cases henter with ⟨-, rfl, -⟩ | ⟨-, back, hback, hwait, -⟩ | ⟨-, -, -, rfl⟩
    · simp [Item.completed, Item.push, DataStream.empty_addDataCommand, hlast]
    · rw [htaken back (List.mem_of_getLast? hback)] at hwait
      cases hwait
    · simp [Item.completed, Item.push, DataStream.empty_addDataCommand, hlast]
  have hdeleted' : ∀ s ∈ deleted', s.isReady = true := by
    rcases Item.enter_cases henter with ⟨rfl, -⟩ | ⟨rfl, -⟩ | ⟨-, -, rfl, -⟩
    · exact fun _ hs => absurd hs List.not_mem_nil
    · exact fun _ hs => absurd hs List.not_mem_nil
    · exact fun s hs => htaken s (List.mem_reverse.1 hs)
  have hle := readySize_le_size h₁ hi₁
  have hsizes := (Item.enter_size henter).1
  simp only [hnone, Nat.add_zero]
  exact (size_deleteStreams_le (c := ((c₀.set taken).deleteStreams deleted).set entered) hdeleted'
    (hsizes.trans hle)).trans hless

theorem enter_of_find_eq_none {chunk : Chunk} (hnone : c.find chunk.id = none)
    (hlast : chunk.isLast = false) (usage : ℕ) (now : ℤ) :
    c.enter chunk usage now = (true, { c with items :=
      c.items ++ [({ Item.create chunk with used := usage } : Item).push chunk now] }) := by
  obtain ⟨-, heq, hfind⟩ := (withItem_cases c chunk).resolve_left
    (fun h => by rw [hnone] at h; exact absurd h.choose_spec.1 (by simp))
  have hupdate (i j : Item) (hi : i.id = chunk.id) (hj : j.id = chunk.id) :
      Keyed.update Item.id chunk.id (fun _ => j) (c.items ++ [i]) = c.items ++ [j] := by
    have hold : Keyed.update Item.id chunk.id (fun _ => j) c.items = c.items := by
      refine (List.map_congr_left (fun k hk => ?_)).trans (List.map_id c.items)
      exact if_neg (fun he => (Keyed.lookup_eq_none_iff.1 hnone) (List.mem_map.2 ⟨k, hk, he⟩))
    unfold Keyed.update at hold ⊢
    rw [List.map_append, hold]
    simp [hi]
  unfold InstanceCache.enter
  rw [hfind, heq]
  simp [Item.take, Item.create, Item.enter, Item.push, Item.completed, set, deleteStreams,
    DataStream.empty_addDataCommand, hlast, hupdate]

/-- The command is the last of its version, the cache has room or knows the object, or it is at least
as large as the command. -/
def Harmless (c : InstanceCache) (chunk : Chunk) : Prop :=
  chunk.isLast = true ∨ c.size ≤ c.maxSize ∨ (c.find chunk.id).isSome = true ∨ chunk.size ≤ c.size

instance (c : InstanceCache) (chunk : Chunk) : Decidable (c.Harmless chunk) :=
  inferInstanceAs (Decidable (_ ∨ _))

section Add

variable {chunk : Chunk} {usage : ℕ} {now : ℤ} {order : List ℕ}

theorem keeps_add_of_pinned (hc : c.Distinct) (hpinned : ∀ i ∈ c.items, i.access ≠ 0)
    (hknown : (c.find chunk.id).isSome = true) : c.Keeps (.add chunk usage now order) := by
  have hentered : ∀ j ∈ (c.enter chunk usage now).2.items, j.access ≠ 0 := by
    intro j hj
    rcases enter_items hc hj with ⟨hj, -⟩ | ⟨i, hi | ⟨hnone, -⟩, hadded⟩
    · exact hpinned j hj
    · rw [hadded.access_eq.1]
      exact hpinned i (Keyed.mem_of_lookup hi)
    · rw [hnone] at hknown
      cases hknown
  refine ⟨fun i hi hfree _ => absurd hfree (hpinned i (Keyed.mem_of_lookup hi)), fun _ =>
    ⟨Or.inr (fun i hi hfree _ => absurd hfree (hentered i hi)), Or.inr (fun j hj hfree _ => ?_)⟩⟩
  obtain ⟨i, hi, hleft⟩ := left_releaseItems _ 1 order j hj
  rw [hleft.access] at hfree
  exact absurd hfree (hentered i hi)

/-- A first command for a new object in a cache that holds more than its limit: the object is evicted
at once, and the size of its command is taken off, though it was not added. -/
theorem add_of_crowded (usage : ℕ) (now : ℤ) (hc : c.WellFormed)
    (hpinned : ∀ i ∈ c.items, i.access ≠ 0) (hsize : c.maxSize < c.size)
    (hnone : c.find chunk.id = none) (hlast : chunk.isLast = false) (horder : chunk.id ∈ order) :
    (c.add chunk usage now order).2.items = c.items ∧
      (c.add chunk usage now order).2.size = wrapSub 64 c.size chunk.size := by
  have htarget : c.target ≤ c.maxSize := hc.target ▸ releaseTarget_le _
  have hdistinct := hc.distinct.enter chunk usage now
  have hadd : (c.add chunk usage now order).2 =
      (({ c with items := c.items ++ [({ Item.create chunk with used := usage } : Item).push chunk
        now] } : InstanceCache).releaseItems 1 order).releaseItems 0 order := by
    unfold InstanceCache.add
    rw [enter_of_find_eq_none hnone hlast]
  rw [enter_of_find_eq_none hnone hlast] at hdistinct
  have hone : OneFree { c with items := c.items ++ [({ Item.create chunk with used := usage } :
      Item).push chunk now] } c.items (({ Item.create chunk with used := usage } : Item).push chunk
        now) (DataStream.empty.addDataCommand chunk) := by
    refine ⟨rfl, hpinned, fun j hj he => ?_, rfl⟩
    exact (Keyed.lookup_eq_none_iff.1 hnone) (List.mem_map.2 ⟨j, hj, he⟩)
  have hdataSize : (DataStream.empty.addDataCommand chunk).getDataSize = chunk.size := by
    simp [DataStream.getDataSize, DataStream.addDataCommand, DataStream.empty]
  have hrest (c' : InstanceCache) (hitems : c'.items = c.items) :
      c'.releaseItems 0 order = c' := by
    refine releaseItems_of_not_evictable (fun i hi hfree => ?_) order
    rw [hitems] at hi
    exact hpinned i hi hfree.1
  rw [hadd]
  by_cases husage : 1 ≤ usage
  · rw [hone.releaseItems_eq hdistinct ⟨rfl, husage⟩ htarget hsize horder, hrest]
    · exact ⟨rfl, congrArg (wrapSub 64 c.size) hdataSize⟩
    · rfl
  · have hkept : ({ c with items := c.items ++ [({ Item.create chunk with used := usage } :
        Item).push chunk now] } : InstanceCache).releaseItems 1 order =
        { c with items := c.items ++ [({ Item.create chunk with used := usage } : Item).push chunk
          now] } := by
      refine releaseItems_of_not_evictable (fun i hi hfree => ?_) order
      rcases List.mem_append.1 hi with hi | hi
      · exact hpinned i hi hfree.1
      · rw [List.mem_singleton.1 hi] at hfree
        exact husage hfree.2
    rw [hkept, hone.releaseItems_eq hdistinct ⟨rfl, Nat.zero_le _⟩ htarget hsize horder]
    exact ⟨rfl, congrArg (wrapSub 64 c.size) hdataSize⟩

/-- A harmless command leaves no stream that waits where an eviction finds it, or is a first one in a
cache of pinned items. -/
theorem keeps_add_of_harmless (usage : ℕ) (now : ℤ) (order : List ℕ) (hc : c.WellFormed)
    (hready : ∀ i ∈ c.items, i.Complete) (hbounded : c.Bounded) (h : c.Harmless chunk) :
    c.Keeps (.add chunk usage now order) ∨
      chunk.isLast = false ∧ c.maxSize < c.size ∧ (∀ i ∈ c.items, i.access ≠ 0) ∧
        c.find chunk.id = none ∧ chunk.size ≤ c.size := by
  cases hlast : chunk.isLast with
  | true => exact Or.inl (keeps_add hc.distinct hready order (Or.inl hlast))
  | false =>
      by_cases hroom : c.size ≤ c.maxSize
      · have hle := size_enter_le hc.accounted hc.distinct hready hlast usage now
        exact Or.inl (keeps_add hc.distinct hready order (Or.inr (hle.trans hroom)))
      · have hpinned := hbounded.resolve_left hroom
        cases hknown : c.find chunk.id with
        | some i =>
            exact Or.inl (keeps_add_of_pinned hc.distinct hpinned (by rw [hknown]; rfl))
        | none =>
            refine Or.inr ⟨rfl, not_le.1 hroom, hpinned, rfl, ?_⟩
            rcases h with h | h | h | h
            · rw [hlast] at h
              cases h
            · exact absurd h hroom
            · rw [hknown] at h
              cases h
            · exact h

theorem size_add_le_iff (hc : c.WellFormed) (hready : ∀ i ∈ c.items, i.Complete)
    (hbounded : c.Bounded) (hsize : chunk.size < 2 ^ 64)
    (horder : (c.enter chunk usage now).2.Covers order) :
    (c.add chunk usage now order).2.size ≤ max c.maxSize (c.add chunk usage now order).2.pinnedSize ↔
      c.Harmless chunk := by
  have hcovers (hnone : c.find chunk.id = none) (hlast : chunk.isLast = false) :
      chunk.id ∈ order := by
    rw [enter_of_find_eq_none hnone hlast] at horder
    exact horder _ (List.mem_append_right _ List.mem_cons_self)
  have hpinnedSize (hpinned : ∀ i ∈ c.items, i.access ≠ 0) {c' : InstanceCache}
      (hitems : c'.items = c.items) : c'.pinnedSize = c.size := by
    rw [hc.accounted.size, total, pinnedSize, hitems,
      List.filter_eq_self.2 (fun i hi => decide_eq_true (hpinned i hi))]
  constructor
  · intro hle
    by_contra hharm
    obtain ⟨hlast, hroom, hknown, hlarge⟩ : chunk.isLast = false ∧ c.maxSize < c.size ∧
        c.find chunk.id = none ∧ c.size < chunk.size := by
      simpa [Harmless] using hharm
    have hpinned := hbounded.resolve_left (not_le.2 hroom)
    obtain ⟨hitems, hwrapped⟩ :=
      add_of_crowded usage now hc hpinned hroom hknown hlast (hcovers hknown hlast)
    rw [hwrapped, hpinnedSize hpinned hitems, wrapSub, if_neg (not_le.2 hlarge)] at hle
    omega
  · intro h
    rcases keeps_add_of_harmless usage now order hc hready hbounded h
      with hkeep | ⟨hlast, hroom, hpinned, hknown, hsmall⟩
    · have hvalid := hc.add hkeep horder (Or.inr hbounded)
      have hle := hvalid.bounded.size_le hvalid.wellFormed.accounted
      rwa [maxSize_add] at hle
    · obtain ⟨hitems, hwrapped⟩ :=
        add_of_crowded usage now hc hpinned hroom hknown hlast
          (hcovers hknown hlast)
      rw [hwrapped, hpinnedSize hpinned hitems, wrapSub, if_pos hsmall]
      exact (Nat.sub_le _ _).trans (le_max_right _ _)

end Add

/-- In a cache whose streams are all ready, an eviction terminates, keeps pinned items as they are,
deletes the first streams of the others, and leaves no item without versions. After a command was
added the cache is larger than its limit only for pinned items, if and only if the command is the last
of its version, or the cache was not over its limit, knew the object or was as large as the
command. -/
theorem evictions (hc : c.WellFormed) (hready : ∀ i ∈ c.items, i.Complete) :
    (∀ minUsage order, c.Covers order →
      (c.maxSize < c.size → ∃ s,
        Loop Sweep.Again (Sweep.turn minUsage) (c.firstSweep minUsage order) s ∧
        c.releaseItems minUsage order = s.keys.foldl eraseEmpty s.cache) ∧
      (∀ i ∈ c.items, i.access ≠ 0 → i ∈ (c.releaseItems minUsage order).items) ∧
      ∀ j ∈ (c.releaseItems minUsage order).items, j.versions ≠ [] ∧ j.Contiguous ∧
        ∃ i ∈ c.items, j.id = i.id ∧ j.versions <:+ i.versions) ∧
    ∀ chunk usage now order, (c.enter chunk usage now).2.Covers order → chunk.size < 2 ^ 64 →
      c.Bounded → ((c.add chunk usage now order).2.size ≤
        max c.maxSize (c.add chunk usage now order).2.pinnedSize ↔ c.Harmless chunk) := by
  refine ⟨fun minUsage order horder => ?_, fun chunk usage now order horder hsize hbounded =>
    size_add_le_iff hc hready hbounded hsize horder⟩
  have hsafe : c.EvictionSafe minUsage := Or.inr (fun i hi _ _ => hready i hi)
  have hevicting : Evicting minUsage c :=
    ⟨hc.accounted, hc.distinct, fun i hi _ _ => hready i hi⟩
  have hevicted := hc.evicted_releaseItems hsafe horder
  refine ⟨fun hsize => ?_, hevicted.pinned, fun j hj => ?_⟩
  · exact ⟨_, loop_releaseMore hevicting hc.stocked order, if_neg (Nat.not_le.2 hsize)⟩
  · obtain ⟨i, hi, hleft⟩ := hevicted.left j hj
    exact ⟨hevicted.stocked j hj, (hc.contiguous i hi).suffix hleft.shrunk.versions, i, hi,
      hleft.shrunk.id, hleft.shrunk.versions⟩

/-- One of two items is pinned, and the other one exceeds the limit of 100 bytes with its second
version: it is evicted. Without that version a third item is evicted with it as soon as it is
added. -/
theorem evictions_pinned :
    ∃ t c : InstanceCache, c.size = 130 ∧ c.maxSize = 100 ∧
      (c.releaseItems 0 [1, 2]).items.map Item.id = [1] ∧
      (∃ s, Loop Sweep.Again (Sweep.turn 0) (c.firstSweep 0 [1, 2]) s ∧
        c.releaseItems 0 [1, 2] = s.keys.foldl eraseEmpty s.cache) ∧
      (t.add ⟨3, 1, 1, 9, 0, true, 50, []⟩ 0 0 [1, 2, 3]).2.items.map Item.id = [1] ∧
      (t.add ⟨3, 1, 1, 9, 0, true, 50, []⟩ 0 0 [1, 2, 3]).2.size ≤
        max t.maxSize (t.add ⟨3, 1, 1, 9, 0, true, 50, []⟩ 0 0 [1, 2, 3]).2.pinnedSize := by
  have hops : Machine.Steps step (fun c op => c.Keeps op ∧ c.Used op)
      (start 100 (releaseTarget 100))
      [.add ⟨1, 1, 1, 9, 0, true, 60, []⟩ 0 0 [1], .access 1,
        .add ⟨2, 1, 1, 9, 0, true, 30, []⟩ 0 0 [1, 2]] := by decide +kernel
  have h : (Machine.run step (start 100 (releaseTarget 100))
      [.add ⟨1, 1, 1, 9, 0, true, 60, []⟩ 0 0 [1], .access 1,
        .add ⟨2, 1, 1, 9, 0, true, 30, []⟩ 0 0 [1, 2]]).map (fun t =>
      let c := (t.enter ⟨2, 2, 1, 9, 0, true, 40, []⟩ 0 0).2
      let chunk : Chunk := ⟨3, 1, 1, 9, 0, true, 50, []⟩
      decide ((∀ i ∈ t.items, i.Complete) ∧ (c.size = 130 ∧ c.maxSize = 100 ∧
        (c.releaseItems 0 [1, 2]).items.map Item.id = [1]) ∧ (∀ i ∈ c.items, i.Complete) ∧
        c.Covers [1, 2] ∧ (t.enter chunk 0 0).2.Covers [1, 2, 3] ∧
        (t.add chunk 0 0 [1, 2, 3]).2.items.map Item.id = [1])) = some true := by decide +kernel
  obtain ⟨t, hrun, ht⟩ := Option.map_eq_some_iff.1 h
  obtain ⟨hready, hfacts, hready', horder, hentered, hleft⟩ := of_decide_eq_true ht
  have hvalid := valid_run 100 hops hrun
  have hwell : (t.enter ⟨2, 2, 1, 9, 0, true, 40, []⟩ 0 0).2.WellFormed :=
    hvalid.wellFormed.enter (fun i hi _ _ => hready i (Keyed.mem_of_lookup hi)) 0 0
  have hevict := (evictions hwell hready').1 0 [1, 2] horder
  have hadd := (evictions hvalid.wellFormed hready).2 ⟨3, 1, 1, 9, 0, true, 50, []⟩ 0 0 [1, 2, 3]
    hentered (by decide) hvalid.bounded
  refine ⟨t, _, hfacts.1, hfacts.2.1, hfacts.2.2, hevict.1 ?_, hleft, hadd.2 (Or.inl rfl)⟩
  rw [hfacts.1, hfacts.2.1]
  decide

/-- A pinned item of 110 bytes fills a cache of 100 bytes. The first of several commands of a new
object is evicted, and its 200 bytes are taken off the size. -/
theorem evictions_wrapped :
    ∃ t, Machine.run step (start 100 (releaseTarget 100))
        [.add ⟨1, 1, 1, 9, 0, true, 60, []⟩ 0 0 [1], .access 1,
          .add ⟨1, 2, 1, 9, 0, true, 50, []⟩ 0 0 [1]] = some t ∧
      (∀ i ∈ t.items, i.Complete) ∧ t.Bounded ∧ t.size = 110 ∧ t.pinnedSize = 110 ∧
      let t' := (t.add ⟨2, 1, 1, 9, 0, false, 200, []⟩ 0 0 [1, 2]).2
      t'.size = 2 ^ 64 - 90 ∧ t'.pinnedSize = 110 ∧ ¬ t'.size ≤ max t'.maxSize t'.pinnedSize := by
  refine ⟨_, rfl, ?_⟩
  decide +kernel

end InstanceCache

end Collage.Cache
