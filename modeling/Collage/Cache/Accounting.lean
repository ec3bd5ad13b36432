import Collage.Cache.Edits

/-!
# The size of the instance cache

A stream is counted when its last command arrives and subtracted when it is deleted, whether it was
counted or not. The size is right as long as no step deletes a stream that waits for commands.
-/

namespace Collage.Cache

def readySize (streams : List DataStream) : ℕ :=
  ((streams.filter DataStream.isReady).map DataStream.getDataSize).sum

@[simp] theorem readySize_nil : readySize [] = 0 := rfl

@[simp] theorem readySize_cons (s : DataStream) (streams : List DataStream) :
    readySize (s :: streams) = (if s.isReady then s.getDataSize else 0) + readySize streams := by
  cases h : s.isReady <;> simp [readySize, h]

@[simp] theorem readySize_append (xs ys : List DataStream) :
    readySize (xs ++ ys) = readySize xs + readySize ys := by
  simp [readySize]

@[simp] theorem readySize_reverse (xs : List DataStream) : readySize xs.reverse = readySize xs := by
  simp [readySize, List.filter_reverse]

/-- No stream of an item waits for further commands. -/
def Item.Complete (i : Item) : Prop := ∀ s ∈ i.versions, s.isReady = true

instance (i : Item) : Decidable i.Complete := List.decidableBAll _ _

theorem Item.take_size {i taken : Item} {chunk : Chunk} {usage : ℕ} {deleted : List DataStream}
    (h : i.take chunk usage = some (deleted, taken)) :
    readySize i.versions = readySize taken.versions + readySize deleted := by
  rcases take_cases h with ⟨-, rfl, rfl⟩ | ⟨-, -, rfl, rfl⟩
  · rfl
  · simp [clear]

theorem Item.enter_size {i entered : Item} {chunk : Chunk} {now : ℤ}
    {deleted : List DataStream} (h : i.enter chunk now = some (deleted, entered)) :
    readySize deleted ≤ readySize i.versions ∧
      readySize i.versions + entered.completed =
        readySize entered.versions + readySize deleted := by
  rcases enter_cases h with ⟨rfl, rfl, -⟩ | ⟨rfl, back, hback, hready, -, rfl⟩ | ⟨-, -, rfl, rfl⟩
  · exact ⟨Nat.zero_le _, by simp [push, completed]⟩
  · refine ⟨Nat.zero_le _, ?_⟩
    obtain ⟨init, hinit⟩ := List.getLast?_eq_some_iff.1 hback
    simp [completed, hinit, hready]
  · refine ⟨by simp, ?_⟩
    simp only [push, clear, completed, List.nil_append, List.getLast?_singleton, readySize_cons,
      readySize_nil, readySize_reverse]
    omega

namespace InstanceCache

variable {c : InstanceCache}

def total (c : InstanceCache) : ℕ := (c.items.map (fun i => readySize i.versions)).sum

/-- The size is the sum of all streams that are ready, and every stream that was deleted had been
counted. -/
structure Accounted (c : InstanceCache) : Prop where
  size : c.size = c.total
  deletedReady : Assertion.deletedReady ∉ c.failed
  deletedCounted : Assertion.deletedCounted ∉ c.failed

theorem deleteStreams_of_ready {streams : List DataStream} (h : ∀ s ∈ streams, s.isReady = true)
    (hle : readySize streams ≤ c.size) :
    c.deleteStreams streams = { c with size := c.size - readySize streams } := by
  induction streams generalizing c with
  | nil => rfl
  | cons s streams ih =>
      have hs := h s List.mem_cons_self
      have htail := fun t ht => h t (List.mem_cons_of_mem s ht)
      rw [readySize_cons, if_pos hs] at hle
      have hdelete : c.deleteStream s = { c with size := c.size - s.getDataSize } := by
        rw [deleteStream, wrapSub, if_pos (by omega), if_pos hs, if_pos (by omega)]
        simp
      change (c.deleteStream s).deleteStreams streams = _
      rw [hdelete, ih htail (by simp only; omega), readySize_cons, if_pos hs]
      simp only [Nat.sub_sub]

theorem Accounted.of_readySize_eq (h : c.Accounted) {items : List Item} {deleted : List DataStream}
    {n : ℕ} (hready : ∀ s ∈ deleted, s.isReady = true) (hle : readySize deleted ≤ c.total)
    (hsum : c.total + n =
      (items.map (fun i => readySize i.versions)).sum + readySize deleted) :
    { ({ c with items := items } : InstanceCache).deleteStreams deleted with
      size := (({ c with items := items } : InstanceCache).deleteStreams deleted).size +
        n }.Accounted := by
  have hsize := h.size
  rw [deleteStreams_of_ready hready (by simp only; omega)]
  refine ⟨?_, h.deletedReady, h.deletedCounted⟩
  change c.size - readySize deleted + n = (items.map (fun i => readySize i.versions)).sum
  omega

theorem Accounted.set (h : c.Accounted) (hc : c.Distinct) {id : ℕ} {i i' : Item}
    {deleted : List DataStream} {n : ℕ} (hi : c.find id = some i) (hid : i'.id = i.id)
    (hready : ∀ s ∈ deleted, s.isReady = true) (hle : readySize deleted ≤ readySize i.versions)
    (hsum : readySize i.versions + n = readySize i'.versions + readySize deleted) :
    { (c.set i').deleteStreams deleted with
      size := ((c.set i').deleteStreams deleted).size + n }.Accounted := by
  obtain ⟨-, xs, ys, hitems, hset, -⟩ := find_split hc hi
  have htotal : c.total = (xs.map (fun i => readySize i.versions)).sum +
      (readySize i.versions + (ys.map (fun i => readySize i.versions)).sum) := by
    rw [total, hitems, List.map_append, List.map_cons, List.sum_append, List.sum_cons]
  refine h.of_readySize_eq hready (by omega) ?_
  change _ = ((c.set i').items.map (fun i => readySize i.versions)).sum + _
  rw [hset i' hid, List.map_append, List.map_cons, List.sum_append, List.sum_cons]
  omega

theorem Accounted.set_deleteStreams (h : c.Accounted) (hc : c.Distinct) {id : ℕ} {i i' : Item}
    {deleted : List DataStream} (hi : c.find id = some i) (hid : i'.id = i.id)
    (hready : ∀ s ∈ deleted, s.isReady = true)
    (hsum : readySize i.versions = readySize i'.versions + readySize deleted) :
    ((c.set i').deleteStreams deleted).Accounted :=
  h.set (n := 0) hc hi hid hready (by omega) hsum

theorem Accounted.set_of_versions_eq (h : c.Accounted) (hc : c.Distinct) {id : ℕ} {i : Item}
    (hi : c.find id = some i) (i' : Item) (hid : i'.id = i.id) (hsame : i'.versions = i.versions) :
    (c.set i').Accounted := by
  have hnil : ∀ s ∈ ([] : List DataStream), s.isReady = true := fun _ ht => nomatch ht
  exact h.set_deleteStreams hc hi hid hnil (by rw [hsame]; rfl)

theorem Accounted.drop (h : c.Accounted) (hc : c.Distinct) {id : ℕ} {i : Item}
    (hi : c.find id = some i) (hready : i.Complete) :
    ((c.drop id).deleteStreams i.versions.reverse).Accounted := by
  obtain ⟨-, xs, ys, hitems, -, hdrop⟩ := find_split hc hi
  have htotal : c.total = (xs.map (fun i => readySize i.versions)).sum +
      (readySize i.versions + (ys.map (fun i => readySize i.versions)).sum) := by
    rw [total, hitems, List.map_append, List.map_cons, List.sum_append, List.sum_cons]
  refine h.of_readySize_eq (n := 0) (fun s hs => hready s (List.mem_reverse.1 hs)) ?_ ?_
  · rw [readySize_reverse]
    omega
  · change _ = ((c.drop id).items.map (fun i => readySize i.versions)).sum + _
    rw [hdrop, List.map_append, List.sum_append, readySize_reverse]
    omega

/-- An eviction does not run, or finds no stream that waits for commands. -/
def EvictionSafe (minUsage : ℕ) (c : InstanceCache) : Prop :=
  c.size ≤ c.maxSize ∨ ∀ i ∈ c.items, i.access = 0 → minUsage ≤ i.used → i.Complete

instance (minUsage : ℕ) (c : InstanceCache) : Decidable (c.EvictionSafe minUsage) :=
  inferInstanceAs (Decidable (_ ∨ _))

structure Evicting (minUsage : ℕ) (c : InstanceCache) : Prop where
  accounted : c.Accounted
  distinct : c.Distinct
  complete : ∀ i ∈ c.items, i.access = 0 → minUsage ≤ i.used → i.Complete

theorem Evicting.releaseFirstStream {minUsage id : ℕ} {i : Item} (h : Evicting minUsage c)
    (hi : c.find id = some i) (haccess : i.access = 0) (hused : minUsage ≤ i.used) :
    Evicting minUsage (c.releaseFirstStream i) := by
  have hready := h.complete i (Keyed.mem_of_lookup hi) haccess hused
  rcases releaseFirstStream_cases c i with ⟨-, heq⟩ | ⟨s, versions, hversions, heq⟩
  · rwa [heq]
  · rw [heq]
    rw [Item.Complete, hversions] at hready
    refine ⟨h.accounted.set_deleteStreams h.distinct hi rfl ?_ ?_,
      (h.distinct.set _).deleteStreams _, ?_⟩
    · exact fun t ht => hready t (List.mem_singleton.1 ht ▸ List.mem_cons_self)
    · rw [hversions]
      simp only [readySize_cons, readySize_nil]
      omega
    · intro j hj
      rw [items_deleteStreams] at hj
      rcases mem_set hj with rfl | hj
      · exact fun _ _ t ht => hready t (List.mem_cons_of_mem s ht)
      · exact h.complete j hj

theorem Evicting.drop {minUsage id : ℕ} {i : Item} (h : Evicting minUsage c)
    (hi : c.find id = some i) (hempty : i.versions = []) : Evicting minUsage (c.drop id) := by
  have hdrop := h.accounted.drop h.distinct hi
    (by rw [Item.Complete, hempty]; exact fun _ ht => nomatch ht)
  rw [hempty] at hdrop
  exact ⟨hdrop, h.distinct.drop id, fun j hj => h.complete j (List.mem_of_mem_filter hj)⟩

theorem Accounted.releaseItems (h : c.Accounted) (hc : c.Distinct) {minUsage : ℕ}
    (hsafe : c.EvictionSafe minUsage) (order : List ℕ) :
    (c.releaseItems minUsage order).Accounted := by
  rcases hsafe with hsmall | hsafe
  · rwa [InstanceCache.releaseItems, if_pos hsmall]
  · have hall : Evicting minUsage (c.releaseItems minUsage order) :=
      releaseItems_induct (fun _ _ _ h => h.releaseFirstStream)
        (fun _ _ _ h hi _ => h.drop hi)
        ⟨h, hc, hsafe⟩ order
    exact hall.accounted

theorem Accounted.withItem (h : c.Accounted) (chunk : Chunk) : (c.withItem chunk).Accounted := by
  rcases withItem_cases c chunk with ⟨i, -, heq⟩ | ⟨-, heq, -⟩
  · rwa [heq]
  · rw [heq]
    have hnil : ∀ s ∈ ([] : List DataStream), s.isReady = true := fun _ ht => nomatch ht
    refine h.of_readySize_eq (n := 0) hnil (Nat.zero_le _) ?_
    simp [total, Item.create]

theorem Accounted.enter (h : c.Accounted) (hc : c.Distinct) {chunk : Chunk}
    (hkeep : ∀ i, c.find chunk.id = some i → i.access = 0 → i.Foreign chunk ∨ i.Hole chunk →
      i.Complete) (usage : ℕ) (now : ℤ) :
    (c.enter chunk usage now).2.Accounted := by
  have h₀ := h.withItem chunk
  have hc₀ := hc.withItem chunk
  have hkeep₀ : ∀ i, (c.withItem chunk).find chunk.id = some i → i.access = 0 →
      i.Foreign chunk ∨ i.Hole chunk → i.Complete := by
    rcases withItem_cases c chunk with ⟨i, -, heq⟩ | ⟨-, -, hcreate⟩
    · rwa [heq]
    · intro i hi _ _ s hs
      rw [hcreate, Option.some.injEq] at hi
      subst hi
      cases hs
  unfold InstanceCache.enter
  generalize c.withItem chunk = c₀ at h₀ hc₀ hkeep₀
  split
  · exact h₀
  next i hi =>
  split
  · exact h₀
  next deleted taken htake =>
  have hid := Item.take_id htake
  have h₁ : ((c₀.set taken).deleteStreams deleted).Accounted := by
    refine h₀.set_deleteStreams hc₀ hi hid (fun s hs => ?_) (Item.take_size htake)
    rcases Item.take_cases htake with ⟨-, rfl, -⟩ | ⟨hforeign, haccess, rfl, -⟩
    · cases hs
    · exact hkeep₀ i hi haccess (Or.inl hforeign) s (List.mem_reverse.1 hs)
  have hc₁ := (hc₀.set taken).deleteStreams deleted
  have hi₁ : ((c₀.set taken).deleteStreams deleted).find chunk.id = some taken := by
    rw [find_deleteStreams]
    exact find_set hi hid
  simp only
  split
  · exact h₁
  next deleted' entered henter =>
  obtain ⟨hle, hsize⟩ := Item.enter_size henter
  refine h₁.set hc₁ hi₁ (Item.enter_id henter) (fun s hs => ?_) hle hsize
  rcases Item.enter_cases henter with ⟨rfl, -⟩ | ⟨rfl, -⟩ | ⟨hhole, haccess, rfl, -⟩
  · cases hs
  · cases hs
  · rw [List.mem_reverse] at hs
    rcases Item.take_cases htake with ⟨-, -, rfl⟩ | ⟨-, -, -, rfl⟩
    · exact hkeep₀ i hi haccess (Or.inr hhole) s hs
    · cases hs

theorem Accounted.access (h : c.Accounted) (hc : c.Distinct) (id : ℕ) :
    (c.access id).2.Accounted := by
  unfold InstanceCache.access
  split
  · exact h
  · next i hi => exact h.set_of_versions_eq hc hi _ rfl rfl

theorem Accounted.unpin (h : c.Accounted) (hc : c.Distinct) {id : ℕ} {i : Item}
    (hi : c.find id = some i) (count : ℕ) : (c.unpin i count).Accounted := by
  have hset := h.set_of_versions_eq hc hi { i with access := wrapSub 32 i.access count } rfl rfl
  refine ⟨hset.size, ?_, ?_⟩
  · unfold InstanceCache.unpin
    have hready := h.deletedReady
    split_ifs <;> simp [hready]
  · unfold InstanceCache.unpin
    have hcounted := h.deletedCounted
    split_ifs <;> simp [hcounted]

theorem readySize_flatMap (items : List Item) (f : Item → List DataStream) :
    readySize (items.flatMap f) = (items.map (fun i => readySize (f i))).sum := by
  induction items with
  | nil => rfl
  | cons i items ih => simp [ih]

theorem Accounted.remove (h : c.Accounted) {node : ℕ}
    (hkeep : ∀ i ∈ c.items, i.sender = node → i.access = 0 → i.Complete) :
    (c.remove node).Accounted := by
  have hsum : c.total =
      ((c.items.filter (fun i => ¬ (i.sender = node ∧ i.access = 0))).map
        (fun i => readySize i.versions)).sum +
      ((c.items.filter (fun i => i.sender = node ∧ i.access = 0)).map
        (fun i => readySize i.versions)).sum := by
    rw [total]
    induction c.items with
    | nil => rfl
    | cons i items ih =>
        by_cases hi : i.sender = node ∧ i.access = 0
        · simp only [List.filter_cons, hi, not_true, decide_true, decide_false, if_true,
            List.map_cons, List.sum_cons, Bool.false_eq_true, if_false, ih, and_self]
          omega
        · simp only [List.filter_cons, hi, not_false_iff, decide_true, decide_false, if_true,
            List.map_cons, List.sum_cons, Bool.false_eq_true, if_false, ih]
          omega
  have hdeleted := readySize_flatMap
    (c.items.filter (fun i => i.sender = node ∧ i.access = 0)) (fun i => i.versions.reverse)
  simp only [readySize_reverse] at hdeleted
  refine h.of_readySize_eq (n := 0) (fun s hs => ?_) (by omega) (by omega)
  obtain ⟨i, hi, hs⟩ := List.mem_flatMap.1 hs
  obtain ⟨hi, hnode⟩ := List.mem_filter.1 hi
  obtain ⟨hnode, haccess⟩ := of_decide_eq_true hnode
  exact hkeep i hi hnode haccess s (List.mem_reverse.1 hs)

end InstanceCache

theorem Item.expire_size (minTime : ℤ) (i : Item) :
    (∀ s ∈ (i.expire minTime).1, s.isReady = true) ∧
      readySize i.versions =
        readySize (i.expire minTime).2.versions + readySize (i.expire minTime).1 := by
  have hready : ∀ (versions : List DataStream) (times : List ℤ),
      ∀ s ∈ versions.take (expired minTime versions times), s.isReady = true := by
    intro versions
    induction versions with
    | nil => intro times s hs; simp at hs
    | cons v versions ih =>
        intro times s hs
        cases times with
        | nil => simp [expired] at hs
        | cons time times =>
            rw [expired] at hs
            split_ifs at hs with hold
            · rcases List.mem_cons.1 hs with rfl | hs
              · exact hold.2
              · exact ih times s hs
            · simp at hs
  unfold expire
  split_ifs
  · exact ⟨fun _ hs => (nomatch hs), rfl⟩
  · refine ⟨hready _ _, ?_⟩
    rw [Nat.add_comm, ← readySize_append, List.take_append_drop]

namespace InstanceCache

variable {c : InstanceCache}

theorem Accounted.expire (h : c.Accounted) (now timeout : ℤ) :
    (c.expire now timeout).Accounted := by
  unfold InstanceCache.expire
  split_ifs
  · exact h
  · generalize now - timeout = minTime
    have hsum : ∀ items : List Item, (items.map (fun i => readySize i.versions)).sum =
        ((((items.map (Item.expire minTime)).map Prod.snd).filter
          (fun i => i.access ≠ 0 ∨ i.versions ≠ [])).map (fun i => readySize i.versions)).sum +
        readySize ((items.map (Item.expire minTime)).flatMap Prod.fst) := by
      intro items
      induction items with
      | nil => rfl
      | cons i items ih =>
          have hi := (i.expire_size minTime).2
          rw [List.map_cons, List.sum_cons, ih, List.map_cons, List.map_cons, List.flatMap_cons,
            readySize_append, List.filter_cons]
          split_ifs with hkept
          · rw [List.map_cons, List.sum_cons]
            omega
          · have hempty : (i.expire minTime).2.versions = [] := by
              simp only [decide_eq_true_eq, not_or, not_not] at hkept
              exact hkept.2
            rw [hempty, readySize_nil] at hi
            omega
    refine h.of_readySize_eq (n := 0) (fun s hs => ?_) ?_ (hsum c.items)
    · obtain ⟨p, hp, hs⟩ := List.mem_flatMap.1 hs
      obtain ⟨i, -, rfl⟩ := List.mem_map.1 hp
      exact (i.expire_size minTime).1 s hs
    · rw [total, hsum c.items]
      omega

/-- What a step must find so that it deletes no stream that waits for commands. -/
def Keeps (c : InstanceCache) : Op → Prop
  | .add chunk usage now order =>
      (∀ i, c.find chunk.id = some i → i.access = 0 → i.Foreign chunk ∨ i.Hole chunk →
        i.Complete) ∧
      ((c.enter chunk usage now).1 = true →
        (c.enter chunk usage now).2.EvictionSafe 1 ∧
        ((c.enter chunk usage now).2.releaseItems 1 order).EvictionSafe 0)
  | .access _ => True
  | .release id count _ => ∀ i, c.find id = some i → (c.unpin i count).EvictionSafe 1
  | .remove node => ∀ i ∈ c.items, i.sender = node → i.access = 0 → i.Complete
  | .erase id => ∀ i, c.find id = some i → i.access = 0 → i.Complete
  | .expire _ _ => True

def decidableFound (found : Option Item) (P : Item → Prop) [DecidablePred P] :
    Decidable (∀ i, found = some i → P i) :=
  match found with
  | none => isTrue (fun _ h => nomatch h)
  | some i => decidable_of_iff (P i) ⟨fun h _ hi => Option.some.inj hi ▸ h, fun h => h i rfl⟩

instance (c : InstanceCache) : (op : Op) → Decidable (c.Keeps op)
  | .add chunk _ _ _ =>
      have := decidableFound (c.find chunk.id)
        (fun i => i.access = 0 → i.Foreign chunk ∨ i.Hole chunk → i.Complete)
      inferInstanceAs (Decidable (_ ∧ (_ → _)))
  | .access _ => isTrue trivial
  | .release id _ _ => decidableFound (c.find id) _
  | .remove _ => List.decidableBAll _ _
  | .erase id => decidableFound (c.find id) _
  | .expire _ _ => isTrue trivial

theorem Accounted.step (h : c.Accounted) (hc : c.Distinct) {op : Op} (hkeep : c.Keeps op)
    {c' : InstanceCache} (hs : c.step op = some c') : c'.Accounted := by
  cases op with
  | add chunk usage now order =>
      obtain rfl := Option.some.inj hs
      have h' := h.enter hc hkeep.1 usage now
      have hc' := hc.enter chunk usage now
      have hevict := hkeep.2
      unfold InstanceCache.add
      split
      · next heq => rwa [heq] at h'
      · next heq =>
        rw [heq] at h' hc' hevict
        exact (h'.releaseItems hc' (hevict rfl).1 order).releaseItems (hc'.releaseItems 1 order)
          (hevict rfl).2 order
  | access id =>
      obtain rfl := Option.some.inj hs
      exact h.access hc id
  | release id count order =>
      obtain rfl := Option.some.inj hs
      unfold InstanceCache.release
      split
      · exact h
      · next i hi => exact (h.unpin hc hi count).releaseItems (hc.set _) (hkeep i hi) order
  | remove node =>
      obtain rfl := Option.some.inj hs
      exact h.remove hkeep
  | erase id =>
      obtain rfl := Option.some.inj hs
      unfold InstanceCache.erase
      split
      · exact h
      · next i hi =>
        split_ifs with haccess
        · exact h
        · exact h.drop hc hi (hkeep i hi (not_not.1 haccess))
  | expire now timeout =>
      obtain rfl := Option.some.inj hs
      exact h.expire now timeout

/-- In every run in which no step deletes a stream that waits for commands, the size is the sum of
all streams that are ready, and the assertions of `_deleteStream` hold. -/
theorem size_accounted (maxSize target : ℕ) {ops : List Op} {t : InstanceCache}
    (hkeep : Machine.Steps step Keeps (start maxSize target) ops)
    (hrun : Machine.run step (start maxSize target) ops = some t) :
    t.size = t.total ∧ Assertion.deletedReady ∉ t.failed ∧ Assertion.deletedCounted ∉ t.failed := by
  have hstart : (start maxSize target).Accounted ∧ (start maxSize target).Distinct :=
    ⟨⟨rfl, by simp [start], by simp [start]⟩, List.nodup_nil⟩
  obtain ⟨h, -⟩ := Machine.run_invariant (fun c => c.Accounted ∧ c.Distinct)
    (fun _ _ _ h hok hs => ⟨h.1.step h.2 hok hs, h.2.step hs⟩) hstart hkeep hrun
  exact ⟨h.size, h.deletedReady, h.deletedCounted⟩

/-- Two versions, the second one in two commands, exceed the limit of 100 bytes; the first one is
evicted and the second one is pinned, released and erased. -/
theorem size_accounted_eviction :
    ∃ t, Machine.run step (start 100 80)
        [.add ⟨1, 1, 1, 9, 0, true, 60, []⟩ 0 0 [], .add ⟨2, 1, 1, 9, 0, false, 30, []⟩ 0 0 [1, 2],
          .add ⟨2, 1, 1, 9, 1, true, 20, []⟩ 0 0 [1, 2], .access 2, .release 2 1 [2]] = some t ∧
      t.size = 50 ∧ t.size = t.total := by
  have h : (Machine.run step (start 100 80)
        [.add ⟨1, 1, 1, 9, 0, true, 60, []⟩ 0 0 [], .add ⟨2, 1, 1, 9, 0, false, 30, []⟩ 0 0 [1, 2],
          .add ⟨2, 1, 1, 9, 1, true, 20, []⟩ 0 0 [1, 2], .access 2, .release 2 1 [2]]).map
      (fun t => decide (t.size = 50)) = some true := by decide +kernel
  obtain ⟨t, hrun, ht⟩ := Option.map_eq_some_iff.1 h
  exact ⟨t, hrun, of_decide_eq_true ht, (size_accounted 100 80 (by decide +kernel) hrun).1⟩

/-- The first command of a version, and then its sender disconnects. -/
theorem disconnect_uncounted :
    ∃ t, Machine.run step (start 100 80)
        [.add ⟨1, 1, 1, 9, 0, false, 60, []⟩ 0 0 [], .remove 9] = some t ∧
      ¬ (t.size = t.total ∧ Assertion.deletedReady ∉ t.failed ∧
        Assertion.deletedCounted ∉ t.failed) := by
  have h : (Machine.run step (start 100 80)
        [.add ⟨1, 1, 1, 9, 0, false, 60, []⟩ 0 0 [], .remove 9]).map
      (fun t => decide (¬ (t.size = t.total ∧ Assertion.deletedReady ∉ t.failed ∧
        Assertion.deletedCounted ∉ t.failed))) = some true := by decide +kernel
  obtain ⟨t, hrun, ht⟩ := Option.map_eq_some_iff.1 h
  exact ⟨t, hrun, of_decide_eq_true ht⟩

end InstanceCache

end Collage.Cache
