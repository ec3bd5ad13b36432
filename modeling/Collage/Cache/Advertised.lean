import Collage.Cache.Limit
import Collage.Cache.Requests
import Collage.Object.Calls
import Collage.Object.MapData

/-!
# The advertised versions

A request to map an object names the versions in the cache by the first and the last one. The
version of a stream that waits for commands is `VERSION_INVALID`, which as a number is greater than
every version: a range that ends with it names versions that are not in the cache.
-/

namespace Collage.Cache

open Object

def versionInvalid : ℕ := 0xfffffffffffffffe

theorem mem_of_contiguous {streams : List DataStream} {front back : DataStream}
    (h : streams.IsChain (fun s t => t.getPendingVersion = s.getPendingVersion + 1))
    (hfront : streams.head? = some front) (hback : streams.getLast? = some back) {v : ℕ}
    (hv : front.getPendingVersion ≤ v) (hvb : v ≤ back.getPendingVersion) :
    ∃ s ∈ streams, s.getPendingVersion = v := by
  induction streams generalizing front with
  | nil => cases hfront
  | cons s streams ih =>
      obtain rfl := Option.some.inj hfront
      rcases hv.eq_or_lt with hv | hv
      · exact ⟨s, List.mem_cons_self, hv⟩
      · cases streams with
        | nil =>
            rw [List.getLast?_singleton, Option.some.injEq] at hback
            subst hback
            omega
        | cons t streams =>
            obtain ⟨hst, hchain⟩ := List.isChain_cons_cons.1 h
            rw [List.getLast?_cons_cons] at hback
            obtain ⟨u, hu, huv⟩ := ih hchain rfl hback (by omega)
            exact ⟨u, List.mem_cons_of_mem s hu, huv⟩

theorem pairwise_of_contiguous {streams : List DataStream}
    (h : streams.IsChain (fun s t => t.getPendingVersion = s.getPendingVersion + 1)) :
    streams.Pairwise (fun s t => s.getPendingVersion < t.getPendingVersion) := by
  have hlt : (streams.map DataStream.getPendingVersion).IsChain (· < ·) := by
    rw [List.isChain_map]
    exact h.imp (fun _ _ hst => by omega)
  exact List.pairwise_map.1 (List.isChain_iff_pairwise.1 hlt)

namespace Item

/-- The versions of an item are contiguous, and none of them is special. -/
structure Numbered (i : Item) : Prop where
  contiguous : i.Contiguous
  version : ∀ s ∈ i.versions, s.getPendingVersion < versionInvalid

/-- The cache has a complete stream of a version. -/
def Holds (i : Item) (v : ℕ) : Prop :=
  ∃ s ∈ i.versions, s.isReady = true ∧ s.getPendingVersion = v

instance (i : Item) (v : ℕ) : Decidable (i.Holds v) := List.decidableBEx _ _

/-- The range of a request names complete versions only. -/
def Honest (i : Item) : Prop :=
  ∀ v < versionInvalid, i.cachedRange.1 ≤ v → v ≤ i.cachedRange.2.1 → i.Holds v

variable {i j : Item} {chunk : Chunk} {usage : ℕ} {now : ℤ}

theorem Added.version (h : i.Added chunk usage now j) {s : DataStream} (hs : s ∈ j.versions) :
    s ∈ i.versions ∨ s.getPendingVersion = chunk.version := by
  have hentered {taken : Item} {deleted : List DataStream}
      (h : taken.enter chunk now = some (deleted, j)) :
      s ∈ taken.versions ∨ s.getPendingVersion = chunk.version := by
    rcases enter_cases h with ⟨-, rfl, -⟩ | ⟨-, back, -, -, -, rfl⟩ | ⟨-, -, -, rfl⟩
    · refine (List.mem_append.1 hs).imp_right (fun hs => ?_)
      rw [List.mem_singleton.1 hs, getPendingVersion_addDataCommand]
    · refine (List.mem_append.1 hs).imp (List.dropLast_sublist _).mem (fun hs => ?_)
      rw [List.mem_singleton.1 hs, getPendingVersion_addDataCommand]
    · refine Or.inr ?_
      rw [List.mem_singleton.1 hs, getPendingVersion_addDataCommand]
  rcases h with ⟨-, rfl⟩ | ⟨deleted, taken, htake, ⟨-, rfl⟩ | ⟨deleted', henter⟩⟩
  · exact Or.inl hs
  · exact Or.inl (mem_of_mem_take htake hs)
  · exact (hentered henter).imp_left (mem_of_mem_take htake)

theorem Numbered.of_shrunkFrom (h : i.Numbered) (hji : j.ShrunkFrom i) : j.Numbered :=
  ⟨h.contiguous.suffix hji.versions, fun s hs => h.version s (hji.versions.mem hs)⟩

theorem cachedRange_first {front : DataStream} (hfront : i.versions.head? = some front) :
    i.cachedRange.1 = front.getVersion := by
  rw [cachedRange, hfront]
  rfl

theorem cachedRange_last {back : DataStream} (hback : i.versions.getLast? = some back) :
    i.cachedRange.2.1 = back.getVersion := by
  rw [cachedRange, hback]
  rfl

theorem getVersion_of_ready {s : DataStream} (h : s.isReady = true) :
    s.getVersion = s.getPendingVersion := if_pos h

theorem getVersion_of_waiting {s : DataStream} (h : ¬ s.isReady = true) :
    s.getVersion = versionInvalid := if_neg h

namespace Numbered

variable {s t : DataStream}

theorem eq_of_version (h : i.Numbered) (hs : s ∈ i.versions) (ht : t ∈ i.versions)
    (hst : s.getPendingVersion = t.getPendingVersion) : s = t := by
  have hlt := pairwise_of_contiguous h.contiguous
  have hnodup : (i.versions.map DataStream.getPendingVersion).Nodup :=
    List.pairwise_map.2 (hlt.imp (fun hst => Nat.ne_of_lt hst))
  exact List.inj_on_of_nodup_map hnodup hs ht hst

theorem pendingVersion_bounds (h : i.Numbered) {front back : DataStream}
    (hfront : i.versions.head? = some front) (hback : i.versions.getLast? = some back)
    (hs : s ∈ i.versions) :
    front.getPendingVersion ≤ s.getPendingVersion ∧
      s.getPendingVersion ≤ back.getPendingVersion := by
  have hlt := pairwise_of_contiguous h.contiguous
  obtain ⟨rest, hrest⟩ := List.head?_eq_some_iff.1 hfront
  obtain ⟨init, hinit⟩ := List.getLast?_eq_some_iff.1 hback
  constructor
  · rw [hrest] at hs hlt
    rcases List.mem_cons.1 hs with rfl | hs
    · exact le_rfl
    · exact (List.rel_of_pairwise_cons hlt hs).le
  · rw [hinit] at hs hlt
    rcases List.mem_append.1 hs with hs | hs
    · exact ((List.pairwise_append.1 hlt).2.2 s hs back (List.mem_singleton_self back)).le
    · rw [List.mem_singleton.1 hs]

end Numbered

/-- The range is honest unless it begins with a complete version and an incomplete one follows. -/
theorem Numbered.honest_iff (h : i.Numbered) :
    i.Honest ↔ ∀ front ∈ i.versions.head?, front.isReady = true →
      ∀ s ∈ i.versions, s.isReady = true := by
  constructor
  · intro hhonest front hfront hready s hs
    by_contra hwait
    have hmem := List.mem_of_mem_head? hfront
    obtain ⟨back, hback⟩ : ∃ back, i.versions.getLast? = some back :=
      Option.isSome_iff_exists.1 (List.getLast?_isSome.2 (List.ne_nil_of_mem hs))
    have hbounds := h.pendingVersion_bounds hfront hback hs
    have hversion := h.version s hs
    have hfirst : i.cachedRange.1 ≤ s.getPendingVersion := by
      rw [cachedRange_first hfront, getVersion_of_ready hready]
      exact hbounds.1
    have hlast : s.getPendingVersion ≤ i.cachedRange.2.1 := by
      rw [cachedRange_last hback]
      by_cases hback' : back.isReady = true
      · rw [getVersion_of_ready hback']
        exact hbounds.2
      · rw [getVersion_of_waiting hback']
        exact hversion.le
    obtain ⟨t, ht, htready, hst⟩ := hhonest s.getPendingVersion hversion hfirst hlast
    rw [h.eq_of_version ht hs hst] at htready
    exact hwait htready
  · intro hcond v hv hfirst hlast
    cases hfront : i.versions.head? with
    | none =>
        rw [List.head?_eq_none_iff] at hfront
        have hle : versionHead ≤ versionNone := by
          rw [cachedRange, hfront] at hfirst hlast
          exact hfirst.trans hlast
        exact absurd hle (by decide)
    | some front =>
        have hmem := List.mem_of_mem_head? hfront
        obtain ⟨back, hback⟩ : ∃ back, i.versions.getLast? = some back :=
          Option.isSome_iff_exists.1 (List.getLast?_isSome.2 (List.ne_nil_of_mem hmem))
        rw [cachedRange_first hfront] at hfirst
        rw [cachedRange_last hback] at hlast
        by_cases hready : front.isReady = true
        · have hall := hcond front hfront hready
          rw [getVersion_of_ready hready] at hfirst
          rw [getVersion_of_ready (hall back (List.mem_of_getLast? hback))] at hlast
          obtain ⟨s, hs, hsv⟩ := mem_of_contiguous h.contiguous hfront hback hfirst hlast
          exact ⟨s, hs, hall s hs, hsv⟩
        · rw [getVersion_of_waiting hready] at hfirst
          exact absurd hv (Nat.not_lt.2 hfirst)

end Item

namespace InstanceCache

variable {c : InstanceCache}

structure Versions (c : InstanceCache) : Prop where
  distinct : c.Distinct
  numbered : ∀ i ∈ c.items, i.Numbered

/-- A command is of a version that is not special. -/
def Versioned : Op → Prop
  | .add chunk _ _ _ => chunk.version < versionInvalid
  | _ => True

instance : (op : Op) → Decidable (Versioned op)
  | .add chunk _ _ _ => inferInstanceAs (Decidable (chunk.version < versionInvalid))
  | .access _ => isTrue trivial
  | .release _ _ _ => isTrue trivial
  | .remove _ => isTrue trivial
  | .erase _ => isTrue trivial
  | .expire _ _ => isTrue trivial

theorem numbered_of_shrinks {c' : InstanceCache} (h : ∀ i ∈ c.items, i.Numbered)
    (hshrinks : c.Shrinks c') : ∀ i ∈ c'.items, i.Numbered := by
  intro j hj
  obtain ⟨i, hi, hji⟩ := hshrinks j hj
  exact (h i hi).of_shrunkFrom hji

theorem Versions.step (h : c.Versions) {op : Op} (hop : Versioned op) {c' : InstanceCache}
    (hs : c.step op = some c') : c'.Versions := by
  refine ⟨h.distinct.step hs, ?_⟩
  by_cases hadd : ∃ chunk usage now order, op = .add chunk usage now order
  · obtain ⟨chunk, usage, now, order, rfl⟩ := hadd
    obtain rfl := Option.some.inj hs
    have henter : ∀ i ∈ (c.enter chunk usage now).2.items, i.Numbered := by
      intro j hj
      have hadded {i : Item} (hi : i.Numbered) (hadded : i.Added chunk usage now j) :
          j.Numbered := by
        refine ⟨hi.contiguous.of_added hadded, fun s hs => ?_⟩
        rcases hadded.version hs with hs | hs
        · exact hi.version s hs
        · rw [hs]
          exact hop
      have hcreate : (Item.create chunk).Numbered :=
        { contiguous := List.IsChain.nil, version := fun _ hs => nomatch hs }
      rcases enter_items h.distinct hj with ⟨hj, -⟩ | ⟨i, hi | ⟨-, rfl⟩, hij⟩
      · exact h.numbered j hj
      · exact hadded (h.numbered i (Keyed.mem_of_lookup hi)) hij
      · exact hadded hcreate hij
    simp only [InstanceCache.add]
    split
    · next heq => rwa [heq] at henter
    · next heq =>
      rw [heq] at henter
      refine numbered_of_shrinks henter ?_
      exact ((Shrinks.refl _).releaseItems 1 order).releaseItems 0 order
  · exact numbered_of_shrinks h.numbered (shrinks_step
      (fun chunk usage now order he => hadd ⟨chunk, usage, now, order, he⟩) hs)

theorem versions_run (maxSize target : ℕ) {ops : List Op}
    (hops : Machine.Steps step (fun _ op => Versioned op) (start maxSize target) ops)
    (hrun : Machine.run step (start maxSize target) ops = some c) : c.Versions := by
  have hstart : (start maxSize target).Versions :=
    { distinct := List.nodup_nil, numbered := fun _ hi => nomatch hi }
  exact Machine.run_invariant Versions (fun _ _ _ h hop hs => h.step hop hs) hstart hops hrun

end InstanceCache

variable {S : Type}

/-- The request of `mapNB` for an object with an item in the cache. -/
def Item.mapCommand (i : Item) (requestID id master version maxVersion instanceID : ℕ) :
    MasterCommand :=
  (Store.request false requestID id master version maxVersion instanceID true
    (some i.cachedRange)).command

/-- A message with the data of a version is among those that the master sends to a new slave. -/
def SendsData (m : MasterCM S) (command : MasterCommand) (v : ℕ) : Prop :=
  ∃ is : VersionData, is.version = v ∧
    Message.mapData command.node command.instanceID is ∈ (m.mapMessages command).map Sent.message

/-- The slave receives every version from the one it is mapped to, or has it in the cache. -/
def Supplied (i : Item) (command : MasterCommand) : Manager S → Prop
  | .unbuffered instanceID version attached => ∀ reply,
      (Manager.unbuffered (S := S) instanceID version attached).addSlave command = some reply →
      reply.useCache = true → i.Holds version
  | .buffered m => ∀ v, m.startVersion command.requestedVersion ≤ v → v ≤ m.version →
      SendsData m command v ∨ i.Holds v

/-- A manager whose versions are no special ones; a buffered object retains the latest ones. -/
def Manager.Regular : Manager S → Prop
  | .unbuffered _ version _ => version < versionInvalid
  | .buffered m => m.version < versionInvalid ∧ ∃ oldest data, m.Retains oldest data

theorem sendsData_of_range {m : MasterCM S} {oldest : ℕ} {data : ℕ → InstanceData}
    (hm : m.Retains oldest data) {command : MasterCommand}
    (hrequested : command.requestedVersion ≠ versionNone) {v : ℕ} (hv : oldest ≤ v)
    (hvm : v ≤ m.version)
    (hrange : ∀ useCache, (m.sendRange command useCache).1 ≤ v ∧
      v ≤ (m.sendRange command useCache).2) : SendsData m command v := by
  refine ⟨(data v).stream, hm.version v, ?_⟩
  rw [MasterCM.mapMessages, if_neg hrequested, MasterCM.initSlave_messages]
  refine List.mem_cons_of_mem _ (List.mem_append_left _ (List.mem_map.2 ⟨data v, ?_, rfl⟩))
  rw [hm.dataRange_eq, mem_interval]
  exact ⟨v, max_le hv (hrange _).1, le_min hvm (hrange _).2, rfl⟩

theorem sendRange_or_cached (m : MasterCM S) (command : MasterCommand) (useCache : Bool) {v : ℕ}
    (hstart : m.startVersion command.requestedVersion ≤ v) (hv : v ≤ m.version) :
    ((m.sendRange command useCache).1 ≤ v ∧ v ≤ (m.sendRange command useCache).2) ∨
      (command.minCachedVersion ≤ v ∧ v ≤ command.maxCachedVersion) := by
  simp only [MasterCM.sendRange]
  split_ifs with _ hcached hlast <;> simp only <;> omega

namespace Item.Honest

variable {i : Item} {requestID id master version maxVersion instanceID : ℕ}

theorem supplied_unbuffered (h : i.Honest) {masterInstanceID current : ℕ} {attached : Bool}
    (hcurrent : current < versionInvalid) :
    Supplied i (i.mapCommand requestID id master version maxVersion instanceID)
      (Manager.unbuffered (S := S) masterInstanceID current attached) := by
  intro reply hreply huse
  simp only [Manager.addSlave] at hreply
  split_ifs at hreply with hnone hcached hattached
  · rw [← Option.some.inj hreply] at huse
    cases huse
  · exact h current hcurrent hcached.2.2.1 hcached.2.2.2
  · rw [← Option.some.inj hreply] at huse
    cases huse

theorem supplied_buffered (h : i.Honest) {m : MasterCM S} {oldest : ℕ} {data : ℕ → InstanceData}
    (hm : m.Retains oldest data) (hcurrent : m.version < versionInvalid)
    (hrequested : version ≠ versionNone) :
    Supplied i (i.mapCommand requestID id master version maxVersion instanceID)
      (Manager.buffered m) := by
  intro v hstart hv
  have holdest : oldest ≤ m.startVersion version := by
    rw [MasterCM.startVersion, hm.oldest_eq]
    split_ifs with hold
    · exact le_rfl
    · exact not_lt.1 (fun hlt => hold (Or.inr hlt))
  by_cases hcached : i.cachedRange.1 ≤ v ∧ v ≤ i.cachedRange.2.1
  · exact Or.inr (h v (hv.trans_lt hcurrent) hcached.1 hcached.2)
  · refine Or.inl (sendsData_of_range hm hrequested (holdest.trans hstart) hv (fun useCache => ?_))
    exact (sendRange_or_cached m _ useCache hstart hv).resolve_right hcached

theorem supplied_mapCommand (h : i.Honest) (hrequested : version ≠ versionNone) {manager : Manager S}
    (hmanager : manager.Regular) :
    Supplied i (i.mapCommand requestID id master version maxVersion instanceID) manager := by
  cases manager with
  | unbuffered masterInstanceID current attached => exact h.supplied_unbuffered hmanager
  | buffered m =>
      obtain ⟨hcurrent, oldest, data, hm⟩ := hmanager
      exact h.supplied_buffered hm hcurrent hrequested

end Item.Honest

/-- The range of a request names complete versions only, and no master leaves the slave without the
data of a version, if and only if no stream waits for commands behind a first one that is ready. -/
theorem advertised_iff_ready (maxSize target : ℕ) {ops : List Op} {c : InstanceCache}
    (hops : Machine.Steps InstanceCache.step (fun _ op => InstanceCache.Versioned op)
      (InstanceCache.start maxSize target) ops)
    (hrun : Machine.run InstanceCache.step (InstanceCache.start maxSize target) ops = some c)
    {id : ℕ} {i : Item} (hi : c.find id = some i) :
    (checkInstanceCache (some c) id).1 = some i.cachedRange ∧
    ((i.Honest ∧ ∀ requestID master version maxVersion instanceID, version ≠ versionNone →
        ∀ manager : Manager S, manager.Regular →
          Supplied i (i.mapCommand requestID id master version maxVersion instanceID) manager) ↔
      ∀ front ∈ i.versions.head?, front.isReady = true → ∀ s ∈ i.versions, s.isReady = true) := by
  have hnumbered := (InstanceCache.versions_run maxSize target hops hrun).numbered i
    (Keyed.mem_of_lookup hi)
  refine ⟨?_, ?_⟩
  · simp only [checkInstanceCache, InstanceCache.access, hi]
    rfl
  · rw [← hnumbered.honest_iff]
    exact ⟨fun h => h.1, fun h => ⟨h, fun _ _ _ _ _ hrequested _ hmanager =>
      h.supplied_mapCommand hrequested hmanager⟩⟩

/-- An object whose versions 1 and 2 are in the cache. -/
theorem advertised_of_ready :
    ∃ c i, Machine.run InstanceCache.step (InstanceCache.start 1000 800)
        [.add ⟨1, 1, 7, 9, 0, true, 60, []⟩ 0 0 [], .add ⟨1, 2, 7, 9, 0, false, 60, []⟩ 0 0 [],
          .add ⟨1, 2, 7, 9, 1, true, 60, []⟩ 0 0 []] = some c ∧
      c.find 1 = some i ∧ i.cachedRange = (1, 2, 7) ∧ i.Honest := by
  have h : ((Machine.run InstanceCache.step (InstanceCache.start 1000 800)
        [.add ⟨1, 1, 7, 9, 0, true, 60, []⟩ 0 0 [], .add ⟨1, 2, 7, 9, 0, false, 60, []⟩ 0 0 [],
          .add ⟨1, 2, 7, 9, 1, true, 60, []⟩ 0 0 []]).bind (fun c => c.find 1)).map (fun i =>
      decide (i.cachedRange = (1, 2, 7) ∧ ∀ s ∈ i.versions, s.isReady = true)) =
      some true := by decide +kernel
  obtain ⟨i, hfind, hfacts⟩ := Option.map_eq_some_iff.1 h
  obtain ⟨c, hrun, hi⟩ := Option.bind_eq_some_iff.1 hfind
  obtain ⟨hrange, hready⟩ := of_decide_eq_true hfacts
  exact ⟨c, i, hrun, hi, hrange, ((advertised_iff_ready (S := Unit) 1000 800 (by decide +kernel)
    hrun hi).2.2 (fun _ _ _ => hready)).1⟩

/-- The master of an object of one byte after two commits, which has version 3 only. -/
def masterOfThree : MasterCM UInt8 :=
  ((MasterCM.init (ObjectClass.byte .full) 0 7).call (ObjectClass.byte .full)
    (.commit 5 commitNext)).call (ObjectClass.byte .full) (.commit 6 commitNext)

/-- Of version 2 only the first of two commands has arrived. The request names all versions from 1
on, and the master sends nothing for version 3. -/
theorem advertised_partial :
    ∃ c i, Machine.run InstanceCache.step (InstanceCache.start 1000 800)
        [.add ⟨1, 1, 7, 9, 0, true, 60, []⟩ 0 0 [], .add ⟨1, 2, 7, 9, 0, false, 60, []⟩ 0 0 []] =
        some c ∧
      c.find 1 = some i ∧ i.cachedRange = (1, versionInvalid, 7) ∧ ¬ i.Honest ∧
      (masterOfThree.mapMessages (i.mapCommand 5 1 9 versionOldest 0 2)).map Sent.message =
        [.mapSuccess 9 5 2, .mapReply ⟨9, 1, 3, 5, true, true, true⟩] ∧
      ¬ Supplied i (i.mapCommand 5 1 9 versionOldest 0 2) (Manager.buffered masterOfThree) := by
  have h : ((Machine.run InstanceCache.step (InstanceCache.start 1000 800)
        [.add ⟨1, 1, 7, 9, 0, true, 60, []⟩ 0 0 [],
          .add ⟨1, 2, 7, 9, 0, false, 60, []⟩ 0 0 []]).bind (fun c => c.find 1)).map (fun i =>
      decide (i.cachedRange = (1, versionInvalid, 7) ∧ ¬ i.Holds 3 ∧
        (masterOfThree.mapMessages (i.mapCommand 5 1 9 versionOldest 0 2)).map Sent.message =
          [.mapSuccess 9 5 2, .mapReply ⟨9, 1, 3, 5, true, true, true⟩])) =
      some true := by decide +kernel
  obtain ⟨i, hfind, hfacts⟩ := Option.map_eq_some_iff.1 h
  obtain ⟨c, hrun, hi⟩ := Option.bind_eq_some_iff.1 hfind
  obtain ⟨hrange, hholds, hmessages⟩ := of_decide_eq_true hfacts
  refine ⟨c, i, hrun, hi, hrange, fun hhonest => hholds (hhonest 3 (by decide) ?_ ?_), hmessages,
    fun hsupplied => ?_⟩
  · rw [hrange]
    decide
  · rw [hrange]
    decide
  · have hstart : masterOfThree.startVersion versionOldest ≤ 3 := by decide +kernel
    rcases hsupplied 3 hstart (by decide +kernel) with ⟨is, -, hmem⟩ | hmem
    · rw [hmessages] at hmem
      simp at hmem
    · exact hholds hmem

end Collage.Cache
