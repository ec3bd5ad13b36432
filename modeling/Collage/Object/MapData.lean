import Collage.Lib.Interval
import Collage.Object.Slave

/-!
# Map data

A new slave is sent the retained versions from the one it maps to the head. Versions that the
instance cache of its node holds are not sent again; the slave puts them in front of its queue or
behind it with the map reply. The queue is the same as without the cache.
-/

namespace Collage.Object

variable {S : Type}

/-- The retained versions are contiguous, up to the head. -/
structure MasterCM.Retains (m : MasterCM S) (oldest : ℕ) (data : ℕ → InstanceData) : Prop where
  datas : m.instanceDatas = interval data oldest m.version
  version : ∀ v, (data v).version = v
  first : versionFirst ≤ oldest
  last : oldest ≤ m.version

namespace MasterCM.Retains

variable {m : MasterCM S} {oldest : ℕ} {data : ℕ → InstanceData}

theorem oldest_eq (h : m.Retains oldest data) : m.oldest = oldest := by
  rw [MasterCM.oldest, h.datas, head?_interval h.last, Option.map_some, Option.getD_some,
    h.version]

theorem startVersion_mem (h : m.Retains oldest data) {requested : ℕ}
    (hrequested : requested = versionOldest ∨ requested ≤ m.version) :
    oldest ≤ m.startVersion requested ∧ m.startVersion requested ≤ m.version := by
  rw [MasterCM.startVersion, h.oldest_eq]
  split_ifs with hold
  · exact ⟨le_rfl, h.last⟩
  · push Not at hold
    exact ⟨hold.2, hrequested.resolve_left hold.1⟩

theorem dataRange_eq (h : m.Retains oldest data) (a b : ℕ) :
    m.dataRange (a, b) = interval data (max oldest a) (min m.version b) := by
  rw [MasterCM.dataRange, h.datas, dropWhile_interval h.version, takeWhile_interval h.version]

end MasterCM.Retains

theorem MasterCM.initSlave_messages (m : MasterCM S) (command : MasterCommand) (useCache : Bool) :
    (m.initSlave command useCache).map Sent.message =
      .mapSuccess command.node command.requestID command.instanceID ::
        (m.dataRange (m.sendRange command useCache)).map
          (fun d => Message.mapData command.node command.instanceID d.stream) ++
        [.mapReply ⟨command.node, command.objectID, m.startVersion command.requestedVersion,
          command.requestID, true, command.useCache, useCache⟩] := by
  simp only [initSlave]
  split_ifs with hnil
  · rw [hnil]
    rfl
  · rw [List.map_append, List.map_cons, List.map_map]
    rfl

@[simp] theorem Slave.cmdMapReply_queue (s : Slave S) (version : ℕ) :
    (s.cmdMapReply version).queue = s.queue := by
  unfold cmdMapReply
  split <;> rfl

theorem check_eq_nil {p : Prop} [Decidable p] {a : Assertion} (h : p) : check p a = [] := if_pos h

namespace Slave

variable {stream : ℕ → VersionData} (hversion : ∀ v, (stream v).version = v)

include hversion

theorem foldl_cmdData (s : Slave S) {a b : ℕ}
    (hback : ∀ back ∈ s.queue.getLast?, back.version + 1 = a ∨ back.version = versionNone) :
    (interval stream a b).foldl cmdData s =
      { s with
        queue := s.queue ++ interval stream a b
        received := s.received ++ interval stream a b } := by
  by_cases hab : b < a
  · rw [interval_eq_nil hab, List.append_nil, List.append_nil, List.foldl_nil]
  · obtain ⟨n, rfl⟩ := Nat.exists_eq_add_of_le (not_lt.1 hab)
    clear hab
    induction n with
    | zero =>
        rw [Nat.add_zero, interval_self, List.foldl_cons, List.foldl_nil, cmdData, hversion,
          check_eq_nil hback, List.append_nil]
    | succ n ih =>
        rw [← Nat.add_assoc, interval_snoc (by omega), List.foldl_append, ih, List.foldl_cons,
          List.foldl_nil, cmdData, check_eq_nil, List.append_nil, List.append_assoc,
          List.append_assoc]
        intro back hmem
        change back ∈ (s.queue ++ interval stream a (a + n)).getLast? at hmem
        rw [List.getLast?_append_of_ne_nil _ (by simp [interval_eq_nil_iff]),
          getLast?_interval (by omega)] at hmem
        rw [← Option.some.inj hmem, hversion, hversion]
        exact Or.inl rfl

theorem foldl_pushBack (s : Slave S) {a b : ℕ}
    (hback : ∀ back ∈ s.queue.getLast?, back.version + 1 = a) :
    (interval stream a b).foldl pushBack s =
      { s with queue := s.queue ++ interval stream a b } := by
  by_cases hab : b < a
  · rw [interval_eq_nil hab, List.append_nil, List.foldl_nil]
  · obtain ⟨n, rfl⟩ := Nat.exists_eq_add_of_le (not_lt.1 hab)
    clear hab
    induction n with
    | zero =>
        rw [Nat.add_zero, interval_self, List.foldl_cons, List.foldl_nil, pushBack, hversion,
          check_eq_nil hback, List.append_nil]
    | succ n ih =>
        rw [← Nat.add_assoc, interval_snoc (by omega), List.foldl_append, ih, List.foldl_cons,
          List.foldl_nil, pushBack, check_eq_nil, List.append_nil, List.append_assoc]
        intro back hmem
        change back ∈ (s.queue ++ interval stream a (a + n)).getLast? at hmem
        rw [List.getLast?_append_of_ne_nil _ (by simp [interval_eq_nil_iff]),
          getLast?_interval (by omega)] at hmem
        rw [← Option.some.inj hmem, hversion, hversion]

theorem foldl_pushFront (s : Slave S) {a b : ℕ}
    (hfront : ∀ front ∈ s.queue.head?, front.version = b + 1) :
    (interval stream a b).reverse.foldl pushFront s =
      { s with queue := interval stream a b ++ s.queue } := by
  by_cases hab : b < a
  · rw [interval_eq_nil hab, List.reverse_nil, List.foldl_nil, List.nil_append]
  · obtain ⟨n, rfl⟩ := Nat.exists_eq_add_of_le (not_lt.1 hab)
    clear hab
    induction n generalizing a with
    | zero =>
        rw [Nat.add_zero, interval_self, List.reverse_singleton, List.foldl_cons, List.foldl_nil,
          pushFront, hversion, check_eq_nil hfront, List.append_nil, List.singleton_append]
    | succ n ih =>
        rw [interval_cons (by omega), List.reverse_cons, List.foldl_append,
          show a + (n + 1) = a + 1 + n by omega, ih (by simpa [Nat.add_comm, Nat.add_left_comm]
            using hfront), List.foldl_cons, List.foldl_nil, pushFront, check_eq_nil,
          List.append_nil, List.cons_append]
        intro front hmem
        change front ∈ (interval stream (a + 1) (a + 1 + n) ++ s.queue).head? at hmem
        have hne : interval stream (a + 1) (a + 1 + n) ≠ [] := by
          rw [Ne, interval_eq_nil_iff]
          omega
        rw [List.head?_append_of_ne_nil _ hne, head?_interval (by omega)] at hmem
        rw [← Option.some.inj hmem, hversion, hversion]

omit hversion in
theorem splitCached_eq (startVersion oldest newest : ℕ) (cache : List VersionData) :
    splitCached startVersion oldest newest cache =
      ((cache.filter (fun is => startVersion ≤ is.version ∧ is.version < oldest)).reverse,
        cache.filter (fun is => startVersion ≤ is.version ∧ oldest ≤ is.version ∧
          newest < is.version)) := by
  induction cache with
  | nil => rfl
  | cons is cache ih =>
      rw [splitCached, ih]
      dsimp only
      split_ifs with hstart hold hnew
      · rw [List.filter_cons_of_neg (by simp; omega), List.filter_cons_of_neg (by simp; omega)]
      · rw [List.filter_cons_of_pos (by simp; omega), List.filter_cons_of_neg (by simp; omega),
          List.reverse_cons]
      · rw [List.filter_cons_of_neg (by simp; omega), List.filter_cons_of_pos (by simp; omega)]
      · rw [List.filter_cons_of_neg (by simp; omega), List.filter_cons_of_neg (by simp; omega)]

variable {cached : ℕ → VersionData} (hcached : ∀ v, (cached v).version = v)

include hcached

omit hversion in
theorem addInstanceDatas_of_nil {s : Slave S} (hqueue : s.queue = []) {start : ℕ}
    (hstart : 0 < start) (first last : ℕ) :
    s.addInstanceDatas (interval cached first last) start =
      { s with queue := interval cached (max first start) last } := by
  have hhead : (interval cached first last).filter
      (fun is => start ≤ is.version ∧ is.version < versionNone) = [] := by
    refine List.filter_eq_nil_iff.2 (fun is _ => ?_)
    simp [versionNone]
  have htail : (interval cached first last).filter
      (fun is => start ≤ is.version ∧ versionNone ≤ is.version ∧ versionNone < is.version) =
      interval cached (max first start) last := by
    rw [← filter_interval_from hcached]
    refine List.filter_congr (fun is _ => decide_eq_decide.2 ?_)
    unfold versionNone
    omega
  simp only [addInstanceDatas, hqueue, List.head?_nil, List.getLast?_nil, Option.map_none,
    Option.getD_none, splitCached_eq, hhead, htail, List.reverse_nil, List.foldl_nil]
  rw [foldl_pushBack hcached s (by simp [hqueue]), hqueue, List.nil_append]

theorem addInstanceDatas_of_queue {s : Slave S} {a b : ℕ} (ha : 0 < a) (hab : a ≤ b)
    (hqueue : s.queue = interval stream a b) (first last start : ℕ)
    (hfront : max first start < a → a ≤ last + 1) (hback : b < last → max first start ≤ b + 1) :
    s.addInstanceDatas (interval cached first last) start =
      { s with queue := interval cached (max first start) (min last (a - 1)) ++
          interval stream a b ++ interval cached (max first (max start (b + 1))) last } := by
  have hhead : (interval cached first last).filter
      (fun is => start ≤ is.version ∧ is.version < a) =
      interval cached (max first start) (min last (a - 1)) := by
    rw [← filter_interval hcached]
    refine List.filter_congr (fun is _ => decide_eq_decide.2 ?_)
    omega
  have htail : (interval cached first last).filter
      (fun is => start ≤ is.version ∧ a ≤ is.version ∧ b < is.version) =
      interval cached (max first (max start (b + 1))) last := by
    rw [← filter_interval_from hcached]
    refine List.filter_congr (fun is _ => decide_eq_decide.2 ?_)
    omega
  have hpushed : (interval cached (max first start) (min last (a - 1))).reverse.foldl pushFront s =
      { s with queue := interval cached (max first start) (min last (a - 1)) ++ s.queue } := by
    by_cases hnil : min last (a - 1) < max first start
    · rw [interval_eq_nil hnil, List.reverse_nil, List.foldl_nil, List.nil_append]
    · refine foldl_pushFront hcached s (fun front hmem => ?_)
      rw [hqueue, head?_interval hab] at hmem
      rw [← Option.some.inj hmem, hversion]
      omega
  simp only [addInstanceDatas, hqueue, head?_interval hab, getLast?_interval hab, Option.map_some,
    Option.getD_some, hversion, splitCached_eq, hhead, htail, hpushed]
  by_cases hnil : last < max first (max start (b + 1))
  · rw [interval_eq_nil hnil, List.foldl_nil, List.append_nil]
  · refine foldl_pushBack hcached _ (fun back hmem => ?_)
    change back ∈ (_ ++ interval stream a b).getLast? at hmem
    rw [List.getLast?_append_of_ne_nil _ (by simp [interval_eq_nil_iff, hab]),
      getLast?_interval hab] at hmem
    rw [← Option.some.inj hmem, hversion]
    omega

end Slave

namespace MasterCM

/-- A slave after the messages of its map request and the commits that follow. -/
def mapped (m : MasterCM S) (command : MasterCommand) (cache commits : List VersionData)
    (state : S) : Slave S :=
  ((m.mapMessages command).map Sent.message ++ commits.map Message.commit).foldl
    (Slave.handle cache) (Slave.attached command.instanceID command.maxVersion state)

variable {m : MasterCM S} {oldest : ℕ} {data : ℕ → InstanceData}

section Cache

variable {command : MasterCommand} {cached : ℕ → VersionData} {newest : ℕ}

theorem Retains.addInstanceDatas_sent (h : m.Retains oldest data)
    (hrequested : command.requestedVersion = versionOldest ∨
      command.requestedVersion ≤ m.version)
    (hcached : ∀ v, (cached v).version = v)
    (hsame : ∀ v, oldest ≤ v → cached v = (data v).stream)
    (hrange : command.minCachedVersion ≤ command.maxCachedVersion)
    (hgrown : command.maxCachedVersion ≤ newest) (hnewest : newest ≤ m.version) {s : Slave S}
    {a b : ℕ} (hsend : m.sendRange command true = (a, b))
    (hqueue : s.queue = interval (fun v => (data v).stream) (max oldest a) (min m.version b)) :
    s.addInstanceDatas (interval cached command.minCachedVersion newest)
        (m.startVersion command.requestedVersion) =
      { s with
        queue := interval (fun v => (data v).stream) (m.startVersion command.requestedVersion)
          m.version } := by
  obtain ⟨hfirst, hlast⟩ := h.startVersion_mem hrequested
  have hversion : ∀ v, ((data v).stream).version = v := h.version
  have hpos : 0 < oldest := h.first
  have hcongr : ∀ a b, oldest ≤ a →
      interval cached a b = interval (fun v => (data v).stream) a b :=
    fun a b ha => interval_congr (fun v hv _ => hsame v (ha.trans hv))
  simp only [MasterCM.sendRange, if_true] at hsend
  generalize m.startVersion command.requestedVersion = start at *
  generalize command.minCachedVersion = first at *
  generalize command.maxCachedVersion = last at *
  split_ifs at hsend with hcase hmax
  · obtain ⟨rfl, rfl⟩ := Prod.mk.inj hsend
    rw [min_self, max_eq_right (by omega)] at hqueue
    by_cases hmax : last = m.version
    · rw [interval_eq_nil (by omega)] at hqueue
      rw [Slave.addInstanceDatas_of_nil hcached hqueue (by omega), max_eq_right hcase.1,
        hcongr _ _ hfirst, show newest = m.version by omega]
    · rw [Slave.addInstanceDatas_of_queue hversion hcached (Nat.succ_pos _) (by omega) hqueue _ _ _
        (by omega) (by omega),
        interval_eq_nil (show newest < max first (max start (m.version + 1)) by omega),
        List.append_nil, max_eq_right hcase.1, show min newest (last + 1 - 1) = last by omega,
        hcongr _ _ hfirst, interval_append (by omega) (by omega)]
  · obtain ⟨rfl, rfl⟩ := Prod.mk.inj hsend
    rw [max_eq_right hfirst,
      show min m.version (max start (first - 1)) = first - 1 by omega] at hqueue
    rw [Slave.addInstanceDatas_of_queue hversion hcached (by omega) (by omega) hqueue _ _ _
        (by omega) (by omega),
      interval_eq_nil (show min newest (start - 1) < max first start by omega),
      List.nil_append, show max first (max start (first - 1 + 1)) = first - 1 + 1 by omega,
      hcongr _ _ (by omega), show newest = m.version by omega,
      interval_append (by omega) (by omega)]
  · obtain ⟨rfl, rfl⟩ := Prod.mk.inj hsend
    rw [max_eq_right hfirst, min_self] at hqueue
    rw [Slave.addInstanceDatas_of_queue hversion hcached (by omega) hlast hqueue _ _ _
        (by omega) (by omega),
      interval_eq_nil (show min newest (start - 1) < max first start by omega),
      interval_eq_nil (show newest < max first (max start (m.version + 1)) by omega),
      List.nil_append, List.append_nil]

theorem Retains.handle_mapData (h : m.Retains oldest data) (useCache : Bool)
    (cache : List VersionData) (state : S) {a b : ℕ}
    (hsend : m.sendRange command useCache = (a, b)) :
    ((m.initSlave command useCache).map Sent.message).foldl (Slave.handle cache)
        (Slave.attached command.instanceID command.maxVersion state) =
      Slave.handle cache
        { Slave.attached command.instanceID command.maxVersion state with
          queue := interval (fun v => (data v).stream) (max oldest a) (min m.version b)
          received := interval (fun v => (data v).stream) (max oldest a) (min m.version b) }
        (.mapReply ⟨command.node, command.objectID, m.startVersion command.requestedVersion,
          command.requestID, true, command.useCache, useCache⟩) := by
  have hversion : ∀ v, ((data v).stream).version = v := h.version
  rw [initSlave_messages, hsend, h.dataRange_eq, List.foldl_append, List.foldl_cons,
    List.foldl_nil, List.foldl_cons, List.foldl_map]
  change Slave.handle _ ((interval data _ _).foldl (fun s d => s.cmdData d.stream)
    (Slave.attached _ _ _)) _ = _
  rw [← List.foldl_map, map_interval, Slave.foldl_cmdData hversion _ (by simp [Slave.attached])]
  rfl

/-- A slave whose queue reaches from the version it maps to the head. -/
def Complete (m : MasterCM S) (data : ℕ → InstanceData) (requested : ℕ) (s : Slave S) : Prop :=
  s.queue = (if requested = versionNone then [⟨versionNone, true, []⟩]
    else interval (fun v => (data v).stream) (m.startVersion requested) m.version) ∧
  s.failed = []

theorem Retains.complete_uncached (h : m.Retains oldest data) (command : MasterCommand)
    (hrequested : command.requestedVersion = versionOldest ∨
      command.requestedVersion ≤ m.version)
    (huse : (command.useCache && decide (command.masterInstanceID = m.instanceID)) = false)
    (cache : List VersionData) (state : S) :
    m.Complete data command.requestedVersion (((m.mapMessages command).map Sent.message).foldl
      (Slave.handle cache) (Slave.attached command.instanceID command.maxVersion state)) := by
  obtain ⟨hfirst, -⟩ := h.startVersion_mem hrequested
  unfold mapMessages Complete
  split_ifs with hnone
  · exact ⟨rfl, rfl⟩
  · rw [huse, h.handle_mapData false cache state rfl, max_eq_right hfirst, min_self]
    exact ⟨rfl, rfl⟩

theorem Retains.complete_cached (h : m.Retains oldest data)
    (hrequested : command.requestedVersion = versionOldest ∨
      command.requestedVersion ≤ m.version)
    (huse : (command.useCache && decide (command.masterInstanceID = m.instanceID)) = true)
    (hcached : ∀ v, (cached v).version = v)
    (hsame : ∀ v, oldest ≤ v → cached v = (data v).stream)
    (hrange : command.minCachedVersion ≤ command.maxCachedVersion)
    (hgrown : command.maxCachedVersion ≤ newest) (hnewest : newest ≤ m.version) (state : S) :
    m.Complete data command.requestedVersion (((m.mapMessages command).map Sent.message).foldl
      (Slave.handle (interval cached command.minCachedVersion newest))
      (Slave.attached command.instanceID command.maxVersion state)) := by
  unfold mapMessages Complete
  split_ifs with hnone
  · exact ⟨rfl, rfl⟩
  · cases hsend : m.sendRange command true with
    | mk a b =>
        rw [huse, h.handle_mapData true _ state hsend]
        simp only [Slave.handle, if_true]
        rw [h.addInstanceDatas_sent hrequested hcached hsame hrange hgrown hnewest hsend rfl]
        exact ⟨rfl, rfl⟩

theorem Retains.complete_mapped (h : m.Retains oldest data) (command : MasterCommand)
    (hrequested : command.requestedVersion = versionOldest ∨
      command.requestedVersion ≤ m.version)
    {cache : List VersionData} {state : S}
    (hcomplete : m.Complete data command.requestedVersion
      (((m.mapMessages command).map Sent.message).foldl (Slave.handle cache)
        (Slave.attached command.instanceID command.maxVersion state)))
    {live : ℕ → VersionData} (hlive : ∀ v, (live v).version = v) (last : ℕ) :
    (m.mapped command cache (interval live (m.version + 1) last) state).queue =
      (if command.requestedVersion = versionNone then [⟨versionNone, true, []⟩]
        else interval (fun v => (data v).stream) (m.startVersion command.requestedVersion)
          m.version) ++ interval live (m.version + 1) last ∧
    (m.mapped command cache (interval live (m.version + 1) last) state).failed = [] := by
  obtain ⟨hqueue, hfailed⟩ := hcomplete
  obtain ⟨-, hlast⟩ := h.startVersion_mem hrequested
  rw [mapped, List.foldl_append, List.foldl_map]
  generalize ((m.mapMessages command).map Sent.message).foldl (Slave.handle cache)
    (Slave.attached command.instanceID command.maxVersion state) = s at hqueue hfailed
  change ((interval live _ last).foldl Slave.cmdData s).queue = _ ∧
    ((interval live _ last).foldl Slave.cmdData s).failed = _
  rw [Slave.foldl_cmdData hlive s]
  · exact ⟨by rw [← hqueue], hfailed⟩
  · intro back hmem
    rw [hqueue] at hmem
    split_ifs at hmem with hnone
    · rw [List.getLast?_singleton, Option.mem_some_iff] at hmem
      exact Or.inr (by rw [← hmem])
    · rw [getLast?_interval hlast] at hmem
      rw [← Option.some.inj hmem]
      exact Or.inl (congrArg (· + 1) (h.version _))

/-- Mapping from the instance cache is mapping without it: the queue of the slave holds the versions
from the one it maps to the head, then those that are committed later, and no assertion fails. While
the item of the cache is pinned, further versions may be added to it. -/
theorem map_from_cache (h : m.Retains oldest data)
    (hrequested : command.requestedVersion = versionOldest ∨
      command.requestedVersion ≤ m.version)
    (hcached : ∀ v, (cached v).version = v)
    (hsame : ∀ v, oldest ≤ v → cached v = (data v).stream)
    (hrange : command.minCachedVersion ≤ command.maxCachedVersion)
    (hgrown : command.maxCachedVersion ≤ newest) (hnewest : newest ≤ m.version)
    {live : ℕ → VersionData} (hlive : ∀ v, (live v).version = v) (last : ℕ) (state : S) :
    (m.mapped command (interval cached command.minCachedVersion newest)
        (interval live (m.version + 1) last) state).queue =
      (if command.requestedVersion = versionNone then [⟨versionNone, true, []⟩]
        else interval (fun v => (data v).stream) (m.startVersion command.requestedVersion)
          m.version) ++ interval live (m.version + 1) last ∧
    (m.mapped { command with useCache := false } []
        (interval live (m.version + 1) last) state).queue =
      (m.mapped command (interval cached command.minCachedVersion newest)
        (interval live (m.version + 1) last) state).queue ∧
    (m.mapped command (interval cached command.minCachedVersion newest)
        (interval live (m.version + 1) last) state).failed = [] := by
  have hcomplete : m.Complete data command.requestedVersion
      (((m.mapMessages command).map Sent.message).foldl
        (Slave.handle (interval cached command.minCachedVersion newest))
        (Slave.attached command.instanceID command.maxVersion state)) := by
    by_cases huse : (command.useCache && decide (command.masterInstanceID = m.instanceID)) = true
    · exact h.complete_cached hrequested huse hcached hsame hrange hgrown hnewest state
    · exact h.complete_uncached command hrequested (by simpa using huse) _ state
  have hmapped := h.complete_mapped command hrequested hcomplete hlive last
  have huncached := h.complete_mapped { command with useCache := false } hrequested
    (h.complete_uncached { command with useCache := false } hrequested rfl [] state) hlive last
  exact ⟨hmapped.1, huncached.1.trans hmapped.1.symm, hmapped.2⟩

/-- Version 2 is mapped while versions 2 to 4 are retained and 3 to 4 are in the cache, and version 5
is committed. -/
theorem map_from_cache_behind :
    let m : MasterCM Unit := ⟨(), fun _ => (), 1, 4, [⟨2, [2], 2⟩, ⟨3, [3], 3⟩, ⟨4, [4], 4⟩], 4, 2,
      [], [], unlimited, false⟩
    let s := m.mapped ⟨7, 2, 3, 4, 9, 1, 1, 1, 1, true⟩ [⟨3, true, [3]⟩, ⟨4, true, [4]⟩]
      [⟨5, true, [5]⟩] ()
    s.received.map VersionData.version = [2, 5] ∧
      s.queue.map VersionData.version = [2, 3, 4, 5] ∧ s.failed = [] := by
  intro m s
  have hretains : m.Retains 2 (fun v => ⟨v, [UInt8.ofNat v], v⟩) :=
    ⟨by decide, fun _ => rfl, by decide, by decide⟩
  have hversion : ∀ v, (⟨v, true, [UInt8.ofNat v]⟩ : VersionData).version = v := fun _ => rfl
  obtain ⟨hqueue, -, hfailed⟩ := map_from_cache hretains
    (Or.inr (show (⟨7, 2, 3, 4, 9, 1, 1, 1, 1, true⟩ : MasterCommand).requestedVersion ≤ 4 by decide))
    hversion (fun _ _ => rfl) (by decide) le_rfl le_rfl hversion 5 ()
  exact ⟨by decide, (congrArg (List.map VersionData.version) hqueue).trans (by decide), hfailed⟩

end Cache

end MasterCM

end Collage.Object
