import Collage.Object.MapData

/-!
# What a master keeps

The retained instance data is that of the versions up to the head, the nodes are those of the slaves,
and a commit sends the data of the next version or nothing. All of this needs an incarnation that
does not decrease, which `Object::commit` asks of the application.
-/

namespace Collage.Object

variable {S : Type} {cls : ObjectClass S}

def VersionData.Right (cls : ObjectClass S) (history : ℕ → S) (is : VersionData) : Prop :=
  if is.hasInstanceData then is.data = cls.getInstanceData (history is.version)
  else cls.changeType = .delta ∧ is.data = cls.pack (history (is.version - 1)) (history is.version)

theorem VersionData.Right.congr {history history' : ℕ → S} {is : VersionData}
    (h : is.Right cls history) (hsame : ∀ v ≤ is.version, history' v = history v) :
    is.Right cls history' := by
  unfold Right at h ⊢
  rw [hsame _ le_rfl, hsame _ (Nat.sub_le _ _)]
  exact h

namespace MasterCM

/-- The incarnation of a commit does not decrease. -/
def Increasing (m : MasterCM S) (incarnation : ℕ) : Prop :=
  incarnation = commitNext ∨ m.commitCount ≤ incarnation

instance (m : MasterCM S) (incarnation : ℕ) : Decidable (m.Increasing incarnation) :=
  inferInstanceAs (Decidable (_ ∨ _))

structure Kept (cls : ObjectClass S) (m : MasterCM S) : Prop where
  datas : ∃ (oldest : ℕ) (counts : ℕ → ℕ), versionFirst ≤ oldest ∧ oldest ≤ m.version ∧
    m.instanceDatas =
      interval (fun v => ⟨v, cls.getInstanceData (m.history v), counts v⟩) oldest m.version
  nodes : ∀ n, n ∈ m.slaves ↔ n ∈ m.slaveData.map SlaveData.node
  nodup : m.slaves.Nodup
  limit : m.maxVersion = minLimit m.slaveData

variable {m m' : MasterCM S}

theorem Kept.retains (h : m.Kept cls) : ∃ (oldest : ℕ) (counts : ℕ → ℕ),
    m.Retains oldest (fun v => ⟨v, cls.getInstanceData (m.history v), counts v⟩) := by
  obtain ⟨oldest, counts, hfirst, hlast, hdatas⟩ := h.datas
  exact ⟨oldest, counts, hdatas, fun _ => rfl, hfirst, hlast⟩

theorem popObsolete_interval (commitCount nVersions : ℕ) (data : ℕ → InstanceData) {a b : ℕ}
    (hab : a ≤ b) :
    ∃ a', a ≤ a' ∧ a' ≤ b ∧
      popObsolete commitCount nVersions (interval data a b) = interval data a' b := by
  obtain ⟨n, rfl⟩ := Nat.exists_eq_add_of_le hab
  clear hab
  induction n generalizing a with
  | zero =>
      refine ⟨a, le_rfl, le_rfl, ?_⟩
      rw [Nat.add_zero, interval_self]
      rfl
  | succ n ih =>
      obtain ⟨a', ha', hb', heq⟩ := @ih (a + 1)
      rw [show a + 1 + n = a + (n + 1) by omega] at hb' heq
      rw [interval_cons (by omega), interval_cons (by omega), popObsolete]
      split_ifs
      · rw [← interval_cons (by omega)]
        exact ⟨a', by omega, hb', heq⟩
      · refine ⟨a, le_rfl, by omega, ?_⟩
        rw [interval_cons (show a ≤ a + (n + 1) by omega),
          interval_cons (show a + 1 ≤ a + (n + 1) by omega)]

theorem Kept.obsolete (h : m.Kept cls) : m.obsolete.Kept cls := by
  obtain ⟨oldest, counts, hfirst, hlast, hdatas⟩ := h.datas
  obtain ⟨oldest', hle, hlast', heq⟩ := popObsolete_interval m.commitCount m.nVersions
    (fun v => ⟨v, cls.getInstanceData (m.history v), counts v⟩) hlast
  refine ⟨⟨oldest', counts, hfirst.trans hle, hlast', ?_⟩, h.nodes, h.nodup, h.limit⟩
  change popObsolete _ _ _ = _
  rw [hdatas]
  exact heq

theorem Kept.init (cls : ObjectClass S) (s : S) (instanceID : ℕ) :
    (MasterCM.init cls s instanceID).Kept cls := by
  refine ⟨⟨versionFirst, fun _ => 0, le_rfl, le_rfl, ?_⟩, by simp [MasterCM.init],
    List.nodup_nil, rfl⟩
  exact (interval_self _ _).symm

theorem Kept.modify (h : m.Kept cls) (s : S) : Kept cls { m with state := s } :=
  ⟨h.datas, h.nodes, h.nodup, h.limit⟩

theorem Kept.setAutoObsolete (h : m.Kept cls) (count : ℕ) : (m.setAutoObsolete count).Kept cls := by
  have h' : Kept cls { m with nVersions := count } := ⟨h.datas, h.nodes, h.nodup, h.limit⟩
  exact h'.obsolete

theorem updateCommitCount_eq {incarnation : ℕ} (hincarnation : m.Increasing incarnation) :
    ∃ count, m.updateCommitCount incarnation = { m with commitCount := count } := by
  unfold updateCommitCount
  split_ifs with hnext hle
  · exact ⟨_, rfl⟩
  · exact ⟨_, rfl⟩
  · exact absurd (hincarnation.resolve_left hnext) hle

theorem Kept.commitClean (h : m.Kept cls) {incarnation : ℕ}
    (hincarnation : m.Increasing incarnation) : (m.commitClean incarnation).Kept cls := by
  obtain ⟨count, heq⟩ := updateCommitCount_eq hincarnation
  have h' : Kept cls { m with commitCount := count } := ⟨h.datas, h.nodes, h.nodup, h.limit⟩
  unfold MasterCM.commitClean
  rw [heq]
  exact h'.obsolete

theorem Kept.addVersion (h : m.Kept cls) : (m.addVersion (cls.getInstanceData m.state)).Kept cls := by
  obtain ⟨oldest, counts, hfirst, hlast, hdatas⟩ := h.datas
  refine ⟨⟨oldest, Function.update counts (m.version + 1) m.commitCount, hfirst,
    hlast.trans (Nat.le_succ _), ?_⟩, h.nodes, h.nodup, h.limit⟩
  change m.instanceDatas ++ [⟨m.version + 1, cls.getInstanceData m.state, m.commitCount⟩] =
    interval (fun v => ⟨v, cls.getInstanceData (Function.update m.history (m.version + 1) m.state v),
      Function.update counts (m.version + 1) m.commitCount v⟩) oldest (m.version + 1)
  rw [interval_snoc (by omega), hdatas, Function.update_self, Function.update_self]
  congr 1
  refine interval_congr (fun v _ hv => ?_)
  have hne : v ≠ m.version + 1 := by omega
  rw [Function.update_of_ne hne, Function.update_of_ne hne]

/-- What a commit does: nothing that is seen, or a new version, which all slaves are sent. -/
structure Committed (cls : ObjectClass S) (m m' : MasterCM S) (sent : Option VersionData) :
    Prop where
  kept : m.Kept cls → m'.Kept cls
  slaveData : m'.slaveData = m.slaveData
  slaves : m'.slaves = m.slaves
  limit : m'.maxVersion = m.maxVersion
  version : (m'.version = m.version ∧ m'.history = m.history ∧ sent = none) ∨
    (m'.version = m.version + 1 ∧
      m'.history = Function.update m.history (m.version + 1) m.state ∧
      (m.slaves ≠ [] → sent.isSome = true) ∧
      ∀ is ∈ sent, is.version = m.version + 1 ∧ is.Right cls m'.history)

theorem committed_full (cls : ObjectClass S) (m : MasterCM S) :
    Committed cls m (m.commitFull cls).1 (m.commitFull cls).2 := by
  simp only [commitFull]
  split_ifs with hdata
  · refine ⟨Kept.addVersion, rfl, rfl, rfl, Or.inr ⟨rfl, rfl, fun _ => rfl, fun is his => ?_⟩⟩
    obtain rfl := Option.some.inj his
    refine ⟨rfl, ?_⟩
    simp [VersionData.Right, addVersion]
  · exact ⟨id, rfl, rfl, rfl, Or.inl ⟨rfl, rfl, rfl⟩⟩

theorem committed_delta (hclass : cls.changeType = .delta) :
    Committed cls m (m.commitDelta cls).1 (m.commitDelta cls).2 := by
  have hkept (sent : Bool) (h : m.Kept cls) : Kept cls { m with deltaSent := sent } :=
    ⟨h.datas, h.nodes, h.nodup, h.limit⟩
  simp only [commitDelta]
  generalize (if m.slaves ≠ [] then cls.packSent (m.history m.version) m.state
    else m.deltaSent) = sent
  split_ifs with hsend hdata hslaves
  · refine ⟨fun h => (hkept _ h).addVersion, rfl, rfl, rfl,
      Or.inr ⟨rfl, rfl, fun _ => rfl, fun is his => ?_⟩⟩
    obtain rfl := Option.some.inj his
    refine ⟨rfl, ?_⟩
    simp [VersionData.Right, addVersion, hclass]
  · exact ⟨fun h => (hkept _ h).addVersion, rfl, rfl, rfl,
      Or.inr ⟨rfl, rfl, fun hne => absurd hne hslaves, nofun⟩⟩
  · exact ⟨hkept _, rfl, rfl, rfl, Or.inl ⟨rfl, rfl, rfl⟩⟩
  · exact ⟨hkept _, rfl, rfl, rfl, Or.inl ⟨rfl, rfl, rfl⟩⟩

theorem committed_commit (cls : ObjectClass S) {incarnation : ℕ}
    (hincarnation : m.Increasing incarnation) :
    Committed cls m (m.commit cls incarnation).1 (m.commit cls incarnation).2 := by
  obtain ⟨count, heq⟩ := updateCommitCount_eq hincarnation
  have hobsolete {m' : MasterCM S} {sent : Option VersionData}
      (h : Committed cls { m with commitCount := count } m' sent) :
      Committed cls m m'.obsolete sent :=
    ⟨fun hkept => (h.kept ⟨hkept.datas, hkept.nodes, hkept.nodup, hkept.limit⟩).obsolete,
      h.slaveData, h.slaves, h.limit, h.version⟩
  simp only [commit, heq]
  cases hclass : cls.changeType with
  | full => exact hobsolete (committed_full cls _)
  | delta => exact hobsolete (committed_delta hclass)

structure Reslaved (m m' : MasterCM S) : Prop where
  version : m'.version = m.version
  history : m'.history = m.history
  datas : m'.instanceDatas = m.instanceDatas
  nodes : m.slaves.Nodup → (∀ n, n ∈ m.slaves ↔ n ∈ m.slaveData.map SlaveData.node) →
    ∀ n, n ∈ m'.slaves ↔ n ∈ m'.slaveData.map SlaveData.node
  nodup : m.slaves.Nodup → m'.slaves.Nodup
  limit : m.maxVersion = minLimit m.slaveData → m'.maxVersion = minLimit m'.slaveData

theorem Kept.of_reslaved (h : m.Kept cls) (hm : Reslaved m m') : m'.Kept cls := by
  refine ⟨?_, hm.nodes h.nodup h.nodes, hm.nodup h.nodup, hm.limit h.limit⟩
  rw [hm.version, hm.history, hm.datas]
  exact h.datas

theorem reslaved_addSlave (m : MasterCM S) (command : MasterCommand) :
    Reslaved m (m.addSlave command) := by
  refine ⟨rfl, rfl, rfl, fun _ h n => ?_, fun _ => nodup_usort _, fun _ => rfl⟩
  change n ∈ usort (m.slaves ++ [command.node]) ↔ n ∈ (m.slaveData ++ [_]).map SlaveData.node
  rw [mem_usort, List.mem_append, h, List.map_append, List.mem_append, List.map_singleton]

theorem reslaved_removeSlave (m : MasterCM S) (node instanceID : ℕ) :
    Reslaved m (m.removeSlave node instanceID) := by
  unfold removeSlave
  split_ifs
  · exact ⟨rfl, rfl, rfl, fun _ _ _ => mem_usort, fun _ => nodup_usort _, fun _ => rfl⟩
  · exact ⟨rfl, rfl, rfl, fun _ => id, id, id⟩

theorem reslaved_removeSlaves (m : MasterCM S) (node : ℕ) : Reslaved m (m.removeSlaves node) := by
  unfold removeSlaves
  split_ifs
  · refine ⟨rfl, rfl, rfl, fun hnodup h n => ?_, fun hnodup => hnodup.erase node, fun _ => rfl⟩
    change n ∈ m.slaves.erase node ↔
      n ∈ (m.slaveData.filter (fun d => d.node ≠ node)).map SlaveData.node
    rw [hnodup.mem_erase_iff, h, List.mem_map, List.mem_map]
    constructor
    · rintro ⟨hne, d, hd, rfl⟩
      exact ⟨d, List.mem_filter.2 ⟨hd, by simpa using hne⟩, rfl⟩
    · rintro ⟨d, hd, rfl⟩
      obtain ⟨hd, hne⟩ := List.mem_filter.1 hd
      exact ⟨by simpa using hne, d, hd, rfl⟩
  · exact ⟨rfl, rfl, rfl, fun _ => id, id, id⟩

theorem map_node_setLimit (node instanceID version : ℕ) (slaves : List SlaveData) :
    (setLimit node instanceID version slaves).map SlaveData.node = slaves.map SlaveData.node := by
  induction slaves with
  | nil => rfl
  | cons d slaves ih =>
      unfold setLimit
      split_ifs
      · rfl
      · rw [List.map_cons, List.map_cons, ih]

theorem reslaved_cmdMaxVersion (m : MasterCM S) (node instanceID version : ℕ) :
    Reslaved m (m.cmdMaxVersion node instanceID version) := by
  unfold cmdMaxVersion
  split_ifs
  · refine ⟨rfl, rfl, rfl, fun _ h n => ?_, id, fun _ => rfl⟩
    change n ∈ m.slaves ↔ n ∈ (setLimit node instanceID version m.slaveData).map SlaveData.node
    rw [map_node_setLimit, h]
  · exact ⟨rfl, rfl, rfl, fun _ => id, id, id⟩

def instancesOf (m : MasterCM S) (n : ℕ) : List ℕ :=
  (m.slaveData.filter (fun d => d.node = n)).map SlaveData.instanceID

theorem instancesOf_addSlave (m : MasterCM S) (command : MasterCommand) (n : ℕ) :
    (m.addSlave command).instancesOf n =
      m.instancesOf n ++ if command.node = n then [command.instanceID] else [] := by
  change ((m.slaveData ++ [_]).filter _).map _ = _
  rw [List.filter_append, List.map_append, List.filter_singleton]
  by_cases hn : command.node = n <;> simp [hn, instancesOf]

theorem instancesOf_eraseP (slaves : List SlaveData) (node instanceID n : ℕ) :
    ((slaves.eraseP (fun d => d.node = node ∧ d.instanceID = instanceID)).filter
        (fun d => d.node = n)).map SlaveData.instanceID =
      if n = node then
        ((slaves.filter (fun d => d.node = n)).map SlaveData.instanceID).erase instanceID
      else (slaves.filter (fun d => d.node = n)).map SlaveData.instanceID := by
  induction slaves with
  | nil => simp
  | cons d slaves ih =>
      by_cases hd : d.node = node ∧ d.instanceID = instanceID
      · rw [List.eraseP_cons_of_pos (by simpa using hd)]
        split_ifs with hn
        · rw [List.filter_cons_of_pos (by simp [hd.1, hn]), List.map_cons, hd.2,
            List.erase_cons_head]
        · rw [List.filter_cons_of_neg (by simp [hd.1, Ne.symm hn])]
      · rw [List.eraseP_cons_of_neg (by simpa using hd)]
        by_cases hdn : d.node = n
        · rw [List.filter_cons_of_pos (by simpa using hdn), List.map_cons, ih,
            List.filter_cons_of_pos (by simpa using hdn), List.map_cons]
          split_ifs with hn
          · have hne : d.instanceID ≠ instanceID := fun he => hd ⟨hdn.trans hn, he⟩
            rw [List.erase_cons_tail (by simpa using hne)]
          · rfl
        · rw [List.filter_cons_of_neg (by simpa using hdn), ih,
            List.filter_cons_of_neg (by simpa using hdn)]

theorem instancesOf_removeSlave (m : MasterCM S) (node instanceID n : ℕ) :
    (m.removeSlave node instanceID).instancesOf n =
      if n = node then (m.instancesOf n).erase instanceID else m.instancesOf n := by
  unfold removeSlave
  split_ifs with hany hn hn
  · rw [instancesOf, instancesOf]
    exact (instancesOf_eraseP m.slaveData node instanceID n).trans (if_pos hn)
  · rw [instancesOf, instancesOf]
    exact (instancesOf_eraseP m.slaveData node instanceID n).trans (if_neg hn)
  · rw [List.erase_of_not_mem]
    intro hmem
    obtain ⟨d, hd, hid⟩ := List.mem_map.1 hmem
    obtain ⟨hd, hdn⟩ := List.mem_filter.1 hd
    exact hany (List.any_eq_true.2 ⟨d, hd, by simpa [hid, hn] using hdn⟩)
  · rfl

theorem instancesOf_removeSlaves (hm : m.Kept cls) (node n : ℕ) :
    (m.removeSlaves node).instancesOf n = if n = node then [] else m.instancesOf n := by
  have hnone : node ∉ m.slaves → m.instancesOf node = [] := by
    intro hnode
    rw [hm.nodes] at hnode
    rw [instancesOf, List.map_eq_nil_iff, List.filter_eq_nil_iff]
    intro d hd hdn
    exact hnode (List.mem_map.2 ⟨d, hd, by simpa using hdn⟩)
  unfold removeSlaves
  split_ifs with hnode hn hn
  · change ((m.slaveData.filter (fun d => d.node ≠ node)).filter (fun d => d.node = n)).map _ = []
    rw [List.filter_filter, List.map_eq_nil_iff, List.filter_eq_nil_iff]
    intro d _
    simp [hn]
  · change ((m.slaveData.filter (fun d => d.node ≠ node)).filter (fun d => d.node = n)).map _ = _
    rw [List.filter_filter, instancesOf]
    congr 1
    refine List.filter_congr (fun d _ => ?_)
    by_cases hdn : d.node = n
    · simp [hdn, hn]
    · simp [hdn]
  · rw [hn]
    exact hnone hnode
  · rfl

theorem instancesOf_cmdMaxVersion (m : MasterCM S) (node instanceID version n : ℕ) :
    (m.cmdMaxVersion node instanceID version).instancesOf n = m.instancesOf n := by
  unfold cmdMaxVersion
  split_ifs
  · change ((setLimit node instanceID version m.slaveData).filter _).map _ = _
    unfold instancesOf
    induction m.slaveData with
    | nil => rfl
    | cons d slaves ih =>
        unfold setLimit
        split_ifs
        · simp [List.filter_cons]
          split_ifs <;> rfl
        · rw [List.filter_cons, List.filter_cons]
          split_ifs
          · rw [List.map_cons, List.map_cons, ih]
          · exact ih
  · rfl

end MasterCM

end Collage.Object
