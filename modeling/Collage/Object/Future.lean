import Collage.Object.Replicas

/-!
# Mapping a version that there is not yet

The master answers a request for a version behind its head without data. The application thread of
the slave then waits in `applyMapData` until a commit with this version arrives, and applies its data
as instance data, which it is for the change type `INSTANCE`.
-/

namespace Collage.Object

variable {S : Type} {cls : ObjectClass S} {groups : ℕ → Option ℕ} {w : World S} {n : ℕ}

theorem MasterCM.Kept.replyVersion_of_lt {m : MasterCM S} (h : m.Kept cls) {v : ℕ}
    (hlt : m.version < v) (hold : v ≠ versionOldest) : m.replyVersion v = v := by
  obtain ⟨oldest, counts, hretains⟩ := h.retains
  have hlast := hretains.last
  have hnone : v ≠ versionNone := (Nat.zero_lt_of_lt hlt).ne'
  rw [replyVersion, if_neg hnone, startVersion, hretains.oldest_eq, if_neg]
  push Not
  exact ⟨hold, by omega⟩

theorem VersionData.Right.hasInstanceData {history : ℕ → S} {is : VersionData}
    (hclass : cls.changeType = .full) (h : is.Right cls history) : is.hasInstanceData = true := by
  by_contra hdelta
  rw [Right, if_neg hdelta, hclass] at h
  cases h.1

namespace Slave.Applied

variable {s : Slave S} {taken : List VersionData} {first last r : ℕ}

theorem task_of_version_lt (h : s.Applied cls taken) (hpos : versionFirst ≤ first)
    (hle : first ≤ last + 1)
    (hversions : s.received.map VersionData.version = interval id first last)
    (hr : s.reply = some r) (hlt : last < r) : s.task = .applying r ∧ s.version = versionNone := by
  obtain ⟨c, -, hc, htaken, -⟩ := h.exists_applied_versions hpos hle hversions
  have hnot : ¬ s.task.Mapped := by
    intro hm
    obtain ⟨r', hr', hran⟩ := h.mapped hm
    obtain rfl : r = r' := Option.some.inj (hr.symm.trans hr')
    obtain ⟨rfl, hle⟩ := hran.version_eq hpos htaken
    omega
  by_cases happlying : ∃ r', s.task = .applying r'
  · obtain ⟨r', htask⟩ := happlying
    obtain ⟨hr', hversion, -⟩ := h.applying r' htask
    obtain rfl : r = r' := Option.some.inj (hr.symm.trans hr')
    exact ⟨htask, hversion⟩
  · refine absurd ⟨fun htask => ?_, fun r' htask => happlying ⟨r', htask⟩⟩ hnot
    have hnone := (h.mapping htask).2.2
    rw [hr] at hnone
    cases hnone

/-- A slave that waits for a version it has received finds it in the queue, before the later ones. -/
theorem exists_awaited (h : s.Applied cls taken) (hpos : versionFirst ≤ first)
    (hle : first ≤ last + 1)
    (hversions : s.received.map VersionData.version = interval id first last)
    (htask : s.task = .applying r) (hfirst : first ≤ r) (hlast : r ≤ last) :
    ∃ skipped is queue, s.queue = skipped ++ is :: queue ∧
      (∀ other ∈ skipped, other.version ≠ r) ∧ is.version = r ∧
      queue.map VersionData.version = interval id (r + 1) last := by
  obtain ⟨c, -, hcl, htaken, hqueue⟩ := h.exists_applied_versions hpos hle hversions
  have hc : c < r := by
    by_contra hge
    have hmem : r ∈ taken.map VersionData.version := by
      rw [htaken]
      exact mem_interval.2 ⟨r, hfirst, not_lt.1 hge, rfl⟩
    obtain ⟨is, his, hversion⟩ := List.mem_map.1 hmem
    exact (h.applying r htask).2.2 is his hversion
  rw [← interval_append (show c + 1 ≤ r - 1 + 1 by omega) (show r - 1 ≤ last by omega),
    Nat.sub_add_cancel (by omega), interval_cons hlast] at hqueue
  obtain ⟨skipped, rest, hparts, hskipped, hrest⟩ := List.map_eq_append_iff.1 hqueue
  obtain ⟨is, queue, rfl, his, hlater⟩ := List.map_eq_cons_iff.1 hrest
  refine ⟨skipped, is, queue, hparts, fun other hother heq => ?_, his, hlater⟩
  have hmem : other.version ∈ skipped.map VersionData.version := List.mem_map_of_mem hother
  rw [hskipped, heq] at hmem
  obtain ⟨v, -, hv, hrv⟩ := mem_interval.1 hmem
  rw [id_eq] at hrv
  omega

end Slave.Applied

namespace World

theorem step_applying (cls : ObjectClass S) (groups : ℕ → Option ℕ) {i r : ℕ} {s : Slave S}
    (hs : (w.nodes n).find i = some s) (htask : s.task = .applying r) {is : VersionData}
    {queue : List VersionData} (hqueue : s.queue = is :: queue) :
    ∃ w', w.step cls groups (.advance n i) = some w' ∧ w'.master = w.master ∧
      (w'.nodes n).find i = some (s.applyMapData cls r is queue) := by
  have hadvance : s.advance cls = some (s.applyMapData cls r is queue, none) := by
    simp only [Slave.advance, htask, hqueue]
  have hid : (s.applyMapData cls r is queue).instanceID = s.instanceID :=
    congrArg Attached.instanceID (s.log_applyMapData cls r is queue)
  have hkey : s.instanceID = i := Keyed.key_of_lookup hs
  refine ⟨w.setSlave n (s.applyMapData cls r is queue) [], ?_, rfl, ?_⟩
  · simp only [World.step, hs, hadvance]
    rfl
  · simp only [setSlave, Function.update_self, Node.find, Node.set, hid, hkey]
    exact Keyed.lookup_update_self (fun _ _ => hid.trans hkey) hs

theorem run_applying (cls : ObjectClass S) (groups : ℕ → Option ℕ) {i r : ℕ} {s : Slave S}
    (hs : (w.nodes n).find i = some s) (htask : s.task = .applying r)
    {skipped queue : List VersionData} {is : VersionData}
    (hqueue : s.queue = skipped ++ is :: queue) (hskipped : ∀ other ∈ skipped, other.version ≠ r)
    (his : is.version = r) :
    ∃ w' s', Machine.run (World.step cls groups) w
        (List.replicate (skipped.length + 1) (.advance n i)) = some w' ∧
      w'.master = w.master ∧ (w'.nodes n).find i = some s' ∧ s'.task = .idle ∧ s'.version = r ∧
      s'.state = is.mapOn cls s.state ∧ s'.queue = queue := by
  induction skipped generalizing w s with
  | nil =>
      obtain ⟨w', hstep, hmaster, hfind⟩ := step_applying cls groups hs htask hqueue
      rw [Slave.applyMapData, if_pos his] at hfind
      refine ⟨w', _, ?_, hmaster, hfind, rfl, rfl, rfl, rfl⟩
      exact (Machine.run_cons_eq_some _).2 ⟨w', hstep, rfl⟩
  | cons other skipped ih =>
      obtain ⟨w₁, hstep, hmaster₁, hfind⟩ := step_applying cls groups hs htask hqueue
      rw [Slave.applyMapData, if_neg (hskipped other List.mem_cons_self)] at hfind
      obtain ⟨w', s', hrun, hmaster, hs'⟩ := ih hfind htask rfl
        (fun other hother => hskipped other (List.mem_cons_of_mem _ hother))
      refine ⟨w', s', ?_, hmaster.trans hmaster₁, hs'⟩
      rw [List.length_cons, List.replicate_succ]
      exact (Machine.run_cons_eq_some _).2 ⟨w₁, hstep, hrun⟩

variable {w' : World S} {e : Event S}

theorem master_step (hconsistent : w.Consistent e) (h : w.step cls groups e = some w') :
    (w'.master.version = w.master.version ∧ w'.master.history = w.master.history) ∨
    ∃ index incarnation, e = .commit index incarnation ∧ index < w.waited.length ∧
      w'.master = (w.master.commit cls incarnation).1 := by
  cases e with
  | modify state =>
      obtain rfl := Option.some.inj h
      exact Or.inl ⟨rfl, rfl⟩
  | wait =>
      simp only [World.step] at h
      split_ifs at h
      obtain rfl := Option.some.inj h
      exact Or.inl ⟨rfl, rfl⟩
  | commit index incarnation =>
      simp only [World.step] at h
      split_ifs at h with hindex
      obtain rfl := Option.some.inj h
      exact Or.inr ⟨index, incarnation, rfl, hindex, rfl⟩
  | commitClean incarnation =>
      simp only [World.step] at h
      split_ifs at h
      obtain rfl := Option.some.inj h
      obtain ⟨count, heq⟩ := MasterCM.updateCommitCount_eq hconsistent
      simp only [MasterCM.commitClean, heq]
      exact Or.inl ⟨rfl, rfl⟩
  | setAutoObsolete count =>
      obtain rfl := Option.some.inj h
      exact Or.inl ⟨rfl, rfl⟩
  | map node state maxVersions version =>
      obtain rfl := Option.some.inj h
      exact Or.inl ⟨rfl, rfl⟩
  | unmap node instanceID =>
      simp only [World.step] at h
      split at h
      · cases h
      · split_ifs at h
        obtain rfl := Option.some.inj h
        exact Or.inl ⟨rfl, rfl⟩
  | serve node =>
      simp only [World.step] at h
      split at h
      · cases h
      · next request rest hup =>
        obtain rfl := Option.some.inj h
        cases request with
        | map command => exact Or.inl ⟨rfl, rfl⟩
        | unsubscribe instanceID =>
            have hslaves := MasterCM.reslaved_removeSlave w.master node instanceID
            exact Or.inl ⟨hslaves.version, hslaves.history⟩
        | maxVersion instanceID version =>
            have hslaves := MasterCM.reslaved_cmdMaxVersion w.master node instanceID version
            exact Or.inl ⟨hslaves.version, hslaves.history⟩
  | deliver node index =>
      simp only [World.step, deliver] at h
      split at h
      · cases h
      · split_ifs at h
        obtain rfl := Option.some.inj h
        exact Or.inl ⟨rfl, rfl⟩
  | sync node instanceID version =>
      simp only [World.step] at h
      split at h
      · cases h
      · split_ifs at h
        obtain rfl := Option.some.inj h
        exact Or.inl ⟨rfl, rfl⟩
  | advance node instanceID =>
      simp only [World.step] at h
      split at h
      · cases h
      · split at h
        · cases h
        · obtain rfl := Option.some.inj h
          exact Or.inl ⟨rfl, rfl⟩
  | disconnect node =>
      obtain rfl := Option.some.inj h
      have hslaves := MasterCM.reslaved_removeSlaves w.master node
      exact Or.inl ⟨hslaves.version, hslaves.history⟩

/-- The instance data of each committed version has content. -/
def Written (cls : ObjectClass S) (w : World S) : Prop :=
  versionFirst ≤ w.master.version ∧ ∀ v, versionFirst < v → v ≤ w.master.version →
    cls.getInstanceData (w.master.history v) ≠ []

theorem getInstanceData_commit (hclass : cls.changeType = .full) {m : MasterCM S} {incarnation : ℕ}
    (hincarnation : m.Increasing incarnation)
    (hnext : (m.commit cls incarnation).1.version = m.version + 1) :
    cls.getInstanceData m.state ≠ [] := by
  intro hnil
  obtain ⟨count, heq⟩ := MasterCM.updateCommitCount_eq hincarnation
  have hsame : (m.commit cls incarnation).1.version = m.version := by
    simp [MasterCM.commit, heq, hclass, MasterCM.commitFull, hnil, MasterCM.obsolete]
  omega

theorem Written.step (hclass : cls.changeType = .full) (h : w.Written cls)
    (hconsistent : w.Consistent e) (hstep : w.step cls groups e = some w') : w'.Written cls := by
  obtain ⟨hversion, hhistory⟩ | ⟨index, incarnation, rfl, -, hmaster⟩ := master_step hconsistent hstep
  · unfold Written
    rw [hversion, hhistory]
    exact h
  · have hc := MasterCM.committed_commit cls hconsistent
    unfold Written
    rw [hmaster]
    obtain ⟨hversion, hhistory, -⟩ | ⟨hversion, hhistory, -⟩ := hc.version
    · rw [hversion, hhistory]
      exact h
    · have hdata := getInstanceData_commit hclass hconsistent hversion
      rw [hversion, hhistory]
      refine ⟨h.1.trans (Nat.le_succ _), fun v hfirst hle => ?_⟩
      rcases Nat.lt_or_eq_of_le hle with hlt | rfl
      · rw [Function.update_of_ne (by omega)]
        exact h.2 v hfirst (by omega)
      · rw [Function.update_self]
        exact hdata

theorem written_start (cls : ObjectClass S) (s : S) (instanceID : ℕ) :
    (start cls s instanceID).Written cls :=
  ⟨le_rfl, fun _ hlt hle => absurd hle (not_le.2 hlt)⟩

end World

section Future

variable {s : S} {instanceID : ℕ} {es : List (Event S)}

/-- For an object with the change type `INSTANCE`: the map reply to a request for a later version
carries this version, the application thread of a slave waits for the version of its map reply until
the master has committed it and its data has arrived, and goes on from there, in the states of the
master. -/
theorem map_future (hcls : cls.Lawful) (hclass : cls.changeType = .full)
    (hok : Machine.Steps (World.step cls groups) (World.InOrder cls groups)
      (World.start cls s instanceID) es)
    (hrun : Machine.run (World.step cls groups) (World.start cls s instanceID) es = some w) :
    (∀ v, w.master.version < v → v ≠ versionOldest →
      w.master.replyVersion v = v ∧ versionFirst < v) ∧
    ∀ slave ∈ (w.nodes n).slaves, ∀ r, slave.reply = some r → versionFirst < r →
      (w.master.version < r → slave.task = .applying r ∧ slave.version = versionNone) ∧
      (slave.task.Mapped → r ≤ slave.version ∧
        slave.state = w.master.history slave.version ∧
        ∃ last, slave.queue.map VersionData.version = interval id (slave.version + 1) last ∧
          (w.down n = [] → last = w.master.version)) ∧
      (slave.task = .applying r → r ≤ w.master.version → w.down n = [] →
        ∃ k w' slave', Machine.run (World.step cls groups) w
            (List.replicate k (.advance n slave.instanceID)) = some w' ∧
          (w'.nodes n).find slave.instanceID = some slave' ∧ slave'.task = .idle ∧
          slave'.version = r ∧ slave'.state = w'.master.history r ∧
          slave'.queue.map VersionData.version = interval id (r + 1) w'.master.version) := by
  have hlinked := World.linked_run hok hrun
  have happlied : w.Applied cls := Machine.run_invariant (World.Applied cls)
    (fun _ _ _ h _ hstep => h.step hstep) (World.applied_start cls s instanceID) hok hrun
  have hwritten : w.Written cls := Machine.run_invariant (World.Written cls)
    (fun _ _ _ h hok hstep => h.step hclass hok.1 hstep)
      (World.written_start cls s instanceID) hok hrun
  refine ⟨fun v hlt hold => ⟨hlinked.kept.replyVersion_of_lt hlt hold, hwritten.1.trans_lt hlt⟩,
    fun slave hslave r hr hbehind => ?_⟩
  obtain ⟨taken, htaken⟩ := happlied n slave hslave
  obtain ⟨first, last, blank, hfed, hall⟩ := (hlinked.nodes n).fed hslave
  obtain ⟨rfl, hfirst⟩ := hfed.first_le_reply hr (Nat.zero_lt_of_lt hbehind).ne'
  have hversions : slave.received.map VersionData.version = interval id first last := hfed.versions
  have hright : ∀ is ∈ slave.received, is.Right cls w.master.history :=
    fun is his => hfed.right_of_versioned his
  have hsub : ∀ is ∈ taken, is ∈ slave.received := by
    intro is his
    rw [htaken.received]
    exact List.mem_append_left _ his
  obtain ⟨c, hcfirst, hclast, htakenVersions, hqueueVersions⟩ :=
    htaken.exists_applied_versions hfed.pos hfed.first_le hversions
  have hmapped (hm : slave.task.Mapped) : r ≤ slave.version ∧ slave.version = c ∧
      slave.state = w.master.history slave.version := by
    obtain ⟨r', hr', hran⟩ := htaken.mapped hm
    obtain rfl : r = r' := Option.some.inj (hr.symm.trans hr')
    obtain ⟨hversion, hle⟩ := hran.version_eq hfed.pos htakenVersions
    have hdata := hwritten.2 r hbehind (by
      have hlast := hfed.last_le
      omega)
    exact ⟨hle, hversion, hran.state_eq hcls hdata hfed.pos htakenVersions
      (fun is his => hright is (hsub is his))
      (fun is his _ => (hright is (hsub is his)).hasInstanceData hclass)⟩
  refine ⟨fun hlt => ?_, fun hm => ?_, fun htask hle hdown => ?_⟩
  · exact htaken.task_of_version_lt hfed.pos hfed.first_le hversions hr (hfed.last_le.trans_lt hlt)
  · obtain ⟨hle, rfl, hstate⟩ := hmapped hm
    refine ⟨hle, hstate, last, hqueueVersions, fun hdown => (hall ?_).1⟩
    rw [hdown, List.map_nil]
  · obtain ⟨rfl, -⟩ := hall (by rw [hdown, List.map_nil])
    obtain ⟨skipped, is, queue, hqueue, hskipped, his, hlater⟩ :=
      htaken.exists_awaited hfed.pos hfed.first_le hversions htask hfirst hle
    have hfind : (w.nodes n).find slave.instanceID = some slave :=
      Keyed.lookup_of_mem (hlinked.nodes n).nodup_slaves hslave
    obtain ⟨w', slave', hrun', hmaster, hfind', htask', hversion', hstate', rfl⟩ :=
      World.run_applying cls groups hfind htask hqueue hskipped his
    have hmem : is ∈ slave.received := by
      rw [htaken.received, hqueue]
      simp
    have hinstance := (hright is hmem).hasInstanceData hclass
    have hcopy := hright is hmem
    rw [VersionData.Right, if_pos hinstance] at hcopy
    refine ⟨_, w', slave', hrun', hfind', htask', hversion', ?_, hmaster.symm ▸ hlater⟩
    rw [hstate', VersionData.mapOn, hcopy, his, if_pos (hwritten.2 r hbehind hle), hcls.instanceData,
      hmaster]

/-- Version 3 is mapped at version 1. -/
theorem map_future_two_ahead : ∃ w,
    Machine.run (World.step (ObjectClass.byte .full) (fun _ => none))
        (World.start (ObjectClass.byte .full) 3 0)
        [.map 1 0 5 3, .serve 1, .modify 5, .wait, .commit 0 commitNext, .modify 6, .wait,
          .commit 0 commitNext, .deliver 1 0, .deliver 1 0, .deliver 1 0, .deliver 1 0] = some w ∧
      ∃ slave ∈ (w.nodes 1).slaves, ∃ k w' slave',
        Machine.run (World.step (ObjectClass.byte .full) (fun _ => none)) w
            (List.replicate k (.advance 1 slave.instanceID)) = some w' ∧
          (w'.nodes 1).find slave.instanceID = some slave' ∧ slave'.task = .idle ∧
          slave'.version = 3 ∧ slave'.state = w'.master.history 3 ∧
          slave'.queue.map VersionData.version = interval id 4 w'.master.version := by
  have h : (Machine.run (World.step (ObjectClass.byte .full) (fun _ => none))
      (World.start (ObjectClass.byte .full) 3 0)
      [.map 1 0 5 3, .serve 1, .modify 5, .wait, .commit 0 commitNext, .modify 6, .wait,
        .commit 0 commitNext, .deliver 1 0, .deliver 1 0, .deliver 1 0, .deliver 1 0]).map
        (fun w => decide ((w.nodes 1).slaves.map (fun s => (s.reply, s.task)) =
          [(some 3, .applying 3)] ∧ w.master.version = 3 ∧ w.down 1 = [])) = some true := by
    decide +kernel
  obtain ⟨w, hrun, hw⟩ := Option.map_eq_some_iff.1 h
  obtain ⟨hslaves, hversion, hdown⟩ := of_decide_eq_true hw
  obtain ⟨slave, rest, hslaves, hpair, -⟩ := List.map_eq_cons_iff.1 hslaves
  obtain ⟨hreply, htask⟩ := Prod.mk.inj hpair
  have hmem : slave ∈ (w.nodes 1).slaves := hslaves ▸ List.mem_cons_self
  have hsteps : Machine.Steps (World.step (ObjectClass.byte .full) (fun _ => none))
      (fun w e => w.Consistent e ∧ World.Oldest e) (World.start (ObjectClass.byte .full) 3 0)
      [.map 1 0 5 3, .serve 1, .modify 5, .wait, .commit 0 commitNext, .modify 6, .wait,
        .commit 0 commitNext, .deliver 1 0, .deliver 1 0, .deliver 1 0, .deliver 1 0] := by
    decide +kernel
  obtain ⟨-, hmap⟩ := map_future (n := 1) (ObjectClass.lawful_byte .full) rfl
    (hsteps.mono (fun _ _ h => ⟨h.1, h.2, fun _ _ _ => World.covered_of_full rfl⟩)) hrun
  obtain ⟨-, -, hlater⟩ := hmap slave hmem 3 hreply (by decide)
  exact ⟨w, hrun, slave, hmem, hlater htask hversion.ge hdown⟩

/-- The same request for a delta object: the change is taken for instance data. -/
theorem map_future_delta : ∃ w,
    Machine.run (World.step (ObjectClass.byte .delta) (fun _ => none))
        (World.start (ObjectClass.byte .delta) 3 0)
        [.map 1 0 1 2, .serve 1, .modify 5, .wait, .commit 0 commitNext, .deliver 1 0,
          .deliver 1 0, .deliver 1 0, .advance 1 0] = some w ∧
      w.master.version = 2 ∧ w.master.history 2 = 5 ∧
      (w.nodes 1).slaves.map (fun s => (s.task, s.version, s.state, s.failed)) =
        [(.idle, 2, 2, [.mappedInstance])] := by
  have h : (Machine.run (World.step (ObjectClass.byte .delta) (fun _ => none))
      (World.start (ObjectClass.byte .delta) 3 0)
      [.map 1 0 1 2, .serve 1, .modify 5, .wait, .commit 0 commitNext, .deliver 1 0,
        .deliver 1 0, .deliver 1 0, .advance 1 0]).map (fun w => decide (w.master.version = 2 ∧
          w.master.history 2 = 5 ∧
          (w.nodes 1).slaves.map (fun s => (s.task, s.version, s.state, s.failed)) =
            [(.idle, 2, 2, [.mappedInstance])])) = some true := by
    decide +kernel
  obtain ⟨w, hrun, hw⟩ := Option.map_eq_some_iff.1 h
  exact ⟨w, hrun, of_decide_eq_true hw⟩

end Future

end Collage.Object
