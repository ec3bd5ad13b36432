import Mathlib.Order.Bounds.Basic
import Collage.Object.InOrder

/-!
# The slaves a master knows

The calls on a master: commits and the settings of its application, and the requests of its slaves.
The nodes of the slaves are kept beside the slaves themselves, and so is the lowest of their limits;
each call that changes the slaves maintains both in its own way. The limits are of 64 bits, and the
master and its slaves do not wrap them at the same place.
-/

namespace Collage.Object

variable {S : Type}

inductive Call (S : Type)
  /-- `commit` of an object in some state, from the lock on. -/
  | commit (state : S) (incarnation : ℕ)
  | setAutoObsolete (count : ℕ)
  | addSlave (command : MasterCommand)
  | removeSlave (node instanceID : ℕ)
  | removeSlaves (node : ℕ)
  | cmdMaxVersion (node instanceID version : ℕ)

namespace MasterCM

variable (cls : ObjectClass S) (m : MasterCM S)

/-- `commit` of an object that may be dirty. -/
def commitObject (state : S) (incarnation : ℕ) : MasterCM S :=
  if cls.isDirty (m.history m.version) state then
    ({ m with state := state }.commit cls incarnation).1
  else { m with state := state }.commitClean incarnation

def call : Call S → MasterCM S
  | .commit state incarnation => m.commitObject cls state incarnation
  | .setAutoObsolete count => m.setAutoObsolete count
  | .addSlave command => m.addSlave command
  | .removeSlave node instanceID => m.removeSlave node instanceID
  | .removeSlaves node => m.removeSlaves node
  | .cmdMaxVersion node instanceID version => m.cmdMaxVersion node instanceID version

end MasterCM

theorem pairwise_usort (nodes : List ℕ) : (usort nodes).Pairwise (· < ·) := by
  have hsorted : (usort nodes).Pairwise (· ≤ ·) :=
    (List.pairwise_insertionSort (· ≤ ·) nodes).sublist (List.dedup_sublist _)
  exact hsorted.imp₂ (fun _ _ hle hne => lt_of_le_of_ne hle hne) (nodup_usort nodes)

theorem foldl_limit (slaves : List SlaveData) {limit : ℕ} (hlimit : limit ≤ unlimited) :
    let lowest := slaves.foldl (fun limit d =>
      if d.maxVersion ≠ unlimited ∧ d.maxVersion < limit then d.maxVersion else limit) limit
    lowest ≤ limit ∧ (∀ d ∈ slaves, lowest ≤ d.maxVersion) ∧
      (lowest = limit ∨ ∃ d ∈ slaves, d.maxVersion = lowest) := by
  induction slaves generalizing limit with
  | nil => exact ⟨le_rfl, nofun, Or.inl rfl⟩
  | cons e slaves ih =>
      simp only [List.foldl_cons]
      split_ifs with he
      · obtain ⟨hle, hall, heq⟩ := ih (he.2.le.trans hlimit)
        refine ⟨hle.trans he.2.le, fun d hd => ?_, Or.inr ?_⟩
        · rcases List.mem_cons.1 hd with rfl | hd
          · exact hle
          · exact hall d hd
        · rcases heq with heq | ⟨d, hd, heq⟩
          · exact ⟨e, List.mem_cons_self, heq.symm⟩
          · exact ⟨d, List.mem_cons_of_mem _ hd, heq⟩
      · obtain ⟨hle, hall, heq⟩ := ih hlimit
        refine ⟨hle, fun d hd => ?_, heq.imp_right ?_⟩
        · rcases List.mem_cons.1 hd with rfl | hd
          · refine hle.trans ?_
            rcases eq_or_ne d.maxVersion unlimited with hmax | hne
            · rwa [hmax]
            · exact not_lt.1 (fun hlt => he ⟨hne, hlt⟩)
          · exact hall d hd
        · rintro ⟨d, hd, heq⟩
          exact ⟨d, List.mem_cons_of_mem _ hd, heq⟩

theorem isLeast_minLimit (slaves : List SlaveData) :
    IsLeast (insert unlimited {l | ∃ d ∈ slaves, d.maxVersion = l}) (minLimit slaves) := by
  obtain ⟨hle, hall, heq⟩ := foldl_limit slaves le_rfl
  refine ⟨heq, fun l hl => ?_⟩
  rcases hl with rfl | ⟨d, hd, rfl⟩
  · exact hle
  · exact hall d hd

theorem minLimit_le {slaves : List SlaveData} {d : SlaveData} (hd : d ∈ slaves) :
    minLimit slaves ≤ d.maxVersion :=
  (isLeast_minLimit slaves).2 (Or.inr ⟨d, hd, rfl⟩)

namespace MasterCM

variable {cls : ObjectClass S} {m m' : MasterCM S}

/-- The nodes and the limit of a master are those of its slaves. -/
structure Recorded (m : MasterCM S) : Prop where
  sorted : m.slaves.Pairwise (· < ·)
  nodes : ∀ n, n ∈ m.slaves ↔ n ∈ m.slaveData.map SlaveData.node
  limit : m.maxVersion = minLimit m.slaveData

theorem Recorded.of_reslaved (h : m.Recorded) (hm : Reslaved m m')
    (hsorted : m'.slaves.Pairwise (· < ·)) : m'.Recorded :=
  ⟨hsorted, hm.nodes (h.sorted.imp (fun hlt => hlt.ne)) h.nodes, hm.limit h.limit⟩

theorem Recorded.congr (h : m.Recorded) (hdata : m'.slaveData = m.slaveData)
    (hslaves : m'.slaves = m.slaves) (hlimit : m'.maxVersion = m.maxVersion) : m'.Recorded := by
  refine ⟨?_, ?_, ?_⟩
  · rw [hslaves]
    exact h.sorted
  · rw [hslaves, hdata]
    exact h.nodes
  · rw [hlimit, hdata]
    exact h.limit

/-- A commit leaves the slaves alone, whatever its incarnation. -/
theorem slaves_updateCommitCount (m : MasterCM S) (incarnation : ℕ) :
    (m.updateCommitCount incarnation).slaveData = m.slaveData ∧
      (m.updateCommitCount incarnation).slaves = m.slaves ∧
      (m.updateCommitCount incarnation).maxVersion = m.maxVersion := by
  unfold updateCommitCount
  split_ifs
  · exact ⟨rfl, rfl, rfl⟩
  · exact ⟨rfl, rfl, rfl⟩
  · simp only
    split
    · exact ⟨rfl, rfl, rfl⟩
    · split_ifs <;> exact ⟨rfl, rfl, rfl⟩

theorem frame_updateCommitCount (m : MasterCM S) (incarnation : ℕ) :
    (m.updateCommitCount incarnation).state = m.state ∧
      (m.updateCommitCount incarnation).deltaSent = m.deltaSent := by
  unfold updateCommitCount
  split_ifs
  · exact ⟨rfl, rfl⟩
  · exact ⟨rfl, rfl⟩
  · simp only
    split
    · exact ⟨rfl, rfl⟩
    · split_ifs <;> exact ⟨rfl, rfl⟩

theorem slaves_commit (cls : ObjectClass S) (m : MasterCM S) (incarnation : ℕ) :
    (m.commit cls incarnation).1.slaveData = m.slaveData ∧
      (m.commit cls incarnation).1.slaves = m.slaves ∧
      (m.commit cls incarnation).1.maxVersion = m.maxVersion := by
  obtain ⟨hdata, hslaves, hlimit⟩ := slaves_updateCommitCount m incarnation
  have hcommitted {m' : MasterCM S} {sent : Option VersionData}
      (h : Committed cls (m.updateCommitCount incarnation) m' sent) :
      m'.obsolete.slaveData = m.slaveData ∧ m'.obsolete.slaves = m.slaves ∧
        m'.obsolete.maxVersion = m.maxVersion :=
    ⟨h.slaveData.trans hdata, h.slaves.trans hslaves, h.limit.trans hlimit⟩
  simp only [commit]
  cases hclass : cls.changeType with
  | full => exact hcommitted (committed_full cls _)
  | delta => exact hcommitted (committed_delta hclass)

theorem Recorded.commitObject (h : m.Recorded) (state : S) (incarnation : ℕ) :
    (m.commitObject cls state incarnation).Recorded := by
  unfold MasterCM.commitObject
  split_ifs
  · obtain ⟨hdata, hslaves, hlimit⟩ := slaves_commit cls { m with state := state } incarnation
    exact h.congr hdata hslaves hlimit
  · obtain ⟨hdata, hslaves, hlimit⟩ :=
      slaves_updateCommitCount { m with state := state } incarnation
    exact h.congr hdata hslaves hlimit

theorem Recorded.call (h : m.Recorded) (c : Call S) : (m.call cls c).Recorded := by
  cases c with
  | commit state incarnation => exact h.commitObject state incarnation
  | setAutoObsolete count => exact h.congr rfl rfl rfl
  | addSlave command => exact h.of_reslaved (reslaved_addSlave m command) (pairwise_usort _)
  | removeSlave node instanceID =>
      refine h.of_reslaved (reslaved_removeSlave m node instanceID) ?_
      change (m.removeSlave node instanceID).slaves.Pairwise _
      unfold MasterCM.removeSlave
      split_ifs
      · exact pairwise_usort _
      · exact h.sorted
  | removeSlaves node =>
      refine h.of_reslaved (reslaved_removeSlaves m node) ?_
      change (m.removeSlaves node).slaves.Pairwise _
      unfold MasterCM.removeSlaves
      split_ifs
      · exact h.sorted.sublist List.erase_sublist
      · exact h.sorted
  | cmdMaxVersion node instanceID version =>
      refine h.of_reslaved (reslaved_cmdMaxVersion m node instanceID version) ?_
      change (m.cmdMaxVersion node instanceID version).slaves.Pairwise _
      unfold MasterCM.cmdMaxVersion
      split_ifs
      · exact h.sorted
      · exact h.sorted

theorem recorded_init (cls : ObjectClass S) (s : S) (instanceID : ℕ) :
    (init cls s instanceID).Recorded :=
  ⟨List.Pairwise.nil, fun _ => Iff.rfl, rfl⟩

theorem recorded_calls (cls : ObjectClass S) (h : m.Recorded) (calls : List (Call S)) :
    (calls.foldl (call cls) m).Recorded := by
  induction calls generalizing m with
  | nil => exact h
  | cons c calls ih => exact ih (h.call c)

/-- After every sequence of calls the nodes are those of the slaves, in order and once each, the
limit is the lowest one, and an acknowledgement of an instance that is not mapped is ignored. -/
theorem slaves_recorded (cls : ObjectClass S) (s : S) (instanceID : ℕ) (calls : List (Call S)) :
    let m := calls.foldl (call cls) (init cls s instanceID)
    m.slaves.Pairwise (· < ·) ∧ (∀ n, n ∈ m.slaves ↔ ∃ d ∈ m.slaveData, d.node = n) ∧
      IsLeast (insert unlimited {l | ∃ d ∈ m.slaveData, d.maxVersion = l}) m.maxVersion ∧
      ∀ node slaveID version, (∀ d ∈ m.slaveData, d.node = node → d.instanceID ≠ slaveID) →
        m.cmdMaxVersion node slaveID version = m := by
  intro m
  have h : m.Recorded := recorded_calls cls (recorded_init cls s instanceID) calls
  refine ⟨h.sorted, fun n => ?_, ?_, fun node slaveID version hnone => ?_⟩
  · rw [h.nodes, List.mem_map]
  · rw [h.limit]
    exact isLeast_minLimit m.slaveData
  · refine if_neg (fun hany => ?_)
    obtain ⟨d, hd, hmatch⟩ := List.any_eq_true.1 hany
    obtain ⟨hnode, hid⟩ := of_decide_eq_true hmatch
    exact hnone d hd hnode hid

/-- The master after a slave it was asked to add has applied some versions. The slave acknowledges
each of them, unless its limit overflows. -/
def acknowledged (m : MasterCM S) (command : MasterCommand) (s : Slave S) : ℕ → MasterCM S
  | 0 => m.addSlave command
  | k + 1 =>
      match { s with version := s.version + (k + 1) }.ack with
      | none => m.acknowledged command s k
      | some limit =>
          (m.acknowledged command s k).cmdMaxVersion command.node command.instanceID limit

theorem setLimit_append (slaves : List SlaveData) {d : SlaveData} (limit : ℕ)
    (hfresh : ∀ e ∈ slaves, e.node = d.node → e.instanceID ≠ d.instanceID) :
    setLimit d.node d.instanceID limit (slaves ++ [d]) =
      slaves ++ [{ d with maxVersion := limit }] := by
  induction slaves with
  | nil => exact if_pos ⟨rfl, rfl⟩
  | cons e slaves ih =>
      have hne : ¬(e.node = d.node ∧ e.instanceID = d.instanceID) :=
        fun he => hfresh e List.mem_cons_self he.1 he.2
      rw [List.cons_append, setLimit, if_neg hne,
        ih (fun e he => hfresh e (List.mem_cons_of_mem _ he)), List.cons_append]

theorem slaveData_cmdMaxVersion {d : SlaveData} {slaves : List SlaveData} (limit : ℕ)
    (hm : m.slaveData = slaves ++ [d])
    (hfresh : ∀ e ∈ slaves, e.node = d.node → e.instanceID ≠ d.instanceID) :
    (m.cmdMaxVersion d.node d.instanceID limit).slaveData =
      slaves ++ [{ d with maxVersion := limit }] := by
  have hany : m.slaveData.any
      (fun e => e.node = d.node ∧ e.instanceID = d.instanceID) = true := by
    refine List.any_eq_true.2 ⟨d, ?_, decide_eq_true ⟨rfl, rfl⟩⟩
    rw [hm]
    exact List.mem_append_right _ List.mem_cons_self
  rw [cmdMaxVersion, if_pos hany]
  change setLimit _ _ _ m.slaveData = _
  rw [hm, setLimit_append slaves limit hfresh]

section Limits

variable {command : MasterCommand} {s : Slave S}

theorem slaveLimit_cases (m : MasterCM S) (n : ℕ) :
    (n = 0 ∧ m.slaveLimit n = unlimited) ∨
      (0 < n ∧ n < unlimited ∧ m.slaveLimit n = (n + m.version) % 2 ^ 64) ∨
      (unlimited ≤ n ∧ m.slaveLimit n = n) := by
  unfold slaveLimit
  by_cases hzero : n = 0
  · exact Or.inl ⟨hzero, if_pos hzero⟩
  · rw [if_neg hzero]
    by_cases hlt : n < unlimited
    · exact Or.inr (Or.inl ⟨Nat.pos_of_ne_zero hzero, hlt, if_pos hlt⟩)
    · exact Or.inr (Or.inr ⟨not_lt.1 hlt, if_neg hlt⟩)

theorem ack_none_iff (v : ℕ) (hv : v < 2 ^ 64) (hn : s.maxVersions < 2 ^ 64) :
    { s with version := v }.ack = none ↔ s.maxVersions = 0 ∨ 2 ^ 64 ≤ v + s.maxVersions := by
  simp only [Slave.ack, ite_eq_left_iff, reduceCtorEq, imp_false, not_not]
  omega

theorem slaveData_acknowledged (hn : command.maxVersion = s.maxVersions)
    (hmax : s.maxVersions < 2 ^ 64) (hs : s.version ≤ m.version)
    (hfresh : ∀ d ∈ m.slaveData, d.node = command.node → d.instanceID ≠ command.instanceID)
    (hsafe : s.maxVersions = 0 ∨ s.maxVersions = unlimited ∨ s.maxVersions + m.version < 2 ^ 64)
    (k : ℕ) (hk : s.version + k < 2 ^ 64) :
    ∃ limit, (m.acknowledged command s k).slaveData =
        m.slaveData ++ [⟨command.node, command.instanceID, limit⟩] ∧
      (s.maxVersions = 0 ∨ 2 ^ 64 ≤ s.version + (k + 1) + s.maxVersions → limit = unlimited) := by
  induction k with
  | zero =>
      refine ⟨m.slaveLimit s.maxVersions, ?_, fun hnext => ?_⟩
      · rw [← hn]
        rfl
      · have hcases := slaveLimit_cases m s.maxVersions
        unfold unlimited at hcases hsafe ⊢
        omega
  | succ k ih =>
      obtain ⟨limit, hdata, hlimit⟩ := ih (by omega)
      rw [acknowledged]
      split
      · rename_i hack
        refine ⟨limit, hdata, fun _ => hlimit ?_⟩
        exact (ack_none_iff _ hk hmax).1 hack
      · rename_i limit' hack
        have hsome : ¬(s.maxVersions = 0 ∨ 2 ^ 64 ≤ s.version + (k + 1) + s.maxVersions) := by
          rw [← ack_none_iff _ hk hmax, hack]
          exact nofun
        have hlimit' : s.version + (k + 1) + s.maxVersions = limit' := by
          simp only [Slave.ack, Option.ite_none_left_eq_some, Option.some.injEq] at hack
          omega
        refine ⟨limit', slaveData_cmdMaxVersion limit' hdata hfresh, fun hnext => ?_⟩
        unfold unlimited
        omega

/-- The limit of a slave is above the version of the master, and is none when the slave leaves out
its acknowledgements, if and only if neither the limit of the slave nor its sum with the version of
the master wraps. -/
theorem slaveLimit_safe_iff (m : MasterCM S) (command : MasterCommand) (s : Slave S)
    (hn : command.maxVersion = s.maxVersions) (hmax : s.maxVersions < 2 ^ 64)
    (hs : s.version ≤ m.version)
    (hfresh : ∀ d ∈ m.slaveData, d.node = command.node → d.instanceID ≠ command.instanceID) :
    (m.version + 1 ≤ m.slaveLimit command.maxVersion ∧
      ∀ k, s.version + (k + 1) < 2 ^ 64 →
        { s with version := s.version + (k + 1) }.ack = none →
        ∀ d ∈ (m.acknowledged command s (k + 1)).slaveData, d.node = command.node →
          d.instanceID = command.instanceID → ∀ v < unlimited, v + 1 ≤ d.maxVersion) ↔
      m.version < unlimited ∧
        (s.maxVersions = 0 ∨ s.maxVersions = unlimited ∨ s.maxVersions + m.version < 2 ^ 64) := by
  have hcases := slaveLimit_cases m s.maxVersions
  constructor
  · rintro ⟨hlimit, _⟩
    rw [hn] at hlimit
    unfold unlimited at hcases ⊢
    omega
  · rintro ⟨hversion, hsafe⟩
    refine ⟨?_, fun k hk hack d hd hnode hid v hv => ?_⟩
    · rw [hn]
      unfold unlimited at hcases hversion hsafe
      omega
    · obtain ⟨limit, hdata, hlimit⟩ :=
        slaveData_acknowledged hn hmax hs hfresh hsafe k (by omega)
      rw [acknowledged, hack] at hd
      change d ∈ (m.acknowledged command s k).slaveData at hd
      rw [hdata, List.mem_append, List.mem_singleton] at hd
      rcases hd with hd | rfl
      · exact absurd hid (hfresh d hd hnode)
      · rw [hlimit ((ack_none_iff _ hk hmax).1 hack)]
        exact hv

end Limits

/-- A slave with a limit of five versions. -/
theorem slaveLimit_safe_of_five :
    let m := MasterCM.init (ObjectClass.byte .full) 3 0
    let command : MasterCommand := ⟨1, 1, 0, 0, 0, 5, 0, 7, 0, false⟩
    let s := { Slave.attached 7 5 (3 : UInt8) with version := versionFirst }
    m.version + 1 ≤ m.slaveLimit command.maxVersion ∧
      ∀ k, s.version + (k + 1) < 2 ^ 64 →
        { s with version := s.version + (k + 1) }.ack = none →
        ∀ d ∈ (m.acknowledged command s (k + 1)).slaveData, d.node = command.node →
          d.instanceID = command.instanceID → ∀ v < unlimited, v + 1 ≤ d.maxVersion := by
  intro m command s
  exact (slaveLimit_safe_iff m command s rfl (by decide) le_rfl nofun).2
    ⟨by decide, Or.inr (Or.inr (by decide))⟩

/-- At version two the limit of a slave with the second to last value wraps to zero. The slave does
not acknowledge any version, so that no commit can go on. -/
theorem slaveLimit_wraps :
    let m := (MasterCM.init (ObjectClass.byte .full) 3 0).call (ObjectClass.byte .full)
      (.commit 5 commitNext)
    let command : MasterCommand := ⟨1, 2, 0, 0, 0, 2 ^ 64 - 2, 0, 7, 0, false⟩
    let s := { Slave.attached 7 (2 ^ 64 - 2) (5 : UInt8) with version := 2 }
    m.version = 2 ∧ ¬m.version + 1 ≤ m.slaveLimit command.maxVersion ∧
      (m.addSlave command).maxVersion < (m.addSlave command).version + 1 ∧
      ∀ v, 2 ≤ v → v < 2 ^ 64 → { s with version := v }.ack = none := by
  refine ⟨by decide +kernel, by decide +kernel, by decide +kernel, fun v hle hlt => ?_⟩
  refine (ack_none_iff v hlt (by decide)).2 (Or.inr ?_)
  change 2 ^ 64 ≤ v + (2 ^ 64 - 2)
  omega

end MasterCM

end Collage.Object
