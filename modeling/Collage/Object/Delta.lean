import Collage.Object.Replicas
import Collage.Object.Retention
import Collage.Stream.Resend

/-!
# The streams of a delta commit

A master of a delta object has one stream for all its changes, which it resets only when there are
slaves to send a change to. It saves the instance data of each version in a stream of its own.
Whether a commit makes a version is read from these streams, so it depends on how the application
writes its data and on what the last commit with slaves has written.
-/

namespace Collage.Object

open Collage.Stream

variable {S : Type} {cls : ObjectClass S}

/-- The writes of the application, one after the other. -/
structure Writes (cls : ObjectClass S) where
  getInstanceData : S → List Bytes
  pack : S → S → List Bytes
  flatten_getInstanceData : ∀ s, (getInstanceData s).flatten = cls.getInstanceData s
  flatten_pack : ∀ old new, (pack old new).flatten = cls.pack old new

def Writes.own (cls : ObjectClass S) : Writes cls where
  getInstanceData := cls.instanceWrites
  pack := cls.packWrites
  flatten_getInstanceData := fun _ => rfl
  flatten_pack := fun _ _ => rfl

/-- `ObjectDataOStream::reset`. -/
def resetStream (s : ObjectDataOStream) : ObjectDataOStream :=
  { DataOStream.reset s with sub := { s.sub with sequence := 0 } }

structure DeltaMasterCM (S : Type) where
  master : MasterCM S
  deltaData : ObjectDataOStream

namespace DeltaMasterCM

section Model

variable (cfg : Config) (ws : Writes cls) (d : DeltaMasterCM S)

/-- A registered object after `init`. -/
def init (cls : ObjectClass S) (s : S) (instanceID : ℕ) : DeltaMasterCM S where
  master := MasterCM.init cls s instanceID
  deltaData := ObjectDataOStream.fresh false

/-- The stream of the changes, after `pack` if there are slaves. -/
def packed : ObjectDataOStream :=
  if d.master.slaves ≠ [] then
    (resetStream d.deltaData).commit cfg true
      (ws.pack (d.master.history d.master.version) d.master.state)
  else d.deltaData

def saved : ObjectDataOStream :=
  (ObjectDataOStream.fresh true).commit cfg false (ws.getInstanceData d.master.state)

/-- `DeltaMasterCM::_commit`. -/
def commitDelta : DeltaMasterCM S :=
  let deltaData := d.packed cfg ws
  let m := { d.master with deltaSent := deltaData.dataSent }
  if d.master.slaves = [] ∨ deltaData.dataSent then
    let os := d.saved cfg ws
    if deltaData.dataSent ∨ os.dataSent then ⟨m.addVersion os.buffer, deltaData⟩
    else ⟨m, deltaData⟩
  else ⟨m, deltaData⟩

/-- `commit` of an object that may be dirty. -/
def commit (state : S) (incarnation : ℕ) : DeltaMasterCM S :=
  let m := { d.master with state := state }
  if cls.isDirty (m.history m.version) state then
    let d' := { d with master := m.updateCommitCount incarnation }.commitDelta cfg ws
    { d' with master := d'.master.obsolete }
  else { d with master := m.commitClean incarnation }

def call : Call S → DeltaMasterCM S
  | .commit state incarnation => d.commit cfg ws state incarnation
  | c => { d with master := d.master.call cls c }

end Model

variable {cfg : Config} {ws : Writes cls} {d : DeltaMasterCM S}

theorem save_disable (cfg : Config) (s : ObjectDataOStream) :
    (s.disable ObjectDataOStream.send cfg).save = s.save := by
  have hcompress (t : ObjectDataOStream) (src : Bytes) (size : ℕ) (r : CompressorState) :
      (t.compress cfg src size r).save = t.save := by
    obtain ⟨state, result, buffer, hframe⟩ := DataOStream.compress_frame cfg t src size r
    rw [hframe]
  simp only [DataOStream.disable]
  by_cases henabled : s.enabled = false
  · rw [if_pos henabled]
  · rw [if_neg henabled]
    split_ifs <;> simp only [ObjectDataOStream.send, hcompress]

theorem save_commit (cfg : Config) {s : ObjectDataOStream} (hsequence : s.sub.sequence = 0)
    (writes : List Bytes) : (s.commit cfg true writes).save = s.save :=
  (save_disable cfg _).trans (ObjectDataOStream.save_writes cfg s hsequence writes)

theorem connected_writes (cfg : Config) {s : ObjectDataOStream} (h : s.connected = false)
    (writes : List Bytes) : (s.writes cfg writes).connected = false := by
  induction writes generalizing s with
  | nil => exact h
  | cons w writes ih =>
      apply ih
      simp only [DataOStream.write]
      split_ifs
      · simp only [DataOStream.flush, h, Bool.false_eq_true, if_false, DataOStream.resetBuffer]
        split_ifs <;> rfl
      · exact h

theorem disable_unconnected (cfg : Config) {s : ObjectDataOStream} (henabled : s.enabled = true)
    (hsave : s.save = true) (hconnected : s.connected = false) :
    (s.disable ObjectDataOStream.send cfg).dataSent = decide (0 < s.buffer.length) ∧
      (s.disable ObjectDataOStream.send cfg).buffer = s.buffer := by
  simp [DataOStream.disable, henabled, hsave, hconnected]

theorem saved_eq (d : DeltaMasterCM S) (cfg : Config) (ws : Writes cls) :
    (d.saved cfg ws).dataSent = decide (cls.getInstanceData d.master.state ≠ []) ∧
      (d.saved cfg ws).buffer = cls.getInstanceData d.master.state := by
  have hsaving := (ObjectDataOStream.saving_enableCommit
    (show (ObjectDataOStream.fresh true).save = true from rfl) false).writes cfg
    (ws.getInstanceData d.master.state)
  have hconnected := connected_writes cfg
    (show ((ObjectDataOStream.fresh true).enableCommit false).connected = false from rfl)
    (ws.getInstanceData d.master.state)
  have hbuffer := hsaving.buffer.trans (ws.flatten_getInstanceData d.master.state)
  obtain ⟨hsent, hdata⟩ := disable_unconnected cfg hsaving.enabled hsaving.save hconnected
  refine ⟨hsent.trans ?_, hdata.trans hbuffer⟩
  rw [hbuffer]
  exact decide_eq_decide.2 List.length_pos_iff

theorem packed_eq (d : DeltaMasterCM S) (cfg : Config) (ws : Writes cls)
    (hsave : d.deltaData.save = false) :
    (d.packed cfg ws).save = false ∧ (d.packed cfg ws).dataSent =
      if d.master.slaves ≠ [] then
        decide (0 < pending cfg.objectBufferSize
          (ws.pack (d.master.history d.master.version) d.master.state))
      else d.deltaData.dataSent := by
  have hreset : (resetStream d.deltaData).save = false := by
    simp only [resetStream, DataOStream.reset, DataOStream.resetBuffer]
    split_ifs <;> exact hsave
  unfold packed
  split_ifs
  · exact ⟨(save_commit cfg rfl _).trans hreset,
      ObjectDataOStream.dataSent_commit_of_unsaved cfg hreset rfl _⟩
  · exact ⟨hsave, rfl⟩

/-- Its change was sent, or the last one with slaves if there are none, or if there are none and
instance data was written. -/
def Advances (cfg : Config) (ws : Writes cls) (d : DeltaMasterCM S) : Prop :=
  (d.packed cfg ws).dataSent = true ∨
    d.master.slaves = [] ∧ cls.getInstanceData d.master.state ≠ []

theorem commitDelta_of_advances (h : d.Advances cfg ws) :
    d.commitDelta cfg ws =
      ⟨{ d.master with deltaSent := (d.packed cfg ws).dataSent }.addVersion
        (cls.getInstanceData d.master.state), d.packed cfg ws⟩ := by
  obtain ⟨hsent, hbuffer⟩ := saved_eq d cfg ws
  have hsave : (d.packed cfg ws).dataSent = true ∨ (d.saved cfg ws).dataSent = true := by
    rw [hsent]
    exact h.imp_right (fun h => decide_eq_true h.2)
  simp only [commitDelta]
  rw [if_pos (h.symm.imp_left And.left), if_pos hsave, hbuffer]

theorem commitDelta_of_not_advances (h : ¬d.Advances cfg ws) :
    d.commitDelta cfg ws =
      ⟨{ d.master with deltaSent := (d.packed cfg ws).dataSent }, d.packed cfg ws⟩ := by
  obtain ⟨hsent, -⟩ := saved_eq d cfg ws
  obtain ⟨hpacked, hinstance⟩ := not_or.1 h
  simp only [commitDelta]
  by_cases hslaves : d.master.slaves = []
  · have hnone : ¬((d.packed cfg ws).dataSent = true ∨ (d.saved cfg ws).dataSent = true) := by
      rw [hsent, decide_eq_true_eq]
      exact not_or.2 ⟨hpacked, fun hdata => hinstance ⟨hslaves, hdata⟩⟩
    rw [if_pos (Or.inl hslaves), if_neg hnone]
  · rw [if_neg (not_or.2 ⟨hslaves, hpacked⟩)]

theorem commitDelta_refines (hbuffer : cfg.objectBufferSize = cls.objectBufferSize)
    (hsave : d.deltaData.save = false) (hsent : d.master.deltaSent = d.deltaData.dataSent) :
    (d.commitDelta cfg (Writes.own cls)).master = (d.master.commitDelta cls).1 := by
  have hflag : (d.packed cfg (Writes.own cls)).dataSent = if d.master.slaves ≠ [] then
      cls.packSent (d.master.history d.master.version) d.master.state
      else d.master.deltaSent := by
    rw [(packed_eq d cfg (Writes.own cls) hsave).2, hsent, hbuffer, ObjectClass.packSent,
      ObjectDataOStream.hasSentData, ObjectDataOStream.dataSent_commit_of_unsaved _ rfl rfl]
    rfl
  rw [MasterCM.commitDelta, ← hflag]
  by_cases hadvance : d.Advances cfg (Writes.own cls)
  · rw [commitDelta_of_advances hadvance]
    simp only
    rw [if_pos (hadvance.symm.imp_left And.left), if_pos (hadvance.imp_right And.right)]
  · rw [commitDelta_of_not_advances hadvance]
    obtain ⟨hpacked, hinstance⟩ := not_or.1 hadvance
    simp only
    by_cases hslaves : d.master.slaves = []
    · rw [if_pos (Or.inl hslaves),
        if_neg (not_or.2 ⟨hpacked, fun hdata => hinstance ⟨hslaves, hdata⟩⟩)]
    · rw [if_neg (not_or.2 ⟨hslaves, hpacked⟩)]

/-- The master in which a dirty commit runs `_commit`. -/
def entered (d : DeltaMasterCM S) (state : S) (incarnation : ℕ) : DeltaMasterCM S :=
  { d with master := { d.master with state := state }.updateCommitCount incarnation }

/-- The flag of the master is that of the stream, which does not save. -/
structure Mirrored (d : DeltaMasterCM S) : Prop where
  save : d.deltaData.save = false
  sent : d.master.deltaSent = d.deltaData.dataSent

theorem Mirrored.entered (h : d.Mirrored) (state : S) (incarnation : ℕ) :
    (d.entered state incarnation).Mirrored :=
  ⟨h.save, (MasterCM.frame_updateCommitCount _ incarnation).2.trans h.sent⟩

section Runs

variable (cfg) (ws : Writes cls) (s : S) (instanceID : ℕ)

theorem Mirrored.commitDelta (h : d.Mirrored) : (d.commitDelta cfg ws).Mirrored := by
  have hsave := (packed_eq d cfg ws h.save).1
  by_cases hadvance : d.Advances cfg ws
  · rw [commitDelta_of_advances hadvance]
    exact ⟨hsave, rfl⟩
  · rw [commitDelta_of_not_advances hadvance]
    exact ⟨hsave, rfl⟩

theorem Mirrored.commit (h : d.Mirrored) (state : S) (incarnation : ℕ) :
    (d.commit cfg ws state incarnation).Mirrored := by
  have hcommitted := (h.entered state incarnation).commitDelta cfg ws
  simp only [DeltaMasterCM.commit]
  split_ifs
  · exact ⟨hcommitted.save, hcommitted.sent⟩
  · exact ⟨h.save, (MasterCM.frame_updateCommitCount _ incarnation).2.trans h.sent⟩

theorem Mirrored.call (h : d.Mirrored) (c : Call S) : (d.call cfg ws c).Mirrored := by
  cases c with
  | commit state incarnation => exact h.commit cfg ws state incarnation
  | setAutoObsolete count => exact ⟨h.save, h.sent⟩
  | addSlave command => exact ⟨h.save, h.sent⟩
  | removeSlave node instanceID =>
      refine ⟨h.save, ?_⟩
      change (d.master.removeSlave node instanceID).deltaSent = _
      unfold MasterCM.removeSlave
      split_ifs <;> exact h.sent
  | removeSlaves node =>
      refine ⟨h.save, ?_⟩
      change (d.master.removeSlaves node).deltaSent = _
      unfold MasterCM.removeSlaves
      split_ifs <;> exact h.sent
  | cmdMaxVersion node instanceID version =>
      refine ⟨h.save, ?_⟩
      change (d.master.cmdMaxVersion node instanceID version).deltaSent = _
      unfold MasterCM.cmdMaxVersion
      split_ifs <;> exact h.sent

theorem mirrored_calls (calls : List (Call S)) :
    (calls.foldl (call cfg ws) (init cls s instanceID)).Mirrored := by
  suffices hall : ∀ d : DeltaMasterCM S, d.Mirrored → (calls.foldl (call cfg ws) d).Mirrored from
    hall _ ⟨rfl, rfl⟩
  induction calls with
  | nil => exact fun _ h => h
  | cons c calls ih => exact fun d h => ih _ (h.call cfg ws c)

/-- A commit has written data for its slaves, or instance data if there are none. -/
def Wrote (cls : ObjectClass S) (m : MasterCM S) : Prop :=
  if m.slaves ≠ [] then cls.pack (m.history m.version) m.state ≠ []
  else cls.getInstanceData m.state ≠ []

theorem commit_dirty {state : S} (incarnation : ℕ)
    (hdirty : cls.isDirty (d.master.history d.master.version) state = true) :
    let m := (d.entered state incarnation).master
    let m' := (d.commit cfg ws state incarnation).master
    ((d.entered state incarnation).Advances cfg ws → m'.version = m.version + 1 ∧
      m'.instanceDatas.getLast? =
        some ⟨m.version + 1, cls.getInstanceData m.state, m.commitCount⟩) ∧
    (¬(d.entered state incarnation).Advances cfg ws → m'.version = m.version) := by
  intro m m'
  have hcommit : m' = ((d.entered state incarnation).commitDelta cfg ws).master.obsolete := by
    simp only [m', commit]
    rw [if_pos hdirty]
    rfl
  constructor
  · intro hadvance
    rw [hcommit, commitDelta_of_advances hadvance]
    refine ⟨rfl, ?_⟩
    change (popObsolete _ _ _).getLast? = _
    rw [MasterCM.getLast?_popObsolete]
    exact List.getLast?_concat
  · intro hstay
    rw [hcommit, commitDelta_of_not_advances hstay]
    rfl

theorem advances_iff_wrote (hsave : d.deltaData.save = false) :
    (d.Advances cfg ws ↔ Wrote cls d.master) ↔
      (d.master.slaves ≠ [] → EndsInTime cfg.objectBufferSize
        (ws.pack (d.master.history d.master.version) d.master.state)) ∧
      (d.master.slaves = [] →
        d.deltaData.dataSent = false ∨ cls.getInstanceData d.master.state ≠ []) := by
  have hpacked := (packed_eq d cfg ws hsave).2
  unfold Advances Wrote
  by_cases hslaves : d.master.slaves = []
  · rw [if_neg (not_not.2 hslaves)] at hpacked ⊢
    rw [hpacked]
    simp only [hslaves, true_and, ne_eq, not_true_eq_false, false_imp_iff, true_imp_iff]
    cases d.deltaData.dataSent <;> simp
  · rw [if_pos hslaves] at hpacked ⊢
    rw [hpacked, decide_eq_true_eq, endsInTime_iff_pending, ws.flatten_pack]
    simp [hslaves]

/-- A dirty commit makes a version, with the instance data of this commit, if and only if it wrote
data, unless its change ends with empty writes behind a full buffer, or there are no slaves and no
instance data, but the last commit with slaves has sent a change. -/
theorem commit_version_iff (calls : List (Call S)) (state : S) (incarnation : ℕ) :
    let d := calls.foldl (call cfg ws) (init cls s instanceID)
    let m := (d.entered state incarnation).master
    let m' := (d.commit cfg ws state incarnation).master
    cls.isDirty (d.master.history d.master.version) state = true →
      ((Wrote cls m → m'.version = m.version + 1 ∧ m'.instanceDatas.getLast? =
          some ⟨m.version + 1, cls.getInstanceData state, m.commitCount⟩) ∧
        (¬Wrote cls m → m'.version = m.version) ↔
      (m.slaves ≠ [] →
        EndsInTime cfg.objectBufferSize (ws.pack (m.history m.version) state)) ∧
      (m.slaves = [] → d.deltaData.dataSent = false ∨ cls.getInstanceData state ≠ [])) := by
  intro d m m' hdirty
  have hsave : (d.entered state incarnation).deltaData.save = false :=
    (mirrored_calls cfg ws s instanceID calls).save
  have hstate : m.state = state := (MasterCM.frame_updateCommitCount _ incarnation).1
  obtain ⟨hadvance, hstay⟩ := commit_dirty cfg ws incarnation hdirty
  have hiff := advances_iff_wrote cfg ws hsave
  change (_ ↔ Wrote cls m) ↔ (m.slaves ≠ [] → EndsInTime _ (ws.pack (m.history m.version) m.state)) ∧
    (m.slaves = [] → d.deltaData.dataSent = false ∨ cls.getInstanceData m.state ≠ []) at hiff
  change (_ → m'.version = m.version + 1 ∧ m'.instanceDatas.getLast? =
    some ⟨m.version + 1, cls.getInstanceData m.state, m.commitCount⟩) at hadvance
  rw [hstate] at hiff hadvance
  rw [← hiff]
  constructor
  · rintro ⟨hwrote, hnone⟩
    constructor
    · intro hadv
      by_contra hnot
      have hsame := hnone hnot
      rw [(hadvance hadv).1] at hsame
      exact absurd hsame (Nat.succ_ne_self _)
    · intro hw
      by_contra hnot
      have hsame := hstay hnot
      rw [(hwrote hw).1] at hsame
      exact absurd hsame (Nat.succ_ne_self _)
  · intro h
    exact ⟨fun hw => hadvance (h.2 hw), fun hnot => hstay (fun hadv => hnot (h.1 hadv))⟩

end Runs

section Refinement

variable (hclass : cls.changeType = .delta) (hbuffer : cfg.objectBufferSize = cls.objectBufferSize)

include hclass hbuffer

theorem master_commit (h : d.Mirrored) (state : S) (incarnation : ℕ) :
    (d.commit cfg (Writes.own cls) state incarnation).master =
      d.master.commitObject cls state incarnation := by
  have hentered := h.entered state incarnation
  simp only [DeltaMasterCM.commit, MasterCM.commitObject]
  by_cases hdirty : cls.isDirty (d.master.history d.master.version) state = true
  · have hrefines := commitDelta_refines hbuffer hentered.save hentered.sent
    rw [if_pos hdirty, if_pos hdirty]
    simp only [MasterCM.commit, hclass]
    exact congrArg MasterCM.obsolete hrefines
  · rw [if_neg hdirty, if_neg hdirty]

theorem master_calls (s : S) (instanceID : ℕ) (calls : List (Call S)) :
    (calls.foldl (call cfg (Writes.own cls)) (init cls s instanceID)).master =
      calls.foldl (MasterCM.call cls) (MasterCM.init cls s instanceID) := by
  suffices hall : ∀ d : DeltaMasterCM S, d.Mirrored →
      (calls.foldl (call cfg (Writes.own cls)) d).master =
        calls.foldl (MasterCM.call cls) d.master from
    hall _ ⟨rfl, rfl⟩
  induction calls with
  | nil => exact fun _ _ => rfl
  | cons c calls ih =>
      intro d h
      have hmaster : (d.call cfg (Writes.own cls) c).master = d.master.call cls c := by
        cases c with
        | commit state incarnation => exact master_commit hclass hbuffer h state incarnation
        | _ => rfl
      rw [List.foldl_cons, List.foldl_cons, ih _ (h.call cfg (Writes.own cls) c), hmaster]

end Refinement

def Writes.whole (cls : ObjectClass S) : Writes cls where
  getInstanceData := fun s => [cls.getInstanceData s]
  pack := fun old new => [cls.pack old new]
  flatten_getInstanceData := fun _ => List.flatten_singleton
  flatten_pack := fun _ _ => List.flatten_singleton

/-- A slave is mapped, and a change is committed. -/
theorem commit_version_of_change :
    let cls := { ObjectClass.sparse with changeType := .delta }
    let cfg := Config.plain 100
    let d := [.addSlave ⟨1, 1, 0, 0, 0, 0, 0, 7, 0, false⟩].foldl (call cfg (Writes.whole cls))
      (init cls false 0)
    let m := (d.entered true commitNext).master
    let m' := (d.commit cfg (Writes.whole cls) true commitNext).master
    (Wrote cls m → m'.version = m.version + 1 ∧ m'.instanceDatas.getLast? =
        some ⟨m.version + 1, cls.getInstanceData true, m.commitCount⟩) ∧
      (¬Wrote cls m → m'.version = m.version) := by
  intro cls cfg d m m'
  have h := commit_version_iff cfg (Writes.whole cls) false 0
    [.addSlave ⟨1, 1, 0, 0, 0, 0, 0, 7, 0, false⟩] true commitNext rfl
  exact h.2 ⟨fun _ => by decide +kernel, fun hnone => absurd hnone (by decide +kernel)⟩

/-- A change is sent to a slave, which then is unmapped. The next commit writes nothing, and makes a
version. -/
theorem commit_version_without_data :
    let cls := { ObjectClass.sparse with changeType := .delta }
    let cfg := Config.plain 100
    let d := [.addSlave ⟨1, 1, 0, 0, 0, 0, 0, 7, 0, false⟩, .commit true commitNext,
      .removeSlave 1 7].foldl (call cfg (Writes.whole cls)) (init cls false 0)
    cls.isDirty (d.master.history d.master.version) false = true ∧ d.master.slaves = [] ∧
      cls.getInstanceData false = [] ∧
      (d.commit cfg (Writes.whole cls) false commitNext).master.version = d.master.version + 1 := by
  exact ⟨by decide +kernel, by decide +kernel, by decide +kernel, by decide +kernel⟩

end DeltaMasterCM

end Collage.Object
