import Collage.Lib.LittleEndian
import Collage.Object.Retention

/-!
# Objects with dirty bits

`serializable.cpp` over the change managers of a slave and of the masters. The bits are set by the
application and cleared by the wrapper after every commit, whatever the change manager did: a slave
may not reach its master, a master may have no slaves. What a master has not sent in a change is
sent with the instance data when the object is mapped. Data that ends with empty writes behind a full
buffer is not sent by any of them.
-/

namespace Collage.Object

variable {S : Type}

/-- A class that derives from `Serializable`. -/
structure SerializableClass (S : Type) where
  changeType : ChangeType
  objectBufferSize : ℕ
  /-- The writes of `serialize`. -/
  serialize : S → BitVec 64 → List Stream.Bytes
  deserialize : List UInt8 → BitVec 64 → S → S

/-- An instance: what the derived class holds, and the dirty bits. -/
structure Serial (S : Type) where
  content : S
  dirty : BitVec 64

def dirtyAll : BitVec 64 := BitVec.allOnes 64

def dirtyBits (data : List UInt8) : BitVec 64 := BitVec.ofNat 64 (ofLE (data.take 8))

/-- The change manager sees only these functions. -/
def SerializableClass.object (cls : SerializableClass S) : ObjectClass (Serial S) where
  changeType := cls.changeType
  isDirty := fun _ s => s.dirty ≠ 0
  objectBufferSize := cls.objectBufferSize
  instanceWrites := fun s => cls.serialize s.content dirtyAll
  applyInstanceData := fun data s =>
    if data = [] then s else { s with content := cls.deserialize data dirtyAll s.content }
  packWrites := fun _ s =>
    if s.dirty = 0 then [] else toLE 8 s.dirty.toNat :: cls.serialize s.content s.dirty
  unpack := fun data s =>
    if data = [] then s
    else { s with content := cls.deserialize (data.drop 8) (dirtyBits data) s.content }

/-- `UnbufferedMasterCM::commit` of an object that is dirty, from the lock on: the manager and what
it sends to the slaves. It retains no instance data. -/
def MasterCM.commitUnbuffered (cls : ObjectClass S) (m : MasterCM S) :
    MasterCM S × Option VersionData :=
  if m.slaves = [] then (m, none)
  else
    if cls.packSent (m.history m.version) m.state then
      ({ m with
        version := m.version + 1
        history := Function.update m.history (m.version + 1) m.state },
        some ⟨m.version + 1, false, cls.pack (m.history m.version) m.state⟩)
    else (m, none)

inductive ChangeManager (S : Type)
  /-- `VersionedSlaveCM`, with a master that is reachable or not. -/
  | slave (reachable : Bool)
  /-- `UnbufferedMasterCM`. -/
  | unbuffered (m : MasterCM (Serial S))
  /-- `FullMasterCM` and `DeltaMasterCM`. -/
  | buffered (m : MasterCM (Serial S))

structure Serializable (S : Type) where
  object : Serial S
  manager : ChangeManager S

namespace Serializable

inductive Event (S : Type)
  /-- The derived class changes its data. -/
  | modify (content : S)
  | setDirty (bits : BitVec 64)
  | unsetDirty (bits : BitVec 64)
  | commit (incarnation : ℕ)
  /-- The master gets or loses its connection. -/
  | reach (reachable : Bool)
  /-- A call on a master that is not a commit. -/
  | request (call : Call (Serial S))

section Model

variable (cls : SerializableClass S) (x : Serializable S)

/-- `commit` of the change manager, and the change it sends. -/
def commitManager (incarnation : ℕ) : ChangeManager S × Option (List UInt8) :=
  match x.manager with
  | .slave reachable =>
      (x.manager,
        if x.object.dirty = 0 ∨ reachable = false then none
        else if cls.object.packSent x.object x.object then
          some (cls.object.pack x.object x.object)
        else none)
  | .unbuffered m =>
      if x.object.dirty = 0 then (x.manager, none)
      else
        let (m', sent) := MasterCM.commitUnbuffered cls.object { m with state := x.object }
        (.unbuffered m', sent.map VersionData.data)
  | .buffered m =>
      (.buffered (m.commitObject cls.object x.object incarnation),
        if x.object.dirty = 0 then none
        else
          ((MasterCM.commit cls.object { m with state := x.object } incarnation).2.filter
            (fun is => !is.hasInstanceData)).map VersionData.data)

def commit (incarnation : ℕ) : Serializable S where
  object := { x.object with dirty := 0 }
  manager := (x.commitManager cls incarnation).1

def request (call : Call (Serial S)) : ChangeManager S :=
  match call, x.manager with
  | .commit _ _, manager => manager
  | _, .slave reachable => .slave reachable
  | call, .unbuffered m => .unbuffered (m.call cls.object call)
  | call, .buffered m => .buffered (m.call cls.object call)

def step : Event S → Serializable S
  | .modify content => { x with object := { x.object with content := content } }
  | .setDirty bits => { x with object := { x.object with dirty := x.object.dirty ||| bits } }
  | .unsetDirty bits => { x with object := { x.object with dirty := x.object.dirty &&& ~~~bits } }
  | .commit incarnation => x.commit cls incarnation
  | .reach reachable =>
      match x.manager with
      | .slave _ => { x with manager := .slave reachable }
      | _ => x
  | .request call => { x with manager := x.request cls call }

/-- The instance data of an unbuffered object ends in time. -/
def Ends : Prop :=
  match x.manager with
  | .unbuffered _ => Stream.EndsInTime cls.objectBufferSize (cls.object.instanceWrites x.object)
  | _ => True

instance : Decidable (x.Ends cls) := by
  unfold Ends
  cases x.manager <;> infer_instance

/-- The instance data of the newest version a map is sent. -/
def mapData : Option (List UInt8) :=
  match x.manager with
  | .slave _ => none
  | .unbuffered _ => if x.Ends cls then some (cls.object.getInstanceData x.object) else none
  | .buffered m => m.instanceDatas.getLast?.map InstanceData.data

end Model

def Keeps (cls : SerializableClass S) (m : MasterCM (Serial S)) (s : Serial S) : Prop :=
  match cls.changeType with
  | .full => cls.object.getInstanceData s ≠ []
  | .delta =>
      if m.slaves ≠ [] then Stream.EndsInTime cls.objectBufferSize (cls.object.packWrites s s)
      else cls.object.getInstanceData s ≠ [] ∨ m.deltaSent = true

/-- A commit can send its change, or keep it as instance data, and what a map is sent ends in
time. -/
def Carries (cls : SerializableClass S) (x : Serializable S) (e : Event S) : Prop :=
  (x.step cls e).Ends cls ∧
    match e with
    | .commit incarnation =>
        match x.manager with
        | .slave reachable => x.object.dirty ≠ 0 → reachable = true ∧
            Stream.EndsInTime cls.objectBufferSize (cls.object.packWrites x.object x.object)
        | .unbuffered _ => True
        | .buffered m => m.Increasing incarnation ∧ (x.object.dirty ≠ 0 → Keeps cls m x.object)
    | _ => True

variable {cls : SerializableClass S} {x : Serializable S}

theorem pack_eq (cls : SerializableClass S) {s : Serial S} (old : Serial S) (h : s.dirty ≠ 0) :
    cls.object.pack old s = toLE 8 s.dirty.toNat ++ (cls.serialize s.content s.dirty).flatten :=
  congrArg List.flatten (if_neg h)

theorem pack_ne_nil (cls : SerializableClass S) {s : Serial S} (old : Serial S)
    (h : s.dirty ≠ 0) : cls.object.pack old s ≠ [] := by
  rw [pack_eq cls old h]
  exact List.cons_ne_nil _ _

theorem dirtyBits_pack (cls : SerializableClass S) {s : Serial S} (old : Serial S)
    (h : s.dirty ≠ 0) : dirtyBits (cls.object.pack old s) = s.dirty := by
  have htake : (toLE 8 s.dirty.toNat ++ (cls.serialize s.content s.dirty).flatten).take 8 =
      toLE 8 s.dirty.toNat := List.take_left' (length_toLE 8 _)
  rw [pack_eq cls old h, dirtyBits, htake, ofLE_toLE_of_lt]
  · exact BitVec.ofNat_toNat 64 s.dirty
  · exact s.dirty.isLt

def newest (m : MasterCM (Serial S)) : Option (List UInt8) :=
  m.instanceDatas.getLast?.map InstanceData.data

theorem newest_obsolete (m : MasterCM (Serial S)) : newest m.obsolete = newest m := by
  change (popObsolete _ _ _).getLast?.map _ = _
  rw [MasterCM.getLast?_popObsolete]
  rfl

theorem newest_addVersion (m : MasterCM (Serial S)) (data : List UInt8) :
    newest (m.addVersion data) = some data := by
  change (m.instanceDatas ++ [_]).getLast?.map _ = _
  rw [List.getLast?_concat]
  rfl

theorem packSent_of_ends (cls : SerializableClass S) {s : Serial S} (old : Serial S)
    (h : s.dirty ≠ 0)
    (hends : Stream.EndsInTime cls.objectBufferSize (cls.object.packWrites s s)) :
    cls.object.packSent old s = true :=
  cls.object.packSent_iff.2 ⟨pack_ne_nil cls old h, hends⟩

/-- A commit that can keep its change as instance data does so. -/
theorem newest_commit_dirty {m : MasterCM (Serial S)} {s : Serial S} (incarnation : ℕ)
    (hdirty : s.dirty ≠ 0) (hkeeps : Keeps cls m s) :
    newest (m.commitObject cls.object s incarnation) = some (cls.object.getInstanceData s) := by
  obtain ⟨-, hslaves, -⟩ := MasterCM.slaves_updateCommitCount { m with state := s } incarnation
  obtain ⟨hstate, hsent⟩ := MasterCM.frame_updateCommitCount { m with state := s } incarnation
  have hdecide : cls.object.isDirty (m.history m.version) s = true := decide_eq_true hdirty
  rw [MasterCM.commitObject, if_pos hdecide]
  simp only [MasterCM.commit]
  generalize hm₁ : MasterCM.updateCommitCount { m with state := s } incarnation = m₁
  rw [hm₁] at hslaves hstate hsent
  change m₁.slaves = m.slaves at hslaves
  change m₁.state = s at hstate
  change m₁.deltaSent = m.deltaSent at hsent
  rw [newest_obsolete]
  unfold Keeps at hkeeps
  change newest (match cls.changeType with
    | .full => m₁.commitFull cls.object
    | .delta => m₁.commitDelta cls.object).1 = _
  cases hclass : cls.changeType with
  | full =>
      rw [hclass] at hkeeps
      simp only [MasterCM.commitFull, hstate]
      rw [if_pos hkeeps, newest_addVersion]
  | delta =>
      rw [hclass] at hkeeps
      simp only [MasterCM.commitDelta, hstate, hslaves, hsent]
      generalize hflag : (if m.slaves ≠ [] then cls.object.packSent (m₁.history m₁.version) s
        else m.deltaSent) = sent
      have hmakes : (m.slaves = [] ∨ sent = true) ∧
          (sent = true ∨ cls.object.getInstanceData s ≠ []) := by
        by_cases hnone : m.slaves = []
        · rw [if_neg (not_not.2 hnone)] at hflag hkeeps
          rw [← hflag]
          exact ⟨Or.inl hnone, hkeeps.symm⟩
        · rw [if_pos hnone] at hflag hkeeps
          rw [← hflag, packSent_of_ends cls _ hdirty hkeeps]
          exact ⟨Or.inr rfl, Or.inl rfl⟩
      rw [if_pos hmakes.1, if_pos hmakes.2, newest_addVersion]

theorem newest_commit_clean {m : MasterCM (Serial S)} {s : Serial S} {incarnation : ℕ}
    (hdirty : s.dirty = 0) (hincarnation : m.Increasing incarnation) :
    newest (m.commitObject cls.object s incarnation) = newest m := by
  have hdecide : ¬cls.object.isDirty (m.history m.version) s = true :=
    fun h => of_decide_eq_true h hdirty
  obtain ⟨count, -, -, heq⟩ :=
    MasterCM.updateCommitCount_increasing (m := { m with state := s }) hincarnation
  rw [MasterCM.commitObject, if_neg hdecide, MasterCM.commitClean, heq, newest_obsolete]
  rfl

theorem mapData_request (cls : SerializableClass S) (object : Serial S) (m : MasterCM (Serial S))
    (call : Call (Serial S)) :
    (step cls ⟨object, .buffered m⟩ (.request call)).mapData cls = newest m := by
  cases call with
  | commit s incarnation => rfl
  | setAutoObsolete count => exact newest_obsolete _
  | addSlave command => rfl
  | removeSlave node instanceID =>
      change newest (m.removeSlave node instanceID) = newest m
      unfold MasterCM.removeSlave
      split_ifs <;> rfl
  | removeSlaves node =>
      change newest (m.removeSlaves node) = newest m
      unfold MasterCM.removeSlaves
      split_ifs <;> rfl
  | cmdMaxVersion node instanceID version =>
      change newest (m.cmdMaxVersion node instanceID version) = newest m
      unfold MasterCM.cmdMaxVersion
      split_ifs <;> rfl

theorem ne_zero_of_getLsbD {bits : BitVec 64} {b : ℕ} (hb : bits.getLsbD b = true) : bits ≠ 0 := by
  rintro rfl
  rw [BitVec.ofNat_eq_ofNat, BitVec.getLsbD_zero] at hb
  cases hb

theorem manager_of_unbuffered (cls : SerializableClass S) (object : Serial S)
    (m : MasterCM (Serial S)) (e : Event S) :
    ∃ m', (step cls ⟨object, .unbuffered m⟩ e).manager = .unbuffered m' := by
  cases e with
  | modify content => exact ⟨m, rfl⟩
  | setDirty bits => exact ⟨m, rfl⟩
  | unsetDirty bits => exact ⟨m, rfl⟩
  | commit incarnation =>
      simp only [step, commit, commitManager]
      split_ifs <;> exact ⟨_, rfl⟩
  | reach reachable => exact ⟨m, rfl⟩
  | request call =>
      simp only [step, request]
      cases call <;> exact ⟨_, rfl⟩

theorem mapData_of_unbuffered {object : Serial S} {m : MasterCM (Serial S)} {e : Event S}
    (hok : Carries cls ⟨object, .unbuffered m⟩ e) :
    (step cls ⟨object, .unbuffered m⟩ e).mapData cls =
      some (cls.object.getInstanceData (step cls ⟨object, .unbuffered m⟩ e).object) := by
  obtain ⟨m', hm'⟩ := manager_of_unbuffered cls object m e
  rw [mapData, hm']
  exact if_pos hok.1

theorem commit_of_dirty {incarnation : ℕ} (hok : x.Carries cls (.commit incarnation))
    (hdirty : x.object.dirty ≠ 0) :
    (x.commitManager cls incarnation).2 = some (cls.object.pack x.object x.object) ∨
      (x.commit cls incarnation).mapData cls = some (cls.object.getInstanceData x.object) := by
  obtain ⟨object, manager⟩ := x
  cases manager with
  | slave reachable =>
      obtain ⟨rfl, hends⟩ := hok.2 hdirty
      refine Or.inl ?_
      simp only [commitManager]
      rw [if_neg (by simpa using hdirty), if_pos (packSent_of_ends cls _ hdirty hends)]
  | unbuffered m => exact Or.inr (mapData_of_unbuffered hok)
  | buffered m => exact Or.inr (newest_commit_dirty incarnation hdirty (hok.2.2 hdirty))

theorem step_of_dirty {e : Event S} (hok : x.Carries cls e) {b : ℕ}
    (hb : x.object.dirty.getLsbD b = true) :
    (∃ bits, e = .unsetDirty bits ∧ bits.getLsbD b = true) ∨
      (∃ incarnation data, e = .commit incarnation ∧
        (x.commitManager cls incarnation).2 = some data ∧ (dirtyBits data).getLsbD b = true) ∨
      (x.step cls e).object.dirty.getLsbD b = true ∨
      (x.step cls e).mapData cls = some (cls.object.getInstanceData x.object) := by
  cases e with
  | modify content => exact Or.inr (Or.inr (Or.inl hb))
  | setDirty bits =>
      refine Or.inr (Or.inr (Or.inl ?_))
      change (x.object.dirty ||| bits).getLsbD b = true
      rw [BitVec.getLsbD_or, hb, Bool.true_or]
  | unsetDirty bits =>
      by_cases hbits : bits.getLsbD b = true
      · exact Or.inl ⟨bits, rfl, hbits⟩
      · refine Or.inr (Or.inr (Or.inl ?_))
        change (x.object.dirty &&& ~~~bits).getLsbD b = true
        rw [BitVec.getLsbD_and, BitVec.getLsbD_not, hb, Bool.not_eq_true _ |>.mp hbits,
          decide_eq_true (BitVec.lt_of_getLsbD hb)]
        rfl
  | commit incarnation =>
      have hdirty := ne_zero_of_getLsbD hb
      rcases commit_of_dirty hok hdirty with hsent | hdata
      · refine Or.inr (Or.inl ⟨incarnation, _, rfl, hsent, ?_⟩)
        rw [dirtyBits_pack cls _ hdirty]
        exact hb
      · exact Or.inr (Or.inr (Or.inr hdata))
  | reach reachable =>
      refine Or.inr (Or.inr (Or.inl ?_))
      obtain ⟨object, manager⟩ := x
      cases manager <;> exact hb
  | request call => exact Or.inr (Or.inr (Or.inl hb))

/-- The instance data a map is sent stays, or it is that of the object before or after the step. -/
theorem step_mapData {e : Event S} (hok : x.Carries cls e) {data : List UInt8}
    (hdata : x.mapData cls = some data) :
    (x.step cls e).mapData cls = some data ∨
      (x.step cls e).mapData cls = some (cls.object.getInstanceData x.object) ∨
      (x.step cls e).mapData cls = some (cls.object.getInstanceData (x.step cls e).object) := by
  obtain ⟨object, manager⟩ := x
  cases manager with
  | slave reachable => cases hdata
  | unbuffered m => exact Or.inr (Or.inr (mapData_of_unbuffered hok))
  | buffered m =>
      cases e with
      | modify content => exact Or.inl hdata
      | setDirty bits => exact Or.inl hdata
      | unsetDirty bits => exact Or.inl hdata
      | commit incarnation =>
          by_cases hdirty : object.dirty = 0
          · refine Or.inl (Eq.trans ?_ hdata)
            exact newest_commit_clean hdirty hok.2.1
          · exact Or.inr (Or.inl (newest_commit_dirty incarnation hdirty (hok.2.2 hdirty)))
      | reach reachable => exact Or.inl hdata
      | request call => exact Or.inl ((mapData_request cls object m call).trans hdata)

section Runs

variable (cls x)

def after (events : List (Event S)) : Serializable S := events.foldl (step cls) x

variable {cls x} {events : List (Event S)} {b : ℕ}

theorem after_snoc (events : List (Event S)) (e : Event S) :
    x.after cls (events ++ [e]) = (x.after cls events).step cls e := by
  rw [after, List.foldl_append]
  rfl

/-- A bit that was set before some events is taken back by one of them, or sent, or still set, or
part of the instance data, which was written since then. -/
def Carried (cls : SerializableClass S) (x : Serializable S) (events : List (Event S)) (b : ℕ) :
    Prop :=
  (∃ pre bits, pre ++ [.unsetDirty bits] <+: events ∧ bits.getLsbD b = true) ∨
    (∃ pre incarnation data, pre ++ [.commit incarnation] <+: events ∧
      ((x.after cls pre).commitManager cls incarnation).2 = some data ∧
      (dirtyBits data).getLsbD b = true) ∨
    (x.after cls events).object.dirty.getLsbD b = true ∨
    ∃ pre, pre <+: events ∧ (x.after cls events).mapData cls =
      some (cls.object.getInstanceData (x.after cls pre).object)

theorem Carried.snoc (h : x.Carried cls events b) {e : Event S}
    (hok : (x.after cls events).Carries cls e) : x.Carried cls (events ++ [e]) b := by
  have hmore : events <+: events ++ [e] := List.prefix_append _ _
  rcases h with ⟨pre, bits, hpre, hb⟩ | ⟨pre, incarnation, data, hpre, hsent, hb⟩ | hb |
    ⟨pre, hpre, hdata⟩
  · exact Or.inl ⟨pre, bits, hpre.trans hmore, hb⟩
  · exact Or.inr (Or.inl ⟨pre, incarnation, data, hpre.trans hmore, hsent, hb⟩)
  · rcases step_of_dirty hok hb with ⟨bits, rfl, hbits⟩ | ⟨incarnation, data, rfl, hsent, hbits⟩ |
      hb | hdata
    · exact Or.inl ⟨events, bits, List.prefix_refl _, hbits⟩
    · exact Or.inr (Or.inl ⟨events, incarnation, data, List.prefix_refl _, hsent, hbits⟩)
    · rw [← after_snoc] at hb
      exact Or.inr (Or.inr (Or.inl hb))
    · rw [← after_snoc] at hdata
      exact Or.inr (Or.inr (Or.inr ⟨events, hmore, hdata⟩))
  · refine Or.inr (Or.inr (Or.inr ?_))
    rcases step_mapData hok hdata with hsame | hbefore | hafter
    · exact ⟨pre, hpre.trans hmore, by rw [after_snoc, hsame]⟩
    · exact ⟨events, hmore, by rw [after_snoc, hbefore]⟩
    · exact ⟨events ++ [e], List.prefix_refl _, by rw [after_snoc, hafter]⟩

/-- If every commit of a dirty slave reaches its master, every commit of a dirty master keeps its
change as instance data or sends it, and what is sent ends in time, no bit is lost and no commit
that cannot reach the master changes the bits. -/
theorem bits_carried (cls : SerializableClass S) (x : Serializable S) {bits : BitVec 64} {b : ℕ}
    (hb : bits.getLsbD b = true) {events : List (Event S)}
    (hok : Machine.Steps (fun x e => some (step cls x e)) (Carries cls)
      (x.step cls (.setDirty bits)) events) :
    (x.step cls (.setDirty bits)).Carried cls events b ∧
      ∀ pre incarnation, pre ++ [.commit incarnation] <+: events →
        ((x.step cls (.setDirty bits)).after cls pre).manager = .slave false →
        ((x.step cls (.setDirty bits)).after cls (pre ++ [.commit incarnation])).object.dirty =
          ((x.step cls (.setDirty bits)).after cls pre).object.dirty := by
  constructor
  · induction events using List.reverseRecOn with
    | nil =>
        refine Or.inr (Or.inr (Or.inl ?_))
        change (x.object.dirty ||| bits).getLsbD b = true
        rw [BitVec.getLsbD_or, hb, Bool.or_true]
    | append_singleton events e ih =>
        obtain ⟨hevents, he⟩ := Machine.steps_append.1 hok
        exact (ih hevents).snoc he.1
  · rintro pre incarnation ⟨post, rfl⟩ hslave
    rw [List.append_assoc] at hok
    obtain ⟨-, hpost⟩ := Machine.steps_append.1 hok
    have hcommit : ((x.step cls (.setDirty bits)).after cls pre).Carries cls (.commit incarnation) :=
      hpost.1
    rw [after_snoc]
    change 0 = _
    unfold Carries at hcommit
    rw [hslave] at hcommit
    by_contra hne
    exact absurd (hcommit.2 (fun h => hne h.symm)).1 Bool.false_ne_true

end Runs

def byteClass : SerializableClass UInt8 where
  changeType := .delta
  objectBufferSize := 60000
  serialize := fun s _ => [[s]]
  deserialize := fun data _ s => data.headD s

/-- A slave commits to a master it can reach. -/
theorem bits_carried_to_master :
    (step byteClass ⟨⟨3, 0⟩, .slave true⟩ (.setDirty 1)).Carried byteClass [.commit commitNext] 0 := by
  have hok : Machine.Steps (fun x e => some (step byteClass x e)) (Carries byteClass)
      (step byteClass ⟨⟨3, 0⟩, .slave true⟩ (.setDirty 1)) [.commit commitNext] :=
    ⟨⟨trivial, fun _ => ⟨rfl, by decide⟩⟩, fun _ _ => trivial⟩
  exact (bits_carried byteClass ⟨⟨3, 0⟩, .slave true⟩ (by decide) hok).1

/-- A slave commits while it cannot reach its master. The bit is gone, and the commit after the
master is back sends nothing. -/
theorem bits_lost_unreachable :
    ¬(step byteClass ⟨⟨3, 0⟩, .slave false⟩ (.setDirty 1)).Carried byteClass
      [.commit commitNext, .reach true, .commit commitNext] 0 := by
  rintro (⟨pre, bits, hpre, hb⟩ | ⟨pre, incarnation, data, hpre, hsent, hb⟩ | hb | ⟨pre, hpre, hdata⟩)
  · have hmem := hpre.subset (List.mem_append_right pre List.mem_cons_self)
    simp at hmem
  · rcases pre with _ | ⟨e, _ | ⟨e', pre⟩⟩
    · cases hsent
    · simp at hpre
    · simp only [List.cons_append, List.cons_prefix_cons] at hpre
      obtain ⟨rfl, rfl, hpre⟩ := hpre
      obtain rfl : pre = [] := by
        have hlength := hpre.length_le
        rw [List.length_append] at hlength
        exact List.length_eq_zero_iff.1 (by simpa using hlength)
      cases hsent
  · exact absurd hb (by decide)
  · cases hdata

end Serializable

end Collage.Object
