import Collage.Object.Applied

/-!
# Agreement of the replicas

With one connection to each node all messages arrive in order. A slave that is mapped to a version
that there is then receives the versions from this one on, and at each version it is in the state in
which the master committed it.
-/

namespace Collage.Object

variable {S : Type}

/-- Instance data copies the state, and a change moves a replica from the last version to the new
one. Changes that are sent do not end with empty writes behind a full buffer. -/
structure ObjectClass.Lawful (cls : ObjectClass S) : Prop where
  instanceData : ∀ s replica, cls.applyInstanceData (cls.getInstanceData s) replica = s
  change : ∀ s s', cls.unpack (cls.pack s s') s = s'
  ends : cls.changeType = .delta → ∀ s s',
    Stream.EndsInTime cls.objectBufferSize (cls.packWrites s s')

section Ran

variable {cls : ObjectClass S} {r v first last : ℕ} {taken : List VersionData} {state : S}
  {history : ℕ → S}

theorem Ran.version_eq (h : Ran cls r taken v state) (hpos : versionFirst ≤ first)
    (hversions : taken.map VersionData.version = interval id first last) : v = last ∧ r ≤ v := by
  induction h generalizing last with
  | mapped state hskipped his =>
      rw [List.map_append, List.map_singleton] at hversions
      obtain ⟨c, -, rfl, -, hlast⟩ := snoc_eq_interval hpos hversions
      exact ⟨his.symm.trans hlast, le_rfl⟩
  | next is h ih =>
      rw [List.map_append, List.map_singleton] at hversions
      obtain ⟨c, -, rfl, htaken, hlast⟩ := snoc_eq_interval hpos hversions
      obtain ⟨rfl, hle⟩ := ih htaken
      exact ⟨hlast, hle.trans (hlast ▸ Nat.le_succ _)⟩

theorem Ran.state_eq (h : Ran cls r taken v state) (hcls : cls.Lawful)
    (hdata : cls.getInstanceData (history r) ≠ []) (hpos : versionFirst ≤ first)
    (hversions : taken.map VersionData.version = interval id first last)
    (hright : ∀ is ∈ taken, is.Right cls history)
    (hinstance : ∀ is ∈ taken, is.version = r → is.hasInstanceData = true) :
    state = history v := by
  induction h generalizing last with
  | @mapped skipped is state hskipped his =>
      have hmem : is ∈ skipped ++ [is] := List.mem_append_right _ (List.mem_singleton_self _)
      have hcopy := hright is hmem
      rw [VersionData.Right, if_pos (hinstance is hmem his)] at hcopy
      rw [VersionData.mapOn, hcopy, his, if_pos hdata, hcls.instanceData]
  | @next taken v state is h ih =>
      have hmem : is ∈ taken ++ [is] := List.mem_append_right _ (List.mem_singleton_self _)
      rw [List.map_append, List.map_singleton] at hversions
      obtain ⟨c, -, rfl, htaken, hlast⟩ := snoc_eq_interval hpos hversions
      have hversion : v = c := (h.version_eq hpos htaken).1
      have hstate := ih htaken (fun other hother => hright other (List.mem_append_left _ hother))
        (fun other hother => hinstance other (List.mem_append_left _ hother))
      have hdelta := hright is hmem
      unfold VersionData.Right at hdelta
      unfold VersionData.unpackOn
      split_ifs at hdelta ⊢ with hkind
      · rw [hdelta, hcls.instanceData]
      · rw [hdelta.2, hstate, hversion, hlast]
        exact hcls.change _ _

end Ran

namespace Slave.Applied

variable {cls : ObjectClass S} {s : Slave S} {taken : List VersionData} {first last : ℕ}

theorem exists_applied_versions (h : s.Applied cls taken) (hpos : versionFirst ≤ first)
    (hle : first ≤ last + 1)
    (hversions : s.received.map VersionData.version = interval id first last) :
    ∃ c, first ≤ c + 1 ∧ c ≤ last ∧ taken.map VersionData.version = interval id first c ∧
      s.queue.map VersionData.version = interval id (c + 1) last := by
  rw [h.received, List.map_append] at hversions
  exact append_eq_interval hpos hle hversions

theorem unpackedNext (h : s.Applied cls taken) (hpos : versionFirst ≤ first) (hle : first ≤ last + 1)
    (hversions : s.received.map VersionData.version = interval id first last) :
    .unpackedNext ∉ s.failed := by
  intro hfailed
  obtain ⟨r, before, is, after, v, state, -, rfl, hran, hnext, -⟩ := h.failed hfailed
  have hparts : (before ++ [is]).map VersionData.version ++
      (after ++ s.queue).map VersionData.version = interval id first last := by
    rw [← hversions, h.received]
    simp
  obtain ⟨c, -, -, hbefore, -⟩ := append_eq_interval hpos hle hparts
  rw [List.map_append, List.map_singleton] at hbefore
  obtain ⟨c, -, rfl, hbefore, his⟩ := snoc_eq_interval hpos hbefore
  rw [(hran.version_eq hpos hbefore).1] at hnext
  exact hnext his.symm

end Slave.Applied

theorem Attached.Fed.hasInstanceData {cls : ObjectClass S} {m : MasterCM S} {a : Attached}
    {r last : ℕ} {blank : Bool} (h : a.Fed cls False m r last blank) (hreply : a.reply = some r)
    {is : VersionData} (his : is ∈ a.received) (hversion : is.version = r) :
    is.hasInstanceData = true := by
  obtain ⟨hblank, -, hle, hhead⟩ | ⟨hblank, -⟩ | ⟨-, hlate, -⟩ := h.reply r hreply
  · have hversions := h.versions
    rw [hblank, if_neg Bool.false_ne_true, List.nil_append, interval_cons hle] at hversions
    obtain ⟨front, rest, hreceived, -, hrest⟩ := List.map_eq_cons_iff.1 hversions
    rw [hreceived] at his hhead
    rcases List.mem_cons.1 his with rfl | his
    · exact hhead is rfl
    · have hmem : is.version ∈ rest.map VersionData.version := List.mem_map_of_mem his
      rw [hrest] at hmem
      obtain ⟨v, hv, -, heq⟩ := mem_interval.1 hmem
      rw [hversion, id_eq] at heq
      omega
  · exact absurd (h.unversioned hblank) not_false
  · exact absurd hlate not_false

namespace World

variable {cls : ObjectClass S} {groups : ℕ → Option ℕ} {w w' : World S} {e : Event S}

/-- All messages on the way are on the connections of their nodes. -/
def Unicast (w : World S) : Prop := ∀ n, ∀ sent ∈ w.down n, sent.multicast = false

theorem unicast_post {message : Message} {down : ℕ → List Sent} {c : Connection}
    (hc : c.isMulticast = false) (h : ∀ n, ∀ sent ∈ down n, sent.multicast = false) (n : ℕ) :
    ∀ sent ∈ post groups message down c n, sent.multicast = false := by
  intro sent hsent
  unfold post at hsent
  split_ifs at hsent
  · rcases List.mem_append.1 hsent with hsent | hsent
    · exact h n sent hsent
    · rw [List.mem_singleton.1 hsent]
      exact hc
  · exact h n sent hsent

theorem unicast_sendAll (hgroups : ∀ n, groups n = none) (node : ℕ) (messages : List Sent)
    {down : ℕ → List Sent} (h : ∀ n, ∀ sent ∈ down n, sent.multicast = false) (n : ℕ) :
    ∀ sent ∈ sendAll groups node messages down n, sent.multicast = false := by
  induction messages generalizing down with
  | nil => exact h n
  | cons s messages ih =>
      refine ih (unicast_post ?_ h)
      unfold getConnection
      rw [hgroups]
      split_ifs <;> rfl

theorem unicast_broadcast (hgroups : ∀ n, groups n = none) {nodes : List ℕ} (hnodes : nodes.Nodup)
    (message : Message) {down : ℕ → List Sent} (h : ∀ n, ∀ sent ∈ down n, sent.multicast = false)
    (n : ℕ) : ∀ sent ∈ broadcast groups nodes message down n, sent.multicast = false := by
  intro sent hsent
  rw [broadcast_eq] at hsent
  rcases List.mem_append.1 hsent with hsent | hsent
  · exact h n sent hsent
  · obtain ⟨c, hc, rfl⟩ := List.mem_map.1 hsent
    obtain ⟨hc, hreaches⟩ := List.mem_filter.1 hc
    obtain ⟨-, rfl⟩ := mem_of_reaches hgroups hnodes hc hreaches
    rfl

theorem Unicast.deliver {node index : ℕ} (h : w.Unicast) (hstep : w.deliver node index = some w') :
    index = 0 ∧ w'.Unicast := by
  unfold World.deliver at hstep
  split at hstep
  · cases hstep
  · next sent hsent =>
    split_ifs at hstep with hguard
    obtain rfl := Option.some.inj hstep
    constructor
    · by_contra hne
      cases hdown : w.down node with
      | nil =>
          rw [hdown] at hsent
          cases hsent
      | cons front rest =>
          obtain ⟨k, rfl⟩ := Nat.exists_eq_succ_of_ne_zero hne
          refine hguard front ?_ ?_
          · rw [hdown, List.take_succ_cons]
            exact List.mem_cons_self
          · rw [h node front (hdown ▸ List.mem_cons_self), h node sent (List.mem_of_getElem? hsent)]
    · intro n sent' hsent'
      rcases eq_or_ne n node with rfl | hne
      · simp only [Function.update_self] at hsent'
        exact h n sent' (List.mem_of_mem_eraseIdx hsent')
      · simp only [Function.update_of_ne hne] at hsent'
        exact h n sent' hsent'

theorem Unicast.step (hgroups : ∀ n, groups n = none) (h : w.Unicast)
    (hnodup : w.master.slaves.Nodup) (hstep : w.step cls groups e = some w') : w'.Unicast := by
  cases e with
  | modify state =>
      obtain rfl := Option.some.inj hstep
      exact h
  | wait =>
      simp only [World.step] at hstep
      split_ifs at hstep
      obtain rfl := Option.some.inj hstep
      exact h
  | commit index incarnation =>
      simp only [World.step] at hstep
      split_ifs at hstep
      obtain rfl := Option.some.inj hstep
      intro n
      dsimp only
      cases (w.master.commit cls incarnation).2 with
      | none => exact h n
      | some is => exact unicast_broadcast hgroups hnodup _ h n
  | commitClean incarnation =>
      simp only [World.step] at hstep
      split_ifs at hstep
      obtain rfl := Option.some.inj hstep
      exact h
  | setAutoObsolete count =>
      obtain rfl := Option.some.inj hstep
      exact h
  | map node state maxVersions version =>
      obtain rfl := Option.some.inj hstep
      exact h
  | unmap node instanceID =>
      simp only [World.step] at hstep
      split at hstep
      · cases hstep
      · split_ifs at hstep
        obtain rfl := Option.some.inj hstep
        exact h
  | serve node =>
      simp only [World.step] at hstep
      split at hstep
      · cases hstep
      · next request rest hup =>
        obtain rfl := Option.some.inj hstep
        cases request with
        | map command => exact unicast_sendAll hgroups node _ h
        | unsubscribe instanceID => exact unicast_sendAll hgroups node _ h
        | maxVersion instanceID version => exact h
  | deliver node index => exact (h.deliver hstep).2
  | sync node instanceID version =>
      simp only [World.step] at hstep
      split at hstep
      · cases hstep
      · split_ifs at hstep
        obtain rfl := Option.some.inj hstep
        exact h
  | advance node instanceID =>
      simp only [World.step] at hstep
      split at hstep
      · cases hstep
      · split at hstep
        · cases hstep
        · obtain rfl := Option.some.inj hstep
          exact h
  | disconnect node =>
      obtain rfl := Option.some.inj hstep
      intro n sent hsent
      rcases eq_or_ne n node with rfl | hne
      · simp only [Function.update_self] at hsent
        cases hsent
      · simp only [Function.update_of_ne hne] at hsent
        exact h n sent hsent

/-- What holds in a run with one connection to each node. -/
structure Agreeing (cls : ObjectClass S) (w : World S) : Prop where
  linked : w.Linked cls False
  applied : w.Applied cls
  unicast : w.Unicast

theorem Agreeing.step (hgroups : ∀ n, groups n = none) (h : w.Agreeing cls)
    (hconsistent : w.Consistent e) (htimely : w.Timely e)
    (hstep : w.step cls groups e = some w') : w'.Agreeing cls := by
  refine ⟨h.linked.step ⟨hconsistent, ?_, fun _ _ _ _ c hc n hreaches => ?_⟩ (Or.inl htimely) hstep,
    h.applied.step hstep, h.unicast.step hgroups h.linked.kept.nodup hstep⟩
  · rintro node index rfl
    exact (h.unicast.deliver hstep).1
  · exact (mem_of_reaches hgroups h.linked.kept.nodup hc hreaches).1

end World

section Agreement

variable {cls : ObjectClass S} {groups : ℕ → Option ℕ} {w : World S}

/-- Replica agreement. -/
theorem replicas_agree (hcls : cls.Lawful) (hdata : ∀ s, cls.getInstanceData s ≠ [])
    (hgroups : ∀ n, groups n = none) {s : S} {instanceID : ℕ} {es : List (Event S)}
    (hok : Machine.Steps (World.step cls groups) (fun w e => w.Consistent e ∧ w.Timely e)
      (World.start cls s instanceID) es)
    (hrun : Machine.run (World.step cls groups) (World.start cls s instanceID) es = some w)
    {n : ℕ} {slave : Slave S} (hslave : slave ∈ (w.nodes n).slaves) :
    (∀ r, slave.reply = some r → ∃ last, r ≤ last ∧ last ≤ w.master.version ∧
      slave.received.map VersionData.version = interval id r last ∧
      (w.down n = [] → last = w.master.version)) ∧
    .unpackedNext ∉ slave.failed ∧
    (slave.version ≠ versionNone → slave.version ≤ w.master.version ∧
      slave.state = w.master.history slave.version) := by
  have hagreeing : w.Agreeing cls := Machine.run_invariant (World.Agreeing cls)
    (fun _ _ _ h hok hstep => h.step hgroups hok.1 hok.2 hstep)
    ⟨World.linked_start cls False s instanceID, World.applied_start cls s instanceID, fun _ => nofun⟩
    hok hrun
  obtain ⟨taken, htaken⟩ := hagreeing.applied n slave hslave
  obtain ⟨first, last, blank, hfed, hall⟩ := (hagreeing.linked.nodes n).fed hslave
  have hblank : blank = false := by
    by_contra htrue
    exact hfed.unversioned (by simpa using htrue)
  subst hblank
  have hversions : slave.received.map VersionData.version = interval id first last := hfed.versions
  have hreply : ∀ r, slave.reply = some r → r = first ∧ first ≤ last := by
    intro r hr
    obtain ⟨-, hfirst, hle, -⟩ | ⟨hblank, -⟩ | ⟨-, hlate, -⟩ := hfed.reply r hr
    · exact ⟨hfirst, hle⟩
    · cases hblank
    · exact absurd hlate not_false
  refine ⟨fun r hr => ?_, htaken.unpackedNext hfed.pos hfed.first_le hversions, fun hversion => ?_⟩
  · obtain ⟨rfl, hle⟩ := hreply r hr
    refine ⟨last, hle, hfed.last_le, hversions, fun hdown => (hall ?_).1⟩
    rw [hdown, List.map_nil]
  · have hmapped : slave.task.Mapped :=
      ⟨fun htask => hversion (htaken.mapping htask).2.1,
        fun r htask => hversion (htaken.applying r htask).2.1⟩
    obtain ⟨r, hr, hran⟩ := htaken.mapped hmapped
    obtain ⟨rfl, -⟩ := hreply r hr
    obtain ⟨c, -, hc, htakenVersions, -⟩ := htaken.exists_applied_versions hfed.pos hfed.first_le hversions
    have hsub : ∀ is ∈ taken, is ∈ slave.received := by
      intro is his
      rw [htaken.received]
      exact List.mem_append_left _ his
    refine ⟨?_, hran.state_eq hcls (hdata _) hfed.pos htakenVersions
      (fun is his => hfed.right_of_versioned (hsub is his))
      (fun is his => hfed.hasInstanceData hr (hsub is his))⟩
    rw [(hran.version_eq hfed.pos htakenVersions).1]
    exact hc.trans hfed.last_le

theorem ObjectClass.lawful_byte (changeType : ChangeType) :
    (ObjectClass.byte changeType).Lawful := by
  refine ⟨fun s replica => rfl, fun s s' => ?_, fun _ s s' => Or.inl rfl⟩
  change s + (s' - s) = s'
  grind

/-- A slave of a delta object is mapped to version 1 and synchronised to version 2. -/
theorem replicas_agree_after_sync : ∃ w,
    Machine.run (World.step (ObjectClass.byte .delta) (fun _ => none))
        (World.start (ObjectClass.byte .delta) 3 0)
        [.map 1 0 1 versionOldest, .serve 1, .modify 5, .wait, .commit 0 commitNext, .deliver 1 0,
          .deliver 1 0, .deliver 1 0, .deliver 1 0, .advance 1 0, .sync 1 0 versionHead,
          .advance 1 0, .advance 1 0] = some w ∧
      ∃ slave ∈ (w.nodes 1).slaves, slave.version = 2 ∧
        slave.state = w.master.history slave.version := by
  have h : (Machine.run (World.step (ObjectClass.byte .delta) (fun _ => none))
      (World.start (ObjectClass.byte .delta) 3 0)
      [.map 1 0 1 versionOldest, .serve 1, .modify 5, .wait, .commit 0 commitNext, .deliver 1 0,
        .deliver 1 0, .deliver 1 0, .deliver 1 0, .advance 1 0, .sync 1 0 versionHead,
        .advance 1 0, .advance 1 0]).map
        (fun w => decide ((w.nodes 1).slaves.map Slave.version = [2])) = some true := by
    decide +kernel
  obtain ⟨w, hrun, hw⟩ := Option.map_eq_some_iff.1 h
  obtain ⟨slave, rest, hslaves, hversion, -⟩ := List.map_eq_cons_iff.1 (of_decide_eq_true hw)
  have hmem : slave ∈ (w.nodes 1).slaves := hslaves ▸ List.mem_cons_self
  obtain ⟨-, -, hstate⟩ := replicas_agree (ObjectClass.lawful_byte .delta)
    (fun s => List.cons_ne_nil s []) (fun _ => rfl) (by decide +kernel) hrun hmem
  exact ⟨w, hrun, slave, hmem, hversion, (hstate (by rw [hversion]; decide)).2⟩

/-- An object whose instance data may be empty. -/
def ObjectClass.sparse : ObjectClass Bool where
  changeType := .full
  isDirty := fun old new => old ≠ new
  objectBufferSize := 60000
  instanceWrites := fun s => if s then [[1]] else []
  applyInstanceData := fun data _ => data ≠ []
  packWrites := fun _ new => if new then [[1]] else []
  unpack := fun data _ => data ≠ []

/-- A slave that is mapped to `VERSION_NONE` does not get the next version, and instance data without
content is not applied. -/
theorem not_agree_without_data :
    (∃ w, Machine.run (World.step (ObjectClass.byte .full) (fun _ => none))
        (World.start (ObjectClass.byte .full) 3 0)
        [.map 1 0 1 versionNone, .serve 1, .modify 5, .wait, .commit 0 commitNext, .deliver 1 0,
          .deliver 1 0, .deliver 1 0, .deliver 1 0] = some w ∧
      (w.nodes 1).slaves.map (fun s => (s.reply, s.received.map VersionData.version)) =
        [(some 0, [0, 2])]) ∧
    ObjectClass.sparse.Lawful ∧
    (∃ w, Machine.run (World.step ObjectClass.sparse (fun _ => none))
        (World.start ObjectClass.sparse false 0)
        [.map 1 true 1 versionOldest, .serve 1, .deliver 1 0, .deliver 1 0, .deliver 1 0,
          .advance 1 0] = some w ∧
      w.master.history 1 = false ∧
      (w.nodes 1).slaves.map (fun s => (s.version, s.state)) = [(1, true)]) := by
  refine ⟨?_, ⟨fun s _ => ?_, fun _ s' => ?_, fun h => ?_⟩, ?_⟩
  · have h : (Machine.run (World.step (ObjectClass.byte .full) (fun _ => none))
        (World.start (ObjectClass.byte .full) 3 0)
        [.map 1 0 1 versionNone, .serve 1, .modify 5, .wait, .commit 0 commitNext, .deliver 1 0,
          .deliver 1 0, .deliver 1 0, .deliver 1 0]).map (fun w => decide ((w.nodes 1).slaves.map
            (fun s => (s.reply, s.received.map VersionData.version)) = [(some 0, [0, 2])])) =
        some true := by
      decide +kernel
    obtain ⟨w, hrun, hw⟩ := Option.map_eq_some_iff.1 h
    exact ⟨w, hrun, of_decide_eq_true hw⟩
  · cases s <;> rfl
  · cases s' <;> rfl
  · cases h
  · have h : (Machine.run (World.step ObjectClass.sparse (fun _ => none))
        (World.start ObjectClass.sparse false 0)
        [.map 1 true 1 versionOldest, .serve 1, .deliver 1 0, .deliver 1 0, .deliver 1 0,
          .advance 1 0]).map (fun w => decide (w.master.history 1 = false ∧
            (w.nodes 1).slaves.map (fun s => (s.version, s.state)) = [(1, true)])) = some true := by
      decide +kernel
    obtain ⟨w, hrun, hw⟩ := Option.map_eq_some_iff.1 h
    exact ⟨w, hrun, of_decide_eq_true hw⟩

end Agreement

end Collage.Object
