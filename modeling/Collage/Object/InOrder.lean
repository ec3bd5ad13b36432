import Collage.Object.Linked

/-!
# Messages in order

Runs in which each message that arrives at a node is the oldest on the way to it. With one connection
to each node every run is one. Between the master and each node then holds what is said of a node in
`Linked`.
-/

namespace Collage.Object

variable {S : Type} {groups : ℕ → Option ℕ} {n : ℕ}

section Channels

variable {node : ℕ} {messages : List Sent} {message : Message} {nodes : List ℕ}
  {down : ℕ → List Sent}

theorem sendAll_self (groups : ℕ → Option ℕ) (node : ℕ) (messages : List Sent)
    (down : ℕ → List Sent) :
    (sendAll groups node messages down node).map Sent.message =
      (down node).map Sent.message ++ messages.map Sent.message := by
  induction messages generalizing down with
  | nil => simp [sendAll]
  | cons sent messages ih =>
      have hpost : (post groups sent.message down (getConnection groups node sent.multicast)
          node).map Sent.message = (down node).map Sent.message ++ [sent.message] := by
        rw [post, if_pos (reaches_getConnection groups node sent.multicast), List.map_append,
          List.map_singleton]
      change (sendAll groups node messages _ node).map Sent.message = _
      rw [ih, hpost, List.append_assoc, List.map_cons, List.singleton_append]

theorem reaches_getConnection_of_ne {sent : Sent} (hne : n ≠ node)
    (h : (getConnection groups node sent.multicast).reaches groups n = true) :
    sent.multicast = true := by
  by_contra hmulticast
  rw [getConnection, if_neg hmulticast] at h
  exact hne (by simpa [Connection.reaches, eq_comm] using h)

theorem sendAll_other (groups : ℕ → Option ℕ) (hne : n ≠ node) (messages : List Sent)
    (down : ℕ → List Sent) :
    ∃ sent : List Message, (sendAll groups node messages down n).map Sent.message =
        (down n).map Sent.message ++ sent ∧
      ∀ message ∈ sent, ∃ s ∈ messages, s.multicast = true ∧ s.message = message := by
  induction messages generalizing down with
  | nil => exact ⟨[], by simp [sendAll], nofun⟩
  | cons s messages ih =>
      obtain ⟨sent, hsent, hmem⟩ :=
        ih (post groups s.message down (getConnection groups node s.multicast))
      have hrest : ∀ message ∈ sent, ∃ t ∈ s :: messages, t.multicast = true ∧
          t.message = message := by
        intro message hmessage
        obtain ⟨t, ht, heq⟩ := hmem message hmessage
        exact ⟨t, List.mem_cons_of_mem _ ht, heq⟩
      by_cases hreaches : (getConnection groups node s.multicast).reaches groups n = true
      · refine ⟨s.message :: sent, ?_, fun message hmessage => ?_⟩
        · refine hsent.trans ?_
          rw [post, if_pos hreaches, List.map_append, List.map_singleton, List.append_assoc,
            List.singleton_append]
        · rcases List.mem_cons.1 hmessage with rfl | hmessage
          · exact ⟨s, List.mem_cons_self, reaches_getConnection_of_ne hne hreaches, rfl⟩
          · exact hrest message hmessage
      · refine ⟨sent, hsent.trans ?_, hrest⟩
        rw [post, if_neg hreaches]

theorem broadcast_eq (groups : ℕ → Option ℕ) (nodes : List ℕ) (message : Message)
    (down : ℕ → List Sent) (n : ℕ) :
    broadcast groups nodes message down n = down n ++
      ((gatherConnections groups nodes).filter (Connection.reaches groups n)).map
        (fun c => ⟨c.isMulticast, message⟩) := by
  unfold broadcast
  induction gatherConnections groups nodes generalizing down with
  | nil => simp
  | cons c connections ih =>
      rw [List.foldl_cons, ih, post]
      by_cases hreaches : c.reaches groups n = true
      · rw [if_pos hreaches, List.filter_cons_of_pos hreaches, List.map_cons, List.append_assoc,
          List.singleton_append]
      · rw [if_neg hreaches, List.filter_cons_of_neg hreaches]

end Channels

namespace MasterCM

variable {cls : ObjectClass S} {m m' : MasterCM S}

theorem Kept.instancesOf_eq_nil (h : m.Kept cls) (n : ℕ) : m.instancesOf n = [] ↔ n ∉ m.slaves := by
  rw [h.nodes, instancesOf, List.map_eq_nil_iff, List.filter_eq_nil_iff, List.mem_map]
  constructor
  · rintro hnone ⟨d, hd, hdn⟩
    exact hnone d hd (by simpa using hdn)
  · intro hnone d hd hdn
    exact hnone ⟨d, hd, by simpa using hdn⟩

theorem Committed.grown {sent : Option VersionData} (h : Committed cls m m' sent) : m.Grown m' := by
  rcases h.version with ⟨hversion, hhistory, -⟩ | ⟨hversion, hhistory, -⟩
  · exact .of_eq hversion hhistory
  · refine ⟨hversion.ge.trans' (Nat.le_succ _), fun v hv => ?_⟩
    rw [hhistory, Function.update_of_ne (by omega)]

theorem Committed.instancesOf {sent : Option VersionData} (h : Committed cls m m' sent) (n : ℕ) :
    m'.instancesOf n = m.instancesOf n := by
  rw [MasterCM.instancesOf, MasterCM.instancesOf, h.slaveData]

theorem foreign_mapMessages {command : MasterCommand} (hne : command.node ≠ n) {s : Sent}
    (hs : s ∈ m.mapMessages command) : s.message.Foreign n := by
  unfold mapMessages initSlave at hs
  simp only at hs
  split_ifs at hs
  · simp only [List.mem_cons, List.not_mem_nil, or_false] at hs
    obtain rfl | rfl | rfl := hs <;> exact hne
  · simp only [List.mem_cons, List.not_mem_nil, or_false] at hs
    obtain rfl | rfl := hs <;> exact hne
  · simp only [List.cons_append, List.mem_cons, List.mem_append, List.mem_map, List.not_mem_nil,
      or_false] at hs
    obtain rfl | ⟨d, -, rfl⟩ | rfl := hs <;> exact hne

end MasterCM

namespace World

section

variable (cls : ObjectClass S) (late : Prop) (groups : ℕ → Option ℕ) (w : World S)

structure Linked : Prop where
  kept : w.master.Kept cls
  nodes : ∀ n, Object.Linked cls late w.master n (w.up n) ((w.down n).map Sent.message) (w.nodes n)

/-- The incarnation of a commit does not decrease. -/
def Consistent : Event S → Prop
  | .commit _ incarnation => w.master.Increasing incarnation
  | .commitClean incarnation => w.master.Increasing incarnation
  | _ => True

instance decidableConsistent : (e : Event S) → Decidable (w.Consistent e)
  | .commit _ incarnation => inferInstanceAs (Decidable (w.master.Increasing incarnation))
  | .commitClean incarnation => inferInstanceAs (Decidable (w.master.Increasing incarnation))
  | .modify _ | .wait | .setAutoObsolete _ | .map _ _ _ _ | .unmap _ _ | .serve _ | .deliver _ _
  | .sync _ _ _ | .advance _ _ | .disconnect _ => isTrue trivial

/-- A message that arrives is the oldest on the way. -/
def Oldest (e : Event S) : Prop := ∀ node index, e = .deliver node index → index = 0

instance decidableOldest (e : Event S) : Decidable (Oldest e) :=
  match e with
  | .deliver node index => decidable_of_iff (index = 0)
      ⟨fun h _ _ he => (Event.deliver.inj he).2 ▸ h, fun h => h node index rfl⟩
  | .modify _ | .wait | .commit _ _ | .commitClean _ | .setAutoObsolete _ | .map _ _ _ _ | .unmap _ _
  | .serve _ | .sync _ _ _ | .advance _ _ | .disconnect _ => isTrue nofun

/-- A delta is sent to a multicast group only if all its nodes have slaves. -/
def Covered : Prop :=
  cls.changeType = .delta → ∀ c ∈ gatherConnections groups w.master.slaves,
    ∀ n, c.reaches groups n = true → n ∈ w.master.slaves

def InOrder (e : Event S) : Prop :=
  w.Consistent e ∧ Oldest e ∧
    ∀ index incarnation, e = .commit index incarnation → w.Covered cls groups

/-- The next request the master handles is for a version that there is. -/
def Timely : Event S → Prop
  | .serve node => ∀ command ∈ (w.up node).head?.bind (fun request => match request with
      | .map command => some command
      | _ => none), w.master.Mappable command.requestedVersion
  | _ => True

instance decidableTimely : (e : Event S) → Decidable (w.Timely e)
  | .serve _ => Option.decidableForallMem _
  | .modify _ | .wait | .commit _ _ | .commitClean _ | .setAutoObsolete _ | .map _ _ _ _ | .unmap _ _
  | .deliver _ _ | .sync _ _ _ | .advance _ _ | .disconnect _ => isTrue trivial

end

variable {cls : ObjectClass S} {late : Prop} {w w' : World S}

theorem Linked.broadcast {m' : MasterCM S} {is : VersionData} (h : w.Linked cls late)
    (hc : MasterCM.Committed cls w.master m' (some is))
    (hcovered : w.Covered cls groups) (n : ℕ) :
    Object.Linked cls late m' n (w.up n)
      ((Object.broadcast groups w.master.slaves (.commit is) w.down n).map Sent.message)
      (w.nodes n) := by
  obtain ⟨-, -, hnone⟩ | ⟨hnext, -, -, his⟩ := hc.version
  · cases hnone
  · obtain ⟨hversion, hright⟩ := his is rfl
    rw [broadcast_eq, List.map_append, List.map_map]
    by_cases hn : n ∈ w.master.slaves
    · obtain ⟨c, hreach⟩ := reaches_gatherConnections groups h.kept.nodup hn
      rw [hreach]
      refine (h.nodes n).commit_mapped hc.grown (hc.instancesOf n) ?_ hnext hversion hright
      rwa [ne_eq, h.kept.instancesOf_eq_nil, not_not]
    · refine (h.nodes n).commit_unmapped hc.grown (hc.instancesOf n)
        ((h.kept.instancesOf_eq_nil n).2 hn) is (fun message hmessage => ?_) ?_
      · obtain ⟨c, -, rfl⟩ := List.mem_map.1 hmessage
        rfl
      · by_cases hdata : is.hasInstanceData = true
        · exact Or.inl hdata
        · right
          rw [VersionData.Right, if_neg hdata] at hright
          rw [List.map_eq_nil_iff, List.filter_eq_nil_iff]
          exact fun c hmem hreaches => hn (hcovered hright.1 c hmem n hreaches)

theorem Linked.commit {index incarnation : ℕ} (h : w.Linked cls late)
    (hok : w.InOrder cls groups (.commit index incarnation))
    (hstep : w.step cls groups (.commit index incarnation) = some w') : w'.Linked cls late := by
  have hc := MasterCM.committed_commit cls hok.1
  simp only [step] at hstep
  split_ifs at hstep
  obtain rfl := Option.some.inj hstep
  refine ⟨hc.kept h.kept, fun n => ?_⟩
  generalize w.master.commit cls incarnation = committed at hc
  obtain ⟨m', sent⟩ := committed
  cases sent with
  | some is => exact h.broadcast hc (hok.2.2 index incarnation rfl) n
  | none =>
      change Object.Linked cls late m' n (w.up n) ((w.down n).map Sent.message) (w.nodes n)
      rw [← List.append_nil ((w.down n).map Sent.message)]
      obtain ⟨hversion, hhistory, -⟩ | ⟨-, -, hslaves, -⟩ := hc.version
      · exact (h.nodes n).append_foreign hversion hhistory (hc.instancesOf n) nofun rfl (fun _ => id)
      · have hnone : w.master.slaves = [] := by
          by_contra hne
          cases hslaves hne
        exact (h.nodes n).commit_unmapped hc.grown (hc.instancesOf n)
          ((h.kept.instancesOf_eq_nil n).2 (by simp [hnone])) ⟨0, true, []⟩ nofun (Or.inr rfl)

theorem Linked.of_history_eq (h : w.Linked cls late) {m' : MasterCM S} (hkept : m'.Kept cls)
    (hversion : m'.version = w.master.version) (hhistory : m'.history = w.master.history)
    (hinstances : ∀ n, m'.instancesOf n = w.master.instancesOf n) :
    Linked cls late { w with master := m' } := by
  refine ⟨hkept, fun n => ?_⟩
  change Object.Linked cls late m' n (w.up n) ((w.down n).map Sent.message) (w.nodes n)
  rw [← List.append_nil ((w.down n).map Sent.message)]
  exact (h.nodes n).append_foreign hversion hhistory (hinstances n) nofun rfl (fun _ => id)

theorem Linked.commitClean (h : w.Linked cls late) {incarnation : ℕ}
    (hok : w.master.Increasing incarnation) :
    Linked cls late { w with master := w.master.commitClean incarnation } := by
  obtain ⟨count, heq⟩ := MasterCM.updateCommitCount_eq hok
  refine h.of_history_eq (h.kept.commitClean hok) ?_ ?_ (fun n => ?_)
  · rw [MasterCM.commitClean, heq]
    rfl
  · rw [MasterCM.commitClean, heq]
    rfl
  · rw [MasterCM.commitClean, heq]
    rfl

theorem Linked.set_node (h : w.Linked cls late) {n : ℕ} {up : List Up} {node : Node S}
    (hnode : Object.Linked cls late w.master n up ((w.down n).map Sent.message) node) :
    Linked cls late { w with up := Function.update w.up n up
                             nodes := Function.update w.nodes n node } := by
  refine ⟨h.kept, fun k => ?_⟩
  rcases eq_or_ne k n with rfl | hne
  · simp only [Function.update_self]
    exact hnode
  · simp only [Function.update_of_ne hne]
    exact h.nodes k

theorem Linked.setSlave (h : w.Linked cls late) {n instanceID : ℕ} {s s' : Slave S}
    (hs : (w.nodes n).find instanceID = some s) (hlog : s'.log = s.log) {requests : List Up}
    (hrequests : ∀ command, Up.map command ∉ requests) :
    (w.setSlave n s' requests).Linked cls late :=
  h.set_node ((h.nodes n).set_slave hs hlog hrequests)

theorem Linked.deliver (h : w.Linked cls late) {n : ℕ} (hstep : w.deliver n 0 = some w') :
    w'.Linked cls late := by
  unfold World.deliver at hstep
  cases hdown : w.down n with
  | nil =>
      rw [hdown] at hstep
      cases hstep
  | cons sent rest =>
      rw [hdown] at hstep
      simp only [List.getElem?_cons_zero, List.take_zero, List.not_mem_nil, false_implies,
        implies_true, if_true, List.eraseIdx_cons_zero, Option.some.injEq] at hstep
      have hn := h.nodes n
      rw [hdown, List.map_cons] at hn
      rw [← hstep]
      refine ⟨h.kept, fun k => ?_⟩
      rcases eq_or_ne k n with rfl | hne
      · simp only [Function.update_self]
        exact hn.deliver
      · simp only [Function.update_of_ne hne]
        exact h.nodes k

theorem Linked.disconnect (h : w.Linked cls late) (n : ℕ) :
    Linked cls late
      { w with
        master := w.master.removeSlaves n
        up := Function.update w.up n []
        down := Function.update w.down n []
        nodes := Function.update w.nodes n { Node.empty with nextID := (w.nodes n).nextID } } := by
  have hslaves := MasterCM.reslaved_removeSlaves w.master n
  refine ⟨h.kept.of_reslaved hslaves, fun k => ?_⟩
  have hinstances := MasterCM.instancesOf_removeSlaves h.kept n k
  rcases eq_or_ne k n with rfl | hne
  · simp only [Function.update_self]
    rw [if_pos rfl] at hinstances
    exact .empty cls late hinstances _
  · simp only [Function.update_of_ne hne]
    rw [if_neg hne] at hinstances
    rw [← List.append_nil ((w.down k).map Sent.message)]
    exact (h.nodes k).append_foreign hslaves.version hslaves.history hinstances nofun rfl
      (fun _ => id)

theorem Linked.serve (h : w.Linked cls late) {node : ℕ} {request : Up} {rest : List Up}
    (hup : w.up node = request :: rest)
    (htimely : ∀ command, request = .map command →
      w.master.Mappable command.requestedVersion ∨ late) :
    ({ w with up := Function.update w.up node rest }.serve groups node request).Linked cls late := by
  have hnode := h.nodes node
  rw [hup] at hnode
  cases request with
  | map command =>
      have hslaves := MasterCM.reslaved_addSlave w.master command
      refine ⟨h.kept.of_reslaved hslaves, fun k => ?_⟩
      rcases eq_or_ne k node with rfl | hne
      · simp only [World.serve, Function.update_self, sendAll_self]
        exact hnode.map h.kept (htimely command rfl)
      · simp only [World.serve, Function.update_of_ne hne]
        obtain ⟨sent, hsent, hmem⟩ := sendAll_other groups hne
          (w.master.mapMessages command) w.down
        have hother : command.node ≠ k := by
          rw [(hnode.commands command List.mem_cons_self).1]
          exact hne.symm
        rw [hsent]
        refine (h.nodes k).append_foreign hslaves.version hslaves.history ?_
          (fun message hmessage => ?_)
          rfl (fun _ => id)
        · rw [MasterCM.instancesOf_addSlave, if_neg hother, List.append_nil]
        · obtain ⟨s, hs, -, rfl⟩ := hmem message hmessage
          exact MasterCM.foreign_mapMessages hother hs
  | unsubscribe instanceID =>
      have hslaves := MasterCM.reslaved_removeSlave w.master node instanceID
      refine ⟨h.kept.of_reslaved hslaves, fun k => ?_⟩
      rcases eq_or_ne k node with rfl | hne
      · simp only [World.serve, Function.update_self, sendAll_self]
        exact hnode.unsubscribe
      · simp only [World.serve, Function.update_of_ne hne]
        obtain ⟨sent, hsent, hmem⟩ := sendAll_other groups hne
          [⟨false, .detach instanceID⟩] w.down
        rw [hsent]
        refine (h.nodes k).append_foreign hslaves.version hslaves.history ?_
          (fun message hmessage => ?_)
          rfl (fun _ => id)
        · rw [MasterCM.instancesOf_removeSlave, if_neg hne]
        · obtain ⟨s, hs, hmulticast, -⟩ := hmem message hmessage
          rw [List.mem_singleton.1 hs] at hmulticast
          cases hmulticast
  | maxVersion instanceID version =>
      have hslaves := MasterCM.reslaved_cmdMaxVersion w.master node instanceID version
      refine ⟨h.kept.of_reslaved hslaves, fun k => ?_⟩
      have hinstances := MasterCM.instancesOf_cmdMaxVersion w.master node instanceID version k
      simp only [World.serve]
      rw [← List.append_nil ((w.down k).map Sent.message)]
      rcases eq_or_ne k node with rfl | hne
      · simp only [Function.update_self]
        exact hnode.append_foreign hslaves.version hslaves.history hinstances nofun rfl
          (fun _ => List.mem_cons_of_mem _)
      · simp only [Function.update_of_ne hne]
        exact (h.nodes k).append_foreign hslaves.version hslaves.history hinstances nofun rfl
          (fun _ => id)

end World

/-- Neither does the application thread wait for the map reply, nor is it in `applyMapData`. -/
def Task.Mapped (task : Task) : Prop := task ≠ .mapping ∧ ∀ r, task ≠ .applying r

namespace Task

theorem mapped_idle : idle.Mapped := ⟨by rintro ⟨⟩, by rintro _ ⟨⟩⟩

theorem mapped_syncing (version : ℕ) : (syncing version).Mapped := ⟨by rintro ⟨⟩, by rintro _ ⟨⟩⟩

theorem mapped_heading : heading.Mapped := ⟨by rintro ⟨⟩, by rintro _ ⟨⟩⟩

theorem mapped_unmapping : unmapping.Mapped := ⟨by rintro ⟨⟩, by rintro _ ⟨⟩⟩

end Task

namespace Slave

theorem log_sync (s : Slave S) (v : ℕ) : (s.sync v).log = s.log := by
  unfold sync
  split_ifs <;> rfl

theorem log_applyMapData (cls : ObjectClass S) (s : Slave S) (version : ℕ) (is : VersionData)
    (queue : List VersionData) : (s.applyMapData cls version is queue).log = s.log := by
  unfold applyMapData
  split_ifs <;> rfl

theorem advance_cases {cls : ObjectClass S} {s s' : Slave S} {ack : Option ℕ}
    (h : s.advance cls = some (s', ack)) :
    (∃ r is queue, s.task = .applying r ∧ s.queue = is :: queue ∧
      s' = s.applyMapData cls r is queue ∧ ack = none) ∨
    (s.task.Mapped ∧ s' = { s with task := .idle } ∧ ack = none) ∨
    (∃ is queue, s.task.Mapped ∧ s.queue = is :: queue ∧ s' = s.unpackOneVersion cls is queue ∧
      ack = s'.ack) := by
  unfold advance at h
  split at h
  · cases h
  · cases h
  · cases h
  · next r htask =>
    split at h
    · cases h
    · next is queue hqueue =>
      obtain ⟨rfl, rfl⟩ := Prod.mk.inj (Option.some.inj h)
      exact Or.inl ⟨r, is, queue, htask, hqueue, rfl, rfl⟩
  · next version htask =>
    have hmapped : s.task.Mapped := by
      rw [htask]
      exact ⟨nofun, nofun⟩
    split_ifs at h
    · split at h
      · cases h
      · next is queue hqueue =>
        obtain ⟨rfl, rfl⟩ := Prod.mk.inj (Option.some.inj h)
        exact Or.inr (Or.inr ⟨is, queue, hmapped, hqueue, rfl, rfl⟩)
    · obtain ⟨rfl, rfl⟩ := Prod.mk.inj (Option.some.inj h)
      exact Or.inr (Or.inl ⟨hmapped, rfl, rfl⟩)
  · next htask =>
    have hmapped : s.task.Mapped := by
      rw [htask]
      exact ⟨nofun, nofun⟩
    split at h
    · obtain ⟨rfl, rfl⟩ := Prod.mk.inj (Option.some.inj h)
      exact Or.inr (Or.inl ⟨hmapped, rfl, rfl⟩)
    · next is queue hqueue =>
      obtain ⟨rfl, rfl⟩ := Prod.mk.inj (Option.some.inj h)
      exact Or.inr (Or.inr ⟨is, queue, hmapped, hqueue, rfl, rfl⟩)

theorem log_advance {cls : ObjectClass S} {s s' : Slave S} {ack : Option ℕ}
    (h : s.advance cls = some (s', ack)) : s'.log = s.log := by
  obtain ⟨r, is, queue, -, -, rfl, -⟩ | ⟨-, rfl, -⟩ | ⟨is, queue, -, -, rfl, -⟩ := advance_cases h
  · exact s.log_applyMapData cls r is queue
  · rfl
  · rfl

end Slave

namespace World

variable {cls : ObjectClass S} {late : Prop} {w w' : World S} {e : Event S}

theorem Linked.step (h : w.Linked cls late) (hok : w.InOrder cls groups e)
    (htimely : w.Timely e ∨ late) (hstep : w.step cls groups e = some w') : w'.Linked cls late := by
  cases e with
  | modify state =>
      obtain rfl := Option.some.inj hstep
      exact h.of_history_eq (h.kept.modify state) rfl rfl (fun _ => rfl)
  | wait =>
      simp only [World.step] at hstep
      split_ifs at hstep
      obtain rfl := Option.some.inj hstep
      exact ⟨h.kept, h.nodes⟩
  | commit index incarnation => exact h.commit hok hstep
  | commitClean incarnation =>
      simp only [World.step] at hstep
      split_ifs at hstep
      obtain rfl := Option.some.inj hstep
      exact h.commitClean hok.1
  | setAutoObsolete count =>
      obtain rfl := Option.some.inj hstep
      exact h.of_history_eq (h.kept.setAutoObsolete count) rfl rfl (fun _ => rfl)
  | map node state maxVersions version =>
      obtain rfl := Option.some.inj hstep
      exact h.set_node ((h.nodes node).append_request state maxVersions version)
  | unmap node instanceID =>
      simp only [World.step] at hstep
      split at hstep
      · cases hstep
      · next s hs =>
        split_ifs at hstep
        obtain rfl := Option.some.inj hstep
        have hlog : ({ s with task := .unmapping } : Slave S).log = s.log := rfl
        exact h.setSlave hs hlog (by simp)
  | serve node =>
      simp only [World.step] at hstep
      split at hstep
      · cases hstep
      · next request rest hup =>
        obtain rfl := Option.some.inj hstep
        refine h.serve hup (fun command hrequest => htimely.imp_left (fun ht => ht command ?_))
        rw [hup, hrequest]
        rfl
  | deliver node index =>
      obtain rfl : index = 0 := hok.2.1 node index rfl
      exact h.deliver hstep
  | sync node instanceID version =>
      simp only [World.step] at hstep
      split at hstep
      · cases hstep
      · next s hs =>
        split_ifs at hstep
        obtain rfl := Option.some.inj hstep
        exact h.setSlave hs (s.log_sync version) (fun _ => List.not_mem_nil)
  | advance node instanceID =>
      simp only [World.step] at hstep
      split at hstep
      · cases hstep
      · next s hs =>
        split at hstep
        · cases hstep
        · next s' ack hadvance =>
          obtain rfl := Option.some.inj hstep
          exact h.setSlave hs (Slave.log_advance hadvance) (by simp)
  | disconnect node =>
      obtain rfl := Option.some.inj hstep
      exact h.disconnect node

theorem covered_of_full (hclass : cls.changeType = .full) : w.Covered cls groups := by
  intro hdelta
  rw [hclass] at hdelta
  cases hdelta

theorem linked_start (cls : ObjectClass S) (late : Prop) (s : S) (instanceID : ℕ) :
    (start cls s instanceID).Linked cls late :=
  ⟨.init cls s instanceID, fun _ => .empty cls late rfl 0⟩

theorem linked_run {s : S} {instanceID : ℕ} {es : List (Event S)}
    (hok : Machine.Steps (World.step cls groups) (InOrder cls groups) (start cls s instanceID) es)
    (hrun : Machine.run (World.step cls groups) (start cls s instanceID) es = some w) :
    w.Linked cls True :=
  Machine.run_invariant (Linked cls True)
    (fun _ _ _ h hok hstep => h.step hok (Or.inr trivial) hstep) (linked_start cls True s instanceID)
    hok hrun

end World

section Delivery

variable {cls : ObjectClass S} {w : World S}

/-- When all messages to a node have arrived, each of its slaves has received every version from the
one of its map reply to the head, once and in order. A slave that was mapped to no version has
received the empty one and then the versions since. -/
theorem received_to_head {s : S} {instanceID : ℕ} {es : List (Event S)}
    (hok : Machine.Steps (World.step cls groups) (World.InOrder cls groups)
      (World.start cls s instanceID) es)
    (hrun : Machine.run (World.step cls groups) (World.start cls s instanceID) es = some w)
    (hdown : w.down n = []) {slave : Slave S} (hslave : slave ∈ (w.nodes n).slaves) :
    ∃ r, slave.reply = some r ∧
      (r ≠ versionNone → (slave.received.map VersionData.version).filter (fun v => r ≤ v) =
        interval id r w.master.version) ∧
      (r = versionNone → ∃ first, versionFirst ≤ first ∧
        slave.received.map VersionData.version =
          versionNone :: interval id first w.master.version) := by
  obtain ⟨first, last, blank, hfed, hall⟩ := ((World.linked_run hok hrun).nodes n).fed hslave
  rw [hdown] at hall
  obtain ⟨rfl, hreply⟩ := hall rfl
  obtain ⟨r, hr⟩ := Option.isSome_iff_exists.1 hreply
  have hversions : slave.received.map VersionData.version =
    (if blank then [versionNone] else []) ++ interval id first w.master.version := hfed.versions
  have hpos : 0 < first := hfed.pos
  refine ⟨r, hr, fun hne => ?_, fun hnone => ?_⟩
  · have hfrom := hfed.first_le_reply hr hne
    have hkey (v : ℕ) : id (id v) = v := rfl
    have hfilter := filter_interval_from hkey r (a := first) (b := w.master.version)
    rw [max_eq_right hfrom.2] at hfilter
    rw [hversions, hfrom.1]
    exact hfilter
  · have hblank : blank = true := by
      rcases hfed.reply r hr with ⟨-, hfirst, -⟩ | ⟨hblank, -⟩ | ⟨-, -, hle⟩
      · rw [hnone, versionNone] at hfirst
        omega
      · exact hblank
      · rw [hnone, versionNone] at hle
        omega
    rw [hblank] at hversions
    exact ⟨first, hpos, hversions⟩

def ObjectClass.byte (changeType : ChangeType) : ObjectClass UInt8 where
  changeType := changeType
  isDirty := fun old new => old ≠ new
  objectBufferSize := 60000
  instanceWrites := fun s => [[s]]
  applyInstanceData := fun data s => data.headD s
  packWrites := fun old new => [[new - old]]
  unpack := fun data s => s + data.headD 0

def inGroup (n : ℕ) : Option ℕ := if n = 1 ∨ n = 2 then some 0 else none

/-- Both nodes map the object, so that the commit is sent to the group. -/
theorem received_to_head_of_group : ∃ w,
    Machine.run (World.step (ObjectClass.byte .full) inGroup)
        (World.start (ObjectClass.byte .full) 0 0)
        [.map 1 0 1 1, .serve 1, .map 2 0 1 1, .serve 2, .modify 5, .wait, .commit 0 commitNext,
          .deliver 1 0, .deliver 1 0, .deliver 1 0, .deliver 1 0, .deliver 1 0, .deliver 1 0,
          .deliver 1 0] = some w ∧
      ∃ slave ∈ (w.nodes 1).slaves, ∃ r, slave.reply = some r ∧
        (r ≠ versionNone → (slave.received.map VersionData.version).filter (fun v => r ≤ v) =
          interval id r w.master.version) := by
  have h : (Machine.run (World.step (ObjectClass.byte .full) inGroup)
      (World.start (ObjectClass.byte .full) 0 0)
      [.map 1 0 1 1, .serve 1, .map 2 0 1 1, .serve 2, .modify 5, .wait, .commit 0 commitNext,
        .deliver 1 0, .deliver 1 0, .deliver 1 0, .deliver 1 0, .deliver 1 0, .deliver 1 0,
        .deliver 1 0]).map (fun w => decide (w.down 1 = [] ∧ (w.nodes 1).slaves.length = 1)) =
      some true := by
    decide +kernel
  obtain ⟨w, hrun, hw⟩ := Option.map_eq_some_iff.1 h
  obtain ⟨hdown, hlength⟩ := of_decide_eq_true hw
  obtain ⟨slave, hslaves⟩ := List.length_eq_one_iff.1 hlength
  have hmem : slave ∈ (w.nodes 1).slaves := by
    rw [hslaves]
    exact List.mem_singleton_self _
  have hsteps : Machine.Steps (World.step (ObjectClass.byte .full) inGroup)
      (fun w e => w.Consistent e ∧ World.Oldest e) (World.start (ObjectClass.byte .full) 0 0)
      [.map 1 0 1 1, .serve 1, .map 2 0 1 1, .serve 2, .modify 5, .wait, .commit 0 commitNext,
        .deliver 1 0, .deliver 1 0, .deliver 1 0, .deliver 1 0, .deliver 1 0, .deliver 1 0,
        .deliver 1 0] := by
    decide +kernel
  obtain ⟨r, hr, hversions, -⟩ := received_to_head
    (hsteps.mono (fun _ _ h => ⟨h.1, h.2, fun _ _ _ => World.covered_of_full rfl⟩)) hrun hdown hmem
  exact ⟨w, hrun, slave, hmem, r, hr, hversions⟩

/-- Only node 1 maps the object. The commit is sent on its own connection, and arrives before the map
success. -/
theorem overtaken_commit_lost : ∃ w,
    Machine.run (World.step (ObjectClass.byte .full) inGroup)
        (World.start (ObjectClass.byte .full) 0 0)
        [.map 1 0 1 1, .serve 1, .modify 5, .wait, .commit 0 commitNext, .deliver 1 3, .deliver 1 0,
          .deliver 1 0, .deliver 1 0] = some w ∧
      w.down 1 = [] ∧ w.master.version = 2 ∧
      (w.nodes 1).slaves.map (fun s => (s.reply, s.received.map VersionData.version)) =
        [(some 1, [1])] := by
  have h : (Machine.run (World.step (ObjectClass.byte .full) inGroup)
      (World.start (ObjectClass.byte .full) 0 0)
      [.map 1 0 1 1, .serve 1, .modify 5, .wait, .commit 0 commitNext, .deliver 1 3, .deliver 1 0,
        .deliver 1 0, .deliver 1 0]).map (fun w => decide (w.down 1 = [] ∧ w.master.version = 2 ∧
        (w.nodes 1).slaves.map (fun s => (s.reply, s.received.map VersionData.version)) =
          [(some 1, [1])])) = some true := by
    decide +kernel
  obtain ⟨w, hrun, hw⟩ := Option.map_eq_some_iff.1 h
  exact ⟨w, hrun, of_decide_eq_true hw⟩

end Delivery

end Collage.Object
