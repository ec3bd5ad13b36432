import Collage.Object.Calls
import Collage.Object.Ordered

/-!
# How far the master is ahead of a slave

A slave that is mapped to the head limits the versions of the master to those it has applied and the
number it may queue. It tells the master its limit with the request to map and, with every version it
applies, by an acknowledgement. The limit is checked before a commit takes the lock: it holds if no
other commit gets between the wait and the lock.
-/

namespace Collage.Object

variable {S : Type}

theorem MasterCM.slaveLimit_le (m : MasterCM S) {maxVersion : ℕ} (h : 1 ≤ maxVersion) :
    m.slaveLimit maxVersion ≤ m.version + maxVersion := by
  unfold slaveLimit
  split_ifs with hzero
  · omega
  · rw [Nat.add_comm m.version]
    exact Nat.mod_le _ _
  · exact Nat.le_add_left _ _

/-- A slave that was mapped to version `start` with a limit has applied the version `a`, and those it
gets are not older. -/
structure Slave.Follows (limit start a : ℕ) (versions : List ℕ) (s : Slave S) : Prop where
  limit : s.maxVersions = limit
  mapping : s.reply = none → s.task = .mapping
  unmapped : ¬ s.task.Mapped → a = start ∧ s.version = versionNone
  applying : ∀ r, s.task = .applying r → r = start
  mapped : s.task.Mapped →
    s.version = a ∧ ∀ v ∈ s.queue.map VersionData.version ++ versions, a ≤ v

namespace Slave.Follows

variable {cls : ObjectClass S} {s s' : Slave S} {limit start a head n : ℕ} {versions : List ℕ}

theorem attached (instanceID start : ℕ) (state : S) (limit : ℕ) (pending : List VersionData)
    (versions : List ℕ) :
    (pending.foldl Slave.cmdData (Slave.attached instanceID limit state)).Follows limit start start
      versions := by
  obtain ⟨received, failed, heq⟩ :=
    (Slave.attached instanceID limit state).foldl_cmdData_eq pending
  rw [heq]
  exact ⟨rfl, fun _ => rfl, fun _ => ⟨rfl, rfl⟩, nofun, fun h => absurd rfl h.1⟩

theorem of_gets {message : Message} (h : s.Follows limit start a
      (message.versions n s.instanceID ++ versions))
    (hreply : ∀ reply, message = .mapReply reply → reply.node = n →
      reply.requestID = s.instanceID → reply.version = start)
    (hgets : s.Gets n message s') : s'.Follows limit start a versions := by
  cases hgets with
  | nothing hnone =>
      rw [hnone] at h
      exact h
  | data is hdata =>
      rw [hdata] at h
      refine ⟨h.limit, h.mapping, h.unmapped, h.applying, fun htask => ?_⟩
      obtain ⟨hversion, hle⟩ := h.mapped htask
      refine ⟨hversion, fun v hv => hle v ?_⟩
      change v ∈ (s.queue ++ [is]).map VersionData.version ++ versions at hv
      rwa [List.map_append, List.append_assoc] at hv
  | reply hmessage hnode hid =>
      have hversion := hreply _ hmessage hnode hid
      rw [hmessage] at h
      unfold Slave.cmdMapReply
      cases hr : s.reply with
      | some r => exact h
      | none =>
          have htask := h.mapping hr
          have hmapped : ¬ s.task.Mapped := fun hmapped => hmapped.1 htask
          refine ⟨h.limit, nofun, fun _ => h.unmapped hmapped, fun r htask => ?_, fun hm => ?_⟩
          · rw [← Task.applying.inj htask]
            exact hversion
          · exact absurd rfl (hm.2 _)

theorem set_task (h : s.Follows limit start a versions) (hs : s.task.Mapped) {task : Task}
    (htask : task.Mapped) : Follows limit start a versions { s with task := task } := by
  refine ⟨h.limit, fun hr => ?_, fun hm => absurd htask hm, fun r hr => absurd hr (htask.2 r),
    fun _ => h.mapped hs⟩
  exact absurd (h.mapping hr) hs.1

/-- The application thread makes a step. The limit that it acknowledges is one for the version it has
applied. -/
theorem of_moves (h : s.Follows limit start a versions) (hstart : start ≤ a) (hhead : a ≤ head)
    (hordered : Ascending head (s.queue.map VersionData.version ++ versions)) {ack : Option ℕ}
    (hmoves : s.Moves cls s' ack) :
    ∃ a', a ≤ a' ∧ a' ≤ head ∧ s'.Follows limit start a' versions ∧
      ∀ l ∈ ack, l ≤ a' + limit := by
  have hidle (hidle : s.task = .idle) : s.task.Mapped := by
    rw [hidle]
    exact Task.mapped_idle
  have hnone (b : ℕ) : ∀ l ∈ (none : Option ℕ), l ≤ b + limit := by
    rintro l ⟨⟩
  cases hmoves with
  | unmap htask =>
      exact ⟨a, le_rfl, hhead, h.set_task (hidle htask) Task.mapped_unmapping, hnone a⟩
  | sync htask v =>
      refine ⟨a, le_rfl, hhead, ?_, hnone a⟩
      unfold Slave.sync
      split_ifs
      · exact h
      · exact h.set_task (hidle htask) Task.mapped_heading
      · exact h.set_task (hidle htask) (Task.mapped_syncing _)
      · exact h.set_task (hidle htask) (Task.mapped_syncing _)
  | advance hadvance =>
      obtain ⟨r, is, queue, htask, hqueue, rfl, rfl⟩ | ⟨htask, rfl, rfl⟩ |
        ⟨is, queue, htask, hqueue, rfl, rfl⟩ := advance_cases hadvance
      · refine ⟨a, le_rfl, hhead, ?_, hnone a⟩
        obtain rfl := h.applying r htask
        have hunmapped : ¬ s.task.Mapped := fun hm => hm.2 r htask
        obtain ⟨rfl, hold⟩ := h.unmapped hunmapped
        have hreply : s.reply ≠ none := by
          intro hr
          rw [h.mapping hr] at htask
          cases htask
        rw [hqueue] at hordered
        by_cases hversion : is.version = a
        · rw [Slave.applyMapData, if_pos hversion]
          refine ⟨h.limit, fun hr => absurd hr hreply, fun hm => absurd Task.mapped_idle hm,
            by rintro _ ⟨⟩, fun _ => ⟨rfl, fun v hv => ?_⟩⟩
          rw [← hversion]
          exact (List.pairwise_cons.1 hordered.sorted).1 v hv
        · rw [Slave.applyMapData, if_neg hversion]
          exact ⟨h.limit, fun hr => absurd hr hreply, fun _ => ⟨rfl, hold⟩,
            fun r hr => h.applying r hr, fun hm => absurd htask (hm.2 a)⟩
      · exact ⟨a, le_rfl, hhead, h.set_task htask Task.mapped_idle, hnone a⟩
      · rw [hqueue] at hordered
        obtain ⟨-, hle⟩ := h.mapped htask
        rw [hqueue] at hle
        refine ⟨is.version, hle _ List.mem_cons_self, hordered.le _ List.mem_cons_self, ?_,
          fun l hl => ?_⟩
        · refine ⟨h.limit, fun hr => absurd (h.mapping hr) htask.1, fun hm => absurd htask hm,
            fun r hr => absurd hr (htask.2 r), fun _ => ⟨rfl, fun v hv => ?_⟩⟩
          exact (List.pairwise_cons.1 hordered.sorted).1 v hv
        · unfold Slave.ack at hl
          simp only at hl
          split_ifs at hl
          · cases hl
          · rw [← Option.some.inj hl, ← h.limit]
            exact Nat.mod_le _ _

theorem append (h : s.Follows limit start a versions) {next : List ℕ} (hnext : ∀ v ∈ next, a ≤ v) :
    s.Follows limit start a (versions ++ next) := by
  refine ⟨h.limit, h.mapping, h.unmapped, h.applying, fun htask => ?_⟩
  obtain ⟨hversion, hle⟩ := h.mapped htask
  refine ⟨hversion, fun v hv => ?_⟩
  rw [← List.append_assoc] at hv
  rcases List.mem_append.1 hv with hv | hv
  · exact hle v hv
  · exact hnext v hv

end Slave.Follows

namespace View

variable {cls : ObjectClass S} {n i limit start a : ℕ} {v v' : View S}

/-- The master is at most `limit` versions ahead of what an instance has applied, and everything that
allows it another version keeps to this. -/
structure Bounded (n i limit start a : ℕ) (v : View S) : Prop where
  start_le : start ≤ a
  le_head : a ≤ v.version
  head_le : v.version ≤ a + limit
  limits : ∀ d ∈ v.slaveData, d.node = n → d.instanceID = i → d.maxVersion ≤ a + limit
  acks : ∀ l, .maxVersion i l ∈ v.up → l ≤ a + limit
  waited : ∀ t ∈ v.waited, t + 1 ≤ a + limit
  requests : ∀ r ∈ v.node.requests, r.instanceID = i →
    r.maxVersions = limit ∧ a = start ∧ ∀ s ∈ v.node.slaves, s.instanceID ≠ i
  slaves : ∀ s ∈ v.node.slaves, s.instanceID = i →
    s.Follows limit start a (incoming n i v.messages)
  replies : ∀ reply, .mapReply reply ∈ v.messages → reply.node = n → reply.requestID = i →
    reply.version = start

theorem Bounded.of_slave_moves (h : v.Bounded n i limit start a) (hordered : v.Ordered n i)
    {s s' : Slave S}
    {ack : Option ℕ} {requests : List Up} (hs : v.node.find i = some s) (hmoves : s.Moves cls s' ack)
    (hrequests : ∀ request ∈ requests, request = .unsubscribe i ∨
      ∃ l ∈ ack, request = .maxVersion i l) :
    ∃ a', Bounded n i limit start a' { v with up := v.up ++ requests, node := v.node.set s' } := by
  have hid : s.instanceID = i := Keyed.key_of_lookup hs
  have hmem : s ∈ v.node.slaves := Keyed.mem_of_lookup hs
  obtain ⟨a', hle, hhead, hfollows, hack⟩ := (h.slaves s hmem hid).of_moves h.start_le h.le_head
    (hordered.slaves s hmem hid) hmoves
  have hgrow {l : ℕ} (hl : l ≤ a + limit) : l ≤ a' + limit := hl.trans (Nat.add_le_add_right hle _)
  refine ⟨a', h.start_le.trans hle, hhead, hgrow h.head_le,
    fun d hd hnode hid => hgrow (h.limits d hd hnode hid), fun l hl => ?_,
    fun t ht => hgrow (h.waited t ht), fun r hr hri => ?_, fun t ht hti => ?_, h.replies⟩
  · rcases List.mem_append.1 hl with hl | hl
    · exact hgrow (h.acks l hl)
    · rcases hrequests _ hl with heq | ⟨l', hl', heq⟩
      · cases heq
      · rw [(Up.maxVersion.inj heq).2]
        exact hack l' hl'
  · exact absurd hid ((h.requests r hr hri).2.2 s hmem)
  · rcases Node.mem_set ht with ⟨-, hne⟩ | rfl
    · exact absurd (hti.trans (hmoves.instanceID_eq.trans hid).symm) hne
    · exact hfollows

theorem Bounded.of_other_moves (h : v.Bounded n i limit start a) {j : ℕ} (hne : j ≠ i)
    {s s' : Slave S}
    {ack : Option ℕ} {requests : List Up} (hs : v.node.find j = some s) (hmoves : s.Moves cls s' ack)
    (hrequests : ∀ request ∈ requests, request = .unsubscribe j ∨
      ∃ l ∈ ack, request = .maxVersion j l) :
    Bounded n i limit start a { v with up := v.up ++ requests, node := v.node.set s' } := by
  have hid : s'.instanceID ≠ i := by
    rw [hmoves.instanceID_eq, show s.instanceID = j from Keyed.key_of_lookup hs]
    exact hne
  refine ⟨h.start_le, h.le_head, h.head_le, h.limits, fun l hl => ?_, h.waited, fun r hr hri => ?_,
    fun t ht hti => ?_, h.replies⟩
  · rcases List.mem_append.1 hl with hl | hl
    · exact h.acks l hl
    · rcases hrequests _ hl with heq | ⟨l', -, heq⟩
      · cases heq
      · exact absurd (Up.maxVersion.inj heq).1.symm hne
  · obtain ⟨hmax, ha, hnone⟩ := h.requests r hr hri
    refine ⟨hmax, ha, fun t ht => ?_⟩
    rcases Node.mem_set ht with ⟨ht, -⟩ | rfl
    · exact hnone t ht
    · exact hid
  · rcases Node.mem_set ht with ⟨ht, -⟩ | rfl
    · exact h.slaves t ht hti
    · exact absurd hti hid

theorem Bounded.deliver (h : v.Bounded n i limit start a) (hordered : v.Ordered n i)
    {message : Message} {rest : List Message} (hmessages : v.messages = message :: rest) :
    Bounded n i limit start a { v with messages := rest, node := v.node.receive n message } := by
  have hfirst : message ∈ v.messages := hmessages ▸ List.mem_cons_self
  have hattach {j requestID : ℕ} (hmessage : message = .mapSuccess n requestID j)
      {r : MapRequest S} (hr : r ∈ (v.node.receive n message).requests) : r.instanceID ≠ j := by
    have hids := (v.node.receive_requests n message).2
    have hmem := List.mem_map_of_mem hr (f := MapRequest.instanceID)
    rw [hids, List.mem_filter, hmessage] at hmem
    simpa [successes] using hmem.2
  refine ⟨h.start_le, h.le_head, h.head_le, h.limits, h.acks, h.waited, fun r hr hri => ?_,
    fun s hs hid => ?_, fun reply hreply => h.replies reply ?_⟩
  · obtain ⟨hmax, ha, hnone⟩ := h.requests r
      ((v.node.receive_requests_sublist n message).subset hr) hri
    refine ⟨hmax, ha, fun s hs => ?_⟩
    rcases Node.mem_receive hordered.flushed hs with ⟨t, ht, hgets⟩ |
      ⟨j, requestID, hmessage, q, -, -, rfl⟩
    · rw [hgets.instanceID_eq]
      exact hnone t ht
    · obtain ⟨received, failed, heq⟩ :=
        (Slave.attached j q.maxVersions q.state).foldl_cmdData_eq v.node.pending
      rw [heq]
      exact fun hj => hattach hmessage hr (hri.trans hj.symm)
  · rcases Node.mem_receive hordered.flushed hs with ⟨t, ht, hgets⟩ |
      ⟨j, requestID, hmessage, q, hq, hqj, rfl⟩
    · have htid : t.instanceID = i := hgets.instanceID_eq.symm.trans hid
      have hold := h.slaves t ht htid
      rw [hmessages, incoming_cons, ← htid] at hold
      rw [← htid]
      refine hold.of_gets (fun reply hreply hnode hrequest => ?_) hgets
      exact h.replies reply (hreply ▸ hfirst) hnode (hrequest.trans htid)
    · obtain ⟨received, failed, heq⟩ :=
        (Slave.attached j q.maxVersions q.state).foldl_cmdData_eq v.node.pending
      rw [heq] at hid
      obtain ⟨hmax, ha, -⟩ := h.requests q hq (hqj.trans hid)
      rw [hmax, ha]
      exact .attached j start q.state limit _ _
  · rw [hmessages]
    exact List.mem_cons_of_mem _ hreply

theorem Bounded.append_messages (h : v.Bounded n i limit start a) {version : ℕ} {waited : List ℕ}
    {slaveData : List SlaveData} {up : List Up} {sent : List Message}
    (hle : v.version ≤ version) (hhead : version ≤ a + limit)
    (hlimits : ∀ d ∈ slaveData, d.node = n → d.instanceID = i → d.maxVersion ≤ a + limit)
    (hup : up.Sublist v.up) (hwaited : waited.Sublist v.waited)
    (hsent : ∀ u ∈ incoming n i sent, a ≤ u)
    (hreplies : ∀ reply, .mapReply reply ∈ sent → reply.node = n → reply.requestID ≠ i) :
    Bounded n i limit start a ⟨version, waited, slaveData, up, v.messages ++ sent, v.node⟩ := by
  refine ⟨h.start_le, h.le_head.trans hle, hhead, hlimits, fun l hl => h.acks l (hup.subset hl),
    fun t ht => h.waited t (hwaited.subset ht), h.requests, fun s hs hid => ?_,
    fun reply hreply hnode hid => ?_⟩
  · rw [incoming_append]
    exact (h.slaves s hs hid).append hsent
  · rcases List.mem_append.1 hreply with hreply | hreply
    · exact h.replies reply hreply hnode hid
    · exact absurd hid (hreplies reply hreply hnode)

def Mapped (n i : ℕ) (v : View S) : Prop :=
  ∃ d ∈ v.slaveData, d.node = n ∧ d.instanceID = i

theorem Bounded.minLimit_le (h : v.Bounded n i limit start a) (hmapped : v.Mapped n i) :
    minLimit v.slaveData ≤ a + limit := by
  obtain ⟨d, hd, hnode, hid⟩ := hmapped
  exact (Object.minLimit_le hd).trans (h.limits d hd hnode hid)

theorem Bounded.of_moves (h : v.Bounded n i limit start a) (hordered : v.Ordered n i)
    (hadd : ∀ command, v.up = .map command :: v'.up → command.instanceID ≠ i)
    (hnext : i ≠ v.node.nextID) (hmoves : v.Moves cls n v') (hmapped : v'.Mapped n i) :
    ∃ a', v'.Bounded n i limit start a' := by
  cases hmoves with
  | stay => exact ⟨a, h⟩
  | wait hwait =>
      refine ⟨a, h.start_le, h.le_head, h.head_le, h.limits, h.acks, fun t ht => ?_, h.requests,
        h.slaves, h.replies⟩
      rcases List.mem_append.1 ht with ht | ht
      · exact h.waited t ht
      · rw [List.mem_singleton.1 ht]
        exact hwait.trans (h.minLimit_le hmapped)
  | @commit version waited sent hwaited hversion hsent =>
      have hle : v.version ≤ version := by
        rcases hversion with rfl | ⟨rfl, -⟩
        · exact le_rfl
        · exact Nat.le_succ _
      refine ⟨a, h.append_messages hle ?_ h.limits (List.Sublist.refl _) hwaited (fun u hu => ?_)
        (fun reply hreply => ?_)⟩
      · rcases hversion with rfl | ⟨rfl, hwait | hwait⟩
        · exact h.head_le
        · exact h.waited _ hwait
        · exact hwait.trans (h.minLimit_le hmapped)
      · rw [incoming_of_commit hsent u hu]
        exact h.le_head.trans hle
      · obtain ⟨is, heq, -⟩ := hsent _ hreply
        cases heq
  | request state maxVersions version =>
      refine ⟨a, h.start_le, h.le_head, h.head_le, h.limits, fun l hl => ?_, h.waited,
        fun r hr hri => ?_, h.slaves, h.replies⟩
      · rcases List.mem_append.1 hl with hl | hl
        · exact h.acks l hl
        · cases List.mem_singleton.1 hl
      · rcases List.mem_append.1 hr with hr | hr
        · exact h.requests r hr hri
        · rw [List.mem_singleton.1 hr] at hri
          exact absurd hri.symm hnext
  | @slave j s s' ack requests hs hmoves hrequests =>
      rcases eq_or_ne j i with rfl | hne
      · exact h.of_slave_moves hordered hs hmoves hrequests
      · exact ⟨a, h.of_other_moves hne hs hmoves hrequests⟩
  | deliver hmessages => exact ⟨a, h.deliver hordered hmessages⟩
  | @add k j l up sent hsent hup =>
      have hne : ¬ (n = k ∧ i = j) := by
        rintro ⟨rfl, rfl⟩
        rcases hup with ⟨-, command, hid, hup⟩ | ⟨hne, -⟩
        · exact hadd command hup hid
        · exact hne rfl
      refine ⟨a, h.append_messages le_rfl h.head_le (fun d hd hnode hid => ?_) ?_
        (List.Sublist.refl _) ?_
        (fun reply hreply hnode hid => hne ((hsent _ hreply).eq_of_addressed ⟨hnode, hid⟩))⟩
      · rcases List.mem_append.1 hd with hd | hd
        · exact h.limits d hd hnode hid
        · rw [List.mem_singleton.1 hd] at hnode hid
          exact absurd ⟨hnode.symm, hid.symm⟩ hne
      · rcases hup with ⟨-, command, -, hup⟩ | ⟨-, rfl⟩
        · rw [hup]
          exact List.sublist_cons_self _ _
        · exact List.Sublist.refl _
      · rw [incoming_of_addressed hsent (fun heq => hne ⟨heq.1.symm, heq.2.symm⟩)]
        exact nofun
  | remove hslaves hup hsent =>
      refine ⟨a, h.append_messages le_rfl h.head_le (fun d hd => h.limits d (hslaves.subset hd)) hup
        (List.Sublist.refl _) ?_ (fun reply hreply => ?_)⟩
      · rw [incoming_of_detach hsent]
        exact nofun
      · obtain ⟨j, heq⟩ := hsent _ hreply
        cases heq
  | @limit k j l up hup hlimit =>
      refine ⟨a, h.start_le, h.le_head, h.head_le, fun d hd hnode hid => ?_,
        fun l hl => h.acks l (hup.subset hl), h.waited, h.requests, h.slaves, h.replies⟩
      obtain ⟨d', hd', hnode', hid', hmax | ⟨hk, hj, hmax⟩⟩ := MasterCM.mem_setLimit hd
      · rw [hmax]
        exact h.limits d' hd' (hnode'.symm.trans hnode) (hid'.symm.trans hid)
      · rw [hmax]
        refine h.acks l ?_
        rw [← hid, hid', hj]
        exact hlimit (hk.symm.trans (hnode'.symm.trans hnode))
  | disconnect hslaves hnone =>
      obtain ⟨d, hd, hnode, -⟩ := hmapped
      exact absurd hnode (hnone d hd)

theorem Moves.mapped_before (hmoves : v.Moves cls n v')
    (hadd : ∀ command, v.up = .map command :: v'.up → command.instanceID ≠ i)
    (hmapped : v'.Mapped n i) : v.Mapped n i := by
  obtain ⟨d, hd, hnode, hid⟩ := hmapped
  cases hmoves with
  | @add k j l up sent hsent hup =>
      rcases List.mem_append.1 hd with hd | hd
      · exact ⟨d, hd, hnode, hid⟩
      · rw [List.mem_singleton.1 hd] at hnode hid
        rcases hup with ⟨-, command, hcommand, hup⟩ | ⟨hne, -⟩
        · exact absurd (hcommand.trans hid) (hadd command hup)
        · exact absurd hnode hne
  | remove hslaves hup hsent => exact ⟨d, hslaves.subset hd, hnode, hid⟩
  | limit hup hlimit =>
      obtain ⟨d', hd', hnode', hid', -⟩ := MasterCM.mem_setLimit hd
      exact ⟨d', hd', hnode'.symm.trans hnode, hid'.symm.trans hid⟩
  | disconnect hslaves hnone => exact ⟨d, hslaves.subset hd, hnode, hid⟩
  | stay => exact ⟨d, hd, hnode, hid⟩
  | wait hwait => exact ⟨d, hd, hnode, hid⟩
  | commit hwaited hversion hsent => exact ⟨d, hd, hnode, hid⟩
  | request state maxVersions version => exact ⟨d, hd, hnode, hid⟩
  | slave hs hmoves hrequests => exact ⟨d, hd, hnode, hid⟩
  | deliver hmessages => exact ⟨d, hd, hnode, hid⟩

theorem Named.bounded (h : v.Named n) {command : MasterCommand} {up : List Up}
    (hup : v.up = .map command :: up) {l : ℕ} (hl : l ≤ v.version + command.maxVersion)
    (hlimit : 1 ≤ command.maxVersion) {sent : List Message}
    (hreplies : ∀ reply, .mapReply reply ∈ sent → reply.version = v.version)
    (slaves : List SlaveData) (hslaves : slaves = v.slaveData ++ [⟨n, command.instanceID, l⟩]) :
    Bounded n command.instanceID command.maxVersion v.version v.version
      ⟨v.version, v.waited, slaves, up, v.messages ++ sent, v.node⟩ := by
  have hcommand : command ∈ View.commands v.up := by
    rw [hup]
    exact List.mem_cons_self
  have hrequested : command.instanceID ∈ requested v.up := by
    rw [requested_eq]
    exact List.mem_map_of_mem hcommand
  obtain ⟨hunknown, -⟩ := h.unknown command.instanceID (Or.inr hrequested)
  refine ⟨le_rfl, le_rfl, Nat.le_add_right _ _, fun d hd hnode hid => ?_, fun limit hack => ?_,
    fun t ht => ?_, fun r hr hid => ?_, fun s hs hid => ?_, fun reply hreply hnode hid => ?_⟩
  · rw [hslaves] at hd
    rcases List.mem_append.1 hd with hd | hd
    · exact absurd hid (hunknown.slaveData d hd hnode)
    · rw [List.mem_singleton.1 hd]
      exact hl
  · refine absurd ?_ (hunknown.limits limit)
    rw [hup]
    exact List.mem_cons_of_mem _ hack
  · exact Nat.add_le_add (h.waited t ht) hlimit
  · exact ⟨((h.requests r hr).2 command hcommand hid.symm).symm, rfl, hunknown.slaves⟩
  · exact absurd hid (hunknown.slaves s hs)
  · rcases List.mem_append.1 hreply with hreply | hreply
    · exact absurd ⟨hnode, hid⟩ (hunknown.messages _ hreply)
    · exact hreplies reply hreply

end View

theorem MasterCM.Kept.version_pos {cls : ObjectClass S} {m : MasterCM S} (h : m.Kept cls) :
    versionNone < m.version := by
  obtain ⟨oldest, -, hfirst, hlast, -⟩ := h.datas
  exact Nat.lt_of_lt_of_le Nat.zero_lt_one (hfirst.trans hlast)

theorem MasterCM.Kept.mappable_of_head {cls : ObjectClass S} {m : MasterCM S} (h : m.Kept cls)
    {requested : ℕ} (hhead : m.replyVersion requested = m.version) : m.Mappable requested := by
  have hpos := h.version_pos
  unfold replyVersion startVersion at hhead
  split_ifs at hhead with hnone hold
  · omega
  · rcases hold with hold | hold
    · exact Or.inl hold
    · exact Or.inr ⟨Nat.pos_of_ne_zero hnone, hold.le.trans hhead.le⟩
  · exact Or.inr ⟨Nat.pos_of_ne_zero hnone, hhead.le⟩

theorem MasterCM.Kept.head_messages {cls : ObjectClass S} {m : MasterCM S} (h : m.Kept cls)
    {command : MasterCommand} (huse : command.useCache = false)
    (hhead : m.replyVersion command.requestedVersion = m.version) :
    ∃ datas : List VersionData, (∀ is ∈ datas, is.version = m.version) ∧
      (m.mapMessages command).map Sent.message =
        .mapSuccess command.node command.requestID command.instanceID ::
          datas.map (Message.mapData command.node command.instanceID) ++
          [.mapReply ⟨command.node, command.objectID, m.replyVersion command.requestedVersion,
            command.requestID, true, command.useCache, false⟩] := by
  obtain ⟨datas, first, blank, hmessages, hfed⟩ :=
    h.fed_mapMessages huse (Or.inl (h.mappable_of_head hhead) : _ ∨ False)
  refine ⟨datas, fun is his => ?_, hmessages⟩
  obtain ⟨hblank, hfirst, -⟩ | ⟨hblank, -⟩ | ⟨-, hlate, -⟩ := hfed.reply _ rfl
  · have hmem := List.mem_map_of_mem his (f := VersionData.version)
    rw [show datas.map VersionData.version = _ from hfed.versions, hblank, if_neg Bool.false_ne_true,
      List.nil_append, ← hfirst, hhead, interval_self] at hmem
    exact List.mem_singleton.1 hmem
  · exact absurd (hfed.unversioned hblank) not_false
  · exact absurd hlate not_false

/-- The version a slave has applied, or else the one it is mapped to. -/
def Slave.applied (s : Slave S) (start : ℕ) : ℕ :=
  if s.version = versionNone then start else s.version

namespace World

variable {cls : ObjectClass S} {groups : ℕ → Option ℕ} {w w' : World S} {e : Event S}
  {n i limit start : ℕ}

structure Numbered (cls : ObjectClass S) (n : ℕ) (w : World S) : Prop where
  kept : w.master.Kept cls
  commands : ∀ k command, .map command ∈ w.up k →
    command.node = k ∧ command.requestID = command.instanceID
  named : (w.view n).Named n

theorem numbered_start (cls : ObjectClass S) (n : ℕ) (s : S) (instanceID : ℕ) :
    (World.start cls s instanceID).Numbered cls n := by
  refine ⟨.init cls s instanceID, fun _ => nofun, ⟨nofun, List.nodup_nil, nofun, nofun,
    fun i _ => ⟨⟨nofun, fun _ => List.not_mem_nil, nofun, nofun⟩, fun _ => rfl, ?_, nofun⟩, nofun⟩⟩
  exact ⟨List.Pairwise.nil, nofun⟩

theorem Paced.of_ne_deliver (h : w.Paced n e) (hdeliver : ∀ node index, e ≠ .deliver node index)
    (k : ℕ) : w.Paced k e := by
  cases e with
  | deliver node index => exact absurd rfl (hdeliver node index)
  | _ => exact h

theorem Numbered.step (h : w.Numbered cls n) (hpaced : w.Paced n e)
    (hstep : w.step cls groups e = some w') : w'.Numbered cls n := by
  refine ⟨kept_step h.kept hpaced hstep, fun k command hcommand => ?_,
    h.named.of_moves (view_step h.kept h.commands hpaced hstep)⟩
  by_cases hdeliver : ∃ node index, e = .deliver node index
  · obtain ⟨node, index, rfl⟩ := hdeliver
    simp only [World.step, deliver] at hstep
    split at hstep
    · cases hstep
    · split_ifs at hstep
      obtain rfl := Option.some.inj hstep
      exact h.commands k command hcommand
  · have hpacedk : w.Paced k e :=
      hpaced.of_ne_deliver (fun node index he => hdeliver ⟨node, index, he⟩) k
    have hmem : command ∈ View.commands (w'.view k).up := View.mem_commands.2 hcommand
    obtain ⟨-, -, hsub⟩ | ⟨-, maxVersions, version, state, -, heq⟩ :=
      (view_step h.kept h.commands hpacedk hstep).requests_cases
    · exact h.commands k command (View.mem_commands.1 (hsub.subset hmem))
    · rw [heq] at hmem
      rcases List.mem_append.1 hmem with hmem | hmem
      · exact h.commands k command (View.mem_commands.1 hmem)
      · rw [List.mem_singleton.1 hmem]
        exact ⟨rfl, rfl⟩

/-- An instance whose request to map it to the head was handled. -/
structure Lagged (cls : ObjectClass S) (n i limit start : ℕ) (w : World S) : Prop where
  numbered : w.Numbered cls n
  served : i ∉ requested (w.up n)
  lt : i < (w.nodes n).nextID
  ordered : (w.view n).Ordered n i
  bounded : (w.view n).Mapped n i → ∃ a, (w.view n).Bounded n i limit start a

theorem Lagged.step (h : w.Lagged cls n i limit start) (hpaced : w.Paced n e)
    (hstep : w.step cls groups e = some w') : w'.Lagged cls n i limit start := by
  have hmoves := view_step h.numbered.kept h.numbered.commands hpaced hstep
  have hadd : ∀ command, (w.view n).up = .map command :: (w'.view n).up →
      command.instanceID ≠ i := by
    rintro command hup rfl
    refine h.served ?_
    rw [show w.up n = _ from hup]
    exact List.mem_cons_self
  refine ⟨h.numbered.step hpaced hstep, fun hi => ?_, ?_, h.ordered.of_moves hmoves hadd,
    fun hmapped => ?_⟩
  · rw [View.requested_eq] at hi
    have hserved := h.served
    rw [View.requested_eq] at hserved
    obtain ⟨-, -, hsub⟩ | ⟨-, maxVersions, version, state, -, heq⟩ := hmoves.requests_cases
    · exact hserved ((hsub.map _).subset hi)
    · rw [show View.commands (w'.up n) = _ from heq, List.map_append] at hi
      rcases List.mem_append.1 hi with hi | hi
      · exact hserved hi
      · exact h.lt.ne (List.mem_singleton.1 hi)
  · obtain ⟨hnext, -⟩ | ⟨hnext, -⟩ := hmoves.requests_cases
    · exact h.lt.trans_eq hnext.symm
    · exact h.lt.trans (Nat.lt_of_succ_le hnext.ge)
  · obtain ⟨a, hbounded⟩ := h.bounded (hmoves.mapped_before hadd hmapped)
    exact hbounded.of_moves h.ordered hadd h.lt.ne hmoves hmapped

theorem Numbered.lagged (h : w.Numbered cls n) {command : MasterCommand} {rest : List Up}
    (hup : w.up n = .map command :: rest)
    (hhead : w.master.replyVersion command.requestedVersion = w.master.version)
    (hlimit : 1 ≤ command.maxVersion) (hstep : w.step cls groups (.serve n) = some w') :
    w'.Lagged cls n command.instanceID command.maxVersion w.master.version := by
  have hcommand : command ∈ View.commands (w.view n).up := by
    rw [show (w.view n).up = _ from hup]
    exact List.mem_cons_self
  have hrequested : command.instanceID ∈ requested (w.up n) := by
    rw [View.requested_eq]
    exact List.mem_map_of_mem hcommand
  obtain ⟨hnode, -, huse⟩ := h.named.commands command hcommand
  obtain ⟨-, hordered⟩ := h.named.unknown command.instanceID (Or.inr hrequested)
  obtain ⟨datas, hdatas, hmessages⟩ := h.kept.head_messages huse hhead
  have hpaced : w.Paced n (.serve n) := trivial
  have hnumbered : w'.Numbered cls n := h.step hpaced hstep
  have hdistinct := h.named.distinct
  have hbound := h.named.bound command.instanceID hrequested
  rw [show (w.view n).up = _ from hup] at hdistinct
  simp only [World.step, hup] at hstep
  obtain rfl := Option.some.inj hstep
  have hview : (({ w with up := Function.update w.up n rest }).serve groups n (.map command)).view n =
      ⟨w.master.version, w.waited, w.master.slaveData ++
          [⟨n, command.instanceID, w.master.slaveLimit command.maxVersion⟩], rest,
        (w.view n).messages ++ (w.master.mapMessages command).map Sent.message, w.nodes n⟩ := by
    unfold view
    simp only [serve, Function.update_self, sendAll_self]
    rw [← hnode]
    rfl
  refine ⟨hnumbered, ?_, hbound, ?_, fun _ => ⟨w.master.version, ?_⟩⟩
  · simp only [serve, Function.update_self]
    exact (List.nodup_cons.1 hdistinct).1
  · rw [hview, hmessages]
    refine hordered.append_messages le_rfl (fun u hu => ?_) _ _ _
    obtain ⟨message, hm, hu⟩ := List.mem_flatMap.1 hu
    simp only [List.cons_append, List.mem_cons, List.mem_append, List.mem_map, List.not_mem_nil,
      or_false] at hm
    obtain rfl | ⟨is, his, rfl⟩ | rfl := hm
    · cases hu
    · rw [Message.versions, if_pos ⟨hnode, rfl⟩] at hu
      rw [List.mem_singleton.1 hu]
      exact hdatas is his
    · cases hu
  · rw [hview, hmessages]
    refine h.named.bounded hup (w.master.slaveLimit_le hlimit) hlimit (fun reply hreply => ?_) _ rfl
    simp only [List.cons_append, List.mem_cons, List.mem_append, List.mem_map, List.not_mem_nil,
      or_false, reduceCtorEq, false_or, and_false, exists_false, Message.mapReply.injEq] at hreply
    rw [hreply]
    exact hhead

/-- While an instance that was mapped to the head stays mapped, the master is at most `maxVersion`
versions ahead of what it has applied. -/
theorem version_le_applied {s : S} {instanceID : ℕ} {es es' : List (Event S)} {w₁ : World S}
    (hok : Machine.Steps (World.step cls groups) (Paced n) (World.start cls s instanceID) es)
    (hrun : Machine.run (World.step cls groups) (World.start cls s instanceID) es = some w₁)
    {command : MasterCommand} {rest : List Up} (hup : w₁.up n = .map command :: rest)
    (hhead : w₁.master.replyVersion command.requestedVersion = w₁.master.version)
    (hlimit : 1 ≤ command.maxVersion)
    (hok' : Machine.Steps (World.step cls groups) (Paced n) w₁ (.serve n :: es'))
    (hrun' : Machine.run (World.step cls groups) w₁ (.serve n :: es') = some w)
    (hmapped : command.instanceID ∈ w.master.instancesOf n) :
    (∀ r ∈ (w.nodes n).requests, r.instanceID = command.instanceID →
      w.master.version ≤ w₁.master.version + command.maxVersion) ∧
    ∀ slave ∈ (w.nodes n).slaves, slave.instanceID = command.instanceID →
      w.master.version ≤ slave.applied w₁.master.version + command.maxVersion := by
  have hnumbered : w₁.Numbered cls n := Machine.run_invariant (Numbered cls n)
    (fun _ _ _ h hpaced hstep => h.step hpaced hstep) (numbered_start cls n s instanceID) hok hrun
  obtain ⟨w₂, hserve, hrest⟩ := (Machine.run_cons_eq_some _).1 hrun'
  have hlagged : w.Lagged cls n command.instanceID command.maxVersion w₁.master.version :=
    Machine.run_invariant (Lagged cls n command.instanceID command.maxVersion w₁.master.version)
      (fun _ _ _ h hpaced hstep => h.step hpaced hstep)
      (hnumbered.lagged hup hhead hlimit hserve) (hok'.2 w₂ hserve) hrest
  obtain ⟨d, hd, hid⟩ := List.mem_map.1 hmapped
  obtain ⟨hd, hnode⟩ := List.mem_filter.1 hd
  obtain ⟨a, hbounded⟩ := hlagged.bounded ⟨d, hd, by simpa using hnode, hid⟩
  have hle : w.master.version ≤ a + command.maxVersion := hbounded.head_le
  refine ⟨fun r hr hri => ?_, fun slave hslave hsi => ?_⟩
  · rw [← (hbounded.requests r hr hri).2.1]
    exact hle
  · have hfollows := hbounded.slaves slave hslave hsi
    unfold Slave.applied
    by_cases htask : slave.task.Mapped
    · have hversion : slave.version = a := (hfollows.mapped htask).1
      have hstart := hbounded.start_le
      have hne : slave.version ≠ versionNone := by
        rw [hversion]
        exact (hnumbered.kept.version_pos.trans_le hstart).ne'
      rw [if_neg hne, hversion]
      exact hle
    · obtain ⟨ha, hnone⟩ := hfollows.unmapped htask
      rw [if_pos hnone, ← ha]
      exact hle

/-- A slave with a limit of one version, and a commit. -/
theorem version_le_applied_after_commit : ∃ w₁ w,
    Machine.run (World.step (ObjectClass.byte .full) (fun _ => none))
        (World.start (ObjectClass.byte .full) 3 0) [.map 1 0 1 versionOldest] = some w₁ ∧
    Machine.run (World.step (ObjectClass.byte .full) (fun _ => none)) w₁
        [.serve 1, .deliver 1 0, .deliver 1 0, .deliver 1 0, .advance 1 0, .modify 5, .wait,
          .commit 0 commitNext] = some w ∧
    ∃ slave ∈ (w.nodes 1).slaves, slave.instanceID = 0 ∧
      w.master.version ≤ slave.applied w₁.master.version + 1 := by
  have hok : Machine.Steps (World.step (ObjectClass.byte .full) (fun _ => none)) (Paced 1)
      (World.start (ObjectClass.byte .full) 3 0) [.map 1 0 1 versionOldest] := by
    decide +kernel
  have hok' : Machine.Steps (World.step (ObjectClass.byte .full) (fun _ => none)) (Paced 1)
      ((World.start (ObjectClass.byte .full) 3 0).mapObject 1 0 1 versionOldest)
      [.serve 1, .deliver 1 0, .deliver 1 0, .deliver 1 0, .advance 1 0, .modify 5, .wait,
        .commit 0 commitNext] := by
    decide +kernel
  refine ⟨_, _, rfl, rfl, _, List.mem_singleton_self _, rfl, ?_⟩
  exact (version_le_applied hok rfl rfl (by decide +kernel) le_rfl hok' rfl (by decide +kernel)).2 _
    (List.mem_singleton_self _) rfl

/-- Two commits wait at the same version and both make a new one. -/
theorem version_exceeds_applied : ∃ w₁ command w,
    Machine.run (World.step (ObjectClass.byte .full) (fun _ => none))
        (World.start (ObjectClass.byte .full) 3 0) [.map 1 0 1 versionOldest] = some w₁ ∧
    w₁.up 1 = [.map command] ∧ command.maxVersion = 1 ∧
    w₁.master.replyVersion command.requestedVersion = w₁.master.version ∧
    Machine.Steps (World.step (ObjectClass.byte .full) (fun _ => none))
        (fun w e => w.Consistent e ∧ Oldest e) w₁
        [.serve 1, .deliver 1 0, .deliver 1 0, .deliver 1 0, .advance 1 0, .modify 5, .wait, .wait,
          .commit 0 commitNext, .modify 7, .commit 0 commitNext] ∧
    Machine.run (World.step (ObjectClass.byte .full) (fun _ => none)) w₁
        [.serve 1, .deliver 1 0, .deliver 1 0, .deliver 1 0, .advance 1 0, .modify 5, .wait, .wait,
          .commit 0 commitNext, .modify 7, .commit 0 commitNext] = some w ∧
    command.instanceID ∈ w.master.instancesOf 1 ∧
    ∃ slave ∈ (w.nodes 1).slaves, slave.instanceID = command.instanceID ∧ slave.task = .idle ∧
      slave.version + 1 < w.master.version := by
  refine ⟨_, _, _, rfl, rfl, rfl, by decide +kernel, by decide +kernel, rfl, by decide +kernel, _,
    List.mem_singleton_self _, rfl, rfl, by decide +kernel⟩

end World

end Collage.Object
