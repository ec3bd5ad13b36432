import Collage.Object.View

/-!
# Versions in ascending order

The versions a slave has queued, with those on the way to it, ascend up to the head as long as the
messages to its node arrive in order and it is mapped to the head. For an instance that the master
does not know yet these are the commits the node has kept and those on the way.
-/

namespace Collage.Object

variable {S : Type}

structure Ascending (head : ℕ) (versions : List ℕ) : Prop where
  sorted : versions.Pairwise (· ≤ ·)
  le : ∀ v ∈ versions, v ≤ head

theorem Ascending.sublist {head : ℕ} {versions versions' : List ℕ} (h : Ascending head versions)
    (hsub : versions'.Sublist versions) : Ascending head versions' :=
  ⟨h.sorted.sublist hsub, fun v hv => h.le v (hsub.subset hv)⟩

theorem Ascending.append {head head' : ℕ} {versions next : List ℕ} (h : Ascending head versions)
    (hhead : head ≤ head') (hnext : ∀ v ∈ next, v = head') : Ascending head' (versions ++ next) := by
  refine ⟨List.pairwise_append.2 ⟨h.sorted, ?_, fun v hv u hu => ?_⟩, fun v hv => ?_⟩
  · exact List.pairwise_of_forall_mem_list
      (fun v hv u hu => (hnext v hv).trans (hnext u hu).symm |>.le)
  · rw [hnext u hu]
    exact (h.le v hv).trans hhead
  · rcases List.mem_append.1 hv with hv | hv
    · exact (h.le v hv).trans hhead
    · exact (hnext v hv).le

/-- The version an instance of a node gets with a message. -/
def Message.versions (n i : ℕ) : Message → List ℕ
  | .mapData target instanceID is => if target = n ∧ instanceID = i then [is.version] else []
  | .commit is => [is.version]
  | _ => []

def incoming (n i : ℕ) (messages : List Message) : List ℕ :=
  messages.flatMap (Message.versions n i)

section Incoming

variable {n i : ℕ} {message : Message} {messages sent : List Message}

theorem incoming_append (n i : ℕ) (messages sent : List Message) :
    incoming n i (messages ++ sent) = incoming n i messages ++ incoming n i sent :=
  List.flatMap_append

theorem incoming_cons (n i : ℕ) (message : Message) (messages : List Message) :
    incoming n i (message :: messages) = message.versions n i ++ incoming n i messages :=
  List.flatMap_cons

theorem versions_of_addressed {k j : ℕ} (h : message.Addressed k j) (hne : ¬ (k = n ∧ j = i)) :
    message.versions n i = [] := by
  cases message with
  | mapSuccess target requestID instanceID => rfl
  | mapData target instanceID is =>
      refine if_neg (fun he => hne ?_)
      exact ⟨h.1.symm.trans he.1, h.2.symm.trans he.2⟩
  | mapReply reply => rfl
  | commit is => cases h
  | detach instanceID => rfl

theorem incoming_of_addressed {k j : ℕ} (h : ∀ message ∈ sent, message.Addressed k j)
    (hne : ¬ (k = n ∧ j = i)) : incoming n i sent = [] :=
  List.flatMap_eq_nil_iff.2 (fun message hm => versions_of_addressed (h message hm) hne)

theorem incoming_of_detach (h : ∀ message ∈ sent, ∃ j, message = .detach j) :
    incoming n i sent = [] := by
  refine List.flatMap_eq_nil_iff.2 (fun message hm => ?_)
  obtain ⟨j, rfl⟩ := h message hm
  rfl

theorem incoming_of_commit {version : ℕ}
    (h : ∀ message ∈ sent, ∃ is : VersionData, message = .commit is ∧ is.version = version) :
    ∀ v ∈ incoming n i sent, v = version := by
  intro v hv
  obtain ⟨message, hm, hv⟩ := List.mem_flatMap.1 hv
  obtain ⟨is, rfl, hversion⟩ := h message hm
  exact (List.mem_singleton.1 hv).trans hversion

end Incoming

namespace Slave

variable {cls : ObjectClass S} {s s' : Slave S}

theorem foldl_cmdData_eq (s : Slave S) (datas : List VersionData) :
    ∃ received failed, datas.foldl Slave.cmdData s =
      { s with
        queue := s.queue ++ datas
        received := received
        failed := failed } := by
  induction datas generalizing s with
  | nil => exact ⟨s.received, s.failed, by rw [List.append_nil]; rfl⟩
  | cons is datas ih =>
      obtain ⟨received, failed, heq⟩ := ih (s.cmdData is)
      refine ⟨received, failed, heq.trans ?_⟩
      rw [Slave.cmdData, List.append_assoc]
      rfl

theorem Moves.instanceID_eq {ack : Option ℕ} (h : s.Moves cls s' ack) :
    s'.instanceID = s.instanceID := by
  cases h with
  | unmap hidle => rfl
  | sync hidle v => exact congrArg Attached.instanceID (s.log_sync v)
  | advance hadvance => exact congrArg Attached.instanceID (log_advance hadvance)

theorem Moves.queue_sublist {ack : Option ℕ} (h : s.Moves cls s' ack) :
    s'.queue.Sublist s.queue := by
  cases h with
  | unmap hidle => exact List.Sublist.refl _
  | sync hidle v =>
      unfold Slave.sync
      split_ifs <;> exact List.Sublist.refl _
  | advance hadvance =>
      obtain ⟨r, is, queue, -, hqueue, rfl, -⟩ | ⟨-, rfl, -⟩ | ⟨is, queue, -, hqueue, rfl, -⟩ :=
        advance_cases hadvance
      · rw [hqueue, applyMapData]
        split_ifs <;> exact List.sublist_cons_self _ _
      · exact List.Sublist.refl _
      · rw [hqueue]
        exact List.sublist_cons_self _ _

theorem handle_mapReply (s : Slave S) (reply : MapReply) :
    s.handle [] (.mapReply reply) = s.cmdMapReply reply.version := by
  have hcache : s.addInstanceDatas [] reply.version = s := rfl
  simp only [handle, hcache, ite_self]

theorem cmdMapReply_instanceID (s : Slave S) (version : ℕ) :
    (s.cmdMapReply version).instanceID = s.instanceID := by
  unfold cmdMapReply
  cases s.reply <;> rfl

/-- What a slave of a node gets with a message to the node. -/
inductive Gets (n : ℕ) (message : Message) (s : Slave S) : Slave S → Prop
  | nothing (h : message.versions n s.instanceID = []) : Gets n message s s
  | data (is : VersionData) (h : message.versions n s.instanceID = [is.version]) :
      Gets n message s (s.cmdData is)
  | reply {reply : MapReply} (h : message = .mapReply reply) (hnode : reply.node = n)
      (hid : reply.requestID = s.instanceID) : Gets n message s (s.cmdMapReply reply.version)

variable {n : ℕ} {message : Message}

theorem Gets.instanceID_eq (h : s.Gets n message s') : s'.instanceID = s.instanceID := by
  cases h with
  | nothing h => rfl
  | data is h => rfl
  | reply h hnode hid => exact s.cmdMapReply_instanceID _

theorem Gets.versions (h : s.Gets n message s') :
    s'.queue.map VersionData.version =
      s.queue.map VersionData.version ++ message.versions n s.instanceID := by
  cases h with
  | nothing h => rw [h, List.append_nil]
  | data is h =>
      rw [h]
      exact List.map_append
  | reply h hnode hid =>
      rw [cmdMapReply_queue, h]
      exact (List.append_nil _).symm

end Slave

namespace Node

variable {node : Node S} {n : ℕ} {message : Message}

def Flushed (node : Node S) : Prop := node.slaves ≠ [] → node.pending = []

theorem mem_attach (hflushed : node.Flushed) {i : ℕ} {s : Slave S}
    (hs : s ∈ (node.attach i).slaves) :
    s ∈ node.slaves ∨ ∃ r ∈ node.requests, r.instanceID = i ∧
      s = node.pending.foldl Slave.cmdData (Slave.attached i r.maxVersions r.state) := by
  unfold attach at hs
  split at hs
  · exact Or.inl hs
  · next r hr =>
    rw [redispatch, if_neg (by simp)] at hs
    obtain ⟨t, ht, rfl⟩ := List.mem_map.1 hs
    rcases List.mem_append.1 ht with ht | ht
    · rw [hflushed (List.ne_nil_of_mem ht)]
      exact Or.inl ht
    · have hid : r.instanceID = i := Keyed.key_of_lookup hr
      refine Or.inr ⟨r, Keyed.mem_of_lookup hr, hid, ?_⟩
      rw [List.mem_singleton.1 ht, hid]

theorem attach_pending (node : Node S) (i : ℕ) :
    (node.attach i).pending = node.pending ∨ (node.attach i).pending = [] := by
  unfold attach
  split
  · exact Or.inl rfl
  · right
    rw [redispatch, if_neg (by simp)]

theorem Flushed.attach (h : node.Flushed) (i : ℕ) : (node.attach i).Flushed := by
  unfold Node.attach
  split
  · exact h
  · intro _
    rw [redispatch, if_neg (by simp)]

theorem Flushed.receive (h : node.Flushed) (n : ℕ) (message : Message) :
    (node.receive n message).Flushed := by
  have hmap (f : Slave S → Slave S) : Flushed { node with slaves := node.slaves.map f } := by
    intro hne
    exact h (fun hnil => hne (by rw [hnil, List.map_nil]))
  cases message with
  | mapSuccess target requestID instanceID =>
      simp only [Node.receive]
      split_ifs
      · exact h.attach instanceID
      · exact h
  | mapData target instanceID is =>
      simp only [Node.receive]
      split_ifs
      · exact hmap _
      · exact h
  | mapReply reply =>
      simp only [Node.receive]
      split_ifs
      · exact hmap _
      · exact h
  | commit is =>
      simp only [Node.receive]
      split_ifs with hnil
      · exact h
      · exact fun hne => absurd hnil hne
      · exact hmap _
  | detach instanceID =>
      intro hne
      refine h (fun hnil => hne ?_)
      rw [Node.receive, hnil, List.filter_nil]

theorem mem_receive (hflushed : node.Flushed) {s : Slave S}
    (hs : s ∈ (node.receive n message).slaves) :
    (∃ t ∈ node.slaves, t.Gets n message s) ∨
    ∃ i requestID, message = .mapSuccess n requestID i ∧ ∃ r ∈ node.requests, r.instanceID = i ∧
      s = node.pending.foldl Slave.cmdData (Slave.attached i r.maxVersions r.state) := by
  cases message with
  | mapSuccess target requestID instanceID =>
      simp only [receive] at hs
      split_ifs at hs with htarget
      · rcases mem_attach hflushed hs with hs | hs
        · exact Or.inl ⟨s, hs, .nothing rfl⟩
        · exact Or.inr ⟨instanceID, requestID, by rw [htarget], hs⟩
      · exact Or.inl ⟨s, hs, .nothing rfl⟩
  | mapData target instanceID is =>
      simp only [receive] at hs
      split_ifs at hs with htarget
      · obtain ⟨t, ht, rfl⟩ := List.mem_map.1 hs
        refine Or.inl ⟨t, ht, ?_⟩
        by_cases hid : t.instanceID = instanceID
        · rw [if_pos hid]
          exact .data is (if_pos ⟨htarget, hid.symm⟩)
        · rw [if_neg hid]
          exact .nothing (if_neg (fun h => hid h.2.symm))
      · exact Or.inl ⟨s, hs, .nothing (if_neg (fun h => htarget h.1))⟩
  | mapReply reply =>
      simp only [receive] at hs
      split_ifs at hs with htarget
      · obtain ⟨t, ht, rfl⟩ := List.mem_map.1 hs
        refine Or.inl ⟨t, ht, ?_⟩
        by_cases hid : t.instanceID = reply.requestID
        · rw [if_pos hid, t.handle_mapReply]
          exact .reply rfl htarget hid.symm
        · rw [if_neg hid]
          exact .nothing rfl
      · exact Or.inl ⟨s, hs, .nothing rfl⟩
  | commit is =>
      simp only [receive] at hs
      split_ifs at hs with hnil hdata
      · rw [hnil] at hs
        cases hs
      · rw [hnil] at hs
        cases hs
      · obtain ⟨t, ht, rfl⟩ := List.mem_map.1 hs
        exact Or.inl ⟨t, ht, .data is rfl⟩
  | detach instanceID => exact Or.inl ⟨s, (List.mem_filter.1 hs).1, .nothing rfl⟩

theorem receive_pending (node : Node S) (n i : ℕ) (message : Message) :
    ((node.receive n message).pending.map VersionData.version).Sublist
      (node.pending.map VersionData.version ++ message.versions n i) := by
  have hsame : (node.pending.map VersionData.version).Sublist
      (node.pending.map VersionData.version ++ message.versions n i) := List.sublist_append_left _ _
  cases message with
  | mapSuccess target requestID instanceID =>
      simp only [receive]
      split_ifs
      · rcases node.attach_pending instanceID with h | h
        · rw [h]
          exact hsame
        · rw [h]
          exact List.nil_sublist _
      · exact hsame
  | mapData target instanceID is =>
      simp only [receive]
      split_ifs <;> exact hsame
  | mapReply reply =>
      simp only [receive]
      split_ifs <;> exact hsame
  | commit is =>
      simp only [receive]
      split_ifs
      · exact hsame
      · rw [List.map_append]
        exact List.Sublist.refl _
      · exact hsame
  | detach instanceID => exact hsame

theorem receive_requests_sublist (node : Node S) (n : ℕ) (message : Message) :
    (node.receive n message).requests.Sublist node.requests := by
  cases message with
  | mapSuccess target requestID instanceID =>
      simp only [receive]
      split_ifs
      · unfold attach
        split
        · exact List.Sublist.refl _
        · rw [redispatch, if_neg (by simp)]
          exact List.filter_sublist
      · exact List.Sublist.refl _
  | mapData target instanceID is =>
      simp only [receive]
      split_ifs <;> exact List.Sublist.refl _
  | mapReply reply =>
      simp only [receive]
      split_ifs <;> exact List.Sublist.refl _
  | commit is =>
      simp only [receive]
      split_ifs <;> exact List.Sublist.refl _
  | detach instanceID => exact List.Sublist.refl _

theorem mem_set {s t : Slave S} (ht : t ∈ (node.set s).slaves) :
    (t ∈ node.slaves ∧ t.instanceID ≠ s.instanceID) ∨ t = s := by
  rcases Keyed.mem_update ht with h | ⟨u, -, -, rfl⟩
  · exact Or.inl h
  · exact Or.inr rfl

end Node

theorem MasterCM.mem_setLimit {k i limit : ℕ} {slaves : List SlaveData} {d : SlaveData}
    (hd : d ∈ setLimit k i limit slaves) :
    ∃ d' ∈ slaves, d.node = d'.node ∧ d.instanceID = d'.instanceID ∧
      (d.maxVersion = d'.maxVersion ∨
        (d'.node = k ∧ d'.instanceID = i ∧ d.maxVersion = limit)) := by
  induction slaves with
  | nil => cases hd
  | cons e slaves ih =>
      unfold setLimit at hd
      split_ifs at hd with he
      · rcases List.mem_cons.1 hd with rfl | hd
        · exact ⟨e, List.mem_cons_self, rfl, rfl, Or.inr ⟨he.1, he.2, rfl⟩⟩
        · exact ⟨d, List.mem_cons_of_mem _ hd, rfl, rfl, Or.inl rfl⟩
      · rcases List.mem_cons.1 hd with rfl | hd
        · exact ⟨d, List.mem_cons_self, rfl, rfl, Or.inl rfl⟩
        · obtain ⟨d', hd', h⟩ := ih hd
          exact ⟨d', List.mem_cons_of_mem _ hd', h⟩

namespace View

variable {cls : ObjectClass S} {n i : ℕ} {v v' : View S}

/-- The versions that an instance of a node has queued, or would get from the node, with those on the
way to it. -/
structure Ordered (n i : ℕ) (v : View S) : Prop where
  flushed : v.node.Flushed
  pending : Ascending v.version
    (v.node.pending.map VersionData.version ++ incoming n i v.messages)
  slaves : ∀ s ∈ v.node.slaves, s.instanceID = i →
    Ascending v.version (s.queue.map VersionData.version ++ incoming n i v.messages)

theorem Ordered.append_messages (h : v.Ordered n i) {version : ℕ} (hversion : v.version ≤ version)
    {sent : List Message} (hsent : ∀ u ∈ incoming n i sent, u = version) (waited : List ℕ)
    (slaveData : List SlaveData) (up : List Up) :
    Ordered n i ⟨version, waited, slaveData, up, v.messages ++ sent, v.node⟩ := by
  refine ⟨h.flushed, ?_, fun s hs hid => ?_⟩
  · rw [incoming_append, ← List.append_assoc]
    exact h.pending.append hversion hsent
  · rw [incoming_append, ← List.append_assoc]
    exact (h.slaves s hs hid).append hversion hsent

theorem Ordered.deliver (h : v.Ordered n i) {message : Message} {rest : List Message}
    (hmessages : v.messages = message :: rest) :
    Ordered n i { v with messages := rest, node := v.node.receive n message } := by
  have hpending := h.pending
  rw [hmessages, incoming_cons, ← List.append_assoc] at hpending
  refine ⟨h.flushed.receive n message, ?_, fun s hs hid => ?_⟩
  · exact hpending.sublist ((v.node.receive_pending n i message).append_right _)
  · rcases Node.mem_receive h.flushed hs with ⟨t, ht, hgets⟩ | ⟨j, requestID, rfl, r, -, -, rfl⟩
    · have hold := h.slaves t ht (hgets.instanceID_eq.symm.trans hid)
      rw [hmessages, incoming_cons, ← List.append_assoc, ← hid, hgets.instanceID_eq,
        ← hgets.versions] at hold
      rw [← hid, hgets.instanceID_eq]
      exact hold
    · obtain ⟨received, failed, heq⟩ :=
        (Slave.attached j r.maxVersions r.state).foldl_cmdData_eq v.node.pending
      rw [heq]
      exact hpending.sublist ((List.sublist_append_left _ _).append_right _)

theorem Ordered.of_moves (h : v.Ordered n i) (hmoves : v.Moves cls n v')
    (hadd : ∀ command, v.up = .map command :: v'.up → command.instanceID ≠ i) :
    v'.Ordered n i := by
  cases hmoves with
  | stay => exact h
  | wait hwait => exact ⟨h.flushed, h.pending, h.slaves⟩
  | commit hwaited hversion hsent =>
      refine h.append_messages ?_ (incoming_of_commit hsent) _ _ _
      rcases hversion with rfl | ⟨rfl, -⟩
      · exact le_rfl
      · exact Nat.le_succ _
  | request state maxVersions version => exact ⟨h.flushed, h.pending, h.slaves⟩
  | @slave j s s' ack requests hs hmoves hrequests =>
      refine ⟨fun hne => h.flushed (fun hnil => hne ?_), h.pending, fun t ht hid => ?_⟩
      · rw [Node.set, hnil]
        rfl
      · rcases Node.mem_set ht with ⟨ht, -⟩ | rfl
        · exact h.slaves t ht hid
        · have hold := h.slaves s (Keyed.mem_of_lookup hs) (hmoves.instanceID_eq.symm.trans hid)
          exact hold.sublist ((hmoves.queue_sublist.map _).append_right _)
  | deliver hmessages => exact h.deliver hmessages
  | @add k j limit up sent hsent hup =>
      refine h.append_messages le_rfl ?_ _ _ _
      rw [incoming_of_addressed hsent]
      · exact List.forall_mem_nil _
      · rintro ⟨rfl, rfl⟩
        rcases hup with ⟨-, command, hid, hup⟩ | ⟨hne, -⟩
        · exact hadd command hup hid
        · exact hne rfl
  | remove hslaves hup hsent =>
      refine h.append_messages le_rfl ?_ _ _ _
      rw [incoming_of_detach hsent]
      exact List.forall_mem_nil _
  | limit hup hlimit => exact ⟨h.flushed, h.pending, h.slaves⟩
  | disconnect hslaves hnone => exact ⟨fun hne => absurd rfl hne,
      ⟨List.Pairwise.nil, List.forall_mem_nil _⟩, List.forall_mem_nil _⟩

/-- An instance of which the master has not heard yet. -/
structure Unknown (n i : ℕ) (v : View S) : Prop where
  slaveData : ∀ d ∈ v.slaveData, d.node = n → d.instanceID ≠ i
  limits : ∀ limit, .maxVersion i limit ∉ v.up
  slaves : ∀ s ∈ v.node.slaves, s.instanceID ≠ i
  messages : ∀ message ∈ v.messages, ¬ message.Addressed n i

theorem Unknown.append_messages (h : v.Unknown n i) {sent : List Message}
    (hsent : ∀ message ∈ sent, ¬ message.Addressed n i) :
    ∀ message ∈ v.messages ++ sent, ¬ message.Addressed n i := by
  intro message hm
  rcases List.mem_append.1 hm with hm | hm
  · exact h.messages message hm
  · exact hsent message hm

theorem Unknown.of_moves (h : v.Unknown n i) (hflushed : v.node.Flushed) (hmoves : v.Moves cls n v')
    (hadd : ∀ command, v.up = .map command :: v'.up → command.instanceID ≠ i) :
    v'.Unknown n i := by
  cases hmoves with
  | stay => exact h
  | wait hwait => exact ⟨h.slaveData, h.limits, h.slaves, h.messages⟩
  | commit hwaited hversion hsent =>
      refine ⟨h.slaveData, h.limits, h.slaves, h.append_messages (fun message hm => ?_)⟩
      obtain ⟨is, rfl, -⟩ := hsent message hm
      exact not_false
  | request state maxVersions version =>
      refine ⟨h.slaveData, fun limit hlimit => ?_, h.slaves, h.messages⟩
      rcases List.mem_append.1 hlimit with hlimit | hlimit
      · exact h.limits limit hlimit
      · cases List.mem_singleton.1 hlimit
  | @slave j s s' ack requests hs hmoves hrequests =>
      have hj : j ≠ i := by
        rw [← Keyed.key_of_lookup hs]
        exact h.slaves s (Keyed.mem_of_lookup hs)
      refine ⟨h.slaveData, fun limit hlimit => ?_, fun t ht => ?_, h.messages⟩
      · rcases List.mem_append.1 hlimit with hlimit | hlimit
        · exact h.limits limit hlimit
        · rcases hrequests _ hlimit with heq | ⟨l, -, heq⟩
          · cases heq
          · exact hj (Up.maxVersion.inj heq).1.symm
      · rcases Node.mem_set ht with ⟨ht, -⟩ | rfl
        · exact h.slaves t ht
        · rw [hmoves.instanceID_eq]
          exact h.slaves s (Keyed.mem_of_lookup hs)
  | @deliver message rest hmessages =>
      have hfirst : message ∈ v.messages := hmessages ▸ List.mem_cons_self
      refine ⟨h.slaveData, h.limits, fun s hs => ?_, fun message hm => ?_⟩
      · rcases Node.mem_receive hflushed hs with ⟨t, ht, hgets⟩ | ⟨j, requestID, rfl, r, -, -, rfl⟩
        · rw [hgets.instanceID_eq]
          exact h.slaves t ht
        · obtain ⟨received, failed, heq⟩ :=
            (Slave.attached j r.maxVersions r.state).foldl_cmdData_eq v.node.pending
          rw [heq]
          exact fun hj => h.messages _ hfirst ⟨rfl, hj⟩
      · exact h.messages message (hmessages ▸ List.mem_cons_of_mem _ hm)
  | @add k j limit up sent hsent hup =>
      have hne : ¬ (n = k ∧ i = j) := by
        rintro ⟨rfl, rfl⟩
        rcases hup with ⟨-, command, hid, hup⟩ | ⟨hne, -⟩
        · exact hadd command hup hid
        · exact hne rfl
      refine ⟨fun d hd hnode hid => ?_, fun limit hlimit => h.limits limit ?_, h.slaves,
        h.append_messages
          (fun message hm haddressed => hne ((hsent message hm).eq_of_addressed haddressed))⟩
      · rcases List.mem_append.1 hd with hd | hd
        · exact h.slaveData d hd hnode hid
        · rw [List.mem_singleton.1 hd] at hnode hid
          exact hne ⟨hnode.symm, hid.symm⟩
      · rcases hup with ⟨-, command, -, hup⟩ | ⟨-, rfl⟩
        · rw [hup]
          exact List.mem_cons_of_mem _ hlimit
        · exact hlimit
  | remove hslaves hup hsent =>
      refine ⟨fun d hd => h.slaveData d (hslaves.subset hd),
        fun limit hlimit => h.limits limit (hup.subset hlimit), h.slaves,
        h.append_messages (fun message hm => ?_)⟩
      obtain ⟨j, rfl⟩ := hsent message hm
      exact not_false
  | limit hup hlimit =>
      refine ⟨fun d hd hnode hid => ?_, fun limit hlimit => h.limits limit (hup.subset hlimit),
        h.slaves, h.messages⟩
      obtain ⟨d', hd', hnode', hid', -⟩ := MasterCM.mem_setLimit hd
      exact h.slaveData d' hd' (hnode'.symm.trans hnode) (hid'.symm.trans hid)
  | disconnect hslaves hnone =>
      exact ⟨fun d hd hnode => absurd hnode (hnone d hd), fun _ => List.not_mem_nil, nofun, nofun⟩

def commands (up : List Up) : List MasterCommand :=
  up.filterMap (fun request => match request with
    | .map command => some command
    | _ => none)

theorem mem_commands {up : List Up} {command : MasterCommand} :
    command ∈ commands up ↔ .map command ∈ up := by
  unfold commands
  rw [List.mem_filterMap]
  constructor
  · rintro ⟨request, hrequest, hcommand⟩
    cases request with
    | map c =>
        rw [← Option.some.inj hcommand]
        exact hrequest
    | unsubscribe instanceID => cases hcommand
    | maxVersion instanceID version => cases hcommand
  · intro hcommand
    exact ⟨_, hcommand, rfl⟩

theorem requested_eq (up : List Up) :
    requested up = (commands up).map MasterCommand.instanceID := by
  induction up with
  | nil => rfl
  | cons request up ih =>
      cases request with
      | map command => exact congrArg (command.instanceID :: ·) ih
      | unsubscribe instanceID => exact ih
      | maxVersion instanceID version => exact ih

theorem commands_append_of_slave {up requests : List Up} {j : ℕ} {ack : Option ℕ}
    (hrequests : ∀ request ∈ requests, request = .unsubscribe j ∨
      ∃ limit ∈ ack, request = .maxVersion j limit) : commands (up ++ requests) = commands up := by
  have hnone : commands requests = [] := by
    refine List.filterMap_eq_nil_iff.2 (fun request hrequest => ?_)
    rcases hrequests request hrequest with rfl | ⟨limit, -, rfl⟩ <;> rfl
  have happend : commands (up ++ requests) = commands up ++ commands requests :=
    List.filterMap_append
  rw [happend, hnone, List.append_nil]

theorem Moves.requests_cases (h : v.Moves cls n v') :
    (v'.node.nextID = v.node.nextID ∧ v'.node.requests.Sublist v.node.requests ∧
      (commands v'.up).Sublist (commands v.up)) ∨
    (v'.node.nextID = v.node.nextID + 1 ∧ ∃ maxVersions version state,
      v'.node.requests = v.node.requests ++ [⟨v.node.nextID, maxVersions, state⟩] ∧
      commands v'.up = commands v.up ++ [World.mapCommand n v.node maxVersions version]) := by
  cases h with
  | stay => exact Or.inl ⟨rfl, List.Sublist.refl _, List.Sublist.refl _⟩
  | wait hwait => exact Or.inl ⟨rfl, List.Sublist.refl _, List.Sublist.refl _⟩
  | commit hwaited hversion hsent => exact Or.inl ⟨rfl, List.Sublist.refl _, List.Sublist.refl _⟩
  | request state maxVersions version =>
      exact Or.inr ⟨rfl, maxVersions, version, state, rfl, List.filterMap_append⟩
  | slave hs hmoves hrequests =>
      refine Or.inl ⟨rfl, List.Sublist.refl _, ?_⟩
      rw [commands_append_of_slave hrequests]
  | deliver hmessages =>
      exact Or.inl ⟨(v.node.receive_requests n _).1, v.node.receive_requests_sublist n _,
        List.Sublist.refl _⟩
  | add hsent hup =>
      refine Or.inl ⟨rfl, List.Sublist.refl _, ?_⟩
      rcases hup with ⟨-, command, -, hup⟩ | ⟨-, rfl⟩
      · rw [hup]
        exact List.sublist_cons_self _ _
      · exact List.Sublist.refl _
  | remove hslaves hup hsent => exact Or.inl ⟨rfl, List.Sublist.refl _, hup.filterMap _⟩
  | limit hup hlimit => exact Or.inl ⟨rfl, List.Sublist.refl _, hup.filterMap _⟩
  | disconnect hslaves hnone => exact Or.inl ⟨rfl, List.nil_sublist _, List.nil_sublist _⟩

/-- The instances of a node are numbered, and the master has not heard of those that wait. -/
structure Named (n : ℕ) (v : View S) : Prop where
  commands : ∀ command ∈ commands v.up,
    command.node = n ∧ command.requestID = command.instanceID ∧ command.useCache = false
  distinct : (requested v.up).Nodup
  bound : ∀ i ∈ requested v.up, i < v.node.nextID
  requests : ∀ r ∈ v.node.requests, r.instanceID < v.node.nextID ∧
    ∀ command ∈ View.commands v.up, command.instanceID = r.instanceID →
      command.maxVersion = r.maxVersions
  unknown : ∀ i, (v.node.nextID ≤ i ∨ i ∈ requested v.up) → v.Unknown n i ∧ v.Ordered n i
  waited : ∀ t ∈ v.waited, t ≤ v.version

theorem Named.head_ne (h : v.Named n) {command : MasterCommand} {up : List Up}
    (hup : v.up = .map command :: up) (hi : v.node.nextID ≤ i ∨ i ∈ requested up) :
    command.instanceID ≠ i := by
  have hdistinct := h.distinct
  rw [hup] at hdistinct
  rintro rfl
  rcases hi with hi | hi
  · refine absurd (h.bound command.instanceID ?_) (not_lt.2 hi)
    rw [hup]
    exact List.mem_cons_self
  · exact (List.nodup_cons.1 hdistinct).1 hi

theorem Named.waited_moves (h : v.Named n) (hmoves : v.Moves cls n v') :
    ∀ t ∈ v'.waited, t ≤ v'.version := by
  cases hmoves with
  | wait hwait =>
      intro t ht
      rcases List.mem_append.1 ht with ht | ht
      · exact h.waited t ht
      · exact (List.mem_singleton.1 ht).le
  | commit hwaited hversion hsent =>
      intro t ht
      refine (h.waited t (hwaited.subset ht)).trans ?_
      rcases hversion with rfl | ⟨rfl, -⟩
      · exact le_rfl
      · exact Nat.le_succ _
  | stay => exact h.waited
  | request state maxVersions version => exact h.waited
  | slave hs hmoves hrequests => exact h.waited
  | deliver hmessages => exact h.waited
  | add hsent hup => exact h.waited
  | remove hslaves hup hsent => exact h.waited
  | limit hup hlimit => exact h.waited
  | disconnect hslaves hnone => exact h.waited

theorem Named.flushed (h : v.Named n) : v.node.Flushed :=
  (h.unknown v.node.nextID (Or.inl le_rfl)).2.flushed

theorem Named.of_moves (h : v.Named n) (hmoves : v.Moves cls n v') : v'.Named n := by
  have hunknown (hback : ∀ i, v'.node.nextID ≤ i ∨ i ∈ requested v'.up →
      v.node.nextID ≤ i ∨ i ∈ requested v.up) (hnext : v.node.nextID ≤ v'.node.nextID) (i : ℕ)
      (hi : v'.node.nextID ≤ i ∨ i ∈ requested v'.up) : v'.Unknown n i ∧ v'.Ordered n i := by
    obtain ⟨hold, hordered⟩ := h.unknown i (hback i hi)
    have hadd : ∀ command, v.up = .map command :: v'.up → command.instanceID ≠ i :=
      fun command hup => h.head_ne hup (hi.imp_left hnext.trans)
    exact ⟨hold.of_moves h.flushed hmoves hadd, hordered.of_moves hmoves hadd⟩
  obtain ⟨hnext, hrequests, hcommands⟩ | ⟨hnext, maxVersions, version, state, hrequests, hcommands⟩ :=
    hmoves.requests_cases
  · have hrequested : (requested v'.up).Sublist (requested v.up) := by
      rw [requested_eq, requested_eq]
      exact hcommands.map _
    refine ⟨fun command hc => h.commands command (hcommands.subset hc), h.distinct.sublist hrequested,
      fun i hi => ?_, fun r hr => ?_, hunknown (fun i hi => ?_) hnext.ge, h.waited_moves hmoves⟩
    · rw [hnext]
      exact h.bound i (hrequested.subset hi)
    · obtain ⟨hlt, hmax⟩ := h.requests r (hrequests.subset hr)
      rw [hnext]
      exact ⟨hlt, fun command hc => hmax command (hcommands.subset hc)⟩
    · rw [hnext] at hi
      exact hi.imp_right (fun hi => hrequested.subset hi)
  · have hrequested : requested v'.up = requested v.up ++ [v.node.nextID] := by
      rw [requested_eq, requested_eq, hcommands, List.map_append]
      rfl
    have hlt : v.node.nextID < v'.node.nextID := by omega
    refine ⟨fun command hc => ?_, ?_, fun i hi => ?_, fun r hr => ?_,
      hunknown (fun i hi => ?_) hlt.le, h.waited_moves hmoves⟩
    · rw [hcommands] at hc
      rcases List.mem_append.1 hc with hc | hc
      · exact h.commands command hc
      · rw [List.mem_singleton.1 hc]
        exact ⟨rfl, rfl, rfl⟩
    · rw [hrequested]
      refine List.nodup_append_comm.1 (List.nodup_cons.2 ⟨fun hmem => ?_, h.distinct⟩)
      exact lt_irrefl _ (h.bound _ hmem)
    · rw [hrequested] at hi
      rcases List.mem_append.1 hi with hi | hi
      · exact (h.bound i hi).trans hlt
      · rw [List.mem_singleton.1 hi]
        exact hlt
    · rw [hrequests] at hr
      rw [hcommands]
      rcases List.mem_append.1 hr with hr | hr
      · obtain ⟨hr, hmax⟩ := h.requests r hr
        refine ⟨hr.trans hlt, fun command hc hid => ?_⟩
        rcases List.mem_append.1 hc with hc | hc
        · exact hmax command hc hid
        · rw [List.mem_singleton.1 hc] at hid
          exact absurd hid hr.ne'
      · rw [List.mem_singleton.1 hr]
        refine ⟨hlt, fun command hc hid => ?_⟩
        rcases List.mem_append.1 hc with hc | hc
        · refine absurd hid (h.bound _ ?_).ne
          rw [requested_eq]
          exact List.mem_map_of_mem hc
        · rw [List.mem_singleton.1 hc]
          rfl
    · rw [hrequested] at hi
      rcases hi with hi | hi
      · exact Or.inl (hlt.le.trans hi)
      · rcases List.mem_append.1 hi with hi | hi
        · exact Or.inr hi
        · exact Or.inl (List.mem_singleton.1 hi).ge

end View

end Collage.Object
