import Collage.Object.Fed

/-!
# A node and the master

What holds between the master and one of the nodes while the messages to the node arrive in the
order in which they were sent: the instances the node waits for and those the master knows, and the
log of the node now, after each of the messages on the way, and after all of them.
-/

namespace Collage.Object

variable {S : Type}

def requested (up : List Up) : List ℕ :=
  up.filterMap (fun request => match request with
    | .map command => some command.instanceID
    | _ => none)

/-- The instances of a node whose map success is on the way. -/
def successes (n : ℕ) (messages : List Message) : List ℕ :=
  messages.filterMap (fun message => match message with
    | .mapSuccess target _ instanceID => if target = n then some instanceID else none
    | _ => none)

/-- A message to another node of a multicast group. -/
def Message.Foreign (n : ℕ) : Message → Prop
  | .mapSuccess target _ _ => target ≠ n
  | .mapData target _ _ => target ≠ n
  | .mapReply reply => reply.node ≠ n
  | .commit _ => False
  | .detach _ => False

theorem Log.receive_foreign (l : Log) {n : ℕ} {message : Message} (h : message.Foreign n) :
    l.receive n message = l := by
  cases message with
  | mapSuccess target requestID instanceID => exact if_neg h
  | mapData target instanceID is => exact if_neg h
  | mapReply reply => exact if_neg h
  | commit is => cases h
  | detach instanceID => cases h

section

variable (cls : ObjectClass S) (late : Prop) (m : MasterCM S)

/-- The slaves of a log have received what they should, up to some version. -/
structure Log.Good (l : Log) : Prop where
  distinct : (l.attached.map Attached.instanceID).Nodup
  fed : ∀ a ∈ l.attached, ∃ first last blank, a.Fed cls late m first last blank

/-- The slaves of a log are those the master knows, and have received everything. -/
structure Log.Full (n : ℕ) (l : Log) : Prop where
  pending : l.pending = []
  instances : l.attached.map Attached.instanceID = m.instancesOf n
  fed : ∀ a ∈ l.attached, a.reply.isSome = true ∧
    ∃ first blank, a.Fed cls late m first m.version blank

structure Linked (n : ℕ) (up : List Up) (messages : List Message) (node : Node S) : Prop where
  along : Machine.Along (fun l message => Log.receive l n message) (Log.Good cls late m) node.log
    messages
  full : (messages.foldl (fun l message => Log.receive l n message) node.log).Full cls late m n
  requests : node.requests.map MapRequest.instanceID = successes n messages ++ requested up
  distinct : (node.requests.map MapRequest.instanceID).Nodup
  instances : (m.instancesOf n ++ requested up).Nodup
  bound : ∀ i ∈ node.requests.map MapRequest.instanceID ++ m.instancesOf n, i < node.nextID
  commands : ∀ command, Up.map command ∈ up →
    command.node = n ∧ command.requestID = command.instanceID ∧ command.useCache = false

end

variable {cls : ObjectClass S} {late : Prop} {m m' : MasterCM S} {n : ℕ} {up up' : List Up}
  {messages : List Message} {node : Node S} {l : Log}

theorem Log.Good.of_grown (h : l.Good cls late m) (hm : m.Grown m') : l.Good cls late m' := by
  refine ⟨h.distinct, fun a ha => ?_⟩
  obtain ⟨first, last, blank, hfed⟩ := h.fed a ha
  exact ⟨first, last, blank, hfed.of_grown hm⟩

theorem Log.Full.good (h : l.Full cls late m n) (hdistinct : (m.instancesOf n).Nodup) :
    l.Good cls late m := by
  refine ⟨h.instances ▸ hdistinct, fun a ha => ?_⟩
  obtain ⟨-, first, blank, hfed⟩ := h.fed a ha
  exact ⟨first, m.version, blank, hfed⟩

theorem Log.Good.snoc (h : l.Good cls late m) {a : Attached}
    (hnew : a.instanceID ∉ l.attached.map Attached.instanceID)
    (hfed : ∃ first last blank, a.Fed cls late m first last blank) (pending : List VersionData) :
    Log.Good cls late m ⟨l.attached ++ [a], pending⟩ := by
  refine ⟨?_, fun b hb => ?_⟩
  · rw [List.map_append, List.map_singleton]
    exact List.nodup_append_comm.1 (List.nodup_cons.2 ⟨hnew, h.distinct⟩)
  · rcases List.mem_append.1 hb with hb | hb
    · exact h.fed b hb
    · rw [List.mem_singleton.1 hb]
      exact hfed

theorem Log.Full.congr (h : l.Full cls late m n) (hversion : m'.version = m.version)
    (hhistory : m'.history = m.history) (hinstances : m'.instancesOf n = m.instancesOf n) :
    l.Full cls late m' n := by
  refine ⟨h.pending, h.instances.trans hinstances.symm, fun a ha => ?_⟩
  obtain ⟨hreply, first, blank, hfed⟩ := h.fed a ha
  refine ⟨hreply, first, blank, ?_⟩
  rw [hversion]
  exact hfed.of_grown (.of_eq hversion hhistory)

namespace Node

theorem attach_nextID (node : Node S) (instanceID : ℕ) :
    (node.attach instanceID).nextID = node.nextID := by
  unfold attach redispatch
  split
  · rfl
  · split_ifs <;> rfl

theorem attach_requests (node : Node S) (instanceID : ℕ) :
    (node.attach instanceID).requests.map MapRequest.instanceID =
      (node.requests.map MapRequest.instanceID).filter (fun i => i ≠ instanceID) := by
  unfold attach
  split
  · next hnone =>
    refine (List.filter_eq_self.2 (fun i hi => decide_eq_true ?_)).symm
    rintro rfl
    exact Keyed.lookup_eq_none_iff.1 hnone hi
  · next r hr =>
    rw [redispatch, if_neg (by simp), List.filter_map]
    rfl

/-- A message changes the requests of a node only if it is a map success for it. -/
theorem receive_requests (node : Node S) (n : ℕ) (message : Message) :
    (node.receive n message).nextID = node.nextID ∧
      (node.receive n message).requests.map MapRequest.instanceID =
        (node.requests.map MapRequest.instanceID).filter (fun i => i ∉ successes n [message]) := by
  have hall : (node.requests.map MapRequest.instanceID).filter (fun i => i ∉ ([] : List ℕ)) =
      node.requests.map MapRequest.instanceID := List.filter_eq_self.2 (by simp)
  cases message with
  | mapSuccess target requestID instanceID =>
      simp only [receive]
      split_ifs with htarget
      · refine ⟨node.attach_nextID instanceID, (node.attach_requests instanceID).trans ?_⟩
        simp [successes, htarget]
      · refine ⟨rfl, ?_⟩
        simp [successes, htarget]
  | mapData target instanceID is =>
      simp only [receive]
      split_ifs <;> exact ⟨rfl, hall.symm⟩
  | mapReply reply =>
      simp only [receive]
      split_ifs <;> exact ⟨rfl, hall.symm⟩
  | commit is =>
      simp only [receive]
      split_ifs <;> exact ⟨rfl, hall.symm⟩
  | detach instanceID => exact ⟨rfl, hall.symm⟩

end Node

namespace Linked

theorem append_messages (h : Linked cls late m n up messages node) (hm : m.Grown m')
    {sent : List Message} (hsent : ∀ l : Log, l.Full cls late m n → l.Good cls late m →
      Machine.Along (fun l message => Log.receive l n message) (Log.Good cls late m') l sent ∧
      (sent.foldl (fun l message => Log.receive l n message) l).Full cls late m' n)
    (hrequested : successes n sent ++ requested up' = requested up)
    (hinstances : (m'.instancesOf n ++ requested up').Nodup)
    (hbound : ∀ i ∈ m'.instancesOf n, i ∈ m.instancesOf n ++ requested up)
    (hcommands : ∀ command, Up.map command ∈ up' → Up.map command ∈ up) :
    Linked cls late m' n up' (messages ++ sent) node := by
  obtain ⟨halong, hfull⟩ := hsent _ h.full h.along.last
  refine ⟨Machine.along_append.2 ⟨h.along.mono (fun l hl => hl.of_grown hm), halong⟩, ?_, ?_,
    h.distinct, hinstances, fun i hi => ?_, fun command hc => h.commands command (hcommands _ hc)⟩
  · rw [List.foldl_append]
    exact hfull
  · rw [h.requests, successes, successes, List.filterMap_append, List.append_assoc]
    exact congrArg _ hrequested.symm
  · rcases List.mem_append.1 hi with hi | hi
    · exact h.bound i (List.mem_append_left _ hi)
    · rcases List.mem_append.1 (hbound i hi) with hi | hi
      · exact h.bound i (List.mem_append_right _ hi)
      · refine h.bound i (List.mem_append_left _ ?_)
        rw [h.requests]
        exact List.mem_append_right _ hi

theorem along_of_ignored {sent : List Message} (hgood : l.Good cls late m)
    (hignored : ∀ message ∈ sent, l.receive n message = l) :
    Machine.Along (fun l message => Log.receive l n message) (Log.Good cls late m) l sent ∧
      sent.foldl (fun l message => Log.receive l n message) l = l := by
  induction sent with
  | nil => exact ⟨hgood, rfl⟩
  | cons message sent ih =>
      have hreceive := hignored message List.mem_cons_self
      obtain ⟨halong, hfold⟩ := ih (fun message hmessage =>
        hignored message (List.mem_cons_of_mem _ hmessage))
      refine ⟨⟨hgood, ?_⟩, ?_⟩
      · change Machine.Along _ _ (l.receive n message) sent
        rwa [hreceive]
      · rw [List.foldl_cons, hreceive, hfold]

theorem successes_of_foreign {sent : List Message}
    (hforeign : ∀ message ∈ sent, message.Foreign n) : successes n sent = [] := by
  refine List.filterMap_eq_nil_iff.2 (fun message hmessage => ?_)
  cases message with
  | mapSuccess target requestID instanceID => exact if_neg (hforeign _ hmessage)
  | mapData target instanceID is => rfl
  | mapReply reply => rfl
  | commit is => rfl
  | detach instanceID => rfl

/-- The master changes nothing that the slaves of the node see, and sends it messages to others. -/
theorem append_foreign (h : Linked cls late m n up messages node) (hversion : m'.version = m.version)
    (hhistory : m'.history = m.history) (hinstances : m'.instancesOf n = m.instancesOf n)
    {sent : List Message} (hforeign : ∀ message ∈ sent, message.Foreign n)
    (hup : requested up' = requested up)
    (hcommands : ∀ command, Up.map command ∈ up' → Up.map command ∈ up) :
    Linked cls late m' n up' (messages ++ sent) node := by
  have hm : m.Grown m' := .of_eq hversion hhistory
  refine h.append_messages hm (fun l hfull hgood => ?_) ?_ ?_ (fun i hi => ?_) hcommands
  · obtain ⟨halong, hfold⟩ := along_of_ignored (hgood.of_grown hm)
      (fun message hmessage => l.receive_foreign (hforeign message hmessage))
    refine ⟨halong, ?_⟩
    rw [hfold]
    exact hfull.congr hversion hhistory hinstances
  · rw [successes_of_foreign hforeign, hup, List.nil_append]
  · rw [hinstances, hup]
    exact h.instances
  · rw [hinstances] at hi
    exact List.mem_append_left _ hi

theorem commit_unmapped (h : Linked cls late m n up messages node) (hm : m.Grown m')
    (hinstances : m'.instancesOf n = m.instancesOf n) (hnone : m.instancesOf n = [])
    (is : VersionData) {sent : List Message} (hsent : ∀ message ∈ sent, message = .commit is)
    (hdata : is.hasInstanceData = true ∨ sent = []) :
    Linked cls late m' n up (messages ++ sent) node := by
  refine h.append_messages hm (fun l hfull hgood => ?_) ?_ ?_ (fun i hi => ?_) (fun _ => id)
  · have hnil : l.attached = [] := List.map_eq_nil_iff.1 (hfull.instances.trans hnone)
    have hignored : ∀ message ∈ sent, l.receive n message = l := by
      intro message hmessage
      rcases hdata with hdata | rfl
      · rw [hsent message hmessage, Log.receive, if_pos hnil, if_pos hdata]
      · cases hmessage
    obtain ⟨halong, hfold⟩ := along_of_ignored (hgood.of_grown hm) hignored
    refine ⟨halong, ?_⟩
    rw [hfold]
    refine ⟨hfull.pending, hfull.instances.trans hinstances.symm, fun a ha => ?_⟩
    rw [hnil] at ha
    cases ha
  · rw [successes, List.filterMap_eq_nil_iff.2 (fun message hmessage => by
      rw [hsent message hmessage]), List.nil_append]
  · rw [hinstances]
    exact h.instances
  · rw [hinstances] at hi
    exact List.mem_append_left _ hi

theorem commit_mapped (h : Linked cls late m n up messages node) (hm : m.Grown m')
    (hinstances : m'.instancesOf n = m.instancesOf n) (hsome : m.instancesOf n ≠ [])
    (hnext : m'.version = m.version + 1) {is : VersionData} (hversion : is.version = m.version + 1)
    (hright : is.Right cls m'.history) :
    Linked cls late m' n up (messages ++ [.commit is]) node := by
  refine h.append_messages hm (fun l hfull hgood => ?_) rfl ?_ (fun i hi => ?_) (fun _ => id)
  · have hnil : l.attached ≠ [] := by
      intro hnil
      rw [← hfull.instances, hnil] at hsome
      exact hsome rfl
    have hreceive : l.receive n (.commit is) =
        { l with attached := l.attached.map (fun a => a.push is) } := if_neg hnil
    have hfull' : (l.receive n (.commit is)).Full cls late m' n := by
      rw [hreceive]
      refine ⟨hfull.pending, ?_, fun a ha => ?_⟩
      · rw [hinstances, ← hfull.instances, List.map_map]
        rfl
      · obtain ⟨b, hb, rfl⟩ := List.mem_map.1 ha
        obtain ⟨hreply, first, blank, hfed⟩ := hfull.fed b hb
        exact ⟨hreply, first, blank, hfed.push_version hm hnext hversion hright⟩
    refine ⟨⟨hgood.of_grown hm, hfull'.good ?_⟩, hfull'⟩
    rw [hinstances]
    exact (List.nodup_append.1 h.instances).1
  · rw [hinstances]
    exact h.instances
  · rw [hinstances] at hi
    exact List.mem_append_left _ hi

theorem along_mapData {instanceID : ℕ} {datas got : List VersionData}
    (hgood : ∀ k, Log.Good cls late m
      ⟨l.attached ++ [⟨instanceID, (got ++ datas).take k, none⟩], []⟩) :
    Machine.Along (fun l message => Log.receive l n message) (Log.Good cls late m)
        ⟨l.attached ++ [⟨instanceID, got, none⟩], []⟩ (datas.map (Message.mapData n instanceID)) ∧
      (datas.map (Message.mapData n instanceID)).foldl
          (fun l message => Log.receive l n message) ⟨l.attached ++ [⟨instanceID, got, none⟩], []⟩ =
        ⟨l.attached ++ [⟨instanceID, got ++ datas, none⟩], []⟩ := by
  have hgot : Log.Good cls late m ⟨l.attached ++ [⟨instanceID, got, none⟩], []⟩ := by
    have h := hgood got.length
    rwa [List.take_left] at h
  induction datas generalizing got with
  | nil =>
      rw [List.append_nil]
      exact ⟨hgot, rfl⟩
  | cons is datas ih =>
      have hreceive : Log.receive ⟨l.attached ++ [⟨instanceID, got, none⟩], []⟩ n
          (.mapData n instanceID is) =
          ⟨l.attached ++ [⟨instanceID, got ++ [is], none⟩], []⟩ := by
        rw [Log.receive, if_pos rfl, Log.dispatch]
        congr 1
        exact Keyed.update_append_cons (x := Attached.mk instanceID got none) hgot.distinct
      have hgood' := hgood
      rw [← List.singleton_append, ← List.append_assoc] at hgood'
      have hnext := hgood' (got ++ [is]).length
      rw [List.take_left] at hnext
      obtain ⟨halong, hfold⟩ := ih hgood' hnext
      rw [List.append_assoc, List.singleton_append] at hfold
      refine ⟨⟨hgot, ?_⟩, ?_⟩
      · change Machine.Along _ _ (Log.receive _ n (.mapData n instanceID is)) _
        rwa [hreceive]
      · rw [List.map_cons, List.foldl_cons, hreceive]
        exact hfold

theorem along_map (hfull : l.Full cls late m n) (hgood : l.Good cls late m)
    (hversion : m'.version = m.version) (hhistory : m'.history = m.history) {instanceID : ℕ}
    (hnew : instanceID ∉ m.instancesOf n)
    (hinstances : m'.instancesOf n = m.instancesOf n ++ [instanceID]) {datas : List VersionData}
    {reply : MapReply} (hto : reply.node = n) (hid : reply.requestID = instanceID) {first : ℕ}
    {blank : Bool} (hfed : (Attached.mk instanceID datas (some reply.version)).Fed cls late m first
      m.version blank) (requestID : ℕ) :
    Machine.Along (fun l message => Log.receive l n message) (Log.Good cls late m') l
        (.mapSuccess n requestID instanceID :: datas.map (Message.mapData n instanceID) ++
          [.mapReply reply]) ∧
      ((Message.mapSuccess n requestID instanceID :: datas.map (Message.mapData n instanceID) ++
          [Message.mapReply reply]).foldl
            (fun l message => Log.receive l n message) l).Full cls late m'
        n := by
  have hgrown : m.Grown m' := .of_eq hversion hhistory
  rw [← hfull.instances] at hnew
  have hparts (k : ℕ) : Log.Good cls late m'
      ⟨l.attached ++ [⟨instanceID, ([] ++ datas).take k, none⟩], []⟩ :=
    (hgood.of_grown hgrown).snoc hnew ((hfed.of_grown hgrown).take_received k) []
  obtain ⟨halong, hfold⟩ := along_mapData hparts (n := n)
  have hattach : l.receive n (.mapSuccess n requestID instanceID) =
      ⟨l.attached ++ [⟨instanceID, [], none⟩], []⟩ := by
    rw [Log.receive, if_pos rfl, Log.attach, hfull.pending]
    simp
  have hreply : Log.receive ⟨l.attached ++ [⟨instanceID, datas, none⟩], []⟩ n (.mapReply reply) =
      ⟨l.attached ++ [⟨instanceID, datas, some reply.version⟩], []⟩ := by
    rw [Log.receive, if_pos hto, Log.dispatch, hid]
    congr 1
    refine Keyed.update_append_cons (x := Attached.mk instanceID datas none) ?_
    have hlast := (hparts datas.length).distinct
    rwa [List.nil_append, List.take_length] at hlast
  have hfull' : Log.Full cls late m' n
      ⟨l.attached ++ [⟨instanceID, datas, some reply.version⟩], []⟩ := by
    refine ⟨rfl, ?_, fun a ha => ?_⟩
    · rw [hinstances, List.map_append, hfull.instances]
      rfl
    · rw [hversion]
      rcases List.mem_append.1 ha with ha | ha
      · obtain ⟨hreply, first, blank, hfed⟩ := hfull.fed a ha
        exact ⟨hreply, first, blank, hfed.of_grown hgrown⟩
      · rw [List.mem_singleton.1 ha]
        exact ⟨rfl, first, blank, hfed.of_grown hgrown⟩
  rw [List.cons_append, List.foldl_cons, hattach, List.foldl_append, hfold, List.foldl_cons,
    List.nil_append, hreply]
  refine ⟨⟨hgood.of_grown hgrown, ?_⟩, hfull'⟩
  change Machine.Along _ _ (l.receive n (.mapSuccess n requestID instanceID)) _
  rw [hattach, Machine.along_append, hfold, List.nil_append]
  refine ⟨halong, ?_, ?_⟩
  · have hlast := hparts datas.length
    rwa [List.nil_append, List.take_length] at hlast
  · change Log.Good cls late m' (Log.receive _ n (.mapReply reply))
    rw [hreply]
    exact (hgood.of_grown hgrown).snoc hnew ⟨first, m.version, blank, hfed.of_grown hgrown⟩ []

theorem map {command : MasterCommand}
    (h : Linked cls late m n (.map command :: up) messages node) (hm : m.Kept cls)
    (hlate : m.Mappable command.requestedVersion ∨ late) :
    Linked cls late (m.addSlave command) n up
      (messages ++ (m.mapMessages command).map Sent.message) node := by
  obtain ⟨hnode, hrequest, huse⟩ := h.commands command List.mem_cons_self
  obtain ⟨datas, first, blank, hmessages, hfed⟩ := hm.fed_mapMessages huse hlate
  have hinstances : (m.addSlave command).instancesOf n = m.instancesOf n ++ [command.instanceID] := by
    rw [MasterCM.instancesOf_addSlave, if_pos hnode]
  have hrequested : requested (.map command :: up) = command.instanceID :: requested up := rfl
  have hdistinct : (m.instancesOf n ++ [command.instanceID] ++ requested up).Nodup := by
    rw [List.append_assoc, List.singleton_append, ← hrequested]
    exact h.instances
  have hslaves := MasterCM.reslaved_addSlave m command
  have hgrown : m.Grown (m.addSlave command) := .of_eq hslaves.version hslaves.history
  rw [hmessages, hnode, hrequest]
  refine h.append_messages hgrown (fun l hfull hgood => ?_) ?_ ?_ (fun i hi => ?_)
    (fun _ => List.mem_cons_of_mem _)
  · refine along_map hfull hgood hslaves.version hslaves.history (fun hmem => ?_) hinstances rfl rfl
      hfed _
    have hnodup := (List.nodup_append.1 hdistinct).1
    exact (List.nodup_append.1 hnodup).2.2 _ hmem _ (List.mem_singleton_self _) rfl
  · simp [successes, requested]
  · rw [hinstances]
    exact hdistinct
  · rw [hinstances] at hi
    rcases List.mem_append.1 hi with hi | hi
    · exact List.mem_append_left _ hi
    · refine List.mem_append_right _ ?_
      rw [hrequested, List.mem_singleton.1 hi]
      exact List.mem_cons_self

theorem unsubscribe {instanceID : ℕ}
    (h : Linked cls late m n (.unsubscribe instanceID :: up) messages node) :
    Linked cls late (m.removeSlave n instanceID) n up (messages ++ [.detach instanceID]) node := by
  have hslaves := MasterCM.reslaved_removeSlave m n instanceID
  have hgrown : m.Grown (m.removeSlave n instanceID) := .of_eq hslaves.version hslaves.history
  have hinstances :
      (m.removeSlave n instanceID).instancesOf n = (m.instancesOf n).erase instanceID := by
    rw [MasterCM.instancesOf_removeSlave, if_pos rfl]
  have hnodup := List.nodup_append.1 h.instances
  refine h.append_messages hgrown (fun l hfull hgood => ?_) rfl ?_ (fun i hi => ?_)
    (fun _ => List.mem_cons_of_mem _)
  · have hfull' : (l.receive n (.detach instanceID)).Full cls late
      (m.removeSlave n instanceID) n := by
      refine ⟨hfull.pending, ?_, fun a ha => ?_⟩
      · rw [hinstances, ← hfull.instances, hgood.distinct.erase_eq_filter, List.filter_map]
        congr 1
        refine List.filter_congr (fun a _ => ?_)
        simp [bne, Bool.beq_eq_decide_eq]
      · obtain ⟨hreply, first, blank, hfed⟩ := hfull.fed a (List.mem_filter.1 ha).1
        rw [hslaves.version]
        exact ⟨hreply, first, blank, hfed.of_grown hgrown⟩
    refine ⟨⟨hgood.of_grown hgrown, hfull'.good ?_⟩, hfull'⟩
    rw [hinstances]
    exact hnodup.1.erase _
  · rw [hinstances]
    exact h.instances.sublist ((List.erase_sublist).append_right _)
  · rw [hinstances] at hi
    exact List.mem_append_left _ (List.mem_of_mem_erase hi)

theorem successes_cons (n : ℕ) (message : Message) (messages : List Message) :
    successes n (message :: messages) = successes n [message] ++ successes n messages := by
  rw [successes, ← List.singleton_append, List.filterMap_append]
  rfl

theorem deliver {message : Message} (h : Linked cls late m n up (message :: messages) node) :
    Linked cls late m n up messages (node.receive n message) := by
  obtain ⟨hnext, hrequests⟩ := node.receive_requests n message
  have hall := h.requests
  rw [successes_cons, List.append_assoc] at hall
  have hnodup := h.distinct
  rw [hall] at hnodup
  have hrest : (node.receive n message).requests.map MapRequest.instanceID =
      successes n messages ++ requested up := by
    rw [hrequests, hall, List.filter_append, List.filter_eq_nil_iff.2, List.nil_append,
      List.filter_eq_self]
    · intro i hi
      refine decide_eq_true (fun hmem => ?_)
      exact (List.nodup_append.1 hnodup).2.2 i hmem i hi rfl
    · simp
  have hlog : (node.receive n message).log = node.log.receive n message := by
    refine Node.log_receive (fun requestID instanceID hmessage => ?_)
    rw [hall, hmessage]
    exact List.mem_append_left _ (by simp [successes])
  refine ⟨?_, ?_, hrest, ?_, h.instances, fun i hi => ?_, h.commands⟩
  · rw [hlog]
    exact h.along.2
  · rw [hlog]
    exact h.full
  · rw [hrest]
    exact (List.nodup_append.1 hnodup).2.1
  · rw [hnext]
    rw [hrest] at hi
    refine h.bound i ?_
    rw [hall]
    simp only [List.mem_append] at hi ⊢
    tauto

theorem requested_append (up up' : List Up) :
    requested (up ++ up') = requested up ++ requested up' := List.filterMap_append

theorem append_request (h : Linked cls late m n up messages node) (state : S)
    (maxVersions version : ℕ) :
    Linked cls late m n (up ++ [.map (World.mapCommand n node maxVersions version)]) messages
      { node with
        requests := node.requests ++ [⟨node.nextID, maxVersions, state⟩]
        nextID := node.nextID + 1 } := by
  have hrequested : requested (up ++ [.map (World.mapCommand n node maxVersions version)]) =
      requested up ++ [node.nextID] := requested_append up _
  have hrequests : (node.requests ++ [(⟨node.nextID, maxVersions, state⟩ : MapRequest S)]).map
      MapRequest.instanceID = node.requests.map MapRequest.instanceID ++ [node.nextID] :=
    List.map_append
  have hnew : node.nextID ∉ node.requests.map MapRequest.instanceID ++ m.instancesOf n :=
    fun hmem => lt_irrefl _ (h.bound _ hmem)
  refine ⟨h.along, h.full, ?_, ?_, ?_, fun i hi => ?_, fun command hc => ?_⟩
  · rw [hrequests, hrequested, h.requests, List.append_assoc]
  · rw [hrequests]
    refine List.nodup_append_comm.1 (List.nodup_cons.2 ⟨fun hmem => ?_, h.distinct⟩)
    exact hnew (List.mem_append_left _ hmem)
  · rw [hrequested, ← List.append_assoc]
    refine List.nodup_append_comm.1 (List.nodup_cons.2 ⟨fun hmem => hnew ?_, h.instances⟩)
    rcases List.mem_append.1 (show _ ∈ m.instancesOf n ++ requested up from hmem) with hmem | hmem
    · exact List.mem_append_right _ hmem
    · rw [h.requests]
      exact List.mem_append_left _ (List.mem_append_right _ hmem)
  · change i < node.nextID + 1
    rw [hrequests] at hi
    simp only [List.mem_append, List.mem_singleton] at hi
    rcases hi with (hi | rfl) | hi
    · exact (h.bound i (List.mem_append_left _ hi)).trans (Nat.lt_succ_self _)
    · exact Nat.lt_succ_self _
    · exact (h.bound i (List.mem_append_right _ hi)).trans (Nat.lt_succ_self _)
  · rcases List.mem_append.1 hc with hc | hc
    · exact h.commands command hc
    · obtain rfl := Up.map.inj (List.mem_singleton.1 hc)
      exact ⟨rfl, rfl, rfl⟩

theorem fed (h : Linked cls late m n up messages node) {s : Slave S} (hs : s ∈ node.slaves) :
    ∃ first last blank, s.log.Fed cls late m first last blank ∧
      (messages = [] → last = m.version ∧ s.reply.isSome = true) := by
  have hmem : s.log ∈ node.log.attached := List.mem_map_of_mem hs
  cases messages with
  | nil =>
      obtain ⟨hreply, first, blank, hfed⟩ := h.full.fed s.log hmem
      exact ⟨first, m.version, blank, hfed, fun _ => ⟨rfl, hreply⟩⟩
  | cons message messages =>
      obtain ⟨first, last, blank, hfed⟩ := h.along.head.fed s.log hmem
      exact ⟨first, last, blank, hfed, nofun⟩

theorem nodup_slaves (h : Linked cls late m n up messages node) :
    (node.slaves.map Slave.instanceID).Nodup := by
  have hdistinct := h.along.head.distinct
  rwa [Node.log, List.map_map] at hdistinct

theorem set_slave (h : Linked cls late m n up messages node) {instanceID : ℕ} {s s' : Slave S}
    (hs : node.find instanceID = some s) (hlog : s'.log = s.log) {requests : List Up}
    (hrequests : ∀ command, Up.map command ∉ requests) :
    Linked cls late m n (up ++ requests) messages (node.set s') := by
  have hnode := Node.log_set hs hlog h.nodup_slaves
  have hnone : requested requests = [] := by
    refine List.filterMap_eq_nil_iff.2 (fun request hrequest => ?_)
    cases request with
    | map command => exact absurd hrequest (hrequests command)
    | unsubscribe instanceID => rfl
    | maxVersion instanceID version => rfl
  have hrequested : requested (up ++ requests) = requested up := by
    rw [requested_append, hnone, List.append_nil]
  refine ⟨?_, ?_, ?_, h.distinct, ?_, h.bound, fun command hc => ?_⟩
  · rw [hnode]
    exact h.along
  · rw [hnode]
    exact h.full
  · rw [hrequested]
    exact h.requests
  · rw [hrequested]
    exact h.instances
  · exact h.commands command ((List.mem_append.1 hc).resolve_right (hrequests command))

theorem empty (cls : ObjectClass S) (late : Prop) {m : MasterCM S} {n : ℕ}
    (hnone : m.instancesOf n = []) (nextID : ℕ) :
    Linked cls late m n [] [] { Node.empty with nextID := nextID } := by
  refine ⟨⟨List.nodup_nil, nofun⟩, ⟨rfl, hnone.symm, nofun⟩, rfl, List.nodup_nil, ?_,
    fun i hi => ?_, nofun⟩
  · rw [hnone]
    exact List.nodup_nil
  · rw [hnone] at hi
    cases hi

end Linked

end Collage.Object
