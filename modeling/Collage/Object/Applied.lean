import Collage.Object.InOrder

/-!
# What a slave has applied

The application thread of a slave takes versions from the queue of the receiver thread. What it has
taken, with what it has received, determines its version and its state. This is so in every run,
whatever the slave is sent.
-/

namespace Collage.Object

variable {S : Type}

/-- What `_unpackOneVersion` makes of a state. -/
def VersionData.unpackOn (cls : ObjectClass S) (is : VersionData) (state : S) : S :=
  if is.hasInstanceData then cls.applyInstanceData is.data state else cls.unpack is.data state

/-- What `applyMapData` makes of a state. -/
def VersionData.mapOn (cls : ObjectClass S) (is : VersionData) (state : S) : S :=
  if is.data ≠ [] then cls.applyInstanceData is.data state else state

/-- A slave that was mapped to version `r` has taken a list of versions, and is at a version and in a
state. -/
inductive Ran (cls : ObjectClass S) (r : ℕ) : List VersionData → ℕ → S → Prop
  | mapped {skipped : List VersionData} {is : VersionData} (state : S)
      (hskipped : ∀ other ∈ skipped, other.version ≠ r) (his : is.version = r) :
      Ran cls r (skipped ++ [is]) r (is.mapOn cls state)
  | next {taken : List VersionData} {v : ℕ} {state : S} (is : VersionData)
      (h : Ran cls r taken v state) : Ran cls r (taken ++ [is]) is.version (is.unpackOn cls state)

structure Slave.Applied (cls : ObjectClass S) (s : Slave S) (taken : List VersionData) : Prop where
  received : s.received = taken ++ s.queue
  mapping : s.task = .mapping → taken = [] ∧ s.version = versionNone ∧ s.reply = none
  applying : ∀ r, s.task = .applying r →
    s.reply = some r ∧ s.version = versionNone ∧ ∀ is ∈ taken, is.version ≠ r
  mapped : s.task.Mapped → ∃ r, s.reply = some r ∧ Ran cls r taken s.version s.state
  failed : .unpackedNext ∈ s.failed → ∃ r before is after v state, s.reply = some r ∧
    taken = before ++ is :: after ∧ Ran cls r before v state ∧ v + 1 ≠ is.version ∧ v ≠ versionNone

namespace Slave

variable {cls : ObjectClass S} {s s' : Slave S} {taken : List VersionData}

theorem mem_failed_check {p : Prop} [Decidable p] {a b : Assertion} {failed : List Assertion}
    (h : b ∈ failed ++ check p a) : b ∈ failed ∨ (b = a ∧ ¬ p) := by
  rcases List.mem_append.1 h with h | h
  · exact Or.inl h
  · unfold check at h
    split_ifs at h with hp
    · cases h
    · exact Or.inr ⟨List.mem_singleton.1 h, hp⟩

theorem applied_attached (cls : ObjectClass S) (instanceID maxVersions : ℕ) (state : S) :
    (attached instanceID maxVersions state).Applied cls [] :=
  ⟨rfl, fun _ => ⟨rfl, rfl, rfl⟩, nofun, fun h => absurd rfl h.1, nofun⟩

theorem Applied.cmdData (h : s.Applied cls taken) (is : VersionData) :
    (s.cmdData is).Applied cls taken := by
  refine ⟨?_, h.mapping, h.applying, h.mapped, fun hfailed => ?_⟩
  · change s.received ++ [is] = taken ++ (s.queue ++ [is])
    rw [h.received, List.append_assoc]
  · rcases mem_failed_check hfailed with hfailed | ⟨hne, -⟩
    · exact h.failed hfailed
    · cases hne

theorem Applied.foldl_cmdData (h : s.Applied cls taken) (datas : List VersionData) :
    (datas.foldl Slave.cmdData s).Applied cls taken := by
  induction datas generalizing s with
  | nil => exact h
  | cons is datas ih => exact ih (h.cmdData is)

theorem Applied.cmdMapReply (h : s.Applied cls taken) (version : ℕ) :
    (s.cmdMapReply version).Applied cls taken := by
  unfold Slave.cmdMapReply
  cases hreply : s.reply with
  | some r => exact h
  | none =>
      have htask : s.task = .mapping := by
        by_contra hne
        by_cases happlying : ∃ r, s.task = .applying r
        · obtain ⟨r, hr⟩ := happlying
          have hsome := (h.applying r hr).1
          rw [hreply] at hsome
          cases hsome
        · obtain ⟨r, hsome, -⟩ := h.mapped ⟨hne, fun r hr => happlying ⟨r, hr⟩⟩
          rw [hreply] at hsome
          cases hsome
      obtain ⟨rfl, hversion, -⟩ := h.mapping htask
      refine ⟨h.received, nofun, fun r hr => ?_, fun hmapped => absurd rfl (hmapped.2 version),
        fun hfailed => ?_⟩
      · cases hr
        exact ⟨rfl, hversion, nofun⟩
      · obtain ⟨r, before, is, after, v, state, hsome, -⟩ := h.failed hfailed
        rw [hreply] at hsome
        cases hsome

theorem Applied.handle (h : s.Applied cls taken) (message : Message) :
    (s.handle [] message).Applied cls taken := by
  cases message with
  | mapSuccess node requestID instanceID => exact h
  | mapData node instanceID is => exact h.cmdData is
  | mapReply reply =>
      have hcache : s.addInstanceDatas [] reply.version = s := rfl
      simp only [Slave.handle, hcache, ite_self]
      exact h.cmdMapReply reply.version
  | commit is => exact h.cmdData is
  | detach instanceID => exact h

theorem Applied.set_task (h : s.Applied cls taken) (hs : s.task.Mapped) {task : Task}
    (htask : task.Mapped) : Applied cls { s with task := task } taken :=
  ⟨h.received, fun he => absurd he htask.1, fun r hr => absurd hr (htask.2 r), fun _ => h.mapped hs,
    h.failed⟩

theorem Applied.sync (h : s.Applied cls taken) (hidle : s.task = .idle) (v : ℕ) :
    (s.sync v).Applied cls taken := by
  have hmapped : s.task.Mapped := by
    rw [hidle]
    exact ⟨nofun, nofun⟩
  unfold Slave.sync
  split_ifs
  · exact h
  · exact h.set_task hmapped ⟨nofun, nofun⟩
  · exact h.set_task hmapped ⟨nofun, nofun⟩
  · exact h.set_task hmapped ⟨nofun, nofun⟩

theorem Applied.applyMapData (h : s.Applied cls taken) {r : ℕ} (htask : s.task = .applying r)
    {is : VersionData} {queue : List VersionData} (hqueue : s.queue = is :: queue) :
    (s.applyMapData cls r is queue).Applied cls (taken ++ [is]) := by
  obtain ⟨hreply, hversion, hskipped⟩ := h.applying r htask
  have hreceived : s.received = taken ++ [is] ++ queue := by
    rw [h.received, hqueue, List.append_assoc, List.singleton_append]
  have hfailed (hmem : Assertion.unpackedNext ∈ s.failed) : ∃ r before is' after v state,
      s.reply = some r ∧ taken ++ [is] = before ++ is' :: after ∧ Ran cls r before v state ∧
      v + 1 ≠ is'.version ∧ v ≠ versionNone := by
    obtain ⟨r, before, is', after, v, state, hsome, rfl, hran⟩ := h.failed hmem
    exact ⟨r, before, is', after ++ [is], v, state, hsome, by simp, hran⟩
  by_cases his : is.version = r
  · rw [Slave.applyMapData, if_pos his]
    refine ⟨hreceived, nofun, nofun, fun _ => ⟨r, hreply, .mapped s.state hskipped his⟩,
      fun hmem => ?_⟩
    rcases mem_failed_check hmem with hmem | ⟨hne, -⟩
    · exact hfailed hmem
    · cases hne
  · rw [Slave.applyMapData, if_neg his]
    refine ⟨hreceived, fun he => ?_, fun r' hr' => ?_, fun hmapped => absurd htask (hmapped.2 r),
      fun hmem => ?_⟩
    · rw [show s.task = .mapping from he] at htask
      cases htask
    · rw [show s.task = .applying r' from hr'] at htask
      cases htask
      refine ⟨hreply, hversion, fun other hother => ?_⟩
      rcases List.mem_append.1 hother with hother | hother
      · exact hskipped other hother
      · rw [List.mem_singleton.1 hother]
        exact his
    · rcases mem_failed_check hmem with hmem | ⟨hne, -⟩
      · exact hfailed hmem
      · cases hne

theorem Applied.unpackOneVersion (h : s.Applied cls taken) (htask : s.task.Mapped)
    {is : VersionData} {queue : List VersionData} (hqueue : s.queue = is :: queue) :
    (s.unpackOneVersion cls is queue).Applied cls (taken ++ [is]) := by
  obtain ⟨r, hreply, hran⟩ := h.mapped htask
  refine ⟨?_, fun he => absurd he htask.1, fun r' hr' => absurd hr' (htask.2 r'),
    fun _ => ⟨r, hreply, .next is hran⟩, fun hmem => ?_⟩
  · change s.received = taken ++ [is] ++ queue
    rw [h.received, hqueue, List.append_assoc, List.singleton_append]
  · rcases mem_failed_check hmem with hmem | ⟨-, hnot⟩
    · obtain ⟨r, before, is', after, v, state, hsome, rfl, hbefore⟩ := h.failed hmem
      exact ⟨r, before, is', after ++ [is], v, state, hsome, by simp, hbefore⟩
    · rw [not_or] at hnot
      exact ⟨r, taken, is, [], s.version, s.state, hreply, rfl, hran, hnot⟩

theorem Applied.advance (h : s.Applied cls taken) {ack : Option ℕ}
    (hadvance : s.advance cls = some (s', ack)) : ∃ taken', s'.Applied cls taken' := by
  obtain ⟨r, is, queue, htask, hqueue, rfl, -⟩ | ⟨htask, rfl, -⟩ |
    ⟨is, queue, htask, hqueue, rfl, -⟩ :=
    advance_cases hadvance
  · exact ⟨_, h.applyMapData htask hqueue⟩
  · exact ⟨_, h.set_task htask ⟨nofun, nofun⟩⟩
  · exact ⟨_, h.unpackOneVersion htask hqueue⟩

end Slave

def Node.Applied (cls : ObjectClass S) (node : Node S) : Prop :=
  ∀ s ∈ node.slaves, ∃ taken, s.Applied cls taken

namespace Node

variable {cls : ObjectClass S} {node : Node S}

theorem Applied.map (h : node.Applied cls) {f : Slave S → Slave S}
    (hf : ∀ s ∈ node.slaves, ∀ taken, s.Applied cls taken → ∃ taken', (f s).Applied cls taken') :
    Node.Applied cls { node with slaves := node.slaves.map f } := by
  intro s hs
  obtain ⟨t, ht, rfl⟩ := List.mem_map.1 hs
  obtain ⟨taken, htaken⟩ := h t ht
  exact hf t ht taken htaken

theorem Applied.dispatch (h : node.Applied cls) (instanceID : ℕ) (message : Message) :
    (node.dispatch instanceID message).Applied cls := by
  refine h.map (fun s _ taken hs => ?_)
  split_ifs
  · exact ⟨taken, hs.handle message⟩
  · exact ⟨taken, hs⟩

theorem Applied.attach (h : node.Applied cls) (instanceID : ℕ) :
    (node.attach instanceID).Applied cls := by
  unfold Node.attach
  split
  · exact h
  · next r hr =>
    rw [Node.redispatch, if_neg (by simp)]
    refine Applied.map (fun s hs => ?_) (fun s _ taken hs => ⟨taken, hs.foldl_cmdData _⟩)
    rcases List.mem_append.1 hs with hs | hs
    · exact h s hs
    · rw [List.mem_singleton.1 hs]
      exact ⟨[], Slave.applied_attached cls _ _ _⟩

theorem Applied.receive (h : node.Applied cls) (n : ℕ) (message : Message) :
    (node.receive n message).Applied cls := by
  cases message with
  | mapSuccess target requestID instanceID =>
      simp only [Node.receive]
      split_ifs
      · exact h.attach instanceID
      · exact h
  | mapData target instanceID is =>
      simp only [Node.receive]
      split_ifs
      · exact h.dispatch instanceID _
      · exact h
  | mapReply reply =>
      simp only [Node.receive]
      split_ifs
      · exact h.dispatch reply.requestID _
      · exact h
  | commit is =>
      simp only [Node.receive]
      split_ifs
      · exact h
      · exact h
      · exact h.map (fun s _ taken hs => ⟨taken, hs.handle _⟩)
  | detach instanceID => exact fun s hs => h s (List.mem_filter.1 hs).1

theorem Applied.set (h : node.Applied cls) {s : Slave S} {taken : List VersionData}
    (hs : s.Applied cls taken) : (node.set s).Applied cls := by
  refine h.map (fun t _ taken' ht => ?_)
  split_ifs
  · exact ⟨taken, hs⟩
  · exact ⟨taken', ht⟩

theorem Applied.find (h : node.Applied cls) {instanceID : ℕ} {s : Slave S}
    (hs : node.find instanceID = some s) : ∃ taken, s.Applied cls taken :=
  h s (Keyed.mem_of_lookup hs)

end Node

/-- A step of the application with a slave, and the limit it acknowledges. -/
inductive Slave.Moves (cls : ObjectClass S) (s : Slave S) : Slave S → Option ℕ → Prop
  | unmap (hidle : s.task = .idle) : Moves cls s { s with task := .unmapping } none
  | sync (hidle : s.task = .idle) (v : ℕ) : Moves cls s (s.sync v) none
  | advance {s' : Slave S} {ack : Option ℕ} (h : s.advance cls = some (s', ack)) : Moves cls s s' ack

theorem Slave.Applied.of_moves {cls : ObjectClass S} {s s' : Slave S} {taken : List VersionData}
    {ack : Option ℕ} (h : s.Applied cls taken) (hmoves : s.Moves cls s' ack) :
    ∃ taken', s'.Applied cls taken' := by
  cases hmoves with
  | unmap hidle =>
      refine ⟨taken, h.set_task ?_ ⟨nofun, nofun⟩⟩
      rw [hidle]
      exact ⟨nofun, nofun⟩
  | sync hidle v => exact ⟨taken, h.sync hidle v⟩
  | advance hadvance => exact h.advance hadvance

inductive Node.Moves (cls : ObjectClass S) (n : ℕ) (down : List Sent) (node : Node S) :
    Node S → Prop
  | stay : Moves cls n down node node
  | request (r : MapRequest S) (hr : r.instanceID = node.nextID) : Moves cls n down node
      { node with
        requests := node.requests ++ [r]
        nextID := node.nextID + 1 }
  | receive {sent : Sent} (hsent : sent ∈ down) : Moves cls n down node (node.receive n sent.message)
  | set {instanceID : ℕ} {s s' : Slave S} {ack : Option ℕ} (hs : node.find instanceID = some s)
      (hmoves : s.Moves cls s' ack) : Moves cls n down node (node.set s')
  | reset : Moves cls n down node { Node.empty with nextID := node.nextID }

theorem Node.Applied.of_moves {cls : ObjectClass S} {n : ℕ} {down : List Sent} {node node' : Node S}
    (h : node.Applied cls) (hmoves : node.Moves cls n down node') : node'.Applied cls := by
  cases hmoves with
  | stay => exact h
  | request r hr => exact h
  | receive hsent => exact h.receive n _
  | set hs hmoves =>
      obtain ⟨taken, htaken⟩ := h.find hs
      obtain ⟨taken', htaken'⟩ := htaken.of_moves hmoves
      exact h.set htaken'
  | reset => exact nofun

namespace World

variable {cls : ObjectClass S} {groups : ℕ → Option ℕ} {w w' : World S} {e : Event S}

theorem moves_update (n : ℕ) {node : ℕ} {next : Node S}
    (h : (w.nodes node).Moves cls node (w.down node) next) :
    (w.nodes n).Moves cls n (w.down n) (Function.update w.nodes node next n) := by
  rcases eq_or_ne n node with rfl | hne
  · rw [Function.update_self]
    exact h
  · rw [Function.update_of_ne hne]
    exact .stay

theorem nodes_step (h : w.step cls groups e = some w') (n : ℕ) :
    (w.nodes n).Moves cls n (w.down n) (w'.nodes n) := by
  cases e with
  | modify state =>
      obtain rfl := Option.some.inj h
      exact .stay
  | wait =>
      simp only [World.step] at h
      split_ifs at h
      obtain rfl := Option.some.inj h
      exact .stay
  | commit index incarnation =>
      simp only [World.step] at h
      split_ifs at h
      obtain rfl := Option.some.inj h
      exact .stay
  | commitClean incarnation =>
      simp only [World.step] at h
      split_ifs at h
      obtain rfl := Option.some.inj h
      exact .stay
  | setAutoObsolete count =>
      obtain rfl := Option.some.inj h
      exact .stay
  | map node state maxVersions version =>
      obtain rfl := Option.some.inj h
      exact moves_update n (.request _ rfl)
  | unmap node instanceID =>
      simp only [World.step] at h
      split at h
      · cases h
      · next s hs =>
        split_ifs at h with hidle
        obtain rfl := Option.some.inj h
        exact moves_update n (.set hs (.unmap hidle))
  | serve node =>
      simp only [World.step] at h
      split at h
      · cases h
      · next request rest hup =>
        obtain rfl := Option.some.inj h
        cases request <;> exact .stay
  | deliver node index =>
      simp only [World.step, deliver] at h
      split at h
      · cases h
      · next sent hsent =>
        split_ifs at h
        obtain rfl := Option.some.inj h
        exact moves_update n (.receive (List.mem_of_getElem? hsent))
  | sync node instanceID version =>
      simp only [World.step] at h
      split at h
      · cases h
      · next s hs =>
        split_ifs at h with hidle
        obtain rfl := Option.some.inj h
        exact moves_update n (.set hs (.sync hidle version))
  | advance node instanceID =>
      simp only [World.step] at h
      split at h
      · cases h
      · next s hs =>
        split at h
        · cases h
        · next s' ack hadvance =>
          obtain rfl := Option.some.inj h
          exact moves_update n (.set hs (.advance hadvance))
  | disconnect node =>
      obtain rfl := Option.some.inj h
      exact moves_update n .reset

def Applied (cls : ObjectClass S) (w : World S) : Prop := ∀ n, (w.nodes n).Applied cls

theorem Applied.step (h : w.Applied cls) (hstep : w.step cls groups e = some w') : w'.Applied cls :=
  fun n => (h n).of_moves (nodes_step hstep n)

theorem applied_start (cls : ObjectClass S) (s : S) (instanceID : ℕ) :
    (start cls s instanceID).Applied cls := fun _ => nofun

end World

end Collage.Object
