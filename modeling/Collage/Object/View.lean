import Collage.Object.Applied

/-!
# A node in the world

What a world is for the slaves of one node: the version of the master and its slaves, the commits
that have waited, the requests and the messages on the way, and the node. All that an event can do to
it is said once, whichever of the nodes the event happens at.
-/

namespace Collage.Object

variable {S : Type}

structure View (S : Type) where
  version : ℕ
  waited : List ℕ
  slaveData : List SlaveData
  up : List Up
  messages : List Message
  node : Node S

def World.view (w : World S) (n : ℕ) : View S where
  version := w.master.version
  waited := w.waited
  slaveData := w.master.slaveData
  up := w.up n
  messages := (w.down n).map Sent.message
  node := w.nodes n

/-- A message for one of the instances of a node. -/
def Message.Addressed (n i : ℕ) : Message → Prop
  | .mapSuccess target _ instanceID => target = n ∧ instanceID = i
  | .mapData target instanceID _ => target = n ∧ instanceID = i
  | .mapReply reply => reply.node = n ∧ reply.requestID = i
  | .commit _ => False
  | .detach _ => False

theorem Message.Addressed.eq_of_addressed {n n' i i' : ℕ} {message : Message}
    (h : message.Addressed n i) (h' : message.Addressed n' i') : n' = n ∧ i' = i := by
  cases message with
  | mapSuccess target requestID instanceID => exact ⟨h'.1.symm.trans h.1, h'.2.symm.trans h.2⟩
  | mapData target instanceID is => exact ⟨h'.1.symm.trans h.1, h'.2.symm.trans h.2⟩
  | mapReply reply => exact ⟨h'.1.symm.trans h.1, h'.2.symm.trans h.2⟩
  | commit is => cases h
  | detach instanceID => cases h

theorem MasterCM.addressed_mapMessages {m : MasterCM S} {command : MasterCommand}
    (hrequest : command.requestID = command.instanceID) {s : Sent}
    (hs : s ∈ m.mapMessages command) : s.message.Addressed command.node command.instanceID := by
  unfold mapMessages initSlave at hs
  simp only at hs
  split_ifs at hs
  · simp only [List.mem_cons, List.not_mem_nil, or_false] at hs
    obtain rfl | rfl | rfl := hs
    · exact ⟨rfl, rfl⟩
    · exact ⟨rfl, rfl⟩
    · exact ⟨rfl, hrequest⟩
  · simp only [List.mem_cons, List.not_mem_nil, or_false] at hs
    obtain rfl | rfl := hs
    · exact ⟨rfl, rfl⟩
    · exact ⟨rfl, hrequest⟩
  · simp only [List.cons_append, List.mem_cons, List.mem_append, List.mem_map, List.not_mem_nil,
      or_false] at hs
    obtain rfl | ⟨d, -, rfl⟩ | rfl := hs
    · exact ⟨rfl, rfl⟩
    · exact ⟨rfl, rfl⟩
    · exact ⟨rfl, hrequest⟩

theorem sendAll_eq (groups : ℕ → Option ℕ) (node : ℕ) (messages : List Sent)
    (down : ℕ → List Sent) (n : ℕ) :
    ∃ sent : List Message, (sendAll groups node messages down n).map Sent.message =
        (down n).map Sent.message ++ sent ∧
      ∀ message ∈ sent, ∃ s ∈ messages, s.message = message := by
  rcases eq_or_ne n node with rfl | hne
  · refine ⟨messages.map Sent.message, sendAll_self groups n messages down, fun message hm => ?_⟩
    obtain ⟨s, hs, rfl⟩ := List.mem_map.1 hm
    exact ⟨s, hs, rfl⟩
  · obtain ⟨sent, hsent, hmem⟩ := sendAll_other groups hne messages down
    refine ⟨sent, hsent, fun message hm => ?_⟩
    obtain ⟨s, hs, -, heq⟩ := hmem message hm
    exact ⟨s, hs, heq⟩

inductive View.Moves (cls : ObjectClass S) (n : ℕ) (v : View S) : View S → Prop
  | stay : Moves cls n v v
  | wait (h : v.version + 1 ≤ minLimit v.slaveData) :
      Moves cls n v { v with waited := v.waited ++ [v.version] }
  | commit {version : ℕ} {waited : List ℕ} {sent : List Message} (hwaited : waited.Sublist v.waited)
      (hversion : version = v.version ∨ (version = v.version + 1 ∧
        (v.version ∈ v.waited ∨ v.version + 1 ≤ minLimit v.slaveData)))
      (hsent : ∀ message ∈ sent, ∃ is : VersionData, message = .commit is ∧ is.version = version) :
      Moves cls n v
        { v with
          version := version
          waited := waited
          messages := v.messages ++ sent }
  | request (state : S) (maxVersions version : ℕ) :
      Moves cls n v
        { v with
          up := v.up ++ [.map (World.mapCommand n v.node maxVersions version)]
          node :=
            { v.node with
              requests := v.node.requests ++ [⟨v.node.nextID, maxVersions, state⟩]
              nextID := v.node.nextID + 1 } }
  | slave {i : ℕ} {s s' : Slave S} {ack : Option ℕ} {requests : List Up}
      (hs : v.node.find i = some s) (hmoves : s.Moves cls s' ack)
      (hrequests : ∀ request ∈ requests, request = .unsubscribe i ∨
        ∃ limit ∈ ack, request = .maxVersion i limit) :
      Moves cls n v
        { v with
          up := v.up ++ requests
          node := v.node.set s' }
  | deliver {message : Message} {rest : List Message} (h : v.messages = message :: rest) :
      Moves cls n v
        { v with
          messages := rest
          node := v.node.receive n message }
  | add {k i limit : ℕ} {up : List Up} {sent : List Message}
      (hsent : ∀ message ∈ sent, message.Addressed k i)
      (hup : (k = n ∧ ∃ command, command.instanceID = i ∧ v.up = .map command :: up) ∨
        (k ≠ n ∧ up = v.up)) :
      Moves cls n v
        { v with
          slaveData := v.slaveData ++ [⟨k, i, limit⟩]
          up := up
          messages := v.messages ++ sent }
  | remove {slaveData : List SlaveData} {up : List Up} {sent : List Message}
      (hslaves : slaveData.Sublist v.slaveData) (hup : up.Sublist v.up)
      (hsent : ∀ message ∈ sent, ∃ i, message = .detach i) :
      Moves cls n v
        { v with
          slaveData := slaveData
          up := up
          messages := v.messages ++ sent }
  | limit {k i limit : ℕ} {up : List Up} (hup : up.Sublist v.up)
      (hlimit : k = n → .maxVersion i limit ∈ v.up) :
      Moves cls n v
        { v with
          slaveData := MasterCM.setLimit k i limit v.slaveData
          up := up }
  | disconnect {slaveData : List SlaveData} (hslaves : slaveData.Sublist v.slaveData)
      (hnone : ∀ d ∈ slaveData, d.node ≠ n) :
      Moves cls n v
        { v with
          slaveData := slaveData
          up := []
          messages := []
          node := { Node.empty with nextID := v.node.nextID } }

namespace World

variable {cls : ObjectClass S} {groups : ℕ → Option ℕ} {w w' : World S} {e : Event S} {n : ℕ}

/-- Incarnations do not decrease, a commit makes a version while its wait is still good, and messages
arrive at a node in the order in which they were sent. -/
def Paced (n : ℕ) (w : World S) : Event S → Prop
  | .commit index incarnation => w.master.Increasing incarnation ∧
      (w.waited[index]? = some w.master.version ∨ w.master.version + 1 ≤ w.master.maxVersion)
  | .commitClean incarnation => w.master.Increasing incarnation
  | .deliver node index => node = n → index = 0
  | _ => True

instance decidablePaced (n : ℕ) (w : World S) : (e : Event S) → Decidable (w.Paced n e)
  | .commit _ _ => inferInstanceAs (Decidable (_ ∧ _))
  | .commitClean incarnation => inferInstanceAs (Decidable (w.master.Increasing incarnation))
  | .deliver _ _ => inferInstanceAs (Decidable (_ → _))
  | .modify _ | .wait | .setAutoObsolete _ | .map _ _ _ _ | .unmap _ _ | .serve _ | .sync _ _ _
  | .advance _ _ | .disconnect _ => isTrue trivial

theorem moves_commit {index incarnation : ℕ} (hkept : w.master.Kept cls)
    (hpaced : w.Paced n (.commit index incarnation))
    (hstep : w.step cls groups (.commit index incarnation) = some w') :
    (w.view n).Moves cls n (w'.view n) := by
  obtain ⟨hincreasing, hwait⟩ := hpaced
  have hc := MasterCM.committed_commit cls hincreasing
  simp only [step] at hstep
  split_ifs at hstep
  obtain rfl := Option.some.inj hstep
  generalize w.master.commit cls incarnation = committed at hc
  obtain ⟨m', sent⟩ := committed
  have hversion : m'.version = w.master.version ∨ (m'.version = w.master.version + 1 ∧
      (w.master.version ∈ w.waited ∨ w.master.version + 1 ≤ minLimit w.master.slaveData)) := by
    rcases hc.version with ⟨hsame, -⟩ | ⟨hnext, -⟩
    · exact Or.inl hsame
    · refine Or.inr ⟨hnext, hwait.imp List.mem_of_getElem? (fun h => ?_)⟩
      rwa [← hkept.limit]
  have hslaves : m'.slaveData = w.master.slaveData := hc.slaveData
  cases sent with
  | none =>
      change (w.view n).Moves cls n ⟨m'.version, w.waited.eraseIdx index, m'.slaveData, w.up n,
        (w.view n).messages, w.nodes n⟩
      rw [hslaves, ← List.append_nil (w.view n).messages]
      exact .commit (List.eraseIdx_sublist w.waited index) hversion (List.forall_mem_nil _)
  | some is =>
      change (w.view n).Moves cls n ⟨m'.version, w.waited.eraseIdx index, m'.slaveData, w.up n,
        (broadcast groups w.master.slaves (.commit is) w.down n).map Sent.message, w.nodes n⟩
      rw [hslaves, broadcast_eq, List.map_append]
      refine .commit (List.eraseIdx_sublist w.waited index) hversion (fun message hmessage => ?_)
      rw [List.map_map] at hmessage
      obtain ⟨c, -, rfl⟩ := List.mem_map.1 hmessage
      rcases hc.version with ⟨-, -, hnone⟩ | ⟨hnext, -, -, his⟩
      · cases hnone
      · exact ⟨is, rfl, (his is rfl).1.trans hnext.symm⟩

theorem moves_serve {node : ℕ} {request : Up} {rest : List Up} (hup : w.up node = request :: rest)
    (hcommands : ∀ command, .map command ∈ w.up node →
      command.node = node ∧ command.requestID = command.instanceID) (n : ℕ) :
    (w.view n).Moves cls n
      (({ w with up := Function.update w.up node rest }.serve groups node request).view n) := by
  have hrest : (Function.update w.up node rest n).Sublist (w.up n) := by
    rcases eq_or_ne n node with rfl | hne
    · rw [Function.update_self, hup]
      exact List.sublist_cons_self _ _
    · rw [Function.update_of_ne hne]
  cases request with
  | map command =>
      obtain ⟨hnode, hrequest⟩ := hcommands command (hup ▸ List.mem_cons_self)
      obtain ⟨sent, hsent, hmem⟩ := sendAll_eq groups node (w.master.mapMessages command) w.down n
      have haddressed : ∀ message ∈ sent, message.Addressed command.node command.instanceID := by
        intro message hmessage
        obtain ⟨s, hs, rfl⟩ := hmem message hmessage
        exact MasterCM.addressed_mapMessages hrequest hs
      unfold view
      simp only [serve]
      rw [hsent]
      refine .add haddressed ?_
      rcases eq_or_ne n node with rfl | hne
      · refine Or.inl ⟨hnode, command, rfl, ?_⟩
        rw [Function.update_self]
        exact hup
      · refine Or.inr ⟨fun h => hne (h.symm.trans hnode), ?_⟩
        rw [Function.update_of_ne hne]
  | unsubscribe instanceID =>
      obtain ⟨sent, hsent, hmem⟩ := sendAll_eq groups node [⟨false, .detach instanceID⟩] w.down n
      unfold view
      simp only [serve]
      rw [hsent, (MasterCM.reslaved_removeSlave w.master node instanceID).version]
      refine .remove ?_ hrest (fun message hmessage => ?_)
      · change (w.master.removeSlave node instanceID).slaveData.Sublist w.master.slaveData
        unfold MasterCM.removeSlave
        split_ifs
        · exact List.eraseP_sublist
        · exact List.Sublist.refl _
      · obtain ⟨s, hs, rfl⟩ := hmem message hmessage
        rw [List.mem_singleton.1 hs]
        exact ⟨instanceID, rfl⟩
  | maxVersion instanceID version =>
      unfold view
      simp only [serve]
      rw [(MasterCM.reslaved_cmdMaxVersion w.master node instanceID version).version]
      unfold MasterCM.cmdMaxVersion
      split_ifs
      · refine .limit hrest (fun hnode => ?_)
        change _ ∈ w.up n
        rw [← hnode, hup]
        exact List.mem_cons_self
      · have h : (w.view n).Moves cls n ⟨w.master.version, w.waited, w.master.slaveData,
            Function.update w.up node rest n, (w.view n).messages ++ [], w.nodes n⟩ :=
          .remove (List.Sublist.refl _) hrest (List.forall_mem_nil _)
        rw [List.append_nil] at h
        exact h

theorem moves_local {node : ℕ} {up : List Up} {next : Node S}
    (h : (w.view node).Moves cls node
      { w.view node with
        up := up
        node := next }) (n : ℕ) :
    (w.view n).Moves cls n
      ({ w with
          up := Function.update w.up node up
          nodes := Function.update w.nodes node next }.view n) := by
  rcases eq_or_ne n node with rfl | hne
  · simp only [view, Function.update_self] at h ⊢
    exact h
  · simp only [view, Function.update_of_ne hne]
    exact .stay

theorem moves_deliver {node index : ℕ} (hindex : node = n → index = 0)
    (hstep : w.deliver node index = some w') : (w.view n).Moves cls n (w'.view n) := by
  unfold deliver at hstep
  split at hstep
  · cases hstep
  · next sent hsent =>
    split_ifs at hstep
    obtain rfl := Option.some.inj hstep
    rcases eq_or_ne n node with rfl | hne
    · obtain rfl := hindex rfl
      simp only [view, Function.update_self]
      cases hdown : w.down n with
      | nil =>
          rw [hdown] at hsent
          cases hsent
      | cons front rest =>
          rw [hdown, List.getElem?_cons_zero, Option.some.injEq] at hsent
          rw [← hsent]
          exact .deliver rfl
    · simp only [view, Function.update_of_ne hne]
      exact .stay

theorem view_step (hkept : w.master.Kept cls)
    (hcommands : ∀ n command, .map command ∈ w.up n →
      command.node = n ∧ command.requestID = command.instanceID)
    (hpaced : w.Paced n e) (hstep : w.step cls groups e = some w') :
    (w.view n).Moves cls n (w'.view n) := by
  cases e with
  | modify state =>
      obtain rfl := Option.some.inj hstep
      exact .stay
  | wait =>
      simp only [step] at hstep
      split_ifs at hstep with hwait
      obtain rfl := Option.some.inj hstep
      refine .wait ?_
      change w.master.version + 1 ≤ minLimit w.master.slaveData
      rw [← hkept.limit]
      exact hwait.2
  | commit index incarnation => exact moves_commit hkept hpaced hstep
  | commitClean incarnation =>
      simp only [step] at hstep
      split_ifs at hstep
      obtain rfl := Option.some.inj hstep
      obtain ⟨count, heq⟩ := MasterCM.updateCommitCount_eq hpaced
      unfold view
      rw [MasterCM.commitClean, heq]
      exact .stay
  | setAutoObsolete count =>
      obtain rfl := Option.some.inj hstep
      exact .stay
  | map node state maxVersions version =>
      obtain rfl := Option.some.inj hstep
      exact moves_local (.request state maxVersions version) n
  | unmap node instanceID =>
      simp only [step] at hstep
      split at hstep
      · cases hstep
      · next s hs =>
        split_ifs at hstep with hidle
        obtain rfl := Option.some.inj hstep
        refine moves_local (.slave hs (.unmap hidle) (fun request hrequest => ?_)) n
        exact Or.inl (List.mem_singleton.1 hrequest)
  | serve node =>
      simp only [step] at hstep
      split at hstep
      · cases hstep
      · next request rest hup =>
        obtain rfl := Option.some.inj hstep
        exact moves_serve hup (hcommands node) n
  | deliver node index => exact moves_deliver hpaced hstep
  | sync node instanceID version =>
      simp only [step] at hstep
      split at hstep
      · cases hstep
      · next s hs =>
        split_ifs at hstep with hidle
        obtain rfl := Option.some.inj hstep
        refine moves_local (.slave hs (.sync hidle version) (fun request hrequest => ?_)) n
        cases hrequest
  | advance node instanceID =>
      simp only [step] at hstep
      split at hstep
      · cases hstep
      · next s hs =>
        split at hstep
        · cases hstep
        · next s' ack hadvance =>
          obtain rfl := Option.some.inj hstep
          refine moves_local (.slave hs (.advance hadvance) (fun request hrequest => ?_)) n
          obtain ⟨limit, hlimit, rfl⟩ := List.mem_map.1 hrequest
          exact Or.inr ⟨limit, Option.mem_toList.1 hlimit, rfl⟩
  | disconnect node =>
      obtain rfl := Option.some.inj hstep
      have hslaves : (w.master.removeSlaves node).slaveData.Sublist w.master.slaveData := by
        unfold MasterCM.removeSlaves
        split_ifs
        · exact List.filter_sublist
        · exact List.Sublist.refl _
      have hversion := (MasterCM.reslaved_removeSlaves w.master node).version
      rcases eq_or_ne n node with rfl | hne
      · simp only [view, Function.update_self, hversion]
        refine .disconnect hslaves (fun d hd hdn => ?_)
        have hinstances := MasterCM.instancesOf_removeSlaves hkept n n
        rw [if_pos rfl, MasterCM.instancesOf, List.map_eq_nil_iff, List.filter_eq_nil_iff]
          at hinstances
        exact hinstances d hd (by simpa using hdn)
      · simp only [view, Function.update_of_ne hne, hversion]
        have h : (w.view n).Moves cls n ⟨w.master.version, w.waited,
            (w.master.removeSlaves node).slaveData, w.up n, (w.view n).messages ++ [],
            w.nodes n⟩ := .remove hslaves (List.Sublist.refl _) (List.forall_mem_nil _)
        rw [List.append_nil] at h
        exact h

theorem kept_step (hkept : w.master.Kept cls) (hpaced : w.Paced n e)
    (hstep : w.step cls groups e = some w') : w'.master.Kept cls := by
  cases e with
  | modify state =>
      obtain rfl := Option.some.inj hstep
      exact hkept.modify state
  | wait =>
      simp only [step] at hstep
      split_ifs at hstep
      obtain rfl := Option.some.inj hstep
      exact hkept
  | commit index incarnation =>
      have hc := MasterCM.committed_commit cls hpaced.1
      simp only [step] at hstep
      split_ifs at hstep
      obtain rfl := Option.some.inj hstep
      exact hc.kept hkept
  | commitClean incarnation =>
      simp only [step] at hstep
      split_ifs at hstep
      obtain rfl := Option.some.inj hstep
      exact hkept.commitClean hpaced
  | setAutoObsolete count =>
      obtain rfl := Option.some.inj hstep
      exact hkept.setAutoObsolete count
  | map node state maxVersions version =>
      obtain rfl := Option.some.inj hstep
      exact hkept
  | unmap node instanceID =>
      simp only [step] at hstep
      split at hstep
      · cases hstep
      · split_ifs at hstep
        obtain rfl := Option.some.inj hstep
        exact hkept
  | serve node =>
      simp only [step] at hstep
      split at hstep
      · cases hstep
      · next request rest hup =>
        obtain rfl := Option.some.inj hstep
        cases request with
        | map command => exact hkept.of_reslaved (MasterCM.reslaved_addSlave _ _)
        | unsubscribe instanceID => exact hkept.of_reslaved (MasterCM.reslaved_removeSlave _ _ _)
        | maxVersion instanceID version =>
            exact hkept.of_reslaved (MasterCM.reslaved_cmdMaxVersion _ _ _ _)
  | deliver node index =>
      simp only [step, deliver] at hstep
      split at hstep
      · cases hstep
      · split_ifs at hstep
        obtain rfl := Option.some.inj hstep
        exact hkept
  | sync node instanceID version =>
      simp only [step] at hstep
      split at hstep
      · cases hstep
      · split_ifs at hstep
        obtain rfl := Option.some.inj hstep
        exact hkept
  | advance node instanceID =>
      simp only [step] at hstep
      split at hstep
      · cases hstep
      · split at hstep
        · cases hstep
        · obtain rfl := Option.some.inj hstep
          exact hkept
  | disconnect node =>
      obtain rfl := Option.some.inj hstep
      exact hkept.of_reslaved (MasterCM.reslaved_removeSlaves _ _)

end World

end Collage.Object
