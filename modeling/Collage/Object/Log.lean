import Collage.Object.Network

/-!
# What a node has received

The slaves of a node as the master sees them: which instances are attached, which versions each of
them has received, and with which version it was mapped. Messages act on this log alone, and the
application threads do not change it.
-/

namespace Collage.Object

variable {S : Type}

structure Attached where
  instanceID : ℕ
  received : List VersionData
  reply : Option ℕ

def Attached.push (a : Attached) (is : VersionData) : Attached :=
  { a with received := a.received ++ [is] }

def Attached.setReply (a : Attached) (version : ℕ) : Attached :=
  { a with reply := some (a.reply.getD version) }

structure Log where
  attached : List Attached
  pending : List VersionData

namespace Log

variable (l : Log)

def dispatch (instanceID : ℕ) (f : Attached → Attached) : Log :=
  { l with attached := Keyed.update Attached.instanceID instanceID f l.attached }

def attach (instanceID : ℕ) : Log where
  attached := (l.attached ++ [Attached.mk instanceID [] none]).map
    (fun a => l.pending.foldl Attached.push a)
  pending := []

def receive (n : ℕ) : Message → Log
  | .mapSuccess target _ instanceID => if target = n then l.attach instanceID else l
  | .mapData target instanceID is =>
      if target = n then l.dispatch instanceID (fun a => a.push is) else l
  | .mapReply reply =>
      if reply.node = n then l.dispatch reply.requestID (fun a => a.setReply reply.version) else l
  | .commit is =>
      if l.attached = [] then
        if is.hasInstanceData then l else { l with pending := l.pending ++ [is] }
      else { l with attached := l.attached.map (fun a => a.push is) }
  | .detach instanceID =>
      { l with attached := l.attached.filter (fun a => a.instanceID ≠ instanceID) }

end Log

def Slave.log (s : Slave S) : Attached := ⟨s.instanceID, s.received, s.reply⟩

def Node.log (node : Node S) : Log where
  attached := node.slaves.map Slave.log
  pending := node.pending

theorem Slave.log_cmdData (s : Slave S) (is : VersionData) :
    (s.cmdData is).log = s.log.push is := rfl

theorem Slave.log_foldl_cmdData (s : Slave S) (datas : List VersionData) :
    (datas.foldl Slave.cmdData s).log = datas.foldl Attached.push s.log := by
  induction datas generalizing s with
  | nil => rfl
  | cons is datas ih => exact ih (s.cmdData is)

theorem Slave.log_mapReply (s : Slave S) (reply : MapReply) :
    (s.handle [] (.mapReply reply)).log = s.log.setReply reply.version := by
  have hcache : s.addInstanceDatas [] reply.version = s := rfl
  simp only [Slave.handle, hcache, ite_self, Slave.cmdMapReply]
  cases hreply : s.reply with
  | none => simp [Slave.log, Attached.setReply, hreply]
  | some r => simp [Slave.log, Attached.setReply, hreply]

namespace Node

theorem log_dispatch (node : Node S) (instanceID : ℕ) {message : Message} {f : Attached → Attached}
    (hf : ∀ s : Slave S, (s.handle [] message).log = f s.log) :
    (node.dispatch instanceID message).log = node.log.dispatch instanceID f := by
  simp only [Node.log, Node.dispatch, Log.dispatch, Keyed.update, List.map_map, Log.mk.injEq,
    and_true]
  refine List.map_congr_left (fun s _ => ?_)
  simp only [Function.comp_apply]
  by_cases hid : s.instanceID = instanceID
  · rw [if_pos hid, if_pos (show s.log.instanceID = instanceID from hid), hf]
  · rw [if_neg hid, if_neg (show ¬ s.log.instanceID = instanceID from hid)]

theorem log_attach {node : Node S} {instanceID : ℕ}
    (hmem : instanceID ∈ node.requests.map MapRequest.instanceID) :
    (node.attach instanceID).log = node.log.attach instanceID := by
  unfold Node.attach
  split
  · next hnone => exact absurd hmem (Keyed.lookup_eq_none_iff.1 hnone)
  · next r hr =>
    have hid : r.instanceID = instanceID := Keyed.key_of_lookup hr
    rw [Node.redispatch, if_neg (by simp)]
    simp only [Node.log, Log.attach, List.map_map, List.map_append, List.map_singleton,
      Log.mk.injEq, and_true]
    congr 1
    · exact List.map_congr_left (fun s _ => s.log_foldl_cmdData node.pending)
    · rw [Slave.log_foldl_cmdData, hid]
      rfl

theorem log_receive {node : Node S} {n : ℕ} {message : Message}
    (hrequest : ∀ requestID instanceID, message = .mapSuccess n requestID instanceID →
      instanceID ∈ node.requests.map MapRequest.instanceID) :
    (node.receive n message).log = node.log.receive n message := by
  cases message with
  | mapSuccess target requestID instanceID =>
      simp only [Node.receive, Log.receive]
      split_ifs with htarget
      · exact log_attach (hrequest requestID instanceID (by rw [htarget]))
      · rfl
  | mapData target instanceID is =>
      simp only [Node.receive, Log.receive]
      split_ifs
      · exact node.log_dispatch instanceID (fun s => s.log_cmdData is)
      · rfl
  | mapReply reply =>
      simp only [Node.receive, Log.receive]
      split_ifs
      · exact node.log_dispatch reply.requestID (fun s => s.log_mapReply reply)
      · rfl
  | commit is =>
      have hnil : node.log.attached = [] ↔ node.slaves = [] := List.map_eq_nil_iff
      simp only [Node.receive, Log.receive, hnil]
      split_ifs
      · rfl
      · rfl
      · simp only [Node.log, List.map_map, Log.mk.injEq, and_true]
        exact List.map_congr_left (fun s _ => s.log_cmdData is)
  | detach instanceID =>
      simp only [Node.receive, Log.receive, Node.log, Log.mk.injEq, and_true]
      rw [List.filter_map]
      rfl

theorem log_set {node : Node S} {instanceID : ℕ} {s s' : Slave S}
    (hs : node.find instanceID = some s) (hlog : s'.log = s.log)
    (hnodup : (node.slaves.map Slave.instanceID).Nodup) : (node.set s').log = node.log := by
  have hid : s'.instanceID = s.instanceID := congrArg Attached.instanceID hlog
  have hkey : s.instanceID = instanceID := Keyed.key_of_lookup hs
  simp only [Node.set, Node.log, Log.mk.injEq, and_true]
  refine Keyed.map_update (fun t ht hk => ?_)
  rw [hid, hkey] at hk
  rw [Keyed.eq_of_lookup hnodup hs ht hk, hlog]

end Node

end Collage.Object
