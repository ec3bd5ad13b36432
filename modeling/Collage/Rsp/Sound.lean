import Collage.Lib.Run
import Collage.Rsp.ChildBuffers
import Collage.Rsp.Connection

/-!
# Buffers of a listening connection are neither lost nor duplicated

The listener moves its buffers between the application, the send queue and the write queue. While
`_finishWriteQueue` runs, released buffers and the loopback child's filled buffers are in its local
variables. `Sound` says that nothing is lost on the way and that the loopback child has received
exactly the packets that left the write queue.
-/

namespace Collage.Rsp

open scoped List

namespace Connection

/-- The listener's buffers in the local variables of a running `_finishWriteQueue`. -/
def freed (c : Connection) : List Buffer := c.finishing.elim [] Finish.freeBuffers

/-- The loopback child's buffers in the local variables of a running `_finishWriteQueue`. -/
def posting (c : Connection) : List Buffer := c.finishing.elim [] Finish.readBuffers

def held (c : Connection) : List ℕ :=
  addrs c.appBuffers ++ c.threadBuffers.map Buffer.addr ++ c.writeBuffers.map Buffer.addr ++
    addrs [c.inHand] ++ c.freed.map Buffer.addr

/-- A child's buffers, with those in the hands of the protocol thread. -/
def heldFor (c : Connection) (child : Child) : List ℕ :=
  child.held ++ (if child.id = c.id then c.posting.map Buffer.addr else [])

/-- The loopback child has received what left the write queue. Its cursor stands at the last
packet before the unreleased ones, or one further after the cursors were reset by a timeout. -/
def Tracks (c : Connection) (self : Child) : Prop :=
  self.sequence + BitVec.ofNat 16 (c.posting.length + c.writeBuffers.length) = c.sequence ∧
  (self.acked + 1 + BitVec.ofNat 16 (c.freed.length + c.writeBuffers.length) = c.sequence ∨
    0 < c.freed.length + c.writeBuffers.length ∧
      self.acked + BitVec.ofNat 16 (c.freed.length + c.writeBuffers.length) = c.sequence)

/-- A connection that gave up (`stopped`) has null entries in its queues and has released packets
that never got a number. -/
structure Sound (cfg : Config) (c : Connection) : Prop where
  nodup : (c.children.map Child.id).Nodup
  held : c.held ~ List.range cfg.numBuffers
  readers : ∀ child ∈ c.children, c.heldFor child ~ List.range cfg.numBuffers
  noNull : c.stopped = false → none ∉ c.appBuffers
  posted : c.posting.length ≤ c.freed.length
  loopback : ∃ self, c.findConnection c.id = some self ∧ (c.stopped = false → c.Tracks self)

/-- The state in which `listen` returns: the group found so far, nothing written yet. -/
def start (cfg : Config) (id : U16) (members : List (U16 × U16)) : Connection where
  id := id
  idAccepted := true
  listening := true
  stopped := false
  timeouts := 0
  sequence := 0
  children := members.map (fun m => Child.new cfg m.1 m.2)
  appBuffers := (newBuffers cfg).map some
  threadBuffers := []
  writeBuffers := []
  repeatQueue := []
  writing := []
  inHand := none
  finishing := none
  sent := []

theorem start_ids (cfg : Config) (id : U16) (members : List (U16 × U16)) :
    (start cfg id members).children.map Child.id = members.map Prod.fst := by
  simp [start, Child.new, Function.comp_def]

theorem start_loopback {cfg : Config} {id : U16} {members : List (U16 × U16)}
    (hnd : (members.map Prod.fst).Nodup) (hself : (id, 0) ∈ members) :
    (start cfg id members).findConnection id = some (Child.new cfg id 0) := by
  have hmem : Child.new cfg id 0 ∈ (start cfg id members).children :=
    List.mem_map.2 ⟨(id, 0), hself, rfl⟩
  exact Keyed.lookup_of_mem (by rw [start_ids]; exact hnd) hmem

theorem sound_start {cfg : Config} {id : U16} {members : List (U16 × U16)}
    (hnd : (members.map Prod.fst).Nodup) (hself : (id, 0) ∈ members) :
    Sound cfg (start cfg id members) where
  nodup := by rw [start_ids]; exact hnd
  held := by simp [Connection.held, freed, start]
  readers := by
    intro child hc
    obtain ⟨m, -, rfl⟩ := List.mem_map.1 hc
    simp [heldFor, posting, start, Child.held_new]
  noNull := by simp [start]
  posted := by simp [posting, freed, start]
  loopback := ⟨_, start_loopback hnd hself, by simp [Tracks, Child.new, posting, freed, start]⟩

section Frame

variable {cfg : Config} {c : Connection}

theorem Sound.send (h : Sound cfg c) (ds : List Datagram) : Sound cfg (c.send ds) :=
  ⟨h.nodup, h.held, h.readers, h.noNull, h.posted, h.loopback⟩

theorem Sound.set_timeouts (h : Sound cfg c) (t : ℕ) : Sound cfg { c with timeouts := t } :=
  ⟨h.nodup, h.held, h.readers, h.noNull, h.posted, h.loopback⟩

theorem Sound.set_repeatQueue (h : Sound cfg c) (q : List Nack) :
    Sound cfg { c with repeatQueue := q } :=
  ⟨h.nodup, h.held, h.readers, h.noNull, h.posted, h.loopback⟩

theorem Sound.finishWriteQueue (h : Sound cfg c) (hf : c.finishing = none) (sequence : U16) :
    Sound cfg (c.finishWriteQueue sequence) :=
  ⟨h.nodup, by simpa [Connection.held, freed, Connection.finishWriteQueue, hf] using h.held,
    by simpa [heldFor, posting, Connection.finishWriteQueue, hf] using h.readers, h.noNull,
    by simp [posting, freed, Connection.finishWriteQueue],
    by simpa [Tracks, posting, freed, Connection.finishWriteQueue, hf, findConnection]
      using h.loopback⟩

/-- Replacing a child by one that holds the same buffers. The loopback child must keep its
numbers. -/
theorem Sound.updateChild (h : Sound cfg c) {k : U16} {f : Child → Child}
    (hid : ∀ child, child.id = k → (f child).id = k)
    (hheld : ∀ child ∈ c.children, child.id = k → (f child).held ~ child.held)
    (hseq : k = c.id → ∀ child ∈ c.children, child.id = k →
      (f child).sequence = child.sequence ∧ (f child).acked = child.acked) :
    Sound cfg (c.updateChild k f) where
  nodup := by
    have := Keyed.map_update (k := k) (f := f) (l := c.children) (g := Child.id)
      (fun a _ hk => (hid a hk).trans hk.symm)
    simpa only [Connection.updateChild, this] using h.nodup
  held := h.held
  readers := by
    intro child hc
    rcases Keyed.mem_update hc with ⟨hmem, -⟩ | ⟨old, hmem, hk, rfl⟩
    · exact h.readers child hmem
    · have hold := h.readers old hmem
      simp only [heldFor, hid old hk, hk] at hold ⊢
      exact ((hheld old hmem hk).append_right _).trans hold
  noNull := h.noNull
  posted := h.posted
  loopback := by
    obtain ⟨self, hfind, hs⟩ := h.loopback
    by_cases hk : c.id = k
    · refine ⟨f self, ?_, ?_⟩
      · subst hk; exact Keyed.lookup_update_self hid hfind
      · have hf := hseq hk.symm self (Keyed.mem_of_lookup hfind)
          ((Keyed.key_of_lookup hfind).trans hk)
        simp only [Tracks, hf.1, hf.2] at hs ⊢
        exact hs
    · exact ⟨self, (Keyed.lookup_update_ne hid hk).trans hfind, hs⟩

theorem Sound.addConnection (h : Sound cfg c) (hf : c.finishing = none) (id sequence : U16) :
    Sound cfg (c.addConnection cfg id sequence) := by
  unfold Connection.addConnection
  split_ifs with hfind
  · exact h
  have hnew : id ∉ c.children.map Child.id := by
    simpa [findConnection, Keyed.lookup_eq_none_iff] using hfind
  have hs : Sound cfg { c with children := c.children ++ [Child.new cfg id sequence] } := by
    refine ⟨?_, h.held, ?_, h.noNull, h.posted, ?_⟩
    · rw [List.map_append, List.nodup_append]
      refine ⟨h.nodup, List.nodup_singleton _, ?_⟩
      intro a ha b hb
      rw [List.map_singleton, List.mem_singleton] at hb
      change b = id at hb
      exact fun he => hnew (by rwa [← hb, ← he])
    · intro child hc
      rcases List.mem_append.1 hc with hc | hc
      · exact h.readers child hc
      · rw [List.mem_singleton.1 hc]
        simp [heldFor, posting, hf, Child.held_new]
    · obtain ⟨self, hfs, hs⟩ := h.loopback
      refine ⟨self, ?_, hs⟩
      simp only [findConnection, Keyed.lookup, List.find?_append] at hfs ⊢
      rw [hfs, Option.some_or]
  unfold sendCountNode
  split_ifs
  · exact hs.send _
  · exact hs

theorem Sound.removeConnection (h : Sound cfg c) (id : U16) :
    Sound cfg (c.removeConnection id) := by
  unfold Connection.removeConnection
  split_ifs with hid
  · exact h
  have hs : Sound cfg { c with children := c.children.eraseP (fun child => child.id = id) } := by
    have hsub : (c.children.eraseP (fun child => child.id = id)).Sublist c.children :=
      List.eraseP_sublist
    refine ⟨h.nodup.sublist (hsub.map _), h.held, fun child hc => h.readers child (hsub.subset hc),
      h.noNull, h.posted, ?_⟩
    obtain ⟨self, hfs, hs⟩ := h.loopback
    have hmem : self ∈ c.children.eraseP (fun child => child.id = id) := by
      rw [List.mem_eraseP_of_neg]
      · exact Keyed.mem_of_lookup hfs
      · rw [Keyed.key_of_lookup hfs]; simpa using Ne.symm hid
    have hk := Keyed.key_of_lookup hfs
    have := Keyed.lookup_of_mem (h.nodup.sublist (hsub.map _)) hmem
    exact ⟨self, by rw [hk] at this; exact this, hs⟩
  unfold sendCountNode
  split_ifs
  · exact hs.send _
  · exact hs

end Frame

end Connection
end Collage.Rsp
