import Collage.Rsp.Handlers
import Collage.Rsp.Sound

/-!
# No handler of a listening connection loses a buffer
-/

namespace Collage.Rsp

open scoped List

variable {cfg : Config} {c : Connection}

namespace Connection

theorem Sound.queued (h : Sound cfg c) (hf : c.finishing = none) {b : Buffer}
    {queue : List Buffer} (hq : c.threadBuffers = b :: queue)
    {merged : DatagramData × List Buffer × List Buffer} (hm : merged.2.1 ++ merged.2.2 = queue) :
    Sound cfg (c.queued b merged) := by
  obtain ⟨self, hfind, htrack⟩ := h.loopback
  refine ⟨h.nodup, ?_, h.readers, ?_, h.posted, self, hfind, ?_⟩
  · refine List.Perm.trans ?_ h.held
    rw [List.perm_iff_count]
    intro a
    simp only [Connection.held, Connection.queued, hq, ← hm, freed, List.count_append,
      List.map_append, List.map_cons, List.map_nil, List.count_cons, List.count_nil,
      addrs_append, addrs_map_some]
    omega
  · simpa [Connection.queued] using h.noNull
  · intro hstop
    obtain ⟨hseq, hack⟩ := htrack hstop
    simp only [Tracks, posting, freed, Connection.queued, hf, List.length_append, Option.elim_none,
      List.length_nil, List.length_singleton, Nat.zero_add, BitVec.ofNat_add] at hseq hack ⊢
    refine ⟨by rw [← hseq, ← BitVec.add_assoc]; rfl, ?_⟩
    rcases hack with hack | ⟨-, hack⟩
    · left; rw [← hack, ← BitVec.add_assoc]; rfl
    · right; exact ⟨by omega, by rw [← hack, ← BitVec.add_assoc]; rfl⟩

theorem Sound.writeData (h : Sound cfg c) (hf : c.finishing = none) :
    Sound cfg (c.writeData cfg) := by
  rcases writeData_cases cfg c with ⟨-, hw⟩ | ⟨b, queue, hq, ⟨-, hw⟩ | ⟨-, hw⟩⟩
  · rw [hw]; exact h
  · rw [hw]; exact h.queued hf hq (mergeWrites_queue cfg _ queue)
  · rw [hw]; exact (h.queued hf hq (mergeWrites_queue cfg _ queue)).finishWriteQueue hf _

theorem Sound.repeatData (h : Sound cfg c) : Sound cfg c.repeatData :=
  ⟨h.nodup, h.held, h.readers, h.noNull, h.posted, h.loopback⟩

theorem Sound.processOutgoing (h : Sound cfg c) (hf : c.finishing = none) (expired : Bool) :
    Sound cfg (c.processOutgoing cfg expired) := by
  obtain ⟨base, t, ds, hbase, -, hp⟩ := processOutgoing_cases cfg expired c
  have hs : Sound cfg base := by
    rcases hbase with ⟨-, rfl⟩ | ⟨-, rfl⟩
    · exact h.writeData hf
    · exact h.repeatData
  rw [hp]
  exact (hs.set_timeouts t).send ds

theorem Sound.released (h : Sound cfg c) {f : Finish} {self : Child} {a b : Buffer}
    {free rest : List Buffer} (hf : c.finishing = some f)
    (hself : c.findConnection c.id = some self) (hw : c.writeBuffers = b :: rest)
    (hq : self.threadBuffers = a :: free) : Sound cfg (c.released f self a free b rest) := by
  have hidself := Keyed.key_of_lookup hself
  refine ⟨?_, ?_, ?_, h.noNull, ?_, { self with threadBuffers := free },
    (findConnection_released f _ _ _ _ hself c.id).trans (if_pos rfl), ?_⟩
  · have hids := ids_updateChild (c := c) (k := c.id)
      (f := fun _ => { self with threadBuffers := free }) (fun _ _ => hidself)
    exact hids ▸ h.nodup
  · refine List.Perm.trans ?_ h.held
    rw [List.perm_iff_count]
    intro x
    simp only [Connection.held, Connection.released, Connection.updateChild, freed, hf, hw,
      Option.elim_some, List.count_append, List.map_append, List.map_cons, List.map_nil,
      List.count_cons, List.count_nil]
    omega
  · intro child hc
    rcases Keyed.mem_update hc with ⟨hmem, hne⟩ | ⟨old, hmem, hk, rfl⟩
    · have hold := h.readers child hmem
      simpa [heldFor, hne, Connection.released] using hold
    · have hold := h.readers self (Keyed.mem_of_lookup hself)
      refine List.Perm.trans ?_ hold
      rw [List.perm_iff_count]
      intro x
      simp only [heldFor, Child.held, posting, Connection.released, Connection.updateChild, hf, hq,
        hidself, Option.elim_some, List.count_append, List.map_append, List.map_cons,
        List.map_nil, List.count_cons, List.count_nil, if_true]
      omega
  · have := h.posted
    simp only [posting, freed, Connection.released, hf, Option.elim_some, List.length_append,
      List.length_singleton] at this ⊢
    omega
  · intro hstop
    obtain ⟨self', hself', htrack⟩ := h.loopback
    rw [hself, Option.some.injEq] at hself'
    subst hself'
    have ht := htrack hstop
    simp only [Tracks, posting, freed, Connection.released, Connection.updateChild, hf, hw,
      Option.elim_some, List.length_append, List.length_cons, List.length_nil,
      Nat.add_assoc, Nat.add_comm 1] at ht ⊢
    exact ht

theorem Sound.postReadBuffers (h : Sound cfg c) {f : Finish} (hf : c.finishing = some f) :
    Sound cfg (c.postReadBuffers f) := by
  obtain ⟨self, hself, htrack⟩ := h.loopback
  have hpost : c.posting = f.readBuffers := by rw [posting, hf]; rfl
  have hfreed : c.freed = f.freeBuffers := by rw [freed, hf]; rfl
  have hfind := findConnection_postReadBuffers (c := c) (f := f) c.id
  rw [if_pos rfl, hself, Option.map_some] at hfind
  refine ⟨?_, ?_, ?_, h.noNull, Nat.zero_le _, _, hfind, ?_⟩
  · have hids := ids_updateChild (c := c) (k := c.id) (f := Child.post f.readBuffers)
      (fun _ hk => hk)
    exact hids ▸ h.nodup
  · have hheld := h.held
    rw [Connection.held, hfreed] at hheld
    exact hheld
  · intro child hc
    rcases Keyed.mem_update hc with ⟨hmem, hne⟩ | ⟨old, hmem, hk, rfl⟩
    · have hold := h.readers child hmem
      simpa [heldFor, hne, Connection.postReadBuffers] using hold
    · refine List.Perm.trans ?_ (h.readers old hmem)
      rw [List.perm_iff_count]
      intro x
      rw [heldFor, heldFor, hpost]
      simp only [Child.held, Child.post, hk, Connection.postReadBuffers, posting,
        Connection.updateChild, Option.elim_some, List.count_append, List.map_nil, addrs_append,
        addrs_map_some, List.count_nil, if_true]
      omega
  · intro hstop
    obtain ⟨hseq, hack⟩ := htrack hstop
    rw [hpost, BitVec.ofNat_add, ← BitVec.add_assoc] at hseq
    rw [hfreed] at hack
    refine ⟨?_, hack⟩
    simpa [posting, Connection.postReadBuffers, Connection.updateChild, Child.post] using hseq

theorem Sound.finishEnd (h : Sound cfg c) {f : Finish} (hf : c.finishing = some f) :
    Sound cfg (c.finishEnd f) := by
  have hp := h.postReadBuffers hf
  obtain ⟨self, hself, htrack⟩ := hp.loopback
  have hfreed : (c.postReadBuffers f).freed = f.freeBuffers := rfl
  have hfind := findConnection_finishEnd (c := c) (f := f) c.id
  rw [if_pos rfl, show (c.postReadBuffers f).findConnection c.id = some self from hself,
    Option.map_some] at hfind
  refine ⟨?_, ?_, ?_, ?_, le_rfl, _, hfind, ?_⟩
  · have hids := ids_updateChild (c := c.postReadBuffers f) (k := c.id)
      (f := fun self => self.setAcked (self.sequence - 1)) (fun _ hk => hk)
    exact hids ▸ hp.nodup
  · refine List.Perm.trans ?_ hp.held
    rw [List.perm_iff_count]
    intro x
    rw [Connection.held, Connection.held, hfreed]
    simp only [Connection.finishEnd, freed, Connection.postReadBuffers, Connection.updateChild,
      Option.elim_none, List.count_append, List.map_nil, addrs_append, addrs_map_some,
      List.count_nil]
    omega
  · intro child hc
    rcases Keyed.mem_update hc with ⟨hmem, hne⟩ | ⟨old, hmem, hk, rfl⟩
    · exact hp.readers child hmem
    · exact hp.readers old hmem
  · intro hstop
    simpa [Connection.finishEnd] using h.noNull hstop
  · intro hstop
    obtain ⟨hseq, -⟩ := htrack hstop
    refine ⟨hseq, Or.inl ?_⟩
    simpa [posting, freed, Connection.postReadBuffers, Connection.finishEnd,
      Connection.updateChild, Child.setAcked, BitVec.sub_add_cancel] using hseq

theorem Sound.finishStep (h : Sound cfg c) {c' : Connection} (hc : c.finishStep = some c') :
    Sound cfg c' := by
  obtain ⟨f, self, hf, hself, ⟨-, rfl⟩ | ⟨a, free, b, rest, hw, -, hq, rfl⟩ | ⟨-, -, -, rfl⟩⟩ :=
    finishStep_cases hc
  · exact h.finishEnd hf
  · exact h.released hf hself hw hq
  · exact h.postReadBuffers hf

theorem Sound.updateChild_of_held (h : Sound cfg c) {k : U16} {child child' : Child}
    (hfind : c.findConnection k = some child) (hid : child'.id = child.id)
    (hheld : child'.held ~ child.held)
    (hseq : k = c.id → child'.sequence = child.sequence ∧ child'.acked = child.acked) :
    Sound cfg (c.updateChild k (fun _ => child')) := by
  have heq : ∀ old ∈ c.children, old.id = k → old = child :=
    fun old hmem hk => Keyed.eq_of_lookup h.nodup hfind hmem hk
  refine h.updateChild (fun _ _ => hid.trans (Keyed.key_of_lookup hfind)) ?_ ?_
  · intro old hmem hk
    rw [heq old hmem hk]
    exact hheld
  · intro hself old hmem hk
    rw [heq old hmem hk]
    exact hseq hself

theorem Sound.handleData (h : Sound cfg c) {d : DatagramData} (hd : d.writerID ≠ c.id) :
    Sound cfg (c.handleData cfg d) := by
  rcases handleData_cases cfg d c with ⟨-, hc⟩ | ⟨child, queue, ds, hfind, -, hc⟩
  · rw [hc]; exact h
  · have hs := h.updateChild_of_held hfind (Child.handleData_frame cfg c.id d child).1
      (Child.held_handleData cfg c.id d child) (fun he => absurd he hd)
    rw [hc, List.append_assoc]
    exact (hs.set_repeatQueue queue).send _

theorem Sound.handleAck (h : Sound cfg c) (hf : c.finishing = none) {readerID : U16}
    (hr : readerID ≠ c.id) (writerID sequence : U16) :
    Sound cfg (c.handleAck cfg readerID writerID sequence) := by
  have hs : Sound cfg (c.recordAck readerID sequence) :=
    (h.updateChild (f := Child.setAcked sequence) (fun _ hk => hk)
      (fun _ _ _ => List.Perm.refl _) (fun he => absurd he hr)).set_timeouts 0
  rcases handleAck_cases cfg readerID writerID sequence c with
    ⟨-, hc⟩ | ⟨reader, -, -, -, ⟨-, hc⟩ | ⟨self, -, -, hc⟩⟩
  · rw [hc]; exact h
  · rw [hc]; exact hs
  · rw [hc]; exact hs.finishWriteQueue hf _

theorem Sound.handleNack (h : Sound cfg c) (readerID writerID : U16) (nacks : List Nack) :
    Sound cfg (c.handleNack readerID writerID nacks) := by
  obtain ⟨t, queue, hc⟩ := handleNack_cases readerID writerID nacks c
  rw [hc]
  exact (h.set_timeouts t).set_repeatQueue queue

theorem Sound.handleAckRequest (h : Sound cfg c) (writerID reqID : U16) :
    Sound cfg (c.handleAckRequest cfg writerID reqID) := by
  obtain ⟨queue, ds, -, hc⟩ := handleAckRequest_cases cfg writerID reqID c
  rw [hc]
  exact (h.set_repeatQueue queue).send ds

theorem Sound.handleInitData (h : Sound cfg c) (hf : c.finishing = none) (type : NodeType)
    (connectionID data : U16) : Sound cfg (c.handleInitData cfg true type connectionID data) := by
  cases type with
  | hello =>
      simp only [Connection.handleInitData, checkNewID, if_true]
      split_ifs
      · exact h.send _
      · exact h.send _
  | confirm => exact h.addConnection hf _ _
  | countNode => exact h
  | helloReply => exact h.addConnection hf _ _
  | exit => exact h.removeConnection _
  | deny => exact h

theorem Sound.handlePacket (h : Sound cfg c) (hf : c.finishing = none) (hl : c.listening = true)
    (newID : U16) {d : Datagram} (hd : d.foreign c.id) : Sound cfg (c.handlePacket cfg newID d) := by
  cases d with
  | data d => simp only [Connection.handlePacket, hl, if_true]; exact h.handleData hd
  | ack readerID writerID sequence =>
      simp only [Connection.handlePacket, hl, if_true]; exact h.handleAck hf hd _ _
  | nack readerID writerID nacks =>
      simp only [Connection.handlePacket, hl, if_true]; exact h.handleNack _ _ _
  | ackReq writerID sequence =>
      simp only [Connection.handlePacket, hl, if_true]; exact h.handleAckRequest _ _
  | node type connectionID data =>
      simp only [Connection.handlePacket, hl, if_true]; exact h.handleInitData hf _ _ _

theorem Sound.length_held (h : Sound cfg c) : c.held.length = cfg.numBuffers := by
  simpa using h.held.length_eq

theorem Sound.writeBuffers_le (h : Sound cfg c) : c.writeBuffers.length ≤ cfg.numBuffers := by
  have hlen := h.length_held
  simp only [Connection.held, List.length_append, List.length_map] at hlen
  omega

theorem Sound.threadBuffers_lt (h : Sound cfg c) {b : Buffer} (hb : c.inHand = some b) :
    c.threadBuffers.length < cfg.numBuffers := by
  have hlen := h.length_held
  simp only [Connection.held, hb, List.length_append, List.length_map, addrs_cons_some,
    List.length_cons] at hlen
  omega

theorem Sound.child_threadBuffers_lt (h : Sound cfg c) {child : Child} (hc : child ∈ c.children)
    (hb : child.readBuffer.isSome ∨ ∃ b, some b ∈ child.appBuffers) :
    child.threadBuffers.length < cfg.numBuffers := by
  have hlen := (h.readers child hc).length_eq
  have hpos : 0 < (addrs child.appBuffers).length + (addrs [child.readBuffer]).length := by
    rcases hb with hb | ⟨b, hb⟩
    · obtain ⟨b, hb⟩ := Option.isSome_iff_exists.1 hb
      simp [hb]
    · have hmem : b.addr ∈ addrs child.appBuffers :=
        List.mem_map_of_mem (List.reduceOption_mem_iff.2 hb)
      have := List.length_pos_of_mem hmem
      omega
  simp only [heldFor, Child.held, List.length_append, List.length_map, List.length_range] at hlen
  omega

theorem Sound.writePop (h : Sound cfg c) {c' : Connection} (hc : c.writePop = some c') :
    Sound cfg c' := by
  obtain ⟨-, hhand, ⟨rest, hq, rfl⟩ | ⟨b, rest, hq, rfl⟩⟩ := writePop_cases hc
  · refine ⟨h.nodup, ?_, h.readers, ?_, h.posted, h.loopback⟩
    · simpa only [Connection.held, hq, addrs_cons_none, freed] using h.held
    · exact fun hstop hm => h.noNull hstop (hq ▸ List.mem_cons_of_mem _ hm)
  refine ⟨h.nodup, ?_, h.readers, ?_, h.posted, h.loopback⟩
  · refine List.Perm.trans ?_ h.held
    rw [List.perm_iff_count]
    intro x
    simp only [Connection.held, hq, hhand, freed, List.count_append, addrs_cons_some,
      addrs_cons_none, addrs_nil, List.count_cons, List.count_nil]
    omega
  · exact fun hstop hm => h.noNull hstop (hq ▸ List.mem_cons_of_mem _ hm)

theorem Sound.writePush (h : Sound cfg c) {c' : Connection} (hc : c.writePush cfg = some c') :
    Sound cfg c' := by
  obtain ⟨b, hb, rfl⟩ := writePush_cases hc
  refine ⟨h.nodup, ?_, h.readers, h.noNull, h.posted, h.loopback⟩
  refine List.Perm.trans ?_ h.held
  rw [List.perm_iff_count]
  intro x
  simp only [Connection.held, hb, pushThread, if_pos (h.threadBuffers_lt hb), nextPacket, freed,
    List.map_append, List.map_cons, List.map_nil, List.count_append, addrs_cons_some,
    addrs_cons_none, addrs_nil, List.count_cons, List.count_nil]
  omega

theorem Sound.read_child (h : Sound cfg c) {writer : U16} {n : ℕ} {child : Child}
    {r : Child × List UInt8} (hfind : c.findConnection writer = some child)
    (hr : child.readSync cfg n = some r) :
    Sound cfg (c.updateChild writer (fun _ => r.1)) := by
  have hlen : child.held.length ≤ cfg.numBuffers := by
    have := (h.readers child (Keyed.mem_of_lookup hfind)).length_eq
    simp only [heldFor, List.length_append, List.length_range] at this
    omega
  obtain ⟨hid, hseq, hack⟩ := Child.readSync_frame hr
  exact h.updateChild_of_held hfind hid (Child.held_readSync hr hlen) (fun _ => ⟨hseq, hack⟩)

end Connection
end Collage.Rsp
