import Collage.Rsp.SoundSteps

/-!
# The timeout of a listening connection

After too many timeouts `_handleConnectedTimeout` either gives up altogether or closes the readers
whose cursor lags and resets the cursors of the others.
-/

namespace Collage.Rsp.Connection

open scoped List

variable {cfg : Config} {c : Connection}

def keeps (c : Connection) (child : Child) : Bool :=
  !decide ((child.acked.toNat : ℤ) < (c.sequence.toNat : ℤ) - 1 ∧ c.id ≠ child.id)

def resetCursor (c : Connection) : U16 := c.sequence - BitVec.ofNat 16 c.writeBuffers.length

/-- The loop over the children as one operation: the lagging readers go, the cursors of the others
are set to the reset value. -/
theorem foldl_evictOrReset (l : List Child) (c : Connection) (done : List Child)
    (hc : c.children = done ++ l) (hnd : (c.children.map Child.id).Nodup) :
    ∃ ds, l.foldl evictOrReset c = { c with
      children := done ++ (l.filter c.keeps).map (Child.setAcked c.resetCursor)
      sent := c.sent ++ ds } := by
  induction l generalizing c done with
  | nil => exact ⟨[], by simp only [List.foldl_nil, List.filter_nil, List.map_nil, ← hc,
      List.append_nil]⟩
  | cons x xs ih =>
      rw [hc] at hnd
      rw [List.foldl_cons]
      by_cases hx : (x.acked.toNat : ℤ) < (c.sequence.toNat : ℤ) - 1 ∧ c.id ≠ x.id
      · have hkeep : c.keeps x = false := by simp only [keeps, hx, decide_true, Bool.not_true, ne_eq,
          not_false_eq_true, and_self]
        obtain ⟨ds, hs⟩ : ∃ ds, c.evictOrReset x =
            { c with children := done ++ xs, sent := c.sent ++ ds } := by
          have herase : c.children.eraseP (fun child => child.id = x.id) = done ++ xs := by
            rw [hc]; exact Keyed.eraseP_append_cons hnd
          obtain ⟨ds, -, hs⟩ := removeConnection_eq (c.sendSimpleDatagram .exit x.id) (Ne.symm hx.2)
          refine ⟨.node .exit x.id c.sequence :: ds, ?_⟩
          rw [evictOrReset, if_pos hx, hs]
          simp only [sendSimpleDatagram, send, herase, List.append_assoc, List.singleton_append]
        obtain ⟨ds', hs'⟩ := ih (c.evictOrReset x) done (by rw [hs]) (by
          rw [hs]
          exact hnd.sublist (((List.sublist_cons_self x xs).append_left done).map _))
        refine ⟨ds ++ ds', ?_⟩
        rw [hs', hs, List.filter_cons_of_neg (by simp [hkeep]), ← List.append_assoc]
        rfl
      · have hkeep : c.keeps x = true := by simp only [keeps, hx, decide_false, Bool.not_false]
        have hs : c.evictOrReset x =
            { c with children := done ++ x.setAcked c.resetCursor :: xs } := by
          unfold evictOrReset
          rw [if_neg hx]
          simp only [updateChild, hc, Keyed.update_append_cons hnd, resetCursor]
        obtain ⟨ds', hs'⟩ := ih (c.evictOrReset x) (done ++ [x.setAcked c.resetCursor])
          (by rw [hs, List.append_assoc, List.singleton_append])
          (by
            rw [hs]
            simpa [Child.setAcked] using hnd)
        refine ⟨ds', ?_⟩
        rw [hs', hs, List.filter_cons_of_pos hkeep, List.map_cons, List.append_assoc,
          List.singleton_append]
        rfl

/-- The timeouts run out only when there was nothing to send and packets are unacknowledged. -/
def waitedOut (expired : Bool) (c : Connection) : Prop :=
  c.repeatQueue = [] ∧ c.threadBuffers = [] ∧ c.writeBuffers ≠ [] ∧
    maxTimeouts ≤ c.timeouts + expired.toNat

theorem processOutgoing_of_timeouts {expired : Bool}
    (ht : maxTimeouts ≤ (c.processOutgoing cfg expired).timeouts)
    (hf : (c.processOutgoing cfg expired).finishing = none) :
    c.waitedOut expired ∧
      c.processOutgoing cfg expired = { c with timeouts := c.timeouts + expired.toNat } := by
  have hbase : (if c.repeatQueue = [] then c.writeData cfg else c.repeatData).timeouts = 0 ∨
      (if c.repeatQueue = [] then c.writeData cfg else c.repeatData) = c ∧ c.repeatQueue = [] ∧
        c.threadBuffers = [] := by
    split_ifs with hq
    · rcases writeData_cases cfg c with ⟨ht, h⟩ | ⟨b, queue, -, ⟨-, h⟩ | ⟨-, h⟩⟩
      · exact Or.inr ⟨h, hq, ht⟩
      · exact Or.inl (by rw [h]; rfl)
      · exact Or.inl (by rw [h]; rfl)
    · exact Or.inl rfl
  unfold processOutgoing at ht hf ⊢
  generalize (if c.repeatQueue = [] then c.writeData cfg else c.repeatData) = c' at *
  rcases hbase with h0 | ⟨rfl, hq, hthread⟩
  · simp only [maxTimeouts] at ht
    split_ifs at ht <;> simp [h0, send] at ht
  simp only at ht hf ⊢
  split_ifs at ht hf ⊢ with hsend hempty hexp hlt
  · simp [hf, hq, hthread] at hsend
  · simp [maxTimeouts] at ht
  · exact absurd ht (not_le.2 hlt)
  · exact ⟨⟨hq, hthread, hempty, by simpa [hexp] using ht⟩, by simp [hexp]⟩
  · exact ⟨⟨hq, hthread, hempty, by simpa [hexp] using ht⟩, by simp [hexp]⟩

/-- A timeout that is one too many: the connection gives up when all readers look lost, and closes
or resets the readers one by one otherwise. -/
theorem handleConnectedTimeout_of_timeouts {expired : Bool}
    (hnd : (c.children.map Child.id).Nodup)
    (ht : maxTimeouts ≤ (c.processOutgoing cfg expired).timeouts)
    (hf : (c.processOutgoing cfg expired).finishing = none) :
    c.finishing = none ∧ c.waitedOut expired ∧
      (c.allFailed cfg = true ∧ c.handleConnectedTimeout cfg expired =
        giveUp { c with timeouts := c.timeouts + expired.toNat } ∨
      c.allFailed cfg = false ∧ ∃ ds, c.handleConnectedTimeout cfg expired = { c with
        children := (c.children.filter c.keeps).map (Child.setAcked c.resetCursor)
        timeouts := 0
        sent := c.sent ++ ds }) := by
  have hg : ¬ ((c.processOutgoing cfg expired).timeouts < maxTimeouts ∨
      (c.processOutgoing cfg expired).finishing.isSome) := by
    simp only [not_or, not_lt, Option.not_isSome_iff_eq_none]
    exact ⟨ht, hf⟩
  obtain ⟨hw, hc⟩ := processOutgoing_of_timeouts ht hf
  refine ⟨by rw [hc] at hf; exact hf, hw, ?_⟩
  rw [handleConnectedTimeout, if_neg hg, hc]
  cases hall : c.allFailed cfg with
  | true =>
      left
      exact ⟨rfl, if_pos hall⟩
  | false =>
      obtain ⟨ds, hs⟩ := foldl_evictOrReset c.children
        { c with timeouts := c.timeouts + expired.toNat } [] rfl hnd
      refine Or.inr ⟨rfl, ds, (if_neg (ne_true_of_eq_false hall)).trans ?_⟩
      simp only [hs, List.nil_append]
      rfl

theorem handleConnectedTimeout_cases (cfg : Config) (expired : Bool) (c : Connection)
    (hnd : (c.children.map Child.id).Nodup) :
    c.handleConnectedTimeout cfg expired = c.processOutgoing cfg expired ∨
    c.finishing = none ∧ c.waitedOut expired ∧
      (c.allFailed cfg = true ∧ c.handleConnectedTimeout cfg expired =
        giveUp { c with timeouts := c.timeouts + expired.toNat } ∨
      c.allFailed cfg = false ∧ ∃ ds, c.handleConnectedTimeout cfg expired = { c with
        children := (c.children.filter c.keeps).map (Child.setAcked c.resetCursor)
        timeouts := 0
        sent := c.sent ++ ds }) := by
  by_cases hguard : (c.processOutgoing cfg expired).timeouts < maxTimeouts ∨
      (c.processOutgoing cfg expired).finishing.isSome
  · left
    rw [handleConnectedTimeout, if_pos hguard]
  · right
    simp only [not_or, not_lt, Option.not_isSome_iff_eq_none] at hguard
    exact handleConnectedTimeout_of_timeouts hnd hguard.1 hguard.2

theorem keeps_self {child : Child} (h : child.id = c.id) : c.keeps child = true := by
  simp [keeps, h]

theorem loopback_evicted (hnd : (c.children.map Child.id).Nodup) {self : Child}
    (hself : c.findConnection c.id = some self) :
    (((c.children.filter c.keeps).map (Child.setAcked c.resetCursor)).map Child.id).Nodup ∧
      Keyed.lookup Child.id c.id ((c.children.filter c.keeps).map (Child.setAcked c.resetCursor)) =
        some (self.setAcked c.resetCursor) := by
  have hid : self.id = c.id := Keyed.key_of_lookup hself
  have hkept : (((c.children.filter c.keeps).map (Child.setAcked c.resetCursor)).map
      Child.id).Nodup := by
    rw [List.map_map]
    exact hnd.sublist (List.filter_sublist.map _)
  have hmem : self.setAcked c.resetCursor ∈
      (c.children.filter c.keeps).map (Child.setAcked c.resetCursor) :=
    List.mem_map_of_mem (List.mem_filter.2 ⟨Keyed.mem_of_lookup hself, keeps_self hid⟩)
  have hfind := Keyed.lookup_of_mem hkept hmem
  rw [show (self.setAcked c.resetCursor).id = c.id from hid] at hfind
  exact ⟨hkept, hfind⟩

theorem Sound.evict_children (h : Sound cfg c) (hf : c.finishing = none) (hw : c.writeBuffers ≠ [])
    (t : ℕ) (sent : List Datagram) : Sound cfg { c with
      children := (c.children.filter c.keeps).map (Child.setAcked c.resetCursor)
      timeouts := t
      sent := sent } := by
  obtain ⟨self, hself, htrack⟩ := h.loopback
  obtain ⟨hnd, hfind⟩ := loopback_evicted h.nodup hself
  refine ⟨hnd, h.held, ?_, h.noNull, h.posted, self.setAcked c.resetCursor, hfind, ?_⟩
  · intro child hc
    obtain ⟨old, hold, rfl⟩ := List.mem_map.1 hc
    exact h.readers old (List.mem_of_mem_filter hold)
  · intro hstop
    refine ⟨(htrack hstop).1, Or.inr ⟨?_, ?_⟩⟩
    · exact Nat.add_pos_right _ (List.length_pos_iff.2 hw)
    · simp [freed, hf, Child.setAcked, resetCursor]

theorem Sound.giveUp (h : Sound cfg c) (hf : c.finishing = none) : Sound cfg c.giveUp := by
  obtain ⟨self, hself, -⟩ := h.loopback
  have hids : (c.children.map Child.pushNull).map Child.id = c.children.map Child.id := by
    rw [List.map_map]; rfl
  refine ⟨?_, ?_, ?_, ?_, le_rfl, ?_⟩
  · exact hids ▸ h.nodup
  · refine List.Perm.trans ?_ h.held
    rw [List.perm_iff_count]
    intro x
    simp only [Connection.held, Connection.giveUp, clearWriteQueues,
      Connection.finishWriteQueue, sendSimpleDatagram, Connection.send, freed, hf, Option.elim_some,
      Option.elim_none, addrs_cons_none, List.map_append, List.map_nil, List.count_append,
      List.count_nil]
    omega
  · intro child hc
    obtain ⟨old, hold, rfl⟩ := List.mem_map.1 hc
    have hr := h.readers old hold
    simpa [heldFor, posting, hf, Child.held, Child.pushNull, Connection.giveUp, clearWriteQueues,
      Connection.finishWriteQueue, sendSimpleDatagram, Connection.send] using hr
  · intro hstop
    cases hstop
  · have hmem := List.mem_map_of_mem (f := Child.pushNull) (Keyed.mem_of_lookup hself)
    have hl := Keyed.lookup_of_mem (hids ▸ h.nodup) hmem
    have hid : self.id = c.id := Keyed.key_of_lookup hself
    rw [show self.pushNull.id = c.id from hid] at hl
    exact ⟨self.pushNull, hl, fun hstop => by cases hstop⟩

theorem Sound.handleConnectedTimeout (h : Sound cfg c) (hf : c.finishing = none)
    (expired : Bool) : Sound cfg (c.handleConnectedTimeout cfg expired) := by
  rcases handleConnectedTimeout_cases cfg expired c h.nodup with
    hc | ⟨-, hw, ⟨-, hc⟩ | ⟨-, ds, hc⟩⟩
  · rw [hc]; exact h.processOutgoing hf expired
  · rw [hc]; exact (h.set_timeouts _).giveUp hf
  · rw [hc]; exact h.evict_children hf hw.2.2.1 0 (c.sent ++ ds)

/-- The identifier of a connection and that it is listening, which not even a timeout changes. -/
def role (c : Connection) : U16 × Bool := (c.id, c.listening)

theorem role_step (h : Sound cfg c) (hl : c.listening = true) {e : Event} {c' : Connection}
    (hc : c.step cfg e = some c') : c'.role = c.role := by
  by_cases he : ∃ expired, e = .timeout expired
  · obtain ⟨expired, rfl⟩ := he
    simp only [step, Option.ite_none_right_eq_some, Option.some.injEq, handleTimeout, if_pos hl] at hc
    obtain ⟨-, rfl⟩ := hc
    rcases handleConnectedTimeout_cases cfg expired c h.nodup with
      hc | ⟨-, -, ⟨-, hc⟩ | ⟨-, sent, hc⟩⟩
    · rw [hc]
      exact congrArg (fun p => (p.1, p.2.1)) (phase_processOutgoing cfg c expired)
    · rw [hc]; rfl
    · rw [hc]; rfl
  · have hp := phase_step hl (fun expired hx => he ⟨expired, hx⟩) hc
    exact congrArg (fun p => (p.1, p.2.1)) hp

theorem sent_addConnection (id sequence : U16) :
    c.sent <+: (c.addConnection cfg id sequence).sent := by
  cases h : c.findConnection id with
  | some child => rw [addConnection, h]; exact List.prefix_rfl
  | none =>
      obtain ⟨ds, -, hc⟩ := addConnection_eq cfg c sequence h
      rw [hc]
      exact List.prefix_append _ _

theorem sent_handlePacket (hl : c.listening = true) (newID : U16) (d : Datagram) :
    c.sent <+: (c.handlePacket cfg newID d).sent := by
  cases d with
  | data d =>
      simp only [handlePacket, hl, if_true]
      rcases handleData_cases cfg d c with ⟨-, h⟩ | ⟨_, _, _, -, -, h⟩
      · rw [h]
      · rw [h, List.append_assoc]
        exact List.prefix_append _ _
  | ack readerID writerID sequence =>
      simp only [handlePacket, hl, if_true]
      rcases handleAck_cases cfg readerID writerID sequence c with
        ⟨-, h⟩ | ⟨_, -, -, -, ⟨-, h⟩ | ⟨_, -, -, h⟩⟩ <;> rw [h] <;> exact List.prefix_rfl
  | nack readerID writerID nacks =>
      simp only [handlePacket, hl, if_true]
      obtain ⟨_, _, h⟩ := handleNack_cases readerID writerID nacks c
      rw [h]
  | ackReq writerID reqID =>
      simp only [handlePacket, hl, if_true]
      obtain ⟨_, _, -, h⟩ := handleAckRequest_cases cfg writerID reqID c
      rw [h]
      exact List.prefix_append _ _
  | node type connectionID data =>
      simp only [handlePacket, hl, if_true]
      cases type with
      | hello =>
          simp only [handleInitData, checkNewID]
          split_ifs <;> exact List.prefix_append _ _
      | confirm => exact sent_addConnection _ _
      | countNode => exact List.prefix_rfl
      | helloReply => exact sent_addConnection _ _
      | exit =>
          by_cases h : connectionID = c.id
          · simp only [handleInitData, removeConnection, if_pos h]
            exact List.prefix_rfl
          · obtain ⟨ds, -, hc⟩ := removeConnection_eq c h
            simp only [handleInitData, hc]
            exact List.prefix_append _ _
      | deny => exact List.prefix_rfl

theorem sent_processOutgoing (expired : Bool) :
    c.sent <+: (c.processOutgoing cfg expired).sent := by
  obtain ⟨base, t, ds, hbase, -, hp⟩ := processOutgoing_cases cfg expired c
  have hb : c.sent <+: base.sent := by
    rcases hbase with ⟨-, rfl⟩ | ⟨-, rfl⟩
    · rcases writeData_cases cfg c with ⟨-, h⟩ | ⟨b, queue, -, ⟨-, h⟩ | ⟨-, h⟩⟩ <;> rw [h]
      · exact List.prefix_append _ _
      · exact List.prefix_append _ _
    · exact List.prefix_append _ _
  rw [hp]
  exact hb.trans (List.prefix_append _ _)

theorem sent_step (h : Sound cfg c) (hl : c.listening = true) {e : Event} {c' : Connection}
    (hc : c.step cfg e = some c') : c.sent <+: c'.sent := by
  rcases step_cases hc with ⟨bytes, -, -, -, rfl⟩ | ⟨-, hpop⟩ | ⟨-, hpush⟩ |
    ⟨_, _, _, _, -, -, -, rfl⟩ | ⟨expired, -, -, -, rfl⟩ | ⟨-, hfin⟩ | ⟨newID, d, -, -, rfl⟩ |
    ⟨expired, -, -, rfl⟩
  · exact List.prefix_rfl
  · obtain ⟨-, -, ⟨_, -, rfl⟩ | ⟨_, _, -, rfl⟩⟩ := writePop_cases hpop <;> exact List.prefix_rfl
  · obtain ⟨_, -, rfl⟩ := writePush_cases hpush
    exact List.prefix_rfl
  · exact List.prefix_rfl
  · exact sent_processOutgoing expired
  · obtain ⟨f, self, -, -, ⟨-, rfl⟩ | ⟨a, free, b, rest, -, -, -, rfl⟩ | ⟨-, -, -, rfl⟩⟩ :=
      finishStep_cases hfin <;> exact List.prefix_rfl
  · exact sent_handlePacket hl newID d
  · rw [handleTimeout, if_pos hl]
    rcases handleConnectedTimeout_cases cfg expired c h.nodup with
      hc | ⟨-, -, ⟨-, hc⟩ | ⟨-, ds, hc⟩⟩
    · rw [hc]; exact sent_processOutgoing expired
    · rw [hc]; exact List.prefix_append _ _
    · rw [hc]; exact List.prefix_append _ _

end Collage.Rsp.Connection
