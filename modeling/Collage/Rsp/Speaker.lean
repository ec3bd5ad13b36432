import Collage.Rsp.Timeout
import Collage.Rsp.Writer

/-!
# In whose name a connection speaks

Every datagram names the member it comes from. In each of the three phases a connection sends in
its own name only, and what it hears from one member leaves its children for the other members as
they are. The exception is the eviction of a reader after too many timeouts.
-/

namespace Collage.Rsp

def Datagram.speaker : Datagram → U16
  | .data d => d.writerID
  | .ackReq writerID _ => writerID
  | .nack readerID _ _ => readerID
  | .ack readerID _ _ => readerID
  | .node _ connectionID _ => connectionID

def Event.heard : Event → Option Datagram
  | .packet _ d => some d
  | .write _ | .writePop | .writePush | .read _ _ | .outgoing _ | .finishStep | .timeout _ => none

def Event.speaker : Event → Option U16
  | .packet _ d => some d.speaker
  | .write _ | .writePop | .writePush | .read _ _ | .outgoing _ | .finishStep | .timeout _ => none

/-- The child whose stream the application reads. -/
def Event.reads : Event → Option U16
  | .read writer _ => some writer
  | .write _ | .writePop | .writePush | .outgoing _ | .finishStep | .packet _ _ | .timeout _ => none

namespace Connection

/-- The event does not find `CO_RSP_MAX_TIMEOUTS` reached. -/
def Patient (c : Connection) : Event → Prop
  | .timeout expired => ¬ c.waitedOut expired
  | .write _ | .writePop | .writePush | .read _ _ | .outgoing _ | .finishStep | .packet _ _ => True

/-- What a connection may send in a step that ends in `c` and handles the datagram `heard`. -/
def Proper (c : Connection) (heard : Option Datagram) : Datagram → Prop
  | .data d => ∃ b ∈ c.writeBuffers, d = { b.data with payload := b.data.bytes }
  | .ackReq writerID _ => writerID = c.id
  | .nack readerID _ _ => readerID = c.id
  | .ack readerID writerID _ => readerID = c.id ∧ ∃ d, heard = some d ∧ d.speaker = writerID
  | .node type connectionID data =>
      connectionID = c.id ∧ type ≠ .exit ∧
        (type = .confirm → c.listening = false ∧ c.idAccepted = true) ∧
        (type = .helloReply → data = c.sequence) ∧
        (type = .deny → ∃ id data', heard = some (.node .hello id data') ∧
          (id = c.id ∨ (c.findConnection id).isSome))

/-- The step from `c` to `c'` sends only what is proper. -/
def SendsProper (c c' : Connection) (heard : Option Datagram) : Prop :=
  ∃ new, c'.sent = c.sent ++ new ∧ ∀ d ∈ new, c'.Proper heard d

variable {cfg : Config} {c c' : Connection} {heard : Option Datagram}

theorem sendsProper_of_sent_eq (h : c'.sent = c.sent) : SendsProper c c' heard :=
  ⟨[], by rw [h, List.append_nil], by simp⟩

theorem proper_countNode {d : Datagram} (h : ∃ count, d = .node .countNode c.id count) :
    c.Proper heard d := by
  obtain ⟨count, rfl⟩ := h
  exact ⟨rfl, by decide, by simp, by simp, by simp⟩

theorem handleConnectedTimeout_of_patient {expired : Bool} (h : ¬ c.waitedOut expired) :
    c.handleConnectedTimeout cfg expired = c.processOutgoing cfg expired := by
  rw [handleConnectedTimeout]
  by_cases hguard : (c.processOutgoing cfg expired).timeouts < maxTimeouts ∨
      (c.processOutgoing cfg expired).finishing.isSome
  · exact if_pos hguard
  · simp only [not_or, not_lt, Option.not_isSome_iff_eq_none] at hguard
    exact absurd (processOutgoing_of_timeouts hguard.1 hguard.2).1 h

section Sends

theorem sendsProper_addConnection (h : c'.sent = c.sent) (cfg : Config) (id sequence : U16) :
    SendsProper c (c'.addConnection cfg id sequence) heard := by
  cases hfind : c'.findConnection id with
  | some child =>
      rw [addConnection_of_known hfind]
      exact sendsProper_of_sent_eq h
  | none =>
      obtain ⟨ds, hds, hc⟩ := addConnection_eq cfg c' sequence hfind
      refine ⟨ds, by rw [hc, h], fun d hd => ?_⟩
      rw [hc]
      exact proper_countNode (hds d hd)

theorem sendsProper_removeConnection (id : U16) :
    SendsProper c (c.removeConnection id) heard := by
  by_cases hid : id = c.id
  · rw [removeConnection, if_pos hid]
    exact sendsProper_of_sent_eq rfl
  · obtain ⟨ds, hds, hc⟩ := removeConnection_eq c hid
    refine ⟨ds, by rw [hc], fun d hd => ?_⟩
    rw [hc]
    exact proper_countNode (hds d hd)

theorem sendsProper_checkNewID (id data : U16) :
    SendsProper c (c.checkNewID id) (some (.node .hello id data)) := by
  unfold checkNewID
  split_ifs with hknown
  · refine ⟨[.node .deny c.id c.sequence], rfl, fun d hd => ?_⟩
    rw [List.mem_singleton.1 hd]
    exact ⟨rfl, by decide, by simp, by simp, fun _ => ⟨id, data, rfl, hknown⟩⟩
  · refine ⟨[.node .helloReply c.id c.sequence], rfl, fun d hd => ?_⟩
    rw [List.mem_singleton.1 hd]
    exact ⟨rfl, by decide, by simp, fun _ => rfl, by simp⟩

theorem sendsProper_handleAcceptIDData (newID : U16) (type : NodeType) (connectionID data : U16) :
    SendsProper c (c.handleAcceptIDData cfg newID type connectionID data)
      (some (.node type connectionID data)) := by
  cases type with
  | hello => exact sendsProper_checkNewID _ _
  | helloReply => exact sendsProper_addConnection rfl _ _ _
  | deny =>
      simp only [handleAcceptIDData]
      split_ifs
      · refine ⟨[.node .hello newID c.sequence], rfl, fun d hd => ?_⟩
        rw [List.mem_singleton.1 hd]
        exact ⟨rfl, by decide, by simp, by simp, by simp⟩
      · exact sendsProper_of_sent_eq rfl
  | exit => exact sendsProper_removeConnection _
  | confirm => exact sendsProper_of_sent_eq rfl
  | countNode => exact sendsProper_of_sent_eq rfl

theorem sendsProper_handleInitData (connected : Bool) (type : NodeType) (connectionID data : U16) :
    SendsProper c (c.handleInitData cfg connected type connectionID data)
      (some (.node type connectionID data)) := by
  have hc : (if connected then c else { c with timeouts := 0 }).sent = c.sent := by
    split_ifs <;> rfl
  cases type with
  | hello =>
      obtain ⟨new, hnew, hproper⟩ := sendsProper_checkNewID
        (c := if connected then c else { c with timeouts := 0 }) connectionID data
      exact ⟨new, hc ▸ hnew, hproper⟩
  | confirm => exact sendsProper_addConnection hc _ _ _
  | countNode => exact sendsProper_of_sent_eq rfl
  | helloReply => exact sendsProper_addConnection rfl _ _ _
  | exit => exact sendsProper_removeConnection _
  | deny => exact sendsProper_of_sent_eq rfl

theorem sendsProper_handlePacket (newID : U16) (d : Datagram) :
    SendsProper c (c.handlePacket cfg newID d) (some d) := by
  cases d with
  | node type connectionID data =>
      simp only [handlePacket]
      split_ifs
      · exact sendsProper_handleInitData _ _ _ _
      · exact sendsProper_handleInitData _ _ _ _
      · exact sendsProper_handleAcceptIDData _ _ _ _
  | data d =>
      simp only [handlePacket]
      split_ifs
      · rcases handleData_cases cfg d c with ⟨-, h⟩ | ⟨child, queue, ds, -, hds, h⟩
        · exact sendsProper_of_sent_eq (by rw [h])
        · refine ⟨_, by rw [h]; exact List.append_assoc _ _ _, fun x hx => ?_⟩
          rw [h]
          rcases List.mem_append.1 hx with hx | hx
          · obtain ⟨sequence, -, rfl⟩ := List.mem_map.1 hx
            exact ⟨rfl, _, rfl, rfl⟩
          · obtain ⟨nacks, rfl⟩ := hds x hx
            exact rfl
      · exact sendsProper_of_sent_eq rfl
  | ack readerID writerID sequence =>
      simp only [handlePacket]
      split_ifs
      · rcases handleAck_cases cfg readerID writerID sequence c with
          ⟨-, h⟩ | ⟨_, -, -, -, ⟨-, h⟩ | ⟨_, -, -, h⟩⟩ <;> rw [h] <;>
            exact sendsProper_of_sent_eq rfl
      · exact sendsProper_of_sent_eq rfl
  | nack readerID writerID nacks =>
      simp only [handlePacket]
      split_ifs
      · obtain ⟨_, _, h⟩ := handleNack_cases readerID writerID nacks c
        exact sendsProper_of_sent_eq (by rw [h])
      · exact sendsProper_of_sent_eq rfl
  | ackReq writerID reqID =>
      simp only [handlePacket]
      split_ifs
      · obtain ⟨queue, ds, hds, h⟩ := handleAckRequest_cases cfg writerID reqID c
        refine ⟨ds, by rw [h], fun x hx => ?_⟩
        rw [h]
        rcases hds x hx with ⟨nacks, rfl⟩ | ⟨child, -, rfl⟩
        · exact rfl
        · exact ⟨rfl, _, rfl, rfl⟩
      · exact sendsProper_of_sent_eq rfl

theorem sendsProper_processOutgoing (expired : Bool) :
    SendsProper c (c.processOutgoing cfg expired) heard := by
  obtain ⟨base, t, ds, hbase, hds, hp⟩ := processOutgoing_cases cfg expired c
  have hb : base.id = c.id ∧ SendsProper c base heard := by
    rcases hbase with ⟨-, rfl⟩ | ⟨-, rfl⟩
    · rcases writeData_cases cfg c with ⟨-, h⟩ | ⟨b, queue, -, ⟨-, h⟩ | ⟨-, h⟩⟩
      · exact ⟨by rw [h], sendsProper_of_sent_eq (by rw [h])⟩
      all_goals
        refine ⟨by rw [h]; rfl, _, by rw [h]; rfl, fun d hd => ?_⟩
        rw [List.mem_singleton.1 hd, h]
        exact ⟨_, List.mem_append_right _ (List.mem_singleton_self _), rfl⟩
    · refine ⟨rfl, _, rfl, fun d hd => ?_⟩
      rw [Option.mem_toList] at hd
      obtain ⟨x, hx, rfl⟩ := Option.map_eq_some_iff.1 hd
      obtain ⟨i, b, hb, rfl⟩ := repeatLoop_mem hx
      exact ⟨b, List.mem_of_getElem? hb, rfl⟩
  obtain ⟨hid, new, hnew, hproper⟩ := hb
  refine ⟨new ++ ds, by rw [hp, hnew, List.append_assoc], fun d hd => ?_⟩
  rw [hp]
  rcases List.mem_append.1 hd with hd | hd
  · exact hproper d hd
  · rcases hds with rfl | rfl
    · cases hd
    · rw [List.mem_singleton.1 hd]
      exact hid.symm

theorem sendsProper_handleTimeout {expired : Bool} (h : ¬ c.waitedOut expired) :
    SendsProper c (c.handleTimeout cfg expired) heard := by
  unfold handleTimeout
  split_ifs with hl
  · rw [handleConnectedTimeout_of_patient h]
    exact sendsProper_processOutgoing expired
  · unfold handleInitTimeout
    split_ifs
    · obtain ⟨ds, hds, hc⟩ := sendCountNode_eq { c with timeouts := c.timeouts + 1 }
      rw [hc]
      exact ⟨ds, rfl, fun d hd => proper_countNode (hds d hd)⟩
    · exact sendsProper_of_sent_eq rfl
  · unfold handleAcceptIDTimeout
    split_ifs
    · refine ⟨[.node .hello c.id c.sequence], rfl, fun d hd => ?_⟩
      rw [List.mem_singleton.1 hd]
      exact ⟨rfl, by decide, by simp, by simp, by simp⟩
    · obtain ⟨new, hnew, hcount⟩ : ∃ new,
          (c.sendSimpleDatagram .confirm c.id).addConnection cfg c.id c.sequence =
            { c with
              children := ((c.sendSimpleDatagram .confirm c.id).addConnection cfg c.id
                c.sequence).children
              sent := c.sent ++ .node .confirm c.id c.sequence :: new } ∧
          ∀ d ∈ new, ∃ count, d = .node .countNode c.id count := by
        cases hfind : c.findConnection c.id with
        | some child =>
            have hknown : (c.sendSimpleDatagram .confirm c.id).findConnection c.id = some child :=
              hfind
            rw [addConnection_of_known hknown]
            exact ⟨[], rfl, by simp⟩
        | none =>
            have hnone : (c.sendSimpleDatagram .confirm c.id).findConnection c.id = none := hfind
            obtain ⟨ds, hds, hc⟩ := addConnection_eq cfg (c.sendSimpleDatagram .confirm c.id)
              c.sequence hnone
            refine ⟨ds, ?_, hds⟩
            rw [hc]
            simp only [sendSimpleDatagram, send, List.append_assoc, List.singleton_append]
      obtain ⟨ds, hds, hc⟩ := sendCountNode_eq
        { (c.sendSimpleDatagram .confirm c.id).addConnection cfg c.id c.sequence with
          idAccepted := true, timeouts := 0 }
      simp only at hc ⊢
      rw [hc]
      rw [hnew] at hds ⊢
      refine ⟨.node .confirm c.id c.sequence :: new ++ ds, by simp, fun d hd => ?_⟩
      rcases List.mem_append.1 hd with hd | hd
      · rcases List.mem_cons.1 hd with rfl | hd
        · exact ⟨rfl, by decide, fun _ => ⟨eq_false_of_ne_true hl, rfl⟩, by simp, by simp⟩
        · exact proper_countNode (hcount d hd)
      · exact proper_countNode (hds d hd)

/-- Whatever phase it is in, a connection that does not run out of patience sends in its own
name, and acknowledges only to the writer it has just heard. -/
theorem sendsProper_step {e : Event} (hpatient : c.Patient e) (h : c.step cfg e = some c') :
    SendsProper c c' e.heard := by
  rcases step_cases h with ⟨bytes, rfl, -, -, rfl⟩ | ⟨rfl, hpop⟩ | ⟨rfl, hpush⟩ |
    ⟨_, _, _, _, rfl, -, -, rfl⟩ | ⟨expired, rfl, -, -, rfl⟩ | ⟨rfl, hfin⟩ | ⟨newID, d, rfl, -, rfl⟩ |
    ⟨expired, rfl, -, rfl⟩
  · exact sendsProper_of_sent_eq rfl
  · obtain ⟨-, -, ⟨_, -, rfl⟩ | ⟨_, _, -, rfl⟩⟩ := writePop_cases hpop <;>
      exact sendsProper_of_sent_eq rfl
  · obtain ⟨_, -, rfl⟩ := writePush_cases hpush
    exact sendsProper_of_sent_eq rfl
  · exact sendsProper_of_sent_eq rfl
  · exact sendsProper_processOutgoing expired
  · obtain ⟨f, self, -, -, ⟨-, rfl⟩ | ⟨a, free, b, rest, -, -, -, rfl⟩ | ⟨-, -, -, rfl⟩⟩ :=
      finishStep_cases hfin <;> exact sendsProper_of_sent_eq rfl
  · exact sendsProper_handlePacket newID d
  · exact sendsProper_handleTimeout hpatient

end Sends

section Others

variable {k : U16}

theorem findConnection_addConnection_of_ne {id : U16} (hk : k ≠ id) (sequence : U16) :
    (c.addConnection cfg id sequence).findConnection k = c.findConnection k := by
  cases hfind : c.findConnection id with
  | some child => rw [addConnection_of_known hfind]
  | none =>
      obtain ⟨ds, -, hc⟩ := addConnection_eq cfg c sequence hfind
      rw [hc]
      have hnew : List.find? (fun child => child.id = k) [Child.new cfg id sequence] = none := by
        simpa [Child.new] using Ne.symm hk
      simp only [findConnection, Keyed.lookup, List.find?_append]
      rw [hnew, Option.or_none]

theorem findConnection_addConnection_self {id : U16} (h : c.findConnection id = none)
    (sequence : U16) :
    (c.addConnection cfg id sequence).findConnection id = some (Child.new cfg id sequence) := by
  obtain ⟨ds, -, hc⟩ := addConnection_eq cfg c sequence h
  rw [hc]
  simp only [findConnection, Keyed.lookup, List.find?_append] at h ⊢
  rw [h]
  simp [Child.new]

theorem findConnection_removeConnection_of_ne {id : U16} (hk : k ≠ id) :
    (c.removeConnection id).findConnection k = c.findConnection k := by
  by_cases hid : id = c.id
  · rw [removeConnection, if_pos hid]
  · obtain ⟨ds, -, hc⟩ := removeConnection_eq c hid
    rw [hc]
    exact Keyed.lookup_eraseP_of_ne hk

theorem findConnection_processOutgoing (expired : Bool) :
    (c.processOutgoing cfg expired).findConnection k = c.findConnection k := by
  obtain ⟨base, t, ds, hbase, -, hp⟩ := processOutgoing_cases cfg expired c
  rw [hp]
  rcases hbase with ⟨-, rfl⟩ | ⟨-, rfl⟩
  · rcases writeData_cases cfg c with ⟨-, h⟩ | ⟨b, queue, -, ⟨-, h⟩ | ⟨-, h⟩⟩ <;> rw [h] <;> rfl
  · rfl

theorem findConnection_handleTimeout_of_ne (hk : k ≠ c.id) {expired : Bool}
    (h : ¬ c.waitedOut expired) :
    (c.handleTimeout cfg expired).findConnection k = c.findConnection k := by
  unfold handleTimeout
  split_ifs
  · rw [handleConnectedTimeout_of_patient h]
    exact findConnection_processOutgoing expired
  · unfold handleInitTimeout
    split_ifs
    · obtain ⟨ds, -, hc⟩ := sendCountNode_eq { c with timeouts := c.timeouts + 1 }
      rw [hc]
      rfl
    · rfl
  · unfold handleAcceptIDTimeout
    split_ifs
    · rfl
    · obtain ⟨ds, -, hc⟩ := sendCountNode_eq
        { (c.sendSimpleDatagram .confirm c.id).addConnection cfg c.id c.sequence with
          idAccepted := true, timeouts := 0 }
      simp only at hc ⊢
      rw [hc]
      exact findConnection_addConnection_of_ne (c := c.sendSimpleDatagram .confirm c.id) hk _

theorem findConnection_handlePacket_of_ne (newID : U16) {d : Datagram} (hk : k ≠ d.speaker) :
    (c.handlePacket cfg newID d).findConnection k = c.findConnection k := by
  cases d with
  | node type connectionID data =>
      have hinit : ∀ connected : Bool,
          (c.handleInitData cfg connected type connectionID data).findConnection k =
            c.findConnection k := by
        intro connected
        have hc : (if connected then c else { c with timeouts := 0 }).findConnection k =
            c.findConnection k := by split_ifs <;> rfl
        cases type with
        | hello => simp only [handleInitData, checkNewID]; split_ifs <;> rfl
        | confirm => exact (findConnection_addConnection_of_ne hk _).trans hc
        | countNode => rfl
        | helloReply => exact findConnection_addConnection_of_ne hk _
        | exit => exact findConnection_removeConnection_of_ne hk
        | deny => rfl
      have haccept : (c.handleAcceptIDData cfg newID type connectionID data).findConnection k =
          c.findConnection k := by
        cases type with
        | hello => simp only [handleAcceptIDData, checkNewID]; split_ifs <;> rfl
        | helloReply => exact findConnection_addConnection_of_ne hk _
        | deny => simp only [handleAcceptIDData]; split_ifs <;> rfl
        | exit => exact findConnection_removeConnection_of_ne hk
        | confirm => rfl
        | countNode => rfl
      simp only [handlePacket]
      split_ifs
      · exact hinit true
      · exact hinit false
      · exact haccept
  | data d =>
      simp only [handlePacket]
      split_ifs
      · rcases handleData_cases cfg d c with ⟨-, h⟩ | ⟨child, queue, ds, hfind, -, h⟩
        · rw [h]
        · have hid : (child.handleData cfg c.id d).1.id = d.writerID :=
            (Child.handleData_frame cfg c.id d child).1.trans (Keyed.key_of_lookup hfind)
          rw [h]
          exact (findConnection_updateChild (fun _ _ => hid) k).trans (if_neg hk)
      · rfl
  | ack readerID writerID sequence =>
      simp only [handlePacket]
      split_ifs
      · have hrec : (c.recordAck readerID sequence).findConnection k = c.findConnection k :=
          (findConnection_recordAck readerID sequence k).trans (if_neg hk)
        rcases handleAck_cases cfg readerID writerID sequence c with
          ⟨-, h⟩ | ⟨_, -, -, -, ⟨-, h⟩ | ⟨_, -, -, h⟩⟩
        · rw [h]
        · rw [h, hrec]
        · rw [h]
          exact hrec
      · rfl
  | nack readerID writerID nacks =>
      simp only [handlePacket]
      split_ifs
      · obtain ⟨_, _, h⟩ := handleNack_cases readerID writerID nacks c
        rw [h]
        rfl
      · rfl
  | ackReq writerID reqID =>
      simp only [handlePacket]
      split_ifs
      · obtain ⟨_, _, -, h⟩ := handleAckRequest_cases cfg writerID reqID c
        rw [h]
        rfl
      · rfl

theorem findConnection_finishStep_of_ne (hk : k ≠ c.id) (h : c.finishStep = some c') :
    c'.findConnection k = c.findConnection k := by
  obtain ⟨f, self, -, hself, ⟨-, rfl⟩ | ⟨a, free, b, rest, -, -, -, rfl⟩ | ⟨-, -, -, rfl⟩⟩ :=
    finishStep_cases h
  · rw [findConnection_finishEnd, if_neg hk, findConnection_postReadBuffers, if_neg hk]
  · rw [findConnection_released f a b free rest hself, if_neg hk]
  · rw [findConnection_postReadBuffers, if_neg hk]

/-- A child changes only in a step that reads from it or handles a datagram of its member. -/
theorem findConnection_step_of_ne {e : Event} (hk : k ≠ c.id) (hheard : e.speaker ≠ some k)
    (hreads : e.reads ≠ some k) (hpatient : c.Patient e) (h : c.step cfg e = some c') :
    c'.findConnection k = c.findConnection k := by
  rcases step_cases h with ⟨bytes, rfl, -, -, rfl⟩ | ⟨rfl, hpop⟩ | ⟨rfl, hpush⟩ |
    ⟨writer, _, child, r, rfl, hfind, hr, rfl⟩ | ⟨expired, rfl, -, -, rfl⟩ | ⟨rfl, hfin⟩ |
    ⟨newID, d, rfl, -, rfl⟩ | ⟨expired, rfl, -, rfl⟩
  · rfl
  · obtain ⟨-, -, ⟨_, -, rfl⟩ | ⟨_, _, -, rfl⟩⟩ := writePop_cases hpop <;> rfl
  · obtain ⟨_, -, rfl⟩ := writePush_cases hpush
    rfl
  · have hid : r.1.id = writer := (Child.readSync_frame hr).1.trans (Keyed.key_of_lookup hfind)
    rw [findConnection_updateChild (fun _ _ => hid), if_neg]
    exact fun he => hreads (congrArg some he.symm)
  · exact findConnection_processOutgoing expired
  · exact findConnection_finishStep_of_ne hk hfin
  · exact findConnection_handlePacket_of_ne newID (fun he => hheard (congrArg some he.symm))
  · exact findConnection_handleTimeout_of_ne hk hpatient

end Others

section Own

/-- The datagram makes an announcing connection give up its identifier. -/
def Denied (c : Connection) : Datagram → Prop
  | .node type connectionID _ =>
      type = .deny ∧ connectionID = c.id ∧ c.listening = false ∧ c.idAccepted = false
  | .data _ | .ackReq _ _ | .nack _ _ _ | .ack _ _ _ => False

theorem not_denied_of_speaker {d : Datagram} (h : d.speaker ≠ c.id) : ¬ c.Denied d := by
  cases d with
  | node type connectionID data => exact fun hd => h hd.2.1
  | _ => exact not_false

theorem handlePacket_of_denied (newID : U16) {d : Datagram} (h : c.Denied d) :
    c.handlePacket cfg newID d =
      sendSimpleDatagram { c with timeouts := 0, id := newID } .hello newID := by
  cases d with
  | node type connectionID data =>
      obtain ⟨rfl, hid, hl, ha⟩ := h
      simp [handlePacket, hl, ha, handleAcceptIDData, hid]
  | _ => cases h

/-- What only a denial, a timeout or the application changes: the identifier and how far it is
accepted, the packets that go out under it, and what is left to be packed. -/
def outbox (c : Connection) :
    U16 × List Buffer × List Buffer × U16 × List UInt8 × Bool × Bool :=
  (c.id, c.threadBuffers, c.writeBuffers, c.sequence, c.writing, c.idAccepted, c.listening)

/-- All packets queued or kept for repetition are the connection's own. -/
def OwnPackets (c : Connection) : Prop :=
  ∀ b ∈ c.threadBuffers ++ c.writeBuffers, b.data.writerID = c.id

theorem outbox_addConnection (cfg : Config) (c : Connection) (id sequence : U16) :
    (c.addConnection cfg id sequence).outbox = c.outbox := by
  cases h : c.findConnection id with
  | some child => rw [addConnection_of_known h]
  | none =>
      obtain ⟨ds, -, hc⟩ := addConnection_eq cfg c sequence h
      rw [hc]
      rfl

theorem outbox_removeConnection (id : U16) : (c.removeConnection id).outbox = c.outbox := by
  by_cases h : id = c.id
  · rw [removeConnection, if_pos h]
  · obtain ⟨ds, -, hc⟩ := removeConnection_eq c h
    rw [hc]
    rfl

theorem outbox_handlePacket (cfg : Config) (newID : U16) {d : Datagram} (hd : ¬ c.Denied d) :
    (c.handlePacket cfg newID d).outbox = c.outbox := by
  cases d with
  | node type connectionID data =>
      have hinit : ∀ connected : Bool,
          (c.handleInitData cfg connected type connectionID data).outbox = c.outbox := by
        intro connected
        have hc : (if connected then c else { c with timeouts := 0 }).outbox = c.outbox := by
          split_ifs <;> rfl
        cases type with
        | hello => simp only [handleInitData, checkNewID]; split_ifs <;> rfl
        | confirm => exact (outbox_addConnection _ _ _ _).trans hc
        | countNode => rfl
        | helloReply => exact outbox_addConnection _ _ _ _
        | exit => exact outbox_removeConnection _
        | deny => rfl
      have haccept : c.listening = false → c.idAccepted = false →
          (c.handleAcceptIDData cfg newID type connectionID data).outbox = c.outbox := by
        intro hl ha
        cases type with
        | hello => simp only [handleAcceptIDData, checkNewID]; split_ifs <;> rfl
        | helloReply => exact outbox_addConnection _ _ _ _
        | deny =>
            have hne : connectionID ≠ c.id := fun he => hd ⟨rfl, he, hl, ha⟩
            simp only [handleAcceptIDData, if_neg hne]
        | exit => exact outbox_removeConnection _
        | confirm => rfl
        | countNode => rfl
      simp only [handlePacket]
      split_ifs with hl ha
      · exact hinit true
      · exact hinit false
      · exact haccept (eq_false_of_ne_true hl) (eq_false_of_ne_true ha)
  | data d =>
      simp only [handlePacket]
      split_ifs
      · rcases handleData_cases cfg d c with ⟨-, h⟩ | ⟨child, queue, ds, -, -, h⟩ <;> rw [h]
        rfl
      · rfl
  | ack readerID writerID sequence =>
      simp only [handlePacket]
      split_ifs
      · rcases handleAck_cases cfg readerID writerID sequence c with
          ⟨-, h⟩ | ⟨_, -, -, -, ⟨-, h⟩ | ⟨_, -, -, h⟩⟩ <;> rw [h] <;> rfl
      · rfl
  | nack readerID writerID nacks =>
      simp only [handlePacket]
      split_ifs
      · obtain ⟨_, _, h⟩ := handleNack_cases readerID writerID nacks c
        rw [h]
        rfl
      · rfl
  | ackReq writerID reqID =>
      simp only [handlePacket]
      split_ifs
      · obtain ⟨_, _, -, h⟩ := handleAckRequest_cases cfg writerID reqID c
        rw [h]
        rfl
      · rfl

theorem finishing_handlePacket (cfg : Config) (c : Connection) (newID : U16) {d : Datagram}
    (hack : d.isAck = false) : (c.handlePacket cfg newID d).finishing = c.finishing := by
  have hadd : ∀ (c' : Connection) (id sequence : U16), c'.finishing = c.finishing →
      (c'.addConnection cfg id sequence).finishing = c.finishing := by
    intro c' id sequence hc'
    cases hfind : c'.findConnection id with
    | some child => rw [addConnection_of_known hfind, hc']
    | none =>
        obtain ⟨ds, -, hc⟩ := addConnection_eq cfg c' sequence hfind
        rw [hc]
        exact hc'
  have hremove : ∀ id : U16, (c.removeConnection id).finishing = c.finishing := by
    intro id
    by_cases hid : id = c.id
    · rw [removeConnection, if_pos hid]
    · obtain ⟨ds, -, hc⟩ := removeConnection_eq c hid
      rw [hc]
  cases d with
  | ack readerID writerID sequence => cases hack
  | node type connectionID data =>
      have hinit : ∀ connected : Bool,
          (c.handleInitData cfg connected type connectionID data).finishing = c.finishing := by
        intro connected
        cases type with
        | hello => simp only [handleInitData, checkNewID]; split_ifs <;> rfl
        | confirm => exact hadd _ _ _ (by split_ifs <;> rfl)
        | countNode => rfl
        | helloReply => exact hadd _ _ _ rfl
        | exit => exact hremove _
        | deny => rfl
      have haccept : (c.handleAcceptIDData cfg newID type connectionID data).finishing =
          c.finishing := by
        cases type with
        | hello => simp only [handleAcceptIDData, checkNewID]; split_ifs <;> rfl
        | helloReply => exact hadd _ _ _ rfl
        | deny => simp only [handleAcceptIDData]; split_ifs <;> rfl
        | exit => exact hremove _
        | confirm => rfl
        | countNode => rfl
      simp only [handlePacket]
      split_ifs
      · exact hinit true
      · exact hinit false
      · exact haccept
  | data d =>
      simp only [handlePacket]
      split_ifs
      · rcases handleData_cases cfg d c with ⟨-, h⟩ | ⟨child, queue, ds, -, -, h⟩ <;> rw [h]
        rfl
      · rfl
  | nack readerID writerID nacks =>
      simp only [handlePacket]
      split_ifs
      · obtain ⟨_, _, h⟩ := handleNack_cases readerID writerID nacks c
        rw [h]
      · rfl
  | ackReq writerID reqID =>
      simp only [handlePacket]
      split_ifs
      · obtain ⟨_, _, -, h⟩ := handleAckRequest_cases cfg writerID reqID c
        rw [h]
      · rfl

theorem OwnPackets.queued (h : c.OwnPackets) {b : Buffer} {queue : List Buffer}
    (hq : c.threadBuffers = b :: queue) :
    (c.queued b (mergeWrites cfg { b.data with sequence := c.sequence } queue)).OwnPackets := by
  intro x hx
  have hsplit := mergeWrites_queue cfg { b.data with sequence := c.sequence } queue
  rcases List.mem_append.1 hx with hx | hx
  · refine h x (List.mem_append_left _ ?_)
    rw [hq, ← hsplit]
    exact List.mem_cons_of_mem _ (List.mem_append_right _ hx)
  · rcases List.mem_append.1 hx with hx | hx
    · exact h x (List.mem_append_right _ hx)
    · rw [List.mem_singleton.1 hx]
      refine (mergeWrites_header cfg _ queue).2.trans (h b (List.mem_append_left _ ?_))
      exact hq ▸ List.mem_cons_self

theorem OwnPackets.processOutgoing (h : c.OwnPackets) (expired : Bool) :
    (c.processOutgoing cfg expired).id = c.id ∧
      (c.processOutgoing cfg expired).OwnPackets := by
  obtain ⟨base, t, ds, hbase, -, hp⟩ := processOutgoing_cases cfg expired c
  have hb : base.id = c.id ∧ base.OwnPackets := by
    rcases hbase with ⟨-, rfl⟩ | ⟨-, rfl⟩
    · rcases writeData_cases cfg c with ⟨-, hw⟩ | ⟨b, queue, hq, ⟨-, hw⟩ | ⟨-, hw⟩⟩
      · rw [hw]
        exact ⟨rfl, h⟩
      all_goals
        rw [hw]
        exact ⟨rfl, h.queued hq⟩
    · exact ⟨rfl, h⟩
  rw [hp]
  exact hb

theorem OwnPackets.handleTimeout (h : c.OwnPackets) {expired : Bool} (hw : ¬ c.waitedOut expired) :
    (c.handleTimeout cfg expired).id = c.id ∧ (c.handleTimeout cfg expired).OwnPackets := by
  unfold Connection.handleTimeout
  split_ifs
  · rw [handleConnectedTimeout_of_patient hw]
    exact h.processOutgoing expired
  · unfold handleInitTimeout
    split_ifs
    · obtain ⟨ds, -, hc⟩ := sendCountNode_eq { c with timeouts := c.timeouts + 1 }
      rw [hc]
      exact ⟨rfl, h⟩
    · exact ⟨rfl, h⟩
  · unfold handleAcceptIDTimeout
    split_ifs
    · exact ⟨rfl, h⟩
    · obtain ⟨ds, -, hc⟩ := sendCountNode_eq
        { (c.sendSimpleDatagram .confirm c.id).addConnection cfg c.id c.sequence with
          idAccepted := true, timeouts := 0 }
      simp only at hc ⊢
      have hout := outbox_addConnection cfg (c.sendSimpleDatagram .confirm c.id) c.id
        c.sequence
      simp only [outbox, Prod.mk.injEq] at hout
      rw [hc]
      refine ⟨hout.1, ?_⟩
      rw [OwnPackets]
      simp only [hout.1, hout.2.1, hout.2.2.1]
      exact h

theorem OwnPackets.writePush (h : c.OwnPackets) (hc : c.writePush cfg = some c') :
    c'.id = c.id ∧ c'.OwnPackets := by
  obtain ⟨b, -, rfl⟩ := writePush_cases hc
  refine ⟨rfl, fun x hx => ?_⟩
  rcases List.mem_append.1 hx with hx | hx
  · simp only [pushThread] at hx
    split_ifs at hx
    · rcases List.mem_append.1 hx with hx | hx
      · exact h x (List.mem_append_left _ hx)
      · rw [List.mem_singleton.1 hx]
        rfl
    · exact h x (List.mem_append_left _ hx)
  · exact h x (List.mem_append_right _ hx)

/-- A connection keeps its identifier, and speaks under no other one, as long as nobody else
answers under it. -/
theorem OwnPackets.step (h : c.OwnPackets) {e : Event} (hheard : e.speaker ≠ some c.id)
    (hpatient : c.Patient e) (hc : c.step cfg e = some c') : c'.id = c.id ∧ c'.OwnPackets := by
  rcases step_cases hc with ⟨bytes, rfl, -, -, rfl⟩ | ⟨rfl, hpop⟩ | ⟨rfl, hpush⟩ |
    ⟨_, _, _, _, rfl, -, -, rfl⟩ | ⟨expired, rfl, -, -, rfl⟩ | ⟨rfl, hfin⟩ | ⟨newID, d, rfl, -, rfl⟩ |
    ⟨expired, rfl, -, rfl⟩
  · exact ⟨rfl, h⟩
  · obtain ⟨-, -, ⟨_, -, rfl⟩ | ⟨_, _, -, rfl⟩⟩ := writePop_cases hpop <;> exact ⟨rfl, h⟩
  · exact h.writePush hpush
  · exact ⟨rfl, h⟩
  · exact h.processOutgoing expired
  · obtain ⟨f, self, -, -, ⟨-, rfl⟩ | ⟨a, free, b, rest, hw, -, -, rfl⟩ | ⟨-, -, -, rfl⟩⟩ :=
      finishStep_cases hfin
    · exact ⟨rfl, h⟩
    · refine ⟨rfl, fun x hx => ?_⟩
      rcases List.mem_append.1 hx with hx | hx
      · exact h x (List.mem_append_left _ hx)
      · exact h x (List.mem_append_right _ (hw ▸ List.mem_cons_of_mem _ hx))
    · exact ⟨rfl, h⟩
  · have hout := outbox_handlePacket cfg newID
      (not_denied_of_speaker (fun he => hheard (congrArg some he)))
    simp only [outbox, Prod.mk.injEq] at hout
    refine ⟨hout.1, ?_⟩
    rw [OwnPackets, hout.1, hout.2.1, hout.2.2.1]
    exact h
  · exact h.handleTimeout hpatient

end Own
end Connection
end Collage.Rsp
