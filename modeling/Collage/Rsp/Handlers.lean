import Collage.Rsp.ChildBuffers
import Collage.Rsp.Connection

/-!
# What the handlers of a listener do

One lemma per handler lists all its outcomes, guards included. Every invariant of a connection is
proved from these lists.
-/

namespace Collage.Rsp.Connection

variable {cfg : Config} {c : Connection}

@[simp] theorem updateChild_id (k : U16) (f : Child → Child) : (c.updateChild k f).id = c.id := rfl

theorem findConnection_updateChild {k : U16} {f : Child → Child}
    (hid : ∀ child, child.id = k → (f child).id = k) (k' : U16) :
    (c.updateChild k f).findConnection k' =
      if k' = k then (c.findConnection k).map f else c.findConnection k' :=
  Keyed.lookup_update hid

theorem ids_updateChild {k : U16} {f : Child → Child}
    (hid : ∀ child, child.id = k → (f child).id = k) :
    (c.updateChild k f).children.map Child.id = c.children.map Child.id :=
  Keyed.map_update (fun child _ hk => (hid child hk).trans hk.symm)

theorem sendCountNode_eq (c : Connection) :
    ∃ ds, (∀ d ∈ ds, ∃ count, d = .node .countNode c.id count) ∧
      c.sendCountNode = { c with sent := c.sent ++ ds } := by
  unfold sendCountNode
  split_ifs
  · exact ⟨_, fun d hd => ⟨_, List.mem_singleton.1 hd⟩, rfl⟩
  · exact ⟨[], by simp, by simp⟩

theorem addConnection_eq (cfg : Config) (c : Connection) {id : U16} (sequence : U16)
    (h : c.findConnection id = none) :
    ∃ ds, (∀ d ∈ ds, ∃ count, d = .node .countNode c.id count) ∧
      c.addConnection cfg id sequence =
        { c with children := c.children ++ [Child.new cfg id sequence], sent := c.sent ++ ds } := by
  unfold addConnection
  rw [h, if_neg (by simp)]
  exact sendCountNode_eq { c with children := c.children ++ [Child.new cfg id sequence] }

theorem addConnection_of_known {id : U16} {child : Child} (h : c.findConnection id = some child)
    (sequence : U16) : c.addConnection cfg id sequence = c := by
  rw [addConnection, h]
  rfl

theorem removeConnection_eq (c : Connection) {id : U16} (h : id ≠ c.id) :
    ∃ ds, (∀ d ∈ ds, ∃ count, d = .node .countNode c.id count) ∧
      c.removeConnection id =
        { c with
          children := c.children.eraseP (fun child => child.id = id)
          sent := c.sent ++ ds } := by
  unfold removeConnection
  rw [if_neg h]
  exact sendCountNode_eq { c with children := c.children.eraseP (fun child => child.id = id) }

theorem mergeWrites_queue (cfg : Config) (d : DatagramData) (queue : List Buffer) :
    (mergeWrites cfg d queue).2.1 ++ (mergeWrites cfg d queue).2.2 = queue := by
  induction queue generalizing d with
  | nil => rfl
  | cons b queue ih =>
      simp only [mergeWrites]
      split_ifs
      · rw [List.cons_append, ih]
      · rfl

theorem mergeWrites_header (cfg : Config) (d : DatagramData) (queue : List Buffer) :
    (mergeWrites cfg d queue).1.sequence = d.sequence ∧
      (mergeWrites cfg d queue).1.writerID = d.writerID := by
  induction queue generalizing d with
  | nil => exact ⟨rfl, rfl⟩
  | cons b queue ih =>
      simp only [mergeWrites]
      split_ifs
      · exact ih _
      · exact ⟨rfl, rfl⟩

/-- The connection after `_writeData` has queued the packet `merged`, built from the front buffer
`b`, and before it looks whether it is alone. -/
def queued (c : Connection) (b : Buffer) (merged : DatagramData × List Buffer × List Buffer) :
    Connection :=
  { c with
    timeouts := 0
    sequence := c.sequence + 1
    threadBuffers := merged.2.2
    appBuffers := c.appBuffers ++ merged.2.1.map some
    writeBuffers := c.writeBuffers ++ [{ b with data := merged.1 }]
    sent := c.sent ++ [.data { merged.1 with payload := merged.1.bytes }] }

theorem writeData_cases (cfg : Config) (c : Connection) :
    c.threadBuffers = [] ∧ c.writeData cfg = c ∨
    ∃ b queue, c.threadBuffers = b :: queue ∧
      (c.children.length ≠ 1 ∧ c.writeData cfg =
          c.queued b (mergeWrites cfg { b.data with sequence := c.sequence } queue) ∨
        c.children.length = 1 ∧ c.writeData cfg =
          (c.queued b (mergeWrites cfg { b.data with sequence := c.sequence } queue)).finishWriteQueue
            c.sequence) := by
  cases hq : c.threadBuffers with
  | nil => left; simp [writeData, hq]
  | cons b queue =>
      right
      refine ⟨b, queue, rfl, ?_⟩
      by_cases hone : c.children.length = 1
      · right; simp [writeData, hq, hone, queued]
      · left; simp [writeData, hq, hone, queued]

/-- After sending, `_processOutgoing` changes only the timeout counter and may ask for an ack. -/
theorem processOutgoing_cases (cfg : Config) (expired : Bool) (c : Connection) :
    ∃ base t ds, (c.repeatQueue = [] ∧ base = c.writeData cfg ∨
        c.repeatQueue ≠ [] ∧ base = c.repeatData) ∧
      (ds = [] ∨ ds = [.ackReq c.id (base.sequence - 1)]) ∧
      c.processOutgoing cfg expired = { base with timeouts := t, sent := base.sent ++ ds } := by
  refine ⟨if c.repeatQueue = [] then c.writeData cfg else c.repeatData, ?_⟩
  have hbase : c.repeatQueue = [] ∧
        (if c.repeatQueue = [] then c.writeData cfg else c.repeatData) = c.writeData cfg ∨
      c.repeatQueue ≠ [] ∧
        (if c.repeatQueue = [] then c.writeData cfg else c.repeatData) = c.repeatData := by
    split_ifs with hq
    · exact Or.inl ⟨hq, rfl⟩
    · exact Or.inr ⟨hq, rfl⟩
  unfold processOutgoing
  generalize (if c.repeatQueue = [] then c.writeData cfg else c.repeatData) = c' at *
  simp only
  split_ifs
  · exact ⟨c'.timeouts, [], hbase, Or.inl rfl, by simp⟩
  · exact ⟨0, [], hbase, Or.inl rfl, by simp⟩
  · exact ⟨c'.timeouts + 1, [.ackReq c.id (c'.sequence - 1)], hbase, Or.inr rfl, rfl⟩
  · exact ⟨c'.timeouts + 1, [], hbase, Or.inl rfl, by simp⟩
  · exact ⟨c'.timeouts, [], hbase, Or.inl rfl, by simp⟩

/-- One turn of `_finishWriteQueue` with the loopback child's free buffer `a` and the oldest
packet `b`. -/
def released (c : Connection) (f : Finish) (self : Child) (a : Buffer) (free : List Buffer)
    (b : Buffer) (rest : List Buffer) : Connection :=
  { c.updateChild c.id (fun _ => { self with threadBuffers := free }) with
    writeBuffers := rest
    finishing := some { f with
      readBuffers := f.readBuffers ++ [{ a with data := b.data }]
      freeBuffers := f.freeBuffers ++ [{ b with data := a.data }] } }

theorem findConnection_released (f : Finish) {self : Child} (a b : Buffer)
    (free rest : List Buffer) (hself : c.findConnection c.id = some self) (k : U16) :
    (c.released f self a free b rest).findConnection k =
      if k = c.id then some { self with threadBuffers := free } else c.findConnection k := by
  have hid := Keyed.key_of_lookup hself
  have h := findConnection_updateChild (c := c) (k := c.id)
    (f := fun _ => { self with threadBuffers := free }) (fun _ _ => hid) k
  rw [hself] at h
  exact h

theorem findConnection_postReadBuffers {f : Finish} (k : U16) :
    (c.postReadBuffers f).findConnection k =
      if k = c.id then (c.findConnection c.id).map (Child.post f.readBuffers)
      else c.findConnection k :=
  findConnection_updateChild (c := c) (f := Child.post f.readBuffers) (fun _ hk => hk) k

theorem findConnection_finishEnd {f : Finish} (k : U16) :
    (c.finishEnd f).findConnection k =
      if k = c.id then ((c.postReadBuffers f).findConnection c.id).map
        (fun self => self.setAcked (self.sequence - 1))
      else (c.postReadBuffers f).findConnection k :=
  findConnection_updateChild (c := c.postReadBuffers f)
    (f := fun self => self.setAcked (self.sequence - 1)) (fun _ hk => hk) k

theorem findConnection_recordAck (readerID sequence k : U16) :
    (c.recordAck readerID sequence).findConnection k =
      if k = readerID then (c.findConnection readerID).map (Child.setAcked sequence)
      else c.findConnection k :=
  findConnection_updateChild (c := c) (f := Child.setAcked sequence) (fun _ hk => hk) k

theorem finishStep_cases {c' : Connection} (h : c.finishStep = some c') :
    ∃ f self, c.finishing = some f ∧ c.findConnection c.id = some self ∧
      (c.writeBuffers.length ≤ f.size.toNat ∧ c' = c.finishEnd f ∨
      (∃ a free b rest, c.writeBuffers = b :: rest ∧ f.size.toNat < c.writeBuffers.length ∧
        self.threadBuffers = a :: free ∧ c' = c.released f self a free b rest) ∨
      (f.size.toNat < c.writeBuffers.length ∧ self.threadBuffers = [] ∧ f.readBuffers ≠ [] ∧
        c' = c.postReadBuffers f)) := by
  unfold finishStep at h
  cases hf : c.finishing with
  | none => simp [hf] at h
  | some f =>
  cases hself : c.findConnection c.id with
  | none => simp [hf, hself] at h
  | some self =>
  refine ⟨f, self, rfl, rfl, ?_⟩
  cases hw : c.writeBuffers with
  | nil =>
      simp only [hf, hself, hw, Option.some.injEq] at h
      exact Or.inl ⟨by simp, h.symm⟩
  | cons b rest =>
      by_cases hsize : rest.length + 1 ≤ f.size.toNat
      · simp only [hf, hself, hw, hsize, if_true, Option.some.injEq] at h
        exact Or.inl ⟨by simpa using hsize, h.symm⟩
      simp only [hf, hself, hw, hsize, if_false] at h
      have hlt : f.size.toNat < (b :: rest).length := by simpa using hsize
      cases hq : self.threadBuffers with
      | nil =>
          simp only [Child.newDataBuffer, hq] at h
          split_ifs at h with hr
          simp only [Option.some.injEq] at h
          exact Or.inr (Or.inr ⟨hlt, rfl, hr, h.symm⟩)
      | cons a free =>
          simp only [Child.newDataBuffer, hq, Option.some.injEq] at h
          exact Or.inr (Or.inl ⟨a, free, b, rest, rfl, hlt, rfl, h.symm⟩)

theorem handleAck_cases (cfg : Config) (readerID writerID sequence : U16) (c : Connection) :
    ((writerID = c.id → ∀ reader, c.findConnection readerID = some reader →
      late cfg reader.acked sequence = true) ∧ c.handleAck cfg readerID writerID sequence = c) ∨
    ∃ reader, writerID = c.id ∧ c.findConnection readerID = some reader ∧
      late cfg reader.acked sequence = false ∧
      ((∀ self, (c.recordAck readerID sequence).findConnection c.id = some self →
          cfg.numBuffers < ((c.recordAck readerID sequence).minAcked cfg sequence -
            self.acked).toNat) ∧
          c.handleAck cfg readerID writerID sequence = c.recordAck readerID sequence ∨
        ∃ self, (c.recordAck readerID sequence).findConnection c.id = some self ∧
          ((c.recordAck readerID sequence).minAcked cfg sequence - self.acked).toNat ≤
            cfg.numBuffers ∧
          c.handleAck cfg readerID writerID sequence =
            (c.recordAck readerID sequence).finishWriteQueue
              ((c.recordAck readerID sequence).minAcked cfg sequence)) := by
  unfold handleAck
  by_cases hw : writerID = c.id
  · cases hr : c.findConnection readerID with
    | none => left; exact ⟨by simp, by simp [hw]⟩
    | some reader =>
        by_cases hl : late cfg reader.acked sequence = true
        · left
          exact ⟨fun _ reader' h => Option.some.inj h ▸ hl, by simp [hw, hl]⟩
        right
        refine ⟨reader, hw, rfl, by simpa using hl, ?_⟩
        cases hs : (c.recordAck readerID sequence).findConnection c.id with
        | none => left; exact ⟨by simp, by simp [hw, hl, hs]⟩
        | some self =>
            by_cases hd : ((c.recordAck readerID sequence).minAcked cfg sequence -
                self.acked).toNat ≤ cfg.numBuffers
            · refine Or.inr ⟨self, rfl, hd, ?_⟩
              simp only [hw, hl, hs, hd, if_true, if_false, ne_eq, not_true_eq_false,
                Bool.false_eq_true]
            · left
              refine ⟨fun self' h => Option.some.inj h ▸ not_le.1 hd, ?_⟩
              simp only [hw, hl, hs, hd, if_false, ne_eq, not_true_eq_false, Bool.false_eq_true]
  · left; exact ⟨fun h => absurd h hw, by simp [hw]⟩

theorem sendNack_cases (c : Connection) (writerID : U16) (nacks : List Nack) :
    ∃ queue ds, (∀ d ∈ ds, d = .nack c.id writerID nacks) ∧
      c.sendNack writerID nacks = { c with repeatQueue := queue, sent := c.sent ++ ds } := by
  unfold sendNack
  split_ifs
  · exact ⟨(addRepeat c.repeatQueue nacks).1, [], by simp, by simp⟩
  · exact ⟨c.repeatQueue, [.nack c.id writerID nacks], by simp, rfl⟩

theorem handleData_cases (cfg : Config) (d : DatagramData) (c : Connection) :
    c.findConnection d.writerID = none ∧ c.handleData cfg d = c ∨
    ∃ child queue ds, c.findConnection d.writerID = some child ∧
      (∀ x ∈ ds, ∃ nacks, x = .nack c.id d.writerID nacks) ∧
      c.handleData cfg d =
        { c.updateChild d.writerID (fun _ => (child.handleData cfg c.id d).1) with
          repeatQueue := queue
          sent := c.sent ++ (child.handleData cfg c.id d).2.1.map (Datagram.ack c.id d.writerID) ++
            ds } := by
  unfold handleData
  cases hfind : c.findConnection d.writerID with
  | none => exact Or.inl ⟨rfl, rfl⟩
  | some child =>
      refine Or.inr ⟨child, ?_⟩
      cases hn : (child.handleData cfg c.id d).2.2 with
      | none => exact ⟨c.repeatQueue, [], rfl, by simp, by simp only [hn, List.append_nil]; rfl⟩
      | some nack =>
          obtain ⟨queue, ds, hds, hs⟩ := sendNack_cases
            ((c.updateChild d.writerID (fun _ => (child.handleData cfg c.id d).1)).send
              ((child.handleData cfg c.id d).2.1.map (Datagram.ack c.id d.writerID)))
            d.writerID [nack]
          refine ⟨queue, ds, rfl, fun x hx => ⟨_, hds x hx⟩, ?_⟩
          simp only [hn]
          exact hs

theorem handleNack_cases (readerID writerID : U16) (nacks : List Nack) (c : Connection) :
    ∃ t queue, c.handleNack readerID writerID nacks =
      { c with timeouts := t, repeatQueue := queue } := by
  unfold handleNack
  split_ifs
  · exact ⟨c.timeouts, c.repeatQueue, rfl⟩
  · cases c.findConnection readerID with
    | none => exact ⟨c.timeouts, c.repeatQueue, rfl⟩
    | some reader => exact ⟨0, _, rfl⟩

theorem handleAckRequest_cases (cfg : Config) (writerID reqID : U16) (c : Connection) :
    ∃ queue ds, (∀ d ∈ ds, (∃ nacks, d = .nack c.id writerID nacks) ∨
        ∃ child, c.findConnection writerID = some child ∧
          d = .ack c.id writerID (child.sequence - 1)) ∧
      c.handleAckRequest cfg writerID reqID =
        { c with repeatQueue := queue, sent := c.sent ++ ds } := by
  unfold handleAckRequest
  cases c.findConnection writerID with
  | none => exact ⟨c.repeatQueue, [], by simp, by simp⟩
  | some child =>
      simp only
      split_ifs
      · exact ⟨c.repeatQueue, [.ack c.id writerID (child.sequence - 1)], by simp, rfl⟩
      · obtain ⟨queue, ds, hds, hs⟩ := sendNack_cases c writerID
          (ackRequestNacks cfg.numBuffers child.sequence reqID child.recvBuffers)
        exact ⟨queue, ds, fun d hd => Or.inl ⟨_, hds d hd⟩, hs⟩

/-- What no handler of a listening connection touches: its identifier and its phase. -/
def phase (c : Connection) : U16 × Bool × Bool := (c.id, c.listening, c.stopped)

theorem phase_addConnection (id sequence : U16) :
    (c.addConnection cfg id sequence).phase = c.phase := by
  cases h : c.findConnection id with
  | some child => rw [addConnection, h]; rfl
  | none =>
      obtain ⟨ds, -, hc⟩ := addConnection_eq cfg c sequence h
      rw [hc]
      rfl

theorem phase_removeConnection (id : U16) : (c.removeConnection id).phase = c.phase := by
  by_cases h : id = c.id
  · rw [removeConnection, if_pos h]
  · obtain ⟨ds, -, hc⟩ := removeConnection_eq c h
    rw [hc]
    rfl

theorem phase_handleData (cfg : Config) (c : Connection) (d : DatagramData) :
    (c.handleData cfg d).phase = c.phase := by
  rcases handleData_cases cfg d c with ⟨-, h⟩ | ⟨_, _, _, -, -, h⟩
  · rw [h]
  · rw [h]
    rfl

theorem phase_handleAck (cfg : Config) (c : Connection) (readerID writerID sequence : U16) :
    (c.handleAck cfg readerID writerID sequence).phase = c.phase := by
  rcases handleAck_cases cfg readerID writerID sequence c with
    ⟨-, h⟩ | ⟨_, -, -, -, ⟨-, h⟩ | ⟨_, -, -, h⟩⟩ <;> rw [h] <;> rfl

theorem phase_handleNack (readerID writerID : U16) (nacks : List Nack) :
    (c.handleNack readerID writerID nacks).phase = c.phase := by
  obtain ⟨_, _, h⟩ := handleNack_cases readerID writerID nacks c
  rw [h]
  rfl

theorem phase_handleAckRequest (writerID reqID : U16) :
    (c.handleAckRequest cfg writerID reqID).phase = c.phase := by
  obtain ⟨_, _, -, h⟩ := handleAckRequest_cases cfg writerID reqID c
  rw [h]
  rfl

theorem phase_handleInitData (connected : Bool) (type : NodeType) (connectionID data : U16) :
    (c.handleInitData cfg connected type connectionID data).phase = c.phase := by
  have hc : (if connected then c else { c with timeouts := 0 }).phase = c.phase := by
    split_ifs <;> rfl
  cases type with
  | hello => simp only [handleInitData, checkNewID]; split_ifs <;> rfl
  | confirm => exact phase_addConnection _ _ |>.trans hc
  | countNode => rfl
  | helloReply => exact phase_addConnection _ _
  | exit => exact phase_removeConnection _
  | deny => rfl

theorem phase_handlePacket (hl : c.listening = true) (newID : U16) (d : Datagram) :
    (c.handlePacket cfg newID d).phase = c.phase := by
  cases d with
  | data d => simp only [handlePacket, hl, if_true]; exact phase_handleData cfg c d
  | ack readerID writerID sequence =>
      simp only [handlePacket, hl, if_true]; exact phase_handleAck cfg c _ _ _
  | nack readerID writerID nacks =>
      simp only [handlePacket, hl, if_true]; exact phase_handleNack _ _ _
  | ackReq writerID sequence =>
      simp only [handlePacket, hl, if_true]; exact phase_handleAckRequest _ _
  | node type connectionID data =>
      simp only [handlePacket, hl, if_true]; exact phase_handleInitData _ _ _ _

theorem phase_processOutgoing (cfg : Config) (c : Connection) (expired : Bool) :
    (c.processOutgoing cfg expired).phase = c.phase := by
  obtain ⟨base, t, ds, hbase, -, hp⟩ := processOutgoing_cases cfg expired c
  have hb : base.phase = c.phase := by
    rcases hbase with ⟨-, rfl⟩ | ⟨-, rfl⟩
    · rcases writeData_cases cfg c with ⟨-, h⟩ | ⟨b, queue, -, ⟨-, h⟩ | ⟨-, h⟩⟩ <;> rw [h] <;> rfl
    · rfl
  rw [hp]
  exact hb

theorem phase_finishStep {c' : Connection} (h : c.finishStep = some c') : c'.phase = c.phase := by
  obtain ⟨f, self, -, -, ⟨-, rfl⟩ | ⟨a, free, b, rest, -, -, -, rfl⟩ | ⟨-, -, -, rfl⟩⟩ :=
    finishStep_cases h <;> rfl

theorem writePop_cases {c' : Connection} (h : c.writePop = some c') :
    c.writing ≠ [] ∧ c.inHand = none ∧
      ((∃ rest, c.appBuffers = none :: rest ∧ c' = { c with appBuffers := rest, writing := [] }) ∨
      ∃ b rest, c.appBuffers = some b :: rest ∧
        c' = { c with appBuffers := rest, inHand := some b }) := by
  unfold writePop at h
  split_ifs at h with hguard
  simp only [not_or, Option.not_isSome_iff_eq_none] at hguard
  refine ⟨hguard.1, hguard.2, ?_⟩
  cases hq : c.appBuffers with
  | nil => simp [hq] at h
  | cons b rest =>
      cases b with
      | none =>
          simp only [hq, Option.some.injEq] at h
          exact Or.inl ⟨rest, rfl, h.symm⟩
      | some b =>
          simp only [hq, Option.some.injEq] at h
          exact Or.inr ⟨b, rest, rfl, h.symm⟩

/-- The packet the running `write` call makes of the next bytes. -/
def nextPacket (cfg : Config) (c : Connection) (b : Buffer) : Buffer :=
  { b with data := { b.data with
      size := BitVec.ofNat 16 (c.writing.take cfg.payloadSize).length
      writerID := c.id
      payload := c.writing.take cfg.payloadSize } }

theorem writePush_cases {c' : Connection} (h : c.writePush cfg = some c') :
    ∃ b, c.inHand = some b ∧ c' = { c with
      threadBuffers := pushThread cfg.numBuffers c.threadBuffers (c.nextPacket cfg b)
      writing := c.writing.drop cfg.payloadSize
      inHand := none } := by
  unfold writePush at h
  cases hb : c.inHand with
  | none => simp [hb] at h
  | some b =>
      simp only [hb, Option.some.injEq] at h
      exact ⟨b, rfl, h.symm⟩

theorem step_cases {e : Event} {c' : Connection} (h : c.step cfg e = some c') :
    (∃ bytes, e = .write bytes ∧ c.writing = [] ∧ c.inHand = none ∧
      c' = { c with writing := bytes }) ∨
    (e = .writePop ∧ c.writePop = some c') ∨
    (e = .writePush ∧ c.writePush cfg = some c') ∨
    (∃ writer n child r, e = .read writer n ∧ c.findConnection writer = some child ∧
      child.readSync cfg n = some r ∧ c' = c.updateChild writer (fun _ => r.1)) ∨
    (∃ expired, e = .outgoing expired ∧ c.idle = true ∧ c.listening = true ∧
      c' = c.processOutgoing cfg expired) ∨
    (e = .finishStep ∧ c.finishStep = some c') ∨
    (∃ newID d, e = .packet newID d ∧ c.idle = true ∧ c' = c.handlePacket cfg newID d) ∨
    (∃ expired, e = .timeout expired ∧ c.idle = true ∧ c' = c.handleTimeout cfg expired) := by
  cases e with
  | write bytes =>
      simp only [step, Option.ite_none_right_eq_some, Option.some.injEq] at h
      exact Or.inl ⟨bytes, rfl, h.1.1, h.1.2, h.2.symm⟩
  | writePop => exact Or.inr (Or.inl ⟨rfl, h⟩)
  | writePush => exact Or.inr (Or.inr (Or.inl ⟨rfl, h⟩))
  | read writer n =>
      simp only [step, Option.bind_eq_some_iff, Option.map_eq_some_iff] at h
      obtain ⟨child, hfind, r, hr, rfl⟩ := h
      exact Or.inr (Or.inr (Or.inr (Or.inl ⟨writer, n, child, r, rfl, hfind, hr, rfl⟩)))
  | outgoing expired =>
      simp only [step, Option.ite_none_right_eq_some, Option.some.injEq] at h
      exact Or.inr (Or.inr (Or.inr (Or.inr (Or.inl ⟨expired, rfl, h.1.1, h.1.2, h.2.symm⟩))))
  | finishStep => exact Or.inr (Or.inr (Or.inr (Or.inr (Or.inr (Or.inl ⟨rfl, h⟩)))))
  | packet newID d =>
      simp only [step, Option.ite_none_right_eq_some, Option.some.injEq] at h
      exact Or.inr (Or.inr (Or.inr (Or.inr (Or.inr (Or.inr
        (Or.inl ⟨newID, d, rfl, h.1, h.2.symm⟩))))))
  | timeout expired =>
      simp only [step, Option.ite_none_right_eq_some, Option.some.injEq] at h
      exact Or.inr (Or.inr (Or.inr (Or.inr (Or.inr (Or.inr
        (Or.inr ⟨expired, rfl, h.1, h.2.symm⟩))))))

theorem finishing_of_idle (h : c.idle = true) : c.finishing = none := by
  simp only [idle, Bool.and_eq_true, Option.isNone_iff_eq_none] at h
  exact h.2

theorem stopped_of_idle (h : c.idle = true) : c.stopped = false := by
  simp only [idle, Bool.and_eq_true, Bool.not_eq_true'] at h
  exact h.1

theorem phase_step {e : Event} {c' : Connection} (hl : c.listening = true)
    (he : ∀ expired, e ≠ .timeout expired) (h : c.step cfg e = some c') : c'.phase = c.phase := by
  rcases step_cases h with ⟨bytes, -, -, -, rfl⟩ | ⟨-, h⟩ | ⟨-, h⟩ | ⟨_, _, _, _, -, -, -, rfl⟩ |
    ⟨expired, -, -, -, rfl⟩ | ⟨-, h⟩ | ⟨newID, d, -, -, rfl⟩ | ⟨expired, rfl, -, -⟩
  · rfl
  · obtain ⟨-, -, ⟨_, -, rfl⟩ | ⟨_, _, -, rfl⟩⟩ := writePop_cases h <;> rfl
  · obtain ⟨_, -, rfl⟩ := writePush_cases h
    rfl
  · rfl
  · exact phase_processOutgoing cfg _ expired
  · exact phase_finishStep h
  · exact phase_handlePacket hl newID d
  · exact absurd rfl (he expired)

end Collage.Rsp.Connection
