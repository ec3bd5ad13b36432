import Collage.Rsp.Conservation
import Collage.Rsp.Resent
import Collage.Rsp.Speaker

/-!
# What the release of packets asserts

`_finishWriteQueue` asserts that it finds what it is told to release, and `_clearWriteQueues` that
nothing is left afterwards. The release loop takes the numbers of the packets from the packets
themselves, and a packet has none before it is sent. The application may therefore not be left out
between the end of `_processOutgoing` and the moment the connection gives up: what it queues there
is moved to the sent packets.
-/

namespace Collage.Rsp

/-- The assertions of `_finishWriteQueue`, in their order, and the one of `_clearWriteQueues`. -/
inductive Assertion
  | unreleased
  | connected
  | received
  | size
  | writer
  | sequence
  | acked
  | cleared
  deriving DecidableEq, Repr

/-- An assertion leaves its name behind when it fails. -/
def Assertion.check (a : Assertion) (p : Prop) [Decidable p] : List Assertion :=
  if p then [] else [a]

theorem Assertion.check_eq_nil {a : Assertion} {p : Prop} [Decidable p] (h : p) : a.check p = [] :=
  if_pos h

namespace Connection

variable {cfg : Config} {c c' : Connection}

/-- What `_handleConnectedTimeout` does after `_processOutgoing`. -/
def checkTimeouts (cfg : Config) (c : Connection) : Connection :=
  if c.timeouts < maxTimeouts then c
  else if c.allFailed cfg then c.giveUp
  else { c.children.foldl evictOrReset c with timeouts := 0 }

theorem handleConnectedTimeout_eq (cfg : Config) (expired : Bool) (c : Connection) :
    c.handleConnectedTimeout cfg expired =
      if (c.processOutgoing cfg expired).finishing.isSome then c.processOutgoing cfg expired
      else (c.processOutgoing cfg expired).checkTimeouts cfg := by
  rw [handleConnectedTimeout, checkTimeouts]
  by_cases hf : (c.processOutgoing cfg expired).finishing.isSome
  · simp only [hf, or_true, if_true]
  · simp only [hf, or_false, Bool.false_eq_true, if_false]

/-- The number the running `_finishWriteQueue` was called with. -/
def target (c : Connection) (f : Finish) : U16 := c.sequence - f.size - 1

/-- The assertions at the start of `_finishWriteQueue`. -/
def entryFailures (c : Connection) : List Assertion :=
  match c.finishing, c.findConnection c.id with
  | none, _ => []
  | some _, none => [.connected]
  | some f, some self =>
      Assertion.unreleased.check (c.writeBuffers ≠ []) ++
      Assertion.received.check (self.recvBuffers = []) ++
      Assertion.size.check (f.size ≤ BitVec.ofNat 16 c.writeBuffers.length)

/-- The assertions after the loop of `_finishWriteQueue`. A connection that has stopped was called
by `_clearWriteQueues`. -/
def endFailures (c : Connection) (f : Finish) : List Assertion :=
  Assertion.acked.check
      (((c.finishEnd f).findConnection c.id).map Child.acked = some (c.target f)) ++
    if c.stopped then Assertion.cleared.check (c.threadBuffers = [] ∧ c.writeBuffers = []) else []

/-- The assertions the next turn of the loop evaluates. -/
def loopFailures (c : Connection) : List Assertion :=
  match c.finishing, c.findConnection c.id with
  | some f, some self =>
      match c.writeBuffers with
      | [] => c.endFailures f
      | b :: rest =>
          if rest.length + 1 ≤ f.size.toNat then c.endFailures f
          else
            Assertion.writer.check (b.data.writerID = c.id) ++
            Assertion.sequence.check
              (b.data.sequence = self.sequence + BitVec.ofNat 16 f.readBuffers.length)
  | _, _ => []

/-- The failures of a step from `c` to `c'`: the release loop goes on, or a function of the protocol
thread has called it. -/
def failures (c : Connection) (e : Event) (c' : Connection) : List Assertion :=
  match e with
  | .finishStep => c.loopFailures
  | .outgoing _ | .packet _ _ | .timeout _ => c'.entryFailures
  | .write _ | .writePop | .writePush | .read _ _ => []

/-- The packets are in order from the number the loopback child expects, and enough of them are
left for what is to be kept. Nothing may wait without a number while a connection that has given up
releases everything. -/
structure Releasing (c : Connection) : Prop where
  numbered : c.Numbered
  own : c.OwnPackets
  loopback : ∃ self, c.findConnection c.id = some self ∧
    self.sequence = c.sequence - BitVec.ofNat 16 (c.posting.length + c.writeBuffers.length) ∧
    self.recvBuffers = []
  kept : ∀ f, c.finishing = some f → f.size.toNat ≤ c.writeBuffers.length
  cleared : ∀ f, c.finishing = some f → c.stopped = true → f.size = 0 ∧ c.threadBuffers = []

section Failures

theorem Releasing.entryFailures (h : c.Releasing) (hlen : c.writeBuffers.length < 2 ^ 16)
    (hwrite : c.writeBuffers ≠ []) : c.entryFailures = [] := by
  obtain ⟨self, hself, -, hrecv⟩ := h.loopback
  unfold Connection.entryFailures
  cases hf : c.finishing with
  | none => rfl
  | some f =>
      have hsize : f.size ≤ BitVec.ofNat 16 c.writeBuffers.length := by
        rw [BitVec.le_def, BitVec.toNat_ofNat, Nat.mod_eq_of_lt hlen]
        exact h.kept f hf
      simp only [hself, Assertion.check_eq_nil hwrite, Assertion.check_eq_nil hrecv,
        Assertion.check_eq_nil hsize, List.append_nil]

theorem Releasing.endFailures (h : c.Releasing) {f : Finish} (hf : c.finishing = some f)
    (hend : c.writeBuffers.length ≤ f.size.toNat) : c.endFailures f = [] := by
  have hlen : c.writeBuffers.length = f.size.toNat := le_antisymm hend (h.kept f hf)
  obtain ⟨self, hself, hseq, -⟩ := h.loopback
  have hpost : c.posting = f.readBuffers := by rw [posting, hf]; rfl
  have hacked : ((c.finishEnd f).findConnection c.id).map Child.acked = some (c.target f) := by
    have hfind := findConnection_finishEnd (c := c) (f := f) c.id
    rw [if_pos rfl, findConnection_postReadBuffers, if_pos rfl, hself] at hfind
    rw [hfind]
    simp only [Option.map_some, Child.setAcked, Child.post, hseq, hpost, target, hlen,
      BitVec.ofNat_add, BitVec.ofNat_toNat, BitVec.setWidth_eq, Option.some.injEq]
    abel
  rw [Connection.endFailures, Assertion.check_eq_nil hacked, List.nil_append]
  split_ifs with hstop
  · obtain ⟨hzero, hthread⟩ := h.cleared f hf hstop
    refine Assertion.check_eq_nil ⟨hthread, List.length_eq_zero_iff.1 ?_⟩
    rw [hlen, hzero]
    rfl
  · rfl

theorem Releasing.loopFailures (h : c.Releasing) : c.loopFailures = [] := by
  obtain ⟨self, hself, hseq, -⟩ := h.loopback
  unfold Connection.loopFailures
  cases hf : c.finishing with
  | none => rfl
  | some f =>
      simp only [hself]
      cases hw : c.writeBuffers with
      | nil => exact h.endFailures hf (by rw [hw]; exact Nat.zero_le _)
      | cons b rest =>
          simp only
          split_ifs with hkept
          · exact h.endFailures hf (by rw [hw]; exact hkept)
          · have hpost : c.posting = f.readBuffers := by rw [posting, hf]; rfl
            have hb := h.numbered 0 b (by rw [hw]; rfl)
            have hnext : b.data.sequence =
                self.sequence + BitVec.ofNat 16 f.readBuffers.length := by
              rw [hb, hseq, hpost, BitVec.ofNat_add, show BitVec.ofNat 16 0 = 0 from rfl]
              abel
            rw [Assertion.check_eq_nil (h.own b (List.mem_append_right _ (hw ▸ List.mem_cons_self))),
              Assertion.check_eq_nil hnext]
            rfl

end Failures

section Handlers

theorem Releasing.congr (h : c.Releasing) (hid : c'.id = c.id) (hs : c'.sequence = c.sequence)
    (ht : c'.threadBuffers = c.threadBuffers) (hw : c'.writeBuffers = c.writeBuffers)
    (hstop : c'.stopped = c.stopped) (hf : c'.finishing = c.finishing)
    (hfind : c'.findConnection c.id = c.findConnection c.id) : c'.Releasing := by
  refine ⟨?_, ?_, ?_, ?_, ?_⟩
  · rw [Numbered, hw, hs]
    exact h.numbered
  · rw [OwnPackets, ht, hw, hid]
    exact h.own
  · rw [hid, hfind, posting, hf, hw, hs]
    exact h.loopback
  · rw [hf, hw]
    exact h.kept
  · rw [hf, hstop, ht]
    exact h.cleared

theorem findConnection_handlePacket_self (hl : c.listening = true)
    (hself : (c.findConnection c.id).isSome) (newID : U16) {d : Datagram} (hd : d.foreign c.id) :
    (c.handlePacket cfg newID d).findConnection c.id = c.findConnection c.id := by
  by_cases hk : c.id = d.speaker
  · cases d with
    | data d => exact absurd hk.symm hd
    | ack readerID writerID sequence => exact absurd hk.symm hd
    | nack readerID writerID nacks =>
        simp only [handlePacket, hl, if_true]
        obtain ⟨_, _, hc⟩ := handleNack_cases readerID writerID nacks c
        rw [hc]
        rfl
    | ackReq writerID sequence =>
        simp only [handlePacket, hl, if_true]
        obtain ⟨_, _, -, hc⟩ := handleAckRequest_cases cfg writerID sequence c
        rw [hc]
        rfl
    | node type connectionID data =>
        obtain rfl : c.id = connectionID := hk
        obtain ⟨self, hself⟩ := Option.isSome_iff_exists.1 hself
        simp only [handlePacket, hl, if_true]
        cases type with
        | hello =>
            simp only [handleInitData, checkNewID]
            split_ifs <;> rfl
        | confirm =>
            simp only [handleInitData, if_true]
            rw [addConnection_of_known hself]
        | countNode => rfl
        | helloReply =>
            simp only [handleInitData]
            rw [addConnection_of_known hself]
        | exit =>
            simp only [handleInitData]
            rw [removeConnection, if_pos rfl]
        | deny => rfl
  · exact findConnection_handlePacket_of_ne newID hk

theorem Releasing.handlePacket (h : c.Releasing) (hl : c.listening = true) (newID : U16)
    {d : Datagram} (hd : d.foreign c.id) (hack : d.isAck = false) :
    (c.handlePacket cfg newID d).Releasing := by
  obtain ⟨self, hself, -⟩ := h.loopback
  have hout := outbox_handlePacket cfg newID (c := c) (d := d) (by
    cases d with
    | node type connectionID data => exact fun hx => absurd hl (ne_true_of_eq_false hx.2.2.1)
    | _ => exact not_false)
  have hphase : (c.handlePacket cfg newID d).phase = c.phase := phase_handlePacket hl newID d
  simp only [outbox, phase, Prod.mk.injEq] at hout hphase
  exact h.congr hout.1 hout.2.2.2.1 hout.2.1 hout.2.2.1 hphase.2.2
    (finishing_handlePacket cfg c newID hack)
    (findConnection_handlePacket_self hl (by rw [hself]; rfl) newID hd)

theorem Releasing.finishWriteQueue (h : c.Releasing) (hf : c.finishing = none)
    (hstop : c.stopped = false) {sequence : U16}
    (hkept : (c.sequence - sequence - 1).toNat ≤ c.writeBuffers.length) :
    (c.finishWriteQueue sequence).Releasing := by
  obtain ⟨self, hself, hseq, hrecv⟩ := h.loopback
  rw [posting, hf] at hseq
  refine ⟨h.numbered, h.own, ⟨self, hself, hseq, hrecv⟩, ?_, ?_⟩
  · intro f hcf
    rw [← Option.some.inj hcf]
    exact hkept
  · intro f hcf hstop'
    exact absurd (hstop.symm.trans hstop') Bool.false_ne_true

theorem Releasing.queued (h : c.Releasing) (hf : c.finishing = none) {b : Buffer}
    {queue : List Buffer} (hq : c.threadBuffers = b :: queue) :
    (c.queued b (mergeWrites cfg { b.data with sequence := c.sequence } queue)).Releasing := by
  obtain ⟨self, hself, hseq, hrecv⟩ := h.loopback
  refine ⟨h.numbered.queued (mergeWrites_header cfg _ queue).1, h.own.queued hq,
    ⟨self, hself, ?_, hrecv⟩, ?_, ?_⟩
  · rw [hseq]
    simp only [posting, Connection.queued, List.length_append, List.length_singleton,
      ← Nat.add_assoc, ofNat_succ]
    abel
  · intro f hcf
    exact absurd (hf.symm.trans hcf) (Option.some_ne_none f).symm
  · intro f hcf
    exact absurd (hf.symm.trans hcf) (Option.some_ne_none f).symm

theorem Releasing.processOutgoing (cfg : Config) (h : c.Releasing) (hf : c.finishing = none)
    (hstop : c.stopped = false) (expired : Bool) :
    (c.processOutgoing cfg expired).Releasing ∧
      ((c.processOutgoing cfg expired).finishing.isSome →
        (c.processOutgoing cfg expired).writeBuffers ≠ []) := by
  obtain ⟨base, t, ds, hbase, -, hp⟩ := processOutgoing_cases cfg expired c
  have hb : base.Releasing ∧ (base.finishing.isSome → base.writeBuffers ≠ []) := by
    rcases hbase with ⟨-, rfl⟩ | ⟨-, rfl⟩
    · rcases writeData_cases cfg c with ⟨-, hw⟩ | ⟨b, queue, hq, ⟨-, hw⟩ | ⟨-, hw⟩⟩
      · rw [hw, hf]
        exact ⟨h, nofun⟩
      · rw [hw]
        exact ⟨h.queued hf hq, fun _ => List.append_ne_nil_of_right_ne_nil _ (List.cons_ne_nil _ _)⟩
      · rw [hw]
        refine ⟨(h.queued hf hq).finishWriteQueue hf hstop ?_,
          fun _ => List.append_ne_nil_of_right_ne_nil _ (List.cons_ne_nil _ _)⟩
        have hzero : c.sequence + 1 - c.sequence - 1 = 0 := by abel
        change (c.sequence + 1 - c.sequence - 1).toNat ≤ _
        rw [hzero]
        exact Nat.zero_le _
    · exact ⟨h.congr rfl rfl rfl rfl rfl rfl rfl, fun hsome => absurd hf (by
        rw [Option.isSome_iff_ne_none] at hsome
        exact hsome)⟩
  rw [hp]
  exact ⟨hb.1.congr rfl rfl rfl rfl rfl rfl rfl, hb.2⟩

theorem Releasing.released (h : c.Releasing) {f : Finish} {self : Child} {a b : Buffer}
    {free rest : List Buffer} (hf : c.finishing = some f)
    (hself : c.findConnection c.id = some self) (hw : c.writeBuffers = b :: rest)
    (hlt : f.size.toNat < c.writeBuffers.length) : (c.released f self a free b rest).Releasing := by
  obtain ⟨self', hself', hseq, hrecv⟩ := h.loopback
  obtain rfl : self = self' := Option.some.inj (hself.symm.trans hself')
  refine ⟨h.numbered.tail hw rfl, fun x hx => ?_, ⟨{ self with threadBuffers := free },
    (findConnection_released f a b free rest hself c.id).trans (if_pos rfl), ?_, hrecv⟩, ?_, ?_⟩
  · rcases List.mem_append.1 hx with hx | hx
    · exact h.own x (List.mem_append_left _ hx)
    · exact h.own x (List.mem_append_right _ (hw ▸ List.mem_cons_of_mem _ hx))
  · simp only [posting, hf, hw, Option.elim_some, List.length_cons] at hseq
    simp only [posting, Connection.released, Option.elim_some, List.length_append,
      List.length_singleton, hseq, Nat.add_assoc, Nat.add_comm 1]
    rfl
  · intro f' hf'
    rw [← Option.some.inj hf']
    rw [hw, List.length_cons] at hlt
    exact Nat.le_of_lt_succ hlt
  · intro f' hf' hstop
    rw [← Option.some.inj hf']
    exact h.cleared f hf hstop

theorem Releasing.postReadBuffers (h : c.Releasing) {f : Finish} (hf : c.finishing = some f) :
    (c.postReadBuffers f).Releasing := by
  obtain ⟨self, hself, hseq, hrecv⟩ := h.loopback
  have hfind := findConnection_postReadBuffers (c := c) (f := f) c.id
  rw [if_pos rfl, hself, Option.map_some] at hfind
  refine ⟨h.numbered, h.own, ⟨_, hfind, ?_, hrecv⟩, ?_, ?_⟩
  · simp only [posting, hf, Option.elim_some] at hseq
    simp only [Child.post, hseq, posting, Connection.postReadBuffers, Connection.updateChild,
      Option.elim_some, List.length_nil, Nat.zero_add, BitVec.ofNat_add]
    abel
  · intro f' hf'
    rw [← Option.some.inj hf']
    exact h.kept f hf
  · intro f' hf' hstop
    rw [← Option.some.inj hf']
    exact h.cleared f hf hstop

theorem Releasing.finishEnd (h : c.Releasing) {f : Finish} (hf : c.finishing = some f) :
    (c.finishEnd f).Releasing := by
  have hp := h.postReadBuffers hf
  obtain ⟨self, hself, hseq, hrecv⟩ := hp.loopback
  have hfind := findConnection_finishEnd (c := c) (f := f) c.id
  rw [if_pos rfl, show (c.postReadBuffers f).findConnection c.id = some self from hself,
    Option.map_some] at hfind
  refine ⟨hp.numbered, hp.own, ⟨_, hfind, hseq, hrecv⟩, fun f' hf' => ?_, fun f' hf' => ?_⟩
  · exact absurd hf' (Option.some_ne_none f').symm
  · exact absurd hf' (Option.some_ne_none f').symm

theorem Releasing.finishStep (h : c.Releasing) (hc : c.finishStep = some c') : c'.Releasing := by
  obtain ⟨f, self, hf, hself, ⟨-, rfl⟩ | ⟨a, free, b, rest, hw, hlt, -, rfl⟩ | ⟨-, -, -, rfl⟩⟩ :=
    finishStep_cases hc
  · exact h.finishEnd hf
  · exact h.released hf hself hw hlt
  · exact h.postReadBuffers hf

theorem Releasing.recordAck (h : c.Releasing) {readerID : U16} (hr : readerID ≠ c.id)
    (sequence : U16) : (c.recordAck readerID sequence).Releasing :=
  h.congr rfl rfl rfl rfl rfl rfl ((findConnection_recordAck readerID sequence c.id).trans
    (if_neg (Ne.symm hr)))

end Handlers

section Application

theorem Releasing.writePush (h : c.Releasing) (hc : c.writePush cfg = some c')
    (hclear : c.stopped = true → c.finishing = none) : c'.Releasing := by
  have hown := (h.own.writePush hc).2
  obtain ⟨b, -, rfl⟩ := writePush_cases hc
  refine ⟨h.numbered, hown, h.loopback, h.kept, fun f hf hstop => ?_⟩
  exact absurd (hf.symm.trans (hclear hstop)) (Option.some_ne_none f)

theorem Releasing.read (h : c.Releasing) {writer : U16} {child : Child} {n : ℕ}
    {r : Child × List UInt8} (hfind : c.findConnection writer = some child)
    (hr : child.readSync cfg n = some r) : (c.updateChild writer (fun _ => r.1)).Releasing := by
  obtain ⟨hid, hseq, -⟩ := Child.readSync_frame hr
  have hupdate := findConnection_updateChild (c := c) (f := fun _ => r.1) (k := writer)
    (fun _ _ => hid.trans (Keyed.key_of_lookup hfind)) c.id
  refine ⟨h.numbered, h.own, ?_, h.kept, h.cleared⟩
  obtain ⟨self, hself, hloop, hrecv⟩ := h.loopback
  by_cases hk : c.id = writer
  · subst hk
    obtain rfl : self = child := Option.some.inj (hself.symm.trans hfind)
    rw [if_pos rfl, hfind, Option.map_some] at hupdate
    exact ⟨r.1, hupdate, hseq.trans hloop, (Child.readSync_recvBuffers hr).trans hrecv⟩
  · rw [if_neg hk] at hupdate
    exact ⟨self, hupdate.trans hself, hloop, hrecv⟩

end Application

section Acks

/-- The number is one of the next ones, which no packet has got yet. -/
def Unsent (cfg : Config) (c : Connection) (n : U16) : Prop :=
  0 < (n - (c.sequence - 1)).toNat ∧ (n - (c.sequence - 1)).toNat ≤ cfg.numBuffers

instance (cfg : Config) (c : Connection) (n : U16) : Decidable (c.Unsent cfg n) :=
  inferInstanceAs (Decidable (_ ∧ _))

/-- The ack does not look late, and with it the number acknowledged by all readers is at most
`_numBuffers` past what was released. -/
def Advances (cfg : Config) (c : Connection) (readerID sequence : U16) : Bool :=
  (c.findConnection readerID).any (fun reader => !late cfg reader.acked sequence) &&
    ((c.recordAck readerID sequence).findConnection c.id).any (fun self =>
      decide (((c.recordAck readerID sequence).minAcked cfg sequence - self.acked).toNat ≤
        cfg.numBuffers))

/-- An ack that advances the release arrives while a packet is unreleased, and no reader
acknowledges a packet that was not sent. -/
def AckFits (cfg : Config) (c : Connection) (readerID writerID sequence : U16) : Prop :=
  writerID = c.id → c.Advances cfg readerID sequence = true →
    c.writeBuffers ≠ [] ∧ ¬ c.Unsent cfg ((c.recordAck readerID sequence).minAcked cfg sequence)

instance (cfg : Config) (c : Connection) (readerID writerID sequence : U16) :
    Decidable (c.AckFits cfg readerID writerID sequence) :=
  inferInstanceAs (Decidable (_ → _ → _))

theorem Sound.kept_le (h : Sound cfg c) (hf : c.finishing = none) (hstop : c.stopped = false)
    {self : Child} (hself : c.findConnection c.id = some self) {n : U16}
    (hnear : (n - self.acked).toNat ≤ cfg.numBuffers) (hsent : ¬ c.Unsent cfg n) :
    (c.sequence - n - 1).toNat ≤ c.writeBuffers.length := by
  have hlen := h.writeBuffers_le
  have hlt := cfg.numBuffers_lt
  obtain ⟨self', hself', htrack⟩ := h.loopback
  obtain rfl : self = self' := Option.some.inj (hself.symm.trans hself')
  obtain ⟨-, hack⟩ := htrack hstop
  have hfreed : c.freed = [] := by rw [freed, hf]; rfl
  have hnat : (BitVec.ofNat 16 c.writeBuffers.length).toNat = c.writeBuffers.length := by
    rw [BitVec.toNat_ofNat, Nat.mod_eq_of_lt (by omega)]
  simp only [hfreed, List.length_nil, Nat.zero_add] at hack
  simp only [Unsent] at hsent
  generalize BitVec.ofNat 16 c.writeBuffers.length = length at *
  rcases hack with hack | ⟨hpos, hack⟩
  · rw [← hack] at hsent ⊢
    bv_omega
  · rw [← hack] at hsent ⊢
    bv_omega

theorem Releasing.handleAck (h : c.Releasing) (hs : Sound cfg c) (hf : c.finishing = none)
    (hstop : c.stopped = false) {readerID writerID sequence : U16} (hr : readerID ≠ c.id)
    (hok : c.AckFits cfg readerID writerID sequence) :
    (c.handleAck cfg readerID writerID sequence).Releasing ∧
      ((c.handleAck cfg readerID writerID sequence).finishing.isSome →
        (c.handleAck cfg readerID writerID sequence).writeBuffers ≠ []) := by
  have hnone : ¬ c.finishing.isSome := by rw [hf]; exact Bool.false_ne_true
  rcases handleAck_cases cfg readerID writerID sequence c with
    ⟨-, hc⟩ | ⟨reader, hw, hreader, hlate, ⟨-, hc⟩ | ⟨self, hself, hnear, hc⟩⟩
  · rw [hc]
    exact ⟨h, fun hsome => absurd hsome hnone⟩
  · rw [hc]
    exact ⟨h.recordAck hr sequence, fun hsome => absurd hsome hnone⟩
  · have hadvances : c.Advances cfg readerID sequence = true := by
      rw [Advances, hreader, hself]
      simp only [Option.any_some, hlate, hnear, Bool.not_false, decide_true, Bool.and_self]
    obtain ⟨hwrite, hsent⟩ := hok hw hadvances
    rw [hc]
    refine ⟨(h.recordAck hr sequence).finishWriteQueue hf hstop ?_, fun _ => hwrite⟩
    have hself' : c.findConnection c.id = some self := by
      rw [findConnection_recordAck, if_neg (Ne.symm hr)] at hself
      exact hself
    exact hs.kept_le hf hstop hself' hnear hsent

end Acks

section Timeouts

/-- The timeouts have run out and every remote reader is lost. -/
def GivesUp (cfg : Config) (c : Connection) : Bool :=
  decide (maxTimeouts ≤ c.timeouts) && c.allFailed cfg

theorem findConnection_map {f : Child → Child} (hid : ∀ child, (f child).id = child.id) (k : U16) :
    Keyed.lookup Child.id k (c.children.map f) = (c.findConnection k).map f := by
  rw [findConnection, Keyed.lookup, Keyed.lookup, List.find?_map]
  refine congrArg (Option.map f) (congrArg (fun p => c.children.find? p) (funext fun child => ?_))
  simp only [Function.comp_apply, hid]

theorem Releasing.giveUp (h : c.Releasing) (hf : c.finishing = none)
    (ht : c.threadBuffers = []) : c.giveUp.Releasing := by
  obtain ⟨self, hself, hseq, hrecv⟩ := h.loopback
  have hwrite : c.giveUp.writeBuffers = c.writeBuffers := by
    change c.writeBuffers ++ c.threadBuffers = c.writeBuffers
    rw [ht, List.append_nil]
  have hfind : c.giveUp.findConnection c.id = some self.pushNull := by
    have hmap := findConnection_map (c := c) (f := Child.pushNull) (fun _ => rfl) c.id
    rw [hself] at hmap
    exact hmap
  rw [posting, hf] at hseq
  refine ⟨?_, ?_, ⟨self.pushNull, hfind, ?_, hrecv⟩, ?_, ?_⟩
  · rw [Numbered, hwrite]
    exact h.numbered
  · intro x hx
    rw [hwrite] at hx
    exact h.own x (List.mem_append_right _ hx)
  · rw [hwrite]
    exact hseq
  · intro f hcf
    rw [← Option.some.inj hcf]
    have hzero : c.sequence - (c.sequence - 1) - 1 = 0 := by abel
    change (c.sequence - (c.sequence - 1) - 1).toNat ≤ _
    rw [hzero]
    exact Nat.zero_le _
  · intro f hcf _
    rw [← Option.some.inj hcf]
    refine ⟨?_, rfl⟩
    change c.sequence - (c.sequence - 1) - 1 = 0
    abel

theorem Releasing.evict_children (h : c.Releasing) (hs : Sound cfg c) :
    Releasing { c.children.foldl evictOrReset c with timeouts := 0 } := by
  obtain ⟨ds, heq⟩ := foldl_evictOrReset c.children c [] rfl hs.nodup
  obtain ⟨self, hself, hseq, hrecv⟩ := h.loopback
  obtain ⟨-, hfind⟩ := loopback_evicted hs.nodup hself
  rw [heq]
  exact ⟨h.numbered, h.own, ⟨self.setAcked c.resetCursor, hfind, hseq, hrecv⟩, h.kept, h.cleared⟩

/-- Giving up is safe when no packet waits for its number. -/
theorem Releasing.checkTimeouts (h : c.Releasing) (hs : Sound cfg c) (hf : c.finishing = none)
    (hok : c.GivesUp cfg = true → c.threadBuffers = []) :
    (c.checkTimeouts cfg).Releasing := by
  rw [Connection.checkTimeouts]
  split_ifs with hlt hall
  · exact h
  · refine h.giveUp hf (hok ?_)
    rw [GivesUp, hall, decide_eq_true (not_lt.1 hlt)]
    rfl
  · exact h.evict_children hs

theorem Sound.checkTimeouts (h : Sound cfg c) (hf : c.finishing = none)
    (hw : maxTimeouts ≤ c.timeouts → c.writeBuffers ≠ []) : Sound cfg (c.checkTimeouts cfg) := by
  rw [Connection.checkTimeouts]
  split_ifs with hlt hall
  · exact h
  · exact h.giveUp hf
  · obtain ⟨ds, heq⟩ := foldl_evictOrReset c.children c [] rfl h.nodup
    rw [heq]
    exact h.evict_children hf (hw (not_lt.1 hlt)) 0 (c.sent ++ ds)

theorem checkTimeouts_frame (cfg : Config) (hnd : (c.children.map Child.id).Nodup) :
    (c.checkTimeouts cfg).role = c.role ∧ (c.checkTimeouts cfg).writeBuffers.length ≥
        c.writeBuffers.length ∧
      (c.finishing = none → (c.checkTimeouts cfg).finishing.isSome → maxTimeouts ≤ c.timeouts) := by
  rw [Connection.checkTimeouts]
  split_ifs with hlt hall
  · exact ⟨rfl, le_rfl, fun hf hsome => by rw [hf] at hsome; cases hsome⟩
  · refine ⟨rfl, ?_, fun _ _ => not_lt.1 hlt⟩
    change (c.writeBuffers ++ c.threadBuffers).length ≥ _
    rw [List.length_append]
    exact Nat.le_add_right _ _
  · obtain ⟨ds, heq⟩ := foldl_evictOrReset c.children c [] rfl hnd
    rw [heq]
    exact ⟨rfl, le_rfl, fun hf hsome => by rw [hf] at hsome; cases hsome⟩

end Timeouts

end Connection

/-- The protocol thread of a listening connection: `checking` while `_handleConnectedTimeout` has
called `_processOutgoing` and not looked at the timeouts yet, `failed` the assertions that did not
hold. -/
structure Thread where
  connection : Connection
  checking : Bool
  failed : List Assertion
  deriving DecidableEq, Repr

inductive ThreadEvent
  | event (e : Event)
  | checkTimeouts
  deriving DecidableEq, Repr

namespace Thread

open Connection

variable {cfg : Config} {t t' : Thread}

def start (c : Connection) : Thread := ⟨c, false, []⟩

def ready (t : Thread) : Bool := t.connection.listening && !t.checking

def record (t : Thread) (e : Event) (checking : Bool) (c : Connection) : Thread :=
  ⟨c, checking, t.failed ++ t.connection.failures e c⟩

def take (cfg : Config) (t : Thread) (e : Event) : Option Thread :=
  (t.connection.step cfg e).map (t.record e t.checking)

/-- The application's calls and the release loop go on while the protocol thread is between the two
parts of `_handleConnectedTimeout`. -/
def step (cfg : Config) (t : Thread) : ThreadEvent → Option Thread
  | .event (.timeout expired) =>
      if t.ready ∧ t.connection.idle then
        some (t.record (.timeout expired) true (t.connection.processOutgoing cfg expired))
      else none
  | .event (.outgoing expired) => if t.ready then t.take cfg (.outgoing expired) else none
  | .event (.packet newID d) => if t.ready then t.take cfg (.packet newID d) else none
  | .event (.write bytes) => t.take cfg (.write bytes)
  | .event .writePop => t.take cfg .writePop
  | .event .writePush => t.take cfg .writePush
  | .event (.read writer bytesLeft) => t.take cfg (.read writer bytesLeft)
  | .event .finishStep => t.take cfg .finishStep
  | .checkTimeouts =>
      if t.checking ∧ t.connection.finishing = none then
        some ⟨t.connection.checkTimeouts cfg, false,
          t.failed ++ (t.connection.checkTimeouts cfg).entryFailures⟩
      else none

/-- Acks release only packets that were sent and not released before, and while a connection that
gives up clears its queues, none waits there without a number. -/
def Releases (cfg : Config) (t : Thread) : ThreadEvent → Prop
  | .event (.packet _ d) => d.foreign t.connection.id ∧
      match d with
      | .ack readerID writerID acked => t.connection.AckFits cfg readerID writerID acked
      | .data _ | .ackReq _ _ | .nack _ _ _ | .node _ _ _ => True
  | .event .writePush => t.connection.stopped = true → t.connection.finishing = none
  | .event (.write _) | .event .writePop | .event (.read _ _) | .event (.outgoing _) |
    .event .finishStep | .event (.timeout _) => True
  | .checkTimeouts => t.connection.GivesUp cfg = true → t.connection.threadBuffers = []

instance (cfg : Config) (t : Thread) : (e : ThreadEvent) → Decidable (t.Releases cfg e)
  | .event (.packet _ (.ack readerID writerID acked)) =>
      inferInstanceAs (Decidable (readerID ≠ t.connection.id ∧
        t.connection.AckFits cfg readerID writerID acked))
  | .event (.packet _ (.data d)) =>
      inferInstanceAs (Decidable (d.writerID ≠ t.connection.id ∧ True))
  | .event (.packet _ (.ackReq _ _)) | .event (.packet _ (.nack _ _ _)) |
    .event (.packet _ (.node _ _ _)) => isTrue ⟨trivial, trivial⟩
  | .event .writePush => inferInstanceAs (Decidable (_ = true → _ = none))
  | .event (.write _) | .event .writePop | .event (.read _ _) | .event (.outgoing _) |
    .event .finishStep | .event (.timeout _) => isTrue trivial
  | .checkTimeouts => inferInstanceAs (Decidable (_ = true → _ = []))

structure Steady (cfg : Config) (t : Thread) : Prop where
  sound : Sound cfg t.connection
  listening : t.connection.listening = true
  releasing : t.connection.Releasing
  waiting : t.checking = true → t.connection.stopped = false ∧
    (t.connection.finishing = none → maxTimeouts ≤ t.connection.timeouts →
      t.connection.writeBuffers ≠ [])
  failed : t.failed = []

theorem Steady.start {id : U16} {members : List (U16 × U16)} (hnd : (members.map Prod.fst).Nodup)
    (hself : (id, 0) ∈ members) : Steady cfg (start (Connection.start cfg id members)) where
  sound := sound_start hnd hself
  listening := rfl
  releasing := by
    refine ⟨?_, ?_, ⟨_, start_loopback hnd hself,
      show (0 : U16) = 0 - BitVec.ofNat 16 0 by decide, rfl⟩, ?_, ?_⟩
    · intro k b hk
      exact absurd hk (by simp [Thread.start, Connection.start])
    · intro b hb
      exact absurd hb List.not_mem_nil
    · intro f hf
      exact absurd hf (Option.some_ne_none f).symm
    · intro f hf
      exact absurd hf (Option.some_ne_none f).symm
  waiting := fun h => absurd h Bool.false_ne_true
  failed := rfl

theorem Steady.record_application (h : t.Steady cfg) {e : Event} {c : Connection}
    (hs : Sound cfg c) (hr : c.Releasing) (hlisten : c.listening = t.connection.listening)
    (hstop : c.stopped = t.connection.stopped) (hf : c.finishing = t.connection.finishing)
    (htime : c.timeouts = t.connection.timeouts)
    (hwrite : c.writeBuffers = t.connection.writeBuffers) (hfail : t.connection.failures e c = []) :
    (t.record e t.checking c).Steady cfg where
  sound := hs
  listening := hlisten.trans h.listening
  releasing := hr
  waiting := by
    intro hcheck
    obtain ⟨hrun, hwait⟩ := h.waiting hcheck
    refine ⟨hstop.trans hrun, fun hnone htimes => ?_⟩
    change c.writeBuffers ≠ []
    rw [hwrite]
    exact hwait (hf.symm.trans hnone) (htime ▸ htimes)
  failed := by
    change t.failed ++ t.connection.failures e c = []
    rw [h.failed, hfail]
    rfl

theorem Steady.finishStep (h : t.Steady cfg) {c : Connection}
    (hc : t.connection.finishStep = some c) :
    (t.record .finishStep t.checking c).Steady cfg where
  sound := h.sound.finishStep hc
  listening := (congrArg (fun p => p.2.1) (phase_finishStep hc)).trans h.listening
  releasing := h.releasing.finishStep hc
  waiting := by
    intro hcheck
    obtain ⟨hrun, hwait⟩ := h.waiting hcheck
    refine ⟨(congrArg (fun p => p.2.2) (phase_finishStep hc)).trans hrun, fun hnone htimes => ?_⟩
    obtain ⟨f, self, -, -, ⟨-, rfl⟩ | ⟨a, free, b, rest, -, -, -, rfl⟩ | ⟨-, -, -, rfl⟩⟩ :=
      finishStep_cases hc
    · exact absurd htimes (show ¬ maxTimeouts ≤ 0 by decide)
    · exact absurd hnone (Option.some_ne_none _)
    · exact absurd hnone (Option.some_ne_none _)
  failed := by
    change t.failed ++ t.connection.loopFailures = []
    rw [h.failed, h.releasing.loopFailures]
    rfl

/-- A handler of the protocol thread, which may call `_finishWriteQueue` for packets that are
there. -/
theorem Steady.record_handler (h : t.Steady cfg) {e : Event} {checking : Bool} {c : Connection}
    (hs : Sound cfg c) (hl : c.listening = true) (hr : c.Releasing)
    (hentry : c.finishing.isSome → c.writeBuffers ≠ [])
    (hwait : checking = true → c.stopped = false ∧
      (c.finishing = none → maxTimeouts ≤ c.timeouts → c.writeBuffers ≠ []))
    (hfail : t.connection.failures e c = c.entryFailures) :
    (t.record e checking c).Steady cfg where
  sound := hs
  listening := hl
  releasing := hr
  waiting := hwait
  failed := by
    change t.failed ++ t.connection.failures e c = []
    rw [h.failed, hfail, List.nil_append]
    cases hf : c.finishing with
    | none => simp only [entryFailures, hf]
    | some f =>
        have hlt := (hs.writeBuffers_le).trans_lt cfg.numBuffers_lt
        exact hr.entryFailures hlt (hentry (by rw [hf]; rfl))

theorem Steady.packet (h : t.Steady cfg) (hready : t.ready = true) {newID : U16} {d : Datagram}
    (hidle : t.connection.idle = true) (hok : t.Releases cfg (.event (.packet newID d))) :
    (t.record (.packet newID d) t.checking (t.connection.handlePacket cfg newID d)).Steady cfg := by
  have hf := finishing_of_idle hidle
  have hstop := stopped_of_idle hidle
  have hcheck : t.checking = false := by
    simp only [ready, Bool.and_eq_true, Bool.not_eq_true'] at hready
    exact hready.2
  have hs := h.sound.handlePacket hf h.listening newID hok.1
  have hphase : (t.connection.handlePacket cfg newID d).phase = t.connection.phase :=
    phase_handlePacket h.listening newID d
  have hl := (congrArg (fun p => p.2.1) hphase).trans h.listening
  have hr : (t.connection.handlePacket cfg newID d).Releasing ∧
      ((t.connection.handlePacket cfg newID d).finishing.isSome →
        (t.connection.handlePacket cfg newID d).writeBuffers ≠ []) := by
    by_cases hack : d.isAck = true
    · cases d with
      | ack readerID writerID sequence =>
          simp only [Connection.handlePacket, h.listening, if_true]
          exact h.releasing.handleAck h.sound hf hstop hok.1 hok.2
      | data d => cases hack
      | ackReq writerID sequence => cases hack
      | nack readerID writerID nacks => cases hack
      | node type connectionID data => cases hack
    · have hack' := eq_false_of_ne_true hack
      refine ⟨h.releasing.handlePacket h.listening newID hok.1 hack', fun hsome => ?_⟩
      rw [finishing_handlePacket cfg t.connection newID hack', hf] at hsome
      cases hsome
  exact h.record_handler hs hl hr.1 hr.2
    (fun hc => absurd (hcheck.symm.trans hc) Bool.false_ne_true) rfl

theorem Steady.record_outgoing (h : t.Steady cfg) {e : Event} {expired checking : Bool}
    (hidle : t.connection.idle = true) (he : t.connection.failures e
      (t.connection.processOutgoing cfg expired) =
        (t.connection.processOutgoing cfg expired).entryFailures) :
    (t.record e checking (t.connection.processOutgoing cfg expired)).Steady cfg := by
  have hf := finishing_of_idle hidle
  have hstop := stopped_of_idle hidle
  have hphase := phase_processOutgoing cfg t.connection expired
  obtain ⟨hr, hentry⟩ := h.releasing.processOutgoing cfg hf hstop expired
  refine h.record_handler (h.sound.processOutgoing hf expired)
    ((congrArg (fun p => p.2.1) hphase).trans h.listening) hr hentry (fun _ => ?_) he
  refine ⟨(congrArg (fun p => p.2.2) hphase).trans hstop, fun hnone htimes => ?_⟩
  obtain ⟨hw, heq⟩ := processOutgoing_of_timeouts htimes hnone
  rw [heq]
  exact hw.2.2.1

theorem Steady.checkTimeouts (h : t.Steady cfg) (hcheck : t.checking = true)
    (hf : t.connection.finishing = none) (hok : t.Releases cfg .checkTimeouts) :
    Steady cfg ⟨t.connection.checkTimeouts cfg, false,
      t.failed ++ (t.connection.checkTimeouts cfg).entryFailures⟩ := by
  obtain ⟨-, hwait⟩ := h.waiting hcheck
  obtain ⟨hrole, hlen, htimes⟩ := checkTimeouts_frame cfg h.sound.nodup
  have hafter : (t.record (.timeout true) false (t.connection.checkTimeouts cfg)).Steady cfg := by
    refine h.record_handler (h.sound.checkTimeouts hf (hwait hf))
      ((congrArg Prod.snd hrole).trans h.listening) (h.releasing.checkTimeouts h.sound hf hok)
      (fun hsome hnil => ?_) (fun hc => absurd hc Bool.false_ne_true) rfl
    rw [hnil, List.length_nil] at hlen
    exact hwait hf (htimes hf hsome) (List.length_eq_zero_iff.1 (Nat.le_zero.1 hlen))
  exact hafter

theorem Steady.step (h : t.Steady cfg) {e : ThreadEvent} (hok : t.Releases cfg e)
    (hs : t.step cfg e = some t') : t'.Steady cfg := by
  cases e with
  | checkTimeouts =>
      simp only [Thread.step, Option.ite_none_right_eq_some, Option.some.injEq] at hs
      obtain ⟨⟨hcheck, hf⟩, rfl⟩ := hs
      exact h.checkTimeouts hcheck hf hok
  | event e =>
      cases e with
      | timeout expired =>
          simp only [Thread.step, Option.ite_none_right_eq_some, Option.some.injEq] at hs
          obtain ⟨⟨-, hidle⟩, rfl⟩ := hs
          exact h.record_outgoing hidle rfl
      | outgoing expired =>
          simp only [Thread.step, take, Option.ite_none_right_eq_some, Option.map_eq_some_iff,
            Connection.step, Option.some.injEq] at hs
          obtain ⟨-, c, ⟨⟨hidle, -⟩, rfl⟩, rfl⟩ := hs
          exact h.record_outgoing hidle rfl
      | packet newID d =>
          simp only [Thread.step, take, Option.ite_none_right_eq_some, Option.map_eq_some_iff,
            Connection.step, Option.some.injEq] at hs
          obtain ⟨hready, c, ⟨hidle, rfl⟩, rfl⟩ := hs
          exact h.packet hready hidle hok
      | finishStep =>
          obtain ⟨c, hc, rfl⟩ := Option.map_eq_some_iff.1 hs
          exact h.finishStep hc
      | write bytes =>
          obtain ⟨c, hc, rfl⟩ := Option.map_eq_some_iff.1 hs
          have hsound := h.sound.step (e := .write bytes) h.listening trivial hc
          simp only [Connection.step, Option.ite_none_right_eq_some, Option.some.injEq] at hc
          obtain ⟨-, rfl⟩ := hc
          exact h.record_application hsound (h.releasing.congr rfl rfl rfl rfl rfl rfl rfl)
            rfl rfl rfl rfl rfl rfl
      | writePop =>
          obtain ⟨c, hc, rfl⟩ := Option.map_eq_some_iff.1 hs
          have hsound := h.sound.writePop hc
          obtain ⟨-, -, ⟨rest, -, rfl⟩ | ⟨b, rest, -, rfl⟩⟩ := writePop_cases hc <;>
            exact h.record_application hsound (h.releasing.congr rfl rfl rfl rfl rfl rfl rfl)
              rfl rfl rfl rfl rfl rfl
      | writePush =>
          obtain ⟨c, hc, rfl⟩ := Option.map_eq_some_iff.1 hs
          have hsound := h.sound.writePush hc
          have hreleasing := h.releasing.writePush hc hok
          obtain ⟨b, -, rfl⟩ := writePush_cases hc
          exact h.record_application hsound hreleasing rfl rfl rfl rfl rfl rfl
      | read writer bytesLeft =>
          obtain ⟨c, hc, rfl⟩ := Option.map_eq_some_iff.1 hs
          simp only [Connection.step, Option.bind_eq_some_iff, Option.map_eq_some_iff] at hc
          obtain ⟨child, hfind, r, hr, rfl⟩ := hc
          exact h.record_application (h.sound.read_child hfind hr) (h.releasing.read hfind hr)
            rfl rfl rfl rfl rfl rfl

/-- In every run of a listening connection in which acks release only what was sent and not
released before, and which does not give up while a packet waits for its number, no assertion of
`_finishWriteQueue` and `_clearWriteQueues` has failed, and the next turn of the loop that is
running fails none. -/
theorem release_assertions_hold {id : U16} {members : List (U16 × U16)}
    (hnd : (members.map Prod.fst).Nodup) (hself : (id, 0) ∈ members) {es : List ThreadEvent}
    (hok : Machine.Steps (step cfg) (Releases cfg) (start (Connection.start cfg id members)) es)
    (hrun : Machine.run (step cfg) (start (Connection.start cfg id members)) es = some t) :
    t.failed = [] ∧ t.connection.loopFailures = [] := by
  have h : t.Steady cfg := Machine.run_invariant (Steady cfg)
    (fun _ _ _ h hok hs => h.step hok hs) (.start hnd hself) hok hrun
  exact ⟨h.failed, h.releasing.loopFailures⟩

def sendPacket : List ThreadEvent :=
  [.event (.write [7]), .event .writePop, .event .writePush, .event (.outgoing false)]

/-- Two readers acknowledge the packet `n`, which is released and read. -/
def acknowledge (n : U16) : List ThreadEvent :=
  [.event (.packet 0 (.ack 2 1 n)), .event .finishStep, .event (.packet 0 (.ack 3 1 n)),
    .event .finishStep, .event .finishStep, .event (.read 1 1)]

theorem release_assertions_hold_acknowledged :
    ∃ t, Machine.run (step (.tiny 1)) (start (Connection.start (.tiny 1) 1 [(1, 0), (2, 0), (3, 0)]))
        (sendPacket ++ acknowledge 0) = some t ∧
      t.connection.sequence = 1 ∧ t.connection.writeBuffers = [] ∧ t.failed = [] := by
  have h : (Machine.run (step (.tiny 1))
      (start (Connection.start (.tiny 1) 1 [(1, 0), (2, 0), (3, 0)]))
      (sendPacket ++ acknowledge 0)).map (fun t =>
        decide (t.connection.sequence = 1 ∧ t.connection.writeBuffers = [])) = some true := by
    decide +kernel
  obtain ⟨t, hrun, ht⟩ := Option.map_eq_some_iff.1 h
  obtain ⟨hseq, hwrite⟩ := of_decide_eq_true ht
  exact ⟨t, hrun, hseq, hwrite,
    (release_assertions_hold (by decide) (by decide) (by decide +kernel) hrun).1⟩

def waitRounds : ℕ → List ThreadEvent
  | 0 => []
  | n + 1 => .event (.timeout true) :: .checkTimeouts :: waitRounds n

theorem run_waitRounds (cfg : Config) (n : ℕ) (c : Connection) (hl : c.listening = true)
    (hidle : c.idle = true) (hr : c.repeatQueue = []) (ht : c.threadBuffers = [])
    (hw : c.writeBuffers ≠ []) (hn : c.timeouts + n < maxTimeouts) :
    Machine.run (step cfg) (start c) (waitRounds n) = some (start { c with
      timeouts := c.timeouts + n
      sent := c.sent ++ List.replicate n (.ackReq c.id (c.sequence - 1)) }) := by
  induction n generalizing c with
  | zero =>
      simp only [waitRounds, Machine.run_nil, Nat.add_zero, List.replicate_zero, List.append_nil]
  | succ n ih =>
      have hf := finishing_of_idle hidle
      have hlt : c.timeouts + 1 < maxTimeouts := by omega
      let c' : Connection := { c with
        timeouts := c.timeouts + 1, sent := c.sent ++ [.ackReq c.id (c.sequence - 1)] }
      have hout : c.processOutgoing cfg true = c' := by
        simp only [processOutgoing, hr, writeData, ht, hf, hw, hlt, if_true, if_false, ne_eq,
          not_true_eq_false, Option.isSome_none, Bool.false_eq_true, or_self, send, c']
      have htimeout : (start c).step cfg (.event (.timeout true)) = some ⟨c', true, []⟩ := by
        simp only [Thread.step, ready, start, hl, hidle, Bool.not_false, Bool.and_self, and_self,
          if_true, hout, record, failures, entryFailures, c', hf, List.append_nil]
      have hcheck : Thread.step cfg ⟨c', true, []⟩ .checkTimeouts = some (start c') := by
        simp only [Thread.step, c', hf, and_self, if_true, Connection.checkTimeouts, hlt,
          entryFailures, start, List.append_nil]
      have hrest := ih c' hl hidle hr ht hw (by simp only [c']; omega)
      rw [waitRounds, (Machine.run_cons_eq_some _).2 ⟨_, htimeout,
        (Machine.run_cons_eq_some _).2 ⟨_, hcheck, hrest⟩⟩]
      simp only [c', List.replicate_succ, List.append_assoc, List.singleton_append, Nat.add_assoc,
        Nat.add_comm 1]

/-- The only reader leaves without acknowledging the packet. -/
def stranded : Connection :=
  ((Machine.run (step (.tiny 2)) (start (Connection.start (.tiny 2) 1 [(1, 0), (2, 0)]))
    (sendPacket ++ [.event (.packet 0 (.node .exit 2 0))])).map Thread.connection).getD
      (Connection.start (.tiny 2) 1 [])

/-- The application queues another packet when the timeouts have run out. -/
def queueLate : List ThreadEvent :=
  [.event (.timeout true), .event (.write [8]), .event .writePop, .event .writePush, .checkTimeouts,
    .event .finishStep, .event .finishStep, .event .finishStep]

/-- An ack that is two packets old is not late when there is one buffer, and lets `_handleAck`
release the last packet once more. A packet queued while the connection gives up is released
without a number of its own. -/
theorem release_assertions_fail :
    (∃ t, Machine.Reaches (step (.tiny 1)) (fun _ _ => True)
        (start (Connection.start (.tiny 1) 1 [(1, 0), (2, 0), (3, 0)])) t ∧
      t.failed = [.unreleased]) ∧
    ∃ t, Machine.Reaches (step (.tiny 2)) (fun _ _ => True)
        (start (Connection.start (.tiny 2) 1 [(1, 0), (2, 0)])) t ∧
      t.failed = [.sequence, .acked] := by
  constructor
  · have h : (Machine.run (step (.tiny 1))
        (start (Connection.start (.tiny 1) 1 [(1, 0), (2, 0), (3, 0)]))
        (sendPacket ++ acknowledge 0 ++ sendPacket ++ acknowledge 1 ++ sendPacket ++
          acknowledge 2 ++ [.event (.packet 0 (.ack 2 1 0))])).map Thread.failed =
        some [.unreleased] := by decide +kernel
    obtain ⟨t, hrun, ht⟩ := Option.map_eq_some_iff.1 h
    exact ⟨t, ⟨_, Machine.steps_true _ _, hrun⟩, ht⟩
  · have hstart : Machine.run (step (.tiny 2))
        (start (Connection.start (.tiny 2) 1 [(1, 0), (2, 0)]))
        (sendPacket ++ [.event (.packet 0 (.node .exit 2 0))]) = some (start stranded) := by
      decide +kernel
    have hwait := run_waitRounds (.tiny 2) 999 stranded (by decide +kernel)
      (by decide +kernel) (by decide +kernel) (by decide +kernel) (by decide +kernel)
      (by decide +kernel)
    have hlate : (Machine.run (step (.tiny 2)) (start { stranded with
        timeouts := stranded.timeouts + 999
        sent := stranded.sent ++
          List.replicate 999 (.ackReq stranded.id (stranded.sequence - 1)) })
        queueLate).map Thread.failed = some [.sequence, .acked] := by decide +kernel
    obtain ⟨t, hrun, ht⟩ := Option.map_eq_some_iff.1 hlate
    have hstranded : Machine.Reaches (step (.tiny 2)) (fun _ _ => True) _ (start stranded) :=
      ⟨_, Machine.steps_true _ _, hstart⟩
    exact ⟨t, (hstranded.trans ⟨_, Machine.steps_true _ _, hwait⟩).trans
      ⟨_, Machine.steps_true _ _, hrun⟩, ht⟩

end Thread
end Collage.Rsp
