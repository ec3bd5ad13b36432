import Collage.Rsp.Conservation
import Collage.Rsp.Join
import Collage.Rsp.MemberPackets

/-!
# The member that is joined

`Retains c n x` says that a connection that has numbered `n` packets still holds those from the
number `x` on, and will after the running `_finishWriteQueue`. Sending and releasing keep it, an
ack keeps it when the fold over the cursors stays behind `x`.
-/

namespace Collage.Rsp

open Serial Connection

variable {cfg : Config} {c c' : Connection} {log : List (List UInt8)} {written : List UInt8}

section Writer

/-- The log grows by as many packets as the sequence number does. -/
def Extends (log : List (List UInt8)) (c c' : Connection) (log' : List (List UInt8)) : Prop :=
  log <+: log' ∧ log'.length = log.length + (c'.sequence - c.sequence).toNat

theorem extends_self (h : c'.sequence = c.sequence) : Extends log c c' log := by
  refine ⟨List.prefix_rfl, ?_⟩
  rw [h, BitVec.sub_self]
  rfl

theorem Writer.processOutgoing (h : Writer cfg log written c) (expired : Bool) :
    ∃ log', Extends log c (c.processOutgoing cfg expired) log' ∧
      Writer cfg log' written (c.processOutgoing cfg expired) := by
  obtain ⟨base, t, ds, hbase, -, hp⟩ := processOutgoing_cases cfg expired c
  rw [hp]
  rcases hbase with ⟨-, rfl⟩ | ⟨-, rfl⟩
  · rcases writeData_cases cfg c with ⟨-, hw⟩ | ⟨b, queue, hq, hw⟩
    · rw [hw]
      exact ⟨log, extends_self rfl, h.congr rfl rfl rfl rfl rfl⟩
    · have hnew := (h.queued hq rfl).1
      refine ⟨log ++ [(mergeWrites cfg { b.data with sequence := c.sequence } queue).1.bytes],
        ⟨List.prefix_append _ _, ?_⟩, ?_⟩
      · have hseq : (c.writeData cfg).sequence = c.sequence + 1 := by
          rcases hw with ⟨-, hw⟩ | ⟨-, hw⟩ <;> rw [hw] <;> rfl
        simp only [List.length_append, List.length_singleton, hseq, add_sub_cancel_left]
        rfl
      · rcases hw with ⟨-, hw⟩ | ⟨-, hw⟩ <;> rw [hw] <;> exact hnew.congr rfl rfl rfl rfl rfl
  · exact ⟨log, extends_self rfl, h.congr rfl rfl rfl rfl rfl⟩

theorem Writer.handlePacket (h : Writer cfg log written c) (newID : U16) {d : Datagram}
    (hd : d.speaker ≠ c.id) : Writer cfg log written (c.handlePacket cfg newID d) := by
  have hout := outbox_handlePacket cfg newID (not_denied_of_speaker hd)
  simp only [outbox, Prod.mk.injEq] at hout
  exact h.congr hout.2.2.2.1 hout.1 hout.2.2.1 hout.2.1 hout.2.2.2.2.1

theorem Writer.step (h : Writer cfg log written c) (hs : Sound cfg c)
    (hphase : c.listening = true ∧ c.stopped = false) {e : Event} (hheard : e.speaker ≠ some c.id)
    (hpatient : c.Patient e) (hc : c.step cfg e = some c') :
    ∃ log' written', Extends log c c' log' ∧ Writer cfg log' written' c' := by
  rcases step_cases hc with ⟨bytes, rfl, hwr, -, rfl⟩ | ⟨rfl, hpop⟩ | ⟨rfl, hpush⟩ |
    ⟨_, _, _, _, rfl, -, -, rfl⟩ | ⟨expired, rfl, -, -, rfl⟩ | ⟨rfl, hfin⟩ | ⟨newID, d, rfl, -, rfl⟩ |
    ⟨expired, rfl, -, rfl⟩
  · exact ⟨log, _, extends_self rfl, h.write hwr bytes⟩
  · obtain ⟨-, -, ⟨rest, hq, -⟩ | ⟨_, _, -, rfl⟩⟩ := writePop_cases hpop
    · exact absurd (hq ▸ List.mem_cons_self) (hs.noNull hphase.2)
    · exact ⟨log, written, extends_self rfl, h.congr rfl rfl rfl rfl rfl⟩
  · obtain ⟨b, hb, rfl⟩ := writePush_cases hpush
    exact ⟨log, written, extends_self rfl, h.writePush (hs.threadBuffers_lt hb)⟩
  · exact ⟨log, written, extends_self rfl, h.congr rfl rfl rfl rfl rfl⟩
  · obtain ⟨log', hlog, hw⟩ := h.processOutgoing expired
    exact ⟨log', written, hlog, hw⟩
  · obtain ⟨f, self, -, -, ⟨-, rfl⟩ | ⟨a, free, b, rest, hw, -, -, rfl⟩ | ⟨-, -, -, rfl⟩⟩ :=
      finishStep_cases hfin
    · exact ⟨log, written, extends_self rfl, h.congr rfl rfl rfl rfl rfl⟩
    · exact ⟨log, written, extends_self rfl, h.release_first hw rfl rfl rfl rfl rfl⟩
    · exact ⟨log, written, extends_self rfl, h.congr rfl rfl rfl rfl rfl⟩
  · have hd : d.speaker ≠ c.id := fun he => hheard (congrArg some he)
    have hout := outbox_handlePacket cfg newID (not_denied_of_speaker hd)
    simp only [outbox, Prod.mk.injEq] at hout
    exact ⟨log, written, extends_self hout.2.2.2.1, h.handlePacket newID hd⟩
  · rw [handleTimeout, if_pos hphase.1, handleConnectedTimeout_of_patient hpatient]
    obtain ⟨log', hlog, hw⟩ := h.processOutgoing expired
    exact ⟨log', written, hlog, hw⟩

end Writer

/-- With `n` packets numbered, those from `x` on are kept, also by a running
`_finishWriteQueue`. -/
def Retains (c : Connection) (n x : ℕ) : Prop :=
  n ≤ x + c.writeBuffers.length ∧ ∀ f, c.finishing = some f → n ≤ x + f.size.toNat

section Retains

variable {n x : ℕ}

theorem retains_of_le (h : n ≤ x) : Retains c n x :=
  ⟨h.trans (Nat.le_add_right _ _), fun _ _ => h.trans (Nat.le_add_right _ _)⟩

theorem Retains.mono {y : ℕ} (h : Retains c n x) (hy : x ≤ y) : Retains c n y :=
  ⟨by have := h.1; omega, fun f hf => by have := h.2 f hf; omega⟩

theorem Retains.congr (h : Retains c n x) (hw : c'.writeBuffers = c.writeBuffers)
    (hf : c'.finishing = c.finishing) : Retains c' n x :=
  ⟨by rw [hw]; exact h.1, by rw [hf]; exact h.2⟩

theorem Retains.processOutgoing (h : Retains c n x) (hf : c.finishing = none)
    (halone : ¬ c.ReleasesAlone) (expired : Bool) :
    Retains (c.processOutgoing cfg expired)
      (n + ((c.processOutgoing cfg expired).sequence - c.sequence).toNat) x := by
  obtain ⟨base, t, ds, hbase, -, hp⟩ := processOutgoing_cases cfg expired c
  rw [hp]
  rcases hbase with ⟨hrepeat, rfl⟩ | ⟨-, rfl⟩
  · rcases writeData_cases cfg c with ⟨-, hw⟩ | ⟨b, queue, hq, ⟨-, hw⟩ | ⟨hone, -⟩⟩
    · simp only [hw, BitVec.sub_self]
      exact h.congr rfl rfl
    · refine ⟨?_, fun f hcf => ?_⟩
      · have hle := h.1
        have hlen : (c.writeData cfg).writeBuffers.length = c.writeBuffers.length + 1 := by
          rw [hw]
          exact List.length_append
        have hseq : (c.writeData cfg).sequence - c.sequence = 1 := by
          rw [hw]
          exact add_sub_cancel_left _ _
        simp only [hlen, hseq]
        change n + 1 ≤ _
        omega
      · rw [hw] at hcf
        change c.finishing = some f at hcf
        rw [hf] at hcf
        cases hcf
    · exact absurd ⟨hone, by rw [hq]; simp, hrepeat⟩ halone
  · change Retains _ (n + (c.sequence - c.sequence).toNat) x
    rw [BitVec.sub_self]
    exact h.congr rfl rfl

theorem Retains.finishStep (h : Retains c n x) (hc : c.finishStep = some c') : Retains c' n x := by
  obtain ⟨f, self, hf, -, ⟨-, rfl⟩ | ⟨a, free, b, rest, hw, hsize, -, rfl⟩ | ⟨-, -, -, rfl⟩⟩ :=
    finishStep_cases hc
  · exact ⟨h.1, fun g hg => by cases hg⟩
  · have hle := h.2 f hf
    rw [hw, List.length_cons] at hsize
    refine ⟨?_, fun g hg => ?_⟩
    · change n ≤ x + rest.length
      omega
    · rw [← Option.some.inj hg]
      exact hle
  · refine ⟨h.1, fun g hg => ?_⟩
    rw [← Option.some.inj hg]
    exact h.2 f hf

/-- The packets to keep are at least the unreleased ones when the last remote child lacks the
oldest of these. -/
theorem length_le_size_of_lastBehind (sequence : U16) (hlen : c.writeBuffers.length ≤ cfg.numBuffers)
    (hnb : 2 * cfg.numBuffers < 2 ^ 16) (hne : c.remote ≠ []) (hlast : c.LastBehind cfg) :
    c.writeBuffers.length ≤ (c.sequence - c.minAcked cfg sequence - 1).toNat := by
  have hmem := List.getLast?_eq_some_getLast hne
  have hbehind := hlast _ hmem
  have hsplit : c.remote.map Child.acked =
      c.remote.dropLast.map Child.acked ++ [(c.remote.getLast hne).acked] := by
    rw [← List.map_singleton (f := Child.acked), ← List.map_append, List.dropLast_append_getLast]
  have hfold := serialMin_concat cfg.numBuffers sequence (c.remote.dropLast.map Child.acked)
    (c.remote.getLast hne).acked
  rw [← hsplit] at hfold
  change ((c.remote.getLast hne).acked - c.minAcked cfg sequence).toNat ≤ _ at hfold
  rw [oldest] at hbehind
  generalize c.minAcked cfg sequence = least at *
  generalize (c.remote.getLast hne).acked = last at *
  generalize c.writeBuffers.length = len at *
  generalize c.sequence = seq at *
  generalize cfg.numBuffers = nb at *
  bv_omega

theorem le_add_size_of_last {sequence : U16} {u : ℕ} (hseq : c.sequence = serial 16 n)
    (hu : u ≤ n) (hn : n ≤ u + cfg.numBuffers) (hnb : 2 * cfg.numBuffers < 2 ^ 16)
    (hne : c.remote ≠ []) (hlast : (c.remote.getLast hne).acked = serial 16 u - 1) :
    n ≤ u + (c.sequence - c.minAcked cfg sequence - 1).toNat := by
  have hsplit : c.remote.map Child.acked =
      c.remote.dropLast.map Child.acked ++ [(c.remote.getLast hne).acked] := by
    rw [← List.map_singleton (f := Child.acked), ← List.map_append, List.dropLast_append_getLast]
  have hfold := serialMin_concat cfg.numBuffers sequence (c.remote.dropLast.map Child.acked)
    (c.remote.getLast hne).acked
  rw [← hsplit, hlast] at hfold
  change (serial 16 u - 1 - c.minAcked cfg sequence).toNat ≤ _ at hfold
  have hsize : c.sequence - c.minAcked cfg sequence - 1 =
      (serial 16 n - serial 16 u) + (serial 16 u - 1 - c.minAcked cfg sequence) := by
    rw [hseq]
    abel
  rw [hsize, BitVec.toNat_add, toNat_serial_sub hu (by omega), Nat.mod_eq_of_lt (by omega)]
  omega

theorem le_add_size_of_allNear {sequence : U16} {u : ℕ} (hnd : (c.children.map Child.id).Nodup)
    (hseq : c.sequence = serial 16 n) (hu : u ≤ n) (hn : n ≤ u + cfg.numBuffers)
    (hnb : 2 * cfg.numBuffers < 2 ^ 16) (hnear : c.AllNear cfg) {reader child : Child}
    (hreader : reader ∈ c.remote) (hack : reader.acked = sequence) (hmem : child ∈ c.remote)
    (hacked : child.acked = serial 16 u - 1) :
    n ≤ u + (c.sequence - c.minAcked cfg sequence - 1).toNat := by
  have hdist : (c.sequence - 1 - child.acked).toNat = n - u := by
    rw [hacked, hseq, sub_sub_sub_cancel_right, toNat_serial_sub hu (by omega)]
  have hfind : ∀ ch ∈ c.remote, c.findConnection ch.id = some ch :=
    fun ch hch => Keyed.lookup_of_mem hnd (List.mem_of_mem_filter hch)
  have hcount : ∀ ch : Child,
      ch.acked = serial 16 (n + 2 ^ 16 - (c.sequence - 1 - ch.acked).toNat) - 1 := by
    intro ch
    rw [serial_sub_toNat, hseq]
    abel
  have hsize := le_add_size (c := c) (a := fun k => (c.findConnection k).elim 0
      (fun ch => n + 2 ^ 16 - (c.sequence - 1 - ch.acked).toNat))
    (n + 2 ^ 16) (n + 2 ^ 16 - (c.sequence - 1 - sequence).toNat) hnb
    (fun ch hch => by simp only [hfind ch hch, Option.elim_some]; exact hcount ch)
    (fun ch hch => by
      have := hnear ch hch
      simp only [hfind ch hch, Option.elim_some]
      omega)
    (by
      have := hnear reader hreader
      rw [hack] at this
      omega) hmem
  have hstart := hcount reader
  rw [hack] at hstart
  rw [← hstart, serial_add_two_pow, ← hseq] at hsize
  simp only [hfind child hmem, Option.elim_some, hdist] at hsize
  omega

/-- An ack keeps what the last remote child lacks, and what the joiner lacks once it is counted. -/
theorem Retains.handleAck (h : Retains c n x) (hs : Sound cfg c)
    (hseq : c.sequence = serial 16 n) (hnb : 2 * cfg.numBuffers < 2 ^ 16)
    {readerID sequence id : U16} (writerID : U16) (hr : readerID ≠ c.id) (hid : id ≠ c.id)
    (hsafe : c.takesOver cfg (.ack readerID writerID sequence) = true → n ≤ x ∨
      (c.recordAck readerID sequence).LastBehind cfg ∨
      ∃ child, (c.recordAck readerID sequence).findConnection id = some child ∧
        child.acked = serial 16 x - 1 ∧ x ≤ n ∧
        ((c.recordAck readerID sequence).LastIs id ∨
          (c.recordAck readerID sequence).AllNear cfg)) :
    Retains (c.handleAck cfg readerID writerID sequence) n x := by
  rcases handleAck_cases cfg readerID writerID sequence c with
    ⟨-, hc⟩ | ⟨reader, hw, hfind, hlate, hcase⟩
  · rw [hc]
    exact h
  have htakes : c.takesOver cfg (.ack readerID writerID sequence) = true := by
    simp [takesOver, hw, hfind, hlate]
  have hlen := hs.writeBuffers_le
  have hle := h.1
  have hnd : ((c.recordAck readerID sequence).children.map Child.id).Nodup := by
    have hids := ids_updateChild (c := c) (k := readerID) (f := Child.setAcked sequence)
      (fun _ hk => hk)
    exact hids ▸ hs.nodup
  have hreader : reader.setAcked sequence ∈ (c.recordAck readerID sequence).remote := by
    refine List.mem_filter.2 ⟨List.mem_map.2 ⟨reader, Keyed.mem_of_lookup hfind, ?_⟩, ?_⟩
    · exact if_pos (Keyed.key_of_lookup hfind)
    · have hk : reader.id = readerID := Keyed.key_of_lookup hfind
      simpa [Child.setAcked, recordAck, hk] using hr
  have hne : (c.recordAck readerID sequence).remote ≠ [] := List.ne_nil_of_mem hreader
  rcases hcase with ⟨-, hc⟩ | ⟨self, -, -, hc⟩
  · rw [hc]
    exact h.congr rfl rfl
  rw [hc]
  refine ⟨h.1, fun f hcf => ?_⟩
  rw [← Option.some.inj hcf]
  change n ≤ x + ((c.recordAck readerID sequence).sequence -
    (c.recordAck readerID sequence).minAcked cfg sequence - 1).toNat
  rcases hsafe htakes with hx | hlast | ⟨child, hchild, hacked, hx, hcounted⟩
  · omega
  · have hsize := length_le_size_of_lastBehind (c := c.recordAck readerID sequence)
      sequence hlen hnb hne hlast
    change c.writeBuffers.length ≤ _ at hsize
    omega
  · rcases hcounted with ⟨last, hlast, hlastid⟩ | hnear
    · have heq : last = child :=
        Keyed.eq_of_lookup hnd hchild
          (List.mem_of_mem_filter (List.mem_of_getLast? hlast)) hlastid
      have hget : (c.recordAck readerID sequence).remote.getLast hne = child := by
        rw [List.getLast?_eq_some_getLast hne] at hlast
        exact (Option.some.inj hlast).trans heq
      exact le_add_size_of_last hseq hx (by omega) hnb hne (by rw [hget]; exact hacked)
    · have hmem : child ∈ (c.recordAck readerID sequence).remote := by
        have hk : child.id = id := Keyed.key_of_lookup hchild
        exact List.mem_filter.2 ⟨Keyed.mem_of_lookup hchild, by simpa [hk, recordAck] using hid⟩
      exact le_add_size_of_allNear hnd hseq hx (by omega) hnb hnear hreader rfl hmem hacked

/-- One step of a listening connection, acks apart, that numbers no packet while it is alone. -/
theorem Retains.step (h : Retains c n x) (hl : c.listening = true) {e : Event}
    (hheard : e.speaker ≠ some c.id) (hpatient : c.Patient e)
    (halone : ∀ expired, e = .outgoing expired ∨ e = .timeout expired → ¬ c.ReleasesAlone)
    (hack : ∀ newID d, e = .packet newID d → d.isAck = false) (hc : c.step cfg e = some c') :
    Retains c' (n + (c'.sequence - c.sequence).toNat) x := by
  have hsame : ∀ c' : Connection, c'.sequence = c.sequence → Retains c' n x →
      Retains c' (n + (c'.sequence - c.sequence).toNat) x := by
    intro c' hseq hr
    rw [hseq, BitVec.sub_self]
    exact hr
  rcases step_cases hc with ⟨bytes, rfl, hwr, -, rfl⟩ | ⟨rfl, hpop⟩ | ⟨rfl, hpush⟩ |
    ⟨_, _, _, _, rfl, -, -, rfl⟩ | ⟨expired, rfl, hi, -, rfl⟩ | ⟨rfl, hfin⟩ |
    ⟨newID, d, rfl, -, rfl⟩ | ⟨expired, rfl, hi, rfl⟩
  · exact hsame _ rfl (h.congr rfl rfl)
  · obtain ⟨-, -, ⟨_, -, rfl⟩ | ⟨_, _, -, rfl⟩⟩ := writePop_cases hpop <;>
      exact hsame _ rfl (h.congr rfl rfl)
  · obtain ⟨b, -, rfl⟩ := writePush_cases hpush
    exact hsame _ rfl (h.congr rfl rfl)
  · exact hsame _ rfl (h.congr rfl rfl)
  · exact h.processOutgoing (finishing_of_idle hi) (halone expired (Or.inl rfl)) expired
  · refine hsame _ ?_ (h.finishStep hfin)
    obtain ⟨f, self, -, -, ⟨-, rfl⟩ | ⟨a, free, b, rest, -, -, -, rfl⟩ | ⟨-, -, -, rfl⟩⟩ :=
      finishStep_cases hfin <;> rfl
  · have hout := outbox_handlePacket cfg newID
      (not_denied_of_speaker (fun he => hheard (congrArg some he)))
    simp only [outbox, Prod.mk.injEq] at hout
    exact hsame _ hout.2.2.2.1
      (h.congr hout.2.2.1 (finishing_handlePacket cfg c newID (hack newID d rfl)))
  · rw [handleTimeout, if_pos hl, handleConnectedTimeout_of_patient hpatient]
    exact h.processOutgoing (finishing_of_idle hi) (halone expired (Or.inr rfl)) expired

end Retains

theorem cursor_handlePacket (cfg : Config) (hl : c.listening = true) (newID : U16) {d : Datagram}
    (hack : d.isAck = false) (hexit : ∀ id data, d ≠ .node .exit id data) :
    (c.handlePacket cfg newID d).findConnection d.speaker = c.findConnection d.speaker ∨
    (c.findConnection d.speaker = none ∧ ∃ sequence,
      (c.handlePacket cfg newID d).findConnection d.speaker =
        some (Child.new cfg d.speaker sequence)) ∨
    ∃ child child', c.findConnection d.speaker = some child ∧
      (c.handlePacket cfg newID d).findConnection d.speaker = some child' ∧
      child'.acked = child.acked := by
  have hadd : ∀ id sequence : U16,
      (c.addConnection cfg id sequence).findConnection id = c.findConnection id ∨
      (c.findConnection id = none ∧ ∃ sequence',
        (c.addConnection cfg id sequence).findConnection id =
          some (Child.new cfg id sequence')) := by
    intro id sequence
    cases hfind : c.findConnection id with
    | some child => exact Or.inl (by rw [addConnection_of_known hfind, hfind])
    | none => exact Or.inr ⟨rfl, sequence, findConnection_addConnection_self hfind sequence⟩
  cases d with
  | ack readerID writerID sequence => cases hack
  | node type connectionID data =>
      simp only [handlePacket, hl, if_true]
      cases type with
      | hello =>
          left
          simp only [handleInitData, checkNewID]
          split_ifs <;> rfl
      | confirm => exact (hadd connectionID data).imp_right Or.inl
      | countNode => exact Or.inl rfl
      | helloReply => exact (hadd connectionID data).imp_right Or.inl
      | exit => exact absurd rfl (hexit connectionID data)
      | deny => exact Or.inl rfl
  | data d =>
      simp only [handlePacket, hl, if_true]
      rcases handleData_cases cfg d c with ⟨-, h⟩ | ⟨child, queue, ds, hfind, -, h⟩
      · exact Or.inl (by rw [h])
      · have hframe := Child.handleData_frame cfg c.id d child
        have hid : (child.handleData cfg c.id d).1.id = d.writerID :=
          hframe.1.trans (Keyed.key_of_lookup hfind)
        refine Or.inr (Or.inr ⟨child, (child.handleData cfg c.id d).1, hfind, ?_, hframe.2⟩)
        rw [h]
        refine (findConnection_updateChild (c := c) (fun _ _ => hid) d.writerID).trans ?_
        rw [if_pos rfl, hfind, Option.map_some]
  | nack readerID writerID nacks =>
      left
      simp only [handlePacket, hl, if_true]
      obtain ⟨_, _, h⟩ := handleNack_cases readerID writerID nacks c
      rw [h]
      rfl
  | ackReq writerID reqID =>
      left
      simp only [handlePacket, hl, if_true]
      obtain ⟨_, _, -, h⟩ := handleAckRequest_cases cfg writerID reqID c
      rw [h]
      rfl

/-- The cursor a member keeps for the joiner: the constant a new child starts with, or the last
ack taken over. -/
def joinCursor : Option ℕ → U16
  | none => BitVec.allOnes 16
  | some u => serial 16 u - 1

structure Host (cfg : Config) (idA idB : U16) (log : List (List UInt8)) (written : List UInt8)
    (limits : List ℕ) (newest : Option ℕ) (c : Connection) : Prop where
  sound : Sound cfg c
  phase : c.phase = (idB, true, false)
  writer : Writer cfg log written c
  cursor : ∀ child, c.findConnection idA = some child → child.acked = joinCursor newest
  known : newest ≠ none → c.findConnection idA ≠ none
  retains : ∀ x ∈ limits, Retains c log.length x

theorem foreign_of_speaker {d : Datagram} {id : U16} (h : d.speaker ≠ id) : d.foreign id := by
  cases d with
  | data d => exact h
  | ack readerID writerID sequence => exact h
  | ackReq writerID sequence => trivial
  | nack readerID writerID nacks => trivial
  | node type connectionID data => trivial

theorem phase_step_of_patient (hl : c.listening = true) {e : Event} (hpatient : c.Patient e)
    (hc : c.step cfg e = some c') : c'.phase = c.phase := by
  by_cases he : ∃ expired, e = .timeout expired
  · obtain ⟨expired, rfl⟩ := he
    simp only [Connection.step, Option.ite_none_right_eq_some, Option.some.injEq, handleTimeout,
      if_pos hl] at hc
    obtain ⟨-, rfl⟩ := hc
    rw [handleConnectedTimeout_of_patient hpatient]
    exact phase_processOutgoing cfg c expired
  · exact phase_step hl (fun expired hx => he ⟨expired, hx⟩) hc

theorem sequence_handleAck (cfg : Config) (c : Connection) (r w q : U16) :
    (c.handleAck cfg r w q).sequence = c.sequence := by
  rcases handleAck_cases cfg r w q c with ⟨-, h⟩ | ⟨_, -, -, -, ⟨-, h⟩ | ⟨_, -, -, h⟩⟩ <;>
    rw [h] <;> rfl

namespace Host

variable {idA idB : U16} {limits : List ℕ} {newest : Option ℕ}

theorem id_eq (h : Host cfg idA idB log written limits newest c) : c.id = idB :=
  congrArg Prod.fst h.phase

theorem listening (h : Host cfg idA idB log written limits newest c) : c.listening = true :=
  congrArg (fun p => p.2.1) h.phase

theorem child_step (h : Host cfg idA idB log written limits newest c) (hne : idA ≠ idB)
    {e : Event} (hpatient : c.Patient e)
    (hown : ∀ newID d, e = .packet newID d → d.speaker = idA →
      d.isAck = false ∧ ∀ id data, d ≠ .node .exit id data) (hc : c.step cfg e = some c') :
    (∀ child, c'.findConnection idA = some child → child.acked = joinCursor newest) ∧
      (newest ≠ none → c'.findConnection idA ≠ none) := by
  have hkeep : ∀ child child', c.findConnection idA = some child →
      c'.findConnection idA = some child' → child'.acked = child.acked →
      (∀ child, c'.findConnection idA = some child → child.acked = joinCursor newest) ∧
        (newest ≠ none → c'.findConnection idA ≠ none) := by
    intro child child' hfind hfind' hacked
    refine ⟨fun x hx => ?_, fun _ => by rw [hfind']; simp⟩
    rw [hfind', Option.some.injEq] at hx
    rw [← hx, hacked]
    exact h.cursor child hfind
  have hsame : c'.findConnection idA = c.findConnection idA →
      (∀ child, c'.findConnection idA = some child → child.acked = joinCursor newest) ∧
        (newest ≠ none → c'.findConnection idA ≠ none) := by
    intro he
    rw [he]
    exact ⟨h.cursor, h.known⟩
  by_cases hreads : e.reads = some idA
  · obtain ⟨n, rfl⟩ : ∃ n, e = .read idA n := by
      cases e with
      | read writer n => exact ⟨n, congrArg (fun w => Event.read w n) (Option.some.inj hreads)⟩
      | _ => cases hreads
    simp only [Connection.step, Option.bind_eq_some_iff, Option.map_eq_some_iff] at hc
    obtain ⟨child, hfind, r, hr, rfl⟩ := hc
    obtain ⟨hrid, -, hrack⟩ := Child.readSync_frame hr
    refine hkeep child r.1 hfind ?_ hrack
    rw [findConnection_updateChild (fun _ _ => hrid.trans (Keyed.key_of_lookup hfind)), if_pos rfl,
      hfind, Option.map_some]
  by_cases hheard : e.speaker = some idA
  · obtain ⟨newID, d, rfl, hd⟩ : ∃ newID d, e = .packet newID d ∧ d.speaker = idA := by
      cases e with
      | packet newID d => exact ⟨newID, d, rfl, Option.some.inj hheard⟩
      | _ => cases hheard
    obtain ⟨hack, hexit⟩ := hown newID d rfl hd
    simp only [Connection.step, Option.ite_none_right_eq_some, Option.some.injEq] at hc
    obtain ⟨-, rfl⟩ := hc
    rcases cursor_handlePacket cfg h.listening newID hack hexit with hk | ⟨hk, sequence, hk'⟩ |
      ⟨child, child', hk, hk', hacked⟩
    · exact hsame (hd ▸ hk)
    · rw [hd] at hk hk'
      have hnone : newest = none := by
        by_contra hn
        exact h.known hn hk
      refine ⟨fun x hx => ?_, fun hn => absurd hnone hn⟩
      rw [hk', Option.some.injEq] at hx
      rw [← hx, hnone]
      rfl
    · rw [hd] at hk hk'
      exact hkeep child child' hk hk' hacked
  · exact hsame (findConnection_step_of_ne (h.id_eq ▸ hne) hheard hreads hpatient hc)

theorem step (h : Host cfg idA idB log written limits newest c) (hne : idA ≠ idB) {e : Event}
    (hheard : e.speaker ≠ some idB) (hpatient : c.Patient e)
    (halone : ∀ expired, e = .outgoing expired ∨ e = .timeout expired → limits ≠ [] →
      ¬ c.ReleasesAlone)
    (hown : ∀ newID d, e = .packet newID d → d.isAck = false ∧
      (d.speaker = idA → ∀ id data, d ≠ .node .exit id data)) (hc : c.step cfg e = some c') :
    ∃ log' written', Extends log c c' log' ∧
      Host cfg idA idB log' written' limits newest c' := by
  have hself : e.speaker ≠ some c.id := by rw [h.id_eq]; exact hheard
  have hloop : NoLoopback c e := by
    cases e with
    | packet newID d => exact foreign_of_speaker (fun he => hself (congrArg some he))
    | _ => trivial
  obtain ⟨log', written', hlog, hwriter⟩ := h.writer.step h.sound
    ⟨h.listening, congrArg (fun p => p.2.2) h.phase⟩ hself hpatient hc
  obtain ⟨hcursor, hknown⟩ := h.child_step hne hpatient
    (fun newID d he hd => ⟨(hown newID d he).1, (hown newID d he).2 hd⟩) hc
  refine ⟨log', written', hlog, h.sound.step h.listening hloop hc,
    (phase_step_of_patient h.listening hpatient hc).trans h.phase, hwriter, hcursor, hknown, ?_⟩
  intro x hx
  rw [hlog.2]
  exact (h.retains x hx).step h.listening hself hpatient
    (fun expired he => halone expired he (List.ne_nil_of_mem hx))
    (fun newID d he => (hown newID d he).1) hc

theorem child_ack (h : Host cfg idA idB log written limits newest c) {r w q : U16}
    {newest' : Option ℕ}
    (hnew : c.takesOver cfg (.ack r w q) = true → if r = idA then q = joinCursor newest'
      else newest' = newest)
    (hold : c.takesOver cfg (.ack r w q) = false → newest' = newest) :
    (∀ child, (c.handleAck cfg r w q).findConnection idA = some child →
      child.acked = joinCursor newest') ∧
      (newest' ≠ none → (c.handleAck cfg r w q).findConnection idA ≠ none) := by
  rcases handleAck_cases cfg r w q c with ⟨hlate, hc⟩ | ⟨reader, hw, hfind, hlate, hc⟩
  · have hno : c.takesOver cfg (.ack r w q) = false := by
      by_cases hw : w = c.id
      · cases hfind : c.findConnection r with
        | none => simp [takesOver, hfind]
        | some reader => simp [takesOver, hw, hfind, hlate hw reader hfind]
      · simp [takesOver, hw]
    rw [hc, hold hno]
    exact ⟨h.cursor, h.known⟩
  · have hcase := hnew (by simp [takesOver, hw, hfind, hlate])
    have hrec : (c.handleAck cfg r w q).findConnection idA =
        if idA = r then some (reader.setAcked q) else c.findConnection idA := by
      rw [← Option.map_some, ← hfind, ← findConnection_recordAck]
      rcases hc with ⟨-, hc⟩ | ⟨_, -, -, hc⟩
      · rw [hc]
      · rw [hc]
        rfl
    rw [hrec]
    by_cases hra : r = idA
    · rw [if_pos hra] at hcase
      rw [if_pos hra.symm]
      refine ⟨fun child hchild => ?_, fun _ => by simp⟩
      rw [← Option.some.inj hchild]
      exact hcase
    · rw [if_neg hra] at hcase
      rw [if_neg (Ne.symm hra), hcase]
      exact ⟨h.cursor, h.known⟩

theorem handle_ack (h : Host cfg idA idB log written limits newest c) (hne : idA ≠ idB)
    (hf : c.finishing = none) (hnb : 2 * cfg.numBuffers < 2 ^ 16) {r w q : U16} (hr : r ≠ idB)
    {limits' : List ℕ} {newest' : Option ℕ}
    (hnew : c.takesOver cfg (.ack r w q) = true → if r = idA then q = joinCursor newest'
      else newest' = newest)
    (hold : c.takesOver cfg (.ack r w q) = false → newest' = newest)
    (hlimits : ∀ x ∈ limits', Retains c log.length x)
    (hsafe : ∀ x ∈ limits', c.takesOver cfg (.ack r w q) = true → log.length ≤ x ∨
      (c.recordAck r q).LastBehind cfg ∨
      ∃ child, (c.recordAck r q).findConnection idA = some child ∧
        child.acked = serial 16 x - 1 ∧ x ≤ log.length ∧
        ((c.recordAck r q).LastIs idA ∨ (c.recordAck r q).AllNear cfg)) :
    Host cfg idA idB log written limits' newest' (c.handleAck cfg r w q) := by
  have hid := h.id_eq
  have hrc : r ≠ c.id := hid ▸ hr
  obtain ⟨hcursor, hknown⟩ := h.child_ack hnew hold
  refine ⟨h.sound.handleAck hf hrc w q, (phase_handleAck cfg c r w q).trans h.phase, ?_, hcursor,
    hknown, fun x hx => (hlimits x hx).handleAck h.sound h.writer.sequence hnb w hrc
      (hid ▸ hne) (hsafe x hx)⟩
  rcases handleAck_cases cfg r w q c with ⟨-, hc⟩ | ⟨_, -, -, -, ⟨-, hc⟩ | ⟨_, -, -, hc⟩⟩
  · rw [hc]
    exact h.writer
  · rw [hc]
    exact h.writer.congr rfl rfl rfl rfl rfl
  · rw [hc]
    exact h.writer.congr rfl rfl rfl rfl rfl

end Host
end Collage.Rsp
