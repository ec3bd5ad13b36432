import Collage.Rdma.Credits
import Collage.Rdma.Pool

/-!
# Credit safety of an RDMA connection

The credits of both directions, the posted receives and the message buffers never run out, as long
as the cast in `makeImm` does not lose flow-control messages that are to be acknowledged.
-/

namespace Collage.Rdma

namespace Send

/-- The number of messages that a write acknowledges. -/
def fcs? : Send → Option ℕ
  | write _ _ _ imm => some imm.fcsReceived.toNat
  | message _ => none

end Send

def Message.writes : Message → ℕ
  | setup _ => 0
  | fc payload => payload.writesReceived.toNat
  | invalid => 0

namespace Completion

def fcs? : Completion → Option ℕ
  | recvRDMAWithImm imm _ => some imm.fcsReceived.toNat
  | recv _ => none
  | send _ => none
  | rdmaWrite _ => none

def send? : Completion → Option ℕ
  | recvRDMAWithImm _ _ => none
  | recv _ => none
  | send buffer => some buffer
  | rdmaWrite _ => none

end Completion

theorem length_posted (posted : List Send) :
    posted.length = (posted.filterMap Send.fcs?).length + (posted.filterMap Send.buffer?).length := by
  induction posted with
  | nil => rfl
  | cons send posted ih =>
      cases send <;> simp only [List.length_cons, List.filterMap_cons, Send.fcs?, Send.buffer?] <;>
        omega

theorem length_buffers (cq : List Completion) :
    (cq.filterMap Completion.buffer?).length = (cq.filterMap Completion.fcs?).length +
      (cq.filterMap Completion.message?).length + (cq.filterMap Completion.send?).length := by
  induction cq with
  | nil => rfl
  | cons completion cq ih =>
      cases completion <;>
        simp only [List.length_cons, List.filterMap_cons, Completion.buffer?, Completion.fcs?,
          Completion.message?, Completion.send?] <;> omega

/-- The credits of the writes of `A`. -/
def credits (A B : Side) : Credits where
  wcredits := A.wcredits
  fcs := A.fcs
  imms := B.cq.filterMap Completion.fcs? ++ A.posted.filterMap Send.fcs?
  fcredits := B.fcredits
  writes := B.writes
  reports := A.received.map Message.writes ++ B.sending.map Message.writes
  ready := B.availBytes ≠ 0

/-- The messages of `B` that `A` has received and not yet acknowledged. -/
def unanswered (A : Side) : ℕ := (A.cq.filterMap Completion.message?).length + A.fcs

theorem Side.length_received (s : Side) :
    s.received.length = (s.cq.filterMap Completion.message?).length :=
  List.length_map _

theorem Side.length_sending (s : Side) :
    s.sending.length = (s.posted.filterMap Send.buffer?).length :=
  List.length_map _

/-- The stream from `A` to `B` has its credits, and `B` has not more messages under way to their
completion than `A` has still to acknowledge. The setup message is never acknowledged. -/
structure Direction (total : ℕ) (A B : Side) : Prop where
  balanced : ∃ last, (credits A B).Balanced total fcMessageFrequency last
  outstanding : ∀ l, l <:+ B.cq →
    (l.filterMap Completion.send?).length + (B.unacked.filterMap Sent.buffer?).length ≤
      unanswered A + (A.posted.filterMap Send.fcs?).sum + (l.filterMap Completion.fcs?).sum + 1

/-- The count of the messages to acknowledge survives the cast. -/
def Side.Countable (s : Side) : Prop := s.fcs < 2 ^ 16 ∨ maxFC ≤ s.fcs % 2 ^ 16

instance (s : Side) : Decidable s.Countable := inferInstanceAs (Decidable (_ ∨ _))

namespace Side

variable {s : Side} {bytes : List UInt8}

theorem makeImm_spec (h : s.Countable) {length : U32} (hlen : length.toNat ≤ maxBS) :
    ∃ imm, imm.fcsReceived.toNat = min maxFC s.fcs ∧
      s.makeImm length = (imm, { s with fcs := s.fcs - min maxFC s.fcs }) := by
  have hcast : min maxFC (s.fcs % 2 ^ 16) = min maxFC s.fcs := by
    rcases h with h | h
    · rw [Nat.mod_eq_of_lt h]
    · have hle := Nat.mod_le s.fcs (2 ^ 16)
      omega
  have hfcs : (BitVec.ofNat 4 (min maxFC s.fcs)).toNat = min maxFC s.fcs := by
    rw [BitVec.toNat_ofNat, maxFC]
    exact Nat.mod_eq_of_lt (by omega)
  have hbytes : (length.setWidth 28).toNat = length.toNat := by
    rw [maxBS] at hlen
    rw [BitVec.toNat_setWidth]
    exact Nat.mod_eq_of_lt (by omega)
  refine ⟨⟨length.setWidth 28, BitVec.ofNat 4 (min maxFC s.fcs)⟩, hfcs, ?_⟩
  simp only [makeImm, hcast, hfcs, hbytes, bne_self_eq_false, Bool.or_false]

theorem postRDMAWrite_spec (h : s.Countable) {length : U32}
    (hlength : s.source.head.value - s.source.middle.value = length)
    (hlen : length.toNat ≤ maxBS) :
    ∃ imm, imm.fcsReceived.toNat = min maxFC s.fcs ∧
      s.postRDMAWrite =
        { s with
          fcs := s.fcs - min maxFC s.fcs
          source := s.source.incrMiddle length
          rptr := s.rptr.incrHead length
          wcredits := s.wcredits - 1
          posted := s.posted ++
            [.write (s.source.middle.ptr s.source.num) length
              (s.rptr.head.ptr s.rptr.num) imm] } := by
  obtain ⟨imm, himm, hmake⟩ := makeImm_spec h hlen
  refine ⟨imm, himm, ?_⟩
  simp only [postRDMAWrite, hlength, hmake]

theorem put_spec (h : s.Countable) (hmiddle : s.source.head.value = s.source.middle.value)
    (hlen : bytes.length ≤ maxBS) :
    ∃ sourcebuf source rptr start length target imm, imm.fcsReceived.toNat = min maxFC s.fcs ∧
      source.head.value = source.middle.value ∧
      s.put bytes =
        { s with
          sourcebuf, source, rptr
          accepted := s.accepted ++ bytes
          fcs := s.fcs - min maxFC s.fcs
          wcredits := s.wcredits - 1
          posted := s.posted ++ [.write start length target imm] } := by
  have hlength : s.source.head.value + BitVec.ofNat 32 bytes.length - s.source.middle.value =
      BitVec.ofNat 32 bytes.length := by
    rw [hmiddle, BitVec.add_comm, BitVec.add_sub_cancel]
  have htoNat : (BitVec.ofNat 32 bytes.length).toNat ≤ maxBS := by
    rw [BitVec.toNat_ofNat]
    exact (Nat.mod_le _ _).trans hlen
  obtain ⟨imm, himm, heq⟩ := @postRDMAWrite_spec
    { s.fill bytes with accepted := s.accepted ++ bytes } h _ hlength htoNat
  refine ⟨_, _, _, _, _, _, imm, himm, ?_, heq⟩
  simp only [fill, Ring.incrMiddle, Ring.incrHead, RingPtr.incr]
  rw [hmiddle]

end Side

namespace Direction

variable {total : ℕ} {A B A' B' : Side}

theorem of_writer (h : Direction total A B) (hwcredits : A'.wcredits = A.wcredits)
    (hfcs : A'.fcs = A.fcs)
    (hposted : A'.posted.filterMap Send.fcs? = A.posted.filterMap Send.fcs?)
    (hreceived : A'.received = A.received) : Direction total A' B := by
  have hcredits : credits A' B = credits A B := by
    simp only [credits, hwcredits, hfcs, hposted, hreceived]
  refine ⟨hcredits ▸ h.balanced, ?_⟩
  rw [unanswered, ← A'.length_received, hreceived, A.length_received, hfcs, hposted]
  exact h.outstanding

theorem of_reader (h : Direction total A B) (hfcredits : B'.fcredits = B.fcredits)
    (hwrites : B'.writes = B.writes) (havail : B'.availBytes = B.availBytes)
    (hsending : B'.sending = B.sending)
    (hcq : B'.cq.filterMap Completion.fcs? = B.cq.filterMap Completion.fcs?)
    (hsuffix : B'.cq <:+ B.cq) (hunacked : B'.unacked = B.unacked) : Direction total A B' := by
  have hcredits : credits A B' = credits A B := by
    simp only [credits, hfcredits, hwrites, havail, hsending, hcq]
  refine ⟨hcredits ▸ h.balanced, ?_⟩
  intro l hl
  rw [hunacked]
  exact h.outstanding l (hl.trans hsuffix)

theorem writes_le (h : Direction total A B) : B.writes ≤ total := by
  obtain ⟨last, hb⟩ := h.balanced
  exact hb.writes_le

theorem messages_le (h : Direction total A B) :
    (B.posted.filterMap Send.buffer?).length + (B.unacked.filterMap Sent.buffer?).length +
      (B.cq.filterMap Completion.send?).length ≤ total + 2 := by
  obtain ⟨last, hb⟩ := h.balanced
  have hout := h.outstanding B.cq List.suffix_rfl
  have hfcs := hb.fcs_eq
  have hcredits := hb.fcredits_ge (by decide)
  simp only [credits, List.length_append, List.length_map, List.sum_append, Side.length_sending,
    Side.length_received] at hfcs hcredits
  rw [unanswered] at hout
  omega

theorem write (h : Direction total A B) (hcountable : A.Countable)
    (hmiddle : A.source.head.value = A.source.middle.value) (bytes : List UInt8) :
    Direction total (A.write bytes) B := by
  obtain heq | ⟨hcredits, put, -, -, hlen, heq⟩ := Side.write_cases (s := A) bytes
  · rw [heq]
    exact h
  have hmax : put.length ≤ maxBS := by
    refine hlen.trans ?_
    rw [Side.fillSize]
    omega
  obtain ⟨sourcebuf, source, rptr, start, length, target, imm, himm, -, hput⟩ :=
    Side.put_spec hcountable hmiddle hmax
  obtain ⟨last, hb⟩ := h.balanced
  rw [heq, hput]
  refine ⟨⟨last, ?_⟩, ?_⟩
  · have hpost := hb.post_write maxFC (by decide) hcredits
    simp only [credits, List.filterMap_append, List.filterMap_cons, List.filterMap_nil, Send.fcs?,
      himm, ← List.append_assoc] at hpost ⊢
    exact hpost
  · intro l hl
    have hout := h.outstanding l hl
    simp only [unanswered, List.filterMap_append, List.filterMap_cons, List.filterMap_nil,
      Send.fcs?, himm, List.sum_append, List.sum_singleton] at hout ⊢
    omega

theorem write_reader (h : Direction total A B) (bytes : List UInt8) :
    Direction total A (B.write bytes) := by
  obtain heq | ⟨-, put, -, -, -, heq⟩ := Side.write_cases (s := B) bytes
  · rw [heq]
    exact h
  · rw [heq]
    refine h.of_reader rfl rfl rfl ?_ rfl List.suffix_rfl rfl
    simp [Side.sending, Side.put, Side.postRDMAWrite, Side.makeImm, Side.fill, Send.buffer?]

theorem postFC (h : Direction total A B) (htotal : total < 2 ^ 31) {taken : ℕ}
    (havail : B.availBytes ≠ 0) (hneed : (B.take taken).needFC = true)
    (hsending : (B.take taken).postFC.sending = B.sending ++ [.fc (B.take taken).report]) :
    Direction total A (B.take taken).postFC := by
  obtain ⟨last, hb⟩ := h.balanced
  have hwrites := h.writes_le
  have hofNat : (BitVec.ofNat 32 B.writes).toNat = B.writes := by
    rw [BitVec.toNat_ofNat]
    exact Nat.mod_eq_of_lt (by omega)
  have hready : ¬ B.availBytes - taken ≠ 0 ∨ fcMessageFrequency ≤ B.writes := by
    have hneed : B.availBytes - taken = 0 ∨ fcMessageFrequency ≤ B.writes % 2 ^ 32 :=
      Side.needFC_iff.1 hneed
    rw [Nat.mod_eq_of_lt (by omega)] at hneed
    rcases hneed with hneed | hneed
    · exact Or.inl (fun hne => hne hneed)
    · exact Or.inr hneed
  refine ⟨⟨last, ?_⟩, h.outstanding⟩
  have hreport := hb.post_report havail hready
  have hwritten : (Message.fc (B.take taken).report).writes = B.writes := hofNat
  rw [credits, hsending, List.map_append, List.map_cons, List.map_nil, hwritten]
  simp only [credits, Side.postFC, Side.postMessage, Side.getBuffer, Side.report, Side.take,
    Side.drain, hofNat, Nat.sub_self, ← List.append_assoc] at hreport ⊢
  exact hreport

section Read

variable {num bytes : ℕ} {free : List ℕ} (hnum : 2 * num < 2 ^ 64)
include hnum

theorem readSync (h : Direction total A B) (htotal : total < 2 ^ 31) (hpooled : B.Pooled num free)
    (hspare : B.PostsFC bytes → B.msgbuf.isEmpty = false) :
    Direction total A (B.readSync bytes) := by
  obtain heq | heq | ⟨havail, taken, -, -, ⟨hneed, hposts, heq⟩ | ⟨-, heq⟩⟩ :=
    Side.readSync_cases (s := B) bytes
  · rw [heq]
    exact h
  · rw [heq]
    obtain ⟨last, hb⟩ := h.balanced
    exact ⟨⟨last, hb.of_ready (fun hne => absurd rfl hne)⟩, h.outstanding⟩
  · obtain ⟨buffer, free', rfl⟩ := hpooled.exists_free hnum (hspare hposts)
    have htaken : (B.take taken).Pooled num (buffer :: free') := { hpooled with }
    rw [heq]
    exact h.postFC htotal havail hneed (htaken.postFC_messages hnum).1
  · rw [heq]
    obtain ⟨last, hb⟩ := h.balanced
    exact ⟨⟨last, hb.of_ready (fun _ => havail)⟩, h.outstanding⟩

theorem readSync_writer (h : Direction total A B) (hpooled : A.Pooled num free)
    (hspare : A.PostsFC bytes → A.msgbuf.isEmpty = false) :
    Direction total (A.readSync bytes) B := by
  obtain heq | heq | ⟨-, taken, -, -, ⟨-, hposts, heq⟩ | ⟨-, heq⟩⟩ :=
    Side.readSync_cases (s := A) bytes
  · rw [heq]
    exact h
  · rw [heq]
    exact h.of_writer rfl rfl rfl rfl
  · obtain ⟨buffer, free', rfl⟩ := hpooled.exists_free hnum (hspare hposts)
    have htaken : (A.take taken).Pooled num (buffer :: free') := { hpooled with }
    rw [heq]
    refine h.of_writer rfl rfl ?_ (htaken.postFC_messages hnum).2
    simp [Side.postFC, Side.postMessage, Side.getBuffer, Side.take, Side.drain, Send.fcs?]
  · rw [heq]
    exact h.of_writer rfl rfl rfl rfl

end Read

section Complete

variable {num : ℕ} {free : List ℕ} {completion : Completion} {cq : List Completion}

theorem complete_writer (h : Direction total A B) (hpooled : A.Pooled num free)
    (hcq : A.cq = completion :: cq) :
    Direction total (Side.complete { A with cq } completion) B := by
  have hreceived := (hpooled.complete_messages hcq).2
  cases completion with
  | recv buffer =>
      obtain ⟨payload, hpayload, hcomplete⟩ := hpooled.complete_recv hcq
      obtain ⟨last, hb⟩ := h.balanced
      rw [Completion.message?, Option.map_some, hpayload, Option.toList_some,
        List.singleton_append] at hreceived
      have hreports : (credits A B).reports = payload.writesReceived.toNat ::
          ((Side.complete { A with cq } (.recv buffer)).received.map Message.writes ++
            B.sending.map Message.writes) := by
        simp only [credits, hreceived, List.map_cons, List.cons_append, Message.writes]
      have hhandle := hb.handle_report (by decide) hreports
      rw [hcomplete] at hhandle ⊢
      refine ⟨⟨_, hhandle⟩, ?_⟩
      intro l hl
      have hout := h.outstanding l hl
      simp only [unanswered, hcq, List.filterMap_cons, Completion.message?, List.length_cons,
        Side.freeBuffer, Side.recvFC] at hout ⊢
      omega
  | recvRDMAWithImm imm buffer => exact h.of_writer rfl rfl rfl hreceived.symm
  | send buffer => exact h.of_writer rfl rfl rfl hreceived.symm
  | rdmaWrite length => exact h.of_writer rfl rfl rfl hreceived.symm

theorem complete_reader (h : Direction total A B) (hpooled : B.Pooled num free)
    (hcq : B.cq = completion :: cq) :
    Direction total A (Side.complete { B with cq } completion) := by
  have hsuffix : cq <:+ B.cq := hcq ▸ List.suffix_cons completion cq
  have hsending := (hpooled.complete_messages hcq).1
  cases completion with
  | recvRDMAWithImm imm buffer =>
      obtain ⟨last, hb⟩ := h.balanced
      have himms : (credits A B).imms = imm.fcsReceived.toNat ::
          (cq.filterMap Completion.fcs? ++ A.posted.filterMap Send.fcs?) := by
        simp only [credits, hcq, List.filterMap_cons, Completion.fcs?, List.cons_append]
      have harrive := hb.write_arrives himms
        ((Side.complete { B with cq } (.recvRDMAWithImm imm buffer)).availBytes ≠ 0)
      refine ⟨⟨last, ?_⟩, fun l hl => h.outstanding l (hl.trans hsuffix)⟩
      rw [credits, hsending]
      exact harrive
  | recv buffer =>
      obtain ⟨payload, -, hcomplete⟩ := hpooled.complete_recv hcq
      rw [hcomplete] at hsending ⊢
      refine h.of_reader rfl rfl rfl hsending ?_ hsuffix rfl
      simp only [hcq, List.filterMap_cons, Completion.fcs?, Side.freeBuffer, Side.recvFC]
  | send buffer =>
      refine h.of_reader rfl rfl rfl hsending ?_ hsuffix rfl
      simp only [hcq, List.filterMap_cons, Completion.fcs?, Side.complete, Side.freeBuffer]
  | rdmaWrite length =>
      refine h.of_reader rfl rfl rfl hsending ?_ hsuffix rfl
      simp only [hcq, List.filterMap_cons, Completion.fcs?, Side.complete]

end Complete

section Deliver

variable {send : Send} {posted : List Send} {receives : List ℕ} {sinkbuf : Memory}
  {buffer num : ℕ} {free : List ℕ}

/-- The oldest send of the writer is carried out, when the reader has been told of the completion
of the messages that it acknowledges. -/
theorem deliver_writer (h : Direction total A B) (hposted : A.posted = send :: posted)
    (hpooled : B.Pooled num free) (hreceives : B.receives = buffer :: receives)
    (hprompt : (B.unacked.filterMap Sent.buffer?).length ≤
      unanswered A + (posted.filterMap Send.fcs?).sum + 1) :
    Direction total { A with posted, unacked := A.unacked ++ [send.sent] }
      { B with
        receives, sinkbuf
        msgs := send.copy A B buffer
        cq := B.cq ++ [send.arrival buffer] } := by
  obtain ⟨last, hb⟩ := h.balanced
  have hsending := (hpooled.deliver_messages send A sinkbuf hreceives).1
  have hcredits : credits { A with posted, unacked := A.unacked ++ [send.sent] }
      { B with
        receives, sinkbuf
        msgs := send.copy A B buffer
        cq := B.cq ++ [send.arrival buffer] } = credits A B := by
    rw [credits, hsending]
    cases send <;>
      simp only [credits, hposted, Send.arrival, List.filterMap_append, List.filterMap_cons,
        List.filterMap_nil, Completion.fcs?, Send.fcs?, List.append_assoc, List.singleton_append,
        List.nil_append] <;>
      rfl
  refine ⟨⟨last, hcredits ▸ hb⟩, ?_⟩
  intro l hl
  rcases List.suffix_concat_iff.1 hl with rfl | ⟨l', rfl, hl'⟩
  · simp only [List.filterMap_nil, List.length_nil, List.sum_nil, Nat.zero_add, Nat.add_zero]
    exact hprompt
  · have hout := h.outstanding l' hl'
    cases send <;>
      simp only [hposted, Send.arrival, List.filterMap_append, List.filterMap_cons,
        List.filterMap_nil, Completion.fcs?, Completion.send?, Send.fcs?, List.sum_append,
        List.sum_cons, List.sum_nil, List.append_nil, unanswered] at hout ⊢ <;>
      omega

theorem deliver_reader (h : Direction total A B) (hposted : B.posted = send :: posted)
    (hpooled : A.Pooled num free) (hreceives : A.receives = buffer :: receives) :
    Direction total
      { A with
        receives, sinkbuf
        msgs := send.copy B A buffer
        cq := A.cq ++ [send.arrival buffer] }
      { B with posted, unacked := B.unacked ++ [send.sent] } := by
  obtain ⟨last, hb⟩ := h.balanced
  have hreceived := (hpooled.deliver_messages send B sinkbuf hreceives).2
  have hsending := Side.Pooled.sending_of_posted hposted (B.unacked ++ [send.sent])
  have hcredits : credits
      { A with
        receives, sinkbuf
        msgs := send.copy B A buffer
        cq := A.cq ++ [send.arrival buffer] }
      { B with posted, unacked := B.unacked ++ [send.sent] } = credits A B := by
    rw [credits, credits, hreceived, hsending, List.map_append, List.map_append,
      List.append_assoc]
  refine ⟨⟨last, hcredits ▸ hb⟩, ?_⟩
  intro l hl
  have hout := h.outstanding l hl
  cases send <;>
    simp only [Send.arrival, Send.sent, List.filterMap_append, List.filterMap_cons,
      List.filterMap_nil, Completion.message?, Sent.buffer?, List.length_append, List.length_cons,
      List.length_nil, List.append_nil, unanswered] at hout ⊢ <;>
    omega

end Deliver

section Acknowledge

variable {sent : Sent} {unacked : List Sent}

theorem acknowledge_writer (h : Direction total A B) :
    Direction total { A with unacked, cq := A.cq ++ [sent.completion] } B := by
  exact h.of_writer rfl rfl rfl (Side.Pooled.acknowledge_messages _ _ _).2

theorem acknowledge_reader (h : Direction total A B) (hunacked : B.unacked = sent :: unacked) :
    Direction total A { B with unacked, cq := B.cq ++ [sent.completion] } := by
  obtain ⟨last, hb⟩ := h.balanced
  have hcredits : credits A { B with unacked, cq := B.cq ++ [sent.completion] } =
      credits A B := by
    cases sent <;>
      simp only [credits, Sent.completion, List.filterMap_append, List.filterMap_cons,
        List.filterMap_nil, Completion.fcs?, List.append_nil] <;>
      rfl
  refine ⟨⟨last, hcredits ▸ hb⟩, ?_⟩
  intro l hl
  rcases List.suffix_concat_iff.1 hl with rfl | ⟨l', rfl, hl'⟩
  · have hout := h.outstanding [] List.nil_suffix
    cases sent <;>
      simp only [hunacked, List.filterMap_cons, List.filterMap_nil, Sent.buffer?, List.length_cons,
        List.length_nil, List.sum_nil] at hout ⊢ <;>
      omega
  · have hout := h.outstanding l' hl'
    cases sent <;>
      simp only [hunacked, Sent.completion, List.filterMap_append, List.filterMap_cons,
        List.filterMap_nil, Sent.buffer?, Completion.send?, Completion.fcs?, List.length_append,
        List.length_cons, List.length_nil, List.append_nil] at hout ⊢ <;>
      omega

end Acknowledge

end Direction

/-- The buffers of one end are all accounted for, and so are its receives. -/
structure Stocked (depth : ℕ) (s : Side) : Prop where
  pooled : ∃ free, s.Pooled (2 * depth) free
  receives : s.receives.length + (s.cq.filterMap Completion.fcs?).length +
    (s.cq.filterMap Completion.message?).length + s.numRecvs = depth
  middle : s.source.head.value = s.source.middle.value
  truncated : s.truncated = false

namespace Stocked

variable {depth : ℕ} {s : Side}

theorem length_free {free : List ℕ} (h : Stocked depth s) (hpooled : s.Pooled (2 * depth) free) :
    free.length + (s.posted.filterMap Send.buffer?).length +
      (s.unacked.filterMap Sent.buffer?).length + (s.cq.filterMap Completion.send?).length =
      depth + s.numRecvs := by
  have hlen := hpooled.length_eq
  have hreceives := h.receives
  simp only [Side.inUse, List.length_append, length_buffers] at hlen
  omega

theorem isEmpty_eq_false (h : Stocked depth s) (hdepth : depth < 2 ^ 31)
    (hmessages : (s.posted.filterMap Send.buffer?).length +
      (s.unacked.filterMap Sent.buffer?).length +
      (s.cq.filterMap Completion.send?).length < depth) : s.msgbuf.isEmpty = false := by
  obtain ⟨free, hpooled⟩ := h.pooled
  have hfree := h.length_free hpooled
  apply eq_false_of_ne_true
  intro hempty
  rw [(hpooled.holds.isEmpty_iff (by omega)).1 hempty, List.length_nil] at hfree
  omega

theorem write (h : Stocked depth s) (hcountable : s.Countable) (bytes : List UInt8) :
    Stocked depth (s.write bytes) := by
  obtain ⟨free, hpooled⟩ := h.pooled
  have hwritten := (hpooled.write bytes).1
  obtain heq | ⟨-, put, -, -, hlen, heq⟩ := Side.write_cases (s := s) bytes
  · rw [heq]
    exact h
  have hmax : put.length ≤ maxBS := by
    refine hlen.trans ?_
    rw [Side.fillSize]
    omega
  obtain ⟨sourcebuf, source, rptr, start, length, target, imm, -, hmiddle, hput⟩ :=
    Side.put_spec hcountable h.middle hmax
  rw [heq, hput] at hwritten ⊢
  exact ⟨⟨free, hwritten⟩, h.receives, hmiddle, h.truncated⟩

theorem complete (h : Stocked depth s) (hdepth : depth < 2 ^ 31) {completion : Completion}
    {cq : List Completion} (hcq : s.cq = completion :: cq) :
    Stocked depth (Side.complete { s with cq } completion) := by
  obtain ⟨free, hpooled⟩ := h.pooled
  have hcompleted := hpooled.complete (by omega) hcq
  have hreceives := h.receives
  rw [hcq] at hreceives
  cases completion with
  | recvRDMAWithImm imm buffer =>
      refine ⟨⟨_, hcompleted⟩, ?_, h.middle, h.truncated⟩
      simp only [Side.complete, Side.freeBuffer, Side.recvRDMAWrite, List.filterMap_cons,
        Completion.fcs?, Completion.message?, List.length_cons] at hreceives ⊢
      omega
  | recv buffer =>
      obtain ⟨payload, -, heq⟩ := hpooled.complete_recv hcq
      rw [heq] at hcompleted ⊢
      refine ⟨⟨_, hcompleted⟩, ?_, h.middle, h.truncated⟩
      simp only [Side.freeBuffer, Side.recvFC, List.filterMap_cons, Completion.fcs?,
        Completion.message?, List.length_cons] at hreceives ⊢
      omega
  | send buffer => exact ⟨⟨_, hcompleted⟩, hreceives, h.middle, h.truncated⟩
  | rdmaWrite length => exact ⟨⟨_, hcompleted⟩, hreceives, h.middle, h.truncated⟩

theorem postReceives (h : Stocked depth s) (hdepth : depth < 2 ^ 31)
    (hmessages : (s.posted.filterMap Send.buffer?).length +
      (s.unacked.filterMap Sent.buffer?).length +
      (s.cq.filterMap Completion.send?).length ≤ depth) :
    Stocked depth { Side.postReceives s.numRecvs s with numRecvs := 0 } := by
  obtain ⟨free, hpooled⟩ := h.pooled
  have hfree := h.length_free hpooled
  have hreceives := h.receives
  have htake : (free.take s.numRecvs).length = s.numRecvs := by
    rw [List.length_take]
    omega
  rw [← List.take_append_drop s.numRecvs free] at hpooled
  obtain ⟨hposted, hposts⟩ := Side.Pooled.postReceives (by omega) hpooled
  rw [htake] at hposted hposts
  obtain ⟨msgbuf, receives, reused, heq⟩ := Side.postReceives_eq s.numRecvs s
  rw [heq] at hposted hposts ⊢
  refine ⟨⟨_, { hposted with }⟩, ?_, h.middle, h.truncated⟩
  have hlen := congrArg List.length hposts
  rw [List.length_append, htake] at hlen
  simp only at hlen ⊢
  omega

theorem readSync (h : Stocked depth s) (hdepth : depth < 2 ^ 31) {bytes : ℕ}
    (hspare : s.PostsFC bytes → s.msgbuf.isEmpty = false) : Stocked depth (s.readSync bytes) := by
  obtain ⟨free, hpooled⟩ := h.pooled
  have hread := hpooled.readSync (by omega) hspare
  obtain heq | heq | ⟨-, taken, -, -, ⟨-, -, heq⟩ | ⟨-, heq⟩⟩ :=
    Side.readSync_cases (s := s) bytes <;>
    rw [heq] at hread ⊢
  · exact h
  · exact ⟨hread, h.receives, h.middle, h.truncated⟩
  · exact ⟨hread, h.receives, h.middle, h.truncated⟩
  · exact ⟨hread, h.receives, h.middle, h.truncated⟩

theorem deliver_sender (h : Stocked depth s) {send : Send} {posted : List Send}
    (hposted : s.posted = send :: posted) :
    Stocked depth { s with posted, unacked := s.unacked ++ [send.sent] } := by
  obtain ⟨free, hpooled⟩ := h.pooled
  exact ⟨⟨free, hpooled.deliver_sender hposted⟩, h.receives, h.middle, h.truncated⟩

theorem deliver_receiver {peer : Side} (h : Stocked depth s) {send : Send} {buffer : ℕ}
    {receives : List ℕ} {sinkbuf : Memory} (hreceives : s.receives = buffer :: receives)
    (hreport : ∀ message ∈ send.buffer?.map peer.msgs, message.IsReport) :
    Stocked depth
      { s with
        receives, sinkbuf
        msgs := send.copy peer s buffer
        cq := s.cq ++ [send.arrival buffer] } := by
  obtain ⟨free, hpooled⟩ := h.pooled
  have hlen := h.receives
  rw [hreceives, List.length_cons] at hlen
  refine ⟨⟨free, hpooled.deliver_receiver hreceives hreport⟩, ?_, h.middle, h.truncated⟩
  cases send <;>
    simp only [Send.arrival, List.filterMap_append, List.filterMap_cons, List.filterMap_nil,
      Completion.fcs?, Completion.message?, List.length_append, List.length_cons,
      List.length_nil] <;>
    omega

theorem acknowledge (h : Stocked depth s) {sent : Sent} {unacked : List Sent}
    (hunacked : s.unacked = sent :: unacked) :
    Stocked depth { s with unacked, cq := s.cq ++ [sent.completion] } := by
  obtain ⟨free, hpooled⟩ := h.pooled
  have hlen := h.receives
  refine ⟨⟨free, hpooled.acknowledge hunacked⟩, ?_, h.middle, h.truncated⟩
  cases sent <;>
    simp only [Sent.completion, List.filterMap_append, List.filterMap_cons, List.filterMap_nil,
      Completion.fcs?, Completion.message?, List.append_nil] <;>
    omega

end Stocked

/-- The credits of an end that is connected to a peer. -/
structure Safe (depth : ℕ) (s peer : Side) : Prop where
  wcredits : 0 ≤ s.wcredits ∧ s.wcredits ≤ depth
  fcredits : 0 ≤ s.fcredits ∧ s.fcredits ≤ depth
  /-- The counts in the immediate data are what they should be. -/
  truncated : s.truncated = false
  /-- There is a receive for every send. -/
  receives : s.posted.length ≤ peer.receives.length ∧ s.posted.length ≤ depth
  /-- No buffer was handed out that was in use. -/
  reused : s.reused = false
  /-- There is a credit for the report of a reader. -/
  reader : s.needFC = true → s.fcredits ≠ 0

namespace World

/-- The verbs tell an end of the completion of its messages no later than the writes arrive that
acknowledge them. -/
def Prompt (w : World) : Event → Prop
  | .deliver e => ((w e.peer).unacked.filterMap Sent.buffer?).length ≤
      unanswered (w e) + ((w e).posted.tail.filterMap Send.fcs?).sum + 1
  | _ => True

/-- A write finds a count of messages that survives the cast. -/
def Exact (w : World) : Event → Prop
  | .write e _ => (w e).Countable
  | _ => True

instance decidablePrompt (w : World) : (event : Event) → Decidable (Prompt w event)
  | .write _ _ => isTrue trivial
  | .readSync _ _ => isTrue trivial
  | .checkCQ _ _ => isTrue trivial
  | .deliver e =>
      inferInstanceAs (Decidable (((w e.peer).unacked.filterMap Sent.buffer?).length ≤
        unanswered (w e) + ((w e).posted.tail.filterMap Send.fcs?).sum + 1))
  | .acknowledge _ => isTrue trivial

instance decidableExact (w : World) : (event : Event) → Decidable (Exact w event)
  | .write e _ => inferInstanceAs (Decidable (w e).Countable)
  | .readSync _ _ => isTrue trivial
  | .checkCQ _ _ => isTrue trivial
  | .deliver _ => isTrue trivial
  | .acknowledge _ => isTrue trivial

structure Sound (depth : ℕ) (w : World) : Prop where
  direction : ∀ e, Direction (depth / 2 - 2) (w e) (w e.peer)
  stocked : ∀ e, Stocked depth (w e)
  numRecvs : ∀ e, (w e).numRecvs = 0

variable {depth : ℕ} {size : U32} {w w' : World}

theorem sound_established (hdepth : 6 ≤ depth) (h : ∀ e, (w e).Established depth size) :
    Sound depth w := by
  refine ⟨?_, ?_, fun e => (h e).numRecvs⟩
  · intro e
    have ha := h e
    have hb := h e.peer
    obtain ⟨free, setup, hunacked, -⟩ := hb.buffers
    refine ⟨⟨0, ?_⟩, ?_⟩
    · have hcredits : credits (w e) (w e.peer) =
          ⟨depth / 2 - 2, 0, [], depth / 2 + 2 - 1, 0, [], False⟩ := by
        simp [credits, Side.received, Side.sending, ha.wcredits, ha.fcs, hb.cq, ha.posted,
          hb.fcredits, hb.writes, ha.cq, hb.posted, hb.availBytes]
      rw [hcredits]
      refine ⟨?_, ?_, ?_, ?_, List.isChain_singleton _, fun hready => absurd hready id⟩
      · simp only
        omega
      · simp only [List.length_nil, List.sum_nil]
        omega
      · simp only [List.length_nil, List.sum_nil]
        omega
      · intro l hl
        rw [List.suffix_nil.1 hl]
        simp only [List.sum_nil, List.length_nil]
        omega
    · intro l hl
      rw [hb.cq] at hl
      rw [List.suffix_nil.1 hl, hunacked]
      simp [Sent.buffer?]
  · intro e
    have hs := h e
    refine ⟨stored_established h e, ?_, ?_, hs.truncated⟩
    · simp [hs.receives, hs.cq, hs.numRecvs]
    · rw [hs.source]
      rfl

namespace Sound

theorem direction_reader (h : Sound depth w) (e : End) :
    Direction (depth / 2 - 2) (w e.peer) (w e) := by
  have hdir := h.direction e.peer
  rwa [End.peer_peer] at hdir

theorem update (h : Sound depth w) (e : End) {s : Side}
    (hwriter : Direction (depth / 2 - 2) s (w e.peer))
    (hreader : Direction (depth / 2 - 2) (w e.peer) s) (hstocked : Stocked depth s)
    (hnumRecvs : s.numRecvs = 0) : Sound depth (Function.update w e s) := by
  refine ⟨?_, ?_, ?_⟩
  · intro x
    cases e <;> cases x
    · exact hwriter
    · exact hreader
    · exact hreader
    · exact hwriter
  · intro x
    rcases eq_or_ne x e with rfl | hne
    · rw [Function.update_self]
      exact hstocked
    · rw [Function.update_of_ne hne]
      exact h.stocked x
  · intro x
    rcases eq_or_ne x e with rfl | hne
    · rw [Function.update_self]
      exact hnumRecvs
    · rw [Function.update_of_ne hne]
      exact h.numRecvs x

theorem messages_lt (h : Sound depth w) (hdepth : 6 ≤ depth) (e : End) :
    ((w e).posted.filterMap Send.buffer?).length + ((w e).unacked.filterMap Sent.buffer?).length +
      ((w e).cq.filterMap Completion.send?).length < depth := by
  have hle := (h.direction_reader e).messages_le
  omega

theorem spare (h : Sound depth w) (hdepth : 6 ≤ depth) (hlarge : depth < 2 ^ 31) (event : Event) :
    Spare w event := by
  cases event with
  | readSync e bytes =>
      exact fun _ => (h.stocked e).isEmpty_eq_false hlarge (h.messages_lt hdepth e)
  | write e bytes => trivial
  | checkCQ e count => trivial
  | deliver e => trivial
  | acknowledge e => trivial

theorem checkCQ (h : Sound depth w) (hdepth : 6 ≤ depth) (hlarge : depth < 2 ^ 31) (e : End)
    (count : ℕ) : Sound depth (Function.update w e ((w e).checkCQ count)) := by
  obtain ⟨hwriter, hreader, hstocked⟩ := Side.completions_invariant
    (fun s => Direction (depth / 2 - 2) s (w e.peer) ∧ Direction (depth / 2 - 2) (w e.peer) s ∧
      Stocked depth s)
    (by
      rintro s completion cq ⟨hwriter, hreader, hstocked⟩ hcq
      obtain ⟨free, hpooled⟩ := hstocked.pooled
      exact ⟨hwriter.complete_writer hpooled hcq, hreader.complete_reader hpooled hcq,
        hstocked.complete hlarge hcq⟩)
    (min count (w e).depth) (s := { w e with numRecvs := 0 })
    ⟨(h.direction e).of_writer rfl rfl rfl rfl,
      (h.direction_reader e).of_reader rfl rfl rfl rfl rfl List.suffix_rfl rfl, by
        rw [← h.numRecvs e]
        exact h.stocked e⟩
  have hmessages := hreader.messages_le
  have hposted := hstocked.postReceives hlarge (by omega)
  obtain ⟨msgbuf, receives, reused, heq⟩ := Side.postReceives_eq
    (Side.completions (min count (w e).depth) { w e with numRecvs := 0 }).numRecvs
    (Side.completions (min count (w e).depth) { w e with numRecvs := 0 })
  refine h.update e ?_ ?_ hposted rfl
  · rw [Side.checkCQ]
    simp only [heq]
    exact hwriter.of_writer rfl rfl rfl rfl
  · rw [Side.checkCQ]
    simp only [heq]
    exact hreader.of_reader rfl rfl rfl rfl rfl List.suffix_rfl rfl

theorem step (hdepth : 6 ≤ depth) (hlarge : depth < 2 ^ 31) {event : Event}
    (h : Sound depth w) (hprompt : Prompt w event) (hexact : Exact w event)
    (hstep : w.step event = some w') : Sound depth w' := by
  cases event with
  | write e bytes =>
      cases hstep
      have hstocked := h.stocked e
      refine h.update e ((h.direction e).write hexact hstocked.middle bytes)
        ((h.direction_reader e).write_reader bytes) (hstocked.write hexact bytes) ?_
      rw [Side.write_numRecvs, h.numRecvs]
  | readSync e bytes =>
      cases hstep
      have hspare : Spare w (.readSync e bytes) := h.spare hdepth hlarge _
      have hnum : 2 * (2 * depth) < 2 ^ 64 := by omega
      obtain ⟨free, hpooled⟩ := (h.stocked e).pooled
      refine h.update e ((h.direction e).readSync_writer hnum hpooled hspare)
        ((h.direction_reader e).readSync hnum (by omega) hpooled hspare)
        ((h.stocked e).readSync hlarge hspare) ?_
      rw [Side.readSync_numRecvs, h.numRecvs]
  | checkCQ e count =>
      cases hstep
      exact h.checkCQ hdepth hlarge e count
  | deliver e =>
      obtain ⟨send, posted, buffer, receives, hposted, hreceives, hsender, hreceiver⟩ :=
        deliver_cases hstep
      rw [Prompt, hposted, List.tail_cons] at hprompt
      obtain ⟨free, hpooled⟩ := (h.stocked e).pooled
      obtain ⟨free', hpooled'⟩ := (h.stocked e.peer).pooled
      have hwriter : Direction (depth / 2 - 2) (w' e) (w' e.peer) := by
        rw [hsender, hreceiver]
        exact (h.direction e).deliver_writer hposted hpooled' hreceives hprompt
      have hreader : Direction (depth / 2 - 2) (w' e.peer) (w' e) := by
        rw [hsender, hreceiver]
        exact (h.direction_reader e).deliver_reader hposted hpooled' hreceives
      have hstocked : Stocked depth (w' e) := by
        rw [hsender]
        exact (h.stocked e).deliver_sender hposted
      have hstocked' : Stocked depth (w' e.peer) := by
        rw [hreceiver]
        exact (h.stocked e.peer).deliver_receiver hreceives (hpooled.isReport_of_posted hposted)
      have hnumRecvs : (w' e).numRecvs = 0 := by
        rw [hsender]
        exact h.numRecvs e
      have hnumRecvs' : (w' e.peer).numRecvs = 0 := by
        rw [hreceiver]
        exact h.numRecvs e.peer
      refine ⟨?_, ?_, ?_⟩ <;> intro x <;> cases e <;> cases x <;> assumption
  | acknowledge e =>
      obtain ⟨sent, unacked, hunacked, rfl⟩ := acknowledge_cases hstep
      exact h.update e (h.direction e).acknowledge_writer
        ((h.direction_reader e).acknowledge_reader hunacked) ((h.stocked e).acknowledge hunacked)
        (h.numRecvs e)

theorem safe (h : Sound depth w) (hdepth : 6 ≤ depth) (e : End) :
    Safe depth (w e) (w e.peer) := by
  obtain ⟨last, hb⟩ := (h.direction e).balanced
  obtain ⟨last', hb'⟩ := (h.direction_reader e).balanced
  obtain ⟨free, hpooled⟩ := (h.stocked e).pooled
  have hwrites := hb.writes_eq
  have hnonneg := hb.nonneg
  have hfcs := hb'.fcs_eq
  have hcredits := hb'.fcredits_ge (by decide)
  have hreceives := (h.stocked e.peer).receives
  have hnumRecvs := h.numRecvs e.peer
  simp only [credits, List.length_append, List.length_map, List.sum_append, Side.length_received,
    Side.length_sending] at hwrites hnonneg hfcs hcredits
  refine ⟨⟨hnonneg, by omega⟩, ⟨by omega, by omega⟩, (h.stocked e).truncated, ⟨?_, ?_⟩,
    hpooled.reused, fun _ => by omega⟩
  · rw [length_posted]
    omega
  · rw [length_posted]
    omega

end Sound

/-- In every run in which the writes find counts of messages that survive the cast, the credits
are safe. -/
theorem credits_safe (hdepth : 6 ≤ depth) (hlarge : depth < 2 ^ 31)
    (hstart : ∀ e, (w e).Established depth size) {events : List Event}
    (hok : Machine.Steps World.step (fun w event => Prompt w event ∧ Exact w event) w events)
    (hrun : Machine.run World.step w events = some w') (e : End) :
    Safe depth (w' e) (w' e.peer) := by
  have hsound : Sound depth w' := by
    refine Machine.run_invariant (Sound depth) ?_ (sound_established hdepth hstart) hok hrun
    intro w event w' hinv hok hstep
    exact hinv.step hdepth hlarge hok.1 hok.2 hstep
  exact hsound.safe hdepth e

/-- Two bytes are written, read one by one and reported. -/
theorem credits_safe_reported :
    ∃ w', Machine.run World.step (fun _ => Side.connect 6 8)
      [.write .initiator [1, 2], .deliver .initiator, .checkCQ .target 2, .readSync .target 1,
        .readSync .target 9, .acknowledge .initiator, .deliver .target, .checkCQ .initiator 5,
        .write .initiator [3]] = some w' ∧
      (w' .target).obtained = [1, 2] ∧ Safe 6 (w' .initiator) (w' .target) := by
  have hrun : (Machine.run World.step (fun _ => Side.connect 6 8)
      [.write .initiator [1, 2], .deliver .initiator, .checkCQ .target 2, .readSync .target 1,
        .readSync .target 9, .acknowledge .initiator, .deliver .target, .checkCQ .initiator 5,
        .write .initiator [3]]).map (fun w => (w .target).obtained) = some [1, 2] := by
    decide +kernel
  obtain ⟨w', hrun, hobtained⟩ := Option.map_eq_some_iff.1 hrun
  refine ⟨w', hrun, hobtained, ?_⟩
  exact credits_safe (by decide) (by decide)
    (fun _ => Side.established_connect (by decide) (by decide) 8) (by decide +kernel) hrun .initiator

/-- A queue that is not too deep never has more messages to acknowledge than survive the cast. -/
theorem Sound.exact (h : Sound depth w) (hsmall : depth < 2 ^ 17 + 2) (event : Event) :
    Exact w event := by
  cases event with
  | write e bytes =>
      obtain ⟨last, hb⟩ := (h.direction e).balanced
      have hfcs := hb.fcs_le (by decide)
      left
      simp only [credits] at hfcs
      omega
  | readSync e bytes => trivial
  | checkCQ e count => trivial
  | deliver e => trivial
  | acknowledge e => trivial

theorem credits_safe_of_depth_lt (hdepth : 6 ≤ depth) (hsmall : depth < 2 ^ 17 + 2)
    (hstart : ∀ e, (w e).Established depth size) {events : List Event}
    (hprompt : Machine.Steps World.step Prompt w events)
    (hrun : Machine.run World.step w events = some w') (e : End) :
    Safe depth (w' e) (w' e.peer) := by
  have hsound : Sound depth w' := by
    refine Machine.run_invariant (Sound depth) ?_ (sound_established hdepth hstart) hprompt hrun
    intro w event w' hinv hok hstep
    exact hinv.step hdepth (by omega) hok (hinv.exact hsmall event) hstep
  exact hsound.safe hdepth e

theorem steps_spare (hdepth : 6 ≤ depth) (hlarge : depth < 2 ^ 31)
    (hstart : ∀ e, (w e).Established depth size) {events : List Event}
    (hok : Machine.Steps World.step (fun w event => Prompt w event ∧ Exact w event) w events) :
    Machine.Steps World.step Spare w events := by
  refine Machine.Steps.of_invariant ?_ ?_ (sound_established hdepth hstart) hok
  · intro w event w' hinv hok hstep
    exact hinv.step hdepth hlarge hok.1 hok.2 hstep
  · intro w event hinv _
    exact hinv.spare hdepth hlarge event

end World

end Collage.Rdma
