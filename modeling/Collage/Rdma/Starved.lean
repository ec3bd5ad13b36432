import Collage.Rdma.Safe
import Collage.Rdma.Stream

/-!
# A reader without a credit

The cast of `makeImm` loses a count of `2 ^ 16` messages. A writer that has so many to acknowledge
acknowledges none of them, and its reader runs out of credits for its reports.
-/

namespace Collage.Rdma

namespace Side

variable {s : Side}

theorem length_postReceives (count : ℕ) (s : Side) :
    (postReceives count s).receives.length = s.receives.length + count := by
  induction count generalizing s with
  | zero => rfl
  | succ count ih =>
      rw [postReceives, ih, List.length_append]
      simp only [getBuffer, List.length_singleton]
      omega

/-- A pass over the only completion there is. -/
theorem checkCQ_one {completion : Completion} (hcq : s.cq = [completion]) (hdepth : 0 < s.depth) :
    ∃ msgbuf receives reused,
      s.checkCQ 1 =
        { complete { s with cq := [], numRecvs := 0 } completion with
          msgbuf, receives, reused, numRecvs := 0 } ∧
      receives.length = (complete { s with cq := [], numRecvs := 0 } completion).receives.length +
        (complete { s with cq := [], numRecvs := 0 } completion).numRecvs := by
  have hcompletions : completions (min 1 s.depth) { s with numRecvs := 0 } =
      complete { s with cq := [], numRecvs := 0 } completion := by
    rw [Nat.min_eq_left hdepth, completions]
    simp only [hcq, completions]
  obtain ⟨msgbuf, receives, reused, heq⟩ := postReceives_eq
    (complete { s with cq := [], numRecvs := 0 } completion).numRecvs
    (complete { s with cq := [], numRecvs := 0 } completion)
  have hlen := length_postReceives
    (complete { s with cq := [], numRecvs := 0 } completion).numRecvs
    (complete { s with cq := [], numRecvs := 0 } completion)
  rw [heq] at hlen
  refine ⟨msgbuf, receives, reused, ?_, hlen⟩
  rw [checkCQ]
  simp only [hcompletions, heq]

theorem put_posted (bytes : List UInt8) :
    ∃ start length target imm, (s.put bytes).posted = s.posted ++ [.write start length target imm] ∧
      (s.put bytes).fcs = s.fcs - imm.fcsReceived.toNat ∧
      imm.fcsReceived.toNat = min maxFC (s.fcs % 2 ^ 16) := by
  refine ⟨_, _, _, _, rfl, rfl, ?_⟩
  simp only [fill, BitVec.toNat_ofNat]
  apply Nat.mod_eq_of_lt
  rw [maxFC]
  omega

/-- The only byte there is is read and reported. -/
theorem readSync_one (havail : s.availBytes = 1) (hwrites : s.writes = 1)
    (hsink : s.sink.available.toNat = 1) : s.readSync 1 = (s.take 1).postFC := by
  have hneed : ¬ s.needFC = true := by
    rw [needFC_iff, havail, hwrites]
    decide
  have hneed' : (s.take 1).needFC = true := by
    rw [needFC_iff]
    left
    simp only [take, drain, havail]
  have hdrain : s.drainSize 1 = 1 := by
    rw [drainSize, hsink]
    rfl
  rw [readSync, if_neg (fun hn => hneed hn.1), if_neg (by omega), hdrain, if_neg (by decide),
    if_pos hneed']

end Side

namespace World

theorem deliver_eq {w : World} {e : End} {send : Send} {posted : List Send} {buffer : ℕ}
    {receives : List ℕ} (hposted : (w e).posted = send :: posted)
    (hreceives : (w e.peer).receives = buffer :: receives) :
    ∃ w', w.step (.deliver e) = some w' ∧
      w' e = { w e with posted, unacked := (w e).unacked ++ [send.sent] } ∧
      w' e.peer =
        { w e.peer with
          receives
          sinkbuf := send.transfer (w e) (w e.peer)
          msgs := send.copy (w e) (w e.peer) buffer
          cq := (w e.peer).cq ++ [send.arrival buffer] } := by
  refine ⟨_, by simp only [step, deliver, hposted, hreceives]; rfl, if_pos rfl, if_neg ?_⟩
  cases e <;> decide

end World

/-- The end `A` has written bytes one by one, of which its peer `B` has read `bytes` and noticed
`unread` more. Of the reports `waiting` are under way, and `fcs` have been handled and not
acknowledged. -/
structure Lagging (depth bytes waiting fcs unread : ℕ) (A B : Side) : Prop where
  depth_pos : 0 < A.depth ∧ 0 < B.depth
  receives : A.receives.length = depth ∧ B.receives.length = depth
  cq : A.cq = [] ∧ B.cq = []
  wcredits : A.wcredits + waiting + unread = (depth / 2 - 2 : ℕ)
  fcs_eq : A.fcs = fcs
  posted : A.posted = []
  accepted : A.accepted.length = bytes + unread
  setup : (A.unacked.filterMap Sent.buffer?).length = 1
  fcredits : B.fcredits + waiting + fcs = (depth / 2 - 2 : ℕ) + 3
  availBytes : B.availBytes = unread
  writes : B.writes = unread
  obtained : B.obtained.length = bytes
  reports : B.posted.length = waiting ∧ ∀ send ∈ B.posted, ∃ buffer, send = .message buffer
  sending : ∀ message ∈ B.sending, ∃ payload, message = .fc payload ∧
    payload.writesReceived.toNat = 1
  unacked : (B.unacked.filterMap Sent.buffer?).length = fcs + 1

namespace Lagging

variable {depth bytes waiting fcs : ℕ} {size : U32} {A B : Side} {p : Progress}

/-- The next byte is written; the write acknowledges nothing if the count of messages is lost in
the cast. -/
theorem write (h : Lagging depth bytes waiting fcs 0 A B) (hpos : 0 < size.toNat)
    (hsize : size.toNat < 2 ^ 31) (hf : Flow size A B p) (hfcs : fcs % 2 ^ 16 = 0)
    (hbytes : bytes < size.toNat) (hwaiting : waiting < depth / 2 - 2) :
    ∃ start length target imm, A.write [0] = A.put [0] ∧
      (A.put [0]).posted = [.write start length target imm] ∧ (A.put [0]).fcs = fcs ∧
      imm.fcsReceived.toNat = 0 ∧ imm.bytesSent.toNat = 1 := by
  have hwcredits := h.wcredits
  have hfill : A.fillSize 1 = 1 := by
    have hmod : bytes % size.toNat < size.toNat := Nat.mod_lt _ hpos
    rw [hf.fillSize_eq hpos hsize, h.accepted, Nat.add_zero, maxBS]
    omega
  have hwrite : A.write [0] = A.put [0] := by
    rw [Side.write, if_neg (by omega), List.length_singleton, hfill, if_neg (by decide)]
    rfl
  have hlen : [(0 : UInt8)].length ≤ A.fillSize 1 := by rw [hfill]; rfl
  have hput := hf.put_writer hpos hsize hlen
  obtain ⟨start, length, target, imm, hposted, hfcsPut, himm⟩ := A.put_posted [0]
  rw [h.posted, List.nil_append] at hposted
  rw [h.fcs_eq, hfcs, Nat.min_zero] at himm
  rw [himm, h.fcs_eq, Nat.sub_zero] at hfcsPut
  refine ⟨start, length, target, imm, hwrite, hposted, hfcsPut, himm, ?_⟩
  have hlaid := hput.laid
  have hsum := hput.posted
  have hold := hf.posted
  have haccepted : (A.put [0]).accepted.length = A.accepted.length + 1 := List.length_append
  rw [h.posted] at hold
  rw [hposted] at hlaid hsum
  obtain ⟨-, -, -, hlength, -⟩ := hlaid
  simp only [List.map_cons, List.map_nil, List.sum_cons, List.sum_nil, Send.bytes] at hsum hold
  omega

/-- The only byte in the sink is the one that has been noticed. -/
theorem sink_available (h : Lagging depth bytes waiting fcs 1 A B) (hf : Flow size A B p) :
    B.sink.available.toNat = 1 := by
  have hposted := hf.posted
  have harrived := hf.arrived
  rw [h.posted, h.accepted] at hposted
  rw [h.cq.2] at harrived
  rw [hf.sink_available, h.obtained]
  simp only [List.map_nil, List.sum_nil] at hposted harrived
  omega

theorem exists_free {unread : ℕ} {free : List ℕ} (h : Lagging depth bytes waiting fcs unread A B)
    (hpooled : B.Pooled (2 * depth) free) (hroom : waiting + fcs + 1 < depth) :
    ∃ buffer free', free = buffer :: free' := by
  apply List.exists_cons_of_length_pos
  have hlen := hpooled.length_eq
  have hposted := List.length_filterMap_le Send.buffer? B.posted
  simp only [Side.inUse, List.length_append, h.receives.2, h.unacked, h.cq.2, List.filterMap_nil,
    List.length_nil] at hlen
  rw [h.reports.1] at hposted
  omega

end Lagging

namespace World

/-- A run in which the ends are told of completions in time and in which no report lacks a
buffer. -/
abbrev Reached (w w' : World) : Prop :=
  Machine.Reaches World.step (fun w event => Prompt w event ∧ Spare w event) w w'

variable {depth bytes waiting fcs : ℕ} {size : U32} {w w' : World}

theorem lagging_handle (hdepth : 0 < depth)
    (h : Lagging depth bytes (waiting + 1) fcs 0 (w .initiator) (w .target)) :
    ∃ w', Reached w w' ∧ Lagging depth bytes waiting (fcs + 1) 0 (w' .initiator) (w' .target) := by
  obtain ⟨hlen, hmessages⟩ := h.reports
  obtain ⟨send, posted, hposted⟩ := List.exists_cons_of_length_eq_add_one hlen
  obtain ⟨source, rfl⟩ := hmessages send (hposted ▸ List.mem_cons_self)
  have hsending := Side.Pooled.sending_of_posted hposted
    ((w .target).unacked ++ [.message source])
  obtain ⟨payload, hpayload, hone⟩ := h.sending ((w .target).msgs source)
    (hsending ▸ List.mem_cons_self)
  obtain ⟨buffer, receives, hbuffer⟩ := List.exists_cons_of_length_pos
    (h.receives.1 ▸ hdepth : 0 < (w .initiator).receives.length)
  obtain ⟨w₁, hstep₁, htarget, hinitiator⟩ := deliver_eq (e := .target) hposted hbuffer
  simp only [End.peer, Send.sent, Send.arrival, Send.copy, h.cq.1, hpayload, List.nil_append]
    at htarget hinitiator
  have hcq : (w₁ .initiator).cq = [.recv buffer] := by rw [hinitiator]
  have hdepth₁ : 0 < (w₁ .initiator).depth := by
    rw [hinitiator]
    exact h.depth_pos.1
  obtain ⟨msgbuf, receives', reused, hcheck, hlen'⟩ := Side.checkCQ_one hcq hdepth₁
  have hprompt : Prompt w (.deliver .target) := by
    simp only [Prompt, End.peer, h.setup]
    omega
  refine ⟨_, Machine.Reaches.head ⟨hprompt, trivial⟩ hstep₁
    (Machine.Reaches.head (e := .checkCQ .initiator 1) ⟨trivial, trivial⟩ rfl
      (Machine.Reaches.refl _)), ?_⟩
  have hreceives := h.receives.1
  rw [hbuffer, List.length_cons] at hreceives
  simp only [Function.update_self, Function.update_of_ne (show End.target ≠ .initiator by decide)]
  rw [hcheck, htarget]
  simp only [hinitiator, Side.complete, Function.update_self, Side.recvMessage, Side.freeBuffer,
    Side.recvFC] at hlen' ⊢
  have hsame : receives'.length = depth := by omega
  constructor
  case depth_pos => exact h.depth_pos
  case receives => exact ⟨hsame, h.receives.2⟩
  case cq => exact ⟨rfl, h.cq.2⟩
  case wcredits =>
    have hwcredits := h.wcredits
    simp only
    omega
  case fcs_eq => exact congrArg (· + 1) h.fcs_eq
  case posted => exact h.posted
  case accepted => exact h.accepted
  case setup => exact h.setup
  case fcredits =>
    have hfcredits := h.fcredits
    simp only
    omega
  case availBytes => exact h.availBytes
  case writes => exact h.writes
  case obtained => exact h.obtained
  case reports =>
    rw [hposted, List.length_cons] at hlen
    refine ⟨Nat.succ.inj hlen, ?_⟩
    intro send hsend
    exact hmessages send (hposted ▸ List.mem_cons_of_mem _ hsend)
  case sending =>
    intro message hmessage
    exact h.sending message (hsending ▸ List.mem_append_right _ hmessage)
  case unacked =>
    have hunacked := h.unacked
    simp only [List.filterMap_append, List.filterMap_cons, List.filterMap_nil, Sent.buffer?,
      List.length_append, List.length_singleton]
    omega

theorem lagging_write (hdepth : 0 < depth) (hpos : 0 < size.toNat) (hsize : size.toNat < 2 ^ 31)
    (hlarge : depth < 2 ^ 31) (hstored : Stored depth w) (hlinked : Linked size w)
    (hfcs : fcs % 2 ^ 16 = 0) (hbytes : bytes < size.toNat) (hwaiting : waiting < depth / 2 - 2)
    (h : Lagging depth bytes waiting fcs 0 (w .initiator) (w .target)) :
    ∃ w', Reached w w' ∧ Lagging depth bytes waiting fcs 1 (w' .initiator) (w' .target) := by
  obtain ⟨p, hf⟩ := hlinked .initiator
  obtain ⟨start, length, target, imm, hwrite, hposted, hfcsPut, himm, hone⟩ :=
    h.write hpos hsize hf hfcs hbytes hwaiting
  obtain ⟨buffer, receives, hbuffer⟩ := List.exists_cons_of_length_pos
    (h.receives.2 ▸ hdepth : 0 < (w .target).receives.length)
  obtain ⟨w₁, hw₁⟩ : ∃ w₁, w₁ = Function.update w .initiator ((w .initiator).write [0]) := ⟨_, rfl⟩
  have hstep₁ : w.step (.write .initiator [0]) = some w₁ := by rw [hw₁]; rfl
  have hinitiator₁ : w₁ .initiator = (w .initiator).put [0] := by
    rw [hw₁, Function.update_self, hwrite]
  have htarget₁ : w₁ .target = w .target := by
    rw [hw₁, Function.update_of_ne (by decide)]
  obtain ⟨w₂, hstep₂, hinitiator₂, htarget₂⟩ := @deliver_eq w₁ .initiator
    (.write start length target imm) [] buffer receives (by rw [hinitiator₁, hposted])
    (by rw [End.peer, htarget₁, hbuffer])
  simp only [End.peer, htarget₁, hinitiator₁, Send.arrival, Send.sent, Send.copy, h.cq.2,
    List.nil_append] at hinitiator₂ htarget₂
  have hcq₂ : (w₂ .target).cq = [.recvRDMAWithImm imm buffer] := by rw [htarget₂]
  have hsending : (Side.complete { w₂ .target with cq := [] }
      (.recvRDMAWithImm imm buffer)).sending = (w .target).sending := by
    have hstored₁ := stored_step hlarge hstored
      (show Spare w (.write .initiator [0]) from trivial) hstep₁
    obtain ⟨free, hpooled⟩ := stored_step hlarge hstored₁
      (show Spare w₁ (.deliver .initiator) from trivial) hstep₂ .target
    rw [(hpooled.complete_messages hcq₂).1, htarget₂]
    rfl
  rw [htarget₂] at hsending
  have hdepth₂ : 0 < (w₂ .target).depth := by
    rw [htarget₂]
    exact h.depth_pos.2
  obtain ⟨msgbuf, receives', reused, hcheck, hlen⟩ := Side.checkCQ_one hcq₂ hdepth₂
  have hprompt : Prompt w₁ (.deliver .initiator) := by
    have hcqPut : ((w .initiator).put [0]).cq = [] := h.cq.1
    simp only [Prompt, End.peer, hinitiator₁, htarget₁, hposted, unanswered, hfcsPut, hcqPut,
      h.unacked, List.tail_cons, List.filterMap_nil, List.length_nil, List.sum_nil]
    omega
  refine ⟨_, Machine.Reaches.head (e := .write .initiator [0]) ⟨trivial, trivial⟩ hstep₁
    (Machine.Reaches.head ⟨hprompt, trivial⟩ hstep₂
      (Machine.Reaches.head (e := .checkCQ .target 1) ⟨trivial, trivial⟩ rfl
        (Machine.Reaches.refl _))), ?_⟩
  have hreceives := h.receives.2
  rw [hbuffer, List.length_cons] at hreceives
  simp only [Function.update_self, Function.update_of_ne (show End.initiator ≠ .target by decide)]
  rw [hcheck, hinitiator₂]
  simp only [htarget₂, Side.complete, Side.freeBuffer, Side.recvRDMAWrite, himm, hone] at hlen ⊢
  have hsame : receives'.length = depth := by omega
  constructor
  case depth_pos => exact h.depth_pos
  case receives => exact ⟨h.receives.1, hsame⟩
  case cq => exact ⟨h.cq.1, rfl⟩
  case posted => rfl
  case wcredits =>
    have hwcredits := h.wcredits
    have hspent : ((w .initiator).put [0]).wcredits = (w .initiator).wcredits - 1 := rfl
    simp only
    omega
  case fcs_eq => exact hfcsPut
  case accepted => exact List.length_append.trans (congrArg (· + 1) h.accepted)
  case setup =>
    have hsame : ((w .initiator).put [0]).unacked = (w .initiator).unacked := rfl
    have hsetup := h.setup
    simp only [hsame, List.filterMap_append, List.filterMap_cons, List.filterMap_nil, Sent.buffer?,
      List.append_nil]
    exact hsetup
  case fcredits =>
    have hfcredits := h.fcredits
    simp only
    omega
  case availBytes => exact congrArg (· + 1) h.availBytes
  case writes => exact congrArg (· + 1) h.writes
  case obtained => exact h.obtained
  case reports => exact h.reports
  case sending =>
    intro message hmessage
    refine h.sending message ?_
    rw [← hsending]
    exact hmessage
  case unacked => exact h.unacked

theorem lagging_read (hlarge : depth < 2 ^ 31) (hlinked : Linked size w) (hstored : Stored depth w)
    (hroom : waiting + fcs + 1 < depth)
    (h : Lagging depth bytes waiting fcs 1 (w .initiator) (w .target)) :
    ∃ w', Reached w w' ∧
      Lagging depth (bytes + 1) (waiting + 1) fcs 0 (w' .initiator) (w' .target) := by
  have hnum : 2 * (2 * depth) < 2 ^ 64 := by omega
  obtain ⟨p, hf⟩ := hlinked .initiator
  obtain ⟨free, hpooled⟩ := hstored .target
  obtain ⟨buffer, free', rfl⟩ := h.exists_free hpooled hroom
  have hread : (w .target).readSync 1 = ((w .target).take 1).postFC :=
    Side.readSync_one h.availBytes h.writes (h.sink_available hf)
  have hspare : Spare w (.readSync .target 1) := by
    intro _
    apply eq_false_of_ne_true
    rw [hpooled.holds.isEmpty_iff hnum]
    exact List.cons_ne_nil _ _
  have htaken : ((w .target).take 1).Pooled (2 * depth) (buffer :: free') := { hpooled with }
  have hsending := (htaken.postFC_messages hnum).1
  refine ⟨_, Machine.Reaches.head (e := .readSync .target 1) ⟨trivial, hspare⟩ rfl
    (Machine.Reaches.refl _), ?_⟩
  simp only [Function.update_self, Function.update_of_ne (show End.initiator ≠ .target by decide)]
  rw [hread]
  constructor
  case sending =>
    rw [hsending]
    intro message hmessage
    rcases List.mem_append.1 hmessage with hold | hnew
    · exact h.sending message hold
    · refine ⟨_, List.mem_singleton.1 hnew, ?_⟩
      have hwrites : ((w .target).take 1).report.writesReceived =
          BitVec.ofNat 32 (w .target).writes := rfl
      rw [hwrites, h.writes]
      rfl
  case depth_pos => exact h.depth_pos
  case receives => exact h.receives
  case cq => exact h.cq
  case wcredits =>
    have hwcredits := h.wcredits
    omega
  case fcs_eq => exact h.fcs_eq
  case posted => exact h.posted
  case accepted => exact h.accepted
  case setup => exact h.setup
  case fcredits =>
    have hspent : ((w .target).take 1).postFC.fcredits = (w .target).fcredits - 1 := rfl
    have hfcredits := h.fcredits
    omega
  case availBytes => exact congrArg (· - 1) h.availBytes
  case writes =>
    simp only [Side.postFC, Side.postMessage, Side.getBuffer, Side.report, Side.take, Side.drain,
      h.writes]
    rfl
  case obtained =>
    simp only [Side.postFC, Side.postMessage, Side.getBuffer, Side.take, Side.drain,
      List.length_append, Memory.length_load, h.obtained]
  case reports =>
    obtain ⟨hreports, hmessages⟩ := h.reports
    refine ⟨List.length_append.trans (congrArg (· + 1) hreports), ?_⟩
    intro send hsend
    rcases List.mem_append.1 hsend with hsend | hsend
    · exact hmessages send hsend
    · exact ⟨_, List.mem_singleton.1 hsend⟩
  case unacked => exact h.unacked

theorem linked_reached (hpos : 0 < size.toNat) (hsize : size.toNat < 2 ^ 31)
    (hlarge : depth < 2 ^ 31) (h : Stored depth w ∧ Linked size w) (hreach : Reached w w') :
    Stored depth w' ∧ Linked size w' := by
  obtain ⟨events, hsteps, hrun⟩ := hreach
  exact linked_run hpos hsize hlarge (hsteps.mono fun _ _ hok => hok.2) hrun h.1 h.2

theorem lagging_handles (hdepth : 0 < depth) (count : ℕ)
    (h : Lagging depth bytes (waiting + count) fcs 0 (w .initiator) (w .target)) :
    ∃ w', Reached w w' ∧
      Lagging depth bytes waiting (fcs + count) 0 (w' .initiator) (w' .target) := by
  induction count generalizing fcs w with
  | zero => exact ⟨w, Machine.Reaches.refl w, h⟩
  | succ count ih =>
      obtain ⟨w₁, hreach, hw₁⟩ := lagging_handle hdepth h
      obtain ⟨w', hreach', hw'⟩ := ih hw₁
      refine ⟨w', hreach.trans hreach', ?_⟩
      rw [Nat.add_right_comm] at hw'
      exact hw'

theorem lagging_rounds (hpos : 0 < size.toNat) (hsize : size.toNat < 2 ^ 31)
    (hlarge : depth < 2 ^ 31) (hinv : Stored depth w ∧ Linked size w) (hfcs : fcs % 2 ^ 16 = 0)
    (count : ℕ) (hbytes : bytes + count ≤ size.toNat) (hwaiting : waiting + count ≤ depth / 2 - 2)
    (hroom : waiting + count + fcs + 1 ≤ depth)
    (h : Lagging depth bytes waiting fcs 0 (w .initiator) (w .target)) :
    ∃ w', Reached w w' ∧
      Lagging depth (bytes + count) (waiting + count) fcs 0 (w' .initiator) (w' .target) := by
  induction count generalizing bytes waiting w with
  | zero => exact ⟨w, Machine.Reaches.refl w, h⟩
  | succ count ih =>
      obtain ⟨w₁, hreach₁, hw₁⟩ :=
        lagging_write (by omega) hpos hsize hlarge hinv.1 hinv.2 hfcs (by omega) (by omega) h
      have hinv₁ := linked_reached hpos hsize hlarge hinv hreach₁
      obtain ⟨w₂, hreach₂, hw₂⟩ := lagging_read hlarge hinv₁.2 hinv₁.1 (by omega) hw₁
      have hinv₂ := linked_reached hpos hsize hlarge hinv₁ hreach₂
      obtain ⟨w', hreach, hw'⟩ := ih hinv₂ (by omega) (by omega) (by omega) hw₂
      refine ⟨w', hreach₁.trans (hreach₂.trans hreach), ?_⟩
      rw [Nat.add_right_comm bytes, Nat.add_right_comm waiting] at hw'
      exact hw'

theorem lagging_established (hdepth : 6 ≤ depth) (h : ∀ e, (w e).Established depth size) :
    Lagging depth 0 0 0 0 (w .initiator) (w .target) := by
  have ha := h .initiator
  have hb := h .target
  obtain ⟨-, setup, hunacked, -⟩ := ha.buffers
  obtain ⟨-, setup', hunacked', -⟩ := hb.buffers
  constructor
  case depth_pos => rw [ha.depth_eq, hb.depth_eq]; omega
  case receives => exact ⟨ha.receives, hb.receives⟩
  case cq => exact ⟨ha.cq, hb.cq⟩
  case wcredits => rw [ha.wcredits]; omega
  case fcs_eq => exact ha.fcs
  case posted => exact ha.posted
  case accepted => rw [ha.accepted]; rfl
  case setup => rw [hunacked]; rfl
  case fcredits => rw [hb.fcredits]; omega
  case availBytes => exact hb.availBytes
  case writes => exact hb.writes
  case obtained => rw [hb.obtained]; rfl
  case reports =>
    rw [hb.posted]
    exact ⟨rfl, fun send hsend => absurd hsend List.not_mem_nil⟩
  case sending =>
    rw [Side.sending, hb.posted]
    exact fun message hmessage => absurd hmessage List.not_mem_nil
  case unacked => rw [hunacked']; rfl

/-- With a queue this deep a reader that has to report may find no credit: `2 ^ 16` bytes are
written and their reports are handled all at once, so that the next writes acknowledge none of
them. -/
theorem exists_starved (hdepth : 2 ^ 17 + 4 ≤ depth) (hsize : size.toNat < 2 ^ 31)
    (hlarge : depth < 2 ^ 31) (hbytes : depth / 2 + 1 ≤ size.toNat)
    (h : ∀ e, (w e).Established depth size) :
    ∃ w', Reached w w' ∧ (w' .target).needFC = true ∧ (w' .target).fcredits = 0 := by
  have hpos : 0 < size.toNat := by omega
  have hinv : Stored depth w ∧ Linked size w := ⟨stored_established h, linked_established h⟩
  obtain ⟨w₁, hreach₁, hw₁⟩ := lagging_rounds hpos hsize hlarge hinv (by decide) (2 ^ 16)
    (by omega) (by omega) (by omega) (lagging_established (by omega) h)
  have hinv₁ := linked_reached hpos hsize hlarge hinv hreach₁
  obtain ⟨w₂, hreach₂, hw₂⟩ := lagging_handles (by omega) (2 ^ 16) hw₁
  have hinv₂ := linked_reached hpos hsize hlarge hinv₁ hreach₂
  obtain ⟨w₃, hreach₃, hw₃⟩ := lagging_rounds hpos hsize hlarge hinv₂ (by decide)
    (depth / 2 + 1 - 2 ^ 16) (by omega) (by omega) (by omega) hw₂
  refine ⟨w₃, hreach₁.trans (hreach₂.trans hreach₃), ?_, ?_⟩
  · rw [Side.needFC_iff]
    exact Or.inl hw₃.availBytes
  · have hfcredits := hw₃.fcredits
    omega

/-- The credits are not safe in a queue of this depth with rings of a mebibyte. -/
theorem credits_unsafe :
    ¬ ∀ events w', Machine.Steps World.step Prompt (fun _ => Side.connect 131076 (2 ^ 20)) events →
      Machine.run World.step (fun _ => Side.connect 131076 (2 ^ 20)) events = some w' →
      ∀ e : End, Safe 131076 (w' e) (w' e.peer) := by
  intro hsafe
  obtain ⟨w', ⟨events, hsteps, hrun⟩, hneed, hcredits⟩ := @exists_starved 131076 (2 ^ 20)
    (fun _ => Side.connect 131076 (2 ^ 20)) (by decide) (by decide) (by decide) (by decide)
    (fun _ => Side.established_connect (by decide) (by decide) _)
  have hprompt := hsteps.mono fun _ _ hok => hok.1
  exact (hsafe events w' hprompt hrun .target).reader hneed hcredits

end World

end Collage.Rdma
