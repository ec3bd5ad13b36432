import Collage.Rdma.Connection

/-!
# The message buffers of an RDMA connection

Every buffer of the pool is either free or in use: posted for a receive or a send, or named by a
completion that is yet to be handled. As long as the free ones do not run out, the pool hands out
no buffer that is in use, and a message stays in its buffer until it is sent, or handled.
-/

namespace Collage.Rdma

/-- The only messages after the setup are flow-control messages. -/
def Message.IsReport (message : Message) : Prop := ∃ payload, message = .fc payload

theorem mem_buffers_of_mem_messages {cq : List Completion} {buffer : ℕ}
    (h : buffer ∈ cq.filterMap Completion.message?) :
    buffer ∈ cq.filterMap Completion.buffer? := by
  obtain ⟨completion, hmem, hmessage⟩ := List.mem_filterMap.1 h
  refine List.mem_filterMap.2 ⟨completion, hmem, ?_⟩
  cases completion with
  | recv buffer => exact hmessage
  | recvRDMAWithImm imm buffer => cases hmessage
  | send buffer => cases hmessage
  | rdmaWrite length => cases hmessage

theorem map_update_of_notMem {buffers : List ℕ} {msgs : ℕ → Message} {buffer : ℕ}
    {message : Message} (h : buffer ∉ buffers) :
    buffers.map (Function.update msgs buffer message) = buffers.map msgs := by
  apply List.map_congr_left
  intro other hother
  exact Function.update_of_ne (ne_of_mem_of_not_mem hother h) _ _

namespace Side

variable {s : Side}

theorem recvMessage_eq (message : Message) : ∃ rptr wcredits fcs,
    s.recvMessage message = { s with rptr, wcredits, fcs } := by
  cases message <;> exact ⟨_, _, _, rfl⟩

theorem complete_eq_of_buffer {completion : Completion} {buffer : ℕ}
    (hbuffer : completion.buffer? = some buffer) :
    ∃ sink availBytes fcredits writes rptr wcredits fcs numRecvs,
      s.complete completion =
        { s.freeBuffer buffer with
          sink, availBytes, fcredits, writes, rptr, wcredits, fcs, numRecvs } ∧
      numRecvs ≤ s.numRecvs + 1 := by
  cases completion with
  | recvRDMAWithImm imm other =>
      cases hbuffer
      exact ⟨_, _, _, _, _, _, _, _, rfl, le_rfl⟩
  | recv other =>
      cases hbuffer
      obtain ⟨rptr, wcredits, fcs, heq⟩ := s.recvMessage_eq (s.msgs buffer)
      refine ⟨s.sink, s.availBytes, s.fcredits, s.writes, rptr, wcredits, fcs, s.numRecvs + 1, ?_,
        le_rfl⟩
      rw [complete, heq]
      rfl
  | send other =>
      cases hbuffer
      exact ⟨_, _, _, _, _, _, _, _, rfl, Nat.le_succ _⟩
  | rdmaWrite length => cases hbuffer

/-- The free buffers and the buffers in use are all the buffers of the pool. -/
structure Pooled (num : ℕ) (s : Side) (free : List ℕ) : Prop where
  holds : s.msgbuf.Holds num free
  perm : (free ++ s.inUse).Perm (List.range num)
  reused : s.reused = false
  reports : ∀ message ∈ s.sending ++ s.received, message.IsReport

namespace Pooled

variable {num buffer : ℕ} {s' : Side} {free : List ℕ}

theorem length_eq (h : Pooled num s free) : free.length + s.inUse.length = num := by
  have hlen := h.perm.length_eq
  rwa [List.length_append, List.length_range] at hlen

theorem nodup_inUse (h : Pooled num s free) : s.inUse.Nodup :=
  List.Nodup.of_append_right (h.perm.nodup_iff.2 List.nodup_range)

theorem notMem_inUse (h : Pooled num s (buffer :: free)) : buffer ∉ s.inUse := by
  have hnodup : (buffer :: free ++ s.inUse).Nodup := h.perm.nodup_iff.2 List.nodup_range
  rw [List.cons_append, List.nodup_cons, List.mem_append] at hnodup
  exact fun hmem => hnodup.1 (Or.inr hmem)

theorem of_perm (h : Pooled num s free) (hmsgbuf : s'.msgbuf = s.msgbuf)
    (hreused : s'.reused = s.reused) (hperm : s'.inUse.Perm s.inUse)
    (hreports : ∀ message ∈ s'.sending ++ s'.received, message.IsReport) : Pooled num s' free where
  holds := by rw [hmsgbuf]; exact h.holds
  perm := (hperm.append_left free).trans h.perm
  reused := by rw [hreused]; exact h.reused
  reports := hreports

theorem getBuffer (h : Pooled num s (buffer :: free)) (hnum : 2 * num < 2 ^ 64) :
    s.getBuffer.1 = buffer ∧ s.getBuffer.2 = { s with msgbuf := s.msgbuf.getBuffer.2 } ∧
      s.msgbuf.getBuffer.2.Holds num free := by
  obtain ⟨hfirst, hholds⟩ := h.holds.getBuffer hnum
  refine ⟨hfirst, ?_, hholds⟩
  rw [Side.getBuffer]
  simp only [hfirst, h.notMem_inUse, decide_false, Bool.or_false]

theorem of_getBuffer (h : Pooled num s (buffer :: free)) (hnum : 2 * num < 2 ^ 64)
    (hmsgbuf : s'.msgbuf = s.msgbuf.getBuffer.2) (hreused : s'.reused = s.reused)
    (hperm : s'.inUse.Perm (buffer :: s.inUse))
    (hreports : ∀ message ∈ s'.sending ++ s'.received, message.IsReport) : Pooled num s' free where
  holds := by
    rw [hmsgbuf]
    exact (h.getBuffer hnum).2.2
  perm := by
    refine ((hperm.append_left free).trans ?_).trans h.perm
    exact List.perm_middle
  reused := by
    rw [hreused]
    exact h.reused
  reports := hreports

theorem of_freeBuffer (h : Pooled num s free) (hnum : 2 * num < 2 ^ 64)
    (hmsgbuf : s'.msgbuf = s.msgbuf.freeBuffer buffer) (hreused : s'.reused = s.reused)
    (hperm : s.inUse.Perm (buffer :: s'.inUse))
    (hreports : ∀ message ∈ s'.sending ++ s'.received, message.IsReport) :
    Pooled num s' (free ++ [buffer]) where
  holds := by
    have hlen := h.length_eq
    rw [hperm.length_eq, List.length_cons] at hlen
    rw [hmsgbuf]
    exact h.holds.freeBuffer (by omega) hnum
  perm := by
    rw [List.append_assoc]
    exact (hperm.symm.append_left free).trans h.perm
  reused := by
    rw [hreused]
    exact h.reused
  reports := hreports

theorem postReceives (hnum : 2 * num < 2 ^ 64) {taken : List ℕ} {s : Side}
    (h : Pooled num s (taken ++ free)) :
    Pooled num (Side.postReceives taken.length s) free ∧
      (Side.postReceives taken.length s).receives = s.receives ++ taken := by
  induction taken generalizing s with
  | nil => exact ⟨h, (List.append_nil _).symm⟩
  | cons buffer taken ih =>
      rw [List.cons_append] at h
      obtain ⟨hfirst, hnext, -⟩ := h.getBuffer hnum
      rw [List.length_cons, Side.postReceives, hfirst, hnext]
      have hpool : Pooled num
          { s with msgbuf := s.msgbuf.getBuffer.2, receives := s.receives ++ [buffer] }
          (taken ++ free) := by
        refine h.of_getBuffer hnum rfl rfl ?_ h.reports
        simp only [inUse, List.append_assoc]
        exact List.perm_middle
      obtain ⟨hpooled, hreceives⟩ := ih hpool
      refine ⟨hpooled, ?_⟩
      rw [hreceives, List.append_assoc]
      rfl

theorem reports_of_nil (hposted : s.posted = []) (hcq : s.cq = []) :
    ∀ message ∈ s.sending ++ s.received, message.IsReport := by
  rw [sending, received, hposted, hcq]
  exact fun message hmessage => absurd hmessage List.not_mem_nil

theorem postSetup (h : Pooled num s (buffer :: free)) (hnum : 2 * num < 2 ^ 64)
    (hposted : s.posted = []) (hcq : s.cq = []) (hunacked : s.unacked = []) :
    Pooled num s.postSetup free ∧ s.postSetup.receives = s.receives := by
  obtain ⟨hfirst, hnext, -⟩ := h.getBuffer hnum
  refine ⟨?_, by rw [Side.postSetup, hnext]⟩
  rw [Side.postSetup, hfirst, hnext]
  refine h.of_getBuffer hnum rfl rfl ?_ (reports_of_nil hposted hcq)
  simp only [inUse, hunacked, Sent.buffer?, List.filterMap_cons, List.filterMap_nil,
    List.append_nil]
  rw [List.append_assoc (_ ++ _) [buffer], List.singleton_append]
  exact List.perm_middle

theorem recvSetup (h : Pooled num s free) (hnum : 2 * num < 2 ^ 64) (hposted : s.posted = [])
    (hcq : s.cq = []) {receives : List ℕ} (hreceives : s.receives = buffer :: receives) :
    ∃ free', Pooled num s.recvSetup free' ∧ s.recvSetup.receives.length = s.receives.length := by
  have hfreed : Pooled num (Side.freeBuffer { s with receives } buffer) (free ++ [buffer]) := by
    refine h.of_freeBuffer hnum rfl rfl ?_ (reports_of_nil hposted hcq)
    simp only [inUse, hreceives, Side.freeBuffer, List.cons_append]
    exact List.Perm.refl _
  obtain ⟨first, free', hfree⟩ : ∃ first free', free ++ [buffer] = [first] ++ free' :=
    List.exists_cons_of_ne_nil (List.append_ne_nil_of_right_ne_nil free (List.cons_ne_nil _ _))
  rw [hfree] at hfreed
  obtain ⟨hpooled, hposts⟩ := Pooled.postReceives hnum hfreed
  have heq : s.recvSetup = Side.postReceives 1 (Side.freeBuffer { s with receives } buffer) := by
    rw [Side.recvSetup, hreceives]
  refine ⟨free', heq ▸ hpooled, ?_⟩
  rw [heq, hreceives, ← List.length_singleton (a := first), hposts, Side.freeBuffer,
    List.length_append, List.length_cons]
  rfl

end Pooled

theorem connect_eq (depth : ℕ) (size : U32) : ∃ msgbuf msgs receives reused setup,
    connect depth size =
      { init depth size with
        msgbuf, msgs, receives, reused, unacked := [.message setup]
        fcredits := (init depth size).fcredits - 1 } := by
  obtain ⟨msgbuf, receives, reused, heq⟩ := postReceives_eq depth (init depth size)
  rw [connect, heq, postSetup, recvSetup]
  split
  · exact ⟨_, _, _, _, _, rfl⟩
  · obtain ⟨msgbuf', receives', reused', heq'⟩ := postReceives_eq 1 _
    rw [heq']
    exact ⟨_, _, _, _, _, rfl⟩

theorem established_connect {depth : ℕ} (hpos : 0 < depth) (hdepth : depth < 2 ^ 31) (size : U32) :
    (connect depth size).Established depth size := by
  have hnum : 2 * (2 * depth) < 2 ^ 64 := by omega
  obtain ⟨k, rfl⟩ : ∃ k, depth = k + 1 := ⟨depth - 1, by omega⟩
  obtain ⟨rest, hrest⟩ : ∃ rest,
      List.range (2 * (k + 1)) = List.range (k + 1) ++ (k + 1) :: rest := by
    refine ⟨(List.range k).map (fun i => k + 1 + (i + 1)), ?_⟩
    rw [Nat.two_mul, List.range_add, List.range_succ_eq_map (n := k), List.map_cons, List.map_map]
    rfl
  have hinit : Pooled (2 * (k + 1)) (init (k + 1) size) (List.range (k + 1) ++ (k + 1) :: rest) := by
    refine ⟨?_, ?_, rfl, Pooled.reports_of_nil rfl rfl⟩
    · rw [← hrest]
      exact BufferPool.holds_resize hnum
    · rw [← hrest]
      exact List.Perm.of_eq (List.append_nil _)
  obtain ⟨hposted, hposts⟩ := Pooled.postReceives hnum hinit
  rw [List.length_range] at hposted hposts
  obtain ⟨hidle, hcq, hunacked⟩ : (postReceives (k + 1) (init (k + 1) size)).posted = [] ∧
      (postReceives (k + 1) (init (k + 1) size)).cq = [] ∧
      (postReceives (k + 1) (init (k + 1) size)).unacked = [] := by
    obtain ⟨msgbuf, receives, reused, heq⟩ := postReceives_eq (k + 1) (init (k + 1) size)
    rw [heq]
    exact ⟨rfl, rfl, rfl⟩
  obtain ⟨hsetup, hsame⟩ := hposted.postSetup hnum hidle hcq hunacked
  have hreceives := hsame.trans hposts
  obtain ⟨free, hpooled, hlen⟩ := hsetup.recvSetup hnum hidle hcq
    (hreceives.trans (List.range_succ_eq_map (n := k)))
  rw [hreceives] at hlen
  obtain ⟨msgbuf, msgs, receives, reused, setup, heq⟩ := connect_eq (k + 1) size
  have hconnect : (postReceives (k + 1) (init (k + 1) size)).postSetup.recvSetup =
    connect (k + 1) size := rfl
  rw [hconnect, heq] at hpooled hlen
  rw [heq]
  constructor <;> try rfl
  case reused => exact hpooled.reused
  case receives => exact hlen.trans (List.length_range)
  case buffers =>
    refine ⟨free, setup, rfl, hpooled.holds, ?_⟩
    have hperm := hpooled.perm
    simp only [inUse, init, Sent.buffer?, List.filterMap_cons, List.filterMap_nil,
      List.append_nil, ← List.append_assoc] at hperm
    exact hperm

namespace Pooled

variable {num : ℕ} {s : Side} {free : List ℕ}

theorem messages_freeBuffer {buffer : ℕ} (hposted : buffer ∉ s.posted.filterMap Send.buffer?)
    (hcq : buffer ∉ s.cq.filterMap Completion.buffer?) (message : Message) :
    (s.posted.filterMap Send.buffer?).map (Function.update s.msgs buffer message) = s.sending ∧
      (s.cq.filterMap Completion.message?).map (Function.update s.msgs buffer message) =
        s.received :=
  ⟨map_update_of_notMem hposted,
    map_update_of_notMem fun hmem => hcq (mem_buffers_of_mem_messages hmem)⟩

theorem postFC_messages {buffer : ℕ} (h : Pooled num s (buffer :: free))
    (hnum : 2 * num < 2 ^ 64) :
    s.postFC.sending = s.sending ++ [.fc s.report] ∧ s.postFC.received = s.received := by
  obtain ⟨hfirst, hnext, -⟩ := h.getBuffer hnum
  have hfresh := h.notMem_inUse
  simp only [inUse, List.mem_append, not_or] at hfresh
  obtain ⟨⟨⟨-, hposted⟩, -⟩, hcq⟩ := hfresh
  obtain ⟨hsending, hreceived⟩ := messages_freeBuffer hposted hcq (.fc s.report)
  simp only [postFC, postMessage, hfirst, hnext]
  refine ⟨?_, hreceived⟩
  rw [sending]
  simp only [List.filterMap_append, List.filterMap_cons, List.filterMap_nil, Send.buffer?,
    List.map_append, List.map_cons, List.map_nil, Function.update_self, hsending]

theorem postFC {buffer : ℕ} (h : Pooled num s (buffer :: free)) (hnum : 2 * num < 2 ^ 64) :
    Pooled num s.postFC free := by
  obtain ⟨hsending, hreceived⟩ := h.postFC_messages hnum
  obtain ⟨hfirst, hnext, -⟩ := h.getBuffer hnum
  have hreports : ∀ message ∈ s.postFC.sending ++ s.postFC.received, message.IsReport := by
    rw [hsending, hreceived]
    intro message hmessage
    rcases List.mem_append.1 hmessage with hmem | hmem
    · rcases List.mem_append.1 hmem with hold | hnew
      · exact h.reports message (List.mem_append_left _ hold)
      · exact ⟨s.report, List.mem_singleton.1 hnew⟩
    · exact h.reports message (List.mem_append_right _ hmem)
  refine h.of_getBuffer hnum ?_ ?_ ?_ hreports
  · simp only [Side.postFC, postMessage, hnext]
  · simp only [Side.postFC, postMessage, hnext]
  · simp only [Side.postFC, postMessage, hfirst, hnext]
    rw [List.perm_iff_count]
    intro a
    simp only [inUse, List.filterMap_append, List.filterMap_cons, List.filterMap_nil,
      Send.buffer?, List.count_append, List.count_cons, List.count_nil]
    omega

theorem exists_free (h : Pooled num s free) (hnum : 2 * num < 2 ^ 64)
    (hempty : s.msgbuf.isEmpty = false) : ∃ buffer free', free = buffer :: free' := by
  apply List.exists_cons_of_ne_nil
  intro hnil
  rw [(h.holds.isEmpty_iff hnum).2 hnil] at hempty
  cases hempty

theorem write (h : Pooled num s free) (bytes : List UInt8) :
    Pooled num (s.write bytes) free ∧ (s.write bytes).sending = s.sending ∧
      (s.write bytes).received = s.received := by
  obtain heq | ⟨-, put, -, -, -, heq⟩ := write_cases (s := s) bytes
  · rw [heq]
    exact ⟨h, rfl, rfl⟩
  · have hposted : (s.put put).posted.filterMap Send.buffer? = s.posted.filterMap Send.buffer? := by
      simp [Side.put, postRDMAWrite, makeImm, fill, Send.buffer?]
    have hsending : (s.put put).sending = s.sending := by
      rw [sending, hposted]
      rfl
    rw [heq]
    refine ⟨h.of_perm rfl ?_ ?_ ?_, hsending, rfl⟩
    · rfl
    · rw [inUse, hposted]
      exact List.Perm.refl _
    · rw [hsending]
      exact h.reports

theorem readSync (h : Pooled num s free) (hnum : 2 * num < 2 ^ 64) {bytes : ℕ}
    (hspare : s.PostsFC bytes → s.msgbuf.isEmpty = false) :
    ∃ free', Pooled num (s.readSync bytes) free' := by
  obtain heq | heq | ⟨-, taken, -, -, ⟨-, hposts, heq⟩ | ⟨-, heq⟩⟩ :=
    readSync_cases (s := s) bytes
  · rw [heq]
    exact ⟨free, h⟩
  · rw [heq]
    exact ⟨free, { h with }⟩
  · obtain ⟨buffer, free', rfl⟩ := h.exists_free hnum (hspare hposts)
    have htaken : Pooled num (s.take taken) (buffer :: free') := { h with }
    rw [heq]
    exact ⟨free', htaken.postFC hnum⟩
  · rw [heq]
    exact ⟨free, { h with }⟩

section Complete

variable {completion : Completion} {cq : List Completion}

theorem eq_rdmaWrite_of_buffer (h : completion.buffer? = none) :
    ∃ length, completion = .rdmaWrite length := by
  cases completion with
  | rdmaWrite length => exact ⟨length, rfl⟩
  | recvRDMAWithImm imm buffer => cases h
  | recv buffer => cases h
  | send buffer => cases h

theorem perm_of_completed {buffer : ℕ} (hcq : s.cq = completion :: cq)
    (hbuffer : completion.buffer? = some buffer) :
    s.inUse.Perm (buffer :: Side.inUse { s with cq }) := by
  rw [List.perm_iff_count]
  intro a
  simp only [inUse, hcq, List.filterMap_cons, hbuffer, List.count_append, List.count_cons]
  omega

theorem complete_messages (h : Pooled num s free) (hcq : s.cq = completion :: cq) :
    (Side.complete { s with cq } completion).sending = s.sending ∧
      s.received = (completion.message?.map s.msgs).toList ++
        (Side.complete { s with cq } completion).received := by
  have hreceived : s.received = (completion.message?.map s.msgs).toList ++
      Side.received { s with cq } := by
    rw [Side.received, hcq, List.filterMap_cons]
    cases completion <;> rfl
  cases hbuffer : completion.buffer? with
  | none =>
      obtain ⟨length, rfl⟩ := eq_rdmaWrite_of_buffer hbuffer
      exact ⟨rfl, hreceived⟩
  | some buffer =>
      have hnodup := (perm_of_completed hcq hbuffer).nodup_iff.1 h.nodup_inUse
      have hfresh := (List.nodup_cons.1 hnodup).1
      simp only [inUse, List.mem_append, not_or] at hfresh
      obtain ⟨⟨⟨-, hposted⟩, -⟩, hrest⟩ := hfresh
      obtain ⟨hsame, hsame'⟩ := messages_freeBuffer (s := { s with cq }) hposted hrest .invalid
      obtain ⟨sink, availBytes, fcredits, writes, rptr, wcredits, fcs, numRecvs, heq, -⟩ :=
        complete_eq_of_buffer (s := { s with cq }) hbuffer
      rw [heq, hreceived]
      exact ⟨hsame, congrArg _ hsame'.symm⟩

theorem complete_recv {buffer : ℕ} (h : Pooled num s free) (hcq : s.cq = .recv buffer :: cq) :
    ∃ payload, s.msgs buffer = .fc payload ∧
      Side.complete { s with cq } (.recv buffer) =
        { (recvFC { s with cq } payload).freeBuffer buffer with numRecvs := s.numRecvs + 1 } := by
  obtain ⟨payload, hpayload⟩ : (s.msgs buffer).IsReport := by
    refine h.reports _ (List.mem_append_right _ ?_)
    rw [(h.complete_messages hcq).2]
    exact List.mem_cons_self
  refine ⟨payload, hpayload, ?_⟩
  rw [Side.complete]
  simp only [hpayload, recvMessage]

theorem complete (h : Pooled num s free) (hnum : 2 * num < 2 ^ 64)
    (hcq : s.cq = completion :: cq) :
    Pooled num (Side.complete { s with cq } completion) (free ++ completion.buffer?.toList) := by
  obtain ⟨hsending, hreceived⟩ := h.complete_messages hcq
  have hreports : ∀ message ∈ (Side.complete { s with cq } completion).sending ++
      (Side.complete { s with cq } completion).received, message.IsReport := by
    intro message hmessage
    refine h.reports message ?_
    rw [hreceived]
    rw [hsending] at hmessage
    rcases List.mem_append.1 hmessage with hmem | hmem
    · exact List.mem_append_left _ hmem
    · exact List.mem_append_right _ (List.mem_append_right _ hmem)
  cases hbuffer : completion.buffer? with
  | none =>
      obtain ⟨length, rfl⟩ := eq_rdmaWrite_of_buffer hbuffer
      rw [Option.toList_none, List.append_nil]
      refine h.of_perm rfl rfl ?_ hreports
      simp only [inUse, hcq, Side.complete, List.filterMap_cons, Completion.buffer?]
      exact List.Perm.refl _
  | some buffer =>
      have hperm := perm_of_completed hcq hbuffer
      obtain ⟨sink, availBytes, fcredits, writes, rptr, wcredits, fcs, numRecvs, heq, -⟩ :=
        complete_eq_of_buffer (s := { s with cq }) hbuffer
      rw [heq] at hreports ⊢
      exact h.of_freeBuffer hnum rfl rfl hperm hreports

theorem complete_numRecvs_le (s : Side) (completion : Completion) (cq : List Completion) :
    (Side.complete { s with cq } completion).numRecvs ≤
      s.numRecvs + completion.buffer?.toList.length := by
  cases completion with
  | recvRDMAWithImm imm buffer => exact le_rfl
  | recv buffer => exact le_rfl
  | send buffer => exact Nat.le_succ _
  | rdmaWrite length => exact le_rfl

theorem checkCQ (h : Pooled num s free) (hnum : 2 * num < 2 ^ 64) (count : ℕ) :
    ∃ free', Pooled num (s.checkCQ count) free' := by
  obtain ⟨free', hpooled, hle⟩ := completions_invariant
    (fun s => ∃ free, Pooled num s free ∧ s.numRecvs ≤ free.length)
    (by
      rintro s completion cq ⟨free, hs, hle⟩ hcq
      refine ⟨_, hs.complete hnum hcq, ?_⟩
      have hrecvs := complete_numRecvs_le s completion cq
      rw [List.length_append]
      omega)
    (min count s.depth) (s := { s with numRecvs := 0 }) ⟨free, { h with }, Nat.zero_le _⟩
  rw [← List.take_append_drop (completions (min count s.depth) { s with numRecvs := 0 }).numRecvs
    free'] at hpooled
  have hposted := (Pooled.postReceives hnum hpooled).1
  rw [List.length_take, Nat.min_eq_left hle] at hposted
  exact ⟨_, { hposted with }⟩

end Complete

section Deliver

variable {send : Send} {posted : List Send}

theorem sending_of_posted (hposted : s.posted = send :: posted) (unacked : List Sent) :
    s.sending = (send.buffer?.map s.msgs).toList ++ Side.sending { s with posted, unacked } := by
  rw [sending, hposted, List.filterMap_cons]
  cases send <;> rfl

theorem isReport_of_posted (h : Pooled num s free) (hposted : s.posted = send :: posted) :
    ∀ message ∈ send.buffer?.map s.msgs, message.IsReport := by
  intro message hmessage
  refine h.reports message ?_
  rw [sending_of_posted hposted [], List.append_assoc]
  exact List.mem_append_left _ (Option.mem_toList.2 hmessage)

theorem deliver_sender (h : Pooled num s free) (hposted : s.posted = send :: posted) :
    Pooled num { s with posted, unacked := s.unacked ++ [send.sent] } free := by
  refine h.of_perm rfl rfl ?_ ?_
  · rw [List.perm_iff_count]
    intro a
    cases send <;>
      simp only [inUse, hposted, Send.sent, List.filterMap_append, List.filterMap_cons,
        List.filterMap_nil, Send.buffer?, Sent.buffer?, List.count_append, List.count_cons,
        List.count_nil] <;>
      omega
  · intro message hmessage
    refine h.reports message ?_
    rw [sending_of_posted hposted (s.unacked ++ [send.sent]), List.append_assoc]
    exact List.mem_append_right _ hmessage

variable {peer : Side} {receives : List ℕ} {sinkbuf : Memory} {buffer : ℕ}

theorem deliver_messages (h : Pooled num s free) (send : Send) (peer : Side) (sinkbuf : Memory)
    (hreceives : s.receives = buffer :: receives) :
    Side.sending
        { s with
          receives, sinkbuf
          msgs := send.copy peer s buffer
          cq := s.cq ++ [send.arrival buffer] } = s.sending ∧
      Side.received
        { s with
          receives, sinkbuf
          msgs := send.copy peer s buffer
          cq := s.cq ++ [send.arrival buffer] } =
        s.received ++ (send.buffer?.map peer.msgs).toList := by
  have hnodup := h.nodup_inUse
  rw [inUse, hreceives, List.append_assoc, List.append_assoc, List.cons_append,
    List.nodup_cons] at hnodup
  obtain ⟨hfresh, -⟩ := hnodup
  simp only [List.mem_append, not_or] at hfresh
  obtain ⟨-, hposted, -, hcq⟩ := hfresh
  cases send with
  | write source length target imm =>
      refine ⟨rfl, ?_⟩
      simp only [received, Send.copy, Send.arrival, Send.buffer?, List.filterMap_append,
        List.filterMap_cons, List.filterMap_nil, Completion.message?, List.append_nil,
        Option.map_none, Option.toList_none]
  | message source =>
      obtain ⟨hsending, hreceived⟩ := messages_freeBuffer hposted hcq (peer.msgs source)
      refine ⟨hsending, ?_⟩
      simp only [received, Send.copy, Send.arrival, Send.buffer?, List.filterMap_append,
        List.filterMap_cons, List.filterMap_nil, Completion.message?, List.map_append,
        List.map_cons, List.map_nil, Function.update_self, Option.map_some, Option.toList_some]
      rw [hreceived]
      rfl

theorem deliver_receiver (h : Pooled num s free) (hreceives : s.receives = buffer :: receives)
    (hreport : ∀ message ∈ send.buffer?.map peer.msgs, message.IsReport) :
    Pooled num
      { s with
        receives, sinkbuf
        msgs := send.copy peer s buffer
        cq := s.cq ++ [send.arrival buffer] } free := by
  obtain ⟨hsending, hreceived⟩ :=
    h.deliver_messages send peer sinkbuf hreceives
  refine h.of_perm rfl rfl ?_ ?_
  · rw [List.perm_iff_count]
    intro a
    cases send <;>
      simp only [inUse, hreceives, Send.arrival, List.filterMap_append, List.filterMap_cons,
        List.filterMap_nil, Completion.buffer?, List.count_append, List.count_cons,
        List.count_nil] <;>
      omega
  · rw [hsending, hreceived, ← List.append_assoc]
    intro message hmessage
    rcases List.mem_append.1 hmessage with hold | hnew
    · exact h.reports message hold
    · exact hreport message (Option.mem_toList.1 hnew)

end Deliver

section Acknowledge

variable {sent : Sent} {unacked : List Sent}

theorem acknowledge_messages (s : Side) (sent : Sent) (unacked : List Sent) :
    Side.sending { s with unacked, cq := s.cq ++ [sent.completion] } = s.sending ∧
      Side.received { s with unacked, cq := s.cq ++ [sent.completion] } = s.received := by
  refine ⟨rfl, ?_⟩
  cases sent <;>
    simp only [received, Sent.completion, List.filterMap_append, List.filterMap_cons,
      List.filterMap_nil, Completion.message?, List.append_nil]

theorem acknowledge (h : Pooled num s free) (hunacked : s.unacked = sent :: unacked) :
    Pooled num { s with unacked, cq := s.cq ++ [sent.completion] } free := by
  obtain ⟨hsending, hreceived⟩ := acknowledge_messages s sent unacked
  refine h.of_perm rfl rfl ?_ ?_
  · rw [List.perm_iff_count]
    intro a
    cases sent <;>
      simp only [inUse, hunacked, Sent.completion, List.filterMap_append, List.filterMap_cons,
        List.filterMap_nil, Sent.buffer?, Completion.buffer?, List.count_append, List.count_cons,
        List.count_nil] <;>
      omega
  · rw [hsending, hreceived]
    exact h.reports

end Acknowledge

end Pooled

end Side

namespace World

/-- A read that reports finds a free message buffer. -/
def Spare (w : World) : Event → Prop
  | .readSync e bytes => (w e).PostsFC bytes → (w e).msgbuf.isEmpty = false
  | _ => True

instance decidableSpare (w : World) : (event : Event) → Decidable (Spare w event)
  | .write _ _ => isTrue trivial
  | .readSync e bytes =>
      inferInstanceAs (Decidable ((w e).PostsFC bytes → (w e).msgbuf.isEmpty = false))
  | .checkCQ _ _ => isTrue trivial
  | .deliver _ => isTrue trivial
  | .acknowledge _ => isTrue trivial

/-- The message buffers of both ends are accounted for. -/
def Stored (depth : ℕ) (w : World) : Prop := ∀ e, ∃ free, (w e).Pooled (2 * depth) free

variable {depth : ℕ} {size : U32} {w w' : World}

theorem stored_established (h : ∀ e, (w e).Established depth size) : Stored depth w := by
  intro e
  have hs := h e
  obtain ⟨free, setup, hunacked, hholds, hperm⟩ := hs.buffers
  refine ⟨free, hholds, ?_, hs.reused, Side.Pooled.reports_of_nil hs.posted hs.cq⟩
  rw [List.append_assoc] at hperm
  simpa [Side.inUse, hs.posted, hunacked, hs.cq, Sent.buffer?] using hperm

theorem Stored.update (h : Stored depth w) (e : End) {s : Side}
    (hs : ∃ free, s.Pooled (2 * depth) free) : Stored depth (Function.update w e s) := by
  intro x
  rcases eq_or_ne x e with rfl | hne
  · rw [Function.update_self]
    exact hs
  · rw [Function.update_of_ne hne]
    exact h x

theorem stored_step (hdepth : depth < 2 ^ 31) {event : Event} (h : Stored depth w)
    (hspare : Spare w event) (hstep : w.step event = some w') : Stored depth w' := by
  have hnum : 2 * (2 * depth) < 2 ^ 64 := by omega
  cases event with
  | write e bytes =>
      cases hstep
      obtain ⟨free, hpooled⟩ := h e
      exact h.update e ⟨free, (hpooled.write bytes).1⟩
  | readSync e bytes =>
      cases hstep
      obtain ⟨free, hpooled⟩ := h e
      exact h.update e (hpooled.readSync hnum hspare)
  | checkCQ e count =>
      cases hstep
      obtain ⟨free, hpooled⟩ := h e
      exact h.update e (hpooled.checkCQ hnum count)
  | deliver e =>
      obtain ⟨send, posted, buffer, receives, hposted, hreceives, hsender, hreceiver⟩ :=
        deliver_cases hstep
      obtain ⟨free, hpooled⟩ := h e
      obtain ⟨free', hpooled'⟩ := h e.peer
      have hleft : ∃ free, (w' e).Pooled (2 * depth) free := by
        rw [hsender]
        exact ⟨free, hpooled.deliver_sender hposted⟩
      have hright : ∃ free, (w' e.peer).Pooled (2 * depth) free := by
        rw [hreceiver]
        exact ⟨free', hpooled'.deliver_receiver hreceives (hpooled.isReport_of_posted hposted)⟩
      intro x
      cases e <;> cases x <;> assumption
  | acknowledge e =>
      obtain ⟨sent, unacked, hunacked, rfl⟩ := acknowledge_cases hstep
      obtain ⟨free, hpooled⟩ := h e
      exact h.update e ⟨free, hpooled.acknowledge hunacked⟩

end World

end Collage.Rdma
