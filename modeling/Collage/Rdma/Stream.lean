import Collage.Rdma.Pool

/-!
# The byte stream of an RDMA connection

The bytes that are read at one end are those that were written at the other end, as long as every
report finds a free message buffer. `Flow` ties the rings of the writer to the sink of the reader
and to everything that is posted or waits in a completion queue; `Progress` says how far the stream
has come at the places the bytes pass.
-/

namespace Collage.Rdma

namespace Send

def bytes : Send → ℕ
  | write _ length _ _ => length.toNat
  | message _ => 0

end Send

def Sent.bytes : Sent → ℕ
  | write length => length.toNat
  | message _ => 0

namespace Completion

def arrived : Completion → ℕ
  | recvRDMAWithImm imm _ => imm.bytesSent.toNat
  | recv _ => 0
  | send _ => 0
  | rdmaWrite _ => 0

def completed : Completion → ℕ
  | recvRDMAWithImm _ _ => 0
  | recv _ => 0
  | send _ => 0
  | rdmaWrite length => length.toNat

end Completion

def Message.reported : Message → ℕ
  | setup _ => 0
  | fc payload => payload.bytesReceived.toNat
  | invalid => 0

/-- How many bytes of a stream have been written into the sink, how many of these the writer knows
to be written, the reader knows to have come, and the writer knows to be read. -/
structure Progress where
  delivered : ℕ
  completed : ℕ
  arrived : ℕ
  reported : ℕ

/-- The posted writes continue the stream at a position, each in one piece of both buffers. -/
def Laid (size : ℕ) : ℕ → List Send → Prop
  | _, [] => True
  | n, .write source length target imm :: sends =>
      source.toNat = n % size ∧ target.toNat = n % size ∧ n % size + length.toNat ≤ size ∧
        imm.bytesSent.toNat = length.toNat ∧ Laid size (n + length.toNat) sends
  | n, .message _ :: sends => Laid size n sends

theorem Laid.append {size : ℕ} {sends rest : List Send} {n : ℕ} (h : Laid size n sends)
    (hrest : Laid size (n + (sends.map Send.bytes).sum) rest) : Laid size n (sends ++ rest) := by
  induction sends generalizing n with
  | nil => exact hrest
  | cons send sends ih =>
      rw [List.map_cons, List.sum_cons, ← Nat.add_assoc] at hrest
      cases send with
      | write source length target imm =>
          obtain ⟨hsource, htarget, hfits, himm, hlaid⟩ := h
          exact ⟨hsource, htarget, hfits, himm, ih hlaid hrest⟩
      | message buffer => exact ih h hrest

/-- The stream from the writer `A` to the reader `B`. -/
structure Flow (size : U32) (A B : Side) (p : Progress) : Prop where
  source_num : A.source.num = size
  rptr_num : A.rptr.num = size
  sink_num : B.sink.num = size
  source_head : A.source.head.Counts size A.accepted.length
  source_middle : A.source.middle.Counts size A.accepted.length
  source_tail : A.source.tail.Counts size p.completed
  rptr_head : A.rptr.head.Counts size A.accepted.length
  rptr_tail : A.rptr.tail.Counts size p.reported
  sink_head : B.sink.head.Counts size p.arrived
  sink_tail : B.sink.tail.Counts size B.obtained.length
  posted : p.delivered + (A.posted.map Send.bytes).sum = A.accepted.length
  completed : p.completed + (A.unacked.map Sent.bytes).sum +
    (A.cq.map Completion.completed).sum = p.delivered
  arrived : p.arrived + (B.cq.map Completion.arrived).sum = p.delivered
  read : B.obtained.length ≤ p.arrived
  reported : p.reported + (A.received.map Message.reported).sum +
    (B.sending.map Message.reported).sum + B.readBytes = B.obtained.length
  source_fits : A.accepted.length ≤ p.completed + size.toNat
  sink_fits : A.accepted.length ≤ p.reported + size.toNat
  sourcebuf : ∀ k, p.delivered ≤ k → k < A.accepted.length →
    A.accepted[k]? = some (A.sourcebuf (k % size.toNat))
  sinkbuf : ∀ k, B.obtained.length ≤ k → k < p.delivered →
    A.accepted[k]? = some (B.sinkbuf (k % size.toNat))
  obtained : B.obtained = A.accepted.take B.obtained.length
  laid : Laid size.toNat p.delivered A.posted

namespace Flow

variable {size : U32} {A B A' B' : Side} {p : Progress}

theorem of_writer (h : Flow size A B p) (hsource : A'.source = A.source)
    (hsourcebuf : A'.sourcebuf = A.sourcebuf) (hrptr : A'.rptr = A.rptr)
    (haccepted : A'.accepted = A.accepted) (hunacked : A'.unacked = A.unacked)
    (hposted : A'.posted = A.posted ∨ ∃ buffer, A'.posted = A.posted ++ [.message buffer])
    (hcompleted : (A'.cq.map Completion.completed).sum = (A.cq.map Completion.completed).sum)
    (hreceived : A'.received = A.received) :
    Flow size A' B p where
  source_num := by rw [hsource]; exact h.source_num
  rptr_num := by rw [hrptr]; exact h.rptr_num
  sink_num := h.sink_num
  source_head := by rw [hsource, haccepted]; exact h.source_head
  source_middle := by rw [hsource, haccepted]; exact h.source_middle
  source_tail := by rw [hsource]; exact h.source_tail
  rptr_head := by rw [hrptr, haccepted]; exact h.rptr_head
  rptr_tail := by rw [hrptr]; exact h.rptr_tail
  sink_head := h.sink_head
  sink_tail := h.sink_tail
  posted := by
    rw [haccepted, ← h.posted]
    obtain hposted | ⟨buffer, hposted⟩ := hposted
    · rw [hposted]
    · simp [hposted, Send.bytes]
  completed := by rw [hunacked, hcompleted]; exact h.completed
  arrived := h.arrived
  read := h.read
  reported := by rw [hreceived]; exact h.reported
  source_fits := by rw [haccepted]; exact h.source_fits
  sink_fits := by rw [haccepted]; exact h.sink_fits
  sourcebuf := by rw [haccepted, hsourcebuf]; exact h.sourcebuf
  sinkbuf := by rw [haccepted]; exact h.sinkbuf
  obtained := by rw [haccepted]; exact h.obtained
  laid := by
    obtain hposted | ⟨buffer, hposted⟩ := hposted
    · rw [hposted]
      exact h.laid
    · rw [hposted]
      exact h.laid.append trivial

theorem of_reader (h : Flow size A B p) (hsink : B'.sink = B.sink)
    (hsinkbuf : B'.sinkbuf = B.sinkbuf) (hread : B'.readBytes = B.readBytes)
    (hobtained : B'.obtained = B.obtained)
    (hsending : B'.sending = B.sending)
    (harrived : (B'.cq.map Completion.arrived).sum = (B.cq.map Completion.arrived).sum) :
    Flow size A B' p where
  source_num := h.source_num
  rptr_num := h.rptr_num
  sink_num := by rw [hsink]; exact h.sink_num
  source_head := h.source_head
  source_middle := h.source_middle
  source_tail := h.source_tail
  rptr_head := h.rptr_head
  rptr_tail := h.rptr_tail
  sink_head := by rw [hsink]; exact h.sink_head
  sink_tail := by rw [hsink, hobtained]; exact h.sink_tail
  posted := h.posted
  completed := h.completed
  arrived := by rw [harrived]; exact h.arrived
  read := by rw [hobtained]; exact h.read
  reported := by rw [hsending, hread, hobtained]; exact h.reported
  source_fits := h.source_fits
  sink_fits := h.sink_fits
  sourcebuf := h.sourcebuf
  sinkbuf := by rw [hobtained, hsinkbuf]; exact h.sinkbuf
  obtained := by rw [hobtained]; exact h.obtained
  laid := h.laid

section Write

variable (hpos : 0 < size.toNat) (hsize : size.toNat < 2 ^ 31)
include hpos hsize

theorem head_ptr (h : Flow size A B p) :
    (A.source.head.ptr A.source.num).toNat = A.accepted.length % size.toNat := by
  rw [h.source_num]
  exact h.source_head.ptr hpos (by omega)

/-- The room for a write: behind the bytes that are still to be transferred, behind those that are
still to be read, and before the end of the buffer. -/
theorem fillSize_eq (h : Flow size A B p) (bytes : ℕ) :
    A.fillSize bytes = min (min (min bytes maxBS)
      (min (size.toNat - (A.accepted.length - p.completed))
        (size.toNat - (A.accepted.length - p.reported))))
      (size.toNat - A.accepted.length % size.toNat) := by
  have hcompleted := h.completed
  have hposted := h.posted
  have hreported := h.reported
  have hread := h.read
  have harrived := h.arrived
  have hsource := h.source_fits
  have hsink := h.sink_fits
  have hsourceNum := h.source_num
  have hrptrNum := h.rptr_num
  have hneg : A.source.negAvailable.toNat = size.toNat - (A.accepted.length - p.completed) := by
    rw [Ring.negAvailable_toNat (n := A.accepted.length) (m := p.completed), hsourceNum]
    · rw [hsourceNum]; exact h.source_head
    · rw [hsourceNum]; exact h.source_tail
    · omega
    · rw [hsourceNum]; exact hsource
  have hneg' : A.rptr.negAvailable.toNat = size.toNat - (A.accepted.length - p.reported) := by
    rw [Ring.negAvailable_toNat (n := A.accepted.length) (m := p.reported), hrptrNum]
    · rw [hrptrNum]; exact h.rptr_head
    · rw [hrptrNum]; exact h.rptr_tail
    · omega
    · rw [hrptrNum]; exact hsink
  have hend : (A.source.num - A.source.head.ptr A.source.num).toNat =
      size.toNat - A.accepted.length % size.toNat := by
    rw [BitVec.toNat_sub_of_le, h.head_ptr hpos hsize, hsourceNum]
    rw [BitVec.le_def, h.head_ptr hpos hsize, hsourceNum]
    exact (Nat.mod_lt _ hpos).le
  rw [Side.fillSize, hneg, hneg', hend]

theorem fillSize_le (h : Flow size A B p) (bytes : ℕ) :
    A.fillSize bytes ≤ maxBS ∧
      A.accepted.length + A.fillSize bytes ≤ p.completed + size.toNat ∧
      A.accepted.length + A.fillSize bytes ≤ p.reported + size.toNat ∧
      A.accepted.length % size.toNat + A.fillSize bytes ≤ size.toNat := by
  have hsource := h.source_fits
  have hsink := h.sink_fits
  have hmod : A.accepted.length % size.toNat < size.toNat := Nat.mod_lt _ hpos
  have hbounds := (h.fillSize_eq hpos hsize bytes).le
  simp only [le_min_iff] at hbounds
  obtain ⟨⟨⟨-, hmax⟩, hsourceRoom, hsinkRoom⟩, hend⟩ := hbounds
  exact ⟨hmax, by omega, by omega, by omega⟩

theorem put_writer (h : Flow size A B p) {bytes : List UInt8} {offer : ℕ}
    (hlen : bytes.length ≤ A.fillSize offer) : Flow size (A.put bytes) B p := by
  obtain ⟨hmax, hcompleted, hreported, hend⟩ := h.fillSize_le hpos hsize offer
  have hbound : bytes.length < 2 ^ 28 := by
    rw [maxBS] at hmax
    omega
  have hhead : (A.source.head.incr A.source.num (BitVec.ofNat 32 bytes.length)).Counts size
      (A.accepted.length + bytes.length) := by
    rw [h.source_num]
    exact h.source_head.incr_ofNat hpos (by omega)
  generalize hlengthDef : (A.source.head.incr A.source.num (BitVec.ofNat 32 bytes.length)).value -
    A.source.middle.value = length
  have hlength : length.toNat = bytes.length := by
    rw [← hlengthDef, hhead.toNat_sub h.source_middle (by omega) (by omega)]
    omega
  have hposted : (A.put bytes).posted = A.posted ++
      [.write (A.source.middle.ptr A.source.num) length (A.rptr.head.ptr A.rptr.num)
        ((A.fill bytes).makeImm length).1] := by
    rw [← hlengthDef]
    rfl
  have hsource : (A.put bytes).source =
      (A.source.incrHead (BitVec.ofNat 32 bytes.length)).incrMiddle length := by
    rw [← hlengthDef]
    rfl
  have hrptr : (A.put bytes).rptr = A.rptr.incrHead length := by
    rw [← hlengthDef]
    rfl
  have haccepted : (A.put bytes).accepted = A.accepted ++ bytes := rfl
  have hacceptedLen : (A.put bytes).accepted.length = A.accepted.length + bytes.length := by
    rw [haccepted, List.length_append]
  have hsourcebuf : (A.put bytes).sourcebuf =
      A.sourcebuf.store size.toNat A.accepted.length bytes := by
    rw [← Memory.store_mod, ← h.head_ptr hpos hsize, ← h.source_num]
    rfl
  have hobtained : B.obtained.length ≤ A.accepted.length := by
    rw [h.obtained]
    exact List.length_take_le' _ _
  refine { h with
    source_num := ?_, rptr_num := ?_, source_head := ?_, source_middle := ?_, source_tail := ?_,
    rptr_head := ?_, rptr_tail := ?_, posted := ?_, source_fits := ?_, sink_fits := ?_,
    sourcebuf := ?_, sinkbuf := ?_, obtained := ?_, laid := ?_ }
  · rw [hsource]
    exact h.source_num
  · rw [hrptr]
    exact h.rptr_num
  · rw [hsource, hacceptedLen]
    exact hhead
  · rw [hsource, hacceptedLen, ← hlength, Ring.incrMiddle, Ring.incrHead, h.source_num]
    exact h.source_middle.incr hpos
  · rw [hsource]
    exact h.source_tail
  · rw [hrptr, hacceptedLen, ← hlength, Ring.incrHead, h.rptr_num]
    exact h.rptr_head.incr hpos
  · rw [hrptr]
    exact h.rptr_tail
  · rw [hposted, hacceptedLen, ← h.posted]
    simp [Send.bytes, hlength, Nat.add_assoc]
  · rw [hacceptedLen]
    omega
  · rw [hacceptedLen]
    omega
  · intro k hk hklt
    rw [hacceptedLen] at hklt
    rw [haccepted, hsourcebuf]
    rcases lt_or_ge k A.accepted.length with hold | hnew
    · have hdelivered := h.completed
      rw [List.getElem?_append_left hold, Memory.store_before hold (by omega)]
      exact h.sourcebuf k hk hold
    · obtain ⟨j, rfl⟩ := Nat.exists_eq_add_of_le hnew
      rw [Memory.store_at (by omega) (by omega : j < bytes.length),
        List.getElem?_append_right (by omega), Nat.add_sub_cancel_left,
        List.getElem?_eq_getElem]
  · intro k hk hklt
    have hle := h.posted
    rw [haccepted, List.getElem?_append_left (by omega)]
    exact h.sinkbuf k hk hklt
  · rw [haccepted, List.take_append_of_le_length hobtained]
    exact h.obtained
  · rw [hposted]
    apply h.laid.append
    rw [h.posted]
    refine ⟨?_, ?_, ?_, ?_, trivial⟩
    · rw [h.source_num]
      exact h.source_middle.ptr hpos (by omega)
    · rw [h.rptr_num]
      exact h.rptr_head.ptr hpos (by omega)
    · rw [hlength]
      omega
    · simp only [Side.makeImm, BitVec.toNat_setWidth]
      exact Nat.mod_eq_of_lt (by omega)

theorem write (h : Flow size A B p) (bytes : List UInt8) : Flow size (A.write bytes) B p := by
  obtain heq | ⟨-, put, -, -, hlen, heq⟩ := Side.write_cases (s := A) bytes
  · rw [heq]
    exact h
  · rw [heq]
    exact h.put_writer hpos hsize hlen

end Write

section Read

variable (hpos : 0 < size.toNat) (hsize : size.toNat < 2 ^ 31)
include hpos hsize

theorem tail_ptr (h : Flow size A B p) :
    (B.sink.tail.ptr B.sink.num).toNat = B.obtained.length % size.toNat := by
  rw [h.sink_num]
  exact h.sink_tail.ptr hpos (by omega)

omit hpos hsize in
theorem sink_available (h : Flow size A B p) :
    B.sink.available.toNat = p.arrived - B.obtained.length := by
  have hposted := h.posted
  have harrived := h.arrived
  have hreported := h.reported
  have hsink := h.sink_fits
  apply Ring.available_toNat
  · rw [h.sink_num]; exact h.sink_head
  · rw [h.sink_num]; exact h.sink_tail
  · exact h.read
  · rw [h.sink_num]; omega

theorem take_reader (h : Flow size A B p) {taken : ℕ} (htaken : taken ≤ B.sink.available.toNat) :
    Flow size A (B.take taken) p := by
  have hposted := h.posted
  have harrived := h.arrived
  have hreported := h.reported
  have hread := h.read
  have hsink := h.sink_fits
  rw [h.sink_available] at htaken
  have hload : B.sinkbuf.load B.sink.num.toNat (B.sink.tail.ptr B.sink.num).toNat taken =
      (A.accepted.drop B.obtained.length).take taken := by
    rw [h.tail_ptr hpos hsize, h.sink_num, Memory.load_mod]
    apply Memory.load_eq (by omega)
    intro k hk hklt
    exact h.sinkbuf k hk (by omega)
  have hobtained : (B.take taken).obtained = A.accepted.take (B.obtained.length + taken) := by
    calc (B.take taken).obtained
        = B.obtained ++ (A.accepted.drop B.obtained.length).take taken := by rw [← hload]; rfl
      _ = A.accepted.take (B.obtained.length + taken) := by
          nth_rewrite 1 [h.obtained]
          rw [List.take_add]
  have hlen : (B.take taken).obtained.length = B.obtained.length + taken := by
    rw [hobtained, List.length_take]
    omega
  refine { h with sink_tail := ?_, read := ?_, reported := ?_, sinkbuf := ?_, obtained := ?_ }
  · rw [hlen]
    simp only [Side.take, Side.drain, Ring.incrTail]
    rw [h.sink_num]
    exact h.sink_tail.incr_ofNat hpos (by omega)
  · rw [hlen]
    omega
  · rw [hlen, ← h.reported]
    exact (Nat.add_assoc _ _ _).symm
  · intro k hk hklt
    rw [hlen] at hk
    exact h.sinkbuf k (by omega) hklt
  · rw [hlen]
    exact hobtained

end Read

section Steps

variable (hpos : 0 < size.toNat) (hsize : size.toNat < 2 ^ 31)

theorem write_reader (h : Flow size A B p) (bytes : List UInt8) :
    Flow size A (B.write bytes) p := by
  obtain heq | ⟨-, put, -, -, -, heq⟩ := Side.write_cases (s := B) bytes
  · rw [heq]
    exact h
  · rw [heq]
    refine h.of_reader rfl rfl rfl rfl ?_ rfl
    simp [Side.sending, Side.put, Side.postRDMAWrite, Side.makeImm, Side.fill, Send.buffer?]

include hsize in
theorem postFC (h : Flow size A B p) (hsending : B.postFC.sending = B.sending ++ [.fc B.report]) :
    Flow size A B.postFC p := by
  have hposted := h.posted
  have harrived := h.arrived
  have hread := h.read
  have hreported := h.reported
  have hsink := h.sink_fits
  refine { h with reported := ?_ }
  have hofNat : (BitVec.ofNat 32 B.readBytes).toNat = B.readBytes := by
    rw [BitVec.toNat_ofNat]
    exact Nat.mod_eq_of_lt (by omega)
  rw [hsending]
  simp only [Side.postFC, Side.postMessage, Side.getBuffer, Side.report, List.map_append,
    List.sum_append, List.map_cons, List.map_nil, List.sum_cons, List.sum_nil, Message.reported,
    hofNat]
  omega

section Pooled

variable {num : ℕ} {free : List ℕ} (hnum : 2 * num < 2 ^ 64)
include hnum

include hpos hsize in
theorem readSync (h : Flow size A B p) (hpooled : B.Pooled num free) {bytes : ℕ}
    (hspare : B.PostsFC bytes → B.msgbuf.isEmpty = false) : Flow size A (B.readSync bytes) p := by
  obtain heq | heq | ⟨-, taken, -, htaken, ⟨-, hposts, heq⟩ | ⟨-, heq⟩⟩ :=
    Side.readSync_cases (s := B) bytes
  · rw [heq]
    exact h
  · rw [heq]
    exact { h with }
  · obtain ⟨buffer, free', rfl⟩ := hpooled.exists_free hnum (hspare hposts)
    have hposted : (B.take taken).Pooled num (buffer :: free') := { hpooled with }
    rw [heq]
    exact (h.take_reader hpos hsize htaken).postFC hsize (hposted.postFC_messages hnum).1
  · rw [heq]
    exact h.take_reader hpos hsize htaken

theorem readSync_writer (h : Flow size A B p) (hpooled : A.Pooled num free) {bytes : ℕ}
    (hspare : A.PostsFC bytes → A.msgbuf.isEmpty = false) :
    Flow size (A.readSync bytes) B p := by
  obtain heq | heq | ⟨-, taken, -, -, ⟨-, hposts, heq⟩ | ⟨-, heq⟩⟩ :=
    Side.readSync_cases (s := A) bytes
  · rw [heq]
    exact h
  · rw [heq]
    exact { h with }
  · obtain ⟨buffer, free', rfl⟩ := hpooled.exists_free hnum (hspare hposts)
    have hposted : (A.take taken).Pooled num (buffer :: free') := { hpooled with }
    rw [heq]
    exact h.of_writer rfl rfl rfl rfl rfl (Or.inr ⟨_, rfl⟩) rfl (hposted.postFC_messages hnum).2
  · rw [heq]
    exact { h with }

include hpos in
omit hnum in
theorem complete_writer (h : Flow size A B p) (hpooled : A.Pooled num free)
    {completion : Completion} {cq : List Completion} (hcq : A.cq = completion :: cq) :
    ∃ p', Flow size (Side.complete { A with cq } completion) B p' := by
  have hcompleted := h.completed
  have hreported := h.reported
  have hreceived := (hpooled.complete_messages hcq).2
  rw [hcq, List.map_cons, List.sum_cons] at hcompleted
  cases completion with
  | recvRDMAWithImm imm buffer =>
      refine ⟨p, h.of_writer rfl rfl rfl rfl rfl (Or.inl rfl) ?_ hreceived.symm⟩
      rw [hcq, List.map_cons, List.sum_cons, Completion.completed, Nat.zero_add]
      rfl
  | recv buffer =>
      obtain ⟨payload, hpayload, hcomplete⟩ := hpooled.complete_recv hcq
      rw [hreceived, Completion.message?, Option.map_some, hpayload, Option.toList_some,
        List.singleton_append, List.map_cons, List.sum_cons, Message.reported,
        ← Nat.add_assoc] at hreported
      refine ⟨{ p with reported := p.reported + payload.bytesReceived.toNat }, ?_⟩
      rw [hcomplete] at hreported ⊢
      refine { h with rptr_tail := ?_, completed := ?_, reported := ?_, sink_fits := ?_ }
      · have hnum := h.rptr_num
        simp only [Side.freeBuffer, Side.recvFC, Ring.incrTail, hnum]
        exact h.rptr_tail.incr hpos
      · rw [Completion.completed] at hcompleted
        simp only [Side.freeBuffer, Side.recvFC]
        omega
      · exact hreported
      · have hfits := h.sink_fits
        simp only [Side.freeBuffer, Side.recvFC]
        omega
  | send buffer =>
      refine ⟨p, h.of_writer rfl rfl rfl rfl rfl (Or.inl rfl) ?_ hreceived.symm⟩
      rw [hcq, List.map_cons, List.sum_cons, Completion.completed, Nat.zero_add]
      rfl
  | rdmaWrite length =>
      refine ⟨{ p with completed := p.completed + length.toNat },
        { h with source_tail := ?_, completed := ?_, reported := ?_, source_fits := ?_ }⟩
      · have hnum := h.source_num
        simp only [Side.complete, Ring.incrTail, hnum]
        exact h.source_tail.incr hpos
      · rw [Completion.completed] at hcompleted
        simp only [Side.complete]
        omega
      · rw [hreceived] at hreported
        exact hreported
      · have hfits := h.source_fits
        simp only [Side.complete]
        omega

include hpos in
omit hnum in
theorem complete_reader (h : Flow size A B p) (hpooled : B.Pooled num free)
    {completion : Completion} {cq : List Completion} (hcq : B.cq = completion :: cq) :
    ∃ p', Flow size A (Side.complete { B with cq } completion) p' := by
  have harrived := h.arrived
  have hread := h.read
  have hsending := (hpooled.complete_messages hcq).1
  rw [hcq, List.map_cons, List.sum_cons] at harrived
  cases completion with
  | recvRDMAWithImm imm buffer =>
      refine ⟨{ p with arrived := p.arrived + imm.bytesSent.toNat },
        { h with sink_head := ?_, arrived := ?_, read := ?_, reported := ?_ }⟩
      · have hnum := h.sink_num
        have himm : (imm.bytesSent.setWidth 32).toNat = imm.bytesSent.toNat := by
          have hlt := imm.bytesSent.isLt
          rw [BitVec.toNat_setWidth]
          exact Nat.mod_eq_of_lt (by omega)
        simp only [Side.complete, Side.freeBuffer, Side.recvRDMAWrite, Ring.incrHead, hnum]
        rw [← himm]
        exact h.sink_head.incr hpos
      · rw [Completion.arrived] at harrived
        simp only [Side.complete, Side.freeBuffer, Side.recvRDMAWrite]
        omega
      · simp only [Side.complete, Side.freeBuffer, Side.recvRDMAWrite]
        omega
      · rw [hsending]
        exact h.reported
  | recv buffer =>
      obtain ⟨payload, -, hcomplete⟩ := hpooled.complete_recv hcq
      rw [hcomplete] at hsending ⊢
      refine ⟨p, h.of_reader rfl rfl rfl rfl hsending ?_⟩
      rw [hcq, List.map_cons, List.sum_cons, Completion.arrived, Nat.zero_add]
      rfl
  | send buffer =>
      refine ⟨p, h.of_reader rfl rfl rfl rfl hsending ?_⟩
      rw [hcq, List.map_cons, List.sum_cons, Completion.arrived, Nat.zero_add]
      rfl
  | rdmaWrite length =>
      refine ⟨p, h.of_reader rfl rfl rfl rfl hsending ?_⟩
      rw [hcq, List.map_cons, List.sum_cons, Completion.arrived, Nat.zero_add]
      rfl

include hpos in
theorem checkCQ_writer (h : Flow size A B p) (hpooled : A.Pooled num free) (count : ℕ) :
    ∃ p', Flow size (A.checkCQ count) B p' := by
  obtain ⟨-, p', h'⟩ := Side.completions_invariant
    (fun s => (∃ free, s.Pooled num free) ∧ ∃ p', Flow size s B p')
    (by
      rintro s completion cq ⟨⟨free, hs⟩, p', h'⟩ hcq
      exact ⟨⟨_, hs.complete hnum hcq⟩, h'.complete_writer hpos hs hcq⟩)
    (min count A.depth) (s := { A with numRecvs := 0 })
    ⟨⟨free, { hpooled with }⟩, p, { h with }⟩
  obtain ⟨msgbuf, receives, reused, heq⟩ := Side.checkCQ_eq A count
  exact ⟨p', heq ▸ { h' with }⟩

include hpos in
theorem checkCQ_reader (h : Flow size A B p) (hpooled : B.Pooled num free) (count : ℕ) :
    ∃ p', Flow size A (B.checkCQ count) p' := by
  obtain ⟨-, p', h'⟩ := Side.completions_invariant
    (fun s => (∃ free, s.Pooled num free) ∧ ∃ p', Flow size A s p')
    (by
      rintro s completion cq ⟨⟨free, hs⟩, p', h'⟩ hcq
      exact ⟨⟨_, hs.complete hnum hcq⟩, h'.complete_reader hpos hs hcq⟩)
    (min count B.depth) (s := { B with numRecvs := 0 })
    ⟨⟨free, { hpooled with }⟩, p, { h with }⟩
  obtain ⟨msgbuf, receives, reused, heq⟩ := Side.checkCQ_eq B count
  exact ⟨p', heq ▸ { h' with }⟩

end Pooled

variable {sent : Sent} {unacked : List Sent}

theorem acknowledge_writer (h : Flow size A B p) (hunacked : A.unacked = sent :: unacked) :
    Flow size { A with unacked, cq := A.cq ++ [sent.completion] } B p := by
  have hcompleted := h.completed
  rw [hunacked] at hcompleted
  refine { h with completed := ?_, reported := ?_ }
  · cases sent <;>
      simp only [Sent.completion, List.map_cons, List.sum_cons, List.map_append, List.sum_append,
        List.map_nil, List.sum_nil, Sent.bytes, Completion.completed] at hcompleted ⊢ <;>
      omega
  · rw [(Side.Pooled.acknowledge_messages _ _ _).2]
    exact h.reported

theorem acknowledge_reader (h : Flow size A B p) :
    Flow size A { B with unacked, cq := B.cq ++ [sent.completion] } p := by
  refine h.of_reader rfl rfl rfl rfl rfl ?_
  cases sent <;> simp [Sent.completion, Completion.arrived]

end Steps

section Deliver

variable {send : Send} {posted : List Send} {receives : List ℕ} {buffer num : ℕ} {free : List ℕ}

/-- The oldest send of the writer is carried out: the region of the source goes to the same place
in the sink, which has nothing there that is still to be read. -/
theorem deliver_writer (h : Flow size A B p) (hposted : A.posted = send :: posted)
    (hpooled : B.Pooled num free) (hreceives : B.receives = buffer :: receives) :
    ∃ p', Flow size { A with posted, unacked := A.unacked ++ [send.sent] }
      { B with
        receives
        sinkbuf := send.transfer A B
        msgs := send.copy A B buffer
        cq := B.cq ++ [send.arrival buffer] } p' := by
  have hsending := (hpooled.deliver_messages send A (send.transfer A B) hreceives).1
  have hsum := h.posted
  have hlaid := h.laid
  have hcompleted := h.completed
  have harrived := h.arrived
  have hreported := h.reported
  rw [← hsending] at hreported
  rw [hposted] at hlaid hsum
  rw [List.map_cons, List.sum_cons] at hsum
  cases send with
  | message source =>
      refine ⟨p,
        { h with
          posted := ?_, completed := ?_, arrived := ?_, laid := hlaid, reported := hreported }⟩
      · rw [Send.bytes, Nat.zero_add] at hsum
        exact hsum
      · simp only [Send.sent, List.map_append, List.sum_append, List.map_cons, List.map_nil,
          List.sum_cons, List.sum_nil, Sent.bytes]
        omega
      · simp only [Send.arrival, List.map_append, List.sum_append, List.map_cons, List.map_nil,
          List.sum_cons, List.sum_nil, Completion.arrived]
        omega
  | write source length target imm =>
      obtain ⟨hsource, htarget, hend, himm, hrest⟩ := hlaid
      have hsink := h.sink_fits
      have hread := h.read
      rw [Send.bytes] at hsum
      have hdata : A.sourcebuf.load A.source.num.toNat source.toNat length.toNat =
          (A.accepted.drop p.delivered).take length.toNat := by
        rw [hsource, h.source_num, Memory.load_mod]
        apply Memory.load_eq (by omega)
        intro k hk hklt
        exact h.sourcebuf k hk (by omega)
      have hlen : ((A.accepted.drop p.delivered).take length.toNat).length = length.toNat := by
        rw [List.length_take, List.length_drop]
        omega
      refine ⟨{ p with delivered := p.delivered + length.toNat },
        { h with
          posted := ?_, completed := ?_, arrived := ?_, sourcebuf := ?_, sinkbuf := ?_,
          laid := hrest, reported := hreported }⟩
      · simp only
        omega
      · simp only [Send.sent, List.map_append, List.sum_append, List.map_cons, List.map_nil,
          List.sum_cons, List.sum_nil, Sent.bytes]
        omega
      · simp only [Send.arrival, List.map_append, List.sum_append, List.map_cons, List.map_nil,
          List.sum_cons, List.sum_nil, Completion.arrived]
        omega
      · intro k hk hklt
        exact h.sourcebuf k (by simp only at hk; omega) hklt
      · intro k hk hklt
        simp only at hk hklt ⊢
        rw [Send.transfer, hdata, htarget, h.sink_num, Memory.store_mod]
        rcases lt_or_ge k p.delivered with hold | hnew
        · rw [Memory.store_before hold (by rw [hlen]; omega)]
          exact h.sinkbuf k hk hold
        · obtain ⟨j, rfl⟩ := Nat.exists_eq_add_of_le hnew
          rw [Memory.store_at (by rw [hlen]; omega) (by rw [hlen]; omega), List.getElem_take,
            List.getElem_drop, List.getElem?_eq_getElem]

theorem deliver_reader (h : Flow size A B p) (hposted : B.posted = send :: posted)
    (hpooled : A.Pooled num free) (hreceives : A.receives = buffer :: receives) :
    Flow size
      { A with
        receives
        sinkbuf := send.transfer B A
        msgs := send.copy B A buffer
        cq := A.cq ++ [send.arrival buffer] }
      { B with posted, unacked := B.unacked ++ [send.sent] } p := by
  have hreceived := (hpooled.deliver_messages send B (send.transfer B A) hreceives).2
  have hreported := h.reported
  have hcompleted := h.completed
  rw [Side.Pooled.sending_of_posted hposted (B.unacked ++ [send.sent]),
    List.map_append, List.sum_append, ← Nat.add_assoc] at hreported
  refine { h with completed := ?_, reported := ?_ }
  · cases send <;>
      simp only [Send.arrival, List.map_append, List.sum_append, List.map_cons, List.map_nil,
        List.sum_cons, List.sum_nil, Completion.completed] <;> omega
  · rw [hreceived, List.map_append, List.sum_append, ← Nat.add_assoc]
    exact hreported

end Deliver

end Flow

namespace Side

variable (s : Side)

/-- The bytes that are posted and not yet written into the sink of the peer. -/
def inFlight : ℕ := (s.posted.map Send.bytes).sum

/-- The bytes in the sink that are still to be read, whether or not their arrival has been
noticed. -/
def unread : ℕ := s.sink.available.toNat + (s.cq.map Completion.arrived).sum

end Side

/-- The bytes read at `B` that are not yet reported to `A`. -/
def unreported (A B : Side) : ℕ :=
  B.readBytes + (B.sending.map Message.reported).sum + (A.received.map Message.reported).sum

/-- The stream from `A` to `B` is whole and nothing in the sink is overwritten before it is
read. -/
structure Intact (size : U32) (A B : Side) : Prop where
  stream : B.obtained <+: A.accepted
  no_overwrite : ∀ source length target imm, .write source length target imm ∈ A.posted →
    ∀ i < length.toNat, ∀ j < B.unread,
      target.toNat + i ≠ ((B.sink.tail.ptr size).toNat + j) % size.toNat
  view : A.rptr.available.toNat = A.inFlight + B.unread + unreported A B
  fits : A.rptr.available.toNat ≤ size.toNat

theorem Laid.target {size : ℕ} {sends : List Send} {n : ℕ} (h : Laid size n sends)
    {source length target : U32} {imm : FCImm}
    (hmem : .write source length target imm ∈ sends) :
    ∃ m, n ≤ m ∧ m + length.toNat ≤ n + (sends.map Send.bytes).sum ∧ target.toNat = m % size ∧
      m % size + length.toNat ≤ size := by
  induction sends generalizing n with
  | nil => exact absurd hmem List.not_mem_nil
  | cons send sends ih =>
      rw [List.map_cons, List.sum_cons]
      rcases List.mem_cons.1 hmem with rfl | hrestMem
      · obtain ⟨-, htarget, hend, -, -⟩ := h
        exact ⟨n, le_rfl, by rw [Send.bytes]; omega, htarget, hend⟩
      · cases send with
        | write source' length' target' imm' =>
            obtain ⟨-, -, -, -, hrest⟩ := h
            obtain ⟨m, hle, hsum, htarget⟩ := ih hrest hrestMem
            exact ⟨m, by omega, by rw [Send.bytes]; omega, htarget⟩
        | message buffer =>
            obtain ⟨m, hle, hsum, htarget⟩ := ih h hrestMem
            exact ⟨m, hle, by omega, htarget⟩

theorem Flow.intact {size : U32} {A B : Side} {p : Progress} (h : Flow size A B p)
    (hpos : 0 < size.toNat) (hsize : size.toNat < 2 ^ 31) : Intact size A B := by
  have hposted := h.posted
  have harrived := h.arrived
  have hread := h.read
  have hreported := h.reported
  have hsink := h.sink_fits
  have hview : A.rptr.available.toNat = A.accepted.length - p.reported := by
    apply Ring.available_toNat
    · rw [h.rptr_num]; exact h.rptr_head
    · rw [h.rptr_num]; exact h.rptr_tail
    · omega
    · rw [h.rptr_num]; exact hsink
  refine ⟨List.prefix_iff_eq_take.2 h.obtained, ?_, ?_, ?_⟩
  · intro source length target imm hmem i hi j hj
    obtain ⟨m, hle, hsum, htarget, hend⟩ := h.laid.target hmem
    rw [Side.unread, h.sink_available] at hj
    have htail := h.tail_ptr hpos hsize
    rw [h.sink_num] at htail
    have hindex : target.toNat + i = (m + i) % size.toNat := by
      rw [← Nat.mod_add_mod, Nat.mod_eq_of_lt (by omega), htarget]
    rw [hindex, htail, Nat.mod_add_mod]
    exact Memory.mod_ne_mod (by omega) (by omega)
  · rw [hview, Side.inFlight, Side.unread, unreported, h.sink_available]
    omega
  · rw [hview]
    omega

namespace World

def Linked (size : U32) (w : World) : Prop := ∀ e, ∃ p, Flow size (w e) (w e.peer) p

variable {size : U32} {depth : ℕ} {w w' : World}

theorem linked_established (h : ∀ e, (w e).Established depth size) : Linked size w := by
  intro e
  have ha := h e
  have hb := h e.peer
  have hunacked : ((w e).unacked.map Sent.bytes).sum = 0 := by
    obtain ⟨free, setup, hunacked, -⟩ := ha.buffers
    simp [hunacked, Sent.bytes]
  refine ⟨⟨0, 0, 0, 0⟩, ?_⟩
  constructor <;>
    simp only [ha.source, ha.rptr, hb.sink, ha.accepted, hb.obtained, ha.posted, hb.posted, ha.cq,
      hb.cq, hb.readBytes, hunacked, Side.sending, Side.received, Ring.clear, List.length_nil,
      List.filterMap_nil, List.map_nil, List.sum_nil, Nat.add_zero]
  case source_head => exact RingPtr.counts_clear size
  case source_middle => exact RingPtr.counts_clear size
  case source_tail => exact RingPtr.counts_clear size
  case rptr_head => exact RingPtr.counts_clear size
  case rptr_tail => exact RingPtr.counts_clear size
  case sink_head => exact RingPtr.counts_clear size
  case sink_tail => exact RingPtr.counts_clear size
  case read => exact le_rfl
  case source_fits => exact Nat.zero_le _
  case sink_fits => exact Nat.zero_le _
  case sourcebuf => exact fun k _ hk => absurd hk (Nat.not_lt_zero k)
  case sinkbuf => exact fun k _ hk => absurd hk (Nat.not_lt_zero k)
  case obtained => rfl
  case laid => trivial

theorem Linked.update (h : Linked size w) (e : End) {s : Side}
    (hwriter : ∀ B p, Flow size (w e) B p → ∃ p', Flow size s B p')
    (hreader : ∀ A p, Flow size A (w e) p → ∃ p', Flow size A s p') :
    Linked size (Function.update w e s) := by
  intro x
  obtain ⟨p, hx⟩ := h x
  cases e <;> cases x
  · exact hwriter _ p hx
  · exact hreader _ p hx
  · exact hreader _ p hx
  · exact hwriter _ p hx

theorem linked_step (hpos : 0 < size.toNat) (hsize : size.toNat < 2 ^ 31) (hdepth : depth < 2 ^ 31)
    {event : Event} (hstored : Stored depth w) (hspare : Spare w event) (h : Linked size w)
    (hstep : w.step event = some w') : Linked size w' := by
  have hnum : 2 * (2 * depth) < 2 ^ 64 := by omega
  cases event with
  | write e bytes =>
      cases hstep
      exact h.update e (fun B p hf => ⟨p, hf.write hpos hsize bytes⟩)
        (fun A p hf => ⟨p, hf.write_reader bytes⟩)
  | readSync e bytes =>
      cases hstep
      obtain ⟨free, hpooled⟩ := hstored e
      exact h.update e (fun B p hf => ⟨p, hf.readSync_writer hnum hpooled hspare⟩)
        (fun A p hf => ⟨p, hf.readSync hpos hsize hnum hpooled hspare⟩)
  | checkCQ e count =>
      cases hstep
      obtain ⟨free, hpooled⟩ := hstored e
      exact h.update e (fun B p hf => hf.checkCQ_writer hpos hnum hpooled count)
        (fun A p hf => hf.checkCQ_reader hpos hnum hpooled count)
  | deliver e =>
      obtain ⟨send, posted, buffer, receives, hposted, hreceives, hsender, hreceiver⟩ :=
        deliver_cases hstep
      obtain ⟨free, hpooled⟩ := hstored e.peer
      have hwriter : ∃ p, Flow size (w' e) (w' e.peer) p := by
        obtain ⟨p, hf⟩ := h e
        rw [hsender, hreceiver]
        exact hf.deliver_writer hposted hpooled hreceives
      have hreader : ∃ p, Flow size (w' e.peer) (w' e.peer.peer) p := by
        obtain ⟨p, hf⟩ := h e.peer
        rw [End.peer_peer] at hf ⊢
        rw [hsender, hreceiver]
        exact ⟨p, hf.deliver_reader hposted hpooled hreceives⟩
      intro x
      cases e <;> cases x
      · exact hwriter
      · exact hreader
      · exact hreader
      · exact hwriter
  | acknowledge e =>
      obtain ⟨sent, unacked, hunacked, rfl⟩ := acknowledge_cases hstep
      exact h.update e (fun B p hf => ⟨p, hf.acknowledge_writer hunacked⟩)
        (fun A p hf => ⟨p, hf.acknowledge_reader⟩)

theorem linked_run (hpos : 0 < size.toNat) (hsize : size.toNat < 2 ^ 31) (hdepth : depth < 2 ^ 31)
    {events : List Event} (hspare : Machine.Steps World.step Spare w events)
    (hrun : Machine.run World.step w events = some w') (hstored : Stored depth w)
    (hlinked : Linked size w) : Stored depth w' ∧ Linked size w' := by
  refine Machine.run_invariant (fun w => Stored depth w ∧ Linked size w) ?_ ⟨hstored, hlinked⟩
    hspare hrun
  rintro w event w' ⟨hstored, hlinked⟩ hspare hstep
  exact ⟨stored_step hdepth hstored hspare hstep,
    linked_step hpos hsize hdepth hstored hspare hlinked hstep⟩

/-- In every run of two connected ends with rings of the same size in which the reports find free
message buffers, both streams stay intact. -/
theorem streams_intact (hpos : 0 < size.toNat) (hsize : size.toNat < 2 ^ 31) (hdepth : depth < 2 ^ 31)
    (hstart : ∀ e, (w e).Established depth size) {events : List Event}
    (hspare : Machine.Steps World.step Spare w events)
    (hrun : Machine.run World.step w events = some w') (e : End) :
    Intact size (w' e) (w' e.peer) := by
  obtain ⟨p, hf⟩ := (linked_run hpos hsize hdepth hspare hrun (stored_established hstart)
    (linked_established hstart)).2 e
  exact hf.intact hpos hsize

/-- Six bytes go through a ring of four. -/
theorem streams_intact_around :
    ∃ w', Machine.run World.step (fun _ => Side.connect 8 4)
      [.write .initiator [1, 2, 3], .deliver .initiator, .checkCQ .target 2, .readSync .target 9,
        .acknowledge .initiator, .acknowledge .initiator, .deliver .target, .checkCQ .initiator 5,
        .write .initiator [4, 5, 6], .write .initiator [5, 6], .deliver .initiator,
        .deliver .initiator, .checkCQ .target 2, .readSync .target 9] = some w' ∧
      (w' .target).obtained = [1, 2, 3, 4, 5, 6] ∧ Intact 4 (w' .initiator) (w' .target) := by
  have hrun : (Machine.run World.step (fun _ => Side.connect 8 4)
      [.write .initiator [1, 2, 3], .deliver .initiator, .checkCQ .target 2, .readSync .target 9,
        .acknowledge .initiator, .acknowledge .initiator, .deliver .target, .checkCQ .initiator 5,
        .write .initiator [4, 5, 6], .write .initiator [5, 6], .deliver .initiator,
        .deliver .initiator, .checkCQ .target 2, .readSync .target 9]).map
      (fun w => (w .target).obtained) = some [1, 2, 3, 4, 5, 6] := by
    decide +kernel
  obtain ⟨w', hrun, hobtained⟩ := Option.map_eq_some_iff.1 hrun
  refine ⟨w', hrun, hobtained, ?_⟩
  exact streams_intact (by decide) (by decide) (by decide)
    (fun _ => Side.established_connect (by decide) (by decide) 4) (by decide +kernel) hrun
    .initiator

/-- A byte is written, read and reported. The target is not told that its report is complete. -/
def lateRound : List Event :=
  [.write .initiator [0], .deliver .initiator, .checkCQ .target 1, .readSync .target 1,
    .deliver .target, .checkCQ .initiator 1]

/-- After five reports the target has no free buffer left. The seventh report goes into the buffer
of the first one, and is lost when the completion of the first one frees that buffer. -/
def lateRun : List Event :=
  lateRound ++ lateRound ++ lateRound ++ lateRound ++ lateRound ++ lateRound ++
    [.write .initiator [0], .deliver .initiator, .checkCQ .target 1, .readSync .target 1,
      .acknowledge .target, .acknowledge .target, .checkCQ .target 2, .deliver .target,
      .checkCQ .initiator 1]

/-- The initiator never learns that its last byte has been read. -/
theorem report_lost :
    ¬ ∀ events w', Machine.run World.step (fun _ => Side.connect 6 8) events = some w' →
      ∀ e : End, Intact 8 (w' e) (w' e.peer) := by
  intro hintact
  have hrun : (Machine.run World.step (fun _ => Side.connect 6 8) lateRun).map (fun w =>
      ((w .initiator).rptr.available.toNat, (w .initiator).inFlight, (w .target).unread,
        unreported (w .initiator) (w .target))) = some (1, 0, 0, 0) := by
    decide +kernel
  obtain ⟨w', hrun, hview⟩ := Option.map_eq_some_iff.1 hrun
  simp only [Prod.mk.injEq] at hview
  obtain ⟨havailable, hflight, hunread, hunreported⟩ := hview
  have hsum := (hintact lateRun w' hrun .initiator).view
  rw [End.peer, havailable, hflight, hunread, hunreported] at hsum
  exact absurd hsum (by decide)

end World

end Collage.Rdma
