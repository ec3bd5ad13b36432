import Collage.Rdma.Starved

/-!
# The remote region

Each side configures the size of its own rings and learns the size of the remote sink in the setup
message. A write is bounded by the free space of both rings, and by the end of the local one only,
so that it stays inside the remote region if the local size divides the remote one.
-/

namespace Collage.Rdma

/-- An RDMA write reads a part of the local source region and addresses a part of the remote
region. -/
def Send.Inside (source region : ℕ) : Send → Prop
  | write start length target _ =>
      start.toNat + length.toNat ≤ source ∧ target.toNat + length.toNat ≤ region
  | message _ => True

/-- The size of the local ring divides the one of the remote ring. Rings of the same size may be as
large as the counters allow, others of four gibibytes together. -/
def Fits (size region : U32) : Prop :=
  size = region ∨ size.toNat ∣ region.toNat ∧ size.toNat + region.toNat ≤ 2 ^ 32

namespace RingPtr

/-- The distance to the end of a ring is not larger than the one to the end of a ring of a multiple
of its size. -/
theorem Counts.ptr_le_of_dvd {size region : U32} {p q : RingPtr 32} {n : ℕ}
    (hp : Counts size p n) (hq : Counts region q n) (hpos : 0 < size.toNat)
    (hregion : 0 < region.toNat) (hne : size ≠ region) (hdvd : size.toNat ∣ region.toNat)
    (hsum : size.toNat + region.toNat ≤ 2 ^ 32) :
    (q.ptr region).toNat + (size.toNat - (p.ptr size).toNat) ≤ region.toNat := by
  obtain ⟨k, hk⟩ := hdvd
  have htwice : 2 * size.toNat ≤ region.toNat := by
    have hone : k ≠ 1 := by
      rintro rfl
      exact hne (BitVec.eq_of_toNat_eq (by omega))
    have hzero : k ≠ 0 := by
      rintro rfl
      omega
    rw [hk, Nat.mul_comm]
    exact Nat.mul_le_mul_left _ (by omega)
  have hvalue : n % 2 ^ 32 % region.toNat < region.toNat := Nat.mod_lt _ hregion
  have hadjust : 2 ^ 32 * (n / 2 ^ 32) % region.toNat < region.toNat := Nat.mod_lt _ hregion
  rcases lt_or_ge (n % 2 ^ 32 % region.toNat + 2 ^ 32 * (n / 2 ^ 32) % region.toNat) (2 ^ 32)
    with hlt | hge
  · have hq' : (q.ptr region).toNat = n % region.toNat := by
      rw [RingPtr.ptr, BitVec.toNat_umod, BitVec.toNat_add, BitVec.toNat_umod, hq.value, hq.adjust,
        Nat.mod_eq_of_lt hlt, ← Nat.add_mod, Nat.mod_add_div]
    have hp' : (p.ptr size).toNat = n % region.toNat % size.toNat := by
      rw [hp.ptr hpos (by omega), Nat.mod_mod_of_dvd _ ⟨k, hk⟩]
    have hmod : n % region.toNat < region.toNat := Nat.mod_lt _ hregion
    have hround : size.toNat * (n % region.toNat / size.toNat) + size.toNat ≤ region.toNat := by
      have hdiv : n % region.toNat / size.toNat < k := Nat.div_lt_of_lt_mul (hk ▸ hmod)
      calc size.toNat * (n % region.toNat / size.toNat) + size.toNat
          = size.toNat * (n % region.toNat / size.toNat + 1) := (Nat.mul_succ _ _).symm
        _ ≤ size.toNat * k := Nat.mul_le_mul_left _ hdiv
        _ = region.toNat := hk.symm
    have hsplit := Nat.mod_add_div (n % region.toNat) size.toNat
    rw [hq', hp']
    omega
  · have hq' : (q.ptr region).toNat ≤ n % 2 ^ 32 % region.toNat +
        2 ^ 32 * (n / 2 ^ 32) % region.toNat - 2 ^ 32 := by
      rw [RingPtr.ptr, BitVec.toNat_umod, BitVec.toNat_add, BitVec.toNat_umod, hq.value, hq.adjust,
        Nat.mod_eq_sub_mod hge, Nat.mod_eq_of_lt (a := _ - 2 ^ 32) (by omega)]
      exact Nat.mod_le _ _
    omega

end RingPtr

namespace Side

theorem put_eq {s : Side} (hmiddle : s.source.middle = s.source.head) (bytes : List UInt8) :
    ∃ imm sourcebuf fcs truncated,
      imm.bytesSent = (BitVec.ofNat 32 bytes.length).setWidth 28 ∧
      s.put bytes =
        { s with
          sourcebuf, fcs, truncated
          source :=
            { s.source with
              head := s.source.head.incr s.source.num (BitVec.ofNat 32 bytes.length)
              middle := s.source.head.incr s.source.num (BitVec.ofNat 32 bytes.length) }
          rptr := s.rptr.incrHead (BitVec.ofNat 32 bytes.length)
          wcredits := s.wcredits - 1
          posted := s.posted ++
            [Send.write (s.source.head.ptr s.source.num) (BitVec.ofNat 32 bytes.length)
              (s.rptr.head.ptr s.rptr.num) imm]
          accepted := s.accepted ++ bytes } := by
  have hlength : (s.source.head.incr s.source.num (BitVec.ofNat 32 bytes.length)).value -
      s.source.head.value = BitVec.ofNat 32 bytes.length := by
    rw [RingPtr.incr, BitVec.add_comm, BitVec.add_sub_cancel]
  refine ⟨((s.fill bytes).makeImm (BitVec.ofNat 32 bytes.length)).1, (s.fill bytes).sourcebuf,
    ((s.fill bytes).makeImm (BitVec.ofNat 32 bytes.length)).2.fcs,
    ((s.fill bytes).makeImm (BitVec.ofNat 32 bytes.length)).2.truncated, rfl, ?_⟩
  simp only [put, postRDMAWrite, fill, makeImm, Ring.incrHead, Ring.incrMiddle, hmiddle, hlength]

/-- No message that is under way is a setup message, whatever becomes of the buffers. -/
def Plain (s : Side) : Prop :=
  ∀ message ∈ s.sending ++ s.received, ∀ rlen, message ≠ .setup rlen

namespace Plain

variable {s s' : Side}

theorem of_update (h : s.Plain) {buffer : ℕ} {new : Message} (hnew : ∀ rlen, new ≠ .setup rlen)
    (hmsgs : s'.msgs = Function.update s.msgs buffer new)
    (hposted : ∀ other ∈ s'.posted.filterMap Send.buffer?,
      other ∈ s.posted.filterMap Send.buffer? ∨ other = buffer)
    (hcq : ∀ other ∈ s'.cq.filterMap Completion.message?,
      other ∈ s.cq.filterMap Completion.message? ∨ other = buffer) : s'.Plain := by
  have hold : ∀ other, other ∈ s.posted.filterMap Send.buffer? ∨
      other ∈ s.cq.filterMap Completion.message? ∨ other = buffer →
      ∀ rlen, Function.update s.msgs buffer new other ≠ .setup rlen := by
    intro other hother
    rcases eq_or_ne other buffer with rfl | hne
    · rw [Function.update_self]
      exact hnew
    · rw [Function.update_of_ne hne]
      refine h _ ?_
      rcases hother with hother | hother | hother
      · exact List.mem_append_left _ (List.mem_map_of_mem hother)
      · exact List.mem_append_right _ (List.mem_map_of_mem hother)
      · exact absurd hother hne
  intro message hmessage
  rw [sending, received, hmsgs] at hmessage
  rcases List.mem_append.1 hmessage with hmem | hmem <;> obtain ⟨other, hother, rfl⟩ :=
    List.mem_map.1 hmem
  · rcases hposted other hother with hother | hother
    · exact hold other (Or.inl hother)
    · exact hold other (Or.inr (Or.inr hother))
  · rcases hcq other hother with hother | hother
    · exact hold other (Or.inr (Or.inl hother))
    · exact hold other (Or.inr (Or.inr hother))

theorem write (h : s.Plain) (bytes : List UInt8) : (s.write bytes).Plain := by
  obtain heq | ⟨-, put, -, -, -, heq⟩ := write_cases (s := s) bytes
  · rw [heq]
    exact h
  · have hsending : (s.put put).sending = s.sending := by
      simp [sending, Side.put, postRDMAWrite, makeImm, fill, Send.buffer?]
    rw [heq, Plain, hsending]
    exact h

theorem postFC (h : s.Plain) : s.postFC.Plain := by
  refine h.of_update (fun rlen => Message.noConfusion) rfl ?_ fun other hother => Or.inl hother
  intro other hother
  simp only [Side.postFC, postMessage, getBuffer, List.filterMap_append, List.filterMap_cons,
    List.filterMap_nil, Send.buffer?, List.mem_append, List.mem_singleton] at hother
  exact hother

theorem readSync (h : s.Plain) (bytes : ℕ) : (s.readSync bytes).Plain := by
  obtain heq | heq | ⟨-, taken, -, -, ⟨-, -, heq⟩ | ⟨-, heq⟩⟩ := readSync_cases (s := s) bytes <;>
    rw [heq]
  · exact h
  · exact h
  · exact postFC (s := s.take taken) h
  · exact h

theorem complete (h : s.Plain) {completion : Completion} {cq : List Completion}
    (hcq : s.cq = completion :: cq) : (Side.complete { s with cq } completion).Plain := by
  have htail : ∀ other ∈ cq.filterMap Completion.message?,
      other ∈ s.cq.filterMap Completion.message? := by
    intro other hother
    rw [hcq]
    obtain ⟨c, hc, hmessage⟩ := List.mem_filterMap.1 hother
    exact List.mem_filterMap.2 ⟨c, List.mem_cons_of_mem _ hc, hmessage⟩
  cases hbuffer : completion.buffer? with
  | none =>
      obtain ⟨length, rfl⟩ := Pooled.eq_rdmaWrite_of_buffer hbuffer
      intro message hmessage
      refine h message ?_
      rcases List.mem_append.1 hmessage with hmem | hmem
      · exact List.mem_append_left _ hmem
      · obtain ⟨other, hother, rfl⟩ := List.mem_map.1 hmem
        exact List.mem_append_right _ (List.mem_map_of_mem (htail other hother))
  | some buffer =>
      obtain ⟨sink, availBytes, fcredits, writes, rptr, wcredits, fcs, numRecvs, heq, -⟩ :=
        complete_eq_of_buffer (s := { s with cq }) hbuffer
      rw [heq]
      exact h.of_update (fun rlen => Message.noConfusion) rfl (fun other hother => Or.inl hother)
        fun other hother => Or.inl (htail other hother)

theorem checkCQ (h : s.Plain) (count : ℕ) : (s.checkCQ count).Plain :=
  checkCQ_invariant Plain (fun _ _ _ _ _ hs => hs) (fun _ _ _ hs hcq => hs.complete hcq) count h

section Deliver

variable {send : Send} {posted : List Send} {receives : List ℕ} {sinkbuf : Memory} {buffer : ℕ}

theorem deliver_sender (h : s.Plain) (hposted : s.posted = send :: posted) :
    Plain { s with posted, unacked := s.unacked ++ [send.sent] } := by
  intro message hmessage
  refine h message ?_
  rw [Pooled.sending_of_posted hposted (s.unacked ++ [send.sent]), List.append_assoc]
  exact List.mem_append_right _ hmessage

theorem deliver_receiver {peer : Side} (h : s.Plain) (hpeer : peer.Plain)
    (hposted : peer.posted = send :: posted) :
    Plain
      { s with
        receives, sinkbuf
        msgs := send.copy peer s buffer
        cq := s.cq ++ [send.arrival buffer] } := by
  cases send with
  | write source length target imm =>
      intro message hmessage
      refine h message ?_
      simpa only [sending, received, Send.copy, Send.arrival, List.filterMap_append,
        List.filterMap_cons, List.filterMap_nil, Completion.message?, List.append_nil] using hmessage
  | message source =>
      have hnew : ∀ rlen, peer.msgs source ≠ .setup rlen := by
        refine hpeer _ (List.mem_append_left _ ?_)
        rw [sending, hposted]
        exact List.mem_cons_self
      refine h.of_update hnew rfl (fun other hother => Or.inl hother) ?_
      intro other hother
      simpa only [Send.arrival, List.filterMap_append, List.filterMap_cons, List.filterMap_nil,
        Completion.message?, List.mem_append, List.mem_singleton] using hother

end Deliver

theorem acknowledge (h : s.Plain) (sent : Sent) (unacked : List Sent) :
    Plain { s with unacked, cq := s.cq ++ [sent.completion] } := by
  obtain ⟨hsending, hreceived⟩ := Pooled.acknowledge_messages s sent unacked
  rw [Plain, hsending, hreceived]
  exact h

end Plain

/-- The heads of the local and the remote ring have been advanced by the same number of bytes, and
everything that is posted is inside. -/
structure Aligned (size region : U32) (s : Side) : Prop where
  source_num : s.source.num = size
  rptr_num : s.rptr.num = region
  middle : s.source.middle = s.source.head
  counts : ∃ n, s.source.head.Counts size n ∧ s.rptr.head.Counts region n
  same : size = region → s.rptr.head = s.source.head
  inside : ∀ send ∈ s.posted, send.Inside size.toNat region.toNat

namespace Aligned

variable {size region : U32} {s s' : Side}

theorem of_eq (h : Aligned size region s) (hnum : s'.source.num = s.source.num)
    (hhead : s'.source.head = s.source.head) (hmiddle : s'.source.middle = s.source.middle)
    (hrptrNum : s'.rptr.num = s.rptr.num) (hrptr : s'.rptr.head = s.rptr.head)
    (hposted : ∀ send ∈ s'.posted, send ∈ s.posted ∨ ∃ buffer, send = .message buffer) :
    Aligned size region s' where
  source_num := hnum.trans h.source_num
  rptr_num := hrptrNum.trans h.rptr_num
  middle := by rw [hmiddle, hhead, h.middle]
  counts := by rw [hhead, hrptr]; exact h.counts
  same := fun hsame => by rw [hhead, hrptr, h.same hsame]
  inside := by
    intro send hsend
    obtain hold | ⟨buffer, rfl⟩ := hposted send hsend
    · exact h.inside send hold
    · trivial

/-- What fits in front of the end of the local ring fits in front of the end of the remote one. -/
theorem target_le (h : Aligned size region s) (hfits : Fits size region) (hpos : 0 < size.toNat)
    (hregion : 0 < region.toNat) :
    (s.rptr.head.ptr region).toNat + (size.toNat - (s.source.head.ptr size).toNat) ≤
      region.toNat := by
  by_cases hsame : size = region
  · subst hsame
    rw [h.same rfl]
    have hlt := s.source.head.ptr_lt hpos
    omega
  · obtain ⟨hdvd, hsum⟩ := hfits.resolve_left hsame
    obtain ⟨n, hsource, hrptr⟩ := h.counts
    exact hsource.ptr_le_of_dvd hrptr hpos hregion hsame hdvd hsum

theorem put (h : Aligned size region s) (hfits : Fits size region) (hpos : 0 < size.toNat)
    (hregion : 0 < region.toNat) {bytes : List UInt8} {offer : ℕ}
    (hlen : bytes.length ≤ s.fillSize offer) : Aligned size region (s.put bytes) := by
  obtain ⟨n, hsource, hrptr⟩ := h.counts
  have hptr := s.source.head.ptr_lt hpos
  have htarget := h.target_le hfits hpos hregion
  have hend : (s.source.num - s.source.head.ptr s.source.num).toNat =
      size.toNat - (s.source.head.ptr size).toNat := by
    rw [h.source_num]
    exact BitVec.toNat_sub_of_le hptr.le
  have hbound : bytes.length < 2 ^ 28 ∧
      bytes.length ≤ size.toNat - (s.source.head.ptr size).toNat := by
    rw [fillSize, hend, maxBS] at hlen
    omega
  have hlength : (BitVec.ofNat 32 bytes.length).toNat = bytes.length := by
    rw [BitVec.toNat_ofNat]
    exact Nat.mod_eq_of_lt (by omega)
  obtain ⟨imm, sourcebuf, fcs, truncated, -, hput⟩ := put_eq h.middle bytes
  rw [hput, h.source_num, h.rptr_num]
  constructor <;> simp only [Ring.incrHead]
  case source_num => exact h.source_num
  case rptr_num => exact h.rptr_num
  case counts =>
    refine ⟨n + bytes.length, hsource.incr_ofNat hpos (by omega), ?_⟩
    rw [h.rptr_num]
    exact hrptr.incr_ofNat hregion (by omega)
  case same =>
    intro hsame
    rw [h.rptr_num, h.same hsame, hsame]
  case inside =>
    intro send hsend
    rcases List.mem_append.1 hsend with hold | hnew
    · exact h.inside send hold
    · rw [List.mem_singleton] at hnew
      subst hnew
      rw [Send.Inside, hlength]
      omega

theorem write (h : Aligned size region s) (hfits : Fits size region) (hpos : 0 < size.toNat)
    (hregion : 0 < region.toNat) (bytes : List UInt8) : Aligned size region (s.write bytes) := by
  obtain heq | ⟨-, put, -, -, hlen, heq⟩ := write_cases (s := s) bytes
  · rw [heq]
    exact h
  · rw [heq]
    exact h.put hfits hpos hregion hlen

theorem readSync (h : Aligned size region s) (bytes : ℕ) :
    Aligned size region (s.readSync bytes) := by
  obtain heq | heq | ⟨-, taken, -, -, ⟨-, -, heq⟩ | ⟨-, heq⟩⟩ := readSync_cases (s := s) bytes <;>
    rw [heq]
  · exact h
  · exact h.of_eq rfl rfl rfl rfl rfl fun send hsend => Or.inl hsend
  · refine h.of_eq rfl rfl rfl rfl rfl ?_
    intro send hsend
    rcases List.mem_append.1 hsend with hold | hnew
    · exact Or.inl hold
    · exact Or.inr ⟨_, List.mem_singleton.1 hnew⟩
  · exact h.of_eq rfl rfl rfl rfl rfl fun send hsend => Or.inl hsend

theorem complete (h : Aligned size region s) (hplain : s.Plain) {completion : Completion}
    {cq : List Completion} (hcq : s.cq = completion :: cq) :
    Aligned size region (Side.complete { s with cq } completion) := by
  cases completion with
  | recv buffer =>
      have hreceived : s.msgs buffer ∈ s.received := by
        rw [received, hcq]
        exact List.mem_cons_self
      rw [Side.complete]
      cases hmessage : s.msgs buffer with
      | setup rlen =>
          exact absurd hmessage (hplain _ (List.mem_append_right _ hreceived) rlen)
      | fc payload => exact h.of_eq rfl rfl rfl rfl rfl fun send hsend => Or.inl hsend
      | invalid => exact h.of_eq rfl rfl rfl rfl rfl fun send hsend => Or.inl hsend
  | recvRDMAWithImm imm buffer =>
      exact h.of_eq rfl rfl rfl rfl rfl fun send hsend => Or.inl hsend
  | send buffer => exact h.of_eq rfl rfl rfl rfl rfl fun send hsend => Or.inl hsend
  | rdmaWrite length => exact h.of_eq rfl rfl rfl rfl rfl fun send hsend => Or.inl hsend

theorem checkCQ (h : Aligned size region s) (hplain : s.Plain) (count : ℕ) :
    Aligned size region (s.checkCQ count) := by
  refine (checkCQ_invariant (fun s => Aligned size region s ∧ s.Plain) ?_ ?_ count
    ⟨h, hplain⟩).1
  · rintro s msgbuf receives numRecvs reused ⟨hs, hplain⟩
    exact ⟨hs.of_eq rfl rfl rfl rfl rfl fun send hsend => Or.inl hsend, hplain⟩
  · rintro s completion cq ⟨hs, hplain⟩ hcq
    exact ⟨hs.complete hplain hcq, hplain.complete hcq⟩

end Aligned

end Side

namespace World

/-- Each side has rings of its own size and knows the one of its peer from the setup message. -/
def Announced (depth : ℕ) (sizes : End → U32) (w : World) : Prop :=
  ∀ e, ∃ s : Side, s.Established depth (sizes e) ∧ w e = s.recvSetupPayload (sizes e.peer)

variable {depth : ℕ} {sizes : End → U32} {size region : U32} {w w' : World}

theorem Announced.aligned (h : Announced depth sizes w) (e : End) :
    (w e).Aligned (sizes e) (sizes e.peer) := by
  obtain ⟨s, hs, heq⟩ := h e
  rw [heq]
  constructor <;> simp only [Side.recvSetupPayload, hs.source, Ring.clear]
  case counts => exact ⟨0, RingPtr.counts_clear _, RingPtr.counts_clear _⟩
  case same => exact fun _ => trivial
  case inside =>
    rw [hs.posted]
    exact fun send hsend => absurd hsend List.not_mem_nil

theorem of_update {P : Side → Prop} {e x : End} {s : Side} (h : P (w e)) (hs : e = x → P s) :
    P (Function.update w x s e) := by
  rcases eq_or_ne e x with rfl | hne
  · rw [Function.update_self]
    exact hs rfl
  · rw [Function.update_of_ne hne]
    exact h

theorem Announced.plain (h : Announced depth sizes w) (e : End) : (w e).Plain := by
  obtain ⟨s, hs, heq⟩ := h e
  rw [heq, Side.Plain, Side.sending, Side.received]
  simp only [Side.recvSetupPayload, hs.posted, hs.cq]
  exact fun message hmessage => absurd hmessage List.not_mem_nil

theorem plain_step {event : Event} (h : ∀ e, (w e).Plain) (hstep : w.step event = some w')
    (e : End) : (w' e).Plain := by
  cases event with
  | write x bytes =>
      cases hstep
      exact of_update (h e) fun _ => (h x).write bytes
  | readSync x bytes =>
      cases hstep
      exact of_update (h e) fun _ => (h x).readSync bytes
  | checkCQ x count =>
      cases hstep
      exact of_update (h e) fun _ => (h x).checkCQ count
  | deliver x =>
      obtain ⟨send, posted, buffer, receives, hposted, -, hsender, hreceiver⟩ :=
        deliver_cases hstep
      have hleft : (w' x).Plain := by
        rw [hsender]
        exact (h x).deliver_sender hposted
      have hright : (w' x.peer).Plain := by
        rw [hreceiver]
        exact (h x.peer).deliver_receiver (h x) hposted
      cases x <;> cases e <;> assumption
  | acknowledge x =>
      obtain ⟨sent, unacked, -, rfl⟩ := acknowledge_cases hstep
      exact of_update (h e) fun _ => (h x).acknowledge sent unacked

theorem aligned_step (hfits : Fits size region) (hpos : 0 < size.toNat)
    (hregion : 0 < region.toNat) {event : Event} {e : End} (hplain : (w e).Plain)
    (h : (w e).Aligned size region) (hstep : w.step event = some w') :
    (w' e).Aligned size region := by
  cases event with
  | write x bytes =>
      cases hstep
      refine of_update h ?_
      rintro rfl
      exact h.write hfits hpos hregion bytes
  | readSync x bytes =>
      cases hstep
      refine of_update h ?_
      rintro rfl
      exact h.readSync bytes
  | checkCQ x count =>
      cases hstep
      refine of_update h ?_
      rintro rfl
      exact h.checkCQ hplain count
  | deliver x =>
      obtain ⟨send, posted, buffer, receives, hposted, -, hsender, hreceiver⟩ :=
        deliver_cases hstep
      rcases eq_or_ne e x with rfl | hne
      · rw [hsender]
        refine h.of_eq rfl rfl rfl rfl rfl ?_
        intro other hother
        exact Or.inl (hposted ▸ List.mem_cons_of_mem _ hother)
      · obtain rfl : e = x.peer := by
          cases e <;> cases x <;> first | rfl | exact absurd rfl hne
        rw [hreceiver]
        exact h.of_eq rfl rfl rfl rfl rfl fun other hother => Or.inl hother
  | acknowledge x =>
      obtain ⟨sent, unacked, -, rfl⟩ := acknowledge_cases hstep
      refine of_update h ?_
      rintro rfl
      exact h.of_eq rfl rfl rfl rfl rfl fun other hother => Or.inl hother

end World

/-- There is nothing a side has yet to notice, and it can take a message. -/
structure Side.Calm (s : Side) : Prop where
  depth : 0 < s.depth
  unacked : s.unacked = []
  cq : s.cq = []
  receives : 0 < s.receives.length

theorem End.peer_ne (e : End) : e.peer ≠ e := by
  cases e <;> decide

/-- The only byte there is is read and reported. -/
theorem Side.report_one {s : Side} (havail : s.availBytes = 1) (hwrites : s.writes = 1)
    (hread : s.readBytes = 0) (hsink : s.sink.available.toNat = 1) :
    ∃ buffer msgbuf msgs reused obtained, msgs buffer = .fc ⟨BitVec.ofNat 32 1, BitVec.ofNat 32 1⟩ ∧
      s.readSync 1 =
        { s with
          msgbuf, msgs, reused, obtained
          sink := s.sink.incrTail (BitVec.ofNat 32 1)
          availBytes := 0
          readBytes := 0
          writes := 0
          fcredits := s.fcredits - 1
          posted := s.posted ++ [Send.message buffer] } := by
  refine ⟨s.msgbuf.getBuffer.1, s.msgbuf.getBuffer.2,
    Function.update s.msgs s.msgbuf.getBuffer.1 (.fc ⟨BitVec.ofNat 32 1, BitVec.ofNat 32 1⟩),
    s.reused || decide (s.msgbuf.getBuffer.1 ∈ (s.take 1).inUse), (s.take 1).obtained,
    Function.update_self _ _ _, ?_⟩
  rw [readSync_one havail hwrites hsink]
  simp only [postFC, postMessage, getBuffer, report, take, drain, havail, hwrites, hread]
  rfl

theorem Side.complete_arrival (s : Side) (send : Send) (buffer : ℕ) :
    (s.complete (send.arrival buffer)).receives = s.receives ∧
      (s.complete (send.arrival buffer)).numRecvs = s.numRecvs + 1 := by
  cases send with
  | write source length target imm => exact ⟨rfl, rfl⟩
  | message source =>
      obtain ⟨rptr, wcredits, fcs, heq⟩ := s.recvMessage_eq (s.msgs buffer)
      rw [Send.arrival, complete, heq]
      exact ⟨rfl, rfl⟩

/-- `A` has written `n` bytes to `B`, each in a write of its own, and nothing is under way. `B` has
read `m` of them and has reported each. -/
structure Quiet (size region : U32) (credits : ℤ) (n m : ℕ) (A B : Side) : Prop where
  calm : A.Calm ∧ B.Calm
  posted : A.posted = [] ∧ B.posted = []
  wcredits : A.wcredits = credits - (n - m : ℕ)
  source_num : A.source.num = size
  rptr_num : A.rptr.num = region
  sink_num : B.sink.num = region
  middle : A.source.middle = A.source.head
  source : A.source.head.Counts size n ∧ A.source.tail.Counts size n
  rptr : A.rptr.head.Counts region n ∧ A.rptr.tail.Counts region m
  sink : B.sink.head.Counts region n ∧ B.sink.tail.Counts region m
  idle : B.availBytes = n - m ∧ B.writes = n - m ∧ B.readBytes = 0

namespace Quiet

variable {size region : U32} {credits : ℤ} {n : ℕ} {A B : Side}

theorem write_eq (h : Quiet size region credits n n A B) (hcredits : credits ≠ 0)
    {bytes : List UInt8} (hne : bytes ≠ []) (hmax : bytes.length ≤ maxBS)
    (hsize : bytes.length ≤ size.toNat) (hregion : bytes.length ≤ region.toNat)
    (hend : (A.source.head.ptr size).toNat + bytes.length ≤ size.toNat) :
    A.write bytes = A.put bytes := by
  have hneg : A.source.negAvailable.toNat = size.toNat := by
    have havail := @Ring.negAvailable_toNat 32 A.source n n
    rw [h.source_num] at havail
    rw [havail h.source.1 h.source.2 le_rfl (by omega)]
    omega
  have hneg' : A.rptr.negAvailable.toNat = region.toNat := by
    have havail := @Ring.negAvailable_toNat 32 A.rptr n n
    rw [h.rptr_num] at havail
    rw [havail h.rptr.1 h.rptr.2 le_rfl (by omega)]
    omega
  have hdistance : (A.source.num - A.source.head.ptr A.source.num).toNat =
      size.toNat - (A.source.head.ptr size).toNat := by
    rw [h.source_num, BitVec.toNat_sub_of_le]
    rw [BitVec.le_def]
    omega
  have hfill : A.fillSize bytes.length = bytes.length := by
    rw [Side.fillSize, hneg, hneg', hdistance]
    omega
  have hlen := List.length_pos_iff.2 hne
  have hwcredits := h.wcredits
  rw [Side.write, if_neg (by omega), hfill, if_neg (by omega), List.take_length]

end Quiet

namespace World

variable {w : World} {e : End}

theorem exists_settled {sent : Sent} (hunacked : (w e).unacked = [sent]) (hcq : (w e).cq = [])
    (hdepth : 0 < (w e).depth) :
    ∃ w' msgbuf receives reused, Machine.Reaches World.step Prompt w w' ∧
      w' e.peer = w e.peer ∧ receives.length = (w e).receives.length ∧
      w' e =
        { Side.complete { w e with unacked := [], cq := [], numRecvs := 0 } sent.completion with
          msgbuf, receives, reused, numRecvs := 0 } := by
  obtain ⟨w₁, hw₁⟩ : ∃ w₁, w₁ = Function.update w e
      { w e with unacked := [], cq := [sent.completion] } := ⟨_, rfl⟩
  have hstep : w.step (.acknowledge e) = some w₁ := by
    simp only [step, acknowledge, hunacked, hcq, List.nil_append, hw₁]
  have hside : w₁ e = { w e with unacked := [], cq := [sent.completion] } := by
    rw [hw₁, Function.update_self]
  have hcq₁ : (w₁ e).cq = [sent.completion] := by rw [hside]
  obtain ⟨msgbuf, receives, reused, hcheck, hlen⟩ :=
    Side.checkCQ_one hcq₁ (by rw [hside]; exact hdepth)
  rw [hside] at hlen
  refine ⟨Function.update w₁ e ((w₁ e).checkCQ 1), msgbuf, receives, reused,
    Machine.Reaches.head (e := .acknowledge e) trivial hstep
      (Machine.Reaches.head (e := .checkCQ e 1) trivial rfl (Machine.Reaches.refl _)), ?_, ?_, ?_⟩
  · rw [Function.update_of_ne e.peer_ne, hw₁, Function.update_of_ne e.peer_ne]
  · rw [hlen]
    cases sent <;> rfl
  · rw [Function.update_self, hcheck, hside]

/-- The only send there is is delivered, and both sides notice. -/
theorem exists_exchanged {send : Send} (hposted : (w e).posted = [send])
    (hcalm : (w e).Calm) (hpeer : (w e.peer).Calm) :
    ∃ w' msgbuf receives reused buffer rest sinkbuf msgbuf' receives' reused',
      Machine.Reaches World.step Prompt w w' ∧
      w' e =
        { Side.complete { w e with posted := [], unacked := [], cq := [], numRecvs := 0 }
            send.sent.completion with
          msgbuf, receives, reused, numRecvs := 0 } ∧
      w' e.peer =
        { Side.complete
            { w e.peer with
              receives := rest
              sinkbuf
              msgs := send.copy (w e) (w e.peer) buffer
              cq := []
              numRecvs := 0 }
            (send.arrival buffer) with
          msgbuf := msgbuf', receives := receives', reused := reused', numRecvs := 0 } ∧
      receives.length = (w e).receives.length ∧
      receives'.length = (w e.peer).receives.length := by
  obtain ⟨buffer, rest, hbuffer⟩ := List.exists_cons_of_length_pos hpeer.receives
  obtain ⟨w₁, hstep₁, hsender₁, hreceiver₁⟩ := deliver_eq hposted hbuffer
  have hprompt : Prompt w (.deliver e) := by
    simp only [Prompt, hpeer.unacked, List.filterMap_nil, List.length_nil]
    omega
  have hunacked₁ : (w₁ e).unacked = [send.sent] := by
    rw [hsender₁]
    simp only [hcalm.unacked, List.nil_append]
  obtain ⟨w₂, msgbuf, receives, reused, hreach₂, hreceiver₂, hlen₂, hsender₂⟩ :=
    exists_settled hunacked₁ (by rw [hsender₁]; exact hcalm.cq) (by rw [hsender₁]; exact hcalm.depth)
  have hcq₂ : (w₂ e.peer).cq = [send.arrival buffer] := by
    rw [hreceiver₂, hreceiver₁]
    simp only [hpeer.cq, List.nil_append]
  obtain ⟨msgbuf', receives', reused', hcheck, hlen⟩ :=
    Side.checkCQ_one hcq₂ (by rw [hreceiver₂, hreceiver₁]; exact hpeer.depth)
  refine ⟨Function.update w₂ e.peer ((w₂ e.peer).checkCQ 1), msgbuf, receives, reused, buffer, rest,
    send.transfer (w e) (w e.peer), msgbuf', receives', reused',
    Machine.Reaches.head hprompt hstep₁ (hreach₂.trans
      (Machine.Reaches.head (e := .checkCQ e.peer 1) trivial rfl (Machine.Reaches.refl _))),
    ?_, ?_, ?_, ?_⟩
  · rw [Function.update_of_ne e.peer_ne.symm, hsender₂, hsender₁]
  · rw [Function.update_self, hcheck, hreceiver₂, hreceiver₁]
  · rw [hlen₂, hsender₁]
  · obtain ⟨hreceives, hnumRecvs⟩ :=
      Side.complete_arrival { w₂ e.peer with cq := [], numRecvs := 0 } send buffer
    rw [hlen, hreceives, hnumRecvs, hreceiver₂, hreceiver₁, hbuffer]
    rfl

variable {size region : U32} {credits : ℤ} {n : ℕ}

theorem quiet_write (hpos : 0 < size.toNat) (hregion : 0 < region.toNat) (hcredits : credits ≠ 0)
    (h : Quiet size region credits n n (w e) (w e.peer)) :
    ∃ w', Machine.Reaches World.step Prompt w w' ∧
      Quiet size region credits (n + 1) n (w' e) (w' e.peer) := by
  have hptr := (w e).source.head.ptr_lt hpos
  have hwrite : (w e).write [0] = (w e).put [0] :=
    h.write_eq hcredits (List.cons_ne_nil _ _) (by decide) hpos hregion hptr
  obtain ⟨imm, sourcebuf, fcs, truncated, himm, hput⟩ := Side.put_eq h.middle [0]
  have himm : imm.bytesSent = 1 := himm
  obtain ⟨w₁, hw₁⟩ : ∃ w₁, w₁ = Function.update w e ((w e).write [0]) := ⟨_, rfl⟩
  have hstep₁ : w.step (.write e [0]) = some w₁ := by rw [hw₁]; rfl
  have hsender₁ : w₁ e = (w e).put [0] := by rw [hw₁, Function.update_self, hwrite]
  have hreceiver₁ : w₁ e.peer = w e.peer := by rw [hw₁, Function.update_of_ne e.peer_ne]
  rw [hput] at hsender₁
  simp only [h.posted.1, List.nil_append, List.length_singleton] at hsender₁
  have hposted₁ : (w₁ e).posted = [.write ((w e).source.head.ptr (w e).source.num)
      (BitVec.ofNat 32 1) ((w e).rptr.head.ptr (w e).rptr.num) imm] := by rw [hsender₁]
  have hcalm₁ : (w₁ e).Calm := by
    rw [hsender₁]
    exact ⟨h.calm.1.depth, h.calm.1.unacked, h.calm.1.cq, h.calm.1.receives⟩
  obtain ⟨w₂, msgbuf, receives, reused, buffer, rest, sinkbuf, msgbuf', receives', reused', hreach,
    hsender₂, hreceiver₂, hlen, hlen'⟩ := exists_exchanged hposted₁ hcalm₁ (hreceiver₁ ▸ h.calm.2)
  refine ⟨w₂, Machine.Reaches.head (e := .write e [0]) trivial hstep₁ hreach, ?_⟩
  have hwcredits := h.wcredits
  have hreceives : 0 < receives.length := hlen ▸ hcalm₁.receives
  have hreceives' : 0 < receives'.length := by
    rw [hlen', hreceiver₁]
    exact h.calm.2.receives
  rw [hsender₂, hreceiver₂, hsender₁, hreceiver₁]
  simp only [Send.sent, Sent.completion, Send.arrival, Side.complete, Side.recvRDMAWrite,
    Side.freeBuffer, himm, Ring.incrHead, Ring.incrTail, h.source_num, h.rptr_num, h.sink_num]
  constructor
  case calm =>
    exact ⟨⟨h.calm.1.depth, rfl, rfl, hreceives⟩,
      ⟨h.calm.2.depth, h.calm.2.unacked, rfl, hreceives'⟩⟩
  case posted => exact ⟨rfl, h.posted.2⟩
  case wcredits =>
    simp only
    omega
  case source =>
    exact ⟨h.source.1.incr_ofNat hpos (by decide), h.source.2.incr_ofNat hpos (by decide)⟩
  case rptr => exact ⟨h.rptr.1.incr_ofNat hregion (by decide), h.rptr.2⟩
  case sink => exact ⟨h.sink.1.incr hregion, h.sink.2⟩
  case idle =>
    obtain ⟨havail, hwrites, hread⟩ := h.idle
    have hone : (1 : BitVec 28).toNat = 1 := rfl
    simp only
    exact ⟨by omega, by omega, hread⟩
  all_goals rfl

theorem quiet_read (hregion : 0 < region.toNat)
    (h : Quiet size region credits (n + 1) n (w e) (w e.peer)) :
    ∃ w', Machine.Reaches World.step Prompt w w' ∧
      Quiet size region credits (n + 1) (n + 1) (w' e) (w' e.peer) := by
  obtain ⟨havail, hwrites, hread⟩ := h.idle
  have hsink : (w e.peer).sink.available.toNat = 1 := by
    rw [Ring.available, h.sink.1.toNat_sub h.sink.2 (by omega) (by omega)]
    omega
  obtain ⟨buffer, pool, msgs, reused, obtained, hmessage, hreport⟩ :=
    Side.report_one (s := w e.peer) (by omega) (by omega) hread hsink
  obtain ⟨w₁, hw₁⟩ : ∃ w₁, w₁ = Function.update w e.peer ((w e.peer).readSync 1) := ⟨_, rfl⟩
  have hstep₁ : w.step (.readSync e.peer 1) = some w₁ := by rw [hw₁]; rfl
  have hsender₁ : w₁ e.peer = (w e.peer).readSync 1 := by rw [hw₁, Function.update_self]
  have hreceiver₁ : w₁ e.peer.peer = w e := by
    rw [hw₁, Function.update_of_ne e.peer.peer_ne, End.peer_peer]
  rw [hreport] at hsender₁
  simp only [h.posted.2, List.nil_append] at hsender₁
  have hposted₁ : (w₁ e.peer).posted = [.message buffer] := by rw [hsender₁]
  have hcalm₁ : (w₁ e.peer).Calm := by
    rw [hsender₁]
    exact ⟨h.calm.2.depth, h.calm.2.unacked, h.calm.2.cq, h.calm.2.receives⟩
  obtain ⟨w₂, msgbuf, receives, reused', buffer', rest, sinkbuf, msgbuf', receives', reused'', hreach,
    hsender₂, hreceiver₂, hlen, hlen'⟩ := exists_exchanged hposted₁ hcalm₁ (hreceiver₁ ▸ h.calm.1)
  refine ⟨w₂, Machine.Reaches.head (e := .readSync e.peer 1) trivial hstep₁ hreach, ?_⟩
  have hwcredits := h.wcredits
  have hreceives : 0 < receives.length := hlen ▸ hcalm₁.receives
  have hreceives' : 0 < receives'.length := by
    rw [hlen', hreceiver₁]
    exact h.calm.1.receives
  rw [End.peer_peer] at hreceiver₁ hreceiver₂
  rw [hsender₂, hreceiver₂, hsender₁, hreceiver₁]
  simp only [Send.sent, Sent.completion, Send.arrival, Send.copy, hmessage, Side.complete,
    Function.update_self, Side.recvMessage, Side.recvFC, Side.freeBuffer, Ring.incrTail, h.rptr_num,
    h.sink_num]
  constructor
  case calm =>
    exact ⟨⟨h.calm.1.depth, h.calm.1.unacked, rfl, hreceives'⟩,
      ⟨h.calm.2.depth, rfl, rfl, hreceives⟩⟩
  case posted => exact ⟨h.posted.1, rfl⟩
  case wcredits =>
    have hone : (BitVec.ofNat 32 1).toNat = 1 := rfl
    simp only
    omega
  case source_num => exact h.source_num
  case middle => exact h.middle
  case source => exact h.source
  case rptr => exact ⟨h.rptr.1, h.rptr.2.incr hregion⟩
  case sink => exact ⟨h.sink.1, h.sink.2.incr hregion⟩
  case idle => exact ⟨by simp only; omega, by simp only; omega, rfl⟩
  all_goals rfl

theorem quiet_rounds (hpos : 0 < size.toNat) (hregion : 0 < region.toNat) (hcredits : credits ≠ 0)
    (count : ℕ) (h : Quiet size region credits n n (w e) (w e.peer)) :
    ∃ w', Machine.Reaches World.step Prompt w w' ∧
      Quiet size region credits (n + count) (n + count) (w' e) (w' e.peer) := by
  induction count with
  | zero => exact ⟨w, Machine.Reaches.refl w, h⟩
  | succ count ih =>
      obtain ⟨w₁, hreach₁, hw₁⟩ := ih
      obtain ⟨w₂, hreach₂, hw₂⟩ := quiet_write hpos hregion hcredits hw₁
      obtain ⟨w₃, hreach₃, hw₃⟩ := quiet_read hregion hw₂
      exact ⟨w₃, hreach₁.trans (hreach₂.trans hreach₃), hw₃⟩

variable {depth : ℕ} {sizes : End → U32}

theorem quiet_announced (hdepth : 0 < depth) (h : Announced depth sizes w) (e : End) :
    ∃ w', Machine.Reaches World.step Prompt w w' ∧
      Quiet (sizes e) (sizes e.peer) (depth / 2 - 2) 0 0 (w' e) (w' e.peer) := by
  obtain ⟨A, hA, hA'⟩ := h e
  obtain ⟨B, hB, hB'⟩ := h e.peer
  obtain ⟨-, setup, hunacked, -⟩ := hA.buffers
  obtain ⟨-, setup', hunacked', -⟩ := hB.buffers
  have hunacked₁ : (w e).unacked = [.message setup] := by rw [hA']; exact hunacked
  obtain ⟨w₁, msgbuf, receives, reused, hreach₁, hpeer₁, hlen₁, hside₁⟩ :=
    exists_settled hunacked₁ (by rw [hA']; exact hA.cq) (by rw [hA']; exact hA.depth_eq ▸ hdepth)
  rw [hB'] at hpeer₁
  have hunacked₂ : (w₁ e.peer).unacked = [.message setup'] := by rw [hpeer₁]; exact hunacked'
  obtain ⟨w₂, msgbuf', receives', reused', hreach₂, hpeer₂, hlen₂, hside₂⟩ :=
    exists_settled hunacked₂ (by rw [hpeer₁]; exact hB.cq)
      (by rw [hpeer₁]; exact hB.depth_eq ▸ hdepth)
  refine ⟨w₂, hreach₁.trans hreach₂, ?_⟩
  have hreceives : 0 < receives.length := by
    rw [hlen₁, hA']
    exact hA.receives ▸ hdepth
  have hreceives' : 0 < receives'.length := by
    rw [hlen₂, hpeer₁]
    exact hB.receives ▸ hdepth
  rw [End.peer_peer] at hpeer₂
  rw [hpeer₂, hside₂, hside₁, hpeer₁, hA']
  simp only [Side.recvSetupPayload, Sent.completion, Side.complete, Side.freeBuffer, End.peer_peer,
    hA.source, hB.sink, Ring.clear]
  constructor
  case calm =>
    exact ⟨⟨hA.depth_eq ▸ hdepth, rfl, rfl, hreceives⟩,
      ⟨hB.depth_eq ▸ hdepth, rfl, rfl, hreceives'⟩⟩
  case posted => exact ⟨hA.posted, hB.posted⟩
  case wcredits =>
    have hwcredits := hA.wcredits
    simp only
    omega
  case source => exact ⟨RingPtr.counts_clear _, RingPtr.counts_clear _⟩
  case rptr => exact ⟨RingPtr.counts_clear _, RingPtr.counts_clear _⟩
  case sink => exact ⟨RingPtr.counts_clear _, RingPtr.counts_clear _⟩
  case idle => exact ⟨hB.availBytes, hB.writes, hB.readBytes⟩
  all_goals rfl

/-- If the local size does not divide the remote one, a write of two bytes may begin at the last
byte of the remote region. -/
theorem exists_outside (hdepth : 6 ≤ depth) (h : Announced depth sizes w) (e : End)
    (hpos : 0 < (sizes e).toNat) (hregion : 1 < (sizes e.peer).toNat)
    (hdvd : ¬ (sizes e).toNat ∣ (sizes e.peer).toNat) :
    ∃ w', Machine.Reaches World.step Prompt w w' ∧
      ∃ send ∈ (w' e).posted, ¬ send.Inside (sizes e).toNat (sizes e.peer).toNat := by
  obtain ⟨w₁, hreach₁, hw₁⟩ := quiet_announced (by omega) h e
  have hcredits : ((depth : ℤ) / 2 - 2) ≠ 0 := by omega
  obtain ⟨w₂, hreach₂, hw₂⟩ := quiet_rounds hpos (by omega) hcredits ((sizes e.peer).toNat - 1) hw₁
  rw [Nat.zero_add] at hw₂
  have hregionLt := (sizes e.peer).isLt
  have hsource := hw₂.source.1.ptr_of_lt hpos (by omega)
  have htarget := hw₂.rptr.1.ptr_of_lt (by omega) (by omega)
  rw [Nat.mod_eq_of_lt (by omega)] at htarget
  have hend : ((sizes e.peer).toNat - 1) % (sizes e).toNat + 2 ≤ (sizes e).toNat := by
    have hmod : ((sizes e.peer).toNat - 1) % (sizes e).toNat < (sizes e).toNat := Nat.mod_lt _ hpos
    have hlast : ((sizes e.peer).toNat - 1) % (sizes e).toNat + 1 ≠ (sizes e).toNat := by
      intro hlast
      refine hdvd (Nat.dvd_of_mod_eq_zero ?_)
      rw [show (sizes e.peer).toNat = (sizes e.peer).toNat - 1 + 1 by omega, ← Nat.mod_add_mod,
        hlast, Nat.mod_self]
    omega
  have hsize : 2 ≤ (sizes e).toNat := by omega
  have hwrite : (w₂ e).write [0, 0] = (w₂ e).put [0, 0] :=
    hw₂.write_eq hcredits (List.cons_ne_nil _ _) (by decide) hsize hregion
      (by rw [hsource]; exact hend)
  obtain ⟨imm, sourcebuf, fcs, truncated, -, hput⟩ := Side.put_eq hw₂.middle [0, 0]
  refine ⟨Function.update w₂ e ((w₂ e).write [0, 0]), hreach₁.trans (hreach₂.trans
    (Machine.Reaches.head (e := .write e [0, 0]) trivial rfl (Machine.Reaches.refl _))),
    .write ((w₂ e).source.head.ptr (w₂ e).source.num) (BitVec.ofNat 32 2)
      ((w₂ e).rptr.head.ptr (w₂ e).rptr.num) imm, ?_, ?_⟩
  · rw [Function.update_self, hwrite, hput]
    exact List.mem_append_right _ List.mem_cons_self
  · have htwo : (BitVec.ofNat 32 2).toNat = 2 := rfl
    rw [Send.Inside, hw₂.rptr_num, htarget, htwo]
    omega

/-- The writes of a side stay inside both regions in every run if the sizes fit, and not in every
run if the local size does not divide the remote one. -/
theorem writes_inside (h : Announced depth sizes w) (e : End) (hpos : 0 < (sizes e).toNat)
    (hregion : 0 < (sizes e.peer).toNat) :
    (Fits (sizes e) (sizes e.peer) → ∀ events w', Machine.run World.step w events = some w' →
      ∀ send ∈ (w' e).posted, send.Inside (sizes e).toNat (sizes e.peer).toNat) ∧
    (6 ≤ depth → 1 < (sizes e.peer).toNat → ¬ (sizes e).toNat ∣ (sizes e.peer).toNat →
      ∃ w', Machine.Reaches World.step Prompt w w' ∧
        ∃ send ∈ (w' e).posted, ¬ send.Inside (sizes e).toNat (sizes e.peer).toNat) := by
  constructor
  · intro hfits events w' hrun
    refine (Machine.run_invariant
      (fun w : World => (∀ e, (w e).Plain) ∧ (w e).Aligned (sizes e) (sizes e.peer)) ?_
      ⟨h.plain, h.aligned e⟩ (Machine.steps_true w events) hrun).2.inside
    rintro w event w' ⟨hplain, haligned⟩ - hstep
    exact ⟨plain_step hplain hstep, aligned_step hfits hpos hregion (hplain e) haligned hstep⟩
  · intro hdepth hone hdvd
    exact exists_outside hdepth h e hpos hone hdvd

/-- Two ends whose rings are configured with these sizes. -/
def configured (depth : ℕ) (sizes : End → U32) : World :=
  fun e => (Side.connect depth (sizes e)).recvSetupPayload (sizes e.peer)

def ringSizes (initiator target : U32) : End → U32
  | .initiator => initiator
  | .target => target

theorem announced_configured (hpos : 0 < depth) (hdepth : depth < 2 ^ 31) (sizes : End → U32) :
    Announced depth sizes (configured depth sizes) :=
  fun e => ⟨_, Side.established_connect hpos hdepth (sizes e), rfl⟩

/-- A ring of four bytes is written into one of eight. -/
theorem writes_inside_multiple :
    ∃ w', Machine.run World.step (configured 8 (ringSizes 4 8))
      [.write .initiator [1, 2, 3], .write .initiator [4, 5]] = some w' ∧
      (w' .initiator).posted.map Send.bytes = [3, 1] ∧
      ∀ send ∈ (w' .initiator).posted, send.Inside 4 8 := by
  have hrun : (Machine.run World.step (configured 8 (ringSizes 4 8))
      [.write .initiator [1, 2, 3], .write .initiator [4, 5]]).map
      (fun w => (w .initiator).posted.map Send.bytes) = some [3, 1] := by
    decide +kernel
  obtain ⟨w', hrun, hposted⟩ := Option.map_eq_some_iff.1 hrun
  refine ⟨w', hrun, hposted, ?_⟩
  exact (writes_inside (announced_configured (by decide) (by decide) _) .initiator (by decide)
    (by decide)).1 (Or.inr (by decide)) _ w' hrun

/-- With rings of two mebibytes a write goes beyond a remote region of one. -/
theorem writes_outside :
    ¬ ∀ events w',
      Machine.Steps World.step Prompt (configured 512 (ringSizes (2 ^ 21) (2 ^ 20))) events →
      Machine.run World.step (configured 512 (ringSizes (2 ^ 21) (2 ^ 20))) events = some w' →
      ∀ send ∈ (w' .initiator).posted, send.Inside (2 ^ 21) (2 ^ 20) := by
  intro hinside
  obtain ⟨w', ⟨events, hsteps, hrun⟩, send, hsend, houtside⟩ :=
    exists_outside (by decide) (@announced_configured 512 (by decide) (by decide)
      (ringSizes (2 ^ 21) (2 ^ 20))) .initiator (by decide) (by decide) (by decide)
  exact houtside (hinside events w' hsteps hrun send hsend)

end World

end Collage.Rdma
