import Collage.Rsp.Member

/-!
# Writing steps keep a member in step with the logs
-/

namespace Collage.Rsp

open Serial Connection

variable {cfg : Config} {order : List U16} {n : U16} {log : U16 → List (List UInt8)} {m : Member}

/-- The log of `n` with one more packet. -/
def extend (log : U16 → List (List UInt8)) (n : U16) (bytes : List UInt8) :
    U16 → List (List UInt8) :=
  Function.update log n (log n ++ [bytes])

theorem extend_self (bytes : List UInt8) : extend log n bytes n = log n ++ [bytes] :=
  Function.update_self ..

theorem extend_of_ne {w : U16} (h : w ≠ n) (bytes : List UInt8) : extend log n bytes w = log w :=
  Function.update_of_ne h ..

theorem prefix_extend (w : U16) (bytes : List UInt8) : log w <+: extend log n bytes w := by
  by_cases h : w = n
  · subst h
    rw [extend_self]
    exact List.prefix_append _ _
  · rw [extend_of_ne h]

namespace Node

theorem advance_write (h : Node cfg order n log m) (hwr : m.conn.writing = []) (bytes : List UInt8) :
    Node cfg order n log { m.advance { m.conn with writing := bytes } with
      written := m.written ++ bytes } :=
  h.advance_of_queues_eq [] ⟨h.sound.nodup, h.sound.held, h.sound.readers, h.sound.noNull,
    h.sound.posted, h.sound.loopback⟩ rfl rfl rfl rfl rfl (h.writer.write hwr bytes)
    (List.append_nil _).symm sends_nil

theorem writePop (h : Node cfg order n log m) {c : Connection} (hc : m.conn.writePop = some c) :
    Node cfg order n log (m.advance c) := by
  have hs := h.sound.writePop hc
  obtain ⟨-, -, ⟨rest, hq, -⟩ | ⟨b, rest, -, rfl⟩⟩ := writePop_cases hc
  · have hstop : m.conn.stopped = false := congrArg (fun p => p.2.2) h.phase
    exact absurd (hq ▸ List.mem_cons_self) (h.sound.noNull hstop)
  · exact h.advance_of_queues_eq [] hs rfl rfl rfl rfl rfl (h.writer.congr rfl rfl rfl rfl rfl)
      (List.append_nil _).symm sends_nil

theorem writePush (h : Node cfg order n log m) {c : Connection}
    (hc : m.conn.writePush cfg = some c) : Node cfg order n log (m.advance c) := by
  have hs := h.sound.writePush hc
  obtain ⟨b, hb, rfl⟩ := writePush_cases hc
  exact h.advance_of_queues_eq [] hs rfl rfl rfl rfl rfl
    (h.writer.writePush (h.sound.threadBuffers_lt hb)) (List.append_nil _).symm sends_nil

theorem carries_window (h : Node cfg order n log m) {i : ℕ} {b : Buffer}
    (hb : m.conn.writeBuffers[i]? = some b) :
    Carries n (log n) m.expected
      (Member.mark m.assigned m.expected (.data { b.data with payload := b.data.bytes }))
      (.data { b.data with payload := b.data.bytes }) := by
  have hp := h.writer.window i b hb
  rw [h.id_eq] at hp
  have hi := (List.getElem?_eq_some_iff.1 hb).1
  have hfits := h.writer.fits
  have hlen := h.sound.writeBuffers_le
  have hnb := cfg.numBuffers_lt
  have hmark : Member.mark m.assigned m.expected (.data { b.data with payload := b.data.bytes }) =
      (log n).length - m.conn.writeBuffers.length + i + 1 := by
    rw [Member.mark, hp.sequence, ← serial_succ_sub_one, h.assigned]
    exact upTo_serial (by omega) (by omega)
  rw [hmark]
  exact ⟨Nat.succ_pos _, by rw [Nat.add_sub_cancel]; exact hp.on_wire⟩

theorem repeatData (h : Node cfg order n log m) {t : ℕ} {ds : List Datagram}
    (hds : ds = [] ∨ ds = [.ackReq m.conn.id (m.conn.repeatData.sequence - 1)]) :
    Node cfg order n log (m.advance { m.conn.repeatData with
      timeouts := t, sent := m.conn.repeatData.sent ++ ds }) := by
  refine h.advance_of_queues_eq (((repeatLoop m.conn.sequence m.conn.writeBuffers
    (repeatWork m.conn.repeatQueue) m.conn.repeatQueue).2.map
      (fun d => Datagram.data { d with payload := d.bytes })).toList ++ ds)
    ((h.sound.repeatData.set_timeouts t).send ds) rfl rfl rfl rfl rfl
    (h.writer.congr rfl rfl rfl rfl rfl) (List.append_assoc _ _ _)
    (sends_of_no_ack (fun d hd => ?_) (fun d hd => ?_))
  · rcases List.mem_append.1 hd with hd | hd
    · rw [Option.mem_toList] at hd
      obtain ⟨d', hd', rfl⟩ := Option.map_eq_some_iff.1 hd
      obtain ⟨i, b, hb, rfl⟩ := repeatLoop_mem hd'
      exact h.carries_window hb
    · rcases hds with rfl | rfl
      · cases hd
      · rw [List.mem_singleton.1 hd]
        exact h.id_eq
  · rcases List.mem_append.1 hd with hd | hd
    · rw [Option.mem_toList] at hd
      obtain ⟨d', -, rfl⟩ := Option.map_eq_some_iff.1 hd
      rfl
    · rcases hds with rfl | rfl
      · cases hd
      · rw [List.mem_singleton.1 hd]
        rfl

theorem mem_order (h : Node cfg order n log m) : n ∈ order := by
  obtain ⟨self, hself, -⟩ := h.sound.loopback
  rw [h.id_eq] at hself
  exact h.findConnection_isSome.1 (Option.isSome_iff_exists.2 ⟨self, hself⟩)

theorem sends_numbered (h : Node cfg order n log m) {d : DatagramData} {ds : List Datagram}
    (hpacket : Packet n (log n ++ [d.bytes]) (log n).length d)
    (hds : ∀ x ∈ ds, ∃ s, x = .ackReq n s) :
    Sends n (extend log n d.bytes n) (m.assigned + 1) m.expected m.expected
      (.data { d with payload := d.bytes } :: ds) := by
  refine sends_of_no_ack (fun x hx => ?_) (fun x hx => ?_)
  · rcases List.mem_cons.1 hx with rfl | hx
    · have hmark : Member.mark (m.assigned + 1) m.expected
          (.data { d with payload := d.bytes }) = (log n).length + 1 := by
        rw [Member.mark, hpacket.sequence, ← serial_succ_sub_one, h.assigned]
        exact upTo_serial le_rfl (by omega)
      rw [hmark, extend_self]
      exact ⟨Nat.succ_pos _, hpacket.on_wire⟩
    · obtain ⟨s, rfl⟩ := hds x hx
      exact rfl
  · rcases List.mem_cons.1 hx with rfl | hx
    · rfl
    · obtain ⟨s, rfl⟩ := hds x hx
      rfl

theorem advance_numbered (h : Node cfg order n log m) (hf : m.conn.finishing = none) {c : Connection}
    {b : Buffer} {d : DatagramData} {ds : List Datagram} (hs : Sound cfg c)
    (hphase : c.phase = m.conn.phase) (hchildren : c.children = m.conn.children)
    (hseq : c.sequence = m.conn.sequence + 1)
    (hwrite : c.writeBuffers = m.conn.writeBuffers ++ [b])
    (hfin : ∀ f, c.finishing = some f → f.readBuffers = [] ∧ m.conn.children.length = 1)
    (hwriter : Writer cfg (log n ++ [d.bytes]) m.written c)
    (hpacket : Packet n (log n ++ [d.bytes]) (log n).length d)
    (hsent : c.sent = m.conn.sent ++ .data { d with payload := d.bytes } :: ds)
    (hds : ∀ x ∈ ds, ∃ s, x = .ackReq n s) :
    Node cfg order n (extend log n d.bytes) (m.advance c) := by
  have hfind : ∀ w, c.findConnection w = m.conn.findConnection w := fun w => by
    rw [findConnection, hchildren, findConnection]
  have hass : m.assigned + (c.sequence - m.conn.sequence).toNat = m.assigned + 1 := by
    rw [hseq, add_sub_cancel_left]; rfl
  have hadv : m.advance c = { m with
      conn := c
      assigned := m.assigned + 1
      marks := m.marks ++ (Datagram.data { d with payload := d.bytes } :: ds).map
        (Member.mark (m.assigned + 1) m.expected) } := by
    simp only [Member.advance, expected_of_findConnection_eq hfind, hass, hsent, List.drop_left]
  have hpost0 : m.conn.posting = [] := by rw [Connection.posting, hf]; rfl
  have hpost : c.posting = [] := by
    cases hcf : c.finishing with
    | none => rw [Connection.posting, hcf]; rfl
    | some f => rw [Connection.posting, hcf]; exact (hfin f hcf).1
  have hlen : (extend log n d.bytes n).length = (log n).length + 1 := by
    rw [extend_self, List.length_append, List.length_singleton]
  rw [hadv]
  exact {
    sound := hs
    phase := hphase.trans h.phase
    ids := hchildren ▸ h.ids
    assigned := by rw [hlen, h.assigned]
    writer := by rwa [extend_self]
    readers := fun w child hc => (h.readers w child (hfind w ▸ hc)).mono (prefix_extend w _)
    loopback := by
      have hl := h.loopback
      simp only [hpost0, hpost, hlen, hwrite, List.length_append, List.length_singleton,
        List.length_nil] at hl ⊢
      omega
    posting := by
      intro i x hx
      rw [hpost] at hx
      simp at hx
    noReorder := fun self hc => h.noReorder self (hfind n ▸ hc)
    acked := fun r child hne hc => h.acked r child hne (hfind r ▸ hc)
    released := by
      intro r hr hne
      have := h.released r hr hne
      simp only [hlen, hwrite, List.length_append, List.length_singleton]
      omega
    releasing := by
      -- a packet is released at once only if there is nobody else to wait for
      intro f hcf r hr hne
      have hone := (hfin f hcf).2
      rw [← List.length_map (f := Child.id), h.ids] at hone
      obtain ⟨x, hx⟩ := List.length_eq_one_iff.1 hone
      have hself := h.mem_order
      rw [hx, List.mem_singleton] at hr hself
      exact absurd (hr.trans hself.symm) hne
    sent := by
      simp only [hsent]
      exact h.sent.append (prefix_extend n _) (fun _ => le_rfl)
        (h.sends_numbered hpacket hds) }

theorem processOutgoing (h : Node cfg order n log m) (hf : m.conn.finishing = none)
    (expired : Bool) :
    Node cfg order n log (m.advance (m.conn.processOutgoing cfg expired)) ∨
    ∃ bytes, Node cfg order n (extend log n bytes)
      (m.advance (m.conn.processOutgoing cfg expired)) := by
  have hs := h.sound.processOutgoing hf expired
  have hp := phase_processOutgoing cfg m.conn expired
  obtain ⟨base, t, ds, hbase, hds, hc⟩ := processOutgoing_cases cfg expired m.conn
  have hreq : ∀ x ∈ ds, ∃ s, x = .ackReq n s := by
    rcases hds with rfl | rfl
    · simp
    · intro x hx
      exact ⟨_, h.id_eq ▸ List.mem_singleton.1 hx⟩
  rw [hc] at hs hp ⊢
  rcases hbase with ⟨-, rfl⟩ | ⟨-, rfl⟩
  · rcases writeData_cases cfg m.conn with ⟨-, hw⟩ | ⟨b, queue, hq, ⟨-, hw⟩ | ⟨hone, hw⟩⟩
    · left
      rw [hw] at hs hp ⊢
      refine h.advance_of_queues_eq ds hs rfl rfl rfl rfl rfl (h.writer.congr rfl rfl rfl rfl rfl) rfl
        (sends_of_no_ack (fun x hx => ?_) (fun x hx => ?_))
      · obtain ⟨s, rfl⟩ := hreq x hx
        exact rfl
      · obtain ⟨s, rfl⟩ := hreq x hx
        rfl
    · right
      obtain ⟨hwr, hpk⟩ := h.writer.queued hq rfl
      rw [h.id_eq] at hpk
      rw [hw] at hs hp ⊢
      refine ⟨_, h.advance_numbered hf hs hp rfl rfl rfl (fun f hcf => ?_)
        (hwr.congr rfl rfl rfl rfl rfl)
        hpk (List.append_assoc _ _ _) hreq⟩
      change m.conn.finishing = some f at hcf
      rw [hf] at hcf
      cases hcf
    · right
      obtain ⟨hwr, hpk⟩ := h.writer.queued hq rfl
      rw [h.id_eq] at hpk
      rw [hw] at hs hp ⊢
      refine ⟨_, h.advance_numbered hf hs hp rfl rfl rfl (fun f hcf => ?_)
        (hwr.congr rfl rfl rfl rfl rfl)
        hpk (List.append_assoc _ _ _) hreq⟩
      rw [← Option.some.inj hcf]
      exact ⟨rfl, hone⟩
  · exact Or.inl (h.repeatData hds)

end Node
end Collage.Rsp
