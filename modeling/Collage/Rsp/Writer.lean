import Collage.Rsp.Reader
import Collage.Rsp.SoundSteps

/-!
# The writer's side of a stream

The write queue is the end of the log: its last entry is the packet numbered last. What has been
numbered, what is queued for sending and what the running `write` call still holds are together
the bytes written so far. Merging queued packets changes the log but not this concatenation.
-/

namespace Collage.Rsp

open Serial

/-- The packet numbered `i` of member `id`. -/
structure Packet (id : U16) (log : List (List UInt8)) (i : ℕ) (d : DatagramData) : Prop where
  writer : d.writerID = id
  sequence : d.sequence = serial 16 i
  contents : log[i]? = some d.bytes
  full : d.Full

theorem Packet.mono {id : U16} {log log' : List (List UInt8)} {i : ℕ} {d : DatagramData}
    (h : Packet id log i d) (hlog : log <+: log') : Packet id log' i d :=
  ⟨h.writer, h.sequence, getElem?_of_isPrefix hlog h.contents, h.full⟩

theorem Packet.on_wire {id : U16} {log : List (List UInt8)} {i : ℕ} {d : DatagramData}
    (h : Packet id log i d) : Packet id log i { d with payload := d.bytes } := by
  have hbytes : ({ d with payload := d.bytes } : DatagramData).bytes = d.bytes := by
    simp [DatagramData.bytes]
  refine ⟨h.writer, h.sequence, by rw [hbytes]; exact h.contents, ?_⟩
  change d.size.toNat ≤ d.bytes.length
  rw [h.full.length_bytes]

structure Queued (cfg : Config) (id : U16) (d : DatagramData) : Prop where
  writer : d.writerID = id
  full : d.Full
  fits : d.size.toNat ≤ cfg.payloadSize

structure Writer (cfg : Config) (log : List (List UInt8)) (written : List UInt8)
    (c : Connection) : Prop where
  sequence : c.sequence = serial 16 log.length
  fits : c.writeBuffers.length ≤ log.length
  window : ∀ i b, c.writeBuffers[i]? = some b →
    Packet c.id log (log.length - c.writeBuffers.length + i) b.data
  queue : ∀ b ∈ c.threadBuffers, Queued cfg c.id b.data
  content : log.flatten ++ (c.threadBuffers.map (fun b => b.data.bytes)).flatten ++ c.writing =
    written

variable {cfg : Config} {c : Connection} {log : List (List UInt8)} {written : List UInt8}

namespace Connection

theorem mergeWrites_spec {id : U16} (queue : List Buffer) (d : DatagramData)
    (hd : Queued cfg id d) (hq : ∀ b ∈ queue, Queued cfg id b.data) :
    Queued cfg id (mergeWrites cfg d queue).1 ∧
      (mergeWrites cfg d queue).1.sequence = d.sequence ∧
      (mergeWrites cfg d queue).1.bytes =
        d.bytes ++ ((mergeWrites cfg d queue).2.1.map (fun b => b.data.bytes)).flatten := by
  induction queue generalizing d with
  | nil => exact ⟨hd, rfl, by simp [mergeWrites]⟩
  | cons b queue ih =>
      simp only [mergeWrites]
      split_ifs with hfit
      · have hb := hq b List.mem_cons_self
        have hsize : (d.size + b.data.size).toNat = d.size.toNat + b.data.size.toNat := by
          have := cfg.payloadSize_lt
          rw [BitVec.toNat_add, Nat.mod_eq_of_lt (by omega)]
        have hlen : (d.bytes ++ b.data.bytes).length = d.size.toNat + b.data.size.toNat := by
          rw [List.length_append, hd.full.length_bytes, hb.full.length_bytes]
        have hmerged : Queued cfg id { d with
            size := d.size + b.data.size, payload := d.bytes ++ b.data.bytes } :=
          ⟨hd.writer, by rw [DatagramData.Full]; simp only [hsize, hlen, le_refl],
            by simp only [hsize]; exact hfit.2⟩
        obtain ⟨hq', hs, hbytes⟩ := ih _ hmerged (fun x hx => hq x (List.mem_cons_of_mem _ hx))
        refine ⟨hq', hs, ?_⟩
        rw [hbytes, List.map_cons, List.flatten_cons, ← List.append_assoc]
        congr 1
        rw [DatagramData.bytes]
        simp only [hsize]
        rw [List.take_of_length_le hlen.le]
      · exact ⟨hd, rfl, by simp⟩

end Connection

open Connection

theorem Writer.congr {c' : Connection} (h : Writer cfg log written c)
    (hs : c'.sequence = c.sequence) (hid : c'.id = c.id) (hw : c'.writeBuffers = c.writeBuffers)
    (ht : c'.threadBuffers = c.threadBuffers) (hwr : c'.writing = c.writing) :
    Writer cfg log written c' := by
  refine ⟨hs ▸ h.sequence, hw ▸ h.fits, ?_, ?_, ?_⟩
  · rw [hw, hid]; exact h.window
  · rw [ht, hid]; exact h.queue
  · rw [ht, hwr]; exact h.content

theorem Writer.queued (h : Writer cfg log written c) {b : Buffer} {queue : List Buffer}
    (hq : c.threadBuffers = b :: queue) {merged : DatagramData × List Buffer × List Buffer}
    (hm : merged = mergeWrites cfg { b.data with sequence := c.sequence } queue) :
    Writer cfg (log ++ [merged.1.bytes]) written (c.queued b merged) ∧
      Packet c.id (log ++ [merged.1.bytes]) log.length merged.1 := by
  have hb := h.queue b (hq ▸ List.mem_cons_self)
  have hrest : ∀ x ∈ queue, Queued cfg c.id x.data :=
    fun x hx => h.queue x (hq ▸ List.mem_cons_of_mem _ hx)
  obtain ⟨hmq, hms, hmb⟩ := mergeWrites_spec queue { b.data with sequence := c.sequence }
    ⟨hb.writer, hb.full, hb.fits⟩ hrest
  have hsplit := mergeWrites_queue cfg { b.data with sequence := c.sequence } queue
  rw [← hm] at hmq hms hmb hsplit
  have hnew : Packet c.id (log ++ [merged.1.bytes]) log.length merged.1 :=
    ⟨hmq.writer, hms.trans h.sequence, by simp, hmq.full⟩
  refine ⟨⟨?_, ?_, ?_, ?_, ?_⟩, hnew⟩
  · rw [List.length_append, List.length_singleton, serial_succ, ← h.sequence]
    rfl
  · simpa [Connection.queued] using h.fits
  · intro i x hx
    have hlen : (log ++ [merged.1.bytes]).length - (c.queued b merged).writeBuffers.length =
        log.length - c.writeBuffers.length := by
      simp [Connection.queued]
    rw [hlen]
    rcases lt_or_ge i c.writeBuffers.length with hi | hi
    · rw [Connection.queued, List.getElem?_append_left hi] at hx
      exact (h.window i x hx).mono (List.prefix_append _ _)
    · rw [Connection.queued, List.getElem?_append_right hi] at hx
      have hi0 : i - c.writeBuffers.length = 0 := by
        have := (List.getElem?_eq_some_iff.1 hx).1
        simp only [List.length_singleton] at this
        omega
      rw [hi0, List.getElem?_cons_zero, Option.some.injEq] at hx
      have hfit := h.fits
      rw [show log.length - c.writeBuffers.length + i = log.length by omega, ← hx]
      exact hnew
  · intro x hx
    refine hrest x ?_
    rw [← hsplit]
    exact List.mem_append_right _ hx
  · rw [← h.content, hq, ← hsplit]
    change merged.1.bytes = b.data.bytes ++ _ at hmb
    simp [Connection.queued, hmb]

theorem Writer.writePush (h : Writer cfg log written c) {b : Buffer}
    (hlt : c.threadBuffers.length < cfg.numBuffers) : Writer cfg log written { c with
      threadBuffers := pushThread cfg.numBuffers c.threadBuffers (c.nextPacket cfg b)
      writing := c.writing.drop cfg.payloadSize
      inHand := none } := by
  have hp := cfg.payloadSize_lt
  have hlen : (c.writing.take cfg.payloadSize).length ≤ cfg.payloadSize := List.length_take_le _ _
  have hsize : (c.nextPacket cfg b).data.size.toNat = (c.writing.take cfg.payloadSize).length := by
    simp only [nextPacket, BitVec.toNat_ofNat]
    exact Nat.mod_eq_of_lt (by omega)
  have hbytes : (c.nextPacket cfg b).data.bytes = c.writing.take cfg.payloadSize := by
    rw [DatagramData.bytes, hsize]
    exact List.take_of_length_le le_rfl
  refine ⟨h.sequence, h.fits, h.window, ?_, ?_⟩
  · intro x hx
    rw [pushThread, if_pos hlt] at hx
    rcases List.mem_append.1 hx with hx | hx
    · exact h.queue x hx
    · rw [List.mem_singleton.1 hx]
      exact ⟨rfl, hsize.le, hsize ▸ hlen⟩
  · simp only [pushThread, if_pos hlt, List.map_append, List.map_cons, List.map_nil,
      List.flatten_append, List.flatten_singleton, hbytes, List.append_assoc,
      List.take_append_drop]
    rw [← h.content, List.append_assoc]

theorem Writer.write (h : Writer cfg log written c) (hwr : c.writing = []) (bytes : List UInt8) :
    Writer cfg log (written ++ bytes) { c with writing := bytes } := by
  refine ⟨h.sequence, h.fits, h.window, h.queue, ?_⟩
  rw [← h.content, hwr, List.append_nil]

theorem Writer.release_first (h : Writer cfg log written c) {b : Buffer} {rest : List Buffer}
    (hw : c.writeBuffers = b :: rest) {c' : Connection} (hs : c'.sequence = c.sequence)
    (hid : c'.id = c.id) (hw' : c'.writeBuffers = rest)
    (ht : c'.threadBuffers = c.threadBuffers) (hwr : c'.writing = c.writing) :
    Writer cfg log written c' := by
  have hfits := h.fits
  rw [hw, List.length_cons] at hfits
  refine ⟨hs ▸ h.sequence, by rw [hw']; omega, ?_, ?_, ?_⟩
  · intro i x hx
    rw [hw'] at hx ⊢
    have hp := h.window (i + 1) x (by rw [hw]; simpa using hx)
    rw [hw, List.length_cons] at hp
    rw [hid, show log.length - rest.length + i = log.length - (rest.length + 1) + (i + 1) by omega]
    exact hp
  · rw [ht, hid]; exact h.queue
  · rw [ht, hwr]; exact h.content

theorem repeatLoop_mem {sequence : U16} {writeBuffers : List Buffer} {fuel : ℕ}
    {queue : List Nack} {d : DatagramData}
    (h : (repeatLoop sequence writeBuffers fuel queue).2 = some d) :
    ∃ (i : ℕ) (b : Buffer), writeBuffers[i]? = some b ∧ d = b.data := by
  induction fuel generalizing queue with
  | zero => simp [repeatLoop] at h
  | succ fuel ih =>
      cases queue with
      | nil => simp [repeatLoop] at h
      | cons request queue =>
          simp only [repeatLoop] at h
          split_ifs at h with hzero hstop hend
          all_goals first
            | exact ih h
            | (obtain ⟨b, hb, rfl⟩ := Option.map_eq_some_iff.1 h
               exact ⟨_, b, hb, rfl⟩)

end Collage.Rsp
