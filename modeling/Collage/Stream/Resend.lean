import Collage.Stream.Chunking

/-!
# Saved streams

A saving stream keeps all its bytes, or a compression result of exactly all of them. The result of
a single chunk is never taken for the whole: every chunk starts from the uncompressed state.
-/

namespace Collage.Stream

open CompressorState DataOStream

namespace ObjectDataOStream

variable {cfg : Config} {s : ObjectDataOStream} {ws : List Bytes} {bytes : Bytes}

/-- An enabled saving stream after the writes `ws`, with or without receivers. -/
structure Saving (s : ObjectDataOStream) (ws : List Bytes) : Prop where
  enabled : s.enabled = true
  save : s.save = true
  state : s.state = uncompressed
  buffer : s.buffer = ws.flatten

theorem saving_enableCommit (h : s.save = true) (receivers : Bool) :
    Saving (s.enableCommit receivers) [] :=
  ⟨rfl, h, rfl, rfl⟩

theorem Saving.flush (h : Saving s ws) (cfg : Config) : Saving (s.flush send cfg false) ws := by
  obtain ⟨state, result, buffer, hframe⟩ := compress_frame cfg { s with state := uncompressed }
    (s.buffer.drop s.bufferStart) (s.buffer.length - s.bufferStart) part
  have hbuffer := buffer_compress_part cfg { s with state := uncompressed }
    (s.buffer.drop s.bufferStart) (s.buffer.length - s.bufferStart)
  rw [hframe] at hbuffer
  obtain rfl : buffer = s.buffer := hbuffer
  simp only [DataOStream.flush, hframe, resetBuffer]
  cases hc : s.connected with
  | true =>
      simp only [if_true, send, h.save]
      exact ⟨h.enabled, rfl, rfl, h.buffer⟩
  | false =>
      simp only [Bool.false_eq_true, if_false, h.save, if_true]
      exact ⟨h.enabled, rfl, rfl, h.buffer⟩

theorem Saving.write (h : Saving s ws) (cfg : Config) (w : Bytes) :
    Saving (s.write send cfg w) (ws ++ [w]) := by
  have happend : ∀ t : ObjectDataOStream, Saving t ws →
      Saving { t with buffer := t.buffer ++ w } (ws ++ [w]) := by
    intro t ht
    refine ⟨ht.enabled, ht.save, ht.state, ?_⟩
    simp only [ht.buffer, List.flatten_append, List.flatten_singleton]
  unfold DataOStream.write
  by_cases hfull : cfg.objectBufferSize < s.buffer.length - s.bufferStart
  · rw [if_pos hfull]
    exact happend _ (h.flush cfg)
  · rw [if_neg hfull]
    exact happend _ h

theorem Saving.writes (h : Saving s ws) (cfg : Config) (more : List Bytes) :
    Saving (s.writes cfg more) (ws ++ more) := by
  induction more generalizing s ws with
  | nil => simpa [ObjectDataOStream.writes] using h
  | cons w more ih =>
      have hstep := ih (h.write cfg w)
      rwa [List.append_assoc, List.singleton_append] at hstep

/-- A disabled stream that can resend `bytes`: it has them, or what the compressor made of them. -/
structure Saved (cfg : Config) (s : ObjectDataOStream) (bytes : Bytes) : Prop where
  dataSize : s.dataSize = bytes.length
  content : s.state ≠ complete ∧ s.buffer = bytes ∨
    s.state = complete ∧ s.result = cfg.compressor.compress bytes

theorem Saving.disable (h : Saving s ws) (cfg : Config) :
    Saved cfg (s.disable send cfg) ws.flatten := by
  have hsize : s.buffer.length = ws.flatten.length := congrArg List.length h.buffer
  have hnot : ¬ (s.buffer.length - s.bufferStart = 0 ∧ s.state = part) := by
    rw [h.state]
    simp
  unfold DataOStream.disable
  rw [if_neg (by simp [h.enabled])]
  simp only
  rw [if_neg hnot]
  by_cases hsend : decide (0 < s.buffer.length) = true ∧ s.connected = true
  swap
  · rw [if_neg hsend]
    simp only [h.save, Bool.true_eq_false, and_false, if_false]
    refine ⟨hsize, Or.inl ⟨?_, h.buffer⟩⟩
    simp [h.state]
  rw [if_pos hsend]
  simp only [send]
  rcases compress_cases cfg { s with
      dataSize := s.buffer.length, dataSent := decide (0 < s.buffer.length), state := uncompressed }
    (s.buffer.drop s.bufferStart) (s.buffer.length - s.bufferStart)
    (if s.bufferStart = 0 then complete else part) with ⟨hstate, -⟩ | hc | ⟨chunks, hc⟩ | hc
  · split_ifs at hstate <;> simp at hstate
  · rw [hc]
    simp only [h.save, Bool.true_eq_false, and_false, if_false]
    exact ⟨hsize, Or.inl ⟨by simp, h.buffer⟩⟩
  · rw [hc]
    simp only [h.save, Bool.true_eq_false, and_false, if_false]
    exact ⟨hsize, Or.inl ⟨by simp, h.buffer⟩⟩
  · rw [hc]
    simp only [h.save, Bool.true_eq_false, and_false, if_false]
    by_cases hstart : s.bufferStart = 0
    · refine ⟨hsize, Or.inr ⟨if_pos hstart, ?_⟩⟩
      simp only [hstart, List.drop_zero, Nat.sub_zero, List.take_length, h.buffer]
    · simp only [hstart, if_false]
      refine ⟨hsize, Or.inl ⟨by simp, ?_⟩⟩
      simp only [reduceCtorEq, false_and, if_false, h.buffer]

/-- A resend delivers everything in one last command, and leaves the stream ready for the next
one. -/
theorem Saved.resend (h : Saved cfg s bytes) :
    Saved cfg (s.resend cfg) bytes ∧ (s.resend cfg).sub.sequence = 0 ∧
      ∃ c, (s.resend cfg).sub.sent = [c] ∧ c.sequence = s.sub.sequence ∧ c.isLast = true ∧
        c.payload cfg = bytes := by
  have htake : bytes.take s.dataSize = bytes := by
    rw [h.dataSize, List.take_length]
  simp only [ObjectDataOStream.resend, DataOStream.resend, send]
  by_cases hcomplete : s.state = complete
  · have hresult : s.result = cfg.compressor.compress bytes := by
      rcases h.content with ⟨hne, -⟩ | ⟨-, hr⟩
      · exact absurd hcomplete hne
      · exact hr
    simp only [compress, hcomplete, true_or, if_true]
    refine ⟨⟨h.dataSize, Or.inr ⟨rfl, hresult⟩⟩, trivial, _, rfl, rfl, rfl, ?_⟩
    simp [DataCommand.payload, body, hresult, cfg.compressor.decompress_compress]
  have hbuffer : s.buffer = bytes := by
    rcases h.content with ⟨-, hb⟩ | ⟨hc, -⟩
    · exact hb
    · exact absurd hc hcomplete
  rcases compress_cases cfg { s with sub := { s.sub with sent := [] }, connected := true } s.buffer
    s.dataSize complete with ⟨hstate, hc⟩ | hc | ⟨chunks, hc⟩ | hc <;> rw [hc]
  · have hun : s.state = uncompressible := hstate.resolve_left hcomplete
    refine ⟨⟨h.dataSize, Or.inl ⟨hcomplete, hbuffer⟩⟩, rfl, _, rfl, rfl, rfl, ?_⟩
    simp [DataCommand.payload, body, hun, hbuffer, htake]
  · refine ⟨⟨h.dataSize, Or.inl ⟨by simp, hbuffer⟩⟩, rfl, _, rfl, rfl, rfl, ?_⟩
    simp [DataCommand.payload, body, hbuffer, htake]
  · refine ⟨⟨h.dataSize, Or.inl ⟨by simp, hbuffer⟩⟩, rfl, _, rfl, rfl, rfl, ?_⟩
    simp [DataCommand.payload, body, hbuffer, htake]
  · refine ⟨⟨h.dataSize, Or.inr ⟨rfl, by rw [hbuffer, htake]⟩⟩, rfl, _, rfl, rfl, rfl, ?_⟩
    simp [DataCommand.payload, body, hbuffer, htake, cfg.compressor.decompress_compress]

theorem Saved.iterate_resend (h : Saved cfg s bytes) (n : ℕ) :
    Saved cfg ((ObjectDataOStream.resend cfg)^[n] s) bytes := by
  induction n generalizing s with
  | zero => exact h
  | succ n ih =>
      rw [Function.iterate_succ_apply]
      exact ih h.resend.1

/-- However a saving stream was committed, each later resend delivers all its bytes in a single
last command. -/
theorem resend_delivers_all (cfg : Config) {s : ObjectDataOStream} (hsave : s.save = true)
    (receivers : Bool) (ws : List Bytes) (n : ℕ) :
    ∃ c, ((ObjectDataOStream.resend cfg)^[n + 1] (s.commit cfg receivers ws)).sub.sent = [c] ∧
      c.isLast = true ∧ c.payload cfg = ws.flatten := by
  have hsaved : Saved cfg (s.commit cfg receivers ws) ws.flatten :=
    ((saving_enableCommit hsave receivers).writes cfg ws).disable cfg
  obtain ⟨-, -, c, hsent, -, hlast, hpayload⟩ := (hsaved.iterate_resend n).resend
  exact ⟨c, by rw [Function.iterate_succ_apply', hsent], hlast, hpayload⟩

end ObjectDataOStream

theorem ObjectDataOStream.resend_delivers_all_flushed :
    ∃ c, ((ObjectDataOStream.resend (Config.plain 1))^[2]
        ((ObjectDataOStream.fresh true).commit (Config.plain 1) true [[1, 2], [], [3]])).sub.sent =
          [c] ∧ c.isLast = true ∧ c.payload (Config.plain 1) = [1, 2, 3] :=
  ObjectDataOStream.resend_delivers_all (Config.plain 1) rfl true [[1, 2], [], [3]] 1

end Collage.Stream
