import Collage.Stream.OStream

/-!
# Object data in several commands

While a stream is enabled, the commands sent so far are whole groups of consecutive writes and the
rest is pending in the buffer. `_write` flushes only when the next write begins, so whether a last
command follows depends on what is pending when the stream is disabled.
-/

namespace Collage.Stream

open CompressorState

namespace DataOStream

variable {σ : Type}

theorem compress_cases (cfg : Config) (s : DataOStream σ) (src : Bytes) (size : ℕ)
    (r : CompressorState) :
    (s.state = r ∨ s.state = uncompressible) ∧ s.compress cfg src size r = s ∨
    s.compress cfg src size r = { s with state := uncompressed } ∨
    (∃ chunks, s.compress cfg src size r = { s with state := uncompressible, result := chunks }) ∨
    s.compress cfg src size r = { s with
      state := r
      result := cfg.compressor.compress (src.take size)
      buffer := if r = complete ∧ cfg.aggressiveCaching = false then [] else s.buffer } := by
  unfold compress
  by_cases hstate : s.state = r ∨ s.state = uncompressible
  · rw [if_pos hstate]
    exact Or.inl ⟨hstate, rfl⟩
  rw [if_neg hstate]
  by_cases hsmall : cfg.compressor.isGood = false ∨ size ≤ cfg.objectCompression
  · rw [if_pos hsmall]
    exact Or.inr (Or.inl rfl)
  rw [if_neg hsmall]
  by_cases hbig : size ≤ ((cfg.compressor.compress (src.take size)).map List.length).sum
  · exact Or.inr (Or.inr (Or.inl ⟨_, if_pos hbig⟩))
  · exact Or.inr (Or.inr (Or.inr (if_neg hbig)))

/-- From the uncompressed state, whatever the compressor answers, the receiver decodes the range
that was given to it. -/
theorem payload_compress (cfg : Config) {s : DataOStream σ} (src : Bytes) (size : ℕ)
    {r : CompressorState} (hs : s.state = uncompressed) (hr : r = complete ∨ r = part)
    (sequence : BitVec 32) (last : Bool) :
    (DataCommand.mk sequence size last ((s.compress cfg src size r).body src size)).payload cfg =
      src.take size := by
  rcases compress_cases cfg s src size r with ⟨hstate, h⟩ | h | ⟨chunks, h⟩ | h
  · rw [hs] at hstate
    rcases hr with rfl | rfl <;> simp at hstate
  · simp [h, body, DataCommand.payload]
  · simp [h, body, DataCommand.payload]
  · rcases hr with rfl | rfl <;>
      simp [h, body, DataCommand.payload, cfg.compressor.decompress_compress]

theorem compress_frame (cfg : Config) (s : DataOStream σ) (src : Bytes) (size : ℕ)
    (r : CompressorState) :
    ∃ state result buffer, s.compress cfg src size r =
      { s with state := state, result := result, buffer := buffer } := by
  rcases compress_cases cfg s src size r with ⟨-, h⟩ | h | ⟨chunks, h⟩ | h <;>
    exact ⟨_, _, _, h⟩

theorem buffer_compress_part (cfg : Config) (s : DataOStream σ) (src : Bytes) (size : ℕ) :
    (s.compress cfg src size part).buffer = s.buffer := by
  rcases compress_cases cfg s src size part with ⟨-, h⟩ | h | ⟨chunks, h⟩ | h <;> rw [h]
  simp

end DataOStream

/-- The bytes that are pending after some writes, when a stream has receivers. -/
def pending (bufferSize : ℕ) (ws : List Bytes) : ℕ :=
  ws.foldl (fun n w => if bufferSize < n then w.length else n + w.length) 0

theorem pending_concat (bufferSize : ℕ) (ws : List Bytes) (w : Bytes) :
    pending bufferSize (ws ++ [w]) =
      if bufferSize < pending bufferSize ws then w.length else pending bufferSize ws + w.length := by
  rw [pending, List.foldl_append]
  rfl

/-- No write of a list is empty behind a full buffer without a further one that is not: the writes
before the empty ones at the end leave no more than a buffer pending. -/
def EndsInTime (bufferSize : ℕ) (ws : List Bytes) : Prop :=
  ws.rdropWhile List.isEmpty = ws ∨ pending bufferSize (ws.rdropWhile List.isEmpty) ≤ bufferSize

instance (bufferSize : ℕ) (ws : List Bytes) : Decidable (EndsInTime bufferSize ws) :=
  inferInstanceAs (Decidable (_ ∨ _))

theorem pending_of_trailing {bufferSize : ℕ} {ws : List Bytes}
    (h : ws.rdropWhile List.isEmpty ≠ ws) :
    pending bufferSize ws = if bufferSize < pending bufferSize (ws.rdropWhile List.isEmpty) then 0
      else pending bufferSize (ws.rdropWhile List.isEmpty) := by
  induction ws using List.reverseRecOn with
  | nil => exact absurd rfl h
  | append_singleton ws w ih =>
      by_cases hw : w.isEmpty
      · rw [List.rdropWhile_concat_pos _ _ _ hw, pending_concat, List.isEmpty_iff.1 hw]
        by_cases hws : ws.rdropWhile List.isEmpty = ws
        · rw [hws, List.length_nil, Nat.add_zero]
        · rw [ih hws]
          split_ifs <;> simp_all
      · exact absurd (List.rdropWhile_concat_neg _ _ _ hw) h

theorem pending_pos {bufferSize : ℕ} {ws : List Bytes} (h : ws.rdropWhile List.isEmpty ≠ []) :
    0 < pending bufferSize (ws.rdropWhile List.isEmpty) := by
  have hlast := List.rdropWhile_last_not _ _ h
  have hw : 0 < ((ws.rdropWhile List.isEmpty).getLast h).length := by
    rw [List.length_pos_iff]
    exact fun hnil => hlast (by rw [hnil]; rfl)
  rw [← List.dropLast_append_getLast h, pending_concat]
  split_ifs <;> omega

theorem rdropWhile_isEmpty_eq_nil_iff {ws : List Bytes} :
    ws.rdropWhile List.isEmpty = [] ↔ ws.flatten = [] := by
  rw [List.rdropWhile_eq_nil_iff, List.flatten_eq_nil_iff]
  simp only [List.isEmpty_iff]

theorem endsInTime_iff {bufferSize : ℕ} {ws : List Bytes} :
    EndsInTime bufferSize ws ↔ 0 < pending bufferSize ws ∨ ws.flatten = [] := by
  unfold EndsInTime
  by_cases hnil : ws.rdropWhile List.isEmpty = []
  · have hle : pending bufferSize (ws.rdropWhile List.isEmpty) ≤ bufferSize := by
      rw [hnil]
      exact Nat.zero_le _
    exact iff_of_true (Or.inr hle) (Or.inr (rdropWhile_isEmpty_eq_nil_iff.1 hnil))
  have hpos : 0 < pending bufferSize (ws.rdropWhile List.isEmpty) := pending_pos hnil
  have hne : ws.flatten ≠ [] := fun he => hnil (rdropWhile_isEmpty_eq_nil_iff.2 he)
  by_cases hws : ws.rdropWhile List.isEmpty = ws
  · rw [hws] at hpos
    exact iff_of_true (Or.inl hws) (Or.inl hpos)
  · rw [pending_of_trailing hws]
    simp only [hws, hne, false_or, or_false]
    split_ifs <;> omega

theorem pending_of_flatten_eq_nil (bufferSize : ℕ) {writes : List Bytes}
    (h : writes.flatten = []) : pending bufferSize writes = 0 := by
  induction writes using List.reverseRecOn with
  | nil => rfl
  | append_singleton writes w ih =>
      rw [List.flatten_append, List.flatten_singleton, List.append_eq_nil_iff] at h
      rw [pending_concat, ih h.1, h.2]
      split_ifs <;> rfl

/-- The stream has data to send at its end if and only if it was given some. -/
theorem endsInTime_iff_pending {bufferSize : ℕ} {writes : List Bytes} :
    EndsInTime bufferSize writes ↔ (0 < pending bufferSize writes ↔ writes.flatten ≠ []) := by
  rw [endsInTime_iff]
  constructor
  · rintro (hpos | hnil)
    · refine iff_of_true hpos (fun hnil => ?_)
      rw [pending_of_flatten_eq_nil bufferSize hnil] at hpos
      exact absurd hpos (lt_irrefl 0)
    · rw [pending_of_flatten_eq_nil bufferSize hnil]
      exact iff_of_false (lt_irrefl 0) (fun hne => hne hnil)
  · intro h
    by_cases hnil : writes.flatten = []
    · exact Or.inr hnil
    · exact Or.inl (h.2 hnil)

namespace ObjectDataOStream

open DataOStream

variable {cfg : Config} {s : ObjectDataOStream} {ws : List Bytes}

/-- The `n`-th command carries the number `n`. -/
def Numbered (sent : List DataCommand) : Prop :=
  sent.map DataCommand.sequence = (List.range sent.length).map (BitVec.ofNat 32)

theorem Numbered.concat {sent : List DataCommand} (h : Numbered sent) {c : DataCommand}
    (hc : c.sequence = BitVec.ofNat 32 sent.length) : Numbered (sent ++ [c]) := by
  unfold Numbered at h ⊢
  rw [List.map_append, h, List.length_append, List.length_singleton, List.range_succ,
    List.map_append, List.map_singleton, List.map_singleton, hc]

/-- The state of a stream with receivers after the writes `ws`. -/
structure Writing (cfg : Config) (s : ObjectDataOStream) (ws : List Bytes) : Prop where
  enabled : s.enabled = true
  connected : s.connected = true
  state : s.state = uncompressed
  start_le : s.bufferStart ≤ s.buffer.length
  groups : ∃ (groups : List (List Bytes)) (tail : List Bytes), ws = groups.flatten ++ tail ∧
    s.sub.sent.map (DataCommand.payload cfg) = groups.map List.flatten ∧
    s.buffer.drop s.bufferStart = tail.flatten
  pending : s.buffer.length - s.bufferStart = pending cfg.objectBufferSize ws
  numbered : Numbered s.sub.sent
  next : s.sub.sequence = BitVec.ofNat 32 s.sub.sent.length
  notLast : ∀ c ∈ s.sub.sent, c.isLast = false
  full : ∀ c ∈ s.sub.sent, c.payload cfg ≠ []
  saved : s.save = true → s.buffer = ws.flatten
  unsaved : s.save = false → s.bufferStart = 0

theorem writing_enableCommit (cfg : Config) (h : s.sub.sequence = 0) :
    Writing cfg (s.enableCommit true) [] where
  enabled := rfl
  connected := rfl
  state := rfl
  start_le := le_rfl
  groups := ⟨[], [], rfl, rfl, rfl⟩
  pending := rfl
  numbered := rfl
  next := h
  notLast := fun _ hc => nomatch hc
  full := fun _ hc => nomatch hc
  saved := fun _ => rfl
  unsaved := fun _ => rfl

theorem Writing.append (h : Writing cfg s ws) {w : Bytes}
    (hroom : ¬ cfg.objectBufferSize < s.buffer.length - s.bufferStart) :
    Writing cfg { s with buffer := s.buffer ++ w } (ws ++ [w]) := by
  obtain ⟨groups, tail, hws, hsent, htail⟩ := h.groups
  exact {
    enabled := h.enabled
    connected := h.connected
    state := h.state
    start_le := h.start_le.trans (by simp)
    groups := by
      refine ⟨groups, tail ++ [w], ?_, hsent, ?_⟩
      · rw [hws, List.append_assoc]
      · rw [List.drop_append_of_le_length h.start_le, htail]
        simp
    pending := by
      have hle := h.start_le
      rw [h.pending] at hroom
      rw [pending_concat, if_neg hroom, ← h.pending]
      simp only [List.length_append]
      omega
    numbered := h.numbered
    next := h.next
    notLast := h.notLast
    full := h.full
    saved := fun hsave => by
      simp only [h.saved hsave, List.flatten_append, List.flatten_singleton]
    unsaved := h.unsaved }

theorem flush_eq (cfg : Config) (h : Writing cfg s ws) :
    ∃ result c, c.sequence = s.sub.sequence ∧ c.isLast = false ∧
      c.payload cfg = s.buffer.drop s.bufferStart ∧ c.dataSize = (c.payload cfg).length ∧
      s.flush send cfg false = { s with
        state := uncompressed
        result := result
        dataSent := true
        bufferStart := if s.save then s.buffer.length else 0
        buffer := if s.save then s.buffer else []
        sub := ⟨s.sub.sequence + 1, s.sub.sent ++ [c]⟩ } := by
  have hsrc : (s.buffer.drop s.bufferStart).take (s.buffer.length - s.bufferStart) =
      s.buffer.drop s.bufferStart := List.take_of_length_le (by simp)
  obtain ⟨state, result, buffer, hframe⟩ := compress_frame cfg { s with state := uncompressed }
    (s.buffer.drop s.bufferStart) (s.buffer.length - s.bufferStart) part
  have hbuffer := buffer_compress_part cfg { s with state := uncompressed }
    (s.buffer.drop s.bufferStart) (s.buffer.length - s.bufferStart)
  have hpayload := payload_compress cfg (s := { s with state := uncompressed })
    (s.buffer.drop s.bufferStart) (s.buffer.length - s.bufferStart) rfl (Or.inr rfl)
    s.sub.sequence false
  rw [hframe] at hbuffer hpayload
  obtain rfl : buffer = s.buffer := hbuffer
  rw [hsrc] at hpayload
  refine ⟨result, _, rfl, rfl, hpayload, by rw [hpayload, List.length_drop], ?_⟩
  simp only [flush]
  rw [if_pos h.connected, hframe]
  simp only [send, resetBuffer, Bool.false_eq_true, if_false]
  split_ifs <;> rfl

theorem Writing.flush (h : Writing cfg s ws) {w : Bytes}
    (hfull : cfg.objectBufferSize < s.buffer.length - s.bufferStart) :
    Writing cfg { s.flush send cfg false with
      buffer := (s.flush send cfg false).buffer ++ w } (ws ++ [w]) := by
  obtain ⟨groups, tail, hws, hsent, htail⟩ := h.groups
  obtain ⟨result, c, hseq, hlast, hpayload, -, hflush⟩ := flush_eq cfg h
  rw [hflush]
  have hpend :
      (if s.save then s.buffer else []).length - (if s.save then s.buffer.length else 0) = 0 ∧
      (if s.save then s.buffer.length else 0) ≤ (if s.save then s.buffer else []).length := by
    split_ifs <;> simp
  exact {
    enabled := h.enabled
    connected := h.connected
    state := rfl
    start_le := hpend.2.trans (by simp)
    groups := by
      refine ⟨groups ++ [tail], [w], ?_, ?_, ?_⟩
      · rw [hws]
        simp
      · rw [List.map_append, List.map_append, hsent, List.map_singleton, List.map_singleton,
          hpayload, htail]
      · rw [List.drop_append_of_le_length hpend.2, List.drop_of_length_le (by omega)]
        simp
    pending := by
      rw [h.pending] at hfull
      rw [pending_concat, if_pos hfull]
      simp only [List.length_append]
      omega
    numbered := h.numbered.concat (hseq.trans h.next)
    next := by
      simp only [h.next, List.length_append, List.length_singleton]
      rw [BitVec.ofNat_add]
      rfl
    notLast := fun d hd => by
      rcases List.mem_append.1 hd with hd | hd
      · exact h.notLast d hd
      · rw [List.mem_singleton.1 hd]
        exact hlast
    full := fun d hd => by
      rcases List.mem_append.1 hd with hd | hd
      · exact h.full d hd
      · rw [List.mem_singleton.1 hd, hpayload, ← List.length_pos_iff, List.length_drop]
        omega
    saved := fun hsave => by
      have hs : s.save = true := hsave
      simp only [hs, if_true, h.saved hs, List.flatten_append, List.flatten_singleton]
    unsaved := fun hsave => by
      have hs : s.save = false := hsave
      simp only [hs, Bool.false_eq_true, if_false] }

theorem Writing.write (h : Writing cfg s ws) (w : Bytes) :
    Writing cfg (s.write send cfg w) (ws ++ [w]) := by
  unfold DataOStream.write
  by_cases hfull : cfg.objectBufferSize < s.buffer.length - s.bufferStart
  · rw [if_pos hfull]
    exact h.flush hfull
  · rw [if_neg hfull]
    exact h.append hfull

theorem Writing.writes (h : Writing cfg s ws) (more : List Bytes) :
    Writing cfg (s.writes cfg more) (ws ++ more) := by
  induction more generalizing s ws with
  | nil => simpa [ObjectDataOStream.writes] using h
  | cons w more ih =>
      have hstep := ih (h.write w)
      rwa [List.append_assoc, List.singleton_append] at hstep

theorem Writing.disable_empty (h : Writing cfg s ws) (hempty : s.buffer = []) :
    (s.disable send cfg).sub = s.sub ∧ (s.disable send cfg).dataSent = false := by
  unfold disable
  rw [if_neg (by simp [h.enabled])]
  simp [hempty]

/-- Otherwise it sends the pending bytes as the last command, even if there are none. -/
theorem Writing.disable_pending (h : Writing cfg s ws) (hbuffer : s.buffer ≠ []) :
    (s.disable send cfg).dataSent = true ∧
    ∃ c, c.sequence = s.sub.sequence ∧ c.isLast = true ∧
      c.payload cfg = s.buffer.drop s.bufferStart ∧ c.dataSize = (c.payload cfg).length ∧
      (s.disable send cfg).sub = ⟨0, s.sub.sent ++ [c]⟩ := by
  have hpos : 0 < s.buffer.length := List.length_pos_iff.2 hbuffer
  have hr : ∀ r : CompressorState, (r = if s.bufferStart = 0 then complete else part) →
      r = complete ∨ r = part := by
    rintro r rfl
    split_ifs <;> simp
  have hsrc : (s.buffer.drop s.bufferStart).take (s.buffer.length - s.bufferStart) =
      s.buffer.drop s.bufferStart := List.take_of_length_le (by simp)
  have hpayload := payload_compress cfg (s := { s with
      dataSize := s.buffer.length, dataSent := decide (0 < s.buffer.length), state := uncompressed })
    (s.buffer.drop s.bufferStart) (s.buffer.length - s.bufferStart) rfl (hr _ rfl)
    s.sub.sequence true
  obtain ⟨state, result, buffer, hframe⟩ := compress_frame cfg { s with
      dataSize := s.buffer.length, dataSent := decide (0 < s.buffer.length), state := uncompressed }
    (s.buffer.drop s.bufferStart) (s.buffer.length - s.bufferStart)
    (if s.bufferStart = 0 then complete else part)
  rw [hsrc] at hpayload
  have hnot : ¬ (s.buffer.length - s.bufferStart = 0 ∧ s.state = part) := by
    rw [h.state]
    simp
  unfold disable
  rw [if_neg (by simp [h.enabled])]
  simp only
  rw [if_pos ⟨decide_eq_true hpos, h.connected⟩, if_neg hnot]
  simp only [send]
  rw [hframe] at hpayload ⊢
  exact ⟨decide_eq_true hpos, _, rfl, rfl, hpayload, by rw [hpayload, List.length_drop], rfl⟩

/-- The commands of a commit carry exactly the bytes written, and end the stream if there are
any. -/
def Complete (cfg : Config) (ws : List Bytes) (s : ObjectDataOStream) : Prop :=
  Numbered s.sub.sent ∧ (s.sub.sent.map (DataCommand.payload cfg)).flatten = ws.flatten ∧
    (ws.flatten ≠ [] → s.dataSent = true ∧
      ∃ before, s.sub.sent.map DataCommand.isLast = List.replicate before false ++ [true]) ∧
    (ws.flatten = [] → s.sub.sent = [] ∧ s.dataSent = false)

theorem Writing.flatten_payloads (h : Writing cfg s ws) :
    (s.sub.sent.map (DataCommand.payload cfg)).flatten ++ s.buffer.drop s.bufferStart =
      ws.flatten := by
  obtain ⟨groups, tail, hws, hsent, htail⟩ := h.groups
  rw [hsent, htail, hws, List.flatten_append]
  rw [List.flatten_flatten]

theorem Writing.complete_of_pending (h : Writing cfg s ws) (hbuffer : s.buffer ≠ []) :
    Complete cfg ws (s.disable send cfg) := by
  obtain ⟨hsent, c, hseq, hlast, hpayload, -, hsub⟩ := h.disable_pending hbuffer
  have hbytes := h.flatten_payloads
  refine ⟨?_, ?_, fun _ => ⟨hsent, s.sub.sent.length, ?_⟩, fun hempty => ?_⟩
  · rw [hsub]
    exact h.numbered.concat (hseq.trans h.next)
  · rw [hsub, List.map_append, List.flatten_append, List.map_singleton, List.flatten_singleton,
      hpayload, hbytes]
  · rw [hsub, List.map_append, List.map_singleton, hlast]
    congr 1
    exact List.eq_replicate_of_mem (fun b hb => by
      obtain ⟨d, hd, rfl⟩ := List.mem_map.1 hb
      exact h.notLast d hd) |>.trans (by rw [List.length_map])
  · exfalso
    cases hsave : s.save with
    | true => exact hbuffer ((h.saved hsave).trans hempty)
    | false =>
        rw [hempty, h.unsaved hsave, List.drop_zero] at hbytes
        exact hbuffer (List.append_eq_nil_iff.1 hbytes).2

theorem Writing.complete_of_empty (h : Writing cfg s ws) (hbuffer : s.buffer = []) :
    Complete cfg ws (s.disable send cfg) ↔ ws.flatten = [] := by
  obtain ⟨hsub, hsent⟩ := h.disable_empty hbuffer
  have hbytes := h.flatten_payloads
  rw [hbuffer, List.drop_nil, List.append_nil] at hbytes
  constructor
  · intro hc
    by_contra hne
    have hsent' := (hc.2.2.1 hne).1
    rw [hsent] at hsent'
    cases hsent'
  · intro hempty
    have hnil : s.sub.sent = [] := by
      rw [hempty, List.flatten_eq_nil_iff] at hbytes
      refine List.eq_nil_iff_forall_not_mem.2 (fun c hc => ?_)
      exact h.full c hc (hbytes _ (List.mem_map_of_mem hc))
    refine ⟨?_, ?_, fun hne => absurd hempty hne, fun _ => ⟨by rw [hsub, hnil], hsent⟩⟩
    · rw [hsub]
      exact h.numbered
    · rw [hsub, hbytes]

theorem writing_commit (cfg : Config) (h : s.sub.sequence = 0) (ws : List Bytes) :
    Writing cfg ((s.enableCommit true).writes cfg ws) ws :=
  (writing_enableCommit cfg h).writes ws

theorem save_writes (cfg : Config) (s : ObjectDataOStream) (h : s.sub.sequence = 0)
    (ws : List Bytes) : ((s.enableCommit true).writes cfg ws).save = s.save := by
  suffices hall : ∀ (t : ObjectDataOStream) (vs : List Bytes), Writing cfg t vs →
      (t.writes cfg ws).save = t.save from hall _ _ (writing_enableCommit cfg h)
  induction ws with
  | nil => exact fun _ _ _ => rfl
  | cons w ws ih =>
      intro t vs ht
      refine (ih _ _ (ht.write w)).trans ?_
      unfold DataOStream.write
      split_ifs
      · obtain ⟨_, _, -, -, -, -, hflush⟩ := flush_eq cfg ht
        rw [hflush]
      · rfl

/-- From the sequence number 0 on, a commit to some receivers is complete if the stream saves, or its
writes do not end with empty ones behind a full buffer. -/
theorem complete_iff_of_sequence (cfg : Config) (s : ObjectDataOStream) (h : s.sub.sequence = 0)
    (ws : List Bytes) :
    Complete cfg ws (s.commit cfg true ws) ↔
      s.save = true ∨ EndsInTime cfg.objectBufferSize ws := by
  have hw := writing_commit cfg h ws
  have hsave := save_writes cfg s h ws
  rw [endsInTime_iff]
  by_cases hbuffer : ((s.enableCommit true).writes cfg ws).buffer = []
  · refine (hw.complete_of_empty hbuffer).trans ⟨fun hempty => Or.inr (Or.inr hempty), ?_⟩
    rintro (hs | hpos | hempty)
    · exact (hw.saved (hsave.trans hs)).symm.trans hbuffer
    · have hpending := hw.pending
      rw [hbuffer] at hpending
      simp only [List.length_nil, Nat.zero_sub] at hpending
      omega
    · exact hempty
  · refine iff_of_true (hw.complete_of_pending hbuffer) ?_
    cases hs : s.save with
    | true => exact Or.inl rfl
    | false =>
        have hpending := hw.pending
        rw [hw.unsaved (hsave.trans hs)] at hpending
        have hpos := List.length_pos_iff.2 hbuffer
        exact Or.inr (Or.inl (by omega))

/-- `hasSentData` of a new stream that does not save, after some writes to receivers. -/
def hasSentData (bufferSize : ℕ) (ws : List Bytes) : Bool :=
  ((fresh false).commit (Config.plain bufferSize) true ws).dataSent

/-- A stream that does not save has sent data if something is pending at its end, whatever was
flushed before. -/
theorem dataSent_commit_of_unsaved (cfg : Config) {s : ObjectDataOStream} (hsave : s.save = false)
    (hsequence : s.sub.sequence = 0) (writes : List Bytes) :
    (s.commit cfg true writes).dataSent = decide (0 < pending cfg.objectBufferSize writes) := by
  have hw := writing_commit cfg hsequence writes
  have hunsaved := hw.unsaved ((save_writes cfg s hsequence writes).trans hsave)
  have hpending := hw.pending
  rw [hunsaved, Nat.sub_zero] at hpending
  by_cases hbuffer : ((s.enableCommit true).writes cfg writes).buffer = []
  · rw [hbuffer, List.length_nil] at hpending
    rw [← hpending]
    exact (hw.disable_empty hbuffer).2
  · rw [← hpending, decide_eq_true (List.length_pos_iff.2 hbuffer)]
    exact (hw.disable_pending hbuffer).1

theorem hasSentData_iff {bufferSize : ℕ} {ws : List Bytes} :
    hasSentData bufferSize ws = true ↔ ws.flatten ≠ [] ∧ EndsInTime bufferSize ws := by
  rw [hasSentData, dataSent_commit_of_unsaved (Config.plain bufferSize) rfl rfl, decide_eq_true_eq,
    endsInTime_iff_pending]
  change 0 < pending bufferSize ws ↔ _
  constructor
  · intro hpos
    have hne : ws.flatten ≠ [] := fun hnil =>
      hpos.ne' (pending_of_flatten_eq_nil bufferSize hnil)
    exact ⟨hne, iff_of_true hpos hne⟩
  · rintro ⟨hne, hends⟩
    exact hends.2 hne

/-- The first command that a stream sends carries the number it starts with. -/
def StartsWith (n : BitVec 32) (sub : ObjectStream) : Prop :=
  (sub.sent = [] ∧ sub.sequence = n) ∨ ∃ c ∈ sub.sent.head?, c.sequence = n

theorem StartsWith.sent {n : BitVec 32} (h : StartsWith n s.sub) (data : Bytes) (size : ℕ)
    (last : Bool) : StartsWith n (s.send data size last).sub := by
  refine Or.inr ?_
  rcases h with ⟨hnil, hsequence⟩ | ⟨c, hc, hsequence⟩
  · refine ⟨⟨s.sub.sequence, size, last, s.body data size⟩, ?_, hsequence⟩
    simp [ObjectDataOStream.send, hnil]
  · refine ⟨c, ?_, hsequence⟩
    change (s.sub.sent ++ _).head? = some c
    rw [List.head?_append, hc]
    rfl

theorem sub_compress (cfg : Config) (s : ObjectDataOStream) (src : Bytes) (size : ℕ)
    (r : CompressorState) : (s.compress cfg src size r).sub = s.sub := by
  obtain ⟨state, result, buffer, hframe⟩ := compress_frame cfg s src size r
  rw [hframe]

theorem StartsWith.compress_stream {n : BitVec 32} (h : StartsWith n s.sub) (src : Bytes) (size : ℕ)
    (r : CompressorState) : StartsWith n (s.compress cfg src size r).sub := by
  rwa [sub_compress]

theorem StartsWith.flush {n : BitVec 32} (h : StartsWith n s.sub) (cfg : Config) (last : Bool) :
    StartsWith n (s.flush ObjectDataOStream.send cfg last).sub := by
  have hreset (t : ObjectDataOStream) : t.resetBuffer.sub = t.sub := by
    unfold resetBuffer
    split_ifs <;> rfl
  simp only [DataOStream.flush, hreset]
  split_ifs
  · refine StartsWith.sent (StartsWith.compress_stream ?_ _ _ _) _ _ _
    exact h
  · exact h

theorem StartsWith.writes {n : BitVec 32} (h : StartsWith n s.sub) (cfg : Config)
    (ws : List Bytes) : StartsWith n (s.writes cfg ws).sub := by
  refine List.foldlRecOn (motive := fun t : ObjectDataOStream => StartsWith n t.sub) ws _ h
    (fun t ht w _ => ?_)
  simp only [DataOStream.write]
  split_ifs
  · exact ht.flush cfg false
  · exact ht

theorem StartsWith.disable {n : BitVec 32} (h : StartsWith n s.sub) (cfg : Config) :
    StartsWith n (s.disable ObjectDataOStream.send cfg).sub := by
  simp only [DataOStream.disable]
  split
  · exact h
  · simp only
    split
    · split
      · refine StartsWith.sent ?_ _ _ _
        exact h
      · refine StartsWith.sent (StartsWith.compress_stream ?_ _ _ _) _ _ _
        exact h
    · exact h

theorem complete_of_flatten_eq_nil (cfg : Config) (s : ObjectDataOStream) {ws : List Bytes}
    (h : ws.flatten = []) : Complete cfg ws (s.commit cfg true ws) := by
  have hwrites (t : ObjectDataOStream) (ht : t.buffer = []) : t.writes cfg ws = t := by
    refine List.foldlRecOn (motive := fun u => u = t) ws _ rfl ?_
    rintro u rfl w hw
    rw [List.flatten_eq_nil_iff.1 h w hw, DataOStream.write,
      if_neg (by rw [ht, List.length_nil, Nat.zero_sub]; exact Nat.not_lt_zero _), List.append_nil]
  have hsub : (s.commit cfg true ws).sub.sent = [] ∧ (s.commit cfg true ws).dataSent = false := by
    rw [ObjectDataOStream.commit, hwrites _ rfl]
    exact ⟨rfl, rfl⟩
  refine ⟨?_, ?_, fun hne => absurd h hne, fun _ => hsub⟩
  · rw [hsub.1]
    rfl
  · rw [hsub.1, h]
    rfl

/-- A commit to some receivers is complete if and only if nothing is written, or the stream is at the
sequence number 0 and saves or its writes do not end with empty ones behind a full buffer. -/
theorem commit_complete_iff (cfg : Config) (s : ObjectDataOStream) (ws : List Bytes) :
    Complete cfg ws (s.commit cfg true ws) ↔ ws.flatten = [] ∨
      s.sub.sequence = 0 ∧ (s.save = true ∨ EndsInTime cfg.objectBufferSize ws) := by
  by_cases hempty : ws.flatten = []
  · exact iff_of_true (complete_of_flatten_eq_nil cfg s hempty) (Or.inl hempty)
  · rw [or_iff_right hempty]
    by_cases hsequence : s.sub.sequence = 0
    · rw [complete_iff_of_sequence cfg s hsequence, and_iff_right hsequence]
    · refine iff_of_false (fun hcomplete => ?_) (fun h => hsequence h.1)
      obtain ⟨hnumbered, -, hlast, -⟩ := hcomplete
      obtain ⟨-, before, hbefore⟩ := hlast hempty
      have henabled : StartsWith s.sub.sequence (s.enableCommit true).sub := Or.inl ⟨rfl, rfl⟩
      have hstarts : StartsWith s.sub.sequence (s.commit cfg true ws).sub :=
        (henabled.writes cfg ws).disable cfg
      rcases hstarts with ⟨hnil, -⟩ | ⟨c, hc, hc'⟩
      · rw [hnil] at hbefore
        simp at hbefore
      · obtain ⟨rest, hsent⟩ := List.head?_eq_some_iff.1 hc
        rw [Numbered, hsent, List.map_cons, List.length_cons, List.range_succ_eq_map,
          List.map_cons] at hnumbered
        exact hsequence (hc'.symm.trans (List.cons.inj hnumbered).1)

theorem sequence_commit (cfg : Config) {s : ObjectDataOStream} (h : s.sub.sequence = 0)
    {ws : List Bytes} (hends : s.save = true ∨ EndsInTime cfg.objectBufferSize ws) :
    (s.commit cfg true ws).sub.sequence = 0 := by
  have hw := writing_commit cfg h ws
  by_cases hbuffer : ((s.enableCommit true).writes cfg ws).buffer = []
  · have hempty := (hw.complete_of_empty hbuffer).1 ((complete_iff_of_sequence cfg s h ws).2 hends)
    have hnone := ((complete_of_flatten_eq_nil cfg s hempty).2.2.2 hempty).1
    have hsub := (hw.disable_empty hbuffer).1
    have hnext := hw.next
    change (s.commit cfg true ws).sub = _ at hsub
    rw [hsub] at hnone ⊢
    rw [hnext, hnone]
    rfl
  · obtain ⟨-, c, -, -, -, -, hsub⟩ := hw.disable_pending hbuffer
    change (s.commit cfg true ws).sub = _ at hsub
    rw [hsub]

end ObjectDataOStream

theorem ObjectDataOStream.commit_complete_iff_three :
    ObjectDataOStream.Complete (Config.plain 1) [[1, 2], [], [3]]
      ((ObjectDataOStream.fresh false).commit (Config.plain 1) true [[1, 2], [], [3]]) :=
  (ObjectDataOStream.commit_complete_iff (Config.plain 1) (ObjectDataOStream.fresh false)
    [[1, 2], [], [3]]).2 (Or.inr ⟨rfl, Or.inr (by decide)⟩)

theorem ObjectDataOStream.empty_write_drops_last :
    ¬ ObjectDataOStream.Complete (Config.plain 1) [[1, 2], []]
      ((ObjectDataOStream.fresh false).commit (Config.plain 1) true [[1, 2], []]) := by
  intro h
  exact absurd (h.2.2.1 (by decide)).1 (by decide)

end Collage.Stream
