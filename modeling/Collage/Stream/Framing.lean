import Collage.Stream.Command

/-!
# Framing

A command that fits into the buffer of its stream goes out in one piece under the send lock, with
its real length in front. One that does not is flushed in the middle: what the receiver takes for
the command ends there.
-/

namespace Collage.Stream

open DataOStream

section Memory

variable (memory : ℕ → UInt8)

@[simp] theorem length_fill (bytes : Bytes) (n : ℕ) : (fill memory bytes n).length = n := by
  simp [fill]

theorem take_fill {bytes : Bytes} {k n : ℕ} (hk : k ≤ bytes.length) (hn : k ≤ n) :
    (fill memory bytes n).take k = bytes.take k := by
  apply List.ext_getElem
  · simp only [List.length_take, length_fill]
    omega
  · intro i hi hi'
    have hlt : i < bytes.length := by
      simp only [List.length_take] at hi'
      omega
    simp [fill, hlt]

theorem fill_eq_take {bytes : Bytes} {n : ℕ} (hn : n ≤ bytes.length) :
    fill memory bytes n = bytes.take n := by
  rw [← take_fill memory hn le_rfl, List.take_of_length_le (by simp)]

end Memory

section Receiver

theorem readCommand_append {frame : Bytes} {n : ℕ} (hlen : frame.length = max n commandMinSize)
    (hsize : ofLE (frame.take 8) = n) (rest : Bytes) :
    readCommand (frame ++ rest) = some (ICommand.ofBuffer frame, rest) := by
  have hmin : commandMinSize ≤ frame.length := by omega
  have hhead : readHead (frame ++ rest) =
      some (frame.take commandMinSize, frame.drop commandMinSize ++ rest) := by
    rw [readHead, if_neg (by rw [List.length_append]; omega), List.take_append_of_le_length hmin,
      List.drop_append_of_le_length hmin]
  have hneeded : (ICommand.ofBuffer (frame.take commandMinSize)).size = n := by
    rw [ICommand.ofBuffer, List.take_take]
    exact hsize
  rw [readCommand, hhead, Option.bind_some]
  simp only [hneeded]
  have hlen' : (frame.take commandMinSize).length = commandMinSize := by
    rw [List.length_take]
    omega
  by_cases hsmall : n ≤ commandMinSize
  · have hall : frame.take commandMinSize = frame := List.take_of_length_le (by omega)
    have hnone : frame.drop commandMinSize = [] := List.drop_of_length_le (by omega)
    rw [readTail, hlen', if_pos hsmall, hall, hnone]
    rfl
  · have htail : (frame.drop commandMinSize).length = n - commandMinSize := by
      rw [List.length_drop]
      omega
    rw [readTail, hlen', if_neg hsmall, if_neg (by rw [List.length_append]; omega), ← htail,
      List.take_left, List.drop_left, List.take_append_drop]
    rfl

end Receiver

namespace OCommand

variable (memory : ℕ → UInt8) (objectBufferSize : ℕ)

theorem foldl_write_of_fits {ws : List Bytes} {s : CommandStream} (hstart : s.bufferStart = 0)
    (hfits : (s.buffer ++ ws.dropLast.flatten).length ≤ objectBufferSize) :
    ws.foldl (write memory objectBufferSize) s = { s with buffer := s.buffer ++ ws.flatten } := by
  induction ws generalizing s with
  | nil => simp
  | cons w ws ih =>
      have hroom : s.buffer.length ≤ objectBufferSize := by
        rw [List.length_append] at hfits
        omega
      have hwrite : write memory objectBufferSize s w = { s with buffer := s.buffer ++ w } := by
        have hnot : ¬ (Config.plain objectBufferSize).objectBufferSize <
            s.buffer.length - s.bufferStart := by
          rw [hstart]
          exact not_lt.2 hroom
        rw [write, DataOStream.write, if_neg hnot]
      rw [List.foldl_cons, hwrite]
      cases ws with
      | nil => simp
      | cons v vs =>
          have hrest : ({ s with buffer := s.buffer ++ w }.buffer ++
              (v :: vs).dropLast.flatten).length ≤ objectBufferSize := by
            simpa [Nat.add_assoc] using hfits
          rw [ih (s := { s with buffer := s.buffer ++ w }) hstart hrest]
          simp

/-- A compressor that was never chosen leaves the stream uncompressed. -/
theorem compress_plain {s : CommandStream} (h : s.state = .uncompressed) (src : Bytes) (size : ℕ)
    (r : CompressorState) (hr : r ≠ .uncompressed) :
    s.compress (Config.plain objectBufferSize) src size r = s := by
  have hne : ¬ (s.state = r ∨ s.state = .uncompressible) := by
    rw [h]
    exact not_or.2 ⟨Ne.symm hr, by simp⟩
  have hbad : (Config.plain objectBufferSize).compressor.isGood = false := rfl
  rw [compress, if_neg hne, if_pos (Or.inl hbad), ← h]

/-- The bytes that `sendData` sends from: the whole buffer with the size of the given part. -/
def sized (s : CommandStream) : Bytes :=
  toLE 8 (s.sub.size + (s.buffer.length - s.bufferStart)) ++ s.buffer.drop 8

theorem flush_eq {s : CommandStream} (hc : s.connected = true) (hsave : s.save = true)
    (last : Bool) :
    s.flush (sendData memory) (Config.plain objectBufferSize) last = { s with
      state := .uncompressed
      dataSent := true
      buffer := sized s
      bufferStart := (sized s).length
      sub := { s.sub with ops := s.sub.ops ++ [.send (fill memory (sized s)
        (if s.sub.isLocked then s.buffer.length - s.bufferStart
          else max (s.buffer.length - s.bufferStart) commandMinSize)) s.sub.isLocked] } } := by
  have hplain : compress (Config.plain objectBufferSize) { s with state := .uncompressed }
      (s.buffer.drop s.bufferStart) (s.buffer.length - s.bufferStart) .part =
        { s with state := .uncompressed } := compress_plain _ rfl _ _ _ (by simp)
  rw [flush, if_pos hc, hplain]
  simp only [sendData, perform, resetBuffer]
  exact if_pos hsave

theorem foldl_words {c : OCommand} (h : c.Fits objectBufferSize) :
    c.words.foldl (write memory objectBufferSize) start = { start with buffer := c.words.flatten } :=
  foldl_write_of_fits memory objectBufferSize rfl h

theorem length_words (c : OCommand) : c.words.flatten.length = 16 + c.args.flatten.length := by
  simp [words]
  omega

/-- The bytes of a command with the real size in front. -/
def header (c : OCommand) : Bytes := toLE 8 c.size ++ c.words.flatten.drop 8

theorem length_header (c : OCommand) : c.header.length = 16 + c.args.flatten.length := by
  rw [header, List.length_append, length_toLE, List.length_drop, length_words]
  omega

theorem ops_of_fits_simple {c : OCommand} (h : c.Fits objectBufferSize)
    (hdata : c.data.flatten = []) : c.ops memory objectBufferSize =
      [.send (fill memory c.header (max c.size commandMinSize)) false] := by
  have hsize : c.size = c.words.flatten.length := by
    rw [size, hdata, length_words]
    rfl
  have hpos : 0 < c.words.flatten.length := by
    rw [length_words]
    omega
  rw [ops, run, hdata, foldl_words memory objectBufferSize h]
  simp only [List.length_nil, lt_irrefl, if_false, destroy, start, Bool.false_eq_true, disable,
    Bool.true_eq_false, hpos, decide_true, and_self, if_true, List.drop_zero, Nat.sub_zero,
    reduceCtorEq, and_false]
  rw [compress_plain _ rfl _ _ _ (by simp)]
  simp only [sendData, perform, header, hsize, Bool.false_eq_true, if_false, Nat.zero_add,
    List.nil_append]

theorem foldl_perform (pieces : List Bytes) (s : CommandStream) :
    pieces.foldl (fun s piece => perform s (.send piece true)) s =
      { s with sub := { s.sub with
        ops := s.sub.ops ++ pieces.map (fun piece => .send piece true) } } := by
  induction pieces generalizing s with
  | nil => simp
  | cons piece pieces ih =>
      rw [List.foldl_cons, ih]
      simp [perform]

theorem ops_of_fits_data {c : OCommand} (h : c.Fits objectBufferSize)
    (hdata : 0 < c.data.flatten.length) :
    c.ops memory objectBufferSize =
      [.lockSend, .send c.header true] ++ c.data.map (fun piece => .send piece true) ++
        (if c.size < commandMinSize then
          [.send (fill memory [] (commandMinSize - c.size)) true] else []) ++ [.unlockSend] := by
  have hsize : c.data.flatten.length + c.words.flatten.length = c.size := by
    rw [size, length_words]
    omega
  have hhead : (toLE 8 c.size ++ c.words.flatten.drop 8).length = c.words.flatten.length := by
    rw [← header, length_header, length_words]
  rw [ops, run, if_pos hdata, foldl_words memory objectBufferSize h]
  rw [foldl_perform, sendHeader, flush_eq memory objectBufferSize rfl rfl]
  simp only [sized, perform, start, if_true, Nat.sub_zero, hsize, destroy, hhead]
  rw [fill_eq_take memory hhead.ge, ← hhead, List.take_length]
  split_ifs <;> simp [header]

theorem wire_of_fits {c : OCommand} (h : c.Fits objectBufferSize) :
    ∃ padding, wireOf (c.ops memory objectBufferSize) = c.header ++ c.data.flatten ++ padding ∧
      padding.length = commandMinSize - c.size := by
  rcases Nat.eq_zero_or_pos c.data.flatten.length with hzero | hdata
  · have hnil := List.length_eq_zero_iff.1 hzero
    have hlen : c.header.length = c.size := by
      rw [length_header, size, hnil]
      rfl
    refine ⟨(fill memory c.header (max c.size commandMinSize)).drop c.size, ?_, ?_⟩
    · rw [ops_of_fits_simple memory objectBufferSize h hnil, hnil, List.append_nil]
      simp only [wireOf, List.map_cons, List.map_nil, ConnectionOp.bytes, List.flatten_singleton]
      nth_rewrite 1 [← List.take_append_drop c.size
        (fill memory c.header (max c.size commandMinSize))]
      rw [take_fill memory hlen.ge (le_max_left _ _), ← hlen, List.take_length]
    · rw [List.length_drop, length_fill]
      omega
  · refine ⟨if c.size < commandMinSize then fill memory [] (commandMinSize - c.size) else [], ?_, ?_⟩
    · rw [ops_of_fits_data memory objectBufferSize h hdata]
      split_ifs <;>
        simp [wireOf, ConnectionOp.bytes, List.map_map, Function.comp_def]
    · split_ifs
      · rw [length_fill]
      · rw [List.length_nil]
        omega

theorem take_header (c : OCommand) : c.header.take 8 = toLE 8 c.size := by
  rw [header, List.take_append_of_le_length (by simp), List.take_of_length_le (by simp)]

theorem drop_words (c : OCommand) :
    c.words.flatten.drop 8 = toLE 4 c.type.toNat ++ (toLE 4 c.cmd.toNat ++ c.args.flatten) := by
  have hsplit : c.words.flatten =
      toLE 8 0 ++ (toLE 4 c.type.toNat ++ (toLE 4 c.cmd.toNat ++ c.args.flatten)) := by
    simp [words]
  rw [hsplit, List.drop_left' (by simp)]

theorem bitVec_ofLE_toLE (x : BitVec 32) : BitVec.ofNat 32 (ofLE (toLE 4 x.toNat)) = x := by
  rw [ofLE_toLE_of_lt (lt_of_lt_of_le x.isLt (by norm_num)), BitVec.ofNat_toNat, BitVec.setWidth_eq]

theorem ofBuffer_frame {c : OCommand} (hsize : c.size < 2 ^ 64) (padding : Bytes) :
    ICommand.ofBuffer (c.header ++ c.data.flatten ++ padding) = c.received := by
  have h64 : c.size < 256 ^ 8 := lt_of_lt_of_le hsize (by norm_num)
  have hframe : c.header ++ c.data.flatten ++ padding = toLE 8 c.size ++ (toLE 4 c.type.toNat ++
      (toLE 4 c.cmd.toNat ++ (c.args.flatten ++ c.data.flatten ++ padding))) := by
    rw [header, drop_words]
    simp only [List.append_assoc]
  have hfield : ofLE ((c.header ++ c.data.flatten ++ padding).take 8) = c.size := by
    rw [hframe, List.take_left' (by simp), ofLE_toLE_of_lt h64]
  have hbody : c.args.flatten.length + c.data.flatten.length = c.size - 16 := by
    rw [size]
    omega
  have h16 : 16 ≤ c.size := by
    rw [size]
    omega
  simp only [ICommand.ofBuffer, hfield, received, ICommand.mk.injEq, true_and]
  rw [hframe]
  refine ⟨?_, ?_, ?_⟩
  · rw [List.drop_left' (by simp), List.take_left' (by simp), bitVec_ofLE_toLE]
  · rw [show 12 = 8 + 4 from rfl, ← List.drop_drop, List.drop_left' (by simp),
      List.drop_left' (by simp), List.take_left' (by simp), bitVec_ofLE_toLE]
  · rw [List.drop_take, show 16 = 8 + (4 + 4) from rfl, ← List.drop_drop, ← List.drop_drop,
      List.drop_left' (by simp), List.drop_left' (by simp), List.drop_left' (by simp),
      show c.size - (8 + (4 + 4)) = (c.args.flatten ++ c.data.flatten).length by
        rw [List.length_append, hbody], List.take_left]

theorem framed_of_fits {c : OCommand} (hsize : c.size < 2 ^ 64) (h : c.Fits objectBufferSize) :
    c.Framed memory objectBufferSize := by
  obtain ⟨padding, hwire, hpad⟩ := wire_of_fits memory objectBufferSize h
  have h64 : c.size < 256 ^ 8 := lt_of_lt_of_le hsize (by norm_num)
  have hlen : (c.header ++ c.data.flatten ++ padding).length = max c.size commandMinSize := by
    rw [List.length_append, List.length_append, length_header, hpad]
    have hsz : c.size = 16 + c.args.flatten.length + c.data.flatten.length := rfl
    omega
  have hfield : ofLE ((c.header ++ c.data.flatten ++ padding).take 8) = c.size := by
    rw [List.append_assoc, List.take_append_of_le_length (by rw [length_header]; omega), take_header,
      ofLE_toLE_of_lt h64]
  unfold Framed
  rw [hwire]
  refine ⟨hlen, hfield, fun rest => ?_⟩
  rw [readCommand_append hlen hfield, ofBuffer_frame hsize]

section Overrun

theorem exists_overrun {bound : ℕ} {ws : List Bytes} (h : bound < ws.dropLast.flatten.length) :
    ∃ before w after, ws = before ++ w :: after ∧ before.dropLast.flatten.length ≤ bound ∧
      bound < before.flatten.length := by
  induction ws using List.reverseRecOn with
  | nil => simp at h
  | append_singleton vs v ih =>
      rw [List.dropLast_concat] at h
      by_cases hvs : vs.dropLast.flatten.length ≤ bound
      · exact ⟨vs, v, [], rfl, hvs, h⟩
      · obtain ⟨before, w, after, rfl, hfits, hover⟩ := ih (not_le.1 hvs)
        exact ⟨before, w, after ++ [v], by simp, hfits, hover⟩

/-- A command of which `frame` is already on the wire. -/
structure Torn (frame : Bytes) (s : CommandStream) : Prop where
  enabled : s.enabled = true
  connected : s.connected = true
  save : s.save = true
  state : s.state = .uncompressed
  unlocked : s.sub.isLocked = false
  buffer : s.buffer ≠ []
  wire : ∃ more, wireOf s.sub.ops = frame ++ more

theorem wireOf_append (ops more : List ConnectionOp) :
    wireOf (ops ++ more) = wireOf ops ++ wireOf more := by
  simp [wireOf]

theorem Torn.write {frame : Bytes} {s : CommandStream} (h : Torn frame s) (w : Bytes) :
    Torn frame (write memory objectBufferSize s w) := by
  obtain ⟨more, hmore⟩ := h.wire
  unfold OCommand.write DataOStream.write
  split_ifs
  · rw [flush_eq memory objectBufferSize h.connected h.save]
    refine ⟨h.enabled, h.connected, h.save, rfl, h.unlocked, ?_, ?_⟩
    · simp [sized, toLE]
    · rw [wireOf_append, hmore]
      exact ⟨_, List.append_assoc _ _ _⟩
  · exact ⟨h.enabled, h.connected, h.save, h.state, h.unlocked, by simp [h.buffer], more, hmore⟩

theorem Torn.writes {frame : Bytes} {s : CommandStream} (h : Torn frame s) (ws : List Bytes) :
    Torn frame (ws.foldl (OCommand.write memory objectBufferSize) s) := by
  induction ws generalizing s with
  | nil => exact h
  | cons w ws ih => exact ih (h.write memory objectBufferSize w)

theorem torn_words {c : OCommand} (h : ¬ c.Fits objectBufferSize) (hsize : c.size < 2 ^ 64) :
    ∃ (frame : Bytes) (n : ℕ), frame.length = max n commandMinSize ∧ ofLE (frame.take 8) = n ∧
      Torn frame (c.words.foldl (OCommand.write memory objectBufferSize) start) := by
  obtain ⟨before, w, after, hwords, hfits, hover⟩ := exists_overrun (not_le.1 h)
  have hn : before.flatten.length < 256 ^ 8 := by
    have hle : before.flatten.length ≤ c.words.flatten.length := by
      rw [hwords, List.flatten_append, List.length_append]
      omega
    have hsz : c.size = 16 + c.args.flatten.length + c.data.flatten.length := rfl
    rw [length_words] at hle
    have h64 : (2 : ℕ) ^ 64 = 256 ^ 8 := by norm_num
    omega
  have hbefore : before.foldl (OCommand.write memory objectBufferSize) start =
      { start with buffer := before.flatten } :=
    foldl_write_of_fits memory objectBufferSize rfl hfits
  refine ⟨fill memory (toLE 8 before.flatten.length ++ before.flatten.drop 8)
    (max before.flatten.length commandMinSize), before.flatten.length, by simp, ?_, ?_⟩
  · rw [take_fill memory (by simp) (by rw [commandMinSize]; omega), List.take_left' (by simp),
      ofLE_toLE_of_lt hn]
  · rw [hwords, List.foldl_append, List.foldl_cons, hbefore]
    refine Torn.writes memory objectBufferSize ?_ after
    have hfull : (Config.plain objectBufferSize).objectBufferSize <
        ({ start with buffer := before.flatten } : CommandStream).buffer.length -
          ({ start with buffer := before.flatten } : CommandStream).bufferStart := hover
    rw [OCommand.write, DataOStream.write, if_pos hfull,
      flush_eq memory objectBufferSize rfl rfl]
    refine ⟨rfl, rfl, rfl, rfl, rfl, by simp [sized, toLE], [], ?_⟩
    simp [wireOf, ConnectionOp.bytes, sized, start]

theorem Torn.destroy {frame : Bytes} {s : CommandStream} (h : Torn frame s) :
    ∃ more, more ≠ [] ∧
      wireOf (destroy memory objectBufferSize s).sub.ops = frame ++ more := by
  obtain ⟨more, hmore⟩ := h.wire
  have hpos : 0 < s.buffer.length := List.length_pos_iff.2 h.buffer
  have hc : ∀ (t : CommandStream) src size r, t.state = .uncompressed → r ≠ .uncompressed →
      compress (Config.plain objectBufferSize) t src size r = t :=
    fun t src size r ht hr => compress_plain _ ht _ _ _ hr
  rw [OCommand.destroy, if_neg (by simp [h.unlocked]), disable, if_neg (by simp [h.enabled])]
  simp only [h.state, reduceCtorEq, and_false, if_false]
  rw [if_pos ⟨decide_eq_true hpos, h.connected⟩, hc _ _ _ _ rfl (by split_ifs <;> simp)]
  simp only [sendData, perform, h.unlocked, Bool.false_eq_true, if_false]
  rw [wireOf_append, hmore, List.append_assoc]
  refine ⟨_, ?_, rfl⟩
  rw [← List.length_pos_iff]
  simp only [wireOf, List.map_cons, List.map_nil, ConnectionOp.bytes, List.flatten_singleton,
    List.length_append, length_fill, commandMinSize]
  omega

theorem wire_data {s : CommandStream} (h : s.sub.isLocked = true) (pieces : List Bytes) :
    ∃ more, wireOf (destroy memory objectBufferSize
      (pieces.foldl (fun s piece => perform s (.send piece true)) s)).sub.ops =
        wireOf s.sub.ops ++ pieces.flatten ++ more := by
  have hpieces : wireOf (pieces.map (fun piece => .send piece true)) = pieces.flatten := by
    simp [wireOf, ConnectionOp.bytes, List.map_map, Function.comp_def]
  rw [foldl_perform, OCommand.destroy, if_pos (by exact h)]
  simp only
  split_ifs
  · simp only [perform, wireOf_append, hpieces]
    exact ⟨_, List.append_assoc _ _ _⟩
  · simp only [perform, wireOf_append, hpieces]
    exact ⟨_, rfl⟩

theorem Torn.sendHeader {frame : Bytes} {s : CommandStream} (h : Torn frame s) (n : ℕ) :
    (sendHeader memory objectBufferSize s n).sub.isLocked = true ∧
      ∃ more, wireOf (sendHeader memory objectBufferSize s n).sub.ops = frame ++ more := by
  obtain ⟨more, hmore⟩ := h.wire
  rw [OCommand.sendHeader, flush_eq memory objectBufferSize (by exact h.connected)
    (by exact h.save)]
  refine ⟨rfl, ?_⟩
  simp only [perform, wireOf_append, hmore, List.append_assoc]
  exact ⟨_, rfl⟩

theorem read_of_overrun {c : OCommand} (hsize : c.size < 2 ^ 64) (h : ¬ c.Fits objectBufferSize) :
    ∃ i more, more ≠ [] ∧ readCommand (wireOf (c.ops memory objectBufferSize)) = some (i, more) := by
  obtain ⟨frame, n, hlen, hfield, htorn⟩ := torn_words memory objectBufferSize h hsize
  have torn_header := htorn.sendHeader memory objectBufferSize c.data.flatten.length
  have hmore : ∃ more, more ≠ [] ∧ wireOf (c.ops memory objectBufferSize) = frame ++ more := by
    rw [ops, run]
    split_ifs with hdata
    · obtain ⟨hlocked, more, hheader⟩ := torn_header
      obtain ⟨last, hlast⟩ := wire_data memory objectBufferSize hlocked c.data
      refine ⟨more ++ c.data.flatten ++ last, ?_, ?_⟩
      · rw [← List.length_pos_iff, List.length_append, List.length_append]
        omega
      · rw [hlast, hheader]
        simp only [List.append_assoc]
    · exact htorn.destroy memory objectBufferSize
  obtain ⟨more, hne, hwire⟩ := hmore
  exact ⟨_, more, hne, by rw [hwire, readCommand_append hlen hfield]⟩

theorem not_framed_of_overrun {c : OCommand} (hsize : c.size < 2 ^ 64)
    (h : ¬ c.Fits objectBufferSize) : ¬ c.Framed memory objectBufferSize := by
  obtain ⟨i, more, hne, hread⟩ := read_of_overrun memory objectBufferSize hsize h
  intro hframed
  have hrest := hframed.2.2 []
  rw [List.append_nil, hread, Option.some.injEq, Prod.mk.injEq] at hrest
  exact hne hrest.2

end Overrun

end OCommand
end Collage.Stream
