import Collage.Lib.Chunks
import Collage.Stream.Chunking

/-!
# Input streams

The input stream of `dataIStream.cpp`, fed with data commands by `ObjectDataIStream`. A read takes
its bytes from one command. The two branches of `_read` that log an error and are marked
unreachable are errors here; `Follows` is the rule for a read that mirrors a list of writes, and
composes along the operators.
-/

namespace Collage.Stream

inductive ReadError
  /-- "No more input data". -/
  | noMoreInput
  /-- "Not enough data in input buffer". -/
  | notEnough
  deriving DecidableEq, Repr

structure DataIStream where
  input : Bytes
  inputSize : ℕ
  position : ℕ
  commands : List DataCommand
  deriving DecidableEq, Repr

abbrev Read := StateT DataIStream (Except ReadError)

namespace DataIStream

def start (commands : List DataCommand) : DataIStream := ⟨[], 0, 0, commands⟩

section

variable (cfg : Config)

/-- `getNextBuffer`: empty commands are skipped. -/
def getNextBuffer : List DataCommand → Option (Bytes × ℕ × List DataCommand)
  | [] => none
  | c :: commands =>
      if c.dataSize = 0 then getNextBuffer commands
      else some (c.payload cfg, c.dataSize, commands)

/-- `_checkBuffer`. A next buffer is never empty, so the loop runs at most once. -/
def checkBuffer (s : DataIStream) : Bool × DataIStream :=
  if s.position < s.inputSize then (true, s)
  else match getNextBuffer cfg s.commands with
    | none => (false, ⟨[], 0, 0, []⟩)
    | some (input, inputSize, commands) => (true, ⟨input, inputSize, 0, commands⟩)

def hasData (s : DataIStream) : Bool := (s.checkBuffer cfg).1

def read (size : ℕ) : Read Bytes := fun s =>
  let (hasBuffer, s') := s.checkBuffer cfg
  if hasBuffer = false then .error .noMoreInput
  else if s'.inputSize - s'.position < size then .error .notEnough
  else .ok ((s'.input.drop s'.position).take size, { s' with position := s'.position + size })

def getRemainingBufferSize : Read ℕ := fun s =>
  let (hasBuffer, s') := s.checkBuffer cfg
  .ok (if hasBuffer then s'.inputSize - s'.position else 0, s')

/-- Nothing is returned in place of a null pointer. -/
def getRemainingBuffer (size : ℕ) : Read Bytes := fun s =>
  let (hasBuffer, s') := s.checkBuffer cfg
  if hasBuffer = false ∨ s'.inputSize < s'.position + size then .ok ([], s')
  else .ok ((s'.input.drop s'.position).take size, { s' with position := s'.position + size })

end

/-- The writes `ws` lie ahead of the stream, each in one command. -/
structure Before (cfg : Config) (s : DataIStream) (ws : List Bytes) : Prop where
  size : s.inputSize = s.input.length
  sizes : ∀ c ∈ s.commands, c.dataSize = (c.payload cfg).length
  ahead : Ahead (s.input.drop s.position) (s.commands.map (DataCommand.payload cfg)) ws

variable {cfg : Config} {s : DataIStream} {ws : List Bytes}

def remaining (cfg : Config) (s : DataIStream) : Bytes :=
  s.input.drop s.position ++ (s.commands.map (DataCommand.payload cfg)).flatten

theorem Before.remaining_eq (h : s.Before cfg ws) : s.remaining cfg = ws.flatten :=
  h.ahead.flatten_eq

theorem getNextBuffer_before {commands : List DataCommand}
    (hsizes : ∀ c ∈ commands, c.dataSize = (c.payload cfg).length)
    (h : Ahead [] (commands.map (DataCommand.payload cfg)) ws) :
    (getNextBuffer cfg commands = none ∧ ws.flatten = []) ∨
      ∃ input rest, getNextBuffer cfg commands = some (input, input.length, rest) ∧ input ≠ [] ∧
        (⟨input, input.length, 0, rest⟩ : DataIStream).Before cfg ws := by
  induction commands with
  | nil => exact Or.inl ⟨rfl, h.flatten_eq.symm⟩
  | cons c commands ih =>
      have hc := hsizes c List.mem_cons_self
      have htail := fun d hd => hsizes d (List.mem_cons_of_mem c hd)
      have hnext := h.next_chunk
      rw [getNextBuffer]
      by_cases hempty : c.dataSize = 0
      · rw [if_pos hempty]
        rw [hempty] at hc
        rw [List.length_eq_zero_iff.1 hc.symm] at hnext
        exact ih htail hnext
      · rw [if_neg hempty, hc]
        refine Or.inr ⟨_, _, rfl, ?_, rfl, htail, hnext⟩
        intro hnil
        exact hempty (hc.trans (by rw [hnil, List.length_nil]))

/-- `_checkBuffer` finds data exactly if some byte lies ahead, and keeps what lies ahead. -/
theorem Before.checkBuffer (h : s.Before cfg ws) :
    (s.checkBuffer cfg).1 = decide (ws.flatten ≠ []) ∧ (s.checkBuffer cfg).2.Before cfg ws ∧
      (ws.flatten ≠ [] → (s.checkBuffer cfg).2.input.drop (s.checkBuffer cfg).2.position ≠ []) := by
  unfold DataIStream.checkBuffer
  by_cases hpos : s.position < s.inputSize
  · rw [if_pos hpos]
    have hrest : s.input.drop s.position ≠ [] := by
      rw [← List.length_pos_iff, List.length_drop, ← h.size]
      omega
    have hws : ws.flatten ≠ [] := by
      rw [← h.ahead.flatten_eq]
      exact fun hnil => hrest (List.append_eq_nil_iff.1 hnil).1
    exact ⟨(decide_eq_true hws).symm, h, fun _ => hrest⟩
  · rw [if_neg hpos]
    have hrest : s.input.drop s.position = [] := by
      rw [List.drop_eq_nil_iff, ← h.size]
      omega
    have hahead := h.ahead
    rw [hrest] at hahead
    rcases getNextBuffer_before h.sizes hahead with ⟨hnone, hflat⟩ | ⟨input, rest, hsome, hne, hb⟩
    · rw [hnone]
      refine ⟨by simp [hflat], ⟨rfl, (fun _ hc => nomatch hc), ?_⟩, fun hne => absurd hflat hne⟩
      exact ⟨[], [], pieces_eq_nil_iff.2 hflat, rfl, rfl⟩
    · rw [hsome]
      refine ⟨?_, hb, fun _ => hne⟩
      have hws : ws.flatten ≠ [] := by
        rw [← hb.ahead.flatten_eq]
        exact fun hnil => hne (List.append_eq_nil_iff.1 hnil).1
      exact (decide_eq_true hws).symm

theorem Before.hasData (h : s.Before cfg ws) : s.hasData cfg = decide (ws.flatten ≠ []) :=
  h.checkBuffer.1

theorem Before.advance_position {w : Bytes} (h : s.Before cfg (w :: ws))
    (hrest : s.input.drop s.position ≠ []) :
    w.length ≤ s.inputSize - s.position ∧ (s.input.drop s.position).take w.length = w ∧
      ({ s with position := s.position + w.length } : DataIStream).Before cfg ws := by
  obtain ⟨rest, heq, hahead⟩ := h.ahead.take hrest
  have hlen := congrArg List.length heq
  rw [List.length_drop, List.length_append] at hlen
  refine ⟨by rw [h.size]; omega, by rw [heq, List.take_left], h.size, h.sizes, ?_⟩
  have hdrop : s.input.drop (s.position + w.length) = rest := by
    rw [← List.drop_drop, heq, List.drop_left]
  rw [hdrop]
  exact hahead

end DataIStream

/-- Where the writes `ws` come next, the read returns `v` and leaves what comes behind them; it runs
out of data exactly if nothing comes behind an empty one of them. -/
def Follows (cfg : Config) {α : Type} (x : Read α) (v : α) (ws : List Bytes) : Prop :=
  ∀ (s : DataIStream) (more : List Bytes), s.Before cfg (ws ++ more) →
    (Settled ws more → ∃ s', x s = .ok (v, s') ∧ s'.Before cfg more) ∧
    (¬ Settled ws more → x s = .error .noMoreInput)

namespace Follows

variable {cfg : Config} {α β : Type} {x : Read α} {v : α} {ws vs : List Bytes}

theorem pure (cfg : Config) (v : α) : Follows cfg (Pure.pure v) v [] := by
  intro s more hs
  exact ⟨fun _ => ⟨s, rfl, hs⟩, fun h => absurd trivial h⟩

theorem bind {f : α → Read β} {u : β} (hx : Follows cfg x v ws) (hf : Follows cfg (f v) u vs) :
    Follows cfg (x >>= f) u (ws ++ vs) := by
  intro s more hs
  rw [List.append_assoc] at hs
  rw [settled_append]
  constructor
  · rintro ⟨hws, hvs⟩
    obtain ⟨s', hx', hs'⟩ := (hx s _ hs).1 hws
    obtain ⟨s'', hf', hs''⟩ := (hf s' _ hs').1 hvs
    refine ⟨s'', ?_, hs''⟩
    change (x s >>= fun p => f p.1 p.2) = _
    rw [hx']
    exact hf'
  · intro hnot
    change (x s >>= fun p => f p.1 p.2) = _
    by_cases hws : Settled ws (vs ++ more)
    · obtain ⟨s', hx', hs'⟩ := (hx s _ hs).1 hws
      rw [hx']
      exact (hf s' _ hs').2 (fun hvs => hnot ⟨hws, hvs⟩)
    · rw [(hx s _ hs).2 hws]
      rfl

theorem map (f : α → β) (hx : Follows cfg x v ws) : Follows cfg (f <$> x) (f v) ws := by
  have h := hx.bind (f := fun a => Pure.pure (f a)) (Follows.pure cfg (f v))
  rw [List.append_nil] at h
  exact h

theorem read (cfg : Config) (w : Bytes) : Follows cfg (DataIStream.read cfg w.length) w [w] := by
  intro s more hs
  obtain ⟨hcheck, hbefore, hrest⟩ := hs.checkBuffer
  rw [settled_singleton]
  unfold DataIStream.read
  simp only [hcheck, List.singleton_append]
  constructor
  · intro hsettled
    have hne : (w :: more).flatten ≠ [] := by
      intro hnil
      obtain ⟨hw, hmore⟩ := List.append_eq_nil_iff.1 hnil
      exact hsettled hw hmore
    obtain ⟨hle, htake, hnext⟩ := hbefore.advance_position (hrest hne)
    rw [decide_eq_true hne, if_neg (by simp), if_neg (by omega), htake]
    exact ⟨_, rfl, hnext⟩
  · intro hnot
    push Not at hnot
    have hnil : (w :: more).flatten = [] := by rw [List.flatten_cons, hnot.1, hnot.2, List.append_nil]
    rw [if_pos (by simp [hnil])]

end Follows

namespace ObjectDataOStream

open DataOStream

variable {cfg : Config} {s : ObjectDataOStream} {ws : List Bytes}

def Sized (cfg : Config) (s : ObjectDataOStream) : Prop :=
  ∀ c ∈ s.sub.sent, c.dataSize = (c.payload cfg).length

theorem Sized.concat {t : ObjectDataOStream} (h : Sized cfg s) {c : DataCommand}
    (hc : c.dataSize = (c.payload cfg).length) (ht : t.sub.sent = s.sub.sent ++ [c]) :
    Sized cfg t := by
  intro d hd
  rw [ht] at hd
  rcases List.mem_append.1 hd with hd | hd
  · exact h d hd
  · rwa [List.mem_singleton.1 hd]

theorem Writing.sized_write (hw : Writing cfg s ws) (h : Sized cfg s) (w : Bytes) :
    Sized cfg (s.write send cfg w) := by
  unfold DataOStream.write
  split_ifs
  · obtain ⟨result, c, -, -, -, hsize, hflush⟩ := flush_eq cfg hw
    rw [hflush]
    exact h.concat hsize rfl
  · exact h

theorem Writing.sized_writes (hw : Writing cfg s ws) (h : Sized cfg s) (more : List Bytes) :
    Sized cfg (s.writes cfg more) := by
  induction more generalizing s ws with
  | nil => exact h
  | cons w more ih => exact ih (hw.write w) (hw.sized_write h w)

theorem Writing.before (hw : Writing cfg s ws) (h : Sized cfg s) :
    (DataIStream.start (s.disable send cfg).sub.sent).Before cfg ws := by
  obtain ⟨groups, tail, rfl, hsent, htail⟩ := hw.groups
  by_cases hbuffer : s.buffer = []
  · obtain ⟨hsub, -⟩ := hw.disable_empty hbuffer
    rw [hbuffer, List.drop_nil] at htail
    rw [hsub]
    exact ⟨rfl, h, Ahead.start hsent htail.symm⟩
  · obtain ⟨-, c, -, -, hpayload, hsize, hsub⟩ := hw.disable_pending hbuffer
    have hall : groups.flatten ++ tail = (groups ++ [tail]).flatten ++ [] := by simp
    have hsized : Sized cfg (s.disable send cfg) := h.concat hsize (by rw [hsub])
    refine ⟨rfl, hsized, ?_⟩
    rw [hsub, hall]
    refine Ahead.start ?_ rfl
    change (s.sub.sent ++ [c]).map (DataCommand.payload cfg) = _
    rw [List.map_append, List.map_append, hsent, List.map_singleton, List.map_singleton, hpayload,
      htail]

theorem before_commit (cfg : Config) (save : Bool) (ws : List Bytes) :
    (DataIStream.start ((fresh save).commit cfg true ws).sub.sent).Before cfg ws :=
  (writing_commit cfg rfl ws).before
    ((writing_enableCommit cfg rfl).sized_writes (fun _ hc => nomatch hc) ws)

end ObjectDataOStream

end Collage.Stream
