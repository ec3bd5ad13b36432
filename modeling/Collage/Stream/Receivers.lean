import Collage.Stream.Framing

/-!
# Commands to several connections

Each step of a command is done for one connection after the other, and the body of object data is
sent connection by connection. A single connection sees of it what a command to it alone would send.
-/

namespace Collage.Stream

namespace DataOStream

variable {σ τ : Type}

/-- The stream as seen through a view of its subclass. -/
def mapSub (f : σ → τ) (s : DataOStream σ) : DataOStream τ where
  state := s.state
  buffer := s.buffer
  bufferStart := s.bufferStart
  dataSize := s.dataSize
  result := s.result
  connected := s.connected
  enabled := s.enabled
  dataSent := s.dataSent
  save := s.save
  sub := f s.sub

theorem compress_mapSub (f : σ → τ) (cfg : Config) (s : DataOStream σ) (src : Bytes) (size : ℕ)
    (r : CompressorState) :
    (s.mapSub f).compress cfg src size r = (s.compress cfg src size r).mapSub f := by
  unfold compress
  simp only [apply_ite (mapSub f)]
  rfl

theorem resetBuffer_mapSub (f : σ → τ) (s : DataOStream σ) :
    (s.mapSub f).resetBuffer = s.resetBuffer.mapSub f := by
  unfold resetBuffer
  rw [apply_ite (mapSub f)]
  rfl

section

variable {f : σ → τ} {sendData : DataOStream σ → Bytes → ℕ → Bool → DataOStream σ}
  {sendData' : DataOStream τ → Bytes → ℕ → Bool → DataOStream τ}
  (h : ∀ s data size last, sendData' (s.mapSub f) data size last =
    (sendData s data size last).mapSub f)

include h

theorem flush_mapSub (cfg : Config) (last : Bool) (s : DataOStream σ) :
    (s.mapSub f).flush sendData' cfg last = (s.flush sendData cfg last).mapSub f := by
  have hsend := h (compress cfg { s with state := .uncompressed }
    (s.buffer.drop s.bufferStart) (s.buffer.length - s.bufferStart) .part)
    (s.buffer.drop s.bufferStart) (s.buffer.length - s.bufferStart) last
  rw [← compress_mapSub] at hsend
  unfold flush
  simp only
  rw [← resetBuffer_mapSub]
  refine congrArg resetBuffer ?_
  by_cases hc : s.connected = true
  · rw [if_pos (by exact hc), if_pos hc]
    exact congrArg (fun t : DataOStream τ => { t with dataSent := true }) hsend
  · rw [if_neg (by exact hc), if_neg hc]
    rfl

theorem write_mapSub (cfg : Config) (s : DataOStream σ) (data : Bytes) :
    (s.mapSub f).write sendData' cfg data = (s.write sendData cfg data).mapSub f := by
  have hflush := flush_mapSub h cfg false s
  unfold write
  by_cases hfull : cfg.objectBufferSize < s.buffer.length - s.bufferStart
  · rw [if_pos (by exact hfull), if_pos hfull, hflush]
    rfl
  · rw [if_neg (by exact hfull), if_neg hfull]
    rfl

theorem disable_mapSub (cfg : Config) (s : DataOStream σ) :
    (s.mapSub f).disable sendData' cfg = (s.disable sendData cfg).mapSub f := by
  have hclose : ∀ {t : DataOStream τ} {u : DataOStream σ}, t = u.mapSub f →
      ({ t with
        buffer := if cfg.aggressiveCaching = false ∧ t.save = false then [] else t.buffer
        enabled := false
        connected := false } : DataOStream τ) =
      ({ u with
        buffer := if cfg.aggressiveCaching = false ∧ u.save = false then [] else u.buffer
        enabled := false
        connected := false } : DataOStream σ).mapSub f := by
    rintro t u rfl
    rfl
  unfold disable
  by_cases hen : s.enabled = false
  · rw [if_pos (by exact hen), if_pos hen]
  rw [if_neg (by exact hen), if_neg hen]
  refine hclose ?_
  by_cases hsend : decide (0 < s.buffer.length) = true ∧ s.connected = true
  · rw [if_pos (by exact hsend), if_pos hsend]
    by_cases hpart : s.buffer.length - s.bufferStart = 0 ∧ s.state = .part
    · rw [if_pos (by exact hpart), if_pos hpart, ← h]
      rfl
    · rw [if_neg (by exact hpart), if_neg hpart, ← h, ← compress_mapSub]
      rfl
  · rw [if_neg (by exact hsend), if_neg hsend]
    rfl

end

end DataOStream

/-- The connections to the receivers: each is there once. -/
structure Connections where
  list : List ℕ
  nodup : list.Nodup
  ne_nil : list ≠ []

/-- As `CommandState`, with the operations on all connections. -/
structure SharedState where
  isLocked : Bool
  size : ℕ
  ops : List (ℕ × ConnectionOp)
  deriving DecidableEq, Repr

def SharedState.view (k : ℕ) (s : SharedState) : CommandState :=
  ⟨s.isLocked, s.size, (s.ops.filter (fun op => op.1 = k)).map Prod.snd⟩

namespace SharedCommand

abbrev State := DataOStream SharedState

def start : State where
  state := .uncompressed
  buffer := []
  bufferStart := 0
  dataSize := 0
  result := []
  connected := true
  enabled := true
  dataSent := false
  save := true
  sub := ⟨false, 0, []⟩

section

variable (memory : ℕ → UInt8) (objectBufferSize : ℕ) (connections : Connections)

def perform (s : State) (op : ConnectionOp) : State :=
  { s with sub := { s.sub with ops := s.sub.ops ++ connections.list.map (fun k => (k, op)) } }

def sendData (s : State) (_buffer : Bytes) (size : ℕ) (_last : Bool) : State :=
  let bytes := toLE 8 (s.sub.size + size) ++ s.buffer.drop 8
  let sendSize := if s.sub.isLocked then size else max size commandMinSize
  perform connections { s with buffer := bytes } (.send (fill memory bytes sendSize) s.sub.isLocked)

def write (s : State) (w : Bytes) : State :=
  s.write (sendData memory connections) (Config.plain objectBufferSize) w

def sendHeader (s : State) (additionalSize : ℕ) : State :=
  let locked := perform connections s .lockSend
  { locked with sub := { locked.sub with isLocked := true, size := additionalSize } }.flush
    (sendData memory connections) (Config.plain objectBufferSize) true

/-- `sendBody` for each connection in turn. -/
def sendBodies (s : State) (pieces : List Bytes) : State :=
  { s with sub := { s.sub with ops := s.sub.ops ++ connections.list.flatMap (fun k =>
      pieces.map (fun piece => (k, .send piece true))) } }

/-- The destructor of `OCommand`. -/
def destroy (s : State) : State :=
  if s.sub.isLocked then
    let size := s.sub.size + s.buffer.length
    let padded := if size < commandMinSize then
        perform connections s (.send (fill memory [] (commandMinSize - size)) true)
      else s
    perform connections padded .unlockSend
  else s.disable (sendData memory connections) (Config.plain objectBufferSize)

end

theorem view_flatMap {l : List ℕ} {k : ℕ} (hl : l.Nodup) (hk : k ∈ l) (ops : List ConnectionOp) :
    ((l.flatMap (fun j => ops.map (fun op => (j, op)))).filter (fun p => p.1 = k)).map Prod.snd =
      ops := by
  have hself : ∀ j, ((ops.map (fun op => (j, op))).filter (fun p => p.1 = k)).map Prod.snd =
      if j = k then ops else [] := by
    intro j
    split_ifs with hj
    · rw [List.filter_eq_self.2 (by simp [hj]), List.map_map]
      exact List.map_id _
    · rw [List.filter_eq_nil_iff.2 (by simp [hj]), List.map_nil]
  induction l with
  | nil => cases hk
  | cons j l ih =>
      rw [List.flatMap_cons, List.filter_append, List.map_append, hself]
      obtain ⟨hj, hl⟩ := List.nodup_cons.1 hl
      rcases eq_or_ne j k with rfl | hne
      · have hrest : (l.flatMap (fun i => ops.map (fun op => (i, op)))).filter
            (fun p => p.1 = j) = [] := by
          rw [List.filter_eq_nil_iff]
          intro p hp
          obtain ⟨i, hi, hp⟩ := List.mem_flatMap.1 hp
          obtain ⟨op, -, rfl⟩ := List.mem_map.1 hp
          have hij : i ≠ j := fun h => hj (h ▸ hi)
          simpa using hij
        rw [if_pos rfl, hrest, List.map_nil, List.append_nil]
      · rw [if_neg hne, List.nil_append]
        exact ih hl ((List.mem_cons.1 hk).resolve_left hne.symm)

/-! What a connection sees of each step. -/

section

variable (memory : ℕ → UInt8) (objectBufferSize : ℕ) {connections : Connections} {k : ℕ}
  (hk : k ∈ connections.list)

include hk

theorem perform_view (s : State) (op : ConnectionOp) :
    (perform connections s op).mapSub (SharedState.view k) =
      OCommand.perform (s.mapSub (SharedState.view k)) op := by
  have hmap : connections.list.map (fun j => (j, op)) =
      connections.list.flatMap (fun j => [op].map (fun op => (j, op))) := by
    rw [List.map_eq_flatMap]
    rfl
  have hops := view_flatMap connections.nodup hk [op]
  simp only [perform, OCommand.perform, DataOStream.mapSub, SharedState.view, List.filter_append,
    List.map_append, hmap, hops]

theorem sendData_view (s : State) (data : Bytes) (size : ℕ) (last : Bool) :
    OCommand.sendData memory (s.mapSub (SharedState.view k)) data size last =
      (sendData memory connections s data size last).mapSub (SharedState.view k) := by
  rw [sendData, perform_view hk]
  rfl

theorem write_view (s : State) (w : Bytes) :
    OCommand.write memory objectBufferSize (s.mapSub (SharedState.view k)) w =
      (write memory objectBufferSize connections s w).mapSub (SharedState.view k) :=
  DataOStream.write_mapSub (sendData_view memory hk) _ s w

theorem writes_view (s : State) (ws : List Bytes) :
    ws.foldl (OCommand.write memory objectBufferSize) (s.mapSub (SharedState.view k)) =
      (ws.foldl (write memory objectBufferSize connections) s).mapSub (SharedState.view k) := by
  induction ws generalizing s with
  | nil => rfl
  | cons w ws ih => rw [List.foldl_cons, List.foldl_cons, write_view memory objectBufferSize hk, ih]

theorem sendHeader_view (s : State) (n : ℕ) :
    OCommand.sendHeader memory objectBufferSize (s.mapSub (SharedState.view k)) n =
      (sendHeader memory objectBufferSize connections s n).mapSub (SharedState.view k) := by
  have hlock := perform_view hk s .lockSend
  rw [sendHeader, ← DataOStream.flush_mapSub (sendData_view memory hk), OCommand.sendHeader, ← hlock]
  rfl

theorem sendBodies_view (s : State) (pieces : List Bytes) :
    pieces.foldl (fun s piece => OCommand.perform s (.send piece true))
        (s.mapSub (SharedState.view k)) =
      (sendBodies connections s pieces).mapSub (SharedState.view k) := by
  have hops := view_flatMap connections.nodup hk
    (pieces.map (fun piece => ConnectionOp.send piece true))
  simp only [List.map_map, Function.comp_def] at hops
  rw [OCommand.foldl_perform]
  simp only [sendBodies, DataOStream.mapSub, SharedState.view, List.filter_append,
    List.map_append, hops]

theorem destroy_view (s : State) :
    OCommand.destroy memory objectBufferSize (s.mapSub (SharedState.view k)) =
      (destroy memory objectBufferSize connections s).mapSub (SharedState.view k) := by
  unfold destroy OCommand.destroy
  by_cases hlocked : s.sub.isLocked = true
  · rw [if_pos (by exact hlocked), if_pos hlocked]
    simp only
    rw [perform_view hk]
    refine congrArg (fun t => OCommand.perform t .unlockSend) ?_
    by_cases hsmall : s.sub.size + s.buffer.length < commandMinSize
    · rw [if_pos (by exact hsmall), if_pos hsmall, perform_view hk]
      rfl
    · rw [if_neg (by exact hsmall), if_neg hsmall]
  · rw [if_neg (by exact hlocked), if_neg hlocked]
    exact DataOStream.disable_mapSub (sendData_view memory hk) _ s

end

end SharedCommand

end Collage.Stream
