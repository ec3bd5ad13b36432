import Collage.Stream.Receivers
import Collage.Stream.Resend

/-!
# Object data commands

The command that carries a chunk of object data. Its header with the fields of its variant is one
command, the body follows it on each connection, and the number of body bytes is taken from the
stream before either is sent. The receiver skips the fields of the variant and finds the body.
-/

namespace Collage.Stream

open DataOStream CompressorState

/-- `EQ_COMPRESSOR_NONE` and the name of the plugin that a stream uses. -/
structure CompressorNames where
  none : BitVec 32
  name : BitVec 32
  ne : name ≠ none

/-- An object data stream with its `compressedDataSize`. -/
structure SizedStream where
  stream : ObjectDataOStream
  compressedDataSize : ℕ
  sized : stream.state = part ∨ stream.state = complete →
    compressedDataSize = (stream.result.map List.length).sum

namespace SizedStream

/-- The part of `compress` that sets `compressedDataSize`. -/
def sizeAfter (cfg : Config) (s : SizedStream) (src : Bytes) (size : ℕ) (r : CompressorState) : ℕ :=
  if s.stream.state = r ∨ s.stream.state = uncompressible then s.compressedDataSize
  else if cfg.compressor.isGood = false ∨ size ≤ cfg.objectCompression then s.compressedDataSize
  else ((cfg.compressor.compress (src.take size)).map List.length).sum

theorem sized_compress (cfg : Config) (s : SizedStream) (src : Bytes) (size : ℕ)
    (r : CompressorState)
    (h : (s.stream.compress cfg src size r).state = part ∨
      (s.stream.compress cfg src size r).state = complete) :
    s.sizeAfter cfg src size r =
      ((s.stream.compress cfg src size r).result.map List.length).sum := by
  unfold sizeAfter
  unfold DataOStream.compress at h ⊢
  by_cases hstate : s.stream.state = r ∨ s.stream.state = uncompressible
  · rw [if_pos hstate] at h ⊢
    rw [if_pos hstate]
    exact s.sized h
  rw [if_neg hstate] at h ⊢
  rw [if_neg hstate]
  by_cases hsmall : cfg.compressor.isGood = false ∨ size ≤ cfg.objectCompression
  · rw [if_pos hsmall] at h
    simp at h
  rw [if_neg hsmall] at h ⊢
  rw [if_neg hsmall]
  simp only at h ⊢
  by_cases hbig : size ≤ ((cfg.compressor.compress (src.take size)).map List.length).sum
  · rw [if_pos hbig] at h
    simp at h
  · rw [if_neg hbig]

def compress (cfg : Config) (s : SizedStream) (src : Bytes) (size : ℕ) (r : CompressorState) :
    SizedStream where
  stream := s.stream.compress cfg src size r
  compressedDataSize := s.sizeAfter cfg src size r
  sized := s.sized_compress cfg src size r

/-- The stream before it compresses something new. -/
def restart (s : SizedStream) : SizedStream where
  stream := { s.stream with state := uncompressed }
  compressedDataSize := s.compressedDataSize
  sized := by simp

variable (names : CompressorNames) (s : SizedStream)

def getCompressor : BitVec 32 :=
  if s.stream.state = uncompressed ∨ s.stream.state = uncompressible then names.none else names.name

def getNumChunks : BitVec 32 :=
  if s.stream.state = uncompressed ∨ s.stream.state = uncompressible then 1
  else BitVec.ofNat 32 s.stream.result.length

def getCompressedDataSize : ℕ :=
  if s.getCompressor names = names.none then 0
  else s.compressedDataSize + s.getNumChunks.toNat * 8

/-- What `sendBody` sends to a connection. -/
def sendBody (data : Bytes) (size : ℕ) : List Bytes :=
  if s.getCompressor names = names.none then if 0 < size then [data.take size] else []
  else s.stream.result.flatMap (fun chunk => [toLE 8 chunk.length, chunk])

end SizedStream

/-- A chunk of data when a stream hands it to `sendData`: the stream has decided how to compress
it, and `data` is the memory it is taken from otherwise. -/
structure DataChunk (cfg : Config) where
  bytes : Bytes
  stream : SizedStream
  data : Bytes
  length_lt : bytes.length < 2 ^ 64
  holds : (stream.stream.state = uncompressed ∨ stream.stream.state = uncompressible) ∧
      data.take bytes.length = bytes ∨
    (stream.stream.state = part ∨ stream.stream.state = complete) ∧
      stream.stream.result = cfg.compressor.compress bytes

/-- The commands that carry instance data; the first one goes to the object itself. -/
inductive InstanceCommand
  | object
  | instanceData
  | map
  | commit
  | push
  | sync
  deriving DecidableEq, Repr

/-- The variants of data commands, with the fields behind the common ones. -/
inductive DataVariant
  | instanceData (cmd : InstanceCommand) (nodeID : BitVec 128) (masterInstanceID : BitVec 32)
  | delta
  | slaveDelta (commit : BitVec 128)
  deriving DecidableEq, Repr

def commandTypeNode : BitVec 32 := 0

def commandTypeObject : BitVec 32 := 1

def cmdObjectInstance : BitVec 32 := 0

def cmdObjectDelta : BitVec 32 := 1

def cmdObjectSlaveDelta : BitVec 32 := 2

/-- `CMD_NODE_OBJECT_INSTANCE` and the ones after it. -/
def InstanceCommand.cmd : InstanceCommand → BitVec 32
  | object => cmdObjectInstance
  | instanceData => 32
  | map => 33
  | commit => 34
  | push => 35
  | sync => 36

namespace DataVariant

def type : DataVariant → BitVec 32
  | instanceData .object _ _ => commandTypeObject
  | instanceData _ _ _ => commandTypeNode
  | delta => commandTypeObject
  | slaveDelta _ => commandTypeObject

def cmd : DataVariant → BitVec 32
  | instanceData cmd _ _ => cmd.cmd
  | delta => cmdObjectDelta
  | slaveDelta _ => cmdObjectSlaveDelta

def extra : DataVariant → List Bytes
  | instanceData _ nodeID masterInstanceID =>
      [toLE 16 nodeID.toNat, toLE 4 masterInstanceID.toNat]
  | delta => []
  | slaveDelta commit => [toLE 16 commit.toNat]

def buffered : DataVariant → ℕ
  | instanceData _ _ _ => 89
  | delta => 69
  | slaveDelta _ => 73

end DataVariant

/-- A data command; without a stream it has no data. -/
structure ObjectDataOCommand (cfg : Config) where
  variant : DataVariant
  id : BitVec 128
  instanceID : BitVec 32
  version : BitVec 128
  sequence : BitVec 32
  isLast : Bool
  chunk : Option (DataChunk cfg)

namespace ObjectDataOCommand

variable {cfg : Config} (names : CompressorNames) (c : ObjectDataOCommand cfg)

def bytes : Bytes := c.chunk.elim [] DataChunk.bytes

/-- The number of body bytes, as the constructor computes it. -/
def size : ℕ := match c.chunk with
  | none => 0
  | some d =>
      if d.stream.getCompressedDataSize names = 0 then d.bytes.length
      else d.stream.getCompressedDataSize names

/-- `streamDataHeader`, or what stands in its place without a stream. -/
def dataHeader : List Bytes := match c.chunk with
  | none => [toLE 4 names.none.toNat, toLE 4 0]
  | some d => [toLE 4 (d.stream.getCompressor names).toNat, toLE 4 d.stream.getNumChunks.toNat]

/-- The writes of `ObjectOCommand::_init` and `ObjectDataOCommand::_init`, and of the caller. -/
def args : List Bytes :=
  [toLE 16 c.id.toNat, toLE 4 c.instanceID.toNat, toLE 16 c.version.toNat, toLE 8 c.bytes.length,
    toLE 4 c.sequence.toNat, [if c.isLast then 1 else 0]] ++ c.dataHeader names ++ c.variant.extra

def words : List Bytes :=
  [toLE 8 0, toLE 4 c.variant.type.toNat, toLE 4 c.variant.cmd.toNat] ++ c.args names

/-- What the body consists of on each connection. -/
def body : List Bytes := match c.chunk with
  | none => []
  | some d => if 0 < c.size names then d.stream.sendBody names d.data (c.size names) else []

/-- A data command from its construction to the end of the last destructor. -/
def run (memory : ℕ → UInt8) (objectBufferSize : ℕ) (connections : Connections) :
    SharedCommand.State :=
  let s := (c.words names).foldl (SharedCommand.write memory objectBufferSize connections)
    SharedCommand.start
  if c.chunk.isSome ∧ 0 < c.size names then
    SharedCommand.destroy memory objectBufferSize connections
      (SharedCommand.sendBodies connections
        (SharedCommand.sendHeader memory objectBufferSize connections s (c.size names))
        (c.body names))
  else SharedCommand.destroy memory objectBufferSize connections s

def wire (memory : ℕ → UInt8) (objectBufferSize : ℕ) (connections : Connections) (k : ℕ) : Bytes :=
  wireOf ((c.run names memory objectBufferSize connections).sub.view k).ops

def total : ℕ := (c.words names).flatten.length + (c.body names).flatten.length

end ObjectDataOCommand

structure ObjectDataICommand where
  objectID : BitVec 128
  instanceID : BitVec 32
  version : BitVec 128
  dataSize : ℕ
  sequence : BitVec 32
  isLast : Bool
  compressor : BitVec 32
  chunks : ℕ
  deriving DecidableEq, Repr

/-- Reads of the given sizes, and what is left behind them. -/
def fields : List ℕ → Bytes → Option (List Bytes × Bytes)
  | [], bytes => some ([], bytes)
  | n :: ns, bytes =>
      if bytes.length < n then none
      else (fields ns (bytes.drop n)).map (fun r => (bytes.take n :: r.1, r.2))

/-- `_init` of `ObjectICommand` and `ObjectDataICommand`. -/
def ObjectDataICommand.ofICommand (c : ICommand) : Option (ObjectDataICommand × Bytes) :=
  match fields [16, 4, 16, 8, 4, 1, 4, 4] c.args with
  | some ([id, instanceID, version, dataSize, sequence, isLast, compressor, chunks], rest) =>
      some ({ objectID := BitVec.ofNat 128 (ofLE id)
              instanceID := BitVec.ofNat 32 (ofLE instanceID)
              version := BitVec.ofNat 128 (ofLE version)
              dataSize := ofLE dataSize
              sequence := BitVec.ofNat 32 (ofLE sequence)
              isLast := isLast ≠ [0]
              compressor := BitVec.ofNat 32 (ofLE compressor)
              chunks := ofLE chunks }, rest)
  | _ => none

/-- `ObjectStore::_cmdInstance` makes object commands of the instance data for nodes. -/
def ICommand.dispatch (c : ICommand) : ICommand :=
  if c.type = commandTypeNode ∧ c.cmd ∈ [InstanceCommand.instanceData.cmd, InstanceCommand.map.cmd,
      InstanceCommand.commit.cmd, InstanceCommand.push.cmd, InstanceCommand.sync.cmd] then
    { c with type := commandTypeObject, cmd := cmdObjectInstance }
  else c

/-- The fields that `getNextBuffer` skips. -/
def skipped (cmd : BitVec 32) : List ℕ :=
  if cmd = cmdObjectInstance then [16, 4]
  else if cmd = cmdObjectSlaveDelta then [16]
  else []

def readChunks : ℕ → Bytes → List Bytes
  | 0, _ => []
  | n + 1, src =>
      (src.drop 8).take (ofLE (src.take 8)) :: readChunks n (src.drop (8 + ofLE (src.take 8)))

def decompress (cfg : Config) (names : CompressorNames) (data : Bytes) (d : ObjectDataICommand) :
    Bytes :=
  if d.compressor = names.none then data.take d.dataSize
  else cfg.compressor.decompress (readChunks d.chunks data)

/-- `ObjectDataIStream::getNextBuffer` and `_decompress`: the next buffer with its size, and the
commands behind it. Nothing is returned for a command that is too short for its fields. -/
def nextBuffer (cfg : Config) (names : CompressorNames) :
    List ICommand → Option (Bytes × ℕ × List ICommand)
  | [] => none
  | c :: commands => match ObjectDataICommand.ofICommand c with
    | none => none
    | some (d, rest) =>
        if d.dataSize = 0 then nextBuffer cfg names commands
        else (fields (skipped c.cmd) rest).map (fun r =>
          (decompress cfg names r.2 d, d.dataSize, commands))

theorem fields_append (ws : List Bytes) (rest : Bytes) :
    fields (ws.map List.length) (ws.flatten ++ rest) = some (ws, rest) := by
  induction ws with
  | nil => rfl
  | cons w ws ih =>
      have hsplit : (w :: ws).flatten ++ rest = w ++ (ws.flatten ++ rest) := by
        rw [List.flatten_cons, List.append_assoc]
      rw [List.map_cons, fields, hsplit, if_neg (by rw [List.length_append]; omega),
        List.drop_left, List.take_left, ih]
      rfl

theorem readChunks_flatMap {chunks : List Bytes} (h : ∀ c ∈ chunks, c.length < 2 ^ 64)
    (rest : Bytes) :
    readChunks chunks.length
      ((chunks.flatMap (fun c => [toLE 8 c.length, c])).flatten ++ rest) = chunks := by
  induction chunks with
  | nil => rfl
  | cons c chunks ih =>
      have hlt : c.length < 256 ^ 8 :=
        lt_of_lt_of_eq (h c List.mem_cons_self) (by norm_num)
      have hsplit : ((c :: chunks).flatMap (fun c => [toLE 8 c.length, c])).flatten ++ rest =
          toLE 8 c.length ++ (c ++
            ((chunks.flatMap (fun c => [toLE 8 c.length, c])).flatten ++ rest)) := by
        simp
      have hsize : (toLE 8 c.length).length = 8 := length_toLE 8 _
      rw [hsplit, List.length_cons, readChunks, List.take_left' hsize, ofLE_toLE_of_lt hlt,
        List.drop_left' hsize, List.take_left, ← List.drop_drop, List.drop_left' hsize,
        List.drop_left, ih (fun d hd => h d (List.mem_cons_of_mem c hd))]

/-- The results of a compressor are counted in 32 bits, and there is one at least. -/
structure Compressor.Proper (c : Compressor) : Prop where
  ne_nil : ∀ bytes, c.compress bytes ≠ []
  length_lt : ∀ bytes, (c.compress bytes).length < 2 ^ 32

theorem length_chunks (chunks : List Bytes) :
    (chunks.flatMap (fun c => [toLE 8 c.length, c])).flatten.length =
      (chunks.map List.length).sum + chunks.length * 8 := by
  induction chunks with
  | nil => rfl
  | cons c chunks ih =>
      rw [List.flatMap_cons, List.flatten_append, List.length_append, ih, List.map_cons,
        List.sum_cons, List.length_cons]
      simp
      omega

namespace DataChunk

variable {cfg : Config} (names : CompressorNames) (d : DataChunk cfg)

structure Raw : Prop where
  compressor : d.stream.getCompressor names = names.none
  numChunks : d.stream.getNumChunks = 1
  data : d.data.take d.bytes.length = d.bytes

/-- Compressed: the chunks of the result are the body. -/
structure Packed : Prop where
  compressor : d.stream.getCompressor names = names.name
  numChunks : d.stream.getNumChunks.toNat = (cfg.compressor.compress d.bytes).length
  result : d.stream.stream.result = cfg.compressor.compress d.bytes
  size : d.stream.getCompressedDataSize names =
    ((cfg.compressor.compress d.bytes).map List.length).sum +
      (cfg.compressor.compress d.bytes).length * 8

theorem raw_or_packed (hcfg : cfg.compressor.Proper) : d.Raw names ∨ d.Packed names := by
  rcases d.holds with ⟨hstate, hdata⟩ | ⟨hstate, hresult⟩
  · exact Or.inl ⟨if_pos hstate, if_pos hstate, hdata⟩
  · have hnot : ¬ (d.stream.stream.state = uncompressed ∨
        d.stream.stream.state = uncompressible) := by
      rcases hstate with h | h <;> simp [h]
    have hnum : d.stream.getNumChunks.toNat = (cfg.compressor.compress d.bytes).length := by
      rw [SizedStream.getNumChunks, if_neg hnot, hresult, BitVec.toNat_ofNat]
      exact Nat.mod_eq_of_lt (hcfg.length_lt d.bytes)
    have hname : d.stream.getCompressor names = names.name := if_neg hnot
    refine Or.inr ⟨hname, hnum, hresult, ?_⟩
    rw [SizedStream.getCompressedDataSize, hname, if_neg names.ne, hnum, d.stream.sized hstate,
      hresult]

def command (sequence : BitVec 32) (last : Bool) : DataCommand :=
  ⟨sequence, d.bytes.length, last, d.stream.stream.body d.data d.bytes.length⟩

theorem payload_command (sequence : BitVec 32) (last : Bool) :
    (d.command sequence last).payload cfg = d.bytes := by
  rcases d.holds with ⟨hstate, hdata⟩ | ⟨hstate, hresult⟩
  · simp [command, body, hstate, DataCommand.payload, hdata]
  · have hnot : ¬ (d.stream.stream.state = uncompressed ∨
        d.stream.stream.state = uncompressible) := by
      rcases hstate with h | h <;> simp [h]
    simp only [command, body, hnot, if_false, DataCommand.payload, hresult]
    exact cfg.compressor.decompress_compress d.bytes

theorem holds_compress (cfg : Config) {s : ObjectDataOStream} (hs : s.state = uncompressed)
    (src : Bytes) {r : CompressorState} (hr : r = complete ∨ r = part) :
    ((s.compress cfg src src.length r).state = uncompressed ∨
        (s.compress cfg src src.length r).state = uncompressible) ∧ src.take src.length = src ∨
      ((s.compress cfg src src.length r).state = part ∨
        (s.compress cfg src src.length r).state = complete) ∧
      (s.compress cfg src src.length r).result = cfg.compressor.compress src := by
  have htake : src.take src.length = src := List.take_length
  rcases compress_cases cfg s src src.length r with ⟨hstate, h⟩ | h | ⟨chunks, h⟩ | h
  · rw [hs] at hstate
    rcases hr with rfl | rfl <;> simp at hstate
  · exact Or.inl ⟨Or.inl (by rw [h]), htake⟩
  · exact Or.inl ⟨Or.inr (by rw [h]), htake⟩
  · exact Or.inr ⟨by rw [h]; exact hr.symm, by rw [h, htake]⟩

theorem holds_saved {cfg : Config} {s : ObjectDataOStream} {bytes : Bytes}
    (h : ObjectDataOStream.Saved cfg s bytes) :
    ((s.compress cfg s.buffer s.dataSize complete).state = uncompressed ∨
        (s.compress cfg s.buffer s.dataSize complete).state = uncompressible) ∧
        (s.compress cfg s.buffer s.dataSize complete).buffer.take bytes.length = bytes ∨
      ((s.compress cfg s.buffer s.dataSize complete).state = part ∨
        (s.compress cfg s.buffer s.dataSize complete).state = complete) ∧
      (s.compress cfg s.buffer s.dataSize complete).result = cfg.compressor.compress bytes := by
  rcases h.content with ⟨hstate, hbuffer⟩ | ⟨hstate, hresult⟩
  · have htake : s.buffer.take bytes.length = bytes := by rw [hbuffer, List.take_length]
    rcases compress_cases cfg s s.buffer s.dataSize complete with ⟨hs, hc⟩ | hc | ⟨chunks, hc⟩ | hc
    · rw [hc]
      exact Or.inl ⟨Or.inr (hs.resolve_left hstate), htake⟩
    · exact Or.inl ⟨Or.inl (by rw [hc]), by rw [hc]; exact htake⟩
    · exact Or.inl ⟨Or.inr (by rw [hc]), by rw [hc]; exact htake⟩
    · exact Or.inr ⟨Or.inr (by rw [hc]), by rw [hc, h.dataSize, htake]⟩
  · have hsame : s.compress cfg s.buffer s.dataSize complete = s := if_pos (Or.inl hstate)
    rw [hsame]
    exact Or.inr ⟨Or.inr hstate, hresult⟩

/-- What `flush` and `disable` send: a part of the buffer that was not compressed before. -/
def ofCompress (cfg : Config) (s : SizedStream) (hs : s.stream.state = uncompressed) (src : Bytes)
    (hlen : src.length < 2 ^ 64) {r : CompressorState} (hr : r = complete ∨ r = part) :
    DataChunk cfg where
  bytes := src
  stream := s.compress cfg src src.length r
  data := src
  length_lt := hlen
  holds := holds_compress cfg hs src hr

/-- What `_resend` sends: all the saved data, compressed now or before. -/
def ofSaved {s : SizedStream} {bytes : Bytes} (h : ObjectDataOStream.Saved cfg s.stream bytes)
    (hlen : bytes.length < 2 ^ 64) : DataChunk cfg where
  bytes := bytes
  stream := s.compress cfg s.stream.buffer s.stream.dataSize complete
  data := (s.stream.compress cfg s.stream.buffer s.stream.dataSize complete).buffer
  length_lt := hlen
  holds := holds_saved h

theorem sub_compress (cfg : Config) (s : ObjectDataOStream) (src : Bytes) (size : ℕ)
    (r : CompressorState) : (s.compress cfg src size r).sub = s.sub := by
  obtain ⟨state, result, buffer, h⟩ := compress_frame cfg s src size r
  rw [h]

theorem flush_sends (cfg : Config) (s : SizedStream) (hc : s.stream.connected = true) (last : Bool)
    (hlen : (s.stream.buffer.drop s.stream.bufferStart).length < 2 ^ 64) :
    (s.stream.flush ObjectDataOStream.send cfg last).sub.sent = s.stream.sub.sent ++
      [(ofCompress cfg s.restart rfl _ hlen (Or.inr rfl)).command s.stream.sub.sequence last] := by
  have hreset : ∀ t : ObjectDataOStream, t.resetBuffer.sub = t.sub := by
    intro t
    unfold resetBuffer
    split_ifs <;> rfl
  unfold flush
  rw [hreset, if_pos hc, ← List.length_drop]
  simp only [ObjectDataOStream.send, sub_compress]
  rfl

theorem disable_sends (cfg : Config) (s : SizedStream) (hen : s.stream.enabled = true)
    (hc : s.stream.connected = true) (hstate : s.stream.state = uncompressed)
    (hbuffer : s.stream.buffer ≠ [])
    (hlen : (s.stream.buffer.drop s.stream.bufferStart).length < 2 ^ 64) :
    ∃ d : DataChunk cfg, d.bytes = s.stream.buffer.drop s.stream.bufferStart ∧
      (s.stream.disable ObjectDataOStream.send cfg).sub.sent = s.stream.sub.sent ++
        [d.command s.stream.sub.sequence true] := by
  have hpos : decide (0 < s.stream.buffer.length) = true :=
    decide_eq_true (List.length_pos_iff.2 hbuffer)
  have hnot : ¬ (s.stream.buffer.length - s.stream.bufferStart = 0 ∧ s.stream.state = part) := by
    rw [hstate]
    simp
  have hr : ∀ r : CompressorState, (r = if s.stream.bufferStart = 0 then complete else part) →
      r = complete ∨ r = part := by
    rintro r rfl
    split_ifs <;> simp
  let t : SizedStream := ⟨{ s.stream with
      dataSize := s.stream.buffer.length
      dataSent := decide (0 < s.stream.buffer.length)
      state := uncompressed }, s.compressedDataSize, by simp⟩
  refine ⟨ofCompress cfg t rfl _ hlen (hr _ rfl), rfl, ?_⟩
  unfold disable
  rw [if_neg (by simp [hen])]
  simp only
  rw [if_pos ⟨hpos, hc⟩, if_neg hnot, ← List.length_drop]
  simp only [ObjectDataOStream.send, sub_compress]
  rfl

theorem resend_sends {cfg : Config} {s : SizedStream} {bytes : Bytes}
    (h : ObjectDataOStream.Saved cfg s.stream bytes) (hlen : bytes.length < 2 ^ 64) :
    ∃ d : DataChunk cfg, d.bytes = bytes ∧
      (s.stream.resend cfg).sub.sent = [d.command s.stream.sub.sequence true] := by
  let t : SizedStream := ⟨{ s.stream with
      connected := true
      sub := { s.stream.sub with sent := [] } }, s.compressedDataSize, s.sized⟩
  have ht : ObjectDataOStream.Saved cfg t.stream bytes := ⟨h.dataSize, h.content⟩
  have hsize : (t.stream.compress cfg t.stream.buffer t.stream.dataSize complete).dataSize =
      bytes.length := by
    obtain ⟨state, result, buffer, hframe⟩ := compress_frame cfg t.stream t.stream.buffer
      t.stream.dataSize complete
    rw [hframe]
    exact h.dataSize
  refine ⟨ofSaved ht hlen, rfl, ?_⟩
  unfold ObjectDataOStream.resend DataOStream.resend
  simp only [ObjectDataOStream.send, sub_compress]
  exact congrArg (fun n => [DataCommand.mk _ n _ (body _ _ n)]) hsize

end DataChunk

namespace ObjectDataOCommand

variable {cfg : Config} (names : CompressorNames) (c : ObjectDataOCommand cfg)

def oCommand : OCommand := ⟨c.variant.type, c.variant.cmd, c.args names, c.body names⟩

theorem size_eq_of_raw {d : DataChunk cfg} (hd : c.chunk = some d) (h : d.Raw names) :
    c.size names = d.bytes.length := by
  have hzero : d.stream.getCompressedDataSize names = 0 := if_pos h.compressor
  simp only [size, hd, hzero, if_true]

theorem body_of_raw {d : DataChunk cfg} (hd : c.chunk = some d) (h : d.Raw names) :
    (c.body names).flatten = d.bytes := by
  simp only [body, hd, size_eq_of_raw names c hd h, SizedStream.sendBody, h.compressor, if_true,
    h.data]
  split_ifs with hpos
  · rw [List.flatten_singleton]
  · rw [List.length_eq_zero_iff.1 (Nat.eq_zero_of_not_pos hpos)]
    rfl

theorem size_eq_of_packed (hcfg : cfg.compressor.Proper) {d : DataChunk cfg}
    (hd : c.chunk = some d) (h : d.Packed names) :
    0 < c.size names ∧ c.size names = d.stream.getCompressedDataSize names := by
  have hpos := List.length_pos_iff.2 (hcfg.ne_nil d.bytes)
  have hne : d.stream.getCompressedDataSize names ≠ 0 := by
    rw [h.size]
    omega
  have hsize : c.size names = d.stream.getCompressedDataSize names := by
    simp only [size, hd, if_neg hne]
  exact ⟨hsize ▸ Nat.pos_of_ne_zero hne, hsize⟩

theorem body_of_packed (hcfg : cfg.compressor.Proper) {d : DataChunk cfg} (hd : c.chunk = some d)
    (h : d.Packed names) : c.body names =
      (cfg.compressor.compress d.bytes).flatMap (fun chunk => [toLE 8 chunk.length, chunk]) := by
  have hne : d.stream.getCompressor names ≠ names.none := by
    rw [h.compressor]
    exact names.ne
  simp only [body, hd, if_pos (size_eq_of_packed names c hcfg hd h).1, SizedStream.sendBody,
    if_neg hne, h.result]

theorem length_body (hcfg : cfg.compressor.Proper) :
    (c.body names).flatten.length = c.size names := by
  cases hd : c.chunk with
  | none => simp [body, size, hd]
  | some d =>
      rcases d.raw_or_packed names hcfg with h | h
      · rw [body_of_raw names c hd h, size_eq_of_raw names c hd h]
      · rw [body_of_packed names c hcfg hd h, (size_eq_of_packed names c hcfg hd h).2, h.size,
          length_chunks]

theorem isSome_of_size_pos (h : 0 < c.size names) : c.chunk.isSome = true := by
  cases hd : c.chunk with
  | none => simp [size, hd] at h
  | some d => rfl

theorem run_view (hcfg : cfg.compressor.Proper) (memory : ℕ → UInt8) (objectBufferSize : ℕ)
    {connections : Connections} {k : ℕ} (hk : k ∈ connections.list) :
    OCommand.run memory objectBufferSize (c.oCommand names) =
      (c.run names memory objectBufferSize connections).mapSub (SharedState.view k) := by
  have hwords := SharedCommand.writes_view memory objectBufferSize hk SharedCommand.start
    (c.words names)
  have hstart : SharedCommand.start.mapSub (SharedState.view k) = OCommand.start := rfl
  have hlen : (c.oCommand names).data.flatten.length = c.size names := c.length_body names hcfg
  rw [hstart] at hwords
  rw [OCommand.run, run, hlen]
  by_cases hpos : 0 < c.size names
  · rw [if_pos hpos, if_pos ⟨c.isSome_of_size_pos names hpos, hpos⟩, ← SharedCommand.destroy_view
      memory objectBufferSize hk, ← SharedCommand.sendBodies_view hk,
      ← SharedCommand.sendHeader_view memory objectBufferSize hk, ← hwords]
    rfl
  · rw [if_neg hpos, if_neg (fun h => hpos h.2), ← SharedCommand.destroy_view
      memory objectBufferSize hk, ← hwords]
    rfl

theorem wire_eq (hcfg : cfg.compressor.Proper) (memory : ℕ → UInt8) (objectBufferSize : ℕ)
    {connections : Connections} {k : ℕ} (hk : k ∈ connections.list) :
    c.wire names memory objectBufferSize connections k =
      wireOf ((c.oCommand names).ops memory objectBufferSize) := by
  rw [OCommand.ops, c.run_view names hcfg memory objectBufferSize hk]
  rfl

theorem total_eq : c.total names = (c.oCommand names).size := by
  have hwords : c.words names = (c.oCommand names).words := rfl
  rw [total, hwords, OCommand.length_words]
  rfl

theorem fits_iff (objectBufferSize : ℕ) :
    (c.oCommand names).Fits objectBufferSize ↔ c.variant.buffered ≤ objectBufferSize := by
  have hlen : (c.oCommand names).words.dropLast.flatten.length = c.variant.buffered := by
    cases hd : c.chunk <;> cases hv : c.variant <;>
      simp [OCommand.words, oCommand, args, dataHeader, hd, hv, DataVariant.extra,
        DataVariant.buffered]
  rw [OCommand.Fits, hlen]

/-- The two fields of `dataHeader`. -/
def compressorField : BitVec 32 := match c.chunk with
  | none => names.none
  | some d => d.stream.getCompressor names

def chunksField : BitVec 32 := match c.chunk with
  | none => 0
  | some d => d.stream.getNumChunks

theorem dataHeader_eq : c.dataHeader names =
    [toLE 4 (c.compressorField names).toNat, toLE 4 c.chunksField.toNat] := by
  cases hd : c.chunk <;> simp [dataHeader, compressorField, chunksField, hd]

theorem bytes_length_lt : c.bytes.length < 2 ^ 64 := by
  cases hd : c.chunk with
  | none => simp [bytes, hd]
  | some d => simpa [bytes, hd] using d.length_lt

theorem ofICommand_received : ∃ d : ObjectDataICommand,
    ObjectDataICommand.ofICommand (c.oCommand names).received.dispatch =
      some (d, c.variant.extra.flatten ++ (c.body names).flatten) ∧
    d.dataSize = c.bytes.length ∧ d.compressor = c.compressorField names ∧
    d.chunks = c.chunksField.toNat := by
  have hargs : (c.oCommand names).received.dispatch.args =
      [toLE 16 c.id.toNat, toLE 4 c.instanceID.toNat, toLE 16 c.version.toNat,
        toLE 8 c.bytes.length, toLE 4 c.sequence.toNat, [if c.isLast then 1 else 0],
        toLE 4 (c.compressorField names).toNat, toLE 4 c.chunksField.toNat].flatten ++
          (c.variant.extra.flatten ++ (c.body names).flatten) := by
    have hsame : (c.oCommand names).received.dispatch.args =
        (c.args names).flatten ++ (c.body names).flatten := by
      unfold ICommand.dispatch
      split_ifs <;> rfl
    rw [hsame, args, dataHeader_eq]
    simp
  have hfields := fields_append [toLE 16 c.id.toNat, toLE 4 c.instanceID.toNat,
    toLE 16 c.version.toNat, toLE 8 c.bytes.length, toLE 4 c.sequence.toNat,
    [if c.isLast then 1 else 0], toLE 4 (c.compressorField names).toNat,
    toLE 4 c.chunksField.toNat] (c.variant.extra.flatten ++ (c.body names).flatten)
  rw [← hargs] at hfields
  simp only [List.map_cons, List.map_nil, length_toLE, List.length_singleton] at hfields
  refine ⟨_, by rw [ObjectDataICommand.ofICommand, hfields], ?_, ?_, ?_⟩
  · exact ofLE_toLE_of_lt (lt_of_lt_of_eq c.bytes_length_lt (by norm_num))
  · exact OCommand.bitVec_ofLE_toLE _
  · exact ofLE_toLE_of_lt (lt_of_lt_of_eq c.chunksField.isLt (by norm_num))

theorem skipped_dispatch :
    skipped (c.oCommand names).received.dispatch.cmd = c.variant.extra.map List.length := by
  have hcmd : (c.oCommand names).received.dispatch.cmd = match c.variant with
      | .instanceData _ _ _ => cmdObjectInstance
      | .delta => cmdObjectDelta
      | .slaveDelta _ => cmdObjectSlaveDelta := by
    cases hv : c.variant with
    | instanceData cmd nodeID masterInstanceID =>
        simp only [oCommand, OCommand.received, hv]
        cases cmd <;> rfl
    | delta =>
        simp only [oCommand, OCommand.received, hv]
        rfl
    | slaveDelta commit =>
        simp only [oCommand, OCommand.received, hv]
        rfl
  rw [hcmd]
  cases c.variant <;> simp [skipped, DataVariant.extra, cmdObjectInstance, cmdObjectDelta,
    cmdObjectSlaveDelta]

theorem nextBuffer_received (hcfg : cfg.compressor.Proper)
    (hsize : (c.oCommand names).size < 2 ^ 64) (more : List ICommand) :
    nextBuffer cfg names ((c.oCommand names).received.dispatch :: more) =
      if c.bytes = [] then nextBuffer cfg names more
      else some (c.bytes, c.bytes.length, more) := by
  obtain ⟨d, hd, hdata, hcompressor, hchunks⟩ := c.ofICommand_received names
  have hskip := fields_append c.variant.extra (c.body names).flatten
  rw [nextBuffer, hd]
  simp only [hdata, List.length_eq_zero_iff]
  by_cases hempty : c.bytes = []
  · rw [if_pos hempty, if_pos hempty]
  rw [if_neg hempty, if_neg hempty, c.skipped_dispatch names, hskip]
  simp only [Option.map_some, Option.some.injEq, Prod.mk.injEq, and_true]
  cases hc : c.chunk with
  | none => exact absurd (by simp [bytes, hc]) hempty
  | some e =>
      have hbytes : c.bytes = e.bytes := by simp [bytes, hc]
      have hname : d.compressor = e.stream.getCompressor names := by
        rw [hcompressor, compressorField, hc]
      have hnum : d.chunks = e.stream.getNumChunks.toNat := by
        rw [hchunks, chunksField, hc]
      rcases e.raw_or_packed names hcfg with h | h
      · rw [decompress, if_pos (hname.trans h.compressor), body_of_raw names c hc h, hdata, hbytes,
          List.take_length]
      · have hne : d.compressor ≠ names.none := by
          rw [hname, h.compressor]
          exact names.ne
        have hlt : ∀ chunk ∈ cfg.compressor.compress e.bytes, chunk.length < 2 ^ 64 := by
          intro chunk hmem
          have hbody : chunk ∈ c.body names := by
            rw [body_of_packed names c hcfg hc h]
            exact List.mem_flatMap.2 ⟨chunk, hmem, by simp⟩
          have hle := (List.sublist_flatten_of_mem hbody).length_le
          have hall : (c.body names).flatten.length ≤ (c.oCommand names).size := Nat.le_add_left _ _
          omega
        have hread := readChunks_flatMap hlt []
        rw [List.append_nil, ← body_of_packed names c hcfg hc h] at hread
        rw [decompress, if_neg hne, hnum, h.numChunks, hread, hbytes,
          cfg.compressor.decompress_compress]

/-- What each connection gets is a whole number of commands: its size field counts the header and
the body, it is filled up to the minimal size, and the receiver recovers the data. -/
def Delivered (memory : ℕ → UInt8) (objectBufferSize : ℕ) (connections : Connections) : Prop :=
  ∀ k ∈ connections.list,
    let wire := c.wire names memory objectBufferSize connections k
    wire.length = max (c.total names) commandMinSize ∧ ofLE (wire.take 8) = c.total names ∧
    ∀ rest, ∃ i, readCommand (wire ++ rest) = some (i, rest) ∧
      ∀ more, nextBuffer cfg names (i.dispatch :: more) =
        if c.bytes = [] then nextBuffer cfg names more
        else some (c.bytes, c.bytes.length, more)

theorem not_delivered_of_overrun (hcfg : cfg.compressor.Proper) (memory : ℕ → UInt8)
    {objectBufferSize : ℕ} (connections : Connections) (hsize : c.total names < 2 ^ 64)
    (h : ¬ c.variant.buffered ≤ objectBufferSize) :
    ¬ c.Delivered names memory objectBufferSize connections := by
  rw [total_eq] at hsize
  rw [← c.fits_iff names] at h
  intro hdelivered
  obtain ⟨k, hk⟩ := List.exists_mem_of_ne_nil _ connections.ne_nil
  obtain ⟨-, -, hread⟩ := hdelivered k hk
  obtain ⟨i, hi, -⟩ := hread []
  obtain ⟨j, more, hne, hj⟩ := OCommand.read_of_overrun memory objectBufferSize hsize h
  rw [List.append_nil, c.wire_eq names hcfg memory objectBufferSize hk, hj, Option.some.injEq,
    Prod.mk.injEq] at hi
  exact hne hi.2

/-- A data command is delivered exactly if its header is not flushed before its last write. -/
theorem delivered_iff (hcfg : cfg.compressor.Proper) (memory : ℕ → UInt8) (objectBufferSize : ℕ)
    (connections : Connections) (hsize : c.total names < 2 ^ 64) :
    c.Delivered names memory objectBufferSize connections ↔
      c.variant.buffered ≤ objectBufferSize := by
  refine ⟨fun h => not_not.1 (fun hnot =>
    c.not_delivered_of_overrun names hcfg memory connections hsize hnot h), ?_⟩
  rw [total_eq] at hsize
  rw [← c.fits_iff names]
  intro hfits k hk
  obtain ⟨hlen, hfield, hread⟩ := OCommand.framed_of_fits memory objectBufferSize hsize hfits
  simp only
  rw [c.wire_eq names hcfg memory objectBufferSize hk, total_eq]
  exact ⟨hlen, hfield, fun rest =>
    ⟨_, hread rest, fun more => c.nextBuffer_received names hcfg hsize more⟩⟩

end ObjectDataOCommand

def Compressor.zeros : Compressor where
  isGood := true
  compress := fun bytes =>
    if bytes = List.replicate bytes.length 0 ∧ bytes.length < 256 then
      [[0], [UInt8.ofNat bytes.length]]
    else [1 :: bytes]
  decompress := fun
    | [_, [n]] => List.replicate n.toNat 0
    | [_ :: bytes] => bytes
    | _ => []
  decompress_compress := fun bytes => by
    by_cases h : bytes = List.replicate bytes.length 0 ∧ bytes.length < 256
    · rw [if_pos h]
      simp only [UInt8.toNat_ofNat', Nat.mod_eq_of_lt h.2]
      exact h.1.symm
    · rw [if_neg h]

theorem Compressor.zeros_proper : Compressor.zeros.Proper where
  ne_nil := fun bytes => by
    simp only [Compressor.zeros]
    split_ifs <;> simp
  length_lt := fun bytes => by
    simp only [Compressor.zeros]
    split_ifs <;> simp

/-- A slave commit of 100 zeros in two compressed chunks, to two connections. -/
theorem ObjectDataOCommand.delivered_iff_zeros :
    let cfg : Config := ⟨Compressor.zeros, 60000, 10, false⟩
    let names : CompressorNames := ⟨1, 7, by decide⟩
    let s : SizedStream := ⟨ObjectDataOStream.fresh false, 0, by simp [ObjectDataOStream.fresh]⟩
    let d : DataChunk cfg := DataChunk.ofCompress cfg s rfl (List.replicate 100 0) (by decide)
      (Or.inl rfl)
    let c : ObjectDataOCommand cfg := ⟨.slaveDelta 5, 2, 3, 4, 0, true, some d⟩
    c.Delivered names (fun _ => 0) 60000 ⟨[8, 9], by decide, by decide⟩ := by
  intro cfg names s d c
  exact (c.delivered_iff names Compressor.zeros_proper _ _ _ (by decide +kernel)).2 (by decide)

/-- A delta of one byte with a buffer size of 64 bytes. -/
theorem ObjectDataOCommand.short_buffer_not_delivered :
    let cfg : Config := ⟨Compressor.zeros, 64, 1023, false⟩
    let names : CompressorNames := ⟨1, 7, by decide⟩
    let s : SizedStream := ⟨ObjectDataOStream.fresh false, 0, by simp [ObjectDataOStream.fresh]⟩
    let d : DataChunk cfg := DataChunk.ofCompress cfg s rfl [42] (by decide) (Or.inl rfl)
    let c : ObjectDataOCommand cfg := ⟨.delta, 2, 3, 4, 0, true, some d⟩
    ¬ c.Delivered names (fun _ => 0) 64 ⟨[8], by decide, by decide⟩ := by
  intro cfg names s d c
  exact c.not_delivered_of_overrun names Compressor.zeros_proper _ _ (by decide +kernel)
    (by decide)

end Collage.Stream
