import Mathlib.Data.BitVec
import Mathlib.Data.List.DropRight

/-!
# Output streams

The buffering, saving and compressing output stream of `dataOStream.cpp`. Subclasses decide in
`sendData` what becomes of a buffer, so all functions of the base class take it as a parameter and
`σ` is the state of the subclass. Here the subclass is the stream of object data; commands are a
second one.
-/

namespace Collage.Stream

abbrev Bytes := List UInt8

/-- A compressor plugin with its decompressor: both work on a list of chunks. -/
structure Compressor where
  isGood : Bool
  compress : Bytes → List Bytes
  decompress : List Bytes → Bytes
  decompress_compress : ∀ bytes, decompress (compress bytes) = bytes

structure Config where
  compressor : Compressor
  /-- `Global::getObjectBufferSize`. -/
  objectBufferSize : ℕ
  /-- `IATTR_OBJECT_COMPRESSION`. -/
  objectCompression : ℕ
  /-- Built with `CO_AGGRESSIVE_CACHING`. -/
  aggressiveCaching : Bool

def Compressor.none : Compressor where
  isGood := false
  compress := fun bytes => [bytes]
  decompress := List.flatten
  decompress_compress := fun bytes => by simp

def Config.plain (objectBufferSize : ℕ) : Config where
  compressor := Compressor.none
  objectBufferSize := objectBufferSize
  objectCompression := 1023
  aggressiveCaching := false

inductive CompressorState
  | uncompressed
  | part
  | complete
  | uncompressible
  deriving DecidableEq, Repr

inductive Body
  | raw (bytes : Bytes)
  | chunks (chunks : List Bytes)
  deriving DecidableEq, Repr

structure DataOStream (σ : Type) where
  state : CompressorState
  buffer : Bytes
  bufferStart : ℕ
  dataSize : ℕ
  /-- The last result of the compressor. -/
  result : List Bytes
  /-- There is a connection to send to. -/
  connected : Bool
  enabled : Bool
  dataSent : Bool
  save : Bool
  sub : σ

namespace DataOStream

variable {σ : Type}

/-- `compress( src, size, result )` of the stream's implementation. -/
def compress (cfg : Config) (s : DataOStream σ) (src : Bytes) (size : ℕ)
    (result : CompressorState) : DataOStream σ :=
  if s.state = result ∨ s.state = .uncompressible then s
  else if cfg.compressor.isGood = false ∨ size ≤ cfg.objectCompression then
    { s with state := .uncompressed }
  else
    let chunks := cfg.compressor.compress (src.take size)
    if size ≤ (chunks.map List.length).sum then
      { s with
        state := .uncompressible
        result := if cfg.aggressiveCaching then chunks else [] }
    else
      { s with
        state := result
        result := chunks
        buffer := if result = .complete ∧ cfg.aggressiveCaching = false then [] else s.buffer }

/-- What `sendBody` puts behind the header. -/
def body (s : DataOStream σ) (data : Bytes) (size : ℕ) : Body :=
  if s.state = .uncompressed ∨ s.state = .uncompressible then .raw (data.take size)
  else .chunks s.result

def enable (s : DataOStream σ) : DataOStream σ :=
  { s with
    state := .uncompressed
    bufferStart := 0
    dataSent := false
    dataSize := 0
    enabled := true
    buffer := [] }

def resetBuffer (s : DataOStream σ) : DataOStream σ :=
  if s.save then { s with state := .uncompressed, bufferStart := s.buffer.length }
  else { s with state := .uncompressed, bufferStart := 0, buffer := [] }

section

variable (sendData : DataOStream σ → Bytes → ℕ → Bool → DataOStream σ) (cfg : Config)

def flush (last : Bool) (s : DataOStream σ) : DataOStream σ :=
  let ptr := s.buffer.drop s.bufferStart
  let size := s.buffer.length - s.bufferStart
  let sent := if s.connected then
      sendData (compress cfg { s with state := .uncompressed } ptr size .part) ptr size last
    else s
  resetBuffer { sent with dataSent := true }

def write (s : DataOStream σ) (data : Bytes) : DataOStream σ :=
  let s' := if cfg.objectBufferSize < s.buffer.length - s.bufferStart then s.flush sendData cfg false
    else s
  { s' with buffer := s'.buffer ++ data }

def disable (s : DataOStream σ) : DataOStream σ :=
  if s.enabled = false then s
  else
    let s' := { s with dataSize := s.buffer.length, dataSent := decide (0 < s.buffer.length) }
    let ptr := s.buffer.drop s.bufferStart
    let size := s.buffer.length - s.bufferStart
    let sent := if s'.dataSent ∧ s'.connected then
        if size = 0 ∧ s'.state = .part then
          sendData { s' with
            state := .complete
            buffer := if cfg.aggressiveCaching then s'.buffer else [] } ptr size true
        else
          sendData (compress cfg { s' with state := .uncompressed } ptr size
            (if s'.bufferStart = 0 then .complete else .part)) ptr size true
      else s'
    { sent with
      buffer := if cfg.aggressiveCaching = false ∧ sent.save = false then [] else sent.buffer
      enabled := false
      connected := false }

/-- Set up the connections, `_resend` and clear them again. -/
def resend (s : DataOStream σ) : DataOStream σ :=
  let s' := compress cfg { s with connected := true } s.buffer s.dataSize .complete
  { sendData s' s'.buffer s'.dataSize true with connected := false }

end

def reset (s : DataOStream σ) : DataOStream σ :=
  { s.resetBuffer with enabled := false, connected := false }

end DataOStream

/-- A data command as `ObjectDataOStream::send` hands it to its connections. -/
structure DataCommand where
  sequence : BitVec 32
  dataSize : ℕ
  isLast : Bool
  body : Body
  deriving DecidableEq, Repr

def DataCommand.payload (cfg : Config) (c : DataCommand) : Bytes := match c.body with
  | .raw bytes => bytes.take c.dataSize
  | .chunks chunks => cfg.compressor.decompress chunks

/-- `ObjectDataOStream`: the next sequence number, and the commands sent since the connections
were set up. -/
structure ObjectStream where
  sequence : BitVec 32
  sent : List DataCommand
  deriving DecidableEq, Repr

abbrev ObjectDataOStream := DataOStream ObjectStream

namespace ObjectDataOStream

def send (s : ObjectDataOStream) (data : Bytes) (size : ℕ) (last : Bool) : ObjectDataOStream :=
  { s with sub :=
      { sequence := if last then 0 else s.sub.sequence + 1
        sent := s.sub.sent ++ [⟨s.sub.sequence, size, last, s.body data size⟩] } }

/-- A new stream, or one after `reset`. -/
def fresh (save : Bool) : ObjectDataOStream where
  state := .uncompressed
  buffer := []
  bufferStart := 0
  dataSize := 0
  result := []
  connected := false
  enabled := false
  dataSent := false
  save := save
  sub := ⟨0, []⟩

/-- `enableCommit`, to some receivers or to none. -/
def enableCommit (s : ObjectDataOStream) (receivers : Bool) : ObjectDataOStream :=
  { s with connected := receivers, sub := { s.sub with sent := [] } }.enable

/-- `_write` for each item of a list. -/
def writes (cfg : Config) (s : ObjectDataOStream) (ws : List Bytes) : ObjectDataOStream :=
  ws.foldl (DataOStream.write send cfg) s

/-- What a commit does with a stream: enable it, write, disable it. -/
def commit (cfg : Config) (s : ObjectDataOStream) (receivers : Bool) (ws : List Bytes) :
    ObjectDataOStream :=
  ((s.enableCommit receivers).writes cfg ws).disable send cfg

/-- `sendMapData`, `push`, `sync` and `sendInstanceData` set up new connections and resend. -/
def resend (cfg : Config) (s : ObjectDataOStream) : ObjectDataOStream :=
  DataOStream.resend send cfg { s with sub := { s.sub with sent := [] } }

end ObjectDataOStream
end Collage.Stream
