import Collage.Lib.LittleEndian
import Collage.Lib.Run
import Collage.Stream.OStream

/-!
# Commands

A command is an output stream of its own that is sent when it is destroyed. Its first eight bytes
are its size, which `sendData` fills in. Object data follows a command that has sent its header
before; then the connection stays locked until the data is sent. A buffer that is shorter than what
is sent is filled up with whatever stands behind it in memory.
-/

namespace Collage.Stream

def commandMinSize : ℕ := 256

inductive ConnectionOp
  | lockSend
  | send (bytes : Bytes) (isLocked : Bool)
  | unlockSend
  deriving DecidableEq, Repr

def ConnectionOp.bytes : ConnectionOp → Bytes
  | .send bytes _ => bytes
  | .lockSend | .unlockSend => []

/-- The bytes that a list of operations puts on the wire. -/
def wireOf (ops : List ConnectionOp) : Bytes := (ops.map ConnectionOp.bytes).flatten

/-- A command with the writes of its arguments and the pieces of object data sent behind it. -/
structure OCommand where
  type : BitVec 32
  cmd : BitVec 32
  args : List Bytes
  data : List Bytes
  deriving DecidableEq, Repr

structure CommandState where
  isLocked : Bool
  /-- The number of bytes that follow the buffer of the command. -/
  size : ℕ
  ops : List ConnectionOp
  deriving DecidableEq, Repr

/-- The first `n` bytes at an address where `bytes` are known. -/
def fill (memory : ℕ → UInt8) (bytes : Bytes) (n : ℕ) : Bytes :=
  (List.range n).map (fun i => bytes.getD i (memory i))

namespace OCommand

abbrev CommandStream := DataOStream CommandState

def perform (s : CommandStream) (op : ConnectionOp) : CommandStream :=
  { s with sub := { s.sub with ops := s.sub.ops ++ [op] } }

def sendData (memory : ℕ → UInt8) (s : CommandStream) (_buffer : Bytes) (size : ℕ)
    (_last : Bool) : CommandStream :=
  let bytes := toLE 8 (s.sub.size + size) ++ s.buffer.drop 8
  let sendSize := if s.sub.isLocked then size else max size commandMinSize
  perform { s with buffer := bytes } (.send (fill memory bytes sendSize) s.sub.isLocked)

/-- The stream of a new command; commands choose no compressor. -/
def start : CommandStream where
  state := .uncompressed
  buffer := []
  bufferStart := 0
  dataSize := 0
  result := []
  connected := true
  enabled := true
  dataSent := false
  save := true
  sub := ⟨false, 0, []⟩

/-- The writes of `_init` and of the arguments. -/
def words (c : OCommand) : List Bytes :=
  [toLE 8 0, toLE 4 c.type.toNat, toLE 4 c.cmd.toNat] ++ c.args

section

variable (memory : ℕ → UInt8) (objectBufferSize : ℕ)

def write (s : CommandStream) (w : Bytes) : CommandStream :=
  s.write (sendData memory) (Config.plain objectBufferSize) w

def sendHeader (s : CommandStream) (additionalSize : ℕ) : CommandStream :=
  let locked := perform s .lockSend
  { locked with sub := { locked.sub with isLocked := true, size := additionalSize } }.flush
    (sendData memory) (Config.plain objectBufferSize) true

/-- The destructor of `OCommand`. -/
def destroy (s : CommandStream) : CommandStream :=
  if s.sub.isLocked then
    let size := s.sub.size + s.buffer.length
    let padded := if size < commandMinSize then
        perform s (.send (fill memory [] (commandMinSize - size)) true)
      else s
    perform padded .unlockSend
  else s.disable (sendData memory) (Config.plain objectBufferSize)

/-- A command from its construction to its destruction. -/
def run (c : OCommand) : CommandStream :=
  let s := c.words.foldl (write memory objectBufferSize) start
  if 0 < c.data.flatten.length then
    destroy memory objectBufferSize
      (c.data.foldl (fun s piece => perform s (.send piece true))
        (sendHeader memory objectBufferSize s c.data.flatten.length))
  else destroy memory objectBufferSize s

def ops (c : OCommand) : List ConnectionOp := (run memory objectBufferSize c).sub.ops

end

def size (c : OCommand) : ℕ := 16 + c.args.flatten.length + c.data.flatten.length

/-- All but the last write of a command fit into the stream's buffer, so that it is not flushed
before its end. -/
def Fits (objectBufferSize : ℕ) (c : OCommand) : Prop :=
  c.words.dropLast.flatten.length ≤ objectBufferSize

instance (objectBufferSize : ℕ) (c : OCommand) : Decidable (c.Fits objectBufferSize) :=
  inferInstanceAs (Decidable (_ ≤ _))

end OCommand

/-- A received command: the header fields and the bytes of its arguments. -/
structure ICommand where
  size : ℕ
  type : BitVec 32
  cmd : BitVec 32
  args : Bytes
  deriving DecidableEq, Repr

def ICommand.ofBuffer (buffer : Bytes) : ICommand where
  size := ofLE (buffer.take 8)
  type := BitVec.ofNat 32 (ofLE ((buffer.drop 8).take 4))
  cmd := BitVec.ofNat 32 (ofLE ((buffer.drop 12).take 4))
  args := (buffer.take (ofLE (buffer.take 8))).drop 16

/-- `_readHead`: the receive of `COMMAND_MINSIZE` bytes. -/
def readHead (wire : Bytes) : Option (Bytes × Bytes) :=
  if wire.length < commandMinSize then none
  else some (wire.take commandMinSize, wire.drop commandMinSize)

/-- `_readTail`. A larger buffer takes over the bytes read so far. -/
def readTail (buffer wire : Bytes) (needed : ℕ) : Option (Bytes × Bytes) :=
  if needed ≤ buffer.length then some (buffer, wire)
  else if wire.length < needed - buffer.length then none
  else some (buffer ++ wire.take (needed - buffer.length), wire.drop (needed - buffer.length))

/-- `_handleData`: the next command and the bytes behind it. -/
def readCommand (wire : Bytes) : Option (ICommand × Bytes) :=
  (readHead wire).bind (fun head =>
    (readTail head.1 head.2 (ICommand.ofBuffer head.1).size).map (fun tail =>
      (ICommand.ofBuffer tail.1, tail.2)))

def OCommand.received (c : OCommand) : ICommand :=
  ⟨c.size, c.type, c.cmd, c.args.flatten ++ c.data.flatten⟩

/-- A command alone on the wire: it has its minimal size at least, its size field is right, and
the receiver gets it and finds the start of the next one. -/
def OCommand.Framed (memory : ℕ → UInt8) (objectBufferSize : ℕ) (c : OCommand) : Prop :=
  let wire := wireOf (c.ops memory objectBufferSize)
  wire.length = max c.size commandMinSize ∧ ofLE (wire.take 8) = c.size ∧
    ∀ rest, readCommand (wire ++ rest) = some (c.received, rest)

end Collage.Stream
