import Mathlib.Data.BitVec
import Mathlib.Data.List.ReduceOption

/-!
# Datagrams and buffers of the reliable stream protocol

The packets of `rspConnection.h` and the pooled buffers they travel in. Byte order conversion is
the identity of a little-endian build. A data packet keeps its header fields and the bytes behind
the header; the header's `size`, not the length of the region, says how many of them count.
-/

namespace Collage.Rsp

abbrev U16 := BitVec 16

/-- The attributes a connection reads from `Global`. The constructor asserts that a nack packet
fits the MTU, and a UDP datagram over IPv4 carries at most 65507 bytes. -/
structure Config where
  mtu : ℕ
  numBuffers : ℕ
  ackFreq : ℕ
  nack_le_mtu : 1208 ≤ mtu
  mtu_le : mtu ≤ 65507
  numBuffers_lt : numBuffers < 2 ^ 16
  ackFreq_pos : 0 < ackFreq

def Config.payloadSize (cfg : Config) : ℕ := cfg.mtu - 8

theorem Config.payloadSize_lt (cfg : Config) : cfg.payloadSize < 2 ^ 16 := by
  have := cfg.mtu_le
  unfold payloadSize
  omega

/-- A configuration with few buffers and an ack for every packet. -/
def Config.tiny (numBuffers : ℕ) (h : numBuffers < 2 ^ 16 := by decide) : Config where
  mtu := 1208
  numBuffers := numBuffers
  ackFreq := 1
  nack_le_mtu := le_rfl
  mtu_le := by decide
  numBuffers_lt := h
  ackFreq_pos := by decide

structure DatagramData where
  size : U16
  writerID : U16
  sequence : U16
  payload : List UInt8
  deriving DecidableEq, Repr

def DatagramData.bytes (d : DatagramData) : List UInt8 := d.payload.take d.size.toNat

structure Nack where
  start : U16
  stop : U16
  deriving DecidableEq, Repr

/-- The numbers a nack asks for. -/
def Nack.names (nack : Nack) (n : U16) : Prop := nack.start ≤ n ∧ n ≤ nack.stop

instance (nack : Nack) (n : U16) : Decidable (nack.names n) := inferInstanceAs (Decidable (_ ∧ _))

/-- The types that use the packet layout of `DatagramNode`. -/
inductive NodeType
  | hello
  | helloReply
  | deny
  | confirm
  | exit
  | countNode
  deriving DecidableEq, Repr

inductive Datagram
  | data (d : DatagramData)
  | ackReq (writerID sequence : U16)
  | nack (readerID writerID : U16) (nacks : List Nack)
  | ack (readerID writerID sequence : U16)
  | node (type : NodeType) (connectionID data : U16)
  deriving DecidableEq, Repr

def Datagram.isAck : Datagram → Bool
  | .ack _ _ _ => true
  | _ => false

/-- Data and acknowledgements that do not come from the given member. -/
def Datagram.foreign (d : Datagram) (id : U16) : Prop :=
  match d with
  | .data d => d.writerID ≠ id
  | .ack readerID _ _ => readerID ≠ id
  | .ackReq _ _ | .nack _ _ _ | .node _ _ _ => True

instance (d : Datagram) (id : U16) : Decidable (d.foreign id) :=
  match d with
  | .data d => inferInstanceAs (Decidable (d.writerID ≠ id))
  | .ack readerID _ _ => inferInstanceAs (Decidable (readerID ≠ id))
  | .ackReq _ _ | .nack _ _ _ | .node _ _ _ => isTrue trivial

/-- One of the `_buffers` of a connection: `addr` is its identity, which survives a swap of the
contents. -/
structure Buffer where
  addr : ℕ
  data : DatagramData
  deriving DecidableEq, Repr

def emptyData : DatagramData := ⟨0, 0, 0, []⟩

def newBuffers (cfg : Config) : List Buffer :=
  (List.range cfg.numBuffers).map (fun i => ⟨i, emptyData⟩)

/-- `LFQueue::push` of a queue of the given capacity; a full queue refuses the buffer. -/
def pushThread (capacity : ℕ) (queue : List Buffer) (b : Buffer) : List Buffer :=
  if queue.length < capacity then queue ++ [b] else queue

/-- The identities held by a queue that may also hold null entries. -/
def addrs (queue : List (Option Buffer)) : List ℕ := queue.reduceOption.map Buffer.addr

@[simp] theorem addrs_nil : addrs [] = [] := rfl

@[simp] theorem addrs_cons_none (q : List (Option Buffer)) : addrs (none :: q) = addrs q := rfl

@[simp] theorem addrs_cons_some (b : Buffer) (q : List (Option Buffer)) :
    addrs (some b :: q) = b.addr :: addrs q := rfl

@[simp] theorem addrs_append (p q : List (Option Buffer)) :
    addrs (p ++ q) = addrs p ++ addrs q := by
  simp [addrs, List.reduceOption_append]

@[simp] theorem addrs_map_some (bs : List Buffer) :
    addrs (bs.map some) = bs.map Buffer.addr := by
  induction bs with
  | nil => rfl
  | cons b bs ih => rw [List.map_cons, addrs_cons_some, ih, List.map_cons]

@[simp] theorem addrs_replicate_none (n : ℕ) : addrs (List.replicate n none) = [] := by
  induction n with
  | zero => rfl
  | succ n ih => rw [List.replicate_succ, addrs_cons_none, ih]

@[simp] theorem map_addr_newBuffers (cfg : Config) :
    (newBuffers cfg).map Buffer.addr = List.range cfg.numBuffers := by
  simp [newBuffers, Function.comp_def]

end Collage.Rsp
