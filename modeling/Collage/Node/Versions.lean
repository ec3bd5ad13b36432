import Collage.Lib.Batches
import Collage.Node.Delivery
import Collage.Stream.DataCommand
import Collage.Stream.Symmetry

/-!
# Versions of an object across nodes

A master commits versions of its object, each as a number of data commands. The receiver thread of
another node hands the data commands for a slave to `_cmdData`, which collects them in its current
stream and queues the stream with the last command of a version. However the commands are split and
mixed with others on their way, the queued streams are the first versions, and what was streamed
into a version is read from it.
-/

namespace Collage.Versions

open Collage.Stream (Bytes Config CompressorNames DataCommand DataIStream DataVariant Entry ICommand
  Keys OCommand ObjectDataICommand ObjectDataOCommand ObjectDataOStream Senders InstanceCommand
  commandTypeNode commandTypeObject cmdObjectDelta cmdObjectInstance fields ofBytes readAll skipped
  writeAll)
open Collage.Transfer (Allocator Fitting InOrder OnWire Reader)

/-- A data command as `ObjectDataIStream` keeps it: its header, the fields of its variant and the
data behind them. -/
structure Received where
  header : ObjectDataICommand
  isInstance : Bool
  extra : List Bytes
  command : DataCommand
  deriving DecidableEq, Repr

/-- The construction of an `ObjectDataICommand` and what `getNextBuffer` takes from it. -/
def Received.ofICommand (names : CompressorNames) (c : ICommand) : Option Received :=
  (ObjectDataICommand.ofICommand c).bind (fun d => (fields (skipped c.cmd) d.2).map (fun r =>
    { header := d.1
      isInstance := c.cmd = cmdObjectInstance
      extra := r.1
      command := ⟨d.1.sequence, d.1.dataSize, d.1.isLast,
        if d.1.compressor = names.none then .raw r.2
        else .chunks (Stream.readChunks d.1.chunks r.2)⟩ }))

structure SlaveID where
  id : BitVec 128
  nodeID : BitVec 128
  instanceID : BitVec 32
  deriving DecidableEq, Repr

/-- `CO_INSTANCE_NONE`, `CO_INSTANCE_INVALID` and `CO_INSTANCE_ALL` address all instances. -/
def toAll (instanceID : BitVec 32) : Prop := 0xfffffffd ≤ instanceID.toNat

instance (instanceID : BitVec 32) : Decidable (toAll instanceID) :=
  inferInstanceAs (Decidable (_ ≤ _))

/-- The commands that reach `_cmdData`: those for objects, and the instance data of commits, and of
mapping for this node, that `_cmdInstance` of the store passes on. -/
def Passes (slave : SlaveID) (c : ICommand) (r : Received) : Prop :=
  r.header.objectID = slave.id ∧
    (toAll r.header.instanceID ∨ r.header.instanceID = slave.instanceID) ∧
    (c.type = commandTypeObject ∧ (c.cmd = cmdObjectInstance ∨ c.cmd = cmdObjectDelta) ∨
      c.type = commandTypeNode ∧ (c.cmd = InstanceCommand.commit.cmd ∨
        c.cmd = InstanceCommand.map.cmd ∧ r.extra.head?.map ofLE = some slave.nodeID.toNat))

instance (slave : SlaveID) (c : ICommand) (r : Received) : Decidable (Passes slave c r) :=
  inferInstanceAs (Decidable (_ ∧ _))

def forSlave (names : CompressorNames) (slave : SlaveID) (c : ICommand) : Option Received :=
  (Received.ofICommand names c.dispatch).filter (fun r => Passes slave c r)

/-- The streams of a slave: the one that is received, and the queued versions. -/
structure Streams where
  currentIStream : Option (List Received)
  queuedVersions : List (List Received)
  deriving DecidableEq, Repr

namespace Streams

def start : Streams := ⟨none, []⟩

def cmdData (s : Streams) (r : Received) : Streams :=
  let commands := s.currentIStream.getD [] ++ [r]
  if r.command.isLast then ⟨none, s.queuedVersions ++ [commands]⟩
  else ⟨some commands, s.queuedVersions⟩

end Streams

/-- `getVersion` of a ready stream. -/
def getVersion (stream : List Received) : Option (BitVec 128) :=
  stream.getLast?.map (fun r => r.header.version)

/-- `hasInstanceData` of a stream that nothing was read from. -/
def hasInstanceData (stream : List Received) : Option Bool := stream.head?.map Received.isInstance

/-- The streams of a slave after the receiver thread has dispatched some commands. -/
def streamsOf (names : CompressorNames) (slave : SlaveID) (dispatched : List ICommand) : Streams :=
  (dispatched.filterMap (forSlave names slave)).foldl Streams.cmdData .start

section Assembly

end Assembly

section Header

variable {cfg : Config} (names : CompressorNames) (o : ObjectDataOCommand cfg)

theorem ofLE_toLE_bitVec (x : BitVec 128) : BitVec.ofNat 128 (ofLE (toLE 16 x.toNat)) = x := by
  rw [ofLE_toLE_of_lt (lt_of_lt_of_le x.isLt (by norm_num)), BitVec.ofNat_toNat,
    BitVec.setWidth_eq]

theorem ofICommand_dispatch :
    ObjectDataICommand.ofICommand (o.oCommand names).received.dispatch =
      some (⟨o.id, o.instanceID, o.version, o.bytes.length, o.sequence, o.isLast,
          o.compressorField names, o.chunksField.toNat⟩,
        o.variant.extra.flatten ++ (o.body names).flatten) := by
  have hargs : (o.oCommand names).received.dispatch.args =
      [toLE 16 o.id.toNat, toLE 4 o.instanceID.toNat, toLE 16 o.version.toNat,
        toLE 8 o.bytes.length, toLE 4 o.sequence.toNat, [if o.isLast then 1 else 0],
        toLE 4 (o.compressorField names).toNat, toLE 4 o.chunksField.toNat].flatten ++
          (o.variant.extra.flatten ++ (o.body names).flatten) := by
    have hsame : (o.oCommand names).received.dispatch.args =
        (o.args names).flatten ++ (o.body names).flatten := by
      unfold ICommand.dispatch
      split_ifs <;> rfl
    rw [hsame, ObjectDataOCommand.args, ObjectDataOCommand.dataHeader_eq]
    simp
  have hfields := Stream.fields_append [toLE 16 o.id.toNat, toLE 4 o.instanceID.toNat,
    toLE 16 o.version.toNat, toLE 8 o.bytes.length, toLE 4 o.sequence.toNat,
    [if o.isLast then 1 else 0], toLE 4 (o.compressorField names).toNat,
    toLE 4 o.chunksField.toNat] (o.variant.extra.flatten ++ (o.body names).flatten)
  rw [← hargs] at hfields
  simp only [List.map_cons, List.map_nil, length_toLE, List.length_singleton] at hfields
  have hlast : decide ([if o.isLast = true then (1 : UInt8) else 0] ≠ [0]) = o.isLast := by
    cases o.isLast <;> rfl
  rw [ObjectDataICommand.ofICommand, hfields]
  simp only [ofLE_toLE_bitVec, OCommand.bitVec_ofLE_toLE, hlast,
    ofLE_toLE_of_lt (lt_of_lt_of_eq o.bytes_length_lt (by norm_num : (2 : ℕ) ^ 64 = 256 ^ 8)),
    ofLE_toLE_of_lt (lt_of_lt_of_eq o.chunksField.isLt (by norm_num : (2 : ℕ) ^ 32 = 256 ^ 4))]

def isInstance : DataVariant → Bool
  | .instanceData _ _ _ => true
  | .delta | .slaveDelta _ => false

def receivedOf : Received where
  header := ⟨o.id, o.instanceID, o.version, o.bytes.length, o.sequence, o.isLast,
    o.compressorField names, o.chunksField.toNat⟩
  isInstance := isInstance o.variant
  extra := o.variant.extra
  command := ⟨o.sequence, o.bytes.length, o.isLast,
    if o.compressorField names = names.none then .raw (o.body names).flatten
    else .chunks (Stream.readChunks o.chunksField.toNat (o.body names).flatten)⟩

theorem cmd_dispatch :
    decide ((o.oCommand names).received.dispatch.cmd = cmdObjectInstance) =
      isInstance o.variant := by
  cases hv : o.variant with
  | instanceData cmd nodeID masterInstanceID =>
      simp only [ObjectDataOCommand.oCommand, OCommand.received, hv]
      cases cmd <;> rfl
  | delta =>
      simp only [ObjectDataOCommand.oCommand, OCommand.received, hv]
      rfl
  | slaveDelta commit =>
      simp only [ObjectDataOCommand.oCommand, OCommand.received, hv]
      rfl

theorem ofICommand_oCommand :
    Received.ofICommand names (o.oCommand names).received.dispatch = some (receivedOf names o) := by
  have hskip := Stream.fields_append o.variant.extra (o.body names).flatten
  rw [← o.skipped_dispatch names] at hskip
  rw [Received.ofICommand, ofICommand_dispatch, Option.bind_some, hskip, Option.map_some,
    cmd_dispatch]
  rfl

/-- A command that carries a data command of a stream. -/
structure Carries (d : DataCommand) (o : ObjectDataOCommand cfg) : Prop where
  sequence : o.sequence = d.sequence
  isLast : o.isLast = d.isLast
  chunk : ∃ k : Stream.DataChunk cfg, o.chunk = some k ∧ d = k.command d.sequence d.isLast

theorem command_receivedOf (hcfg : cfg.compressor.Proper)
    (hsize : (o.oCommand names).size < 2 ^ 64) {d : DataCommand} (h : Carries d o) :
    (receivedOf names o).command = d := by
  obtain ⟨k, hk, hd⟩ := h.chunk
  have hbytes : o.bytes = k.bytes := by simp [ObjectDataOCommand.bytes, hk]
  have hname : o.compressorField names = k.stream.getCompressor names := by
    simp [ObjectDataOCommand.compressorField, hk]
  have hnum : o.chunksField = k.stream.getNumChunks := by
    simp [ObjectDataOCommand.chunksField, hk]
  rw [hd, receivedOf, h.sequence, h.isLast, Stream.DataChunk.command, hbytes]
  rcases k.holds with ⟨hstate, hdata⟩ | ⟨hstate, hresult⟩
  · rw [if_pos (hname.trans (if_pos hstate)), Stream.DataOStream.body, if_pos hstate, hdata,
      ObjectDataOCommand.body_of_raw names o hk ⟨if_pos hstate, if_pos hstate, hdata⟩]
  · have hnot : ¬ (k.stream.stream.state = .uncompressed ∨
        k.stream.stream.state = .uncompressible) := by
      rcases hstate with h | h <;> simp [h]
    have hpacked : k.Packed names := by
      refine (k.raw_or_packed names hcfg).resolve_left (fun hraw => names.ne ?_)
      rw [← hraw.compressor]
      exact (if_neg hnot).symm
    have hne : o.compressorField names ≠ names.none := by
      rw [hname, hpacked.compressor]
      exact names.ne
    have hlt : ∀ chunk ∈ cfg.compressor.compress k.bytes, chunk.length < 2 ^ 64 := by
      intro chunk hmem
      have hbody : chunk ∈ o.body names := by
        rw [ObjectDataOCommand.body_of_packed names o hcfg hk hpacked]
        exact List.mem_flatMap.2 ⟨chunk, hmem, by simp⟩
      have hle := (List.sublist_flatten_of_mem hbody).length_le
      have hall : (o.body names).flatten.length ≤ (o.oCommand names).size := Nat.le_add_left _ _
      omega
    have hread := Stream.readChunks_flatMap hlt []
    rw [List.append_nil, ← ObjectDataOCommand.body_of_packed names o hcfg hk hpacked] at hread
    rw [if_neg hne, hnum, hpacked.numChunks, hread, Stream.DataOStream.body, if_neg hnot, hresult]

end Header

section Sends

open Collage.Stream.ObjectDataOStream (Saved Writing complete_iff_of_sequence writing_commit
  writing_enableCommit)
open Collage.Stream (DataChunk EndsInTime ObjectDataOStream)

variable {cfg : Config} {ws : List Bytes} {sent : List DataCommand}

/-- The data commands of a stream for the bytes of `ws`: those of a commit, or the one that sends
again what was saved. -/
inductive Sends (cfg : Config) (ws : List Bytes) : List DataCommand → Prop
  | commit (s : ObjectDataOStream) (hsequence : s.sub.sequence = 0)
      (htime : s.save = true ∨ EndsInTime cfg.objectBufferSize ws) :
      Sends cfg ws (s.commit cfg true ws).sub.sent
  | resend (s : ObjectDataOStream) (hsaved : Saved cfg s ws.flatten)
      (hlen : ws.flatten.length < 2 ^ 64) : Sends cfg ws (s.resend cfg).sub.sent

theorem isBatch_of_map (before : ℕ)
    (h : sent.map DataCommand.isLast = List.replicate before false ++ [true]) :
    IsBatch DataCommand.isLast sent := by
  obtain ⟨front, last, rfl, hfront, hlast⟩ := List.map_eq_append_iff.1 h
  obtain ⟨c, rfl, hc⟩ := List.map_eq_singleton_iff.1 hlast
  refine ⟨front, c, rfl, hc, fun d hd => ?_⟩
  have hmem : d.isLast ∈ List.replicate before false := hfront ▸ List.mem_map_of_mem hd
  exact List.eq_of_mem_replicate hmem

theorem Sends.isBatch (h : Sends cfg ws sent) (hne : ws.flatten ≠ []) :
    IsBatch DataCommand.isLast sent := by
  cases h with
  | commit s hsequence htime =>
      have hcomplete := (complete_iff_of_sequence cfg s hsequence ws).2 htime
      obtain ⟨before, hlast⟩ := (hcomplete.2.2.1 hne).2
      exact isBatch_of_map before hlast
  | resend s hsaved hlen =>
      obtain ⟨-, -, c, hsent, -, hlast, -⟩ := hsaved.resend
      exact isBatch_of_map 0 (by rw [hsent, List.map_singleton, hlast]; rfl)

theorem Sends.before (h : Sends cfg ws sent) : (DataIStream.start sent).Before cfg ws := by
  cases h with
  | commit s hsequence htime =>
      exact (writing_commit cfg hsequence ws).before
        ((writing_enableCommit cfg hsequence).sized_writes
          (fun _ hc => absurd hc List.not_mem_nil) ws)
  | resend s hsaved hlen =>
      obtain ⟨k, hk, hsent⟩ := DataChunk.resend_sends
        (s := ⟨s, (s.result.map List.length).sum, fun _ => rfl⟩) hsaved hlen
      have hpayload := k.payload_command s.sub.sequence true
      rw [hsent]
      refine ⟨rfl, fun c hc => ?_, ?_⟩
      · rw [List.mem_singleton.1 hc, hpayload]
        rfl
      · have hall : ws = [ws].flatten ++ [] := by simp
        rw [hall]
        refine Ahead.start ?_ rfl
        change [_] = _
        rw [hpayload, hk]
        rfl

def Chunked (cfg : Config) (sent : List DataCommand) : Prop :=
  ∀ c ∈ sent, ∃ k : DataChunk cfg, c = k.command c.sequence c.isLast

theorem Chunked.concat (h : Chunked cfg sent) (k : DataChunk cfg) (sequence : BitVec 32)
    (last : Bool) : Chunked cfg (sent ++ [k.command sequence last]) := by
  intro c hc
  rcases List.mem_append.1 hc with hc | hc
  · exact h c hc
  · exact ⟨k, by rw [List.mem_singleton.1 hc]; rfl⟩

theorem length_drop_le {s : ObjectDataOStream} (hw : Writing cfg s ws) :
    (s.buffer.drop s.bufferStart).length ≤ ws.flatten.length := by
  rw [← hw.flatten_payloads, List.length_append]
  omega

theorem Chunked.write {s : ObjectDataOStream} (h : Chunked cfg s.sub.sent)
    (hw : Writing cfg s ws) (hlen : ws.flatten.length < 2 ^ 64) (w : Bytes) :
    Chunked cfg (s.write ObjectDataOStream.send cfg w).sub.sent := by
  unfold Stream.DataOStream.write
  split_ifs
  · have hsends := DataChunk.flush_sends cfg ⟨s, 0, by simp [hw.state]⟩ hw.connected false
      ((length_drop_le hw).trans_lt hlen)
    simp only [hsends]
    exact h.concat _ _ _
  · exact h

theorem Chunked.writes {s : ObjectDataOStream} (h : Chunked cfg s.sub.sent)
    (hw : Writing cfg s ws) (more : List Bytes) (hlen : (ws ++ more).flatten.length < 2 ^ 64) :
    Chunked cfg (s.writes cfg more).sub.sent := by
  induction more generalizing s ws with
  | nil => exact h
  | cons w more ih =>
      have hle : ws.flatten.length < 2 ^ 64 := by
        refine lt_of_le_of_lt ?_ hlen
        rw [List.flatten_append, List.length_append]
        omega
      exact ih (h.write hw hle w) (hw.write w) (by simpa using hlen)

theorem Sends.chunked (h : Sends cfg ws sent) (hlen : ws.flatten.length < 2 ^ 64) :
    Chunked cfg sent := by
  cases h with
  | commit s hsequence htime =>
      have hw := writing_commit cfg hsequence ws
      have hc : Chunked cfg ((s.enableCommit true).writes cfg ws).sub.sent :=
        Chunked.writes (fun _ hc => absurd hc List.not_mem_nil) (writing_enableCommit cfg hsequence)
          ws hlen
      by_cases hbuffer : ((s.enableCommit true).writes cfg ws).buffer = []
      · exact (hw.disable_empty hbuffer).1 ▸ hc
      · obtain ⟨k, -, hsent⟩ := DataChunk.disable_sends cfg
          ⟨(s.enableCommit true).writes cfg ws, 0, by simp [hw.state]⟩ hw.enabled
          hw.connected hw.state hbuffer ((length_drop_le hw).trans_lt hlen)
        exact hsent ▸ hc.concat k _ _
  | resend s hsaved hlen =>
      obtain ⟨k, -, hsent⟩ := DataChunk.resend_sends
        (s := ⟨s, (s.result.map List.length).sum, fun _ => rfl⟩) hsaved hlen
      exact hsent ▸ Chunked.concat (fun _ hc => absurd hc List.not_mem_nil) k _ _

theorem Sends.exists_commands (h : Sends cfg ws sent) (hlen : ws.flatten.length < 2 ^ 64)
    (variant : DataVariant) (id : BitVec 128) (instanceID : BitVec 32) (version : BitVec 128) :
    ∃ commands : List (ObjectDataOCommand cfg), List.Forall₂ Carries sent commands ∧
      ∀ o ∈ commands, o.variant = variant ∧ o.id = id ∧ o.instanceID = instanceID ∧
        o.version = version := by
  have hchunked := h.chunked hlen
  clear h hlen
  induction sent with
  | nil => exact ⟨[], .nil, fun _ ho => absurd ho List.not_mem_nil⟩
  | cons d sent ih =>
      obtain ⟨k, hk⟩ := hchunked d List.mem_cons_self
      obtain ⟨commands, hcarried, hheader⟩ :=
        ih (fun c hc => hchunked c (List.mem_cons_of_mem d hc))
      refine ⟨⟨variant, id, instanceID, version, d.sequence, d.isLast, some k⟩ :: commands,
        .cons ⟨rfl, rfl, k, rfl, hk⟩ hcarried, fun o ho => ?_⟩
      rcases List.mem_cons.1 ho with rfl | ho
      · exact ⟨rfl, rfl, rfl, rfl⟩
      · exact hheader o ho

end Sends

/-- A version that a master sends to the nodes of its slaves. -/
structure Version (cfg : Config) (keys : Keys) where
  version : BitVec 128
  isInstance : Bool
  entries : List (Entry keys)
  sent : List DataCommand
  commands : List (ObjectDataOCommand cfg)
  sends : Sends cfg (writeAll entries) sent
  nonempty : (writeAll entries).flatten ≠ []
  readable : ¬ Stream.EndsEmpty entries
  carried : List.Forall₂ Carries sent commands
  header : ∀ o ∈ commands, o.version = version ∧ isInstance = Versions.isInstance o.variant

/-- The stream that a slave has queued for a version: it has the version's number, and the values
that were streamed into the version are read from it. -/
structure Delivered {cfg : Config} {keys : Keys} (v : Version cfg keys) (stream : List Received) :
    Prop where
  version : getVersion stream = some v.version
  isInstance : hasInstanceData stream = some v.isInstance
  commands : stream.map Received.command = v.sent
  values : ∃ s, readAll cfg keys (v.entries.map Entry.item)
      (DataIStream.start (stream.map Received.command)) =
        .ok (v.entries.map (fun e => ⟨e.item, e.value⟩), s) ∧ s.hasData cfg = false

section Version

variable {cfg : Config} {keys : Keys} {names : CompressorNames} {v : Version cfg keys}

theorem exists_version {entries : List (Entry keys)} {sent : List DataCommand}
    (h : Sends cfg (writeAll entries) sent) (hne : (writeAll entries).flatten ≠ [])
    (hreadable : ¬ Stream.EndsEmpty entries) (hlen : (writeAll entries).flatten.length < 2 ^ 64)
    (variant : DataVariant) (id : BitVec 128) (instanceID : BitVec 32) (version : BitVec 128) :
    ∃ v : Version cfg keys, v.version = version ∧ v.entries = entries ∧ v.sent = sent ∧
      ∀ o ∈ v.commands, o.variant = variant ∧ o.id = id ∧ o.instanceID = instanceID := by
  obtain ⟨commands, hcarried, hheader⟩ := h.exists_commands hlen variant id instanceID version
  refine ⟨⟨version, isInstance variant, entries, sent, commands, h, hne, hreadable, hcarried,
    fun o ho => ?_⟩, rfl, rfl, rfl, fun o ho => ?_⟩
  · obtain ⟨hvariant, -, -, hversion⟩ := hheader o ho
    exact ⟨hversion, by rw [hvariant]⟩
  · obtain ⟨hvariant, hid, hinstance, -⟩ := hheader o ho
    exact ⟨hvariant, hid, hinstance⟩

theorem Version.commands_ne_nil (v : Version cfg keys) : v.commands ≠ [] := by
  intro hnil
  have hsent := v.carried
  rw [hnil, List.forall₂_nil_right_iff] at hsent
  exact prefixFree_isBatch.ne_nil (hsent ▸ v.sends.isBatch v.nonempty)

theorem map_command (hcfg : cfg.compressor.Proper) {sent : List DataCommand}
    {commands : List (ObjectDataOCommand cfg)} (h : List.Forall₂ Carries sent commands)
    (hsize : ∀ o ∈ commands, (o.oCommand names).size < 2 ^ 64) :
    (commands.map (receivedOf names)).map Received.command = sent := by
  induction h with
  | nil => rfl
  | cons h _ ih =>
      rw [List.map_cons, List.map_cons,
        command_receivedOf names _ hcfg (hsize _ List.mem_cons_self) h,
        ih (fun o ho => hsize o (List.mem_cons_of_mem _ ho))]

theorem Version.read_all (v : Version cfg keys) {α : Type} {x : Stream.Read α} {a : α}
    (h : Stream.Follows cfg x a (writeAll v.entries)) :
    ∃ s, x (DataIStream.start v.sent) = .ok (a, s) ∧ s.hasData cfg = false := by
  have hbefore := v.sends.before
  rw [← List.append_nil (writeAll v.entries)] at hbefore
  obtain ⟨s, hread, hs⟩ := (h _ [] hbefore).1
    (settled_nil_iff.2 (fun hlast => v.readable (Stream.writeAll_getLast? _ |>.1 hlast)))
  exact ⟨s, hread, by simp [hs.hasData]⟩

theorem Version.delivered (hcfg : cfg.compressor.Proper) (v : Version cfg keys)
    (hsize : ∀ o ∈ v.commands, (o.oCommand names).size < 2 ^ 64) :
    Delivered v (v.commands.map (receivedOf names)) := by
  have hcommands := map_command hcfg v.carried hsize
  refine ⟨?_, ?_, hcommands, hcommands ▸ v.read_all (Stream.readAll_follows cfg v.entries)⟩
  · rw [getVersion, List.getLast?_map, List.getLast?_eq_getLast_of_ne_nil v.commands_ne_nil]
    exact congrArg some (v.header _ (List.getLast_mem _)).1
  · rw [hasInstanceData, List.head?_map, List.head?_eq_some_head v.commands_ne_nil]
    exact congrArg some (v.header _ (List.head_mem _)).2.symm

theorem Version.isBatch (hcfg : cfg.compressor.Proper) (v : Version cfg keys)
    (hsize : ∀ o ∈ v.commands, (o.oCommand names).size < 2 ^ 64) :
    IsBatch (fun r => r.command.isLast) (v.commands.map (receivedOf names)) := by
  obtain ⟨front, last, hsent, hlast, hfront⟩ := v.sends.isBatch v.nonempty
  rw [← map_command hcfg v.carried hsize] at hsent
  obtain ⟨front', last', hsplit, rfl, hlast'⟩ := List.map_eq_append_iff.1 hsent
  obtain ⟨r, rfl, rfl⟩ := List.map_eq_singleton_iff.1 hlast'
  exact ⟨front', r, hsplit, hlast, fun a ha => hfront _ (List.mem_map_of_mem ha)⟩

end Version

section Arrival

variable {cfg : Config} {keys : Keys} {names : CompressorNames} {slave : SlaveID}
  {threads : ℕ → List OCommand} {main : ℕ} {versions : List (Version cfg keys)}

/-- One thread sends the versions, in their order and possibly with other commands, and the other
threads send nothing to the slave. -/
structure SentBy (names : CompressorNames) (slave : SlaveID) (threads : ℕ → List OCommand)
    (main : ℕ) (versions : List (Version cfg keys)) : Prop where
  sent : (threads main).filter (fun c => (forSlave names slave c.received).isSome) =
    (versions.flatMap Version.commands).map (fun o => o.oCommand names)
  others : ∀ i ≠ main, ∀ c ∈ threads i, forSlave names slave c.received = none

theorem SentBy.size (h : SentBy names slave threads main versions)
    (hfits : Fitting cfg.objectBufferSize threads) :
    ∀ v ∈ versions, ∀ o ∈ v.commands, (o.oCommand names).size < 2 ^ 64 := by
  intro v hv o ho
  have hmem : o.oCommand names ∈
      (threads main).filter (fun c => (forSlave names slave c.received).isSome) := by
    rw [h.sent]
    exact List.mem_map_of_mem (List.mem_flatMap.2 ⟨v, hv, ho⟩)
  exact (hfits main _ (List.mem_filter.1 hmem).1).1

theorem SentBy.filterMap (h : SentBy names slave threads main versions) :
    (threads main).filterMap (fun c => forSlave names slave c.received) =
      (versions.map (fun v => v.commands.map (receivedOf names))).flatten := by
  have hflat : (versions.map (fun v => v.commands.map (receivedOf names))).flatten =
      (versions.flatMap Version.commands).map (receivedOf names) := by
    rw [List.map_flatMap, List.flatMap_def]
  have hsome : ∀ o ∈ versions.flatMap Version.commands,
      forSlave names slave (o.oCommand names).received = some (receivedOf names o) := by
    intro o ho
    have hmem : o.oCommand names ∈
        (threads main).filter (fun c => (forSlave names slave c.received).isSome) := by
      rw [h.sent]
      exact List.mem_map_of_mem ho
    obtain ⟨r, hr⟩ := Option.isSome_iff_exists.1 (List.mem_filter.1 hmem).2
    rw [hr]
    rw [forSlave, ofICommand_oCommand, Option.filter_eq_some_iff] at hr
    exact congrArg some (Option.some.inj hr.1).symm
  have hkeep : (threads main).filterMap (fun c => forSlave names slave c.received) =
      ((threads main).filter (fun c => (forSlave names slave c.received).isSome)).filterMap
        (fun c => forSlave names slave c.received) := by
    rw [List.filterMap_filter]
    refine List.filterMap_congr (fun c _ => ?_)
    cases forSlave names slave c.received <;> rfl
  rw [hkeep, h.sent, List.filterMap_map, hflat, ← List.filterMap_eq_map]
  exact List.filterMap_congr hsome

variable {memory : ℕ → UInt8} {t : Senders} {s : Reader}

end Arrival

section Examples

open Collage.Stream (DataChunk ObjectDataOStream)

end Examples

end Collage.Versions
