import Collage.Node.HandleData
import Collage.Rdma.Stream
import Collage.Rsp.Integrity

/-!
# Delivery of commands

Commands from the threads of one node to the receiver thread of another one. All that is asked of
the transport is that the bytes it has given are the front of the bytes written to it; an RDMA
connection and a reliable multicast group give that.
-/

namespace Collage.Transfer

open Collage.Stream (Bytes ICommand OCommand Senders wireOf)

section Senders

variable {memory : ℕ → UInt8} {objectBufferSize : ℕ} {threads : ℕ → List OCommand} {t : Senders}

/-- A command of the given threads that fits into the buffer of its stream. -/
def Fitting (objectBufferSize : ℕ) (threads : ℕ → List OCommand) : Prop :=
  ∀ i, ∀ c ∈ threads i, c.size < 2 ^ 64 ∧ c.Fits objectBufferSize

theorem whole_of_framed {c : OCommand} (h : c.Framed memory objectBufferSize) :
    Whole (wireOf (c.ops memory objectBufferSize)) ∧
      ICommand.ofBuffer (wireOf (c.ops memory objectBufferSize)) = c.received := by
  obtain ⟨hlen, hfield, hread⟩ := h
  refine ⟨by rw [Whole, hfield, hlen], ?_⟩
  have hall := hread []
  rw [Stream.readCommand_append hlen hfield, Option.some.injEq, Prod.mk.injEq] at hall
  exact hall.1

/-- An initial part of each thread's commands, in its order. -/
def InOrder (threads : ℕ → List OCommand) (log : List (ℕ × OCommand)) : Prop :=
  ∀ i, (log.filter (fun p => p.1 = i)).map Prod.snd <+: threads i

theorem InOrder.take {log : List (ℕ × OCommand)} (h : InOrder threads log) (n : ℕ) :
    InOrder threads (log.take n) :=
  fun i => (((List.take_prefix n log).filter _).map Prod.snd).trans (h i)

/-- What is on the wire is the front of the commands of `log`: the completed ones and possibly one
more. -/
structure OnWire (memory : ℕ → UInt8) (objectBufferSize : ℕ) (threads : ℕ → List OCommand)
    (t : Senders) (log : List (ℕ × OCommand)) : Prop where
  order : InOrder threads log
  wire : t.wire <+: Senders.logged memory objectBufferSize log
  free : t.holder = none → log = t.log ∧ t.wire = Senders.logged memory objectBufferSize t.log

theorem OnWire.framed_of_fitting {log : List (ℕ × OCommand)}
    (h : OnWire memory objectBufferSize threads t log) (hfits : Fitting objectBufferSize threads) :
    ∀ p ∈ log, p.2.Framed memory objectBufferSize := by
  intro p hp
  have hmem : p.2 ∈ threads p.1 :=
    (h.order p.1).subset (List.mem_map_of_mem (List.mem_filter.2 ⟨hp, decide_eq_true rfl⟩))
  exact OCommand.framed_of_fits memory objectBufferSize (hfits p.1 p.2 hmem).1
    (hfits p.1 p.2 hmem).2

theorem exists_onWire (h : Senders.Orderly memory objectBufferSize threads t) :
    ∃ log, OnWire memory objectBufferSize threads t log := by
  have horder : InOrder threads t.log := by
    intro i
    rw [← h.log i]
    exact List.prefix_append _ _
  cases hholder : t.holder with
  | none =>
      have hwire := h.free hholder
      exact ⟨t.log, horder, hwire ▸ List.prefix_refl _, fun _ => ⟨rfl, hwire⟩⟩
  | some i =>
      obtain ⟨c, rest, sent, left, htodo, hops, -, hwire⟩ := h.held i hholder
      have hc : wireOf (c.ops memory objectBufferSize) = sent.flatten ++ left.flatten := by
        rw [hops]
        simp [wireOf, Stream.ConnectionOp.bytes, List.map_map, Function.comp_def]
      refine ⟨t.log ++ [(i, c)], fun j => ?_, ?_, fun hnone => ?_⟩
      · by_cases hj : i = j
        · subst hj
          rw [← h.log i, htodo, List.filter_append, List.map_append]
          simp
        · rw [List.filter_append, List.filter_cons_of_neg (by simpa using hj), List.filter_nil,
            List.append_nil]
          exact horder j
      · rw [hwire, Senders.logged_concat, hc, ← List.append_assoc]
        exact List.prefix_append _ _
      · rw [hholder] at hnone
        cases hnone

theorem orderly_run (hfits : Fitting objectBufferSize threads) {schedule : List ℕ}
    (hrun : Machine.run (Senders.step memory objectBufferSize)
      (Senders.start memory objectBufferSize threads) schedule = some t) :
    Senders.Orderly memory objectBufferSize threads t :=
  Machine.run_invariant (Senders.Orderly memory objectBufferSize threads)
    (fun _ _ _ h _ hs => h.step (fun i c hc => (hfits i c hc).2) hs) Senders.orderly_start
    (Machine.steps_true _ schedule) hrun

end Senders

section Examples

/-- Thread 1 has a command with data, thread 0 one without. -/
def twoThreads : ℕ → List OCommand := fun i =>
  if i = 0 then [⟨1, 2, [[7]], []⟩] else if i = 1 then [⟨3, 4, [], [[9]]⟩] else []

theorem fitting_twoThreads : Fitting 60000 twoThreads := by
  intro i c hc
  unfold twoThreads at hc
  split_ifs at hc
  · obtain rfl := List.mem_singleton.1 hc
    decide
  · obtain rfl := List.mem_singleton.1 hc
    decide
  · cases hc

theorem run_twoThreads : ∃ t, Machine.run (Senders.step (fun _ => 0) 60000)
      (Senders.start (fun _ => 0) 60000 twoThreads) [1, 1, 1, 1, 1, 0] = some t ∧
    t.holder = none ∧ t.log = [(1, ⟨3, 4, [], [[9]]⟩), (0, ⟨1, 2, [[7]], []⟩)] := by
  have h : (Machine.run (Senders.step (fun _ => 0) 60000)
      (Senders.start (fun _ => 0) 60000 twoThreads) [1, 1, 1, 1, 1, 0]).map (fun t =>
        decide (t.holder = none ∧
          t.log = [(1, ⟨3, 4, [], [[9]]⟩), (0, ⟨1, 2, [[7]], []⟩)])) = some true := by
    decide +kernel
  obtain ⟨t, hrun, ht⟩ := Option.map_eq_some_iff.1 h
  exact ⟨t, hrun, of_decide_eq_true ht⟩

def oneThread : ℕ → List OCommand := fun i => if i = 0 then [⟨1, 2, [[7]], []⟩] else []

theorem fitting_oneThread : Fitting 60000 oneThread := by
  intro i c hc
  unfold oneThread at hc
  split_ifs at hc
  · obtain rfl := List.mem_singleton.1 hc
    decide
  · cases hc

def oneFrame : Bytes := wireOf ((⟨1, 2, [[7]], []⟩ : OCommand).ops (fun _ => 0) 60000)

theorem whole_oneFrame : ∀ f ∈ [oneFrame], Whole f := by
  intro f hf
  rw [List.mem_singleton.1 hf]
  decide +kernel

theorem run_oneThread : ∃ t, Machine.run (Senders.step (fun _ => 0) 60000)
      (Senders.start (fun _ => 0) 60000 oneThread) [0] = some t ∧ t.wire = oneFrame := by
  have h : (Machine.run (Senders.step (fun _ => 0) 60000)
      (Senders.start (fun _ => 0) 60000 oneThread) [0]).map Senders.wire = some oneFrame := by
    decide +kernel
  obtain ⟨t, hrun, ht⟩ := Option.map_eq_some_iff.1 h
  exact ⟨t, hrun, ht⟩

/-- Buffers of exactly the size that was asked for. -/
def Allocator.exact : Allocator where
  alloc := fun n => ⟨fun _ => 0, 0, n⟩
  size_alloc := fun _ => rfl
  le_maxSize := fun _ => le_rfl

def streamOf (bytes : Bytes) : Stream' UInt8 := bytes ++ₛ Stream'.const 0

theorem take_streamOf (bytes : Bytes) : (streamOf bytes).take bytes.length = bytes := by
  exact (Stream'.take_append_of_le_length _ bytes _ le_rfl).trans List.take_length

def oneByOne (n : ℕ) : Reader.Call := ⟨List.replicate n (.ok 1), false⟩

theorem enough_oneByOne (n : ℕ) : (oneByOne n).Enough n :=
  ⟨fun _ hx => ⟨1, Nat.one_pos, List.eq_of_mem_replicate hx⟩, (List.length_replicate).ge, rfl⟩

end Examples

section Transports

variable {memory : ℕ → UInt8} {objectBufferSize : ℕ} {threads : ℕ → List OCommand} {t : Senders}
  {log : List (ℕ × OCommand)} {frames : List Bytes} {s : Reader}

def framesOf (memory : ℕ → UInt8) (objectBufferSize : ℕ) (log : List (ℕ × OCommand)) : List Bytes :=
  log.map (fun p => wireOf (p.2.ops memory objectBufferSize))

theorem whole_framesOf (h : ∀ p ∈ log, p.2.Framed memory objectBufferSize) :
    ∀ f ∈ framesOf memory objectBufferSize log, Whole f := by
  intro f hf
  obtain ⟨p, hp, rfl⟩ := List.mem_map.1 hf
  exact (whole_of_framed (h p hp)).1

theorem map_framesOf (h : ∀ p ∈ log, p.2.Framed memory objectBufferSize) :
    (framesOf memory objectBufferSize log).map ICommand.ofBuffer =
      log.map (fun p => p.2.received) := by
  rw [framesOf, List.map_map]
  exact List.map_congr_left (fun p hp => (whole_of_framed (h p hp)).2)

theorem OnWire.dispatched_prefix (hwired : OnWire memory objectBufferSize threads t log)
    (hfits : Fitting objectBufferSize threads) (h : Reader.Handled frames s)
    (hobtained : s.obtained <+: t.wire) :
    s.dispatched <+: log.map (fun p => p.2.received) := by
  have hframed := hwired.framed_of_fitting hfits
  rw [h.dispatched, ← map_framesOf hframed]
  exact (h.prefix_sent (whole_framesOf hframed) (hobtained.trans hwired.wire)).map _

theorem OnWire.dispatched_eq (hwired : OnWire memory objectBufferSize threads t log)
    (hfits : Fitting objectBufferSize threads) (h : Reader.Handled frames s)
    (hobtained : s.obtained = t.wire) (hfree : t.holder = none)
    (hopen : s.connection.state = .connected) :
    s.dispatched = t.log.map (fun p => p.2.received) := by
  obtain ⟨rfl, hwire⟩ := hwired.free hfree
  have hframed := hwired.framed_of_fitting hfits
  have hflat : (framesOf memory objectBufferSize t.log).flatten = frames.flatten := by
    rw [← (h.connected hopen).1, hobtained, hwire]
    rfl
  have hfront := h.prefix_sent (whole_framesOf hframed)
    (hobtained ▸ hwire ▸ List.prefix_refl _)
  have hback := prefixFree_whole.prefix_of_flatten (whole_framesOf hframed) h.whole
    (hflat ▸ List.prefix_refl _)
  rw [h.dispatched, hfront.eq_of_length (le_antisymm hfront.length_le hback.length_le),
    map_framesOf hframed]

/-- The steps of the receiver thread on one connection. -/
abbrev Reader.Runs (allocator : Allocator) (incoming : Stream' UInt8) (calls : List Reader.Call)
    (s : Reader) : Prop :=
  Machine.Steps (Reader.step allocator) (Reader.Regular allocator)
      (Reader.start allocator incoming) calls ∧
    Machine.run (Reader.step allocator) (Reader.start allocator incoming) calls = some s

/-- However the threads of the sender take turns and the transport splits the bytes, the receiver
dispatches an initial part of each thread's commands, in its order and with nothing else between,
and all of them when it has taken all bytes of an open connection. -/
theorem commands_dispatched (hfits : Fitting objectBufferSize threads) {schedule : List ℕ}
    (hsend : Machine.run (Senders.step memory objectBufferSize)
      (Senders.start memory objectBufferSize threads) schedule = some t)
    {allocator : Allocator} {incoming : Stream' UInt8} {calls : List Reader.Call}
    (hread : Reader.Runs allocator incoming calls s) (hobtained : s.obtained <+: t.wire) :
    (∃ log, InOrder threads log ∧ s.dispatched = log.map (fun p => p.2.received)) ∧
    (s.obtained = t.wire → t.holder = none → s.connection.state = .connected →
      s.dispatched = t.log.map (fun p => p.2.received)) := by
  obtain ⟨log, hwired⟩ := exists_onWire (orderly_run hfits hsend)
  obtain ⟨frames, hframes⟩ := Reader.handled_run hread.1 hread.2
  refine ⟨?_, fun hall hfree hopen => hwired.dispatched_eq hfits hframes hall hfree hopen⟩
  have hprefix := hwired.dispatched_prefix hfits hframes hobtained
  rw [List.prefix_iff_eq_take, ← List.map_take] at hprefix
  exact ⟨log.take s.dispatched.length, hwired.order.take _, hprefix⟩

theorem exists_runs {frames : List Bytes} (hwhole : ∀ f ∈ frames, Whole f) :
    ∃ s, Reader.Runs .exact (streamOf frames.flatten)
        (List.replicate frames.length (oneByOne frames.flatten.length)) s ∧
      s.connection.state = .connected ∧ s.dispatched = frames.map ICommand.ofBuffer ∧
      s.obtained = frames.flatten := by
  obtain ⟨hsteps, s, hrun, hopen, hdisp, hobtained⟩ := Reader.run_frames .exact
    (s := Reader.start .exact (streamOf frames.flatten)) hwhole ⟨_, rfl, rfl, rfl⟩ rfl
    (take_streamOf _) List.length_replicate
    (fun call hcall => List.eq_of_mem_replicate hcall ▸ enough_oneByOne _)
  exact ⟨s, ⟨hsteps, hrun⟩, hopen, hdisp, hobtained⟩

theorem commands_dispatched_two_threads :
    ∃ t s calls, Machine.run (Senders.step (fun _ => 0) 60000)
        (Senders.start (fun _ => 0) 60000 twoThreads) [1, 1, 1, 1, 1, 0] = some t ∧
      Reader.Runs .exact (streamOf t.wire) calls s ∧ s.obtained = t.wire ∧
      ∃ log, InOrder twoThreads log ∧ s.dispatched = log.map (fun p => p.2.received) := by
  obtain ⟨t, hrun, hfree, -⟩ := run_twoThreads
  obtain ⟨log, hwired⟩ := exists_onWire (orderly_run fitting_twoThreads hrun)
  obtain ⟨rfl, hwire⟩ := hwired.free hfree
  obtain ⟨s, hread, -, -, hobtained⟩ :=
    exists_runs (whole_framesOf (hwired.framed_of_fitting fitting_twoThreads))
  have hflat : (framesOf (fun _ => 0) 60000 t.log).flatten = t.wire := hwire.symm
  rw [hflat] at hread hobtained
  exact ⟨t, s, _, hrun, hread, hobtained,
    (commands_dispatched fitting_twoThreads hrun hread (hobtained ▸ List.prefix_refl _)).1⟩

/-- When all bytes of the completed commands have arrived, a call for each command dispatches them
all, if every read gives a byte at least. -/
theorem commands_all_dispatched (hfits : Fitting objectBufferSize threads) {schedule : List ℕ}
    (hsend : Machine.run (Senders.step memory objectBufferSize)
      (Senders.start memory objectBufferSize threads) schedule = some t)
    (hfree : t.holder = none) (allocator : Allocator) {incoming : Stream' UInt8}
    (hincoming : incoming.take t.wire.length = t.wire) {calls : List Reader.Call}
    (hlen : calls.length = t.log.length) (hcalls : ∀ call ∈ calls, call.Enough t.wire.length) :
    ∃ s, Reader.Runs allocator incoming calls s ∧
      s.dispatched = t.log.map (fun p => p.2.received) ∧ s.obtained = t.wire := by
  obtain ⟨log, hwired⟩ := exists_onWire (orderly_run hfits hsend)
  obtain ⟨rfl, hwire⟩ := hwired.free hfree
  have hframed := hwired.framed_of_fitting hfits
  have hflat : t.wire = (framesOf memory objectBufferSize t.log).flatten := hwire
  rw [hflat] at hincoming hcalls
  obtain ⟨hsteps, s, hrun, -, hdisp, hobtained⟩ := Reader.run_frames
    allocator (s := Reader.start allocator incoming)
    (whole_framesOf hframed) ⟨_, rfl, allocator.size_alloc _, rfl⟩ rfl hincoming
    (hlen.trans (List.length_map _).symm) hcalls
  refine ⟨s, ⟨hsteps, hrun⟩, ?_, ?_⟩
  · rw [hdisp, map_framesOf hframed]
    rfl
  · rw [hobtained, hflat]
    rfl

theorem commands_all_dispatched_two_threads :
    ∃ t s calls, Machine.run (Senders.step (fun _ => 0) 60000)
        (Senders.start (fun _ => 0) 60000 twoThreads) [1, 1, 1, 1, 1, 0] = some t ∧
      Reader.Runs .exact (streamOf t.wire) calls s ∧
      s.dispatched = [⟨17, 3, 4, [9]⟩, ⟨17, 1, 2, [7]⟩] := by
  obtain ⟨t, hrun, hfree, hlog⟩ := run_twoThreads
  obtain ⟨s, hread, hdisp, -⟩ := commands_all_dispatched fitting_twoThreads hrun hfree .exact
    (take_streamOf t.wire) (List.length_replicate (a := oneByOne t.wire.length))
    (fun call hcall => List.eq_of_mem_replicate hcall ▸ enough_oneByOne _)
  exact ⟨t, s, _, hrun, hread, by rw [hdisp, hlog]; rfl⟩

theorem rdma_obtained_front {size : Rdma.U32} (hpos : 0 < size.toNat) (hsize : size.toNat < 2 ^ 31)
    {depth : ℕ} (hdepth : depth < 2 ^ 31) {w w' : Rdma.World}
    (hstart : ∀ e, (w e).Established depth size) {events : List Rdma.Event}
    (hspare : Machine.Steps Rdma.World.step Rdma.World.Spare w events)
    (hworld : Machine.run Rdma.World.step w events = some w') (e : Rdma.End) :
    (w' e.peer).obtained <+: (w' e).accepted := by
  obtain ⟨p, hflow⟩ := (Rdma.World.linked_run hpos hsize hdepth hspare hworld
    (Rdma.World.stored_established hstart) (Rdma.World.linked_established hstart)).2 e
  exact (hflow.intact hpos hsize).stream

/-- In every run of two RDMA ends with rings of one size in which the reports find free message
buffers, what the node behind one end dispatches are commands of the threads of the other one,
each thread's in its order. -/
theorem rdma_commands_dispatched {size : Rdma.U32} (hpos : 0 < size.toNat)
    (hsize : size.toNat < 2 ^ 31) {depth : ℕ} (hdepth : depth < 2 ^ 31) {w w' : Rdma.World}
    (hstart : ∀ e, (w e).Established depth size) {events : List Rdma.Event}
    (hspare : Machine.Steps Rdma.World.step Rdma.World.Spare w events)
    (hworld : Machine.run Rdma.World.step w events = some w') (e : Rdma.End)
    (hfits : Fitting objectBufferSize threads) {schedule : List ℕ}
    (hsend : Machine.run (Senders.step memory objectBufferSize)
      (Senders.start memory objectBufferSize threads) schedule = some t)
    (hwritten : (w' e).accepted <+: t.wire)
    {allocator : Allocator} {incoming : Stream' UInt8} {calls : List Reader.Call}
    (hread : Reader.Runs allocator incoming calls s)
    (hobtained : s.obtained = (w' e.peer).obtained) :
    ∃ log, InOrder threads log ∧ s.dispatched = log.map (fun p => p.2.received) := by
  obtain ⟨log, hwired⟩ := exists_onWire (orderly_run hfits hsend)
  obtain ⟨frames, hframes⟩ := Reader.handled_run hread.1 hread.2
  have hprefix := hwired.dispatched_prefix hfits hframes
    (hobtained ▸ (rdma_obtained_front hpos hsize hdepth hstart hspare hworld e).trans hwritten)
  rw [List.prefix_iff_eq_take, ← List.map_take] at hprefix
  exact ⟨log.take s.dispatched.length, hwired.order.take _, hprefix⟩

/-- A command of 256 bytes in a ring of 300. -/
theorem rdma_commands_dispatched_one :
    ∃ t w' s calls, Machine.run (Senders.step (fun _ => 0) 60000)
        (Senders.start (fun _ => 0) 60000 oneThread) [0] = some t ∧
      Machine.run Rdma.World.step (fun _ => Rdma.Side.connect 8 300)
        [.write .initiator oneFrame, .deliver .initiator, .checkCQ .target 2,
          .readSync .target 256] = some w' ∧
      Reader.Runs .exact (streamOf oneFrame) calls s ∧ s.obtained = (w' .target).obtained ∧
      ∃ log, InOrder oneThread log ∧ s.dispatched = log.map (fun p => p.2.received) := by
  obtain ⟨t, hsend, hwire⟩ := run_oneThread
  have hworld : (Machine.run Rdma.World.step (fun _ => Rdma.Side.connect 8 300)
      [.write .initiator oneFrame, .deliver .initiator, .checkCQ .target 2,
        .readSync .target 256]).map
      (fun w => decide ((w .initiator).accepted = oneFrame ∧
        (w .target).obtained.length = oneFrame.length)) = some true := by
    decide +kernel
  obtain ⟨w', hworld, hw⟩ := Option.map_eq_some_iff.1 hworld
  obtain ⟨haccepted, hlen⟩ := of_decide_eq_true hw
  have hspare : Machine.Steps Rdma.World.step Rdma.World.Spare (fun _ => Rdma.Side.connect 8 300)
      [.write .initiator oneFrame, .deliver .initiator, .checkCQ .target 2,
        .readSync .target 256] := by
    decide +kernel
  have htarget : (w' .target).obtained = oneFrame := by
    have hprefix := rdma_obtained_front (by decide) (by decide) (by decide)
      (fun _ => Rdma.Side.established_connect (by decide) (by decide) 300) hspare hworld .initiator
    rw [haccepted] at hprefix
    exact hprefix.eq_of_length hlen
  obtain ⟨s, hread, -, -, hobtained⟩ := exists_runs whole_oneFrame
  rw [List.flatten_singleton] at hread hobtained
  exact ⟨t, w', s, _, hsend, hworld, hread, hobtained.trans htarget.symm,
    rdma_commands_dispatched (by decide) (by decide) (by decide)
      (fun _ => Rdma.Side.established_connect (by decide) (by decide) 300) hspare hworld .initiator
      fitting_oneThread hsend (by rw [haccepted, hwire]) hread (hobtained.trans htarget.symm)⟩

section Group

open Rsp

variable {cfg : Rsp.Config} {members : List U16} {order : U16 → List U16} {g : Group}

theorem obtained_front (ho : Orders members order) {log : U16 → List (List UInt8)}
    (h : InStep cfg members order log g) {r w : U16} (hr : r ∈ members) (hw : w ∈ members) :
    (g r).obtained w <+: (g w).written := by
  obtain ⟨child, hc⟩ := Option.isSome_iff_exists.1
    ((h.nodes r hr).findConnection_isSome.2 ((InStep.mem_order ho hr).2 hw))
  refine ((h.nodes r hr).readers w child hc).prefix_flatten.trans ?_
  rw [← (h.nodes w hw).writer.content, List.append_assoc]
  exact List.prefix_append _ _

/-- In every run of a fixed multicast group whose writers do not give up, with data lost, duplicated
and reordered and acks in order: there is one sequence of commands, each thread's of the writing
member in its order, of which every member of the group dispatches the first ones. -/
theorem group_commands_dispatched (ho : Orders members order) (hnb : cfg.numBuffers < 32767)
    {es : List GroupEvent}
    (hok : Machine.Steps (Group.step cfg members)
      (fun g e => Group.Patient g e ∧ Group.FreshData g e ∧ Group.AcksInOrder g e)
      (Group.start cfg order) es)
    (hgroup : Machine.run (Group.step cfg members) (Group.start cfg order) es = some g)
    {w : U16} (hw : w ∈ members) (hfits : Fitting objectBufferSize threads) {schedule : List ℕ}
    (hsend : Machine.run (Senders.step memory objectBufferSize)
      (Senders.start memory objectBufferSize threads) schedule = some t)
    (hwritten : (g w).written <+: t.wire) :
    ∃ log, InOrder threads log ∧ ∀ r ∈ members, ∀ allocator incoming calls s,
      Reader.Runs allocator incoming calls s → s.obtained = (g r).obtained w →
        s.dispatched <+: log.map (fun p => p.2.received) := by
  obtain ⟨⟨packets, h⟩, -⟩ := Machine.run_invariant
    (fun g => (∃ log, InStep cfg members order log g) ∧ FollowsAcks members g)
    (fun g e g' ⟨⟨log, hi⟩, hfol⟩ ⟨hp, hf, hord⟩ hs =>
      ⟨hi.step ho hnb hp hf (hi.staleAcksLookLate hfol hord hs) hs, hi.followsAcks hfol hord hs⟩)
    ⟨⟨_, inStep_start ho⟩, followsAcks_start⟩ hok hgroup
  obtain ⟨log, hwired⟩ := exists_onWire (orderly_run hfits hsend)
  refine ⟨log, hwired.order, fun r hr allocator incoming calls s hread hobtained => ?_⟩
  obtain ⟨frames, hframes⟩ := Reader.handled_run hread.1 hread.2
  exact hwired.dispatched_prefix hfits hframes
    (hobtained ▸ (obtained_front ho h hr hw).trans hwritten)

/-- Member 1 writes a command of 256 bytes, member 2 receives it. -/
theorem group_commands_dispatched_one :
    ∃ t g s calls log, Machine.run (Senders.step (fun _ => 0) 60000)
        (Senders.start (fun _ => 0) 60000 oneThread) [0] = some t ∧
      Machine.run (Group.step (Config.tiny 4) [1, 2])
        (Group.start (Config.tiny 4) (fun _ => [1, 2]))
        [.app 1 (.write oneFrame), .app 1 .writePop, .app 1 .writePush, .app 1 (.outgoing false),
          .deliver 1 0 2, .app 2 (.read 1 256)] = some g ∧
      Reader.Runs .exact (streamOf oneFrame) calls s ∧ s.obtained = (g 2).obtained 1 ∧
      InOrder oneThread log ∧ s.dispatched <+: log.map (fun p => p.2.received) := by
  obtain ⟨t, hsend, hwire⟩ := run_oneThread
  have hgroup : (Machine.run (Group.step (Config.tiny 4) [1, 2])
      (Group.start (Config.tiny 4) (fun _ => [1, 2]))
      [.app 1 (.write oneFrame), .app 1 .writePop, .app 1 .writePush, .app 1 (.outgoing false),
        .deliver 1 0 2, .app 2 (.read 1 256)]).map
      (fun g => decide ((g 1).written = oneFrame ∧ (g 2).obtained 1 = oneFrame)) = some true := by
    decide +kernel
  obtain ⟨g, hgroup, hg⟩ := Option.map_eq_some_iff.1 hgroup
  obtain ⟨hwritten, hread2⟩ := of_decide_eq_true hg
  obtain ⟨s, hread, -, -, hobtained⟩ := exists_runs whole_oneFrame
  rw [List.flatten_singleton] at hread hobtained
  obtain ⟨log, horder, hall⟩ := group_commands_dispatched ⟨by decide, fun _ _ => List.Perm.refl _⟩
    (by decide) (by decide +kernel) hgroup (w := 1) (by decide) fitting_oneThread hsend
    (by rw [hwritten, hwire])
  exact ⟨t, g, s, _, log, hsend, hgroup, hread, hobtained.trans hread2.symm, horder,
    hall 2 (by decide) _ _ _ s hread (hobtained.trans hread2.symm)⟩

end Group

end Transports

end Collage.Transfer
