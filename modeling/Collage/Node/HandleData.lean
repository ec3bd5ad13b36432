import Collage.Lib.PrefixFree
import Collage.Node.Receive
import Collage.Stream.Senders

/-!
# Handling data

`_handleData` of a local node with `_readHead` and `_readTail`, over a connection whose transport
gives the bytes in any portions. A call that breaks off inside a command loses the bytes it has
taken; the transport closes the connection then, since it has failed.
-/

namespace Collage.Transfer

open Collage.Stream (Bytes ICommand commandMinSize)

def commandAllocSize : ℕ := 4096

/-- The buffer caches. A buffer that is handed out has no content and the size that was asked for
at least. -/
structure Allocator where
  alloc : ℕ → Buffer
  size_alloc : ∀ n, (alloc n).size = 0
  le_maxSize : ∀ n, n ≤ (alloc n).maxSize

/-- `replace` with the content of another buffer. -/
def Buffer.replace (b from_ : Buffer) : Buffer :=
  { b with
    memory := fun i => if i < from_.size then from_.memory i else b.memory i
    size := from_.size
    maxSize := max b.maxSize from_.size }

@[simp] theorem Buffer.data_replace (b from_ : Buffer) : (b.replace from_).data = from_.data :=
  List.map_congr_left (fun _ hi => if_pos (List.mem_range.1 hi))

/-- The receiver thread with one of its connections. The bytes taken off the connection are kept
for the specification only. -/
structure Reader where
  connection : Connection
  incoming : Stream' UInt8
  /-- The connection set was told that it is dirty. -/
  dirty : Bool
  dispatched : List ICommand
  obtained : Bytes

/-- The number of bytes that a receive of `n` bytes has taken, given the results it has left. -/
def gotten (n : ℕ) (results rest : List (Except Exception ℤ)) : ℕ :=
  min n (taken (results.take (results.length - rest.length)))

namespace Reader

/-- What a function returns, the results it has left and the state then. -/
abbrev Outcome (α : Type) : Type := Except Exception α × List (Except Exception ℤ) × Reader

section

variable (allocator : Allocator) (s : Reader) (results : List (Except Exception ℤ))

/-- `recvSync`. -/
def recv : Option (Outcome (Bool × Option Buffer)) :=
  (s.connection.recvSync results s.incoming).map (fun r =>
    (r.returned.map (fun returned => (returned, r.outBuffer)), r.results,
      { s with
        connection := r.connection
        incoming := r.incoming
        obtained := s.obtained ++
          s.incoming.take (gotten s.connection.bytes results r.results) }))

def recvNB (buffer : Buffer) (bytes : ℕ) : Reader :=
  { s with connection := s.connection.recvNB buffer bytes }

def readHead : Option (Outcome (Option Buffer)) :=
  (s.recv results).map (fun
    | (.error e, rest, s) => (.error e, rest, s)
    | (.ok (_, none), rest, s) => (.ok none, rest, { s with dirty := true })
    | (.ok (true, some buffer), rest, s) => (.ok (some buffer), rest, s)
    | (.ok (false, some buffer), rest, s) =>
        (.ok none, rest, s.recvNB { buffer with size := 0 } commandMinSize))

/-- The buffer that the rest of a command is received into. -/
def tailBuffer (buffer : Buffer) (needed : ℕ) : Buffer :=
  if buffer.maxSize < needed then (allocator.alloc needed).replace buffer else buffer

/-- `_readTail`, with the content of the command's buffer then. -/
def readTail (buffer : Buffer) : Option (Outcome (Bool × Bytes)) :=
  let needed := (ICommand.ofBuffer buffer.data).size
  if needed ≤ buffer.size then some (.ok (true, buffer.data), results, s)
  else
    let buffer := tailBuffer allocator buffer needed
    ((s.recvNB buffer (needed - buffer.size)).recv results).map (fun
      | (.error e, rest, s) => (.error e, rest, s)
      | (.ok (got, outBuffer), rest, s) =>
          (.ok (got, ((outBuffer.or s.connection.buffer).getD buffer).data), rest, s))

/-- `_handleData`. The next receive is started before the command is dispatched. -/
def handleData : Option (Except Exception Bool × Reader) :=
  (s.readHead results).bind (fun
    | (.error e, _, s) => some (.error e, s)
    | (.ok none, _, s) => some (.ok false, s)
    | (.ok (some buffer), rest, s) => (s.readTail allocator rest buffer).map (fun
        | (.error e, _, s) => (.error e, s)
        | (.ok (gotCommand, content), _, s) =>
            let s := s.recvNB (allocator.alloc commandAllocSize) commandMinSize
            if gotCommand then
              (.ok true, { s with dispatched := s.dispatched ++ [ICommand.ofBuffer content] })
            else (.ok false, s)))

end

/-- A call, and whether the transport has closed the connection meanwhile. -/
structure Call where
  results : List (Except Exception ℤ)
  closes : Bool

def close (s : Reader) : Reader := { s with connection := { s.connection with state := .closed } }

def step (allocator : Allocator) (s : Reader) (call : Call) : Option Reader :=
  (s.handleData allocator call.results).map (fun r => if call.closes then r.2.close else r.2)

/-- A receive of the head of a command is pending. -/
def Armed (s : Reader) : Prop :=
  ∃ b, s.connection.buffer = some b ∧ b.size = 0 ∧ s.connection.bytes = commandMinSize

/-- What a call or a part of it takes off the connection. -/
structure Took (s s' : Reader) (m : ℕ) : Prop where
  obtained : s'.obtained = s.obtained ++ s.incoming.take m
  incoming : s'.incoming = s.incoming.drop m
  state : s'.connection.state = s.connection.state

variable {allocator : Allocator} {s s' t : Reader} {results rest : List (Except Exception ℤ)}

theorem Took.refl (s : Reader) : s.Took s 0 := ⟨by simp, by simp, rfl⟩

theorem Took.trans {m n : ℕ} (h : s.Took s' m) (h' : s'.Took t n) : s.Took t (m + n) where
  obtained := by
    rw [h'.obtained, h.obtained, h.incoming, take_add, List.append_assoc]
  incoming := by
    rw [h'.incoming, h.incoming, Stream'.drop_drop]
  state := h'.state.trans h.state

theorem recv_cases {b : Buffer} {x : Except Exception (Bool × Option Buffer)}
    (hb : s.connection.buffer = some b) (hn : 0 < s.connection.bytes)
    (h : s.recv results = some (x, rest, s')) :
    (results.head? = some (.ok readTimeout) ∧ x = .ok (true, none) ∧ s' = s) ∨
      ∃ used returned out, results = used ++ rest ∧
        x = returned.map (fun returned => (returned, some out)) ∧
        Connection.Ends s.connection.bytes b.data s.incoming used returned out.data ∧
        s'.connection = s.connection.resetRecvData ∧ s'.dispatched = s.dispatched ∧
        s.Took s' (min s.connection.bytes (taken used)) := by
  obtain ⟨r, hr, hx⟩ := Option.map_eq_some_iff.1 h
  simp only [Prod.mk.injEq] at hx
  obtain ⟨rfl, rfl, rfl⟩ := hx
  rcases Connection.recvSync_cases hb hn hr with ⟨-, rest, rfl, rfl⟩ | ⟨-, hover⟩
  · left
    have hzero : gotten s.connection.bytes (.ok readTimeout :: rest) rest = 0 := by
      simp [gotten, taken, given, readTimeout]
    refine ⟨rfl, rfl, ?_⟩
    simp only [hzero, Stream'.take_zero, List.append_nil]
  · right
    obtain ⟨used, out, hresults, hout, hends, hincoming, -⟩ := hover.ended
    have hgotten : gotten s.connection.bytes results r.results =
        min s.connection.bytes (taken used) := by
      rw [gotten, hresults, List.length_append, Nat.add_sub_cancel, List.take_left]
    refine ⟨used, r.returned, out, hresults, ?_, hends, hover.connection, rfl, ?_⟩
    · rw [hout]
    · refine ⟨?_, hincoming, ?_⟩
      · simp only [hgotten]
      · rw [hover.connection]
        rfl

end Reader

namespace Connection

theorem Ends.done_of_true {n : ℕ} {content data : Bytes} {incoming : Stream' UInt8}
    {used : List (Except Exception ℤ)} (h : Ends n content incoming used (.ok true) data) :
    n ≤ taken used ∧ data = content ++ incoming.take n := by
  cases h with
  | done hused _ => exact ⟨hused, rfl⟩

end Connection

namespace Reader

variable {allocator : Allocator} {s s' t : Reader} {results rest : List (Except Exception ℤ)}

structure Failed (s s' : Reader) : Prop where
  dispatched : s'.dispatched = s.dispatched
  took : ∃ m, s.Took s' m
  receive : s'.Armed ∨ s'.connection.buffer = none

theorem armed_recvNB (s : Reader) {b : Buffer} (hb : b.size = 0) :
    (s.recvNB b commandMinSize).Armed :=
  ⟨_, rfl, hb, rfl⟩

theorem Took.recvNB {m : ℕ} (h : s.Took s' m) (b : Buffer) (n : ℕ) : s.Took (s'.recvNB b n) m :=
  ⟨h.obtained, h.incoming, h.state⟩

theorem data_of_size_zero {b : Buffer} (h : b.size = 0) : b.data = [] := by
  rw [Buffer.data, h]
  rfl

theorem readHead_cases {x : Except Exception (Option Buffer)} (ha : s.Armed)
    (h : s.readHead results = some (x, rest, s')) :
    ((∀ b, x ≠ .ok (some b)) ∧ s.Failed s') ∨
      ∃ used b, results = used ++ rest ∧ used ≠ [] ∧ x = .ok (some b) ∧
        b.data = s.incoming.take commandMinSize ∧ s'.dispatched = s.dispatched ∧
        s.Took s' commandMinSize := by
  obtain ⟨b, hb, hsize, hbytes⟩ := ha
  obtain ⟨⟨y, rest', t⟩, hrecv, hx⟩ := Option.map_eq_some_iff.1 h
  have hpos : 0 < s.connection.bytes := by
    rw [hbytes]
    decide
  rcases recv_cases hb hpos hrecv with ⟨-, rfl, rfl⟩ |
    ⟨used, returned, out, hresults, rfl, hends, hconn, hdisp, htook⟩
  · left
    simp only [Prod.mk.injEq] at hx
    obtain ⟨rfl, rfl, rfl⟩ := hx
    exact ⟨by simp, rfl, ⟨0, (Took.refl t).obtained, (Took.refl t).incoming, rfl⟩,
      Or.inl ⟨b, hb, hsize, hbytes⟩⟩
  · cases returned with
    | error e =>
        left
        simp only [Except.map, Prod.mk.injEq] at hx
        obtain ⟨rfl, rfl, rfl⟩ := hx
        exact ⟨by simp, hdisp, ⟨_, htook⟩, Or.inr (by rw [hconn]; rfl)⟩
    | ok returned =>
        cases returned with
        | false =>
            left
            simp only [Except.map, Prod.mk.injEq] at hx
            obtain ⟨rfl, rfl, rfl⟩ := hx
            exact ⟨by simp, hdisp, ⟨_, htook.recvNB _ _⟩, Or.inl (armed_recvNB t rfl)⟩
        | true =>
            right
            simp only [Except.map, Prod.mk.injEq] at hx
            obtain ⟨rfl, rfl, rfl⟩ := hx
            obtain ⟨htaken, hdata⟩ := hends.done_of_true
            rw [data_of_size_zero hsize, List.nil_append, hbytes] at hdata
            rw [hbytes] at htaken htook
            rw [min_eq_left htaken] at htook
            refine ⟨used, out, hresults, ?_, rfl, hdata, hdisp, htook⟩
            rintro rfl
            exact absurd htaken (by decide)

theorem readTail_cases {x : Except Exception (Bool × Bytes)} {b : Buffer}
    (hfirst : rest.head? ≠ some (.ok readTimeout)) {rest' : List (Except Exception ℤ)}
    (h : s.readTail allocator rest b = some (x, rest', s')) :
    s'.dispatched = s.dispatched ∧
      ((∃ e, x = .error e) ∧ s'.connection.buffer = none ∧ (∃ m, s.Took s' m) ∨
        (∃ content, x = .ok (false, content)) ∧ (∃ m, s.Took s' m) ∨
        x = .ok (true, b.data ++ s.incoming.take ((ICommand.ofBuffer b.data).size - b.size)) ∧
          s.Took s' ((ICommand.ofBuffer b.data).size - b.size)) := by
  unfold readTail at h
  simp only at h
  split_ifs at h with hsmall
  · simp only [Option.some.injEq, Prod.mk.injEq] at h
    obtain ⟨rfl, rfl, rfl⟩ := h
    rw [Nat.sub_eq_zero_of_le hsmall]
    exact ⟨rfl, Or.inr (Or.inr ⟨by simp, Took.refl s⟩)⟩
  · have htail : (tailBuffer allocator b (ICommand.ofBuffer b.data).size).data = b.data ∧
        (tailBuffer allocator b (ICommand.ofBuffer b.data).size).size = b.size := by
      unfold tailBuffer
      split_ifs
      · exact ⟨Buffer.data_replace _ _, rfl⟩
      · exact ⟨rfl, rfl⟩
    obtain ⟨⟨y, rest'', t⟩, hrecv, hx⟩ := Option.map_eq_some_iff.1 h
    rw [htail.2] at hrecv
    have hpos : 0 < (s.recvNB (tailBuffer allocator b (ICommand.ofBuffer b.data).size)
        ((ICommand.ofBuffer b.data).size - b.size)).connection.bytes := by
      change 0 < (ICommand.ofBuffer b.data).size - b.size
      omega
    rcases recv_cases rfl hpos hrecv with ⟨htimeout, -⟩ |
      ⟨used, returned, out, -, rfl, hends, hconn, hdisp, htook⟩
    · exact absurd htimeout hfirst
    · cases returned with
      | error e =>
          simp only [Except.map, Prod.mk.injEq] at hx
          obtain ⟨rfl, rfl, rfl⟩ := hx
          exact ⟨hdisp, Or.inl ⟨⟨e, rfl⟩, by rw [hconn]; rfl, _, htook.obtained,
            htook.incoming, htook.state⟩⟩
      | ok returned =>
          cases returned with
          | false =>
              simp only [Except.map, Prod.mk.injEq] at hx
              obtain ⟨rfl, rfl, rfl⟩ := hx
              exact ⟨hdisp, Or.inr (Or.inl ⟨⟨_, rfl⟩, _, htook.obtained, htook.incoming,
                htook.state⟩)⟩
          | true =>
              simp only [Except.map, Prod.mk.injEq] at hx
              obtain ⟨rfl, rfl, rfl⟩ := hx
              obtain ⟨htaken, hdata⟩ := hends.done_of_true
              rw [min_eq_left htaken] at htook
              refine ⟨hdisp, Or.inr (Or.inr ⟨?_, htook.obtained, htook.incoming, htook.state⟩)⟩
              have hreserve : ∀ n, ((tailBuffer allocator b (ICommand.ofBuffer b.data).size).reserve
                  n).data = b.data := fun _ => htail.1
              rw [Option.some_or, Option.getD_some, hdata, hreserve]
              rfl

theorem length_data (b : Buffer) : b.data.length = b.size := by
  rw [Buffer.data, List.length_map, List.length_range]

/-- The length of the command that comes next, as its first bytes tell. -/
def frameSize (incoming : Stream' UInt8) : ℕ :=
  max (ofLE ((incoming.take commandMinSize).take 8)) commandMinSize

theorem handleData_cases {x : Except Exception Bool} (ha : s.Armed)
    (htimeouts : .ok readTimeout ∉ results.tail)
    (h : s.handleData allocator results = some (x, s')) :
    x ≠ .ok true ∧ s.Failed s' ∨ x = .ok true ∧ s'.Armed ∧ s.Took s' (frameSize s.incoming) ∧
      s'.dispatched =
        s.dispatched ++ [ICommand.ofBuffer (s.incoming.take (frameSize s.incoming))] := by
  obtain ⟨⟨y, rest, t⟩, hhead, hx⟩ := Option.bind_eq_some_iff.1 h
  rcases readHead_cases ha hhead with ⟨hnone, hfailed⟩ |
    ⟨used, b, rfl, hused, rfl, hdata, hdisp, htook⟩
  · left
    match y, hnone with
    | .error e, _ =>
        simp only [Option.some.injEq, Prod.mk.injEq] at hx
        exact ⟨by simp [← hx.1], hx.2 ▸ hfailed⟩
    | .ok none, _ =>
        simp only [Option.some.injEq, Prod.mk.injEq] at hx
        exact ⟨by simp [← hx.1], hx.2 ▸ hfailed⟩
    | .ok (some b), hnone => exact absurd rfl (hnone b)
  · obtain ⟨⟨z, rest', u⟩, htail, hx⟩ := Option.map_eq_some_iff.1 hx
    have hfirst : rest.head? ≠ some (.ok readTimeout) := by
      intro hhead
      refine htimeouts ?_
      rw [List.tail_append_of_ne_nil hused]
      exact List.mem_append_right _ (List.mem_of_head? hhead)
    have hlen : b.size = commandMinSize := by
      rw [← length_data, hdata, Stream'.length_take]
    have hsplit : commandMinSize + ((ICommand.ofBuffer b.data).size - b.size) =
        frameSize s.incoming := by
      have hsize : (ICommand.ofBuffer b.data).size =
          ofLE ((s.incoming.take commandMinSize).take 8) := by
        rw [hdata]
        rfl
      rw [frameSize, hlen, hsize]
      omega
    obtain ⟨hdisp', hcases⟩ := readTail_cases hfirst htail
    rcases hcases with ⟨⟨e, rfl⟩, hbuffer, m, hm⟩ | ⟨⟨content, rfl⟩, m, hm⟩ | ⟨rfl, hm⟩
    · left
      simp only [Prod.mk.injEq] at hx
      obtain ⟨rfl, rfl⟩ := hx
      exact ⟨by simp, hdisp'.trans hdisp, ⟨_, htook.trans hm⟩, Or.inr hbuffer⟩
    · left
      simp only [Bool.false_eq_true, if_false, Prod.mk.injEq] at hx
      obtain ⟨rfl, rfl⟩ := hx
      exact ⟨by simp, hdisp'.trans hdisp, ⟨_, (htook.trans hm).recvNB _ _⟩,
        Or.inl (armed_recvNB u (allocator.size_alloc _))⟩
    · right
      have hall := htook.trans hm
      rw [hsplit] at hall
      rw [htook.incoming, hdata, ← take_add, ← hdata, hsplit] at hx
      simp only [if_true, Prod.mk.injEq] at hx
      obtain ⟨rfl, rfl⟩ := hx
      refine ⟨rfl, armed_recvNB u (allocator.size_alloc _),
        ⟨hall.obtained, hall.incoming, hall.state⟩, ?_⟩
      rw [← hdisp, ← hdisp']
      rfl

/-- Without a pending receive, and on a connection that is not connected, nothing is received. -/
theorem handleData_idle {x : Except Exception Bool}
    (hidle : s.connection.state ≠ .connected ∨ s.connection.buffer = none)
    (h : s.handleData allocator results = some (x, s')) :
    s'.dispatched = s.dispatched ∧ s'.obtained = s.obtained ∧
      s'.connection.state = s.connection.state ∧
      (s.connection.buffer = none → s'.connection.buffer = none) := by
  obtain ⟨⟨y, rest, t⟩, hhead, hx⟩ := Option.bind_eq_some_iff.1 h
  obtain ⟨⟨z, rest', u⟩, hrecv, hy⟩ := Option.map_eq_some_iff.1 hhead
  obtain ⟨r, hr, hz⟩ := Option.map_eq_some_iff.1 hrecv
  have hgotten : gotten s.connection.bytes results results = 0 := by
    simp [gotten, taken]
  rw [Connection.recvSync] at hr
  cases hb : s.connection.buffer with
  | none =>
      simp only [hb, Option.some.injEq] at hr
      subst hr
      simp only [Except.map, hgotten, Stream'.take_zero, List.append_nil, Prod.mk.injEq] at hz
      obtain ⟨rfl, rfl, rfl⟩ := hz
      simp only [Prod.mk.injEq] at hy
      obtain ⟨rfl, rfl, rfl⟩ := hy
      simp only [Option.some.injEq, Prod.mk.injEq] at hx
      obtain ⟨rfl, rfl⟩ := hx
      exact ⟨rfl, rfl, rfl, fun _ => rfl⟩
  | some b =>
      have hstate : s.connection.state ≠ .connected := hidle.resolve_right (by simp [hb])
      simp only [hb, hstate, ne_eq, not_false_eq_true, true_or, if_true, Option.some.injEq] at hr
      subst hr
      simp only [Except.map, hgotten, Stream'.take_zero, List.append_nil, Prod.mk.injEq] at hz
      obtain ⟨rfl, rfl, rfl⟩ := hz
      simp only [Prod.mk.injEq] at hy
      obtain ⟨rfl, rfl, rfl⟩ := hy
      simp only [Option.some.injEq, Prod.mk.injEq] at hx
      obtain ⟨rfl, rfl⟩ := hx
      exact ⟨rfl, rfl, rfl, fun hnone => absurd hnone (Option.some_ne_none b)⟩

end Reader

/-- The bytes of a command with all that was sent for it: at least the minimal size, and as many as
its size field tells otherwise. -/
def Whole (frame : Bytes) : Prop := frame.length = max (ofLE (frame.take 8)) commandMinSize

instance (frame : Bytes) : Decidable (Whole frame) := inferInstanceAs (Decidable (_ = _))

theorem commandMinSize_le_length {frame : Bytes} (h : Whole frame) :
    commandMinSize ≤ frame.length := by
  rw [h]
  exact le_max_right _ _

theorem prefixFree_whole : PrefixFree Whole where
  ne_nil := by decide
  eq_of_prefix := by
    intro x y hx hy hxy
    have hmin := commandMinSize_le_length hx
    obtain ⟨more, rfl⟩ := hxy
    have hfield : (x ++ more).take 8 = x.take 8 :=
      List.take_append_of_le_length (le_trans (by decide) hmin)
    have hlen : (x ++ more).length = x.length := by
      rw [hx, hy, hfield]
    rw [List.length_append, Nat.add_eq_left, List.length_eq_zero_iff] at hlen
    rw [hlen, List.append_nil]

theorem whole_take_frameSize (incoming : Stream' UInt8) :
    Whole (incoming.take (Reader.frameSize incoming)) := by
  have hmin : commandMinSize ≤ Reader.frameSize incoming := le_max_right _ _
  obtain ⟨k, hk⟩ := Nat.exists_eq_add_of_le hmin
  have hfield : (incoming.take (Reader.frameSize incoming)).take 8 =
      (incoming.take commandMinSize).take 8 := by
    rw [hk, take_add, List.take_append_of_le_length]
    rw [Stream'.length_take]
    decide
  rw [Whole, hfield, Stream'.length_take]
  rfl

namespace Reader

variable {allocator : Allocator} {s s' t : Reader} {calls : List Call}

/-- The connection has been added: its first receive is started. -/
def start (allocator : Allocator) (incoming : Stream' UInt8) : Reader where
  connection := (Connection.mk .connected none 0).recvNB (allocator.alloc commandAllocSize)
    commandMinSize
  incoming := incoming
  dirty := false
  dispatched := []
  obtained := []

/-- Only the first read of a call may time out, since the others block, and a call that takes bytes
without getting a command leaves the connection closed. -/
structure Regular (allocator : Allocator) (s : Reader) (call : Call) : Prop where
  timeouts : .ok readTimeout ∉ call.results.tail
  closes : ∀ x s', s.handleData allocator call.results = some (x, s') →
    s'.obtained ≠ s.obtained → s'.dispatched = s.dispatched → call.closes = true

/-- The dispatched commands are those of the frames that were taken; on an open connection nothing
else was. -/
structure Handled (frames : List Bytes) (s : Reader) : Prop where
  whole : ∀ f ∈ frames, Whole f
  dispatched : s.dispatched = frames.map ICommand.ofBuffer
  taken : frames.flatten <+: s.obtained
  connected : s.connection.state = .connected →
    s.obtained = frames.flatten ∧ (s.Armed ∨ s.connection.buffer = none)

theorem handled_start (allocator : Allocator) (incoming : Stream' UInt8) :
    Handled [] (start allocator incoming) where
  whole := fun _ h => nomatch h
  dispatched := rfl
  taken := List.nil_prefix
  connected := fun _ => ⟨rfl, Or.inl ⟨_, rfl, allocator.size_alloc _, rfl⟩⟩

theorem Handled.close {frames : List Bytes} (h : Handled frames s) : Handled frames s.close :=
  ⟨h.whole, h.dispatched, h.taken, fun hstate => nomatch hstate⟩

theorem Handled.of_not_connected {frames : List Bytes} (h : Handled frames s)
    {x : Except Exception Bool} {results : List (Except Exception ℤ)}
    (hidle : s.connection.state ≠ .connected ∨ s.connection.buffer = none)
    (hs : s.handleData allocator results = some (x, s')) : Handled frames s' := by
  obtain ⟨hdisp, hobtained, hstate, hnone⟩ := handleData_idle hidle hs
  refine ⟨h.whole, hdisp.trans h.dispatched, hobtained ▸ h.taken, fun hconn => ?_⟩
  rw [hstate] at hconn
  exact ⟨hobtained.trans (h.connected hconn).1,
    Or.inr (hnone (hidle.resolve_left (not_not.2 hconn)))⟩

theorem Handled.step {frames : List Bytes} (h : Handled frames s) {call : Call}
    (hok : s.Regular allocator call) (hs : s.step allocator call = some s') :
    ∃ frames', Handled frames' s' := by
  obtain ⟨⟨x, t⟩, hdata, rfl⟩ := Option.map_eq_some_iff.1 hs
  by_cases hidle : s.connection.state ≠ .connected ∨ s.connection.buffer = none
  · have ht := h.of_not_connected hidle hdata
    refine ⟨frames, ?_⟩
    split_ifs
    · exact ht.close
    · exact ht
  rw [not_or, not_not] at hidle
  obtain ⟨hobtained, harmed⟩ := h.connected hidle.1
  rcases handleData_cases (harmed.resolve_right hidle.2) hok.timeouts hdata with
    ⟨-, hfailed⟩ | ⟨-, harmed', htook, hdisp⟩
  · obtain ⟨m, htook⟩ := hfailed.took
    have hmore : frames.flatten <+: t.obtained := by
      rw [htook.obtained]
      exact h.taken.trans (List.prefix_append _ _)
    refine ⟨frames, h.whole, ?_, ?_, ?_⟩
    · split_ifs <;> exact hfailed.dispatched.trans h.dispatched
    · split_ifs <;> exact hmore
    · split_ifs with hcloses
      · exact fun hstate => nomatch hstate
      · refine fun _ => ⟨?_, hfailed.receive⟩
        by_contra hne
        exact hcloses (hok.closes x t hdata (fun heq => hne (heq.trans hobtained))
          hfailed.dispatched)
  · have ht : Handled (frames ++ [s.incoming.take (frameSize s.incoming)]) t := by
      have hall : t.obtained = (frames ++ [s.incoming.take (frameSize s.incoming)]).flatten := by
        rw [htook.obtained, hobtained, List.flatten_append, List.flatten_singleton]
      refine ⟨?_, ?_, hall ▸ List.prefix_refl _, fun _ => ⟨hall, Or.inl harmed'⟩⟩
      · intro f hf
        rcases List.mem_append.1 hf with hf | hf
        · exact h.whole f hf
        · rw [List.mem_singleton.1 hf]
          exact whole_take_frameSize s.incoming
      · rw [hdisp, h.dispatched, List.map_append, List.map_singleton]
    refine ⟨frames ++ [s.incoming.take (frameSize s.incoming)], ?_⟩
    split_ifs
    · exact ht.close
    · exact ht

theorem handled_run {incoming : Stream' UInt8}
    (hok : Machine.Steps (step allocator) (Regular allocator) (start allocator incoming) calls)
    (hrun : Machine.run (step allocator) (start allocator incoming) calls = some s) :
    ∃ frames, Handled frames s :=
  Machine.run_invariant (fun s => ∃ frames, Handled frames s)
    (fun _ _ _ ⟨_, h⟩ hok hs => h.step hok hs) ⟨[], handled_start allocator incoming⟩ hok hrun

/-- As long as what was taken is the front of frames that were sent, the frames that were taken are
the first of these. -/
theorem Handled.prefix_sent {frames sent : List Bytes} (h : Handled frames s)
    (hsent : ∀ f ∈ sent, Whole f) (hobtained : s.obtained <+: sent.flatten) : frames <+: sent :=
  prefixFree_whole.prefix_of_flatten h.whole hsent (h.taken.trans hobtained)

end Reader

section Positive

variable {c : Connection} {n : ℕ} {results : List (Except Exception ℤ)}

def Positive (results : List (Except Exception ℤ)) : Prop :=
  ∀ x ∈ results, ∃ k : ℕ, 0 < k ∧ x = .ok (k : ℤ)

/-- At a byte for each result at least, enough results complete the receive. -/
theorem Connection.recvLoop_of_positive (hpos : Positive results) (ptr left : ℕ) (got : ℤ)
    (hgot : 0 < got) (hle : got ≤ left) (henough : left - got ≤ results.length) (b : Buffer)
    (incoming : Stream' UInt8) :
    ∃ r, c.recvLoop n results ptr left got b incoming = some r ∧ r.returned = .ok true ∧
      r.results <:+ results ∧ (results.length : ℤ) ≤ r.results.length + (left - got) := by
  induction results generalizing ptr left got b incoming with
  | nil =>
      rw [recvLoop.eq_def, if_neg (by omega), if_neg (by omega), if_neg (by simp at henough; omega)]
      exact ⟨_, rfl, rfl, List.suffix_refl _, by simpa using hle⟩
  | cons x rest ih =>
      rw [recvLoop.eq_def, if_neg (by omega), if_neg (by omega)]
      split_ifs with hpartial
      · obtain ⟨k, hk, rfl⟩ := hpos x List.mem_cons_self
        rw [List.length_cons, Nat.cast_succ] at henough
        obtain ⟨r, hr, hreturned, hsuffix, hlen⟩ := ih
          (fun y hy => hpos y (List.mem_cons_of_mem _ hy)) (ptr + got.toNat)
          (left - got.toNat) (min (k : ℤ) ((left - got.toNat : ℕ) : ℤ)) (by omega)
          (min_le_right _ _) (by omega)
          (b.store (ptr + got.toNat) (incoming.take (min (k : ℤ) (left - got.toNat : ℕ)).toNat))
          (incoming.drop (min (k : ℤ) (left - got.toNat : ℕ)).toNat)
        refine ⟨r, hr, hreturned, hsuffix.trans (List.suffix_cons _ _), ?_⟩
        rw [List.length_cons, Nat.cast_succ]
        omega
      · refine ⟨_, rfl, rfl, List.suffix_refl _, ?_⟩
        simp only [List.length_cons, Nat.cast_succ]
        omega

theorem Reader.recv_of_positive {s : Reader} {b : Buffer} (hb : s.connection.buffer = some b)
    (hstate : s.connection.state = .connected) (hn : 0 < s.connection.bytes)
    (hpos : Positive results) (henough : s.connection.bytes ≤ results.length) :
    ∃ out rest s', s.recv results = some (.ok (true, some out), rest, s') ∧ Positive rest ∧
      results.length ≤ rest.length + s.connection.bytes := by
  cases results with
  | nil =>
      rw [List.length_nil] at henough
      omega
  | cons x rest =>
      obtain ⟨k, hk, rfl⟩ := hpos x List.mem_cons_self
      have htimeout : (k : ℤ) ≠ readTimeout := by
        rw [readTimeout]
        omega
      have hrest : Positive rest := fun y hy => hpos y (List.mem_cons_of_mem _ hy)
      rw [List.length_cons] at henough
      obtain ⟨r, hr, hreturned, hsuffix, hlen⟩ := Connection.recvLoop_of_positive
        (c := s.connection) (n := s.connection.bytes) hrest (b.size + 0) (s.connection.bytes - 0)
        (min (k : ℤ) s.connection.bytes) (by omega) (by omega) (by omega)
        (b.store b.size (s.incoming.take (0 + (min (k : ℤ) s.connection.bytes).toNat)))
        (s.incoming.drop (0 + (min (k : ℤ) s.connection.bytes).toNat))
      have hsync : s.connection.recvSync (.ok (k : ℤ) :: rest) s.incoming = some r := by
        rw [Connection.recvSync_of_connected hb hn hstate, if_neg htimeout]
        exact hr
      have hout : ∃ out, r.outBuffer = some out := by
        rcases Connection.recvSync_cases hb hn hsync with ⟨-, rest', heq, -⟩ | ⟨-, hover⟩
        · exact absurd (Except.ok.inj (List.cons.inj heq).1) htimeout
        · obtain ⟨-, out, -, hout, -⟩ := hover.ended
          exact ⟨out, hout⟩
      obtain ⟨out, hout⟩ := hout
      have hlen' : (Except.ok (k : ℤ) :: rest).length ≤ r.results.length + s.connection.bytes := by
        rw [List.length_cons]
        omega
      obtain ⟨s', hs'⟩ : ∃ s', s.recv (.ok (k : ℤ) :: rest) =
          some (.ok (true, some out), r.results, s') := by
        rw [Reader.recv, hsync, Option.map_some, hreturned, hout]
        exact ⟨_, rfl⟩
      exact ⟨out, r.results, s', hs', fun y hy => hrest y (hsuffix.subset hy), hlen'⟩

namespace Reader

variable (allocator : Allocator) {s s' : Reader}

theorem handleData_of_positive (ha : s.Armed) (hstate : s.connection.state = .connected)
    (hpos : Positive results) (henough : frameSize s.incoming ≤ results.length) :
    ∃ s', s.handleData allocator results = some (.ok true, s') := by
  obtain ⟨b, hb, hsize, hbytes⟩ := ha
  have hmin : commandMinSize ≤ frameSize s.incoming := le_max_right _ _
  obtain ⟨out, rest, t, hrecv, hrest, hlen⟩ := recv_of_positive hb hstate
    (by rw [hbytes]; decide) hpos (by rw [hbytes]; exact hmin.trans henough)
  have hhead : s.readHead results = some (.ok (some out), rest, t) := by
    rw [readHead, hrecv]
    rfl
  obtain ⟨-, b', -, -, heq, hdata, -, htook⟩ :=
    (readHead_cases ⟨b, hb, hsize, hbytes⟩ hhead).resolve_left (fun h => h.1 out rfl)
  obtain rfl := Option.some.inj (Except.ok.inj heq)
  rw [handleData, hhead, Option.bind_some]
  have hout : out.size = commandMinSize := by
    rw [← length_data, hdata, Stream'.length_take]
  have hneeded : (ICommand.ofBuffer out.data).size ≤ frameSize s.incoming := by
    rw [hdata]
    exact le_max_left _ _
  rw [hbytes] at hlen
  by_cases hsmall : (ICommand.ofBuffer out.data).size ≤ out.size
  · simp only [readTail, if_pos hsmall, Option.map_some, if_true]
    exact ⟨_, rfl⟩
  · have htail : (tailBuffer allocator out (ICommand.ofBuffer out.data).size).size = out.size := by
      unfold tailBuffer
      split_ifs <;> rfl
    obtain ⟨out', rest', u, hrecv', -, -⟩ := recv_of_positive
      (s := t.recvNB (tailBuffer allocator out (ICommand.ofBuffer out.data).size)
        ((ICommand.ofBuffer out.data).size - out.size)) rfl (htook.state.trans hstate)
      (Nat.sub_pos_of_lt (not_le.1 hsmall)) hrest (by
        change (ICommand.ofBuffer out.data).size - out.size ≤ rest.length
        omega)
    simp only [readTail, if_neg hsmall, htail, hrecv', Option.map_some, if_true]
    exact ⟨_, rfl⟩

theorem frameSize_eq {incoming : Stream' UInt8} {f : Bytes} (hf : Whole f)
    (h : incoming.take f.length = f) : frameSize incoming = f.length := by
  have hwhole := whole_take_frameSize incoming
  have hf' : Whole (incoming.take f.length) := by
    rw [h]
    exact hf
  have heq : incoming.take (frameSize incoming) = incoming.take f.length := by
    rcases le_total (frameSize incoming) f.length with hle | hle
    · obtain ⟨k, hk⟩ := Nat.exists_eq_add_of_le hle
      refine prefixFree_whole.eq_of_prefix hwhole hf' ?_
      rw [hk, take_add]
      exact List.prefix_append _ _
    · obtain ⟨k, hk⟩ := Nat.exists_eq_add_of_le hle
      refine (prefixFree_whole.eq_of_prefix hf' hwhole ?_).symm
      rw [hk, take_add]
      exact List.prefix_append _ _
  simpa using congrArg List.length heq

/-- A call that has enough reads to take all the given bytes. -/
def Call.Enough (n : ℕ) (call : Call) : Prop :=
  Positive call.results ∧ n ≤ call.results.length ∧ call.closes = false

theorem Call.Enough.mono {call : Call} {m n : ℕ} (h : call.Enough n) (hle : m ≤ n) :
    call.Enough m :=
  ⟨h.1, hle.trans h.2.1, h.2.2⟩

theorem regular_of_positive {call : Call} (ha : s.Armed) (hstate : s.connection.state = .connected)
    (hcall : call.Enough (frameSize s.incoming)) :
    s.Regular allocator call ∧ ∃ s', s.step allocator call = some s' ∧ s'.Armed ∧
      s.Took s' (frameSize s.incoming) ∧ s'.dispatched =
        s.dispatched ++ [ICommand.ofBuffer (s.incoming.take (frameSize s.incoming))] := by
  obtain ⟨hpos, henough, hopen⟩ := hcall
  have htimeouts : .ok readTimeout ∉ call.results.tail := by
    intro hmem
    obtain ⟨k, -, hk⟩ := hpos _ (List.mem_of_mem_tail hmem)
    have hk := Except.ok.inj hk
    rw [readTimeout] at hk
    omega
  obtain ⟨s', hs'⟩ := handleData_of_positive allocator ha hstate hpos henough
  rcases handleData_cases ha htimeouts hs' with ⟨hne, -⟩ | ⟨-, harmed, htook, hdisp⟩
  · exact absurd rfl hne
  refine ⟨⟨htimeouts, fun x t ht _ hsame => ?_⟩, s', ?_, harmed, htook, hdisp⟩
  · obtain ⟨-, rfl⟩ := Prod.mk.inj (Option.some.inj (hs'.symm.trans ht))
    rw [hdisp] at hsame
    simp at hsame
  · rw [step, hs', Option.map_some, hopen]
    rfl

theorem run_frames {frames : List Bytes} (hwhole : ∀ f ∈ frames, Whole f) (ha : s.Armed)
    (hstate : s.connection.state = .connected)
    (hincoming : s.incoming.take frames.flatten.length = frames.flatten) {calls : List Call}
    (hlen : calls.length = frames.length)
    (hcalls : ∀ call ∈ calls, call.Enough frames.flatten.length) :
    Machine.Steps (step allocator) (Regular allocator) s calls ∧
      ∃ s', Machine.run (step allocator) s calls = some s' ∧ s'.connection.state = .connected ∧
        s'.dispatched = s.dispatched ++ frames.map ICommand.ofBuffer ∧
        s'.obtained = s.obtained ++ frames.flatten := by
  induction frames generalizing s calls with
  | nil =>
      obtain rfl := List.length_eq_zero_iff.1 hlen
      exact ⟨trivial, s, rfl, hstate, by simp⟩
  | cons f frames ih =>
      obtain ⟨call, calls, rfl⟩ := List.exists_cons_of_length_eq_add_one hlen
      have hsplit : s.incoming.take f.length = f ∧
          (s.incoming.drop f.length).take frames.flatten.length = frames.flatten := by
        rw [List.flatten_cons, List.length_append, take_add] at hincoming
        exact List.append_inj hincoming (Stream'.length_take _ _)
      have hsize := frameSize_eq (hwhole f List.mem_cons_self) hsplit.1
      have hcall := hcalls call List.mem_cons_self
      rw [List.flatten_cons, List.length_append] at hcalls hcall
      obtain ⟨hregular, s', hs', harmed, htook, hdisp⟩ := regular_of_positive
        allocator ha hstate (hcall.mono (hsize ▸ Nat.le_add_right _ _))
      rw [hsize, hsplit.1] at hdisp
      have hobtained := htook.obtained
      have hnext := htook.incoming
      rw [hsize] at hobtained hnext
      rw [hsplit.1] at hobtained
      obtain ⟨hsteps, u, hrun, hopen, hdisp', hobtained'⟩ := ih
        (fun g hg => hwhole g (List.mem_cons_of_mem _ hg)) harmed (htook.state.trans hstate)
        (by rw [hnext]; exact hsplit.2) (Nat.succ.inj hlen)
        (fun c hc => (hcalls c (List.mem_cons_of_mem _ hc)).mono (Nat.le_add_left _ _))
      refine ⟨⟨hregular, fun t ht => ?_⟩, u,
        (Machine.run_cons_eq_some _).2 ⟨s', hs', hrun⟩, hopen, ?_, ?_⟩
      · exact Option.some.inj (hs'.symm.trans ht) ▸ hsteps
      · rw [hdisp', hdisp, List.map_cons, List.append_assoc, List.singleton_append]
      · rw [hobtained', hobtained, List.flatten_cons, List.append_assoc]

end Reader

end Positive

end Collage.Transfer
