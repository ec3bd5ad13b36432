import Collage.Lib.Run
import Collage.Rsp.Timeout

/-!
# Buffer conservation

Along every run of a listening connection each buffer is in exactly one place. The bounded queues
therefore never overflow, and `finish` returns only when everything written has been released.
-/

namespace Collage.Rsp

open scoped List

variable {cfg : Config} {c : Connection}

/-- A connection never receives its own datagrams: multicast loopback is off on the sockets, and
`_handleData` asserts it. -/
def NoLoopback (c : Connection) : Event → Prop
  | .packet _ d => d.foreign c.id
  | _ => True

instance (c : Connection) (e : Event) : Decidable (NoLoopback c e) :=
  match e with
  | .packet _ d => inferInstanceAs (Decidable (d.foreign c.id))
  | .write _ | .writePop | .writePush | .read _ _ | .outgoing _ | .finishStep | .timeout _ =>
      isTrue trivial

namespace Connection

theorem Sound.step (h : Sound cfg c) (hl : c.listening = true) {e : Event} {c' : Connection}
    (hok : NoLoopback c e) (hc : c.step cfg e = some c') : Sound cfg c' := by
  rcases step_cases hc with ⟨bytes, -, -, -, rfl⟩ | ⟨-, hc⟩ | ⟨-, hc⟩ |
    ⟨writer, n, child, r, -, hfind, hr, rfl⟩ | ⟨expired, -, hi, -, rfl⟩ | ⟨-, hc⟩ |
    ⟨newID, d, rfl, hi, rfl⟩ | ⟨expired, -, hi, rfl⟩
  · exact ⟨h.nodup, h.held, h.readers, h.noNull, h.posted, h.loopback⟩
  · exact h.writePop hc
  · exact h.writePush hc
  · exact h.read_child hfind hr
  · exact h.processOutgoing (finishing_of_idle hi) expired
  · exact h.finishStep hc
  · exact h.handlePacket (finishing_of_idle hi) hl newID hok
  · rw [handleTimeout, if_pos hl]
    exact h.handleConnectedTimeout (finishing_of_idle hi) expired

theorem sound_run {id : U16} {members : List (U16 × U16)} (hnd : (members.map Prod.fst).Nodup)
    (hself : (id, 0) ∈ members) {es : List Event}
    (hok : Machine.Steps (step cfg) NoLoopback (start cfg id members) es)
    (hrun : Machine.run (step cfg) (start cfg id members) es = some c) :
    Sound cfg c ∧ c.role = (id, true) := by
  refine Machine.run_invariant (fun c => Sound cfg c ∧ c.role = (id, true))
    ?_ ⟨sound_start hnd hself, rfl⟩ hok hrun
  rintro c e c' ⟨hs, hr⟩ hok hc
  have hl : c.listening = true := congrArg Prod.snd hr
  exact ⟨hs.step hl hok hc, (role_step hs hl hc).trans hr⟩

/-- The places a buffer of the listener can be in. The last one is local to `_finishWriteQueue`
and empty whenever that function is not running. -/
def places (c : Connection) : List (List ℕ) :=
  [addrs c.appBuffers, c.threadBuffers.map Buffer.addr, c.writeBuffers.map Buffer.addr,
    addrs [c.inHand], c.freed.map Buffer.addr]

/-- The places a buffer of a child can be in. Only the loopback child has buffers in the local
variables of `_finishWriteQueue`. -/
def childPlaces (c : Connection) (child : Child) : List (List ℕ) :=
  [child.threadBuffers.map Buffer.addr, addrs child.recvBuffers, addrs child.appBuffers,
    addrs [child.readBuffer], if child.id = c.id then c.posting.map Buffer.addr else []]

/-- The buffer `a` is in exactly one of the places, and once. -/
def InOnePlace (places : List (List ℕ)) (a : ℕ) : Prop := (places.map (List.count a)).sum = 1

theorem inOnePlace_of_perm {places : List (List ℕ)} {n a : ℕ} (ha : a < n)
    (h : places.flatten ~ List.range n) : InOnePlace places a := by
  have hcount := (List.perm_iff_count.1 h) a
  rw [List.count_flatten, List.count_eq_one_of_mem List.nodup_range (List.mem_range.2 ha)] at hcount
  exact hcount

theorem Sound.empty_of_full (h : Sound cfg c) (hstop : c.stopped = false)
    (hfull : cfg.numBuffers ≤ c.appBuffers.length) :
    c.threadBuffers = [] ∧ c.inHand = none ∧ c.writeBuffers = [] ∧ c.freed = [] := by
  have hsome : (addrs c.appBuffers).length = c.appBuffers.length := by
    have hred := List.reduceOption_length_eq_iff.2 (fun x hx =>
      Option.isSome_iff_ne_none.2 (fun hn => h.noNull hstop (hn ▸ hx)))
    rw [addrs, List.length_map, hred]
  have hlen := h.length_held
  simp only [Connection.held, List.length_append, List.length_map] at hlen
  refine ⟨List.length_eq_zero_iff.1 (by omega), ?_, List.length_eq_zero_iff.1 (by omega),
    List.length_eq_zero_iff.1 (by omega)⟩
  cases hb : c.inHand with
  | none => rfl
  | some b =>
      rw [hb, addrs_cons_some, List.length_cons] at hlen
      omega

/-- In every run each buffer of the listener and of every child is in exactly one place, a push to
a bounded `_threadBuffers` finds room, and when all buffers are back in `_appBuffers`, which is
what `finish` waits for, nothing is queued, in flight or short of its acknowledgements. The last
part is about a connection that has not given up: `finish` asserts that it is listening. -/
theorem buffers_conserved {id : U16} {members : List (U16 × U16)}
    (hnd : (members.map Prod.fst).Nodup) (hself : (id, 0) ∈ members) {es : List Event}
    (hok : Machine.Steps (step cfg) NoLoopback (start cfg id members) es)
    (hrun : Machine.run (step cfg) (start cfg id members) es = some c) :
    (∀ a < cfg.numBuffers, InOnePlace c.places a) ∧
    (∀ child ∈ c.children, ∀ a < cfg.numBuffers, InOnePlace (c.childPlaces child) a) ∧
    (c.inHand.isSome → c.threadBuffers.length < cfg.numBuffers) ∧
    (∀ child ∈ c.children, child.readBuffer.isSome ∨ (∃ b, some b ∈ child.appBuffers) →
      child.threadBuffers.length < cfg.numBuffers) ∧
    (c.stopped = false → cfg.numBuffers ≤ c.appBuffers.length →
      c.threadBuffers = [] ∧ c.inHand = none ∧ c.writeBuffers = [] ∧
      ∃ self, c.findConnection id = some self ∧ self.sequence = c.sequence ∧
        self.acked = c.sequence - 1) := by
  obtain ⟨hs, hr⟩ := sound_run hnd hself hok hrun
  have hid : c.id = id := congrArg Prod.fst hr
  refine ⟨?_, ?_, ?_, fun child hc hb => hs.child_threadBuffers_lt hc hb, ?_⟩
  · intro a ha
    refine inOnePlace_of_perm ha (List.Perm.trans ?_ hs.held)
    simp [places, Connection.held]
  · intro child hc a ha
    refine inOnePlace_of_perm ha (List.Perm.trans ?_ (hs.readers child hc))
    simp [childPlaces, heldFor, Child.held]
  · intro hb
    obtain ⟨b, hb⟩ := Option.isSome_iff_exists.1 hb
    exact hs.threadBuffers_lt hb
  · intro hstop hfull
    obtain ⟨hthread, hhand, hwrite, hfreed⟩ := hs.empty_of_full hstop hfull
    obtain ⟨self, hfind, htrack⟩ := hs.loopback
    obtain ⟨hseq, hack⟩ := htrack hstop
    have hpost : c.posting = [] :=
      List.length_eq_zero_iff.1 (Nat.le_zero.1 (by simpa [hfreed] using hs.posted))
    refine ⟨hthread, hhand, hwrite, self, hid ▸ hfind, ?_, ?_⟩
    · simpa [hpost, hwrite] using hseq
    · simp only [hfreed, hwrite, List.length_nil, lt_irrefl, false_and, or_false] at hack
      rw [← hack]
      simp

/-- A packet is written, acknowledged by the other of two members and released, while a packet of
that member arrives and is read. -/
def roundTrip : List Event :=
  [.write [7, 8, 9], .writePop, .writePush, .outgoing false,
    .packet 0 (.data ⟨2, 2, 5, [3, 4]⟩), .read 2 2, .packet 0 (.ack 2 1 0), .finishStep, .finishStep]

theorem buffers_conserved_roundTrip :
    ∃ c, Machine.run (step (Config.tiny 2)) (start (Config.tiny 2) 1 [(1, 0), (2, 5)]) roundTrip =
        some c ∧
      InOnePlace c.places 0 ∧ c.writeBuffers = [] := by
  have hfull : (Machine.run (step (Config.tiny 2)) (start (Config.tiny 2) 1 [(1, 0), (2, 5)])
      roundTrip).map (fun c => (c.stopped, c.appBuffers.length)) = some (false, 2) := by
    decide +kernel
  obtain ⟨c, hrun, hlen⟩ := Option.map_eq_some_iff.1 hfull
  have h := buffers_conserved (by decide) (by decide) (by decide +kernel) hrun
  exact ⟨c, hrun, h.1 0 (by decide),
    (h.2.2.2.2 (congrArg Prod.fst hlen) (congrArg Prod.snd hlen).ge).2.2.1⟩

end Connection
end Collage.Rsp
