import Collage.Rsp.ChildBuffers
import Collage.Lib.Run
import Collage.Lib.Serial
import Mathlib.Algebra.Ring.Nat
import Mathlib.Tactic.Abel

/-!
# The reorder queue of a child

`_recvBuffers` holds the packets that arrived before the expected one. Entry `i` stands for the
packet that follows the expected one by `i + 1`. The test of `_handleData` for packets outside the
window counts one packet less when the window passes the highest number.
-/

namespace Collage.Rsp

/-- The entries of a reorder queue are the packets behind the expected one, and the last one has
been received. -/
structure Reordered (numBuffers : ℕ) (c : Child) : Prop where
  held : ∀ i b, c.recvBuffers[i]? = some (some b) →
    b.data.sequence = c.sequence + 1 + BitVec.ofNat 16 i
  last : c.recvBuffers.getLast? ≠ some none
  length : c.recvBuffers.length ≤ numBuffers

inductive ChildEvent
  | data (d : DatagramData)
  | read (bytesLeft : ℕ)

namespace Child

def step (cfg : Config) (parentID : U16) (c : Child) : ChildEvent → Option Child
  | .data d => some (c.handleData cfg parentID d).1
  | .read bytesLeft => (c.readSync cfg bytesLeft).map Prod.fst

/-- How far a packet is ahead of the expected one. -/
def distance (c : Child) (d : DatagramData) : ℕ := (d.sequence - c.sequence).toNat

/-- The packet of an entry of the reorder queue has been received. -/
def received (c : Child) (i : ℕ) : Bool := (c.recvBuffers[i]?).join.isSome

/-- No packet arrives that is just outside the window but on the other side of the highest
number. -/
def Timely (cfg : Config) (c : Child) : ChildEvent → Prop
  | .data d => d.sequence.toNat < c.sequence.toNat → c.distance d ≠ cfg.numBuffers + 1
  | .read _ => True

instance (cfg : Config) (c : Child) : (e : ChildEvent) → Decidable (c.Timely cfg e)
  | .data _ => inferInstanceAs (Decidable (_ → _))
  | .read _ => isTrue trivial

/-- What `_handleData` makes of a packet that is not the expected one. `size <= _numBuffers` is
asserted for the ones it does not ignore. A packet of the window is kept as long as there is a
buffer for it, and all farther ones are ignored. -/
structure Windowed (cfg : Config) (parentID : U16) (c : Child) (d : DatagramData) : Prop where
  accepted : 0 < c.distance d →
    (ignores cfg.numBuffers c.sequence d.sequence = false ↔ c.distance d ≤ cfg.numBuffers)
  kept : 0 < c.distance d → c.distance d ≤ cfg.numBuffers →
    ((c.handleData cfg parentID d).1.received (c.distance d - 1) = true ↔
      c.received (c.distance d - 1) = true ∨ c.threadBuffers ≠ [])
  ignored : cfg.numBuffers < c.distance d → (c.handleData cfg parentID d).1 = c

theorem distance_eq (c : Child) (d : DatagramData) :
    c.distance d = if c.sequence.toNat ≤ d.sequence.toNat
      then d.sequence.toNat - c.sequence.toNat
      else 65536 - c.sequence.toNat + d.sequence.toNat := by
  have hc := c.sequence.isLt
  have hd := d.sequence.isLt
  rw [distance, BitVec.toNat_sub]
  split_ifs <;> omega

theorem distance_pos {c : Child} {d : DatagramData} (h : c.sequence ≠ d.sequence) :
    0 < c.distance d := sub_toNat_pos h

theorem ne_of_distance_pos {c : Child} {d : DatagramData} (h : 0 < c.distance d) :
    c.sequence ≠ d.sequence := by
  intro heq
  rw [distance, heq, BitVec.sub_self] at h
  exact absurd h (by decide)

theorem sequence_eq (c : Child) (d : DatagramData) (h : 0 < c.distance d) :
    d.sequence = c.sequence + 1 + BitVec.ofNat 16 (c.distance d - 1) := by
  have hd : BitVec.ofNat 16 (c.distance d - 1) = d.sequence - c.sequence - 1 := by
    apply BitVec.eq_of_toNat_eq
    have hlt := (d.sequence - c.sequence).isLt
    have hone : (1 : U16).toNat = 1 := by decide
    rw [distance] at h ⊢
    rw [BitVec.toNat_ofNat, BitVec.toNat_sub (d.sequence - c.sequence) 1, hone]
    omega
  rw [hd]
  abel

theorem ignores_iff {numBuffers : ℕ} {c : Child} {d : DatagramData} (h : c.sequence ≠ d.sequence) :
    ignores numBuffers c.sequence d.sequence = true ↔
      numBuffers < c.distance d ∧
        ¬ (d.sequence.toNat < c.sequence.toNat ∧ c.distance d = numBuffers + 1) := by
  have hne : c.sequence.toNat ≠ d.sequence.toNat := fun heq => h (BitVec.eq_of_toNat_eq heq)
  have hc := c.sequence.isLt
  rw [distance_eq, ignores, Bool.or_eq_true, decide_eq_true_iff, decide_eq_true_iff]
  split_ifs <;> omega

end Child

namespace Reordered

variable {cfg : Config} {parentID : U16} {numBuffers : ℕ} {c : Child}

theorem add_ofNat_succ (n : U16) (i : ℕ) :
    n + BitVec.ofNat 16 (i + 1) = n + 1 + BitVec.ofNat 16 i := by
  rw [show BitVec.ofNat 16 (i + 1) = BitVec.ofNat 16 i + 1 from Serial.serial_succ i]
  abel

theorem new (id sequence : U16) : Reordered cfg.numBuffers (Child.new cfg id sequence) where
  held := by
    intro i b h
    cases h
  last := by simp [Child.new]
  length := Nat.zero_le _

theorem getLast?_tail {b : Option Buffer} {queue : List (Option Buffer)}
    (h : (b :: queue).getLast? ≠ some none) : queue.getLast? ≠ some none := by
  cases queue with
  | nil => simp
  | cons a rest => simpa [List.getLast?_cons_cons] using h

theorem enqueueReady {queue : List (Option Buffer)}
    (hheld : ∀ i b, queue[i]? = some (some b) →
      b.data.sequence = c.sequence + BitVec.ofNat 16 i)
    (hlast : queue.getLast? ≠ some none) (hlen : queue.length ≤ numBuffers) :
    Reordered numBuffers (c.enqueueReady cfg parentID queue).1 := by
  induction queue generalizing c with
  | nil =>
      constructor
      · intro i b h
        cases h
      · simp [Child.enqueueReady]
      · exact Nat.zero_le _
  | cons q rest ih =>
      have hrest : ∀ i b, rest[i]? = some (some b) →
          b.data.sequence = c.sequence + 1 + BitVec.ofNat 16 i := by
        intro i b h
        rw [hheld (i + 1) b (by simpa using h), add_ofNat_succ]
      have hlen' : rest.length ≤ numBuffers := by
        rw [List.length_cons] at hlen
        omega
      cases q with
      | none => exact ⟨hrest, getLast?_tail hlast, hlen'⟩
      | some b => exact ih hrest (getLast?_tail hlast) hlen'

theorem set_buffer (h : Reordered numBuffers c) {size : ℕ} {b : Buffer} {free : List Buffer}
    (hpos : 0 < size) (hsize : size ≤ numBuffers)
    (hb : b.data.sequence = c.sequence + 1 + BitVec.ofNat 16 (size - 1)) :
    Reordered numBuffers { c with
      threadBuffers := free
      recvBuffers := (c.recvBuffers ++ List.replicate (size - c.recvBuffers.length) none).set
        (size - 1) (some b) } where
  held := by
    intro i b' hi
    change ((c.recvBuffers ++ _).set _ _)[i]? = _ at hi
    rw [List.getElem?_set] at hi
    split_ifs at hi with heq hlt
    · rw [← heq, ← Option.some.inj (Option.some.inj hi)]
      exact hb
    · rcases lt_or_ge i c.recvBuffers.length with hlt | hge
      · rw [List.getElem?_append_left hlt] at hi
        exact h.held i b' hi
      · rw [List.getElem?_append_right hge, List.getElem?_replicate] at hi
        split_ifs at hi
        cases hi
  last := by
    change ((c.recvBuffers ++ _).set _ _).getLast? ≠ _
    have hlast := h.last
    rw [List.getLast?_eq_getElem?] at hlast ⊢
    rw [List.length_set, List.length_append, List.length_replicate, List.getElem?_set]
    split_ifs with heq hlt
    · simp
    · simp
    · rw [List.getElem?_append_left (by omega)]
      rwa [show c.recvBuffers.length + (size - c.recvBuffers.length) - 1 =
        c.recvBuffers.length - 1 by omega]
  length := by
    change ((c.recvBuffers ++ _).set _ _).length ≤ _
    have hlen := h.length
    rw [List.length_set, List.length_append, List.length_replicate]
    omega

theorem handleData (h : Reordered cfg.numBuffers c) {d : DatagramData}
    (hd : d.sequence.toNat < c.sequence.toNat → c.distance d ≠ cfg.numBuffers + 1) :
    Reordered cfg.numBuffers (c.handleData cfg parentID d).1 := by
  rcases Child.handleData_cases cfg parentID d c with heq | ⟨a, free, -, -, heq⟩ |
    ⟨a, free, resized, hne, hign, -, rfl, -, heq, -⟩
  · rw [heq]
    exact h
  · rw [heq]
    exact enqueueReady h.held h.last h.length
  · rw [heq]
    apply h.set_buffer (Child.distance_pos hne)
    · by_contra hgt
      rw [← Bool.not_eq_true, Child.ignores_iff hne] at hign
      exact hign ⟨not_le.1 hgt, fun hw => hd hw.1 hw.2⟩
    · exact Child.sequence_eq c d (Child.distance_pos hne)

theorem step (h : Reordered cfg.numBuffers c) {c' : Child} {e : ChildEvent}
    (he : c.Timely cfg e) (hstep : c.step cfg parentID e = some c') :
    Reordered cfg.numBuffers c' := by
  cases e with
  | data d =>
      rw [← Option.some.inj hstep]
      exact h.handleData he
  | read bytesLeft =>
      obtain ⟨r, hr, rfl⟩ := Option.map_eq_some_iff.1 hstep
      have hseq := (Child.readSync_frame hr).2.1
      have hrecv := Child.readSync_recvBuffers hr
      constructor
      · rw [hrecv, hseq]
        exact h.held
      · rw [hrecv]
        exact h.last
      · rw [hrecv]
        exact h.length

end Reordered

namespace Child

variable {cfg : Config} {parentID : U16} {c : Child} {d : DatagramData}

theorem windowed_of_timely (hd : c.Timely cfg (.data d)) : c.Windowed cfg parentID d where
  accepted := by
    intro hpos
    rw [← Bool.not_eq_true, ignores_iff (ne_of_distance_pos hpos), not_and_not_right]
    constructor
    · intro h
      by_contra hgt
      exact hd (h (not_le.1 hgt)).1 (h (not_le.1 hgt)).2
    · intro hle hgt
      exact absurd hle (not_le.2 hgt)
  kept := by
    intro hpos hle
    have hne := ne_of_distance_pos hpos
    have hign : ignores cfg.numBuffers c.sequence d.sequence = false := by
      rw [← Bool.not_eq_true, ignores_iff hne]
      exact fun h => absurd hle (not_le.2 h.1)
    cases hgot : c.received (c.distance d - 1) with
    | true =>
        have hgot' : (c.recvBuffers[(d.sequence - c.sequence).toNat - 1]?).join.isSome = true :=
          hgot
        have heq : c.handleData cfg parentID d = (c, [], none) := by
          simp only [handleData, hne, hign, hgot', if_true, if_false, Bool.false_eq_true]
        rw [heq, hgot]
        simp
    | false =>
        have hgot' : (c.recvBuffers[(d.sequence - c.sequence).toNat - 1]?).join.isSome = false :=
          hgot
        cases hq : c.threadBuffers with
        | nil =>
            have heq : c.handleData cfg parentID d = (c, [], none) := by
              simp only [handleData, hne, hign, hgot', newDataBuffer, hq, if_false,
                Bool.false_eq_true]
            rw [heq, hgot]
            simp
        | cons a free =>
            simp only [handleData, hne, hign, hgot', newDataBuffer, hq, if_false,
              Bool.false_eq_true, received, distance]
            rw [List.getElem?_set_self]
            · simp
            · rw [List.length_append, List.length_replicate]
              have := distance_pos hne
              rw [distance] at this
              omega
  ignored := by
    intro hgt
    have hne := ne_of_distance_pos (Nat.zero_lt_of_lt hgt)
    have hign := (ignores_iff hne).2 ⟨hgt, fun hw => hd hw.1 hw.2⟩
    simp only [handleData, hne, hign, if_true, if_false]

end Child

/-- In every run without a packet just outside the window and across the highest number, the
reorder queue keeps its invariant, and exactly the packets of the window are kept. -/
theorem reorder_window (cfg : Config) (parentID id sequence : U16) (es : List ChildEvent)
    (c : Child) (hsteps : Machine.Steps (Child.step cfg parentID) (Child.Timely cfg)
      (Child.new cfg id sequence) es)
    (hrun : Machine.run (Child.step cfg parentID) (Child.new cfg id sequence) es = some c) :
    Reordered cfg.numBuffers c ∧
      ∀ d, c.Timely cfg (.data d) → c.Windowed cfg parentID d := by
  constructor
  · exact Machine.run_invariant (Reordered cfg.numBuffers)
      (fun _ _ _ h he hstep => h.step he hstep) (Reordered.new id sequence) hsteps hrun
  · exact fun d hd => Child.windowed_of_timely hd

/-- A run of three packets across the highest number, of which the last one fills the gap. -/
theorem reorder_window_across_wrap :
    ∃ es c, Machine.run (Child.step (.tiny 4) 7) (Child.new (.tiny 4) 3 65534) es = some c ∧
      c.sequence = 1 ∧ Reordered 4 c := by
  let es := [65535, 0, 65534].map (fun n => ChildEvent.data ⟨1, 3, n, [n.toNat.toUInt8]⟩)
  have h : (Machine.run (Child.step (.tiny 4) 7) (Child.new (.tiny 4) 3 65534) es).map
      (fun c => decide (c.sequence = 1)) = some true := by decide +kernel
  obtain ⟨c, hrun, hc⟩ := Option.map_eq_some_iff.1 h
  exact ⟨es, c, hrun, of_decide_eq_true hc,
    (reorder_window (.tiny 4) 7 3 65534 es c (by decide +kernel) hrun).1⟩

/-- With two buffers and 65534 expected, packet 1 is three ahead and is still stored. -/
theorem reorder_window_exceeded :
    ∃ d c, (Child.new (.tiny 2) 3 65534).distance d = 3 ∧
      Child.ignores 2 (Child.new (.tiny 2) 3 65534).sequence d.sequence = false ∧
      Machine.run (Child.step (.tiny 2) 7) (Child.new (.tiny 2) 3 65534) [.data d] = some c ∧
      ¬ Reordered 2 c := by
  let d : DatagramData := ⟨1, 3, 1, [9]⟩
  refine ⟨d, ((Child.new (.tiny 2) 3 65534).handleData (.tiny 2) 7 d).1, by decide, by decide,
    rfl, ?_⟩
  intro h
  exact absurd h.length (by decide)

end Collage.Rsp
