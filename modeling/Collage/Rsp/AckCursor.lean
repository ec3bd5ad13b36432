import Collage.Lib.Run
import Collage.Rsp.Handlers
import Collage.Rsp.Sound
import Mathlib.Algebra.Ring.Nat

/-!
# The ack cursor of a child

`_handleAck` compares an ack with the child's cursor as plain numbers. The packets are counted
here without a bound, and the cursor is their lowest bits. The comparison is right as long as an
older ack does not lie before a passage of the highest number, and as long as the cursor of a new
child, which stands at the highest number, is not taken for an ack.
-/

namespace Collage.Rsp

open Serial

namespace Connection

/-- What a child has acknowledged, as the connection has noted it. -/
def cursor (c : Connection) (reader : U16) : Option U16 :=
  (c.findConnection reader).map Child.acked

theorem cursor_handleAck (cfg : Config) (c : Connection) (reader sequence : U16) :
    (c.handleAck cfg reader c.id sequence).cursor reader =
      (c.cursor reader).map (fun acked => if late cfg acked sequence then acked else sequence) := by
  rcases handleAck_cases cfg reader c.id sequence c with ⟨hlate, h⟩ | ⟨child, -, hfind, hlate, h⟩
  · rw [h, cursor]
    cases hfind : c.findConnection reader with
    | none => rfl
    | some child => simp [hlate rfl child hfind]
  · have hrecord : (c.recordAck reader sequence).cursor reader = some sequence := by
      rw [cursor, findConnection_recordAck, if_pos rfl, hfind]
      rfl
    have hcursor : (c.handleAck cfg reader c.id sequence).cursor reader = some sequence := by
      rcases h with ⟨-, h⟩ | ⟨self, -, -, h⟩
      · rw [h, hrecord]
      · rw [h]
        exact hrecord
    rw [hcursor, cursor, hfind]
    simp [hlate]

theorem cursor_addConnection (cfg : Config) (c : Connection) {reader : U16} (sequence : U16)
    (h : c.findConnection reader = none) :
    (c.addConnection cfg reader sequence).cursor reader = some (BitVec.allOnes 16) := by
  obtain ⟨ds, -, hc⟩ := addConnection_eq cfg c sequence h
  rw [hc, cursor]
  have hnone : c.children.find? (fun child => child.id = reader) = none := h
  have hfind : (c.children ++ [Child.new cfg reader sequence]).find?
      (fun child => child.id = reader) = some (Child.new cfg reader sequence) := by
    rw [List.find?_append, hnone]
    simp [Child.new]
  exact congrArg (Option.map Child.acked) hfind

end Connection

/-- A connection together with the number of packets it has written and the newest of them that
the child has acknowledged. -/
structure Acks where
  conn : Connection
  sent : ℕ
  newest : Option ℕ

/-- An ack of the child for the `n`-th packet, or anything else that leaves the child's cursor
alone. -/
inductive AckEvent
  | ack (n : ℕ)
  | other (conn : Connection) (sent : ℕ)

namespace Acks

variable {cfg : Config} {reader : U16} {a a' : Acks}

/-- The child is added when the writer has written `sent` packets. -/
def added (cfg : Config) (reader sequence : U16) (c : Connection) (sent : ℕ) : Acks :=
  ⟨{ c with sequence := serial 16 sent }.addConnection cfg reader sequence, sent, none⟩

def step (cfg : Config) (reader : U16) (a : Acks) : AckEvent → Option Acks
  | .ack n => some
      ⟨a.conn.handleAck cfg reader a.conn.id (serial 16 n), a.sent, some (max n (a.newest.getD n))⟩
  | .other conn sent =>
      if conn.cursor reader = a.conn.cursor reader ∧ conn.sequence = serial 16 sent ∧
        a.sent ≤ sent then some ⟨conn, sent, a.newest⟩ else none

/-- The packet is one of the last `numBuffers` written, and so are all that the child has not
acknowledged. -/
def InWindow (cfg : Config) (a : Acks) (n : ℕ) : Prop :=
  n < a.sent ∧ a.sent ≤ n + cfg.numBuffers ∧
    ∀ m, a.newest = some m → a.sent ≤ m + 1 + cfg.numBuffers

/-- The packet is newer than everything the child has acknowledged. -/
def Newer (a : Acks) (n : ℕ) : Prop := ∀ m, a.newest = some m → m < n

def Records (cfg : Config) (reader : U16) (a : Acks) (n : ℕ) : Prop :=
  ∀ acked, a.conn.cursor reader = some acked →
    Connection.late cfg acked (serial 16 n) = false

/-- The highest number is not passed between an older ack and the newest one. The first ack is
farther than `numBuffers` from the highest number. -/
def Comparable (cfg : Config) (a : Acks) (n : ℕ) : Prop :=
  match a.newest with
  | some m => m < n ∨ n / 65536 = m / 65536
  | none => n % 65536 + cfg.numBuffers < 65535

instance (cfg : Config) (a : Acks) (n : ℕ) : Decidable (a.Comparable cfg n) :=
  match h : a.newest with
  | some m => decidable_of_iff (m < n ∨ n / 65536 = m / 65536) (by rw [Comparable, h])
  | none => decidable_of_iff (n % 65536 + cfg.numBuffers < 65535) (by rw [Comparable, h])

/-- Acks are for packets of the window and can be compared. -/
def Ordered (cfg : Config) (a : Acks) : AckEvent → Prop
  | .ack n => a.InWindow cfg n ∧ a.Comparable cfg n
  | .other _ _ => True

/-- The cursor stands at the newest packet acknowledged, and at the highest number before the
first ack. -/
structure Exact (reader : U16) (a : Acks) : Prop where
  cursor : a.conn.cursor reader = some (match a.newest with
    | some m => serial 16 m
    | none => BitVec.allOnes 16)
  sent : ∀ m, a.newest = some m → m < a.sent

theorem late_serial {m n : ℕ} :
    Connection.late cfg (serial 16 m) (serial 16 n) = true ↔
      n % 65536 ≤ m % 65536 ∧ m % 65536 - n % 65536 ≤ cfg.numBuffers := by
  rw [Connection.late, decide_eq_true_iff, toNat_serial, toNat_serial]
  exact Iff.rfl

/-- The comparison of `_handleAck` is right exactly for comparable acks. -/
theorem records_iff (hbuf : cfg.numBuffers < 32768) (h : a.Exact reader) {n : ℕ}
    (hw : a.InWindow cfg n) : (a.Records cfg reader n ↔ a.Newer n) ↔ a.Comparable cfg n := by
  obtain ⟨hlt, hlast, hopen⟩ := hw
  cases hm : a.newest with
  | none =>
      have hcursor : a.conn.cursor reader = some (BitVec.allOnes 16) := by
        rw [h.cursor, hm]
      have hnewer : a.Newer n := by
        intro m hm'
        rw [hm] at hm'
        cases hm'
      have hrecords : a.Records cfg reader n ↔ n % 65536 + cfg.numBuffers < 65535 := by
        rw [Records, hcursor]
        have hmod := Nat.mod_lt n (show 65536 > 0 by decide)
        simp only [Option.some.injEq, forall_eq', ← Bool.not_eq_true, Connection.late,
          decide_eq_true_iff, toNat_serial]
        change ¬ (n % 65536 ≤ 65535 ∧ 65535 - n % 65536 ≤ cfg.numBuffers) ↔ _
        omega
      rw [hrecords, Comparable, hm]
      simp only [hnewer, iff_true]
  | some m =>
      have hcursor : a.conn.cursor reader = some (serial 16 m) := by
        rw [h.cursor, hm]
      have hnewer : a.Newer n ↔ m < n := by
        rw [Newer, hm]
        simp
      have hsent := hopen m hm
      have hbefore := h.sent m hm
      have hrecords : a.Records cfg reader n ↔
          ¬ (n % 65536 ≤ m % 65536 ∧ m % 65536 - n % 65536 ≤ cfg.numBuffers) := by
        rw [Records, hcursor]
        simp only [Option.some.injEq, forall_eq', ← Bool.not_eq_true, late_serial]
      rw [hrecords, hnewer, Comparable, hm]
      simp only
      omega

theorem Exact.step (hbuf : cfg.numBuffers < 32768) (h : a.Exact reader) {e : AckEvent}
    (hok : a.Ordered cfg e) (hstep : a.step cfg reader e = some a') : a'.Exact reader := by
  cases e with
  | other conn sent =>
      rw [Acks.step, Option.ite_none_right_eq_some, Option.some.injEq] at hstep
      obtain ⟨⟨hcursor, -, hle⟩, rfl⟩ := hstep
      constructor
      · exact hcursor.trans h.cursor
      · intro m hm
        exact (h.sent m hm).trans_le hle
  | ack n =>
      obtain ⟨hw, hcomp⟩ := hok
      have hjudged := (records_iff hbuf h hw).2 hcomp
      rw [← Option.some.inj hstep]
      constructor
      · refine (Connection.cursor_handleAck cfg a.conn reader (serial 16 n)).trans ?_
        by_cases hnew : a.Newer n
        · have hlate := hjudged.2 hnew _ h.cursor
          have hmax : max n (a.newest.getD n) = n := by
            cases hm : a.newest with
            | none => exact max_self n
            | some m => exact max_eq_left (hnew m hm).le
          rw [h.cursor, Option.map_some, hlate, hmax]
          rfl
        · have hlate := mt hjudged.1 hnew
          simp only [Records, h.cursor, Option.some.injEq, forall_eq', Bool.not_eq_false] at hlate
          rw [h.cursor, Option.map_some, hlate]
          cases hm : a.newest with
          | none => exact absurd (fun m hm' => by rw [hm] at hm'; cases hm') hnew
          | some m =>
              have hle : n ≤ m := by
                by_contra hgt
                exact hnew (fun m' hm' => by
                  rw [hm] at hm'
                  rw [← Option.some.inj hm']
                  exact not_le.1 hgt)
              simp only [if_true, Option.getD_some, max_eq_right hle]
      · intro m hm
        rw [← Option.some.inj hm]
        apply max_lt hw.1
        cases hm' : a.newest with
        | none => exact hw.1
        | some m' => exact h.sent m' hm'

/-- From any position at which the child is added, and as long as all acks can be compared, the
cursor is the newest packet acknowledged, and the next ack is judged rightly exactly when it can
be compared. -/
theorem ack_cursor_correct (cfg : Config) (reader sequence : U16) (c : Connection) (sent : ℕ)
    (hbuf : cfg.numBuffers < 32768) (hnew : c.findConnection reader = none) (es : List AckEvent)
    (a : Acks) (hsteps : Machine.Steps (step cfg reader) (Ordered cfg)
      (added cfg reader sequence c sent) es)
    (hrun : Machine.run (step cfg reader) (added cfg reader sequence c sent) es = some a) :
    a.Exact reader ∧ ∀ n, a.InWindow cfg n →
      ((a.Records cfg reader n ↔ a.Newer n) ↔ a.Comparable cfg n) := by
  have hstart : (added cfg reader sequence c sent).Exact reader := by
    constructor
    · exact Connection.cursor_addConnection cfg _ sequence hnew
    · intro m hm
      cases hm
  have h : a.Exact reader := Machine.run_invariant (Exact reader)
    (fun _ _ _ h hok hstep => h.step hbuf hok hstep) hstart hsteps hrun
  exact ⟨h, fun n hw => records_iff hbuf h hw⟩

/-- Reader 2 is added before the packet 100 is written and acknowledges 97 and then 99. -/
theorem ack_cursor_correct_two_acks :
    ∃ a, Machine.run (step (.tiny 4) 2)
        (added (.tiny 4) 2 0 (.start (.tiny 4) 1 [(1, 0)]) 100)
        [.ack 97, .ack 99] = some a ∧ a.newest = some 99 ∧ a.Exact 2 := by
  refine ⟨_, rfl, rfl, ?_⟩
  refine (ack_cursor_correct (.tiny 4) 2 0
    (.start (.tiny 4) 1 [(1, 0)]) 100 (by decide) (by decide)
    [.ack 97, .ack 99] _ ?_ rfl).1
  refine ⟨⟨⟨by decide, by decide, fun m hm => by cases hm⟩, by decide⟩, fun a ha => ?_⟩
  rw [← Option.some.inj ha]
  refine ⟨⟨⟨by decide, by decide, fun m hm => ?_⟩, by decide⟩, fun _ _ => trivial⟩
  rw [← Option.some.inj hm]
  decide

/-- The first ack of a reader added at the packet 65534 is discarded. With eight buffers, the ack
65533 that comes after the ack for the packet 65539 is taken over, and the cursor moves back. -/
theorem ack_cursor_misjudged :
    (∃ a, a = added (.tiny 4) 2 0 (.start (.tiny 4) 1 [(1, 0)]) 65534 ∧
      a.InWindow (.tiny 4) 65533 ∧ a.Newer 65533 ∧ ¬ a.Records (.tiny 4) 2 65533) ∧
    ∃ a, Machine.run (step (.tiny 8) 2)
        (added (.tiny 8) 2 0 (.start (.tiny 8) 1 [(1, 0)]) 65540)
        [.ack 65539] = some a ∧ a.InWindow (.tiny 8) 65533 ∧ ¬ a.Newer 65533 ∧
      a.Records (.tiny 8) 2 65533 ∧
      (a.conn.handleAck (.tiny 8) 2 1 65533).cursor 2 = some 65533 := by
  constructor
  · refine ⟨_, rfl, ⟨by decide, by decide, fun m hm => ?_⟩, fun m hm => ?_, fun h => ?_⟩
    · cases hm
    · cases hm
    · exact absurd (h 65535 (by decide +kernel)) (by decide)
  · refine ⟨_, rfl, ⟨by decide, by decide, fun m hm => ?_⟩, fun h => ?_, fun acked hacked => ?_, ?_⟩
    · rw [← Option.some.inj hm]
      decide
    · exact absurd (h 65539 rfl) (by decide)
    · have hcursor : some acked = some (3 : U16) := by
        rw [← hacked]
        decide +kernel
      rw [Option.some.inj hcursor]
      decide
    · decide +kernel

end Acks

end Collage.Rsp
