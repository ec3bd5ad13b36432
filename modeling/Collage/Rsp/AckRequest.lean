import Collage.Rsp.EarlyNack
import Collage.Rsp.RepeatQueue

/-!
# The nacks for an ack request

A reader that misses packets answers an ack request with the holes of its reorder queue and the
packets from there up to the requested one. Positions are counted from the expected number. The
last range is closed at the requested number, also when packets newer than that have been received
and the range begins behind it: such a range is taken for one that passes the highest number.
-/

namespace Collage.Rsp

/-- The holes of a reorder queue from entry `i` on, as their first and last position. A hole that
is open, `inRun = false`, began at position `start`. -/
def holesFrom : ℕ → List (Option Buffer) → Bool → ℕ → List (ℕ × ℕ)
  | _, [], _, _ => []
  | i, some _ :: rest, true, start => holesFrom (i + 1) rest true start
  | i, none :: rest, true, _ => holesFrom (i + 1) rest false (i + 1)
  | i, some _ :: rest, false, start => (start, i) :: holesFrom (i + 1) rest true start
  | i, none :: rest, false, start => holesFrom (i + 1) rest false start

theorem requested_closeNack (start stop n : U16) :
    Requested (closeNack start stop) n ↔ (n - start).toNat ≤ (stop - start).toNat := by
  have hs := start.isLt
  have ht := stop.isLt
  have hn := n.isLt
  have hmax : (BitVec.allOnes 16).toNat = 65535 := by decide
  have hzero : (0 : U16).toNat = 0 := by decide
  rw [BitVec.toNat_sub, BitVec.toNat_sub, closeNack]
  split_ifs with h
  · rw [BitVec.lt_def] at h
    simp only [requested_cons, requested_nil, or_false, Nack.names, BitVec.le_def, hmax, hzero]
    omega
  · rw [BitVec.lt_def] at h
    simp only [requested_cons, requested_nil, or_false, Nack.names, BitVec.le_def]
    omega

theorem closeNack_le {start stop : U16} {r : Nack} (h : r ∈ closeNack start stop) :
    r.start ≤ r.stop := by
  rw [closeNack] at h
  split_ifs at h with hlt
  · simp only [List.mem_cons, List.not_mem_nil, or_false] at h
    rcases h with rfl | rfl
    · exact Child.le_allOnes start
    · exact Nat.zero_le stop.toNat
  · rw [List.mem_singleton.1 h]
    exact BitVec.not_lt.1 hlt

theorem length_closeNack (start stop : U16) :
    (closeNack start stop).length = if stop < start then 2 else 1 := by
  rw [closeNack]
  split_ifs <;> rfl

theorem getLast?_closeNack (start stop : U16) :
    ∃ r, (closeNack start stop).getLast? = some r ∧ r.stop = stop := by
  rw [closeNack]
  split_ifs
  · exact ⟨_, rfl, rfl⟩
  · exact ⟨_, rfl, rfl⟩

section Holes

variable {i start : ℕ} {queue : List (Option Buffer)}

theorem holesFrom_open (hne : queue ≠ []) (hlast : queue.getLast? ≠ some none) :
    ∃ stop hs, holesFrom i queue false start = (start, stop) :: hs := by
  induction queue generalizing i with
  | nil => exact absurd rfl hne
  | cons b rest ih =>
      cases b with
      | some b => exact ⟨i, _, rfl⟩
      | none =>
          have hrest : rest ≠ [] := by
            rintro rfl
            exact hlast rfl
          exact ih hrest (Reordered.getLast?_tail hlast)

theorem holesFrom_run (start' : ℕ) :
    holesFrom i queue true start = holesFrom i queue true start' := by
  induction queue generalizing i with
  | nil => rfl
  | cons b rest ih =>
      cases b with
      | none => rfl
      | some b => exact ih

theorem holesFrom_bounds {inRun : Bool} (hstart : start ≤ i) {h : ℕ × ℕ}
    (hh : h ∈ holesFrom i queue inRun start) :
    start ≤ h.1 ∧ h.1 ≤ h.2 ∧ h.2 < i + queue.length := by
  induction queue generalizing i start inRun with
  | nil => cases hh
  | cons b rest ih =>
      rw [List.length_cons]
      cases b <;> cases inRun
      · have := ih (Nat.le_succ_of_le hstart) hh
        omega
      · have := ih le_rfl hh
        omega
      · rcases List.mem_cons.1 hh with rfl | hh
        · exact ⟨le_rfl, hstart, by omega⟩
        · have := ih (Nat.le_succ_of_le hstart) hh
          omega
      · have := ih (Nat.le_succ_of_le hstart) hh
        omega

theorem holesFrom_pairwise {inRun : Bool} (hstart : start ≤ i) :
    (holesFrom i queue inRun start).Pairwise (fun h h' => h.2 < h'.1) := by
  induction queue generalizing i start inRun with
  | nil => exact List.Pairwise.nil
  | cons b rest ih =>
      cases b <;> cases inRun
      · exact ih (Nat.le_succ_of_le hstart)
      · exact ih le_rfl
      · refine List.pairwise_cons.2 ⟨fun h hh => ?_, ih (Nat.le_succ_of_le hstart)⟩
        rw [holesFrom_run (i + 1)] at hh
        exact (holesFrom_bounds le_rfl hh).1
      · exact ih (Nat.le_succ_of_le hstart)

theorem exists_hole {inRun : Bool} {m : ℕ} (hlast : queue.getLast? ≠ some none)
    (hm : inRun = false ∧ start ≤ m ∧ m ≤ i ∧ queue ≠ [] ∨
      ∃ k, queue[k]? = some none ∧ m = i + k + 1) (hstart : start ≤ i) :
    ∃ h ∈ holesFrom i queue inRun start, h.1 ≤ m ∧ m ≤ h.2 := by
  induction queue generalizing i start inRun with
  | nil =>
      rcases hm with ⟨-, -, -, hne⟩ | ⟨k, hk, -⟩
      · exact absurd rfl hne
      · cases hk
  | cons b rest ih =>
      have hlast' := Reordered.getLast?_tail hlast
      have hrest : b = none → rest ≠ [] := by
        rintro rfl rfl
        exact hlast rfl
      have hlater : ∀ k, (b :: rest)[k + 1]? = some none → m = i + (k + 1) + 1 →
          ∃ k, rest[k]? = some none ∧ m = i + 1 + k + 1 :=
        fun k hk hmk => ⟨k, hk, by omega⟩
      cases b with
      | none =>
          cases inRun with
          | false =>
              apply ih hlast' _ (Nat.le_succ_of_le hstart)
              rcases hm with ⟨-, hlo, hhi, -⟩ | ⟨k, hk, hmk⟩
              · exact Or.inl ⟨rfl, hlo, by omega, hrest rfl⟩
              · cases k with
                | zero => exact Or.inl ⟨rfl, by omega, by omega, hrest rfl⟩
                | succ k => exact Or.inr (hlater k hk hmk)
          | true =>
              apply ih hlast' _ le_rfl
              rcases hm with ⟨hrun, -⟩ | ⟨k, hk, hmk⟩
              · cases hrun
              · cases k with
                | zero => exact Or.inl ⟨rfl, by omega, by omega, hrest rfl⟩
                | succ k => exact Or.inr (hlater k hk hmk)
      | some b =>
          have hnext : (∃ k, (some b :: rest)[k]? = some none ∧ m = i + k + 1) →
              ∃ k, rest[k]? = some none ∧ m = i + 1 + k + 1 := by
            rintro ⟨k, hk, hmk⟩
            cases k with
            | zero => cases hk
            | succ k => exact hlater k hk hmk
          cases inRun with
          | false =>
              rcases hm with ⟨-, hlo, hhi, -⟩ | hm
              · exact ⟨(start, i), List.mem_cons_self, hlo, hhi⟩
              · obtain ⟨h, hh, hmem⟩ := ih hlast' (Or.inr (hnext hm))
                  (Nat.le_succ_of_le hstart)
                exact ⟨h, List.mem_cons_of_mem _ hh, hmem⟩
          | true =>
              rcases hm with ⟨hrun, -⟩ | hm
              · cases hrun
              · exact ih hlast' (Or.inr (hnext hm)) (Nat.le_succ_of_le hstart)

end Holes

namespace Child

variable (c : Child)

/-- The holes of the reorder queue, beginning with the expected packet. -/
def holes : List (ℕ × ℕ) := holesFrom 0 c.recvBuffers false 0

/-- The entries of the nack array for a hole: two when it passes the highest number. -/
def width (h : ℕ × ℕ) : ℕ := if c.number h.2 < c.number h.1 then 2 else 1

/-- The holes for which there is room once `n` entries are used, and the ones left over. -/
def fit : ℕ → List (ℕ × ℕ) → List (ℕ × ℕ) × List (ℕ × ℕ)
  | _, [] => ([], [])
  | n, h :: hs =>
      if maxHoleNacks ≤ n then ([], h :: hs)
      else (h :: (fit (n + c.width h) hs).1, (fit (n + c.width h) hs).2)

def fitting : List (ℕ × ℕ) := (c.fit 0 c.holes).1

def leftOver : List (ℕ × ℕ) := (c.fit 0 c.holes).2

def closed (hs : List (ℕ × ℕ)) : List Nack :=
  hs.flatMap (fun h => closeNack (c.number h.1) (c.number h.2))

theorem length_closed (hs : List (ℕ × ℕ)) : (c.closed hs).length = (hs.map c.width).sum := by
  induction hs with
  | nil => rfl
  | cons h hs ih =>
      rw [closed, List.flatMap_cons, List.length_append, length_closeNack, List.map_cons,
        List.sum_cons, ← ih]
      rfl

theorem fit_append (n : ℕ) (hs : List (ℕ × ℕ)) : (c.fit n hs).1 ++ (c.fit n hs).2 = hs := by
  induction hs generalizing n with
  | nil => rfl
  | cons h hs ih =>
      rw [fit]
      split_ifs
      · rfl
      · rw [List.cons_append, ih]

theorem fit_entries (n : ℕ) (hs : List (ℕ × ℕ)) (hn : n < maxHoleNacks) :
    n + ((c.fit n hs).1.map c.width).sum ≤ maxHoleNacks + 1 := by
  induction hs generalizing n with
  | nil =>
      simp only [fit, List.map_nil, List.sum_nil]
      omega
  | cons h hs ih =>
      have hw : c.width h ≤ 2 := by
        rw [width]
        split_ifs <;> omega
      rw [fit, if_neg (by omega), List.map_cons, List.sum_cons]
      by_cases hfull : n + c.width h < maxHoleNacks
      · have := ih (n + c.width h) hfull
        omega
      · have hnil : (c.fit (n + c.width h) hs).1 = [] := by
          cases hs with
          | nil => rfl
          | cons h' hs => rw [fit, if_pos (by omega)]
        rw [hnil, List.map_nil, List.sum_nil]
        omega

theorem nackHoles_eq {i start : ℕ} {queue : List (Option Buffer)} {inRun : Bool}
    {acc : List Nack} (hlast : queue.getLast? ≠ some none) :
    ∃ next, nackHoles c.sequence i queue inRun acc (c.number start) =
        (acc ++ c.closed (c.fit acc.length (holesFrom i queue inRun start)).1, next,
          (c.fit acc.length (holesFrom i queue inRun start)).2.isEmpty) ∧
      ∀ h, (c.fit acc.length (holesFrom i queue inRun start)).2.head? = some h →
        next = c.number h.1 := by
  induction queue generalizing i start inRun acc with
  | nil =>
      refine ⟨c.number start, by simp [nackHoles, holesFrom, fit, closed], ?_⟩
      intro h hh
      cases hh
  | cons b rest ih =>
      have hlast' := Reordered.getLast?_tail hlast
      have hfull : ∀ stop hs, maxHoleNacks ≤ acc.length →
          c.fit acc.length ((start, stop) :: hs) = ([], (start, stop) :: hs) :=
        fun stop hs hle => if_pos hle
      cases b with
      | none =>
          cases inRun with
          | true =>
              rw [nackHoles, holesFrom, show c.sequence + BitVec.ofNat 16 i + 1 = c.number (i + 1) by
                rw [number, Reordered.add_ofNat_succ]
                abel]
              exact ih hlast'
          | false =>
              rw [nackHoles, holesFrom]
              by_cases hle : maxHoleNacks ≤ acc.length
              · have hrest : rest ≠ [] := by
                  rintro rfl
                  exact hlast rfl
                obtain ⟨stop, hs, hopen⟩ := holesFrom_open hrest hlast'
                rw [if_pos hle, hopen, hfull stop hs hle]
                refine ⟨c.number start, by simp [closed], ?_⟩
                intro h hh
                rw [← Option.some.inj hh]
              · rw [if_neg hle]
                exact ih hlast'
      | some b =>
          cases inRun with
          | true => exact ih hlast'
          | false =>
              rw [nackHoles, holesFrom]
              by_cases hle : maxHoleNacks ≤ acc.length
              · rw [if_pos hle, hfull i _ hle]
                refine ⟨c.number start, by simp [closed], ?_⟩
                intro h hh
                rw [← Option.some.inj hh]
              · rw [if_neg hle]
                have hlen : (acc ++ closeNack (c.number start) (c.number i)).length =
                    acc.length + c.width (start, i) := by
                  rw [List.length_append, length_closeNack]
                  rfl
                have hfit : c.fit acc.length ((start, i) :: holesFrom (i + 1) rest true start) =
                    ((start, i) :: (c.fit (acc.length + c.width (start, i))
                        (holesFrom (i + 1) rest true start)).1,
                      (c.fit (acc.length + c.width (start, i))
                        (holesFrom (i + 1) rest true start)).2) := if_neg hle
                obtain ⟨next, heq, hnext⟩ := @ih (i + 1) start true
                  (acc ++ closeNack (c.number start) (c.number i)) hlast'
                rw [hlen] at heq hnext
                rw [hfit]
                refine ⟨next, heq.trans ?_, hnext⟩
                rw [closed, closed, List.flatMap_cons, List.append_assoc]

theorem getLast?_closed {hs : List (ℕ × ℕ)} {h : ℕ × ℕ} (hlast : hs.getLast? = some h) :
    ∃ r, (c.closed hs).getLast? = some r ∧ r.stop = c.number h.2 := by
  obtain ⟨init, rfl⟩ := List.getLast?_eq_some_iff.1 hlast
  obtain ⟨r, hr, hstop⟩ := getLast?_closeNack (c.number h.1) (c.number h.2)
  refine ⟨r, ?_, hstop⟩
  rw [closed, List.flatMap_append, List.flatMap_singleton, List.getLast?_append, hr]
  rfl

/-- The range that is closed last: from the first hole left over, or behind the last hole, or from
the expected number when there is no hole at all. -/
def lastRange (numBuffers : ℕ) (reqID : U16) : List Nack :=
  match c.leftOver.head?, c.fitting.getLast? with
  | some h, _ => [⟨c.number h.1, reqID⟩]
  | none, some h =>
      if (reqID - c.number h.2).toNat < numBuffers then [⟨c.number (h.2 + 1), reqID⟩] else []
  | none, none => [⟨c.sequence, reqID⟩]

/-- The ranges `_handleAckRequest` closes, before they are split at the highest number. -/
def ranges (numBuffers : ℕ) (reqID : U16) : List Nack :=
  c.fitting.map (fun h => ⟨c.number h.1, c.number h.2⟩) ++ c.lastRange numBuffers reqID

theorem number_zero : c.number 0 = c.sequence := by
  rw [number]
  exact add_zero _

theorem ackRequestNacks_eq (numBuffers : ℕ) (reqID : U16)
    (hlast : c.recvBuffers.getLast? ≠ some none) :
    ackRequestNacks numBuffers c.sequence reqID c.recvBuffers =
      (c.ranges numBuffers reqID).flatMap (fun r => closeNack r.start r.stop) := by
  have hranges : (c.ranges numBuffers reqID).flatMap (fun r => closeNack r.start r.stop) =
      c.closed c.fitting ++
        (c.lastRange numBuffers reqID).flatMap (fun r => closeNack r.start r.stop) := by
    rw [ranges, List.flatMap_append, List.flatMap_map, closed]
  rw [hranges]
  by_cases hempty : c.recvBuffers = []
  · have hholes : c.holes = [] := by rw [holes, hempty]; rfl
    simp [ackRequestNacks, hempty, nackHoles, lastRange, leftOver, fitting, hholes, fit, closed]
  obtain ⟨next, heq, hnext⟩ := @nackHoles_eq c 0 0 c.recvBuffers false [] hlast
  rw [number_zero] at heq
  have heq' : nackHoles c.sequence 0 c.recvBuffers false [] c.sequence =
      (c.closed c.fitting, next, c.leftOver.isEmpty) := heq
  rw [ackRequestNacks, heq', lastRange]
  cases hleft : c.leftOver with
  | cons h hs =>
      have hh : next = c.number h.1 := hnext h (by
        change c.leftOver.head? = some h
        rw [hleft]
        rfl)
      simp [hh]
  | nil =>
      have hfit : c.fitting = c.holes := by
        have happ := c.fit_append 0 c.holes
        change c.fitting ++ c.leftOver = c.holes at happ
        rwa [hleft, List.append_nil] at happ
      obtain ⟨stop, hs, hopen⟩ := @holesFrom_open 0 0 c.recvBuffers hempty hlast
      have hne : c.fitting ≠ [] := by
        rw [hfit, holes, hopen]
        exact List.cons_ne_nil _ _
      obtain ⟨h, hh⟩ := Option.ne_none_iff_exists'.1 (mt List.getLast?_eq_none_iff.1 hne)
      obtain ⟨r, hr, hstop⟩ := c.getLast?_closed hh
      have hclosed : c.closed c.fitting ≠ [] := by
        intro hnil
        rw [hnil] at hr
        cases hr
      have hsucc : r.stop + 1 = c.number (h.2 + 1) := by
        rw [hstop, number, number, Reordered.add_ofNat_succ]
        abel
      simp only [List.isEmpty_nil, hclosed, or_false, Bool.true_eq_false, if_false, hr, hh,
        List.head?_nil]
      rw [hstop, ← hsucc, hstop]
      split_ifs
      · rw [List.flatMap_singleton]
      · rw [List.flatMap_nil, List.append_nil]

/-- The position at which the last range begins, if there is one. -/
def lastStart (numBuffers : ℕ) (reqID : U16) : Option ℕ :=
  match c.leftOver.head?, c.fitting.getLast? with
  | some h, _ => some h.1
  | none, some h => if (reqID - c.number h.2).toNat < numBuffers then some (h.2 + 1) else none
  | none, none => some 0

theorem lastRange_eq (numBuffers : ℕ) (reqID : U16) : c.lastRange numBuffers reqID =
    ((c.lastStart numBuffers reqID).map (fun a => (⟨c.number a, reqID⟩ : Nack))).toList := by
  rw [lastRange, lastStart]
  cases c.leftOver.head? with
  | some h => rfl
  | none =>
      cases c.fitting.getLast? with
      | none =>
          rw [← c.number_zero]
          rfl
      | some h =>
          simp only
          split_ifs <;> rfl

/-- The position of a number, counted from the expected one. -/
def position (n : U16) : ℕ := (n - c.sequence).toNat

theorem position_lt (n : U16) : c.position n < 65536 := (n - c.sequence).isLt

theorem number_position (n : U16) : c.number (c.position n) = n := by
  rw [number, position, BitVec.ofNat_toNat, BitVec.setWidth_eq]
  abel

theorem position_number {m : ℕ} (hm : m < 65536) : c.position (c.number m) = m := by
  have hs := c.sequence.isLt
  rw [position, BitVec.toNat_sub, toNat_number]
  omega

theorem toNat_number_sub (m a : ℕ) (hm : m < 65536) (ha : a < 65536) :
    (c.number m - c.number a).toNat = if a ≤ m then m - a else 65536 - (a - m) := by
  have hs := c.sequence.isLt
  rw [BitVec.toNat_sub, toNat_number, toNat_number]
  split_ifs <;> omega

theorem requested_between {a b : ℕ} (hab : a ≤ b) (hb : b < 65536) (n : U16) :
    Requested (closeNack (c.number a) (c.number b)) n ↔ a ≤ c.position n ∧ c.position n ≤ b := by
  have hn := c.position_lt n
  have hsub := c.toNat_number_sub (c.position n) a hn (by omega)
  rw [number_position] at hsub
  rw [requested_closeNack, hsub, c.toNat_number_sub b a hb (by omega)]
  split_ifs <;> omega

theorem requested_around {a b : ℕ} (hab : b < a) (ha : a < 65536) (n : U16) :
    Requested (closeNack (c.number a) (c.number b)) n ↔ a ≤ c.position n ∨ c.position n ≤ b := by
  have hn := c.position_lt n
  have hsub := c.toNat_number_sub (c.position n) a hn ha
  rw [number_position] at hsub
  rw [requested_closeNack, hsub, c.toNat_number_sub b a (by omega) ha]
  split_ifs <;> omega

variable {c} {numBuffers : ℕ} {reqID : U16}

theorem mem_holes_of_fitting {h : ℕ × ℕ} (hh : h ∈ c.fitting) : h ∈ c.holes := by
  rw [← c.fit_append 0 c.holes]
  exact List.mem_append_left _ hh

theorem mem_holes_of_leftOver {h : ℕ × ℕ} (hh : h ∈ c.leftOver) : h ∈ c.holes := by
  rw [← c.fit_append 0 c.holes]
  exact List.mem_append_right _ hh

theorem holes_bounds {h : ℕ × ℕ} (hh : h ∈ c.holes) :
    h.1 ≤ h.2 ∧ h.2 < c.recvBuffers.length := by
  have := (holesFrom_bounds le_rfl hh).2
  omega

theorem lastStart_le {a : ℕ} (h : c.lastStart numBuffers reqID = some a) :
    a ≤ c.recvBuffers.length := by
  rw [lastStart] at h
  cases hleft : c.leftOver.head? with
  | some hole =>
      have hb := holes_bounds (mem_holes_of_leftOver (List.mem_of_head? hleft))
      simp only [hleft, Option.some.injEq] at h
      omega
  | none =>
      cases hlast : c.fitting.getLast? with
      | none =>
          simp only [hleft, hlast, Option.some.injEq] at h
          omega
      | some hole =>
          have hb := holes_bounds (mem_holes_of_fitting (List.mem_of_getLast? hlast))
          simp only [hleft, hlast, Option.ite_none_right_eq_some, Option.some.injEq] at h
          omega

theorem requested_ackRequestNacks (hlast : c.recvBuffers.getLast? ≠ some none) (n : U16) :
    Requested (ackRequestNacks numBuffers c.sequence reqID c.recvBuffers) n ↔
      (∃ h ∈ c.fitting, Requested (closeNack (c.number h.1) (c.number h.2)) n) ∨
      ∃ a, c.lastStart numBuffers reqID = some a ∧
        Requested (closeNack (c.number a) reqID) n := by
  rw [c.ackRequestNacks_eq numBuffers reqID hlast, ranges, lastRange_eq]
  simp only [Requested, List.mem_flatMap, List.mem_append, List.mem_map, Option.mem_toList,
    Option.map_eq_some_iff]
  constructor
  · rintro ⟨r, ⟨range, ⟨h, hh, rfl⟩ | ⟨a, ha, rfl⟩, hr⟩, hn⟩
    · exact Or.inl ⟨h, hh, r, hr, hn⟩
    · exact Or.inr ⟨a, ha, r, hr, hn⟩
  · rintro (⟨h, hh, r, hr, hn⟩ | ⟨a, ha, r, hr, hn⟩)
    · exact ⟨r, ⟨_, Or.inl ⟨h, hh, rfl⟩, hr⟩, hn⟩
    · exact ⟨r, ⟨_, Or.inr ⟨a, ha, rfl⟩, hr⟩, hn⟩

/-- The packet at a position has not been received. -/
def Missing (c : Child) (m : ℕ) : Prop := m = 0 ∨ ∃ k, m = k + 1 ∧ c.received k = false

/-- What the nacks for an ack request should be: they fit the array, are ranges, and ask for
everything that is missing up to the requested number. -/
structure NacksComplete (c : Child) (numBuffers : ℕ) (reqID : U16) : Prop where
  fits : (ackRequestNacks numBuffers c.sequence reqID c.recvBuffers).length ≤ maxHoleNacks + 2
  ordered : ∀ r ∈ ackRequestNacks numBuffers c.sequence reqID c.recvBuffers, r.start ≤ r.stop
  covers : ∀ m, m ≤ c.position reqID → c.Missing m →
    Requested (ackRequestNacks numBuffers c.sequence reqID c.recvBuffers) (c.number m)

/-- The array is not left with one free entry for a last range that begins, as a plain number,
behind the requested one. -/
def RoomForLast (c : Child) (numBuffers : ℕ) (reqID : U16) : Prop :=
  (c.fitting.map c.width).sum = maxHoleNacks + 1 →
    match c.leftOver.head?, c.fitting.getLast? with
    | some h, _ => c.number h.1 ≤ reqID
    | none, some h =>
        (reqID - c.number h.2).toNat < numBuffers → c.number (h.2 + 1) ≤ reqID
    | none, none => True

/-- The nacks ask for numbers up to the requested one or the newest packet received only, and a
range is split at the highest number only where it ends in the window. -/
structure NacksInside (c : Child) (numBuffers : ℕ) (reqID : U16) : Prop where
  window : ∀ n, Requested (ackRequestNacks numBuffers c.sequence reqID c.recvBuffers) n →
    c.position n ≤ max (c.position reqID) c.recvBuffers.length
  asserted : ∀ r ∈ c.ranges numBuffers reqID, r.stop < r.start → r.stop.toNat < numBuffers

/-- The first hole left over does not begin behind the requested packet, and the last hole is not
the one with the requested packet at its end. -/
def EndsBehindHoles (c : Child) (numBuffers : ℕ) (reqID : U16) : Prop :=
  match c.leftOver.head?, c.fitting.getLast? with
  | some h, _ => h.1 ≤ c.position reqID
  | none, some h => (reqID - c.number h.2).toNat < numBuffers → h.2 < c.position reqID
  | none, none => True

theorem position_reqID_lt (h : 1 ≤ (reqID - (c.sequence - 1)).toNat)
    (h' : (reqID - (c.sequence - 1)).toNat ≤ numBuffers) : c.position reqID < numBuffers := by
  have hsub : reqID - (c.sequence - 1) = reqID - c.sequence + 1 := by abel
  have hlt := c.position_lt reqID
  rw [hsub, BitVec.toNat_add, show (1 : U16).toNat = 1 by decide] at h h'
  change 1 ≤ (c.position reqID + 1) % 2 ^ 16 at h
  change (c.position reqID + 1) % 2 ^ 16 ≤ numBuffers at h'
  omega

/-- The last range begins where its position says, so that it is right exactly when this is not
behind the requested packet. -/
theorem endsBehindHoles_iff : c.EndsBehindHoles numBuffers reqID ↔
    ∀ a, c.lastStart numBuffers reqID = some a → a ≤ c.position reqID := by
  rw [EndsBehindHoles, lastStart]
  cases c.leftOver.head? with
  | some h => simp
  | none =>
      cases c.fitting.getLast? with
      | none => simp
      | some h =>
          change ((reqID - c.number h.2).toNat < numBuffers → h.2 < c.position reqID) ↔
            ∀ a, (if (reqID - c.number h.2).toNat < numBuffers then some (h.2 + 1) else none) =
              some a → a ≤ c.position reqID
          by_cases hnear : (reqID - c.number h.2).toNat < numBuffers
          · rw [if_pos hnear]
            exact ⟨fun hlt a ha => Option.some.inj ha ▸ hlt hnear, fun hle _ => hle _ rfl⟩
          · rw [if_neg hnear]
            exact ⟨fun _ a ha => (by cases ha), fun _ hlt => absurd hlt hnear⟩

theorem roomForLast_iff : c.RoomForLast numBuffers reqID ↔
    ((c.fitting.map c.width).sum = maxHoleNacks + 1 →
      ∀ a, c.lastStart numBuffers reqID = some a → c.number a ≤ reqID) := by
  rw [RoomForLast, lastStart]
  cases c.leftOver.head? with
  | some h => simp
  | none =>
      cases hlast : c.fitting.getLast? with
      | none =>
          rw [List.getLast?_eq_none_iff.1 hlast]
          simp [maxHoleNacks]
      | some h => simp

theorem length_ackRequestNacks (hlast : c.recvBuffers.getLast? ≠ some none) :
    (ackRequestNacks numBuffers c.sequence reqID c.recvBuffers).length =
      (c.fitting.map c.width).sum + (match c.lastStart numBuffers reqID with
        | none => 0
        | some a => if reqID < c.number a then 2 else 1) := by
  rw [c.ackRequestNacks_eq numBuffers reqID hlast, ranges, List.flatMap_append, List.flatMap_map,
    List.length_append, lastRange_eq, ← c.length_closed]
  cases c.lastStart numBuffers reqID with
  | none => rfl
  | some a =>
      simp only [Option.map_some, Option.toList_some, List.flatMap_singleton, length_closeNack]
      rfl

theorem fits_iff (hlast : c.recvBuffers.getLast? ≠ some none) :
    (ackRequestNacks numBuffers c.sequence reqID c.recvBuffers).length ≤ maxHoleNacks + 2 ↔
      c.RoomForLast numBuffers reqID := by
  have hsum := c.fit_entries 0 c.holes (by decide)
  change 0 + (c.fitting.map c.width).sum ≤ maxHoleNacks + 1 at hsum
  rw [length_ackRequestNacks hlast, roomForLast_iff]
  cases c.lastStart numBuffers reqID with
  | none =>
      simp only [reduceCtorEq, false_implies, implies_true, iff_true]
      omega
  | some a =>
      simp only [Option.some.injEq, forall_eq']
      rw [← BitVec.not_lt]
      split_ifs with hlt
      · simp only [hlt, not_true_eq_false, imp_false]
        omega
      · simp only [hlt, not_false_eq_true, implies_true, iff_true]
        omega

/-- The last range begins no later than behind the newest packet received. -/
theorem lastStart_of_beyond {m : ℕ} (hm : c.recvBuffers.length ≤ m)
    (hreq : m ≤ c.position reqID) (hlt : c.position reqID < numBuffers) :
    ∃ a, c.lastStart numBuffers reqID = some a ∧ a ≤ m := by
  rw [lastStart]
  cases hleft : c.leftOver.head? with
  | some h =>
      have hb := holes_bounds (mem_holes_of_leftOver (List.mem_of_head? hleft))
      exact ⟨h.1, rfl, by omega⟩
  | none =>
      cases hlast : c.fitting.getLast? with
      | none => exact ⟨0, rfl, Nat.zero_le m⟩
      | some h =>
          have hb := holes_bounds (mem_holes_of_fitting (List.mem_of_getLast? hlast))
          have hp := c.position_lt reqID
          have hsub := c.toNat_number_sub (c.position reqID) h.2 hp (by omega)
          rw [number_position, if_pos (by omega)] at hsub
          refine ⟨h.2 + 1, ?_, by omega⟩
          simp only
          rw [if_pos (by omega)]

theorem lastStart_of_leftOver {h : ℕ × ℕ} (hh : h ∈ c.leftOver) :
    ∃ a, c.lastStart numBuffers reqID = some a ∧ a ≤ h.1 := by
  rw [lastStart]
  have hsorted : c.leftOver.Pairwise (fun h h' => h.2 < h'.1) := by
    have hp : c.holes.Pairwise (fun h h' => h.2 < h'.1) := holesFrom_pairwise le_rfl
    rw [← c.fit_append 0 c.holes] at hp
    exact (List.pairwise_append.1 hp).2.1
  cases hleft : c.leftOver with
  | nil =>
      rw [hleft] at hh
      cases hh
  | cons first rest =>
      refine ⟨first.1, rfl, ?_⟩
      rw [hleft] at hh hsorted
      have hb := holes_bounds (@mem_holes_of_leftOver c first (by
        rw [hleft]
        exact List.mem_cons_self))
      rcases List.mem_cons.1 hh with rfl | hh
      · exact le_rfl
      · have := (List.pairwise_cons.1 hsorted).1 h hh
        omega

theorem requested_of_lastStart {a m : ℕ} (hlast : c.recvBuffers.getLast? ≠ some none)
    (ha : c.lastStart numBuffers reqID = some a) (ham : a ≤ m) (hm : m ≤ c.position reqID) :
    Requested (ackRequestNacks numBuffers c.sequence reqID c.recvBuffers) (c.number m) := by
  rw [requested_ackRequestNacks hlast]
  have hp := c.position_lt reqID
  refine Or.inr ⟨a, ha, ?_⟩
  rw [← c.number_position reqID, c.requested_between (by omega) hp, position_number c (by omega)]
  exact ⟨ham, hm⟩

theorem requested_of_missing (hr : Reordered numBuffers c) (hbuf : numBuffers < 2 ^ 16) {m : ℕ}
    (hlt : c.position reqID < numBuffers) (hm : m ≤ c.position reqID) (hmiss : c.Missing m) :
    Requested (ackRequestNacks numBuffers c.sequence reqID c.recvBuffers) (c.number m) := by
  have hlen := hr.length
  rcases Nat.lt_or_ge m c.recvBuffers.length with hin | hbeyond
  · have hhole : ∃ h ∈ c.holes, h.1 ≤ m ∧ m ≤ h.2 := by
      apply exists_hole hr.last _ le_rfl
      rcases hmiss with rfl | ⟨k, rfl, hk⟩
      · exact Or.inl ⟨rfl, le_rfl, le_rfl, List.ne_nil_of_length_pos hin⟩
      · refine Or.inr ⟨k, ?_, by omega⟩
        have hklt : k < c.recvBuffers.length := by omega
        rw [received, List.getElem?_eq_getElem hklt] at hk
        rw [List.getElem?_eq_getElem hklt]
        simpa using hk
    obtain ⟨h, hh, hlo, hhi⟩ := hhole
    have hb := holes_bounds hh
    have hmem := hh
    rw [← c.fit_append 0 c.holes] at hmem
    rcases List.mem_append.1 hmem with hfit | hleft
    · rw [requested_ackRequestNacks hr.last]
      refine Or.inl ⟨h, hfit, ?_⟩
      rw [c.requested_between hb.1 (by omega), position_number c (by omega)]
      exact ⟨hlo, hhi⟩
    · obtain ⟨a, ha, hle⟩ := @lastStart_of_leftOver c numBuffers reqID h hleft
      exact requested_of_lastStart hr.last ha (hle.trans hlo) hm
  · obtain ⟨a, ha, hle⟩ := lastStart_of_beyond hbeyond hm hlt
    exact requested_of_lastStart hr.last ha hle hm

end Child

/-- A reader that has received the packets at the given entries of its queue. -/
def Child.holding (cfg : Config) (sequence : U16) (present : ℕ → Bool) (n : ℕ) : Child :=
  { Child.new cfg 3 sequence with
    recvBuffers := (List.range n).map (fun i =>
      if present i then some ⟨i, ⟨0, 3, sequence + 1 + BitVec.ofNat 16 i, []⟩⟩ else none) }

theorem reordered_holding {cfg : Config} (sequence : U16) {present : ℕ → Bool} {n : ℕ}
    (hn : n + 1 ≤ cfg.numBuffers) (hlast : present n = true) :
    Reordered cfg.numBuffers (Child.holding cfg sequence present (n + 1)) where
  held := by
    intro i b hb
    simp only [Child.holding, List.getElem?_map, Option.map_eq_some_iff] at hb
    obtain ⟨j, hj, hb⟩ := hb
    have hij : j = i := by
      have hlt : i < n + 1 := by
        rw [← @List.length_range (n + 1)]
        exact (List.getElem?_eq_some_iff.1 hj).1
      rw [List.getElem?_range hlt] at hj
      exact (Option.some.inj hj).symm
    split_ifs at hb
    rw [← Option.some.inj hb, hij]
    rfl
  last := by
    simp [Child.holding, List.range_succ, hlast]
  length := by simpa [Child.holding] using hn

/-- The nacks for an ack request are complete exactly when the last range has room. -/
theorem ack_request_nacks_complete_iff (cfg : Config) (c : Child) (reqID : U16)
    (hr : Reordered cfg.numBuffers c) (hpos : 1 ≤ (reqID - (c.sequence - 1)).toNat)
    (hle : (reqID - (c.sequence - 1)).toNat ≤ cfg.numBuffers) :
    c.NacksComplete cfg.numBuffers reqID ↔ c.RoomForLast cfg.numBuffers reqID := by
  have hlt := Child.position_reqID_lt hpos hle
  rw [← Child.fits_iff hr.last]
  constructor
  · exact Child.NacksComplete.fits
  · intro hfits
    refine ⟨hfits, ?_, ?_⟩
    · intro r hmem
      rw [c.ackRequestNacks_eq cfg.numBuffers reqID hr.last] at hmem
      obtain ⟨range, -, hmem⟩ := List.mem_flatMap.1 hmem
      exact closeNack_le hmem
    · exact fun m hm hmiss => Child.requested_of_missing hr cfg.numBuffers_lt hlt hm hmiss

/-- Packet 12 was received while 10 is expected, and 14 is asked for. -/
theorem ack_request_nacks_complete_iff_one_hole :
    (Child.holding (.tiny 8) 10 (fun i => i == 1) 2).NacksComplete 8 14 :=
  (ack_request_nacks_complete_iff (.tiny 8) (Child.holding (.tiny 8) 10 (fun i => i == 1) 2) 14
    (reordered_holding 10 (by decide) (by decide)) (by decide) (by decide)).2
    (fun h => absurd h (by decide))

/-- With 298 holes of which the last one passes the highest number and ends at the requested
packet, 301 nacks are written. -/
theorem ack_request_overflows_nacks :
    ∃ c reqID, Reordered (Config.tiny 1024).numBuffers c ∧
      1 ≤ (reqID - (c.sequence - 1)).toNat ∧
      (reqID - (c.sequence - 1)).toNat ≤ (Config.tiny 1024).numBuffers ∧
      ¬ c.NacksComplete (Config.tiny 1024).numBuffers reqID := by
  let c := Child.holding (.tiny 1024) 64941 (fun i => (i % 2 == 0 && i != 594) || i == 595) 596
  have hr : Reordered (Config.tiny 1024).numBuffers c :=
    reordered_holding 64941 (by decide) (by decide)
  refine ⟨c, 0, hr, by decide, by decide, ?_⟩
  intro h
  have hentries : (c.fitting.map c.width).sum = 299 := by decide +kernel
  have hstart : c.lastStart 1024 0 = some 596 := by decide +kernel
  have hlen := @Child.length_ackRequestNacks c 1024 0 hr.last
  have hwraps : (0 : U16) < c.number 596 := by decide
  rw [hentries, hstart] at hlen
  simp only [if_pos hwraps] at hlen
  have hfits := h.fits
  change (ackRequestNacks 1024 c.sequence 0 c.recvBuffers).length ≤ 300 at hfits
  omega

namespace Child

variable {c : Child} {numBuffers : ℕ} {reqID : U16}

theorem toNat_lt_of_wrap {a b : ℕ} (hab : a ≤ b) (hb : b < 65536)
    (hlt : c.number b < c.number a) : (c.number b).toNat < b := by
  have hs := c.sequence.isLt
  rw [BitVec.lt_def, toNat_number, toNat_number] at hlt
  rw [toNat_number]
  omega

theorem nacksInside_of_endsBehind (hr : Reordered numBuffers c) (hbuf : numBuffers < 2 ^ 16)
    (hlt : c.position reqID < numBuffers) (h : c.EndsBehindHoles numBuffers reqID) :
    c.NacksInside numBuffers reqID := by
  rw [endsBehindHoles_iff] at h
  have hlen := hr.length
  have hp := c.position_lt reqID
  constructor
  · intro n hn
    rcases (requested_ackRequestNacks hr.last n).1 hn with ⟨hole, hh, hn⟩ | ⟨a, ha, hn⟩
    · have hb := holes_bounds (mem_holes_of_fitting hh)
      rw [c.requested_between hb.1 (by omega)] at hn
      omega
    · rw [← c.number_position reqID, c.requested_between (h a ha) hp] at hn
      omega
  · intro range hrange hwrap
    rw [ranges, lastRange_eq] at hrange
    rcases List.mem_append.1 hrange with hrange | hrange
    · obtain ⟨hole, hh, rfl⟩ := List.mem_map.1 hrange
      have hb := holes_bounds (mem_holes_of_fitting hh)
      have := toNat_lt_of_wrap hb.1 (by omega) hwrap
      simp only
      omega
    · obtain ⟨a, ha, rfl⟩ := Option.map_eq_some_iff.1 (Option.mem_toList.1 hrange)
      have hwrap' : c.number (c.position reqID) < c.number a := by
        rw [number_position]
        exact hwrap
      have hstop := toNat_lt_of_wrap (h a ha) hp hwrap'
      rw [number_position] at hstop
      simp only
      omega

/-- A last range that begins behind the requested packet asks for the number before the expected
one. -/
theorem endsBehind_of_nacksInside (hr : Reordered numBuffers c) (hbuf : numBuffers < 2 ^ 16)
    (hlen : c.recvBuffers.length ≠ 65535) (h : c.NacksInside numBuffers reqID) :
    c.EndsBehindHoles numBuffers reqID := by
  rw [endsBehindHoles_iff]
  intro a ha
  by_contra hgt
  have hle := lastStart_le ha
  have hlen' := hr.length
  have hn : Requested (ackRequestNacks numBuffers c.sequence reqID c.recvBuffers)
      (c.number 65535) := by
    rw [requested_ackRequestNacks hr.last]
    refine Or.inr ⟨a, ha, ?_⟩
    rw [← c.number_position reqID, c.requested_around (not_le.1 hgt) (by omega),
      position_number c (by decide)]
    omega
  have hwindow := h.window _ hn
  rw [position_number c (by decide)] at hwindow
  omega

theorem nacksInside_of_full (hr : Reordered numBuffers c)
    (hlen : c.recvBuffers.length = 65535) : c.NacksInside numBuffers reqID := by
  have hlen' := hr.length
  constructor
  · intro n _
    have := c.position_lt n
    omega
  · intro range _ hwrap
    have := range.start.isLt
    rw [BitVec.lt_def] at hwrap
    omega

end Child

/-- The nacks for an ack request stay inside the window exactly when the last range does not begin
behind the requested packet. A queue of all other numbers leaves nothing outside. -/
theorem ack_request_nacks_inside_iff (cfg : Config) (c : Child) (reqID : U16)
    (hr : Reordered cfg.numBuffers c) (hpos : 1 ≤ (reqID - (c.sequence - 1)).toNat)
    (hle : (reqID - (c.sequence - 1)).toNat ≤ cfg.numBuffers) :
    c.NacksInside cfg.numBuffers reqID ↔
      c.recvBuffers.length = 65535 ∨ c.EndsBehindHoles cfg.numBuffers reqID := by
  have hlt := Child.position_reqID_lt hpos hle
  constructor
  · intro h
    by_cases hlen : c.recvBuffers.length = 65535
    · exact Or.inl hlen
    · exact Or.inr (Child.endsBehind_of_nacksInside hr cfg.numBuffers_lt hlen h)
  · rintro (hlen | h)
    · exact Child.nacksInside_of_full hr hlen
    · exact Child.nacksInside_of_endsBehind hr cfg.numBuffers_lt hlt h

/-- Packet 12 was received while 10 is expected, and 14 is asked for. -/
theorem ack_request_nacks_inside_iff_one_hole :
    (Child.holding (.tiny 8) 10 (fun i => i == 1) 2).NacksInside 8 14 :=
  (ack_request_nacks_inside_iff (.tiny 8) (Child.holding (.tiny 8) 10 (fun i => i == 1) 2) 14
    (reordered_holding 10 (by decide) (by decide)) (by decide) (by decide)).2
    (Or.inr (fun _ => by decide))

/-- Packet 11 was received while 10 is expected. A request for 10 is answered by a nack for 11 up
to the highest number and from there on to 10. -/
theorem ack_request_spans_all :
    ∃ c reqID, Reordered (Config.tiny 8).numBuffers c ∧
      1 ≤ (reqID - (c.sequence - 1)).toNat ∧
      (reqID - (c.sequence - 1)).toNat ≤ (Config.tiny 8).numBuffers ∧
      ackRequestNacks 8 c.sequence reqID c.recvBuffers =
        [⟨10, 10⟩, ⟨11, 65535⟩, ⟨0, 10⟩] ∧
      ¬ c.NacksInside (Config.tiny 8).numBuffers reqID := by
  let c := Child.holding (.tiny 8) 10 (fun _ => true) 1
  refine ⟨c, 10, reordered_holding 10 (by decide) rfl, by decide, by decide, by decide, ?_⟩
  intro h
  have hwindow := h.window 500 ⟨⟨11, 65535⟩, by decide, by decide⟩
  revert hwindow
  decide

end Collage.Rsp
