import Collage.Rsp.Repeat
import Mathlib.Algebra.Ring.Int.Defs
import Mathlib.Algebra.BigOperators.Group.List.Basic
import Mathlib.Algebra.Order.Ring.Int
import Mathlib.Tactic.Common

/-!
# The queue of repeat requests

The numbers the queue asks for are the ones of its ranges. `_addRepeat` adds exactly the numbers
it is given. A range that lies inside a queued one widens nothing, so that it is not merged but
queued once more.
-/

namespace Collage.Rsp

def Requested (queue : List Nack) (n : U16) : Prop := ∃ r ∈ queue, r.names n

def Covered (queue nacks : List Nack) : Prop :=
  ∀ nack ∈ nacks, ∃ old ∈ queue, ∀ n, nack.names n → old.names n

/-- Requests that are covered change nothing and count no lost packet, and repeating a request
changes the queue no further. -/
def Absorbs (queue nacks : List Nack) : Prop :=
  (Covered queue nacks → addRepeat queue nacks = (queue, 0)) ∧
    (addRepeat (addRepeat queue nacks).1 nacks).1 = (addRepeat queue nacks).1

@[simp] theorem requested_nil (n : U16) : ¬ Requested [] n := by
  rintro ⟨r, hr, -⟩
  cases hr

@[simp] theorem requested_cons (r : Nack) (queue : List Nack) (n : U16) :
    Requested (r :: queue) n ↔ r.names n ∨ Requested queue n := by
  simp [Requested]

@[simp] theorem requested_append (p q : List Nack) (n : U16) :
    Requested (p ++ q) n ↔ Requested p n ∨ Requested q n := by
  simp [Requested, or_and_right, exists_or]

/-- A queued range after it has been widened by a nack. -/
def Nack.widen (old nack : Nack) : Nack where
  start := if nack.start < old.start then nack.start else old.start
  stop := if old.stop < nack.stop then nack.stop else old.stop

def Nack.growth (old nack : Nack) : ℕ :=
  (if nack.start < old.start then old.start.toNat - nack.start.toNat else 0) +
    if old.stop < nack.stop then nack.stop.toNat - old.stop.toNat else 0

/-- A nack overlaps a range without being covered by it. -/
def Nack.Widens (nack old : Nack) : Prop :=
  (old.start ≤ nack.stop ∧ nack.start ≤ old.stop) ∧
    (nack.start < old.start ∨ old.stop < nack.stop)

theorem mergeNack_eq_some {nack : Nack} {queue : List Nack} {r : List Nack × ℕ}
    (h : mergeNack nack queue = some r) :
    ∃ before old rest, queue = before ++ old :: rest ∧ nack.Widens old ∧
      r = (before ++ old.widen nack :: rest, old.growth nack) := by
  induction queue generalizing r with
  | nil => cases h
  | cons old rest ih =>
      by_cases hw : (old.start ≤ nack.stop ∧ nack.start ≤ old.stop) ∧
          (nack.start < old.start ∨ old.stop < nack.stop)
      · rw [mergeNack, if_pos hw] at h
        exact ⟨[], old, rest, rfl, hw, (Option.some.inj h).symm⟩
      · rw [mergeNack, if_neg hw] at h
        obtain ⟨r', hr', rfl⟩ := Option.map_eq_some_iff.1 h
        obtain ⟨before, old', rest', rfl, hw', rfl⟩ := ih hr'
        exact ⟨old :: before, old', rest', rfl, hw', rfl⟩

def addNack (queue : List Nack) (nack : Nack) : List Nack × ℕ :=
  match mergeNack nack queue with
  | some r => r
  | none => (queue ++ [nack], (nack.stop - nack.start).toNat + 1)

theorem addRepeat_cons (queue : List Nack) (nack : Nack) (nacks : List Nack) :
    addRepeat queue (nack :: nacks) =
      ((addRepeat (addNack queue nack).1 nacks).1,
        (addNack queue nack).2 + (addRepeat (addNack queue nack).1 nacks).2) := rfl

theorem addNack_cases (queue : List Nack) (nack : Nack) :
    (∃ before old rest, queue = before ++ old :: rest ∧ nack.Widens old ∧
      addNack queue nack = (before ++ old.widen nack :: rest, old.growth nack)) ∨
    addNack queue nack = (queue ++ [nack], (nack.stop - nack.start).toNat + 1) := by
  rw [addNack]
  cases h : mergeNack nack queue with
  | none => exact Or.inr rfl
  | some r => exact Or.inl (mergeNack_eq_some h)

theorem names_widen {nack old : Nack} (hw : nack.Widens old) (n : U16) :
    (old.widen nack).names n ↔ old.names n ∨ nack.names n := by
  obtain ⟨⟨h1, h2⟩, -⟩ := hw
  simp only [Nack.names, Nack.widen, BitVec.le_def, BitVec.lt_def] at *
  split_ifs <;> omega

theorem widen_le {nack old : Nack} (hle : nack.start ≤ nack.stop) (hw : nack.Widens old) :
    (old.widen nack).start ≤ (old.widen nack).stop := by
  obtain ⟨⟨h1, h2⟩, -⟩ := hw
  simp only [Nack.widen, BitVec.le_def, BitVec.lt_def] at *
  split_ifs <;> omega

theorem requested_addNack (queue : List Nack) (nack : Nack) (n : U16) :
    Requested (addNack queue nack).1 n ↔ Requested queue n ∨ nack.names n := by
  rcases addNack_cases queue nack with ⟨before, old, rest, rfl, hw, heq⟩ | heq
  · rw [heq]
    simp only [requested_append, requested_cons, names_widen hw]
    tauto
  · rw [heq]
    simp

theorem requested_addRepeat (queue nacks : List Nack) (n : U16) :
    Requested (addRepeat queue nacks).1 n ↔ Requested queue n ∨ Requested nacks n := by
  induction nacks generalizing queue with
  | nil => simp [addRepeat]
  | cons nack nacks ih =>
      rw [addRepeat_cons, requested_cons, ih, requested_addNack, or_assoc]

theorem addRepeat_le {queue nacks : List Nack} (hq : ∀ r ∈ queue, r.start ≤ r.stop)
    (hle : ∀ r ∈ nacks, r.start ≤ r.stop) :
    ∀ r ∈ (addRepeat queue nacks).1, r.start ≤ r.stop := by
  induction nacks generalizing queue with
  | nil => exact hq
  | cons nack nacks ih =>
      have hnack := hle nack List.mem_cons_self
      rw [addRepeat_cons]
      apply ih _ (fun r hr => hle r (List.mem_cons_of_mem _ hr))
      intro r hr
      rcases addNack_cases queue nack with ⟨before, old, rest, rfl, hw, heq⟩ | heq
      · rw [heq] at hr
        rcases List.mem_append.1 hr with hr | hr
        · exact hq r (List.mem_append_left _ hr)
        · rcases List.mem_cons.1 hr with rfl | hr
          · exact widen_le hnack hw
          · exact hq r (List.mem_append_right _ (List.mem_cons_of_mem _ hr))
      · rw [heq] at hr
        rcases List.mem_append.1 hr with hr | hr
        · exact hq r hr
        · rw [List.mem_singleton.1 hr]
          exact hnack

/-- The lengths of the ranges, counted without wrapping. -/
def rangeLengths (queue : List Nack) : ℤ :=
  (queue.map (fun r => (r.stop.toNat : ℤ) - r.start.toNat + 1)).sum

theorem rangeLengths_append (p q : List Nack) :
    rangeLengths (p ++ q) = rangeLengths p + rangeLengths q := by
  simp [rangeLengths]

theorem rangeLengths_cons (r : Nack) (q : List Nack) :
    rangeLengths (r :: q) = (r.stop.toNat : ℤ) - r.start.toNat + 1 + rangeLengths q := by
  simp [rangeLengths]

/-- Every nack widens a range or adds one, so the queue never stays as it is. -/
theorem rangeLengths_lt_addNack (queue : List Nack) {nack : Nack}
    (hle : nack.start ≤ nack.stop) :
    rangeLengths queue < rangeLengths (addNack queue nack).1 := by
  rcases addNack_cases queue nack with ⟨before, old, rest, rfl, ⟨-, hgrow⟩, heq⟩ | heq
  · rw [heq]
    simp only [rangeLengths_append, rangeLengths_cons, Nack.widen, BitVec.lt_def] at hgrow ⊢
    split_ifs <;> omega
  · rw [heq, rangeLengths_append, rangeLengths_cons]
    simp only [BitVec.le_def] at hle
    simp only [rangeLengths, List.map_nil, List.sum_nil]
    omega

theorem rangeLengths_le_addRepeat (queue : List Nack) {nacks : List Nack}
    (hle : ∀ r ∈ nacks, r.start ≤ r.stop) :
    rangeLengths queue ≤ rangeLengths (addRepeat queue nacks).1 := by
  induction nacks generalizing queue with
  | nil => exact le_rfl
  | cons nack nacks ih =>
      have hadd := rangeLengths_lt_addNack queue (hle nack List.mem_cons_self)
      exact hadd.le.trans (ih _ (fun r hr => hle r (List.mem_cons_of_mem _ hr)))

/-- Repeat requests are absorbed only when there are none. -/
theorem absorbs_iff (queue nacks : List Nack) (hle : ∀ r ∈ nacks, r.start ≤ r.stop) :
    Absorbs queue nacks ↔ nacks = [] := by
  constructor
  · rintro ⟨-, htwice⟩
    cases nacks with
    | nil => rfl
    | cons nack nacks =>
        have hadd := rangeLengths_lt_addNack (addRepeat queue (nack :: nacks)).1
          (hle nack List.mem_cons_self)
        have hrest := rangeLengths_le_addRepeat
          (addNack (addRepeat queue (nack :: nacks)).1 nack).1
          (fun r hr => hle r (List.mem_cons_of_mem nack hr))
        have heq := congrArg rangeLengths htwice
        rw [addRepeat_cons (addRepeat queue (nack :: nacks)).1] at heq
        exact absurd heq (ne_of_gt (hadd.trans_le hrest))
  · rintro rfl
    exact ⟨fun _ => rfl, rfl⟩

/-- No request at all changes nothing. -/
theorem absorbs_iff_no_nacks : Absorbs [⟨5, 10⟩] [] :=
  (absorbs_iff [⟨5, 10⟩] [] (fun _ hr => absurd hr List.not_mem_nil)).2 rfl

/-- The range 6..7 is queued although 5..10 is asked for already, and two packets count as lost. -/
theorem absorbs_not_covered :
    Covered [⟨5, 10⟩] [⟨6, 7⟩] ∧ addRepeat [⟨5, 10⟩] [⟨6, 7⟩] = ([⟨5, 10⟩, ⟨6, 7⟩], 2) ∧
      ¬ Absorbs [⟨5, 10⟩] [⟨6, 7⟩] := by
  have hcovered : Covered [⟨5, 10⟩] [⟨6, 7⟩] := by
    intro nack hn
    rw [List.mem_singleton.1 hn]
    refine ⟨⟨5, 10⟩, List.mem_singleton_self _, ?_⟩
    rintro n ⟨hlo, hhi⟩
    exact ⟨BitVec.le_trans (by decide) hlo, BitVec.le_trans hhi (by decide)⟩
  refine ⟨hcovered, by decide, ?_⟩
  intro h
  exact absurd (h.1 hcovered) (by decide)

end Collage.Rsp
