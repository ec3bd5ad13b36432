import Mathlib.Algebra.BigOperators.Group.List.Basic
import Mathlib.Algebra.Ring.Int.Defs
import Mathlib.Algebra.Ring.Nat
import Mathlib.Data.List.Chain
import Mathlib.Tactic.Common

/-!
# Two pools of credits

A writer spends a credit on each write. The reader returns the credits of the writes it has seen
in reports, and spends a credit of its own on each report. The writer returns the credits of the
reports it has handled with its later writes, a bounded number at a time. The reader reports when
it has read all there is or when it has seen enough writes, so that a report may be empty only
after a report of many writes. `Balanced` is why the reader has always a credit for its report.
-/

namespace Collage.Rdma

/-- The credits of one direction, and the writes and reports that are under way, the oldest one
first. A write is given by the number of reports it answers, a report by the number of writes it
returns. -/
structure Credits where
  wcredits : ℤ
  fcs : ℕ
  imms : List ℕ
  fcredits : ℤ
  writes : ℕ
  reports : List ℕ
  /-- The reader has something left to read. -/
  ready : Prop

namespace Credits

variable {frequency total : ℕ} {last : ℕ} {c : Credits}

/-- The writer may be one report behind its credits, unless the last report returned many. -/
def slack (frequency last : ℕ) : ℕ := if frequency ≤ last then 0 else 1

theorem slack_le (frequency last : ℕ) : slack frequency last ≤ 1 := by
  rw [slack]
  split <;> omega

/-- The credits of `total` writes and `total + 3` reports are all accounted for; `last` is the last
report that the writer has handled. -/
structure Balanced (total frequency last : ℕ) (c : Credits) : Prop where
  nonneg : 0 ≤ c.wcredits
  writes_eq : c.wcredits + (c.imms.length + c.writes + c.reports.sum : ℕ) = total
  fcs_eq : c.fcredits + (c.reports.length + c.fcs + c.imms.sum : ℕ) = total + 3
  answered : ∀ l, l <:+ c.imms →
    (c.fcs + l.sum : ℕ) ≤ c.wcredits + (l.length + slack frequency last : ℕ)
  chain : List.IsChain (fun m n => n = 0 → frequency ≤ m) (last :: c.reports)
  idle : c.ready → c.writes = 0 → frequency ≤ (last :: c.reports).getLast (List.cons_ne_nil _ _)

theorem length_reports_le (hfrequency : 2 ≤ frequency) {last : ℕ} {reports : List ℕ}
    (h : List.IsChain (fun m n => n = 0 → frequency ≤ m) (last :: reports)) :
    reports.length + slack frequency last ≤ reports.sum + 1 := by
  induction reports generalizing last with
  | nil =>
      have := slack_le frequency last
      simpa using this
  | cons n reports ih =>
      rw [List.isChain_cons_cons] at h
      have hrest := ih h.2
      have hslack := slack_le frequency last
      rw [List.length_cons, List.sum_cons]
      rw [slack] at hrest
      split at hrest
      · omega
      · rcases Nat.eq_zero_or_pos n with hn | hn
        · rw [slack, if_pos (h.1 hn)]
          omega
        · omega

namespace Balanced

theorem writes_le (h : Balanced total frequency last c) : c.writes ≤ total := by
  have := h.nonneg
  have := h.writes_eq
  omega

theorem fcredits_ge (h : Balanced total frequency last c) (hfrequency : 2 ≤ frequency) :
    c.writes + 2 ≤ c.fcredits := by
  have hanswered := h.answered c.imms List.suffix_rfl
  have hreports := length_reports_le hfrequency h.chain
  have hwrites := h.writes_eq
  have hfcs := h.fcs_eq
  omega

theorem fcs_le (h : Balanced total frequency last c) (hfrequency : 2 ≤ frequency) :
    c.fcs ≤ total + 1 := by
  have := h.fcredits_ge hfrequency
  have := h.fcs_eq
  omega

theorem post_write (h : Balanced total frequency last c) (limit : ℕ) (hlimit : 1 ≤ limit)
    (hcredits : c.wcredits ≠ 0) :
    Balanced total frequency last
      { c with
        wcredits := c.wcredits - 1
        fcs := c.fcs - min limit c.fcs
        imms := c.imms ++ [min limit c.fcs] } := by
  have hnonneg := h.nonneg
  have hwrites := h.writes_eq
  have hfcs := h.fcs_eq
  refine { h with nonneg := ?_, writes_eq := ?_, fcs_eq := ?_, answered := ?_ }
  · simp only
    omega
  · simp only [List.length_append, List.length_singleton]
    omega
  · simp only [List.sum_append, List.sum_singleton]
    omega
  · intro l hl
    simp only
    rcases List.suffix_concat_iff.1 hl with rfl | ⟨l', rfl, hl'⟩
    · have hbound := h.answered [] (List.nil_suffix)
      simp only [List.sum_nil, List.length_nil] at hbound ⊢
      omega
    · have hbound := h.answered l' hl'
      simp only [List.sum_append, List.sum_singleton, List.length_append, List.length_singleton]
      omega

theorem write_arrives (h : Balanced total frequency last c) {n : ℕ} {imms : List ℕ}
    (himms : c.imms = n :: imms) (ready : Prop) :
    Balanced total frequency last
      { c with imms, fcredits := c.fcredits + n, writes := c.writes + 1, ready } := by
  have hwrites := h.writes_eq
  have hfcs := h.fcs_eq
  rw [himms, List.length_cons] at hwrites
  rw [himms, List.sum_cons] at hfcs
  refine { h with writes_eq := ?_, fcs_eq := ?_, answered := ?_, idle := ?_ }
  · simp only
    omega
  · simp only
    omega
  · intro l hl
    exact h.answered l (himms ▸ hl.trans (List.suffix_cons n imms))
  · intro _ hzero
    exact absurd hzero (Nat.succ_ne_zero _)

theorem of_ready (h : Balanced total frequency last c) {ready : Prop} (hready : ready → c.ready) :
    Balanced total frequency last { c with ready } :=
  { h with idle := fun hr => h.idle (hready hr) }

theorem post_report (h : Balanced total frequency last c) {ready : Prop} (hready : c.ready)
    (hneed : ¬ ready ∨ frequency ≤ c.writes) :
    Balanced total frequency last
      { c with
        fcredits := c.fcredits - 1
        writes := 0
        reports := c.reports ++ [c.writes]
        ready } := by
  have hwrites := h.writes_eq
  have hfcs := h.fcs_eq
  refine { h with writes_eq := ?_, fcs_eq := ?_, chain := ?_, idle := ?_ }
  · simp only [List.sum_append, List.sum_singleton]
    omega
  · simp only [List.length_append, List.length_singleton]
    omega
  · simp only
    rw [← List.cons_append, List.isChain_append]
    refine ⟨h.chain, List.isChain_singleton _, ?_⟩
    intro m hm n hn hzero
    rw [List.getLast?_eq_some_getLast (List.cons_ne_nil _ _), Option.mem_some_iff] at hm
    rw [List.head?_cons, Option.mem_some_iff] at hn
    rw [← hm]
    exact h.idle hready (hn.trans hzero)
  · intro hr _
    simp only [← List.cons_append, List.getLast_append_singleton]
    exact hneed.resolve_left (fun hn => hn hr)

theorem handle_report (h : Balanced total frequency last c) (hfrequency : 2 ≤ frequency) {n : ℕ}
    {reports : List ℕ} (hreports : c.reports = n :: reports) :
    Balanced total frequency n
      { c with reports, wcredits := c.wcredits + n, fcs := c.fcs + 1 } := by
  have hnonneg := h.nonneg
  have hwrites := h.writes_eq
  have hfcs := h.fcs_eq
  have hchain := h.chain
  rw [hreports, List.sum_cons] at hwrites
  rw [hreports, List.length_cons] at hfcs
  rw [hreports, List.isChain_cons_cons] at hchain
  refine ⟨?_, ?_, ?_, ?_, hchain.2, ?_⟩
  · simp only
    omega
  · simp only
    omega
  · simp only
    omega
  · intro l hl
    have hbound := h.answered l hl
    have hslack := slack_le frequency last
    simp only
    rcases Nat.eq_zero_or_pos n with hn | hn
    · rw [slack, if_pos (hchain.1 hn)] at hbound
      rw [slack, if_neg (by omega)]
      omega
    · rw [slack]
      split <;> omega
  · intro hready hzero
    have hidle := h.idle hready hzero
    simp only [hreports, List.getLast_cons_cons] at hidle
    exact hidle

end Balanced

end Credits

end Collage.Rdma
