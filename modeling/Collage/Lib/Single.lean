import Mathlib.Algebra.Order.Ring.Nat
import Mathlib.Data.Nat.Log
import Mathlib.Tactic.Ring

/-!
# Products of single precision numbers

A number of a binary format with `p` bits, rounded to nearest with ties to even. Exponents are left
out, as a power of two changes no rounding: a product by a constant is taken of the mantissa of the
constant and scaled afterwards.
-/

namespace Collage.Single

/-- The distance of two numbers of `p` bits next to `n`. -/
def unit (p n : ℕ) : ℕ := 2 ^ (Nat.log 2 n + 1 - p)

def round (p n : ℕ) : ℕ :=
  let u := unit p n
  if 2 * (n % u) < u ∨ (2 * (n % u) = u ∧ n / u % 2 = 0) then n / u * u else (n / u + 1) * u

/-- The product of an unsigned integer, converted to a `float`, by the constant `m / 2 ^ e`,
converted to an unsigned integer. -/
def scale (m e n : ℕ) : ℕ := round 24 (round 24 n * m) / 2 ^ e

theorem unit_pos (p n : ℕ) : 0 < unit p n := Nat.two_pow_pos _

theorem unit_le {p n : ℕ} (hn : n ≠ 0) (hu : unit p n ≠ 1) : unit p n * 2 ^ p ≤ 2 * n := by
  have hexp : p ≤ Nat.log 2 n + 1 := by
    by_contra hlt
    rw [unit, Nat.sub_eq_zero_of_le (by omega)] at hu
    exact hu rfl
  calc unit p n * 2 ^ p = 2 ^ (Nat.log 2 n + 1) := by rw [unit, ← pow_add, Nat.sub_add_cancel hexp]
    _ = 2 * 2 ^ Nat.log 2 n := by rw [pow_succ, mul_comm]
    _ ≤ 2 * n := Nat.mul_le_mul_left 2 (Nat.pow_log_le_self 2 hn)

/-- A number is rounded up by half a unit at most. -/
theorem round_le (p n : ℕ) : 2 * round p n ≤ 2 * n + unit p n ∧ (unit p n = 1 → round p n = n) := by
  have hpos := unit_pos p n
  have hdiv : n / unit p n * unit p n + n % unit p n = n := Nat.div_add_mod' n (unit p n)
  have hmod := Nat.mod_lt n hpos
  unfold round
  simp only
  generalize unit p n = u at *
  split_ifs with hdown
  · refine ⟨by omega, fun hone => ?_⟩
    omega
  · rw [Nat.add_mul, Nat.one_mul]
    refine ⟨by omega, fun hone => ?_⟩
    subst hone
    omega

theorem round_mul_le (p n : ℕ) : round p n * 2 ^ p ≤ n * (2 ^ p + 1) := by
  obtain ⟨hle, hexact⟩ := round_le p n
  rw [Nat.mul_add, Nat.mul_one]
  by_cases hu : unit p n = 1
  · rw [hexact hu]
    exact Nat.le_add_right _ _
  · rcases eq_or_ne n 0 with rfl | hn
    · simp [round, unit_pos]
    · have hunit := unit_le hn hu
      have hscaled := Nat.mul_le_mul_right (2 ^ p) hle
      rw [Nat.add_mul, Nat.mul_assoc, Nat.mul_assoc] at hscaled
      omega

/-- A factor that is below one by more than the rounding of two operations yields no larger
number. -/
theorem scale_le {m e : ℕ} (hm : m * (2 ^ 24 + 1) ^ 2 ≤ 2 ^ (e + 48)) (n : ℕ) : scale m e n ≤ n := by
  have hproduct : round 24 (round 24 n * m) * 2 ^ 48 ≤ n * 2 ^ e * 2 ^ 48 := by
    calc round 24 (round 24 n * m) * 2 ^ 48
        = round 24 (round 24 n * m) * 2 ^ 24 * 2 ^ 24 := by ring
      _ ≤ round 24 n * m * (2 ^ 24 + 1) * 2 ^ 24 := Nat.mul_le_mul_right _ (round_mul_le _ _)
      _ = round 24 n * 2 ^ 24 * (m * (2 ^ 24 + 1)) := by ring
      _ ≤ n * (2 ^ 24 + 1) * (m * (2 ^ 24 + 1)) := Nat.mul_le_mul_right _ (round_mul_le _ _)
      _ = n * (m * (2 ^ 24 + 1) ^ 2) := by ring
      _ ≤ n * 2 ^ (e + 48) := Nat.mul_le_mul_left _ hm
      _ = n * 2 ^ e * 2 ^ 48 := by rw [pow_add, Nat.mul_assoc]
  have hle : round 24 (round 24 n * m) ≤ n * 2 ^ e :=
    Nat.le_of_mul_le_mul_right hproduct (Nat.two_pow_pos 48)
  exact Nat.div_le_of_le_mul (hle.trans_eq (Nat.mul_comm _ _))

end Collage.Single
