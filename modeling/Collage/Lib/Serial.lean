import Mathlib.Data.BitVec
import Mathlib.Data.List.Basic

/-!
# Serial numbers

A counter that grows without bound is seen through its lowest `w` bits, `serial w n`. Inside a
window shorter than half the range the bits still order the counters: the wrapping difference of
two numbers is small exactly when the first is not behind the second. `serialMin` is the fold that
takes the least of several counters by such differences only.
-/

namespace Collage.Serial

variable {w : ℕ}

def serial (w n : ℕ) : BitVec w := BitVec.ofNat w n

theorem toNat_serial (n : ℕ) : (serial w n).toNat = n % 2 ^ w := BitVec.toNat_ofNat n w

theorem serial_succ (n : ℕ) : serial w (n + 1) = serial w n + 1#w := by
  apply BitVec.eq_of_toNat_eq
  simp [serial, BitVec.toNat_add, BitVec.toNat_ofNat, Nat.add_mod]

theorem serial_add (m n : ℕ) : serial w (m + n) = serial w m + serial w n := by
  apply BitVec.eq_of_toNat_eq
  simp [serial, BitVec.toNat_add, BitVec.toNat_ofNat, Nat.add_mod]

theorem serial_sub {m n : ℕ} (h : m ≤ n) : serial w n - serial w m = serial w (n - m) := by
  rw [show n = (n - m) + m by omega, serial_add, Nat.add_sub_cancel]
  exact BitVec.add_sub_cancel _ _

theorem serial_add_two_pow (n : ℕ) : serial w (n + 2 ^ w) = serial w n := by
  apply BitVec.eq_of_toNat_eq
  simp [serial, BitVec.toNat_ofNat]

theorem serial_sub_toNat {n : ℕ} (d : BitVec w) :
    serial w (n + 2 ^ w - d.toNat) = serial w n - d := by
  have hle : d.toNat ≤ n + 2 ^ w := by have := d.isLt; omega
  rw [← serial_sub hle, serial_add_two_pow]
  congr 1
  exact BitVec.eq_of_toNat_eq (by simp [serial])

theorem toNat_serial_of_lt {n : ℕ} (h : n < 2 ^ w) : (serial w n).toNat = n := by
  rw [toNat_serial, Nat.mod_eq_of_lt h]

theorem toNat_serial_sub {m n : ℕ} (h : m ≤ n) (hlt : n < m + 2 ^ w) :
    (serial w n - serial w m).toNat = n - m := by
  rw [serial_sub h, toNat_serial_of_lt (by omega)]

theorem toNat_serial_sub_of_lt {m n : ℕ} (h : m < n) (hlt : n < m + 2 ^ w) :
    (serial w m - serial w n).toNat = 2 ^ w - (n - m) := by
  have hd : (serial w (n - m)).toNat = n - m := toNat_serial_of_lt (by omega)
  rw [show serial w m - serial w n = -(serial w (n - m)) by
    rw [← serial_sub h.le, neg_sub], BitVec.toNat_neg, hd]
  exact Nat.mod_eq_of_lt (by omega)

theorem serial_inj_of_near {m n : ℕ} (hm : m < n + 2 ^ w) (hn : n < m + 2 ^ w)
    (h : serial w m = serial w n) : m = n := by
  rcases le_total m n with hle | hle
  · have hd := toNat_serial_sub (w := w) hle hn
    rw [h, BitVec.sub_self] at hd
    simp only [BitVec.toNat_zero] at hd
    omega
  · have hd := toNat_serial_sub (w := w) hle hm
    rw [h, BitVec.sub_self] at hd
    simp only [BitVec.toNat_zero] at hd
    omega

/-- The fold over cursors that moves to a cursor when it is more than `limit` ahead, that is,
behind. -/
def serialMin (limit : ℕ) (start : BitVec w) (cursors : List (BitVec w)) : BitVec w :=
  cursors.foldl (fun least c => if limit < (c - least).toNat then c else least) start

@[simp] theorem serialMin_nil (limit : ℕ) (start : BitVec w) :
    serialMin limit start [] = start := rfl

theorem serialMin_cons (limit : ℕ) (start c : BitVec w) (cs : List (BitVec w)) :
    serialMin limit start (c :: cs) =
      serialMin limit (if limit < (c - start).toNat then c else start) cs := rfl

theorem serialMin_append (limit : ℕ) (start : BitVec w) (cs ds : List (BitVec w)) :
    serialMin limit start (cs ++ ds) = serialMin limit (serialMin limit start cs) ds :=
  List.foldl_append

/-- Whatever the cursors before it are, the fold ends at most `limit` behind the last one. -/
theorem serialMin_concat (limit : ℕ) (start : BitVec w) (cs : List (BitVec w)) (c : BitVec w) :
    (c - serialMin limit start (cs ++ [c])).toNat ≤ limit := by
  rw [serialMin_append, serialMin_cons, serialMin_nil]
  split_ifs with h
  · simp
  · exact not_lt.1 h

/-- One comparison inside a window of `limit` picks the smaller counter, whatever constant both
are shifted by. -/
theorem serial_step_min {limit lo m n : ℕ} (d : BitVec w) (hw : 2 * limit < 2 ^ w)
    (hm : lo ≤ m ∧ m ≤ lo + limit) (hn : lo ≤ n ∧ n ≤ lo + limit) :
    (if limit < ((serial w n + d) - (serial w m + d)).toNat then serial w n + d
      else serial w m + d) = serial w (min m n) + d := by
  rw [add_sub_add_right_eq_sub]
  rcases lt_or_ge n m with hlt | hge
  · rw [toNat_serial_sub_of_lt hlt (by omega), if_pos (by omega), min_eq_right hlt.le]
  · rw [toNat_serial_sub hge (by omega), if_neg (by omega), min_eq_left hge]

theorem serialMin_eq {limit lo : ℕ} (d : BitVec w) (hw : 2 * limit < 2 ^ w) (xs : List ℕ)
    (hxs : ∀ x ∈ xs, lo ≤ x ∧ x ≤ lo + limit) (m : ℕ) (hm : lo ≤ m ∧ m ≤ lo + limit) :
    serialMin limit (serial w m + d) (xs.map (fun x => serial w x + d)) =
      serial w (xs.foldl min m) + d := by
  induction xs generalizing m with
  | nil => rfl
  | cons x xs ih =>
      have hx := hxs x List.mem_cons_self
      rw [List.map_cons, serialMin_cons, serial_step_min d hw hm hx, List.foldl_cons]
      exact ih (fun y hy => hxs y (List.mem_cons_of_mem _ hy)) (min m x) (by omega)

theorem foldl_min_le (xs : List ℕ) (m : ℕ) : xs.foldl min m ≤ m := by
  induction xs generalizing m with
  | nil => exact le_rfl
  | cons x xs ih => exact (ih (min m x)).trans (Nat.min_le_left _ _)

theorem foldl_min_le_of_mem {xs : List ℕ} {m x : ℕ} (hx : x ∈ xs) : xs.foldl min m ≤ x := by
  induction xs generalizing m with
  | nil => cases hx
  | cons y ys ih =>
      rw [List.foldl_cons]
      rcases List.mem_cons.1 hx with rfl | h
      · exact (foldl_min_le ys (min m x)).trans (Nat.min_le_right _ _)
      · exact ih h

theorem le_foldl_min {xs : List ℕ} {m lo : ℕ} (hm : lo ≤ m) (hxs : ∀ x ∈ xs, lo ≤ x) :
    lo ≤ xs.foldl min m := by
  induction xs generalizing m with
  | nil => exact hm
  | cons x xs ih =>
      exact ih (le_min hm (hxs x List.mem_cons_self))
        (fun y hy => hxs y (List.mem_cons_of_mem _ hy))

end Collage.Serial
