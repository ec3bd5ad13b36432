import Mathlib.Data.List.TakeWhile
import Mathlib.Data.Nat.Digits.Defs
import Mathlib.Tactic.IntervalCases

/-!
# Numbers as text

Numbers are printed in decimal, and read as `atoi` does: white space and a sign may come first, and
reading stops at the first character that is not a digit. What an `int` holds is read back.
-/

namespace Collage

def decimal (n : ℕ) : List Char :=
  if n = 0 then ['0'] else (Nat.digits 10 n).reverse.map Nat.digitChar

def decimalInt : ℤ → List Char
  | .ofNat n => decimal n
  | .negSucc n => '-' :: decimal (n + 1)

/-- The white space of `isspace`. -/
def isSpace (c : Char) : Bool := c = ' ' ∨ (9 ≤ c.toNat ∧ c.toNat ≤ 13)

def ofDigitChars (ds : List Char) : ℕ := ds.foldl (fun v c => 10 * v + (c.toNat - '0'.toNat)) 0

def frontNumber (s : List Char) : ℤ :=
  match s.dropWhile isSpace with
  | '-' :: ds => -(ofDigitChars (ds.takeWhile Char.isDigit) : ℤ)
  | '+' :: ds => ofDigitChars (ds.takeWhile Char.isDigit)
  | ds => ofDigitChars (ds.takeWhile Char.isDigit)

/-- `strtol`: a number that a `long` does not hold becomes the nearest one. -/
def strtol (s : List Char) : ℤ := max (-2 ^ 63) (min (2 ^ 63 - 1) (frontNumber s))

/-- `atoi`: the lower half of the `long`. -/
def atoi (s : List Char) : Int32 := Int32.ofInt (strtol s)

theorem isDigit_digitChar {d : ℕ} (hd : d < 10) :
    (Nat.digitChar d).isDigit = true ∧ (Nat.digitChar d).toNat - '0'.toNat = d := by
  interval_cases d <;> decide

theorem ne_of_isDigit {c : Char} (hc : c.isDigit = true) :
    c ≠ '-' ∧ c ≠ '+' ∧ c ≠ '#' ∧ isSpace c = false := by
  refine ⟨?_, ?_, ?_, ?_⟩
  · rintro rfl
    cases hc
  · rintro rfl
    cases hc
  · rintro rfl
    cases hc
  · have hle : 48 ≤ c.toNat := by
      simp only [Char.isDigit, Bool.and_eq_true, decide_eq_true_eq] at hc
      exact hc.1
    have hspace : c ≠ ' ' := by
      rintro rfl
      cases hc
    simp only [isSpace, hspace, false_or, decide_eq_false_iff_not]
    omega

theorem decimal_ne_nil (n : ℕ) : decimal n ≠ [] := by
  unfold decimal
  split_ifs with hn
  · exact List.cons_ne_nil _ _
  · rw [ne_eq, List.map_eq_nil_iff, List.reverse_eq_nil_iff]
    exact Nat.digits_ne_nil_iff_ne_zero.2 hn

theorem isDigit_of_mem_decimal {n : ℕ} {c : Char} (hc : c ∈ decimal n) : c.isDigit = true := by
  unfold decimal at hc
  split_ifs at hc
  · rw [List.mem_singleton.1 hc]
    decide
  · obtain ⟨d, hd, rfl⟩ := List.mem_map.1 hc
    exact (isDigit_digitChar (Nat.digits_lt_base (by decide) (List.mem_reverse.1 hd))).1

theorem ofDigitChars_reverse (ds : List ℕ) (hds : ∀ d ∈ ds, d < 10) :
    ofDigitChars (ds.reverse.map Nat.digitChar) = Nat.ofDigits 10 ds := by
  rw [ofDigitChars, List.map_reverse, List.foldl_reverse]
  induction ds with
  | nil => rfl
  | cons d ds ih =>
      rw [List.map_cons, List.foldr_cons, ih (fun d' hd' => hds d' (List.mem_cons_of_mem _ hd')),
        (isDigit_digitChar (hds d List.mem_cons_self)).2, Nat.ofDigits_cons, Nat.add_comm]

theorem ofDigitChars_decimal (n : ℕ) : ofDigitChars (decimal n) = n := by
  unfold decimal
  split_ifs with hn
  · rw [hn]
    rfl
  · rw [ofDigitChars_reverse _ (fun _ hd => Nat.digits_lt_base (by decide) hd), Nat.ofDigits_digits]

theorem takeWhile_decimal (n : ℕ) : (decimal n).takeWhile Char.isDigit = decimal n :=
  List.takeWhile_eq_self_iff.2 (fun _ hc => isDigit_of_mem_decimal hc)

theorem frontNumber_of_isDigit {c : Char} (hc : c.isDigit = true) (ds : List Char) :
    frontNumber (c :: ds) = ofDigitChars ((c :: ds).takeWhile Char.isDigit) := by
  obtain ⟨hminus, hplus, -, hspace⟩ := ne_of_isDigit hc
  rw [frontNumber, List.dropWhile_cons_of_neg (by simp [hspace])]
  split
  · next heq => exact absurd (List.cons.inj heq).1 hminus
  · next heq => exact absurd (List.cons.inj heq).1 hplus
  · rfl

theorem frontNumber_decimal (n : ℕ) : frontNumber (decimal n) = n := by
  obtain ⟨c, ds, hdecimal⟩ := List.exists_cons_of_ne_nil (decimal_ne_nil n)
  have hc : c.isDigit = true := by
    apply isDigit_of_mem_decimal (n := n)
    rw [hdecimal]
    exact List.mem_cons_self
  rw [hdecimal, frontNumber_of_isDigit hc, ← hdecimal, takeWhile_decimal, ofDigitChars_decimal]

theorem frontNumber_decimalInt (i : ℤ) : frontNumber (decimalInt i) = i := by
  cases i with
  | ofNat n => exact frontNumber_decimal n
  | negSucc n =>
      have hdrop : (decimalInt (.negSucc n)).dropWhile isSpace = '-' :: decimal (n + 1) := by
        rw [decimalInt, List.dropWhile_cons_of_neg (by decide)]
      rw [frontNumber, hdrop]
      change -(ofDigitChars ((decimal (n + 1)).takeWhile Char.isDigit) : ℤ) = _
      rw [takeWhile_decimal, ofDigitChars_decimal]
      rfl

theorem strtol_of_bounds {s : List Char} (hlow : -2 ^ 63 ≤ frontNumber s)
    (hhigh : frontNumber s < 2 ^ 63) : strtol s = frontNumber s := by
  rw [strtol, min_eq_right (by omega), max_eq_right hlow]

theorem atoi_decimalInt (v : Int32) : atoi (decimalInt v.toInt) = v := by
  have hlow := v.le_toInt
  have hhigh := v.toInt_lt
  rw [← frontNumber_decimalInt v.toInt] at hlow hhigh
  rw [atoi, strtol_of_bounds (by omega) (by omega), frontNumber_decimalInt, Int32.ofInt_toInt]

theorem toInt_atoi_decimal {n : ℕ} (h : n < 2 ^ 31) : (atoi (decimal n)).toInt = n := by
  have hfront := frontNumber_decimal n
  rw [atoi, strtol_of_bounds (by omega) (by omega), hfront]
  exact Int32.toInt_ofInt_of_le (by omega) (by exact_mod_cast h)

theorem decimalInt_ne_nil (i : ℤ) : decimalInt i ≠ [] := by
  cases i with
  | ofNat n => exact decimal_ne_nil n
  | negSucc n => exact List.cons_ne_nil _ _

theorem not_mem_decimalInt (i : ℤ) : '#' ∉ decimalInt i := by
  intro hmem
  cases i with
  | ofNat n => exact (ne_of_isDigit (isDigit_of_mem_decimal hmem)).2.2.1 rfl
  | negSucc n =>
      rcases List.mem_cons.1 hmem with hmem | hmem
      · cases hmem
      · exact (ne_of_isDigit (isDigit_of_mem_decimal hmem)).2.2.1 rfl

end Collage
