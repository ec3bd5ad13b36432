import Mathlib.Data.List.Basic
import Mathlib.Data.Nat.Notation
import Mathlib.Order.Lattice

/-!
# Intervals of a sequence

The values of a sequence from one index to another, as a list. Where the values carry their index,
a list of them is cut at an index by looking at the values.
-/

namespace Collage

variable {α β : Type*} (f : ℕ → α)

/-- The values at `a`, `a + 1`, ..., `b`. -/
def interval (a b : ℕ) : List α := (List.range' a (b + 1 - a)).map f

variable {f} {a b c : ℕ}

theorem interval_eq_nil (h : b < a) : interval f a b = [] := by
  simp [interval, show b + 1 - a = 0 by omega]

theorem interval_cons (h : a ≤ b) : interval f a b = f a :: interval f (a + 1) b := by
  rw [interval, interval, show b + 1 - a = (b + 1 - (a + 1)) + 1 by omega, List.range'_succ,
    List.map_cons]

theorem interval_self (f : ℕ → α) (a : ℕ) : interval f a a = [f a] := by
  rw [interval_cons le_rfl, interval_eq_nil (Nat.lt_succ_self a)]

theorem interval_eq_nil_iff : interval f a b = [] ↔ b < a := by
  refine ⟨fun h => ?_, interval_eq_nil⟩
  by_contra hle
  rw [interval_cons (not_lt.1 hle)] at h
  cases h

theorem interval_append (hab : a ≤ b + 1) (hbc : b ≤ c) :
    interval f a b ++ interval f (b + 1) c = interval f a c := by
  rw [interval, interval, interval, ← List.map_append, show c + 1 - a =
    (b + 1 - a) + (c + 1 - (b + 1)) by omega, ← List.range'_append_1,
    show a + (b + 1 - a) = b + 1 by omega]

theorem interval_snoc (hab : a ≤ b + 1) : interval f a (b + 1) = interval f a b ++ [f (b + 1)] := by
  rw [← interval_append hab (Nat.le_succ b), interval_self]

theorem mem_interval {x : α} : x ∈ interval f a b ↔ ∃ v, a ≤ v ∧ v ≤ b ∧ x = f v := by
  rw [interval, List.mem_map]
  constructor
  · rintro ⟨v, hv, rfl⟩
    rw [List.mem_range'_1] at hv
    exact ⟨v, hv.1, by omega, rfl⟩
  · rintro ⟨v, hav, hvb, rfl⟩
    exact ⟨v, List.mem_range'_1.2 ⟨hav, by omega⟩, rfl⟩

theorem length_interval (f : ℕ → α) (a b : ℕ) : (interval f a b).length = b + 1 - a := by
  rw [interval, List.length_map, List.length_range']

theorem rel_of_pairwise_interval {r : α → α → Prop} (h : (interval f a b).Pairwise r) {v w : ℕ}
    (hv : a ≤ v) (hvw : v < w) (hw : w ≤ b) : r (f v) (f w) := by
  rw [← interval_append (show a ≤ v + 1 by omega) (by omega)] at h
  exact (List.pairwise_append.1 h).2.2 _ (mem_interval.2 ⟨v, hv, le_rfl, rfl⟩) _
    (mem_interval.2 ⟨w, hvw, hw, rfl⟩)

theorem map_interval (g : α → β) : (interval f a b).map g = interval (fun v => g (f v)) a b := by
  rw [interval, interval, List.map_map]
  rfl

theorem interval_congr {g : ℕ → α} (h : ∀ v, a ≤ v → v ≤ b → f v = g v) :
    interval f a b = interval g a b := by
  refine List.map_congr_left (fun v hv => ?_)
  rw [List.mem_range'_1] at hv
  exact h v hv.1 (by omega)

theorem head?_interval (h : a ≤ b) : (interval f a b).head? = some (f a) := by
  rw [interval_cons h, List.head?_cons]

theorem getLast?_interval (h : a ≤ b) : (interval f a b).getLast? = some (f b) := by
  obtain ⟨n, rfl⟩ := Nat.exists_eq_add_of_le h
  cases n with
  | zero => simp [interval_self]
  | succ n => rw [← Nat.add_assoc, interval_snoc (by omega), List.getLast?_concat]

theorem take_interval (ha : 0 < a) (k : ℕ) :
    (interval f a b).take k = interval f a (min b (a + k - 1)) := by
  rw [interval, interval, ← List.map_take]
  by_cases hk : b + 1 - a ≤ k
  · rw [List.take_range'_of_length_le hk, show min b (a + k - 1) + 1 - a = b + 1 - a by omega]
  · rw [List.take_range'_of_length_ge (by omega),
      show min b (a + k - 1) + 1 - a = k by omega]

theorem append_eq_interval {xs ys : List α} (ha : 0 < a) (hab : a ≤ b + 1)
    (h : xs ++ ys = interval f a b) :
    ∃ c, a ≤ c + 1 ∧ c ≤ b ∧ xs = interval f a c ∧ ys = interval f (c + 1) b := by
  have hxs : xs = interval f a (min b (a + xs.length - 1)) := by
    rw [← take_interval ha, ← h, List.take_left]
  refine ⟨min b (a + xs.length - 1), by omega, by omega, hxs, ?_⟩
  rw [← interval_append (show a ≤ min b (a + xs.length - 1) + 1 by omega) (by omega), ← hxs] at h
  exact List.append_cancel_left h

theorem snoc_eq_interval {xs : List α} {x : α} (ha : 0 < a) (h : xs ++ [x] = interval f a b) :
    ∃ c, a ≤ c + 1 ∧ b = c + 1 ∧ xs = interval f a c ∧ x = f (c + 1) := by
  have hab : a ≤ b := by
    by_contra hlt
    rw [interval_eq_nil (not_le.1 hlt)] at h
    simp at h
  obtain ⟨c, rfl⟩ : ∃ c, b = c + 1 := ⟨b - 1, by omega⟩
  rw [interval_snoc hab] at h
  obtain ⟨hxs, hx⟩ := List.append_inj' h rfl
  exact ⟨c, hab, rfl, hxs, List.singleton_inj.1 hx⟩

section Keys

variable {key : α → ℕ} (hkey : ∀ v, key (f v) = v)

include hkey

theorem dropWhile_interval (start : ℕ) :
    (interval f a b).dropWhile (fun x => key x < start) = interval f (max a start) b := by
  by_cases hb : b < a
  · rw [interval_eq_nil hb, interval_eq_nil (by omega), List.dropWhile_nil]
  · obtain ⟨n, rfl⟩ := Nat.exists_eq_add_of_le (not_lt.1 hb)
    clear hb
    induction n generalizing a with
    | zero =>
        rw [Nat.add_zero, interval_self, List.dropWhile_cons, hkey]
        by_cases ha : a < start
        · rw [if_pos (by simpa using ha), interval_eq_nil (by omega), List.dropWhile_nil]
        · rw [if_neg (by simpa using ha), max_eq_left (not_lt.1 ha), interval_self]
    | succ n ih =>
        rw [interval_cons (by omega), List.dropWhile_cons, hkey]
        by_cases ha : a < start
        · rw [if_pos (by simpa using ha), show a + (n + 1) = a + 1 + n by omega, ih,
            show max (a + 1) start = max a start by omega]
        · rw [if_neg (by simpa using ha), max_eq_left (not_lt.1 ha), ← interval_cons (by omega)]

theorem takeWhile_interval (last : ℕ) :
    (interval f a b).takeWhile (fun x => key x ≤ last) = interval f a (min b last) := by
  by_cases hb : b < a
  · rw [interval_eq_nil hb, interval_eq_nil (by omega), List.takeWhile_nil]
  · obtain ⟨n, rfl⟩ := Nat.exists_eq_add_of_le (not_lt.1 hb)
    clear hb
    induction n generalizing a with
    | zero =>
        rw [Nat.add_zero, interval_self, List.takeWhile_cons, hkey]
        by_cases ha : a ≤ last
        · rw [if_pos (by simpa using ha), min_eq_left ha, interval_self, List.takeWhile_nil]
        · rw [if_neg (by simpa using ha), interval_eq_nil (by omega)]
    | succ n ih =>
        rw [interval_cons (by omega), List.takeWhile_cons, hkey]
        by_cases ha : a ≤ last
        · rw [if_pos (by simpa using ha), show a + (n + 1) = a + 1 + n by omega, ih,
            ← interval_cons (by omega)]
        · rw [if_neg (by simpa using ha), interval_eq_nil (by omega)]

theorem filter_interval (first last : ℕ) :
    (interval f a b).filter (fun x => first ≤ key x ∧ key x ≤ last) =
      interval f (max a first) (min b last) := by
  by_cases hb : b < a
  · rw [interval_eq_nil hb, interval_eq_nil (by omega), List.filter_nil]
  · obtain ⟨n, rfl⟩ := Nat.exists_eq_add_of_le (not_lt.1 hb)
    clear hb
    induction n with
    | zero =>
        rw [Nat.add_zero, interval_self, List.filter_singleton, hkey]
        by_cases ha : first ≤ a ∧ a ≤ last
        · rw [decide_eq_true ha, cond_true, max_eq_left ha.1, min_eq_left ha.2, interval_self]
        · rw [decide_eq_false ha, cond_false, interval_eq_nil (by omega)]
    | succ n ih =>
        rw [← Nat.add_assoc, interval_snoc (by omega), List.filter_append, ih,
          List.filter_singleton, hkey]
        by_cases ha : first ≤ a + n + 1 ∧ a + n + 1 ≤ last
        · rw [decide_eq_true ha, cond_true, min_eq_left (by omega), min_eq_left (by omega),
            ← interval_snoc (by omega)]
        · rw [decide_eq_false ha, cond_false, List.append_nil]
          by_cases hfirst : first ≤ a + n + 1
          · rw [show min (a + n + 1) last = min (a + n) last by omega]
          · rw [interval_eq_nil (by omega), interval_eq_nil (by omega)]

theorem filter_interval_from (first : ℕ) :
    (interval f a b).filter (fun x => first ≤ key x) = interval f (max a first) b := by
  rw [← min_self b, ← filter_interval hkey, min_self]
  refine List.filter_congr (fun x hx => ?_)
  obtain ⟨v, -, hv, rfl⟩ := mem_interval.1 hx
  simp [hkey, hv]

end Keys

end Collage
