import Mathlib.Algebra.Ring.Nat
import Mathlib.Data.BitVec
import Mathlib.Tactic.Common

/-!
# Ring pointers

The pointers of `ring.h`, over counters of any width. A pointer keeps its counter modulo
`2 ^ width` and a correction that makes the index right after the counter has wrapped, for sizes
that are no power of two. `Counts` says how far a pointer has been advanced in total.
-/

namespace Collage.Rdma

structure RingPtr (width : ℕ) where
  value : BitVec width
  adjust : BitVec width
  deriving DecidableEq

namespace RingPtr

variable {width : ℕ}

def clear : RingPtr width := ⟨0, 0⟩

/-- The index of the pointer in a ring of `num` entries. -/
def ptr (p : RingPtr width) (num : BitVec width) : BitVec width :=
  (p.value % num + p.adjust) % num

def incr (p : RingPtr width) (num amount : BitVec width) : RingPtr width where
  value := p.value + amount
  adjust :=
    if p.value + amount < p.value then (p.adjust + BitVec.allOnes width % num + 1) % num
    else p.adjust

/-- The pointer has been advanced by `n` entries since it was cleared. -/
structure Counts (num : BitVec width) (p : RingPtr width) (n : ℕ) : Prop where
  value : p.value.toNat = n % 2 ^ width
  adjust : p.adjust.toNat = 2 ^ width * (n / 2 ^ width) % num.toNat

variable {num amount : BitVec width} {p q : RingPtr width} {m n : ℕ}

theorem ptr_lt (p : RingPtr width) (hpos : 0 < num.toNat) : (p.ptr num).toNat < num.toNat := by
  rw [ptr, BitVec.toNat_umod]
  exact Nat.mod_lt _ hpos

theorem counts_clear (num : BitVec width) : Counts num clear 0 where
  value := by simp [clear]
  adjust := by simp [clear]

theorem Counts.ptr (h : Counts num p n) (hpos : 0 < num.toNat) (hnum : 2 * num.toNat < 2 ^ width) :
    (p.ptr num).toNat = n % num.toNat := by
  have hmod : n % 2 ^ width % num.toNat < num.toNat := Nat.mod_lt _ hpos
  have hadj : 2 ^ width * (n / 2 ^ width) % num.toNat < num.toNat := Nat.mod_lt _ hpos
  rw [RingPtr.ptr, BitVec.toNat_umod, BitVec.toNat_add, BitVec.toNat_umod, h.value, h.adjust,
    Nat.mod_eq_of_lt (show _ < 2 ^ width by omega), ← Nat.add_mod, Nat.mod_add_div]

theorem Counts.ptr_of_lt (h : Counts num p n) (hpos : 0 < num.toNat) (hn : n < 2 ^ width) :
    (p.ptr num).toNat = n % num.toNat := by
  have hmod : n % num.toNat < 2 ^ width := (Nat.mod_lt _ hpos).trans num.isLt
  rw [RingPtr.ptr, BitVec.toNat_umod, BitVec.toNat_add, BitVec.toNat_umod, h.value, h.adjust,
    Nat.div_eq_of_lt hn, Nat.mul_zero, Nat.zero_mod, Nat.add_zero, Nat.mod_eq_of_lt hn,
    Nat.mod_eq_of_lt hmod, Nat.mod_mod]

/-- A sum of a remainder and a smaller amount wraps at most once. -/
theorem div_add_of_lt {a k : ℕ} (ha : a < k) :
    ((n + a) % k < n % k → (n + a) / k = n / k + 1) ∧
      (¬ (n + a) % k < n % k → (n + a) / k = n / k) := by
  have hk : 0 < k := by omega
  have hlt : n % k < k := Nat.mod_lt _ hk
  have hsplit : n + a = n % k + a + k * (n / k) := by
    have h := Nat.mod_add_div n k
    omega
  rw [hsplit, Nat.add_mul_mod_self_left, Nat.add_mul_div_left _ _ hk]
  rcases lt_or_ge (n % k + a) k with hwrap | hwrap
  · rw [Nat.mod_eq_of_lt hwrap, Nat.div_eq_of_lt hwrap]
    omega
  · rw [Nat.mod_eq_sub_mod hwrap, Nat.mod_eq_of_lt (by omega), Nat.div_eq_sub_div hk hwrap,
      Nat.div_eq_of_lt (by omega)]
    omega

theorem add_allOnes_mod_lt {k : ℕ} (hk : k < num.toNat) :
    k + (2 ^ width - 1) % num.toNat + 1 < 2 ^ width := by
  have hlt := num.isLt
  rcases lt_or_ge (2 ^ width - 1 - num.toNat) num.toNat with hlarge | hsmall
  · rw [Nat.mod_eq_sub_mod (by omega), Nat.mod_eq_of_lt hlarge]
    omega
  · have hmod : (2 ^ width - 1) % num.toNat < num.toNat := Nat.mod_lt _ (by omega)
    omega

theorem Counts.incr (h : Counts num p n) (hpos : 0 < num.toNat) :
    Counts num (p.incr num amount) (n + amount.toNat) := by
  have hsum : (p.value + amount).toNat = (n + amount.toNat) % 2 ^ width := by
    rw [BitVec.toNat_add, h.value, Nat.mod_add_mod]
  obtain ⟨hwraps, hstays⟩ := div_add_of_lt (n := n) amount.isLt
  refine ⟨hsum, ?_⟩
  rw [RingPtr.incr]
  split_ifs with hwrap
  · rw [BitVec.lt_def, hsum, h.value] at hwrap
    have hadj : p.adjust.toNat < num.toNat := by
      rw [h.adjust]
      exact Nat.mod_lt _ hpos
    have hmax : (BitVec.allOnes width % num).toNat = (2 ^ width - 1) % num.toNat := by
      rw [BitVec.toNat_umod, BitVec.toNat_allOnes]
    have hone : (1 : BitVec width).toNat = 1 := by
      have hlt : 1 < 2 ^ width := by have := num.isLt; omega
      simp only [BitVec.ofNat_eq_ofNat, BitVec.toNat_ofNat, Nat.mod_eq_of_lt hlt]
    have hsmall := add_allOnes_mod_lt hadj
    rw [← hmax] at hsmall
    have hsum' : (p.adjust + BitVec.allOnes width % num).toNat =
        p.adjust.toNat + (BitVec.allOnes width % num).toNat :=
      BitVec.toNat_add_of_lt (by omega)
    have hnext : (p.adjust + BitVec.allOnes width % num + 1).toNat =
        2 ^ width * (n / 2 ^ width) % num.toNat + ((2 ^ width - 1) % num.toNat + 1) := by
      rw [BitVec.toNat_add_of_lt (by rwa [hsum', hone]), hsum', hmax, hone, h.adjust,
        Nat.add_assoc]
    have hpow : 2 ^ width - 1 + 1 = 2 ^ width := Nat.sub_add_cancel (by omega)
    simp only
    rw [hwraps hwrap, BitVec.toNat_umod, hnext, Nat.mod_add_mod, Nat.add_left_comm,
      Nat.mod_add_mod, ← Nat.add_left_comm, hpow, Nat.mul_add, Nat.mul_one]
  · rw [BitVec.lt_def, hsum, h.value] at hwrap
    rw [hstays hwrap]
    exact h.adjust

theorem Counts.incr_ofNat (h : Counts num p n) (hpos : 0 < num.toNat) (hm : m < 2 ^ width) :
    Counts num (p.incr num (BitVec.ofNat width m)) (n + m) := by
  have hincr := @Counts.incr width num (BitVec.ofNat width m) p n h hpos
  rwa [BitVec.toNat_ofNat, Nat.mod_eq_of_lt hm] at hincr

theorem Counts.toNat_sub (h : Counts num p n) (h' : Counts num q m) (hle : m ≤ n)
    (hlt : n < m + 2 ^ width) : (p.value - q.value).toNat = n - m := by
  have hp : p.value = BitVec.ofNat width n := by
    apply BitVec.eq_of_toNat_eq
    rw [h.value, BitVec.toNat_ofNat]
  have hq : q.value = BitVec.ofNat width m := by
    apply BitVec.eq_of_toNat_eq
    rw [h'.value, BitVec.toNat_ofNat]
  have hsplit : p.value - q.value = BitVec.ofNat width (n - m) := by
    rw [hp, hq, ← Nat.sub_add_cancel hle, BitVec.ofNat_add, BitVec.add_sub_cancel,
      Nat.add_sub_cancel]
  rw [hsplit, BitVec.toNat_ofNat]
  exact Nat.mod_eq_of_lt (by omega)

end RingPtr

/-- `Ring`. The rings with two pointers have no use for the middle one. -/
structure Ring (width : ℕ) where
  num : BitVec width
  head : RingPtr width
  middle : RingPtr width
  tail : RingPtr width
  deriving DecidableEq

namespace Ring

variable {width : ℕ}

def clear (num : BitVec width) : Ring width := ⟨num, .clear, .clear, .clear⟩

def available (r : Ring width) : BitVec width := r.head.value - r.tail.value

def negAvailable (r : Ring width) : BitVec width := r.num - r.available

def incrHead (r : Ring width) (amount : BitVec width) : Ring width :=
  { r with head := r.head.incr r.num amount }

def incrMiddle (r : Ring width) (amount : BitVec width) : Ring width :=
  { r with middle := r.middle.incr r.num amount }

def incrTail (r : Ring width) (amount : BitVec width) : Ring width :=
  { r with tail := r.tail.incr r.num amount }

variable {r : Ring width} {m n : ℕ}

theorem available_toNat (hhead : r.head.Counts r.num n) (htail : r.tail.Counts r.num m)
    (hle : m ≤ n) (hfits : n ≤ m + r.num.toNat) : r.available.toNat = n - m :=
  hhead.toNat_sub htail hle (by have := r.num.isLt; omega)

theorem negAvailable_toNat (hhead : r.head.Counts r.num n) (htail : r.tail.Counts r.num m)
    (hle : m ≤ n) (hfits : n ≤ m + r.num.toNat) :
    r.negAvailable.toNat = r.num.toNat - (n - m) := by
  have havail := available_toNat hhead htail hle hfits
  rw [negAvailable, BitVec.toNat_sub_of_le, havail]
  rw [BitVec.le_def, havail]
  omega

end Ring

end Collage.Rdma
