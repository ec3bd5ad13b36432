import Mathlib.Data.List.Perm.Basic
import Collage.Rdma.Ring

/-!
# Registered buffers

`RingBuffer` is a circular buffer that is mapped to two adjacent regions of memory, so that a copy
that starts inside it may run over its end and continue at its beginning. `BufferPool` keeps the
numbers of its free buffers in the queue `BufferQ`.
-/

namespace Collage.Rdma

/-- The contents of a `RingBuffer`, by index. -/
abbrev Memory := ℕ → UInt8

namespace Memory

/-- Copies `length` bytes out of a ring buffer of `size` bytes. -/
def load (memory : Memory) (size start length : ℕ) : List UInt8 :=
  (List.range length).map (fun k => memory ((start + k) % size))

/-- Copies bytes into a ring buffer of `size` bytes. -/
def store (memory : Memory) (size start : ℕ) : List UInt8 → Memory
  | [] => memory
  | byte :: bytes => store (Function.update memory (start % size) byte) size (start + 1) bytes

variable {memory : Memory} {size start : ℕ} {bytes : List UInt8}

@[simp] theorem length_load (length : ℕ) : (memory.load size start length).length = length := by
  simp [load]

/-- Two positions less than a ring apart have different indices. -/
theorem mod_ne_mod {m n : ℕ} (hlt : m < n) (hsize : n < m + size) : n % size ≠ m % size := by
  intro heq
  have hdvd : size ∣ n - m := (Nat.modEq_iff_dvd' hlt.le).1 heq.symm
  exact absurd (Nat.le_of_dvd (by omega) hdvd) (by omega)

theorem store_before {m : ℕ} (hlt : m < start) (hsize : start + bytes.length ≤ m + size) :
    memory.store size start bytes (m % size) = memory (m % size) := by
  induction bytes generalizing memory start with
  | nil => rfl
  | cons byte bytes ih =>
      rw [List.length_cons] at hsize
      rw [store, ih (by omega) (by omega), Function.update_of_ne]
      exact (mod_ne_mod hlt (by omega)).symm

theorem store_at (hsize : bytes.length ≤ size) {k : ℕ} (hk : k < bytes.length) :
    memory.store size start bytes ((start + k) % size) = bytes[k] := by
  induction bytes generalizing memory start k with
  | nil => exact absurd hk (Nat.not_lt_zero k)
  | cons byte bytes ih =>
      rw [List.length_cons] at hsize hk
      cases k with
      | zero =>
          rw [Nat.add_zero, store, store_before (by omega) (by omega), Function.update_self]
          rfl
      | succ k =>
          rw [store, show start + (k + 1) = start + 1 + k by omega,
            ih (by omega) (by omega : k < bytes.length), List.getElem_cons_succ]

theorem load_eq {stream : List UInt8} {length : ℕ} (hlen : start + length ≤ stream.length)
    (h : ∀ k, start ≤ k → k < start + length → stream[k]? = some (memory (k % size))) :
    memory.load size start length = (stream.drop start).take length := by
  apply List.ext_getElem
  · rw [length_load, List.length_take, List.length_drop]
    omega
  · intro k hk hk'
    rw [length_load] at hk
    have hget := h (start + k) (by omega) (by omega)
    rw [List.getElem_take, List.getElem_drop]
    rw [List.getElem?_eq_getElem (by omega), Option.some.injEq] at hget
    rw [hget]
    simp [load]

theorem load_mod (length : ℕ) :
    memory.load size (start % size) length = memory.load size start length := by
  simp only [load, Nat.mod_add_mod]

theorem store_mod : memory.store size (start % size) bytes = memory.store size start bytes := by
  have hstep : ∀ (bytes : List UInt8) (memory : Memory) (m n : ℕ), m % size = n % size →
      memory.store size m bytes = memory.store size n bytes := by
    intro bytes
    induction bytes with
    | nil => intros; rfl
    | cons byte bytes ih =>
        intro memory m n h
        rw [store, store, h]
        apply ih
        rw [← Nat.mod_add_mod m, h, Nat.mod_add_mod]
  exact hstep bytes memory _ _ (Nat.mod_mod start size)

end Memory

/-- The free buffers of a `BufferPool`, in the slots of a `BufferQ`. -/
structure BufferPool where
  ring : Ring 64
  slots : ℕ → ℕ

namespace BufferPool

def getBuffer (pool : BufferPool) : ℕ × BufferPool :=
  (pool.slots (pool.ring.head.ptr pool.ring.num).toNat, { pool with ring := pool.ring.incrHead 1 })

def freeBuffer (pool : BufferPool) (buffer : ℕ) : BufferPool where
  ring := pool.ring.incrTail 1
  slots := Function.update pool.slots (pool.ring.tail.ptr pool.ring.num).toNat buffer

/-- `Ring::isEmpty`, which nobody asks before a buffer is handed out. -/
def isEmpty (pool : BufferPool) : Bool := pool.ring.head.value == pool.ring.tail.value

def resize (numBufs : ℕ) : BufferPool :=
  (List.range numBufs).foldl freeBuffer ⟨.clear (BitVec.ofNat 64 numBufs), fun _ => 0⟩

/-- The pool of `num` buffers has the buffers of the list to hand out, the first one first. -/
structure Holds (num : ℕ) (pool : BufferPool) (free : List ℕ) : Prop where
  intro ::
  num_eq : pool.ring.num.toNat = num
  counts : ∃ taken, pool.ring.head.Counts pool.ring.num taken ∧
    pool.ring.tail.Counts pool.ring.num (taken + free.length) ∧
    ∀ k (hk : k < free.length), pool.slots ((taken + k) % num) = free[k]
  length_le : free.length ≤ num

variable {num buffer : ℕ} {pool : BufferPool} {free : List ℕ}

theorem Holds.getBuffer (h : Holds num pool (buffer :: free)) (hnum : 2 * num < 2 ^ 64) :
    pool.getBuffer.1 = buffer ∧ Holds num pool.getBuffer.2 free := by
  obtain ⟨taken, hhead, htail, hslots⟩ := h.counts
  have hlen := h.length_le
  rw [List.length_cons] at hlen htail
  have hpos : 0 < pool.ring.num.toNat := by
    rw [h.num_eq]
    omega
  have hsize : 2 * pool.ring.num.toNat < 2 ^ 64 := by
    rw [h.num_eq]
    exact hnum
  constructor
  · rw [BufferPool.getBuffer, hhead.ptr hpos hsize, h.num_eq]
    exact hslots 0 (by simp)
  · refine ⟨h.num_eq, ⟨taken + 1, hhead.incr hpos, ?_, ?_⟩, by omega⟩
    · rw [Nat.add_right_comm]
      exact htail
    · intro k hk
      rw [Nat.add_assoc, Nat.add_comm 1]
      exact hslots (k + 1) (by simp; omega)

theorem Holds.freeBuffer (h : Holds num pool free) (hlt : free.length < num)
    (hnum : 2 * num < 2 ^ 64) : Holds num (pool.freeBuffer buffer) (free ++ [buffer]) := by
  obtain ⟨taken, hhead, htail, hslots⟩ := h.counts
  have hpos : 0 < pool.ring.num.toNat := by
    rw [h.num_eq]
    omega
  have hsize : 2 * pool.ring.num.toNat < 2 ^ 64 := by
    rw [h.num_eq]
    exact hnum
  refine ⟨h.num_eq, ⟨taken, hhead, ?_, ?_⟩, ?_⟩
  · rw [List.length_append, ← Nat.add_assoc]
    exact htail.incr hpos
  · intro k hk
    simp only [BufferPool.freeBuffer]
    rw [htail.ptr hpos hsize, h.num_eq]
    rw [List.length_append, List.length_singleton] at hk
    rcases Nat.lt_succ_iff_lt_or_eq.1 hk with hk | rfl
    · rw [Function.update_of_ne, hslots k hk, List.getElem_append_left hk]
      exact (Memory.mod_ne_mod (by omega) (by omega)).symm
    · rw [Function.update_self, List.getElem_concat_length rfl]
  · rw [List.length_append]
    exact hlt

theorem Holds.isEmpty_iff (h : Holds num pool free) (hnum : 2 * num < 2 ^ 64) :
    pool.isEmpty = true ↔ free = [] := by
  obtain ⟨taken, hhead, htail, -⟩ := h.counts
  have hlen := h.length_le
  have hhead := hhead.value
  have htail := htail.value
  rw [isEmpty, beq_iff_eq, BitVec.toNat_eq, hhead, htail, ← List.length_eq_zero_iff]
  omega

theorem holds_resize (hnum : 2 * num < 2 ^ 64) : Holds num (resize num) (List.range num) := by
  have hfill : ∀ k ≤ num, Holds num
      ((List.range k).foldl freeBuffer ⟨.clear (BitVec.ofNat 64 num), fun _ => 0⟩)
      (List.range k) := by
    intro k
    induction k with
    | zero =>
        intro _
        refine ⟨?_, ⟨0, RingPtr.counts_clear _, RingPtr.counts_clear _, ?_⟩, Nat.zero_le _⟩
        · exact Nat.mod_eq_of_lt (by omega)
        · intro k hk
          exact absurd hk (Nat.not_lt_zero k)
    | succ k ih =>
        intro hk
        rw [List.range_succ, List.foldl_append]
        exact (ih (by omega)).freeBuffer (by rw [List.length_range]; omega) hnum
  exact hfill num le_rfl

end BufferPool

end Collage.Rdma
