import Mathlib.Data.BitVec
import Mathlib.Data.List.Rotate
import Collage.Lib.Loop

/-!
# Instance identifiers

`_genNextID` draws the identifiers of attached objects from a signed counter that wraps. An
identifier above `CO_INSTANCE_MAX` is reserved and is skipped. The constant comes from another
library, so that it is a parameter.
-/

namespace Collage.InstanceIDs

/-- The identifier for a value of the counter, which is widened before it is shifted. -/
def instanceOf (id : BitVec 32) : BitVec 32 := BitVec.ofInt 32 (id.toInt + 0x7FFFFFFF)

/-- The counter and the result after a turn of the loop. -/
structure Draw where
  val : BitVec 32
  result : BitVec 32
  deriving DecidableEq

def next (val : BitVec 32) : Draw := ⟨val + 1, instanceOf (val + 1)⟩

/-- `_genNextID`, as the loop it is. -/
def GenNextID (max val : BitVec 32) : Draw → Prop :=
  Loop (fun s => max < s.result) (fun s => next s.val) (next val)

/-- As many as `turns` further turns of the loop. -/
def draws (max : BitVec 32) : ℕ → Draw → Draw
  | 0, s => s
  | turns + 1, s => if max < s.result then draws max turns (next s.val) else s

/-- The loop with a turn for every reserved identifier. -/
def genNextID (max val : BitVec 32) : Draw := draws max (2 ^ 32 - 1 - max.toNat) (next val)

/-- The results of `count` calls. -/
def genIDs (max : BitVec 32) : ℕ → BitVec 32 → List (BitVec 32)
  | 0, _ => []
  | count + 1, val =>
      (genNextID max val).result :: genIDs max count (genNextID max val).val

/-- The instance identifier that `_attach` gives to an object, and the counter. -/
def attach (max invalid inInstanceID instanceIDs : BitVec 32) : BitVec 32 × BitVec 32 :=
  if inInstanceID = invalid then
    ((genNextID max instanceIDs).result, (genNextID max instanceIDs).val)
  else (inInstanceID, instanceIDs)

/-- The identifiers that are generated for a series of attachments. -/
def generated (max invalid : BitVec 32) : List (BitVec 32) → BitVec 32 → List (BitVec 32)
  | [], _ => []
  | inInstanceID :: rest, instanceIDs =>
      let (instanceID, instanceIDs') := attach max invalid inInstanceID instanceIDs
      if inInstanceID = invalid then instanceID :: generated max invalid rest instanceIDs'
      else generated max invalid rest instanceIDs'

variable {max val : BitVec 32} {t : Draw} {n : ℕ}

theorem instanceOf_eq (id : BitVec 32) : instanceOf id = id + 0x7FFFFFFF := by
  rw [instanceOf, BitVec.ofInt_add, BitVec.ofInt_toInt]
  rfl

theorem instanceOf_succ (id : BitVec 32) : instanceOf (id + 1) = instanceOf id + 1 := by
  rw [instanceOf_eq, instanceOf_eq, BitVec.add_assoc, BitVec.add_comm 1, BitVec.add_assoc]

theorem toNat_next {s : Draw} (h : s.result = instanceOf s.val) :
    (next s.val).result.toNat = (s.result.toNat + 1) % 2 ^ 32 := by
  rw [next, instanceOf_succ, ← h, BitVec.toNat_add]
  rfl

/-- The loop ends, and takes no more than a turn for every reserved identifier after the first. -/
theorem genNextID_loop (max val : BitVec 32) : GenNextID max val (genNextID max val) := by
  have hmax := max.isLt
  refine Loop.of_fuel (P := fun s => s.result = instanceOf s.val)
    (m := fun s => if max < s.result then 2 ^ 32 - s.result.toNat else 0) (fun _ => rfl)
    (fun _ _ => rfl) ?_ rfl ?_
  · intro s hs hcond
    refine ⟨rfl, ?_⟩
    have hlt := s.result.isLt
    have hnext := toNat_next hs
    rw [BitVec.lt_def] at hcond
    simp only [BitVec.lt_def, if_pos hcond, hnext]
    split_ifs <;> omega
  · simp only [BitVec.lt_def]
    split_ifs <;> omega

theorem genNextID_iff : GenNextID max val t ↔ t = genNextID max val := by
  constructor
  · exact fun h => (genNextID_loop max val).unique h
  · rintro rfl
    exact genNextID_loop max val

theorem result_le (max val : BitVec 32) : (genNextID max val).result ≤ max :=
  BitVec.not_lt.1 (genNextID_loop max val).not_cond

theorem result_eq (max val : BitVec 32) :
    (genNextID max val).result = instanceOf (genNextID max val).val :=
  (genNextID_loop max val).invariant (P := fun s => s.result = instanceOf s.val)
    (fun _ _ _ => rfl) rfl

theorem result_cases (max val : BitVec 32) :
    (next val).result ≤ max ∧ (genNextID max val).result = (next val).result ∨
      max < (next val).result ∧ (genNextID max val).result = 0 := by
  have hloop := genNextID_loop max val
  by_cases hlt : max < (next val).result
  · refine Or.inr ⟨hlt, ?_⟩
    have hskip : max < (genNextID max val).result ∨ (genNextID max val).result = 0 := by
      refine (hloop.invariant (P := fun s => s.result = instanceOf s.val ∧
        (max < s.result ∨ s.result = 0)) ?_ ⟨rfl, Or.inl hlt⟩).2
      rintro s ⟨hs, -⟩ hcond
      refine ⟨rfl, ?_⟩
      have hnext := toNat_next hs
      have hbound := s.result.isLt
      rw [BitVec.lt_def] at hcond ⊢
      by_cases hlast : s.result.toNat + 1 = 2 ^ 32
      · right
        apply BitVec.eq_of_toNat_eq
        rw [hnext, hlast]
        rfl
      · left
        omega
    exact hskip.resolve_left hloop.not_cond
  · refine Or.inl ⟨BitVec.not_lt.1 hlt, ?_⟩
    rw [hloop.unique (Loop.exit hlt)]

/-- The identifier after an identifier is the next one in the cycle of those that are not
reserved. -/
theorem result_next (max val : BitVec 32) :
    (genNextID max (genNextID max val).val).result.toNat =
      ((genNextID max val).result.toNat + 1) % (max.toNat + 1) := by
  have hle := result_le max val
  have hmax := max.isLt
  have hnext := toNat_next (result_eq max val)
  rw [BitVec.le_def] at hle
  rcases Nat.lt_or_eq_of_le hle with hlt | heq
  · rw [Nat.mod_eq_of_lt (by omega)] at hnext
    rw [Nat.mod_eq_of_lt (a := _ + 1) (by omega)]
    obtain ⟨-, hresult⟩ | ⟨hskip, -⟩ := result_cases max (genNextID max val).val
    · rw [hresult, hnext]
    · rw [BitVec.lt_def] at hskip
      omega
  · rw [heq] at hnext ⊢
    rw [Nat.mod_self]
    obtain ⟨hfits, hresult⟩ | ⟨-, hresult⟩ := result_cases max (genNextID max val).val
    · rw [BitVec.le_def] at hfits
      rw [hresult]
      omega
    · rw [hresult]
      rfl

theorem map_genIDs (max : BitVec 32) (count : ℕ) (val : BitVec 32) :
    (genIDs max count val).map BitVec.toNat = (List.range count).map
      (fun k => ((genNextID max val).result.toNat + k) % (max.toNat + 1)) := by
  induction count generalizing val with
  | zero => rfl
  | succ count ih =>
      have hle := result_le max val
      rw [BitVec.le_def] at hle
      rw [genIDs, List.map_cons, ih, List.range_succ_eq_map, List.map_cons, List.map_map,
        Nat.add_zero, Nat.mod_eq_of_lt (by omega), result_next]
      congr 1
      apply List.map_congr_left
      intro k _
      simp only [Function.comp_apply, Nat.succ_eq_add_one, Nat.mod_add_mod]
      rw [Nat.add_assoc, Nat.add_comm 1]

theorem le_of_mem_genIDs {id : BitVec 32} {count : ℕ} (h : id ∈ genIDs max count val) :
    id ≤ max := by
  induction count generalizing val with
  | zero => cases h
  | succ count ih =>
      rcases List.mem_cons.1 h with rfl | h
      · exact result_le max val
      · exact ih h

theorem map_genIDs_cycle (max val : BitVec 32) :
    (genIDs max (max.toNat + 1) val).map BitVec.toNat =
      (List.range (max.toNat + 1)).rotate (genNextID max val).result.toNat := by
  rw [map_genIDs]
  apply List.ext_getElem
  · rw [List.length_map, List.length_rotate]
  · intro k _ _
    rw [List.getElem_map, List.getElem_rotate, List.getElem_range, List.getElem_range,
      List.length_range, Nat.add_comm]

theorem nodup_cycle (max val : BitVec 32) : (genIDs max (max.toNat + 1) val).Nodup := by
  apply List.Nodup.of_map BitVec.toNat
  rw [map_genIDs_cycle, List.nodup_rotate]
  exact List.nodup_range

theorem mem_cycle {id : BitVec 32} : id ∈ genIDs max (max.toNat + 1) val ↔ id ≤ max := by
  have hinj : Function.Injective (BitVec.toNat : BitVec 32 → ℕ) :=
    fun _ _ h => BitVec.eq_of_toNat_eq h
  rw [← List.mem_map_of_injective hinj, map_genIDs_cycle, List.mem_rotate, List.mem_range,
    Nat.lt_succ_iff, BitVec.le_def]

/-- Each call ends with an identifier that is not reserved, and a cycle of calls gives each of
these identifiers once. -/
theorem instance_ids_cycle (max val : BitVec 32) :
    (∀ t, GenNextID max val t ↔ t = genNextID max val) ∧ (genNextID max val).result ≤ max ∧
      (genIDs max (max.toNat + 1) val).Nodup ∧
        ∀ id, id ∈ genIDs max (max.toNat + 1) val ↔ id ≤ max :=
  ⟨fun _ => genNextID_iff, result_le max val, nodup_cycle max val, fun _ => mem_cycle⟩

theorem genIDs_initial {count : ℕ} (h : count ≤ n) : genIDs max count val <+: genIDs max n val := by
  induction count generalizing n val with
  | zero => exact List.nil_prefix
  | succ count ih =>
      obtain ⟨k, rfl⟩ : ∃ k, n = k + 1 := ⟨n - 1, by omega⟩
      rw [genIDs, genIDs, List.cons_prefix_cons]
      exact ⟨rfl, ih (by omega)⟩

theorem generated_eq (max invalid : BitVec 32) (requests : List (BitVec 32)) (val : BitVec 32) :
    generated max invalid requests val = genIDs max (requests.count invalid) val := by
  induction requests generalizing val with
  | nil => rfl
  | cons inInstanceID rest ih =>
      rw [generated, attach, List.count_cons]
      by_cases hinvalid : inInstanceID = invalid
      · simp only [hinvalid, beq_self_eq_true, if_true, genIDs, ih]
      · simp only [if_neg hinvalid, beq_iff_eq, ih, Nat.add_zero]

/-- The objects of a series get different identifiers unless more are generated than there are. -/
theorem nodup_generated {invalid : BitVec 32} {requests : List (BitVec 32)}
    (h : requests.count invalid ≤ max.toNat + 1) :
    (generated max invalid requests val).Nodup := by
  rw [generated_eq]
  exact (genIDs_initial h).sublist.nodup (nodup_cycle max val)

/-- The first identifier of a store, and the first after a wrap. -/
example : (genNextID 0xfffffff0 (BitVec.ofInt 32 (-0x7FFFFFFF))).result = 1 ∧
    (genNextID 0xfffffff0 0x7ffffff1).result = 0 := by
  decide

end Collage.InstanceIDs
