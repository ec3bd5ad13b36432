import Collage.Stream.Symmetry

/-!
# Portable archives

`DataOStreamArchive` and `DataIStreamArchive` for booleans and integers. An integer is saved as the
number of its bytes, negative for a negative value, and these bytes from the lowest one on; the
rest is zeros or ones.
-/

namespace Collage.Stream

/-- An integral type `T`. -/
structure IntType where
  /-- `sizeof( T )`. -/
  bytes : ℕ
  isSigned : Bool
  bytes_mem : bytes = 1 ∨ bytes = 2 ∨ bytes = 4 ∨ bytes = 8

namespace IntType

variable (T : IntType)

abbrev Bits : Type := BitVec (8 * T.bytes)

def value (x : T.Bits) : ℤ := if T.isSigned then x.toInt else x.toNat

/-- `>>= CHAR_BIT`. -/
def shift (x : T.Bits) : T.Bits := if T.isSigned then x.sshiftRight 8 else x >>> 8

end IntType

inductive ArchiveException
  | invalidSignature
  | unsupportedVersion
  | negative
  | invalidSize (size : ℤ)
  deriving DecidableEq, Repr

abbrev Thrown (α : Type) := Except ArchiveException α

namespace IntType

variable {T : IntType}

theorem value_shift (x : T.Bits) : T.value (T.shift x) = T.value x / 256 := by
  unfold value shift
  cases T.isSigned with
  | true =>
      simp only [if_true]
      rw [BitVec.toInt_sshiftRight, Int.shiftRight_eq_div_pow]
      norm_num
  | false =>
      simp only [Bool.false_eq_true, if_false]
      rw [BitVec.toNat_ushiftRight, Nat.shiftRight_eq_div_pow]
      norm_num

theorem bytes_pos (T : IntType) : 0 < T.bytes := by
  have h := T.bytes_mem
  omega

theorem bytes_le (T : IntType) : T.bytes ≤ 8 := by
  have h := T.bytes_mem
  omega

theorem two_pow_bits (T : IntType) : 2 ^ (8 * T.bytes) = 256 ^ T.bytes := by
  rw [pow_mul]
  norm_num

theorem value_eq_zero_iff {x : T.Bits} : T.value x = 0 ↔ x = 0 := by
  unfold value
  cases T.isSigned with
  | true =>
      simp only [if_true]
      rw [← BitVec.toInt_inj]
      simp
  | false =>
      simp only [Bool.false_eq_true, if_false]
      rw [← BitVec.toNat_inj]
      simp

/-- A shifted value is all ones only if it is negative. -/
theorem shift_eq_neg_one_iff {x : T.Bits} :
    T.shift x = -1#_ ↔ T.value (T.shift x) = -1 := by
  have hbytes := T.bytes_pos
  rw [BitVec.neg_one_eq_allOnes]
  unfold value
  cases hsigned : T.isSigned with
  | true =>
      rw [if_pos rfl, ← BitVec.toInt_inj, BitVec.toInt_allOnes, if_pos (by omega)]
  | false =>
      rw [if_neg (by simp)]
      refine iff_of_false (fun h => ?_) (by omega)
      have hnat := congrArg BitVec.toNat h
      have hlt := x.isLt
      have hpow : (256 : ℕ) ≤ 2 ^ (8 * T.bytes) := by
        rw [two_pow_bits]
        exact Nat.le_self_pow hbytes.ne' 256
      rw [shift, hsigned, if_neg (by simp), BitVec.toNat_ushiftRight, Nat.shiftRight_eq_div_pow,
        BitVec.toNat_allOnes] at hnat
      omega

/-- The loop of `save` ends when only the sign is left. -/
theorem shift_done_iff {x : T.Bits} :
    T.shift x = 0 ∨ T.shift x = -1#_ ↔ T.value x / 256 = 0 ∨ T.value x / 256 = -1 := by
  rw [shift_eq_neg_one_iff, ← value_eq_zero_iff, value_shift]

/-- The number of shifts in the loop of `save`. -/
def countBytes (temp : T.Bits) : ℕ :=
  if T.shift temp = 0 ∨ T.shift temp = -1#_ then 1 else countBytes (T.shift temp) + 1
termination_by (T.value temp).natAbs
decreasing_by
  rename_i hgo
  rw [shift_done_iff] at hgo
  rw [value_shift]
  omega

theorem countBytes_bounds (x : T.Bits) :
    1 ≤ countBytes x ∧ -256 ^ countBytes x ≤ T.value x ∧ T.value x < 256 ^ countBytes x := by
  induction x using countBytes.induct with
  | case1 x hdone =>
      rw [countBytes, if_pos hdone]
      rw [shift_done_iff] at hdone
      refine ⟨le_rfl, ?_, ?_⟩ <;> omega
  | case2 x hgo ih =>
      rw [countBytes, if_neg hgo]
      obtain ⟨-, hlo, hhi⟩ := ih
      rw [value_shift] at hlo hhi
      have hpow : (256 : ℤ) ^ (countBytes (T.shift x) + 1) = 256 ^ countBytes (T.shift x) * 256 :=
        pow_succ _ _
      refine ⟨Nat.le_add_left 1 _, ?_, ?_⟩ <;> omega

theorem countBytes_le {x : T.Bits} {n : ℕ} (hn : 1 ≤ n) (hlo : -256 ^ n ≤ T.value x)
    (hhi : T.value x < 256 ^ n) : countBytes x ≤ n := by
  induction n, hn using Nat.le_induction generalizing x with
  | base =>
      rw [countBytes, if_pos (shift_done_iff.2 (by omega))]
  | succ n hn ih =>
      have hpow : (256 : ℤ) ^ (n + 1) = 256 ^ n * 256 := pow_succ _ _
      rw [countBytes]
      split_ifs
      · omega
      · have hle := ih (x := T.shift x) (by rw [value_shift]; omega) (by rw [value_shift]; omega)
        omega

theorem value_cases (x : T.Bits) :
    (0 ≤ T.value x ∧ T.value x = x.toNat) ∨
      (T.isSigned = true ∧ T.value x < 0 ∧ T.value x = x.toNat - 256 ^ T.bytes) := by
  have hpow : ((2 ^ (8 * T.bytes) : ℕ) : ℤ) = 256 ^ T.bytes := by
    rw [two_pow_bits]
    push_cast
    rfl
  have hlt := x.isLt
  unfold value
  cases T.isSigned with
  | true =>
      rw [if_pos rfl, BitVec.toInt_eq_toNat_cond]
      split_ifs
      · exact Or.inl ⟨by omega, rfl⟩
      · exact Or.inr ⟨rfl, by omega, by rw [← hpow]⟩
  | false => exact Or.inl ⟨by simp, rfl⟩

theorem countBytes_le_bytes (x : T.Bits) : countBytes x ≤ T.bytes := by
  have hlt : ((x.toNat : ℕ) : ℤ) < 256 ^ T.bytes := by
    have hnat := x.isLt
    rw [two_pow_bits] at hnat
    exact_mod_cast hnat
  have hpos : (0 : ℤ) < 256 ^ T.bytes := Int.pow_pos (by decide)
  refine countBytes_le T.bytes_pos ?_ ?_ <;>
    rcases value_cases x with ⟨h0, hx⟩ | ⟨-, h0, hx⟩ <;> omega

end IntType

def saveSignedChar (c : ℤ) : Bytes := [UInt8.ofBitVec (BitVec.ofInt 8 c)]

def loadSignedChar (cfg : Config) : Read ℤ :=
  (fun bytes => (bytes.getD 0 0).toBitVec.toInt) <$> DataIStream.read cfg 1

/-- `save` and `load` of an integral type. -/
def IntType.save (T : IntType) (t : T.Bits) : List Bytes :=
  if t ≠ 0 then
    [saveSignedChar (if 0 < T.value t then IntType.countBytes t else -IntType.countBytes t),
      (toLE T.bytes t.toNat).take (IntType.countBytes t)]
  else [saveSignedChar 0]

def IntType.load (cfg : Config) (T : IntType) : Read (Thrown T.Bits) := do
  let size ← loadSignedChar cfg
  if size ≠ 0 then
    if size < 0 ∧ T.isSigned = false then pure (.error .negative)
    else if T.bytes < size.natAbs then pure (.error (.invalidSize size))
    else do
      let data ← DataIStream.read cfg size.natAbs
      let temp := data ++ List.replicate (T.bytes - size.natAbs) (if size < 0 then 255 else 0)
      pure (.ok (BitVec.ofNat _ (ofLE temp)))
  else pure (.ok 0)

def saveBool (b : Bool) : List Bytes :=
  if b then [saveSignedChar 1, saveSignedChar 84] else [saveSignedChar 0]

def loadBool (cfg : Config) : Read (Thrown Bool) := do
  let c ← loadSignedChar cfg
  if c = 0 then pure (.ok false)
  else if c = 1 then do
    let b ← loadSignedChar cfg
    pure (.ok (b ≠ 0))
  else pure (.error (.invalidSize c))

inductive ArchiveType
  | bool
  | int (T : IntType)

namespace ArchiveType

abbrev Value : ArchiveType → Type
  | bool => Bool
  | int T => T.Bits

def save : (A : ArchiveType) → A.Value → List Bytes
  | bool, b => saveBool b
  | int T, t => T.save t

def load (cfg : Config) : (A : ArchiveType) → Read (Thrown A.Value)
  | bool => loadBool cfg
  | int T => T.load cfg

end ArchiveType

/-- `boost::uint_least16_t`. -/
def IntType.uint16 : IntType := ⟨2, false, by decide⟩

def magicByte : ℤ := 111

/-- The archive's constructor, for a version of the library, and a sequence of values. -/
def saveArchive (version : BitVec 16) (vs : List ((A : ArchiveType) × A.Value)) : List Bytes :=
  saveSignedChar magicByte :: IntType.uint16.save version ++
    (vs.map (fun v => v.1.save v.2)).flatten

def loadAll (cfg : Config) : List ArchiveType → Read (Thrown (List ((A : ArchiveType) × A.Value)))
  | [] => pure (.ok [])
  | A :: types => do
      match ← A.load cfg with
      | .error e => pure (.error e)
      | .ok v => do
          match ← loadAll cfg types with
          | .error e => pure (.error e)
          | .ok vs => pure (.ok (⟨A, v⟩ :: vs))

def loadArchive (cfg : Config) (version : BitVec 16) (types : List ArchiveType) :
    Read (Thrown (List ((A : ArchiveType) × A.Value))) := do
  let magic ← loadSignedChar cfg
  if magic ≠ magicByte then pure (.error .invalidSignature)
  else do
    match ← IntType.uint16.load cfg with
    | .error e => pure (.error e)
    | .ok libraryVersion =>
        if version < libraryVersion then pure (.error .unsupportedVersion)
        else loadAll cfg types

theorem loadSignedChar_follows (cfg : Config) (c : ℤ) (hlo : -128 ≤ c) (hhi : c < 128) :
    Follows cfg (loadSignedChar cfg) c [saveSignedChar c] := by
  have hread := (Follows.read cfg (saveSignedChar c)).map
    (fun bytes => (bytes.getD 0 0).toBitVec.toInt)
  have hc : (BitVec.ofInt 8 c).toInt = c :=
    BitVec.toInt_ofInt_eq_self (by norm_num) (by simpa using hlo) (by simpa using hhi)
  change Follows cfg (loadSignedChar cfg) (BitVec.ofInt 8 c).toInt _ at hread
  rwa [hc] at hread

theorem loadBool_follows (cfg : Config) (b : Bool) :
    Follows cfg (loadBool cfg) (.ok b) (saveBool b) := by
  cases b with
  | false =>
      exact (loadSignedChar_follows cfg 0 (by decide) (by decide)).bind
        (Follows.pure cfg (Except.ok false))
  | true =>
      exact (loadSignedChar_follows cfg 1 (by decide) (by decide)).bind
        ((loadSignedChar_follows cfg 84 (by decide) (by decide)).map
          (fun b => (Except.ok (decide (b ≠ 0)) : Thrown Bool)))

theorem ofLE_replicate_zero (n : ℕ) : ofLE (List.replicate n 0) = 0 := by
  induction n with
  | zero => rfl
  | succ n ih => rw [List.replicate_succ, ofLE, ih]; rfl

theorem ofLE_replicate_ones (n : ℕ) : ofLE (List.replicate n 255) + 1 = 256 ^ n := by
  induction n with
  | zero => rfl
  | succ n ih =>
      have hbyte : (255 : UInt8).toNat = 255 := rfl
      rw [List.replicate_succ, ofLE, hbyte, pow_succ]
      omega

theorem ofLE_replicate_sign {n width : ℕ} (h : n ≤ width) :
    256 ^ n * ofLE (List.replicate (width - n) 255) + 256 ^ n = 256 ^ width := by
  rw [← Nat.mul_succ, Nat.succ_eq_add_one, ofLE_replicate_ones, ← pow_add, Nat.add_sub_cancel' h]

theorem IntType.ofLE_temp {S : IntType} (t : S.Bits) {n width : ℕ} (hn : n ≤ S.bytes)
    (hwidth : n ≤ width) (hlo : -256 ^ n ≤ S.value t) (hhi : S.value t < 256 ^ n) :
    (ofLE ((toLE S.bytes t.toNat).take n ++
      List.replicate (width - n) (if S.value t < 0 then 255 else 0)) : ℤ) =
        if S.value t < 0 then S.value t + 256 ^ width else S.value t := by
  rw [take_toLE hn, ofLE_append, ofLE_toLE, length_toLE]
  rcases value_cases t with ⟨hpos, hvalue⟩ | ⟨-, hneg, hvalue⟩
  · rw [if_neg (by omega), if_neg (by omega), ofLE_replicate_zero, Nat.mul_zero, Nat.add_zero,
      hvalue, Nat.mod_eq_of_lt]
    rw [hvalue] at hhi
    exact_mod_cast hhi
  · rw [if_pos hneg, if_pos hneg]
    have hones : (256 : ℤ) ^ n * ofLE (List.replicate (S.bytes - n) 255) + 256 ^ n =
        256 ^ S.bytes := by exact_mod_cast ofLE_replicate_sign hn
    have hwide : (256 : ℤ) ^ n * ofLE (List.replicate (width - n) 255) + 256 ^ n = 256 ^ width := by
      exact_mod_cast ofLE_replicate_sign hwidth
    have hlt := t.isLt
    rw [two_pow_bits] at hlt
    have hle : 256 ^ n * ofLE (List.replicate (S.bytes - n) 255) ≤ t.toNat := by
      have hint : (256 : ℤ) ^ n * ofLE (List.replicate (S.bytes - n) 255) ≤ t.toNat := by omega
      exact_mod_cast hint
    obtain ⟨w, hw⟩ := Nat.exists_eq_add_of_le hle
    have hsign := ofLE_replicate_sign hn
    rw [hw] at hvalue
    rw [hw, Nat.mul_add_mod, Nat.mod_eq_of_lt (by omega)]
    push_cast at hvalue ⊢
    omega

theorem IntType.load_sized (cfg : Config) (T : IntType) {size : ℤ} {data : Bytes}
    (hlo : -128 ≤ size) (hhi : size < 128) (hzero : size ≠ 0)
    (hsigned : ¬ (size < 0 ∧ T.isSigned = false)) (hfits : size.natAbs ≤ T.bytes)
    (hdata : data.length = size.natAbs) :
    Follows cfg (T.load cfg)
      (.ok (BitVec.ofNat _ (ofLE (data ++
        List.replicate (T.bytes - size.natAbs) (if size < 0 then 255 else 0)))))
      [saveSignedChar size, data] := by
  refine (loadSignedChar_follows cfg size hlo hhi).bind ?_
  rw [if_pos hzero, if_neg hsigned, if_neg (by omega), ← hdata]
  exact (Follows.read cfg data).map (fun data' => (Except.ok (BitVec.ofNat _ (ofLE (data' ++
    List.replicate (T.bytes - data.length) (if size < 0 then 255 else 0)))) : Thrown T.Bits))

/-- The size that `save` writes in front of a number. -/
def IntType.savedSize {T : IntType} (t : T.Bits) : ℤ :=
  if 0 < T.value t then countBytes t else -countBytes t

theorem IntType.natAbs_savedSize {T : IntType} (t : T.Bits) :
    (savedSize t).natAbs = countBytes t := by
  unfold savedSize
  split_ifs <;> omega

theorem IntType.savedSize_neg_iff {T : IntType} {t : T.Bits} (h : t ≠ 0) :
    savedSize t < 0 ↔ T.value t < 0 := by
  have hvalue : T.value t ≠ 0 := fun h' => h (value_eq_zero_iff.1 h')
  have hpos := (countBytes_bounds t).1
  unfold savedSize
  split_ifs <;> omega

theorem IntType.save_of_ne_zero {T : IntType} {t : T.Bits} (h : t ≠ 0) :
    T.save t = [saveSignedChar (savedSize t), (toLE T.bytes t.toNat).take (countBytes t)] := by
  rw [IntType.save, if_pos h, savedSize]

theorem IntType.length_saved {T : IntType} (t : T.Bits) :
    ((toLE T.bytes t.toNat).take (countBytes t)).length = (savedSize t).natAbs := by
  rw [List.length_take, length_toLE, min_eq_left (countBytes_le_bytes t), natAbs_savedSize]

theorem IntType.savedSize_bounds {T : IntType} (t : T.Bits) :
    -128 ≤ savedSize t ∧ savedSize t < 128 ∧ savedSize t ≠ 0 := by
  have hbytes := T.bytes_le
  have hle := countBytes_le_bytes t
  have hpos := (countBytes_bounds t).1
  unfold savedSize
  split_ifs <;> omega

theorem IntType.load_zero (cfg : Config) (T : IntType) :
    Follows cfg (T.load cfg) (.ok 0) [saveSignedChar 0] :=
  (loadSignedChar_follows cfg 0 (by decide) (by decide)).bind (Follows.pure cfg (Except.ok 0))

theorem IntType.load_follows (cfg : Config) (T : IntType) (t : T.Bits) :
    Follows cfg (T.load cfg) (.ok t) (T.save t) := by
  by_cases hzero : t = 0
  · rw [IntType.save, if_neg (not_not_intro hzero), hzero]
    exact T.load_zero cfg
  · have hle := countBytes_le_bytes t
    obtain ⟨-, hlo, hhi⟩ := countBytes_bounds t
    obtain ⟨hsizelo, hsizehi, hne⟩ := savedSize_bounds t
    have htemp := ofLE_temp t hle hle hlo hhi
    have hsign := savedSize_neg_iff hzero
    have hsigned : ¬ (savedSize t < 0 ∧ T.isSigned = false) := by
      rintro ⟨hneg, hs⟩
      rcases value_cases t with ⟨h0, -⟩ | ⟨hs', -, -⟩
      · exact absurd (hsign.1 hneg) (by omega)
      · rw [hs'] at hs
        cases hs
    have hload := T.load_sized cfg hsizelo hsizehi hne hsigned
      (by rw [natAbs_savedSize]; exact hle) (length_saved t)
    have hnat : ofLE ((toLE T.bytes t.toNat).take (countBytes t) ++
        List.replicate (T.bytes - countBytes t) (if T.value t < 0 then 255 else 0)) = t.toNat := by
      rcases value_cases t with ⟨hpos, hvalue⟩ | ⟨-, hneg, hvalue⟩
      · rw [if_neg (by omega : ¬ T.value t < 0)] at htemp ⊢
        omega
      · rw [if_pos hneg] at htemp ⊢
        omega
    simp only [natAbs_savedSize, hsign, hnat, BitVec.ofNat_toNat, BitVec.setWidth_eq] at hload
    rw [save_of_ne_zero hzero]
    exact hload

theorem ArchiveType.load_follows (cfg : Config) (A : ArchiveType) (v : A.Value) :
    Follows cfg (A.load cfg) (.ok v) (A.save v) := by
  cases A with
  | bool => exact loadBool_follows cfg v
  | int T => exact T.load_follows cfg v

theorem loadAll_follows (cfg : Config) (vs : List ((A : ArchiveType) × A.Value)) :
    Follows cfg (loadAll cfg (vs.map Sigma.fst)) (.ok vs)
      (vs.map (fun v => v.1.save v.2)).flatten := by
  induction vs with
  | nil => exact Follows.pure cfg _
  | cons v vs ih =>
      refine (v.1.load_follows cfg v.2).bind ?_
      rw [← List.append_nil (List.flatten _)]
      exact ih.bind (Follows.pure cfg _)

theorem loadArchive_follows (cfg : Config) (version : BitVec 16)
    (vs : List ((A : ArchiveType) × A.Value)) :
    Follows cfg (loadArchive cfg version (vs.map Sigma.fst)) (.ok vs)
      (saveArchive version vs) := by
  have hmagic := loadSignedChar_follows cfg magicByte (by decide) (by decide)
  have hversion := IntType.uint16.load_follows cfg version
  refine hmagic.bind ?_
  rw [if_neg (by simp)]
  refine hversion.bind ?_
  simp only [BitVec.lt_irrefl, if_false]
  exact loadAll_follows cfg vs

theorem saveSignedChar_ne (c : ℤ) : saveSignedChar c ≠ [] := List.cons_ne_nil _ _

theorem IntType.save_ne (T : IntType) (t : T.Bits) {w : Bytes} (h : w ∈ T.save t) : w ≠ [] := by
  have hle := countBytes_le_bytes t
  have hpos := (countBytes_bounds t).1
  unfold IntType.save at h
  by_cases hzero : t ≠ 0
  · rw [if_pos hzero] at h
    rcases List.mem_pair.1 h with rfl | rfl
    · exact saveSignedChar_ne _
    · rw [← List.length_pos_iff, List.length_take, length_toLE]
      omega
  · rw [if_neg hzero] at h
    rw [List.mem_singleton.1 h]
    exact saveSignedChar_ne _

theorem ArchiveType.save_ne (A : ArchiveType) (v : A.Value) {w : Bytes} (h : w ∈ A.save v) :
    w ≠ [] := by
  cases A with
  | bool =>
      cases v with
      | false =>
          rw [List.mem_singleton.1 h]
          exact saveSignedChar_ne _
      | true =>
          rcases List.mem_pair.1 h with rfl | rfl <;> exact saveSignedChar_ne _
  | int T => exact T.save_ne v h

theorem settled_saveArchive (version : BitVec 16) (vs : List ((A : ArchiveType) × A.Value))
    (more : List Bytes) : Settled (saveArchive version vs) more := by
  refine settled_of_forall_ne (fun w hw => ?_) more
  rcases List.mem_append.1 hw with hw | hw
  · rcases List.mem_cons.1 hw with rfl | hw
    · exact saveSignedChar_ne _
    · exact IntType.uint16.save_ne version hw
  · obtain ⟨ws, hws, hw⟩ := List.mem_flatten.1 hw
    obtain ⟨v, -, rfl⟩ := List.mem_map.1 hws
    exact v.1.save_ne v.2 hw

theorem loadArchive_before (cfg : Config) (save : Bool) (version : BitVec 16)
    (before : List ((A : ArchiveType) × A.Value)) (v : (A : ArchiveType) × A.Value)
    (after : List ((A : ArchiveType) × A.Value)) :
    ∃ s, loadArchive cfg version (before.map Sigma.fst)
      (DataIStream.start ((ObjectDataOStream.fresh save).commit cfg true
        (saveArchive version (before ++ v :: after))).sub.sent) = .ok (.ok before, s) ∧
      s.Before cfg (v.1.save v.2 ++ (after.map (fun v => v.1.save v.2)).flatten) := by
  have hsplit : saveArchive version (before ++ v :: after) =
      saveArchive version before ++ (v.1.save v.2 ++
        (after.map (fun v => v.1.save v.2)).flatten) := by
    simp [saveArchive]
  have hbefore := ObjectDataOStream.before_commit cfg save
    (saveArchive version (before ++ v :: after))
  generalize DataIStream.start ((ObjectDataOStream.fresh save).commit cfg true
    (saveArchive version (before ++ v :: after))).sub.sent = r at hbefore ⊢
  rw [hsplit] at hbefore
  exact (loadArchive_follows cfg version before r _ hbefore).1
    (settled_saveArchive version before _)

/-- Loading the types that were saved returns the values and leaves nothing; each load takes
exactly the bytes of its value. -/
theorem archive_round_trip (cfg : Config) (save : Bool) (version : BitVec 16) :
    (∀ vs : List ((A : ArchiveType) × A.Value),
      ∃ s, loadArchive cfg version (vs.map Sigma.fst)
        (DataIStream.start ((ObjectDataOStream.fresh save).commit cfg true
          (saveArchive version vs)).sub.sent) = .ok (.ok vs, s) ∧ s.hasData cfg = false) ∧
    ∀ (before : List ((A : ArchiveType) × A.Value)) (A : ArchiveType) (v : A.Value)
      (after : List ((A : ArchiveType) × A.Value)),
      ∃ s s', loadArchive cfg version (before.map Sigma.fst)
        (DataIStream.start ((ObjectDataOStream.fresh save).commit cfg true
          (saveArchive version (before ++ ⟨A, v⟩ :: after))).sub.sent) = .ok (.ok before, s) ∧
        A.load cfg s = .ok (.ok v, s') ∧
        s.remaining cfg = (A.save v).flatten ++ s'.remaining cfg := by
  constructor
  · intro vs
    have hbefore := ObjectDataOStream.before_commit cfg save (saveArchive version vs ++ [])
    obtain ⟨s, hload, hs⟩ := (loadArchive_follows cfg version vs _ [] hbefore).1
      (settled_saveArchive version vs [])
    rw [List.append_nil] at hload
    exact ⟨s, hload, by simp [hs.hasData]⟩
  · intro before A v after
    obtain ⟨s, hload, hs⟩ := loadArchive_before cfg save version before ⟨A, v⟩ after
    obtain ⟨s', hv, hs'⟩ := (A.load_follows cfg v s _ hs).1
      (settled_of_forall_ne (fun w => A.save_ne v) _)
    refine ⟨s, s', hload, hv, ?_⟩
    rw [hs.remaining_eq, hs'.remaining_eq, List.flatten_append]

end Collage.Stream
