import Collage.Stream.Archive

/-!
# Archives of other platforms

An archive is read on a platform whose integral types have other widths or signs. `load` compares
the sign and the number of bytes that were saved with its own type, but not the highest bit of
these bytes: a signed type takes a number of its own number of bytes for one of the other sign.
-/

namespace Collage.Stream

/-- `signed char`. -/
def IntType.int8 : IntType := ⟨1, true, by decide⟩

/-- `short`. -/
def IntType.int16 : IntType := ⟨2, true, IntType.uint16.bytes_mem⟩

namespace ArchiveType

def number : (A : ArchiveType) → A.Value → ℤ
  | bool, b => if b then 1 else 0
  | int T, t => T.value t

/-- The number is returned if the type has it, and an exception is thrown otherwise. -/
def Portable (T : ArchiveType) (v : ℤ) : Thrown T.Value → Prop
  | .ok t => T.number t = v
  | .error _ => ∀ t : T.Value, T.number t ≠ v

/-- The numbers `v` saved as an `S` that pass the tests of a load as a `T` although `T` does not
have them, and the boolean of which an integral type loads the byte behind it. -/
def Misread : ArchiveType → ArchiveType → ℤ → Prop
  | bool, bool, _ => False
  | bool, int _, v => v = 1
  | int _, bool, v => 2 ≤ v ∧ v < 256
  | int _, int T, v => T.isSigned = true ∧ -256 ^ T.bytes ≤ v ∧ v < 256 ^ T.bytes ∧
      (2 * v < -256 ^ T.bytes ∨ 256 ^ T.bytes ≤ 2 * v)

end ArchiveType

/-- Where the writes `ws` come next, the read returns `v`, having read as many of them as it
likes. -/
def Gives (cfg : Config) {α : Type} (x : Read α) (v : α) (ws : List Bytes) : Prop :=
  ∀ (s : DataIStream) (more : List Bytes), s.Before cfg (ws ++ more) → Settled ws more →
    ∃ s', x s = .ok (v, s')

section Gives

variable {cfg : Config} {α β : Type} {x : Read α} {v : α} {ws vs : List Bytes}

theorem Follows.gives (h : Follows cfg x v ws) : Gives cfg x v ws := by
  intro s more hs hsettled
  obtain ⟨s', hx, -⟩ := (h s more hs).1 hsettled
  exact ⟨s', hx⟩

theorem Follows.bind_pure {f : α → Read β} {u : β} (hx : Follows cfg x v ws)
    (hf : f v = Pure.pure u) : Gives cfg (x >>= f) u (ws ++ vs) := by
  intro s more hs hsettled
  rw [List.append_assoc] at hs
  obtain ⟨s', hx', -⟩ := (hx s _ hs).1 (settled_append.1 hsettled).1
  refine ⟨s', ?_⟩
  change (x s >>= fun p => f p.1 p.2) = _
  rw [hx']
  exact congrFun hf s'

end Gives

namespace IntType

variable {S T : IntType}

theorem value_eq (x : T.Bits) :
    T.value x = if T.isSigned = true ∧ 256 ^ T.bytes ≤ 2 * x.toNat
      then (x.toNat : ℤ) - 256 ^ T.bytes else x.toNat := by
  unfold value
  cases hsigned : T.isSigned with
  | true =>
      rw [if_pos rfl, BitVec.toInt_eq_toNat_cond, two_pow_bits]
      by_cases hhigh : 2 * x.toNat < 256 ^ T.bytes
      · rw [if_pos hhigh, if_neg (by omega)]
      · rw [if_neg hhigh, if_pos ⟨rfl, by omega⟩]
        push_cast
        rfl
  | false => simp

theorem value_bounds (x : T.Bits) :
    if T.isSigned then -256 ^ T.bytes ≤ 2 * T.value x ∧ 2 * T.value x < 256 ^ T.bytes
      else 0 ≤ T.value x ∧ T.value x < 256 ^ T.bytes := by
  have hlt : x.toNat < 256 ^ T.bytes := by
    rw [← two_pow_bits]
    exact x.isLt
  have hcast : ((256 ^ T.bytes : ℕ) : ℤ) = 256 ^ T.bytes := by
    push_cast
    rfl
  rw [value_eq]
  cases hsigned : T.isSigned with
  | true =>
      by_cases hhigh : 256 ^ T.bytes ≤ 2 * x.toNat
      · rw [if_pos rfl, if_pos ⟨rfl, hhigh⟩]
        omega
      · rw [if_pos rfl, if_neg (by omega)]
        omega
  | false =>
      simp only [Bool.false_eq_true, if_false, false_and]
      omega

theorem value_ofNat {v : ℤ} {n : ℕ} (hlo : -256 ^ T.bytes ≤ v) (hhi : v < 256 ^ T.bytes)
    (hn : (n : ℤ) = if v < 0 then v + 256 ^ T.bytes else v) (hsigned : v < 0 → T.isSigned = true) :
    T.value (BitVec.ofNat _ n) = v ↔
      ¬ (T.isSigned = true ∧ (2 * v < -256 ^ T.bytes ∨ 256 ^ T.bytes ≤ 2 * v)) := by
  have hcast : ((256 ^ T.bytes : ℕ) : ℤ) = 256 ^ T.bytes := by
    push_cast
    rfl
  have hlt : n < 256 ^ T.bytes := by
    split_ifs at hn <;> omega
  rw [value_eq, BitVec.toNat_ofNat, two_pow_bits, Nat.mod_eq_of_lt hlt]
  by_cases hneg : v < 0
  · rw [if_pos hneg] at hn
    simp only [hsigned hneg, true_and]
    by_cases hhigh : 256 ^ T.bytes ≤ 2 * n
    · rw [if_pos hhigh]
      omega
    · rw [if_neg hhigh]
      omega
  · rw [if_neg hneg] at hn
    by_cases hhigh : T.isSigned = true ∧ 256 ^ T.bytes ≤ 2 * n
    · rw [if_pos hhigh]
      simp only [hhigh.1, true_and]
      omega
    · rw [if_neg hhigh, hn]
      simp only [true_iff]
      rintro ⟨hs, h | h⟩
      · omega
      · exact hhigh ⟨hs, by omega⟩

theorem lt_countBytes {t : S.Bits} {n : ℕ} (hn : 1 ≤ n) (h : n < countBytes t) :
    S.value t < -256 ^ n ∨ 256 ^ n ≤ S.value t := by
  by_contra hrange
  push Not at hrange
  exact absurd (countBytes_le hn hrange.1 hrange.2) (by omega)

theorem bounds_of_countBytes_le {t : S.Bits} {n : ℕ} (h : countBytes t ≤ n) :
    -256 ^ n ≤ S.value t ∧ S.value t < 256 ^ n := by
  obtain ⟨-, hlo, hhi⟩ := countBytes_bounds t
  have hpow : (256 : ℤ) ^ countBytes t ≤ 256 ^ n := by
    exact_mod_cast Nat.pow_le_pow_right (by decide) h
  omega

end IntType

namespace ArchiveType

open IntType

theorem load_int (cfg : Config) (S T : IntType) (t : S.Bits) :
    ∃ r, Gives cfg (T.load cfg) r (S.save t) ∧
      (Portable (.int T) (S.value t) r ↔ ¬ Misread (.int S) (.int T) (S.value t)) := by
  have hpow : (0 : ℤ) < 256 ^ T.bytes := Int.pow_pos (by decide)
  by_cases hzero : t = 0
  · refine ⟨.ok 0, ?_, ?_⟩
    · rw [IntType.save, if_neg (not_not_intro hzero)]
      exact (T.load_zero cfg).gives
    · have hvalue : S.value t = 0 := value_eq_zero_iff.2 hzero
      have hload : T.value 0 = 0 := value_eq_zero_iff.2 rfl
      rw [hvalue]
      refine iff_of_true hload ?_
      rintro ⟨-, -, -, h | h⟩ <;> omega
  rw [save_of_ne_zero hzero]
  obtain ⟨hsizelo, hsizehi, hne⟩ := savedSize_bounds t
  have hread := loadSignedChar_follows cfg (savedSize t) hsizelo hsizehi
  have hsign := savedSize_neg_iff hzero
  by_cases hsigned : savedSize t < 0 ∧ T.isSigned = false
  · refine ⟨.error .negative, hread.bind_pure ?_, iff_of_true ?_ ?_⟩
    · rw [if_pos hne, if_pos hsigned]
    · intro t' ht'
      have hbounds := value_bounds t'
      rw [if_neg (by simp [hsigned.2])] at hbounds
      exact absurd (hsign.1 hsigned.1) (by rw [← ht']; exact not_lt.2 hbounds.1)
    · rintro ⟨hs, -⟩
      rw [hsigned.2] at hs
      cases hs
  by_cases hlarge : T.bytes < countBytes t
  · refine ⟨.error (.invalidSize (savedSize t)), hread.bind_pure ?_, iff_of_true ?_ ?_⟩
    · rw [if_pos hne, if_neg hsigned, if_pos (by rwa [natAbs_savedSize])]
    · intro t' ht'
      have hrange := lt_countBytes T.bytes_pos hlarge
      have hbounds := value_bounds t'
      change T.value t' = _ at ht'
      split_ifs at hbounds <;> omega
    · rintro ⟨-, hlo, hhi, -⟩
      have hrange := lt_countBytes T.bytes_pos hlarge
      omega
  · have hle : countBytes t ≤ T.bytes := not_lt.1 hlarge
    obtain ⟨hlo, hhi⟩ := bounds_of_countBytes_le hle
    have htemp := ofLE_temp t (countBytes_le_bytes t) hle (countBytes_bounds t).2.1
      (countBytes_bounds t).2.2
    have hload := T.load_sized cfg hsizelo hsizehi hne hsigned
      (by rw [natAbs_savedSize]; exact hle) (length_saved t)
    simp only [natAbs_savedSize, hsign] at hload
    refine ⟨_, hload.gives, ?_⟩
    have hneg : S.value t < 0 → T.isSigned = true := by
      intro h
      by_contra hs
      exact hsigned ⟨hsign.2 h, by simpa using hs⟩
    refine (value_ofNat hlo hhi htemp hneg).trans (not_congr ?_)
    constructor
    · rintro ⟨hs, hrange⟩
      exact ⟨hs, hlo, hhi, hrange⟩
    · rintro ⟨hs, -, -, hrange⟩
      exact ⟨hs, hrange⟩

theorem load_int_of_bool (cfg : Config) (T : IntType) (b : Bool) :
    ∃ r, Gives cfg (T.load cfg) r (saveBool b) ∧
      (Portable (.int T) (number .bool b) r ↔ ¬ Misread .bool (.int T) (number .bool b)) := by
  cases b with
  | false => exact ⟨.ok 0, (T.load_zero cfg).gives, by
      simp [Portable, number, Misread, value_eq_zero_iff]⟩
  | true =>
      have hbytes := T.bytes_pos
      have hpow : 256 ≤ 256 ^ T.bytes := Nat.le_self_pow hbytes.ne' 256
      have hload := T.load_sized cfg (by decide : (-128 : ℤ) ≤ 1) (by decide) (by decide)
        (fun h => absurd h.1 (by decide)) (Nat.succ_le_of_lt hbytes)
        (rfl : (saveSignedChar 84).length = Int.natAbs 1)
      refine ⟨_, hload.gives, iff_of_false (fun hone => ?_) (by simp [number, Misread])⟩
      have hbits : ofLE (saveSignedChar 84 ++ List.replicate (T.bytes - Int.natAbs 1)
          (if (1 : ℤ) < 0 then 255 else 0)) = 84 := by
        rw [if_neg (by decide), ofLE_append, ofLE_replicate_zero]
        rfl
      have hvalue : T.value (BitVec.ofNat _ 84) = 84 := by
        rw [value_eq, BitVec.toNat_ofNat, two_pow_bits, Nat.mod_eq_of_lt (by omega),
          if_neg (by omega)]
        rfl
      rw [hbits] at hone
      exact absurd (hvalue.symm.trans hone) (by simp [number])

theorem load_bool_of_int (cfg : Config) (S : IntType) (t : S.Bits) :
    ∃ r, Gives cfg (loadBool cfg) r (S.save t) ∧
      (Portable .bool (S.value t) r ↔ ¬ Misread (.int S) .bool (S.value t)) := by
  by_cases hzero : t = 0
  · refine ⟨.ok false, ?_, ?_⟩
    · rw [IntType.save, if_neg (not_not_intro hzero)]
      exact ((loadSignedChar_follows cfg 0 (by decide) (by decide)).bind
        (Follows.pure cfg (Except.ok false))).gives
    · rw [value_eq_zero_iff.2 hzero]
      exact iff_of_true rfl (fun h => absurd h.1 (by decide))
  rw [save_of_ne_zero hzero]
  obtain ⟨hsizelo, hsizehi, hne⟩ := savedSize_bounds t
  have hread := loadSignedChar_follows cfg (savedSize t) hsizelo hsizehi
  have hsign := savedSize_neg_iff hzero
  by_cases hone : savedSize t = 1
  · have hcount : countBytes t = 1 := by
      rw [← natAbs_savedSize, hone]
      rfl
    have hlength := length_saved t
    have htemp := ofLE_temp t (countBytes_le_bytes t) (le_refl _) (countBytes_bounds t).2.1
      (countBytes_bounds t).2.2
    have hpos : ¬ S.value t < 0 := by
      rw [← hsign, hone]
      decide
    have hlt := (countBytes_bounds t).2.2
    rw [hone] at hlength hread ⊢
    rw [Nat.sub_self, List.replicate_zero, List.append_nil, if_neg hpos] at htemp
    rw [hcount] at hlt
    generalize (toLE S.bytes t.toNat).take (countBytes t) = data at hlength htemp ⊢
    obtain ⟨b, rfl⟩ := List.length_eq_one_iff.1 hlength
    have hbyte : (b.toNat : ℤ) = S.value t := by simpa [ofLE] using htemp
    have hnonzero : b.toBitVec.toInt ≠ 0 := by
      intro hint
      have hbits : b.toBitVec = 0 := by simpa [← BitVec.toInt_inj] using hint
      have hnat : b.toNat = 0 := by
        rw [← UInt8.toNat_toBitVec, hbits]
        rfl
      rw [hnat] at hbyte
      exact hzero (value_eq_zero_iff.1 hbyte.symm)
    have hload : Follows cfg (loadBool cfg) (.ok true) [saveSignedChar 1, [b]] := by
      have hchar := (Follows.read cfg [b]).map (fun bytes => (bytes.getD 0 0).toBitVec.toInt)
      change Follows cfg (loadSignedChar cfg) b.toBitVec.toInt [[b]] at hchar
      have hbool := hchar.map (fun b => (Except.ok (decide (b ≠ 0)) : Thrown Bool))
      rw [decide_eq_true hnonzero] at hbool
      exact hread.bind hbool
    refine ⟨_, hload.gives, ?_⟩
    change (1 : ℤ) = S.value t ↔ ¬ (2 ≤ S.value t ∧ S.value t < 256)
    have hvalue : S.value t ≠ 0 := fun h => hzero (value_eq_zero_iff.1 h)
    omega
  · have hrange : S.value t < 0 ∨ 256 ≤ S.value t := by
      by_contra hsmall
      push Not at hsmall
      have hle : countBytes t ≤ 1 := countBytes_le le_rfl (by omega) (by omega)
      have habs := natAbs_savedSize t
      have hpos := (countBytes_bounds t).1
      omega
    refine ⟨.error (.invalidSize (savedSize t)), hread.bind_pure ?_, iff_of_true ?_ ?_⟩
    · rw [if_neg hne, if_neg hone]
    · rintro (_ | _) hb
      · change (0 : ℤ) = _ at hb
        omega
      · change (1 : ℤ) = _ at hb
        omega
    · rintro ⟨hlo, hhi⟩
      omega

theorem load_bool (cfg : Config) (b : Bool) :
    ∃ r, Gives cfg (loadBool cfg) r (saveBool b) ∧
      (Portable .bool (number .bool b) r ↔ ¬ Misread .bool .bool (number .bool b)) :=
  ⟨.ok b, (loadBool_follows cfg b).gives, iff_of_true rfl id⟩

theorem load_gives (cfg : Config) (S T : ArchiveType) (v : S.Value) :
    ∃ r, Gives cfg (T.load cfg) r (S.save v) ∧
      (T.Portable (S.number v) r ↔ ¬ Misread S T (S.number v)) := by
  match S, T with
  | bool, bool => exact load_bool cfg v
  | bool, int T => exact load_int_of_bool cfg T v
  | int S, bool => exact load_bool_of_int cfg S v
  | int S, int T => exact load_int cfg S T v

theorem settled_save (S : ArchiveType) (v : S.Value) (more : List Bytes) :
    Settled (S.save v) more :=
  settled_of_forall_ne (fun _ => S.save_ne v) more

/-- Wherever in an archive a value is saved, a load as any type returns the number or throws, as
far as the type has it, except for the misread numbers. -/
theorem load_portable_iff (cfg : Config) (save : Bool) (version : BitVec 16)
    (before : List ((A : ArchiveType) × A.Value)) (S : ArchiveType) (v : S.Value)
    (after : List ((A : ArchiveType) × A.Value)) :
    ∃ s, loadArchive cfg version (before.map Sigma.fst)
      (DataIStream.start ((ObjectDataOStream.fresh save).commit cfg true
        (saveArchive version (before ++ ⟨S, v⟩ :: after))).sub.sent) = .ok (.ok before, s) ∧
      ∀ T : ArchiveType, (∃ r s', T.load cfg s = .ok (r, s') ∧ T.Portable (S.number v) r) ↔
        ¬ Misread S T (S.number v) := by
  obtain ⟨s, hload, hs⟩ := loadArchive_before cfg save version before ⟨S, v⟩ after
  refine ⟨s, hload, fun T => ?_⟩
  obtain ⟨r, hgives, hr⟩ := load_gives cfg S T v
  obtain ⟨s', hs'⟩ := hgives s _ hs (settled_save S v _)
  rw [← hr]
  constructor
  · rintro ⟨r', s'', hs'', hr'⟩
    rw [hs'] at hs''
    cases hs''
    exact hr'
  · intro hportable
    exact ⟨r, s', hs', hportable⟩

/-- The number 200 of a `short` is loaded as the `signed char` -56. -/
theorem int8_loads_negative :
    number (.int .int16) (BitVec.ofNat _ 200) = 200 ∧
    number (.int .int8) (BitVec.ofInt _ (-56)) = -56 ∧
    ∃ s s', loadArchive (Config.plain 60000) 1 []
      (DataIStream.start ((ObjectDataOStream.fresh false).commit (Config.plain 60000) true
        (saveArchive 1 [⟨.int .int16, BitVec.ofNat _ 200⟩])).sub.sent) = .ok (.ok [], s) ∧
      (ArchiveType.int .int8).load (Config.plain 60000) s =
        .ok (.ok (BitVec.ofInt _ (-56)), s') := by
  refine ⟨rfl, rfl, ?_⟩
  obtain ⟨s, hload, hs⟩ := loadArchive_before (Config.plain 60000) false 1 []
    ⟨.int .int16, BitVec.ofNat _ 200⟩ []
  have hcount : countBytes (BitVec.ofNat _ 200 : IntType.int16.Bits) = 1 := by
    rw [countBytes]
    exact if_pos (Or.inl rfl)
  have hsave : IntType.int16.save (BitVec.ofNat _ 200) = [saveSignedChar 1, [200]] := by
    rw [save_of_ne_zero (by decide : (200#16 : BitVec 16) ≠ 0), savedSize, hcount]
    rfl
  have hread := IntType.int8.load_sized (Config.plain 60000) (by decide : (-128 : ℤ) ≤ 1)
    (by decide) (by decide) (by decide) (by decide) (rfl : ([200] : Bytes).length = Int.natAbs 1)
  change s.Before _ (IntType.int16.save (BitVec.ofNat _ 200) ++ []) at hs
  rw [hsave] at hs
  obtain ⟨s', hs', -⟩ := (hread s _ hs).1 (settled_of_forall_ne (by decide) _)
  exact ⟨s, s', hload, hs'⟩

end ArchiveType

end Collage.Stream
