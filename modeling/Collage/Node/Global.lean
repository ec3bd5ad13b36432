import Collage.Node.Description

/-!
# Global attributes

The integer attributes of a process are handed to another process as text, `##v1#...#vn##`
(`global.cpp`). The text is searched for its numbers from separator to separator, each of which ends
a number and begins the next one.
-/

namespace Collage

def iattrAll : ℕ := 21

/-- The integer attributes, in `_iAttributes`. -/
@[ext]
structure Global where
  iAttributes : List Int32
  length_eq : iAttributes.length = iattrAll

namespace Global

open Description

def toString (g : Global) : List Char :=
  '#' :: '#' :: (g.iAttributes.flatMap (fun v => decimalInt v.toInt ++ ['#']) ++ ['#'])

def IsNumber (sub : List Char) : Prop :=
  sub ≠ [] ∧ ((sub.headD ' ').isDigit = true ∨ sub.headD ' ' = '-')

instance (sub : List Char) : Decidable (IsNumber sub) := inferInstanceAs (Decidable (_ ∧ _))

/-- The loop of `fromString`, on the text from `endMarker` on. -/
def newGlobals (text : List Char) : List UInt32 :=
  match _hstart : cut '#' text with
  | none => []
  | some (_, data) =>
      match _hend : cut '#' data with
      | none => []
      | some (sub, rest) =>
          if IsNumber sub then (atoi sub).toUInt32 :: newGlobals ('#' :: rest) else []
termination_by text.length
decreasing_by
  rw [(cut_eq_some_iff.1 _hstart).1, (cut_eq_some_iff.1 _hend).1]
  simp only [List.length_append, List.length_cons]
  omega

def fromString (g : Global) (data : List Char) : Bool × Global :=
  if data = [] ∨ data.headD ' ' ≠ '#' then (false, g)
  else if h : (newGlobals (data.drop 1)).length = iattrAll then
    (true, ⟨(newGlobals (data.drop 1)).map UInt32.toInt32, by rw [List.length_map, h]⟩)
  else (false, g)

section NewGlobals

variable {text before data sub rest : List Char}

theorem newGlobals_of_cut (hstart : cut '#' text = some (before, data))
    (hend : cut '#' data = some (sub, rest)) :
    newGlobals text =
      if IsNumber sub then (atoi sub).toUInt32 :: newGlobals ('#' :: rest) else [] := by
  rw [newGlobals]
  split
  · next h =>
      rw [hstart] at h
      cases h
  · next h =>
      rw [hstart] at h
      cases h
      split
      · next h =>
          rw [hend] at h
          cases h
      · next h =>
          rw [hend] at h
          cases h
          rfl

theorem newGlobals_of_start (hstart : cut '#' text = none) : newGlobals text = [] := by
  rw [newGlobals]
  split
  · rfl
  · next h =>
      rw [hstart] at h
      cases h

theorem newGlobals_of_end (hstart : cut '#' text = some (before, data))
    (hend : cut '#' data = none) : newGlobals text = [] := by
  rw [newGlobals]
  split
  · rfl
  · next h =>
      rw [hstart] at h
      cases h
      split
      · rfl
      · next h =>
          rw [hend] at h
          cases h

end NewGlobals

/-- The numbers of a text that begins with a separator: all texts between the next separator and
the first text that is none. -/
structure Lists (data : List Char) (subs : List (List Char)) : Prop where
  split : ∃ before rest, '#' ∉ before ∧
    data = '#' :: (before ++ '#' :: (subs.flatMap (fun sub => sub ++ ['#']) ++ rest)) ∧
    ∀ sub rest', rest = sub ++ '#' :: rest' → '#' ∉ sub → ¬ IsNumber sub
  numbers : ∀ sub ∈ subs, IsNumber sub ∧ '#' ∉ sub

theorem newGlobals_append {before : List Char} (hbefore : '#' ∉ before) {subs : List (List Char)}
    (hsubs : ∀ sub ∈ subs, IsNumber sub ∧ '#' ∉ sub) {rest : List Char}
    (hrest : ∀ sub rest', rest = sub ++ '#' :: rest' → '#' ∉ sub → ¬ IsNumber sub) :
    newGlobals (before ++ '#' :: (subs.flatMap (fun sub => sub ++ ['#']) ++ rest)) =
      subs.map (fun sub => (atoi sub).toUInt32) := by
  induction subs generalizing before with
  | nil =>
      rw [List.flatMap_nil, List.nil_append, List.map_nil]
      cases hend : cut '#' rest with
      | none => exact newGlobals_of_end (cut_append hbefore rest) hend
      | some parts =>
          obtain ⟨heq, hsub⟩ := cut_eq_some_iff.1 hend
          rw [newGlobals_of_cut (cut_append hbefore rest) hend, if_neg (hrest _ _ heq hsub)]
  | cons sub subs ih =>
      obtain ⟨hnumber, hsub⟩ := hsubs sub List.mem_cons_self
      have hrec := ih List.not_mem_nil (fun sub' h => hsubs sub' (List.mem_cons_of_mem _ h))
      rw [List.nil_append] at hrec
      rw [List.flatMap_cons, List.append_assoc, List.append_assoc, List.singleton_append,
        newGlobals_of_cut (cut_append hbefore _) (cut_append hsub _), if_pos hnumber, hrec,
        List.map_cons]

theorem exists_lists {text before data : List Char} (hstart : cut '#' text = some (before, data)) :
    ∃ subs, Lists ('#' :: text) subs ∧
      newGlobals text = subs.map (fun sub => (atoi sub).toUInt32) := by
  suffices h : ∃ (subs : List (List Char)) (rest : List Char),
      (∀ sub ∈ subs, IsNumber sub ∧ '#' ∉ sub) ∧
      data = subs.flatMap (fun sub => sub ++ ['#']) ++ rest ∧
      ∀ sub rest', rest = sub ++ '#' :: rest' → '#' ∉ sub → ¬ IsNumber sub by
    obtain ⟨htext, hbefore⟩ := cut_eq_some_iff.1 hstart
    obtain ⟨subs, rest, hsubs, hdata, hrest⟩ := h
    rw [htext, hdata]
    exact ⟨subs, ⟨⟨before, rest, hbefore, rfl, hrest⟩, hsubs⟩, newGlobals_append hbefore hsubs hrest⟩
  clear hstart
  induction hlength : data.length using Nat.strongRecOn generalizing data with
  | ind n ih =>
      cases hend : cut '#' data with
      | none =>
          refine ⟨[], data, fun _ h => absurd h List.not_mem_nil, rfl, fun sub rest' h _ => ?_⟩
          rw [cut_eq_none_iff, h] at hend
          exact absurd (List.mem_append_right _ List.mem_cons_self) hend
      | some parts =>
          obtain ⟨sub, rest⟩ := parts
          obtain ⟨heq, hsub⟩ := cut_eq_some_iff.1 hend
          by_cases hnumber : IsNumber sub
          · obtain ⟨subs, rest', hsubs, hrest, hlast⟩ := ih rest.length
              (by rw [← hlength, heq, List.length_append, List.length_cons]; omega) rfl
            refine ⟨sub :: subs, rest', ?_, ?_, hlast⟩
            · intro sub' hsub'
              rcases List.mem_cons.1 hsub' with rfl | hsub'
              · exact ⟨hnumber, hsub⟩
              · exact hsubs sub' hsub'
            · rw [heq, hrest]
              simp
          · refine ⟨[], data, fun _ h => absurd h List.not_mem_nil, rfl, fun sub' rest' h hsub' => ?_⟩
            have hsame := cut_append hsub' rest'
            rw [← h, hend, Option.some.injEq, Prod.mk.injEq] at hsame
            rwa [← hsame.1]

theorem newGlobals_of_lists {text : List Char} {subs : List (List Char)}
    (h : Lists ('#' :: text) subs) :
    newGlobals text = subs.map (fun sub => (atoi sub).toUInt32) := by
  obtain ⟨⟨before, rest, hbefore, hsplit, hrest⟩, hnumbers⟩ := h
  rw [(List.cons.inj hsplit).2]
  exact newGlobals_append hbefore hnumbers hrest

theorem Lists.cons {data : List Char} {subs : List (List Char)} (h : Lists data subs) :
    ∃ text, data = '#' :: text := by
  obtain ⟨⟨before, rest, -, hsplit, -⟩, -⟩ := h
  exact ⟨_, hsplit⟩

/-- A list of numbers of the right length is set as a whole. -/
theorem fromString_of_lists (g : Global) {data : List Char} {subs : List (List Char)}
    (h : Lists data subs) (hlength : subs.length = iattrAll) :
    (g.fromString data).1 = true ∧
      (g.fromString data).2.iAttributes = subs.map atoi := by
  obtain ⟨text, rfl⟩ := h.cons
  have hnew := newGlobals_of_lists h
  rw [fromString, if_neg (by simp), dif_pos (by rw [List.drop_one, List.tail_cons, hnew,
    List.length_map, hlength])]
  refine ⟨rfl, ?_⟩
  simp only [List.drop_one, List.tail_cons, hnew, List.map_map]
  exact List.map_congr_left fun sub _ => Int32.toInt32_toUInt32 (atoi sub)

theorem fromString_of_not_lists (g : Global) {data : List Char}
    (h : ∀ subs, Lists data subs → subs.length ≠ iattrAll) : g.fromString data = (false, g) := by
  unfold fromString
  by_cases hstart : data = [] ∨ data.headD ' ' ≠ '#'
  · rw [if_pos hstart]
  · rw [if_neg hstart, dif_neg]
    push Not at hstart
    obtain ⟨c, text, rfl⟩ := List.exists_cons_of_ne_nil hstart.1
    obtain rfl : c = '#' := hstart.2
    rw [List.drop_one, List.tail_cons]
    cases hcut : cut '#' text with
    | none =>
        rw [newGlobals_of_start hcut]
        decide
    | some parts =>
        obtain ⟨subs, hsubs, hnew⟩ := exists_lists hcut
        rw [hnew, List.length_map]
        exact h subs hsubs

theorem isNumber_decimalInt (i : ℤ) : IsNumber (decimalInt i) := by
  refine ⟨decimalInt_ne_nil i, ?_⟩
  cases i with
  | ofNat n =>
      obtain ⟨c, ds, hdecimal⟩ := List.exists_cons_of_ne_nil (decimal_ne_nil n)
      have hc : c ∈ decimal n := by
        rw [hdecimal]
        exact List.mem_cons_self
      refine Or.inl ?_
      rw [decimalInt, hdecimal]
      exact isDigit_of_mem_decimal hc
  | negSucc n => exact Or.inr rfl

theorem lists_toString (g : Global) :
    Lists g.toString (g.iAttributes.map (fun v => decimalInt v.toInt)) := by
  refine ⟨⟨[], ['#'], List.not_mem_nil, ?_, fun sub rest' h hsub => ?_⟩, fun sub hsub => ?_⟩
  · simp [toString, List.flatMap_map]
  · cases sub with
    | nil => exact fun hnumber => hnumber.1 rfl
    | cons c sub =>
        obtain ⟨rfl, -⟩ := List.cons.inj h
        exact absurd List.mem_cons_self hsub
  · obtain ⟨v, -, rfl⟩ := List.mem_map.1 hsub
    exact ⟨isNumber_decimalInt _, not_mem_decimalInt _⟩

/-- The attributes are read back from their text, and any text either sets all of them from its
numbers, of which there are as many, or leaves them as they are. -/
theorem fromString_toString (g : Global) :
    (∀ g' : Global, g'.fromString g.toString = (true, g)) ∧
    ∀ data, (∃ subs, Lists data subs ∧ subs.length = iattrAll ∧ (g.fromString data).1 = true ∧
        (g.fromString data).2.iAttributes = subs.map atoi) ∨
      ((¬ ∃ subs, Lists data subs ∧ subs.length = iattrAll) ∧ g.fromString data = (false, g)) := by
  constructor
  · intro g'
    obtain ⟨htrue, hset⟩ := g'.fromString_of_lists g.lists_toString
      (by rw [List.length_map, g.length_eq])
    refine Prod.ext htrue (Global.ext (hset.trans ?_))
    rw [List.map_map]
    refine (List.map_congr_left fun v _ => ?_).trans (List.map_id _)
    exact atoi_decimalInt v
  · intro data
    by_cases h : ∃ subs, Lists data subs ∧ subs.length = iattrAll
    · obtain ⟨subs, hsubs, hlength⟩ := h
      exact Or.inl ⟨subs, hsubs, hlength, g.fromString_of_lists hsubs hlength⟩
    · exact Or.inr ⟨h, g.fromString_of_not_lists fun subs hsubs hlength => h ⟨subs, hsubs, hlength⟩⟩

end Global

end Collage
