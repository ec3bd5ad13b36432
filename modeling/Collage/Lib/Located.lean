import Mathlib.Data.List.Nodup
import Mathlib.Logic.ExistsUnique
import Mathlib.Order.Nat

/-!
# Things in places

Things with the numbers below `count` are distributed over places. Each of them is in one place, once.
Things are added to a place, and moved from one place to another one.
-/

namespace Collage

variable {P : Type*} {count : ℕ} {contents contents' : P → List ℕ}

def Located (count : ℕ) (contents : P → List ℕ) : Prop :=
  ∃ place : ℕ → P, ∀ p, (contents p).Nodup ∧ ∀ n, n ∈ contents p ↔ n < count ∧ place n = p

theorem located_zero [Nonempty P] (h : ∀ p, contents p = []) : Located 0 contents := by
  refine ⟨fun _ => Classical.arbitrary P, fun p => ?_⟩
  rw [h p]
  exact ⟨List.nodup_nil, fun n => ⟨fun hn => absurd hn List.not_mem_nil,
    fun hn => absurd hn.1 (Nat.not_lt_zero n)⟩⟩

namespace Located

theorem existsUnique (h : Located count contents) {n : ℕ} (hn : n < count) :
    ∃! p, n ∈ contents p := by
  obtain ⟨place, hplace⟩ := h
  exact ⟨place n, ((hplace _).2 n).2 ⟨hn, rfl⟩, fun p hp => (((hplace p).2 n).1 hp).2.symm⟩

theorem nodup (h : Located count contents) (p : P) : (contents p).Nodup := by
  obtain ⟨place, hplace⟩ := h
  exact (hplace p).1

theorem congr (h : Located count contents) (hperm : ∀ p, (contents' p).Perm (contents p)) :
    Located count contents' := by
  obtain ⟨place, hplace⟩ := h
  refine ⟨place, fun p => ⟨(hperm p).nodup_iff.2 (hplace p).1, fun n => ?_⟩⟩
  rw [(hperm p).mem_iff]
  exact (hplace p).2 n

theorem add_count (h : Located count contents) {q : P} (hq : (contents' q).Perm (count :: contents q))
    (hother : ∀ p, p ≠ q → contents' p = contents p) : Located (count + 1) contents' := by
  classical
  obtain ⟨place, hplace⟩ := h
  have hnew : count ∉ contents q := fun hmem => lt_irrefl count (((hplace q).2 count).1 hmem).1
  refine ⟨Function.update place count q, fun p => ?_⟩
  have hcount : ∀ n, n < count → (Function.update place count q) n = place n := fun n hn =>
    Function.update_of_ne hn.ne _ _
  rcases eq_or_ne p q with rfl | hp
  · refine ⟨hq.nodup_iff.2 (List.nodup_cons.2 ⟨hnew, (hplace p).1⟩), fun n => ?_⟩
    rw [hq.mem_iff, List.mem_cons, (hplace p).2 n, Nat.lt_succ_iff_lt_or_eq]
    constructor
    · rintro (rfl | ⟨hn, hp⟩)
      · exact ⟨Or.inr rfl, Function.update_self _ _ _⟩
      · exact ⟨Or.inl hn, (hcount n hn).trans hp⟩
    · rintro ⟨hn | rfl, hp⟩
      · exact Or.inr ⟨hn, (hcount n hn).symm.trans hp⟩
      · exact Or.inl rfl
  · rw [hother p hp]
    refine ⟨(hplace p).1, fun n => ?_⟩
    rw [(hplace p).2 n, Nat.lt_succ_iff_lt_or_eq]
    constructor
    · rintro ⟨hn, hp⟩
      exact ⟨Or.inl hn, (hcount n hn).trans hp⟩
    · rintro ⟨hn | rfl, hpq⟩
      · exact ⟨hn, (hcount n hn).symm.trans hpq⟩
      · rw [Function.update_self] at hpq
        exact absurd hpq.symm hp

theorem move_contents (h : Located count contents) {p₀ q₀ : P} (hne : p₀ ≠ q₀) (moved : List ℕ)
    (hfrom : (contents p₀).Perm (moved ++ contents' p₀))
    (hto : (contents' q₀).Perm (moved ++ contents q₀))
    (hother : ∀ p, p ≠ p₀ → p ≠ q₀ → contents' p = contents p) : Located count contents' := by
  classical
  obtain ⟨place, hplace⟩ := h
  obtain ⟨hmoved, hrest, hdisjoint⟩ := List.nodup_append.1 (hfrom.nodup_iff.1 (hplace p₀).1)
  have hin {n : ℕ} (hn : n ∈ moved) : n < count ∧ place n = p₀ :=
    ((hplace p₀).2 n).1 (hfrom.mem_iff.2 (List.mem_append_left _ hn))
  have hout {n : ℕ} (hn : n ∈ moved) : n ∉ contents q₀ := fun hmem =>
    hne ((hin hn).2.symm.trans (((hplace q₀).2 n).1 hmem).2)
  refine ⟨fun n => if n ∈ moved then q₀ else place n, fun p => ?_⟩
  rcases eq_or_ne p p₀ with rfl | hp
  · refine ⟨hrest, fun n => ?_⟩
    have hold := (hplace p).2 n
    rw [hfrom.mem_iff, List.mem_append] at hold
    dsimp only
    split_ifs with hn
    · refine iff_of_false (fun hmem => hdisjoint n hn n hmem rfl) ?_
      exact fun hspec => hne hspec.2.symm
    · rw [← hold]
      exact (or_iff_right hn).symm
  · rcases eq_or_ne p q₀ with rfl | hq
    · refine ⟨hto.nodup_iff.2 (List.nodup_append.2 ⟨hmoved, (hplace p).1, ?_⟩), fun n => ?_⟩
      · rintro n hn _ hmem rfl
        exact hout hn hmem
      · rw [hto.mem_iff, List.mem_append]
        dsimp only
        split_ifs with hn
        · exact iff_of_true (Or.inl hn) ⟨(hin hn).1, rfl⟩
        · rw [← (hplace p).2 n]
          exact or_iff_right hn
    · rw [hother p hp hq]
      refine ⟨(hplace p).1, fun n => ?_⟩
      dsimp only
      split_ifs with hn
      · refine iff_of_false (fun hmem => ?_) (fun hspec => hq hspec.2.symm)
        exact hp ((((hplace p).2 n).1 hmem).2.symm.trans (hin hn).2)
      · exact (hplace p).2 n

section Update

variable [DecidableEq P]

theorem add_update (h : Located count contents) (q : P) :
    Located (count + 1) (Function.update contents q (contents q ++ [count])) := by
  refine h.add_count (q := q) ?_ (fun p hp => Function.update_of_ne hp _ _)
  rw [Function.update_self]
  exact List.perm_append_singleton _ _

theorem move_update (h : Located count contents) {p q : P} (hne : p ≠ q) (moved rest : List ℕ)
    (hfrom : contents p = moved ++ rest) :
    Located count
      (Function.update (Function.update contents p rest) q (contents q ++ moved)) := by
  refine h.move_contents hne moved ?_ ?_ fun o hp hq => ?_
  · rw [Function.update_of_ne hne, Function.update_self, hfrom]
  · rw [Function.update_self]
    exact List.perm_append_comm
  · rw [Function.update_of_ne hq, Function.update_of_ne hp]

end Update

end Located

end Collage
