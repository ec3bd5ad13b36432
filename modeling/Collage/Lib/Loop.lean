import Mathlib.Data.Nat.Notation

/-!
# Loops

A loop as a relation of the state before it and the state after it: a loop that does not terminate
relates its state to none. A function that stops after a number of turns computes the loop when
every turn decreases a measure.
-/

namespace Collage

variable {σ : Type*} {cond : σ → Prop} {body : σ → σ}

/-- `while( cond ) body`. -/
inductive Loop (cond : σ → Prop) (body : σ → σ) : σ → σ → Prop
  | exit {s : σ} (h : ¬ cond s) : Loop cond body s s
  | turn {s t : σ} (h : cond s) (ht : Loop cond body (body s) t) : Loop cond body s t

namespace Loop

theorem not_cond {s t : σ} (h : Loop cond body s t) : ¬ cond t := by
  induction h with
  | exit h => exact h
  | turn _ _ ih => exact ih

theorem unique {s t u : σ} (h : Loop cond body s t) (h' : Loop cond body s u) : u = t := by
  induction h with
  | exit h =>
      cases h' with
      | exit _ => rfl
      | turn hcond _ => exact absurd hcond h
  | turn h _ ih =>
      cases h' with
      | exit hcond => exact absurd h hcond
      | turn _ ht => exact ih ht

theorem invariant {P : σ → Prop} (hbody : ∀ s, P s → cond s → P (body s)) {s t : σ}
    (h : Loop cond body s t) (hs : P s) : P t := by
  induction h with
  | exit _ => exact hs
  | turn hcond _ ih => exact ih (hbody _ hs hcond)

theorem of_fuel {P : σ → Prop} {m : σ → ℕ} [DecidablePred cond] {f : ℕ → σ → σ}
    (hzero : ∀ s, f 0 s = s) (hsucc : ∀ n s, f (n + 1) s = if cond s then f n (body s) else s)
    (hbody : ∀ s, P s → cond s → P (body s) ∧ m (body s) < m s) {n : ℕ} {s : σ}
    (hs : P s) (hn : m s ≤ n) : Loop cond body s (f n s) := by
  induction n generalizing s with
  | zero =>
      rw [hzero]
      refine exit (fun hcond => ?_)
      have hlt := (hbody s hs hcond).2
      omega
  | succ n ih =>
      rw [hsucc]
      by_cases hcond : cond s
      · obtain ⟨hP, hlt⟩ := hbody s hs hcond
        rw [if_pos hcond]
        exact turn hcond (ih hP (by omega))
      · rw [if_neg hcond]
        exact exit hcond

end Loop

end Collage
