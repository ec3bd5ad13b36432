import Mathlib.Data.List.ReduceOption
import Mathlib.Data.List.Perm.Subperm

/-!
# Matching by key

Requests are served in order from a stock of items with keys: each takes the first item that has
its key, if one is left. An empty request takes nothing.
-/

namespace Collage

variable {α κ : Type*} [DecidableEq κ] (key : α → κ)

/-- The answers to the requests, and what is left of the stock. -/
def serve : List (Option κ) → List α → List (Option α) × List α
  | [], stock => ([], stock)
  | none :: ks, stock => (none :: (serve ks stock).1, (serve ks stock).2)
  | some k :: ks, stock =>
      (stock.find? (fun a => key a = k) :: (serve ks (stock.eraseP (fun a => key a = k))).1,
        (serve ks (stock.eraseP (fun a => key a = k))).2)

theorem find?_append_eraseP (p : α → Bool) (l : List α) :
    ((l.find? p).toList ++ l.eraseP p).Perm l := by
  induction l with
  | nil => exact List.Perm.refl _
  | cons a l ih =>
      by_cases ha : p a = true
      · rw [List.find?_cons_of_pos ha, List.eraseP_cons_of_pos ha]
        exact List.Perm.refl _
      · rw [List.find?_cons_of_neg ha, List.eraseP_cons_of_neg ha]
        exact List.perm_middle.trans (ih.cons a)

theorem map_eraseP_key (k : κ) (stock : List α) :
    (stock.eraseP (fun a => key a = k)).map key = (stock.map key).erase k := by
  induction stock with
  | nil => rfl
  | cons a stock ih =>
      by_cases ha : key a = k
      · rw [List.eraseP_cons_of_pos (by simpa using ha), List.map_cons, ha, List.erase_cons_head]
      · rw [List.eraseP_cons_of_neg (by simpa using ha), List.map_cons, List.map_cons, ih,
          List.erase_cons_tail (by simpa using ha)]

theorem find?_key_eq_none_iff {k : κ} {stock : List α} :
    stock.find? (fun a => key a = k) = none ↔ k ∉ stock.map key := by
  simp [List.find?_eq_none]

theorem serve_perm (ks : List (Option κ)) (stock : List α) :
    ((serve key ks stock).1.reduceOption ++ (serve key ks stock).2).Perm stock := by
  induction ks generalizing stock with
  | nil => exact List.Perm.refl _
  | cons k ks ih =>
      cases k with
      | none =>
          rw [serve, List.reduceOption_cons_of_none]
          exact ih stock
      | some k =>
          have htail := (ih (stock.eraseP (fun a => key a = k))).append_left
            (stock.find? (fun a => key a = k)).toList
          refine List.Perm.trans ?_ (htail.trans (find?_append_eraseP _ stock))
          rw [serve]
          cases stock.find? (fun a => key a = k) with
          | none => exact List.Perm.refl _
          | some a => exact List.Perm.refl _

/-- A request is left without an answer when as many items with its key as there are have been
asked for before. -/
theorem serve_eq_none_iff {ks : List (Option κ)} {stock : List α} {i : ℕ} {k : κ}
    (h : ks[i]? = some (some k)) :
    (serve key ks stock).1[i]? = some none ↔
      (stock.map key).count k ≤ (ks.take i).count (some k) := by
  induction ks generalizing stock i with
  | nil => cases h
  | cons r ks ih =>
      cases i with
      | zero =>
          obtain rfl : r = some k := by simpa using h
          rw [serve, List.getElem?_cons_zero, Option.some.injEq, find?_key_eq_none_iff,
            List.take_zero, List.count_nil, Nat.le_zero, List.count_eq_zero]
      | succ i =>
          rw [List.getElem?_cons_succ] at h
          cases r with
          | none =>
              rw [serve, List.getElem?_cons_succ, ih h, List.take_succ_cons,
                List.count_cons_of_ne (by simp)]
          | some r =>
              rw [serve, List.getElem?_cons_succ, ih h, map_eraseP_key, List.count_erase,
                List.take_succ_cons, List.count_cons]
              by_cases hr : r = k
              · simp only [hr, beq_self_eq_true, if_true]
                omega
              · simp [hr]

theorem cons_subperm_iff {k : κ} {ks stock : List κ} :
    (k :: ks).Subperm stock ↔ k ∈ stock ∧ ks.Subperm (stock.erase k) := by
  constructor
  · intro h
    have hmem : k ∈ stock := h.subset List.mem_cons_self
    refine ⟨hmem, ?_⟩
    have herase := h.erase k
    rwa [List.erase_cons_head] at herase
  · rintro ⟨hmem, h⟩
    exact ((List.subperm_cons k).2 h).trans (List.perm_cons_erase hmem).symm.subperm

end Collage
