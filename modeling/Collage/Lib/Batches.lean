import Collage.Lib.PrefixFree

/-!
# Batches

Items are collected until one is marked as the last of its batch. Batches are words of a
prefix-free code, so that in any part of a stream of them the complete ones are the first ones.
-/

namespace Collage

variable {α : Type*} {last : α → Bool}

/-- A batch ends with its only item that is marked as the last. -/
def IsBatch (last : α → Bool) (b : List α) : Prop :=
  ∃ front item, b = front ++ [item] ∧ last item = true ∧ ∀ a ∈ front, last a = false

theorem prefixFree_isBatch : PrefixFree (IsBatch last) where
  ne_nil := by
    rintro ⟨front, item, heq, -⟩
    simp at heq
  eq_of_prefix := by
    rintro x y ⟨front, item, rfl, hitem, -⟩ ⟨front', item', rfl, -, hfront'⟩ hxy
    rcases List.prefix_concat_iff.1 hxy with heq | hprefix
    · exact heq
    · have hmem := hprefix.subset (List.mem_append_right front (List.mem_singleton_self item))
      rw [hfront' item hmem] at hitem
      cases hitem

/-- The complete batches, and the items of the next one. -/
structure Batches (α : Type*) where
  complete : List (List α)
  current : List α

namespace Batches

variable {items : List α} {s : Batches α}

def add (last : α → Bool) (s : Batches α) (a : α) : Batches α :=
  if last a then ⟨s.complete ++ [s.current ++ [a]], []⟩ else ⟨s.complete, s.current ++ [a]⟩

/-- All items are there, each complete batch is one, and the next one is not complete. -/
structure Cut (last : α → Bool) (items : List α) (s : Batches α) : Prop where
  complete : ∀ b ∈ s.complete, IsBatch last b
  current : ∀ a ∈ s.current, last a = false
  items : s.complete.flatten ++ s.current = items

theorem Cut.add (h : Cut last items s) (a : α) : Cut last (items ++ [a]) (s.add last a) := by
  unfold Batches.add
  split_ifs with ha
  · refine ⟨fun b hb => ?_, fun _ hc => absurd hc List.not_mem_nil, ?_⟩
    · rcases List.mem_append.1 hb with hb | hb
      · exact h.complete b hb
      · exact ⟨s.current, a, List.mem_singleton.1 hb, ha, h.current⟩
    · rw [← h.items]
      simp
  · refine ⟨h.complete, fun b hb => ?_, ?_⟩
    · rcases List.mem_append.1 hb with hb | hb
      · exact h.current b hb
      · rw [List.mem_singleton.1 hb]
        exact Bool.eq_false_iff.2 ha
    · rw [← h.items]
      simp

theorem Cut.foldl (h : Cut last items s) (more : List α) :
    Cut last (items ++ more) (more.foldl (Batches.add last) s) := by
  induction more generalizing items s with
  | nil => simpa using h
  | cons a more ih =>
      have hstep := ih (h.add a)
      rwa [List.append_assoc, List.singleton_append] at hstep

end Batches

end Collage
