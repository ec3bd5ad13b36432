import Mathlib.Data.List.Infix

/-!
# Prefix-free codes

In a stream of words of which none is the front of another one, the words can be told apart from
the front on, however much of the stream is known.
-/

namespace Collage

variable {α : Type*} {W : List α → Prop}

structure PrefixFree (W : List α → Prop) : Prop where
  ne_nil : ¬ W []
  eq_of_prefix : ∀ {x y}, W x → W y → x <+: y → x = y

namespace PrefixFree

theorem eq_of_prefix_append (hW : PrefixFree W) {x y rest : List α} (hx : W x) (hy : W y)
    (h : x <+: y ++ rest) : x = y := by
  rcases List.prefix_or_prefix_of_prefix h (List.prefix_append y rest) with hxy | hyx
  · exact hW.eq_of_prefix hx hy hxy
  · exact (hW.eq_of_prefix hy hx hyx).symm

theorem prefix_of_flatten (hW : PrefixFree W) {xs ys : List (List α)} (hxs : ∀ x ∈ xs, W x)
    (hys : ∀ y ∈ ys, W y) (h : xs.flatten <+: ys.flatten) : xs <+: ys := by
  induction xs generalizing ys with
  | nil => exact List.nil_prefix
  | cons x xs ih =>
      have hx := hxs x List.mem_cons_self
      rw [List.flatten_cons] at h
      have hfront := (List.prefix_append x xs.flatten).trans h
      cases ys with
      | nil => exact absurd (List.prefix_nil.1 hfront ▸ hx) hW.ne_nil
      | cons y ys =>
          rw [List.flatten_cons] at h hfront
          obtain rfl := hW.eq_of_prefix_append hx (hys y List.mem_cons_self) hfront
          rw [List.prefix_append_right_inj] at h
          rw [List.prefix_cons_inj]
          exact ih (fun z hz => hxs z (List.mem_cons_of_mem x hz))
            (fun z hz => hys z (List.mem_cons_of_mem x hz)) h

end PrefixFree

end Collage
