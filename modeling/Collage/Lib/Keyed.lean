import Mathlib.Data.List.Basic
import Mathlib.Data.List.Nodup

/-!
# Lists with keys

A list of records that carry their own key is searched by key and updated in place at a key. As
long as the update keeps the key, the order of the list and the sequence of keys stay as they are.
-/

namespace Collage.Keyed

variable {α κ : Type*} [DecidableEq κ] (key : α → κ)

def lookup (k : κ) (l : List α) : Option α := l.find? (fun a => key a = k)

def update (k : κ) (f : α → α) (l : List α) : List α :=
  l.map (fun a => if key a = k then f a else a)

variable {key}

theorem key_of_lookup {k : κ} {l : List α} {a : α} (h : lookup key k l = some a) : key a = k := by
  simpa using List.find?_some h

theorem mem_of_lookup {k : κ} {l : List α} {a : α} (h : lookup key k l = some a) : a ∈ l :=
  List.mem_of_find?_eq_some h

theorem lookup_isSome_iff {k : κ} {l : List α} : (lookup key k l).isSome ↔ k ∈ l.map key := by
  simp [lookup, List.find?_isSome]

theorem lookup_eq_none_iff {k : κ} {l : List α} : lookup key k l = none ↔ k ∉ l.map key := by
  simp [lookup, List.find?_eq_none]

theorem lookup_of_mem {l : List α} (hl : (l.map key).Nodup) {a : α} (ha : a ∈ l) :
    lookup key (key a) l = some a := by
  induction l with
  | nil => cases ha
  | cons b bs ih =>
      rw [List.map_cons, List.nodup_cons] at hl
      rcases List.mem_cons.1 ha with rfl | hmem
      · simp [lookup]
      · have hne : key b ≠ key a := fun he => hl.1 (he ▸ List.mem_map_of_mem hmem)
        simpa [lookup, hne] using ih hl.2 hmem

theorem map_update {β : Type*} {k : κ} {f : α → α} {l : List α} {g : α → β}
    (hg : ∀ a ∈ l, key a = k → g (f a) = g a) : (update key k f l).map g = l.map g := by
  rw [update, List.map_map]
  apply List.map_congr_left
  intro a ha
  by_cases hk : key a = k
  · simp [hk, hg a ha hk]
  · simp [hk]

theorem mem_update_of_mem {k : κ} {f : α → α} {l : List α} {a : α} (ha : a ∈ l)
    (hk : key a ≠ k) : a ∈ update key k f l :=
  List.mem_map.2 ⟨a, ha, by simp [hk]⟩

theorem mem_update {k : κ} {f : α → α} {l : List α} {b : α} (hb : b ∈ update key k f l) :
    (b ∈ l ∧ key b ≠ k) ∨ ∃ a ∈ l, key a = k ∧ b = f a := by
  obtain ⟨a, ha, rfl⟩ := List.mem_map.1 hb
  by_cases hk : key a = k
  · exact Or.inr ⟨a, ha, hk, by simp [hk]⟩
  · exact Or.inl (by simpa [hk] using ha)

theorem eq_of_lookup {l : List α} (hl : (l.map key).Nodup) {k : κ} {a b : α}
    (ha : lookup key k l = some a) (hb : b ∈ l) (hk : key b = k) : b = a := by
  have h := lookup_of_mem hl hb
  rw [hk, ha, Option.some.injEq] at h
  exact h.symm

theorem lookup_update {k k' : κ} {f : α → α} {l : List α} (hf : ∀ a, key a = k → key (f a) = k) :
    lookup key k' (update key k f l) =
      if k' = k then (lookup key k l).map f else lookup key k' l := by
  induction l with
  | nil => simp [lookup, update]
  | cons a as ih =>
      simp only [lookup, update] at ih
      by_cases ha : key a = k
      · have hfa := hf a ha
        by_cases hk : k' = k
        · subst hk
          simp [lookup, update, ha, hfa]
        · simpa [lookup, update, ha, hfa, hk, Ne.symm hk] using ih
      · by_cases hk : k' = k
        · subst hk
          simpa [lookup, update, ha] using ih
        · by_cases hak : key a = k'
          · simp [lookup, update, hak, hk]
          · simpa [lookup, update, ha, hak, hk] using ih

theorem lookup_update_self {k : κ} {f : α → α} {l : List α}
    (hf : ∀ a, key a = k → key (f a) = k) {a : α}
    (h : lookup key k l = some a) : lookup key k (update key k f l) = some (f a) := by
  rw [lookup_update hf, if_pos rfl, h, Option.map_some]

theorem lookup_update_ne {k k' : κ} {f : α → α} {l : List α}
    (hf : ∀ a, key a = k → key (f a) = k) (hne : k' ≠ k) :
    lookup key k' (update key k f l) = lookup key k' l := by
  rw [lookup_update hf, if_neg hne]

theorem lookup_filter (k k' : κ) (l : List α) :
    lookup key k' (l.filter (fun a => key a ≠ k)) = if k' = k then none else lookup key k' l := by
  unfold lookup
  rw [List.find?_filter]
  split_ifs with hk
  · subst hk
    simp
  · refine congrArg (fun p => l.find? p) (funext fun a => ?_)
    by_cases ha : key a = k'
    · simp [ha, hk]
    · simp [ha]

theorem filter_update {k : κ} {f : α → α} {l : List α} (hf : ∀ a, key a = k → key (f a) = k) :
    (update key k f l).filter (fun a => key a ≠ k) = l.filter (fun a => key a ≠ k) := by
  induction l with
  | nil => rfl
  | cons a as ih =>
      simp only [update, List.map_cons] at ih ⊢
      by_cases ha : key a = k
      · simpa [ha, hf a ha] using ih
      · simpa [ha] using ih

theorem lookup_eraseP_of_ne {k k' : κ} {l : List α} (hne : k' ≠ k) :
    lookup key k' (l.eraseP (fun a => key a = k)) = lookup key k' l := by
  induction l with
  | nil => rfl
  | cons a as ih =>
      by_cases ha : key a = k
      · rw [List.eraseP_cons_of_pos (by simpa using ha), lookup, lookup,
          List.find?_cons_of_neg (by simpa [ha] using Ne.symm hne)]
      · rw [List.eraseP_cons_of_neg (by simpa using ha)]
        simp only [lookup, List.find?_cons] at ih ⊢
        rw [ih]

theorem eraseP_append_cons {xs ys : List α} {x : α} (hnd : ((xs ++ x :: ys).map key).Nodup) :
    (xs ++ x :: ys).eraseP (fun a => key a = key x) = xs ++ ys := by
  rw [List.map_append, List.map_cons, List.nodup_middle, List.nodup_cons] at hnd
  have hxs : ∀ y ∈ xs, ¬ decide (key y = key x) = true := by
    intro y hy he
    exact hnd.1 (List.mem_append_left _ (of_decide_eq_true he ▸ List.mem_map_of_mem hy))
  rw [List.eraseP_append_right _ hxs, List.eraseP_cons_of_pos (by simp)]

theorem filter_append_cons {xs ys : List α} {x : α} (hnd : ((xs ++ x :: ys).map key).Nodup) :
    (xs ++ x :: ys).filter (fun a => key a ≠ key x) = xs ++ ys := by
  rw [List.map_append, List.map_cons, List.nodup_middle, List.nodup_cons] at hnd
  have hrest : ∀ y ∈ xs ++ ys, decide (key y ≠ key x) = true := by
    intro y hy
    refine decide_eq_true (fun he => hnd.1 ?_)
    rw [← he, ← List.map_append]
    exact List.mem_map_of_mem hy
  rw [List.filter_append, List.filter_cons_of_neg (by simp), ← List.filter_append,
    List.filter_eq_self.2 hrest]

theorem update_append_cons {xs ys : List α} {x : α} {f : α → α}
    (hnd : ((xs ++ x :: ys).map key).Nodup) :
    update key (key x) f (xs ++ x :: ys) = xs ++ f x :: ys := by
  rw [List.map_append, List.map_cons, List.nodup_middle, List.nodup_cons] at hnd
  have hrest : ∀ zs : List α, (∀ z ∈ zs, key z ∈ xs.map key ++ ys.map key) →
      zs.map (fun z => if key z = key x then f z else z) = zs := by
    intro zs hzs
    refine (List.map_congr_left (fun z hz => if_neg ?_)).trans (List.map_id zs)
    exact fun he => hnd.1 (he ▸ hzs z hz)
  rw [update, List.map_append, List.map_cons, if_pos rfl,
    hrest xs (fun z hz => List.mem_append_left _ (List.mem_map_of_mem hz)),
    hrest ys (fun z hz => List.mem_append_right _ (List.mem_map_of_mem hz))]

end Collage.Keyed
