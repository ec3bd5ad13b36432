import Mathlib.Data.List.Basic

/-!
# Writes in chunks

A producer writes pieces of data and a transport groups whole pieces into chunks. A consumer that
asks for the same pieces in the same order always finds a piece in one chunk; only a piece without
elements may be gone with its chunk. `Ahead` relates what a consumer still has to the pieces it
will ask for, and `Settled` says that something follows each empty piece.
-/

namespace Collage

variable {α : Type*}

def pieces (ws : List (List α)) : List (List α) := ws.filter (fun w => !w.isEmpty)

@[simp] theorem pieces_cons_nil (ws : List (List α)) : pieces ([] :: ws) = pieces ws := rfl

theorem pieces_cons_of_ne {w : List α} (h : w ≠ []) (ws : List (List α)) :
    pieces (w :: ws) = w :: pieces ws := by
  rw [pieces, List.filter_cons_of_pos (by simpa using h), pieces]

theorem pieces_append (ws vs : List (List α)) : pieces (ws ++ vs) = pieces ws ++ pieces vs :=
  List.filter_append ..

theorem flatten_pieces (ws : List (List α)) : (pieces ws).flatten = ws.flatten := by
  induction ws with
  | nil => rfl
  | cons w ws ih =>
      rcases eq_or_ne w [] with rfl | hw
      · rw [pieces_cons_nil, ih, List.flatten_cons, List.nil_append]
      · rw [pieces_cons_of_ne hw, List.flatten_cons, ih, List.flatten_cons]

theorem pieces_eq_nil_iff {ws : List (List α)} : pieces ws = [] ↔ ws.flatten = [] := by
  rw [pieces, List.filter_eq_nil_iff, List.flatten_eq_nil_iff]
  simp

theorem pieces_flatten (groups : List (List (List α))) :
    pieces groups.flatten = (groups.map pieces).flatten := by
  induction groups with
  | nil => rfl
  | cons g groups ih => rw [List.flatten_cons, pieces_append, ih, List.map_cons, List.flatten_cons]

/-- The pieces `ws` lie ahead of a consumer with `rest` of its current chunk and more `chunks`. -/
def Ahead (rest : List α) (chunks ws : List (List α)) : Prop :=
  ∃ (first : List (List α)) (groups : List (List (List α))),
    pieces ws = first ++ groups.flatten ∧ rest = first.flatten ∧
      chunks = groups.map List.flatten

namespace Ahead

variable {rest : List α} {chunks ws : List (List α)}

theorem start {groups : List (List (List α))} {tail : List (List α)}
    (h : chunks = groups.map List.flatten) (htail : tail.flatten = []) :
    Ahead [] chunks (groups.flatten ++ tail) := by
  refine ⟨[], groups.map pieces, ?_, rfl, ?_⟩
  · rw [pieces_append, pieces_flatten, pieces_eq_nil_iff.2 htail, List.append_nil, List.nil_append]
  · rw [h, List.map_map]
    exact List.map_congr_left (fun g _ => (flatten_pieces g).symm)

theorem flatten_eq (h : Ahead rest chunks ws) : rest ++ chunks.flatten = ws.flatten := by
  obtain ⟨first, groups, hws, rfl, rfl⟩ := h
  rw [← flatten_pieces ws, hws, List.flatten_append, List.flatten_flatten]

theorem next_chunk {chunk : List α} (h : Ahead [] (chunk :: chunks) ws) : Ahead chunk chunks ws := by
  obtain ⟨first, groups, hws, hfirst, hchunks⟩ := h
  have hnil : first = [] := by
    have hsub : pieces first = first := by
      refine List.filter_eq_self.2 (fun w hw => ?_)
      have hmem : w ∈ pieces ws := hws ▸ List.mem_append_left _ hw
      exact (List.mem_filter.1 hmem).2
    rw [← hsub]
    exact pieces_eq_nil_iff.2 hfirst.symm
  obtain ⟨g, groups, rfl⟩ : ∃ g gs, groups = g :: gs := by
    cases groups with
    | nil => cases hchunks
    | cons g gs => exact ⟨g, gs, rfl⟩
  obtain ⟨hg, hgs⟩ := List.cons.inj hchunks
  exact ⟨g, groups, by rw [hws, hnil, List.nil_append, List.flatten_cons], hg, hgs⟩

theorem take {w : List α} (h : Ahead rest chunks (w :: ws)) (hrest : rest ≠ []) :
    ∃ rest', rest = w ++ rest' ∧ Ahead rest' chunks ws := by
  rcases eq_or_ne w [] with rfl | hw
  · exact ⟨rest, rfl, h⟩
  obtain ⟨first, groups, hws, hfirst, hchunks⟩ := h
  rw [pieces_cons_of_ne hw] at hws
  cases first with
  | nil => exact absurd hfirst hrest
  | cons v first =>
      rw [List.cons_append, List.cons.injEq] at hws
      obtain ⟨rfl, hws⟩ := hws
      exact ⟨first.flatten, hfirst, first, groups, hws, rfl, hchunks⟩

end Ahead

/-- Behind each empty piece of `ws` there is another one that is not empty. -/
def Settled : List (List α) → List (List α) → Prop
  | [], _ => True
  | w :: ws, more => (w = [] → (ws ++ more).flatten ≠ []) ∧ Settled ws more

theorem settled_append {ws vs more : List (List α)} :
    Settled (ws ++ vs) more ↔ Settled ws (vs ++ more) ∧ Settled vs more := by
  induction ws with
  | nil => simp [Settled]
  | cons w ws ih =>
      rw [List.cons_append, Settled, Settled, ih, List.append_assoc, and_assoc]

theorem settled_singleton {w : List α} {more : List (List α)} :
    Settled [w] more ↔ (w = [] → more.flatten ≠ []) := by
  simp [Settled]

theorem settled_of_forall_ne {ws : List (List α)} (h : ∀ w ∈ ws, w ≠ []) (more : List (List α)) :
    Settled ws more := by
  induction ws with
  | nil => trivial
  | cons w ws ih =>
      exact ⟨fun hw => absurd hw (h w List.mem_cons_self),
        ih (fun v hv => h v (List.mem_cons_of_mem _ hv))⟩

/-- Nothing more follows: then only the last piece counts. -/
theorem settled_nil_iff {ws : List (List α)} : Settled ws [] ↔ ws.getLast? ≠ some [] := by
  induction ws with
  | nil => simp [Settled]
  | cons w ws ih =>
      rw [Settled, ih, List.append_nil]
      cases ws with
      | nil => simp
      | cons v ws =>
          rw [List.getLast?_cons_cons]
          refine and_iff_right_of_imp (fun hlast _ hflat => hlast ?_)
          have hnil := List.flatten_eq_nil_iff.1 hflat
          rw [List.getLast?_eq_some_getLast (List.cons_ne_nil v ws)]
          exact congrArg some (hnil _ (List.getLast_mem _))

end Collage
