import Collage.Object.Children

/-!
# Rebuilt child lists

Every entry of a serialized list gets a previous child with its identifier or a new one, and what is
left of the previous list is removed. This fails exactly when an entry finds no child in front of
the first null entry of the previous list: then the null entry is dereferenced. A list with a null
entry in front is rebuilt once, but not a second time.
-/

namespace Collage.Children

open Collage.Stream

/-- A child list on the receiver: the children are in memory. -/
structure Previous (m : Memory) where
  children : List (Option ℕ)
  lt_next : ∀ c, some c ∈ children → c < m.next

variable {m : Memory}

/-- The children in front of the first null entry. -/
def Previous.front (old : Previous m) : List ℕ :=
  (old.children.takeWhile Option.isSome).reduceOption

/-- Every serialized identifier has a child of its own in front of the first null entry. -/
def NullSafe (s : Serialized) (old : Previous m) : Prop :=
  none ∉ old.children ∨ s.ids.reduceOption.Subperm (old.front.map m.key)

/-- The new list and the calls that were made. An entry of the previous list is either reused and
synced or released, and its child unmapped if this node had mapped it. -/
structure Matched (s : Serialized) (old : Previous m) (result : List (Option ℕ)) (m' : Memory) :
    Prop where
  identifiers : result.map (Option.map m'.key) = s.ids
  counts : ∀ c, some c ∈ old.children →
    result.count (some c) + m'.released.count c = old.children.count (some c) ∧
    m'.synced.count c = result.count (some c) ∧
    m'.unmapped.count c = if m.IsMapped c ∧ 0 < m'.released.count c then 1 else 0
  others : ∀ c, some c ∉ old.children →
    m'.synced.count c = 0 ∧ m'.unmapped.count c = 0 ∧ m'.released.count c = 0
  created : m'.created = result.reduceOption.filter (fun c => some c ∉ old.children)
  mapped : m'.mapped = m'.created
  /-- An entry gets a new child if the previous ones with its identifier are used up. -/
  new : ∀ i id c, s.ids[i]? = some (some id) → result[i]? = some (some c) →
    (some c ∉ old.children ↔
      (old.children.reduceOption.map m.key).count id ≤ (s.ids.take i).count (some id))

structure Rebuilt (s : Serialized) (old : Previous m) (result : List (Option ℕ)) (m' : Memory) :
    Prop extends Matched s old result m' where
  once : ∀ c, some c ∈ old.children →
    result.count (some c) = 1 ∧ m'.synced.count c = 1 ∧
      m'.unmapped.count c = 0 ∧ m'.released.count c = 0 ∨
    result.count (some c) = 0 ∧ m'.synced.count c = 0 ∧
      m'.unmapped.count c = (if m.IsMapped c then 1 else 0) ∧ m'.released.count c = 1

theorem forall_some_of_all {α : Type} {p : α → Bool} {l : List (Option α)}
    (h : l.all (Option.all p) = true) : ∀ a, some a ∈ l → p a = true :=
  fun a ha => List.all_eq_true.1 h (some a) ha

theorem lt_next_of_all {l : List (Option ℕ)} (h : l.all (Option.all (· < m.next)) = true) :
    ∀ c, some c ∈ l → c < m.next :=
  fun c hc => of_decide_eq_true (forall_some_of_all h c hc)

theorem exists_split {α : Type} (l : List (Option α)) :
    ∃ back, l = (l.takeWhile Option.isSome).reduceOption.map some ++ back ∧
      (back = [] ∧ none ∉ l ∨ none ∈ l ∧ ∃ b, back = none :: b) := by
  induction l with
  | nil => exact ⟨[], rfl, Or.inl ⟨rfl, List.not_mem_nil⟩⟩
  | cons a l ih =>
      obtain ⟨back, hl, hback⟩ := ih
      cases a with
      | none => exact ⟨none :: l, rfl, Or.inr ⟨List.mem_cons_self, l, rfl⟩⟩
      | some a =>
          refine ⟨back, ?_, ?_⟩
          · rw [List.takeWhile_cons_of_pos rfl, List.reduceOption_cons_of_some, List.map_cons,
              List.cons_append, ← hl]
          · simpa using hback

theorem count_reduceOption {α : Type} [DecidableEq α] (l : List (Option α)) (a : α) :
    l.reduceOption.count a = l.count (some a) := by
  induction l with
  | nil => rfl
  | cons b l ih =>
      cases b with
      | none => rw [List.reduceOption_cons_of_none, List.count_cons_of_ne (by simp), ih]
      | some b => simp [List.reduceOption_cons_of_some, List.count_cons, ih]

/-- The loop over the serialized list, for a previous list that is safe. -/
structure Served (o : Parent) (s : Serialized) (old : Previous m) (answers : List (Option ℕ))
    (rest result : List (Option ℕ)) (m' : Memory) : Prop where
  built : Parent.Built o s.versions answers { m with calls := [] } result m'
  count : ∀ c, answers.count (some c) + rest.count (some c) = old.children.count (some c)
  unanswered : ∀ i id, s.ids[i]? = some (some id) → (answers[i]? = some none ↔
    (old.children.reduceOption.map m.key).count id ≤ (s.ids.take i).count (some id))

theorem served_of_nullSafe {o : Parent} {s : Serialized}
    (hmap : ∀ v ∈ s.versions, o.mapObject v = true) {old : Previous m} (h : NullSafe s old) :
    ∃ result rest m' answers,
      o.rebuild s.versions old.children { m with calls := [] } = .ok (result, rest, m') ∧
      Served o s old answers rest result m' := by
  obtain ⟨back, hsplit, hback⟩ := exists_split old.children
  have hsafe : back = [] ∨ s.ids.reduceOption.Subperm (old.front.map m.key) := by
    rcases hback with ⟨hnil, -⟩ | ⟨hnull, -⟩
    · exact Or.inl hnil
    · exact Or.inr (h.resolve_left (not_not_intro hnull))
  have hfront : ∀ c ∈ old.front, c < m.next := by
    intro c hc
    refine old.lt_next c ?_
    rw [hsplit]
    exact List.mem_append_left _ (List.mem_map_of_mem hc)
  obtain ⟨result, m', heq, hbuilt⟩ := Parent.rebuild_ok m.key back
    s.versions hmap old.front { m with calls := [] } (fun _ _ => rfl) hfront (by rwa [s.map_request])
  rw [s.map_request] at heq hbuilt
  have hperm := serve_perm m.key s.ids old.front
  refine ⟨result, _, m', _, (congrArg (o.rebuild s.versions · _) hsplit).trans heq, hbuilt,
    fun c => ?_, fun i id hi => ?_⟩
  · have hcount := hperm.count_eq c
    rw [List.count_append, count_reduceOption] at hcount
    have hinj : Function.Injective (some : ℕ → Option ℕ) := Option.some_injective ℕ
    have hchildren := congrArg (List.count (some c)) hsplit
    rw [List.count_append, List.count_map_of_injective _ _ hinj] at hchildren
    rw [List.count_append, List.count_map_of_injective _ _ hinj, hchildren]
    have hfold : (old.children.takeWhile Option.isSome).reduceOption = old.front := rfl
    rw [hfold]
    omega
  · rw [serve_eq_none_iff m.key hi]
    have hall : old.children.reduceOption = old.front ++ back.reduceOption := by
      conv_lhs => rw [hsplit]
      rw [List.reduceOption_append]
      congr 1
      simp [List.reduceOption, List.filterMap_map, Previous.front]
    rw [hall, List.map_append, List.count_append]
    rcases hsafe with rfl | hsub
    · rfl
    · -- every request is answered, so that both sides fail
      have hlt : (s.ids.take i).count (some id) < s.ids.count (some id) := by
        have hdrop : s.ids.drop i = some id :: s.ids.drop (i + 1) := by
          obtain ⟨hi', hget⟩ := List.getElem?_eq_some_iff.1 hi
          rw [List.drop_eq_getElem_cons hi', hget]
        conv_rhs => rw [← List.take_append_drop i s.ids, hdrop]
        rw [List.count_append, List.count_cons_self]
        omega
      have hle := (List.subperm_ext_iff.1 hsub) id
      rw [count_reduceOption] at hle
      have hmem : id ∈ s.ids.reduceOption :=
        List.reduceOption_mem_iff.2 (List.mem_of_getElem? hi)
      have := hle hmem
      omega

namespace Served

variable {o : Parent} {s : Serialized} {old : Previous m} {answers rest result : List (Option ℕ)}
  {m' : Memory}

theorem answer_mem (h : Served o s old answers rest result m') {c : ℕ} (hc : some c ∈ answers) :
    some c ∈ old.children := by
  have hpos := List.count_pos_iff.2 hc
  have hcount := h.count c
  exact List.count_pos_iff.1 (by omega)

theorem count_result (h : Served o s old answers rest result m') {c : ℕ}
    (hc : some c ∈ old.children) : result.count (some c) = answers.count (some c) :=
  h.built.count_result (old.lt_next c hc)

theorem count_synced (h : Served o s old answers rest result m') (c : ℕ) :
    (Parent.removeAll rest m').synced.count c = answers.count (some c) := by
  rw [(Parent.removeAll_frame rest m').2.2.2, h.built.synced_eq, ← count_reduceOption]
  rfl

theorem count_released (h : Served o s old answers rest result m') (c : ℕ) :
    (Parent.removeAll rest m').released.count c = rest.count (some c) := by
  rw [Parent.count_released_removeAll, h.built.unmapped_released_eq.2]
  exact Nat.zero_add _

theorem count_unmapped (h : Served o s old answers rest result m') {c : ℕ}
    (hc : some c ∈ old.children) : (Parent.removeAll rest m').unmapped.count c =
      if m.IsMapped c ∧ 0 < rest.count (some c) then 1 else 0 := by
  have hsame : m'.IsMapped c ↔ m.IsMapped c := by
    rw [Memory.IsMapped, h.built.child_eq_of_lt.2 c (old.lt_next c hc)]
    rfl
  rw [Parent.count_unmapped_removeAll, h.built.unmapped_released_eq.1]
  simp only [hsame, List.count_pos_iff]
  exact Nat.zero_add _

theorem not_mem_iff (h : Served o s old answers rest result m') {i c : ℕ}
    (hi : result[i]? = some (some c)) : some c ∉ old.children ↔ answers[i]? = some none := by
  rcases h.built.answer_or_new hi with hanswer | ⟨hnone, hle⟩
  · rw [hanswer]
    simpa using h.answer_mem (List.mem_of_getElem? hanswer)
  · rw [hnone]
    exact iff_of_true (fun hc => absurd (old.lt_next c hc) (not_lt.2 hle)) rfl

theorem created_eq (h : Served o s old answers rest result m') :
    m'.created = result.reduceOption.filter (fun c => some c ∉ old.children) := by
  rw [h.built.created_eq le_rfl (fun c hc => old.lt_next c (h.answer_mem hc))]
  refine List.filter_congr (fun c hc => ?_)
  obtain ⟨i, hi⟩ := List.mem_iff_getElem?.1 (List.reduceOption_mem_iff.1 hc)
  simp only [decide_eq_decide]
  constructor
  · exact fun hle hmem => absurd (old.lt_next c hmem) (not_lt.2 hle)
  · intro hnot
    rcases h.built.answer_or_new hi with hanswer | ⟨-, hle⟩
    · exact absurd (h.answer_mem (List.mem_of_getElem? hanswer)) hnot
    · exact hle

theorem matched_removeAll (h : Served o s old answers rest result m') :
    Matched s old result (Parent.removeAll rest m') := by
  obtain ⟨hkey, hcreated, hmapped, -⟩ := Parent.removeAll_frame rest m'
  refine ⟨?_, fun c hc => ⟨?_, ?_, ?_⟩, fun c hc => ?_, hcreated.trans h.created_eq, ?_,
    fun i id c hi hc => ?_⟩
  · rw [hkey, h.built.map_key_result (fun c hc => old.lt_next c (h.answer_mem hc)), s.map_request]
  · rw [h.count_result hc, h.count_released, h.count]
  · rw [h.count_synced, h.count_result hc]
  · rw [h.count_unmapped hc, h.count_released]
  · have hcount := h.count c
    rw [List.count_eq_zero.2 hc, Nat.add_eq_zero_iff] at hcount
    refine ⟨(h.count_synced c).trans hcount.1, ?_, (h.count_released c).trans hcount.2⟩
    rw [Parent.count_unmapped_removeAll, h.built.unmapped_released_eq.1,
      if_neg (fun hm => List.count_eq_zero.1 hcount.2 hm.2)]
    rfl
  · rw [hmapped, hcreated]
    exact h.built.mapped_eq_created rfl
  · rw [h.not_mem_iff hc, h.unanswered i id hi]

end Served

theorem Matched.rebuilt_iff {s : Serialized} {old : Previous m} {result : List (Option ℕ)}
    {m' : Memory} (h : Matched s old result m') :
    Rebuilt s old result m' ↔ old.children.reduceOption.Nodup := by
  rw [List.nodup_iff_count_le_one]
  constructor
  · intro hrebuilt c
    rw [count_reduceOption]
    by_cases hc : some c ∈ old.children
    · have hcount := (h.counts c hc).1
      rcases hrebuilt.once c hc with ⟨hone, -, -, hzero⟩ | ⟨hzero, -, -, hone⟩ <;> omega
    · rw [List.count_eq_zero.2 hc]
      exact Nat.zero_le 1
  · refine fun hle => ⟨h, fun c hc => ?_⟩
    have hpos := List.count_pos_iff.2 hc
    have hone := hle c
    rw [count_reduceOption] at hone
    obtain ⟨hcount, hsynced, hunmapped⟩ := h.counts c hc
    rcases Nat.eq_zero_or_pos (m'.released.count c) with hzero | hrel
    · rw [hzero] at hcount hunmapped
      exact Or.inl ⟨by omega, by omega, by simpa using hunmapped, hzero⟩
    · refine Or.inr ⟨by omega, by omega, ?_, by omega⟩
      rw [hunmapped]
      simp only [hrel, and_true]

/-- All the previous children that are asked for lie in front of the first null entry, or the list
is read into the null entry. -/
theorem update_cases {o : Parent} {s : Serialized}
    (hmap : ∀ v ∈ s.versions, o.mapObject v = true) (old : Previous m) :
    (NullSafe s old ∧ ∃ result m', o.update s.versions old.children m = .ok (result, m') ∧
      Matched s old result m') ∨
    ¬ NullSafe s old ∧ o.update s.versions old.children m = .error .nullAccess := by
  by_cases h : NullSafe s old
  · obtain ⟨result, rest, m', answers, heq, hserved⟩ := served_of_nullSafe hmap h
    refine Or.inl ⟨h, result, _, ?_, hserved.matched_removeAll⟩
    rw [Parent.update, heq]
    rfl
  · refine Or.inr ⟨h, ?_⟩
    obtain ⟨back, hsplit, hback⟩ := exists_split old.children
    rw [NullSafe, not_or, not_not] at h
    obtain ⟨b, rfl⟩ := (hback.resolve_left (fun hnil => hnil.2 h.1)).2
    have hfront : (old.children.takeWhile Option.isSome).reduceOption = old.front := rfl
    rw [hfront] at hsplit
    have herror := Parent.rebuild_error o m.key b s.versions old.front
      { m with calls := [] } (fun _ _ => rfl) (by rw [s.map_request]; exact h.2)
    rw [Parent.update, hsplit, herror]
    rfl

theorem deserializeChildren_eq (cfg : Config) (o : Parent) (s : Serialized) (old : Previous m)
    {stream : DataIStream} {more : List Bytes}
    (hs : stream.Before cfg (s.serializeChildren ++ more)) :
    ∃ stream', o.deserializeChildren cfg old.children m stream =
        .ok (o.update s.versions old.children m, stream') ∧ stream'.Before cfg more := by
  have hread := (s.follows_readVersions cfg).bind
    (Follows.pure cfg (o.update s.versions old.children m)) (f := fun versions =>
      pure (o.update versions old.children m))
  rw [List.append_nil] at hread
  exact (hread stream more hs).1 (s.settled more)

/-- A list is rebuilt entry by entry exactly if no null entry of the previous list is reached; then
each previous child is reused or removed once exactly if none of them is in the list twice. -/
theorem deserializeChildren_iff (cfg : Config) {o : Parent} {s : Serialized}
    (hmap : ∀ v ∈ s.versions, o.mapObject v = true) (old : Previous m)
    {stream : DataIStream} {more : List Bytes}
    (hs : stream.Before cfg (s.serializeChildren ++ more)) :
    ((∃ result m' stream', o.deserializeChildren cfg old.children m stream =
        .ok (.ok (result, m'), stream') ∧ stream'.Before cfg more ∧ Matched s old result m') ↔
      NullSafe s old) ∧
    ((∃ result m' stream', o.deserializeChildren cfg old.children m stream =
        .ok (.ok (result, m'), stream') ∧ stream'.Before cfg more ∧ Rebuilt s old result m') ↔
      NullSafe s old ∧ old.children.reduceOption.Nodup) := by
  obtain ⟨stream', heq, hmore⟩ := deserializeChildren_eq cfg o s old hs
  rw [heq]
  rcases update_cases hmap old with ⟨h, result, m', hupdate, hmatched⟩ | ⟨h, hupdate⟩
  · rw [hupdate]
    refine ⟨iff_of_true ⟨result, m', stream', rfl, hmore, hmatched⟩ h, ?_⟩
    rw [and_iff_right h, ← hmatched.rebuilt_iff]
    constructor
    · rintro ⟨_, _, _, ⟨⟩, -, hrebuilt⟩
      exact hrebuilt
    · exact fun hrebuilt => ⟨result, m', stream', rfl, hmore, hrebuilt⟩
  · rw [hupdate]
    constructor
    · refine iff_of_false ?_ h
      rintro ⟨_, _, _, hok, -⟩
      cases hok
    · refine iff_of_false ?_ (fun hs => h hs.1)
      rintro ⟨_, _, _, hok, -⟩
      cases hok

/-- Two children swap places, and a third one is replaced. -/
theorem deserializeChildren_iff_swap :
    let child (id : BitVec 128) (h : id ≠ 0) : Child := ⟨id, 1, true, false, h⟩
    let s : Serialized := ⟨[some (child 2 (by decide)), none, some (child 1 (by decide)),
      some (child 4 (by decide))], forall_some_of_all rfl, by decide⟩
    let m : Memory := ⟨fun a => if a = 0 then child 1 (by decide)
      else if a = 1 then child 2 (by decide) else child 3 (by decide), 3, []⟩
    let old : Previous m := ⟨[some 0, some 1, some 2], lt_next_of_all rfl⟩
    ∃ result m' stream', (Parent.mk false (fun _ => true)).deserializeChildren (Config.plain 60000)
        old.children m (DataIStream.start ((ObjectDataOStream.fresh false).commit
          (Config.plain 60000) true (s.serializeChildren ++ [])).sub.sent) =
        .ok (.ok (result, m'), stream') ∧ stream'.Before (Config.plain 60000) [] ∧
      Rebuilt s old result m' := by
  intro child s m old
  exact (deserializeChildren_iff (Config.plain 60000) (fun _ _ => rfl) old
    (ObjectDataOStream.before_commit (Config.plain 60000) false _)).2.2
    ⟨Or.inl (by decide), by decide⟩

/-- A null entry and a child, sent twice: the first round leaves the null entry in front. -/
theorem second_round_reads_null :
    let s : Serialized := ⟨[none, some ⟨1, 1, true, true, by decide⟩], by simp, by decide⟩
    let stream := DataIStream.start ((ObjectDataOStream.fresh false).commit
      (Config.plain 60000) true (s.serializeChildren ++ [])).sub.sent
    let o : Parent := ⟨false, fun _ => true⟩
    ∃ (m : Memory) (old : Previous m) (stream' : DataIStream),
      o.deserializeChildren (Config.plain 60000) []
        ⟨fun _ => ⟨2, 1, false, false, by decide⟩, 0, []⟩ stream =
          .ok (.ok (old.children, m), stream') ∧
      ¬ ∃ result m' stream', o.deserializeChildren (Config.plain 60000) old.children m stream =
          .ok (.ok (result, m'), stream') ∧ stream'.Before (Config.plain 60000) [] ∧
        Matched s old result m' := by
  intro s stream o
  have hs : stream.Before (Config.plain 60000) (s.serializeChildren ++ []) :=
    ObjectDataOStream.before_commit (Config.plain 60000) false _
  let m : Memory := ⟨fun _ => ⟨2, 1, false, false, by decide⟩, 0, []⟩
  let m' : Memory := { m with calls := [] }.createMapped ⟨1, 1⟩ (by decide)
  have hfirst : o.update s.versions [] m = .ok ([none, some 0], m') := rfl
  have hlt : ∀ c, some c ∈ [none, some 0] → c < m'.next := by
    intro c hc
    have hzero : c = 0 := by simpa using hc
    rw [hzero]
    exact Nat.one_pos
  have hsecond : o.update s.versions [none, some 0] m' = .error .nullAccess := rfl
  obtain ⟨stream', heq, -⟩ := deserializeChildren_eq (Config.plain 60000) o s
    (⟨[], fun _ hc => nomatch hc⟩ : Previous m) hs
  obtain ⟨stream'', heq', -⟩ := deserializeChildren_eq (Config.plain 60000) o s
    (⟨[none, some 0], hlt⟩ : Previous m') hs
  rw [hfirst] at heq
  rw [hsecond] at heq'
  refine ⟨m', ⟨[none, some 0], hlt⟩, stream', heq, ?_⟩
  rintro ⟨result, m'', s', hok, -⟩
  rw [heq'] at hok
  cases hok

end Collage.Children
