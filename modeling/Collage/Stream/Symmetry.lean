import Collage.Stream.Values

/-!
# Symmetric reads

Each read operator issues reads of the sizes that its write operator wrote, so it follows the
writes through all command boundaries. What is left is an empty block at the very end: the read of
its zero bytes looks for a further command first.
-/

namespace Collage.Stream

variable {cfg : Config} {keys : Keys}

theorem ofBytes_ofFn {size : ℕ} (v : Fin size → UInt8) : ofBytes size (List.ofFn v) = v := by
  funext i
  simp [ofBytes, List.getD_eq_getElem?_getD]

theorem length_flatBytes {size : ℕ} (l : List (Fin size → UInt8)) :
    (flatBytes l).length = l.length * size := by
  induction l with
  | nil => simp [flatBytes]
  | cons v l ih =>
      have hcons : flatBytes (v :: l) = List.ofFn v ++ flatBytes l := rfl
      rw [hcons, List.length_append, ih, List.length_ofFn, List.length_cons]
      ring

theorem ofFlatBytes_flatBytes {size : ℕ} (l : List (Fin size → UInt8)) :
    ofFlatBytes size l.length (flatBytes l) = l := by
  induction l with
  | nil => rfl
  | cons v l ih =>
      have hcons : flatBytes (v :: l) = List.ofFn v ++ flatBytes l := rfl
      have hlen : (List.ofFn v).length = size := List.length_ofFn
      rw [hcons, List.length_cons, ofFlatBytes, List.take_left' hlen, List.drop_left' hlen,
        ofBytes_ofFn, ih]

theorem insertLess_of_forall {α : Type} {less : α → α → Bool} {a : α} {l : List α}
    (h : ∀ b ∈ l, less b a = true) : insertLess less a l = l ++ [a] := by
  induction l with
  | nil => rfl
  | cons b l ih =>
      rw [insertLess, if_pos (h b List.mem_cons_self),
        ih (fun c hc => h c (List.mem_cons_of_mem b hc)), List.cons_append]

theorem insertNew_of_forall {α : Type} {equal : α → α → Bool} {a : α} {l : List α}
    (h : ∀ b ∈ l, equal b a = false) : insertNew equal a l = l ++ [a] := by
  rw [insertNew, if_neg]
  simpa using h

namespace Follows

theorem readInto {α : Type} {insert : α → List α → List α} {item : Read α}
    {write : α → List Bytes} {R : α → α → Prop}
    (hinsert : ∀ (a : α) (l : List α), (∀ b ∈ l, R b a) → insert a l = l ++ [a])
    {l : List α} (hl : l.Pairwise R) (hitem : ∀ a ∈ l, Follows cfg item a (write a)) :
    Follows cfg (Stream.readInto insert item l.length []) l (l.map write).flatten := by
  suffices hall : ∀ before : List α, (before ++ l).Pairwise R →
      Follows cfg (Stream.readInto insert item l.length before) (before ++ l)
        (l.map write).flatten from hall [] hl
  induction l with
  | nil =>
      intro before _
      rw [List.append_nil]
      exact Follows.pure cfg before
  | cons a l ih =>
      intro before hbefore
      have hlast : insert a before = before ++ [a] :=
        hinsert a before (fun b hb => (List.pairwise_append.1 hbefore).2.2 b hb a List.mem_cons_self)
      have hsplit : before ++ a :: l = (before ++ [a]) ++ l := by simp
      have htail := ih (List.pairwise_cons.1 hl).2
        (fun b hb => hitem b (List.mem_cons_of_mem a hb)) (before ++ [a]) (hsplit ▸ hbefore)
      rw [List.length_cons, Stream.readInto, List.map_cons, List.flatten_cons, hsplit]
      refine (hitem a List.mem_cons_self).bind ?_
      rw [hlast]
      exact htail

theorem readInto_append {α : Type} {item : Read α} {write : α → List Bytes} {l : List α}
    (hitem : ∀ a ∈ l, Follows cfg item a (write a)) :
    Follows cfg (Stream.readInto append item l.length []) l (l.map write).flatten :=
  readInto (R := fun _ _ => True) (fun _ _ _ => rfl)
    (List.pairwise_of_forall_mem_list (fun _ _ _ _ => trivial)) hitem

theorem readCount (cfg : Config) {n : ℕ} (h : n < 2 ^ 64) :
    Follows cfg (Stream.readCount cfg) n [toLE 8 n] := by
  have hread := (Follows.read cfg (toLE 8 n)).map ofLE
  rw [length_toLE, ofLE_toLE_of_lt (by norm_num; omega)] at hread
  exact hread

theorem readCount_bind {α : Type} {elements : ℕ → Read (List α)} {l : List α} {ws : List Bytes}
    (hlen : l.length < 2 ^ 64) (h : Follows cfg (elements l.length) l ws) :
    Follows cfg (Stream.readCount cfg >>= elements) l (toLE 8 l.length :: ws) :=
  (readCount cfg hlen).bind h

theorem read_flatBytes (cfg : Config) {size : ℕ} (l : List (Fin size → UInt8)) :
    Follows cfg (ofFlatBytes size l.length <$> DataIStream.read cfg (l.length * size)) l
      [flatBytes l] := by
  have hread := (Follows.read cfg (flatBytes l)).map (ofFlatBytes size l.length)
  rw [length_flatBytes, ofFlatBytes_flatBytes] at hread
  exact hread

theorem readArray {k : Kind} {item : Read k.Value} {write : k.Value → List Bytes}
    {l : List k.Value} (hitem : ∀ a ∈ l, Follows cfg item a (write a)) :
    Follows cfg (Stream.readArray cfg k item l.length) l (writeArray k write l) := by
  cases k with
  | plain size isPod =>
      cases isPod with
      | true => exact read_flatBytes cfg l
      | false => exact readInto_append hitem
  | _ => exact readInto_append hitem

theorem readPair {α β : Type} {key : Read α} {value : Read β} {a : α} {b : β} {ws vs : List Bytes}
    (hkey : Follows cfg key a ws) (hvalue : Follows cfg value b vs) :
    Follows cfg (Stream.readPair key value) (a, b) (ws ++ vs) :=
  hkey.bind (hvalue.map (fun v => (a, v)))

theorem read_string (cfg : Config) (str : Bytes) :
    Follows cfg (do
      let maxElems ← DataIStream.getRemainingBufferSize cfg
      if str.length = 0 then Pure.pure []
      else if str.length ≤ maxElems then DataIStream.getRemainingBuffer cfg str.length
      else DataIStream.getRemainingBuffer cfg maxElems) str
      (if 0 < str.length then [str] else []) := by
  intro s more hs
  obtain ⟨hcheck, hbefore, hrest⟩ := hs.checkBuffer
  rcases Nat.eq_zero_or_pos str.length with hzero | hpos
  · rw [if_neg (by omega)] at hs hbefore ⊢
    obtain rfl := List.length_eq_zero_iff.1 hzero
    exact ⟨fun _ => ⟨_, rfl, hbefore⟩, fun h => absurd trivial h⟩
  rw [if_pos hpos, List.singleton_append] at hcheck hbefore hrest
  have hne : (str :: more).flatten ≠ [] := by
    rw [← List.length_pos_iff, List.flatten_cons, List.length_append]
    omega
  have hsettled : Settled [str] more :=
    settled_singleton.2 (fun hnil => absurd (congrArg List.length hnil) (by simpa using hpos.ne'))
  rw [if_pos hpos]
  refine ⟨fun _ => ?_, fun h => absurd hsettled h⟩
  obtain ⟨hfits, -, -⟩ := hbefore.advance_position (hrest hne)
  obtain ⟨hcheck', hbefore', hrest'⟩ := hbefore.checkBuffer
  obtain ⟨hle, htake, hnext⟩ := hbefore'.advance_position (hrest' hne)
  have hsize : DataIStream.getRemainingBufferSize cfg s = .ok
      ((s.checkBuffer cfg).2.inputSize - (s.checkBuffer cfg).2.position,
        (s.checkBuffer cfg).2) := by
    unfold DataIStream.getRemainingBufferSize
    simp only [hcheck, decide_eq_true hne, if_true]
  refine ⟨_, ?_, hnext⟩
  change (DataIStream.getRemainingBufferSize cfg s >>= fun p =>
    (if str.length = 0 then Pure.pure []
      else if str.length ≤ p.1 then DataIStream.getRemainingBuffer cfg str.length
      else DataIStream.getRemainingBuffer cfg p.1 : Read Bytes) p.2) = _
  rw [hsize]
  change (if str.length = 0 then Pure.pure []
    else if str.length ≤ (s.checkBuffer cfg).2.inputSize - (s.checkBuffer cfg).2.position then
      DataIStream.getRemainingBuffer cfg str.length
    else DataIStream.getRemainingBuffer cfg _ : Read Bytes) (s.checkBuffer cfg).2 = _
  rw [if_neg (by omega), if_pos hfits]
  unfold DataIStream.getRemainingBuffer
  simp only [hcheck', decide_eq_true hne]
  rw [if_neg (by simp; omega), htake]

theorem readString (cfg : Config) {str : Bytes} (h : str.length < 2 ^ 64) :
    Follows cfg (Stream.readString cfg) str (Kind.write .string str) :=
  (readCount cfg h).bind (read_string cfg str)

end Follows

theorem Kind.read_follows (cfg : Config) (keys : Keys) (k : Kind) {v : k.Value}
    (h : k.Valid keys v) : Follows cfg (k.read cfg keys) v (k.write v) := by
  induction k with
  | plain size isPod =>
      have hread := (Follows.read cfg (List.ofFn v)).map (ofBytes size)
      rw [List.length_ofFn, ofBytes_ofFn] at hread
      exact hread
  | string => exact Follows.readString cfg h
  | buffer k ih => exact Follows.readCount_bind h.1 (Follows.readArray (fun a ha => ih (h.2 a ha)))
  | flatVector size =>
      refine Follows.readCount_bind h ?_
      by_cases hpos : 0 < v.length
      · rw [if_pos hpos, if_pos hpos]
        exact Follows.read_flatBytes cfg v
      · rw [if_neg hpos, if_neg hpos, List.length_eq_zero_iff.1 (Nat.eq_zero_of_not_pos hpos)]
        exact Follows.pure cfg []
  | vector k ih =>
    exact Follows.readCount_bind h.1 (Follows.readInto_append (fun a ha => ih (h.2 a ha)))
  | map k v ihk ihv =>
      exact Follows.readCount_bind h.1 (Follows.readInto (fun _ _ => insertLess_of_forall) h.2.1
        (fun p hp => Follows.readPair (ihk (h.2.2 p hp).1) (ihv (h.2.2 p hp).2)))
  | set k ih =>
      exact Follows.readCount_bind h.1 (Follows.readInto (fun _ _ => insertLess_of_forall) h.2.1
        (fun a ha => ih (h.2.2 a ha)))
  | hashMap k v ihk ihv =>
      exact Follows.readCount_bind h.1 (Follows.readInto (fun _ _ => insertNew_of_forall) h.2.1
        (fun p hp => Follows.readPair (ihk (h.2.2 p hp).1) (ihv (h.2.2 p hp).2)))
  | hashSet k ih =>
      exact Follows.readCount_bind h.1 (Follows.readInto (fun _ _ => insertNew_of_forall) h.2.1
        (fun a ha => ih (h.2.2 a ha)))

theorem Item.read_follows (cfg : Config) (e : Entry keys) :
    Follows cfg (e.item.read cfg keys) e.value (e.item.write e.value) := by
  obtain ⟨i, v, h⟩ := e
  cases i with
  | one k => exact k.read_follows cfg keys h
  | array k num =>
      have harray : Follows cfg (readArray cfg k (k.read cfg keys) (List.length v)) v
          (writeArray k k.write v) :=
        Follows.readArray (fun a ha => k.read_follows cfg keys (h.2 a ha))
      rw [h.1] at harray
      exact harray

theorem readAll_follows (cfg : Config) (es : List (Entry keys)) :
    Follows cfg (readAll cfg keys (es.map Entry.item)) (es.map (fun e => ⟨e.item, e.value⟩))
      (writeAll es) := by
  induction es with
  | nil => exact Follows.pure cfg []
  | cons e es ih =>
      have htail := ih.map (fun vs => (⟨e.item, e.value⟩ : (i : Item) × i.Value) :: vs)
      exact (Item.read_follows cfg e).bind htail

/-- The last write of a value is an empty one: an empty block of plain items ends it. -/
def Kind.endsEmpty : (k : Kind) → k.Value → Bool
  | plain _ _, _ => false
  | string, _ => false
  | buffer k, l => match l.getLast? with
      | none => k.isPod
      | some a => endsEmpty k a
  | flatVector _, _ => false
  | vector k, l => l.getLast?.any (endsEmpty k)
  | map _ v, l => l.getLast?.any (fun p => endsEmpty v p.2)
  | set k, l => l.getLast?.any (endsEmpty k)
  | hashMap _ v, l => l.getLast?.any (fun p => endsEmpty v p.2)
  | hashSet k, l => l.getLast?.any (endsEmpty k)

/-- The same for what is streamed; an empty array that is no block writes nothing. -/
def Item.endsEmpty : (i : Item) → i.Value → Option Bool
  | one k, v => some (k.endsEmpty v)
  | array k _, l => match l.getLast? with
      | none => if k.isPod then some true else none
      | some a => some (k.endsEmpty a)

/-- The last value that writes anything ends with an empty block. -/
def EndsEmpty (es : List (Entry keys)) : Prop :=
  (es.filterMap (fun e => e.item.endsEmpty e.value)).getLast? = some true

instance (es : List (Entry keys)) : Decidable (EndsEmpty es) :=
  inferInstanceAs (Decidable (_ = _))

theorem getLast?_flatten_map {α : Type} {write : α → List Bytes} {l : List α}
    (h : ∀ a ∈ l, write a ≠ []) :
    (l.map write).flatten.getLast? = l.getLast?.bind (fun a => (write a).getLast?) := by
  induction l using List.reverseRecOn with
  | nil => rfl
  | append_singleton l a _ =>
      have hlast := List.getLast?_eq_some_getLast (h a (by simp))
      simp [List.getLast?_append, hlast]

theorem getLast?_count_cons (n : ℕ) (ws : List Bytes) :
    (toLE 8 n :: ws).getLast? = some [] ↔ ws.getLast? = some [] := by
  have hne : toLE 8 n ≠ [] := by
    rw [← List.length_pos_iff, length_toLE]
    omega
  rw [List.getLast?_cons, Option.some.injEq]
  cases ws.getLast? with
  | none => simp [hne]
  | some w => simp

theorem Kind.write_ne_nil (k : Kind) (v : k.Value) : k.write v ≠ [] := by
  cases k <;> exact List.cons_ne_nil _ _

/-- A list of elements ends with an empty write exactly if its last element does. -/
theorem endsEmpty_elements {α : Type} {write : α → List Bytes} {ends : α → Bool} {l : List α}
    (hne : ∀ a ∈ l, write a ≠ []) (h : ∀ a ∈ l, (write a).getLast? = some [] ↔ ends a = true) :
    (l.map write).flatten.getLast? = some [] ↔ l.getLast?.any ends = true := by
  rw [getLast?_flatten_map hne]
  cases hlast : l.getLast? with
  | none => simp
  | some a => exact h a (List.mem_of_getLast? hlast)

theorem flatBytes_eq_nil_iff {size : ℕ+} {l : List (Fin size → UInt8)} :
    flatBytes l = [] ↔ l = [] := by
  have hsize : (size : ℕ) ≠ 0 := size.pos.ne'
  rw [← List.length_eq_zero_iff, length_flatBytes, Nat.mul_eq_zero, List.length_eq_zero_iff]
  simp [hsize]

theorem writeArray_getLast? {k : Kind} {l : List k.Value}
    (h : ∀ a ∈ l, (k.write a).getLast? = some [] ↔ k.endsEmpty a = true) :
    (writeArray k k.write l).getLast? = some [] ↔
      (Item.array k l.length).endsEmpty l = some true := by
  have hitems : k.isPod = false → ((l.map k.write).flatten.getLast? = some [] ↔
      (Item.array k l.length).endsEmpty l = some true) := by
    intro hpod
    rw [endsEmpty_elements (fun a _ => k.write_ne_nil a) h, Item.endsEmpty, hpod]
    cases l.getLast? with
    | none => simp
    | some a => simp
  cases k with
  | plain size isPod =>
      cases isPod with
      | true =>
          rw [writeArray, List.getLast?_singleton, Option.some.injEq, flatBytes_eq_nil_iff,
            ← List.getLast?_eq_none_iff, Item.endsEmpty]
          cases List.getLast? l with
          | none => simp [Kind.isPod]
          | some a => simp [Kind.endsEmpty]
      | false => exact hitems rfl
  | _ => exact hitems rfl

theorem getLast?_pair {ws vs : List Bytes} (h : vs ≠ []) :
    (ws ++ vs).getLast? = vs.getLast? := by
  rw [List.getLast?_append, List.getLast?_eq_some_getLast h, Option.some_or]

theorem Kind.write_getLast? (k : Kind) (v : k.Value) :
    (k.write v).getLast? = some [] ↔ k.endsEmpty v = true := by
  induction k with
  | plain size isPod =>
      have hne : List.ofFn v ≠ [] := by
        rw [← List.length_pos_iff, List.length_ofFn]
        exact size.pos
      simp [write, endsEmpty, hne]
  | string =>
      rw [write, getLast?_count_cons]
      split_ifs with hpos
      · simp [endsEmpty, List.length_pos_iff.1 hpos]
      · simp [endsEmpty]
  | buffer k ih =>
      rw [write, getLast?_count_cons, writeArray_getLast? (fun a _ => ih a), Item.endsEmpty,
        endsEmpty]
      cases List.getLast? v with
      | none => simp
      | some a => simp
  | flatVector size =>
      rw [write, getLast?_count_cons]
      split_ifs with hpos
      · simp [endsEmpty, flatBytes_eq_nil_iff, List.length_pos_iff.1 hpos]
      · simp [endsEmpty]
  | vector k ih =>
      rw [write, getLast?_count_cons]
      exact endsEmpty_elements (fun a _ => k.write_ne_nil a) (fun a _ => ih a)
  | map key value _ ih =>
      rw [write, getLast?_count_cons]
      refine endsEmpty_elements (fun p _ => ?_) (fun p _ => ?_)
      · exact List.append_ne_nil_of_left_ne_nil (key.write_ne_nil p.1) _
      · rw [getLast?_pair (value.write_ne_nil p.2)]
        exact ih p.2
  | set k ih =>
      rw [write, getLast?_count_cons]
      exact endsEmpty_elements (fun a _ => k.write_ne_nil a) (fun a _ => ih a)
  | hashMap key value _ ih =>
      rw [write, getLast?_count_cons]
      refine endsEmpty_elements (fun p _ => ?_) (fun p _ => ?_)
      · exact List.append_ne_nil_of_left_ne_nil (key.write_ne_nil p.1) _
      · rw [getLast?_pair (value.write_ne_nil p.2)]
        exact ih p.2
  | hashSet k ih =>
      rw [write, getLast?_count_cons]
      exact endsEmpty_elements (fun a _ => k.write_ne_nil a) (fun a _ => ih a)

theorem Item.write_getLast? (i : Item) (v : i.Value) :
    (i.write v).getLast? = some [] ↔ i.endsEmpty v = some true := by
  cases i with
  | one k =>
      rw [endsEmpty, Option.some.injEq]
      exact k.write_getLast? v
  | array k num =>
      have harray := writeArray_getLast? (k := k) (l := v) (fun a _ => k.write_getLast? a)
      exact harray

theorem Item.write_eq_nil_iff (i : Item) (v : i.Value) : i.write v = [] ↔ i.endsEmpty v = none := by
  cases i with
  | one k => simp [write, endsEmpty, k.write_ne_nil]
  | array k num =>
      have hitems : k.isPod = false → ((List.map k.write v).flatten = [] ↔
          (array k num).endsEmpty v = none) := by
        intro hpod
        rw [endsEmpty, hpod]
        cases hlast : List.getLast? v with
        | none => simp [List.getLast?_eq_none_iff.1 hlast]
        | some a =>
            have hmem := List.mem_of_getLast? hlast
            simp only [reduceCtorEq, iff_false, List.flatten_eq_nil_iff, not_forall]
            exact ⟨_, List.mem_map_of_mem hmem, k.write_ne_nil a⟩
      cases k with
      | plain size isPod =>
          cases isPod with
          | true =>
              rw [write, writeArray, endsEmpty]
              cases List.getLast? v with
              | none => simp [Kind.isPod]
              | some a => simp
          | false => exact hitems rfl
      | _ => exact hitems rfl

theorem writeAll_getLast? (es : List (Entry keys)) :
    (writeAll es).getLast? = some [] ↔ EndsEmpty es := by
  unfold EndsEmpty writeAll
  induction es using List.reverseRecOn with
  | nil => simp
  | append_singleton es e ih =>
      rw [List.map_append, List.flatten_append, List.map_singleton, List.flatten_singleton,
        List.filterMap_append]
      cases hends : e.item.endsEmpty e.value with
      | none =>
          rw [(e.item.write_eq_nil_iff e.value).2 hends, List.append_nil]
          simpa [hends] using ih
      | some b =>
          have hne : e.item.write e.value ≠ [] := by
            intro hnil
            rw [(e.item.write_eq_nil_iff e.value).1 hnil] at hends
            cases hends
          rw [getLast?_pair hne, e.item.write_getLast? e.value, hends]
          simp [hends]

/-- Reading the kinds that were written returns the values and leaves nothing exactly if the last
write is not an empty one; otherwise the last read runs out of data. -/
theorem symmetric_reads_iff (cfg : Config) (keys : Keys) (save : Bool) (es : List (Entry keys)) :
    (∃ s, readAll cfg keys (es.map Entry.item)
        (DataIStream.start
          ((ObjectDataOStream.fresh save).commit cfg true (writeAll es)).sub.sent) =
        .ok (es.map (fun e => ⟨e.item, e.value⟩), s) ∧ s.hasData cfg = false) ↔
      ¬ EndsEmpty es := by
  have hbefore := ObjectDataOStream.before_commit cfg save (writeAll es)
  rw [← List.append_nil (writeAll es)] at hbefore
  obtain ⟨hok, herror⟩ := readAll_follows cfg es _ [] hbefore
  rw [settled_nil_iff, ne_eq, writeAll_getLast?] at hok herror
  rw [List.append_nil] at hok herror
  constructor
  · rintro ⟨s, hread, -⟩ hends
    rw [herror (not_not_intro hends)] at hread
    cases hread
  · intro hends
    obtain ⟨s, hread, hs⟩ := hok hends
    exact ⟨s, hread, by simp [hs.hasData]⟩

/-- An `int` and an array without elements. -/
theorem empty_array_unread :
    let keys : Keys := ⟨fun _ _ _ => false, fun _ _ _ => false⟩
    let es : List (Entry keys) := [⟨.one (.plain 4 true), ofBytes 4 [42, 0, 0, 0], trivial⟩,
      ⟨.array (.plain 4 true) 0, [], rfl, fun _ h => nomatch h⟩]
    ¬ ∃ s, readAll (Config.plain 60000) keys (es.map Entry.item)
        (DataIStream.start ((ObjectDataOStream.fresh false).commit (Config.plain 60000) true
          (writeAll es)).sub.sent) =
        .ok (es.map (fun e => ⟨e.item, e.value⟩), s) ∧ s.hasData (Config.plain 60000) = false := by
  intro keys es h
  obtain ⟨s, hread, -⟩ := h
  have herror : readAll (Config.plain 60000) keys (es.map Entry.item)
      (DataIStream.start ((ObjectDataOStream.fresh false).commit (Config.plain 60000) true
        (writeAll es)).sub.sent) = .error .noMoreInput := rfl
  rw [herror] at hread
  cases hread

end Collage.Stream
