import Collage.Cache.Edits

/-!
# Whole streams

Every object version is sent as a sequence of commands that ends with the one flagged last. The
versions of an object do not interleave, but the operations of the cache fall between any two
commands. A stream in the cache is whole unless a later command of its version began it.
-/

namespace Collage.Cache

/-- A command continues the transmission of its object. -/
def InOrder (sent : List Chunk) (chunk : Chunk) : Prop :=
  chunk.sequence = sent.length ∧ ∀ d ∈ sent, chunk.id = d.id ∧ chunk.version = d.version ∧
    chunk.node = d.node ∧ chunk.instanceID = d.instanceID

instance (sent : List Chunk) (chunk : Chunk) : Decidable (InOrder sent chunk) :=
  inferInstanceAs (Decidable (_ ∧ _))

/-- All commands of a version, from the first to the last one. -/
def Transmission (sent : List Chunk) : Prop :=
  sent.map Chunk.sequence = List.range sent.length ∧
  (∀ d ∈ sent, ∀ e ∈ sent, d.id = e.id ∧ d.version = e.version ∧ d.node = e.node ∧
    d.instanceID = e.instanceID) ∧
  ∃ n, sent.map Chunk.isLast = List.replicate n false ++ [true]

/-- The cache, with the commands of each object since its last complete version and all complete
versions that were sent. -/
structure World where
  cache : InstanceCache
  sent : ℕ → List Chunk
  complete : List (List Chunk)

namespace World

def start (maxSize target : ℕ) : World := ⟨InstanceCache.start maxSize target, fun _ => [], []⟩

def step (w : World) : Op → Option World
  | .add chunk usage now order =>
      if InOrder (w.sent chunk.id) chunk then
        let sent := w.sent chunk.id ++ [chunk]
        some
          { cache := (w.cache.add chunk usage now order).2
            sent := Function.update w.sent chunk.id (if chunk.isLast then [] else sent)
            complete := if chunk.isLast then w.complete ++ [sent] else w.complete }
      else none
  | op => (w.cache.step op).map (fun c => { w with cache := c })

end World

def Item.Begins (i : Item) (chunk : Chunk) : Prop :=
  if i.Foreign chunk then i.access = 0
  else match i.versions.getLast? with
    | none => True
    | some back => back.getPendingVersion < chunk.version ∧
        (i.access = 0 ∨ back.getPendingVersion + 1 = chunk.version)

def Begins (c : InstanceCache) (chunk : Chunk) : Prop :=
  match c.find chunk.id with
  | none => True
  | some i => i.Begins chunk

/-- Only the first command of a version begins a stream. -/
def BeginsInOrder (w : World) : Op → Prop
  | .add chunk _ _ _ => chunk.sequence ≠ 0 → ¬ Begins w.cache chunk
  | _ => True

instance (i : Item) (chunk : Chunk) : Decidable (i.Begins chunk) :=
  have : Decidable (match i.versions.getLast? with
      | none => True
      | some back => back.getPendingVersion < chunk.version ∧
          (i.access = 0 ∨ back.getPendingVersion + 1 = chunk.version)) :=
    match i.versions.getLast? with
    | none => isTrue trivial
    | some _ => instDecidableAnd
  inferInstanceAs (Decidable (if i.Foreign chunk then i.access = 0 else _))

instance (c : InstanceCache) (chunk : Chunk) : Decidable (Begins c chunk) :=
  have : Decidable (match c.find chunk.id with
      | none => True
      | some i => i.Begins chunk) :=
    match c.find chunk.id with
    | none => isTrue trivial
    | some i => inferInstanceAs (Decidable (i.Begins chunk))
  this

instance (w : World) : (op : Op) → Decidable (BeginsInOrder w op)
  | .add chunk _ _ _ => inferInstanceAs (Decidable (chunk.sequence ≠ 0 → ¬ Begins w.cache chunk))
  | .access _ => isTrue trivial
  | .release _ _ _ => isTrue trivial
  | .remove _ => isTrue trivial
  | .erase _ => isTrue trivial
  | .expire _ _ => isTrue trivial

/-- The streams of an item while the commands `sent` of its next version have been sent: all but
the last stream are whole, and the last one may wait for the commands that follow. -/
structure Item.Fine (sent : List Chunk) (complete : List (List Chunk)) (i : Item) : Prop where
  streams : ∀ s ∈ i.versions, (s.isReady = true ∧ s.commands ∈ complete) ∨
    (s.isReady = false ∧ s.commands = sent ∧ sent ≠ [])
  before : ∀ s ∈ i.versions.dropLast, s.isReady = true
  owner : ∀ s ∈ i.versions, ∀ d ∈ s.commands, d.node = i.sender ∧ d.instanceID = i.masterInstanceID

theorem mem_grown {complete : List (List Chunk)} {t more : List Chunk} {p : Prop} [Decidable p]
    (h : t ∈ complete) : t ∈ if p then complete ++ [more] else complete := by
  split_ifs
  · exact List.mem_append_left _ h
  · exact h

namespace Item.Fine

variable {sent : List Chunk} {complete : List (List Chunk)} {i j : Item}

theorem of_versions_nil (h : i.versions = []) : Fine sent complete i := by
  refine ⟨?_, ?_, ?_⟩ <;> rw [h] <;> exact fun _ hs => nomatch hs

theorem mem_complete (h : Fine sent complete i) {s : DataStream} (hs : s ∈ i.versions)
    (hready : s.isReady = true) : s.commands ∈ complete := by
  rcases h.streams s hs with ⟨-, hmem⟩ | ⟨hwait, -⟩
  · exact hmem
  · rw [hready] at hwait
    cases hwait

theorem of_versions_suffix (h : Fine sent complete i) (hversions : j.versions <:+ i.versions)
    (hsender : j.sender = i.sender) (hmaster : j.masterInstanceID = i.masterInstanceID) :
    Fine sent complete j := by
  refine ⟨fun s hs => h.streams s (hversions.mem hs), fun s hs => ?_, ?_⟩
  · obtain ⟨before, heq⟩ := hversions
    refine h.before s ?_
    rw [← heq]
    by_cases hnil : j.versions = []
    · rw [hnil] at hs
      cases hs
    · rw [List.dropLast_append_of_ne_nil hnil]
      exact List.mem_append_right _ hs
  · rw [hsender, hmaster]
    exact fun s hs => h.owner s (hversions.mem hs)

theorem of_complete_subset (h : Fine sent complete i) {complete' : List (List Chunk)}
    (hcomplete : ∀ t ∈ complete, t ∈ complete') : Fine sent complete' i := by
  refine ⟨fun s hs => ?_, h.before, h.owner⟩
  exact (h.streams s hs).imp_left (And.imp_right (hcomplete _))

/-- Without a stream that waits, an item is fine whatever is sent. -/
theorem of_ready (h : Fine sent complete i) (hready : ∀ s ∈ i.versions, s.isReady = true)
    {sent' : List Chunk} {complete' : List (List Chunk)}
    (hcomplete : ∀ t ∈ complete, t ∈ complete') : Fine sent' complete' i := by
  refine ⟨fun s hs => ?_, fun s hs => hready s ((List.dropLast_sublist _).mem hs), h.owner⟩
  exact Or.inl ⟨hready s hs, hcomplete _ (h.mem_complete hs (hready s hs))⟩

theorem ready_of_back (h : Fine sent complete i)
    (hback : ∀ back ∈ i.versions.getLast?, back.isReady = true) :
    ∀ s ∈ i.versions, s.isReady = true := by
  intro s hs
  cases hlast : i.versions.getLast? with
  | none =>
      rw [List.getLast?_eq_none_iff.1 hlast] at hs
      cases hs
  | some back =>
      obtain ⟨init, hinit⟩ := List.getLast?_eq_some_iff.1 hlast
      have hdrop : i.versions.dropLast = init := by rw [hinit, List.dropLast_concat]
      rw [hinit] at hs
      rcases List.mem_append.1 hs with hs | hs
      · exact h.before s (hdrop ▸ hs)
      · rw [List.mem_singleton.1 hs]
        exact hback back hlast

variable {chunk : Chunk}

/-- While the commands before it have been sent, a stream that waits is of the version and the
master of the next one. -/
theorem commands_of_waiting (h : Fine sent complete i) (horder : InOrder sent chunk) {s : DataStream}
    (hs : s ∈ i.versions) (hwait : s.isReady = false) :
    chunk.sequence ≠ 0 ∧ s.commands = sent ∧ s.getPendingVersion = chunk.version ∧
      ¬ i.Foreign chunk := by
  rcases h.streams s hs with ⟨hready, -⟩ | ⟨-, hsent, hne⟩
  · rw [hready] at hwait
    cases hwait
  obtain ⟨hseq, hsame⟩ := horder
  have hlast := List.getLast?_eq_some_getLast hne
  obtain ⟨-, hversion, hnode, hinstance⟩ := hsame _ (List.getLast_mem hne)
  obtain ⟨hsender, hmaster⟩ := h.owner s hs (sent.getLast hne) (hsent ▸ List.getLast_mem hne)
  refine ⟨?_, hsent, ?_, ?_⟩
  · rw [hseq]
    exact fun hzero => hne (List.length_eq_zero_iff.1 hzero)
  · rw [DataStream.getPendingVersion, hsent, hlast]
    exact hversion.symm
  · rintro (hforeign | hforeign)
    · exact hforeign (hmaster.symm.trans hinstance.symm)
    · exact hforeign (hsender.symm.trans hnode.symm)

theorem push (h : Fine sent complete i) (horder : InOrder sent chunk)
    (hfirst : chunk.sequence = 0) (hforeign : ¬ i.Foreign chunk) (now : ℤ) :
    Fine (if chunk.isLast then [] else sent ++ [chunk])
      (if chunk.isLast then complete ++ [sent ++ [chunk]] else complete) (i.push chunk now) := by
  have hnil : sent = [] := List.length_eq_zero_iff.1 (horder.1.symm.trans hfirst)
  have hready : ∀ s ∈ i.versions, s.isReady = true := by
    intro s hs
    by_contra hwait
    exact (h.commands_of_waiting horder hs (by simpa using hwait)).1 hfirst
  have howner : chunk.node = i.sender ∧ chunk.instanceID = i.masterInstanceID := by
    unfold Foreign at hforeign
    push Not at hforeign
    exact ⟨hforeign.2.symm, hforeign.1.symm⟩
  subst hnil
  refine ⟨fun s hs => ?_, fun s hs => ?_, fun s hs d hd => ?_⟩
  · rcases List.mem_append.1 hs with hs | hs
    · exact Or.inl ⟨hready s hs, mem_grown (h.mem_complete hs (hready s hs))⟩
    · rw [List.mem_singleton.1 hs, DataStream.empty_addDataCommand]
      cases hlast : chunk.isLast with
      | true => exact Or.inl ⟨rfl, by simp⟩
      | false => exact Or.inr ⟨rfl, by simp, by simp⟩
  · change s ∈ (i.versions ++ [_]).dropLast at hs
    rw [List.dropLast_concat] at hs
    exact hready s hs
  · rcases List.mem_append.1 hs with hs | hs
    · exact h.owner s hs d hd
    · rw [List.mem_singleton.1 hs] at hd
      rw [List.mem_singleton.1 hd]
      exact howner

theorem append (h : Fine sent complete i) (horder : InOrder sent chunk) {back : DataStream}
    (hback : i.versions.getLast? = some back) (hwait : back.isReady = false) :
    Fine (if chunk.isLast then [] else sent ++ [chunk])
      (if chunk.isLast then complete ++ [sent ++ [chunk]] else complete)
      { i with versions := i.versions.dropLast ++ [back.addDataCommand chunk] } := by
  have hmem := List.mem_of_getLast? hback
  obtain ⟨-, hsent, -, hforeign⟩ := h.commands_of_waiting horder hmem hwait
  have howner : chunk.node = i.sender ∧ chunk.instanceID = i.masterInstanceID := by
    unfold Foreign at hforeign
    push Not at hforeign
    exact ⟨hforeign.2.symm, hforeign.1.symm⟩
  refine ⟨fun s hs => ?_, fun s hs => ?_, fun s hs d hd => ?_⟩
  · rcases List.mem_append.1 hs with hs | hs
    · have hready := h.before s hs
      have hmem := h.mem_complete ((List.dropLast_sublist _).mem hs) hready
      exact Or.inl ⟨hready, mem_grown hmem⟩
    · rw [List.mem_singleton.1 hs, DataStream.addDataCommand, hsent, hwait]
      cases hlast : chunk.isLast with
      | true => exact Or.inl ⟨rfl, by simp⟩
      | false => exact Or.inr ⟨rfl, by simp, by simp⟩
  · change s ∈ (i.versions.dropLast ++ [_]).dropLast at hs
    rw [List.dropLast_concat] at hs
    exact h.before s hs
  · rcases List.mem_append.1 hs with hs | hs
    · exact h.owner s ((List.dropLast_sublist _).mem hs) d hd
    · rw [List.mem_singleton.1 hs] at hd
      rcases List.mem_append.1 hd with hd | hd
      · exact h.owner back hmem d hd
      · rw [List.mem_singleton.1 hd]
        exact howner

/-- An item stays fine when a command in order is added, unless a later command of a version
begins a stream. -/
theorem of_added (h : Fine sent complete i) (horder : InOrder sent chunk)
    (hbegins : chunk.sequence ≠ 0 → ¬ i.Begins chunk) {usage : ℕ} {now : ℤ}
    (hadded : i.Added chunk usage now j) :
    Fine (if chunk.isLast then [] else sent ++ [chunk])
      (if chunk.isLast then complete ++ [sent ++ [chunk]] else complete) j := by
  rcases hadded with ⟨htake, rfl⟩ | ⟨deleted, taken, htake, hadded⟩
  · refine h.of_ready (fun s hs => ?_) (fun t ht => mem_grown ht)
    by_contra hwait
    exact (h.commands_of_waiting horder hs (by simpa using hwait)).2.2.2 (take_eq_none htake).1
  rcases take_cases htake with ⟨hforeign, -, rfl⟩ | ⟨hforeign, haccess, -, rfl⟩
  · have hfine : Fine sent complete { i with used := max i.used usage } :=
      h.of_versions_suffix (List.suffix_refl _) rfl rfl
    rcases hadded with ⟨henter, rfl⟩ | ⟨deleted', henter⟩
    · refine hfine.of_ready (hfine.ready_of_back (fun back hback => ?_)) (fun t ht => mem_grown ht)
      by_contra hwait
      have hversion := (hfine.commands_of_waiting horder (List.mem_of_getLast? hback)
        (by simpa using hwait)).2.2.1
      unfold enter at henter
      rw [hback] at henter
      simp [hversion, hwait] at henter
    · rcases enter_cases henter with ⟨-, rfl, hnext⟩ | ⟨-, back, hback, hwait, -, rfl⟩ |
        ⟨hhole, haccess, -, rfl⟩
      · refine hfine.push horder ?_ hforeign now
        by_contra hlater
        refine hbegins hlater ?_
        unfold Begins
        rw [if_neg hforeign]
        split
        · trivial
        · next back hback =>
          have hversion := hnext back hback
          exact ⟨by omega, Or.inr hversion⟩
      · exact hfine.append horder hback hwait
      · have hclear : Fine sent complete (Item.clear { i with used := max i.used usage }) :=
          of_versions_nil rfl
        refine hclear.push horder ?_ hforeign now
        by_contra hlater
        refine hbegins hlater ?_
        unfold Begins
        rw [if_neg hforeign]
        unfold Hole at hhole
        split
        · trivial
        · next back hback =>
          rw [hback] at hhole
          exact ⟨by omega, Or.inl haccess⟩
  · have hfirst : chunk.sequence = 0 := by
      by_contra hlater
      refine hbegins hlater ?_
      unfold Begins
      rwa [if_pos hforeign]
    rcases hadded with ⟨henter, -⟩ | ⟨deleted', henter⟩
    · cases henter
    · rcases enter_cases henter with ⟨-, rfl, -⟩ | ⟨-, back, hback, -⟩ | ⟨hhole, -⟩
      · exact Fine.push (of_versions_nil rfl) horder hfirst (by simp [Foreign]) now
      · cases hback
      · cases hhole

end Item.Fine

/-- What the cache holds of the versions that were sent. -/
structure Streaming (w : World) : Prop where
  distinct : w.cache.Distinct
  fine : ∀ i ∈ w.cache.items, i.Fine (w.sent i.id) w.complete
  sent : ∀ id, (w.sent id).map Chunk.sequence = List.range (w.sent id).length ∧
    (∀ d ∈ w.sent id, d.id = id ∧ d.isLast = false) ∧
    ∀ d ∈ w.sent id, ∀ e ∈ w.sent id, d.version = e.version ∧ d.node = e.node ∧
      d.instanceID = e.instanceID
  complete : ∀ t ∈ w.complete, Transmission t

theorem fine_of_shrinks {sent : ℕ → List Chunk} {complete : List (List Chunk)}
    {c c' : InstanceCache} (h : ∀ i ∈ c.items, i.Fine (sent i.id) complete)
    (hshrinks : c.Shrinks c') : ∀ i ∈ c'.items, i.Fine (sent i.id) complete := by
  intro j hj
  obtain ⟨i, hi, hji⟩ := hshrinks j hj
  rw [hji.id]
  exact (h i hi).of_versions_suffix hji.versions hji.sender hji.master

namespace Streaming

variable {w w' : World}

theorem begins_of_found {c : InstanceCache} {chunk : Chunk} {i : Item} (hfound : c.Found chunk i)
    (hbegins : i.Begins chunk) : Begins c chunk := by
  unfold Begins
  rcases hfound with hi | ⟨hnone, -⟩
  · rw [hi]
    exact hbegins
  · rw [hnone]
    trivial

theorem fine_add (h : Streaming w) {chunk : Chunk} (horder : InOrder (w.sent chunk.id) chunk)
    (hbegins : chunk.sequence ≠ 0 → ¬ Begins w.cache chunk) (usage : ℕ) (now : ℤ)
    (order : List ℕ) :
    ∀ i ∈ (w.cache.add chunk usage now order).2.items,
      i.Fine (Function.update w.sent chunk.id
          (if chunk.isLast then [] else w.sent chunk.id ++ [chunk]) i.id)
        (if chunk.isLast then w.complete ++ [w.sent chunk.id ++ [chunk]] else w.complete) := by
  have henter : ∀ j ∈ (w.cache.enter chunk usage now).2.items,
      j.Fine (Function.update w.sent chunk.id
          (if chunk.isLast then [] else w.sent chunk.id ++ [chunk]) j.id)
        (if chunk.isLast then w.complete ++ [w.sent chunk.id ++ [chunk]] else w.complete) := by
    intro j hj
    rcases InstanceCache.enter_items h.distinct hj with ⟨hj, hne⟩ | ⟨i, hfound, hadded⟩
    · rw [Function.update_of_ne hne]
      exact (h.fine j hj).of_complete_subset (fun t ht => mem_grown ht)
    · have hid : j.id = chunk.id := hadded.id_eq.trans hfound.id_eq
      have hi : i.Fine (w.sent chunk.id) w.complete := by
        rcases hfound with hi | ⟨-, rfl⟩
        · rw [← (Keyed.key_of_lookup hi : i.id = chunk.id)]
          exact h.fine i (Keyed.mem_of_lookup hi)
        · exact Item.Fine.of_versions_nil rfl
      rw [hid, Function.update_self]
      exact hi.of_added horder (fun hlater hi => hbegins hlater (begins_of_found hfound hi)) hadded
  unfold InstanceCache.add
  split
  · next heq => rwa [heq] at henter
  · next c' heq =>
    rw [heq] at henter
    refine fine_of_shrinks henter ?_
    exact ((InstanceCache.Shrinks.refl c').releaseItems 1 order).releaseItems 0 order

theorem sent_add (h : Streaming w) {chunk : Chunk} (horder : InOrder (w.sent chunk.id) chunk) :
    (w.sent chunk.id ++ [chunk]).map Chunk.sequence =
        List.range (w.sent chunk.id ++ [chunk]).length ∧
      (∀ d ∈ w.sent chunk.id ++ [chunk], d.id = chunk.id) ∧
      ∀ d ∈ w.sent chunk.id ++ [chunk], ∀ e ∈ w.sent chunk.id ++ [chunk],
        d.version = e.version ∧ d.node = e.node ∧ d.instanceID = e.instanceID := by
  obtain ⟨hseq, hids, hsame⟩ := h.sent chunk.id
  obtain ⟨hnext, hchunk⟩ := horder
  refine ⟨?_, fun d hd => ?_, fun d hd e he => ?_⟩
  · rw [List.map_append, hseq, List.map_singleton, hnext, List.length_append,
      List.length_singleton, List.range_succ]
  · rcases List.mem_append.1 hd with hd | hd
    · exact (hids d hd).1
    · rw [List.mem_singleton.1 hd]
  · rcases List.mem_append.1 hd with hd | hd <;> rcases List.mem_append.1 he with he | he
    · exact hsame d hd e he
    · rw [List.mem_singleton.1 he]
      obtain ⟨-, hversion, hnode, hinstance⟩ := hchunk d hd
      exact ⟨hversion.symm, hnode.symm, hinstance.symm⟩
    · rw [List.mem_singleton.1 hd]
      exact (hchunk e he).2
    · rw [List.mem_singleton.1 hd, List.mem_singleton.1 he]
      exact ⟨rfl, rfl, rfl⟩

theorem add (h : Streaming w) {chunk : Chunk} {usage : ℕ} {now : ℤ} {order : List ℕ}
    (hbegins : chunk.sequence ≠ 0 → ¬ Begins w.cache chunk)
    (hs : w.step (.add chunk usage now order) = some w') : Streaming w' := by
  simp only [World.step] at hs
  by_cases horder : InOrder (w.sent chunk.id) chunk
  swap
  · rw [if_neg horder] at hs
    cases hs
  rw [if_pos horder] at hs
  obtain rfl := Option.some.inj hs
  obtain ⟨hseq, hids, hsame⟩ := h.sent_add horder
  have hcache : w.cache.step (.add chunk usage now order) =
      some (w.cache.add chunk usage now order).2 := rfl
  refine ⟨h.distinct.step hcache, h.fine_add horder hbegins usage now order, fun id => ?_,
    fun t ht => ?_⟩
  · rcases eq_or_ne id chunk.id with rfl | hne
    · simp only [Function.update_self]
      cases hlast : chunk.isLast with
      | true => simp
      | false =>
          refine ⟨hseq, fun d hd => ⟨hids d hd, ?_⟩, hsame⟩
          rcases List.mem_append.1 hd with hd | hd
          · exact ((h.sent chunk.id).2.1 d hd).2
          · rwa [List.mem_singleton.1 hd]
    · simp only [Function.update_of_ne hne]
      exact h.sent id
  · cases hlast : chunk.isLast with
    | false =>
        simp only [hlast, Bool.false_eq_true, if_false] at ht
        exact h.complete t ht
    | true =>
        simp only [hlast, if_true] at ht
        rcases List.mem_append.1 ht with ht | ht
        · exact h.complete t ht
        · rw [List.mem_singleton.1 ht]
          refine ⟨hseq, fun d hd e he => ⟨(hids d hd).trans (hids e he).symm, hsame d hd e he⟩,
            (w.sent chunk.id).length, ?_⟩
          rw [List.map_append, List.map_singleton, hlast]
          congr 1
          refine (List.eq_replicate_of_mem (fun b hb => ?_)).trans (by rw [List.length_map])
          obtain ⟨d, hd, rfl⟩ := List.mem_map.1 hb
          exact ((h.sent chunk.id).2.1 d hd).2

theorem step (h : Streaming w) {op : Op} (hbegins : BeginsInOrder w op)
    (hs : w.step op = some w') : Streaming w' := by
  have hother : (∀ chunk usage now order, op ≠ .add chunk usage now order) →
      (w.cache.step op).map (fun c => { w with cache := c }) = some w' → Streaming w' := by
    intro hop hs
    obtain ⟨c, hc, rfl⟩ := Option.map_eq_some_iff.1 hs
    exact ⟨h.distinct.step hc, fine_of_shrinks h.fine (InstanceCache.shrinks_step hop hc), h.sent,
      h.complete⟩
  cases op with
  | add chunk usage now order => exact h.add hbegins hs
  | access id => exact hother (fun _ _ _ _ => nofun) hs
  | release id count order => exact hother (fun _ _ _ _ => nofun) hs
  | remove node => exact hother (fun _ _ _ _ => nofun) hs
  | erase id => exact hother (fun _ _ _ _ => nofun) hs
  | expire now timeout => exact hother (fun _ _ _ _ => nofun) hs

end Streaming

/-- In every run in which only the first command of a version begins a stream, all streams that are
ready are whole. -/
theorem streams_whole (maxSize target : ℕ) {ops : List Op} {w : World}
    (hbegins : Machine.Steps World.step BeginsInOrder (World.start maxSize target) ops)
    (hrun : Machine.run World.step (World.start maxSize target) ops = some w) :
    ∀ i ∈ w.cache.items, ∀ s ∈ i.versions, s.isReady = true →
      s.commands ∈ w.complete ∧ Transmission s.commands := by
  have hstart : Streaming (World.start maxSize target) := by
    refine ⟨List.nodup_nil, (fun _ hi => nomatch hi), fun _ => ?_, fun _ ht => nomatch ht⟩
    exact ⟨rfl, (fun _ hd => nomatch hd), fun _ hd => nomatch hd⟩
  have h : Streaming w := Machine.run_invariant Streaming
    (fun _ _ _ h hok hs => h.step hok hs) hstart hbegins hrun
  intro i hi s hs hready
  have hmem := (h.fine i hi).mem_complete hs hready
  exact ⟨hmem, h.complete _ hmem⟩

/-- A version in two commands, between which another object is added and the cache is pinned. -/
theorem streams_whole_two_commands :
    ∃ w, Machine.run World.step (World.start 100 80)
        [.add ⟨1, 1, 1, 9, 0, false, 30, [7]⟩ 0 0 [], .add ⟨2, 1, 1, 9, 0, true, 60, []⟩ 0 0 [],
          .access 1, .add ⟨1, 1, 1, 9, 1, true, 20, [8]⟩ 0 0 [1, 2], .release 1 1 [1, 2]] =
        some w ∧
      w.cache.items.map Item.id = [1] ∧
      ∀ i ∈ w.cache.items, ∀ s ∈ i.versions, s.isReady = true →
        s.commands ∈ w.complete ∧ Transmission s.commands := by
  have h : (Machine.run World.step (World.start 100 80)
        [.add ⟨1, 1, 1, 9, 0, false, 30, [7]⟩ 0 0 [], .add ⟨2, 1, 1, 9, 0, true, 60, []⟩ 0 0 [],
          .access 1, .add ⟨1, 1, 1, 9, 1, true, 20, [8]⟩ 0 0 [1, 2], .release 1 1 [1, 2]]).map
      (fun w => decide (w.cache.items.map Item.id = [1])) = some true := by decide +kernel
  obtain ⟨w, hrun, hw⟩ := Option.map_eq_some_iff.1 h
  exact ⟨w, hrun, of_decide_eq_true hw, streams_whole 100 80 (by decide +kernel) hrun⟩

/-- The first command of version 3 finds version 1 pinned and is refused; the second one finds it
released and begins a stream, which is ready. -/
theorem refused_first_command :
    ∃ w, Machine.run World.step (World.start 100 80)
        [.add ⟨1, 1, 1, 9, 0, true, 30, []⟩ 0 0 [], .access 1,
          .add ⟨1, 3, 1, 9, 0, false, 30, []⟩ 0 0 [], .release 1 1 [],
          .add ⟨1, 3, 1, 9, 1, true, 20, []⟩ 0 0 []] = some w ∧
      w.cache.failed = [] ∧
      ¬ ∀ i ∈ w.cache.items, ∀ s ∈ i.versions, s.isReady = true →
        s.commands.map Chunk.sequence = List.range s.commands.length := by
  have h : (Machine.run World.step (World.start 100 80)
        [.add ⟨1, 1, 1, 9, 0, true, 30, []⟩ 0 0 [], .access 1,
          .add ⟨1, 3, 1, 9, 0, false, 30, []⟩ 0 0 [], .release 1 1 [],
          .add ⟨1, 3, 1, 9, 1, true, 20, []⟩ 0 0 []]).map
      (fun w => decide (w.cache.failed = [] ∧
        ¬ ∀ i ∈ w.cache.items, ∀ s ∈ i.versions, s.isReady = true →
          s.commands.map Chunk.sequence = List.range s.commands.length)) = some true := by
    decide +kernel
  obtain ⟨w, hrun, hw⟩ := Option.map_eq_some_iff.1 h
  exact ⟨w, hrun, of_decide_eq_true hw⟩

end Collage.Cache
