import Mathlib.Algebra.Order.Group.Unbundled.Int
import Collage.Lib.Keyed
import Collage.Lib.Loop
import Collage.Lib.Run

/-!
# The buffer cache

A node takes its receive buffers from a cache (`bufferCache.cpp`), which looks for a free one from
the last position on, makes new ones if it finds none, and deletes free ones when more than
`_maxFree` of them are free. A buffer is free again when its last reference is gone. The buffers are
numbered, and a position is an index into the list, with the length for its end.
-/

namespace Collage

structure Buffer where
  id : ℕ
  free : Bool
  deriving DecidableEq

/-- The cache, with the number of the next buffer that is made. -/
structure BufferCache where
  cache : List Buffer
  position : ℕ
  free : ℤ
  minFree : ℤ
  maxFree : ℤ
  next : ℕ

namespace BufferCache

/-- The cache after `flush`, as it is constructed. -/
def init (minFree : ℤ) : BufferCache where
  cache := [⟨0, true⟩]
  position := 0
  free := 1
  minFree := minFree
  maxFree := minFree
  next := 1

/-- The loop of `newBuffer`: its position, and whether it has found a free buffer there. -/
structure Lookup where
  position : ℕ
  found : Bool
  deriving DecidableEq

namespace Lookup

variable (cache : List Buffer) (last : ℕ)

def Again (s : Lookup) : Prop := s.found = false ∧ s.position ≠ last

instance : DecidablePred (Again last) := fun _ => inferInstanceAs (Decidable (_ ∧ _))

/-- The body of the loop; a lookup at the end goes on at the first buffer. -/
def turn (s : Lookup) : Lookup :=
  let i := if s.position = cache.length then 0 else s.position
  match cache[i]? with
  | some ⟨_, true⟩ => ⟨i, true⟩
  | _ => ⟨i + 1, false⟩

def run : ℕ → Lookup → Lookup
  | 0, s => s
  | n + 1, s => if Again last s then run n (turn cache s) else s

end Lookup

variable (c : BufferCache)

/-- The lookup of `newBuffer`, which takes no more turns than there are buffers. -/
def lookup : Lookup :=
  if 0 < c.free then Lookup.run c.cache c.position c.cache.length ⟨c.position + 1, false⟩
  else ⟨c.position, false⟩

def add : ℕ := c.cache.length / 8 + 1

/-- The new buffers, of which the last one is used. -/
def added : List Buffer :=
  (List.range (c.add - 1)).map (fun j => ⟨c.next + j, true⟩) ++ [⟨c.next + (c.add - 1), false⟩]

/-- `newBuffer`, with the number of the buffer that is returned. -/
def newBuffer : BufferCache × ℕ :=
  match (if c.lookup.found then c.cache[c.lookup.position]? else none) with
  | some b =>
      ({ c with
          cache := c.cache.set c.lookup.position ⟨b.id, false⟩
          position := c.lookup.position
          free := c.free - 1 }, b.id)
  | none =>
      ({ c with
          cache := c.cache ++ c.added
          position := 0
          free := c.free + (c.add - 1)
          maxFree := max c.minFree (((c.cache ++ c.added).length / 2 : ℕ) : ℤ)
          next := c.next + c.add }, c.next + (c.add - 1))

/-- The loop of `compact`: what it has passed, what is left from its iterator on, and `_free`. -/
def sweep (target : ℤ) : ℤ → List Buffer → List Buffer × List Buffer × ℤ
  | free, [] => ([], [], free)
  | free, b :: buffers =>
      if b.free then
        if free - 1 ≤ target then ([], buffers, free - 1) else sweep target (free - 1) buffers
      else
        let (passed, rest, free) := sweep target free buffers
        (b :: passed, rest, free)

def compact : BufferCache :=
  if c.free ≤ c.maxFree then c
  else
    let (passed, rest, free) := sweep (max (c.maxFree / 2) c.minFree) c.free c.cache
    { c with
      cache := passed ++ rest
      position := if rest = [] then 0 else passed.length
      free := free
      maxFree := max c.minFree (((passed ++ rest).length / 2 : ℕ) : ℤ) }

/-- `Buffer::notifyFree`, for a buffer in use. -/
def notifyFree (id : ℕ) : Option BufferCache :=
  if (⟨id, false⟩ : Buffer) ∈ c.cache then
    some { c with
      cache := Keyed.update Buffer.id id (fun b => { b with free := true }) c.cache
      free := c.free + 1 }
  else none

inductive Event
  | newBuffer
  | notifyFree (id : ℕ)
  | compact

def step (c : BufferCache) : Event → Option BufferCache
  | .newBuffer => some c.newBuffer.1
  | .notifyFree id => c.notifyFree id
  | .compact => some c.compact

structure Sound : Prop where
  free : c.free = c.cache.countP Buffer.free
  position : c.position < c.cache.length
  minFree : 1 < c.minFree
  maxFree : c.minFree ≤ c.maxFree
  nodup : (c.cache.map Buffer.id).Nodup
  next : ∀ b ∈ c.cache, b.id < c.next

section Lookup

variable {cache : List Buffer} {last : ℕ}

def FreeAt (cache : List Buffer) (i : ℕ) : Prop := ∃ id, cache[i]? = some ⟨id, true⟩

/-- What the loop knows of the buffers that it has looked at. A lookup from the first buffer on
passes the end only without a free buffer behind the first one. -/
structure Looking (cache : List Buffer) (last : ℕ) (s : Lookup) : Prop where
  free : s.found = true → FreeAt cache s.position
  bounds : s.found = false → 1 ≤ s.position ∧ s.position ≤ cache.length
  passed : s.found = false → last = 0 → ∀ j, 1 ≤ j → j < s.position → ¬ FreeAt cache j

theorem turn_of_freeAt {s : Lookup} {i : ℕ} (hi : (if s.position = cache.length then 0 else
    s.position) = i) (h : FreeAt cache i) : s.turn cache = ⟨i, true⟩ := by
  obtain ⟨id, hid⟩ := h
  simp only [Lookup.turn, hi, hid]

theorem turn_of_not_freeAt {s : Lookup} {i : ℕ} (hi : (if s.position = cache.length then 0 else
    s.position) = i) (h : ¬ FreeAt cache i) : s.turn cache = ⟨i + 1, false⟩ := by
  simp only [Lookup.turn, hi]
  split
  · next id hid => exact absurd ⟨id, hid⟩ h
  · rfl

/-- How many turns are left at most. -/
def turns (cache : List Buffer) (last : ℕ) (s : Lookup) : ℕ :=
  if s.found then 0
  else if last = 0 then cache.length + 1 - s.position
  else if last < s.position then cache.length - s.position + last
  else last - s.position

theorem Looking.turn (hlast : last < cache.length) (hfree : ∃ i, FreeAt cache i) {s : Lookup}
    (h : Looking cache last s) (hagain : s.Again last) :
    Looking cache last (s.turn cache) ∧ turns cache last (s.turn cache) < turns cache last s := by
  obtain ⟨hfound, hne⟩ := hagain
  obtain ⟨hone, hle⟩ := h.bounds hfound
  have hpassed := h.passed hfound
  generalize hi : (if s.position = cache.length then 0 else s.position) = i
  have hcases : (s.position = cache.length ∧ i = 0) ∨
      (s.position < cache.length ∧ i = s.position) := by
    split_ifs at hi with hend
    · exact Or.inl ⟨hend, hi.symm⟩
    · exact Or.inr ⟨lt_of_le_of_ne hle hend, hi.symm⟩
  by_cases hat : FreeAt cache i
  · rw [turn_of_freeAt hi hat]
    refine ⟨⟨fun _ => hat, fun h => (Bool.noConfusion h), fun h => (Bool.noConfusion h)⟩, ?_⟩
    unfold turns
    rw [hfound]
    simp only [if_true, Bool.false_eq_true, if_false]
    split_ifs <;> omega
  · rw [turn_of_not_freeAt hi hat]
    constructor
    · refine ⟨fun h => Bool.noConfusion h, fun _ => ?_, fun _ hzero j hj hlt => ?_⟩
      · dsimp only
        omega
      · rcases hcases with ⟨hend, rfl⟩ | ⟨hlt', rfl⟩
        · dsimp only at hlt
          omega
        · rcases Nat.lt_succ_iff_lt_or_eq.1 hlt with hlt | rfl
          · exact hpassed hzero j hj hlt
          · exact hat
    · have hbehind : ¬ (last = 0 ∧ s.position = cache.length) := by
        rintro ⟨hzero, hend⟩
        obtain ⟨j, hj⟩ := hfree
        have hlt : j < cache.length := by
          obtain ⟨id, hid⟩ := hj
          exact (List.getElem?_eq_some_iff.1 hid).1
        rcases Nat.eq_zero_or_pos j with rfl | hpos
        · rcases hcases with ⟨-, rfl⟩ | ⟨hlt', -⟩
          · exact hat hj
          · omega
        · exact hpassed hzero j hpos (by omega) hj
      unfold turns
      rw [hfound]
      simp only [Bool.false_eq_true, if_false]
      split_ifs <;> omega

end Lookup

variable {c : BufferCache}

theorem Sound.exists_freeAt (h : c.Sound) (hpos : 0 < c.free) : ∃ i, FreeAt c.cache i := by
  rw [h.free, Int.natCast_pos, List.countP_pos_iff] at hpos
  obtain ⟨⟨id, free⟩, hmem, hfree⟩ := hpos
  obtain ⟨i, hi, hget⟩ := List.getElem_of_mem hmem
  refine ⟨i, id, ?_⟩
  rw [List.getElem?_eq_getElem hi, hget]
  exact congrArg _ (congrArg _ hfree)

theorem Sound.looking_start (h : c.Sound) : Looking c.cache c.position ⟨c.position + 1, false⟩ where
  free := fun h => Bool.noConfusion h
  bounds := fun _ => ⟨Nat.le_add_left 1 _, h.position⟩
  passed := fun _ hzero j hj hlt => by
    dsimp only at hlt
    omega

/-- The loop of `newBuffer` terminates. -/
theorem Sound.loop_lookup (h : c.Sound) (hpos : 0 < c.free) :
    Loop (Lookup.Again c.position) (Lookup.turn c.cache) ⟨c.position + 1, false⟩ c.lookup := by
  rw [lookup, if_pos hpos]
  refine Loop.of_fuel (P := Looking c.cache c.position) (m := turns c.cache c.position)
    (fun _ => rfl) (fun _ _ => rfl)
    (fun s hs hagain => hs.turn h.position (h.exists_freeAt hpos) hagain) h.looking_start ?_
  have hposition := h.position
  unfold turns
  simp only [Bool.false_eq_true, if_false]
  split_ifs <;> omega

theorem Sound.freeAt_lookup (h : c.Sound) (hfound : c.lookup.found = true) :
    FreeAt c.cache c.lookup.position := by
  by_cases hpos : 0 < c.free
  · have hlooking := (h.loop_lookup hpos).invariant (P := Looking c.cache c.position)
      (fun s hs hagain => (hs.turn h.position (h.exists_freeAt hpos) hagain).1) h.looking_start
    exact hlooking.free hfound
  · rw [lookup, if_neg hpos] at hfound
    cases hfound

theorem Sound.newBuffer_cases (h : c.Sound) :
    (∃ i id, c.cache[i]? = some ⟨id, true⟩ ∧
      c.newBuffer = ({ c with
        cache := c.cache.set i ⟨id, false⟩
        position := i
        free := c.free - 1 }, id)) ∨
    c.newBuffer = ({ c with
      cache := c.cache ++ c.added
      position := 0
      free := c.free + (c.add - 1)
      maxFree := max c.minFree (((c.cache ++ c.added).length / 2 : ℕ) : ℤ)
      next := c.next + c.add }, c.next + (c.add - 1)) := by
  cases hfound : c.lookup.found with
  | true =>
      obtain ⟨id, hid⟩ := h.freeAt_lookup hfound
      refine Or.inl ⟨c.lookup.position, id, hid, ?_⟩
      rw [newBuffer, hfound, if_pos rfl, hid]
  | false =>
      refine Or.inr ?_
      rw [newBuffer, hfound, if_neg Bool.false_ne_true]

theorem sound_init {minFree : ℤ} (h : 1 < minFree) : (init minFree).Sound where
  free := rfl
  position := Nat.one_pos
  minFree := h
  maxFree := le_rfl
  nodup := List.nodup_singleton _
  next := fun b hb => by
    rw [List.mem_singleton.1 hb]
    exact Nat.one_pos

theorem countP_added (c : BufferCache) : c.added.countP Buffer.free = c.add - 1 := by
  have hfree : ((List.range (c.add - 1)).map (fun j => (⟨c.next + j, true⟩ : Buffer))).countP
      Buffer.free = c.add - 1 := by
    rw [List.countP_eq_length.2, List.length_map, List.length_range]
    intro b hb
    obtain ⟨j, -, rfl⟩ := List.mem_map.1 hb
    rfl
  rw [added, List.countP_append, hfree]
  rfl

theorem map_id_added (c : BufferCache) :
    c.added.map Buffer.id = (List.range c.add).map (fun j => c.next + j) := by
  have hadd : c.add = (c.add - 1) + 1 := (Nat.succ_pred_eq_of_pos (Nat.succ_pos _)).symm
  calc c.added.map Buffer.id
      = (List.range (c.add - 1 + 1)).map (fun j => c.next + j) := by
        rw [added, List.map_append, List.map_map, List.range_succ, List.map_append]
        rfl
    _ = (List.range c.add).map (fun j => c.next + j) := by rw [← hadd]

theorem mem_added {b : Buffer} (hb : b ∈ c.added) : c.next ≤ b.id ∧ b.id < c.next + c.add := by
  have hid := List.mem_map_of_mem (f := Buffer.id) hb
  rw [map_id_added] at hid
  obtain ⟨j, hj, hid⟩ := List.mem_map.1 hid
  rw [← hid]
  have hlt := List.mem_range.1 hj
  omega

theorem Sound.newBuffer (h : c.Sound) : c.newBuffer.1.Sound := by
  rcases h.newBuffer_cases with ⟨i, id, hid, heq⟩ | heq
  · obtain ⟨hi, hget⟩ := List.getElem?_eq_some_iff.1 hid
    have hids : (c.cache.set i ⟨id, false⟩).map Buffer.id = c.cache.map Buffer.id := by
      rw [List.map_set]
      have hsame := List.getElem_map Buffer.id (h := by rwa [List.length_map]) (l := c.cache) (i := i)
      rw [hget] at hsame
      rw [← hsame, List.set_getElem_self]
    rw [heq]
    refine ⟨?_, ?_, h.minFree, h.maxFree, ?_, fun b hb => ?_⟩
    · have hpos : 0 < c.cache.countP Buffer.free :=
        List.countP_pos_iff.2 ⟨_, List.mem_of_getElem? hid, rfl⟩
      have hcount := h.free
      dsimp only
      rw [List.countP_set hi, hget]
      simp only [if_true, Bool.false_eq_true, if_false]
      omega
    · exact (List.length_set ..).symm ▸ hi
    · rw [hids]
      exact h.nodup
    · have hmem := List.mem_map_of_mem (f := Buffer.id) hb
      rw [hids] at hmem
      obtain ⟨b', hb', hsame⟩ := List.mem_map.1 hmem
      rw [← hsame]
      exact h.next b' hb'
  · rw [heq]
    refine ⟨?_, ?_, h.minFree, le_max_left _ _, ?_, fun b hb => ?_⟩
    · have hadd : 1 ≤ c.add := Nat.le_add_left 1 _
      dsimp only
      rw [List.countP_append, countP_added, h.free]
      omega
    · exact (Nat.zero_le _).trans_lt (h.position.trans_le (by rw [List.length_append]; omega))
    · dsimp only
      rw [List.map_append, map_id_added, List.nodup_append]
      refine ⟨h.nodup, ?_, fun a ha a' ha' => ?_⟩
      · exact List.nodup_range.map (fun a b hab => Nat.add_left_cancel hab)
      · obtain ⟨b, hb, rfl⟩ := List.mem_map.1 ha
        obtain ⟨j, -, rfl⟩ := List.mem_map.1 ha'
        have hlt := h.next b hb
        omega
    · dsimp only
      rcases List.mem_append.1 hb with hb | hb
      · exact (h.next b hb).trans_le (Nat.le_add_right _ _)
      · exact (mem_added hb).2

/-- The buffer that is returned was free or is a new one, and is the only one that is changed. -/
theorem Sound.newBuffer_returns (h : c.Sound) :
    (⟨c.newBuffer.2, true⟩ ∈ c.cache ∨ c.newBuffer.2 ∉ c.cache.map Buffer.id) ∧
      ⟨c.newBuffer.2, false⟩ ∈ c.newBuffer.1.cache ∧
      ∀ b ∈ c.cache, b.id ≠ c.newBuffer.2 → b ∈ c.newBuffer.1.cache := by
  rcases h.newBuffer_cases with ⟨i, id, hid, heq⟩ | heq
  · obtain ⟨hi, hget⟩ := List.getElem?_eq_some_iff.1 hid
    rw [heq]
    refine ⟨Or.inl (List.mem_of_getElem? hid), List.mem_set hi _, fun b hb hne => ?_⟩
    obtain ⟨j, hj, rfl⟩ := List.getElem_of_mem hb
    have hji : i ≠ j := by
      rintro rfl
      rw [hget] at hne
      exact hne rfl
    exact List.mem_of_getElem? (i := j) (by
      rw [List.getElem?_set_ne hji, List.getElem?_eq_getElem hj])
  · rw [heq]
    refine ⟨Or.inr fun hmem => ?_, ?_, fun b hb _ => List.mem_append_left _ hb⟩
    · obtain ⟨b, hb, hid⟩ := List.mem_map.1 hmem
      have hlt := h.next b hb
      dsimp only at hid
      omega
    · exact List.mem_append_right _ (List.mem_append_right _ (List.mem_singleton_self _))

theorem Sound.notifyFree (h : c.Sound) {id : ℕ} {c' : BufferCache}
    (hfree : c.notifyFree id = some c') : c'.Sound := by
  unfold BufferCache.notifyFree at hfree
  by_cases hmem : (⟨id, false⟩ : Buffer) ∈ c.cache
  · rw [if_pos hmem, Option.some.injEq] at hfree
    subst hfree
    have hids : (Keyed.update Buffer.id id (fun b => { b with free := true }) c.cache).map
        Buffer.id = c.cache.map Buffer.id := Keyed.map_update (fun _ _ _ => rfl)
    refine ⟨?_, ?_, h.minFree, h.maxFree, ?_, fun b hb => ?_⟩
    · obtain ⟨before, after, hsplit⟩ := List.append_of_mem hmem
      have hnodup := h.nodup
      have hcount := h.free
      rw [hsplit] at hnodup hcount
      have hupdate := Keyed.update_append_cons (f := fun b => { b with free := true }) hnodup
      dsimp only at hupdate ⊢
      rw [hsplit, hupdate]
      simp only [List.countP_append, List.countP_cons, Bool.false_eq_true, if_false, if_true]
        at hcount ⊢
      omega
    · exact (List.length_map ..).symm ▸ h.position
    · dsimp only
      rw [hids]
      exact h.nodup
    · have hmem' := List.mem_map_of_mem (f := Buffer.id) hb
      rw [hids] at hmem'
      obtain ⟨b', hb', hsame⟩ := List.mem_map.1 hmem'
      rw [← hsame]
      exact h.next b' hb'
  · rw [if_neg hmem] at hfree
    cases hfree

theorem sweep_spec {target free : ℤ} {buffers : List Buffer}
    (hfree : free = buffers.countP Buffer.free) (htarget : 0 ≤ target) (hlt : target < free) :
    (sweep target free buffers).2.2 = target ∧
      (sweep target free buffers).2.1.countP Buffer.free = target ∧
      (∀ b ∈ (sweep target free buffers).1, b.free = false) ∧
      ((sweep target free buffers).1 ++ (sweep target free buffers).2.1).Sublist buffers ∧
      ∀ b ∈ buffers, b ∉ (sweep target free buffers).1 ++ (sweep target free buffers).2.1 →
        b.free = true := by
  induction buffers generalizing free with
  | nil =>
      rw [List.countP_nil] at hfree
      omega
  | cons b buffers ih =>
      rw [List.countP_cons] at hfree
      cases hb : b.free with
      | true =>
          rw [sweep, if_pos hb]
          rw [hb, if_pos rfl] at hfree
          split_ifs with hlast
          · refine ⟨by dsimp only; omega, by dsimp only; omega, fun _ h => absurd h List.not_mem_nil,
              List.sublist_cons_self b buffers, fun b' hb' hnot => ?_⟩
            rcases List.mem_cons.1 hb' with rfl | hb'
            · exact hb
            · exact absurd hb' hnot
          · have hfree' : free - 1 = buffers.countP Buffer.free := by omega
            have hlt' : target < free - 1 := by omega
            obtain ⟨hcount, hrest, hpassed, hsub, hdeleted⟩ := ih hfree' hlt'
            refine ⟨hcount, hrest, hpassed, hsub.cons b, fun b' hb' hnot => ?_⟩
            rcases List.mem_cons.1 hb' with rfl | hb'
            · exact hb
            · exact hdeleted b' hb' hnot
      | false =>
          rw [sweep, if_neg (by rw [hb]; exact Bool.false_ne_true)]
          rw [hb, if_neg Bool.false_ne_true, Nat.add_zero] at hfree
          obtain ⟨hcount, hrest, hpassed, hsub, hdeleted⟩ := ih hfree hlt
          refine ⟨hcount, hrest, fun b' hb' => ?_, hsub.cons_cons b, fun b' hb' hnot => ?_⟩
          · rcases List.mem_cons.1 hb' with rfl | hb'
            · exact hb
            · exact hpassed b' hb'
          · rcases List.mem_cons.1 hb' with rfl | hb'
            · exact absurd List.mem_cons_self hnot
            · exact hdeleted b' hb' (fun h => hnot (List.mem_cons_of_mem _ h))

theorem Sound.compact_spec (h : c.Sound) (hlt : c.maxFree < c.free) :
    c.compact.Sound ∧ (c.compact.cache).Sublist c.cache ∧ c.minFree ≤ c.compact.free ∧
      ∀ b ∈ c.cache, b ∉ c.compact.cache → b.free = true := by
  have hmin := h.minFree
  have hmax := h.maxFree
  have htarget : 0 ≤ max (c.maxFree / 2) c.minFree := by omega
  have hlt' : max (c.maxFree / 2) c.minFree < c.free := by omega
  obtain ⟨hcount, hrest, hpassed, hsub, hdeleted⟩ :=
    sweep_spec h.free htarget hlt'
  have hcompact : c.compact = { c with
      cache := (sweep (max (c.maxFree / 2) c.minFree) c.free c.cache).1 ++
        (sweep (max (c.maxFree / 2) c.minFree) c.free c.cache).2.1
      position := if (sweep (max (c.maxFree / 2) c.minFree) c.free c.cache).2.1 = [] then 0
        else (sweep (max (c.maxFree / 2) c.minFree) c.free c.cache).1.length
      free := (sweep (max (c.maxFree / 2) c.minFree) c.free c.cache).2.2
      maxFree := max c.minFree ((((sweep (max (c.maxFree / 2) c.minFree) c.free c.cache).1 ++
        (sweep (max (c.maxFree / 2) c.minFree) c.free c.cache).2.1).length / 2 : ℕ) : ℤ) } := by
    rw [compact, if_neg (not_le.2 hlt)]
  generalize sweep (max (c.maxFree / 2) c.minFree) c.free c.cache = swept at *
  obtain ⟨passed, rest, free⟩ := swept
  dsimp only at *
  rw [hcompact]
  have hne : rest ≠ [] := by
    rintro rfl
    rw [List.countP_nil] at hrest
    omega
  refine ⟨⟨?_, ?_, hmin, le_max_left _ _, ?_, ?_⟩, hsub, ?_, hdeleted⟩
  · have hused : passed.countP Buffer.free = 0 := by
      rw [List.countP_eq_zero]
      intro b hb
      rw [hpassed b hb]
      exact Bool.false_ne_true
    dsimp only
    rw [List.countP_append, hused]
    omega
  · dsimp only
    rw [if_neg hne, List.length_append]
    exact Nat.lt_add_of_pos_right (List.length_pos_of_ne_nil hne)
  · exact h.nodup.sublist (hsub.map _)
  · exact fun b hb => h.next b (hsub.mem hb)
  · dsimp only
    omega

theorem compact_of_le (h : c.free ≤ c.maxFree) : c.compact = c := if_pos h

theorem Sound.step (h : c.Sound) {e : Event} {c' : BufferCache} (hstep : c.step e = some c') :
    c'.Sound := by
  cases e with
  | newBuffer =>
      cases hstep
      exact h.newBuffer
  | notifyFree id => exact h.notifyFree hstep
  | compact =>
      cases hstep
      rcases lt_or_ge c.maxFree c.free with hlt | hge
      · exact (h.compact_spec hlt).1
      · rwa [compact_of_le hge]

theorem minFree_step {e : Event} {c' : BufferCache} (hstep : c.step e = some c') :
    c'.minFree = c.minFree := by
  cases e with
  | newBuffer =>
      cases hstep
      unfold BufferCache.newBuffer
      split <;> rfl
  | notifyFree id =>
      simp only [BufferCache.step, BufferCache.notifyFree] at hstep
      split_ifs at hstep
      cases hstep
      rfl
  | compact =>
      cases hstep
      unfold compact
      split_ifs <;> rfl

/-- After any series of calls the counter is exact and the position is in the list, a lookup
terminates and returns a buffer that is not in use, and a compaction deletes free buffers only, and
none of the last `_minFree`. -/
theorem accounting {minFree : ℤ} (hmin : 1 < minFree) {events : List Event} {c : BufferCache}
    (hrun : Machine.run BufferCache.step (init minFree) events = some c) :
    c.free = c.cache.countP Buffer.free ∧ c.position < c.cache.length ∧
      (0 < c.free → Loop (Lookup.Again c.position) (Lookup.turn c.cache) ⟨c.position + 1, false⟩
        c.lookup) ∧
      (⟨c.newBuffer.2, true⟩ ∈ c.cache ∨ c.newBuffer.2 ∉ c.cache.map Buffer.id) ∧
      ⟨c.newBuffer.2, false⟩ ∈ c.newBuffer.1.cache ∧
      (∀ b ∈ c.cache, b.id ≠ c.newBuffer.2 → b ∈ c.newBuffer.1.cache) ∧
      c.compact.cache.Sublist c.cache ∧ (∀ b ∈ c.cache, b ∉ c.compact.cache → b.free = true) ∧
      min minFree (c.cache.countP Buffer.free) ≤ c.compact.cache.countP Buffer.free ∧
      c.compact.position < c.compact.cache.length := by
  obtain ⟨h, rfl⟩ := Machine.run_invariant (fun c => c.Sound ∧ c.minFree = minFree)
    (fun c e c' hc _ hstep => ⟨hc.1.step hstep, (minFree_step hstep).trans hc.2⟩)
    ⟨sound_init hmin, rfl⟩ (Machine.steps_true _ _) hrun
  obtain ⟨hreturned, hused, hothers⟩ := h.newBuffer_returns
  refine ⟨h.free, h.position, h.loop_lookup, hreturned, hused, hothers, ?_⟩
  rcases lt_or_ge c.maxFree c.free with hlt | hge
  · obtain ⟨hsound, hsub, hkept, hdeleted⟩ := h.compact_spec hlt
    refine ⟨hsub, hdeleted, ?_, hsound.position⟩
    rw [← hsound.free]
    exact (min_le_left _ _).trans hkept
  · rw [compact_of_le hge]
    exact ⟨List.Sublist.refl _, fun b hb hnot => absurd hb hnot, min_le_right _ _, h.position⟩

/-- A buffer is taken, further ones are made, and one of them is freed and deleted. -/
theorem accounting_compacted :
    ∃ c, Machine.run BufferCache.step (init 2)
        [.newBuffer, .newBuffer, .newBuffer, .newBuffer, .notifyFree 0, .notifyFree 1, .notifyFree 2,
          .compact] = some c ∧
      c.free = c.cache.countP Buffer.free := by
  have hrun : ((Machine.run BufferCache.step (init 2)
      [.newBuffer, .newBuffer, .newBuffer, .newBuffer, .notifyFree 0, .notifyFree 1, .notifyFree 2,
        .compact]).map (fun c => c.position)) = some 0 := by decide +kernel
  obtain ⟨c, hc, -⟩ := Option.map_eq_some_iff.1 hrun
  exact ⟨c, hc, (accounting (by decide) hc).1⟩

/-- A new cache has a single free buffer, and `compact` makes no further ones. -/
theorem compact_init :
    (Machine.run BufferCache.step (init 2) [.compact]).map
      (fun c => (c.minFree, c.cache.countP Buffer.free)) = some (2, 1) := by
  decide +kernel

end BufferCache

end Collage
