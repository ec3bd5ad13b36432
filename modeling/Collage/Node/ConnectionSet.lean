import Mathlib.Data.List.TakeWhile
import Mathlib.Logic.Function.Basic
import Collage.Lib.Run

/-!
# Connection sets

The set of connections that a thread selects from (`connectionSet.cpp`, with `poll`). Other threads
change the set meanwhile: they mark it as dirty and wake the selecting thread up through an event
connection of the set. The results of one `poll` are returned by several calls of `select`.
-/

namespace Collage.ConnectionSet

variable {C : Type}

/-- A descriptor of the poll set: that of `selfConnection`, or of a connection. -/
abbrev Source (C : Type) : Type := Option C

/-- `revents` of a descriptor. -/
structure Revents where
  err : Bool
  hup : Bool
  nval : Bool
  input : Bool
  pri : Bool
  deriving DecidableEq, Repr

namespace Revents

def zero : Revents := ⟨false, false, false, false, false⟩

def any (r : Revents) : Bool := r.err || r.hup || r.nval || r.input || r.pri

end Revents

inductive Result (C : Type)
  | connect (connection : C)
  | disconnect (connection : C)
  | data (connection : C)
  | error (connection : C)
  | invalidHandle (connection : C)
  | interrupt
  | timeout
  | selectError
  deriving DecidableEq, Repr

/-- Where the selecting thread is. -/
inductive Phase (C : Type)
  | outside
  /-- At the begin of the loop of `select`. -/
  | entered
  /-- In `_getSelectResult`, with the results of an earlier `poll` or of this one. -/
  | parsing (polled : Bool)
  /-- In `_setupFDSet`, before it tests, before it clears the mark, and before it takes the lock. -/
  | setup
  | clearing
  | building
  /-- In `poll`. -/
  | polling
  /-- `select` has returned a connection without a descriptor, which was not removed yet. -/
  | invalid (connection : C)
  deriving DecidableEq, Repr

/-- The phases in which the thread tests the mark before it uses the tables. -/
def Phase.unused : Phase C → Bool
  | .outside | .entered | .setup | .clearing => true
  | _ => false

/-- Where a thread is in `setDirty` or `interrupt`. -/
inductive Task
  | idle
  /-- Before the test for the mark. -/
  | testing
  /-- Before `dirty = true`. -/
  | marking
  /-- Before `selfConnection->set()`. -/
  | signalling
  deriving DecidableEq, Repr

/-- What happens to the results, for the specification. -/
inductive Log (C : Type)
  | polled (ready : List (Source C × Revents))
  | returned (result : Source C × Revents)
  | cleared
  deriving DecidableEq, Repr

/-- A set with the selecting thread, which is thread 0, and the other threads. -/
structure World (C : Type) where
  allConnections : List C
  fdSet : List (Source C × Revents)
  fdSetCopy : List (Source C)
  fdSetResult : List (Source C)
  dirty : Bool
  /-- `selfConnection` is set. -/
  signalled : Bool
  phase : Phase C
  result : Option (Result C)
  tasks : ℕ → Task
  log : List (Log C)

inductive Event (C : Type)
  /-- `addConnection` up to the release of the lock. -/
  | add (thread : ℕ) (connection : C)
  /-- `removeConnection` up to the release of the lock. -/
  | remove (thread : ℕ) (connection : C)
  /-- `setDirty` or `interrupt` is called. -/
  | setDirty (thread : ℕ)
  | interrupt (thread : ℕ)
  /-- The next step of `setDirty` or `interrupt`. -/
  | advance (thread : ℕ)
  /-- `select` is called. -/
  | select
  /-- The test for results of an earlier `poll`. -/
  | check
  | parse
  /-- The steps of `_setupFDSet`, the last with the connections that have a descriptor. -/
  | setup
  | clear
  | build (usable : C → Bool)
  /-- `poll` returns. -/
  | poll (revents : Source C → Revents)
  | timeout
  | fail (interrupted : Bool)

def ready (fdSet : List (Source C × Revents)) : List (Source C × Revents) :=
  fdSet.filter (fun p => p.2.any)

/-- `_parseSelect`: the first descriptor that is ready, and the set without this result. -/
def parseSelect : List (Source C × Revents) → List (Source C) →
    Option ((Source C × Revents) × List (Source C × Revents))
  | (fd, r) :: fdSet, source :: result =>
      if r.any then some ((source, r), (fd, .zero) :: fdSet)
      else (parseSelect fdSet result).map (fun p => (p.1, (fd, r) :: p.2))
  | _, _ => none

theorem map_parseSelect {fdSet fdSet' : List (Source C × Revents)} {sources : List (Source C)}
    {found : Source C × Revents} (h : parseSelect fdSet sources = some (found, fdSet')) :
    fdSet'.map Prod.fst = fdSet.map Prod.fst := by
  induction fdSet, sources using parseSelect.induct generalizing fdSet' with
  | case1 fd r fdSet source sources hr =>
      rw [parseSelect, if_pos hr] at h
      cases h
      rfl
  | case2 fd r fdSet source sources hr ih =>
      rw [parseSelect, if_neg hr, Option.map_eq_some_iff] at h
      obtain ⟨⟨found', rest⟩, hrest, he⟩ := h
      cases he
      rw [List.map_cons, List.map_cons, ih hrest]
  | case3 fdSet sources hne =>
      rw [parseSelect] at h
      · cases h
      · exact hne

theorem ready_cons_of_pos {fd : Source C} {r : Revents} (fdSet : List (Source C × Revents))
    (hr : r.any = true) : ready ((fd, r) :: fdSet) = (fd, r) :: ready fdSet :=
  List.filter_cons_of_pos hr

theorem ready_cons_of_neg {fd : Source C} {r : Revents} (fdSet : List (Source C × Revents))
    (hr : ¬r.any = true) : ready ((fd, r) :: fdSet) = ready fdSet :=
  List.filter_cons_of_neg hr

theorem ready_zero (sources : List (Source C)) : ready (sources.map (fun s => (s, .zero))) = [] := by
  induction sources with
  | nil => rfl
  | cons s sources ih => rw [List.map_cons, ready_cons_of_neg _ (fun h => by cases h), ih]

theorem ready_of_parseSelect_none {fdSet : List (Source C × Revents)}
    (h : parseSelect fdSet (fdSet.map Prod.fst) = none) : ready fdSet = [] := by
  induction fdSet with
  | nil => rfl
  | cons p fdSet ih =>
      obtain ⟨fd, r⟩ := p
      rw [List.map_cons, parseSelect] at h
      by_cases hr : r.any = true
      · rw [if_pos hr] at h
        cases h
      · rw [if_neg hr, Option.map_eq_none_iff] at h
        rw [ready_cons_of_neg fdSet hr, ih h]

theorem ready_of_parseSelect {fdSet fdSet' : List (Source C × Revents)} {found : Source C × Revents}
    (h : parseSelect fdSet (fdSet.map Prod.fst) = some (found, fdSet')) :
    ready fdSet = found :: ready fdSet' := by
  induction fdSet generalizing fdSet' with
  | nil => cases h
  | cons p fdSet ih =>
      obtain ⟨fd, r⟩ := p
      rw [List.map_cons, parseSelect] at h
      by_cases hr : r.any = true
      · rw [if_pos hr] at h
        cases h
        rw [ready_cons_of_pos fdSet hr, ready_cons_of_neg fdSet (fun h => by cases h)]
      · rw [if_neg hr, Option.map_eq_some_iff] at h
        obtain ⟨⟨found', rest⟩, hrest, he⟩ := h
        cases he
        rw [ready_cons_of_neg fdSet hr, ready_cons_of_neg rest hr, ih hrest]

def event (isListening : C → Bool) (connection : C) (r : Revents) : Result C :=
  if r.err then .error connection
  else if r.hup ∨ r.nval then .disconnect connection
  else if isListening connection then .connect connection
  else .data connection

namespace World

def init : World C where
  allConnections := []
  fdSet := []
  fdSetCopy := []
  fdSetResult := []
  dirty := true
  signalled := false
  phase := .outside
  result := none
  tasks := fun _ => .idle
  log := []

def Free (w : World C) (thread : ℕ) : Prop :=
  w.tasks thread = .idle ∧ (thread = 0 → w.phase = .outside ∨ ∃ c, w.phase = .invalid c)

instance (w : World C) (thread : ℕ) : Decidable (w.Free thread) :=
  decidable_of_iff (w.tasks thread = .idle ∧ (thread = 0 →
      (match w.phase with | .outside => true | .invalid _ => true | _ => false) = true)) <| by
    unfold Free
    cases w.phase <;> simp

def setTask (w : World C) (thread : ℕ) (task : Task) : World C :=
  { w with tasks := Function.update w.tasks thread task }

def returns (w : World C) (result : Result C) : World C :=
  { w with phase := .outside, result := some result }

variable (isListening : C → Bool) (w : World C)

/-- `setDirty` and `interrupt`. -/
def advance (thread : ℕ) : Option (World C) :=
  match w.tasks thread with
  | .idle => none
  | .testing => some (w.setTask thread (if w.dirty then .idle else .marking))
  | .marking => some ({ w with dirty := true }.setTask thread .signalling)
  | .signalling => some ({ w with signalled := true }.setTask thread .idle)

def getSelectResult (polled : Bool) : World C :=
  match parseSelect w.fdSet w.fdSetResult with
  | none => { w with phase := if polled then .entered else .setup }
  | some ((none, r), fdSet) =>
      { w with
        fdSet := fdSet
        signalled := false
        log := w.log ++ [Log.returned (none, r)] }.returns .interrupt
  | some ((some connection, r), fdSet) =>
      { w with
        fdSet := fdSet
        log := w.log ++ [Log.returned (some connection, r)] }.returns (event isListening connection r)

/-- `_setupFDSet` with the lock. A connection without a descriptor ends it. -/
def build (usable : C → Bool) : World C :=
  let sources := none :: (w.allConnections.takeWhile usable).map some
  let w' := { w with fdSet := sources.map (fun s => (s, .zero)), fdSetResult := sources }
  match w.allConnections.find? (fun c => !usable c) with
  | some c => { w' with phase := .invalid c, result := some (.invalidHandle c) }
  | none => { w' with phase := .polling, fdSetCopy := sources }

def poll (revents : Source C → Revents) : Option (World C) :=
  let fdSet := w.fdSet.map (fun p => (p.1, revents p.1))
  if revents none = { Revents.zero with input := w.signalled } ∧ ready fdSet ≠ [] then
    some { w with fdSet := fdSet, phase := .parsing true, log := w.log ++ [.polled (ready fdSet)] }
  else none

/-! ## Whom a task of another thread still serves -/

variable {w : World C} {isListening : C → Bool}

/-- A thread is about to mark the set, unless it is marked. -/
def Marks (w : World C) : Prop := ∃ t, w.tasks t = .testing ∨ w.tasks t = .marking

/-- A thread is about to wake the selecting thread up. -/
def Signals (w : World C) : Prop := ∃ t, w.tasks t = .signalling

def Current (w : World C) : Prop := w.fdSetResult = none :: w.allConnections.map some

/-- The three tables have the same descriptors, the first of them that of `selfConnection`. -/
structure Aligned (w : World C) : Prop where
  fdSet : w.fdSet.map Prod.fst = w.fdSetResult
  fdSetCopy : w.fdSetCopy = w.fdSetResult
  head : ∃ sources, w.fdSetResult = none :: sources

/-- What holds of the set between two steps of any thread. -/
structure Consistent (w : World C) : Prop where
  current : w.Current ∨ w.dirty = true ∨ w.Marks ∨ w.phase = .building ∨ ∃ c, w.phase = .invalid c
  aligned : w.Aligned ∨
    (w.dirty = true ∧ w.phase.unused = true) ∨
    w.phase = .building ∨ (∃ c, w.phase = .invalid c) ∨
    (w.phase = .outside ∧ (w.tasks 0 = .testing ∨ w.tasks 0 = .marking))
  woken : w.phase = .building ∨ w.phase = .polling → w.dirty = true → w.signalled = true ∨ w.Signals
  valid : ∀ c, w.phase = .invalid c → c ∈ w.allConnections
  alone : w.tasks 0 ≠ .idle → w.phase = .outside ∨ ∃ c, w.phase = .invalid c

theorem consistent_init : (init : World C).Consistent where
  current := .inr (.inl rfl)
  aligned := .inr (.inl ⟨rfl, rfl⟩)
  woken h := by rcases h with h | h <;> cases h
  valid c h := by cases h
  alone h := absurd rfl h

@[simp] theorem setTask_self (t : ℕ) (task : Task) : (w.setTask t task).tasks t = task :=
  Function.update_self ..

theorem setTask_of_ne {t t' : ℕ} (h : t' ≠ t) (task : Task) :
    (w.setTask t task).tasks t' = w.tasks t' :=
  Function.update_of_ne h ..

theorem Marks.setTask {t : ℕ} {task : Task} (h : w.Marks) (hidle : w.tasks t = .idle) :
    (w.setTask t task).Marks := by
  obtain ⟨t', ht'⟩ := h
  have hne : t' ≠ t := by
    intro he
    rw [he, hidle] at ht'
    rcases ht' with ht' | ht' <;> cases ht'
  exact ⟨t', by rwa [setTask_of_ne hne]⟩

theorem Signals.setTask {t : ℕ} {task : Task} (h : w.Signals) (ht : w.tasks t ≠ .signalling) :
    (w.setTask t task).Signals := by
  obtain ⟨t', ht'⟩ := h
  have hne : t' ≠ t := by
    intro he
    exact ht (he ▸ ht')
  exact ⟨t', by rwa [setTask_of_ne hne]⟩

theorem Consistent.start {t : ℕ} {task : Task} (h : w.Consistent) (hfree : w.Free t) :
    (w.setTask t task).Consistent where
  current := by
    rcases h.current with hc | hd | hm | hp
    · exact .inl hc
    · exact .inr (.inl hd)
    · exact .inr (.inr (.inl (hm.setTask hfree.1)))
    · exact .inr (.inr (.inr hp))
  aligned := by
    rcases h.aligned with ha | hd | hb | hi | ⟨hp, h0⟩
    · exact .inl ⟨ha.fdSet, ha.fdSetCopy, ha.head⟩
    · exact .inr (.inl hd)
    · exact .inr (.inr (.inl hb))
    · exact .inr (.inr (.inr (.inl hi)))
    · have hne : 0 ≠ t := by
        intro he
        rw [he, hfree.1] at h0
        rcases h0 with h0 | h0 <;> cases h0
      exact .inr (.inr (.inr (.inr ⟨hp, by rwa [setTask_of_ne hne]⟩)))
  woken hp hd := by
    refine (h.woken hp hd).imp_right (fun hs => hs.setTask ?_)
    rw [hfree.1]
    exact fun he => by cases he
  valid := h.valid
  alone h0 := by
    by_cases ht : 0 = t
    · exact hfree.2 ht.symm
    · exact h.alone (by rwa [setTask_of_ne ht] at h0)

theorem Consistent.set_connections {t : ℕ} {connections : List C} (h : w.Consistent)
    (hfree : w.Free t) (hvalid : ∀ c, w.phase = .invalid c → c ∈ connections) :
    ({ w with allConnections := connections }.setTask t .testing).Consistent where
  current := .inr (.inr (.inl ⟨t, .inl (setTask_self t _)⟩))
  aligned := by
    have hstart : (w.setTask t .testing).Consistent := h.start hfree
    rcases hstart.aligned with ha | hr
    · exact .inl ⟨ha.fdSet, ha.fdSetCopy, ha.head⟩
    · exact .inr hr
  woken := (h.start hfree).woken
  valid := hvalid
  alone := (h.start hfree).alone

theorem Consistent.setTask_tested {t : ℕ} (h : w.Consistent) (ht : w.tasks t = .testing) :
    (w.setTask t (if w.dirty then .idle else .marking)).Consistent where
  current := by
    rcases h.current with hc | hd | - | hp
    · exact .inl hc
    · exact .inr (.inl hd)
    · by_cases hd : w.dirty = true
      · exact .inr (.inl hd)
      · exact .inr (.inr (.inl ⟨t, .inr (by rw [setTask_self, if_neg hd])⟩))
    · exact .inr (.inr (.inr hp))
  aligned := by
    rcases h.aligned with ha | hd | hb | hi | ⟨hp, h0⟩
    · exact .inl ⟨ha.fdSet, ha.fdSetCopy, ha.head⟩
    · exact .inr (.inl hd)
    · exact .inr (.inr (.inl hb))
    · exact .inr (.inr (.inr (.inl hi)))
    · by_cases hd : w.dirty = true
      · exact .inr (.inl ⟨hd, congrArg Phase.unused hp⟩)
      · refine .inr (.inr (.inr (.inr ⟨hp, ?_⟩)))
        by_cases hne : 0 = t
        · exact .inr (by rw [hne, setTask_self, if_neg hd])
        · rwa [setTask_of_ne hne]
  woken hp hd := by
    refine (h.woken hp hd).imp_right (fun hs => hs.setTask ?_)
    rw [ht]
    exact fun he => by cases he
  valid := h.valid
  alone h0 := by
    by_cases hne : 0 = t
    · exact h.alone (by rw [hne, ht]; exact fun he => by cases he)
    · exact h.alone (by rwa [setTask_of_ne hne] at h0)

theorem Consistent.mark_dirty {t : ℕ} (h : w.Consistent) (ht : w.tasks t = .marking) :
    ({ w with dirty := true }.setTask t .signalling).Consistent where
  current := .inr (.inl rfl)
  aligned := by
    rcases h.aligned with ha | ⟨-, hp⟩ | hb | hi | ⟨hp, -⟩
    · exact .inl ⟨ha.fdSet, ha.fdSetCopy, ha.head⟩
    · exact .inr (.inl ⟨rfl, hp⟩)
    · exact .inr (.inr (.inl hb))
    · exact .inr (.inr (.inr (.inl hi)))
    · exact .inr (.inl ⟨rfl, congrArg Phase.unused hp⟩)
  woken _ _ := .inr ⟨t, setTask_self t _⟩
  valid := h.valid
  alone h0 := by
    by_cases hne : 0 = t
    · exact h.alone (by rw [hne, ht]; exact fun he => by cases he)
    · exact h.alone (by rwa [setTask_of_ne hne] at h0)

theorem Consistent.signal_event {t : ℕ} (h : w.Consistent) (ht : w.tasks t = .signalling) :
    ({ w with signalled := true }.setTask t .idle).Consistent where
  current := by
    rcases h.current with hc | hd | ⟨t', ht'⟩ | hp
    · exact .inl hc
    · exact .inr (.inl hd)
    · have hne : t' ≠ t := by
        intro he
        rw [he, ht] at ht'
        rcases ht' with ht' | ht' <;> cases ht'
      exact .inr (.inr (.inl ⟨t', by rwa [setTask_of_ne hne]⟩))
    · exact .inr (.inr (.inr hp))
  aligned := by
    rcases h.aligned with ha | hd | hb | hi | ⟨hp, h0⟩
    · exact .inl ⟨ha.fdSet, ha.fdSetCopy, ha.head⟩
    · exact .inr (.inl hd)
    · exact .inr (.inr (.inl hb))
    · exact .inr (.inr (.inr (.inl hi)))
    · have hne : 0 ≠ t := by
        intro he
        rw [he, ht] at h0
        rcases h0 with h0 | h0 <;> cases h0
      exact .inr (.inr (.inr (.inr ⟨hp, by rwa [setTask_of_ne hne]⟩)))
  woken _ _ := .inl rfl
  valid := h.valid
  alone h0 := by
    by_cases hne : 0 = t
    · exact absurd (by rw [hne, setTask_self]) h0
    · exact h.alone (by rwa [setTask_of_ne hne] at h0)

theorem Consistent.advance {t : ℕ} {w' : World C} (h : w.Consistent)
    (hstep : w.advance t = some w') : w'.Consistent := by
  rw [World.advance] at hstep
  split at hstep
  · cases hstep
  · cases hstep
    exact h.setTask_tested ‹_›
  · cases hstep
    exact h.mark_dirty ‹_›
  · cases hstep
    exact h.signal_event ‹_›

theorem Consistent.set_phase {fdSet : List (Source C × Revents)} {signalled : Bool} {phase : Phase C}
    {result : Option (Result C)} {log : List (Log C)} (h : w.Consistent) (hidle : w.tasks 0 = .idle)
    (hbuilding : w.phase ≠ .building) (hinvalid : ∀ c, w.phase ≠ .invalid c)
    (hphase : phase.unused = true ∨ ∃ p, phase = .parsing p)
    (halign : w.Aligned ∧ fdSet.map Prod.fst = w.fdSet.map Prod.fst ∨
      w.dirty = true ∧ phase.unused = true) :
    { w with
      fdSet := fdSet
      signalled := signalled
      phase := phase
      result := result
      log := log }.Consistent where
  current := by
    rcases h.current with hc | hd | hm | hp | ⟨c, hp⟩
    · exact .inl hc
    · exact .inr (.inl hd)
    · exact .inr (.inr (.inl hm))
    · exact absurd hp hbuilding
    · exact absurd hp (hinvalid c)
  aligned := by
    rcases halign with ⟨ha, hset⟩ | hd
    · exact .inl ⟨hset.trans ha.fdSet, ha.fdSetCopy, ha.head⟩
    · exact .inr (.inl hd)
  woken hp _ := by
    rcases hp with rfl | rfl <;> rcases hphase with hp | ⟨_, hp⟩ <;> cases hp
  valid c hc := by
    subst hc
    rcases hphase with hp | ⟨_, hp⟩ <;> cases hp
  alone h0 := absurd hidle h0

theorem Consistent.idle (h : w.Consistent) (hout : w.phase ≠ .outside)
    (hinvalid : ∀ c, w.phase ≠ .invalid c) : w.tasks 0 = .idle := by
  by_contra h0
  rcases h.alone h0 with hp | ⟨c, hp⟩
  · exact hout hp
  · exact hinvalid c hp

theorem Consistent.aligned_or (h : w.Consistent) (hidle : w.tasks 0 = .idle)
    (hbuilding : w.phase ≠ .building) (hinvalid : ∀ c, w.phase ≠ .invalid c) :
    w.Aligned ∨ w.dirty = true ∧ w.phase.unused = true := by
  rcases h.aligned with ha | hd | hb | ⟨c, hi⟩ | ⟨-, h0⟩
  · exact .inl ha
  · exact .inr hd
  · exact absurd hb hbuilding
  · exact absurd hi (hinvalid c)
  · rw [hidle] at h0
    rcases h0 with h0 | h0 <;> cases h0

theorem ne_of_uses {phase : Phase C} (hp : phase = .polling ∨ ∃ p, phase = .parsing p) :
    phase ≠ .outside ∧ phase ≠ .building ∧ (∀ c, phase ≠ .invalid c) ∧ phase.unused = false := by
  rcases hp with rfl | ⟨p, rfl⟩
  · exact ⟨by simp, by simp, by simp, rfl⟩
  · exact ⟨by simp, by simp, by simp, rfl⟩

theorem Consistent.aligned_of (h : w.Consistent)
    (hp : w.phase = .polling ∨ ∃ p, w.phase = .parsing p) : w.Aligned := by
  obtain ⟨hout, hbuilding, hinvalid, hunused⟩ := ne_of_uses hp
  refine (h.aligned_or (h.idle hout hinvalid) hbuilding hinvalid).resolve_right ?_
  rintro ⟨-, hu⟩
  rw [hunused] at hu
  cases hu

theorem Consistent.set_phase_aligned {fdSet : List (Source C × Revents)} {signalled : Bool}
    {phase : Phase C} {result : Option (Result C)} {log : List (Log C)} (h : w.Consistent)
    (hp : w.phase = .polling ∨ ∃ p, w.phase = .parsing p)
    (hphase : phase.unused = true ∨ ∃ p, phase = .parsing p)
    (hset : fdSet.map Prod.fst = w.fdSet.map Prod.fst) :
    { w with
      fdSet := fdSet
      signalled := signalled
      phase := phase
      result := result
      log := log }.Consistent := by
  obtain ⟨hout, hbuilding, hinvalid, -⟩ := ne_of_uses hp
  exact h.set_phase (h.idle hout hinvalid) hbuilding hinvalid hphase (.inl ⟨h.aligned_of hp, hset⟩)

theorem Consistent.poll {revents : Source C → Revents} {w' : World C} (h : w.Consistent)
    (hp : w.phase = .polling) (hstep : w.poll revents = some w') : w'.Consistent := by
  simp only [World.poll, Option.ite_none_right_eq_some] at hstep
  cases hstep.2
  exact h.set_phase_aligned (.inl hp) (.inr ⟨true, rfl⟩) (by rw [List.map_map]; rfl)

theorem map_zero (sources : List (Source C)) :
    (sources.map (fun s => (s, Revents.zero))).map Prod.fst = sources := by
  rw [List.map_map]
  exact List.map_id sources

theorem Consistent.parse_result {polled : Bool} (h : w.Consistent) (hp : w.phase = .parsing polled) :
    (w.getSelectResult isListening polled).Consistent := by
  unfold getSelectResult
  split
  · exact h.set_phase_aligned (.inr ⟨polled, hp⟩) (.inl (by cases polled <;> rfl)) rfl
  · exact h.set_phase_aligned (.inr ⟨polled, hp⟩) (.inl rfl) (map_parseSelect ‹_›)
  · exact h.set_phase_aligned (.inr ⟨polled, hp⟩) (.inl rfl) (map_parseSelect ‹_›)

theorem Consistent.reuse_fdSet (h : w.Consistent) (hp : w.phase = .setup) (hd : w.dirty = false) :
    { w with
      fdSet := w.fdSetCopy.map (fun s => (s, .zero))
      phase := .polling }.Consistent := by
  have hidle := h.idle (by simp [hp]) (by simp [hp])
  have ha : w.Aligned := by
    refine (h.aligned_or hidle (by simp [hp]) (by simp [hp])).resolve_right ?_
    rw [hd]
    exact fun he => by cases he.1
  exact {
    current := by
      rcases h.current with hc | hm | hm | hb | ⟨c, hi⟩
      · exact .inl hc
      · exact .inr (.inl hm)
      · exact .inr (.inr (.inl hm))
      · rw [hp] at hb
        cases hb
      · rw [hp] at hi
        cases hi
    aligned := .inl ⟨(map_zero _).trans ha.fdSetCopy, ha.fdSetCopy, ha.head⟩
    woken := fun _ hm => by
      rw [hd] at hm
      cases hm
    valid := fun c hc => by cases hc
    alone := fun h0 => absurd hidle h0 }

theorem Consistent.clear_fdSet (h : w.Consistent) (hp : w.phase = .clearing) :
    { w with
      dirty := false
      fdSet := []
      fdSetResult := []
      phase := .building
      log := w.log ++ [Log.cleared] }.Consistent where
  current := .inr (.inr (.inr (.inl rfl)))
  aligned := .inr (.inr (.inl rfl))
  woken _ hd := by cases hd
  valid c hc := by cases hc
  alone h0 := absurd (h.idle (by simp [hp]) (by simp [hp])) h0

@[simp] theorem tasks_build (usable : C → Bool) : (w.build usable).tasks = w.tasks := by
  unfold World.build
  split <;> rfl

theorem takeWhile_of_find? {usable : C → Bool} {l : List C}
    (h : l.find? (fun c => !usable c) = none) : l.takeWhile usable = l := by
  rw [List.takeWhile_eq_self_iff]
  intro c hc
  simpa using List.find?_eq_none.1 h c hc

theorem Consistent.build {usable : C → Bool} (h : w.Consistent) (hp : w.phase = .building) :
    (w.build usable).Consistent := by
  have hidle := h.idle (by simp [hp]) (by simp [hp])
  unfold World.build
  split
  · rename_i c hc
    exact {
      current := .inr (.inr (.inr (.inr ⟨c, rfl⟩)))
      aligned := .inr (.inr (.inr (.inl ⟨c, rfl⟩)))
      woken := fun hb => by rcases hb with hb | hb <;> cases hb
      valid := fun c' hc' => by
        cases hc'
        exact List.mem_of_find?_eq_some hc
      alone := fun h0 => absurd hidle h0 }
  · rename_i hnone
    exact {
      current := .inl (by simp only [Current, takeWhile_of_find? hnone])
      aligned := .inl ⟨map_zero _, rfl, _, rfl⟩
      woken := fun _ hd => h.woken (.inl hp) hd
      valid := fun c hc => by cases hc
      alone := fun h0 => absurd hidle h0 }

variable [DecidableEq C]

section Step

variable (isListening : C → Bool) (w : World C)

def removeConnection (thread : ℕ) (connection : C) : World C :=
  let w' := if connection ∈ w.allConnections then
    { w with allConnections := w.allConnections.erase connection }.setTask thread .testing else w
  if thread = 0 ∧ w.phase = .invalid connection then { w' with phase := .outside } else w'

def step : Event C → Option (World C)
  | .add thread connection =>
      if w.Free thread then
        some ({ w with allConnections := w.allConnections ++ [connection] }.setTask thread .testing)
      else none
  | .remove thread connection =>
      if w.Free thread then some (w.removeConnection thread connection) else none
  | .setDirty thread => if w.Free thread then some (w.setTask thread .testing) else none
  | .interrupt thread => if w.Free thread then some (w.setTask thread .signalling) else none
  | .advance thread => w.advance thread
  | .select =>
      if w.phase = .outside ∧ w.tasks 0 = .idle then some { w with phase := .entered } else none
  | .check =>
      if w.phase = .entered then
        some { w with phase := if w.dirty then .setup else .parsing false }
      else none
  | .parse =>
      match w.phase with
      | .parsing polled => some (w.getSelectResult isListening polled)
      | _ => none
  | .setup =>
      if w.phase = .setup then
        if w.dirty then some { w with phase := .clearing }
        else some { w with fdSet := w.fdSetCopy.map (fun s => (s, .zero)), phase := .polling }
      else none
  | .clear =>
      if w.phase = .clearing then
        some { w with
          dirty := false
          fdSet := []
          fdSetResult := []
          phase := .building
          log := w.log ++ [.cleared] }
      else none
  | .build usable => if w.phase = .building then some (w.build usable) else none
  | .poll revents => if w.phase = .polling then w.poll revents else none
  | .timeout => if w.phase = .polling then some (w.returns .timeout) else none
  | .fail interrupted =>
      if w.phase = .polling then
        some (if interrupted then { w with phase := .entered } else w.returns .selectError)
      else none

/-- A connection without a descriptor is removed by the selecting thread. -/
def Allowed (w : World C) : Event C → Prop
  | .remove thread connection => thread ≠ 0 → w.phase ≠ .invalid connection
  | _ => True

instance (w : World C) (e : Event C) : Decidable (w.Allowed e) :=
  match e with
  | .remove .. => by unfold Allowed; infer_instance
  | .add .. | .setDirty _ | .interrupt _ | .advance _ | .select | .check | .parse | .setup
  | .clear | .build _ | .poll _ | .timeout | .fail _ => .isTrue trivial

end Step

variable {isListening : C → Bool} {w : World C}

theorem Consistent.remove_invalid {connection : C} (h : w.Consistent)
    (hp : w.phase = .invalid connection) :
    (w.removeConnection 0 connection).Consistent := by
  have hmem := h.valid connection hp
  simp only [removeConnection, if_pos hmem, hp, and_self, if_true]
  exact {
    current := .inr (.inr (.inl ⟨0, .inl (by simp [World.setTask])⟩))
    aligned := .inr (.inr (.inr (.inr ⟨rfl, .inl (by simp [World.setTask])⟩)))
    woken := fun hb => by rcases hb with hb | hb <;> cases hb
    valid := fun c hc => by cases hc
    alone := fun _ => .inl rfl }

theorem Consistent.remove_connection {t : ℕ} {connection : C} (h : w.Consistent) (hfree : w.Free t)
    (hallowed : t ≠ 0 → w.phase ≠ .invalid connection) :
    (w.removeConnection t connection).Consistent := by
  by_cases hp : t = 0 ∧ w.phase = .invalid connection
  · obtain ⟨rfl, hp⟩ := hp
    exact h.remove_invalid hp
  · simp only [removeConnection, if_neg hp]
    have hne : w.phase ≠ .invalid connection := by
      intro he
      by_cases ht : t = 0
      · exact hp ⟨ht, he⟩
      · exact hallowed ht he
    split
    · refine h.set_connections hfree (fun c hc => (List.mem_erase_of_ne ?_).2 (h.valid c hc))
      rintro rfl
      exact hne hc
    · exact h

theorem Consistent.step {e : Event C} {w' : World C} (h : w.Consistent) (hallowed : w.Allowed e)
    (hstep : w.step isListening e = some w') : w'.Consistent := by
  cases e with
  | add thread connection =>
      simp only [World.step, Option.ite_none_right_eq_some, Option.some.injEq] at hstep
      obtain ⟨hfree, rfl⟩ := hstep
      exact h.set_connections hfree (fun c hc => List.mem_append_left _ (h.valid c hc))
  | remove thread connection =>
      simp only [World.step, Option.ite_none_right_eq_some, Option.some.injEq] at hstep
      obtain ⟨hfree, rfl⟩ := hstep
      exact h.remove_connection hfree hallowed
  | setDirty thread =>
      simp only [World.step, Option.ite_none_right_eq_some, Option.some.injEq] at hstep
      obtain ⟨hfree, rfl⟩ := hstep
      exact h.start hfree
  | interrupt thread =>
      simp only [World.step, Option.ite_none_right_eq_some, Option.some.injEq] at hstep
      obtain ⟨hfree, rfl⟩ := hstep
      exact h.start hfree
  | advance thread => exact h.advance hstep
  | select =>
      simp only [World.step, Option.ite_none_right_eq_some, Option.some.injEq] at hstep
      obtain ⟨⟨hp, hidle⟩, rfl⟩ := hstep
      refine h.set_phase hidle (by simp [hp]) (by simp [hp]) (.inl rfl) ?_
      exact (h.aligned_or hidle (by simp [hp]) (by simp [hp])).imp (fun ha => ⟨ha, rfl⟩)
        (fun hd => ⟨hd.1, rfl⟩)
  | check =>
      simp only [World.step, Option.ite_none_right_eq_some, Option.some.injEq] at hstep
      obtain ⟨hp, rfl⟩ := hstep
      have hidle := h.idle (by simp [hp]) (by simp [hp])
      have ha := h.aligned_or hidle (by simp [hp]) (by simp [hp])
      by_cases hd : w.dirty = true
      · rw [if_pos hd]
        exact h.set_phase hidle (by simp [hp]) (by simp [hp]) (.inl rfl) (.inr ⟨hd, rfl⟩)
      · rw [if_neg hd]
        exact h.set_phase hidle (by simp [hp]) (by simp [hp]) (.inr ⟨false, rfl⟩)
          (.inl ⟨ha.resolve_right (fun he => hd he.1), rfl⟩)
  | parse =>
      simp only [World.step] at hstep
      split at hstep
      · cases hstep
        exact h.parse_result ‹_›
      · cases hstep
  | setup =>
      simp only [World.step, Option.ite_none_right_eq_some] at hstep
      obtain ⟨hp, hstep⟩ := hstep
      split at hstep
      · cases hstep
        exact h.set_phase (h.idle (by simp [hp]) (by simp [hp])) (by simp [hp]) (by simp [hp])
          (.inl rfl)
          (.inr ⟨‹_›, rfl⟩)
      · cases hstep
        exact h.reuse_fdSet hp (eq_false_of_ne_true ‹_›)
  | clear =>
      simp only [World.step, Option.ite_none_right_eq_some, Option.some.injEq] at hstep
      obtain ⟨hp, rfl⟩ := hstep
      exact h.clear_fdSet hp
  | build usable =>
      simp only [World.step, Option.ite_none_right_eq_some, Option.some.injEq] at hstep
      obtain ⟨hp, rfl⟩ := hstep
      exact h.build hp
  | poll revents =>
      simp only [World.step, Option.ite_none_right_eq_some] at hstep
      exact h.poll hstep.1 hstep.2
  | timeout =>
      simp only [World.step, Option.ite_none_right_eq_some, Option.some.injEq] at hstep
      obtain ⟨hp, rfl⟩ := hstep
      exact h.set_phase_aligned (.inl hp) (.inl rfl) rfl
  | fail interrupted =>
      simp only [World.step, Option.ite_none_right_eq_some, Option.some.injEq] at hstep
      obtain ⟨hp, rfl⟩ := hstep
      cases interrupted with
      | true => exact h.set_phase_aligned (.inl hp) (.inl rfl) rfl
      | false => exact h.set_phase_aligned (.inl hp) (.inl rfl) rfl

theorem consistent_run {es : List (Event C)}
    (hok : Machine.Steps (World.step isListening) World.Allowed init es)
    (hrun : Machine.run (World.step isListening) init es = some w) : w.Consistent :=
  Machine.run_invariant Consistent (fun _ _ _ h ha hs => h.step ha hs) consistent_init hok hrun

/-- A signal ends `poll`, and `select` returns with it whatever else is ready. -/
theorem Aligned.interrupt {revents : Source C → Revents} {w' : World C} (ha : w.Aligned)
    (hs : w.signalled = true) (hstep : w.step isListening (.poll revents) = some w') :
    ∃ w'', w'.step isListening .parse = some w'' ∧ w''.result = some .interrupt ∧
      w''.dirty = w.dirty := by
  obtain ⟨sources, hsources⟩ := ha.head
  have hmap := ha.fdSet
  simp only [World.step, World.poll, Option.ite_none_right_eq_some, Option.some.injEq] at hstep
  obtain ⟨-, ⟨hself, -⟩, rfl⟩ := hstep
  cases hfd : w.fdSet with
  | nil =>
      rw [hfd, hsources] at hmap
      cases hmap
  | cons p fdSet =>
      have hp : p.1 = none := by
        rw [hfd, hsources] at hmap
        exact (List.cons.inj hmap).1
      have hany : (revents p.1).any = true := by
        rw [hp, hself, hs]
        rfl
      refine ⟨_, rfl, ?_⟩
      simp only [getSelectResult, List.map_cons, hsources, parseSelect, if_pos hany, returns]
      exact ⟨trivial, trivial⟩

theorem poll_of_signalled {revents : Source C → Revents} (ha : w.Aligned) (hp : w.phase = .polling)
    (hs : w.signalled = true) (hr : revents none = { Revents.zero with input := true }) :
    ∃ w', w.step isListening (.poll revents) = some w' := by
  obtain ⟨sources, hsources⟩ := ha.head
  have hmem : none ∈ w.fdSet.map Prod.fst := by
    rw [ha.fdSet, hsources]
    exact List.mem_cons_self
  obtain ⟨p, hpm, hp1⟩ := List.mem_map.1 hmem
  have hready : ready (w.fdSet.map (fun p => (p.1, revents p.1))) ≠ [] := by
    refine List.ne_nil_of_mem (a := (p.1, revents p.1)) (List.mem_filter.2 ⟨?_, ?_⟩)
    · exact List.mem_map.2 ⟨p, hpm, rfl⟩
    · simp only [hp1, hr]
      rfl
  simp only [World.step, World.poll, if_pos hp]
  rw [if_pos ⟨by rw [hr, hs], hready⟩]
  exact ⟨_, rfl⟩

/-- No change of the set is lost on a thread that waits in `poll`: it waits for the connections of
the set, or it is woken up and builds its tables again. -/
theorem wakeup_not_lost (isListening : C → Bool) (es : List (Event C)) (w : World C)
    (hok : Machine.Steps (World.step isListening) World.Allowed init es)
    (hrun : Machine.run (World.step isListening) init es = some w) (hp : w.phase = .polling)
    (hidle : ∀ t, w.tasks t = .idle) :
    w.fdSet.map Prod.fst = none :: w.allConnections.map some ∨
      (∀ revents, revents none = { Revents.zero with input := true } →
        ∃ w', w.step isListening (.poll revents) = some w') ∧
      ∀ revents w', w.step isListening (.poll revents) = some w' →
        ∃ w'', w'.step isListening .parse = some w'' ∧ w''.result = some .interrupt ∧
          w''.dirty = true := by
  have h := consistent_run hok hrun
  have ha := h.aligned_of (.inl hp)
  by_cases hd : w.dirty = true
  · have hs : w.signalled = true := by
      refine (h.woken (.inr hp) hd).resolve_right ?_
      rintro ⟨t, ht⟩
      rw [hidle t] at ht
      cases ht
    refine .inr ⟨fun revents hr => poll_of_signalled ha hp hs hr, fun revents w' hstep => ?_⟩
    rw [← hd]
    exact ha.interrupt hs hstep
  · refine .inl (ha.fdSet.trans ?_)
    rcases h.current with hc | hm | ⟨t, ht⟩ | hb | ⟨c, hi⟩
    · exact hc
    · exact absurd hm hd
    · rw [hidle t] at ht
      rcases ht with ht | ht <;> cases ht
    · rw [hp] at hb
      cases hb
    · rw [hp] at hi
      cases hi

/-- A second connection is added while the thread waits for the first. -/
theorem wakeup_not_lost_added : ∃ w : World ℕ,
    w.allConnections = [7, 8] ∧ w.fdSet.map Prod.fst = [none, some 7] ∧
      ∀ revents w', w.step (fun _ => false) (.poll revents) = some w' →
        ∃ w'', w'.step (fun _ => false) .parse = some w'' ∧ w''.result = some .interrupt ∧
          w''.dirty = true := by
  refine ⟨_, ?_, ?_, ((wakeup_not_lost (fun _ => false)
    [.add 1 7, .advance 1, .select, .check, .setup, .clear, .build (fun _ => true),
      .add 1 8, .advance 1, .advance 1, .advance 1] _ (by decide) rfl rfl ?_).resolve_left ?_).2⟩
  · rfl
  · rfl
  · intro t
    by_cases ht : t = 1
    · subst ht
      rfl
    · simp [setTask, init]
  · decide

end World

end Collage.ConnectionSet
