import Collage.Node.ConnectionSet

/-!
# The results of a poll

One `poll` may find several descriptors ready. `select` returns them one by one and does not poll
again in between (`ConnectionSet::select`, `_parseSelect`), so that a connection with much data
does not starve the others.
-/

namespace Collage.ConnectionSet.World

variable {C : Type} [DecidableEq C] {w : World C} {isListening : C → Bool}

/-- The results that `select` still owes after what happened, if it returned those of each `poll`
in their order. -/
def serve : List (Source C × Revents) → List (Log C) → Option (List (Source C × Revents))
  | owed, [] => some owed
  | [], .polled results :: log => serve results log
  | _ :: _, .polled _ :: _ => none
  | [], .returned _ :: _ => none
  | found :: owed, .returned result :: log => if found = result then serve owed log else none
  | _, .cleared :: log => serve [] log

theorem serve_append (owed : List (Source C × Revents)) (log log' : List (Log C)) :
    serve owed (log ++ log') = (serve owed log).bind (fun owed' => serve owed' log') := by
  induction owed, log using serve.induct with
  | case1 owed => rfl
  | case2 results log ih => exact ih
  | case3 found owed results log => rfl
  | case4 result log => rfl
  | case5 found owed log ih =>
      simp only [List.cons_append, serve, if_true]
      exact ih
  | case6 found owed result log hne =>
      simp only [List.cons_append, serve, if_neg hne]
      rfl
  | case7 owed log ih =>
      simp only [List.cons_append, serve]
      exact ih

theorem serve_returned {owed rest : List (Source C × Revents)} {between : List (Log C)}
    (hbetween : ∀ e ∈ between, ∃ result, e = .returned result)
    (h : serve owed between = some rest) :
    between ++ rest.map .returned = owed.map .returned := by
  induction between generalizing owed with
  | nil =>
      cases h
      rfl
  | cons e between ih =>
      obtain ⟨result, rfl⟩ := hbetween e List.mem_cons_self
      cases owed with
      | nil => cases h
      | cons found owed =>
          simp only [serve, Option.ite_none_right_eq_some] at h
          obtain ⟨rfl, h⟩ := h
          rw [List.cons_append, List.map_cons,
            ih (fun e he => hbetween e (List.mem_cons_of_mem _ he)) h]

/-- What the tables hold is what `select` owes. -/
structure Served (w : World C) : Prop where
  log : serve [] w.log = some (ready w.fdSet)
  waiting : w.phase = .building ∨ w.phase = .polling → ready w.fdSet = []
  setup : w.phase = .setup → w.dirty = true ∨ ready w.fdSet = []

theorem served_init : (init : World C).Served where
  log := rfl
  waiting _ := rfl
  setup _ := .inr rfl

theorem Served.of_fdSet_eq {w' : World C} (h : w.Served) (hfdSet : w'.fdSet = w.fdSet)
    (hlog : w'.log = w.log) (hdirty : w.dirty = true → w'.dirty = true)
    (hwaiting : w'.phase = .building ∨ w'.phase = .polling →
      w.phase = .building ∨ w.phase = .polling)
    (hsetup : w'.phase = .setup → w.phase = .setup ∨ w'.dirty = true) : w'.Served where
  log := by rw [hlog, hfdSet, h.log]
  waiting hp := by rw [hfdSet, h.waiting (hwaiting hp)]
  setup hp := by
    rw [hfdSet]
    rcases hsetup hp with hs | hd
    · exact (h.setup hs).imp_left hdirty
    · exact .inl hd

theorem Served.of_phase {phase : Phase C} {result : Option (Result C)} (h : w.Served)
    (hphase : phase = .outside ∨ phase = .entered ∨ phase = .clearing ∨ ∃ p, phase = .parsing p) :
    { w with phase := phase, result := result }.Served := by
  refine h.of_fdSet_eq rfl rfl id (fun hq => ?_) (fun hq => ?_)
  · rcases hphase with rfl | rfl | rfl | ⟨_, rfl⟩ <;> rcases hq with hq | hq <;> cases hq
  · rcases hphase with rfl | rfl | rfl | ⟨_, rfl⟩ <;> cases hq

theorem Served.advance {t : ℕ} {w' : World C} (h : w.Served) (hstep : w.advance t = some w') :
    w'.Served := by
  rw [World.advance] at hstep
  split at hstep
  · cases hstep
  · cases hstep
    exact h.of_fdSet_eq rfl rfl id id .inl
  · cases hstep
    exact h.of_fdSet_eq rfl rfl (fun _ => rfl) id .inl
  · cases hstep
    exact h.of_fdSet_eq rfl rfl id id .inl

theorem Served.parse_result {polled : Bool} (h : w.Served) (ha : w.Aligned) :
    (w.getSelectResult isListening polled).Served := by
  have hready := @ready_of_parseSelect _ w.fdSet
  rw [ha.fdSet] at hready
  have hreturn : ∀ found fdSet, parseSelect w.fdSet w.fdSetResult = some (found, fdSet) →
      serve [] (w.log ++ [.returned found]) = some (ready fdSet) := by
    intro found fdSet hfound
    rw [serve_append, h.log, Option.bind_some, hready hfound, serve, if_pos rfl, serve]
  unfold getSelectResult
  split
  · rename_i hnone
    rw [← ha.fdSet] at hnone
    exact {
      log := h.log
      waiting := fun _ => ready_of_parseSelect_none hnone
      setup := fun _ => .inr (ready_of_parseSelect_none hnone) }
  · rename_i r fdSet hfound
    exact {
      log := hreturn _ _ hfound
      waiting := fun hp => by rcases hp with hp | hp <;> cases hp
      setup := fun hp => by cases hp }
  · rename_i connection r fdSet hfound
    exact {
      log := hreturn _ _ hfound
      waiting := fun hp => by rcases hp with hp | hp <;> cases hp
      setup := fun hp => by cases hp }

theorem Served.build {usable : C → Bool} (h : w.Served) (hp : w.phase = .building) :
    (w.build usable).Served := by
  have hlog := h.log
  rw [h.waiting (.inl hp)] at hlog
  unfold World.build
  split
  · exact {
      log := hlog.trans (congrArg some (ready_zero _).symm)
      waiting := fun hq => by rcases hq with hq | hq <;> cases hq
      setup := fun hq => by cases hq }
  · exact {
      log := hlog.trans (congrArg some (ready_zero _).symm)
      waiting := fun _ => ready_zero _
      setup := fun hq => by cases hq }

theorem Served.poll {revents : Source C → Revents} {w' : World C} (h : w.Served)
    (hp : w.phase = .polling) (hstep : w.poll revents = some w') : w'.Served := by
  simp only [World.poll, Option.ite_none_right_eq_some] at hstep
  cases hstep.2
  exact {
    log := by rw [serve_append, h.log, h.waiting (.inr hp), Option.bind_some, serve, serve]
    waiting := fun hq => by rcases hq with hq | hq <;> cases hq
    setup := fun hq => by cases hq }

theorem Served.step {e : Event C} {w' : World C} (h : w.Served) (hc : w.Consistent)
    (hstep : w.step isListening e = some w') : w'.Served := by
  cases e with
  | add thread connection =>
      simp only [World.step, Option.ite_none_right_eq_some, Option.some.injEq] at hstep
      obtain ⟨-, rfl⟩ := hstep
      exact h.of_fdSet_eq rfl rfl id id .inl
  | remove thread connection =>
      simp only [World.step, Option.ite_none_right_eq_some, Option.some.injEq] at hstep
      obtain ⟨-, rfl⟩ := hstep
      unfold removeConnection
      by_cases hp : thread = 0 ∧ w.phase = .invalid connection
      · simp only [if_pos hp]
        split <;> exact h.of_fdSet_eq rfl rfl id (fun hq => by rcases hq with hq | hq <;> cases hq)
          (fun hq => by cases hq)
      · simp only [if_neg hp]
        split
        · exact h.of_fdSet_eq rfl rfl id id .inl
        · exact h
  | setDirty thread =>
      simp only [World.step, Option.ite_none_right_eq_some, Option.some.injEq] at hstep
      obtain ⟨-, rfl⟩ := hstep
      exact h.of_fdSet_eq rfl rfl id id .inl
  | interrupt thread =>
      simp only [World.step, Option.ite_none_right_eq_some, Option.some.injEq] at hstep
      obtain ⟨-, rfl⟩ := hstep
      exact h.of_fdSet_eq rfl rfl id id .inl
  | advance thread => exact h.advance hstep
  | select =>
      simp only [World.step, Option.ite_none_right_eq_some, Option.some.injEq] at hstep
      obtain ⟨-, rfl⟩ := hstep
      exact h.of_phase (.inr (.inl rfl))
  | check =>
      simp only [World.step, Option.ite_none_right_eq_some, Option.some.injEq] at hstep
      obtain ⟨-, rfl⟩ := hstep
      by_cases hd : w.dirty = true
      · rw [if_pos hd]
        exact h.of_fdSet_eq rfl rfl id (fun hp => by rcases hp with hp | hp <;> cases hp)
          (fun _ => .inr hd)
      · rw [if_neg hd]
        exact h.of_phase (.inr (.inr (.inr ⟨false, rfl⟩)))
  | parse =>
      simp only [World.step] at hstep
      split at hstep
      · rename_i polled hp
        cases hstep
        exact h.parse_result (hc.aligned_of (.inr ⟨polled, hp⟩))
      · cases hstep
  | setup =>
      simp only [World.step, Option.ite_none_right_eq_some] at hstep
      obtain ⟨hp, hstep⟩ := hstep
      split at hstep
      · cases hstep
        exact h.of_phase (.inr (.inr (.inl rfl)))
      · rename_i hd
        cases hstep
        have hnone := (h.setup hp).resolve_left hd
        exact {
          log := by rw [h.log, hnone, ready_zero]
          waiting := fun _ => ready_zero _
          setup := fun hq => by cases hq }
  | clear =>
      simp only [World.step, Option.ite_none_right_eq_some, Option.some.injEq] at hstep
      obtain ⟨-, rfl⟩ := hstep
      exact {
        log := by
          rw [serve_append, h.log]
          rfl
        waiting := fun _ => rfl
        setup := fun hq => by cases hq }
  | build usable =>
      simp only [World.step, Option.ite_none_right_eq_some, Option.some.injEq] at hstep
      obtain ⟨hp, rfl⟩ := hstep
      exact h.build hp
  | poll revents =>
      simp only [World.step, Option.ite_none_right_eq_some] at hstep
      exact h.poll hstep.1 hstep.2
  | timeout =>
      simp only [World.step, Option.ite_none_right_eq_some, Option.some.injEq] at hstep
      obtain ⟨-, rfl⟩ := hstep
      exact h.of_phase (.inl rfl)
  | fail interrupted =>
      simp only [World.step, Option.ite_none_right_eq_some, Option.some.injEq] at hstep
      obtain ⟨-, rfl⟩ := hstep
      cases interrupted with
      | true => exact h.of_phase (.inr (.inl rfl))
      | false => exact h.of_phase (.inl rfl)

theorem served_run {es : List (Event C)}
    (hok : Machine.Steps (World.step isListening) World.Allowed init es)
    (hrun : Machine.run (World.step isListening) init es = some w) : w.Served := by
  have hboth : w.Consistent ∧ w.Served :=
    Machine.run_invariant (fun w => w.Consistent ∧ w.Served)
      (fun _ _ _ h ha hs => ⟨h.1.step ha hs, h.2.step h.1 hs⟩) ⟨consistent_init, served_init⟩ hok hrun
  exact hboth.2

/-- When connections without a descriptor are removed by the selecting thread: until the set
changes, `select` returns the results of a `poll` once each and in the order of the descriptors, and
there is no other `poll` before the last of them. -/
theorem results_served (isListening : C → Bool) (es : List (Event C)) (w : World C)
    (hok : Machine.Steps (World.step isListening) World.Allowed init es)
    (hrun : Machine.run (World.step isListening) init es = some w)
    (before between : List (Log C)) (results : List (Source C × Revents))
    (hbetween : ∀ e ∈ between, ∃ result, e = .returned result) :
    (w.log = before ++ .polled results :: between →
        between ++ (ready w.fdSet).map .returned = results.map .returned) ∧
      ∀ next after, w.log = before ++ .polled results :: between ++ .polled next :: after →
        between = results.map .returned := by
  have hlog := (served_run hok hrun).log
  have hpolled : ∀ (rest : List (Log C)) (owed : List (Source C × Revents)),
      serve [] (before ++ .polled results :: rest) = some owed → serve results rest = some owed := by
    intro rest owed h
    rw [serve_append, Option.bind_eq_some_iff] at h
    obtain ⟨owed', -, h⟩ := h
    cases owed' with
    | nil => exact h
    | cons _ _ => cases h
  refine ⟨fun hw => ?_, fun next after hw => ?_⟩
  · rw [hw] at hlog
    exact serve_returned hbetween (hpolled _ _ hlog)
  · rw [hw, List.append_assoc, List.cons_append] at hlog
    have hrest := hpolled _ _ hlog
    rw [serve_append, Option.bind_eq_some_iff] at hrest
    obtain ⟨owed, howed, hrest⟩ := hrest
    cases owed with
    | nil => simpa only [List.map_nil, List.append_nil] using serve_returned hbetween howed
    | cons _ _ => cases hrest

/-- Two connections are ready at once, and `select` has returned the first. -/
theorem results_served_two : ∃ w : World ℕ,
    w.result = some (.data 7) ∧
      [Log.returned (some 7, { Revents.zero with input := true })] ++
          (ready w.fdSet).map .returned =
        [(some 7, { Revents.zero with input := true }),
          (some 8, { Revents.zero with hup := true })].map .returned :=
  ⟨_, rfl, (results_served (fun _ => false)
    [.add 1 7, .advance 1, .add 1 8, .advance 1, .select, .check, .setup, .clear,
      .build (fun _ => true),
      .poll (fun s => if s = some 7 then { Revents.zero with input := true }
        else if s = some 8 then { Revents.zero with hup := true } else .zero),
      .parse] _ (by decide) rfl [.cleared] _ _
    (fun _ he => ⟨_, List.mem_singleton.1 he⟩)).1 rfl⟩

end Collage.ConnectionSet.World
