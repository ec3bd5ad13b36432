import Mathlib.Data.List.Basic

/-!
# Runs of an event-driven machine

A machine is a partial step function: `step s e = some s'` when the event `e` is enabled in `s`
and leads to `s'`. A run is a finite list of events. `Steps ok` asks the side condition `ok` of
every event at the state it is taken in, so that the environment of a machine is described beside
the machine and not inside it.
-/

namespace Collage.Machine

variable {σ ε : Type*} (step : σ → ε → Option σ)

def run : σ → List ε → Option σ
  | s, [] => some s
  | s, e :: es => (step s e).bind (fun s' => run s' es)

def Steps (ok : σ → ε → Prop) : σ → List ε → Prop
  | _, [] => True
  | s, e :: es => ok s e ∧ ∀ s', step s e = some s' → Steps ok s' es

instance decidableSteps (ok : σ → ε → Prop) [∀ s e, Decidable (ok s e)] :
    (s : σ) → (es : List ε) → Decidable (Steps step ok s es)
  | _, [] => isTrue trivial
  | s, e :: es =>
      have : Decidable (∀ s', step s e = some s' → Steps step ok s' es) :=
        match h : step s e with
        | none => isTrue (fun _ hs => by cases hs)
        | some t =>
            have := decidableSteps ok t es
            decidable_of_iff (Steps step ok t es)
              ⟨fun ht _ hs => Option.some.inj hs ▸ ht, fun ht => ht t rfl⟩
      inferInstanceAs (Decidable (ok s e ∧ _))

@[simp] theorem run_nil (s : σ) : run step s [] = some s := rfl

theorem run_cons_eq_some {s t : σ} {e : ε} {es : List ε} :
    run step s (e :: es) = some t ↔ ∃ s', step s e = some s' ∧ run step s' es = some t := by
  simp only [run, Option.bind_eq_some_iff]

theorem run_append (s : σ) (es es' : List ε) :
    run step s (es ++ es') = (run step s es).bind (fun t => run step t es') := by
  induction es generalizing s with
  | nil => rfl
  | cons e es ih =>
      simp only [List.cons_append, run, Option.bind_assoc]
      exact congrArg _ (funext ih)

variable {step}

theorem run_invariant (Inv : σ → Prop) {ok : σ → ε → Prop}
    (hstep : ∀ s e s', Inv s → ok s e → step s e = some s' → Inv s')
    {s t : σ} {es : List ε} (hs : Inv s) (hok : Steps step ok s es)
    (hrun : run step s es = some t) : Inv t := by
  induction es generalizing s with
  | nil => simp only [run_nil, Option.some.injEq] at hrun; exact hrun ▸ hs
  | cons e es ih =>
      obtain ⟨s', he, hrest⟩ := (run_cons_eq_some step).1 hrun
      exact ih (hstep s e s' hs hok.1 he) (hok.2 s' he) hrest

theorem Steps.mono {ok ok' : σ → ε → Prop} (h : ∀ s e, ok s e → ok' s e) {s : σ} {es : List ε}
    (hok : Steps step ok s es) : Steps step ok' s es := by
  induction es generalizing s with
  | nil => trivial
  | cons e es ih => exact ⟨h s e hok.1, fun s' he => ih (hok.2 s' he)⟩

/-- A side condition may use an invariant that the run is already known to keep. -/
theorem Steps.of_invariant {Inv : σ → Prop} {ok ok' : σ → ε → Prop}
    (hstep : ∀ s e s', Inv s → ok s e → step s e = some s' → Inv s')
    (h : ∀ s e, Inv s → ok s e → ok' s e) {s : σ} {es : List ε} (hs : Inv s)
    (hok : Steps step ok s es) : Steps step ok' s es := by
  induction es generalizing s with
  | nil => trivial
  | cons e es ih =>
      exact ⟨h s e hs hok.1, fun s' he => ih (hstep s e s' hs hok.1 he) (hok.2 s' he)⟩

theorem steps_true (s : σ) (es : List ε) : Steps step (fun _ _ => True) s es := by
  induction es generalizing s with
  | nil => trivial
  | cons e es ih => exact ⟨trivial, fun s' _ => ih s'⟩

/-- The steps of a machine that never stops. -/
theorem steps_append {f : σ → ε → σ} {ok : σ → ε → Prop} {s : σ} {es es' : List ε} :
    Steps (fun s e => some (f s e)) ok s (es ++ es') ↔
      Steps (fun s e => some (f s e)) ok s es ∧
        Steps (fun s e => some (f s e)) ok (es.foldl f s) es' := by
  induction es generalizing s with
  | nil => exact ⟨fun h => ⟨trivial, h⟩, fun h => h.2⟩
  | cons e es ih =>
      constructor
      · rintro ⟨he, h⟩
        obtain ⟨hes, hes'⟩ := ih.1 (h _ rfl)
        refine ⟨⟨he, fun s' hs' => ?_⟩, hes'⟩
        exact Option.some.inj hs' ▸ hes
      · rintro ⟨⟨he, hes⟩, hes'⟩
        refine ⟨he, fun s' hs' => ?_⟩
        exact Option.some.inj hs' ▸ ih.2 ⟨hes _ rfl, hes'⟩

section Reaches

/-- A permitted run leads from one state to another. -/
def Reaches (step : σ → ε → Option σ) (ok : σ → ε → Prop) (s t : σ) : Prop :=
  ∃ es, Steps step ok s es ∧ run step s es = some t

variable {ok : σ → ε → Prop} {s t u : σ}

theorem Reaches.refl (s : σ) : Reaches step ok s s := ⟨[], trivial, rfl⟩

theorem Reaches.head {e : ε} (hok : ok s e) (hstep : step s e = some t)
    (h : Reaches step ok t u) : Reaches step ok s u := by
  obtain ⟨es, hsteps, hrun⟩ := h
  refine ⟨e :: es, ⟨hok, ?_⟩, (run_cons_eq_some step).2 ⟨t, hstep, hrun⟩⟩
  intro s' hs'
  rw [hstep, Option.some.injEq] at hs'
  exact hs' ▸ hsteps

theorem Reaches.trans (h : Reaches step ok s t) (h' : Reaches step ok t u) :
    Reaches step ok s u := by
  obtain ⟨es, hsteps, hrun⟩ := h
  induction es generalizing s with
  | nil =>
      rw [run_nil, Option.some.injEq] at hrun
      exact hrun ▸ h'
  | cons e es ih =>
      obtain ⟨s', he, hrest⟩ := (run_cons_eq_some step).1 hrun
      exact (ih (hsteps.2 s' he) hrest).head hsteps.1 he

end Reaches

section Along

variable (f : σ → ε → σ) {P Q : σ → Prop}

/-- A property holds before and after each event of a series. -/
def Along (P : σ → Prop) : σ → List ε → Prop
  | s, [] => P s
  | s, e :: es => P s ∧ Along P (f s e) es

variable {f} {s : σ} {es es' : List ε}

theorem Along.head (h : Along f P s es) : P s := by
  cases es with
  | nil => exact h
  | cons e es => exact h.1

theorem along_append :
    Along f P s (es ++ es') ↔ Along f P s es ∧ Along f P (es.foldl f s) es' := by
  induction es generalizing s with
  | nil => exact ⟨fun h => ⟨h.head, h⟩, fun h => h.2⟩
  | cons e es ih =>
      rw [List.cons_append, List.foldl_cons]
      constructor
      · rintro ⟨hs, h⟩
        exact ⟨⟨hs, (ih.1 h).1⟩, (ih.1 h).2⟩
      · rintro ⟨⟨hs, h⟩, h'⟩
        exact ⟨hs, ih.2 ⟨h, h'⟩⟩

theorem Along.last (h : Along f P s es) : P (es.foldl f s) := by
  rw [← List.append_nil es, along_append] at h
  exact h.2

theorem Along.mono (hPQ : ∀ s, P s → Q s) (h : Along f P s es) : Along f Q s es := by
  induction es generalizing s with
  | nil => exact hPQ s h
  | cons e es ih => exact ⟨hPQ s h.1, ih h.2⟩

end Along

end Collage.Machine
