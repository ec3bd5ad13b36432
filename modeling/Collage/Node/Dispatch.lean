import Mathlib.Data.List.Basic
import Mathlib.Logic.Function.Basic
import Mathlib.Order.Nat
import Collage.Lib.Run

/-!
# The dispatch of commands

The receiver thread of a node hands commands to the node itself or to its attached objects
(`localNode.cpp`, `objectStore.cpp`). Commands for objects that are not attached yet are kept, and
tried again after each command. Commands are numbered here in the order in which they arrive. The
largest instance number of an object, `LB_MAX_UINT32`, is a parameter.
-/

namespace Collage.Dispatch

def instanceNone : ℕ := 0xfffffffd

inductive Address (I : Type)
  | node
  | object (id : I) (instanceID : ℕ)
  deriving DecidableEq

/-- Objects are attached and detached in the receiver thread. -/
inductive Change (I : Type)
  | attach (id : I) (instanceID : ℕ)
  | detach (id : I) (instanceID : ℕ)
  deriving DecidableEq

/-- A command, with what its handler does in the receiver thread. -/
structure Command (I : Type) where
  address : Address I
  changes : List (Change I)
  deriving DecidableEq

variable {I : Type} [DecidableEq I]

structure State (I : Type) where
  /-- The instances of each identifier, as in `_objects`. -/
  objects : I → List ℕ
  pendingCommands : List (ℕ × Command I)
  /-- The commands that arrived. -/
  received : List (ℕ × Command I)
  /-- The commands that were dispatched to objects, each with the object. -/
  dispatched : List ((ℕ × Command I) × I × ℕ)

/-- `_attach` and `_detach`. -/
def Change.apply (objects : I → List ℕ) : Change I → I → List ℕ
  | .attach id instanceID => Function.update objects id (objects id ++ [instanceID])
  | .detach id instanceID => Function.update objects id ((objects id).erase instanceID)

/-- `dispatchObjectCommand`: the instances that get the command, unless it is to be kept. -/
def dispatchObjectCommand (instanceMax : ℕ) (objects : List ℕ) (instanceID : ℕ) :
    Option (List ℕ) :=
  if objects = [] then if instanceID = instanceNone then some [] else none
  else if instanceID ≤ instanceMax then
    if instanceID ∈ objects then some [instanceID] else none
  else some objects

namespace State

variable (instanceMax : ℕ) (s : State I)

def init : State I := ⟨fun _ => [], [], [], []⟩

def dispatchCommand (command : ℕ × Command I) : Option (State I) :=
  match command.2.address with
  | .node => some { s with objects := command.2.changes.foldl Change.apply s.objects }
  | .object id instanceID =>
      (dispatchObjectCommand instanceMax (s.objects id) instanceID).map (fun instances =>
        { s with
          objects := command.2.changes.foldl Change.apply s.objects
          dispatched := s.dispatched ++ instances.map (fun i => (command, id, i)) })

/-- The loop over the pending commands, which ends with the first one that is dispatched. -/
def scan : List (ℕ × Command I) → List (ℕ × Command I) → Option (State I)
  | _, [] => none
  | front, command :: rest =>
      match s.dispatchCommand instanceMax command with
      | some s' => some { s' with pendingCommands := front ++ rest }
      | none => scan (front ++ [command]) rest

/-- `_redispatchCommands`, with a bound on the number of turns. -/
def redispatchCommands : ℕ → State I → Option (State I)
  | 0, _ => none
  | turns + 1, s =>
      match s.scan instanceMax [] s.pendingCommands with
      | none => some s
      | some s' => redispatchCommands turns s'

/-- `_dispatchCommand`, of a command that arrives. -/
def receive (command : Command I) : Option (State I) :=
  let numbered := (s.received.length, command)
  let arrived := { s with received := s.received ++ [numbered] }
  match arrived.dispatchCommand instanceMax numbered with
  | some s' => redispatchCommands instanceMax (s'.pendingCommands.length + 1) s'
  | none =>
      (redispatchCommands instanceMax (arrived.pendingCommands.length + 1) arrived).map (fun s' =>
        { s' with pendingCommands := s'.pendingCommands ++ [numbered] })

end State

inductive Event (I : Type)
  | receive (command : Command I)
  /-- `EVENT_INTERRUPT`. -/
  | interrupt

def State.step (instanceMax : ℕ) (s : State I) : Event I → Option (State I)
  | .receive command => s.receive instanceMax command
  | .interrupt => State.redispatchCommands instanceMax (s.pendingCommands.length + 1) s

section Recipients

variable {instanceMax : ℕ} {objects instances : List ℕ} {instanceID : ℕ}

theorem attached_of_dispatched
    (h : dispatchObjectCommand instanceMax objects instanceID = some instances) :
    ∀ i ∈ instances, i ∈ objects ∧ (instanceID = i ∨ instanceMax < instanceID) := by
  unfold dispatchObjectCommand at h
  split_ifs at h with hnil hnone hle hmem
  · obtain rfl := Option.some.inj h
    nofun
  · obtain rfl := Option.some.inj h
    intro i hi
    obtain rfl := List.mem_singleton.1 hi
    exact ⟨hmem, Or.inl rfl⟩
  · obtain rfl := Option.some.inj h
    exact fun i hi => ⟨hi, Or.inr (not_le.1 hle)⟩

theorem dispatched_of_attached {i : ℕ} (hi : i ∈ objects)
    (hconcerns : instanceID = i ∨ instanceMax < instanceID) :
    dispatchObjectCommand instanceMax objects instanceID ≠ none := by
  unfold dispatchObjectCommand
  rw [if_neg (List.ne_nil_of_mem hi)]
  split_ifs with hle hmem
  · exact Option.some_ne_none _
  · rcases hconcerns with rfl | hlt
    · exact absurd hi hmem
    · exact absurd hle (not_le.2 hlt)
  · exact Option.some_ne_none _

theorem dispatched_instance (hmax : instanceMax < instanceNone) (hle : instanceID ≤ instanceMax)
    (h : dispatchObjectCommand instanceMax objects instanceID = some instances) :
    instanceID ∈ objects ∧ instances = [instanceID] := by
  unfold dispatchObjectCommand at h
  have hne : instanceID ≠ instanceNone := (hle.trans_lt hmax).ne
  split_ifs at h with hnil hmem
  exact ⟨hmem, (Option.some.inj h).symm⟩

end Recipients

/-- A command for an instance, or for all instances of its identifier. -/
def Address.concerns (instanceMax : ℕ) (id : I) (i : ℕ) : Address I → Bool
  | .node => false
  | .object id' instanceID => id' = id && (instanceID = i || decide (instanceMax < instanceID))

omit [DecidableEq I] in
theorem pairwise_repeat {l l₁ l₂ : List (ℕ × Command I)} {x : ℕ × Command I}
    (h : (l ++ x :: l₂).Pairwise (fun c c' => c.1 ≤ c'.1)) (hl₁ : ∀ c ∈ l₁, c = x) :
    (l ++ l₁ ++ l₂).Pairwise (fun c c' => c.1 ≤ c'.1) := by
  obtain ⟨hl, hxl₂, hcross⟩ := List.pairwise_append.1 h
  obtain ⟨hx, hl₂⟩ := List.pairwise_cons.1 hxl₂
  refine List.pairwise_append.2 ⟨List.pairwise_append.2 ⟨hl, ?_, ?_⟩, hl₂, ?_⟩
  · refine List.pairwise_iff_forall_sublist.2 (fun {c c'} hsub => ?_)
    rw [hl₁ c (hsub.subset List.mem_cons_self),
      hl₁ c' (hsub.subset (List.mem_cons_of_mem _ List.mem_cons_self))]
  · intro c hc c' hc'
    rw [hl₁ c' hc']
    exact hcross c hc x List.mem_cons_self
  · intro c hc c' hc'
    rcases List.mem_append.1 hc with hc | hc
    · exact hcross c hc c' (List.mem_cons_of_mem _ hc')
    · rw [hl₁ c hc]
      exact hx c' hc'

namespace State

variable {instanceMax : ℕ} {s s' : State I} {command : ℕ × Command I}

/-- The commands that were dispatched to an object. -/
def deliveries (s : State I) (id : I) (i : ℕ) : List (ℕ × Command I) :=
  (s.dispatched.filter (fun d => decide (d.2 = (id, i)))).map Prod.fst

/-- The pending commands for an object, or for all objects of its identifier. -/
def waiting (instanceMax : ℕ) (id : I) (i : ℕ) (commands : List (ℕ × Command I)) :
    List (ℕ × Command I) :=
  commands.filter (fun c => c.2.address.concerns instanceMax id i)

def addressed (id : I) (i : ℕ) (commands : List (ℕ × Command I)) : List (ℕ × Command I) :=
  commands.filter (fun c => decide (c.2.address = .object id i))

/-- Commands reach each object in the order in which they arrived, and none is lost. -/
structure Orderly (instanceMax : ℕ) (s : State I) : Prop where
  order : ∀ id i, (s.deliveries id i ++ waiting instanceMax id i s.pendingCommands).Pairwise
    (fun c c' => c.1 ≤ c'.1)
  bound : ∀ id i, ∀ c ∈ s.deliveries id i ++ s.pendingCommands, c.1 < s.received.length
  lossless : ∀ id i, i ≤ instanceMax → addressed id i s.received =
    addressed id i (s.deliveries id i) ++ addressed id i s.pendingCommands

theorem orderly_init : (init : State I).Orderly instanceMax :=
  ⟨fun _ _ => List.Pairwise.nil, nofun, fun _ _ _ => rfl⟩

theorem dispatchCommand_eq (h : s.dispatchCommand instanceMax command = some s') :
    s'.pendingCommands = s.pendingCommands ∧ s'.received = s.received ∧
      ((command.2.address = .node ∧ s'.dispatched = s.dispatched) ∨
        ∃ id instanceID instances, command.2.address = .object id instanceID ∧
          dispatchObjectCommand instanceMax (s.objects id) instanceID = some instances ∧
          s'.dispatched = s.dispatched ++ instances.map (fun i => (command, id, i))) := by
  unfold dispatchCommand at h
  split at h
  · rename_i haddress
    obtain rfl := Option.some.inj h
    exact ⟨rfl, rfl, Or.inl ⟨haddress, rfl⟩⟩
  · rename_i id instanceID haddress
    obtain ⟨instances, hinstances, rfl⟩ := Option.map_eq_some_iff.1 h
    exact ⟨rfl, rfl, Or.inr ⟨id, instanceID, instances, haddress, hinstances, rfl⟩⟩

theorem dispatchCommand_ne_none {id : I} {i : ℕ} (hi : i ∈ s.objects id)
    (hconcerns : command.2.address.concerns instanceMax id i = true) :
    s.dispatchCommand instanceMax command ≠ none := by
  unfold dispatchCommand
  cases haddress : command.2.address with
  | node => exact Option.some_ne_none _
  | object id' instanceID =>
      rw [haddress, Address.concerns, Bool.and_eq_true, Bool.or_eq_true] at hconcerns
      obtain ⟨hid, hconcerns⟩ := hconcerns
      obtain rfl := of_decide_eq_true hid
      have hsome := dispatched_of_attached hi
        (hconcerns.imp of_decide_eq_true of_decide_eq_true)
      simpa using hsome

theorem waiting_eq_nil {front : List (ℕ × Command I)}
    (hfront : ∀ c ∈ front, s.dispatchCommand instanceMax c = none) {id : I} {i : ℕ}
    (hi : i ∈ s.objects id) : waiting instanceMax id i front = [] := by
  refine List.filter_eq_nil_iff.2 (fun c hc hconcerns => ?_)
  exact dispatchCommand_ne_none hi hconcerns (hfront c hc)

theorem deliveries_dispatch (h : s.dispatchCommand instanceMax command = some s') (id : I) (i : ℕ) :
    ∃ extra, s'.deliveries id i = s.deliveries id i ++ extra ∧ (∀ c ∈ extra, c = command) ∧
      (extra ≠ [] → i ∈ s.objects id ∧ command.2.address.concerns instanceMax id i = true) ∧
      (instanceMax < instanceNone → i ≤ instanceMax → command.2.address = .object id i →
        i ∈ s.objects id ∧ extra = [command]) := by
  obtain ⟨-, -, ⟨haddress, hdispatched⟩ | ⟨id', instanceID, instances, haddress, hinstances,
    hdispatched⟩⟩ := dispatchCommand_eq h
  · refine ⟨[], ?_, nofun, fun hne => absurd rfl hne, fun _ _ hobject => ?_⟩
    · rw [deliveries, hdispatched, List.append_nil]
      rfl
    · rw [haddress] at hobject
      cases hobject
  · refine ⟨((instances.map (fun i' => (command, id', i'))).filter
      (fun d => decide (d.2 = (id, i)))).map Prod.fst, ?_, fun c hc => ?_, fun hne => ?_,
      fun hmax hi hobject => ?_⟩
    · rw [deliveries, hdispatched, List.filter_append, List.map_append]
      rfl
    · obtain ⟨d, hd, rfl⟩ := List.mem_map.1 hc
      obtain ⟨i', -, rfl⟩ := List.mem_map.1 (List.mem_filter.1 hd).1
      rfl
    · obtain ⟨c, hc⟩ := List.exists_mem_of_ne_nil _ hne
      obtain ⟨d, hd, rfl⟩ := List.mem_map.1 hc
      obtain ⟨hd, hrecipient⟩ := List.mem_filter.1 hd
      obtain ⟨i', hi', rfl⟩ := List.mem_map.1 hd
      have heq : (id', i') = (id, i) := of_decide_eq_true hrecipient
      obtain ⟨rfl, rfl⟩ := Prod.mk.inj heq
      obtain ⟨hattached, hconcerns⟩ := attached_of_dispatched hinstances i' hi'
      refine ⟨hattached, ?_⟩
      rw [haddress, Address.concerns, Bool.and_eq_true, Bool.or_eq_true]
      exact ⟨decide_eq_true rfl, hconcerns.imp decide_eq_true decide_eq_true⟩
    · rw [haddress, Address.object.injEq] at hobject
      obtain ⟨rfl, rfl⟩ := hobject
      obtain ⟨hattached, rfl⟩ := dispatched_instance hmax hi hinstances
      refine ⟨hattached, ?_⟩
      simp

namespace Orderly

theorem append_received (h : s.Orderly instanceMax) (command : Command I) :
    ({ s with
      received := s.received ++ [(s.received.length, command)]
      pendingCommands := s.pendingCommands ++ [(s.received.length, command)] } :
        State I).Orderly instanceMax where
  order := fun id i => by
    change (s.deliveries id i ++ waiting instanceMax id i (s.pendingCommands ++ [_])).Pairwise _
    rw [waiting, List.filter_append, ← List.append_assoc]
    refine List.pairwise_append.2 ⟨h.order id i, ?_, fun c hc c' hc' => ?_⟩
    · exact (List.pairwise_singleton _ _).sublist List.filter_sublist
    · obtain rfl := List.mem_singleton.1 (List.filter_sublist.subset hc')
      refine (h.bound id i c ?_).le
      rcases List.mem_append.1 hc with hc | hc
      · exact List.mem_append_left _ hc
      · exact List.mem_append_right _ (List.filter_sublist.subset hc)
  bound := fun id i c hc => by
    change c ∈ s.deliveries id i ++ (s.pendingCommands ++ [_]) at hc
    rw [← List.append_assoc] at hc
    rw [List.length_append, List.length_singleton]
    rcases List.mem_append.1 hc with hc | hc
    · exact Nat.lt_succ_of_lt (h.bound id i c hc)
    · obtain rfl := List.mem_singleton.1 hc
      exact Nat.lt_succ_self _
  lossless := fun id i hi => by
    change addressed id i (s.received ++ [_]) =
      addressed id i (s.deliveries id i) ++ addressed id i (s.pendingCommands ++ [_])
    have hold := h.lossless id i hi
    simp only [addressed, List.filter_append] at hold ⊢
    rw [hold, List.append_assoc]

theorem dispatch_pending (h : s.Orderly instanceMax) (hmax : instanceMax < instanceNone)
    {front rest : List (ℕ × Command I)} (hpending : s.pendingCommands = front ++ command :: rest)
    (hfront : ∀ c ∈ front, s.dispatchCommand instanceMax c = none)
    (hdispatch : s.dispatchCommand instanceMax command = some s') :
    { s' with pendingCommands := front ++ rest }.Orderly instanceMax := by
  have hreceived := (dispatchCommand_eq hdispatch).2.1
  refine ⟨fun id i => ?_, fun id i c hc => ?_, fun id i hi => ?_⟩
  · change (s'.deliveries id i ++ waiting instanceMax id i (front ++ rest)).Pairwise _
    obtain ⟨extra, hextra, hsame, hconcerns, -⟩ := deliveries_dispatch hdispatch id i
    have horder := h.order id i
    rw [hpending, waiting, List.filter_append] at horder
    rw [hextra, waiting, List.filter_append]
    rcases eq_or_ne extra [] with rfl | hne
    · rw [List.append_nil]
      refine horder.sublist ((List.Sublist.append_left ?_ _).append_left _)
      exact (List.sublist_cons_self command rest).filter _
    · obtain ⟨hattached, hcommand⟩ := hconcerns hne
      have hnil := waiting_eq_nil hfront hattached
      rw [waiting] at hnil
      rw [hnil, List.nil_append, List.filter_cons, if_pos hcommand] at horder
      rw [hnil, List.nil_append]
      exact pairwise_repeat horder hsame
  · change c ∈ s'.deliveries id i ++ (front ++ rest) at hc
    change c.1 < s'.received.length
    obtain ⟨extra, hextra, hsame, -, -⟩ := deliveries_dispatch hdispatch id i
    rw [hreceived]
    have hcommand : command ∈ s.deliveries id i ++ s.pendingCommands := by
      rw [hpending]
      simp
    rw [hextra] at hc
    rcases List.mem_append.1 hc with hc | hc
    · rcases List.mem_append.1 hc with hc | hc
      · exact h.bound id i c (List.mem_append_left _ hc)
      · rw [hsame c hc]
        exact h.bound id i command hcommand
    · refine h.bound id i c (List.mem_append_right _ ?_)
      rw [hpending]
      exact ((List.sublist_cons_self command rest).append_left front).subset hc
  · change addressed id i s'.received =
      addressed id i (s'.deliveries id i) ++ addressed id i (front ++ rest)
    obtain ⟨extra, hextra, hsame, -, hobject⟩ := deliveries_dispatch hdispatch id i
    have hlossless := h.lossless id i hi
    rw [hpending] at hlossless
    rw [hreceived, hlossless, hextra]
    simp only [addressed, List.filter_append]
    by_cases haddress : command.2.address = .object id i
    · obtain ⟨hattached, rfl⟩ := hobject hmax hi haddress
      have hnil : front.filter (fun c => decide (c.2.address = .object id i)) = [] := by
        refine List.filter_eq_nil_iff.2 (fun c hc hcaddress => ?_)
        refine dispatchCommand_ne_none hattached ?_ (hfront c hc)
        rw [of_decide_eq_true hcaddress]
        simp [Address.concerns]
      simp [hnil, haddress]
    · have hnil : extra.filter (fun c => decide (c.2.address = .object id i)) = [] := by
        refine List.filter_eq_nil_iff.2 (fun c hc hcaddress => ?_)
        rw [hsame c hc] at hcaddress
        exact haddress (of_decide_eq_true hcaddress)
      simp [hnil, haddress]

end Orderly

def Settled (instanceMax : ℕ) (s : State I) : Prop :=
  ∀ c ∈ s.pendingCommands, s.dispatchCommand instanceMax c = none

theorem scan_eq_none {front rest : List (ℕ × Command I)}
    (h : s.scan instanceMax front rest = none) :
    ∀ c ∈ rest, s.dispatchCommand instanceMax c = none := by
  induction rest generalizing front with
  | nil => nofun
  | cons command rest ih =>
      unfold scan at h
      split at h
      · cases h
      · rename_i hnone
        intro c hc
        rcases List.mem_cons.1 hc with rfl | hc
        · exact hnone
        · exact ih h c hc

theorem scan_eq_some {front rest : List (ℕ × Command I)}
    (h : s.scan instanceMax front rest = some s')
    (hfront : ∀ c ∈ front, s.dispatchCommand instanceMax c = none) :
    ∃ front' command rest' s₁, front ++ rest = front' ++ command :: rest' ∧
      (∀ c ∈ front', s.dispatchCommand instanceMax c = none) ∧
      s.dispatchCommand instanceMax command = some s₁ ∧
      s' = { s₁ with pendingCommands := front' ++ rest' } := by
  induction rest generalizing front with
  | nil => cases h
  | cons command rest ih =>
      unfold scan at h
      split at h
      · rename_i s₁ hsome
        exact ⟨front, command, rest, s₁, rfl, hfront, hsome, (Option.some.inj h).symm⟩
      · rename_i hnone
        obtain ⟨front', command', rest', s₁, heq, hspec⟩ := ih h (fun c hc => by
          rcases List.mem_append.1 hc with hc | hc
          · exact hfront c hc
          · obtain rfl := List.mem_singleton.1 hc
            exact hnone)
        exact ⟨front', command', rest', s₁, by rw [← heq]; simp, hspec⟩

/-- The loop ends, since each turn dispatches a pending command, and none is left that could be. -/
theorem redispatchCommands_spec (hmax : instanceMax < instanceNone) {turns : ℕ}
    (hturns : s.pendingCommands.length < turns) (h : s.Orderly instanceMax) :
    ∃ s', redispatchCommands instanceMax turns s = some s' ∧ s'.Orderly instanceMax ∧
      s'.Settled instanceMax ∧ s'.received = s.received := by
  induction turns generalizing s with
  | zero => exact absurd hturns (Nat.not_lt_zero _)
  | succ turns ih =>
      unfold redispatchCommands
      cases hscan : s.scan instanceMax [] s.pendingCommands with
      | none => exact ⟨s, rfl, h, scan_eq_none hscan, rfl⟩
      | some s' =>
          obtain ⟨front, command, rest, s₁, heq, hfront, hdispatch, rfl⟩ := scan_eq_some hscan nofun
          rw [List.nil_append] at heq
          rw [heq] at hturns
          simp only [List.length_append, List.length_cons] at hturns
          have hless : (front ++ rest).length < turns := by
            rw [List.length_append]
            omega
          obtain ⟨s', hloop, horderly, hsettled, hreceived⟩ :=
            ih hless (h.dispatch_pending hmax heq hfront hdispatch)
          exact ⟨s', hloop, horderly, hsettled,
            hreceived.trans (dispatchCommand_eq hdispatch).2.1⟩

theorem redispatchCommands_of_settled (h : s.Settled instanceMax) (turns : ℕ) :
    redispatchCommands instanceMax (turns + 1) s = some s := by
  unfold redispatchCommands
  cases hscan : s.scan instanceMax [] s.pendingCommands with
  | none => rfl
  | some s' =>
      obtain ⟨front, command, rest, s₁, heq, -, hdispatch, -⟩ := scan_eq_some hscan nofun
      rw [h command (by rw [← List.nil_append s.pendingCommands, heq]; simp)] at hdispatch
      cases hdispatch

/-- Whether a command can be dispatched depends on the attached objects only. -/
theorem dispatchCommand_eq_none : s.dispatchCommand instanceMax command = none ↔
    ∃ id instanceID, command.2.address = .object id instanceID ∧
      dispatchObjectCommand instanceMax (s.objects id) instanceID = none := by
  unfold dispatchCommand
  cases haddress : command.2.address with
  | node => simp
  | object id instanceID => simp

theorem Settled.congr {t : State I} (h : s.Settled instanceMax) (hobjects : t.objects = s.objects) :
    ∀ c ∈ s.pendingCommands, t.dispatchCommand instanceMax c = none := by
  intro c hc
  have hnone := h c hc
  rw [dispatchCommand_eq_none] at hnone ⊢
  rw [hobjects]
  exact hnone

theorem dispatchCommand_pending (commands : List (ℕ × Command I)) :
    dispatchCommand instanceMax { s with pendingCommands := commands } command =
      (s.dispatchCommand instanceMax command).map
        (fun s' => { s' with pendingCommands := commands }) := by
  unfold dispatchCommand
  cases command.2.address with
  | node => rfl
  | object id instanceID => rw [Option.map_map]; rfl

/-- The commands that arrive, with their numbers. -/
def arrivals : ℕ → List (Event I) → List (ℕ × Command I)
  | _, [] => []
  | n, .receive command :: es => (n, command) :: arrivals (n + 1) es
  | n, .interrupt :: es => arrivals n es

theorem step_spec (hmax : instanceMax < instanceNone) (h : s.Orderly instanceMax)
    (hsettled : s.Settled instanceMax) (e : Event I) :
    ∃ s', s.step instanceMax e = some s' ∧ s'.Orderly instanceMax ∧ s'.Settled instanceMax ∧
      s'.received = s.received ++ arrivals s.received.length [e] := by
  cases e with
  | interrupt =>
      rw [arrivals, arrivals, List.append_nil]
      exact redispatchCommands_spec hmax (Nat.lt_succ_self _) h
  | receive command =>
      obtain ⟨arrived, harrived⟩ : ∃ t : State I,
          t = { s with received := s.received ++ [(s.received.length, command)] } := ⟨_, rfl⟩
      have harrive : ({ arrived with
          pendingCommands := s.pendingCommands ++ [(s.received.length, command)] } :
            State I).Orderly instanceMax := harrived ▸ h.append_received command
      have hkept : ∀ c ∈ s.pendingCommands, arrived.dispatchCommand instanceMax c = none :=
        hsettled.congr (harrived ▸ rfl)
      have hpending : arrived.pendingCommands = s.pendingCommands := harrived ▸ rfl
      simp only [step, receive, arrivals, ← harrived]
      have hreceived : arrived.received = s.received ++ [(s.received.length, command)] :=
        harrived ▸ rfl
      rw [← hreceived]
      cases hdispatch : arrived.dispatchCommand instanceMax (s.received.length, command) with
      | some s' =>
          rw [← (dispatchCommand_eq hdispatch).2.1]
          refine redispatchCommands_spec hmax (Nat.lt_succ_self _) ?_
          have hfront : ∀ c ∈ s.pendingCommands, dispatchCommand instanceMax { arrived with
              pendingCommands := s.pendingCommands ++ [(s.received.length, command)] } c = none := by
            intro c hc
            rw [dispatchCommand_pending, hkept c hc, Option.map_none]
          have hnext := harrive.dispatch_pending hmax rfl hfront
            ((dispatchCommand_pending _).trans (congrArg _ hdispatch))
          rw [List.append_nil, ← hpending, ← (dispatchCommand_eq hdispatch).1] at hnext
          exact hnext
      | none =>
          have hstill : arrived.Settled instanceMax := by
            rw [Settled, hpending]
            exact hkept
          simp only [redispatchCommands_of_settled hstill, Option.map_some, hpending]
          refine ⟨_, rfl, harrive, fun c hc => ?_, rfl⟩
          rw [dispatchCommand_pending, Option.map_eq_none_iff]
          rcases List.mem_append.1 hc with hc | hc
          · exact hkept c hc
          · rw [List.mem_singleton.1 hc]
            exact hdispatch

theorem run_spec (hmax : instanceMax < instanceNone) (h : s.Orderly instanceMax)
    (hsettled : s.Settled instanceMax) (es : List (Event I)) :
    ∃ s', Machine.run (State.step instanceMax) s es = some s' ∧ s'.Orderly instanceMax ∧
      s'.Settled instanceMax ∧ s'.received = s.received ++ arrivals s.received.length es := by
  induction es generalizing s with
  | nil => exact ⟨s, rfl, h, hsettled, (List.append_nil _).symm⟩
  | cons e es ih =>
      obtain ⟨s₁, hstep, h₁, hsettled₁, hreceived₁⟩ := step_spec hmax h hsettled e
      obtain ⟨s', hrun, h', hsettled', hreceived⟩ := ih h₁ hsettled₁
      refine ⟨s', (Machine.run_cons_eq_some _).2 ⟨s₁, hstep, hrun⟩, h', hsettled', ?_⟩
      rw [hreceived, hreceived₁, List.append_assoc]
      cases e with
      | receive command => simp [arrivals]
      | interrupt => simp [arrivals]

/-- Every run goes on, so that the loop ends each time, and leaves no pending command that could be
dispatched. The commands addressed to an object are dispatched to it one by one in the order in which
they arrive, up to those that are pending, of which there are none once it is attached; and all
commands that reach it are in that order. -/
theorem dispatch_in_order (hmax : instanceMax < instanceNone) (es : List (Event I)) :
    ∃ s, Machine.run (State.step instanceMax) init es = some s ∧
      (∀ c ∈ s.pendingCommands, s.dispatchCommand instanceMax c = none) ∧
      ∀ id i, i ≤ instanceMax →
        addressed id i (arrivals 0 es) =
          addressed id i (s.deliveries id i) ++ addressed id i s.pendingCommands ∧
        (i ∈ s.objects id → addressed id i s.pendingCommands = []) ∧
        (s.deliveries id i).Pairwise (fun c c' => c.1 ≤ c'.1) := by
  obtain ⟨s, hs, h, hsettled, hreceived⟩ := run_spec hmax orderly_init nofun es
  refine ⟨s, hs, hsettled, fun id i hi => ⟨?_, fun hattached => ?_, ?_⟩⟩
  · rw [← h.lossless id i hi, hreceived]
    rfl
  · refine List.filter_eq_nil_iff.2 (fun c hc haddress => ?_)
    refine dispatchCommand_ne_none hattached ?_ (hsettled c hc)
    rw [of_decide_eq_true haddress]
    simp [Address.concerns]
  · exact (List.pairwise_append.1 (h.order id i)).1

/-- Two commands wait for an object. They are dispatched once it is attached, before a later one. -/
theorem dispatch_in_order_attach : ∃ s : State ℕ,
    Machine.run (State.step 0xfffffff0) init
        [.receive ⟨.object 7 1, []⟩, .receive ⟨.object 7 1, []⟩,
          .receive ⟨.node, [.attach 7 1]⟩, .receive ⟨.object 7 1, []⟩] = some s ∧
      (s.deliveries 7 1).map Prod.fst = [0, 1, 3] ∧
      (s.deliveries 7 1).Pairwise (fun c c' => c.1 ≤ c'.1) := by
  have hmax : 0xfffffff0 < instanceNone := by decide
  obtain ⟨s, hrun, -, hspec⟩ := dispatch_in_order (I := ℕ) hmax
    [.receive ⟨.object 7 1, []⟩, .receive ⟨.object 7 1, []⟩,
      .receive ⟨.node, [.attach 7 1]⟩, .receive ⟨.object 7 1, []⟩]
  have h : (Machine.run (State.step 0xfffffff0) (init : State ℕ)
      [.receive ⟨.object 7 1, []⟩, .receive ⟨.object 7 1, []⟩,
        .receive ⟨.node, [.attach 7 1]⟩, .receive ⟨.object 7 1, []⟩]).map
        (fun s => decide ((s.deliveries 7 1).map Prod.fst = [0, 1, 3])) = some true := by
    decide +kernel
  rw [hrun, Option.map_some, Option.some.injEq] at h
  exact ⟨s, hrun, of_decide_eq_true h, (hspec 7 1 (by decide)).2.2⟩

end State

end Collage.Dispatch
