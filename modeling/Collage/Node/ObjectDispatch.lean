import Collage.Node.Dispatch
import Collage.Node.ObjectTable

/-!
# Commands for the attached objects

The receiver thread of a node with its object store. To the dispatch of commands, the table of the
store is a list of instance identifiers for each identifier, and the handlers of the store are
changes of these lists. Therefore each attached object has got all commands that were sent to it, in
their order, and no other object has.
-/

namespace Collage.ObjectTable

open Dispatch (Address Change Command State)

variable {I : Type} [DecidableEq I]

namespace Table

/-- The table as the dispatch of commands sees it. -/
def view (t : Table I) (id : I) : List ℕ :=
  (t.entry id).map (fun o => (t.object o).instanceID.toNat)

variable {max : BitVec 32} {t : Table I}

omit [DecidableEq I] in
theorem view_congr {t' : Table I} {id : I} (hentry : t'.entry id = t.entry id)
    (hobject : ∀ o ∈ t.entry id, (t'.object o).instanceID = (t.object o).instanceID) :
    t'.view id = t.view id := by
  rw [view, hentry]
  exact List.map_congr_left (fun o ho => congrArg BitVec.toNat (hobject o ho))

omit [DecidableEq I] in
theorem mem_view (h : t.Agrees) {o : ℕ} (ho : (t.object o).isAttached) :
    (t.object o).instanceID.toNat ∈ t.view (t.object o).id :=
  List.mem_map_of_mem ((h.mem_entry _ o).2 ⟨ho, rfl⟩)

theorem view_attach (h : t.Agrees) {o : ℕ} (ho : ¬ (t.object o).isAttached) (id : I)
    (inInstanceID : BitVec 32) :
    (t.attach max o id inInstanceID).view = Change.apply t.view (.attach id
      (InstanceIDs.attach max instanceInvalid inInstanceID t.instanceIDs).1.toNat) := by
  have hother : ∀ id', ∀ o' ∈ t.entry id',
      (t.attach max o id inInstanceID).object o' = t.object o' := by
    intro id' o' ho'
    have hne : o' ≠ o := by
      rintro rfl
      exact ho ((h.mem_entry id' o').1 ho').1
    exact Function.update_of_ne hne _ _
  funext id'
  rw [Change.apply]
  by_cases hid : id' = id
  · subst hid
    rw [Function.update_self, view, entry_attach, if_pos rfl, List.map_append, view]
    refine congrArg₂ (· ++ ·) (List.map_congr_left (fun o' ho' => by rw [hother id' o' ho'])) ?_
    rw [List.map_singleton, Table.attach]
    simp only [Function.update_self]
  · rw [Function.update_of_ne hid]
    exact view_congr (by rw [entry_attach, if_neg hid]) (fun o' ho' => by rw [hother id' o' ho'])

theorem view_detach (h : t.Agrees) {id : I} {instanceID : BitVec 32} {o : ℕ}
    (ho : (t.entry id).find? (fun o => (t.object o).instanceID = instanceID) = some o) :
    (t.detach o).view = Change.apply t.view (.detach id instanceID.toNat) := by
  obtain ⟨hinstance, xs, ys, hentry, hfirst⟩ := List.find?_eq_some_iff_append.1 ho
  obtain rfl := of_decide_eq_true hinstance
  obtain ⟨hattached, rfl⟩ := (h.mem_entry id o).1 (List.mem_of_find?_eq_some ho)
  have hnodup := h.nodup (t.object o).id
  rw [hentry, List.nodup_middle, List.nodup_cons] at hnodup
  have hother : ∀ o', o' ≠ o → (t.detach o).object o' = t.object o' := by
    intro o' hne
    rw [object_detach hattached, Function.update_of_ne hne]
  funext id'
  rw [Change.apply]
  by_cases hid : id' = (t.object o).id
  · subst hid
    have herase : (t.entry (t.object o).id).erase o = xs ++ ys := by
      rw [hentry, List.erase_append_right _ (fun hmem => hnodup.1 (List.mem_append_left _ hmem)),
        List.erase_cons_head]
    have hfront : (t.object o).instanceID.toNat ∉
        xs.map (fun o' => (t.object o').instanceID.toNat) := by
      intro hmem
      obtain ⟨o', ho', heq⟩ := List.mem_map.1 hmem
      have hne := hfirst o' ho'
      simp only [Bool.not_eq_true', decide_eq_false_iff_not] at hne
      exact hne (BitVec.eq_of_toNat_eq heq)
    have hview : t.view (t.object o).id = xs.map (fun o' => (t.object o').instanceID.toNat) ++
        (t.object o).instanceID.toNat :: ys.map (fun o' => (t.object o').instanceID.toNat) := by
      rw [view, hentry, List.map_append, List.map_cons]
    rw [Function.update_self, hview, List.erase_append_right _ hfront, List.erase_cons_head,
      ← List.map_append, view, entry_detach hattached, if_pos rfl, herase]
    refine List.map_congr_left (fun o' ho' => ?_)
    rw [hother o' (fun heq => hnodup.1 (heq ▸ ho'))]
  · rw [Function.update_of_ne hid]
    refine view_congr (by rw [entry_detach hattached, if_neg hid]) (fun o' ho' => ?_)
    rw [hother o' (fun heq => hid (heq ▸ ((h.mem_entry id' o').1 ho').2.symm))]

theorem foldl_detach (objects : I → List ℕ) (id : I) {is : List ℕ} (h : objects id = is) :
    (is.map (Change.detach id)).foldl Change.apply objects = Function.update objects id [] := by
  induction is generalizing objects with
  | nil => exact (Function.update_eq_self_iff.2 h.symm).symm
  | cons i is ih =>
      rw [List.map_cons, List.foldl_cons, ih _ (by simp [Change.apply, h])]
      simp [Change.apply]

theorem view_cmdUnmap (h : t.Agrees) (id : I) : (t.cmdUnmap id).view =
    ((t.view id).map (Change.detach id)).foldl Change.apply t.view := by
  rw [foldl_detach t.view id rfl]
  funext id'
  by_cases hid : id' = id
  · subst hid
    rw [Function.update_self, view, entry_cmdUnmap, if_pos rfl, List.map_nil]
  · rw [Function.update_of_ne hid]
    refine view_congr (by rw [entry_cmdUnmap, if_neg hid]) (fun o ho => ?_)
    have hout : o ∉ t.entry id := fun hmem =>
      hid (((h.mem_entry id' o).1 ho).2.symm.trans ((h.mem_entry id o).1 hmem).2)
    simp only [cmdUnmap, if_neg hout]

theorem view_swap (h : t.Agrees) {oldObject newObject : ℕ} (hne : newObject ≠ oldObject)
    (hnew : ¬ (t.object newObject).isAttached) : (t.swap oldObject newObject).view = t.view := by
  by_cases hcond : (t.object oldObject).isAttached ∧ oldObject ∈ t.entry (t.object oldObject).id
  swap
  · rw [swap, if_neg hcond]
  obtain ⟨xs, ys, hentry, hout, hreplace⟩ := replace_eq (h.nodup _) hcond.2
  have hfresh : ∀ id', newObject ∉ t.entry id' :=
    fun id' hmem => hnew ((h.mem_entry id' newObject).1 hmem).1
  have hobject : ∀ o, (t.swap oldObject newObject).object o =
      if o = oldObject then { (t.object oldObject).detach with isMaster := false }
      else if o = newObject then t.object oldObject else t.object o := by
    intro o
    rw [swap, if_pos hcond]
    simp only [Function.update_apply]
  have hkept : ∀ o, o ≠ oldObject → o ≠ newObject →
      (t.swap oldObject newObject).object o = t.object o := by
    intro o hold hobj
    rw [hobject, if_neg hold, if_neg hobj]
  funext id'
  by_cases hid : id' = (t.object oldObject).id
  · subst hid
    rw [view, entry_swap hcond, if_pos rfl, hreplace, view, hentry, List.map_append, List.map_cons,
      List.map_append, List.map_cons, hobject newObject, if_neg hne, if_pos rfl]
    have hsame : ∀ o ∈ xs ++ ys, (t.swap oldObject newObject).object o = t.object o := by
      intro o ho
      refine hkept o (fun heq => hout (heq ▸ ho)) (fun heq => hfresh (t.object oldObject).id ?_)
      rw [hentry, ← heq]
      rcases List.mem_append.1 ho with ho | ho
      · exact List.mem_append_left _ ho
      · exact List.mem_append_right _ (List.mem_cons_of_mem _ ho)
    rw [List.map_congr_left (l := xs) (fun o ho => by rw [hsame o (List.mem_append_left _ ho)]),
      List.map_congr_left (l := ys) (fun o ho => by rw [hsame o (List.mem_append_right _ ho)])]
  · refine view_congr (by rw [entry_swap hcond, if_neg hid]) (fun o ho => ?_)
    rw [hkept o (fun heq => hid (heq ▸ ((h.mem_entry id' o).1 ho).2.symm))
      (fun heq => hfresh id' (heq ▸ ho))]

end Table

section Objects

variable {instanceMax : ℕ} {d d' : State I} {command : Command I}

theorem objects_dispatchCommand {c : ℕ × Command I}
    (h : d.dispatchCommand instanceMax c = some d') :
    d'.objects = c.2.changes.foldl Change.apply d.objects := by
  unfold State.dispatchCommand at h
  split at h
  · exact Option.some.inj h ▸ rfl
  · obtain ⟨instances, -, rfl⟩ := Option.map_eq_some_iff.1 h
    rfl

/-- Commands for objects do not attach or detach anything. -/
def Quiet (d : State I) : Prop := ∀ c ∈ d.pendingCommands, c.2.changes = []

theorem objects_redispatchCommands {turns : ℕ} (hquiet : Quiet d)
    (h : State.redispatchCommands instanceMax turns d = some d') :
    d'.objects = d.objects ∧ Quiet d' := by
  induction turns generalizing d with
  | zero => cases h
  | succ turns ih =>
      unfold State.redispatchCommands at h
      cases hscan : d.scan instanceMax [] d.pendingCommands with
      | none =>
          rw [hscan] at h
          exact Option.some.inj h ▸ ⟨rfl, hquiet⟩
      | some d₁ =>
          rw [hscan] at h
          obtain ⟨front, c, rest, d₂, heq, -, hdispatch, rfl⟩ :=
            State.scan_eq_some hscan (fun _ hc => absurd hc List.not_mem_nil)
          rw [List.nil_append] at heq
          have hc : c.2.changes = [] := hquiet c (heq ▸ by simp)
          have hfewer : Quiet { d₂ with pendingCommands := front ++ rest } := by
            intro c' hc'
            refine hquiet c' (heq ▸ ?_)
            rcases List.mem_append.1 hc' with hc' | hc'
            · exact List.mem_append_left _ hc'
            · exact List.mem_append_right _ (List.mem_cons_of_mem _ hc')
          obtain ⟨hobjects, hquiet'⟩ := ih hfewer h
          refine ⟨hobjects.trans ?_, hquiet'⟩
          change d₂.objects = d.objects
          rw [objects_dispatchCommand hdispatch, hc, List.foldl_nil]

theorem objects_receive (hquiet : Quiet d) (hcommand : command.address = .node ∨ command.changes = [])
    (h : d.receive instanceMax command = some d') :
    d'.objects = command.changes.foldl Change.apply d.objects ∧ Quiet d' := by
  unfold State.receive at h
  simp only at h
  split at h
  · rename_i d₁ hdispatch
    have hpending := (State.dispatchCommand_eq hdispatch).1
    obtain ⟨hobjects, hquiet'⟩ := objects_redispatchCommands (by rw [Quiet, hpending]; exact hquiet) h
    exact ⟨hobjects.trans (objects_dispatchCommand hdispatch), hquiet'⟩
  · rename_i hnone
    obtain ⟨d₁, hloop, rfl⟩ := Option.map_eq_some_iff.1 h
    obtain ⟨hobjects, hquiet'⟩ := objects_redispatchCommands (d := { d with
      received := d.received ++ [(d.received.length, command)] }) hquiet hloop
    have hchanges : command.changes = [] := by
      refine hcommand.resolve_left (fun hnode => ?_)
      rw [State.dispatchCommand_eq_none] at hnone
      obtain ⟨id, instanceID, haddress, -⟩ := hnone
      rw [hnode] at haddress
      cases haddress
    refine ⟨by rw [hchanges]; exact hobjects, fun c hc => ?_⟩
    rcases List.mem_append.1 hc with hc | hc
    · exact hquiet' c hc
    · rw [List.mem_singleton.1 hc]
      exact hchanges

end Objects

/-- A node with its object store and the commands that arrive for it and for its objects. -/
structure Receiver (I : Type) where
  store : Store I
  commands : State I

/-- What the handler of a command changes for the dispatch, and nothing for what is no command. -/
def Event.changes (max : BitVec 32) (s : Store I) : Event I → Option (List (Change I))
  | .attached o => (s.requests.find? (fun r => r.1 = o)).map (fun r =>
      [.attach r.2.1
        (InstanceIDs.attach max instanceInvalid r.2.2 s.table.instanceIDs).1.toNat])
  | .refused _ => some []
  | .cmdDetach id instanceID => some
      (if (s.table.entry id).any (fun o => (s.table.object o).instanceID = instanceID) then
        [.detach id instanceID.toNat] else [])
  | .cmdUnmap id => some ((s.table.view id).map (.detach id))
  | _ => none

inductive Arrival (I : Type)
  /-- A step of the store: a command for the node, or something that the node does itself. -/
  | store (e : Event I)
  | object (id : I) (instanceID : BitVec 32)
  /-- `EVENT_INTERRUPT`. -/
  | interrupt

namespace Receiver

variable (max : BitVec 32)

def start (object : ℕ → Object I) (instanceIDs : BitVec 32) : Receiver I :=
  ⟨Store.start object instanceIDs, State.init⟩

def step (r : Receiver I) : Arrival I → Option (Receiver I)
  | .store e => (r.store.step max e).bind (fun store =>
      match e.changes max r.store with
      | none => some { r with store := store }
      | some changes =>
          (r.commands.receive max.toNat ⟨.node, changes⟩).map (fun d => ⟨store, d⟩))
  | .object id instanceID =>
      (r.commands.receive max.toNat ⟨.object id instanceID.toNat, []⟩).map
        (fun d => { r with commands := d })
  | .interrupt =>
      (State.redispatchCommands max.toNat (r.commands.pendingCommands.length + 1) r.commands).map
        (fun d => { r with commands := d })

def Generated (r : Receiver I) : Arrival I → Prop
  | .store e => Store.Generated max r.store e
  | .object _ _ | .interrupt => True

instance (r : Receiver I) (a : Arrival I) : Decidable (r.Generated max a) := match a with
  | .store _ => inferInstanceAs (Decidable (_ ∧ _))
  | .object _ _ | .interrupt => inferInstanceAs (Decidable True)

/-- The dispatch knows what is attached, and nothing pending could be dispatched. -/
structure Linked (max val : BitVec 32) (r : Receiver I) : Prop where
  sound : r.store.Sound max val
  objects : r.commands.objects = r.store.table.view
  quiet : Quiet r.commands
  orderly : r.commands.Orderly max.toNat
  settled : r.commands.Settled max.toNat

variable {max} {val : BitVec 32} {r r' : Receiver I}

theorem view_step {s s' : Store I} (h : s.Sound max val) {e : Event I}
    (hs : s.step max e = some s') :
    s'.table.view = ((e.changes max s).getD []).foldl Change.apply s.table.view := by
  cases e with
  | attach o id instanceID =>
      simp only [Store.step] at hs
      split_ifs at hs
      exact Option.some.inj hs ▸ rfl
  | mapNB o id =>
      simp only [Store.step] at hs
      split_ifs at hs
      exact Option.some.inj hs ▸ rfl
  | attached o =>
      obtain ⟨⟨o', id, instanceID⟩, hr, rfl⟩ := Option.map_eq_some_iff.1 hs
      obtain rfl : o' = o := by simpa using List.find?_some hr
      have hfree := h.waiting o' (List.mem_map_of_mem (List.mem_of_find?_eq_some hr))
      rw [Event.changes, hr]
      exact Table.view_attach h.agrees hfree id instanceID
  | refused o => exact Option.some.inj hs ▸ rfl
  | cmdDetach id instanceID =>
      obtain rfl := Option.some.inj hs
      simp only [Event.changes, Option.getD_some, Table.cmdDetach]
      cases hfind : (s.table.entry id).find?
          (fun o => (s.table.object o).instanceID = instanceID) with
      | none =>
          have hany : ¬ (s.table.entry id).any
              (fun o => (s.table.object o).instanceID = instanceID) = true := by
            rw [List.any_eq_true]
            rintro ⟨o, ho, heq⟩
            exact List.find?_eq_none.1 hfind o ho heq
          rw [if_neg hany]
          rfl
      | some o =>
          have hany : (s.table.entry id).any
              (fun o => (s.table.object o).instanceID = instanceID) = true :=
            List.any_eq_true.2 ⟨o, List.mem_of_find?_eq_some hfind, by
              simpa using List.find?_some hfind⟩
          rw [if_pos hany]
          exact Table.view_detach h.agrees hfind
  | cmdUnmap id =>
      obtain rfl := Option.some.inj hs
      exact Table.view_cmdUnmap h.agrees id
  | swap oldObject newObject =>
      simp only [Store.step] at hs
      split_ifs at hs with hfree
      obtain rfl := Option.some.inj hs
      exact Table.view_swap h.agrees hfree.2.1 hfree.1.1
  | setup o isMaster =>
      obtain rfl := Option.some.inj hs
      funext id
      refine Table.view_congr rfl (fun o' _ => ?_)
      by_cases ho : o' = o
      · subst ho
        simp
      · simp [ho]

theorem Linked.step (h : r.Linked max val) (hmax : max < instanceNone) {a : Arrival I}
    (hok : r.Generated max a) (hs : r.step max a = some r') : r'.Linked max val := by
  have hreceive : ∀ {command : Command I} {d : State I},
      command.address = .node ∨ command.changes = [] →
      r.commands.receive max.toNat command = some d →
      d.objects = command.changes.foldl Change.apply r.commands.objects ∧ Quiet d ∧
        d.Orderly max.toNat ∧ d.Settled max.toNat := by
    intro command d hcommand hd
    obtain ⟨hobjects, hquiet⟩ := objects_receive h.quiet hcommand hd
    obtain ⟨d', hd', horderly, hsettled, -⟩ :=
      State.step_spec hmax h.orderly h.settled (.receive command)
    obtain rfl := Option.some.inj (hd.symm.trans hd')
    exact ⟨hobjects, hquiet, horderly, hsettled⟩
  cases a with
  | store e =>
      obtain ⟨store, hstore, hrest⟩ := Option.bind_eq_some_iff.1 hs
      have hsound := h.sound.step hmax hok hstore
      have hview := view_step h.sound hstore
      cases hchanges : e.changes max r.store with
      | none =>
          rw [hchanges] at hrest hview
          obtain rfl := Option.some.inj hrest
          exact ⟨hsound, h.objects.trans hview.symm, h.quiet, h.orderly, h.settled⟩
      | some changes =>
          rw [hchanges] at hrest hview
          obtain ⟨d, hd, rfl⟩ := Option.map_eq_some_iff.1 hrest
          obtain ⟨hobjects, hquiet, horderly, hsettled⟩ := hreceive (Or.inl rfl) hd
          refine ⟨hsound, ?_, hquiet, horderly, hsettled⟩
          rw [hobjects, h.objects]
          exact hview.symm
  | object id instanceID =>
      obtain ⟨d, hd, rfl⟩ := Option.map_eq_some_iff.1 hs
      obtain ⟨hobjects, hquiet, horderly, hsettled⟩ := hreceive (Or.inr rfl) hd
      exact ⟨h.sound, hobjects.trans h.objects, hquiet, horderly, hsettled⟩
  | interrupt =>
      obtain ⟨d, hd, rfl⟩ := Option.map_eq_some_iff.1 hs
      obtain ⟨hobjects, hquiet⟩ := objects_redispatchCommands h.quiet hd
      obtain ⟨d', hd', horderly, hsettled, -⟩ :=
        State.step_spec hmax h.orderly h.settled .interrupt
      obtain rfl := Option.some.inj (hd.symm.trans hd')
      exact ⟨h.sound, hobjects.trans h.objects, hquiet, horderly, hsettled⟩

theorem linked_start (object : ℕ → Object I) (val : BitVec 32) :
    (start object val).Linked max val :=
  ⟨Store.sound_start object val, rfl, nofun, State.orderly_init, nofun⟩

/-- When all instance identifiers are generated: whatever is attached, detached and swapped while
commands arrive, each attached object is the only one with its instance identifier. All commands
addressed to it have been dispatched, each once and in the order of their arrival, and no command
for it or for all objects of its identifier is pending. -/
theorem objects_served (hmax : max < instanceNone) {object : ℕ → Object I}
    {as : List (Arrival I)}
    (hok : Machine.Steps (step max) (Generated max) (start object val) as)
    (hrun : Machine.run (step max) (start object val) as = some r) {o : ℕ}
    (ho : (r.store.table.object o).isAttached) :
    let id := (r.store.table.object o).id
    let i := (r.store.table.object o).instanceID.toNat
    (∀ o', (r.store.table.object o').isAttached →
      (r.store.table.object o').instanceID.toNat = i → o' = o) ∧
    State.addressed id i r.commands.received = State.addressed id i (r.commands.deliveries id i) ∧
    (r.commands.deliveries id i).Pairwise (fun c c' => c.1 ≤ c'.1) ∧
    State.waiting max.toNat id i r.commands.pendingCommands = [] := by
  intro id i
  have h := Machine.run_invariant (Linked max val) (fun _ _ _ h hok hs => h.step hmax hok hs)
    (linked_start object val) hok hrun
  have hview : i ∈ r.commands.objects id := by
    rw [h.objects]
    exact Table.mem_view h.sound.agrees ho
  have hwaiting : State.waiting max.toNat id i r.commands.pendingCommands = [] := by
    refine State.waiting_eq_nil ?_ hview
    exact h.settled
  have hle : i ≤ max.toNat := by
    have hdrawn := h.sound.holds o _ (Or.inl ⟨ho, rfl⟩)
    rw [h.sound.drawn] at hdrawn
    exact InstanceIDs.le_of_mem_genIDs hdrawn
  refine ⟨fun o' ho' heq => h.sound.distinct o' o ho' ho (BitVec.eq_of_toNat_eq heq), ?_,
    (List.pairwise_append.1 (h.orderly.order id i)).1, hwaiting⟩
  rw [h.orderly.lossless id i hle]
  have hpending : State.addressed id i r.commands.pendingCommands = [] := by
    refine List.filter_eq_nil_iff.2 (fun c hc haddress => ?_)
    refine List.filter_eq_nil_iff.1 hwaiting c hc ?_
    rw [of_decide_eq_true haddress]
    simp [Address.concerns]
  rw [hpending, List.append_nil]

/-- A slave that is mapped while two commands wait for it, and one for all objects comes. -/
theorem objects_served_slave : ∃ r : Receiver ℕ,
    Machine.run (step 0xfffffff0) (start (fun _ => ⟨0, 0, false⟩) (BitVec.ofInt 32 (-0x7FFFFFFF)))
        [.store (.mapNB 3 7), .object 7 1, .object 7 1, .store (.attached 3),
          .object 7 instanceNone] = some r ∧
      (r.commands.deliveries 7 1).map Prod.fst = [0, 1, 3] ∧
      State.waiting 0xfffffff0 7 1 r.commands.pendingCommands = [] := by
  have h : (Machine.run (step 0xfffffff0)
      (start (fun _ => ⟨0, 0, false⟩) (BitVec.ofInt 32 (-0x7FFFFFFF)))
        [.store (.mapNB 3 7), .object 7 1, .object 7 1, .store (.attached 3),
          .object 7 instanceNone]).map (fun r => decide (
            (r.commands.deliveries 7 1).map Prod.fst = [0, 1, 3] ∧
            r.store.table.object 3 = ⟨7, 1, false⟩)) = some true := by
    decide +kernel
  obtain ⟨r, hrun, hr⟩ := Option.map_eq_some_iff.1 h
  obtain ⟨hdeliveries, hobject⟩ := of_decide_eq_true hr
  have hserved := objects_served (by decide) (by decide +kernel) hrun (o := 3)
    (by rw [hobject]; decide)
  rw [hobject] at hserved
  exact ⟨r, hrun, hdeliveries, hserved.2.2.2⟩

end Receiver

end Collage.ObjectTable
