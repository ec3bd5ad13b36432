import Collage.Lib.Located
import Collage.Lib.Run

/-!
# Work stealing

Slaves of a queue steal items from each other (`stealingQueueSlave.cpp`). The master delivers items
into a left and a right queue of a slave. The slave pops from the right queue, while other slaves
steal from the left queue, and the thief of a slave puts what it has stolen into its own left queue.
Items are numbered here in the order in which they are delivered.
-/

namespace Collage.Stealing

structure Item where
  number : ℕ
  payload : List UInt8
  deriving DecidableEq

def headerSize : ℕ := 36

/-- Reading an array from a command copies nothing if there are not enough data. -/
def readArray (payload : List UInt8) (size : ℕ) : List UInt8 :=
  if payload.length < size then List.replicate size 0 else payload.take size

/-- The command that an item is handed over with. An array of the size of the command is read. -/
def Item.stolen (item : Item) : Item :=
  { item with payload := readArray item.payload (headerSize + item.payload.length) }

inductive Message
  | steal (ratio request : ℕ)
  | stolen (item : Item)
  | deny (request : ℕ)
  | denyMaster
  | empty (delivered : ℕ)
  deriving DecidableEq

def Message.item? : Message → Option Item
  | .stolen x => some x
  | .steal _ _ | .deny _ | .denyMaster | .empty _ => none

/-- The slaves of a queue. -/
structure World (S : Type) where
  queueLeft : S → List Item
  queueRight : S → List Item
  masterFinished : S → Bool
  /-- The commands for the thief of each slave. -/
  cmdQueue : S → List Message
  receive : S → Bool
  messages : S → S → List Message
  /-- The timeout of the call of `pop` that is under way. -/
  pop : S → Option ℕ
  results : S → List (Option Item)
  delivered : List Item

inductive Event (S : Type)
  | deliverLeft (s : S) (payload : List UInt8)
  | deliverRight (s : S) (payload : List UInt8)
  /-- `cmdMasterQueueEmpty`. -/
  | masterQueueEmpty (s : S)
  /-- `pop` is called. -/
  | pop (s : S) (timeout : ℕ)
  /-- A turn of the loop of `pop`, with the time since the call. -/
  | poll (s : S) (time : ℕ)
  /-- The thief asks another slave for items. -/
  | attempt (s victim : S)
  /-- The thief takes the next command. -/
  | thief (s : S)
  /-- The thief has waited too long for the next command. -/
  | thiefTimeout (s : S)
  /-- `cmdQueueDenyMaster`. -/
  | denyMaster (s : S)
  /-- The next message from a slave to another one arrives. -/
  | message (sender s : S)

namespace World

variable {S : Type} [DecidableEq S] (prefetchMark : S → ℕ) (request : S → ℕ)

def init : World S where
  queueLeft := fun _ => []
  queueRight := fun _ => []
  masterFinished := fun _ => false
  cmdQueue := fun _ => []
  receive := fun _ => false
  messages := fun _ _ => []
  pop := fun _ => none
  results := fun _ => []
  delivered := []

variable (w : World S)

def send (sender s : S) (messages : List Message) : World S :=
  { w with
    messages := Function.update w.messages sender
      (Function.update (w.messages sender) s (w.messages sender s ++ messages)) }

/-- The call of `pop` returns. -/
def finish (s : S) (result : Option Item) : World S :=
  { w with
    pop := Function.update w.pop s none
    results := Function.update w.results s (w.results s ++ [result]) }

/-- `cmdStealItem`, for a request of `thief`. -/
def cmdStealItem (s thief : S) (ratio requestID : ℕ) : World S :=
  let itemsRequested := ratio * (w.queueLeft s).length / 255
  if itemsRequested < 1 then w.send s thief [.deny requestID]
  else
    let items := (w.queueLeft s).take itemsRequested
    { w with queueLeft := Function.update w.queueLeft s ((w.queueLeft s).drop itemsRequested) }.send
      s thief (items.map (fun item => Message.stolen (Item.stolen item)) ++
        if 0 < items.length then [Message.empty items.length] else [])

/-- A turn of the loop of `pop`. -/
def poll (s : S) (timeout time : ℕ) : World S :=
  if w.masterFinished s then
    { w with masterFinished := Function.update w.masterFinished s false }.finish s none
  else
    match w.queueRight s with
    | [] => if timeout ≤ time then w.finish s none else w
    | item :: queue =>
        { w with queueRight := Function.update w.queueRight s queue }.finish s
          (if timeout ≤ time then none else some item)

/-- A turn of the loop of the thief, with a command from its queue. -/
def thief (s : S) (message : Message) : World S :=
  match message with
  | .stolen item =>
      { w with queueLeft := Function.update w.queueLeft s (w.queueLeft s ++ [item]) }
  | .deny requestID =>
      if requestID = request s then { w with receive := Function.update w.receive s false } else w
  | .denyMaster | .empty _ => { w with receive := Function.update w.receive s false }
  | .steal _ _ => w

def step (w : World S) : Event S → Option (World S)
  | .deliverLeft s payload =>
      some { w with
        queueLeft := Function.update w.queueLeft s
          (w.queueLeft s ++ [⟨w.delivered.length, payload⟩])
        delivered := w.delivered ++ [⟨w.delivered.length, payload⟩] }
  | .deliverRight s payload =>
      some { w with
        queueRight := Function.update w.queueRight s
          (w.queueRight s ++ [⟨w.delivered.length, payload⟩])
        delivered := w.delivered ++ [⟨w.delivered.length, payload⟩] }
  | .masterQueueEmpty s =>
      some { w with masterFinished := Function.update w.masterFinished s true }
  | .pop s timeout =>
      match w.pop s with
      | some _ => none
      | none => some { w with pop := Function.update w.pop s (some timeout) }
  | .poll s time => (w.pop s).map (fun timeout => w.poll s timeout time)
  | .attempt s victim =>
      if w.receive s = false ∧ (w.queueLeft s).length ≤ prefetchMark s then
        some ({ w with receive := Function.update w.receive s true }.send s victim
          [.steal 128 (request s)])
      else none
  | .thief s =>
      match w.receive s, w.cmdQueue s with
      | true, message :: queue =>
          some ({ w with cmdQueue := Function.update w.cmdQueue s queue }.thief request s message)
      | _, _ => none
  | .thiefTimeout s =>
      match w.receive s, w.cmdQueue s with
      | true, [] => some { w with receive := Function.update w.receive s false }
      | _, _ => none
  | .denyMaster s =>
      some { w with cmdQueue := Function.update w.cmdQueue s (w.cmdQueue s ++ [.denyMaster]) }
  | .message sender s =>
      match w.messages sender s with
      | [] => none
      | message :: messages =>
          let w' := { w with
            messages := Function.update w.messages sender
              (Function.update (w.messages sender) s messages) }
          match message with
          | .steal ratio requestID => some (w'.cmdStealItem s sender ratio requestID)
          | .stolen _ | .deny _ | .denyMaster | .empty _ =>
              some { w' with cmdQueue := Function.update w.cmdQueue s (w.cmdQueue s ++ [message]) }

inductive Place (S : Type)
  | left (s : S)
  | right (s : S)
  | flight (sender s : S)
  /-- In the queue of the thief. -/
  | thief (s : S)
  | returned (s : S)
  deriving DecidableEq

def carried (messages : List Message) : List ℕ :=
  (messages.filterMap Message.item?).map Item.number

/-- The numbers of the items that calls of `pop` have returned. -/
def popped (results : List (Option Item)) : List ℕ := (results.filterMap id).map Item.number

def contents : Place S → List ℕ
  | .left s => (w.queueLeft s).map Item.number
  | .right s => (w.queueRight s).map Item.number
  | .flight sender s => carried (w.messages sender s)
  | .thief s => carried (w.cmdQueue s)
  | .returned s => popped (w.results s)

section Contents

omit [DecidableEq S] in
theorem carried_append (messages messages' : List Message) :
    carried (messages ++ messages') = carried messages ++ carried messages' := by
  simp only [carried, List.filterMap_append, List.map_append]

theorem carried_stolen (items : List Item) :
    carried (items.map (fun item => Message.stolen (Item.stolen item))) =
      items.map Item.number := by
  induction items with
  | nil => rfl
  | cons item items ih =>
      rw [List.map_cons, List.map_cons, ← ih]
      rfl

theorem contents_queueLeft (s : S) (queue : List Item) :
    contents { w with queueLeft := Function.update w.queueLeft s queue } =
      Function.update w.contents (.left s) (queue.map Item.number) := by
  funext place
  cases place with
  | left t => rcases eq_or_ne t s with rfl | ht <;> simp [contents, *]
  | _ => rfl

theorem contents_queueRight (s : S) (queue : List Item) :
    contents { w with queueRight := Function.update w.queueRight s queue } =
      Function.update w.contents (.right s) (queue.map Item.number) := by
  funext place
  cases place with
  | right t => rcases eq_or_ne t s with rfl | ht <;> simp [contents, *]
  | _ => rfl

theorem contents_cmdQueue (s : S) (queue : List Message) :
    contents { w with cmdQueue := Function.update w.cmdQueue s queue } =
      Function.update w.contents (.thief s) (carried queue) := by
  funext place
  cases place with
  | thief t => rcases eq_or_ne t s with rfl | ht <;> simp [contents, *]
  | _ => rfl

theorem contents_messages (sender s : S) (messages : List Message) :
    contents { w with
      messages := Function.update w.messages sender
        (Function.update (w.messages sender) s messages) } =
      Function.update w.contents (.flight sender s) (carried messages) := by
  funext place
  cases place with
  | flight a b =>
      rcases eq_or_ne a sender with rfl | ha
      · rcases eq_or_ne b s with rfl | hb <;> simp [contents, *]
      · simp [contents, ha]
  | _ => rfl

theorem contents_send (sender s : S) (messages : List Message) :
    (w.send sender s messages).contents =
      Function.update w.contents (.flight sender s)
        (w.contents (.flight sender s) ++ carried messages) := by
  rw [send, contents_messages, carried_append]
  rfl

theorem contents_finish (s : S) (result : Option Item) :
    (w.finish s result).contents =
      Function.update w.contents (.returned s)
        (w.contents (.returned s) ++ popped [result]) := by
  funext place
  cases place with
  | returned t => rcases eq_or_ne t s with rfl | ht <;> simp [contents, finish, popped, *]
  | _ => rfl

end Contents

/-- A call of `pop` that takes an item has time left. -/
def Patient (w : World S) : Event S → Prop
  | .poll s time =>
      w.masterFinished s = true ∨ w.queueRight s = [] ∨ ∀ timeout ∈ w.pop s, time < timeout
  | _ => True

instance (w : World S) (e : Event S) : Decidable (Patient w e) := by
  cases e <;> unfold Patient <;> infer_instance

/-- Each item is in one place, and the items that are not stolen have their data. -/
structure Conserved (w : World S) : Prop where
  located : Located w.delivered.length w.contents
  right : ∀ s, ∀ x ∈ w.queueRight s, w.delivered[x.number]? = some x
  returned : ∀ s x, some x ∈ w.results s → w.delivered[x.number]? = some x

omit [DecidableEq S] in
theorem conserved_init [Nonempty S] : (init : World S).Conserved where
  located := by
    have : Nonempty (Place S) := ⟨.left (Classical.arbitrary S)⟩
    exact located_zero fun place => by cases place <;> rfl
  right := fun _ x hx => absurd hx List.not_mem_nil
  returned := fun _ x hx => absurd hx List.not_mem_nil

namespace Conserved

variable {w w' : World S}

omit [DecidableEq S] in
theorem of_eq (h : w.Conserved) (hcontents : w'.contents = w.contents)
    (hdelivered : w'.delivered = w.delivered) (hright : w'.queueRight = w.queueRight)
    (hresults : w'.results = w.results) : w'.Conserved where
  located := by rw [hcontents, hdelivered]; exact h.located
  right := by rw [hright, hdelivered]; exact h.right
  returned := by rw [hresults, hdelivered]; exact h.returned

omit [DecidableEq S] in
theorem getElem?_deliver {x : Item} (h : w.delivered[x.number]? = some x) (item : Item) :
    (w.delivered ++ [item])[x.number]? = some x := by
  rw [List.getElem?_append_left (List.getElem?_eq_some_iff.1 h).1]
  exact h

theorem deliver_left (h : w.Conserved) (s : S) (payload : List UInt8) :
    Conserved { w with
      queueLeft := Function.update w.queueLeft s
        (w.queueLeft s ++ [⟨w.delivered.length, payload⟩])
      delivered := w.delivered ++ [⟨w.delivered.length, payload⟩] } where
  located := by
    have hlocated := h.located.add_update (.left s)
    rw [List.length_append, List.length_singleton]
    convert hlocated using 1
    refine (contents_queueLeft w s (w.queueLeft s ++ [⟨w.delivered.length, payload⟩])).trans ?_
    rw [List.map_append]
    rfl
  right := fun t x hx => getElem?_deliver (h.right t x hx) _
  returned := fun t x hx => getElem?_deliver (h.returned t x hx) _

theorem deliver_right (h : w.Conserved) (s : S) (payload : List UInt8) :
    Conserved { w with
      queueRight := Function.update w.queueRight s
        (w.queueRight s ++ [⟨w.delivered.length, payload⟩])
      delivered := w.delivered ++ [⟨w.delivered.length, payload⟩] } where
  located := by
    have hlocated := h.located.add_update (.right s)
    rw [List.length_append, List.length_singleton]
    convert hlocated using 1
    refine (contents_queueRight w s (w.queueRight s ++ [⟨w.delivered.length, payload⟩])).trans ?_
    rw [List.map_append]
    rfl
  right := fun t x hx => by
    rcases eq_or_ne t s with rfl | ht
    · simp only [Function.update_self, List.mem_append, List.mem_singleton] at hx
      rcases hx with hx | rfl
      · exact getElem?_deliver (h.right t x hx) _
      · exact List.getElem?_concat_length
    · simp only [Function.update_of_ne ht] at hx
      exact getElem?_deliver (h.right t x hx) _
  returned := fun t x hx => getElem?_deliver (h.returned t x hx) _

theorem masterFinished (h : w.Conserved) (s : S) (b : Bool) :
    Conserved { w with masterFinished := Function.update w.masterFinished s b } :=
  h.of_eq (by funext place; cases place <;> rfl) rfl rfl rfl

theorem receive (h : w.Conserved) (s : S) (b : Bool) :
    Conserved { w with receive := Function.update w.receive s b } :=
  h.of_eq (by funext place; cases place <;> rfl) rfl rfl rfl

theorem send (h : w.Conserved) (sender s : S) {messages : List Message}
    (hcarried : carried messages = []) : (w.send sender s messages).Conserved := by
  refine h.of_eq ?_ rfl rfl rfl
  rw [contents_send, hcarried, List.append_nil, Function.update_eq_self]

/-- An item is moved between places other than a right queue and the results. -/
theorem of_move (h : w.Conserved) {p q : Place S} (hne : p ≠ q) (moved rest : List ℕ)
    (hfrom : w.contents p = moved ++ rest)
    (hcontents : w'.contents =
      Function.update (Function.update w.contents p rest) q (w.contents q ++ moved))
    (hdelivered : w'.delivered = w.delivered) (hright : w'.queueRight = w.queueRight)
    (hresults : w'.results = w.results) : w'.Conserved where
  located := by
    rw [hcontents, hdelivered]
    exact h.located.move_update hne moved rest hfrom
  right := by rw [hright, hdelivered]; exact h.right
  returned := by rw [hresults, hdelivered]; exact h.returned

theorem finish_none (h : w.Conserved) (s : S) : (w.finish s none).Conserved where
  located := by
    rw [contents_finish]
    refine h.located.congr fun place => ?_
    rcases eq_or_ne place (.returned s) with rfl | hplace
    · rw [Function.update_self, popped, List.filterMap_cons_none rfl, List.filterMap_nil,
        List.map_nil, List.append_nil]
    · rw [Function.update_of_ne hplace]
  right := h.right
  returned := fun t x hx => by
    refine h.returned t x ?_
    rcases eq_or_ne t s with rfl | ht
    · simpa [finish] using hx
    · simpa [finish, ht] using hx

theorem finish_some (h : w.Conserved) {s : S} {item : Item} {queue : List Item}
    (hqueue : w.queueRight s = item :: queue) :
    (finish { w with queueRight := Function.update w.queueRight s queue } s
      (some item)).Conserved where
  located := by
    rw [contents_finish, contents_queueRight, Function.update_of_ne (by simp)]
    refine h.located.move_update (p := .right s) (q := .returned s) (by simp)
      [item.number] (queue.map Item.number) ?_
    rw [contents, hqueue]
    rfl
  right := fun t x hx => by
    refine h.right t x ?_
    rcases eq_or_ne t s with rfl | ht
    · rw [hqueue]
      exact List.mem_cons_of_mem _ (by simpa [finish] using hx)
    · simpa [finish, ht] using hx
  returned := fun t x hx => by
    rcases eq_or_ne t s with rfl | ht
    · simp only [finish, Function.update_self, List.mem_append, List.mem_singleton,
        Option.some.injEq] at hx
      rcases hx with hx | rfl
      · exact h.returned t x hx
      · exact h.right t x (hqueue ▸ List.mem_cons_self)
    · simp only [finish, Function.update_of_ne ht] at hx
      exact h.returned t x hx

theorem poll (h : w.Conserved) {s : S} {timeout time : ℕ} (hpop : w.pop s = some timeout)
    (hpatient : w.Patient (.poll s time)) : (w.poll s timeout time).Conserved := by
  unfold World.poll
  by_cases hfinished : w.masterFinished s = true
  · rw [if_pos hfinished]
    exact (h.masterFinished s false).finish_none s
  · rw [if_neg hfinished]
    cases hqueue : w.queueRight s with
    | nil =>
        dsimp only
        split_ifs
        · exact h.finish_none s
        · exact h
    | cons item queue =>
        have htime : time < timeout := by
          rcases hpatient with hmaster | hempty | htimeout
          · exact absurd hmaster hfinished
          · rw [hqueue] at hempty
            cases hempty
          · exact htimeout timeout hpop
        dsimp only
        rw [if_neg (by omega)]
        exact h.finish_some hqueue

theorem cmdStealItem (h : w.Conserved) (s thief : S) (ratio requestID : ℕ) :
    (w.cmdStealItem s thief ratio requestID).Conserved := by
  unfold World.cmdStealItem
  dsimp only
  by_cases hrequested : ratio * (w.queueLeft s).length / 255 < 1
  · rw [if_pos hrequested]
    exact h.send s thief rfl
  · rw [if_neg hrequested]
    refine h.of_move (p := .left s) (q := .flight s thief) (by simp)
      (((w.queueLeft s).take (ratio * (w.queueLeft s).length / 255)).map Item.number)
      (((w.queueLeft s).drop (ratio * (w.queueLeft s).length / 255)).map Item.number)
      ?_ ?_ rfl rfl rfl
    · rw [← List.map_append, List.take_append_drop]
      rfl
    · have hempty (n : ℕ) : carried (if 0 < n then [Message.empty n] else []) = [] := by
        split_ifs <;> rfl
      rw [contents_send, contents_queueLeft, Function.update_of_ne (by simp), carried_append,
        carried_stolen, hempty, List.append_nil]

theorem thief (h : w.Conserved) {s : S} {message : Message} {queue : List Message}
    (hqueue : w.cmdQueue s = message :: queue) :
    (World.thief request { w with cmdQueue := Function.update w.cmdQueue s queue } s
      message).Conserved := by
  have hcarried : w.contents (.thief s) = carried [message] ++ carried queue := by
    rw [← carried_append]
    exact congrArg carried hqueue
  have hskip (hnone : carried [message] = []) :
      Conserved { w with cmdQueue := Function.update w.cmdQueue s queue } := by
    refine h.of_eq ?_ rfl rfl rfl
    rw [contents_cmdQueue]
    exact Function.update_eq_self_iff.2 (by rw [hcarried, hnone, List.nil_append])
  cases message with
  | stolen item =>
      refine h.of_move (p := .thief s) (q := .left s) (by simp) _ _ hcarried ?_ rfl rfl rfl
      refine (contents_queueLeft _ s (w.queueLeft s ++ [item])).trans ?_
      rw [contents_cmdQueue, List.map_append]
      rfl
  | deny requestID =>
      unfold World.thief
      dsimp only
      split_ifs
      · exact (hskip rfl).receive s false
      · exact hskip rfl
  | denyMaster => exact (hskip rfl).receive s false
  | empty delivered => exact (hskip rfl).receive s false
  | steal ratio requestID => exact hskip rfl

theorem queue_message (h : w.Conserved) {sender s : S} {message : Message}
    {messages : List Message} (hmessages : w.messages sender s = message :: messages) :
    Conserved { w with
      messages := Function.update w.messages sender
        (Function.update (w.messages sender) s messages)
      cmdQueue := Function.update w.cmdQueue s (w.cmdQueue s ++ [message]) } := by
  have hcarried : w.contents (.flight sender s) = carried [message] ++ carried messages := by
    rw [← carried_append]
    exact congrArg carried hmessages
  refine h.of_move (p := .flight sender s) (q := .thief s) (by simp) _ _ hcarried ?_ rfl rfl rfl
  refine (contents_cmdQueue
    { w with
      messages := Function.update w.messages sender
        (Function.update (w.messages sender) s messages) } s (w.cmdQueue s ++ [message])).trans ?_
  rw [contents_messages, carried_append]
  rfl

theorem step (h : w.Conserved) {e : Event S} (hpatient : w.Patient e)
    (hstep : World.step prefetchMark request w e = some w') : w'.Conserved := by
  cases e with
  | deliverLeft s payload =>
      cases hstep
      exact h.deliver_left s payload
  | deliverRight s payload =>
      cases hstep
      exact h.deliver_right s payload
  | masterQueueEmpty s =>
      cases hstep
      exact h.masterFinished s true
  | pop s timeout =>
      rw [World.step] at hstep
      split at hstep
      · cases hstep
      · cases hstep
        exact h.of_eq (by funext place; cases place <;> rfl) rfl rfl rfl
  | poll s time =>
      obtain ⟨timeout, hpop, rfl⟩ := Option.map_eq_some_iff.1 hstep
      exact h.poll hpop hpatient
  | attempt s victim =>
      rw [World.step] at hstep
      split_ifs at hstep
      cases hstep
      exact (h.receive s true).send s victim rfl
  | thief s =>
      rw [World.step] at hstep
      split at hstep
      · rename_i hreceive hqueue
        cases hstep
        exact h.thief request hqueue
      · cases hstep
  | thiefTimeout s =>
      rw [World.step] at hstep
      split at hstep
      · cases hstep
        exact h.receive s false
      · cases hstep
  | denyMaster s =>
      cases hstep
      refine h.of_eq ?_ rfl rfl rfl
      rw [contents_cmdQueue, carried_append]
      exact Function.update_eq_self_iff.2 (List.append_nil _)
  | message sender s =>
      rw [World.step] at hstep
      split at hstep
      · cases hstep
      · rename_i message messages hmessages
        cases message with
        | steal ratio requestID =>
            cases hstep
            refine cmdStealItem (w := { w with
              messages := Function.update w.messages sender
                (Function.update (w.messages sender) s messages) })
              (h.of_eq ?_ rfl rfl rfl) s sender ratio requestID
            rw [contents_messages]
            exact Function.update_eq_self_iff.2 (congrArg carried hmessages).symm
        | stolen item => cases hstep; exact h.queue_message hmessages
        | deny requestID => cases hstep; exact h.queue_message hmessages
        | denyMaster => cases hstep; exact h.queue_message hmessages
        | empty delivered => cases hstep; exact h.queue_message hmessages

end Conserved

variable {w : World S}

/-- If no call of `pop` times out when it has taken an item, then each delivered item is in one
place, with a slave, on the way between two slaves or returned by one call, and calls return items
with the data that were delivered. -/
theorem stealing_conservation [Nonempty S] {es : List (Event S)}
    (hok : Machine.Steps (World.step prefetchMark request) Patient init es)
    (hrun : Machine.run (World.step prefetchMark request) init es = some w) :
    (∀ n < w.delivered.length, ∃! place, n ∈ w.contents place) ∧
    (∀ place, (w.contents place).Nodup) ∧
    ∀ s x, some x ∈ w.results s → w.delivered[x.number]? = some x := by
  have h : w.Conserved := Machine.run_invariant Conserved
    (fun _ _ _ h hok hstep => h.step prefetchMark request hok hstep) conserved_init hok hrun
  exact ⟨fun n hn => h.located.existsUnique hn, h.located.nodup, h.returned⟩

/-- A slave pops one item, while another one is stolen from it. -/
theorem stealing_conservation_two : ∃ w : World ℕ,
    Machine.run (World.step (fun _ => 1) (fun s => s)) init
        [.deliverRight 0 [1], .deliverLeft 0 [2], .deliverLeft 0 [3], .attempt 1 0, .pop 0 10,
          .message 1 0, .poll 0 5, .message 0 1, .thief 1] = some w ∧
      w.results 0 = [some ⟨0, [1]⟩] ∧ w.contents (.left 1) = [1] ∧
      ∃! place, 1 ∈ w.contents place := by
  have h : (Machine.run (World.step (fun _ => 1) (fun s => s)) (init : World ℕ)
      [.deliverRight 0 [1], .deliverLeft 0 [2], .deliverLeft 0 [3], .attempt 1 0, .pop 0 10,
        .message 1 0, .poll 0 5, .message 0 1, .thief 1]).map
        (fun w => decide (w.results 0 = [some ⟨0, [1]⟩] ∧ w.contents (.left 1) = [1] ∧
          w.delivered.length = 3)) = some true := by
    decide +kernel
  obtain ⟨w, hrun, hw⟩ := Option.map_eq_some_iff.1 h
  obtain ⟨hresults, hleft, hlength⟩ := of_decide_eq_true hw
  have hplaces := (stealing_conservation (fun _ => 1) (fun s => s) (by decide +kernel) hrun).1
  exact ⟨w, hrun, hresults, hleft, hplaces 1 (by omega)⟩

/-- A call of `pop` takes the item and times out. The item is nowhere. -/
theorem pop_loses_item : ∃ w : World ℕ,
    Machine.run (World.step (fun _ => 1) (fun s => s)) init
        [.deliverRight 0 [1], .pop 0 0, .poll 0 0] = some w ∧
      0 < w.delivered.length ∧ ∀ place, 0 ∉ w.contents place := by
  refine ⟨_, rfl, by decide, fun place => ?_⟩
  cases place with
  | right s =>
      rcases eq_or_ne s 0 with rfl | hs <;> simp [contents, World.poll, finish, init, *]
  | returned s =>
      rcases eq_or_ne s 0 with rfl | hs <;> simp [contents, World.poll, finish, init, popped, *]
  | _ => exact List.not_mem_nil

end World

end Collage.Stealing
