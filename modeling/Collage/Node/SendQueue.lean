import Mathlib.Algebra.Order.Ring.Int
import Collage.Lib.Run

/-!
# Objects that are sent when they are registered

The send queue of `objectStore.cpp`. The command thread holds the objects that were registered while
sending is enabled, and sends the instance data of one of them each time it is idle. Objects are
given by their address. A registration carries the address in its command; a deregistration carries
the identifier of a request, and waits until this request is served.
-/

namespace Collage.SendQueue

structure Config where
  /-- `IATTR_NODE_SEND_QUEUE_SIZE`. -/
  queueSize : ℕ
  /-- `IATTR_NODE_SEND_QUEUE_AGE`. -/
  queueAge : ℤ

structure Item where
  age : ℤ
  object : ℕ
  deriving DecidableEq, Repr

inductive Command
  | register (object : ℕ)
  | deregister (requestID : ℕ)
  | disableSendOnRegister (requestID : ℕ)
  deriving DecidableEq, Repr

def Command.requestID : Command → Option ℕ
  | .register _ => none
  | .deregister requestID => some requestID
  | .disableSendOnRegister requestID => some requestID

structure Store where
  sendOnRegister : ℤ
  sendQueue : List Item
  /-- The commands to the command thread. -/
  commands : List Command
  /-- The requests that are not served, with their data. -/
  requests : List (ℕ × Option ℕ)
  nextRequest : ℕ
  /-- The attached masters. -/
  registered : List ℕ
  /-- The objects in `deregister`, each with the request it waits for. -/
  leaving : List (ℕ × ℕ)
  deriving DecidableEq, Repr

inductive Event
  | register (object : ℕ)
  /-- `deregister`, up to the wait. -/
  | deregister (object : ℕ)
  /-- `deregister`, from the wait on. -/
  | detach (object requestID : ℕ)
  | enableSendOnRegister
  | disableSendOnRegister
  /-- The command thread handles a command. -/
  | handle (now : ℤ)
  /-- The command thread is idle; the node is connected to others or not. -/
  | idle (now : ℤ) (connected : Bool)
  deriving DecidableEq, Repr

namespace Store

variable (cfg : Config) (st : Store)

def start : Store := ⟨0, [], [], [], 0, [], []⟩

/-- `registerRequest< void >( data )`. -/
def registerRequest (data : Option ℕ) : Store :=
  { st with requests := st.requests ++ [(st.nextRequest, data)], nextRequest := st.nextRequest + 1 }

def getRequestData (requestID : ℕ) : Option ℕ :=
  ((st.requests.find? (fun r => r.1 = requestID)).map Prod.snd).join

def serveRequest (requestID : ℕ) : Store :=
  { st with requests := st.requests.filter (fun r => r.1 ≠ requestID) }

def send (command : Command) : Store := { st with commands := st.commands ++ [command] }

def register (object : ℕ) : Store :=
  let st' := { st with registered := object :: st.registered }
  if 0 < cfg.queueSize then st'.send (.register object) else st'

/-- The object is detached, and `deregister` returns. -/
def detach (object : ℕ) : Store :=
  { st with
    registered := st.registered.filter (· ≠ object)
    leaving := st.leaving.filter (fun p => p.1 ≠ object) }

def deregister (object : ℕ) : Store :=
  if 0 < cfg.queueSize then
    { (st.registerRequest none).send (.deregister st.nextRequest) with
      leaving := st.leaving ++ [(object, st.nextRequest)] }
  else st.detach object

def disableSendOnRegister : Store :=
  if 0 < cfg.queueSize then
    (st.registerRequest none).send (.disableSendOnRegister st.nextRequest)
  else { st with sendOnRegister := st.sendOnRegister - 1 }

def cmdRegister (now : ℤ) (object : ℕ) : Store :=
  if st.sendOnRegister ≤ 0 then st
  else
    let age := if cfg.queueAge = 0 then 2 ^ 63 - 1 else cfg.queueAge + now
    let queue := st.sendQueue ++ [⟨age, object⟩]
    { st with sendQueue := queue.drop (queue.length - cfg.queueSize) }

def cmdDeregister (requestID : ℕ) : Store :=
  let object := st.getRequestData requestID
  { st with
    sendQueue := st.sendQueue.eraseP (fun i => some i.object = object) }.serveRequest requestID

def cmdDisableSendOnRegister (requestID : ℕ) : Store :=
  { st with
    sendOnRegister := st.sendOnRegister - 1
    sendQueue := if st.sendOnRegister - 1 = 0 then [] else st.sendQueue }.serveRequest requestID

/-- The object `notifyCommandThreadIdle` sends the instance data of. -/
def sends (now : ℤ) (connected : Bool) : Option ℕ :=
  match st.sendQueue with
  | [] => none
  | item :: _ => if now < item.age ∧ connected then some item.object else none

def notifyCommandThreadIdle (now : ℤ) (connected : Bool) : Store :=
  match st.sendQueue with
  | [] => st
  | item :: queue =>
      if now < item.age ∧ connected = false then st else { st with sendQueue := queue }

def handle (now : ℤ) : Command → Store
  | .register object => st.cmdRegister cfg now object
  | .deregister requestID => st.cmdDeregister requestID
  | .disableSendOnRegister requestID => st.cmdDisableSendOnRegister requestID

def step : Event → Option Store
  | .register object =>
      if object ∈ st.registered then none else some (st.register cfg object)
  | .deregister object =>
      if object ∉ st.registered then some st
      else if object ∈ st.leaving.map Prod.fst then none
      else some (st.deregister cfg object)
  | .detach object requestID =>
      if (object, requestID) ∈ st.leaving ∧ requestID ∉ st.requests.map Prod.fst then
        some (st.detach object)
      else none
  | .enableSendOnRegister => some { st with sendOnRegister := st.sendOnRegister + 1 }
  | .disableSendOnRegister => some (st.disableSendOnRegister cfg)
  | .handle now =>
      match st.commands with
      | [] => none
      | command :: commands => some ({ st with commands := commands }.handle cfg now command)
  | .idle now connected => some (st.notifyCommandThreadIdle now connected)

/-- When a deregistration is handled, the object is not in the queue any more. -/
def Sent (st : Store) : Event → Prop
  | .handle _ => ∀ p ∈ st.leaving, st.commands.head? = some (.deregister p.2) →
      ∀ i ∈ st.sendQueue, i.object ≠ p.1
  | _ => True

instance (st : Store) : (e : Event) → Decidable (st.Sent e)
  | .handle _ => inferInstanceAs (Decidable (∀ p ∈ st.leaving, _ → ∀ i ∈ st.sendQueue, _))
  | .register _ => isTrue trivial
  | .deregister _ => isTrue trivial
  | .detach _ _ => isTrue trivial
  | .enableSendOnRegister => isTrue trivial
  | .disableSendOnRegister => isTrue trivial
  | .idle _ _ => isTrue trivial

/-- What the command thread knows of the objects is of those that are registered. -/
structure Live (cfg : Config) (st : Store) : Prop where
  queued : ∀ i ∈ st.sendQueue, i.object ∈ st.registered
  coming : ∀ o, .register o ∈ st.commands → o ∈ st.registered
  leaving : ∀ p ∈ st.leaving, p.1 ∈ st.registered
  /-- An object is registered before it is deregistered. -/
  order : st.commands.Pairwise
    (fun c c' => ∀ p ∈ st.leaving, c = .deregister p.2 → c' ≠ .register p.1)
  /-- A deregistration that was handled left nothing of its object. -/
  served : ∀ p ∈ st.leaving, p.2 ∉ st.requests.map Prod.fst →
    (∀ i ∈ st.sendQueue, i.object ≠ p.1) ∧ .register p.1 ∉ st.commands
  other : ∀ id, .disableSendOnRegister id ∈ st.commands → ∀ p ∈ st.leaving, p.2 ≠ id
  fresh : (∀ p ∈ st.leaving, p.2 < st.nextRequest) ∧
    ∀ c ∈ st.commands, ∀ id ∈ c.requestID, id < st.nextRequest
  unused : cfg.queueSize = 0 → st.sendQueue = [] ∧ ∀ o, .register o ∉ st.commands

variable {cfg : Config} {st st' : Store}

theorem live_start (cfg : Config) : start.Live cfg where
  queued := fun _ hi => absurd hi List.not_mem_nil
  coming := fun _ ho => absurd ho List.not_mem_nil
  leaving := fun _ hp => absurd hp List.not_mem_nil
  order := List.Pairwise.nil
  served := fun _ hp => absurd hp List.not_mem_nil
  other := fun _ hid => absurd hid List.not_mem_nil
  fresh := ⟨fun _ hp => absurd hp List.not_mem_nil, fun _ hc => absurd hc List.not_mem_nil⟩
  unused := fun _ => ⟨rfl, fun _ ho => absurd ho List.not_mem_nil⟩

theorem Live.register (h : st.Live cfg) {object : ℕ} (hnew : object ∉ st.registered) :
    (st.register cfg object).Live cfg := by
  have hleaving : ∀ p ∈ st.leaving, p.1 ≠ object := by
    rintro p hp rfl
    exact hnew (h.leaving p hp)
  have hregistered : Live cfg { st with registered := object :: st.registered } :=
    ⟨fun i hi => List.mem_cons_of_mem _ (h.queued i hi),
      fun o ho => List.mem_cons_of_mem _ (h.coming o ho),
      fun p hp => List.mem_cons_of_mem _ (h.leaving p hp), h.order, h.served, h.other, h.fresh,
      h.unused⟩
  unfold Store.register
  split_ifs with hsize
  · refine ⟨hregistered.queued, fun o ho => ?_, hregistered.leaving, ?_, fun p hp hserved => ?_,
      fun id hid => ?_, ⟨h.fresh.1, fun c hc id hid => ?_⟩, fun hzero => absurd hzero hsize.ne'⟩
    · rcases List.mem_append.1 ho with ho | ho
      · exact hregistered.coming o ho
      · cases List.mem_singleton.1 ho
        exact List.mem_cons_self
    · refine List.pairwise_append.2 ⟨h.order, List.pairwise_singleton _ _, ?_⟩
      intro c _ c' hc' p hp _ heq
      rw [List.mem_singleton.1 hc'] at heq
      cases heq
      exact hleaving p hp rfl
    · obtain ⟨hitems, hcommands⟩ := h.served p hp hserved
      refine ⟨hitems, fun hmem => ?_⟩
      rcases List.mem_append.1 hmem with hmem | hmem
      · exact hcommands hmem
      · cases List.mem_singleton.1 hmem
        exact hleaving p hp rfl
    · rcases List.mem_append.1 hid with hid | hid
      · exact h.other id hid
      · cases List.mem_singleton.1 hid
    · rcases List.mem_append.1 hc with hc | hc
      · exact h.fresh.2 c hc id hid
      · rw [List.mem_singleton.1 hc] at hid
        cases hid
  · exact hregistered

/-- Items only go. -/
theorem Live.of_sendQueue_subset (h : st.Live cfg) {queue : List Item}
    (hqueue : queue ⊆ st.sendQueue) : Live cfg { st with sendQueue := queue } :=
  ⟨fun i hi => h.queued i (hqueue hi), h.coming, h.leaving, h.order,
    fun p hp hserved => ⟨fun i hi => (h.served p hp hserved).1 i (hqueue hi),
      (h.served p hp hserved).2⟩, h.other, h.fresh,
    fun hzero => ⟨List.eq_nil_of_subset_nil ((h.unused hzero).1 ▸ hqueue), (h.unused hzero).2⟩⟩

theorem Live.register_request (h : st.Live cfg) {command : Command}
    (hcommand : command = .deregister st.nextRequest ∨
      command = .disableSendOnRegister st.nextRequest) :
    ((st.registerRequest none).send command).Live cfg := by
  have hregister : ∀ o, command ≠ .register o := by
    rintro o rfl
    rcases hcommand with hc | hc <;> cases hc
  have hold {o : ℕ} (ho : .register o ∈ st.commands ++ [command]) : .register o ∈ st.commands :=
    (List.mem_append.1 ho).resolve_right
      (fun hmem => hregister o (List.mem_singleton.1 hmem).symm)
  refine ⟨h.queued, fun o ho => h.coming o (hold ho), h.leaving, ?_, fun p hp hserved => ?_,
    fun id hid p hp => ?_, ⟨fun p hp => ?_, fun c hc id hid => ?_⟩,
    fun hzero => ⟨(h.unused hzero).1, fun o ho => (h.unused hzero).2 o (hold ho)⟩⟩
  · refine List.pairwise_append.2 ⟨h.order, List.pairwise_singleton _ _, ?_⟩
    intro c _ c' hc' p _ _ heq
    exact hregister p.1 ((List.mem_singleton.1 hc').symm.trans heq)
  · have hunserved : p.2 ∉ st.requests.map Prod.fst := by
      refine fun hmem => hserved ?_
      exact List.map_append ▸ List.mem_append_left _ hmem
    exact ⟨(h.served p hp hunserved).1, fun ho => (h.served p hp hunserved).2 (hold ho)⟩
  · rcases List.mem_append.1 hid with hid | hid
    · exact h.other id hid p hp
    · have hlt := h.fresh.1 p hp
      rcases hcommand with hc | hc
      · cases (List.mem_singleton.1 hid).trans hc
      · cases (List.mem_singleton.1 hid).trans hc
        exact hlt.ne
  · exact (h.fresh.1 p hp).trans (Nat.lt_succ_self _)
  · rcases List.mem_append.1 hc with hc | hc
    · exact (h.fresh.2 c hc id hid).trans (Nat.lt_succ_self _)
    · rw [List.mem_singleton.1 hc] at hid
      rcases hcommand with rfl | rfl
      · cases hid
        exact Nat.lt_succ_self _
      · cases hid
        exact Nat.lt_succ_self _

theorem Live.detach (h : st.Live cfg) {object : ℕ} (hqueue : ∀ i ∈ st.sendQueue, i.object ≠ object)
    (hcommands : .register object ∉ st.commands) : (st.detach object).Live cfg := by
  have hleaving {p : ℕ × ℕ} (hp : p ∈ (st.detach object).leaving) :
      p ∈ st.leaving ∧ p.1 ≠ object := by
    obtain ⟨hp, hne⟩ := List.mem_filter.1 hp
    exact ⟨hp, of_decide_eq_true hne⟩
  have hregistered {o : ℕ} (ho : o ∈ st.registered) (hne : o ≠ object) :
      o ∈ (st.detach object).registered := List.mem_filter.2 ⟨ho, decide_eq_true hne⟩
  refine ⟨fun i hi => hregistered (h.queued i hi) (hqueue i hi), fun o ho => ?_, fun p hp => ?_, ?_,
    fun p hp => h.served p (hleaving hp).1, fun id hid p hp => h.other id hid p (hleaving hp).1,
    ⟨fun p hp => h.fresh.1 p (hleaving hp).1, h.fresh.2⟩, h.unused⟩
  · refine hregistered (h.coming o ho) ?_
    rintro rfl
    exact hcommands ho
  · exact hregistered (h.leaving p (hleaving hp).1) (hleaving hp).2
  · exact h.order.imp (fun hcc p hp => hcc p (hleaving hp).1)

theorem Live.deregister (h : st.Live cfg) {object : ℕ} (hobject : object ∈ st.registered) :
    (st.deregister cfg object).Live cfg := by
  unfold Store.deregister
  split_ifs with hsize
  · have hrequest : ((st.registerRequest none).send (.deregister st.nextRequest)).Live cfg :=
      h.register_request (Or.inl rfl)
    have hfresh {c : Command} (hc : c ∈ st.commands) : st.nextRequest ∉ c.requestID :=
      fun hid => lt_irrefl _ (h.fresh.2 c hc _ hid)
    have hcases {p : ℕ × ℕ} (hp : p ∈ st.leaving ++ [(object, st.nextRequest)]) :
        p ∈ st.leaving ∨ p = (object, st.nextRequest) :=
      (List.mem_append.1 hp).imp_right List.mem_singleton.1
    refine ⟨hrequest.queued, hrequest.coming, fun p hp => ?_, ?_, fun p hp hserved => ?_,
      fun id hid p hp => ?_, ⟨fun p hp => ?_, hrequest.fresh.2⟩, hrequest.unused⟩
    · rcases hcases hp with hp | rfl
      · exact h.leaving p hp
      · exact hobject
    · refine List.pairwise_append.2 ⟨?_, List.pairwise_singleton _ _, ?_⟩
      · refine h.order.imp_of_mem (fun hc _ hcc p hp heq => ?_)
        rcases hcases hp with hp | rfl
        · exact hcc p hp heq
        · rw [heq] at hc
          exact absurd rfl (hfresh hc)
      · intro c _ c' hc' p _ _ heq
        cases (List.mem_singleton.1 hc').symm.trans heq
    · rcases hcases hp with hp | rfl
      · exact hrequest.served p hp hserved
      · refine absurd ?_ hserved
        exact List.map_append ▸ List.mem_append_right _ List.mem_cons_self
    · rcases hcases hp with hp | rfl
      · exact hrequest.other id hid p hp
      · rcases List.mem_append.1 hid with hid | hid
        · rintro rfl
          exact absurd rfl (hfresh hid)
        · cases List.mem_singleton.1 hid
    · rcases hcases hp with hp | rfl
      · exact hrequest.fresh.1 p hp
      · exact Nat.lt_succ_self _
  · obtain ⟨hqueue, hcommands⟩ := h.unused (Nat.eq_zero_of_not_pos hsize)
    refine h.detach (fun i hi => ?_) (hcommands object)
    rw [hqueue] at hi
    cases hi

theorem Live.tail (h : st.Live cfg) {command : Command} {commands : List Command}
    (hcommands : st.commands = command :: commands) :
    Live cfg { st with commands := commands } := by
  have hmem {c : Command} (hc : c ∈ commands) : c ∈ st.commands := by
    rw [hcommands]
    exact List.mem_cons_of_mem _ hc
  have horder := h.order
  rw [hcommands] at horder
  exact ⟨h.queued, fun o ho => h.coming o (hmem ho), h.leaving, (List.pairwise_cons.1 horder).2,
    fun p hp hserved => ⟨(h.served p hp hserved).1, fun ho => (h.served p hp hserved).2 (hmem ho)⟩,
    fun id hid => h.other id (hmem hid), ⟨h.fresh.1, fun c hc => h.fresh.2 c (hmem hc)⟩,
    fun hzero => ⟨(h.unused hzero).1, fun o ho => (h.unused hzero).2 o (hmem ho)⟩⟩

theorem Live.serve_request (h : st.Live cfg) {id : ℕ}
    (hserved : ∀ p ∈ st.leaving, p.2 = id →
      (∀ i ∈ st.sendQueue, i.object ≠ p.1) ∧ .register p.1 ∉ st.commands) :
    (st.serveRequest id).Live cfg := by
  refine ⟨h.queued, h.coming, h.leaving, h.order, fun p hp hnone => ?_, h.other, h.fresh, h.unused⟩
  rcases eq_or_ne p.2 id with heq | hne
  · exact hserved p hp heq
  · refine h.served p hp (fun hmem => hnone ?_)
    obtain ⟨r, hr, hid⟩ := List.mem_map.1 hmem
    refine List.mem_map.2 ⟨r, List.mem_filter.2 ⟨hr, decide_eq_true ?_⟩, hid⟩
    rw [hid]
    exact hne

theorem Live.push_items (h : st.Live cfg) {object : ℕ} {commands : List Command}
    (hcommands : st.commands = .register object :: commands) (age : ℤ) :
    Live cfg { st with commands := commands, sendQueue := st.sendQueue ++ [⟨age, object⟩] } := by
  have hregister : .register object ∈ st.commands := by
    rw [hcommands]
    exact List.mem_cons_self
  have hcases {i : Item} (hi : i ∈ st.sendQueue ++ [⟨age, object⟩]) :
      i ∈ st.sendQueue ∨ i.object = object := by
    refine (List.mem_append.1 hi).imp_right (fun hi => ?_)
    rw [List.mem_singleton.1 hi]
  have htail := h.tail hcommands
  refine ⟨fun i hi => ?_, htail.coming, htail.leaving, htail.order, fun p hp hserved => ?_,
    htail.other, htail.fresh, fun hzero => absurd hregister ((h.unused hzero).2 object)⟩
  · rcases hcases hi with hi | hi
    · exact h.queued i hi
    · rw [hi]
      exact h.coming object hregister
  · obtain ⟨hitems, hnone⟩ := h.served p hp hserved
    refine ⟨fun i hi heq => ?_, (htail.served p hp hserved).2⟩
    rcases hcases hi with hi | hi
    · exact hitems i hi heq
    · rw [← heq, hi] at hnone
      exact hnone hregister

theorem Live.cmdRegister (h : st.Live cfg) {object : ℕ} {commands : List Command}
    (hcommands : st.commands = .register object :: commands) (now : ℤ) :
    (Store.cmdRegister cfg { st with commands := commands } now object).Live cfg := by
  unfold Store.cmdRegister
  by_cases hdisabled : st.sendOnRegister ≤ 0
  · rw [if_pos hdisabled]
    exact h.tail hcommands
  · rw [if_neg hdisabled]
    exact (h.push_items hcommands _).of_sendQueue_subset (List.drop_subset _ _)

theorem Live.handle (h : st.Live cfg) {command : Command} {commands : List Command} (now : ℤ)
    (hcommands : st.commands = command :: commands) (hsent : st.Sent (.handle now)) :
    (Store.handle cfg { st with commands := commands } now command).Live cfg := by
  have htail := h.tail hcommands
  cases command with
  | register object => exact h.cmdRegister hcommands now
  | deregister id =>
      refine Live.serve_request (htail.of_sendQueue_subset List.eraseP_subset)
        (fun p hp hid => ⟨fun i hi => ?_, ?_⟩)
      · refine hsent p hp ?_ i (List.eraseP_subset hi)
        rw [hcommands, hid]
        rfl
      · have horder := h.order
        rw [hcommands] at horder
        exact fun hmem => (List.pairwise_cons.1 horder).1 _ hmem p hp (by rw [hid]) rfl
  | disableSendOnRegister id =>
      have hqueue : (if st.sendOnRegister - 1 = 0 then [] else st.sendQueue) ⊆ st.sendQueue := by
        split_ifs
        · exact List.nil_subset _
        · exact List.Subset.refl _
      have hshrunk : Live cfg { st with
          sendOnRegister := st.sendOnRegister - 1
          commands := commands
          sendQueue := if st.sendOnRegister - 1 = 0 then [] else st.sendQueue } := by
        have hlive := htail.of_sendQueue_subset hqueue
        exact ⟨hlive.queued, hlive.coming, hlive.leaving, hlive.order, hlive.served, hlive.other,
          hlive.fresh, hlive.unused⟩
      refine hshrunk.serve_request (fun p hp hid => absurd hid ?_)
      refine h.other id ?_ p hp
      rw [hcommands]
      exact List.mem_cons_self

theorem Live.step (h : st.Live cfg) {e : Event} (hsent : st.Sent e)
    (hstep : st.step cfg e = some st') : st'.Live cfg := by
  cases e with
  | register object =>
      obtain ⟨hnew, heq⟩ := Option.ite_none_left_eq_some.1 hstep
      obtain rfl := Option.some.inj heq
      exact h.register hnew
  | deregister object =>
      simp only [Store.step] at hstep
      by_cases hobject : object ∈ st.registered
      · rw [if_neg (not_not.2 hobject)] at hstep
        obtain ⟨-, heq⟩ := Option.ite_none_left_eq_some.1 hstep
        obtain rfl := Option.some.inj heq
        exact h.deregister hobject
      · rw [if_pos hobject] at hstep
        obtain rfl := Option.some.inj hstep
        exact h
  | detach object id =>
      obtain ⟨⟨hleaving, hserved⟩, heq⟩ := Option.ite_none_right_eq_some.1 hstep
      obtain rfl := Option.some.inj heq
      obtain ⟨hqueue, hcommands⟩ := h.served _ hleaving hserved
      exact h.detach hqueue hcommands
  | enableSendOnRegister =>
      obtain rfl := Option.some.inj hstep
      exact ⟨h.queued, h.coming, h.leaving, h.order, h.served, h.other, h.fresh, h.unused⟩
  | disableSendOnRegister =>
      obtain rfl := Option.some.inj hstep
      unfold Store.disableSendOnRegister
      split_ifs
      · exact h.register_request (Or.inr rfl)
      · exact ⟨h.queued, h.coming, h.leaving, h.order, h.served, h.other, h.fresh, h.unused⟩
  | handle now =>
      simp only [Store.step] at hstep
      cases hcommands : st.commands with
      | nil =>
          rw [hcommands] at hstep
          cases hstep
      | cons command commands =>
          rw [hcommands] at hstep
          obtain rfl := Option.some.inj hstep
          exact h.handle now hcommands hsent
  | idle now connected =>
      obtain rfl := Option.some.inj hstep
      unfold notifyCommandThreadIdle
      cases hqueue : st.sendQueue with
      | nil => exact h
      | cons item queue =>
          simp only
          split_ifs
          · exact h
          · refine h.of_sendQueue_subset ?_
            rw [hqueue]
            exact List.subset_cons_self _ _

/-- If each object has left the queue when its deregistration is handled, the queue holds only
registered objects, and only these are sent. -/
theorem queue_registered {cfg : Config} {events : List Event} {st : Store}
    (hsent : Machine.Steps (step cfg) Sent start events)
    (hrun : Machine.run (step cfg) start events = some st) :
    (∀ i ∈ st.sendQueue, i.object ∈ st.registered) ∧
      ∀ now connected object, st.sends now connected = some object → object ∈ st.registered := by
  have hlive : st.Live cfg := Machine.run_invariant (Live cfg)
    (fun _ _ _ h hs hstep => h.step hs hstep) (live_start cfg) hsent hrun
  refine ⟨hlive.queued, fun now connected object hsends => ?_⟩
  unfold sends at hsends
  cases hqueue : st.sendQueue with
  | nil =>
      rw [hqueue] at hsends
      cases hsends
  | cons item queue =>
      rw [hqueue] at hsends
      obtain ⟨-, heq⟩ := Option.ite_none_right_eq_some.1 hsends
      rw [← Option.some.inj heq]
      refine hlive.queued item ?_
      rw [hqueue]
      exact List.mem_cons_self

/-- An object is sent before it is deregistered, while another one stays in the queue. -/
theorem queue_registered_of_sent : ∃ st,
    Machine.run (step ⟨8, 0⟩) start [.enableSendOnRegister, .register 7, .register 9, .handle 0,
      .handle 0, .idle 0 true, .deregister 7, .handle 0, .detach 7 0] = some st ∧
    st.sends 0 true = some 9 ∧ 9 ∈ st.registered := by
  have hsent : Machine.Steps (step ⟨8, 0⟩) Sent start [.enableSendOnRegister, .register 7,
      .register 9, .handle 0, .handle 0, .idle 0 true, .deregister 7, .handle 0, .detach 7 0] := by
    decide
  refine ⟨_, rfl, rfl, ?_⟩
  exact (queue_registered hsent rfl).2 0 true 9 rfl

/-- An object is registered and deregistered, and then sent. -/
theorem queue_dangling : ∃ st,
    Machine.run (step ⟨8, 0⟩) start [.enableSendOnRegister, .register 7, .handle 0, .deregister 7,
      .handle 0, .detach 7 0] = some st ∧
    st.sends 0 true = some 7 ∧ 7 ∉ st.registered := by
  exact ⟨_, rfl, rfl, List.not_mem_nil⟩

end Store

end Collage.SendQueue
