import Mathlib.Algebra.Ring.Nat
import Mathlib.Data.List.Nodup
import Mathlib.Order.Nat
import Collage.Lib.Run

/-!
# Work queues

A queue master hands out items to queue slaves that ask for them (`queueMaster.cpp` with
`randomDistributor.cpp`, `queueSlave.cpp`). A slave asks for several items before its queue is empty,
and takes the reply that the master has none only if it carries the number of its own request. Items
are numbered here in the order in which they are pushed.
-/

namespace Collage.Queue

structure Item where
  number : ℕ
  data : List UInt8
  deriving DecidableEq

/-- The request of a call of `pop`. Commands carry its number, from a static `int32` of the process;
the call of the slave that it is of is not sent. -/
structure Request where
  number : BitVec 32
  call : ℕ
  deriving DecidableEq

/-- `CMD_QUEUE_ITEM` and `CMD_QUEUE_EMPTY`. -/
inductive Message
  | item (item : Item)
  | empty (request : Request)
  deriving DecidableEq

def Message.item? : Message → Option Item
  | .item x => some x
  | .empty _ => none

def Message.request? : Message → Option Request
  | .item _ => none
  | .empty request => some request

/-- What a call of `pop` returns. -/
inductive Result
  | item (item : Item)
  | empty
  | timeout
  deriving DecidableEq

def Result.item? : Result → Option Item
  | .item x => some x
  | .empty | .timeout => none

/-- A call of `pop`, at the head of its loop or waiting for a command. -/
structure Pop where
  request : Request
  waiting : Bool
  deriving DecidableEq

/-- A request that was served: how many items the slave was handed by then, and how many were left. -/
structure Served where
  request : Request
  handed : ℕ
  remaining : ℕ
  deriving DecidableEq

/-- A queue master and its slaves. -/
structure World (S : Type) where
  /-- The queue of the distributor. -/
  items : List Item
  /-- `CMD_QUEUE_GET_ITEM`, with the amount and the request. -/
  requests : S → List (ℕ × Request)
  replies : S → List Message
  queue : S → List Message
  pop : S → Option Pop
  /-- The static counter of each process. -/
  counter : ℕ → BitVec 32
  /-- The number of calls of `pop` of each slave. -/
  calls : S → ℕ
  pushed : List Item
  /-- The items that were handed out, in this order. -/
  handed : List (S × Item)
  served : S → List Served
  results : S → List (Request × Result)

inductive Event (S : Type)
  | push (data : List UInt8)
  /-- `cmdGetItem`. -/
  | serve (s : S)
  /-- A reply is put into the queue of the slave. -/
  | deliver (s : S)
  /-- `pop` is called. -/
  | pop (s : S)
  /-- The head of the loop of `pop`. -/
  | ask (s : S)
  /-- A command is taken from the queue. -/
  | take (s : S)
  | timeout (s : S)

namespace World

variable {S : Type} [DecidableEq S] (prefetchMark prefetchAmount process : S → ℕ)

def init : World S where
  items := []
  requests := fun _ => []
  replies := fun _ => []
  queue := fun _ => []
  pop := fun _ => none
  counter := fun _ => 0
  calls := fun _ => 0
  pushed := []
  handed := []
  served := fun _ => []
  results := fun _ => []

variable (w : World S)

def handedTo (s : S) : List Item := (w.handed.filter (fun h => decide (h.1 = s))).map Prod.snd

/-- The items that were returned by the calls of `pop` of a slave. -/
def returned (s : S) : List Item := (w.results s).filterMap (fun r => r.2.item?)

def cmdGetItem (s : S) (amount : ℕ) (request : Request) : World S :=
  let taken := (w.items.take amount).filter (fun item => decide (item.data ≠ []))
  let rest := w.items.drop amount
  { w with
    items := rest
    replies := Function.update w.replies s (w.replies s ++ taken.map Message.item ++
      if (w.items.take amount).length < amount then [.empty request] else [])
    handed := w.handed ++ taken.map (fun item => (s, item))
    served := Function.update w.served s (w.served s ++
      [⟨request, (w.handedTo s).length + taken.length, rest.length⟩]) }

/-- The call of `pop` of a slave returns. -/
def finish (s : S) (pop : Pop) (result : Result) : World S :=
  { w with
    pop := Function.update w.pop s none
    results := Function.update w.results s (w.results s ++ [(pop.request, result)]) }

def step (w : World S) : Event S → Option (World S)
  | .push data =>
      some { w with
        items := w.items ++ [⟨w.pushed.length, data⟩]
        pushed := w.pushed ++ [⟨w.pushed.length, data⟩] }
  | .serve s =>
      match w.requests s with
      | [] => none
      | (amount, request) :: requests =>
          some ({ w with requests := Function.update w.requests s requests }.cmdGetItem s amount
            request)
  | .deliver s =>
      match w.replies s with
      | [] => none
      | message :: replies =>
          some { w with
            replies := Function.update w.replies s replies
            queue := Function.update w.queue s (w.queue s ++ [message]) }
  | .pop s =>
      match w.pop s with
      | some _ => none
      | none =>
          some { w with
            counter := Function.update w.counter (process s) (w.counter (process s) + 1)
            calls := Function.update w.calls s (w.calls s + 1)
            pop := Function.update w.pop s
              (some ⟨⟨w.counter (process s) + 1, w.calls s + 1⟩, false⟩) }
  | .ask s =>
      match w.pop s with
      | some ⟨request, false⟩ =>
          some { w with
            pop := Function.update w.pop s (some ⟨request, true⟩)
            requests := if (w.queue s).length ≤ prefetchMark s then
                Function.update w.requests s (w.requests s ++ [(prefetchAmount s, request)])
              else w.requests }
      | _ => none
  | .take s =>
      match w.pop s, w.queue s with
      | some ⟨request, true⟩, message :: queue =>
          let w' := { w with queue := Function.update w.queue s queue }
          match message with
          | .item item => some (w'.finish s ⟨request, true⟩ (.item item))
          | .empty request' =>
              if request'.number = request.number then some (w'.finish s ⟨request, true⟩ .empty)
              else some { w' with pop := Function.update w.pop s (some ⟨request, false⟩) }
      | _, _ => none
  | .timeout s =>
      match w.pop s with
      | some ⟨request, true⟩ => some (w.finish s ⟨request, true⟩ .timeout)
      | _ => none

end World

/-- The command that made a call of `pop` return. -/
def message? : Request × Result → Option Message
  | (_, .item x) => some (.item x)
  | (request, .empty) => some (.empty request)
  | (_, .timeout) => none

/-- Each reply that there are no items is from a request that was served with no item left, and comes
after all items that the slave was handed by then; `n` items came before. -/
def Accounted (served : List Served) : ℕ → List Message → Prop
  | _, [] => True
  | n, .item _ :: messages => Accounted served (n + 1) messages
  | n, .empty request :: messages =>
      (∃ x ∈ served, x.request = request ∧ x.remaining = 0 ∧ x.handed = n) ∧
        Accounted served n messages

namespace Accounted

variable {served served' : List Served} {n : ℕ} {messages messages' : List Message}

theorem mono (h : Accounted served n messages) (hserved : ∀ x ∈ served, x ∈ served') :
    Accounted served' n messages := by
  induction messages generalizing n with
  | nil => trivial
  | cons message messages ih =>
      cases message with
      | item x => exact ih h
      | empty request =>
          obtain ⟨x, hx, hspec⟩ := h.1
          exact ⟨⟨x, hserved x hx, hspec⟩, ih h.2⟩

theorem append : Accounted served n (messages ++ messages') ↔ Accounted served n messages ∧
    Accounted served (n + (messages.filterMap Message.item?).length) messages' := by
  induction messages generalizing n with
  | nil => exact (and_iff_right trivial).symm
  | cons message messages ih =>
      cases message with
      | item x =>
          change Accounted served (n + 1) (messages ++ messages') ↔
            Accounted served (n + 1) messages ∧
              Accounted served (n + ((messages.filterMap Message.item?).length + 1)) messages'
          rw [ih, Nat.add_right_comm, Nat.add_assoc n]
      | empty request =>
          change _ ∧ Accounted served n (messages ++ messages') ↔
            (_ ∧ Accounted served n messages) ∧
              Accounted served (n + (messages.filterMap Message.item?).length) messages'
          rw [ih, and_assoc]

theorem accounted_items (items : List Item) : Accounted served n (items.map Message.item) := by
  induction items generalizing n with
  | nil => trivial
  | cons x items ih => exact ih

end Accounted

namespace World

variable {S : Type} [DecidableEq S] {prefetchMark prefetchAmount process : S → ℕ} {w w' : World S}

/-- The messages of the master to a slave, less those that were discarded. -/
def history (w : World S) (s : S) : List Message :=
  (w.results s).filterMap message? ++ (w.queue s ++ w.replies s)

/-- The requests of a slave that are not served, and those whose reply is not taken. -/
def outstanding (w : World S) (s : S) : List Request :=
  (w.requests s).map Prod.snd ++ (w.queue s ++ w.replies s).filterMap Message.request?

/-- Items that are pushed have data, and when a call of `pop` begins, no request of the slave with the
same number is outstanding. -/
def Fresh (process : S → ℕ) (w : World S) : Event S → Prop
  | .push data => data ≠ []
  | .pop s => ∀ r ∈ w.outstanding s, r.number ≠ w.counter (process s) + 1
  | .serve _ | .deliver _ | .ask _ | .take _ | .timeout _ => True

instance (w : World S) : DecidablePred (w.Fresh process)
  | .push _ => inferInstanceAs (Decidable (_ ≠ _))
  | .pop s =>
      inferInstanceAs (Decidable (∀ r ∈ w.outstanding s, r.number ≠ w.counter (process s) + 1))
  | .serve _ | .deliver _ | .ask _ | .take _ | .timeout _ => isTrue trivial

/-- The request of the call of `pop` that has not returned. -/
def current (w : World S) (s : S) : Option Request := (w.pop s).map Pop.request

/-- The calls of `pop` of a slave. -/
def called (w : World S) (s : S) : List ℕ :=
  (w.results s).map (fun r => r.1.call) ++ (w.current s).toList.map Request.call

structure Conserved (w : World S) : Prop where
  pushed : w.pushed = w.handed.map Prod.snd ++ w.items
  numbered : w.pushed.map Item.number = List.range w.pushed.length
  nonempty : ∀ x ∈ w.items, x.data ≠ []
  stream : ∀ s, w.handedTo s = (w.history s).filterMap Message.item?
  accounted : ∀ s, Accounted (w.served s) 0 (w.history s)
  ordered : ∀ s, (w.called s).Pairwise (· < ·)
  calls : ∀ s, ∀ call ∈ w.called s, call ≤ w.calls s
  /-- A reply with the number of a call of `pop` is for this call. -/
  own : ∀ s, ∀ request ∈ w.current s, ∀ r ∈ w.outstanding s, r.number = request.number →
    r = request

theorem conserved_init : (init : World S).Conserved where
  pushed := rfl
  numbered := rfl
  nonempty := nofun
  stream := fun _ => rfl
  accounted := fun _ => trivial
  ordered := fun _ => List.Pairwise.nil
  calls := fun _ _ hmem => absurd hmem List.not_mem_nil
  own := fun _ _ hrequest => by cases hrequest

namespace Conserved

theorem push (h : w.Conserved) {data : List UInt8} (hdata : data ≠ []) :
    ({ w with
      items := w.items ++ [⟨w.pushed.length, data⟩]
      pushed := w.pushed ++ [⟨w.pushed.length, data⟩] } : World S).Conserved where
  pushed := by
    change w.pushed ++ [_] = w.handed.map Prod.snd ++ (w.items ++ [_])
    rw [h.pushed, List.append_assoc]
  numbered := by
    change (w.pushed ++ [_]).map Item.number = List.range (w.pushed ++ [_]).length
    rw [List.map_append, h.numbered, List.length_append, List.length_singleton, List.range_succ]
    rfl
  nonempty := fun x hx => by
    rcases List.mem_append.1 hx with hx | hx
    · exact h.nonempty x hx
    · rw [List.mem_singleton.1 hx]
      exact hdata
  stream := h.stream
  accounted := h.accounted
  ordered := h.ordered
  calls := h.calls
  own := h.own

theorem handedTo_append (s : S) (items : List Item) (t : S) :
    ({ w with handed := w.handed ++ items.map (fun x => (s, x)) } : World S).handedTo t =
      w.handedTo t ++ if t = s then items else [] := by
  simp only [handedTo, List.filter_append, List.map_append]
  congr 1
  split_ifs with ht
  · rw [List.filter_eq_self.2 (by simp [ht]), List.map_map]
    exact List.map_id items
  · rw [List.filter_eq_nil_iff.2 (by simp [Ne.symm ht])]
    rfl

section CmdGetItem

variable (w) (s : S) (amount : ℕ) (request : Request)

def repliesTo : List Message :=
  ((w.items.take amount).filter (fun x => decide (x.data ≠ []))).map Message.item ++
    if (w.items.take amount).length < amount then [.empty request] else []

theorem history_cmdGetItem (t : S) : (w.cmdGetItem s amount request).history t =
    w.history t ++ if t = s then repliesTo w amount request else [] := by
  rcases eq_or_ne t s with rfl | ht
  · rw [if_pos rfl]
    simp only [history, World.cmdGetItem, Function.update_self, repliesTo, List.append_assoc]
  · rw [if_neg ht, List.append_nil]
    simp only [history, World.cmdGetItem, Function.update_of_ne ht]

theorem handedTo_cmdGetItem (t : S) : (w.cmdGetItem s amount request).handedTo t =
    w.handedTo t ++
      if t = s then (w.items.take amount).filter (fun x => decide (x.data ≠ [])) else [] :=
  handedTo_append s _ t

omit [DecidableEq S] in
theorem items_repliesTo : (repliesTo w amount request).filterMap Message.item? =
    (w.items.take amount).filter (fun x => decide (x.data ≠ [])) := by
  have hitems (items : List Item) : (items.map Message.item).filterMap Message.item? = items := by
    rw [List.filterMap_map]
    exact List.filterMap_some
  rw [repliesTo, List.filterMap_append, hitems]
  split_ifs
  · exact List.append_nil _
  · exact List.append_nil _

omit [DecidableEq S] in
theorem requests_repliesTo {r : Request}
    (hr : r ∈ (repliesTo w amount request).filterMap Message.request?) : r = request := by
  obtain ⟨message, hmessage, hrequest⟩ := List.mem_filterMap.1 hr
  rcases List.mem_append.1 hmessage with hmem | hmem
  · obtain ⟨x, -, rfl⟩ := List.mem_map.1 hmem
    cases hrequest
  · split_ifs at hmem
    · rw [List.mem_singleton.1 hmem] at hrequest
      exact (Option.some.inj hrequest).symm
    · cases hmem

end CmdGetItem

theorem taken_eq (h : w.Conserved) (amount : ℕ) :
    (w.items.take amount).filter (fun x => decide (x.data ≠ [])) = w.items.take amount := by
  refine List.filter_eq_self.2 (fun x hx => decide_eq_true ?_)
  exact h.nonempty x (List.mem_of_mem_take hx)

theorem accounted_cmdGetItem (h : w.Conserved) (s : S) (amount : ℕ) (request : Request) :
    Accounted ((w.cmdGetItem s amount request).served s) 0
      ((w.cmdGetItem s amount request).history s) := by
  have htaken := h.taken_eq amount
  have hserved : (w.cmdGetItem s amount request).served s = w.served s ++
      [⟨request, (w.handedTo s).length + (w.items.take amount).length,
        (w.items.drop amount).length⟩] := by
    simp only [World.cmdGetItem, htaken, Function.update_self]
  rw [history_cmdGetItem, if_pos rfl, hserved]
  refine Accounted.append.2 ⟨(h.accounted s).mono (fun x hx => List.mem_append_left _ hx), ?_⟩
  rw [repliesTo, htaken]
  refine Accounted.append.2 ⟨Accounted.accounted_items _, ?_⟩
  split_ifs with hless
  · refine ⟨⟨_, List.mem_append_right _ (List.mem_singleton_self _), rfl, ?_, ?_⟩, trivial⟩
    · change (w.items.drop amount).length = 0
      rw [List.length_take] at hless
      rw [List.length_drop]
      omega
    · change (w.handedTo s).length + (w.items.take amount).length = _
      rw [h.stream s, List.filterMap_map]
      change _ = 0 + _ + ((w.items.take amount).filterMap some).length
      rw [List.filterMap_some, Nat.zero_add]
  · trivial

theorem outstanding_serve {s : S} {amount : ℕ} {request : Request}
    {requests : List (ℕ × Request)} (hrequests : w.requests s = (amount, request) :: requests)
    {t : S} {r : Request}
    (hr : r ∈ ({ w with requests := Function.update w.requests s requests }.cmdGetItem s amount
      request).outstanding t) : r ∈ w.outstanding t := by
  rcases eq_or_ne t s with rfl | ht
  · simp only [outstanding, World.cmdGetItem, Function.update_self] at hr ⊢
    rw [hrequests]
    rw [List.append_assoc, ← List.append_assoc, List.filterMap_append] at hr
    rcases List.mem_append.1 hr with hr | hr
    · exact List.mem_append_left _ (List.mem_cons_of_mem _ hr)
    · rcases List.mem_append.1 hr with hr | hr
      · exact List.mem_append_right _ hr
      · rw [requests_repliesTo w amount request hr]
        exact List.mem_append_left _ List.mem_cons_self
  · simpa only [outstanding, World.cmdGetItem, Function.update_of_ne ht] using hr

theorem serve_request (h : w.Conserved) {s : S} {amount : ℕ} {request : Request}
    {requests : List (ℕ × Request)} (hrequests : w.requests s = (amount, request) :: requests) :
    ({ w with requests := Function.update w.requests s requests }.cmdGetItem s amount
      request).Conserved where
  pushed := by
    have htaken := h.taken_eq amount
    simp only [World.cmdGetItem, htaken, List.map_append, List.map_map, List.append_assoc]
    rw [h.pushed]
    congr 1
    change w.items = (w.items.take amount).map id ++ w.items.drop amount
    rw [List.map_id, List.take_append_drop]
  numbered := h.numbered
  nonempty := fun x hx => h.nonempty x (List.mem_of_mem_drop hx)
  stream := fun t => by
    rw [handedTo_cmdGetItem, history_cmdGetItem, List.filterMap_append]
    change w.handedTo t ++ _ = (w.history t).filterMap Message.item? ++ _
    rw [h.stream t]
    split_ifs
    · rw [items_repliesTo]
    · rfl
  accounted := fun t => by
    rcases eq_or_ne t s with rfl | ht
    · exact h.accounted_cmdGetItem t amount request
    · rw [history_cmdGetItem, if_neg ht, List.append_nil]
      simp only [World.cmdGetItem, Function.update_of_ne ht]
      exact h.accounted t
  ordered := h.ordered
  calls := h.calls
  own := fun t current hcurrent r hr hnumber => by
    refine h.own t current hcurrent r (outstanding_serve hrequests hr) hnumber

theorem of_handed_eq (h : w.Conserved) (hpushed : w'.pushed = w.pushed)
    (hitems : w'.items = w.items) (hhanded : w'.handed = w.handed) (hserved : w'.served = w.served)
    (hhistory : ∀ s, w'.history s = w.history s ∨ ∃ before request after,
      w.history s = before ++ .empty request :: after ∧ w'.history s = before ++ after)
    (hcalled : ∀ s, w'.called s = w.called s) (hcalls : w'.calls = w.calls)
    (hown : ∀ s, ∀ request ∈ w'.current s, ∀ r ∈ w'.outstanding s, r.number = request.number →
      r = request) : w'.Conserved where
  pushed := by rw [hpushed, hitems, hhanded, h.pushed]
  numbered := hpushed ▸ h.numbered
  nonempty := hitems ▸ h.nonempty
  stream := fun s => by
    have hto : w'.handedTo s = w.handedTo s := by rw [handedTo, hhanded, handedTo]
    rw [hto, h.stream s]
    rcases hhistory s with heq | ⟨before, request, after, hold, hnew⟩
    · rw [heq]
    · rw [hold, hnew, List.filterMap_append, List.filterMap_append]
      rfl
  accounted := fun s => by
    rw [hserved]
    have hold := h.accounted s
    rcases hhistory s with heq | ⟨before, request, after, hsplit, hnew⟩
    · rw [heq]
      exact hold
    · rw [hsplit, Accounted.append] at hold
      rw [hnew]
      exact Accounted.append.2 ⟨hold.1, hold.2.2⟩
  ordered := fun s => (hcalled s).symm ▸ h.ordered s
  calls := fun s => by
    rw [hcalled, hcalls]
    exact h.calls s
  own := hown

theorem deliver (h : w.Conserved) {s : S} {message : Message} {replies : List Message}
    (hreplies : w.replies s = message :: replies) :
    ({ w with
      replies := Function.update w.replies s replies
      queue := Function.update w.queue s (w.queue s ++ [message]) } : World S).Conserved := by
  have hmoved (t : S) : Function.update w.queue s (w.queue s ++ [message]) t ++
      Function.update w.replies s replies t = w.queue t ++ w.replies t := by
    rcases eq_or_ne t s with rfl | ht
    · simp only [Function.update_self, hreplies, List.append_assoc, List.singleton_append]
    · simp only [Function.update_of_ne ht]
  refine h.of_handed_eq rfl rfl rfl rfl (fun t => Or.inl ?_) (fun _ => rfl) rfl (fun t => ?_)
  · simp only [history, hmoved]
  · simp only [outstanding, hmoved]
    exact h.own t

theorem pop (h : w.Conserved) {s : S} (hpop : w.pop s = none)
    (hfresh : ∀ r ∈ w.outstanding s, r.number ≠ w.counter (process s) + 1) :
    ({ w with
      counter := Function.update w.counter (process s) (w.counter (process s) + 1)
      calls := Function.update w.calls s (w.calls s + 1)
      pop := Function.update w.pop s
        (some ⟨⟨w.counter (process s) + 1, w.calls s + 1⟩, false⟩) } : World S).Conserved := by
  have hcalled : w.called s = (w.results s).map (fun r => r.1.call) := by
    simp only [called, current, hpop, Option.map_none, Option.toList_none, List.map_nil,
      List.append_nil]
  have hordered := h.ordered s
  have hcalls := h.calls s
  rw [hcalled] at hordered hcalls
  refine ⟨h.pushed, h.numbered, h.nonempty, h.stream, h.accounted, fun t => ?_, fun t => ?_,
    fun t => ?_⟩
  · rcases eq_or_ne t s with rfl | ht
    · simp only [called, current, Function.update_self]
      refine List.pairwise_append.2 ⟨hordered, List.pairwise_singleton _ _, fun c hc c' hc' => ?_⟩
      rw [List.mem_singleton.1 hc']
      exact Nat.lt_succ_of_le (hcalls c hc)
    · simp only [called, current, Function.update_of_ne ht]
      exact h.ordered t
  · rcases eq_or_ne t s with rfl | ht
    · simp only [called, current, Function.update_self]
      intro c hc
      rcases List.mem_append.1 hc with hc | hc
      · exact (hcalls c hc).trans (Nat.le_succ _)
      · exact (List.mem_singleton.1 hc).le
    · simp only [called, current, Function.update_of_ne ht]
      exact h.calls t
  · rcases eq_or_ne t s with rfl | ht
    · simp only [current, Function.update_self]
      rintro request hrequest r hr hnumber
      rw [← Option.some.inj hrequest] at hnumber
      exact absurd hnumber (hfresh r hr)
    · simp only [current, Function.update_of_ne ht]
      exact h.own t

theorem map_request_update {s : S} {request : Request} {waiting : Bool} (waiting' : Bool)
    (hpop : w.pop s = some ⟨request, waiting⟩) (t : S) :
    (Function.update w.pop s (some ⟨request, waiting'⟩) t).map Pop.request = w.current t := by
  rcases eq_or_ne t s with rfl | ht
  · rw [Function.update_self, current, hpop]
    rfl
  · rw [Function.update_of_ne ht]
    rfl

theorem pop_ask (h : w.Conserved) {s : S} {request : Request}
    (hpop : w.pop s = some ⟨request, false⟩) {requests : S → List (ℕ × Request)}
    (hrequests : ∀ t, ∀ r ∈ (requests t).map Prod.snd,
      r ∈ (w.requests t).map Prod.snd ∨ t = s ∧ r = request) :
    ({ w with
      pop := Function.update w.pop s (some ⟨request, true⟩)
      requests := requests } : World S).Conserved := by
  have hcurrent := map_request_update true hpop
  refine h.of_handed_eq rfl rfl rfl rfl (fun t => Or.inl rfl) (fun t => ?_) rfl
    (fun t request' hrequest' r hr hnumber => ?_)
  · simp only [called, current, hcurrent]
  · simp only [current, hcurrent] at hrequest'
    rcases List.mem_append.1 hr with hr | hr
    · rcases hrequests t r hr with hr | ⟨rfl, rfl⟩
      · exact h.own t request' hrequest' r (List.mem_append_left _ hr) hnumber
      · rw [hpop] at hrequest'
        exact Option.some.inj hrequest'
    · exact h.own t request' hrequest' r (List.mem_append_right _ hr) hnumber

theorem outstanding_take {s : S} {message : Message} {queue : List Message}
    (hqueue : w.queue s = message :: queue) {t : S} {r : Request}
    (hr : r ∈ ({ w with queue := Function.update w.queue s queue } : World S).outstanding t) :
    r ∈ w.outstanding t := by
  rcases eq_or_ne t s with rfl | ht
  · simp only [outstanding, Function.update_self] at hr
    refine List.mem_append.2 ((List.mem_append.1 hr).imp_right (fun hr => ?_))
    rw [hqueue, List.cons_append]
    exact ((List.sublist_cons_self message _).filterMap Message.request?).subset hr
  · simpa only [outstanding, Function.update_of_ne ht] using hr

theorem pop_discard (h : w.Conserved) {s : S} {request request' : Request} {queue : List Message}
    (hpop : w.pop s = some ⟨request, true⟩) (hqueue : w.queue s = .empty request' :: queue) :
    ({ w with
      queue := Function.update w.queue s queue
      pop := Function.update w.pop s (some ⟨request, false⟩) } : World S).Conserved := by
  have hcurrent := map_request_update false hpop
  refine h.of_handed_eq rfl rfl rfl rfl (fun t => ?_) (fun t => ?_) rfl
    (fun t request'' hrequest'' r hr hnumber => ?_)
  · rcases eq_or_ne t s with rfl | ht
    · refine Or.inr ⟨(w.results t).filterMap message?, request', queue ++ w.replies t, ?_, ?_⟩
      · rw [history, hqueue, List.cons_append]
      · simp only [history, Function.update_self]
    · refine Or.inl ?_
      simp only [history, Function.update_of_ne ht]
  · simp only [called, current, hcurrent]
  · simp only [current, hcurrent] at hrequest''
    exact h.own t request'' hrequest'' r (outstanding_take hqueue hr) hnumber

theorem pop_finish (h : w.Conserved) {s : S} {pop : Pop} (hpop : w.pop s = some pop)
    (queue : List Message) (result : Result)
    (hqueue : w.queue s = (message? (pop.request, result)).toList ++ queue) :
    (({ w with queue := Function.update w.queue s queue } : World S).finish s pop
      result).Conserved := by
  refine h.of_handed_eq rfl rfl rfl rfl (fun t => Or.inl ?_) (fun t => ?_) rfl
    (fun t request hrequest r hr hnumber => ?_)
  · simp only [history, World.finish]
    rcases eq_or_ne t s with rfl | ht
    · simp only [Function.update_self, List.filterMap_append, hqueue, List.append_assoc]
      cases hmessage : message? (pop.request, result) <;> simp [hmessage]
    · simp only [Function.update_of_ne ht]
  · simp only [called, current, World.finish]
    rcases eq_or_ne t s with rfl | ht
    · simp [hpop]
    · simp only [Function.update_of_ne ht]
  · rcases eq_or_ne t s with rfl | ht
    · simp [current, World.finish] at hrequest
    · simp only [current, outstanding, World.finish, Function.update_of_ne ht] at hrequest hr
      exact h.own t request hrequest r hr hnumber

theorem step (h : w.Conserved) {e : Event S} (hok : w.Fresh process e)
    (hstep : w.step prefetchMark prefetchAmount process e = some w') : w'.Conserved := by
  cases e with
  | push data =>
      obtain rfl := Option.some.inj hstep
      exact h.push hok
  | serve s =>
      simp only [World.step] at hstep
      split at hstep
      · cases hstep
      · next amount request requests hrequests =>
        obtain rfl := Option.some.inj hstep
        exact h.serve_request hrequests
  | deliver s =>
      simp only [World.step] at hstep
      split at hstep
      · cases hstep
      · next message replies hreplies =>
        obtain rfl := Option.some.inj hstep
        exact h.deliver hreplies
  | pop s =>
      simp only [World.step] at hstep
      split at hstep
      · cases hstep
      · next hpop =>
        obtain rfl := Option.some.inj hstep
        exact h.pop hpop hok
  | ask s =>
      simp only [World.step] at hstep
      split at hstep
      · next request hpop =>
        obtain rfl := Option.some.inj hstep
        refine h.pop_ask hpop (fun t r hr => ?_)
        split_ifs at hr
        · rcases eq_or_ne t s with rfl | ht
          · rw [Function.update_self, List.map_append] at hr
            exact (List.mem_append.1 hr).imp_right (fun hr => ⟨rfl, List.mem_singleton.1 hr⟩)
          · rw [Function.update_of_ne ht] at hr
            exact Or.inl hr
        · exact Or.inl hr
      · cases hstep
  | take s =>
      simp only [World.step] at hstep
      split at hstep
      · next request message queue hpop hqueue =>
        split at hstep
        · next x =>
          obtain rfl := Option.some.inj hstep
          exact h.pop_finish hpop queue (.item x) hqueue
        · next request' =>
          split_ifs at hstep with heq
          · obtain rfl := Option.some.inj hstep
            have hmem : request' ∈ w.outstanding s := by
              rw [outstanding, hqueue]
              exact List.mem_append_right _ List.mem_cons_self
            have hcurrent : w.current s = some request := congrArg (Option.map Pop.request) hpop
            rw [h.own s request hcurrent request' hmem heq] at hqueue
            exact h.pop_finish hpop queue .empty hqueue
          · obtain rfl := Option.some.inj hstep
            exact h.pop_discard hpop hqueue
      · cases hstep
  | timeout s =>
      simp only [World.step] at hstep
      split at hstep
      · next request hpop =>
        obtain rfl := Option.some.inj hstep
        have hfinish := h.pop_finish hpop (w.queue s) .timeout rfl
        rw [Function.update_eq_self] at hfinish
        exact hfinish
      · cases hstep

end Conserved

inductive Place (S : Type)
  | master
  | flight (s : S)
  | slave (s : S)
  | popped (s : S) (request : Request)

def contents (w : World S) : Place S → List Item
  | .master => w.items
  | .flight s => (w.replies s).filterMap Message.item?
  | .slave s => (w.queue s).filterMap Message.item?
  | .popped s request =>
      ((w.results s).filter (fun r => decide (r.1 = request))).filterMap (fun r => r.2.item?)

omit [DecidableEq S] in
theorem returned_eq (w : World S) (s : S) :
    ((w.results s).filterMap message?).filterMap Message.item? = w.returned s := by
  rw [returned, List.filterMap_filterMap]
  congr 1
  funext r
  obtain ⟨request, result⟩ := r
  cases result <;> rfl

theorem eq_of_nodup_filterMap {α β : Type} {f : α → Option β} {l : List α} (h : (l.filterMap f).Nodup)
    {a b : α} (ha : a ∈ l) (hb : b ∈ l) {x : β} (hax : f a = some x) (hbx : f b = some x) :
    a = b := by
  induction l with
  | nil => cases ha
  | cons c l ih =>
      have hmem {a' : α} (ha' : a' ∈ l) (hax' : f a' = some x) : x ∈ l.filterMap f :=
        List.mem_filterMap.2 ⟨a', ha', hax'⟩
      rcases List.mem_cons.1 ha with hac | hal <;> rcases List.mem_cons.1 hb with hbc | hbl
      · rw [hac, hbc]
      · rw [hac] at hax
        rw [List.filterMap_cons_some hax, List.nodup_cons] at h
        exact absurd (hmem hbl hbx) h.1
      · rw [hbc] at hbx
        rw [List.filterMap_cons_some hbx, List.nodup_cons] at h
        exact absurd (hmem hal hax) h.1
      · exact ih (h.sublist ((List.sublist_cons_self c l).filterMap f)) hal hbl

namespace Conserved

variable (h : w.Conserved)
include h

theorem nodup_pushed : w.pushed.Nodup := by
  refine List.Nodup.of_map Item.number ?_
  rw [h.numbered]
  exact List.nodup_range

/-- The items that a slave was handed are in its pops, in its queue and on the way to it, in this
order. -/
theorem handedTo_eq (s : S) : w.handedTo s = w.returned s ++
    ((w.queue s).filterMap Message.item? ++ (w.replies s).filterMap Message.item?) := by
  rw [h.stream s, history, List.filterMap_append, List.filterMap_append, returned_eq]

theorem nodup_handedTo (s : S) : (w.handedTo s).Nodup := by
  have hnodup := h.nodup_pushed
  rw [h.pushed] at hnodup
  exact (List.nodup_append.1 hnodup).1.sublist (List.filter_sublist.map _)

omit h in
theorem mem_handedTo {s : S} {x : Item} (hx : x ∈ w.handedTo s) : (s, x) ∈ w.handed := by
  obtain ⟨⟨t, x'⟩, hfilter, rfl⟩ := List.mem_map.1 hx
  obtain ⟨hhanded, hs⟩ := List.mem_filter.1 hfilter
  obtain rfl : t = s := of_decide_eq_true hs
  exact hhanded

theorem handed_of_contents {x : Item} {place : Place S} (hx : x ∈ w.contents place)
    (hmaster : place ≠ .master) : ∃ s, x ∈ w.handedTo s ∧
      (place = .flight s ∨ place = .slave s ∨ ∃ r, place = .popped s r) := by
  cases place with
  | master => exact absurd rfl hmaster
  | flight s =>
      refine ⟨s, ?_, Or.inl rfl⟩
      rw [h.handedTo_eq s]
      exact List.mem_append_right _ (List.mem_append_right _ hx)
  | slave s =>
      refine ⟨s, ?_, Or.inr (Or.inl rfl)⟩
      rw [h.handedTo_eq s]
      exact List.mem_append_right _ (List.mem_append_left _ hx)
  | popped s r =>
      refine ⟨s, ?_, Or.inr (Or.inr ⟨r, rfl⟩)⟩
      rw [h.handedTo_eq s]
      refine List.mem_append_left _ ?_
      obtain ⟨result, hresult, hitem⟩ := List.mem_filterMap.1 hx
      exact List.mem_filterMap.2 ⟨result, (List.mem_filter.1 hresult).1, hitem⟩

omit h [DecidableEq S] in
theorem mem_returned {s : S} {r : Request} {x : Item} (hx : x ∈ w.contents (.popped s r)) :
    x ∈ w.returned s ∧ ∃ result ∈ w.results s, result.1 = r ∧ result.2.item? = some x := by
  obtain ⟨result, hresult, hitem⟩ := List.mem_filterMap.1 hx
  obtain ⟨hmem, hr⟩ := List.mem_filter.1 hresult
  exact ⟨List.mem_filterMap.2 ⟨result, hmem, hitem⟩, result, hmem, of_decide_eq_true hr, hitem⟩

theorem place_unique {x : Item} {place place' : Place S} (hx : x ∈ w.contents place)
    (hx' : x ∈ w.contents place') : place = place' := by
  have hpushed := h.nodup_pushed
  rw [h.pushed] at hpushed
  obtain ⟨hhanded, -, hdisjoint⟩ := List.nodup_append.1 hpushed
  have hnot {s : S} {x : Item} (hx : x ∈ w.handedTo s) : x ∉ w.items := fun hin =>
    hdisjoint x (List.mem_map.2 ⟨_, mem_handedTo hx, rfl⟩) x hin rfl
  by_cases hmaster : place = .master
  · by_cases hmaster' : place' = .master
    · rw [hmaster, hmaster']
    · obtain ⟨s, hs, -⟩ := h.handed_of_contents hx' hmaster'
      subst hmaster
      exact absurd hx (hnot hs)
  · obtain ⟨s, hs, hplace⟩ := h.handed_of_contents hx hmaster
    by_cases hmaster' : place' = .master
    · subst hmaster'
      exact absurd hx' (hnot hs)
    · obtain ⟨s', hs', hplace'⟩ := h.handed_of_contents hx' hmaster'
      obtain rfl : s = s' := congrArg Prod.fst
        (List.inj_on_of_nodup_map hhanded (mem_handedTo hs) (mem_handedTo hs') rfl)
      have hnodup := h.nodup_handedTo s
      rw [h.handedTo_eq s] at hnodup
      obtain ⟨hreturned, hrest, hpops⟩ := List.nodup_append.1 hnodup
      obtain ⟨-, -, hqueue⟩ := List.nodup_append.1 hrest
      have hpop {r : Request} (hx : x ∈ w.contents (.popped s r)) {p : Place S}
          (hp : p = .flight s ∨ p = .slave s) : x ∉ w.contents p := by
        intro hin
        refine hpops x (mem_returned hx).1 x ?_ rfl
        rcases hp with rfl | rfl
        · exact List.mem_append_right _ hin
        · exact List.mem_append_left _ hin
      rcases hplace with rfl | rfl | ⟨r, rfl⟩ <;> rcases hplace' with rfl | rfl | ⟨r', rfl⟩
      · rfl
      · exact absurd rfl (hqueue x hx' x hx)
      · exact absurd hx (hpop hx' (Or.inl rfl))
      · exact absurd rfl (hqueue x hx x hx')
      · rfl
      · exact absurd hx (hpop hx' (Or.inr rfl))
      · exact absurd hx' (hpop hx (Or.inl rfl))
      · exact absurd hx' (hpop hx (Or.inr rfl))
      · obtain ⟨-, result, hresult, rfl, hitem⟩ := mem_returned hx
        obtain ⟨-, result', hresult', rfl, hitem'⟩ := mem_returned hx'
        rw [eq_of_nodup_filterMap hreturned hresult hresult' hitem hitem']

theorem exists_place {x : Item} (hx : x ∈ w.pushed) : ∃ place, x ∈ w.contents place := by
  rw [h.pushed] at hx
  rcases List.mem_append.1 hx with hx | hx
  · obtain ⟨⟨s, x'⟩, hs, rfl⟩ := List.mem_map.1 hx
    have hto : x' ∈ w.handedTo s :=
      List.mem_map.2 ⟨(s, x'), List.mem_filter.2 ⟨hs, decide_eq_true rfl⟩, rfl⟩
    rw [h.handedTo_eq s] at hto
    rcases List.mem_append.1 hto with hto | hto
    · obtain ⟨result, hresult, hitem⟩ := List.mem_filterMap.1 hto
      refine ⟨.popped s result.1, List.mem_filterMap.2 ⟨result, ?_, hitem⟩⟩
      exact List.mem_filter.2 ⟨hresult, decide_eq_true rfl⟩
    · rcases List.mem_append.1 hto with hto | hto
      · exact ⟨.slave s, hto⟩
      · exact ⟨.flight s, hto⟩
  · exact ⟨.master, hx⟩

theorem nodup_contents (place : Place S) : (w.contents place).Nodup := by
  have hslave (s : S) := h.nodup_handedTo s
  simp only [h.handedTo_eq, List.nodup_append] at hslave
  cases place with
  | master =>
      have hpushed := h.nodup_pushed
      rw [h.pushed] at hpushed
      exact (List.nodup_append.1 hpushed).2.1
  | flight s => exact (hslave s).2.1.2.1
  | slave s => exact (hslave s).2.1.1
  | popped s r => exact (hslave s).1.sublist (List.filter_sublist.filterMap _)

/-- All items that were handed out before the reply that made a call return were popped before. -/
theorem empty_result {s : S} {before after : List (Request × Result)} {request : Request}
    (hresults : w.results s = before ++ (request, .empty) :: after) :
    ∃ x ∈ w.served s, x.request = request ∧ x.remaining = 0 ∧
      (w.handedTo s).take x.handed = before.filterMap (fun r => r.2.item?) := by
  have hbefore : (before.filterMap message?).filterMap Message.item? =
      before.filterMap (fun r => r.2.item?) := by
    rw [List.filterMap_filterMap]
    congr 1
    funext r
    obtain ⟨request, result⟩ := r
    cases result <;> rfl
  have hhistory : w.history s = before.filterMap message? ++
      .empty request :: (after.filterMap message? ++ (w.queue s ++ w.replies s)) := by
    rw [history, hresults, List.filterMap_append]
    simp [message?]
  have haccounted := h.accounted s
  rw [hhistory, Accounted.append, hbefore] at haccounted
  obtain ⟨x, hx, hrequest, hremaining, hhanded⟩ := haccounted.2.1
  refine ⟨x, hx, hrequest, hremaining, ?_⟩
  rw [h.stream s, hhistory, List.filterMap_append, hbefore, hhanded, Nat.zero_add]
  exact List.take_left

end Conserved

/-- If no request is outstanding when a call of `pop` takes its number again, each pushed item is in
one place: with the master, on the way, with a slave or returned by one call of `pop`. The calls of a
slave return items in the order in which the master handed them out. A call that returns no item, and
did not time out, has had its own request served with no item left, after the items that were popped
before it. -/
theorem queue_conservation {es : List (Event S)}
    (hok : Machine.Steps (World.step prefetchMark prefetchAmount process) (Fresh process) init es)
    (hrun : Machine.run (World.step prefetchMark prefetchAmount process) init es = some w) :
    (∀ x ∈ w.pushed, ∃! place, x ∈ w.contents place) ∧
    (∀ place, (w.contents place).Nodup) ∧
    (∀ s, w.returned s <+: w.handedTo s) ∧
    (∀ s, ((w.results s).map (fun r => r.1.call)).Pairwise (· < ·)) ∧
    ∀ s before request after, w.results s = before ++ (request, .empty) :: after →
      ∃ x ∈ w.served s, x.request = request ∧ x.remaining = 0 ∧
        (w.handedTo s).take x.handed = before.filterMap (fun r => r.2.item?) := by
  have h : w.Conserved := Machine.run_invariant Conserved
    (fun _ _ _ h hok hstep => h.step hok hstep) conserved_init hok hrun
  refine ⟨fun x hx => ?_, h.nodup_contents, fun s => ?_, fun s => ?_,
    fun s before request after hresults => h.empty_result hresults⟩
  · obtain ⟨place, hplace⟩ := h.exists_place hx
    exact ⟨place, hplace, fun place' hplace' => h.place_unique hplace' hplace⟩
  · rw [h.handedTo_eq s]
    exact List.prefix_append _ _
  · exact (List.pairwise_append.1 (h.ordered s)).1

/-- A slave pops the item of the master, and then finds the queue empty. -/
theorem queue_conservation_one : ∃ w : World ℕ,
    Machine.run (World.step (fun _ => 1) (fun _ => 2) (fun _ => 0)) init
        [.push [42], .pop 0, .ask 0, .serve 0, .deliver 0, .take 0, .pop 0, .ask 0, .serve 0,
          .deliver 0, .take 0, .ask 0, .deliver 0, .take 0] = some w ∧
      w.results 0 = [(⟨1, 1⟩, .item ⟨0, [42]⟩), (⟨2, 2⟩, .empty)] ∧
      ∃ x ∈ w.served 0, x.request = ⟨2, 2⟩ ∧ x.remaining = 0 := by
  have h : (Machine.run (World.step (fun _ => 1) (fun _ => 2) (fun _ => 0)) (init : World ℕ)
      [.push [42], .pop 0, .ask 0, .serve 0, .deliver 0, .take 0, .pop 0, .ask 0, .serve 0,
        .deliver 0, .take 0, .ask 0, .deliver 0, .take 0]).map (fun w => decide
          (w.results 0 = [(⟨1, 1⟩, .item ⟨0, [42]⟩), (⟨2, 2⟩, .empty)])) = some true := by
    decide +kernel
  obtain ⟨w, hrun, hw⟩ := Option.map_eq_some_iff.1 h
  have hresults := of_decide_eq_true hw
  obtain ⟨x, hx, hrequest, hremaining, -⟩ := (queue_conservation (by decide +kernel)
    hrun).2.2.2.2 0 [(⟨1, 1⟩, .item ⟨0, [42]⟩)] ⟨2, 2⟩ [] hresults
  exact ⟨w, hrun, hresults, x, hx, hrequest, hremaining⟩

/-- What the calls of `pop` of slave 1 leave as it is for slave 0 of the same process. -/
structure Idled (n : ℕ) (w w' : World ℕ) : Prop where
  counter : w'.counter 0 = w.counter 0 + BitVec.ofNat 32 n
  pop : w'.pop 0 = w.pop 0
  queue : w'.queue 0 = w.queue 0
  served : w'.served 0 = w.served 0
  calls : w'.calls 0 = w.calls 0
  results : w'.results 0 = w.results 0

theorem run_timeout {w : World ℕ} (hpop : w.pop 1 = none) :
    ∃ w', Machine.run (World.step (fun _ => 1) (fun _ => 2) (fun _ => 0)) w
      [.pop 1, .ask 1, .timeout 1] = some w' ∧ Idled 1 w w' ∧ w'.pop 1 = none := by
  obtain ⟨w', hrun⟩ := Option.isSome_iff_exists.1 (show (Machine.run (World.step (fun _ => 1)
    (fun _ => 2) (fun _ => 0)) w [.pop 1, .ask 1, .timeout 1]).isSome = true by
      simp [Machine.run, World.step, hpop])
  refine ⟨w', hrun, ?_⟩
  simp only [Machine.run, World.step, hpop, Option.bind_some, Function.update_self,
    Option.some.injEq] at hrun
  rw [← hrun]
  exact ⟨⟨by simp [finish], by simp [finish], rfl, rfl, by simp [finish], by simp [finish]⟩,
    by simp [finish]⟩

theorem run_idle (n : ℕ) {w : World ℕ} (hpop : w.pop 1 = none) :
    ∃ w', Machine.run (World.step (fun _ => 1) (fun _ => 2) (fun _ => 0)) w
      (List.replicate n [.pop 1, .ask 1, .timeout 1]).flatten = some w' ∧ Idled n w w' := by
  induction n generalizing w with
  | zero => exact ⟨w, rfl, (BitVec.add_zero _).symm, rfl, rfl, rfl, rfl, rfl⟩
  | succ n ih =>
      obtain ⟨w₁, hrun₁, h₁, hpop₁⟩ := run_timeout hpop
      obtain ⟨w₂, hrun₂, h₂⟩ := ih hpop₁
      refine ⟨w₂, ?_, ?_, h₂.pop.trans h₁.pop, h₂.queue.trans h₁.queue, h₂.served.trans h₁.served,
        h₂.calls.trans h₁.calls, h₂.results.trans h₁.results⟩
      · rw [List.replicate_succ, List.flatten_cons, Machine.run_append, hrun₁]
        exact hrun₂
      · rw [h₂.counter, h₁.counter, BitVec.add_assoc, ← BitVec.ofNat_add, Nat.add_comm 1 n]

/-- A call of slave 0 times out, and the reply to it is left. The calls of slave 1 of the same process
take all other numbers. The next call of slave 0 has the first number again, and takes the reply,
although the master has an item and has not served it. -/
theorem stale_reply_taken : ∃ w : World ℕ,
    Machine.run (World.step (fun _ => 1) (fun _ => 2) (fun _ => 0)) init
      ([.pop 0, .ask 0, .timeout 0, .serve 0, .deliver 0] ++
        ((List.replicate (2 ^ 32 - 1) [.pop 1, .ask 1, .timeout 1]).flatten ++
          [.push [42], .pop 0, .ask 0, .take 0])) = some w ∧
      w.items ≠ [] ∧ w.results 0 = [(⟨1, 1⟩, .timeout), (⟨1, 2⟩, .empty)] ∧
      ∀ x ∈ w.served 0, x.request ≠ ⟨1, 2⟩ := by
  have hfirst : ∃ w : World ℕ, Machine.run (World.step (fun _ => 1) (fun _ => 2) (fun _ => 0)) init
      [.pop 0, .ask 0, .timeout 0, .serve 0, .deliver 0] = some w ∧ w.pop 1 = none ∧
      w.counter 0 = 1 ∧ w.pop 0 = none ∧ w.queue 0 = [.empty ⟨1, 1⟩] ∧
      w.served 0 = [⟨⟨1, 1⟩, 0, 0⟩] ∧ w.calls 0 = 1 ∧ w.results 0 = [(⟨1, 1⟩, .timeout)] :=
    ⟨_, rfl, rfl, rfl, rfl, rfl, rfl, rfl, rfl⟩
  obtain ⟨w, hrun, hpop₁, hcounter, hpop, hqueue, hserved, hcalls, hresults⟩ := hfirst
  obtain ⟨w', hidle, h⟩ := run_idle (2 ^ 32 - 1) hpop₁
  have hnumber : w'.counter 0 = 0#32 := by
    rw [h.counter, hcounter]
    decide
  have hlast : (Machine.run (World.step (fun _ => 1) (fun _ => 2) (fun _ => 0)) w'
      [.push [42], .pop 0, .ask 0, .take 0]).map (fun w'' =>
        (w''.items, w''.results 0, w''.served 0)) = some (w'.items ++ [⟨w'.pushed.length, [42]⟩],
          w'.results 0 ++ [(⟨1, w'.calls 0 + 1⟩, .empty)], w'.served 0) := by
    simp [Machine.run, World.step, finish, h.pop, hpop, h.queue, hqueue, hnumber]
  obtain ⟨w'', hrun'', hlast⟩ := Option.map_eq_some_iff.1 hlast
  obtain ⟨hitems, hlast⟩ := Prod.mk.inj hlast
  obtain ⟨hresults'', hserved''⟩ := Prod.mk.inj hlast
  refine ⟨w'', ?_, ?_, ?_, ?_⟩
  · rw [Machine.run_append, hrun, Option.bind_some, Machine.run_append, hidle, Option.bind_some,
      hrun'']
  · rw [hitems]
    exact List.append_ne_nil_of_right_ne_nil _ (List.cons_ne_nil _ _)
  · rw [hresults'', h.results, hresults, h.calls, hcalls]
    rfl
  · rw [hserved'', h.served, hserved]
    decide

end World

end Collage.Queue
