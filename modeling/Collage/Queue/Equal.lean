import Mathlib.Algebra.Order.Floor.Ring
import Mathlib.Data.List.AList
import Mathlib.Data.List.Induction
import Mathlib.Data.Rat.Floor
import Collage.Lib.Run

/-!
# Equal distribution

A queue master keeps a queue for each of its slave nodes and puts an item into the queue at the
place that the position hint of the item has in the list of nodes (`equalDistributor.cpp`). The
queues and the places of the nodes are set up with the first item, from the nodes set by then. An
index that is out of range stops the run.
-/

namespace Collage.Equal

abbrev Buffer : Type := List UInt8

/-- A position hint, as an exact number. -/
structure Hint where
  value : ℚ
  nonneg : 0 ≤ value
  le_one : value ≤ 1

/-- `CMD_QUEUE_ITEM` and `CMD_QUEUE_EMPTY`. -/
inductive Reply
  | item (data : Buffer)
  | empty (requestID : ℕ)
  deriving DecidableEq

structure EqualDistributor where
  nodes : List ℕ
  nodeMap : AList (fun _ : ℕ => ℕ)
  queues : List (List Buffer)

namespace EqualDistributor

def new : EqualDistributor := ⟨[], ∅, []⟩

variable (d : EqualDistributor)

def setSlaveNodes (nodes : List ℕ) : EqualDistributor := { d with nodes := nodes }

/-- The place of a hint, `_nNodes * pos`. -/
def absPos (pos : Hint) : ℕ := ⌊d.nodes.length * pos.value⌋.toNat

/-- The first item sets up the places and the queues. -/
def createQueues : EqualDistributor :=
  if d.nodeMap.entries.length < 1 then
    { d with
      nodeMap := d.nodes.zipIdx.foldl (fun nodeMap p => nodeMap.insert p.1 p.2) d.nodeMap
      queues := List.replicate d.nodes.length [] }
  else d

def pushItem (pos : Hint) (item : Buffer) : Option EqualDistributor :=
  let d := d.createQueues
  d.queues[d.absPos pos]?.map (fun queue =>
    { d with queues := d.queues.set (d.absPos pos) (queue ++ [item]) })

/-- `_nodeMap[ nodeID ]`, which adds a node that is not there. -/
def lookup (nodeID : ℕ) : ℕ × AList (fun _ : ℕ => ℕ) :=
  match d.nodeMap.lookup nodeID with
  | some absPos => (absPos, d.nodeMap)
  | none => (0, d.nodeMap.insert nodeID 0)

/-- The replies to a request for items: empty items are not sent. -/
def replies (queue : List Buffer) (itemsRequested requestID : ℕ) : List Reply :=
  ((queue.take itemsRequested).filter (fun item => item ≠ [])).map Reply.item ++
    if (queue.take itemsRequested).length < itemsRequested then [.empty requestID] else []

def cmdGetItem (nodeID itemsRequested requestID : ℕ) : Option (EqualDistributor × List Reply) :=
  let (absPos, nodeMap) := d.lookup nodeID
  d.queues[absPos]?.map (fun queue =>
    ({ d with
        nodeMap := nodeMap
        queues := d.queues.set absPos (queue.drop itemsRequested) },
      replies queue itemsRequested requestID))

end EqualDistributor

inductive Event
  | setSlaveNodes (nodes : List ℕ)
  | pushItem (pos : Hint) (item : Buffer)
  | cmdGetItem (nodeID itemsRequested requestID : ℕ)

/-- A distributor, with the slave nodes at the first push and the replies sent so far. -/
structure World where
  distributor : EqualDistributor
  created : List ℕ
  sent : List (ℕ × Reply)

/-- A queue belongs to the node that was at its place, if the node is not listed again behind. -/
def Owns (created : List ℕ) (node i : ℕ) : Prop :=
  created[i]? = some node ∧ node ∉ created.drop (i + 1)

theorem owns_concat {created : List ℕ} {last node i : ℕ} :
    Owns (created ++ [last]) node i ↔
      if node = last then i = created.length else Owns created node i := by
  unfold Owns
  rcases Nat.lt_trichotomy i created.length with hlt | rfl | hgt
  · rw [List.getElem?_append_left hlt, List.drop_append_of_le_length hlt, List.mem_append,
      List.mem_singleton]
    split_ifs with h
    · exact iff_of_false (fun hi => hi.2 (Or.inr h)) hlt.ne
    · rw [or_iff_left h]
  · rw [List.getElem?_concat_length, List.drop_eq_nil_of_le (by simp), Option.some.injEq,
      List.getElem?_eq_none le_rfl]
    split_ifs with h
    · exact iff_of_true ⟨h.symm, List.not_mem_nil⟩ rfl
    · exact iff_of_false (fun hi => h hi.1.symm) (fun hi => by cases hi.1)
  · rw [List.getElem?_eq_none (by rw [List.length_append]; exact hgt), List.getElem?_eq_none hgt.le]
    split_ifs
    · exact iff_of_false (fun hi => by cases hi.1) hgt.ne'
    · exact iff_of_false (fun hi => by cases hi.1) (fun hi => by cases hi.1)

/-- The places that are set up from a list of nodes. -/
def places (nodes : List ℕ) : AList (fun _ : ℕ => ℕ) :=
  nodes.zipIdx.foldl (fun nodeMap p => nodeMap.insert p.1 p.2) ∅

theorem places_concat (nodes : List ℕ) (last : ℕ) :
    places (nodes ++ [last]) = (places nodes).insert last nodes.length := by
  simp [places, List.zipIdx_append, List.foldl_append]

theorem lookup_places {nodes : List ℕ} {node i : ℕ} :
    (places nodes).lookup node = some i ↔ Owns nodes node i := by
  induction nodes using List.reverseRecOn with
  | nil => exact iff_of_false (fun h => by cases h) (fun h => by cases h.1)
  | append_singleton nodes last ih =>
      rw [places_concat, owns_concat]
      split_ifs with h
      · rw [h, AList.lookup_insert, Option.some.injEq, eq_comm]
      · rw [AList.lookup_insert_ne h, ih]

theorem Owns.unique {created : List ℕ} {node i j : ℕ} (hi : Owns created node i)
    (hj : Owns created node j) : i = j := by
  rw [← lookup_places] at hi hj
  rw [hi] at hj
  exact Option.some.inj hj

theorem Owns.mem {created : List ℕ} {node i : ℕ} (h : Owns created node i) : node ∈ created :=
  List.mem_of_getElem? h.1

theorem Owns.lt_length {created : List ℕ} {node i : ℕ} (h : Owns created node i) :
    i < created.length :=
  (List.getElem?_eq_some_iff.1 h.1).1

theorem exists_owns {created : List ℕ} {node : ℕ} (h : node ∈ created) :
    ∃ i, Owns created node i := by
  induction created using List.reverseRecOn with
  | nil => cases h
  | append_singleton created last ih =>
      by_cases he : node = last
      · exact ⟨created.length, owns_concat.2 (by rw [if_pos he])⟩
      · obtain ⟨i, hi⟩ := ih ((List.mem_append.1 h).resolve_right (by simpa using he))
        exact ⟨i, owns_concat.2 (by rwa [if_neg he])⟩

/-- A request is answered as empty if it takes all items and there are only empty ones. -/
theorem EqualDistributor.replies_eq_empty_iff {queue : List Buffer} {itemsRequested requestID : ℕ} :
    replies queue itemsRequested requestID = [.empty requestID] ↔
      queue.length < itemsRequested ∧ ∀ item ∈ queue, item = [] := by
  unfold replies
  by_cases hlt : queue.length < itemsRequested
  · rw [List.take_of_length_le hlt.le, if_pos hlt]
    constructor
    · intro h
      have hnil := List.append_left_eq_self.1 h
      rw [List.map_eq_nil_iff, List.filter_eq_nil_iff] at hnil
      exact ⟨hlt, fun item hitem => by simpa using hnil item hitem⟩
    · rintro ⟨-, hempty⟩
      rw [List.filter_eq_nil_iff.2 (fun item hitem => by simp [hempty item hitem])]
      rfl
  · rw [List.length_take, if_neg (by omega), List.append_nil]
    refine iff_of_false (fun h => ?_) (fun h => hlt h.1)
    have hmem : Reply.empty requestID ∈ [Reply.empty requestID] := List.mem_singleton_self _
    rw [← h] at hmem
    obtain ⟨item, -, hitem⟩ := List.mem_map.1 hmem
    cases hitem

namespace World

def init : World := ⟨.new, [], []⟩

variable (w : World)

/-- The nodes of the queues into which the next item is pushed. -/
def owners : List ℕ := if w.created = [] then w.distributor.nodes else w.created

def step (w : World) : Event → Option World
  | .setSlaveNodes nodes => some { w with distributor := w.distributor.setSlaveNodes nodes }
  | .pushItem pos item => (w.distributor.pushItem pos item).map (fun d =>
      { w with distributor := d, created := w.owners })
  | .cmdGetItem nodeID itemsRequested requestID =>
      (w.distributor.cmdGetItem nodeID itemsRequested requestID).map (fun r =>
        { w with distributor := r.1, sent := w.sent ++ r.2.map (fun reply => (nodeID, reply)) })

/-- What a step does to the queues: an item is put into the queue of a slave node, a slave node
gets the first items of its own queue, and any other node is told that there are none. -/
def Right : Event → Prop
  | .setSlaveNodes _ => True
  | .pushItem pos item => ∃ w', w.step (.pushItem pos item) = some w' ∧
      ∃ node ∈ w.distributor.nodes, ∃ i queue, Owns w'.created node i ∧
        w.distributor.createQueues.queues[i]? = some queue ∧
        w'.distributor.queues = w.distributor.createQueues.queues.set i (queue ++ [item])
  | .cmdGetItem nodeID itemsRequested requestID =>
      ∃ w', w.step (.cmdGetItem nodeID itemsRequested requestID) = some w' ∧
        (nodeID ∈ w.distributor.nodes → ∃ i queue, Owns w.created nodeID i ∧
          w.distributor.queues[i]? = some queue ∧
          w'.distributor.queues = w.distributor.queues.set i (queue.drop itemsRequested) ∧
          w'.sent = w.sent ++ (EqualDistributor.replies queue itemsRequested requestID).map
            (fun reply => (nodeID, reply))) ∧
        (nodeID ∉ w.distributor.nodes → w'.sent = w.sent ++ [(nodeID, .empty requestID)])

/-- The place of a hint has a queue, and the node that the queue was made for is still a slave
node. A request comes after the first item, and either from a slave node that was one by then, or
from any other node whose place, the first one if it has none, has fewer items than it asks for,
and only empty ones. -/
def Meets : Event → Prop
  | .setSlaveNodes _ => True
  | .pushItem pos _ => w.distributor.absPos pos < w.owners.length ∧
      ∀ node, w.owners[w.distributor.absPos pos]? = some node →
        node ∈ w.distributor.nodes ∧ node ∉ w.owners.drop (w.distributor.absPos pos + 1)
  | .cmdGetItem nodeID itemsRequested _ => w.created ≠ [] ∧
      (nodeID ∈ w.distributor.nodes → nodeID ∈ w.created) ∧
      (nodeID ∉ w.distributor.nodes → ∀ i queue,
        Owns w.created nodeID i ∨ (nodeID ∉ w.created ∧ i = 0) →
          w.distributor.queues[i]? = some queue →
            queue.length < itemsRequested ∧ ∀ item ∈ queue, item = [])

structure Sound : Prop where
  length : w.distributor.queues.length = w.created.length
  unset : w.created = [] → w.distributor.nodeMap = ∅
  lookup : ∀ node i, w.distributor.nodeMap.lookup node = some i →
    Owns w.created node i ∨ (node ∉ w.created ∧ i = 0)
  mapped : ∀ node ∈ w.created, ∃ i, w.distributor.nodeMap.lookup node = some i

variable {w : World}

theorem sound_init : init.Sound where
  length := rfl
  unset := fun _ => rfl
  lookup := fun _ _ h => by cases h
  mapped := fun _ h => absurd h List.not_mem_nil

theorem Sound.createQueues (h : w.Sound) :
    w.distributor.createQueues = if w.created = [] then
      { w.distributor with
        nodeMap := places w.distributor.nodes
        queues := List.replicate w.distributor.nodes.length [] }
    else w.distributor := by
  unfold EqualDistributor.createQueues
  by_cases hcreated : w.created = []
  · rw [if_pos hcreated, h.unset hcreated]
    rfl
  · obtain ⟨node, nodes, hnodes⟩ := List.exists_cons_of_ne_nil hcreated
    obtain ⟨i, hi⟩ := h.mapped node (by rw [hnodes]; exact List.mem_cons_self)
    rw [if_neg hcreated, if_neg]
    intro hempty
    have hmem : node ∈ w.distributor.nodeMap.keys := AList.lookup_isSome.1 (by rw [hi]; rfl)
    rw [AList.keys, List.eq_nil_of_length_eq_zero (Nat.lt_one_iff.1 hempty)] at hmem
    cases hmem

theorem Sound.nodes_createQueues (h : w.Sound) :
    w.distributor.createQueues.nodes = w.distributor.nodes := by
  rw [h.createQueues]
  split_ifs <;> rfl

theorem Sound.length_createQueues (h : w.Sound) :
    w.distributor.createQueues.queues.length = w.owners.length := by
  rw [h.createQueues, owners]
  split_ifs
  · exact List.length_replicate
  · exact h.length

theorem Sound.lookup_createQueues (h : w.Sound) :
    (∀ node i, w.distributor.createQueues.nodeMap.lookup node = some i →
      Owns w.owners node i ∨ (node ∉ w.owners ∧ i = 0)) ∧
    ∀ node ∈ w.owners, ∃ i, w.distributor.createQueues.nodeMap.lookup node = some i := by
  rw [h.createQueues, owners]
  split_ifs
  · refine ⟨fun node i hi => Or.inl (lookup_places.1 hi), fun node hnode => ?_⟩
    obtain ⟨i, hi⟩ := exists_owns hnode
    exact ⟨i, lookup_places.2 hi⟩
  · exact ⟨h.lookup, h.mapped⟩

theorem Sound.lookup_fst (h : w.Sound) (node : ℕ) :
    Owns w.created node (w.distributor.lookup node).1 ∨
      (node ∉ w.created ∧ (w.distributor.lookup node).1 = 0) := by
  unfold EqualDistributor.lookup
  cases hlookup : w.distributor.nodeMap.lookup node with
  | some i => exact h.lookup node i hlookup
  | none =>
      refine Or.inr ⟨fun hnode => ?_, rfl⟩
      obtain ⟨i, hi⟩ := h.mapped node hnode
      rw [hlookup] at hi
      cases hi

/-- A lookup adds at most the first place for a node that has none. -/
theorem lookup_lookup_snd {node node' i : ℕ}
    (h : (w.distributor.lookup node).2.lookup node' = some i) :
    w.distributor.nodeMap.lookup node' = some i ∨
      (node' = node ∧ w.distributor.nodeMap.lookup node = none ∧ i = 0) := by
  unfold EqualDistributor.lookup at h
  cases hlookup : w.distributor.nodeMap.lookup node with
  | some j =>
      rw [hlookup] at h
      exact Or.inl h
  | none =>
      rw [hlookup] at h
      by_cases he : node' = node
      · rw [he, AList.lookup_insert, Option.some.injEq] at h
        exact Or.inr ⟨he, rfl, h.symm⟩
      · rw [AList.lookup_insert_ne he] at h
        exact Or.inl h

theorem lookup_snd_of_lookup {node node' i : ℕ}
    (h : w.distributor.nodeMap.lookup node' = some i) :
    (w.distributor.lookup node).2.lookup node' = some i := by
  unfold EqualDistributor.lookup
  cases hlookup : w.distributor.nodeMap.lookup node with
  | some j => exact h
  | none =>
      have hne : node' ≠ node := fun he => by
        rw [he, hlookup] at h
        cases h
      rw [AList.lookup_insert_ne hne]
      exact h

theorem Sound.step_pushItem_iff (h : w.Sound) {pos : Hint} {item : Buffer} {w' : World} :
    w.step (.pushItem pos item) = some w' ↔
      ∃ queue, w.distributor.createQueues.queues[w.distributor.absPos pos]? = some queue ∧
        w' = { w with
          distributor := { w.distributor.createQueues with
            queues := w.distributor.createQueues.queues.set (w.distributor.absPos pos)
              (queue ++ [item]) }
          created := w.owners } := by
  have habs : w.distributor.createQueues.absPos pos = w.distributor.absPos pos := by
    rw [EqualDistributor.absPos, h.nodes_createQueues, EqualDistributor.absPos]
  simp only [World.step, EqualDistributor.pushItem, habs]
  rw [Option.map_map, Option.map_eq_some_iff]
  exact exists_congr fun queue => and_congr_right fun _ => eq_comm

theorem step_cmdGetItem_iff {nodeID itemsRequested requestID : ℕ} {w' : World} :
    w.step (.cmdGetItem nodeID itemsRequested requestID) = some w' ↔
      ∃ queue, w.distributor.queues[(w.distributor.lookup nodeID).1]? = some queue ∧
        w' = { w with
          distributor := { w.distributor with
            nodeMap := (w.distributor.lookup nodeID).2
            queues := w.distributor.queues.set (w.distributor.lookup nodeID).1
              (queue.drop itemsRequested) }
          sent := w.sent ++ (EqualDistributor.replies queue itemsRequested requestID).map
            (fun reply => (nodeID, reply)) } := by
  rw [step, EqualDistributor.cmdGetItem, Option.map_map, Option.map_eq_some_iff]
  exact exists_congr fun queue => and_congr_right fun _ => eq_comm

theorem Sound.step (h : w.Sound) {e : Event} {w' : World} (hstep : w.step e = some w') :
    w'.Sound := by
  cases e with
  | setSlaveNodes nodes =>
      cases hstep
      exact ⟨h.length, h.unset, h.lookup, h.mapped⟩
  | pushItem pos item =>
      obtain ⟨queue, hqueue, rfl⟩ := h.step_pushItem_iff.1 hstep
      obtain ⟨hlookup, hmapped⟩ := h.lookup_createQueues
      refine ⟨?_, fun hnil => ?_, hlookup, hmapped⟩
      · exact (List.length_set ..).trans h.length_createQueues
      · have hlt := (List.getElem?_eq_some_iff.1 hqueue).1
        rw [h.length_createQueues, show w.owners = [] from hnil] at hlt
        exact absurd hlt (Nat.not_lt_zero _)
  | cmdGetItem nodeID itemsRequested requestID =>
      obtain ⟨queue, hqueue, rfl⟩ := step_cmdGetItem_iff.1 hstep
      refine ⟨(List.length_set ..).trans h.length, fun hnil => ?_, fun node i hi => ?_,
        fun node hnode => ?_⟩
      · have hlt := (List.getElem?_eq_some_iff.1 hqueue).1
        rw [h.length, show w.created = [] from hnil] at hlt
        exact absurd hlt (Nat.not_lt_zero _)
      · rcases lookup_lookup_snd hi with hi | ⟨rfl, hnone, rfl⟩
        · exact h.lookup node i hi
        · refine Or.inr ⟨fun hnode => ?_, rfl⟩
          obtain ⟨i, hi⟩ := h.mapped node hnode
          rw [hnone] at hi
          cases hi
      · obtain ⟨i, hi⟩ := h.mapped node hnode
        exact ⟨i, lookup_snd_of_lookup hi⟩

theorem Sound.right_push_iff (h : w.Sound) (pos : Hint) (item : Buffer) :
    w.Right (.pushItem pos item) ↔ w.Meets (.pushItem pos item) := by
  constructor
  · rintro ⟨w', hstep, node, hnode, i, queue, howns, hqueue, hset⟩
    obtain ⟨queue', hqueue', rfl⟩ := h.step_pushItem_iff.1 hstep
    have hi : w.distributor.absPos pos = i := by
      by_contra hne
      have hget := congrArg (fun queues => queues[i]?) hset
      simp only [List.getElem?_set_ne hne, hqueue] at hget
      rw [List.getElem?_set_self (List.getElem?_eq_some_iff.1 hqueue).1, Option.some.injEq] at hget
      exact absurd (congrArg List.length hget) (by simp)
    subst hi
    refine ⟨howns.lt_length, fun node' hnode' => ?_⟩
    obtain rfl : node = node' := Option.some.inj (howns.1.symm.trans hnode')
    exact ⟨hnode, howns.2⟩
  · rintro ⟨hlt, hnode⟩
    have hlt' := hlt
    rw [← h.length_createQueues] at hlt'
    have hget := List.getElem?_eq_getElem hlt
    obtain ⟨hmem, hlast⟩ := hnode _ hget
    refine ⟨_, h.step_pushItem_iff.2 ⟨_, List.getElem?_eq_getElem hlt', rfl⟩, _, hmem, _, _,
      ⟨hget, hlast⟩,
      List.getElem?_eq_getElem hlt', rfl⟩

theorem Sound.right_get_iff (h : w.Sound) (nodeID itemsRequested requestID : ℕ) :
    w.Right (.cmdGetItem nodeID itemsRequested requestID) ↔
      w.Meets (.cmdGetItem nodeID itemsRequested requestID) := by
  constructor
  · rintro ⟨w', hstep, hslave, hother⟩
    obtain ⟨queue, hqueue, rfl⟩ := step_cmdGetItem_iff.1 hstep
    refine ⟨fun hnil => ?_, fun hnode => ?_, fun hnode i queue' hi hqueue' => ?_⟩
    · have hlt := (List.getElem?_eq_some_iff.1 hqueue).1
      rw [h.length, hnil] at hlt
      exact absurd hlt (Nat.not_lt_zero _)
    · obtain ⟨i, -, howns, -⟩ := hslave hnode
      exact howns.mem
    · have hplace : i = (w.distributor.lookup nodeID).1 := by
        rcases h.lookup_fst nodeID with hplace | ⟨hout, hplace⟩
        · rcases hi with hi | ⟨hout, -⟩
          · exact hi.unique hplace
          · exact absurd hplace.mem hout
        · rcases hi with hi | ⟨-, rfl⟩
          · exact absurd hi.mem hout
          · exact hplace.symm
      rw [hplace, hqueue, Option.some.injEq] at hqueue'
      subst hqueue'
      have hinj : Function.Injective (List.map (fun reply : Reply => (nodeID, reply))) :=
        List.map_injective_iff.2 (fun _ _ he => (Prod.mk.inj he).2)
      exact EqualDistributor.replies_eq_empty_iff.1
        (hinj ((List.append_cancel_left (hother hnode)).trans rfl))
  · rintro ⟨hne, hslave, hother⟩
    have hlt : (w.distributor.lookup nodeID).1 < w.distributor.queues.length := by
      rw [h.length]
      rcases h.lookup_fst nodeID with hplace | ⟨-, hplace⟩
      · exact hplace.lt_length
      · rw [hplace]
        exact List.length_pos_of_ne_nil hne
    have hget := List.getElem?_eq_getElem hlt
    refine ⟨_, step_cmdGetItem_iff.2 ⟨_, hget, rfl⟩, fun hnode => ?_, fun hnode => ?_⟩
    · have howns := (h.lookup_fst nodeID).resolve_right (fun hout => hout.1 (hslave hnode))
      exact ⟨_, _, howns, hget, rfl, rfl⟩
    · rw [EqualDistributor.replies_eq_empty_iff.2 (hother hnode _ _ (h.lookup_fst nodeID) hget)]
      rfl

theorem Sound.right_iff (h : w.Sound) (e : Event) : w.Right e ↔ w.Meets e := by
  cases e with
  | setSlaveNodes nodes => exact Iff.rfl
  | pushItem pos item => exact h.right_push_iff pos item
  | cmdGetItem nodeID itemsRequested requestID => exact h.right_get_iff nodeID itemsRequested requestID

/-- A run in which all steps are right has no index that is out of range. -/
theorem run_isSome {w : World} {events : List Event} (h : Machine.Steps step Right w events) :
    (Machine.run step w events).isSome = true := by
  induction events generalizing w with
  | nil => rfl
  | cons e events ih =>
      have hstep : ∃ w', w.step e = some w' := by
        cases e with
        | setSlaveNodes nodes => exact ⟨_, rfl⟩
        | pushItem pos item =>
            obtain ⟨w', hw', -⟩ := h.1
            exact ⟨w', hw'⟩
        | cmdGetItem nodeID itemsRequested requestID =>
            obtain ⟨w', hw', -⟩ := h.1
            exact ⟨w', hw'⟩
      obtain ⟨w', hw'⟩ := hstep
      rw [Machine.run, hw']
      exact ih (h.2 w' hw')

/-- In every series of calls the items are put into the queues of slave nodes and come from the own
queue of the node that asks, exactly if each call meets its condition. -/
theorem steps_right_iff (events : List Event) :
    (Machine.Steps step Right init events ∧ (Machine.run step init events).isSome = true) ↔
      Machine.Steps step Meets init events := by
  constructor
  · rintro ⟨h, -⟩
    exact h.of_invariant (fun _ _ _ hs _ => hs.step) (fun _ e hs => (hs.right_iff e).1) sound_init
  · intro h
    have hright := h.of_invariant (fun _ _ _ hs _ => hs.step) (fun _ e hs => (hs.right_iff e).2)
      sound_init
    exact ⟨hright, run_isSome hright⟩

end World

def Hint.last : Hint := ⟨1, by decide, le_rfl⟩

/-- The last item of a single slave node has no queue. -/
theorem World.last_out_of_range :
    let events := [.setSlaveNodes [7], .pushItem Hint.last [1]]
    (Machine.run World.step World.init events).isNone = true ∧
      ¬ Machine.Steps World.step World.Right World.init events := by
  have hnone : (Machine.run World.step World.init
      [.setSlaveNodes [7], .pushItem Hint.last [1]]).isNone = true := by decide +kernel
  refine ⟨hnone, fun h => ?_⟩
  have hsome := World.run_isSome h
  rw [Option.isNone_iff_eq_none.1 hnone] at hsome
  cases hsome

end Collage.Equal
