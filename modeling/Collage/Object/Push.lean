import Collage.Object.SlaveCommits

/-!
# Pushed objects

The instance data of an object are sent to nodes that need not have mapped it (`Object::push`). The
receiver thread of such a node collects the data commands of each object (`_cmdInstance`). Its
command thread takes the stream of an object when it handles the push command (`_cmdPush`), and it
waits for this stream: `ObjectCM::push` sends the push command before the last data command, and
`FullMasterCM::push` sends it after all of them. The objects have data, and an object is not pushed
again before its last push was sent.
-/

namespace Collage.ObjectPush

open SlaveCommits (DataCommand Commit ObjectDataIStream QueuedStream DataIStreamQueue)

/-- `CMD_NODE_OBJECT_PUSH`. -/
structure PushCommand where
  objectID : ℕ
  groupID : ℕ
  typeID : ℕ
  deriving DecidableEq

structure Push where
  data : Commit
  groupID : ℕ
  typeID : ℕ
  /-- The push command is sent before the stream is disabled. -/
  early : Bool

inductive Message
  | data (command : DataCommand)
  | push (groupID typeID : ℕ)

def Push.messages (p : Push) : List Message :=
  p.data.first.map (fun data => .data ⟨data, false⟩) ++
    if p.early then [.push p.groupID p.typeID, .data ⟨p.data.last, true⟩]
    else [.data ⟨p.data.last, true⟩, .push p.groupID p.typeID]

def Push.command (p : Push) (objectID : ℕ) : PushCommand := ⟨objectID, p.groupID, p.typeID⟩

namespace Push

variable (p : Push) (received : ℕ)

/-- The place of the push command among the messages. -/
def pushAt : ℕ := if p.early then p.data.first.length else p.data.first.length + 1

/-- How many push commands there are among the messages that were received. -/
def commanded : ℕ := if p.pushAt < received then 1 else 0

def dataReceived : ℕ := received - p.commanded received

def completed : ℕ := if p.dataReceived received = p.data.commands.length then 1 else 0

end Push

/-- How much of the pushes of an object was received: whole pushes, and messages of the next one. -/
structure Position where
  whole : ℕ
  messages : ℕ

namespace Position

variable (pushes : ℕ → Push) (r : Position)

def next : Push := pushes r.whole

def advance : Position :=
  if r.messages + 1 = (r.next pushes).messages.length then ⟨r.whole + 1, 0⟩
  else ⟨r.whole, r.messages + 1⟩

def commanded : ℕ := r.whole + (r.next pushes).commanded r.messages

def completed : ℕ := r.whole + (r.next pushes).completed r.messages

def pending : Option ObjectDataIStream :=
  (r.next pushes).data.pending ((r.next pushes).dataReceived r.messages)

end Position

/-- A call of `_cmdPush` in `pull`, with the stream when it is found. -/
structure Call where
  command : PushCommand
  unusedStreams : List QueuedStream
  stream : Option ObjectDataIStream

/-- A node that objects are pushed to. -/
structure World where
  received : ℕ → Position
  pushData : DataIStreamQueue
  /-- The push commands that the command thread has not handled yet. -/
  commands : List PushCommand
  call : Option Call
  /-- All push commands, in the order in which they were received. -/
  announced : List PushCommand
  /-- The calls of `objectPush`. -/
  handled : List (PushCommand × ObjectDataIStream)

inductive Event
  /-- The receiver thread gets the next message of an object. -/
  | receive (objectID : ℕ)
  | cmdPush
  /-- The body of the loop of `pull`. -/
  | candidate
  /-- `pull` puts the unused streams back, and the handler of the group is called. -/
  | objectPush

namespace World

def init : World where
  received := fun _ => ⟨0, 0⟩
  pushData := ⟨fun _ => none, []⟩
  commands := []
  call := none
  announced := []
  handled := []

variable (pushes : ℕ → ℕ → Push) (w : World)

def next (objectID : ℕ) : Option Message :=
  ((w.received objectID).next (pushes objectID)).messages[(w.received objectID).messages]?

def dispatch (objectID : ℕ) : Message → World
  | .data command => { w with pushData := (w.pushData.addDataCommand objectID command).1 }
  | .push groupID typeID =>
      { w with
        commands := w.commands ++ [⟨objectID, groupID, typeID⟩]
        announced := w.announced ++ [⟨objectID, groupID, typeID⟩] }

def receive (objectID : ℕ) (message : Message) : World :=
  { w.dispatch objectID message with
    received := Function.update w.received objectID
      ((w.received objectID).advance (pushes objectID)) }

def step (w : World) : Event → Option World
  | .receive objectID => (w.next pushes objectID).map (w.receive pushes objectID)
  | .cmdPush =>
      match w.call, w.commands with
      | none, command :: commands =>
          some { w with call := some ⟨command, [], none⟩, commands := commands }
      | _, _ => none
  | .candidate =>
      match w.call, w.pushData.queued with
      | some ⟨command, unusedStreams, none⟩, s :: queued =>
          some { w with
            pushData := { w.pushData with queued := queued }
            call := if s.1 = command.objectID then some ⟨command, unusedStreams, some s.2⟩
              else some ⟨command, unusedStreams ++ [s], none⟩ }
      | _, _ => none
  | .objectPush =>
      match w.call with
      | some ⟨command, unusedStreams, some stream⟩ =>
          some { w with
            pushData := { w.pushData with queued := unusedStreams ++ w.pushData.queued }
            call := none
            handled := w.handled ++ [(command, stream)] }
      | _ => none

/-- The streams that are not taken yet, in the order in which the queue will hold them. -/
def waiting : List QueuedStream := w.call.elim [] Call.unusedStreams ++ w.pushData.queued

/-- The stream that `pull` has found. -/
def found : List (PushCommand × ObjectDataIStream) :=
  match w.call with
  | some ⟨command, _, some stream⟩ => [(command, stream)]
  | _ => []

/-- The streams of an object, those that were taken first. -/
def streams (objectID : ℕ) : List ObjectDataIStream :=
  ((w.handled ++ w.found).filter (fun h => h.1.objectID = objectID)).map Prod.snd ++
    (w.waiting.filter (fun s => s.1 = objectID)).map Prod.snd

structure Sound : Prop where
  received : ∀ k, (w.received k).messages < ((w.received k).next (pushes k)).messages.length
  pending : ∀ k, w.pushData.pending k = (w.received k).pending (pushes k)
  streams : ∀ k, w.streams k =
    (List.range ((w.received k).completed (pushes k))).map (fun i => (pushes k i).data.stream)
  order : w.handled.map Prod.fst ++ (w.call.map Call.command).toList ++ w.commands = w.announced
  announced : ∀ k, w.announced.filter (fun c => c.objectID = k) =
    (List.range ((w.received k).commanded (pushes k))).map (fun i => (pushes k i).command k)
  unused : ∀ c, w.call = some c → ∀ s ∈ c.unusedStreams, s.1 ≠ c.command.objectID

end World

namespace Push

theorem length_messages (p : Push) : p.messages.length = p.data.first.length + 2 := by
  rw [messages, List.length_append, List.length_map]
  split <;> rfl

theorem messages_of_lt {p : Push} {j : ℕ} (h : j < p.data.first.length) :
    p.messages[j]? = p.data.commands[j]?.map Message.data := by
  rw [messages, Commit.commands, List.getElem?_append_left (by rwa [List.length_map]),
    List.getElem?_append_left (by rwa [List.length_map]), List.getElem?_map, List.getElem?_map,
    Option.map_map]
  rfl

theorem messages_first (p : Push) : p.messages[p.data.first.length]? =
    some (if p.early then .push p.groupID p.typeID else .data ⟨p.data.last, true⟩) := by
  rw [messages, List.getElem?_append_right (by rw [List.length_map]), List.length_map, Nat.sub_self]
  split <;> rfl

theorem messages_second (p : Push) : p.messages[p.data.first.length + 1]? =
    some (if p.early then .data ⟨p.data.last, true⟩ else .push p.groupID p.typeID) := by
  rw [messages, List.getElem?_append_right (by rw [List.length_map]; omega), List.length_map,
    Nat.add_sub_cancel_left]
  split <;> rfl

theorem commands_last (data : Commit) :
    data.commands[data.first.length]? = some ⟨data.last, true⟩ := by
  rw [Commit.commands, List.getElem?_append_right (by rw [List.length_map]), List.length_map,
    Nat.sub_self]
  rfl

theorem messages_pushAt (p : Push) : p.messages[p.pushAt]? = some (.push p.groupID p.typeID) := by
  rw [pushAt]
  split
  · rw [messages_first, if_pos ‹_›]
  · rw [messages_second, if_neg ‹_›]

theorem messages_of_ne {p : Push} {m : ℕ} (h : m < p.messages.length) (hne : m ≠ p.pushAt) :
    p.messages[m]? = p.data.commands[p.dataReceived m]?.map Message.data := by
  rw [length_messages] at h
  rcases Nat.lt_trichotomy m p.data.first.length with hlt | rfl | hgt
  · have hdata : p.dataReceived m = m := by
      have hpush : p.data.first.length ≤ p.pushAt := by
        rw [pushAt]
        split <;> omega
      rw [dataReceived, commanded, if_neg (by omega), Nat.sub_zero]
    rw [messages_of_lt hlt, hdata]
  · have hearly : ¬p.early = true := fun he => hne (by rw [pushAt, if_pos he])
    have hdata : p.dataReceived p.data.first.length = p.data.first.length := by
      rw [dataReceived, commanded, pushAt, if_neg hearly, if_neg (by omega), Nat.sub_zero]
    rw [messages_first, if_neg hearly, hdata, commands_last]
    rfl
  · obtain rfl : m = p.data.first.length + 1 := by omega
    have hearly : p.early = true := by
      by_contra he
      exact hne (by rw [pushAt, if_neg he])
    have hdata : p.dataReceived (p.data.first.length + 1) = p.data.first.length := by
      rw [dataReceived, commanded, pushAt, if_pos hearly, if_pos (by omega), Nat.add_sub_cancel]
    rw [messages_second, if_pos hearly, hdata, commands_last]
    rfl

theorem pushAt_lt (p : Push) : p.pushAt < p.messages.length := by
  rw [length_messages, pushAt]
  split <;> omega

theorem commanded_zero (p : Push) : p.commanded 0 = 0 := if_neg (Nat.not_lt_zero _)

theorem commanded_pushAt (p : Push) : p.commanded p.pushAt = 0 := if_neg (Nat.lt_irrefl _)

theorem commanded_pushAt_succ (p : Push) : p.commanded (p.pushAt + 1) = 1 :=
  if_pos (Nat.lt_succ_self _)

theorem commanded_succ_of_ne {p : Push} {m : ℕ} (hne : m ≠ p.pushAt) :
    p.commanded (m + 1) = p.commanded m := by
  rw [commanded, commanded]
  exact if_congr (by omega) rfl rfl

theorem commanded_length (p : Push) : p.commanded p.messages.length = 1 := if_pos p.pushAt_lt

theorem commanded_le (p : Push) (m : ℕ) : p.commanded m ≤ m := by
  rw [commanded]
  split <;> omega

theorem dataReceived_pushAt_succ (p : Push) :
    p.dataReceived (p.pushAt + 1) = p.dataReceived p.pushAt := by
  rw [dataReceived, dataReceived, commanded_pushAt_succ, commanded_pushAt]
  rfl

theorem dataReceived_succ_of_ne {p : Push} {m : ℕ} (hne : m ≠ p.pushAt) :
    p.dataReceived (m + 1) = p.dataReceived m + 1 := by
  have hle := p.commanded_le m
  rw [dataReceived, dataReceived, commanded_succ_of_ne hne]
  omega

theorem dataReceived_length (p : Push) :
    p.dataReceived p.messages.length = p.data.commands.length := by
  rw [dataReceived, commanded_length, length_messages, Commit.length_commands]
  rfl

theorem pending_length (data : Commit) : data.pending data.commands.length = none :=
  if_neg (fun h => Nat.lt_irrefl _ h.2)

theorem completed_zero (p : Push) : p.completed 0 = 0 := by
  refine if_neg (fun h => ?_)
  rw [dataReceived, Nat.zero_sub, Commit.length_commands] at h
  omega

theorem completed_length (p : Push) : p.completed p.messages.length = 1 :=
  if_pos p.dataReceived_length

end Push

namespace Position

variable {pushes : ℕ → Push} {r : Position}

theorem advance_commanded : (r.advance pushes).commanded pushes =
    r.whole + (r.next pushes).commanded (r.messages + 1) := by
  rw [advance]
  split
  · rename_i h
    rw [h, Push.commanded_length, commanded, Push.commanded_zero, Nat.add_zero]
  · rfl

theorem advance_completed : (r.advance pushes).completed pushes =
    r.whole + (r.next pushes).completed (r.messages + 1) := by
  rw [advance]
  split
  · rename_i h
    rw [h, Push.completed_length, completed, Push.completed_zero, Nat.add_zero]
  · rfl

theorem advance_pending : (r.advance pushes).pending pushes =
    (r.next pushes).data.pending ((r.next pushes).dataReceived (r.messages + 1)) := by
  rw [advance]
  split
  · rename_i h
    rw [h, Push.dataReceived_length, Push.pending_length, pending, Push.dataReceived, Nat.zero_sub]
    exact if_neg (fun hlt => Nat.lt_irrefl _ hlt.1)
  · rfl

theorem advance_lt (h : r.messages < (r.next pushes).messages.length) :
    (r.advance pushes).messages < ((r.advance pushes).next pushes).messages.length := by
  rw [advance]
  split
  · rw [Push.length_messages]
    exact Nat.succ_pos _
  · exact Nat.lt_of_le_of_ne h ‹_›

end Position

theorem addDataCommand_of_pending {q : DataIStreamQueue} {key m : ℕ} {data : Commit}
    {command : DataCommand} (hpending : q.pending key = data.pending m)
    (hcommand : data.commands[m]? = some command) :
    (q.addDataCommand key command).1 =
      ⟨Function.update q.pending key (data.pending (m + 1)),
        if m + 1 = data.commands.length then q.queued ++ [(key, data.stream)] else q.queued⟩ := by
  have hlt := (List.getElem?_eq_some_iff.1 hcommand).1
  have hget : (q.pending key).getD ObjectDataIStream.new = ⟨data.commands.take m, false⟩ := by
    rw [hpending, Commit.pending]
    rcases Nat.eq_zero_or_pos m with rfl | hpos
    · rw [if_neg (fun h => Nat.lt_irrefl _ h.1)]
      rfl
    · rw [if_pos ⟨hpos, hlt⟩]
      rfl
  have hstream : ((q.pending key).getD ObjectDataIStream.new).addDataCommand command =
      ⟨data.commands.take (m + 1), decide (m + 1 = data.commands.length)⟩ := by
    rw [hget, ObjectDataIStream.addDataCommand, Bool.false_or, Commit.isLast_getElem hcommand,
      List.take_add_one, hcommand]
    rfl
  rw [DataIStreamQueue.addDataCommand, hstream]
  by_cases hlast : m + 1 = data.commands.length
  · simp [hlast, Commit.stream, Push.pending_length]
  · have hmore : m + 1 < data.commands.length := by omega
    simp [hlast, Commit.pending, hmore]

namespace World

variable {pushes : ℕ → ℕ → Push} {w w' : World}

theorem sound_init : init.Sound pushes where
  received k := by
    rw [Push.length_messages]
    exact Nat.succ_pos _
  pending k := by
    rw [Position.pending, Push.dataReceived, init, Nat.zero_sub]
    exact (if_neg (fun h => Nat.lt_irrefl _ h.1)).symm
  streams k := by
    rw [Position.completed, init, Push.completed_zero]
    rfl
  order := rfl
  announced k := by
    rw [Position.commanded, init, Push.commanded_zero]
    rfl
  unused c h := by cases h

theorem found_of_call (hcall : w'.call = w.call) : w'.found = w.found := by
  rw [found, found, hcall]

theorem streams_queue {queued : List QueuedStream}
    (hqueued : w'.pushData.queued = w.pushData.queued ++ queued) (k : ℕ)
    (hcall : w'.call = w.call) (hhandled : w'.handled = w.handled) :
    w'.streams k = w.streams k ++ (queued.filter (fun s => s.1 = k)).map Prod.snd := by
  rw [streams, streams, waiting, waiting, found_of_call hcall, hcall, hhandled, hqueued,
    ← List.append_assoc, List.filter_append _ queued, @List.map_append _ _ _ _ (queued.filter _),
    List.append_assoc]

namespace Sound

theorem received_lt (h : w.Sound pushes) (k : ℕ) (message : Message) (k' : ℕ) :
    ((w.receive pushes k message).received k').messages <
      (((w.receive pushes k message).received k').next (pushes k')).messages.length := by
  rcases eq_or_ne k' k with rfl | hk
  · simp only [World.receive, Function.update_self]
    exact Position.advance_lt (h.received k')
  · simp only [World.receive, Function.update_of_ne hk]
    exact h.received k'

theorem receive_data (h : w.Sound pushes) {k : ℕ} {command : DataCommand}
    (hcommand : ((w.received k).next (pushes k)).data.commands[
      ((w.received k).next (pushes k)).dataReceived (w.received k).messages]? = some command)
    (hne : (w.received k).messages ≠ ((w.received k).next (pushes k)).pushAt) :
    (w.receive pushes k (.data command)).Sound pushes := by
  have hlt := (List.getElem?_eq_some_iff.1 hcommand).1
  have hqueue := addDataCommand_of_pending (h.pending k) hcommand
  have hqueued : (w.receive pushes k (.data command)).pushData.queued = w.pushData.queued ++
      if ((w.received k).next (pushes k)).dataReceived (w.received k).messages + 1 =
        ((w.received k).next (pushes k)).data.commands.length
      then [(k, ((w.received k).next (pushes k)).data.stream)] else [] := by
    simp only [receive, dispatch, hqueue]
    split
    · rfl
    · exact (List.append_nil _).symm
  have hcompleted : ((w.received k).next (pushes k)).completed (w.received k).messages = 0 :=
    if_neg hlt.ne
  refine ⟨h.received_lt k _, fun k' => ?_, fun k' => ?_, h.order, fun k' => ?_, h.unused⟩
  · rcases eq_or_ne k' k with rfl | hk
    · simp only [receive, dispatch, Function.update_self, hqueue, Position.advance_pending,
        Push.dataReceived_succ_of_ne hne]
    · simp only [receive, dispatch, Function.update_of_ne hk, hqueue]
      exact h.pending k'
  · rw [streams_queue hqueued k' rfl rfl, h.streams]
    rcases eq_or_ne k' k with rfl | hk
    · simp only [receive, Function.update_self, Position.advance_completed]
      rw [Position.completed, hcompleted, Nat.add_zero, Push.completed,
        Push.dataReceived_succ_of_ne hne]
      split
      · rw [List.range_succ, List.map_append]
        simp [Position.next]
      · exact List.append_nil _
    · simp only [receive, Function.update_of_ne hk]
      split
      · simp [Ne.symm hk]
      · exact List.append_nil _
  · rcases eq_or_ne k' k with rfl | hk
    · simp only [receive, Function.update_self, Position.advance_commanded,
        Push.commanded_succ_of_ne hne]
      exact h.announced k'
    · simp only [receive, Function.update_of_ne hk]
      exact h.announced k'

theorem receive_push (h : w.Sound pushes) {k : ℕ}
    (heq : (w.received k).messages = ((w.received k).next (pushes k)).pushAt) :
    (w.receive pushes k (.push ((w.received k).next (pushes k)).groupID
      ((w.received k).next (pushes k)).typeID)).Sound pushes := by
  refine ⟨h.received_lt k _, fun k' => ?_, fun k' => ?_, ?_, fun k' => ?_, h.unused⟩
  · rcases eq_or_ne k' k with rfl | hk
    · simp only [receive, dispatch, Function.update_self, Position.advance_pending]
      rw [h.pending, Position.pending, heq, Push.dataReceived_pushAt_succ]
    · simp only [receive, dispatch, Function.update_of_ne hk]
      exact h.pending k'
  · refine (h.streams k').trans ?_
    rcases eq_or_ne k' k with rfl | hk
    · simp only [receive, Function.update_self, Position.advance_completed]
      rw [Position.completed, Push.completed, Push.completed, heq, Push.dataReceived_pushAt_succ]
    · simp only [receive, Function.update_of_ne hk]
  · simp only [receive, dispatch]
    rw [← List.append_assoc, h.order]
  · simp only [receive, dispatch, List.filter_append, h.announced]
    rcases eq_or_ne k' k with rfl | hk
    · rw [Function.update_self, Position.advance_commanded, Position.commanded, heq,
        Push.commanded_pushAt, Push.commanded_pushAt_succ, Nat.add_zero, List.range_succ,
        List.map_append]
      simp [Push.command, Position.next]
    · rw [Function.update_of_ne hk]
      simp [Ne.symm hk]

theorem receive (h : w.Sound pushes) {k : ℕ}
    (hstep : w.step pushes (.receive k) = some w') : w'.Sound pushes := by
  simp only [World.step, Option.map_eq_some_iff] at hstep
  obtain ⟨message, hmessage, rfl⟩ := hstep
  rw [World.next] at hmessage
  by_cases heq : (w.received k).messages = ((w.received k).next (pushes k)).pushAt
  · rw [heq, Push.messages_pushAt] at hmessage
    cases hmessage
    exact h.receive_push heq
  · rw [Push.messages_of_ne (h.received k) heq, Option.map_eq_some_iff] at hmessage
    obtain ⟨command, hcommand, rfl⟩ := hmessage
    exact h.receive_data hcommand heq

theorem of_streams_eq (h : w.Sound pushes) (hreceived : w'.received = w.received)
    (hpending : w'.pushData.pending = w.pushData.pending)
    (hannounced : w'.announced = w.announced)
    (hfound : w'.handled ++ w'.found = w.handled ++ w.found) (hwaiting : w'.waiting = w.waiting)
    (horder : w'.handled.map Prod.fst ++ (w'.call.map Call.command).toList ++ w'.commands =
      w.handled.map Prod.fst ++ (w.call.map Call.command).toList ++ w.commands)
    (hunused : ∀ c, w'.call = some c → ∀ s ∈ c.unusedStreams, s.1 ≠ c.command.objectID) :
    w'.Sound pushes where
  received := hreceived ▸ h.received
  pending := hreceived ▸ hpending ▸ h.pending
  streams k := by rw [hreceived, ← h.streams, World.streams, World.streams, hfound, hwaiting]
  order := by rw [horder, h.order, hannounced]
  announced := hreceived ▸ hannounced ▸ h.announced
  unused := hunused

theorem cmdPush (h : w.Sound pushes) (hstep : w.step pushes .cmdPush = some w') :
    w'.Sound pushes := by
  simp only [World.step] at hstep
  split at hstep
  · rename_i command commands hcall hcommands
    cases hstep
    refine h.of_streams_eq rfl rfl rfl ?_ ?_ ?_ (fun c hc => ?_)
    · simp only [found, hcall]
    · simp only [waiting, hcall]
      rfl
    · rw [hcall, hcommands]
      simp
    · cases hc
      exact fun s hs => absurd hs List.not_mem_nil
  · cases hstep

theorem candidate (h : w.Sound pushes) (hstep : w.step pushes .candidate = some w') :
    w'.Sound pushes := by
  simp only [World.step] at hstep
  split at hstep
  · rename_i command unusedStreams s queued hcall hqueued
    cases hstep
    have hunused := h.unused _ hcall
    by_cases hs : s.1 = command.objectID
    · rw [if_pos hs]
      refine ⟨h.received, h.pending, fun k => ?_, ?_, h.announced, fun c hc => ?_⟩
      · rw [← h.streams]
        have hnone : unusedStreams.filter (fun s => s.1 = command.objectID) = [] :=
          List.filter_eq_nil_iff.2 (fun s' hs' => by simpa using hunused s' hs')
        by_cases hk : command.objectID = k
        · subst hk
          simp [World.streams, found, waiting, hcall, hqueued, hs, hnone]
        · simp [World.streams, found, waiting, hcall, hqueued, hs, hk]
      · rw [← h.order, hcall]
        rfl
      · cases hc
        exact hunused
    · rw [if_neg hs]
      refine h.of_streams_eq rfl rfl rfl ?_ ?_ ?_ (fun c hc s' hs' => ?_)
      · simp [found, hcall]
      · simp [waiting, hcall, hqueued]
      · rw [hcall]
        rfl
      · cases hc
        rcases List.mem_append.1 hs' with hs' | hs'
        · exact hunused s' hs'
        · rw [List.mem_singleton.1 hs']
          exact hs
  · cases hstep

theorem objectPush (h : w.Sound pushes) (hstep : w.step pushes .objectPush = some w') :
    w'.Sound pushes := by
  simp only [World.step] at hstep
  split at hstep
  · rename_i command unusedStreams stream hcall
    cases hstep
    refine h.of_streams_eq rfl rfl rfl ?_ ?_ ?_ (fun c hc => by cases hc)
    · simp [found, hcall]
    · simp [waiting, hcall]
    · simp [hcall]
  · cases hstep

theorem step (h : w.Sound pushes) {e : Event} (hstep : w.step pushes e = some w') :
    w'.Sound pushes := by
  cases e with
  | receive k => exact h.receive hstep
  | cmdPush => exact h.cmdPush hstep
  | candidate => exact h.candidate hstep
  | objectPush => exact h.objectPush hstep

end Sound

theorem sound_run {es : List Event} (hrun : Machine.run (World.step pushes) init es = some w) :
    w.Sound pushes :=
  Machine.run_invariant (fun w => w.Sound pushes) (fun _ _ _ h _ hs => h.step hs) sound_init
    (Machine.steps_true _ _) hrun

end World

end Collage.ObjectPush
