import Collage.Lib.Run
import Collage.Rsp.Handlers
import Collage.Rsp.RepeatQueue
import Collage.Rsp.Sound
import Mathlib.Tactic.Abel

/-!
# Nacked packets are sent again

The write queue holds the last packets sent, in order. `_processOutgoing` writes new packets only
while no repeat is asked for, so a request keeps its meaning while it waits. A requested number
leaves the queue when its packet is sent again, or when nobody needs the packet any more.
-/

namespace Collage.Rsp.Connection

variable {cfg : Config} {c c' : Connection}

/-- What the writer keeps about the packets it has sent. -/
def backlog (c : Connection) : U16 × List Buffer × List Nack :=
  (c.sequence, c.writeBuffers, c.repeatQueue)

/-- The write queue holds the packets before the next one, in order. -/
def Numbered (c : Connection) : Prop :=
  ∀ k b, c.writeBuffers[k]? = some b →
    b.data.sequence = c.sequence - BitVec.ofNat 16 c.writeBuffers.length + BitVec.ofNat 16 k

/-- A request for packets that have been sent, as a range that does not wrap. The next packet has
the only number that no packet sent before can be asked for by. -/
def SentBefore (c : Connection) (r : Nack) : Prop := r.start ≤ r.stop ∧ ¬ r.names c.sequence

instance (c : Connection) (r : Nack) : Decidable (c.SentBefore r) :=
  inferInstanceAs (Decidable (_ ∧ _))

/-- Nacks ask for packets already sent. No packet comes from the writer itself, as is asserted,
and the writer does not close the group. -/
def Asked (cfg : Config) (c : Connection) : Event → Prop
  | .packet _ (.nack _ _ nacks) => ∀ r ∈ nacks, c.SentBefore r
  | .packet _ (.data d) => d.writerID ≠ c.id
  | .packet _ (.ackReq writerID _) => writerID ≠ c.id
  | .timeout expired => (c.handleTimeout cfg expired).stopped = false
  | _ => True

instance (cfg : Config) (c : Connection) : (e : Event) → Decidable (c.Asked cfg e)
  | .packet _ (.nack _ _ nacks) => inferInstanceAs (Decidable (∀ r ∈ nacks, c.SentBefore r))
  | .packet _ (.data d) => inferInstanceAs (Decidable (d.writerID ≠ c.id))
  | .packet _ (.ackReq writerID _) => inferInstanceAs (Decidable (writerID ≠ c.id))
  | .timeout expired =>
      inferInstanceAs (Decidable ((c.handleTimeout cfg expired).stopped = false))
  | .packet _ (.ack _ _ _) | .packet _ (.node _ _ _) => isTrue trivial
  | .write _ | .writePop | .writePush | .read _ _ | .outgoing _ | .finishStep => isTrue trivial

/-- The packet of a number goes to the socket once more. -/
def Resends (c c' : Connection) (n : U16) : Prop :=
  ∃ b ∈ c.writeBuffers, b.data.sequence = n ∧
    ∃ ds, c'.sent = c.sent ++ .data { b.data with payload := b.data.bytes } :: ds

def Gone (c : Connection) (n : U16) : Prop := ∀ b ∈ c.writeBuffers, b.data.sequence ≠ n

/-- The numbers that are asked for, in the order in which `_repeatData` comes to them. -/
def numbers (queue : List Nack) : List U16 :=
  queue.flatMap (fun r => (List.range ((r.stop - r.start).toNat + 1)).map
    (fun i => r.start + BitVec.ofNat 16 i))

/-- Numbers leave the front of the queue up to the first one whose packet is kept, and that packet
is sent. Without such a number the queue is empty afterwards. -/
def Repeats (c c' : Connection) : Prop :=
  ∃ gone, (∀ n ∈ gone, c.Gone n) ∧
    (numbers c.repeatQueue = gone ∧ c'.repeatQueue = [] ∨
      ∃ n, numbers c.repeatQueue = gone ++ n :: numbers c'.repeatQueue ∧ c.Resends c' n)

section Frame

theorem backlog_addConnection (id sequence : U16) :
    (c.addConnection cfg id sequence).backlog = c.backlog := by
  cases h : c.findConnection id with
  | some child => rw [addConnection_of_known h]
  | none =>
      obtain ⟨ds, -, hc⟩ := addConnection_eq cfg c sequence h
      rw [hc]
      rfl

theorem backlog_removeConnection (id : U16) : (c.removeConnection id).backlog = c.backlog := by
  by_cases h : id = c.id
  · rw [removeConnection, if_pos h]
  · obtain ⟨ds, -, hc⟩ := removeConnection_eq c h
    rw [hc]
    rfl

theorem backlog_sendCountNode : c.sendCountNode.backlog = c.backlog := by
  obtain ⟨ds, -, hc⟩ := sendCountNode_eq c
  rw [hc]
  rfl

theorem backlog_sendNack {writerID : U16} (h : writerID ≠ c.id) (nacks : List Nack) :
    (c.sendNack writerID nacks).backlog = c.backlog := by
  rw [sendNack, if_neg h]
  rfl

theorem backlog_handleData {d : DatagramData} (h : d.writerID ≠ c.id) :
    (c.handleData cfg d).backlog = c.backlog := by
  rw [handleData]
  cases c.findConnection d.writerID with
  | none => rfl
  | some child =>
      cases hn : (child.handleData cfg c.id d).2.2 with
      | none => simp only [hn]; rfl
      | some nack =>
          simp only [hn]
          apply backlog_sendNack
          exact h

theorem backlog_handleAckRequest {writerID reqID : U16} (h : writerID ≠ c.id) :
    (c.handleAckRequest cfg writerID reqID).backlog = c.backlog := by
  rw [handleAckRequest]
  cases c.findConnection writerID with
  | none => rfl
  | some child =>
      simp only
      split_ifs
      · rfl
      · exact backlog_sendNack h _

theorem backlog_handleAck (readerID writerID sequence : U16) :
    (c.handleAck cfg readerID writerID sequence).backlog = c.backlog := by
  rcases handleAck_cases cfg readerID writerID sequence c with
    ⟨-, h⟩ | ⟨_, -, -, -, ⟨-, h⟩ | ⟨_, -, -, h⟩⟩ <;> rw [h] <;> rfl

theorem backlog_checkNewID (id : U16) : (c.checkNewID id).backlog = c.backlog := by
  rw [checkNewID]
  split_ifs <;> rfl

theorem backlog_handleInitData (connected : Bool) (type : NodeType) (connectionID data : U16) :
    (c.handleInitData cfg connected type connectionID data).backlog = c.backlog := by
  have hc : (if connected then c else { c with timeouts := 0 }).backlog = c.backlog := by
    split_ifs <;> rfl
  cases type with
  | hello => exact (backlog_checkNewID _).trans hc
  | confirm => exact (backlog_addConnection _ _).trans hc
  | countNode => rfl
  | helloReply => exact backlog_addConnection _ _
  | exit => exact backlog_removeConnection _
  | deny => rfl

theorem backlog_handleAcceptIDData (newID : U16) (type : NodeType) (connectionID data : U16) :
    (c.handleAcceptIDData cfg newID type connectionID data).backlog = c.backlog := by
  cases type with
  | hello => exact backlog_checkNewID _
  | helloReply => exact backlog_addConnection _ _
  | deny =>
      simp only [handleAcceptIDData]
      split_ifs <;> rfl
  | exit => exact backlog_removeConnection _
  | confirm => rfl
  | countNode => rfl

theorem backlog_evictOrReset (l : List Child) : (l.foldl evictOrReset c).backlog = c.backlog := by
  induction l generalizing c with
  | nil => rfl
  | cons child l ih =>
      rw [List.foldl_cons, ih, evictOrReset]
      split_ifs
      · exact (backlog_removeConnection _).trans rfl
      · rfl

theorem sent_evictOrReset (l : List Child) :
    ∃ ds, (l.foldl evictOrReset c).sent = c.sent ++ ds := by
  induction l generalizing c with
  | nil => exact ⟨[], (List.append_nil _).symm⟩
  | cons child l ih =>
      obtain ⟨ds, hds⟩ := ih (c := c.evictOrReset child)
      rw [List.foldl_cons, hds, evictOrReset]
      split_ifs with h
      · obtain ⟨ds', -, hr⟩ := removeConnection_eq (c.sendSimpleDatagram .exit child.id)
          (Ne.symm h.2)
        rw [hr]
        exact ⟨_, by simp only [sendSimpleDatagram, send, List.append_assoc]; rfl⟩
      · exact ⟨ds, rfl⟩

/-- All that a step can do to the outgoing packets: nothing, add nacks, release the oldest packet,
or send. -/
theorem backlog_step {e : Event} (hok : c.Asked cfg e) (h : c.step cfg e = some c') :
    c'.backlog = c.backlog ∨
    (∃ nacks, (∀ r ∈ nacks, c.SentBefore r) ∧
      c'.backlog = (c.sequence, c.writeBuffers, (addRepeat c.repeatQueue nacks).1)) ∨
    (∃ b, c.writeBuffers = b :: c'.writeBuffers ∧ c'.sequence = c.sequence ∧
      c'.repeatQueue = c.repeatQueue) ∨
    ∃ expired ds, c'.backlog = (c.processOutgoing cfg expired).backlog ∧
      c'.sent = (c.processOutgoing cfg expired).sent ++ ds := by
  rcases step_cases h with ⟨bytes, -, -, -, rfl⟩ | ⟨-, h⟩ | ⟨-, h⟩ | ⟨_, _, _, _, -, -, -, rfl⟩ |
    ⟨expired, -, -, -, rfl⟩ | ⟨-, h⟩ | ⟨newID, d, rfl, -, rfl⟩ | ⟨expired, rfl, -, rfl⟩
  · exact Or.inl rfl
  · left
    obtain ⟨-, -, ⟨_, -, rfl⟩ | ⟨_, _, -, rfl⟩⟩ := writePop_cases h <;> rfl
  · left
    obtain ⟨_, -, rfl⟩ := writePush_cases h
    rfl
  · exact Or.inl rfl
  · exact Or.inr (Or.inr (Or.inr ⟨expired, [], rfl, (List.append_nil _).symm⟩))
  · obtain ⟨f, self, -, -, ⟨-, rfl⟩ | ⟨a, free, b, rest, hw, -, -, rfl⟩ | ⟨-, -, -, rfl⟩⟩ :=
      finishStep_cases h
    · exact Or.inl rfl
    · exact Or.inr (Or.inr (Or.inl ⟨b, hw, rfl, rfl⟩))
    · exact Or.inl rfl
  · cases d with
    | data d =>
        left
        rw [handlePacket]
        split_ifs
        · exact backlog_handleData hok
        · rfl
    | ack readerID writerID sequence =>
        left
        rw [handlePacket]
        split_ifs
        · exact backlog_handleAck readerID writerID sequence
        · rfl
    | nack readerID writerID nacks =>
        simp only [handlePacket, handleNack]
        split_ifs
        · exact Or.inl rfl
        · cases c.findConnection readerID with
          | none => exact Or.inl rfl
          | some child => exact Or.inr (Or.inl ⟨nacks, hok, rfl⟩)
        · exact Or.inl rfl
    | ackReq writerID sequence =>
        left
        rw [handlePacket]
        split_ifs
        · exact backlog_handleAckRequest hok
        · rfl
    | node type connectionID data =>
        left
        rw [handlePacket]
        split_ifs
        · exact backlog_handleInitData true type connectionID data
        · exact backlog_handleInitData false type connectionID data
        · exact backlog_handleAcceptIDData newID type connectionID data
  · have hstop : (c.handleTimeout cfg expired).stopped = false := hok
    rw [handleTimeout] at hstop ⊢
    split_ifs at hstop ⊢ with hl hid
    · right; right; right
      rw [handleConnectedTimeout] at hstop ⊢
      simp only at hstop ⊢
      split_ifs at hstop ⊢ with hwait hall
      · exact ⟨expired, [], rfl, (List.append_nil _).symm⟩
      · cases hstop
      · obtain ⟨ds, hds⟩ := sent_evictOrReset (c := c.processOutgoing cfg expired)
          (c.processOutgoing cfg expired).children
        exact ⟨expired, ds, (backlog_evictOrReset _).trans rfl, hds⟩
    · left
      rw [handleInitTimeout]
      split_ifs
      · exact backlog_sendCountNode
      · rfl
    · left
      rw [handleAcceptIDTimeout]
      split_ifs
      · rfl
      · exact backlog_sendCountNode.trans (backlog_addConnection _ _)

end Frame

section Numbers

theorem ofNat_succ (n : ℕ) : BitVec.ofNat 16 (n + 1) = BitVec.ofNat 16 n + 1 :=
  Serial.serial_succ n

theorem Numbered.queued (h : c.Numbered) {b : Buffer}
    {merged : DatagramData × List Buffer × List Buffer} (hs : merged.1.sequence = c.sequence) :
    (c.queued b merged).Numbered := by
  intro k x hx
  simp only [Connection.queued] at hx ⊢
  rw [List.length_append, List.length_singleton, ofNat_succ]
  rcases lt_or_ge k c.writeBuffers.length with hlt | hge
  · rw [List.getElem?_append_left hlt] at hx
    rw [h k x hx]
    abel
  · rw [List.getElem?_append_right hge, List.getElem?_singleton] at hx
    split_ifs at hx with hk
    have hk' : k = c.writeBuffers.length := by omega
    rw [← Option.some.inj hx, hk']
    refine hs.trans ?_
    abel

theorem Numbered.tail (h : c.Numbered) {b : Buffer} (hw : c.writeBuffers = b :: c'.writeBuffers)
    (hs : c'.sequence = c.sequence) : c'.Numbered := by
  intro k x hx
  have hx' := h (k + 1) x (by rw [hw]; exact hx)
  rw [hw, List.length_cons, ofNat_succ, ofNat_succ] at hx'
  rw [hx', hs]
  abel

theorem Numbered.exists_entry (h : c.Numbered) {n : U16} (hpos : (c.sequence - n).toNat ≠ 0)
    (hle : (c.sequence - n).toNat ≤ c.writeBuffers.length) :
    ∃ b, c.writeBuffers[c.writeBuffers.length - (c.sequence - n).toNat]? = some b ∧
      b.data.sequence = n := by
  have hlt : c.writeBuffers.length - (c.sequence - n).toNat < c.writeBuffers.length := by omega
  refine ⟨_, List.getElem?_eq_getElem hlt, ?_⟩
  rw [h _ _ (List.getElem?_eq_getElem hlt)]
  have hsplit : BitVec.ofNat 16 c.writeBuffers.length =
      BitVec.ofNat 16 (c.writeBuffers.length - (c.sequence - n).toNat) + (c.sequence - n) := by
    have hd : BitVec.ofNat 16 (c.sequence - n).toNat = c.sequence - n := by
      rw [BitVec.ofNat_toNat, BitVec.setWidth_eq]
    rw [← hd]
    refine (congrArg (Serial.serial 16) ?_).trans (Serial.serial_add _ _)
    rw [hd]
    omega
  rw [hsplit]
  abel

theorem Numbered.gone_of_lt (h : c.Numbered) {n : U16}
    (hlt : c.writeBuffers.length < (c.sequence - n).toNat) : c.Gone n := by
  intro b hb hn
  obtain ⟨k, hk⟩ := List.getElem?_of_mem hb
  have hklt := (List.getElem?_eq_some_iff.1 hk).1
  have hsub : c.sequence - n = Serial.serial 16 (c.writeBuffers.length - k) := by
    rw [← hn, h k b hk, ← Serial.serial_sub hklt.le, Serial.serial, Serial.serial]
    abel
  have hle := Nat.mod_le (c.writeBuffers.length - k) (2 ^ 16)
  rw [hsub, Serial.toNat_serial] at hlt
  omega

end Numbers

section Loop

/-- The queue after the first number of its front request has been looked at. -/
def advance (request : Nack) (queue : List Nack) : List Nack :=
  if request.start = request.stop then queue else ⟨request.start + 1, request.stop⟩ :: queue

theorem toNat_succ_of_lt {m n : U16} (h : m < n) : (m + 1).toNat = m.toNat + 1 := by
  have hlt : m.toNat < n.toNat := h
  have hn := n.isLt
  rw [BitVec.toNat_add, show (1 : U16).toNat = 1 by decide]
  omega

theorem numbers_cons (request : Nack) (queue : List Nack) :
    numbers (request :: queue) = request.start :: numbers (advance request queue) := by
  rw [advance]
  split_ifs with heq
  · rw [numbers, List.flatMap_cons, heq, BitVec.sub_self]
    exact congrArg (· :: numbers queue) (add_zero _)
  · have hsub : (request.stop - request.start).toNat =
        (request.stop - (request.start + 1)).toNat + 1 := by
      have hpos := Child.sub_toNat_pos heq
      rw [show request.stop - (request.start + 1) = request.stop - request.start - 1 by abel,
        BitVec.toNat_sub (request.stop - request.start) 1, show (1 : U16).toNat = 1 by decide]
      have := (request.stop - request.start).isLt
      omega
    have hshift (i : ℕ) : request.start + BitVec.ofNat 16 (i + 1) =
        request.start + 1 + BitVec.ofNat 16 i := by
      rw [ofNat_succ]
      abel
    rw [numbers, numbers, List.flatMap_cons, List.flatMap_cons, hsub, List.range_succ_eq_map,
      List.map_cons, List.map_map, List.cons_append]
    exact congrArg₂ _ (add_zero _) (congrArg (· ++ _) (List.map_congr_left (fun i _ => hshift i)))

theorem mem_numbers {queue : List Nack} (h : ∀ r ∈ queue, r.start ≤ r.stop) {n : U16} :
    n ∈ numbers queue ↔ Requested queue n := by
  simp only [numbers, List.mem_flatMap, List.mem_map, List.mem_range, Requested]
  refine exists_congr (fun r => and_congr_right (fun hr => ?_))
  have hle : r.start.toNat ≤ r.stop.toNat := h r hr
  have hstop := r.stop.isLt
  rw [BitVec.toNat_sub_of_le (h r hr)]
  constructor
  · rintro ⟨i, hi, rfl⟩
    have hadd : (r.start + BitVec.ofNat 16 i).toNat = r.start.toNat + i := by
      rw [BitVec.toNat_add, BitVec.toNat_ofNat, Nat.mod_eq_of_lt (by omega : i < 2 ^ 16),
        Nat.mod_eq_of_lt (by omega)]
    exact ⟨by rw [BitVec.le_def, hadd]; omega, by rw [BitVec.le_def, hadd]; omega⟩
  · rintro ⟨hlo, hhi⟩
    rw [BitVec.le_def] at hlo hhi
    refine ⟨n.toNat - r.start.toNat, by omega, BitVec.eq_of_toNat_eq ?_⟩
    rw [BitVec.toNat_add, BitVec.toNat_ofNat]
    omega

theorem sentBefore_advance {request : Nack} {queue : List Nack}
    (h : ∀ r ∈ request :: queue, c.SentBefore r) : ∀ r ∈ advance request queue, c.SentBefore r := by
  intro r hr
  have hqueue : ∀ r ∈ queue, c.SentBefore r := fun r hr => h r (List.mem_cons_of_mem _ hr)
  rw [advance] at hr
  split_ifs at hr with heq
  · exact hqueue r hr
  · rcases List.mem_cons.1 hr with rfl | hr
    · obtain ⟨hle, hnames⟩ := h request List.mem_cons_self
      have hlt : request.start < request.stop := by
        rw [BitVec.lt_def]
        rw [BitVec.le_def] at hle
        have hne : request.start.toNat ≠ request.stop.toNat :=
          fun h => heq (BitVec.eq_of_toNat_eq h)
        omega
      have hsucc := toNat_succ_of_lt hlt
      rw [BitVec.lt_def] at hlt
      constructor
      · rw [BitVec.le_def]
        change (request.start + 1).toNat ≤ request.stop.toNat
        omega
      · rintro ⟨hlo, hhi⟩
        refine hnames ⟨?_, hhi⟩
        rw [BitVec.le_def] at hlo ⊢
        change (request.start + 1).toNat ≤ _ at hlo
        omega
    · exact hqueue r hr

theorem SentBefore.distance_ne_zero {r : Nack} (h : c.SentBefore r) :
    (c.sequence - r.start).toNat ≠ 0 := by
  intro hzero
  have heq : c.sequence - r.start = 0#16 := BitVec.eq_of_toNat_eq (by simpa using hzero)
  apply h.2
  rw [sub_eq_zero.1 heq]
  exact ⟨BitVec.le_refl _, h.1⟩

theorem repeatLoop_cons (request : Nack) (queue : List Nack) (fuel : ℕ) (sequence : U16)
    (writeBuffers : List Buffer) :
    repeatLoop sequence writeBuffers (fuel + 1) (request :: queue) =
      if (sequence - request.start).toNat = 0 then repeatLoop sequence writeBuffers fuel queue
      else if (sequence - request.start).toNat ≤ writeBuffers.length then
        (advance request queue, (writeBuffers[writeBuffers.length -
          (sequence - request.start).toNat]?).map Buffer.data)
      else repeatLoop sequence writeBuffers fuel (advance request queue) := rfl

theorem repeatLoop_spec (hn : c.Numbered) {fuel : ℕ} {queue : List Nack}
    (hq : ∀ r ∈ queue, c.SentBefore r) (hfuel : (numbers queue).length ≤ fuel) :
    ∃ gone, (∀ n ∈ gone, c.Gone n) ∧
      (numbers queue = gone ∧ repeatLoop c.sequence c.writeBuffers fuel queue = ([], none) ∨
        ∃ b ∈ c.writeBuffers, ∃ queue',
          repeatLoop c.sequence c.writeBuffers fuel queue = (queue', some b.data) ∧
          numbers queue = gone ++ b.data.sequence :: numbers queue') := by
  induction fuel generalizing queue with
  | zero =>
      cases queue with
      | nil => exact ⟨[], fun _ hn => absurd hn List.not_mem_nil, Or.inl ⟨rfl, rfl⟩⟩
      | cons request queue =>
          rw [numbers_cons, List.length_cons] at hfuel
          omega
  | succ fuel ih =>
      cases queue with
      | nil => exact ⟨[], fun _ hn => absurd hn List.not_mem_nil, Or.inl ⟨rfl, rfl⟩⟩
      | cons request queue =>
          have hdist := (hq request List.mem_cons_self).distance_ne_zero
          rw [numbers_cons] at hfuel ⊢
          rw [repeatLoop_cons, if_neg hdist]
          split_ifs with hle
          · obtain ⟨b, hb, hbn⟩ := hn.exists_entry hdist hle
            refine ⟨[], fun _ hn => absurd hn List.not_mem_nil,
              Or.inr ⟨b, List.mem_of_getElem? hb, advance request queue, by rw [hb]; rfl, ?_⟩⟩
            rw [hbn, List.nil_append]
          · have hreleased : c.Gone request.start := hn.gone_of_lt (not_le.1 hle)
            obtain ⟨gone, hgone, hspec⟩ :=
              ih (sentBefore_advance hq) (Nat.le_of_succ_le_succ hfuel)
            refine ⟨request.start :: gone, List.forall_mem_cons.2 ⟨hreleased, hgone⟩, ?_⟩
            rcases hspec with ⟨hnil, hloop⟩ | ⟨b, hb, queue', hloop, hnumbers⟩
            · exact Or.inl ⟨by rw [hnil], hloop⟩
            · exact Or.inr ⟨b, hb, queue', hloop, by rw [hnumbers, List.cons_append]⟩

theorem sentBefore_repeatLoop (fuel : ℕ) {queue : List Nack}
    (hq : ∀ r ∈ queue, c.SentBefore r) :
    ∀ r ∈ (repeatLoop c.sequence c.writeBuffers fuel queue).1, c.SentBefore r := by
  induction fuel generalizing queue with
  | zero => exact hq
  | succ fuel ih =>
      cases queue with
      | nil => exact hq
      | cons request queue =>
          rw [repeatLoop_cons, if_neg (hq request List.mem_cons_self).distance_ne_zero]
          split_ifs
          · exact sentBefore_advance hq
          · exact ih (sentBefore_advance hq)

theorem repeatWork_cons (request : Nack) (queue : List Nack) :
    repeatWork (request :: queue) =
      (request.stop - request.start).toNat + 1 + repeatWork queue := by
  simp [repeatWork]

theorem length_numbers (queue : List Nack) : (numbers queue).length = repeatWork queue := by
  simp [numbers, repeatWork, List.length_flatMap]

theorem repeatWork_advance (request : Nack) (queue : List Nack) :
    repeatWork (advance request queue) + 1 = repeatWork (request :: queue) := by
  rw [← length_numbers, ← length_numbers, numbers_cons, List.length_cons]

theorem repeatLoop_succ (sequence : U16) (writeBuffers : List Buffer) (fuel : ℕ)
    (queue : List Nack) (h : repeatWork queue ≤ fuel) :
    repeatLoop sequence writeBuffers (fuel + 1) queue =
      repeatLoop sequence writeBuffers fuel queue := by
  induction fuel generalizing queue with
  | zero =>
      cases queue with
      | nil => rfl
      | cons request queue =>
          rw [repeatWork_cons] at h
          omega
  | succ fuel ih =>
      cases queue with
      | nil => rfl
      | cons request queue =>
          have hadv := repeatWork_advance request queue
          have hrest := repeatWork_cons request queue
          rw [repeatLoop_cons, repeatLoop_cons, ih queue (by omega), ih _ (by omega)]

theorem repeatLoop_eq_nil (sequence : U16) (writeBuffers : List Buffer) (fuel : ℕ)
    (queue : List Nack) (h : repeatWork queue ≤ fuel)
    (hnone : (repeatLoop sequence writeBuffers fuel queue).2 = none) :
    (repeatLoop sequence writeBuffers fuel queue).1 = [] := by
  induction fuel generalizing queue with
  | zero =>
      cases queue with
      | nil => rfl
      | cons request queue =>
          rw [repeatWork_cons] at h
          omega
  | succ fuel ih =>
      cases queue with
      | nil => rfl
      | cons request queue =>
          have hadv := repeatWork_advance request queue
          have hrest := repeatWork_cons request queue
          rw [repeatLoop_cons] at hnone ⊢
          split_ifs at hnone ⊢ with hzero hle
          · exact ih queue (by omega) hnone
          · rw [List.getElem?_eq_getElem (by omega)] at hnone
            cases hnone
          · exact ih _ (by omega) hnone

/-- `_repeatData` ends after at most one look at each number, whatever the ranges are: more turns
change nothing, and it has sent a packet or emptied the queue. -/
theorem repeatLoop_terminates (sequence : U16) (writeBuffers : List Buffer) {fuel : ℕ}
    {queue : List Nack} (h : repeatWork queue ≤ fuel) :
    repeatLoop sequence writeBuffers fuel queue =
        repeatLoop sequence writeBuffers (repeatWork queue) queue ∧
      ((repeatLoop sequence writeBuffers fuel queue).2 = none →
        (repeatLoop sequence writeBuffers fuel queue).1 = []) := by
  constructor
  · induction fuel, h using Nat.le_induction with
    | base => rfl
    | succ fuel hle ih => rw [repeatLoop_succ sequence writeBuffers fuel queue hle, ih]
  · exact repeatLoop_eq_nil sequence writeBuffers fuel queue h

end Loop

theorem Repeats.append_sent {c₁ c₂ : Connection} (h : c.Repeats c₁) {ds : List Datagram}
    (hqueue : c₂.repeatQueue = c₁.repeatQueue) (hsent : c₂.sent = c₁.sent ++ ds) : c.Repeats c₂ := by
  obtain ⟨gone, hgone, ⟨hnumbers, hnil⟩ | ⟨n, hnumbers, b, hb, hbn, ds', hs⟩⟩ := h
  · exact ⟨gone, hgone, Or.inl ⟨hnumbers, hqueue.trans hnil⟩⟩
  · refine ⟨gone, hgone, Or.inr ⟨n, by rw [hqueue]; exact hnumbers, b, hb, hbn, ds' ++ ds, ?_⟩⟩
    rw [hsent, hs, List.append_assoc, List.cons_append]

theorem Repeats.requested_cases (h : c.Repeats c') (hle : ∀ r ∈ c.repeatQueue, r.start ≤ r.stop)
    (hle' : ∀ r ∈ c'.repeatQueue, r.start ≤ r.stop) {n : U16} (hn : Requested c.repeatQueue n) :
    Requested c'.repeatQueue n ∨ c.Resends c' n ∨ c.Gone n := by
  rw [← mem_numbers hle] at hn
  obtain ⟨gone, hgone, ⟨hnumbers, -⟩ | ⟨m, hnumbers, hm⟩⟩ := h
  · rw [hnumbers] at hn
    exact Or.inr (Or.inr (hgone n hn))
  · rw [hnumbers, List.mem_append, List.mem_cons, mem_numbers hle'] at hn
    rcases hn with hn | rfl | hn
    · exact Or.inr (Or.inr (hgone n hn))
    · exact Or.inr (Or.inl hm)
    · exact Or.inl hn

/-- What holds of the outgoing packets between any two steps. -/
structure Outgoing (c : Connection) : Prop where
  numbered : c.Numbered
  sentBefore : ∀ r ∈ c.repeatQueue, c.SentBefore r

namespace Outgoing

theorem congr (h : c.Outgoing) (heq : c'.backlog = c.backlog) : c'.Outgoing := by
  simp only [backlog, Prod.mk.injEq] at heq
  obtain ⟨hs, hw, hq⟩ := heq
  constructor
  · rw [Numbered, hs, hw]
    exact h.numbered
  · rw [hq]
    intro r hr
    rw [SentBefore, hs]
    exact h.sentBefore r hr

theorem addRepeat (h : c.Outgoing) {nacks : List Nack} (hn : ∀ r ∈ nacks, c.SentBefore r) :
    { c with repeatQueue := (Rsp.addRepeat c.repeatQueue nacks).1 }.Outgoing := by
  refine ⟨h.numbered, ?_⟩
  intro r hr
  refine ⟨addRepeat_le (fun r hr => (h.sentBefore r hr).1) (fun r hr => (hn r hr).1) r hr, ?_⟩
  intro hnames
  rcases (requested_addRepeat c.repeatQueue nacks c.sequence).1 ⟨r, hr, hnames⟩ with
    ⟨r', hr', hnames'⟩ | ⟨r', hr', hnames'⟩
  · exact (h.sentBefore r' hr').2 hnames'
  · exact (hn r' hr').2 hnames'

theorem processOutgoing (h : c.Outgoing) (expired : Bool) :
    (c.processOutgoing cfg expired).Outgoing := by
  obtain ⟨base, t, ds, hbase, -, hp⟩ := processOutgoing_cases cfg expired c
  rw [hp]
  have hb : base.Outgoing := by
    rcases hbase with ⟨hq, rfl⟩ | ⟨-, rfl⟩
    · rcases writeData_cases cfg c with ⟨-, heq⟩ | ⟨b, queue, -, ⟨-, heq⟩ | ⟨-, heq⟩⟩
      · rw [heq]
        exact h
      all_goals
        rw [heq]
        refine ⟨h.numbered.queued (mergeWrites_header cfg _ queue).1, ?_⟩
        intro r hr
        change r ∈ c.repeatQueue at hr
        rw [hq] at hr
        cases hr
    · exact ⟨h.numbered, sentBefore_repeatLoop _ h.sentBefore⟩
  exact hb.congr rfl

theorem step (h : c.Outgoing) {e : Event} (hok : c.Asked cfg e)
    (hstep : c.step cfg e = some c') : c'.Outgoing := by
  rcases backlog_step hok hstep with heq | ⟨nacks, hn, heq⟩ | ⟨b, hw, hs, hq⟩ |
    ⟨expired, ds, heq, -⟩
  · exact h.congr heq
  · exact (h.addRepeat hn).congr heq
  · refine ⟨h.numbered.tail hw hs, ?_⟩
    rw [hq]
    intro r hr
    rw [SentBefore, hs]
    exact h.sentBefore r hr
  · exact (h.processOutgoing expired).congr heq

theorem repeats_repeatData (h : c.Outgoing) : c.Repeats c.repeatData := by
  obtain ⟨gone, hgone, ⟨hnumbers, hloop⟩ | ⟨b, hb, queue, hloop, hnumbers⟩⟩ :=
    repeatLoop_spec h.numbered h.sentBefore (length_numbers c.repeatQueue).le
  · exact ⟨gone, hgone, Or.inl ⟨hnumbers, congrArg Prod.fst hloop⟩⟩
  · refine ⟨gone, hgone, Or.inr ⟨b.data.sequence, ?_, b, hb, rfl, [], ?_⟩⟩
    · simpa only [repeatData, hloop] using hnumbers
    · simp only [repeatData, hloop, Option.map_some, Option.toList_some]

theorem repeats_processOutgoing (h : c.Outgoing) (hne : c.repeatQueue ≠ []) (expired : Bool) :
    c.Repeats (c.processOutgoing cfg expired) := by
  obtain ⟨base, t, ds, hbase, -, hp⟩ := processOutgoing_cases cfg expired c
  obtain ⟨hnil, -⟩ | ⟨-, rfl⟩ := hbase
  · exact absurd hnil hne
  rw [hp]
  exact h.repeats_repeatData.append_sent rfl rfl

theorem repeats_outgoing (h : c.Outgoing) {expired : Bool}
    (hstep : c.step cfg (.outgoing expired) = some c') (hne : c.repeatQueue ≠ []) :
    c.Repeats c' := by
  simp only [Connection.step, Option.ite_none_right_eq_some, Option.some.injEq] at hstep
  rw [← hstep.2]
  exact h.repeats_processOutgoing hne expired

theorem requested_step (h : c.Outgoing) {e : Event} (hok : c.Asked cfg e)
    (hstep : c.step cfg e = some c') {n : U16} (hn : Requested c.repeatQueue n) :
    Requested c'.repeatQueue n ∨ c.Resends c' n ∨ c.Gone n := by
  rcases backlog_step hok hstep with heq | ⟨nacks, -, heq⟩ | ⟨b, -, -, hq⟩ | ⟨expired, ds, heq, hs⟩
  · left
    rw [show c'.repeatQueue = c.repeatQueue from congrArg (fun o => o.2.2) heq]
    exact hn
  · left
    rw [show c'.repeatQueue = (Rsp.addRepeat c.repeatQueue nacks).1 from
      congrArg (fun o => o.2.2) heq]
    exact (requested_addRepeat c.repeatQueue nacks n).2 (Or.inl hn)
  · left
    rw [hq]
    exact hn
  · have hne : c.repeatQueue ≠ [] := by
      rintro hnil
      rw [hnil] at hn
      exact requested_nil n hn
    have hrepeats : c.Repeats c' :=
      (h.repeats_processOutgoing hne expired).append_sent (congrArg (fun o => o.2.2) heq) hs
    exact hrepeats.requested_cases (fun r hr => (h.sentBefore r hr).1)
      (fun r hr => ((h.step hok hstep).sentBefore r hr).1) hn

end Outgoing

/-- In every run that asks only for packets sent before: the write queue is in order, `_addRepeat`
adds the numbers it is given, `_repeatData` finds the packets it looks for, a number leaves the
queue only after its packet was sent again or released, `_repeatData` and each turn of
`_processOutgoing` on a queue that is not empty take the first numbers from it and send the packet
of the last one of them, and `_repeatData` always ends. -/
theorem nacked_packets_resent (cfg : Config) (c₀ c : Connection) (es : List Event)
    (hfresh : c₀.writeBuffers = [] ∧ c₀.repeatQueue = [])
    (hsteps : Machine.Steps (step cfg) (Asked cfg) c₀ es)
    (hrun : Machine.run (step cfg) c₀ es = some c) :
    c.Numbered ∧
    (∀ nacks n, Requested (addRepeat c.repeatQueue nacks).1 n ↔
      Requested c.repeatQueue n ∨ Requested nacks n) ∧
    (∀ n, (c.sequence - n).toNat ≠ 0 → (c.sequence - n).toNat ≤ c.writeBuffers.length →
      ∃ b, c.writeBuffers[c.writeBuffers.length - (c.sequence - n).toNat]? = some b ∧
        b.data.sequence = n) ∧
    (∀ e c', c.Asked cfg e → c.step cfg e = some c' → ∀ n, Requested c.repeatQueue n →
      Requested c'.repeatQueue n ∨ c.Resends c' n ∨ c.Gone n) ∧
    c.Repeats c.repeatData ∧
    (∀ expired c', c.step cfg (.outgoing expired) = some c' → c.repeatQueue ≠ [] →
      c.Repeats c') ∧
    ∀ queue fuel, repeatWork queue ≤ fuel →
      repeatLoop c.sequence c.writeBuffers fuel queue =
          repeatLoop c.sequence c.writeBuffers (repeatWork queue) queue ∧
        ((repeatLoop c.sequence c.writeBuffers fuel queue).2 = none →
          (repeatLoop c.sequence c.writeBuffers fuel queue).1 = []) := by
  have hstart : c₀.Outgoing := by
    constructor
    · intro k b hk
      rw [hfresh.1] at hk
      cases hk
    · rw [hfresh.2]
      exact fun r hr => absurd hr List.not_mem_nil
  have h : c.Outgoing := Machine.run_invariant Outgoing
    (fun _ _ _ h hok hstep => h.step hok hstep) hstart hsteps hrun
  exact ⟨h.numbered, requested_addRepeat c.repeatQueue, fun n => h.numbered.exists_entry,
    fun e c' hok hstep n => h.requested_step hok hstep, h.repeats_repeatData,
    fun expired c' hstep hne => h.repeats_outgoing hstep hne,
    fun queue fuel => repeatLoop_terminates c.sequence c.writeBuffers⟩

/-- One packet is written, asked for again by reader 2, and sent again. -/
theorem nacked_packets_resent_once :
    ∃ es c c', Machine.run (step (.tiny 4)) (start (.tiny 4) 1 [(1, 0), (2, 0)]) es = some c ∧
      c.repeatQueue = [⟨0, 0⟩] ∧ c.Numbered ∧ c.step (.tiny 4) (.outgoing false) = some c' ∧
      c'.repeatQueue = [] ∧ c.Resends c' 0 := by
  let es : List Event := [.write [7], .writePop, .writePush, .outgoing false,
    .packet 0 (.nack 2 1 [⟨0, 0⟩])]
  have h : (Machine.run (step (.tiny 4)) (start (.tiny 4) 1 [(1, 0), (2, 0)]) es).map
      (fun c => decide (c.repeatQueue = [⟨0, 0⟩] ∧ (c.writeBuffers.map (·.data.sequence)) = [0] ∧
        (c.step (.tiny 4) (.outgoing false)).map repeatQueue = some [])) = some true := by
    decide +kernel
  obtain ⟨c, hrun, hc⟩ := Option.map_eq_some_iff.1 h
  obtain ⟨hq, hw, hstep⟩ := of_decide_eq_true hc
  obtain ⟨c', hstep, hempty⟩ := Option.map_eq_some_iff.1 hstep
  obtain ⟨hnumbered, -, -, -, -, hrepeats, -⟩ :=
    nacked_packets_resent (.tiny 4) (start (.tiny 4) 1 [(1, 0), (2, 0)]) c es ⟨rfl, rfl⟩
      (by decide +kernel) hrun
  refine ⟨es, c, c', hrun, hq, hnumbered, hstep, hempty, ?_⟩
  obtain ⟨gone, hgone, ⟨hnumbers, -⟩ | ⟨n, hnumbers, hn⟩⟩ :=
    hrepeats false c' hstep (by rw [hq]; exact List.cons_ne_nil _ _)
  · -- packet 0 is still kept
    obtain ⟨b, hb, hb0⟩ : ∃ b ∈ c.writeBuffers, b.data.sequence = 0 := by
      have hmem : (0 : U16) ∈ c.writeBuffers.map (·.data.sequence) := by rw [hw]; decide
      exact List.mem_map.1 hmem
    refine absurd hb0 (hgone 0 ?_ b hb)
    rw [← hnumbers, hq]
    decide
  · rw [hq, hempty, show numbers [⟨0, 0⟩] = [0] by decide] at hnumbers
    obtain ⟨-, hn0⟩ := List.append_eq_singleton_iff.1 hnumbers.symm |>.resolve_right
      (fun h => absurd h.2 (List.cons_ne_nil _ _))
    rw [← (List.cons.inj hn0).1]
    exact hn

end Collage.Rsp.Connection
