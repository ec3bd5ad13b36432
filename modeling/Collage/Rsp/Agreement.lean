import Collage.Rsp.Announce

/-!
# When the joining nodes agree

A node is made known to another one by a reply or by a confirmation, and both carry the identifier
that it had at that time. The identifier stays as long as no denial reaches a node that has already
handed it out, and a denial reaches its addressee as long as only the owner of an identifier denies
it.
-/

namespace Collage.Rsp

/-- The identifier under which a datagram makes its sender known. -/
def Datagram.introduces : Datagram → Option U16
  | .node .helloReply connectionID _ => some connectionID
  | .node .confirm connectionID _ => some connectionID
  | _ => none

theorem Datagram.introduces_eq_some {d : Datagram} {id : U16} (h : d.introduces = some id) :
    (∃ data, d = .node .helloReply id data) ∨ ∃ data, d = .node .confirm id data := by
  unfold introduces at h
  split at h
  · exact Or.inl ⟨_, by rw [Option.some.inj h]⟩
  · exact Or.inr ⟨_, by rw [Option.some.inj h]⟩
  · cases h

namespace Connection

variable {cfg : Config} {c c' : Connection} {k : U16}

theorem findConnection_ne_none_iff : c.findConnection k ≠ none ↔ k ∈ c.children.map Child.id := by
  rw [← Option.isSome_iff_ne_none]
  exact Keyed.lookup_isSome_iff

section Introduced

theorem ids_removeConnection (id : U16)
    (hk : k ∈ (c.removeConnection id).children.map Child.id) : k ∈ c.children.map Child.id := by
  by_cases hid : id = c.id
  · rw [removeConnection, if_pos hid] at hk
    exact hk
  · obtain ⟨ds, -, hc⟩ := removeConnection_eq c hid
    rw [hc] at hk
    exact (List.eraseP_sublist.map _).subset hk

theorem ids_handleInitData (connected : Bool) {type : NodeType} {connectionID data : U16}
    (hd : (Datagram.node type connectionID data).introduces ≠ some k)
    (hk : k ∈ (c.handleInitData cfg connected type connectionID data).children.map Child.id) :
    k ∈ c.children.map Child.id := by
  have hc : (if connected then c else { c with timeouts := 0 }).children = c.children := by
    split_ifs <;> rfl
  cases type with
  | hello =>
      simp only [handleInitData, checkNewID] at hk
      rw [← hc]
      split_ifs at hk ⊢ <;> exact hk
  | confirm =>
      have hne : k ≠ connectionID := fun he => hd (congrArg some he.symm)
      rw [← findConnection_ne_none_iff] at hk ⊢
      rw [handleInitData, findConnection_addConnection_of_ne hne] at hk
      rw [findConnection, hc] at hk
      exact hk
  | countNode => exact hk
  | helloReply =>
      have hne : k ≠ connectionID := fun he => hd (congrArg some he.symm)
      rw [← findConnection_ne_none_iff] at hk ⊢
      rwa [handleInitData, findConnection_addConnection_of_ne hne] at hk
  | exit => exact ids_removeConnection _ hk
  | deny => exact hk

theorem ids_handleAcceptIDData (newID : U16) {type : NodeType} {connectionID data : U16}
    (hd : (Datagram.node type connectionID data).introduces ≠ some k)
    (hk : k ∈ (c.handleAcceptIDData cfg newID type connectionID data).children.map Child.id) :
    k ∈ c.children.map Child.id := by
  cases type with
  | hello =>
      simp only [handleAcceptIDData, checkNewID] at hk
      split_ifs at hk <;> exact hk
  | helloReply =>
      have hne : k ≠ connectionID := fun he => hd (congrArg some he.symm)
      rw [← findConnection_ne_none_iff] at hk ⊢
      rwa [handleAcceptIDData, findConnection_addConnection_of_ne hne] at hk
  | deny =>
      simp only [handleAcceptIDData] at hk
      split_ifs at hk <;> exact hk
  | exit => exact ids_removeConnection _ hk
  | confirm => exact hk
  | countNode => exact hk

/-- A datagram adds a child only for the identifier that it introduces. -/
theorem ids_handlePacket (newID : U16) {d : Datagram} (hd : d.introduces ≠ some k)
    (hk : k ∈ (c.handlePacket cfg newID d).children.map Child.id) :
    k ∈ c.children.map Child.id := by
  cases d with
  | node type connectionID data =>
      simp only [handlePacket] at hk
      split_ifs at hk
      · exact ids_handleInitData _ hd hk
      · exact ids_handleInitData _ hd hk
      · exact ids_handleAcceptIDData _ hd hk
  | data d =>
      simp only [handlePacket] at hk
      split_ifs at hk
      · rcases handleData_cases cfg d c with ⟨-, h⟩ | ⟨child, queue, ds, hfind, -, h⟩
        · rwa [h] at hk
        · have hid : (child.handleData cfg c.id d).1.id = d.writerID :=
            (Child.handleData_frame cfg c.id d child).1.trans (Keyed.key_of_lookup hfind)
          rw [h] at hk
          exact ids_updateChild (c := c) (fun _ _ => hid) ▸ hk
      · exact hk
  | ack readerID writerID sequence =>
      simp only [handlePacket] at hk
      have hrec : (c.recordAck readerID sequence).children.map Child.id = c.children.map Child.id :=
        ids_updateChild (c := c) (fun _ he => he)
      split_ifs at hk
      · rcases handleAck_cases cfg readerID writerID sequence c with
          ⟨-, h⟩ | ⟨_, -, -, -, ⟨-, h⟩ | ⟨_, -, -, h⟩⟩
        · rwa [h] at hk
        · rwa [h, hrec] at hk
        · rw [h] at hk
          exact hrec ▸ hk
      · exact hk
  | nack readerID writerID nacks =>
      simp only [handlePacket] at hk
      split_ifs at hk
      · obtain ⟨_, _, h⟩ := handleNack_cases readerID writerID nacks c
        rwa [h] at hk
      · exact hk
  | ackReq writerID reqID =>
      simp only [handlePacket] at hk
      split_ifs at hk
      · obtain ⟨_, _, -, h⟩ := handleAckRequest_cases cfg writerID reqID c
        rwa [h] at hk
      · exact hk

end Introduced

section Quiet

/-- Nothing is written, and only an accepted identifier listens. -/
structure Quiet (c : Connection) : Prop where
  thread : c.threadBuffers = []
  write : c.writeBuffers = []
  accepted : c.listening = true → c.idAccepted = true

theorem quiet_opening (cfg : Config) (id : U16) : (opening cfg id).Quiet where
  thread := rfl
  write := rfl
  accepted := fun h => nomatch h

theorem Quiet.not_waitedOut (h : c.Quiet) (expired : Bool) : ¬ c.waitedOut expired :=
  fun hw => hw.2.2.1 h.write

structure Steady (c c' : Connection) : Prop where
  quiet : c'.Quiet
  accepted : c.idAccepted = true → c'.idAccepted = true

theorem steady_of_outbox (h : c.Quiet) (ho : c'.outbox = c.outbox) :
    c'.id = c.id ∧ Steady c c' := by
  simp only [outbox, Prod.mk.injEq] at ho
  obtain ⟨hid, ht, hw, -, -, ha, hl⟩ := ho
  exact ⟨hid, ⟨ht.trans h.thread, hw.trans h.write, by rw [ha, hl]; exact h.accepted⟩,
    fun hacc => ha.trans hacc⟩

theorem outbox_processOutgoing (h : c.Quiet) (expired : Bool) :
    (c.processOutgoing cfg expired).outbox = c.outbox := by
  obtain ⟨base, t, ds, hbase, -, hp⟩ := processOutgoing_cases cfg expired c
  rw [hp]
  rcases hbase with ⟨-, rfl⟩ | ⟨-, rfl⟩
  · rcases writeData_cases cfg c with ⟨-, hw⟩ | ⟨b, queue, hq, -⟩
    · rw [hw]
      rfl
    · rw [h.thread] at hq
      cases hq
  · rfl

theorem Quiet.handleTimeout (h : c.Quiet) (expired : Bool) :
    (c.handleTimeout cfg expired).id = c.id ∧ Steady c (c.handleTimeout cfg expired) := by
  unfold Connection.handleTimeout
  split_ifs with hl ha
  · rw [handleConnectedTimeout_of_patient (h.not_waitedOut expired)]
    exact steady_of_outbox h (outbox_processOutgoing h expired)
  · unfold handleInitTimeout
    split_ifs
    · obtain ⟨ds, -, hc⟩ := sendCountNode_eq { c with timeouts := c.timeouts + 1 }
      rw [hc]
      exact steady_of_outbox h rfl
    · exact ⟨rfl, ⟨h.thread, h.write, fun _ => ha⟩, fun hacc => hacc⟩
  · unfold handleAcceptIDTimeout
    split_ifs
    · exact steady_of_outbox h rfl
    · obtain ⟨ds, -, hc⟩ := sendCountNode_eq
        { (c.sendSimpleDatagram .confirm c.id).addConnection cfg c.id c.sequence with
          idAccepted := true, timeouts := 0 }
      simp only at hc ⊢
      have hout := outbox_addConnection cfg (c.sendSimpleDatagram .confirm c.id) c.id c.sequence
      simp only [outbox, Prod.mk.injEq] at hout
      rw [hc]
      exact ⟨hout.1, ⟨hout.2.1.trans h.thread, hout.2.2.1.trans h.write, fun _ => rfl⟩, fun _ => rfl⟩

/-- A timeout adds a child only for the own identifier, and confirms it at once. -/
theorem ids_handleTimeout (h : c.Quiet) {expired : Bool}
    (hk : k ∈ (c.handleTimeout cfg expired).children.map Child.id) :
    k ∈ c.children.map Child.id ∨
      k = c.id ∧ .node .confirm c.id c.sequence ∈ (c.handleTimeout cfg expired).sent := by
  by_cases hkid : k = c.id
  swap
  · left
    rw [← findConnection_ne_none_iff] at hk ⊢
    rwa [findConnection_handleTimeout_of_ne hkid (h.not_waitedOut expired)] at hk
  unfold Connection.handleTimeout at hk ⊢
  split_ifs at hk ⊢ with hl ha
  · left
    rw [handleConnectedTimeout_of_patient (h.not_waitedOut expired)] at hk
    rw [← findConnection_ne_none_iff] at hk ⊢
    rwa [findConnection_processOutgoing] at hk
  · left
    unfold handleInitTimeout at hk
    split_ifs at hk
    · obtain ⟨ds, -, hc⟩ := sendCountNode_eq { c with timeouts := c.timeouts + 1 }
      rwa [hc] at hk
    · exact hk
  · unfold handleAcceptIDTimeout at hk ⊢
    split_ifs at hk ⊢
    · exact Or.inl hk
    · refine Or.inr ⟨hkid, ?_⟩
      obtain ⟨ds, -, hc⟩ := sendCountNode_eq
        { (c.sendSimpleDatagram .confirm c.id).addConnection cfg c.id c.sequence with
          idAccepted := true, timeouts := 0 }
      obtain ⟨new, hnew, -⟩ : SendsProper (c.sendSimpleDatagram .confirm c.id)
          ((c.sendSimpleDatagram .confirm c.id).addConnection cfg c.id c.sequence) none :=
        sendsProper_addConnection rfl cfg c.id c.sequence
      simp only at hc ⊢
      rw [hc, hnew]
      simp [sendSimpleDatagram, send]

end Quiet

end Connection

namespace Lobby

open Connection

variable {cfg : Config} {s s' : Lobby}

/-- What holds of the joining nodes in an orderly run. -/
structure Agreed (s : Lobby) : Prop where
  quiet : ∀ n, (s.nodes n).Quiet
  answered : ∀ n, (s.answers n).length = (s.nodes n).sent.length
  kept : ∀ n, ∀ d ∈ (s.nodes n).sent, ∀ id, d.introduces = some id → (s.nodes n).id = id
  confirmed : ∀ n id data, .node .confirm id data ∈ (s.nodes n).sent →
    (s.nodes n).idAccepted = true
  known : ∀ n id, (s.nodes n).findConnection id ≠ none →
    ∃ m, s.source n id = some m ∧ ∃ d ∈ (s.nodes m).sent, d.introduces = some id
  denials : ∀ (n k : ℕ) (id data : U16) (a : Answer),
    (s.nodes n).sent[k]? = some (.node .deny id data) → (s.answers n)[k]? = some (some a) →
    id = a.id ∨ a.known = some a.announcer

theorem agreed_start (cfg : Config) (ids : ℕ → U16) : (start cfg ids).Agreed where
  quiet := fun n => quiet_opening cfg (ids n)
  answered := fun _ => rfl
  kept := fun _ _ hd => nomatch hd
  confirmed := fun _ _ _ hd => nomatch hd
  known := fun _ _ h => absurd rfl h
  denials := fun _ _ _ _ _ h => nomatch h

/-- What a step of the node `n` must do to keep the agreement: `m` is the node whose datagram it
handles, or `n` itself. -/
structure Keeps (s : Lobby) (n m : ℕ) (answered : Option Answer) (c : Connection) : Prop where
  steady : Steady (s.nodes n) c
  sends : ∃ heard, SendsProper (s.nodes n) c heard
  kept : ∀ d ∈ (s.nodes n).sent, ∀ id, d.introduces = some id → c.id = id
  known : ∀ id, c.findConnection id ≠ none → (s.nodes n).findConnection id = none →
    ∃ d ∈ (Function.update s.nodes n c m).sent, d.introduces = some id
  denials : ∀ d ∈ c.sent.drop (s.nodes n).sent.length, ∀ id data, d = .node .deny id data →
    ∀ a ∈ answered, id = a.id ∨ a.known = some a.announcer

theorem introduces_of_proper {c : Connection} {heard : Option Datagram} {d : Datagram} {id : U16}
    (h : c.Proper heard d) (hd : d.introduces = some id) : c.id = id := by
  rcases Datagram.introduces_eq_some hd with ⟨data, rfl⟩ | ⟨data, rfl⟩
  · exact h.1.symm
  · exact h.1.symm

theorem Agreed.advance (h : s.Agreed) {n m : ℕ} {answered : Option Answer} {c : Connection}
    (hc : s.Keeps n m answered c) : (s.advance n m answered c).Agreed := by
  obtain ⟨heard, new, hnew, hproper⟩ := hc.sends
  have hmono : ∀ b, ∀ d ∈ (s.nodes b).sent, d ∈ ((s.advance n m answered c).nodes b).sent := by
    intro b d hd
    rcases eq_or_ne b n with rfl | hb
    · simp only [Lobby.advance, Function.update_self, hnew]
      exact List.mem_append_left _ hd
    · simpa only [Lobby.advance, Function.update_of_ne hb] using hd
  refine ⟨fun b => ?_, fun b => ?_, fun b => ?_, fun b => ?_, fun b => ?_, fun b => ?_⟩ <;>
    rcases eq_or_ne b n with rfl | hb
  · simpa only [Lobby.advance, Function.update_self] using hc.steady.quiet
  · simpa only [Lobby.advance, Function.update_of_ne hb] using h.quiet b
  · simp only [Lobby.advance, Function.update_self, List.length_append, List.length_replicate,
      h.answered, hnew]
    omega
  · simpa only [Lobby.advance, Function.update_of_ne hb] using h.answered b
  · simp only [Lobby.advance, Function.update_self, hnew]
    intro d hd id hid
    rcases List.mem_append.1 hd with hd | hd
    · exact hc.kept d hd id hid
    · exact introduces_of_proper (hproper d hd) hid
  · simpa only [Lobby.advance, Function.update_of_ne hb] using h.kept b
  · simp only [Lobby.advance, Function.update_self, hnew]
    intro id data hd
    rcases List.mem_append.1 hd with hd | hd
    · exact hc.steady.accepted (h.confirmed b id data hd)
    · exact ((hproper _ hd).2.2.1 rfl).2
  · simpa only [Lobby.advance, Function.update_of_ne hb] using h.confirmed b
  · intro id hid
    have hid' : c.findConnection id ≠ none := by
      simpa only [Lobby.advance, Function.update_self] using hid
    by_cases hold : (s.nodes b).findConnection id = none
    · obtain ⟨d, hd, hintro⟩ := hc.known id hid' hold
      refine ⟨m, ?_, d, hd, hintro⟩
      simp only [Lobby.advance, Function.update_self]
      exact if_pos ⟨hold, hid'⟩
    · obtain ⟨x, hx, d, hd, hintro⟩ := h.known b id hold
      refine ⟨x, ?_, d, hmono x d hd, hintro⟩
      simp only [Lobby.advance, Function.update_self]
      rw [if_neg (fun hn => hold hn.1), hx]
  · intro id hid
    simp only [Lobby.advance, Function.update_of_ne hb] at hid
    obtain ⟨x, hx, d, hd, hintro⟩ := h.known b id hid
    refine ⟨x, ?_, d, hmono x d hd, hintro⟩
    simpa only [Lobby.advance, Function.update_of_ne hb] using hx
  · simp only [Lobby.advance, Function.update_self]
    intro k id data a hk ha
    rcases lt_or_ge k (s.nodes b).sent.length with hlt | hge
    · rw [hnew, List.getElem?_append_left hlt] at hk
      rw [List.getElem?_append_left (by rw [h.answered]; exact hlt)] at ha
      exact h.denials b k id data a hk ha
    · rw [List.getElem?_append_right (by rw [h.answered]; exact hge)] at ha
      have hdrop : Datagram.node .deny id data ∈ c.sent.drop (s.nodes b).sent.length := by
        refine List.mem_iff_getElem?.2 ⟨k - (s.nodes b).sent.length, ?_⟩
        rw [List.getElem?_drop, Nat.add_sub_cancel' hge, hk]
      have hmem := List.mem_of_getElem? ha
      rw [List.mem_replicate] at hmem
      exact hc.denials _ hdrop id data rfl a hmem.2.symm
  · simpa only [Lobby.advance, Function.update_of_ne hb] using h.denials b

theorem Agreed.keeps_tick (h : s.Agreed) {n : ℕ} {t : Tick} {c : Connection}
    (hc : (s.nodes n).step cfg t.event = some c) : s.Keeps n n none c := by
  have hq := h.quiet n
  have hsends : SendsProper (s.nodes n) c none := by
    cases t with
    | timeout expired => exact sendsProper_step (e := .timeout expired) (hq.not_waitedOut expired) hc
    | outgoing expired => exact sendsProper_step (e := .outgoing expired) trivial hc
  have hstep : (c.id = (s.nodes n).id ∧ Steady (s.nodes n) c) ∧
      ∀ id, c.findConnection id ≠ none → (s.nodes n).findConnection id = none →
        ∃ d ∈ c.sent, d.introduces = some id := by
    cases t with
    | timeout expired =>
        simp only [Tick.event, Connection.step] at hc
        split_ifs at hc
        obtain rfl := Option.some.inj hc
        refine ⟨hq.handleTimeout expired, fun id hid hnone => ?_⟩
        rw [findConnection_ne_none_iff] at hid
        rcases ids_handleTimeout hq hid with hold | ⟨rfl, hconfirm⟩
        · exact absurd hnone (findConnection_ne_none_iff.2 hold)
        · exact ⟨_, hconfirm, rfl⟩
    | outgoing expired =>
        simp only [Tick.event, Connection.step] at hc
        split_ifs at hc
        obtain rfl := Option.some.inj hc
        refine ⟨steady_of_outbox hq (outbox_processOutgoing hq expired), fun id hid hnone => ?_⟩
        rw [findConnection_processOutgoing] at hid
        exact absurd hnone hid
  refine ⟨hstep.1.2, ⟨none, hsends⟩, fun d hd id hid => ?_, ?_, fun _ _ _ _ _ a ha => by cases ha⟩
  · exact hstep.1.1.trans (h.kept n d hd id hid)
  · simpa only [Function.update_self] using hstep.2

theorem Agreed.not_introduced (h : s.Agreed) {m k n : ℕ} {newID : U16} {d : Datagram}
    (hd : (s.nodes m).sent[k]? = some d) (htime : s.DeniedInTime (.deliver m k n newID))
    (hdenied : (s.nodes n).Denied d) {x : Datagram} (hx : x ∈ (s.nodes n).sent) {id : U16} :
    x.introduces ≠ some id := by
  intro hintro
  have hid := h.kept n x hx id hintro
  rcases Datagram.introduces_eq_some hintro with ⟨data, rfl⟩ | ⟨data, rfl⟩
  · exact htime d hd hdenied _ hx rfl hid.symm
  · have hacc := h.confirmed n id data hx
    cases d with
    | node type connectionID data =>
        rw [hdenied.2.2.2] at hacc
        cases hacc
    | _ => cases hdenied

theorem denial_judged {m k n : ℕ} {newID : U16} {d : Datagram}
    (hd : (s.nodes m).sent[k]? = some d) (hjudged : s.JudgedByOwner (.deliver m k n newID))
    {id data : U16}
    (hx : .node .deny id data ∈
      ((s.nodes n).handlePacket cfg newID d).sent.drop (s.nodes n).sent.length)
    {a : Answer} (ha : a ∈ d.announces.map (fun id => ⟨m, id, s.owner n id⟩)) :
    id = a.id ∨ a.known = some a.announcer := by
  obtain ⟨new, hnew, hproper⟩ : SendsProper (s.nodes n) ((s.nodes n).handlePacket cfg newID d)
    (some d) := sendsProper_handlePacket newID d
  rw [hnew, List.drop_left] at hx
  obtain ⟨hid, -, -, -, hdeny⟩ := hproper _ hx
  obtain ⟨asked, data', hheard, hknown⟩ := hdeny rfl
  obtain rfl := Option.some.inj hheard
  simp only [Datagram.announces, Option.map_some, Option.mem_def, Option.some.injEq] at ha
  subst ha
  have hout := outbox_handlePacket cfg (c := s.nodes n) newID
    (d := .node .hello asked data') (fun hden => NodeType.noConfusion hden.1)
  have hsame : ((s.nodes n).handlePacket cfg newID (.node .hello asked data')).id =
    (s.nodes n).id := congrArg Prod.fst hout
  rw [hid, hsame]
  rw [hsame] at hknown
  rcases hknown with rfl | hknown
  · exact Or.inl rfl
  · have hold : (s.nodes n).findConnection asked ≠ none := by
      rw [Option.isSome_iff_ne_none, findConnection_ne_none_iff] at hknown
      exact findConnection_ne_none_iff.2 (ids_handlePacket
        (d := .node .hello asked data') newID (Option.some_ne_none _).symm hknown)
    rcases hjudged _ hd asked rfl hold with rfl | hsource
    · exact Or.inl rfl
    · by_cases hown : asked = (s.nodes n).id
      · exact Or.inl hown.symm
      · exact Or.inr ((if_neg hown).trans hsource)

theorem Agreed.keeps_packet (h : s.Agreed) {m k n : ℕ} {newID : U16} {d : Datagram} (hmn : m ≠ n)
    (hd : (s.nodes m).sent[k]? = some d) (hok : s.Orderly (.deliver m k n newID)) :
    s.Keeps n m (d.announces.map (fun id => ⟨m, id, s.owner n id⟩))
      ((s.nodes n).handlePacket cfg newID d) := by
  have hq := h.quiet n
  have hsends : SendsProper (s.nodes n) ((s.nodes n).handlePacket cfg newID d) (some d) :=
    sendsProper_handlePacket newID d
  have hsteady : Steady (s.nodes n) ((s.nodes n).handlePacket cfg newID d) ∧
      ∀ x ∈ (s.nodes n).sent, ∀ id, x.introduces = some id →
        ((s.nodes n).handlePacket cfg newID d).id = id := by
    by_cases hdenied : (s.nodes n).Denied d
    · refine ⟨?_, fun x hx id hi => absurd hi (h.not_introduced hd hok.2 hdenied hx)⟩
      rw [handlePacket_of_denied newID hdenied]
      exact ⟨⟨hq.thread, hq.write, hq.accepted⟩, fun hacc => hacc⟩
    · obtain ⟨hid, hst⟩ := steady_of_outbox hq (outbox_handlePacket cfg newID hdenied)
      exact ⟨hst, fun x hx id hi => hid.trans (h.kept n x hx id hi)⟩
  refine ⟨hsteady.1, ⟨_, hsends⟩, hsteady.2, fun id hid hnone => ?_, fun x hx id data he a ha => ?_⟩
  · rw [Function.update_of_ne hmn]
    refine ⟨d, List.mem_of_getElem? hd, ?_⟩
    by_contra hne
    rw [findConnection_ne_none_iff] at hid
    exact findConnection_ne_none_iff.2 (ids_handlePacket newID hne hid) hnone
  · subst he
    exact denial_judged hd hok.1 hx ha

theorem Agreed.keeps_boot (h : s.Agreed) (n : ℕ) :
    s.Keeps n n none ((s.nodes n).sendSimpleDatagram .hello (s.nodes n).id) := by
  have hout : ((s.nodes n).sendSimpleDatagram .hello (s.nodes n).id).outbox =
    (s.nodes n).outbox := rfl
  refine ⟨(steady_of_outbox (h.quiet n) hout).2, ⟨none, [.node .hello _ _], rfl, fun d hd => ?_⟩,
    h.kept n, fun id hid hnone => absurd hnone hid, fun _ _ _ _ _ a ha => nomatch ha⟩
  rw [List.mem_singleton.1 hd]
  exact ⟨rfl, by decide, by simp, by simp, by simp⟩

theorem Agreed.step (h : s.Agreed) {e : LobbyEvent} (hok : s.Orderly e)
    (hs : s.step cfg e = some s') : s'.Agreed := by
  cases e with
  | boot n =>
      simp only [Lobby.step] at hs
      split_ifs at hs
      obtain rfl := Option.some.inj hs
      have hn := h.advance (h.keeps_boot n)
      exact ⟨hn.quiet, hn.answered, hn.kept, hn.confirmed, hn.known, hn.denials⟩
  | tick n t =>
      simp only [Lobby.step] at hs
      split_ifs at hs
      obtain ⟨c, hc, rfl⟩ := Option.map_eq_some_iff.1 hs
      exact h.advance (h.keeps_tick hc)
  | deliver m k n newID =>
      simp only [Lobby.step] at hs
      split_ifs at hs with hup
      obtain ⟨d, hd, hs⟩ := Option.bind_eq_some_iff.1 hs
      obtain ⟨c, hc, rfl⟩ := Option.map_eq_some_iff.1 hs
      simp only [Connection.step] at hc
      split_ifs at hc
      obtain rfl := Option.some.inj hc
      exact h.advance (h.keeps_packet hup.2 hd hok)

theorem Agreed.noAbandoned (h : s.Agreed) : s.NoAbandoned := by
  intro n id hid
  obtain ⟨m, hm, d, hd, hintro⟩ := h.known n id hid
  exact ⟨m, hm, h.kept m d hd id hintro⟩

theorem Agreed.denialsWork (h : s.Agreed) : s.DenialsWork cfg := by
  intro m k n b newID id data s' hd ha hacc hb hbacc hs
  have hne : b ≠ n := by
    rintro rfl
    rw [hacc] at hbacc
    cases hbacc
  have hid : id = (s.nodes n).id := by
    rcases h.denials m k id data _ hd ha with hid | hbn
    · exact hid
    · exact absurd (Option.some.inj hbn) hne
  have hlisten : (s.nodes n).listening = false := by
    rw [← Bool.not_eq_true]
    intro hl
    rw [(h.quiet n).accepted hl] at hacc
    cases hacc
  simp only [Lobby.step] at hs
  split_ifs at hs
  rw [hd, Option.bind_some] at hs
  obtain ⟨c, hc, rfl⟩ := Option.map_eq_some_iff.1 hs
  simp only [Connection.step] at hc
  split_ifs at hc
  obtain rfl := Option.some.inj hc
  simp only [Lobby.advance, Function.update_self]
  have hdenied : (s.nodes n).Denied (.node .deny id data) := ⟨rfl, hid, hlisten, hacc⟩
  rw [handlePacket_of_denied newID hdenied]
  rfl

/-- In every orderly run no node keeps a child for an abandoned identifier, and every denial by a
member that knows the owner of an identifier makes the announcer adopt another one. -/
theorem identifiers_agree (cfg : Config) (ids : ℕ → U16) {events : List LobbyEvent} {t : Lobby}
    (hok : Machine.Steps (Lobby.step cfg) Orderly (start cfg ids) events)
    (hrun : Machine.run (Lobby.step cfg) (start cfg ids) events = some t) :
    t.NoAbandoned ∧ t.DenialsWork cfg := by
  have h : t.Agreed := Machine.run_invariant Agreed (fun _ _ _ h hok hs => h.step hok hs)
    (agreed_start cfg ids) hok hrun
  exact ⟨h.noAbandoned, h.denialsWork⟩

/-- Two nodes have drawn the identifier 1, a third one the identifier 2. -/
def drawn (n : ℕ) : U16 := if n = 1 then 2 else 1

/-- The nodes 0 and 1 hear each other's announcements; the node 2 is denied by 0 in time. -/
def meeting : List LobbyEvent :=
  [.boot 0, .boot 1, .deliver 0 0 1 0, .deliver 1 1 0 0, .deliver 1 0 0 0, .deliver 0 1 1 0,
    .boot 2, .deliver 2 0 0 0, .deliver 0 2 2 3]

theorem identifiers_agree_meeting :
    ∃ t, Machine.run (Lobby.step (Config.tiny 2)) (start (Config.tiny 2) drawn) meeting = some t ∧
      (t.nodes 2).id = 3 ∧
      (t.nodes 0).findConnection 2 ≠ none ∧ t.NoAbandoned ∧ t.DenialsWork (Config.tiny 2) := by
  have h : (Machine.run (Lobby.step (Config.tiny 2)) (start (Config.tiny 2) drawn) meeting).map
      (fun t => decide ((t.nodes 2).id = 3 ∧
        (t.nodes 0).findConnection 2 ≠ none)) = some true := by decide +kernel
  obtain ⟨t, hrun, ht⟩ := Option.map_eq_some_iff.1 h
  have ht := of_decide_eq_true ht
  have hok : Machine.Steps (Lobby.step (Config.tiny 2)) Orderly (start (Config.tiny 2) drawn)
      meeting := by decide +kernel
  have hagree := identifiers_agree (Config.tiny 2) drawn hok hrun
  exact ⟨t, hrun, ht.1, ht.2, hagree.1, hagree.2⟩

/-- The node 1 knows the node 0 under the identifier 1 and judges the announcement of the node 2;
then the node 0 confirms. -/
def misaddressed : List LobbyEvent :=
  [.boot 0, .boot 1, .deliver 1 0 0 0, .deliver 0 1 1 0, .boot 2, .deliver 2 0 1 0] ++
    List.replicate 20 (.tick 0 (.timeout false))

theorem denial_misses_announcer :
    ∃ t, Machine.run (Lobby.step (Config.tiny 2)) (start (Config.tiny 2) drawn) misaddressed =
        some t ∧ ¬ (t.NoAbandoned ∧ t.DenialsWork (Config.tiny 2)) := by
  have h : (Machine.run (Lobby.step (Config.tiny 2)) (start (Config.tiny 2) drawn)
      misaddressed).map (fun t => decide (
        (t.nodes 1).sent[1]? = some (.node .deny 2 0) ∧
        (t.answers 1)[1]? = some (some ⟨2, (t.nodes 2).id, some 0⟩) ∧
        (t.nodes 2).idAccepted = false ∧ (t.nodes 0).id = (t.nodes 2).id ∧
        (t.nodes 0).idAccepted = true ∧
        (t.step (Config.tiny 2) (.deliver 1 1 2 9)).map (fun t' => (t'.nodes 2).id) = some 1)) =
      some true := by decide +kernel
  obtain ⟨t, hrun, ht⟩ := Option.map_eq_some_iff.1 h
  obtain ⟨hsent, hanswer, hacc, hid, hconfirmed, hlast⟩ := of_decide_eq_true ht
  obtain ⟨t', hstep, hid'⟩ := Option.map_eq_some_iff.1 hlast
  refine ⟨t, hrun, fun hagree => ?_⟩
  have hnew := hagree.2 1 1 2 0 9 2 0 t' hsent hanswer hacc hid hconfirmed hstep
  rw [hid'] at hnew
  exact absurd hnew (by decide)

/-- The node 1 keeps a child for the identifier 1, which both nodes that announced it have given
up. -/
theorem denial_abandons_child :
    ∃ t, Machine.run (Lobby.step (Config.tiny 2)) (start (Config.tiny 2) drawn)
        [.boot 0, .boot 1, .boot 2, .deliver 1 0 0 0, .deliver 0 1 1 0, .deliver 0 0 2 0,
          .deliver 2 0 0 0, .deliver 2 1 0 3, .deliver 0 2 2 4] = some t ∧ ¬ t.NoAbandoned := by
  have h : (Machine.run (Lobby.step (Config.tiny 2)) (start (Config.tiny 2) drawn)
      [.boot 0, .boot 1, .boot 2, .deliver 1 0 0 0, .deliver 0 1 1 0, .deliver 0 0 2 0,
        .deliver 2 0 0 0, .deliver 2 1 0 3, .deliver 0 2 2 4]).map (fun t => decide (
        (t.nodes 1).findConnection 1 ≠ none ∧ t.source 1 1 = some 0 ∧ (t.nodes 0).id = 3 ∧
          (t.nodes 2).id = 4)) = some true := by decide +kernel
  obtain ⟨t, hrun, ht⟩ := Option.map_eq_some_iff.1 h
  obtain ⟨hchild, hsource, hid, -⟩ := of_decide_eq_true ht
  refine ⟨t, hrun, fun hkept => ?_⟩
  obtain ⟨m, hm, hmid⟩ := hkept 1 1 hchild
  obtain rfl := Option.some.inj (hsource.symm.trans hm)
  rw [hid] at hmid
  exact absurd hmid (by decide)

end Lobby
end Collage.Rsp
