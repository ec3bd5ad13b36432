import Collage.Node.Connect

/-!
# Simultaneous connects

When both nodes have processed all messages and closures, they agree on their connection. This needs
that an acknowledgement does not find its object connected or closed in the meantime, that
`_closeNode` is not called for an object which another one has replaced, and that no registered
connection is lost before it is used.
-/

namespace Collage.Connect

namespace LocalNode

variable {l l' l'' : LocalNode} {c c' o : ℕ}

theorem incoming_removeConnection (l : LocalNode) (c : ℕ) :
    (l.removeConnection c).incoming c = false := Function.update_self _ _ _

theorem incoming_removeConnection_of_ne (hc : c' ≠ c) :
    (l.removeConnection c).incoming c' = l.incoming c' := Function.update_of_ne hc _ _

theorem connectionNodes_register (l : LocalNode) (c o : ℕ) :
    (l.register c o).connectionNodes c = some o := Function.update_self _ _ _

theorem connectionNodes_register_of_ne (hc : c' ≠ c) :
    (l.register c o).connectionNodes c' = l.connectionNodes c' := Function.update_of_ne hc _ _

/-- An object that is connected is the one of the peer, and its connection is registered. -/
structure Consistent (l : LocalNode) : Prop where
  entry : ∀ o c, l.outgoing o = some c → l.nodes = some o
  registered : ∀ o c, l.outgoing o = some c → l.connectionNodes c = some o
  incoming : ∀ c, l.connectionNodes c ≠ none → l.incoming c = true

theorem consistent_init : init.Consistent where
  entry := fun _ _ h => absurd h.symm (Option.some_ne_none _)
  registered := fun _ _ h => absurd h.symm (Option.some_ne_none _)
  incoming := fun _ h => absurd rfl h

/-- What other connections keep when a node changes. -/
structure Kept (l l' : LocalNode) (c : ℕ) : Prop where
  incoming : l'.incoming c = true → l.incoming c = true
  unregistered : l.connectionNodes c = none → l'.connectionNodes c = none
  registered : l'.incoming c = true → l.connectionNodes c ≠ none → l'.connectionNodes c ≠ none
  connection : l'.incoming c = true → l.connection = some c → l'.connection = some c

theorem Kept.trans (h : Kept l l' c) (h' : Kept l' l'' c) : Kept l l'' c where
  incoming := fun hin => h.incoming (h'.incoming hin)
  unregistered := fun hnone => h'.unregistered (h.unregistered hnone)
  registered := fun hin hsome => h'.registered hin (h.registered (h'.incoming hin) hsome)
  connection := fun hin hc => h'.connection hin (h.connection (h'.incoming hin) hc)

theorem Kept.removeConnection (l : LocalNode) (c c' : ℕ) : Kept l (l.removeConnection c) c' where
  incoming := fun hin => by
    by_cases hc : c' = c
    · rw [hc, incoming_removeConnection] at hin
      cases hin
    · rwa [incoming_removeConnection_of_ne hc] at hin
  unregistered := id
  registered := fun _ => id
  connection := fun _ => id

theorem Kept.createNode (l : LocalNode) (c : ℕ) : Kept l l.createNode c :=
  ⟨id, id, fun _ => id, fun _ => id⟩

theorem Kept.serveRequest (l : LocalNode) (c c' : ℕ) : Kept l (l.serveRequest c) c' :=
  ⟨id, id, fun _ => id, fun _ => id⟩

theorem Kept.closeNode (ho : ∀ c, l.connection = some c → l.outgoing o = some c) (c : ℕ) :
    Kept l (l.closeNode o) c := by
  unfold LocalNode.closeNode
  cases hout : l.outgoing o with
  | none =>
      refine ⟨id, id, fun _ => id, fun _ hc => ?_⟩
      rw [ho c hc] at hout
      cases hout
  | some c' =>
      by_cases hc : c = c'
      · subst hc
        refine ⟨fun hin => ?_, fun _ => Function.update_self _ _ _, fun hin => ?_, fun hin => ?_⟩
        all_goals
          dsimp only at hin
          rw [incoming_removeConnection] at hin
          cases hin
      · refine ⟨fun hin => ?_, fun hnone => ?_, fun _ hsome => ?_, fun _ hconnection => ?_⟩
        · exact (Kept.removeConnection l c' c).incoming hin
        · exact (Function.update_of_ne hc _ _).trans hnone
        · exact fun hnone => hsome ((Function.update_of_ne hc _ _).symm.trans hnone)
        · rw [ho c hconnection] at hout
          exact absurd (Option.some.inj hout) hc

theorem Kept.register (hnone : l.connection = none) (o : ℕ) (hc : c' ≠ c) :
    Kept l (l.register c o) c' where
  incoming := id
  unregistered := by rw [connectionNodes_register_of_ne hc]; exact id
  registered := by rw [connectionNodes_register_of_ne hc]; exact fun _ => id
  connection := fun _ hsome => by
    rw [hnone] at hsome
    cases hsome

theorem Kept.connect (hnone : l.connection = none) (c o c' : ℕ) : Kept l (l.connect c o) c' where
  incoming := id
  unregistered := id
  registered := fun _ => id
  connection := fun _ hsome => by
    rw [hnone] at hsome
    cases hsome

namespace Consistent

theorem of_eq (h : l.Consistent) (hnodes : l'.nodes = l.nodes) (houtgoing : l'.outgoing = l.outgoing)
    (hregistered : l'.connectionNodes = l.connectionNodes)
    (hincoming : l'.incoming = l.incoming) : l'.Consistent where
  entry := by rw [hnodes, houtgoing]; exact h.entry
  registered := by rw [hregistered, houtgoing]; exact h.registered
  incoming := by rw [hregistered, hincoming]; exact h.incoming

theorem connection_eq (h : l.Consistent) (ho : l.outgoing o = some c) : l.connection = some c := by
  rw [connection, h.entry o c ho]
  exact ho

theorem outgoing_eq_none (h : l.Consistent) (hnone : l.connection = none) (o : ℕ) :
    l.outgoing o = none := by
  cases ho : l.outgoing o with
  | none => rfl
  | some c =>
      rw [h.connection_eq ho] at hnone
      cases hnone

theorem incoming_connection (h : l.Consistent) (hc : l.connection = some c) :
    l.incoming c = true := by
  obtain ⟨o, -, ho⟩ := Option.bind_eq_some_iff.1 hc
  refine h.incoming c ?_
  rw [h.registered o c ho]
  exact Option.some_ne_none o

theorem removeConnection (h : l.Consistent) (hc : l.connectionNodes c = none) :
    (l.removeConnection c).Consistent where
  entry := h.entry
  registered := h.registered
  incoming := fun c' hsome => by
    have hne : c' ≠ c := by
      rintro rfl
      exact hsome hc
    rw [incoming_removeConnection_of_ne hne]
    exact h.incoming c' hsome

theorem outgoing_closeNode (h : l.Consistent)
    (ho : ∀ c, l.connection = some c → l.outgoing o = some c) (o' : ℕ) :
    (l.closeNode o).outgoing o' = none := by
  unfold LocalNode.closeNode
  cases hout : l.outgoing o with
  | none =>
      refine h.outgoing_eq_none ?_ o'
      cases hconnection : l.connection with
      | none => rfl
      | some c =>
          rw [ho c hconnection] at hout
          cases hout
  | some c =>
      dsimp only
      by_cases hne : o' = o
      · rw [hne, Function.update_self]
      · rw [Function.update_of_ne hne]
        cases hout' : l.outgoing o' with
        | none => rfl
        | some c' =>
            have heq := (h.entry o' c' hout').symm.trans (h.entry o c hout)
            exact absurd (Option.some.inj heq) hne

theorem closeNode (h : l.Consistent) (ho : ∀ c, l.connection = some c → l.outgoing o = some c) :
    (l.closeNode o).Consistent where
  entry := fun o' c hout => by
    rw [h.outgoing_closeNode ho o'] at hout
    cases hout
  registered := fun o' c hout => by
    rw [h.outgoing_closeNode ho o'] at hout
    cases hout
  incoming := fun c hsome => by
    unfold LocalNode.closeNode at hsome ⊢
    cases hout : l.outgoing o with
    | none =>
        rw [hout] at hsome
        exact h.incoming c hsome
    | some c' =>
        rw [hout] at hsome
        dsimp only at hsome ⊢
        by_cases hc : c = c'
        · rw [hc, Function.update_self] at hsome
          exact absurd rfl hsome
        · rw [Function.update_of_ne hc] at hsome
          rw [incoming_removeConnection_of_ne hc]
          exact h.incoming c hsome

theorem register (h : l.Consistent) (hnone : l.connection = none) (hin : l.incoming c = true)
    (o : ℕ) : (l.register c o).Consistent where
  entry := fun o' c' hout => by
    exact absurd ((h.outgoing_eq_none hnone o').symm.trans hout) (Option.some_ne_none c').symm
  registered := fun o' c' hout => by
    exact absurd ((h.outgoing_eq_none hnone o').symm.trans hout) (Option.some_ne_none c').symm
  incoming := fun c' hsome => by
    by_cases hc : c' = c
    · rw [hc]
      exact hin
    · rw [connectionNodes_register_of_ne hc] at hsome
      exact h.incoming c' hsome

theorem connect (h : l.Consistent) (hnone : l.connection = none) (hnodes : l.nodes = some o)
    (hregistered : l.connectionNodes c = some o) : (l.connect c o).Consistent := by
  have hout {o' c' : ℕ} (hout : (l.connect c o).outgoing o' = some c') : o' = o ∧ c' = c := by
    by_cases hne : o' = o
    · subst hne
      exact ⟨rfl, Option.some.inj (hout.symm.trans (Function.update_self _ _ _))⟩
    · have hnone := h.outgoing_eq_none hnone o'
      rw [← Function.update_of_ne hne (some c) l.outgoing] at hnone
      exact absurd (hnone.symm.trans hout) (Option.some_ne_none c').symm
  refine ⟨fun o' c' hsome => ?_, fun o' c' hsome => ?_, h.incoming⟩
  · rw [(hout hsome).1]
    exact hnodes
  · rw [(hout hsome).1, (hout hsome).2]
    exact hregistered

end Consistent

theorem connection_connect (hnodes : l.nodes = some o) : (l.connect c o).connection = some c := by
  rw [connection, show (l.connect c o).nodes = some o from hnodes]
  exact Function.update_self _ _ _

theorem connection_eq_none (hnodes : l.nodes = some o) (hout : ¬ (l.outgoing o).isSome = true) :
    l.connection = none := by
  rw [connection, hnodes]
  exact Option.not_isSome_iff_eq_none.1 hout

theorem Consistent.cmdConnect (h : l.Consistent) (hc : l.connectionNodes c = none)
    (hin : l.incoming c = true) (creates : Bool) :
    (l.cmdConnect creates c).1.Consistent ∧
    (∀ c', c' ≠ c → Kept l (l.cmdConnect creates c).1 c') ∧
    ((l.cmdConnect creates c).2 = .reply ∧
        (l.cmdConnect creates c).1.connectionNodes c ≠ none ∨
      (l.cmdConnect creates c).2 = .refuse ∧
        (l.cmdConnect creates c).1.incoming c = false) := by
  unfold LocalNode.cmdConnect
  cases hnodes : l.nodes with
  | some o =>
      dsimp only
      split_ifs with hout
      · exact ⟨h.removeConnection hc, fun c' _ => Kept.removeConnection l c c',
          Or.inr ⟨rfl, incoming_removeConnection l c⟩⟩
      · have hnone := connection_eq_none hnodes hout
        refine ⟨h.register hnone hin o, fun c' hne => Kept.register hnone o hne,
          Or.inl ⟨rfl, ?_⟩⟩
        rw [connectionNodes_register]
        exact Option.some_ne_none o
  | none =>
      dsimp only
      split_ifs
      · have hnone : l.connection = none := by rw [connection, hnodes]; rfl
        have hcreated : l.createNode.Consistent := h.of_eq rfl rfl rfl rfl
        refine ⟨hcreated.register hnone hin _, fun c' hne => ?_, Or.inl ⟨rfl, ?_⟩⟩
        · exact (Kept.createNode l c').trans (Kept.register (l := l.createNode) hnone _ hne)
        · rw [connectionNodes_register]
          exact Option.some_ne_none _
      · exact ⟨h.removeConnection hc, fun c' _ => Kept.removeConnection l c c',
          Or.inr ⟨rfl, incoming_removeConnection l c⟩⟩

theorem Consistent.cmdConnectRefused (h : l.Consistent) (hc : l.connectionNodes c = none) :
    (l.cmdConnectRefused c).Consistent ∧ (∀ c', Kept l (l.cmdConnectRefused c) c') ∧
      (l.cmdConnectRefused c).incoming c = false :=
  ⟨(h.removeConnection hc).of_eq rfl rfl rfl rfl,
    fun c' => (Kept.removeConnection l c c').trans (Kept.serveRequest _ c c'),
    incoming_removeConnection l c⟩

theorem Consistent.register_connect (h : l.Consistent) (hnone : l.connection = none)
    (hin : l.incoming c = true) (o : ℕ) :
    (((l.register c o).connect c o).serveRequest c).Consistent ∧
    (∀ c', c' ≠ c → Kept l (((l.register c o).connect c o).serveRequest c) c') ∧
    (((l.register c o).connect c o).serveRequest c).connection = some c := by
  have hclosed : (l.register c o).connection = none := h.outgoing_eq_none hnone o
  refine ⟨?_, fun c' hne => ?_, ?_⟩
  · exact ((h.register hnone hin o).connect hclosed rfl
      (connectionNodes_register l c o)).of_eq rfl rfl rfl rfl
  · exact ((Kept.register hnone o hne).trans (Kept.connect hclosed c o c')).trans
      (Kept.serveRequest _ c c')
  · exact connection_connect (l := l.register c o) rfl

theorem Consistent.cmdConnectReply (h : l.Consistent) (hc : l.connectionNodes c = none)
    (hin : l.incoming c = true) :
    (l.cmdConnectReply c).1.Consistent ∧ (∀ c', c' ≠ c → Kept l (l.cmdConnectReply c).1 c') ∧
    ((l.cmdConnectReply c).2 = [.ack] ∧ (l.cmdConnectReply c).1.connection = some c ∨
      (l.cmdConnectReply c).2 = [] ∧ (l.cmdConnectReply c).1.incoming c = false) := by
  unfold LocalNode.cmdConnectReply
  cases hnodes : l.nodes with
  | some o =>
      dsimp only
      split_ifs with hout
      · have hclose : ∀ c', (l.removeConnection c).connection = some c' →
            (l.removeConnection c).outgoing o = some c' := fun c' hsome => by
          rw [connection, show (l.removeConnection c).nodes = some o from hnodes] at hsome
          exact hsome
        refine ⟨((h.removeConnection hc).closeNode hclose).of_eq rfl rfl rfl rfl,
          fun c' _ => ?_, Or.inr ⟨rfl, ?_⟩⟩
        · exact ((Kept.removeConnection l c c').trans (Kept.closeNode hclose c')).trans
            (Kept.serveRequest _ c c')
        · refine Bool.eq_false_iff.2 fun htrue => ?_
          have hin' := (Kept.closeNode hclose c).incoming htrue
          rw [incoming_removeConnection] at hin'
          cases hin'
      · obtain ⟨hconsistent, hkept, hconnection⟩ :=
          h.register_connect (connection_eq_none hnodes hout) hin o
        exact ⟨hconsistent, hkept, Or.inl ⟨rfl, hconnection⟩⟩
  | none =>
      have hnone : l.connection = none := by rw [connection, hnodes]; rfl
      dsimp only
      cases l.requests c with
      | some o =>
          obtain ⟨hconsistent, hkept, hconnection⟩ := h.register_connect hnone hin o
          exact ⟨hconsistent, hkept, Or.inl ⟨rfl, hconnection⟩⟩
      | none =>
          exact ⟨h.removeConnection hc, fun c' _ => Kept.removeConnection l c c',
            Or.inr ⟨rfl, incoming_removeConnection l c⟩⟩

theorem Consistent.cmdConnectAck (h : l.Consistent) (hc : l.connectionNodes c = some o)
    (hnodes : l.nodes = some o) (hout : l.outgoing o = none) :
    (l.cmdConnectAck c).Consistent ∧ (∀ c', Kept l (l.cmdConnectAck c) c') ∧
      (l.cmdConnectAck c).connection = some c := by
  have hnone : l.connection = none := by rw [connection, hnodes]; exact hout
  have heq : l.cmdConnectAck c = l.connect c o := by
    rw [LocalNode.cmdConnectAck, hc]
  rw [heq]
  exact ⟨h.connect hnone hnodes hc, Kept.connect hnone c o, connection_connect hnodes⟩

theorem Consistent.handleDisconnect (h : l.Consistent)
    (hc : ∀ o, l.connectionNodes c = some o → l.outgoing o = some c) :
    (l.handleDisconnect c).Consistent ∧ ∀ c', Kept l (l.handleDisconnect c) c' := by
  unfold LocalNode.handleDisconnect
  cases hregistered : l.connectionNodes c with
  | none => exact ⟨h.removeConnection hregistered, Kept.removeConnection l c⟩
  | some o =>
      have hout := hc o hregistered
      have hclose : ∀ c', l.connection = some c' → l.outgoing o = some c' := fun c' hsome => by
        rw [hout, ← h.connection_eq hout, hsome]
      dsimp only
      rw [if_pos hout]
      refine ⟨(h.closeNode hclose).removeConnection ?_, fun c' => ?_⟩
      · unfold LocalNode.closeNode
        rw [hout]
        exact Function.update_self _ _ _
      · exact (Kept.closeNode hclose c').trans (Kept.removeConnection _ c c')

end LocalNode

/-- How far the handshake over a connection is, for the node that has opened it and the other one,
with the messages to each of them. -/
inductive Phase (a b : LocalNode) (toA toB : List Message) (broken : Bool) (c : ℕ) : Prop
  | offered (hA : toA = []) (hB : toB = [.connect]) (ha : a.connectionNodes c = none)
      (hb : b.connectionNodes c = none)
  | accepted (hA : toA = [.reply]) (hB : toB = []) (ha : a.connectionNodes c = none)
      (hb : b.incoming c = true → b.connectionNodes c ≠ none)
  | refused (hA : toA = [.refuse]) (hB : toB = []) (ha : a.connectionNodes c = none)
  | answered (hA : toA = []) (hB : toB = [.ack])
      (ha : a.incoming c = true → a.connection = some c) (hb : b.connectionNodes c ≠ none)
  | finished (hA : toA = []) (hB : toB = [])
      (h : a.incoming c = true → b.incoming c = true → broken = false →
        a.connection = some c ∧ b.connection = some c)

namespace Phase

variable {a b l : LocalNode} {toA toB : List Message} {broken : Bool} {c : ℕ}

theorem keep_opener (h : Phase a b toA toB broken c) (hkept : a.Kept l c) :
    Phase l b (if l.incoming c then toA else []) toB broken c := by
  by_cases hin : l.incoming c = true
  · rw [if_pos hin]
    cases h with
    | offered hA hB ha hb => exact .offered hA hB (hkept.unregistered ha) hb
    | accepted hA hB ha hb => exact .accepted hA hB (hkept.unregistered ha) hb
    | refused hA hB ha => exact .refused hA hB (hkept.unregistered ha)
    | answered hA hB ha hb =>
        exact .answered hA hB (fun _ => hkept.connection hin (ha (hkept.incoming hin))) hb
    | finished hA hB h =>
        refine .finished hA hB fun _ hb hbroken => ?_
        obtain ⟨ha, hb⟩ := h (hkept.incoming hin) hb hbroken
        exact ⟨hkept.connection hin ha, hb⟩
  · rw [if_neg hin]
    cases h with
    | offered hA hB ha hb => exact .offered rfl hB (hkept.unregistered ha) hb
    | accepted hA hB ha hb => exact .finished rfl hB fun ha => absurd ha hin
    | refused hA hB ha => exact .finished rfl hB fun ha => absurd ha hin
    | answered hA hB ha hb => exact .answered rfl hB (fun ha => absurd ha hin) hb
    | finished hA hB h => exact .finished rfl hB fun ha => absurd ha hin

theorem keep_other (h : Phase a b toA toB broken c) (hkept : b.Kept l c) :
    Phase a l toA (if l.incoming c then toB else []) broken c := by
  by_cases hin : l.incoming c = true
  · rw [if_pos hin]
    cases h with
    | offered hA hB ha hb => exact .offered hA hB ha (hkept.unregistered hb)
    | accepted hA hB ha hb =>
        exact .accepted hA hB ha fun _ => hkept.registered hin (hb (hkept.incoming hin))
    | refused hA hB ha => exact .refused hA hB ha
    | answered hA hB ha hb => exact .answered hA hB ha (hkept.registered hin hb)
    | finished hA hB h =>
        refine .finished hA hB fun ha _ hbroken => ?_
        obtain ⟨ha, hb⟩ := h ha (hkept.incoming hin) hbroken
        exact ⟨ha, hkept.connection hin hb⟩
  · rw [if_neg hin]
    cases h with
    | offered hA hB ha hb => exact .finished hA rfl fun _ hb => absurd hb hin
    | accepted hA hB ha hb => exact .accepted hA rfl ha fun hb => absurd hb hin
    | refused hA hB ha => exact .refused hA rfl ha
    | answered hA hB ha hb => exact .finished hA rfl fun _ hb => absurd hb hin
    | finished hA hB h => exact .finished hA rfl fun _ hb => absurd hb hin

/-- The nodes change only for other connections. -/
theorem congr {a' b' : LocalNode} (h : Phase a b toA toB broken c)
    (hain : a'.incoming c = a.incoming c) (hareg : a'.connectionNodes c = a.connectionNodes c)
    (haconn : a'.connection = a.connection) (hbin : b'.incoming c = b.incoming c)
    (hbreg : b'.connectionNodes c = b.connectionNodes c) (hbconn : b'.connection = b.connection) :
    Phase a' b' toA toB broken c := by
  cases h with
  | offered hA hB ha hb => exact .offered hA hB (hareg.trans ha) (hbreg.trans hb)
  | accepted hA hB ha hb =>
      refine .accepted hA hB (hareg.trans ha) ?_
      rw [hbin, hbreg]
      exact hb
  | refused hA hB ha => exact .refused hA hB (hareg.trans ha)
  | answered hA hB ha hb =>
      refine .answered hA hB ?_ ?_
      · rw [hain, haconn]
        exact ha
      · rw [hbreg]
        exact hb
  | finished hA hB h =>
      refine .finished hA hB ?_
      rw [hain, hbin, haconn, hbconn]
      exact h

theorem take_cases {α : Type} (x : α) (k : ℕ) : [x].take k = [x] ∨ [x].take k = [] := by
  cases k with
  | zero => exact Or.inr rfl
  | succ k => exact Or.inl (by rw [List.take_succ_cons, List.take_nil])

theorem take_messages (h : Phase a b toA toB broken c) (i j : ℕ) :
    Phase a b (toA.take i) (toB.take j) true c := by
  cases h with
  | offered hA hB ha hb =>
      subst hA hB
      rcases take_cases Message.connect j with hj | hj <;> rw [hj, List.take_nil]
      · exact .offered rfl rfl ha hb
      · exact .finished rfl rfl fun _ _ h => absurd h (by decide)
  | accepted hA hB ha hb =>
      subst hA hB
      rcases take_cases Message.reply i with hi | hi <;> rw [hi, List.take_nil]
      · exact .accepted rfl rfl ha hb
      · exact .finished rfl rfl fun _ _ h => absurd h (by decide)
  | refused hA hB ha =>
      subst hA hB
      rcases take_cases Message.refuse i with hi | hi <;> rw [hi, List.take_nil]
      · exact .refused rfl rfl ha
      · exact .finished rfl rfl fun _ _ h => absurd h (by decide)
  | answered hA hB ha hb =>
      subst hA hB
      rcases take_cases Message.ack j with hj | hj <;> rw [hj, List.take_nil]
      · exact .answered rfl rfl ha hb
      · exact .finished rfl rfl fun _ _ h => absurd h (by decide)
  | finished hA hB h =>
      subst hA hB
      exact .finished List.take_nil List.take_nil fun _ _ h => absurd h (by decide)

end Phase

namespace World

/-- An acknowledgement finds its object as that of the peer and not connected. A registered
connection is in use when it is lost. An object is closed only if no other one is connected. -/
def Orderly (w : World) : Event → Prop
  | .receive n c =>
      (w.messages n c).head? = some .ack → ∀ o ∈ (w.node n).connectionNodes c,
        (w.node n).nodes = some o ∧ (w.node n).outgoing o = none
  | .disconnected n c =>
      ∀ o ∈ (w.node n).connectionNodes c, (w.node n).outgoing o = some c
  | .cmdDisconnect n =>
      ∀ o ∈ (w.node n).disconnects.head?, ∀ c ∈ (w.node n).connection,
        (w.node n).outgoing o = some c
  | .create _ | .connect _ _ | .timeout _ _ | .disconnect _ _ | .lose _ _ _ => True

instance (w : World) (e : Event) : Decidable (w.Orderly e) := by
  cases e <;> unfold Orderly <;> infer_instance

/-- The state of the handshake over a connection. -/
def PhaseOf (w : World) (c : ℕ) : Prop :=
  Phase (w.node (w.opener c)) (w.node (!w.opener c)) (w.messages (w.opener c) c)
    (w.messages (!w.opener c) c) (w.broken c) c

structure Inv (w : World) : Prop where
  consistent : ∀ n, (w.node n).Consistent
  phase : ∀ c < w.opened, w.PhaseOf c
  fresh : ∀ n c, w.opened ≤ c → (w.node n).incoming c = false

theorem inv_init : init.Inv where
  consistent := fun _ => LocalNode.consistent_init
  phase := fun c hc => absurd hc (Nat.not_lt_zero c)
  fresh := fun _ _ _ => rfl

theorem not_ne (n : Bool) : (!n) ≠ n := by cases n <;> decide

section Messages

variable (w : World) (n : Bool) (c : ℕ) (messages : List Message)

@[simp] theorem put_node (l : LocalNode) : (w.put n l).node n = l := Function.update_self _ _ _

@[simp] theorem put_node_not (l : LocalNode) : (w.put n l).node (!n) = w.node (!n) :=
  Function.update_of_ne (not_ne n) _ _

@[simp] theorem put_messages (l : LocalNode) :
    (w.put n l).messages n c = if l.incoming c then w.messages n c else [] :=
  congrFun (Function.update_self n _ w.messages) c

@[simp] theorem put_messages_not (l : LocalNode) :
    (w.put n l).messages (!n) c = w.messages (!n) c :=
  congrFun (Function.update_of_ne (not_ne n) _ w.messages) c

@[simp] theorem setMessages_messages : (w.setMessages n c messages).messages n c = messages := by
  simp only [setMessages, Function.update_self]

@[simp] theorem setMessages_messages_not :
    (w.setMessages n c messages).messages (!n) c = w.messages (!n) c := by
  simp only [setMessages, Function.update_of_ne (not_ne n)]

theorem setMessages_messages_of_ne (m : Bool) {c' : ℕ} (hc : c' ≠ c) :
    (w.setMessages n c messages).messages m c' = w.messages m c' := by
  by_cases hm : m = n
  · simp only [setMessages, hm, Function.update_self, Function.update_of_ne hc]
  · simp only [setMessages, Function.update_of_ne hm]

@[simp] theorem send_node : (w.send n c messages).node = w.node := by
  unfold send
  split_ifs <;> rfl

@[simp] theorem send_opener : (w.send n c messages).opener = w.opener := by
  unfold send
  split_ifs <;> rfl

@[simp] theorem send_broken : (w.send n c messages).broken = w.broken := by
  unfold send
  split_ifs <;> rfl

@[simp] theorem send_opened : (w.send n c messages).opened = w.opened := by
  unfold send
  split_ifs <;> rfl

@[simp] theorem send_messages : (w.send n c messages).messages n c = w.messages n c := by
  unfold send
  split_ifs
  · have h := setMessages_messages_not w (!n) c (w.messages (!n) c ++ messages)
    rwa [Bool.not_not] at h
  · rfl

theorem send_messages_not : (w.send n c messages).messages (!n) c =
    if (w.node (!n)).incoming c ∧ w.broken c = false then w.messages (!n) c ++ messages
    else w.messages (!n) c := by
  unfold send
  split_ifs
  · rw [setMessages_messages]
  · rfl

theorem send_messages_of_ne (m : Bool) {c' : ℕ} (hc : c' ≠ c) :
    (w.send n c messages).messages m c' = w.messages m c' := by
  unfold send
  split_ifs
  · rw [setMessages_messages_of_ne _ _ _ _ m hc]
  · rfl

end Messages

variable {creates : Bool → Bool} {w w' : World} {n : Bool} {l : LocalNode} {c : ℕ}

theorem phaseOf_put_opener (hn : w.opener c = n) :
    (w.put n l).PhaseOf c ↔ Phase l (w.node (!n)) (if l.incoming c then w.messages n c else [])
      (w.messages (!n) c) (w.broken c) c := by
  rw [PhaseOf, show (w.put n l).opener c = n from hn, put_node, put_node_not,
    World.put_messages, put_messages_not]
  rfl

theorem phaseOf_put_other (hn : w.opener c = !n) :
    (w.put n l).PhaseOf c ↔ Phase (w.node (!n)) l (w.messages (!n) c)
      (if l.incoming c then w.messages n c else []) (w.broken c) c := by
  rw [PhaseOf, show (w.put n l).opener c = !n from hn, Bool.not_not, put_node, put_node_not,
    World.put_messages, put_messages_not]
  rfl

theorem PhaseOf.put (h : w.PhaseOf c) (hkept : (w.node n).Kept l c) : (w.put n l).PhaseOf c := by
  by_cases hn : w.opener c = n
  · rw [phaseOf_put_opener hn]
    rw [PhaseOf, hn] at h
    exact Phase.keep_opener h hkept
  · have hn : w.opener c = !n := Bool.eq_not_of_ne hn
    rw [phaseOf_put_other hn]
    rw [PhaseOf, hn, Bool.not_not] at h
    exact Phase.keep_other h hkept

namespace Inv

theorem fresh_put (h : w.Inv) (hin : ∀ c, l.incoming c = true → (w.node n).incoming c = true)
    (m : Bool) (c : ℕ) (hc : w.opened ≤ c) : ((w.put n l).node m).incoming c = false := by
  by_cases hm : m = n
  · rw [hm, put_node, Bool.eq_false_iff]
    intro htrue
    have hold := hin c htrue
    rw [h.fresh n c hc] at hold
    cases hold
  · simp only [World.put, Function.update_of_ne hm]
    exact h.fresh m c hc

theorem put (h : w.Inv) (hl : l.Consistent) (hkept : ∀ c, (w.node n).Kept l c) :
    (w.put n l).Inv where
  consistent := fun m => by
    by_cases hm : m = n
    · rw [hm, put_node]
      exact hl
    · simp only [World.put, Function.update_of_ne hm]
      exact h.consistent m
  phase := fun c hc => (h.phase c hc).put (hkept c)
  fresh := h.fresh_put fun c => (hkept c).incoming

theorem put_messages (h : w.Inv) (hnode : w'.node = w.node) (hopener : w'.opener = w.opener)
    (hbroken : w'.broken = w.broken) (hopened : w'.opened = w.opened)
    (hmessages : ∀ m c', c' ≠ c → w'.messages m c' = w.messages m c')
    (hl : l.Consistent) (hkept : ∀ c', c' ≠ c → (w.node n).Kept l c')
    (hin : (w.node n).incoming c = true) (hphase : (w'.put n l).PhaseOf c) :
    (w'.put n l).Inv where
  consistent := fun m => by
    by_cases hm : m = n
    · rw [hm, put_node]
      exact hl
    · simp only [World.put, Function.update_of_ne hm, hnode]
      exact h.consistent m
  phase := fun c' hc' => by
    by_cases hc : c' = c
    · rw [hc]
      exact hphase
    · have hold := h.phase c' (hopened ▸ hc')
      have hsame : w'.PhaseOf c' := by
        rw [PhaseOf, hnode, hopener, hbroken, hmessages _ c' hc, hmessages _ c' hc]
        exact hold
      exact hsame.put (hnode.symm ▸ hkept c' hc)
  fresh := fun m c' hc' => by
    have hfresh := h.fresh m c' (hopened ▸ hc')
    by_cases hm : m = n
    · rw [hm, put_node, Bool.eq_false_iff]
      intro htrue
      by_cases hc : c' = c
      · rw [hm, hc, hin] at hfresh
        cases hfresh
      · rw [hm, (hkept c' hc).incoming htrue] at hfresh
        cases hfresh
    · simp only [World.put, Function.update_of_ne hm, hnode]
      exact hfresh

theorem lt_opened (h : w.Inv) (hin : (w.node n).incoming c = true) : c < w.opened := by
  by_contra hle
  rw [h.fresh n c (by omega)] at hin
  cases hin

theorem handle_opener (h : w.Inv) (hn : w.opener c = n) {message : Message}
    {messages : List Message} (hin : (w.node n).incoming c = true)
    (hmessages : w.messages n c = message :: messages) :
    ((w.setMessages n c messages).handle creates n c message).Inv := by
  have hphase := h.phase c (h.lt_opened hin)
  rw [PhaseOf, hn, hmessages] at hphase
  have hl := h.consistent n
  cases hphase with
  | offered hA hB ha hb => cases hA
  | answered hA hB ha hb => cases hA
  | finished hA hB hboth => cases hA
  | refused hA hB ha =>
      cases hA
      obtain ⟨hconsistent, hkept, hout⟩ := hl.cmdConnectRefused ha
      refine h.put_messages rfl rfl rfl rfl
        (fun m c' hc' => setMessages_messages_of_ne _ _ _ _ m hc') hconsistent
        (fun c' _ => hkept c') hin ?_
      refine (phaseOf_put_opener (w := w.setMessages n c []) hn).2
        (.finished ?_ ?_ fun hin' => ?_)
      · rw [setMessages_messages, ite_self]
      · rw [setMessages_messages_not, hB]
      · exact absurd (hout.symm.trans hin') Bool.false_ne_true
  | accepted hA hB ha hb =>
      cases hA
      obtain ⟨hconsistent, hkept, hreply⟩ := hl.cmdConnectReply ha hin
      refine h.put_messages (send_node _ _ _ _) (send_opener _ _ _ _) (send_broken _ _ _ _)
        (send_opened _ _ _ _) (fun m c' hc' => ?_) hconsistent hkept hin ?_
      · rw [send_messages_of_ne _ _ _ _ m hc', setMessages_messages_of_ne _ _ _ _ m hc']
      rw [phaseOf_put_opener (by rw [send_opener]; exact hn), send_node, send_messages,
        setMessages_messages, ite_self, send_messages_not, setMessages_messages_not, hB,
        send_broken]
      rcases hreply with ⟨hack, hconnection⟩ | ⟨hnone, hout⟩
      · by_cases hsent : (w.node (!n)).incoming c = true ∧ w.broken c = false
        · refine .answered rfl ?_ (fun _ => hconnection) (hb hsent.1)
          exact (if_pos hsent).trans hack
        · refine .finished rfl ?_ fun _ hother hbroken => absurd ⟨hother, hbroken⟩ hsent
          exact if_neg hsent
      · refine .finished rfl ?_ fun hin' => absurd (hout.symm.trans hin') Bool.false_ne_true
        exact (ite_congr rfl (fun _ => hnone) (fun _ => rfl)).trans (ite_self _)

theorem handle_other (h : w.Inv) (hn : w.opener c = !n) {message : Message}
    {messages : List Message} (hin : (w.node n).incoming c = true)
    (hmessages : w.messages n c = message :: messages)
    (hack : message = .ack → ∀ o, (w.node n).connectionNodes c = some o →
      (w.node n).nodes = some o ∧ (w.node n).outgoing o = none) :
    ((w.setMessages n c messages).handle creates n c message).Inv := by
  have hphase := h.phase c (h.lt_opened hin)
  rw [PhaseOf, hn, Bool.not_not, hmessages] at hphase
  have hl := h.consistent n
  cases hphase with
  | accepted hA hB ha hb => cases hB
  | refused hA hB ha => cases hB
  | finished hA hB hboth => cases hB
  | offered hA hB ha hb =>
      cases hB
      obtain ⟨hconsistent, hkept, hreply⟩ := hl.cmdConnect hb hin (creates n)
      refine h.put_messages (send_node _ _ _ _) (send_opener _ _ _ _) (send_broken _ _ _ _)
        (send_opened _ _ _ _) (fun m c' hc' => ?_) hconsistent hkept hin ?_
      · rw [send_messages_of_ne _ _ _ _ m hc', setMessages_messages_of_ne _ _ _ _ m hc']
      rw [phaseOf_put_other (by rw [send_opener]; exact hn), send_node, send_messages,
        setMessages_messages, ite_self, send_messages_not, setMessages_messages_not, hA,
        send_broken]
      by_cases hsent : (w.node (!n)).incoming c = true ∧ w.broken c = false
      · rcases hreply with ⟨hmessage, hregistered⟩ | ⟨hmessage, hout⟩
        · refine .accepted ?_ rfl ha fun _ => hregistered
          exact (if_pos hsent).trans (congrArg (fun message => [] ++ [message]) hmessage)
        · refine .refused ?_ rfl ha
          exact (if_pos hsent).trans (congrArg (fun message => [] ++ [message]) hmessage)
      · refine .finished ?_ rfl fun hother _ hbroken => absurd ⟨hother, hbroken⟩ hsent
        exact if_neg hsent
  | answered hA hB ha hb =>
      cases hB
      obtain ⟨o, ho⟩ := Option.ne_none_iff_exists'.1 hb
      obtain ⟨hnodes, hout⟩ := hack rfl o ho
      obtain ⟨hconsistent, hkept, hconnection⟩ := hl.cmdConnectAck ho hnodes hout
      refine h.put_messages rfl rfl rfl rfl
        (fun m c' hc' => setMessages_messages_of_ne _ _ _ _ m hc') hconsistent
        (fun c' _ => hkept c') hin ?_
      refine (phaseOf_put_other (w := w.setMessages n c []) hn).2
        (.finished ?_ ?_ fun hother _ _ => ⟨ha hother, hconnection⟩)
      · rw [setMessages_messages_not, hA]
      · rw [setMessages_messages, ite_self]

theorem connect (h : w.Inv) (n : Bool) (o : ℕ) : (w.connect n o).Inv := by
  have hunregistered (m : Bool) : (w.node m).connectionNodes w.opened = none := by
    by_contra hsome
    have hin := (h.consistent m).incoming w.opened hsome
    rw [h.fresh m w.opened (Nat.le_refl _)] at hin
    cases hin
  refine ⟨fun m => ⟨(h.consistent m).entry, (h.consistent m).registered, fun c hsome => ?_⟩,
    fun c hc => ?_, fun m c hc => ?_⟩
  · have hne : c ≠ w.opened := by
      rintro rfl
      exact hsome (hunregistered m)
    exact (Function.update_of_ne hne _ _).trans ((h.consistent m).incoming c hsome)
  · rcases Nat.lt_succ_iff_lt_or_eq.1 hc with hc | rfl
    · have hne : c ≠ w.opened := Nat.ne_of_lt hc
      have hopener : (w.connect n o).opener c = w.opener c := Function.update_of_ne hne _ _
      have hbroken : (w.connect n o).broken c = w.broken c := Function.update_of_ne hne _ _
      have hmessages (m : Bool) : (w.connect n o).messages m c = w.messages m c :=
        Function.update_of_ne hne _ _
      rw [PhaseOf, hopener, hbroken, hmessages, hmessages]
      exact (h.phase c hc).congr (Function.update_of_ne hne _ _) rfl rfl
        (Function.update_of_ne hne _ _) rfl rfl
    · have hopener : (w.connect n o).opener w.opened = n := Function.update_self _ _ _
      rw [PhaseOf, hopener]
      refine .offered ?_ ?_ (hunregistered n) (hunregistered (!n))
      · exact (Function.update_self _ _ _).trans (if_pos rfl)
      · exact (Function.update_self _ _ _).trans (if_neg (not_ne n))
  · have hne : c ≠ w.opened := by
      rintro rfl
      exact absurd hc (Nat.not_succ_le_self _)
    exact (Function.update_of_ne hne _ _).trans (h.fresh m c (Nat.le_of_succ_le hc))

theorem take_messages (h : w.Inv) (n : Bool) (c count : ℕ) :
    Inv { w.setMessages n c ((w.messages n c).take count) with
      broken := Function.update w.broken c true } := by
  refine ⟨h.consistent, fun c' hc' => ?_, h.fresh⟩
  have hphase := h.phase c' hc'
  by_cases hc : c' = c
  · subst hc
    by_cases hn : w.opener c' = n
    · rw [PhaseOf, hn] at hphase
      have hlose := hphase.take_messages count (w.messages (!n) c').length
      rw [List.take_length] at hlose
      rw [PhaseOf]
      dsimp only
      rw [show (w.setMessages n c' _).opener c' = n from hn, setMessages_messages,
        setMessages_messages_not, Function.update_self]
      exact hlose
    · have hn : w.opener c' = !n := Bool.eq_not_of_ne hn
      rw [PhaseOf, hn, Bool.not_not] at hphase
      have hlose := hphase.take_messages (w.messages (!n) c').length count
      rw [List.take_length] at hlose
      rw [PhaseOf]
      dsimp only
      rw [show (w.setMessages n c' _).opener c' = !n from hn, Bool.not_not, setMessages_messages,
        setMessages_messages_not, Function.update_self]
      exact hlose
  · rw [PhaseOf]
    dsimp only
    rw [setMessages_messages_of_ne _ _ _ _ _ hc, setMessages_messages_of_ne _ _ _ _ _ hc,
      Function.update_of_ne hc]
    exact hphase

theorem step (h : w.Inv) {e : Event} (hok : w.Orderly e)
    (hstep : World.step creates w e = some w') : w'.Inv := by
  cases e with
  | create n =>
      cases hstep
      exact h.put ((h.consistent n).of_eq rfl rfl rfl rfl) (LocalNode.Kept.createNode _)
  | connect n o =>
      rw [World.step] at hstep
      split_ifs at hstep
      cases hstep
      exact h.connect n o
  | timeout n c =>
      cases hstep
      exact h.put ((h.consistent n).of_eq rfl rfl rfl rfl) (LocalNode.Kept.serveRequest _ c)
  | receive n c =>
      rw [World.step] at hstep
      split at hstep
      · rename_i message messages hin hmessages
        cases hstep
        by_cases hn : w.opener c = n
        · exact h.handle_opener hn hin hmessages
        · refine h.handle_other (Bool.eq_not_of_ne hn) hin hmessages fun hack o ho => ?_
          refine hok ?_ o ho
          rw [hmessages, hack]
          rfl
      · cases hstep
  | disconnected n c =>
      rw [World.step] at hstep
      split_ifs at hstep
      cases hstep
      obtain ⟨hconsistent, hkept⟩ := (h.consistent n).handleDisconnect hok
      exact h.put hconsistent hkept
  | disconnect n o =>
      rw [World.step] at hstep
      split_ifs at hstep
      cases hstep
      exact h.put ((h.consistent n).of_eq rfl rfl rfl rfl)
        fun c => ⟨id, id, fun _ => id, fun _ => id⟩
  | cmdDisconnect n =>
      rw [World.step] at hstep
      split at hstep
      · cases hstep
      · rename_i o disconnects hdisconnects
        cases hstep
        have hclose (c : ℕ) (hc : (w.node n).connection = some c) :
            (w.node n).outgoing o = some c :=
          hok o (by rw [hdisconnects]; rfl) c hc
        have hconsistent : LocalNode.Consistent { w.node n with disconnects } :=
          (h.consistent n).of_eq rfl rfl rfl rfl
        have hkept (c : ℕ) : LocalNode.Kept (w.node n) { w.node n with disconnects } c :=
          ⟨id, id, fun _ => id, fun _ => id⟩
        exact h.put (hconsistent.closeNode hclose)
          fun c => (hkept c).trans (LocalNode.Kept.closeNode (l := { w.node n with disconnects })
            hclose c)
  | lose n c count =>
      cases hstep
      exact h.take_messages n c count

theorem connection_of_incoming (h : w.Inv) (hsettled : w.Settled)
    (hin : (w.node n).incoming c = true) (m : Bool) : (w.node m).connection = some c := by
  obtain ⟨hmessages, hin', hbroken⟩ := hsettled n c hin
  obtain ⟨hmessages', -, -⟩ := hsettled (!n) c hin'
  have hboth : (w.node n).connection = some c ∧ (w.node (!n)).connection = some c := by
    have hphase := h.phase c (h.lt_opened hin)
    by_cases hn : w.opener c = n
    · rw [PhaseOf, hn, hmessages, hmessages'] at hphase
      cases hphase with
      | offered hA hB ha hb => cases hB
      | accepted hA hB ha hb => cases hA
      | refused hA hB ha => cases hA
      | answered hA hB ha hb => cases hB
      | finished hA hB h => exact h hin hin' hbroken
    · rw [PhaseOf, Bool.eq_not_of_ne hn, Bool.not_not, hmessages, hmessages'] at hphase
      cases hphase with
      | offered hA hB ha hb => cases hB
      | accepted hA hB ha hb => cases hA
      | refused hA hB ha => cases hA
      | answered hA hB ha hb => cases hB
      | finished hA hB h => exact (h hin' hin hbroken).symm
  by_cases hm : m = n
  · rw [hm]
    exact hboth.1
  · rw [Bool.eq_not_of_ne hm]
    exact hboth.2

theorem agreed_of_settled (h : w.Inv) (hsettled : w.Settled) : w.Agreed := by
  refine ⟨(w.node true).connection, fun n => ?_⟩
  have hsame : (w.node n).connection = (w.node true).connection := by
    cases hn : (w.node n).connection with
    | some c =>
        exact (h.connection_of_incoming hsettled ((h.consistent n).incoming_connection hn) true).symm
    | none =>
        cases ht : (w.node true).connection with
        | none => rfl
        | some c =>
            have hin := (h.consistent true).incoming_connection ht
            rw [h.connection_of_incoming hsettled hin n] at hn
            cases hn
  have hincoming {c : ℕ} (hne : (w.node true).connection ≠ some c) :
      (w.node n).incoming c = false :=
    Bool.eq_false_iff.2 fun hin => hne (h.connection_of_incoming hsettled hin true)
  refine ⟨hsame, fun o c hout => ?_, fun c hne => ⟨hincoming hne, ?_⟩⟩
  · rw [← hsame]
    exact (h.consistent n).connection_eq hout
  · by_contra hsome
    have hin := (h.consistent n).incoming c hsome
    rw [hincoming hne] at hin
    cases hin

end Inv

theorem inv_run {es : List Event} (hok : Machine.Steps (World.step creates) Orderly init es)
    (hrun : Machine.run (World.step creates) init es = some w) : w.Inv :=
  Machine.run_invariant Inv (fun _ _ _ h hok hstep => h.step hok hstep) inv_init hok hrun

/-- If all steps are orderly, then the nodes agree as soon as all messages and closures have been
processed. -/
theorem connect_agreement {es : List Event}
    (hok : Machine.Steps (World.step creates) Orderly init es)
    (hrun : Machine.run (World.step creates) init es = some w) (hsettled : w.Settled) :
    w.Agreed :=
  (inv_run hok hrun).agreed_of_settled hsettled

/-- Both nodes open a connection. One of them is connected when it gets the message of the other
one, which it refuses. -/
theorem connect_agreement_refused : ∃ w : World,
    Machine.run (World.step (fun _ => true)) init
        [.create false, .create true, .connect false 0, .connect true 0, .receive true 0,
          .receive false 0, .receive false 1, .receive true 0, .receive true 1] = some w ∧
      w.Settled ∧ (w.node true).connection = some 0 ∧ w.Agreed := by
  have h : (Machine.run (World.step (fun _ => true)) init
      [.create false, .create true, .connect false 0, .connect true 0, .receive true 0,
        .receive false 0, .receive false 1, .receive true 0, .receive true 1]).map
      (fun w => decide ((w.node true).connection = some 0 ∧ w.opened = 2 ∧
        ∀ n, ∀ c < 2, (w.node n).incoming c = true →
          w.messages n c = [] ∧ (w.node (!n)).incoming c = true ∧ w.broken c = false)) =
      some true := by
    decide +kernel
  obtain ⟨w, hrun, hw⟩ := Option.map_eq_some_iff.1 h
  obtain ⟨hconnection, hopened, hmessages⟩ := of_decide_eq_true hw
  have hok : Machine.Steps (World.step (fun _ => true)) Orderly init
      [.create false, .create true, .connect false 0, .connect true 0, .receive true 0,
        .receive false 0, .receive false 1, .receive true 0, .receive true 1] := by
    decide +kernel
  have hsettled : w.Settled := fun n c hin =>
    hmessages n c (hopened ▸ (inv_run hok hrun).lt_opened hin) hin
  exact ⟨w, hrun, hsettled, hconnection, connect_agreement hok hrun hsettled⟩

/-- Both nodes accept the connection of the other one. Each acknowledgement then replaces the
connection of a node that is connected, and the nodes use different ones. -/
theorem simultaneous_connect_differs : ∃ w : World,
    Machine.run (World.step (fun _ => true)) init
        [.create false, .create true, .connect false 0, .connect true 0, .receive true 0,
          .receive false 1, .receive false 0, .receive true 1, .receive true 0,
          .receive false 1] = some w ∧
      w.Settled ∧ ¬ w.Agreed := by
  refine ⟨_, rfl, fun n c => ?_, fun ⟨connection, h⟩ => ?_⟩
  · match n, c with
    | false, 0 => decide +kernel
    | false, 1 => decide +kernel
    | true, 0 => decide +kernel
    | true, 1 => decide +kernel
    | false, c + 2 => exact fun hin => absurd hin Bool.false_ne_true
    | true, c + 2 => exact fun hin => absurd hin Bool.false_ne_true
  · have hdiffer := (h false).1.trans (h true).1.symm
    exact absurd hdiffer (by decide +kernel)

end World

end Collage.Connect
