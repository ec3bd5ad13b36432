import Collage.Rsp.Group
import Collage.Rsp.Writer

/-!
# The invariant of one member

`log w` lists the packets numbered by member `w`. A member is in step with the logs: its own write
queue is the end of its log, each child has delivered a beginning of its writer's log, the cursors
of its readers are behind what these have received, and every datagram it has sent carries what
its mark says.
-/

namespace Collage.Rsp

open Serial Connection

theorem upTo_serial {n u : ℕ} (h : u ≤ n) (hlt : n < u + 2 ^ 16) :
    upTo n (serial 16 u - 1) = u := by
  rw [upTo, sub_sub_sub_cancel_right, toNat_serial_sub h hlt]
  omega

theorem serial_succ_sub_one (i : ℕ) : serial 16 (i + 1) - 1 = serial 16 i := by
  rw [serial_succ]
  exact add_sub_cancel_right _ _

/-- The datagram carries the count `u`. -/
def Carries (n : U16) (log : List (List UInt8)) (expected : U16 → ℕ) (u : ℕ) : Datagram → Prop
  | .data d => 0 < u ∧ Packet n log (u - 1) d
  | .ack r w s => r = n ∧ w ≠ n ∧ u ≤ expected w ∧ s = serial 16 u - 1
  | .ackReq w _ => w = n
  | .nack _ _ _ => True
  | .node _ _ _ => False

theorem Carries.mono {n : U16} {log log' : List (List UInt8)} {expected expected' : U16 → ℕ}
    {u : ℕ} {d : Datagram} (h : Carries n log expected u d) (hlog : log <+: log')
    (he : ∀ w, expected w ≤ expected' w) : Carries n log' expected' u d := by
  cases d with
  | data d => exact ⟨h.1, h.2.mono hlog⟩
  | ack r w s => exact ⟨h.1, h.2.1, h.2.2.1.trans (he w), h.2.2.2⟩
  | ackReq w s => exact h
  | nack r w nacks => exact h
  | node type id data => exact h

/-- Two acks of one stream, in the order in which they were sent. -/
def InOrder : ℕ × Datagram → ℕ × Datagram → Prop
  | (u, .ack _ w _), (u', .ack _ w' _) => w = w' → u ≤ u'
  | _, _ => True

/-- What one step may send: datagrams that carry their mark, and acks in order that are not older
than what was expected before the step. -/
structure Sends (n : U16) (log : List (List UInt8)) (assigned : ℕ) (expected expected' : U16 → ℕ)
    (ds : List Datagram) : Prop where
  carries : ∀ d ∈ ds, Carries n log expected' (Member.mark assigned expected' d) d
  later : ∀ r w s, Datagram.ack r w s ∈ ds → expected w ≤ upTo (expected' w) s
  ordered : (ds.map (fun d => (Member.mark assigned expected' d, d))).Pairwise InOrder

theorem sends_of_no_ack {n : U16} {log : List (List UInt8)} {assigned : ℕ}
    {expected expected' : U16 → ℕ} {ds : List Datagram}
    (hc : ∀ d ∈ ds, Carries n log expected' (Member.mark assigned expected' d) d)
    (hno : ∀ d ∈ ds, d.isAck = false) : Sends n log assigned expected expected' ds := by
  refine ⟨hc, fun r w s hmem => absurd (hno _ hmem) (by simp [Datagram.isAck]), ?_⟩
  rw [List.pairwise_map]
  refine List.pairwise_of_forall_mem_list (fun x hx y _ => ?_)
  have hx' := hno x hx
  cases x with
  | ack r w s => simp [Datagram.isAck] at hx'
  | data d => trivial
  | ackReq w s => trivial
  | nack r w nacks => trivial
  | node type id data => trivial

theorem sends_nil {n : U16} {log : List (List UInt8)} {assigned : ℕ}
    {expected expected' : U16 → ℕ} : Sends n log assigned expected expected' [] :=
  sends_of_no_ack (by simp) (by simp)

structure Sent (n : U16) (log : List (List UInt8)) (expected : U16 → ℕ) (marks : List ℕ)
    (sent : List Datagram) : Prop where
  carries : List.Forall₂ (Carries n log expected) marks sent
  ordered : (marks.zip sent).Pairwise InOrder

theorem Sent.append {n : U16} {log log' : List (List UInt8)} {expected expected' : U16 → ℕ}
    {assigned : ℕ} {marks : List ℕ} {sent ds : List Datagram} (h : Sent n log expected marks sent)
    (hlog : log <+: log') (he : ∀ w, expected w ≤ expected' w)
    (hds : Sends n log' assigned expected expected' ds) :
    Sent n log' expected' (marks ++ ds.map (Member.mark assigned expected')) (sent ++ ds) := by
  have hzip : (ds.map (Member.mark assigned expected')).zip ds =
      ds.map (fun d => (Member.mark assigned expected' d, d)) := by
    have hz := List.zip_map' (f := Member.mark assigned expected') (g := fun d => d) (l := ds)
    rwa [List.map_id'] at hz
  refine ⟨List.rel_append (h.carries.imp (fun u x hx => hx.mono hlog he)) ?_, ?_⟩
  · rw [List.forall₂_map_left_iff, List.forall₂_same]
    exact hds.carries
  · rw [List.zip_append h.carries.length_eq, hzip, List.pairwise_append]
    refine ⟨h.ordered, hds.ordered, ?_⟩
    rintro ⟨u, x⟩ hx ⟨v, y⟩ hy
    obtain ⟨d, hd, heq⟩ := List.mem_map.1 hy
    simp only [Prod.mk.injEq] at heq
    obtain ⟨rfl, rfl⟩ := heq
    have hcx : Carries n log expected u x := List.forall₂_zip h.carries hx
    cases x with
    | ack r w s =>
        cases d with
        | ack r' w' s' =>
            rintro rfl
            exact hcx.2.2.1.trans (hds.later r' w s' hd)
        | data d => trivial
        | ackReq w s => trivial
        | nack r w nacks => trivial
        | node type id data => trivial
    | data d => trivial
    | ackReq w s => trivial
    | nack r w nacks => trivial
    | node type id data => trivial

theorem Sent.carries_getElem {n : U16} {log : List (List UInt8)} {expected : U16 → ℕ} {marks : List ℕ}
    {sent : List Datagram} (h : Sent n log expected marks sent) {k : ℕ} {d : Datagram}
    (hd : sent[k]? = some d) : Carries n log expected (marks.getD k 0) d := by
  obtain ⟨hk, rfl⟩ := List.getElem?_eq_some_iff.1 hd
  have hk' : k < marks.length := h.carries.length_eq ▸ hk
  rw [List.getD_eq_getElem?_getD, List.getElem?_eq_getElem hk', Option.getD_some]
  exact h.carries.get hk' hk

structure Node (cfg : Config) (order : List U16) (n : U16) (log : U16 → List (List UInt8))
    (m : Member) : Prop where
  sound : Sound cfg m.conn
  phase : m.conn.phase = (n, true, false)
  ids : m.conn.children.map Child.id = order
  assigned : m.assigned = (log n).length
  writer : Writer cfg (log n) m.written m.conn
  readers : ∀ w child, m.conn.findConnection w = some child →
    Reader (log w) (m.expected w) (m.obtained w) child
  loopback : m.expected n + m.conn.posting.length + m.conn.writeBuffers.length = (log n).length
  posting : ∀ i b, m.conn.posting[i]? = some b →
    (log n)[m.expected n + i]? = some b.data.bytes ∧ b.data.Full
  noReorder : ∀ self, m.conn.findConnection n = some self → self.recvBuffers = []
  acked : ∀ r child, r ≠ n → m.conn.findConnection r = some child →
    child.acked = serial 16 (m.newest r) - 1
  released : ∀ r ∈ order, r ≠ n → (log n).length ≤ m.newest r + m.conn.writeBuffers.length
  releasing : ∀ f, m.conn.finishing = some f → ∀ r ∈ order, r ≠ n →
    (log n).length ≤ m.newest r + f.size.toNat
  sent : Sent n (log n) m.expected m.marks m.conn.sent

variable {cfg : Config} {order : List U16} {n : U16} {log : U16 → List (List UInt8)} {m : Member}

namespace Node

theorem id_eq (h : Node cfg order n log m) : m.conn.id = n := congrArg Prod.fst h.phase

theorem listening (h : Node cfg order n log m) : m.conn.listening = true :=
  congrArg (fun p => p.2.1) h.phase

theorem findConnection_isSome (h : Node cfg order n log m) {w : U16} :
    (m.conn.findConnection w).isSome ↔ w ∈ order := by
  rw [← h.ids]
  exact Keyed.lookup_isSome_iff

theorem log_le_newest (h : Node cfg order n log m) {r : U16} (hr : r ∈ order) (hne : r ≠ n) :
    (log n).length ≤ m.newest r + cfg.numBuffers := by
  have := h.released r hr hne
  have := h.sound.writeBuffers_le
  omega

theorem mono {log' : U16 → List (List UInt8)} (h : Node cfg order n log m) (hn : log' n = log n)
    (hlog : ∀ w, log w <+: log' w) : Node cfg order n log' m where
  sound := h.sound
  phase := h.phase
  ids := h.ids
  assigned := hn ▸ h.assigned
  writer := hn ▸ h.writer
  readers := fun w child hc => (h.readers w child hc).mono (hlog w)
  loopback := hn ▸ h.loopback
  posting := hn ▸ h.posting
  noReorder := h.noReorder
  acked := h.acked
  released := hn ▸ h.released
  releasing := hn ▸ h.releasing
  sent := hn ▸ h.sent

theorem set_lastAck (h : Node cfg order n log m) (lastAck : U16 → ℕ) :
    Node cfg order n log { m with lastAck := lastAck } :=
  ⟨h.sound, h.phase, h.ids, h.assigned, h.writer, h.readers, h.loopback, h.posting, h.noReorder,
    h.acked, h.released, h.releasing, h.sent⟩

theorem expected_of_findConnection_eq {c : Connection}
    (hfind : ∀ w, c.findConnection w = m.conn.findConnection w) :
    (fun w => m.expected w + (Member.expects c w - Member.expects m.conn w).toNat) =
      m.expected := by
  funext w
  rw [Member.expects, Member.expects, hfind w, sub_self]
  simp

theorem advance_of_queues_eq (h : Node cfg order n log m) {c : Connection} {written : List UInt8}
    (new : List Datagram) (hs : Sound cfg c) (hphase : c.phase = m.conn.phase)
    (hchildren : c.children = m.conn.children) (hseq : c.sequence = m.conn.sequence)
    (hwrite : c.writeBuffers = m.conn.writeBuffers) (hfin : c.finishing = m.conn.finishing)
    (hwriter : Writer cfg (log n) written c) (hsent : c.sent = m.conn.sent ++ new)
    (hnew : Sends n (log n) m.assigned m.expected m.expected new) :
    Node cfg order n log { m.advance c with written := written } := by
  have hfind : ∀ w, c.findConnection w = m.conn.findConnection w := fun w => by
    rw [findConnection, hchildren, findConnection]
  have hass : m.assigned + (c.sequence - m.conn.sequence).toNat = m.assigned := by
    rw [hseq, sub_self]; simp
  have hadv : m.advance c = { m with
      conn := c
      marks := m.marks ++ new.map (Member.mark m.assigned m.expected) } := by
    simp only [Member.advance, expected_of_findConnection_eq hfind, hass, hsent, List.drop_left]
  have hpost : c.posting = m.conn.posting := by rw [Connection.posting, hfin, Connection.posting]
  rw [hadv]
  exact {
    sound := hs
    phase := hphase.trans h.phase
    ids := hchildren ▸ h.ids
    assigned := h.assigned
    writer := hwriter
    readers := fun w child hc => h.readers w child (hfind w ▸ hc)
    loopback := by simpa only [hpost, hwrite] using h.loopback
    posting := by simpa only [hpost] using h.posting
    noReorder := fun self hc => h.noReorder self (hfind n ▸ hc)
    acked := fun r child hne hc => h.acked r child hne (hfind r ▸ hc)
    released := by simpa only [hwrite] using h.released
    releasing := by simpa only [hfin] using h.releasing
    sent := by
      simp only [hsent]
      exact h.sent.append List.prefix_rfl (fun _ => le_rfl) hnew }

end Node
end Collage.Rsp
