import Collage.Rsp.MemberPackets
import Collage.Rsp.MemberWrites

/-!
# A group in step

Every member is in step with the logs, and no writer has taken over an ack for more than its
reader has received. One step of the group keeps this as long as data is fresh and stale acks look
late.
-/

namespace Collage.Rsp

open Serial Connection

namespace Group

/-- An ack older than the newest one taken over from its reader is recognised as late. -/
def StaleAcksLookLate (cfg : Config) (g : Group) : GroupEvent → Prop
  | .deliver m k n => match (g m).conn.sent[k]? with
    | some (.ack _ w s) => w = n → (g n).newest m ≤ (g m).marks.getD k 0 ∨
        ∀ child ∈ (g n).conn.findConnection m, late cfg child.acked s = true
    | _ => True
  | .app _ _ => True

def decidableAck (P : U16 → U16 → Prop) [∀ w s, Decidable (P w s)] :
    (sent : Option Datagram) → Decidable (match sent with | some (.ack _ w s) => P w s | _ => True)
  | some (.ack _ w s) => inferInstanceAs (Decidable (P w s))
  | some (.data _) | some (.ackReq _ _) | some (.nack _ _ _) | some (.node _ _ _) | none =>
      isTrue trivial

instance (cfg : Config) (g : Group) : (e : GroupEvent) → Decidable (StaleAcksLookLate cfg g e)
  | .deliver m k n =>
      decidableAck (fun w s => w = n → (g n).newest m ≤ (g m).marks.getD k 0 ∨
        ∀ child ∈ (g n).conn.findConnection m, late cfg child.acked s = true) (g m).conn.sent[k]?
  | .app _ _ => isTrue trivial

end Group

structure InStep (cfg : Config) (members : List U16) (order : U16 → List U16)
    (log : U16 → List (List UInt8)) (g : Group) : Prop where
  nodes : ∀ n ∈ members, Node cfg (order n) n log (g n)
  newest : ∀ w ∈ members, ∀ r ∈ members, r ≠ w → (g w).newest r ≤ (g r).expected w

/-- The members agree on who belongs to the group, in whatever order. -/
def Orders (members : List U16) (order : U16 → List U16) : Prop :=
  members.Nodup ∧ ∀ n ∈ members, (order n).Perm members

variable {cfg : Config} {members : List U16} {order : U16 → List U16}
  {log : U16 → List (List UInt8)} {g g' : Group}

theorem inStep_start (ho : Orders members order) :
    InStep cfg members order (fun _ => []) (Group.start cfg order) := by
  refine ⟨fun n hn => ?_, fun _ _ _ _ _ => le_rfl⟩
  have hfst : ((order n).map (fun w => (w, (0 : U16)))).map Prod.fst = order n := by
    simp [Function.comp_def]
  have hself : (n, 0) ∈ (order n).map (fun w => (w, (0 : U16))) :=
    List.mem_map.2 ⟨n, (ho.2 n hn).mem_iff.2 hn, rfl⟩
  have hnd : (((order n).map (fun w => (w, (0 : U16)))).map Prod.fst).Nodup :=
    by rw [hfst]; exact (ho.2 n hn).nodup_iff.2 ho.1
  have hchild : ∀ w child, (Group.start cfg order n).conn.findConnection w = some child →
      child = Child.new cfg w 0 := by
    intro w child hc
    have hid : child.id = w := Keyed.key_of_lookup hc
    obtain ⟨p, hp, rfl⟩ := List.mem_map.1 (Keyed.mem_of_lookup hc)
    obtain ⟨w', -, rfl⟩ := List.mem_map.1 hp
    rw [show w' = w from hid]
  exact {
    sound := sound_start hnd hself
    phase := rfl
    ids := (start_ids cfg n _).trans hfst
    assigned := rfl
    writer := ⟨rfl, le_rfl, by simp [Group.start, Connection.start],
      by simp [Group.start, Connection.start], rfl⟩
    readers := by
      intro w child hc
      rw [hchild w child hc]
      refine ⟨⟨le_rfl, rfl, by simp [Child.new], by simp [Child.new], fun _ => rfl, ?_⟩, ?_⟩
      · simp [Group.start, Child.unread, Child.new, Child.contents]
      · intro i b hb
        simp [Child.new] at hb
    loopback := rfl
    posting := by
      intro i b hb
      simp [Group.start, Connection.start, Connection.posting] at hb
    noReorder := by
      intro self hc
      rw [hchild n self hc]
      rfl
    acked := by
      intro r child _ hc
      rw [hchild r child hc]
      rfl
    released := by
      intro r _ _
      simp
    releasing := by
      intro f hf
      cases hf
    sent := ⟨List.Forall₂.nil, List.Pairwise.nil⟩ }

namespace InStep

theorem mem_order (ho : Orders members order) {n r : U16} (hn : n ∈ members) :
    r ∈ order n ↔ r ∈ members :=
  (ho.2 n hn).mem_iff

theorem newest_le_log (h : InStep cfg members order log g) (ho : Orders members order) {w r : U16}
    (hw : w ∈ members) (hr : r ∈ members) (hne : r ≠ w) : (g w).newest r ≤ (log w).length := by
  obtain ⟨child, hc⟩ := Option.isSome_iff_exists.1
    ((h.nodes r hr).findConnection_isSome.2 ((mem_order ho hr).2 hw))
  exact (h.newest w hw r hr hne).trans ((h.nodes r hr).readers w child hc).le

theorem log_le_expected (h : InStep cfg members order log g) (ho : Orders members order)
    {w r : U16} (hw : w ∈ members) (hr : r ∈ members) (hne : r ≠ w) :
    (log w).length ≤ (g r).expected w + cfg.numBuffers :=
  ((h.nodes w hw).log_le_newest ((mem_order ho hw).2 hr) hne).trans
    (Nat.add_le_add_right (h.newest w hw r hr hne) _)

theorem update_member (h : InStep cfg members order log g) {n : U16} {m : Member}
    {log' : U16 → List (List UInt8)} (hlog : ∀ w, log w <+: log' w)
    (hne : ∀ w, w ≠ n → log' w = log w) (hm : Node cfg (order n) n log' m)
    (hexp : ∀ w, (g n).expected w ≤ m.expected w)
    (hnew : ∀ r ∈ members, r ≠ n → m.newest r ≤ (g r).expected n) :
    InStep cfg members order log' (Function.update g n m) := by
  refine ⟨fun x hx => ?_, fun w hw r hr hrw => ?_⟩
  · by_cases hxn : x = n
    · subst hxn
      rw [Function.update_self]
      exact hm
    · rw [Function.update_of_ne hxn]
      exact (h.nodes x hx).mono (hne x hxn) hlog
  · by_cases hwn : w = n
    · subst hwn
      rw [Function.update_self, Function.update_of_ne hrw]
      exact hnew r hr hrw
    · rw [Function.update_of_ne hwn]
      by_cases hrn : r = n
      · subst hrn
        rw [Function.update_self]
        exact (h.newest w hw r hr hrw).trans (hexp w)
      · rw [Function.update_of_ne hrn]
        exact h.newest w hw r hr hrw

theorem expected_le_advance (m : Member) (c : Connection) (w : U16) :
    m.expected w ≤ (m.advance c).expected w :=
  Nat.le_add_right _ _

theorem app_event (h : InStep cfg members order log g) {n : U16} (hn : n ∈ members) {e : Event}
    {c : Connection} (hpatient : Group.Patient g (.app n e)) (hpacket : e.isPacket = false)
    (hc : (g n).conn.step cfg e = some c) :
    ∃ log', InStep cfg members order log'
      (Function.update g n (Member.observe cfg (g n) ((g n).advance c) e)) := by
  have hnode := h.nodes n hn
  have hkeep : ∀ m : Member, Node cfg (order n) n log m → (∀ w, (g n).expected w ≤ m.expected w) →
      m.newest = (g n).newest → ∃ log', InStep cfg members order log' (Function.update g n m) :=
    fun m hm hexp hnew => ⟨log, h.update_member (fun _ => List.prefix_rfl) (fun _ _ => rfl) hm hexp
      (fun r hr hrn => by rw [hnew]; exact h.newest n hn r hr hrn)⟩
  have hout : ∀ expired, (g n).conn.idle = true → ∃ log', InStep cfg members order log'
      (Function.update g n ((g n).advance ((g n).conn.processOutgoing cfg expired))) := by
    intro expired hi
    rcases hnode.processOutgoing (finishing_of_idle hi) expired with hm | ⟨bytes, hm⟩
    · exact hkeep _ hm (expected_le_advance _ _) rfl
    · exact ⟨extend log n bytes, h.update_member (fun w => prefix_extend w bytes)
        (fun w hw => extend_of_ne hw bytes) hm (expected_le_advance _ _) (h.newest n hn)⟩
  rcases step_cases hc with ⟨bytes, rfl, hwr, -, rfl⟩ | ⟨rfl, hpop⟩ | ⟨rfl, hpush⟩ |
    ⟨writer, k, child, r, rfl, hfind, hr, rfl⟩ | ⟨expired, rfl, hi, -, rfl⟩ | ⟨rfl, hfin⟩ |
    ⟨newID, d, rfl, -, -⟩ | ⟨expired, rfl, hi, rfl⟩
  · exact hkeep _ (hnode.advance_write hwr bytes) (expected_le_advance _ _) rfl
  · exact hkeep _ (hnode.writePop hpop) (expected_le_advance _ _) rfl
  · exact hkeep _ (hnode.writePush hpush) (expected_le_advance _ _) rfl
  · have hobs : Member.observe cfg (g n) ((g n).advance ((g n).conn.updateChild writer
        (fun _ => r.1))) (.read writer k) =
        { (g n).advance ((g n).conn.updateChild writer (fun _ => r.1)) with
          obtained := Function.update (g n).obtained writer ((g n).obtained writer ++ r.2) } := by
      simp only [Member.observe, hfind, Option.bind_some, hr, Option.elim_some]
    rw [hobs]
    exact hkeep _ (hnode.advance_readSync hfind hr) (expected_le_advance _ _) rfl
  · exact hout expired hi
  · exact hkeep _ (hnode.finishStep hfin) (expected_le_advance _ _) rfl
  · cases hpacket
  · rw [handleTimeout, if_pos hnode.listening]
    rcases handleConnectedTimeout_cases cfg expired (g n).conn hnode.sound.nodup with
      ht | ⟨-, hw, -⟩
    · rw [ht]
      exact hout expired hi
    · exact absurd hw hpatient

theorem deliver_datagram (h : InStep cfg members order log g) (ho : Orders members order)
    (hnb : cfg.numBuffers < 32767) {m n : U16} {k : ℕ} (hm : m ∈ members) (hn : n ∈ members)
    (hmn : m ≠ n) (hfresh : Group.FreshData g (.deliver m k n))
    (hstale : Group.StaleAcksLookLate cfg g (.deliver m k n)) {d : Datagram} {c : Connection}
    (hd : (g m).conn.sent[k]? = some d) (hc : (g n).conn.step cfg (.packet 0 d) = some c) :
    InStep cfg members order log
      (Function.update g n (((g n).advance c).hear m k ((g m).marks.getD k 0) d)) := by
  have hnode := h.nodes n hn
  have hid := hnode.id_eq
  have hcar := (h.nodes m hm).sent.carries_getElem hd
  simp only [Connection.step, Option.ite_none_right_eq_some, Option.some.injEq] at hc
  obtain ⟨hi, rfl⟩ := hc
  have hf := finishing_of_idle hi
  have hkeep : ∀ c : Connection, Node cfg (order n) n log ((g n).advance c) →
      InStep cfg members order log (Function.update g n ((g n).advance c)) :=
    fun c hc => h.update_member (fun _ => List.prefix_rfl) (fun _ _ => rfl) hc
      (expected_le_advance _ _)
      (h.newest n hn)
  cases d with
  | data d =>
      simp only [handlePacket, hnode.listening, if_true]
      have hp := hcar.2
      have hw := hp.writer
      simp only [Group.FreshData, hd] at hfresh
      rw [(h.nodes m hm).assigned] at hfresh
      refine hkeep _ (hnode.handleData (i := (g m).marks.getD k 0 - 1) (hw ▸ hmn) (hw ▸ hp) ?_ ?_ hnb)
      · rw [hw]; omega
      · rw [hw]; exact h.log_le_expected ho hm hn (Ne.symm hmn)
  | ack r w s =>
      obtain ⟨rfl, hwr, hu, rfl⟩ := hcar
      simp only [handlePacket, hnode.listening, if_true]
      by_cases hwn : w = n
      · subst hwn
        simp only [Group.StaleAcksLookLate, hd, forall_const] at hstale
        have hhear : ((g w).advance ((g w).conn.handleAck cfg r w
            (serial 16 ((g r).marks.getD k 0) - 1))).hear r k ((g r).marks.getD k 0)
              (.ack r w (serial 16 ((g r).marks.getD k 0) - 1)) =
            { (g w).advance ((g w).conn.handleAck cfg r w
                (serial 16 ((g r).marks.getD k 0) - 1)) with
              newest := Function.update (g w).newest r
                (max ((g w).newest r) ((g r).marks.getD k 0))
              lastAck := Function.update (g w).lastAck r k } := by
          have hid' : ((g w).advance ((g w).conn.handleAck cfg r w
              (serial 16 ((g r).marks.getD k 0) - 1))).conn.id = w :=
            (congrArg Prod.fst (phase_handleAck cfg (g w).conn r w _)).trans hid
          simp only [Member.hear, hid', if_true]
          rfl
        rw [hhear]
        have hul : (g r).marks.getD k 0 ≤ (log w).length := by
          obtain ⟨child, hch⟩ := Option.isSome_iff_exists.1
            ((h.nodes r hm).findConnection_isSome.2 ((mem_order ho hm).2 hn))
          exact hu.trans ((h.nodes r hm).readers w child hch).le
        refine h.update_member (fun _ => List.prefix_rfl) (fun _ _ => rfl)
          (hnode.handleAck hf (by omega) ((mem_order ho hn).2 hm) hmn hul
            (fun x hx hxn => h.newest_le_log ho hn ((mem_order ho hn).1 hx) hxn) hstale k)
          (expected_le_advance _ _) (fun x hx hxn => ?_)
        by_cases hxr : x = r
        · subst hxr
          simp only [Function.update_self]
          exact max_le (h.newest w hn x hm hxn) hu
        · simp only [Function.update_of_ne hxr]
          exact h.newest w hn x hx hxn
      · have hskip : (g n).conn.handleAck cfg r w (serial 16 ((g r).marks.getD k 0) - 1) =
            (g n).conn := by
          rw [Connection.handleAck, if_pos (by rw [hid]; exact hwn)]
        have hhear : ((g n).advance (g n).conn).hear r k ((g r).marks.getD k 0)
            (.ack r w (serial 16 ((g r).marks.getD k 0) - 1)) = (g n).advance (g n).conn := by
          simp only [Member.hear]
          exact if_neg (by rw [show ((g n).advance (g n).conn).conn.id = n from hid]; exact hwn)
        rw [hskip, hhear]
        exact hkeep _ (hnode.advance_of_queues_eq [] hnode.sound rfl rfl rfl rfl rfl hnode.writer
          (List.append_nil _).symm sends_nil)
  | ackReq w s =>
      simp only [handlePacket, hnode.listening, if_true]
      exact hkeep _ (hnode.handleAckRequest (by rw [show w = m from hcar]; exact hmn) s)
  | nack r w nacks =>
      simp only [handlePacket, hnode.listening, if_true]
      exact hkeep _ (hnode.handleNack r w nacks)
  | node type id data => exact hcar.elim

theorem step (h : InStep cfg members order log g) (ho : Orders members order)
    (hnb : cfg.numBuffers < 32767) {e : GroupEvent} (hpatient : Group.Patient g e)
    (hfresh : Group.FreshData g e) (hstale : Group.StaleAcksLookLate cfg g e)
    (hs : Group.step cfg members g e = some g') : ∃ log', InStep cfg members order log' g' := by
  cases e with
  | app n e =>
      simp only [Group.step, Option.ite_none_right_eq_some, Option.map_eq_some_iff] at hs
      obtain ⟨⟨hn, hpacket⟩, c, hc, rfl⟩ := hs
      exact h.app_event hn hpatient hpacket hc
  | deliver m k n =>
      simp only [Group.step, Option.ite_none_right_eq_some, Option.bind_eq_some_iff,
        Option.map_eq_some_iff] at hs
      obtain ⟨⟨hm, hn, hmn⟩, d, hd, c, hc, rfl⟩ := hs
      exact ⟨log, h.deliver_datagram ho hnb hm hn hmn hfresh hstale hd hc⟩

end InStep
end Collage.Rsp
