import Collage.Rsp.Stream

/-!
# Stream integrity and safe release

What a reader obtains is a prefix of what was written, and what a writer releases has been
acknowledged by every reader. The first holds when the acks of a reader arrive in order, the second
as long as a stale ack looks late to `_handleAck`.
-/

namespace Collage.Rsp

open Serial Connection

variable {cfg : Config} {members : List U16} {order : U16 → List U16}
  {log : U16 → List (List UInt8)} {g g' : Group}

/-- What one step changes of the history of acks: it extends what one member has sent, and a
delivered ack is taken note of. -/
theorem InStep.acks_step (h : InStep cfg members order log g) {e : GroupEvent}
    (hs : Group.step cfg members g e = some g') :
    ∃ x ∈ members, ∃ m, g' = Function.update g x m ∧
      (g x).conn.sent <+: m.conn.sent ∧ (g x).marks <+: m.marks ∧
      (m.newest = (g x).newest ∧ m.lastAck = (g x).lastAck ∨
        ∃ r ∈ members, r ≠ x ∧ ∃ k s, e = .deliver r k x ∧
          (g r).conn.sent[k]? = some (.ack r x s) ∧
          m.newest = Function.update (g x).newest r
            (max ((g x).newest r) ((g r).marks.getD k 0)) ∧
          m.lastAck = Function.update (g x).lastAck r k) := by
  cases e with
  | app n e =>
      simp only [Group.step, Option.ite_none_right_eq_some, Option.map_eq_some_iff] at hs
      obtain ⟨⟨hn, -⟩, c, hc, rfl⟩ := hs
      have hsent := sent_step (h.nodes n hn).sound (h.nodes n hn).listening hc
      refine ⟨n, hn, _, rfl, ?_⟩
      cases e <;> exact ⟨hsent, List.prefix_append _ _, Or.inl ⟨rfl, rfl⟩⟩
  | deliver r k n =>
      simp only [Group.step, Option.ite_none_right_eq_some, Option.bind_eq_some_iff,
        Option.map_eq_some_iff] at hs
      obtain ⟨⟨hr, hn, hrn⟩, d, hd, c, hc, rfl⟩ := hs
      have hsent := sent_step (h.nodes n hn).sound (h.nodes n hn).listening hc
      have hid : ((g n).advance c).conn.id = n :=
        (congrArg Prod.fst (phase_step (h.nodes n hn).listening (by simp) hc)).trans
          (h.nodes n hn).id_eq
      refine ⟨n, hn, _, rfl, ?_⟩
      cases d with
      | ack rd w s =>
          have hcar := (h.nodes r hr).sent.carries_getElem hd
          by_cases hw : w = n
          · subst hw
            simp only [Member.hear, hid, if_true]
            refine ⟨hsent, List.prefix_append _ _, Or.inr ⟨r, hr, hrn, k, s, rfl, ?_, rfl, rfl⟩⟩
            rw [hd, hcar.1]
          · simp only [Member.hear, hid, if_neg hw]
            exact ⟨hsent, List.prefix_append _ _, Or.inl ⟨rfl, rfl⟩⟩
      | data d => exact ⟨hsent, List.prefix_append _ _, Or.inl ⟨rfl, rfl⟩⟩
      | ackReq w s => exact ⟨hsent, List.prefix_append _ _, Or.inl ⟨rfl, rfl⟩⟩
      | nack r w nacks => exact ⟨hsent, List.prefix_append _ _, Or.inl ⟨rfl, rfl⟩⟩
      | node type id data => exact ⟨hsent, List.prefix_append _ _, Or.inl ⟨rfl, rfl⟩⟩

/-- The `k`-th datagram of `r` is an ack to `n` that carries the count `u`. -/
def AckAt (g : Group) (r n : U16) (k u : ℕ) : Prop :=
  (∃ s, (g r).conn.sent[k]? = some (.ack r n s)) ∧ (g r).marks.getD k 0 = u

theorem AckAt.update {r n x : U16} {k u : ℕ} {m : Member} (h : AckAt g r n k u)
    (hlen : (g r).marks.length = (g r).conn.sent.length)
    (hsent : (g x).conn.sent <+: m.conn.sent) (hmarks : (g x).marks <+: m.marks) :
    AckAt (Function.update g x m) r n k u := by
  obtain ⟨⟨s, hs⟩, hu⟩ := h
  by_cases hr : r = x
  · subst hr
    refine ⟨⟨s, ?_⟩, ?_⟩
    · rw [Function.update_self]; exact getElem?_of_isPrefix hsent hs
    · have hk : k < (g r).marks.length := hlen ▸ (List.getElem?_eq_some_iff.1 hs).1
      rw [List.getD_eq_getElem?_getD, List.getElem?_eq_getElem hk, Option.getD_some] at hu
      rw [Function.update_self, List.getD_eq_getElem?_getD,
        getElem?_of_isPrefix hmarks (List.getElem?_eq_getElem hk), Option.getD_some]
      exact hu
  · exact ⟨⟨s, by rw [Function.update_of_ne hr]; exact hs⟩,
      by rw [Function.update_of_ne hr]; exact hu⟩

/-- The newest count a writer knows of comes from an ack at the place noted for it. -/
def FollowsAcks (members : List U16) (g : Group) : Prop :=
  ∀ n ∈ members, ∀ r ∈ members, r ≠ n →
    (g n).newest r = 0 ∨ AckAt g r n ((g n).lastAck r) ((g n).newest r)

/-- The newest count a writer knows of comes from some ack. -/
def KnowsAcks (members : List U16) (g : Group) : Prop :=
  ∀ n ∈ members, ∀ r ∈ members, r ≠ n →
    (g n).newest r = 0 ∨ ∃ k, AckAt g r n k ((g n).newest r)

theorem InStep.length_marks (h : InStep cfg members order log g) {r : U16} (hr : r ∈ members) :
    (g r).marks.length = (g r).conn.sent.length :=
  (h.nodes r hr).sent.carries.length_eq

theorem InStep.marks_mono (h : InStep cfg members order log g) {r n : U16} (hr : r ∈ members)
    {j k u v : ℕ} (hj : AckAt g r n j u) (hk : AckAt g r n k v) (hjk : j ≤ k) : u ≤ v := by
  obtain ⟨⟨s, hs⟩, rfl⟩ := hj
  obtain ⟨⟨s', hs'⟩, rfl⟩ := hk
  rcases eq_or_lt_of_le hjk with rfl | hlt
  · exact le_rfl
  obtain ⟨hj, hsj⟩ := List.getElem?_eq_some_iff.1 hs
  obtain ⟨hk, hsk⟩ := List.getElem?_eq_some_iff.1 hs'
  have hlen := h.length_marks hr
  have hzip : ((g r).marks.zip (g r).conn.sent).length = (g r).conn.sent.length := by
    rw [List.length_zip, hlen, min_self]
  have hp := List.pairwise_iff_getElem.1 (h.nodes r hr).sent.ordered j k (by omega) (by omega) hlt
  rw [List.getElem_zip, List.getElem_zip, hsj, hsk] at hp
  rw [List.getD_eq_getElem?_getD, List.getD_eq_getElem?_getD, List.getElem?_eq_getElem (by omega),
    List.getElem?_eq_getElem (by omega)]
  exact hp rfl

theorem followsAcks_start : FollowsAcks members (Group.start cfg order) :=
  fun _ _ _ _ _ => Or.inl rfl

theorem InStep.staleAcksLookLate (h : InStep cfg members order log g)
    (hfol : FollowsAcks members g) {e : GroupEvent} (hord : Group.AcksInOrder g e)
    (hs : Group.step cfg members g e = some g') : Group.StaleAcksLookLate cfg g e := by
  cases e with
  | app n e => trivial
  | deliver r k n =>
      simp only [Group.step, Option.ite_none_right_eq_some, Option.bind_eq_some_iff] at hs
      obtain ⟨⟨hr, hn, hrn⟩, d, hd, -⟩ := hs
      cases d with
      | ack rd w s =>
          simp only [Group.AcksInOrder, Group.StaleAcksLookLate, hd] at hord ⊢
          rintro rfl
          have hcar := (h.nodes r hr).sent.carries_getElem hd
          left
          rcases hfol w hn r hr hrn with h0 | hlast
          · rw [h0]; exact Nat.zero_le _
          · exact h.marks_mono hr hlast ⟨⟨s, hcar.1 ▸ hd⟩, rfl⟩ (hord rfl)
      | data d => simp only [Group.StaleAcksLookLate, hd]
      | ackReq w s => simp only [Group.StaleAcksLookLate, hd]
      | nack r w nacks => simp only [Group.StaleAcksLookLate, hd]
      | node type id data => simp only [Group.StaleAcksLookLate, hd]

theorem InStep.followsAcks (h : InStep cfg members order log g) (hfol : FollowsAcks members g)
    {e : GroupEvent} (hord : Group.AcksInOrder g e)
    (hs : Group.step cfg members g e = some g') : FollowsAcks members g' := by
  obtain ⟨x, hx, m, rfl, hsent, hmarks, hnote⟩ := h.acks_step hs
  intro n hn r hr hrn
  by_cases hnx : n = x
  · subst hnx
    rw [Function.update_self]
    rcases hnote with ⟨hnew, hlast⟩ | ⟨r', hr', hrn', k, s, rfl, hd, hnew, hlast⟩
    · rw [hnew, hlast]
      exact (hfol n hn r hr hrn).imp id (fun ha => ha.update (h.length_marks hr) hsent hmarks)
    · rw [hnew, hlast]
      by_cases hrr : r = r'
      · subst hrr
        rw [Function.update_self, Function.update_self]
        right
        have hle : (g n).newest r ≤ (g r).marks.getD k 0 := by
          simp only [Group.AcksInOrder, hd] at hord
          rcases hfol n hn r hr hrn with h0 | hl
          · rw [h0]; exact Nat.zero_le _
          · exact h.marks_mono hr hl ⟨⟨s, hd⟩, rfl⟩ (hord trivial)
        rw [max_eq_right hle]
        exact AckAt.update ⟨⟨s, hd⟩, rfl⟩ (h.length_marks hr) hsent hmarks
      · rw [Function.update_of_ne hrr, Function.update_of_ne hrr]
        exact (hfol n hn r hr hrn).imp id (fun ha => ha.update (h.length_marks hr) hsent hmarks)
  · rw [Function.update_of_ne hnx]
    exact (hfol n hn r hr hrn).imp id (fun ha => ha.update (h.length_marks hr) hsent hmarks)

theorem InStep.knowsAcks (h : InStep cfg members order log g) (hk : KnowsAcks members g)
    {e : GroupEvent} (hs : Group.step cfg members g e = some g') : KnowsAcks members g' := by
  obtain ⟨x, hx, m, rfl, hsent, hmarks, hnote⟩ := h.acks_step hs
  have hkeep : ∀ n ∈ members, ∀ r ∈ members, r ≠ n →
      (g n).newest r = 0 ∨ ∃ k, AckAt (Function.update g x m) r n k ((g n).newest r) :=
    fun n hn r hr hrn => (hk n hn r hr hrn).imp id
      (fun ⟨k, ha⟩ => ⟨k, ha.update (h.length_marks hr) hsent hmarks⟩)
  intro n hn r hr hrn
  by_cases hnx : n = x
  · subst hnx
    rw [Function.update_self]
    rcases hnote with ⟨hnew, -⟩ | ⟨r', hr', hrn', k, s, rfl, hd, hnew, -⟩
    · rw [hnew]
      exact hkeep n hn r hr hrn
    · rw [hnew]
      by_cases hrr : r = r'
      · subst hrr
        rw [Function.update_self]
        rcases le_total ((g n).newest r) ((g r).marks.getD k 0) with hle | hle
        · rw [max_eq_right hle]
          exact Or.inr ⟨k, AckAt.update ⟨⟨s, hd⟩, rfl⟩ (h.length_marks hr) hsent hmarks⟩
        · rw [max_eq_left hle]
          exact hkeep n hn r hr hrn
      · rw [Function.update_of_ne hrr]
        exact hkeep n hn r hr hrn
  · rw [Function.update_of_ne hnx]
    exact hkeep n hn r hr hrn

/-- In every run of a fixed group, with data lost, duplicated and reordered and packets merged in
any way, the bytes a reader has obtained from a writer, or the writer from its own loopback child,
are a prefix of the bytes written. -/
theorem obtained_prefix_written (ho : Orders members order) (hnb : cfg.numBuffers < 32767)
    {es : List GroupEvent}
    (hok : Machine.Steps (Group.step cfg members)
      (fun g e => Group.Patient g e ∧ Group.FreshData g e ∧ Group.AcksInOrder g e)
      (Group.start cfg order) es)
    (hrun : Machine.run (Group.step cfg members) (Group.start cfg order) es = some g)
    {r w : U16} (hr : r ∈ members) (hw : w ∈ members) :
    (g r).obtained w <+: (g w).written := by
  obtain ⟨⟨log, h⟩, -⟩ := Machine.run_invariant
    (fun g => (∃ log, InStep cfg members order log g) ∧ FollowsAcks members g)
    (fun g e g' ⟨⟨log, hi⟩, hfol⟩ ⟨hp, hf, hord⟩ hs =>
      ⟨hi.step ho hnb hp hf (hi.staleAcksLookLate hfol hord hs) hs, hi.followsAcks hfol hord hs⟩)
    ⟨⟨_, inStep_start ho⟩, followsAcks_start⟩ hok hrun
  obtain ⟨child, hc⟩ := Option.isSome_iff_exists.1
    ((h.nodes r hr).findConnection_isSome.2 ((InStep.mem_order ho hr).2 hw))
  refine ((h.nodes r hr).readers w child hc).prefix_flatten.trans ?_
  rw [← (h.nodes w hw).writer.content, List.append_assoc]
  exact List.prefix_append _ _

/-- Member 1 writes two bytes in two calls, which are merged into one packet. Member 2 receives
the packet twice and reads one byte; then its ack arrives. -/
def mergedTransfer : List GroupEvent :=
  [.app 1 (.write [7]), .app 1 .writePop, .app 1 .writePush, .app 1 (.write [8]), .app 1 .writePop,
    .app 1 .writePush, .app 1 (.outgoing false), .deliver 1 0 2, .deliver 1 0 2,
    .app 2 (.read 1 1), .deliver 2 0 1, .app 1 .finishStep]

theorem obtained_prefix_written_merged :
    ∃ g, Machine.run (Group.step (Config.tiny 4) [1, 2])
        (Group.start (Config.tiny 4) (fun _ => [1, 2])) mergedTransfer = some g ∧
      (g 2).obtained 1 = [7] ∧ (g 2).obtained 1 <+: (g 1).written := by
  have hsome : (Machine.run (Group.step (Config.tiny 4) [1, 2])
      (Group.start (Config.tiny 4) (fun _ => [1, 2])) mergedTransfer).map
        (fun g => (g 2).obtained 1) = some [7] := by decide +kernel
  obtain ⟨g, hrun, hob⟩ := Option.map_eq_some_iff.1 hsome
  exact ⟨g, hrun, hob, obtained_prefix_written ⟨by decide, fun _ _ => List.Perm.refl _⟩ (by decide)
    (by decide +kernel) hrun (by decide) (by decide)⟩

/-- In every run in which stale acks look late, a writer has released only packets that every
remote reader has acknowledged: packet `i` has left `_writeBuffers` only if each other member has
sent an ack that carries a count beyond `i`. -/
theorem released_acknowledged (ho : Orders members order) (hnb : cfg.numBuffers < 32767)
    {es : List GroupEvent}
    (hok : Machine.Steps (Group.step cfg members)
      (fun g e => Group.Patient g e ∧ Group.FreshData g e ∧ Group.StaleAcksLookLate cfg g e)
      (Group.start cfg order) es)
    (hrun : Machine.run (Group.step cfg members) (Group.start cfg order) es = some g)
    {r w : U16} (hr : r ∈ members) (hw : w ∈ members) (hne : r ≠ w) {i : ℕ}
    (hi : i + (g w).conn.writeBuffers.length < (g w).assigned) :
    ∃ k u, AckAt g r w k u ∧ i < u := by
  obtain ⟨⟨log, h⟩, hknows⟩ := Machine.run_invariant
    (fun g => (∃ log, InStep cfg members order log g) ∧ KnowsAcks members g)
    (fun g e g' ⟨⟨log, hi⟩, hk⟩ ⟨hp, hf, hstale⟩ hs =>
      ⟨hi.step ho hnb hp hf hstale hs, hi.knowsAcks hk hs⟩)
    ⟨⟨_, inStep_start ho⟩, fun _ _ _ _ _ => Or.inl rfl⟩ hok hrun
  have hrel := (h.nodes w hw).released r ((InStep.mem_order ho hw).2 hr) hne
  rw [(h.nodes w hw).assigned] at hi
  rcases hknows w hw r hr hne with h0 | ⟨k, hk⟩
  · omega
  · exact ⟨k, _, hk, by omega⟩

theorem released_acknowledged_merged :
    ∃ g, Machine.run (Group.step (Config.tiny 4) [1, 2])
        (Group.start (Config.tiny 4) (fun _ => [1, 2])) mergedTransfer = some g ∧
      ∃ k u, AckAt g 2 1 k u ∧ 0 < u := by
  have hsome : (Machine.run (Group.step (Config.tiny 4) [1, 2])
      (Group.start (Config.tiny 4) (fun _ => [1, 2])) mergedTransfer).map
        (fun g => decide (0 + (g 1).conn.writeBuffers.length < (g 1).assigned)) = some true := by
    decide +kernel
  obtain ⟨g, hrun, hrel⟩ := Option.map_eq_some_iff.1 hsome
  exact ⟨g, hrun, released_acknowledged ⟨by decide, fun _ _ => List.Perm.refl _⟩ (by decide)
    (by decide +kernel) hrun (by decide) (by decide) (by decide) (of_decide_eq_true hrel)⟩

def sendOne : List GroupEvent :=
  [.app 0 (.write [7]), .app 0 .writePop, .app 0 .writePush, .app 0 (.outgoing false)]

/-- Packet `k` is received, acknowledged by the members 1, 2 and 3 and released. -/
def fullRound (k : ℕ) : List GroupEvent :=
  sendOne ++
    [.deliver 0 k 1, .deliver 0 k 2, .deliver 0 k 3, .app 1 (.read 0 1), .app 2 (.read 0 1),
      .app 3 (.read 0 1), .deliver 1 k 0, .app 0 .finishStep, .deliver 2 k 0, .app 0 .finishStep,
      .deliver 3 k 0, .app 0 .finishStep, .app 0 .finishStep, .app 0 (.read 0 1)]

/-- After three packets the first ack of member 2 arrives once more. Member 0 sends packet 3 and
member 3 alone acknowledges it. -/
def staleAck : List GroupEvent :=
  fullRound 0 ++ fullRound 1 ++ fullRound 2 ++ [.deliver 2 0 0, .app 0 .finishStep] ++ sendOne ++
    [.deliver 0 3 3, .deliver 3 3 0, .app 0 .finishStep, .app 0 .finishStep]

/-- A duplicate of an ack two packets old makes `_handleAck` skip the minimum: packet 3 is released
although the members 1 and 2 have acknowledged only the packets 0 to 2. -/
theorem stale_ack_releases_early :
    ∃ g, Machine.run (Group.step (Config.tiny 1) [0, 1, 2, 3])
        (Group.start (Config.tiny 1) (fun _ => [0, 1, 2, 3])) staleAck = some g ∧
      Machine.Steps (Group.step (Config.tiny 1) [0, 1, 2, 3])
        (fun g e => Group.Patient g e ∧ Group.FreshData g e ∧ Group.AcksNearby g e)
        (Group.start (Config.tiny 1) (fun _ => [0, 1, 2, 3])) staleAck ∧
      3 + (g 0).conn.writeBuffers.length < (g 0).assigned ∧
      ¬ ∃ k u, AckAt g 1 0 k u ∧ 3 < u := by
  have hsome : (Machine.run (Group.step (Config.tiny 1) [0, 1, 2, 3])
      (Group.start (Config.tiny 1) (fun _ => [0, 1, 2, 3])) staleAck).map
        (fun g => (decide (3 + (g 0).conn.writeBuffers.length < (g 0).assigned), (g 1).marks)) =
      some (true, [1, 2, 3]) := by decide +kernel
  obtain ⟨g, hrun, hg⟩ := Option.map_eq_some_iff.1 hsome
  simp only [Prod.mk.injEq] at hg
  refine ⟨g, hrun, by decide +kernel, of_decide_eq_true hg.1, ?_⟩
  rintro ⟨k, u, ⟨-, hu⟩, hlt⟩
  rw [hg.2] at hu
  rcases k with _ | _ | _ | k <;> simp at hu <;> omega

end Collage.Rsp
