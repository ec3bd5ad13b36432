import Collage.Rsp.MemberReads
import Mathlib.Tactic.Abel

/-!
# Arriving datagrams keep a member in step with the logs
-/

namespace Collage.Rsp

open Serial Connection

variable {cfg : Config} {order : List U16} {n : U16} {log : U16 → List (List UInt8)} {m : Member}

namespace Node

theorem sends_nacks {n w : U16} (log : List (List UInt8)) (assigned : ℕ)
    (expected expected' : U16 → ℕ) {ds : List Datagram}
    (h : ∀ x ∈ ds, ∃ nacks, x = .nack n w nacks) : Sends n log assigned expected expected' ds := by
  refine sends_of_no_ack (fun d hd => ?_) (fun d hd => ?_)
  · obtain ⟨nacks, rfl⟩ := h d hd
    trivial
  · obtain ⟨nacks, rfl⟩ := h d hd
    rfl

theorem sends_acks {n w : U16} {log : List (List UInt8)} {assigned e' : ℕ} {expected : U16 → ℕ}
    {acks : List U16} {ds : List Datagram} (hw : w ≠ n) (hacks : AckedBetween (expected w) e' acks)
    (hlt : e' < expected w + 2 ^ 16) (hds : ∀ x ∈ ds, ∃ nacks, x = .nack n w nacks) :
    Sends n log assigned expected (Function.update expected w e')
      (acks.map (Datagram.ack n w) ++ ds) := by
  obtain ⟨us, rfl, hsorted, hus⟩ := hacks
  have hnack := sends_nacks log assigned expected
    (Function.update expected w e') hds
  have hmark : ∀ u ∈ us, Member.mark assigned (Function.update expected w e')
      (.ack n w (serial 16 u - 1)) = u := by
    intro u hu
    have := hus u hu
    rw [Member.mark, Function.update_self, upTo_serial (by omega) (by omega)]
  refine ⟨?_, ?_, ?_⟩
  · intro d hd
    rcases List.mem_append.1 hd with hd | hd
    · rw [List.map_map] at hd
      obtain ⟨u, hu, rfl⟩ := List.mem_map.1 hd
      refine ⟨rfl, hw, ?_, ?_⟩
      · simp only [Function.comp_apply, hmark u hu, Function.update_self]
        exact (hus u hu).2
      · simp only [Function.comp_apply, hmark u hu]
    · exact hnack.carries d hd
  · intro r w' s hmem
    rcases List.mem_append.1 hmem with hd | hd
    · rw [List.map_map] at hd
      obtain ⟨u, hu, heq⟩ := List.mem_map.1 hd
      simp only [Function.comp_apply, Datagram.ack.injEq] at heq
      obtain ⟨-, rfl, rfl⟩ := heq
      have hm := hmark u hu
      rw [Member.mark] at hm
      rw [hm]
      exact (hus u hu).1.le
    · obtain ⟨nacks, hx⟩ := hds _ hd
      cases hx
  · rw [List.map_append, List.pairwise_append]
    refine ⟨?_, hnack.ordered, ?_⟩
    · rw [List.map_map, List.map_map, List.pairwise_map]
      refine hsorted.imp_of_mem (fun {u v} hu hv huv => ?_)
      intro _
      simp only [hmark u hu, hmark v hv]
      exact huv
    · intro p hp q hq
      obtain ⟨x, hx, rfl⟩ := List.mem_map.1 hp
      obtain ⟨y, hy, rfl⟩ := List.mem_map.1 hq
      obtain ⟨nacks, rfl⟩ := hds y hy
      cases x <;> trivial

theorem handleData (h : Node cfg order n log m) {d : DatagramData} {i : ℕ}
    (hne : d.writerID ≠ n) (hp : Packet d.writerID (log d.writerID) i d)
    (hfresh : (log d.writerID).length ≤ i + 32768)
    (hlog : (log d.writerID).length ≤ m.expected d.writerID + cfg.numBuffers)
    (hnb : cfg.numBuffers < 32767) :
    Node cfg order n log (m.advance (m.conn.handleData cfg d)) := by
  have hid := h.id_eq
  have hs := h.sound.handleData (d := d) (by rw [hid]; exact hne)
  have hphase := phase_handleData cfg m.conn d
  rcases handleData_cases cfg d m.conn with ⟨-, hc⟩ | ⟨child, queue, ds, hfind, hds, hc⟩
  · rw [hc]
    exact h.advance_of_queues_eq [] h.sound rfl rfl rfl rfl rfl h.writer
      (List.append_nil _).symm sends_nil
  rw [hc] at hs hphase ⊢
  have hr := h.readers d.writerID child hfind
  have hle := hr.le
  obtain ⟨e', hee, hreader, hacks⟩ := hr.handleData cfg m.conn.id
    hp.contents hp.full hp.sequence (by omega) hlog hnb
  have hle' := hreader.le
  have hcid : (child.handleData cfg m.conn.id d).1.id = d.writerID :=
    (Child.handleData_frame cfg m.conn.id d child).1.trans (Keyed.key_of_lookup hfind)
  have hfind' : ∀ x, (m.conn.updateChild d.writerID
      (fun _ => (child.handleData cfg m.conn.id d).1)).findConnection x =
        if x = d.writerID then some (child.handleData cfg m.conn.id d).1
        else m.conn.findConnection x := by
    intro x
    rw [findConnection_updateChild (fun _ _ => hcid), hfind, Option.map_some]
  rw [hid] at hds
  have hnode := h.advance_child e' (m.obtained d.writerID) m.newest m.lastAck
    ((child.handleData cfg m.conn.id d).2.1.map (Datagram.ack m.conn.id d.writerID) ++ ds) hs
    hphase (ids_updateChild (fun _ _ => hcid)) rfl hfind hfind' hee (by omega) hreader
    (h.writer.congr rfl rfl rfl rfl rfl)
    (by rw [Function.update_of_ne (Ne.symm hne)]; exact h.loopback)
    (by rw [Function.update_of_ne (Ne.symm hne)]; exact h.posting)
    (fun hx => absurd hx hne)
    (by
      intro r ch hrn hch
      change (m.conn.updateChild d.writerID _).findConnection r = some ch at hch
      rw [hfind' r] at hch
      split_ifs at hch with hx
      · rw [← Option.some.inj hch, (Child.handleData_frame cfg m.conn.id d child).2, hx]
        exact h.acked d.writerID child hne hfind
      · exact h.acked r ch hrn hch)
    h.released h.releasing (List.append_assoc _ _ _)
    (by
      rw [hid] at hacks ⊢
      exact sends_acks hne hacks (by omega) hds)
  rw [Function.update_eq_self] at hnode
  exact hnode

theorem handleNack (h : Node cfg order n log m) (r w : U16) (nacks : List Nack) :
    Node cfg order n log (m.advance (m.conn.handleNack r w nacks)) := by
  have hs := h.sound.handleNack r w nacks
  obtain ⟨t, queue, hc⟩ := handleNack_cases r w nacks m.conn
  rw [hc] at hs ⊢
  exact h.advance_of_queues_eq [] hs rfl rfl rfl rfl rfl (h.writer.congr rfl rfl rfl rfl rfl)
    (List.append_nil _).symm sends_nil

theorem handleAckRequest (h : Node cfg order n log m) {w : U16} (hw : w ≠ n) (reqID : U16) :
    Node cfg order n log (m.advance (m.conn.handleAckRequest cfg w reqID)) := by
  have hs := h.sound.handleAckRequest w reqID
  obtain ⟨queue, ds, hds, hc⟩ := handleAckRequest_cases cfg w reqID m.conn
  rw [hc] at hs ⊢
  refine h.advance_of_queues_eq ds hs rfl rfl rfl rfl rfl (h.writer.congr rfl rfl rfl rfl rfl) rfl ?_
  rw [h.id_eq] at hds
  have hack : ∀ d ∈ ds, (∃ nacks, d = .nack n w nacks) ∨
      d = .ack n w (serial 16 (m.expected w) - 1) := by
    intro d hd
    rcases hds d hd with hx | ⟨child, hfind, rfl⟩
    · exact Or.inl hx
    · exact Or.inr (by rw [(h.readers w child hfind).sequence])
  have hmark : upTo (m.expected w) (serial 16 (m.expected w) - 1) = m.expected w :=
    upTo_serial le_rfl (by omega)
  refine ⟨?_, ?_, ?_⟩
  · intro d hd
    rcases hack d hd with ⟨nacks, rfl⟩ | rfl
    · trivial
    · exact ⟨rfl, hw, hmark.le, by rw [Member.mark, hmark]⟩
  · intro r w' s hmem
    rcases hack _ hmem with ⟨nacks, hx⟩ | hx
    · cases hx
    · simp only [Datagram.ack.injEq] at hx
      obtain ⟨-, rfl, rfl⟩ := hx
      exact hmark.ge
  · rw [List.pairwise_map]
    refine List.pairwise_of_forall_mem_list (fun x hx y hy => ?_)
    rcases hack x hx with ⟨nacks, rfl⟩ | rfl
    · trivial
    · rcases hack y hy with ⟨nacks, rfl⟩ | rfl
      · trivial
      · exact fun _ => le_rfl

end Node

theorem toNat_serial_sub_one (a : ℕ) : (serial 16 a - 1).toNat = (a + 65535) % 65536 := by
  have h : serial 16 a - 1 = serial 16 (a + 65535) := by
    rw [serial_add, sub_eq_add_neg]
    rfl
  rw [h, toNat_serial, show 2 ^ 16 = 65536 from rfl]

theorem late_eq_false {a u : ℕ} (hlt : a < u) (hle : u ≤ a + cfg.numBuffers)
    (hnb : 2 * cfg.numBuffers < 2 ^ 16) :
    late cfg (serial 16 a - 1) (serial 16 u - 1) = false := by
  simp only [late, toNat_serial_sub_one, decide_eq_false_iff_not]
  omega

theorem minAcked_eq {c : Connection} {a : U16 → ℕ} (lo u : ℕ) (hnb : 2 * cfg.numBuffers < 2 ^ 16)
    (hacked : ∀ child ∈ c.remote, child.acked = serial 16 (a child.id) - 1)
    (hwin : ∀ child ∈ c.remote, lo ≤ a child.id ∧ a child.id ≤ lo + cfg.numBuffers)
    (hu : lo ≤ u ∧ u ≤ lo + cfg.numBuffers) :
    c.minAcked cfg (serial 16 u - 1) =
      serial 16 ((c.remote.map (fun child => a child.id)).foldl min u) - 1 := by
  have hmap : c.remote.map Child.acked =
      (c.remote.map (fun child => a child.id)).map (fun x => serial 16 x + -1) := by
    rw [List.map_map]
    refine List.map_congr_left (fun child hc => ?_)
    rw [hacked child hc]
    exact sub_eq_add_neg _ _
  rw [minAcked, hmap, sub_eq_add_neg, sub_eq_add_neg]
  refine serialMin_eq (-1) hnb _ (fun x hx => ?_) u hu
  obtain ⟨child, hc, rfl⟩ := List.mem_map.1 hx
  exact hwin child hc

theorem le_add_size {c : Connection} {a : U16 → ℕ} (len u : ℕ)
    (hnb : 2 * cfg.numBuffers < 2 ^ 16)
    (hacked : ∀ child ∈ c.remote, child.acked = serial 16 (a child.id) - 1)
    (hwin : ∀ child ∈ c.remote, len ≤ a child.id + cfg.numBuffers ∧ a child.id ≤ len)
    (hu : len ≤ u + cfg.numBuffers ∧ u ≤ len) {child : Child} (hc : child ∈ c.remote) :
    len ≤ a child.id + (serial 16 len - c.minAcked cfg (serial 16 u - 1) - 1).toNat := by
  have hmin := minAcked_eq (a := a) (len - cfg.numBuffers) u hnb hacked
    (fun child hmem => by have := hwin child hmem; omega) (by omega)
  have hle : (c.remote.map (fun child => a child.id)).foldl min u ≤ a child.id :=
    foldl_min_le_of_mem (List.mem_map_of_mem hc)
  have hlow : len - cfg.numBuffers ≤ (c.remote.map (fun child => a child.id)).foldl min u := by
    refine le_foldl_min (by omega) (fun x hx => ?_)
    obtain ⟨ch, hch, rfl⟩ := List.mem_map.1 hx
    have := hwin ch hch
    omega
  have hup : (c.remote.map (fun child => a child.id)).foldl min u ≤ len :=
    (foldl_min_le _ u).trans hu.2
  generalize (c.remote.map (fun child => a child.id)).foldl min u = least at *
  rw [hmin, show serial 16 len - (serial 16 least - 1) - 1 = serial 16 len - serial 16 least by
    abel, toNat_serial_sub hup (by omega)]
  omega

namespace Node

/-- Taking over an ack that carries the count `u`. The new state may enter `_finishWriteQueue` as
long as it keeps what some reader lacks. -/
theorem advance_recordAck (h : Node cfg order n log m) (hf : m.conn.finishing = none) {r : U16}
    {reader : Child} (hreader : m.conn.findConnection r = some reader) (hne : r ≠ n) {u : ℕ}
    (hnew : m.newest r ≤ u) {c : Connection} {fin : Option Finish}
    (hc : c = { m.conn.recordAck r (serial 16 u - 1) with finishing := fin }) (hs : Sound cfg c)
    (hpost : c.posting = [])
    (hrel : ∀ f, fin = some f → ∀ x ∈ order, x ≠ n →
      (log n).length ≤ Function.update m.newest r u x + f.size.toNat) (k : ℕ) :
    Node cfg order n log { m.advance c with
      newest := Function.update m.newest r u
      lastAck := Function.update m.lastAck r k } := by
  subst hc
  have hmono : ∀ x, m.newest x ≤ Function.update m.newest r u x := by
    intro x
    by_cases hx : x = r
    · subst hx; rw [Function.update_self]; exact hnew
    · rw [Function.update_of_ne hx]
  have hfind : ∀ x, (m.conn.recordAck r (serial 16 u - 1)).findConnection x =
      if x = r then some (reader.setAcked (serial 16 u - 1)) else m.conn.findConnection x := by
    intro x
    rw [findConnection_recordAck, hreader, Option.map_some]
  have hp0 : m.conn.posting = [] := by rw [Connection.posting, hf]; rfl
  have hl := h.loopback
  rw [hp0] at hl
  have hrd := h.readers r reader hreader
  have hnode := h.advance_child (k := r) (m.expected r) (m.obtained r) (Function.update m.newest r u)
    (Function.update m.lastAck r k) [] hs rfl
    (ids_updateChild (c := m.conn) (f := Child.setAcked (serial 16 u - 1)) (fun _ hk => hk)) rfl
    hreader hfind le_rfl (by omega)
    ⟨⟨hrd.le, hrd.sequence, hrd.ready, hrd.current, hrd.fresh, hrd.stream⟩, hrd.pending⟩
    (h.writer.congr rfl rfl rfl rfl rfl)
    (by rw [Function.update_eq_self, hpost]; exact hl)
    (by rw [hpost]; simp) (fun hx => absurd hx hne)
    (by
      intro x ch hxn hch
      change (m.conn.recordAck r _).findConnection x = some ch at hch
      rw [hfind x] at hch
      split_ifs at hch with hxr
      · rw [← Option.some.inj hch, hxr, Function.update_self]
        rfl
      · rw [Function.update_of_ne hxr]
        exact h.acked x ch hxn hch)
    (fun x hx hxn => (h.released x hx hxn).trans (Nat.add_le_add_right (hmono x) _)) hrel
    (List.append_nil _).symm sends_nil
  rw [Function.update_eq_self] at hnode
  exact hnode

theorem mem_remote_iff (h : Node cfg order n log m) {child : Child} :
    child ∈ m.conn.remote ↔ child.id ≠ n ∧ m.conn.findConnection child.id = some child := by
  simp only [remote, List.mem_filter, h.id_eq, decide_eq_true_eq]
  constructor
  · rintro ⟨hmem, hne⟩
    exact ⟨hne, Keyed.lookup_of_mem h.sound.nodup hmem⟩
  · rintro ⟨hne, hfind⟩
    exact ⟨Keyed.mem_of_lookup hfind, hne⟩

/-- An ack for this member's stream. It is either not older than the newest one of its reader, or
looks late to the writer. -/
theorem handleAck (h : Node cfg order n log m) (hf : m.conn.finishing = none)
    (hnb : 2 * cfg.numBuffers < 2 ^ 16) {r : U16} (hr : r ∈ order) (hne : r ≠ n) {u : ℕ}
    (hu : u ≤ (log n).length) (hnewest : ∀ x ∈ order, x ≠ n → m.newest x ≤ (log n).length)
    (hok : m.newest r ≤ u ∨ ∀ child, m.conn.findConnection r = some child →
      late cfg child.acked (serial 16 u - 1) = true) (k : ℕ) :
    Node cfg order n log { m.advance (m.conn.handleAck cfg r n (serial 16 u - 1)) with
      newest := Function.update m.newest r (max (m.newest r) u)
      lastAck := Function.update m.lastAck r k } := by
  have hid := h.id_eq
  have hs := h.sound.handleAck hf (show r ≠ m.conn.id by rw [hid]; exact hne) n (serial 16 u - 1)
  obtain ⟨reader, hreader⟩ := Option.isSome_iff_exists.1 (h.findConnection_isSome.2 hr)
  have hackr := h.acked r reader hne hreader
  have hbound := h.log_le_newest hr hne
  rcases handleAck_cases cfg r n (serial 16 u - 1) m.conn with
    ⟨hlate, hc⟩ | ⟨reader', -, hreader', hnotlate, hc⟩
  · have hold : u ≤ m.newest r := by
      by_contra hlt
      have htrue := hlate hid.symm reader hreader
      rw [hackr, late_eq_false (not_le.1 hlt) (by omega) hnb] at htrue
      cases htrue
    rw [max_eq_left hold, Function.update_eq_self, hc]
    exact (h.advance_of_queues_eq [] h.sound rfl rfl rfl rfl rfl h.writer (List.append_nil _).symm
      sends_nil).set_lastAck _
  rw [hreader, Option.some.injEq] at hreader'
  subst hreader'
  have hnew : m.newest r ≤ u := by
    rcases hok with hle | hl
    · exact hle
    · rw [hl reader hreader] at hnotlate
      cases hnotlate
  rw [max_eq_right hnew]
  have hs1 : Sound cfg (m.conn.recordAck r (serial 16 u - 1)) :=
    (h.sound.updateChild (f := Child.setAcked (serial 16 u - 1)) (fun _ hk => hk)
      (fun _ _ _ => List.Perm.refl _) (fun he => absurd (he.trans hid) hne)).set_timeouts 0
  have hnode := h.advance_recordAck hf hreader hne hnew (c := m.conn.recordAck r (serial 16 u - 1))
    rfl hs1 (by rw [Connection.posting]; exact hf ▸ rfl)
    (fun f hcf => by cases hf.symm.trans hcf) k
  rcases hc with ⟨-, hc⟩ | ⟨self, -, -, hc⟩
  · rw [hc]
    exact hnode
  rw [hc] at hs ⊢
  refine h.advance_recordAck hf hreader hne hnew rfl hs rfl (fun f hcf x hx hxn => ?_) k
  obtain ⟨child, hchild⟩ := Option.isSome_iff_exists.1 (hnode.findConnection_isSome.2 hx)
  have hidx : child.id = x := Keyed.key_of_lookup hchild
  have hmem : child ∈ (m.conn.recordAck r (serial 16 u - 1)).remote :=
    hnode.mem_remote_iff.2 ⟨hidx ▸ hxn, hidx ▸ hchild⟩
  have hsize := le_add_size (a := Function.update m.newest r u) (log n).length u hnb
    (fun ch hch => by
      obtain ⟨hn, hf⟩ := hnode.mem_remote_iff.1 hch
      exact hnode.acked ch.id ch hn hf)
    (fun ch hch => by
      obtain ⟨hn, hf⟩ := hnode.mem_remote_iff.1 hch
      have ho := hnode.findConnection_isSome.1 (Option.isSome_iff_exists.2 ⟨ch, hf⟩)
      refine ⟨hnode.log_le_newest ho hn, ?_⟩
      by_cases hcr : ch.id = r
      · rw [hcr, Function.update_self]; exact hu
      · rw [Function.update_of_ne hcr]; exact hnewest ch.id ho hn)
    ⟨by omega, hu⟩ hmem
  rw [← Option.some.inj hcf, ← hidx]
  change _ ≤ _ + (m.conn.sequence - _ - 1).toNat
  rw [h.writer.sequence]
  exact hsize

end Node
end Collage.Rsp
