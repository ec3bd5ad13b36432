import Collage.Rsp.Member

/-!
# Releasing, receiving and reading steps keep a member in step with the logs

All these steps change one child. `Node.advance_child` says once what has to be shown for them.
-/

namespace Collage.Rsp

open Serial Connection

variable {cfg : Config} {order : List U16} {n : U16} {log : U16 → List (List UInt8)} {m : Member}

theorem Member.expected_advance {c : Connection} {k : U16} {child child' : Child} {e' : ℕ}
    (hfind : m.conn.findConnection k = some child)
    (hfind' : ∀ w, c.findConnection w = if w = k then some child' else m.conn.findConnection w)
    (hseq : child.sequence = serial 16 (m.expected k)) (hseq' : child'.sequence = serial 16 e')
    (hle : m.expected k ≤ e') (hlt : e' < m.expected k + 2 ^ 16) :
    (m.advance c).expected = Function.update m.expected k e' := by
  funext w
  change m.expected w + (expects c w - expects m.conn w).toNat = _
  by_cases hw : w = k
  · subst hw
    rw [Function.update_self, expects, expects, hfind' w, if_pos rfl, hfind]
    simp only [Option.elim_some, hseq, hseq']
    rw [toNat_serial_sub hle hlt]
    omega
  · rw [Function.update_of_ne hw, expects, expects, hfind' w, if_neg hw, sub_self]
    simp

namespace Node

/-- A step that numbers no packet and changes only the child `k`. -/
theorem advance_child (h : Node cfg order n log m) {c : Connection} {k : U16} {child child' : Child}
    (e' : ℕ) (obtained : List UInt8) (newest lastAck : U16 → ℕ) (new : List Datagram)
    (hs : Sound cfg c) (hphase : c.phase = m.conn.phase)
    (hids : c.children.map Child.id = m.conn.children.map Child.id)
    (hseq : c.sequence = m.conn.sequence) (hfind : m.conn.findConnection k = some child)
    (hfind' : ∀ w, c.findConnection w = if w = k then some child' else m.conn.findConnection w)
    (hle : m.expected k ≤ e') (hlt : e' < m.expected k + 2 ^ 16)
    (hreader : Reader (log k) e' obtained child') (hwriter : Writer cfg (log n) m.written c)
    (hloop : Function.update m.expected k e' n + c.posting.length + c.writeBuffers.length =
      (log n).length)
    (hposting : ∀ i b, c.posting[i]? = some b →
      (log n)[Function.update m.expected k e' n + i]? = some b.data.bytes ∧ b.data.Full)
    (hreorder : k = n → child'.recvBuffers = [])
    (hacked : ∀ r ch, r ≠ n → c.findConnection r = some ch → ch.acked = serial 16 (newest r) - 1)
    (hreleased : ∀ r ∈ order, r ≠ n → (log n).length ≤ newest r + c.writeBuffers.length)
    (hreleasing : ∀ f, c.finishing = some f → ∀ r ∈ order, r ≠ n →
      (log n).length ≤ newest r + f.size.toNat)
    (hsent : c.sent = m.conn.sent ++ new)
    (hnew : Sends n (log n) m.assigned m.expected (Function.update m.expected k e') new) :
    Node cfg order n log { m.advance c with
      obtained := Function.update m.obtained k obtained
      newest := newest
      lastAck := lastAck } := by
  have hexp := Member.expected_advance hfind hfind' (h.readers k child hfind).sequence
    hreader.sequence hle hlt
  have hass : m.assigned + (c.sequence - m.conn.sequence).toNat = m.assigned := by
    rw [hseq, sub_self]; simp
  have hmono : ∀ w, m.expected w ≤ Function.update m.expected k e' w := by
    intro w
    by_cases hw : w = k
    · subst hw; rw [Function.update_self]; exact hle
    · rw [Function.update_of_ne hw]
  refine ⟨hs, hphase.trans h.phase, hids.trans h.ids, hass.trans h.assigned, hwriter, ?_, ?_, ?_,
    ?_, hacked, hreleased, hreleasing, ?_⟩
  · intro w ch hc
    change Reader (log w) ((m.advance c).expected w) (Function.update m.obtained k obtained w) ch
    rw [hexp]
    by_cases hw : w = k
    · subst hw
      rw [show (m.advance c).conn.findConnection w = some child' by
        rw [show (m.advance c).conn = c from rfl, hfind' w, if_pos rfl], Option.some.injEq] at hc
      rw [Function.update_self, Function.update_self, ← hc]
      exact hreader
    · rw [Function.update_of_ne hw, Function.update_of_ne hw]
      refine h.readers w ch ?_
      rw [← hc, show (m.advance c).conn = c from rfl, hfind' w, if_neg hw]
  · change (m.advance c).expected n + _ + _ = _
    rw [hexp]
    exact hloop
  · intro i b hb
    change (log n)[(m.advance c).expected n + i]? = _ ∧ _
    rw [hexp]
    exact hposting i b hb
  · intro self hc
    rw [show (m.advance c).conn = c from rfl, hfind' n] at hc
    split_ifs at hc with hn
    · rw [← Option.some.inj hc]
      exact hreorder hn.symm
    · exact h.noReorder self hc
  · have hmarks : (m.advance c).marks = m.marks ++
        new.map (Member.mark m.assigned (Function.update m.expected k e')) := by
      rw [← hexp]
      simp only [Member.advance, hass, hsent, List.drop_left]
    change Sent n (log n) (m.advance c).expected (m.advance c).marks c.sent
    rw [hmarks, hexp, hsent]
    exact h.sent.append List.prefix_rfl hmono hnew

theorem posting_lt (h : Node cfg order n log m) : m.conn.posting.length < 2 ^ 16 := by
  have hpost := h.sound.posted
  have hlen := h.sound.length_held
  have hnb := cfg.numBuffers_lt
  simp only [Connection.held, List.length_append, List.length_map] at hlen
  omega

/-- The loopback child takes over the prepared buffers, in the middle or at the end of
`_finishWriteQueue`. -/
theorem advance_posted (h : Node cfg order n log m) {c : Connection} {f : Finish} {self : Child}
    (hf : m.conn.finishing = some f) (hself : m.conn.findConnection n = some self) (self' : Child)
    (hs : Sound cfg c) (hphase : c.phase = m.conn.phase)
    (hids : c.children.map Child.id = m.conn.children.map Child.id)
    (hseq : c.sequence = m.conn.sequence)
    (hfind : ∀ w, c.findConnection w = if w = n then some self' else m.conn.findConnection w)
    (hself' : ∃ a, self' = { self.post f.readBuffers with acked := a })
    (hpost : c.posting = []) (hwrite : c.writeBuffers = m.conn.writeBuffers)
    (hthread : c.threadBuffers = m.conn.threadBuffers) (hwriting : c.writing = m.conn.writing)
    (hfin : ∀ g, c.finishing = some g → g.size = f.size) (hsent : c.sent = m.conn.sent) :
    Node cfg order n log (m.advance c) := by
  have hp : m.conn.posting = f.readBuffers := by rw [Connection.posting, hf]; rfl
  have hlt := h.posting_lt
  have hloop := h.loopback
  have hposting := h.posting
  rw [hp] at hlt hloop hposting
  have hrecv := h.noReorder self hself
  have hreader := (h.readers n self hself).post hrecv hposting
  obtain ⟨a, rfl⟩ := hself'
  have hwr : Writer cfg (log n) m.written c :=
    h.writer.congr hseq (congrArg Prod.fst hphase) hwrite hthread hwriting
  have hnode := h.advance_child (c := c) (k := n) (m.expected n + f.readBuffers.length)
    (m.obtained n) m.newest m.lastAck [] hs hphase hids
    hseq hself hfind (Nat.le_add_right _ _) (by omega)
    ⟨⟨hreader.le, hreader.sequence, hreader.ready, hreader.current, hreader.fresh, hreader.stream⟩,
      hreader.pending⟩ hwr
    (by rw [Function.update_self, hpost, hwrite]; exact hloop)
    (by rw [hpost]; simp) (fun _ => hrecv)
    (fun r ch hne hc => h.acked r ch hne (by rw [hfind r, if_neg hne] at hc; exact hc))
    (by rw [hwrite]; exact h.released)
    (fun g hg => by rw [hfin g hg]; exact h.releasing f hf) (by rw [hsent, List.append_nil])
    sends_nil
  rw [Function.update_eq_self] at hnode
  exact hnode

theorem advance_released (h : Node cfg order n log m) {f : Finish} {self : Child} {a b : Buffer}
    {free rest : List Buffer} (hf : m.conn.finishing = some f)
    (hself : m.conn.findConnection n = some self) (hw : m.conn.writeBuffers = b :: rest)
    (hsize : f.size.toNat < m.conn.writeBuffers.length)
    (hs : Sound cfg (m.conn.released f self a free b rest)) :
    Node cfg order n log (m.advance (m.conn.released f self a free b rest)) := by
  have hid := h.id_eq
  have hp : m.conn.posting = f.readBuffers := by rw [Connection.posting, hf]; rfl
  have hloop := h.loopback
  have hposting := h.posting
  have hreader := h.readers n self hself
  rw [hp, hw, List.length_cons] at hloop
  rw [hw, List.length_cons] at hsize
  rw [hp] at hposting
  have hidself : self.id = n := Keyed.key_of_lookup hself
  have hfind : ∀ w, (m.conn.released f self a free b rest).findConnection w =
      if w = n then some { self with threadBuffers := free } else m.conn.findConnection w := by
    intro w
    have hr := findConnection_released f a b free rest (c := m.conn) (by rw [hid]; exact hself) w
    rw [hid] at hr
    exact hr
  have hnode := h.advance_child (c := m.conn.released f self a free b rest) (k := n) (m.expected n)
    (m.obtained n) m.newest m.lastAck [] hs rfl
    (ids_updateChild (f := fun _ => { self with threadBuffers := free })
      (fun _ _ => hidself.trans hid.symm)) rfl hself hfind le_rfl (by omega)
    ⟨⟨hreader.le, hreader.sequence, hreader.ready, hreader.current, hreader.fresh, hreader.stream⟩,
      hreader.pending⟩ (h.writer.release_first hw rfl rfl rfl rfl rfl)
    (by
      rw [Function.update_self]
      simp only [Connection.released, Connection.posting, Option.elim_some, List.length_append,
        List.length_singleton]
      omega)
    (by
      intro i x hx
      rw [Function.update_self]
      simp only [Connection.released, Connection.posting, Option.elim_some] at hx
      rcases lt_or_ge i f.readBuffers.length with hi | hi
      · rw [List.getElem?_append_left hi] at hx
        exact hposting i x hx
      · have hi' : i = f.readBuffers.length := by
          have hl := (List.getElem?_eq_some_iff.1 hx).1
          rw [List.length_append, List.length_singleton] at hl
          omega
        subst hi'
        rw [List.getElem?_concat_length, Option.some.injEq] at hx
        have hpk := h.writer.window 0 b (by rw [hw]; rfl)
        rw [hw, List.length_cons, show (log n).length - (rest.length + 1) + 0 =
          m.expected n + f.readBuffers.length by omega] at hpk
        rw [← hx]
        exact ⟨hpk.contents, hpk.full⟩)
    (fun _ => h.noReorder self hself)
    (fun r ch hne hc => h.acked r ch hne (by rw [hfind r, if_neg hne] at hc; exact hc))
    (by
      intro r hr hne
      have := h.releasing f hf r hr hne
      change _ ≤ m.newest r + rest.length
      omega)
    (by
      intro g hg
      rw [← Option.some.inj hg]
      exact h.releasing f hf)
    (by rw [List.append_nil]; rfl) sends_nil
  rw [Function.update_eq_self] at hnode
  exact hnode

theorem finishStep (h : Node cfg order n log m) {c : Connection}
    (hc : m.conn.finishStep = some c) : Node cfg order n log (m.advance c) := by
  have hs := h.sound.finishStep hc
  have hphase := phase_finishStep hc
  have hid := h.id_eq
  obtain ⟨f, self, hf, hself, hcases⟩ := finishStep_cases hc
  rw [hid] at hself
  have hfindPost : ∀ w, (m.conn.postReadBuffers f).findConnection w =
      if w = n then some (self.post f.readBuffers) else m.conn.findConnection w := by
    intro w
    rw [findConnection_postReadBuffers, hid, hself, Option.map_some]
  have hidsPost : (m.conn.postReadBuffers f).children.map Child.id =
      m.conn.children.map Child.id :=
    ids_updateChild (f := Child.post f.readBuffers) (fun _ hk => hk)
  rcases hcases with ⟨-, rfl⟩ | ⟨a, free, b, rest, hw, hsize, -, rfl⟩ | ⟨-, -, -, rfl⟩
  · refine h.advance_posted hf hself (self.post f.readBuffers |>.setAcked
      ((self.post f.readBuffers).sequence - 1)) hs hphase ?_ rfl ?_ ⟨_, rfl⟩ rfl rfl rfl rfl
      (fun g hg => by cases hg) rfl
    · exact (ids_updateChild (c := m.conn.postReadBuffers f)
        (f := fun self => self.setAcked (self.sequence - 1)) (fun _ hk => hk)).trans hidsPost
    · intro w
      rw [findConnection_finishEnd, hid, hfindPost n, if_pos rfl, Option.map_some, hfindPost w]
      split_ifs <;> rfl
  · exact h.advance_released hf hself hw hsize hs
  · refine h.advance_posted hf hself _ hs hphase hidsPost rfl hfindPost
      ⟨self.acked, rfl⟩ rfl rfl rfl rfl
      (fun g hg => ?_) rfl
    rw [← Option.some.inj hg]

theorem advance_readSync (h : Node cfg order n log m) {w : U16} {k : ℕ} {child : Child}
    {r : Child × List UInt8} (hfind : m.conn.findConnection w = some child)
    (hr : child.readSync cfg k = some r) :
    Node cfg order n log { m.advance (m.conn.updateChild w (fun _ => r.1)) with
      obtained := Function.update m.obtained w (m.obtained w ++ r.2) } := by
  have hs := h.sound.read_child hfind hr
  obtain ⟨hrid, hrseq, hrack⟩ := Child.readSync_frame hr
  have hid : r.1.id = w := hrid.trans (Keyed.key_of_lookup hfind)
  have hreader := (h.readers w child hfind).readSync hr
  have hfind' : ∀ x, (m.conn.updateChild w (fun _ => r.1)).findConnection x =
      if x = w then some r.1 else m.conn.findConnection x := by
    intro x
    rw [findConnection_updateChild (fun _ _ => hid), hfind, Option.map_some]
  refine h.advance_child (m.expected w) (m.obtained w ++ r.2) m.newest m.lastAck [] hs rfl
    (ids_updateChild (fun _ _ => hid)) rfl hfind hfind' le_rfl (by omega) hreader
    (h.writer.congr rfl rfl rfl rfl rfl) ?_ ?_ ?_ ?_ h.released h.releasing
    (List.append_nil _).symm sends_nil
  · rw [Function.update_eq_self]; exact h.loopback
  · rw [Function.update_eq_self]; exact h.posting
  · intro hw
    rw [Child.readSync_recvBuffers hr]
    exact h.noReorder child (hw ▸ hfind)
  · intro x ch hne hc
    rw [hfind' x] at hc
    split_ifs at hc with hx
    · rw [← Option.some.inj hc, hrack, hx]
      exact h.acked w child (hx ▸ hne) hfind
    · exact h.acked x ch hne hc

end Node
end Collage.Rsp
