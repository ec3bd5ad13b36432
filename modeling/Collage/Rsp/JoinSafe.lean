import Collage.Rsp.JoinGuest
import Collage.Rsp.JoinHost

/-!
# A careful join loses no packet

The two sides are tied together by the datagrams between them. As long as the joiner's first ack
has not arrived, the member keeps everything from the number that the joiner has recorded, or may
still record, on; afterwards it keeps everything from the joiner's last ack on.
-/

namespace Collage.Rsp

open Serial Connection

namespace Join

/-- The stamps of the datagrams on their way to the joiner. -/
def pending (j : Join) : List ℕ := j.toA.elim [] (fun k => j.stamps.drop k)

/-- The numbers from which on the member keeps its packets. -/
def limits (j : Join) : List ℕ := j.newest.elim j.promises (fun u => [u])

end Join

structure Joining (cfg : Config) (idA idB : U16) (log : List (List UInt8)) (written : List UInt8)
    (j : Join) : Prop where
  host : Host cfg idA idB log written j.limits j.newest j.b
  guest : Guest cfg idA idB log j.pending j
  assigned : j.assigned = log.length
  stamped : List.Forall₂ (Stamped cfg idB log) j.stamps j.b.sent
  sorted : j.stamps.Pairwise (· ≤ ·)
  heard : ∀ u, j.newest = some u → ∃ k q, k < j.toB ∧ j.counts[k]? = some u ∧
    j.a.sent[k]? = some (.ack idA idB q)

variable {cfg : Config} {idA idB : U16} {log log' : List (List UInt8)} {written : List UInt8}
  {j : Join} {c : Connection}

theorem Stamped.mono {n : ℕ} {d : Datagram} (h : Stamped cfg idB log n d) (hlog : log <+: log') :
    Stamped cfg idB log' n d := by
  refine ⟨h.1.trans hlog.length_le, h.2.1, ?_⟩
  have hkind := h.2.2
  cases d with
  | data d =>
      obtain ⟨i, hi, hwin, hp⟩ := hkind
      exact ⟨i, hi, hwin, hp.mono hlog⟩
  | ackReq w q => trivial
  | nack r w nacks => trivial
  | ack r w q => trivial
  | node type id data => exact hkind

theorem stamped_of_proper {limits : List ℕ} {newest : Option ℕ} {heard : Option Datagram}
    {d : Datagram} (h : Host cfg idA idB log written limits newest c) (hd : c.Proper heard d) :
    Stamped cfg idB log log.length d := by
  refine ⟨le_rfl, ?_⟩
  have hid := h.id_eq
  cases d with
  | data d =>
      obtain ⟨b, hb, rfl⟩ := hd
      obtain ⟨i, hi⟩ := List.mem_iff_getElem?.1 hb
      have hp := (h.writer.window i b hi).on_wire
      have hlt := (List.getElem?_eq_some_iff.1 hi).1
      have hfits := h.writer.fits
      have hlen := h.sound.writeBuffers_le
      rw [hid] at hp
      exact ⟨hp.writer, _, by omega, by omega, hp⟩
  | ackReq w q => exact ⟨hd.trans hid, trivial⟩
  | nack r w nacks => exact ⟨hd.trans hid, trivial⟩
  | ack r w q => exact ⟨hd.1.trans hid, trivial⟩
  | node type id data =>
      obtain ⟨hspeaker, hexit, hconfirm, hdata, -⟩ := hd
      refine ⟨hspeaker.trans hid, hexit, fun he => ?_, fun he => ?_⟩
      · have hl := (hconfirm he).1
        rw [h.listening] at hl
        cases hl
      · rw [hdata he, h.writer.sequence]

theorem Host.of_limits {limits limits' : List ℕ} {newest : Option ℕ}
    (h : Host cfg idA idB log written limits newest c)
    (hlimits : ∀ x ∈ limits', x ∈ limits ∨ log.length ≤ x) :
    Host cfg idA idB log written limits' newest c :=
  ⟨h.sound, h.phase, h.writer, h.cursor, h.known, fun x hx =>
    (hlimits x hx).elim (h.retains x) retains_of_le⟩

/-- Only a reply makes an unknown member known, or a confirmation, which no listening member
sends. -/
theorem unknown_handlePacket (newID : U16) {n : ℕ} {d : Datagram} (hst : Stamped cfg idB log n d)
    (hfind : c.findConnection idB = none) (hreply : d.isReply = false) :
    (c.handlePacket cfg newID d).findConnection idB = none := by
  obtain ⟨-, hspeaker, hkind⟩ := hst
  cases d with
  | data d =>
      simp only [handlePacket]
      split_ifs
      · rcases handleData_cases cfg d c with ⟨-, h⟩ | ⟨child, _, _, hx, -⟩
        · rw [h, hfind]
        · change d.writerID = idB at hspeaker
          rw [hspeaker, hfind] at hx
          cases hx
      · exact hfind
  | ackReq w reqID =>
      simp only [handlePacket]
      split_ifs
      · obtain ⟨_, _, -, h⟩ := handleAckRequest_cases cfg w reqID c
        rw [h]
        exact hfind
      · exact hfind
  | nack r w nacks =>
      simp only [handlePacket]
      split_ifs
      · obtain ⟨_, _, h⟩ := handleNack_cases r w nacks c
        rw [h]
        exact hfind
      · exact hfind
  | ack r w q =>
      simp only [handlePacket]
      split_ifs
      · rcases handleAck_cases cfg r w q c with ⟨-, h⟩ | ⟨_, -, hx, -, -⟩
        · rw [h, hfind]
        · change r = idB at hspeaker
          rw [hspeaker, hfind] at hx
          cases hx
      · exact hfind
  | node type id data =>
      obtain ⟨hexit, hconfirm, -⟩ := hkind
      have hkeep : ∀ (a : Connection) (id : U16), a.findConnection idB = none →
          (a.checkNewID id).findConnection idB = none := by
        intro a id ha
        unfold checkNewID
        split_ifs <;> exact ha
      simp only [handlePacket]
      cases type with
      | helloReply => cases hreply
      | exit => exact absurd rfl hexit
      | confirm => exact absurd rfl hconfirm
      | countNode => split_ifs <;> exact hfind
      | hello =>
          split_ifs
          · exact hkeep _ _ hfind
          · exact hkeep _ _ hfind
          · exact hkeep _ _ hfind
      | deny =>
          split_ifs
          · exact hfind
          · exact hfind
          · simp only [handleAcceptIDData]
            split_ifs <;> exact hfind

namespace Joining

theorem length_stamps (h : Joining cfg idA idB log written j) :
    j.stamps.length = j.b.sent.length := h.stamped.length_eq

theorem stamp_le (h : Joining cfg idA idB log written j) {n : ℕ} (hn : n ∈ j.stamps) :
    n ≤ log.length := by
  obtain ⟨i, hi, rfl⟩ := List.mem_iff_getElem.1 hn
  have hi' : i < j.b.sent.length := h.length_stamps ▸ hi
  exact (h.stamped.get hi hi').1

theorem newest_spoken (h : Joining cfg idA idB log written j) {u : ℕ} (hu : j.newest = some u) :
    (∃ s, j.recorded = some s ∧ s ≤ u) ∧ u ≤ j.expected := by
  obtain ⟨k, q, -, hcount, hsent⟩ := h.heard u hu
  obtain ⟨hk, hcount⟩ := List.getElem?_eq_some_iff.1 hcount
  obtain ⟨hk', hsent⟩ := List.getElem?_eq_some_iff.1 hsent
  have hspoken := h.guest.spoken.get hk hk'
  rw [List.get_eq_getElem, List.get_eq_getElem, hcount, hsent] at hspoken
  exact ⟨(hspoken.counts idA q rfl).1, (hspoken.counts idA q rfl).2.1⟩

theorem expected_le (h : Joining cfg idA idB log written j) {s : ℕ} (hs : j.recorded = some s) :
    s ≤ j.expected ∧ j.expected ≤ log.length := by
  cases hchild : j.a.findConnection idB with
  | none => rw [h.guest.unknown hchild] at hs; cases hs
  | some child =>
      obtain ⟨s', horizon, obtained, hs', hse, hsh, hlen, -, hreader⟩ := h.guest.reader child hchild
      rw [hs, Option.some.injEq] at hs'
      have hle := hreader.le
      rw [List.length_take, length_since (hsh.trans hlen)] at hle
      omega

theorem length_log_le (h : Joining cfg idA idB log written j) (hrec : j.recorded ≠ none) :
    log.length ≤ j.expected + cfg.numBuffers := by
  have hlen := h.host.sound.writeBuffers_le
  obtain ⟨s, hs⟩ := Option.ne_none_iff_exists'.1 hrec
  cases hnew : j.newest with
  | none =>
      have hr := (h.host.retains s (by simp [Join.limits, Join.promises, hnew, hs])).1
      have := (h.expected_le hs).1
      omega
  | some u =>
      have hr := (h.host.retains u (by simp [Join.limits, hnew])).1
      have := (h.newest_spoken hnew).2
      omega

theorem advanceB (h : Joining cfg idA idB log written j) {heard : Option Datagram}
    {written' : List UInt8} {limits : List ℕ} {newest : Option ℕ} (hlog : Extends log j.b c log')
    (hsends : SendsProper j.b c heard)
    (hhost : Host cfg idA idB log' written' limits newest c) :
    Guest cfg idA idB log' (j.advanceB c).pending (j.advanceB c) ∧
      (j.advanceB c).assigned = log'.length ∧
      List.Forall₂ (Stamped cfg idB log') (j.advanceB c).stamps c.sent ∧
      (j.advanceB c).stamps.Pairwise (· ≤ ·) ∧
      ∀ x ∈ (j.advanceB c).promises, x ∈ j.promises ∨ x = log'.length := by
  obtain ⟨new, hsent, hproper⟩ := hsends
  have hlen := h.length_stamps
  have hass : j.assigned + (c.sequence - j.b.sequence).toNat = log'.length := by
    rw [h.assigned, hlog.2]
  have hadv : j.advanceB c = { j with
      b := c, assigned := log'.length
      stamps := j.stamps ++ List.replicate new.length log'.length } := by
    simp only [Join.advanceB, hass, hsent, List.length_append, Nat.add_sub_cancel_left]
  rw [hadv]
  refine ⟨?_, rfl, ?_, ?_, ?_⟩
  · have hpend : ∀ n ∈ (Join.pending { j with
        b := c, assigned := log'.length
        stamps := j.stamps ++ List.replicate new.length log'.length }),
        n ∈ j.pending ∨ log.length ≤ n := by
      intro n hn
      simp only [Join.pending] at hn ⊢
      cases hk : j.toA with
      | none => rw [hk] at hn; cases hn
      | some k =>
          rw [hk, Option.elim_some, List.drop_append] at hn
          rcases List.mem_append.1 hn with hn | hn
          · exact Or.inl hn
          · rw [List.eq_of_mem_replicate (List.mem_of_mem_drop hn)]
            exact Or.inr hlog.1.length_le
    have hguest := h.guest.mono hlog.1 hpend
    exact ⟨hguest.id, hguest.own, hguest.reader, hguest.unknown, hguest.spoken, hguest.ordered⟩
  · rw [hsent]
    refine List.rel_append (h.stamped.imp (fun n d hd => hd.mono hlog.1)) ?_
    rw [← List.map_const' , List.forall₂_map_left_iff, List.forall₂_same]
    exact fun d hd => stamped_of_proper hhost (hproper d hd)
  · rw [List.pairwise_append]
    refine ⟨h.sorted, List.pairwise_replicate.2 (Or.inr le_rfl), fun n hn m hm => ?_⟩
    rw [List.eq_of_mem_replicate hm]
    exact (h.stamp_le hn).trans hlog.1.length_le
  · intro x hx
    cases hrec : j.recorded with
    | some s =>
        simp only [Join.promises, hrec] at hx ⊢
        exact Or.inl hx
    | none =>
        simp only [Join.promises, hrec, Join.onTheWay] at hx ⊢
        cases hk : j.toA with
        | none => rw [hk] at hx; cases hx
        | some k =>
            rw [hk, Option.elim_some, hsent, List.zip_append hlen, List.drop_append,
              List.filter_append, List.map_append] at hx
            rcases List.mem_append.1 hx with hx | hx
            · exact Or.inl hx
            · obtain ⟨p, hp, rfl⟩ := List.mem_map.1 hx
              have hp' := List.of_mem_zip (List.mem_of_mem_drop (List.mem_of_mem_filter hp))
              exact Or.inr (List.eq_of_mem_replicate hp'.1)

theorem advanceA (h : Joining cfg idA idB log written j) {stamp : ℕ} (toA : Option ℕ)
    (hsent : j.a.sent <+: c.sent)
    (hguest : Guest cfg idA idB log (Join.pending { j.advanceA stamp c with toA := toA })
      (j.advanceA stamp c))
    (hlimits : ∀ x ∈ Join.promises { j.advanceA stamp c with toA := toA },
      x ∈ j.promises ∨ log.length ≤ x) :
    Joining cfg idA idB log written { j.advanceA stamp c with toA := toA } := by
  refine ⟨h.host.of_limits ?_, ⟨hguest.id, hguest.own, hguest.reader, hguest.unknown, hguest.spoken,
    hguest.ordered⟩, h.assigned, h.stamped, h.sorted, ?_⟩
  · intro x hx
    cases hnew : j.newest with
    | none =>
        have hx' : x ∈ Join.promises { j.advanceA stamp c with toA := toA } := by
          simpa [Join.limits, Join.advanceA, hnew] using hx
        simpa [Join.limits, hnew] using hlimits x hx'
    | some u => exact Or.inl (by simpa [Join.limits, Join.advanceA, hnew] using hx)
  · intro u hu
    obtain ⟨k, q, hk, hcount, hack⟩ := h.heard u hu
    exact ⟨k, q, hk, getElem?_of_isPrefix (List.prefix_append _ _) hcount,
      getElem?_of_isPrefix hsent hack⟩

theorem b_id (h : Joining cfg idA idB log written j) : j.b.id = idB := h.host.id_eq

theorem boot (h : Joining cfg idA idB log written j) :
    Joining cfg idA idB log written
      { j.advanceA j.assigned (j.a.sendSimpleDatagram .hello j.a.id) with
        toA := some j.b.sent.length } := by
  have hpend : ∀ k, Join.pending { j.advanceA j.assigned (j.a.sendSimpleDatagram .hello j.a.id) with
      toA := some k } = j.stamps.drop k := fun k => rfl
  refine h.advanceA (some j.b.sent.length) (List.prefix_append _ _) ?_ ?_
  · rw [hpend, List.drop_eq_nil_of_le h.length_stamps.le]
    refine h.guest.advanceA_of_reader h.b_id h.guest.id h.guest.own (by simp) Iff.rfl
      (fun x y hx hy => ?_)
      rfl (fun d hd => ?_)
    · change j.a.findConnection idB = some y at hy
      rw [hx, Option.some.injEq] at hy
      exact ⟨by rw [hy], fun _ _ o hr => ⟨o, hy ▸ hr⟩⟩
    · rw [List.mem_singleton.1 hd]
      exact ⟨h.guest.id, by simp, by simp⟩
  · intro x hx
    have hrec : ¬ j.records (j.a.sendSimpleDatagram .hello j.a.id) := fun hr => hr.2 hr.1
    simp only [Join.promises, Join.advanceA, if_neg hrec] at hx ⊢
    cases hs : j.recorded with
    | some s => rw [hs] at hx; exact Or.inl hx
    | none =>
        have hzip : (j.stamps.zip j.b.sent).length ≤ j.b.sent.length := by
          rw [List.length_zip, h.length_stamps, min_self]
        rw [hs] at hx
        simp only [Join.onTheWay, Option.elim_some, List.drop_eq_nil_of_le hzip] at hx
        cases hx

theorem advanceA_own (h : Joining cfg idA idB log written j) (hne : idA ≠ idB) {e : Event}
    (hself : e.speaker ≠ some idA) (hheard : e.speaker ≠ some idB) (hpatient : j.a.Patient e)
    (hc : j.a.step cfg e = some c) :
    Joining cfg idA idB log written (j.advanceA j.assigned c) := by
  obtain ⟨new, hsent, -⟩ := sendsProper_step hpatient hc
  have hguest := h.guest.advanceA_other j.assigned h.b_id hne hself hheard hpatient hc
  refine h.advanceA j.toA (by rw [hsent]; exact List.prefix_append _ _) hguest ?_
  intro x hx
  by_cases hrec : j.records c
  · simp only [Join.promises, Join.advanceA, if_pos hrec, List.mem_singleton] at hx
    exact Or.inr (by rw [hx, h.assigned])
  · simp only [Join.promises, Join.advanceA, if_neg hrec] at hx ⊢
    exact Or.inl hx

theorem advanceA_deliver (h : Joining cfg idA idB log written j) (hne : idA ≠ idB)
    (hnb : cfg.numBuffers < 32767) {k : ℕ} {d : Datagram} (hk : j.toA = some k)
    (hd : j.b.sent[k]? = some d) (hc : j.a.step cfg (.packet 0 d) = some c) :
    Joining cfg idA idB log written
      { j.advanceA (j.stamps.getD k 0) c with toA := some (k + 1) } := by
  obtain ⟨hlt, hget⟩ := List.getElem?_eq_some_iff.1 hd
  have hlt' : k < j.stamps.length := h.length_stamps ▸ hlt
  have hst := h.stamped.get hlt' hlt
  rw [List.get_eq_getElem, List.get_eq_getElem, hget] at hst
  have hstamp : j.stamps.getD k 0 = j.stamps[k] := by
    rw [List.getD_eq_getElem?_getD, List.getElem?_eq_getElem hlt', Option.getD_some]
  have hpend : j.pending = j.stamps[k] :: j.stamps.drop (k + 1) := by
    rw [Join.pending, hk]
    exact List.drop_eq_getElem_cons hlt'
  have hguest := h.guest
  rw [hpend] at hguest
  have hsorted : ∀ n ∈ j.stamps.drop (k + 1), j.stamps[k] ≤ n := by
    have hs := h.sorted.drop (i := k)
    rw [List.drop_eq_getElem_cons hlt', List.pairwise_cons] at hs
    exact hs.1
  obtain ⟨new, hsent, -⟩ := sendsProper_step (e := .packet 0 d) trivial hc
  rw [hstamp]
  refine h.advanceA (some (k + 1)) (by rw [hsent]; exact List.prefix_append _ _)
    (hguest.advanceA_packet h.b_id hne hst hsorted h.length_log_le hnb hc) ?_
  intro x hx
  left
  by_cases hrec : j.records c
  · simp only [Join.promises, Join.advanceA, if_pos hrec, List.mem_singleton] at hx
    have hfind := hrec.1
    have hfind' := hrec.2
    rw [h.b_id] at hfind hfind'
    have hreply : d.isReply = true := by
      by_contra hno
      simp only [Connection.step, Option.ite_none_right_eq_some, Option.some.injEq] at hc
      rw [← hc.2] at hfind'
      exact hfind' (unknown_handlePacket 0 hst hfind (eq_false_of_ne_true hno))
    have hzip : (j.stamps.zip j.b.sent)[k]? = some (j.stamps[k], d) := by
      rw [List.getElem?_zip_eq_some]
      exact ⟨List.getElem?_eq_getElem hlt', hd⟩
    simp only [Join.promises, h.guest.unknown hfind, Join.onTheWay, hk, Option.elim_some]
    rw [hx]
    refine List.mem_map.2 ⟨(j.stamps[k], d), List.mem_filter.2 ⟨?_, hreply⟩, rfl⟩
    refine List.mem_of_getElem? (i := 0) ?_
    rw [List.getElem?_drop]
    exact hzip
  · simp only [Join.promises, Join.advanceA, if_neg hrec] at hx ⊢
    cases hs : j.recorded with
    | some s => rw [hs] at hx; exact hx
    | none =>
        rw [hs] at hx
        simp only [Join.onTheWay, hk, Option.elim_some] at hx ⊢
        obtain ⟨p, hp, rfl⟩ := List.mem_map.1 hx
        have hsub : ((j.stamps.zip j.b.sent).drop (k + 1)).Sublist
            ((j.stamps.zip j.b.sent).drop k) := List.drop_sublist_drop_left _ (Nat.le_succ k)
        exact List.mem_map_of_mem ((hsub.filter _).subset hp)

theorem advanceB_of_host (h : Joining cfg idA idB log written j) {heard : Option Datagram}
    {written' : List UInt8} {limits : List ℕ} {newest : Option ℕ} {toB : ℕ}
    (hlog : Extends log j.b c log') (hsends : SendsProper j.b c heard)
    (hhost : Host cfg idA idB log' written' limits newest c)
    (hlimits : ∀ x ∈ newest.elim j.promises (fun u => [u]), x ∈ limits)
    (hheard : ∀ u, newest = some u → ∃ k q, k < toB ∧ j.counts[k]? = some u ∧
      j.a.sent[k]? = some (.ack idA idB q)) :
    Joining cfg idA idB log' written' { j.advanceB c with toB := toB, newest := newest } := by
  obtain ⟨hguest, hass, hstamped, hsorted, hpromises⟩ := h.advanceB hlog hsends hhost
  refine ⟨hhost.of_limits (fun x hx => ?_), ⟨hguest.id, hguest.own, hguest.reader, hguest.unknown,
    hguest.spoken, hguest.ordered⟩, hass, hstamped, hsorted, hheard⟩
  cases newest with
  | none =>
      rcases hpromises x hx with hx | hx
      · exact Or.inl (hlimits x hx)
      · exact Or.inr hx.ge
  | some u => exact Or.inl (hlimits x hx)

theorem advanceB_own (h : Joining cfg idA idB log written j) (toB : ℕ) (hne : idA ≠ idB) {e : Event}
    (hheard : e.speaker ≠ some idB) (hpatient : j.b.Patient e)
    (halone : ∀ expired, e = .outgoing expired ∨ e = .timeout expired → j.promises ≠ [] →
      ¬ j.b.ReleasesAlone)
    (hown : ∀ newID d, e = .packet newID d → d.isAck = false ∧
      (d.speaker = idA → ∀ id data, d ≠ .node .exit id data))
    (htoB : j.toB ≤ toB) (hc : j.b.step cfg e = some c) :
    ∃ log' written', Joining cfg idA idB log' written' { j.advanceB c with toB := toB } := by
  have hpromises : j.limits ≠ [] → j.promises ≠ [] := by
    intro hl
    cases hnew : j.newest with
    | none => rwa [Join.limits, hnew] at hl
    | some u =>
        obtain ⟨⟨s, hs, -⟩, -⟩ := h.newest_spoken hnew
        simp [Join.promises, hs]
  obtain ⟨log', written', hlog, hhost⟩ := h.host.step hne hheard hpatient
    (fun expired he hl => halone expired he (hpromises hl)) hown hc
  refine ⟨log', written', ?_⟩
  refine h.advanceB_of_host hlog (sendsProper_step hpatient hc) hhost (fun x hx => hx)
    (fun u hu => ?_)
  obtain ⟨k, q, hk, hrest⟩ := h.heard u hu
  exact ⟨k, q, by omega, hrest⟩

/-- The condition on an ack, in terms of the numbers to keep. -/
theorem counted_cases (h : Joining cfg idA idB log written j) {r w q : U16}
    (hcounted : j.Counted cfg (.ack r w q)) (htakes : j.b.takesOver cfg (.ack r w q) = true) :
    (∀ x ∈ j.promises, log.length ≤ x) ∨ (j.b.recordAck r q).LastBehind cfg ∨
      (j.newest.isSome ∨ r = idA) ∧ ((j.b.recordAck r q).LastIs idA ∨
        (j.b.recordAck r q).AllNear cfg) := by
  have hc := hcounted htakes
  rw [h.assigned, h.guest.id] at hc
  exact hc.imp_right (fun hc => hc.imp_right (fun hc => ⟨hc.1, hc.2.imp_right And.right⟩))

theorem advanceB_foreign_ack (h : Joining cfg idA idB log written j) (hne : idA ≠ idB)
    (hnb : cfg.numBuffers < 32767) {r w q : U16} (hra : r ≠ idA) (hrb : r ≠ idB)
    (hcounted : j.Counted cfg (.ack r w q))
    (hc : j.b.step cfg (.packet 0 (.ack r w q)) = some c) :
    Joining cfg idA idB log written (j.advanceB c) := by
  have hsends := sendsProper_step (e := .packet 0 (.ack r w q)) trivial hc
  simp only [Connection.step, Option.ite_none_right_eq_some, Option.some.injEq, handlePacket,
    h.host.listening, if_true] at hc
  obtain ⟨hi, rfl⟩ := hc
  have hhost : Host cfg idA idB log written j.limits j.newest (j.b.handleAck cfg r w q) := by
    refine h.host.handle_ack hne (finishing_of_idle hi) (by omega) hrb (fun _ => by rw [if_neg hra])
      (fun _ => rfl) h.host.retains (fun x hx htakes => ?_)
    rcases h.counted_cases hcounted htakes with hc | hc | ⟨hnew, hc⟩
    · left
      cases hn : j.newest with
      | none => exact hc x (by simpa [Join.limits, hn] using hx)
      | some u =>
          obtain ⟨⟨s, hs, hsu⟩, -⟩ := h.newest_spoken hn
          have hxu : x = u := by simpa [Join.limits, hn] using hx
          have hle := hc s (by simp [Join.promises, hs])
          omega
    · exact Or.inr (Or.inl hc)
    · refine Or.inr (Or.inr ?_)
      obtain ⟨u, hu⟩ := Option.isSome_iff_exists.1 (hnew.resolve_right hra)
      have hxu : x = u := by simpa [Join.limits, hu] using hx
      obtain ⟨child, hchild⟩ := Option.ne_none_iff_exists'.1 (h.host.known (by rw [hu]; simp))
      obtain ⟨⟨s, hs, -⟩, hle⟩ := h.newest_spoken hu
      refine ⟨child, ?_, ?_, ?_, hc⟩
      · rw [findConnection_recordAck, if_neg (Ne.symm hra), hchild]
      · rw [h.host.cursor child hchild, hu, hxu]
        rfl
      · have := (h.expected_le hs).2
        omega
  exact h.advanceB_of_host (extends_self (sequence_handleAck cfg j.b r w q)) hsends hhost
    (fun x hx => hx) h.heard

/-- The next ack of the joiner carries at least the count of those before. -/
theorem newest_le (h : Joining cfg idA idB log written j) {u v : ℕ} {q : U16}
    (hu : j.newest = some u) (hv : j.counts[j.toB]? = some v)
    (hq : j.a.sent[j.toB]? = some (.ack idA idB q)) : u ≤ v := by
  obtain ⟨k, q', hk, hcount, hsent⟩ := h.heard u hu
  have hzip : ∀ {i x d}, j.counts[i]? = some x → j.a.sent[i]? = some d →
      (j.counts.zip j.a.sent)[i]? = some (x, d) :=
    fun hx hd => List.getElem?_zip_eq_some.2 ⟨hx, hd⟩
  obtain ⟨hi, hi'⟩ := List.getElem?_eq_some_iff.1 (hzip hcount hsent)
  obtain ⟨hj, hj'⟩ := List.getElem?_eq_some_iff.1 (hzip hv hq)
  have hord := List.pairwise_iff_getElem.1 h.guest.ordered k j.toB hi hj hk
  rw [hi', hj'] at hord
  exact hord rfl rfl

theorem advanceB_own_ack (h : Joining cfg idA idB log written j) (hne : idA ≠ idB)
    (hnb : cfg.numBuffers < 32767) {w q : U16} (hd : j.a.sent[j.toB]? = some (.ack idA w q))
    (hcounted : j.Counted cfg (.ack idA w q))
    (hc : j.b.step cfg (.packet 0 (.ack idA w q)) = some c) :
    Joining cfg idA idB log written { j.advanceB c with
      toB := j.toB + 1
      newest := if j.b.takesOver cfg (.ack idA w q) then some (j.counts.getD j.toB 0)
        else j.newest } := by
  have hsends := sendsProper_step (e := .packet 0 (.ack idA w q)) trivial hc
  simp only [Connection.step, Option.ite_none_right_eq_some, Option.some.injEq, handlePacket,
    h.host.listening, if_true] at hc
  obtain ⟨hi, rfl⟩ := hc
  have hext : Extends log j.b (j.b.handleAck cfg idA w q) log :=
    extends_self (sequence_handleAck cfg j.b idA w q)
  cases htakes : j.b.takesOver cfg (.ack idA w q) with
  | false =>
      have hhost : Host cfg idA idB log written j.limits j.newest (j.b.handleAck cfg idA w q) :=
        h.host.handle_ack hne (finishing_of_idle hi) (by omega) hne
          (fun ht => by rw [htakes] at ht; cases ht) (fun _ => rfl) h.host.retains
          (fun x _ ht => by rw [htakes] at ht; cases ht)
      refine h.advanceB_of_host hext hsends hhost (fun x hx => hx) (fun u hu => ?_)
      obtain ⟨k, q', hk, hrest⟩ := h.heard u hu
      exact ⟨k, q', by omega, hrest⟩
  | true =>
      have hw : w = idB := by
        simp only [takesOver, Bool.and_eq_true, decide_eq_true_eq] at htakes
        exact htakes.1.trans h.b_id
      subst hw
      obtain ⟨hlt, hget⟩ := List.getElem?_eq_some_iff.1 hd
      have hlt' : j.toB < j.counts.length := h.guest.spoken.length_eq ▸ hlt
      have hcount : j.counts[j.toB]? = some (j.counts.getD j.toB 0) := by
        rw [List.getD_eq_getElem?_getD, List.getElem?_eq_getElem hlt', Option.getD_some]
      have hspoken := h.guest.spoken.get hlt' hlt
      rw [List.get_eq_getElem, List.get_eq_getElem, hget] at hspoken
      obtain ⟨⟨s, hs, hsu⟩, hue, hq⟩ := hspoken.counts idA q rfl
      have hu : j.counts[j.toB] = j.counts.getD j.toB 0 := by
        rw [List.getElem?_eq_getElem hlt', Option.some.injEq] at hcount
        exact hcount
      simp only [hu] at hsu hue hq
      generalize j.counts.getD j.toB 0 = u at *
      have hlog := (h.expected_le hs).2
      have hretains : Retains j.b log.length u := by
        cases hn : j.newest with
        | none =>
            exact (h.host.retains s (by simp [Join.limits, Join.promises, hn, hs])).mono hsu
        | some u' =>
            exact (h.host.retains u' (by simp [Join.limits, hn])).mono (h.newest_le hn hcount hd)
      have hhost : Host cfg idA w log written [u] (some u) (j.b.handleAck cfg idA w q) := by
        refine h.host.handle_ack hne (finishing_of_idle hi) (by omega) hne
          (fun _ => by rw [if_pos rfl]; exact hq) (fun ht => by rw [htakes] at ht; cases ht)
          (fun x hx => by rw [List.mem_singleton.1 hx]; exact hretains) (fun x hx _ => ?_)
        rw [List.mem_singleton.1 hx]
        rcases h.counted_cases hcounted htakes with hc | hc | ⟨-, hc⟩
        · have hle := hc s (by simp [Join.promises, hs])
          exact Or.inl (by omega)
        · exact Or.inr (Or.inl hc)
        · obtain ⟨child, hchild⟩ : ∃ child, j.b.findConnection idA = some child := by
            cases hfind : j.b.findConnection idA with
            | none => simp [takesOver, hfind] at htakes
            | some child => exact ⟨child, rfl⟩
          refine Or.inr (Or.inr ⟨child.setAcked q, ?_, hq, by omega, hc⟩)
          rw [findConnection_recordAck, if_pos rfl, hchild, Option.map_some]
      exact h.advanceB_of_host hext hsends hhost (fun x hx => hx)
        (fun v hv => ⟨j.toB, q, Nat.lt_succ_self _, by rw [← Option.some.inj hv]; exact hcount, hd⟩)

theorem step (h : Joining cfg idA idB log written j) (hne : idA ≠ idB)
    (hnb : cfg.numBuffers < 32767) {e : JoinEvent} {j' : Join} (hok : j.Careful cfg e)
    (hc : j.step cfg e = some j') : ∃ log' written', Joining cfg idA idB log' written' j' := by
  obtain ⟨hapart, hpatient, hlonely, hcounted⟩ := hok
  have hida := h.guest.id
  have hidb := h.b_id
  cases e with
  | boot =>
      cases hk : j.toA with
      | some k => simp [Join.step, hk] at hc
      | none =>
          simp only [Join.step, hk, Option.some.injEq] at hc
          exact ⟨log, written, hc ▸ h.boot⟩
  | atA e =>
      simp only [Join.step, Option.ite_none_right_eq_some, Option.map_eq_some_iff] at hc
      obtain ⟨⟨-, hlocal⟩, c, hc, rfl⟩ := hc
      have hspeaker : e.speaker = none := by cases e <;> first | rfl | cases hlocal
      exact ⟨log, written, h.advanceA_own hne (by rw [hspeaker]; simp) (by rw [hspeaker]; simp)
        hpatient hc⟩
  | envA d =>
      simp only [Join.step, Option.ite_none_right_eq_some, Option.map_eq_some_iff] at hc
      obtain ⟨-, c, hc, rfl⟩ := hc
      rw [Join.Apart, hida, hidb] at hapart
      exact ⟨log, written, h.advanceA_own (e := .packet 0 d) hne
        (fun he => hapart.1 (Option.some.inj he))
        (fun he => hapart.2 (Option.some.inj he)) trivial hc⟩
  | toA =>
      simp only [Join.step, Option.bind_eq_some_iff, Option.map_eq_some_iff] at hc
      obtain ⟨k, hk, d, hd, c, hc, rfl⟩ := hc
      exact ⟨log, written, h.advanceA_deliver hne hnb hk hd hc⟩
  | atB e =>
      simp only [Join.step, Option.ite_none_right_eq_some, Option.map_eq_some_iff] at hc
      obtain ⟨hlocal, c, hc, rfl⟩ := hc
      have hspeaker : e.speaker = none := by cases e <;> first | rfl | cases hlocal
      refine h.advanceB_own j.toB hne (by rw [hspeaker]; simp) hpatient ?_ ?_ le_rfl hc
      · rintro expired (rfl | rfl) <;> exact hlonely
      · rintro newID d rfl
        cases hlocal
  | envB d =>
      simp only [Join.step, Option.map_eq_some_iff] at hc
      obtain ⟨c, hc, rfl⟩ := hc
      rw [Join.Apart, hida, hidb] at hapart
      cases hack : d.isAck with
      | false =>
          refine h.advanceB_own (e := .packet 0 d) j.toB hne (fun he => hapart.2 (Option.some.inj he))
            trivial ?_ ?_ le_rfl hc
          · rintro expired (he | he) <;> cases he
          · rintro newID d' he
            cases he
            exact ⟨hack, fun hs => absurd hs hapart.1⟩
      | true =>
          cases d with
          | ack r w q =>
            exact ⟨log, written, h.advanceB_foreign_ack hne hnb hapart.1 hapart.2 hcounted hc⟩
          | _ => cases hack
  | toB =>
      simp only [Join.step, Option.bind_eq_some_iff, Option.map_eq_some_iff] at hc
      obtain ⟨d, hd, c, hc, rfl⟩ := hc
      obtain ⟨hlt, hget⟩ := List.getElem?_eq_some_iff.1 hd
      have hspoken := h.guest.spoken.get (h.guest.spoken.length_eq ▸ hlt) hlt
      rw [List.get_eq_getElem, List.get_eq_getElem, hget] at hspoken
      cases hack : d.isAck with
      | false =>
          have htakes : j.b.takesOver cfg d = false := by
            cases d with
            | ack r w q => cases hack
            | _ => rfl
          simp only [htakes, Bool.false_eq_true, if_false]
          refine h.advanceB_own (e := .packet 0 d) (j.toB + 1) hne ?_ trivial ?_ ?_ (Nat.le_succ _) hc
          · rw [Event.speaker, hspoken.speaker]
            exact fun he => hne (Option.some.inj he)
          · rintro expired (he | he) <;> cases he
          · rintro newID d' he
            cases he
            exact ⟨hack, fun _ => hspoken.stays⟩
      | true =>
          cases d with
          | ack r w q =>
              have hr : r = idA := hspoken.speaker
              subst hr
              exact ⟨log, written, h.advanceB_own_ack hne hnb hd (hcounted _ hd) hc⟩
          | _ => cases hack

theorem start {members : List (U16 × U16)} (hnd : (members.map Prod.fst).Nodup)
    (hself : (idB, 0) ∈ members) (hnew : idA ∉ members.map Prod.fst) :
    Joining cfg idA idB [] [] (Join.start cfg idA idB members) := by
  have hfind : (Connection.start cfg idB members).findConnection idA = none := by
    rw [findConnection, Keyed.lookup_eq_none_iff, start_ids]
    exact hnew
  refine ⟨⟨sound_start hnd hself, rfl, ⟨rfl, le_rfl, ?_, ?_, rfl⟩, ?_, ?_, ?_⟩,
    ⟨rfl, ?_, ?_, fun _ => rfl, List.Forall₂.nil, List.Pairwise.nil⟩, rfl, List.Forall₂.nil,
    List.Pairwise.nil, ?_⟩
  · intro i b hb
    simp [Join.start, Connection.start] at hb
  · intro b hb
    cases hb
  · intro child hc
    change (Connection.start cfg idB members).findConnection idA = some child at hc
    rw [hfind] at hc
    cases hc
  · exact fun hn => absurd rfl hn
  · intro x hx
    cases hx
  · intro b hb
    cases hb
  · intro child hc
    cases hc
  · intro u hu
    cases hu

theorem releasedAcked (h : Joining cfg idA idB log written j) : j.ReleasedAcked := by
  intro s i hs hsi hi
  rw [h.assigned] at hi
  cases hn : j.newest with
  | none =>
      have hr := (h.host.retains s (by simp [Join.limits, Join.promises, hn, hs])).1
      omega
  | some u =>
      have hr := (h.host.retains u (by simp [Join.limits, hn])).1
      obtain ⟨k, q, hk, hcount, hsent⟩ := h.heard u hn
      refine ⟨k, u, hk, hcount, by omega, ?_⟩
      obtain ⟨hlt, hcount⟩ := List.getElem?_eq_some_iff.1 hcount
      obtain ⟨hlt', hget⟩ := List.getElem?_eq_some_iff.1 hsent
      have hspoken := h.guest.spoken.get hlt hlt'
      rw [List.get_eq_getElem, List.get_eq_getElem, hcount, hget] at hspoken
      rw [hsent, h.guest.id, h.b_id, (hspoken.counts idA q rfl).2.2]

end Joining

/-- In every join whose steps are careful, the member has released no packet from the recorded
number on that the joiner has not acknowledged. -/
theorem joined_releases_acknowledged {idA idB : U16} {members : List (U16 × U16)}
    (hne : idA ≠ idB) (hnd : (members.map Prod.fst).Nodup) (hself : (idB, 0) ∈ members)
    (hnew : idA ∉ members.map Prod.fst) (hnb : cfg.numBuffers < 32767) {es : List JoinEvent}
    (hok : Machine.Steps (Join.step cfg) (Join.Careful cfg) (Join.start cfg idA idB members) es)
    (hrun : Machine.run (Join.step cfg) (Join.start cfg idA idB members) es = some j) :
    j.ReleasedAcked := by
  obtain ⟨log, written, h⟩ := Machine.run_invariant
    (fun j => ∃ log written, Joining cfg idA idB log written j)
    (fun j e j' hi hok hc => by
      obtain ⟨log, written, h⟩ := hi
      exact h.step hne hnb hok hc)
    ⟨[], [], Joining.start hnd hself hnew⟩ hok hrun
  exact h.releasedAcked

/-- A node joins a member that is alone, and reads its first packet. -/
def joinRun : List JoinEvent :=
  [.boot, .toB, .toA] ++ List.replicate 20 (.atA (.timeout true)) ++ List.replicate 22 .toB ++
    List.replicate 20 .toA ++ List.replicate 20 (.atA (.timeout true)) ++
    List.replicate 19 .toB ++
    [.atB (.write [1]), .atB .writePop, .atB .writePush, .atB (.outgoing false), .toA, .toB,
      .atB .finishStep, .atB .finishStep]

theorem joined_releases_acknowledged_joinRun :
    ∃ j, Machine.run (Join.step (Config.tiny 2)) (Join.start (Config.tiny 2) 2 1 [(1, 0)])
        joinRun = some j ∧
      j.recorded = some 0 ∧ j.assigned = 1 ∧ j.b.writeBuffers = [] ∧ j.ReleasedAcked := by
  have hrun : (Machine.run (Join.step (Config.tiny 2))
      (Join.start (Config.tiny 2) 2 1 [(1, 0)]) joinRun).map (fun j => decide
        (j.recorded = some 0 ∧ j.assigned = 1 ∧ j.b.writeBuffers = [])) = some true := by
    decide +kernel
  obtain ⟨j, hj, h⟩ := Option.map_eq_some_iff.1 hrun
  obtain ⟨hrec, hass, hwb⟩ := of_decide_eq_true h
  exact ⟨j, hj, hrec, hass, hwb, joined_releases_acknowledged (by decide) (by decide) (by decide)
    (by decide) (by decide) (by decide +kernel) hj⟩

/-- A member that is alone answers the announcement, writes and releases its first packet, all
before its reply arrives. The joiner then records it with the number of a packet that is gone. -/
theorem reply_outruns_release :
    ∃ j, Machine.run (Join.step (Config.tiny 2)) (Join.start (Config.tiny 2) 2 1 [(1, 0)])
        [.boot, .toB, .atB (.write [1]), .atB .writePop, .atB .writePush, .atB (.outgoing false),
          .atB .finishStep, .atB .finishStep, .toA] = some j ∧
      j.recorded = some 0 ∧ ¬ j.ReleasedAcked := by
  have hrun : (Machine.run (Join.step (Config.tiny 2))
      (Join.start (Config.tiny 2) 2 1 [(1, 0)])
      [.boot, .toB, .atB (.write [1]), .atB .writePop, .atB .writePush, .atB (.outgoing false),
        .atB .finishStep, .atB .finishStep, .toA]).map (fun j => decide
        (j.recorded = some 0 ∧ j.assigned = 1 ∧ j.b.writeBuffers = [] ∧ j.counts = [0])) =
          some true := by decide +kernel
  obtain ⟨j, hj, h⟩ := Option.map_eq_some_iff.1 hrun
  obtain ⟨hrec, hass, hwb, hcounts⟩ := of_decide_eq_true h
  refine ⟨j, hj, hrec, fun hacked => ?_⟩
  obtain ⟨k, u, -, hcount, hu, -⟩ := hacked 0 0 hrec le_rfl (by rw [hwb, hass]; decide)
  have hmem := List.mem_of_getElem? hcount
  rw [hcounts, List.mem_singleton] at hmem
  omega

end Collage.Rsp
