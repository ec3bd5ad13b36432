import Collage.Rsp.Join
import Collage.Rsp.MemberPackets

/-!
# The joiner

From the number it has recorded on, the joiner reads the stream of the member it joins like any
other reader: packets before that number never existed for it. Every ack it sends to that member
carries the count of packets up to its number, and the counts do not decrease.
-/

namespace Collage.Rsp

open Serial Connection

section Since

variable {log log' : List (List UInt8)} {s : ℕ}

/-- The stream as a reader sees it that has joined at the number `s`. -/
def since (s : ℕ) (log : List (List UInt8)) : List (List UInt8) :=
  List.replicate s [] ++ log.drop s

theorem length_since (h : s ≤ log.length) : (since s log).length = log.length := by
  rw [since, List.length_append, List.length_replicate, List.length_drop]
  omega

theorem getElem?_since {i : ℕ} (h : s ≤ i) : (since s log)[i]? = log[i]? := by
  rw [since, List.getElem?_append_right (by simpa using h), List.length_replicate,
    List.getElem?_drop]
  congr 1
  omega

theorem since_mono (h : s ≤ log.length) (hlog : log <+: log') : since s log <+: since s log' := by
  obtain ⟨t, rfl⟩ := hlog
  refine ⟨t, ?_⟩
  rw [since, since, List.drop_append_of_le_length h, List.append_assoc]

theorem take_since_mono {n m : ℕ} (h : s ≤ log.length) (hlog : log <+: log') (hnm : n ≤ m) :
    (since s log).take n <+: (since s log').take m := by
  obtain ⟨t, ht⟩ := since_mono h hlog
  rw [← ht, List.take_append]
  exact (List.take_prefix_take_left hnm).trans (List.prefix_append _ _)

end Since

/-- Two acks to `w`, in the order in which they were sent. -/
def AckOrder (w : U16) : ℕ × Datagram → ℕ × Datagram → Prop
  | (u, .ack _ w₁ _), (u', .ack _ w₂ _) => w₁ = w → w₂ = w → u ≤ u'
  | _, _ => True

/-- What the joiner sends: nothing in another name, no leave, and acks that carry their count. -/
structure Spoken (idA idB : U16) (recorded : Option ℕ) (expected u : ℕ) (d : Datagram) : Prop where
  speaker : d.speaker = idA
  stays : ∀ id data, d ≠ .node .exit id data
  counts : ∀ r q, d = .ack r idB q →
    (∃ s, recorded = some s ∧ s ≤ u) ∧ u ≤ expected ∧ q = serial 16 u - 1

structure Guest (cfg : Config) (idA idB : U16) (log : List (List UInt8)) (pending : List ℕ)
    (j : Join) : Prop where
  id : j.a.id = idA
  own : j.a.OwnPackets
  reader : ∀ child, j.a.findConnection idB = some child → ∃ s horizon obtained,
    j.recorded = some s ∧ s ≤ j.expected ∧ s ≤ horizon ∧ horizon ≤ log.length ∧
      (∀ n ∈ pending, horizon ≤ n) ∧
      Reader ((since s log).take horizon) j.expected obtained child
  unknown : j.a.findConnection idB = none → j.recorded = none
  spoken : List.Forall₂ (Spoken idA idB j.recorded j.expected) j.counts j.a.sent
  ordered : (j.counts.zip j.a.sent).Pairwise (AckOrder idB)

/-- What the member sends when `n` packets are numbered: packets of its window, and its number
in every reply. -/
def Stamped (cfg : Config) (idB : U16) (log : List (List UInt8)) (n : ℕ) (d : Datagram) : Prop :=
  n ≤ log.length ∧ d.speaker = idB ∧ match d with
    | .data d => ∃ i, i < n ∧ n ≤ i + cfg.numBuffers ∧ Packet idB log i d
    | .node type _ data => type ≠ .exit ∧ type ≠ .confirm ∧ (type = .helloReply → data = serial 16 n)
    | .ackReq _ _ | .nack _ _ _ | .ack _ _ _ => True

variable {cfg : Config} {idA idB : U16} {log : List (List UInt8)} {pending : List ℕ} {j : Join}

/-- The acks to `idB` among new datagrams count at least `low`, in order. -/
structure Fresh (idB : U16) (low : ℕ) (expected : ℕ) (new : List Datagram) : Prop where
  later : ∀ d ∈ new, ∀ r q, d = .ack r idB q → low ≤ Join.count idB expected d
  ordered : (new.map (fun d => (Join.count idB expected d, d))).Pairwise (AckOrder idB)

theorem fresh_of_no_ack {low expected : ℕ} {new : List Datagram}
    (h : ∀ d ∈ new, ∀ r q, d ≠ .ack r idB q) : Fresh idB low expected new := by
  refine ⟨fun d hd r q he => absurd he (h d hd r q), ?_⟩
  rw [List.pairwise_map]
  refine List.pairwise_of_forall_mem_list (fun x hx y _ => ?_)
  have hx' := h x hx
  cases x with
  | ack r w q =>
      cases y with
      | ack r' w' q' =>
          intro hw
          exact absurd (by rw [hw]) (hx' r q)
      | data d => trivial
      | ackReq w s => trivial
      | nack r w nacks => trivial
      | node type id data => trivial
  | data d => trivial
  | ackReq w s => trivial
  | nack r w nacks => trivial
  | node type id data => trivial

theorem ordered_append {counts : List ℕ} {sent new : List Datagram} {recorded : Option ℕ}
    {expected expected' : ℕ} (hspoken : List.Forall₂ (Spoken idA idB recorded expected) counts sent)
    (hord : (counts.zip sent).Pairwise (AckOrder idB))
    (hnew : recorded ≠ none → Fresh idB expected expected' new)
    (hnone : recorded = none → ∀ d ∈ new, ∀ r q, d ≠ .ack r idB q) :
    ((counts ++ new.map (Join.count idB expected')).zip (sent ++ new)).Pairwise (AckOrder idB) := by
  have hzip : (new.map (Join.count idB expected')).zip new =
      new.map (fun d => (Join.count idB expected' d, d)) := by
    have hz := List.zip_map' (f := Join.count idB expected') (g := fun d => d) (l := new)
    rwa [List.map_id'] at hz
  have hfresh : Fresh idB expected expected' new := by
    cases hrec : recorded with
    | none => exact fresh_of_no_ack (hnone hrec)
    | some s => exact hnew (by rw [hrec]; simp)
  rw [List.zip_append hspoken.length_eq, hzip, List.pairwise_append]
  refine ⟨hord, hfresh.ordered, ?_⟩
  rintro ⟨u, x⟩ hx ⟨v, y⟩ hy
  obtain ⟨d, hd, heq⟩ := List.mem_map.1 hy
  simp only [Prod.mk.injEq] at heq
  obtain ⟨rfl, rfl⟩ := heq
  have hcx : Spoken idA idB recorded expected u x := List.forall₂_zip hspoken hx
  cases x with
  | ack r w s =>
      cases d with
      | ack r' w' s' =>
          rintro rfl rfl
          exact (hcx.counts r s rfl).2.1.trans (hfresh.later _ hd r' s' rfl)
      | data d => trivial
      | ackReq w s => trivial
      | nack r w nacks => trivial
      | node type id data => trivial
  | data d => trivial
  | ackReq w s => trivial
  | nack r w nacks => trivial
  | node type id data => trivial

theorem spoken_append {counts : List ℕ} {sent new : List Datagram} {recorded recorded' : Option ℕ}
    {expected expected' : ℕ} (hspoken : List.Forall₂ (Spoken idA idB recorded expected) counts sent)
    (hrec : ∀ s, recorded = some s → recorded' = some s ∧ expected ≤ expected')
    (hnew : ∀ d ∈ new, Spoken idA idB recorded' expected' (Join.count idB expected' d) d) :
    List.Forall₂ (Spoken idA idB recorded' expected')
      (counts ++ new.map (Join.count idB expected')) (sent ++ new) := by
  refine List.rel_append (hspoken.imp ?_) ?_
  · intro u x hx
    refine ⟨hx.speaker, hx.stays, fun r q he => ?_⟩
    obtain ⟨⟨s, hs, hsu⟩, hu, hq⟩ := hx.counts r q he
    obtain ⟨hs', hle⟩ := hrec s hs
    exact ⟨⟨s, hs', hsu⟩, hu.trans hle, hq⟩
  · rw [List.forall₂_map_left_iff, List.forall₂_same]
    exact hnew

/-- An ack to the member for a count between `e` and `e'`, or a nack. -/
def AcksUpTo (idA idB : U16) (e e' : ℕ) (d : Datagram) : Prop :=
  (∃ u, e ≤ u ∧ u ≤ e' ∧ d = .ack idA idB (serial 16 u - 1)) ∨ ∃ w nacks, d = .nack idA w nacks

theorem count_ack {e u : ℕ} (hle : u ≤ e) (hlt : e < u + 2 ^ 16) :
    Join.count idB e (.ack idA idB (serial 16 u - 1)) = u := by
  rw [Join.count, if_pos rfl, upTo_serial hle hlt]

theorem AcksUpTo.spoken {e e' s : ℕ} {recorded : Option ℕ} {d : Datagram}
    (h : AcksUpTo idA idB e e' d) (hlt : e' < e + 2 ^ 16) (hs : recorded = some s) (hse : s ≤ e) :
    Spoken idA idB recorded e' (Join.count idB e' d) d ∧
      ∀ r q, d = .ack r idB q → e ≤ Join.count idB e' d := by
  rcases h with ⟨u, hu, hu', rfl⟩ | ⟨w, nacks, rfl⟩
  · rw [count_ack hu' (by omega)]
    refine ⟨⟨rfl, by simp, fun r q he => ?_⟩, fun _ _ _ => hu⟩
    simp only [Datagram.ack.injEq] at he
    exact ⟨⟨s, hs, by omega⟩, hu', he.2.2.symm⟩
  · exact ⟨⟨rfl, by simp, by simp⟩, by simp⟩

theorem acksUpTo_data {e e' : ℕ} {acks : List U16} {ds : List Datagram}
    (hacks : AckedBetween e e' acks) (hlt : e' < e + 2 ^ 16)
    (hds : ∀ d ∈ ds, ∃ nacks, d = .nack idA idB nacks) :
    (∀ d ∈ acks.map (Datagram.ack idA idB) ++ ds, AcksUpTo idA idB e e' d) ∧
      ((acks.map (Datagram.ack idA idB) ++ ds).map
        (fun d => (Join.count idB e' d, d))).Pairwise (AckOrder idB) := by
  obtain ⟨us, rfl, hsorted, hus⟩ := hacks
  have hcount : ∀ u ∈ us, Join.count idB e' (.ack idA idB (serial 16 u - 1)) = u := by
    intro u hu
    have := hus u hu
    exact count_ack (by omega) (by omega)
  refine ⟨fun d hd => ?_, ?_⟩
  · rcases List.mem_append.1 hd with hd | hd
    · rw [List.map_map] at hd
      obtain ⟨u, hu, rfl⟩ := List.mem_map.1 hd
      exact Or.inl ⟨u, (hus u hu).1.le, (hus u hu).2, rfl⟩
    · obtain ⟨nacks, rfl⟩ := hds d hd
      exact Or.inr ⟨idB, nacks, rfl⟩
  · rw [List.map_append, List.pairwise_append]
    refine ⟨?_, ?_, ?_⟩
    · rw [List.map_map, List.map_map, List.pairwise_map]
      refine hsorted.imp_of_mem (fun {u v} hu hv huv => ?_)
      intro _ _
      simp only [hcount u hu, hcount v hv]
      exact huv
    · rw [List.pairwise_map]
      refine List.pairwise_of_forall_mem_list (fun x hx y _ => ?_)
      obtain ⟨nacks, rfl⟩ := hds x hx
      trivial
    · intro p hp q hq
      obtain ⟨x, hx, rfl⟩ := List.mem_map.1 hp
      obtain ⟨y, hy, rfl⟩ := List.mem_map.1 hq
      obtain ⟨nacks, rfl⟩ := hds y hy
      cases x <;> trivial

theorem acksUpTo_request {e : ℕ} {ds : List Datagram} (hds : ∀ d ∈ ds, AcksUpTo idA idB e e d) :
    (ds.map (fun d => (Join.count idB e d, d))).Pairwise (AckOrder idB) := by
  rw [List.pairwise_map]
  refine List.pairwise_of_forall_mem_list (fun x hx y hy => ?_)
  rcases hds x hx with ⟨u, hu, hu', rfl⟩ | ⟨w, nacks, rfl⟩
  · rcases hds y hy with ⟨v, hv, hv', rfl⟩ | ⟨w, nacks, rfl⟩
    · intro _ _
      rw [count_ack hu' (by omega), count_ack hv' (by omega)]
      omega
    · trivial
  · trivial

theorem handleData_of_lt {child : Child} {d : DatagramData} {e i : ℕ} (parentID : U16)
    (hseq : child.sequence = serial 16 e) (hd : d.sequence = serial 16 i) (hlt : i < e)
    (hnear : e ≤ i + 32768) (hnb : cfg.numBuffers < 32767) :
    child.handleData cfg parentID d = (child, [], none) := by
  have hne : child.sequence ≠ d.sequence := by
    intro he
    have := serial_inj_of_near (w := 16) (m := i) (n := e) (by omega) (by omega)
      (by rw [← hd, ← hseq, he])
    omega
  rw [Child.handleData, if_neg hne, hseq, hd, if_pos (ignores_of_lt hlt hnear hnb)]

theorem speaker_of_proper {c : Connection} {heard : Option Datagram} {d : Datagram}
    (hown : c.OwnPackets) (h : c.Proper heard d) :
    d.speaker = c.id ∧ ∀ id data, d ≠ .node .exit id data := by
  cases d with
  | data d =>
      obtain ⟨b, hb, rfl⟩ := h
      exact ⟨hown b (List.mem_append_right _ hb), fun _ _ he => by cases he⟩
  | ackReq writerID sequence => exact ⟨h, fun _ _ he => by cases he⟩
  | nack readerID writerID nacks => exact ⟨h, fun _ _ he => by cases he⟩
  | ack readerID writerID sequence => exact ⟨h.1, fun _ _ he => by cases he⟩
  | node type connectionID data =>
      refine ⟨h.1, fun id data' he => ?_⟩
      simp only [Datagram.node.injEq] at he
      exact h.2.1 he.1

namespace Guest

theorem mono {log' : List (List UInt8)} {pending' : List ℕ} (h : Guest cfg idA idB log pending j)
    (hlog : log <+: log') (hpending : ∀ n ∈ pending', n ∈ pending ∨ log.length ≤ n) :
    Guest cfg idA idB log' pending' j := by
  refine ⟨h.id, h.own, fun child hc => ?_, h.unknown, h.spoken, h.ordered⟩
  obtain ⟨s, horizon, obtained, hrec, hse, hsh, hlen, hpend, hreader⟩ := h.reader child hc
  refine ⟨s, horizon, obtained, hrec, hse, hsh, hlen.trans hlog.length_le, fun n hn => ?_,
    hreader.mono (take_since_mono (hsh.trans hlen) hlog le_rfl)⟩
  rcases hpending n hn with hn | hn
  · exact hpend n hn
  · exact hlen.trans hn

theorem expects_eq (h : Guest cfg idA idB log pending j) {child : Child}
    (hc : j.a.findConnection idB = some child) :
    Member.expects j.a idB = serial 16 j.expected := by
  obtain ⟨s, horizon, obtained, -, -, -, -, -, hreader⟩ := h.reader child hc
  rw [Member.expects, hc]
  exact hreader.sequence

theorem not_records {c : Connection} (hb : j.b.id = idB)
    (hnone : c.findConnection idB = none ↔ j.a.findConnection idB = none) :
    ¬ j.records c := by
  rintro ⟨h1, h2⟩
  rw [hb] at h1 h2
  exact h2 (hnone.2 h1)

/-- A step that leaves the child of the member in step with its stream and sends no ack to it. -/
theorem advanceA_of_reader (h : Guest cfg idA idB log pending j) (hb : j.b.id = idB) {c : Connection}
    {stamp : ℕ} {pending' : List ℕ} {new : List Datagram} (hid : c.id = idA)
    (hown : c.OwnPackets) (hpending : ∀ n ∈ pending', n ∈ pending)
    (hnone : c.findConnection idB = none ↔ j.a.findConnection idB = none)
    (hchild : ∀ child child', j.a.findConnection idB = some child →
      c.findConnection idB = some child' → child'.sequence = child.sequence ∧
        ∀ log e obtained, Reader log e obtained child → ∃ obtained', Reader log e obtained' child')
    (hsent : c.sent = j.a.sent ++ new)
    (hnew : ∀ d ∈ new, d.speaker = idA ∧ (∀ id data, d ≠ .node .exit id data) ∧
      ∀ r q, d ≠ .ack r idB q) :
    Guest cfg idA idB log pending' (j.advanceA stamp c) := by
  have hrec := not_records hb hnone
  have hexp : j.expected + (Member.expects c idB - Member.expects j.a idB).toNat = j.expected := by
    have heq : Member.expects c idB = Member.expects j.a idB := by
      cases hc : j.a.findConnection idB with
      | none => rw [Member.expects, Member.expects, hc, hnone.2 hc]
      | some child =>
          cases hc' : c.findConnection idB with
          | none => rw [hnone.1 hc'] at hc; cases hc
          | some child' =>
              rw [Member.expects, Member.expects, hc, hc']
              exact (hchild child child' hc hc').1
    rw [heq, BitVec.sub_self]
    rfl
  have hadv : j.advanceA stamp c = { j with
      a := c, counts := j.counts ++ new.map (Join.count idB j.expected) } := by
    simp only [Join.advanceA, if_neg hrec, hb, hexp, hsent, List.drop_left]
  rw [hadv]
  refine ⟨hid, hown, fun child' hc' => ?_, fun hc => h.unknown (hnone.1 hc), ?_, ?_⟩
  · cases hc : j.a.findConnection idB with
    | none => rw [hnone.2 hc] at hc'; cases hc'
    | some child =>
        obtain ⟨s, horizon, obtained, hs, hse, hsh, hlen, hpend, hreader⟩ := h.reader child hc
        obtain ⟨obtained', hreader'⟩ := (hchild child child' hc hc').2 _ _ _ hreader
        exact ⟨s, horizon, obtained', hs, hse, hsh, hlen, fun n hn => hpend n (hpending n hn),
          hreader'⟩
  · change List.Forall₂ _ _ c.sent
    rw [hsent]
    exact spoken_append h.spoken (fun s hs => ⟨hs, le_rfl⟩)
      (fun d hd => ⟨(hnew d hd).1, (hnew d hd).2.1, fun r q he => absurd he ((hnew d hd).2.2 r q)⟩)
  · change ((_ : List ℕ).zip c.sent).Pairwise _
    rw [hsent]
    exact ordered_append h.spoken h.ordered
      (fun _ => fresh_of_no_ack (fun d hd => (hnew d hd).2.2)) (fun _ d hd => (hnew d hd).2.2)

theorem advanceA_other (h : Guest cfg idA idB log pending j) (stamp : ℕ) (hb : j.b.id = idB)
    (hne : idA ≠ idB) {e : Event} {c : Connection} (hself : e.speaker ≠ some idA)
    (hheard : e.speaker ≠ some idB) (hpatient : j.a.Patient e)
    (hc : j.a.step cfg e = some c) : Guest cfg idA idB log pending (j.advanceA stamp c) := by
  obtain ⟨hid, hown⟩ := h.own.step (by rw [h.id]; exact hself) hpatient hc
  obtain ⟨new, hsent, hproper⟩ := sendsProper_step hpatient hc
  have hnew : ∀ d ∈ new, d.speaker = idA ∧ (∀ id data, d ≠ .node .exit id data) ∧
      ∀ r q, d ≠ .ack r idB q := by
    intro d hd
    obtain ⟨hspeaker, hexit⟩ := speaker_of_proper hown (hproper d hd)
    refine ⟨hspeaker.trans (hid.trans h.id), hexit, ?_⟩
    rintro r q rfl
    obtain ⟨x, hx, hxb⟩ := (hproper _ hd).2
    refine hheard ?_
    cases e with
    | packet newID y =>
        rw [Event.heard, Option.some.injEq] at hx
        rw [Event.speaker, hx, hxb]
    | _ => cases hx
  by_cases hreads : e.reads = some idB
  · obtain ⟨n, rfl⟩ : ∃ n, e = .read idB n := by
      cases e with
      | read writer n => exact ⟨n, congrArg (fun w => Event.read w n) (Option.some.inj hreads)⟩
      | _ => cases hreads
    simp only [Connection.step, Option.bind_eq_some_iff, Option.map_eq_some_iff] at hc
    obtain ⟨child, hfind, r, hr, rfl⟩ := hc
    obtain ⟨hrid, hrseq, -⟩ := Child.readSync_frame hr
    have hfind' : (j.a.updateChild idB (fun _ => r.1)).findConnection idB = some r.1 := by
      rw [findConnection_updateChild (fun _ _ => hrid.trans (Keyed.key_of_lookup hfind)),
        if_pos rfl, hfind, Option.map_some]
    refine h.advanceA_of_reader hb (hid.trans h.id) hown (fun _ hn => hn) ?_ ?_ hsent hnew
    · rw [hfind, hfind']
      simp
    · intro child₁ child₂ h1 h2
      rw [hfind, Option.some.injEq] at h1
      rw [hfind', Option.some.injEq] at h2
      subst h1 h2
      exact ⟨hrseq, fun log e obtained hreader => ⟨_, hreader.readSync hr⟩⟩
  · have hsame := findConnection_step_of_ne (by rw [h.id]; exact Ne.symm hne) hheard hreads
      hpatient hc
    refine h.advanceA_of_reader hb (hid.trans h.id) hown (fun _ hn => hn)
      (by rw [hsame]) ?_ hsent hnew
    intro child₁ child₂ h1 h2
    rw [hsame, h1, Option.some.injEq] at h2
    exact ⟨by rw [h2], fun log e obtained hreader => ⟨obtained, h2 ▸ hreader⟩⟩

theorem advanceA_progress (h : Guest cfg idA idB log pending j) (hb : j.b.id = idB) {c : Connection}
    {stamp horizon s e' : ℕ} {pending' : List ℕ} {new : List Datagram} {child child' : Child}
    {obtained : List UInt8} (hid : c.id = idA) (hown : c.OwnPackets)
    (hchild : j.a.findConnection idB = some child) (hchild' : c.findConnection idB = some child')
    (hs : j.recorded = some s) (hse : s ≤ j.expected) (hee : j.expected ≤ e')
    (hlt : e' < j.expected + 2 ^ 16) (hsh : s ≤ horizon) (hlen : horizon ≤ log.length)
    (hpending : ∀ n ∈ pending', horizon ≤ n)
    (hreader : Reader ((since s log).take horizon) e' obtained child')
    (hsent : c.sent = j.a.sent ++ new) (hfresh : Fresh idB j.expected e' new)
    (hnew : ∀ d ∈ new, Spoken idA idB j.recorded e' (Join.count idB e' d) d) :
    Guest cfg idA idB log pending' (j.advanceA stamp c) := by
  have hrec : ¬ j.records c := not_records hb (by rw [hchild, hchild']; simp)
  have hexp : j.expected + (Member.expects c idB - Member.expects j.a idB).toNat = e' := by
    rw [h.expects_eq hchild, Member.expects, hchild', Option.elim_some, hreader.sequence,
      toNat_serial_sub hee hlt]
    omega
  have hadv : j.advanceA stamp c = { j with
      a := c, expected := e', counts := j.counts ++ new.map (Join.count idB e') } := by
    simp only [Join.advanceA, if_neg hrec, hb, hexp, hsent, List.drop_left]
  rw [hadv]
  refine ⟨hid, hown, fun x hx => ?_, fun hc => ?_, ?_, ?_⟩
  · change c.findConnection idB = some x at hx
    rw [hchild', Option.some.injEq] at hx
    exact ⟨s, horizon, obtained, hs, hse.trans hee, hsh, hlen, hpending, hx ▸ hreader⟩
  · change c.findConnection idB = none at hc
    rw [hchild'] at hc
    cases hc
  · change List.Forall₂ _ _ c.sent
    rw [hsent]
    exact spoken_append h.spoken (fun s hs => ⟨hs, hee⟩) hnew
  · change ((_ : List ℕ).zip c.sent).Pairwise _
    rw [hsent]
    exact ordered_append h.spoken h.ordered (fun _ => hfresh) (fun hn => by rw [hs] at hn; cases hn)

theorem advanceA_record (h : Guest cfg idA idB log pending j) (hb : j.b.id = idB) {c : Connection}
    {n : ℕ} {pending' : List ℕ} {new : List Datagram} (hid : c.id = idA) (hown : c.OwnPackets)
    (hchild : j.a.findConnection idB = none)
    (hchild' : c.findConnection idB = some (Child.new cfg idB (serial 16 n)))
    (hn : n ≤ log.length) (hpending : ∀ m ∈ pending', n ≤ m) (hsent : c.sent = j.a.sent ++ new)
    (hnew : ∀ d ∈ new, d.speaker = idA ∧ (∀ id data, d ≠ .node .exit id data) ∧
      ∀ r q, d ≠ .ack r idB q) :
    Guest cfg idA idB log pending' (j.advanceA n c) := by
  have hrec : j.records c := by
    rw [Join.records, hb, hchild, hchild']
    exact ⟨rfl, by simp⟩
  have hunknown := h.unknown hchild
  have hadv : j.advanceA n c = { j with
      a := c, recorded := some n, expected := n
      counts := j.counts ++ new.map (Join.count idB n) } := by
    simp only [Join.advanceA, if_pos hrec, hb, hsent, List.drop_left]
  rw [hadv]
  refine ⟨hid, hown, fun x hx => ?_, fun hc => ?_, ?_, ?_⟩
  · change c.findConnection idB = some x at hx
    rw [hchild', Option.some.injEq] at hx
    subst hx
    refine ⟨n, n, [], rfl, le_rfl, le_rfl, hn, hpending, ⟨⟨?_, rfl, ?_, ?_, fun _ => rfl, ?_⟩, ?_⟩⟩
    · rw [List.length_take, length_since hn, min_eq_left hn]
    · exact fun q hq => by cases hq
    · exact fun b hb => by cases hb
    · have htake : ((since n log).take n).take n = List.replicate n [] := by
        rw [List.take_take, min_self, since]
        exact List.take_left' List.length_replicate
      rw [htake, List.flatten_replicate_nil]
      rfl
    · intro i b hb
      simp [Child.new] at hb
  · change c.findConnection idB = none at hc
    rw [hchild'] at hc
    cases hc
  · change List.Forall₂ _ _ c.sent
    rw [hsent]
    exact spoken_append h.spoken (fun s hs => by rw [hunknown] at hs; cases hs)
      (fun d hd => ⟨(hnew d hd).1, (hnew d hd).2.1, fun r q he => absurd he ((hnew d hd).2.2 r q)⟩)
  · change ((_ : List ℕ).zip c.sent).Pairwise _
    rw [hsent]
    exact ordered_append h.spoken h.ordered (fun hr => absurd hunknown hr)
      (fun _ d hd => (hnew d hd).2.2)

theorem advanceA_of_find_eq {stamp : ℕ} (h : Guest cfg idA idB log (stamp :: pending) j)
    (hb : j.b.id = idB) {c : Connection} (hid : c.id = idA) (hown : c.OwnPackets)
    (hfind : c.findConnection idB = j.a.findConnection idB) {new : List Datagram}
    (hsent : c.sent = j.a.sent ++ new)
    (hnew : ∀ x ∈ new, x.speaker = idA ∧ (∀ id data, x ≠ .node .exit id data) ∧
      ∀ r q, x ≠ .ack r idB q) :
    Guest cfg idA idB log pending (j.advanceA stamp c) := by
  refine h.advanceA_of_reader hb hid hown (fun n hn => List.mem_cons_of_mem _ hn) (by rw [hfind])
    (fun x y hx hy => ?_) hsent hnew
  rw [hfind, hx, Option.some.injEq] at hy
  exact ⟨by rw [hy], fun _ _ o hr => ⟨o, hy ▸ hr⟩⟩

theorem advanceA_of_sent_eq {stamp : ℕ} (h : Guest cfg idA idB log (stamp :: pending) j)
    (hb : j.b.id = idB) {c : Connection} (hid : c.id = idA) (hown : c.OwnPackets)
    (hfind : c.findConnection idB = j.a.findConnection idB) (hsent : c.sent = j.a.sent) :
    Guest cfg idA idB log pending (j.advanceA stamp c) :=
  h.advanceA_of_find_eq hb hid hown hfind (hsent.trans (List.append_nil _).symm)
    (fun _ hx => absurd hx List.not_mem_nil)

theorem advanceA_handleData {stamp : ℕ} (h : Guest cfg idA idB log (stamp :: pending) j)
    (hb : j.b.id = idB) {d : DatagramData} {i : ℕ} (hp : Packet idB log i d) (hi : i < stamp)
    (hwin : stamp ≤ i + cfg.numBuffers) (hstamp : stamp ≤ log.length)
    (hsorted : ∀ n ∈ pending, stamp ≤ n)
    (hnear : j.recorded ≠ none → log.length ≤ j.expected + cfg.numBuffers)
    (hnb : cfg.numBuffers < 32767) (hid : (j.a.handleData cfg d).id = idA)
    (hown : (j.a.handleData cfg d).OwnPackets) :
    Guest cfg idA idB log pending (j.advanceA stamp (j.a.handleData cfg d)) := by
  rcases handleData_cases cfg d j.a with ⟨-, hc⟩ | ⟨child, queue, ds, hfind, hds, hc⟩
  · rw [hc]
    exact h.advanceA_of_sent_eq hb h.id h.own rfl rfl
  rw [hp.writer] at hfind hds hc
  rw [h.id] at hds hc
  obtain ⟨s, horizon, obtained, hs, hse, hsh, hlen, hpend, hreader⟩ := h.reader child hfind
  have hhor : horizon ≤ stamp := hpend stamp List.mem_cons_self
  have hlog := hnear (by rw [hs]; simp)
  have hreader := hreader.mono (take_since_mono (hsh.trans hlen) List.prefix_rfl hhor)
  have hstream : ((since s log).take stamp).length = stamp := by
    rw [List.length_take, length_since (hsh.trans hlen), min_eq_left hstamp]
  have hle := hreader.le
  rw [hstream] at hle
  obtain ⟨e', hee, hreader', hacks⟩ : ∃ e', j.expected ≤ e' ∧
      Reader ((since s log).take stamp) e' obtained (child.handleData cfg idA d).1 ∧
      AckedBetween j.expected e' (child.handleData cfg idA d).2.1 := by
    rcases lt_or_ge i j.expected with hlt | hge
    · rw [handleData_of_lt idA hreader.sequence hp.sequence hlt (by omega) hnb]
      exact ⟨j.expected, le_rfl, hreader, ackedBetween_nil _ _⟩
    · refine hreader.handleData cfg idA ?_ hp.full hp.sequence (by omega) (by omega) hnb
      rw [List.getElem?_take_of_lt hi, getElem?_since (hse.trans hge)]
      exact hp.contents
  have hle' := hreader'.le
  rw [hstream] at hle'
  obtain ⟨hacks, hordered⟩ := acksUpTo_data hacks (by omega) hds
  have hcid : (child.handleData cfg idA d).1.id = idB :=
    (Child.handleData_frame cfg idA d child).1.trans (Keyed.key_of_lookup hfind)
  refine h.advanceA_progress hb hid hown hfind ?_ hs hse hee
    (by omega) (hsh.trans hhor) hstamp hsorted hreader' (by rw [hc]; exact List.append_assoc _ _ _)
    ⟨fun x hx => ((hacks x hx).spoken (by omega) hs hse).2, hordered⟩
    (fun x hx => ((hacks x hx).spoken (by omega) hs hse).1)
  rw [hc]
  refine (findConnection_updateChild (c := j.a) (fun _ _ => hcid) idB).trans ?_
  rw [if_pos rfl, hfind, Option.map_some]

theorem advanceA_handleAckRequest {stamp : ℕ} (h : Guest cfg idA idB log (stamp :: pending) j)
    (hb : j.b.id = idB) (reqID : U16) (hid : (j.a.handleAckRequest cfg idB reqID).id = idA)
    (hown : (j.a.handleAckRequest cfg idB reqID).OwnPackets) :
    Guest cfg idA idB log pending (j.advanceA stamp (j.a.handleAckRequest cfg idB reqID)) := by
  obtain ⟨queue, ds, hds, hc⟩ := handleAckRequest_cases cfg idB reqID j.a
  rw [h.id] at hds
  have hfind : (j.a.handleAckRequest cfg idB reqID).findConnection idB =
      j.a.findConnection idB := by
    rw [hc]
    rfl
  cases hchild : j.a.findConnection idB with
  | none =>
      refine h.advanceA_of_reader hb hid hown (fun n hn => List.mem_cons_of_mem _ hn) (by rw [hfind])
        (fun x y hx => by rw [hchild] at hx; cases hx) (by rw [hc]) (fun d hd => ?_)
      rcases hds d hd with ⟨nacks, rfl⟩ | ⟨child, hx, -⟩
      · exact ⟨rfl, by simp, by simp⟩
      · rw [hchild] at hx
        cases hx
  | some child =>
      obtain ⟨s, horizon, obtained, hs, hse, hsh, hlen, hpend, hreader⟩ := h.reader child hchild
      have hacks : ∀ d ∈ ds, AcksUpTo idA idB j.expected j.expected d := by
        intro d hd
        rcases hds d hd with ⟨nacks, rfl⟩ | ⟨child', hx, rfl⟩
        · exact Or.inr ⟨idB, nacks, rfl⟩
        · rw [hchild, Option.some.injEq] at hx
          exact Or.inl ⟨j.expected, le_rfl, le_rfl, by rw [← hx, hreader.sequence]⟩
      exact h.advanceA_progress hb hid hown hchild (by rw [hfind, hchild]) hs hse le_rfl
        (by omega) hsh hlen
        (fun n hn => hpend n (List.mem_cons_of_mem _ hn)) hreader (by rw [hc])
        ⟨fun d hd => ((hacks d hd).spoken (by omega) hs hse).2, acksUpTo_request hacks⟩
        (fun d hd => ((hacks d hd).spoken (by omega) hs hse).1)

theorem advanceA_handleAck {stamp : ℕ} (h : Guest cfg idA idB log (stamp :: pending) j)
    (hb : j.b.id = idB) (w q : U16) (hid : (j.a.handleAck cfg idB w q).id = idA)
    (hown : (j.a.handleAck cfg idB w q).OwnPackets) :
    Guest cfg idA idB log pending (j.advanceA stamp (j.a.handleAck cfg idB w q)) := by
  have hcase : (j.a.handleAck cfg idB w q).sent = j.a.sent ∧
      ((j.a.handleAck cfg idB w q).findConnection idB = j.a.findConnection idB ∨
        (j.a.handleAck cfg idB w q).findConnection idB =
          (j.a.findConnection idB).map (Child.setAcked q)) := by
    have hrec := (findConnection_recordAck (c := j.a) idB q idB).trans (if_pos rfl)
    rcases handleAck_cases cfg idB w q j.a with ⟨-, hc⟩ | ⟨_, -, -, -, ⟨-, hc⟩ | ⟨_, -, -, hc⟩⟩
    · rw [hc]
      exact ⟨rfl, Or.inl rfl⟩
    · rw [hc]
      exact ⟨rfl, Or.inr hrec⟩
    · rw [hc]
      exact ⟨rfl, Or.inr hrec⟩
  refine h.advanceA_of_reader hb hid hown (fun n hn => List.mem_cons_of_mem _ hn) ?_
    (fun x y hx hy => ?_)
    (by rw [hcase.1, List.append_nil]) (by simp)
  · rcases hcase.2 with he | he <;> rw [he]
    exact Option.map_eq_none_iff
  · rcases hcase.2 with he | he <;> rw [he, hx] at hy
    · rw [Option.some.injEq] at hy
      exact ⟨by rw [hy], fun _ _ o hr => ⟨o, hy ▸ hr⟩⟩
    · rw [Option.map_some, Option.some.injEq] at hy
      subst hy
      exact ⟨rfl, fun _ _ o hr =>
        ⟨o, ⟨hr.le, hr.sequence, hr.ready, hr.current, hr.fresh, hr.stream⟩, hr.pending⟩⟩

/-- A reply of the member records it, unless it is known. -/
theorem advanceA_addConnection {stamp : ℕ} (h : Guest cfg idA idB log (stamp :: pending) j)
    (hb : j.b.id = idB) (hstamp : stamp ≤ log.length) (hsorted : ∀ n ∈ pending, stamp ≤ n)
    (hid : (j.a.addConnection cfg idB (serial 16 stamp)).id = idA)
    (hown : (j.a.addConnection cfg idB (serial 16 stamp)).OwnPackets) :
    Guest cfg idA idB log pending
      (j.advanceA stamp (j.a.addConnection cfg idB (serial 16 stamp))) := by
  cases hchild : j.a.findConnection idB with
  | some child =>
      rw [addConnection_of_known hchild] at hid hown ⊢
      exact h.advanceA_of_sent_eq hb hid hown rfl rfl
  | none =>
      obtain ⟨ds, hds, hc⟩ := addConnection_eq cfg j.a (serial 16 stamp) hchild
      refine h.advanceA_record hb hid hown hchild
        (findConnection_addConnection_self hchild _) hstamp hsorted
        (by rw [hc]) (fun d hd => ?_)
      obtain ⟨count, rfl⟩ := hds d hd
      exact ⟨h.id, by simp, by simp⟩

theorem advanceA_checkNewID {stamp : ℕ} (h : Guest cfg idA idB log (stamp :: pending) j)
    (hb : j.b.id = idB) {a : Connection} {id : U16} (hid : (a.checkNewID id).id = idA)
    (hown : (a.checkNewID id).OwnPackets) (ha : a.id = idA)
    (hfind : a.findConnection idB = j.a.findConnection idB) (hsent : a.sent = j.a.sent) :
    Guest cfg idA idB log pending (j.advanceA stamp (a.checkNewID id)) := by
  unfold checkNewID at hid hown ⊢
  split_ifs at hid hown ⊢
  · exact h.advanceA_of_find_eq hb hid hown hfind
      (show _ = j.a.sent ++ [.node .deny a.id a.sequence] by rw [← hsent]; rfl)
      (by simp [Datagram.speaker, ha])
  · exact h.advanceA_of_find_eq hb hid hown hfind
      (show _ = j.a.sent ++ [.node .helloReply a.id a.sequence] by rw [← hsent]; rfl)
      (by simp [Datagram.speaker, ha])

theorem advanceA_handleInitData {stamp : ℕ} (h : Guest cfg idA idB log (stamp :: pending) j)
    (hb : j.b.id = idB)
    (hstamp : stamp ≤ log.length) (hsorted : ∀ n ∈ pending, stamp ≤ n) {type : NodeType} {data : U16}
    (hexit : type ≠ .exit) (hconfirm : type ≠ .confirm)
    (hdata : type = .helloReply → data = serial 16 stamp) (connected : Bool)
    (hid : (j.a.handleInitData cfg connected type idB data).id = idA)
    (hown : (j.a.handleInitData cfg connected type idB data).OwnPackets) :
    Guest cfg idA idB log pending
      (j.advanceA stamp (j.a.handleInitData cfg connected type idB data)) := by
  cases type with
  | hello =>
      exact h.advanceA_checkNewID hb
        (a := if connected then j.a else { j.a with timeouts := 0 }) hid hown
        (by split_ifs <;> exact h.id) (by split_ifs <;> rfl) (by split_ifs <;> rfl)
  | confirm => exact absurd rfl hconfirm
  | countNode => exact h.advanceA_of_sent_eq hb hid hown rfl rfl
  | helloReply =>
      obtain rfl := hdata rfl
      exact h.advanceA_addConnection hb hstamp hsorted hid hown
  | exit => exact absurd rfl hexit
  | deny => exact h.advanceA_of_sent_eq hb hid hown rfl rfl

theorem advanceA_handleAcceptIDData {stamp : ℕ} (h : Guest cfg idA idB log (stamp :: pending) j)
    (hb : j.b.id = idB) (hne : idA ≠ idB) (hstamp : stamp ≤ log.length)
    (hsorted : ∀ n ∈ pending, stamp ≤ n) {type : NodeType} {data : U16} (hexit : type ≠ .exit)
    (hconfirm : type ≠ .confirm) (hdata : type = .helloReply → data = serial 16 stamp)
    (hid : (j.a.handleAcceptIDData cfg 0 type idB data).id = idA)
    (hown : (j.a.handleAcceptIDData cfg 0 type idB data).OwnPackets) :
    Guest cfg idA idB log pending
      (j.advanceA stamp (j.a.handleAcceptIDData cfg 0 type idB data)) := by
  cases type with
  | hello => exact h.advanceA_checkNewID hb hid hown h.id rfl rfl
  | confirm => exact absurd rfl hconfirm
  | countNode => exact h.advanceA_of_sent_eq hb hid hown rfl rfl
  | helloReply =>
      obtain rfl := hdata rfl
      exact h.advanceA_addConnection hb hstamp hsorted hid hown
  | exit => exact absurd rfl hexit
  | deny =>
      have hself : idB ≠ j.a.id := by rw [h.id]; exact Ne.symm hne
      have hsame : j.a.handleAcceptIDData cfg 0 .deny idB data = j.a := by
        simp only [handleAcceptIDData, if_neg hself]
      rw [hsame] at hid hown ⊢
      exact h.advanceA_of_sent_eq hb hid hown rfl rfl

theorem advanceA_packet {stamp : ℕ} (h : Guest cfg idA idB log (stamp :: pending) j)
    (hb : j.b.id = idB) (hne : idA ≠ idB) {d : Datagram} (hst : Stamped cfg idB log stamp d)
    (hsorted : ∀ n ∈ pending, stamp ≤ n)
    (hnear : j.recorded ≠ none → log.length ≤ j.expected + cfg.numBuffers)
    (hnb : cfg.numBuffers < 32767) {c : Connection}
    (hc : j.a.step cfg (.packet 0 d) = some c) :
    Guest cfg idA idB log pending (j.advanceA stamp c) := by
  obtain ⟨hstamp, hspeaker, hkind⟩ := hst
  obtain ⟨hid, hown⟩ := h.own.step (e := .packet 0 d)
    (by rw [h.id, Event.speaker, hspeaker]; exact fun he => hne (Option.some.inj he).symm)
    trivial hc
  rw [h.id] at hid
  simp only [Connection.step, Option.ite_none_right_eq_some, Option.some.injEq] at hc
  obtain ⟨-, rfl⟩ := hc
  cases d with
  | data d =>
      obtain ⟨i, hi, hwin, hp⟩ := hkind
      rw [handlePacket] at hid hown ⊢
      split_ifs at hid hown ⊢
      · exact h.advanceA_handleData hb hp hi hwin hstamp hsorted hnear hnb hid hown
      · exact h.advanceA_of_sent_eq hb hid hown rfl rfl
  | ackReq w reqID =>
      change w = idB at hspeaker
      subst hspeaker
      rw [handlePacket] at hid hown ⊢
      split_ifs at hid hown ⊢
      · exact h.advanceA_handleAckRequest hb reqID hid hown
      · exact h.advanceA_of_sent_eq hb hid hown rfl rfl
  | nack r w nacks =>
      rw [handlePacket] at hid hown ⊢
      split_ifs at hid hown ⊢
      · obtain ⟨_, _, hn⟩ := handleNack_cases r w nacks j.a
        rw [hn] at hid hown ⊢
        exact h.advanceA_of_sent_eq hb hid hown rfl rfl
      · exact h.advanceA_of_sent_eq hb hid hown rfl rfl
  | ack r w q =>
      change r = idB at hspeaker
      subst hspeaker
      rw [handlePacket] at hid hown ⊢
      split_ifs at hid hown ⊢
      · exact h.advanceA_handleAck hb w q hid hown
      · exact h.advanceA_of_sent_eq hb hid hown rfl rfl
  | node type id data =>
      change id = idB at hspeaker
      subst hspeaker
      obtain ⟨hexit, hconfirm, hdata⟩ := hkind
      rw [handlePacket] at hid hown ⊢
      split_ifs at hid hown ⊢
      · exact h.advanceA_handleInitData hb hstamp hsorted hexit hconfirm hdata true hid hown
      · exact h.advanceA_handleInitData hb hstamp hsorted hexit hconfirm hdata false hid hown
      · exact h.advanceA_handleAcceptIDData hb hne hstamp hsorted hexit hconfirm hdata hid hown

end Guest
end Collage.Rsp
