import Collage.Rsp.Reorder

/-!
# The early nack

`_handleData` asks at once for the packets missing before a packet that it stores out of order. The
range should begin behind the newest packet received before that one. It begins two numbers early,
and the packet directly before the stored one is not looked at when it is the first of the queue.
-/

namespace Collage.Rsp

namespace Child

/-- The number that follows the expected one by `k`. -/
def number (c : Child) (k : ℕ) : U16 := c.sequence + BitVec.ofNat 16 k

/-- An out-of-order packet that `_handleData` stores. -/
structure Stores (cfg : Config) (c : Child) (d : DatagramData) : Prop where
  unexpected : c.sequence ≠ d.sequence
  inWindow : ignores cfg.numBuffers c.sequence d.sequence = false
  missing : c.received (c.distance d - 1) = false
  free : c.threadBuffers ≠ []

/-- The packets from `k` numbers behind the expected one up to the given packet are all missing. -/
def Gap (c : Child) (d : DatagramData) (k : ℕ) : Prop :=
  k < c.distance d ∧ ∀ j, k ≤ j + 1 → j + 1 < c.distance d → c.received j = false

/-- What an early nack should say. It is left out exactly when the directly preceding packet has
been received. It names missing packets before the current one only, and all of those behind the
newest one received, up to the highest number. -/
structure NackPrecise (c : Child) (d : DatagramData) (nack : Option Nack) : Prop where
  silent : nack = none ↔ 2 ≤ c.distance d ∧ c.received (c.distance d - 2) = true
  precise : ∀ r, nack = some r → ∀ n, r.names n → (n - c.sequence).toNat < c.distance d ∧
    ∀ (i : ℕ) (b : Buffer), c.recvBuffers[i]? = some (some b) → b.data.sequence ≠ n
  complete : ∀ k, c.Gap d k →
    (∀ k', k' ≤ k → c.Gap d k' → c.number k' ≤ c.number k) →
    ∃ r, nack = some r ∧ r.names (c.number k)

/-- The packet directly before the stored one is looked at, or nothing at all has been received
before it. -/
def NackReliable (c : Child) (d : DatagramData) : Prop :=
  (3 ≤ c.distance d ∧ c.received (c.distance d - 2) = true) ∨
    ∀ j, j + 1 < c.distance d → c.received j = false

theorem toNat_number (c : Child) (k : ℕ) : (c.number k).toNat = (c.sequence.toNat + k) % 65536 := by
  simp [number, BitVec.toNat_add, BitVec.toNat_ofNat]

theorem number_sub_one (c : Child) (d : DatagramData) (h : 0 < c.distance d) :
    d.sequence - 1 = c.number (c.distance d - 1) := by
  rw [sequence_eq c d h, number]
  abel

/-- Whether an entry of a reorder queue is filled. -/
def filled (queue : List (Option Buffer)) (i : ℕ) : Bool := (queue[i]?).join.isSome

theorem lastReceived_cases (queue : List (Option Buffer)) :
    (lastReceived queue = none ∧ ∀ j, filled queue j = false) ∨
      ∃ i, lastReceived queue = some i ∧ filled queue i = true ∧
        ∀ j, i < j → filled queue j = false := by
  induction queue with
  | nil => exact Or.inl ⟨rfl, fun _ => rfl⟩
  | cons b rest ih =>
      rcases ih with ⟨hnone, hempty⟩ | ⟨i, hsome, hfilled, hempty⟩
      · have htail : ∀ j, 0 < j → filled (b :: rest) j = false := by
          intro j hj
          obtain ⟨j, rfl⟩ := Nat.exists_eq_add_of_le' hj
          exact hempty j
        cases b with
        | none =>
            left
            constructor
            · simp [lastReceived, hnone]
            · intro j
              rcases Nat.eq_zero_or_pos j with rfl | hj
              · rfl
              · exact htail j hj
        | some b => exact Or.inr ⟨0, by simp [lastReceived, hnone], rfl, htail⟩
      · refine Or.inr ⟨i + 1, by simp [lastReceived, hsome], hfilled, ?_⟩
        intro j hj
        obtain ⟨j, rfl⟩ := Nat.exists_eq_add_of_le' (Nat.zero_lt_of_lt hj)
        exact hempty j (by omega)

theorem filled_set {queue : List (Option Buffer)} {size j : ℕ} {b : Option Buffer}
    (hj : j + 1 < size) :
    filled ((queue ++ List.replicate (size - queue.length) none).set (size - 1) b) j =
      filled queue j := by
  rw [filled, List.getElem?_set_ne (by omega)]
  rcases lt_or_ge j queue.length with hlt | hge
  · rw [List.getElem?_append_left hlt, filled]
  · rw [List.getElem?_append_right hge, List.getElem?_replicate, if_pos (by omega), filled,
      List.getElem?_eq_none hge]
    rfl

theorem filled_take {queue : List (Option Buffer)} {size j : ℕ} :
    filled (queue.take size) j = (decide (j < size) && filled queue j) := by
  rw [filled, List.getElem?_take]
  split_ifs with h
  · simp [h, filled]
  · simp [h]

variable {cfg : Config} {parentID : U16} {c : Child} {d : DatagramData}

/-- The nack of a stored packet: none, one from the expected number on, or one from the number two
before the end of the newest packet received. -/
theorem handleData_nack (h : c.Stores cfg d) :
    (3 ≤ c.distance d ∧ c.received (c.distance d - 2) = true ∧
      (c.handleData cfg parentID d).2.2 = none) ∨
    ((∀ j, j + 1 < c.distance d → c.received j = false) ∨
        c.distance d = 2 ∧ c.received 0 = true) ∧
      (c.handleData cfg parentID d).2.2 = some ⟨c.sequence,
        if d.sequence - 1 < c.sequence then BitVec.allOnes 16 else d.sequence - 1⟩ ∨
    ∃ i, i + 2 < c.distance d ∧ c.received i = true ∧
      (∀ j, i < j → j + 1 < c.distance d → c.received j = false) ∧
      (c.handleData cfg parentID d).2.2 = some ⟨c.number i,
        if d.sequence - 1 < c.number i then BitVec.allOnes 16 else d.sequence - 1⟩ := by
  obtain ⟨a, free, hq⟩ := List.exists_cons_of_ne_nil h.free
  have hpos := distance_pos h.unexpected
  have hmiss : (c.recvBuffers[(d.sequence - c.sequence).toNat - 1]?).join.isSome = false := h.missing
  have heq : (c.handleData cfg parentID d).2.2 = earlyNack c.sequence d.sequence
      ((c.recvBuffers ++ List.replicate (c.distance d - c.recvBuffers.length) none).set
        (c.distance d - 1) (some { a with data := d })) (c.distance d) := by
    simp only [handleData, h.unexpected, h.inWindow, hmiss, newDataBuffer, hq, if_false,
      Bool.false_eq_true, distance]
  rw [heq, earlyNack]
  set queue := (c.recvBuffers ++ List.replicate (c.distance d - c.recvBuffers.length) none).set
    (c.distance d - 1) (some { a with data := d })
  have hfilled : ∀ j, j + 1 < c.distance d → filled queue j = c.received j :=
    fun j hj => filled_set hj
  by_cases hthree : 3 ≤ c.distance d
  · by_cases hprev : c.received (c.distance d - 2) = true
    · left
      refine ⟨hthree, hprev, if_pos ⟨hthree, ?_⟩⟩
      rw [← hprev]
      exact hfilled _ (by omega)
    · right
      rw [if_neg (by
        rintro ⟨-, hp⟩
        exact hprev ((hfilled _ (by omega)).symm.trans hp)), if_pos hthree]
      have htake : ∀ j, j + 1 < c.distance d →
          filled (queue.take (c.distance d - 1)) j = c.received j := by
        intro j hj
        rw [filled_take, hfilled j hj, decide_eq_true (by omega), Bool.true_and]
      rcases lastReceived_cases (queue.take (c.distance d - 1)) with
        ⟨hnone, hempty⟩ | ⟨i, hsome, hi, hempty⟩
      · left
        rw [hnone]
        exact ⟨Or.inl (fun j hj => (htake j hj).symm.trans (hempty j)), rfl⟩
      · right
        have hlt : i < c.distance d - 1 := by
          rw [filled_take, Bool.and_eq_true] at hi
          exact of_decide_eq_true hi.1
        have hreceived : c.received i = true := (htake i (by omega)).symm.trans hi
        have hne : i ≠ c.distance d - 2 := fun heq => hprev (heq ▸ hreceived)
        rw [hsome]
        exact ⟨i, by omega, hreceived,
          fun j hij hj => (htake j hj).symm.trans (hempty j hij), rfl⟩
  · right
    left
    rw [if_neg (fun hp => hthree hp.1), if_neg hthree]
    refine ⟨?_, rfl⟩
    by_cases hfirst : c.distance d = 2 ∧ c.received 0 = true
    · exact Or.inr hfirst
    · left
      intro j hj
      have hj0 : j = 0 := by omega
      subst hj0
      rw [← Bool.not_eq_true]
      exact fun hr => hfirst ⟨by omega, hr⟩

theorem le_allOnes (n : U16) : n ≤ BitVec.allOnes 16 := by
  change n.toNat ≤ 65535
  have := n.isLt
  omega

theorem distance_lt (c : Child) (d : DatagramData) : c.distance d < 65536 :=
  (d.sequence - c.sequence).isLt

theorem received_eq_true {i : ℕ} (h : c.received i = true) :
    ∃ b, c.recvBuffers[i]? = some (some b) := by
  obtain ⟨b, hb⟩ := Option.isSome_iff_exists.1 h
  exact ⟨b, Option.join_eq_some_iff.1 hb⟩

/-- The whole range from the expected number up to the stored packet is asked for when nothing in
it has been received. -/
theorem nackPrecise_of_gap (hr : Reordered cfg.numBuffers c) (hpos : 0 < c.distance d)
    (hgap : ∀ j, j + 1 < c.distance d → c.received j = false) :
    c.NackPrecise d (some ⟨c.sequence,
      if d.sequence - 1 < c.sequence then BitVec.allOnes 16 else d.sequence - 1⟩) := by
  have hn := distance_lt c d
  have hc := c.sequence.isLt
  have hstop : (d.sequence - 1).toNat = (c.sequence.toNat + (c.distance d - 1)) % 65536 := by
    rw [number_sub_one c d hpos, toNat_number]
  constructor
  · simp only [reduceCtorEq, false_iff, not_and, Bool.not_eq_true]
    exact fun htwo => hgap _ (by omega)
  · rintro r hr' n ⟨hlo, hhi⟩
    rw [← Option.some.inj hr'] at hlo hhi
    have hlow : c.sequence.toNat ≤ n.toNat := hlo
    have hdist : (n - c.sequence).toNat = n.toNat - c.sequence.toNat := by
      have := n.isLt
      rw [BitVec.toNat_sub]
      omega
    have hlt : (n - c.sequence).toNat < c.distance d := by
      rw [hdist]
      change n ≤ (if _ then _ else _) at hhi
      split_ifs at hhi with hw
      · have hw' : (d.sequence - 1).toNat < c.sequence.toNat := hw
        have := n.isLt
        omega
      · have hw' : ¬ (d.sequence - 1).toNat < c.sequence.toNat := hw
        have hhi' : n.toNat ≤ (d.sequence - 1).toNat := hhi
        omega
    refine ⟨hlt, ?_⟩
    rintro i b hb rfl
    have hi : i < c.recvBuffers.length := (List.getElem?_eq_some_iff.1 hb).1
    have hlen := hr.length
    have hnum := cfg.numBuffers_lt
    have hsub : (b.data.sequence - c.sequence).toNat = i + 1 := by
      rw [hr.held i b hb, show c.sequence + 1 + BitVec.ofNat 16 i - c.sequence =
        BitVec.ofNat 16 (i + 1) by
          rw [← Reordered.add_ofNat_succ]
          abel, BitVec.toNat_ofNat]
      omega
    have hmiss := hgap i (by omega)
    rw [received, hb] at hmiss
    cases hmiss
  · intro k hk hfirst
    have hzero := hfirst 0 (Nat.zero_le k) ⟨hpos, fun j _ hj => hgap j hj⟩
    have hle : (c.sequence.toNat + 0) % 65536 ≤ (c.sequence.toNat + k) % 65536 := by
      rw [← toNat_number, ← toNat_number]
      exact hzero
    have hk' := hk.1
    refine ⟨_, rfl, ?_, ?_⟩
    · change c.sequence.toNat ≤ (c.number k).toNat
      rw [toNat_number]
      omega
    · change c.number k ≤ (if _ then _ else _)
      split_ifs with hw
      · exact le_allOnes _
      · have hw' : ¬ (d.sequence - 1).toNat < c.sequence.toNat := hw
        change (c.number k).toNat ≤ _
        rw [hstop, toNat_number]
        omega

/-- A range that begins two numbers early names the packet received before it, or nothing but the
highest number. -/
theorem not_nackPrecise {i : ℕ} (hr : Reordered cfg.numBuffers c) (hi : i + 2 < c.distance d)
    (hreceived : c.received i = true)
    (hnewest : ∀ j, i < j → j + 1 < c.distance d → c.received j = false) :
    ¬ c.NackPrecise d (some ⟨c.number i,
      if d.sequence - 1 < c.number i then BitVec.allOnes 16 else d.sequence - 1⟩) := by
  intro h
  have hn := distance_lt c d
  have hc := c.sequence.isLt
  have hstop : (d.sequence - 1).toNat = (c.sequence.toNat + (c.distance d - 1)) % 65536 := by
    rw [number_sub_one c d (by omega), toNat_number]
  have hstart := c.toNat_number i
  by_cases hmax : (c.number i).toNat = 65535
  · obtain ⟨r, hr', hlo, -⟩ := h.complete (i + 2)
      ⟨hi, fun j hij hj => hnewest j (by omega) hj⟩ (by
        intro k' hk' hgap
        rcases Nat.lt_or_ge k' (i + 2) with hlt | hge
        · have hfalse := hgap.2 i (by omega) (by omega)
          rw [hreceived] at hfalse
          cases hfalse
        · rw [show k' = i + 2 by omega]
          exact BitVec.le_refl _)
    rw [← Option.some.inj hr'] at hlo
    have hlo' : (c.number i).toNat ≤ (c.number (i + 2)).toNat := hlo
    rw [toNat_number c (i + 2)] at hlo'
    omega
  · obtain ⟨b, hb⟩ := received_eq_true hreceived
    have hnames : (⟨c.number i, if d.sequence - 1 < c.number i then BitVec.allOnes 16
        else d.sequence - 1⟩ : Nack).names (c.number (i + 1)) := by
      have hnext := c.toNat_number (i + 1)
      constructor
      · change (c.number i).toNat ≤ (c.number (i + 1)).toNat
        omega
      · change c.number (i + 1) ≤ (if _ then _ else _)
        split_ifs with hw
        · exact le_allOnes _
        · have hw' : ¬ (d.sequence - 1).toNat < (c.number i).toNat := hw
          change (c.number (i + 1)).toNat ≤ _
          omega
    apply (h.precise _ rfl _ hnames).2 i b hb
    rw [hr.held i b hb, number, Reordered.add_ofNat_succ]

end Child

/-- The early nack is as precise as intended exactly when the packet directly before the stored
one is found, or nothing was received before it. -/
theorem early_nack_precise_iff (cfg : Config) (parentID : U16) (c : Child) (d : DatagramData)
    (hr : Reordered cfg.numBuffers c) (hs : c.Stores cfg d) :
    c.NackPrecise d (c.handleData cfg parentID d).2.2 ↔ c.NackReliable d := by
  rcases @Child.handleData_nack cfg parentID c d hs with
    ⟨hthree, hprev, heq⟩ | ⟨hgap | ⟨htwo, hfirst⟩, heq⟩ | ⟨i, hi, hreceived, hnewest, heq⟩
  · refine iff_of_true ?_ (Or.inl ⟨hthree, hprev⟩)
    rw [heq]
    constructor
    · exact iff_of_true rfl ⟨by omega, hprev⟩
    · intro r hr'
      cases hr'
    · intro k hk
      have hfalse := hk.2 (c.distance d - 2) (by have := hk.1; omega) (by omega)
      rw [hprev] at hfalse
      cases hfalse
  · rw [heq]
    exact iff_of_true (Child.nackPrecise_of_gap hr (Child.distance_pos hs.unexpected) hgap)
      (Or.inr hgap)
  · rw [heq]
    refine iff_of_false ?_ ?_
    · intro h
      have hnone := h.silent.2 ⟨by omega, by rw [htwo]; exact hfirst⟩
      cases hnone
    · rintro (⟨hthree, -⟩ | hgap)
      · omega
      · rw [hgap 0 (by omega)] at hfirst
        cases hfirst
  · rw [heq]
    refine iff_of_false (Child.not_nackPrecise hr hi hreceived hnewest) ?_
    rintro (⟨-, hprev⟩ | hgap)
    · rw [hnewest _ (by omega) (by omega)] at hprev
      cases hprev
    · rw [hgap i (by omega)] at hreceived
      cases hreceived

/-- Packet 12 arrives while 10 is expected, and the nack asks for 10 and 11. -/
theorem early_nack_precise_iff_two_missing :
    ((Child.new (.tiny 4) 3 10).handleData (.tiny 4) 7 ⟨1, 3, 12, [9]⟩).2.2 = some ⟨10, 11⟩ ∧
      (Child.new (.tiny 4) 3 10).NackPrecise ⟨1, 3, 12, [9]⟩ (some ⟨10, 11⟩) := by
  have hs : (Child.new (.tiny 4) 3 10).Stores (.tiny 4) ⟨1, 3, 12, [9]⟩ :=
    ⟨by decide, by decide, by decide, by decide⟩
  have h := early_nack_precise_iff (.tiny 4) 7 (Child.new (.tiny 4) 3 10) ⟨1, 3, 12, [9]⟩
    (Reordered.new 3 10) hs
  exact ⟨by decide, h.2 (Or.inr (fun _ _ => rfl))⟩

/-- Packets 12 and 14 arrive while 10 is expected, and the second nack asks for 12 again. -/
theorem early_nack_names_received :
    ∃ c d, Reordered 4 c ∧ c.Stores (.tiny 4) d ∧
      ¬ c.NackPrecise d (c.handleData (.tiny 4) 7 d).2.2 := by
  let c := ((Child.new (.tiny 4) 3 10).handleData (.tiny 4) 7 ⟨1, 3, 12, [9]⟩).1
  refine ⟨c, ⟨1, 3, 14, [9]⟩, ?_, ⟨by decide, by decide, by decide, by decide⟩, ?_⟩
  · have hnew : Reordered (Config.tiny 4).numBuffers (Child.new (.tiny 4) 3 10) :=
      Reordered.new 3 10
    apply hnew.handleData
    decide
  · intro h
    exact (h.precise ⟨11, 13⟩ (by decide) 12 (by decide)).2 1 ⟨0, ⟨1, 3, 12, [9]⟩⟩ (by decide) rfl

end Collage.Rsp
