import Collage.Rsp.Timeout

/-!
# Readers closed by a send timeout

When a writer has waited too long, `_handleConnectedTimeout` closes the readers that lag behind and
sets the cursors of the others back to the oldest packet kept. It compares cursors as plain
numbers, so a reader that lags across the highest number looks as if it were ahead.
-/

namespace Collage.Rsp.Connection

open scoped List

variable {cfg : Config} {c c' : Connection} {expired : Bool}

/-- How many packets a cursor is behind the last one written. -/
def behind (c : Connection) (child : Child) : ℕ := (c.sequence - 1 - child.acked).toNat

/-- The reader has been closed, alone or with the whole group. -/
def Closes (c' : Connection) (child : Child) : Prop :=
  c'.stopped = true ∨ child.id ∉ c'.children.map Child.id

instance (c' : Connection) (child : Child) : Decidable (c'.Closes child) :=
  inferInstanceAs (Decidable (_ ∨ _))

/-- Exactly the readers that miss a packet are closed, and no cursor of another reader moves
forward. -/
structure EvictsLagging (c c' : Connection) : Prop where
  only : ∀ child ∈ c.remote, c'.Closes child → child.acked ≠ c.sequence - 1
  all : ∀ child ∈ c.remote, child.acked ≠ c.sequence - 1 → c'.Closes child
  cursors : ∀ child ∈ c.remote, ∀ child' ∈ c'.children, child'.id = child.id →
    c.behind child ≤ c.behind child'

/-- No reader that misses a packet lags across the highest number. -/
def LagsBelow (c : Connection) : Prop :=
  ∀ child ∈ c.remote, child.acked ≠ c.sequence - 1 → child.acked.toNat < c.sequence.toNat

instance (c : Connection) : Decidable c.LagsBelow :=
  inferInstanceAs (Decidable (∀ child ∈ c.remote, _ → _))

theorem mem_remote {child : Child} : child ∈ c.remote ↔ child ∈ c.children ∧ child.id ≠ c.id := by
  simp [remote, List.mem_filter]

theorem toNat_sequence_sub_one (c : Connection) :
    (c.sequence - 1).toNat = if c.sequence.toNat = 0 then 65535 else c.sequence.toNat - 1 := by
  have := c.sequence.isLt
  rw [BitVec.toNat_sub c.sequence 1, show (1 : U16).toNat = 1 by decide]
  split_ifs <;> omega

theorem acked_eq_iff {child : Child} : child.acked = c.sequence - 1 ↔
    child.acked.toNat = if c.sequence.toNat = 0 then 65535 else c.sequence.toNat - 1 := by
  rw [← toNat_sequence_sub_one]
  exact ⟨congrArg _, BitVec.eq_of_toNat_eq⟩

theorem keeps_eq_false_iff {child : Child} (hid : child.id ≠ c.id) :
    c.keeps child = false ↔ child.acked.toNat + 1 < c.sequence.toNat := by
  simp only [keeps, Bool.not_eq_eq_eq_not, Bool.not_false, decide_eq_true_eq]
  constructor
  · rintro ⟨h, -⟩
    omega
  · intro h
    exact ⟨by omega, Ne.symm hid⟩

/-- The timeouts cannot run out in the call that enters `_finishWriteQueue`. -/
theorem finishing_of_timeouts (hf : c.finishing = none)
    (ht : maxTimeouts ≤ (c.processOutgoing cfg expired).timeouts) :
    (c.processOutgoing cfg expired).finishing = none := by
  have hbase : (if c.repeatQueue = [] then c.writeData cfg else c.repeatData).finishing = none ∨
      (if c.repeatQueue = [] then c.writeData cfg else c.repeatData).timeouts = 0 := by
    split_ifs
    · rcases writeData_cases cfg c with ⟨-, h⟩ | ⟨b, queue, -, ⟨-, h⟩ | ⟨-, h⟩⟩
      · exact Or.inl (by rw [h]; exact hf)
      · exact Or.inl (by rw [h]; exact hf)
      · exact Or.inr (by rw [h]; rfl)
    · exact Or.inl hf
  unfold processOutgoing at ht ⊢
  generalize (if c.repeatQueue = [] then c.writeData cfg else c.repeatData) = base at *
  rcases hbase with hnone | hzero
  · simp only
    split_ifs <;> exact hnone
  · simp only at ht
    split_ifs at ht <;> simp [hzero, send, maxTimeouts] at ht

theorem allFailed_lt (h : c.allFailed cfg = true) {child : Child} (hc : child ∈ c.remote) :
    (child.acked.toNat : ℤ) < (c.sequence.toNat : ℤ) - cfg.numBuffers :=
  of_decide_eq_true (List.all_eq_true.1 h child hc)

/-- A reader that the loop closes is gone, since no two have the same identifier. -/
theorem not_mem_evicted (hnd : (c.children.map Child.id).Nodup) {child : Child}
    (hc : child ∈ c.children) (hk : c.keeps child = false) :
    child.id ∉ ((c.children.filter c.keeps).map (Child.setAcked c.resetCursor)).map Child.id := by
  rw [List.map_map]
  intro hmem
  obtain ⟨other, hother, hid⟩ := List.mem_map.1 hmem
  obtain ⟨hmem', hkeep⟩ := List.mem_filter.1 hother
  have heq : other = child := List.inj_on_of_nodup_map hnd hmem' hc hid
  rw [heq, hk] at hkeep
  cases hkeep

theorem mem_evicted {child : Child} (hc : child ∈ c.children) (hk : c.keeps child = true) :
    child.id ∈ ((c.children.filter c.keeps).map (Child.setAcked c.resetCursor)).map Child.id := by
  rw [List.map_map]
  exact List.mem_map.2 ⟨child, List.mem_filter.2 ⟨hc, hk⟩, rfl⟩

/-- Closing the whole group is right: then every reader is more than a window behind. -/
theorem evictsLagging_giveUp (hnd : (c.children.map Child.id).Nodup) (hbuf : 0 < cfg.numBuffers)
    (hall : c.allFailed cfg = true) (t : ℕ) :
    c.EvictsLagging (giveUp { c with timeouts := t }) where
  only := by
    intro child hc _ hacked
    have hlt := allFailed_lt hall hc
    rw [acked_eq_iff] at hacked
    split_ifs at hacked <;> omega
  all := fun _ _ _ => Or.inl rfl
  cursors := by
    intro child hc child' hc' hid
    obtain ⟨other, hother, rfl⟩ := List.mem_map.1 hc'
    have heq : other = child := List.inj_on_of_nodup_map hnd hother (mem_remote.1 hc).1 hid
    rw [heq]
    exact le_rfl

/-- Closing the readers one by one is right when none of them lags across the highest number. -/
theorem evictsLagging_of_lagsBelow (hnd : (c.children.map Child.id).Nodup)
    (hstopped : c.stopped = false) (hlag : c.LagsBelow) (ds : List Datagram) :
    c.EvictsLagging { c with
      children := (c.children.filter c.keeps).map (Child.setAcked c.resetCursor)
      timeouts := 0
      sent := ds } where
  only := by
    intro child hc hclosed hacked
    obtain ⟨hmem, hid⟩ := mem_remote.1 hc
    have hkeep : c.keeps child = true := by
      rw [← Bool.not_eq_false, keeps_eq_false_iff hid]
      rw [acked_eq_iff] at hacked
      split_ifs at hacked <;> omega
    rcases hclosed with hstop | hgone
    · rw [show c.stopped = true from hstop] at hstopped
      cases hstopped
    · exact hgone (mem_evicted hmem hkeep)
  all := by
    intro child hc hacked
    obtain ⟨hmem, hid⟩ := mem_remote.1 hc
    right
    apply not_mem_evicted hnd hmem
    have hlt := hlag child hc hacked
    rw [keeps_eq_false_iff hid]
    rw [ne_eq, acked_eq_iff] at hacked
    split_ifs at hacked <;> omega
  cursors := by
    intro child hc child' hc' hid
    obtain ⟨other, hother, rfl⟩ := List.mem_map.1 hc'
    obtain ⟨hmem, hkeep⟩ := List.mem_filter.1 hother
    have heq : other = child := List.inj_on_of_nodup_map hnd hmem (mem_remote.1 hc).1 hid
    have hacked : child.acked = c.sequence - 1 := by
      by_contra hne
      have hlt := hlag child hc hne
      rw [heq, ← Bool.not_eq_false, keeps_eq_false_iff (mem_remote.1 hc).2] at hkeep
      rw [acked_eq_iff] at hne
      split_ifs at hne <;> omega
    rw [behind, hacked, BitVec.sub_self]
    exact Nat.zero_le _

/-- A send timeout closes exactly the lagging readers if and only if none of them lags across the
highest number. -/
theorem send_timeout_evicts_iff (cfg : Config) (c : Connection) (expired : Bool)
    (hs : Sound cfg c) (hidle : c.idle = true)
    (ht : maxTimeouts ≤ (c.processOutgoing cfg expired).timeouts) :
    c.EvictsLagging (c.handleConnectedTimeout cfg expired) ↔ c.LagsBelow := by
  obtain ⟨-, hwait, hcases⟩ := handleConnectedTimeout_of_timeouts hs.nodup ht
    (finishing_of_timeouts (finishing_of_idle hidle) ht)
  have hstopped := stopped_of_idle hidle
  have hbuf : 0 < cfg.numBuffers :=
    (List.length_pos_iff.2 hwait.2.2.1).trans_le hs.writeBuffers_le
  rcases hcases with ⟨hall, heq⟩ | ⟨-, ds, heq⟩
  · rw [heq]
    refine iff_of_true (evictsLagging_giveUp hs.nodup hbuf hall _) ?_
    intro child hc _
    have hlt := allFailed_lt hall hc
    omega
  · rw [heq]
    constructor
    · intro h child hc hacked
      by_contra hge
      obtain ⟨hmem, hid⟩ := mem_remote.1 hc
      have hkeep : c.keeps child = true := by
        rw [← Bool.not_eq_false, keeps_eq_false_iff hid]
        omega
      rcases h.all child hc hacked with hstop | hgone
      · rw [show c.stopped = true from hstop] at hstopped
        cases hstopped
      · exact hgone (mem_evicted hmem hkeep)
    · intro hlag
      exact evictsLagging_of_lagsBelow hs.nodup hstopped hlag _

/-- A writer that has waited for the acks of two packets before `sequence`, with two readers at the
given cursors. -/
def waiting (sequence first second : U16) : Connection :=
  { start (.tiny 4) 1 [] with
    timeouts := maxTimeouts
    sequence := sequence
    children := [(Child.new (.tiny 4) 1 (sequence - 2)).setAcked (sequence - 3),
      (Child.new (.tiny 4) 2 0).setAcked first, (Child.new (.tiny 4) 3 0).setAcked second]
    appBuffers := [some ⟨2, emptyData⟩, some ⟨3, emptyData⟩]
    writeBuffers := [⟨0, ⟨1, 1, sequence - 2, [7]⟩⟩, ⟨1, ⟨1, 1, sequence - 1, [8]⟩⟩] }

theorem sound_waiting (sequence first second : U16) :
    Sound (.tiny 4) (waiting sequence first second) where
  nodup := by
    change [1, 2, 3].Nodup
    decide
  held := by
    change [2, 3, 0, 1] ~ [0, 1, 2, 3]
    decide
  readers := by
    intro child hc
    simp only [waiting, List.mem_cons, List.not_mem_nil, or_false] at hc
    rcases hc with rfl | rfl | rfl <;> rfl
  noNull := by
    intro _
    simp [waiting]
  posted := le_rfl
  loopback := by
    refine ⟨_, rfl, fun _ => ⟨?_, Or.inl ?_⟩⟩
    · change sequence - 2 + 2 = sequence
      exact BitVec.sub_add_cancel _ _
    · change sequence - 3 + 1 + 2 = sequence
      rw [add_assoc]
      exact BitVec.sub_add_cancel _ _

/-- Reader 2 lags one packet behind at the number 10 and is closed, reader 3 stays. -/
theorem send_timeout_evicts_iff_one_lagging :
    (waiting 10 8 9).EvictsLagging ((waiting 10 8 9).handleConnectedTimeout (.tiny 4) false) :=
  (send_timeout_evicts_iff (.tiny 4) (waiting 10 8 9) false (sound_waiting 10 8 9) (by decide)
    (by decide)).2 (by decide)

/-- Just after a wrap, reader 2 misses the packet 0 and is kept. -/
theorem send_timeout_keeps_lagging :
    ∃ c, Sound (.tiny 4) c ∧ c.idle = true ∧
      maxTimeouts ≤ (c.processOutgoing (.tiny 4) false).timeouts ∧
      (∀ child ∈ c.remote, c.behind child ≤ c.writeBuffers.length) ∧
      ¬ c.EvictsLagging (c.handleConnectedTimeout (.tiny 4) false) := by
  refine ⟨waiting 1 65535 0, sound_waiting 1 65535 0, by decide, by decide, by decide, ?_⟩
  intro h
  have hclosed := h.all ((Child.new (.tiny 4) 2 0).setAcked 65535) (by decide) (by decide)
  revert hclosed
  decide

end Collage.Rsp.Connection
