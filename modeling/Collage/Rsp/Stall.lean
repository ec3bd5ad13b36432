import Collage.Rsp.Conservation
import Mathlib.Tactic.Abel

/-!
# Packets nobody is missing

A writer releases packets when an ack arrives and when it sends alone. `Released` asks that a
writer whose remote readers have all acknowledged the last packet holds no packet back. Removing
the last lagging reader, resetting the cursors after a timeout and sending to readers whose cursor
already stands at the new number break it; a run without these steps keeps it.
-/

namespace Collage.Rsp

variable {cfg : Config} {c : Connection}

namespace Connection

/-- Every remaining remote reader has acknowledged the last packet sent. -/
def NothingMissing (c : Connection) : Prop := ∀ child ∈ c.remote, child.acked = c.sequence - 1

/-- Between two events nothing is held back that nobody is missing. -/
def Released (c : Connection) : Prop :=
  c.finishing = none → c.NothingMissing → c.writeBuffers = []

instance (c : Connection) : Decidable c.NothingMissing :=
  inferInstanceAs (Decidable (∀ child ∈ c.remote, child.acked = c.sequence - 1))

instance (c : Connection) : Decidable c.Released :=
  inferInstanceAs (Decidable (c.finishing = none → c.NothingMissing → c.writeBuffers = []))

/-- A new packet goes to some remote reader whose cursor is not at its number already. -/
def SendsMissing (c : Connection) : Prop :=
  c.repeatQueue = [] → c.threadBuffers ≠ [] → c.children.length ≠ 1 →
    ∃ child ∈ c.remote, child.acked ≠ c.sequence

/-- The removal of a reader leaves nothing unreleased, or another reader that lags. -/
def RemovesSafely (c : Connection) (id : U16) : Prop :=
  c.writeBuffers = [] ∨ ∃ child ∈ c.remote, child.id ≠ id ∧ child.acked ≠ c.sequence - 1

/-- The reset of the cursors leaves a remote reader, and does not put its cursor at the last
packet. -/
def ResetsSafely (cfg : Config) (expired : Bool) (c : Connection) : Prop :=
  c.repeatQueue = [] → c.threadBuffers = [] → c.writeBuffers ≠ [] →
    maxTimeouts ≤ c.timeouts + expired.toNat → c.allFailed cfg = false →
      c.writeBuffers.length ≠ 1 ∧ ∃ child ∈ c.remote, c.keeps child = true

instance (c : Connection) : Decidable c.SendsMissing := inferInstanceAs (Decidable (_ → _ → _ → _))

instance (c : Connection) (id : U16) : Decidable (c.RemovesSafely id) :=
  inferInstanceAs (Decidable (_ ∨ _))

instance (cfg : Config) (expired : Bool) (c : Connection) :
    Decidable (c.ResetsSafely cfg expired) :=
  inferInstanceAs (Decidable (_ → _ → _ → _ → _ → _))

end Connection

/-- The steps after which the writer still waits only for somebody. -/
def Harmless (cfg : Config) (c : Connection) : Event → Prop
  | .outgoing _ => c.SendsMissing
  | .packet _ (.node .exit id _) => id ≠ c.id → c.RemovesSafely id
  | .packet _ d => d.foreign c.id
  | .timeout expired => c.SendsMissing ∧ c.ResetsSafely cfg expired
  | .write _ | .writePop | .writePush | .read _ _ | .finishStep => True

instance (cfg : Config) (c : Connection) (e : Event) : Decidable (Harmless cfg c e) := by
  unfold Harmless; split <;> infer_instance

namespace Connection

/-- `Released`, and while `_finishWriteQueue` runs it is about to release everything that nobody
is missing. -/
structure Prompt (cfg : Config) (c : Connection) : Prop where
  sound : Sound cfg c
  released : c.Released
  releasing : ∀ f, c.finishing = some f → c.NothingMissing → f.size = 0

def cursors (c : Connection) : List (U16 × U16) := c.children.map (fun ch => (ch.id, ch.acked))

theorem nothingMissing_iff :
    c.NothingMissing ↔ ∀ p ∈ c.cursors, p.1 ≠ c.id → p.2 = c.sequence - 1 := by
  simp [NothingMissing, remote, cursors]

theorem nothingMissing_congr {c' : Connection}
    (h : (c'.cursors, c'.id, c'.sequence) = (c.cursors, c.id, c.sequence)) :
    c'.NothingMissing ↔ c.NothingMissing := by
  simp only [Prod.mk.injEq] at h
  simp only [nothingMissing_iff, h]

theorem Prompt.congr {c' : Connection} (h : Prompt cfg c) (hs : Sound cfg c')
    (hc : (c'.cursors, c'.id, c'.sequence) = (c.cursors, c.id, c.sequence))
    (hw : c'.writeBuffers = c.writeBuffers) (hf : c'.finishing = c.finishing) : Prompt cfg c' where
  sound := hs
  released := by
    intro hf' hm
    rw [hw]
    exact h.released (hf ▸ hf') ((nothingMissing_congr hc).1 hm)
  releasing := fun f hf' hm => h.releasing f (hf ▸ hf') ((nothingMissing_congr hc).1 hm)

theorem cursors_updateChild {k : U16} {f : Child → Child}
    (hf : ∀ child ∈ c.children, child.id = k → (f child).id = child.id ∧
      (f child).acked = child.acked) : (c.updateChild k f).cursors = c.cursors :=
  Keyed.map_update (fun child hc hk => by rw [(hf child hc hk).1, (hf child hc hk).2])

theorem Prompt.of_missing (hs : Sound cfg c) (h : ¬ c.NothingMissing) : Prompt cfg c :=
  ⟨hs, fun _ hm => absurd hm h, fun _ _ hm => absurd hm h⟩

theorem Prompt.of_finishing (hs : Sound cfg c) {f : Finish} (hf : c.finishing = some f)
    (hsize : c.NothingMissing → f.size = 0) : Prompt cfg c := by
  refine ⟨hs, fun hn => ?_, fun g hg hm => ?_⟩
  · rw [hf] at hn
    cases hn
  · rw [hf, Option.some.injEq] at hg
    exact hg ▸ hsize hm

theorem sub_sub_self (a : U16) : a - (a - 1) - 1 = 0 := by
  rw [sub_sub_cancel, sub_self]

theorem Prompt.writeData (h : Prompt cfg c) (hf : c.finishing = none) (hq : c.repeatQueue = [])
    (hok : c.SendsMissing) : Prompt cfg (c.writeData cfg) := by
  have hs := h.sound.writeData hf
  rcases writeData_cases cfg c with ⟨-, hw⟩ | ⟨b, queue, ht, ⟨hone, hw⟩ | ⟨-, hw⟩⟩
  · rw [hw]; exact h
  · rw [hw] at hs ⊢
    obtain ⟨child, hmem, hne⟩ := hok hq (by simp [ht]) hone
    refine Prompt.of_missing hs (fun hm => hne ?_)
    rw [hm child hmem]
    exact add_sub_cancel_right c.sequence 1
  · rw [hw] at hs ⊢
    refine Prompt.of_finishing hs rfl (fun _ => ?_)
    change c.sequence + 1 - c.sequence - 1 = 0
    rw [add_sub_cancel_left, sub_self]

theorem Prompt.processOutgoing (h : Prompt cfg c) (hf : c.finishing = none)
    (hok : c.SendsMissing) (expired : Bool) : Prompt cfg (c.processOutgoing cfg expired) := by
  obtain ⟨base, t, ds, hbase, -, hp⟩ := processOutgoing_cases cfg expired c
  have hb : Prompt cfg base := by
    rcases hbase with ⟨hq, rfl⟩ | ⟨-, rfl⟩
    · exact h.writeData hf hq hok
    · exact h.congr h.sound.repeatData rfl rfl rfl
  rw [hp]
  exact hb.congr ((hb.sound.set_timeouts t).send ds) rfl rfl rfl

theorem remote_updateChild_self {f : Child → Child}
    (hid : ∀ child, child.id = c.id → (f child).id = c.id) :
    (c.updateChild c.id f).remote = c.remote :=
  Keyed.filter_update hid

theorem Prompt.finishStep (h : Prompt cfg c) {c' : Connection} (hc : c.finishStep = some c') :
    Prompt cfg c' := by
  have hs := h.sound.finishStep hc
  obtain ⟨f, self, hf, hself, ⟨hle, rfl⟩ | ⟨a, free, b, rest, hw, -, hq, rfl⟩ | ⟨-, -, -, rfl⟩⟩ :=
    finishStep_cases hc
  · refine ⟨hs, fun _ hm => ?_, fun g hg _ => by cases hg⟩
    have hrem : (c.finishEnd f).remote = c.remote :=
      (remote_updateChild_self (c := c.postReadBuffers f)
        (f := fun self => self.setAcked (self.sequence - 1)) (fun _ hk => hk)).trans
      (remote_updateChild_self (c := c) (f := Child.post f.readBuffers) (fun _ hk => hk))
    have hsize := h.releasing f hf (fun child hmem => hm child (hrem ▸ hmem))
    rw [hsize] at hle
    exact List.length_eq_zero_iff.1 (Nat.le_zero.1 hle)
  · refine Prompt.of_finishing hs rfl (fun hm => h.releasing f hf (fun child hmem => hm child ?_))
    have hid := Keyed.key_of_lookup hself
    have hrem := remote_updateChild_self (c := c) (f := fun _ => { self with threadBuffers := free })
      (fun _ _ => hid)
    exact hrem.symm ▸ hmem
  · refine Prompt.of_finishing hs rfl (fun hm => h.releasing f hf (fun child hmem => hm child ?_))
    have hrem := remote_updateChild_self (c := c) (f := Child.post f.readBuffers) (fun _ hk => hk)
    exact hrem.symm ▸ hmem

theorem Prompt.of_remote {c' : Connection} (h : Prompt cfg c) (hs : Sound cfg c')
    (hf : c.finishing = none) (hf' : c'.finishing = none)
    (hw : c'.writeBuffers = c.writeBuffers) (hm : c'.NothingMissing → c.NothingMissing) :
    Prompt cfg c' := by
  refine ⟨hs, fun _ hn => hw.trans (h.released hf (hm hn)), fun f hn _ => ?_⟩
  rw [hf'] at hn
  cases hn

theorem Prompt.addConnection (h : Prompt cfg c) (hf : c.finishing = none) (id sequence : U16) :
    Prompt cfg (c.addConnection cfg id sequence) := by
  have hs := h.sound.addConnection hf id sequence
  cases hfind : c.findConnection id with
  | some child =>
      rw [Connection.addConnection, hfind] at hs ⊢
      exact h
  | none =>
      obtain ⟨sent, -, hadd⟩ := addConnection_eq cfg c sequence hfind
      rw [hadd] at hs ⊢
      refine h.of_remote hs hf hf rfl (fun hm child hmem => hm child ?_)
      simp only [remote, List.mem_filter, List.mem_append] at hmem ⊢
      exact ⟨Or.inl hmem.1, hmem.2⟩

theorem Prompt.removeConnection (h : Prompt cfg c) (hf : c.finishing = none) (id : U16)
    (hok : id ≠ c.id → c.RemovesSafely id) : Prompt cfg (c.removeConnection id) := by
  have hs := h.sound.removeConnection id
  by_cases hid : id = c.id
  · rw [Connection.removeConnection, if_pos hid]
    exact h
  obtain ⟨sent, -, hrem⟩ := removeConnection_eq c hid
  rw [hrem] at hs ⊢
  rcases hok hid with hw | ⟨child, hmem, hne, hack⟩
  · refine ⟨hs, fun _ _ => hw, fun f hn _ => ?_⟩
    rw [show Connection.finishing _ = c.finishing from rfl, hf] at hn
    cases hn
  · refine Prompt.of_missing hs (fun hm => hack (hm child ?_))
    simp only [remote, List.mem_filter] at hmem ⊢
    exact ⟨(List.mem_eraseP_of_neg (by simpa using hne)).2 hmem.1, hmem.2⟩

theorem serialMin_of_forall_eq {limit : ℕ} {start : U16} {cursors : List U16}
    (h : ∀ x ∈ cursors, x = start) : Serial.serialMin limit start cursors = start := by
  induction cursors with
  | nil => rfl
  | cons x xs ih =>
      have hx := h x List.mem_cons_self
      rw [Serial.serialMin_cons, hx, sub_self, if_neg (by simp)]
      exact ih (fun y hy => h y (List.mem_cons_of_mem _ hy))

/-- When the last missing ack arrives, everybody's cursor is the number just acknowledged, and it
is close enough to the loopback child's cursor to release. -/
theorem minAcked_of_nothingMissing {c : Connection} (reader : Child) {sequence : U16}
    (hreader : c.findConnection reader.id = some reader) (hr : reader.id ≠ c.id)
    (hack : reader.acked = sequence) (hm : c.NothingMissing) :
    c.minAcked cfg sequence = c.sequence - 1 := by
  have hmem : reader ∈ c.remote := by
    simp only [remote, List.mem_filter]
    exact ⟨Keyed.mem_of_lookup hreader, by simpa using hr⟩
  have hseq : sequence = c.sequence - 1 := hack ▸ hm reader hmem
  rw [minAcked, hseq]
  apply serialMin_of_forall_eq
  intro x hx
  obtain ⟨child, hc, rfl⟩ := List.mem_map.1 hx
  exact hm child hc

theorem Sound.distance_le (h : Sound cfg c) (hf : c.finishing = none) (hstop : c.stopped = false)
    {self : Child} (hself : c.findConnection c.id = some self) :
    (c.sequence - 1 - self.acked).toNat ≤ cfg.numBuffers := by
  have hlen := h.writeBuffers_le
  have hlt := cfg.numBuffers_lt
  obtain ⟨self', hself', htrack⟩ := h.loopback
  rw [hself, Option.some.injEq] at hself'
  subst hself'
  have hfreed : c.freed = [] := by rw [freed, hf]; rfl
  obtain ⟨-, hack⟩ := htrack hstop
  simp only [hfreed, List.length_nil, Nat.zero_add] at hack
  rcases hack with hack | ⟨hpos, hack⟩
  · have hd : c.sequence - 1 - self.acked = Serial.serial 16 c.writeBuffers.length := by
      rw [← hack, Serial.serial]; abel
    rw [hd, Serial.toNat_serial_of_lt (by omega)]
    exact hlen
  · have hd : c.sequence - 1 - self.acked = Serial.serial 16 (c.writeBuffers.length - 1) := by
      rw [← Serial.serial_sub hpos, ← hack, Serial.serial, Serial.serial]
      simp only [BitVec.ofNat_eq_ofNat]
      abel
    rw [hd, Serial.toNat_serial_of_lt (by omega)]
    omega

theorem Prompt.handleAck (h : Prompt cfg c) (hf : c.finishing = none) (hstop : c.stopped = false)
    {readerID : U16} (hr : readerID ≠ c.id) (writerID sequence : U16) :
    Prompt cfg (c.handleAck cfg readerID writerID sequence) := by
  have hs := h.sound.handleAck hf hr writerID sequence
  rcases handleAck_cases cfg readerID writerID sequence c with
    ⟨-, hc⟩ | ⟨reader, -, hfind, -, hc⟩
  · rw [hc]; exact h
  have hid : reader.id = readerID := Keyed.key_of_lookup hfind
  have hrec := findConnection_recordAck (c := c) readerID sequence
  have hmin : (c.recordAck readerID sequence).NothingMissing →
      (c.recordAck readerID sequence).minAcked cfg sequence = c.sequence - 1 := by
    intro hm
    refine minAcked_of_nothingMissing (reader.setAcked sequence) ?_ ?_ rfl hm
    · change (c.recordAck readerID sequence).findConnection reader.id = _
      rw [hid, hrec, if_pos rfl, hfind, Option.map_some]
    · exact fun he => hr (hid ▸ he)
  rcases hc with ⟨hfar, hc⟩ | ⟨self, -, -, hc⟩
  · rw [hc] at hs ⊢
    refine Prompt.of_missing hs (fun hm => ?_)
    obtain ⟨self, hself, -⟩ := hs.loopback
    have hd := hs.distance_le hf hstop hself
    have hlt := hfar self hself
    rw [hmin hm] at hlt
    exact absurd hd (not_le.2 hlt)
  · rw [hc] at hs ⊢
    refine Prompt.of_finishing hs rfl (fun hm => ?_)
    change c.sequence - (c.recordAck readerID sequence).minAcked cfg sequence - 1 = 0
    rw [hmin hm]
    exact sub_sub_self c.sequence

theorem Prompt.handleData (h : Prompt cfg c) {d : DatagramData} (hd : d.writerID ≠ c.id) :
    Prompt cfg (c.handleData cfg d) := by
  have hs := h.sound.handleData hd
  rcases handleData_cases cfg d c with ⟨-, hc⟩ | ⟨child, queue, ds, hfind, -, hc⟩
  · rw [hc]; exact h
  have hcur : (c.updateChild d.writerID (fun _ => (child.handleData cfg c.id d).1)).cursors =
      c.cursors := by
    refine cursors_updateChild (fun old hmem hk => ?_)
    rw [Keyed.eq_of_lookup h.sound.nodup hfind hmem hk]
    exact Child.handleData_frame cfg c.id d child
  rw [hc] at hs ⊢
  exact h.congr hs (congrArg (fun cs => (cs, c.id, c.sequence)) hcur) rfl rfl

theorem Prompt.handlePacket (h : Prompt cfg c) (hf : c.finishing = none)
    (hstop : c.stopped = false) (hl : c.listening = true) (newID : U16) {d : Datagram}
    (hok : Harmless cfg c (.packet newID d)) : Prompt cfg (c.handlePacket cfg newID d) := by
  cases d with
  | data d => simp only [Connection.handlePacket, hl, if_true]; exact h.handleData hok
  | ack readerID writerID sequence =>
      simp only [Connection.handlePacket, hl, if_true]; exact h.handleAck hf hstop hok _ _
  | nack readerID writerID nacks =>
      simp only [Connection.handlePacket, hl, if_true]
      have hs := h.sound.handleNack readerID writerID nacks
      obtain ⟨t, queue, hc⟩ := handleNack_cases readerID writerID nacks c
      rw [hc] at hs ⊢
      exact h.congr hs rfl rfl rfl
  | ackReq writerID reqID =>
      simp only [Connection.handlePacket, hl, if_true]
      have hs := h.sound.handleAckRequest writerID reqID
      obtain ⟨queue, ds, -, hc⟩ := handleAckRequest_cases cfg writerID reqID c
      rw [hc] at hs ⊢
      exact h.congr hs rfl rfl rfl
  | node type connectionID data =>
      simp only [Connection.handlePacket, hl, if_true]
      have hs := h.sound.handleInitData hf type connectionID data
      cases type with
      | hello =>
          simp only [handleInitData, checkNewID, if_true] at hs ⊢
          split_ifs at hs ⊢
          · exact h.congr hs rfl rfl rfl
          · exact h.congr hs rfl rfl rfl
      | confirm => exact h.addConnection hf _ _
      | helloReply => exact h.addConnection hf _ _
      | exit => exact h.removeConnection hf _ hok
      | countNode => exact h
      | deny => exact h

theorem Prompt.handleConnectedTimeout (h : Prompt cfg c) (hf : c.finishing = none)
    {expired : Bool} (hsend : c.SendsMissing) (hreset : c.ResetsSafely cfg expired) :
    Prompt cfg (c.handleConnectedTimeout cfg expired) := by
  have hs := h.sound.handleConnectedTimeout hf expired
  rcases handleConnectedTimeout_cases cfg expired c h.sound.nodup with
    hc | ⟨-, hw, ⟨-, hc⟩ | ⟨hall, sent, hc⟩⟩
  · rw [hc]; exact h.processOutgoing hf hsend expired
  · rw [hc] at hs ⊢
    exact Prompt.of_finishing hs rfl (fun _ => sub_sub_self c.sequence)
  · rw [hc] at hs ⊢
    obtain ⟨hone, child, hmem, hkeep⟩ := hreset hw.1 hw.2.1 hw.2.2.1 hw.2.2.2 hall
    simp only [remote, List.mem_filter] at hmem
    refine Prompt.of_missing hs (fun hm => hone ?_)
    have hcur : c.resetCursor = c.sequence - 1 := by
      refine hm (child.setAcked c.resetCursor) ?_
      simp only [remote, List.mem_filter]
      exact ⟨List.mem_map_of_mem (List.mem_filter.2 ⟨hmem.1, hkeep⟩), hmem.2⟩
    have hlen := h.sound.writeBuffers_le
    have hlt := cfg.numBuffers_lt
    have hser : Serial.serial 16 c.writeBuffers.length = Serial.serial 16 1 :=
      sub_right_injective hcur
    exact Serial.serial_inj_of_near (by omega) (by omega) hser

theorem Prompt.step (h : Prompt cfg c) (hl : c.listening = true) {e : Event} {c' : Connection}
    (hok : Harmless cfg c e) (hc : c.step cfg e = some c') : Prompt cfg c' := by
  rcases step_cases hc with ⟨bytes, rfl, -, -, rfl⟩ | ⟨rfl, hpop⟩ | ⟨rfl, hpush⟩ |
    ⟨writer, n, child, r, rfl, hfind, hr, rfl⟩ | ⟨expired, rfl, hi, -, rfl⟩ | ⟨rfl, hfin⟩ |
    ⟨newID, d, rfl, hi, rfl⟩ | ⟨expired, rfl, hi, rfl⟩
  · exact h.congr (h.sound.step (e := .write bytes) hl trivial hc) rfl rfl rfl
  · have hs := h.sound.writePop hpop
    obtain ⟨-, -, ⟨_, -, rfl⟩ | ⟨_, _, -, rfl⟩⟩ := writePop_cases hpop
    · exact h.congr hs rfl rfl rfl
    · exact h.congr hs rfl rfl rfl
  · have hs := h.sound.writePush hpush
    obtain ⟨_, -, rfl⟩ := writePush_cases hpush
    exact h.congr hs rfl rfl rfl
  · obtain ⟨hid, -, hack⟩ := Child.readSync_frame hr
    have hcur : (c.updateChild writer (fun _ => r.1)).cursors = c.cursors := by
      refine cursors_updateChild (fun old hmem hk => ?_)
      rw [Keyed.eq_of_lookup h.sound.nodup hfind hmem hk]
      exact ⟨hid, hack⟩
    exact h.congr (h.sound.read_child hfind hr)
      (congrArg (fun cs => (cs, c.id, c.sequence)) hcur) rfl rfl
  · exact h.processOutgoing (finishing_of_idle hi) hok expired
  · exact h.finishStep hfin
  · exact h.handlePacket (finishing_of_idle hi) (stopped_of_idle hi) hl newID hok
  · rw [handleTimeout, if_pos hl]
    exact h.handleConnectedTimeout (finishing_of_idle hi) hok.1 hok.2

/-- In every run without a step that strands packets, a writer whose remote readers have all
acknowledged the last packet, or that has none, holds no packet back. -/
theorem released_of_harmless_run {id : U16} {members : List (U16 × U16)}
    (hnd : (members.map Prod.fst).Nodup) (hself : (id, 0) ∈ members) {es : List Event}
    (hok : Machine.Steps (step cfg) (Harmless cfg) (start cfg id members) es)
    (hrun : Machine.run (step cfg) (start cfg id members) es = some c) : c.Released := by
  have hstart : Prompt cfg (start cfg id members) :=
    ⟨sound_start hnd hself, fun _ _ => rfl, fun _ hf => by cases hf⟩
  have h := Machine.run_invariant (fun c => Prompt cfg c ∧ c.listening = true)
    (fun c e c' hi hok hc => ⟨hi.1.step hi.2 hok hc,
      (congrArg Prod.snd (role_step hi.1.sound hi.2 hc)).trans hi.2⟩)
    ⟨hstart, rfl⟩ hok hrun
  exact h.1.released

/-- The other member acknowledges a packet and only then leaves. -/
theorem released_of_harmless_run_exit :
    ∃ c, Machine.run (step (Config.tiny 2)) (start (Config.tiny 2) 1 [(1, 0), (2, 0)])
        [.write [7], .writePop, .writePush, .outgoing false, .packet 0 (.ack 2 1 0), .finishStep,
          .finishStep, .packet 0 (.node .exit 2 0)] = some c ∧ c.Released := by
  have hrun : (Machine.run (step (Config.tiny 2)) (start (Config.tiny 2) 1 [(1, 0), (2, 0)])
      [.write [7], .writePop, .writePush, .outgoing false, .packet 0 (.ack 2 1 0), .finishStep,
        .finishStep, .packet 0 (.node .exit 2 0)]).isSome = true := by decide +kernel
  obtain ⟨c, hc⟩ := Option.isSome_iff_exists.1 hrun
  exact ⟨c, hc, released_of_harmless_run (by decide) (by decide) (by decide +kernel) hc⟩

/-- The only other member leaves before it has acknowledged: its packet stays in `_writeBuffers`
although no reader is left to miss it. -/
theorem exit_strands_packet :
    ∃ c, Machine.run (step (Config.tiny 2)) (start (Config.tiny 2) 1 [(1, 0), (2, 0)])
        [.write [7], .writePop, .writePush, .outgoing false, .packet 0 (.node .exit 2 0)] =
          some c ∧
      c.finishing = none ∧ c.remote = [] ∧ c.writeBuffers ≠ [] ∧ ¬ c.Released := by
  have hrun : (Machine.run (step (Config.tiny 2)) (start (Config.tiny 2) 1 [(1, 0), (2, 0)])
      [.write [7], .writePop, .writePush, .outgoing false, .packet 0 (.node .exit 2 0)]).map
        (fun c => decide (c.finishing = none ∧ c.remote = [] ∧ c.writeBuffers ≠ [] ∧
          ¬ c.Released)) = some true := by decide +kernel
  obtain ⟨c, hc, h⟩ := Option.map_eq_some_iff.1 hrun
  exact ⟨c, hc, of_decide_eq_true h⟩

end Connection
end Collage.Rsp
