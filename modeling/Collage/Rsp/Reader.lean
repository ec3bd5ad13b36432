import Collage.Lib.Serial
import Collage.Rsp.ChildBuffers

/-!
# The reader's side of a stream

`log` lists the contents of the packets a writer has numbered so far, without wrap. A child that
expects packet `e` has delivered the first `e` packets to its application: what was obtained, what
is left of the current buffer and what is ready make up exactly these packets, and the reorder
queue holds packets behind the expected one at their own position.
-/

namespace Collage.Rsp

open Serial

/-- The size of a packet does not exceed its payload region. -/
def DatagramData.Full (d : DatagramData) : Prop := d.size.toNat ≤ d.payload.length

theorem DatagramData.Full.length_bytes {d : DatagramData} (h : d.Full) :
    d.bytes.length = d.size.toNat := by
  rw [bytes, List.length_take, min_eq_left h]

namespace Child

def contents (q : Option Buffer) : List UInt8 := q.elim [] (fun b => b.data.bytes)

/-- The bytes the application can read without a further packet. -/
def unread (c : Child) : List UInt8 :=
  (contents c.readBuffer).drop c.readBufferPos ++ (c.appBuffers.map contents).flatten

end Child

/-- The child's state apart from its reorder queue. -/
structure Delivered (log : List (List UInt8)) (e : ℕ) (obtained : List UInt8) (c : Child) :
    Prop where
  le : e ≤ log.length
  sequence : c.sequence = serial 16 e
  ready : ∀ q ∈ c.appBuffers, ∃ b, q = some b ∧ b.data.Full
  current : ∀ b, c.readBuffer = some b → b.data.Full ∧ c.readBufferPos ≤ b.data.size.toNat
  fresh : c.readBuffer = none → c.readBufferPos = 0
  stream : obtained ++ c.unread = (log.take e).flatten

/-- The entries of a reorder queue whose first entry stands for packet `first`. -/
def Pending (log : List (List UInt8)) (first : ℕ) (queue : List (Option Buffer)) : Prop :=
  ∀ i b, queue[i]? = some (some b) → log[first + i]? = some b.data.bytes ∧ b.data.Full

structure Reader (log : List (List UInt8)) (e : ℕ) (obtained : List UInt8) (c : Child) :
    Prop extends Delivered log e obtained c where
  pending : Pending log (e + 1) c.recvBuffers

section Log

variable {log log' : List (List UInt8)} {e : ℕ} {obtained : List UInt8} {c : Child}

theorem getElem?_of_isPrefix {α : Type*} {l l' : List α} (h : l <+: l') {i : ℕ} {a : α}
    (ha : l[i]? = some a) : l'[i]? = some a := by
  obtain ⟨t, rfl⟩ := h
  rw [List.getElem?_append_left (List.getElem?_eq_some_iff.1 ha).1]
  exact ha

theorem Pending.mono {first : ℕ} {queue : List (Option Buffer)} (h : Pending log first queue)
    (hlog : log <+: log') : Pending log' first queue :=
  fun i b hb => ⟨getElem?_of_isPrefix hlog (h i b hb).1, (h i b hb).2⟩

theorem Pending.tail {first : ℕ} {q : Option Buffer} {queue : List (Option Buffer)}
    (h : Pending log first (q :: queue)) : Pending log (first + 1) queue := by
  intro i b hb
  have hi := h (i + 1) b (by simpa using hb)
  rw [show first + 1 + i = first + (i + 1) by omega]
  exact hi

theorem Delivered.mono (h : Delivered log e obtained c) (hlog : log <+: log') :
    Delivered log' e obtained c := by
  have htake : log'.take e = log.take e := by
    obtain ⟨t, rfl⟩ := hlog
    exact List.take_append_of_le_length h.le
  exact ⟨h.le.trans hlog.length_le, h.sequence, h.ready, h.current, h.fresh, htake ▸ h.stream⟩

theorem Reader.mono (h : Reader log e obtained c) (hlog : log <+: log') :
    Reader log' e obtained c :=
  ⟨h.toDelivered.mono hlog, h.pending.mono hlog⟩

theorem flatten_take_succ {b : List UInt8} (h : log[e]? = some b) :
    (log.take (e + 1)).flatten = (log.take e).flatten ++ b := by
  rw [List.take_add_one, h, Option.toList_some, List.flatten_append, List.flatten_singleton]

theorem Delivered.prefix_flatten (h : Delivered log e obtained c) : obtained <+: log.flatten := by
  have h1 : obtained <+: (log.take e).flatten := ⟨c.unread, h.stream⟩
  have h2 : (log.take e).flatten <+: log.flatten := by
    refine ⟨(log.drop e).flatten, ?_⟩
    rw [← List.flatten_append, List.take_append_drop]
  exact h1.trans h2

end Log

section Data

variable {cfg : Config} {parentID : U16} {log : List (List UInt8)} {e : ℕ}
  {obtained : List UInt8} {c : Child}

theorem Delivered.push_next (cfg : Config) (parentID : U16) (h : Delivered log e obtained c)
    {b : Buffer}
    (hb : log[e]? = some b.data.bytes) (hfull : b.data.Full) :
    Delivered log (e + 1) obtained (Child.pushDataBuffer cfg parentID b c).1 where
  le := (List.getElem?_eq_some_iff.1 hb).1
  sequence := by
    rw [serial_succ, ← h.sequence]
    rfl
  ready := by
    intro q hq
    rcases List.mem_append.1 hq with hq | hq
    · exact h.ready q hq
    · exact ⟨b, List.mem_singleton.1 hq, hfull⟩
  current := h.current
  fresh := h.fresh
  stream := by
    rw [flatten_take_succ hb, ← h.stream]
    simp [Child.unread, Child.pushDataBuffer, Child.contents]

/-- The numbers a child acknowledges when its expected packet moves from `e` to `e'`. -/
def AckedBetween (e e' : ℕ) (acks : List U16) : Prop :=
  ∃ us : List ℕ, acks = us.map (fun u => serial 16 u - 1) ∧ us.Pairwise (· ≤ ·) ∧
    ∀ u ∈ us, e < u ∧ u ≤ e'

theorem ackedBetween_nil (e e' : ℕ) : AckedBetween e e' [] := ⟨[], rfl, List.Pairwise.nil, by simp⟩

theorem AckedBetween.append {e e' e'' : ℕ} {as bs : List U16} (ha : AckedBetween e e' as)
    (hb : AckedBetween e' e'' bs) (h1 : e ≤ e') (h2 : e' ≤ e'') :
    AckedBetween e e'' (as ++ bs) := by
  obtain ⟨us, rfl, hus, hu⟩ := ha
  obtain ⟨vs, rfl, hvs, hv⟩ := hb
  refine ⟨us ++ vs, by rw [List.map_append], List.pairwise_append.2 ⟨hus, hvs, ?_⟩, ?_⟩
  · intro u hu' v hv'
    have := hu u hu'
    have := hv v hv'
    omega
  · intro u hu'
    rcases List.mem_append.1 hu' with h | h
    · have := hu u h
      omega
    · have := hv u h
      omega

theorem ackedBetween_push (h : c.sequence = serial 16 e) (b : Buffer) :
    AckedBetween e (e + 1) (Child.pushDataBuffer cfg parentID b c).2 := by
  unfold Child.pushDataBuffer
  simp only
  split_ifs
  · refine ⟨[e + 1], ?_, List.pairwise_singleton _ _, by simp⟩
    rw [List.map_singleton, serial_succ, h]
    simp
  · exact ackedBetween_nil _ _

theorem Delivered.enqueueReady (cfg : Config) (parentID : U16) (queue : List (Option Buffer))
    (c : Child) (e : ℕ)
    (h : Delivered log e obtained c) (hq : Pending log e queue) :
    ∃ e', e ≤ e' ∧ Reader log e' obtained (Child.enqueueReady cfg parentID queue c).1 ∧
      AckedBetween e e' (Child.enqueueReady cfg parentID queue c).2 := by
  induction queue generalizing c e with
  | nil =>
      refine ⟨e, le_rfl, ⟨?_, fun i b hb => by simp [Child.enqueueReady] at hb⟩, ackedBetween_nil _ _⟩
      exact ⟨h.le, h.sequence, h.ready, h.current, h.fresh, h.stream⟩
  | cons q rest ih =>
      cases q with
      | none =>
          refine ⟨e, le_rfl, ⟨?_, hq.tail⟩, ackedBetween_nil _ _⟩
          exact ⟨h.le, h.sequence, h.ready, h.current, h.fresh, h.stream⟩
      | some b =>
          obtain ⟨hb, hfull⟩ := hq 0 b rfl
          obtain ⟨e', hle, hr, hack⟩ := ih (Child.pushDataBuffer cfg parentID b c).1 (e + 1)
            (h.push_next cfg parentID hb hfull) hq.tail
          exact ⟨e', by omega, hr, (ackedBetween_push h.sequence b).append hack (by omega) hle⟩

/-- A packet behind the expected one, by less than half the number range, is a repetition for
another reader, also across a wrap. -/
theorem ignores_of_lt {numBuffers i : ℕ} (hi : i < e) (hnear : e ≤ i + 32768)
    (hnb : numBuffers < 32767) : Child.ignores numBuffers (serial 16 e) (serial 16 i) = true := by
  simp only [Child.ignores, toNat_serial, Bool.or_eq_true, decide_eq_true_eq]
  omega

/-- The central step: a packet of the log that is not older than half the number range leaves the
reader in step with the log, whichever of its entries it is. -/
theorem Reader.handleData (cfg : Config) (parentID : U16) (h : Reader log e obtained c)
    {d : DatagramData} {i : ℕ} (hi : log[i]? = some d.bytes) (hfull : d.Full)
    (hseq : d.sequence = serial 16 i) (hnear : e ≤ i + 32768) (hlog : log.length ≤ e + cfg.numBuffers)
    (hnb : cfg.numBuffers < 32767) :
    ∃ e', e ≤ e' ∧ Reader log e' obtained (c.handleData cfg parentID d).1 ∧
      AckedBetween e e' (c.handleData cfg parentID d).2.1 := by
  have hlt : i < log.length := (List.getElem?_eq_some_iff.1 hi).1
  rcases Child.handleData_cases cfg parentID d c with hc | ⟨a, free, heq, -, hc⟩ |
    ⟨a, free, resized, hne, hign, -, hres, hnone, hc, hack⟩
  · rw [hc]
    exact ⟨e, le_rfl, h, ackedBetween_nil _ _⟩
  · have hie : e = i := serial_inj_of_near (w := 16) (by omega) (by omega)
      (by rw [← h.sequence, ← hseq, heq])
    subst hie
    have hfree : Delivered log e obtained { c with threadBuffers := free } :=
      ⟨h.le, h.sequence, h.ready, h.current, h.fresh, h.stream⟩
    have hpush := hfree.push_next cfg parentID (b := { a with data := d }) hi hfull
    obtain ⟨e', hle, hr, hacks⟩ :=
      Delivered.enqueueReady cfg parentID c.recvBuffers _ (e + 1) hpush h.pending
    rw [hc]
    exact ⟨e', by omega, hr, (ackedBetween_push hfree.sequence _).append hacks (by omega) hle⟩
  · have hei : e < i := by
      rcases lt_trichotomy e i with hl | hl | hl
      · exact hl
      · exact absurd (by rw [h.sequence, hseq, hl]) hne
      · rw [h.sequence, hseq, ignores_of_lt hl hnear hnb] at hign
        cases hign
    have hd : (d.sequence - c.sequence).toNat = i - e := by
      rw [h.sequence, hseq]
      exact toNat_serial_sub hei.le (by omega)
    rw [hack]
    refine ⟨e, le_rfl, ?_, ackedBetween_nil _ _⟩
    rw [hc, hd]
    refine ⟨⟨h.le, h.sequence, h.ready, h.current, h.fresh, h.stream⟩, ?_⟩
    intro j b hb
    rw [List.getElem?_set] at hb
    split_ifs at hb with hj hlen
    · simp only [Option.some.injEq] at hb
      subst hj hb
      rw [show e + 1 + (i - e - 1) = i by omega]
      exact ⟨hi, hfull⟩
    · rw [hres] at hb
      rcases lt_or_ge j c.recvBuffers.length with hj' | hj'
      · rw [List.getElem?_append_left hj'] at hb
        exact h.pending j b hb
      · rw [List.getElem?_append_right hj', List.getElem?_replicate] at hb
        split_ifs at hb
        cases hb

end Data

section Read

variable {cfg : Config} {log : List (List UInt8)} {e : ℕ} {obtained : List UInt8} {c c' : Child}

theorem DatagramData.drop_bytes (d : DatagramData) (pos n : ℕ) :
    (d.payload.drop pos).take (min n (d.size.toNat - pos)) ++
      d.bytes.drop (pos + min n (d.size.toNat - pos)) = d.bytes.drop pos := by
  rw [bytes, List.drop_take, List.drop_take, ← List.drop_drop]
  rw [← List.take_append_drop (min n (d.size.toNat - pos))
    ((d.payload.drop pos).take (d.size.toNat - pos)), List.take_take,
    min_eq_left (min_le_right n (d.size.toNat - pos)), List.drop_take]
  congr 2
  omega

theorem Reader.readSync (h : Reader log e obtained c) {n : ℕ} {bytes : List UInt8}
    (hr : c.readSync cfg n = some (c', bytes)) : Reader log e (obtained ++ bytes) c' := by
  rcases Child.readSync_cases hr with ⟨rest, -, hq, -, -⟩ | ⟨b, rest, hsrc, hbytes, hend⟩
  · obtain ⟨b, hb, -⟩ := h.ready none (hq ▸ List.mem_cons_self)
    cases hb
  have hb : b.data.Full ∧ c.readBufferPos ≤ b.data.size.toNat := by
    rcases hsrc with ⟨hb, -⟩ | ⟨hb, hq⟩
    · exact h.current b hb
    · obtain ⟨b', hb', hfull⟩ := h.ready (some b) (hq ▸ List.mem_cons_self)
      rw [Option.some.injEq] at hb'
      exact ⟨hb' ▸ hfull, by rw [h.fresh hb]; exact Nat.zero_le _⟩
  have hready : ∀ q ∈ rest, ∃ b, q = some b ∧ b.data.Full := by
    intro q hq
    rcases hsrc with ⟨-, hrest⟩ | ⟨-, hrest⟩
    · exact h.ready q (hrest ▸ hq)
    · exact h.ready q (hrest ▸ List.mem_cons_of_mem _ hq)
  have hunread : c.unread = b.data.bytes.drop c.readBufferPos ++
    (rest.map Child.contents).flatten := by
    rcases hsrc with ⟨hb, hrest⟩ | ⟨hb, hrest⟩
    · simp [Child.unread, Child.contents, hb, hrest]
    · simp [Child.unread, Child.contents, hb, hrest, h.fresh hb]
  have hsplit := b.data.drop_bytes c.readBufferPos n
  have hstream := h.stream
  rw [hunread, ← hsplit, ← hbytes] at hstream
  rcases hend with ⟨hge, rfl⟩ | ⟨hlt, rfl⟩
  · refine ⟨⟨h.le, h.sequence, hready, by simp, fun _ => rfl, ?_⟩, h.pending⟩
    rw [List.drop_eq_nil_of_le (by rw [hb.1.length_bytes]; exact hge), List.append_nil] at hstream
    simpa [Child.unread, Child.contents] using hstream
  · refine ⟨⟨h.le, h.sequence, hready, ?_, by simp, ?_⟩, h.pending⟩
    · intro b' hb'
      rw [Option.some.injEq] at hb'
      exact ⟨hb' ▸ hb.1, hb' ▸ hlt.le⟩
    · simpa [Child.unread, Child.contents] using hstream

theorem Reader.post (h : Reader log e obtained c) (hrecv : c.recvBuffers = []) {bs : List Buffer}
    (hbs : ∀ i b, bs[i]? = some b → log[e + i]? = some b.data.bytes ∧ b.data.Full) :
    Reader log (e + bs.length) obtained (c.post bs) := by
  have hle : e + bs.length ≤ log.length := by
    rcases Nat.eq_zero_or_pos bs.length with h0 | hpos
    · have := h.le
      omega
    · have hlast := hbs (bs.length - 1) (bs.get ⟨bs.length - 1, by omega⟩)
        (List.getElem?_eq_getElem (by omega))
      have := (List.getElem?_eq_some_iff.1 hlast.1).1
      omega
  refine ⟨⟨hle, ?_, ?_, h.current, h.fresh, ?_⟩, ?_⟩
  · rw [serial_add, ← h.sequence]
    rfl
  · intro q hq
    rcases List.mem_append.1 hq with hq | hq
    · exact h.ready q hq
    · obtain ⟨b, hb, rfl⟩ := List.mem_map.1 hq
      obtain ⟨i, hi⟩ := List.mem_iff_getElem?.1 hb
      exact ⟨b, rfl, (hbs i b hi).2⟩
  · have htake : (log.take (e + bs.length)).flatten =
        (log.take e).flatten ++ (bs.map (fun b => b.data.bytes)).flatten := by
      rw [List.take_add, List.flatten_append]
      congr 2
      apply List.ext_getElem?
      intro i
      rw [List.getElem?_take, List.getElem?_drop, List.getElem?_map]
      split_ifs with hi
      · rw [List.getElem?_eq_getElem hi, (hbs i _ (List.getElem?_eq_getElem hi)).1]
        rfl
      · rw [List.getElem?_eq_none (not_lt.1 hi)]
        rfl
    rw [htake, ← h.stream]
    simp [Child.unread, Child.post, Child.contents, Function.comp_def]
  · intro i b hb
    rw [show (c.post bs).recvBuffers = [] from hrecv] at hb
    simp at hb

end Read

end Collage.Rsp
