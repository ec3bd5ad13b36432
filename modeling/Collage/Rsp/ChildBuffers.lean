import Collage.Rsp.Child
import Mathlib.Data.List.Perm.Basic
import Mathlib.Data.List.Count
import Mathlib.Tactic.Common

/-!
# What the operations of a child do

The case analyses of `_handleData` and `readSync`, and their effect on the child's buffers: `held`
lists the identities in the free queue, the reorder queue, the ready queue and at the reader, and
every operation permutes it.
-/

namespace Collage.Rsp

open scoped List

namespace Child

def held (c : Child) : List ℕ :=
  c.threadBuffers.map Buffer.addr ++ addrs c.recvBuffers ++ addrs c.appBuffers ++
    addrs [c.readBuffer]

theorem held_new (cfg : Config) (id sequence : U16) :
    (Child.new cfg id sequence).held = List.range cfg.numBuffers := by
  simp [held, Child.new]

theorem held_pushDataBuffer (cfg : Config) (parentID : U16) (b : Buffer) (c : Child) :
    (pushDataBuffer cfg parentID b c).1.held ~ b.addr :: c.held := by
  rw [List.perm_iff_count]
  intro a
  simp [pushDataBuffer, held, List.count_append, List.count_cons]
  omega

theorem held_enqueueReady (cfg : Config) (parentID : U16) (queue : List (Option Buffer))
    (c : Child) :
    (enqueueReady cfg parentID queue c).1.held ~
      addrs queue ++ { c with recvBuffers := [] }.held := by
  induction queue generalizing c with
  | nil => simp [enqueueReady]
  | cons b rest ih =>
      cases b with
      | none =>
          rw [List.perm_iff_count]
          intro a
          simp [enqueueReady, held, List.count_append]
          omega
      | some b =>
          have hpush := held_pushDataBuffer cfg parentID b { c with recvBuffers := [] }
          have hrest := ih (pushDataBuffer cfg parentID b c).1
          rw [List.perm_iff_count] at hpush hrest ⊢
          intro a
          have h1 := hpush a
          have h2 := hrest a
          simp only [enqueueReady, addrs_cons_some, List.cons_append, List.count_cons] at *
          simp only [pushDataBuffer, List.count_append] at h1 h2 ⊢
          omega

theorem addrs_set_of_none {queue : List (Option Buffer)} {i : ℕ} {b : Buffer}
    (h : queue[i]? = some none) : addrs (queue.set i (some b)) ~ b.addr :: addrs queue := by
  induction queue generalizing i with
  | nil => simp at h
  | cons q queue ih =>
      cases i with
      | zero =>
          simp only [List.getElem?_cons_zero, Option.some.injEq] at h
          subst h
          simp
      | succ i =>
          have hi := ih (by simpa using h)
          cases q with
          | none => simpa using hi
          | some q =>
              simp only [List.set_cons_succ, addrs_cons_some]
              exact (hi.cons q.addr).trans (List.Perm.swap _ _ _)

theorem sub_toNat_pos {m n : U16} (h : m ≠ n) : 0 < (n - m).toNat := by
  rcases Nat.eq_zero_or_pos (n - m).toNat with h0 | h0
  · have hz : n - m = 0#16 := BitVec.eq_of_toNat_eq (by simpa using h0)
    exact absurd (sub_eq_zero.1 hz).symm h
  · exact h0

/-- Everything `_handleData` can do to a child: nothing, accept the expected packet together with
the pending ones behind it, or store a packet ahead of the expected one in an empty entry. -/
theorem handleData_cases (cfg : Config) (parentID : U16) (d : DatagramData) (c : Child) :
    c.handleData cfg parentID d = (c, [], none) ∨
    (∃ a free, c.sequence = d.sequence ∧ c.threadBuffers = a :: free ∧
      c.handleData cfg parentID d =
        ((enqueueReady cfg parentID c.recvBuffers
            (pushDataBuffer cfg parentID { a with data := d }
              { c with threadBuffers := free }).1).1,
          (pushDataBuffer cfg parentID { a with data := d } { c with threadBuffers := free }).2 ++
            (enqueueReady cfg parentID c.recvBuffers
              (pushDataBuffer cfg parentID { a with data := d }
                { c with threadBuffers := free }).1).2, none)) ∨
    (∃ a free resized, c.sequence ≠ d.sequence ∧
      ignores cfg.numBuffers c.sequence d.sequence = false ∧ c.threadBuffers = a :: free ∧
      resized = c.recvBuffers ++
        List.replicate ((d.sequence - c.sequence).toNat - c.recvBuffers.length) none ∧
      resized[(d.sequence - c.sequence).toNat - 1]? = some none ∧
      (c.handleData cfg parentID d).1 = { c with
        threadBuffers := free
        recvBuffers := resized.set ((d.sequence - c.sequence).toNat - 1)
          (some { a with data := d }) } ∧
      (c.handleData cfg parentID d).2.1 = []) := by
  by_cases hseq : c.sequence = d.sequence
  · cases hq : c.threadBuffers with
    | nil => left; simp [handleData, hseq, newDataBuffer, hq]
    | cons a free =>
        refine Or.inr (Or.inl ⟨a, free, hseq, rfl, ?_⟩)
        simp [handleData, hseq, newDataBuffer, hq]
  by_cases hign : ignores cfg.numBuffers c.sequence d.sequence = true
  · left; simp [handleData, hseq, hign]
  by_cases hgot : (c.recvBuffers[(d.sequence - c.sequence).toNat - 1]?).join.isSome = true
  · left; simp only [handleData, hseq, hign, hgot, if_true, if_false, Bool.false_eq_true]
  cases hq : c.threadBuffers with
  | nil => left; simp [handleData, hseq, newDataBuffer, hq]
  | cons a free =>
      refine Or.inr (Or.inr ⟨a, free, _, hseq, by simpa using hign, rfl, rfl, ?_, ?_, ?_⟩)
      · have hpos := sub_toNat_pos hseq
        rcases lt_or_ge ((d.sequence - c.sequence).toNat - 1) c.recvBuffers.length with hlt | hge
        · rw [List.getElem?_append_left hlt]
          rw [List.getElem?_eq_getElem hlt] at hgot ⊢
          simpa using hgot
        · rw [List.getElem?_append_right hge, List.getElem?_replicate, if_pos (by omega)]
      · simp only [handleData, hseq, hign, hgot, newDataBuffer, hq, if_false, Bool.false_eq_true]
      · simp only [handleData, hseq, hign, hgot, newDataBuffer, hq, if_false, Bool.false_eq_true]

theorem enqueueReady_frame (cfg : Config) (parentID : U16) (queue : List (Option Buffer))
    (c : Child) : (enqueueReady cfg parentID queue c).1.id = c.id ∧
      (enqueueReady cfg parentID queue c).1.acked = c.acked := by
  induction queue generalizing c with
  | nil => exact ⟨rfl, rfl⟩
  | cons b rest ih =>
      cases b with
      | none => exact ⟨rfl, rfl⟩
      | some b => exact ih _

theorem handleData_frame (cfg : Config) (parentID : U16) (d : DatagramData) (c : Child) :
    (c.handleData cfg parentID d).1.id = c.id ∧
      (c.handleData cfg parentID d).1.acked = c.acked := by
  rcases handleData_cases cfg parentID d c with h | ⟨a, free, -, -, h⟩ |
    ⟨a, free, resized, -, -, -, -, -, h, -⟩
  · rw [h]; exact ⟨rfl, rfl⟩
  · rw [h]; exact enqueueReady_frame cfg parentID c.recvBuffers _
  · rw [h]; exact ⟨rfl, rfl⟩

theorem held_handleData (cfg : Config) (parentID : U16) (d : DatagramData) (c : Child) :
    (c.handleData cfg parentID d).1.held ~ c.held := by
  rcases handleData_cases cfg parentID d c with h | ⟨a, free, -, hq, h⟩ |
    ⟨a, free, resized, -, -, hq, hres, hnone, h, -⟩
  · rw [h]
  · rw [h]
    have hready := held_enqueueReady cfg parentID c.recvBuffers
      (pushDataBuffer cfg parentID { a with data := d } { c with threadBuffers := free }).1
    rw [List.perm_iff_count] at *
    intro x
    have hx := hready x
    simp only [pushDataBuffer, held, hq, List.count_append, List.count_cons, List.map_cons,
      addrs_append, addrs_cons_some, addrs_nil, List.count_nil] at *
    omega
  · rw [h]
    have hset := addrs_set_of_none (b := { a with data := d }) hnone
    rw [List.perm_iff_count] at *
    intro x
    have hx := hset x
    simp only [held, hq, hres, List.count_append, List.count_cons, List.map_cons, addrs_append,
      addrs_replicate_none, List.append_nil] at *
    omega

/-- Everything one iteration of `readSync` can do: end at a null entry, or take bytes from the
current buffer (fetched first when there is none) and give the buffer back when it is used up. -/
theorem readSync_cases {cfg : Config} {n : ℕ} {c c' : Child} {bytes : List UInt8}
    (h : c.readSync cfg n = some (c', bytes)) :
    (∃ rest, c.readBuffer = none ∧ c.appBuffers = none :: rest ∧ bytes = [] ∧
      c' = { c with appBuffers := rest }) ∨
    ∃ b rest, (c.readBuffer = some b ∧ c.appBuffers = rest ∨
        c.readBuffer = none ∧ c.appBuffers = some b :: rest) ∧
      bytes = (b.data.payload.drop c.readBufferPos).take
        (min n (b.data.size.toNat - c.readBufferPos)) ∧
      (b.data.size.toNat ≤ c.readBufferPos + min n (b.data.size.toNat - c.readBufferPos) ∧
        c' = { c with
          appBuffers := rest
          threadBuffers := pushThread cfg.numBuffers c.threadBuffers b
          readBuffer := none
          readBufferPos := 0 } ∨
      c.readBufferPos + min n (b.data.size.toNat - c.readBufferPos) < b.data.size.toNat ∧
        c' = { c with
          appBuffers := rest
          readBuffer := some b
          readBufferPos := c.readBufferPos +
            min n (b.data.size.toNat - c.readBufferPos) }) := by
  obtain ⟨id, sequence, acked, threadBuffers, recvBuffers, appBuffers, readBuffer, pos⟩ := c
  cases readBuffer with
  | some b =>
      right
      refine ⟨b, appBuffers, Or.inl ⟨rfl, rfl⟩, ?_⟩
      simp only [readSync] at h
      split_ifs at h with hend <;> simp only [Option.some.injEq, Prod.mk.injEq] at h <;>
        obtain ⟨rfl, rfl⟩ := h
      · exact ⟨rfl, Or.inl ⟨hend, rfl⟩⟩
      · exact ⟨rfl, Or.inr ⟨by simpa using hend, rfl⟩⟩
  | none =>
      cases appBuffers with
      | nil => simp [readSync] at h
      | cons q rest =>
          cases q with
          | none =>
              left
              simp only [readSync, Option.some.injEq, Prod.mk.injEq] at h
              obtain ⟨rfl, rfl⟩ := h
              exact ⟨rest, rfl, rfl, rfl, rfl⟩
          | some b =>
              right
              refine ⟨b, rest, Or.inr ⟨rfl, rfl⟩, ?_⟩
              simp only [readSync] at h
              split_ifs at h with hend <;> simp only [Option.some.injEq, Prod.mk.injEq] at h <;>
                obtain ⟨rfl, rfl⟩ := h
              · exact ⟨rfl, Or.inl ⟨hend, rfl⟩⟩
              · exact ⟨rfl, Or.inr ⟨by simpa using hend, rfl⟩⟩

theorem readSync_frame {cfg : Config} {n : ℕ} {c : Child} {r : Child × List UInt8}
    (h : c.readSync cfg n = some r) :
    r.1.id = c.id ∧ r.1.sequence = c.sequence ∧ r.1.acked = c.acked := by
  obtain ⟨c', bytes⟩ := r
  rcases readSync_cases h with
    ⟨rest, -, -, -, rfl⟩ | ⟨b, rest, -, -, ⟨-, rfl⟩ | ⟨-, rfl⟩⟩ <;> exact ⟨rfl, rfl, rfl⟩

theorem readSync_recvBuffers {cfg : Config} {n : ℕ} {c : Child} {r : Child × List UInt8}
    (h : c.readSync cfg n = some r) : r.1.recvBuffers = c.recvBuffers := by
  obtain ⟨c', bytes⟩ := r
  rcases readSync_cases h with
    ⟨rest, -, -, -, rfl⟩ | ⟨b, rest, -, -, ⟨-, rfl⟩ | ⟨-, rfl⟩⟩ <;> rfl

theorem held_readSync {cfg : Config} {n : ℕ} {c c' : Child} {bytes : List UInt8}
    (h : c.readSync cfg n = some (c', bytes)) (hlen : c.held.length ≤ cfg.numBuffers) :
    c'.held ~ c.held := by
  rcases readSync_cases h with ⟨rest, -, hq, -, rfl⟩ | ⟨b, rest, hsrc, -, hend⟩
  · simp [held, hq]
  have hfull : c.threadBuffers.length < cfg.numBuffers := by
    rcases hsrc with ⟨hb, -⟩ | ⟨-, hq⟩
    · simp only [held, hb, List.length_append, List.length_map, addrs_cons_some,
        List.length_cons] at hlen
      omega
    · simp only [held, hq, List.length_append, List.length_map, addrs_cons_some,
        List.length_cons] at hlen
      omega
  rw [List.perm_iff_count]
  intro x
  rcases hsrc with ⟨hb, hq⟩ | ⟨hb, hq⟩ <;> rcases hend with ⟨-, rfl⟩ | ⟨-, rfl⟩ <;>
    simp only [held, hb, hq, pushThread, if_pos hfull, List.map_append, List.map_cons,
      List.map_nil, List.count_append, List.count_cons, List.count_nil, addrs_cons_some,
      addrs_cons_none, addrs_nil] <;> omega

end Child
end Collage.Rsp
