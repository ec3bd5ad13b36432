import Collage.Stream.Framing

/-!
# Several threads on one connection

Any number of threads send their commands over one connection. `send` takes the send lock for its
own time only, unless the command holds it from its header to the end of its data.
-/

namespace Collage.Stream

structure Senders where
  wire : Bytes
  /-- The thread that has locked the connection. -/
  holder : Option ℕ
  /-- By thread, the commands that are not completely sent. -/
  todo : ℕ → List OCommand
  /-- By thread, what is left to do for the first of them. -/
  current : ℕ → List ConnectionOp
  /-- The completed commands with their threads. -/
  log : List (ℕ × OCommand)

namespace Senders

variable (memory : ℕ → UInt8) (objectBufferSize : ℕ)

def opsOf : List OCommand → List ConnectionOp
  | [] => []
  | c :: _ => c.ops memory objectBufferSize

def start (threads : ℕ → List OCommand) : Senders where
  wire := []
  holder := none
  todo := threads
  current := fun i => opsOf memory objectBufferSize (threads i)
  log := []

/-- The lock that an operation of the thread `i` needs and leaves. -/
def perform (s : Senders) (i : ℕ) : ConnectionOp → Option Senders
  | .lockSend => if s.holder = none then some { s with holder := some i } else none
  | .send bytes isLocked =>
      if isLocked ∨ s.holder = none then some { s with wire := s.wire ++ bytes } else none
  | .unlockSend => some { s with holder := none }

def step (s : Senders) (i : ℕ) : Option Senders :=
  match s.todo i, s.current i with
  | c :: rest, op :: ops => (s.perform i op).map (fun s' =>
      if ops = [] then
        { s' with
          todo := Function.update s'.todo i rest
          current := Function.update s'.current i (opsOf memory objectBufferSize rest)
          log := s'.log ++ [(i, c)] }
      else { s' with current := Function.update s'.current i ops })
  | _, _ => none

end Senders

def readCommands : ℕ → Bytes → Option (List ICommand × Bytes)
  | 0, wire => some ([], wire)
  | n + 1, wire => (readCommand wire).bind (fun r =>
      (readCommands n r.2).map (fun rs => (r.1 :: rs.1, rs.2)))

namespace Senders

variable {memory objectBufferSize}

/-- The operations of a command that nothing can come between. -/
def Atomic (ops : List ConnectionOp) : Prop :=
  (∃ bytes, ops = [.send bytes false]) ∨
    ∃ pieces : List Bytes, ops =
      .lockSend :: (pieces.map (fun piece => .send piece true) ++ [.unlockSend])

theorem atomic_of_fits (memory : ℕ → UInt8) {c : OCommand} (h : c.Fits objectBufferSize) :
    Atomic (c.ops memory objectBufferSize) := by
  rcases Nat.eq_zero_or_pos c.data.flatten.length with hzero | hdata
  · left
    exact ⟨_, OCommand.ops_of_fits_simple memory objectBufferSize h (List.length_eq_zero_iff.1 hzero)⟩
  · right
    rw [OCommand.ops_of_fits_data memory objectBufferSize h hdata]
    split_ifs
    · exact ⟨c.header :: (c.data ++ [fill memory [] (commandMinSize - c.size)]), by simp⟩
    · exact ⟨c.header :: c.data, by simp⟩

def logged (memory : ℕ → UInt8) (objectBufferSize : ℕ) (log : List (ℕ × OCommand)) : Bytes :=
  (log.map (fun p => wireOf (p.2.ops memory objectBufferSize))).flatten

theorem logged_concat (log : List (ℕ × OCommand)) (i : ℕ) (c : OCommand) :
    logged memory objectBufferSize (log ++ [(i, c)]) =
      logged memory objectBufferSize log ++ wireOf (c.ops memory objectBufferSize) := by
  simp [logged]

/-- What holds of the threads when all commands fit: a thread that does not hold the lock has sent
nothing of its first command. -/
structure Orderly (memory : ℕ → UInt8) (objectBufferSize : ℕ) (threads : ℕ → List OCommand)
    (s : Senders) : Prop where
  log : ∀ i, (s.log.filter (fun p => p.1 = i)).map Prod.snd ++ s.todo i = threads i
  waiting : ∀ i, s.holder ≠ some i → s.current i = opsOf memory objectBufferSize (s.todo i)
  free : s.holder = none → s.wire = logged memory objectBufferSize s.log
  held : ∀ i, s.holder = some i → ∃ (c : OCommand) (rest : List OCommand) (sent left : List Bytes),
    s.todo i = c :: rest ∧ c.ops memory objectBufferSize = .lockSend ::
      ((sent ++ left).map (fun piece => .send piece true) ++ [.unlockSend]) ∧
    s.current i = left.map (fun piece => .send piece true) ++ [.unlockSend] ∧
    s.wire = logged memory objectBufferSize s.log ++ sent.flatten

variable {threads : ℕ → List OCommand} {s s' : Senders}

theorem orderly_start : Orderly memory objectBufferSize threads
    (start memory objectBufferSize threads) where
  log := fun _ => rfl
  waiting := fun _ _ => rfl
  free := fun _ => rfl
  held := fun _ h => nomatch h

theorem Orderly.step_free (h : Orderly memory objectBufferSize threads s)
    (hfits : ∀ i, ∀ c ∈ threads i, c.Fits objectBufferSize) (hfree : s.holder = none) {i : ℕ}
    (hs : s.step memory objectBufferSize i = some s') :
    Orderly memory objectBufferSize threads s' := by
  have hcurrent := h.waiting i (by simp [hfree])
  unfold Senders.step at hs
  split at hs
  swap
  · cases hs
  next c rest op ops htodo hops =>
  have hmem : c ∈ threads i := by
    rw [← h.log i, htodo]
    exact List.mem_append_right _ List.mem_cons_self
  rw [hops, htodo, opsOf] at hcurrent
  obtain ⟨s₁, hs₁, rfl⟩ := Option.map_eq_some_iff.1 hs
  rcases atomic_of_fits memory (hfits i c hmem) with ⟨bytes, hatomic⟩ | ⟨pieces, hatomic⟩
  · rw [hatomic, List.cons.injEq] at hcurrent
    obtain ⟨rfl, rfl⟩ := hcurrent
    simp only [perform, hfree, or_true, if_true, Option.some.injEq] at hs₁
    subst hs₁
    simp only [if_true]
    have hbytes : wireOf (c.ops memory objectBufferSize) = bytes := by
      rw [hatomic]
      simp [wireOf, ConnectionOp.bytes]
    refine ⟨fun j => ?_, fun j _ => ?_, fun _ => ?_, fun j hj => by cases hj⟩
    · rcases eq_or_ne j i with rfl | hj
      · simp [List.filter_append, ← h.log j, htodo]
      · simp [List.filter_append, hj.symm, Function.update_of_ne hj, h.log j]
    · rcases eq_or_ne j i with rfl | hj
      · simp
      · simp only [Function.update_of_ne hj]
        exact h.waiting j (by simp [hfree])
    · rw [logged_concat, hbytes, h.free hfree]
  · rw [hatomic, List.cons.injEq] at hcurrent
    obtain ⟨rfl, rfl⟩ := hcurrent
    simp only [perform, hfree, if_true, Option.some.injEq] at hs₁
    subst hs₁
    simp only [List.append_eq_nil_iff, List.cons_ne_nil, and_false, if_false]
    refine ⟨h.log, fun j hj => ?_, (fun hn => by cases hn), fun j hj => ?_⟩
    · have hne : j ≠ i := fun he => hj (congrArg some he.symm)
      simp only [Function.update_of_ne hne]
      exact h.waiting j (by simp [hfree])
    · obtain rfl : i = j := Option.some.inj hj
      exact ⟨c, rest, [], pieces, htodo, by simpa using hatomic, by simp, by simp [h.free hfree]⟩

theorem Orderly.step_held (h : Orderly memory objectBufferSize threads s) {i : ℕ}
    (hheld : s.holder = some i) (hs : s.step memory objectBufferSize i = some s') :
    Orderly memory objectBufferSize threads s' := by
  obtain ⟨c, rest, sent, left, htodo, hops, hcurrent, hwire⟩ := h.held i hheld
  cases left with
  | nil =>
      simp only [Senders.step, htodo, hcurrent, List.map_nil, List.nil_append, perform,
        Option.map_some, if_true, Option.some.injEq] at hs
      subst hs
      have hbytes : wireOf (c.ops memory objectBufferSize) = sent.flatten := by
        rw [hops]
        simp [wireOf, ConnectionOp.bytes, List.map_map, Function.comp_def]
      refine ⟨fun j => ?_, fun j _ => ?_, fun _ => ?_, fun j hj => by cases hj⟩
      · rcases eq_or_ne j i with rfl | hj
        · simp [List.filter_append, ← h.log j, htodo]
        · simp [List.filter_append, hj.symm, Function.update_of_ne hj, h.log j]
      · rcases eq_or_ne j i with rfl | hj
        · simp
        · simp only [Function.update_of_ne hj]
          exact h.waiting j (fun he => hj (Option.some.inj (he.symm.trans hheld)))
      · rw [logged_concat, hbytes, ← hwire]
  | cons piece left =>
      simp only [Senders.step, htodo, hcurrent, List.map_cons, List.cons_append, perform, true_or,
        if_true, Option.map_some, List.append_eq_nil_iff, List.cons_ne_nil, and_false, if_false,
        Option.some.injEq] at hs
      subst hs
      refine ⟨h.log, fun j hj => ?_, (fun hn => by cases hheld.symm.trans hn), fun j hj => ?_⟩
      · have hne : j ≠ i := fun he => hj (he ▸ hheld)
        simp only [Function.update_of_ne hne]
        exact h.waiting j hj
      · obtain rfl : i = j := Option.some.inj (hheld.symm.trans hj)
        refine ⟨c, rest, sent ++ [piece], left, htodo, by simpa using hops, by simp, ?_⟩
        simp [hwire]

theorem Orderly.step (h : Orderly memory objectBufferSize threads s)
    (hfits : ∀ i, ∀ c ∈ threads i, c.Fits objectBufferSize) {i : ℕ}
    (hs : s.step memory objectBufferSize i = some s') :
    Orderly memory objectBufferSize threads s' := by
  cases hholder : s.holder with
  | none => exact h.step_free hfits hholder hs
  | some j =>
      rcases eq_or_ne i j with rfl | hne
      · exact h.step_held hholder hs
      · exfalso
        have hcurrent := h.waiting i (fun he => hne (Option.some.inj (he.symm.trans hholder)))
        unfold Senders.step at hs
        split at hs
        swap
        · cases hs
        next c rest op ops htodo hops =>
        have hmem : c ∈ threads i := by
          rw [← h.log i, htodo]
          exact List.mem_append_right _ List.mem_cons_self
        rw [hops, htodo, opsOf] at hcurrent
        rcases atomic_of_fits memory (hfits i c hmem) with
          ⟨bytes, hatomic⟩ | ⟨pieces, hatomic⟩ <;>
          · rw [hatomic, List.cons.injEq] at hcurrent
            obtain ⟨rfl, -⟩ := hcurrent
            simp [perform, hholder] at hs

theorem readCommands_logged {log : List (ℕ × OCommand)}
    (h : ∀ p ∈ log, p.2.Framed memory objectBufferSize) :
    readCommands log.length (logged memory objectBufferSize log) =
      some (log.map (fun p => p.2.received), []) := by
  induction log with
  | nil => rfl
  | cons p log ih =>
      have hp := (h p List.mem_cons_self).2.2 (logged memory objectBufferSize log)
      have hlog := ih (fun q hq => h q (List.mem_cons_of_mem _ hq))
      have hsplit : logged memory objectBufferSize (p :: log) =
          wireOf (p.2.ops memory objectBufferSize) ++ logged memory objectBufferSize log := by
        simp [logged]
      rw [List.length_cons, readCommands, hsplit, hp]
      simp [hlog]

end Senders

/-- A command alone is framed exactly if it fits into the buffer of its stream. When all commands
fit, then whatever the threads do the receiver gets the completed commands, each thread's in its
own order. -/
theorem commands_framed (memory : ℕ → UInt8) (objectBufferSize : ℕ) :
    (∀ c : OCommand, c.size < 2 ^ 64 →
      (c.Framed memory objectBufferSize ↔ c.Fits objectBufferSize)) ∧
    ∀ (threads : ℕ → List OCommand) (schedule : List ℕ) (t : Senders),
      (∀ i, ∀ c ∈ threads i, c.size < 2 ^ 64 ∧ c.Fits objectBufferSize) →
      Machine.run (Senders.step memory objectBufferSize)
        (Senders.start memory objectBufferSize threads) schedule = some t →
      t.holder = none →
      readCommands t.log.length t.wire = some (t.log.map (fun p => p.2.received), []) ∧
        ∀ i, (t.log.filter (fun p => p.1 = i)).map Prod.snd ++ t.todo i = threads i := by
  constructor
  · intro c hsize
    refine ⟨fun hframed => ?_, OCommand.framed_of_fits memory objectBufferSize hsize⟩
    by_contra hover
    exact OCommand.not_framed_of_overrun memory objectBufferSize hsize hover hframed
  · intro threads schedule t hfits hrun hfree
    have h : Senders.Orderly memory objectBufferSize threads t :=
      Machine.run_invariant (Senders.Orderly memory objectBufferSize threads)
        (fun _ _ _ h _ hs => h.step (fun i c hc => (hfits i c hc).2) hs) Senders.orderly_start
        (Machine.steps_true _ schedule) hrun
    refine ⟨?_, h.log⟩
    rw [h.free hfree]
    refine Senders.readCommands_logged (fun p hp => ?_)
    have hmem : p.2 ∈ threads p.1 := by
      rw [← h.log p.1]
      refine List.mem_append_left _ (List.mem_map_of_mem (List.mem_filter.2 ⟨hp, ?_⟩))
      simp
    exact OCommand.framed_of_fits memory objectBufferSize (hfits p.1 p.2 hmem).1
      (hfits p.1 p.2 hmem).2

/-- Two threads: the second sends a command with data before the first one gets the connection. -/
theorem commands_framed_two_threads :
    ∃ t : Senders, Machine.run (Senders.step (fun _ => 0) 60000)
        (Senders.start (fun _ => 0) 60000
          (fun i => if i = 0 then [⟨1, 2, [[7]], []⟩] else if i = 1 then [⟨3, 4, [], [[9]]⟩] else []))
        [1, 1, 1, 1, 1, 0] = some t ∧
      t.log = [(1, ⟨3, 4, [], [[9]]⟩), (0, ⟨1, 2, [[7]], []⟩)] ∧
      readCommands t.log.length t.wire = some (t.log.map (fun p => p.2.received), []) := by
  have h : (Machine.run (Senders.step (fun _ => 0) 60000)
      (Senders.start (fun _ => 0) 60000
        (fun i => if i = 0 then [⟨1, 2, [[7]], []⟩] else if i = 1 then [⟨3, 4, [], [[9]]⟩] else []))
      [1, 1, 1, 1, 1, 0]).map (fun t => decide (t.holder = none ∧
        t.log = [(1, ⟨3, 4, [], [[9]]⟩), (0, ⟨1, 2, [[7]], []⟩)])) = some true := by
    decide +kernel
  obtain ⟨t, hrun, ht⟩ := Option.map_eq_some_iff.1 h
  obtain ⟨hfree, hlog⟩ := of_decide_eq_true ht
  refine ⟨t, hrun, hlog, ((commands_framed (fun _ => 0) 60000).2 _ _ t ?_ hrun hfree).1⟩
  intro i c hc
  split_ifs at hc
  · obtain rfl := List.mem_singleton.1 hc
    decide
  · obtain rfl := List.mem_singleton.1 hc
    decide
  · cases hc

/-- A command with 60001 bytes of arguments at the default buffer size: its second argument sends
the header and the first argument, and the destructor the first 256 bytes of the buffer once more,
with a size of 1. -/
theorem large_command_not_framed :
    ¬ (⟨0, 0, [List.replicate 60000 0, [1]], []⟩ : OCommand).Framed (fun _ => 0) 60000 := by
  have hsize : ∀ first second : Bytes,
      (⟨0, 0, [first, second], []⟩ : OCommand).size = 16 + (first.length + second.length) := by
    intro first second
    simp only [OCommand.size, List.flatten_cons, List.flatten_nil, List.length_append,
      List.length_nil, Nat.add_zero]
  have hfits : ∀ first second : Bytes,
      (⟨0, 0, [first, second], []⟩ : OCommand).Fits 60000 ↔ 16 + first.length ≤ 60000 := by
    intro first second
    simp only [OCommand.Fits, OCommand.words, List.cons_append, List.nil_append,
      List.dropLast_cons_cons, List.dropLast_singleton, List.flatten_cons, List.flatten_nil,
      List.length_append, List.length_nil, length_toLE]
    omega
  refine OCommand.not_framed_of_overrun (fun _ => 0) 60000 ?_ ?_
  · rw [hsize, List.length_replicate, List.length_singleton]
    omega
  · rw [hfits, List.length_replicate]
    omega

end Collage.Stream
