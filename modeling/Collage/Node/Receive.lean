import Mathlib.Algebra.Order.Group.Int
import Mathlib.Algebra.Ring.Nat
import Mathlib.Data.Stream.Init
import Mathlib.Tactic.Common

/-!
# Receiving and sending on a connection

`recvNB`, `recvSync` and `send` of `Connection` over the `readSync` and `write` of a transport,
which may read or write a part of what they are asked for, time out, fail or throw. The results of
the next calls are a list; a call without a result has not returned yet.
-/

namespace Collage.Transfer

/-- `ReadStatus`. What is not negative is a number of bytes. -/
def readTimeout : ℤ := -2

/-- `STATE_CLOSED` and so on. -/
inductive State
  | closed
  | connecting
  | connected
  | listening
  | closing
  deriving DecidableEq, Repr

inductive Exception
  | timeoutWrite
  | timeoutRead
  deriving DecidableEq, Repr

/-- A buffer has `maxSize` bytes of memory, and the first `size` of them are its content. -/
structure Buffer where
  memory : ℕ → UInt8
  size : ℕ
  maxSize : ℕ

namespace Buffer

variable (b : Buffer)

def data : List UInt8 := (List.range b.size).map b.memory

def reserve (maxSize : ℕ) : Buffer := { b with maxSize := max b.maxSize maxSize }

def resize (size : ℕ) : Buffer := { b.reserve size with size }

/-- Bytes are copied to the address `ptr`. -/
def store (ptr : ℕ) (bytes : List UInt8) : Buffer :=
  { b with memory := fun i => if ptr ≤ i then (bytes[i - ptr]?).getD (b.memory i) else b.memory i }

@[simp] theorem store_nil (ptr : ℕ) : b.store ptr [] = b := by
  simp [store]

@[simp] theorem size_store (ptr : ℕ) (bytes : List UInt8) : (b.store ptr bytes).size = b.size := rfl

theorem store_store (ptr : ℕ) (bytes more : List UInt8) :
    (b.store ptr bytes).store (ptr + bytes.length) more = b.store ptr (bytes ++ more) := by
  simp only [store, Buffer.mk.injEq, and_true]
  funext i
  rcases lt_or_ge i ptr with hi | hi
  · rw [if_neg (by omega), if_neg (by omega), if_neg (by omega)]
  · rw [if_pos hi, if_pos hi]
    rcases lt_or_ge i (ptr + bytes.length) with hlt | hge
    · rw [if_neg (by omega), List.getElem?_append_left (by omega)]
    · rw [if_pos hge, List.getElem?_append_right (by omega),
        List.getElem?_eq_none (show bytes.length ≤ i - ptr by omega), Nat.sub_add_eq]
      rfl

theorem memory_store_of_lt {ptr i : ℕ} (hi : i < ptr) (bytes : List UInt8) :
    (b.store ptr bytes).memory i = b.memory i := if_neg (not_le.2 hi)

theorem data_resize_store {n : ℕ} {bytes : List UInt8} (hn : bytes.length = n) :
    ((b.store b.size bytes).resize (b.size + n)).data = b.data ++ bytes := by
  refine List.ext_getElem (by simp [data, resize, hn]) (fun i hi _ => ?_)
  simp only [data, resize, reserve, List.length_map, List.length_range] at hi
  rcases lt_or_ge i b.size with hlt | hge
  · simp only [data, resize, reserve, List.getElem_map, List.getElem_range]
    rw [memory_store_of_lt b hlt, List.getElem_append_left (by simpa using hlt), List.getElem_map,
      List.getElem_range]
  · simp only [data, resize, reserve, List.getElem_map, List.getElem_range]
    rw [List.getElem_append_right (by simpa using hge)]
    simp only [store, if_pos hge, List.length_map, List.length_range]
    rw [List.getElem?_eq_getElem (by omega), Option.getD_some]

end Buffer

theorem take_add (s : Stream' UInt8) (m n : ℕ) :
    s.take (m + n) = s.take m ++ (s.drop m).take n := by
  induction m generalizing s with
  | zero => simp
  | succ m ih =>
      rw [Nat.add_right_comm, Stream'.take_succ, ih s.tail, Stream'.take_succ, List.cons_append,
        Stream'.drop_tail']

section Results

variable {n : ℕ} {results : List (Except Exception ℤ)}

def given : Except Exception ℤ → ℕ
  | .ok result => result.toNat
  | .error _ => 0

def taken (results : List (Except Exception ℤ)) : ℕ := (results.map given).sum

def fails : Except Exception ℤ → Bool
  | .ok result => result < 0
  | .error _ => true

/-- The results are enough for `n` bytes, or one of them is a failure. -/
def Settles (n : ℕ) (results : List (Except Exception ℤ)) : Prop :=
  n ≤ taken results ∨ results.any fails = true

instance (n : ℕ) (results : List (Except Exception ℤ)) : Decidable (Settles n results) :=
  inferInstanceAs (Decidable (_ ∨ _))

theorem taken_cons (result : Except Exception ℤ) (results : List (Except Exception ℤ)) :
    taken (result :: results) = given result + taken results := by
  rw [taken, List.map_cons, List.sum_cons, taken]

theorem taken_concat (results : List (Except Exception ℤ)) (result : Except Exception ℤ) :
    taken (results ++ [result]) = taken results + given result := by
  rw [taken, List.map_append, List.sum_append, List.map_singleton, List.sum_singleton, taken]

theorem any_fails_concat {result : ℤ} (h : results.any fails = false) (hresult : 0 ≤ result) :
    (results ++ [Except.ok result]).any fails = false := by
  rw [List.any_append, h, Bool.false_or, List.any_cons, List.any_nil, Bool.or_false]
  exact decide_eq_false (not_lt.2 hresult)

theorem settles_of_eq_zero (hn : n = 0) : Settles n results := Or.inl (hn ▸ Nat.zero_le _)

theorem not_settles_nil (hn : 0 < n) : ¬ Settles n [] := by
  simpa [Settles, taken] using hn.ne'

theorem settles_cons_of_fails {result : Except Exception ℤ} (h : fails result = true) :
    Settles n (result :: results) :=
  Or.inr (by rw [List.any_cons, h, Bool.true_or])

theorem settles_cons_of_le {result : Except Exception ℤ} (h : n ≤ given result) :
    Settles n (result :: results) :=
  Or.inl (h.trans (by rw [taken_cons]; exact Nat.le_add_right _ _))

theorem settles_cons_ok {result : ℤ} (hresult : 0 ≤ result) :
    Settles n (.ok result :: results) ↔ Settles (n - result.toNat) results := by
  have hfails : fails (.ok result) = false := decide_eq_false (not_lt.2 hresult)
  rw [Settles, Settles, taken_cons, List.any_cons, hfails, Bool.false_or, given,
    Nat.sub_le_iff_le_add']

theorem settles_cons_min (result : ℤ) (hn : 0 < n) :
    Settles n (.ok (min result n) :: results) ↔ Settles n (.ok result :: results) := by
  rcases le_total result n with hle | hge
  · rw [min_eq_left hle]
  · rw [min_eq_right hge]
    refine iff_of_true (settles_cons_of_le ?_) (settles_cons_of_le ?_) <;> simp only [given] <;>
      omega

end Results

structure Connection where
  state : State
  buffer : Option Buffer
  bytes : ℕ

structure Received where
  returned : Except Exception Bool
  outBuffer : Option Buffer
  connection : Connection
  results : List (Except Exception ℤ)
  incoming : Stream' UInt8

/-- `readSync` of the transport, which gives no more bytes than it is asked for. -/
def readSync (result : ℤ) (incoming : Stream' UInt8) (buffer : Buffer) (ptr bytes : ℕ) :
    ℤ × Buffer × Stream' UInt8 :=
  let got := min result bytes
  (got, buffer.store ptr (incoming.take got.toNat), incoming.drop got.toNat)

namespace Connection

variable (c : Connection)

/-- The read that is started does not give a result yet. -/
def recvNB (buffer : Buffer) (bytes : ℕ) : Connection :=
  { c with
    buffer := some (buffer.reserve (buffer.size + bytes))
    bytes := bytes }

/-- `resetRecvData`, also done at the start of `recvSync`. -/
def resetRecvData : Connection := { c with buffer := none, bytes := 0 }

/-- The receive loop of `recvSync`. -/
def recvLoop (bytes : ℕ) (results : List (Except Exception ℤ)) (ptr bytesLeft : ℕ) (got : ℤ)
    (outBuffer : Buffer) (incoming : Stream' UInt8) : Option Received :=
  if got < 0 then
    some ⟨.ok false, some (outBuffer.resize (outBuffer.size + (bytes - bytesLeft))),
      c.resetRecvData, results, incoming⟩
  else if got = 0 ∧ bytes = bytesLeft then
    some ⟨.ok false, some outBuffer, c.resetRecvData, results, incoming⟩
  else if got < bytesLeft then
    match results with
    | [] => none
    | .error e :: results => some ⟨.error e, some outBuffer, c.resetRecvData, results, incoming⟩
    | .ok result :: results =>
        let (next, outBuffer, incoming) :=
          readSync result incoming outBuffer (ptr + got.toNat) (bytesLeft - got.toNat)
        recvLoop bytes results (ptr + got.toNat) (bytesLeft - got.toNat) next outBuffer incoming
  else
    some ⟨.ok true, some (outBuffer.resize (outBuffer.size + bytes)), c.resetRecvData, results,
      incoming⟩

def recvSync (results : List (Except Exception ℤ)) (incoming : Stream' UInt8) : Option Received :=
  match c.buffer with
  | none => some ⟨.ok false, none, c.resetRecvData, results, incoming⟩
  | some outBuffer =>
      if c.state ≠ .connected ∨ c.bytes = 0 then
        some ⟨.ok false, some outBuffer, c.resetRecvData, results, incoming⟩
      else
        match results with
        | [] => none
        | .error e :: results =>
            some ⟨.error e, some outBuffer, c.resetRecvData, results, incoming⟩
        | .ok result :: results =>
            let (got, outBuffer, incoming) :=
              readSync result incoming outBuffer outBuffer.size c.bytes
            if got = readTimeout then
              some ⟨.ok true, none,
                { c.resetRecvData with
                  buffer := some outBuffer
                  bytes := c.bytes }, results, incoming⟩
            else
              c.recvLoop c.bytes results outBuffer.size c.bytes got outBuffer incoming

variable {c}

section Receive

variable {b : Buffer} {n : ℕ} {incoming : Stream' UInt8} {results : List (Except Exception ℤ)}
  {r : Received}

/-- How a receive of `n` bytes behind some content ends with the results that were used: what is
returned, and the content then. -/
inductive Ends (n : ℕ) (content : List UInt8) (incoming : Stream' UInt8) :
    List (Except Exception ℤ) → Except Exception Bool → List UInt8 → Prop
  | disconnected : Ends n content incoming [] (.ok false) content
  | zero : Ends n content incoming [.ok 0] (.ok false) content
  | error {used : List (Except Exception ℤ)} {result : ℤ} (hused : taken used < n)
      (hresult : result < 0) :
      Ends n content incoming (used ++ [Except.ok result]) (.ok false)
        (content ++ incoming.take (taken used))
  | throws {used : List (Except Exception ℤ)} (hused : taken used < n) (e : Exception) :
      Ends n content incoming (used ++ [Except.error e]) (.error e) content
  | done {used : List (Except Exception ℤ)} (hused : n ≤ taken used)
      (hfails : used.any fails = false) :
      Ends n content incoming used (.ok true) (content ++ incoming.take n)

/-- The pending receive is over. Nothing was copied behind the memory that `recvNB` has reserved. -/
structure Over (c : Connection) (b : Buffer) (n : ℕ) (results : List (Except Exception ℤ))
    (incoming : Stream' UInt8) (r : Received) : Prop where
  connection : r.connection = c.resetRecvData
  ended : ∃ used out, results = used ++ r.results ∧ r.outBuffer = some out ∧
    Ends n b.data incoming used r.returned out.data ∧
    r.incoming = incoming.drop (min n (taken used)) ∧
    ∀ i, b.size + n ≤ i → out.memory i = b.memory i

theorem memory_store_take (b : Buffer) {k i : ℕ} (hk : k ≤ n) (hi : b.size + n ≤ i) :
    (b.store b.size (incoming.take k)).memory i = b.memory i := by
  simp only [Buffer.store, if_pos (show b.size ≤ i by omega)]
  rw [List.getElem?_eq_none (by rw [Stream'.length_take]; omega), Option.getD_none]

theorem data_resize_take (b : Buffer) (incoming : Stream' UInt8) (k : ℕ) :
    ((b.store b.size (incoming.take k)).resize (b.size + k)).data = b.data ++ incoming.take k :=
  b.data_resize_store (Stream'.length_take k incoming)

theorem data_store_take (b : Buffer) (incoming : Stream' UInt8) (k : ℕ) :
    (b.store b.size (incoming.take k)).data = b.data :=
  List.map_congr_left (fun _ hi => b.memory_store_of_lt (List.mem_range.1 hi) _)

theorem readSync_take (b : Buffer) (incoming : Stream' UInt8) (result : ℤ) (k bytes : ℕ) :
    readSync result (incoming.drop k) (b.store b.size (incoming.take k)) (b.size + k) bytes =
      (min result bytes, b.store b.size (incoming.take (k + (min result bytes).toNat)),
        incoming.drop (k + (min result bytes).toNat)) := by
  have hstore := b.store_store b.size (incoming.take k)
    ((incoming.drop k).take (min result bytes).toNat)
  rw [Stream'.length_take, ← take_add] at hstore
  rw [readSync, hstore, Stream'.drop_drop]

variable (c b n incoming) in
/-- The loop after `k` bytes and one more result. -/
def recvFrom (results : List (Except Exception ℤ)) (k : ℕ) (got : ℤ) : Option Received :=
  c.recvLoop n results (b.size + k) (n - k) got (b.store b.size (incoming.take (k + got.toNat)))
    (incoming.drop (k + got.toNat))

/-- A turn of the loop, after the results `used` and one more, ends the receive or takes a further
result. -/
theorem recvFrom_cases {used : List (Except Exception ℤ)} {result : ℤ}
    (hfails : used.any fails = false) (hused : taken used < n) (hzero : used ≠ [] → taken used ≠ 0)
    (h : c.recvFrom b n incoming results (taken used) (min result (n - taken used : ℕ)) =
      some r) :
    Over c b n (used ++ .ok result :: results) incoming r ∨
      ∃ next rest, results = .ok next :: rest ∧ 0 ≤ result ∧
        taken (used ++ [Except.ok result]) < n ∧ taken (used ++ [Except.ok result]) ≠ 0 ∧
        c.recvFrom b n incoming rest (taken (used ++ [Except.ok result]))
          (min next (n - taken (used ++ [Except.ok result]) : ℕ)) = some r := by
  have hsum := taken_concat used (.ok result)
  simp only [given] at hsum
  rw [recvFrom, recvLoop.eq_def] at h
  split_ifs at h with herror hempty hpartial
  · obtain rfl := Option.some.inj h
    have hneg : result < 0 := by omega
    rw [Int.toNat_of_nonpos herror.le, Nat.add_zero, Nat.sub_sub_self hused.le]
    refine Or.inl ⟨rfl, used ++ [Except.ok result], _, by simp, rfl, ?_, ?_,
      fun _ hi => memory_store_take b hused.le hi⟩
    · simp only [Buffer.size_store, data_resize_take]
      exact .error hused hneg
    · rw [hsum, Int.toNat_of_nonpos hneg.le, Nat.add_zero, min_eq_right hused.le]
  · obtain rfl := Option.some.inj h
    have hnil : used = [] := by
      by_contra hne
      exact hzero hne (by omega)
    obtain rfl : result = 0 := by omega
    subst hnil
    refine Or.inl ⟨rfl, [.ok 0], b, rfl, ?_, .zero, ?_, fun _ _ => rfl⟩
    · simp [taken]
    · simp [taken, given]
  · have hresult : 0 ≤ result := by omega
    rw [show min result (n - taken used : ℕ) = result by omega] at h hpartial hempty
    rw [← hsum] at h
    have hnext : taken (used ++ [Except.ok result]) < n := by omega
    cases results with
    | nil => cases h
    | cons next rest =>
        cases next with
        | error e =>
            obtain rfl := Option.some.inj h
            have htaken := taken_concat (used ++ [Except.ok result]) (.error e)
            simp only [given, Nat.add_zero] at htaken
            refine Or.inl ⟨rfl, used ++ [Except.ok result] ++ [Except.error e], _, by simp, rfl,
              ?_, ?_, fun _ hi => memory_store_take b hnext.le hi⟩
            · rw [data_store_take]
              exact .throws hnext e
            · rw [htaken, min_eq_right hnext.le]
        | ok next =>
            refine Or.inr ⟨next, rest, rfl, hresult, hnext, by omega, ?_⟩
            simp only [Nat.add_assoc b.size, Nat.sub_sub, ← hsum, readSync_take] at h
            exact h
  · obtain rfl := Option.some.inj h
    have hfull : taken used + (min result (n - taken used : ℕ)).toNat = n := by omega
    rw [hfull]
    refine Or.inl ⟨rfl, used ++ [Except.ok result], _, by simp, rfl, ?_, ?_,
      fun _ hi => memory_store_take b le_rfl hi⟩
    · simp only [Buffer.size_store, data_resize_take]
      exact .done (by omega) (any_fails_concat hfails (by omega))
    · rw [min_eq_left (by omega)]

theorem over_recvFrom {used : List (Except Exception ℤ)} {result : ℤ}
    (hfails : used.any fails = false) (hused : taken used < n) (hzero : used ≠ [] → taken used ≠ 0)
    (h : c.recvFrom b n incoming results (taken used) (min result (n - taken used : ℕ)) =
      some r) : Over c b n (used ++ .ok result :: results) incoming r := by
  induction results generalizing used result with
  | nil =>
      rcases recvFrom_cases hfails hused hzero h with hr | ⟨next, rest, heq, -⟩
      · exact hr
      · cases heq
  | cons _ results ih =>
      rcases recvFrom_cases hfails hused hzero h with hr | ⟨next, rest, heq, hresult, hlt, hne, hr⟩
      · exact hr
      · obtain ⟨rfl, rfl⟩ := List.cons.inj heq
        have hover := ih (any_fails_concat hfails hresult) hlt (fun _ => hne) hr
        rwa [List.append_assoc, List.singleton_append] at hover

theorem isSome_recvFrom {k : ℕ} {got : ℤ} (hk : k < n) (hgot : got ≤ (n - k : ℕ))
    (hzero : got = 0 → k ≠ 0) :
    (c.recvFrom b n incoming results k got).isSome = true ↔
      Settles (n - k) (.ok got :: results) := by
  induction results generalizing k got with
  | nil =>
      rw [recvFrom, recvLoop.eq_def]
      split_ifs with herror hempty hpartial
      · exact iff_of_true rfl (settles_cons_of_fails (decide_eq_true herror))
      · exact absurd (by omega) (hzero hempty.1)
      · rw [settles_cons_ok (not_lt.1 herror)]
        exact iff_of_false Bool.false_ne_true (not_settles_nil (by omega))
      · exact iff_of_true rfl (settles_cons_of_le (by simp only [given]; omega))
  | cons result results ih =>
      rw [recvFrom, recvLoop.eq_def]
      split_ifs with herror hempty hpartial
      · exact iff_of_true rfl (settles_cons_of_fails (decide_eq_true herror))
      · exact absurd (by omega) (hzero hempty.1)
      · rw [settles_cons_ok (not_lt.1 herror)]
        cases result with
        | error e => exact iff_of_true rfl (settles_cons_of_fails rfl)
        | ok result =>
            simp only [Nat.add_assoc b.size, Nat.sub_sub, readSync_take]
            rw [← settles_cons_min result (by omega)]
            exact ih (by omega) (min_le_right _ _) (by omega)
      · exact iff_of_true rfl (settles_cons_of_le (by simp only [given]; omega))

theorem recvSync_of_connected (hb : c.buffer = some b) (hn : 0 < c.bytes)
    (hstate : c.state = .connected) (result : ℤ) :
    c.recvSync (.ok result :: results) incoming =
      if result = readTimeout then some ⟨.ok true, none, c, results, incoming⟩
      else c.recvFrom b c.bytes incoming results 0 (min result c.bytes) := by
  have hread := readSync_take b incoming result 0 c.bytes
  have hmin : min result c.bytes = readTimeout ↔ result = readTimeout := by
    simp only [readTimeout]
    omega
  simp only [Stream'.take_zero, Buffer.store_nil, Stream'.drop_zero, Nat.add_zero, Nat.zero_add]
    at hread
  rw [recvSync, hb]
  simp only [hstate, ne_eq, not_true_eq_false, hn.ne', or_false, if_false, hread, hmin]
  split_ifs with htimeout
  · rw [htimeout, min_eq_left (by simp only [readTimeout]; omega)]
    simp only [readTimeout, Int.reduceNeg, Int.reduceToNat, Stream'.take_zero, Buffer.store_nil,
      Stream'.drop_zero, resetRecvData, ← hb]
  · simp only [recvFrom, Buffer.size_store, Nat.add_zero, Nat.zero_add, Nat.sub_zero]

/-- A first read that times out leaves the pending receive as it was. Any other receive is over
when it returns. -/
theorem recvSync_cases (hb : c.buffer = some b) (hn : 0 < c.bytes)
    (h : c.recvSync results incoming = some r) :
    (c.state = .connected ∧ ∃ rest, results = .ok readTimeout :: rest ∧
      r = ⟨.ok true, none, c, rest, incoming⟩) ∨
    ¬ (c.state = .connected ∧ results.head? = some (.ok readTimeout)) ∧
      Over c b c.bytes results incoming r := by
  by_cases hstate : c.state = .connected
  · cases results with
    | nil =>
        rw [recvSync, hb] at h
        simp [hstate, hn.ne'] at h
    | cons result rest =>
        cases result with
        | error e =>
            rw [recvSync, hb] at h
            simp only [hstate, ne_eq, not_true_eq_false, hn.ne', or_false, if_false] at h
            obtain rfl := Option.some.inj h
            exact Or.inr ⟨by simp, rfl, [.error e], b, rfl, rfl, @Ends.throws _ _ _ [] hn e,
              by simp [taken, given], fun _ _ => rfl⟩
        | ok result =>
            rw [recvSync_of_connected hb hn hstate] at h
            split_ifs at h with htimeout
            · exact Or.inl ⟨hstate, rest, by rw [htimeout], (Option.some.inj h).symm⟩
            · refine Or.inr ⟨by simpa using fun _ => htimeout, ?_⟩
              have hnone : ([] : List (Except Exception ℤ)).any fails = false := rfl
              exact over_recvFrom hnone hn (fun hne => absurd rfl hne) h
  · rw [recvSync, hb] at h
    simp only [hstate, ne_eq, not_false_eq_true, true_or, if_true] at h
    obtain rfl := Option.some.inj h
    exact Or.inr ⟨fun hc => hstate hc.1, rfl, [], b, rfl, rfl, .disconnected, by simp [taken],
      fun _ _ => rfl⟩

/-- A connected receive returns exactly if its first read is empty or times out, or the results are
enough or fail. -/
theorem isSome_recvSync (hb : c.buffer = some b) (hn : 0 < c.bytes)
    (hstate : c.state = .connected) :
    (c.recvSync results incoming).isSome = true ↔
      results.head? = some (.ok 0) ∨ Settles c.bytes results := by
  cases results with
  | nil =>
      rw [recvSync, hb]
      simpa [hstate, hn.ne'] using not_settles_nil hn
  | cons result rest =>
      cases result with
      | error e =>
          rw [recvSync, hb]
          simp only [hstate, ne_eq, not_true_eq_false, hn.ne', or_false, if_false]
          exact iff_of_true rfl (Or.inr (settles_cons_of_fails rfl))
      | ok result =>
          rw [recvSync_of_connected hb hn hstate]
          split_ifs with htimeout
          · refine iff_of_true rfl (Or.inr (settles_cons_of_fails ?_))
            rw [htimeout]
            rfl
          · rcases eq_or_ne result 0 with rfl | hne
            · refine iff_of_true ?_ (Or.inl rfl)
              rw [min_eq_left (Int.natCast_nonneg _), recvFrom, recvLoop.eq_def]
              simp
            · have hsome :
                  (c.recvFrom b c.bytes incoming rest 0 (min result c.bytes)).isSome = true ↔
                    Settles (c.bytes - 0) (.ok (min result c.bytes) :: rest) :=
                isSome_recvFrom hn (min_le_right result _) (by omega)
              rw [Nat.sub_zero, settles_cons_min _ hn] at hsome
              simpa [hne] using hsome

theorem Ends.returned_iff {content data : List UInt8} {used : List (Except Exception ℤ)}
    {returned : Except Exception Bool} (h : Ends n content incoming used returned data)
    (hn : 0 < n) : returned = .ok true ↔ data = content ++ incoming.take n := by
  have hshort : ∀ k < n, content ++ incoming.take k ≠ content ++ incoming.take n := by
    intro k hk heq
    have hlen := congrArg List.length (List.append_cancel_left heq)
    rw [Stream'.length_take, Stream'.length_take] at hlen
    omega
  have hnone : content ≠ content ++ incoming.take n := by
    simpa using hshort 0 hn
  cases h with
  | disconnected => exact iff_of_false (by simp) hnone
  | zero => exact iff_of_false (by simp) hnone
  | error hused hresult => exact iff_of_false (by simp) (hshort _ hused)
  | throws hused e => exact iff_of_false (by simp) hnone
  | done hused hfails => exact iff_of_true rfl rfl

end Receive

end Connection

/-- The number of bytes that `write` of the transport has written, or -1 upon an error. -/
abbrev Wrote : Type := { wrote : ℤ // -1 ≤ wrote }

/-- What a send returns, and what it has written. -/
structure Sent where
  returned : Bool
  closed : Bool
  written : List UInt8
  results : List (Except Exception Wrote)

/-- The loop of `send`. The transport writes no more bytes than it is given. -/
def sendLoop (buffer : List UInt8) (results : List (Except Exception Wrote)) (ptr bytesLeft : ℕ)
    (written : List UInt8) : Option Sent :=
  if bytesLeft = 0 then some ⟨true, false, written, results⟩
  else
    match results with
    | [] => none
    | .error _ :: results => some ⟨false, true, written, results⟩
    | .ok result :: results =>
        let wrote := min result.1 bytesLeft
        if wrote = -1 then some ⟨false, true, written, results⟩
        else
          sendLoop buffer results (ptr + wrote.toNat) (bytesLeft - wrote.toNat)
            (written ++ (buffer.drop ptr).take wrote.toNat)

def send (buffer : List UInt8) (results : List (Except Exception Wrote)) : Option Sent :=
  if buffer.length = 0 then some ⟨true, false, [], results⟩
  else sendLoop buffer results 0 buffer.length []

section Send

variable {buffer : List UInt8} {results : List (Except Exception Wrote)} {s : Sent}

/-- Everything was written, or the connection is closed after a part of it. -/
def Ended (buffer : List UInt8) (s : Sent) : Prop :=
  s.returned = true ∧ s.closed = false ∧ s.written = buffer ∨
    s.returned = false ∧ s.closed = true ∧ ∃ k < buffer.length, s.written = buffer.take k

theorem ended_sendLoop {ptr : ℕ} (hptr : ptr ≤ buffer.length)
    (h : sendLoop buffer results ptr (buffer.length - ptr) (buffer.take ptr) = some s) :
    Ended buffer s := by
  induction results generalizing ptr with
  | nil =>
      rw [sendLoop.eq_def] at h
      split_ifs at h with hdone
      obtain rfl := Option.some.inj h
      exact Or.inl ⟨rfl, rfl, List.take_of_length_le (by omega)⟩
  | cons result results ih =>
      rw [sendLoop.eq_def] at h
      split_ifs at h with hdone
      · obtain rfl := Option.some.inj h
        exact Or.inl ⟨rfl, rfl, List.take_of_length_le (by omega)⟩
      · cases result with
        | error e =>
            obtain rfl := Option.some.inj h
            exact Or.inr ⟨rfl, rfl, ptr, by omega, rfl⟩
        | ok result =>
            simp only at h
            split_ifs at h with herror
            · obtain rfl := Option.some.inj h
              exact Or.inr ⟨rfl, rfl, ptr, by omega, rfl⟩
            · rw [← List.take_add, Nat.sub_sub] at h
              exact ih (by omega) h

/-- The results of `write` as those of a transport. -/
def writeResults (results : List (Except Exception Wrote)) : List (Except Exception ℤ) :=
  results.map (Except.map Subtype.val)

theorem isSome_sendLoop {ptr bytesLeft : ℕ} {written : List UInt8} :
    (sendLoop buffer results ptr bytesLeft written).isSome = true ↔
      Settles bytesLeft (writeResults results) := by
  induction results generalizing ptr bytesLeft written with
  | nil =>
      rw [sendLoop.eq_def]
      split_ifs with hdone
      · exact iff_of_true rfl (settles_of_eq_zero hdone)
      · exact iff_of_false Bool.false_ne_true (not_settles_nil (Nat.pos_of_ne_zero hdone))
  | cons result results ih =>
      rw [sendLoop.eq_def]
      split_ifs with hdone
      · exact iff_of_true rfl (settles_of_eq_zero hdone)
      · cases result with
        | error e => exact iff_of_true rfl (settles_cons_of_fails rfl)
        | ok result =>
            have hresult := result.2
            have hmin := @settles_cons_min bytesLeft (writeResults results) result.1
              (Nat.pos_of_ne_zero hdone)
            simp only [writeResults, List.map_cons, Except.map] at hmin ⊢
            rw [← hmin]
            split_ifs with herror
            · refine iff_of_true rfl (settles_cons_of_fails ?_)
              rw [herror]
              rfl
            · rw [settles_cons_ok (by omega)]
              exact ih

theorem isSome_send :
    (send buffer results).isSome = true ↔ Settles buffer.length (writeResults results) := by
  unfold send
  split_ifs with hnil
  · exact iff_of_true rfl (settles_of_eq_zero hnil)
  · exact isSome_sendLoop

theorem ended_send (h : send buffer results = some s) : Ended buffer s := by
  unfold send at h
  split_ifs at h with hnil
  · obtain rfl := Option.some.inj h
    exact Or.inl ⟨rfl, rfl, (List.eq_nil_of_length_eq_zero hnil).symm⟩
  · exact ended_sendLoop (Nat.zero_le _) (by simpa using h)

end Send

/-- Whatever the transport gives: a receive returns data and true exactly when the bytes it was to
receive are behind the former content, and a first read that times out restores it. It returns as
soon as the results are enough. What a send has written is the front of the buffer, and all of it
when it returns true. -/
theorem transfer_exact {c : Connection} {b : Buffer} (hb : c.buffer = some b) (hn : 0 < c.bytes)
    (results : List (Except Exception ℤ)) (incoming : Stream' UInt8) (buffer : List UInt8)
    (writes : List (Except Exception Wrote)) :
    (c.state = .connected → ((c.recvSync results incoming).isSome = true ↔
      results.head? = some (.ok 0) ∨ Settles c.bytes results)) ∧
    (∀ r, c.recvSync results incoming = some r →
      (r.returned = .ok true ∧ r.outBuffer ≠ none ↔
        ∃ out, r.outBuffer = some out ∧ out.data = b.data ++ incoming.take c.bytes) ∧
      (c.state = .connected ∧ (∃ rest, results = .ok readTimeout :: rest ∧
          r = ⟨.ok true, none, c, rest, incoming⟩) ∨
        ¬ (c.state = .connected ∧ results.head? = some (.ok readTimeout)) ∧
          c.Over b c.bytes results incoming r)) ∧
    ((send buffer writes).isSome = true ↔ Settles buffer.length (writeResults writes)) ∧
    ∀ s, send buffer writes = some s → Ended buffer s := by
  refine ⟨Connection.isSome_recvSync hb hn, fun r hr => ⟨?_, Connection.recvSync_cases hb hn hr⟩,
    isSome_send, fun s hs => ended_send hs⟩
  obtain ⟨-, rest, -, rfl⟩ | ⟨-, hover⟩ := Connection.recvSync_cases hb hn hr
  · simp
  · obtain ⟨used, out, -, hout, hends, -, -⟩ := hover.ended
    simp [hout, hends.returned_iff hn]

/-- Three bytes are read behind two others, with an empty read between two partial ones. -/
theorem transfer_exact_partial :
    let b : Buffer := ⟨fun _ => 7, 2, 2⟩
    let c := (Connection.mk .connected none 0).recvNB b 3
    ∃ r out, c.recvSync [.ok 1, .ok 0, .ok 5] (fun i => UInt8.ofNat i) = some r ∧
      r.returned = .ok true ∧ r.outBuffer = some out ∧ out.data = [7, 7, 0, 1, 2] := by
  intro b c
  obtain ⟨hreturns, hreceived, -⟩ := transfer_exact (c := c) rfl (by decide)
    [.ok 1, .ok 0, .ok 5] (fun i => UInt8.ofNat i) [] []
  obtain ⟨r, hr⟩ := Option.isSome_iff_exists.1 ((hreturns rfl).2 (Or.inr (by decide)))
  have hreturned : r.returned = .ok true := by
    have heq : (c.recvSync [.ok 1, .ok 0, .ok 5] (fun i => UInt8.ofNat i)).map Received.returned =
      some (.ok true) := rfl
    rw [hr] at heq
    exact Option.some.inj heq
  have hsome : r.outBuffer ≠ none := by
    have heq : (c.recvSync [.ok 1, .ok 0, .ok 5] (fun i => UInt8.ofNat i)).map
      (fun r => r.outBuffer.isSome) = some true := rfl
    rw [hr] at heq
    exact Option.isSome_iff_ne_none.1 (Option.some.inj heq)
  obtain ⟨out, hout, hdata⟩ := (hreceived r hr).1.1 ⟨hreturned, hsome⟩
  exact ⟨r, out, hr, hreturned, hout, hdata⟩

end Collage.Transfer
