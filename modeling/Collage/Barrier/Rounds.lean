import Mathlib.Data.Fintype.EquivFin
import Collage.Barrier.Timeouts

/-!
# Rounds of a barrier without timeouts

As many participants as the height enter a barrier again and again, without timeouts and with one
version. Each round is released once to each of them, when all have entered it.
-/

namespace Collage.Barrier

variable {P : Type} [DecidableEq P] {height defaultTimeout : ℕ} {isLocal : P → Bool}

def Event.Steady : Event P → Prop
  | .enter _ limit => limit = timeoutIndefinite
  | .timeout _ | .commit _ | .sync _ _ => False
  | .tick _ | .leave _ | .command _ _ | .reply _ => True

instance : DecidablePred (Event.Steady (P := P))
  | .enter _ _ => inferInstanceAs (Decidable (_ = _))
  | .timeout _ | .commit _ | .sync _ _ => isFalse id
  | .tick _ | .leave _ | .command _ _ | .reply _ => isTrue trivial

omit [DecidableEq P] in
theorem Request.count_indefinite {r : Request P} {e : Enter P} (now : ℕ)
    (hr : r.nodes ≠ [] → r.timeout = timeoutIndefinite) (he : e.timeout = timeoutIndefinite) :
    (r.count now e).2 = true ∧ (r.count now e).1.nodes = r.nodes ++ [(e.node, e.call)] ∧
      (r.count now e).1.timeout = timeoutIndefinite := by
  by_cases hnil : r.nodes = []
  · simp only [count, hnil, if_true, List.nil_append, true_and]
    exact he
  · simp only [count, if_neg hnil, hr hnil, ne_eq, not_true_eq_false, if_false, and_self]

namespace World

variable {w w' : World P} {version : ℕ}

/-- The participants that are counted in this round. -/
def present (w : World P) (version : ℕ) : List P := (w.master.request version).nodes.map Prod.fst

theorem sendNotify_self (isLocal : P → Bool) (hversion : version = w.master.version) (p : P) :
    (sendNotify isLocal version w p).rounds = w.rounds ∧
      (sendNotify isLocal version w p).version = w.version ∧
      (sendNotify isLocal version w p).waiting = w.waiting ∧
      (sendNotify isLocal version w p).left = w.left ∧
      ∀ q, ((sendNotify isLocal version w p).incarnation q,
          (sendNotify isLocal version w p).replies q) =
        if q = p then
          if isLocal q then (w.incarnation q + 1, w.replies q)
          else (w.incarnation q, w.replies q ++ [version])
        else (w.incarnation q, w.replies q) := by
  unfold sendNotify
  split_ifs with hlocal
  · refine ⟨rfl, rfl, rfl, rfl, fun q => ?_⟩
    rcases eq_or_ne q p with rfl | hne
    · simp only [Function.update_self, if_true, hlocal]
    · simp only [Function.update_of_ne hne, if_neg hne]
  · refine ⟨rfl, rfl, rfl, rfl, fun q => ?_⟩
    rcases eq_or_ne q p with rfl | hne
    · simp only [Function.update_self, if_true, hlocal]
      rfl
    · simp only [Function.update_of_ne hne, if_neg hne]

theorem foldl_sendNotify (isLocal : P → Bool) {ps : List P} (hnodup : ps.Nodup)
    (hversion : version = w.master.version) :
    (ps.foldl (sendNotify isLocal version) w).rounds = w.rounds ∧
      (ps.foldl (sendNotify isLocal version) w).version = w.version ∧
      (ps.foldl (sendNotify isLocal version) w).waiting = w.waiting ∧
      (ps.foldl (sendNotify isLocal version) w).left = w.left ∧
      ∀ q, ((ps.foldl (sendNotify isLocal version) w).incarnation q,
          (ps.foldl (sendNotify isLocal version) w).replies q) =
        if q ∈ ps then
          if isLocal q then (w.incarnation q + 1, w.replies q)
          else (w.incarnation q, w.replies q ++ [version])
        else (w.incarnation q, w.replies q) := by
  induction ps generalizing w with
  | nil => exact ⟨rfl, rfl, rfl, rfl, fun q => (if_neg List.not_mem_nil).symm⟩
  | cons p ps ih =>
      rw [List.nodup_cons] at hnodup
      obtain ⟨hrounds, hversions, hwaiting, hleft, hself⟩ :=
        sendNotify_self isLocal hversion p
      have hmaster := (sendNotify_frame isLocal version w p).2.2
      obtain ⟨hrounds', hversions', hwaiting', hleft', hrest⟩ :=
        @ih (sendNotify isLocal version w p) hnodup.2 (hversion.trans (by rw [hmaster]))
      refine ⟨hrounds'.trans hrounds, hversions'.trans hversions, hwaiting'.trans hwaiting,
        hleft'.trans hleft, fun q => ?_⟩
      have hq := hself q
      rw [List.foldl_cons, hrest q]
      rcases eq_or_ne q p with rfl | hne
      · rw [if_neg hnodup.1, if_pos List.mem_cons_self, hq, if_pos rfl]
      · rw [if_neg hne, Prod.mk.injEq] at hq
        have hmem : q ∈ p :: ps ↔ q ∈ ps := List.mem_cons.trans (or_iff_right hne)
        rw [hq.1, hq.2, if_congr hmem rfl rfl]

/-- What the release of a round to all participants changes. -/
structure ReleasesAll (isLocal : P → Bool) (version : ℕ) (w w' : World P) : Prop where
  calls : w'.calls = w.calls
  versions : w'.version = w.version
  waiting : w'.waiting = w.waiting
  left : w'.left = w.left
  rounds : w'.rounds = w.rounds + 1
  released : ∀ q, w'.released q = w.released q + 1
  notified : ∀ q, (w'.incarnation q, w'.replies q) =
    if isLocal q then (w.incarnation q + 1, w.replies q)
    else (w.incarnation q, w.replies q ++ [version])

namespace ReleasesAll

theorem of_release (isLocal : P → Bool) {nodes : List P} (hnodup : nodes.Nodup)
    (hmem : ∀ q, q ∈ nodes) (hversion : w.master.version = version) :
    w.ReleasesAll isLocal version (w.release isLocal version nodes) := by
  obtain ⟨-, hversions, hwaiting, hleft, hnotified⟩ :=
    foldl_sendNotify isLocal hnodup hversion.symm
  refine ⟨(release_frame isLocal version w nodes).1, hversions, hwaiting, hleft, rfl,
    fun q => if_pos (hmem q), fun q => ?_⟩
  have hspec := hnotified q
  rw [if_pos (hmem q)] at hspec
  exact hspec

omit [DecidableEq P]

variable (h : w.ReleasesAll isLocal version w') {q : P}

include h

theorem cases (q : P) :
    w'.incarnation q = w.incarnation q + 1 ∧ w'.replies q = w.replies q ∨
      w'.incarnation q = w.incarnation q ∧ w'.replies q = w.replies q ++ [version] := by
  have hq := h.notified q
  split_ifs at hq
  · exact Or.inl (Prod.mk.inj hq)
  · exact Or.inr (Prod.mk.inj hq)

theorem replies_eq (hreplies : ∀ reply ∈ w.replies q, reply = version) :
    ∀ reply ∈ w'.replies q, reply = version := by
  intro reply hreply
  rcases h.cases q with ⟨-, hq⟩ | ⟨-, hq⟩ <;> rw [hq] at hreply
  · exact hreplies reply hreply
  · exact (List.mem_append.1 hreply).elim (hreplies reply) List.mem_singleton.1

theorem length_replies_le (q : P) : (w'.replies q).length ≤ (w.replies q).length + 1 := by
  rcases h.cases q with ⟨-, hq⟩ | ⟨-, hq⟩
  · rw [hq]
    omega
  · rw [hq, List.length_append, List.length_singleton]

theorem incarnation_eq (hinc : w.incarnation q = UInt32.ofNat (w.rounds - (w.replies q).length))
    (hle : (w.replies q).length ≤ w.rounds) :
    w'.incarnation q = UInt32.ofNat (w.rounds + 1 - (w'.replies q).length) := by
  rcases h.cases q with ⟨hq, hreplies⟩ | ⟨hq, hreplies⟩
  · have hsum : w.rounds + 1 - (w.replies q).length = w.rounds - (w.replies q).length + 1 := by
      omega
    rw [hq, hreplies, hinc, hsum]
    simp
  · rw [hq, hreplies, hinc, List.length_append, List.length_singleton, Nat.add_sub_add_right]

end ReleasesAll

/-- The number of rounds that are released, and where each participant is. -/
structure Rounds [Fintype P] (version : ℕ) (w : World P) : Prop where
  master : w.master.version = version
  versions : ∀ p, w.version p = version
  indefinite : (w.master.request version).nodes ≠ [] →
    (w.master.request version).timeout = timeoutIndefinite
  nodup : (w.present version).Nodup
  few : (w.present version).length < Fintype.card P
  commands : ∀ p, ∀ e ∈ w.commands p,
    e.node = p ∧ e.version = version ∧ e.timeout = timeoutIndefinite
  calls : ∀ p, w.calls p version =
    w.rounds + (if p ∈ w.present version then 1 else 0) + (w.commands p).length
  replies : ∀ p, ∀ reply ∈ w.replies p, reply = version
  incarnation : ∀ p, w.incarnation p = UInt32.ofNat (w.rounds - (w.replies p).length)
  idle : ∀ p, w.waiting p = none → w.left p = w.calls p version
  waiting : ∀ p, ∀ wait ∈ w.waiting p, w.calls p version = w.left p + 1 ∧
    wait.1 = UInt32.ofNat (w.calls p version)
  left : ∀ p, w.left p + (w.replies p).length ≤ w.rounds
  released : ∀ p, w.released p = w.rounds

theorem rounds_init [Fintype P] (hcard : 2 ≤ Fintype.card P) (version : ℕ) :
    (init version : World P).Rounds version where
  master := rfl
  versions := fun _ => rfl
  indefinite := fun h => absurd rfl h
  nodup := List.nodup_nil
  few := by
    change 0 < _
    omega
  commands := nofun
  calls := fun p => rfl
  replies := nofun
  incarnation := fun _ => rfl
  idle := fun _ _ => rfl
  waiting := nofun
  left := fun _ => le_rfl
  released := fun _ => rfl

namespace Rounds

variable [Fintype P]

/-- A participant has made at most one call more than rounds are released. -/
theorem calls_le (h : w.Rounds version) (p : P) : w.calls p version ≤ w.rounds + 1 := by
  have hleft := h.left p
  cases hwaiting : w.waiting p with
  | none =>
      have hidle := h.idle p hwaiting
      omega
  | some wait =>
      have hcalls := (h.waiting p wait hwaiting).1
      omega

theorem enter (h : w.Rounds version) (hcard : 2 ≤ Fintype.card P) {p : P}
    (hwaiting : w.waiting p = none) :
    (w.enter (Fintype.card P) isLocal p timeoutIndefinite).Rounds version := by
  have hversion : w.getVersion isLocal p = version := by
    unfold getVersion
    split_ifs
    · exact h.master
    · exact h.versions p
  have hidle := h.idle p hwaiting
  have hcalls := h.calls p
  have hleft := h.left p
  have hone : Fintype.card P ≠ 1 := by omega
  simp only [World.enter, hversion, if_neg hone]
  refine ⟨h.master, h.versions, h.indefinite, h.nodup, h.few, fun q e he => ?_, fun q => ?_,
    h.replies, h.incarnation, fun q hq => ?_, fun q wait hq => ?_, h.left, h.released⟩
  · rcases eq_or_ne q p with rfl | hne
    · simp only [Function.update_self] at he
      rcases List.mem_append.1 he with he | he
      · exact h.commands q e he
      · rw [List.mem_singleton.1 he]
        exact ⟨rfl, rfl, rfl⟩
    · simp only [Function.update_of_ne hne] at he
      exact h.commands q e he
  · change _ = w.rounds + (if q ∈ w.present version then 1 else 0) + _
    rcases eq_or_ne q p with rfl | hne
    · simp only [Function.update_self, List.length_append, List.length_singleton]
      omega
    · simp only [Function.update_of_ne hne]
      exact h.calls q
  · rcases eq_or_ne q p with rfl | hne
    · simp only [Function.update_self] at hq
      cases hq
    · simp only [Function.update_of_ne hne] at hq ⊢
      exact h.idle q hq
  · rcases eq_or_ne q p with rfl | hne
    · simp only [Function.update_self] at hq ⊢
      obtain rfl := Option.some.inj hq
      refine ⟨by omega, ?_⟩
      have hreplies : w.rounds - (w.replies q).length = w.calls q version := by omega
      rw [h.incarnation q, hreplies]
      simp
    · simp only [Function.update_of_ne hne] at hq ⊢
      exact h.waiting q wait hq

theorem leave (h : w.Rounds version) {p : P}
    (hleave : (w.waiting p).map Prod.fst = some (w.incarnation p)) :
    ({ w with
      waiting := Function.update w.waiting p none
      left := Function.update w.left p (w.left p + 1) } : World P).Rounds version := by
  obtain ⟨wait, hwait, heq⟩ := Option.map_eq_some_iff.1 hleave
  obtain ⟨hcalls, hvalue⟩ := h.waiting p wait hwait
  have hrounds := h.calls p
  have hleft := h.left p
  have hwoken : w.left p + 1 + (w.replies p).length ≤ w.rounds := by
    by_contra hnot
    have hold : w.rounds - (w.replies p).length = w.left p := by omega
    rw [hvalue, hcalls, h.incarnation p, hold] at heq
    have hne : UInt32.ofNat (w.left p + 1) = UInt32.ofNat (w.left p) + 1 := by simp
    rw [hne] at heq
    simp at heq
  refine ⟨h.master, h.versions, h.indefinite, h.nodup, h.few, h.commands, h.calls, h.replies,
    h.incarnation, fun q hq => ?_, fun q wait' hq => ?_, fun q => ?_, h.released⟩
  · rcases eq_or_ne q p with rfl | hne
    · simp only [Function.update_self]
      exact hcalls.symm
    · simp only [Function.update_of_ne hne] at hq ⊢
      exact h.idle q hq
  · rcases eq_or_ne q p with rfl | hne
    · simp only [Function.update_self] at hq
      cases hq
    · simp only [Function.update_of_ne hne] at hq ⊢
      exact h.waiting q wait' hq
  · rcases eq_or_ne q p with rfl | hne
    · simp only [Function.update_self]
      exact hwoken
    · simp only [Function.update_of_ne hne]
      exact h.left q

theorem reply (h : w.Rounds version) {p : P} {reply : ℕ} {replies : List ℕ}
    (hreplies : w.replies p = reply :: replies) :
    ({ w with
      replies := Function.update w.replies p replies
      incarnation := Function.update w.incarnation p (w.incarnation p + 1) } :
        World P).Rounds version := by
  have hleft := h.left p
  rw [hreplies, List.length_cons] at hleft
  refine ⟨h.master, h.versions, h.indefinite, h.nodup, h.few, h.commands, h.calls,
    fun q reply' hreply' => ?_, fun q => ?_, h.idle, h.waiting, fun q => ?_, h.released⟩
  · rcases eq_or_ne q p with rfl | hne
    · simp only [Function.update_self] at hreply'
      exact h.replies q reply' (hreplies ▸ List.mem_cons_of_mem _ hreply')
    · simp only [Function.update_of_ne hne] at hreply'
      exact h.replies q reply' hreply'
  · rcases eq_or_ne q p with rfl | hne
    · simp only [Function.update_self]
      have hdelivered : w.rounds - replies.length = w.rounds - (replies.length + 1) + 1 := by omega
      rw [h.incarnation q, hreplies, List.length_cons, hdelivered]
      simp
    · simp only [Function.update_of_ne hne]
      exact h.incarnation q
  · rcases eq_or_ne q p with rfl | hne
    · simp only [Function.update_self]
      omega
    · simp only [Function.update_of_ne hne]
      exact h.left q

theorem cmdEnter (h : w.Rounds version) {p : P} {e : Enter P} {commands : List (Enter P)}
    (hcommands : w.commands p = e :: commands) (stale : Option ℕ) :
    p ∉ w.present version ∧ ∃ r : Request P,
      r.nodes = (w.master.request version).nodes ++ [(p, e.call)] ∧
      r.timeout = timeoutIndefinite ∧
      w.master.cmdEnter (Fintype.card P) defaultTimeout w.now stale e =
        if r.nodes.length < Fintype.card P then
          some ({ w.master with enteredNodes := w.master.enteredNodes.insert version r }, .none)
        else some ({ w.master with
          enteredNodes := (w.master.enteredNodes.insert version r).erase version },
          .release r.nodes) := by
  obtain ⟨hnode, hversion, htimeout⟩ := h.commands p e (hcommands ▸ List.mem_cons_self)
  have habsent : p ∉ w.present version := by
    intro hp
    have hcalls := h.calls p
    have hle := h.calls_le p
    rw [if_pos hp, hcommands, List.length_cons] at hcalls
    omega
  obtain ⟨hcounted, hnodes, hr'⟩ :=
    Request.count_indefinite w.now h.indefinite htimeout
  obtain ⟨⟨r, counted⟩, hr⟩ : ∃ c, (w.master.request version).count w.now e = c := ⟨_, rfl⟩
  rw [hr] at hcounted hnodes hr'
  obtain rfl : counted = true := hcounted
  rw [hnode] at hnodes
  refine ⟨habsent, r, hnodes, hr', ?_⟩
  have hmaster := h.master
  subst hversion
  rw [Master.request] at hr
  simp only [Master.cmdEnter, hr, hmaster, htimeout, ne_eq, not_true_eq_false, if_false, lt_irrefl,
    false_and, Bool.true_eq_false]
  split_ifs <;> rfl

theorem commands_update (h : w.Rounds version) {p : P} {e : Enter P} {commands : List (Enter P)}
    (hcommands : w.commands p = e :: commands) (q : P) :
    ∀ e' ∈ Function.update w.commands p commands q,
      e'.node = q ∧ e'.version = version ∧ e'.timeout = timeoutIndefinite := by
  intro e' he'
  rcases eq_or_ne q p with rfl | hne
  · rw [Function.update_self] at he'
    exact h.commands q e' (hcommands ▸ List.mem_cons_of_mem _ he')
  · rw [Function.update_of_ne hne] at he'
    exact h.commands q e' he'

theorem calls_release (h : w.Rounds version) {p : P} {e : Enter P} {commands : List (Enter P)}
    (hcommands : w.commands p = e :: commands) (habsent : p ∉ w.present version)
    (hall : ∀ q ≠ p, q ∈ w.present version) (q : P) :
    w.calls q version = w.rounds + 1 + 0 + (Function.update w.commands p commands q).length := by
  have hcalls := h.calls q
  rcases eq_or_ne q p with rfl | hne
  · rw [hcommands, List.length_cons, if_neg habsent] at hcalls
    rw [Function.update_self]
    omega
  · rw [if_pos (hall q hne)] at hcalls
    rw [Function.update_of_ne hne]
    omega

theorem cmdEnter_counted (h : w.Rounds version) {p : P} {e : Enter P} {commands : List (Enter P)}
    (hcommands : w.commands p = e :: commands) {r : Request P}
    (hnodes : r.nodes = (w.master.request version).nodes ++ [(p, e.call)])
    (htimeout : r.timeout = timeoutIndefinite) (habsent : p ∉ w.present version)
    (hfew : r.nodes.length < Fintype.card P) :
    ({ w with
      commands := Function.update w.commands p commands
      master := { w.master with enteredNodes := w.master.enteredNodes.insert version r } } :
        World P).Rounds version := by
  have hrequest : Master.request (P := P)
      { w.master with enteredNodes := w.master.enteredNodes.insert version r } version = r := by
    rw [Master.request, AList.lookup_insert, Option.getD_some]
  have hpresent : r.nodes.map Prod.fst = w.present version ++ [p] := by
    rw [hnodes, List.map_append]
    rfl
  refine ⟨h.master, h.versions, fun _ => ?_, ?_, ?_, h.commands_update hcommands, fun q => ?_,
    h.replies, h.incarnation, h.idle, h.waiting, h.left, h.released⟩
  · rw [hrequest]
    exact htimeout
  · rw [present, hrequest, hpresent]
    exact List.nodup_append_comm.1 (List.nodup_cons.2 ⟨habsent, h.nodup⟩)
  · rw [present, hrequest, List.length_map]
    exact hfew
  · rw [present, hrequest, hpresent]
    have hcalls := h.calls q
    rcases eq_or_ne q p with rfl | hne
    · simp only [Function.update_self]
      rw [hcommands, List.length_cons, if_neg habsent] at hcalls
      rw [if_pos (List.mem_append_right _ (List.mem_singleton_self q))]
      omega
    · simp only [Function.update_of_ne hne]
      have hmem : q ∈ w.present version ++ [p] ↔ q ∈ w.present version := by
        rw [List.mem_append, List.mem_singleton]
        exact or_iff_left hne
      rw [hcalls, if_congr hmem rfl rfl]

theorem of_releasesAll (isLocal : P → Bool) (h : w.Rounds version) {p : P} {e : Enter P}
    {commands : List (Enter P)}
    (hcommands : w.commands p = e :: commands) (habsent : p ∉ w.present version)
    (hall : ∀ q ≠ p, q ∈ w.present version) (hmaster : w'.master.version = version)
    (hempty : (w'.master.request version).nodes = [])
    (hcommands' : w'.commands = Function.update w.commands p commands)
    (hr : w.ReleasesAll isLocal version w') : w'.Rounds version := by
  have hnone : w'.present version = [] := by rw [present, hempty, List.map_nil]
  exact
    { master := hmaster
      versions := fun q => hr.versions ▸ h.versions q
      indefinite := fun hne => absurd hempty hne
      nodup := hnone ▸ List.nodup_nil
      few := hnone ▸ Fintype.card_pos_iff.2 ⟨p⟩
      commands := fun q => hcommands' ▸ h.commands_update hcommands q
      calls := fun q => by
        rw [hr.calls, hr.rounds, hnone, if_neg List.not_mem_nil, hcommands']
        exact h.calls_release hcommands habsent hall q
      replies := fun q => hr.replies_eq (h.replies q)
      incarnation := fun q => by
        have hle := h.left q
        rw [hr.rounds]
        exact hr.incarnation_eq (h.incarnation q) (by omega)
      idle := fun q hidle => by
        rw [hr.left, hr.calls]
        exact h.idle q (hr.waiting ▸ hidle)
      waiting := fun q wait hwait => by
        rw [hr.left, hr.calls]
        exact h.waiting q wait (hr.waiting ▸ hwait)
      left := fun q => by
        have hle := h.left q
        have hlen := hr.length_replies_le q
        rw [hr.left, hr.rounds]
        omega
      released := fun q => by rw [hr.released, hr.rounds, h.released q] }

theorem mem_nodes (h : w.Rounds version) {p : P} {e : Enter P} {r : Request P}
    (hnodes : r.nodes = (w.master.request version).nodes ++ [(p, e.call)])
    (habsent : p ∉ w.present version) (hall : ¬r.nodes.length < Fintype.card P) :
    (r.nodes.map Prod.fst).Nodup ∧ (∀ q, q ∈ r.nodes.map Prod.fst) ∧
      ∀ q ≠ p, q ∈ w.present version := by
  have hpresent : r.nodes.map Prod.fst = w.present version ++ [p] := by
    rw [hnodes, List.map_append]
    rfl
  have hnodup : (r.nodes.map Prod.fst).Nodup := by
    rw [hpresent]
    exact List.nodup_append_comm.1 (List.nodup_cons.2 ⟨habsent, h.nodup⟩)
  have hmem (q : P) : q ∈ r.nodes.map Prod.fst := by
    have huniv : (r.nodes.map Prod.fst).toFinset = Finset.univ := by
      refine Finset.eq_univ_of_card _ (le_antisymm (Finset.card_le_univ _) ?_)
      rw [List.toFinset_card_of_nodup hnodup, List.length_map]
      exact not_lt.1 hall
    exact List.mem_toFinset.1 (huniv ▸ Finset.mem_univ q)
  refine ⟨hnodup, hmem, fun q hne => ?_⟩
  have hq := hmem q
  rw [hpresent, List.mem_append, List.mem_singleton] at hq
  exact hq.resolve_right hne

theorem cmdEnter_release (h : w.Rounds version) {p : P} {e : Enter P} {commands : List (Enter P)}
    (hcommands : w.commands p = e :: commands) {r : Request P}
    (hnodes : r.nodes = (w.master.request version).nodes ++ [(p, e.call)])
    (habsent : p ∉ w.present version) (hlast : ¬r.nodes.length < Fintype.card P) :
    (({ w with
      commands := Function.update w.commands p commands
      master := { w.master with
        enteredNodes := (w.master.enteredNodes.insert version r).erase version } } :
        World P).release isLocal version (r.nodes.map Prod.fst).dedup).Rounds version := by
  obtain ⟨hnodup, hmem, hall⟩ := h.mem_nodes hnodes habsent hlast
  rw [hnodup.dedup]
  obtain ⟨w₀, hw₀⟩ : ∃ w₀ : World P, w₀ = { w with
      commands := Function.update w.commands p commands
      master := { w.master with
        enteredNodes := (w.master.enteredNodes.insert version r).erase version } } := ⟨_, rfl⟩
  rw [← hw₀]
  have hmaster : w₀.master.version = version := hw₀ ▸ h.master
  have hempty : (w₀.master.request version).nodes = [] := by
    rw [hw₀, Master.request]
    simp only [AList.lookup_erase, Option.getD_none]
    rfl
  obtain ⟨-, hcommands', hmaster'⟩ := release_frame isLocal version w₀ (r.nodes.map Prod.fst)
  have hreleases := ReleasesAll.of_release isLocal hnodup hmem hmaster
  refine h.of_releasesAll isLocal hcommands habsent hall (hmaster' ▸ hmaster)
    (hmaster' ▸ hempty) (hcommands'.trans (hw₀ ▸ rfl)) ?_
  subst hw₀
  exact ⟨hreleases.calls, hreleases.versions, hreleases.waiting, hreleases.left, hreleases.rounds,
    hreleases.released, hreleases.notified⟩

theorem step (h : w.Rounds version) (hcard : 2 ≤ Fintype.card P) {event : Event P}
    (hsteady : event.Steady)
    (hstep : w.step (Fintype.card P) defaultTimeout isLocal event = some w') :
    w'.Rounds version := by
  cases event with
  | tick time =>
      obtain rfl := Option.some.inj hstep
      exact ⟨h.master, h.versions, h.indefinite, h.nodup, h.few, h.commands, h.calls, h.replies,
        h.incarnation, h.idle, h.waiting, h.left, h.released⟩
  | enter p limit =>
      obtain rfl : limit = timeoutIndefinite := hsteady
      simp only [World.step] at hstep
      split_ifs at hstep with hwaiting
      obtain rfl := Option.some.inj hstep
      exact h.enter hcard hwaiting
  | leave p =>
      simp only [World.step] at hstep
      split_ifs at hstep with hleave
      obtain rfl := Option.some.inj hstep
      exact h.leave hleave
  | command p stale =>
      simp only [World.step] at hstep
      split at hstep
      · cases hstep
      · rename_i e commands hcommands
        obtain ⟨habsent, r, hnodes, htimeout, hmaster⟩ := h.cmdEnter hcommands stale
        have hversion := (h.commands p e (hcommands ▸ List.mem_cons_self)).2.1
        rw [hmaster] at hstep
        split_ifs at hstep with hfew
        · obtain rfl := Option.some.inj hstep
          exact h.cmdEnter_counted hcommands hnodes htimeout habsent hfew
        · obtain rfl := Option.some.inj hstep
          simp only [hversion]
          exact h.cmdEnter_release hcommands hnodes habsent hfew
  | reply p =>
      simp only [World.step] at hstep
      split at hstep
      · cases hstep
      · rename_i reply replies hreplies
        have hreply : reply = w.version p :=
          (h.replies p reply (hreplies ▸ List.mem_cons_self)).trans (h.versions p).symm
        rw [if_pos hreply] at hstep
        obtain rfl := Option.some.inj hstep
        exact h.reply hreplies
  | timeout p | commit _ | sync p _ => cases hsteady

end Rounds

/-- A barrier of height one is passed at once. -/
structure Alone (version : ℕ) (w : World P) : Prop where
  master : w.master.version = version
  versions : ∀ p, w.version p = version
  commands : ∀ p, w.commands p = []
  waiting : ∀ p, w.waiting p = none
  left : ∀ p, w.left p = w.calls p version

theorem Alone.step (h : w.Alone version) {event : Event P} (hsteady : event.Steady)
    (hstep : w.step 1 defaultTimeout isLocal event = some w') : w'.Alone version := by
  cases event with
  | tick time =>
      obtain rfl := Option.some.inj hstep
      exact ⟨h.master, h.versions, h.commands, h.waiting, h.left⟩
  | enter p limit =>
      simp only [World.step, h.waiting p, if_true] at hstep
      obtain rfl := Option.some.inj hstep
      have hversion : w.getVersion isLocal p = version := by
        unfold getVersion
        split_ifs
        · exact h.master
        · exact h.versions p
      simp only [World.enter, hversion, if_true]
      refine ⟨h.master, h.versions, h.commands, h.waiting, fun q => ?_⟩
      rcases eq_or_ne q p with rfl | hne
      · simp only [Function.update_self, h.left q]
      · simp only [Function.update_of_ne hne, h.left q]
  | leave p =>
      simp only [World.step, h.waiting p] at hstep
      cases hstep
  | command p stale =>
      simp only [World.step, h.commands p] at hstep
      cases hstep
  | reply p =>
      simp only [World.step] at hstep
      split at hstep
      · cases hstep
      · obtain rfl := Option.some.inj hstep
        split_ifs
        · exact ⟨h.master, h.versions, h.commands, h.waiting, h.left⟩
        · exact ⟨h.master, h.versions, h.commands, h.waiting, h.left⟩
  | timeout p | commit _ | sync p _ => cases hsteady

/-- No participant returns from a call before all others have made as many calls. With a height of at
least two, each round is released once to each participant when all calls of it are processed, and the
incarnation counts the rounds, so that a participant that waits for a released round wakes up. -/
theorem barrier_rounds [Fintype P] {events : List (Event P)}
    (hsteady : Machine.Steps (World.step (Fintype.card P) defaultTimeout isLocal)
      (fun _ event => event.Steady) (init version) events)
    (hrun : Machine.run (World.step (Fintype.card P) defaultTimeout isLocal) (init version) events =
      some w) :
    (∀ p q, w.left p ≤ w.calls q version) ∧
    (2 ≤ Fintype.card P →
      (∀ p, w.released p = w.rounds) ∧
      (∀ p, w.rounds + (w.commands p).length ≤ w.calls p version) ∧
      (∀ k, (∀ p, k + (w.commands p).length ≤ w.calls p version) → k ≤ w.rounds) ∧
      ∀ p, w.replies p = [] → w.incarnation p = UInt32.ofNat w.rounds ∧
        ∀ wait ∈ w.waiting p, w.calls p version ≤ w.rounds → wait.1 = w.incarnation p) := by
  by_cases hcard : 2 ≤ Fintype.card P
  · have h : w.Rounds version := Machine.run_invariant (Rounds version)
      (fun _ _ _ h hok hstep => h.step hcard hok hstep) (rounds_init hcard version) hsteady hrun
    have hcalls (p : P) : w.rounds + (w.commands p).length ≤ w.calls p version := by
      rw [h.calls p]
      omega
    refine ⟨fun p q => ?_, fun _ => ⟨h.released, hcalls, fun k hk => ?_, fun p hreplies => ?_⟩⟩
    · have hleft := h.left p
      have hq := hcalls q
      omega
    · obtain ⟨p, hp⟩ : ∃ p, p ∉ w.present version := by
        by_contra hall
        rw [not_exists_not] at hall
        have hle := h.few
        rw [← Finset.card_univ, ← not_le] at hle
        refine hle ((Finset.card_le_card (fun p _ => ?_)).trans (List.toFinset_card_le _))
        exact List.mem_toFinset.2 (hall p)
      have hkp := hk p
      rw [h.calls p, if_neg hp] at hkp
      omega
    · have hincarnation : w.incarnation p = UInt32.ofNat w.rounds := by
        rw [h.incarnation p, hreplies, List.length_nil, Nat.sub_zero]
      refine ⟨hincarnation, fun wait hwait hle => ?_⟩
      have hp := hcalls p
      have heq : w.calls p version = w.rounds := by omega
      rw [hincarnation, (h.waiting p wait hwait).2, heq]
  · refine ⟨fun p q => ?_, fun hle => absurd hle hcard⟩
    have hone : Fintype.card P = 1 := le_antisymm (by omega) (Fintype.card_pos_iff.2 ⟨p⟩)
    rw [hone] at hsteady hrun
    have h : w.Alone version := Machine.run_invariant (Alone version)
      (fun _ _ _ h hok hstep => h.step hok hstep)
      ⟨rfl, fun _ => rfl, fun _ => rfl, fun _ => rfl, fun _ => rfl⟩ hsteady hrun
    have hsingle := Fintype.card_le_one_iff_subsingleton.1 hone.le
    obtain rfl : p = q := Subsingleton.elim p q
    exact (h.left p).le

/-- Two participants pass a round, and one of them enters the next one. -/
theorem barrier_rounds_two : ∃ w : World Bool,
    Machine.run (World.step (Fintype.card Bool) 100 (fun p => p)) (init 1)
        [.enter false timeoutIndefinite, .command false none, .enter true timeoutIndefinite,
          .command true none, .leave true, .enter true timeoutIndefinite, .reply false] = some w ∧
      w.calls true 1 = 2 ∧ w.rounds = 1 ∧ (∀ p, w.released p = 1) ∧
      w.waiting false = some (w.incarnation false, timeoutIndefinite) := by
  have h : (Machine.run (World.step (Fintype.card Bool) 100 (fun p => p)) (init 1 : World Bool)
      [.enter false timeoutIndefinite, .command false none, .enter true timeoutIndefinite,
        .command true none, .leave true, .enter true timeoutIndefinite, .reply false]).map
        (fun w => decide (w.calls true 1 = 2 ∧ w.rounds = 1 ∧
          w.waiting false = some (w.incarnation false, timeoutIndefinite))) = some true := by
    decide +kernel
  obtain ⟨w, hrun, hw⟩ := Option.map_eq_some_iff.1 h
  obtain ⟨hcalls, hrounds, hwaiting⟩ := of_decide_eq_true hw
  have hreleased := ((barrier_rounds (by decide +kernel) hrun).2 (by decide)).1
  exact ⟨w, hrun, hcalls, hrounds, fun p => (hreleased p).trans hrounds, hwaiting⟩

/-- A barrier of height one is passed, but no round of it is released. -/
theorem no_rounds_alone : ∃ w : World Unit,
    Machine.run (World.step (Fintype.card Unit) 100 (fun _ => true)) (init 1)
        [.enter () timeoutIndefinite] = some w ∧
      w.calls () 1 = 1 ∧ w.left () = 1 ∧ w.commands () = [] ∧ w.released () = 0 ∧
      w.incarnation () = 0 := by
  have h : (Machine.run (World.step (Fintype.card Unit) 100 (fun _ => true)) (init 1 : World Unit)
      [.enter () timeoutIndefinite]).map (fun w => decide (w.calls () 1 = 1 ∧ w.left () = 1 ∧
        w.commands () = [] ∧ w.released () = 0 ∧ w.incarnation () = 0)) = some true := by
    decide +kernel
  obtain ⟨w, hrun, hw⟩ := Option.map_eq_some_iff.1 h
  exact ⟨w, hrun, of_decide_eq_true hw⟩

end World

end Collage.Barrier
