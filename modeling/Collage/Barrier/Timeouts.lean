import Mathlib.Data.List.Dedup
import Collage.Barrier.Barrier

/-!
# Participants that time out

A participant whose call timed out may call again. The master node lets participants of its version go
on only when as many different ones as the height have entered, as long as no participant is counted a
second time, and no call is later than the ones that are counted.
-/

namespace Collage.Barrier

variable {P : Type}

namespace Request

theorem nodes_count (r : Request P) (now : ℕ) (e : Enter P) :
    (r.count now e).1.nodes = r.nodes ∧ (r.count now e).2 = false ∨
      (r.count now e).1.nodes = r.nodes ++ [(e.node, e.call)] ∧ (r.count now e).2 = true ∨
      (r.count now e).1.nodes = [(e.node, e.call)] ∧ (r.count now e).2 = true := by
  simp only [count]
  split_ifs with hnil htimeout holder hnewer
  · exact Or.inr (Or.inr ⟨rfl, rfl⟩)
  · exact Or.inl ⟨rfl, rfl⟩
  · exact Or.inr (Or.inr ⟨rfl, rfl⟩)
  · exact Or.inr (Or.inl ⟨rfl, rfl⟩)
  · exact Or.inr (Or.inl ⟨rfl, rfl⟩)

/-- A call is answered at once if it is later than the ones that are counted. -/
def Outdated (r : Request P) (e : Enter P) : Prop :=
  r.nodes ≠ [] ∧ r.timeout ≠ timeoutIndefinite ∧ r.incarnation < e.incarnation

instance (r : Request P) (e : Enter P) [DecidableEq P] : Decidable (r.Outdated e) :=
  inferInstanceAs (Decidable (_ ∧ _))

theorem outdated_of_count {r : Request P} {now : ℕ} {e : Enter P}
    (h : (r.count now e).2 = false) : r.Outdated e := by
  simp only [count] at h
  split_ifs at h with hnil htimeout holder hnewer
  exact ⟨hnil, htimeout, holder⟩

end Request

section Map

variable {defaultTimeout now : ℕ} {stale : Option ℕ} {map map' : RequestMap P}

theorem lookup_cleanup (h : cleanup defaultTimeout now stale map = some map') (version : ℕ) :
    map'.lookup version = map.lookup version ∨ map'.lookup version = none := by
  unfold cleanup at h
  by_cases hfew : map.keys.length < 2
  · rw [if_pos hfew] at h
    exact Or.inl (by rw [Option.some.inj h])
  · rw [if_neg hfew] at h
    cases stale with
    | none =>
        simp only at h
        split_ifs at h
        exact Or.inl (by rw [Option.some.inj h])
    | some version' =>
        simp only at h
        split_ifs at h
        obtain rfl := Option.some.inj h
        rcases eq_or_ne version version' with rfl | hne
        · exact Or.inr (AList.lookup_erase version map)
        · exact Or.inl (AList.lookup_erase_ne hne)

end Map

variable {height defaultTimeout now : ℕ} {stale : Option ℕ} {m m' : Master P} {e : Enter P}
  {outcome : Outcome P}

def Master.request (m : Master P) (version : ℕ) : Request P :=
  (m.enteredNodes.lookup version).getD Request.new

/-- The requests of a map are those of another one, but for some that are gone. -/
def Shrunk (map map' : RequestMap P) : Prop :=
  ∀ version, map'.lookup version = map.lookup version ∨ map'.lookup version = none

theorem Master.cmdEnter_cases
    (h : m.cmdEnter height defaultTimeout now stale e = some (m', outcome)) :
    Shrunk (m.enteredNodes.insert e.version ((m.request e.version).count now e).1)
        m'.enteredNodes ∧
      (outcome = .notify → e.version < m.version ∨ (m.request e.version).Outdated e) ∧
      ∀ nodes, outcome = .release nodes →
        nodes = ((m.request e.version).count now e).1.nodes ∧ height ≤ nodes.length := by
  obtain ⟨c, hc⟩ : ∃ c, (m.request e.version).count now e = c := ⟨_, rfl⟩
  rw [hc]
  rw [Master.request] at hc
  simp only [cmdEnter, hc] at h
  by_cases hcounted : c.2 = false
  · rw [if_pos hcounted] at h
    obtain ⟨rfl, rfl⟩ := Prod.mk.inj (Option.some.inj h)
    refine ⟨fun _ => Or.inl rfl, fun _ => Or.inr ?_, nofun⟩
    exact Request.outdated_of_count (hc ▸ hcounted)
  · rw [if_neg hcounted] at h
    obtain ⟨map, hmap, hresult⟩ := Option.map_eq_some_iff.1 h
    have hshrunk : Shrunk (m.enteredNodes.insert e.version c.1) map := by
      split_ifs at hmap
      · exact lookup_cleanup hmap
      · obtain rfl := Option.some.inj hmap
        exact fun _ => Or.inl rfl
    split_ifs at hresult with hearly hlate hfew
    · obtain ⟨rfl, rfl⟩ := Prod.mk.inj hresult
      exact ⟨hshrunk, nofun, nofun⟩
    · obtain ⟨rfl, rfl⟩ := Prod.mk.inj hresult
      exact ⟨hshrunk, fun _ => Or.inl hlate.2, nofun⟩
    · obtain ⟨rfl, rfl⟩ := Prod.mk.inj hresult
      exact ⟨hshrunk, nofun, nofun⟩
    · obtain ⟨rfl, rfl⟩ := Prod.mk.inj hresult
      refine ⟨fun version => ?_, nofun, fun nodes hnodes => ?_⟩
      · rcases eq_or_ne version e.version with rfl | hne
        · exact Or.inr (AList.lookup_erase _ map)
        · exact (AList.lookup_erase_ne hne (s := map)) ▸ hshrunk version
      · obtain rfl := Outcome.release.inj hnodes
        exact ⟨rfl, not_lt.1 hfew⟩

namespace World

variable [DecidableEq P] {isLocal : P → Bool} {w w' : World P}

/-- The last call of a participant for a version is under way, or is counted as `call`. -/
def Current (w : World P) (version : ℕ) (entry : P × ℕ) : Prop :=
  entry.2 = w.calls entry.1 version ∨
    ∃ e ∈ w.commands entry.1, e.version = version ∧ e.call = w.calls entry.1 version

/-- Each call that is not the last one for its version is followed by the last one. -/
def Successive (calls : ℕ → ℕ) : List (Enter P) → Prop
  | [] => True
  | e :: commands => (e.call = calls e.version ∨
      ∃ e' ∈ commands, e'.version = e.version ∧ e'.call = calls e.version) ∧
      Successive calls commands

/-- No participant is counted twice for a version, nor for a call that it has repeated without
another one under way. -/
structure Counted (w : World P) : Prop where
  sender : ∀ p, ∀ e ∈ w.commands p, e.node = p
  successive : ∀ p, Successive (w.calls p) (w.commands p)
  nodup : ∀ version, ((w.master.request version).nodes.map Prod.fst).Nodup
  current : ∀ version, ∀ entry ∈ (w.master.request version).nodes, w.Current version entry

/-- No participant calls again while it is counted for the version, and no call for the version of the
master is later than the ones that are counted. -/
def Unrepeated (w : World P) : Event P → Prop
  | .command p _ => ∀ e ∈ (w.commands p).head?,
      p ∉ (w.master.request e.version).nodes.map Prod.fst ∧
        (w.master.version ≤ e.version → ¬(w.master.request e.version).Outdated e)
  | _ => True

instance decidableUnrepeated (w : World P) : (e : Event P) → Decidable (w.Unrepeated e)
  | .command p _ => inferInstanceAs (Decidable (∀ e ∈ (w.commands p).head?, _))
  | .tick _ | .enter _ _ | .leave _ | .timeout _ | .reply _ | .commit _ | .sync _ _ => isTrue trivial

omit [DecidableEq P] in
theorem counted_init (version : ℕ) : (init version : World P).Counted where
  sender := nofun
  successive := fun _ => trivial
  nodup := fun _ => List.nodup_nil
  current := nofun

omit [DecidableEq P] in
theorem Counted.congr (h : w.Counted) (hcalls : w'.calls = w.calls)
    (hcommands : w'.commands = w.commands)
    (hnodes : ∀ version, (w'.master.request version).nodes = (w.master.request version).nodes) :
    w'.Counted where
  sender := hcommands ▸ h.sender
  successive := by
    rw [hcalls, hcommands]
    exact h.successive
  nodup := fun version => (hnodes version).symm ▸ h.nodup version
  current := fun version entry hentry => by
    rw [Current, hcalls, hcommands]
    exact h.current version entry (hnodes version ▸ hentry)

theorem sendNotify_frame (isLocal : P → Bool) (version : ℕ) (w : World P) (p : P) :
    (sendNotify isLocal version w p).calls = w.calls ∧
      (sendNotify isLocal version w p).commands = w.commands ∧
      (sendNotify isLocal version w p).master = w.master := by
  unfold sendNotify
  split_ifs <;> exact ⟨rfl, rfl, rfl⟩

theorem release_frame (isLocal : P → Bool) (version : ℕ) (w : World P) (nodes : List P) :
    (w.release isLocal version nodes).calls = w.calls ∧
      (w.release isLocal version nodes).commands = w.commands ∧
      (w.release isLocal version nodes).master = w.master := by
  have hfold (nodes : List P) (w : World P) :
      (nodes.foldl (sendNotify isLocal version) w).calls = w.calls ∧
        (nodes.foldl (sendNotify isLocal version) w).commands = w.commands ∧
        (nodes.foldl (sendNotify isLocal version) w).master = w.master := by
    induction nodes generalizing w with
    | nil => exact ⟨rfl, rfl, rfl⟩
    | cons p nodes ih =>
        obtain ⟨hcalls, hcommands, hmaster⟩ := sendNotify_frame isLocal version w p
        obtain ⟨hcalls', hcommands', hmaster'⟩ := ih (sendNotify isLocal version w p)
        exact ⟨hcalls'.trans hcalls, hcommands'.trans hcommands, hmaster'.trans hmaster⟩
  exact hfold nodes w

omit [DecidableEq P] in
theorem Successive.snoc {calls calls' : ℕ → ℕ} {commands : List (Enter P)} {e : Enter P}
    (h : Successive calls commands) (hcall : e.call = calls' e.version)
    (hother : ∀ version, version ≠ e.version → calls' version = calls version) :
    Successive calls' (commands ++ [e]) := by
  induction commands with
  | nil => exact ⟨Or.inl hcall, trivial⟩
  | cons e₁ commands ih =>
      refine ⟨?_, ih h.2⟩
      by_cases hversion : e₁.version = e.version
      · refine Or.inr ⟨e, List.mem_append_right _ (List.mem_singleton_self e), hversion.symm, ?_⟩
        rw [hversion, hcall]
      · rw [hother _ hversion]
        refine h.1.imp_right ?_
        rintro ⟨e', he', hspec⟩
        exact ⟨e', List.mem_append_left _ he', hspec⟩

namespace Counted

theorem enter (h : w.Counted) (hone : height ≠ 1) (p : P) (timeout : ℕ) :
    (w.enter height isLocal p timeout).Counted := by
  obtain ⟨version, hversion⟩ : ∃ v, w.getVersion isLocal p = v := ⟨_, rfl⟩
  simp only [World.enter, if_neg hone, hversion]
  have hcalls {q : P} (hne : q ≠ p) : Function.update w.calls p
      (Function.update (w.calls p) version (w.calls p version + 1)) q = w.calls q :=
    Function.update_of_ne hne _ _
  refine ⟨fun q e he => ?_, fun q => ?_, h.nodup, fun v entry hentry => ?_⟩
  · rcases eq_or_ne q p with rfl | hne
    · simp only [Function.update_self] at he
      rcases List.mem_append.1 he with he | he
      · exact h.sender q e he
      · rw [List.mem_singleton.1 he]
    · simp only [Function.update_of_ne hne] at he
      exact h.sender q e he
  · rcases eq_or_ne q p with rfl | hne
    · simp only [Function.update_self]
      refine (h.successive q).snoc ?_ (fun v hv => ?_)
      · simp only [Function.update_self]
      · exact Function.update_of_ne hv _ _
    · simp only [Function.update_of_ne hne]
      exact h.successive q
  · have hcurrent := h.current v entry hentry
    rcases eq_or_ne entry.1 p with hp | hne
    · rw [World.Current, hp]
      simp only [Function.update_self]
      rcases eq_or_ne v version with rfl | hv
      · refine Or.inr ⟨_, List.mem_append_right _ (List.mem_singleton_self _), rfl, ?_⟩
        simp only [Function.update_self]
      · rw [Function.update_of_ne hv]
        rw [World.Current, hp] at hcurrent
        refine hcurrent.imp_right ?_
        rintro ⟨e, he, hspec⟩
        exact ⟨e, List.mem_append_left _ he, hspec⟩
    · rw [World.Current]
      simp only [Function.update_of_ne hne]
      exact hcurrent

omit [DecidableEq P] in
theorem nodes_of_shrunk {map : RequestMap P} {r : Request P} {v : ℕ} (version : ℕ)
    (hshrunk : Shrunk (m.enteredNodes.insert v r) map) :
    ((map.lookup version).getD Request.new).nodes = [] ∨
      (version = v ∧ ((map.lookup version).getD Request.new).nodes = r.nodes) ∨
      (version ≠ v ∧ ((map.lookup version).getD Request.new).nodes =
        (m.request version).nodes) := by
  rcases hshrunk version with hsame | hnone
  · rcases eq_or_ne version v with rfl | hne
    · rw [AList.lookup_insert] at hsame
      exact Or.inr (Or.inl ⟨rfl, by rw [hsame, Option.getD_some]⟩)
    · rw [AList.lookup_insert_ne hne] at hsame
      exact Or.inr (Or.inr ⟨hne, by rw [hsame, Master.request]⟩)
  · exact Or.inl (by rw [hnone]; rfl)

omit [DecidableEq P] in
theorem count (h : w.Counted) {p : P} (hsender : e.node = p)
    (hnew : p ∉ (w.master.request e.version).nodes.map Prod.fst) (now : ℕ) :
    (((w.master.request e.version).count now e).1.nodes.map Prod.fst).Nodup ∧
      ∀ entry ∈ ((w.master.request e.version).count now e).1.nodes,
        entry = (p, e.call) ∨ (entry ∈ (w.master.request e.version).nodes ∧ entry.1 ≠ p) := by
  have hold {entry : P × ℕ} (hentry : entry ∈ (w.master.request e.version).nodes) :
      entry ∈ (w.master.request e.version).nodes ∧ entry.1 ≠ p :=
    ⟨hentry, fun hp => hnew (hp ▸ List.mem_map_of_mem hentry)⟩
  rcases (w.master.request e.version).nodes_count now e with
    ⟨hcount, -⟩ | ⟨hcount, -⟩ | ⟨hcount, -⟩
  · rw [hcount]
    exact ⟨h.nodup e.version, fun entry hentry => Or.inr (hold hentry)⟩
  · rw [hcount, List.map_append, List.map_singleton, hsender]
    refine ⟨List.nodup_append_comm.1 (List.nodup_cons.2 ⟨hnew, h.nodup e.version⟩),
      fun entry hentry => ?_⟩
    rcases List.mem_append.1 hentry with hentry | hentry
    · exact Or.inr (hold hentry)
    · exact Or.inl (List.mem_singleton.1 hentry)
  · rw [hcount, hsender]
    exact ⟨List.nodup_singleton _, fun entry hentry => Or.inl (List.mem_singleton.1 hentry)⟩

theorem cmdEnter_handled (h : w.Counted) {p : P} {commands : List (Enter P)}
    (hcommands : w.commands p = e :: commands)
    (hnew : p ∉ (w.master.request e.version).nodes.map Prod.fst)
    (hmaster : w.master.cmdEnter height defaultTimeout now stale e = some (m', outcome)) :
    ({ w with commands := Function.update w.commands p commands, master := m' } :
      World P).Counted := by
  have hsender : e.node = p := h.sender p e (hcommands ▸ List.mem_cons_self)
  have hsuccessive := h.successive p
  rw [hcommands] at hsuccessive
  have hold (v : ℕ) (entry : P × ℕ) (hentry : entry ∈ (w.master.request v).nodes)
      (hother : v ≠ e.version ∨ entry.1 ≠ p) :
      ({ w with commands := Function.update w.commands p commands, master := m' } :
        World P).Current v entry := by
    refine (h.current v entry hentry).imp_right ?_
    rintro ⟨e', he', hversion, hcall⟩
    rcases eq_or_ne entry.1 p with hp | hne
    · rw [hp, hcommands] at he'
      rcases List.mem_cons.1 he' with rfl | he'
      · exact absurd hp (hother.resolve_left (fun hv => hv hversion.symm))
      · exact ⟨e', by simpa only [hp, Function.update_self] using he', hversion, hcall⟩
    · exact ⟨e', by simpa only [Function.update_of_ne hne] using he', hversion, hcall⟩
  have hcounted : ({ w with commands := Function.update w.commands p commands, master := m' } :
      World P).Current e.version (p, e.call) := by
    rw [World.Current]
    refine hsuccessive.1.imp_right ?_
    rintro ⟨e', he', hspec⟩
    exact ⟨e', by simpa only [Function.update_self] using he', hspec⟩
  have hshrunk := (Master.cmdEnter_cases hmaster).1
  obtain ⟨hnodup, hentries⟩ := h.count hsender hnew now
  refine ⟨fun q e' he' => ?_, fun q => ?_, fun v => ?_, fun v entry hentry => ?_⟩
  · rcases eq_or_ne q p with rfl | hne
    · simp only [Function.update_self] at he'
      exact h.sender q e' (hcommands ▸ List.mem_cons_of_mem _ he')
    · simp only [Function.update_of_ne hne] at he'
      exact h.sender q e' he'
  · rcases eq_or_ne q p with rfl | hne
    · simp only [Function.update_self]
      exact hsuccessive.2
    · simp only [Function.update_of_ne hne]
      exact h.successive q
  · change (((m'.enteredNodes.lookup v).getD Request.new).nodes.map Prod.fst).Nodup
    rcases nodes_of_shrunk v hshrunk with hnil | ⟨rfl, hnodes⟩ | ⟨-, hnodes⟩
    · rw [hnil]
      exact List.nodup_nil
    · rw [hnodes]
      exact hnodup
    · rw [hnodes]
      exact h.nodup v
  · change entry ∈ ((m'.enteredNodes.lookup v).getD Request.new).nodes at hentry
    rcases nodes_of_shrunk v hshrunk with hnil | ⟨rfl, hnodes⟩ | ⟨hne, hnodes⟩
    · rw [hnil] at hentry
      cases hentry
    · rw [hnodes] at hentry
      rcases hentries entry hentry with rfl | ⟨hentry, hne⟩
      · exact hcounted
      · exact hold e.version entry hentry (Or.inr hne)
    · rw [hnodes] at hentry
      exact hold v entry hentry (Or.inl hne)

theorem step (h : w.Counted) (hone : height ≠ 1) {event : Event P} (hok : w.Unrepeated event)
    (hstep : w.step height defaultTimeout isLocal event = some w') : w'.Counted := by
  cases event with
  | tick time =>
      obtain rfl := Option.some.inj hstep
      exact h.congr rfl rfl (fun _ => rfl)
  | enter p timeout =>
      simp only [World.step] at hstep
      split_ifs at hstep
      obtain rfl := Option.some.inj hstep
      exact h.enter hone p timeout
  | leave p =>
      simp only [World.step] at hstep
      split_ifs at hstep
      obtain rfl := Option.some.inj hstep
      exact h.congr rfl rfl (fun _ => rfl)
  | timeout p =>
      simp only [World.step] at hstep
      split at hstep
      · cases hstep
      · split_ifs at hstep
        obtain rfl := Option.some.inj hstep
        exact h.congr rfl rfl (fun _ => rfl)
  | command p stale =>
      simp only [World.step] at hstep
      split at hstep
      · cases hstep
      · rename_i e commands hcommands
        obtain ⟨⟨m', outcome⟩, hmaster, rfl⟩ := Option.map_eq_some_iff.1 hstep
        have hcounted := h.cmdEnter_handled hcommands (hok e (hcommands ▸ rfl)).1 hmaster
        cases outcome with
        | none => exact hcounted
        | notify =>
            obtain ⟨hcalls, hcommands', hmaster'⟩ := sendNotify_frame isLocal e.version
              { w with commands := Function.update w.commands p commands, master := m' } p
            exact hcounted.congr hcalls hcommands' (fun _ => by rw [hmaster'])
        | release nodes =>
            obtain ⟨hcalls, hcommands', hmaster'⟩ := release_frame isLocal e.version
              { w with commands := Function.update w.commands p commands, master := m' }
              (nodes.map Prod.fst).dedup
            exact hcounted.congr hcalls hcommands' (fun _ => by rw [hmaster'])
  | reply p =>
      simp only [World.step] at hstep
      split at hstep
      · cases hstep
      · obtain rfl := Option.some.inj hstep
        split_ifs
        · exact h.congr rfl rfl (fun _ => rfl)
        · exact h.congr rfl rfl (fun _ => rfl)
  | commit version =>
      obtain rfl := Option.some.inj hstep
      exact h.congr rfl rfl (fun _ => rfl)
  | sync p version =>
      obtain rfl := Option.some.inj hstep
      exact h.congr rfl rfl (fun _ => rfl)

end Counted

theorem no_commands (h : ∀ p, w.commands p = []) {event : Event P}
    (hstep : w.step 1 defaultTimeout isLocal event = some w') : ∀ p, w'.commands p = [] := by
  cases event with
  | command p stale =>
      simp only [World.step, h p] at hstep
      cases hstep
  | tick time | commit version | sync p version =>
      obtain rfl := Option.some.inj hstep
      exact h
  | enter p timeout =>
      simp only [World.step] at hstep
      split_ifs at hstep
      obtain rfl := Option.some.inj hstep
      exact h
  | leave p =>
      simp only [World.step] at hstep
      split_ifs at hstep
      obtain rfl := Option.some.inj hstep
      exact h
  | timeout p =>
      simp only [World.step] at hstep
      split at hstep
      · cases hstep
      · split_ifs at hstep
        obtain rfl := Option.some.inj hstep
        exact h
  | reply p =>
      simp only [World.step] at hstep
      split at hstep
      · cases hstep
      · obtain rfl := Option.some.inj hstep
        split_ifs
        · exact h
        · exact h

/-- A participant is notified alone only for an older version. When a round is released, as many
different participants as the height are counted, and the last call of each of them for this version is
counted or under way. -/
theorem release_distinct {version : ℕ} {events : List (Event P)} {p : P} {stale : Option ℕ}
    (hok : Machine.Steps (World.step height defaultTimeout isLocal) Unrepeated (init version) events)
    (hrun : Machine.run (World.step height defaultTimeout isLocal) (init version) events = some w)
    (hlast : w.Unrepeated (.command p stale)) (he : (w.commands p).head? = some e)
    (hcommand : w.master.cmdEnter height defaultTimeout w.now stale e = some (m', outcome)) :
    (outcome = .notify → e.version < w.master.version) ∧
      ∀ nodes, outcome = .release nodes → height ≤ (nodes.map Prod.fst).dedup.length ∧
        ∀ entry ∈ nodes, w.Current e.version entry := by
  obtain ⟨commands, hcommands⟩ : ∃ commands, w.commands p = e :: commands := by
    cases hlist : w.commands p with
    | nil =>
        rw [hlist] at he
        cases he
    | cons e' commands =>
        rw [hlist] at he
        exact ⟨commands, by rw [Option.some.inj he]⟩
  rcases eq_or_ne height 1 with rfl | hone
  · have hnone : ∀ q, w.commands q = [] := Machine.run_invariant
      (fun w : World P => ∀ q, w.commands q = [])
      (fun _ _ _ h _ hstep => no_commands h hstep) (fun _ => rfl) hok hrun
    rw [hnone p] at hcommands
    cases hcommands
  · have h : w.Counted := Machine.run_invariant Counted
      (fun _ _ _ h hok hstep => h.step hone hok hstep) (counted_init version) hok hrun
    obtain ⟨-, hnotify, hrelease⟩ := Master.cmdEnter_cases hcommand
    obtain ⟨hnew, hlate⟩ := hlast e he
    refine ⟨fun houtcome => ?_, fun nodes houtcome => ?_⟩
    · rcases hnotify houtcome with hlt | houtdated
      · exact hlt
      · exact not_le.1 (fun hle => hlate hle houtdated)
    obtain ⟨rfl, hheight⟩ := hrelease nodes houtcome
    have hsender : e.node = p := h.sender p e (hcommands ▸ List.mem_cons_self)
    obtain ⟨hnodup, hentries⟩ := h.count hsender hnew w.now
    refine ⟨?_, fun entry hentry => ?_⟩
    · rw [hnodup.dedup, List.length_map]
      exact hheight
    · rcases hentries entry hentry with rfl | ⟨hentry, -⟩
      · have hsuccessive := h.successive p
        rw [hcommands] at hsuccessive
        refine hsuccessive.1.imp_right ?_
        rintro ⟨e', he', hspec⟩
        exact ⟨e', hcommands ▸ List.mem_cons_of_mem _ he', hspec⟩
      · exact h.current e.version entry hentry

/-- Two participants enter a barrier, of which one has timed out before. -/
theorem release_distinct_two : ∃ (w : World ℕ) (e : Enter ℕ) (m : Master ℕ) (nodes : List (ℕ × ℕ)),
    Machine.run (World.step 2 100 (fun p => p == 0)) (init 1)
        [.enter 0 10, .command 0 none, .timeout 0, .enter 1 10] = some w ∧
      w.master.cmdEnter 2 100 w.now none e = some (m, .release nodes) ∧
      2 ≤ (nodes.map Prod.fst).dedup.length := by
  have h : (Machine.run (World.step 2 100 (fun p => p == 0)) (init 1 : World ℕ)
      [.enter 0 10, .command 0 none, .timeout 0, .enter 1 10]).map (fun w =>
        decide ((w.commands 1).head? = some ⟨1, 1, 0, 10, 1⟩ ∧ w.Unrepeated (.command 1 none))) =
      some true := by
    decide +kernel
  obtain ⟨w, hrun, hw⟩ := Option.map_eq_some_iff.1 h
  obtain ⟨he, hlast⟩ := of_decide_eq_true hw
  have hresult : (Machine.run (World.step 2 100 (fun p => p == 0)) (init 1 : World ℕ)
      [.enter 0 10, .command 0 none, .timeout 0, .enter 1 10]).map (fun w =>
        (w.master.cmdEnter 2 100 w.now none ⟨1, 1, 0, 10, 1⟩).map (fun result => result.2)) =
      some (some (.release [(0, 1), (1, 1)])) := by
    decide +kernel
  rw [hrun, Option.map_some, Option.some.injEq] at hresult
  obtain ⟨⟨m, outcome⟩, hmaster, rfl⟩ := Option.map_eq_some_iff.1 hresult
  exact ⟨w, _, m, _, hrun, hmaster,
    ((release_distinct (by decide +kernel) hrun hlast he hmaster).2 _ rfl).1⟩

/-- A participant times out and enters again: it is counted twice, and passes the barrier alone. Or its
call is counted after the round was released: another one passes the barrier alone after that. -/
theorem release_alone :
    (∃ (w : World ℕ) (m : Master ℕ),
      Machine.run (World.step 2 100 (fun p => p == 0)) (init 1)
          [.enter 1 10, .command 1 none, .timeout 1, .enter 1 10] = some w ∧
        w.calls 0 1 = 0 ∧ (w.commands 1).head? = some ⟨1, 1, 0, 10, 2⟩ ∧
        w.master.cmdEnter 2 100 w.now none ⟨1, 1, 0, 10, 2⟩ =
          some (m, .release [(1, 1), (1, 2)]) ∧
        ([(1, 1), (1, 2)].map Prod.fst).dedup.length = 1) ∧
    ∃ (w : World ℕ) (m : Master ℕ),
      Machine.run (World.step 3 100 (fun p => p == 0)) (init 1)
          [.enter 1 10, .command 1 none, .timeout 1, .enter 1 10, .enter 2 10, .command 2 none,
            .enter 0 10, .command 0 none, .command 1 none, .reply 2, .leave 2, .enter 2 10] =
          some w ∧
        w.calls 0 1 = 1 ∧ (w.commands 2).head? = some ⟨2, 1, 1, 10, 2⟩ ∧
        w.master.cmdEnter 3 100 w.now none ⟨2, 1, 1, 10, 2⟩ = some (m, .notify) ∧
        w.master.version = 1 := by
  have h : (Machine.run (World.step 2 100 (fun p => p == 0)) (init 1 : World ℕ)
      [.enter 1 10, .command 1 none, .timeout 1, .enter 1 10]).map (fun w =>
        decide (w.calls 0 1 = 0 ∧ (w.commands 1).head? = some ⟨1, 1, 0, 10, 2⟩)) = some true := by
    decide +kernel
  have hresult : (Machine.run (World.step 2 100 (fun p => p == 0)) (init 1 : World ℕ)
      [.enter 1 10, .command 1 none, .timeout 1, .enter 1 10]).map (fun w =>
        (w.master.cmdEnter 2 100 w.now none ⟨1, 1, 0, 10, 2⟩).map (fun result => result.2)) =
      some (some (.release [(1, 1), (1, 2)])) := by
    decide +kernel
  have h' : (Machine.run (World.step 3 100 (fun p => p == 0)) (init 1 : World ℕ)
      [.enter 1 10, .command 1 none, .timeout 1, .enter 1 10, .enter 2 10, .command 2 none,
        .enter 0 10, .command 0 none, .command 1 none, .reply 2, .leave 2, .enter 2 10]).map
        (fun w => decide (w.calls 0 1 = 1 ∧ (w.commands 2).head? = some ⟨2, 1, 1, 10, 2⟩ ∧
          w.master.version = 1)) = some true := by
    decide +kernel
  have hresult' : (Machine.run (World.step 3 100 (fun p => p == 0)) (init 1 : World ℕ)
      [.enter 1 10, .command 1 none, .timeout 1, .enter 1 10, .enter 2 10, .command 2 none,
        .enter 0 10, .command 0 none, .command 1 none, .reply 2, .leave 2, .enter 2 10]).map
        (fun w => (w.master.cmdEnter 3 100 w.now none ⟨2, 1, 1, 10, 2⟩).map
          (fun result => result.2)) = some (some .notify) := by
    decide +kernel
  obtain ⟨w, hrun, hw⟩ := Option.map_eq_some_iff.1 h
  obtain ⟨hcalls, he⟩ := of_decide_eq_true hw
  rw [hrun, Option.map_some, Option.some.injEq] at hresult
  obtain ⟨⟨m, outcome⟩, hmaster, rfl⟩ := Option.map_eq_some_iff.1 hresult
  obtain ⟨w', hrun', hw'⟩ := Option.map_eq_some_iff.1 h'
  obtain ⟨hcalls', he', hversion⟩ := of_decide_eq_true hw'
  rw [hrun', Option.map_some, Option.some.injEq] at hresult'
  obtain ⟨⟨m', outcome'⟩, hmaster', rfl⟩ := Option.map_eq_some_iff.1 hresult'
  exact ⟨⟨w, m, hrun, hcalls, he, hmaster, by decide⟩, w', m', hrun', hcalls', he', hmaster',
    hversion⟩

end World

end Collage.Barrier
