import Collage.Object.Calls

/-!
# How long a master keeps a version

A version carries the count of the commit that made it. The loop of `_obsolete` drops the versions
before the cutoff, from the oldest one on, but never the newest. Clean commits and those without
data count as well, and the number of retained versions may change at any time, so that a version
which was the newest at one cutoff may stay behind when the next ones are lower.
-/

namespace Collage.Object.MasterCM

variable {S : Type} {cls : ObjectClass S} {m m' : MasterCM S}

/-- The versions of earlier commits are obsolete. -/
def cutoff (m : MasterCM S) : ℕ := m.commitCount - m.nVersions

/-- The incarnations of the commits do not decrease. -/
def Ordered (m : MasterCM S) : Call S → Prop
  | .commit _ incarnation => m.Increasing incarnation
  | _ => True

instance decidableOrdered (m : MasterCM S) : (c : Call S) → Decidable (m.Ordered c)
  | .commit _ incarnation => inferInstanceAs (Decidable (m.Increasing incarnation))
  | .setAutoObsolete _ => isTrue trivial
  | .addSlave _ => isTrue trivial
  | .removeSlave _ _ => isTrue trivial
  | .removeSlaves _ => isTrue trivial
  | .cmdMaxVersion _ _ _ => isTrue trivial

/-- For versions in the order of their commits the loop drops all before the cutoff but the last. -/
theorem mem_popObsolete {commitCount nVersions : ℕ} {datas : List InstanceData}
    (hsorted : datas.Pairwise (fun d e => d.commitCount ≤ e.commitCount)) {d : InstanceData} :
    d ∈ popObsolete commitCount nVersions datas ↔
      d ∈ datas ∧ (datas.getLast? = some d ∨ commitCount - nVersions ≤ d.commitCount) := by
  induction datas with
  | nil => simp [popObsolete]
  | cons e datas ih =>
      obtain ⟨hfirst, hsorted⟩ := List.pairwise_cons.1 hsorted
      cases datas with
      | nil =>
          rw [popObsolete, List.mem_singleton, List.getLast?_singleton, Option.some.injEq]
          · exact ⟨fun h => ⟨h, Or.inl h.symm⟩, fun h => h.1⟩
          · exact fun _ _ _ h => by cases h
      | cons e' datas =>
          rw [popObsolete, List.getLast?_cons_cons]
          split_ifs with hpop
          · rw [ih hsorted]
            constructor
            · rintro ⟨hd, hkeep⟩
              exact ⟨List.mem_cons_of_mem e hd, hkeep⟩
            · rintro ⟨hd, hkeep⟩
              refine ⟨?_, hkeep⟩
              rcases hkeep with hlast | hcount
              · exact List.mem_of_getLast? hlast
              · refine (List.mem_cons.1 hd).resolve_left (fun he => ?_)
                rw [he] at hcount
                omega
          · have hcount : commitCount - nVersions ≤ e.commitCount := by omega
            constructor
            · intro hd
              refine ⟨hd, Or.inr ?_⟩
              rcases List.mem_cons.1 hd with rfl | hd'
              · exact hcount
              · exact hcount.trans (hfirst d hd')
            · exact fun h => h.1

theorem popObsolete_sublist (commitCount nVersions : ℕ) (datas : List InstanceData) :
    (popObsolete commitCount nVersions datas).Sublist datas := by
  induction datas with
  | nil => exact List.Sublist.refl _
  | cons e datas ih =>
      cases datas with
      | nil => exact List.Sublist.refl _
      | cons e' datas =>
          rw [popObsolete]
          split_ifs
          · exact ih.trans (List.sublist_cons_self _ _)
          · exact List.Sublist.refl _

theorem getLast?_popObsolete (commitCount nVersions : ℕ) (datas : List InstanceData) :
    (popObsolete commitCount nVersions datas).getLast? = datas.getLast? := by
  induction datas with
  | nil => rfl
  | cons e datas ih =>
      cases datas with
      | nil => rfl
      | cons e' datas =>
          rw [popObsolete]
          split_ifs
          · rw [ih, List.getLast?_cons_cons]
          · rfl

/-- The versions a master has, in the order of their commits. -/
structure Counted (m : MasterCM S) : Prop where
  retains : ∃ oldest data, m.Retains oldest data
  ascending : m.instanceDatas.Pairwise (fun d e => d.commitCount ≤ e.commitCount)
  counts : ∀ d ∈ m.instanceDatas, d.commitCount ≤ m.commitCount

theorem Counted.getLast?_eq_some_iff (h : m.Counted) {d : InstanceData} :
    m.instanceDatas.getLast? = some d ↔ d ∈ m.instanceDatas ∧ d.version = m.version := by
  obtain ⟨oldest, data, hretains⟩ := h.retains
  rw [hretains.datas, getLast?_interval hretains.last, Option.some.injEq, mem_interval]
  constructor
  · rintro rfl
    exact ⟨⟨m.version, hretains.last, le_rfl, rfl⟩, hretains.version _⟩
  · rintro ⟨⟨v, -, -, rfl⟩, hv⟩
    rw [hretains.version] at hv
    rw [hv]

theorem Counted.version_le (h : m.Counted) {d : InstanceData} (hd : d ∈ m.instanceDatas) :
    d.version ≤ m.version := by
  obtain ⟨oldest, data, hretains⟩ := h.retains
  rw [hretains.datas, mem_interval] at hd
  obtain ⟨v, -, hv, rfl⟩ := hd
  rw [hretains.version]
  exact hv

theorem Counted.mem_obsolete (h : m.Counted) {d : InstanceData} :
    d ∈ m.obsolete.instanceDatas ↔
      d ∈ m.instanceDatas ∧ (d.version = m.version ∨ m.cutoff ≤ d.commitCount) := by
  change d ∈ popObsolete m.commitCount m.nVersions m.instanceDatas ↔ _
  rw [mem_popObsolete h.ascending, h.getLast?_eq_some_iff, cutoff]
  tauto

theorem Counted.obsolete (h : m.Counted) : m.obsolete.Counted := by
  obtain ⟨oldest, data, hretains⟩ := h.retains
  obtain ⟨oldest', hle, hlast, heq⟩ :=
    popObsolete_interval m.commitCount m.nVersions data hretains.last
  refine ⟨⟨oldest', data, ?_, hretains.version, hretains.first.trans hle, hlast⟩,
    h.ascending.sublist (popObsolete_sublist _ _ _),
    fun d hd => h.counts d ((popObsolete_sublist _ _ _).subset hd)⟩
  change popObsolete _ _ _ = _
  rw [hretains.datas]
  exact heq

/-- Before `_obsolete`: the commit count is not lower, and at most one version is new. -/
structure Advanced (m m' : MasterCM S) : Prop where
  count : m.commitCount ≤ m'.commitCount
  datas : (m'.version = m.version ∧ m'.instanceDatas = m.instanceDatas) ∨
    (m'.version = m.version + 1 ∧ ∃ data,
      m'.instanceDatas = m.instanceDatas ++ [⟨m.version + 1, data, m'.commitCount⟩])

theorem Retains.of_advanced {oldest : ℕ} {data : ℕ → InstanceData} (h : m.Retains oldest data)
    (hm : Advanced m m') : ∃ data', m'.Retains oldest data' := by
  rcases hm.datas with ⟨hversion, hdatas⟩ | ⟨hversion, new, hdatas⟩
  · refine ⟨data, ?_, h.version, h.first, ?_⟩
    · rw [hdatas, hversion]
      exact h.datas
    · rw [hversion]
      exact h.last
  · refine ⟨Function.update data (m.version + 1) ⟨m.version + 1, new, m'.commitCount⟩, ?_,
      fun v => ?_, h.first, ?_⟩
    · have hlast := h.last
      rw [hdatas, hversion, interval_snoc (by omega), Function.update_self, h.datas]
      congr 1
      refine interval_congr (fun v _ hv => ?_)
      rw [Function.update_of_ne (by omega)]
    · rcases eq_or_ne v (m.version + 1) with rfl | hne
      · rw [Function.update_self]
      · rw [Function.update_of_ne hne, h.version]
    · rw [hversion]
      exact h.last.trans (Nat.le_succ _)

theorem Counted.of_advanced (h : m.Counted) (hm : Advanced m m') : m'.Counted := by
  obtain ⟨oldest, data, hretains⟩ := h.retains
  have hold : ∀ d ∈ m.instanceDatas, d.commitCount ≤ m'.commitCount :=
    fun d hd => (h.counts d hd).trans hm.count
  rcases hm.datas with ⟨-, hdatas⟩ | ⟨-, new, hdatas⟩
  · refine ⟨⟨oldest, hretains.of_advanced hm⟩, ?_, ?_⟩
    · rw [hdatas]
      exact h.ascending
    · rw [hdatas]
      exact hold
  · refine ⟨⟨oldest, hretains.of_advanced hm⟩, ?_, fun d hd => ?_⟩
    · rw [hdatas, List.pairwise_append]
      refine ⟨h.ascending, List.pairwise_singleton _ _, fun d hd e he => ?_⟩
      rw [List.mem_singleton.1 he]
      exact hold d hd
    · rw [hdatas, List.mem_append, List.mem_singleton] at hd
      rcases hd with hd | rfl
      · exact hold d hd
      · exact le_rfl

theorem updateCommitCount_increasing {incarnation : ℕ} (hincarnation : m.Increasing incarnation) :
    ∃ count, m.commitCount ≤ count ∧
      count = (if incarnation = commitNext then m.commitCount + 1 else incarnation) ∧
      m.updateCommitCount incarnation = { m with commitCount := count } := by
  refine ⟨_, ?_, rfl, ?_⟩
  · split_ifs with hnext
    · exact Nat.le_succ _
    · exact hincarnation.resolve_left hnext
  · unfold updateCommitCount
    by_cases hnext : incarnation = commitNext
    · rw [if_pos hnext, if_pos hnext]
    · rw [if_neg hnext, if_neg hnext, if_pos (hincarnation.resolve_left hnext)]

/-- `_commit` makes at most one version. -/
structure Versioned (m m' : MasterCM S) : Prop where
  commitCount : m'.commitCount = m.commitCount
  nVersions : m'.nVersions = m.nVersions
  datas : (m'.version = m.version ∧ m'.instanceDatas = m.instanceDatas) ∨
    (m'.version = m.version + 1 ∧ ∃ data,
      m'.instanceDatas = m.instanceDatas ++ [⟨m.version + 1, data, m.commitCount⟩])

theorem versioned_commitFull (cls : ObjectClass S) (m : MasterCM S) :
    Versioned m (m.commitFull cls).1 := by
  simp only [commitFull]
  split_ifs
  · exact ⟨rfl, rfl, Or.inr ⟨rfl, _, rfl⟩⟩
  · exact ⟨rfl, rfl, Or.inl ⟨rfl, rfl⟩⟩

theorem versioned_commitDelta (cls : ObjectClass S) (m : MasterCM S) :
    Versioned m (m.commitDelta cls).1 := by
  simp only [commitDelta]
  generalize (if m.slaves ≠ [] then cls.packSent (m.history m.version) m.state
    else m.deltaSent) = sent
  by_cases hsend : m.slaves = [] ∨ sent = true
  · rw [if_pos hsend]
    by_cases hdata : sent = true ∨ cls.getInstanceData m.state ≠ []
    · rw [if_pos hdata]
      exact ⟨rfl, rfl, Or.inr ⟨rfl, _, rfl⟩⟩
    · rw [if_neg hdata]
      exact ⟨rfl, rfl, Or.inl ⟨rfl, rfl⟩⟩
  · rw [if_neg hsend]
    exact ⟨rfl, rfl, Or.inl ⟨rfl, rfl⟩⟩

theorem commit_obsolete (cls : ObjectClass S) (state : S) {incarnation : ℕ}
    (hincarnation : m.Increasing incarnation) :
    ∃ m₁, Advanced m m₁ ∧
      m₁.commitCount = (if incarnation = commitNext then m.commitCount + 1 else incarnation) ∧
      m₁.nVersions = m.nVersions ∧ m.commitObject cls state incarnation = m₁.obsolete := by
  obtain ⟨count, hle, hcount, heq⟩ :=
    updateCommitCount_increasing (m := { m with state := state }) hincarnation
  have hversioned {m₁ : MasterCM S}
      (h : Versioned { m with state := state, commitCount := count } m₁) :
      Advanced m m₁ ∧
        m₁.commitCount = (if incarnation = commitNext then m.commitCount + 1 else incarnation) ∧
        m₁.nVersions = m.nVersions := by
    refine ⟨⟨hle.trans h.commitCount.ge, ?_⟩, h.commitCount.trans hcount, h.nVersions⟩
    rw [h.commitCount]
    exact h.datas
  unfold commitObject
  by_cases hdirty : cls.isDirty (m.history m.version) state = true
  · rw [if_pos hdirty]
    simp only [commit, heq]
    cases cls.changeType with
    | full =>
        obtain ⟨hadvanced, hcommit, hlimit⟩ := hversioned (versioned_commitFull cls _)
        exact ⟨_, hadvanced, hcommit, hlimit, rfl⟩
    | delta =>
        obtain ⟨hadvanced, hcommit, hlimit⟩ := hversioned (versioned_commitDelta cls _)
        exact ⟨_, hadvanced, hcommit, hlimit, rfl⟩
  · rw [if_neg hdirty, commitClean, heq]
    obtain ⟨hadvanced, hcommit, hlimit⟩ := hversioned ⟨rfl, rfl, Or.inl ⟨rfl, rfl⟩⟩
    exact ⟨_, hadvanced, hcommit, hlimit, rfl⟩

theorem call_cases (cls : ObjectClass S) {c : Call S} (hc : m.Ordered c) :
    (∃ m₁, Advanced m m₁ ∧ m.call cls c = m₁.obsolete) ∨
      ((m.call cls c).version = m.version ∧ (m.call cls c).instanceDatas = m.instanceDatas ∧
        (m.call cls c).commitCount = m.commitCount ∧ (m.call cls c).nVersions = m.nVersions) := by
  cases c with
  | commit state incarnation =>
      obtain ⟨m₁, hadvanced, -, -, heq⟩ := commit_obsolete cls state hc
      exact Or.inl ⟨m₁, hadvanced, heq⟩
  | setAutoObsolete count =>
      exact Or.inl ⟨{ m with nVersions := count }, ⟨le_rfl, Or.inl ⟨rfl, rfl⟩⟩, rfl⟩
  | addSlave command => exact Or.inr ⟨rfl, rfl, rfl, rfl⟩
  | removeSlave node instanceID =>
      refine Or.inr ?_
      simp only [call, removeSlave]
      split_ifs <;> exact ⟨rfl, rfl, rfl, rfl⟩
  | removeSlaves node =>
      refine Or.inr ?_
      simp only [call, removeSlaves]
      split_ifs <;> exact ⟨rfl, rfl, rfl, rfl⟩
  | cmdMaxVersion node instanceID version =>
      refine Or.inr ?_
      simp only [call, cmdMaxVersion]
      split_ifs <;> exact ⟨rfl, rfl, rfl, rfl⟩

/-- Between the calls only the newest version may be before the cutoff. -/
structure Settled (m : MasterCM S) : Prop where
  counted : m.Counted
  cutoff : ∀ d ∈ m.instanceDatas, d.version = m.version ∨ m.cutoff ≤ d.commitCount

/-- What a call keeps of the versions there are, and what it may add. -/
structure Drops (m m' : MasterCM S) : Prop where
  version : m.version ≤ m'.version
  mem : ∀ d, d.version ≤ m.version → (d ∈ m'.instanceDatas ↔
    d ∈ m.instanceDatas ∧ (d.version = m'.version ∨ m'.cutoff ≤ d.commitCount))
  new : ∀ d ∈ m'.instanceDatas, d.version ≤ m.version ∨ d.version = m'.version

theorem Advanced.mem (hm : Advanced m m') {d : InstanceData} (hd : d.version ≤ m.version) :
    d ∈ m'.instanceDatas ↔ d ∈ m.instanceDatas := by
  rcases hm.datas with ⟨-, hdatas⟩ | ⟨-, new, hdatas⟩
  · rw [hdatas]
  · rw [hdatas, List.mem_append, List.mem_singleton]
    refine ⟨fun h => h.resolve_right ?_, Or.inl⟩
    rintro rfl
    exact absurd hd (Nat.not_succ_le_self _)

theorem Settled.call (cls : ObjectClass S) (h : m.Settled) {c : Call S} (hc : m.Ordered c) :
    (m.call cls c).Settled ∧ Drops m (m.call cls c) := by
  rcases call_cases cls hc with ⟨m₁, hm, heq⟩ | ⟨hversion, hdatas, hcount, hlimit⟩
  · have hcounted := h.counted.of_advanced hm
    have hle : m.version ≤ m₁.version := by
      rcases hm.datas with ⟨hv, -⟩ | ⟨hv, -⟩ <;> omega
    rw [heq]
    refine ⟨⟨hcounted.obsolete, fun d hd => (hcounted.mem_obsolete.1 hd).2⟩, hle, fun d hd => ?_,
      fun d hd => ?_⟩
    · rw [hcounted.mem_obsolete, hm.mem hd]
      exact Iff.rfl
    · have hmem := (hcounted.mem_obsolete.1 hd).1
      rcases hm.datas with ⟨hv, -⟩ | ⟨hv, -⟩
      · exact Or.inl ((hcounted.version_le hmem).trans hv.le)
      · have := hcounted.version_le hmem
        change _ ∨ d.version = m₁.version
        omega
  · have hcutoff : (m.call cls c).cutoff = m.cutoff := by
      rw [MasterCM.cutoff, MasterCM.cutoff, hcount, hlimit]
    have hcounted : (m.call cls c).Counted := by
      obtain ⟨oldest, data, hretains⟩ := h.counted.retains
      refine ⟨⟨oldest, data, ?_, hretains.version, hretains.first, ?_⟩, ?_, ?_⟩
      · rw [hdatas, hversion]
        exact hretains.datas
      · rw [hversion]
        exact hretains.last
      · rw [hdatas]
        exact h.counted.ascending
      · rw [hdatas, hcount]
        exact h.counted.counts
    have hsettled : ∀ d ∈ m.instanceDatas,
        d.version = (m.call cls c).version ∨ (m.call cls c).cutoff ≤ d.commitCount := by
      rw [hversion, hcutoff]
      exact h.cutoff
    refine ⟨⟨hcounted, ?_⟩, hversion.ge, fun d _ => ?_, fun d hd => ?_⟩
    · rw [hdatas]
      exact hsettled
    · rw [hdatas]
      exact ⟨fun hd => ⟨hd, hsettled d hd⟩, fun hd => hd.1⟩
    · rw [hdatas] at hd
      exact Or.inl (h.counted.version_le hd)

theorem settled_init (cls : ObjectClass S) (s : S) (instanceID : ℕ) :
    (init cls s instanceID).Settled := by
  refine ⟨⟨⟨versionFirst, fun v => ⟨v, cls.getInstanceData s, 0⟩, ?_, fun _ => rfl, le_rfl,
    le_rfl⟩, List.pairwise_singleton _ _, ?_⟩, ?_⟩
  · exact (interval_self _ _).symm
  · intro d hd
    rw [List.mem_singleton.1 hd]
    exact Nat.zero_le _
  · intro d hd
    rw [List.mem_singleton.1 hd]
    exact Or.inl rfl

section Runs

variable (cls) (s : S) (instanceID : ℕ)

def after (calls : List (Call S)) : MasterCM S := calls.foldl (call cls) (init cls s instanceID)

/-- Every call is made in a state that allows it. -/
def Calls (ok : MasterCM S → Call S → Prop) (calls : List (Call S)) : Prop :=
  Machine.Steps (fun m c => some (call cls m c)) ok (init cls s instanceID) calls

instance (ok : MasterCM S → Call S → Prop) [∀ m c, Decidable (ok m c)] (calls : List (Call S)) :
    Decidable (Calls cls s instanceID ok calls) :=
  inferInstanceAs (Decidable (Machine.Steps _ _ _ _))

variable {cls s instanceID} {calls : List (Call S)}

theorem after_snoc (calls : List (Call S)) (c : Call S) :
    after cls s instanceID (calls ++ [c]) = (after cls s instanceID calls).call cls c := by
  rw [after, List.foldl_append]
  rfl

theorem calls_snoc {ok : MasterCM S → Call S → Prop} {c : Call S} :
    Calls cls s instanceID ok (calls ++ [c]) ↔
      Calls cls s instanceID ok calls ∧ ok (after cls s instanceID calls) c := by
  rw [Calls, Machine.steps_append]
  exact and_congr_right (fun _ => ⟨fun h => h.1, fun h => ⟨h, fun _ _ => trivial⟩⟩)

theorem Calls.of_prefix {ok : MasterCM S → Call S → Prop} {pre : List (Call S)}
    (h : Calls cls s instanceID ok calls) (hpre : pre <+: calls) :
    Calls cls s instanceID ok pre := by
  obtain ⟨post, rfl⟩ := hpre
  exact (Machine.steps_append.1 h).1

theorem settled_after (hcalls : Calls cls s instanceID Ordered calls) :
    (after cls s instanceID calls).Settled := by
  induction calls using List.reverseRecOn with
  | nil => exact settled_init cls s instanceID
  | append_singleton calls c ih =>
      obtain ⟨hcalls, hc⟩ := calls_snoc.1 hcalls
      rw [after_snoc]
      exact ((ih hcalls).call cls hc).1

theorem version_after_le (hcalls : Calls cls s instanceID Ordered calls) {pre : List (Call S)}
    (hpre : pre <+: calls) :
    (after cls s instanceID pre).version ≤ (after cls s instanceID calls).version := by
  induction calls using List.reverseRecOn with
  | nil => rw [List.prefix_nil.1 hpre]
  | append_singleton calls c ih =>
      obtain ⟨hcalls, hc⟩ := calls_snoc.1 hcalls
      rcases List.prefix_concat_iff.1 hpre with rfl | hpre
      · exact le_rfl
      · refine (ih hcalls hpre).trans ?_
        rw [after_snoc]
        exact ((settled_after hcalls).call cls hc).2.version

/-- A version stays until a cutoff is applied that is above its commit, and it is not the newest. -/
theorem mem_after_iff (hcalls : Calls cls s instanceID Ordered calls) {pre : List (Call S)}
    (hpre : pre <+: calls) {d : InstanceData}
    (hd : d ∈ (after cls s instanceID pre).instanceDatas) :
    d ∈ (after cls s instanceID calls).instanceDatas ↔
      d.version = (after cls s instanceID calls).version ∨
        ∀ pre', pre' <+: calls → d.version < (after cls s instanceID pre').version →
          (after cls s instanceID pre').cutoff ≤ d.commitCount := by
  induction calls using List.reverseRecOn generalizing pre with
  | nil =>
      have hfirst : d.version = (after cls s instanceID []).version := by
        rw [List.prefix_nil.1 hpre] at hd
        rw [List.mem_singleton.1 hd]
        rfl
      rw [List.prefix_nil.1 hpre] at hd
      exact ⟨fun _ => Or.inl hfirst, fun _ => hd⟩
  | append_singleton calls c ih =>
      obtain ⟨hcalls, hc⟩ := calls_snoc.1 hcalls
      obtain ⟨-, hdrops⟩ := (settled_after hcalls).call cls hc
      rw [← after_snoc] at hdrops
      have hold {pre : List (Call S)} (hpre : pre <+: calls)
          (hd : d ∈ (after cls s instanceID pre).instanceDatas) :
          d ∈ (after cls s instanceID (calls ++ [c])).instanceDatas ↔
            d.version = (after cls s instanceID (calls ++ [c])).version ∨
              ∀ pre', pre' <+: calls ++ [c] → d.version < (after cls s instanceID pre').version →
                (after cls s instanceID pre').cutoff ≤ d.commitCount := by
        have hle : d.version ≤ (after cls s instanceID calls).version :=
          ((settled_after (hcalls.of_prefix hpre)).counted.version_le hd).trans
            (version_after_le hcalls hpre)
        rw [hdrops.mem d hle, ih hcalls hpre hd]
        constructor
        · rintro ⟨hbefore, hnow⟩
          refine hnow.imp_right (fun hcut pre' hpre' hlt => ?_)
          rcases List.prefix_concat_iff.1 hpre' with rfl | hpre'
          · exact hcut
          · rcases hbefore with heq | hall
            · exact absurd (version_after_le hcalls hpre') (by omega)
            · exact hall pre' hpre' hlt
        · rintro (heq | hall)
          · exact ⟨Or.inl (le_antisymm hle (heq ▸ hdrops.version)), Or.inl heq⟩
          · refine ⟨Or.inr (fun pre' hpre' => hall pre' (hpre'.trans (List.prefix_append _ _))), ?_⟩
            rcases (hle.trans hdrops.version).eq_or_lt with heq | hlt
            · exact Or.inl heq
            · exact Or.inr (hall _ (List.prefix_refl _) hlt)
      rcases List.prefix_concat_iff.1 hpre with rfl | hpre
      · rcases hdrops.new d hd with hle | heq
        · exact hold (List.prefix_refl _) ((hdrops.mem d hle).1 hd).1
        · exact ⟨fun _ => Or.inl heq, fun _ => hd⟩
      · exact hold hpre hd

/-- The versions that are kept are the last ones. Of those there ever were these are the newest and
the ones that no cutoff has passed since there is a newer one. -/
theorem retained (hcalls : Calls cls s instanceID Ordered calls) :
    let m := after cls s instanceID calls
    m.instanceDatas ≠ [] ∧
      (∃ oldest, versionFirst ≤ oldest ∧ oldest ≤ m.version ∧
        m.instanceDatas.map InstanceData.version = interval id oldest m.version) ∧
      (∃ d ∈ m.instanceDatas, d.version = m.version) ∧
      ∀ pre, pre <+: calls → ∀ d ∈ (after cls s instanceID pre).instanceDatas,
        (d ∈ m.instanceDatas ↔ d.version = m.version ∨
          ∀ pre', pre' <+: calls → d.version < (after cls s instanceID pre').version →
            (after cls s instanceID pre').cutoff ≤ d.commitCount) := by
  intro m
  obtain ⟨oldest, data, hretains⟩ := (settled_after hcalls).counted.retains
  refine ⟨?_, ⟨oldest, hretains.first, hretains.last, ?_⟩, ⟨data m.version, ?_, hretains.version _⟩,
    fun pre hpre d hd => mem_after_iff hcalls hpre hd⟩
  · intro hnil
    rw [hretains.datas, interval_eq_nil_iff] at hnil
    exact absurd hretains.last (not_le.2 hnil)
  · rw [hretains.datas, map_interval]
    exact interval_congr (fun v _ _ => hretains.version v)
  · rw [hretains.datas, mem_interval]
    exact ⟨_, hretains.last, le_rfl, rfl⟩

end Runs

/-- A version, then the number of versions to keep is set, and a commit without a change. -/
theorem retained_of_window :
    let m := after (ObjectClass.byte .full) 3 0
      [.commit 5 commitNext, .setAutoObsolete 1, .commit 5 commitNext]
    m.instanceDatas ≠ [] ∧
      (∃ oldest, versionFirst ≤ oldest ∧ oldest ≤ m.version ∧
        m.instanceDatas.map InstanceData.version = interval id oldest m.version) ∧
      ∃ d ∈ m.instanceDatas, d.version = m.version := by
  intro m
  have hcalls : Calls (ObjectClass.byte .full) 3 0 Ordered
      [.commit 5 commitNext, .setAutoObsolete 1, .commit 5 commitNext] := by decide +kernel
  obtain ⟨hne, hversions, hnewest, -⟩ := retained hcalls
  exact ⟨hne, hversions, hnewest⟩

/-- The first version is the newest when the cutoff is two. It is kept when the next version is
made, although its commit is before that cutoff. -/
theorem retained_before_cutoff :
    let calls : List (Call UInt8) :=
      [.commit 3 commitNext, .setAutoObsolete 100, .commit 5 commitNext]
    Calls (ObjectClass.byte .full) 3 0 Ordered calls ∧
      ∃ pre, pre <+: calls ∧ (after (ObjectClass.byte .full) 3 0 pre).cutoff = 2 ∧
        ∃ d ∈ (after (ObjectClass.byte .full) 3 0 calls).instanceDatas, d.commitCount < 2 ∧
          d.version ≠ (after (ObjectClass.byte .full) 3 0 calls).version := by
  refine ⟨by decide +kernel, [.commit 3 commitNext], ⟨_, rfl⟩, by decide +kernel, ?_⟩
  exact ⟨⟨1, [3], 0⟩, by decide +kernel, by decide, by decide +kernel⟩

/-! ## The consistency check -/

/-- The assertions of the loop of `_checkConsistency`, from the newest version to the oldest. -/
def checkDatas (m : MasterCM S) : ℕ → List InstanceData → Prop
  | _, [] => True
  | version, d :: datas =>
      d.version ≠ versionNone ∧ d.version = version ∧
        (datas ≠ [] → m.commitCount ≤ (d.commitCount + m.nVersions) % 2 ^ 32) ∧
        checkDatas m (version - 1) datas

instance decidableCheckDatas (m : MasterCM S) :
    (version : ℕ) → (datas : List InstanceData) → Decidable (m.checkDatas version datas)
  | _, [] => isTrue trivial
  | version, _ :: datas =>
      have := decidableCheckDatas m (version - 1) datas
      inferInstanceAs (Decidable (_ ∧ _ ∧ (_ → _) ∧ _))

def checkConsistency (m : MasterCM S) : Prop :=
  m.instanceDatas ≠ [] ∧
    (m.version ≠ versionNone → m.checkDatas m.version m.instanceDatas.reverse)

instance (m : MasterCM S) : Decidable m.checkConsistency :=
  inferInstanceAs (Decidable (_ ∧ (_ → _)))

theorem checkDatas_iff (m : MasterCM S) {data : ℕ → InstanceData} {a b : ℕ}
    (hversion : ∀ v, (data v).version = v) (ha : versionFirst ≤ a) (hab : a ≤ b) :
    m.checkDatas b (interval data a b).reverse ↔
      ∀ v, a < v → v ≤ b → m.commitCount ≤ ((data v).commitCount + m.nVersions) % 2 ^ 32 := by
  obtain ⟨n, rfl⟩ := Nat.exists_eq_add_of_le hab
  clear hab
  have hpos (v : ℕ) (hv : a ≤ v) : (data v).version ≠ versionNone := by
    rw [hversion]
    exact (Nat.lt_of_lt_of_le Nat.zero_lt_one (ha.trans hv)).ne'
  induction n with
  | zero =>
      rw [Nat.add_zero, interval_self]
      refine ⟨fun _ v hlt hle => absurd hlt (not_lt.2 hle), fun _ => ?_⟩
      exact ⟨hpos a le_rfl, hversion a, fun h => absurd rfl h, trivial⟩
  | succ n ih =>
      have hne : (interval data a (a + n)).reverse ≠ [] := by
        rw [Ne, List.reverse_eq_nil_iff, interval_eq_nil_iff]
        omega
      rw [← Nat.add_assoc, interval_snoc (by omega), List.reverse_append, List.reverse_singleton,
        List.singleton_append, checkDatas, Nat.add_sub_cancel]
      constructor
      · rintro ⟨-, -, hnewest, hrest⟩ v hlt hle
        rcases hle.eq_or_lt with rfl | hle
        · exact hnewest hne
        · exact ih.1 hrest v hlt (by omega)
      · intro hall
        refine ⟨hpos _ (by omega), hversion _, fun _ => hall _ (by omega) le_rfl, ih.2 ?_⟩
        exact fun v hlt hle => hall v hlt (by omega)

/-- The numbers of the calls are of 32 bits, and the commit count does not wrap. -/
def Fits (m : MasterCM S) : Call S → Prop
  | .commit _ incarnation => incarnation < 2 ^ 32 ∧
      (incarnation = commitNext → m.commitCount + 1 < 2 ^ 32)
  | .setAutoObsolete count => count < 2 ^ 32
  | _ => True

instance decidableFits (m : MasterCM S) : (c : Call S) → Decidable (m.Fits c)
  | .commit _ _ => inferInstanceAs (Decidable (_ ∧ (_ → _)))
  | .setAutoObsolete count => inferInstanceAs (Decidable (count < 2 ^ 32))
  | .addSlave _ => isTrue trivial
  | .removeSlave _ _ => isTrue trivial
  | .removeSlaves _ => isTrue trivial
  | .cmdMaxVersion _ _ _ => isTrue trivial

theorem counters_call (cls : ObjectClass S) {c : Call S} (hc : m.Ordered c) (hfits : m.Fits c)
    (h : m.commitCount < 2 ^ 32 ∧ m.nVersions < 2 ^ 32) :
    (m.call cls c).commitCount < 2 ^ 32 ∧ (m.call cls c).nVersions < 2 ^ 32 := by
  cases c with
  | commit state incarnation =>
      obtain ⟨m₁, -, hcount, hlimit, heq⟩ := commit_obsolete cls state hc
      change (m.commitObject cls state incarnation).commitCount < _ ∧
        (m.commitObject cls state incarnation).nVersions < _
      rw [heq]
      change m₁.commitCount < _ ∧ m₁.nVersions < _
      rw [hcount, hlimit]
      refine ⟨?_, h.2⟩
      split_ifs with hnext
      · exact hfits.2 hnext
      · exact hfits.1
  | setAutoObsolete count => exact ⟨h.1, hfits⟩
  | addSlave command => exact h
  | removeSlave node instanceID =>
      simp only [call, removeSlave]
      split_ifs <;> exact h
  | removeSlaves node =>
      simp only [call, removeSlaves]
      split_ifs <;> exact h
  | cmdMaxVersion node instanceID version =>
      simp only [call, cmdMaxVersion]
      split_ifs <;> exact h

theorem counters_after {s : S} {instanceID : ℕ} {calls : List (Call S)}
    (hcalls : Calls cls s instanceID (fun m c => m.Ordered c ∧ m.Fits c) calls) :
    (after cls s instanceID calls).commitCount < 2 ^ 32 ∧
      (after cls s instanceID calls).nVersions < 2 ^ 32 := by
  induction calls using List.reverseRecOn with
  | nil =>
      change 1 < 2 ^ 32 ∧ 0 < 2 ^ 32
      decide
  | append_singleton calls c ih =>
      obtain ⟨hcalls, hc⟩ := calls_snoc.1 hcalls
      rw [after_snoc]
      exact counters_call cls hc.1 hc.2 (ih hcalls)

/-- While the commit count does not wrap, the assertions hold if and only if one version is kept, or
the sum of the number of versions to keep and the commit of the newest one does not overflow. -/
theorem checkConsistency_iff {s : S} {instanceID : ℕ} {calls : List (Call S)}
    (hcalls : Calls cls s instanceID (fun m c => m.Ordered c ∧ m.Fits c) calls) :
    let m := after cls s instanceID calls
    m.checkConsistency ↔
      m.instanceDatas.length = 1 ∨
        ∀ d ∈ m.instanceDatas.getLast?, d.commitCount + m.nVersions < 2 ^ 32 := by
  intro m
  obtain ⟨hcount, hlimit⟩ := counters_after hcalls
  have hsettled : m.Settled := settled_after (hcalls.mono (fun _ _ h => h.1))
  obtain ⟨oldest, data, hretains⟩ := hsettled.counted.retains
  have hlast := hretains.last
  have hmem (v : ℕ) (hle : oldest ≤ v) (hv : v ≤ m.version) : data v ∈ m.instanceDatas := by
    rw [hretains.datas, mem_interval]
    exact ⟨v, hle, hv, rfl⟩
  have hascending {v w : ℕ} (hv : oldest ≤ v) (hvw : v < w) (hw : w ≤ m.version) :
      (data v).commitCount ≤ (data w).commitCount := by
    have hsorted := hsettled.counted.ascending
    rw [hretains.datas] at hsorted
    exact rel_of_pairwise_interval hsorted hv hvw hw
  have hcheck : m.checkConsistency ↔ ∀ v, oldest < v → v ≤ m.version →
      m.commitCount ≤ ((data v).commitCount + m.nVersions) % 2 ^ 32 := by
    rw [← checkDatas_iff m hretains.version hretains.first hlast, ← hretains.datas]
    refine ⟨fun h => h.2 ?_, fun h => ⟨List.ne_nil_of_mem (hmem _ hlast le_rfl), fun _ => h⟩⟩
    exact (Nat.lt_of_lt_of_le Nat.zero_lt_one (hretains.first.trans hlast)).ne'
  rw [hcheck, hretains.datas, length_interval, getLast?_interval hlast]
  constructor
  · intro hall
    rcases hlast.eq_or_lt with heq | hlt
    · exact Or.inl (by omega)
    · refine Or.inr (fun d hd => ?_)
      obtain rfl := Option.some.inj hd
      have hnewest := hall m.version hlt le_rfl
      have hle := hsettled.counted.counts _ (hmem m.version hlast le_rfl)
      change m.commitCount < 2 ^ 32 at hcount
      change m.nVersions < 2 ^ 32 at hlimit
      omega
  · rintro (hone | hsum) v hlt hle
    · omega
    · have hfirst : m.cutoff ≤ (data oldest).commitCount := by
        refine (hsettled.cutoff _ (hmem oldest le_rfl hlast)).resolve_left ?_
        rw [hretains.version]
        omega
      have hge : m.cutoff ≤ (data v).commitCount :=
        hfirst.trans (hascending le_rfl hlt hle)
      have hlow : (data v).commitCount ≤ (data m.version).commitCount := by
        rcases hle.eq_or_lt with rfl | hlt'
        · exact le_rfl
        · exact hascending hlt.le hlt' le_rfl
      have hfits := hsum _ rfl
      rw [Nat.mod_eq_of_lt (by omega)]
      unfold cutoff at hge
      omega

/-- Two versions of a master that is to keep three. -/
theorem checkConsistency_of_three :
    (after (ObjectClass.byte .full) 3 0
      [.commit 5 commitNext, .setAutoObsolete 3, .commit 7 commitNext]).checkConsistency := by
  have hcalls : Calls (ObjectClass.byte .full) 3 0 (fun m c => m.Ordered c ∧ m.Fits c)
      [.commit 5 commitNext, .setAutoObsolete 3, .commit 7 commitNext] := by decide +kernel
  exact (checkConsistency_iff hcalls).2 (Or.inr (by decide +kernel))

/-- The master is to keep all versions. The check fails in the first commit. -/
theorem checkConsistency_overflows :
    Calls (ObjectClass.byte .full) 3 0 (fun m c => m.Ordered c ∧ m.Fits c)
        [.setAutoObsolete 0xffffffff, .commit 5 commitNext] ∧
      ¬(after (ObjectClass.byte .full) 3 0
        [.setAutoObsolete 0xffffffff, .commit 5 commitNext]).checkConsistency := by
  exact ⟨by decide +kernel, by decide +kernel⟩

end Collage.Object.MasterCM
