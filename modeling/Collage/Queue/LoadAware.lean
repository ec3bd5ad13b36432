import Mathlib.Data.List.AList
import Mathlib.Data.List.GetD
import Mathlib.Data.Int.Order.Basic
import Mathlib.Algebra.Ring.Nat
import Mathlib.Algebra.Ring.Int.Defs

/-!
# Load-aware distribution

Each slave of a queue has a left and a right queue, and reports the draw time of the last item of
each. Before the distributor sends an item to a queue, `adjustMapping` of `loadAwareDistributor.cpp`
looks at this queue and at the facing queue of the neighbouring slave on that side. The nodes are
numbered by their IDs, a queue is `true` if it is the right one, and the index of a node is an
`int`.
-/

namespace Collage.LoadAware

/-- The vector of the draw times of a slave has one entry per queue. -/
structure SlaveInfo where
  drawTimes : Bool → ℤ

/-- What the constructor of `SlaveInfo` sets. -/
def SlaveInfo.new : SlaveInfo := ⟨fun _ => 0⟩

abbrev SlaveInfos : Type := AList (fun _ : ℕ => SlaveInfo)

def getSlaveInfo (infos : SlaveInfos) (nodeID : ℕ) : SlaveInfo × SlaveInfos :=
  match infos.lookup nodeID with
  | none => (SlaveInfo.new, infos.insert nodeID SlaveInfo.new)
  | some info => (info, infos)

/-- The variables of the loop of `adjustMapping`. -/
structure Adjust where
  infos : SlaveInfos
  nodeIndex : ℕ
  nodeQueue : Bool
  minTime : ℤ
  firstRun : Bool

/-- The nodes are counted in 64 bits, where a step to the left adds the largest number. -/
def Adjust.index (s : Adjust) (nodes : List ℕ) (right : Bool) (i : ℕ) : ℕ :=
  (s.nodeIndex + i + if right then 0 else 2 ^ 64 - 1) % 2 ^ 64 % nodes.length

/-- One run of the loop of `adjustMapping`. -/
def Adjust.visit (nodes : List ℕ) (right : Bool) (s : Adjust) (i : ℕ) : Adjust :=
  let index := s.index nodes right i
  let (slaveInfo, infos) := getSlaveInfo s.infos (nodes.getD index 0)
  let queue := if index = s.nodeIndex then right else !right
  let drawTime := slaveInfo.drawTimes queue
  if drawTime < s.minTime then
    if s.firstRun then
      { s with infos := infos, minTime := drawTime % 2 ^ 32, firstRun := false }
    else
      { infos := infos, nodeIndex := index, nodeQueue := queue, minTime := drawTime % 2 ^ 32,
        firstRun := false }
  else { s with infos := infos }

def adjustMapping (nodes : List ℕ) (infos : SlaveInfos) (nodeIndex : ℕ) (right : Bool) :
    (ℕ × Bool) × SlaveInfos :=
  let s := [0, 1].foldl (Adjust.visit nodes right) ⟨infos, nodeIndex, right, 2 ^ 32 - 1, true⟩
  ((s.nodeIndex, s.nodeQueue), s.infos)

/-- The draw time of a queue, which is zero as long as the slave is not known. -/
def SlaveInfos.drawTime (infos : SlaveInfos) (nodeID : ℕ) (queue : Bool) : ℤ :=
  ((infos.lookup nodeID).getD SlaveInfo.new).drawTimes queue

def neighbour (n nodeIndex : ℕ) (right : Bool) : ℕ :=
  if right then (nodeIndex + 1) % n else (nodeIndex + n - 1) % n

/-- The given queue, or the facing one of the neighbour if its draw time is smaller. -/
def closer (nodes : List ℕ) (infos : SlaveInfos) (nodeIndex : ℕ) (right : Bool) : ℕ × Bool :=
  let facing := neighbour nodes.length nodeIndex right
  if infos.drawTime (nodes.getD facing 0) (!right) < infos.drawTime (nodes.getD nodeIndex 0) right
    then (facing, !right) else (nodeIndex, right)

section

variable {nodes : List ℕ} {infos : SlaveInfos} {nodeIndex : ℕ} {right : Bool}

theorem closer_of_lt
    (h : infos.drawTime (nodes.getD (neighbour nodes.length nodeIndex right) 0) (!right) <
      infos.drawTime (nodes.getD nodeIndex 0) right) :
    closer nodes infos nodeIndex right = (neighbour nodes.length nodeIndex right, !right) :=
  if_pos h

theorem closer_of_not_lt
    (h : ¬ infos.drawTime (nodes.getD (neighbour nodes.length nodeIndex right) 0) (!right) <
      infos.drawTime (nodes.getD nodeIndex 0) right) :
    closer nodes infos nodeIndex right = (nodeIndex, right) :=
  if_neg h

theorem neighbour_lt (h : nodeIndex < nodes.length) :
    neighbour nodes.length nodeIndex right < nodes.length := by
  unfold neighbour
  split_ifs <;> exact Nat.mod_lt _ (by omega)

theorem getSlaveInfo_fst (infos : SlaveInfos) (nodeID : ℕ) (queue : Bool) :
    (getSlaveInfo infos nodeID).1.drawTimes queue = infos.drawTime nodeID queue := by
  unfold getSlaveInfo SlaveInfos.drawTime
  cases infos.lookup nodeID <;> rfl

theorem drawTime_getSlaveInfo (infos : SlaveInfos) (nodeID : ℕ) :
    (getSlaveInfo infos nodeID).2.drawTime = infos.drawTime := by
  funext nodeID' queue
  unfold getSlaveInfo SlaveInfos.drawTime
  cases hlookup : infos.lookup nodeID with
  | none =>
      by_cases he : nodeID' = nodeID
      · rw [he, AList.lookup_insert, hlookup]
        rfl
      · rw [AList.lookup_insert_ne he]
  | some info => rfl

theorem Adjust.visit_first (s : Adjust) (hfirst : s.firstRun = true) (i : ℕ) {time : ℤ}
    (htime : s.infos.drawTime (nodes.getD (s.index nodes right i) 0)
      (if s.index nodes right i = s.nodeIndex then right else !right) = time)
    (hless : time < s.minTime) (hlo : 0 ≤ time) (hhi : time < 2 ^ 32) :
    ∃ infos, infos.drawTime = s.infos.drawTime ∧
      s.visit nodes right i = ⟨infos, s.nodeIndex, s.nodeQueue, time, false⟩ := by
  refine ⟨(getSlaveInfo s.infos (nodes.getD (s.index nodes right i) 0)).2,
    drawTime_getSlaveInfo _ _, ?_⟩
  rw [← getSlaveInfo_fst] at htime
  simp only [Adjust.visit, htime, hfirst, if_true]
  rw [if_pos hless, Int.emod_eq_of_lt hlo hhi]

theorem Adjust.visit_next (s : Adjust) (hfirst : s.firstRun = false) (i : ℕ) :
    ((s.visit nodes right i).nodeIndex, (s.visit nodes right i).nodeQueue) =
      if s.infos.drawTime (nodes.getD (s.index nodes right i) 0)
        (if s.index nodes right i = s.nodeIndex then right else !right) < s.minTime
      then (s.index nodes right i, if s.index nodes right i = s.nodeIndex then right else !right)
      else (s.nodeIndex, s.nodeQueue) := by
  rw [← getSlaveInfo_fst]
  simp only [Adjust.visit, hfirst, Bool.false_eq_true, if_false]
  split_ifs <;> rfl

section Index

variable (hindex : nodeIndex < nodes.length) (hnodes : nodes.length ≤ 2 ^ 31)

include hindex hnodes

theorem Adjust.index_right (s : Adjust) (hs : s.nodeIndex = nodeIndex) {i : ℕ} (hi : i ≤ 1) :
    s.index nodes true i = (nodeIndex + i) % nodes.length := by
  rw [Adjust.index, hs, if_pos rfl, Nat.add_zero, Nat.mod_eq_of_lt (by omega : _ < 2 ^ 64)]

theorem Adjust.index_left (s : Adjust) (hs : s.nodeIndex = nodeIndex) :
    s.index nodes false 1 = nodeIndex := by
  rw [Adjust.index, hs, if_neg Bool.false_ne_true,
    show nodeIndex + 1 + (2 ^ 64 - 1) = nodeIndex + 2 ^ 64 by omega, Nat.add_mod_right,
    Nat.mod_eq_of_lt (by omega : _ < 2 ^ 64), Nat.mod_eq_of_lt hindex]

/-- The loop chooses between the two queues only on the right side and among several nodes. -/
theorem adjustMapping_fst
    (htimes : ∀ nodeID ∈ nodes, ∀ queue,
      0 ≤ infos.drawTime nodeID queue ∧ infos.drawTime nodeID queue < 2 ^ 32 - 1) :
    (adjustMapping nodes infos nodeIndex right).1 =
      if right = true ∧ 2 ≤ nodes.length then closer nodes infos nodeIndex right
      else (nodeIndex, right) := by
  let s : Adjust := ⟨infos, nodeIndex, right, 2 ^ 32 - 1, true⟩
  have hlt : s.index nodes right 0 < nodes.length := Nat.mod_lt _ (by omega)
  have hmem : nodes.getD (s.index nodes right 0) 0 ∈ nodes := by
    rw [List.getD_eq_getElem _ _ hlt]
    exact List.getElem_mem _
  obtain ⟨hlo, hhi⟩ := htimes _ hmem (if s.index nodes right 0 = nodeIndex then right else !right)
  obtain ⟨infos', hinfos, hvisit⟩ := s.visit_first rfl 0 rfl hhi hlo (lt_trans hhi (by decide))
  change (((s.visit nodes right 0).visit nodes right 1).nodeIndex,
    ((s.visit nodes right 0).visit nodes right 1).nodeQueue) = _
  rw [Adjust.visit_next _ (by rw [hvisit]), hvisit]
  simp only [hinfos]
  cases right with
  | false =>
      rw [Adjust.index_left hindex hnodes _ rfl, if_pos (show nodeIndex = s.nodeIndex from rfl)]
      simp [s]
  | true =>
      rw [Adjust.index_right hindex hnodes _ rfl le_rfl,
        Adjust.index_right hindex hnodes s rfl (Nat.zero_le 1),
        show (nodeIndex + 0) % nodes.length = nodeIndex from Nat.mod_eq_of_lt hindex]
      by_cases htwo : 2 ≤ nodes.length
      · have hne : (nodeIndex + 1) % nodes.length ≠ nodeIndex := by
          rcases Nat.lt_or_ge (nodeIndex + 1) nodes.length with h | h
          · rw [Nat.mod_eq_of_lt h]
            omega
          · rw [show nodeIndex + 1 = nodes.length by omega, Nat.mod_self]
            omega
        rw [if_pos (show true = true ∧ 2 ≤ nodes.length from ⟨rfl, htwo⟩)]
        simp [closer, neighbour, hne, s]
      · have hzero : nodeIndex = 0 := by omega
        have hone : nodes.length = 1 := by omega
        simp [hzero, hone, s]

/-- `adjustMapping` returns the closer of the two queues on the right side of several nodes, and
elsewhere only if it is the given one; the index stays in the list. -/
theorem adjustMapping_closer_iff
    (htimes : ∀ nodeID ∈ nodes, ∀ queue,
      0 ≤ infos.drawTime nodeID queue ∧ infos.drawTime nodeID queue < 2 ^ 32 - 1) :
    ((adjustMapping nodes infos nodeIndex right).1 = closer nodes infos nodeIndex right ↔
      (right = true ∧ 2 ≤ nodes.length) ∨
        ¬ infos.drawTime (nodes.getD (neighbour nodes.length nodeIndex right) 0) (!right) <
          infos.drawTime (nodes.getD nodeIndex 0) right) ∧
    (adjustMapping nodes infos nodeIndex right).1.1 < nodes.length := by
  rw [adjustMapping_fst hindex hnodes htimes]
  by_cases hless : infos.drawTime (nodes.getD (neighbour nodes.length nodeIndex right) 0) (!right) <
      infos.drawTime (nodes.getD nodeIndex 0) right
  · rw [closer_of_lt hless]
    by_cases hright : right = true ∧ 2 ≤ nodes.length
    · rw [if_pos hright]
      exact ⟨iff_of_true rfl (Or.inl hright), neighbour_lt hindex⟩
    · rw [if_neg hright]
      refine ⟨iff_of_false (fun he => ?_) (not_or.2 ⟨hright, not_not_intro hless⟩), hindex⟩
      have hqueue : right = !right := congrArg Prod.snd he
      cases right <;> cases hqueue
  · rw [closer_of_not_lt hless, ite_self]
    exact ⟨iff_of_true rfl (Or.inr hless), hindex⟩

end Index

/-- The right queue of the third of three nodes, whose right neighbour is the first one. -/
theorem adjustMapping_closer_right :
    (adjustMapping [4, 5, 6] ((∅ : SlaveInfos).insert 6 ⟨fun _ => 7⟩) 2 true).1 =
      closer [4, 5, 6] ((∅ : SlaveInfos).insert 6 ⟨fun _ => 7⟩) 2 true :=
  (adjustMapping_closer_iff (by decide) (by decide) (by decide +kernel)).1.2
    (Or.inl ⟨rfl, by decide⟩)

/-- The left queue of the second of two nodes; the right queue of the first one is faster. -/
theorem adjustMapping_stays_left :
    let infos := (∅ : SlaveInfos).insert 5 ⟨fun _ => 7⟩
    (adjustMapping [4, 5] infos 1 false).1 = (1, false) ∧
      closer [4, 5] infos 1 false = (0, true) := by
  decide +kernel

end

end Collage.LoadAware
