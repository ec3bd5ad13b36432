import Mathlib.Data.List.Induction
import Mathlib.Data.List.Nodup
import Collage.Lib.Keyed

/-!
# Connections of a set of nodes

The master reaches a node over a connection of its own and, if the node is in a multicast group,
over the connection of the group, which all nodes of the group receive. `gatherConnections` of
`connections.h` takes the connection of a group if at least two of the nodes are in it.
-/

namespace Collage.Object

inductive Connection
  | unicast (node : ℕ)
  | multicast (group : ℕ)
  deriving DecidableEq, Repr

namespace Connection

def isMulticast : Connection → Bool
  | .unicast _ => false
  | .multicast _ => true

/-- What is sent over a connection arrives at a node. -/
def reaches (groups : ℕ → Option ℕ) (n : ℕ) : Connection → Bool
  | .unicast node => node = n
  | .multicast group => groups n = some group

end Connection

def getConnection (groups : ℕ → Option ℕ) (node : ℕ) (multicast : Bool) : Connection :=
  if multicast then
    match groups node with
    | none => .unicast node
    | some group => .multicast group
  else .unicast node

/-- The loop of `gatherConnections`: the connections, the first node of each group that has only
one, and the groups that have more. -/
structure Gather where
  result : List Connection
  mcNodes : List (ℕ × ℕ)
  mcSet : List ℕ

def Gather.add (groups : ℕ → Option ℕ) (s : Gather) (node : ℕ) : Gather :=
  match getConnection groups node true with
  | .unicast n => { s with result := s.result ++ [.unicast n] }
  | .multicast group =>
      if group ∈ s.mcSet then s
      else match Keyed.lookup Prod.fst group s.mcNodes with
        | none => { s with mcNodes := s.mcNodes ++ [(group, node)] }
        | some _ =>
            { result := s.result ++ [.multicast group]
              mcNodes := s.mcNodes.filter (fun p => p.1 ≠ group)
              mcSet := group :: s.mcSet }

def gatherConnections (groups : ℕ → Option ℕ) (nodes : List ℕ) : List Connection :=
  let s := nodes.foldl (Gather.add groups) ⟨[], [], []⟩
  s.result ++ s.mcNodes.map (fun p => .unicast p.2)

theorem reaches_getConnection (groups : ℕ → Option ℕ) (node : ℕ) (multicast : Bool) :
    (getConnection groups node multicast).reaches groups node = true := by
  unfold getConnection
  split_ifs
  · split
    · simp [Connection.reaches]
    · next h => simpa [Connection.reaches] using h
  · simp [Connection.reaches]

section Gather

variable (groups : ℕ → Option ℕ)

def members (nodes : List ℕ) (group : ℕ) : List ℕ :=
  nodes.filter (fun n => groups n = some group)

/-- What the loop has gathered from the nodes so far. -/
structure Gathered (nodes : List ℕ) (s : Gather) : Prop where
  unicast : ∀ n, Connection.unicast n ∈ s.result ↔ n ∈ nodes ∧ groups n = none
  multicast : ∀ g, Connection.multicast g ∈ s.result ↔ g ∈ s.mcSet
  shared : ∀ g, g ∈ s.mcSet ↔ 2 ≤ (members groups nodes g).length
  single : ∀ g n, (g, n) ∈ s.mcNodes ↔ members groups nodes g = [n]
  nodup : s.result.Nodup
  keys : (s.mcNodes.map Prod.fst).Nodup

variable {groups} {nodes : List ℕ} {s : Gather}

theorem members_append (nodes : List ℕ) (node g : ℕ) :
    members groups (nodes ++ [node]) g =
      members groups nodes g ++ if groups node = some g then [node] else [] := by
  rw [members, List.filter_append, List.filter_singleton, members]
  by_cases h : groups node = some g <;> simp [h]

theorem Gathered.append_unicast (h : Gathered groups nodes s) {node : ℕ} (hnew : node ∉ nodes)
    (hgroup : groups node = none) :
    Gathered groups (nodes ++ [node]) { s with result := s.result ++ [.unicast node] } := by
  have hmembers : ∀ g, members groups (nodes ++ [node]) g = members groups nodes g := by
    intro g
    rw [members_append, if_neg (by simp [hgroup]), List.append_nil]
  refine ⟨fun n => ?_, fun g => ?_, fun g => ?_, fun g n => ?_, ?_, h.keys⟩
  · rw [List.mem_append, List.mem_append, h.unicast, List.mem_singleton, List.mem_singleton,
      Connection.unicast.injEq]
    constructor
    · rintro (⟨hn, hnone⟩ | rfl)
      · exact ⟨Or.inl hn, hnone⟩
      · exact ⟨Or.inr rfl, hgroup⟩
    · rintro ⟨hn | hn, hnone⟩
      · exact Or.inl ⟨hn, hnone⟩
      · exact Or.inr hn
  · rw [List.mem_append, h.multicast]
    simp
  · rw [hmembers, h.shared]
  · rw [hmembers, h.single]
  · refine List.nodup_append.2 ⟨h.nodup, List.nodup_singleton _, fun c hc c' hc' he => ?_⟩
    rw [he, List.mem_singleton.1 hc'] at hc
    exact hnew ((h.unicast node).1 hc).1

theorem mem_ungrouped {node : ℕ} {g : ℕ} (hgroup : groups node = some g) (n : ℕ) :
    n ∈ nodes ++ [node] ∧ groups n = none ↔ n ∈ nodes ∧ groups n = none := by
  rw [List.mem_append, List.mem_singleton]
  constructor
  · rintro ⟨hn | rfl, hnone⟩
    · exact ⟨hn, hnone⟩
    · rw [hgroup] at hnone
      cases hnone
  · rintro ⟨hn, hnone⟩
    exact ⟨Or.inl hn, hnone⟩

theorem members_append_ne {node g g' : ℕ} (hgroup : groups node = some g) (hne : g' ≠ g) :
    members groups (nodes ++ [node]) g' = members groups nodes g' := by
  rw [members_append, if_neg (by rw [hgroup, Option.some.injEq]; exact hne.symm), List.append_nil]

theorem members_append_self {node g : ℕ} (hgroup : groups node = some g) :
    members groups (nodes ++ [node]) g = members groups nodes g ++ [node] := by
  rw [members_append, if_pos hgroup]

theorem Gathered.append_shared (h : Gathered groups nodes s) {node g : ℕ}
    (hgroup : groups node = some g) (hset : g ∈ s.mcSet) : Gathered groups (nodes ++ [node]) s := by
  have htwo := (h.shared g).1 hset
  refine ⟨fun n => ?_, h.multicast, fun g' => ?_, fun g' n => ?_, h.nodup, h.keys⟩
  · rw [h.unicast, mem_ungrouped hgroup]
  · rcases eq_or_ne g' g with rfl | hne
    · rw [members_append_self hgroup, List.length_append]
      simp only [hset, List.length_singleton, true_iff]
      omega
    · rw [members_append_ne hgroup hne, h.shared]
  · rcases eq_or_ne g' g with rfl | hne
    · rw [h.single, members_append_self hgroup]
      constructor
      · intro heq
        rw [heq, List.length_singleton] at htwo
        omega
      · intro heq
        have hlength := congrArg List.length heq
        rw [List.length_append, List.length_singleton, List.length_singleton] at hlength
        omega
    · rw [members_append_ne hgroup hne, h.single]

theorem Gathered.append_first (h : Gathered groups nodes s) {node g : ℕ}
    (hgroup : groups node = some g) (hset : g ∉ s.mcSet) (hfirst : g ∉ s.mcNodes.map Prod.fst) :
    Gathered groups (nodes ++ [node]) { s with mcNodes := s.mcNodes ++ [(g, node)] } := by
  have hnil : members groups nodes g = [] := by
    match hmembers : members groups nodes g with
    | [] => rfl
    | [n] => exact absurd (List.mem_map_of_mem ((h.single g n).2 hmembers)) hfirst
    | _ :: _ :: _ => exact absurd ((h.shared g).2 (by simp [hmembers])) hset
  refine ⟨fun n => ?_, h.multicast, fun g' => ?_, fun g' n => ?_, h.nodup, ?_⟩
  · rw [h.unicast, mem_ungrouped hgroup]
  · rcases eq_or_ne g' g with rfl | hne
    · rw [members_append_self hgroup, hnil]
      simp [hset]
    · rw [members_append_ne hgroup hne, h.shared]
  · rw [List.mem_append, List.mem_singleton, h.single, Prod.mk.injEq]
    rcases eq_or_ne g' g with rfl | hne
    · rw [members_append_self hgroup, hnil]
      simp [eq_comm]
    · rw [members_append_ne hgroup hne]
      simp [hne]
  · rw [List.map_append, List.map_singleton]
    refine List.nodup_append.2 ⟨h.keys, List.nodup_singleton _, fun g' hg' g'' hg'' he => ?_⟩
    rw [he, List.mem_singleton.1 hg''] at hg'
    exact hfirst hg'

theorem Gathered.append_second (h : Gathered groups nodes s) {node g n₀ : ℕ}
    (hgroup : groups node = some g) (hset : g ∉ s.mcSet) (hfirst : (g, n₀) ∈ s.mcNodes) :
    Gathered groups (nodes ++ [node])
      { result := s.result ++ [.multicast g]
        mcNodes := s.mcNodes.filter (fun p => p.1 ≠ g)
        mcSet := g :: s.mcSet } := by
  have hone := (h.single g n₀).1 hfirst
  refine ⟨fun n => ?_, fun g' => ?_, fun g' => ?_, fun g' n => ?_, ?_, ?_⟩
  · rw [List.mem_append, h.unicast, mem_ungrouped hgroup]
    simp
  · rw [List.mem_append, h.multicast, List.mem_singleton, Connection.multicast.injEq,
      List.mem_cons, or_comm]
  · rw [List.mem_cons]
    rcases eq_or_ne g' g with rfl | hne
    · rw [members_append_self hgroup, hone]
      simp
    · rw [members_append_ne hgroup hne, h.shared]
      simp [hne]
  · rw [List.mem_filter, h.single]
    rcases eq_or_ne g' g with rfl | hne
    · rw [members_append_self hgroup, hone]
      simp
    · rw [members_append_ne hgroup hne]
      simp [hne]
  · refine List.nodup_append.2 ⟨h.nodup, List.nodup_singleton _, fun c hc c' hc' he => ?_⟩
    rw [he, List.mem_singleton.1 hc'] at hc
    exact hset ((h.multicast g).1 hc)
  · exact h.keys.sublist (List.filter_sublist.map _)

theorem Gathered.add (h : Gathered groups nodes s) {node : ℕ} (hnew : node ∉ nodes) :
    Gathered groups (nodes ++ [node]) (s.add groups node) := by
  unfold Gather.add getConnection
  cases hgroup : groups node with
  | none => exact h.append_unicast hnew hgroup
  | some g =>
      simp only [if_true]
      split_ifs with hset
      · exact h.append_shared hgroup hset
      · cases hfirst : Keyed.lookup Prod.fst g s.mcNodes with
        | none => exact h.append_first hgroup hset (Keyed.lookup_eq_none_iff.1 hfirst)
        | some p =>
            have hkey : p.1 = g := Keyed.key_of_lookup hfirst
            refine h.append_second hgroup hset (?_ : (g, p.2) ∈ s.mcNodes)
            rw [← hkey]
            exact Keyed.mem_of_lookup hfirst

theorem gathered_foldl (hnodes : nodes.Nodup) :
    Gathered groups nodes (nodes.foldl (Gather.add groups) ⟨[], [], []⟩) := by
  induction nodes using List.reverseRecOn with
  | nil =>
      refine ⟨?_, ?_, ?_, ?_, List.nodup_nil, List.nodup_nil⟩ <;> simp [members]
  | append_singleton nodes node ih =>
      rw [List.foldl_append, List.foldl_cons, List.foldl_nil]
      obtain ⟨hnodup, -, hdisjoint⟩ := List.nodup_append.1 hnodes
      refine (ih hnodup).add (fun hmem => ?_)
      exact hdisjoint node hmem node (List.mem_singleton_self node) rfl

theorem Gathered.group_of_single (h : Gathered groups nodes s) {g n : ℕ}
    (hp : (g, n) ∈ s.mcNodes) : n ∈ nodes ∧ groups n = some g := by
  have hmem : n ∈ members groups nodes g := by
    rw [(h.single g n).1 hp]
    exact List.mem_singleton_self _
  exact ⟨(List.mem_filter.1 hmem).1, by simpa using (List.mem_filter.1 hmem).2⟩

theorem Gathered.nodup_connections (h : Gathered groups nodes s) :
    (s.result ++ s.mcNodes.map (fun p => Connection.unicast p.2)).Nodup := by
  refine List.nodup_append.2 ⟨h.nodup, ?_, fun c hc c' hc' he => ?_⟩
  · refine List.Nodup.map_on (fun p hp q hq he => ?_) h.keys.of_map
    have hnode : p.2 = q.2 := Connection.unicast.inj he
    have hgroup := (h.group_of_single hp).2
    rw [hnode, (h.group_of_single hq).2] at hgroup
    exact Prod.ext (Option.some.inj hgroup).symm hnode
  · obtain ⟨p, hp, rfl⟩ := List.mem_map.1 hc'
    rw [he] at hc
    have hgroup := (h.group_of_single hp).2
    rw [((h.unicast p.2).1 hc).2] at hgroup
    cases hgroup

theorem mem_members {n g : ℕ} :
    n ∈ members groups nodes g ↔ n ∈ nodes ∧ groups n = some g := by
  rw [members, List.mem_filter, decide_eq_true_iff]

/-- A node of which no other node of its group is listed is the only one of its group. -/
theorem members_eq_singleton {n g : ℕ} (hn : n ∈ nodes)
    (hgroup : groups n = some g) (hlength : (members groups nodes g).length < 2) :
    members groups nodes g = [n] := by
  have hmem : n ∈ members groups nodes g := mem_members.2 ⟨hn, hgroup⟩
  have hone : (members groups nodes g).length = 1 := by
    have hpos := List.length_pos_of_mem hmem
    omega
  obtain ⟨m, hm⟩ := List.length_eq_one_iff.1 hone
  rw [hm, List.mem_singleton] at hmem
  rw [hm, hmem]

theorem Gathered.multicast_mem (h : Gathered groups nodes s) (g : ℕ) :
    Connection.multicast g ∈ s.result ++ s.mcNodes.map (fun p => Connection.unicast p.2) ↔
      2 ≤ (members groups nodes g).length := by
  rw [List.mem_append, h.multicast, h.shared, or_iff_left]
  intro hmem
  obtain ⟨p, -, hp⟩ := List.mem_map.1 hmem
  cases hp

theorem Gathered.unicast_mem (h : Gathered groups nodes s) (n : ℕ) :
    Connection.unicast n ∈ s.result ++ s.mcNodes.map (fun p => Connection.unicast p.2) ↔
      n ∈ nodes ∧ ∀ g, groups n = some g → (members groups nodes g).length < 2 := by
  rw [List.mem_append, h.unicast, List.mem_map]
  constructor
  · rintro (⟨hn, hnone⟩ | ⟨⟨g, m⟩, hp, hm⟩)
    · refine ⟨hn, fun g hg => ?_⟩
      rw [hnone] at hg
      cases hg
    · obtain rfl : m = n := Connection.unicast.inj hm
      obtain ⟨hn, hgroup⟩ := h.group_of_single hp
      refine ⟨hn, fun g' hg' => ?_⟩
      obtain rfl : g = g' := Option.some.inj (hgroup.symm.trans hg')
      rw [(h.single g m).1 hp, List.length_singleton]
      omega
  · rintro ⟨hn, hfew⟩
    cases hgroup : groups n with
    | none => exact Or.inl ⟨hn, rfl⟩
    | some g =>
        have hsingle := members_eq_singleton hn hgroup (hfew g hgroup)
        exact Or.inr ⟨(g, n), (h.single g n).2 hsingle, rfl⟩

theorem Gathered.mem_connections (h : Gathered groups nodes s) {n : ℕ} (hn : n ∈ nodes) :
    ∃ c₀, ∀ c, (c ∈ s.result ++ s.mcNodes.map (fun p => Connection.unicast p.2) ∧
      c.reaches groups n = true) ↔ c = c₀ := by
  by_cases hshared : ∃ g, groups n = some g ∧ 2 ≤ (members groups nodes g).length
  · obtain ⟨g, hgroup, htwo⟩ := hshared
    refine ⟨.multicast g, fun c => ?_⟩
    constructor
    · rintro ⟨hc, hreaches⟩
      cases c with
      | multicast g' =>
          rw [show g' = g by simpa [Connection.reaches, hgroup, eq_comm] using hreaches]
      | unicast m =>
          obtain rfl : m = n := by simpa [Connection.reaches] using hreaches
          have hfew := ((h.unicast_mem m).1 hc).2 g hgroup
          omega
    · rintro rfl
      exact ⟨(h.multicast_mem g).2 htwo, by simp [Connection.reaches, hgroup]⟩
  · refine ⟨.unicast n, fun c => ?_⟩
    constructor
    · rintro ⟨hc, hreaches⟩
      cases c with
      | unicast m => rw [show m = n by simpa [Connection.reaches] using hreaches]
      | multicast g =>
          have hgroup : groups n = some g := by simpa [Connection.reaches] using hreaches
          exact absurd ⟨g, hgroup, (h.multicast_mem g).1 hc⟩ hshared
    · rintro rfl
      refine ⟨(h.unicast_mem n).2 ⟨hn, fun g hgroup => ?_⟩, by simp [Connection.reaches]⟩
      by_contra htwo
      exact hshared ⟨g, hgroup, Nat.le_of_not_lt htwo⟩

end Gather

/-- Each node is reached over exactly one of the connections. -/
theorem reaches_gatherConnections (groups : ℕ → Option ℕ) {nodes : List ℕ} (hnodes : nodes.Nodup)
    {n : ℕ} (hn : n ∈ nodes) :
    ∃ c, (gatherConnections groups nodes).filter (Connection.reaches groups n) = [c] := by
  have h : Gathered groups nodes _ := gathered_foldl hnodes
  obtain ⟨c, hc⟩ := h.mem_connections hn
  refine ⟨c, List.perm_singleton.1 ?_⟩
  refine (List.perm_ext_iff_of_nodup (h.nodup_connections.filter _) (List.nodup_singleton c)).2
    (fun c' => ?_)
  rw [List.mem_filter, List.mem_singleton]
  exact hc c'

/-- Whatever order the hash table of the single nodes has, the groups with at least two of the
nodes are taken once each, with the own connections of all other nodes, and each node is reached
over exactly one of them. -/
theorem gatherConnections_once (groups : ℕ → Option ℕ) {nodes : List ℕ} (hnodes : nodes.Nodup)
    {connections : List Connection} (horder : connections.Perm (gatherConnections groups nodes)) :
    connections.Nodup ∧
      (∀ g, Connection.multicast g ∈ connections ↔ 2 ≤ (members groups nodes g).length) ∧
      (∀ n, Connection.unicast n ∈ connections ↔
        n ∈ nodes ∧ ∀ g, groups n = some g → (members groups nodes g).length < 2) ∧
      ∀ n ∈ nodes, connections.countP (Connection.reaches groups n) = 1 := by
  have h : Gathered groups nodes _ := gathered_foldl hnodes
  refine ⟨horder.nodup_iff.2 h.nodup_connections, fun g => ?_, fun n => ?_, fun n hn => ?_⟩
  · rw [horder.mem_iff]
    exact h.multicast_mem g
  · rw [horder.mem_iff]
    exact h.unicast_mem n
  · obtain ⟨c, hc⟩ := reaches_gatherConnections groups hnodes hn
    rw [horder.countP_eq, List.countP_eq_length_filter, hc, List.length_singleton]

/-- Two groups interleaved with a node of none; the second group has only one of the nodes. -/
theorem gatherConnections_once_interleaved :
    [Connection.multicast 0, .unicast 3, .unicast 2].countP
      (Connection.reaches (fun n => if n = 3 then none else some (n / 2)) 2) = 1 :=
  (gatherConnections_once (fun n => if n = 3 then none else some (n / 2))
    (by decide : [0, 2, 3, 1].Nodup) (by decide)).2.2.2 2 (by decide)

theorem mem_of_reaches {groups : ℕ → Option ℕ} (hgroups : ∀ n, groups n = none) {nodes : List ℕ}
    (hnodes : nodes.Nodup) {n : ℕ} {c : Connection} (hc : c ∈ gatherConnections groups nodes)
    (hreaches : c.reaches groups n = true) : n ∈ nodes ∧ c = .unicast n := by
  have h : Gathered groups nodes _ := gathered_foldl hnodes
  cases c with
  | multicast g => simp [Connection.reaches, hgroups] at hreaches
  | unicast m =>
      obtain rfl : m = n := by simpa [Connection.reaches] using hreaches
      exact ⟨((h.unicast_mem m).1 hc).1, rfl⟩

end Collage.Object
