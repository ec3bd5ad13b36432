import Collage.Object.Commit
import Collage.Object.Log

/-!
# Slaves that are fed

A slave that is sent its map data and every later commit, in this order, has received the versions
from the one it maps to the head. Seen from the master this holds of each slave once all messages on
the way have arrived; what a slave has received so far is always a first part of it.
-/

namespace Collage.Object

variable {S : Type}

/-- A slave has received the versions from `first` to `last`, after an empty one if it was mapped to
no version. Unless it may be mapped `late`, to no version or to one behind the head, it was mapped to
the first of them, with instance data. -/
structure Attached.Fed (cls : ObjectClass S) (late : Prop) (m : MasterCM S) (a : Attached)
    (first last : ℕ) (blank : Bool) : Prop where
  pos : versionFirst ≤ first
  first_le : first ≤ last + 1
  last_le : last ≤ m.version
  versions : a.received.map VersionData.version =
    (if blank then [versionNone] else []) ++ interval id first last
  right : ∀ is ∈ a.received, is.version ≠ versionNone → is.Right cls m.history
  unversioned : blank = true → late
  reply : ∀ r ∈ a.reply,
    (blank = false ∧ r = first ∧ first ≤ last ∧
      ∀ is ∈ a.received.head?, is.hasInstanceData = true) ∨
    (blank = true ∧ r = versionNone) ∨ (blank = false ∧ late ∧ first ≤ r)

structure MasterCM.Grown (m m' : MasterCM S) : Prop where
  version : m.version ≤ m'.version
  history : ∀ v ≤ m.version, m'.history v = m.history v

theorem MasterCM.Grown.of_eq {m m' : MasterCM S} (hversion : m'.version = m.version)
    (hhistory : m'.history = m.history) : m.Grown m' :=
  ⟨hversion.ge, fun v _ => by rw [hhistory]⟩

namespace Attached.Fed

variable {cls : ObjectClass S} {late : Prop} {m m' : MasterCM S} {a : Attached} {first last : ℕ}
  {blank : Bool}

theorem version_le (h : a.Fed cls late m first last blank) {is : VersionData}
    (his : is ∈ a.received) : is.version ≤ last := by
  have hmem := List.mem_map_of_mem his (f := VersionData.version)
  rw [h.versions] at hmem
  rcases List.mem_append.1 hmem with hmem | hmem
  · split_ifs at hmem
    · rw [List.mem_singleton.1 hmem]
      exact Nat.zero_le _
    · cases hmem
  · obtain ⟨v, -, hv, heq⟩ := mem_interval.1 hmem
    rw [heq]
    exact hv

theorem of_grown (h : a.Fed cls late m first last blank) (hm : m.Grown m') :
    a.Fed cls late m' first last blank := by
  refine ⟨h.pos, h.first_le, h.last_le.trans hm.version, h.versions, fun is his hne => ?_,
    h.unversioned, h.reply⟩
  refine (h.right is his hne).congr (fun v hv => hm.history v ?_)
  exact hv.trans ((h.version_le his).trans h.last_le)

theorem push_version (h : a.Fed cls late m first m.version blank) (hm : m.Grown m')
    (hnext : m'.version = m.version + 1) {is : VersionData} (hversion : is.version = m.version + 1)
    (hright : is.Right cls m'.history) :
    (a.push is).Fed cls late m' first m'.version blank := by
  have h' := h.of_grown hm
  rw [hnext]
  refine ⟨h.pos, h.first_le.trans (Nat.le_succ _), hnext.ge, ?_, fun is' his' hne => ?_,
    h.unversioned,
    fun r hr => ?_⟩
  · change (a.received ++ [is]).map VersionData.version = _
    rw [List.map_append, h.versions, List.map_singleton, hversion, interval_snoc h.first_le,
      List.append_assoc, id_eq]
  · rcases List.mem_append.1 his' with his' | his'
    · exact h'.right is' his' hne
    · rw [List.mem_singleton.1 his']
      exact hright
  · rcases h.reply r hr with ⟨hblank, hfirst, hle, hhead⟩ | hnone | hlate
    · refine Or.inl ⟨hblank, hfirst, hle.trans (Nat.le_succ _), fun is' his' => hhead is' ?_⟩
      have hne : a.received ≠ [] := by
        intro hnil
        have hversions := h.versions
        rw [hnil, hblank, List.map_nil] at hversions
        exact absurd (interval_eq_nil_iff.1 hversions.symm) (not_lt.2 hle)
      change is' ∈ (a.received ++ [is]).head? at his'
      rwa [List.head?_append_of_ne_nil _ hne] at his'
    · exact Or.inr (Or.inl hnone)
    · exact Or.inr (Or.inr hlate)

theorem take_received (h : a.Fed cls late m first last blank) (k : ℕ) :
    ∃ first' last' blank',
      ({ a with received := a.received.take k, reply := none } : Attached).Fed cls late m first'
        last' blank' := by
  have hpos : 0 < first := h.pos
  have hle := h.first_le
  have hlast := h.last_le
  have hright (is : VersionData) (his : is ∈ a.received.take k) (hne : is.version ≠ versionNone) :
      is.Right cls m.history := h.right is (List.mem_of_mem_take his) hne
  have hversions : (a.received.take k).map VersionData.version =
      ((if blank then [versionNone] else []) ++ interval id first last).take k := by
    rw [List.map_take, h.versions]
  cases blank with
  | false =>
      refine ⟨first, min last (first + k - 1), false, h.pos, by omega, by omega, ?_, hright, nofun,
        nofun⟩
      rw [hversions]
      exact take_interval hpos k
  | true =>
      cases k with
      | zero =>
          refine ⟨first, first - 1, false, h.pos, by omega, by omega, ?_, hright, nofun, nofun⟩
          rw [interval_eq_nil (show first - 1 < first by omega)]
          rfl
      | succ k =>
          refine ⟨first, min last (first + k - 1), true, h.pos, by omega, by omega, ?_, hright,
            h.unversioned, nofun⟩
          rw [hversions]
          change versionNone :: (interval id first last).take k = _
          rw [take_interval hpos]
          rfl

theorem right_of_versioned (h : a.Fed cls late m first last false) {is : VersionData}
    (his : is ∈ a.received) : is.Right cls m.history := by
  refine h.right is his ?_
  have hmem := List.mem_map_of_mem his (f := VersionData.version)
  rw [h.versions] at hmem
  obtain ⟨v, hv, -, heq⟩ := mem_interval.1 hmem
  rw [heq]
  exact (Nat.lt_of_lt_of_le h.pos hv).ne'

theorem first_le_reply (h : a.Fed cls late m first last blank) {r : ℕ} (hr : a.reply = some r)
    (hne : r ≠ versionNone) : blank = false ∧ first ≤ r := by
  rcases h.reply r hr with ⟨hblank, rfl, -⟩ | ⟨-, hnone⟩ | ⟨hblank, -, hle⟩
  · exact ⟨hblank, le_rfl⟩
  · exact absurd hnone hne
  · exact ⟨hblank, hle⟩

end Attached.Fed

namespace MasterCM

variable {cls : ObjectClass S} {late : Prop} {m : MasterCM S}

/-- A request for a version that there is. -/
def Mappable (m : MasterCM S) (requested : ℕ) : Prop :=
  requested = versionOldest ∨ (versionNone < requested ∧ requested ≤ m.version)

instance (m : MasterCM S) (requested : ℕ) : Decidable (m.Mappable requested) :=
  inferInstanceAs (Decidable (_ ∨ _))

def replyVersion (m : MasterCM S) (requested : ℕ) : ℕ :=
  if requested = versionNone then versionNone else m.startVersion requested

theorem Kept.fed_mapMessages (h : m.Kept cls) {command : MasterCommand}
    (huse : command.useCache = false) (hlate : m.Mappable command.requestedVersion ∨ late) :
    ∃ (datas : List VersionData) (first : ℕ) (blank : Bool),
      (m.mapMessages command).map Sent.message =
        .mapSuccess command.node command.requestID command.instanceID ::
          datas.map (Message.mapData command.node command.instanceID) ++
          [.mapReply ⟨command.node, command.objectID, m.replyVersion command.requestedVersion,
            command.requestID, true, command.useCache, false⟩] ∧
      (Attached.mk command.instanceID datas
        (some (m.replyVersion command.requestedVersion))).Fed cls late m first m.version blank := by
  obtain ⟨oldest, counts, hretains⟩ := h.retains
  have hlast := hretains.last
  have hfirst : 0 < oldest := hretains.first
  by_cases hnone : command.requestedVersion = versionNone
  · have hlate' : late := by
      refine hlate.resolve_left (fun hm => ?_)
      rw [hnone] at hm
      rcases hm with hm | ⟨hm, -⟩
      · cases hm
      · exact absurd hm (lt_irrefl _)
    refine ⟨[⟨versionNone, true, []⟩], m.version + 1, true, ?_, ?_⟩
    · simp only [mapMessages, replyVersion, if_pos hnone]
      rfl
    · refine ⟨Nat.succ_pos _, le_rfl, le_rfl, ?_, fun is his hne => ?_, fun _ => hlate',
        fun r hr => ?_⟩
      · rw [interval_eq_nil (Nat.lt_succ_self _)]
        rfl
      · rw [List.mem_singleton.1 his] at hne
        exact absurd rfl hne
      · rw [← Option.some.inj hr, replyVersion, if_pos hnone]
        exact Or.inr (Or.inl ⟨rfl, rfl⟩)
  · have hreply : m.replyVersion command.requestedVersion = m.startVersion command.requestedVersion :=
      if_neg hnone
    have hstart : oldest ≤ m.startVersion command.requestedVersion := by
      rw [startVersion, hretains.oldest_eq]
      split_ifs with hold
      · exact le_rfl
      · push Not at hold
        exact hold.2
    refine ⟨interval (fun v => ⟨v, true, cls.getInstanceData (m.history v)⟩)
      (m.startVersion command.requestedVersion) m.version, ?_⟩
    have hmessages : (m.mapMessages command).map Sent.message =
        .mapSuccess command.node command.requestID command.instanceID ::
          (interval (fun v => (⟨v, true, cls.getInstanceData (m.history v)⟩ : VersionData))
            (m.startVersion command.requestedVersion) m.version).map
            (Message.mapData command.node command.instanceID) ++
          [.mapReply ⟨command.node, command.objectID, m.replyVersion command.requestedVersion,
            command.requestID, true, command.useCache, false⟩] := by
      have hrange : m.sendRange command false =
          (m.startVersion command.requestedVersion, m.version) := rfl
      rw [mapMessages, if_neg hnone, huse, Bool.false_and, initSlave_messages, hrange,
        hretains.dataRange_eq, max_eq_right hstart, min_self, map_interval, map_interval, hreply,
        huse]
      rfl
    by_cases hle : m.startVersion command.requestedVersion ≤ m.version
    · refine ⟨m.startVersion command.requestedVersion, false, hmessages, ?_⟩
      refine ⟨hfirst.trans_le hstart, by omega, le_rfl, ?_, fun is his _ => ?_,
        (fun hblank => by cases hblank), fun r hr => Or.inl ⟨rfl, ?_, hle, fun is his => ?_⟩⟩
      · rw [map_interval]
        rfl
      · obtain ⟨v, -, -, rfl⟩ := mem_interval.1 his
        exact (if_pos rfl).mpr rfl
      · rw [← Option.some.inj hr, hreply]
      · rw [head?_interval hle] at his
        rw [← Option.some.inj his]
    · have hlate' : late := by
        refine hlate.resolve_left (fun hm => hle ?_)
        exact (hretains.startVersion_mem (hm.imp_right And.right)).2
      refine ⟨m.version + 1, false, hmessages, ?_⟩
      refine ⟨Nat.succ_pos _, le_rfl, le_rfl, ?_, fun is his _ => ?_,
        (fun hblank => by cases hblank), fun r hr => Or.inr (Or.inr ⟨rfl, hlate', ?_⟩)⟩
      · rw [interval_eq_nil (not_le.1 hle), interval_eq_nil (Nat.lt_succ_self _)]
        rfl
      · rw [interval_eq_nil (not_le.1 hle)] at his
        cases his
      · rw [← Option.some.inj hr, hreply]
        omega

end MasterCM

end Collage.Object
