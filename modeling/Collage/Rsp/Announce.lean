import Collage.Lib.Run
import Collage.Rsp.Join

/-!
# Agreeing on identifiers

Any number of nodes join the group at the same time. Each draws an identifier, announces it, and
confirms it when nobody has denied it. Every datagram may reach every other node at any later time.
Beside the connections a state carries a history that no handler reads: which announcement a
datagram answers, and whose datagram made a node known.
-/

namespace Collage.Rsp

def Datagram.announces : Datagram → Option U16
  | .node .hello connectionID _ => some connectionID
  | _ => none

/-- The steps of a node that only joins and writes nothing. -/
inductive Tick
  | timeout (expired : Bool)
  | outgoing (expired : Bool)
  deriving DecidableEq, Repr

def Tick.event : Tick → Event
  | .timeout expired => .timeout expired
  | .outgoing expired => .outgoing expired

/-- What a datagram answers: who has announced which identifier, and whom the answering node knew
under it. -/
structure Answer where
  announcer : ℕ
  id : U16
  known : Option ℕ
  deriving DecidableEq, Repr

structure Lobby where
  nodes : ℕ → Connection
  /-- The nodes that have opened their socket. -/
  up : ℕ → Bool
  /-- By node, for each of its datagrams the announcement it answers. -/
  answers : ℕ → List (Option Answer)
  /-- By node and identifier, whose datagram made the node add that child. -/
  source : ℕ → U16 → Option ℕ

inductive LobbyEvent
  | boot (n : ℕ)
  | tick (n : ℕ) (t : Tick)
  | deliver (m k n : ℕ) (newID : U16)
  deriving DecidableEq

namespace Lobby

def start (cfg : Config) (ids : ℕ → U16) : Lobby where
  nodes := fun n => Connection.opening cfg (ids n)
  up := fun _ => false
  answers := fun _ => []
  source := fun _ _ => none

/-- Replace the node `n`; its new datagrams answer `answered`, its new children are owed to `m`. -/
def advance (s : Lobby) (n m : ℕ) (answered : Option Answer) (c : Connection) : Lobby where
  nodes := Function.update s.nodes n c
  up := s.up
  answers := Function.update s.answers n
    (s.answers n ++ List.replicate (c.sent.length - (s.nodes n).sent.length) answered)
  source := Function.update s.source n (fun id =>
    if (s.nodes n).findConnection id = none ∧ c.findConnection id ≠ none then some m
    else s.source n id)

/-- The node that `n` knows under an identifier. -/
def owner (s : Lobby) (n : ℕ) (id : U16) : Option ℕ :=
  if id = (s.nodes n).id then some n else s.source n id

def step (cfg : Config) (s : Lobby) : LobbyEvent → Option Lobby
  | .boot n => if s.up n then none else
      some { s.advance n n none ((s.nodes n).sendSimpleDatagram .hello (s.nodes n).id) with
        up := Function.update s.up n true }
  | .tick n t => if s.up n then ((s.nodes n).step cfg t.event).map (s.advance n n none) else none
  | .deliver m k n newID => if s.up n ∧ m ≠ n then
      ((s.nodes m).sent[k]?).bind (fun d =>
        ((s.nodes n).step cfg (.packet newID d)).map
          (s.advance n m (d.announces.map (fun id => ⟨m, id, s.owner n id⟩))))
    else none

/-- No node keeps a child for an identifier that its owner has abandoned. -/
def NoAbandoned (s : Lobby) : Prop :=
  ∀ n id, (s.nodes n).findConnection id ≠ none →
    ∃ m, s.source n id = some m ∧ (s.nodes m).id = id

/-- An announcer whose identifier is confirmed by a node that the member `m` knew when it answered
adopts a new identifier when the denial of `m` is delivered. -/
def DenialsWork (cfg : Config) (s : Lobby) : Prop :=
  ∀ m k n b newID id data s', (s.nodes m).sent[k]? = some (.node .deny id data) →
    (s.answers m)[k]? = some (some ⟨n, (s.nodes n).id, some b⟩) →
    (s.nodes n).idAccepted = false → (s.nodes b).id = (s.nodes n).id →
    (s.nodes b).idAccepted = true → s.step cfg (.deliver m k n newID) = some s' →
    (s'.nodes n).id = newID

/-- An announcement is never judged by a node that knows the identifier as that of a third one: its
denial carries its own identifier. -/
def JudgedByOwner (s : Lobby) : LobbyEvent → Prop
  | .deliver m k n _ => ∀ d ∈ (s.nodes m).sent[k]?, ∀ id ∈ d.announces,
      (s.nodes n).findConnection id ≠ none → id = (s.nodes n).id ∨ s.source n id = some m
  | .boot _ | .tick _ _ => True

/-- A node that is denied has not given its identifier away in a reply. -/
def DeniedInTime (s : Lobby) : LobbyEvent → Prop
  | .deliver m k n _ => ∀ d ∈ (s.nodes m).sent[k]?, (s.nodes n).Denied d →
      ∀ x ∈ (s.nodes n).sent, x.isReply = true → x.speaker ≠ (s.nodes n).id
  | .boot _ | .tick _ _ => True

def Orderly (s : Lobby) (e : LobbyEvent) : Prop := s.JudgedByOwner e ∧ s.DeniedInTime e

instance (c : Connection) : (d : Datagram) → Decidable (c.Denied d)
  | .node type connectionID _ => inferInstanceAs (Decidable
      (type = .deny ∧ connectionID = c.id ∧ c.listening = false ∧ c.idAccepted = false))
  | .data _ | .ackReq _ _ | .nack _ _ _ | .ack _ _ _ => isFalse not_false

instance (s : Lobby) : (e : LobbyEvent) → Decidable (s.JudgedByOwner e)
  | .deliver m k n _ =>
      have (d : Datagram) : Decidable (∀ id ∈ d.announces, (s.nodes n).findConnection id ≠ none →
          id = (s.nodes n).id ∨ s.source n id = some m) :=
        Option.decidableForallMem _
      inferInstanceAs (Decidable (∀ d ∈ (s.nodes m).sent[k]?, ∀ id ∈ d.announces,
        (s.nodes n).findConnection id ≠ none → id = (s.nodes n).id ∨ s.source n id = some m))
  | .boot _ | .tick _ _ => isTrue trivial

instance (s : Lobby) : (e : LobbyEvent) → Decidable (s.DeniedInTime e)
  | .deliver m k n _ => inferInstanceAs (Decidable (∀ d ∈ (s.nodes m).sent[k]?,
      (s.nodes n).Denied d → ∀ x ∈ (s.nodes n).sent, x.isReply = true → x.speaker ≠ (s.nodes n).id))
  | .boot _ | .tick _ _ => isTrue trivial

instance (s : Lobby) (e : LobbyEvent) : Decidable (s.Orderly e) :=
  inferInstanceAs (Decidable (_ ∧ _))

end Lobby
end Collage.Rsp
