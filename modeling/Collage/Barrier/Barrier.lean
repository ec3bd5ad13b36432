import Mathlib.Data.List.AList
import Collage.Lib.Run

/-!
# Barriers

The barrier of `barrier.cpp`. Participants on different nodes enter it; its master node counts them
and wakes them up once there are as many as its height. A participant waits until its incarnation has
the next value, or until its timeout. The calls of a participant are numbered here for each version.
-/

namespace Collage.Barrier

def timeoutIndefinite : ℕ := 0xffffffff

def timeoutDefault : ℕ := 0xfffffffe

/-- `CMD_BARRIER_ENTER`. The number of the call is not sent. -/
structure Enter (P : Type) where
  node : P
  version : ℕ
  incarnation : UInt32
  timeout : ℕ
  call : ℕ
  deriving DecidableEq

/-- The participants that entered a version, each with the number of the call. -/
structure Request (P : Type) where
  time : ℕ
  timeout : ℕ
  incarnation : UInt32
  nodes : List (P × ℕ)
  deriving DecidableEq

namespace Request

variable {P : Type}

def new : Request P := ⟨0, timeoutIndefinite, 0, []⟩

/-- The first part of `_cmdEnter`, and whether the participant is counted. -/
def count (r : Request P) (now : ℕ) (e : Enter P) : Request P × Bool :=
  let r := { r with time := now }
  if r.nodes = [] then
    ({ r with
       incarnation := e.incarnation, timeout := e.timeout, nodes := [(e.node, e.call)] }, true)
  else if r.timeout ≠ timeoutIndefinite then
    if r.incarnation < e.incarnation then (r, false)
    else if e.incarnation < r.incarnation then
      ({ r with
         incarnation := e.incarnation, timeout := e.timeout, nodes := [(e.node, e.call)] }, true)
    else ({ r with nodes := r.nodes ++ [(e.node, e.call)] }, true)
  else ({ r with nodes := r.nodes ++ [(e.node, e.call)] }, true)

/-- The test of `_cleanup`. -/
def expired (defaultTimeout now : ℕ) (r : Request P) : Bool :=
  r.timeout ≠ timeoutIndefinite &&
    decide (r.time + (if r.timeout = timeoutDefault then defaultTimeout else r.timeout) < now)

end Request

abbrev RequestMap (P : Type) := AList (fun _ : ℕ => Request P)

/-- `_cleanup`, where `stale` is the first version in the map that expired. -/
def cleanup {P : Type} (defaultTimeout now : ℕ) (stale : Option ℕ) (map : RequestMap P) :
    Option (RequestMap P) :=
  if map.keys.length < 2 then some map
  else
    match stale with
    | none =>
        if ∀ r ∈ map.entries, r.2.expired defaultTimeout now = false then some map else none
    | some version =>
        if (map.lookup version).any (Request.expired defaultTimeout now) = true then
          some (map.erase version)
        else none

structure Master (P : Type) where
  version : ℕ
  enteredNodes : RequestMap P

/-- What `_cmdEnter` ends with: nothing, the notification of the caller, or of all that entered. -/
inductive Outcome (P : Type)
  | none
  | notify
  | release (nodes : List (P × ℕ))
  deriving DecidableEq

section Enter

variable {P : Type} (height defaultTimeout now : ℕ)

def Master.cmdEnter (m : Master P) (stale : Option ℕ) (e : Enter P) :
    Option (Master P × Outcome P) :=
  let counted := ((m.enteredNodes.lookup e.version).getD Request.new).count now e
  let map := m.enteredNodes.insert e.version counted.1
  if counted.2 = false then some ({ m with enteredNodes := map }, .notify)
  else
    (if counted.1.timeout ≠ timeoutIndefinite then cleanup defaultTimeout now stale map
      else some map).map (fun map =>
        if m.version < e.version then ({ m with enteredNodes := map }, .none)
        else if e.timeout ≠ timeoutIndefinite ∧ e.version < m.version then
          ({ m with enteredNodes := map }, .notify)
        else if counted.1.nodes.length < height then ({ m with enteredNodes := map }, .none)
        else ({ m with enteredNodes := map.erase e.version }, .release counted.1.nodes))

end Enter

/-- The master node and the participants. -/
structure World (P : Type) where
  now : ℕ
  master : Master P
  /-- The versions of the instances on other nodes. -/
  version : P → ℕ
  incarnation : P → UInt32
  /-- The value of the incarnation that a participant waits for, and the timeout. -/
  waiting : P → Option (UInt32 × ℕ)
  commands : P → List (Enter P)
  replies : P → List ℕ
  /-- The number of calls of `enter` of a participant, for each version. -/
  calls : P → ℕ → ℕ
  /-- The number of calls that returned true. -/
  left : P → ℕ
  /-- The number of times that a participant was released with all others. -/
  released : P → ℕ
  rounds : ℕ

inductive Event (P : Type)
  | tick (time : ℕ)
  /-- `enter`, up to the wait. -/
  | enter (p : P) (timeout : ℕ)
  /-- The wait ends. -/
  | leave (p : P)
  /-- The wait times out. -/
  | timeout (p : P)
  /-- `_cmdEnter`. -/
  | command (p : P) (stale : Option ℕ)
  /-- `_cmdEnterReply`. -/
  | reply (p : P)
  /-- The instance on the master node gets a new version. -/
  | commit (version : ℕ)
  /-- The instance of a participant gets a new version. -/
  | sync (p : P) (version : ℕ)

namespace World

variable {P : Type} [DecidableEq P] (height defaultTimeout : ℕ) (isLocal : P → Bool) (w : World P)

/-- `getVersion`, of the instance that a participant uses. -/
def getVersion (p : P) : ℕ := if isLocal p then w.master.version else w.version p

def sendNotify (version : ℕ) (w : World P) (p : P) : World P :=
  if isLocal p then
    if version = w.master.version then
      { w with incarnation := Function.update w.incarnation p (w.incarnation p + 1) }
    else w
  else { w with replies := Function.update w.replies p (w.replies p ++ [version]) }

def release (version : ℕ) (nodes : List P) : World P :=
  let w' := nodes.foldl (sendNotify isLocal version) w
  { w' with
    released := fun p => if p ∈ nodes then w.released p + 1 else w.released p
    rounds := w.rounds + 1 }

def enter (p : P) (timeout : ℕ) : World P :=
  let version := w.getVersion isLocal p
  let call := w.calls p version + 1
  let w' := { w with
    calls := Function.update w.calls p (Function.update (w.calls p) version call) }
  if height = 1 then { w' with left := Function.update w.left p (w.left p + 1) }
  else
    { w' with
      waiting := Function.update w.waiting p (some (w.incarnation p + 1, timeout))
      commands := Function.update w.commands p
        (w.commands p ++ [⟨p, version, w.incarnation p, timeout, call⟩]) }

def step (w : World P) : Event P → Option (World P)
  | .tick time => some { w with now := w.now + time }
  | .enter p timeout => if w.waiting p = none then some (w.enter height isLocal p timeout) else none
  | .leave p =>
      if (w.waiting p).map Prod.fst = some (w.incarnation p) then
        some { w with
          waiting := Function.update w.waiting p none
          left := Function.update w.left p (w.left p + 1) }
      else none
  | .timeout p =>
      match w.waiting p with
      | none => none
      | some (_, timeout) =>
          if timeout = timeoutIndefinite then none
          else some { w with waiting := Function.update w.waiting p none }
  | .command p stale =>
      match w.commands p with
      | [] => none
      | e :: commands =>
          (w.master.cmdEnter height defaultTimeout w.now stale e).map (fun result =>
            let w' := { w with
              commands := Function.update w.commands p commands
              master := result.1 }
            match result.2 with
            | .none => w'
            | .notify => w'.sendNotify isLocal e.version p
            | .release nodes => w'.release isLocal e.version (nodes.map Prod.fst).dedup)
  | .reply p =>
      match w.replies p with
      | [] => none
      | version :: replies =>
          let w' := { w with replies := Function.update w.replies p replies }
          some (if version = w.version p then
              { w' with incarnation := Function.update w.incarnation p (w.incarnation p + 1) }
            else w')
  | .commit version => some { w with master := { w.master with version := version } }
  | .sync p version => some { w with version := Function.update w.version p version }

def init (version : ℕ) : World P where
  now := 0
  master := ⟨version, ∅⟩
  version := fun _ => version
  incarnation := fun _ => 0
  waiting := fun _ => none
  commands := fun _ => []
  replies := fun _ => []
  calls := fun _ _ => 0
  left := fun _ => 0
  released := fun _ => 0
  rounds := 0

end World

end Collage.Barrier
