import Mathlib.Data.Int.Notation
import Mathlib.Data.Nat.Notation
import Mathlib.Logic.Function.Basic

/-!
# A channel of multicastd

One channel on any number of nodes, in `multicastd.lua`. The owner of the channel is the node that
has made it. The messages between the service of a node and that of the owner arrive in the order in
which they were sent, and those with a publication in any order.

An address of another node comes from the datacenter when it is used for the first time, so that
every message to another node may be sent later, and so may all that follow it in a loop. An address
that is known is used at once, which is one of the possible times.
-/

namespace Mtask.Multicast

structure Service where
  node : ℕ
  id : ℕ
  deriving DecidableEq, Repr

/-- The entries of the channel in `channel` and in `channel_n`. -/
structure Group where
  members : List Service
  n : ℤ
  deriving DecidableEq, Repr

inductive ToOwner
  /-- `SUBR`, with the service whose request waits for the result -/
  | subr (source : Service)
  | usubr
  | del
  deriving DecidableEq, Repr

inductive FromOwner
  /-- the result of `SUBR`, which is `true` if there is no channel -/
  | result (source : Service) (none : Bool)
  | delr
  deriving DecidableEq, Repr

/-- The service of a node, the requests that wait for the address of the owner, and the messages in
flight to the owner and from it. -/
structure Node where
  channel : Option Group
  lookup : List ToOwner
  toOwner : List ToOwner
  fromOwner : List FromOwner
  forwarded : List ℕ

/-- The publications have the order in which the owner handles them. The last two fields are not in
the source: the services with an answer to `SUB` and no later `USUB`, and what they are to get,
which are the publications since the answer, until `USUB` or the deletion of the channel. -/
structure World where
  nodes : ℕ → Node
  /-- the entry in `channel_remote` of the owner -/
  remote : Option (List ℕ)
  /-- a publication and a node to which it is to be sent in the loop of `publish` -/
  sending : List (ℕ × ℕ)
  /-- the nodes that get `DELR` in the loop of `DEL` -/
  deleting : List ℕ
  forwards : ℕ
  published : ℕ
  redirected : List (ℕ × Service)
  acked : List Service
  owed : List (ℕ × Service)

inductive Fault
  | notEnabled
  | newKey
  deriving DecidableEq, Repr

namespace World

def setNode (w : World) (m : ℕ) (node : Node) : World :=
  { w with nodes := Function.update w.nodes m node }

/-- The entries of the channel in a node that has none. -/
def create (w : World) (m : ℕ) : World :=
  match (w.nodes m).channel with
  | none => w.setNode m { w.nodes m with channel := some ⟨[], 0⟩ }
  | some _ => w

/-- The end of `SUB`, with its answer. -/
def subscribe (w : World) (source : Service) : World :=
  let w := { w with acked := source :: w.acked }
  let node := w.nodes source.node
  match node.channel with
  | some group =>
    if source ∈ group.members then w
    else w.setNode source.node
      { node with channel := some ⟨source :: group.members, group.n + 1⟩ }
  | none => w

end World

section Commands

variable (owner : ℕ) (w : World)

/-- `SUB`. A node without the channel asks the owner. -/
def sub (source : Service) : World :=
  let node := w.nodes source.node
  if source.node ≠ owner ∧ node.channel = none then
    w.setNode source.node { node with lookup := node.lookup ++ [.subr source] }
  else w.subscribe source

/-- `USUB`, where the address of the owner is known. Without the channel, an assertion fails. -/
def usub (source : Service) : World :=
  let w := { w with
    acked := w.acked.filter (· ≠ source)
    owed := w.owed.filter (·.2 ≠ source) }
  let node := w.nodes source.node
  match node.channel with
  | none => w
  | some group =>
    if source ∈ group.members then
      if group.n - 1 = 0 ∧ source.node ≠ owner then
        w.setNode source.node { node with channel := none, toOwner := node.toOwner ++ [.usubr] }
      else
        w.setNode source.node { node with
          channel := some ⟨group.members.erase source, group.n - 1⟩ }
    else w

/-- `DEL` of the owner. -/
def delete : World :=
  let w := { w with
    remote := none
    deleting := w.deleting ++ w.remote.getD []
    owed := [] }
  w.setNode owner { w.nodes owner with channel := none }

def del (m : ℕ) : World :=
  if m = owner then delete owner w
  else w.setNode m { w.nodes m with lookup := (w.nodes m).lookup ++ [.del] }

/-- `publish` of the owner, up to the loop over the nodes. -/
def publish : World :=
  match (w.nodes owner).channel with
  | none => { w with published := w.published + 1 }
  | some group => { w with
      published := w.published + 1
      redirected := w.redirected ++ group.members.map fun s => (w.published, s)
      sending := w.sending ++ (w.remote.getD []).map fun m => (w.published, m)
      owed := w.owed ++ w.acked.map fun s => (w.published, s) }

/-- `PUB` in the node `m`. -/
def pub (m : ℕ) : World :=
  if m = owner then publish owner w else { w with forwards := w.forwards + 1 }

/-- A message of the node `m` comes to the owner. `USUBR` without an entry in `channel_remote`
raises an error. -/
def request (m : ℕ) : ToOwner → Except Fault World
  | .subr source =>
    let node := w.nodes m
    match (w.nodes owner).channel with
    | none => .ok (w.setNode m { node with fromOwner := node.fromOwner ++ [.result source true] })
    | some _ =>
      let w' := w.setNode m { node with fromOwner := node.fromOwner ++ [.result source false] }
      if m ∈ w.remote.getD [] then .ok w'
      else if w.sending ≠ [] then .error .newKey
      else .ok { w' with remote := some (m :: w.remote.getD []) }
  | .usubr => .ok { w with remote := w.remote.map (·.erase m) }
  | .del => .ok (delete owner w)

/-- A message of the owner comes to the node `m`. -/
def reply (m : ℕ) : FromOwner → World
  | .result source true => { w with acked := source :: w.acked }
  | .result source false => (w.create m).subscribe source
  | .delr => w.setNode m { w.nodes m with channel := none }

/-- `publish` of another node, which has no entry in `channel_remote`. -/
def arrive (m p : ℕ) : World :=
  match (w.nodes m).channel with
  | none => w
  | some group => { w with redirected := w.redirected ++ group.members.map fun s => (p, s) }

inductive Event
  | sub (source : Service)
  | usub (source : Service)
  | del (m : ℕ)
  | pub (m : ℕ)
  /-- the node `m` gets the address for a request -/
  | lookup (m i : ℕ)
  | request (m : ℕ)
  | reply (m : ℕ)
  | multicast
  /-- the loop of `publish` sends to a node, or it passes over one that has been removed -/
  | send (p m : ℕ)
  | skip (p m : ℕ)
  /-- the loop of `DEL` sends to a node -/
  | delr (m : ℕ)
  | arrive (m p : ℕ)

def step : Event → Except Fault World
  | .sub source => .ok (sub owner w source)
  | .usub source => .ok (usub owner w source)
  | .del m => .ok (del owner w m)
  | .pub m => .ok (pub owner w m)
  | .lookup m i =>
    let node := w.nodes m
    match node.lookup[i]? with
    | some msg => .ok (w.setNode m { node with
        lookup := node.lookup.eraseIdx i
        toOwner := node.toOwner ++ [msg] })
    | none => .error .notEnabled
  | .request m =>
    let node := w.nodes m
    match node.toOwner with
    | msg :: rest => request owner (w.setNode m { node with toOwner := rest }) m msg
    | [] => .error .notEnabled
  | .reply m =>
    let node := w.nodes m
    match node.fromOwner with
    | msg :: rest => .ok (reply (w.setNode m { node with fromOwner := rest }) m msg)
    | [] => .error .notEnabled
  | .multicast =>
    if w.forwards = 0 then .error .notEnabled
    else .ok (publish owner { w with forwards := w.forwards - 1 })
  | .send p m =>
    if (p, m) ∈ w.sending then
      let node := w.nodes m
      .ok ({ w with sending := w.sending.erase (p, m) }.setNode m
        { node with forwarded := node.forwarded ++ [p] })
    else .error .notEnabled
  | .skip p m =>
    if (p, m) ∈ w.sending ∧ m ∉ w.remote.getD [] then
      .ok { w with sending := w.sending.erase (p, m) }
    else .error .notEnabled
  | .delr m =>
    if m ∈ w.deleting then
      let node := w.nodes m
      .ok ({ w with deleting := w.deleting.erase m }.setNode m
        { node with fromOwner := node.fromOwner ++ [FromOwner.delr] })
    else .error .notEnabled
  | .arrive m p =>
    let node := w.nodes m
    if p ∈ node.forwarded then
      .ok (arrive (w.setNode m { node with forwarded := node.forwarded.erase p }) m p)
    else .error .notEnabled

end Commands

/-- The channel after `NEW` of the owner. -/
def init (owner : ℕ) : World where
  nodes m := ⟨if m = owner then some ⟨[], 0⟩ else none, [], [], [], []⟩
  remote := none
  sending := []
  deleting := []
  forwards := 0
  published := 0
  redirected := []
  acked := []
  owed := []

end Mtask.Multicast
