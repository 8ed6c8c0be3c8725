import Mtask.Cluster.RoundTrip
import Mtask.Lib.Transition

/-!
# Requests from other nodes

`clusterd.lua` receives the packages of the nodes that are connected to it, hands every complete
request on and writes the answer back. The packages of a connection arrive in order, except that
those of different requests may be mixed.

A Lua value that serves as a key of `register_name` is a `Key`. The functions that pack and unpack
values are parameters.
-/

namespace Mtask.Cluster

open Function (update)

/-- A value that `mtask.unpack` returns. -/
inductive Key
  | name (s : Bytes)
  | handle (n : ℕ)
  | other
  deriving DecidableEq, Repr

/-- `mtask.unpack`, where `none` is an error, and `mtask.pack`. -/
structure Packing where
  unpack : Bytes → Option Key
  pack : Key → Bytes

/-- An element of `large_request`: the address and the array of the table. -/
structure LargeRequest where
  addr : Option Address
  parts : List Data
  deriving DecidableEq, Repr

/-- A request that has been handed on, with the connection and the session of its answer. -/
structure Call where
  fd : ℕ
  session : ℕ
  addr : Option Address
  msg : Bytes
  deriving DecidableEq, Repr

/-- What a request is answered with. -/
structure Answer where
  call : Call
  ok : Bool
  reply : Bytes
  deriving DecidableEq, Repr

/-- The variables of the service. `pending` are the requests whose `mtask.rawcall` has not returned;
`served` are those that were handed on, to another service or to the table of names, and `answers`
those that were answered. `written` is what was written to the connections. -/
structure Clusterd where
  largeRequest : ℕ → Option LargeRequest
  registerName : Key → Option Key
  pending : List Call
  served : List Call
  answers : List Answer
  written : List (ℕ × Bytes)

/-- The packages of what `packresponse` returns. -/
def packagesOf : Except Fault (Bytes ⊕ List Bytes) → List Bytes
  | .ok (.inl package) => [package]
  | .ok (.inr packages) => packages
  | .error _ => []

namespace Clusterd

variable (c : Clusterd)

/-- The response is packed and written. -/
def write (fd session : ℕ) (ok : Bool) (reply : Bytes) : Clusterd :=
  { c with
    written := c.written ++ (packagesOf (packresponse session ok reply)).map fun p => (fd, p) }

/-- The end of `command.socket`. -/
def answer (call : Call) (ok : Bool) (reply : Bytes) : Clusterd :=
  let c := c.write call.fd call.session ok reply
  { c with answers := c.answers ++ [⟨call, ok, reply⟩] }

/-- The request is handed on; a name is looked up at once, which may raise an error. -/
def serve (lib : Packing) (call : Call) : Clusterd :=
  let c := { c with served := c.served ++ [call] }
  if call.addr = some (.number 0) then
    match lib.unpack call.msg with
    | none => c
    | some name =>
      match c.registerName name with
      | some addr => c.answer call true (lib.pack addr)
      | none => c.answer call false "name not found".toUTF8.toList
  else { c with pending := c.pending ++ [call] }

/-- `command.socket(source, "data", fd, msg)`, up to the call of `mtask.rawcall`. An error of
`unpackrequest` ends the coroutine; one of `concat` ends the process. -/
def socketData (lib : Packing) (fd : ℕ) (package : Bytes) : Except Fault Clusterd :=
  match unpackrequest package with
  | .error _ => .ok c
  | .ok ⟨addr, session, msg, padding⟩ =>
    if padding then
      let req := (c.largeRequest session).getD ⟨addr, []⟩
      .ok { c with
        largeRequest := update c.largeRequest session
          (some { req with parts := req.parts ++ [msg] }) }
    else
      match c.largeRequest session, msg with
      | some req, msg =>
        let c := { c with largeRequest := update c.largeRequest session none }
        match concat (req.parts ++ [msg]) with
        | .error e => .error e
        | .ok (some msg) => .ok (c.serve lib ⟨fd, session, req.addr, msg⟩)
        | .ok none => .ok (c.write fd session false "Invalid large req".toUTF8.toList)
      | none, .bytes msg => .ok (c.serve lib ⟨fd, session, addr, msg⟩)
      -- a package with a size has padding
      | none, .size _ => .ok c

/-- The other branches of `command.socket`, but for `"open"`. -/
def socketEnd : Clusterd :=
  { c with largeRequest := fun _ => none }

/-- `command.register` -/
def register (name : Bytes) (addr : ℕ) : Clusterd :=
  if c.registerName (.name name) ≠ none then c
  else
    let table := match c.registerName (.handle addr) with
      | some oldName => update c.registerName oldName none
      | none => c.registerName
    { c with
      registerName := update (update table (.handle addr) (some (.name name)))
        (.name name) (some (.handle addr)) }

end Clusterd

/-- A request on its way: the packages that have arrived, and the others. -/
structure Sending where
  fd : ℕ
  addr : Address
  session : ℕ
  msg : Bytes
  arrived : List Bytes
  rest : List Bytes
  deriving DecidableEq, Repr

/-- The request as it should be handed on. -/
def Sending.call (r : Sending) : Call :=
  ⟨r.fd, r.session, some r.addr, r.msg⟩

/-- The service and the requests on their way to it; `completed` are those whose last package has
arrived, in the order in which it did. -/
structure World where
  clusterd : Clusterd
  isOpen : ℕ → Bool
  requests : ℕ → Option Sending
  nextRequest : ℕ
  completed : List Call

/-- What happens at the service. -/
inductive Event
  | opened (fd : ℕ)
  | request (fd : ℕ) (addr : Address) (session : ℕ) (msg : Bytes)
  | package (request : ℕ)
  /-- the subcommands `"close"` and `"error"` -/
  | closed (fd : ℕ)
  /-- the subcommand `"warning"`: much is waiting to be written to the connection -/
  | warning (fd : ℕ)
  /-- the `mtask.rawcall` of a pending request returns, or raises an error -/
  | returned (i : ℕ) (ok : Bool) (reply : Bytes)
  | register (name : Bytes) (addr : ℕ)

inductive WorldFault
  | notEnabled
  | codec (fault : Fault)

namespace World

/-- The service before the first connection. -/
def init : World where
  clusterd :=
    { largeRequest := fun _ => none
      registerName := fun _ => none
      pending := []
      served := []
      answers := []
      written := [] }
  isOpen := fun _ => false
  requests := fun _ => none
  nextRequest := 0
  completed := []

variable (w : World)

/-- A request is packed, for a connection. -/
def send (fd : ℕ) (addr : Address) (session : ℕ) (msg : Bytes) : Except WorldFault World :=
  match packrequest addr session msg with
  | .error e => .error (.codec e)
  | .ok p => .ok { w with
      requests := update w.requests w.nextRequest
        (some ⟨fd, addr, session, msg, [], p.packages.map strip⟩)
      nextRequest := w.nextRequest + 1 }

/-- The request after the next one of its packages has arrived. -/
def advance (k : ℕ) (r : Sending) (package : Bytes) (rest : List Bytes) : World :=
  if rest = [] then
    { w with
      requests := update w.requests k none
      completed := w.completed ++ [r.call] }
  else
    { w with
      requests := update w.requests k
        (some { r with arrived := r.arrived ++ [package], rest }) }

/-- The next package of a request arrives. -/
def deliver (lib : Packing) (k : ℕ) : Except WorldFault World :=
  match w.requests k with
  | none => .error .notEnabled
  | some r =>
    match r.rest with
    | [] => .error .notEnabled
    | package :: rest =>
      match w.clusterd.socketData lib r.fd package with
      | .error e => .error (.codec e)
      | .ok clusterd => .ok ({ w with clusterd }.advance k r package rest)

/-- The end of a connection; what has not arrived is lost. -/
def close (fd : ℕ) : World :=
  { w with
    clusterd := w.clusterd.socketEnd
    isOpen := update w.isOpen fd false
    requests := fun k => (w.requests k).filter fun r => r.fd ≠ fd }

/-- A call returns, and the request is answered. -/
def returned (i : ℕ) (ok : Bool) (reply : Bytes) : Except WorldFault World :=
  match w.clusterd.pending[i]? with
  | none => .error .notEnabled
  | some call =>
    let clusterd := { w.clusterd with pending := w.clusterd.pending.eraseIdx i }
    .ok { w with clusterd := clusterd.answer call ok reply }

/-- One event. A node sends what the functions that pack a request take: a valid address, a session
and a message whose size is an `int`. -/
def step (lib : Packing) (w : World) : Event → Except WorldFault World
  | .opened fd =>
    if w.isOpen fd then .error .notEnabled
    else .ok { w with isOpen := update w.isOpen fd true }
  | .request fd addr session msg =>
    if w.isOpen fd ∧ addr.Valid ∧ 0 < session ∧ session < 2 ^ 31 ∧ msg.length < 2 ^ 31 then
      w.send fd addr session msg
    else .error .notEnabled
  | .package k => w.deliver lib k
  | .closed fd => if w.isOpen fd then .ok (w.close fd) else .error .notEnabled
  | .warning fd =>
    if w.isOpen fd then .ok { w with clusterd := w.clusterd.socketEnd } else .error .notEnabled
  | .returned i ok reply => w.returned i ok reply
  | .register name addr => .ok { w with clusterd := w.clusterd.register name addr }

end World

end Mtask.Cluster
