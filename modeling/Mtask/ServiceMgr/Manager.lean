import Mtask.Lib.Transition

/-!
# The service managers

The requests for one name at the managers of all nodes, in `service_mgr.lua`. The manager `0` is the
global one; the others forward `GLAUNCH` and `GQUERY` to it. The table `service` of a manager has
two fields for the name, with and without an `@`. Every field belongs to the manager that launches
for it, except for the field with an `@` at a manager that forwards.
-/

namespace Mtask.ServiceMgr

/-- `service[name]` and `service["@" .. name]` of a manager -/
inductive Key
  | name (m : ℕ)
  | global (m : ℕ)
  deriving DecidableEq

/-- The field of the manager that launches for a field. -/
def Key.owner : Key → Key
  | .name m => .name m
  | .global _ => .global 0

/-- The coroutine of a request: of a service that has asked this manager, or of a call of another
manager. It launches or queries. -/
inductive Requester
  | service (launch : Bool)
  | manager (m : ℕ) (launch : Bool)
  deriving DecidableEq

def Requester.launch : Requester → Bool
  | .service launch | .manager _ launch => launch

/-- A field of `service`: `nil`, a table with the coroutine that has set `launch` and those that
wait, a handle, or the text of an error. -/
inductive Entry
  | absent
  | table (runner : Option Requester) (waiters : List Requester)
  | handle (h : ℕ)
  | error (e : String)

/-- The coroutine that runs `request`. -/
def Entry.runner : Entry → Option Requester
  | .table runner _ => runner
  | .absent | .handle _ | .error _ => none

/-- The coroutines that wait for a wake-up. -/
def Entry.waiters : Entry → List Requester
  | .table _ waiters => waiters
  | .absent | .handle _ | .error _ => []

/-- What a request gets: a handle; `nil` and the text of an error, less the position that `error`
puts before it; `nil`; or `nil` and the text of a failed assertion. -/
inductive Reply
  | handle (h : ℕ)
  | error (e : String)
  | nil
  | assertion
  deriving DecidableEq

/-- What `pcall(func, ...)` gives `request`: a handle or `nil`, or an error. -/
inductive Outcome
  | handle (h : ℕ)
  | error (e : String)
  | nil

/-- The call of a manager to the global one: none, the request on its way, the request taken, or the
answer on its way back. -/
inductive CallState
  | none
  | request (launch : Bool)
  | taken
  | answer (r : Reply)

/-- The argument `func` of `waitfor` -/
inductive Func
  /-- `mtask.newservice` or `snax.rawnewservice` -/
  | newservice
  /-- `mtask.call` to the global manager, with `LAUNCH` or `QUERY` -/
  | call (m : ℕ) (launch : Bool)

/-- The managers. The last two fields are not in the source: how often the launch function was
started for a field, and the replies to services, with the field at which they had asked. -/
structure World where
  entry : Key → Entry
  call : ℕ → CallState
  starts : Key → ℕ
  replies : List (Key × Reply)

namespace World

def init : World where
  entry := fun _ => .absent
  call := fun _ => .none
  starts := fun _ => 0
  replies := []

def setEntry (w : World) (key : Key) (e : Entry) : World :=
  { w with entry := Function.update w.entry key e }

def setCall (w : World) (m : ℕ) (c : CallState) : World :=
  { w with call := Function.update w.call m c }

/-- `mtask.ret` for a request at a field -/
def reply (w : World) (key : Key) (r : Reply) : Requester → World
  | .service _ => { w with replies := w.replies ++ [(key, r)] }
  | .manager m _ => w.setCall m (.answer r)

/-- The call of `func` in `request` -/
def start (w : World) (key : Key) : Func → World
  | .newservice => { w with starts := Function.update w.starts key (w.starts key + 1) }
  | .call m launch => w.setCall m (.request launch)

/-- `waitfor`, up to where it waits or to the call of `func` -/
def waitfor (w : World) (key : Key) (who : Requester) (func : Option Func) : World :=
  match w.entry key with
  | .handle h => w.reply key (.handle h) who
  | .error e => w.reply key (.error e) who
  | .absent =>
    match func with
    | some f => (w.setEntry key (.table (some who) [])).start key f
    | none => w.setEntry key (.table none [who])
  | .table none waiters =>
    match func with
    | some f => (w.setEntry key (.table (some who) waiters)).start key f
    | none => w.setEntry key (.table none (waiters ++ [who]))
  | .table (some runner) waiters => w.setEntry key (.table (some runner) (waiters ++ [who]))

/-- The replies to a coroutine that has run `request` and to those that it has woken up. -/
def settle (w : World) (key : Key) (who : Requester) (waiters : List Requester) :
    Outcome → World
  | .handle h =>
    (who :: waiters).foldl (fun w => w.reply key (.handle h)) (w.setEntry key (.handle h))
  | .error e =>
    (who :: waiters).foldl (fun w => w.reply key (.error e)) (w.setEntry key (.error e))
  | .nil =>
    waiters.foldl (fun w => w.reply key .assertion) ((w.setEntry key .absent).reply key .nil who)

end World

/-- The first value that `mtask.call` returns for a reply -/
def Reply.first : Reply → Outcome
  | .handle h => .handle h
  | .error _ | .nil | .assertion => .nil

/-- The steps: a service asks its manager with `LAUNCH` or `QUERY`, or with `GLAUNCH` or `GQUERY`;
the launch function for a field returns or raises; the global manager takes the call of another one;
and the answer arrives there. -/
inductive Event
  | request (m : ℕ) (launch : Bool)
  | globalRequest (m : ℕ) (launch : Bool)
  | finish (key : Key) (outcome : Outcome)
  | take (m : ℕ)
  | arrive (m : ℕ)

inductive Stop
  | disabled

namespace World

/-- `cmd.LAUNCH` and `cmd.QUERY` -/
def launchOrQuery (w : World) (key : Key) (who : Requester) : World :=
  w.waitfor key who (if who.launch then some .newservice else none)

def step (w : World) : Event → Except Stop World
  | .request m launch => .ok (w.launchOrQuery (.name m) (.service launch))
  | .globalRequest m launch =>
    if m = 0 then .ok (w.launchOrQuery (.global 0) (.service launch))
    else .ok (w.waitfor (.global m) (.service launch) (some (.call m launch)))
  | .finish key outcome =>
    if key.owner = key then
      match w.entry key with
      | .table (some who) waiters => .ok (w.settle key who waiters outcome)
      | .absent | .table none _ | .handle _ | .error _ => .error .disabled
    else .error .disabled
  | .take m =>
    match w.call m with
    | .request launch =>
      .ok ((w.setCall m .taken).launchOrQuery (.global 0) (.manager m launch))
    | .none | .taken | .answer _ => .error .disabled
  | .arrive m =>
    match w.call m, w.entry (.global m) with
    | .answer r, .table (some who) waiters =>
      .ok ((w.setCall m .none).settle (.global m) who waiters r.first)
    | _, _ => .error .disabled

end World

end Mtask.ServiceMgr
