import Mtask.Lib.NestedMap
import Mtask.Lib.Transition

/-!
# The datacenter

The service `datacenterd.lua`: a database of nested tables, and a second tree with the response
closures of the `WAIT` requests. A request is handled without a yield and so is one step; a request
that raises an error changes nothing.
-/

namespace Mtask.Datacenter

open NestedMap

/-- The Lua values that are no tables and not `nil`; a number or a light userdata is an `other`. -/
inductive Scalar (ν : Type)
  | boolean (b : Bool)
  | string (s : String)
  | other (n : ν)
  deriving DecidableEq

/-- A value that is not `nil`. -/
abbrev Datum (ν : Type) := Nested (Scalar ν) (Scalar ν)

/-- The fields of a table, of which those that are not there are `nil`. -/
abbrev Table (ν : Type) := Children (Scalar ν) (Scalar ν)

inductive Fault
  | index
  /-- `nil` is no key for an assignment -/
  | nilKey
  /-- a function is no value for `mtask.pack` -/
  | function
  /-- an assertion of `waitfor` -/
  | wrongMode
  deriving DecidableEq

variable {ν : Type}

/-- Every value but `nil` and `false` -/
def truthy : Option (Datum ν) → Bool
  | none | some (.leaf (.boolean false)) => false
  | some _ => true

/-- The functions of the library `string`, which a string has as fields. -/
def stringFunctions : List String :=
  ["byte", "char", "dump", "find", "format", "gmatch", "gsub", "len", "lower", "match", "pack",
    "packsize", "rep", "reverse", "sub", "unpack", "upper"]

/-- `db[key]` -/
def index : Datum ν → Scalar ν → Except Fault (Option (Datum ν))
  | .node db, key => .ok (db key)
  | .leaf (.string _), .string key =>
    if key ∈ stringFunctions then .error .function else .ok none
  | .leaf (.string _), _ => .ok none
  | .leaf _, _ => .error .index

/-- `query(db, key, ...)` -/
def query : Datum ν → List (Scalar ν) → Except Fault (Option (Datum ν))
  | db, [] => .ok (some db)
  | db, key :: path => do
    match ← index db key with
    | some db => query db path
    | none => if path = [] then .ok none else .error .index

/-- `command.QUERY` -/
def commandQuery (database : Table ν) : List (Scalar ν) → Except Fault (Option (Datum ν))
  | [] => .ok none
  | key :: path =>
    match database key with
    | some d => if truthy (some d) then query d path else .ok none
    | none => .ok none

variable [DecidableEq ν]

/-- `update(db, key, value, ...)`: the old value, and the table after the assignment. A table that
is made for a key that was not there takes every path, so an error comes before all changes. -/
def update : Table ν → List (Scalar ν) → Option (Datum ν) →
    Except Fault (Option (Datum ν) × Table ν)
  | _, [], _ => .error .nilKey
  | db, [key], value => .ok (db key, Function.update db key value)
  | db, key :: key' :: path, value =>
    match db key with
    | none => do
      let (ret, sub) ← update empty (key' :: path) value
      return (ret, Function.update db key (some (.node sub)))
    | some (.node sub) => do
      let (ret, sub) ← update sub (key' :: path) value
      return (ret, Function.update db key (some (.node sub)))
    | some (.leaf _) => .error .index

/-- The two kinds of tables in `wait_queue`. A response closure is the number of its `WAIT`. -/
inductive Waits (ν : Type)
  | queue (responses : List ℕ)
  | branch (children : Scalar ν → Option (Waits ν))

/-- The fields of a branch, and of `wait_queue`. -/
abbrev Branch (ν : Type) := Scalar ν → Option (Waits ν)

/-- What `wakeup` does: the tree after it, the closures called with `false`, and the queue that it
returns. -/
structure Woken (ν : Type) where
  waits : Branch ν
  failed : List ℕ
  found : List ℕ

/-- `db[key1]` for any argument of `wakeup`: a table is no key of the tree. -/
def field (db : Branch ν) : Datum ν → Option (Waits ν)
  | .leaf key => db key
  | .node _ => none

/-- An assignment to `db[key1]` -/
def setField (db : Branch ν) (key : Datum ν) (q : Option (Waits ν)) : Branch ν :=
  match key with
  | .leaf key => Function.update db key q
  | .node _ => db

/-- `wakeup(db, key1, ...)`; the arguments are the keys and the value. -/
def wakeup (db : Branch ν) : List (Datum ν) → Woken ν
  | [] => ⟨db, [], []⟩
  | key1 :: args =>
    match field db key1 with
    | none => ⟨db, [], []⟩
    | some (.queue q) =>
      if args.length ≠ 1 then ⟨setField db key1 none, q, []⟩ else ⟨setField db key1 none, [], q⟩
    | some (.branch children) =>
      let woken := wakeup children args
      { woken with waits := setField db key1 (some (.branch woken.waits)) }

/-- `waitfor(db, key1, key2, ...)` with the closure of `mtask.response()`. A branch that is made for
a key that was not there takes every path. -/
def waitfor : Branch ν → List (Scalar ν) → ℕ → Except Fault (Branch ν)
  | _, [], _ => .error .nilKey
  | db, [key], response =>
    match db key with
    | none => .ok (Function.update db key (some (.queue [response])))
    | some (.queue q) => .ok (Function.update db key (some (.queue (q ++ [response]))))
    | some (.branch _) => .error .wrongMode
  | db, key :: key' :: path, response =>
    match db key with
    | none => do
      let q ← waitfor (fun _ => none) (key' :: path) response
      return Function.update db key (some (.branch q))
    | some (.branch q) => do
      let q ← waitfor q (key' :: path) response
      return Function.update db key (some (.branch q))
    | some (.queue _) => .error .wrongMode

/-- The service. Next to its two tables: the answers to waiters during the last request, where
`none` is `response(false)`; the path of every `WAIT`; and the updates so far. -/
structure World (ν : Type) where
  database : Table ν
  waitQueue : Branch ν
  answers : List (ℕ × Option (Datum ν))
  asked : List (List (Scalar ν))
  updates : List (List (Scalar ν) × Option (Datum ν))

inductive Request (ν : Type)
  | update (path : List (Scalar ν)) (value : Option (Datum ν))
  | query (path : List (Scalar ν))
  | wait (path : List (Scalar ν))

def World.init : World ν where
  database := empty
  waitQueue := fun _ => none
  answers := []
  asked := []
  updates := []

/-- `command.UPDATE` after the call of `update` -/
def World.notify (w : World ν) (path : List (Scalar ν)) (ret value : Option (Datum ν)) : World ν :=
  match truthy ret, value with
  | false, some value =>
    let woken := wakeup w.waitQueue (path.map .leaf ++ [value])
    { w with
      waitQueue := woken.waits
      answers := woken.failed.map (·, none) ++ woken.found.map (·, some value) }
  | _, _ => w

/-- `command.UPDATE` -/
def World.update (w : World ν) (path : List (Scalar ν)) (value : Option (Datum ν)) :
    Except Fault (World ν) := do
  let (ret, database) ← Datacenter.update w.database path value
  return { w with
    database
    answers := []
    updates := w.updates ++ [(path, value)] }.notify path ret value

/-- The handler of `WAIT` -/
def World.wait (w : World ν) (path : List (Scalar ν)) : Except Fault (World ν) := do
  let ret ← commandQuery w.database path
  let w' := { w with asked := w.asked ++ [path] }
  if truthy ret then return { w' with answers := [(w.asked.length, ret)] }
  else
    let waitQueue ← waitfor w.waitQueue path w.asked.length
    return { w' with waitQueue, answers := [] }

def step (w : World ν) : Request ν → Except Fault (World ν)
  | .update path value => w.update path value
  | .query path => do
    let _ ← commandQuery w.database path
    return { w with answers := [] }
  | .wait path => w.wait path

end Mtask.Datacenter
