import Mathlib.Logic.Function.Basic
import Mathlib.Data.Int.Notation
import Mathlib.Data.Nat.Notation

/-!
# The service of shared objects and its clients

`sharedatad.lua`, `sharedata.lua` and the boxes of `mtask_lua_sharedata.c`. The service counts the
references of every object, and the clients do so, too; only pointers are sent. The boxes and the
proxies of all clients are numbered together, and the messages in flight may arrive in any order.

What is in an object is left out here. A proxy is what holds a box, and an update of a root proxy
reaches some of the proxies below it. A pointer may be that of an object that is gone; `fault` says
that such a pointer has been followed.
-/

namespace Mtask.Sharedata.Service

/-- A string of Lua. -/
abbrev Name := List UInt8

/-- The address of an object. -/
abbrev Pointer := ℕ

/-- `struct state` of an object. -/
structure Host where
  ref : ℤ
  dirty : Bool

/-- A value of `objmap`: an entry of `pool`, or `true`. -/
inductive Mark
  | entry
  | superseded
  deriving DecidableEq

/-- A coroutine in the function `monitor`, with its root proxy and the name. -/
structure Watcher where
  root : ℕ
  name : Name
  deriving DecidableEq

/-- An entry of `pool`, without the table. -/
structure Entry where
  obj : Pointer
  watch : List Watcher

/-- An entry of `pool_count`. -/
structure PoolCount where
  n : ℤ
  threshold : ℤ

/-- What `CMD.new` gets: whether the text runs, and whether the table is converted. -/
inductive Datum
  | table (accepted : Bool)
  | text (runs accepted : Bool)
  | nil
  | unknown

/-- There is a table. -/
def Datum.hasValue : Datum → Bool
  | .table _ | .nil => true
  | .text runs _ => runs
  | .unknown => false

/-- `sharedata.host.new` makes an object of the table. -/
def Datum.accepted : Datum → Bool
  | .table accepted => accepted
  | .text _ accepted => accepted
  | .nil => true
  | .unknown => false

/-- What a client asks for. -/
inductive Request
  | query (name : Name)
  | confirm (cobj : Pointer)
  | monitor (watcher : Watcher) (obj : Pointer)
  deriving DecidableEq

/-- What a client is answered; `none` is `nil` or an error. -/
inductive Reply
  | query (name : Name) (obj : Option Pointer)
  | monitor (watcher : Watcher) (obj : Option Pointer)
  deriving DecidableEq

/-- `struct ctrl`, with the box in the table that is its user value. The garbage collection has
found a condemned box to be unreachable. -/
structure Box where
  root : Pointer
  update : Option (Pointer × ℕ)
  condemned : Bool

/-- The garbage collection comes to a box. -/
def Box.mark (garbage : List ℕ) (b : ℕ) (box : Box) : Box :=
  if b ∈ garbage then { box with condemned := true } else box

/-- A proxy with its box, its root proxy, and the name that this one is monitored for. -/
structure Proxy where
  gcobj : ℕ
  root : ℕ
  name : Name

structure World where
  host : Pointer → Option Host
  pool : Name → Option Entry
  poolCount : Name → Option PoolCount
  objmap : Pointer → Option Mark
  boxes : List (Option Box)
  proxies : List (Option Proxy)
  requests : List Request
  replies : List Reply
  fault : Bool

/-- What a function of `CMD` returns; it may be `NORET`, and it may raise. -/
inductive Ret
  | value (r : Option Pointer)
  | noret
  | raised

namespace World

def init : World where
  host := fun _ => none
  pool := fun _ => none
  poolCount := fun _ => none
  objmap := fun _ => none
  boxes := []
  proxies := []
  requests := []
  replies := []
  fault := false

/-! ### Objects -/

/-- The object is changed. -/
def access (w : World) (p : Pointer) (f : Host → Host) : World :=
  match w.host p with
  | some h => { w with host := Function.update w.host p (some (f h)) }
  | none => { w with fault := true }

def incref (w : World) (p : Pointer) : World := w.access p fun h => { h with ref := h.ref + 1 }

def decref (w : World) (p : Pointer) : World := w.access p fun h => { h with ref := h.ref - 1 }

def markdirty (w : World) (p : Pointer) : World := w.access p fun h => { h with dirty := true }

/-- The object is read. -/
def readobj (w : World) (p : Pointer) : World :=
  if (w.host p).isSome then w else { w with fault := true }

def isdirty (w : World) (p : Pointer) : Bool := (w.host p).any Host.dirty

/-! ### The service -/

/-- `newobj`, with the address of the object. -/
def newobj (w : World) (name : Name) (p : Pointer) : World :=
  { w with
    host := Function.update w.host p (some ⟨1, false⟩)
    objmap := Function.update w.objmap p (some .entry)
    pool := Function.update w.pool name (some ⟨p, []⟩)
    poolCount := Function.update w.poolCount name (some ⟨0, 16⟩) }

def cmdNew (w : World) (name : Name) (t : Datum) (p : Pointer) : World × Ret :=
  if t.hasValue then
    match w.pool name with
    | some _ => (w, .raised)
    | none => if t.accepted then (w.newobj name p, .value none) else (w, .raised)
  else (w, .raised)

/-- The object of a name is superseded, and the name has none any more. -/
def supersede (w : World) (name : Name) (obj : Pointer) : World :=
  let w := { w with
    objmap := Function.update w.objmap obj (some .superseded)
    pool := Function.update w.pool name none
    poolCount := Function.update w.poolCount name none }
  w.decref obj

/-- The responses of the coroutines that have waited. -/
def respond (w : World) (watch : List Watcher) (obj : Option Pointer) : World :=
  { w with replies := w.replies ++ watch.map (.monitor · obj) }

def cmdDelete (w : World) (name : Name) : World × Ret :=
  match w.pool name with
  | none => (w, .raised)
  | some v => ((w.supersede name v.obj).respond v.watch none, .value none)

def cmdQuery (w : World) (name : Name) : World × Ret :=
  match w.pool name with
  | none => (w, .raised)
  | some v => (w.incref v.obj, .value (some v.obj))

def cmdConfirm (w : World) (cobj : Pointer) : World × Ret :=
  match w.objmap cobj with
  | some _ => (w.decref cobj, .noret)
  | none => (w, .noret)

/-- `CMD.update`; the address of the new object is `p`. -/
def cmdUpdate (w : World) (name : Name) (t : Datum) (p : Pointer) : World × Ret :=
  match w.pool name with
  | none => w.cmdNew name t p
  | some v =>
    match (w.supersede name v.obj).cmdNew name t p with
    | (w, .raised) => (w, .raised)
    | (w, _) => ((w.markdirty v.obj).respond v.watch (some p), .value none)

/-- `check_watch`, when `test` says which of the services are there. -/
def checkWatch (queue : List Watcher) (test : Watcher → Bool) : List Watcher × ℤ :=
  (queue.filter test, (queue.filter (!test ·)).length)

def cmdMonitor (w : World) (watcher : Watcher) (obj : Pointer) (test : Watcher → Bool) :
    World × Ret :=
  match w.pool watcher.name with
  | none => (w, .raised)
  | some v =>
    if obj ≠ v.obj then (w, .value (some v.obj))
    else
      match w.poolCount watcher.name with
      | none => (w, .raised)
      | some count =>
        let (watch, removed) := if count.threshold < count.n then checkWatch v.watch test
          else (v.watch, 0)
        let threshold := if count.threshold < count.n then (count.n - removed) * 2
          else count.threshold
        ({ w with
          pool := Function.update w.pool watcher.name (some ⟨v.obj, watch ++ [watcher]⟩)
          poolCount := Function.update w.poolCount watcher.name (some ⟨count.n + 1, threshold⟩) },
          .noret)

/-- The dispatch function for a request that is answered. -/
def serve (w : World) (request : Request) (test : Watcher → Bool) : World :=
  match request with
  | .query name =>
    match w.cmdQuery name with
    | (w, .value r) => { w with replies := w.replies ++ [.query name r] }
    | (w, _) => { w with replies := w.replies ++ [.query name none] }
  | .confirm cobj => (w.cmdConfirm cobj).1
  | .monitor watcher obj =>
    match w.cmdMonitor watcher obj test with
    | (w, .value r) => { w with replies := w.replies ++ [.monitor watcher r] }
    | (w, .noret) => w
    | (w, .raised) => { w with replies := w.replies ++ [.monitor watcher none] }

/-- The loop of `collectobj`, for one object. -/
def collectobj (w : World) (p : Pointer) : World :=
  match w.objmap p, w.host p with
  | some .superseded, some h =>
    if h.ref ≤ 0 then
      { w with
        objmap := Function.update w.objmap p none
        host := Function.update w.host p none }
    else w
  | some .superseded, none => { w with fault := true }
  | _, _ => w

/-! ### The clients -/

def getBox (w : World) (b : ℕ) : Option Box := w.boxes.getD b none

def getProxy (w : World) (x : ℕ) : Option Proxy := w.proxies.getD x none

/-- `lboxconf`; the number of the box is the length of the list before. -/
def lboxconf (w : World) (p : Pointer) : World :=
  let w := w.incref p
  { w with boxes := w.boxes ++ [some ⟨p, none, false⟩] }

/-- The rest of `sharedata.query`. -/
def onQuery (w : World) (name : Name) (obj : Pointer) : World :=
  let gcobj := w.boxes.length
  let w := w.lboxconf obj
  let root := w.proxies.length
  { w with
    proxies := w.proxies ++ [some ⟨gcobj, root, name⟩]
    requests := w.requests ++ [.confirm obj, .monitor ⟨root, name⟩ obj] }

/-- `lupdate` of a box with a new object and its box. -/
def lupdate (w : World) (b : ℕ) (box : Box) (n : Pointer) (new : ℕ) : World :=
  { w with boxes := w.boxes.set b (some { box with update := some (n, new) }) }

/-- The rest of the loop of `monitor`, when the answer is an object. The assertion of `conf.update`
and the error of `lupdate` end the coroutine. -/
def onMonitor (w : World) (watcher : Watcher) (gcobj : ℕ) (box : Box) (newobj : Pointer) : World :=
  let w := w.readobj box.root
  if w.isdirty box.root then
    let new := w.boxes.length
    let w := w.lboxconf newobj
    if box.root = newobj then w
    else
      let w := w.lupdate gcobj box newobj new
      { w with requests := w.requests ++ [.monitor watcher newobj] }
  else w

/-- A reply arrives. -/
def receive (w : World) (reply : Reply) : Option World :=
  match reply with
  | .query name (some obj) => some (w.onQuery name obj)
  | .monitor watcher (some obj) => do
    let root ← w.getProxy watcher.root
    let box ← w.getBox root.gcobj
    return w.onMonitor watcher root.gcobj box obj
  | _ => some w

/-- `update` of `corelib.lua`: the root proxy and those of the proxies below it that `moved` says
get another box. -/
def moveProxies (w : World) (root : ℕ) (moved : ℕ → Bool) (gcobj : ℕ) : World :=
  { w with
    proxies := w.proxies.mapIdx fun x proxy => proxy.map fun proxy =>
      if x = root ∨ proxy.root = root ∧ moved x then { proxy with gcobj } else proxy }

/-- `getcobj` for the proxy `x` with its box. It raises when the update does not reach the proxy. -/
def getcobj (w : World) (x : ℕ) (proxy : Proxy) (box : Box) (moved : ℕ → Bool) : World × Bool :=
  let w := w.readobj box.root
  if w.isdirty box.root then
    match box.update with
    | none => (w, true)
    | some (newobj, newgcobj) =>
      ((w.readobj newobj).moveProxies proxy.root moved newgcobj, x = proxy.root ∨ moved x)
  else (w, true)

/-- An access through a proxy. It may make a new proxy below it. -/
def index (w : World) (x : ℕ) (moved : ℕ → Bool) (child : Bool) : Option World := do
  let proxy ← w.getProxy x
  let box ← w.getBox proxy.gcobj
  match w.getcobj x proxy box moved with
  | (w, false) => return w
  | (w, true) =>
    let proxy ← w.getProxy x
    let box ← w.getBox proxy.gcobj
    let w := w.readobj box.root
    if child then
      return { w with proxies := w.proxies ++ [some ⟨proxy.gcobj, proxy.root, proxy.name⟩] }
    else return w

/-- A coroutine waits for an answer to its root proxy. -/
def isMonitored (w : World) (x : ℕ) (name : Name) : Bool :=
  w.requests.any (fun r => match r with | .monitor watcher _ => watcher.root = x | _ => false) ||
  w.replies.any (fun r => match r with | .monitor watcher _ => watcher.root = x | _ => false) ||
  (w.pool name).any fun v => v.watch.any fun watcher => watcher.root = x

/-- A proxy is not used any more. A root proxy is used by its coroutine and by the proxies below. -/
def drop (w : World) (x : ℕ) : Option World := do
  let proxy ← w.getProxy x
  let below := w.proxies.mapIdx fun y other => other.any fun other => y ≠ x ∧ other.root = x
  if w.isMonitored x proxy.name ∨ below.any id then none
  else return { w with proxies := w.proxies.set x none }

/-- The box is not used by a proxy, nor by another box that is not in the list. -/
def isUnreachable (w : World) (garbage : List ℕ) (b : ℕ) : Bool :=
  w.proxies.all (fun proxy => proxy.all fun proxy => proxy.gcobj ≠ b) &&
  (List.range w.boxes.length).all fun c => c ∈ garbage ∨
    (w.getBox c).all fun box => box.condemned ∨ box.update.all fun update => update.2 ≠ b

/-- The garbage collection condemns boxes that are unreachable. -/
def condemn (w : World) (garbage : List ℕ) : Option World :=
  if garbage.all (w.isUnreachable garbage) then
    some { w with
      boxes := w.boxes.mapIdx fun b box => box.map (Box.mark garbage b) }
  else none

/-- The finalizer `releaseobj`. -/
def releaseobj (w : World) (b : ℕ) : Option World := do
  let box ← w.getBox b
  if box.condemned then
    let w := w.decref box.root
    return { w with boxes := w.boxes.set b none }
  else none

/-! ### Runs -/

inductive Event
  | new (name : Name) (t : Datum) (p : Pointer)
  | update (name : Name) (t : Datum) (p : Pointer)
  | delete (name : Name)
  /-- `sharedata.query` in a client -/
  | query (name : Name)
  | serve (request : Request) (test : Watcher → Bool)
  | receive (reply : Reply)
  | index (x : ℕ) (moved : ℕ → Bool) (child : Bool)
  | drop (x : ℕ)
  | condemn (garbage : List ℕ)
  | releaseobj (b : ℕ)
  | collectobj (p : Pointer)

/-- The event cannot happen. -/
inductive Disabled
  | disabled

/-- The state after an event, if it can happen. -/
def next (w : World) : Event → Option World
  | .new name t p => if (w.host p).isNone then some (w.cmdNew name t p).1 else none
  | .update name t p => if (w.host p).isNone then some (w.cmdUpdate name t p).1 else none
  | .delete name => some (w.cmdDelete name).1
  | .query name => some { w with requests := w.requests ++ [.query name] }
  | .serve request test =>
    if request ∈ w.requests then
      some ({ w with requests := w.requests.erase request }.serve request test)
    else none
  | .receive reply =>
    if reply ∈ w.replies then { w with replies := w.replies.erase reply }.receive reply
    else none
  | .index x moved child => w.index x moved child
  | .drop x => w.drop x
  | .condemn garbage => w.condemn garbage
  | .releaseobj b => w.releaseobj b
  | .collectobj p => some (w.collectobj p)

def step (w : World) (event : Event) : Except Disabled World :=
  match w.next event with
  | some w => .ok w
  | none => .error .disabled

theorem next_of_step {w w' : World} {event : Event} (h : w.step event = .ok w') :
    w.next event = some w' := by
  unfold step at h
  split at h
  next v hv =>
    cases h
    exact hv
  next => cases h

end World

end Mtask.Sharedata.Service
