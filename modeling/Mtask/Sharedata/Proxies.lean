import Mtask.Sharedata.Mirror

/-!
# Proxies of shared objects

The proxies of one client for one shared table, in `corelib.lua`. An object is given by its version
and the path of a table in it; what `index` finds there is what the table of that version has. The
box of a version has a number, too, as every version is delivered once.

The field `__cache` of a proxy is read with a metatable, so that a proxy without this field is
itself asked for the key `__cache`, and is updated thereby.
-/

namespace Mtask.Sharedata.Proxies

open Lua LuaSeri

/-- A version, and the path of a table in it. -/
abbrev Pointer := ℕ × List Name

/-- A proxy. The path of its object is that of its keys; `obtained` is the version when a read has
returned the proxy for the last time, which is not in the source. -/
structure Proxy where
  obj : Pointer
  gcobj : ℕ
  parent : Option ℕ
  key : Name
  cache : Option (List (Name × ℕ))
  obtained : ℕ

/-- The proxies of a client by number, the root proxy first, the field `update` of the box of every
version, the newest version that has been delivered, and whether this one is marked as dirty. -/
structure Client where
  proxies : List Proxy
  update : ℕ → Option ℕ
  newest : ℕ
  marked : Bool

inductive Fault
  /-- `The key doesn't exist after update` -/
  | notExist (path : List Name)
  /-- the field `__cache` is that of the shared table -/
  | badCache
  /-- `Only dirty object can be update` -/
  | notDirty
  | noProxy
  | outOfFuel
  deriving DecidableEq, Repr

/-- Lua code that may raise an error. -/
abbrev Run := EStateM Fault Client

/-- The client after a run, whether or not it has raised an error. -/
def after {α : Type} : EStateM.Result Fault Client α → Client
  | .ok _ c => c
  | .error _ c => c

/-- The bytes of `__cache`. -/
def cacheKey : Name := .string [95, 95, 99, 97, 99, 104, 101]

/-- The fields that every proxy has: `__obj`, `__gcobj`, `__parent` and `__key`. -/
def fieldKeys : List Name :=
  [.string [95, 95, 111, 98, 106], .string [95, 95, 103, 99, 111, 98, 106],
    .string [95, 95, 112, 97, 114, 101, 110, 116], .string [95, 95, 107, 101, 121]]

def isTable : Value Rawlen → Bool
  | .table _ _ => true
  | _ => false

/-- The value is neither `nil` nor `false`. -/
def isTrue : Value Rawlen → Bool
  | .nil | .boolean false => false
  | _ => true

def getProxy (x : ℕ) : Run Proxy := do
  match (← get).proxies[x]? with
  | some proxy => return proxy
  | none => throw .noProxy

def setProxy (x : ℕ) (proxy : Proxy) : Run Unit :=
  modify fun c => { c with proxies := c.proxies.set x proxy }

/-- All versions but the newest one are dirty. -/
def Client.isdirty (c : Client) (version : ℕ) : Bool :=
  version < c.newest ∨ version = c.newest ∧ c.marked

/-- `findroot`, for at most as many steps as there are proxies. -/
def findroot (proxies : List Proxy) : ℕ → ℕ → ℕ
  | 0, x => x
  | fuel + 1, x =>
    match proxies[x]?.bind Proxy.parent with
    | some parent => findroot proxies fuel parent
    | none => x

section Corelib

variable (conf : ℕ → Value Rawlen)

/-- `index` of `sharedata.core`; a table is a pointer. -/
def index (cobj : Pointer) (key : Name) : Value Rawlen := entryAt (conf cobj.1) (cobj.2 ++ [key])

section Calls

variable (update : ℕ → Pointer → ℕ → Run Unit)

def getcobj (x : ℕ) : Run Pointer := do
  let self ← getProxy x
  let c ← get
  if c.isdirty self.obj.1 then
    match c.update self.gcobj with
    | none => return self.obj
    | some newobj =>
      update (findroot c.proxies c.proxies.length x) (newobj, []) newobj
      let new ← getProxy x
      if new.obj = self.obj then throw (.notExist self.obj.2)
      else return new.obj
  else return self.obj

/-- What `self.__cache` is: the proxies by their keys, or a value of the shared table. -/
inductive Children
  | table (children : List (Name × ℕ))
  | value (v : Value Rawlen)

/-- The field `__cache`; a table with this key is asked for its own cache, without an end. -/
def getcache (x : ℕ) : Run Children := do
  match (← getProxy x).cache with
  | some children => return .table children
  | none =>
    let v := index conf (← getcobj update x) cacheKey
    if isTable v then throw .badCache else return .value v

/-- The loop of `update`. A child that another update has removed is not visited. -/
def updateChildren (x : ℕ) (cobj : Pointer) (gcobj : ℕ) : List (Name × ℕ) → Run Unit
  | [] => return ()
  | (k, v) :: children => do
    let self ← getProxy x
    if (k, v) ∈ self.cache.getD [] then
      if isTable (index conf cobj k) then update v (cobj.1, cobj.2 ++ [k]) gcobj
      else setProxy x { self with cache := self.cache.map (·.filter (·.1 ≠ k)) }
    updateChildren x cobj gcobj children

end Calls

/-- `update`, with a bound for the depth of the calls. -/
def update : ℕ → ℕ → Pointer → ℕ → Run Unit
  | 0, _, _, _ => throw .outOfFuel
  | fuel + 1, x, cobj, gcobj => do
    let self ← getProxy x
    setProxy x { self with obj := cobj, gcobj }
    match ← getcache conf (update fuel) x with
    | .table children => updateChildren conf (update fuel) x cobj gcobj children
    | .value v => if isTrue v then throw .badCache else return ()

/-- What is read with a key: a value, or the number of a proxy. -/
inductive Read
  | value (v : Value Rawlen)
  | proxy (x : ℕ)

/-- `meta.__index` -/
def metaIndex (fuel x : ℕ) (key : Name) : Run Read := do
  let obj ← getcobj (update conf fuel) x
  let v := index conf obj key
  if isTable v then
    match ← getcache conf (update conf fuel) x with
    | .value v => if v.isNil then newChild x obj key [] else throw .badCache
    | .table children =>
      match children.lookup key with
      | some r => do
        let child ← getProxy r
        setProxy r { child with obtained := obj.1 }
        return .proxy r
      | none => newChild x obj key children
  else return .value v
where
  /-- A new proxy below `x`, which has the other children. -/
  newChild (x : ℕ) (obj : Pointer) (key : Name) (children : List (Name × ℕ)) : Run Read := do
    let self ← getProxy x
    let r := (← get).proxies.length
    setProxy x { self with cache := some (children ++ [(key, r)]) }
    modify fun c => { c with
      proxies := c.proxies ++ [⟨(obj.1, obj.2 ++ [key]), self.gcobj, some x, key, none, obj.1⟩] }
    return .proxy r

/-- The proxy has the field, so that the metatable is not used. -/
def Proxy.hasField (proxy : Proxy) (key : Name) : Bool :=
  key ∈ fieldKeys ∨ key = cacheKey ∧ proxy.cache.isSome

/-- `conf.update` of the root proxy with the next version. -/
def confUpdate : Run Unit := do
  let self ← getProxy 0
  let c ← get
  if c.isdirty self.obj.1 then
    set { c with
      update := Function.update c.update self.gcobj (some (c.newest + 1))
      newest := c.newest + 1
      marked := false }
  else throw .notDirty

/-- The depth of calls that is enough. -/
def Client.depth (c : Client) : ℕ := (c.proxies.length + 1) * (c.newest + 1)

/-- A read with a key. -/
def access (x : ℕ) (key : Name) : Run (Option Read) := do
  let self ← getProxy x
  if self.hasField key then return none
  else some <$> metaIndex conf (← get).depth x key

/-- `meta.__len`, up to the length of the object. -/
def metaLen (x : ℕ) : Run Pointer := do getcobj (update conf (← get).depth) x

/-- `conf.next`, when `nextkey` is what `core.nextkey` returns. -/
def confNext (x : ℕ) (nextkey : Option Name) : Run (Option Read) := do
  let _ ← getcobj (update conf (← get).depth) x
  match nextkey with
  | some key => access conf x key
  | none => return none

inductive Event
  /-- a newer version has been made, and the newest one that was delivered is marked -/
  | markdirty
  | confUpdate
  | index (x : ℕ) (key : Name)
  | len (x : ℕ)
  | next (x : ℕ) (nextkey : Option Name)

/-- A client with a root proxy for the first version. -/
def init : Client := ⟨[⟨(0, []), 0, none, .string [], none, 0⟩], fun _ => none, 0, false⟩

/-- One event; an access to a proxy may raise an error. -/
def step (c : Client) : Event → Except Fault Client
  | .markdirty => .ok { c with marked := true }
  | .confUpdate =>
    match if c.marked then confUpdate c else .error .notDirty c with
    | .ok _ c => .ok c
    | .error fault _ => .error fault
  | .index x key =>
    if x < c.proxies.length then .ok (after (access conf x key c)) else .error .noProxy
  | .len x => if x < c.proxies.length then .ok (after (metaLen conf x c)) else .error .noProxy
  | .next x nextkey =>
    if x < c.proxies.length then .ok (after (confNext conf x nextkey c)) else .error .noProxy

end Corelib

end Mtask.Sharedata.Proxies
