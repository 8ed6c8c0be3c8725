import Mtask.Lib.ChainedSlots
import Mtask.LuaSeri.Pack

/-!
# Shared objects

The conversion of a Lua table to an object that several services read, and the reading of it, in
`mtask_lua_sharedata.c`. The keys and the values of strings are the indices of a state that belongs
to the object and that has every string once. Of the nodes of the hash part only `valuetype` is set
when they are made, so a node without a value is none here.
-/

namespace Mtask.Sharedata

open Lua Lua.Value LuaSeri ChainedSlots

/-- `lua_rawlen` and the entries of a Lua table. -/
abbrev Entries := List (Value Rawlen × Value Rawlen)

/-- The key of a node with its type: an `int`, or the index of a string. -/
inductive Key
  | integer (key : BitVec 32)
  | string (index : ℕ)
  deriving DecidableEq, Repr

/-- `union value` with its type, `VALUETYPE_NIL` for a value that is not set. -/
inductive ConfValue
  | nil
  | real (n : BitVec 64)
  | string (index : ℕ)
  | boolean (b : Bool)
  | table (array : List ConfValue) (hash : List (Option (Slot Key ConfValue)))
  | integer (d : BitVec 64)

/-- The type is `VALUETYPE_NIL`. -/
def ConfValue.isNil : ConfValue → Bool
  | .nil => true
  | _ => false

/-- `struct node`, with `nocolliding` as `alone`. -/
abbrev Node := Slot Key ConfValue

/-- The two parts of `struct table`. -/
abbrev Parts := List ConfValue × Slots Key ConfValue

/-- What a function raises. -/
inductive Refusal
  | invalidKey
  | invalidKeyType
  | unsupportedValueType
  | cStackOverflow
  | badArgument
  deriving DecidableEq, Repr

inductive Failure
  | raised (error : Refusal)
  /-- `assert(n)` in `fillcolliding` -/
  | assertion
  | uninitialised
  deriving DecidableEq, Repr

/-- The strings of the state of the object, the first one with the index 2. -/
abbrev Strings := List (List UInt8)

abbrev Conv := StateT Strings (Except Failure)

def stringAt (strings : Strings) (index : ℕ) : Option (List UInt8) :=
  if 2 ≤ index then strings[index - 2]? else none

/-- The loop of `calchash`, for at most as many steps as there are bytes. -/
def calchashLoop (str : List UInt8) (step : ℕ) : ℕ → ℕ → BitVec 32 → BitVec 32
  | 0, _, h => h
  | fuel + 1, l1, h =>
    if step ≤ l1 then
      calchashLoop str step fuel (l1 - step)
        (h ^^^ ((h <<< 5) + (h >>> 2) + BitVec.ofNat 32 (str.getD (l1 - 1) 0).toNat))
    else h

def calchash (str : List UInt8) : BitVec 32 :=
  calchashLoop str (str.length / 32 + 1) str.length str.length (.ofNat 32 str.length)

def stringindex (str : List UInt8) : Conv ℕ := fun strings =>
  match strings.idxOf? str with
  | some i => .ok (i + 2, strings)
  | none => .ok (strings.length + 2, strings ++ [str])

/-! ### The conversion -/

def countsize (sizearray : ℕ) (entries : Entries) : Conv ℕ :=
  entries.foldlM (fun n e =>
    match e.1 with
    | integer nkey => return if 0 < nkey.toInt ∧ nkey.toInt ≤ sizearray then n else n + 1
    | float _ => throw (.raised .invalidKey)
    | string _ => return n + 1
    | table _ _ => return n + 1
    | _ => throw (.raised .invalidKeyType)) 0

/-- `lua_tointeger` -/
def luaTointeger : Value Rawlen → BitVec 64
  | integer i => i
  | float bits => (tointeger bits).getD 0
  | _ => 0

/-- `lua_tolstring`; there is no string of length 0 for a table. -/
def luaTolstring : Value Rawlen → List UInt8
  | string s => s
  | _ => []

/-- `ishashkey`: an index of the array part, or a key with its hash. -/
def ishashkey (sizearray : ℕ) (key : Value Rawlen) : Conv (ℕ ⊕ Key × ℕ) :=
  match key with
  | integer _ | float _ =>
    let key := (luaTointeger key).setWidth 32
    if 0 < key.toInt ∧ key.toInt ≤ sizearray then return .inl key.toNat
    else return .inr (.integer key, key.toNat)
  | _ => do
    let s := luaTolstring key
    let index ← stringindex s
    return .inr (.string index, (calchash s).toNat)

section Passes

variable (convtable : Rawlen → Entries → Conv ConfValue)

def setvalue (value : Value Rawlen) : Conv ConfValue :=
  match value with
  | nil => return .nil
  | integer d => return .integer d
  | float n => return .real n
  | string str => return .string (← stringindex str)
  | boolean b => return .boolean b
  | table sizearray entries => convtable sizearray entries
  | lightuserdata _ => throw (.raised .unsupportedValueType)

def setarray (array : List ConfValue) (value : Value Rawlen) (key : ℕ) : Conv (List ConfValue) :=
  return array.set (key - 1) (← setvalue convtable value)

/-- One entry of `fillnocolliding`. -/
def fillnocollidingStep (sizearray : ℕ) (tbl : Parts) (e : Value Rawlen × Value Rawlen) :
    Conv Parts := do
  match ← ishashkey sizearray e.1 with
  | .inl key => return (← setarray convtable tbl.1 e.2 key, tbl.2)
  | .inr (key, keyhash) =>
    match slotAt tbl.2 (mainpos tbl.2 keyhash) with
    | some _ => return tbl
    | none => return (tbl.1, place tbl.2 key (← setvalue convtable e.2) keyhash)

def fillnocolliding (sizearray : ℕ) (entries : Entries) (tbl : Parts) : Conv Parts :=
  entries.foldlM (fillnocollidingStep convtable sizearray) tbl

/-- One entry of `fillcolliding`. -/
def fillcollidingStep (sizearray : ℕ) (tbl : Parts) (e : Value Rawlen × Value Rawlen) :
    Conv Parts := do
  match ← ishashkey sizearray e.1 with
  | .inl _ => return tbl
  | .inr (key, keyhash) =>
    match slotAt tbl.2 (mainpos tbl.2 keyhash) with
    | none => throw .uninitialised
    | some head =>
      if head.key = key then return tbl
      else
        match firstFree tbl.2 with
        | none => throw .assertion
        | some n => return (tbl.1, link tbl.2 head n key (← setvalue convtable e.2) keyhash)

def fillcolliding (sizearray : ℕ) (entries : Entries) (tbl : Parts) : Conv Parts :=
  entries.foldlM (fillcollidingStep convtable sizearray) tbl

/-- The loop of `convtable` over the array part, when there is no hash part. -/
def fillarray (sizearray : ℕ) (entries : Entries) (array : List ConfValue) :
    Conv (List ConfValue) :=
  (List.range' 1 sizearray).foldlM (fun array i =>
    setarray convtable array (rawgeti entries i) i) array

end Passes

/-- `convtable`; the number is that of the C calls that are left. -/
def convtable : ℕ → Rawlen → Entries → Conv ConfValue
  | 0, _, _ => throw (.raised .cStackOverflow)
  | left + 1, sizearray, entries => do
    let array := List.replicate sizearray ConfValue.nil
    let sizehash ← countsize sizearray entries
    if sizehash ≠ 0 then
      let hash := List.replicate sizehash none
      let tbl ← fillnocolliding (convtable left) sizearray entries (array, hash)
      let tbl ← fillcolliding (convtable left) sizearray entries tbl
      return .table tbl.1 tbl.2
    else
      let array ← fillarray (convtable left) sizearray entries array
      return .table array []

/-! ### The object -/

/-- `struct table`, with the strings of its state. -/
structure Table where
  strings : Strings
  array : List ConfValue
  hash : Slots Key ConfValue

/-- `lnewconf`, with at most `ccalls` nested C calls. -/
def lnewconf (ccalls : ℕ) (sizearray : Rawlen) (entries : Entries) : Except Failure Table :=
  match convtable ccalls sizearray entries [] with
  | .ok (.table array hash, strings) => .ok ⟨strings, array, hash⟩
  | .ok _ => .error .uninitialised
  | .error failure => .error failure

/-- What is pushed to the stack; a table is a pointer. -/
inductive Pushed
  | nil
  | boolean (b : Bool)
  | integer (d : BitVec 64)
  | float (n : BitVec 64)
  | string (s : List UInt8)
  | table (tbl : Table)

def pushvalue (strings : Strings) : ConfValue → Except Failure Pushed
  | .real n => .ok (.float n)
  | .integer d => .ok (.integer d)
  | .string index =>
    match stringAt strings index with
    | some s => .ok (.string s)
    | none => .error .uninitialised
  | .boolean b => .ok (.boolean b)
  | .table array hash => .ok (.table ⟨strings, array, hash⟩)
  | .nil => .ok .nil

/-- The key that is looked for: an `int`, or a string. -/
inductive Query
  | integer (key : BitVec 32)
  | string (str : List UInt8)
  deriving DecidableEq, Repr

/-- The comparison of the keys in `lookup_key`. -/
def sameKey (strings : Strings) : Key → Query → Bool
  | .integer key, .integer key' => key = key'
  | .string index, .string str => stringAt strings index = some str
  | _, _ => false

def lookupKey (tbl : Table) (keyhash : ℕ) (query : Query) : Except Failure (Option ℕ) :=
  if tbl.hash.length = 0 then .ok none
  else
    match slotAt tbl.hash (mainpos tbl.hash keyhash) with
    | none => .error .uninitialised
    | some n =>
      if keyhash ≠ n.hash ∧ n.alone then .ok none
      else
        match walk tbl.hash (fun n => keyhash = n.hash ∧ sameKey tbl.strings n.key query)
          tbl.hash.length (mainpos tbl.hash keyhash) with
        | some found => .ok found
        | none => .error .uninitialised

/-- A key that is an argument: an index of the array part, or a key with its hash. -/
def argument (tbl : Table) (key : Value Rawlen) : Except Failure (ℕ ⊕ Query × ℕ) :=
  match key with
  | integer i =>
    let key := i.setWidth 32
    if 0 < key.toInt ∧ key.toInt ≤ tbl.array.length then .ok (.inl key.toNat)
    else .ok (.inr (.integer key, key.toNat))
  | float _ => .error (.raised .invalidKey)
  | string str => .ok (.inr (.string str, (calchash str).toNat))
  | _ => .error (.raised .badArgument)

def lindexconf (tbl : Table) (key : Value Rawlen) : Except Failure (Option Pushed) := do
  match ← argument tbl key with
  | .inl key => return some (← pushvalue tbl.strings (tbl.array.getD (key - 1) .nil))
  | .inr (query, keyhash) =>
    match ← lookupKey tbl keyhash query with
    | none => return none
    | some i =>
      match slotAt tbl.hash i with
      | some n => return some (← pushvalue tbl.strings n.value)
      | none => throw .uninitialised

def pushkey (strings : Strings) (n : Node) : Except Failure (Value Rawlen) :=
  match n.key with
  | .integer key => .ok (integer (key.signExtend 64))
  | .string index =>
    match stringAt strings index with
    | some s => .ok (string s)
    | none => .error .uninitialised

/-- The key of a node of the hash part, if there are as many. -/
def hashKeyAt (tbl : Table) (i : ℕ) : Except Failure (Option (Value Rawlen)) :=
  if tbl.hash.length ≤ i then .ok none
  else
    match slotAt tbl.hash i with
    | some n => some <$> pushkey tbl.strings n
    | none => .error .uninitialised

def pushfirsthash (tbl : Table) : Except Failure (Option (Value Rawlen)) := hashKeyAt tbl 0

/-- The first index of the array part from `i` on with a value, or the first key of the hash part.
-/
def nextArrayKey (tbl : Table) (i : ℕ) : Except Failure (Option (Value Rawlen)) :=
  match (tbl.array.drop i).findIdx? (!·.isNil) with
  | some j => .ok (some (integer (.ofNat 64 (i + j + 1))))
  | none => pushfirsthash tbl

def lnextkey (tbl : Table) : Option (Value Rawlen) → Except Failure (Option (Value Rawlen))
  | none => nextArrayKey tbl 0
  | some (float _) => .ok none
  | some key => do
    match ← argument tbl key with
    | .inl key => nextArrayKey tbl key
    | .inr (query, keyhash) =>
      match ← lookupKey tbl keyhash query with
      | none => return none
      | some i => hashKeyAt tbl (i + 1)

def llen (tbl : Table) : ℕ := tbl.array.length

end Mtask.Sharedata
