import Mtask.Sharedata.Object
import Mtask.Sharedata.Service

/-!
# Updates that fail

`CMD.update` takes the old object of a name out of the tables and gives its reference back before
`CMD.new` makes the new one, which may raise an error: the type of the value is unknown, a text is
not loaded or does not run, or the table is refused by `sharedata.host.new`. Here the service is
followed with the tables themselves and with the objects that are made of them.

The interpreter is a parameter: whether a text is loaded and runs, and what it leaves in the table
of its globals.
-/

namespace Mtask.Sharedata.Service

open Lua LuaSeri

/-- `load(t, "=" .. name, "t", value)`, and `mtask.pcall` of what is loaded: the table `value`
afterwards. -/
structure Interpreter (χ : Type) where
  load : List UInt8 → Name → Option χ
  run : χ → Option (Rawlen × Entries)

/-- What `CMD.new` raises. -/
inductive Raised
  /-- `error ("Unknown data type " .. dt)` -/
  | unknownType (dt : String)
  /-- `assert(mtask.pcall(f))`, where `f` is `nil` or fails -/
  | notLoaded
  | notRun
  /-- `assert(pool[name] == nil)` -/
  | pooled
  /-- the error of `sharedata.host.new` -/
  | refused (failure : Failure)
  deriving DecidableEq, Repr

/-- The service, with the field `value` of the entries of `pool`, and the objects. -/
structure Daemon where
  world : World
  value : Name → Option (Rawlen × Entries)
  conf : Pointer → Option Table

namespace Daemon

variable {χ : Type} (lua : Interpreter χ) (ccalls : ℕ)

def init : Daemon := ⟨World.init, fun _ => none, fun _ => none⟩

/-- `newobj`, with the address of the object. -/
def newobj (d : Daemon) (name : Name) (tbl : Rawlen × Entries) (p : Pointer) :
    Daemon × Except Raised Unit :=
  match d.world.pool name with
  | some _ => (d, .error .pooled)
  | none =>
    match lnewconf ccalls tbl.1 tbl.2 with
    | .error failure => (d, .error (.refused failure))
    | .ok conf =>
      ({ world := d.world.newobj name p
         value := Function.update d.value name (some tbl)
         conf := Function.update d.conf p (some conf) }, .ok ())

/-- The table of `CMD.new`. -/
def tableOf (name : Name) : Value Rawlen → Except Raised (Rawlen × Entries)
  | .table sizearray entries => .ok (sizearray, entries)
  | .string text =>
    match lua.load text name with
    | none => .error .notLoaded
    | some f =>
      match lua.run f with
      | some value => .ok value
      | none => .error .notRun
  | .nil => .ok (0, [])
  | .boolean _ => .error (.unknownType "boolean")
  | .integer _ | .float _ => .error (.unknownType "number")
  | .lightuserdata _ => .error (.unknownType "userdata")

/-- `CMD.new` -/
def cmdNew (d : Daemon) (name : Name) (t : Value Rawlen) (p : Pointer) :
    Daemon × Except Raised Unit :=
  match tableOf lua name t with
  | .error e => (d, .error e)
  | .ok value => d.newobj ccalls name value p

/-- The old object of a name is taken out of the tables, and its reference is given back. -/
def supersede (d : Daemon) (name : Name) (obj : Pointer) : Daemon :=
  { d with
    world := d.world.supersede name obj
    value := Function.update d.value name none }

/-- `CMD.update`; the address of the new object is `p`. -/
def cmdUpdate (d : Daemon) (name : Name) (t : Value Rawlen) (p : Pointer) :
    Daemon × Except Raised Unit :=
  match d.world.pool name with
  | none => d.cmdNew lua ccalls name t p
  | some v =>
    match (d.supersede name v.obj).cmdNew lua ccalls name t p with
    | (d, .error e) => (d, .error e)
    | (d, .ok ()) =>
      ({ d with world := (d.world.markdirty v.obj).respond v.watch (some p) }, .ok ())

/-! ### The service of the clients -/

/-- A table is converted to an object. -/
def accepted (tbl : Rawlen × Entries) : Bool :=
  (lnewconf ccalls tbl.1 tbl.2).toBool

/-- What is known of a value by the service of the clients. -/
def datum (name : Name) : Value Rawlen → Datum
  | .table sizearray entries => .table (accepted ccalls (sizearray, entries))
  | .string text =>
    match (lua.load text name).bind lua.run with
    | some value => .text true (accepted ccalls value)
    | none => .text false false
  | .nil => .nil
  | _ => .unknown

section World

variable {lua ccalls} {d : Daemon} {name : Name} {t : Value Rawlen} {p : Pointer}

/-- An error, without its text. -/
def ret : Except Raised Unit → Ret
  | .ok _ => .value none
  | .error _ => .raised

/-- What the clients know of the service and of a request. -/
def view (r : Daemon × Except Raised Unit) : World × Ret :=
  (r.1.world, ret r.2)

theorem view_newobj (tbl : Rawlen × Entries) :
    view (d.newobj ccalls name tbl p) =
      match d.world.pool name with
      | some _ => (d.world, .raised)
      | none =>
        if accepted ccalls tbl then (d.world.newobj name p, .value none)
        else (d.world, .raised) := by
  rw [newobj]
  cases d.world.pool name with
  | some v => rfl
  | none =>
    obtain ⟨result, hconf⟩ : ∃ result, lnewconf ccalls tbl.1 tbl.2 = result := ⟨_, rfl⟩
    simp only [accepted, hconf]
    cases result with
    | error failure => rfl
    | ok conf => rfl

theorem accepted_nil (hcalls : 0 < ccalls) : accepted ccalls (0, []) = true := by
  obtain ⟨left, rfl⟩ : ∃ left, ccalls = left + 1 := ⟨ccalls - 1, by omega⟩
  rfl

theorem view_cmdNew (hcalls : 0 < ccalls) :
    view (d.cmdNew lua ccalls name t p) = d.world.cmdNew name (datum lua ccalls name t) p := by
  rw [cmdNew, World.cmdNew]
  cases t with
  | table sizearray entries => exact view_newobj _
  | nil =>
    refine (view_newobj _).trans ?_
    rw [accepted_nil hcalls]
    rfl
  | string text =>
    rw [tableOf, datum]
    cases hload : lua.load text name with
    | none => rfl
    | some f =>
      obtain ⟨result, hrun⟩ : ∃ result, lua.run f = result := ⟨_, rfl⟩
      simp only [Option.bind_some, hrun]
      cases result with
      | none => rfl
      | some value => exact view_newobj _
  | boolean b => rfl
  | integer i => rfl
  | float bits => rfl
  | lightuserdata q => rfl

theorem cmdNew_raised {e : Raised} (h : (d.cmdNew lua ccalls name t p).2 = .error e) :
    (d.cmdNew lua ccalls name t p).1 = d := by
  rw [cmdNew] at h ⊢
  cases htable : tableOf lua name t with
  | error e => rfl
  | ok tbl =>
    rw [htable] at h
    simp only [newobj] at h ⊢
    cases hpool : d.world.pool name with
    | some v => rfl
    | none =>
      rw [hpool] at h
      simp only at h ⊢
      cases hconf : lnewconf ccalls tbl.1 tbl.2 with
      | error failure => rfl
      | ok conf =>
        rw [hconf] at h
        cases h

theorem cmdUpdate_raised {e : Raised} {v : Entry} (hpool : d.world.pool name = some v)
    (h : (d.cmdUpdate lua ccalls name t p).2 = .error e) :
    (d.cmdUpdate lua ccalls name t p).1 = d.supersede name v.obj := by
  rw [cmdUpdate, hpool] at h ⊢
  simp only at h ⊢
  rcases hcall : (d.supersede name v.obj).cmdNew lua ccalls name t p with ⟨d', e' | u⟩
  · have hnew := cmdNew_raised (congrArg Prod.snd hcall)
    rwa [hcall] at hnew
  · rw [hcall] at h
    cases h

theorem pool_supersede (d : Daemon) (name : Name) (obj : Pointer) :
    (d.supersede name obj).world.pool name = none := by
  rw [supersede, World.supersede, World.decref, World.access]
  split <;> exact Function.update_self ..

/-- **An update that raises an error leaves the service as it is** if and only if there was no
object for the name. -/
theorem cmdUpdate_raised_iff {e : Raised} (h : (d.cmdUpdate lua ccalls name t p).2 = .error e) :
    (d.cmdUpdate lua ccalls name t p).1 = d ↔ d.world.pool name = none := by
  cases hpool : d.world.pool name with
  | none =>
    refine iff_of_true ?_ rfl
    rw [cmdUpdate, hpool] at h ⊢
    exact cmdNew_raised h
  | some v =>
    refine iff_of_false (fun hsame => ?_) (Option.some_ne_none v)
    rw [cmdUpdate_raised hpool h] at hsame
    have hnone := pool_supersede d name v.obj
    rw [hsame, hpool] at hnone
    exact Option.some_ne_none v hnone

end World

/-- No text is loaded. -/
def noText : Interpreter Unit := ⟨fun _ _ => none, fun _ => none⟩

/-- A name without an object, and a value of an unknown type. -/
theorem cmdUpdate_raised_iff_init :
    (init.cmdUpdate noText 200 [97] (.boolean true) 1).1 = init :=
  (cmdUpdate_raised_iff (e := .unknownType "boolean") rfl).mpr rfl

/-- An object is made, and an update with a boolean raises an error: a query raises one then, and
the reference of the object is gone. -/
theorem cmdUpdate_fails :
    let d := (init.cmdNew noText 200 [97] .nil 1).1
    let d' := (d.cmdUpdate noText 200 [97] (.boolean true) 2).1
    (d.cmdUpdate noText 200 [97] (.boolean true) 2).2 = .error (.unknownType "boolean") ∧
      (d.world.cmdQuery [97]).2 = .value (some 1) ∧ (d'.world.cmdQuery [97]).2 = .raised ∧
      d.world.host 1 = some ⟨1, false⟩ ∧ d'.world.host 1 = some ⟨0, false⟩ ∧ d' ≠ d := by
  refine ⟨rfl, rfl, rfl, rfl, rfl, fun hsame => ?_⟩
  have hpool := congrArg (fun d : Daemon => (d.world.pool [97]).isSome) hsame
  cases hpool

end Daemon

end Mtask.Sharedata.Service
