import Mathlib.Algebra.Ring.Int.Defs

/-!
# The connections of a gate server

`snax/gateserver.lua` keeps what it knows of every connection: `true` while messages are handed on,
`false` after `closeclient`, until the socket server reports the end of the connection.
-/

namespace Mtask.Snax

/-- A string of Lua. -/
abbrev LuaString := List UInt8

/-- The calls of `socketdriver`. -/
inductive SocketCall
  | start (fd : ℕ)
  | close (fd : ℕ)
  | nodelay (fd : ℕ)
  | send (fd : ℕ) (data : LuaString)
  deriving DecidableEq, Repr

/-- The variables of `snax/gateserver.lua`; an entry that is `nil` is `none`. -/
structure Gateserver where
  maxclient : ℕ
  clientNumber : ℤ
  nodelay : Bool
  connection : ℕ → Option Bool
  calls : List SocketCall

namespace Gateserver

variable (g : Gateserver) (fd : ℕ)

def call (c : SocketCall) : Gateserver :=
  { g with calls := g.calls ++ [c] }

/-- `gateserver.openclient` -/
def openclient : Gateserver :=
  if g.connection fd = some true then g.call (.start fd) else g

/-- `gateserver.closeclient` -/
def closeclient : Gateserver :=
  if g.connection fd = some true then
    { g with
      connection := Function.update g.connection fd (some false)
      calls := g.calls ++ [.close fd] }
  else g

/-- The connection is turned away by `MSG.open`. -/
def Full : Prop :=
  (g.maxclient : ℤ) ≤ g.clientNumber

instance : Decidable g.Full :=
  inferInstanceAs (Decidable (_ ≤ _))

/-- `MSG.open` up to the call of `handler.connect`, for a gate that is not full. -/
def accept : Gateserver :=
  let g := if g.nodelay then g.call (.nodelay fd) else g
  { g with
    connection := Function.update g.connection fd (some true)
    clientNumber := g.clientNumber + 1 }

/-- `close_fd` -/
def closeFd : Gateserver :=
  if g.connection fd ≠ none then
    { g with
      connection := Function.update g.connection fd none
      clientNumber := g.clientNumber - 1 }
  else g

@[simp]
theorem connection_openclient : (g.openclient fd).connection = g.connection := by
  rw [openclient]
  split <;> rfl

@[simp]
theorem connection_accept :
    (g.accept fd).connection = Function.update g.connection fd (some true) := by
  rw [accept]
  split <;> rfl

theorem connection_closeclient {fd' : ℕ} (h : g.connection fd' ≠ none) :
    (g.closeclient fd).connection fd' ≠ none := by
  rw [closeclient]
  split
  · change Function.update g.connection fd (some false) fd' ≠ none
    by_cases heq : fd' = fd
    · subst heq
      rw [Function.update_self]
      exact Option.some_ne_none false
    · rwa [Function.update_of_ne heq]
  · exact h

/-- A connection that is known is no longer served after `closeclient`. -/
theorem connection_closeclient_self (h : g.connection fd ≠ none) :
    (g.closeclient fd).connection fd = some false := by
  rw [closeclient]
  split
  · exact Function.update_self ..
  · next hfalse =>
    cases hc : g.connection fd with
    | none => exact absurd hc h
    | some b =>
      cases b with
      | false => rfl
      | true => exact absurd hc hfalse

theorem connection_closeFd_of_ne {fd' : ℕ} (h : fd' ≠ fd) :
    (g.closeFd fd).connection fd' = g.connection fd' := by
  rw [closeFd]
  split
  · exact Function.update_of_ne h ..
  · rfl

end Gateserver

end Mtask.Snax
