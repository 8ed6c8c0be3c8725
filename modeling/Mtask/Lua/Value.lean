import Mathlib.Algebra.Group.Nat.Defs
import Mathlib.Algebra.Ring.Int.Defs
import Mathlib.Data.List.Perm.Basic

/-!
# Lua values

The values of Lua that can be sent from one service to another. A table is given by its entries, in
the order in which `lua_next` visits them; of its layout in memory, which `lua_rawlen` depends on,
the parameter `ρ` says what there is to know.
-/

namespace Mtask.Lua

/-- A value. Integers have 64 bits, and a floating-point number is given by its bits. -/
inductive Value (ρ : Type*)
  | nil
  | boolean (b : Bool)
  | integer (i : BitVec 64)
  | float (bits : BitVec 64)
  | string (s : List UInt8)
  | lightuserdata (p : BitVec 64)
  | table (layout : ρ) (entries : List (Value ρ × Value ρ))

variable {ρ ρ' : Type*}

/-- The mantissa of a floating-point number. -/
def mantissa (bits : BitVec 64) : ℕ := bits.toNat % 2 ^ 52

/-- The exponent of a floating-point number, with its offset of 1023. -/
def exponent (bits : BitVec 64) : ℕ := bits.toNat / 2 ^ 52 % 2 ^ 11

/-- The floating-point number is not a number. -/
def isNaN (bits : BitVec 64) : Bool := exponent bits = 2047 ∧ mantissa bits ≠ 0

/-- `luaV_tointeger` with mode 0: the integer that a floating-point number is equal to. -/
def tointeger (bits : BitVec 64) : Option (BitVec 64) :=
  let sign : ℤ := if bits.msb then -1 else 1
  let whole (n : ℕ) : Option (BitVec 64) :=
    if -2 ^ 63 ≤ sign * n ∧ sign * n < 2 ^ 63 then some (.ofInt 64 (sign * n)) else none
  if exponent bits = 0 then
    if mantissa bits = 0 then some 0 else none
  else if exponent bits = 2047 then none
  else if 1075 ≤ exponent bits then
    whole ((2 ^ 52 + mantissa bits) * 2 ^ (exponent bits - 1075))
  else if (2 ^ 52 + mantissa bits) % 2 ^ (1075 - exponent bits) = 0 then
    whole ((2 ^ 52 + mantissa bits) / 2 ^ (1075 - exponent bits))
  else none

namespace Value

/-- Two keys are the same key of a table. No table that has been made for a key is the key of
another entry. -/
def sameKey : Value ρ → Value ρ' → Bool
  | boolean b, boolean b' => b = b'
  | integer i, integer i' => i = i'
  | float bits, float bits' => bits = bits'
  | string s, string s' => s = s'
  | lightuserdata p, lightuserdata p' => p = p'
  | _, _ => false

def isNil : Value ρ → Bool
  | nil => true
  | _ => false

/-- A key as a table has it: a floating-point number with an integer value is an integer. -/
def normalize : Value ρ → Value ρ
  | float bits =>
    match tointeger bits with
    | some i => integer i
    | none => float bits
  | key => key

/-- The keys that a table can have. -/
def IsKey : Value ρ → Prop
  | nil => False
  | float bits => tointeger bits = none ∧ isNaN bits = false
  | _ => True

end Value

open Value

/-- The value of an integer key, as `lua_rawgeti` finds it. -/
def rawgeti (entries : List (Value ρ × Value ρ)) (i : ℕ) : Value ρ :=
  match entries.find? (·.1.sameKey (integer (.ofNat 64 i) : Value ρ)) with
  | some e => e.2
  | none => nil

/-- The value of a key, as `lua_rawget` finds it. -/
def rawget (entries : List (Value ρ × Value ρ)) (key : Value ρ) : Value ρ :=
  match entries.find? (·.1.sameKey (normalize key)) with
  | some e => e.2
  | none => nil

/-- What `lua_rawset` raises. -/
inductive IndexError
  /-- `table index is nil` -/
  | isNil
  /-- `table index is NaN` -/
  | isNaN
  deriving DecidableEq, Repr

/-- An entry is removed, replaced, or added behind the others. -/
def assign (entries : List (Value ρ × Value ρ)) (key value : Value ρ) :
    List (Value ρ × Value ρ) :=
  if value.isNil then entries.filter (!·.1.sameKey key)
  else if entries.any (·.1.sameKey key) then
    entries.map fun e => if e.1.sameKey key then (e.1, value) else e
  else entries ++ [(key, value)]

/-- `lua_rawset` -/
def rawset (entries : List (Value ρ × Value ρ)) (key value : Value ρ) :
    Except IndexError (List (Value ρ × Value ρ)) :=
  match key with
  | nil => .error .isNil
  | float bits =>
    if tointeger bits = none ∧ isNaN bits then .error .isNaN
    else .ok (assign entries (normalize (float bits)) value)
  | key => .ok (assign entries key value)

/-- The entries that a table can have: no two keys are the same, and there is no entry for `nil`. -/
structure IsTable (entries : List (Value ρ × Value ρ)) : Prop where
  isKey : ∀ e ∈ entries, e.1.IsKey
  value : ∀ e ∈ entries, e.2.isNil = false
  distinct : entries.Pairwise fun e e' => e.1.sameKey e'.1 = false

section Assign

variable {entries : List (Value ρ × Value ρ)} {key value : Value ρ}

theorem assign_fresh (hfresh : ∀ e ∈ entries, e.1.sameKey key = false) :
    assign entries key value = entries ++ if value.isNil then [] else [(key, value)] := by
  unfold assign
  split
  next =>
    rw [List.append_nil]
    refine List.filter_eq_self.2 fun e he => ?_
    rw [hfresh e he, Bool.not_false]
  next =>
    have hnone : entries.any (·.1.sameKey key) = false := by
      rw [List.any_eq_false]
      intro e he
      rw [hfresh e he]
      exact Bool.false_ne_true
    rw [hnone]
    rfl

theorem rawset_fresh (hkey : key.IsKey) (hfresh : ∀ e ∈ entries, e.1.sameKey key = false)
    (hvalue : value.isNil = false) :
    rawset entries key value = .ok (entries ++ [(key, value)]) := by
  have hassign : assign entries key value = entries ++ [(key, value)] := by
    rw [assign_fresh hfresh, hvalue]
    rfl
  cases key with
  | nil => exact hkey.elim
  | float bits =>
    have hnan : ¬(tointeger bits = none ∧ isNaN bits = true) := fun h =>
      absurd h.2 (by rw [hkey.2]; exact Bool.false_ne_true)
    rw [rawset, if_neg hnan, Value.normalize, hkey.1, hassign]
  | boolean b => exact congrArg _ hassign
  | integer i => exact congrArg _ hassign
  | string s => exact congrArg _ hassign
  | lightuserdata p => exact congrArg _ hassign
  | table layout es => exact congrArg _ hassign

end Assign

theorem Value.sameKey_comm (key : Value ρ) (key' : Value ρ') :
    key.sameKey key' = key'.sameKey key := by
  cases key <;> cases key' <;> first | rfl | exact decide_eq_decide.2 eq_comm

/-- The keys that are not tables are the same when they are equal. -/
theorem Value.eq_of_sameKey {key key' : Value ρ} (h : key.sameKey key' = true) : key = key' := by
  unfold sameKey at h
  split at h
  all_goals first
    | exact congrArg _ (of_decide_eq_true h)
    | cases h

theorem IsTable.find? {entries : List (Value ρ × Value ρ)} (h : IsTable entries)
    {e : Value ρ × Value ρ} (he : e ∈ entries) {key : Value ρ'}
    (hkey : ∀ e' ∈ entries, e'.1.sameKey key = e'.1.sameKey e.1) (hself : e.1.sameKey e.1 = true) :
    entries.find? (·.1.sameKey key) = some e := by
  obtain ⟨before, after, rfl⟩ := List.append_of_mem he
  rw [List.find?_eq_some_iff_append]
  refine ⟨(hkey e he).trans hself, before, after, rfl, fun e' he' => ?_⟩
  have hmem : e' ∈ before ++ e :: after := List.mem_append_left _ he'
  have hdistinct := (List.pairwise_append.1 h.distinct).2.2 e' he' e List.mem_cons_self
  rw [hkey e' hmem, hdistinct, Bool.not_false]

/-- A value of Lua: the tables in it have proper entries. -/
inductive WellFormed : Value ρ → Prop
  | scalar {v : Value ρ} (h : ∀ layout entries, v ≠ .table layout entries) : WellFormed v
  | table {layout : ρ} {entries : List (Value ρ × Value ρ)} (htable : IsTable entries)
      (hvalues : ∀ e ∈ entries, WellFormed e.2) : WellFormed (.table layout entries)

/-- Two values have the same structure: they are of the same kind and equal, or they are tables with
the same entries in any order. -/
inductive Same : Value ρ → Value ρ' → Prop
  | nil : Same .nil .nil
  | boolean (b : Bool) : Same (.boolean b) (.boolean b)
  | integer (i : BitVec 64) : Same (.integer i) (.integer i)
  | float (bits : BitVec 64) : Same (.float bits) (.float bits)
  | string (s : List UInt8) : Same (.string s) (.string s)
  | lightuserdata (p : BitVec 64) : Same (.lightuserdata p) (.lightuserdata p)
  | table {layout : ρ} {layout' : ρ'} {es : List (Value ρ × Value ρ)}
      {es' es'' : List (Value ρ' × Value ρ')} (hlen : es.length = es''.length)
      (hkeys : ∀ p ∈ es.zip es'', Same p.1.1 p.2.1) (hvalues : ∀ p ∈ es.zip es'', Same p.1.2 p.2.2)
      (hperm : es''.Perm es') : Same (.table layout es) (.table layout' es')

end Mtask.Lua
