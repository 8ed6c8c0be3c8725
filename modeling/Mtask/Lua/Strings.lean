import Mathlib.Algebra.Group.Nat.Defs
import Mathlib.Algebra.Ring.Int.Defs
import Mathlib.Data.Rat.Defs

/-!
# Strings and numbers of Lua

The parts of the string library that the scripts here use, on strings of bytes, with the character
classes of the C locale; and numbers with the conversion `tonumber`.
-/

namespace Mtask.Lua

/-- A string -/
abbrev Bytes := List UInt8

def isspace (c : UInt8) : Bool := c = 32 || 9 ≤ c && c ≤ 13

def isdigit (c : UInt8) : Bool := 48 ≤ c && c ≤ 57

def isalpha (c : UInt8) : Bool := 65 ≤ c && c ≤ 90 || 97 ≤ c && c ≤ 122

def isalnum (c : UInt8) : Bool := isalpha c || isdigit c

def toupper (c : UInt8) : UInt8 := if 97 ≤ c && c ≤ 122 then c - 32 else c

def tolower (c : UInt8) : UInt8 := if 65 ≤ c && c ≤ 90 then c + 32 else c

def lower (s : Bytes) : Bytes := s.map tolower

/-- `posrelat` -/
def posrelat (pos : ℤ) (len : ℕ) : ℤ :=
  if 0 ≤ pos then pos else if (len : ℤ) < -pos then 0 else len + pos + 1

/-- `string.sub` -/
def sub (s : Bytes) (i j : ℤ) : Bytes :=
  let first := max (posrelat i s.length) 1
  let last := min (posrelat j s.length) s.length
  (s.take last.toNat).drop (first.toNat - 1)

/-! ### Patterns -/

/-- An item of a pattern: a class of characters with its suffix, the parentheses of a capture, or
the `$` at the end. -/
inductive Item
  | single (cls : UInt8 → Bool)
  | star (cls : UInt8 → Bool)
  | plus (cls : UInt8 → Bool)
  | minus (cls : UInt8 → Bool)
  | start
  | stop
  | last

section Expand

variable {β : Type*} (cls : UInt8 → Bool) (match_ : Bytes → Option β)

/-- `max_expand`: as many as there are, and then fewer. -/
def maxExpand : Bytes → Option β
  | [] => match_ []
  | c :: s => if cls c then (maxExpand s).or (match_ (c :: s)) else match_ (c :: s)

/-- `min_expand`: one more as long as the rest does not match. -/
def minExpand : Bytes → Option β
  | [] => match_ []
  | c :: s => (match_ (c :: s)).or (if cls c then minExpand s else none)

end Expand

/-- `match` for a pattern that begins with `^`: the captures, given the start of the one that is not
closed and those that are. -/
def doMatch : List Item → Bytes → List Bytes → Bytes → Option (List Bytes)
  | [], _, captures, _ => some captures
  | .single _ :: _, _, _, [] => none
  | .single cls :: p, init, captures, c :: s => if cls c then doMatch p init captures s else none
  | .star cls :: p, init, captures, s => maxExpand cls (doMatch p init captures) s
  | .plus _ :: _, _, _, [] => none
  | .plus cls :: p, init, captures, c :: s =>
    if cls c then maxExpand cls (doMatch p init captures) s else none
  | .minus cls :: p, init, captures, s => minExpand cls (doMatch p init captures) s
  | .start :: p, _, captures, s => doMatch p s captures s
  | .stop :: p, init, captures, s =>
    doMatch p [] (captures ++ [init.take (init.length - s.length)]) s
  | .last :: _, _, captures, s => if s = [] then some captures else none

/-- A string in a pattern that has no special characters. -/
def literal (s : Bytes) : List Item := s.map fun c => .single (· = c)

/-! ### Numbers -/

/-- What a `double` that is not NaN stands for. -/
inductive Double
  | finite (x : ℚ)
  | infinite (negative : Bool)

/-- A number: an integer of 64 bits, or a float. -/
inductive Number
  | integer (i : ℤ)
  | float (x : Double)

namespace Number

/-- `luaV_lessthan` -/
def lt : Number → Number → Bool
  | .integer i, .integer j => i < j
  | .integer i, .float (.finite y) => (i : ℚ) < y
  | .float (.finite x), .integer j => x < (j : ℚ)
  | .float (.finite x), .float (.finite y) => x < y
  | .float (.infinite negative), .float (.infinite negative') => negative && !negative'
  | .float (.infinite negative), _ => negative
  | _, .float (.infinite negative) => !negative

/-- `luaL_checkinteger` for a number: a float is taken if it has an integer value. -/
def checkinteger : Number → Option ℤ
  | .integer i => some i
  | .float (.finite x) =>
    if x.den = 1 ∧ -2 ^ 63 ≤ x.num ∧ x.num < 2 ^ 63 then some x.num else none
  | .float (.infinite _) => none

end Number

/-- An integer is stored in 64 bits. -/
def wrap (i : ℤ) : ℤ := Int.bmod i (2 ^ 64)

/-- The digits of a numeral in a base of at most 36, and what follows them. -/
def digits (base : ℕ) : ℕ → Bytes → Option (ℕ × Bytes)
  | n, [] => some (n, [])
  | n, c :: s =>
    if isalnum c then
      let digit := if isdigit c then c.toNat - 48 else (toupper c).toNat - 65 + 10
      if base ≤ digit then none else digits base (n * base + digit) s
    else some (n, c :: s)

/-- An optional sign. -/
def isneg : Bytes → Bool × Bytes
  | 45 :: s => (true, s)
  | 43 :: s => (false, s)
  | s => (false, s)

theorem isneg_cons {c : UInt8} (hminus : c ≠ 45) (hplus : c ≠ 43) (s : Bytes) :
    isneg (c :: s) = (false, c :: s) :=
  isneg.eq_3 _ (fun _ h => hminus (List.cons.inj h).1) fun _ h => hplus (List.cons.inj h).1

/-- `tonumber(s, base)`, with `b_str2int` -/
def tonumberBase (s : Bytes) (base : ℕ) : Option ℤ :=
  let (neg, s) := isneg (s.dropWhile isspace)
  match s with
  | [] => none
  | c :: _ =>
    if isalnum c then
      match digits base 0 s with
      | none => none
      | some (n, s) =>
        if s.dropWhile isspace = [] then some (wrap (if neg then -n else n)) else none
    else none

def isxdigit (c : UInt8) : Bool := isdigit c || 65 ≤ c && c ≤ 70 || 97 ≤ c && c ≤ 102

/-- `luaO_hexavalue` -/
def hexavalue (c : UInt8) : ℕ := if isdigit c then c.toNat - 48 else (tolower c).toNat - 97 + 10

/-- `l_str2int` -/
def str2int (s : Bytes) : Option ℤ :=
  let (neg, s) := isneg (s.dropWhile isspace)
  let (ds, rest, a) :=
    match s with
    | 48 :: 120 :: s | 48 :: 88 :: s =>
      (s.takeWhile isxdigit, s.dropWhile isxdigit,
        (s.takeWhile isxdigit).foldl (fun a c => a * 16 + hexavalue c) 0)
    | s =>
      (s.takeWhile isdigit, s.dropWhile isdigit,
        (s.takeWhile isdigit).foldl (fun a (c : UInt8) => a * 10 + (c.toNat - 48)) 0)
  if ds = [] ∨ rest.dropWhile isspace ≠ [] then none
  else some (wrap (if neg then -(a : ℤ) else a))

/-- `tonumber(s)` for a string; `str2d` is `l_str2d`, which asks the C library. -/
def tonumber (str2d : Bytes → Option Double) (s : Bytes) : Option Number :=
  match str2int s with
  | some i => some (.integer i)
  | none => (str2d s).map .float

end Mtask.Lua
