import Mtask.LuaSeri.Unpack

/-!
# The format, as a reader of lists

What a buffer stands for, by a reader with no positions: it takes bytes from a list, its sizes are
natural numbers, and it stops at a size that an `int` does not have.
-/

namespace Mtask.LuaSeri

open Lua Lua.Value

/-- How the reader stops before the end. -/
inductive Stop
  | invalid
  | index (error : IndexError)
  /-- the size of a string or of an array is not an `int`, or negative as one -/
  | oversized
  | fuel
  deriving DecidableEq, Repr

abbrev Decoding := StateT (List UInt8) (Except Stop)

/-- The next bytes. -/
def next (n : ℕ) : Decoding (List UInt8) := fun bytes =>
  if bytes.length < n then .error .invalid else .ok (bytes.take n, bytes.drop n)

/-- A type byte. -/
def decodeType : Decoding (ℕ × ℕ) := return splitType ((← next 1).headD 0)

def decodeInteger (cookie : ℕ) : Decoding (BitVec 64) :=
  if cookie = typeNumberZero then return 0
  else if cookie = typeNumberByte then return .ofNat 64 (LittleEndian.ofBytes (← next 1))
  else if cookie = typeNumberWord then return .ofNat 64 (LittleEndian.ofBytes (← next 2))
  else if cookie = typeNumberDword then
    return (BitVec.ofNat 32 (LittleEndian.ofBytes (← next 4))).signExtend 64
  else if cookie = typeNumberQword then return .ofNat 64 (LittleEndian.ofBytes (← next 8))
  else throw .invalid

/-- A floating-point number, or a pointer. -/
def decodeWord : Decoding (BitVec 64) := return .ofNat 64 (LittleEndian.ofBytes (← next 8))

/-- A string of the given size. -/
def decodeString (n : ℕ) : Decoding (Value Unit) :=
  if n < 2 ^ 31 then return string (← next n) else throw .oversized

/-- An array size that is given by an integer. -/
def checkSize (v : BitVec 64) : Decoding ℤ :=
  if (v.setWidth 32).toNat < 2 ^ 31 then return (v.setWidth 32).toNat else throw .oversized

def decodeArraySize (cookie : ℕ) : Decoding ℤ :=
  if cookie = maxCookie - 1 then do
    let (type, cookie) ← decodeType
    if type ≠ typeNumber ∨ cookie = typeNumberReal then throw .invalid
    else checkSize (← decodeInteger cookie)
  else return cookie

def decodeEntry (entries : Entries) (key value : Value Unit) : Decoding Entries :=
  match rawset entries key value with
  | .ok entries => return entries
  | .error error => throw (.index error)

section Tables

variable (decodeOne : Decoding (Value Unit))

def decodeArray : ℕ → ℕ → Entries → Decoding Entries
  | 0, _, entries => return entries
  | n + 1, i, entries => do
    let value ← decodeOne
    decodeArray n (i + 1) (assign entries (integer (.ofNat 64 i)) value)

def decodeHash : ℕ → Entries → Decoding Entries
  | 0, _ => throw .fuel
  | fuel + 1, entries => do
    let key ← decodeOne
    if key.isNil then return entries
    else
      let value ← decodeOne
      decodeHash fuel (← decodeEntry entries key value)

def decodeTable (fuel : ℕ) (cookie : ℕ) : Decoding (Value Unit) := do
  let arraySize ← decodeArraySize cookie
  let entries ← decodeArray decodeOne arraySize.toNat 1 []
  return table () (← decodeHash decodeOne fuel entries)

/-- A value behind its type byte. -/
def decodeValue (fuel : ℕ) (type cookie : ℕ) : Decoding (Value Unit) :=
  if type = typeNil then return nil
  else if type = typeBoolean then return boolean (cookie ≠ 0)
  else if type = typeNumber then
    if cookie = typeNumberReal then return float (← decodeWord)
    else return integer (← decodeInteger cookie)
  else if type = typeUserdata then return lightuserdata (← decodeWord)
  else if type = typeShortString then decodeString cookie
  else if type = typeLongString then
    if cookie = 2 then do decodeString (BitVec.ofNat 16 (LittleEndian.ofBytes (← next 2))).toNat
    else if cookie ≠ 4 then throw .invalid
    else do decodeString (BitVec.ofNat 32 (LittleEndian.ofBytes (← next 4))).toNat
  else if type = typeTable then decodeTable decodeOne fuel cookie
  else throw .invalid

end Tables

def decodeOne : ℕ → Decoding (Value Unit)
  | 0 => throw .fuel
  | fuel + 1 => do
    let (type, cookie) ← decodeType
    decodeValue (decodeOne fuel) fuel type cookie

def decodeAll : ℕ → List (Value Unit) → Decoding (List (Value Unit))
  | 0, _ => throw .fuel
  | fuel + 1, values => fun bytes =>
    if bytes.length < 1 then .ok (values, bytes)
    else
      (do
        let value ← decodeOne fuel
        decodeAll fuel (values ++ [value])) bytes

/-- The values in a buffer. -/
def decode (buffer : List UInt8) : Except Stop (List (Value Unit) × List UInt8) :=
  decodeAll (buffer.length + 2) [] buffer

/-! ### The end of the recursion -/

/-- With fewer bytes than `fuel`, the reader does not run out of fuel, and it takes at least `k`
bytes. -/
def Shrinks {α : Type} (k fuel : ℕ) (d : Decoding α) : Prop :=
  ∀ bytes : List UInt8, bytes.length < fuel →
    d bytes ≠ .error .fuel ∧ ∀ a rest, d bytes = .ok (a, rest) → rest.length + k ≤ bytes.length

namespace Shrinks

variable {α β : Type} {d : Decoding α} {g : α → Decoding β} {k k' fuel fuel' : ℕ}

theorem pure (a : α) : Shrinks 0 fuel (pure a : Decoding α) := by
  intro bytes _
  refine ⟨nofun, fun b rest heq => ?_⟩
  cases heq
  exact Nat.le_refl _

theorem throw {stop : Stop} (h : stop ≠ .fuel) : Shrinks k fuel (throw stop : Decoding α) := by
  intro bytes _
  refine ⟨fun heq => h (Except.error.inj heq), nofun⟩

theorem bind (hd : Shrinks k fuel d) (hg : ∀ a, Shrinks k' fuel' (g a)) (hfuel : fuel ≤ fuel' + k) :
    Shrinks (k + k') fuel (d >>= g) := by
  intro bytes hlt
  obtain ⟨hne, hok⟩ := hd bytes hlt
  have hbind : (d >>= g) bytes = (d bytes >>= fun p => g p.1 p.2) := rfl
  rw [hbind]
  cases hcase : d bytes with
  | error stop =>
    rw [hcase] at hne
    refine ⟨fun heq => hne ?_, nofun⟩
    exact congrArg Except.error (Except.error.inj heq)
  | ok p =>
    have hle := hok p.1 p.2 hcase
    obtain ⟨hne', hok'⟩ := hg p.1 p.2 (by omega)
    refine ⟨hne', fun a rest heq => ?_⟩
    have := hok' a rest heq
    omega

theorem mono (hd : Shrinks k fuel d) (hk : k' ≤ k) (hfuel : fuel' ≤ fuel) : Shrinks k' fuel' d := by
  intro bytes hlt
  obtain ⟨hne, hok⟩ := hd bytes (by omega)
  refine ⟨hne, fun a rest heq => ?_⟩
  have := hok a rest heq
  omega

theorem map {f : α → β} (hd : Shrinks k fuel d) : Shrinks k fuel (do return f (← d)) :=
  hd.bind (fun a => pure (f a)) (Nat.le_add_right _ _)

theorem next (n : ℕ) : Shrinks n fuel (LuaSeri.next n) := by
  intro bytes _
  unfold LuaSeri.next
  split
  · exact ⟨nofun, nofun⟩
  · refine ⟨nofun, fun a rest heq => ?_⟩
    cases heq
    rw [List.length_drop]
    omega

end Shrinks

variable {fuel : ℕ}

theorem shrinks_decodeType : Shrinks 1 fuel decodeType := (Shrinks.next 1).map

theorem shrinks_decodeInteger (cookie : ℕ) : Shrinks 0 fuel (decodeInteger cookie) := by
  have hread (n : ℕ) (f : List UInt8 → BitVec 64) : Shrinks 0 fuel (do return f (← next n)) :=
    (Shrinks.next n).map.mono (Nat.zero_le n) (Nat.le_refl fuel)
  unfold decodeInteger
  split_ifs
  · exact .pure 0
  · exact hread 1 _
  · exact hread 2 _
  · exact hread 4 _
  · exact hread 8 _
  · exact .throw nofun

theorem shrinks_decodeWord : Shrinks 0 fuel decodeWord :=
  (Shrinks.next 8).map.mono (Nat.zero_le 8) (Nat.le_refl fuel)

theorem shrinks_decodeString (n : ℕ) : Shrinks 0 fuel (decodeString n) := by
  unfold decodeString
  split
  · exact (Shrinks.next n).map.mono (Nat.zero_le n) (Nat.le_refl fuel)
  · exact .throw nofun

theorem shrinks_checkSize (v : BitVec 64) : Shrinks 0 fuel (checkSize v) := by
  unfold checkSize
  split
  · exact .pure _
  · exact .throw nofun

theorem shrinks_decodeArraySize (cookie : ℕ) : Shrinks 0 fuel (decodeArraySize cookie) := by
  unfold decodeArraySize
  split
  · refine Shrinks.mono (k := 1 + 0) (shrinks_decodeType.bind (fun p => ?_)
      (Nat.le_add_right _ _)) (Nat.zero_le _) (Nat.le_refl fuel)
    obtain ⟨type, cookie⟩ := p
    by_cases hcond : type ≠ typeNumber ∨ cookie = typeNumberReal
    · simp only [if_pos hcond]
      exact .throw nofun
    · simp only [if_neg hcond]
      exact (shrinks_decodeInteger cookie).bind shrinks_checkSize (Nat.le_refl _)
  · exact .pure _

theorem shrinks_decodeEntry (entries : Entries) (key value : Value Unit) :
    Shrinks 0 fuel (decodeEntry entries key value) := by
  unfold decodeEntry
  split
  · exact .pure _
  · exact .throw nofun

section Tables

variable {one : Decoding (Value Unit)}

section

variable (hone : Shrinks 1 fuel one)
include hone

theorem shrinks_decodeArray (n i : ℕ) (entries : Entries) :
    Shrinks 0 fuel (decodeArray one n i entries) := by
  induction n generalizing i entries with
  | zero => exact .pure _
  | succ n ih =>
    exact (hone.bind (fun value => ih (i + 1) _) (Nat.le_add_right _ _)).mono (Nat.zero_le _)
      (Nat.le_refl fuel)

/-- Every entry takes a byte, and so there are fewer entries than bytes. -/
theorem shrinks_decodeHash {left : ℕ} (hleft : left ≤ fuel) (entries : Entries) :
    Shrinks 0 left (decodeHash one left entries) := by
  induction left generalizing entries with
  | zero => exact fun bytes hlt => absurd hlt (Nat.not_lt_zero _)
  | succ left ih =>
    have hfirst : Shrinks 1 (left + 1) one := hone.mono (Nat.le_refl _) hleft
    refine Shrinks.mono (k := 1 + 0) (hfirst.bind (fun key => ?_) (Nat.le_refl _))
      (Nat.zero_le _) (Nat.le_refl _)
    by_cases hnil : key.isNil = true
    · simp only [if_pos hnil]
      exact .pure _
    · simp only [if_neg hnil]
      have hsecond : Shrinks 0 left one := hone.mono (Nat.zero_le _) (by omega)
      exact hsecond.bind (fun value =>
        (shrinks_decodeEntry entries key value).bind (ih (by omega))
          (Nat.le_refl _)) (Nat.le_refl _)

theorem shrinks_decodeTable (cookie : ℕ) : Shrinks 0 fuel (decodeTable one fuel cookie) :=
  (shrinks_decodeArraySize cookie).bind (fun arraySize =>
    (shrinks_decodeArray hone arraySize.toNat 1 []).bind
      (fun entries => (shrinks_decodeHash hone (Nat.le_refl fuel) entries).map)
      (Nat.le_refl _)) (Nat.le_refl _)

theorem shrinks_decodeValue (type cookie : ℕ) :
    Shrinks 0 fuel (decodeValue one fuel type cookie) := by
  have hlong (n w : ℕ) : Shrinks 0 fuel (do
      decodeString (BitVec.ofNat w (LittleEndian.ofBytes (← next n))).toNat) :=
    ((Shrinks.next n).bind (fun bytes => shrinks_decodeString _)
      (Nat.le_add_right _ _)).mono (Nat.zero_le _) (Nat.le_refl fuel)
  unfold decodeValue
  split_ifs
  · exact .pure _
  · exact .pure _
  · exact shrinks_decodeWord.map
  · exact (shrinks_decodeInteger cookie).map
  · exact shrinks_decodeWord.map
  · exact shrinks_decodeString cookie
  · exact hlong 2 16
  · exact .throw nofun
  · exact hlong 4 32
  · exact shrinks_decodeTable hone cookie
  · exact .throw nofun

end

end Tables

/-- The nesting of tables is bounded by the number of bytes. -/
theorem shrinks_decodeOne (fuel : ℕ) : Shrinks 1 fuel (decodeOne fuel) := by
  induction fuel with
  | zero => exact fun bytes hlt => absurd hlt (Nat.not_lt_zero _)
  | succ fuel ih =>
    exact shrinks_decodeType.bind
      (fun p => shrinks_decodeValue ih p.1 p.2) (Nat.le_refl _)

theorem shrinks_decodeAll (fuel : ℕ) (values : List (Value Unit)) :
    Shrinks 0 (fuel - 1) (decodeAll fuel values) := by
  induction fuel generalizing values with
  | zero => exact fun bytes hlt => absurd hlt (Nat.not_lt_zero _)
  | succ fuel ih =>
    intro bytes hlt
    unfold decodeAll
    split
    · refine ⟨nofun, fun a rest heq => ?_⟩
      cases heq
      exact Nat.le_refl _
    · have hall : Shrinks 0 fuel (do
          let value ← decodeOne fuel
          decodeAll fuel (values ++ [value])) :=
        ((shrinks_decodeOne fuel).bind (fun value => ih _) (by omega)).mono
          (Nat.zero_le _) (Nat.le_refl fuel)
      exact hall bytes hlt

theorem decode_ne_fuel (buffer : List UInt8) : decode buffer ≠ .error .fuel :=
  (shrinks_decodeAll (buffer.length + 2) [] buffer (by omega)).1

end Mtask.LuaSeri
