import Mtask.LuaSeri.Pack

/-!
# Deserialising Lua values

The reading half of `mtask_lua_seri.c`. The sizes and the positions are of type `int` there, and so
integers here. Of a pointer into the buffer only the offset is kept; the bytes behind it are there
if they are inside the buffer.
-/

namespace Mtask.LuaSeri

open Lua Lua.Value

/-- What ends a deserialisation before its end. -/
inductive Raised
  /-- `Invalid serialize stream` -/
  | invalidStream
  | index (error : IndexError)
  /-- `luaM_toobig` in `lua_pushlstring` -/
  | tooBig
  | outOfBuffer
  | fuel
  deriving DecidableEq, Repr

/-- What was done: `rb_read` has returned a pointer, with the position and the length before; a
table was made. -/
inductive Access
  | read (ptr len sz : ℤ)
  | table (arraySize : ℤ)
  deriving DecidableEq, Repr

/-- `struct read_block`; `log` is history. -/
structure ReadBlock where
  buffer : List UInt8
  len : ℤ
  ptr : ℤ
  log : List Access

abbrev Reading := EStateM Raised ReadBlock

/-- `rball_init`; the size is an `int`. -/
def ReadBlock.init (buffer : List UInt8) : ReadBlock where
  buffer := buffer
  len := (BitVec.ofNat 32 buffer.length).toInt
  ptr := 0
  log := []

def rbRead (sz : ℤ) : Reading (Option ℤ) := fun rb =>
  if rb.len < sz then .ok none rb
  else
    .ok (some rb.ptr) { rb with
      ptr := rb.ptr + sz
      len := rb.len - sz
      log := rb.log ++ [.read rb.ptr rb.len sz] }

/-- The bytes at a pointer, `sz` as a `size_t` of them. -/
def bytesAt (ptr sz : ℤ) : Reading (List UInt8) := fun rb =>
  if 0 ≤ ptr ∧ 0 ≤ sz ∧ ptr + sz ≤ rb.buffer.length then
    .ok ((rb.buffer.drop ptr.toNat).take sz.toNat) rb
  else .error .outOfBuffer rb

/-- `sizeof(TString)` -/
def sizeofTString : ℕ := 24

/-- `rb_read`, with `invalid_stream` for a null pointer, and the use of the pointer. -/
def readBytes (sz : ℤ) : Reading (List UInt8) := do
  match ← rbRead sz with
  | none => throw .invalidStream
  | some ptr => bytesAt ptr sz

def record (access : Access) : Reading Unit := fun rb =>
  .ok () { rb with log := rb.log ++ [access] }

/-- The type byte: the type, and the cookie. -/
def splitType (byte : UInt8) : ℕ × ℕ := (byte.toNat &&& 7, byte.toNat >>> 3)

/-- The type byte of a value. -/
def readType : Reading (ℕ × ℕ) := return splitType ((← readBytes 1).headD 0)

def getInteger (cookie : ℕ) : Reading (BitVec 64) :=
  if cookie = typeNumberZero then return 0
  else if cookie = typeNumberByte then return .ofNat 64 (LittleEndian.ofBytes (← readBytes 1))
  else if cookie = typeNumberWord then return .ofNat 64 (LittleEndian.ofBytes (← readBytes 2))
  else if cookie = typeNumberDword then
    return (BitVec.ofNat 32 (LittleEndian.ofBytes (← readBytes 4))).signExtend 64
  else if cookie = typeNumberQword then return .ofNat 64 (LittleEndian.ofBytes (← readBytes 8))
  else throw .invalidStream

def getReal : Reading (BitVec 64) := return .ofNat 64 (LittleEndian.ofBytes (← readBytes 8))

def getPointer : Reading (BitVec 64) := return .ofNat 64 (LittleEndian.ofBytes (← readBytes 8))

/-- `lua_pushlstring`; a size that is not visible for Lua is refused, but the largest `size_t` is
not, as one more than it overflows. -/
def pushlstring (ptr len : ℤ) : Reading (Value Unit) :=
  let l := BitVec.ofInt 64 len
  if 2 ^ 63 - 1 - sizeofTString < (l + 1).toNat then throw .tooBig
  else return string (← bytesAt ptr l.toNat)

def getBuffer (len : ℤ) : Reading (Value Unit) := do
  match ← rbRead len with
  | none => throw .invalidStream
  | some ptr => pushlstring ptr len

/-- The entries of a table. -/
abbrev Entries := List (Value Unit × Value Unit)

def rawsetEntry (entries : Entries) (key value : Value Unit) : Reading Entries :=
  match rawset entries key value with
  | .ok entries => return entries
  | .error error => throw (.index error)

section Tables

variable (unpackOne : Reading (Value Unit))

/-- The loop of `unpack_table` over the array part, for the integer keys from `i` on. -/
def unpackArray : ℕ → ℕ → Entries → Reading Entries
  | 0, _, entries => return entries
  | n + 1, i, entries => do
    let value ← unpackOne
    unpackArray n (i + 1) (assign entries (integer (.ofNat 64 i)) value)

/-- The loop of `unpack_table` over the hash part. -/
def unpackHash : ℕ → Entries → Reading Entries
  | 0, _ => throw .fuel
  | fuel + 1, entries => do
    let key ← unpackOne
    if key.isNil then return entries
    else
      let value ← unpackOne
      unpackHash fuel (← rawsetEntry entries key value)

/-- The array size behind a type with the largest cookie. -/
def getArraySize : Reading ℤ := do
  let (type, cookie) ← readType
  if type ≠ typeNumber ∨ cookie = typeNumberReal then throw .invalidStream
  else return ((← getInteger cookie).setWidth 32).toInt

/-- The array size of a table, and `lua_createtable`. -/
def createtable (cookie : ℕ) : Reading ℤ := do
  let arraySize ← if cookie = maxCookie - 1 then getArraySize else pure (cookie : ℤ)
  record (.table arraySize)
  return arraySize

def unpackTable (fuel : ℕ) (cookie : ℕ) : Reading (Value Unit) := do
  let arraySize ← createtable cookie
  let entries ← unpackArray unpackOne arraySize.toNat 1 []
  return table () (← unpackHash unpackOne fuel entries)

def pushValue (fuel : ℕ) (type cookie : ℕ) : Reading (Value Unit) :=
  if type = typeNil then return nil
  else if type = typeBoolean then return boolean (cookie ≠ 0)
  else if type = typeNumber then
    if cookie = typeNumberReal then return float (← getReal)
    else return integer (← getInteger cookie)
  else if type = typeUserdata then return lightuserdata (← getPointer)
  else if type = typeShortString then getBuffer cookie
  else if type = typeLongString then
    if cookie = 2 then do
      let n := BitVec.ofNat 16 (LittleEndian.ofBytes (← readBytes 2))
      getBuffer n.toNat
    else if cookie ≠ 4 then throw .invalidStream
    else do
      let n := BitVec.ofNat 32 (LittleEndian.ofBytes (← readBytes 4))
      -- `get_buffer` takes an `int`
      getBuffer n.toInt
  else if type = typeTable then unpackTable unpackOne fuel cookie
  else throw .invalidStream

end Tables

def unpackOne : ℕ → Reading (Value Unit)
  | 0 => throw .fuel
  | fuel + 1 => do
    let (type, cookie) ← readType
    pushValue (unpackOne fuel) fuel type cookie

/-- The loop of `_luaseri_unpack`. -/
def unpackAll : ℕ → List (Value Unit) → Reading (List (Value Unit))
  | 0, _ => throw .fuel
  | fuel + 1, values => fun rb =>
    if rb.len < 1 then .ok values rb
    else
      (do
        let value ← unpackOne fuel
        unpackAll fuel (values ++ [value])) rb

/-- `_luaseri_unpack`; a recursion of the depth of the length is enough. -/
def unpack (buffer : List UInt8) : EStateM.Result Raised ReadBlock (List (Value Unit)) :=
  unpackAll (buffer.length + 2) [] (.init buffer)

end Mtask.LuaSeri
