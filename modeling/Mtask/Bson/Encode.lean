import Mtask.Bson.Decode
import Mtask.Lib.Decimal

/-!
# Encoding a table

The function `encode` writes the entries of a table to a buffer, in the order in which `lua_next`
visits them, and the entries of the tables in it where they are. The buffer begins on the stack with
64 bytes, and doubles when there is no room; its capacity is an `int`, which wraps around. A length
is written when the bytes behind it are there.

The layout of a table is what `lua_rawlen` returns. A userdata is given by its address. Memory is
taken to be large enough for every capacity.
-/

namespace Mtask.Bson

open Lua Lua.Value Mongo

/-- What ends `encode` without a document. -/
inductive PackFault
  | raised (message : String)
  | outOfBounds
  | running
  deriving DecidableEq, Repr

/-- `struct bson`: the bytes that have been written, `size` of them, and the capacity. -/
structure BsonWriter where
  ptr : List UInt8
  cap : ℤ
  deriving DecidableEq, Repr

abbrev Packing := EStateM PackFault BsonWriter

/-- `bson_create` -/
def bsonCreate : BsonWriter := ⟨[], 64⟩

/-- The loop of `bson_reserve`. After thirty-two rounds the capacity is zero, and remains so. -/
def doubleCap : ℕ → ℤ → ℤ → Option ℤ
  | 0, _, _ => none
  | fuel + 1, cap, need =>
    if toInt (cap * 2) ≤ need then doubleCap fuel (toInt (cap * 2)) need else some (toInt (cap * 2))

/-- `bson_reserve` -/
def bsonReserve (sz : ℤ) : Packing Unit := fun b =>
  if toInt (b.ptr.length + sz) ≤ b.cap then .ok () b
  else
    match doubleCap 32 b.cap (toInt (b.ptr.length + sz)) with
    | some cap => .ok () { b with cap }
    | none => .error .running b

/-- `memcpy(b->ptr + b->size, ..)`, and the new size. -/
def copyBytes (bytes : List UInt8) : Packing Unit := fun b =>
  if b.ptr.length + bytes.length ≤ b.cap then .ok () { b with ptr := b.ptr ++ bytes }
  else .error .outOfBounds b

/-- The bytes of an `int32_t`. -/
def int32Bytes (v : ℤ) : List UInt8 := LittleEndian.toBytes 4 (BitVec.ofInt 32 v).toNat

/-- The bytes of an `int64_t`, or of a `double`. -/
def int64Bytes (v : BitVec 64) : List UInt8 := LittleEndian.toBytes 8 v.toNat

/-- Bytes for which there is room. -/
def writeBytes (bytes : List UInt8) : Packing Unit := do
  bsonReserve (toInt bytes.length)
  copyBytes bytes

/-- `write_byte` -/
def writeByte (v : UInt8) : Packing Unit := writeBytes [v]

/-- `write_int32` -/
def writeInt32 (v : ℤ) : Packing Unit := writeBytes (int32Bytes v)

/-- `write_int64` -/
def writeInt64 (v : BitVec 64) : Packing Unit := writeBytes (int64Bytes v)

/-- `write_double` -/
def writeDouble (d : BitVec 64) : Packing Unit := writeBytes (int64Bytes d)

/-- `write_string` -/
def writeString (key : List UInt8) : Packing Unit := writeBytes (key ++ [0])

/-- `reserve_length`: the bytes of the length are written later. -/
def reserveLength : Packing ℕ := do
  let sz := (← get).ptr.length
  writeBytes (int32Bytes 0)
  return sz

/-- `write_length` -/
def writeLength (v : ℤ) (off : ℕ) : Packing Unit := fun b =>
  match Buffers.store b.ptr off (int32Bytes v) with
  | some ptr => .ok () { b with ptr }
  | none => .error .outOfBounds b

/-- `append_key` -/
def appendKey (type : UInt8) (key : List UInt8) : Packing Unit := do
  writeByte type
  writeString key

/-- `is_32bit` -/
def is32bit (v : BitVec 64) : Bool := -2 ^ 31 ≤ v.toInt && v.toInt ≤ 2 ^ 31 - 1

/-- `append_number` for an integer. -/
def appendInteger (key : List UInt8) (i : BitVec 64) : Packing Unit := do
  if is32bit i then
    appendKey BsonType.int32.code key
    writeInt32 i.toInt
  else
    appendKey BsonType.int64.code key
    writeInt64 i

/-- `append_number` for a floating-point number. -/
def appendFloat (key : List UInt8) (d : BitVec 64) : Packing Unit := do
  appendKey BsonType.real.code key
  writeDouble d

/-- `write_binary`, with the subtype as the first byte. -/
def writeBinary (buffer : List UInt8) : Packing Unit := do
  let length ← reserveLength
  writeBytes buffer
  writeLength (toInt (buffer.length - 1)) length

/-- What `append_one` does with the parts of a regular expression: the last byte is left out, and what
is behind the last zero of the others is the second string. -/
def writeRegex (str : List UInt8) : Packing Unit := do
  let options := (str.dropLast.reverse.takeWhile (· ≠ 0)).reverse
  if options.length < str.dropLast.length then
    writeString (str.take (str.dropLast.length - options.length - 1))
    writeString options
  else throw .outOfBounds

/-- A string that ends before the first zero. -/
def cstring (s : List UInt8) : String :=
  .ofList ((s.takeWhile (· ≠ 0)).map fun c => .ofNat c.toNat)

/-- The bytes of a special value behind its type. -/
def writeSpecial (subt : UInt8) (str : List UInt8) : Packing Unit := do
  match BsonType.ofCode subt with
  | some .binary => writeBinary str
  | some .objectid =>
    if str.length ≠ 12 then throw (.raised s!"Invalid object id {cstring str}")
    else writeBytes str
  | some .jscode | some .dbpointer | some .symbol | some .codews => writeBytes str
  | some .date =>
    if str.length ≠ 4 then throw (.raised "Invalid date")
    else writeInt64 (.ofNat 64 (LittleEndian.ofBytes str * 1000))
  | some .timestamp =>
    if str.length ≠ 8 then throw (.raised "Invalid timestamp")
    else
      writeInt32 (LittleEndian.ofBytes (str.take 4))
      writeInt32 (LittleEndian.ofBytes (str.drop 4))
  | some .regex => writeRegex str
  | some .minkey | some .maxkey | some .null => return
  | _ => throw (.raised s!"Invalid subtype {subt.toNat}")

/-- `append_one` for a string. -/
def appendString (key : List UInt8) : List UInt8 → Packing Unit
  | 0 :: subt :: str => do
    appendKey subt key
    writeSpecial subt str
  | str => do
    appendKey BsonType.string.code key
    let off ← reserveLength
    writeString str
    writeLength (toInt (str.length + 1)) off

/-- `append_one` for a userdata, which has this memory. -/
def appendUserdata (key doc : List UInt8) : Packing Unit := do
  appendKey BsonType.document.code key
  let sz := int32At doc 0
  if doc.length < 4 ∨ sz < 0 ∨ doc.length < sz then throw .outOfBounds
  else writeBytes (doc.take sz.toNat)

/-- `lua_typename` -/
def typename : Value ℕ → String
  | .nil => "nil"
  | .boolean _ => "boolean"
  | .integer _ | .float _ => "number"
  | .string _ => "string"
  | .lightuserdata _ => "userdata"
  | .table _ _ => "table"

/-- `lua_next`: the entries behind the one with the key. -/
def next (entries : List (Value ℕ × Value ℕ)) (key : Value ℕ) :
    Packing (List (Value ℕ × Value ℕ)) :=
  match entries.dropWhile (!·.1.sameKey key) with
  | _ :: rest => return rest
  | [] => throw (.raised "invalid key to 'next'")

/-- How `append_table` finds out whether a table is an array. -/
def tableIsArray (len : ℕ) (entries : List (Value ℕ × Value ℕ)) : Packing Bool := do
  if 0 < len then return (← next entries (.integer (.ofNat 64 len))).isEmpty
  else return false

/-- `bson_numstr`; the first thousand and twenty-four texts are in a table. -/
def bsonNumstr (i : BitVec 32) : List UInt8 := Decimal.text i.toNat

/-- `lua_tolstring` for an integer. -/
def integerText (i : BitVec 64) : List UInt8 :=
  if i.toInt < 0 then 45 :: Decimal.text i.toInt.natAbs else Decimal.text i.toInt.toNat

/-- What the values are encoded with: the texts of floating-point numbers, which `sprintf` writes, and
the memory of the userdata that is not light. -/
structure Runtime where
  numberText : BitVec 64 → List UInt8
  touserdata : BitVec 64 → Option (List UInt8)

section Pack

variable (rt : Runtime)

/-- The name of an entry. -/
def entryKey (isarray : Bool) : Value ℕ → Packing (List UInt8)
  | .integer i => return if isarray then bsonNumstr (i.setWidth 32 - 1) else integerText i
  | .float bits =>
    return if isarray then bsonNumstr (((tointeger bits).getD 0).setWidth 32 - 1)
      else rt.numberText bits
  | .string s =>
    if isarray then throw (.raised "Invalid array key type : string") else return s
  | key =>
    throw (.raised (if isarray then s!"Invalid array key type : {typename key}"
      else s!"Invalid key type : {typename key}"))

/-- `write_length(b, b->size - length, length)` -/
def writeSize (length : ℕ) : Packing Unit := do
  writeLength (toInt ((← get).ptr.length - length)) length

/-- `pack_dict`, with its loop. -/
def packDict (loop : Packing Unit) : Packing Unit := do
  let length ← reserveLength
  loop
  writeByte 0
  writeSize length

mutual

/-- `append_one` -/
def appendOne (key : List UInt8) : Value ℕ → Packing Unit
  | .integer i => appendInteger key i
  | .float bits => appendFloat key bits
  | .string s => appendString key s
  | .boolean b => do
    appendKey BsonType.boolean.code key
    writeByte (if b then 1 else 0)
  | .table len entries => do
    let isarray ← tableIsArray len entries
    appendKey (if isarray then BsonType.array else BsonType.document).code key
    packDict (packEntries isarray entries)
  | .lightuserdata p =>
    match rt.touserdata p with
    | some doc => appendUserdata key doc
    | none => throw (.raised "Invalid value type : userdata")
  | .nil => throw (.raised "Invalid value type : nil")

/-- The loop of `pack_dict`. -/
def packEntries (isarray : Bool) : List (Value ℕ × Value ℕ) → Packing Unit
  | [] => return
  | (key, value) :: entries => do
    let key ← entryKey rt isarray key
    appendOne key value
    packEntries isarray entries

end

/-- `lencode`, with the bytes of the userdata that it makes. -/
def lencode : Value ℕ → Except PackFault (List UInt8)
  | .table _ entries =>
    match packDict (packEntries rt false entries) bsonCreate with
    | .ok _ b => .ok b.ptr
    | .error fault _ => .error fault
  | value =>
    .error (.raised s!"bad argument #1 to 'encode' (table expected, got {typename value})")

end Pack

end Mtask.Bson
