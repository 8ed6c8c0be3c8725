import Mtask.Bson.Reader
import Mtask.Lua.Strings
import Mtask.Lua.Value

/-!
# Decoding a document

The functions `unpack_dict` and `lmakeindex` go through the elements of a document, each of which has
a type, a name, and a value of a size that depends on the type or that the value begins with. They
are written one by one for each of the functions, and do not agree on the sizes that are accepted.

A table has its entries in the order in which they have been set. The words of a number are stored
in memory with the least significant byte first. The loops and the recursion have a bound on their
rounds, and are found to be still running when that is used up.
-/

namespace Mtask.Bson

open Lua Lua.Value Mongo

/-- The types of elements that are known. -/
inductive BsonType
  | real | string | document | array | binary | objectid | boolean | date | null | regex | dbpointer
  | jscode | symbol | codews | int32 | timestamp | int64 | minkey | maxkey
  deriving DecidableEq, Repr

/-- The numbers of the types. -/
def BsonType.code : BsonType → UInt8
  | real => 1
  | string => 2
  | document => 3
  | array => 4
  | binary => 5
  | objectid => 7
  | boolean => 8
  | date => 9
  | null => 10
  | regex => 11
  | dbpointer => 12
  | jscode => 13
  | symbol => 14
  | codews => 15
  | int32 => 16
  | timestamp => 17
  | int64 => 18
  | minkey => 255
  | maxkey => 127

/-- The type with a number. -/
def BsonType.ofCode (bt : UInt8) : Option BsonType :=
  [real, string, document, array, binary, objectid, boolean, date, null, regex, dbpointer, jscode,
    symbol, codews, int32, timestamp, int64, minkey, maxkey].find? (·.code = bt)

theorem BsonType.ofCode_code (type : BsonType) : ofCode type.code = some type := by
  cases type <;> decide

/-- The error for a type that is not known. -/
def invalidType (bt : UInt8) : BsonFault :=
  .raised s!"Invalid bson type : {bt.toNat}"

/-- `make_object` -/
def makeObject (type : UInt8) (bytes : List UInt8) : Value Unit :=
  .string (0 :: type :: bytes)

/-- `strtol`, with base 10. -/
def strtol (s : List UInt8) : ℤ :=
  let s := s.dropWhile isspace
  let (sign, s) : ℤ × List UInt8 := match s with
    | 45 :: s => (-1, s)
    | 43 :: s => (1, s)
    | s => (1, s)
  let n : ℕ := (s.takeWhile isdigit).foldl (fun n c => 10 * n + (c.toNat - 48)) 0
  max (-2 ^ 63) (min (sign * n) (2 ^ 63 - 1))

/-- The entries of a table. -/
abbrev Entries := List (Value Unit × Value Unit)

/-- The loop over the elements of a document, which is written twice: what is done with the value of an
element depends on its type and its name. -/
def forElements {σ : Type} (body : BsonType → List UInt8 → σ → Reading σ) : ℕ → σ → Reading σ
  | 0, _ => throw .running
  | fuel + 1, s => do
    if (← get).size = 0 then return s
    else
      let bt ← readByte
      let key ← readCstring
      match BsonType.ofCode bt with
      | none => throw (invalidType bt)
      | some type => forElements body fuel (← body type key s)

/-! ### `unpack_dict` -/

/-- The key of an element. -/
def elementKey (array : Bool) (key : List UInt8) : Value Unit :=
  if array then .integer (.ofInt 64 (toInt (strtol key + 1))) else .string key

section Elements

variable (nested : Bool → Reading (Value Unit))

/-- The value of an element. -/
def unpackValue (type : BsonType) : Reading (Value Unit) := do
  match type with
  | .real => return .float (← readDouble)
  | .boolean => return .boolean ((← readByte) ≠ 0)
  | .string =>
    let sz ← readInt32
    if sz ≤ 0 then throw (.raised s!"Invalid bson string , length = {sz}")
    else
      let ptr ← readBytes sz
      return .string (← bytesAt ptr (sz - 1))
  | .document => nested false
  | .array => nested true
  | .binary =>
    let sz ← readInt32
    let subtype ← readByte
    let ptr ← readBytes sz
    return makeObject BsonType.binary.code (subtype :: (← bytesAt ptr sz))
  | .objectid =>
    let ptr ← readBytes 12
    return makeObject BsonType.objectid.code (← bytesAt ptr 12)
  | .date =>
    let date ← readInt64
    let v := BitVec.ofInt 32 (date.toInt.tdiv 1000)
    return makeObject BsonType.date.code (LittleEndian.toBytes 4 v.toNat)
  | .minkey | .maxkey | .null => return makeObject type.code []
  | .regex =>
    let r1 ← readCstring
    let r2 ← readCstring
    return makeObject BsonType.regex.code (r1 ++ [0] ++ r2 ++ [0])
  | .int32 => return .integer (.ofInt 64 (← readInt32))
  | .timestamp =>
    let inc ← readInt32
    let ts ← readInt32
    return makeObject BsonType.timestamp.code (LittleEndian.toBytes 4 (BitVec.ofInt 32 inc).toNat ++
      LittleEndian.toBytes 4 (BitVec.ofInt 32 ts).toNat)
  | .int64 => return .integer (← readInt64)
  | .dbpointer =>
    let ptr := (← get).ptr
    let sz ← readInt32
    let _ ← readBytes (toInt (sz + 12))
    return makeObject BsonType.dbpointer.code (← bytesAt ptr (sz + 16))
  | .jscode | .symbol =>
    let ptr := (← get).ptr
    let sz ← readInt32
    let _ ← readBytes sz
    return makeObject type.code (← bytesAt ptr (sz + 4))
  | .codews =>
    let ptr := (← get).ptr
    let sz ← readInt32
    let _ ← readBytes (toInt (sz - 4))
    return makeObject type.code (← bytesAt ptr sz)

/-- An element of a table. -/
def unpackElement (array : Bool) (type : BsonType) (key : List UInt8) (entries : Entries) :
    Reading Entries := do
  let value ← unpackValue nested type
  return assign entries (elementKey array key) value

end Elements

/-- `unpack_dict` -/
def unpackDict : ℕ → Bool → Reading (Value Unit)
  | 0, _ => throw .running
  | fuel + 1, array => do
    let sz ← readInt32
    let bytes ← readBytes (toInt (sz - 5))
    let last ← readByte
    if last ≠ 0 then throw (.raised "Invalid document end")
    else
      return .table () (← within bytes (toInt (sz - 5))
        (forElements (unpackElement (unpackDict fuel) array) fuel []))

/-- `get_length` -/
def getLength (block : List UInt8) : ℤ :=
  int32At block 0

/-- `ldecode`; a recursion of the depth of the length is enough. -/
def ldecode (block : List UInt8) : EStateM.Result BsonFault BsonReader (Value Unit) :=
  unpackDict (block.length + 1) false ⟨block, 0, getLength block⟩

/-! ### `lmakeindex` -/

/-- What `lmakeindex` does with the value of an element, with `field_size`. -/
def indexField (type : BsonType) : Reading ℕ := do
  match type with
  | .int64 | .timestamp | .date | .real => return 8
  | .boolean => return 1
  | .jscode | .symbol | .string =>
    let sz ← readInt32
    let _ ← readBytes sz
    return 0
  | .codews | .array | .document =>
    let sz ← readInt32
    let _ ← readBytes (toInt (sz - 4))
    return 0
  | .binary =>
    let sz ← readInt32
    let _ ← readBytes (toInt (sz + 1))
    return 0
  | .objectid => return 12
  | .minkey | .maxkey | .null => return 0
  | .regex =>
    let _ ← readCstring
    let _ ← readCstring
    return 0
  | .int32 => return 4
  | .dbpointer =>
    let sz ← readInt32
    let _ ← readBytes (toInt (sz + 12))
    return 0

/-- `BSON_TYPE_SHIFT` -/
def bsonTypeShift : ℕ := 5

/-- What the index has for a field: the type in the last bits, and the place in the others. -/
def fieldId (type : BsonType) (ptr : ℕ) : ℤ :=
  type.code.toNat + toInt (ptr * 2 ^ bsonTypeShift)

/-- An element of the index. -/
def indexElement (type : BsonType) (key : List UInt8) (index : Entries) : Reading Entries := do
  let fieldSize ← indexField type
  if 0 < fieldSize then
    let id := fieldId type (← get).ptr
    let _ ← readBytes fieldSize
    return assign index (.string key) (.integer (.ofInt 64 id))
  else return index

/-- `lmakeindex`, with the index that it makes. -/
def lmakeindex (block : List UInt8) : EStateM.Result BsonFault BsonReader Entries :=
  within 4 (toInt (getLength block - 5)) (forElements indexElement (block.length + 1) [])
    ⟨block, 0, 0⟩

end Mtask.Bson
