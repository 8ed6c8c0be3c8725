import Mtask.Lib.Logged
import Mtask.Sproto.Access

/-!
# Loading a schema

`sproto_create` reads a schema from a bundle, which is itself encoded by sproto: an array of types
and an array of protocols. Every pass begins with the lengths that it finds in the bundle, and only
some of these are checked. What a pass relies on without a check is noted in a log.
-/

namespace Mtask.Sproto

open Outcomes

/-- `struct protocol` -/
structure Protocol where
  name : List UInt8
  tag : ℕ
  request : Option ℕ
  response : Option ℕ
  deriving DecidableEq, Repr

/-- `struct sproto`, less its memory; a pointer to a type is its index. -/
structure Schema where
  type : List TypeData
  proto : List Protocol
  deriving DecidableEq, Repr

/-- What the loader relies on: that an array or a string at an offset is inside of the bundle, that
an element that has been passed has a length that does not wrap around, and that a type that comes
with an array of fields has some. -/
inductive Trusted
  | array (i : ℕ)
  | element (i : ℕ)
  | string (i : ℕ)
  | fields (n : ℕ)
  deriving DecidableEq, Repr

/-- What can happen besides: a loop that does not end, and an access to a field that does not exist.
-/
inductive Trap
  | endless
  | noField
  deriving DecidableEq, Repr

/-- The passes of the loader; `.fail` is `NULL` or `-1`. -/
abbrev Loading (α : Type) := Logged Trusted (Stop Trap) α

variable (data : List UInt8)

/-- The loop of `struct_field` over `n` records from the `i`-th on. -/
def structFields (field : ℕ) : ℕ → ℕ → ℕ → ℕ → Run Trap Unit
  | 0, _, _, _ => .ok ()
  | n + 1, i, stream, sz => do
    let value ← toword data (field + i * sizeofField)
    if value ≠ 0 then structFields field n (i + 1) stream sz
    else if sz < sizeofLength then .error .fail
    else do
      let dsz ← toword data stream
      if sz < sizeofLength + dsz then .error .fail
      else
        structFields field n (i + 1) (stream + sizeofLength + dsz) (sz - (sizeofLength + dsz))

/-- `struct_field` -/
def structField (stream sz : ℕ) : Run Trap ℕ :=
  if sz < sizeofLength then .error .fail
  else do
    let fn ← toword data stream
    let header := sizeofHeader + sizeofField * fn
    if sz < header then .error .fail
    else do
      structFields data (stream + sizeofHeader) fn 0 (stream + header) (sz - header)
      return fn

/-- One round of the loop of `count_array`: the next values of `stream` and `length`. -/
def countRound (stream length : ℕ) : Run Trap (ℕ × ℕ) :=
  if length < sizeofLength then .error .fail
  else do
    let nsz ← todword data stream
    let nsz := (nsz + sizeofLength) % 2 ^ 32
    if length < nsz then .error .fail
    else return (stream + nsz, length - nsz)

/-- The loop of `count_array`. A round that does not change `length` does not change `stream`
either, and is followed by itself. -/
def countElements (stream length n : ℕ) : Loading ℕ :=
  if length = 0 then pure n
  else do
    let next ← .lift (countRound data stream length)
    .note (.element stream)
    if next.2 < length then countElements next.1 next.2 (n + 1)
    else .stop (.raised .endless)
termination_by length

/-- `count_array` -/
def countArray (stream : ℕ) : Loading ℕ := do
  .note (.array stream)
  let length ← .lift (todword data stream)
  countElements data (stream + sizeofLength) length 0

/-- `import_string` -/
def importString (stream : ℕ) : Loading (List UInt8) := do
  .note (.string stream)
  let sz ← .lift (todword data stream)
  .lift (get data (stream + sizeofLength) sz)

/-! ### Fields -/

/-- The members of `struct field` while it is read; `array` is the variable of this name. -/
structure FieldVars where
  tag : Option ℕ
  type : Option FieldType
  name : Option (List UInt8)
  key : Option ℕ
  array : Bool
  deriving DecidableEq, Repr

/-- `SPROTO_TINTEGER`, `SPROTO_TBOOLEAN` and `SPROTO_TSTRING` -/
def buildin : ℕ → FieldType
  | 0 => .integer
  | 1 => .boolean
  | _ => .string

/-- The `switch` of `import_field`; `none` where it returns `NULL`. -/
def FieldVars.set (typeN : ℕ) (v : FieldVars) (tag value : ℕ) : Option FieldVars :=
  match tag with
  | 1 => if 3 ≤ value then none else some { v with type := some (buildin value) }
  | 2 =>
    if typeN ≤ value then none
    else if v.type.isSome then none
    else some { v with type := some (.struct value) }
  | 3 => some { v with tag := some value }
  | 4 => some (if value ≠ 0 then { v with array := true } else v)
  | 5 => some { v with key := some value }
  | _ => none

/-- The loop of `import_field` over `n` records from the `i`-th on; `tag` has been incremented. -/
def fieldRecords (typeN stream fn : ℕ) : ℕ → ℕ → ℕ → FieldVars → Loading FieldVars
  | 0, _, _, v => pure v
  | n + 1, i, tag, v => do
    let value ← .lift (toword data (stream + sizeofField * i))
    if value % 2 = 1 then fieldRecords typeN stream fn n (i + 1) (tag + value / 2 + 1) v
    else if tag = 0 then
      if value ≠ 0 then .stop .fail
      else do
        let name ← importString data (stream + fn * sizeofField)
        fieldRecords typeN stream fn n (i + 1) (tag + 1) { v with name := some name }
    else if value = 0 then .stop .fail
    else
      match v.set typeN tag (value / 2 - 1) with
      | none => .stop .fail
      | some v => fieldRecords typeN stream fn n (i + 1) (tag + 1) v

/-- The last check of `import_field`. -/
def FieldVars.toField (v : FieldVars) : Option Field :=
  match v.tag, v.type, v.name with
  | some tag, some type, some name => some ⟨tag, type, v.array, name, v.key⟩
  | _, _, _ => none

/-- `import_field`, with the number of types; the pointer returned is behind the field. -/
def importField (typeN stream : ℕ) : Loading (Field × ℕ) := do
  let sz ← .lift (todword data stream)
  let stream := stream + sizeofLength
  let fn ← .lift (structField data stream sz)
  let v ← fieldRecords data typeN (stream + sizeofHeader) fn fn 0 0 ⟨none, none, none, none, false⟩
  match v.toField with
  | none => .stop .fail
  | some f => pure (f, stream + sz)

/-! ### Types -/

/-- The loop of `import_type` over `n` fields, with the fields and `maxn`. -/
def importFields (typeN : ℕ) : ℕ → ℕ → ℤ → ℕ → Loading (List Field × ℕ)
  | 0, _, _, maxn => pure ([], maxn)
  | n + 1, stream, last, maxn => do
    let (f, stream) ← importField data typeN stream
    if (f.tag : ℤ) ≤ last then .stop .fail
    else do
      let (fs, maxn) ←
        importFields typeN n stream f.tag (if last + 1 < f.tag then maxn + 1 else maxn)
      pure (f :: fs, maxn)

/-- The records of a type are all 0. -/
def nullRecords (stream : ℕ) : ℕ → ℕ → Loading Unit
  | 0, _ => pure ()
  | n + 1, i => do
    let v ← .lift (toword data (stream + sizeofHeader + i))
    if v ≠ 0 then .stop .fail
    else nullRecords stream n (i + sizeofField)

/-- `import_type` from the array of fields on. -/
def importTypeFields (typeN : ℕ) (name : List UInt8) (stream : ℕ) : Loading TypeData := do
  let n ← countArray data stream
  let (f, maxn) ← importFields data typeN n (stream + sizeofLength) (-1) n
  .note (.fields n)
  if n = 0 then .stop (.raised .noField)
  else pure { name, f, base := baseOf f, maxn }

/-- `import_type`, with the number of types; the pointer returned is behind the type. -/
def importType (typeN stream : ℕ) : Loading (TypeData × ℕ) := do
  let sz ← .lift (todword data stream)
  let stream := stream + sizeofLength
  let result := stream + sz
  let fn ← .lift (structField data stream sz)
  if fn = 0 ∨ 2 < fn then .stop .fail
  else do
    nullRecords data stream fn 0
    let stream := stream + sizeofHeader + fn * sizeofField
    let name ← importString data stream
    if fn = 1 then pure ({ name, f := [], base := 0, maxn := 0 }, result)
    else do
      let sz ← .lift (todword data stream)
      let t ← importTypeFields data typeN name (stream + (sz + sizeofLength) % 2 ^ 32)
      pure (t, result)

/-! ### Protocols -/

/-- The members of `struct protocol` while it is read. -/
structure ProtocolVars where
  name : Option (List UInt8)
  tag : Option ℕ
  request : Option ℕ
  response : Option ℕ
  deriving DecidableEq, Repr

/-- The `switch` of `import_protocol` less the case of the name, over the place of the record. -/
def ProtocolVars.set (typeN : ℕ) (p : ProtocolVars) (i : ℕ) (value : ℤ) : Option ProtocolVars :=
  match i with
  | 1 => if value < 0 then none else some { p with tag := some value.toNat }
  | 2 => if value < 0 ∨ typeN ≤ value then none else some { p with request := some value.toNat }
  | 3 => if value < 0 ∨ typeN ≤ value then none else some { p with response := some value.toNat }
  | _ => none

/-- The loop of `import_protocol` over `n` records from the `i`-th on. -/
def protocolRecords (typeN stream fn : ℕ) : ℕ → ℕ → ProtocolVars → Loading ProtocolVars
  | 0, _, p => pure p
  | n + 1, i, p => do
    let value ← .lift (toword data (stream + sizeofField * i))
    if value % 2 = 1 then protocolRecords typeN stream fn n (i + 1) p
    else if i = 0 then
      if value ≠ 0 then .stop .fail
      else do
        let name ← importString data (stream + sizeofField * fn)
        protocolRecords typeN stream fn n (i + 1) { p with name := some name }
    else
      match p.set typeN i ((value / 2 : ℕ) - 1) with
      | none => .stop .fail
      | some p => protocolRecords typeN stream fn n (i + 1) p

/-- The last check of `import_protocol`. -/
def ProtocolVars.toProtocol (p : ProtocolVars) : Option Protocol :=
  match p.name, p.tag with
  | some name, some tag => some ⟨name, tag, p.request, p.response⟩
  | _, _ => none

/-- `import_protocol`, with the number of types; the pointer returned is behind the protocol. When
`struct_field` has returned `-1` there is no record, and so no name. -/
def importProtocol (typeN stream : ℕ) : Loading (Protocol × ℕ) := do
  let sz ← .lift (todword data stream)
  let stream := stream + sizeofLength
  let fn ← .lift (structField data stream sz)
  let p ← protocolRecords data typeN (stream + sizeofHeader) fn fn 0 ⟨none, none, none, none⟩
  match p.toProtocol with
  | none => .stop .fail
  | some p => pure (p, stream + sz)

/-! ### The bundle -/

/-- The loop of `create_from_bundle` over the arrays from the `i`-th on: their numbers of elements,
and where these begin. -/
def bundleArrays : ℕ → ℕ → ℕ → Loading (List (ℕ × ℕ))
  | 0, _, _ => pure []
  | k + 1, i, content => do
    let value ← .lift (toword data (sizeofHeader + i * sizeofField))
    if value ≠ 0 then .stop .fail
    else do
      let n ← countArray data content
      let sz ← .lift (todword data content)
      let arrays ← bundleArrays k (i + 1) (content + (sz + sizeofLength) % 2 ^ 32)
      pure ((n, content + sizeofLength) :: arrays)

/-- The loops of `create_from_bundle` over the elements of an array. -/
def importAll {α : Type} (item : ℕ → Loading (α × ℕ)) : ℕ → ℕ → Loading (List α)
  | 0, _ => pure []
  | n + 1, stream => do
    let (a, stream) ← item stream
    let as ← importAll item n stream
    pure (a :: as)

/-- `create_from_bundle` -/
def createFromBundle : Loading Schema := do
  let fn ← .lift (structField data 0 data.length)
  if 2 < fn then .stop .fail
  else do
    let arrays ← bundleArrays data fn 0 (sizeofHeader + fn * sizeofField)
    let types := arrays[0]?.getD (0, 0)
    let protocols := arrays[1]?.getD (0, 0)
    let type ← importAll (importType data types.1) types.1 types.2
    let proto ← importAll (importProtocol data types.1) protocols.1 protocols.2
    pure { type, proto }

/-- `sproto_create`, where memory is always found. -/
def sprotoCreate : Loading Schema := createFromBundle data

end Mtask.Sproto
