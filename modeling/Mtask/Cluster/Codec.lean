import Mathlib.Algebra.Ring.Int.Defs
import Mtask.Lib.Framing

/-!
# The packages between the nodes of a cluster

`mtask_lua_cluster.c` packs a request or a response into one package, or into a package with the
size and the parts that follow it, and takes such packages apart. The table of a size and the parts
is put together by `concat`.

The memory of a message is the list of its bytes; a message is shorter than `2 ^ 32`.
-/

namespace Mtask.Cluster

abbrev Bytes := List UInt8

/-- `TEMP_LENGTH` -/
def tempLength : ℕ := 0x8200

/-- `MULTI_PART` -/
def multiPart : ℕ := 0x8000

/-- The errors of the functions, and what the C code must not do. -/
inductive Fault
  | invalidSession
  | nameTooLong
  | invalidMessage
  | invalidType
  /-- `assert(sz < 0x10000)` -/
  | assertion
  /-- a write behind the end of `buf` -/
  | overflow
  | outOfMemory
  deriving DecidableEq, Repr

/-- An address, which is a number of 32 bits or a string. -/
inductive Address
  | number (handle : ℕ)
  | name (name : Bytes)
  deriving DecidableEq, Repr

/-- What is unpacked as the content of a package, and what the table for `concat` holds. -/
inductive Data
  | size (n : ℕ)
  | bytes (s : Bytes)
  deriving DecidableEq, Repr

/-- The conversion to `int`. -/
def int (n : ℤ) : ℤ :=
  if 2 ^ 31 ≤ n % 2 ^ 32 then n % 2 ^ 32 - 2 ^ 32 else n % 2 ^ 32

/-- `fill_uint32` -/
def fillUint32 (n : ℕ) : Bytes :=
  (Framing.toBytes 4 n).reverse

/-- `unpack_uint32` -/
def unpackUint32 (buf : Bytes) : ℕ :=
  Framing.ofBytes (buf.take 4).reverse

/-- `fill_header`, and `lua_pushlstring` with the header and what was written behind it. -/
def pushBuffer (sz : ℕ) (bytes : Bytes) : Except Fault Bytes :=
  if 0x10000 ≤ sz then .error .assertion
  else if tempLength < 2 + bytes.length then .error .overflow
  else .ok (Framing.toBytes 2 sz ++ bytes)

/-! ### Requests -/

/-- `packreq_number`: the first package, and the number of parts that follow it. -/
def packreqNumber (addr session : ℕ) (msg : Bytes) : Except Fault (Bytes × ℕ) :=
  if msg.length < multiPart then
    (pushBuffer (msg.length + 9) (0 :: (fillUint32 addr ++ (fillUint32 session ++ msg)))).map
      fun request => (request, 0)
  else
    (pushBuffer 13
      (1 :: (fillUint32 addr ++ (fillUint32 session ++ fillUint32 msg.length)))).map
      fun request => (request, (msg.length - 1) / multiPart + 1)

/-- `packreq_string` -/
def packreqString (name : Bytes) (session : ℕ) (msg : Bytes) : Except Fault (Bytes × ℕ) :=
  if name.length < 1 ∨ 255 < name.length then .error .nameTooLong
  else if msg.length < multiPart then
    (pushBuffer (msg.length + 6 + name.length)
      (0x80 :: UInt8.ofNat name.length :: (name ++ (fillUint32 session ++ msg)))).map
      fun request => (request, 0)
  else
    (pushBuffer (10 + name.length)
      (0x81 :: UInt8.ofNat name.length ::
        (name ++ (fillUint32 session ++ fillUint32 msg.length)))).map
      fun request => (request, (msg.length - 1) / multiPart + 1)

/-- The loop over the parts of a message, for `packreq_multi` and for `lpackresponse`; `body` is
told whether the part is the last one. -/
def packParts (body : Bool → Bytes → Bytes) : ℕ → Bytes → Except Fault (List Bytes)
  | 0, _ => .ok []
  | part + 1, msg =>
    let (s, last) := if multiPart < msg.length then (multiPart, false) else (msg.length, true)
    match pushBuffer (s + 5) (body last (msg.take s)) with
    | .error e => .error e
    | .ok package =>
      match packParts body part (msg.drop s) with
      | .error e => .error e
      | .ok rest => .ok (package :: rest)

/-- A part of a request. -/
def requestPart (session : ℕ) (last : Bool) (part : Bytes) : Bytes :=
  (if last then 3 else 2) :: (fillUint32 session ++ part)

/-- `packreq_multi` -/
def packreqMulti (session : ℕ) : ℕ → Bytes → Except Fault (List Bytes) :=
  packParts (requestPart session)

/-- What `lpackrequest` returns; `padding` is `nil` for a single package. -/
structure PackedRequest where
  request : Bytes
  nextSession : ℤ
  padding : Option (List Bytes)
  deriving DecidableEq

/-- The choice of `lpackrequest`. -/
def packreq (addr : Address) (session : ℕ) (msg : Bytes) : Except Fault (Bytes × ℕ) :=
  match addr with
  | .number handle => packreqNumber handle session msg
  | .name name => packreqString name session msg

/-- The session that follows, in `lpackrequest`; behind the largest `int` it is negative, and 1 is
taken. -/
def nextSession (session : ℤ) : ℤ :=
  if int (session + 1) < 0 then 1 else int (session + 1)

/-- `lpackrequest` -/
def packrequest (addr : Address) (session : ℤ) (msg : Bytes) : Except Fault PackedRequest :=
  let session := int session
  if session ≤ 0 then .error .invalidSession
  else
    match packreq addr session.toNat msg with
    | .error e => .error e
    | .ok (request, multipak) =>
      if multipak = 0 then .ok ⟨request, nextSession session, none⟩
      else
        match packreqMulti session.toNat multipak msg with
        | .error e => .error e
        | .ok padding => .ok ⟨request, nextSession session, some padding⟩

/-- What `lunpackrequest` returns; the address of a part is `false`, here `none`, and a padding that
is `nil` is `false`. -/
structure UnpackedRequest where
  addr : Option Address
  session : ℕ
  data : Data
  padding : Bool
  deriving DecidableEq, Repr

/-- `unpackreq_number` -/
def unpackreqNumber (buf : Bytes) : Except Fault UnpackedRequest :=
  if buf.length < 9 then .error .invalidMessage
  else .ok {
    addr := some (.number (unpackUint32 (buf.drop 1)))
    session := unpackUint32 (buf.drop 5)
    data := .bytes (buf.drop 9)
    padding := false }

/-- `unpackmreq_number` -/
def unpackmreqNumber (buf : Bytes) : Except Fault UnpackedRequest :=
  if buf.length ≠ 13 then .error .invalidMessage
  else .ok {
    addr := some (.number (unpackUint32 (buf.drop 1)))
    session := unpackUint32 (buf.drop 5)
    data := .size (unpackUint32 (buf.drop 9))
    padding := true }

/-- `unpackmreq_part` -/
def unpackmreqPart (buf : Bytes) : Except Fault UnpackedRequest :=
  if buf.length < 5 then .error .invalidMessage
  else .ok {
    addr := none
    session := unpackUint32 (buf.drop 1)
    data := .bytes (buf.drop 5)
    padding := buf.headD 0 = 2 }

/-- `unpackreq_string` -/
def unpackreqString (buf : Bytes) : Except Fault UnpackedRequest :=
  if buf.length < 2 then .error .invalidMessage
  else
    let namesz := (buf.getD 1 0).toNat
    if buf.length < namesz + 6 then .error .invalidMessage
    else .ok {
      addr := some (.name ((buf.drop 2).take namesz))
      session := unpackUint32 (buf.drop (namesz + 2))
      data := .bytes (buf.drop (namesz + 6))
      padding := false }

/-- `unpackmreq_string` -/
def unpackmreqString (buf : Bytes) : Except Fault UnpackedRequest :=
  if buf.length < 2 then .error .invalidMessage
  else
    let namesz := (buf.getD 1 0).toNat
    if buf.length < namesz + 10 then .error .invalidMessage
    else .ok {
      addr := some (.name ((buf.drop 2).take namesz))
      session := unpackUint32 (buf.drop (namesz + 2))
      data := .size (unpackUint32 (buf.drop (namesz + 6)))
      padding := true }

/-- `lunpackrequest`; a string without bytes has a zero behind its end. -/
def unpackrequest (msg : Bytes) : Except Fault UnpackedRequest :=
  match msg.headD 0 with
  | 0 => unpackreqNumber msg
  | 1 => unpackmreqNumber msg
  | 2 => unpackmreqPart msg
  | 3 => unpackmreqPart msg
  | 0x80 => unpackreqString msg
  | 0x81 => unpackmreqString msg
  | _ => .error .invalidType

/-! ### Responses -/

/-- The body of a package of a response. -/
def responseBody (session : ℕ) (type : UInt8) (msg : Bytes) : Bytes :=
  fillUint32 session ++ type :: msg

/-- `lpackresponse`: one package, or a table of them, in the order in which they are written. -/
def packresponse (session : ℕ) (ok : Bool) (msg : Bytes) : Except Fault (Bytes ⊕ List Bytes) :=
  if ok ∧ multiPart < msg.length then
    let part := (msg.length - 1) / multiPart + 1
    match pushBuffer 9 (responseBody session 2 (fillUint32 msg.length)) with
    | .error e => .error e
    | .ok first =>
      match packParts (fun last => responseBody session (if last then 4 else 3)) part msg with
      | .error e => .error e
      | .ok rest => .ok (.inr (first :: rest))
  else
    let msg := if multiPart < msg.length then msg.take multiPart else msg
    (pushBuffer (msg.length + 5) (responseBody session (if ok then 1 else 0) msg)).map Sum.inl

/-- What `lunpackresponse` returns, if it returns anything. -/
structure UnpackedResponse where
  session : ℕ
  ok : Bool
  data : Data
  padding : Bool
  deriving DecidableEq, Repr

/-- The switch of `lunpackresponse`; `msg` is what is behind the type. -/
def unpackType (session : ℕ) (type : UInt8) (msg : Bytes) : Option UnpackedResponse :=
  match type with
  | 0 => some ⟨session, false, .bytes msg, false⟩
  | 1 => some ⟨session, true, .bytes msg, false⟩
  | 2 =>
    if msg.length + 5 ≠ 9 then none
    else some ⟨session, true, .size (unpackUint32 msg), true⟩
  | 3 => some ⟨session, true, .bytes msg, true⟩
  | 4 => some ⟨session, true, .bytes msg, false⟩
  | _ => none

/-- `lunpackresponse` -/
def unpackresponse (buf : Bytes) : Option UnpackedResponse :=
  if buf.length < 5 then none
  else unpackType (unpackUint32 buf) (buf.getD 4 0) (buf.drop 5)

/-! ### The table of a size and the parts -/

/-- The loop of `lconcat`, which ends at the first element that is not a string; `buff` is what has
been copied. -/
def concatLoop (sz : ℕ) (buff : Bytes) : List Data → Option Bytes
  | .bytes s :: rest =>
    if sz < s.length + buff.length then none else concatLoop sz (buff ++ s) rest
  | _ => if buff.length = sz then some buff else none

/-- `lconcat`; `none` is no result. The size is converted to `int`, and `mtask_malloc` does not come
back for one that is negative. -/
def concat : List Data → Except Fault (Option Bytes)
  | .size n :: rest =>
    if int n < 0 then .error .outOfMemory else .ok (concatLoop (int n).toNat [] rest)
  | _ => .ok none

end Mtask.Cluster
