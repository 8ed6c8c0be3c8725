import Mtask.Http.Internal

/-!
# Reading a request

`httpd.read_request`. The C library converts the floats among the numerals in a message.
-/

namespace Mtask.Http

open Lua

/-- What `readall` returns: a status code alone; or 200, with the header or `nil`. -/
inductive Response
  | status (code : ℕ)
  | ok (url method : Bytes) (header : Option Header) (body : Bytes)

/-- `request:match "^(%a+)%s+(.-)%s+HTTP/([%d%.]+)$"` -/
def matchRequest (request : Bytes) : Option (Bytes × Bytes × Bytes) :=
  match doMatch ([.start, .plus isalpha, .stop, .plus isspace, .start, .minus fun _ => true, .stop,
      .plus isspace] ++ literal [72, 84, 84, 80, 47] ++
      [.start, .plus fun c => isdigit c || c = 46, .stop, .last]) [] [] request with
  | some [method, url, httpver] => some (method, url, httpver)
  | _ => none

/-- The floats `1.0` and `1.1` -/
def oldest : Number := .float (.finite 1)
def newest : Number := .float (.finite (2476979795053773 / 2251799813685248))

/-- `"content-length"`, `"transfer-encoding"`, `"identity"` and `"chunked"` -/
def contentLength : Bytes := [99, 111, 110, 116, 101, 110, 116, 45, 108, 101, 110, 103, 116, 104]
def transferEncoding : Bytes :=
  [116, 114, 97, 110, 115, 102, 101, 114, 45, 101, 110, 99, 111, 100, 105, 110, 103]
def identity : Field := .string [105, 100, 101, 110, 116, 105, 116, 121]
def chunked : Field := .string [99, 104, 117, 110, 107, 101, 100]

section

variable (str2d : Bytes → Option Double)

/-- The number of bytes in the field `content-length`; for a table `tonumber` gives `nil`. -/
def lengthOf (header : Header) : Option Number :=
  match header.get contentLength with
  | some (.string s) => tonumber str2d s
  | some (.table _) | none => none

/-- `length - #body` for a length that is larger. Integers do not overflow, and floats are exact up
to `2 ^ 53`; no stream is longer. -/
def minus (length : Number) (n : ℕ) : Number :=
  match length with
  | .integer i => .integer (i - n)
  | .float (.finite x) => .float (.finite (x - n))
  | .float (.infinite negative) => .float (.infinite negative)

/-- The body in identity mode, or nothing if it is too large. -/
def identityBody (r : Reader) (bodylimit : Option Number) (header : Header) (body : Bytes) :
    Except Error (Option Bytes) :=
  match lengthOf str2d header with
  | none => .ok (some body)
  | some length =>
    if exceeds bodylimit length then .ok none
    else if (Number.integer body.length).lt length then
      match (minus length body.length).checkinteger with
      | none => .error .readbytes
      | some n =>
        match r.read n.toNat with
        | .error e => .error e
        | .ok (padding, _) => .ok (some (body ++ padding))
    else
      match length.checkinteger with
      | none => .error .sub
      | some n => .ok (some (sub body 1 n))

/-- The request line: the method, the url and the version. -/
def requestLine (tmpline : List Bytes) : Except Error (Bytes × Bytes × Number) :=
  match tmpline with
  | [] => .error .assertion
  | request :: _ =>
    match matchRequest request with
    | none => .error .assertion
    | some (method, url, httpver) =>
      match tonumber str2d httpver with
      | none => .error .assertion
      | some httpver => .ok (method, url, httpver)

/-- The part of `readall` behind the header. -/
def readbody (r : Reader) (bodylimit : Option Number) (url method : Bytes) (header : Header)
    (body : Bytes) : Except Error Response :=
  let mode := header.get transferEncoding
  if mode ≠ none ∧ mode ≠ some identity ∧ mode ≠ some chunked then .ok (.status 501)
  else if mode = some chunked then
    match recvchunkedbody r bodylimit header body with
    | .error e => .error e
    | .ok none => .ok (.status 413)
    | .ok (some (body, header)) => .ok (.ok url method header body)
  else
    match identityBody str2d r bodylimit header body with
    | .error e => .error e
    | .ok none => .ok (.status 413)
    | .ok (some body) => .ok (.ok url method (some header) body)

/-- `readall` -/
def readall (r : Reader) (bodylimit : Option Number) : Except Error Response :=
  match recvheader r [] with
  | .error e => .error e
  | .ok (none, _) => .ok (.status 413)
  | .ok (some (body, tmpline), r) =>
    match requestLine str2d tmpline with
    | .error e => .error e
    | .ok (method, url, httpver) =>
      if httpver.lt oldest || newest.lt httpver then .ok (.status 505)
      else
        match parseheader tmpline.tail [] with
        | .error e => .error e
        | .ok none => .ok (.status 400)
        | .ok (some header) => readbody str2d r bodylimit url method header body

/-- `httpd.read_request`, which gives `nil` and what was raised in place of an error. -/
def readRequest (r : Reader) (bodylimit : Option Number) : Except Error Response :=
  readall str2d r bodylimit

end

end Mtask.Http
