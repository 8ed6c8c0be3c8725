import Mathlib.Data.List.Infix
import Mtask.Lua.Strings

/-!
# Reading the parts of a message

The functions of `http/internal.lua`. They read a stream through `readbytes` and hand on, as `body`,
what they have read beyond their own part.
-/

namespace Mtask.Http

open Lua List

/-- What is raised. -/
inductive Error
  /-- `readbytes` has nothing more, as with `socket_error` -/
  | socket
  /-- `assertion failed!` -/
  | assertion
  /-- `attempt to concatenate a table value` -/
  | concatenate
  /-- `bad argument #2 to 'sub' (number has no integer representation)` -/
  | sub
  /-- the same of `readbytes` -/
  | readbytes

/-- What has not been read of a stream, and for each call of `readbytes` without a number how many
bytes it returns after the first one. -/
structure Reader where
  rest : Bytes
  size : ℕ → ℕ

namespace Reader

/-- `readbytes()` -/
def readbytes (r : Reader) : Except Error (Bytes × Reader) :=
  match r.rest with
  | [] => .error .socket
  | c :: rest => .ok (c :: rest.take (r.size 0), ⟨rest.drop (r.size 0), fun i => r.size (i + 1)⟩)

/-- `readbytes(n)` -/
def read (r : Reader) (n : ℕ) : Except Error (Bytes × Reader) :=
  if n ≤ r.rest.length then .ok (r.rest.take n, { r with rest := r.rest.drop n })
  else .error .socket

variable {r r' : Reader} {bytes : Bytes}

theorem readbytes_eq (h : r.readbytes = .ok (bytes, r')) : r.rest = bytes ++ r'.rest := by
  unfold readbytes at h
  split at h
  · cases h
  next heq =>
    cases h
    rw [heq, cons_append, take_append_drop]

theorem length_readbytes (h : r.readbytes = .ok (bytes, r')) : r'.rest.length < r.rest.length := by
  unfold readbytes at h
  split at h
  · cases h
  next heq =>
    cases h
    rw [heq, length_cons, length_drop]
    omega

theorem read_eq {n : ℕ} (h : r.read n = .ok (bytes, r')) :
    r.rest = bytes ++ r'.rest ∧ bytes.length = n := by
  unfold read at h
  split at h
  next hn =>
    cases h
    exact ⟨(take_append_drop n r.rest).symm, by rw [length_take]; omega⟩
  next => cases h

end Reader

/-- `"\r\n"` -/
def crlf : Bytes := [13, 10]

def LIMIT : ℕ := 8192

/-- `chunksize`; a size that is no numeral is `nil` as well. -/
def chunksize (r : Reader) (body : Bytes) : Except Error (Option (ℤ × Bytes) × Reader) :=
  match body.dropInfix? crlf with
  | some (line, body) => .ok ((tonumberBase line 16).map fun sz => (sz, body), r)
  | none =>
    if 128 < body.length then .ok (none, r)
    else
      match _h : r.readbytes with
      | .error e => .error e
      | .ok (bytes, r') => chunksize r' (body ++ bytes)
termination_by r.rest.length
decreasing_by exact Reader.length_readbytes _h

def readcrln (r : Reader) (body : Bytes) : Except Error (Option Bytes × Reader) :=
  if 2 ≤ body.length then
    if sub body 1 2 ≠ crlf then .ok (none, r) else .ok (some (sub body 3 (-1)), r)
  else
    match r.read (2 - body.length) with
    | .error e => .error e
    | .ok (bytes, r) => if body ++ bytes ≠ crlf then .ok (none, r) else .ok (some [], r)

/-- The lines that `header:gmatch("(.-)\r\n")` gives up to an empty one. -/
def headerLines (header : Bytes) : List Bytes :=
  match _h : header.dropInfix? crlf with
  | none => []
  | some (v, rest) => if v = [] then [] else v :: headerLines rest
termination_by header.length
decreasing_by
  obtain ⟨⟨d, rfl, hd⟩, -⟩ := List.dropInfix?_eq_some_iff.1 _h
  rw [eq_of_beq hd]
  simp only [List.length_append, crlf, List.length_cons]
  omega

/-- The loop of `recvheader` -/
def recvheaderLoop (r : Reader) (header : Bytes) :
    Except Error (Option (Bytes × List Bytes) × Reader) :=
  match _h : r.readbytes with
  | .error e => .error e
  | .ok (bytes, r') =>
    if LIMIT < (header ++ bytes).length then .ok (none, r')
    else
      -- `header:find("\r\n\r\n", -#bytes-3, true)`
      match ((header ++ bytes).drop ((header ++ bytes).length - (bytes.length + 3))).dropInfix?
          (crlf ++ crlf) with
      | some (_, result) => .ok (some (result, headerLines (header ++ bytes)), r')
      | none =>
        if crlf <+: header ++ bytes then .ok (some (sub (header ++ bytes) 3 (-1), []), r')
        else recvheaderLoop r' (header ++ bytes)
termination_by r.rest.length
decreasing_by exact Reader.length_readbytes _h

/-- `recvheader` with the lines that it puts into the table. -/
def recvheader (r : Reader) (header : Bytes) :
    Except Error (Option (Bytes × List Bytes) × Reader) :=
  if crlf <+: header then .ok (some (sub header 3 (-1), []), r)
  else
    match header.dropInfix? (crlf ++ crlf) with
    | some (_, result) => .ok (some (result, headerLines header), r)
    | none => recvheaderLoop r header

/-- The value of a header field: a string, or a table of strings. -/
inductive Field
  | string (v : Bytes)
  | table (vs : List Bytes)
  deriving DecidableEq

/-- The table `header` -/
abbrev Header := List (Bytes × Field)

def Header.get (header : Header) (name : Bytes) : Option Field := header.lookup name

def Header.set (header : Header) (name : Bytes) (v : Field) : Header :=
  if header.any (·.1 = name) then header.map fun e => if e.1 = name then (name, v) else e
  else header ++ [(name, v)]

/-- `line:match "^(.-):%s*(.*)"` -/
def matchField (line : Bytes) : Option (Bytes × Bytes) :=
  match doMatch [.start, .minus fun _ => true, .stop, .single (· = 58), .star isspace, .start,
      .star fun _ => true, .stop] [] [] line with
  | some [name, value] => some (name, value)
  | _ => none

/-- The loop of `parseheader` -/
def parseLines : List Bytes → Option Bytes → Header → Except Error (Option Header)
  | [], _, header => .ok (some header)
  | line :: lines, name, header =>
    if line.head? = some 9 then
      match name with
      | none => .ok none
      | some name =>
        match header.get name with
        | some (.string v) =>
          parseLines lines (some name) (header.set name (.string (v ++ sub line 2 (-1))))
        | some (.table _) | none => .error .concatenate
    else
      match matchField line with
      | none => .ok none
      | some (name, value) =>
        match header.get (lower name) with
        | some (.table vs) =>
          parseLines lines (some (lower name)) (header.set (lower name) (.table (vs ++ [value])))
        | some (.string v) =>
          parseLines lines (some (lower name)) (header.set (lower name) (.table [v, value]))
        | none => parseLines lines (some (lower name)) (header.set (lower name) (.string value))

def parseheader (lines : List Bytes) (header : Header) : Except Error (Option Header) :=
  parseLines lines none header

/-- The data of a chunk, and what comes after it. -/
def chunkdata (r : Reader) (sz : ℤ) (body : Bytes) : Except Error (Bytes × Bytes × Reader) :=
  if sz ≤ body.length then .ok (sub body 1 sz, sub body (sz + 1) (-1), r)
  else
    match r.read (sz - body.length).toNat with
    | .error e => .error e
    | .ok (bytes, r) => .ok (body ++ bytes, [], r)

section Shrinks

variable {r r' : Reader} {body body' bytes : Bytes} {sz : ℤ}

theorem length_sub_le (s : Bytes) (i j : ℤ) : (sub s i j).length ≤ s.length := by
  simp only [sub, length_drop, length_take]
  omega

theorem chunksize_shrinks (h : chunksize r body = .ok (some (sz, body'), r')) :
    body'.length + r'.rest.length < body.length + r.rest.length := by
  fun_induction chunksize r body with
  | case1 r body line rest hcut =>
    obtain ⟨⟨d, rfl, hd⟩, -⟩ := dropInfix?_eq_some_iff.1 hcut
    rw [Except.ok.injEq, Prod.mk.injEq, Option.map_eq_some_iff] at h
    obtain ⟨⟨sz, -, heq⟩, rfl⟩ := h
    cases heq
    rw [eq_of_beq hd]
    simp only [length_append, crlf, length_cons]
    omega
  | case2 => cases h
  | case3 => cases h
  | case4 r body hcut hlen bytes r₁ hread ih =>
    have hrest := congrArg List.length (Reader.readbytes_eq hread)
    have := ih h
    simp only [length_append] at hrest this
    omega

theorem readcrln_shrinks (h : readcrln r body = .ok (some body', r')) :
    body'.length + r'.rest.length ≤ body.length + r.rest.length := by
  unfold readcrln at h
  split at h
  · split at h
    · cases h
    · cases h
      have := length_sub_le body 3 (-1)
      omega
  · split at h
    · cases h
    next bytes r₁ hread =>
      have hrest := congrArg List.length (Reader.read_eq hread).1
      rw [length_append] at hrest
      split at h
      · cases h
      · cases h
        simp only [length_nil]
        omega

theorem chunkdata_shrinks (h : chunkdata r sz body = .ok (bytes, body', r')) :
    body'.length + r'.rest.length ≤ body.length + r.rest.length := by
  unfold chunkdata at h
  split at h
  · cases h
    have := length_sub_le body (sz + 1) (-1)
    omega
  · split at h
    · cases h
    next more r₁ hread =>
      cases h
      have hrest := congrArg List.length (Reader.read_eq hread).1
      rw [length_append] at hrest
      simp only [length_nil]
      omega

end Shrinks

/-- `bodylimit and size > bodylimit` -/
def exceeds (bodylimit : Option Number) (size : Number) : Bool :=
  match bodylimit with
  | none => false
  | some l => l.lt size

/-- The loop of `recvchunkedbody`: the data of all chunks, and what comes after the last one. -/
def recvchunks (r : Reader) (bodylimit : Option Number) (result : Bytes) (size : ℤ) (body : Bytes) :
    Except Error (Option (Bytes × Bytes) × Reader) :=
  match _hsize : chunksize r body with
  | .error e => .error e
  | .ok (none, r₁) => .ok (none, r₁)
  | .ok (some (sz, body₁), r₁) =>
    if sz = 0 then .ok (some (result, body₁), r₁)
    else if exceeds bodylimit (.integer (wrap (size + sz))) then .ok (none, r₁)
    else
      match _hdata : chunkdata r₁ sz body₁ with
      | .error e => .error e
      | .ok (bytes, body₂, r₂) =>
        match _hcrln : readcrln r₂ body₂ with
        | .error e => .error e
        | .ok (none, r₃) => .ok (none, r₃)
        | .ok (some body₃, r₃) =>
          recvchunks r₃ bodylimit (result ++ bytes) (wrap (size + sz)) body₃
termination_by body.length + r.rest.length
decreasing_by
  have h := chunksize_shrinks _hsize
  have h' := chunkdata_shrinks _hdata
  have h'' := readcrln_shrinks _hcrln
  omega

/-- `recvchunkedbody`: nothing, or the body and the header with the fields of the trailer. -/
def recvchunkedbody (r : Reader) (bodylimit : Option Number) (header : Header) (body : Bytes) :
    Except Error (Option (Bytes × Option Header)) :=
  match recvchunks r bodylimit [] 0 body with
  | .error e => .error e
  | .ok (none, _) => .ok none
  | .ok (some (result, body), r) =>
    match recvheader r body with
    | .error e => .error e
    | .ok (none, _) => .ok none
    | .ok (some (_, tmpline), _) =>
      match parseheader tmpline header with
      | .error e => .error e
      | .ok header => .ok (some (result, header))

end Mtask.Http
