import Mtask.Sproto.Access

/-!
# The decoder of sproto

`sproto_decode` reads the records of a message, and gives the value of every field that the type
knows to a callback. The callback finds a number in a variable of the decoder, and a string or a
structure in the message itself; the model stops when what it is given is not inside the message,
as it does when a byte outside is read.

The sizes that are left are of type `int`, and integers here; the length of a section is a
`uint32_t`, and sums with one are taken in 32 bits.
-/

namespace Mtask.Sproto

open Buffers LittleEndian Outcomes

/-- What `args->value` points to: a variable that holds a number, or a part of the message. -/
inductive Value
  | number (v : ℕ)
  | bytes (offset : ℕ)
  deriving DecidableEq, Repr

/-- `sproto_callback` for the decoder; an error leaves the decoder by a jump. -/
abbrev DecodeCallback (σ ε : Type) := Arg → Value → σ → Except ε (ℤ × σ)

/-- What the callback is given is inside of the message. -/
def Value.Inside (data : List UInt8) (length : ℤ) : Value → Prop
  | .number _ => True
  | .bytes offset => 0 ≤ length ∧ offset + length ≤ data.length

instance (data : List UInt8) (length : ℤ) : DecidablePred (Value.Inside data length)
  | .number _ => inferInstanceAs (Decidable True)
  | .bytes offset => inferInstanceAs (Decidable (0 ≤ length ∧ offset + length ≤ data.length))

section

variable {σ ε : Type} (data : List UInt8) (cb : DecodeCallback σ ε)

/-- A value is given to the callback. -/
def give (args : Arg) (v : Value) (s : σ) : Run ε (ℤ × σ) :=
  if v.Inside data args.length then
    match cb args v s with
    | .ok r => .ok r
    | .error e => .error (.raised e)
  else .error .outOfBounds

/-- A `uint32_t` converted to `int`. -/
def asInt (n : ℕ) : ℤ := if n < 2 ^ 31 then n else n - 2 ^ 32

/-- An `int` converted to `uint32_t`. -/
def asUint (n : ℤ) : ℕ := (n % 2 ^ 32).toNat

/-- `expand64` -/
def expand64 (v : ℕ) : ℕ := if 0x80000000 ≤ v then v + (2 ^ 64 - 2 ^ 32) else v

/-- A number of 32 bits. -/
def readNarrow (i : ℕ) : Run ε ℕ := do
  let v ← todword data i
  return expand64 v

/-- A number of 64 bits. -/
def readWide (i : ℕ) : Run ε ℕ := do
  let low ← todword data i
  let hi ← todword data (i + 4)
  return low + 2 ^ 32 * hi

/-- A boolean in an array. -/
def readByte (i : ℕ) : Run ε ℕ := do
  let bs ← get data i 1
  return ofBytes bs

/-- A number is given to the callback, whose answer does not matter. -/
def giveNumber (args : Arg) (v : ℕ) (s : σ) : Run ε σ := do
  let (_, s) ← give data cb { args with length := 8 } (.number v) s
  return s

/-- The loops of `decode_array` over `n` elements of a fixed width, from the `i`-th on. -/
def decodeElements (read : ℕ → Run ε ℕ) (args : Arg) (stream width : ℕ) :
    ℕ → ℕ → σ → Run ε σ
  | 0, _, s => .ok s
  | n + 1, i, s => do
    let v ← read (stream + i * width)
    let s ← giveNumber data cb { args with index := i + 1 } v s
    decodeElements read args stream width n (i + 1) s

/-- The variables of `decode_array_object`. -/
structure Objects (σ : Type) where
  stream : ℕ
  sz : ℤ
  index : ℕ
  s : σ

/-- One round of the loop of `decode_array_object`. -/
def objectsRound (args : Arg) (w : Objects σ) : Run ε (Round (Objects σ) (Objects σ)) :=
  if w.sz ≤ 0 then .ok (.leave w)
  else if w.sz < sizeofLength then .error .fail
  else do
    let hsz ← todword data w.stream
    let stream := w.stream + sizeofLength
    let sz := w.sz - sizeofLength
    if asUint sz < hsz then .error .fail
    else do
      let (r, s) ← give data cb { args with index := w.index, length := asInt hsz } (.bytes stream)
        w.s
      if r ≠ 0 then .error .fail
      else return .again ⟨stream + hsz, sz - hsz, w.index + 1, s⟩

theorem variant_objectsRound (args : Arg) (w : Objects σ) :
    Post (objectsRound data cb args w) (fun _ => True)
      (Loop.Keeps (fun w' => w'.sz.toNat < w.sz.toNat) fun _ => True) := by
  refine .ite (fun _ => trivial) fun h0 => .ite (fun _ => trivial) fun h4 => ?_
  refine .bind (post_todword (fun _ => trivial) (Q := fun _ => True) fun _ => trivial)
    fun hsz _ => ?_
  refine .ite (fun _ => trivial) fun _ => ?_
  refine .bind (Q := fun _ => True) ?_ fun r _ => ?_
  · refine .ite (fun _ => ?_) fun _ => trivial
    split <;> trivial
  · refine .ite (fun _ => trivial) fun _ => ?_
    rw [sizeofLength] at h4 ⊢
    simp only [post_pure, Loop.keeps_again]
    omega

/-- The loop of `decode_array_object`. -/
def objectsLoop (args : Arg) : Loop (Stop ε) (Objects σ) (Objects σ) where
  body := objectsRound data cb args
  variant := fun w => w.sz.toNat
  variant_lt := fun {w _} h => (variant_objectsRound data cb args w).of_ok h

/-- `decode_array_object` -/
def decodeArrayObject (args : Arg) (stream : ℕ) (sz : ℤ) (s : σ) : Run ε σ := do
  let w ← (objectsLoop data cb args).run ⟨stream, sz, 1, s⟩
  return w.s

/-- The branch of `decode_array` for integers. -/
def decodeIntegerArray (args : Arg) (stream sz : ℕ) (s : σ) : Run ε σ :=
  if sz < 1 then .error .fail
  else do
    let len ← readByte data stream
    let stream := stream + 1
    let sz := sz - 1
    if len = 4 then
      if sz % 4 ≠ 0 then .error .fail
      else decodeElements data cb (readNarrow data) args stream 4 (sz / 4) 0 s
    else if len = 8 then
      if sz % 8 ≠ 0 then .error .fail
      else decodeElements data cb (readWide data) args stream 8 (sz / 8) 0 s
    else .error .fail

/-- `decode_array` -/
def decodeArray (args : Arg) (stream : ℕ) (s : σ) : Run ε σ := do
  let sz ← todword data stream
  let stream := stream + sizeofLength
  match args.type with
  | .integer => decodeIntegerArray data cb args stream sz s
  | .boolean => decodeElements data cb (readByte data) args stream 1 sz 0 s
  | _ => decodeArrayObject data cb args stream (asInt sz) s

/-- The value of a field that has a section of its own, at `currentdata`. -/
def decodeSection (f : Field) (currentdata : ℕ) (s : σ) : Run ε σ :=
  let args := f.args
  if f.array then decodeArray data cb args currentdata s
  else
    match f.type with
    | .integer => do
      let sz ← todword data currentdata
      if sz = 4 then do
        let v ← readNarrow data (currentdata + sizeofLength)
        giveNumber data cb args v s
      else if sz ≠ 8 then .error .fail
      else do
        let v ← readWide data (currentdata + sizeofLength)
        giveNumber data cb args v s
    | .boolean => .error .fail
    | _ => do
      let sz ← todword data currentdata
      let (r, s) ← give data cb { args with length := asInt sz } (.bytes (currentdata + sizeofLength)) s
      if r ≠ 0 then .error .fail
      else return s

/-- The variables of `sproto_decode`. -/
structure Decoder (σ : Type) where
  tag : ℤ
  datastream : ℕ
  size : ℤ
  s : σ

/-- `datastream` is moved behind the next section. -/
def nextSection (w : Decoder σ) : Run ε (Decoder σ) :=
  if w.size < sizeofLength then .error .fail
  else do
    let sz ← todword data w.datastream
    let sz := (sz + sizeofLength) % 2 ^ 32
    if asUint w.size < sz then .error .fail
    else return { w with datastream := w.datastream + sz, size := w.size - sz }

/-- The value of a field that its record holds. -/
def decodeInline (f : Field) (v : ℕ) (s : σ) : Run ε σ :=
  if f.array = false ∧ (f.type = .integer ∨ f.type = .boolean) then
    giveNumber data cb f.args v s
  else .error .fail

variable (st : SprotoType)

/-- The loop of `sproto_decode` for the `i`-th record. -/
def decodeRecord (i : ℕ) (w : Decoder σ) : Run ε (Decoder σ) := do
  let value ← toword data (sizeofHeader + i * sizeofField)
  let w := { w with tag := w.tag + 1 }
  if value % 2 = 1 then return { w with tag := w.tag + (value / 2 : ℕ) }
  else if value = 0 then do
    let currentdata := w.datastream
    let w ← nextSection data w
    match st.findtag w.tag.toNat with
    | none => .ok w
    | some f => do
      let s ← decodeSection data cb f currentdata w.s
      return { w with s }
  else
    match st.findtag w.tag.toNat with
    | none => .ok w
    | some f => do
      let s ← decodeInline data cb f (value / 2 - 1) w.s
      return { w with s }

/-- The loop of `sproto_decode` over `n` records, from the `i`-th on. -/
def decodeRecords : ℕ → ℕ → Decoder σ → Run ε (Decoder σ)
  | 0, _, w => .ok w
  | n + 1, i, w => do
    let w ← decodeRecord data cb st i w
    decodeRecords n (i + 1) w

/-- The variables of `sproto_decode` in front of its loop, with `fn` records. -/
def startDecode (fn : ℕ) (s : σ) : Decoder σ where
  tag := -1
  datastream := sizeofHeader + fn * sizeofField
  size := data.length - sizeofHeader - fn * sizeofField
  s := s

/-- `sproto_decode`; what is returned is how much of the message has been read. -/
def sprotoDecode (s : σ) : Run ε (ℤ × σ) :=
  if data.length < sizeofHeader then .error .fail
  else do
    let fn ← toword data 0
    if (data.length : ℤ) - sizeofHeader < (fn * sizeofField : ℕ) then .error .fail
    else do
      let w ← decodeRecords data cb st fn 0 (startDecode data fn s)
      return (data.length - w.size, w.s)

end

end Mtask.Sproto
