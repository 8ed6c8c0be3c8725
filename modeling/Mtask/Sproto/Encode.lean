import Mtask.Sproto.Access

/-!
# The encoder of sproto

`sproto_encode` asks a callback for the value of every field of a type. A message begins with a
header of records of two bytes, for which the largest number of records is set aside; values that a
record cannot hold go to the data section behind it, and the data section is moved down at the end
when the header has been shorter. A byte outside of the buffer stops the model.

A pointer is the offset from the start of the buffer. The sizes that are left are of type `int`, and
integers here; some comparisons take them for a `size_t`.
-/

namespace Mtask.Sproto

open Buffers LittleEndian Outcomes

/-- What a call of the callback leaves: the bytes written at `args->value`, and the size it
returns. -/
structure Reply where
  bytes : List UInt8
  ret : ℤ
  deriving DecidableEq, Repr

/-- `sproto_callback`: the state is what `args->ud` points to; an error leaves the encoder by a
jump. -/
abbrev Callback (σ ε : Type) := Arg → σ → Except ε (Reply × σ)

section

variable {σ ε : Type}

/-- An `int` converted to `size_t`. -/
def asSizeT (n : ℤ) : ℕ := (n % 2 ^ 64).toNat

/-- The callback is called. -/
def call (cb : Callback σ ε) (args : Arg) (s : σ) : Run ε (Reply × σ) :=
  match cb args s with
  | .ok r => .ok r
  | .error e => .error (.raised e)

/-- The member `u32` of the union that the callback has written to. -/
def Reply.u32 (r : Reply) : ℕ := ofBytes (r.bytes.take 4)

/-- The member `u64` of the union that the callback has written to. -/
def Reply.u64 (r : Reply) : ℕ := ofBytes (r.bytes.take 8)

/-- `fill_size` -/
def fillSize (buf : List UInt8) (data : ℕ) (sz : ℤ) : Run ε (List UInt8 × ℤ) := do
  let buf ← put buf data (toBytes 4 (sz % 2 ^ 32).toNat)
  return (buf, sz + sizeofLength)

/-- `encode_integer` -/
def encodeInteger (v : ℕ) (buf : List UInt8) (data : ℕ) (size : ℤ) :
    Run ε (List UInt8 × ℤ) :=
  if asSizeT size < sizeofLength + 4 then .error .fail
  else do
    let buf ← put buf (data + 4) (toBytes 4 v)
    fillSize buf data 4

/-- `encode_uint64` -/
def encodeUint64 (v : ℕ) (buf : List UInt8) (data : ℕ) (size : ℤ) :
    Run ε (List UInt8 × ℤ) :=
  if asSizeT size < sizeofLength + 8 then .error .fail
  else do
    let buf ← put buf (data + 4) (toBytes 8 v)
    fillSize buf data 8

/-- The length of what the callback has written: a string counts one more. -/
def contentSize (type : FieldType) (ret : ℤ) : ℤ :=
  if type = .string then ret - 1 else ret

/-- `encode_object`; the size returned is not positive when there is no object. -/
def encodeObject (cb : Callback σ ε) (args : Arg) (buf : List UInt8) (data : ℕ) (size : ℤ)
    (s : σ) : Run ε (List UInt8 × ℤ × σ) :=
  if size < sizeofLength then .error .fail
  else do
    let (r, s) ← call cb { args with length := size - sizeofLength } s
    let buf ← put buf (data + sizeofLength) r.bytes
    if r.ret ≤ 0 then return (buf, r.ret, s)
    else do
      let (buf, sz) ← fillSize buf data (contentSize args.type r.ret)
      return (buf, sz, s)

/-! ### Arrays of integers -/

/-- The upper half that `uint32_to_uint64` writes. -/
def upperHalf (negative : Bool) : List UInt8 :=
  List.replicate 4 (if negative then 0xff else 0)

@[simp] theorem length_upperHalf (negative : Bool) : (upperHalf negative).length = 4 :=
  List.length_replicate

/-- The loop that moves the elements in front of `i` apart, the last one first. -/
def rearrange (buf : List UInt8) (header : ℕ) : ℕ → Run ε (List UInt8)
  | 0 => .ok buf
  | i + 1 => do
    let v ← get buf (header + 1 + i * 4) 4
    let buf ← put buf (header + 1 + i * 8) v
    let buf ← put buf (header + 1 + i * 8 + 4) (upperHalf (0x80000000 ≤ ofBytes v))
    rearrange buf header i

/-- The variables of `encode_integer_array`; `wide` says that `intlen` is 8 and not 4. -/
structure IntArray (σ : Type) where
  buf : List UInt8
  buffer : ℕ
  size : ℤ
  wide : Bool
  index : ℕ
  s : σ

/-- `intlen` -/
def IntArray.intlen (w : IntArray σ) : ℕ := if w.wide then 8 else 4

/-- The elements in front of the first one of 64 bits are widened. -/
def IntArray.widen (header : ℕ) (w : IntArray σ) : Run ε (IntArray σ) :=
  if w.wide then .ok w
  else
    let size := w.size - ((w.index - 1) * 4 : ℕ)
    if asSizeT size < 8 then .error .fail
    else do
      let buf ← rearrange w.buf header (w.index - 1)
      return { w with buf, buffer := w.buffer + (w.index - 1) * 4, size, wide := true }

/-- `size -= intlen; buffer += intlen; index++` -/
def IntArray.next (w : IntArray σ) (buf : List UInt8) (s : σ) : IntArray σ where
  buf := buf
  buffer := w.buffer + w.intlen
  size := w.size - w.intlen
  wide := w.wide
  index := w.index + 1
  s := s

/-- The upper half of an element of 32 bits, if the elements are wide. -/
def IntArray.putUpper (w : IntArray σ) (buf : List UInt8) (v : ℕ) : Run ε (List UInt8) :=
  if w.wide then put buf (w.buffer + 4) (upperHalf (0x80000000 ≤ v)) else .ok buf

/-- An element is written. -/
def IntArray.element (header : ℕ) (w : IntArray σ) (r : Reply) (s : σ) :
    Run ε (IntArray σ) :=
  if r.ret = 4 then do
    let buf ← put w.buf w.buffer (toBytes 4 r.u32)
    let buf ← w.putUpper buf r.u32
    return w.next buf s
  else if r.ret ≠ 8 then .error .fail
  else do
    let w ← w.widen header
    let buf ← put w.buf w.buffer (toBytes 8 r.u64)
    return w.next buf s

/-- One round of the loop of `encode_integer_array`. -/
def integerRound (cb : Callback σ ε) (args : Arg) (header : ℕ) (w : IntArray σ) :
    Run ε (Round (IntArray σ) (IntArray σ)) := do
  let (r, s) ← call cb { args with length := 8, index := w.index } w.s
  if r.ret < 0 then .error .fail
  else if r.ret = 0 then return .leave { w with s }
  else if asSizeT w.size < 8 then .error .fail
  else do
    let w ← w.element header r s
    return .again w

variable {E : Stop ε → Prop}

theorem post_call {cb : Callback σ ε} {args : Arg} {s : σ} {Q : Reply × σ → Prop}
    (hE : ∀ e, cb args s = .error e → E (.raised e)) (hQ : ∀ r, cb args s = .ok r → Q r) :
    Post (call cb args s) E Q := by
  rw [call]
  cases h : cb args s with
  | ok r => exact hQ r h
  | error e => exact hE e h

/-- Moving elements apart keeps the length of the buffer. -/
theorem length_rearrange (header n : ℕ) (buf : List UInt8) :
    Post (rearrange buf header n : Run ε _) (fun _ => True)
      fun buf' => buf'.length = buf.length := by
  induction n generalizing buf with
  | zero => exact rfl
  | succ i ih =>
    refine .bind (post_get (fun _ => trivial) (Q := fun _ => True) fun _ => trivial) fun v _ => ?_
    refine .bind (post_put (fun _ => trivial) fun _ h => length_store h) fun buf₁ h₁ => ?_
    refine .bind (post_put (fun _ => trivial) fun _ h => length_store h) fun buf₂ h₂ => ?_
    exact (ih buf₂).mono (fun _ h => h) fun _ h => by rw [h, h₂, h₁]

namespace IntArray

/-- What the loop can still write. -/
def left (w : IntArray σ) : ℕ := w.buf.length - w.buffer

theorem intlen_pos (w : IntArray σ) : 4 ≤ w.intlen := by
  rw [intlen]
  split <;> decide

/-- An element is behind those that are there, and inside the buffer. -/
theorem left_element (header : ℕ) (w : IntArray σ) (r : Reply) (s : σ) :
    Post (w.element header r s : Run ε _) (fun _ => True) fun w' => w'.left < w.left := by
  rw [element]
  refine .ite (fun h4 => ?_) fun h4 => .ite (fun _ => trivial) fun h8 => ?_
  · refine .bind (Q := fun buf₁ : List UInt8 => w.buffer + (toBytes 4 r.u32).length ≤ w.buf.length ∧
      buf₁.length = w.buf.length) (post_put (fun _ => trivial) fun _ h =>
        ⟨store_le h, length_store h⟩) fun buf₁ h₁ => ?_
    refine .bind (Q := fun buf₂ : List UInt8 => buf₂.length = w.buf.length) ?_ fun buf₂ h₂ => ?_
    · rw [putUpper]
      refine .ite (fun _ => post_put (fun _ => trivial) fun _ h => ?_) fun _ => h₁.2
      rw [length_store h, h₁.2]
    · have := w.intlen_pos
      have h₀ := h₁.1
      rw [length_toBytes] at h₀
      simp only [post_pure, left, next, h₂]
      omega
  · refine .bind (Q := fun w₁ : IntArray σ => w₁.buf.length = w.buf.length ∧ w.buffer ≤ w₁.buffer) ?_
      fun w₁ h₁ => ?_
    · rw [widen]
      refine .ite (fun _ => ⟨rfl, Nat.le_refl _⟩) fun _ => .ite (fun _ => trivial) fun _ => ?_
      refine .bind (length_rearrange ..) fun buf₁ h₁ => ?_
      exact ⟨h₁, Nat.le_add_right _ _⟩
    · refine .bind (Q := fun buf₂ : List UInt8 => w₁.buffer + (toBytes 8 r.u64).length ≤ w₁.buf.length ∧
        buf₂.length = w₁.buf.length) (post_put (fun _ => trivial) fun _ h =>
          ⟨store_le h, length_store h⟩) fun buf₂ h₂ => ?_
      have := w₁.intlen_pos
      have h₀ := h₂.1
      rw [length_toBytes] at h₀
      simp only [post_pure, left, next, h₂]
      omega

end IntArray

theorem left_integerRound (cb : Callback σ ε) (args : Arg) (header : ℕ) (w : IntArray σ) :
    Post (integerRound cb args header w) (fun _ => True)
      (Loop.Keeps (fun w' => w'.left < w.left) fun _ => True) := by
  refine .bind (post_call (fun _ _ => trivial) (Q := fun _ => True) fun _ _ => trivial)
    fun r _ => ?_
  refine .ite (fun _ => trivial) fun _ => .ite (fun _ => trivial) fun _ => ?_
  refine .ite (fun _ => trivial) fun _ => ?_
  exact .bind (w.left_element header r.1 r.2) fun w' h => h

/-- The loop of `encode_integer_array`. -/
def integerLoop (cb : Callback σ ε) (args : Arg) (header : ℕ) :
    Loop (Stop ε) (IntArray σ) (IntArray σ) where
  body := integerRound cb args header
  variant := IntArray.left
  variant_lt := fun {w _} h => (left_integerRound cb args header w).of_ok h

/-- `encode_integer_array`; the pointer returned is the end of the array. -/
def encodeIntegerArray (cb : Callback σ ε) (args : Arg) (buf : List UInt8) (buffer : ℕ) (size : ℤ)
    (s : σ) : Run ε (List UInt8 × ℕ × σ) :=
  if size < 1 then .error .fail
  else do
    let w ← (integerLoop cb args buffer).run
      { buf, buffer := buffer + 1, size := size - 1, wide := false, index := 1, s }
    if w.buffer = buffer + 1 then return (w.buf, buffer, w.s)
    else do
      let buf ← put w.buf buffer [UInt8.ofNat w.intlen]
      return (buf, w.buffer, w.s)

/-! ### Other arrays -/

/-- The variables of the other two loops of `encode_array`. -/
structure Elements (σ : Type) where
  buf : List UInt8
  buffer : ℕ
  size : ℤ
  index : ℕ
  s : σ

/-- One round of the loop for booleans. -/
def booleanRound (cb : Callback σ ε) (args : Arg) (w : Elements σ) :
    Run ε (Round (Elements σ) (Elements σ)) := do
  let (r, s) ← call cb { args with length := 4, index := w.index } w.s
  if r.ret < 0 then .error .fail
  else if r.ret = 0 then return .leave { w with s }
  else if w.size < 1 then .error .fail
  else do
    let buf ← put w.buf w.buffer [if r.u32 ≠ 0 then 1 else 0]
    return .again
      { buf, buffer := w.buffer + 1, size := w.size - 1, index := w.index + 1, s }

/-- One round of the loop for strings and structures. -/
def objectRound (cb : Callback σ ε) (args : Arg) (w : Elements σ) :
    Run ε (Round (Elements σ) (Elements σ)) :=
  if w.size < sizeofLength then .error .fail
  else do
    let size := w.size - sizeofLength
    let (r, s) ← call cb { args with length := size, index := w.index } w.s
    let buf ← put w.buf (w.buffer + sizeofLength) r.bytes
    if r.ret = 0 then return .leave { w with buf, s }
    else if r.ret < 0 then .error .fail
    else do
      let sz := contentSize args.type r.ret
      let (buf, _) ← fillSize buf w.buffer sz
      return .again
        { buf, buffer := w.buffer + sizeofLength + sz.toNat, size := size - sz,
          index := w.index + 1, s }

theorem contentSize_nonneg {type : FieldType} {ret : ℤ} (h : 0 < ret) :
    0 ≤ contentSize type ret := by
  rw [contentSize]
  split <;> omega

theorem left_booleanRound (cb : Callback σ ε) (args : Arg) (w : Elements σ) :
    Post (booleanRound cb args w) (fun _ => True)
      (Loop.Keeps (fun w' => w'.size.toNat < w.size.toNat) fun _ => True) := by
  refine .bind (post_call (fun _ _ => trivial) (Q := fun _ => True) fun _ _ => trivial)
    fun r _ => ?_
  refine .ite (fun _ => trivial) fun _ => .ite (fun _ => trivial) fun _ => ?_
  refine .ite (fun _ => trivial) fun hsize => ?_
  refine .bind (post_put (fun _ => trivial) (Q := fun _ => True) fun _ _ => trivial) fun _ _ => ?_
  simp only [post_pure, Loop.keeps_again]
  omega

theorem left_objectRound (cb : Callback σ ε) (args : Arg) (w : Elements σ) :
    Post (objectRound cb args w) (fun _ => True)
      (Loop.Keeps (fun w' => w'.size.toNat < w.size.toNat) fun _ => True) := by
  rw [objectRound]
  refine .ite (fun _ => trivial) fun hsize => ?_
  refine .bind (post_call (fun _ _ => trivial) (Q := fun _ => True) fun _ _ => trivial)
    fun r _ => ?_
  refine .bind (post_put (fun _ => trivial) (Q := fun _ => True) fun _ _ => trivial) fun _ _ => ?_
  refine .ite (fun _ => trivial) fun h0 => .ite (fun _ => trivial) fun hneg => ?_
  refine .bind (Q := fun _ => True) ?_ fun _ _ => ?_
  · exact .bind (post_put (fun _ => trivial) (Q := fun _ => True) fun _ _ => trivial)
      fun _ _ => trivial
  · have : 0 ≤ contentSize args.type r.1.ret := contentSize_nonneg (by omega)
    rw [sizeofLength] at hsize ⊢
    simp only [post_pure, Loop.keeps_again]
    omega

/-- The loop of `encode_array` for booleans. -/
def booleanLoop (cb : Callback σ ε) (args : Arg) : Loop (Stop ε) (Elements σ) (Elements σ) where
  body := booleanRound cb args
  variant := fun w => w.size.toNat
  variant_lt := fun {w _} h => (left_booleanRound cb args w).of_ok h

/-- The loop of `encode_array` for strings and structures. -/
def objectLoop (cb : Callback σ ε) (args : Arg) : Loop (Stop ε) (Elements σ) (Elements σ) where
  body := objectRound cb args
  variant := fun w => w.size.toNat
  variant_lt := fun {w _} h => (left_objectRound cb args w).of_ok h

/-- The elements of an array, up to the pointer returned. -/
def encodeElements (cb : Callback σ ε) (args : Arg) (buf : List UInt8) (buffer : ℕ) (size : ℤ)
    (s : σ) : Run ε (List UInt8 × ℕ × σ) :=
  match args.type with
  | .integer => encodeIntegerArray cb args buf buffer size s
  | .boolean => do
    let w ← (booleanLoop cb args).run { buf, buffer, size, index := 1, s }
    return (w.buf, w.buffer, w.s)
  | _ => do
    let w ← (objectLoop cb args).run { buf, buffer, size, index := 1, s }
    return (w.buf, w.buffer, w.s)

/-- `encode_array` -/
def encodeArray (cb : Callback σ ε) (args : Arg) (buf : List UInt8) (data : ℕ) (size : ℤ)
    (s : σ) : Run ε (List UInt8 × ℤ × σ) :=
  if size < sizeofLength then .error .fail
  else do
    let (buf, buffer, s) ←
      encodeElements cb args buf (data + sizeofLength) (size - sizeofLength) s
    let sz := (buffer : ℤ) - (data + sizeofLength : ℕ)
    if sz = 0 then return (buf, 0, s)
    else do
      let (buf, sz) ← fillSize buf data sz
      return (buf, sz, s)

/-! ### Messages -/

/-- The variables of `sproto_encode`; `header` is 0. -/
structure Encoder (σ : Type) where
  buf : List UInt8
  data : ℕ
  size : ℤ
  index : ℕ
  lasttag : ℤ
  s : σ

/-- What a field gives: its size, not positive if it is absent, and what its record holds. -/
structure FieldData (σ : Type) where
  buf : List UInt8
  sz : ℤ
  value : ℕ
  s : σ

/-- The value of an integer or of a boolean; small ones go to the record. -/
def encodeScalar (cb : Callback σ ε) (args : Arg) (w : Encoder σ) : Run ε (FieldData σ) := do
  let (r, s) ← call cb { args with length := 8 } w.s
  if r.ret < 0 then .error .fail
  else if r.ret = 0 then return ⟨w.buf, 0, 0, s⟩
  else if r.ret = 4 then
    if r.u32 < 0x7fff then return ⟨w.buf, 2, (r.u32 + 1) * 2, s⟩
    else do
      let (buf, sz) ← encodeInteger r.u32 w.buf w.data w.size
      return ⟨buf, sz, 0, s⟩
  else if r.ret = 8 then do
    let (buf, sz) ← encodeUint64 r.u64 w.buf w.data w.size
    return ⟨buf, sz, 0, s⟩
  else .error .fail

/-- The value of a field is written to the data section. -/
def encodeValue (cb : Callback σ ε) (f : Field) (w : Encoder σ) : Run ε (FieldData σ) :=
  if f.array then do
    let (buf, sz, s) ← encodeArray cb f.args w.buf w.data w.size w.s
    return ⟨buf, sz, 0, s⟩
  else
    match f.type with
    | .integer | .boolean => encodeScalar cb f.args w
    | _ => do
      let (buf, sz, s) ← encodeObject cb f.args w.buf w.data w.size w.s
      return ⟨buf, sz, 0, s⟩

/-- The offset of a record. -/
def recordAt (index : ℕ) : ℕ := sizeofHeader + sizeofField * index

/-- The record that skips the tags in front of a field, if there are some. -/
def writeSkip (f : Field) (w : Encoder σ) : Run ε (Encoder σ) :=
  let tag : ℤ := f.tag - w.lasttag - 1
  if 0 < tag then
    let tag := (tag - 1) * 2 + 1
    if 0xffff < tag then .error .fail
    else do
      let buf ← put w.buf (recordAt w.index) (toBytes 2 tag.toNat)
      return { w with buf, index := w.index + 1 }
  else .ok w

/-- The records of a field that is present. -/
def writeRecords (f : Field) (w : Encoder σ) (value : ℕ) : Run ε (Encoder σ) := do
  let w ← writeSkip f w
  let buf ← put w.buf (recordAt w.index) (toBytes 2 value)
  return { w with buf, index := w.index + 1, lasttag := f.tag }

/-- The loop of `sproto_encode` for one field. -/
def encodeField (cb : Callback σ ε) (f : Field) (w : Encoder σ) : Run ε (Encoder σ) := do
  let v ← encodeValue cb f w
  let w := { w with buf := v.buf, s := v.s }
  if v.sz < 0 then .error .fail
  else if v.sz = 0 then return w
  else if v.value = 0 then
    writeRecords f { w with data := w.data + v.sz.toNat, size := w.size - v.sz } v.value
  else writeRecords f w v.value

/-- The loop of `sproto_encode`. -/
def encodeFields (cb : Callback σ ε) : List Field → Encoder σ → Run ε (Encoder σ)
  | [], w => .ok w
  | f :: fs, w => do
    let w ← encodeField cb f w
    encodeFields cb fs w

/-- `header_sz` -/
def SprotoType.headerSz (st : SprotoType) : ℕ := sizeofHeader + st.maxn * sizeofField

/-- The variables of `sproto_encode` in front of its loop. -/
def startEncode (st : SprotoType) (buf : List UInt8) (s : σ) : Encoder σ where
  buf := buf
  data := st.headerSz
  size := buf.length - st.headerSz
  index := 0
  lasttag := -1
  s := s

/-- The data section is moved down behind the records, if it is not there. -/
def moveData (st : SprotoType) (index datasz : ℕ) (buf : List UInt8) :
    Run ε (List UInt8) :=
  if index = st.maxn then .ok buf
  else do
    let data ← get buf st.headerSz datasz
    put buf (recordAt index) data

/-- `sproto_encode` behind its loop. -/
def finishEncode (st : SprotoType) (w : Encoder σ) : Run ε (List UInt8 × ℕ × σ) := do
  let buf ← put w.buf 0 (toBytes 2 w.index)
  let datasz := w.data - st.headerSz
  let buf ← moveData st w.index datasz buf
  return (buf, recordAt w.index + datasz, w.s)

/-- `sproto_encode`; what is returned is the size of the message, at the start of the buffer. -/
def sprotoEncode (st : SprotoType) (buf : List UInt8) (cb : Callback σ ε) (s : σ) :
    Run ε (List UInt8 × ℕ × σ) :=
  if buf.length < st.headerSz then .error .fail
  else do
    let w ← encodeFields cb st.f (startEncode st buf s)
    finishEncode st w

end

end Mtask.Sproto
