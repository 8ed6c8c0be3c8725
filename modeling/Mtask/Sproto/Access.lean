import Mathlib.Algebra.Ring.Int.Defs
import Mtask.Lib.Buffers
import Mtask.Lib.LittleEndian
import Mtask.Lib.Outcomes
import Mtask.Sproto.Schema

/-!
# Memory accesses of sproto

What the encoder and the decoder of `sproto.c` share: the arguments of the callback, and the
accesses to a buffer. A pointer is the offset from the start of the buffer; a byte outside of the
buffer stops the model.
-/

namespace Mtask.Sproto

open Buffers LittleEndian Outcomes

/-- `SIZEOF_LENGTH` -/
def sizeofLength : ℕ := 4

/-- `SIZEOF_HEADER` -/
def sizeofHeader : ℕ := 2

/-- `SIZEOF_FIELD` -/
def sizeofField : ℕ := 2

/-- `struct sproto_arg`, less the pointers `ud` and `value`. -/
structure Arg where
  tagname : List UInt8
  tagid : ℕ
  type : FieldType
  length : ℤ
  index : ℕ
  mainindex : Option ℕ
  deriving DecidableEq, Repr

/-- The arguments of the callback for a field. -/
def Field.args (f : Field) : Arg where
  tagname := f.name
  tagid := f.tag
  type := f.type
  length := 0
  index := 0
  mainindex := f.key

/-- What ends a call before its end. -/
inductive Stop (ε : Type)
  /-- `-1` or `NULL` is returned -/
  | fail
  | outOfBounds
  | raised (e : ε)
  deriving DecidableEq, Repr

abbrev Run (ε α : Type) := Except (Stop ε) α

variable {ε : Type}

/-- Bytes are written to the buffer. -/
def put (buf : List UInt8) (i : ℕ) (bs : List UInt8) : Run ε (List UInt8) :=
  match store buf i bs with
  | some buf => .ok buf
  | none => .error .outOfBounds

/-- Bytes are read from the buffer. -/
def get (buf : List UInt8) (i n : ℕ) : Run ε (List UInt8) :=
  match load buf i n with
  | some bs => .ok bs
  | none => .error .outOfBounds

/-- `toword` -/
def toword (buf : List UInt8) (i : ℕ) : Run ε ℕ := do
  let bs ← get buf i 2
  return ofBytes bs

/-- `todword` -/
def todword (buf : List UInt8) (i : ℕ) : Run ε ℕ := do
  let bs ← get buf i 4
  return ofBytes bs

/-- The length that a section at `i` claims. -/
def sectionLength (data : List UInt8) (i : ℕ) : ℕ := ofBytes (slice data i 4)

/-! The rules of the steps: a write or a read goes through, or leaves the buffer. -/

variable {E : Stop ε → Prop}

variable {buf : List UInt8} {i : ℕ} {Q : List UInt8 → Prop}

theorem post_put {bs : List UInt8} (hE : buf.length < i + bs.length → E .outOfBounds)
    (hQ : ∀ buf', store buf i bs = some buf' → Q buf') : Post (put buf i bs : Run ε _) E Q := by
  rw [put]
  cases h : store buf i bs with
  | some buf' => exact hQ buf' h
  | none => exact hE (store_eq_none_iff.mp h)

variable {n : ℕ}

theorem post_get (hE : buf.length < i + n → E .outOfBounds)
    (hQ : i + n ≤ buf.length → Q (slice buf i n)) : Post (get buf i n : Run ε _) E Q := by
  rw [get]
  cases h : load buf i n with
  | none => exact hE (load_eq_none_iff.mp h)
  | some bs =>
    have hle : i + n ≤ buf.length := Nat.le_of_not_lt fun hlt => by
      rw [load_eq_none_iff.mpr hlt] at h
      cases h
    rw [load_eq_some hle] at h
    cases h
    exact hQ hle

theorem post_toword {Q : ℕ → Prop} (hE : buf.length < i + 2 → E .outOfBounds)
    (hQ : i + 2 ≤ buf.length → Q (ofBytes (slice buf i 2))) : Post (toword buf i : Run ε _) E Q :=
  .bind (Q := fun bs => Q (ofBytes bs)) (post_get hE hQ) fun _ h => h

theorem post_todword {Q : ℕ → Prop} (hE : buf.length < i + 4 → E .outOfBounds)
    (hQ : i + 4 ≤ buf.length → Q (ofBytes (slice buf i 4))) : Post (todword buf i : Run ε _) E Q :=
  .bind (Q := fun bs => Q (ofBytes bs)) (post_get hE hQ) fun _ h => h

/-- The call ends without an access outside of the buffer. -/
abbrev Safe {α : Type} (x : Run ε α) (Q : α → Prop) : Prop :=
  Post x (· ≠ .outOfBounds) Q

theorem safe_put {bs : List UInt8} (h : i + bs.length ≤ buf.length)
    (hQ : ∀ buf', store buf i bs = some buf' → buf'.length = buf.length → Q buf') :
    Safe (put buf i bs : Run ε _) Q :=
  post_put (fun hlt => absurd hlt (by omega)) fun buf' h' => hQ buf' h' (length_store h')

theorem safe_get (h : i + n ≤ buf.length) (hQ : Q (slice buf i n)) :
    Safe (get buf i n : Run ε _) Q :=
  post_get (fun hlt => absurd hlt (by omega)) fun _ => hQ

theorem get_eq (h : i + n ≤ buf.length) : (get buf i n : Run ε _) = .ok (slice buf i n) := by
  rw [get, load_eq_some h]

theorem get_outOfBounds (h : buf.length < i + n) :
    (get buf i n : Run ε _) = .error .outOfBounds := by
  rw [get, load_eq_none_iff.mpr h]

theorem toword_eq (h : i + 2 ≤ buf.length) :
    (toword buf i : Run ε _) = .ok (ofBytes (slice buf i 2)) := by
  rw [toword, get_eq h]
  rfl

theorem todword_eq (h : i + 4 ≤ buf.length) :
    (todword buf i : Run ε _) = .ok (ofBytes (slice buf i 4)) := by
  rw [todword, get_eq h]
  rfl

theorem todword_outOfBounds (h : buf.length < i + 4) :
    (todword buf i : Run ε _) = .error .outOfBounds := by
  rw [todword, get_outOfBounds h]
  rfl

theorem toword_of_le (h : i + 2 ≤ buf.length) :
    Post (toword buf i : Run ε _) E fun v => v = ofBytes (slice buf i 2) :=
  post_toword (fun hlt => absurd hlt (by omega)) fun _ => rfl

theorem todword_of_le (h : i + 4 ≤ buf.length) :
    Post (todword buf i : Run ε _) E fun v => v = sectionLength buf i :=
  post_todword (fun hlt => absurd hlt (by omega)) fun _ => rfl

theorem get_of_le (h : i + n ≤ buf.length) :
    Post (get buf i n : Run ε _) E fun bs => bs = slice buf i n :=
  post_get (fun hlt => absurd hlt (by omega)) fun _ => rfl

theorem ofBytes_slice_lt (buf : List UInt8) (i n : ℕ) : ofBytes (slice buf i n) < 256 ^ n :=
  Nat.lt_of_lt_of_le (ofBytes_lt _) <| Nat.pow_le_pow_right (by decide) <| by
    rw [slice, List.length_take]
    exact Nat.min_le_left _ _

end Mtask.Sproto
