import Mathlib.Data.List.TakeDrop

/-!
# Buffers of a fixed size

A buffer is the list of its bytes. A store writes some bytes at an offset, and is refused when one
of them would fall outside; a load reads some bytes under the same condition.

## Main definitions

* `slice`: the bytes of a range.
* `store`, `load`: writing and reading with bounds.

## Main results

* `slice_store_self`, `slice_store_of_le`, `slice_store_of_ge`: what a
  store changes.
* `slice_append_slice`: neighbouring ranges.
-/

namespace Buffers

open List

/-- The bytes of the range of length `n` from `i` on. -/
def slice (buf : List UInt8) (i n : ℕ) : List UInt8 :=
  (buf.drop i).take n

/-- The buffer with `bs` written from `i` on, unless this leaves it. -/
def store (buf : List UInt8) (i : ℕ) (bs : List UInt8) : Option (List UInt8) :=
  if i + bs.length ≤ buf.length then some (buf.take i ++ bs ++ buf.drop (i + bs.length)) else none

/-- The `n` bytes from `i` on, unless this leaves the buffer. -/
def load (buf : List UInt8) (i n : ℕ) : Option (List UInt8) :=
  if i + n ≤ buf.length then some (slice buf i n) else none

variable {buf buf' bs : List UInt8} {i j m n : ℕ}

theorem store_eq_none_iff : store buf i bs = none ↔ buf.length < i + bs.length := by
  simp [store]

theorem store_isSome (h : i + bs.length ≤ buf.length) : (store buf i bs).isSome := by
  simp [store, h]

theorem store_le (h : store buf i bs = some buf') : i + bs.length ≤ buf.length := by
  by_contra hlt
  simp [store, hlt] at h

theorem store_eq (h : store buf i bs = some buf') :
    buf' = buf.take i ++ bs ++ buf.drop (i + bs.length) := by
  rw [store, if_pos (store_le h)] at h
  exact (Option.some.inj h).symm

theorem length_store (h : store buf i bs = some buf') : buf'.length = buf.length := by
  have hle := store_le h
  rw [store_eq h]
  simp only [length_append, length_take, length_drop]
  omega

theorem load_eq_some (h : i + n ≤ buf.length) : load buf i n = some (slice buf i n) := if_pos h

theorem load_eq_none_iff : load buf i n = none ↔ buf.length < i + n := by
  simp [load]

theorem length_slice (h : i + n ≤ buf.length) : (slice buf i n).length = n := by
  rw [slice, length_take, length_drop]
  omega

theorem slice_append_slice : slice buf i m ++ slice buf (i + m) n = slice buf i (m + n) := by
  rw [slice, slice, slice, take_add, drop_drop]

theorem slice_slice (h : j + m ≤ n) : slice (slice buf i n) j m = slice buf (i + j) m := by
  rw [slice, slice, slice, drop_take, drop_drop, take_take, Nat.min_eq_left (by omega)]

theorem drop_slice : (slice buf i n).drop j = slice buf (i + j) (n - j) := by
  rw [slice, slice, drop_take, drop_drop]

theorem slice_self : slice buf 0 buf.length = buf := by
  rw [slice, drop_zero, take_length]

theorem slice_store_self (h : store buf i bs = some buf') : slice buf' i bs.length = bs := by
  have hle := store_le h
  have hi : (buf.take i).length = i := length_take_of_le (by omega)
  rw [store_eq h, slice, append_assoc, drop_append_of_le_length (by omega), ← hi,
    drop_take_self]
  simp

/-- Bytes are stored in the place of as many others. -/
theorem store_middle {before old after new : List UInt8} (h : new.length = old.length) :
    store (before ++ old ++ after) before.length new = some (before ++ new ++ after) := by
  have hle : before.length + new.length ≤ (before ++ old ++ after).length := by
    simp only [length_append, h]
    omega
  have hdrop : (before ++ old ++ after).drop (before.length + new.length) = after := by
    rw [h, ← length_append]
    exact drop_left
  rw [store, if_pos hle, hdrop, append_assoc before, take_left]

/-- What is in front of the stored bytes stays. -/
theorem slice_store_of_le (h : store buf i bs = some buf') (hle : j + n ≤ i) :
    slice buf' j n = slice buf j n := by
  have hs := store_le h
  have hi : (buf.take i).length = i := length_take_of_le (by omega)
  rw [store_eq h, slice, slice, append_assoc, drop_append_of_le_length (by omega),
    take_append_of_le_length (by rw [length_drop]; omega), drop_take,
    take_take, Nat.min_eq_left (by omega)]

theorem slice_store_of_ge (h : store buf i bs = some buf') (hge : i + bs.length ≤ j) :
    slice buf' j n = slice buf j n := by
  have hs := store_le h
  have hi : (buf.take i ++ bs).length = i + bs.length := by
    rw [length_append, length_take_of_le (by omega)]
  rw [store_eq h, slice, slice, drop_append, drop_eq_nil_of_le (by omega), hi,
    nil_append, drop_drop, Nat.add_sub_cancel' hge]

end Buffers
