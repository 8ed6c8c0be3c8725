import Mathlib.Algebra.Group.Nat.Defs
import Mathlib.Data.List.Induction
import Mtask.Lib.Incremental

/-!
# Frames behind their length

A stream of frames, each one behind its length, which is written as a number of a fixed width, the
most significant byte first.

## Main definitions

* `ofBytes`, `toBytes`: the number that some bytes stand for, and its bytes.
* `cutter`: how a frame is cut off the front of a stream.

## Main results

* `cut_frame`, `cut_eq_none`: a frame is cut off once it is complete.
-/

namespace Framing

open List

/-- The number that the bytes stand for, the most significant one first. -/
def ofBytes (bytes : List UInt8) : ℕ :=
  bytes.foldl (fun n b => n * 256 + b.toNat) 0

theorem ofBytes_concat (bytes : List UInt8) (b : UInt8) :
    ofBytes (bytes ++ [b]) = ofBytes bytes * 256 + b.toNat := by
  rw [ofBytes, foldl_concat, ofBytes]

theorem ofBytes_lt (bytes : List UInt8) : ofBytes bytes < 256 ^ bytes.length := by
  induction bytes using List.reverseRecOn with
  | nil => exact Nat.one_pos
  | append_singleton bytes b ih =>
    have hb : b.toNat < 256 := b.toNat_lt
    rw [ofBytes_concat, length_append, length_singleton, Nat.pow_succ]
    omega

/-- The number in `width` bytes, the most significant one first. -/
def toBytes : ℕ → ℕ → List UInt8
  | 0, _ => []
  | width + 1, n => toBytes width (n / 256) ++ [UInt8.ofNat n]

@[simp]
theorem length_toBytes (width n : ℕ) : (toBytes width n).length = width := by
  induction width generalizing n with
  | zero => rfl
  | succ width ih => rw [toBytes, length_append, ih, length_singleton]

theorem ofBytes_toBytes {width n : ℕ} (h : n < 256 ^ width) : ofBytes (toBytes width n) = n := by
  induction width generalizing n with
  | zero => exact (Nat.lt_one_iff.mp h).symm
  | succ width ih =>
    have hdiv : n / 256 < 256 ^ width := by
      rw [Nat.pow_succ] at h
      exact Nat.div_lt_of_lt_mul (by omega)
    rw [toBytes, ofBytes_concat, ih hdiv, UInt8.toNat_ofNat']
    omega

theorem shiftLeft_or_byte (n : ℕ) (b : UInt8) : n <<< 8 ||| b.toNat = n * 256 + b.toNat := by
  have hb : b.toNat < 2 ^ 8 := b.toNat_lt
  rw [← Nat.shiftLeft_add_eq_or_of_lt hb, Nat.shiftLeft_eq]

/-- The first frame of a stream, and what comes behind it. -/
def cut (width : ℕ) (buf : List UInt8) : Option (List UInt8 × List UInt8) :=
  if width ≤ buf.length ∧ ofBytes (buf.take width) ≤ (buf.drop width).length then
    some ((buf.drop width).take (ofBytes (buf.take width)),
      (buf.drop width).drop (ofBytes (buf.take width)))
  else none

variable {width : ℕ} {buf header payload rest : List UInt8}

theorem cut_frame (hwidth : header.length = width) (hlen : ofBytes header = payload.length)
    (rest : List UInt8) : cut width (header ++ (payload ++ rest)) = some (payload, rest) := by
  have htake : (header ++ (payload ++ rest)).take width = header := by
    rw [← hwidth, take_left]
  have hdrop : (header ++ (payload ++ rest)).drop width = payload ++ rest := by
    rw [← hwidth, drop_left]
  rw [cut, htake, hdrop, hlen, if_pos, take_left, drop_left]
  simp [← hwidth]

theorem cut_eq_some (h : cut width buf = some (payload, rest)) :
    ∃ header, header.length = width ∧ ofBytes header = payload.length ∧
      buf = header ++ (payload ++ rest) := by
  rw [cut] at h
  split_ifs at h with hlen
  simp only [Option.some_inj, Prod.mk.injEq] at h
  obtain ⟨rfl, rfl⟩ := h
  refine ⟨buf.take width, length_take_of_le hlen.1, ?_, ?_⟩
  · rw [length_take_of_le hlen.2]
  · rw [take_append_drop, take_append_drop]

/-- A length that is not complete, or a frame that is not. -/
theorem cut_eq_none (h : buf.length < width ∨ ∃ header payload, buf = header ++ payload ∧
    header.length = width ∧ payload.length < ofBytes header) : cut width buf = none := by
  rw [cut, if_neg]
  rintro ⟨hwidth, hlen⟩
  rcases h with h | ⟨header, payload, rfl, rfl, h⟩
  · omega
  · rw [take_left, drop_left] at hlen
    omega

/-- How frames are cut off a stream, some of them final. -/
def cutter (width : ℕ) (hwidth : 0 < width) (final : List UInt8 → Bool) :
    Incremental.Cutter UInt8 (List UInt8) where
  cut := cut width
  final := final
  shrinks h := by
    obtain ⟨header, hheader, -, rfl⟩ := cut_eq_some h
    simp only [List.length_append]
    omega
  stable h more := by
    obtain ⟨header, hheader, hlen, rfl⟩ := cut_eq_some h
    rw [List.append_assoc, List.append_assoc]
    exact cut_frame hheader hlen _

end Framing
