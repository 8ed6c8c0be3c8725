import Mathlib.Data.Nat.Digits.Defs
import Mathlib.Data.UInt

/-!
# Numbers in decimal

A natural number as a text of decimal digits, and the number that such a text stands for.

## Main definitions

* `text`: the digits of a number, as `sprintf` writes them.
* `number`: the number of a text.

## Main results

* `number_text`: the number of its text.
-/

namespace Mtask.Decimal

open List

/-- The character of a digit. -/
def digit (d : ℕ) : UInt8 := .ofNat (48 + d)

/-- The digits of a number. -/
def text (n : ℕ) : List UInt8 :=
  if n = 0 then [digit 0] else (Nat.digits 10 n).reverse.map digit

/-- The number that the digits of a text stand for. -/
def number (s : List UInt8) : ℕ :=
  s.foldl (fun n c => 10 * n + (c.toNat - 48)) 0

/-- A character is a digit. -/
def IsDigit (c : UInt8) : Prop := 48 ≤ c ∧ c ≤ 57

variable {n d : ℕ} {c : UInt8}

theorem toNat_digit (h : d < 10) : (digit d).toNat = 48 + d := by
  change (48 + d) % 256 = _
  omega

theorem isDigit_digit (h : d < 10) : IsDigit (digit d) := by
  have htoNat := toNat_digit h
  constructor
  · rw [UInt8.le_iff_toNat_le, htoNat]
    exact Nat.le_add_right 48 d
  · rw [UInt8.le_iff_toNat_le, htoNat]
    change 48 + d ≤ 57
    omega

theorem number_map_digit (digits : List ℕ) (h : ∀ d ∈ digits, d < 10) :
    number (digits.reverse.map digit) = Nat.ofDigits 10 digits := by
  induction digits with
  | nil => rfl
  | cons d digits ih =>
    have hd := h d mem_cons_self
    have hrest := ih fun d' hd' => h d' (mem_cons_of_mem _ hd')
    rw [number] at hrest
    rw [number, reverse_cons, map_append, foldl_append, hrest, Nat.ofDigits_cons]
    change 10 * _ + ((digit d).toNat - 48) = _
    rw [toNat_digit hd]
    omega

theorem number_text (n : ℕ) : number (text n) = n := by
  rw [text]
  split_ifs with hzero
  · rw [hzero]
    rfl
  · rw [number_map_digit _ fun d hd => Nat.digits_lt_base (by decide) hd, Nat.ofDigits_digits]

theorem isDigit_of_mem_text (h : c ∈ text n) : IsDigit c := by
  rw [text] at h
  split_ifs at h with hzero
  · rw [mem_singleton.mp h]
    exact isDigit_digit (by decide)
  · obtain ⟨d, hd, rfl⟩ := mem_map.mp h
    rw [mem_reverse] at hd
    exact isDigit_digit (Nat.digits_lt_base (by decide) hd)

theorem text_ne_nil (n : ℕ) : text n ≠ [] := by
  rw [text]
  split_ifs with hzero
  · exact cons_ne_nil _ _
  · rw [Ne, map_eq_nil_iff, reverse_eq_nil_iff]
    exact Nat.digits_ne_nil_iff_ne_zero.mpr hzero

end Mtask.Decimal
