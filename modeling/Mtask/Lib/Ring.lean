import Mathlib.Data.List.Basic
import Mathlib.Data.Nat.ModEq

/-!
# Circular buffers

The slots of a circular buffer are a function of the index, of which the first `size` ones are in
use. The entries that lie between the head and the tail, in their order, are a *window* of it.

## Main definitions

* `count`: the number of entries between the head and the tail, if one slot is kept free.
* `window`: the entries from the head on.

## Main results

* `window_succ`, `window_update`: taking the first entry and adding a last one.
* `window_copy`: copying the entries to the front of a larger buffer.
* `window_push`, `window_push_full`, `window_pop`: the entries of a buffer that is
  moved to a larger one as soon as it is full.
-/

namespace Ring

open Nat (mod_add_mod mod_eq_of_lt mod_lt)
open List

variable {α : Type*} {size head tail len : ℕ} (f : ℕ → α)

/-- The number of entries from `head` up to `tail`. -/
def count (size head tail : ℕ) : ℕ :=
  (tail + size - head) % size

/-- The `len` entries from `head` on. -/
def window (f : ℕ → α) (size head len : ℕ) : List α :=
  (List.range len).map fun i => f ((head + i) % size)

/-! ### Counting -/

theorem count_self : count size head head = 0 := by
  rw [count, Nat.add_sub_cancel_left, Nat.mod_self]

theorem count_lt (tail : ℕ) (hhead : head < size) : count size head tail < size :=
  mod_lt _ (Nat.zero_lt_of_lt hhead)

section

variable (hhead : head < size)
include hhead

theorem head_add_count (htail : tail < size) : (head + count size head tail) % size = tail := by
  rw [count, Nat.add_mod_mod]
  have hsum : head + (tail + size - head) = tail + size := by omega
  rw [hsum, Nat.add_mod_right, mod_eq_of_lt htail]

/-- The count is the one distance below `size` that leads from the head to the tail. -/
theorem count_eq (hlen : len < size) (htail : (head + len) % size = tail) :
    count size head tail = len := by
  have hlt : tail < size := htail ▸ mod_lt _ (Nat.zero_lt_of_lt hhead)
  have hmod := (head_add_count hhead hlt).trans htail.symm
  have hcancel := Nat.ModEq.add_left_cancel' head hmod
  rwa [Nat.ModEq, mod_eq_of_lt (count_lt tail hhead), mod_eq_of_lt hlen] at hcancel

/-- Between different indices there is an entry. -/
theorem count_eq_succ (htail : tail < size) (hne : head ≠ tail) :
    count size head tail = count size ((head + 1) % size) tail + 1 := by
  have hpos : 0 < count size head tail := by
    rw [Nat.pos_iff_ne_zero]
    intro hzero
    have := head_add_count hhead htail
    rw [hzero, Nat.add_zero, mod_eq_of_lt hhead] at this
    exact hne this
  have hlt := count_lt tail hhead
  have hnext : count size ((head + 1) % size) tail = count size head tail - 1 := by
    refine count_eq (mod_lt _ (Nat.zero_lt_of_lt hhead)) (by omega) ?_
    rw [mod_add_mod, Nat.add_assoc, Nat.add_sub_cancel' hpos, head_add_count hhead htail]
  omega

theorem count_of_full (htail : tail < size) (hfull : (tail + 1) % size = head) :
    count size head tail = size - 1 := by
  refine count_eq hhead (by omega) ?_
  rw [← hfull, mod_add_mod]
  have hsum : tail + 1 + (size - 1) = tail + size := by omega
  rw [hsum, Nat.add_mod_right, mod_eq_of_lt htail]

/-- Adding an entry to a buffer that is not full. -/
theorem count_succ (htail : tail < size) (hfree : (tail + 1) % size ≠ head) :
    count size head ((tail + 1) % size) = count size head tail + 1 := by
  have hadd := head_add_count hhead htail
  have hlt : count size head tail + 1 < size := by
    rcases (Nat.succ_le_of_lt (count_lt tail hhead)).lt_or_eq with hlt | heq
    · exact hlt
    · exfalso
      rw [← hadd, mod_add_mod, Nat.add_assoc] at hfree
      rw [Nat.succ_eq_add_one] at heq
      rw [heq, Nat.add_mod_right, mod_eq_of_lt hhead] at hfree
      exact hfree rfl
  refine count_eq hhead hlt ?_
  rw [← Nat.add_assoc, ← mod_add_mod, hadd]

end

/-! ### Windows -/

@[simp] theorem window_zero : window f size head 0 = [] :=
  rfl

theorem window_mod : window f size (head % size) len = window f size head len := by
  simp only [window, mod_add_mod]

theorem window_succ (hhead : head < size) :
    window f size head (len + 1) = f head :: window f size ((head + 1) % size) len := by
  rw [window_mod, window, range_succ_eq_map, map_cons, map_map, Nat.add_zero,
    mod_eq_of_lt hhead]
  congr 1
  refine map_congr_left fun i _ => ?_
  rw [Function.comp_apply, Nat.succ_eq_one_add, Nat.add_assoc]

theorem window_update (hlen : len < size) (a : α) :
    window (Function.update f ((head + len) % size) a) size head (len + 1) =
      window f size head len ++ [a] := by
  rw [window, range_succ, map_append, map_singleton, Function.update_self]
  congr 1
  refine map_congr_left fun i hi => Function.update_of_ne (fun heq => ?_) a f
  have hcancel : i ≡ len [MOD size] := Nat.ModEq.add_left_cancel' head heq
  rw [mem_range] at hi
  rw [Nat.ModEq, mod_eq_of_lt (hi.trans hlen), mod_eq_of_lt hlen] at hcancel
  omega

variable {g : ℕ → α} {size' : ℕ}

theorem window_copy (hlen : len ≤ size') (hcopy : ∀ i < len, g i = f ((head + i) % size)) :
    window g size' 0 len = window f size head len := by
  refine map_congr_left fun i hi => ?_
  rw [mem_range] at hi
  rw [Nat.zero_add, mod_eq_of_lt (hi.trans_le hlen), hcopy i hi]

/-! ### A buffer that grows when it is full -/

/-- An index that goes back to `0` at the end goes around the buffer. -/
theorem succ_eq_mod {i : ℕ} (hi : i < size) :
    (if i + 1 ≥ size then 0 else i + 1) = (i + 1) % size := by
  split_ifs with h
  · have hsize : i + 1 = size := by omega
    rw [hsize, Nat.mod_self]
  · rw [mod_eq_of_lt (by omega)]

variable (hhead : head < size) (htail : tail < size)

include hhead htail

/-- An entry is written behind the last one, and a slot stays free. -/
theorem window_push (hfree : (tail + 1) % size ≠ head) (a : α) :
    window (Function.update f tail a) size head (count size head ((tail + 1) % size)) =
      window f size head (count size head tail) ++ [a] := by
  rw [count_succ hhead htail hfree, ← window_update f (count_lt tail hhead) a,
    head_add_count hhead htail]

/-- An entry is written into the last free slot, and all entries are copied to a larger buffer. -/
theorem window_push_full (hfull : (tail + 1) % size = head) (a : α) (hsize : size < size')
    (hcopy : ∀ i < size, g i = Function.update f tail a ((head + i) % size)) :
    window g size' 0 (count size' 0 size) = window f size head (count size head tail) ++ [a] := by
  have hcount := count_of_full hhead htail hfull
  have hadd := head_add_count hhead htail
  rw [hcount] at hadd ⊢
  have hnew : count size' 0 size = size - 1 + 1 :=
    count_eq (by omega) (by omega) (by
      rw [Nat.zero_add, Nat.sub_add_cancel (by omega), mod_eq_of_lt hsize])
  rw [← window_update f (show size - 1 < size by omega) a, hadd, hnew]
  exact window_copy _ (by omega) fun i hi => hcopy i (by omega)

theorem window_pop (hne : head ≠ tail) :
    window f size head (count size head tail) =
      f head :: window f size ((head + 1) % size) (count size ((head + 1) % size) tail) := by
  rw [count_eq_succ hhead htail hne, window_succ f hhead]

end Ring
