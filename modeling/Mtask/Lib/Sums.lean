import Mathlib.Algebra.BigOperators.Group.Finset.Piecewise
import Mathlib.Algebra.Order.BigOperators.Group.Finset
import Mathlib.Tactic.Abel

/-!
# Sums over a table

What all slots of a table contribute to a sum, and what becomes of the sum when one slot is written.

## Main definitions

* `total`: what the first slots of a table contribute.

## Main results

* `sum_update_add`: a sum in which one term is replaced.
* `total_update`, `total_of_update`: what becomes of the sum.
-/

namespace Sums

open Function (update update_of_ne update_self)
open List

variable {M β : Type*} [AddCommMonoid M] {n i : ℕ}

theorem sum_update_add (hi : i < n) (f : ℕ → β) (x : β) (g : β → M) :
    (∑ j ∈ Finset.range n, g (update f i x j)) + g (f i) =
      (∑ j ∈ Finset.range n, g (f j)) + g x := by
  have hmem : i ∈ Finset.range n := Finset.mem_range.mpr hi
  have hcongr : (fun j => g (update f i x j)) =
      update (fun j => g (f j)) i (g x) := by
    funext j
    by_cases hj : j = i
    · rw [hj, update_self, update_self]
    · rw [update_of_ne hj, update_of_ne hj]
  rw [hcongr, Finset.sum_update_of_mem hmem,
    ← Finset.sum_sdiff (Finset.singleton_subset_iff.mpr hmem), Finset.sum_singleton]
  abel

/-- What the first `n` slots of a table contribute. -/
@[irreducible]
def total (n : ℕ) (g : β → M) (f : ℕ → β) : M :=
  ∑ j ∈ Finset.range n, g (f j)

theorem total_update [IsCancelAdd M] (hi : i < n) (f : ℕ → β) {x : β} (g : β → M) {m : M}
    (hx : g x = g (f i) + m) : total n g (update f i x) = total n g f + m := by
  have h := sum_update_add hi f x g
  rw [hx, add_left_comm, add_comm] at h
  rw [total, total, add_left_cancel h]

theorem total_of_update [IsCancelAdd M] (hi : i < n) (f : ℕ → β) {x : β} (g : β → M) {m : M}
    (hx : g (f i) = g x + m) : total n g f = total n g (update f i x) + m := by
  have h := total_update hi (update f i x) (x := f i) g (m := m) (by
    rw [update_self, hx])
  rwa [Function.update_idem, Function.update_eq_self] at h

theorem mem_total {α : Type*} {a : α} {g : β → Multiset α} {f : ℕ → β} :
    a ∈ total n g f ↔ ∃ j < n, a ∈ g (f j) := by
  rw [total, Multiset.mem_sum]
  simp only [Finset.mem_range]

theorem total_eq_zero_iff {α : Type*} {g : β → Multiset α} {f : ℕ → β} :
    total n g f = 0 ↔ ∀ j < n, g (f j) = 0 := by
  rw [total, Finset.sum_eq_zero_iff]
  simp only [Finset.mem_range]

theorem foldl_range_total {σ : Type*} (g : β → M) (f : ℕ → β) (step : σ → ℕ → σ)
    (measure : σ → M) (hstep : ∀ s j, measure (step s j) = measure s + g (f j)) (s : σ) :
    measure ((List.range n).foldl step s) = measure s + total n g f := by
  rw [total]
  induction n with
  | zero => rw [range_zero, foldl_nil, Finset.range_zero, Finset.sum_empty, add_zero]
  | succ n ih =>
    rw [range_succ, foldl_append, foldl_cons, foldl_nil, hstep, ih,
      Finset.sum_range_succ, add_assoc]

end Sums
