import Mathlib.Data.Finset.Card

/-!
# Orbits of a partial function

A loop that goes from place to place, as a partial function of the place says, comes to an end unless
it comes back to a place. If there are only `n` places to go on from, that shows in `n + 1` rounds.

## Main definitions

* `walk`: the place after some rounds.
* `Returns`: some place is come back to.

## Main results

* `walk_isSome_of_returns`, `returns_of_walk`: a loop that comes back, and one that goes
  on for too long.
-/

namespace Orbit

variable {α : Type*} (next : α → Option α)

/-- The place after some rounds. -/
def walk : ℕ → α → Option α
  | 0, x => some x
  | n + 1, x => (next x).bind (walk n)

/-- Some place is come back to. -/
def Returns (x : α) : Prop :=
  ∃ i k y, 0 < k ∧ walk next i x = some y ∧ walk next k y = some y

variable {next} {x y : α} {i k m n : ℕ}

theorem walk_add : walk next (i + k) x = (walk next i x).bind (walk next k) := by
  induction i generalizing x with
  | zero => rw [Nat.zero_add, walk, Option.bind_some]
  | succ i ih =>
    rw [Nat.succ_add, walk, walk, Option.bind_assoc]
    exact congrArg (next x).bind (funext fun y => ih)

theorem isSome_of_le (h : (walk next n x).isSome) (hle : m ≤ n) : (walk next m x).isSome := by
  obtain ⟨k, rfl⟩ := Nat.exists_eq_add_of_le hle
  rw [walk_add] at h
  cases hm : walk next m x with
  | none =>
    rw [hm] at h
    exact h
  | some y => rfl

theorem walk_isSome_of_returns (h : Returns next x) (n : ℕ) : (walk next n x).isSome := by
  obtain ⟨i, k, y, hk, hi, hround⟩ := h
  have hrounds (m : ℕ) : walk next (m * k) y = some y := by
    induction m with
    | zero => rw [Nat.zero_mul, walk]
    | succ m ih => rw [Nat.succ_mul, walk_add, ih, Option.bind_some, hround]
  have hsome : (walk next (i + n * k) x).isSome := by
    rw [walk_add, hi, Option.bind_some, hrounds]
    rfl
  exact isSome_of_le hsome (Nat.le_add_left_of_le (Nat.le_mul_of_pos_right n hk))

/-- A loop over fewer places than rounds comes back. -/
theorem returns_of_walk {next : ℕ → Option ℕ} {x : ℕ} (hlt : ∀ y, (next y).isSome → y < n)
    (h : (walk next (n + 1) x).isSome) : Returns next x := by
  have hplace {j : ℕ} (hj : j < n + 1) :
      ∃ y, walk next j x = some y ∧ y < n := by
    have hsome : (walk next (j + 1) x).isSome := isSome_of_le h hj
    rw [walk_add] at hsome
    cases hwalk : walk next j x with
    | none =>
      rw [hwalk] at hsome
      cases hsome
    | some y =>
      rw [hwalk, Option.bind_some] at hsome
      change ((next y).bind (walk next 0)).isSome at hsome
      refine ⟨y, rfl, hlt y ?_⟩
      cases hy : next y with
      | none =>
        rw [hy] at hsome
        exact hsome
      | some z => rfl
  have hmaps : ∀ j ∈ Finset.range (n + 1), (walk next j x).getD 0 ∈ Finset.range n := by
    intro j hj
    obtain ⟨y, hy, hyn⟩ := hplace (Finset.mem_range.mp hj)
    rw [hy, Option.getD_some]
    exact Finset.mem_range.mpr hyn
  have hcard : (Finset.range n).card < (Finset.range (n + 1)).card := by
    rw [Finset.card_range, Finset.card_range]
    exact Nat.lt_succ_self n
  obtain ⟨i, hi, j, hj, hne, heq⟩ := Finset.exists_ne_map_eq_of_card_lt_of_maps_to hcard hmaps
  have hreturns {i j : ℕ} (hi : i < n + 1) (hj : j < n + 1) (hlt : i < j)
      (heq : (walk next i x).getD 0 = (walk next j x).getD 0) : Returns next x := by
    obtain ⟨y, hy, -⟩ := hplace hi
    obtain ⟨y', hy', -⟩ := hplace hj
    rw [hy, hy', Option.getD_some, Option.getD_some] at heq
    refine ⟨i, j - i, y, Nat.sub_pos_of_lt hlt, hy, ?_⟩
    have hwalk : walk next (i + (j - i)) x = some y' := by rw [Nat.add_sub_of_le hlt.le, hy']
    rw [walk_add, hy, Option.bind_some] at hwalk
    rw [hwalk, heq]
  rcases Nat.lt_or_gt_of_ne hne with hlt | hgt
  · exact hreturns (Finset.mem_range.mp hi) (Finset.mem_range.mp hj) hlt heq
  · exact hreturns (Finset.mem_range.mp hj) (Finset.mem_range.mp hi) hgt heq.symm

end Orbit
