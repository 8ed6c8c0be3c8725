import Mathlib.Logic.Equiv.Basic
import Mathlib.Tactic.Common

/-!
# Feistel networks

A round of a Feistel network changes one half of a block by a function of the other half and of the
key of the round. The function need not have an inverse: the rounds are undone by the same rounds
with the keys in reverse order, once the halves are swapped.

## Main definitions

* `round`, `rounds`: a round, and a round for every key.
* `cipher`: the rounds between a permutation and its inverse.

## Main results

* `rounds_reverse`, `cipher_reverse`: the keys in reverse order undo the rounds, and
  the cipher.
-/

namespace Feistel

variable {α β γ κ : Type*} (mix : α → β → α) (f : κ → α → β)

/-- A round: the right half becomes the left one, and the left half is mixed with a function of the
key and of the right half. -/
def round (k : κ) (p : α × α) : α × α :=
  (p.2, mix p.1 (f k p.2))

/-- A round for every key. -/
def rounds : List κ → α × α → α × α
  | [], p => p
  | k :: ks, p => rounds ks (round mix f k p)

theorem rounds_append (ks ks' : List κ) (p : α × α) :
    rounds mix f (ks ++ ks') p = rounds mix f ks' (rounds mix f ks p) := by
  induction ks generalizing p with
  | nil => rfl
  | cons k ks ih => exact ih _

section Involutive

variable {mix} (hmix : ∀ b, Function.Involutive fun a => mix a b)
include hmix

/-- A round undoes itself on the swapped halves. -/
theorem round_swap_round (k : κ) (p : α × α) :
    round mix f k (round mix f k p).swap = p.swap :=
  Prod.ext rfl (hmix _ p.1)

/-- **The keys in reverse order undo the rounds.** -/
theorem rounds_reverse (ks : List κ) (p : α × α) :
    rounds mix f ks.reverse (rounds mix f ks p).swap = p.swap := by
  induction ks generalizing p with
  | nil => rfl
  | cons k ks ih =>
    rw [List.reverse_cons, rounds_append]
    calc round mix f k (rounds mix f ks.reverse (rounds mix f ks (round mix f k p)).swap)
        = round mix f k (round mix f k p).swap := by rw [ih]
      _ = p.swap := round_swap_round f hmix k p

end Involutive

/-- The rounds between a permutation of the blocks and its inverse, with the halves swapped. -/
def cipher (e : γ ≃ α × α) (ks : List κ) (b : γ) : γ :=
  e.symm (rounds mix f ks (e b)).swap

/-- **The keys in reverse order undo the cipher.** -/
theorem cipher_reverse {mix : α → β → α} (hmix : ∀ b, Function.Involutive fun a => mix a b)
    (e : γ ≃ α × α) (ks : List κ) (b : γ) :
    cipher mix f e ks.reverse (cipher mix f e ks b) = b := by
  rw [cipher, cipher, e.apply_symm_apply, rounds_reverse f hmix, Prod.swap_swap,
    e.symm_apply_apply]

end Feistel
