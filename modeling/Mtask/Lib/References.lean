import Mathlib.Algebra.Order.BigOperators.Group.List
import Mathlib.Algebra.Order.Ring.Nat

/-!
# Counted references

Resources with a reference count each, and a number of references to each that somebody holds.
`Counted count held` says that the count of every resource that is there is the number of its
references, and that there is no reference to any other resource; so a resource may go as soon as
its count is not positive.

## Main definitions

* `Counted`: every count is the number of references.
* `total`: what the holders of a list have in all.

## Main results

* `Counted.acquire`, `release`, `alloc`, `free`: what may happen to a count.
* `Counted.alive`: a resource with a reference is there.
* `total_set`: one of the holders changes.
-/

namespace References

open List

variable {R : Type*} {count count' : R → Option ℤ} {held held' : R → ℕ} {r : R}
  {n : ℤ}

/-- The counts are the numbers of references; a resource without a count has none. -/
structure Counted (count : R → Option ℤ) (held : R → ℕ) : Prop where
  eq : ∀ r n, count r = some n → n = held r
  gone : ∀ r, count r = none → held r = 0

namespace Counted

section

variable (h : Counted count held)
include h

theorem alive (hr : 0 < held r) : ∃ n, count r = some n := by
  refine Option.ne_none_iff_exists'.1 fun hnone => ?_
  rw [h.gone r hnone] at hr
  exact Nat.lt_irrefl 0 hr

theorem congr (hcount : ∀ s, count' s = count s) (hheld : ∀ s, held' s = held s) :
    Counted count' held' := by
  obtain rfl : count' = count := funext hcount
  obtain rfl : held' = held := funext hheld
  exact h

theorem change (hcount : ∀ s, s ≠ r → count' s = count s) (hheld : ∀ s, s ≠ r → held' s = held s)
    (heq : ∀ n, count' r = some n → n = held' r) (hgone : count' r = none → held' r = 0) :
    Counted count' held' := by
  refine ⟨fun s n hs => ?_, fun s hs => ?_⟩
  · by_cases hsr : s = r
    · subst hsr
      exact heq n hs
    · rw [hheld s hsr]
      exact h.eq s n ((hcount s hsr).symm.trans hs)
  · by_cases hsr : s = r
    · subst hsr
      exact hgone hs
    · rw [hheld s hsr]
      exact h.gone s ((hcount s hsr).symm.trans hs)

/-- There is no reference to a resource whose count is not positive. -/
theorem unreferenced (hr : count r = some n) (hn : n ≤ 0) : held r = 0 := by
  have := h.eq r n hr
  omega

end

variable [DecidableEq R]

theorem set {k : ℤ} (h : Counted count held)
    (hcount : ∀ s, count' s = if s = r then some k else count s)
    (hheld : ∀ s, s ≠ r → held' s = held s) (heq : k = held' r) : Counted count' held' := by
  refine h.change (r := r) (fun s hs => by rw [hcount, if_neg hs]) hheld (fun n hn => ?_)
    fun hnone => ?_
  · rw [hcount, if_pos rfl] at hn
    rw [← Option.some.inj hn, heq]
  · rw [hcount, if_pos rfl] at hnone
    cases hnone

theorem acquire (h : Counted count held) (hr : count r = some n)
    (hcount : ∀ s, count' s = if s = r then some (n + 1) else count s)
    (hheld : ∀ s, held' s = held s + if s = r then 1 else 0) : Counted count' held' := by
  refine h.set hcount (fun s hs => by rw [hheld, if_neg hs, Nat.add_zero]) ?_
  rw [hheld, if_pos rfl, h.eq r n hr]
  rfl

theorem release (h : Counted count held) (hr : count r = some n)
    (hcount : ∀ s, count' s = if s = r then some (n - 1) else count s)
    (hheld : ∀ s, held s = held' s + if s = r then 1 else 0) : Counted count' held' := by
  refine h.set hcount (fun s hs => by rw [hheld, if_neg hs, Nat.add_zero]) ?_
  rw [h.eq r n hr, hheld, if_pos rfl]
  omega

theorem alloc {k : ℕ} (h : Counted count held) (hr : count r = none)
    (hcount : ∀ s, count' s = if s = r then some (k : ℤ) else count s)
    (hheld : ∀ s, held' s = held s + if s = r then k else 0) : Counted count' held' := by
  refine h.set hcount (fun s hs => by rw [hheld, if_neg hs, Nat.add_zero]) ?_
  rw [hheld, if_pos rfl, h.gone r hr, Nat.zero_add]

/-- A resource whose count is not positive may go. -/
theorem free (h : Counted count held) (hr : count r = some n) (hn : n ≤ 0)
    (hcount : ∀ s, count' s = if s = r then none else count s) : Counted count' held := by
  refine h.change (r := r) (fun s hs => by rw [hcount, if_neg hs]) (fun _ _ => rfl)
    (fun m hm => ?_) fun _ => h.unreferenced hr hn
  rw [hcount, if_pos rfl] at hm
  cases hm

end Counted

/-! ### Lists of holders -/

section Total

variable {T : Type*} {f g : T → ℕ} {l : List T} {i : ℕ} {t : T}

/-- What the holders have in all. -/
def total (f : T → ℕ) (l : List T) : ℕ := (l.map f).sum

@[simp]
theorem total_concat (f : T → ℕ) (l : List T) (t : T) : total f (l ++ [t]) = total f l + f t := by
  rw [total, map_append, sum_append, map_singleton, sum_singleton]
  rfl

theorem total_set (f : T → ℕ) (h : l[i]? = some t) (t' : T) :
    total f (l.set i t') + f t = total f l + f t' := by
  unfold total
  induction l generalizing i with
  | nil => cases h
  | cons u l ih =>
    cases i with
    | zero =>
      obtain rfl : u = t := Option.some.inj h
      rw [set_cons_zero, map_cons, map_cons, sum_cons, sum_cons]
      omega
    | succ i =>
      have hi := ih h
      rw [set_cons_succ, map_cons, map_cons, sum_cons, sum_cons]
      omega

theorem le_total (f : T → ℕ) (h : l[i]? = some t) : f t ≤ total f l :=
  single_le_sum (fun _ _ => Nat.zero_le _) _
    (mem_map_of_mem (mem_of_getElem? h))

theorem total_mono (h : ∀ t, f t ≤ g t) : total f l ≤ total g l := by
  induction l with
  | nil => exact Nat.le_refl 0
  | cons u l ih => exact Nat.add_le_add (h u) ih

theorem total_eq_zero (h : ∀ t ∈ l, f t = 0) : total f l = 0 := by
  refine sum_eq_zero fun n hn => ?_
  obtain ⟨t, ht, rfl⟩ := mem_map.1 hn
  exact h t ht

end Total

end References
