import Mathlib.Data.List.Basic
import Mathlib.Data.Nat.ModEq

/-!
# Hierarchical timing wheels

A timing wheel keeps what is due at a time `due` in a bucket that depends on the current time
`now`. Its resolution is a chain of widths `w 0 ∣ w 1 ∣ ⋯ ∣ w n`: the level of `due` is the least
`k < n` for which `due` and `now` lie in the same block of width `w k`, or `n` if there is none,
and the position in the level is a digit of `due`. When the time moves to `now + 1`, at most one
bucket has to be emptied into the others: the one that holds what shares the block that has just
been entered. All times here are unbounded; a bound on `due - now` says that the top level cannot
tell two blocks apart only when they are `w n / w (n - 1)` blocks away from each other.

## Main definitions

* `level`, `place`: the bucket of a due time.
* `carry`, `source`: the bucket that is emptied when a time begins.

## Main results

* `place_succ`: one step of the time changes the place of what is in the emptied bucket
  only.
* `filter_place_succ`: moving the emptied bucket to the end of the others, in order, keeps
  every bucket the list of what belongs to it, in the order of the whole list.
* `place_eq_place_self_iff`: what is due now is alone in its bucket.
-/

namespace Wheel

open List

variable {w : ℕ → ℕ} {n : ℕ}

/-- The least level below `n` on which `due` and `now` share a block, or `n`. -/
def level (w : ℕ → ℕ) (n now due : ℕ) : ℕ :=
  (List.range n).findIdx fun k => due / w k = now / w k

/-- The position of `due` in a level. -/
def slot (w : ℕ → ℕ) : ℕ → ℕ → ℕ
  | 0, due => due % w 0
  | k + 1, due => due / w k % (w (k + 1) / w k)

/-- The bucket of `due`: its level and its position there. -/
def place (w : ℕ → ℕ) (n now due : ℕ) : ℕ × ℕ :=
  (level w n now due, slot w (level w n now due) due)

/-- The least level below `n` whose blocks do not begin at `now`, or `n`. -/
def carry (w : ℕ → ℕ) (n now : ℕ) : ℕ :=
  (List.range n).findIdx fun k => ¬w k ∣ now

/-- The bucket that is emptied when the time becomes `now`. -/
def source (w : ℕ → ℕ) (n now : ℕ) : Option (ℕ × ℕ) :=
  if carry w n now = 0 then none else some (carry w n now, slot w (carry w n now) now)

section FindIdx

variable (p : ℕ → Bool)

private theorem findIdx_range_le : (List.range n).findIdx p ≤ n := by
  have hle : (List.range n).findIdx p ≤ (List.range n).length := findIdx_le_length
  simpa using hle

private theorem apply_findIdx_range (h : (List.range n).findIdx p < n) :
    p ((List.range n).findIdx p) = true := by
  have hlt : (List.range n).findIdx p < (List.range n).length := by simpa using h
  simpa using findIdx_getElem (w := hlt)

private theorem not_apply_of_lt {k : ℕ} (h : k < (List.range n).findIdx p) : p k = false := by
  have := not_of_lt_findIdx h
  simpa using this

end FindIdx

/-! ### Levels -/

theorem level_le (now due : ℕ) : level w n now due ≤ n :=
  findIdx_range_le _

theorem div_eq_of_level_lt {now due : ℕ} (h : level w n now due < n) :
    due / w (level w n now due) = now / w (level w n now due) :=
  of_decide_eq_true (apply_findIdx_range _ h)

theorem div_ne_of_lt_level {now due k : ℕ} (h : k < level w n now due) :
    due / w k ≠ now / w k := by
  simpa using not_apply_of_lt _ h

theorem level_le_of_div_eq {now due k : ℕ} (h : due / w k = now / w k) :
    level w n now due ≤ k := by
  by_contra hlt
  exact div_ne_of_lt_level (not_le.mp hlt) h

theorem carry_le (now : ℕ) : carry w n now ≤ n :=
  findIdx_range_le _

theorem not_dvd_of_carry_lt {now : ℕ} (h : carry w n now < n) : ¬w (carry w n now) ∣ now :=
  of_decide_eq_true (apply_findIdx_range _ h)

theorem dvd_of_lt_carry {now k : ℕ} (h : k < carry w n now) : w k ∣ now := by
  simpa using not_apply_of_lt _ h

theorem carry_eq {now k : ℕ} (hk : k ≤ n) (hdvd : ∀ j < k, w j ∣ now)
    (hnot : k < n → ¬w k ∣ now) : carry w n now = k := by
  rcases lt_trichotomy (carry w n now) k with hlt | heq | hlt
  · exact absurd (hdvd _ hlt) (not_dvd_of_carry_lt (hlt.trans_le hk))
  · exact heq
  · exact absurd (dvd_of_lt_carry hlt) (hnot (hlt.trans_le (carry_le now)))

theorem source_succ {now k : ℕ} (h : carry w n now = k + 1) :
    source w n now = some (k + 1, slot w (k + 1) now) := by
  rw [source, h, if_neg (Nat.succ_ne_zero k)]

/-! ### One step of the time -/

section Step

variable {now due due' : ℕ}

/-- A block that `now` and a later `due` share still holds both one step later. -/
private theorem div_succ_eq {d : ℕ} (h : now < due) (heq : due / d = now / d) :
    due / d = (now + 1) / d :=
  le_antisymm (heq ▸ Nat.div_le_div_right (Nat.le_succ now)) (Nat.div_le_div_right h)

/-- A block that is left between `now` and `now + 1` ends there. -/
private theorem div_succ_of_not_dvd {d : ℕ} (h : ¬d ∣ now + 1) : (now + 1) / d = now / d := by
  rw [Nat.succ_div, if_neg h, add_zero]

theorem level_succ_le (h : now < due) : level w n (now + 1) due ≤ level w n now due := by
  rcases (level_le (w := w) (n := n) now due).lt_or_eq with hlt | heq
  · exact level_le_of_div_eq (div_succ_eq h (div_eq_of_level_lt hlt))
  · rw [heq]
    exact level_le _ _

/-- Nothing that is due later lies on a level whose block ends at `now`. -/
theorem carry_le_level (h : now < due) :
    carry w n (now + 1) ≤ level w n now due := by
  by_contra hlt
  rw [not_le] at hlt
  have hdvd := dvd_of_lt_carry hlt
  have hdiv := div_eq_of_level_lt (hlt.trans_le (carry_le _))
  have hsucc := div_succ_eq h hdiv
  rw [hdiv, Nat.succ_div, if_pos hdvd] at hsucc
  omega

section

variable (hdvd : ∀ k, w k ∣ w (k + 1))
include hdvd

theorem dvd_of_le {j k : ℕ} (h : j ≤ k) : w j ∣ w k :=
  Nat.le_induction dvd_rfl (fun k _ ih => ih.trans (hdvd k)) k h

/-- A shared block is shared on every coarser level. -/
private theorem div_eq_of_le {j k : ℕ} (h : j ≤ k) (heq : due / w j = now / w j) :
    due / w k = now / w k := by
  obtain ⟨q, hq⟩ := dvd_of_le hdvd h
  rw [hq, ← Nat.div_div_eq_div_mul, ← Nat.div_div_eq_div_mul, heq]

theorem level_eq_carry_of_lt (h : now < due) (hlt : level w n (now + 1) due < level w n now due) :
    level w n now due = carry w n (now + 1) := by
  refine le_antisymm ?_ (carry_le_level h)
  by_contra hcarry
  rw [not_le] at hcarry
  have hnew := div_eq_of_level_lt (hlt.trans_le (level_le _ _))
  -- All blocks below the old level begin at `now + 1`.
  refine not_dvd_of_carry_lt (hcarry.trans_le (level_le _ _)) ?_
  have hdvd_of_le : ∀ k, level w n (now + 1) due ≤ k → k < level w n now due → w k ∣ now + 1 := by
    intro k hk hk'
    by_contra hnot
    have hagree := div_eq_of_le hdvd hk hnew
    rw [div_succ_of_not_dvd hnot] at hagree
    exact div_ne_of_lt_level hk' hagree
  rcases le_total (level w n (now + 1) due) (carry w n (now + 1)) with hle | hle
  · exact hdvd_of_le _ hle hcarry
  · exact (dvd_of_le hdvd hle).trans (hdvd_of_le _ le_rfl hlt)

/-- What lies in the emptied bucket comes to a lower level, if the top level tells its blocks
apart as far as `due`. -/
theorem level_lt_of_source (hpos : ∀ k, 0 < w k) (h : now < due)
    (hfar : due < now + (w n - w (n - 1)))
    (hsource : source w n (now + 1) = some (place w n now due)) :
    level w n (now + 1) due < level w n now due := by
  rw [source] at hsource
  split_ifs at hsource with hzero
  rw [Option.some_inj, place, Prod.mk.injEq] at hsource
  obtain ⟨hlevel, hslot⟩ := hsource
  rw [← hlevel] at hslot ⊢
  obtain ⟨k, hk⟩ := Nat.exists_eq_succ_of_ne_zero hzero
  rw [hk, slot, slot] at hslot
  rw [hk]
  refine Nat.lt_succ_of_le (level_le_of_div_eq ?_)
  obtain ⟨r, hr⟩ := hdvd k
  have hquot : w (k + 1) / w k = r := by
    rw [hr, Nat.mul_div_cancel_left _ (hpos k)]
  rw [hquot] at hslot
  have hle : (now + 1) / w k ≤ due / w k := Nat.div_le_div_right h
  rcases (carry_le (w := w) (n := n) (now + 1)).lt_or_eq with hlt | heq
  · -- The level has blocks of its own: they agree, and so do the positions in them.
    have hagree : due / w (k + 1) = (now + 1) / w (k + 1) := by
      have hnew := div_eq_of_level_lt (hlevel ▸ hlt)
      have hold := div_succ_of_not_dvd (not_dvd_of_carry_lt hlt)
      rw [← hlevel, ← hold, hk] at hnew
      exact hnew
    rw [hr, ← Nat.div_div_eq_div_mul, ← Nat.div_div_eq_div_mul] at hagree
    rw [← Nat.div_add_mod (due / w k) r, ← Nat.div_add_mod ((now + 1) / w k) r, hagree, hslot]
  · -- The top level: the bound on `due` leaves one block with this position.
    have hn : n = k + 1 := heq.symm.trans hk
    rw [hn, Nat.add_sub_cancel, hr] at hfar
    have hupper : due / w k < (now + 1) / w k + r := by
      rw [Nat.div_lt_iff_lt_mul (hpos k), Nat.add_mul, Nat.mul_comm _ (w k), Nat.mul_comm r]
      have hnow := Nat.lt_mul_div_succ now (hpos k)
      have hmono : w k * (now / w k) ≤ w k * ((now + 1) / w k) :=
        Nat.mul_le_mul_left _ (Nat.div_le_div_right (Nat.le_succ now))
      rw [Nat.mul_succ] at hnow
      omega
    have hdiff := (Nat.modEq_iff_dvd' hle).mp hslot
    have hzero' := Nat.eq_zero_of_dvd_of_lt hdiff (by omega)
    omega

/-- **One step of the time.** Only what lies in the emptied bucket changes its place. -/
theorem place_succ (h : now < due) :
    place w n (now + 1) due = place w n now due ∨
      source w n (now + 1) = some (place w n now due) := by
  rcases (level_succ_le (w := w) (n := n) h).lt_or_eq with hlt | heq
  · refine Or.inr ?_
    have hcarry := level_eq_carry_of_lt hdvd h hlt
    have hzero : carry w n (now + 1) ≠ 0 := by omega
    obtain ⟨k, hk⟩ := Nat.exists_eq_succ_of_ne_zero hzero
    rw [source, if_neg hzero, place, hcarry, hk, slot, slot]
    have hle : level w n (now + 1) due ≤ k := by omega
    have hagree := div_eq_of_le hdvd hle (div_eq_of_level_lt (hlt.trans_le (level_le _ _)))
    rw [hagree]
  · exact Or.inl (by rw [place, place, heq])

/-- What is moved and what is not moved never share a bucket afterwards. -/
theorem place_succ_ne (hpos : ∀ k, 0 < w k) (h : now < due) (hfar : due < now + (w n - w (n - 1)))
    (h' : now < due') (hsource : source w n (now + 1) = some (place w n now due))
    (hsource' : source w n (now + 1) ≠ some (place w n now due')) :
    place w n (now + 1) due ≠ place w n (now + 1) due' := by
  intro heq
  have hlt := level_lt_of_source hdvd hpos h hfar hsource
  have hstay : place w n (now + 1) due' = place w n now due' :=
    (place_succ hdvd h').resolve_right hsource'
  have hlevel := congrArg Prod.fst (heq.trans hstay)
  have hcarry := carry_le_level (w := w) (n := n) h'
  have hcarry' : level w n now due = carry w n (now + 1) := level_eq_carry_of_lt hdvd h hlt
  simp only [place] at hlevel
  omega

end

end Step

/-! ### Buckets -/

section Buckets

variable {α : Type*} {now : ℕ} {pending : List α} {due : α → ℕ}

private theorem filter_append_filter {p q r : α → Bool} (l : List α)
    (hr : ∀ a ∈ l, r a = (p a || q a)) (hpq : ∀ a ∈ l, ∀ b ∈ l, p a = true → q b = false) :
    l.filter p ++ l.filter q = l.filter r := by
  by_cases hp : ∃ a ∈ l, p a = true
  · obtain ⟨a, ha, hpa⟩ := hp
    have hq : ∀ b ∈ l, q b = false := fun b hb => hpq a ha b hb hpa
    have hnil : l.filter q = [] := filter_eq_nil_iff.mpr fun b hb => by simp [hq b hb]
    rw [hnil, append_nil]
    exact filter_congr fun b hb => by simp [hr b hb, hq b hb]
  · have hp' : ∀ a ∈ l, p a = false := fun a ha => by
      simpa using fun h => hp ⟨a, ha, h⟩
    have hnil : l.filter p = [] := filter_eq_nil_iff.mpr fun a ha => by simp [hp' a ha]
    rw [hnil, nil_append]
    exact filter_congr fun a ha => by simp [hr a ha, hp' a ha]

/-- **The cascade.** If every bucket is the list of what belongs to it, then after one step of
the time this holds again when the emptied bucket is moved, in order, to the end of the others. -/
theorem filter_place_succ (hdvd : ∀ k, w k ∣ w (k + 1)) (hpos : ∀ k, 0 < w k)
    (h : ∀ a ∈ pending, now < due a)
    (hfar : ∀ a ∈ pending, due a < now + (w n - w (n - 1))) (b : ℕ × ℕ) :
    (if source w n (now + 1) = some b then []
      else pending.filter fun a => place w n now (due a) = b) ++
        (pending.filter fun a => source w n (now + 1) = some (place w n now (due a))).filter
          (fun a => place w n (now + 1) (due a) = b) =
      pending.filter fun a => place w n (now + 1) (due a) = b := by
  have hstay : (if source w n (now + 1) = some b then []
      else pending.filter fun a => place w n now (due a) = b) =
      pending.filter fun a => place w n now (due a) = b ∧
        source w n (now + 1) ≠ some (place w n now (due a)) := by
    split_ifs with hb
    · refine (filter_eq_nil_iff.mpr fun a _ => ?_).symm
      simp only [decide_eq_true_eq, not_and, not_not]
      rintro rfl
      exact hb
    · refine filter_congr fun a _ => ?_
      simp only [decide_eq_decide, iff_self_and]
      rintro rfl
      exact hb
  rw [hstay, filter_filter]
  refine filter_append_filter pending (fun a ha => ?_) fun a ha a' ha' hp => ?_
  · rcases place_succ (n := n) hdvd (h a ha) with heq | hsource
    · by_cases hsource : source w n (now + 1) = some (place w n now (due a))
      · simp [hsource]
      · simp [hsource, heq]
    · simp [hsource]
  · simp only [decide_eq_true_eq] at hp
    obtain ⟨hb, hne⟩ := hp
    by_contra hq
    simp only [Bool.and_eq_false_imp, decide_eq_true_eq, decide_eq_false_iff_not, not_forall,
      not_not] at hq
    obtain ⟨hb', hsource⟩ := hq
    refine place_succ_ne hdvd hpos (h a' ha') (hfar a' ha') (h a ha) hsource hne ?_
    rw [hb', (place_succ hdvd (h a ha)).resolve_right hne, hb]

theorem place_eq_place_self_iff {due : ℕ} (hn : 0 < n) :
    place w n now due = place w n now now ↔ due = now := by
  refine ⟨fun heq => ?_, fun h => h ▸ rfl⟩
  have hself : level w n now now = 0 := Nat.le_zero.mp (level_le_of_div_eq rfl)
  simp only [place, hself, Prod.mk.injEq] at heq
  obtain ⟨hlevel, hslot⟩ := heq
  rw [hlevel] at hslot
  have hdiv := div_eq_of_level_lt (hlevel ▸ hn)
  rw [hlevel] at hdiv
  simp only [slot] at hslot
  rw [← Nat.div_add_mod due (w 0), ← Nat.div_add_mod now (w 0), hdiv, hslot]

end Buckets

end Wheel
