import Mathlib.Data.List.Induction
import Mathlib.Data.List.TakeDrop

/-!
# Tables kept in an array

A table is the front of an array of cells, of which the cells behind the front may never have been
written (`none`). The loops that insert an entry into the front and that take entries out of it
move single cells, and every access has to be inside the array.

## Main definitions

* `Front`: the array whose front are the given entries.
* `copyCells`, `shiftCells`, `compactCells`: the loops that copy a range to a
  fixed distance in another array, that move a range up by one cell, and that close the gaps of the
  entries that are dropped.
* `bisect`: the binary search.

## Main results

* `copyCells_gap`, `shiftCells_eq`, `compactCells_eq`: what the loops leave.
* `bisect_spec`: in a front that is in order the search finds what is there, or the place
  where it would have to be.
-/

namespace Tables

open List

variable {α : Type*}

/-- The first cells are these entries. -/
def Front (cells : List (Option α)) (entries : List α) : Prop :=
  ∃ rest, cells = entries.map some ++ rest

variable {cells : List (Option α)} {entries : List α}

theorem Front.getElem? (h : Front cells entries) {i : ℕ} (hi : i < entries.length) :
    cells[i]? = some (some entries[i]) := by
  obtain ⟨rest, rfl⟩ := h
  rw [getElem?_append_left (by simpa using hi), getElem?_map,
    getElem?_eq_getElem hi, Option.map_some]

theorem Front.length_le (h : Front cells entries) : entries.length ≤ cells.length := by
  obtain ⟨rest, rfl⟩ := h
  simp

/-! ### The loops that move cells -/

/-- `for (; n > 0; i++, n--) dst[i + off] = src[i]` -/
def copyCells (src : List (Option α)) (off : ℕ) :
    ℕ → ℕ → List (Option α) → Option (List (Option α))
  | _, 0, dst => some dst
  | i, n + 1, dst =>
    match src[i]? with
    | none => none
    | some x =>
      if i + off < dst.length then copyCells src off (i + 1) n (dst.set (i + off) x) else none

/-- `for (i = before + n; i > before; i--) cells[i] = cells[i - 1]` -/
def shiftCells (before : ℕ) : ℕ → List (Option α) → Option (List (Option α))
  | 0, cells => some cells
  | n + 1, cells =>
    match cells[before + n]? with
    | none => none
    | some x =>
      if before + n + 1 < cells.length then shiftCells before n (cells.set (before + n + 1) x)
      else none

/-- The loop over `i` that drops entries and moves every other one down to the next place `j`. -/
def compactCells (drop : α → Bool) :
    ℕ → ℕ → ℕ → List (Option α) → Option (List (Option α) × ℕ)
  | _, j, 0, cells => some (cells, j)
  | i, j, n + 1, cells =>
    match cells[i]? with
    | some (some x) =>
      if drop x then compactCells drop (i + 1) j n cells
      else compactCells drop (i + 1) (j + 1) n (if i = j then cells else cells.set j (some x))
    | _ => none

/-- The copied range takes the place of as many cells. -/
theorem copyCells_eq (off : ℕ) (a b c d e f : List (Option α)) (hd : d.length = a.length + off)
    (he : e.length = b.length) :
    copyCells (a ++ b ++ c) off a.length b.length (d ++ e ++ f) = some (d ++ b ++ f) := by
  induction b generalizing a d e with
  | nil =>
    obtain rfl := length_eq_zero_iff.mp he
    rfl
  | cons x b ih =>
    obtain ⟨y, e, rfl⟩ := exists_cons_of_length_eq_add_one he
    have hread : (a ++ x :: b ++ c)[a.length]? = some x := by simp
    have hset : (d ++ y :: e ++ f).set (a.length + off) x = d ++ [x] ++ e ++ f := by
      simp [← hd]
    rw [length_cons, copyCells, hread]
    dsimp only
    rw [if_pos (by simp [← hd]), hset]
    have h := ih (a ++ [x]) (d ++ [x]) e (by simp [hd]; omega) (by simpa using he)
    simpa using h

/-- Two ranges copied to a new array, the second one cell further: the cell between them is the only
one in front that has not been written. -/
theorem copyCells_gap (a b c : List (Option α)) (m : ℕ) :
    ((copyCells (a ++ b ++ c) 0 0 a.length
        (List.replicate (a.length + (1 + (b.length + m))) none)).bind
      (copyCells (a ++ b ++ c) 1 a.length b.length)) =
      some (a ++ none :: (b ++ List.replicate m none)) := by
  have hnew : List.replicate (a.length + (1 + (b.length + m))) (none : Option α) =
      [] ++ List.replicate a.length none ++
        (none :: (List.replicate b.length none ++ List.replicate m none)) := by
    rw [Nat.add_comm 1, nil_append, replicate_append_replicate, ← replicate_succ,
      replicate_append_replicate]
  have hfirst := copyCells_eq 0 [] a (b ++ c) [] (List.replicate a.length none)
    (none :: (List.replicate b.length none ++ List.replicate m none)) rfl length_replicate
  have hsecond := copyCells_eq 1 a b c (a ++ [none]) (List.replicate b.length none)
    (List.replicate m none) (by simp) length_replicate
  simp only [nil_append, append_assoc, length_nil, cons_append]
    at hnew hfirst hsecond ⊢
  rw [hnew, hfirst, Option.bind_some, hsecond]

/-- The range has moved up by one cell; what its first cell holds now is left open. -/
theorem shiftCells_eq (a b : List (Option α)) (y : Option α) (c : List (Option α)) :
    ∃ z, shiftCells a.length b.length (a ++ b ++ y :: c) = some (a ++ z :: (b ++ c)) := by
  induction b using List.reverseRecOn generalizing y c with
  | nil => exact ⟨y, by simp [shiftCells]⟩
  | append_singleton b x ih =>
    have hread : (a ++ (b ++ [x]) ++ y :: c)[a.length + b.length]? = some x := by
      simp
    have hset : (a ++ (b ++ [x]) ++ y :: c).set (a.length + b.length + 1) x =
        a ++ b ++ x :: x :: c := by
      simp [set_append_right, Nat.add_assoc]
    obtain ⟨z, hz⟩ := ih x (x :: c)
    refine ⟨z, ?_⟩
    rw [length_append, length_singleton, shiftCells, hread]
    dsimp only
    rw [if_pos (by simp; omega), hset, hz]
    simp

/-- The entries that are kept follow each other, and their number is the new length. -/
theorem compactCells_eq (drop : α → Bool) (kept entries : List α) (gap rest : List (Option α)) :
    ∃ rest', rest'.length + (entries.filter fun x => !drop x).length =
        gap.length + entries.length + rest.length ∧
      compactCells drop (kept.length + gap.length) kept.length entries.length
          (kept.map some ++ gap ++ entries.map some ++ rest) =
        some ((kept ++ entries.filter fun x => !drop x).map some ++ rest',
          (kept ++ entries.filter fun x => !drop x).length) := by
  induction entries generalizing kept gap with
  | nil => exact ⟨gap ++ rest, by simp, by simp [compactCells]⟩
  | cons x entries ih =>
    have hread : (kept.map some ++ gap ++ (x :: entries).map some ++ rest)[kept.length +
        gap.length]? = some (some x) := by
      simp
    rw [length_cons, compactCells, hread]
    dsimp only
    cases hx : drop x with
    | true =>
      obtain ⟨rest', hlen, h⟩ := ih kept (gap ++ [some x])
      refine ⟨rest', ?_, ?_⟩
      · simp only [length_append, length_singleton] at hlen
        simp only [filter_cons, hx, Bool.not_true, Bool.false_eq_true, if_false]
        omega
      · simpa [hx, Nat.add_assoc] using h
    | false =>
      cases gap with
      | nil =>
        obtain ⟨rest', hlen, h⟩ := ih (kept ++ [x]) []
        refine ⟨rest', ?_, ?_⟩
        · simp only [filter_cons, hx, Bool.not_false, if_true, length_cons]
          simp only [length_nil] at hlen ⊢
          omega
        · simpa [hx, Nat.add_assoc] using h
      | cons g gap =>
        obtain ⟨rest', hlen, h⟩ := ih (kept ++ [x]) (gap ++ [some x])
        refine ⟨rest', ?_, ?_⟩
        · simp only [filter_cons, hx, Bool.not_false, if_true, length_cons]
          simp only [length_append, length_singleton] at hlen
          omega
        · have hne : ¬kept.length + (g :: gap).length = kept.length := by simp
          have hset : (kept.map some ++ g :: gap ++ (x :: entries).map some ++ rest).set
              kept.length (some x) =
              (kept ++ [x]).map some ++ (gap ++ [some x]) ++ entries.map some ++ rest := by
            simp
          rw [if_neg (by simp), if_neg hne, hset]
          have hidx : kept.length + (g :: gap).length + 1 =
              (kept ++ [x]).length + (gap ++ [some x]).length := by
            simp
            omega
          rw [hidx, ← @length_concat _ kept x, concat_eq_append]
          simpa [hx] using h

/-! ### Binary search -/

/-- What a search comes to: the index of an entry that compares equal, or the place where one
would have to be. -/
inductive Sought where
  | found (i : ℕ)
  | missing (i : ℕ)
  deriving DecidableEq, Repr

/-- The binary search among the cells from `first` on, before `last`; it fails when it reads a cell
that is not there. -/
def bisect (cmp : α → Ordering) (cells : List (Option α)) (first last : ℕ) : Option Sought :=
  if first < last then
    let mid := (first + (last - 1)) / 2
    match cells[mid]? with
    | some (some x) =>
      match cmp x with
      | .eq => some (.found mid)
      | .lt => bisect cmp cells (mid + 1) last
      | .gt => bisect cmp cells first mid
    | _ => none
  else some (.missing first)
termination_by last - first

/-- The entries that compare less stand in front of the others, and those that compare greater
behind them. -/
def InOrder (cmp : α → Ordering) (entries : List α) : Prop :=
  entries.Pairwise fun x y => cmp y ≠ .gt → cmp x = .lt

/-- The result that a search in these entries should have. -/
def Sought.Correct (cmp : α → Ordering) (entries : List α) : Sought → Prop
  | .found i => ∃ h : i < entries.length, cmp entries[i] = .eq
  | .missing i => i ≤ entries.length ∧ (∀ x ∈ entries.take i, cmp x = .lt) ∧
      ∀ x ∈ entries.drop i, cmp x = .gt

variable {cmp : α → Ordering}

theorem InOrder.lt_of_lt (h : InOrder cmp entries) {i j : ℕ} (hij : i < j) (hj : j < entries.length)
    (hne : cmp entries[j] ≠ .gt) : cmp entries[i] = .lt :=
  pairwise_iff_getElem.mp h i j (Nat.lt_trans hij hj) hj hij hne

/-- The range of the search, with everything in front of it less and everything behind it
greater, gets smaller in every round. -/
theorem bisect_of_range (hfront : Front cells entries) (hord : InOrder cmp entries) {first last : ℕ}
    (hle : first ≤ last) (hlast : last ≤ entries.length)
    (hlow : ∀ i (h : i < entries.length), i < first → cmp entries[i] = .lt)
    (hhigh : ∀ i (h : i < entries.length), last ≤ i → cmp entries[i] = .gt) :
    ∃ r, bisect cmp cells first last = some r ∧ r.Correct cmp entries := by
  induction first, last using bisect.induct cmp cells with
  | case1 first last hlt mid x hread heq =>
    have hmid : mid < entries.length := by omega
    rw [hfront.getElem? hmid] at hread
    cases hread
    refine ⟨.found mid, ?_, hmid, heq⟩
    rw [bisect, if_pos hlt]
    simp only [mid] at hmid heq ⊢
    rw [hfront.getElem? hmid]
    simp only [heq]
  | case2 first last hlt mid x hread heq ih =>
    have hmid : mid < entries.length := by omega
    have hentry := hfront.getElem? hmid
    rw [hentry] at hread
    cases hread
    obtain ⟨r, hr, hc⟩ := ih (by omega) hlast (fun i hi hlt' => by
      rcases Nat.lt_or_eq_of_le (Nat.le_of_lt_succ hlt') with h | rfl
      · exact hord.lt_of_lt h hmid (by simp [heq])
      · exact heq) hhigh
    refine ⟨r, ?_, hc⟩
    rw [bisect, if_pos hlt]
    simp only [mid] at hentry heq hr ⊢
    simp only [hentry, heq, hr]
  | case3 first last hlt mid x hread heq ih =>
    have hmid : mid < entries.length := by omega
    have hentry := hfront.getElem? hmid
    rw [hentry] at hread
    cases hread
    obtain ⟨r, hr, hc⟩ := ih (by omega) (by omega) hlow (fun i hi hge => by
      by_contra hne
      rcases Nat.lt_or_eq_of_le hge with h | rfl
      · simpa [heq] using hord.lt_of_lt h hi hne
      · exact hne heq)
    refine ⟨r, ?_, hc⟩
    rw [bisect, if_pos hlt]
    simp only [mid] at hentry heq hr ⊢
    simp only [hentry, heq, hr]
  | case4 first last hlt mid hnone =>
    have hmid : mid < entries.length := by omega
    exact absurd (hfront.getElem? hmid) (hnone _)
  | case5 first last hge =>
    obtain rfl : first = last := by omega
    refine ⟨.missing first, by rw [bisect, if_neg hge], hlast, fun x hx => ?_, fun x hx => ?_⟩
    · obtain ⟨i, hi, rfl⟩ := getElem_of_mem hx
      rw [length_take] at hi
      rw [getElem_take]
      exact hlow i (by omega) (by omega)
    · obtain ⟨i, hi, rfl⟩ := getElem_of_mem hx
      rw [length_drop] at hi
      rw [getElem_drop]
      exact hhigh (first + i) (by omega) (Nat.le_add_right _ _)

theorem bisect_spec (hfront : Front cells entries) (hord : InOrder cmp entries) :
    ∃ r, bisect cmp cells 0 entries.length = some r ∧ r.Correct cmp entries :=
  bisect_of_range hfront hord (Nat.zero_le _) (Nat.le_refl _) (fun _ _ h => absurd h (Nat.not_lt_zero _))
    fun _ h hge => absurd h (Nat.not_lt.mpr hge)

end Tables
