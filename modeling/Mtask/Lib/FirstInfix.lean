import Mathlib.Data.List.Infix

/-!
# The first occurrence of a delimiter

`List.dropInfix?` cuts a list at the first occurrence of a delimiter. When the list grows, a cut
does not change, and a list that had none before is searched only from where a new occurrence can
begin.

## Main results

* `eq_some_iff`, `eq_none_iff`: what `List.dropInfix?` finds.
* `of_isPrefix`, `cons_of_not_prefix`: the search goes on element by element.
* `append`: a cut does not change when the list grows.
* `resume`: searching the end of a list that has grown.
-/

namespace FirstInfix

open List

variable {α : Type*} [BEq α] [LawfulBEq α] {s t d p q : List α}

theorem eq_some_iff : s.dropInfix? d = some (p, q) ↔
    s = p ++ d ++ q ∧ ∀ p' q', s = p' ++ d ++ q' → p.length ≤ p'.length := by
  rw [dropInfix?_eq_some_iff]
  constructor
  · rintro ⟨⟨d', hs, hd⟩, hfirst⟩
    rw [eq_of_beq hd] at hs
    exact ⟨hs, fun p' q' h => hfirst p' d q' h (beq_self_eq_true d)⟩
  · rintro ⟨hs, hfirst⟩
    refine ⟨⟨d, hs, beq_self_eq_true d⟩, fun p' d' q' h hd => ?_⟩
    rw [eq_of_beq hd] at h
    exact hfirst p' q' h

theorem eq_none_iff : s.dropInfix? d = none ↔ ∀ p q, s ≠ p ++ d ++ q := by
  constructor
  · intro h
    -- an occurrence that ends first would have been found
    have hnone (n : ℕ) : ∀ p q, p.length = n → s ≠ p ++ d ++ q := by
      induction n using Nat.strongRecOn with
      | _ n ih =>
        rintro p q rfl hs
        have hcut : s.dropInfix? d = some (p, q) := by
          refine eq_some_iff.2 ⟨hs, fun p' q' h' => ?_⟩
          by_contra hlt
          exact ih p'.length (by omega) p' q' rfl h'
        rw [h] at hcut
        cases hcut
    exact fun p q => hnone p.length p q rfl
  · intro h
    cases hcut : s.dropInfix? d with
    | none => rfl
    | some pq => exact absurd (eq_some_iff.1 hcut).1 (h pq.1 pq.2)

/-- A list that begins with the delimiter is cut at once. -/
theorem of_isPrefix (h : d <+: s) : s.dropInfix? d = some ([], s.drop d.length) := by
  obtain ⟨q, rfl⟩ := h
  refine eq_some_iff.2 ⟨?_, fun _ _ _ => Nat.zero_le _⟩
  rw [nil_append, drop_left]

/-- A list that does not begin with the delimiter is searched behind its first element. -/
theorem cons_of_not_prefix {a : α} (h : ¬d <+: a :: s) :
    (a :: s).dropInfix? d = (s.dropInfix? d).map fun r => (a :: r.1, r.2) := by
  cases hcut : s.dropInfix? d with
  | none =>
    refine eq_none_iff.2 fun p q hs => ?_
    cases p with
    | nil => exact h ⟨q, hs.symm⟩
    | cons b p =>
      rw [cons_append, cons_append, List.cons.injEq] at hs
      exact eq_none_iff.1 hcut p q hs.2
  | some r =>
    obtain ⟨hs, hfirst⟩ := eq_some_iff.1 hcut
    refine eq_some_iff.2 ⟨?_, fun p' q' h' => ?_⟩
    · rw [cons_append, cons_append, ← hs]
    · cases p' with
      | nil => exact absurd ⟨q', h'.symm⟩ h
      | cons b p' =>
        rw [cons_append, cons_append, List.cons.injEq] at h'
        exact Nat.succ_le_succ (hfirst p' q' h'.2)

/-- A list in which the first element of the delimiter does not occur is cut off. -/
theorem append_of_notMem {a : α} (h : a ∉ s) (t : List α) :
    (s ++ (a :: d ++ t)).dropInfix? (a :: d) = some (s, t) := by
  induction s with
  | nil => exact (of_isPrefix ⟨t, rfl⟩).trans (by rw [drop_left])
  | cons b s ih =>
    rw [mem_cons, not_or] at h
    rw [cons_append, cons_of_not_prefix fun hp => h.1 (cons_prefix_cons.mp hp).1, ih h.2]
    rfl

theorem eq_none_of_length_lt (h : s.length < d.length) : s.dropInfix? d = none := by
  refine eq_none_iff.2 fun p q hs => ?_
  rw [hs, length_append, length_append] at h
  omega

/-- A cut does not change when the list grows. -/
theorem append (h : s.dropInfix? d = some (p, q)) (t : List α) :
    (s ++ t).dropInfix? d = some (p, q ++ t) := by
  obtain ⟨hs, hfirst⟩ := eq_some_iff.1 h
  refine eq_some_iff.2 ⟨by rw [hs, append_assoc], fun p' q' h' => ?_⟩
  by_contra hlt
  -- an earlier occurrence is in the list itself
  have hle : (p' ++ d).length ≤ s.length := by
    rw [hs]
    simp only [length_append]
    omega
  have htake : s = p' ++ d ++ q'.take (s.length - (p' ++ d).length) := by
    have := congrArg (List.take s.length) h'
    rwa [take_left, take_append, take_of_length_le hle] at this
  exact hlt (hfirst p' _ htake)

/-- A list without the delimiter ends before the first cut of a longer one. -/
theorem length_lt (h : s.dropInfix? d = none) (hcut : (s ++ t).dropInfix? d = some (p, q)) :
    s.length < p.length + d.length := by
  by_contra hle
  have hlen : (p ++ d).length ≤ s.length := by
    rw [length_append]
    omega
  have hs := (eq_some_iff.1 hcut).1
  refine eq_none_iff.1 h p (q.take (s.length - (p ++ d).length)) ?_
  have := congrArg (List.take s.length) hs
  rwa [take_left, take_append, take_of_length_le hlen] at this

theorem drop {n : ℕ} (h : s.dropInfix? d = some (p, q)) (hn : n ≤ p.length) :
    (s.drop n).dropInfix? d = some (p.drop n, q) := by
  obtain ⟨hs, hfirst⟩ := eq_some_iff.1 h
  refine eq_some_iff.2 ⟨?_, fun p' q' h' => ?_⟩
  · rw [hs, append_assoc, drop_append_of_le_length hn, append_assoc]
  · have hp := hfirst (s.take n ++ p') q' (by
      rw [append_assoc, append_assoc, ← append_assoc p', ← h', take_append_drop])
    simp only [length_append, length_take, length_drop] at hp ⊢
    omega

/-- In a list that has grown it is enough to search the end. -/
theorem resume (h : s.dropInfix? d = none) (t : List α) {n : ℕ} (hn : n ≤ s.length + 1 - d.length) :
    (((s ++ t).drop n).dropInfix? d).map Prod.snd = ((s ++ t).dropInfix? d).map Prod.snd := by
  cases hcut : (s ++ t).dropInfix? d with
  | some pq =>
    have hlt := length_lt h hcut
    rw [drop hcut (by omega)]
    rfl
  | none =>
    cases hdrop : ((s ++ t).drop n).dropInfix? d with
    | none => rfl
    | some pq =>
      refine absurd ?_ (eq_none_iff.1 hcut ((s ++ t).take n ++ pq.1) pq.2)
      have hs := (eq_some_iff.1 hdrop).1
      rw [append_assoc, append_assoc, ← append_assoc pq.1, ← hs,
        take_append_drop]

end FirstInfix
