import Mathlib.Data.List.Nodup

/-!
# Intrusive queues

A queue whose nodes carry the pointer to the next one, with a pointer to the first node and one to
the last. The nodes are the elements of a type, and the pointers that they carry are a function of
the node, so a queue is a list of nodes that the pointers run through.

## Main definitions

* `Seg`: the nodes between two pointers.
* `Linked`: the queue of a head, a tail and the pointers of the nodes.

## Main results

* `Linked.push_first`, `Linked.push_last`: a node is added at the end.
* `Linked.pop`: the first node is taken, with a pointer that is cleared.
-/

namespace IntrusiveQueue

open Function (update update_of_ne update_self)
open List

variable {ι : Type*} {next next' : ι → Option ι} {head tail p : Option ι} {a t : ι} {l l' : List ι}

/-- The nodes from one pointer on, up to another one. -/
inductive Seg (next : ι → Option ι) : Option ι → List ι → Option ι → Prop
  | nil (p : Option ι) : Seg next p [] p
  | cons {a : ι} {l : List ι} {p : Option ι} (h : Seg next (next a) l p) :
      Seg next (some a) (a :: l) p

namespace Seg

variable {q : Option ι}

theorem congr (h : Seg next p l q) (heq : ∀ a ∈ l, next' a = next a) : Seg next' p l q := by
  induction h with
  | nil p => exact .nil p
  | @cons a l p _ ih =>
    refine .cons ?_
    rw [heq a mem_cons_self]
    exact ih fun b hb => heq b (mem_cons_of_mem a hb)

theorem concat (h : Seg next p l (some a)) : Seg next p (l ++ [a]) (next a) := by
  generalize hq : some a = q at h
  induction h with
  | nil p =>
    subst hq
    exact .cons (.nil _)
  | cons _ ih => exact .cons (ih hq)

theorem nil_iff : Seg next p [] q ↔ p = q := by
  constructor
  · rintro ⟨⟩
    rfl
  · rintro rfl
    exact .nil p

theorem cons_iff : Seg next p (a :: l) q ↔ p = some a ∧ Seg next (next a) l q := by
  constructor
  · rintro (_ | h)
    exact ⟨rfl, h⟩
  · rintro ⟨rfl, h⟩
    exact .cons h

theorem of_concat (h : Seg next p (l ++ [t]) q) : Seg next p l (some t) ∧ q = next t := by
  induction l generalizing p with
  | nil =>
    obtain ⟨rfl, hrest⟩ := cons_iff.mp h
    exact ⟨.nil _, (nil_iff.mp hrest).symm⟩
  | cons b l ih =>
    obtain ⟨rfl, hrest⟩ := cons_iff.mp h
    obtain ⟨hl, hq⟩ := ih hrest
    exact ⟨.cons hl, hq⟩

theorem append_iff : Seg next p (l ++ l') q ↔ ∃ r, Seg next p l r ∧ Seg next r l' q := by
  induction l generalizing p with
  | nil => simp [nil_iff]
  | cons a l ih =>
    rw [cons_append, cons_iff, ih]
    simp only [cons_iff]
    exact ⟨fun ⟨hp, r, h, h'⟩ => ⟨r, ⟨hp, h⟩, h'⟩, fun ⟨r, ⟨hp, h⟩, h'⟩ => ⟨hp, r, h, h'⟩⟩

/-- A node is taken out behind another one, whose pointer passes over it. -/
theorem unlink [DecidableEq ι] (h : Seg next p (l ++ t :: a :: l') q)
    (hnodup : (l ++ t :: a :: l').Nodup) : Seg (update next t (next a)) p (l ++ t :: l') q := by
  obtain ⟨r, hl, hrest⟩ := append_iff.mp h
  obtain ⟨rfl, ha⟩ := cons_iff.mp hrest
  obtain ⟨-, hl'⟩ := cons_iff.mp ha
  have ht := (nodup_append.mp hnodup).2.1
  have hmem : t ∉ l := fun ht' => disjoint_of_nodup_append hnodup ht' mem_cons_self
  have hmem' : t ∉ l' := fun ht' => (nodup_cons.mp ht).1 (mem_cons_of_mem _ ht')
  refine append_iff.mpr ⟨some t, hl.congr fun b hb => update_of_ne
    (ne_of_mem_of_not_mem hb hmem) .., .cons ?_⟩
  rw [update_self]
  exact hl'.congr fun b hb => update_of_ne (ne_of_mem_of_not_mem hb hmem') ..

theorem unique (h : Seg next p l none) (h' : Seg next p l' none) : l = l' := by
  induction l generalizing p l' with
  | nil =>
    rw [nil_iff.1 h] at h'
    cases h'
    rfl
  | cons a l ih =>
    obtain ⟨rfl, hrest⟩ := cons_iff.1 h
    cases h' with
    | cons hrest' => rw [ih hrest hrest']

theorem suffix (h : Seg next p l q) (ha : a ∈ l) :
    ∃ l', Seg next (some a) (a :: l') q ∧ (a :: l').Sublist l := by
  induction h with
  | nil p => cases ha
  | @cons b l p hrest ih =>
    rcases mem_cons.1 ha with rfl | ha
    · exact ⟨l, .cons hrest, .refl _⟩
    · obtain ⟨l', hl', hsub⟩ := ih ha
      exact ⟨l', hl', hsub.trans (sublist_cons_self b l)⟩

/-- Consecutive numbers, each of which points to the next one. -/
theorem range' {next : ℕ → Option ℕ} {a k : ℕ} (hk : 0 < k)
    (h : ∀ i < k, next (a + i) = if i + 1 < k then some (a + i + 1) else none) :
    Seg next (some a) (List.range' a k) none := by
  induction k generalizing a with
  | zero => exact absurd hk (Nat.lt_irrefl 0)
  | succ k ih =>
    rw [range'_succ]
    refine .cons ?_
    have hfirst := h 0 hk
    rw [Nat.add_zero] at hfirst
    rw [hfirst]
    rcases Nat.eq_zero_or_pos k with rfl | hpos
    · exact .nil none
    · rw [if_pos (by omega)]
      refine ih hpos fun i hi => ?_
      have hnext := h (i + 1) (by omega)
      simp only [Nat.add_lt_add_iff_right] at hnext
      rwa [show a + 1 + i = a + (i + 1) by omega]

end Seg

/-- The nodes of a queue. -/
structure Linked (next : ι → Option ι) (head tail : Option ι) (l : List ι) : Prop where
  seg : Seg next head l none
  tail_eq : tail = l.getLast?
  nodup : l.Nodup

namespace Linked

theorem empty : Linked next none none [] :=
  ⟨.nil _, rfl, nodup_nil⟩

theorem congr (h : Linked next head tail l) (heq : ∀ a ∈ l, next' a = next a) :
    Linked next' head tail l :=
  ⟨h.seg.congr heq, h.tail_eq, h.nodup⟩

theorem eq_nil (h : Linked next none tail l) : l = [] := by
  rcases l with _ | ⟨a, l⟩
  · rfl
  · exact absurd (Seg.cons_iff.mp h.seg).1 (by simp)

theorem head_ne_none (h : Linked next head (some t) l) : head ≠ none := by
  rintro rfl
  have htail := h.tail_eq
  rw [h.eq_nil] at htail
  simp at htail

theorem next_tail (h : Linked next head (some t) l) : next t = none := by
  obtain ⟨hseg, htail, -⟩ := h
  obtain ⟨l, rfl⟩ : ∃ l', l = l' ++ [t] := getLast?_eq_some_iff.mp htail.symm
  exact hseg.of_concat.2.symm

theorem push_first (h : Linked next head none l) (ha : next a = none) :
    l = [] ∧ Linked next (some a) (some a) [a] := by
  refine ⟨getLast?_eq_none_iff.mp h.tail_eq.symm, ?_, rfl, nodup_singleton a⟩
  have hnil : Seg next (next a) [] none := ha ▸ .nil _
  exact .cons hnil

variable [DecidableEq ι]

theorem push_last (h : Linked next head (some t) l) (hmem : a ∉ l) (ha : next a = none) :
    Linked (update next t (some a)) head (some a) (l ++ [a]) := by
  obtain ⟨hseg, htail, hnodup⟩ := h
  obtain ⟨l, rfl⟩ : ∃ l', l = l' ++ [t] := getLast?_eq_some_iff.mp htail.symm
  obtain ⟨hseg, -⟩ := hseg.of_concat
  have hat : a ≠ t := fun h => hmem (by simp [h])
  have ht : t ∉ l := fun ht => disjoint_of_nodup_append hnodup ht mem_cons_self
  have hfirst : Seg (update next t (some a)) head l (some t) :=
    hseg.congr fun b hb => update_of_ne (ne_of_mem_of_not_mem hb ht) ..
  have hlast := hfirst.concat
  rw [update_self] at hlast
  have hend := hlast.concat
  rw [update_of_ne hat, ha] at hend
  refine ⟨hend, by rw [getLast?_concat], ?_⟩
  exact nodup_append.mpr ⟨hnodup, nodup_singleton a, fun b hb c hc heq => by
    rw [mem_singleton.mp hc] at heq
    exact hmem (heq ▸ hb)⟩

/-- The first node is taken. If it is the last one as well, the tail points to it. -/
theorem pop (h : Linked next (some a) tail l) :
    ∃ l', l = a :: l' ∧ (next a = none → tail = some a) ∧
      Linked (update next a none) (next a) (if next a = none then none else tail) l' := by
  obtain ⟨hseg, htail, hnodup⟩ := h
  rcases l with _ | ⟨b, l⟩
  · exact absurd (Seg.nil_iff.mp hseg) (by simp)
  obtain ⟨hab, hseg⟩ := Seg.cons_iff.mp hseg
  obtain rfl := Option.some.inj hab
  obtain ⟨ha, hnodup⟩ := nodup_cons.mp hnodup
  have hseg' : Seg (update next a none) (next a) l none :=
    hseg.congr fun b hb => update_of_ne (ne_of_mem_of_not_mem hb ha) ..
  rcases hl : l with _ | ⟨b, l'⟩
  · subst hl
    have hnone : next a = none := Seg.nil_iff.mp hseg
    exact ⟨[], rfl, fun _ => htail, ⟨hseg', by rw [if_pos hnone]; rfl, nodup_nil⟩⟩
  · subst hl
    have hsome : next a = some b := (Seg.cons_iff.mp hseg).1
    refine ⟨b :: l', rfl, fun h => by simp [hsome] at h, hseg', ?_, hnodup⟩
    rw [if_neg (by simp [hsome]), htail, getLast?_cons_cons]

end Linked

end IntrusiveQueue
