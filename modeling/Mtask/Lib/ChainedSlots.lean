import Mathlib.Data.List.Perm.Subperm
import Mtask.Lib.IntrusiveQueue

/-!
# Hash tables with the chains in the slots

A hash table of a fixed number of slots that is filled once. Every hash has a main position. What
finds its main position free is placed there, in a first pass; all the rest goes to free slots, in
a second pass, and is linked behind the slot at its main position. So the slots with one main
position are a chain that starts there.

## Main definitions

* `Slot`: a slot, with the index of the next one of its chain.
* `place`, `link`: the steps of the two passes.
* `walk`: the search along a chain.
* `Chains`: the chains of a table.
* `Filled`: the items that have been put into the slots.

## Main results

* `Chains.place`, `Chains.link`: the passes make chains.
* `Chains.walk_found`, `Chains.walk_absent`: what the search finds.
* `Filled.exists_free`, `Filled.full`: as many slots as items are enough,
  and none of them stays free.
-/

namespace ChainedSlots

open IntrusiveQueue
open List
open Option (any_some bind_some ne_none_iff_exists' some_ne_none)
open Function (update update_of_ne update_self)

/-- A slot that is in use. If it is `alone`, it has no next one. -/
structure Slot (κ τ : Type*) where
  key : κ
  value : τ
  hash : ℕ
  next : Option ℕ
  alone : Bool

variable {κ τ : Type*}

/-- The slots of a table; the free ones are `none`. -/
abbrev Slots (κ τ : Type*) := List (Option (Slot κ τ))

/-- The slot at an index, if it is in use. -/
def slotAt (slots : Slots κ τ) (i : ℕ) : Option (Slot κ τ) := slots[i]?.join

def mainpos (slots : Slots κ τ) (hash : ℕ) : ℕ := hash % slots.length

def nextOf (slots : Slots κ τ) (i : ℕ) : Option ℕ := (slotAt slots i).bind (·.next)

/-- An item at its main position. -/
def place (slots : Slots κ τ) (key : κ) (value : τ) (hash : ℕ) : Slots κ τ :=
  slots.set (mainpos slots hash) (some ⟨key, value, hash, none, true⟩)

/-- An item in the free slot `n`, behind the slot `head` at its main position. -/
def link (slots : Slots κ τ) (head : Slot κ τ) (n : ℕ) (key : κ) (value : τ) (hash : ℕ) :
    Slots κ τ :=
  (slots.set (mainpos slots hash) (some { head with next := some n, alone := false })).set n
    (some ⟨key, value, hash, head.next, false⟩)

/-- The first free slot. -/
def firstFree (slots : Slots κ τ) : Option ℕ := slots.findIdx? Option.isNone

/-- The search along a chain; it fails at a slot that is not in use, and after too many slots. -/
def walk (slots : Slots κ τ) (found : Slot κ τ → Bool) : ℕ → ℕ → Option (Option ℕ)
  | 0, _ => none
  | fuel + 1, i =>
    match slotAt slots i with
    | none => none
    | some s =>
      if found s then some (some i)
      else
        match s.next with
        | none => some none
        | some j => walk slots found fuel j

section Set

variable {slots : Slots κ τ} {i j : ℕ} {s : Slot κ τ}

theorem slotAt_set_self (h : i < slots.length) : slotAt (slots.set i (some s)) i = some s := by
  unfold slotAt
  rw [getElem?_set_self h]
  rfl

theorem slotAt_set_of_ne (h : i ≠ j) : slotAt (slots.set i (some s)) j = slotAt slots j := by
  unfold slotAt
  rw [getElem?_set_ne h]

theorem lt_length (h : slotAt slots i = some s) : i < slots.length := by
  unfold slotAt at h
  by_contra hge
  rw [getElem?_eq_none (Nat.le_of_not_lt hge)] at h
  cases h

theorem slotAt_replicate (n : ℕ) :
    slotAt (List.replicate n (none : Option (Slot κ τ))) i = none := by
  unfold slotAt
  rw [getElem?_replicate]
  split <;> rfl

theorem slotAt_firstFree {n : ℕ} (h : firstFree slots = some n) :
    n < slots.length ∧ slotAt slots n = none := by
  obtain ⟨hlt, hnone, -⟩ := findIdx?_eq_some_iff_getElem.1 h
  refine ⟨hlt, ?_⟩
  unfold slotAt
  rw [getElem?_eq_getElem hlt]
  cases hcase : slots[n] with
  | none => rfl
  | some s =>
    rw [hcase] at hnone
    cases hnone

@[simp]
theorem length_place (slots : Slots κ τ) (key : κ) (value : τ) (hash : ℕ) :
    (place slots key value hash).length = slots.length := length_set

@[simp]
theorem length_link (slots : Slots κ τ) (head : Slot κ τ) (n : ℕ) (key : κ) (value : τ)
    (hash : ℕ) : (link slots head n key value hash).length = slots.length := by
  rw [link, length_set, length_set]

end Set

section Steps

variable {slots : Slots κ τ} {key : κ} {value : τ} {hash i n : ℕ} {head s : Slot κ τ}

@[simp]
theorem mainpos_place (hash' : ℕ) :
    mainpos (place slots key value hash) hash' = mainpos slots hash' := by
  rw [mainpos, length_place, mainpos]

@[simp]
theorem mainpos_link (hash' : ℕ) :
    mainpos (link slots head n key value hash) hash' = mainpos slots hash' := by
  rw [mainpos, length_link, mainpos]

theorem slotAt_place (hpos : 0 < slots.length) :
    slotAt (place slots key value hash) i =
      if i = mainpos slots hash then some ⟨key, value, hash, none, true⟩ else slotAt slots i := by
  split
  next heq =>
    rw [heq]
    exact slotAt_set_self (Nat.mod_lt _ hpos)
  next hne => exact slotAt_set_of_ne (Ne.symm hne)

theorem slotAt_link (hn : n < slots.length) :
    slotAt (link slots head n key value hash) i =
      if i = n then some ⟨key, value, hash, head.next, false⟩
      else if i = mainpos slots hash then some { head with next := some n, alone := false }
      else slotAt slots i := by
  have hpos : 0 < slots.length := Nat.zero_lt_of_lt hn
  unfold link
  split
  next heq =>
    rw [heq]
    exact slotAt_set_self (by rw [length_set]; exact hn)
  next hne =>
    rw [slotAt_set_of_ne (Ne.symm hne)]
    split
    next heq =>
      rw [heq]
      exact slotAt_set_self (Nat.mod_lt _ hpos)
    next hne' => exact slotAt_set_of_ne (Ne.symm hne')

end Steps

/-! ### The chains -/

/-- The slots behind the one at each main position; those with the same main position are its
chain. -/
structure Chains (slots : Slots κ τ) (chain : ℕ → List ℕ) : Prop where
  seg : ∀ {p s}, slotAt slots p = some s → mainpos slots s.hash = p →
    Seg (nextOf slots) s.next (chain p) none
  of_mem : ∀ {p j}, j ∈ chain p →
    ∃ s, slotAt slots j = some s ∧ mainpos slots s.hash = p ∧ j ≠ p
  nodup : ∀ p, (chain p).Nodup
  head : ∀ {i s}, slotAt slots i = some s → ∃ s', slotAt slots (mainpos slots s.hash) = some s' ∧
    mainpos slots s'.hash = mainpos slots s.hash
  mem : ∀ {i s}, slotAt slots i = some s → i ≠ mainpos slots s.hash →
    i ∈ chain (mainpos slots s.hash)
  alone : ∀ {i s}, slotAt slots i = some s → s.alone = true → s.next = none

namespace Chains

variable {slots : Slots κ τ} {chain : ℕ → List ℕ} {key : κ} {value : τ} {hash n : ℕ}
  {head : Slot κ τ}

theorem empty (n : ℕ) : Chains (List.replicate n (none : Option (Slot κ τ))) fun _ => [] where
  seg h := by
    rw [slotAt_replicate] at h
    cases h
  of_mem h := absurd h not_mem_nil
  nodup _ := nodup_nil
  head h := by
    rw [slotAt_replicate] at h
    cases h
  mem h := by
    rw [slotAt_replicate] at h
    cases h
  alone h := by
    rw [slotAt_replicate] at h
    cases h

theorem place (h : Chains slots fun _ => []) (hpos : 0 < slots.length)
    (hfree : slotAt slots (mainpos slots hash) = none) :
    Chains (place slots key value hash) fun _ => [] := by
  have hcases {i s} (hs : slotAt (ChainedSlots.place slots key value hash) i = some s) :
      i = mainpos slots hash ∧ s = ⟨key, value, hash, none, true⟩ ∨
        i ≠ mainpos slots hash ∧ slotAt slots i = some s := by
    rw [slotAt_place hpos] at hs
    split at hs
    next heq => exact .inl ⟨heq, (Option.some.inj hs).symm⟩
    next hne => exact .inr ⟨hne, hs⟩
  have hself : slotAt (ChainedSlots.place slots key value hash) (mainpos slots hash) =
      some ⟨key, value, hash, none, true⟩ := by
    rw [slotAt_place hpos, if_pos rfl]
  constructor
  case seg =>
    intro p s hs hp
    rw [mainpos_place] at hp
    rw [Seg.nil_iff]
    rcases hcases hs with ⟨-, rfl⟩ | ⟨-, hs⟩
    · rfl
    · exact Seg.nil_iff.1 (h.seg hs hp)
  case of_mem => exact fun hmem => absurd hmem not_mem_nil
  case nodup => exact fun _ => nodup_nil
  case head =>
    intro i s hs
    simp only [mainpos_place]
    rcases hcases hs with ⟨rfl, rfl⟩ | ⟨hne, hs⟩
    · exact ⟨_, hself, rfl⟩
    · obtain ⟨s', hs', heq⟩ := h.head hs
      have hne : mainpos slots s.hash ≠ mainpos slots hash := by
        intro heq'
        rw [heq', hfree] at hs'
        cases hs'
      exact ⟨s', by rw [slotAt_place hpos, if_neg hne, hs'], heq⟩
  case mem =>
    intro i s hs hne
    rw [mainpos_place] at hne
    rcases hcases hs with ⟨rfl, rfl⟩ | ⟨-, hs⟩
    · exact absurd rfl hne
    · exact h.mem hs hne
  case alone =>
    intro i s hs halone
    rcases hcases hs with ⟨-, rfl⟩ | ⟨-, hs⟩
    · rfl
    · exact h.alone hs halone

/-- The second pass: the chain of the main position gets one more slot. -/
theorem link (h : Chains slots chain) (hn : n < slots.length) (hfree : slotAt slots n = none)
    (hhead : slotAt slots (mainpos slots hash) = some head)
    (hown : mainpos slots head.hash = mainpos slots hash) :
    Chains (link slots head n key value hash)
      (update chain (mainpos slots hash) (n :: chain (mainpos slots hash))) := by
  generalize hp : mainpos slots hash = p at *
  have hnp : n ≠ p := by
    intro heq
    rw [heq, hhead] at hfree
    cases hfree
  have hslot (i : ℕ) : slotAt (ChainedSlots.link slots head n key value hash) i =
      if i = n then some ⟨key, value, hash, head.next, false⟩
      else if i = p then some { head with next := some n, alone := false }
      else slotAt slots i := by
    rw [slotAt_link hn, hp]
  have hcases {i s} (hs : slotAt (ChainedSlots.link slots head n key value hash) i = some s) :
      i = n ∧ s = ⟨key, value, hash, head.next, false⟩ ∨
        i = p ∧ s = { head with next := some n, alone := false } ∨
          i ≠ n ∧ i ≠ p ∧ slotAt slots i = some s := by
    rw [hslot] at hs
    split_ifs at hs with h₁ h₂
    · exact .inl ⟨h₁, (Option.some.inj hs).symm⟩
    · exact .inr (.inl ⟨h₂, (Option.some.inj hs).symm⟩)
    · exact .inr (.inr ⟨h₁, h₂, hs⟩)
  have hkeep {j q} (hj : j ∈ chain q) : j ≠ n ∧ j ≠ p := by
    obtain ⟨s, hs, hq, hne⟩ := h.of_mem hj
    refine ⟨fun heq => ?_, fun heq => ?_⟩
    · rw [heq, hfree] at hs
      cases hs
    · rw [heq, hhead] at hs
      cases hs
      exact hne (heq.trans (hown.symm.trans hq))
  have hnext {j q} (hj : j ∈ chain q) :
      nextOf (ChainedSlots.link slots head n key value hash) j = nextOf slots j := by
    obtain ⟨hjn, hjp⟩ := hkeep hj
    rw [nextOf, hslot, if_neg hjn, if_neg hjp, nextOf]
  have hself : slotAt (ChainedSlots.link slots head n key value hash) p =
      some { head with next := some n, alone := false } := by
    rw [hslot, if_neg (Ne.symm hnp), if_pos rfl]
  have hnew : slotAt (ChainedSlots.link slots head n key value hash) n =
      some ⟨key, value, hash, head.next, false⟩ := by
    rw [hslot, if_pos rfl]
  constructor
  case seg =>
    intro q s hs hq
    rw [mainpos_link] at hq
    rcases hcases hs with ⟨rfl, rfl⟩ | ⟨rfl, rfl⟩ | ⟨hqn, hqp, hs⟩
    · exact absurd (hq.symm.trans hp) hnp
    · rw [update_self]
      refine .cons ?_
      rw [nextOf, hnew]
      exact (h.seg hhead hown).congr fun j hj => hnext hj
    · rw [update_of_ne hqp]
      exact (h.seg hs hq).congr fun j hj => hnext hj
  case of_mem =>
    intro q j hj
    simp only [mainpos_link]
    have hold (hj : j ∈ chain q) : ∃ s,
        slotAt (ChainedSlots.link slots head n key value hash) j = some s ∧
          mainpos slots s.hash = q ∧ j ≠ q := by
      obtain ⟨hjn, hjp⟩ := hkeep hj
      rw [hslot, if_neg hjn, if_neg hjp]
      exact h.of_mem hj
    by_cases hqp : q = p
    · subst hqp
      rw [update_self, mem_cons] at hj
      rcases hj with rfl | hj
      · exact ⟨_, hnew, hp, hnp⟩
      · exact hold hj
    · rw [update_of_ne hqp] at hj
      exact hold hj
  case nodup =>
    intro q
    by_cases hqp : q = p
    · subst hqp
      rw [update_self]
      exact nodup_cons.2 ⟨fun hmem => (hkeep hmem).1 rfl, h.nodup q⟩
    · rw [update_of_ne hqp]
      exact h.nodup q
  case head =>
    intro i s hs
    simp only [mainpos_link]
    rcases hcases hs with ⟨rfl, rfl⟩ | ⟨rfl, rfl⟩ | ⟨-, -, hs⟩
    · rw [hp]
      exact ⟨_, hself, hown⟩
    · rw [hown]
      exact ⟨_, hself, hown⟩
    · obtain ⟨s', hs', heq⟩ := h.head hs
      have hne : mainpos slots s.hash ≠ n := by
        intro heq'
        rw [heq', hfree] at hs'
        cases hs'
      by_cases hqp : mainpos slots s.hash = p
      · rw [hqp]
        exact ⟨_, hself, hown⟩
      · exact ⟨s', by rw [hslot, if_neg hne, if_neg hqp, hs'], heq⟩
  case mem =>
    intro i s hs hne
    rw [mainpos_link] at hne ⊢
    rcases hcases hs with ⟨rfl, rfl⟩ | ⟨rfl, rfl⟩ | ⟨-, -, hs⟩
    · rw [hp, update_self]
      exact mem_cons_self
    · exact absurd hown.symm hne
    · by_cases hqp : mainpos slots s.hash = p
      · rw [hqp, update_self]
        exact mem_cons_of_mem _ (hqp ▸ h.mem hs hne)
      · rw [update_of_ne hqp]
        exact h.mem hs hne
  case alone =>
    intro i s hs halone
    rcases hcases hs with ⟨rfl, rfl⟩ | ⟨rfl, rfl⟩ | ⟨-, -, hs⟩
    · cases halone
    · cases halone
    · exact h.alone hs halone

/-- The slots from one of them on are a chain, which is not longer than the table. -/
theorem from_slot (h : Chains slots chain) {i : ℕ} {s : Slot κ τ} (hs : slotAt slots i = some s) :
    ∃ l, Seg (nextOf slots) (some i) (i :: l) none ∧ (i :: l).length ≤ slots.length ∧
      ∀ j ∈ i :: l, slotAt slots j ≠ none := by
  obtain ⟨s', hs', hown⟩ := h.head hs
  generalize hp : mainpos slots s.hash = p at *
  have hwhole : Seg (nextOf slots) (some p) (p :: chain p) none := by
    refine .cons ?_
    rw [nextOf, hs']
    exact h.seg hs' hown
  have hused : ∀ j ∈ p :: chain p, slotAt slots j ≠ none := by
    intro j hj
    rcases mem_cons.1 hj with rfl | hj
    · rw [hs']
      exact some_ne_none _
    · obtain ⟨s, hs, -⟩ := h.of_mem hj
      rw [hs]
      exact some_ne_none _
  have hnodup : (p :: chain p).Nodup := nodup_cons.2
    ⟨fun hmem => (h.of_mem hmem).choose_spec.2.2 rfl, h.nodup p⟩
  have hle : (p :: chain p).length ≤ slots.length := by
    have hsub : p :: chain p ⊆ List.range slots.length := by
      intro j hj
      obtain ⟨s, hs⟩ := ne_none_iff_exists'.1 (hused j hj)
      exact mem_range.2 (lt_length hs)
    have := (subperm_of_subset hnodup hsub).length_le
    rwa [length_range] at this
  have hi : i ∈ p :: chain p := by
    by_cases hip : i = p
    · rw [hip]
      exact mem_cons_self
    · exact mem_cons_of_mem _ (hp ▸ h.mem hs (hp ▸ hip))
  obtain ⟨l, hseg, hsub⟩ := hwhole.suffix hi
  exact ⟨l, hseg, Nat.le_trans hsub.length_le hle, fun j hj => hused j (hsub.subset hj)⟩

end Chains

theorem walk_of_seg {slots : Slots κ τ} {found : Slot κ τ → Bool} {fuel i : ℕ} {l : List ℕ}
    (h : Seg (nextOf slots) (some i) (i :: l) none) (hused : ∀ j ∈ i :: l, slotAt slots j ≠ none)
    (hfuel : (i :: l).length ≤ fuel) :
    walk slots found fuel i = some ((i :: l).find? fun j => (slotAt slots j).any found) := by
  induction l generalizing fuel i with
  | nil =>
    obtain ⟨fuel, rfl⟩ := Nat.exists_eq_succ_of_ne_zero (Nat.ne_of_gt hfuel)
    obtain ⟨s, hs⟩ := ne_none_iff_exists'.1 (hused i mem_cons_self)
    have hnext : s.next = none := by
      have := Seg.nil_iff.1 (Seg.cons_iff.1 h).2
      rwa [nextOf, hs] at this
    simp only [walk, hs, hnext, find?_cons, any_some, find?_nil]
    cases found s <;> rfl
  | cons j l ih =>
    obtain ⟨fuel, rfl⟩ := Nat.exists_eq_succ_of_ne_zero (Nat.ne_of_gt (Nat.zero_lt_of_lt hfuel))
    obtain ⟨s, hs⟩ := ne_none_iff_exists'.1 (hused i mem_cons_self)
    have hrest := (Seg.cons_iff.1 h).2
    have hnext : s.next = some j := by
      have := (Seg.cons_iff.1 hrest).1
      rwa [nextOf, hs] at this
    have hih := ih (by rwa [nextOf, hs, bind_some, hnext] at hrest)
      (fun a ha => hused a (mem_cons_of_mem _ ha)) (Nat.le_of_succ_le_succ hfuel)
    simp only [walk, hs, hnext, hih, find?_cons, any_some]
    cases found s <;> rfl

namespace Chains

variable {slots : Slots κ τ} {chain : ℕ → List ℕ} (found : Slot κ τ → Bool)

/-- The search finds the only slot that it looks for, from its main position on. -/
theorem walk_found (h : Chains slots chain) {j : ℕ} {s : Slot κ τ} (hs : slotAt slots j = some s)
    (hfound : found s = true)
    (honly : ∀ j' s', slotAt slots j' = some s' → found s' = true → j' = j) :
    walk slots found slots.length (mainpos slots s.hash) = some (some j) := by
  obtain ⟨head, hhead, hown⟩ := h.head hs
  obtain ⟨l, hseg, hle, hused⟩ := h.from_slot hhead
  have hl : l = chain (mainpos slots s.hash) := by
    have hrest := (Seg.cons_iff.1 hseg).2
    have hchain := h.seg hhead hown
    rw [nextOf, hhead, bind_some] at hrest
    exact hrest.unique hchain
  have hmem : j ∈ mainpos slots s.hash :: l := by
    by_cases heq : j = mainpos slots s.hash
    · rw [← heq]
      exact mem_cons_self
    · rw [hl]
      exact mem_cons_of_mem _ (h.mem hs heq)
  rw [walk_of_seg hseg hused hle]
  have hany : (slotAt slots j).any found = true := by
    rw [hs]
    exact hfound
  obtain ⟨j', hj'⟩ := Option.isSome_iff_exists.1
    (find?_isSome (p := fun j => (slotAt slots j).any found) |>.2 ⟨j, hmem, hany⟩)
  have hj'found := find?_some (p := fun j => (slotAt slots j).any found) hj'
  rw [hj']
  obtain ⟨s', hs', hfound'⟩ := Option.any_eq_true _ _ |>.1 hj'found
  rw [honly j' s' hs' hfound']

/-- The search ends, from every slot that is in use, if there is nothing to be found. -/
theorem walk_absent (h : Chains slots chain) {i : ℕ} {s : Slot κ τ} (hs : slotAt slots i = some s)
    (hnone : ∀ j s', slotAt slots j = some s' → found s' = false) :
    walk slots found slots.length i = some none := by
  obtain ⟨l, hseg, hle, hused⟩ := h.from_slot hs
  rw [walk_of_seg hseg hused hle]
  congr 1
  rw [find?_eq_none]
  intro j _ hany
  obtain ⟨s', hs', hfound⟩ := Option.any_eq_true _ _ |>.1 hany
  rw [hnone j s' hs'] at hfound
  cases hfound

end Chains

/-! ### The items -/

/-- The items that are in the slots: those of `inside`, each of them once. What a slot has to be for
an item is said by `carries`. -/
structure Filled {ι : Type*} (carries : ι → κ → ℕ → τ → Prop) (slots : Slots κ τ)
    (inside : ι → Prop) (item : ℕ → ι) : Prop where
  carried : ∀ {i s}, slotAt slots i = some s → carries (item i) s.key s.hash s.value
  isInside : ∀ {i s}, slotAt slots i = some s → inside (item i)
  inj : ∀ {i j s s'}, slotAt slots i = some s → slotAt slots j = some s' → item i = item j → i = j
  all : ∀ {a}, inside a → ∃ i s, slotAt slots i = some s ∧ item i = a

namespace Filled

variable {ι : Type*} {carries carries' : ι → κ → ℕ → τ → Prop} {slots : Slots κ τ}
  {inside inside' : ι → Prop} {item : ℕ → ι} {key : κ} {value : τ} {hash n : ℕ} {a : ι}

theorem empty (n : ℕ) (item : ℕ → ι) :
    Filled carries (List.replicate n (none : Option (Slot κ τ))) (fun _ => False) item where
  carried h := by
    rw [slotAt_replicate] at h
    cases h
  isInside h := by
    rw [slotAt_replicate] at h
    cases h
  inj h := by
    rw [slotAt_replicate] at h
    cases h
  all h := h.elim

theorem mono (h : Filled carries slots inside item)
    (hcarries : ∀ a key hash value, carries a key hash value → carries' a key hash value)
    (hinside : ∀ a, inside a ↔ inside' a) : Filled carries' slots inside' item where
  carried hs := hcarries _ _ _ _ (h.carried hs)
  isInside hs := (hinside _).1 (h.isInside hs)
  inj := h.inj
  all ha := h.all ((hinside _).2 ha)

/-- A slot that was free gets a new item; another one may have been linked to it. -/
theorem insert {slots' : Slots κ τ} (h : Filled carries slots inside item) (ha : ¬inside a)
    {s : Slot κ τ} (hnew : slotAt slots' n = some s) (hcarries : carries a s.key s.hash s.value)
    (hfree : slotAt slots n = none)
    (hold : ∀ i s', i ≠ n → slotAt slots' i = some s' → ∃ s, slotAt slots i = some s ∧
      s.key = s'.key ∧ s.hash = s'.hash ∧ s.value = s'.value)
    (hkept : ∀ i s, slotAt slots i = some s → slotAt slots' i ≠ none) :
    Filled carries slots' (fun b => inside b ∨ b = a) (update item n a) := by
  have hcases {i s'} (hs : slotAt slots' i = some s') :
      i = n ∧ s' = s ∨ i ≠ n ∧ ∃ s, slotAt slots i = some s ∧
        s.key = s'.key ∧ s.hash = s'.hash ∧ s.value = s'.value := by
    by_cases hin : i = n
    · rw [hin, hnew] at hs
      exact .inl ⟨hin, (Option.some.inj hs).symm⟩
    · exact .inr ⟨hin, hold i s' hin hs⟩
  constructor
  case carried =>
    intro i s' hs
    rcases hcases hs with ⟨rfl, rfl⟩ | ⟨hne, s₀, hs₀, hkey, hhash, hvalue⟩
    · rw [update_self]
      exact hcarries
    · rw [update_of_ne hne, ← hkey, ← hhash, ← hvalue]
      exact h.carried hs₀
  case isInside =>
    intro i s' hs
    rcases hcases hs with ⟨rfl, -⟩ | ⟨hne, s₀, hs₀, -⟩
    · rw [update_self]
      exact .inr rfl
    · rw [update_of_ne hne]
      exact .inl (h.isInside hs₀)
  case inj =>
    intro i j s₁ s₂ hi hj heq
    rcases hcases hi with ⟨rfl, -⟩ | ⟨hin, s₀, hs₀, -⟩
    · rcases hcases hj with ⟨rfl, -⟩ | ⟨hjn, s₀, hs₀, -⟩
      · rfl
      · rw [update_self, update_of_ne hjn] at heq
        exact absurd (heq ▸ h.isInside hs₀) ha
    · rcases hcases hj with ⟨rfl, -⟩ | ⟨hjn, s₀', hs₀', -⟩
      · rw [update_self, update_of_ne hin] at heq
        exact absurd (heq ▸ h.isInside hs₀) ha
      · rw [update_of_ne hin, update_of_ne hjn] at heq
        exact h.inj hs₀ hs₀' heq
  case all =>
    rintro b (hb | rfl)
    · obtain ⟨i, s₀, hs₀, rfl⟩ := h.all hb
      have hne : i ≠ n := by
        intro heq
        rw [heq, hfree] at hs₀
        cases hs₀
      obtain ⟨s', hs'⟩ := ne_none_iff_exists'.1 (hkept i s₀ hs₀)
      exact ⟨i, s', hs', update_of_ne hne ..⟩
    · exact ⟨n, s, hnew, update_self ..⟩

theorem place (h : Filled carries slots inside item) (ha : ¬inside a) (hpos : 0 < slots.length)
    (hfree : slotAt slots (mainpos slots hash) = none) (hcarries : carries a key hash value) :
    Filled carries (place slots key value hash) (fun b => inside b ∨ b = a)
      (update item (mainpos slots hash) a) := by
  refine h.insert ha (s := ⟨key, value, hash, none, true⟩) ?_ hcarries hfree ?_ ?_
  · rw [slotAt_place hpos, if_pos rfl]
  · intro i s' hne hs
    rw [slotAt_place hpos, if_neg hne] at hs
    exact ⟨s', hs, rfl, rfl, rfl⟩
  · intro i s hs
    rw [slotAt_place hpos]
    split
    · exact some_ne_none _
    · rw [hs]
      exact some_ne_none _

theorem link {head : Slot κ τ} (h : Filled carries slots inside item) (ha : ¬inside a)
    (hn : n < slots.length) (hfree : slotAt slots n = none)
    (hhead : slotAt slots (mainpos slots hash) = some head) (hcarries : carries a key hash value) :
    Filled carries (link slots head n key value hash) (fun b => inside b ∨ b = a)
      (update item n a) := by
  refine h.insert ha (s := ⟨key, value, hash, head.next, false⟩) ?_ hcarries hfree ?_ ?_
  · rw [slotAt_link hn, if_pos rfl]
  · intro i s' hne hs
    rw [slotAt_link hn, if_neg hne] at hs
    split at hs
    next heq =>
      cases hs
      exact ⟨head, heq ▸ hhead, rfl, rfl, rfl⟩
    next => exact ⟨s', hs, rfl, rfl, rfl⟩
  · intro i s hs
    rw [slotAt_link hn]
    split_ifs
    · exact some_ne_none _
    · exact some_ne_none _
    · rw [hs]
      exact some_ne_none _

theorem exists_free (h : Filled carries slots inside item) (ha : ¬inside a) {all : List ι}
    (hall : ∀ b, inside b → b ∈ all) (hmem : a ∈ all) (hlen : all.length ≤ slots.length) :
    ∃ n, firstFree slots = some n := by
  by_contra hnone
  have hfull : ∀ i < slots.length, ∃ s, slotAt slots i = some s := by
    intro i hi
    have hsome := findIdx?_eq_none_iff.1
      (Option.eq_none_iff_forall_ne_some.2 fun n heq => hnone ⟨n, heq⟩) slots[i]
      (getElem_mem hi)
    unfold slotAt
    rw [getElem?_eq_getElem hi]
    cases hcase : slots[i] with
    | none =>
      rw [hcase] at hsome
      cases hsome
    | some s => exact ⟨s, rfl⟩
  have hnodup : (a :: (List.range slots.length).map item).Nodup := by
    refine nodup_cons.2 ⟨fun hmem => ?_, ?_⟩
    · obtain ⟨i, hi, heq⟩ := mem_map.1 hmem
      obtain ⟨s, hs⟩ := hfull i (mem_range.1 hi)
      exact ha (heq ▸ h.isInside hs)
    · refine List.Nodup.map_on (fun i hi j hj heq => ?_) nodup_range
      obtain ⟨s, hs⟩ := hfull i (mem_range.1 hi)
      obtain ⟨s', hs'⟩ := hfull j (mem_range.1 hj)
      exact h.inj hs hs' heq
  have hsub : a :: (List.range slots.length).map item ⊆ all := by
    intro b hb
    rcases mem_cons.1 hb with rfl | hb
    · exact hmem
    · obtain ⟨i, hi, rfl⟩ := mem_map.1 hb
      obtain ⟨s, hs⟩ := hfull i (mem_range.1 hi)
      exact hall _ (h.isInside hs)
  have := (subperm_of_subset hnodup hsub).length_le
  rw [length_cons, length_map, length_range] at this
  omega

theorem full (h : Filled carries slots inside item) {all : List ι} (hnodup : all.Nodup)
    (hall : ∀ b ∈ all, inside b) (hlen : all.length = slots.length) {i : ℕ}
    (hi : i < slots.length) : slotAt slots i ≠ none := by
  intro hfree
  have hsub : all ⊆ ((List.range slots.length).erase i).map item := by
    intro b hb
    obtain ⟨j, s, hs, rfl⟩ := h.all (hall b hb)
    refine mem_map.2 ⟨j, (nodup_range.mem_erase_iff).2 ⟨fun heq => ?_, ?_⟩, rfl⟩
    · rw [heq, hfree] at hs
      cases hs
    · exact mem_range.2 (lt_length hs)
  have := (subperm_of_subset hnodup hsub).length_le
  rw [length_map, length_erase_of_mem (mem_range.2 hi), length_range] at this
  omega

end Filled

end ChainedSlots
