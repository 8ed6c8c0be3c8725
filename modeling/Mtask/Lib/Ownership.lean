import Mathlib.Data.List.Nodup
import Mathlib.Order.BooleanAlgebra.Set

/-!
# Resources with one owner each

Some holders, each of which has at most one resource in its hand, and a list of resources that
nobody has in his hand (a queue in which they are passed on, or those that are given back for good).
`Accounts held listed owned` says that every resource of `owned` is in exactly one place, in one
hand or once in the list, and that no other resource is anywhere.

## Main definitions

* `Accounts`: every resource in one place.
* `SameBut`: all hands but one are as before.
* `Shares`: every resource in one place, with holders of many resources.

## Main results

* `Accounts.acquire`, `store`, `send`, `receive`, `putDown`, `pickUp`, `discard`,
  `unlist`: what may happen to a resource.
* `Accounts.once`: where a resource is.
* `Accounts.collect`: all hands are emptied into the list.
* `Shares.exchange`: a holder of many resources and the list exchange some.
-/

namespace Ownership

open Function (update update_of_ne update_self)
open List

variable {A R : Type*} {held held' : A → Option R} {listed listed' : List R} {owned : Set R}
  {a b : A} {r : R}

/-- Every resource of `owned` is in one hand or once in the list, and no other one is anywhere. -/
structure Accounts (held : A → Option R) (listed : List R) (owned : Set R) : Prop where
  mem_iff : ∀ r, r ∈ owned ↔ (∃ a, held a = some r) ∨ r ∈ listed
  inj : ∀ a b r, held a = some r → held b = some r → a = b
  nodup : listed.Nodup
  disjoint : ∀ a r, held a = some r → r ∉ listed

/-- All hands but the one of `a` are as before. -/
def SameBut (a : A) (held held' : A → Option R) : Prop :=
  ∀ b, b ≠ a → held' b = held b

theorem SameBut.congr (h : SameBut a held held') (ha : held' a = held a) (b : A) :
    held' b = held b := by
  by_cases hb : b = a
  · rw [hb, ha]
  · exact h b hb

namespace Accounts

section

variable (h : Accounts held listed owned)
include h

theorem mem_of_held (ha : held a = some r) : r ∈ owned :=
  (h.mem_iff r).mpr (Or.inl ⟨a, ha⟩)

theorem mem_of_listed (hr : r ∈ listed) : r ∈ owned :=
  (h.mem_iff r).mpr (Or.inr hr)

theorem congr (hheld : ∀ a, held' a = held a) (hlisted : listed.Perm listed') :
    Accounts held' listed' owned := by
  obtain rfl : held' = held := funext hheld
  refine ⟨fun r => ?_, h.inj, hlisted.nodup h.nodup, fun a r ha hr => ?_⟩
  · rw [h.mem_iff, hlisted.mem_iff]
  · exact h.disjoint a r ha (hlisted.mem_iff.mpr hr)

/-- A new resource comes into a hand that is empty. -/
theorem acquire (hr : r ∉ owned) (ha : held a = none) (ha' : held' a = some r)
    (hsame : SameBut a held held') : Accounts held' listed (insert r owned) := by
  have hback {b : A} {r' : R} (hb : held' b = some r') : b = a ∧ r' = r ∨ held b = some r' := by
    by_cases hba : b = a
    · subst hba
      exact Or.inl ⟨rfl, Option.some.inj (hb.symm.trans ha')⟩
    · exact Or.inr ((hsame b hba).symm.trans hb)
  have hforth {b : A} {r' : R} (hb : held b = some r') : held' b = some r' := by
    have hba : b ≠ a := by
      rintro rfl
      exact Option.some_ne_none r' (hb.symm.trans ha)
    exact (hsame b hba).trans hb
  refine ⟨fun r' => ⟨?_, ?_⟩, fun b c r' hb hc => ?_, h.nodup, fun b r' hb hr' => ?_⟩
  · rintro (rfl | hr')
    · exact Or.inl ⟨a, ha'⟩
    · exact ((h.mem_iff r').mp hr').imp_left fun ⟨b, hb⟩ => ⟨b, hforth hb⟩
  · rintro (⟨b, hb⟩ | hr')
    · rcases hback hb with ⟨-, rfl⟩ | hb
      · exact Set.mem_insert r' owned
      · exact Set.mem_insert_of_mem r (h.mem_of_held hb)
    · exact Set.mem_insert_of_mem r (h.mem_of_listed hr')
  · rcases hback hb with ⟨rfl, rfl⟩ | hb
    · rcases hback hc with ⟨rfl, -⟩ | hc
      · rfl
      · exact absurd (h.mem_of_held hc) hr
    · rcases hback hc with ⟨rfl, rfl⟩ | hc
      · exact absurd (h.mem_of_held hb) hr
      · exact h.inj b c r' hb hc
  · rcases hback hb with ⟨-, rfl⟩ | hb
    · exact hr (h.mem_of_listed hr')
    · exact h.disjoint b r' hb hr'

theorem store (hr : r ∉ owned) : Accounts held (r :: listed) (insert r owned) := by
  refine ⟨fun r' => ?_, h.inj, nodup_cons.mpr ⟨fun hl => hr (h.mem_of_listed hl), h.nodup⟩, ?_⟩
  · rw [Set.mem_insert_iff, h.mem_iff, mem_cons]
    exact or_left_comm
  · intro a r' ha hr'
    rcases mem_cons.mp hr' with rfl | hr'
    · exact hr (h.mem_of_held ha)
    · exact h.disjoint a r' ha hr'

/-- A hand is emptied, and its resource is gone. -/
theorem discard (ha : held a = some r) (ha' : held' a = none) (hsame : SameBut a held held') :
    Accounts held' listed (owned \ {r}) := by
  have hback {b : A} {r' : R} (hb : held' b = some r') : b ≠ a ∧ held b = some r' := by
    have hba : b ≠ a := by
      rintro rfl
      exact Option.some_ne_none r' (hb.symm.trans ha')
    exact ⟨hba, (hsame b hba).symm.trans hb⟩
  refine ⟨fun r' => ⟨?_, ?_⟩, fun b c r' hb hc => ?_, h.nodup, fun b r' hb => ?_⟩
  · rintro ⟨hr', hne⟩
    refine ((h.mem_iff r').mp hr').imp_left fun ⟨b, hb⟩ => ⟨b, (hsame b ?_).trans hb⟩
    rintro rfl
    exact hne (Option.some.inj (hb.symm.trans ha))
  · rintro (⟨b, hb⟩ | hr')
    · obtain ⟨hba, hb⟩ := hback hb
      refine ⟨h.mem_of_held hb, fun heq : r' = r => hba ?_⟩
      subst heq
      exact h.inj b a r' hb ha
    · refine ⟨h.mem_of_listed hr', fun heq : r' = r => ?_⟩
      subst heq
      exact h.disjoint a r' ha hr'
  · exact h.inj b c r' (hback hb).2 (hback hc).2
  · exact h.disjoint b r' (hback hb).2

end

theorem unlist (h : Accounts held (r :: listed) owned) : Accounts held listed (owned \ {r}) := by
  obtain ⟨hnot, hnodup⟩ := nodup_cons.mp h.nodup
  refine ⟨fun r' => ⟨?_, ?_⟩, h.inj, hnodup, fun a r' ha hr' => ?_⟩
  · rintro ⟨hr', hne⟩
    refine ((h.mem_iff r').mp hr').imp_right fun hl => ?_
    exact (mem_cons.mp hl).resolve_left hne
  · rintro (⟨a, ha⟩ | hr')
    · refine ⟨h.mem_of_held ha, fun heq : r' = r => h.disjoint a r' ha ?_⟩
      exact mem_cons.mpr (Or.inl heq)
    · refine ⟨h.mem_of_listed (mem_cons_of_mem r hr'), fun heq : r' = r => hnot ?_⟩
      exact heq ▸ hr'
  · exact h.disjoint a r' ha (mem_cons_of_mem r hr')

/-- A resource goes from a hand into the list. -/
theorem send (h : Accounts held listed owned) (ha : held a = some r) (ha' : held' a = none)
    (hsame : SameBut a held held') : Accounts held' (r :: listed) owned := by
  have hgone : Accounts held' listed (owned \ {r}) := h.discard ha ha' hsame
  have hback := hgone.store (r := r) fun hr => hr.2 rfl
  rwa [Set.insert_sdiff_self_of_mem (h.mem_of_held ha)] at hback

/-- The first resource of the list comes into a hand that is empty. -/
theorem receive (h : Accounts held (r :: listed) owned) (ha : held a = none)
    (ha' : held' a = some r) (hsame : SameBut a held held') : Accounts held' listed owned := by
  have hgone : Accounts held listed (owned \ {r}) := h.unlist
  have hback := hgone.acquire (r := r) (fun hr => hr.2 rfl) ha ha' hsame
  rwa [Set.insert_sdiff_self_of_mem (h.mem_of_listed mem_cons_self)] at hback

/-- What is in a hand, if there is anything, goes into the list. -/
theorem putDown {x : Option R} (h : Accounts held listed owned) (ha : held a = x)
    (ha' : held' a = none) (hsame : SameBut a held held') :
    Accounts held' (x.toList ++ listed) owned := by
  cases x with
  | none => exact h.congr (hsame.congr (ha'.trans ha.symm)) (.refl listed)
  | some r => exact h.send ha ha' hsame

/-- The first resource of the list, if there is one, comes into a hand that is empty. -/
theorem pickUp {x : Option R} (h : Accounts held (x.toList ++ listed) owned) (ha : held a = none)
    (ha' : held' a = x) (hsame : SameBut a held held') : Accounts held' listed owned := by
  cases x with
  | none => exact h.congr (hsame.congr (ha'.trans ha.symm)) (.refl listed)
  | some r => exact h.receive ha ha' hsame

/-- A resource is in one hand, or it is in the list once. -/
theorem once [DecidableEq R] (h : Accounts held listed owned) (hr : r ∈ owned) :
    ((∃ a, held a = some r) ∧ listed.count r = 0) ∨
      (listed.count r = 1 ∧ ∀ a, held a ≠ some r) := by
  rcases (h.mem_iff r).mp hr with ⟨a, ha⟩ | hl
  · exact Or.inl ⟨⟨a, ha⟩, count_eq_zero.mpr (h.disjoint a r ha)⟩
  · exact Or.inr ⟨count_eq_one_of_mem h.nodup hl, fun a ha => h.disjoint a r ha hl⟩

theorem collect (h : Accounts held listed owned) {as : List A} (has : as.Nodup)
    (hall : ∀ a r, held a = some r → a ∈ as) :
    Accounts (fun _ : A => none) (listed ++ as.filterMap held) owned := by
  have hmem (r : R) : r ∈ as.filterMap held ↔ ∃ a, held a = some r := by
    rw [mem_filterMap]
    exact ⟨fun ⟨a, _, ha⟩ => ⟨a, ha⟩, fun ⟨a, ha⟩ => ⟨a, hall a r ha, ha⟩⟩
  have hcollected : (as.filterMap held).Nodup :=
    has.filterMap fun a b r ha hb => h.inj a b r ha hb
  refine ⟨fun r => ?_, nofun, ?_, nofun⟩
  · rw [h.mem_iff, mem_append, hmem]
    simp [or_comm]
  · refine nodup_append.mpr ⟨h.nodup, hcollected, fun r hr r' hr' heq => ?_⟩
    subst heq
    obtain ⟨a, ha⟩ := (hmem r).mp hr'
    exact h.disjoint a r ha hr

end Accounts

/-! ### Holders of many resources -/

/-- Every resource of `owned` is with one holder or in the list, once, and no other one is
anywhere. -/
structure Shares (held : A → List R) (listed : List R) (owned : Set R) : Prop where
  mem_iff : ∀ r, r ∈ owned ↔ (∃ a, r ∈ held a) ∨ r ∈ listed
  nodup : ∀ a, (held a ++ listed).Nodup
  disjoint : ∀ a b, a ≠ b → ∀ r ∈ held a, r ∉ held b
  listed_nodup : listed.Nodup

namespace Shares

variable {held : A → List R} {fresh mine : List R}

theorem mem_of_held (h : Shares held listed owned) (hr : r ∈ held a) : r ∈ owned :=
  (h.mem_iff r).mpr (.inl ⟨a, hr⟩)

theorem mem_of_listed (h : Shares held listed owned) (hr : r ∈ listed) : r ∈ owned :=
  (h.mem_iff r).mpr (.inr hr)

theorem not_listed (h : Shares held listed owned) (hr : r ∈ held a) : r ∉ listed :=
  fun hl => disjoint_of_nodup_append (h.nodup a) hr hl

/-- What one holder and the list have, with some new resources, is exchanged between them. -/
theorem exchange [DecidableEq A] (h : Shares held listed owned) (hnew : fresh.Nodup)
    (hfresh : ∀ r ∈ fresh, r ∉ owned)
    (hperm : (mine ++ listed').Perm (held a ++ listed ++ fresh)) :
    Shares (update held a mine) listed' (owned ∪ {r | r ∈ fresh}) := by
  have hall : (mine ++ listed').Nodup := by
    rw [hperm.nodup_iff]
    refine nodup_append.mpr ⟨h.nodup a, hnew, ?_⟩
    rintro r hr r' hr' rfl
    refine hfresh r hr' ((h.mem_iff r).mpr ?_)
    exact (mem_append.mp hr).imp_left fun hr => ⟨a, hr⟩
  have hmem : ∀ r, r ∈ mine ∨ r ∈ listed' ↔ (r ∈ held a ∨ r ∈ listed) ∨ r ∈ fresh := fun r => by
    simpa only [mem_append] using hperm.mem_iff (a := r)
  have hother : ∀ b, b ≠ a → ∀ r ∈ held b, r ∉ mine ∧ r ∉ listed' := fun b hb r hr => by
    rw [← not_or, hmem]
    rintro ((hr' | hr') | hr')
    · exact h.disjoint b a hb r hr hr'
    · exact h.not_listed hr hr'
    · exact hfresh r hr' (h.mem_of_held hr)
  have hlisted := (nodup_append.mp hall).2.1
  refine ⟨fun r => ?_, fun b => ?_, fun b c hbc r hr => ?_, hlisted⟩
  · constructor
    · rintro (hr | hr)
      · rcases (h.mem_iff r).mp hr with ⟨b, hb⟩ | hr
        · by_cases hba : b = a
          · subst hba
            exact ((hmem r).mpr (.inl (.inl hb))).imp_left fun hr => ⟨b, by simpa using hr⟩
          · exact .inl ⟨b, by rwa [update_of_ne hba]⟩
        · exact ((hmem r).mpr (.inl (.inr hr))).imp_left fun hr => ⟨a, by simpa using hr⟩
      · exact ((hmem r).mpr (.inr hr)).imp_left fun hr => ⟨a, by simpa using hr⟩
    · have hback : r ∈ mine ∨ r ∈ listed' → r ∈ owned ∪ {r | r ∈ fresh} := fun hr => by
        rcases (hmem r).mp hr with (hr | hr) | hr
        · exact .inl (h.mem_of_held hr)
        · exact .inl (h.mem_of_listed hr)
        · exact .inr hr
      rintro (⟨b, hb⟩ | hr)
      · by_cases hba : b = a
        · subst hba
          exact hback (.inl (by simpa using hb))
        · rw [update_of_ne hba] at hb
          exact .inl (h.mem_of_held hb)
      · exact hback (.inr hr)
  · by_cases hba : b = a
    · subst hba
      rwa [update_self]
    · rw [update_of_ne hba]
      refine nodup_append.mpr ⟨(nodup_append.mp (h.nodup b)).1, hlisted, ?_⟩
      rintro r hr r' hr' rfl
      exact (hother b hba r hr).2 hr'
  · by_cases hba : b = a
    · subst hba
      rw [update_self] at hr
      rw [update_of_ne hbc.symm]
      exact fun hr' => (hother c hbc.symm r hr').1 hr
    · rw [update_of_ne hba] at hr
      by_cases hca : c = a
      · subst hca
        rw [update_self]
        exact (hother b hba r hr).1
      · rw [update_of_ne hca]
        exact h.disjoint b c hbc r hr

end Shares

end Ownership
