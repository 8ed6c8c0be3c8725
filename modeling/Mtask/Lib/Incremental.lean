import Mathlib.Data.List.Basic

/-!
# Incremental decoding

A stream is decoded by cutting one item after the other off its front. What is received of the
stream grows: a cut that can be made does not change when more is received, and as long as none can
be made, what is received is kept. Some items are final: what follows them is not decoded.

## Main definitions

* `Cutter`: how one item is cut off.
* `Cutter.decode`: the items of what is received, and what is kept of it.
* `Cutter.feed`: decoding what is received piece by piece.

## Main results

* `Cutter.decode_append`: decoding goes on from what was kept.
-/

namespace Incremental

variable {α β : Type*}

/-- How an item is cut off the front of what is received, and which items are final. -/
structure Cutter (α β : Type*) where
  cut : List α → Option (β × List α)
  final : β → Bool
  shrinks : ∀ {buf a rest}, cut buf = some (a, rest) → rest.length < buf.length
  stable : ∀ {buf a rest}, cut buf = some (a, rest) →
    ∀ more, cut (buf ++ more) = some (a, rest ++ more)

namespace Cutter

variable (c : Cutter α β) {buf rest : List α} {a : β}

/-- The items of what is received, up to the first final one, and what is kept to be decoded
later; after a final item nothing is kept. -/
def decode (buf : List α) : List β × Option (List α) :=
  match _h : c.cut buf with
  | none => ([], some buf)
  | some (a, rest) =>
    if c.final a then ([a], none)
    else (a :: (decode rest).1, (decode rest).2)
termination_by buf.length
decreasing_by all_goals exact c.shrinks _h

variable {c}

theorem decode_of_none (h : c.cut buf = none) : c.decode buf = ([], some buf) := by
  rw [decode]
  split
  · rfl
  · rename_i heq
    rw [h] at heq
    simp at heq

theorem decode_of_final (h : c.cut buf = some (a, rest)) (hfinal : c.final a = true) :
    c.decode buf = ([a], none) := by
  rw [decode]
  split
  · rename_i heq
    rw [h] at heq
    simp at heq
  · rename_i heq
    rw [h, Option.some_inj, Prod.mk.injEq] at heq
    obtain ⟨rfl, rfl⟩ := heq
    rw [if_pos hfinal]

theorem decode_of_some (h : c.cut buf = some (a, rest)) (hfinal : c.final a = false) :
    c.decode buf = (a :: (c.decode rest).1, (c.decode rest).2) := by
  rw [decode]
  split
  · rename_i heq
    rw [h] at heq
    simp at heq
  · rename_i heq
    rw [h, Option.some_inj, Prod.mk.injEq] at heq
    obtain ⟨rfl, rfl⟩ := heq
    rw [if_neg (Bool.eq_false_iff.mp hfinal)]

/-- Without final items something is kept, if only nothing. -/
theorem exists_kept (hfinal : ∀ a, c.final a = false) (buf : List α) :
    ∃ kept, (c.decode buf).2 = some kept := by
  induction hlen : buf.length using Nat.strongRecOn generalizing buf with
  | _ n ih =>
    rcases hcut : c.cut buf with _ | ⟨a, rest⟩
    · exact ⟨buf, by rw [decode_of_none hcut]⟩
    · rw [decode_of_some hcut (hfinal a)]
      exact ih rest.length (hlen ▸ c.shrinks hcut) rest rfl

theorem decode_snd_of_final (hmem : a ∈ (c.decode buf).1) (hfinal : c.final a = true) :
    (c.decode buf).2 = none := by
  induction hlen : buf.length using Nat.strongRecOn generalizing buf with
  | _ n ih =>
    rcases hcut : c.cut buf with _ | ⟨b, rest⟩
    · rw [decode_of_none hcut] at hmem
      simp at hmem
    · rcases hb : c.final b with _ | _
      · rw [decode_of_some hcut hb] at hmem ⊢
        rcases List.mem_cons.mp hmem with rfl | hmem
        · rw [hb] at hfinal
          simp at hfinal
        · exact ih rest.length (hlen ▸ c.shrinks hcut) hmem rfl
      · rw [decode_of_final hcut hb]

/-- Decoding what comes after `x`: it goes on from what was kept of `x`, unless `x` has a final
item. -/
def resume (c : Cutter α β) (done : List β × Option (List α)) (y : List α) :
    List β × Option (List α) :=
  match done.2 with
  | none => done
  | some kept => (done.1 ++ (c.decode (kept ++ y)).1, (c.decode (kept ++ y)).2)

variable {done : List β × Option (List α)}

theorem resume_of_none (h : done.2 = none) (y : List α) : c.resume done y = done := by
  rw [resume, h]

theorem resume_of_some {kept : List α} (h : done.2 = some kept) (y : List α) :
    c.resume done y = (done.1 ++ (c.decode (kept ++ y)).1, (c.decode (kept ++ y)).2) := by
  rw [resume, h]

/-- **Decoding goes on from what was kept.** -/
theorem decode_append (x y : List α) : c.decode (x ++ y) = c.resume (c.decode x) y := by
  induction hlen : x.length using Nat.strongRecOn generalizing x with
  | _ n ih =>
    rcases hcut : c.cut x with _ | ⟨a, rest⟩
    · rw [decode_of_none hcut]
      rfl
    · rcases hfinal : c.final a with _ | _
      · rw [decode_of_some hcut hfinal, decode_of_some (c.stable hcut y) hfinal,
          ih rest.length (hlen ▸ c.shrinks hcut) rest rfl, resume, resume]
        rcases c.decode rest with ⟨items, _ | kept⟩ <;> rfl
      · rw [decode_of_final hcut hfinal, decode_of_final (c.stable hcut y) hfinal]
        rfl

/-- Decoding pieces one after the other. -/
def feed (c : Cutter α β) (pieces : List (List α)) : List β × Option (List α) :=
  pieces.foldl c.resume (c.decode [])

end Cutter

end Incremental
