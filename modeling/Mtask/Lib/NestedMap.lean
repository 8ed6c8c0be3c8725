import Mathlib.Data.List.Infix

/-!
# Nested maps

A nested map has a scalar or a map with further nested maps at each of its keys. A path of keys
leads to at most one value.

## Main definitions

* `Nested`, `Children`: a value, and what is below a map.
* `read`: the value at a path that is not empty.
* `put`: a value is stored, or removed, at a path, and the maps on the way to it are made.

## Main results

* `read_of_append`: above a value there are maps.
* `read_put_append`: what is read at and below the path.
* `read_put_other`: what is read elsewhere.
-/

namespace NestedMap

open List

/-- A scalar, or a map. -/
inductive Nested (κ σ : Type) where
  | leaf (s : σ)
  | node (children : κ → Option (Nested κ σ))

/-- The values at the keys of a map. -/
abbrev Children (κ σ : Type) := κ → Option (Nested κ σ)

variable {κ σ : Type}

/-- The map without keys. -/
def empty : Children κ σ := fun _ => none

/-- The value at a path below a value. -/
def Nested.get : Nested κ σ → List κ → Option (Nested κ σ)
  | d, [] => some d
  | .node c, k :: path => (c k).bind fun d => d.get path
  | .leaf _, _ :: _ => none

/-- The value at a path, of which the empty one leads to none. -/
def read (c : Children κ σ) : List κ → Option (Nested κ σ)
  | [] => none
  | k :: path => (c k).bind fun d => d.get path

/-- The keys below a value; a scalar has none. -/
def below : Option (Nested κ σ) → Children κ σ
  | some (.node c) => c
  | some (.leaf _) | none => empty

@[simp] theorem get_nil (d : Nested κ σ) : d.get [] = some d := by
  cases d <;> rfl

@[simp] theorem read_cons (c : Children κ σ) (k : κ) (path : List κ) :
    read c (k :: path) = (c k).bind fun d => d.get path :=
  rfl

theorem get_cons (d : Nested κ σ) (k : κ) (path : List κ) :
    d.get (k :: path) = read (below (some d)) (k :: path) := by
  cases d <;> rfl

theorem read_below (d : Option (Nested κ σ)) (k : κ) (path : List κ) :
    read (below d) (k :: path) = d.bind fun d => d.get (k :: path) := by
  rcases d with _ | d
  · rfl
  · exact (get_cons d k path).symm

/-- Where there is a value, there are maps above it. -/
theorem read_of_append {c : Children κ σ} {path rest : List κ} {d : Nested κ σ} (hpath : path ≠ [])
    (hrest : rest ≠ []) (h : read c (path ++ rest) = some d) : ∃ c', read c path = some (.node c') := by
  induction path generalizing c with
  | nil => exact absurd rfl hpath
  | cons k path ih =>
    rw [cons_append, read_cons] at h
    obtain ⟨d', hd', h⟩ := Option.bind_eq_some_iff.1 h
    rw [read_cons, hd', Option.bind_some]
    cases path with
    | nil =>
      obtain ⟨k', rest, rfl⟩ := exists_cons_of_ne_nil hrest
      cases d' with
      | leaf s => cases h
      | node c' => exact ⟨c', rfl⟩
    | cons k' path =>
      rw [get_cons] at ⊢
      rw [cons_append, get_cons] at h
      exact ih (cons_ne_nil _ _) h

variable [DecidableEq κ]

/-- The map with a value at a path; a scalar on the way is replaced by a map. -/
def put (c : Children κ σ) : List κ → Option (Nested κ σ) → Children κ σ
  | [], _ => c
  | [k], v => Function.update c k v
  | k :: k' :: path, v => Function.update c k (some (.node (put (below (c k)) (k' :: path) v)))

section

variable (c : Children κ σ)
include c

theorem put_other {k k' : κ} (path : List κ) (v : Option (Nested κ σ)) (h : k' ≠ k) :
    put c (k :: path) v k' = c k' := by
  cases path <;> exact Function.update_of_ne h _ _

theorem put_cons (k k' : κ) (path : List κ) (v : Option (Nested κ σ)) :
    put c (k :: k' :: path) v k = some (.node (put (below (c k)) (k' :: path) v)) :=
  Function.update_self ..

theorem read_put_append {path : List κ} (hpath : path ≠ []) (v : Option (Nested κ σ))
    (rest : List κ) : read (put c path v) (path ++ rest) = v.bind fun d => d.get rest := by
  induction path generalizing c with
  | nil => exact absurd rfl hpath
  | cons k path ih =>
    cases path with
    | nil =>
      rw [singleton_append, read_cons, put, Function.update_self]
    | cons k' path =>
      rw [cons_append, read_cons, put_cons, Option.bind_some, cons_append, get_cons]
      exact ih _ (cons_ne_nil _ _)

theorem read_put_self {path : List κ} (hpath : path ≠ []) (v : Option (Nested κ σ)) :
    read (put c path v) path = v := by
  have h := read_put_append c hpath v []
  rw [append_nil] at h
  rw [h]
  simp

theorem read_put_other {path path' : List κ} (hbelow : ¬path <+: path') (habove : ¬path' <+: path)
    (v : Option (Nested κ σ)) : read (put c path v) path' = read c path' := by
  induction path generalizing c path' with
  | nil => exact absurd nil_prefix hbelow
  | cons k path ih =>
    cases path' with
    | nil => rfl
    | cons k' path' =>
      by_cases hk : k' = k
      · subst hk
        rw [prefix_cons_inj] at hbelow habove
        cases path with
        | nil => exact absurd nil_prefix hbelow
        | cons k₂ path =>
          cases path' with
          | nil => exact absurd nil_prefix habove
          | cons k₃ path' =>
            rw [read_cons, put_cons, Option.bind_some, get_cons, read_cons]
            refine (ih (below (c k')) hbelow habove).trans ?_
            exact read_below _ _ _
      · rw [read_cons, put_other c path v hk, read_cons]

end

end NestedMap
