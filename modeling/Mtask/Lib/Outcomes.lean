import Mathlib.Tactic.Common

/-!
# Programs that may stop, and their loops

A program that may stop early is a value of `Except ε α`. `Post x E Q` says of such a value what
holds of the error if it is one and of the result otherwise; the rules follow the way programs are
put together. A `Loop` is a body that leaves or goes round again, with a variant that decreases
from one round to the next, so that it may be run to its end.

## Main definitions

* `Post`: a condition on the error and one on the result.
* `Follows`: one program has a result if another one has.
* `Loop`, `Loop.run`: loops with a variant.

## Main results

* `Post.bind`, `Follows.bind`: the rules of composition.
* `Loop.post_run`, `Loop.Reaches.invariant`, `Loop.follows_run`: the
  rules of loops.
-/

namespace Outcomes

universe u v

variable {ε : Type u} {α β : Type v}

/-- The error of `x` satisfies `E`, or its result satisfies `Q`. -/
def Post (x : Except ε α) (E : ε → Prop) (Q : α → Prop) : Prop :=
  match x with
  | .ok a => Q a
  | .error e => E e

variable {E : ε → Prop} {Q : α → Prop} {R : β → Prop} {x : Except ε α}

@[simp] theorem post_ok {a : α} : Post (.ok a) E Q ↔ Q a := Iff.rfl

@[simp] theorem post_pure {a : α} : Post (pure a : Except ε α) E Q ↔ Q a := Iff.rfl

variable {e : ε}

@[simp] theorem post_error : Post (.error e : Except ε α) E Q ↔ E e := Iff.rfl

variable {f : α → Except ε β}

@[simp] theorem ok_bind {a : α} : (Except.ok a >>= f) = f a := rfl

namespace Post

theorem of_ok {a : α} (h : Post x E Q) (ha : x = .ok a) : Q a := by
  rw [ha] at h
  exact h

theorem of_error (h : Post x E Q) (he : x = .error e) : E e := by
  rw [he] at h
  exact h

theorem mono {E' : ε → Prop} {Q' : α → Prop} (h : Post x E Q) (hE : ∀ e, E e → E' e)
    (hQ : ∀ a, Q a → Q' a) : Post x E' Q' := by
  cases x with
  | ok a => exact hQ a h
  | error e => exact hE e h

theorem of_true : Post x (fun _ => True) fun _ => True := by
  cases x <;> exact True.intro

theorem bind (h : Post x E Q) (hf : ∀ a, Q a → Post (f a) E R) : Post (x >>= f) E R := by
  cases x with
  | ok a => exact hf a h
  | error e => exact h

theorem ite {p : Prop} [Decidable p] {y : Except ε α} (hx : p → Post x E Q)
    (hy : ¬p → Post y E Q) : Post (if p then x else y) E Q := by
  split
  · exact hx ‹_›
  · exact hy ‹_›

end Post

theorem bind_eq_ok {b : β} : x >>= f = .ok b ↔ ∃ a, x = .ok a ∧ f a = .ok b := by
  cases x with
  | ok a => simp [bind, Except.bind]
  | error e => simp [bind, Except.bind]

theorem stateBind_eq_ok {ε σ α β : Type u} {m : EStateM ε σ α} {f : α → EStateM ε σ β} {s s' : σ}
    {b : β} : (m >>= f) s = .ok b s' ↔ ∃ a s₁, m s = .ok a s₁ ∧ f a s₁ = .ok b s' := by
  change EStateM.bind m f s = _ ↔ _
  rw [EStateM.bind]
  constructor
  · intro h
    cases hm : m s with
    | ok a s₁ =>
      rw [hm] at h
      exact ⟨a, s₁, rfl, h⟩
    | error e s₁ =>
      rw [hm] at h
      cases h
  · rintro ⟨a, s₁, hm, h⟩
    rw [hm]
    exact h

/-- If `x` has a result, then so has `y`, and `R` relates the two. -/
def Follows {ε ε' : Type u} {α α' : Type v} (x : Except ε α) (y : Except ε' α')
    (R : α → α' → Prop) : Prop :=
  ∀ a, x = .ok a → ∃ a', y = .ok a' ∧ R a a'

namespace Follows

variable {ε' : Type u} {α' β' : Type v} {y : Except ε' α'} {S : α → α' → Prop}
  {T : β → β' → Prop}

theorem of_error : Follows (.error e) y S := fun _ h => by cases h

theorem of_ok {a : α} {a' : α'} (h : S a a') :
    Follows (.ok a : Except ε α) (.ok a' : Except ε' α') S := fun _ ha => by
  cases ha
  exact ⟨a', rfl, h⟩

theorem bind {g : α' → Except ε' β'} (h : Follows x y S)
    (hf : ∀ a a', S a a' → Follows (f a) (g a') T) : Follows (x >>= f) (y >>= g) T := fun b hb => by
  obtain ⟨a, ha, hb⟩ := bind_eq_ok.mp hb
  obtain ⟨a', ha', hs⟩ := h a ha
  obtain ⟨b', hb', ht⟩ := hf a a' hs b hb
  exact ⟨b', bind_eq_ok.mpr ⟨a', ha', hb'⟩, ht⟩

theorem ite {p : Prop} [Decidable p] {x' : Except ε α} {y' : Except ε' α'}
    (hx : p → Follows x y S) (hx' : ¬p → Follows x' y' S) :
    Follows (if p then x else x') (if p then y else y') S := by
  split
  · exact hx ‹_›
  · exact hx' ‹_›

end Follows

/-- How one round of a loop ends. -/
inductive Round (α β : Type v)
  | again (a : α)
  | leave (b : β)

/-- A loop: its body, and what decreases from one round to the next. -/
structure Loop (ε : Type u) (α β : Type v) where
  body : α → Except ε (Round α β)
  variant : α → ℕ
  variant_lt : ∀ {a a'}, body a = .ok (.again a') → variant a' < variant a

namespace Loop

variable (l : Loop ε α β)

/-- The loop from its first round to its last. -/
def run (a : α) : Except ε β :=
  match _h : l.body a with
  | .error e => .error e
  | .ok (.leave b) => .ok b
  | .ok (.again a') => run a'
termination_by l.variant a
decreasing_by exact l.variant_lt _h

variable {l} {a a' : α}

theorem run_of_error (h : l.body a = .error e) : l.run a = .error e := by
  rw [run]
  split <;> simp_all

theorem run_of_leave {b : β} (h : l.body a = .ok (.leave b)) : l.run a = .ok b := by
  rw [run]
  split <;> simp_all

theorem run_of_again (h : l.body a = .ok (.again a')) : l.run a = l.run a' := by
  rw [run]
  split <;> simp_all

/-- What a round must establish for the invariant `I` to lead to `E` and `R` at the end. -/
def Keeps (I : α → Prop) (R : β → Prop) : Round α β → Prop
  | .again a => I a
  | .leave b => R b

variable {I : α → Prop}

@[simp] theorem keeps_again : Keeps I R (.again a) ↔ I a := Iff.rfl

/-- The rule of loops: an invariant of the rounds decides how the loop ends. -/
theorem post_run (hbody : ∀ a, I a → Post (l.body a) E (Keeps I R)) (h : I a) :
    Post (l.run a) E R := by
  induction hn : l.variant a using Nat.strongRecOn generalizing a with
  | ind n ih =>
    have hb := hbody a h
    cases hr : l.body a with
    | error e =>
      rw [run_of_error hr]
      exact hb.of_error hr
    | ok r =>
      have hk := hb.of_ok hr
      cases r with
      | leave b =>
        rw [run_of_leave hr]
        exact hk
      | again a' =>
        rw [run_of_again hr]
        exact ih _ (hn ▸ l.variant_lt hr) hk rfl

/-- Two rounds that end in the same way, with `I` or `R` between the states. -/
def RoundRel {α' β' : Type v} (I : α → α' → Prop) (T : β → β' → Prop) :
    Round α β → Round α' β' → Prop
  | .again a, .again a' => I a a'
  | .leave b, .leave b' => T b b'
  | _, _ => False

theorem follows_run {ε' : Type u} {α' β' : Type v} {l' : Loop ε' α' β'} {I : α → α' → Prop}
    {T : β → β' → Prop} (hbody : ∀ a a', I a a' → Follows (l.body a) (l'.body a') (RoundRel I T))
    {a' : α'} (h : I a a') : Follows (l.run a) (l'.run a') T := by
  induction hn : l.variant a using Nat.strongRecOn generalizing a a' with
  | ind n ih =>
    have hb := hbody a a' h
    cases hr : l.body a with
    | error e =>
      rw [run_of_error hr]
      exact .of_error
    | ok r =>
      obtain ⟨r', hr', hrel⟩ := hb r hr
      cases r with
      | leave b =>
        cases r' with
        | again _ => exact hrel.elim
        | leave b' =>
          rw [run_of_leave hr, run_of_leave hr']
          exact .of_ok hrel
      | again c =>
        cases r' with
        | leave _ => exact hrel.elim
        | again c' =>
          rw [run_of_again hr, run_of_again hr']
          exact ih _ (hn ▸ l.variant_lt hr) hrel rfl

variable (l) in
/-- The states in front of the rounds of the loop that starts from `a`. -/
inductive Reaches (a : α) : α → Prop
  | refl : Reaches a a
  | tail {b c : α} (h : Reaches a b) (hbody : l.body b = .ok (.again c)) : Reaches a c

/-- The invariant holds in front of every round. -/
theorem Reaches.invariant (hbody : ∀ a, I a → Post (l.body a) E (Keeps I R)) (h : l.Reaches a a')
    (ha : I a) : I a' := by
  induction h with
  | refl => exact ha
  | tail _ hb ih => exact (hbody _ ih).of_ok hb

end Loop

end Outcomes
