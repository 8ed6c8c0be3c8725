import Mtask.Lib.Outcomes

/-!
# Programs that may stop, with a log

A value of `Logged ω ε α` is a program that may stop early and that has noted things on its way,
those before the stop among them. A condition on the outcome may be assumed to hold only for runs
whose notes are all of a certain kind.

## Main definitions

* `Logged`: the outcome and the log; a monad.
* `Logged.Post`: a condition on the outcome of the runs whose notes are all permitted.

## Main results

* `Logged.Post.bind`: the rule of composition.
-/

namespace Outcomes

universe u v w

/-- A program that may stop early, with what it has noted. -/
structure Logged (ω : Type w) (ε : Type u) (α : Type v) where
  outcome : Except ε α
  log : List ω

namespace Logged

variable {ω : Type w} {ε : Type u} {α β : Type v}

/-- A program that notes nothing. -/
def lift (x : Except ε α) : Logged ω ε α := ⟨x, []⟩

/-- The program that stops. -/
def stop (e : ε) : Logged ω ε α := ⟨.error e, []⟩

/-- Something is noted. -/
def note (w : ω) : Logged ω ε Unit := ⟨.ok (), [w]⟩

/-- One program behind another, if that has not stopped. -/
protected def bind (x : Logged ω ε α) (f : α → Logged ω ε β) : Logged ω ε β :=
  match x.outcome with
  | .ok a => ⟨(f a).outcome, x.log ++ (f a).log⟩
  | .error e => ⟨.error e, x.log⟩

instance : Monad (Logged ω ε) where
  pure a := ⟨.ok a, []⟩
  bind := Logged.bind

/-- The outcome of a composition does not depend on the log. -/
@[simp] theorem outcome_bind (x : Logged ω ε α) (f : α → Logged ω ε β) :
    (x >>= f).outcome = x.outcome >>= fun a => (f a).outcome := by
  change (Logged.bind x f).outcome = _
  rw [Logged.bind]
  cases x.outcome <;> rfl

theorem log_bind_of_ok {x : Logged ω ε α} {a : α} (f : α → Logged ω ε β) (h : x.outcome = .ok a) :
    (x >>= f).log = x.log ++ (f a).log := by
  change (Logged.bind x f).log = _
  rw [Logged.bind, h]

theorem log_bind_of_error {x : Logged ω ε α} {e : ε} (f : α → Logged ω ε β)
    (h : x.outcome = .error e) : (x >>= f).log = x.log := by
  change (Logged.bind x f).log = _
  rw [Logged.bind, h]

/-- If everything noted satisfies `p`, then the outcome is as `E` and `Q` say. -/
def Post (p : ω → Prop) (x : Logged ω ε α) (E : ε → Prop) (Q : α → Prop) : Prop :=
  (∀ w ∈ x.log, p w) → Outcomes.Post x.outcome E Q

variable {p : ω → Prop} {x : Logged ω ε α} {E : ε → Prop} {Q : α → Prop} {R : β → Prop}

@[simp] theorem post_pure {a : α} : Post p (pure a : Logged ω ε α) E Q ↔ Q a := by
  simp [Post, pure]

@[simp] theorem post_stop {e : ε} : Post p (stop e : Logged ω ε α) E Q ↔ E e := by
  simp [Post, stop]

namespace Post

theorem of_lift {y : Except ε α} (h : Outcomes.Post y E Q) :
    Post p (lift y : Logged ω ε α) E Q :=
  fun _ => h

/-- What is noted may be assumed to be permitted. -/
theorem of_note {w : ω} {Q : Unit → Prop} (h : p w → Q ()) :
    Post p (note w : Logged ω ε Unit) E Q :=
  fun hw => h (hw w List.mem_cons_self)

theorem mono {E' : ε → Prop} {Q' : α → Prop} (h : Post p x E Q) (hE : ∀ e, E e → E' e)
    (hQ : ∀ a, Q a → Q' a) : Post p x E' Q' :=
  fun hw => (h hw).mono hE hQ

theorem bind {f : α → Logged ω ε β} (h : Post p x E Q) (hf : ∀ a, Q a → Post p (f a) E R) :
    Post p (x >>= f) E R := by
  intro hw
  rw [outcome_bind]
  cases hx : x.outcome with
  | ok a =>
    rw [log_bind_of_ok f hx] at hw
    exact hf a ((h fun w h => hw w (List.mem_append_left _ h)).of_ok hx)
      fun w h => hw w (List.mem_append_right _ h)
  | error e =>
    rw [log_bind_of_error f hx] at hw
    exact (h hw).of_error hx

theorem ite {c : Prop} [Decidable c] {y : Logged ω ε α} (hx : c → Post p x E Q)
    (hy : ¬c → Post p y E Q) : Post p (if c then x else y) E Q := by
  split
  · exact hx ‹_›
  · exact hy ‹_›

end Post

end Logged

end Outcomes
