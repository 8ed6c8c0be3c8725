import Mathlib.Tactic.Common

/-!
# Labelled transition systems with a failing step

A system is given by a step function `step : σ → α → Except ε σ`: in the state `s` the label `a`
either leads to one next state or fails with an error of `ε`, which may stand for a failed
assertion as well as for a label that is not enabled. `Reaches step ok s t` says that `t` is
reached from `s` by steps that succeed, each one permitted by `ok` in the state before it; a
statement about every run takes `ok` to be true everywhere.

## Main definitions

* `Reaches`: the states reached by permitted steps.
* `exec`: a run along a given list of labels.
* `Permitted`: every label of a list is permitted in the state before it.

## Main results

* `Reaches.invariant`: what holds at the start and is kept by every permitted step
  holds in every state reached.
* `reaches_of_exec`: a run that evaluates is a run.
* `exec_invariant`: a run of steps that always succeed keeps the invariant.
* `exec_of_check`: a run that is computed.
* `exec_simulates`: a permitted run goes through and follows an abstract machine.
* `forall_prefix_iff_permitted`: a property that exactly the permitted steps keep holds
  in every state of a run if and only if the run is permitted.
-/

namespace Transition

open List

variable {σ α ε : Type*} {step : σ → α → Except ε σ} {ok ok' : σ → α → Prop}

/-- The states reached from `s` by steps that succeed and that `ok` permits. -/
inductive Reaches (step : σ → α → Except ε σ) (ok : σ → α → Prop) (s : σ) : σ → Prop
  | refl : Reaches step ok s s
  | tail {t u : σ} {a : α} (h : Reaches step ok s t) (hok : ok t a) (hstep : step t a = .ok u) :
      Reaches step ok s u

namespace Reaches

/-- The rule of invariants: what one permitted step keeps, every run keeps. -/
theorem invariant {inv : σ → Prop} {s t : σ} (h : Reaches step ok s t) (h0 : inv s)
    (hstep : ∀ u v a, inv u → ok u a → step u a = .ok v → inv v) : inv t := by
  induction h with
  | refl => exact h0
  | tail _ hok hs ih => exact hstep _ _ _ ih hok hs

theorem trans {s t u : σ} (h : Reaches step ok s t) (h' : Reaches step ok t u) :
    Reaches step ok s u := by
  induction h' with
  | refl => exact h
  | tail _ hok hs ih => exact .tail ih hok hs

theorem single {s t : σ} {a : α} (hok : ok s a) (hs : step s a = .ok t) :
    Reaches step ok s t :=
  .tail .refl hok hs

end Reaches

/-- The run along a list of labels. -/
def exec (step : σ → α → Except ε σ) : σ → List α → Except ε σ
  | s, [] => .ok s
  | s, a :: l =>
    match step s a with
    | .ok t => exec step t l
    | .error e => .error e

/-- A run that evaluates to `t` reaches `t`, if its labels are permitted everywhere. -/
theorem reaches_of_exec {s t : σ} {l : List α} (h : exec step s l = .ok t)
    (hok : ∀ a ∈ l, ∀ u, ok u a) : Reaches step ok s t := by
  induction l generalizing s with
  | nil =>
    cases h
    exact .refl
  | cons a l ih =>
    rw [exec] at h
    have hrest : ∀ b ∈ l, ∀ u, ok u b := fun b hb => hok b (mem_cons_of_mem a hb)
    cases hs : step s a with
    | error e => simp [hs] at h
    | ok u =>
      exact (Reaches.single (hok a mem_cons_self s) hs).trans
        (ih (by simpa [hs] using h) hrest)

/-- Every label of a run is permitted in the state before it. -/
def Permitted (step : σ → α → Except ε σ) (ok : σ → α → Prop) : σ → List α → Prop
  | _, [] => True
  | s, a :: l => ok s a ∧ ∀ t, step s a = .ok t → Permitted step ok t l

/-- Whether a run is permitted can be computed. -/
instance Permitted.instDecidable [∀ s a, Decidable (ok s a)] :
    ∀ (s : σ) (l : List α), Decidable (Permitted step ok s l)
  | _, [] => .isTrue trivial
  | s, a :: l =>
    have : Decidable (∀ t, step s a = .ok t → Permitted step ok t l) :=
      match step s a with
      | .error _ => .isTrue nofun
      | .ok t =>
        have := Permitted.instDecidable t l
        decidable_of_iff (Permitted step ok t l)
          ⟨fun h _ ht => Except.ok.inj ht ▸ h, fun h => h t rfl⟩
    inferInstanceAs (Decidable (ok s a ∧ ∀ t, step s a = .ok t → Permitted step ok t l))

theorem Permitted.cons {s t : σ} {a : α} {l : List α} (hok : ok s a) (hs : step s a = .ok t)
    (hl : Permitted step ok t l) : Permitted step ok s (a :: l) := by
  refine ⟨hok, fun u hu => ?_⟩
  obtain rfl : t = u := Except.ok.inj (hs.symm.trans hu)
  exact hl

theorem Permitted.reaches {s t : σ} {l : List α} (hl : Permitted step ok s l)
    (h : exec step s l = .ok t) : Reaches step ok s t := by
  induction l generalizing s with
  | nil =>
    cases h
    exact .refl
  | cons a l ih =>
    rw [exec] at h
    cases hs : step s a with
    | error e => simp [hs] at h
    | ok u => exact (Reaches.single hl.1 hs).trans (ih (hl.2 u hs) (by simpa [hs] using h))

/-- The rule of exact conditions: if a step from a state with the invariant keeps it exactly when
the step is permitted, then the invariant holds in every state of a run exactly when all its steps
are permitted. -/
theorem forall_prefix_iff_permitted {inv : σ → Prop}
    (hstep : ∀ s t a, inv s → step s a = .ok t → (inv t ↔ ok s a)) {s t : σ} {l : List α}
    (hrun : exec step s l = .ok t) (h : inv s) :
    (∀ l', l' <+: l → ∀ u, exec step s l' = .ok u → inv u) ↔ Permitted step ok s l := by
  induction l generalizing s with
  | nil =>
    refine iff_of_true (fun l' hl' u hu => ?_) trivial
    obtain rfl := prefix_nil.mp hl'
    rwa [← Except.ok.inj hu]
  | cons a l ih =>
    rw [exec] at hrun
    cases hs : step s a with
    | error e =>
      rw [hs] at hrun
      cases hrun
    | ok u =>
      rw [hs] at hrun
      simp only at hrun
      constructor
      · intro hall
        have hu : inv u := hall [a] (cons_prefix_cons.mpr ⟨rfl, nil_prefix⟩) u (by
          rw [exec, hs]
          rfl)
        refine .cons ((hstep s u a h hs).mp hu) hs ((ih hrun hu).mp fun l' hl' v hv => ?_)
        refine hall (a :: l') (cons_prefix_cons.mpr ⟨rfl, hl'⟩) v ?_
        rw [exec, hs]
        exact hv
      · rintro ⟨hok, hrest⟩ l' hl' v hv
        have hu := (hstep s u a h hs).mpr hok
        rcases prefix_cons_iff.mp hl' with rfl | ⟨l'', rfl, hl''⟩
        · rwa [← Except.ok.inj hv]
        · rw [exec, hs] at hv
          exact (ih hrun hu).mpr (hrest u hs) l'' hl'' v hv

/-- The rule of forward simulation: if every permitted step succeeds and is followed by a step of
the abstract machine, a permitted run goes through and is followed by a run of the machine. -/
theorem exec_simulates {τ : Type*} {abs : τ → α → τ} {rel : σ → τ → Prop}
    (hstep : ∀ s t a, rel s t → ok s a → ∃ s', step s a = .ok s' ∧ rel s' (abs t a))
    {s : σ} {t : τ} {l : List α} (hl : Permitted step ok s l) (h : rel s t) :
    ∃ s', exec step s l = .ok s' ∧ rel s' (l.foldl abs t) := by
  induction l generalizing s t with
  | nil => exact ⟨s, rfl, h⟩
  | cons a l ih =>
    obtain ⟨hok, hrest⟩ := hl
    obtain ⟨u, hu, hrel⟩ := hstep s t a h hok
    obtain ⟨s', hs', hend⟩ := ih (hrest u hu) hrel
    exact ⟨s', by rw [exec, hu]; exact hs', hend⟩

/-- If every step from a state with the invariant succeeds and keeps it, so does every run. -/
theorem exec_invariant {inv : σ → Prop}
    (hstep : ∀ s a, inv s → ∃ t, step s a = .ok t ∧ inv t) {s : σ} (h : inv s) (l : List α) :
    ∃ t, exec step s l = .ok t ∧ inv t := by
  induction l generalizing s with
  | nil => exact ⟨s, rfl, h⟩
  | cons a l ih =>
    obtain ⟨u, hu, hinv⟩ := hstep s a h
    obtain ⟨t, ht, hend⟩ := ih hinv
    exact ⟨t, by rw [exec, hu]; exact ht, hend⟩

/-- A run that is computed, with what holds at its end. -/
theorem exec_of_check (step : σ → α → Except ε σ) {p : σ → Bool} {s : σ} {l : List α}
    (h : (match exec step s l with
      | .ok t => p t
      | .error _ => false) = true) : ∃ t, exec step s l = .ok t ∧ p t = true := by
  split at h
  · next t ht => exact ⟨t, ht, h⟩
  · cases h

/-- A step that fails, as computed. -/
def failsWith [DecidableEq ε] (step : σ → α → Except ε σ) (s : σ) (a : α) (e : ε) : Bool :=
  match step s a with
  | .ok _ => false
  | .error e' => e' = e

theorem failsWith_iff [DecidableEq ε] {s : σ} {a : α} {e : ε} :
    failsWith step s a e = true ↔ step s a = .error e := by
  rw [failsWith]
  cases step s a with
  | ok t => exact iff_of_false nofun nofun
  | error e' => rw [decide_eq_true_iff, Except.error.injEq]

end Transition
