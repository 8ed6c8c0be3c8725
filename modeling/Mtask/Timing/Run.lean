import Mtask.Lib.Transition
import Mtask.Timing.TimerWheel

/-!
# Runs of the timer

`timer_update` gives its lock back while it dispatches a list, so calls of `timer_add` come in
between. A run is a sequence of the sections that hold the lock and of the pushes of the messages.
The tick of the source wraps around at `2 ^ 32`; next to it the state counts the ticks in `now`
without wrapping, keeps every timeout ever added with the tick at which it is due, and every push
with the tick at which it was made.
-/

namespace Mtask.Timing

open List

/-- Where `timer_update` stands while the lock is not held: not running, or in the loop of its
first or its second `timer_execute` with the nodes that are still to be dispatched. -/
inductive Phase
  | idle
  | first (current : List TimerNode)
  | second (current : List TimerNode)
  deriving DecidableEq

/-- The timer, and the history of its additions and its pushes. -/
structure TimerState where
  T : Timer
  phase : Phase
  now : ℕ
  added : List (ℕ × TimerEvent)
  pushed : List (ℕ × (ℕ × MtaskMessage))

/-- The steps: a call of `timer_add`, the next section of `timer_update` that holds the lock, and
the push of the next message of `dispatch_list`. -/
inductive TimerStep
  | add (event : TimerEvent) (time : ℤ)
  | lock
  | push

inductive TimerFault
  | indexOutOfRange
  | disabled
  deriving DecidableEq

/-- A timer that was created and whose tick was set to `start`. -/
def TimerState.init (start : UInt32) : TimerState where
  T := timerCreateTimer start.toNat
  phase := .idle
  now := start.toNat
  added := []
  pushed := []

/-- `timer_update` in its second `timer_execute`, up to where it gives the lock back. -/
def secondExecute (s : TimerState) : TimerState :=
  match takeNear s.T with
  | some (current, T) => { s with T, phase := .second current }
  | none => { s with phase := .idle }

/-- `timer_update` in its first `timer_execute`, up to where it gives the lock back. -/
def firstExecute (s : TimerState) : Except TimerFault TimerState :=
  match takeNear s.T with
  | some (current, T) => .ok { s with T, phase := .first current }
  | none =>
    match timerShift s.T with
    | some T => .ok (secondExecute { s with T, now := s.now + 1 })
    | none => .error .indexOutOfRange

/-- The push of the event of a node at the current tick. -/
def TimerState.push (s : TimerState) (node : TimerNode) (phase : Phase) : TimerState :=
  { s with phase, pushed := s.pushed ++ [(s.now, dispatchMessage node.event)] }

def step (s : TimerState) : TimerStep → Except TimerFault TimerState
  | .add event time =>
    match timerAdd s.T event time with
    | some T => .ok { s with T, added := s.added ++ [(s.now + time.toNat, event)] }
    | none => .error .indexOutOfRange
  | .lock =>
    match s.phase with
    | .idle | .first [] => firstExecute s
    | .second [] => .ok (secondExecute s)
    | .first (_ :: _) | .second (_ :: _) => .error .disabled
  | .push =>
    match s.phase with
    | .first (node :: current) => .ok (s.push node (.first current))
    | .second (node :: current) => .ok (s.push node (.second current))
    | .idle | .first [] | .second [] => .error .disabled

/-- The calls of `timer_add` wait for at least one tick. The delay is an `int`. -/
def Delayed (_ : TimerState) : TimerStep → Prop
  | .add _ time => 1 ≤ time ∧ time < 2 ^ 31
  | .lock | .push => True

/-! ### The invariant -/

/-- The timeouts that are due at a tick, in the order in which they were added. -/
def TimerState.dueAt (s : TimerState) (n : ℕ) : List TimerEvent :=
  (s.added.filter fun a => a.1 = n).map Prod.snd

/-- The pushes made at a tick, in their order. -/
def TimerState.pushedAt (s : TimerState) (n : ℕ) : List (ℕ × MtaskMessage) :=
  (s.pushed.filter fun p => p.1 = n).map Prod.snd

/-- What `timer_update` still has to dispatch at the current tick. -/
def Phase.rest : Phase → List TimerNode
  | .idle => []
  | .first current | .second current => current

/-- The invariant: the timer holds what is due later, and what was due is pushed but for the rest
of the list that is being dispatched. The first `timer_execute` never finds a list. -/
structure Inv (s : TimerState) : Prop where
  holds : Holds s.T s.now (s.added.filter fun a => s.now < a.1)
  near : ∀ a ∈ s.added, a.1 < s.now + 2 ^ 31
  not_first : ∀ current, s.phase ≠ .first current
  past : ∀ n < s.now, s.pushedAt n = (s.dueAt n).map dispatchMessage
  present : s.pushedAt s.now ++ s.phase.rest.map (fun node => dispatchMessage node.event) =
    (s.dueAt s.now).map dispatchMessage
  future : ∀ n, s.now < n → s.pushedAt n = []

theorem inv_init (start : UInt32) : Inv (.init start) where
  holds := Holds.timerCreateTimer start.toNat_lt
  near := by simp [TimerState.init]
  not_first := by simp [TimerState.init]
  past := fun _ _ => rfl
  present := rfl
  future := fun _ _ => rfl

private theorem map_filter_nodeOf (l : List (ℕ × TimerEvent)) :
    (l.map nodeOf).map (fun node => dispatchMessage node.event) =
      (l.map Prod.snd).map dispatchMessage := by
  rw [map_map, map_map]
  rfl

variable {s s' : TimerState}

theorem inv_add {event : TimerEvent} {time : ℤ} (h : Inv s) (htime : 1 ≤ time ∧ time < 2 ^ 31)
    (hstep : step s (.add event time) = .ok s') : Inv s' := by
  obtain ⟨T', hadd, hT'⟩ := h.holds.timerAdd event (by omega) htime.2
  simp only [step, hadd, Except.ok.injEq] at hstep
  subst hstep
  have hlater : s.now < s.now + time.toNat := by omega
  have hdueAt : ∀ n ≤ s.now, ((s.added ++ [(s.now + time.toNat, event)]).filter fun a => a.1 = n) =
      s.added.filter fun a => a.1 = n := by
    intro n hn
    have hne : s.now + time.toNat ≠ n := by omega
    simp [hne]
  refine ⟨?_, ?_, h.not_first, fun n hn => ?_, ?_, h.future⟩
  · simpa [filter_append, hlater] using hT'
  · intro a ha
    rcases mem_append.mp ha with ha | ha
    · exact h.near a ha
    · rw [mem_singleton] at ha
      subst ha
      change s.now + time.toNat < s.now + 2 ^ 31
      omega
  · have := h.past n hn
    simpa only [TimerState.pushedAt, TimerState.dueAt, hdueAt n hn.le] using this
  · have := h.present
    simpa only [TimerState.pushedAt, TimerState.dueAt, hdueAt s.now le_rfl] using this

theorem inv_push (h : Inv s) (hstep : step s .push = .ok s') : Inv s' := by
  obtain ⟨node, current, hphase⟩ : ∃ node current, s.phase = .second (node :: current) := by
    rcases hphase : s.phase with _ | current | _ | ⟨node, current⟩
    · simp [step, hphase] at hstep
    · exact absurd hphase (h.not_first current)
    · simp [step, hphase] at hstep
    · exact ⟨node, current, rfl⟩
  simp only [step, hphase, Except.ok.injEq] at hstep
  subst hstep
  have hpushedAt : ∀ n ≠ s.now, (s.push node (.second current)).pushedAt n = s.pushedAt n := by
    intro n hn
    simp [TimerState.push, TimerState.pushedAt, Ne.symm hn]
  have hpushedNow : (s.push node (.second current)).pushedAt s.now =
      s.pushedAt s.now ++ [dispatchMessage node.event] := by
    simp [TimerState.push, TimerState.pushedAt]
  refine ⟨h.holds, h.near, by simp [TimerState.push], fun n hn => ?_, ?_, fun n hn => ?_⟩
  · rw [hpushedAt n (Nat.ne_of_lt hn)]
    exact h.past n hn
  · have hpresent := h.present
    rw [hphase, Phase.rest, map_cons, ← singleton_append, ← append_assoc] at hpresent
    rw [← hpushedNow] at hpresent
    exact hpresent
  · rw [hpushedAt n (Nat.ne_of_gt hn)]
    exact h.future n hn

/-- Between two ticks, `timer_execute` finds nothing to dispatch. -/
theorem takeNear_eq_none (h : Inv s) : takeNear s.T = none := by
  have hnil : (s.added.filter fun a => s.now < a.1).filter (fun a => a.1 = s.now) = [] := by
    rw [filter_filter, filter_eq_nil_iff]
    intro a _
    simp only [Bool.and_eq_true, decide_eq_true_eq, not_and]
    omega
  have hne : takeNear s.T = none ∨ ∃ T', takeNear s.T = some ([], T') := by
    have := h.holds.takeNear
    rw [hnil] at this
    rcases this with ⟨hnone, -⟩ | ⟨T', hsome, -⟩
    · exact Or.inl hnone
    · exact Or.inr ⟨T', hsome⟩
  rcases hne with hnone | ⟨T', hsome⟩
  · exact hnone
  · rw [takeNear] at hsome
    split_ifs at hsome with hempty
    simp only [Option.some_inj, Prod.mk.injEq] at hsome
    exact absurd hsome.1 hempty

/-- The end of `timer_update`: nothing was added for the tick that it has reached. -/
theorem inv_secondExecute (h : Inv s) (hrest : s.phase.rest = []) : Inv (secondExecute s) := by
  rw [secondExecute, takeNear_eq_none h]
  refine ⟨h.holds, h.near, by simp, h.past, ?_, h.future⟩
  have := h.present
  rw [hrest] at this
  exact this

/-- The tick of `timer_update`: all that is due at the new tick is taken to be dispatched. -/
theorem inv_firstExecute (h : Inv s) (hrest : s.phase.rest = []) :
    ∃ s', firstExecute s = .ok s' ∧ Inv s' := by
  obtain ⟨T₁, hshift, hT₁⟩ := h.holds.timerShift fun a ha => by
    rw [mem_filter, decide_eq_true_eq] at ha
    exact ⟨ha.2, h.near a ha.1⟩
  have hdue : (s.added.filter fun a => s.now < a.1).filter (fun a => a.1 = s.now + 1) =
      s.added.filter fun a => a.1 = s.now + 1 := by
    rw [filter_filter]
    refine filter_congr fun a _ => ?_
    by_cases ha : a.1 = s.now + 1
    · simp [ha]
    · simp [ha]
  have hlater : (s.added.filter fun a => s.now < a.1).filter (fun a => a.1 ≠ s.now + 1) =
      s.added.filter fun a => s.now + 1 < a.1 := by
    rw [filter_filter]
    refine filter_congr fun a _ => ?_
    rw [Bool.eq_iff_iff, Bool.and_eq_true]
    simp only [decide_eq_true_eq]
    omega
  have hnear : ∀ a ∈ s.added, a.1 < s.now + 1 + 2 ^ 31 := fun a ha =>
    (h.near a ha).trans (by omega)
  have hpast : ∀ n < s.now + 1, s.pushedAt n = (s.dueAt n).map dispatchMessage := by
    intro n hn
    rcases (Nat.le_of_lt_succ hn).lt_or_eq with hlt | rfl
    · exact h.past n hlt
    · have := h.present
      rwa [hrest, map_nil, append_nil] at this
  have hnil := h.future (s.now + 1) (Nat.lt_succ_self _)
  have hfuture : ∀ n, s.now + 1 < n → s.pushedAt n = [] := fun n hn => h.future n (by omega)
  rw [firstExecute, takeNear_eq_none h]
  simp only [hshift]
  refine ⟨_, rfl, ?_⟩
  rw [secondExecute]
  rcases hT₁.takeNear with ⟨hnone, hempty⟩ | ⟨T₂, hsome, hT₂⟩
  · rw [hdue] at hempty
    rw [hnone]
    have hlater' : (s.added.filter fun a => s.now < a.1) =
        s.added.filter fun a => s.now + 1 < a.1 := by
      rw [← hlater, eq_comm, filter_eq_self]
      intro a ha
      simp only [decide_eq_true_eq]
      intro heq
      have hmem : a ∈ s.added.filter fun a => a.1 = s.now + 1 :=
        mem_filter.mpr ⟨mem_of_mem_filter ha, by simpa using heq⟩
      rw [hempty] at hmem
      simp at hmem
    refine ⟨hlater' ▸ hT₁, hnear, by simp, hpast, ?_, hfuture⟩
    change s.pushedAt (s.now + 1) ++ [] = ((s.added.filter _).map _).map _
    rw [hnil, hempty]
    rfl
  · rw [hdue, hlater] at *
    rw [hsome]
    refine ⟨hT₂, hnear, by simp, hpast, ?_, hfuture⟩
    change s.pushedAt (s.now + 1) ++ _ = ((s.added.filter _).map _).map _
    rw [hnil, nil_append, ← map_filter_nodeOf]
    rfl

variable {a : TimerStep}

/-- **Every step keeps the invariant.** -/
theorem inv_step (h : Inv s) (hok : Delayed s a) (hstep : step s a = .ok s') : Inv s' := by
  rcases a with ⟨event, time⟩ | _ | _
  · exact inv_add h hok hstep
  · rcases hphase : s.phase with _ | current | _ | ⟨node, current⟩
    · obtain ⟨s'', hfirst, hinv⟩ := inv_firstExecute h (by rw [hphase]; rfl)
      simp only [step, hphase, hfirst, Except.ok.injEq] at hstep
      exact hstep ▸ hinv
    · exact absurd hphase (h.not_first current)
    · simp only [step, hphase, Except.ok.injEq] at hstep
      exact hstep ▸ inv_secondExecute h (by rw [hphase]; rfl)
    · simp [step, hphase] at hstep
  · exact inv_push h hstep

theorem inv_reaches {start : UInt32} (h : Transition.Reaches step Delayed (.init start) s) :
    Inv s :=
  h.invariant (inv_init start) fun _ _ _ hinv hok hstep => inv_step hinv hok hstep

theorem step_ne_indexOutOfRange (h : Inv s) (hok : Delayed s a) :
    step s a ≠ .error .indexOutOfRange := by
  rcases a with ⟨event, time⟩ | _ | _
  · obtain ⟨T', hadd, -⟩ := h.holds.timerAdd event (by have := hok.1; omega) hok.2
    simp [step, hadd]
  · rcases hphase : s.phase with _ | current | _ | ⟨node, current⟩
    · obtain ⟨s', hfirst, -⟩ := inv_firstExecute h (by rw [hphase]; rfl)
      simp [step, hphase, hfirst]
    · exact absurd hphase (h.not_first current)
    · simp [step, hphase]
    · simp [step, hphase]
  · rcases hphase : s.phase with _ | (_ | ⟨node, current⟩) | _ | ⟨node, current⟩ <;>
      simp [step, hphase]

/-! ### The timer is exact -/

/-- **The timer is exact.** In every run, from any tick and across its wrapping around, and for
every tick `n`, counted without wrapping: once `timer_update` is done with the tick `n`, the
messages pushed at `n` are those of the timeouts that were added for `n`, each one once and in the
order of the additions; until then the pushes at `n` and the rest of the list that is being
dispatched are together these messages; and nothing is pushed for a tick that is not reached. The
tick of the timer is `now` up to its wrapping around, and no index is ever out of range. -/
theorem timer_dispatch_exact (start : UInt32) {s : TimerState}
    (h : Transition.Reaches step Delayed (.init start) s) :
    s.T.time = s.now % 2 ^ 32 ∧
      (∀ n, n < s.now ∨ n = s.now ∧ s.phase = .idle →
        s.pushedAt n = (s.dueAt n).map dispatchMessage) ∧
      (s.pushedAt s.now ++ s.phase.rest.map (fun node => dispatchMessage node.event) =
        (s.dueAt s.now).map dispatchMessage) ∧
      (∀ n, s.now < n → s.pushedAt n = []) ∧
      ∀ a, Delayed s a → step s a ≠ .error .indexOutOfRange := by
  have hinv := inv_reaches h
  refine ⟨hinv.holds.time, ?_, hinv.present, hinv.future, fun a => step_ne_indexOutOfRange hinv⟩
  rintro n (hlt | ⟨rfl, hidle⟩)
  · exact hinv.past n hlt
  · have hpresent := hinv.present
    rwa [hidle, Phase.rest, List.map_nil, List.append_nil] at hpresent

/-- A timeout of three ticks across the wrapping of the tick: it waits in the top level, which the
tick `0` empties. -/
theorem timer_dispatch_exact_wrapped :
    ∃ s, Transition.exec step (.init 0xfffffffe)
        [.add ⟨7, 5⟩ 3, .lock, .lock, .lock, .push, .lock] = .ok s ∧
      s.T.time = 1 ∧ s.pushedAt (2 ^ 32 + 1) = [(7, .ofType 0 ptypeResponse 5)] := by
  obtain ⟨s, hexec, hnow, hphase, hdue⟩ : ∃ s, Transition.exec step (.init 0xfffffffe)
      [.add ⟨7, 5⟩ 3, .lock, .lock, .lock, .push, .lock] = .ok s ∧
      s.now = 2 ^ 32 + 1 ∧ s.phase = .idle ∧ s.dueAt (2 ^ 32 + 1) = [⟨7, 5⟩] :=
    ⟨_, rfl, by decide, by decide, by decide⟩
  have hreaches : Transition.Reaches step Delayed (.init 0xfffffffe) s :=
    Transition.reaches_of_exec hexec (by simp [Delayed])
  obtain ⟨htime, hpushed, -⟩ := timer_dispatch_exact 0xfffffffe hreaches
  refine ⟨s, hexec, ?_, ?_⟩
  · rw [htime, hnow]
    rfl
  · rw [hpushed _ (Or.inr ⟨hnow.symm, hphase⟩), hdue]
    rfl

end Mtask.Timing
