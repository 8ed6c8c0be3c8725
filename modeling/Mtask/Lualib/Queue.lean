import Mathlib.Data.List.Basic
import Mtask.Lib.Transition

/-!
# The critical section of a queue

The function that `mtask.queue` returns runs another function, `f`, in a critical section. A
coroutine that finds the section taken joins `thread_queue` and waits; the one that leaves wakes
the first of those that wait. A coroutine inside may call the function again.

The coroutines are the elements of a type. Between two steps any number of other things may happen
in the service; a coroutine that waits in the queue is resumed by the wake-up of the queue alone.
-/

namespace Mtask.Lualib

open Function (update update_of_ne update_self)
open List

/-- Where a coroutine is; `depth` counts the calls around the innermost body. -/
inductive Place
  | outside
  /-- in `mtask.wait` -/
  | waiting
  | inside (depth : ℕ)
  deriving DecidableEq, Repr

/-- The number of bodies that a coroutine is inside of. -/
def Place.depth : Place → ℕ
  | inside depth => depth + 1
  | _ => 0

/-- The variables of a queue, with the entries of its coroutines in `sleep_session` and
`wakeup_session`. `arrived` and `entered` are history: the coroutines that came from outside, in
the order of their calls, and in the order in which they got into the section. -/
structure Queue (κ : Type*) where
  currentThread : Option κ
  ref : ℕ
  threadQueue : List κ
  place : κ → Place
  sleepSession : κ → Option ℕ
  wakeupSession : κ → Bool
  genid : ℕ
  arrived : List κ
  entered : List κ

/-- A step of a coroutine. -/
inductive QueueStep (κ : Type*)
  | call (thread : κ)
  /-- `dispatch_wakeup` resumes the coroutine -/
  | resume (thread : κ)
  /-- `f` returns, or raises an error -/
  | leave (thread : κ) (ok : Bool)

inductive QueueFault
  | notEnabled
  /-- `assert(ref == 0)` -/
  | assertion

namespace Queue

variable {κ : Type*} [DecidableEq κ]

/-- A new queue; its coroutines are elsewhere. -/
def init : Queue κ where
  currentThread := none
  ref := 0
  threadQueue := []
  place := fun _ => .outside
  sleepSession := fun _ => none
  wakeupSession := fun _ => false
  genid := 0
  arrived := []
  entered := []

/-- The section is taken, and `f` called. -/
def enter (q : Queue κ) (thread : κ) (depth : ℕ) : Queue κ :=
  { q with
    currentThread := some thread
    ref := q.ref + 1
    place := update q.place thread (.inside depth)
    entered := if depth = 0 then q.entered ++ [thread] else q.entered }

/-- `mtask.wait`, up to the point where it yields. -/
def wait (q : Queue κ) (thread : κ) : Queue κ :=
  { q with
    genid := q.genid + 1
    sleepSession := update q.sleepSession thread (some q.genid)
    place := update q.place thread .waiting }

/-- `mtask.wakeup` -/
def wakeup (q : Queue κ) (thread : κ) : Queue κ :=
  if q.sleepSession thread ≠ none ∧ q.wakeupSession thread = false then
    { q with wakeupSession := update q.wakeupSession thread true }
  else q

/-- The function is called by a coroutine that is inside `depth` bodies. -/
def call (q : Queue κ) (thread : κ) (depth : ℕ) : Queue κ :=
  let q := if depth = 0 then { q with arrived := q.arrived ++ [thread] } else q
  if q.currentThread ≠ none ∧ q.currentThread ≠ some thread then
    ({ q with threadQueue := q.threadQueue ++ [thread] } : Queue κ).wait thread
  else q.enter thread depth

/-- `dispatch_wakeup` resumes a coroutine, and `mtask.wait` returns. -/
def resume (q : Queue κ) (thread : κ) : Except QueueFault (Queue κ) :=
  let q := { q with
    wakeupSession := update q.wakeupSession thread false
    sleepSession := update q.sleepSession thread none }
  if q.ref = 0 then .ok (q.enter thread 0) else .error .assertion

/-- What follows `xpcall`; an error is raised again once the section has been handed over. -/
def leave (q : Queue κ) (thread : κ) (depth : ℕ) : Queue κ :=
  let q := { q with
    ref := q.ref - 1
    place := update q.place thread
      (match depth with
      | 0 => .outside
      | depth + 1 => .inside depth) }
  if q.ref = 0 then
    let q := { q with currentThread := q.threadQueue.head?, threadQueue := q.threadQueue.tail }
    match q.currentThread with
    | some next => q.wakeup next
    | none => q
  else q

/-- A step of a coroutine. One that waits calls nothing; one that `dispatch_wakeup` resumes has
been woken and sleeps. -/
def step (q : Queue κ) : QueueStep κ → Except QueueFault (Queue κ)
  | .call thread =>
    match q.place thread with
    | .outside => .ok (q.call thread 0)
    | .waiting => .error .notEnabled
    | .inside depth => .ok (q.call thread (depth + 1))
  | .resume thread =>
    if q.wakeupSession thread ∧ q.sleepSession thread ≠ none then q.resume thread
    else .error .notEnabled
  | .leave thread _ =>
    match q.place thread with
    | .inside depth => .ok (q.leave thread depth)
    | _ => .error .notEnabled

/-! ### The line in front of the section -/

/-- The coroutine that owns the section, and those behind it. -/
def line (q : Queue κ) : List κ :=
  q.currentThread.toList ++ q.threadQueue

/-- What every step keeps. -/
structure Kept (q : Queue κ) : Prop where
  nodup : q.line.Nodup
  mem_line : ∀ c, c ∈ q.line ↔ q.place c ≠ .outside
  behind : ∀ c ∈ q.threadQueue, q.place c = .waiting
  empty : q.currentThread = none → q.threadQueue = []
  sleeping : ∀ c, q.sleepSession c ≠ none ↔ q.place c = .waiting
  woken : ∀ c, q.wakeupSession c = true ↔ q.currentThread = some c ∧ q.place c = .waiting
  ref_none : q.currentThread = none → q.ref = 0
  ref_some : ∀ c, q.currentThread = some c → q.ref = (q.place c).depth
  order : q.arrived = q.entered ++ q.line.filter fun c => q.place c = .waiting

namespace Kept

variable {q q' : Queue κ} {c : κ}

omit [DecidableEq κ] in
theorem init : Kept (init : Queue κ) where
  nodup := nodup_nil
  mem_line c := by simp [Queue.init, line]
  behind _ h := by cases h
  empty _ := rfl
  sleeping c := by simp [Queue.init]
  woken c := by simp [Queue.init]
  ref_none _ := rfl
  ref_some _ h := by cases h
  order := rfl

omit [DecidableEq κ] in
/-- A coroutine inside a body owns the section. -/
theorem owner (h : Kept q) {depth : ℕ} (hc : q.place c = .inside depth) :
    q.currentThread = some c := by
  have hmem : c ∈ q.line := by
    rw [h.mem_line, hc]
    simp
  rcases mem_append.mp hmem with hcur | hque
  · exact Option.mem_toList.mp hcur
  · rw [h.behind c hque] at hc
    cases hc

omit [DecidableEq κ] in
theorem not_mem_line (h : Kept q) (hc : q.place c = .outside) : c ∉ q.line := by
  rw [h.mem_line, hc]
  simp

omit [DecidableEq κ] in
theorem line_of_owner (hc : q.currentThread = some c) : q.line = c :: q.threadQueue := by
  rw [line, hc]
  rfl

section

variable (h : Kept q)
include h

/-- A coroutine that was outside gets into the section. -/
theorem enter_free (c : κ) (hfree : q.currentThread = none) :
    Kept (({ q with arrived := q.arrived ++ [c] } : Queue κ).enter c 0) := by
  have hline : q.line = [] := by rw [line, hfree, h.empty hfree]; rfl
  have hout (d : κ) : q.place d = .outside := by
    by_contra hd
    have hmem := (h.mem_line d).mpr hd
    rw [hline] at hmem
    cases hmem
  have hnew : (({ q with arrived := q.arrived ++ [c] } : Queue κ).enter c 0).line = [c] := by
    simp [line, enter, h.empty hfree]
  constructor
  · rw [hnew]
    simp
  · intro d
    rw [hnew, mem_singleton]
    change _ ↔ update q.place c (.inside 0) d ≠ _
    by_cases hd : d = c
    · simp [hd]
    · simp [hd, hout]
  · intro d hd
    change d ∈ q.threadQueue at hd
    rw [h.empty hfree] at hd
    cases hd
  · intro hcur
    cases hcur
  · intro d
    change q.sleepSession d ≠ none ↔ update q.place c (.inside 0) d = _
    rw [h.sleeping, hout]
    by_cases hd : d = c
    · simp [hd]
    · simp [hd, hout]
  · intro d
    change q.wakeupSession d = true ↔ some c = some d ∧ update q.place c (.inside 0) d = _
    rw [h.woken, hfree]
    by_cases hd : d = c
    · simp [hd]
    · simp [hd, hout]
  · intro hcur
    cases hcur
  · intro d hd
    obtain rfl : c = d := Option.some.inj hd
    change q.ref + 1 = (update q.place c (.inside 0) c).depth
    rw [h.ref_none hfree, update_self]
    rfl
  · rw [hnew]
    change q.arrived ++ [c] = (q.entered ++ [c]) ++ _
    rw [h.order, hline]
    simp [enter]

/-- A coroutine that was outside finds the section taken. -/
theorem wait_behind (hc : q.place c = .outside) {owner : κ} (hown : q.currentThread = some owner) :
    Kept (({ q with
      arrived := q.arrived ++ [c]
      threadQueue := q.threadQueue ++ [c] } : Queue κ).wait c) := by
  have hnot := h.not_mem_line hc
  have hline : (({ q with
      arrived := q.arrived ++ [c]
      threadQueue := q.threadQueue ++ [c] } : Queue κ).wait c).line = q.line ++ [c] := by
    simp [line, wait]
  have hplace (d : κ) (hd : d ∈ q.line) :
      update q.place c .waiting d = q.place d :=
    update_of_ne (ne_of_mem_of_not_mem hd hnot) ..
  have howner : owner ≠ c := by
    rintro rfl
    exact hnot (by simp [line_of_owner hown])
  constructor
  · rw [hline]
    refine nodup_append.mpr ⟨h.nodup, by simp, fun d hd e he => ?_⟩
    rw [mem_singleton.mp he]
    exact ne_of_mem_of_not_mem hd hnot
  · intro d
    rw [hline, mem_append, h.mem_line, mem_singleton]
    change _ ↔ update q.place c .waiting d ≠ _
    by_cases hd : d = c
    · simp [hd]
    · simp [hd]
  · intro d hd
    change update q.place c .waiting d = _
    rcases mem_append.mp hd with hd | hd
    · rw [hplace d (mem_append_right _ hd), h.behind d hd]
    · rw [mem_singleton.mp hd, update_self]
  · intro hcur
    change q.currentThread = none at hcur
    rw [hown] at hcur
    cases hcur
  · intro d
    change update q.sleepSession c _ d ≠ none ↔ update q.place c .waiting d = _
    by_cases hd : d = c
    · simp [hd]
    · rw [update_of_ne hd, update_of_ne hd, h.sleeping]
  · intro d
    change q.wakeupSession d = true ↔
      q.currentThread = some d ∧ update q.place c .waiting d = _
    rw [h.woken]
    by_cases hd : d = c
    · simp [hd, hc, hown, howner]
    · rw [update_of_ne hd]
  · intro hcur
    exact h.ref_none hcur
  · intro d hd
    change q.ref = (update q.place c .waiting d).depth
    change q.currentThread = some d at hd
    rw [hplace d (by simp [line_of_owner hd]), h.ref_some d hd]
  · rw [hline, filter_append]
    change q.arrived ++ [c] = q.entered ++ _
    rw [h.order, append_assoc]
    congr 2
    · refine filter_congr fun d hd => ?_
      change _ = decide (update q.place c .waiting d = _)
      rw [hplace d hd]
    · simp [wait]

/-- The owner of the section goes from one body to another. -/
theorem move {depth : ℕ} (hc : q.place c = .inside depth) (depth' : ℕ) :
    Kept { q with ref := depth' + 1, place := update q.place c (.inside depth') } := by
  have hown := h.owner hc
  have hline : ({ q with ref := depth' + 1, place := update q.place c (.inside depth') } :
      Queue κ).line = q.line := rfl
  have hother {d : κ} : update q.place c (.inside depth') d = .waiting ↔
      q.place d = .waiting := by
    by_cases hd : d = c
    · simp [hd, hc]
    · rw [update_of_ne hd]
  constructor
  · exact h.nodup
  · intro d
    rw [hline, h.mem_line]
    change _ ↔ update q.place c (.inside depth') d ≠ _
    by_cases hd : d = c
    · simp [hd, hc]
    · rw [update_of_ne hd]
  · intro d hd
    exact hother.mpr (h.behind d hd)
  · exact h.empty
  · intro d
    exact (h.sleeping d).trans hother.symm
  · intro d
    exact (h.woken d).trans (and_congr_right' hother.symm)
  · intro hcur
    change q.currentThread = none at hcur
    rw [hown] at hcur
    cases hcur
  · intro d hd
    obtain rfl : c = d := Option.some.inj (hown.symm.trans hd)
    change depth' + 1 = (update q.place c (.inside depth') c).depth
    rw [update_self]
    rfl
  · rw [hline]
    refine h.order.trans (congrArg (q.entered ++ ·) (filter_congr fun d _ => ?_))
    exact decide_eq_decide.mpr hother.symm

/-- The coroutine that the section was handed over to gets into it. -/
theorem resumed (hown : q.currentThread = some c) (hc : q.place c = .waiting) :
    Kept (({ q with
      wakeupSession := update q.wakeupSession c false
      sleepSession := update q.sleepSession c none } : Queue κ).enter c 0) := by
  have hline : (({ q with
      wakeupSession := update q.wakeupSession c false
      sleepSession := update q.sleepSession c none } : Queue κ).enter c 0).line =
        q.line := by
    simp [line, enter, hown]
  have hnot : c ∉ q.threadQueue := by
    have hnodup := h.nodup
    rw [line_of_owner hown] at hnodup
    exact (nodup_cons.mp hnodup).1
  have hmem := h.mem_line
  constructor
  · rw [hline]
    exact h.nodup
  · intro d
    rw [hline, h.mem_line]
    change _ ↔ update q.place c (.inside 0) d ≠ _
    by_cases hd : d = c
    · simp [hd, hc]
    · rw [update_of_ne hd]
  · intro d hd
    change update q.place c (.inside 0) d = _
    rw [update_of_ne (ne_of_mem_of_not_mem hd hnot), h.behind d hd]
  · intro hcur
    cases hcur
  · intro d
    change update q.sleepSession c none d ≠ none ↔
      update q.place c (.inside 0) d = _
    by_cases hd : d = c
    · simp [hd]
    · rw [update_of_ne hd, update_of_ne hd, h.sleeping]
  · intro d
    change update q.wakeupSession c false d = true ↔
      some c = some d ∧ update q.place c (.inside 0) d = _
    by_cases hd : d = c
    · simp [hd]
    · rw [update_of_ne hd, update_of_ne hd, h.woken, hown]
  · intro hcur
    cases hcur
  · intro d hd
    obtain rfl : c = d := Option.some.inj hd
    change q.ref + 1 = (update q.place c (.inside 0) c).depth
    rw [h.ref_some c hown, hc, update_self]
    rfl
  · rw [hline, line_of_owner hown]
    change q.arrived = (q.entered ++ [c]) ++ List.filter
      (fun d => decide (update q.place c (.inside 0) d = .waiting)) (c :: q.threadQueue)
    rw [h.order, line_of_owner hown, filter_cons_of_pos (by simp [hc]),
      filter_cons_of_neg (by simp), append_assoc, singleton_append]
    congr 2
    refine filter_congr fun d hd => ?_
    rw [update_of_ne (ne_of_mem_of_not_mem hd hnot)]

/-- The outermost body of the owner ends, and the section passes to the next in line. -/
theorem handOver (hc : q.place c = .inside 0) : Kept (q.leave c 0) := by
  have hown := h.owner hc
  have href : q.ref - 1 = 0 := by rw [h.ref_some c hown, hc]; rfl
  have hnodup : (c :: q.threadQueue).Nodup := line_of_owner hown ▸ h.nodup
  have hnot : c ∉ q.threadQueue := (nodup_cons.mp hnodup).1
  have hline : q.line = c :: q.threadQueue := line_of_owner hown
  have hplace {d : κ} (hd : d ≠ c) : update q.place c .outside d = q.place d :=
    update_of_ne hd ..
  have hmem (d : κ) : d ∈ q.threadQueue ↔ update q.place c .outside d ≠ .outside := by
    by_cases hd : d = c
    · simp [hd, hnot]
    · rw [hplace hd, ← h.mem_line, hline, mem_cons, or_iff_right hd]
  have horder : q.arrived = q.entered ++ q.threadQueue.filter
      fun d => update q.place c .outside d = .waiting := by
    rw [h.order, hline, filter_cons_of_neg (by simp [hc])]
    congr 1
    refine filter_congr fun d hd => ?_
    rw [hplace (ne_of_mem_of_not_mem hd hnot)]
  have hwaiting (d : κ) : update q.place c .outside d = .waiting ↔
      q.place d = .waiting := by
    by_cases hd : d = c
    · simp [hd, hc]
    · rw [hplace hd]
  rw [leave]
  simp only [href, if_true]
  cases hque : q.threadQueue with
  | nil =>
    rw [hque] at hmem horder
    constructor
    · exact nodup_nil
    · intro d
      exact hmem d
    · intro d hd
      cases hd
    · intro _
      rfl
    · intro d
      exact (h.sleeping d).trans (hwaiting d).symm
    · intro d
      change q.wakeupSession d = true ↔ none = some d ∧ _
      rw [h.woken, hown]
      constructor
      · rintro ⟨hd, hw⟩
        rw [← Option.some.inj hd, hc] at hw
        cases hw
      · rintro ⟨hd, -⟩
        cases hd
    · intro _
      rfl
    · intro d hd
      cases hd
    · exact horder
  | cons next rest =>
    have hnext : q.place next = .waiting := h.behind next (by simp [hque])
    have hsleep : q.sleepSession next ≠ none := (h.sleeping next).mpr hnext
    have hunwoken : q.wakeupSession next = false := by
      by_contra hw
      rw [Bool.not_eq_false, h.woken, hown] at hw
      rw [← Option.some.inj hw.1, hc] at hnext
      cases hnext
    have hne : c ≠ next := by
      rintro rfl
      exact hnot (by simp [hque])
    simp only [head?_cons, tail_cons, wakeup]
    rw [if_pos ⟨hsleep, hunwoken⟩]
    rw [hque] at hmem horder hnodup
    constructor
    · exact (nodup_cons.mp hnodup).2
    · intro d
      exact hmem d
    · intro d hd
      exact (hwaiting d).mpr (h.behind d (by simp [hque, show d ∈ rest from hd]))
    · intro hcur
      cases hcur
    · intro d
      exact (h.sleeping d).trans (hwaiting d).symm
    · intro d
      change update q.wakeupSession next true d = true ↔ some next = some d ∧
        update q.place c .outside d = .waiting
      rw [hwaiting]
      by_cases hd : d = next
      · simp [hd, hnext]
      · rw [update_of_ne hd, h.woken, hown]
        constructor
        · rintro ⟨heq, hw⟩
          rw [← Option.some.inj heq, hc] at hw
          cases hw
        · rintro ⟨heq, -⟩
          exact absurd (Option.some.inj heq).symm hd
    · intro hcur
      cases hcur
    · intro d hd
      obtain rfl : next = d := Option.some.inj hd
      change 0 = (update q.place c .outside next).depth
      rw [hplace hne.symm, hnext]
      rfl
    · exact horder

theorem step_resume (hown : q.currentThread = some c) (hc : q.place c = .waiting) :
    q.step (.resume c) = .ok (({ q with
      wakeupSession := update q.wakeupSession c false
      sleepSession := update q.sleepSession c none } : Queue κ).enter c 0) := by
  have href : q.ref = 0 := by rw [h.ref_some c hown, hc]; rfl
  rw [Queue.step, if_pos ⟨(h.woken c).mpr ⟨hown, hc⟩, (h.sleeping c).mpr hc⟩, resume]
  exact if_pos href

theorem of_resume (hs : q.step (.resume c) ≠ .error .notEnabled) :
    q.currentThread = some c ∧ q.place c = .waiting := by
  rw [Queue.step] at hs
  split_ifs at hs with hw
  · exact (h.woken c).mp hw.1
  · exact absurd rfl hs

end

theorem step {a : QueueStep κ} (h : Kept q) (hs : q.step a = .ok q') : Kept q' := by
  cases a with
  | call c =>
    rw [Queue.step] at hs
    cases hc : q.place c with
    | outside =>
      rw [hc] at hs
      cases hs
      rw [call, if_pos rfl]
      cases hown : q.currentThread with
      | none => simpa [hown] using h.enter_free c hown
      | some owner =>
        have hne : owner ≠ c := by
          rintro rfl
          exact h.not_mem_line hc (by simp [line_of_owner hown])
        simpa [hown, hne] using h.wait_behind hc hown
    | waiting => simp [hc] at hs
    | inside depth =>
      rw [hc] at hs
      cases hs
      have hown := h.owner hc
      have href := h.ref_some c hown
      rw [hc] at href
      simpa [call, hown, enter, href, Place.depth] using h.move hc (depth + 1)
  | resume c =>
    obtain ⟨hown, hc⟩ := h.of_resume (c := c) (by simp [hs])
    rw [h.step_resume hown hc] at hs
    cases hs
    exact h.resumed hown hc
  | leave c ok =>
    rw [Queue.step] at hs
    cases hc : q.place c with
    | outside => simp [hc] at hs
    | waiting => simp [hc] at hs
    | inside depth =>
      rw [hc] at hs
      cases hs
      cases depth with
      | zero => exact h.handOver hc
      | succ depth =>
        have href := h.ref_some c (h.owner hc)
        rw [hc] at href
        simpa [leave, href, Place.depth] using h.move hc depth

theorem assertion (h : Kept q) (a : QueueStep κ) : q.step a ≠ .error .assertion := by
  intro hs
  cases a with
  | call c =>
    rw [Queue.step] at hs
    split at hs <;> cases hs
  | resume c =>
    obtain ⟨hown, hc⟩ := h.of_resume (c := c) (by simp [hs])
    rw [h.step_resume hown hc] at hs
    cases hs
  | leave c ok =>
    rw [Queue.step] at hs
    split at hs <;> cases hs

end Kept

/-- A re-entrant lock that is handed over in the order of arrival. -/
structure Locks (q : Queue κ) : Prop where
  /-- at most one coroutine is inside -/
  exclusive : ∀ c d m n, q.place c = .inside m → q.place d = .inside n → c = d
  /-- a call from inside does not wait -/
  nested : ∀ c depth, q.place c = .inside depth →
    ∃ q', q.step (.call c) = .ok q' ∧ q'.place c = .inside (depth + 1)
  assertion : ∀ a, q.step a ≠ .error .assertion
  /-- those that came and are not inside yet wait in the order in which they came -/
  order : q.arrived = q.entered ++ q.line.filter fun c => q.place c = .waiting
  free : (q.currentThread = none ∧ q.ref = 0 ∧ q.threadQueue = []) ↔ ∀ c, q.place c = .outside
  /-- if one waits, one is inside or the first that waits has been woken -/
  handedOver : ∀ c, q.place c = .waiting → (∃ d depth, q.place d = .inside depth) ∨
    ∃ d q', (q.line.filter fun c => q.place c = .waiting).head? = some d ∧
      q.step (.resume d) = .ok q' ∧ q'.place d = .inside 0

variable {q : Queue κ}

omit [DecidableEq κ] in
theorem Kept.free (h : Kept q) :
    (q.currentThread = none ∧ q.ref = 0 ∧ q.threadQueue = []) ↔ ∀ c, q.place c = .outside := by
  constructor
  · rintro ⟨hcur, -, hque⟩ c
    by_contra hc
    have hmem := (h.mem_line c).mpr hc
    rw [line, hcur, hque] at hmem
    cases hmem
  · intro hout
    have hline : q.line = [] := by
      refine eq_nil_iff_forall_not_mem.mpr fun c hc => ?_
      exact (h.mem_line c).mp hc (hout c)
    obtain ⟨hcur, hque⟩ := append_eq_nil_iff.mp hline
    have hnone : q.currentThread = none := Option.toList_eq_nil_iff.mp hcur
    exact ⟨hnone, h.ref_none hnone, hque⟩

theorem Kept.handedOver (h : Kept q) {c : κ} (hc : q.place c = .waiting) :
    (∃ d depth, q.place d = .inside depth) ∨
    ∃ d q', (q.line.filter fun c => q.place c = .waiting).head? = some d ∧
      q.step (.resume d) = .ok q' ∧ q'.place d = .inside 0 := by
  cases hown : q.currentThread with
  | none =>
    have hmem : c ∈ q.line := by simp [h.mem_line, hc]
    rw [line, hown, h.empty hown] at hmem
    cases hmem
  | some d =>
    cases hd : q.place d with
    | outside =>
      have hmem : d ∈ q.line := by simp [line_of_owner hown]
      exact absurd hd ((h.mem_line d).mp hmem)
    | inside depth => exact .inl ⟨d, depth, hd⟩
    | waiting =>
      refine .inr ⟨d, _, ?_, h.step_resume hown hd, update_self ..⟩
      rw [line_of_owner hown, filter_cons_of_pos (by simp [hd])]
      rfl

theorem Kept.nested (h : Kept q) {c : κ} {depth : ℕ} (hc : q.place c = .inside depth) :
    ∃ q', q.step (.call c) = .ok q' ∧ q'.place c = .inside (depth + 1) := by
  refine ⟨q.enter c (depth + 1), ?_, update_self ..⟩
  simp [Queue.step, hc, call, h.owner hc]

/-- In every run the queue is a re-entrant lock, handed over in the order of arrival. -/
theorem queue_locks (h : Transition.Reaches step (fun _ _ => True) init q) : q.Locks := by
  have hkept : Kept q := h.invariant Kept.init fun _ _ _ hinv _ hs => hinv.step hs
  exact {
    exclusive := fun c d m n hc hd =>
      Option.some.inj ((hkept.owner hc).symm.trans (hkept.owner hd))
    nested := fun _ _ => hkept.nested
    assertion := hkept.assertion
    order := hkept.order
    free := hkept.free
    handedOver := fun _ => hkept.handedOver }

/-- Two coroutines come while a third is in a nested call; its body raises an error, it leaves, and
comes back while the first of the two has been woken. -/
theorem queue_locks_three :
    ∃ q : Queue ℕ, Transition.exec step init
        [.call 0, .call 0, .call 1, .call 2, .leave 0 false, .leave 0 false, .call 0, .resume 1]
        = .ok q ∧
      q.place 1 = .inside 0 ∧ q.threadQueue = [2, 0] ∧ q.Locks :=
  ⟨_, rfl, rfl, rfl, queue_locks (Transition.reaches_of_exec (l := [.call 0, .call 0, .call 1,
    .call 2, .leave 0 false, .leave 0 false, .call 0, .resume 1]) rfl fun _ _ _ => trivial)⟩

end Queue

end Mtask.Lualib
