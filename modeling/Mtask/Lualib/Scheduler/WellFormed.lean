import Mtask.Lualib.Scheduler.Service

/-!
# Where the coroutines of a service are

The tables of the scheduler agree with what the coroutines do: an entry of `session_id_coroutine`
is a coroutine that waits for that session or has not been started, `sleep_session` has the
coroutines that sleep, `fork_queue` those that nothing else will start, and `coroutine_pool` those
that have ended. This holds in every run, whatever the coroutines do.
-/

namespace Mtask.Lualib.Scheduler

open Service List
open Function (update update_apply update_of_ne)

variable {s t : Service} {co frames session k : ℕ}

/-- The tables of the scheduler agree with what the coroutines do. -/
structure WellFormed (s : Service) : Prop where
  waiting : ∀ session co, s.sessionIdCoroutine session = some (.coroutine co) →
    s.thread co = .created ∨ (∃ untimed, s.thread co = .sleeping session untimed) ∨
      s.thread co = .calling session
  entry_unique : ∀ session session' co, s.sessionIdCoroutine session = some (.coroutine co) →
    s.sessionIdCoroutine session' = some (.coroutine co) → session = session'
  forked : ∀ co ∈ s.forkQueue,
    s.thread co = .created ∧ ∀ session, s.sessionIdCoroutine session ≠ some (.coroutine co)
  forkQueue_nodup : s.forkQueue.Nodup
  pooled : ∀ co ∈ s.coroutinePool, s.thread co = .pooled
  pool_nodup : s.coroutinePool.Nodup
  absent : ∀ co, s.threads ≤ co → s.thread co = .absent
  sleeping : ∀ co session,
    s.sleepSession co = some session ↔ ∃ untimed, s.thread co = .sleeping session untimed
  running : ∀ co frames, s.control = .running co frames → s.thread co = .running
  unhandled : ∀ co, s.thread co = .absent ∨ s.thread co = .pooled →
    s.request co = none ∧ s.sessionResponse co = false

/-- A coroutine that is neither in `session_id_coroutine` nor in `fork_queue` or the pool. -/
structure Detached (s : Service) (co : ℕ) : Prop where
  entry : ∀ session, s.sessionIdCoroutine session ≠ some (.coroutine co)
  forked : co ∉ s.forkQueue
  pooled : co ∉ s.coroutinePool
  lt : co < s.threads

namespace WellFormed

theorem start (lastSession : ℕ) : WellFormed (Service.start lastSession) where
  waiting session co h := by
    simp only [Service.start, update_apply] at h ⊢
    grind
  entry_unique session session' co h h' := by
    simp only [Service.start, update_apply] at h h'
    grind
  forked co h := by simp [Service.start] at h
  forkQueue_nodup := nodup_nil
  pooled co h := by simp [Service.start] at h
  pool_nodup := nodup_nil
  absent co h := by
    simp only [Service.start] at h ⊢
    rw [update_of_ne (by omega)]
  sleeping co session := by
    simp only [Service.start, update_apply]
    grind
  running co frames h := by simp [Service.start] at h
  unhandled co h := ⟨rfl, rfl⟩

section

variable (h : WellFormed s)
include h

/-- A coroutine that waits for nothing: it is neither in `session_id_coroutine` nor in
`fork_queue`. -/
theorem no_entry (hco : s.thread co ≠ .created)
    (hsl : ∀ session untimed, s.thread co ≠ .sleeping session untimed)
    (hca : ∀ session, s.thread co ≠ .calling session) (session : ℕ) :
    s.sessionIdCoroutine session ≠ some (.coroutine co) := fun he => by
  rcases h.waiting session co he with hc | ⟨u, hc⟩ | hc
  exacts [hco hc, hsl session u hc, hca session hc]

theorem clear (session : ℕ) {w : Option Waiter} (hw : ∀ co, w ≠ some (.coroutine co)) :
    WellFormed { s with sessionIdCoroutine := update s.sessionIdCoroutine session w } where
  __ := h
  waiting session' co he := by
    simp only [update_apply] at he
    split at he
    · exact absurd he (hw co)
    · exact h.waiting session' co he
  entry_unique session' session'' co he he' := by
    have := h.entry_unique session' session'' co
    simp only [update_apply] at he he'
    grind
  forked co hco := by
    refine ⟨(h.forked co hco).1, fun session' he => ?_⟩
    simp only [update_apply] at he
    split at he
    · exact hw co he
    · exact (h.forked co hco).2 session' he

theorem clear_entry (he : s.sessionIdCoroutine session = some (.coroutine co)) (session' : ℕ) :
    update s.sessionIdCoroutine session none session' ≠ some (.coroutine co) := by
  intro he'
  simp only [update_apply] at he'
  split at he'
  · cases he'
  · rename_i hne
    exact hne (h.entry_unique session' session co he' he)

theorem detached (hrun : s.thread co = .running) : Detached s co where
  entry := h.no_entry (by simp [hrun]) (by simp [hrun]) (by simp [hrun])
  forked hm := by have := (h.forked co hm).1; simp [hrun] at this
  pooled hm := by have := h.pooled co hm; simp [hrun] at this
  lt := by
    by_contra hlt
    have := h.absent co (not_lt.1 hlt)
    simp [hrun] at this

theorem sleepSession_eq_none (co : ℕ)
    (hco : ∀ session untimed, s.thread co ≠ .sleeping session untimed) :
    s.sleepSession co = none := by
  cases hs : s.sleepSession co with
  | none => rfl
  | some session =>
    obtain ⟨untimed, hu⟩ := (h.sleeping co session).1 hs
    exact absurd hu (hco session untimed)

/-- A coroutine that is in no table, and does not sleep, goes on to something else. -/
theorem moved (hd : Detached s co) (hs : s.sleepSession co = none) {v : Thread}
    (hv : v = .created ∨ v = .running ∨ v = .quit ∨ v = .lost ∨ v = .dead) {c : Control}
    (hc : ∀ co' frames, c = .running co' frames → update s.thread co v co' = .running) :
    WellFormed { s with control := c, thread := update s.thread co v } := by
  obtain ⟨he, hf, hp, hlt⟩ := hd
  constructor
  all_goals simp only [update_apply] at hc ⊢
  · grind [h.waiting]
  · exact h.entry_unique
  · grind [h.forked]
  · exact h.forkQueue_nodup
  · grind [h.pooled]
  · exact h.pool_nodup
  · grind [h.absent]
  · grind [h.sleeping]
  · exact hc
  · grind [h.unhandled]

theorem resume (hd : Detached s co) {message : Option ℕ} (hs : s.resume co frames message = .ok t) :
    WellFormed t := by
  obtain ⟨hco, rfl⟩ | ⟨session, untimed, hco, rfl⟩ | ⟨session, hco, rfl⟩ := resume_cases hs
  · exact h.moved hd (h.sleepSession_eq_none co (by simp [hco])) (by simp) (by grind)
  · obtain ⟨he, hf, hp, hlt⟩ := hd
    constructor
    all_goals simp only [update_apply]
    · grind [h.waiting]
    · grind [h.entry_unique]
    · grind [h.forked]
    · exact h.forkQueue_nodup
    · grind [h.pooled]
    · exact h.pool_nodup
    · grind [h.absent]
    · grind [h.sleeping]
    · grind
    · grind [h.unhandled]
  · have := h.moved hd (h.sleepSession_eq_none co (by simp [hco])) (v := .running)
      (c := .running co frames) (by simp) (by grind)
    exact { this with }

end

/-! ### What a coroutine yields -/

section

variable (h : WellFormed s)
include h

theorem call (hrun : s.thread co = .running) (service : ℕ) :
    WellFormed (s.call co frames service) := by
  have hs := h.sleepSession_eq_none co (by simp [hrun])
  obtain ⟨he, hf, hp, hlt⟩ := h.detached hrun
  constructor
  all_goals simp only [Service.call, Service.genid, update_apply]
  · grind [h.waiting]
  · grind [h.entry_unique]
  · grind [h.forked]
  · exact h.forkQueue_nodup
  · grind [h.pooled]
  · exact h.pool_nodup
  · grind [h.absent]
  · grind [h.sleeping]
  · grind
  · grind [h.unhandled]

theorem sleep (hrun : s.thread co = .running) (untimed : Bool) :
    WellFormed (s.sleep co frames untimed) := by
  obtain ⟨he, hf, hp, hlt⟩ := h.detached hrun
  constructor
  all_goals simp only [Service.sleep, Service.genid, update_apply]
  · grind [h.waiting]
  · grind [h.entry_unique]
  · grind [h.forked]
  · exact h.forkQueue_nodup
  · grind [h.pooled]
  · exact h.pool_nodup
  · grind [h.absent]
  · intro co' session
    by_cases hc : co' = co
    · simp [hc]
    · simpa [hc] using h.sleeping co' session
  · grind
  · grind [h.unhandled]

theorem lose (hd : Detached s co) (hs : s.sleepSession co = none) : WellFormed (s.lose co) :=
  h.moved hd hs (by simp) (by simp)

theorem raise (hrun : s.thread co = .running) : WellFormed (s.raise co) := by
  have := h.moved (h.detached hrun) (h.sleepSession_eq_none co (by simp [hrun])) (v := .dead)
    (c := .forks) (by simp) (by simp)
  refine { this with unhandled := fun co' hco' => ?_ }
  have := this.unhandled co' hco'
  simp only [Service.raise, update_apply]
  grind

theorem finish (hd : Detached s co) (hs : s.sleepSession co = none) :
    WellFormed (s.finish co frames) := by
  obtain ⟨he, hf, hp, hlt⟩ := hd
  constructor
  all_goals simp only [Service.finish, update_apply]
  · grind [h.waiting]
  · exact h.entry_unique
  · grind [h.forked]
  · exact h.forkQueue_nodup
  · grind [h.pooled]
  · exact nodup_cons.2 ⟨hp, h.pool_nodup⟩
  · grind [h.absent]
  · grind [h.sleeping]
  · grind
  · grind [h.unhandled]

end

/-! ### New coroutines -/

theorem newThread_eq (s : Service) : (s.coroutinePool = [] ∧ s.newThread = s.threads) ∨
    ∃ pool, s.coroutinePool = s.newThread :: pool := by
  unfold newThread
  cases hp : s.coroutinePool with
  | nil => exact .inl ⟨rfl, rfl⟩
  | cons co pool => exact .inr ⟨pool, rfl⟩

theorem newThread_cases (h : WellFormed s) :
    s.thread s.newThread = .absent ∨ s.thread s.newThread = .pooled := by
  rcases newThread_eq s with ⟨-, hn⟩ | ⟨pool, hp⟩
  · exact .inl (h.absent _ (le_of_eq hn.symm))
  · exact .inr (h.pooled _ (by simp [hp]))

theorem newThread_notMem_tail (h : WellFormed s) : s.newThread ∉ s.coroutinePool.tail := by
  rcases newThread_eq s with ⟨hp, -⟩ | ⟨pool, hp⟩
  · simp [hp]
  · have := h.pool_nodup
    rw [hp] at this ⊢
    exact (nodup_cons.1 this).1

theorem newThread_lt (h : WellFormed s) : s.newThread < s.coCreate.threads := by
  simp only [Service.coCreate]
  rcases newThread_eq s with ⟨hp, hn⟩ | ⟨pool, hp⟩
  · simp [hp, hn]
  · by_contra hle
    have := h.absent s.newThread (by simpa [hp] using hle)
    have := h.pooled s.newThread (by simp [hp])
    grind

theorem le_coCreate_threads (s : Service) : s.threads ≤ s.coCreate.threads := by
  simp only [Service.coCreate]
  split <;> omega

/-- Nothing refers to the coroutine that is made next. -/
theorem newThread_unused (h : WellFormed s) : s.newThread ∉ s.forkQueue ∧
    (∀ session, s.sessionIdCoroutine session ≠ some (.coroutine s.newThread)) ∧
      s.sleepSession s.newThread = none := by
  have hth := h.newThread_cases
  refine ⟨fun hm => ?_, h.no_entry ?_ ?_ ?_, h.sleepSession_eq_none _ ?_⟩
  · have := (h.forked _ hm).1
    grind
  all_goals grind

theorem coCreate (h : WellFormed s) : WellFormed s.coCreate := by
  obtain ⟨hf, he, hs⟩ := h.newThread_unused
  have hth := h.newThread_cases
  have hlt := h.newThread_lt
  have hle := le_coCreate_threads s
  constructor
  · simp only [Service.coCreate, update_apply]
    grind [h.waiting]
  · exact h.entry_unique
  · simp only [Service.coCreate, update_apply]
    grind [h.forked]
  · exact h.forkQueue_nodup
  · intro co hco
    rw [show s.coCreate.thread = update s.thread s.newThread .created from rfl,
      update_of_ne (ne_of_mem_of_not_mem hco h.newThread_notMem_tail)]
    exact h.pooled co (mem_of_mem_tail hco)
  · exact h.pool_nodup.tail
  · intro co hco
    rw [show s.coCreate.thread = update s.thread s.newThread .created from rfl,
      update_of_ne (by omega)]
    exact h.absent co (by omega)
  · simp only [Service.coCreate, update_apply]
    grind [h.sleeping]
  · simp only [Service.coCreate, update_apply]
    grind [h.running]
  · simp only [Service.coCreate, update_apply]
    grind [h.unhandled]

theorem detached_coCreate (h : WellFormed s) : Detached s.coCreate s.newThread :=
  have ⟨hf, he, _⟩ := h.newThread_unused
  ⟨he, hf, h.newThread_notMem_tail, h.newThread_lt⟩

@[simp] theorem coCreate_thread (s : Service) : s.coCreate.thread s.newThread = .created :=
  Function.update_self ..

section

variable (h : WellFormed s)
include h

theorem fork : WellFormed s.fork := by
  obtain ⟨hf, he, hs⟩ := h.newThread_unused
  refine { h.coCreate with forked := fun co hco => ?_, forkQueue_nodup := ?_ }
  · rcases mem_append.1 hco with hco | hco
    · exact h.coCreate.forked co hco
    · obtain rfl := mem_singleton.1 hco
      exact ⟨coCreate_thread s, he⟩
  · exact h.forkQueue_nodup.append (nodup_singleton _) (disjoint_singleton.2 hf)

theorem genid : WellFormed s.genid := { h with }

theorem timeout : WellFormed s.timeout := by
  obtain ⟨hf, he, hs⟩ := h.newThread_unused
  have hc := h.genid.coCreate
  have hth : s.genid.coCreate.thread s.newThread = .created := coCreate_thread s.genid
  have hsic : s.genid.coCreate.sessionIdCoroutine = s.sessionIdCoroutine := rfl
  have hnt : s.genid.newThread = s.newThread := rfl
  by_cases hn : s.sessionIdCoroutine s.newSession = none
  · simp only [Service.timeout, hn, if_pos]
    refine { hc with waiting := ?_, entry_unique := ?_, forked := ?_ }
    · simp only [update_apply]
      grind [hc.waiting]
    · simp only [update_apply]
      grind [h.entry_unique]
    · intro co hco
      refine ⟨(hc.forked co hco).1, fun session hse => ?_⟩
      have hm : co ∈ s.forkQueue := hco
      have := (h.forked co hco).2 session
      simp only [update_apply] at hse
      grind
  · simp only [Service.timeout, hn, if_neg, not_false_iff]
    exact { hc.moved h.genid.detached_coCreate hs (v := .lost) (c := s.control) (by simp)
      (fun co frames hco => by
        have := hc.running co frames hco
        simp only [update_apply]
        grind) with }

theorem startHandler (session source : ℕ) : WellFormed (s.startHandler session source) := by
  refine { h.coCreate with unhandled := fun co hco => ?_ }
  have := h.coCreate.unhandled co hco
  have hne : co ≠ s.newThread := by
    rintro rfl
    have := coCreate_thread s
    simp only [Service.startHandler] at hco
    grind
  simp only [Service.startHandler, update_of_ne hne]
  exact this

theorem detached_startHandler (session source : ℕ) :
    Detached (s.startHandler session source) s.newThread :=
  { h.detached_coCreate with }

end

/-! ### The other actions -/

theorem wakeup (h : WellFormed s) (co : ℕ) : WellFormed (s.wakeup co) := by
  unfold Service.wakeup
  split
  · exact { h with }
  · exact h

/-- A coroutine that runs has answered its request. -/
theorem answered (h : WellFormed s) (hrun : s.thread co = .running) :
    WellFormed { s with sessionResponse := update s.sessionResponse co true } := by
  refine { h with unhandled := fun co' hco' => ?_ }
  have hne : co' ≠ co := by
    rintro rfl
    simp [hrun] at hco'
  simpa [hne] using h.unhandled co' hco'

theorem ret (h : WellFormed s) (hrun : s.thread co = .running) (outcome : Outcome) :
    WellFormed (s.ret co outcome) := by
  have hl := h.lose (h.detached hrun) (h.sleepSession_eq_none co (by simp [hrun]))
  have ha := (h.answered hrun).lose { h.detached hrun with }
    (h.sleepSession_eq_none co (by simp [hrun]))
  unfold Service.ret
  split
  · exact hl
  · split
    · split
      · exact h.answered hrun
      · split
        · exact ha
        · exact { h.answered hrun with }
    · exact ha

theorem newResponse (h : WellFormed s) (hrun : s.thread co = .running) :
    WellFormed (s.newResponse co) := by
  obtain ⟨-, ht⟩ | ⟨-, r, ref, -, -, ht⟩ := newResponse_cases s co
  · rw [ht]
    exact h.lose (h.detached hrun) (h.sleepSession_eq_none co (by simp [hrun]))
  · rw [ht]
    exact { h.answered hrun with }

theorem respond (h : WellFormed s) {answer : Answer} (ht : s.respond k answer = some t) :
    WellFormed t := by
  obtain ⟨watching, sent, unresponse, response, rfl⟩ := respond_frame ht
  exact { h with }

theorem rejectAll (h : WellFormed s) (l : List ℕ) : WellFormed (s.rejectAll l).1 := by
  obtain ⟨watching, sent, unresponse, response, ht⟩ := rejectAll_frame s l
  rw [ht]
  exact { h with }

theorem report (h : WellFormed s) : WellFormed s.report :=
  { h with
    forked := fun _ hco => absurd hco not_mem_nil
    forkQueue_nodup := nodup_nil }

theorem exit (h : WellFormed s) (hrun : s.thread co = .running) {order : List ℕ}
    (ht : s.exit co frames order = .ok t) : WellFormed t := by
  have hw := h.report.rejectAll order
  obtain ⟨watching, sent, unresponse, response, hr⟩ := rejectAll_frame s.report order
  rw [hr] at hw
  obtain rfl | rfl := exit_cases ht
  · rw [hr]
    exact hw
  · rw [hr]
    exact hw.moved (hw.detached hrun) (hw.sleepSession_eq_none co (by simp [Service.report, hrun]))
      (by simp) (fun _ _ hc => (returned_ne_running _ _ _ hc).elim)

theorem errorDispatch (h : WellFormed s) {source : ℕ} {order : List ℕ}
    (ht : s.errorDispatch session source order = .ok t) : WellFormed t := by
  obtain ⟨dead, queue, rfl⟩ := errorDispatch_frame ht
  exact { h with }

/-! ### Every step -/

theorem act (h : WellFormed s) (hrun : s.thread co = .running) {action : Action}
    (ht : s.act co frames action = .ok t) : WellFormed t := by
  have hs := h.sleepSession_eq_none co (by simp [hrun])
  cases action with
  | genid => cases ht; exact h.genid
  | wakeup other => cases ht; exact h.wakeup other
  | fork => cases ht; exact h.fork
  | timeout => cases ht; exact h.timeout
  | sleep => cases ht; exact h.sleep hrun false
  | wait => cases ht; exact h.sleep hrun true
  | call service => cases ht; exact h.call hrun service
  | ret outcome => cases ht; exact h.ret hrun outcome
  | newResponse => cases ht; exact h.newResponse hrun
  | respond k answer =>
    simp only [Service.act] at ht
    split at ht
    · cases ht
      cases hr : s.respond k answer with
      | none => exact h
      | some u => exact h.respond hr
    · cases ht
  | term service order => exact h.errorDispatch ht
  | raise => cases ht; exact h.raise hrun
  | finish => cases ht; exact h.finish (h.detached hrun) hs
  | exit order => exact h.exit hrun ht

theorem clearEntry (h : WellFormed s) (session : ℕ) : WellFormed (s.clearEntry session) :=
  h.clear session (by simp)

/-- A coroutine that is resumed for the entry of a session is in no table once the entry is
taken. -/
theorem detached_entry (h : WellFormed s)
    (he : s.sessionIdCoroutine session = some (.coroutine co)) :
    Detached (s.clearEntry session) co where
  entry := h.clear_entry he
  forked hm := (h.forked co hm).2 session he
  pooled hm := by
    have := h.pooled co hm
    have := h.waiting session co he
    grind
  lt := by
    by_contra hlt
    have := h.absent co (not_lt.1 hlt)
    have := h.waiting session co he
    grind

theorem breakSleep (h : WellFormed s) (co session : ℕ) : WellFormed (s.breakSleep co session) :=
  { h.clear session (w := some .broken) (by simp) with }

theorem detached_sleeping (h : WellFormed s) {untimed : Bool}
    (hco : s.thread co = .sleeping session untimed) : Detached (s.breakSleep co session) co where
  entry session' he := by
    simp only [Service.breakSleep, update_apply] at he
    have := h.waiting session' co
    grind
  forked hm := by
    have := (h.forked co hm).1
    grind
  pooled hm := by
    have := h.pooled co hm
    grind
  lt := by
    by_contra hlt
    have := h.absent co (not_lt.1 hlt)
    grind

theorem detached_forked (h : WellFormed s) (hm : co ∈ s.forkQueue) :
    Detached { s with forkQueue := s.forkQueue.erase co } co where
  entry := (h.forked co hm).2
  forked := h.forkQueue_nodup.not_mem_erase
  pooled hp := by
    have := h.pooled co hp
    have := h.forked co hm
    grind
  lt := by
    by_contra hlt
    have := h.absent co (not_lt.1 hlt)
    have := h.forked co hm
    grind

theorem rawDispatchMessage (h : WellFormed s) {message : Incoming}
    (ht : s.rawDispatchMessage message = .ok t) : WellFormed t := by
  cases message with
  | response session =>
    simp only [Service.rawDispatchMessage] at ht
    split at ht
    next co he => exact (h.clearEntry session).resume (h.detached_entry he) ht
    · cases ht
      exact { h.clearEntry session with running := by simp }
    · cases ht
      exact { h with running := by simp }
  | unknown session source =>
    cases ht
    exact { h with running := by simp }
  | undispatched session source =>
    cases ht
    exact { h with running := by simp }
  | request session source unpacks =>
    have hw := h.startHandler session source
    have hd := h.detached_startHandler session source
    simp only [Service.rawDispatchMessage] at ht
    split at ht
    · exact hw.resume hd ht
    · cases ht
      exact hw.lose hd h.newThread_unused.2.2
  | error session source order =>
    simp only [Service.rawDispatchMessage] at ht
    split at ht
    next u hu =>
      cases ht
      have hw := (h.startHandler session source).errorDispatch hu
      obtain ⟨dead, queue, rfl⟩ := errorDispatch_frame hu
      exact hw.finish { h.detached_startHandler session source with } h.newThread_unused.2.2
    · cases ht

theorem dispatchWakeup (h : WellFormed s) (ht : s.dispatchWakeup co frames = .ok t) :
    WellFormed t := by
  unfold Service.dispatchWakeup at ht
  split at ht
  · cases ht
    exact { h with running := by simp }
  · split at ht
    · split at ht
      next session hs =>
        obtain ⟨untimed, hco⟩ := (h.sleeping co session).1 hs
        exact (h.breakSleep co session).resume (h.detached_sleeping hco) ht
      · cases ht
        exact { h with running := by simp }
    · cases ht

theorem dispatchErrorQueue (h : WellFormed s) (ht : s.dispatchErrorQueue frames = .ok t) :
    WellFormed t := by
  unfold Service.dispatchErrorQueue at ht
  split at ht
  · cases ht
    exact { h with running := fun _ _ hr => (returned_ne_running _ _ _ hr).elim }
  next session queue hq =>
    split at ht
    next co he =>
      have hw : WellFormed ({ s with errorQueue := queue }.clearEntry session) :=
        { h.clearEntry session with }
      exact hw.resume { h.detached_entry he with } ht
    · cases ht
      exact { h.clearEntry session with running := by simp }

theorem dispatchFork (h : WellFormed s) (ht : s.dispatchFork co = .ok t) : WellFormed t := by
  unfold Service.dispatchFork at ht
  split at ht
  · cases ht
    exact { h with running := by simp }
  · split at ht
    next hm =>
      have hw : WellFormed { s with forkQueue := s.forkQueue.erase co } :=
        { h with
          forked := fun co' hco' => h.forked co' (mem_of_mem_erase hco')
          forkQueue_nodup := h.forkQueue_nodup.erase co }
      exact hw.resume (h.detached_forked hm) ht
    · cases ht

theorem next (h : WellFormed s) (ht : s.next co = .ok t) : WellFormed t := by
  unfold Service.next at ht
  split at ht
  · exact h.dispatchWakeup ht
  · exact h.dispatchErrorQueue ht
  · exact h.dispatchFork ht
  · cases ht

theorem step (h : WellFormed s) {event : Event} (ht : s.step event = .ok t) : WellFormed t := by
  cases event with
  | receive message =>
    simp only [Service.step] at ht
    split at ht
    · exact h.rawDispatchMessage ht
    · cases ht
  | next co => exact h.next ht
  | act action =>
    simp only [Service.step] at ht
    split at ht
    next co frames hc => exact h.act (h.running co frames hc) ht
    · cases ht

end WellFormed

end Mtask.Lualib.Scheduler
