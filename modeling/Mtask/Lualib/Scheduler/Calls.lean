import Mtask.Lualib.Scheduler.WellFormed

/-!
# The end of a call

A coroutine in `mtask.call` waits for the response of its session. An error message, or the end of
the service it calls, puts the session into `error_queue`, and the end of `suspend` resumes the
coroutines of that queue, which then fail. An error leaves `suspend` before that: the sessions that
are still in the queue stay there when the message is done with, and a session that is answered
meanwhile is resumed a second time, with nothing to resume. If errors reach the dispatcher only
while the queue is empty, or a fork is still to come, every call ends once.
-/

namespace Mtask.Lualib.Scheduler

open Service List
open Function (update update_apply)

variable {s t u : Service} {co frames session : ℕ}

/-- Every call has ended as often as it has begun, unless it is pending: then it is watched, its
coroutine waits in it, and the entry of the session is that coroutine. A response ends the call it
is for. The sessions of `error_queue` belong to pending calls, and none is left there between two
messages. -/
structure CallsSettled (s : Service) : Prop where
  once : ∀ session, s.called.count session =
    (s.ended.map Prod.fst).count session + if session ∈ s.watchingSession then 1 else 0
  own : ∀ call ∈ s.ended, ∀ message ∈ call.2, message = call.1
  watched : ∀ session, session ∈ s.watchingSession ↔ ∃ co, s.thread co = .calling session
  entry : ∀ co session, s.thread co = .calling session →
    s.sessionIdCoroutine session = some (.coroutine co)
  queued : ∀ session ∈ s.errorQueue, ∃ co, s.thread co = .calling session
  drained : s.control = .idle → s.errorQueue = []

/-- An error that reaches the dispatcher finds no session in `error_queue`, or a fork is still to be
run; the service is left with an empty queue, or inside another frame. The sessions that
`mtask.term` finds are not queued yet, and a session that the context gives is not in use. -/
def CallsServed (s : Service) : Event → Prop
  | .act action => ∀ co frames, s.control = .running co frames →
    (s.Fails co action → s.errorQueue = [] ∨ s.forkQueue ≠ []) ∧
    (∀ order, action = .exit order → s.errorQueue = [] ∨ 0 < frames) ∧
    (∀ service order, action = .term service order → ∀ session ∈ order, session ∉ s.errorQueue) ∧
    (action = .sleep ∨ action = .wait ∨ (∃ service, action = .call service) →
      s.sessionIdCoroutine s.newSession = none)
  | _ => True

/-- The calls that are pending, apart from the place of the dispatcher. -/
structure Calls (s : Service) : Prop where
  once : ∀ session, s.called.count session =
    (s.ended.map Prod.fst).count session + if session ∈ s.watchingSession then 1 else 0
  own : ∀ call ∈ s.ended, ∀ message ∈ call.2, message = call.1
  watched : ∀ session ∈ s.watchingSession, ∃ co, s.thread co = .calling session
  calling : ∀ co session, s.thread co = .calling session →
    session ∈ s.watchingSession ∧ s.sessionIdCoroutine session = some (.coroutine co)
  sleeping : ∀ co session untimed, s.thread co = .sleeping session untimed →
    s.sessionIdCoroutine session = some (.coroutine co)
  queued : ∀ session ∈ s.errorQueue, session ∈ s.watchingSession
  queue_nodup : s.errorQueue.Nodup

variable {message : Option ℕ} {action : Action}

namespace Calls

theorem start (lastSession : ℕ) : Calls (Service.start lastSession) where
  once session := by simp [Service.start]
  own call hc := absurd hc not_mem_nil
  watched session hs := absurd hs (AList.notMem_empty session)
  calling co session h := by
    simp only [Service.start, update_apply] at h
    grind
  sleeping co session untimed h := by
    simp only [Service.start, update_apply] at h
    grind
  queued session hs := absurd hs not_mem_nil
  queue_nodup := nodup_nil

/-- Nobody waits in this thread. -/
def Free (v : Thread) : Prop :=
  (∀ session, v ≠ .calling session) ∧ ∀ session untimed, v ≠ .sleeping session untimed

/-- A coroutine that waits for nothing goes on to something else. -/
theorem moved (h : Calls s) (co : ℕ) (v : Thread) (hs : Free (s.thread co)) (hv : Free v) :
    Calls { s with thread := update s.thread co v } := by
  obtain ⟨hs1, hs2⟩ := hs
  obtain ⟨hv1, hv2⟩ := hv
  refine { h with watched := fun session hm => ?_, calling := ?_, sleeping := ?_ }
  · obtain ⟨co', hco'⟩ := h.watched session hm
    have hne : co' ≠ co := by
      rintro rfl
      exact hs1 session hco'
    exact ⟨co', by simpa [hne] using hco'⟩
  · simp only [update_apply]
    grind [h.calling]
  · simp only [update_apply]
    grind [h.sleeping]

theorem setEntry (h : Calls s) (session : ℕ)
    (hse : ∀ co, s.sessionIdCoroutine session = some (.coroutine co) → Free (s.thread co))
    (v : Option Waiter) :
    Calls { s with sessionIdCoroutine := update s.sessionIdCoroutine session v } := by
  refine { h with calling := fun co session' hco => ?_, sleeping := fun co session' u hco => ?_ }
  · obtain ⟨hw, he⟩ := h.calling co session' hco
    have hne : session' ≠ session := by
      rintro rfl
      exact (hse co he).1 session' hco
    exact ⟨hw, by simpa [hne] using he⟩
  · have he := h.sleeping co session' u hco
    have hne : session' ≠ session := by
      rintro rfl
      exact (hse co he).2 session' u hco
    simpa [hne] using he

/-- A coroutine that waits for a session is resumed, once the entry of the session has been taken or
marked. -/
theorem resume_waiting (h : Calls s)
    (hco : s.thread co = .calling session ∨ ∃ untimed, s.thread co = .sleeping session untimed)
    {v : Option Waiter} (ht : u.resume co frames message = .ok t) (hm' : ∀ m ∈ message, m = session)
    (hth : u.thread = s.thread) (hwatch : u.watchingSession = s.watchingSession)
    (hsic : u.sessionIdCoroutine = update s.sessionIdCoroutine session v)
    (hcalled : u.called = s.called) (hended : u.ended = s.ended)
    (hq : List.Sublist u.errorQueue s.errorQueue) (hnot : session ∉ u.errorQueue) : Calls t := by
  have hfree : ∀ co' session', s.thread co' = .calling session' →
      co' ≠ co → session' ≠ session := by
    rintro co' session' hca hne rfl
    have := (h.calling co' session' hca).2
    rcases hco with hco | ⟨untimed, hco⟩
    · have := (h.calling co session' hco).2
      grind
    · have := h.sleeping co session' untimed hco
      grind
  have hfree' : ∀ co' session' untimed, s.thread co' = .sleeping session' untimed →
      co' ≠ co → session' ≠ session := by
    rintro co' session' untimed hsl hne rfl
    have := h.sleeping co' session' untimed hsl
    rcases hco with hco | ⟨untimed, hco⟩
    · have := (h.calling co session' hco).2
      grind
    · have := h.sleeping co session' untimed hco
      grind
  obtain ⟨hc, -⟩ | ⟨session', untimed, hc, rfl⟩ | ⟨session', hc, rfl⟩ := resume_cases ht
  · rw [hth] at hc
    grind
  · rw [hth] at hc
    have hse : session' = session := by grind
    subst hse
    constructor
    all_goals simp only [hth, hwatch, hcalled, hended, hsic]
    · exact h.once
    · exact h.own
    · intro session hm
      obtain ⟨co', hco'⟩ := h.watched session hm
      exact ⟨co', by grind⟩
    · simp only [update_apply]
      grind [h.calling]
    · simp only [update_apply]
      grind [h.sleeping]
    · exact fun session hm => h.queued session (hq.subset hm)
    · exact hq.nodup h.queue_nodup
  · rw [hth] at hc
    have hse : session' = session := by grind
    subst hse
    have hw := (h.calling co session' hc).1
    constructor
    all_goals simp only [hth, hwatch, hcalled, hended, hsic, AList.mem_erase]
    · intro session
      have := h.once session
      simp only [map_append, count_append, map_singleton, count_singleton]
      grind
    · intro call hm
      rcases mem_append.1 hm with hm | hm
      · exact h.own call hm
      · rw [mem_singleton.1 hm]
        exact hm'
    · rintro session ⟨hne, hm⟩
      obtain ⟨co', hco'⟩ := h.watched session hm
      exact ⟨co', by grind⟩
    · simp only [update_apply]
      grind [h.calling]
    · simp only [update_apply]
      grind [h.sleeping]
    · exact fun session hm => ⟨fun he => hnot (he ▸ hm), h.queued session (hq.subset hm)⟩
    · exact hq.nodup h.queue_nodup

/-- A coroutine that has not been started is resumed. -/
theorem resume_created (h : Calls s) (hco : s.thread co = .created)
    (ht : s.resume co frames message = .ok t) : Calls t := by
  obtain ⟨-, rfl⟩ | ⟨session, untimed, hc, -⟩ | ⟨session, hc, -⟩ := resume_cases ht
  · exact { h.moved co .running (by simp [Free, hco]) (by simp [Free]) with }
  · simp [hco] at hc
  · simp [hco] at hc

/-! ### What a coroutine yields -/

section

variable (h : Calls s) (hrun : s.thread co = .running)
  (hnew : s.sessionIdCoroutine s.newSession = none)
include h hrun hnew

theorem call (service : ℕ) : Calls (s.call co frames service) := by
  have hnot : s.newSession ∉ s.watchingSession := fun hm => by
    obtain ⟨co', hco'⟩ := h.watched _ hm
    have := (h.calling co' _ hco').2
    grind
  constructor
  all_goals simp only [Service.call, Service.genid, AList.mem_insert]
  · intro session
    have := h.once session
    simp only [count_append, count_singleton]
    grind
  · exact h.own
  · simp only [update_apply]
    grind [h.watched]
  · simp only [update_apply]
    grind [h.calling]
  · simp only [update_apply]
    grind [h.sleeping]
  · exact fun session hm => .inr (h.queued session hm)
  · exact h.queue_nodup

theorem sleep (untimed : Bool) : Calls (s.sleep co frames untimed) := by
  constructor
  all_goals simp only [Service.sleep, Service.genid]
  · exact h.once
  · exact h.own
  · simp only [update_apply]
    grind [h.watched]
  · simp only [update_apply]
    grind [h.calling]
  · simp only [update_apply]
    grind [h.sleeping]
  · exact h.queued
  · exact h.queue_nodup

end

theorem lose (h : Calls s) (hs : Free (s.thread co)) : Calls (s.lose co) :=
  { h.moved co .lost hs (by simp [Free]) with }

theorem coCreate (h : Calls s) (hw : WellFormed s) : Calls s.coCreate :=
  { h.moved s.newThread .created (by
      have := hw.newThread_cases
      constructor <;> grind) (by simp [Free]) with }

theorem timeout (h : Calls s) (hw : WellFormed s) : Calls s.timeout := by
  have hg : Calls s.genid := { h with }
  have hc := hg.coCreate hw.genid
  unfold Service.timeout
  by_cases hn : s.sessionIdCoroutine s.newSession = none
  · simp only [hn, if_pos]
    exact { hc.setEntry s.newSession (fun co he => by
      have : s.sessionIdCoroutine s.newSession = some (.coroutine co) := he
      simp [hn] at this) _ with }
  · simp only [hn, if_neg, not_false_iff]
    have hth : s.genid.coCreate.thread s.newThread = .created := WellFormed.coCreate_thread _
    exact { hc.moved s.newThread .lost (by simp [Free, hth]) (by simp [Free]) with }

theorem errorDispatch (h : Calls s) {source : ℕ} {order : List ℕ}
    (hq : ∀ queued ∈ s.errorQueue,
      (session = 0 → queued ∉ order) ∧ (session ≠ 0 → queued ≠ session))
    (ht : s.errorDispatch session source order = .ok t) : Calls t := by
  unfold Service.errorDispatch at ht
  split at ht
  next h0 =>
    split at ht
    next hperm =>
      cases ht
      have hsub : List.Sublist ((s.watchingSession.entries.filter (·.2 = source)).map (·.1))
          s.watchingSession.keys := filter_sublist.map _
      refine { h with queued := fun session hm => ?_, queue_nodup := ?_ }
      · rcases mem_append.1 hm with hm | hm
        · exact h.queued session hm
        · exact AList.mem_keys.2 (hsub.subset (hperm.mem_iff.1 hm))
      · refine h.queue_nodup.append (hperm.nodup_iff.2 (hsub.nodup s.watchingSession.keys_nodup)) ?_
        exact fun session hm => (hq session hm).1 h0
    next => cases ht
  next h0 =>
    split at ht
    next hm =>
      cases ht
      refine { h with queued := fun queued hqu => ?_, queue_nodup := ?_ }
      · rcases mem_append.1 hqu with hqu | hqu
        · exact h.queued queued hqu
        · rw [mem_singleton.1 hqu]
          exact AList.lookup_isSome.1 hm
      · exact h.queue_nodup.append (nodup_singleton _)
          (disjoint_singleton.2 fun hqu => (hq session hqu).2 h0 rfl)
    next =>
      cases ht
      exact h

theorem act (h : Calls s) (hw : WellFormed s) (hc : s.control = .running co frames)
    (hok : CallsServed s (.act action)) (ht : s.act co frames action = .ok t) : Calls t := by
  have hrun := hw.running co frames hc
  have hfree : Free (s.thread co) := by simp [Free, hrun]
  obtain ⟨-, -, hterm, hnew⟩ := hok co frames hc
  cases action with
  | wakeup other =>
    cases ht
    unfold Service.wakeup
    split
    · exact { h with }
    · exact h
  | sleep => cases ht; exact h.sleep hrun (hnew (.inl rfl)) false
  | wait => cases ht; exact h.sleep hrun (hnew (.inr (.inl rfl))) true
  | genid => cases ht; exact { h with }
  | fork => cases ht; exact { h.coCreate hw with }
  | timeout => cases ht; exact h.timeout hw
  | call service => cases ht; exact h.call hrun (hnew (.inr (.inr ⟨service, rfl⟩))) service
  | raise => cases ht; exact { h.moved co .dead hfree (by simp [Free]) with }
  | finish => cases ht; exact { h.moved co .pooled hfree (by simp [Free]) with }
  | ret outcome =>
    cases ht
    obtain ⟨-, answered, -, ht⟩ | ⟨-, r, sent, -, -, ht⟩ := ret_cases s co outcome
    · rw [ht]
      exact { h.lose hfree with }
    · rw [ht]
      exact { h with }
  | newResponse =>
    cases ht
    obtain ⟨-, ht⟩ | ⟨-, r, ref, -, -, ht⟩ := newResponse_cases s co
    · rw [ht]
      exact h.lose hfree
    · rw [ht]
      exact { h with }
  | respond k answer =>
    simp only [Service.act] at ht
    split at ht
    · cases ht
      cases hr : s.respond k answer with
      | none => exact h
      | some u =>
        obtain ⟨watching, sent, unresponse, response, rfl⟩ := respond_frame hr
        exact { h with }
    · cases ht
  | term service order =>
    exact h.errorDispatch (fun queued hqu =>
      ⟨fun _ ho => hterm service order rfl queued ho hqu, fun h0 => absurd rfl h0⟩) ht
  | exit order =>
    obtain ⟨watching, sent, unresponse, response, hr⟩ := rejectAll_frame s.report order
    have hreport : Calls (s.report.rejectAll order).1 := by
      rw [hr]
      exact { h with }
    obtain rfl | rfl := exit_cases ht
    · exact hreport
    · refine { hreport.moved co .quit ?_ (by simp [Free]) with }
      rw [hr]
      exact hfree

end Calls

/-- Where no session is left in `error_queue`. -/
def Emptied (s : Service) : Prop :=
  match s.control with
  | .idle => s.errorQueue = []
  | .forks => s.errorQueue = [] ∨ s.forkQueue ≠ []
  | .running _ _ | .wakeup _ | .errorQueue _ => True

namespace Emptied

theorem of_running (h : s.control = .running co frames) : Emptied s := by
  simp [Emptied, h]

theorem resume (ht : s.resume co frames message = .ok t) : Emptied t := by
  obtain ⟨-, rfl⟩ | ⟨session, untimed, -, rfl⟩ | ⟨session, -, rfl⟩ := resume_cases ht
  all_goals exact of_running rfl

theorem act (hrun : s.control = .running co frames) (hok : CallsServed s (.act action))
    (ht : s.act co frames action = .ok t) : Emptied t := by
  obtain ⟨hfail, hexit, -, -⟩ := hok co frames hrun
  cases action with
  | wakeup other =>
    cases ht
    have hc : (s.wakeup other).control = .running co frames := by
      unfold Service.wakeup
      split <;> exact hrun
    exact of_running hc
  | sleep => cases ht; trivial
  | wait => cases ht; trivial
  | genid => cases ht; exact of_running hrun
  | fork => cases ht; exact of_running hrun
  | timeout => cases ht; exact of_running hrun
  | call service => cases ht; trivial
  | raise => cases ht; exact hfail trivial
  | finish => cases ht; trivial
  | ret outcome =>
    cases ht
    obtain ⟨hf, answered, -, ht⟩ | ⟨-, r, sent, -, -, ht⟩ := ret_cases s co outcome
    · rw [ht]
      exact hfail hf
    · rw [ht]
      exact of_running hrun
  | newResponse =>
    cases ht
    obtain ⟨hf, ht⟩ | ⟨-, r, ref, -, -, ht⟩ := newResponse_cases s co
    · rw [ht]
      exact hfail hf
    · rw [ht]
      exact of_running hrun
  | respond k answer =>
    simp only [Service.act] at ht
    split at ht
    · cases ht
      cases hr : s.respond k answer with
      | none => exact of_running hrun
      | some u =>
        obtain ⟨watching, sent, unresponse, response, rfl⟩ := respond_frame hr
        exact of_running hrun
    · cases ht
  | term service order =>
    obtain ⟨dead, queue, rfl⟩ := errorDispatch_frame ht
    exact of_running hrun
  | exit order =>
    obtain ⟨watching, sent, unresponse, response, hr⟩ := rejectAll_frame s.report order
    obtain rfl | rfl := exit_cases ht
    · rw [hr]
      exact of_running hrun
    · rw [hr]
      cases frames with
      | zero => exact .inl ((hexit order rfl).resolve_right (lt_irrefl 0))
      | succ frames => trivial

end Emptied

/-- What every step keeps, as long as errors find no session queued. -/
structure Answered (s : Service) : Prop where
  wellFormed : WellFormed s
  calls : Calls s
  emptied : Emptied s

namespace Answered

section

variable (h : Answered s)
include h

theorem rawDispatchMessage (hidle : s.control = .idle) {message : Incoming}
    (ht : s.rawDispatchMessage message = .ok t) : Answered t := by
  have hnil : s.errorQueue = [] := by simpa [Emptied, hidle] using h.emptied
  have hw := h.wellFormed.rawDispatchMessage ht
  cases message with
  | response session =>
    simp only [Service.rawDispatchMessage] at ht
    split at ht
    next co he =>
      refine ⟨hw, ?_, .resume ht⟩
      rcases h.wellFormed.waiting session co he with hc | hc | hc
      · have hclear : Calls (s.clearEntry session) := h.calls.setEntry session (fun co' he' => by
          obtain rfl : co' = co := by grind
          simp [Calls.Free, hc]) none
        exact hclear.resume_created hc ht
      · exact h.calls.resume_waiting (.inr hc) ht (by simp) rfl rfl rfl rfl rfl
          (List.Sublist.refl _) (by simp [Service.clearEntry, hnil])
      · exact h.calls.resume_waiting (.inl hc) ht (by simp) rfl rfl rfl rfl rfl
          (List.Sublist.refl _) (by simp [Service.clearEntry, hnil])
    next he =>
      cases ht
      exact ⟨hw, { h.calls.setEntry session (by simp [he]) none with }, .inl hnil⟩
    next =>
      cases ht
      exact ⟨hw, { h.calls with }, .inl hnil⟩
  | unknown session source =>
    cases ht
    exact ⟨hw, { h.calls with }, .inl hnil⟩
  | undispatched session source =>
    cases ht
    exact ⟨hw, { h.calls with }, .inl hnil⟩
  | request session source unpacks =>
    have hp : Calls (s.startHandler session source) := { h.calls.coCreate h.wellFormed with }
    have hth : (s.startHandler session source).thread s.newThread = .created :=
      WellFormed.coCreate_thread s
    simp only [Service.rawDispatchMessage] at ht
    split at ht
    · exact ⟨hw, hp.resume_created hth ht, .resume ht⟩
    · cases ht
      exact ⟨hw, hp.lose (by simp [Calls.Free, hth]), .inl hnil⟩
  | error session source order =>
    have hp : Calls (s.startHandler session source) := { h.calls.coCreate h.wellFormed with }
    have hth : (s.startHandler session source).thread s.newThread = .created :=
      WellFormed.coCreate_thread s
    simp only [Service.rawDispatchMessage] at ht
    split at ht
    next u hu =>
      cases ht
      have hq := hp.errorDispatch (by simp [Service.startHandler, Service.coCreate, hnil]) hu
      obtain ⟨dead, queue, rfl⟩ := errorDispatch_frame hu
      exact ⟨hw, { hq.moved s.newThread .pooled (by simp [Calls.Free, hth])
        (by simp [Calls.Free]) with }, trivial⟩
    next => cases ht

theorem dispatchWakeup (ht : s.dispatchWakeup co frames = .ok t) : Answered t := by
  have hw := h.wellFormed.dispatchWakeup ht
  unfold Service.dispatchWakeup at ht
  split at ht
  next =>
    cases ht
    exact ⟨hw, { h.calls with }, trivial⟩
  next =>
    split at ht
    next hm =>
      split at ht
      next session hs =>
        have hco := (h.wellFormed.sleeping co session).1 hs
        have hnot : session ∉ s.errorQueue := fun hq => by
          obtain ⟨co', hco'⟩ := h.calls.watched session (h.calls.queued session hq)
          have := (h.calls.calling co' session hco').2
          obtain ⟨untimed, hco⟩ := hco
          have := h.calls.sleeping co session untimed hco
          grind
        exact ⟨hw, h.calls.resume_waiting (.inr hco) ht (by simp) rfl rfl rfl rfl rfl
          (List.Sublist.refl _) hnot, .resume ht⟩
      next =>
        cases ht
        exact ⟨hw, { h.calls with }, trivial⟩
    next => cases ht

theorem dispatchErrorQueue (ht : s.dispatchErrorQueue frames = .ok t) : Answered t := by
  have hw := h.wellFormed.dispatchErrorQueue ht
  unfold Service.dispatchErrorQueue at ht
  split at ht
  next hnil =>
    cases ht
    refine ⟨hw, { h.calls with }, ?_⟩
    cases frames with
    | zero => exact .inl hnil
    | succ frames => trivial
  next session queue hq =>
    have hnd := h.calls.queue_nodup
    rw [hq] at hnd
    -- the coroutine of a queued session is there to be resumed
    obtain ⟨co', hco'⟩ := h.calls.watched session (h.calls.queued session (by simp [hq]))
    have he' := (h.calls.calling co' session hco').2
    split at ht
    next co he =>
      obtain rfl : co' = co := by grind
      exact ⟨hw, h.calls.resume_waiting (.inl hco') ht (by simp) rfl rfl rfl rfl rfl
        (by rw [hq]; exact sublist_cons_self ..) (nodup_cons.1 hnd).1, .resume ht⟩
    next hne => exact absurd he' (hne co')

theorem dispatchFork (hc : s.control = .forks) (ht : s.dispatchFork co = .ok t) : Answered t := by
  have hd : s.errorQueue = [] ∨ s.forkQueue ≠ [] := by simpa [Emptied, hc] using h.emptied
  have hw := h.wellFormed.dispatchFork ht
  unfold Service.dispatchFork at ht
  split at ht
  next hnil =>
    cases ht
    exact ⟨hw, { h.calls with }, hd.resolve_right (not_not.2 hnil)⟩
  next =>
    split at ht
    next hm =>
      have hp : Calls { s with forkQueue := s.forkQueue.erase co } := { h.calls with }
      exact ⟨hw, hp.resume_created (h.wellFormed.forked co hm).1 ht, .resume ht⟩
    next => cases ht

theorem step {event : Event} (hok : CallsServed s event) (ht : s.step event = .ok t) :
    Answered t := by
  cases event with
  | receive message =>
    simp only [Service.step] at ht
    split at ht
    next hidle => exact h.rawDispatchMessage hidle ht
    next => cases ht
  | next co =>
    simp only [Service.step, Service.next] at ht
    split at ht
    next => exact h.dispatchWakeup ht
    next => exact h.dispatchErrorQueue ht
    next hc => exact h.dispatchFork hc ht
    next => cases ht
  | act action =>
    have hw := h.wellFormed.step ht
    simp only [Service.step] at ht
    split at ht
    next co frames hc =>
      exact ⟨hw, h.calls.act h.wellFormed hc hok ht, .act hc hok ht⟩
    next => cases ht

theorem callsSettled : CallsSettled s where
  once := h.calls.once
  own := h.calls.own
  watched session := ⟨h.calls.watched session, fun ⟨co, hco⟩ => (h.calls.calling co session hco).1⟩
  entry co session hco := (h.calls.calling co session hco).2
  queued session hq := h.calls.watched session (h.calls.queued session hq)
  drained hidle := by simpa [Emptied, hidle] using h.emptied

end

end Answered

end Mtask.Lualib.Scheduler
