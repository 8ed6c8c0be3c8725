import Mtask.Lualib.Scheduler.WellFormed

/-!
# Wake-ups

`mtask.wakeup` puts a sleeping coroutine into `wakeup_session`, and the end of `suspend` resumes the
coroutines found there. An error leaves `suspend` before that: a coroutine that has been woken then
stays in the table and goes on sleeping, and when it has been resumed by its timer, the entry cuts
its next sleep short. If errors reach the dispatcher only while no wake-up is pending, or a fork is
still to come, every wake-up ends the sleep it was for before the message is done with.

A sleep is a coroutine with a number, how often it has gone to sleep before and up to then.
-/

namespace Mtask.Lualib.Scheduler

open Service List

variable {s t : Service} {co frames session : ℕ}

/-- Every wake-up that succeeded has ended the sleep it was for, or is pending while the coroutine
is still in that sleep; none is pending between two messages. No other sleep has been ended. -/
structure WakeupsExact (s : Service) : Prop where
  ends : ∀ sleep ∈ s.woken, sleep ∈ s.broken ∨
    (sleep.1 ∈ s.wakeupSession ∧ (∃ session untimed, s.thread sleep.1 = .sleeping session untimed) ∧
      s.sleeps sleep.1 = sleep.2)
  delivered : s.control = .idle → s.woken.Perm s.broken
  caused : ∀ sleep ∈ s.broken, sleep ∈ s.woken
  woken_nodup : s.woken.Nodup
  broken_nodup : s.broken.Nodup

/-- An error that reaches the dispatcher finds no wake-up pending, or a fork is still to be run; the
service is left with no wake-up pending. -/
def WakeupsServed (s : Service) : Event → Prop
  | .act action =>
    (∀ co frames, s.control = .running co frames → s.Fails co action →
      s.wakeupSession = [] ∨ s.forkQueue ≠ []) ∧
    ((∃ order, action = .exit order) → s.wakeupSession = [])
  | _ => True

/-- Where the pending wake-ups have been dealt with. -/
def Drained (s : Service) : Prop :=
  match s.control with
  | .idle | .errorQueue _ => s.wakeupSession = []
  | .forks => s.wakeupSession = [] ∨ s.forkQueue ≠ []
  | .running _ _ | .wakeup _ => True

/-- The pending wake-ups are those that have not ended their sleep, each of a coroutine that is
still in it. -/
structure Pending (s : Service) : Prop where
  perm : s.woken.Perm (s.broken ++ s.wakeupSession.map fun co => (co, s.sleeps co))
  asleep : ∀ co ∈ s.wakeupSession, s.sleepSession co ≠ none
  nodup : s.woken.Nodup
  begun : ∀ sleep ∈ s.broken, sleep.2 ≤ s.sleeps sleep.1
  unbroken : ∀ co, s.sleepSession co ≠ none → (co, s.sleeps co) ∉ s.broken

variable {message : Option ℕ} {action : Action}

namespace Pending

theorem wakeupSession_nodup (h : Pending s) : s.wakeupSession.Nodup :=
  ((nodup_append.1 (h.perm.nodup h.nodup)).2.1).of_map _

theorem resume (h : Pending s) (hco : co ∉ s.wakeupSession)
    (ht : s.resume co frames message = .ok t) : Pending t := by
  obtain ⟨-, rfl⟩ | ⟨session, untimed, -, rfl⟩ | ⟨session, -, rfl⟩ := resume_cases ht
  · exact { h with }
  · refine { h with asleep := fun co' hco' => ?_, unbroken := fun co' hco' => ?_ }
    · simp only [Function.update_of_ne (ne_of_mem_of_not_mem hco' hco)]
      exact h.asleep co' hco'
    · refine h.unbroken co' fun hn => hco' ?_
      simp only [Function.update_apply]
      split
      · rfl
      · exact hn
  · exact { h with }

theorem sleep (h : Pending s) (hco : s.sleepSession co = none) (untimed : Bool) :
    Pending (s.sleep co frames untimed) := by
  have hnot : co ∉ s.wakeupSession := fun hm => h.asleep co hm hco
  have hmap : (s.wakeupSession.map fun co' => (co', (s.sleep co frames untimed).sleeps co')) =
      s.wakeupSession.map fun co' => (co', s.sleeps co') := by
    refine map_congr_left fun co' hco' => ?_
    simp only [Service.sleep, Function.update_of_ne (ne_of_mem_of_not_mem hco' hnot)]
  constructor
  · rw [show (s.sleep co frames untimed).wakeupSession = s.wakeupSession from rfl, hmap]
    exact h.perm
  · intro co' hco'
    simp only [Service.sleep, Function.update_of_ne (ne_of_mem_of_not_mem hco' hnot)]
    exact h.asleep co' hco'
  · exact h.nodup
  · intro sleep hm
    have := h.begun sleep hm
    simp only [Service.sleep, Function.update_apply]
    grind
  · intro co' hco' hm
    simp only [Service.sleep, Service.genid, Function.update_apply] at hco' hm
    by_cases hc : co' = co
    · subst hc
      have : s.sleeps co' + 1 ≤ s.sleeps co' := h.begun _ (by simpa using hm)
      omega
    · exact h.unbroken co' (by simpa [hc] using hco') (by simpa [hc] using hm)

theorem wakeup (h : Pending s) (co : ℕ) : Pending (s.wakeup co) := by
  unfold Service.wakeup
  split
  next hs =>
    have hnew : (co, s.sleeps co) ∉ s.woken := fun hm => by
      rcases mem_append.1 (h.perm.mem_iff.1 hm) with hm | hm
      · exact h.unbroken co hs.1 hm
      · obtain ⟨co', hco', he⟩ := mem_map.1 hm
        obtain rfl : co' = co := congrArg Prod.fst he
        exact hs.2 hco'
    refine { h with perm := ?_, asleep := fun co' hco' => ?_, nodup := ?_ }
    · rw [map_append, map_singleton, ← append_assoc]
      exact h.perm.append_right _
    · rcases mem_append.1 hco' with hco' | hco'
      · exact h.asleep co' hco'
      · rw [mem_singleton.1 hco']
        exact hs.1
    · exact h.nodup.append (nodup_singleton _) (disjoint_singleton.2 hnew)
  next => exact h

/-- A pending wake-up is taken, and ends the sleep. -/
theorem breakSleep (h : Pending s) (hm : co ∈ s.wakeupSession) (session : ℕ)
    (ht : (s.breakSleep co session).resume co frames message = .ok t)
    (hth : ∃ untimed, s.thread co = .sleeping session untimed) : Pending t := by
  have hnd := h.wakeupSession_nodup
  have hperm : s.woken.Perm ((s.broken ++ [(co, s.sleeps co)]) ++
      (s.wakeupSession.erase co).map fun co' => (co', s.sleeps co')) := by
    refine h.perm.trans ?_
    rw [append_assoc]
    exact ((perm_cons_erase hm).map _).append_left _
  have hasleep : ∀ co' ∈ s.wakeupSession.erase co, s.sleepSession co' ≠ none := fun co' hco' =>
    h.asleep co' (mem_of_mem_erase hco')
  obtain ⟨untimed, hth⟩ := hth
  obtain ⟨hc, -⟩ | ⟨session', untimed', -, rfl⟩ | ⟨session', hc, -⟩ := resume_cases ht
  · simp [Service.breakSleep, hth] at hc
  · refine ⟨hperm, fun co' hco' => ?_, h.nodup, fun sleep hs => ?_, fun co' hco' hs => ?_⟩
    · have hne : co' ≠ co := ne_of_mem_of_not_mem hco' hnd.not_mem_erase
      simp only [Service.breakSleep, Function.update_of_ne hne]
      exact hasleep co' hco'
    · rcases mem_append.1 hs with hs | hs
      · exact h.begun sleep hs
      · rw [mem_singleton.1 hs]
        exact le_refl _
    · have hne : co' ≠ co := by
        rintro rfl
        simp at hco'
      rcases mem_append.1 hs with hs | hs
      · exact h.unbroken co' (by simpa [hne, Service.breakSleep] using hco') hs
      · exact hne (congrArg Prod.fst (mem_singleton.1 hs))
  · simp [Service.breakSleep, hth] at hc

theorem start (lastSession : ℕ) : Pending (Service.start lastSession) where
  perm := List.Perm.refl _
  asleep _ hco := absurd hco not_mem_nil
  nodup := nodup_nil
  begun _ hs := absurd hs not_mem_nil
  unbroken _ hco := absurd rfl hco

theorem act (h : Pending s) (hco : s.sleepSession co = none) (ht : s.act co frames action = .ok t) :
    Pending t := by
  cases action with
  | wakeup other => cases ht; exact h.wakeup other
  | sleep => cases ht; exact h.sleep hco false
  | wait => cases ht; exact h.sleep hco true
  | genid => cases ht; exact { h with }
  | fork => cases ht; exact { h with }
  | timeout => cases ht; exact { h with }
  | call service => cases ht; exact { h with }
  | raise => cases ht; exact { h with }
  | finish => cases ht; exact { h with }
  | ret outcome =>
    cases ht
    obtain ⟨-, answered, -, ht⟩ | ⟨-, r, sent, -, -, ht⟩ := ret_cases s co outcome
    all_goals rw [ht]; exact { h with }
  | newResponse =>
    cases ht
    obtain ⟨-, ht⟩ | ⟨-, r, ref, -, -, ht⟩ := newResponse_cases s co
    all_goals rw [ht]; exact { h with }
  | respond k answer =>
    simp only [Service.act] at ht
    split at ht
    · cases ht
      cases hr : s.respond k answer with
      | none => exact h
      | some u =>
        obtain ⟨watching, sent, unresponse, response, rfl⟩ := respond_frame hr
        exact { h with }
    · cases ht
  | term service order =>
    obtain ⟨dead, queue, rfl⟩ := errorDispatch_frame ht
    exact { h with }
  | exit order =>
    obtain ⟨watching, sent, unresponse, response, hr⟩ := rejectAll_frame s.report order
    obtain rfl | rfl := exit_cases ht
    all_goals rw [hr]; exact { h with }

end Pending

namespace Drained

theorem of_running (h : s.control = .running co frames) : Drained s := by
  simp [Drained, h]

theorem resume (ht : s.resume co frames message = .ok t) : Drained t := by
  obtain ⟨-, rfl⟩ | ⟨session, untimed, -, rfl⟩ | ⟨session, -, rfl⟩ := resume_cases ht
  all_goals exact of_running rfl

theorem act (hrun : s.control = .running co frames) (hok : WakeupsServed s (.act action))
    (ht : s.act co frames action = .ok t) : Drained t := by
  obtain ⟨hfail, hexit⟩ := hok
  cases action with
  | wakeup other =>
    cases ht
    have hc : (s.wakeup other).control = .running co frames := by
      unfold Service.wakeup
      split <;> exact hrun
    exact of_running hc
  | sleep => cases ht; trivial
  | wait => cases ht; trivial
  | genid => cases ht; exact of_running hrun
  | fork => cases ht; exact of_running hrun
  | timeout => cases ht; exact of_running hrun
  | call service => cases ht; trivial
  | raise => cases ht; exact hfail co frames hrun trivial
  | finish => cases ht; trivial
  | ret outcome =>
    cases ht
    obtain ⟨hf, answered, -, ht⟩ | ⟨-, r, sent, -, -, ht⟩ := ret_cases s co outcome
    · rw [ht]
      exact hfail co frames hrun hf
    · rw [ht]
      exact of_running hrun
  | newResponse =>
    cases ht
    obtain ⟨hf, ht⟩ | ⟨-, r, ref, -, -, ht⟩ := newResponse_cases s co
    · rw [ht]
      exact hfail co frames hrun hf
    · rw [ht]
      exact of_running hrun
  | respond k answer =>
    simp only [Service.act] at ht
    split at ht
    · cases ht
      cases hr : s.respond k answer with
      | none => exact of_running hrun
      | some u =>
        obtain ⟨watching, sent, unresponse, response, rfl⟩ := respond_frame hr
        exact of_running hrun
    · cases ht
  | term service order =>
    obtain ⟨dead, queue, rfl⟩ := errorDispatch_frame ht
    exact of_running hrun
  | exit order =>
    have hnil := hexit ⟨order, rfl⟩
    obtain ⟨watching, sent, unresponse, response, hr⟩ := rejectAll_frame s.report order
    obtain rfl | rfl := exit_cases ht
    · rw [hr]
      exact of_running hrun
    · rw [hr]
      cases frames with
      | zero => exact .inl hnil
      | succ frames => exact hnil

end Drained

/-- What every step keeps, as long as errors find no wake-up pending. -/
structure Served (s : Service) : Prop where
  wellFormed : WellFormed s
  pending : Pending s
  drained : Drained s

namespace Served

section

variable (h : Served s)
include h

theorem rawDispatchMessage (hidle : s.control = .idle) {message : Incoming}
    (ht : s.rawDispatchMessage message = .ok t) : Served t := by
  have hnil : s.wakeupSession = [] := by simpa [Drained, hidle] using h.drained
  have hw := h.wellFormed.rawDispatchMessage ht
  cases message with
  | response session =>
    simp only [Service.rawDispatchMessage] at ht
    split at ht
    next co he =>
      have hp : Pending (s.clearEntry session) := { h.pending with }
      exact ⟨hw, hp.resume (by simp [Service.clearEntry, hnil]) ht, .resume ht⟩
    · cases ht
      exact ⟨hw, { h.pending with }, .inl hnil⟩
    · cases ht
      exact ⟨hw, { h.pending with }, .inl hnil⟩
  | unknown session source =>
    cases ht
    exact ⟨hw, { h.pending with }, .inl hnil⟩
  | undispatched session source =>
    cases ht
    exact ⟨hw, { h.pending with }, .inl hnil⟩
  | request session source unpacks =>
    simp only [Service.rawDispatchMessage] at ht
    split at ht
    · have hp : Pending (s.startHandler session source) := { h.pending with }
      exact ⟨hw, hp.resume (by simp [Service.startHandler, Service.coCreate, hnil]) ht, .resume ht⟩
    · cases ht
      exact ⟨hw, { h.pending with }, .inl hnil⟩
  | error session source order =>
    simp only [Service.rawDispatchMessage] at ht
    split at ht
    next u hu =>
      cases ht
      obtain ⟨dead, queue, rfl⟩ := errorDispatch_frame hu
      exact ⟨hw, { h.pending with }, trivial⟩
    · cases ht

theorem dispatchWakeup (ht : s.dispatchWakeup co frames = .ok t) : Served t := by
  have hw := h.wellFormed.dispatchWakeup ht
  unfold Service.dispatchWakeup at ht
  split at ht
  next hnil =>
    cases ht
    exact ⟨hw, { h.pending with }, hnil⟩
  next =>
    split at ht
    next hm =>
      split at ht
      next session hs =>
        exact ⟨hw, h.pending.breakSleep hm session ht ((h.wellFormed.sleeping co session).1 hs),
          .resume ht⟩
      next hs => exact absurd hs (h.pending.asleep co hm)
    next => cases ht

theorem dispatchErrorQueue (hc : s.control = .errorQueue frames)
    (ht : s.dispatchErrorQueue frames = .ok t) : Served t := by
  have hnil : s.wakeupSession = [] := by simpa [Drained, hc] using h.drained
  have hw := h.wellFormed.dispatchErrorQueue ht
  unfold Service.dispatchErrorQueue at ht
  split at ht
  · cases ht
    refine ⟨hw, { h.pending with }, ?_⟩
    cases frames with
    | zero => exact .inl hnil
    | succ frames => exact hnil
  next session queue hq =>
    split at ht
    next co he =>
      have hp : Pending ({ s with errorQueue := queue }.clearEntry session) := { h.pending with }
      exact ⟨hw, hp.resume (by simp [Service.clearEntry, hnil]) ht, .resume ht⟩
    · cases ht
      exact ⟨hw, { h.pending with }, .inl hnil⟩

theorem dispatchFork (hc : s.control = .forks) (ht : s.dispatchFork co = .ok t) : Served t := by
  have hd : s.wakeupSession = [] ∨ s.forkQueue ≠ [] := by simpa [Drained, hc] using h.drained
  have hw := h.wellFormed.dispatchFork ht
  unfold Service.dispatchFork at ht
  split at ht
  next hnil =>
    cases ht
    exact ⟨hw, { h.pending with }, hd.resolve_right (not_not.2 hnil)⟩
  next =>
    split at ht
    next hm =>
      have hp : Pending { s with forkQueue := s.forkQueue.erase co } := { h.pending with }
      have hnot : co ∉ s.wakeupSession := fun hw =>
        h.pending.asleep co hw
          (h.wellFormed.sleepSession_eq_none _ (by simp [(h.wellFormed.forked co hm).1]))
      exact ⟨hw, hp.resume hnot ht, .resume ht⟩
    next => cases ht

theorem step {event : Event} (hok : WakeupsServed s event) (ht : s.step event = .ok t) :
    Served t := by
  cases event with
  | receive message =>
    simp only [Service.step] at ht
    split at ht
    next hidle => exact h.rawDispatchMessage hidle ht
    next => cases ht
  | next co =>
    simp only [Service.step, Service.next] at ht
    split at ht
    next => exact h.dispatchWakeup ht
    next hc => exact h.dispatchErrorQueue hc ht
    next hc => exact h.dispatchFork hc ht
    next => cases ht
  | act action =>
    have hw := h.wellFormed.step ht
    simp only [Service.step] at ht
    split at ht
    next co frames hc =>
      have hrun := h.wellFormed.running co frames hc
      exact ⟨hw, h.pending.act (h.wellFormed.sleepSession_eq_none _ (by simp [hrun])) ht,
        .act hc hok ht⟩
    next => cases ht

theorem wakeupsExact : WakeupsExact s where
  ends sleep hs := by
    rcases mem_append.1 (h.pending.perm.mem_iff.1 hs) with hs | hs
    · exact .inl hs
    · obtain ⟨co, hco, rfl⟩ := mem_map.1 hs
      obtain ⟨session, hsl⟩ := Option.ne_none_iff_exists'.1 (h.pending.asleep co hco)
      exact .inr ⟨hco, ⟨session, (h.wellFormed.sleeping co session).1 hsl⟩, rfl⟩
  delivered hidle := by
    have hnil : s.wakeupSession = [] := by simpa [Drained, hidle] using h.drained
    simpa [hnil] using h.pending.perm
  caused sleep hs := h.pending.perm.mem_iff.2 (mem_append_left _ hs)
  woken_nodup := h.pending.nodup
  broken_nodup := (nodup_append.1 (h.pending.perm.nodup h.pending.nodup)).1

end

end Served

/-- Every wake-up ends exactly the sleep it is for, before the message is done with. -/
theorem wakeups_exact (lastSession : ℕ)
    (h : Transition.Reaches step WakeupsServed (start lastSession) s) : WakeupsExact s :=
  have hinv : Served s := h.invariant ⟨.start lastSession, .start lastSession, rfl⟩
    fun _ _ _ hinv hok hs => hinv.step hok hs
  hinv.wakeupsExact

/-- The first coroutine sleeps; the second one, which a timer starts, wakes it. -/
theorem wakeups_exact_single : ∃ s : Service,
    s.control = .idle ∧ s.woken = [(0, 1)] ∧ WakeupsExact s := by
  refine ⟨_, rfl, rfl, wakeups_exact 1 (Transition.reaches_of_exec
    (l := [.receive (.response 1), .act .timeout, .act .sleep, .next 0, .next 0, .next 0,
      .receive (.response 2), .act (.wakeup 0), .act .finish, .next 0, .act .finish, .next 0,
      .next 0, .next 0, .next 0]) rfl ?_)⟩
  intro event he u
  simp only [List.mem_cons, List.not_mem_nil, or_false] at he
  rcases he with rfl | rfl | rfl | rfl | rfl | rfl | rfl | rfl | rfl | rfl | rfl | rfl | rfl | rfl |
    rfl
  all_goals simp [WakeupsServed, Fails]

/-- The second coroutine wakes the first one and raises an error. The entry in `wakeup_session`
outlives the sleep, which the timer ends, and cuts the next sleep short: it ends with `"BREAK"`, and
nobody has called `mtask.wakeup` in it. -/
theorem wakeup_outlives_sleep : ∃ s : Service,
    Transition.Reaches step (fun _ _ => True) (start 1) s ∧ s.woken = [(0, 1)] ∧
      s.broken = [(0, 2)] ∧ ¬ WakeupsExact s := by
  refine ⟨_, Transition.reaches_of_exec
    (l := [.receive (.response 1), .act .timeout, .act .sleep, .next 0, .next 0, .next 0,
      .receive (.response 2), .act (.wakeup 0), .act .raise, .next 0,
      .receive (.response 3), .act .sleep, .next 0]) rfl (fun _ _ _ => trivial), rfl, rfl,
    fun h => ?_⟩
  have : ((0, 2) : ℕ × ℕ) ∈ [(0, 1)] := h.caused (0, 2) (List.mem_singleton_self _)
  simp at this

end Mtask.Lualib.Scheduler
