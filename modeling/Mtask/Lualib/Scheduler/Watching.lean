import Mathlib.Data.Nat.Count
import Mtask.Lualib.Scheduler.WellFormed

/-!
# The counts of `watching_service`

The count of a service is raised when a coroutine is made for a request from it and when a closure
of `mtask.response` is made, and is released when the coroutine ends, when the closure is used, and
when `"TEST"` finds the service dead. The error exit of a coroutine releases nothing, and neither
does an error in `p.unpack`, after the count has been raised; `"TEST"` releases once more each time.
Where none of that happens, the count is the number of coroutines and closures that still refer to
the service.
-/

namespace Mtask.Lualib.Scheduler

/-! ### Counting -/

variable {n c : ℕ}

section Counting

variable {p q : ℕ → Prop} [DecidablePred p] [DecidablePred q]

theorem count_congr (h : ∀ x < n, p x ↔ q x) : Nat.count p n = Nat.count q n := by
  induction n with
  | zero => rfl
  | succ n ih =>
    rw [Nat.count_succ, Nat.count_succ, ih fun x hx => h x (by omega)]
    simp only [h n (by omega)]

/-- Two predicates that differ at one number below `n`. -/
theorem count_eq_succ (hc : c < n) (hp : ¬ p c) (hq : q c) (h : ∀ x, x ≠ c → (p x ↔ q x)) :
    Nat.count q n = Nat.count p n + 1 := by
  induction n with
  | zero => omega
  | succ n ih =>
    rw [Nat.count_succ, Nat.count_succ]
    rcases Nat.lt_succ_iff_lt_or_eq.1 hc with hlt | rfl
    · have := h n (by omega)
      simp only [ih hlt, this]
      omega
    · rw [if_pos hq, if_neg hp, count_congr fun x hx => (h x (by omega)).symm]

end Counting

open Service
open Function (update update_of_ne update_self)

variable {s t : Service} {co frames session k a : ℕ}

namespace Service

/-- The coroutine handles a request from `a`, and has not ended. -/
def Handles (s : Service) (a co : ℕ) : Prop :=
  (s.thread co).live = true ∧ (s.request co).any (·.source = a) = true

/-- The closure answers a request from `a`, and has not been used or found dead. -/
def Opens (s : Service) (a k : ℕ) : Prop :=
  (s.response k).state = .ready ∧ (s.response k).request.source = a

instance (s : Service) (a : ℕ) : DecidablePred (s.Handles a) :=
  fun _ => inferInstanceAs (Decidable (_ ∧ _))

instance (s : Service) (a : ℕ) : DecidablePred (s.Opens a) :=
  fun _ => inferInstanceAs (Decidable (_ ∧ _))

/-- The number of coroutines that handle a request from `a` and have not ended. -/
def liveHandlers (s : Service) (a : ℕ) : ℕ := Nat.count (s.Handles a) s.threads

/-- The number of closures for `a` that have not been used or found dead. -/
def openResponses (s : Service) (a : ℕ) : ℕ := Nat.count (s.Opens a) s.responses

end Service

/-- An entry of `watching_service`, which is absent for the count 0. -/
def entryOf (n : ℕ) : Option ℕ := if n = 0 then none else some n

/-- The count of every service is the number of its live handlers and open closures, and is absent
when there is none. -/
def WatchCounts (s : Service) : Prop :=
  ∀ a, s.watchingService a = entryOf (s.liveHandlers a + s.openResponses a)

/-- A message of a handler can be unpacked; no error of a coroutine that handles a request reaches
the dispatcher; and a closure that has been used, or found dead, is not called with `"TEST"` when
its service is dead. -/
def ReleasedOnce (s : Service) : Event → Prop
  | .receive (.request _ _ unpacks) => unpacks = true
  | .act action => ∀ co frames, s.control = .running co frames →
    (s.Fails co action → s.request co = none) ∧
    (∀ k, action = .respond k .test → s.deadService (s.response k).request.source = true →
      (s.response k).state = .ready)
  | _ => True

@[simp] theorem entryOf_succ (n : ℕ) : entryOf (n + 1) = some (n + 1) := rfl

theorem releaseWatching_entryOf {watching : ℕ → Option ℕ} (h : watching a = entryOf (n + 1)) :
    releaseWatching watching a a = entryOf n := by
  simp only [releaseWatching, h, entryOf_succ, update_self]
  cases n with
  | zero => rfl
  | succ n => rfl

theorem releaseWatching_of_ne (watching : ℕ → Option ℕ) {b : ℕ} (h : b ≠ a) :
    releaseWatching watching a b = watching b := by
  unfold releaseWatching
  cases watching a with
  | none => rfl
  | some ref => exact update_of_ne h ..

/-- The counts are right, and the closures that are in use have been made. -/
structure Watched (s : Service) : Prop where
  counts : WatchCounts s
  made : ∀ k, (s.response k).state ≠ .used → k < s.responses

theorem liveHandlers_congr (hn : t.threads = s.threads)
    (h : ∀ co < s.threads, t.Handles a co ↔ s.Handles a co) :
    t.liveHandlers a = s.liveHandlers a := by
  unfold Service.liveHandlers
  rw [hn]
  exact count_congr h

theorem openResponses_congr (hn : t.responses = s.responses)
    (h : ∀ k < s.responses, t.Opens a k ↔ s.Opens a k) : t.openResponses a = s.openResponses a := by
  unfold Service.openResponses
  rw [hn]
  exact count_congr h

/-- The request of a coroutine below `threads` that is live is counted once. -/
theorem liveHandlers_succ (hn : t.threads = s.threads) (hco : co < s.threads)
    (hs : ¬ s.Handles a co) (ht : t.Handles a co)
    (h : ∀ co', co' ≠ co → (s.Handles a co' ↔ t.Handles a co')) :
    t.liveHandlers a = s.liveHandlers a + 1 := by
  unfold Service.liveHandlers
  rw [hn]
  exact count_eq_succ hco hs ht h

namespace Watched

theorem release (h : WatchCounts s) (hw : t.watchingService = releaseWatching s.watchingService c)
    (hc : s.liveHandlers c + s.openResponses c = t.liveHandlers c + t.openResponses c + 1)
    (hne : ∀ b, b ≠ c →
      t.liveHandlers b + t.openResponses b = s.liveHandlers b + s.openResponses b) :
    WatchCounts t := by
  intro b
  rw [hw]
  by_cases hb : b = c
  · subst hb
    refine releaseWatching_entryOf ?_
    rw [← hc]
    exact h b
  · rw [releaseWatching_of_ne _ hb, hne b hb]
    exact h b

/-- Something more refers to `c`, and its count is raised. -/
theorem add (h : WatchCounts s) (hw : t.watchingService =
      update s.watchingService c (some ((s.watchingService c).getD 0 + 1)))
    (hc : t.liveHandlers c + t.openResponses c = s.liveHandlers c + s.openResponses c + 1)
    (hne : ∀ b, b ≠ c →
      t.liveHandlers b + t.openResponses b = s.liveHandlers b + s.openResponses b) :
    WatchCounts t := by
  intro b
  rw [hw]
  by_cases hb : b = c
  · subst hb
    rw [update_self, hc, h b, entryOf_succ]
    unfold entryOf
    split
    next h0 => simp [h0]
    next => rfl
  · rw [update_of_ne hb, hne b hb]
    exact h b

section

variable (h : Watched s)
include h

/-- A coroutine goes on to something else, and is as live as before or handles nothing. -/
theorem moved (co : ℕ) (v : Thread) (hv : v.live = (s.thread co).live ∨ s.request co = none) :
    Watched { s with thread := update s.thread co v } := by
  refine ⟨fun b => ?_, h.made⟩
  have hl : Service.liveHandlers { s with thread := update s.thread co v } b =
      s.liveHandlers b := liveHandlers_congr rfl fun x _ => by
    simp only [Handles]
    by_cases hx : x = co
    · subst hx
      rcases hv with hv | hv
      · simp [hv]
      · simp [hv]
    · rw [update_of_ne hx]
  rw [hl]
  exact h.counts b

theorem resume {message : Option ℕ} (ht : s.resume co frames message = .ok t) : Watched t := by
  obtain ⟨hco, rfl⟩ | ⟨session, untimed, hco, rfl⟩ | ⟨session, hco, rfl⟩ := resume_cases ht
  all_goals exact { h.moved co .running (.inl (by simp [hco, Thread.live])) with }

theorem coCreate (hw : WellFormed s) : Watched s.coCreate := by
  have hnone := (hw.unhandled s.newThread hw.newThread_cases).1
  refine ⟨fun b => ?_, h.made⟩
  have hiff : ∀ co, s.coCreate.Handles b co ↔ s.Handles b co := fun co => by
    simp only [Handles, Service.coCreate]
    by_cases hx : co = s.newThread
    · simp [hx, hnone]
    · rw [update_of_ne hx]
  rw [show s.coCreate.liveHandlers b = s.liveHandlers b from ?_]
  · exact h.counts b
  · unfold Service.liveHandlers
    rw [count_congr fun co _ => hiff co]
    simp only [Service.coCreate]
    split
    next hp =>
      have hn : s.newThread = s.threads := by simp [newThread, hp]
      rw [Nat.count_succ, if_neg (by simp [Handles, ← hn, hnone]), Nat.add_zero]
    next => rfl

theorem startHandler (hw : WellFormed s) (session source : ℕ) :
    Watched (s.startHandler session source) := by
  have hnone : s.coCreate.request s.newThread = none :=
    (hw.unhandled s.newThread hw.newThread_cases).1
  have hc := h.coCreate hw
  refine ⟨add hc.counts rfl ?_ fun b hb => ?_, hc.made⟩
  · have := liveHandlers_succ (s := s.coCreate) (t := s.startHandler session source) (a := source)
      rfl hw.newThread_lt (by simp [Handles, hnone])
      (by simp [Handles, Service.startHandler, Thread.live])
      (fun co hne => by simp [Handles, Service.startHandler, hne, Service.coCreate])
    have hopen : (s.startHandler session source).openResponses source =
        s.coCreate.openResponses source := rfl
    omega
  · have hl : (s.startHandler session source).liveHandlers b = s.coCreate.liveHandlers b :=
      liveHandlers_congr rfl fun co _ => by
        by_cases hx : co = s.newThread
        · simp [Handles, Service.startHandler, hx, hnone, hb.symm]
        · simp [Handles, Service.startHandler, hx, Service.coCreate]
    rw [hl]
    rfl

theorem finish (hco : co < s.threads) (hlive : (s.thread co).live = true) :
    Watched (s.finish co frames) := by
  have hother : ∀ b x, x ≠ co → ((s.finish co frames).Handles b x ↔ s.Handles b x) :=
    fun b x hx => by simp [Handles, Service.finish, hx]
  have hself : ∀ b, ¬ (s.finish co frames).Handles b co := fun b => by
    simp [Handles, Service.finish]
  refine ⟨?_, h.made⟩
  cases hr : s.request co with
  | none =>
    intro b
    have hl : (s.finish co frames).liveHandlers b = s.liveHandlers b :=
      liveHandlers_congr rfl fun x _ => by
        by_cases hx : x = co
        · subst hx
          simp [Handles, Service.finish, hr]
        · exact hother b x hx
    have hwatch : (s.finish co frames).watchingService = s.watchingService := by
      simp [Service.finish, hr]
    rw [hl, hwatch]
    exact h.counts b
  | some r =>
    refine release (c := r.source) h.counts (by simp [Service.finish, hr]) ?_ fun b hb => ?_
    · have := liveHandlers_succ (s := s.finish co frames) (t := s) (a := r.source) rfl hco
        (hself _) ⟨hlive, by simp [hr]⟩ (fun x hx => hother _ x hx)
      have hopen : (s.finish co frames).openResponses r.source = s.openResponses r.source := rfl
      omega
    · have hl : (s.finish co frames).liveHandlers b = s.liveHandlers b :=
        liveHandlers_congr rfl fun x _ => by
          by_cases hx : x = co
          · subst hx
            simp [Handles, Service.finish, hr, hb.symm]
          · exact hother b x hx
      rw [hl]
      rfl

theorem newResponse {r : Request} {ref : ℕ} (href : s.watchingService r.source = some ref)
    (hw : t.watchingService = update s.watchingService r.source (some (ref + 1)))
    (hr : t.response = update s.response s.responses ⟨r, .ready⟩)
    (hn : t.responses = s.responses + 1) (hth : t.threads = s.threads)
    (hthread : t.thread = s.thread) (hreq : t.request = s.request) : Watched t := by
  have hlive : ∀ b, t.liveHandlers b = s.liveHandlers b := fun b =>
    liveHandlers_congr hth fun co _ => by simp only [Handles, hthread, hreq]
  have hopen : ∀ b, t.openResponses b = s.openResponses b + if r.source = b then 1 else 0 :=
    fun b => by
      unfold Service.openResponses
      rw [hn, Nat.count_succ, count_congr (p := t.Opens b) (q := s.Opens b) fun k hk => ?_]
      · simp [Opens, hr]
      · have hne : k ≠ s.responses := by omega
        simp [Opens, hr, hne]
  refine ⟨add (c := r.source) h.counts (by rw [hw, href]; rfl) ?_ fun b hb => ?_, fun k hk => ?_⟩
  · rw [hlive, hopen, if_pos rfl, Nat.add_assoc]
  · rw [hlive, hopen, if_neg hb.symm, Nat.add_zero]
  · rw [hn]
    by_cases hx : k = s.responses
    · omega
    · have := h.made k (by simpa [hr, hx] using hk)
      omega

theorem close (hopen : (s.response k).state = .ready) (state : ResponseState)
    (hstate : state ≠ .ready)
    (hw : t.watchingService = releaseWatching s.watchingService (s.response k).request.source)
    (hr : t.response = update s.response k ⟨(s.response k).request, state⟩)
    (hn : t.responses = s.responses) (hth : t.threads = s.threads) (hthread : t.thread = s.thread)
    (hreq : t.request = s.request) : Watched t := by
  have hk := h.made k (by simp [hopen])
  have hlive : ∀ b, t.liveHandlers b = s.liveHandlers b := fun b =>
    liveHandlers_congr hth fun co _ => by simp only [Handles, hthread, hreq]
  have hother : ∀ b x, x ≠ k → (t.Opens b x ↔ s.Opens b x) := fun b x hx => by
    simp [Opens, hr, hx]
  have hself : ∀ b, ¬ t.Opens b k := fun b => by simp [Opens, hr, hstate]
  refine ⟨release h.counts hw ?_ fun b hb => ?_, fun k' hk' => ?_⟩
  · have : s.openResponses (s.response k).request.source =
        t.openResponses (s.response k).request.source + 1 := by
      unfold Service.openResponses
      rw [hn]
      exact count_eq_succ hk (hself _) ⟨hopen, rfl⟩ fun x hx => hother _ x hx
    rw [hlive]
    omega
  · rw [hlive, openResponses_congr (s := s) hn fun x _ => ?_]
    by_cases hx : x = k
    · subst hx
      simp [Opens, hr, hb.symm]
    · exact hother b x hx
  · rw [hn]
    by_cases hx : k' = k
    · rw [hx]
      exact hk
    · exact h.made k' (by simpa [hr, hx] using hk')

theorem respond {answer : Answer}
    (hok : answer = .test → s.deadService (s.response k).request.source = true →
      (s.response k).state = .ready) (ht : s.respond k answer = some t) : Watched t := by
  obtain ⟨-, rfl⟩ | ⟨ha, hd, rfl⟩ | ⟨-, hst, rfl⟩ | ⟨-, hst, isError, rfl⟩ := respond_cases ht
  · exact h
  · exact h.close (hok ha hd) .foundDead (by simp) rfl rfl rfl rfl rfl rfl
  · refine ⟨fun b => ?_, fun k' hk' => ?_⟩
    · have ho : Service.openResponses { s with
          response := update s.response k ⟨(s.response k).request, .used⟩ } b =
          s.openResponses b := openResponses_congr rfl fun x _ => by
        by_cases hx : x = k
        · subst hx
          simp [Opens, hst]
        · simp [Opens, hx]
      rw [ho]
      exact h.counts b
    · by_cases hx : k' = k
      · subst hx
        simp at hk'
      · exact h.made k' (by simpa [hx] using hk')
  · exact h.close hst .used (by simp) rfl rfl rfl rfl rfl rfl

theorem rejectAll (l : List ℕ) : Watched (s.rejectAll l).1 := by
  induction l generalizing s with
  | nil => exact h
  | cons k l ih =>
    unfold Service.rejectAll
    split
    next t ht => exact ih (h.respond (by simp) ht)
    next => exact h

end

theorem start (lastSession : ℕ) : Watched (Service.start lastSession) := by
  refine ⟨fun b => ?_, fun k hk => absurd rfl hk⟩
  have hl : (Service.start lastSession).liveHandlers b = 0 :=
    Nat.count_iff_forall_not.2 fun co _ => by simp [Handles, Service.start]
  have ho : (Service.start lastSession).openResponses b = 0 := rfl
  rw [hl, ho]
  rfl

theorem act (h : Watched s) (hw : WellFormed s) (hc : s.control = .running co frames)
    {action : Action} (hok : ReleasedOnce s (.act action)) (ht : s.act co frames action = .ok t) :
    Watched t := by
  have hrun := hw.running co frames hc
  have hd := hw.detached hrun
  obtain ⟨hfail, htest⟩ := hok co frames hc
  cases action with
  | wakeup other =>
    cases ht
    unfold Service.wakeup
    split
    · exact { h with }
    · exact h
  | sleep =>
    cases ht
    exact { h.moved co (.sleeping s.newSession false)
      (.inl (by simp [hrun, Thread.live])) with }
  | wait =>
    cases ht
    exact { h.moved co (.sleeping s.newSession true)
      (.inl (by simp [hrun, Thread.live])) with }
  | genid => cases ht; exact { h with }
  | fork => cases ht; exact { h.coCreate hw with }
  | timeout =>
    cases ht
    have hg : Watched s.genid := { h with }
    have hcr := hg.coCreate hw.genid
    have hnone : s.genid.coCreate.request s.newThread = none :=
      (hw.unhandled s.newThread hw.newThread_cases).1
    unfold Service.timeout
    split
    · exact { hcr with }
    · exact { hcr.moved s.newThread .lost (.inr hnone) with }
  | call service =>
    cases ht
    exact { h.moved co (.calling s.newSession)
      (.inl (by simp [hrun, Thread.live])) with }
  | raise =>
    cases ht
    have hnone := hfail trivial
    have hreq : (s.raise co).request = s.request := by
      simp only [Service.raise, ← hnone, Function.update_eq_self]
    have hm := h.moved co .dead (.inr hnone)
    refine ⟨fun b => ?_, h.made⟩
    have hl : (s.raise co).liveHandlers b =
        Service.liveHandlers { s with thread := update s.thread co .dead } b :=
      liveHandlers_congr rfl fun co' _ => by simp only [Handles, hreq]; rfl
    rw [hl]
    exact hm.counts b
  | finish => cases ht; exact h.finish hd.lt (by simp [hrun, Thread.live])
  | ret outcome =>
    cases ht
    obtain ⟨hf, answered, -, ht⟩ | ⟨-, r, sent, -, -, ht⟩ := ret_cases s co outcome
    · rw [ht]
      exact { h.moved co .lost (.inr (hfail hf)) with }
    · rw [ht]
      exact { h with }
  | newResponse =>
    cases ht
    obtain ⟨hf, ht⟩ | ⟨-, r, ref, -, href, ht⟩ := newResponse_cases s co
    · rw [ht]
      exact { h.moved co .lost (.inr (hfail hf)) with }
    · rw [ht]
      exact h.newResponse (r := r) href rfl rfl rfl rfl rfl rfl
  | respond k answer =>
    simp only [Service.act] at ht
    split at ht
    · cases ht
      cases hr : s.respond k answer with
      | none => exact h
      | some u => exact h.respond (fun ha => htest k (by rw [ha])) hr
    · cases ht
  | term service order =>
    obtain ⟨dead, queue, rfl⟩ := errorDispatch_frame ht
    exact { h with }
  | exit order =>
    have hreport : Watched (s.report.rejectAll order).1 :=
      Watched.rejectAll (s := s.report) { h with } order
    obtain ⟨watching, sent, unresponse, response, hr⟩ := rejectAll_frame s.report order
    obtain rfl | rfl := exit_cases ht
    · exact hreport
    · exact { hreport.moved co .quit
        (.inl (by rw [hr]; simp [Service.report, hrun, Thread.live])) with }

end Watched

/-- What every step keeps, as long as what holds a count gives it back once. -/
structure Released (s : Service) : Prop where
  wellFormed : WellFormed s
  watched : Watched s

namespace Released

theorem rawDispatchMessage (h : Released s) {message : Incoming}
    (hok : ReleasedOnce s (.receive message)) (ht : s.rawDispatchMessage message = .ok t) :
    Watched t := by
  cases message with
  | response session =>
    simp only [Service.rawDispatchMessage] at ht
    split at ht
    next co he =>
      have hc : Watched (s.clearEntry session) := { h.watched with }
      exact hc.resume ht
    all_goals
      cases ht
      exact { h.watched with }
  | unknown session source => cases ht; exact { h.watched with }
  | undispatched session source => cases ht; exact { h.watched with }
  | request session source unpacks =>
    have hp := h.watched.startHandler h.wellFormed session source
    obtain rfl : unpacks = true := hok
    exact hp.resume ht
  | error session source order =>
    have hp := h.watched.startHandler h.wellFormed session source
    have hth : (s.startHandler session source).thread s.newThread = .created :=
      WellFormed.coCreate_thread s
    simp only [Service.rawDispatchMessage] at ht
    split at ht
    next u hu =>
      cases ht
      obtain ⟨dead, queue, rfl⟩ := errorDispatch_frame hu
      exact Watched.finish { hp with } (h.wellFormed.newThread_lt) (by simp [hth, Thread.live])
    next => cases ht

theorem next (h : Released s) (ht : s.next co = .ok t) : Watched t := by
  unfold Service.next at ht
  split at ht
  · unfold Service.dispatchWakeup at ht
    split at ht
    · cases ht
      exact { h.watched with }
    · split at ht
      · split at ht
        next session hs =>
          have hb : Watched (s.breakSleep co session) := { h.watched with }
          exact hb.resume ht
        · cases ht
          exact { h.watched with }
      · cases ht
  · unfold Service.dispatchErrorQueue at ht
    split at ht
    · cases ht
      exact { h.watched with }
    next session queue hq =>
      split at ht
      next co' he =>
        have hc : Watched ({ s with errorQueue := queue }.clearEntry session) :=
          { h.watched with }
        exact hc.resume ht
      · cases ht
        exact { h.watched with }
  · unfold Service.dispatchFork at ht
    split at ht
    · cases ht
      exact { h.watched with }
    · split at ht
      next hm =>
        have hf : Watched { s with forkQueue := s.forkQueue.erase co } := { h.watched with }
        exact hf.resume ht
      · cases ht
  · cases ht

theorem step (h : Released s) {event : Event} (hok : ReleasedOnce s event)
    (ht : s.step event = .ok t) : Released t := by
  refine ⟨h.wellFormed.step ht, ?_⟩
  cases event with
  | receive message =>
    simp only [Service.step] at ht
    split at ht
    · exact h.rawDispatchMessage hok ht
    · cases ht
  | next co => exact h.next ht
  | act action =>
    simp only [Service.step] at ht
    split at ht
    next co frames hc => exact h.watched.act h.wellFormed hc hok ht
    · cases ht

end Released

/-- The count of a service is the number of its live handlers and open closures. -/
theorem watching_counts (lastSession : ℕ)
    (h : Transition.Reaches step ReleasedOnce (start lastSession) s) : WatchCounts s :=
  have hinv : Released s := h.invariant ⟨.start lastSession, .start lastSession⟩
    fun _ _ _ hinv hok hs => hinv.step hok hs
  hinv.watched.counts

/-- A handler makes a closure for its request and goes to sleep: the count is 2. -/
theorem watching_counts_two : ∃ s : Service, s.control = .idle ∧ s.watchingService 7 = some 2 ∧
    WatchCounts s := by
  refine ⟨_, rfl, rfl, watching_counts 1 (Transition.Permitted.reaches
    (l := [.receive (.request 5 7 true), .act .newResponse, .act .sleep, .next 0, .next 0, .next 0])
    ?_ rfl)⟩
  refine .cons rfl rfl (.cons (fun co frames hc => ⟨fun hf => ?_, nofun⟩) rfl
    (.cons (fun _ _ _ => ⟨False.elim, nofun⟩) rfl
    (.cons trivial rfl (.cons trivial rfl (.cons trivial rfl trivial)))))
  obtain ⟨rfl, -⟩ := Control.running.inj hc
  rcases hf with hf | hf
  · cases hf
  · cases hf ⟨5, 7, 0⟩ rfl

/-- A handler raises an error. Nothing refers to the service any more, and the count is still 1. -/
theorem count_leaks : ∃ s : Service,
    Transition.Reaches step (fun _ _ => True) (start 1) s ∧ s.control = .idle ∧
      s.watchingService 7 = some 1 ∧ s.liveHandlers 7 = 0 ∧ s.openResponses 7 = 0 ∧
        ¬ WatchCounts s := by
  refine ⟨_, Transition.reaches_of_exec
    (l := [.receive (.request 5 7 true), .act .raise, .next 0]) rfl (fun _ _ _ => trivial), rfl,
    rfl, rfl, rfl, fun h => ?_⟩
  have : (some 1 : Option ℕ) = none := h 7
  cases this

end Mtask.Lualib.Scheduler
