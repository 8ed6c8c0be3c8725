import Mtask.Lualib.Scheduler.WellFormed

/-!
# One reply for a request

A request is answered by `mtask.ret`, by a closure of `mtask.response`, by the error exit of its
coroutine, or by `mtask.exit`, which fails the requests of all coroutines and then calls all
closures that are left. The first two look at `session_response`, so that there is one of them at
most; the error exit and `mtask.exit` do not. Where an error comes only before the request has been
answered, and the service ends only while no coroutine has answered its request and not ended yet,
every request is answered once at most.
-/

namespace Mtask.Lualib.Scheduler

open Service List
open Function (update update_apply update_of_ne update_self)

variable {s t : Service} {co frames session k : ℕ} {r : Request}

/-- The request came, with its session, from its source. -/
def Service.Received (s : Service) (r : Request) : Prop :=
  s.received[r.number]? = some (r.session, r.source)

/-- The numbers of the requests that have been answered. -/
def Service.answered (s : Service) : List ℕ := s.sent.map fun reply => reply.request.number

/-- No request is answered twice, and a reply carries the session of a request back to its
source. -/
structure RepliesOnce (s : Service) : Prop where
  once : s.answered.Nodup
  received : ∀ reply ∈ s.sent, s.Received reply.request

/-- The coroutine has no request to be answered by an error, or has neither called `mtask.ret` or
`mtask.response` nor been answered by `mtask.exit`. -/
def Unanswered (s : Service) (co : ℕ) : Prop :=
  ∀ r, s.request co = some r → r.session ≠ 0 → s.sessionResponse co = false ∧ s.reported co = false

/-- An error reaches the dispatcher from a coroutine that has not answered its request;
`mtask.ret` and `mtask.response` are called by one that `mtask.exit` has not answered; and
`mtask.exit` finds no coroutine that has answered its request. -/
def RepliesGuarded (s : Service) : Event → Prop
  | .act action => ∀ co frames, s.control = .running co frames →
    (action = .raise → Unanswered s co) ∧
    ((∃ outcome, action = .ret outcome) ∨ action = .newResponse → s.reported co = false) ∧
    ((∃ order, action = .exit order) → ∀ co', Unanswered s co')
  | _ => True

/-- What is known of the requests: those that coroutines handle, and those of the closures that are
still to be used. -/
structure Replied (s : Service) : Prop where
  once : s.answered.Nodup
  received : ∀ reply ∈ s.sent, s.Received reply.request
  handled : ∀ co r, s.request co = some r → s.Received r
  handled_inj : ∀ co co' r r', s.request co = some r → s.request co' = some r' →
    r.number = r'.number → co = co'
  unanswered : ∀ co r, s.request co = some r → s.sessionResponse co = false →
    s.reported co = false →
      r.number ∉ s.answered ∧
        ∀ k, (s.response k).state = .ready → (s.response k).request.number ≠ r.number
  opened : ∀ k, (s.response k).state = .ready →
    s.Received (s.response k).request ∧ (s.response k).request.number ∉ s.answered
  opened_inj : ∀ k k', (s.response k).state = .ready → (s.response k').state = .ready →
    (s.response k).request.number = (s.response k').request.number → k = k'

/-- Nobody else will answer the request of this number. -/
structure Answerable (s : Service) (n : ℕ) : Prop where
  new : n ∉ s.answered
  closed : ∀ k, (s.response k).state = .ready → (s.response k).request.number ≠ n
  marked : ∀ co r, s.request co = some r → r.number = n →
    s.sessionResponse co = true ∨ s.reported co = true

namespace Replied

theorem sendAll (h : Replied s) {replies : List Reply}
    (hr : ∀ reply ∈ replies, s.Received reply.request ∧ Answerable s reply.request.number)
    (hnd : (replies.map fun reply => reply.request.number).Nodup) :
    Replied { s with sent := s.sent ++ replies } := by
  have hmem : ∀ n ∈ replies.map fun reply => reply.request.number, Answerable s n := fun n hn => by
    obtain ⟨reply, hm, rfl⟩ := mem_map.1 hn
    exact (hr reply hm).2
  have hans : Service.answered { s with sent := s.sent ++ replies } =
      s.answered ++ replies.map fun reply => reply.request.number := map_append ..
  refine { h with once := ?_, received := ?_, unanswered := ?_, opened := ?_ }
  · rw [hans]
    exact h.once.append hnd fun n hn hm => (hmem n hm).new hn
  · intro reply hm
    rcases mem_append.1 hm with hm | hm
    · exact h.received reply hm
    · exact (hr reply hm).1
  · intro co r hrq hs hrep
    obtain ⟨h1, h2⟩ := h.unanswered co r hrq hs hrep
    refine ⟨?_, h2⟩
    rw [hans]
    intro hm
    rcases mem_append.1 hm with hm | hm
    · exact h1 hm
    · rcases (hmem _ hm).marked co r hrq rfl with hx | hx
      · exact absurd hs (by simp [hx])
      · exact absurd hrep (by simp [hx])
  · intro k hk
    obtain ⟨h1, h2⟩ := h.opened k hk
    refine ⟨h1, ?_⟩
    rw [hans]
    intro hm
    rcases mem_append.1 hm with hm | hm
    · exact h2 hm
    · exact (hmem _ hm).closed k hk rfl

theorem send (h : Replied s) (hr : s.Received r) (hf : Answerable s r.number) (isError : Bool) :
    Replied { s with sent := s.sent ++ [⟨r, isError⟩] } :=
  h.sendAll (by simpa using ⟨hr, hf⟩) (nodup_singleton _)

theorem start (lastSession : ℕ) : Replied (Service.start lastSession) where
  once := nodup_nil
  received _ hm := absurd hm not_mem_nil
  handled _ _ h := nomatch h
  handled_inj _ _ _ _ h := nomatch h
  unanswered _ _ h := nomatch h
  opened _ h := nomatch h
  opened_inj _ _ h := nomatch h

theorem receive (h : Replied s) (session source : ℕ) :
    Replied { s with received := s.received ++ [(session, source)] } := by
  have hold : ∀ r, s.Received r →
      Service.Received { s with received := s.received ++ [(session, source)] } r := fun r hr => by
    have hlt := (List.getElem?_eq_some_iff.1 hr).1
    simpa [Service.Received, getElem?_append_left hlt] using hr
  exact { h with
    received := fun reply hm => hold _ (h.received reply hm)
    handled := fun co r hr => hold _ (h.handled co r hr)
    opened := fun k hk => ⟨hold _ (h.opened k hk).1, (h.opened k hk).2⟩ }

theorem lt_of_received (hr : s.Received r) : r.number < s.received.length :=
  (List.getElem?_eq_some_iff.1 hr).1

section

variable (h : Replied s)
include h

theorem notMem_answered : s.received.length ∉ s.answered := fun hm => by
  obtain ⟨reply, hr, he⟩ := mem_map.1 hm
  have := lt_of_received (h.received reply hr)
  omega

theorem answerable_new : Answerable s s.received.length where
  new := h.notMem_answered
  closed k hk he := by
    have := lt_of_received (h.opened k hk).1
    omega
  marked co r hr he := by
    have := lt_of_received (h.handled co r hr)
    omega

theorem unknown (session source : ℕ) (isError : Bool) :
    Replied { s with
      received := s.received ++ [(session, source)]
      sent := s.sent ++ [⟨⟨session, source, s.received.length⟩, isError⟩] } := by
  have hr := h.receive session source
  refine { hr.send (r := ⟨session, source, s.received.length⟩) ?_ ?_ isError with }
  · simp [Service.Received]
  · exact { h.answerable_new with }

theorem startHandler (hw : WellFormed s) (session source : ℕ) :
    Replied (s.startHandler session source) := by
  have hnone := (hw.unhandled s.newThread hw.newThread_cases).1
  have hr := h.receive session source
  have hnew := h.answerable_new
  refine { hr with handled := ?_, handled_inj := ?_, unanswered := ?_ }
  · intro co r hrq
    by_cases hc : co = s.newThread
    · obtain rfl : ⟨session, source, s.received.length⟩ = r := by
        simpa [Service.startHandler, hc] using hrq
      simp [Service.Received, Service.startHandler]
    · exact hr.handled co r (by simpa [Service.startHandler, hc] using hrq)
  · have hlt : ∀ co r, s.request co = some r → r.number ≠ s.received.length := fun co r hrq => by
      have := lt_of_received (h.handled co r hrq)
      omega
    intro co co' r r' hrq hrq' he
    simp only [Service.startHandler, update_apply] at hrq hrq'
    have := h.handled_inj co co' r r'
    grind [Service.coCreate]
  · intro co r hrq hs hrep
    by_cases hc : co = s.newThread
    · obtain rfl : ⟨session, source, s.received.length⟩ = r := by
        simpa [Service.startHandler, hc] using hrq
      exact ⟨hnew.new, hnew.closed⟩
    · exact hr.unanswered co r (by simpa [Service.startHandler, hc] using hrq) hs hrep

/-- A coroutine answers its request, or is done with it. -/
theorem mark {marked : ℕ → Bool} (hm : ∀ co, s.sessionResponse co = true → marked co = true) :
    Replied { s with sessionResponse := marked } := by
  refine { h with unanswered := fun co r hrq hs hrep => h.unanswered co r hrq ?_ hrep }
  cases hc : s.sessionResponse co with
  | false => rfl
  | true => exact absurd (hm co hc) (by simpa using hs)

theorem forget (co : ℕ) (marked reported : ℕ → Bool)
    (hm : ∀ co', co' ≠ co → marked co' = s.sessionResponse co')
    (hr : ∀ co', co' ≠ co → reported co' = s.reported co') :
    Replied { s with
      request := update s.request co none
      sessionResponse := marked
      reported := reported } := by
  have hold : ∀ co' r, update s.request co none co' = some r →
      co' ≠ co ∧ s.request co' = some r := fun co' r hrq => by
    have hne : co' ≠ co := by
      rintro rfl
      simp at hrq
    exact ⟨hne, by simpa [hne] using hrq⟩
  refine { h with handled := ?_, handled_inj := ?_, unanswered := ?_ }
  · exact fun co' r hrq => h.handled co' r (hold co' r hrq).2
  · exact fun co1 co2 r r' hrq hrq' =>
      h.handled_inj co1 co2 r r' (hold co1 r hrq).2 (hold co2 r' hrq').2
  · intro co' r hrq hs hrep
    obtain ⟨hne, hrq⟩ := hold co' r hrq
    exact h.unanswered co' r hrq ((hm co' hne).symm.trans hs) ((hr co' hne).symm.trans hrep)

/-- A closure that is used, or found dead, answers nothing any more. -/
theorem close (k : ℕ) (r : Request) (state : ResponseState) (hst : state ≠ .ready) :
    Replied { s with response := update s.response k ⟨r, state⟩ } := by
  have hold : ∀ k', (update s.response k ⟨r, state⟩ k').state = .ready →
      k' ≠ k := by
    rintro k' hk rfl
    simp [hst] at hk
  have hsame : ∀ k', (update s.response k ⟨r, state⟩ k').state = .ready →
      update s.response k ⟨r, state⟩ k' = s.response k' :=
    fun k' hk => update_of_ne (hold k' hk) ..
  refine { h with unanswered := ?_, opened := ?_, opened_inj := ?_ }
  · intro co r' hrq hs hrep
    refine ⟨(h.unanswered co r' hrq hs hrep).1, fun k' hk => ?_⟩
    have he := hsame k' hk
    simp only [he] at hk ⊢
    exact (h.unanswered co r' hrq hs hrep).2 k' hk
  · intro k' hk
    have he := hsame k' hk
    simp only [he] at hk ⊢
    exact h.opened k' hk
  · intro k1 k2 hk1 hk2 he
    have he1 := hsame k1 hk1
    have he2 := hsame k2 hk2
    simp only [he1] at hk1 he
    simp only [he2] at hk2 he
    exact h.opened_inj k1 k2 hk1 hk2 he

end

/-! ### What a coroutine yields -/

theorem answered_self (s : Service) (co : ℕ) (co' : ℕ) (h : s.sessionResponse co' = true) :
    update s.sessionResponse co true co' = true := by
  by_cases hc : co' = co
  · simp [hc]
  · simpa [hc] using h

theorem ret (h : Replied s) (hrep : s.reported co = false) (outcome : Outcome) :
    Replied (s.ret co outcome) := by
  obtain ⟨-, answered, ha, ht⟩ | ⟨hs, r, sent, hrq, hsent, ht⟩ := ret_cases s co outcome
  · rw [ht]
    exact { h.mark ha with }
  · rw [ht]
    have hm : Replied { s with sessionResponse := update s.sessionResponse co true } :=
      h.mark (answered_self s co)
    rcases hsent with rfl | ⟨isError, rfl⟩
    · simpa using hm
    · obtain ⟨hnew, hclosed⟩ := h.unanswered co r hrq hs hrep
      refine hm.send (h.handled co r hrq) ⟨hnew, hclosed, fun co' r' hrq' he => .inl ?_⟩ isError
      rw [h.handled_inj co' co r' r hrq' hrq he]
      exact update_self ..

theorem raise (h : Replied s) (hun : Unanswered s co) : Replied (s.raise co) := by
  have hf : Replied { s with request := update s.request co none } :=
    h.forget co s.sessionResponse s.reported (fun _ _ => rfl) fun _ _ => rfl
  unfold Service.raise
  split
  next r hrq =>
    by_cases h0 : r.session = 0
    · rw [if_neg (not_not.2 h0)]
      exact { hf with }
    · rw [if_pos h0]
      obtain ⟨hs, hrep⟩ := hun r hrq h0
      obtain ⟨hnew, hclosed⟩ := h.unanswered co r hrq hs hrep
      refine { hf.send (h.handled co r hrq) ⟨hnew, hclosed, fun co' r' hrq' he => ?_⟩ true with }
      by_cases hne : co' = co
      · subst hne
        simp at hrq'
      · exact absurd (h.handled_inj co' co r' r (by simpa [hne] using hrq') hrq he) hne
  next => exact { hf with }

theorem newResponse (h : Replied s) (hrep : s.reported co = false)
    (hs : s.sessionResponse co = false) (hrq : s.request co = some r) :
    Replied { s with
      sessionResponse := update s.sessionResponse co true
      response := update s.response s.responses ⟨r, .ready⟩ } := by
  obtain ⟨hnew, hclosed⟩ := h.unanswered co r hrq hs hrep
  refine { h.mark (answered_self s co) with unanswered := ?_, opened := ?_, opened_inj := ?_ }
  · intro co' r' hrq' hs' hrep'
    have hne : co' ≠ co := by
      rintro rfl
      simp at hs'
    have hs' : s.sessionResponse co' = false := by simpa [hne] using hs'
    obtain ⟨h1, h2⟩ := h.unanswered co' r' hrq' hs' hrep'
    refine ⟨h1, fun k hk he => ?_⟩
    by_cases hx : k = s.responses
    · subst hx
      simp only [update_self] at he
      exact hne (h.handled_inj co' co r' r hrq' hrq he.symm)
    · simp only [update_of_ne hx] at hk he
      exact h2 k hk he
  · intro k hk
    by_cases hx : k = s.responses
    · subst hx
      simp only [update_self]
      exact ⟨h.handled co r hrq, hnew⟩
    · simp only [update_of_ne hx] at hk ⊢
      exact h.opened k hk
  · intro k k' hk hk' he
    by_cases hx : k = s.responses
    · by_cases hx' : k' = s.responses
      · rw [hx, hx']
      · subst hx
        simp only [update_of_ne hx', update_self] at hk' he
        exact absurd he.symm (hclosed k' hk')
    · by_cases hx' : k' = s.responses
      · subst hx'
        simp only [update_of_ne hx, update_self] at hk he
        exact absurd he (hclosed k hk)
      · simp only [update_of_ne hx, update_of_ne hx'] at hk hk' he
        exact h.opened_inj k k' hk hk' he

/-! ### The closures of `mtask.response` -/

theorem useResponse (h : Replied s) (hopen : (s.response k).state = .ready) (isError : Bool) :
    Replied (s.useResponse k isError) := by
  have hc : Replied { s with
      response := update s.response k ⟨(s.response k).request, .used⟩ } :=
    h.close k (s.response k).request .used (by simp)
  unfold Service.useResponse
  by_cases hdead : s.deadService (s.response k).request.source = true
  · simp only [hdead, if_true]
    exact { hc with }
  · simp only [hdead]
    obtain ⟨hr, hnew⟩ := h.opened k hopen
    refine { hc.send (r := (s.response k).request) hr ⟨hnew, ?_, ?_⟩ isError with }
    · intro k' hk' he
      have hne : k' ≠ k := by
        rintro rfl
        simp at hk'
      simp only [update_of_ne hne] at hk' he
      exact hne (h.opened_inj k' k hk' hopen he)
    · intro co r hrq he
      by_contra hno
      simp only [not_or, Bool.not_eq_true] at hno
      exact (h.unanswered co r hrq hno.1 hno.2).2 k hopen he.symm

theorem respond (h : Replied s) {answer : Answer} (ht : s.respond k answer = some t) :
    Replied t := by
  obtain ⟨-, rfl⟩ | ⟨-, -, rfl⟩ | ⟨-, -, rfl⟩ | ⟨-, hst, isError, rfl⟩ := respond_cases ht
  · exact h
  · exact { h.close k (s.response k).request .foundDead (by simp) with }
  · exact h.close k (s.response k).request .used (by simp)
  · exact h.useResponse hst isError

theorem rejectAll (h : Replied s) (l : List ℕ) : Replied (s.rejectAll l).1 := by
  induction l generalizing s with
  | nil => exact h
  | cons k l ih =>
    unfold Service.rejectAll
    split
    next t ht => exact ih (h.respond ht)
    next => exact h

/-- The first loop of `mtask.exit` answers the requests of all coroutines. -/
theorem report (h : Replied s) (hun : ∀ co, Unanswered s co) : Replied s.report := by
  -- those that are answered are marked first
  have hm : Replied { s with
      reported := fun co => s.reported co || (s.request co).any (·.session ≠ 0) } :=
    { h with
      unanswered := fun co r hrq hs hrep =>
        h.unanswered co r hrq hs (by simpa using (Bool.or_eq_false_iff.1 hrep).1) }
  have hmem : ∀ co reply, ((s.request co).bind fun r =>
      if r.session ≠ 0 then some (⟨r, true⟩ : Reply) else none) = some reply →
      s.request co = some reply.request ∧ reply.request.session ≠ 0 := fun co reply he => by
    obtain ⟨r, hrq, hr⟩ := Option.bind_eq_some_iff.1 he
    by_cases h0 : r.session = 0
    · simp [h0] at hr
    · rw [if_pos h0] at hr
      obtain rfl := Option.some.inj hr
      exact ⟨hrq, h0⟩
  refine { hm.sendAll (fun reply hr => ?_) ?_ with }
  · obtain ⟨co, -, he⟩ := mem_filterMap.1 hr
    obtain ⟨hrq, h0⟩ := hmem co reply he
    obtain ⟨hs, hrep⟩ := hun co reply.request hrq h0
    obtain ⟨hnew, hclosed⟩ := h.unanswered co reply.request hrq hs hrep
    refine ⟨h.handled co _ hrq, hnew, hclosed, fun co' r' hrq' he' => .inr ?_⟩
    rw [h.handled_inj co' co r' _ hrq' hrq he']
    simp [hrq, h0]
  · rw [map_filterMap]
    refine List.Nodup.filterMap (fun co co' n hn hn' => ?_) nodup_range
    obtain ⟨reply, he, rfl⟩ := Option.map_eq_some_iff.1 hn
    obtain ⟨reply', he', hnum⟩ := Option.map_eq_some_iff.1 hn'
    exact h.handled_inj co co' _ _ (hmem co reply he).1 (hmem co' reply' he').1 hnum.symm

/-! ### Every step -/

theorem act (h : Replied s) (hc : s.control = .running co frames) {action : Action}
    (hok : RepliesGuarded s (.act action)) (ht : s.act co frames action = .ok t) : Replied t := by
  obtain ⟨hraise, hrep, hexit⟩ := hok co frames hc
  cases action with
  | wakeup other =>
    cases ht
    unfold Service.wakeup
    split
    · exact { h with }
    · exact h
  | sleep => cases ht; exact { h with }
  | wait => cases ht; exact { h with }
  | genid => cases ht; exact { h with }
  | fork => cases ht; exact { h with }
  | timeout => cases ht; exact { h with }
  | call service => cases ht; exact { h with }
  | raise => cases ht; exact h.raise (hraise rfl)
  | finish =>
    cases ht
    exact { h.forget co _ _ (fun _ hne => update_of_ne hne ..)
      (fun _ hne => update_of_ne hne ..) with }
  | ret outcome => cases ht; exact h.ret (hrep (.inl ⟨outcome, rfl⟩)) outcome
  | newResponse =>
    cases ht
    obtain ⟨-, ht⟩ | ⟨hs, r, ref, hrq, -, ht⟩ := newResponse_cases s co
    · rw [ht]
      exact { h with }
    · rw [ht]
      exact { h.newResponse (hrep (.inr rfl)) hs hrq with }
  | respond k answer =>
    simp only [Service.act] at ht
    split at ht
    · cases ht
      cases hr : s.respond k answer with
      | none => exact h
      | some u => exact h.respond hr
    · cases ht
  | term service order =>
    obtain ⟨dead, queue, rfl⟩ := errorDispatch_frame ht
    exact { h with }
  | exit order =>
    have hreport := (h.report (hexit ⟨order, rfl⟩)).rejectAll order
    obtain rfl | rfl := exit_cases ht
    · exact hreport
    · exact { hreport with }

theorem resume (h : Replied s) {message : Option ℕ} (ht : s.resume co frames message = .ok t) :
    Replied t := by
  obtain ⟨-, rfl⟩ | ⟨session, untimed, -, rfl⟩ | ⟨session, -, rfl⟩ := resume_cases ht
  all_goals exact { h with }

theorem rawDispatchMessage (h : Replied s) (hw : WellFormed s) {message : Incoming}
    (ht : s.rawDispatchMessage message = .ok t) : Replied t := by
  cases message with
  | response session =>
    simp only [Service.rawDispatchMessage] at ht
    split at ht
    next co he =>
      have hc : Replied (s.clearEntry session) := { h with }
      exact hc.resume ht
    all_goals
      cases ht
      exact { h with }
  | unknown session source =>
    cases ht
    by_cases h0 : session = 0
    · rw [if_neg (not_not.2 h0)]
      exact { h.receive session source with }
    · rw [if_pos h0]
      exact { h.unknown session source true with }
  | undispatched session source =>
    cases ht
    exact { h.receive session source with }
  | request session source unpacks =>
    have hp := h.startHandler hw session source
    simp only [Service.rawDispatchMessage] at ht
    split at ht
    · exact hp.resume ht
    · cases ht
      exact { hp with }
  | error session source order =>
    have hp := h.startHandler hw session source
    simp only [Service.rawDispatchMessage] at ht
    split at ht
    next u hu =>
      cases ht
      obtain ⟨dead, queue, rfl⟩ := errorDispatch_frame hu
      exact { hp.forget s.newThread _ _ (fun _ hne => update_of_ne hne ..)
        (fun _ hne => update_of_ne hne ..) with }
    next => cases ht

theorem next (h : Replied s) (ht : s.next co = .ok t) : Replied t := by
  unfold Service.next at ht
  split at ht
  · unfold Service.dispatchWakeup at ht
    split at ht
    · cases ht
      exact { h with }
    · split at ht
      · split at ht
        next session hs =>
          have hb : Replied (s.breakSleep co session) := { h with }
          exact hb.resume ht
        · cases ht
          exact { h with }
      · cases ht
  · unfold Service.dispatchErrorQueue at ht
    split at ht
    · cases ht
      exact { h with }
    next session queue hq =>
      split at ht
      next co' he =>
        have hc : Replied ({ s with errorQueue := queue }.clearEntry session) := { h with }
        exact hc.resume ht
      · cases ht
        exact { h with }
  · unfold Service.dispatchFork at ht
    split at ht
    · cases ht
      exact { h with }
    · split at ht
      next hm =>
        have hf : Replied { s with forkQueue := s.forkQueue.erase co } := { h with }
        exact hf.resume ht
      · cases ht
  · cases ht

theorem step (h : Replied s) (hw : WellFormed s) {event : Event} (hok : RepliesGuarded s event)
    (ht : s.step event = .ok t) : Replied t := by
  cases event with
  | receive message =>
    simp only [Service.step] at ht
    split at ht
    · exact h.rawDispatchMessage hw ht
    · cases ht
  | next co => exact h.next ht
  | act action =>
    simp only [Service.step] at ht
    split at ht
    next co frames hc => exact h.act hc hok ht
    · cases ht

end Replied

/-- What every step keeps, as long as errors find requests that have not been answered. -/
structure Answering (s : Service) : Prop where
  wellFormed : WellFormed s
  replied : Replied s

theorem Answering.step (h : Answering s) {event : Event} (hok : RepliesGuarded s event)
    (ht : s.step event = .ok t) : Answering t :=
  ⟨h.wellFormed.step ht, h.replied.step h.wellFormed hok ht⟩

/-- Every request is answered once at most, and back to its source. -/
theorem replies_once (lastSession : ℕ)
    (h : Transition.Reaches step RepliesGuarded (start lastSession) s) : RepliesOnce s :=
  have hinv : Answering s := h.invariant ⟨.start lastSession, .start lastSession⟩
    fun _ _ _ hinv hok hs => hinv.step hok hs
  ⟨hinv.replied.once, hinv.replied.received⟩

/-- One request is answered by `mtask.ret`, and one by a closure, which another coroutine calls
after the coroutine of the request has ended. -/
theorem replies_once_two : ∃ s : Service, s.control = .idle ∧
    s.sent = [⟨⟨5, 7, 0⟩, false⟩, ⟨⟨6, 7, 1⟩, false⟩] ∧ RepliesOnce s := by
  have hok : ∀ {s : Service} {action : Action}, action ≠ .raise → (∀ order, action ≠ .exit order) →
      (∀ co, s.reported co = false) → RepliesGuarded s (.act action) := fun hr he hrep co _ _ =>
    ⟨fun h => absurd h hr, fun _ => hrep co, fun ⟨order, h⟩ => absurd h (he order)⟩
  have hrep : ∀ co co', update (fun _ : ℕ => false) co false co' = false := by
    intro co co'
    simp [update_apply]
  refine ⟨_, rfl, rfl, replies_once 1 (Transition.Permitted.reaches
    (l := [.receive (.request 5 7 true), .act (.ret .accepted), .act .sleep, .next 0, .next 0,
      .next 0, .receive (.request 6 7 true), .act .newResponse, .act .finish, .next 0, .next 0,
      .next 0, .receive (.response 2), .act (.respond 0 (.accept .accepted)), .act .finish,
      .next 0, .next 0, .next 0]) ?_ rfl)⟩
  refine .cons trivial rfl (.cons (hok nofun nofun fun _ => rfl) rfl
    (.cons (hok nofun nofun fun _ => rfl) rfl
    (.cons trivial rfl (.cons trivial rfl (.cons trivial rfl (.cons trivial rfl
    (.cons (hok nofun nofun fun _ => rfl) rfl (.cons (hok nofun nofun fun _ => rfl) rfl
    (.cons trivial rfl (.cons trivial rfl (.cons trivial rfl (.cons trivial rfl
    (.cons (hok nofun nofun (hrep 2)) rfl (.cons (hok nofun nofun (hrep 2)) rfl
    (.cons trivial rfl (.cons trivial rfl (.cons trivial rfl trivial)))))))))))))))))

/-- A handler answers its request and raises an error: the error exit answers it again. -/
theorem error_after_reply : ∃ s : Service,
    Transition.Reaches step (fun _ _ => True) (start 1) s ∧ s.control = .idle ∧
      s.sent = [⟨⟨5, 7, 0⟩, false⟩, ⟨⟨5, 7, 0⟩, true⟩] ∧ ¬ RepliesOnce s := by
  refine ⟨_, Transition.reaches_of_exec
    (l := [.receive (.request 5 7 true), .act (.ret .accepted), .act .raise, .next 0]) rfl
    (fun _ _ _ => trivial), rfl, rfl, fun h => ?_⟩
  have : ([0, 0] : List ℕ).Nodup := h.once
  simp at this

end Mtask.Lualib.Scheduler
