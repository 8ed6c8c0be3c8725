import Mathlib.Algebra.Group.Nat.Defs
import Mathlib.Data.List.AList
import Mathlib.Data.List.Perm.Basic
import Mtask.Lib.Transition

/-!
# The coroutines of a service

A service written in Lua runs one coroutine at a time. `mtask.dispatch_message` gives it a message:
`raw_dispatch_message` resumes the coroutine that the message is for, and `suspend` looks at what
the coroutine yields, then wakes the coroutines of `wakeup_session` and fails the calls of
`error_queue`, each of them inside another frame of `suspend`. The coroutines of `fork_queue` come
last. An error leaves all the frames at once.

Coroutines are numbered, and so are the closures of `mtask.response`. What a coroutine does between
two yields is a list of actions, any of them at any time; an error that it catches itself is no
action. The session counter is the one of the context, with 31 bits.
-/

namespace Mtask.Lualib.Scheduler

open Function (update)

/-- Where a coroutine is. -/
inductive Thread
  | absent
  /-- in `coroutine_pool` -/
  | pooled
  /-- made by `co_create`, and not started -/
  | created
  | running
  /-- in `mtask.sleep`, or in `mtask.wait`, which has no timer -/
  | sleeping (session : ℕ) (untimed : Bool)
  /-- in `yield_call` -/
  | calling (session : ℕ)
  /-- at the end of `mtask.exit` -/
  | quit
  /-- in a yield that raised an error in `suspend`, or not started for an error; nothing resumes
  it -/
  | lost
  | dead
  deriving DecidableEq, Repr

/-- The coroutine has begun, or will, and has not ended. -/
def Thread.live : Thread → Bool
  | created | running | sleeping _ _ | calling _ | quit => true
  | absent | pooled | lost | dead => false

/-- An entry of `session_id_coroutine`. -/
inductive Waiter
  | coroutine (co : ℕ)
  /-- `"BREAK"` -/
  | broken
  deriving DecidableEq, Repr

/-- Where `dispatch_message` is; `frames` counts the frames of `suspend` around the innermost one,
which have not called `dispatch_error_queue` yet. -/
inductive Control
  | idle
  | running (co frames : ℕ)
  /-- at `dispatch_wakeup` -/
  | wakeup (frames : ℕ)
  /-- at `dispatch_error_queue` -/
  | errorQueue (frames : ℕ)
  /-- in the loop over `fork_queue` -/
  | forks
  deriving DecidableEq, Repr

/-- A request that a coroutine handles: the entries of the coroutine in `session_coroutine_id` and
`session_coroutine_address`, which are set and cleared together. `number` is history. -/
structure Request where
  session : ℕ
  source : ℕ
  number : ℕ
  deriving DecidableEq, Repr

/-- The variable `f` of a closure of `mtask.response`: a function, `false` or `nil`. -/
inductive ResponseState
  | ready
  | foundDead
  | used
  deriving DecidableEq, Repr

/-- A closure of `mtask.response`. -/
structure Response where
  request : Request
  state : ResponseState
  deriving DecidableEq, Repr

/-- A message of type `PTYPE_RESPONSE` or `PTYPE_ERROR` to the source of a request. -/
structure Reply where
  request : Request
  isError : Bool
  deriving DecidableEq, Repr

/-- The variables of `mtask.lua`. `lastSession` is the counter of the context, `threads` and
`responses` count the coroutines and the closures made so far. A coroutine is in `sessionResponse`
once it has called `mtask.ret` or `mtask.response`.

The last fields are history: how often a coroutine has gone to sleep, the sleeps in which it was
woken by `mtask.wakeup` and those that ended with `"BREAK"`; the sessions of the calls that began,
and of those that ended, with the session of the response; the requests that came, the replies, and
the coroutines whose present request `mtask.exit` has answered. -/
structure Service where
  control : Control
  thread : ℕ → Thread
  threads : ℕ
  coroutinePool : List ℕ
  forkQueue : List ℕ
  lastSession : ℕ
  sessionIdCoroutine : ℕ → Option Waiter
  sleepSession : ℕ → Option ℕ
  wakeupSession : List ℕ
  watchingSession : AList fun _ : ℕ => ℕ
  errorQueue : List ℕ
  request : ℕ → Option Request
  sessionResponse : ℕ → Bool
  response : ℕ → Response
  responses : ℕ
  unresponse : List ℕ
  watchingService : ℕ → Option ℕ
  deadService : ℕ → Bool
  sleeps : ℕ → ℕ
  woken : List (ℕ × ℕ)
  broken : List (ℕ × ℕ)
  called : List ℕ
  ended : List (ℕ × Option ℕ)
  received : List (ℕ × ℕ)
  sent : List Reply
  reported : ℕ → Bool

/-- A message, and what becomes of it. -/
inductive Incoming
  /-- `PTYPE_RESPONSE` -/
  | response (session : ℕ)
  | unknown (session source : ℕ)
  | undispatched (session source : ℕ)
  /-- a protocol with one; `p.unpack` may raise an error -/
  | request (session source : ℕ) (unpacks : Bool)
  /-- `PTYPE_ERROR`; `order` is the order in which `pairs` finds the calls to a dead service -/
  | error (session source : ℕ) (order : List ℕ)
  deriving DecidableEq, Repr

/-- What `c.send` does with a package: it may refuse one that is too large, and raises an error for
an argument that it cannot send. -/
inductive Outcome
  | accepted
  | refused
  | raised
  deriving DecidableEq, Repr

/-- The arguments of a closure of `mtask.response`, and what comes of them. -/
inductive Answer
  /-- `"TEST"` -/
  | test
  /-- `ok` is false -/
  | reject
  /-- `ok` is true; an error may be raised by the packing function, too -/
  | accept (outcome : Outcome)
  deriving DecidableEq, Repr

/-- An action of the coroutine that runs. -/
inductive Action
  | genid
  | wakeup (co : ℕ)
  | fork
  | timeout
  | sleep
  | wait
  /-- `mtask.call` or `mtask.rawcall`, when the request could be sent -/
  | call (service : ℕ)
  /-- `mtask.ret` -/
  | ret (outcome : Outcome)
  /-- `mtask.response` -/
  | newResponse
  /-- a closure of `mtask.response` is called -/
  | respond (k : ℕ) (answer : Answer)
  /-- `mtask.term` -/
  | term (service : ℕ) (order : List ℕ)
  | raise
  | finish
  /-- `mtask.exit`; `order` is the order in which `pairs` finds the closures -/
  | exit (order : List ℕ)
  deriving DecidableEq, Repr

/-- A step: a message is dispatched, the dispatcher goes on, or the coroutine that runs does. `next`
has the coroutine that the function of that name finds in a table. -/
inductive Event
  | receive (message : Incoming)
  | next (co : ℕ)
  | act (action : Action)
  deriving DecidableEq, Repr

inductive Fault
  | notEnabled
  | notSuspended
  deriving DecidableEq, Repr

namespace Service

/-- A service after `mtask.start`: the timer of its first coroutine is set. -/
def start (lastSession : ℕ) : Service where
  control := .idle
  thread := update (fun _ => .absent) 0 .created
  threads := 1
  coroutinePool := []
  forkQueue := []
  lastSession := lastSession
  sessionIdCoroutine := update (fun _ => none) lastSession (some (.coroutine 0))
  sleepSession := fun _ => none
  wakeupSession := []
  watchingSession := ∅
  errorQueue := []
  request := fun _ => none
  sessionResponse := fun _ => false
  response := fun _ => ⟨⟨0, 0, 0⟩, .used⟩
  responses := 0
  unresponse := []
  watchingService := fun _ => none
  deadService := fun _ => false
  sleeps := fun _ => 0
  woken := []
  broken := []
  called := []
  ended := []
  received := []
  sent := []
  reported := fun _ => false

/-! ### Sessions and coroutines -/

/-- The session that `mtask_context_newsession` gives next. -/
def newSession (s : Service) : ℕ := if s.lastSession + 1 < 2 ^ 31 then s.lastSession + 1 else 1

/-- `mtask.genid` -/
def genid (s : Service) : Service := { s with lastSession := s.newSession }

/-- The coroutine that `co_create` gives. -/
def newThread (s : Service) : ℕ := s.coroutinePool.head?.getD s.threads

/-- `co_create`: the last coroutine of the pool, or a new one. -/
def coCreate (s : Service) : Service :=
  { s with
    coroutinePool := s.coroutinePool.tail
    threads := if s.coroutinePool = [] then s.threads + 1 else s.threads
    thread := update s.thread s.newThread .created }

/-- The entry of a session in `session_id_coroutine` is taken. -/
def clearEntry (s : Service) (session : ℕ) : Service :=
  { s with sessionIdCoroutine := update s.sessionIdCoroutine session none }

/-- `coroutine.resume`, up to the place where the function that yielded returns. `message` is the
session of the response that resumes the coroutine, if one does. -/
def resume (s : Service) (co frames : ℕ) (message : Option ℕ) : Except Fault Service :=
  let t := { s with
    control := .running co frames
    thread := update s.thread co .running }
  match s.thread co with
  | .created => .ok t
  | .sleeping session untimed =>
    .ok { t with
      sleepSession := update s.sleepSession co none
      sessionIdCoroutine :=
        if untimed then update s.sessionIdCoroutine session none
        else s.sessionIdCoroutine }
  | .calling session =>
    .ok { t with
      watchingSession := s.watchingSession.erase session
      ended := s.ended ++ [(session, message)] }
  | _ => .error .notSuspended

/-- `suspend` raises an error after the coroutine has yielded. -/
def lose (s : Service) (co : ℕ) : Service :=
  { s with control := .forks, thread := update s.thread co .lost }

/-- `release_watching`, on the table `watching_service` -/
def releaseWatching (watching : ℕ → Option ℕ) (address : ℕ) : ℕ → Option ℕ :=
  match watching address with
  | some ref =>
    update watching address (if ref - 1 > 0 then some (ref - 1) else none)
  | none => watching

/-- `_error_dispatch`. The mark of a dead service is never taken back. -/
def errorDispatch (s : Service) (session source : ℕ) (order : List ℕ) : Except Fault Service :=
  if session = 0 then
    if order.Perm ((s.watchingSession.entries.filter (·.2 = source)).map (·.1)) then
      .ok { s with
        deadService :=
          if (s.watchingService source).isSome then update s.deadService source true
          else s.deadService
        errorQueue := s.errorQueue ++ order }
    else .error .notEnabled
  else if (s.watchingSession.lookup session).isSome then
    .ok { s with errorQueue := s.errorQueue ++ [session] }
  else .ok s

/-! ### What a coroutine yields -/

/-- `"CALL"`, from `yield_call` -/
def call (s : Service) (co frames service : ℕ) : Service :=
  { s.genid with
    control := .wakeup frames
    thread := update s.thread co (.calling s.newSession)
    watchingSession := s.watchingSession.insert s.newSession service
    sessionIdCoroutine :=
      update s.sessionIdCoroutine s.newSession (some (.coroutine co))
    called := s.called ++ [s.newSession] }

/-- `"SLEEP"`, from `mtask.sleep` or `mtask.wait` -/
def sleep (s : Service) (co frames : ℕ) (untimed : Bool) : Service :=
  { s.genid with
    control := .wakeup frames
    thread := update s.thread co (.sleeping s.newSession untimed)
    sessionIdCoroutine :=
      update s.sessionIdCoroutine s.newSession (some (.coroutine co))
    sleepSession := update s.sleepSession co (some s.newSession)
    sleeps := update s.sleeps co (s.sleeps co + 1) }

/-- `"RETURN"`. Where the coroutine handles no request, `c.send` raises an error for want of an
address. A package that is refused is followed by an error. -/
def ret (s : Service) (co : ℕ) (outcome : Outcome) : Service :=
  if s.sessionResponse co then s.lose co
  else
    let t := { s with sessionResponse := update s.sessionResponse co true }
    match s.request co with
    | some r =>
      if s.deadService r.source then t
      else if outcome = .raised then t.lose co
      else { t with sent := s.sent ++ [⟨r, outcome = .refused⟩] }
    | none => t.lose co

/-- `"RESPONSE"`. A count that is `nil` cannot be raised. -/
def newResponse (s : Service) (co : ℕ) : Service :=
  if s.sessionResponse co then s.lose co
  else
    match s.request co with
    | some r =>
      match s.watchingService r.source with
      | some ref =>
        { s with
          watchingService := update s.watchingService r.source (some (ref + 1))
          sessionResponse := update s.sessionResponse co true
          response := update s.response s.responses ⟨r, .ready⟩
          responses := s.responses + 1
          unresponse := s.unresponse ++ [s.responses] }
      | none => s.lose co
    | none => s.lose co

/-- `"EXIT"`: the coroutine goes back to the pool. -/
def finish (s : Service) (co frames : ℕ) : Service :=
  { s with
    control := .wakeup frames
    thread := update s.thread co .pooled
    coroutinePool := co :: s.coroutinePool
    watchingService := match s.request co with
      | some r => releaseWatching s.watchingService r.source
      | none => s.watchingService
    request := update s.request co none
    sessionResponse := update s.sessionResponse co false
    reported := update s.reported co false }

/-- The error exit: the caller is told, and the frames are left. -/
def raise (s : Service) (co : ℕ) : Service :=
  { s with
    control := .forks
    thread := update s.thread co .dead
    sent := match s.request co with
      | some r => if r.session ≠ 0 then s.sent ++ [⟨r, true⟩] else s.sent
      | none => s.sent
    request := update s.request co none }

/-! ### The closures of `mtask.response` -/

/-- The end of `response`: a reply is sent unless the service is dead. -/
def useResponse (s : Service) (k : ℕ) (isError : Bool) : Service :=
  let r := (s.response k).request
  { s with
    watchingService := releaseWatching s.watchingService r.source
    sent := if s.deadService r.source then s.sent else s.sent ++ [⟨r, isError⟩]
    unresponse := s.unresponse.erase k
    response := update s.response k ⟨r, .used⟩ }

/-- `response`; `none` is an error raised in the coroutine that calls it. -/
def respond (s : Service) (k : ℕ) (answer : Answer) : Option Service :=
  let r := (s.response k).request
  match answer, (s.response k).state with
  | .test, _ =>
    if s.deadService r.source then
      some { s with
        watchingService := releaseWatching s.watchingService r.source
        response := update s.response k ⟨r, .foundDead⟩ }
    else some s
  | _, .used => none
  | _, .foundDead => some { s with response := update s.response k ⟨r, .used⟩ }
  | .accept outcome, .ready =>
    -- nothing is packed or sent for a service that is dead
    if outcome = .raised ∧ s.deadService r.source = false then none
    else some (s.useResponse k (outcome = .refused))
  | .reject, .ready => some (s.useResponse k true)

/-- `resp(false)` for the closures of a list; whether none of them raised an error. -/
def rejectAll : Service → List ℕ → Service × Bool
  | s, [] => (s, true)
  | s, k :: l =>
    match s.respond k .reject with
    | some t => t.rejectAll l
    | none => (s, false)

/-! ### The end of the service -/

/-- The dispatcher after a frame of `suspend` has returned. -/
def returned : ℕ → Control
  | 0 => .forks
  | frames + 1 => .errorQueue frames

/-- The first loop of `mtask.exit`. -/
def report (s : Service) : Service :=
  { s with
    forkQueue := []
    sent := s.sent ++ (List.range s.threads).filterMap fun co =>
      (s.request co).bind fun r => if r.session ≠ 0 then some ⟨r, true⟩ else none
    reported := fun co => s.reported co || (s.request co).any (·.session ≠ 0) }

/-- `mtask.exit`, up to the yield of `"QUIT"`, after which `suspend` returns at once. Messages that
the worker has taken from the queue with this one may still follow. -/
def exit (s : Service) (co frames : ℕ) (order : List ℕ) : Except Fault Service :=
  if order.Perm s.unresponse then
    let (t, ok) := s.report.rejectAll order
    if ok then
      .ok { t with control := returned frames, thread := update t.thread co .quit }
    else .ok t
  else .error .notEnabled

/-! ### The other actions -/

/-- `mtask.wakeup` -/
def wakeup (s : Service) (co : ℕ) : Service :=
  if s.sleepSession co ≠ none ∧ co ∉ s.wakeupSession then
    { s with
      wakeupSession := s.wakeupSession ++ [co]
      woken := s.woken ++ [(co, s.sleeps co)] }
  else s

/-- `mtask.fork` -/
def fork (s : Service) : Service := { s.coCreate with forkQueue := s.forkQueue ++ [s.newThread] }

/-- `mtask.timeout`; its assertion fails in the coroutine that calls it. -/
def timeout (s : Service) : Service :=
  let t := s.genid.coCreate
  { t with
    thread :=
      if s.sessionIdCoroutine s.newSession = none then t.thread
      else update t.thread s.newThread .lost
    sessionIdCoroutine :=
      if s.sessionIdCoroutine s.newSession = none then
        update s.sessionIdCoroutine s.newSession (some (.coroutine s.newThread))
      else s.sessionIdCoroutine }

/-- An action of the coroutine that runs. -/
def act (s : Service) (co frames : ℕ) : Action → Except Fault Service
  | .genid => .ok s.genid
  | .wakeup other => .ok (s.wakeup other)
  | .fork => .ok s.fork
  | .timeout => .ok s.timeout
  | .sleep => .ok (s.sleep co frames false)
  | .wait => .ok (s.sleep co frames true)
  | .call service => .ok (s.call co frames service)
  | .ret outcome => .ok (s.ret co outcome)
  | .newResponse => .ok (s.newResponse co)
  | .respond k answer =>
    if k < s.responses then .ok ((s.respond k answer).getD s) else .error .notEnabled
  | .term service order => s.errorDispatch 0 service order
  | .raise => .ok (s.raise co)
  | .finish => .ok (s.finish co frames)
  | .exit order => s.exit co frames order

/-! ### The dispatcher -/

/-- A coroutine for a request, with the count of its source raised. -/
def startHandler (s : Service) (session source : ℕ) : Service :=
  { s.coCreate with
    watchingService := update s.watchingService source
      (some ((s.watchingService source).getD 0 + 1))
    request := update s.request s.newThread (some ⟨session, source, s.received.length⟩)
    received := s.received ++ [(session, source)] }

/-- `raw_dispatch_message` -/
def rawDispatchMessage (s : Service) : Incoming → Except Fault Service
  | .response session =>
    match s.sessionIdCoroutine session with
    | some (.coroutine co) => (s.clearEntry session).resume co 0 (some session)
    | some .broken => .ok { s.clearEntry session with control := .forks }
    -- `unknown_response` raises an error
    | none => .ok { s with control := .forks }
  | .unknown session source =>
    .ok { s with
      control := .forks
      received := s.received ++ [(session, source)]
      sent :=
        if session ≠ 0 then s.sent ++ [⟨⟨session, source, s.received.length⟩, true⟩] else s.sent }
  -- `unknown_request` raises an error
  | .undispatched session source =>
    .ok { s with control := .forks, received := s.received ++ [(session, source)] }
  | .request session source unpacks =>
    if unpacks then (s.startHandler session source).resume s.newThread 0 none
    else .ok ((s.startHandler session source).lose s.newThread)
  | .error session source order =>
    match (s.startHandler session source).errorDispatch session source order with
    | .ok t => .ok (t.finish s.newThread 0)
    | .error e => .error e

/-- The entry of a coroutine in `wakeup_session` is taken, and its sleep marked. -/
def breakSleep (s : Service) (co session : ℕ) : Service :=
  { s with
    wakeupSession := s.wakeupSession.erase co
    sessionIdCoroutine := update s.sessionIdCoroutine session (some .broken)
    broken := s.broken ++ [(co, s.sleeps co)] }

/-- `dispatch_wakeup`, where `next(wakeup_session)` is `co`. -/
def dispatchWakeup (s : Service) (co frames : ℕ) : Except Fault Service :=
  if s.wakeupSession = [] then .ok { s with control := .errorQueue frames }
  else if co ∈ s.wakeupSession then
    match s.sleepSession co with
    | some session => (s.breakSleep co session).resume co (frames + 1) none
    | none =>
      .ok { s with control := .errorQueue frames, wakeupSession := s.wakeupSession.erase co }
  else .error .notEnabled

/-- `dispatch_error_queue` -/
def dispatchErrorQueue (s : Service) (frames : ℕ) : Except Fault Service :=
  match s.errorQueue with
  | [] => .ok { s with control := returned frames }
  | session :: queue =>
    match s.sessionIdCoroutine session with
    | some (.coroutine co) =>
      ({ s with errorQueue := queue }.clearEntry session).resume co frames none
    -- there is nothing that `coroutine.resume` could resume
    | _ => .ok { s.clearEntry session with control := .forks, errorQueue := queue }

/-- The loop over `fork_queue`, where `next(fork_queue)` gives `co`. -/
def dispatchFork (s : Service) (co : ℕ) : Except Fault Service :=
  if s.forkQueue = [] then .ok { s with control := .idle }
  else if co ∈ s.forkQueue then
    { s with forkQueue := s.forkQueue.erase co }.resume co 0 none
  else .error .notEnabled

/-- The dispatcher goes on. -/
def next (s : Service) (co : ℕ) : Except Fault Service :=
  match s.control with
  | .wakeup frames => s.dispatchWakeup co frames
  | .errorQueue frames => s.dispatchErrorQueue frames
  | .forks => s.dispatchFork co
  | _ => .error .notEnabled

/-- One step of the service. -/
def step (s : Service) : Event → Except Fault Service
  | .receive message =>
    if s.control = .idle then s.rawDispatchMessage message else .error .notEnabled
  | .next co => s.next co
  | .act action =>
    match s.control with
    | .running co frames => s.act co frames action
    | _ => .error .notEnabled

/-! ### What a step can do -/

variable {s t : Service} {co frames k : ℕ}

/-- The actions in which an error reaches the dispatcher. -/
def Fails (s : Service) (co : ℕ) : Action → Prop
  | .raise => True
  | .ret outcome =>
    s.sessionResponse co = true ∨
      ∀ r, s.request co = some r → s.deadService r.source = false ∧ outcome = .raised
  | .newResponse =>
    s.sessionResponse co = true ∨ ∀ r, s.request co = some r → s.watchingService r.source = none
  | _ => False

theorem resume_cases {message : Option ℕ} (ht : s.resume co frames message = .ok t) :
    (s.thread co = .created ∧
      t = { s with
        control := .running co frames
        thread := update s.thread co .running }) ∨
    (∃ session untimed, s.thread co = .sleeping session untimed ∧
      t = { s with
        control := .running co frames
        thread := update s.thread co .running
        sleepSession := update s.sleepSession co none
        sessionIdCoroutine :=
          if untimed then update s.sessionIdCoroutine session none
          else s.sessionIdCoroutine }) ∨
    (∃ session, s.thread co = .calling session ∧
      t = { s with
        control := .running co frames
        thread := update s.thread co .running
        watchingSession := s.watchingSession.erase session
        ended := s.ended ++ [(session, message)] }) := by
  unfold resume at ht
  split at ht
  next hco =>
    cases ht
    exact .inl ⟨hco, rfl⟩
  next session untimed hco =>
    cases ht
    exact .inr (.inl ⟨session, untimed, hco, rfl⟩)
  next session hco =>
    cases ht
    exact .inr (.inr ⟨session, hco, rfl⟩)
  next => cases ht

theorem errorDispatch_frame {session source : ℕ} {order : List ℕ}
    (ht : s.errorDispatch session source order = .ok t) :
    ∃ dead queue, t = { s with deadService := dead, errorQueue := queue } := by
  unfold errorDispatch at ht
  split at ht
  · split at ht
    · cases ht
      exact ⟨_, _, rfl⟩
    · cases ht
  · split at ht
    · cases ht
      exact ⟨_, _, rfl⟩
    · cases ht
      exact ⟨_, _, rfl⟩

theorem ret_cases (s : Service) (co : ℕ) (outcome : Outcome) :
    (s.Fails co (.ret outcome) ∧ ∃ answered,
      (∀ co', s.sessionResponse co' = true → answered co' = true) ∧
      s.ret co outcome = { s.lose co with sessionResponse := answered }) ∨
    (s.sessionResponse co = false ∧ ∃ r sent, s.request co = some r ∧
      (sent = [] ∨ ∃ isError, sent = [⟨r, isError⟩]) ∧
      s.ret co outcome = { s with
        sessionResponse := update s.sessionResponse co true
        sent := s.sent ++ sent }) := by
  have hans : ∀ co', s.sessionResponse co' = true →
      update s.sessionResponse co true co' = true := fun co' h => by
    by_cases hc : co' = co
    · simp [hc]
    · simpa [hc] using h
  unfold ret
  split
  next ha => exact .inl ⟨.inl ha, _, fun _ h => h, rfl⟩
  next ha =>
    split
    next r hr =>
      split
      next => exact .inr ⟨by simpa using ha, r, [], hr, .inl rfl, by simp⟩
      next hd =>
        split
        next ho => exact .inl ⟨.inr (by simp [hr, ho, hd]), _, hans, rfl⟩
        next => exact .inr ⟨by simpa using ha, r, _, hr, .inr ⟨_, rfl⟩, rfl⟩
    next hr => exact .inl ⟨.inr (by simp [hr]), _, hans, rfl⟩

theorem newResponse_cases (s : Service) (co : ℕ) :
    (s.Fails co .newResponse ∧ s.newResponse co = s.lose co) ∨
    (s.sessionResponse co = false ∧ ∃ r ref, s.request co = some r ∧
      s.watchingService r.source = some ref ∧
      s.newResponse co = { s with
        watchingService := update s.watchingService r.source (some (ref + 1))
        sessionResponse := update s.sessionResponse co true
        response := update s.response s.responses ⟨r, .ready⟩
        responses := s.responses + 1
        unresponse := s.unresponse ++ [s.responses] }) := by
  unfold newResponse
  split
  next ha => exact .inl ⟨.inl ha, rfl⟩
  next ha =>
    split
    next r hr =>
      split
      next ref hw => exact .inr ⟨by simpa using ha, r, ref, hr, hw, rfl⟩
      next hw => exact .inl ⟨.inr (by simp [hr, hw]), rfl⟩
    next hr => exact .inl ⟨.inr (by simp [hr]), rfl⟩

/-- What a closure of `mtask.response` does, if it raises no error. -/
theorem respond_cases {answer : Answer} (ht : s.respond k answer = some t) :
    (answer = .test ∧ t = s) ∨
    (answer = .test ∧ s.deadService (s.response k).request.source = true ∧
      t = { s with
        watchingService := releaseWatching s.watchingService (s.response k).request.source
        response := update s.response k ⟨(s.response k).request, .foundDead⟩ }) ∨
    (answer ≠ .test ∧ (s.response k).state = .foundDead ∧
      t = { s with response := update s.response k ⟨(s.response k).request, .used⟩ }) ∨
    (answer ≠ .test ∧ (s.response k).state = .ready ∧ ∃ isError, t = s.useResponse k isError) := by
  simp only [respond] at ht
  split at ht
  · split at ht
    next hdead => exact .inr (.inl ⟨rfl, hdead, (Option.some.inj ht).symm⟩)
    next => exact .inl ⟨rfl, (Option.some.inj ht).symm⟩
  · cases ht
  next hne hst => exact .inr (.inr (.inl ⟨hne, hst, (Option.some.inj ht).symm⟩))
  next hst =>
    split at ht
    next => cases ht
    next => exact .inr (.inr (.inr ⟨by simp, hst, _, (Option.some.inj ht).symm⟩))
  next hst => exact .inr (.inr (.inr ⟨by simp, hst, _, (Option.some.inj ht).symm⟩))

theorem respond_frame {answer : Answer} (ht : s.respond k answer = some t) :
    ∃ watching sent unresponse response, t = { s with
      watchingService := watching, sent := sent, unresponse := unresponse
      response := response } := by
  obtain ⟨-, rfl⟩ | ⟨-, -, rfl⟩ | ⟨-, -, rfl⟩ | ⟨-, -, isError, rfl⟩ := respond_cases ht
  all_goals exact ⟨_, _, _, _, rfl⟩

theorem rejectAll_frame (s : Service) (l : List ℕ) :
    ∃ watching sent unresponse response, (s.rejectAll l).1 = { s with
      watchingService := watching, sent := sent, unresponse := unresponse
      response := response } := by
  induction l generalizing s with
  | nil => exact ⟨_, _, _, _, rfl⟩
  | cons k l ih =>
    unfold rejectAll
    split
    next t ht =>
      obtain ⟨watching, sent, unresponse, response, rfl⟩ := respond_frame ht
      obtain ⟨watching', sent', unresponse', response', h⟩ := ih _
      exact ⟨_, _, _, _, h⟩
    next => exact ⟨_, _, _, _, rfl⟩

/-- `mtask.exit` raises an error in the coroutine that calls it, or ends the coroutine. -/
theorem exit_cases {order : List ℕ} (ht : s.exit co frames order = .ok t) :
    t = (s.report.rejectAll order).1 ∨
      t = { (s.report.rejectAll order).1 with
        control := returned frames
        thread := update (s.report.rejectAll order).1.thread co .quit } := by
  simp only [exit] at ht
  split at ht
  · split at ht
    next =>
      cases ht
      exact .inr rfl
    next =>
      cases ht
      exact .inl rfl
  · cases ht

theorem returned_ne_running (frames co frames' : ℕ) : returned frames ≠ .running co frames' := by
  cases frames with
  | zero => exact fun h => nomatch h
  | succ frames => exact fun h => nomatch h

end Service

end Mtask.Lualib.Scheduler
