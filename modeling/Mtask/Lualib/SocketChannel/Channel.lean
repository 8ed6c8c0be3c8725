import Mathlib.Data.List.Basic
import Mtask.Lib.Transition

/-!
# A socket channel

A channel sends the requests of many coroutines over one connection and gives each of them its
reply. A coroutine that wants a reply puts itself into `__thread` and waits; a dispatcher, which
`connect_once` forks for every connection, reads the replies and wakes the coroutines. In order mode
`__request` has a function for every coroutine of `__thread`, which reads its reply; in session mode
the function `__response` reads every reply, which carries a session.

A step is what a coroutine does between two yields. Connections and the waits of the coroutines are
numbered. What a function that reads a reply returns is part of the label, and so is whether a
socket could be written to or opened.
-/

namespace Mtask.Lualib.SocketChannel

open Function (update)

/-- An entry of `__result`. -/
inductive Result
  | socketError
  | value (ok : Bool)
  deriving DecidableEq, Repr

/-- An entry of `__result_data`: what a reply has, the parts of a reply, or an error message. -/
inductive Data (δ ε : Type*)
  | single (data : δ)
  | parts (list : List δ)
  | message (message : ε)
  deriving DecidableEq, Repr

/-- What a function that reads a reply returns; in order mode there is no session. -/
structure Reply (σ δ : Type*) where
  session : Option σ
  ok : Bool
  data : δ
  padding : Bool
  deriving DecidableEq, Repr

/-- Another part follows this one. -/
def Reply.isPart {σ δ : Type*} (r : Reply σ δ) : Bool := r.padding && r.ok

/-- A coroutine of `__thread`, with the session it waits for, or its function in `__request`.
`number` and `connection` are history: the wait it is, and the connection that `__sock` was then. -/
structure Entry (κ σ : Type*) where
  number : ℕ
  co : κ
  response : σ
  connection : ℕ
  deriving DecidableEq, Repr

/-- Where a dispatcher is. In order mode it has taken a coroutine out of `__thread` when it reads.
-/
inductive Dispatcher (κ σ ε : Type*)
  | absent
  | forked
  | reading (connection : ℕ) (waiter : Option (Entry κ σ))
  /-- in `socket.block` -/
  | blocked (connection : ℕ)
  /-- in `close_channel_socket`, before it wakes the coroutines -/
  | failing (waiter : Option (Entry κ σ)) (message : Option ε)
  | ended

/-- Where a coroutine is. -/
inductive Caller
  | outside
  /-- in `wait_for_response` -/
  | waiting (number : ℕ)
  /-- the same, and `mtask.wakeup` has been called -/
  | woken (number : ℕ)
  /-- in `close_channel_socket`, since its request could not be written -/
  | failing
  deriving DecidableEq, Repr

/-- `mtask.wakeup` -/
def Caller.wake : Caller → Caller
  | waiting number => woken number
  | caller => caller

/-- Where the coroutine is that connects the channel. -/
inductive Phase
  | opening
  /-- in `__auth` -/
  | authenticating
  deriving DecidableEq, Repr

/-- The variables of a channel. `bySession` says that `__response` is given and `auth` that `__auth`
is; `sock` has the number of the connection; `thread` stands for `__thread`, and in order mode for
`__request`, which is changed together with it; `connecting` has the coroutine of `__connecting`.

The last fields are history: how often a coroutine has waited, with the number of replies read
before; the replies; what the waits returned; and for every dispatcher the connections that it has
read from, those of the coroutines it has taken or woken, and those it has closed. -/
structure Channel (κ σ δ ε : Type*) where
  bySession : Bool
  auth : Bool
  sock : Option ℕ
  closed : Bool
  connecting : Option (κ × Phase)
  thread : List (Entry κ σ)
  result : κ → Option Result
  resultData : κ → Option (Data δ ε)
  dispatcher : ℕ → Dispatcher κ σ ε
  caller : κ → Caller
  connections : ℕ
  waits : List (κ × σ × ℕ)
  stream : List (Reply σ δ)
  got : List (ℕ × Option Result × Option (Data δ ε))
  reads : List (ℕ × ℕ)
  taken : List (ℕ × ℕ)
  closes : List (ℕ × ℕ)

/-- What `socket.open` comes to, in `connect_once` with its backups. -/
inductive Opened
  | established
  /-- it failed, and `try_connect` tries once more -/
  | again
  | failed
  deriving DecidableEq, Repr

/-- What comes of the function that reads a reply. The message of an error is none for the error of
the socket. -/
inductive Outcome (σ δ ε : Type*)
  | reply (reply : Reply σ δ)
  | raised (message : Option ε)

/-- A step. -/
inductive Event (κ σ δ ε : Type*)
  /-- a coroutine comes to connect the channel, in `block_connect` -/
  | connect (co : κ)
  | opened (result : Opened)
  /-- the end of `__auth` -/
  | authenticated (ok again : Bool)
  /-- `channel:connect` on a closed channel -/
  | reopen
  /-- `channel:request`, with a response -/
  | request (co : κ) (response : σ) (written : Bool)
  /-- `channel:request` without one -/
  | send (co : κ) (written : Bool)
  /-- `channel:response` -/
  | response (co : κ) (response : σ)
  /-- `channel:close` -/
  | close
  | changehost
  | start (d : ℕ)
  | read (d : ℕ) (outcome : Outcome σ δ ε)
  /-- `socket.block` returns -/
  | block (d : ℕ) (connected : Bool)
  /-- `socket.close` returns in a dispatcher -/
  | dispatcherClosed (d : ℕ)
  /-- `socket.close` returns in a coroutine that could not write -/
  | callerClosed (co : κ)
  | resume (co : κ)

inductive Fault
  | notEnabled
  deriving DecidableEq, Repr

namespace Channel

variable {κ σ δ ε : Type*} [DecidableEq κ] [DecidableEq σ]

/-- `socket_channel.channel` -/
def new (bySession auth : Bool) : Channel κ σ δ ε where
  bySession := bySession
  auth := auth
  sock := none
  closed := false
  connecting := none
  thread := []
  result := fun _ => none
  resultData := fun _ => none
  dispatcher := fun _ => .absent
  caller := fun _ => .outside
  connections := 0
  waits := []
  stream := []
  got := []
  reads := []
  taken := []
  closes := []

/-- `wakeup_all` for the coroutines of a list: they get an error, and `__thread` is emptied. -/
def wakeupAll (s : Channel κ σ δ ε) (entries : List (Entry κ σ)) (message : Option ε) :
    Channel κ σ δ ε :=
  { s with
    thread := []
    result := fun co =>
      if entries.any (·.co = co) then some .socketError else s.result co
    resultData := fun co =>
      if entries.any (·.co = co) then message.map .message else s.resultData co
    caller := fun co => if entries.any (·.co = co) then (s.caller co).wake else s.caller co }

/-! ### The dispatcher -/

/-- The loop of a dispatcher, from its head to the next yield. -/
def loop (s : Channel κ σ δ ε) (d : ℕ) : Channel κ σ δ ε :=
  match s.sock with
  | none => { s with dispatcher := update s.dispatcher d .ended }
  | some c =>
    let s := { s with reads := s.reads ++ [(d, c)] }
    if s.bySession then
      { s with dispatcher := update s.dispatcher d (.reading c none) }
    else
      match s.thread with
      | [] => { s with dispatcher := update s.dispatcher d (.blocked c) }
      | e :: thread =>
        { s with
          thread := thread
          dispatcher := update s.dispatcher d (.reading c (some e))
          taken := s.taken ++ [(d, e.connection)] }

/-- The dispatcher wakes the coroutine it has taken, and all others, and comes to its loop. -/
def failAll (s : Channel κ σ δ ε) (d : ℕ) (waiter : Option (Entry κ σ)) (message : Option ε) :
    Channel κ σ δ ε :=
  let entries : List (Entry κ σ) := waiter.toList ++ s.thread
  { s.wakeupAll entries message with
    taken := s.taken ++ entries.map fun e : Entry κ σ => (d, e.connection) }.loop d

/-- A reply could not be read: `close_channel_socket` yields if there is a socket to close. -/
def fail (s : Channel κ σ δ ε) (d : ℕ) (waiter : Option (Entry κ σ)) (message : Option ε) :
    Channel κ σ δ ε :=
  match s.sock with
  | some c =>
    { s with
      sock := none
      dispatcher := update s.dispatcher d (.failing waiter message)
      closes := s.closes ++ [(d, c)] }
  | none => s.failAll d waiter message

/-- The parts of a reply that have come for a coroutine. -/
def partsOf (s : Channel κ σ δ ε) (co : κ) : List δ :=
  match s.resultData co with
  | some (.parts list) => list
  | _ => []

/-- A part of a reply: the coroutine goes on waiting. -/
def addPart (s : Channel κ σ δ ε) (co : κ) (data : δ) : Channel κ σ δ ε :=
  { s with
    resultData := update s.resultData co (some (.parts (s.partsOf co ++ [data]))) }

/-- A reply, or its last part: the coroutine is woken. -/
def deliver (s : Channel κ σ δ ε) (co : κ) (r : Reply σ δ) : Channel κ σ δ ε :=
  { s with
    result := update s.result co (some (.value r.ok))
    resultData := update s.resultData co
      (if r.ok = true ∧ s.resultData co ≠ none then some (.parts (s.partsOf co ++ [r.data]))
       else some (.single r.data))
    caller := update s.caller co (s.caller co).wake }

/-- The body of the loop of `dispatch_by_session`, after `response` has returned. -/
def readSession (s : Channel κ σ δ ε) (d : ℕ) (r : Reply σ δ) : Channel κ σ δ ε :=
  match r.session with
  | none => s.fail d none none
  | some session =>
    match s.thread.find? (·.response = session) with
    | some e =>
      let s := { s with taken := s.taken ++ [(d, e.connection)] }
      if r.isPart then (s.addPart e.co r.data).loop d
      else
        ({ s with thread := s.thread.filter (·.response ≠ session) }.deliver e.co r).loop d
    -- an unknown session
    | none => s.loop d

/-- The body of the loop of `dispatch_by_order`, after the function has returned. After a part, the
coroutine is not put back into `__thread`. -/
def readOrder (s : Channel κ σ δ ε) (d : ℕ) (e : Entry κ σ) (r : Reply σ δ) : Channel κ σ δ ε :=
  if r.isPart then (s.addPart e.co r.data).loop d else (s.deliver e.co r).loop d

/-- The function that reads a reply has returned, or has raised an error. -/
def read (s : Channel κ σ δ ε) (d : ℕ) (waiter : Option (Entry κ σ)) :
    Outcome σ δ ε → Channel κ σ δ ε
  | .raised message => s.fail d waiter message
  | .reply r =>
    let s := { s with stream := s.stream ++ [r] }
    match waiter with
    | some e => s.readOrder d e r
    | none => s.readSession d r

/-! ### The coroutines that use the channel -/

/-- `check_connection` returns true. -/
def connected (s : Channel κ σ δ ε) (co : κ) : Bool :=
  s.sock.isSome &&
    match s.connecting with
    | some (authco, .authenticating) => authco = co
    | _ => true

/-- `push_response`, and `mtask.wait`; a session has one entry. -/
def push (s : Channel κ σ δ ε) (co : κ) (response : σ) (c : ℕ) : Channel κ σ δ ε :=
  { s with
    thread :=
      (if s.bySession then s.thread.filter (·.response ≠ response) else s.thread) ++
        [⟨s.waits.length, co, response, c⟩]
    caller := update s.caller co (.waiting s.waits.length)
    waits := s.waits ++ [(co, response, s.stream.length)] }

/-- The wait is over: the entries of the coroutine in `__result` and `__result_data` are taken. -/
def returned (s : Channel κ σ δ ε) (co : κ) (number : ℕ) : Channel κ σ δ ε :=
  { s with
    result := update s.result co none
    resultData := update s.resultData co none
    caller := update s.caller co .outside
    got := s.got ++ [(number, s.result co, s.resultData co)] }

/-- A coroutine uses the connection, after `block_connect` has returned true: the request is
written, if there is one, and `push_response` follows if a reply is wanted. -/
def use (s : Channel κ σ δ ε) (co : κ) (response : Option σ) (written : Bool) :
    Except Fault (Channel κ σ δ ε) :=
  if s.caller co = .outside ∧ s.connected co = true then
    match s.sock with
    | some c =>
      if written = false then
        .ok { s with sock := none, caller := update s.caller co .failing }
      else
        match response with
        | some response => .ok (s.push co response c)
        | none => .ok s
    | none => .error .notEnabled
  else .error .notEnabled

/-- One step of a coroutine. `close_channel_socket` in `channel:close` and `channel:changehost` is
followed by nothing. -/
def step (s : Channel κ σ δ ε) : Event κ σ δ ε → Except Fault (Channel κ σ δ ε)
  | .connect co =>
    if s.connecting = none ∧ s.sock = none ∧ s.closed = false ∧ s.caller co = .outside then
      .ok { s with connecting := some (co, .opening) }
    else .error .notEnabled
  | .opened result =>
    match s.connecting with
    | some (co, .opening) =>
      match result with
      | .established =>
        -- `assert(not self.__sock)` at the head of `connect_once`
        if s.sock = none then
          .ok { s with
            sock := some s.connections
            connections := s.connections + 1
            dispatcher := update s.dispatcher s.connections .forked
            connecting := if s.auth then some (co, .authenticating) else none }
        else .error .notEnabled
      | .again => .ok s
      | .failed => .ok { s with connecting := none }
    | _ => .error .notEnabled
  | .authenticated ok again =>
    match s.connecting with
    | some (co, .authenticating) =>
      if ok = true ∧ s.sock ≠ none then .ok { s with connecting := none }
      else
        -- `__auth` may change the host, and the channel is connected again
        .ok { s with
          sock := none
          connecting :=
            if s.closed = false ∧ (ok = true ∨ again = true) then some (co, .opening) else none }
    | _ => .error .notEnabled
  | .reopen => .ok { s with closed := false }
  | .request co response written => s.use co (some response) written
  | .send co written => s.use co none written
  | .response co response => s.use co (some response) true
  | .close => .ok { s with closed := true, sock := if s.closed then s.sock else none }
  | .changehost => .ok { s with sock := if s.closed then s.sock else none }
  | .start d =>
    match s.dispatcher d with
    | .forked => .ok (s.loop d)
    | _ => .error .notEnabled
  | .read d outcome =>
    match s.dispatcher d with
    | .reading _ waiter => .ok (s.read d waiter outcome)
    | _ => .error .notEnabled
  | .block d connected =>
    match s.dispatcher d with
    | .blocked _ => .ok (if connected then s.loop d else s.fail d none none)
    | _ => .error .notEnabled
  | .dispatcherClosed d =>
    match s.dispatcher d with
    | .failing waiter message => .ok (s.failAll d waiter message)
    | _ => .error .notEnabled
  | .callerClosed co =>
    match s.caller co with
    | .failing =>
      let t := s.wakeupAll s.thread none
      .ok { t with caller := update t.caller co .outside }
    | _ => .error .notEnabled
  | .resume co =>
    match s.caller co with
    | .woken number => .ok (s.returned co number)
    | _ => .error .notEnabled

end Channel

end Mtask.Lualib.SocketChannel
