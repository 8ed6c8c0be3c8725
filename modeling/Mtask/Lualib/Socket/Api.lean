import Mtask.Lib.FirstInfix
import Mtask.Lib.Transition

/-!
# The socket API

The functions of `socket.lua` for one id, with the messages of the driver for it. A coroutine that a
message wakes up runs before anything else; those that others wake up run when they are resumed.
-/

namespace Mtask.Lualib.Socket

abbrev Bytes := List UInt8

/-- `read_required`: `nil` or `false`, a number, `true`, or a string. -/
inductive Required
  | none
  | size (n : ℕ)
  | all
  | line (sep : Bytes)
  deriving DecidableEq

/-- `socket.read`, `socket.readall`, `socket.readline` and `socket.block` -/
inductive ReadOp
  | read (sz : Option ℕ)
  | readall
  | readline (sep : Bytes)
  | block

/-- The value of `read_required` while the function waits. -/
def ReadOp.required : ReadOp → Required
  | .read none | .block => .size 0
  | .read (some sz) => .size sz
  | .readall => .all
  | .readline sep => .line sep

/-- What a coroutine waits for: `suspend` in `connect`, in a function that reads or in `close`; the
end of the wait of another one in `close`; or the lock. -/
inductive Kind
  | connect
  | read (op : ReadOp)
  | close
  | closing
  | lock

/-- A coroutine waits in a call of `suspend`. -/
def Kind.suspends : Kind → Bool
  | .connect | .read _ | .close => true
  | .closing | .lock => false

/-- A wait, and the object that it is for. -/
structure Wait where
  object : ℕ
  kind : Kind

/-- A socket object. The list `lock` is `lock_set`, with `none` for the `true` of the first one. The
last two fields are not in the source: what has arrived since the last reader began to wait, with
what was there, less what was read since; and whether `CLOSE` or `ERROR` has been processed. -/
structure Object where
  connected : Bool
  buffer : Bytes
  readRequired : Required
  co : Option ℕ
  closing : Option ℕ
  lock : List (Option ℕ)
  bufferLimit : Option ℕ
  unread : Bytes
  ended : Bool

/-- What a function returns: a string; `false` and a string; a boolean; `nil`; or an assertion
fails. -/
inductive Answer
  | data (s : Bytes)
  | failed (s : Bytes)
  | status (b : Bool)
  | nil
  | raised

/-- The data that is returned. -/
def Answer.bytes : Answer → Bytes
  | .data s | .failed s => s
  | .status _ | .nil | .raised => []

/-- The end of the wait of a reader: what was unread before, and what is returned, skipped and left.
-/
structure Read where
  unread : Bytes
  answer : Answer
  skipped : Bytes
  left : Bytes

/-- What the driver has reported last: nothing yet for a socket that was opened or started,
`CONNECT`, or `CLOSE` or `ERROR`. -/
inductive Phase
  | opening
  | connected
  | closed
  deriving DecidableEq

/-- The objects that were made for the id, the one in `socket_pool`, the coroutines that wait, and
those of them that `mtask.wakeup` was called for. The last three fields are not in the source: how
many waits of a coroutine have begun and how many are over, and the ends of waits of readers. -/
structure World where
  objects : ℕ → Object
  count : ℕ
  pool : Option ℕ
  waits : ℕ → Option Wait
  wakeups : List ℕ
  driver : Phase
  begun : ℕ → ℕ
  finished : ℕ → ℕ
  reads : List Read

/-! ### Buffers -/

/-- `driver.pop` -/
def driverPop (buffer : Bytes) (sz : ℕ) : Option (Bytes × Bytes) :=
  if buffer.length < sz ∨ sz = 0 then none else some (buffer.take sz, buffer.drop sz)

/-- `driver.readline` -/
def driverReadline (buffer sep : Bytes) : Option (Bytes × Bytes) :=
  if buffer = [] then none else buffer.dropInfix? sep

/-- What a function does before it waits: what it returns, what is skipped and what is left; or
nothing if it has to wait. -/
def ReadOp.answer? (op : ReadOp) (o : Object) : Option (Answer × Bytes × Bytes) :=
  match op with
  | .read none =>
    if o.buffer ≠ [] then some (.data o.buffer, [], [])
    else if !o.connected then some (.failed o.buffer, [], []) else none
  | .read (some sz) =>
    match driverPop o.buffer sz with
    | some (s, rest) => some (.data s, [], rest)
    | none => if !o.connected then some (.failed o.buffer, [], []) else none
  | .readall =>
    if !o.connected then some (if o.buffer = [] then .status false else .data o.buffer, [], [])
    else none
  | .readline sep =>
    match driverReadline o.buffer sep with
    | some (s, rest) => some (.data s, sep, rest)
    | none => if !o.connected then some (.failed o.buffer, [], []) else none
  | .block => if !o.connected then some (.status false, [], o.buffer) else none

/-- What a function does after its wait. -/
def ReadOp.finish (op : ReadOp) (o : Object) : Answer × Bytes × Bytes :=
  match op with
  | .read none => (if o.buffer = [] then .failed o.buffer else .data o.buffer, [], [])
  | .read (some sz) =>
    match driverPop o.buffer sz with
    | some (s, rest) => (.data s, [], rest)
    | none => (.failed o.buffer, [], [])
  | .readall => if o.connected then (.raised, [], o.buffer) else (.data o.buffer, [], [])
  | .readline sep =>
    if o.connected then
      match driverReadline o.buffer sep with
      | some (s, rest) => (.data s, sep, rest)
      | none => (.nil, [], o.buffer)
    else (.failed o.buffer, [], [])
  | .block => (.status o.connected, [], o.buffer)

/-! ### Waits -/

namespace World

def init : World where
  objects := fun _ => ⟨false, [], .none, none, none, [], none, [], false⟩
  count := 0
  pool := none
  waits := fun _ => none
  wakeups := []
  driver := .closed
  begun := fun _ => 0
  finished := fun _ => 0
  reads := []

def setObject (w : World) (s : ℕ) (o : Object) : World :=
  { w with objects := Function.update w.objects s o }

/-- `mtask.wait` -/
def wait (w : World) (co : ℕ) (wt : Wait) : World :=
  { w with
    waits := Function.update w.waits co (some wt)
    begun := Function.update w.begun co (w.begun co + 1) }

/-- `mtask.wakeup` -/
def wake (w : World) (co : ℕ) : World :=
  if (w.waits co).isSome ∧ co ∉ w.wakeups then { w with wakeups := w.wakeups ++ [co] } else w

/-- `suspend`, up to its wait -/
def suspend (w : World) (s co : ℕ) (kind : Kind) : World :=
  match (w.objects s).co with
  | some _ => w
  | none =>
    (w.setObject s { w.objects s with co := some co, unread := (w.objects s).buffer }).wait co
      ⟨s, kind⟩

/-- The end of `suspend` -/
def wakeClosing (w : World) (s : ℕ) : World :=
  match (w.objects s).closing with
  | some co => w.wake co
  | none => w

/-- `driver.clear` -/
def clear (w : World) (s : ℕ) : World :=
  w.setObject s { w.objects s with buffer := [] }

/-- `socket.shutdown`; `driver.close` only asks the driver to report. -/
def shutdown (w : World) : World :=
  match w.pool with
  | some s => w.clear s
  | none => w

/-- The end of `socket.close`. Its assertion is about `lock_set`, a field that is never set. -/
def finishClose (w : World) (s : ℕ) : World :=
  { (w.setObject s { w.objects s with connected := false }).shutdown with pool := none }

/-- The end of a function that reads. -/
def finishRead (w : World) (s : ℕ) (op : ReadOp) : World :=
  let (answer, skipped, left) := op.finish (w.objects s)
  { w.setObject s { w.objects s with buffer := left } with
    reads := w.reads ++ [⟨(w.objects s).unread, answer, skipped, left⟩] }

/-- A coroutine is no longer waiting. -/
def endWait (w : World) (co : ℕ) : World :=
  { w with
    waits := Function.update w.waits co none
    finished := Function.update w.finished co (w.finished co + 1)
    wakeups := w.wakeups.erase co }

/-- A coroutine goes on after its wait. -/
def resume (w : World) (co : ℕ) : World :=
  match w.waits co with
  | none => w
  | some ⟨s, .connect⟩ =>
    let w := (w.endWait co).wakeClosing s
    if (w.objects s).connected then w else { w with pool := none }
  | some ⟨s, .read op⟩ => ((w.endWait co).wakeClosing s).finishRead s op
  | some ⟨s, .close⟩ => ((w.endWait co).wakeClosing s).finishClose s
  | some ⟨s, .closing⟩ => (w.endWait co).finishClose s
  | some ⟨_, .lock⟩ => w.endWait co

/-- The local function `wakeup`; the coroutine runs at once. -/
def wakeup (w : World) (s : ℕ) : World :=
  match (w.objects s).co with
  | none => w
  | some co => (w.setObject s { w.objects s with co := none }).resume co

end World

/-- The steps: a coroutine calls a function of the API, or goes on because it was woken up; or a
message for the id is dispatched. -/
inductive Event
  | connect (co : ℕ)
  | read (co : ℕ) (op : ReadOp)
  | close (co : ℕ)
  | shutdown
  | abandon
  | lock (co : ℕ)
  | unlock
  | limit (n : Option ℕ)
  | resume (co : ℕ)
  | data (bytes : Bytes)
  | connected
  | closed

inductive Stop
  | disabled

namespace World

/-- `connect`, after `driver.connect` or `driver.start` -/
def connect (w : World) (co : ℕ) : World :=
  { w with
    objects := Function.update w.objects w.count
      ⟨false, [], .none, none, none, [], none, [], false⟩
    count := w.count + 1
    pool := some w.count
    driver := .opening }.suspend w.count co .connect

/-- A function that reads. -/
def read (w : World) (co : ℕ) (op : ReadOp) : World :=
  match w.pool with
  | none => w
  | some s =>
    match op.answer? (w.objects s) with
    | some (answer, skipped, left) =>
      w.setObject s { w.objects s with
        buffer := left
        unread := (w.objects s).unread.drop (answer.bytes ++ skipped).length }
    | none =>
      if (w.objects s).readRequired ≠ .none then w
      else
        (w.setObject s { w.objects s with readRequired := op.required }).suspend s co (.read op)

/-- `socket.close` -/
def close (w : World) (co : ℕ) : World :=
  match w.pool with
  | none => w
  | some s =>
    if (w.objects s).connected then
      match (w.objects s).co, (w.objects s).closing with
      | some _, some _ => w
      | some _, none =>
        (w.setObject s { w.objects s with closing := some co }).wait co ⟨s, .closing⟩
      | none, _ => w.suspend s co .close
    else w.finishClose s

/-- `socket.abandon` -/
def abandon (w : World) : World := { w.shutdown with pool := none }

/-- `socket.lock` -/
def lock (w : World) (co : ℕ) : World :=
  match w.pool with
  | none => w
  | some s =>
    match (w.objects s).lock with
    | [] => w.setObject s { w.objects s with lock := [none] }
    | first :: rest =>
      (w.setObject s { w.objects s with lock := first :: rest ++ [some co] }).wait co ⟨s, .lock⟩

/-- `socket.unlock` -/
def unlock (w : World) : World :=
  match w.pool with
  | none => w
  | some s =>
    let w' := w.setObject s { w.objects s with lock := (w.objects s).lock.tail }
    match (w.objects s).lock.tail.head? with
    | some (some co) => w'.wake co
    | some none | none => w'

/-- `socket.limit` -/
def limit (w : World) (n : Option ℕ) : World :=
  match w.pool with
  | none => w
  | some s => w.setObject s { w.objects s with bufferLimit := n }

/-- The buffer exceeds its limit. -/
def overflows (o : Object) : Bool :=
  match o.bufferLimit with
  | none => false
  | some limit => limit < o.buffer.length

/-- `socket_message[1]` -/
def data (w : World) (bytes : Bytes) : World :=
  match w.pool with
  | none => w
  | some s =>
    let o := { w.objects s with
      buffer := (w.objects s).buffer ++ bytes
      unread := (w.objects s).unread ++ bytes }
    let woken := (w.setObject s { o with readRequired := .none }).wakeup s
    match o.readRequired with
    | .size n => if n ≤ o.buffer.length then woken else w.setObject s o
    | .line sep =>
      if overflows o then (w.setObject s o).clear s
      else if (driverReadline o.buffer sep).isSome then woken else w.setObject s o
    | .all | .none => if overflows o then (w.setObject s o).clear s else w.setObject s o

/-- `socket_message[2]` -/
def connected (w : World) : World :=
  match w.pool with
  | none => w
  | some s => (w.setObject s { w.objects s with connected := true }).wakeup s

/-- `socket_message[3]` and `socket_message[5]`, which only writes to the log as well. -/
def closed (w : World) : World :=
  match w.pool with
  | none => w
  | some s => (w.setObject s { w.objects s with connected := false, ended := true }).wakeup s

/-- A function is called by a coroutine that does not wait. A message is dispatched when all
wake-ups have been delivered; the driver reports `CONNECT` at most once for a socket that was opened
or started, and nothing after `CLOSE` or `ERROR`. -/
def step (w : World) : Event → Except Stop World
  | .connect co => if (w.waits co).isNone then .ok (w.connect co) else .error .disabled
  | .read co op => if (w.waits co).isNone then .ok (w.read co op) else .error .disabled
  | .close co => if (w.waits co).isNone then .ok (w.close co) else .error .disabled
  | .shutdown => .ok w.shutdown
  | .abandon => .ok w.abandon
  | .lock co => if (w.waits co).isNone then .ok (w.lock co) else .error .disabled
  | .unlock => .ok w.unlock
  | .limit n => .ok (w.limit n)
  | .resume co => if co ∈ w.wakeups then .ok (w.resume co) else .error .disabled
  | .data bytes =>
    if w.wakeups = [] ∧ w.driver = .connected then .ok (w.data bytes) else .error .disabled
  | .connected =>
    if w.wakeups = [] ∧ w.driver = .opening then .ok ({ w with driver := .connected }.connected)
    else .error .disabled
  | .closed =>
    if w.wakeups = [] ∧ w.driver ≠ .closed then .ok ({ w with driver := .closed }.closed)
    else .error .disabled

end World

end Mtask.Lualib.Socket
