import Mtask.Lib.References
import Mtask.Mq.Mailbox

/-!
# The threads that dispatch messages

The message queues of the services, the queue of the queues with messages (`mtask_mq.c`), and the
functions of `mtask_server.c` that launch services, send messages to them, dispatch the messages and
retire the services, in any number of threads. A step of a thread is what it does in one lock, or
one atomic operation; a function that is called by another one, as by the callback of a service,
runs in a thread of its own. The handle of a service stands for its context and its queue too: a
handle is not given again while there is a queue with it.
-/

namespace Mtask.Dispatch

open Function (update)
open Mq (Mailbox)

/-- `struct message_queue`, less its lock, its handle, its link and its counters of an overload. -/
structure MessageQueue where
  mailbox : Mailbox
  inGlobal : Bool
  release : Bool

/-- The queues that are allocated, their fields `next`, and `struct global_queue`; the counts of the
contexts that are not deleted; the handles whose contexts are in the table; and the messages that
the queues have accepted, and those that were taken from them. -/
structure Memory where
  queues : ℕ → Option MessageQueue
  next : ℕ → Option ℕ
  head : Option ℕ
  tail : Option ℕ
  ref : ℕ → Option ℤ
  registered : ℕ → Bool
  accepted : ℕ → List MtaskMessage
  consumed : ℕ → List MtaskMessage

inductive Fault
  /-- a queue that was freed, or a context that was deleted -/
  | freed
  | assertion
  | notEnabled
  deriving DecidableEq

/-- What a thread has to do. -/
inductive Instr
  /-- `mtask_handle_grab`, by somebody who will release the context -/
  | grab (handle : ℕ)
  /-- `mtask_context_push` -/
  | send (handle : ℕ) (message : MtaskMessage)
  /-- `mtask_mq_push` to the queue of a context -/
  | push (handle : ℕ) (message : MtaskMessage)
  /-- `mtask_context_release` -/
  | release (handle : ℕ)
  /-- `mtask_mq_mark_release`, in `delete_context` -/
  | markRelease (handle : ℕ)
  /-- `mtask_handle_retire` -/
  | retire (handle : ℕ)
  /-- the call of the function `init` that will return `r`, and the rest of `mtask_context_new` -/
  | init (handle : ℕ) (r : ℤ)
  /-- `mtask_globalmq_push` -/
  | globalPush (handle : ℕ)
  /-- `mtask_mq_release` -/
  | mqRelease (handle : ℕ)
  /-- the loop of `_drop_queue` -/
  | drop (handle : ℕ)
  /-- `_release` -/
  | free (handle : ℕ)
  /-- `mtask_context_message_dispatch`, with the queue that the thread has -/
  | work (weight : ℤ) (q : Option ℕ)
  /-- its loop -/
  | dispatch (weight : ℤ) (handle i n : ℕ)
  /-- `mtask_mq_length`, in this loop -/
  | length (weight : ℤ) (handle : ℕ)

namespace Memory

variable (m : Memory)

def getQueue (handle : ℕ) : Except Fault MessageQueue :=
  match m.queues handle with
  | some q => .ok q
  | none => .error .freed

def setQueue (handle : ℕ) (q : MessageQueue) : Memory :=
  { m with queues := update m.queues handle (some q) }

/-- The count of a context. -/
def getRef (handle : ℕ) : Except Fault ℤ :=
  match m.ref handle with
  | some n => .ok n
  | none => .error .freed

/-- `mtask_globalmq_push` -/
def globalPush (handle : ℕ) : Except Fault Memory := do
  let _ ← m.getQueue handle
  if m.next handle ≠ none then throw .assertion
  match m.tail with
  | some t =>
    let _ ← m.getQueue t
    return { m with next := update m.next t (some handle), tail := some handle }
  | none => return { m with head := some handle, tail := some handle }

/-- A queue that was not in `Q`, and was not being dispatched, is linked. -/
def pushIdle (inGlobal : Bool) (handle : ℕ) : Except Fault Memory :=
  if inGlobal then .ok m else m.globalPush handle

/-- `mtask_globalmq_pop` -/
def globalPop : Except Fault (Option ℕ × Memory) :=
  match m.head with
  | none => return (none, m)
  | some handle => do
    let _ ← m.getQueue handle
    if m.next handle = none ∧ m.tail ≠ some handle then throw .assertion
    return (some handle, { m with
      head := m.next handle
      tail := if m.next handle = none then none else m.tail
      next := update m.next handle none })

/-- `mtask_handle_grab` -/
def handleGrab (handle : ℕ) : Except Fault (Bool × Memory) :=
  if m.registered handle then do
    let n ← m.getRef handle
    return (true, { m with ref := update m.ref handle (some (n + 1)) })
  else return (false, m)

/-- A message that a queue has accepted. -/
def accept (handle : ℕ) (message : MtaskMessage) : Memory :=
  { m with accepted := update m.accepted handle (m.accepted handle ++ [message]) }

/-- A message that was taken from a queue. -/
def consume (handle : ℕ) (message : MtaskMessage) : Memory :=
  { m with consumed := update m.consumed handle (m.consumed handle ++ [message]) }

/-- The error that `drop_message` sends for a message. -/
def dropMessage (handle : ℕ) (message : MtaskMessage) : List Instr :=
  if message.source = 0 then []
  else [.send message.source (.ofType handle ptypeError 0)]

/-- One step of a thread, with what it has to do next. -/
def run : Instr → Except Fault (Memory × List Instr)
  | .grab handle => do
    let (found, m) ← m.handleGrab handle
    return (m, if found then [.release handle] else [])
  | .send handle message => do
    let (found, m) ← m.handleGrab handle
    return (m, if found then [.push handle message] else [])
  | .push handle message => do
    let _ ← m.getRef handle
    let q ← m.getQueue handle
    let m := (m.accept handle message).setQueue handle
      { q with mailbox := q.mailbox.push message, inGlobal := true }
    return (← m.pushIdle q.inGlobal handle, [.release handle])
  | .release handle => do
    let n ← m.getRef handle
    if n - 1 = 0 then return ({ m with ref := update m.ref handle none }, [.markRelease handle])
    else return ({ m with ref := update m.ref handle (some (n - 1)) }, [])
  | .markRelease handle => do
    let q ← m.getQueue handle
    if q.release then throw .assertion
    return (← (m.setQueue handle { q with release := true }).pushIdle q.inGlobal handle, [])
  | .retire handle =>
    if m.registered handle then
      return ({ m with registered := update m.registered handle false }, [.release handle])
    else return (m, [])
  | .init handle r =>
    return (m, if r = 0 then [.release handle, .globalPush handle]
      else [.release handle, .retire handle, .mqRelease handle])
  | .globalPush handle => return (← m.globalPush handle, [])
  | .mqRelease handle => do
    let q ← m.getQueue handle
    if q.release then return (m, [.drop handle]) else return (← m.globalPush handle, [])
  | .drop handle => do
    let q ← m.getQueue handle
    match q.mailbox.pop with
    | some (message, mailbox) =>
      return ((m.consume handle message).setQueue handle { q with mailbox },
        dropMessage handle message ++ [.drop handle])
    | none => return (m.setQueue handle { q with inGlobal := false }, [.free handle])
  | .free handle => do
    let _ ← m.getQueue handle
    if m.next handle ≠ none then throw .assertion
    return ({ m with queues := update m.queues handle none }, [])
  | .work weight none => do
    let (q, m) ← m.globalPop
    return (m, [.work weight q])
  | .work weight (some handle) => do
    let (found, m) ← m.handleGrab handle
    return (m, if found then [.dispatch weight handle 0 1]
      else [.mqRelease handle, .work weight none])
  | .dispatch weight handle i n =>
    if i < n then do
      let q ← m.getQueue handle
      match q.mailbox.pop with
      | some (message, mailbox) =>
        return ((m.consume handle message).setQueue handle { q with mailbox },
          [if i = 0 ∧ 0 ≤ weight then .length weight handle else .dispatch weight handle (i + 1) n])
      | none => return (m.setQueue handle { q with inGlobal := false },
          [.release handle, .work weight none])
    else do
      let (next, m) ← m.globalPop
      match next with
      | some next => return (m, [.globalPush handle, .release handle, .work weight (some next)])
      | none => return (m, [.release handle, .work weight (some handle)])
  | .length weight handle => do
    let q ← m.getQueue handle
    return (m, [.dispatch weight handle 1 (q.mailbox.length >>> weight.toNat)])

end Memory

/-- The functions that are called from outside. -/
inductive Call
  /-- a thread of `mtask_start.c` -/
  | work (weight : ℤ)
  | grab (handle : ℕ)
  | send (handle : ℕ) (message : MtaskMessage)
  | retire (handle : ℕ)
  /-- `mtask_context_new`, which is given this handle, and whose `init` will return `r` -/
  | launch (handle : ℕ) (r : ℤ)

structure State extends Memory where
  threads : List (List Instr)

def init : State where
  queues := fun _ => none
  next := fun _ => none
  head := none
  tail := none
  ref := fun _ => none
  registered := fun _ => false
  accepted := fun _ => []
  consumed := fun _ => []
  threads := []

/-- `mtask_context_new`, up to the call of `init`: `mtask_handle_register` and `mtask_mq_create`. -/
def Memory.create (m : Memory) (handle : ℕ) : Except Fault Memory :=
  if (m.queues handle).isSome ∨ m.registered handle then .error .notEnabled
  else .ok { m with
    queues := update m.queues handle (some ⟨.create, true, false⟩)
    next := update m.next handle none
    ref := update m.ref handle (some 2)
    registered := update m.registered handle true }

inductive Event
  | call (call : Call)
  | run (thread : ℕ)

/-- The first step of a function that is called. -/
def State.start (s : State) : Call → Except Fault (Memory × List Instr)
  | .work weight => .ok (s.toMemory, [.work weight none])
  | .grab handle => .ok (s.toMemory, [.grab handle])
  | .send handle message => .ok (s.toMemory, [.send handle message])
  | .retire handle => .ok (s.toMemory, [.retire handle])
  | .launch handle r => do return (← s.create handle, [.init handle r])

def State.step (s : State) : Event → Except Fault State
  | .call call => do
    let (m, thread) ← s.start call
    return ⟨m, s.threads ++ [thread]⟩
  | .run i =>
    match s.threads[i]? with
    | some (instr :: rest) => do
      let (m, instrs) ← s.toMemory.run instr
      return ⟨m, s.threads.set i (instrs ++ rest)⟩
    | _ => .error .notEnabled

end Mtask.Dispatch
