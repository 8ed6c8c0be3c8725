import Mtask.Lib.Ring

/-!
# The message queues of the harbor service

The queues in which `mtask_service_harbor.c` keeps messages whose name is not bound or whose link
is not established. A queue is a circular buffer that is doubled when only the slot that tells a
full buffer from an empty one is left.
-/

namespace Mtask.HarborService

/-- `struct remote_message_header` -/
structure RemoteMessageHeader where
  source : UInt32
  destination : UInt32
  session : UInt32
  deriving DecidableEq, Inhabited, Repr

/-- A block of memory: its address, `0` for `NULL`, and what it holds. -/
structure Buffer where
  addr : ℕ
  bytes : List UInt8
  deriving DecidableEq, Inhabited, Repr

/-- `NULL` with the size `0` -/
def Buffer.null : Buffer where
  addr := 0
  bytes := []

/-- `struct harbor_msg`; its `size` is the length of the buffer. -/
structure HarborMsg where
  header : RemoteMessageHeader
  buffer : Buffer
  deriving DecidableEq, Inhabited, Repr

/-- `struct harbor_msg_queue`. Slots that were never written hold the default message. -/
structure HarborMsgQueue where
  size : ℕ
  head : ℕ
  tail : ℕ
  data : ℕ → HarborMsg
  head_lt : head < size
  tail_lt : tail < size

/-- `DEFAULT_QUEUE_SIZE` -/
def defaultQueueSize : ℕ := 1024

/-- `new_queue` -/
def newQueue : HarborMsgQueue where
  size := defaultQueueSize
  head := 0
  tail := 0
  data := fun _ => default
  head_lt := by decide
  tail_lt := by decide

/-- The doubling in `push_queue_msg`. -/
def HarborMsgQueue.expand (queue : HarborMsgQueue) : HarborMsgQueue where
  size := queue.size * 2
  head := 0
  tail := queue.size - 1
  data := fun i =>
    if i < queue.size - 1 then queue.data ((i + queue.head) % queue.size) else default
  head_lt := by have := queue.head_lt; omega
  tail_lt := by have := queue.head_lt; omega

/-- The end of `push_queue_msg`: the message is written to the tail. -/
def HarborMsgQueue.write (queue : HarborMsgQueue) (m : HarborMsg) : HarborMsgQueue where
  size := queue.size
  head := queue.head
  tail := (queue.tail + 1) % queue.size
  data := Function.update queue.data queue.tail m
  head_lt := queue.head_lt
  tail_lt := Nat.mod_lt _ (Nat.zero_lt_of_lt queue.head_lt)

/-- `push_queue_msg` -/
def pushQueueMsg (queue : HarborMsgQueue) (m : HarborMsg) : HarborMsgQueue :=
  if (queue.tail + 1) % queue.size = queue.head then queue.expand.write m else queue.write m

/-- `push_queue` -/
def pushQueue (queue : HarborMsgQueue) (buffer : Buffer) (header : RemoteMessageHeader) :
    HarborMsgQueue :=
  pushQueueMsg queue { header, buffer }

/-- `pop_queue` -/
def popQueue (queue : HarborMsgQueue) : Option (HarborMsg × HarborMsgQueue) :=
  if queue.head = queue.tail then none
  else some (queue.data queue.head, { queue with
    head := (queue.head + 1) % queue.size
    head_lt := Nat.mod_lt _ (Nat.zero_lt_of_lt queue.head_lt) })

/-- The loop `while ((m = pop_queue(queue)) != NULL)`, with a bound on its rounds. -/
def popLoop : ℕ → HarborMsgQueue → List HarborMsg
  | 0, _ => []
  | n + 1, queue =>
    match popQueue queue with
    | some (m, queue') => m :: popLoop n queue'
    | none => []

/-- What the loop `while ((m = pop_queue(queue)) != NULL)` takes out of a queue. -/
def popAll (queue : HarborMsgQueue) : List HarborMsg :=
  popLoop queue.size queue

/-- The queue after this loop. -/
def HarborMsgQueue.drained (queue : HarborMsgQueue) : HarborMsgQueue :=
  { queue with head := queue.tail, head_lt := queue.tail_lt }

/-! ### A queue as a list -/

/-- The messages of a queue, the oldest one first. -/
def HarborMsgQueue.toList (queue : HarborMsgQueue) : List HarborMsg :=
  Ring.window queue.data queue.size queue.head (Ring.count queue.size queue.head queue.tail)

@[simp] theorem toList_newQueue : newQueue.toList = [] := by
  rw [HarborMsgQueue.toList, newQueue, Ring.count_self, Ring.window_zero]

@[simp] theorem toList_drained (queue : HarborMsgQueue) : queue.drained.toList = [] := by
  rw [HarborMsgQueue.toList, HarborMsgQueue.drained, Ring.count_self, Ring.window_zero]

variable {queue : HarborMsgQueue}

theorem toList_expand (hfull : (queue.tail + 1) % queue.size = queue.head) :
    queue.expand.toList = queue.toList := by
  have hhead := queue.head_lt
  have hcount : Ring.count (queue.size * 2) 0 (queue.size - 1) = queue.size - 1 :=
    Ring.count_eq (by omega) (by omega) (by rw [Nat.zero_add, Nat.mod_eq_of_lt (by omega)])
  rw [HarborMsgQueue.toList, HarborMsgQueue.toList,
    Ring.count_of_full queue.head_lt queue.tail_lt hfull]
  simp only [HarborMsgQueue.expand, hcount]
  exact Ring.window_copy _ (by omega) fun i hi => by rw [if_pos hi, Nat.add_comm]

theorem toList_write (hfree : (queue.tail + 1) % queue.size ≠ queue.head) (m : HarborMsg) :
    (queue.write m).toList = queue.toList ++ [m] := by
  have hcount := Ring.count_succ queue.head_lt queue.tail_lt hfree
  simp only [HarborMsgQueue.toList, HarborMsgQueue.write, hcount]
  rw [← Ring.window_update _ (Ring.count_lt queue.tail queue.head_lt) m,
    Ring.head_add_count queue.head_lt queue.tail_lt]

theorem expand_not_full (queue : HarborMsgQueue) :
    (queue.expand.tail + 1) % queue.expand.size ≠ queue.expand.head := by
  have hhead := queue.head_lt
  simp only [HarborMsgQueue.expand]
  rw [Nat.mod_eq_of_lt (by omega)]
  omega

@[simp] theorem toList_pushQueueMsg (queue : HarborMsgQueue) (m : HarborMsg) :
    (pushQueueMsg queue m).toList = queue.toList ++ [m] := by
  rw [pushQueueMsg]
  split_ifs with hfull
  · rw [toList_write (expand_not_full queue), toList_expand hfull]
  · exact toList_write hfull m

@[simp] theorem toList_pushQueue (queue : HarborMsgQueue) (buffer : Buffer)
    (header : RemoteMessageHeader) :
    (pushQueue queue buffer header).toList = queue.toList ++ [⟨header, buffer⟩] :=
  toList_pushQueueMsg _ _

theorem popQueue_eq_none (h : popQueue queue = none) : queue.toList = [] := by
  rw [popQueue] at h
  split_ifs at h with hempty
  rw [HarborMsgQueue.toList, ← hempty, Ring.count_self, Ring.window_zero]

theorem popQueue_eq_some {queue' : HarborMsgQueue} {m : HarborMsg}
    (h : popQueue queue = some (m, queue')) :
    queue.toList = m :: queue'.toList ∧ queue'.size = queue.size := by
  rw [popQueue] at h
  split_ifs at h with hempty
  simp only [Option.some_inj, Prod.mk.injEq] at h
  obtain ⟨rfl, rfl⟩ := h
  refine ⟨?_, rfl⟩
  rw [HarborMsgQueue.toList, Ring.count_eq_succ queue.head_lt queue.tail_lt hempty,
    Ring.window_succ _ queue.head_lt]
  rfl

theorem popLoop_eq : ∀ {n : ℕ} {queue : HarborMsgQueue}, queue.toList.length < n →
    popLoop n queue = queue.toList
  | n + 1, queue, hlen => by
    rw [popLoop]
    rcases hpop : popQueue queue with _ | ⟨m, queue'⟩
    · exact (popQueue_eq_none hpop).symm
    · obtain ⟨hlist, -⟩ := popQueue_eq_some hpop
      rw [hlist, List.length_cons] at hlen
      change m :: popLoop n queue' = queue.toList
      rw [popLoop_eq (by omega), hlist]

/-- **The loop takes out every message**, in order. -/
@[simp] theorem popAll_eq (queue : HarborMsgQueue) : popAll queue = queue.toList := by
  refine popLoop_eq ?_
  rw [HarborMsgQueue.toList, Ring.window, List.length_map, List.length_range]
  exact Ring.count_lt queue.tail queue.head_lt

end Mtask.HarborService
