import Mtask.Lib.Ring
import Mtask.Message

/-!
# Mailboxes

The circular buffer of a message queue of `mtask_mq.c`. Unlike the queues of the harbor service it
is doubled as soon as it is full, after the last message was written.
-/

namespace Mtask.Mq

/-- The fields `cap`, `head`, `tail` and `queue` of `struct message_queue`. -/
structure Mailbox where
  cap : ℕ
  head : ℕ
  tail : ℕ
  queue : ℕ → MtaskMessage
  head_lt : head < cap
  tail_lt : tail < cap

/-- `DEFAULT_QUEUE_SIZE` -/
def defaultQueueSize : ℕ := 64

namespace Mailbox

/-- The buffer that `mtask_mq_create` makes; what it holds at first is never read. -/
def create : Mailbox where
  cap := defaultQueueSize
  head := 0
  tail := 0
  queue := fun _ => MtaskMessage.ofType 0 0 0
  head_lt := by decide
  tail_lt := by decide

/-- `expand_queue` -/
def expand (b : Mailbox) : Mailbox where
  cap := b.cap * 2
  head := 0
  tail := b.cap
  queue := fun i => if i < b.cap then b.queue ((b.head + i) % b.cap) else b.queue i
  head_lt := by have := b.head_lt; omega
  tail_lt := by have := b.head_lt; omega

/-- The message written to the tail, before it is looked whether the buffer is full. -/
def write (b : Mailbox) (m : MtaskMessage) : Mailbox where
  cap := b.cap
  head := b.head
  tail := if b.tail + 1 ≥ b.cap then 0 else b.tail + 1
  queue := Function.update b.queue b.tail m
  head_lt := b.head_lt
  tail_lt := by
    have := b.head_lt
    split_ifs <;> omega

def push (b : Mailbox) (m : MtaskMessage) : Mailbox :=
  let b := b.write m
  if b.head = b.tail then b.expand else b

def pop (b : Mailbox) : Option (MtaskMessage × Mailbox) :=
  if b.head = b.tail then none
  else some (b.queue b.head, { b with
    head := if b.head + 1 ≥ b.cap then 0 else b.head + 1
    head_lt := by
      have := b.head_lt
      split_ifs <;> omega })

def length (b : Mailbox) : ℕ :=
  if b.head ≤ b.tail then b.tail - b.head else b.tail + b.cap - b.head

/-! ### A mailbox as a list -/

/-- The messages, the oldest one first. -/
def toList (b : Mailbox) : List MtaskMessage :=
  Ring.window b.queue b.cap b.head (Ring.count b.cap b.head b.tail)

@[simp] theorem toList_create : create.toList = [] := by
  rw [toList, create, Ring.count_self, Ring.window_zero]

variable {b b' : Mailbox} {m : MtaskMessage}

theorem toList_push : (b.push m).toList = b.toList ++ [m] := by
  have htail := Ring.succ_eq_mod b.tail_lt
  rw [push]
  by_cases hfull : (b.tail + 1) % b.cap = b.head
  · have heq : (b.write m).head = (b.write m).tail := by
      rw [write]
      simp only [htail, hfull]
    have hcap : b.cap < b.cap * 2 := by have := b.head_lt; omega
    rw [if_pos heq]
    exact Ring.window_push_full b.queue b.head_lt b.tail_lt hfull m hcap fun i hi => if_pos hi
  · have hne : (b.write m).head ≠ (b.write m).tail := by
      rw [write]
      simp only [htail]
      exact Ne.symm hfull
    rw [if_neg hne, toList, toList, write]
    simp only [htail]
    exact Ring.window_push b.queue b.head_lt b.tail_lt hfull m

theorem pop_eq_none (h : b.pop = none) : b.toList = [] := by
  rw [pop] at h
  split_ifs at h with hempty
  rw [toList, ← hempty, Ring.count_self, Ring.window_zero]

theorem pop_eq_some (h : b.pop = some (m, b')) : b.toList = m :: b'.toList := by
  rw [pop] at h
  by_cases hempty : b.head = b.tail
  · rw [if_pos hempty] at h
    cases h
  rw [if_neg hempty, Option.some_inj, Prod.mk.injEq] at h
  obtain ⟨rfl, rfl⟩ := h
  rw [toList, Ring.window_pop b.queue b.head_lt b.tail_lt hempty]
  simp only [toList, Ring.succ_eq_mod b.head_lt]

theorem length_eq : b.length = b.toList.length := by
  have hhead := b.head_lt
  have htail := b.tail_lt
  rw [toList, Ring.window, List.length_map, List.length_range, length]
  refine (Ring.count_eq hhead ?_ ?_).symm
  · split_ifs <;> omega
  · split_ifs with hle
    · rw [Nat.add_sub_cancel' hle, Nat.mod_eq_of_lt htail]
    · have hsum : b.head + (b.tail + b.cap - b.head) = b.tail + b.cap := by omega
      rw [hsum, Nat.add_mod_right, Nat.mod_eq_of_lt htail]

end Mailbox

end Mtask.Mq
