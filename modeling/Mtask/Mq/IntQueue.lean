import Mathlib.Data.List.Induction
import Mtask.Mq.Mailbox

/-!
# Mailboxes with the integers of C

`cap`, `head`, `tail` and the overload counters of `struct message_queue` are of type `int`. Here
the arithmetic of `mtask_mq_push`, `mtask_mq_pop` and `mtask_mq_length` is that of `int`: a result
that is no `int` is `none`, as it is not defined.
-/

namespace Mtask.Mq

open List

/-- A value computed in `int`. -/
def int (x : ℤ) : Option ℤ :=
  if -2 ^ 31 ≤ x ∧ x < 2 ^ 31 then some x else none

theorem int_eq {x : ℤ} (hle : -2 ^ 31 ≤ x) (hlt : x < 2 ^ 31) : int x = some x :=
  if_pos ⟨hle, hlt⟩

/-- `struct message_queue`, less its lock, its handle, its link and the flag `release`. -/
structure IntQueue where
  cap : ℤ
  head : ℤ
  tail : ℤ
  inGlobal : Bool
  overload : ℤ
  overloadThreshold : ℤ
  queue : ℕ → MtaskMessage

/-- `MQ_OVERLOAD` -/
def mqOverload : ℤ := 1024

namespace IntQueue

/-- `mtask_mq_create` -/
def create : IntQueue where
  cap := defaultQueueSize
  head := 0
  tail := 0
  inGlobal := true
  overload := 0
  overloadThreshold := mqOverload
  queue := Mailbox.create.queue

/-- `mtask_mq_length` -/
def length (q : IntQueue) : Option ℤ := do
  if q.head ≤ q.tail then int (q.tail - q.head)
  else int ((← int (q.tail + q.cap)) - q.head)

/-- The loop `while (length > q->overload_threshold)`, with the rounds that are left: an `int` is
not doubled more often. -/
def raiseThreshold (length : ℤ) : ℕ → ℤ → ℤ → Option (ℤ × ℤ)
  | 0, _, _ => none
  | n + 1, overload, threshold => do
    if threshold < length then raiseThreshold length n length (← int (threshold * 2))
    else return (overload, threshold)

/-- `if (length < 0) length += cap;` -/
def wrapLength (length cap : ℤ) : Option ℤ :=
  if length < 0 then int (length + cap) else some length

/-- `mtask_mq_pop` -/
def pop (q : IntQueue) : Option (Option MtaskMessage × IntQueue) := do
  if q.head ≠ q.tail then
    let message := q.queue q.head.toNat
    let next ← int (q.head + 1)
    let head := if next ≥ q.cap then 0 else next
    let length ← wrapLength (← int (q.tail - head)) q.cap
    let (overload, overloadThreshold) ←
      raiseThreshold length 32 q.overload q.overloadThreshold
    return (some message, { q with head, overload, overloadThreshold })
  else return (none, { q with overloadThreshold := mqOverload, inGlobal := false })

/-- `expand_queue`; the sums in its loop are below `2 * q->cap` and so, like the new capacity,
values of `int`. -/
def expand (q : IntQueue) : Option IntQueue := do
  let cap ← int (q.cap * 2)
  return { q with
    cap
    head := 0
    tail := q.cap
    queue := fun i =>
      if i < q.cap then q.queue ((q.head + i) % q.cap).toNat else q.queue i }

/-- `if (q->head == q->tail) expand_queue(q);` -/
def expandFull (q : IntQueue) : Option IntQueue :=
  if q.head = q.tail then q.expand else some q

/-- `mtask_mq_push`, less the call of `mtask_globalmq_push` -/
def push (q : IntQueue) (message : MtaskMessage) : Option IntQueue := do
  let next ← int (q.tail + 1)
  let q ← expandFull { q with
    queue := Function.update q.queue q.tail.toNat message
    tail := if next ≥ q.cap then 0 else next }
  return { q with inGlobal := true }

/-- The messages from `head` on. -/
def toList (q : IntQueue) : List MtaskMessage :=
  Ring.window q.queue q.cap.toNat q.head.toNat
    (Ring.count q.cap.toNat q.head.toNat q.tail.toNat)

end IntQueue

/-! ### Runs -/

inductive QueueOp
  | push (message : MtaskMessage)
  | pop

/-- The operations in their order, with what the calls of `mtask_mq_pop` return. -/
def IntQueue.run (q : IntQueue) : List QueueOp → Option (List (Option MtaskMessage) × IntQueue)
  | [] => some ([], q)
  | .push message :: ops => do (← q.push message).run ops
  | .pop :: ops => do
    let (message, q) ← q.pop
    let (messages, q) ← q.run ops
    return (message :: messages, q)

/-- The operations on an unbounded first-in, first-out list. -/
def fifo (l : List MtaskMessage) : List QueueOp → List (Option MtaskMessage) × List MtaskMessage
  | [] => ([], l)
  | .push message :: ops => fifo (l ++ [message]) ops
  | .pop :: ops => (l.head? :: (fifo l.tail ops).1, (fifo l.tail ops).2)

/-- After the operations the queue stands for the list: `mtask_mq_pop` has returned the same
messages, the same messages are left, the indices are in range, they are equal for an empty queue
only, and `mtask_mq_length` counts the messages. -/
def StandsAfter (ops : List QueueOp) : Prop :=
  ∃ q, IntQueue.create.run ops = some ((fifo [] ops).1, q) ∧ q.toList = (fifo [] ops).2 ∧
    (0 ≤ q.head ∧ q.head < q.cap) ∧ (0 ≤ q.tail ∧ q.tail < q.cap) ∧
    (q.head = q.tail ↔ (fifo [] ops).2 = []) ∧ q.length = some ((fifo [] ops).2.length : ℤ)

/-- The queue is the list after each of the operations. -/
def IsFifo (ops : List QueueOp) : Prop :=
  ∀ before, before <+: ops → StandsAfter before

/-! ### The queue and the mailbox -/

/-- The queue has the capacity, the indices and the messages of the mailbox. -/
structure Stands (q : IntQueue) (b : Mailbox) : Prop where
  cap : q.cap = b.cap
  head : q.head = b.head
  tail : q.tail = b.tail
  queue : q.queue = b.queue
  power : ∃ k, b.cap = 2 ^ k
  small : b.cap ≤ 2 ^ 30
  threshold : 0 < q.overloadThreshold

namespace Stands

variable {q q' : IntQueue} {b : Mailbox} {m : MtaskMessage}

theorem create : Stands .create .create where
  cap := rfl
  head := rfl
  tail := rfl
  queue := rfl
  power := ⟨6, rfl⟩
  small := by decide
  threshold := by decide

theorem toList_eq (h : Stands q b) : q.toList = b.toList := by
  rw [IntQueue.toList, Mailbox.toList, h.cap, h.head, h.tail, h.queue]
  rfl

theorem length_toList_lt (b : Mailbox) : b.toList.length < b.cap := by
  rw [Mailbox.toList, Ring.window, length_map, length_range]
  exact Ring.count_lt _ b.head_lt

theorem length_eq (h : Stands q b) : q.length = some (b.toList.length : ℤ) := by
  have hhead := b.head_lt
  have htail := b.tail_lt
  have hsmall := h.small
  have hlength : (b.toList.length : ℤ) =
      if b.head ≤ b.tail then (b.tail : ℤ) - b.head else b.tail + b.cap - b.head := by
    rw [← Mailbox.length_eq, Mailbox.length]
    split_ifs <;> omega
  rw [hlength, IntQueue.length, h.cap, h.head, h.tail]
  by_cases hle : b.head ≤ b.tail
  · rw [if_pos (Int.ofNat_le.2 hle), if_pos hle]
    exact int_eq (by omega) (by omega)
  · rw [if_neg (mt Int.ofNat_le.1 hle), if_neg hle, int_eq (by omega) (by omega)]
    exact int_eq (by omega) (by omega)

theorem empty_iff (h : Stands q b) : q.head = q.tail ↔ b.toList = [] := by
  have hhead := b.head_lt
  have htail := b.tail_lt
  rw [h.head, h.tail, Int.ofNat_inj, ← length_eq_zero_iff, ← Mailbox.length_eq, Mailbox.length]
  split_ifs <;> omega

/-- The threshold is doubled until the length does not exceed it. -/
theorem raiseThreshold_eq {length : ℤ} (hlength : length < 2 ^ 30) (n : ℕ) (overload : ℤ)
    {threshold : ℤ} (hpos : 0 < threshold) (hfuel : length ≤ threshold * 2 ^ n) :
    ∃ overload' threshold', 0 < threshold' ∧
      IntQueue.raiseThreshold length (n + 1) overload threshold =
        some (overload', threshold') := by
  induction n generalizing overload threshold with
  | zero =>
    rw [pow_zero, mul_one] at hfuel
    exact ⟨_, _, hpos, if_neg (not_lt.2 hfuel)⟩
  | succ n ih =>
    by_cases hlt : threshold < length
    · have hnext : length ≤ threshold * 2 * 2 ^ n := by rwa [mul_assoc, ← pow_succ']
      obtain ⟨overload', threshold', hpos', heq⟩ := ih length (by omega) hnext
      refine ⟨overload', threshold', hpos', ?_⟩
      rw [IntQueue.raiseThreshold, if_pos hlt, int_eq (by omega) (by omega)]
      exact heq
    · exact ⟨_, _, hpos, if_neg hlt⟩

theorem pop_some (h : Stands q b) {b' : Mailbox} (hpop : b.pop = some (m, b')) :
    ∃ q', q.pop = some (some m, q') ∧ Stands q' b' := by
  have hhead := b.head_lt
  have htail := b.tail_lt
  have hsmall := h.small
  have hne : b.head ≠ b.tail := fun heq => by
    rw [Mailbox.pop, if_pos heq] at hpop
    cases hpop
  rw [Mailbox.pop, if_neg hne, Option.some_inj, Prod.mk.injEq] at hpop
  obtain ⟨rfl, rfl⟩ := hpop
  let head : ℕ := if b.head + 1 ≥ b.cap then 0 else b.head + 1
  have hnext : (if (b.head + 1 : ℤ) ≥ b.cap then 0 else (b.head + 1 : ℤ)) = head := by
    simp only [head]
    split_ifs <;> omega
  have hlt : head < b.cap := by
    simp only [head]
    split_ifs <;> omega
  obtain ⟨length, hlength, hcount⟩ : ∃ length : ℤ, length < 2 ^ 30 ∧
      IntQueue.wrapLength (b.tail - head) b.cap = some length := by
    by_cases hneg : (b.tail - head : ℤ) < 0
    · rw [IntQueue.wrapLength, if_pos hneg, int_eq (by omega) (by omega)]
      exact ⟨_, by omega, rfl⟩
    · rw [IntQueue.wrapLength, if_neg hneg]
      exact ⟨_, by omega, rfl⟩
  have hfuel : length ≤ q.overloadThreshold * 2 ^ 31 := by
    have := h.threshold
    omega
  obtain ⟨overload, threshold, hpos, hraise⟩ :=
    raiseThreshold_eq hlength 31 q.overload h.threshold hfuel
  refine ⟨{ q with head, overload, overloadThreshold := threshold }, ?_,
    h.cap, rfl, h.tail, h.queue, h.power, h.small, hpos⟩
  have hne' : q.head ≠ q.tail := by
    rw [h.head, h.tail]
    exact mt Int.ofNat_inj.1 hne
  rw [IntQueue.pop, if_pos hne', h.head, h.cap, h.tail, int_eq (by omega) (by omega)]
  simp only [Option.bind_eq_bind, Option.bind_some, hnext]
  rw [int_eq (by omega) (by omega), Option.bind_some, hcount, Option.bind_some, hraise, h.queue]
  rfl

theorem pop_none (h : Stands q b) (hpop : b.pop = none) :
    ∃ q', q.pop = some (none, q') ∧ Stands q' b := by
  have heq : q.head = q.tail := h.empty_iff.2 (Mailbox.pop_eq_none hpop)
  refine ⟨{ q with overloadThreshold := mqOverload, inGlobal := false }, ?_,
    h.cap, h.head, h.tail, h.queue, h.power, h.small, show 0 < mqOverload by decide⟩
  rw [IntQueue.pop, if_neg (not_not.2 heq)]
  rfl

theorem length_of_full (b : Mailbox) (hfull : (b.write m).head = (b.write m).tail) :
    b.toList.length + 1 = b.cap := by
  have hhead := b.head_lt
  rw [Mailbox.write] at hfull
  simp only [Ring.succ_eq_mod b.tail_lt] at hfull
  rw [Mailbox.toList, Ring.window, length_map, length_range,
    Ring.count_of_full hhead b.tail_lt hfull.symm]
  omega

/-- `mtask_mq_push` up to where it looks whether the queue is full. -/
theorem push_eq (h : Stands q b) (m : MtaskMessage) : ∃ q', Stands q' (b.write m) ∧
    q.push m = if (b.write m).head = (b.write m).tail
      then q'.expand.map fun q => { q with inGlobal := true }
      else some { q' with inGlobal := true } := by
  have hhead := b.head_lt
  have htail := b.tail_lt
  have hsmall := h.small
  have hnext : (if (b.tail + 1 : ℤ) ≥ b.cap then 0 else (b.tail + 1 : ℤ)) =
      ((if b.tail + 1 ≥ b.cap then 0 else b.tail + 1 : ℕ) : ℤ) := by
    split_ifs <;> omega
  refine ⟨{ q with
    queue := Function.update q.queue q.tail.toNat m
    tail := if (b.tail + 1 : ℤ) ≥ b.cap then 0 else (b.tail + 1 : ℤ) },
    ⟨h.cap, h.head, hnext, ?_, h.power, h.small, h.threshold⟩, ?_⟩
  · rw [h.queue, h.tail]
    rfl
  · rw [IntQueue.push, h.tail, int_eq (by omega) (by omega)]
    simp only [Option.bind_eq_bind, Option.bind_some, IntQueue.expandFull, h.cap, h.head, hnext]
    by_cases hfull : (b.write m).head = (b.write m).tail
    · have hcast : (b.head : ℤ) = ((if b.tail + 1 ≥ b.cap then 0 else b.tail + 1 : ℕ) : ℤ) :=
        congrArg Nat.cast hfull
      rw [if_pos hfull, if_pos hcast]
      exact (Option.map_eq_bind ..).symm
    · have hcast : (b.head : ℤ) ≠ ((if b.tail + 1 ≥ b.cap then 0 else b.tail + 1 : ℕ) : ℤ) :=
        mt Int.ofNat_inj.1 hfull
      rw [if_neg hfull, if_neg hcast]
      rfl

/-- `mtask_mq_push`, if there are fewer than `2 ^ 30` messages then. -/
theorem push (h : Stands q b) (hlt : b.toList.length + 1 < 2 ^ 30) :
    ∃ q', q.push m = some q' ∧ Stands q' (b.push m) := by
  obtain ⟨q', hwrite, heq⟩ := h.push_eq m
  rw [Mailbox.push]
  by_cases hfull : (b.write m).head = (b.write m).tail
  · have hcap := length_of_full b hfull
    have hexpand : q'.expand = some { q' with
        cap := q'.cap * 2
        head := 0
        tail := q'.cap
        queue := fun i =>
          if i < q'.cap then q'.queue ((q'.head + i) % q'.cap).toNat else q'.queue i } := by
      have hbound : (b.write m).cap = b.cap := rfl
      rw [IntQueue.expand, hwrite.cap, int_eq (by omega) (by omega)]
      rfl
    obtain ⟨k, hk⟩ := h.power
    rw [if_pos hfull, hexpand] at heq
    rw [if_pos hfull]
    refine ⟨_, heq, ?_, rfl, hwrite.cap, ?_, ⟨k + 1, ?_⟩, ?_, hwrite.threshold⟩
    · change q'.cap * 2 = ((b.cap * 2 : ℕ) : ℤ)
      rw [hwrite.cap]
      rfl
    · funext i
      change (if (i : ℤ) < q'.cap then _ else _) = _
      rw [hwrite.cap, hwrite.head, hwrite.queue]
      exact if_congr Int.ofNat_lt rfl rfl
    · change b.cap * 2 = 2 ^ (k + 1)
      rw [hk, pow_succ]
    · -- powers of two below `2 ^ 30`
      change b.cap * 2 ≤ 2 ^ 30
      rw [hk] at hcap ⊢
      rw [← pow_succ]
      exact Nat.pow_le_pow_right (by decide)
        ((Nat.pow_lt_pow_iff_right (by decide : 1 < 2)).1 (hcap ▸ hlt))
  · rw [if_neg hfull] at heq
    rw [if_neg hfull]
    exact ⟨_, heq, hwrite.cap, hwrite.head, hwrite.tail, hwrite.queue, hwrite.power, hwrite.small,
      hwrite.threshold⟩

/-- `mtask_mq_push` of the message with which there are `2 ^ 30`. -/
theorem push_overflow (h : Stands q b) (heq : b.toList.length + 1 = 2 ^ 30) : q.push m = none := by
  have hlt := length_toList_lt b
  have hsmall := h.small
  have hcap : b.cap = 2 ^ 30 := by omega
  obtain ⟨q', hwrite, hpush⟩ := h.push_eq m
  have hfull : (b.write m).head = (b.write m).tail := by
    by_contra hne
    have hlt' := length_toList_lt (b.push m)
    rw [Mailbox.toList_push, Mailbox.push, if_neg hne] at hlt'
    change (b.toList ++ [m]).length < b.cap at hlt'
    rw [length_append, length_singleton] at hlt'
    omega
  have hexpand : q'.expand = none := by
    have hnot : ¬(-2 ^ 31 ≤ ((b.write m).cap : ℤ) * 2 ∧ ((b.write m).cap : ℤ) * 2 < 2 ^ 31) := by
      change ¬(-2 ^ 31 ≤ (b.cap : ℤ) * 2 ∧ (b.cap : ℤ) * 2 < 2 ^ 31)
      omega
    rw [IntQueue.expand, hwrite.cap, int, if_neg hnot]
    rfl
  rw [hpush, if_pos hfull, hexpand]
  rfl

end Stands

/-! ### The queue and the list -/

theorem IntQueue.run_append (q : IntQueue) (ops ops' : List QueueOp) :
    q.run (ops ++ ops') = do
      let (messages, q) ← q.run ops
      let (messages', q) ← q.run ops'
      return (messages ++ messages', q) := by
  induction ops generalizing q with
  | nil => simp [run]
  | cons op ops ih => cases op <;> simp [run, ih, Option.bind_assoc]

theorem fifo_append (l : List MtaskMessage) (ops ops' : List QueueOp) :
    fifo l (ops ++ ops') = ((fifo l ops).1 ++ (fifo (fifo l ops).2 ops').1,
      (fifo (fifo l ops).2 ops').2) := by
  induction ops generalizing l with
  | nil => rfl
  | cons op ops ih => cases op <;> simp [fifo, ih]

variable {ops : List QueueOp}

theorem stands_run (h : ∀ before, before <+: ops → (fifo [] before).2.length < 2 ^ 30) :
    ∃ q b, IntQueue.create.run ops = some ((fifo [] ops).1, q) ∧ Stands q b ∧
      b.toList = (fifo [] ops).2 := by
  induction ops using List.reverseRecOn with
  | nil => exact ⟨_, _, rfl, .create, Mailbox.toList_create⟩
  | append_singleton ops op ih =>
    obtain ⟨q, b, hrun, hstands, hlist⟩ :=
      ih fun before hbefore => h before (hbefore.trans (prefix_append _ _))
    have hlength := h _ (prefix_refl _)
    rw [fifo_append] at hlength ⊢
    rw [IntQueue.run_append, hrun]
    cases op with
    | push m =>
      rw [fifo, fifo, length_append, ← hlist] at hlength
      obtain ⟨q', hpush, hstands'⟩ := hstands.push hlength
      refine ⟨q', b.push m, ?_, hstands', ?_⟩
      · simp [IntQueue.run, fifo, hpush]
      · rw [Mailbox.toList_push, hlist]
        rfl
    | pop =>
      cases hpop : b.pop with
      | none =>
        obtain ⟨q', hpop', hstands'⟩ := hstands.pop_none hpop
        have hnil : (fifo [] ops).2 = [] := hlist ▸ Mailbox.pop_eq_none hpop
        refine ⟨q', b, ?_, hstands', ?_⟩
        · simp [IntQueue.run, fifo, hpop', hnil]
        · rw [hlist, hnil]
          rfl
      | some p =>
        obtain ⟨m, b'⟩ := p
        obtain ⟨q', hpop', hstands'⟩ := hstands.pop_some hpop
        have hcons : (fifo [] ops).2 = m :: b'.toList := hlist ▸ Mailbox.pop_eq_some hpop
        refine ⟨q', b', ?_, hstands', ?_⟩
        · simp [IntQueue.run, fifo, hpop', hcons]
        · rw [hcons]
          rfl

theorem isFifo_of_length_lt (h : ∀ before, before <+: ops → (fifo [] before).2.length < 2 ^ 30) :
    IsFifo ops := by
  intro before hbefore
  obtain ⟨q, b, hrun, hstands, hlist⟩ := stands_run fun p hp => h p (hp.trans hbefore)
  have hhead := b.head_lt
  have htail := b.tail_lt
  refine ⟨q, hrun, hstands.toList_eq.trans hlist, ?_, ?_, ?_, ?_⟩
  · rw [hstands.head, hstands.cap]
    omega
  · rw [hstands.tail, hstands.cap]
    omega
  · rw [hstands.empty_iff, hlist]
  · rw [hstands.length_eq, hlist]

/-- With `2 ^ 30` messages in the queue, the capacity would be no `int`. -/
theorem length_lt_of_isFifo (h : IsFifo ops) :
    ∀ before, before <+: ops → (fifo [] before).2.length < 2 ^ 30 := by
  induction ops using List.reverseRecOn with
  | nil =>
    intro before hbefore
    rw [prefix_nil.1 hbefore]
    exact Nat.two_pow_pos 30
  | append_singleton ops op ih =>
    have hall := ih fun p hp => h p (hp.trans (prefix_append _ _))
    have hlt := hall ops (prefix_refl _)
    intro before hbefore
    rcases prefix_concat_iff.1 hbefore with rfl | hbefore
    swap
    · exact hall before hbefore
    cases op with
    | pop =>
      rw [fifo_append, fifo, fifo, length_tail]
      omega
    | push m =>
      rw [fifo_append, fifo, fifo, length_append, length_singleton]
      refine lt_of_le_of_ne hlt fun heq => ?_
      obtain ⟨q, b, hrun, hstands, hlist⟩ := stands_run hall
      have hnone : q.push m = none := hstands.push_overflow (by rw [hlist]; exact heq)
      obtain ⟨q', hrun', -⟩ := h _ (prefix_refl _)
      rw [IntQueue.run_append, hrun] at hrun'
      simp [IntQueue.run, hnone] at hrun'

/-- **The queue is an unbounded first-in, first-out list** exactly as long as there are never
`2 ^ 30` messages in it. -/
theorem isFifo_iff (ops : List QueueOp) :
    IsFifo ops ↔ ∀ before, before <+: ops → (fifo [] before).2.length < 2 ^ 30 :=
  ⟨length_lt_of_isFifo, isFifo_of_length_lt⟩

/-- With `2 ^ 30` messages that are not popped, the queue is lost. -/
theorem not_isFifo_replicate :
    ¬IsFifo (List.replicate (2 ^ 30) (.push (MtaskMessage.ofType 0 0 0))) := by
  intro h
  have hlength : ∀ n l, (fifo l (List.replicate n
      (.push (MtaskMessage.ofType 0 0 0)))).2.length = l.length + n := by
    intro n
    induction n with
    | zero => exact fun _ => rfl
    | succ n ih =>
      intro l
      rw [List.replicate_succ, fifo, ih, List.length_append, List.length_singleton]
      omega
  have hlt := length_lt_of_isFifo h _ (List.prefix_refl _)
  rw [hlength, List.length_nil, Nat.zero_add] at hlt
  exact lt_irrefl _ hlt

end Mtask.Mq
