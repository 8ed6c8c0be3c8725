import Mathlib.Tactic.MkIffOfInductiveProp
import Mtask.Dispatch.Threads
import Mtask.Lib.IntrusiveQueue
import Mtask.Lib.Outcomes
import Mtask.Lib.Transition

/-!
# Where the message queues are

Whatever the order of the steps, a message queue is linked in the global queue once, or one thread
has it, or it is idle: no queue with messages is forgotten, and none is dispatched twice at a time.
What the threads have is counted, and a step is followed service by service, since it concerns one
service only.
-/

namespace Mtask.Dispatch

open Function (update update_of_ne update_self)
open Mq (Mailbox)
open IntrusiveQueue Outcomes References Transition List

/-- What an instruction may have of a service: its queue, which may have to be emptied or to be
freed, a reference to its context, and the duty to mark its queue. -/
inductive Kind
  | queue
  | drop
  | free
  | context
  | mark
  deriving DecidableEq

/-- What an instruction has. -/
def Instr.holds : Instr → List (Kind × ℕ)
  | grab _ | send _ _ | retire _ => []
  | work _ q => q.toList.map (.queue, ·)
  | push h _ | release h => [(.context, h)]
  | markRelease h => [(.mark, h)]
  | init h _ | dispatch _ h _ _ | length _ h => [(.queue, h), (.context, h)]
  | globalPush h | mqRelease h => [(.queue, h)]
  | drop h => [(.drop, h)]
  | free h => [(.free, h)]

/-- What the threads have. -/
def State.held (s : State) : List (Kind × ℕ) := s.threads.flatMap (·.flatMap Instr.holds)

abbrev Counts := Kind → ℕ → ℕ

def State.counts (s : State) : Counts := fun k h => s.held.count (k, h)

variable {m m' : Memory} {c c' : Counts} {l l' : List ℕ} {h x : ℕ} {q : MessageQueue}
  {a : Instr} {new : List Instr}

/-! ### The invariant -/

/-- What there is of a service: how often its queue is linked, and what the threads have of it. -/
structure View where
  queue : Option MessageQueue
  ref : Option ℤ
  registered : Bool
  accepted : List MtaskMessage
  consumed : List MtaskMessage
  linked : ℕ
  held : Kind → ℕ

namespace View

variable (v : View)

/-- How many threads have the queue. -/
@[grind =]
def owners : ℕ := v.held .queue + v.held .drop + v.held .free

/-- The references to the context. -/
@[grind =]
def refs : ℕ := v.held .context + if v.registered then 1 else 0

/-- A service with a queue. -/
@[mk_iff]
structure Present (q : MessageQueue) : Prop where
  place : v.linked + v.owners = if q.inGlobal ∨ q.release then 1 else 0
  life : v.held .mark + (if q.release then 1 else 0) + (if v.ref = none then 0 else 1) = 1
  idle : q.inGlobal = false → q.mailbox.toList = []
  drop : 0 < v.held .drop + v.held .free → q.release = true
  free : 0 < v.held .free → q.inGlobal = false
  history : v.accepted = v.consumed ++ q.mailbox.toList

@[mk_iff]
structure Good : Prop where
  counted : v.ref = if v.refs = 0 then none else some (v.refs : ℤ)
  absent : v.queue = none →
    v.linked + v.owners + v.held .mark = 0 ∧ v.ref = none ∧ v.accepted = v.consumed
  present : ∀ q, v.queue = some q → v.Present q

attribute [grind =] present_iff good_iff

end View

@[simps]
def view (m : Memory) (c : Counts) (l : List ℕ) (h : ℕ) : View where
  queue := m.queues h
  ref := m.ref h
  registered := m.registered h
  accepted := m.accepted h
  consumed := m.consumed h
  linked := l.count h
  held k := c k h

attribute [grind =] view_queue view_ref view_registered view_accepted view_consumed view_linked
  view_held

/-- The queue of the queues. -/
structure Chain (m : Memory) (l : List ℕ) : Prop where
  linked : Linked m.next m.head m.tail l
  next : ∀ h ∉ l, m.next h = none

structure Inv (m : Memory) (c : Counts) (l : List ℕ) : Prop where
  chain : Chain m l
  good : ∀ h, (view m c l h).Good

/-- A thread goes from one instruction to others. -/
def Moves (c c' : Counts) (a : Instr) (new : List Instr) : Prop :=
  ∀ k h, c' k h + a.holds.count (k, h) = c k h + (new.flatMap Instr.holds).count (k, h)

/-- The instruction goes well, and the invariant holds after it. -/
def Runs (m : Memory) (c : Counts) (a : Instr) : Prop :=
  ∃ m' new, m.run a = .ok (m', new) ∧ ∀ c', Moves c c' a new → ∃ l', Inv m' c' l'

theorem Memory.getQueue_eq (hq : m.queues x = some q) : m.getQueue x = .ok q := by
  rw [getQueue, hq]

theorem Memory.getRef_eq {n : ℤ} (hn : m.ref x = some n) : m.getRef x = .ok n := by
  rw [getRef, hn]

/-! ### The queue of the queues -/

namespace Chain

variable (hchain : Chain m l) (hq : ∀ y ∈ l, ∃ q, m.queues y = some q)
include hchain hq

theorem push (hx : m.queues x = some q) (hmem : x ∉ l) :
    ∃ next head tail, m.globalPush x = .ok { m with next, head, tail } ∧
      Chain { m with next, head, tail } (l ++ [x]) := by
  have hnext := hchain.next x hmem
  rw [Memory.globalPush, Memory.getQueue, hx]
  cases ht : m.tail with
  | none =>
    have hlinked := hchain.linked
    rw [ht] at hlinked
    obtain ⟨rfl, hfirst⟩ := hlinked.push_first hnext
    refine ⟨m.next, some x, some x, by simp [hnext], hfirst, fun y _ => ?_⟩
    exact hchain.next y not_mem_nil
  | some t =>
    have hlinked := hchain.linked
    rw [ht] at hlinked
    have hmemt : t ∈ l := mem_of_getLast? hlinked.tail_eq.symm
    obtain ⟨q', hq'⟩ := hq t hmemt
    refine ⟨update m.next t (some x), m.head, some x, ?_, hlinked.push_last hmem hnext,
      fun y hy => ?_⟩
    · simp [hnext, Memory.getQueue, hq']
    · rw [mem_append, not_or] at hy
      exact (update_of_ne (ne_of_mem_of_not_mem hmemt hy.1).symm ..).trans (hchain.next y hy.1)

theorem pop : l = [] ∧ m.globalPop = .ok (none, m) ∨
    ∃ x l' next head tail, l = x :: l' ∧
      m.globalPop = .ok (some x, { m with next, head, tail }) ∧
      Chain { m with next, head, tail } l' := by
  have hlinked := hchain.linked
  rw [Memory.globalPop]
  cases hh : m.head with
  | none =>
    rw [hh] at hlinked
    exact .inl ⟨hlinked.eq_nil, rfl⟩
  | some x =>
    rw [hh] at hlinked
    obtain ⟨l', rfl, htail, hpop⟩ := hlinked.pop
    obtain ⟨q', hq'⟩ := hq x mem_cons_self
    refine .inr ⟨x, l', _, _, _, rfl, ?_, hpop, fun y hy => ?_⟩
    · have hok : ¬(m.next x = none ∧ m.tail ≠ some x) := fun h => h.2 (htail h.1)
      simp only [Memory.getQueue, hq', if_neg hok]
      rfl
    · by_cases hyx : y = x
      · rw [hyx]
        exact update_self ..
      · exact (update_of_ne hyx ..).trans (hchain.next y (by simp [hyx, hy]))

end Chain

/-! ### The steps -/

/-- Only what the threads have of `x` changes. -/
theorem Moves.off (hm : Moves c c' a new) (hx : ∀ p ∈ a.holds ++ new.flatMap Instr.holds, p.2 = x)
    (hne : h ≠ x) (k : Kind) : c' k h = c k h := by
  have hnot : (k, h) ∉ a.holds ++ new.flatMap Instr.holds := fun hmem => hne (hx _ hmem)
  rw [mem_append, not_or] at hnot
  have := hm k h
  rwa [count_eq_zero.mpr hnot.1, count_eq_zero.mpr hnot.2] at this

namespace Inv

/-- A step that concerns one service only. -/
theorem change (hinv : Inv m c l) (hchain : Chain m' l')
    (hoff : ∀ h ≠ x, view m' c' l' h = view m c l h) (hx : (view m' c' l' x).Good) :
    Inv m' c' l' := by
  refine ⟨hchain, fun h => ?_⟩
  by_cases hh : h = x
  · rwa [hh]
  · rw [hoff h hh]
    exact hinv.good h

variable (hinv : Inv m c l)
include hinv

/-- The instructions have what the one before them had. -/
theorem moved (hm : Moves c c' a new)
    (heq : (new.flatMap Instr.holds).Perm a.holds) : Inv m c' l := by
  have hc : c' = c := by
    funext k h
    have := hm k h
    rw [heq.count_eq] at this
    omega
  rwa [hc]

/-- A queue that is linked, or that a thread has, is there. -/
theorem present (hx : 0 < (view m c l x).linked + (view m c l x).owners) :
    ∃ q, m.queues x = some q ∧ (view m c l x).Present q := by
  cases hq : m.queues x with
  | none =>
    have := ((hinv.good x).absent hq).1
    omega
  | some q => exact ⟨q, rfl, (hinv.good x).present q hq⟩

theorem exists_of_mem (y : ℕ) (hy : y ∈ l) : ∃ q, m.queues y = some q := by
  obtain ⟨q, hq, -⟩ := hinv.present (x := y) (Nat.add_pos_left (count_pos_iff.mpr hy) _)
  exact ⟨q, hq⟩

/-- A context with a reference is there, with a queue that is not marked. -/
theorem alive (hx : 0 < (view m c l x).refs) :
    m.ref x = some ((view m c l x).refs : ℤ) ∧
      ∃ q, m.queues x = some q ∧ (view m c l x).Present q ∧ q.release = false := by
  have hgood := hinv.good x
  cases hq : m.queues x with
  | none => grind
  | some q => exact ⟨by grind, q, rfl, hgood.present q hq, by grind⟩

/-- A context is grabbed. -/
theorem grab (hx : m.registered x = true) :
    ∃ m', m.handleGrab x = .ok (true, m') ∧ ∀ c' new, Moves c c' a new →
      (new.flatMap Instr.holds).Perm ((.context, x) :: a.holds) → Inv m' c' l := by
  obtain ⟨hn, -⟩ := hinv.alive (x := x) (by grind)
  refine ⟨{ m with ref := update m.ref x (some ((view m c l x).refs + 1)) },
    by rw [Memory.handleGrab, if_pos hx, Memory.getRef_eq hn]; rfl, fun c' new hm hnew => ?_⟩
  have hc (k : Kind) (h : ℕ) : c' k h = c k h + if Kind.context = k ∧ x = h then 1 else 0 := by
    have := hm k h
    rw [hnew.count_eq, count_cons] at this
    simp only [beq_iff_eq, Prod.mk.injEq] at this
    omega
  have hgood := hinv.good x
  refine hinv.change (x := x) ⟨hinv.chain.linked, hinv.chain.next⟩ (fun h hne => ?_) (by grind)
  simp [view, hc, hne, hne.symm]

theorem runs_release (hown : 0 < c .context x) : Runs m c (.release x) := by
  obtain ⟨hn, q, hq, -⟩ := hinv.alive (x := x) (by grind)
  have hgood := hinv.good x
  rw [Runs, Memory.run, Memory.getRef_eq hn, ok_bind]
  split_ifs with hzero
  · refine ⟨_, _, rfl, fun c' hm => ⟨l, ?_⟩⟩
    have hc (k : Kind) (h : ℕ) : c' k h + (if Kind.context = k ∧ x = h then 1 else 0) =
        c k h + if Kind.mark = k ∧ x = h then 1 else 0 := by
      simpa [Instr.holds, count_singleton] using hm k h
    refine hinv.change (x := x) ⟨hinv.chain.linked, hinv.chain.next⟩ (fun h hne => ?_) (by grind)
    simp [view, hm.off (x := x) (by simp [Instr.holds]) hne, hne]
  · refine ⟨_, _, rfl, fun c' hm => ⟨l, ?_⟩⟩
    have hc (k : Kind) (h : ℕ) : c' k h + (if Kind.context = k ∧ x = h then 1 else 0) = c k h := by
      simpa [Instr.holds, count_singleton] using hm k h
    refine hinv.change (x := x) ⟨hinv.chain.linked, hinv.chain.next⟩ (fun h hne => ?_) (by grind)
    simp [view, hm.off (x := x) (by simp [Instr.holds]) hne, hne]

/-- A queue that is not linked is linked, after a change. -/
theorem link (hx : x ∉ l) (q : MessageQueue) {accepted : ℕ → List MtaskMessage}
    (hacc : ∀ h ≠ x, accepted h = m.accepted h) :
    ∃ m', ({ m with queues := update m.queues x (some q), accepted } : Memory).globalPush x =
      .ok m' ∧ ∀ c' : Counts, (∀ h ≠ x, ∀ k, c' k h = c k h) →
        (view { m with queues := update m.queues x (some q), accepted } c' (l ++ [x]) x).Good →
        Inv m' c' (l ++ [x]) := by
  have hall (y : ℕ) (hy : y ∈ l) : ∃ q', update m.queues x (some q) y = some q' := by
    rw [update_of_ne (ne_of_mem_of_not_mem hy hx)]
    exact hinv.exists_of_mem y hy
  obtain ⟨next, head, tail, hpush, hchain⟩ := Chain.push
    (m := { m with queues := update m.queues x (some q), accepted })
    ⟨hinv.chain.linked, hinv.chain.next⟩ hall (update_self ..) hx
  refine ⟨_, hpush, fun c' hc hgood => hinv.change hchain (fun h hne => ?_) hgood⟩
  simp [view, hc h hne, hne, hne.symm, hacc h hne]

theorem globalPush (ha : a.holds = [(.queue, x)]) (hown : 0 < c .queue x) :
    ∃ m', m.globalPush x = .ok m' ∧ ∀ c', Moves c c' a [] → Inv m' c' (l ++ [x]) := by
  obtain ⟨q, hq, hp⟩ := hinv.present (x := x) (by grind)
  have hgood := hinv.good x
  have hx : l.count x = 0 := by grind
  obtain ⟨m', hpush, hrest⟩ := hinv.link (count_eq_zero.mp hx) q fun _ _ => rfl
  rw [← hq, Function.update_eq_self] at hpush hrest
  refine ⟨m', hpush, fun c' hm => hrest c' (fun h => hm.off (by simp [ha])) ?_⟩
  have hc (k : Kind) (h : ℕ) : c' k h + (if Kind.queue = k ∧ x = h then 1 else 0) = c k h := by
    simpa [ha, count_singleton] using hm k h
  have hcount : (l ++ [x]).count x = 1 := by simp [hx]
  grind

/-- The queue of a context is changed, and linked if it was idle. -/
theorem linkIdle (hq : m.queues x = some q) (hrelease : q.release = false) (q' : MessageQueue)
    {accepted : ℕ → List MtaskMessage} (hacc : ∀ h ≠ x, accepted h = m.accepted h) :
    ∃ m', ({ m with queues := update m.queues x (some q'), accepted } : Memory).pushIdle
      q.inGlobal x = .ok m' ∧ ∀ c' : Counts, (∀ h ≠ x, ∀ k, c' k h = c k h) →
        (∀ l' : List ℕ, l'.count x + (view m c l x).owners = 1 →
          (view { m with queues := update m.queues x (some q'), accepted } c' l' x).Good) →
        ∃ l', Inv m' c' l' := by
  have hgood := hinv.good x
  cases hglobal : q.inGlobal with
  | true =>
    refine ⟨_, rfl, fun c' hc hgood' => ⟨l, hinv.change (x := x)
      ⟨hinv.chain.linked, hinv.chain.next⟩ (fun h hne => ?_) (hgood' l (by grind))⟩⟩
    simp [view, hc h hne, hne, hacc h hne]
  | false =>
    have hx : l.count x = 0 := by grind
    obtain ⟨m', hpush, hrest⟩ := hinv.link (count_eq_zero.mp hx) q' hacc
    refine ⟨m', hpush, fun c' hc hgood' => ⟨_, hrest c' hc (hgood' _ ?_)⟩⟩
    have hcount : (l ++ [x]).count x = 1 := by simp [hx]
    grind

theorem runs_push {message : MtaskMessage} (hown : 0 < c .context x) :
    Runs m c (.push x message) := by
  obtain ⟨hn, q, hq, hp, hrelease⟩ := hinv.alive (x := x) (by grind)
  have hgood := hinv.good x
  obtain ⟨m', hpush, hrest⟩ := hinv.linkIdle hq hrelease
    { q with mailbox := q.mailbox.push message, inGlobal := true }
    fun h hne => update_of_ne hne (m.accepted x ++ [message]) m.accepted
  refine ⟨m', [.release x], ?_, fun c' hm => ?_⟩
  · rw [Memory.run, Memory.getRef_eq hn, Memory.getQueue_eq hq]
    simp only [ok_bind, Memory.accept, Memory.setQueue, hpush]
    rfl
  · obtain rfl : c' = c := by
      funext k h
      simpa [Instr.holds] using hm k h
    have hlist : (q.mailbox.push message).toList = q.mailbox.toList ++ [message] :=
      Mailbox.toList_push
    exact hrest c' (fun _ _ _ => rfl) fun l' hl' => by grind

theorem runs_markRelease (hown : 0 < c .mark x) :
    Runs m c (.markRelease x) := by
  have hgood := hinv.good x
  obtain ⟨q, hq⟩ : ∃ q, m.queues x = some q := by
    cases hq : m.queues x with
    | none => grind
    | some q => exact ⟨q, rfl⟩
  have hrelease : q.release = false := by grind
  obtain ⟨m', hpush, hrest⟩ := hinv.linkIdle hq hrelease { q with release := true }
    fun _ _ => rfl
  refine ⟨m', [], ?_, fun c' hm => ?_⟩
  · rw [Memory.run, Memory.getQueue_eq hq]
    simp only [ok_bind, hrelease, Memory.setQueue, hpush]
    rfl
  · have hc (k : Kind) (h : ℕ) : c' k h + (if Kind.mark = k ∧ x = h then 1 else 0) = c k h := by
      simpa [Instr.holds, count_singleton] using hm k h
    exact hrest c' (fun h => hm.off (by simp [Instr.holds])) fun l' hl' => by grind

theorem runs_retire : Runs m c (.retire x) := by
  have hgood := hinv.good x
  rw [Runs, Memory.run]
  split_ifs with hx
  · refine ⟨_, _, rfl, fun c' hm => ⟨l, ?_⟩⟩
    have hc (k : Kind) (h : ℕ) : c' k h = c k h + if Kind.context = k ∧ x = h then 1 else 0 := by
      simpa [Instr.holds, count_singleton] using hm k h
    refine hinv.change (x := x) ⟨hinv.chain.linked, hinv.chain.next⟩ (fun h hne => ?_) (by grind)
    simp [view, hc, hne, hne.symm]
  · exact ⟨_, _, rfl, fun c' hm => ⟨l, hinv.moved hm (.refl _)⟩⟩

theorem runs_mqRelease (hown : 0 < c .queue x) :
    Runs m c (.mqRelease x) := by
  obtain ⟨q, hq, hp⟩ := hinv.present (x := x) (by grind)
  have hgood := hinv.good x
  rw [Runs, Memory.run, Memory.getQueue_eq hq, ok_bind]
  split_ifs with hrelease
  · refine ⟨_, _, rfl, fun c' hm => ⟨l, ?_⟩⟩
    have hc (k : Kind) (h : ℕ) : c' k h + (if Kind.queue = k ∧ x = h then 1 else 0) =
        c k h + if Kind.drop = k ∧ x = h then 1 else 0 := by
      simpa [Instr.holds, count_singleton] using hm k h
    refine hinv.change (x := x) hinv.chain (fun h hne => ?_) (by grind)
    simp [view, hm.off (x := x) (by simp [Instr.holds]) hne]
  · obtain ⟨m', hpush, hrest⟩ := hinv.globalPush (a := .mqRelease x) rfl hown
    exact ⟨m', [], by rw [hpush]; rfl, fun c' hm => ⟨_, hrest c' hm⟩⟩

theorem runs_free (hown : 0 < c .free x) : Runs m c (.free x) := by
  obtain ⟨q, hq, hp⟩ := hinv.present (x := x) (by grind)
  have hgood := hinv.good x
  have hx : l.count x = 0 := by grind
  have hnext := hinv.chain.next x (count_eq_zero.mp hx)
  refine ⟨{ m with queues := update m.queues x none }, [], ?_, fun c' hm => ⟨l, ?_⟩⟩
  · rw [Memory.run, Memory.getQueue_eq hq, ok_bind, if_neg (by simp [hnext])]
    rfl
  · have hc (k : Kind) (h : ℕ) : c' k h + (if Kind.free = k ∧ x = h then 1 else 0) = c k h := by
      simpa [Instr.holds, count_singleton] using hm k h
    refine hinv.change (x := x) ⟨hinv.chain.linked, hinv.chain.next⟩ (fun h hne => ?_) (by grind)
    simp [view, hm.off (x := x) (by simp [Instr.holds]) hne, hne]

/-- A thread takes the first queue. -/
theorem globalPop : m.globalPop = .ok (none, m) ∨
    ∃ x m' l', m.globalPop = .ok (some x, m') ∧ ∀ c' new, Moves c c' a new →
      (new.flatMap Instr.holds).Perm ((.queue, x) :: a.holds) → Inv m' c' l' := by
  rcases hinv.chain.pop hinv.exists_of_mem with
    ⟨-, hpop⟩ | ⟨x, l', next, head, tail, rfl, hpop, hchain⟩
  · exact .inl hpop
  · refine .inr ⟨x, _, l', hpop, fun c' new hm hnew => ?_⟩
    have hc (k : Kind) (h : ℕ) : c' k h = c k h + if Kind.queue = k ∧ x = h then 1 else 0 := by
      have := hm k h
      rw [hnew.count_eq, count_cons] at this
      simp only [beq_iff_eq, Prod.mk.injEq] at this
      omega
    have hgood := hinv.good x
    refine hinv.change (x := x) hchain (fun h hne => ?_) (by grind)
    simp [view, hc, hne.symm]

/-- A message is taken from a queue. -/
theorem consume {message : MtaskMessage} {mailbox : Mailbox}
    (hq : m.queues x = some q) (hpop : q.mailbox.pop = some (message, mailbox)) :
    Inv ((m.consume x message).setQueue x { q with mailbox }) c l := by
  have hgood := hinv.good x
  have hlist := Mailbox.pop_eq_some hpop
  refine hinv.change (x := x) ⟨hinv.chain.linked, hinv.chain.next⟩ (fun h hne => ?_) ?_
  · simp [view, Memory.setQueue, Memory.consume, hne]
  · have happend (l : List MtaskMessage) :
        l ++ q.mailbox.toList = l ++ [message] ++ mailbox.toList := by
      rw [hlist, append_cons]
    simp only [Memory.setQueue, Memory.consume]
    grind

theorem runs_drop (hown : 0 < c .drop x) : Runs m c (.drop x) := by
  obtain ⟨q, hq, hp⟩ := hinv.present (x := x) (by grind)
  have hgood := hinv.good x
  rw [Runs, Memory.run, Memory.getQueue_eq hq, ok_bind]
  cases hpop : q.mailbox.pop with
  | some r =>
    refine ⟨_, _, rfl, fun c' hm => ⟨l, (hinv.consume hq hpop).moved hm ?_⟩⟩
    rw [Memory.dropMessage]
    split_ifs <;> exact .refl _
  | none =>
    have hempty := Mailbox.pop_eq_none hpop
    refine ⟨_, _, rfl, fun c' hm => ⟨l, ?_⟩⟩
    have hc (k : Kind) (h : ℕ) : c' k h + (if Kind.drop = k ∧ x = h then 1 else 0) =
        c k h + if Kind.free = k ∧ x = h then 1 else 0 := by
      simpa [Instr.holds, count_singleton] using hm k h
    refine hinv.change (x := x) ⟨hinv.chain.linked, hinv.chain.next⟩ (fun h hne => ?_)
      (by simp only [Memory.setQueue]; grind)
    simp [view, Memory.setQueue, hm.off (x := x) (by simp [Instr.holds]) hne, hne]

theorem runs_dispatch {weight : ℤ} {i n : ℕ} (hqueue : 0 < c .queue x)
    (hcontext : 0 < c .context x) : Runs m c (.dispatch weight x i n) := by
  obtain ⟨-, q, hq, hp, hrelease⟩ := hinv.alive (x := x) (by grind)
  have hgood := hinv.good x
  by_cases hlt : i < n
  · rw [Runs, Memory.run, if_pos hlt, Memory.getQueue_eq hq, ok_bind]
    cases hpop : q.mailbox.pop with
    | some r =>
      refine ⟨_, _, rfl, fun c' hm => ⟨l, (hinv.consume hq hpop).moved hm ?_⟩⟩
      split_ifs <;> exact .refl _
    | none =>
      have hempty := Mailbox.pop_eq_none hpop
      refine ⟨_, _, rfl, fun c' hm => ⟨l, ?_⟩⟩
      have hc (k : Kind) (h : ℕ) : c' k h + (if Kind.queue = k ∧ x = h then 1 else 0) = c k h := by
        have := hm k h
        simp [Instr.holds, count_cons] at this
        omega
      refine hinv.change (x := x) ⟨hinv.chain.linked, hinv.chain.next⟩ (fun h hne => ?_)
        (by simp only [Memory.setQueue]; grind)
      simp [view, Memory.setQueue, hm.off (x := x) (by simp [Instr.holds]) hne, hne]
  · rcases hinv.globalPop (a := .dispatch weight x i n) with hpop | ⟨y, m', l', hpop, hrest⟩
    · refine ⟨m, [.release x, .work weight (some x)], ?_, fun c' hm => ⟨l, hinv.moved hm ?_⟩⟩
      · rw [Memory.run, if_neg hlt, hpop]
        rfl
      · exact .swap ..
    · refine ⟨m', [.globalPush x, .release x, .work weight (some y)], ?_,
        fun c' hm => ⟨l', hrest c' _ hm ?_⟩⟩
      · rw [Memory.run, if_neg hlt, hpop]
        rfl
      · exact perm_append_singleton (Kind.queue, y) [(Kind.queue, x), (Kind.context, x)]

theorem runs_work {weight : ℤ} {q : Option ℕ} : Runs m c (.work weight q) := by
  cases q with
  | none =>
    rcases hinv.globalPop (a := .work weight none) with hpop | ⟨y, m', l', hpop, hrest⟩
    · refine ⟨m, [.work weight none], ?_, fun c' hm => ⟨l, hinv.moved hm (.refl _)⟩⟩
      rw [Memory.run, hpop]
      rfl
    · refine ⟨m', [.work weight (some y)], ?_, fun c' hm => ⟨l', hrest c' _ hm (.refl _)⟩⟩
      rw [Memory.run, hpop]
      rfl
  | some x =>
    cases hx : m.registered x with
    | false =>
      refine ⟨m, [.mqRelease x, .work weight none], ?_, fun c' hm => ⟨l, hinv.moved hm (.refl _)⟩⟩
      rw [Memory.run, Memory.handleGrab, hx]
      rfl
    | true =>
      obtain ⟨m', hgrab, hrest⟩ := hinv.grab (a := .work weight (some x)) hx
      refine ⟨m', [.dispatch weight x 0 1], ?_, fun c' hm => ⟨l, hrest c' _ hm (.swap ..)⟩⟩
      rw [Memory.run, hgrab]
      rfl

/-- An instruction that begins with a grab. -/
theorem runs_grab (ha : a.holds = []) {new : List Instr}
    (hnew : new.flatMap Instr.holds = [(.context, x)])
    (hrun : m.run a = do
      let (found, m) ← m.handleGrab x
      return (m, if found then new else [])) : Runs m c a := by
  cases hx : m.registered x with
  | false =>
    refine ⟨m, [], by rw [hrun, Memory.handleGrab, hx]; rfl, fun c' hm => ⟨l, hinv.moved hm ?_⟩⟩
    rw [ha]
    exact .refl _
  | true =>
    obtain ⟨m', hgrab, hrest⟩ := hinv.grab (a := a) hx
    refine ⟨m', new, by rw [hrun, hgrab]; rfl, fun c' hm => ⟨l, hrest c' _ hm ?_⟩⟩
    rw [ha, hnew]

/-- Every instruction goes well. -/
theorem runs (a : Instr) (hown : ∀ k h, a.holds.count (k, h) ≤ c k h) :
    Runs m c a := by
  have hpos (k : Kind) (h : ℕ) (hmem : (k, h) ∈ a.holds) : 0 < c k h :=
    Nat.lt_of_lt_of_le (count_pos_iff.mpr hmem) (hown k h)
  cases a with
  | grab x => exact hinv.runs_grab rfl rfl rfl
  | send x message => exact hinv.runs_grab rfl rfl rfl
  | push x message => exact hinv.runs_push (hpos .context x (by simp [Instr.holds]))
  | release x => exact hinv.runs_release (hpos .context x (by simp [Instr.holds]))
  | markRelease x => exact hinv.runs_markRelease (hpos .mark x (by simp [Instr.holds]))
  | retire x => exact hinv.runs_retire
  | init x r =>
    refine ⟨_, _, rfl, fun c' hm => ⟨l, hinv.moved hm ?_⟩⟩
    split_ifs <;> exact .swap ..
  | globalPush x =>
    obtain ⟨m', hpush, hrest⟩ :=
      hinv.globalPush (a := .globalPush x) rfl (hpos .queue x (by simp [Instr.holds]))
    exact ⟨m', [], by rw [Memory.run, hpush]; rfl, fun c' hm => ⟨_, hrest c' hm⟩⟩
  | mqRelease x => exact hinv.runs_mqRelease (hpos .queue x (by simp [Instr.holds]))
  | drop x => exact hinv.runs_drop (hpos .drop x (by simp [Instr.holds]))
  | free x => exact hinv.runs_free (hpos .free x (by simp [Instr.holds]))
  | work weight q => exact hinv.runs_work
  | dispatch weight x i n =>
    exact hinv.runs_dispatch (hpos .queue x (by simp [Instr.holds]))
      (hpos .context x (by simp [Instr.holds]))
  | length weight x =>
    have hqueue := hpos .queue x (by simp [Instr.holds])
    obtain ⟨q, hq, -⟩ := hinv.present (x := x) (by grind)
    refine ⟨m, _, by rw [Memory.run, Memory.getQueue_eq hq]; rfl, fun c' hm => ⟨l, ?_⟩⟩
    exact hinv.moved hm (.refl _)

/-- A service is launched. -/
theorem create (hqueue : m.queues x = none)
    (hregistered : m.registered x = false) :
    ∃ m', m.create x = .ok m' ∧ ∀ c' : Counts,
      (∀ k h, c' k h = c k h + [(Kind.queue, x), (Kind.context, x)].count (k, h)) → Inv m' c' l := by
  have hgood := hinv.good x
  have hx : x ∉ l := count_eq_zero.mp (by grind)
  refine ⟨_, if_neg (by simp [hqueue, hregistered]), fun c' hc => ?_⟩
  simp only [count_cons, count_nil, beq_iff_eq, Prod.mk.injEq] at hc
  refine hinv.change (x := x) ⟨hinv.chain.linked.congr fun y hy => ?_, fun y hy => ?_⟩
    (fun h hne => ?_) (by grind [Mailbox.toList_create])
  · exact update_of_ne (ne_of_mem_of_not_mem hy hx) ..
  · by_cases hyx : y = x
    · rw [hyx]
      exact update_self ..
    · exact (update_of_ne hyx ..).trans (hinv.chain.next y hy)
  · simp [view, hc, hne, hne.symm]

end Inv

/-! ### What the threads have -/

theorem count_flatMap (p : Kind × ℕ) (l : List Instr) :
    (l.flatMap Instr.holds).count p = total (fun a => a.holds.count p) l :=
  List.count_flatMap

namespace State

variable {s : State}

theorem counts_eq (s : State) (k : Kind) (h : ℕ) :
    s.counts k h = total (fun t => total (fun a => a.holds.count (k, h)) t) s.threads := by
  simp only [← count_flatMap]
  exact List.count_flatMap

theorem own {i : ℕ} {rest : List Instr} (hi : s.threads[i]? = some (a :: rest)) (k : Kind) (h : ℕ) :
    a.holds.count (k, h) ≤ s.counts k h := by
  rw [counts_eq]
  refine Nat.le_trans ?_ (le_total _ hi)
  exact Nat.le_add_right _ _

theorem moves {i : ℕ} {rest : List Instr} (hi : s.threads[i]? = some (a :: rest))
    (m' : Memory) (new : List Instr) :
    Moves s.counts (State.mk m' (s.threads.set i (new ++ rest))).counts a new := by
  intro k h
  have hset := total_set (fun t => (t.flatMap Instr.holds).count (k, h)) hi (new ++ rest)
  simp only [counts_eq, count_flatMap] at hset ⊢
  simp only [← count_flatMap, flatMap_append, flatMap_cons, count_append] at hset ⊢
  omega

end State

/-! ### Runs -/

theorem State.counts_concat (s : State) (m' : Memory) (thread : List Instr) (k : Kind) (h : ℕ) :
    (State.mk m' (s.threads ++ [thread])).counts k h =
      s.counts k h + (thread.flatMap Instr.holds).count (k, h) := by
  simp [State.counts, State.held]

theorem inv_init : Inv init.toMemory init.counts [] :=
  ⟨⟨.empty, fun _ _ => rfl⟩, fun _ => ⟨rfl, fun _ => ⟨rfl, rfl, rfl⟩, fun _ hq => by cases hq⟩⟩

/-- The invariant, with the queues that are linked. -/
def State.Sound (s : State) : Prop := ∃ l, Inv s.toMemory s.counts l

/-- What a step leads to. -/
def Leads (r : Except Fault State) : Prop :=
  (∀ f, r = .error f → f = .notEnabled) ∧ ∀ s, r = .ok s → s.Sound

theorem Leads.ok {s : State} (h : s.Sound) : Leads (.ok s) :=
  ⟨by simp, by simpa using h⟩

theorem Leads.notEnabled : Leads (.error .notEnabled) :=
  ⟨by simp, by simp⟩

theorem State.Sound.step {s : State} (h : s.Sound) (e : Event) : Leads (s.step e) := by
  obtain ⟨l, hinv⟩ := h
  have hcall (thread : List Instr) (ht : thread.flatMap Instr.holds = []) :
      State.Sound ⟨s.toMemory, s.threads ++ [thread]⟩ := by
    refine ⟨l, ?_⟩
    have hc : (State.mk s.toMemory (s.threads ++ [thread])).counts = s.counts := by
      funext k h
      rw [counts_concat, ht]
      rfl
    rw [hc]
    exact hinv
  cases e with
  | call call =>
    cases call with
    | work weight => exact .ok (hcall _ rfl)
    | grab x => exact .ok (hcall _ rfl)
    | send x message => exact .ok (hcall _ rfl)
    | retire x => exact .ok (hcall _ rfl)
    | launch x r =>
      by_cases hfree : (s.queues x).isSome ∨ s.registered x
      · rw [State.step, State.start, Memory.create, if_pos hfree]
        exact .notEnabled
      · rw [not_or, Option.not_isSome_iff_eq_none, Bool.not_eq_true] at hfree
        obtain ⟨m', hcreate, hrest⟩ := hinv.create hfree.1 hfree.2
        rw [State.step, State.start, hcreate]
        refine .ok ⟨l, hrest _ fun k h => ?_⟩
        rw [counts_concat]
        rfl
  | run i =>
    rw [State.step]
    cases hi : s.threads[i]? with
    | none => exact .notEnabled
    | some thread =>
      cases thread with
      | nil => exact .notEnabled
      | cons a rest =>
        obtain ⟨m', new, hrun, hrest⟩ := hinv.runs a fun k h => own hi k h
        simp only [hrun]
        exact .ok (hrest _ (moves hi m' new))

/-- The states of all runs. -/
abbrev Reached (s : State) : Prop := Reaches State.step (fun _ _ => True) init s

theorem Reached.sound {s : State} (h : Reached s) : s.Sound :=
  h.invariant ⟨[], inv_init⟩ fun _ _ e hu _ hs => (hu.step e).2 _ hs

/-- How many threads have a queue. -/
def State.owners (s : State) (x : ℕ) : ℕ :=
  s.held.count (.queue, x) + s.held.count (.drop, x) + s.held.count (.free, x)

/-- The references to a context: those of the threads and that of the table. -/
def State.refs (s : State) (x : ℕ) : ℕ :=
  s.held.count (.context, x) + if s.registered x then 1 else 0

/-- No step fails; a queue is linked once or one thread has it, or it is idle and empty, and its
context is there; and what was freed is neither linked nor with a thread. -/
structure Scheduled (s : State) (l : List ℕ) : Prop where
  safe : ∀ e f, s.step e = .error f → f = .notEnabled
  linked : Linked s.next s.head s.tail l
  placed : ∀ x q, s.queues x = some q → l.count x + s.owners x = 1 ∨
    l.count x + s.owners x = 0 ∧ q.inGlobal = false ∧ q.release = false ∧ q.mailbox.toList = []
  freed : ∀ x, s.queues x = none → l.count x + s.owners x = 0

/-- The messages that were accepted were taken from the queue once, in their order, or they are in
it; none is left in a queue that was freed; and a context has as many references as it counts, and
is deleted with the last one. -/
structure Conserved (s : State) : Prop where
  pending : ∀ x q, s.queues x = some q → s.accepted x = s.consumed x ++ q.mailbox.toList
  settled : ∀ x, s.queues x = none → s.accepted x = s.consumed x
  counted : ∀ x, s.ref x = if s.refs x = 0 then none else some (s.refs x : ℤ)

section

/-- A service is launched, a message is sent to it, and a thread takes the message. -/
private def takenRun : List Event :=
  [.call (.launch 1 0), .run 0, .run 0, .run 0, .call (.send 1 (.ofType 2 0 3)), .run 1, .run 1,
    .run 1, .call (.work 0), .run 2, .run 2, .run 2]

/-- A message is sent to a service whose `init` fails. -/
private def droppedRun : List Event :=
  [.call (.launch 1 1), .call (.send 1 (.ofType 2 0 3)), .run 1, .run 1, .run 1] ++
    List.replicate 10 (.run 0)

end

end Mtask.Dispatch
