import Mathlib.Data.Nat.Bitwise
import Mathlib.Tactic.IntervalCases
import Mtask.Lib.Wheel
import Mtask.Message

/-!
# The timer wheel of `mtask_timer.c`

The timer counts ticks of 32 bits. A node that expires in the current block of 256 ticks is in one
of the 256 lists `near`; the others are in the four levels `t` of 64 lists each, by the digit of
their expiry that the level looks at. `timer_shift` moves the tick on and, where a digit carries,
moves one list of a level down. The linked lists of the source are lists here, and an array access
out of range is `none`.
-/

namespace Mtask.Timing

open Function (update update_of_ne)
open List

/-- `TIME_NEAR_SHIFT` -/
def timeNearShift : ℕ := 8

/-- `TIME_NEAR` -/
def timeNear : ℕ := 1 <<< timeNearShift

/-- `TIME_LEVEL_SHIFT` -/
def timeLevelShift : ℕ := 6

/-- `TIME_LEVEL` -/
def timeLevel : ℕ := 1 <<< timeLevelShift

/-- `TIME_NEAR_MASK` -/
def timeNearMask : ℕ := timeNear - 1

/-- `TIME_LEVEL_MASK` -/
def timeLevelMask : ℕ := timeLevel - 1

/-- `struct timer_event` -/
structure TimerEvent where
  handle : ℕ
  session : ℤ
  deriving DecidableEq, Repr

/-- `struct timer_node`, with the event that is stored behind it. -/
structure TimerNode where
  expire : ℕ
  event : TimerEvent
  deriving DecidableEq, Repr

/-- `struct timer`, less its lock and the wall-clock fields that the wheel does not read. -/
structure Timer where
  near : ℕ → List TimerNode
  t : ℕ → ℕ → List TimerNode
  time : ℕ

/-- The timer of `timer_create_timer`, with the tick `time` to start from. -/
def timerCreateTimer (time : ℕ) : Timer where
  near := fun _ => []
  t := fun _ _ => []
  time := time

/-- `link(&T->near[idx], node)` -/
def linkNear (T : Timer) (idx : ℕ) (node : TimerNode) : Option Timer :=
  if idx < timeNear then
    some { T with near := update T.near idx (T.near idx ++ [node]) }
  else none

/-- `link(&T->t[i][idx], node)` -/
def linkLevel (T : Timer) (i idx : ℕ) (node : TimerNode) : Option Timer :=
  if i < 4 ∧ idx < timeLevel then
    some { T with
      t := update T.t i (update (T.t i) idx (T.t i idx ++ [node])) }
  else none

/-- The loop of `add_node` that looks for the level, with the rounds that are left. -/
def levelLoop (time currentTime : ℕ) : ℕ → ℕ → ℕ → ℕ
  | 0, i, _ => i
  | n + 1, i, mask =>
    if time ||| (mask - 1) = currentTime ||| (mask - 1) then i
    else levelLoop time currentTime n (i + 1) ((mask <<< timeLevelShift) % 2 ^ 32)

/-- `add_node` -/
def addNode (T : Timer) (node : TimerNode) : Option Timer :=
  let time := node.expire
  let currentTime := T.time
  if time ||| timeNearMask = currentTime ||| timeNearMask then
    linkNear T (time &&& timeNearMask) node
  else
    let i := levelLoop time currentTime 3 0 (timeNear <<< timeLevelShift)
    linkLevel T i ((time >>> (timeNearShift + i * timeLevelShift)) &&& timeLevelMask) node

/-- `timer_add`; the delay is an `int`, the sum is taken in `uint32_t`. -/
def timerAdd (T : Timer) (event : TimerEvent) (time : ℤ) : Option Timer :=
  addNode T { expire := ((time + T.time) % 2 ^ 32).toNat, event }

/-- `link_clear(&T->t[level][idx])`: the nodes of the list, and the timer without them. -/
def clearLevel (T : Timer) (level idx : ℕ) : Option (List TimerNode × Timer) :=
  if level < 4 ∧ idx < timeLevel then
    some (T.t level idx, { T with
      t := update T.t level (update (T.t level) idx []) })
  else none

/-- `move_list` -/
def moveList (T : Timer) (level idx : ℕ) : Option Timer :=
  match clearLevel T level idx with
  | some (current, T') => current.foldlM addNode T'
  | none => none

/-- The loop of `timer_shift`. With the `int` `mask` at `2 ^ 26` another `mask <<= 6` overflows, so
a fifth round is not defined. -/
def shiftLoop (T : Timer) (ct : ℕ) : ℕ → ℕ → ℕ → ℕ → Option Timer
  | 0, _, _, _ => none
  | n + 1, i, mask, time =>
    if ct &&& (mask - 1) = 0 then
      if time &&& timeLevelMask ≠ 0 then moveList T i (time &&& timeLevelMask)
      else shiftLoop T ct n (i + 1) (mask <<< timeLevelShift) (time >>> timeLevelShift)
    else some T

/-- `timer_shift` -/
def timerShift (T : Timer) : Option Timer :=
  let ct := (T.time + 1) % 2 ^ 32
  let T' := { T with time := ct }
  if ct = 0 then moveList T' 3 0
  else shiftLoop T' ct 4 0 timeNear (ct >>> timeNearShift)

/-- The head of the loop of `timer_execute`: the list of the current tick, taken out of the timer
before the lock is given back, if it is not empty. -/
def takeNear (T : Timer) : Option (List TimerNode × Timer) :=
  let idx := T.time &&& timeNearMask
  if T.near idx = [] then none
  else some (T.near idx, { T with near := update T.near idx [] })

/-- The message that `dispatch_list` pushes for an event, with the handle it is pushed to. -/
def dispatchMessage (event : TimerEvent) : ℕ × MtaskMessage :=
  (event.handle, .ofType 0 ptypeResponse event.session)

/-! ### The lists as buckets of a wheel -/

/-- The width of a block of ticks on each level: `near` has blocks of `2 ^ 8` ticks, and every
level of `t` tells 64 blocks apart. -/
def width (k : ℕ) : ℕ := 2 ^ (8 + 6 * k)

theorem width_pos (k : ℕ) : 0 < width k := Nat.two_pow_pos _

theorem width_dvd (k : ℕ) : width k ∣ width (k + 1) :=
  pow_dvd_pow 2 (by omega)

theorem width_succ_div (k : ℕ) : width (k + 1) / width k = 2 ^ 6 := by
  rw [width, width, Nat.pow_div (by omega) (by omega)]
  congr 1
  omega

/-- The lists of the timer: `near` is the bottom level of the wheel. -/
def Timer.bucket (T : Timer) : ℕ × ℕ → List TimerNode
  | (0, idx) => T.near idx
  | (k + 1, idx) => T.t k idx

/-- The timer with a node at the end of a bucket. -/
def Timer.append (T : Timer) : ℕ × ℕ → TimerNode → Timer
  | (0, idx), node => { T with near := update T.near idx (T.near idx ++ [node]) }
  | (k + 1, idx), node =>
    { T with t := update T.t k (update (T.t k) idx (T.t k idx ++ [node])) }

@[simp] theorem time_append (T : Timer) (b : ℕ × ℕ) (node : TimerNode) :
    (T.append b node).time = T.time := by
  rcases b with ⟨_ | k, idx⟩ <;> rfl

theorem bucket_append (T : Timer) (b b' : ℕ × ℕ) (node : TimerNode) :
    (T.append b node).bucket b' = T.bucket b' ++ if b = b' then [node] else [] := by
  rcases b with ⟨_ | k, idx⟩ <;> rcases b' with ⟨_ | k', idx'⟩
  · by_cases h : idx = idx'
    · subst h
      simp [Timer.append, Timer.bucket]
    · simp [Timer.append, Timer.bucket, h, update_of_ne (Ne.symm h)]
  · simp [Timer.append, Timer.bucket]
  · simp [Timer.append, Timer.bucket]
  · by_cases hk : k = k'
    · subst hk
      by_cases h : idx = idx'
      · subst h
        simp [Timer.append, Timer.bucket]
      · simp [Timer.append, Timer.bucket, h, update_of_ne (Ne.symm h)]
    · simp [Timer.append, Timer.bucket, hk, update_of_ne (Ne.symm hk)]

/-! ### The tests of the code -/

theorem or_mask_eq_iff (a b k : ℕ) :
    a ||| (2 ^ k - 1) = b ||| (2 ^ k - 1) ↔ a / 2 ^ k = b / 2 ^ k := by
  constructor
  · intro h
    refine Nat.eq_of_testBit_eq fun i => ?_
    have hbit := congrArg (fun x => x.testBit (i + k)) h
    simpa [Nat.testBit_div_two_pow, Nat.testBit_or, Nat.testBit_two_pow_sub_one] using hbit
  · intro h
    refine Nat.eq_of_testBit_eq fun i => ?_
    rw [Nat.testBit_or, Nat.testBit_or, Nat.testBit_two_pow_sub_one]
    rcases lt_or_ge i k with hi | hi
    · simp [hi]
    · have hbit := congrArg (fun x => x.testBit (i - k)) h
      simpa [Nat.testBit_div_two_pow, Nat.sub_add_cancel hi] using
        congrArg (· || decide (i < k)) hbit

/-- What is due within `2 ^ 31` ticks shares a block of 32-bit ticks with the current tick exactly
if it shares the block of unbounded ticks. -/
theorem mod_div_eq_iff {now due k : ℕ} (hk : k < 4) (h : now ≤ due) (hfar : due < now + 2 ^ 31) :
    due % 2 ^ 32 / width k = now % 2 ^ 32 / width k ↔ due / width k = now / width k := by
  interval_cases k <;> simp only [width] <;> omega

/-- The digit of the expiry that a level of `t` looks at. -/
theorem shiftRight_and_levelMask {i : ℕ} (hi : i < 4) (due : ℕ) :
    ((due % 2 ^ 32) >>> (timeNearShift + i * timeLevelShift)) &&& timeLevelMask =
      Wheel.slot width (i + 1) due := by
  have hmask : timeLevelMask = 2 ^ 6 - 1 := rfl
  rw [Wheel.slot, width_succ_div, hmask, Nat.and_two_pow_sub_one_eq_mod, Nat.shiftRight_eq_div_pow,
    width, timeNearShift, timeLevelShift]
  interval_cases i <;> norm_num <;> omega

theorem and_nearMask (due : ℕ) : due % 2 ^ 32 &&& timeNearMask = Wheel.slot width 0 due := by
  have hmask : timeNearMask = 2 ^ 8 - 1 := rfl
  rw [hmask, Nat.and_two_pow_sub_one_eq_mod, Wheel.slot, width]
  omega

theorem level_width (now due : ℕ) :
    Wheel.level width 4 now due =
      if due / width 0 = now / width 0 then 0
      else if due / width 1 = now / width 1 then 1
      else if due / width 2 = now / width 2 then 2
      else if due / width 3 = now / width 3 then 3
      else 4 := by
  have hrange : List.range 4 = [0, 1, 2, 3] := rfl
  simp only [Wheel.level, hrange, findIdx_cons, findIdx_nil, cond_eq_ite,
    decide_eq_true_eq]
  split_ifs <;> rfl

section AddNode

variable {now due : ℕ}

theorem or_eq_or_iff {k : ℕ} (hk : k < 4) (h : now ≤ due) (hfar : due < now + 2 ^ 31) :
    due % 2 ^ 32 ||| (width k - 1) = now % 2 ^ 32 ||| (width k - 1) ↔
      due / width k = now / width k := by
  rw [← mod_div_eq_iff hk h hfar]
  exact or_mask_eq_iff _ _ _

/-- The loop of `add_node` finds the level of the wheel, if it is not the bottom one. -/
theorem levelLoop_eq (h : now ≤ due) (hfar : due < now + 2 ^ 31)
    (hnear : due / width 0 ≠ now / width 0) :
    levelLoop (due % 2 ^ 32) (now % 2 ^ 32) 3 0 (timeNear <<< timeLevelShift) + 1 =
      Wheel.level width 4 now due := by
  have h1 : timeNear <<< timeLevelShift = width 1 := rfl
  have h2 : width 1 <<< timeLevelShift % 2 ^ 32 = width 2 := rfl
  have h3 : width 2 <<< timeLevelShift % 2 ^ 32 = width 3 := rfl
  rw [level_width, if_neg hnear, h1]
  simp only [levelLoop, h2, h3, or_eq_or_iff (k := 1) (by omega) h hfar,
    or_eq_or_iff (k := 2) (by omega) h hfar, or_eq_or_iff (k := 3) (by omega) h hfar]
  split_ifs <;> rfl

/-- **`add_node` links a node into its bucket**, and no index is out of range. -/
theorem addNode_eq {T : Timer} {node : TimerNode} (htime : T.time = now % 2 ^ 32)
    (hexpire : node.expire = due % 2 ^ 32) (h : now ≤ due) (hfar : due < now + 2 ^ 31) :
    addNode T node = some (T.append (Wheel.place width 4 now due) node) := by
  have hmask : timeNearMask = width 0 - 1 := rfl
  rw [addNode, hexpire, htime, Wheel.place, and_nearMask]
  by_cases hnear : due / width 0 = now / width 0
  · have hlevel : Wheel.level width 4 now due = 0 := by rw [level_width, if_pos hnear]
    have hlt : Wheel.slot width 0 due < timeNear := Nat.mod_lt _ (width_pos 0)
    rw [hmask, if_pos ((or_eq_or_iff (by omega) h hfar).mpr hnear), linkNear, if_pos hlt, hlevel]
    rfl
  · rw [hmask, if_neg (mt (or_eq_or_iff (by omega) h hfar).mp hnear)]
    simp only
    rw [← levelLoop_eq h hfar hnear]
    have hi : levelLoop (due % 2 ^ 32) (now % 2 ^ 32) 3 0 (timeNear <<< timeLevelShift) < 4 := by
      have hle := Wheel.level_le (w := width) (n := 4) now due
      rw [← levelLoop_eq h hfar hnear] at hle
      omega
    have hlt : ∀ i, Wheel.slot width (i + 1) due < timeLevel := fun i => by
      rw [Wheel.slot, width_succ_div]
      exact Nat.mod_lt _ (by norm_num)
    rw [shiftRight_and_levelMask hi, linkLevel, if_pos ⟨hi, hlt _⟩]
    rfl

end AddNode

/-! ### The cascade -/

/-- The timer without the nodes of a bucket. -/
def Timer.clear (T : Timer) : ℕ × ℕ → Timer
  | (0, idx) => { T with near := update T.near idx [] }
  | (k + 1, idx) => { T with t := update T.t k (update (T.t k) idx []) }

@[simp] theorem time_clear (T : Timer) (b : ℕ × ℕ) : (T.clear b).time = T.time := by
  rcases b with ⟨_ | k, idx⟩ <;> rfl

theorem bucket_clear (T : Timer) (b b' : ℕ × ℕ) :
    (T.clear b).bucket b' = if b = b' then [] else T.bucket b' := by
  rcases b with ⟨_ | k, idx⟩ <;> rcases b' with ⟨_ | k', idx'⟩
  · by_cases h : idx = idx'
    · subst h
      simp [Timer.clear, Timer.bucket]
    · simp [Timer.clear, Timer.bucket, h, update_of_ne (Ne.symm h)]
  · simp [Timer.clear, Timer.bucket]
  · simp [Timer.clear, Timer.bucket]
  · by_cases hk : k = k'
    · subst hk
      by_cases h : idx = idx'
      · subst h
        simp [Timer.clear, Timer.bucket]
      · simp [Timer.clear, Timer.bucket, h, update_of_ne (Ne.symm h)]
    · simp [Timer.clear, Timer.bucket, hk, update_of_ne (Ne.symm hk)]

/-- Adding the nodes of a list one after the other links each one to the end of its bucket. The
due times are unbounded ticks: `due` tells them for what `toNode` makes the nodes of. -/
theorem foldlM_addNode {α : Type*} {toNode : α → TimerNode} {due : α → ℕ} {now : ℕ}
    (hexpire : ∀ a, (toNode a).expire = due a % 2 ^ 32) :
    ∀ (l : List α) (T : Timer), T.time = now % 2 ^ 32 →
      (∀ a ∈ l, now ≤ due a ∧ due a < now + 2 ^ 31) →
      ∃ T', (l.map toNode).foldlM addNode T = some T' ∧ T'.time = now % 2 ^ 32 ∧
        ∀ b, T'.bucket b = T.bucket b ++
          (l.filter fun a => Wheel.place width 4 now (due a) = b).map toNode
  | [], T, htime, _ => ⟨T, rfl, htime, fun b => by simp⟩
  | a :: l, T, htime, h => by
    obtain ⟨hle, hfar⟩ := h a mem_cons_self
    have hadd := addNode_eq htime (hexpire a) hle hfar
    obtain ⟨T', hfold, htime', hbucket⟩ := foldlM_addNode hexpire l
      (T.append (Wheel.place width 4 now (due a)) (toNode a)) (by rw [time_append, htime])
      fun a' ha' => h a' (mem_cons_of_mem _ ha')
    refine ⟨T', ?_, htime', fun b => ?_⟩
    · rw [map_cons, foldlM_cons, hadd]
      exact hfold
    · rw [hbucket, bucket_append, filter_cons]
      split_ifs with h₁ h₂ h₂ <;> simp_all

theorem moveList_eq {T : Timer} {level idx : ℕ} (hlevel : level < 4) (hidx : idx < timeLevel) :
    moveList T level idx =
      (T.bucket (level + 1, idx)).foldlM addNode (T.clear (level + 1, idx)) := by
  rw [moveList, clearLevel, if_pos ⟨hlevel, hidx⟩]
  rfl

theorem and_mask_eq_zero_iff {k : ℕ} (hk : k < 4) (now : ℕ) :
    now % 2 ^ 32 &&& (width k - 1) = 0 ↔ width k ∣ now := by
  rw [width, Nat.and_two_pow_sub_one_eq_mod, ← Nat.dvd_iff_mod_eq_zero]
  have hdvd : 2 ^ (8 + 6 * k) ∣ 2 ^ 32 := pow_dvd_pow 2 (by omega)
  exact Nat.dvd_mod_iff hdvd

/-- Where a digit of a tick is zero, the tick begins a block of the next level too. -/
theorem slot_eq_zero_iff {k now : ℕ} (h : width k ∣ now) :
    Wheel.slot width (k + 1) now = 0 ↔ width (k + 1) ∣ now := by
  obtain ⟨q, rfl⟩ := h
  have hwidth : width (k + 1) = width k * 2 ^ 6 := by
    rw [width, width, ← pow_add]
    congr 1
  rw [Wheel.slot, width_succ_div, Nat.mul_div_cancel_left _ (width_pos k), hwidth,
    Nat.mul_dvd_mul_iff_left (width_pos k), Nat.dvd_iff_mod_eq_zero]

/-- The timer after its nodes in the bucket that is emptied, if there is one, have been added
again. -/
def Timer.cascade (T : Timer) : Option (ℕ × ℕ) → Option Timer
  | none => some T
  | some b => (T.bucket b).foldlM addNode (T.clear b)

private theorem width_dvd_of_le {k i t : ℕ} (hk : k ≤ i) (h : width i ∣ t) : width k ∣ t :=
  (Wheel.dvd_of_le width_dvd hk).trans h

/-- The loop of `timer_shift` at a tick that begins a block of its level: it ends before the
rounds do, as long as the tick is not the one that wraps to `0`. -/
theorem shiftLoop_eq (T : Timer) {t : ℕ} (hwrap : ¬width 4 ∣ t) :
    ∀ n i, n + i = 4 → width i ∣ t →
      shiftLoop T (t % 2 ^ 32) n i (width i)
          ((t % 2 ^ 32) >>> (timeNearShift + i * timeLevelShift)) =
        T.cascade (Wheel.source width 4 t)
  | 0, i, hn, h => absurd (by simpa [← hn] using h) hwrap
  | n + 1, i, hn, h => by
    have hi : i < 4 := by omega
    have hmask : width i <<< timeLevelShift = width (i + 1) := by
      rw [Nat.shiftLeft_eq, timeLevelShift, width, width, ← pow_add]
      congr 1
    have htime : (t % 2 ^ 32) >>> (timeNearShift + i * timeLevelShift) >>> timeLevelShift =
        (t % 2 ^ 32) >>> (timeNearShift + (i + 1) * timeLevelShift) := by
      rw [← Nat.shiftRight_add, Nat.add_assoc, ← Nat.succ_mul]
    rw [shiftLoop, if_pos ((and_mask_eq_zero_iff hi t).mpr h), shiftRight_and_levelMask hi, hmask,
      htime]
    by_cases hslot : Wheel.slot width (i + 1) t = 0
    · rw [if_neg (not_not.mpr hslot)]
      exact shiftLoop_eq T hwrap n (i + 1) (by omega) ((slot_eq_zero_iff h).mp hslot)
    · have hcarry : Wheel.carry width 4 t = i + 1 :=
        Wheel.carry_eq hi (fun j hj => width_dvd_of_le (Nat.le_of_lt_succ hj) h)
          fun _ hdvd => hslot ((slot_eq_zero_iff h).mpr hdvd)
      have hlt : Wheel.slot width (i + 1) t < timeLevel := by
        rw [Wheel.slot, width_succ_div]
        exact Nat.mod_lt _ (by norm_num)
      rw [if_pos hslot, moveList_eq hi hlt, Wheel.source_succ hcarry]
      rfl

/-- **`timer_shift` empties the bucket of the wheel**: every bucket it looks for is in range, and
the special case of the tick that wraps to `0` is no exception. -/
theorem timerShift_eq {T : Timer} {now : ℕ} (htime : T.time = now % 2 ^ 32) :
    timerShift T =
      { T with time := (now + 1) % 2 ^ 32 }.cascade (Wheel.source width 4 (now + 1)) := by
  have hct : (T.time + 1) % 2 ^ 32 = (now + 1) % 2 ^ 32 := by
    rw [htime, Nat.mod_add_mod]
  have hwidth : width 4 = 2 ^ 32 := rfl
  rw [timerShift, hct]
  by_cases hwrap : width 4 ∣ now + 1
  · have hcarry : Wheel.carry width 4 (now + 1) = 3 + 1 :=
      Wheel.carry_eq le_rfl (fun j hj => width_dvd_of_le hj.le hwrap)
        fun h => absurd h (lt_irrefl 4)
    have hslot : Wheel.slot width (3 + 1) (now + 1) = 0 :=
      (slot_eq_zero_iff (width_dvd_of_le (by omega) hwrap)).mpr hwrap
    rw [if_pos (Nat.mod_eq_zero_of_dvd (hwidth ▸ hwrap)), Wheel.source_succ hcarry, hslot,
      moveList_eq (by omega) (by decide)]
    rfl
  · have hne : (now + 1) % 2 ^ 32 ≠ 0 := fun h => hwrap (hwidth ▸ Nat.dvd_of_mod_eq_zero h)
    rw [if_neg hne]
    by_cases hnear : width 0 ∣ now + 1
    · exact shiftLoop_eq _ hwrap 4 0 rfl hnear
    · have hcarry : Wheel.carry width 4 (now + 1) = 0 :=
        Wheel.carry_eq (Nat.zero_le 4) (fun j hj => absurd hj (Nat.not_lt_zero j)) fun _ => hnear
      have htest : ¬(now + 1) % 2 ^ 32 &&& (timeNear - 1) = 0 :=
        mt (and_mask_eq_zero_iff (k := 0) (by omega) (now + 1)).mp hnear
      rw [shiftLoop, if_neg htest, Wheel.source, if_pos hcarry]
      rfl

/-! ### The pending timeouts -/

/-- The node for an event that is due at a tick, counted without wrapping. -/
def nodeOf (a : ℕ × TimerEvent) : TimerNode where
  expire := a.1 % 2 ^ 32
  event := a.2

/-- At the unbounded tick `now`, the lists of the timer hold the timeouts `pending`, each list in
the order of `pending`. -/
structure Holds (T : Timer) (now : ℕ) (pending : List (ℕ × TimerEvent)) : Prop where
  time : T.time = now % 2 ^ 32
  bucket : ∀ b, T.bucket b =
    (pending.filter fun a => Wheel.place width 4 now a.1 = b).map nodeOf

namespace Holds

variable {T : Timer} {now : ℕ} {pending : List (ℕ × TimerEvent)}

theorem timerCreateTimer {start : ℕ} (h : start < 2 ^ 32) :
    Holds (timerCreateTimer start) start [] where
  time := (Nat.mod_eq_of_lt h).symm
  bucket := by rintro ⟨_ | k, idx⟩ <;> rfl

theorem timerAdd (h : Holds T now pending) (event : TimerEvent) {delay : ℤ} (hpos : 0 ≤ delay)
    (hfar : delay < 2 ^ 31) :
    ∃ T', timerAdd T event delay = some T' ∧
      Holds T' now (pending ++ [(now + delay.toNat, event)]) := by
  have hexpire : ((delay + T.time) % 2 ^ 32).toNat = (now + delay.toNat) % 2 ^ 32 := by
    rw [h.time]
    omega
  have hadd : addNode T (nodeOf (now + delay.toNat, event)) = _ :=
    addNode_eq h.time rfl (Nat.le_add_right now delay.toNat) (by omega)
  refine ⟨_, by rw [Timing.timerAdd, hexpire]; exact hadd, ?_, fun b => ?_⟩
  · rw [time_append, h.time]
  · rw [bucket_append, h.bucket, filter_append, map_append, filter_singleton]
    split_ifs <;> simp_all

theorem timerShift (h : Holds T now pending)
    (hdue : ∀ a ∈ pending, now < a.1 ∧ a.1 < now + 2 ^ 31) :
    ∃ T', timerShift T = some T' ∧ Holds T' (now + 1) pending := by
  set T₁ : Timer := { T with time := (now + 1) % 2 ^ 32 } with hT₁
  have hbucket : ∀ b, T₁.bucket b = T.bucket b := by rintro ⟨_ | k, idx⟩ <;> rfl
  have hexpire : ∀ a : ℕ × TimerEvent, (nodeOf a).expire = a.1 % 2 ^ 32 := fun _ => rfl
  have hmove := Wheel.filter_place_succ (n := 4) width_dvd width_pos (fun a ha => (hdue a ha).1)
    fun a ha => (hdue a ha).2.trans_le (Nat.add_le_add_left (by decide) now)
  rw [timerShift_eq h.time, ← hT₁]
  rcases hsource : Wheel.source width 4 (now + 1) with _ | b₀
  · refine ⟨T₁, rfl, rfl, fun b => ?_⟩
    have hb := hmove b
    simp only [hsource, reduceCtorEq, if_false, decide_false, filter_false, filter_nil,
      append_nil] at hb
    rw [hbucket, h.bucket, hb]
  · have htime : (T₁.clear b₀).time = (now + 1) % 2 ^ 32 := time_clear _ _
    obtain ⟨T', hfold, htime', hT'⟩ := foldlM_addNode hexpire
      (pending.filter fun a => Wheel.place width 4 now a.1 = b₀) (T₁.clear b₀) htime fun a ha => by
        have := hdue a (mem_of_mem_filter ha)
        omega
    refine ⟨T', ?_, htime', fun b => ?_⟩
    · rw [Timer.cascade, hbucket, h.bucket]
      exact hfold
    · have hb := hmove b
      simp only [hsource, Option.some_inj] at hb
      rw [hT', bucket_clear, hbucket, h.bucket, ← hb, map_append]
      simp only [eq_comm (a := b₀)]
      split_ifs <;> simp

/-- The list of the current tick is the list of what is due now. -/
theorem takeNear (h : Holds T now pending) :
    (takeNear T = none ∧ pending.filter (fun a => a.1 = now) = []) ∨
      ∃ T', takeNear T = some ((pending.filter fun a => a.1 = now).map nodeOf, T') ∧
        Holds T' now (pending.filter fun a => a.1 ≠ now) := by
  have hplace : Wheel.place width 4 now now = (0, T.time &&& timeNearMask) := by
    have hlevel : Wheel.level width 4 now now = 0 :=
      Nat.le_zero.mp (Wheel.level_le_of_div_eq rfl)
    rw [Wheel.place, hlevel, h.time, and_nearMask]
  have hnear : T.near (T.time &&& timeNearMask) =
      (pending.filter fun a => a.1 = now).map nodeOf := by
    have := h.bucket (0, T.time &&& timeNearMask)
    simp only [← hplace, Wheel.place_eq_place_self_iff (w := width) (n := 4) (by omega)] at this
    rw [hplace] at this
    exact this
  rw [Timing.takeNear]
  simp only [hnear, map_eq_nil_iff]
  split_ifs with hnil
  · exact Or.inl ⟨rfl, hnil⟩
  · refine Or.inr ⟨T.clear (0, T.time &&& timeNearMask), rfl, ?_, fun b => ?_⟩
    · rw [time_clear, h.time]
    · rw [bucket_clear, h.bucket, filter_filter, ← hplace]
      split_ifs with hb
      · refine (map_eq_nil_iff.mpr (filter_eq_nil_iff.mpr fun a _ => ?_)).symm
        simp [← hb, Wheel.place_eq_place_self_iff]
      · congr 1
        refine filter_congr fun a _ => ?_
        by_cases ha : a.1 = now
        · simp [ha, hb]
        · simp [ha]

end Holds

end Mtask.Timing
