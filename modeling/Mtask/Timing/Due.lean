import Mtask.Timing.TimerWheel

/-!
# Timeouts that are already due

`mtask_timeout` with a delay that is not positive, as it comes from `cmd_timeout`, and the call of
`timer_update` that follows. The sum of a negative delay and the tick wraps around, and so the node
is one that is due in the past or in a far future.
-/

namespace Mtask.Timing

open List

/-- `timer_execute`, if nothing is added while the list is dispatched: the messages pushed, and the
timer without the list. -/
def timerExecute (T : Timer) : List (ℕ × MtaskMessage) × Timer :=
  match takeNear T with
  | none => ([], T)
  | some (current, T) => (current.map fun node => dispatchMessage node.event, T)

/-- `timer_update` -/
def timerUpdate (T : Timer) : Option (List (ℕ × MtaskMessage) × Timer) := do
  let (first, T) := timerExecute T
  let T ← timerShift T
  let (second, T) := timerExecute T
  return (first ++ second, T)

/-- `mtask_timeout`, with the messages pushed at once -/
def mtaskTimeout (T : Timer) (handle : ℕ) (time session : ℤ) :
    Option (List (ℕ × MtaskMessage) × Timer) := do
  if time = 0 then return ([dispatchMessage ⟨handle, session⟩], T)
  else return ([], ← timerAdd T ⟨handle, session⟩ time)

/-- `cmd_timeout`: the `long` of `strtol` becomes an `int`. -/
def cmdTimeout (T : Timer) (handle : ℕ) (param : BitVec 64) (session : ℤ) :
    Option (List (ℕ × MtaskMessage) × Timer) :=
  mtaskTimeout T handle (param.setWidth 32).toInt session

/-- The message for the session is pushed at once or by the next `timer_update`, next to what that
would push without it. -/
def InTime (T : Timer) (handle : ℕ) (param : BitVec 64) (session : ℤ) : Prop :=
  ∃ now T' next others, cmdTimeout T handle param session = some (now, T') ∧
    (timerUpdate T').map Prod.fst = some next ∧ (timerUpdate T).map Prod.fst = some others ∧
    (now ++ next).Perm (dispatchMessage ⟨handle, session⟩ :: others)

/-! ### Where a node goes -/

/-- The list into which `add_node` links a node that expires at `expire`. -/
def target (time expire : ℕ) : ℕ × ℕ :=
  if expire ||| timeNearMask = time ||| timeNearMask then (0, expire &&& timeNearMask)
  else
    let i := levelLoop expire time 3 0 (timeNear <<< timeLevelShift)
    (i + 1, (expire >>> (timeNearShift + i * timeLevelShift)) &&& timeLevelMask)

theorem levelLoop_le (time currentTime n i mask : ℕ) :
    levelLoop time currentTime n i mask ≤ n + i := by
  induction n generalizing i mask with
  | zero => exact Nat.le_add_left _ _
  | succ n ih =>
    rw [levelLoop]
    split
    · exact Nat.le_add_left _ _
    · exact (ih _ _).trans_eq (by omega)

theorem addNode_target (T : Timer) (node : TimerNode) :
    addNode T node = some (T.append (target T.time node.expire) node) := by
  rw [addNode, target]
  by_cases hnear : node.expire ||| timeNearMask = T.time ||| timeNearMask
  · have hlt : node.expire &&& timeNearMask < 2 ^ 8 := Nat.and_lt_two_pow _ (by decide)
    rw [if_pos hnear, if_pos hnear]
    exact if_pos hlt
  · have hi := levelLoop_le node.expire T.time 3 0 (timeNear <<< timeLevelShift)
    have hlt (x : ℕ) : x &&& timeLevelMask < 2 ^ 6 := Nat.and_lt_two_pow _ (by decide)
    rw [if_neg hnear, if_neg hnear]
    exact if_pos ⟨Nat.lt_succ_of_le hi, hlt _⟩

/-- The nodes of a list that are linked into a bucket stand behind the others. -/
theorem foldlM_addNode_target (l : List TimerNode) (T : Timer) :
    ∃ T', l.foldlM addNode T = some T' ∧ T'.time = T.time ∧
      ∀ b, T'.bucket b = T.bucket b ++ l.filter fun node => target T.time node.expire = b := by
  induction l generalizing T with
  | nil => exact ⟨T, rfl, rfl, fun b => by simp⟩
  | cons node l ih =>
    obtain ⟨T', hfold, htime, hbucket⟩ := ih (T.append (target T.time node.expire) node)
    rw [time_append] at htime hbucket
    refine ⟨T', ?_, htime, fun b => ?_⟩
    · rw [foldlM_cons, addNode_target]
      exact hfold
    · rw [hbucket, bucket_append, filter_cons, append_assoc]
      split_ifs with h₁ h₂ h₂ <;> simp_all

theorem target_eq_iff (time expire idx : ℕ) :
    target time expire = (0, idx) ↔ expire / 2 ^ 8 = time / 2 ^ 8 ∧ expire % 2 ^ 8 = idx := by
  have hmask : timeNearMask = 2 ^ 8 - 1 := rfl
  rw [target, hmask, ← or_mask_eq_iff, ← Nat.and_two_pow_sub_one_eq_mod]
  split_ifs with hnear
  · rw [and_iff_right hnear, Prod.mk.injEq, and_iff_right rfl]
  · rw [Prod.mk.injEq]
    exact iff_of_false (fun h => Nat.succ_ne_zero _ h.1) fun h => hnear h.1

/-! ### What `timer_update` pushes -/

/-- The number of the list that is dispatched at a tick. -/
def nearIdx (time : ℕ) : ℕ :=
  time &&& timeNearMask

theorem nearIdx_eq (time : ℕ) : nearIdx time = time % 2 ^ 8 := by
  have hmask : timeNearMask = 2 ^ 8 - 1 := rfl
  rw [nearIdx, hmask, Nat.and_two_pow_sub_one_eq_mod]

/-- The tick after `time`. -/
def nextTick (time : ℕ) : ℕ :=
  (time + 1) % 2 ^ 32

/-- The nodes that `timer_shift` moves to the list of the new tick. -/
def moved (T : Timer) : List TimerNode :=
  ((Wheel.source width 4 (T.time + 1)).elim [] T.bucket).filter fun node =>
    target (nextTick T.time) node.expire = (0, nearIdx (nextTick T.time))

/-- The nodes that `timer_update` dispatches. -/
def due (T : Timer) : List TimerNode :=
  T.bucket (0, nearIdx T.time) ++ (T.bucket (0, nearIdx (nextTick T.time)) ++ moved T)

theorem timerExecute_eq (T : Timer) :
    (timerExecute T).1 =
        (T.bucket (0, nearIdx T.time)).map (fun node => dispatchMessage node.event) ∧
      (timerExecute T).2.time = T.time ∧
      ∀ b, (timerExecute T).2.bucket b = if (0, nearIdx T.time) = b then [] else T.bucket b := by
  by_cases hempty : T.near (nearIdx T.time) = []
  · have htake : takeNear T = none := if_pos hempty
    rw [timerExecute, htake]
    refine ⟨by rw [Timer.bucket, hempty]; rfl, rfl, fun b => ?_⟩
    split_ifs with hb
    · rw [← hb]
      exact hempty
    · rfl
  · have htake : takeNear T = some (T.near (nearIdx T.time), T.clear (0, nearIdx T.time)) :=
      if_neg hempty
    rw [timerExecute, htake]
    exact ⟨rfl, rfl, bucket_clear T (0, nearIdx T.time)⟩

variable {b : ℕ × ℕ}

/-- The buckets that `timer_shift` empties are none of `near`. -/
theorem source_ne {now : ℕ} (h : Wheel.source width 4 now = some b) (idx : ℕ) : b ≠ (0, idx) := by
  rw [Wheel.source] at h
  split_ifs at h with hcarry
  rw [← Option.some.inj h]
  exact fun heq => hcarry (Prod.mk.inj heq).1

/-- The timer at another tick. -/
def Timer.atTick (T : Timer) (time : ℕ) : Timer :=
  { T with time }

theorem bucket_atTick (T : Timer) (time : ℕ) (b : ℕ × ℕ) :
    (T.atTick time).bucket b = T.bucket b := by
  rcases b with ⟨_ | k, idx⟩ <;> rfl

variable {T : Timer}

theorem timerUpdate_eq (htime : T.time < 2 ^ 32) :
    (timerUpdate T).map Prod.fst = some ((due T).map fun node => dispatchMessage node.event) := by
  obtain ⟨hfirst, htime₁, hbucket₁⟩ := timerExecute_eq T
  rcases hexecute : timerExecute T with ⟨first, T₁⟩
  rw [hexecute] at hfirst htime₁ hbucket₁
  dsimp only at hfirst htime₁ hbucket₁
  have hne : (0, nearIdx T.time) ≠ (0, nearIdx (nextTick T.time)) := by
    rw [nearIdx_eq, nearIdx_eq, nextTick]
    intro heq
    have := (Prod.mk.inj heq).2
    omega
  obtain ⟨T₂, hshift, htime₂, hnear⟩ : ∃ T₂, timerShift T₁ = some T₂ ∧
      T₂.time = nextTick T.time ∧ T₂.bucket (0, nearIdx (nextTick T.time)) =
        T.bucket (0, nearIdx (nextTick T.time)) ++ moved T := by
    have hmod : T₁.time = T.time % 2 ^ 32 := by rw [htime₁, Nat.mod_eq_of_lt htime]
    rw [timerShift_eq hmod, moved]
    cases hsource : Wheel.source width 4 (T.time + 1) with
    | none =>
      refine ⟨T₁.atTick (nextTick T.time), rfl, rfl, ?_⟩
      rw [bucket_atTick, hbucket₁, if_neg hne, Option.elim, filter_nil, append_nil]
    | some b =>
      obtain ⟨T₂, hfold, htime₂, hbucket₂⟩ := foldlM_addNode_target
        ((T₁.atTick (nextTick T.time)).bucket b) ((T₁.atTick (nextTick T.time)).clear b)
      rw [time_clear] at htime₂ hbucket₂
      refine ⟨T₂, hfold, htime₂, ?_⟩
      rw [hbucket₂, bucket_clear, if_neg (source_ne hsource _), bucket_atTick, bucket_atTick,
        hbucket₁, hbucket₁, if_neg hne, if_neg (Ne.symm (source_ne hsource _))]
      rfl
  obtain ⟨hsecond, -, -⟩ := timerExecute_eq T₂
  rw [htime₂, hnear] at hsecond
  have hupdate : timerUpdate T = some (first ++ (timerExecute T₂).1, (timerExecute T₂).2) := by
    rw [timerUpdate, hexecute]
    simp only [hshift]
    rfl
  rw [hupdate, Option.map_some, hfirst, hsecond, ← map_append]
  rfl

/-! ### A node that is added -/

/-- The lists from which `timer_update` dispatches a node. -/
def Reached (time : ℕ) (b : ℕ × ℕ) (node : TimerNode) : Prop :=
  b = (0, nearIdx time) ∨ b = (0, nearIdx (nextTick time)) ∨
    Wheel.source width 4 (time + 1) = some b ∧
      target (nextTick time) node.expire = (0, nearIdx (nextTick time))

theorem moved_append (T : Timer) (b : ℕ × ℕ) (node : TimerNode) :
    moved (T.append b node) = moved T ++
      if Wheel.source width 4 (T.time + 1) = some b ∧
        target (nextTick T.time) node.expire = (0, nearIdx (nextTick T.time))
      then [node] else [] := by
  rw [moved, moved, time_append]
  cases hsource : Wheel.source width 4 (T.time + 1) with
  | none =>
    rw [if_neg fun h => nomatch h.1]
    rfl
  | some b' =>
    change List.filter _ ((T.append b node).bucket b') = _
    rw [bucket_append, filter_append]
    congr 1
    by_cases hb : b = b'
    · subst hb
      by_cases htarget : target (nextTick T.time) node.expire = (0, nearIdx (nextTick T.time)) <;>
        simp [htarget]
    · have hb' : ¬some b' = some b := fun h => hb (Option.some.inj h).symm
      simp [hb, Ne.symm hb]

variable {node : TimerNode}

theorem due_append (h : ¬Reached T.time b node) : due (T.append b node) = due T := by
  simp only [Reached, not_or] at h
  rw [due, due, moved_append, time_append, bucket_append, bucket_append, if_neg h.1, if_neg h.2.1,
    if_neg h.2.2]
  simp only [append_nil]

theorem due_append_next :
    (due (T.append (0, nearIdx (nextTick T.time)) node)).Perm (node :: due T) := by
  have hne : (0, nearIdx (nextTick T.time)) ≠ (0, nearIdx T.time) := by
    rw [nearIdx_eq, nearIdx_eq, nextTick]
    intro heq
    have := (Prod.mk.inj heq).2
    omega
  have hsource : ¬(Wheel.source width 4 (T.time + 1) = some (0, nearIdx (nextTick T.time)) ∧
      target (nextTick T.time) node.expire = (0, nearIdx (nextTick T.time))) :=
    fun h => source_ne h.1 _ rfl
  rw [due, due, moved_append, time_append, bucket_append, bucket_append, if_neg hne, if_pos rfl,
    if_neg hsource, append_nil, append_nil, append_assoc]
  exact (perm_middle.append_left _).trans perm_middle

/-- A negative delay is dispatched by the next `timer_update` only if the sum is the first tick of
the block of which the current tick is the last. -/
theorem reached_iff {time : ℕ} (htime : time < 2 ^ 32) {delay : ℤ} (hle : -2 ^ 31 ≤ delay)
    (hneg : delay < 0) (event : TimerEvent) :
    Reached time (target time ((delay + time) % 2 ^ 32).toNat)
        ⟨((delay + time) % 2 ^ 32).toNat, event⟩ ↔
      delay = -255 ∧ time % 2 ^ 8 = 2 ^ 8 - 1 := by
  rw [Reached, target_eq_iff, target_eq_iff, target_eq_iff, nearIdx_eq, nearIdx_eq, nextTick]
  dsimp only
  constructor
  · rintro (h | h | h) <;> omega
  · exact fun h => .inr (.inl (by omega))

theorem inTime_iff_reached (htime : T.time < 2 ^ 32) (handle : ℕ) {param : BitVec 64}
    (hneg : (param.setWidth 32).toInt < 0) (session : ℤ) :
    InTime T handle param session ↔
      (param.setWidth 32).toInt = -255 ∧ T.time % 2 ^ 8 = 2 ^ 8 - 1 := by
  have hle : -2 ^ 31 ≤ (param.setWidth 32).toInt := BitVec.le_toInt _
  have hnext := timerUpdate_eq htime
  rw [InTime, cmdTimeout, mtaskTimeout]
  generalize (param.setWidth 32).toInt = delay at *
  rw [if_neg (Int.ne_of_lt hneg), timerAdd, addNode_target,
    ← reached_iff htime hle hneg ⟨handle, session⟩]
  set expire := ((delay + T.time) % 2 ^ 32).toNat with hexpire
  set b := target T.time expire with hb
  have hadded := timerUpdate_eq (T := T.append b ⟨expire, ⟨handle, session⟩⟩)
    (by rwa [time_append])
  constructor
  · rintro ⟨now, T', next, others, hadd, hnext', hothers, hperm⟩
    cases hadd
    rw [hadded] at hnext'
    rw [hnext] at hothers
    cases hnext'
    cases hothers
    by_contra hnot
    rw [due_append hnot] at hperm
    have hlength := hperm.length_eq
    simp at hlength
  · intro h
    have hslot : b = (0, nearIdx (nextTick T.time)) := by
      have hcond := (reached_iff htime hle hneg ⟨handle, session⟩).1 h
      rw [hb, target_eq_iff, nearIdx_eq, nextTick]
      omega
    refine ⟨_, _, _, _, rfl, hadded, hnext, ?_⟩
    rw [hslot]
    exact due_append_next.map _

/-- **A timeout that is already due is in time** only with a delay of `0`, or with a delay of `-255`
at the last tick of a block. -/
theorem inTime_iff {T : Timer} (htime : T.time < 2 ^ 32) (handle : ℕ) {param : BitVec 64}
    (hparam : (param.setWidth 32).toInt ≤ 0) (session : ℤ) :
    InTime T handle param session ↔ (param.setWidth 32).toInt = 0 ∨
      (param.setWidth 32).toInt = -255 ∧ T.time % 2 ^ 8 = 2 ^ 8 - 1 := by
  rcases hparam.lt_or_eq with hneg | hzero
  · rw [or_iff_right hneg.ne]
    exact inTime_iff_reached htime handle hneg session
  · have hnext := timerUpdate_eq htime
    have hpush : cmdTimeout T handle param session =
        some ([dispatchMessage ⟨handle, session⟩], T) := if_pos hzero
    exact iff_of_true ⟨_, T, _, _, hpush, hnext, hnext, .refl _⟩ (.inl hzero)

/-- A delay of `-255` at the last tick of a block. -/
theorem inTime_lastTick : InTime (timerCreateTimer 255) 7 (-255) 3 :=
  (inTime_iff (by decide) 7 (by decide) 3).2 (.inr (by decide))

/-- A delay of `-1` at the tick `0` ends up at the end of the range of the ticks. -/
theorem not_inTime : ¬InTime (timerCreateTimer 0) 7 (-1) 3 := by
  rw [inTime_iff_reached (by decide) 7 (by decide) 3]
  decide

end Mtask.Timing
