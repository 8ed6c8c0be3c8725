import Mathlib.Algebra.Group.Nat.Defs
import Mathlib.Tactic.Common

/-!
# The clock of a node

`mtask_updatetime` adds what has passed on the monotonic clock to a counter of centiseconds. The
counter has 32 bits; when it wraps around, whole seconds are added to the time of the start instead,
`0xffffffff / 100` of them, which is 96 centiseconds less than the counter has lost.
-/

namespace Mtask.Timing

/-- The members of `struct timer` that make the clock, in centiseconds but for `starttime`. -/
structure Clock where
  starttime : UInt32
  current : UInt32
  currentPoint : UInt64
  deriving DecidableEq, Repr

namespace Clock

/-- `mtask_timer_init`, with the readings of both clocks. -/
def init (sec cs : UInt32) (point : UInt64) : Clock := ⟨sec, cs, point⟩

/-- The difference of a reading, as `mtask_updatetime` takes it. -/
def diff (c : Clock) (cp : UInt64) : UInt32 := (cp - c.currentPoint).toUInt32

/-- `mtask_updatetime`, with how often it calls `timer_update`. -/
def updatetime (c : Clock) (cp : UInt64) : Clock × UInt32 :=
  if cp < c.currentPoint then ({ c with currentPoint := cp }, 0)
  else if cp ≠ c.currentPoint then
    let current := c.current + c.diff cp
    let starttime := if current < c.current then c.starttime + 0xffffffff / 100 else c.starttime
    ({ starttime, current, currentPoint := cp }, c.diff cp)
  else (c, 0)

/-- `mtask.starttime() * 100 + mtask.now()`; `mtask.time` is the hundredth part. -/
def wallClock (c : Clock) : ℕ := c.starttime.toNat * 100 + c.current.toNat

/-- What has passed on the monotonic clock, if it has gone forward. -/
def forward (c : Clock) (cp : UInt64) : ℕ := cp.toNat - c.currentPoint.toNat

/-- Every forward difference is below `2 ^ 32`. -/
def Admissible : Clock → List UInt64 → Prop
  | _, [] => True
  | c, cp :: cps => c.forward cp < 2 ^ 32 ∧ Admissible (c.updatetime cp).1 cps

/-- At every reading the clock does not decrease, and a forward step adds the difference. -/
def NeverBack : Clock → List UInt64 → Prop
  | _, [] => True
  | c, cp :: cps =>
    (c.wallClock ≤ (c.updatetime cp).1.wallClock ∧
      (c.currentPoint < cp → (c.updatetime cp).1.wallClock = c.wallClock + c.forward cp)) ∧
    NeverBack (c.updatetime cp).1 cps

/-- All that passes on the monotonic clock, going forward. -/
def elapsed (point : ℕ) : List UInt64 → ℕ
  | [] => 0
  | cp :: cps => (cp.toNat - point) + elapsed cp.toNat cps

variable {c : Clock} {cp : UInt64}

@[simp] theorem currentPoint_updatetime : (c.updatetime cp).1.currentPoint = cp := by
  rw [updatetime]
  split
  · rfl
  · split
    · rfl
    · rename_i h
      exact (not_not.mp h).symm

theorem updatetime_of_le (h : cp ≤ c.currentPoint) :
    (c.updatetime cp).1 = { c with currentPoint := cp } := by
  rw [updatetime]
  split
  · rfl
  · rename_i hlt
    have : cp = c.currentPoint := UInt64.le_antisymm h (UInt64.not_lt.mp hlt)
    subst this
    simp

section

variable (h : c.currentPoint < cp)
include h

theorem toNat_diff (hlt : c.forward cp < 2 ^ 32) : (c.diff cp).toNat = c.forward cp := by
  have h' := UInt64.lt_iff_toNat_lt.mp h
  rw [diff, UInt64.toNat_toUInt32, UInt64.toNat_sub_of_le _ _ (UInt64.le_of_lt h)]
  exact Nat.mod_eq_of_lt hlt

theorem toNat_current (hlt : c.forward cp < 2 ^ 32) :
    (c.updatetime cp).1.current.toNat = (c.current.toNat + c.forward cp) % 2 ^ 32 := by
  have hne : cp ≠ c.currentPoint := fun he => UInt64.lt_irrefl _ (he ▸ h)
  rw [updatetime, if_neg (UInt64.not_lt.mpr (UInt64.le_of_lt h)), if_pos hne]
  rw [UInt32.toNat_add, toNat_diff h hlt]

/-- As long as the counter does not wrap, a forward step adds the difference to it. -/
theorem updatetime_of_lt (hwrap : c.current.toNat + c.forward cp < 2 ^ 32) :
    (c.updatetime cp).1.starttime = c.starttime ∧
      (c.updatetime cp).1.current.toNat = c.current.toNat + c.forward cp := by
  have hne : cp ≠ c.currentPoint := fun he => UInt64.lt_irrefl _ (he ▸ h)
  have hcur := toNat_current h (by omega)
  rw [Nat.mod_eq_of_lt hwrap] at hcur
  refine ⟨?_, hcur⟩
  have hsum : (c.current + c.diff cp).toNat = c.current.toNat + c.forward cp := by
    rw [UInt32.toNat_add, toNat_diff h (by omega), Nat.mod_eq_of_lt hwrap]
  rw [updatetime, if_neg (UInt64.not_lt.mpr (UInt64.le_of_lt h)), if_pos hne]
  refine if_neg fun hlt => ?_
  have := UInt32.lt_iff_toNat_lt.mp hlt
  omega

theorem wallClock_of_wrap (hlt : c.forward cp < 2 ^ 32)
    (hwrap : 2 ^ 32 ≤ c.current.toNat + c.forward cp) :
    (c.updatetime cp).1.wallClock < c.wallClock + c.forward cp := by
  have hne : cp ≠ c.currentPoint := fun he => UInt64.lt_irrefl _ (he ▸ h)
  have hcur := toNat_current h hlt
  have hc := c.current.toNat_lt
  have hless : c.current + c.diff cp < c.current := by
    rw [UInt32.lt_iff_toNat_lt, UInt32.toNat_add, toNat_diff h hlt]
    omega
  have hstart : (c.updatetime cp).1.starttime = c.starttime + 0xffffffff / 100 := by
    rw [updatetime, if_neg (UInt64.not_lt.mpr (UInt64.le_of_lt h)), if_pos hne]
    exact if_pos hless
  have hsec : (0xffffffff / 100 : UInt32).toNat = 42949672 := by decide
  rw [wallClock, wallClock, hcur, hstart, UInt32.toNat_add, hsec]
  have := Nat.mod_le (c.starttime.toNat + 42949672) (2 ^ 32)
  omega

end

theorem step_iff (hlt : c.forward cp < 2 ^ 32) :
    (c.wallClock ≤ (c.updatetime cp).1.wallClock ∧
      (c.currentPoint < cp → (c.updatetime cp).1.wallClock = c.wallClock + c.forward cp)) ↔
    c.current.toNat + c.forward cp < 2 ^ 32 := by
  rcases UInt64.lt_or_le c.currentPoint cp with h | h
  · constructor
    · rintro ⟨-, hstep⟩
      by_contra hwrap
      have := wallClock_of_wrap h hlt (Nat.le_of_not_lt hwrap)
      rw [hstep h] at this
      exact Nat.lt_irrefl _ this
    · intro hwrap
      obtain ⟨hs, hc⟩ := updatetime_of_lt h hwrap
      have heq : (c.updatetime cp).1.wallClock = c.wallClock + c.forward cp := by
        rw [wallClock, wallClock, hs, hc, Nat.add_assoc]
      exact ⟨heq ▸ Nat.le_add_right _ _, fun _ => heq⟩
  · have hzero : c.forward cp = 0 := Nat.sub_eq_zero_of_le (UInt64.le_iff_toNat_le.mp h)
    rw [updatetime_of_le h, hzero]
    exact ⟨fun _ => c.current.toNat_lt, fun _ =>
      ⟨Nat.le_refl _, fun h' => absurd h' (UInt64.not_lt.mpr h)⟩⟩

/-- The counter after one reading that does not wrap it. -/
theorem toNat_current_of_lt (hwrap : c.current.toNat + c.forward cp < 2 ^ 32) :
    (c.updatetime cp).1.current.toNat = c.current.toNat + c.forward cp := by
  rcases UInt64.lt_or_le c.currentPoint cp with h | h
  · exact (updatetime_of_lt h hwrap).2
  · have hzero : c.forward cp = 0 := Nat.sub_eq_zero_of_le (UInt64.le_iff_toNat_le.mp h)
    rw [updatetime_of_le h, hzero, Nat.add_zero]

/-- The clock never goes back, and grows by what has passed, exactly as long as the counter, which
begins with the centiseconds at the start, does not reach `2 ^ 32`. -/
theorem neverBack_iff (c : Clock) (cps : List UInt64) (h : Admissible c cps) :
    NeverBack c cps ↔ c.current.toNat + elapsed c.currentPoint.toNat cps < 2 ^ 32 := by
  induction cps generalizing c with
  | nil => exact ⟨fun _ => c.current.toNat_lt, fun _ => trivial⟩
  | cons cp cps ih =>
    obtain ⟨hlt, hrest⟩ := h
    have hstep := step_iff hlt
    have hforward : c.forward cp = cp.toNat - c.currentPoint.toNat := rfl
    rw [NeverBack, hstep, ih _ hrest, currentPoint_updatetime, elapsed, ← hforward]
    constructor
    · rintro ⟨hwrap, hcps⟩
      rw [toNat_current_of_lt hwrap] at hcps
      omega
    · intro hall
      have hwrap : c.current.toNat + c.forward cp < 2 ^ 32 := by omega
      refine ⟨hwrap, ?_⟩
      rw [toNat_current_of_lt hwrap]
      omega

theorem neverBack_two_readings :
    NeverBack (init 1700000000 50 1000) [900, 2000] ↔
      (init 1700000000 50 1000).current.toNat +
        elapsed (init 1700000000 50 1000).currentPoint.toNat [900, 2000] < 2 ^ 32 :=
  neverBack_iff _ _ ⟨by decide, by decide, trivial⟩

/-- One centisecond takes the counter from `0xffffffff` to 0, and the clock back by 95. -/
theorem wrap_goes_back : Admissible (init 0 0 0) [0xffffffff, 0x100000000] ∧
    ¬NeverBack (init 0 0 0) [0xffffffff, 0x100000000] := by
  refine ⟨⟨by decide, by decide, trivial⟩, fun h => ?_⟩
  exact absurd h.2.1.1 (by decide)

end Clock

end Mtask.Timing
