import Mtask.Lib.Sums
import Mtask.Lib.Transition

/-!
# The lock of the handles

A reader announces itself in `read` and looks at `write` once more; a writer sets `write` and waits
until there are no readers. Each load and each atomic operation is one step of some thread, in any
order. `read` is an `int`, which wraps around.
-/

namespace Mtask.RwLock

open Function Sums Transition

/-- Where a thread is: between the functions, or in front of an access to the lock. -/
inductive Pc
  | idle
  /-- `while(lock->write)` of `rwlock_rlock` -/
  | rTest
  /-- `__sync_add_and_fetch(&lock->read,1)` -/
  | rAdd
  /-- `if (lock->write)` -/
  | rCheck
  /-- `__sync_sub_and_fetch(&lock->read,1)` of `rwlock_rlock` -/
  | rSub
  /-- between `rwlock_rlock` and `rwlock_runlock` -/
  | reading
  /-- `__sync_lock_test_and_set(&lock->write,1)` -/
  | wSet
  /-- `while(lock->read)` -/
  | wWait
  /-- between `rwlock_wlock` and `rwlock_wunlock` -/
  | writing
  deriving DecidableEq, Repr

/-- `struct rwlock` -/
structure Lock where
  write : Bool
  read : BitVec 32
  deriving DecidableEq, Repr

/-- The step of a thread, which calls `rwlock_wlock` or `rwlock_rlock` if it is in neither. -/
def run (lock : Lock) (writes : Bool) : Pc → Lock × Pc
  | .idle => (lock, if writes then .wSet else .rTest)
  | .rTest => (lock, if lock.write then .rTest else .rAdd)
  | .rAdd => ({ lock with read := lock.read + 1 }, .rCheck)
  | .rCheck => (lock, if lock.write then .rSub else .reading)
  | .rSub => ({ lock with read := lock.read - 1 }, .rTest)
  | .reading => ({ lock with read := lock.read - 1 }, .idle)
  | .wSet => ({ lock with write := true }, if lock.write then .wSet else .wWait)
  | .wWait => (lock, if lock.read ≠ 0 then .wWait else .writing)
  | .writing => ({ lock with write := false }, .idle)

/-- The lock and the threads. -/
structure State where
  lock : Lock
  pc : ℕ → Pc

/-- `rwlock_init` -/
def init : State := ⟨⟨false, 0⟩, fun _ => .idle⟩

/-- A step of the thread `a.1`. -/
def step (s : State) (a : ℕ × Bool) : Except Empty State :=
  .ok ⟨(run s.lock a.2 (s.pc a.1)).1, update s.pc a.1 (run s.lock a.2 (s.pc a.1)).2⟩

/-- The states of `n` threads in which any of them has taken any steps. -/
def Reachable (n : ℕ) (s : State) : Prop :=
  Reaches step (fun _ a => a.1 < n) init s

/-- The thread is a reader inside, or in the middle of the attempt of `rwlock_rlock`. -/
def Pc.counted : Pc → ℕ
  | .rCheck | .rSub | .reading => 1
  | _ => 0

/-- The thread has set `write`. -/
def Pc.Holds (pc : Pc) : Prop := pc = .wWait ∨ pc = .writing

/-- What the lock should ensure for `n` threads. -/
structure Excludes (n : ℕ) (s : State) : Prop where
  writer : ∀ t t', s.pc t = .writing → s.pc t' = .writing → t = t'
  reader : ∀ t t', s.pc t = .writing → s.pc t' ≠ .reading
  nonneg : 0 ≤ s.lock.read.toInt
  read : s.lock.read.toInt = total n Pc.counted s.pc

/-! ### The invariant -/

/-- The flag is set by one thread at most, and a writer inside is alone. -/
structure Inv (n : ℕ) (s : State) : Prop where
  read : s.lock.read = BitVec.ofNat 32 (total n Pc.counted s.pc)
  flag : ∀ t, (s.pc t).Holds → s.lock.write = true
  one : ∀ t t', (s.pc t).Holds → (s.pc t').Holds → t = t'
  alone : ∀ t t', s.pc t = .writing → s.pc t' ≠ .reading
  idle : ∀ t, n ≤ t → s.pc t = .idle

section Inv

variable {n t : ℕ} {s : State} {lock : Lock} {writes : Bool} {pc : Pc}

theorem total_le (n : ℕ) (f : ℕ → Pc) : total n Pc.counted f ≤ n := by
  have hone : ∀ t ∈ Finset.range n, (f t).counted ≤ 1 := fun t _ => by cases f t <;> decide
  have hsum := Finset.sum_le_card_nsmul _ _ 1 hone
  rw [Finset.card_range, Nat.nsmul_eq_mul, Nat.mul_one] at hsum
  rw [total]
  exact hsum

theorem run_read : (run lock writes pc).1.read + BitVec.ofNat 32 pc.counted =
    lock.read + BitVec.ofNat 32 (run lock writes pc).2.counted := by
  obtain ⟨write, read⟩ := lock
  cases pc with
  | rSub | reading => exact (BitVec.sub_add_cancel _ _).trans (BitVec.add_zero _).symm
  | rAdd => exact BitVec.add_zero _
  | wWait => by_cases hread : read = 0#32 <;> simp [run, hread, Pc.counted]
  | _ => cases write <;> cases writes <;> rfl

/-- A thread that holds the flag has done so before, or has found that it was not set. -/
theorem run_holds (h : (run lock writes pc).2.Holds) :
    (pc.Holds ∧ (run lock writes pc).1.write = lock.write) ∨
      (lock.write = false ∧ (run lock writes pc).1.write = true) := by
  obtain ⟨write, read⟩ := lock
  cases pc with
  | wWait => exact .inl ⟨.inl rfl, rfl⟩
  | _ => cases write <;> cases writes <;> simp_all [run, Pc.Holds]

theorem run_write (lock : Lock) (writes : Bool) (pc : Pc) :
    (run lock writes pc).1.write = lock.write ∨ (run lock writes pc).1.write = true ∨
      pc = .writing := by
  cases pc <;> simp [run]

theorem run_writing (h : (run lock writes pc).2 = .writing) : lock.read = 0 := by
  obtain ⟨write, read⟩ := lock
  cases pc with
  | wWait =>
    by_contra hread
    rw [run, if_pos hread] at h
    cases h
  | _ => cases write <;> cases writes <;> cases h

theorem run_reading (h : (run lock writes pc).2 = .reading) : lock.write = false := by
  obtain ⟨write, read⟩ := lock
  cases pc with
  | wWait => by_cases hread : read = 0#32 <;> simp [run, hread] at h
  | _ => cases write <;> cases writes <;> first | rfl | cases h

namespace Inv

theorem init : Inv n RwLock.init where
  read := by
    have hzero : total n Pc.counted RwLock.init.pc = 0 := by
      rw [total]
      exact Finset.sum_const_zero
    rw [hzero]
    rfl
  flag t h := by cases h <;> contradiction
  one t t' h := by cases h <;> contradiction
  alone t t' h := by cases h
  idle _ _ := rfl

theorem not_reading (h : Inv n s) (hn : n < 2 ^ 32) (hread : s.lock.read = 0) (t : ℕ) :
    s.pc t ≠ .reading := by
  intro hpc
  have hlt : t < n := by
    by_contra hge
    rw [h.idle t (Nat.le_of_not_lt hge)] at hpc
    cases hpc
  have hle := total_le n s.pc
  have hzero : total n Pc.counted s.pc = 0 := by
    have htoNat := congrArg BitVec.toNat (h.read.symm.trans hread)
    rw [BitVec.toNat_ofNat, Nat.mod_eq_of_lt (by omega)] at htoNat
    exact htoNat
  rw [total] at hzero
  have hcounted := Finset.sum_eq_zero_iff.mp hzero t (Finset.mem_range.mpr hlt)
  rw [hpc] at hcounted
  cases hcounted

/-- **Every step keeps the invariant.** -/
theorem step (h : Inv n s) (hn : n < 2 ^ 32) (ht : t < n) (writes : Bool) :
    Inv n ⟨(run s.lock writes (s.pc t)).1, update s.pc t (run s.lock writes (s.pc t)).2⟩ where
  read := by
    have hsum := congrArg (BitVec.ofNat 32)
      (sum_update_add ht s.pc (run s.lock writes (s.pc t)).2 Pc.counted)
    rw [BitVec.ofNat_add, BitVec.ofNat_add] at hsum
    refine (BitVec.add_left_inj (BitVec.ofNat 32 (s.pc t).counted)).mp ?_
    rw [run_read, h.read, total, total]
    exact hsum.symm
  flag t₁ h₁ := by
    change (update s.pc t _ t₁).Holds at h₁
    rcases eq_or_ne t₁ t with rfl | hne
    · rw [update_self] at h₁
      rcases run_holds h₁ with ⟨hold, hsame⟩ | ⟨-, hset⟩
      · exact hsame.trans (h.flag t₁ hold)
      · exact hset
    · rw [update_of_ne hne] at h₁
      rcases run_write s.lock writes (s.pc t) with hsame | hset | hpc
      · exact hsame.trans (h.flag t₁ h₁)
      · exact hset
      · exact absurd (h.one t₁ t h₁ (.inr hpc)) hne
  one t₁ t₂ h₁ h₂ := by
    change (update s.pc t _ t₁).Holds at h₁
    change (update s.pc t _ t₂).Holds at h₂
    have hother {t' : ℕ} (hne : t' ≠ t) (h₀ : (run s.lock writes (s.pc t)).2.Holds)
        (h' : (s.pc t').Holds) : False := by
      rcases run_holds h₀ with ⟨hold, -⟩ | ⟨hclear, -⟩
      · exact hne (h.one t' t h' hold)
      · exact absurd (h.flag t' h') (by rw [hclear]; exact Bool.false_ne_true)
    rcases eq_or_ne t₁ t with heq₁ | hne₁ <;> rcases eq_or_ne t₂ t with heq₂ | hne₂
    · exact heq₁.trans heq₂.symm
    · rw [heq₁, update_self] at h₁
      rw [update_of_ne hne₂] at h₂
      exact (hother hne₂ h₁ h₂).elim
    · rw [heq₂, update_self] at h₂
      rw [update_of_ne hne₁] at h₁
      exact (hother hne₁ h₂ h₁).elim
    · rw [update_of_ne hne₁] at h₁
      rw [update_of_ne hne₂] at h₂
      exact h.one t₁ t₂ h₁ h₂
  alone t₁ t₂ h₁ h₂ := by
    change update s.pc t _ t₁ = _ at h₁
    change update s.pc t _ t₂ = _ at h₂
    rcases eq_or_ne t₁ t with heq₁ | hne₁ <;> rcases eq_or_ne t₂ t with heq₂ | hne₂
    · rw [heq₁] at h₁
      rw [heq₂, h₁] at h₂
      cases h₂
    · rw [heq₁, update_self] at h₁
      rw [update_of_ne hne₂] at h₂
      exact h.not_reading hn (run_writing h₁) t₂ h₂
    · rw [heq₂, update_self] at h₂
      rw [update_of_ne hne₁] at h₁
      have hset := h.flag t₁ (.inr h₁)
      rw [run_reading h₂] at hset
      cases hset
    · rw [update_of_ne hne₁] at h₁
      rw [update_of_ne hne₂] at h₂
      exact h.alone t₁ t₂ h₁ h₂
  idle t₁ hge := by
    change update s.pc t _ t₁ = _
    rw [update_of_ne (by omega)]
    exact h.idle t₁ hge

theorem excludes (h : Inv n s) (hn : n < 2 ^ 31) : Excludes n s := by
  have hle := total_le n s.pc
  have hread : s.lock.read.toInt = total n Pc.counted s.pc := by
    rw [h.read, BitVec.toInt_ofNat', Int.bmod_eq_of_le (by omega) (by omega)]
  exact ⟨fun t t' ht ht' => h.one t t' (.inr ht) (.inr ht'), h.alone, by omega, hread⟩

end Inv

theorem excludes_of_lt (hn : n < 2 ^ 31) (hs : Reachable n s) : Excludes n s := by
  refine (hs.invariant Inv.init fun u v a hu ha hstep => ?_).excludes hn
  obtain rfl := Except.ok.inj hstep
  exact hu.step (by omega) ha a.2

/-! ### More readers than can be counted -/

/-- The first `k` threads are readers inside. -/
def inside (k : ℕ) : State := ⟨⟨false, BitVec.ofNat 32 k⟩, fun t => if t < k then .reading else .idle⟩

theorem step_update (lock : Lock) (f : ℕ → Pc) (t : ℕ) (pc : Pc) :
    step ⟨lock, update f t pc⟩ (t, false) =
      .ok ⟨(run lock false pc).1, update f t (run lock false pc).2⟩ := by
  simp only [step, update_self, update_idem]

theorem reachable_inside {k : ℕ} (hk : k ≤ n) : Reachable n (inside k) := by
  induction k with
  | zero => exact .refl
  | succ k ih =>
    have hidle : (inside k).pc = update (inside k).pc k .idle :=
      (update_eq_self_iff.mpr (if_neg (Nat.lt_irrefl k)).symm).symm
    have hreading : update (inside k).pc k .reading = (inside (k + 1)).pc := by
      funext t
      rcases eq_or_ne t k with rfl | hne
      · rw [update_self]
        exact (if_pos (Nat.lt_succ_self t)).symm
      · rw [update_of_ne hne]
        exact if_congr (by omega) rfl rfl
    have hgo (lock : Lock) (pc : Pc) : Reaches step (fun _ a => a.1 < n)
        ⟨lock, update (inside k).pc k pc⟩
        ⟨(run lock false pc).1, update (inside k).pc k (run lock false pc).2⟩ :=
      .single (a := (k, false)) hk (step_update lock _ k pc)
    have hinside := (((hgo (inside k).lock .idle).trans (hgo _ .rTest)).trans (hgo _ .rAdd)).trans
      (hgo _ .rCheck)
    have hsame : (⟨(inside k).lock, update (inside k).pc k .idle⟩ : State) = inside k := by
      rw [← hidle]
    rw [hsame] at hinside
    have hlast := (ih (by omega)).trans hinside
    have hread : BitVec.ofNat 32 k + 1 = BitVec.ofNat 32 (k + 1) := (BitVec.ofNat_add k 1).symm
    change Reachable n ⟨⟨false, BitVec.ofNat 32 k + 1⟩, update (inside k).pc k .reading⟩ at hlast
    rw [hread, hreading] at hlast
    exact hlast

theorem lt_of_excludes (h : ∀ s, Reachable n s → Excludes n s) : n < 2 ^ 31 := by
  by_contra hge
  have hnonneg := (h _ (reachable_inside (Nat.le_of_not_lt hge))).nonneg
  exact absurd hnonneg (by decide)

end Inv

end Mtask.RwLock
