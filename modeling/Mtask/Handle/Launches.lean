import Mtask.Handle.Storage
import Mtask.Lib.Transition

/-!
# Launches and the handle table

`mtask_context_new` registers a context and stores the handle that it gets in the context after the
lock of the table has been given back. Between the two steps the context is in the table with the
handle `0`, and another launch may double the table meanwhile. This file runs any number of
launches, retirements and grabs, the two steps of a launch apart.
-/

namespace Mtask.Handle

open HandleStorage List
open Function (update update_of_ne update_self)

/-- The handle table and the field `handle` of every context; as a history, the handle that was
given to each context, the contexts whose launch has not stored it yet, and the contexts whose
launch has stored it, by their handles, until they are retired. -/
structure LaunchState (Ctx : Type*) where
  storage : HandleStorage Ctx
  handleOf : Ctx → ℕ
  given : Ctx → ℕ
  launching : List Ctx
  live : ℕ → Option Ctx

/-- The steps of `mtask_context_new`, and the retirements and grabs of the other threads. -/
inductive LaunchOp (Ctx : Type*) where
  /-- `ctx->handle = 0`, and `mtask_handle_register` under its lock -/
  | register (ctx : Ctx)
  /-- the store of the result in `ctx->handle` -/
  | store (ctx : Ctx)
  | retire (handle : ℕ)
  | grab (handle : ℕ)

/-- A step is not taken for a context that is in use, or that is not being launched. -/
inductive LaunchFault where
  | contextInUse
  | notLaunching
  | register (fault : RegisterFault)
  deriving DecidableEq, Repr

namespace LaunchState

variable {Ctx : Type*} [DecidableEq Ctx]

/-- The table after `mtask_handle_init`. -/
def init (Ctx : Type*) (harborId : ℕ) : LaunchState Ctx where
  storage := .init Ctx harborId
  handleOf := fun _ => 0
  given := fun _ => 0
  launching := []
  live := fun _ => none

/-- The result of `mtask_handle_grab`. -/
def grab (st : LaunchState Ctx) (handle : ℕ) : Option Ctx :=
  st.storage.grab st.handleOf handle

def step (st : LaunchState Ctx) : LaunchOp Ctx → Except LaunchFault (LaunchState Ctx)
  | .register ctx =>
    if some ctx ∈ st.storage.slot ∨ ctx ∈ st.launching then .error .contextInUse
    else
      let handleOf := update st.handleOf ctx 0
      match st.storage.register handleOf ctx with
      | .ok (handle, storage) => .ok { st with
          storage
          handleOf
          given := update st.given ctx handle
          launching := ctx :: st.launching }
      | .error fault => .error (.register fault)
  | .store ctx =>
    if ctx ∈ st.launching then .ok { st with
        handleOf := update st.handleOf ctx (st.given ctx)
        launching := st.launching.filter (· ≠ ctx)
        live := update st.live (st.given ctx) (some ctx) }
    else .error .notLaunching
  | .retire handle => .ok { st with
      storage := (st.storage.retire st.handleOf handle).2
      live := update st.live handle none }
  | .grab _ => .ok st

/-- The steps that do no harm to a launch under way. A registration finds a free slot, or the
doubled table has the slot `0` for every context whose handle is not stored yet; and no retirement
takes out such a context, whose handle is still `0`. -/
def Permits (st : LaunchState Ctx) : LaunchOp Ctx → Prop
  | .register _ => ¬st.storage.Full ∨
      ∀ c ∈ st.launching, st.given c % (st.storage.slotSize * 2) = 0
  | .retire handle => ∀ c ∈ st.launching, st.grab handle ≠ some c
  | _ => True

/-- Every context is in the slot of the handle it was given, which it knows once its launch has
stored it. -/
structure Inv (st : LaunchState Ctx) : Prop where
  placed : st.storage.Placed st.given
  launching : ∀ c ∈ st.launching, some c ∈ st.storage.slot ∧ st.handleOf c = 0
  stored : ∀ c, some c ∈ st.storage.slot → c ∉ st.launching → st.handleOf c = st.given c
  live_iff : ∀ h c, st.live h = some c ↔
    some c ∈ st.storage.slot ∧ c ∉ st.launching ∧ st.given c = h

omit [DecidableEq Ctx] in
theorem inv_init (harborId : ℕ) : (init Ctx harborId).Inv where
  placed i c hc := by simp [init, HandleStorage.init, getElem?_replicate] at hc
  launching := by simp [init]
  stored c hc := by simp [init, HandleStorage.init] at hc
  live_iff h c := by simp [init, HandleStorage.init]

namespace Inv

variable {st st' : LaunchState Ctx} {ctx : Ctx}

omit [DecidableEq Ctx] in
theorem slot_given (hinv : st.Inv) {c : Ctx} (hc : some c ∈ st.storage.slot) :
    st.storage.slot[st.storage.hash (st.given c)]? = some (some c) := by
  obtain ⟨i, hi⟩ := mem_slot_iff.mp hc
  rwa [hinv.placed i c hi]

omit [DecidableEq Ctx] in
/-- Contexts with handles of one slot are one context. -/
theorem hash_given_injOn (hinv : st.Inv) {c d : Ctx} (hc : some c ∈ st.storage.slot)
    (hd : some d ∈ st.storage.slot)
    (h : st.storage.hash (st.given c) = st.storage.hash (st.given d)) : c = d := by
  have hslot := hinv.slot_given hc
  rw [h, hinv.slot_given hd] at hslot
  exact (Option.some_inj.mp (Option.some_inj.mp hslot)).symm

omit [DecidableEq Ctx] in
/-- A context is found from the store of its handle until its retirement. -/
theorem grab_of_live (hinv : st.Inv) {h : ℕ} {c : Ctx} (hlive : st.live h = some c) :
    st.grab h = some c := by
  obtain ⟨hc, hstored, rfl⟩ := (hinv.live_iff h c).mp hlive
  exact grab_of_placed hinv.placed hc (hinv.stored c hc hstored)

/-- The loop that rehashes reads the low bits of the handles that were given. -/
theorem handle_mod (hinv : st.Inv) (hctx : some ctx ∉ st.storage.slot)
    (hok : ∀ c ∈ st.launching, st.given c % (st.storage.slotSize * 2) = 0) {c : Ctx}
    (hc : some c ∈ st.storage.slot) :
    update st.handleOf ctx 0 c % (st.storage.slotSize * 2) =
      st.given c % (st.storage.slotSize * 2) := by
  have hne : c ≠ ctx := fun h => hctx (h ▸ hc)
  rw [update_of_ne hne]
  by_cases hlaunching : c ∈ st.launching
  · rw [(hinv.launching c hlaunching).2, hok c hlaunching, Nat.zero_mod]
  · rw [hinv.stored c hc hlaunching]

theorem register (hinv : st.Inv) (hok : st.Permits (.register ctx))
    (h : st.step (.register ctx) = .ok st') : st'.Inv := by
  rw [LaunchState.step] at h
  split_ifs at h with huse
  obtain ⟨hctx, hnew⟩ := not_or.mp huse
  simp only at h
  split at h
  case h_2 => cases h
  next handle storage hreg =>
  cases h
  obtain ⟨s₁, low, hs₁, hlow, rfl, rfl⟩ := register_cases hreg
  obtain ⟨hlt, hfree⟩ := findSlot_eq_some hlow
  have hplaced : s₁.Placed st.given := by
    rcases hs₁ with rfl | ⟨hfull, hgrow⟩
    · exact hinv.placed
    · exact placed_grow hgrow fun c hc =>
        hinv.handle_mod hctx (hok.resolve_left (not_not.mpr hfull)) hc
  have hmem : ∀ c, some c ∈ s₁.slot ↔ some c ∈ st.storage.slot := by
    rcases hs₁ with rfl | ⟨-, hgrow⟩
    · exact fun c => Iff.rfl
    · exact mem_grow hgrow
  have hold : ∀ c, c ≠ ctx → update st.given ctx (low ||| s₁.harbor) c = st.given c :=
    fun c hne => update_of_ne hne ..
  have hin : ∀ c, some c ∈ st.storage.slot → c ≠ ctx := fun c hc h => hctx (h ▸ hc)
  refine ⟨?_, fun c hc => ?_, fun c hc hstored => ?_, fun h c => ?_⟩
  · refine placed_place hplaced (fun c hc => hold c (hin c ((hmem c).mp hc))) ?_
    simp only [update_self, s₁.hash_or_harbor low hlt]
  · rw [mem_place hfree, hmem]
    rcases mem_cons.mp hc with rfl | hc
    · exact ⟨Or.inl rfl, update_self ..⟩
    · obtain ⟨hslot, hzero⟩ := hinv.launching c hc
      exact ⟨Or.inr hslot, (update_of_ne (hin c hslot) ..).trans hzero⟩
  · rw [mem_place hfree, hmem] at hc
    obtain ⟨hne, hstored⟩ := not_or.mp (mt mem_cons.mpr hstored)
    have hslot := hc.resolve_left (Ne.symm hne)
    exact (update_of_ne hne ..).trans
      ((hinv.stored c hslot hstored).trans (hold c hne).symm)
  · rw [mem_place hfree, hmem, hinv.live_iff, mem_cons]
    by_cases hne : c = ctx
    · subst hne
      exact iff_of_false (fun h => hctx h.1) fun h => h.2.1 (Or.inl rfl)
    · simp only [hold c hne]
      simp [hne, Ne.symm hne]

theorem store (hinv : st.Inv) (h : st.step (.store ctx) = .ok st') : st'.Inv := by
  rw [LaunchState.step] at h
  split_ifs at h with hctx
  cases h
  obtain ⟨hslot, -⟩ := hinv.launching ctx hctx
  refine ⟨hinv.placed, fun c hc => ?_, fun c hc hstored => ?_, fun h c => ?_⟩
  · obtain ⟨hc, hne⟩ := mem_filter.mp hc
    obtain ⟨hc, hzero⟩ := hinv.launching c hc
    exact ⟨hc, (update_of_ne (of_decide_eq_true hne) ..).trans hzero⟩
  · by_cases hne : c = ctx
    · rw [hne]
      exact update_self ..
    · refine (update_of_ne hne ..).trans (hinv.stored c hc fun hmem => hstored ?_)
      exact mem_filter.mpr ⟨hmem, decide_eq_true hne⟩
  · show update st.live (st.given ctx) (some ctx) h = some c ↔ _
    have hlaunching : c ∉ st.launching.filter (· ≠ ctx) ↔ c ∉ st.launching ∨ c = ctx := by
      rw [mem_filter, decide_eq_true_eq]
      tauto
    rw [hlaunching]
    by_cases hh : h = st.given ctx
    · subst hh
      rw [update_self, Option.some_inj]
      constructor
      · rintro rfl
        exact ⟨hslot, Or.inr rfl, rfl⟩
      · rintro ⟨hc, -, hgiven⟩
        exact hinv.hash_given_injOn hslot hc (congrArg _ hgiven.symm)
    · rw [update_of_ne hh, hinv.live_iff]
      refine and_congr_right fun hc => ⟨fun h => ⟨Or.inl h.1, h.2⟩, ?_⟩
      rintro ⟨hstored | rfl, hgiven⟩
      · exact ⟨hstored, hgiven⟩
      · exact absurd hgiven.symm hh

theorem retire (hinv : st.Inv) {handle : ℕ} (hok : st.Permits (.retire handle))
    (h : st.step (.retire handle) = .ok st') : st'.Inv := by
  cases h
  rcases hgrab : st.storage.grab st.handleOf handle with _ | d
  · have hnone : st.live handle = none := Option.eq_none_iff_forall_not_mem.mpr fun c hc => by
      have hfound := hinv.grab_of_live hc
      rw [LaunchState.grab, hgrab] at hfound
      cases hfound
    rw [retire_of_grab_eq_none hgrab, ← hnone, Function.update_eq_self]
    exact hinv
  · have hd : d ∉ st.launching := fun hd => hok d hd hgrab
    obtain ⟨hslot, hhandle⟩ := grab_eq_some_iff.mp hgrab
    have hgiven : st.given d = handle := by
      rw [← hinv.stored d (mem_slot_iff.mpr ⟨_, hslot⟩) hd, hhandle]
    refine ⟨placed_retire hinv.placed, fun c hc => ?_, fun c hc hstored => ?_, fun h c => ?_⟩
    · obtain ⟨hc', hzero⟩ := hinv.launching c hc
      refine ⟨(mem_retire hinv.placed hgrab).mpr ⟨hc', ?_⟩, hzero⟩
      rintro rfl
      exact hd hc
    · exact hinv.stored c ((mem_retire hinv.placed hgrab).mp hc).1 hstored
    · show update st.live handle none h = some c ↔ _
      rw [mem_retire hinv.placed hgrab]
      by_cases hh : h = handle
      · subst hh
        rw [update_self]
        refine iff_of_false (by simp) ?_
        rintro ⟨⟨hc, hne⟩, -, hc'⟩
        exact hne (hinv.hash_given_injOn hc (mem_slot_iff.mpr ⟨_, hslot⟩)
          (congrArg _ (hc'.trans hgiven.symm)))
      · rw [update_of_ne hh, hinv.live_iff]
        constructor
        · rintro ⟨hc, hstored, rfl⟩
          refine ⟨⟨hc, ?_⟩, hstored, rfl⟩
          rintro rfl
          exact hh hgiven
        · rintro ⟨⟨hc, -⟩, h⟩
          exact ⟨hc, h⟩

theorem step (hinv : st.Inv) {op : LaunchOp Ctx} (hok : st.Permits op)
    (h : st.step op = .ok st') : st'.Inv := by
  rcases op with ctx | ctx | handle | handle
  · exact hinv.register hok h
  · exact hinv.store h
  · exact hinv.retire hok h
  · cases h
    exact hinv

end Inv

theorem inv_of_reaches {harborId : ℕ} {st : LaunchState Ctx}
    (h : Transition.Reaches step Permits (init Ctx harborId) st) : st.Inv :=
  h.invariant (inv_init harborId) fun _ _ _ hinv hok hs => hinv.step hok hs

end LaunchState

/-- **Launches keep their contexts findable.** After any permitted steps of any number of launches,
retirements and grabs: every context of the table is in the slot of the handle it was given, no two
of them in one slot; a context whose launch has stored its handle is found under it until it is
retired; and a permitted registration never finds an occupied slot while it rehashes, it only fails
with `2 ^ 24` contexts in the table. -/
theorem launches_findable {Ctx : Type*} [DecidableEq Ctx] {harborId : ℕ} {st : LaunchState Ctx}
    (hrun : Transition.Reaches LaunchState.step LaunchState.Permits (.init Ctx harborId) st) :
    (∀ c, some c ∈ st.storage.slot →
      st.storage.slot[st.storage.hash (st.given c)]? = some (some c)) ∧
    (∀ c d, some c ∈ st.storage.slot → some d ∈ st.storage.slot → c ≠ d →
      st.storage.hash (st.given c) ≠ st.storage.hash (st.given d)) ∧
    (∀ h c, st.live h = some c → st.grab h = some c) ∧
    ∀ c fault, st.Permits (.register c) → st.step (.register c) = .error (.register fault) →
      fault = .tooManySlots ∧ st.storage.slotSize = 2 ^ 24 := by
  have hinv := LaunchState.inv_of_reaches hrun
  refine ⟨fun c => hinv.slot_given, fun c d hc hd hne h => hne (hinv.hash_given_injOn hc hd h),
    fun h c => hinv.grab_of_live, fun ctx fault hok hfault => ?_⟩
  rw [LaunchState.step] at hfault
  by_cases huse : some ctx ∈ st.storage.slot ∨ ctx ∈ st.launching
  · rw [if_pos huse] at hfault
    cases hfault
  rw [if_neg huse] at hfault
  simp only at hfault
  split at hfault
  · cases hfault
  · next e he =>
    cases hfault
    refine register_eq_error hinv.placed (fun hfull c hc => ?_) he
    exact hinv.handle_mod (not_or.mp huse).1 (hok.resolve_left (not_not.mpr hfull)) hc

/-- Three launches are done, the fourth has not stored its handle when the fifth doubles the
table: the fourth context goes to the slot `0`, and is not found under its handle. If the second has
not stored its handle either, the slot is occupied already. -/
theorem launch_misplaced :
    ∃ st : LaunchState ℕ,
      Transition.exec LaunchState.step (.init ℕ 1)
        [.register 10, .store 10, .register 11, .store 11, .register 12, .store 12,
          .register 13, .register 14, .store 13] = .ok st ∧
      st.live 0x1000004 = some 13 ∧ st.grab 0x1000004 = none ∧
      Transition.exec LaunchState.step (.init ℕ 1) [.register 10, .store 10, .register 11,
        .register 12, .store 12, .register 13, .register 14] =
          .error (.register .newSlotOccupied) :=
  ⟨_, rfl, rfl, rfl, rfl⟩

/-- Two launches at a time while the table has free slots, and a doubling when no launch is under
way. -/
theorem launches_findable_doubled :
    ∃ st : LaunchState ℕ,
      Transition.Reaches LaunchState.step LaunchState.Permits (.init ℕ 1) st ∧
      st.storage.slotSize = 8 ∧ st.live 0x1000004 = some 13 ∧ st.grab 0x1000004 = some 13 := by
  have hfree : ∀ {st : LaunchState ℕ} {c : ℕ}, none ∈ st.storage.slot → st.Permits (.register c) :=
    fun hnone => Or.inl fun hfull => by simpa using hfull none hnone
  obtain ⟨st, hrun, hsize, hlive⟩ : ∃ st : LaunchState ℕ,
      Transition.Reaches LaunchState.step LaunchState.Permits (.init ℕ 1) st ∧
      st.storage.slotSize = 8 ∧ st.live 0x1000004 = some 13 := by
    refine ⟨_, .tail (a := .register 14) (.tail (a := .store 13) (.tail (a := .store 12)
      (.tail (a := .register 13) (.tail (a := .register 12) (.tail (a := .store 10)
      (.tail (a := .store 11) (.tail (a := .register 11) (.tail (a := .register 10) .refl
      ?_ rfl) ?_ rfl) ?_ rfl) ?_ rfl) ?_ rfl) ?_ rfl) ?_ rfl) ?_ rfl) ?_ rfl, rfl, rfl⟩
    all_goals first
      | exact trivial
      | exact hfree (by decide)
      | exact Or.inr fun c hc => absurd hc List.not_mem_nil
  exact ⟨st, hrun, hsize, hlive, (launches_findable hrun).2.2.1 _ _ hlive⟩

end Mtask.Handle
