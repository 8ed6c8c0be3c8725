import Mtask.Handle.Storage
import Mtask.Lib.Transition

/-!
# The handle table as a registry

The abstract view of the handle table is a partial map from handles to contexts: a registration
binds a handle that was free, a retirement frees it, and a grab reads it. This file runs the table
of `Storage` through any sequence of the three operations, the store of the new
handle into the context being part of the registration, and keeps the abstract map beside it.
-/

namespace Mtask.Handle

open HandleStorage
open Function (update update_of_ne update_self)

/-- The handle table, the field `handle` of every context, and, as a history of the operations,
the context registered under each handle and not retired since. -/
structure TableState (Ctx : Type*) where
  storage : HandleStorage Ctx
  handleOf : Ctx → ℕ
  registered : ℕ → Option Ctx

/-- The operations on the handle table. -/
inductive TableOp (Ctx : Type*) where
  | register (ctx : Ctx)
  | retire (handle : ℕ)
  | grab (handle : ℕ)

/-- The ways in which an operation on the table can fail. A context in use is not registered
again: `mtask_context_new` registers a context it has just allocated. -/
inductive TableFault where
  | contextInUse
  | register (fault : RegisterFault)
  deriving DecidableEq, Repr

namespace TableState

variable {Ctx : Type*} [DecidableEq Ctx]

/-- The table after `mtask_handle_init`. -/
def init (Ctx : Type*) (harborId : ℕ) : TableState Ctx where
  storage := .init Ctx harborId
  handleOf := fun _ => 0
  registered := fun _ => none

/-- The result of `mtask_handle_grab`. -/
def grab (st : TableState Ctx) (handle : ℕ) : Option Ctx :=
  st.storage.grab st.handleOf handle

/-- One operation, registration and the store of `ctx->handle` being one step. -/
def step (st : TableState Ctx) : TableOp Ctx → Except TableFault (TableState Ctx)
  | .register ctx =>
    if some ctx ∈ st.storage.slot then .error .contextInUse
    else
      match st.storage.register st.handleOf ctx with
      | .ok (handle, storage) => .ok {
          storage
          handleOf := update st.handleOf ctx handle
          registered := update st.registered handle (some ctx) }
      | .error fault => .error (.register fault)
  | .retire handle => .ok { st with
      storage := (st.storage.retire st.handleOf handle).2
      registered := update st.registered handle none }
  | .grab _ => .ok st

/-- Every context of the table is in the slot of its handle, and the abstract map holds exactly
the contexts of the table, each under its handle. -/
structure Inv (st : TableState Ctx) : Prop where
  placed : st.storage.Placed st.handleOf
  registered_iff : ∀ h c,
    st.registered h = some c ↔ some c ∈ st.storage.slot ∧ st.handleOf c = h

omit [DecidableEq Ctx] in
theorem inv_init (harborId : ℕ) : (init Ctx harborId).Inv where
  placed i c hc := by simp [init, HandleStorage.init, List.getElem?_replicate] at hc
  registered_iff h c := by simp [init, HandleStorage.init]

namespace Inv

variable {st st' : TableState Ctx}

omit [DecidableEq Ctx] in
/-- The table answers a grab as the abstract map does. -/
theorem grab_eq (hinv : st.Inv) (h : ℕ) : st.grab h = st.registered h := by
  refine Option.ext fun c => ?_
  rw [hinv.registered_iff, grab, grab_eq_some_iff]
  constructor
  · rintro ⟨hslot, rfl⟩
    exact ⟨mem_slot_iff.mpr ⟨_, hslot⟩, rfl⟩
  · rintro ⟨hmem, rfl⟩
    exact grab_eq_some_iff.mp (grab_of_placed hinv.placed hmem rfl)

omit [DecidableEq Ctx] in
/-- Contexts of the table with the same handle are one context. -/
theorem handleOf_injOn (hinv : st.Inv) {c d : Ctx} (hc : some c ∈ st.storage.slot)
    (hd : some d ∈ st.storage.slot) (h : st.handleOf c = st.handleOf d) : c = d := by
  have hc' := (hinv.registered_iff _ c).mpr ⟨hc, rfl⟩
  have hd' := (hinv.registered_iff _ d).mpr ⟨hd, rfl⟩
  rw [h, hd'] at hc'
  exact (Option.some_inj.mp hc').symm

variable {storage : HandleStorage Ctx}

omit [DecidableEq Ctx] in
/-- The doubling of the table keeps the invariant. -/
theorem grow (hinv : st.Inv) (h : HandleStorage.grow st.handleOf st.storage = .ok storage) :
    ({ st with storage } : TableState Ctx).Inv where
  placed := placed_grow h fun _ _ => rfl
  registered_iff handle c := by
    rw [mem_grow h]
    exact hinv.registered_iff handle c

/-- A registration binds a free handle of the node to the context. -/
theorem register (hinv : st.Inv) {ctx : Ctx} (hctx : some ctx ∉ st.storage.slot) {handle : ℕ}
    (h : st.storage.register st.handleOf ctx = .ok (handle, storage)) :
    st.registered handle = none ∧ ({
      storage
      handleOf := update st.handleOf ctx handle
      registered := update st.registered handle (some ctx) } : TableState Ctx).Inv := by
  obtain ⟨s₁, low, hs₁, hlow, rfl, rfl⟩ := register_cases h
  -- The table before the context is put in, doubled or not, satisfies the invariant.
  have hinv₁ : ({ st with storage := s₁ } : TableState Ctx).Inv := by
    rcases hs₁ with rfl | ⟨-, hgrow⟩
    · exact hinv
    · exact hinv.grow hgrow
  have hctx₁ : some ctx ∉ s₁.slot := by
    rcases hs₁ with rfl | ⟨-, hgrow⟩
    · exact hctx
    · rwa [mem_grow hgrow]
  obtain ⟨hlt, hfree⟩ := findSlot_eq_some hlow
  have hhash := s₁.hash_or_harbor low hlt
  have hnone : st.registered (low ||| s₁.harbor) = none := by
    have hgrab := hinv₁.grab_eq (low ||| s₁.harbor)
    rw [← hgrab, TableState.grab, HandleStorage.grab, hhash, hfree]
    rfl
  refine ⟨hnone, ⟨?_, fun g c => ?_⟩⟩
  · refine placed_place hinv₁.placed (fun d hd => ?_) ?_
    · have hne : d ≠ ctx := fun h => hctx₁ (h ▸ hd)
      exact update_of_ne hne ..
    · change s₁.hash (update st.handleOf ctx (low ||| s₁.harbor) ctx) = s₁.hash low
      rw [update_self, hhash]
  · rw [mem_place hfree]
    by_cases hc : ctx = c
    · subst hc
      by_cases hg : g = low ||| s₁.harbor
      · simp [hg]
      · have hold : st.registered g ≠ some ctx := fun h =>
          hctx₁ ((hinv₁.registered_iff g ctx).mp h).1
        simp [update_of_ne hg, hold, Ne.symm hg]
    · simp only [hc, false_or, update_of_ne (Ne.symm hc)]
      by_cases hg : g = low ||| s₁.harbor
      · subst hg
        have hold : ¬(some c ∈ s₁.slot ∧ st.handleOf c = low ||| s₁.harbor) := fun h => by
          have := (hinv₁.registered_iff _ c).mpr h
          rw [hnone] at this
          cases this
        simp [hc, hold]
      · rw [update_of_ne hg]
        exact hinv₁.registered_iff g c

omit [DecidableEq Ctx] in
/-- A retirement frees exactly the handle it is given. -/
theorem retire (hinv : st.Inv) (handle : ℕ) : ({ st with
    storage := (st.storage.retire st.handleOf handle).2
    registered := update st.registered handle none } : TableState Ctx).Inv where
  placed := placed_retire hinv.placed
  registered_iff g c := by
    have hgrab := hinv.grab_eq handle
    cases hr : st.registered handle with
    | none =>
      rw [hr, TableState.grab] at hgrab
      rw [retire_of_grab_eq_none hgrab, ← hr, Function.update_eq_self]
      exact hinv.registered_iff g c
    | some d =>
      rw [hr, TableState.grab] at hgrab
      obtain ⟨hslot, hd⟩ := grab_eq_some_iff.mp hgrab
      rw [mem_retire hinv.placed hgrab]
      by_cases hg : g = handle
      · subst hg
        have hself : some c ∈ st.storage.slot ∧ st.handleOf c = g → c = d := fun h =>
          Option.some_inj.mp (((hinv.registered_iff g c).mpr h).symm.trans hr)
        simp only [update_self, reduceCtorEq, false_iff]
        rintro ⟨⟨hc, hne⟩, hcg⟩
        exact hne (hself ⟨hc, hcg⟩)
      · change update st.registered handle none g = some c ↔ _ ∧ st.handleOf c = g
        rw [update_of_ne hg, hinv.registered_iff]
        constructor
        · rintro ⟨hc, hcg⟩
          refine ⟨⟨hc, ?_⟩, hcg⟩
          rintro rfl
          exact hg (hcg.symm.trans hd)
        · rintro ⟨⟨hc, -⟩, hcg⟩
          exact ⟨hc, hcg⟩

theorem step (hinv : st.Inv) {op : TableOp Ctx} (h : st.step op = .ok st') : st'.Inv := by
  cases op with
  | register ctx =>
    rw [TableState.step] at h
    split_ifs at h with hctx
    split at h
    · next hreg =>
      cases h
      exact (hinv.register hctx hreg).2
    · cases h
  | retire handle =>
    cases h
    exact hinv.retire handle
  | grab handle =>
    cases h
    exact hinv

end Inv

theorem inv_of_reaches {harborId : ℕ} {st : TableState Ctx}
    (h : Transition.Reaches step (fun _ _ => True) (init Ctx harborId) st) : st.Inv :=
  h.invariant (inv_init harborId) fun _ _ _ hinv _ hs => hinv.step hs

end TableState

/-- **The handle table is a registry.** After any sequence of registrations, retirements and
grabs, every context of the table is in the slot of its handle, the contexts of the table have
pairwise distinct handles, and a grab finds exactly the context registered under the handle and
not retired since. The doubling of the table keeps all this. A registration never finds an
occupied slot while it rehashes; it can only fail with `2 ^ 24` contexts in the table. -/
theorem handleTable_refines_registry {Ctx : Type*} [DecidableEq Ctx] {harborId : ℕ}
    {st : TableState Ctx}
    (h : Transition.Reaches TableState.step (fun _ _ => True) (.init Ctx harborId) st) :
    (∀ (i : ℕ) (c : Ctx), st.storage.slot[i]? = some (some c) →
        st.handleOf c &&& (st.storage.slotSize - 1) = i) ∧
      (∀ c d : Ctx, some c ∈ st.storage.slot → some d ∈ st.storage.slot → c ≠ d →
        st.handleOf c ≠ st.handleOf d) ∧
      (∀ handle, st.grab handle = st.registered handle) ∧
      (∀ storage, grow st.handleOf st.storage = .ok storage →
        (∀ (i : ℕ) (c : Ctx), storage.slot[i]? = some (some c) →
          st.handleOf c &&& (storage.slotSize - 1) = i) ∧
        ∀ handle, storage.grab st.handleOf handle = st.registered handle) ∧
      ∀ (c : Ctx) (fault : RegisterFault), st.step (.register c) = .error (.register fault) →
        fault = .tooManySlots ∧ st.storage.slotSize = 2 ^ 24 := by
  have hinv := TableState.inv_of_reaches h
  refine ⟨hinv.placed, fun c d hc hd hne heq => hne (hinv.handleOf_injOn hc hd heq),
    hinv.grab_eq, fun storage hgrow => ?_, fun c fault hfault => ?_⟩
  · have hinv' := hinv.grow hgrow
    exact ⟨hinv'.placed, hinv'.grab_eq⟩
  · rw [TableState.step] at hfault
    by_cases hc : some c ∈ st.storage.slot
    · rw [if_pos hc] at hfault
      cases hfault
    rw [if_neg hc] at hfault
    split at hfault
    · cases hfault
    · next e he =>
      cases hfault
      exact register_eq_error hinv.placed (fun _ _ _ => rfl) he

/-- Five registrations, the last of which doubles the table, and a retirement. -/
theorem handleTable_refines_registry_doubled :
    ∃ st : TableState ℕ,
      Transition.exec TableState.step (.init ℕ 1) [.register 10, .register 11, .register 12,
        .register 13, .register 14, .retire 0x1000002] = .ok st ∧
      st.storage.slotSize = 8 ∧ st.grab 0x1000005 = st.registered 0x1000005 := by
  refine ⟨_, rfl, rfl, ?_⟩
  have hexec : Transition.exec TableState.step (.init ℕ 1) [.register 10, .register 11,
    .register 12, .register 13, .register 14, .retire 0x1000002] = .ok _ := rfl
  have hreaches := Transition.reaches_of_exec hexec fun _ _ _ => trivial
  exact (handleTable_refines_registry hreaches).2.2.1 _

end Mtask.Handle
