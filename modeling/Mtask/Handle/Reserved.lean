import Mtask.Handle.Registry

/-!
# The reserved handle

`mtask_handle_init` begins with the index 1, since the handle 0 is reserved for the system. The
search for a free slot counts on from the index modulo `2 ^ 24`, and does not pass over 0 when it
comes around: if every id from the index up to the largest is in use, by its slot, and the first
slot is free, then the next registration is given the id 0.
-/

namespace Mtask.Handle

open HandleStorage List

namespace HandleStorage

variable {Ctx : Type*} {s : HandleStorage Ctx} {given : Ctx → ℕ}

/-- The search settles on the first handle whose slot is free. -/
theorem findSlot_eq_some_iff {handle : ℕ} : s.findSlot = some handle ↔
    ∃ i < s.slotSize, s.handleAt i = handle ∧ s.slotAt (s.hash handle) = none ∧
      ∀ j < i, (s.slotAt (s.hash (s.handleAt j))).isSome := by
  rw [findSlot, findSome?_eq_some_iff]
  constructor
  · rintro ⟨l₁, i, l₂, hl, hi, hbefore⟩
    split_ifs at hi with hfree
    cases hi
    have hlen : l₁.length + (l₂.length + 1) = s.slotSize := by
      simpa using (congrArg List.length hl).symm
    have hpos : i = l₁.length := by
      have h := congrArg (·[l₁.length]?) hl
      simpa [getElem?_range (show l₁.length < s.slotSize by omega), eq_comm] using h
    refine ⟨i, by omega, rfl, by simpa using hfree, fun j hj => ?_⟩
    have hmem : j ∈ l₁ := by
      have h := congrArg (·[j]?) hl
      rw [hpos] at hj
      simp only [getElem?_range (show j < s.slotSize by omega),
        getElem?_append_left hj] at h
      exact mem_of_getElem? h.symm
    have := hbefore j hmem
    split_ifs at this with h
    simpa [Option.isSome_iff_ne_none] using h
  · rintro ⟨i, hi, rfl, hfree, hbefore⟩
    refine ⟨List.range i, i, (List.range (s.slotSize - i - 1)).map (· + (i + 1)), ?_, ?_, ?_⟩
    · refine ext_getElem (by simp; omega) fun k hk hk' => ?_
      rw [getElem_range]
      rcases Nat.lt_trichotomy k i with h | rfl | h
      · rw [getElem_append_left (by simpa using h), getElem_range]
      · rw [getElem_append_right (by simp)]
        simp
      · rw [getElem_append_right (by simp; omega)]
        simp only [length_range]
        obtain ⟨d, rfl⟩ : ∃ d, k = i + (d + 1) := ⟨k - i - 1, by omega⟩
        simp only [Nat.add_sub_cancel_left, getElem_cons_succ, getElem_map,
          getElem_range]
        omega
    · simp [hfree]
    · intro j hj
      have := hbefore j (mem_range.mp hj)
      simpa [Option.isSome_iff_ne_none] using this

/-- The slot of an id holds a context exactly when the handle of some context agrees with the id
modulo the size. -/
theorem isSome_slotAt_iff (hp : s.Placed given) (id : ℕ) : (s.slotAt (s.hash id)).isSome ↔
    ∃ c, some c ∈ s.slot ∧ given c % s.slotSize = id % s.slotSize := by
  rw [Option.isSome_iff_exists]
  constructor
  · rintro ⟨c, hc⟩
    rw [slotAt_eq_some_iff] at hc
    refine ⟨c, mem_slot_iff.mpr ⟨_, hc⟩, ?_⟩
    rw [← hash_eq_mod, ← hash_eq_mod]
    exact hp _ c hc
  · rintro ⟨c, hmem, hmod⟩
    obtain ⟨i, hi⟩ := mem_slot_iff.mp hmem
    refine ⟨c, slotAt_eq_some_iff.mpr ?_⟩
    rw [hash_eq_mod, ← hmod, ← hash_eq_mod, hp i c hi]
    exact hi

/-- The ids from the index up to the largest are in use, and the id 0 is not. -/
def ZeroNext (given : Ctx → ℕ) (s : HandleStorage Ctx) (size : ℕ) : Prop :=
  (∀ c, some c ∈ s.slot → given c % size ≠ 0) ∧
    ∀ id, s.handleIndex ≤ id → id < 2 ^ 24 → ∃ c, some c ∈ s.slot ∧ given c % size = id % size

/-- The search settles on the id 0 exactly when the ids in front of it are in use. -/
theorem findSlot_eq_zero_iff (hp : s.Placed given) (hpos : 1 ≤ s.handleIndex)
    (hle : s.handleIndex ≤ 2 ^ 24) :
    s.findSlot = some 0 ↔ s.ZeroNext given s.slotSize := by
  have hsize : s.slotSize ≤ 2 ^ 24 := Nat.le_of_dvd (by decide) s.slotSize_dvd
  have hzero : s.slotAt (s.hash 0) = none ↔ ∀ c, some c ∈ s.slot → given c % s.slotSize ≠ 0 := by
    rw [← Option.not_isSome_iff_eq_none, isSome_slotAt_iff hp, Nat.zero_mod]
    simp
  have hat {i : ℕ} (hi : i + s.handleIndex < 2 ^ 24) : s.handleAt i = i + s.handleIndex := by
    rw [handleAt_eq_mod, Nat.mod_eq_of_lt hi]
  rw [findSlot_eq_some_iff]
  constructor
  · rintro ⟨i, hi, h0, hfree, hbefore⟩
    rw [handleAt_eq_mod] at h0
    have hend : i + s.handleIndex = 2 ^ 24 := by omega
    refine ⟨hzero.mp hfree, fun id hlow hhigh => ?_⟩
    have := hbefore (id - s.handleIndex) (by omega)
    rwa [hat (by omega), Nat.sub_add_cancel hlow, isSome_slotAt_iff hp] at this
  · rintro ⟨hno, hused⟩
    have hround : 2 ^ 24 - s.handleIndex < s.slotSize := by
      by_contra hge
      -- a multiple of the size among the last ids would find the first slot in use
      have hmul : (2 ^ 24 - s.slotSize) % s.slotSize = 0 :=
        Nat.mod_eq_zero_of_dvd (Nat.dvd_sub s.slotSize_dvd (Nat.dvd_refl _))
      have hsp := s.slotSize_pos
      obtain ⟨c, hc, hmod⟩ := hused (2 ^ 24 - s.slotSize) (by omega) (by omega)
      exact hno c hc (hmod.trans hmul)
    refine ⟨2 ^ 24 - s.handleIndex, hround, ?_, hzero.mpr hno, fun j hj => ?_⟩
    · rw [handleAt_eq_mod, Nat.sub_add_cancel hle, Nat.mod_self]
    · rw [hat (by omega), isSome_slotAt_iff hp]
      exact hused _ (by omega) (by omega)

end HandleStorage

namespace TableState

variable {Ctx : Type*} [DecidableEq Ctx] {st st' : TableState Ctx}

/-- The next registration comes to the id 0, in the table as it is or, if it is full, in the table
of twice its size. -/
def ComesToZero (st : TableState Ctx) : Prop :=
  ¬st.storage.Full ∧ st.storage.ZeroNext st.handleOf st.storage.slotSize ∨
    st.storage.Full ∧ st.storage.ZeroNext st.handleOf (st.storage.slotSize * 2)

/-- The index is behind the last id that was given. -/
def IndexInRange (st : TableState Ctx) : Prop :=
  1 ≤ st.storage.handleIndex ∧ st.storage.handleIndex ≤ 2 ^ 24

omit [DecidableEq Ctx] in
theorem handleIndex_retire (s : HandleStorage Ctx) (handleOf : Ctx → ℕ) (handle : ℕ) :
    (s.retire handleOf handle).2.handleIndex = s.handleIndex := by
  rw [HandleStorage.retire]
  split <;> rfl

theorem IndexInRange.step (h : st.IndexInRange) {op : TableOp Ctx} (hs : st.step op = .ok st') :
    st'.IndexInRange := by
  cases op with
  | register ctx =>
    rw [TableState.step] at hs
    split_ifs at hs
    split at hs
    · next hreg =>
      cases hs
      obtain ⟨s₁, low, -, hlow, -, rfl⟩ := register_cases hreg
      have hlt := (findSlot_eq_some hlow).1
      exact ⟨Nat.le_add_left _ _, hlt⟩
    · cases hs
  | retire handle =>
    cases hs
    rw [IndexInRange, handleIndex_retire]
    exact h
  | grab handle =>
    cases hs
    exact h

/-- The state of the table after a run, with the index in its range. -/
theorem inv_and_index {harborId : ℕ}
    (h : Transition.Reaches step (fun _ _ => True) (init Ctx harborId) st) :
    st.Inv ∧ st.IndexInRange :=
  @Transition.Reaches.invariant _ _ _ _ _ (fun st => st.Inv ∧ st.IndexInRange) _ _ h
    ⟨inv_init harborId, Nat.le_refl _, by simp [init, HandleStorage.init]⟩
    fun _ _ _ ⟨hinv, hidx⟩ _ hs => ⟨hinv.step hs, hidx.step hs⟩

omit [DecidableEq Ctx] in
/-- A registration that succeeds gives the id 0 exactly when it comes to it. -/
theorem register_zero_iff (hinv : st.Inv) (hidx : st.IndexInRange) {ctx : Ctx} {handle : ℕ}
    {s' : HandleStorage Ctx} (h : st.storage.register st.handleOf ctx = .ok (handle, s')) :
    handle % 2 ^ 24 = 0 ↔ st.ComesToZero := by
  obtain ⟨s₁, low, hs₁, hlow, rfl, rfl⟩ := register_cases h
  obtain ⟨hlt, hfree⟩ := findSlot_eq_some hlow
  have hmod : (low ||| s₁.harbor) % 2 ^ 24 = low := by
    rw [Nat.or_mod_two_pow, s₁.harbor_low, Nat.or_zero, Nat.mod_eq_of_lt hlt]
  rw [hmod]
  have hiff : low = 0 ↔ s₁.findSlot = some 0 := by
    rw [hlow, Option.some_inj]
  rw [hiff]
  rcases hs₁ with rfl | ⟨hfull, hgrow⟩
  · have hnot : ¬st.storage.Full := fun hfull => by
      have hlt := st.storage.hash_lt low
      have hs := hfull _ (getElem_mem hlt)
      rw [slotAt, getD_eq_getElem _ _ hlt] at hfree
      rw [hfree] at hs
      cases hs
    rw [findSlot_eq_zero_iff hinv.placed hidx.1 hidx.2, ComesToZero]
    simp [hnot]
  · obtain ⟨-, hindex, hsize, -⟩ := grow_eq_ok hgrow
    have hp : s₁.Placed st.handleOf := placed_grow hgrow fun _ _ => rfl
    have hzero : st.ComesToZero ↔ st.storage.ZeroNext st.handleOf (st.storage.slotSize * 2) :=
      ⟨fun h => h.elim (fun h => absurd hfull h.1) And.right, fun h => .inr ⟨hfull, h⟩⟩
    rw [findSlot_eq_zero_iff hp (hindex ▸ hidx.1) (hindex ▸ hidx.2), hzero, ZeroNext, ZeroNext,
      hindex, hsize]
    simp only [mem_grow hgrow]

end TableState

/-- No handle in the table has the local part 0. -/
def TableState.NoZero {Ctx : Type*} (st : TableState Ctx) : Prop :=
  ∀ handle c, st.registered handle = some c → handle % 2 ^ 24 ≠ 0

/-- **When the reserved handle is given away.** After any run of the table, a registration is given
a handle whose low 24 bits are 0 exactly when it comes to the id 0; so no handle of this kind is
ever in the table in a run whose registrations do not come to it. -/
theorem zero_given_iff {Ctx : Type*} [DecidableEq Ctx] {harborId : ℕ} {st : TableState Ctx}
    (h : Transition.Reaches TableState.step (fun _ _ => True) (.init Ctx harborId) st) :
    (∀ (ctx : Ctx) (handle : ℕ) (s' : HandleStorage Ctx),
      st.storage.register st.handleOf ctx = .ok (handle, s') →
        (handle % 2 ^ 24 = 0 ↔ st.ComesToZero)) ∧
    (Transition.Reaches TableState.step
        (fun st op => (∃ ctx, op = .register ctx) → ¬st.ComesToZero) (.init Ctx harborId) st →
      st.NoZero) := by
  obtain ⟨hinv, hidx⟩ := TableState.inv_and_index h
  refine ⟨fun ctx handle s' hreg => TableState.register_zero_iff hinv hidx hreg, fun hrun => ?_⟩
  refine (@Transition.Reaches.invariant _ _ _ _ _
    (fun st => (st.Inv ∧ st.IndexInRange) ∧ st.NoZero) _ _ hrun ?_ ?_).2
  · exact ⟨⟨TableState.inv_init harborId, Nat.le_refl _, by
      simp [TableState.init, HandleStorage.init]⟩, fun _ _ h => (by cases h)⟩
  · rintro st st' op ⟨⟨hinv, hidx⟩, hno⟩ hok hs
    refine ⟨⟨hinv.step hs, hidx.step hs⟩, ?_⟩
    cases op with
    | register ctx =>
      rw [TableState.step] at hs
      split_ifs at hs
      split at hs
      · next handle storage hreg =>
        cases hs
        intro g c hg
        by_cases he : g = handle
        · subst he
          exact fun h0 => hok ⟨ctx, rfl⟩ ((TableState.register_zero_iff hinv hidx hreg).mp h0)
        · exact hno g c (by rwa [← Function.update_of_ne he (some ctx) st.registered])
      · cases hs
    | retire handle =>
      cases hs
      intro g c hg
      by_cases he : g = handle
      · subst he
        simp at hg
      · exact hno g c (by rwa [← Function.update_of_ne he none st.registered])
    | grab handle =>
      cases hs
      exact hno

/-! ### All ids have been given once -/

section AllGiven

/-- A table that is empty, with the index at `n + 1`. -/
structure TableState.Idle (st : TableState ℕ) (n : ℕ) : Prop where
  slot_eq : st.storage.slot = List.replicate 4 none
  index_eq : st.storage.handleIndex = n + 1
  harbor_eq : st.storage.harbor = 0

variable {st : TableState ℕ} {n : ℕ}

/-- In an empty table a registration takes the id at the index. -/
theorem TableState.Idle.register (h : st.Idle n) (ctx : ℕ) :
    ∃ s', st.storage.register st.handleOf ctx = .ok ((n + 1) % 2 ^ 24, s') ∧
      s' = st.storage.place ctx ((n + 1) % 2 ^ 24) := by
  have hsize : st.storage.slotSize = 4 := by rw [slotSize, h.slot_eq, length_replicate]
  have hat : st.storage.handleAt 0 = (n + 1) % 2 ^ 24 := by
    rw [handleAt_eq_mod, h.index_eq, Nat.zero_add]
  have hfind : st.storage.findSlot = some ((n + 1) % 2 ^ 24) := by
    refine findSlot_eq_some_iff.mpr ⟨0, by omega, hat, ?_, fun j hj => absurd hj (Nat.not_lt_zero j)⟩
    rw [slotAt, h.slot_eq, getD_eq_getElem?_getD, getElem?_replicate]
    split <;> rfl
  refine ⟨_, ?_, rfl⟩
  rw [HandleStorage.register, registerLoop, hfind]
  simp only [h.harbor_eq, Nat.or_zero]

/-- A registration and the retirement of its handle leave the table empty, with the index behind
the handle. -/
theorem TableState.Idle.next (h : st.Idle n) (hn : n + 1 < 2 ^ 24) :
    ∃ st', Transition.exec TableState.step st [.register 0, .retire (n + 1)] = .ok st' ∧
      st'.Idle (n + 1) := by
  obtain ⟨s', hreg, rfl⟩ := h.register 0
  rw [Nat.mod_eq_of_lt hn] at hreg
  have hnot : ¬some 0 ∈ st.storage.slot := by
    rw [h.slot_eq]
    simp
  have hlt := st.storage.hash_lt (n + 1)
  have hgrab : (st.storage.place 0 (n + 1)).grab (Function.update st.handleOf 0 (n + 1)) (n + 1) =
      some 0 := by
    rw [grab_eq_some_iff, hash_place, getElem?_place, if_pos rfl, Function.update_self]
    exact ⟨rfl, rfl⟩
  refine ⟨_, by
    simp only [Transition.exec, TableState.step, if_neg hnot, hreg]
    rfl, ?_, ?_, ?_⟩
  · refine ext_getElem? fun i => ?_
    rw [getElem?_retire hgrab, hash_place, getElem?_place, h.slot_eq]
    split_ifs with hi
    · rw [getElem?_replicate, if_pos]
      rw [← hi]
      rwa [h.slot_eq, length_replicate] at hlt
    · rfl
  · change (HandleStorage.retire _ _ _).2.handleIndex = _
    rw [TableState.handleIndex_retire]
    rfl
  · change (HandleStorage.retire _ _ _).2.harbor = _
    rw [harbor_retire]
    exact h.harbor_eq

/-- All ids but 0 can have been given, with the table empty again. -/
theorem exists_idle (hn : n < 2 ^ 24) : ∃ st : TableState ℕ,
    Transition.Reaches TableState.step (fun _ _ => True) (.init ℕ 0) st ∧ st.Idle n := by
  induction n with
  | zero => exact ⟨_, .refl, rfl, rfl, rfl⟩
  | succ n ih =>
    obtain ⟨st, hst, hidle⟩ := ih (by omega)
    obtain ⟨st', hexec, hidle'⟩ := hidle.next hn
    exact ⟨st', hst.trans (Transition.reaches_of_exec hexec fun _ _ _ => trivial), hidle'⟩

/-- After every other id has been given and retired, a registration is given the handle 0. -/
theorem reserved_handle_given : ∃ (st : TableState ℕ) (s' : HandleStorage ℕ),
    Transition.Reaches TableState.step (fun _ _ => True) (.init ℕ 0) st ∧
      st.storage.register st.handleOf 0 = .ok (0, s') := by
  obtain ⟨st, hst, hidle⟩ := exists_idle (n := 2 ^ 24 - 1) (by omega)
  obtain ⟨s', hreg, -⟩ := hidle.register 0
  exact ⟨st, s', hst, hreg⟩

/-- After a first registration, the next one is given the handle 2. -/
theorem zero_given_iff_started : ∃ (st : TableState ℕ) (s' : HandleStorage ℕ),
    Transition.Reaches TableState.step (fun _ _ => True) (.init ℕ 0) st ∧
      st.storage.register st.handleOf 7 = .ok (2, s') ∧ ¬st.ComesToZero := by
  obtain ⟨st, s', hexec, hreg⟩ : ∃ (st : TableState ℕ) (s' : HandleStorage ℕ),
      Transition.exec TableState.step (.init ℕ 0) [.register 5] = .ok st ∧
        st.storage.register st.handleOf 7 = .ok (2, s') := ⟨_, _, rfl, rfl⟩
  have hrun := Transition.reaches_of_exec hexec fun _ _ _ => trivial
  have hiff := (zero_given_iff hrun).1 7 2 s' hreg
  exact ⟨st, s', hrun, hreg, fun hzero => absurd (hiff.mpr hzero) (by decide)⟩

end AllGiven

end Mtask.Handle
