import Mathlib.Data.Nat.Bitwise
import Mathlib.Tactic.Positivity
import Mathlib.Tactic.Ring

/-!
# The handle table

`mtask_handle.c` keeps the contexts of the node in a table of slots whose size is a power of two.
A context with handle `h` sits in the slot `h & (slot_size - 1)`; registration takes the first
free slot from a moving index on, and doubles the table when no slot is free. The high eight bits
of a handle are the harbor id, the same for every handle of the node.

The handle of a context is a field of the context, not of the table, so every function here takes
`handleOf`, the reading of that field (`mtask_context_handle`). Registration does not write it:
`mtask_context_new` does, after the lock has been given back.
-/

namespace Mtask.Handle

open List

/-- `HANDLE_MASK`: the low 24 bits of a handle. -/
def handleMask : ℕ := 0xffffff

/-- `HANDLE_REMOTE_SHIFT`: the harbor id is above the low 24 bits. -/
def handleRemoteShift : ℕ := 24

/-- `DEFAULT_SLOT_SIZE` -/
def defaultSlotSize : ℕ := 4

/-- `struct handle_name` -/
structure HandleName where
  name : List UInt8
  handle : ℕ
  deriving DecidableEq, Repr

/-- `struct handle_storage`, less its lock. The number of slots is a power of two that the
assertion of `mtask_handle_register` keeps at or below `2 ^ 24`, and the harbor bits lie above the
low 24 bits. -/
structure HandleStorage (Ctx : Type*) where
  harbor : ℕ
  handleIndex : ℕ
  slot : List (Option Ctx)
  name : List HandleName
  slot_length : ∃ k ≤ 24, slot.length = 2 ^ k
  harbor_low : harbor % 2 ^ 24 = 0

/-- The ways in which `mtask_handle_register` can fail: the two assertions, the use of an empty
slot in the loop that rehashes, and a search that never ends. -/
inductive RegisterFault where
  /-- `mtask_context_handle(s->slot[i])` with `s->slot[i] == NULL` -/
  | nullContext
  /-- `assert(new_slot[hash] == NULL)` -/
  | newSlotOccupied
  /-- `assert((s->slot_size*2 - 1) <= HANDLE_MASK)` -/
  | tooManySlots
  /-- the loop `for (;;)` has not returned -/
  | searchExhausted
  deriving DecidableEq, Repr

namespace HandleStorage

variable {Ctx : Type*}

/-- `s->slot_size` -/
def slotSize (s : HandleStorage Ctx) : ℕ := s.slot.length

/-- The slot of a handle, `handle & (s->slot_size-1)`. -/
def hash (s : HandleStorage Ctx) (handle : ℕ) : ℕ := handle &&& (s.slotSize - 1)

/-- `s->slot[i]` -/
def slotAt (s : HandleStorage Ctx) (i : ℕ) : Option Ctx := s.slot.getD i none

/-- `mtask_handle_init` -/
def init (Ctx : Type*) (harborId : ℕ) : HandleStorage Ctx where
  harbor := (harborId &&& 0xff) <<< handleRemoteShift
  handleIndex := 1
  slot := List.replicate defaultSlotSize none
  name := []
  slot_length := ⟨2, by decide, rfl⟩
  harbor_low := by simp [Nat.shiftLeft_eq, handleRemoteShift]

/-- Whether a context has a slot. -/
instance decidableMemSlot [DecidableEq Ctx] (s : HandleStorage Ctx) (ctx : Ctx) :
    Decidable (some ctx ∈ s.slot) := inferInstance

/-- The handle that the search for a free slot tries in its round `i`. -/
def handleAt (s : HandleStorage Ctx) (i : ℕ) : ℕ := (i + s.handleIndex) &&& handleMask

/-- The search for a free slot, with the handle it settles on. -/
def findSlot (s : HandleStorage Ctx) : Option ℕ :=
  (List.range s.slotSize).findSome? fun i =>
    if (s.slotAt (s.hash (s.handleAt i))).isNone then some (s.handleAt i) else none

/-- The loop that moves the contexts into a table of `size` empty slots. -/
def rehash (handleOf : Ctx → ℕ) (size : ℕ) :
    List (Option Ctx) → List (Option Ctx) → Except RegisterFault (List (Option Ctx))
  | [], newSlot => .ok newSlot
  | none :: _, _ => .error .nullContext
  | some c :: rest, newSlot =>
    if (newSlot.getD (handleOf c &&& (size - 1)) none).isNone then
      rehash handleOf size rest (newSlot.set (handleOf c &&& (size - 1)) (some c))
    else .error .newSlotOccupied

theorem length_rehash {handleOf : Ctx → ℕ} {size : ℕ} {old new new' : List (Option Ctx)}
    (h : rehash handleOf size old new = .ok new') : new'.length = new.length := by
  induction old generalizing new with
  | nil =>
    cases h
    rfl
  | cons o old ih =>
    cases o with
    | none => cases h
    | some c =>
      rw [rehash] at h
      split_ifs at h
      rw [ih h, length_set]

/-- The doubling of the table. -/
def grow (handleOf : Ctx → ℕ) (s : HandleStorage Ctx) :
    Except RegisterFault (HandleStorage Ctx) :=
  if hmax : s.slotSize * 2 - 1 ≤ handleMask then
    match h : rehash handleOf (s.slotSize * 2) s.slot (List.replicate (s.slotSize * 2) none) with
    | .ok newSlot => .ok { s with
        slot := newSlot
        slot_length := by
          obtain ⟨k, hk, hs⟩ := s.slot_length
          have hlt : k < 24 := by
            refine lt_of_le_of_ne hk fun hk' => ?_
            simp [slotSize, hs, hk', handleMask] at hmax
          refine ⟨k + 1, hlt, ?_⟩
          rw [length_rehash h, List.length_replicate, slotSize, hs, pow_succ] }
    | .error e => .error e
  else .error .tooManySlots

/-- The context put into the slot of `handle`, and the index moved behind it. -/
def place (s : HandleStorage Ctx) (ctx : Ctx) (handle : ℕ) : HandleStorage Ctx where
  harbor := s.harbor
  handleIndex := handle + 1
  slot := s.slot.set (s.hash handle) (some ctx)
  name := s.name
  slot_length := by simpa using s.slot_length
  harbor_low := s.harbor_low

/-- The loop of `mtask_handle_register`, with a bound on its rounds. -/
def registerLoop (handleOf : Ctx → ℕ) (ctx : Ctx) :
    ℕ → HandleStorage Ctx → Except RegisterFault (ℕ × HandleStorage Ctx)
  | 0, _ => .error .searchExhausted
  | n + 1, s =>
    match s.findSlot with
    | some handle => .ok (handle ||| s.harbor, s.place ctx handle)
    | none =>
      match grow handleOf s with
      | .ok s' => registerLoop handleOf ctx n s'
      | .error e => .error e

/-- `mtask_handle_register`. Every round of the loop but the last doubles the table, which has at
most `2 ^ 24` slots, so the loop has fewer than 26 rounds (in truth it has at most two, see
`register_cases`). -/
def register (handleOf : Ctx → ℕ) (s : HandleStorage Ctx) (ctx : Ctx) :
    Except RegisterFault (ℕ × HandleStorage Ctx) :=
  registerLoop handleOf ctx 26 s

/-- The context in the slot of `handle`, if the handle is its own. -/
def grab (handleOf : Ctx → ℕ) (s : HandleStorage Ctx) (handle : ℕ) : Option Ctx :=
  (s.slotAt (s.hash handle)).filter fun c => handleOf c = handle

/-- The section of `mtask_handle_retire` under the lock: the context taken out of its slot, to be
released by the caller, and the table without it and without the names of the handle. -/
def retire (handleOf : Ctx → ℕ) (s : HandleStorage Ctx) (handle : ℕ) :
    Option Ctx × HandleStorage Ctx :=
  match s.grab handleOf handle with
  | some c => (some c, { s with
      slot := s.slot.set (s.hash handle) none
      name := s.name.filter fun n => n.handle ≠ handle
      slot_length := by simpa using s.slot_length })
  | none => (none, s)

/-- The search of `mtask_handle_findname` among the names from `first` on, before `last`. -/
def findnameLoop (names : List HandleName) (name : List UInt8) (first last : ℕ) : ℕ :=
  if first < last then
    let mid := (first + (last - 1)) / 2
    match names[mid]? with
    | none => 0
    | some n =>
      if n.name = name then n.handle
      else if n.name < name then findnameLoop names name (mid + 1) last
      else findnameLoop names name first mid
  else 0
termination_by last - first

/-- `mtask_handle_findname` -/
def findname (s : HandleStorage Ctx) (name : List UInt8) : ℕ :=
  findnameLoop s.name name 0 s.name.length

/-! ### Slots and handles -/

section

variable (s : HandleStorage Ctx)
include s

theorem slotSize_pos : 0 < s.slotSize := by
  obtain ⟨k, -, hs⟩ := s.slot_length
  rw [slotSize, hs]
  positivity

theorem hash_eq_mod (handle : ℕ) : s.hash handle = handle % s.slotSize := by
  obtain ⟨k, -, hs⟩ := s.slot_length
  rw [hash, slotSize, hs, Nat.and_two_pow_sub_one_eq_mod]

theorem hash_lt (handle : ℕ) : s.hash handle < s.slot.length := by
  rw [hash_eq_mod]
  exact Nat.mod_lt _ s.slotSize_pos

theorem slotSize_dvd : s.slotSize ∣ 2 ^ 24 := by
  obtain ⟨k, hk, hs⟩ := s.slot_length
  rw [slotSize, hs]
  exact pow_dvd_pow 2 hk

theorem handleAt_eq_mod (i : ℕ) : s.handleAt i = (i + s.handleIndex) % 2 ^ 24 :=
  Nat.and_two_pow_sub_one_eq_mod _ 24

theorem handleAt_lt (i : ℕ) : s.handleAt i < 2 ^ 24 := by
  rw [handleAt_eq_mod]
  exact Nat.mod_lt _ (by positivity)

theorem hash_handleAt (i : ℕ) : s.hash (s.handleAt i) = (i + s.handleIndex) % s.slotSize := by
  rw [hash_eq_mod, handleAt_eq_mod, Nat.mod_mod_of_dvd _ s.slotSize_dvd]

/-- The harbor bits do not move a handle to another slot. -/
theorem hash_or_harbor (handle : ℕ) (h : handle < 2 ^ 24) :
    s.hash (handle ||| s.harbor) = s.hash handle := by
  have hor : handle ||| s.harbor = handle + s.harbor := by
    obtain ⟨n, hn⟩ := Nat.dvd_of_mod_eq_zero s.harbor_low
    rw [hn, Nat.or_comm, mul_comm, ← Nat.shiftLeft_eq, ← Nat.shiftLeft_add_eq_or_of_lt h, add_comm]
  have hharbor : s.harbor % s.slotSize = 0 :=
    Nat.mod_eq_zero_of_dvd (s.slotSize_dvd.trans (Nat.dvd_of_mod_eq_zero s.harbor_low))
  rw [hor, hash_eq_mod, hash_eq_mod, Nat.add_mod, hharbor, add_zero, Nat.mod_mod]

end

/-! ### The search for a free slot -/

theorem findSlot_eq_some {s : HandleStorage Ctx} {handle : ℕ} (h : s.findSlot = some handle) :
    handle < 2 ^ 24 ∧ s.slotAt (s.hash handle) = none := by
  obtain ⟨i, -, hi⟩ := exists_of_findSome?_eq_some h
  split_ifs at hi with hnone
  cases hi
  exact ⟨s.handleAt_lt i, by simpa using hnone⟩

/-- A search that finds no free slot has visited every slot: as many consecutive handles as there
are slots cover all residues, also where the handles wrap around at 24 bits. -/
theorem findSlot_eq_none {s : HandleStorage Ctx} (h : s.findSlot = none) :
    ∀ o ∈ s.slot, o.isSome := by
  intro o ho
  obtain ⟨j, hj, rfl⟩ := mem_iff_getElem.mp ho
  have hpos := s.slotSize_pos
  -- The round that looks at slot `j`.
  obtain ⟨i, hi, hij⟩ : ∃ i < s.slotSize, (i + s.handleIndex) % s.slotSize = j := by
    set r := s.handleIndex % s.slotSize with hr
    have hrlt : r < s.slotSize := Nat.mod_lt _ hpos
    have hjlt : j < s.slotSize := hj
    rcases le_or_gt r j with hle | hgt
    · refine ⟨j - r, by omega, ?_⟩
      rw [Nat.add_mod, ← hr, Nat.mod_eq_of_lt (show j - r < s.slotSize by omega),
        Nat.sub_add_cancel hle, Nat.mod_eq_of_lt hjlt]
    · refine ⟨j + s.slotSize - r, by omega, ?_⟩
      rw [Nat.add_mod, ← hr, Nat.mod_eq_of_lt (show j + s.slotSize - r < s.slotSize by omega),
        Nat.sub_add_cancel (by omega), Nat.add_mod_right, Nat.mod_eq_of_lt hjlt]
  have hround := findSome?_eq_none_iff.mp h i (mem_range.mpr hi)
  rw [hash_handleAt, hij] at hround
  simp only [slotAt, getD_eq_getElem _ _ hj] at hround
  cases hs : s.slot[j] with
  | none => simp [hs] at hround
  | some c => rfl

/-! ### Rehashing -/

section Rehash

variable {handleOf : Ctx → ℕ} {size : ℕ} {old new new' : List (Option Ctx)}

theorem and_size_sub_one_lt (handle : ℕ) (hsize : 0 < size) : handle &&& (size - 1) < size :=
  lt_of_le_of_lt Nat.and_le_right (by omega)

/-- The contexts of the new table are those of the old one. -/
theorem countP_rehash (h : rehash handleOf size old new = .ok new') (hsize : 0 < size)
    (hlen : new.length = size) {p : Option Ctx → Bool} (hp : p none = false) :
    new'.countP p = new.countP p + old.countP p := by
  induction old generalizing new with
  | nil =>
    cases h
    simp
  | cons o old ih =>
    cases o with
    | none => cases h
    | some d =>
      rw [rehash] at h
      split_ifs at h with hfree
      have hlt : handleOf d &&& (size - 1) < new.length := by
        rw [hlen]
        exact and_size_sub_one_lt _ hsize
      rw [getD_eq_getElem _ _ hlt, Option.isNone_iff_eq_none] at hfree
      rw [ih h (by simpa using hlen), countP_set hlt, hfree, countP_cons]
      simp only [hp, Bool.false_eq_true, if_false]
      omega

/-- Every context of the new table is in its slot there. -/
theorem getElem?_rehash (h : rehash handleOf size old new = .ok new') {j : ℕ} {c : Ctx}
    (hc : new'[j]? = some (some c)) :
    new[j]? = some (some c) ∨ some c ∈ old ∧ handleOf c &&& (size - 1) = j := by
  induction old generalizing new with
  | nil =>
    cases h
    exact Or.inl hc
  | cons o old ih =>
    cases o with
    | none => cases h
    | some d =>
      rw [rehash] at h
      split_ifs at h
      rcases ih h with hnew | ⟨hmem, hj⟩
      · rw [getElem?_set] at hnew
        split_ifs at hnew with hj hlt
        · cases hnew
          exact Or.inr ⟨mem_cons_self, hj⟩
        · exact Or.inl hnew
      · exact Or.inr ⟨mem_cons_of_mem _ hmem, hj⟩

/-- Contexts with pairwise distinct slots in the new table can all be moved. -/
theorem exists_rehash (cs : List Ctx)
    (hnodup : (cs.map fun c => handleOf c &&& (size - 1)).Nodup)
    (hfree : ∀ c ∈ cs, new.getD (handleOf c &&& (size - 1)) none = none) :
    ∃ new', rehash handleOf size (cs.map some) new = .ok new' := by
  induction cs generalizing new with
  | nil => exact ⟨new, rfl⟩
  | cons c cs ih =>
    rw [map_cons, nodup_cons] at hnodup
    have hc : (new.getD (handleOf c &&& (size - 1)) none).isNone = true := by
      rw [hfree c mem_cons_self]
      rfl
    rw [map_cons, rehash, if_pos hc]
    refine ih hnodup.2 fun d hd => ?_
    have hne : handleOf c &&& (size - 1) ≠ handleOf d &&& (size - 1) := fun heq =>
      hnodup.1 (heq ▸ mem_map_of_mem hd)
    rw [getD_eq_getElem?_getD, getElem?_set_ne hne, ← getD_eq_getElem?_getD]
    exact hfree d (mem_cons_of_mem _ hd)

end Rehash

theorem grow_eq_ok {handleOf : Ctx → ℕ} {s s' : HandleStorage Ctx}
    (h : grow handleOf s = .ok s') :
    s'.harbor = s.harbor ∧ s'.handleIndex = s.handleIndex ∧ s'.slotSize = s.slotSize * 2 ∧
      rehash handleOf (s.slotSize * 2) s.slot (List.replicate (s.slotSize * 2) none) =
        .ok s'.slot := by
  rw [grow] at h
  split_ifs at h
  split at h
  · next newSlot hnew =>
    cases h
    refine ⟨rfl, rfl, ?_, hnew⟩
    rw [slotSize, length_rehash hnew, length_replicate]
  · cases h

/-- The assertion on the size fails at the largest table only. -/
theorem slotSize_of_lt {s : HandleStorage Ctx} (hmax : ¬s.slotSize * 2 - 1 ≤ handleMask) :
    s.slotSize = 2 ^ 24 := by
  obtain ⟨k, hk, hs⟩ := s.slot_length
  rw [slotSize, hs] at hmax ⊢
  rcases Nat.lt_or_eq_of_le hk with hlt | rfl
  · have hle : 2 ^ k * 2 ≤ 2 ^ 24 := by
      rw [← pow_succ]
      exact Nat.pow_le_pow_right (by omega) hlt
    simp only [handleMask] at hmax
    omega
  · rfl

/-! ### Contexts in their slots -/

/-- Every context of the table is in the slot of the handle that `given` says. -/
def Placed (given : Ctx → ℕ) (s : HandleStorage Ctx) : Prop :=
  ∀ i c, s.slot[i]? = some (some c) → s.hash (given c) = i

/-- Every slot holds a context. -/
def Full (s : HandleStorage Ctx) : Prop := ∀ o ∈ s.slot, o.isSome

section Placed

variable {given handleOf : Ctx → ℕ} {s s' : HandleStorage Ctx}

theorem placed_grow (h : grow handleOf s = .ok s')
    (heq : ∀ c, some c ∈ s.slot → handleOf c % (s.slotSize * 2) = given c % (s.slotSize * 2)) :
    s'.Placed given := by
  intro i c hc
  obtain ⟨-, -, hsize, hnew⟩ := grow_eq_ok h
  rcases getElem?_rehash hnew hc with hrep | ⟨hmem, hi⟩
  · simp [getElem?_replicate] at hrep
  · rw [← hsize] at hi heq
    rw [hash_eq_mod, ← heq c hmem, ← hash_eq_mod, hash]
    exact hi

/-- A full table whose contexts are in their slots can be doubled, unless it has reached its
largest size: contexts of different slots differ in the low bits of their handles, hence also in
one bit more. -/
theorem grow_of_placed (hp : s.Placed given) (hfull : s.Full)
    (heq : ∀ c, some c ∈ s.slot → handleOf c % (s.slotSize * 2) = given c % (s.slotSize * 2)) :
    grow handleOf s = .error .tooManySlots ∧ s.slotSize = 2 ^ 24 ∨
      ∃ s', grow handleOf s = .ok s' := by
  rw [grow]
  split_ifs with hmax
  · refine Or.inr ?_
    obtain ⟨cs, hcs⟩ : ∃ cs : List Ctx, cs.map some = s.slot := by
      have hmem : s.slot ∈ Set.range (List.map some) := by
        rw [Set.range_list_map]
        exact fun o ho => (Option.isSome_iff_exists.mp (hfull o ho)).imp fun _ h => h.symm
      exact hmem
    have hmod : ∀ c, handleOf c &&& (s.slotSize * 2 - 1) = handleOf c % (s.slotSize * 2) := by
      obtain ⟨k, -, hk⟩ := s.slot_length
      intro c
      rw [slotSize, hk, ← pow_succ, Nat.and_two_pow_sub_one_eq_mod]
    -- The old slots, read off the new ones, are `0, 1, 2, …`.
    have hrange : (cs.map fun c => handleOf c &&& (s.slotSize * 2 - 1)).map (· % s.slotSize) =
        List.range s.slotSize := by
      refine ext_getElem (by simp [slotSize, ← hcs]) fun i hi hi' => ?_
      have hlt : i < cs.length := by simpa using hi
      have hslot : s.slot[i]? = some (some cs[i]) := by
        rw [← hcs, getElem?_map, getElem?_eq_getElem hlt, Option.map_some]
      have hmem : some cs[i] ∈ s.slot := mem_of_getElem? hslot
      rw [getElem_map, getElem_map, getElem_range, hmod, heq _ hmem,
        Nat.mod_mul_right_mod, ← hash_eq_mod]
      exact hp i _ hslot
    have hnodup := List.Nodup.of_map (· % s.slotSize) (hrange ▸ nodup_range)
    obtain ⟨new, hnew⟩ : ∃ new', rehash handleOf (s.slotSize * 2) (cs.map some)
        (List.replicate (s.slotSize * 2) none) = .ok new' := by
      refine exists_rehash cs hnodup fun c _ => ?_
      rw [getD_eq_getElem?_getD, getElem?_replicate]
      split_ifs <;> rfl
    rw [hcs] at hnew
    split
    · exact ⟨_, rfl⟩
    · next e he => rw [hnew] at he; cases he
  · exact Or.inl ⟨rfl, slotSize_of_lt hmax⟩

end Placed

/-! ### Registration -/

section Register

variable {given handleOf : Ctx → ℕ} {s s' : HandleStorage Ctx} {ctx : Ctx} {handle : ℕ}

/-- A doubled table has a free slot: the old contexts fill half of it. -/
theorem findSlot_grow (h : grow handleOf s = .ok s') : ∃ handle, s'.findSlot = some handle := by
  by_contra hnone
  have hfull := findSlot_eq_none (s := s') (Option.not_isSome_iff_eq_none.mp fun hs =>
    hnone (Option.isSome_iff_exists.mp hs))
  obtain ⟨-, -, hsize, hnew⟩ := grow_eq_ok h
  have hpos := s.slotSize_pos
  have hcount := countP_rehash hnew (by omega) length_replicate (p := Option.isSome) rfl
  rw [countP_eq_length.mpr hfull] at hcount
  have hle := countP_le_length (p := Option.isSome) (l := s.slot)
  have hzero : (List.replicate (s.slotSize * 2) (none : Option Ctx)).countP Option.isSome = 0 := by
    simp
  simp only [slotSize] at hsize hpos hzero hcount
  omega

/-- What a registration that succeeds has done: it took the first free slot of the table, or of
the table doubled once when it was full. -/
theorem register_cases (h : register handleOf s ctx = .ok (handle, s')) :
    ∃ s₁ low, (s₁ = s ∨ s.Full ∧ grow handleOf s = .ok s₁) ∧ s₁.findSlot = some low ∧
      handle = low ||| s₁.harbor ∧ s' = s₁.place ctx low := by
  rw [register, registerLoop] at h
  split at h
  · next low hlow =>
    cases h
    exact ⟨s, low, Or.inl rfl, hlow, rfl, rfl⟩
  · next hfull =>
    split at h
    · next s₁ hgrow =>
      obtain ⟨low, hlow⟩ := findSlot_grow hgrow
      rw [registerLoop, hlow] at h
      cases h
      exact ⟨s₁, low, Or.inr ⟨findSlot_eq_none hfull, hgrow⟩, hlow, rfl, rfl⟩
    · cases h

/-- A registration into a table whose contexts are in their slots, also after a doubling, only
fails when the table is full at its largest size. -/
theorem register_eq_error {fault : RegisterFault} (hp : s.Placed given)
    (heq : s.Full →
      ∀ c, some c ∈ s.slot → handleOf c % (s.slotSize * 2) = given c % (s.slotSize * 2))
    (h : register handleOf s ctx = .error fault) : fault = .tooManySlots ∧ s.slotSize = 2 ^ 24 := by
  rw [register, registerLoop] at h
  split at h
  · cases h
  · next hnone =>
    have hfull := findSlot_eq_none hnone
    rcases grow_of_placed hp hfull (heq hfull) with ⟨hmax, hsize⟩ | ⟨s₁, hgrow⟩
    · rw [hmax] at h
      cases h
      exact ⟨rfl, hsize⟩
    · obtain ⟨low, hlow⟩ := findSlot_grow hgrow
      rw [hgrow] at h
      simp only [registerLoop, hlow] at h
      cases h

end Register

/-! ### What the operations do to the slots -/

section Slots

variable {given given' handleOf : Ctx → ℕ} {s s' : HandleStorage Ctx} {ctx c : Ctx} {handle : ℕ}

theorem slotAt_eq_some_iff {i : ℕ} : s.slotAt i = some c ↔ s.slot[i]? = some (some c) := by
  rw [slotAt, getD_eq_getElem?_getD]
  cases s.slot[i]? <;> simp

@[simp] theorem slotSize_place : (s.place ctx handle).slotSize = s.slotSize := by
  simp [slotSize, place]

@[simp] theorem hash_place (h : ℕ) : (s.place ctx handle).hash h = s.hash h := by
  simp [hash]

theorem getElem?_place (i : ℕ) : (s.place ctx handle).slot[i]? =
    if s.hash handle = i then some (some ctx) else s.slot[i]? := by
  have hlt := s.hash_lt handle
  rw [place, getElem?_set, if_pos hlt]

theorem mem_slot_iff : some c ∈ s.slot ↔ ∃ i : ℕ, s.slot[i]? = some (some c) :=
  mem_iff_getElem?

theorem placed_place (hp : s.Placed given) (hgiven : ∀ d, some d ∈ s.slot → given' d = given d)
    (hctx : s.hash (given' ctx) = s.hash handle) : (s.place ctx handle).Placed given' := by
  intro i d hd
  rw [getElem?_place] at hd
  rw [hash_place]
  split_ifs at hd with hi
  · cases hd
    rw [hctx, hi]
  · rw [hgiven d (mem_slot_iff.mpr ⟨i, hd⟩)]
    exact hp i d hd

theorem grab_eq_some_iff : s.grab handleOf handle = some c ↔
    s.slot[s.hash handle]? = some (some c) ∧ handleOf c = handle := by
  rw [grab, Option.filter_eq_some_iff, slotAt_eq_some_iff]
  simp

/-- A context of the table that knows the handle it was given is found under it. -/
theorem grab_of_placed (hp : s.Placed given) (hc : some c ∈ s.slot)
    (heq : handleOf c = given c) : s.grab handleOf (given c) = some c := by
  obtain ⟨i, hi⟩ := mem_slot_iff.mp hc
  rw [grab_eq_some_iff, hp i c hi]
  exact ⟨hi, heq⟩

theorem retire_of_grab_eq_none (h : s.grab handleOf handle = none) :
    s.retire handleOf handle = (none, s) := by
  rw [retire, h]

theorem retire_fst : (s.retire handleOf handle).1 = s.grab handleOf handle := by
  rw [retire]
  split <;> simp [*]

@[simp] theorem harbor_retire : (s.retire handleOf handle).2.harbor = s.harbor := by
  rw [retire]
  split <;> rfl

@[simp] theorem slotSize_retire : (s.retire handleOf handle).2.slotSize = s.slotSize := by
  rw [retire]
  split <;> simp [slotSize]

@[simp] theorem hash_retire (h : ℕ) : (s.retire handleOf handle).2.hash h = s.hash h := by
  simp [hash]

theorem getElem?_retire (h : s.grab handleOf handle = some c) (i : ℕ) :
    (s.retire handleOf handle).2.slot[i]? =
      if s.hash handle = i then some none else s.slot[i]? := by
  have hlt := s.hash_lt handle
  rw [retire, h, getElem?_set, if_pos hlt]

theorem mem_retire (hp : s.Placed given) (h : s.grab handleOf handle = some ctx) :
    some c ∈ (s.retire handleOf handle).2.slot ↔ some c ∈ s.slot ∧ c ≠ ctx := by
  have hslot := (grab_eq_some_iff.mp h).1
  rw [mem_slot_iff, mem_slot_iff]
  simp only [getElem?_retire h]
  constructor
  · rintro ⟨i, hi⟩
    split_ifs at hi with hi'
    · cases hi
    · refine ⟨⟨i, hi⟩, ?_⟩
      rintro rfl
      exact hi' ((hp _ c hslot).symm.trans (hp i c hi))
  · rintro ⟨⟨i, hi⟩, hne⟩
    refine ⟨i, ?_⟩
    rw [if_neg, hi]
    rintro rfl
    rw [hslot] at hi
    cases hi
    exact hne rfl

theorem placed_retire (hp : s.Placed given) : (s.retire handleOf handle).2.Placed given := by
  cases hg : s.grab handleOf handle with
  | none => rwa [retire_of_grab_eq_none hg]
  | some c =>
    intro i d hd
    rw [getElem?_retire hg] at hd
    rw [hash_retire]
    split_ifs at hd
    · cases hd
    · exact hp i d hd

/-! ### The contexts of the table -/

theorem count_grow [DecidableEq Ctx] (h : grow handleOf s = .ok s') (c : Ctx) :
    s'.slot.count (some c) = s.slot.count (some c) := by
  obtain ⟨-, -, -, hnew⟩ := grow_eq_ok h
  have hpos := s.slotSize_pos
  have hcount := countP_rehash hnew (by omega) length_replicate (p := (· == some c)) rfl
  simp only [← count_eq_countP, count_replicate] at hcount
  simpa using hcount

theorem count_place [DecidableEq Ctx] (hfree : s.slotAt (s.hash handle) = none) (c : Ctx) :
    (s.place ctx handle).slot.count (some c) =
      s.slot.count (some c) + if ctx = c then 1 else 0 := by
  have hlt := s.hash_lt handle
  rw [slotAt, getD_eq_getElem _ _ hlt] at hfree
  rw [place, count_set hlt, hfree]
  simp

theorem mem_grow (h : grow handleOf s = .ok s') (c : Ctx) :
    some c ∈ s'.slot ↔ some c ∈ s.slot := by
  classical
  rw [← count_pos_iff, ← count_pos_iff, count_grow h]

theorem mem_place (hfree : s.slotAt (s.hash handle) = none) (c : Ctx) :
    some c ∈ (s.place ctx handle).slot ↔ ctx = c ∨ some c ∈ s.slot := by
  classical
  rw [← count_pos_iff, ← count_pos_iff, count_place hfree]
  split_ifs with h <;> simp [h]

end Slots

end HandleStorage

end Mtask.Handle
