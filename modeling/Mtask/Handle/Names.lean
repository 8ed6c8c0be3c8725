import Mtask.Handle.Storage
import Mtask.Lib.Tables
import Mtask.Lib.Transition
import Mathlib.Data.List.ReduceOption

/-!
# The names of handles

The local names of a node are kept in an array in the order of `strcmp`. A name is looked up by
binary search; a new name is put at the place where the search ended, in the same array by moving
the entries behind it, or in an array of twice the size when there is no room. Retiring a handle
closes the gaps that its names leave.
-/

namespace Mtask.Handle

open Tables List

/-- `MAX_SLOT_SIZE` -/
def maxSlotSize : ℕ := 0x40000000

/-- `strcmp`, of strings that are given by their bytes in front of the terminator. -/
def strcmp (a b : List UInt8) : Ordering :=
  if a = b then .eq else if a < b then .lt else .gt

/-- The fields of `struct handle_storage` that keep the names: `name_cap`, `name_count` and the
allocated entries, where `none` is an entry that was not written since. -/
structure NameTable where
  nameCap : ℕ
  nameCount : ℕ
  name : List (Option HandleName)
  deriving DecidableEq, Repr

/-- How a call can end the process: the assertion on `name_cap`, or an access outside the array. -/
inductive NameFault where
  | tooManyNames
  | outOfBounds
  deriving DecidableEq, Repr

variable {n : HandleName}

namespace NameTable

/-- The name fields set by `mtask_handle_init`. -/
def init : NameTable := ⟨2, 0, List.replicate 2 none⟩

/-- The loop of `mtask_handle_findname` and of `_insert_name`, with `last` for `end + 1`. -/
def search (t : NameTable) (name : List UInt8) : Option Sought :=
  bisect (fun n => strcmp n.name name) t.name 0 t.nameCount

/-- `mtask_handle_findname` -/
def findname (t : NameTable) (name : List UInt8) : Except NameFault ℕ :=
  match t.search name with
  | none => .error .outOfBounds
  | some (.missing _) => .ok 0
  | some (.found i) =>
    match t.name[i]? with
    | some (some n) => .ok n.handle
    | _ => .error .outOfBounds

/-- The cells of the array in which `_insert_name_before` has made room at `before`, with the
capacity. At the largest capacity the doubled one is no `int`: an assertion that lets it through is
followed by an allocation of that size, which fails. -/
def makeRoom (t : NameTable) (before : ℕ) : Except NameFault (ℕ × List (Option HandleName)) :=
  if t.nameCap ≤ t.nameCount then
    if t.nameCap * 2 ≤ maxSlotSize then
      match (copyCells t.name 0 0 before (List.replicate (t.nameCap * 2) none)).bind
        (copyCells t.name 1 before (t.nameCount - before)) with
      | none => .error .outOfBounds
      | some n => .ok (t.nameCap * 2, n)
    else .error .tooManyNames
  else
    match shiftCells before (t.nameCount - before) t.name with
    | none => .error .outOfBounds
    | some n => .ok (t.nameCap, n)

/-- `_insert_name_before` -/
def insertNameBefore (t : NameTable) (name : List UInt8) (handle before : ℕ) :
    Except NameFault NameTable :=
  match t.makeRoom before with
  | .error e => .error e
  | .ok (cap, n) =>
    if before < n.length then .ok ⟨cap, t.nameCount + 1, n.set before (some ⟨name, handle⟩)⟩
    else .error .outOfBounds

/-- `_insert_name` -/
def insertName (t : NameTable) (name : List UInt8) (handle : ℕ) :
    Except NameFault (Option (List UInt8) × NameTable) :=
  match t.search name with
  | none => .error .outOfBounds
  | some (.found _) => .ok (none, t)
  | some (.missing i) =>
    match t.insertNameBefore name handle i with
    | .ok t' => .ok (some name, t')
    | .error e => .error e

/-- The section of `mtask_handle_namehandle` under the lock. -/
def namehandle (t : NameTable) (handle : ℕ) (name : List UInt8) :
    Except NameFault (Option (List UInt8) × NameTable) :=
  t.insertName name handle

/-- The loop over the names in `mtask_handle_retire`, for a handle that is in its slot. -/
def retire (t : NameTable) (handle : ℕ) : Except NameFault NameTable :=
  match compactCells (fun n => n.handle = handle) 0 0 t.nameCount t.name with
  | some (cells, count) => .ok { t with nameCount := count, name := cells }
  | none => .error .outOfBounds

/-- The first `name_count` entries. -/
def entries (t : NameTable) : List HandleName := (t.name.take t.nameCount).reduceOption

/-! ### The order of the names -/

/-- The names increase strictly. -/
def Ascending (l : List HandleName) : Prop := l.Pairwise fun m n => m.name < n.name

theorem strcmp_eq_lt_iff {a b : List UInt8} : strcmp a b = .lt ↔ a < b := by
  rw [strcmp]
  split_ifs with heq hlt
  · simp [heq, List.lt_irrefl]
  · simp [hlt]
  · simp [hlt]

theorem strcmp_eq_eq_iff {a b : List UInt8} : strcmp a b = .eq ↔ a = b := by
  rw [strcmp]
  split_ifs with heq hlt <;> simp [heq]

theorem strcmp_eq_gt_iff {a b : List UInt8} : strcmp a b = .gt ↔ b < a := by
  rw [strcmp]
  split_ifs with heq hlt
  · simp [heq, List.lt_irrefl]
  · simpa using List.lt_asymm hlt
  · refine iff_of_true rfl ?_
    by_contra hnot
    exact heq (List.le_antisymm hnot hlt)

theorem Ascending.inOrder {l : List HandleName} (h : Ascending l) (name : List UInt8) :
    InOrder (fun n => strcmp n.name name) l := by
  refine h.imp fun {m n} hlt hne => ?_
  rw [strcmp_eq_lt_iff]
  rw [Ne, strcmp_eq_gt_iff] at hne
  by_contra hnot
  exact hne (List.lt_of_le_of_lt hnot hlt)

theorem Ascending.filter {l : List HandleName} (h : Ascending l) (p : HandleName → Bool) :
    Ascending (l.filter p) :=
  List.Pairwise.filter p h

/-! ### What the calls do to the array -/

/-- The front of the array are these entries, in order, and the capacity is the length of the
array, a power of two. -/
structure Holds (t : NameTable) (l : List HandleName) : Prop where
  front : Front t.name l
  count : t.nameCount = l.length
  length : t.name.length = t.nameCap
  cap : ∃ k ≤ 30, t.nameCap = 2 ^ k
  ascending : Ascending l

variable {t : NameTable} {l : List HandleName} {name : List UInt8} {handle : ℕ}

theorem holds_init : Holds init [] where
  front := ⟨_, rfl⟩
  count := rfl
  length := rfl
  cap := ⟨1, by decide, rfl⟩
  ascending := List.Pairwise.nil

namespace Holds

theorem entries_eq (h : Holds t l) : t.entries = l := by
  obtain ⟨rest, hrest⟩ := h.front
  rw [entries, hrest, h.count, take_left' (by simp)]
  induction l with
  | nil => rfl
  | cons x l ih => simp [List.reduceOption]

theorem search_eq (h : Holds t l) (name : List UInt8) :
    ∃ r, t.search name = some r ∧ r.Correct (fun n => strcmp n.name name) l := by
  rw [NameTable.search, h.count]
  exact bisect_spec h.front (h.ascending.inOrder name)

/-- The search ends at the entry of the name, or at the place between the smaller and the greater
names. -/
theorem search_cases (h : Holds t l) (name : List UInt8) :
    (∃ i, ∃ hi : i < l.length, t.search name = some (.found i) ∧ l[i].name = name) ∨
      ∃ i ≤ l.length, t.search name = some (.missing i) ∧ (∀ n ∈ l.take i, n.name < name) ∧
        ∀ n ∈ l.drop i, name < n.name := by
  obtain ⟨r, hr, hc⟩ := h.search_eq name
  cases r with
  | found i =>
    obtain ⟨hi, heq⟩ := hc
    exact .inl ⟨i, hi, hr, strcmp_eq_eq_iff.mp heq⟩
  | missing i =>
    obtain ⟨hi, hlow, hhigh⟩ := hc
    exact .inr ⟨i, hi, hr, fun n hn => strcmp_eq_lt_iff.mp (hlow n hn),
      fun n hn => strcmp_eq_gt_iff.mp (hhigh n hn)⟩

theorem eq_of_name_eq (h : Holds t l) {m : HandleName} (hm : m ∈ l) (hn : n ∈ l)
    (heq : m.name = n.name) : m = n := by
  obtain ⟨i, hi, rfl⟩ := getElem_of_mem hm
  obtain ⟨j, hj, rfl⟩ := getElem_of_mem hn
  have hasc := pairwise_iff_getElem.mp h.ascending
  rcases Nat.lt_trichotomy i j with hij | rfl | hij
  · exact absurd (heq ▸ hasc i j hi hj hij) (List.lt_irrefl _)
  · rfl
  · exact absurd (heq ▸ hasc j i hj hi hij) (List.lt_irrefl _)

variable {i : ℕ}

/-- A name is missing where the names in front are smaller and those behind are greater. -/
theorem name_ne_of_between (hlow : ∀ n ∈ l.take i, n.name < name)
    (hhigh : ∀ n ∈ l.drop i, name < n.name) (hn : n ∈ l) : n.name ≠ name := by
  rintro rfl
  rw [← take_append_drop i l, mem_append] at hn
  rcases hn with hn | hn
  · exact List.lt_irrefl _ (hlow n hn)
  · exact List.lt_irrefl _ (hhigh n hn)

theorem findname_of_mem (h : Holds t l) (hmem : ⟨name, handle⟩ ∈ l) :
    t.findname name = .ok handle := by
  rcases h.search_cases name with ⟨i, hi, hs, heq⟩ | ⟨i, -, -, hlow, hhigh⟩
  · have hentry : l[i] = ⟨name, handle⟩ := h.eq_of_name_eq (getElem_mem hi) hmem heq
    rw [findname, hs]
    simp only [h.front.getElem? hi, hentry]
  · exact absurd rfl (name_ne_of_between hlow hhigh hmem)

theorem findname_of_forall_ne (h : Holds t l) (hne : ∀ n ∈ l, n.name ≠ name) :
    t.findname name = .ok 0 := by
  rcases h.search_cases name with ⟨i, hi, hs, heq⟩ | ⟨i, -, hs, -⟩
  · exact absurd heq (hne _ (getElem_mem hi))
  · rw [findname, hs]

/-- With a cell to spare the entries from `i` on are moved up by one; with none the entries go to
an array of twice the size, with the same gap. -/
theorem makeRoom_cases (h : Holds t l) (hi : i ≤ l.length) :
    t.makeRoom i = .error .tooManyNames ∧ t.nameCount = maxSlotSize ∨
      ∃ cap gap rest, t.makeRoom i =
          .ok (cap, (l.take i).map some ++ gap :: ((l.drop i).map some ++ rest)) ∧
        ((l.take i).map some ++ gap :: ((l.drop i).map some ++ rest)).length = cap ∧
        ∃ k ≤ 30, cap = 2 ^ k := by
  obtain ⟨rest, hrest⟩ := h.front
  obtain ⟨k, hk, hcap⟩ := h.cap
  have hlen := h.length
  have hsplit : t.name = (l.take i).map some ++ (l.drop i).map some ++ rest := by
    rw [hrest, ← map_append, take_append_drop]
  have hlow : ((l.take i).map some).length = i := by simpa using hi
  have hhigh : ((l.drop i).map some).length = t.nameCount - i := by simp [h.count]
  rw [makeRoom]
  split_ifs with hfull hmax
  · refine .inr ⟨t.nameCap * 2, none, List.replicate (t.nameCap * 2 - t.nameCount - 1) none,
      ?_, ?_, k + 1, ?_, by rw [hcap, pow_succ]⟩
    · have hgap := copyCells_gap ((l.take i).map some) ((l.drop i).map some) rest
        (t.nameCap * 2 - t.nameCount - 1)
      have hpos : 0 < t.nameCap := hcap ▸ Nat.two_pow_pos k
      have hle := h.front.length_le
      have hcount := h.count
      have hsize : i + (1 + (t.nameCount - i + (t.nameCap * 2 - t.nameCount - 1))) =
          t.nameCap * 2 := by
        omega
      rw [hlow, hhigh, hsize, ← hsplit] at hgap
      rw [hgap]
    · have hpos : 0 < t.nameCap := hcap ▸ Nat.two_pow_pos k
      have := h.front.length_le
      have := h.count
      simp
      omega
    · simp only [maxSlotSize, hcap] at hmax
      by_contra hgt
      have hge : 2 ^ 30 ≤ 2 ^ k := Nat.pow_le_pow_right (by decide) (by omega)
      omega
  · refine .inl ⟨rfl, ?_⟩
    have hle := h.front.length_le
    have := h.count
    have hk30 : k = 30 := by
      by_contra hne
      have hle : 2 ^ k ≤ 2 ^ 29 := Nat.pow_le_pow_right (by decide) (by omega)
      simp only [maxSlotSize, hcap] at hmax
      omega
    rw [hk30] at hcap
    simp only [maxSlotSize]
    omega
  · obtain ⟨y, rest, rfl⟩ : ∃ y rest', rest = y :: rest' := by
      refine exists_cons_of_ne_nil fun hnil => ?_
      rw [hrest, hnil] at hlen
      simp [h.count] at hfull hlen
      omega
    obtain ⟨z, hz⟩ := shiftCells_eq ((l.take i).map some) ((l.drop i).map some) y rest
    rw [hlow, hhigh, ← hsplit] at hz
    refine .inr ⟨t.nameCap, z, rest, by rw [hz], ?_, k, hk, hcap⟩
    rw [← hlen, hrest]
    simp
    omega

theorem ascending_insert (h : Ascending l) (hlow : ∀ n ∈ l.take i, n.name < name)
    (hhigh : ∀ n ∈ l.drop i, name < n.name) :
    Ascending (l.take i ++ ⟨name, handle⟩ :: l.drop i) := by
  refine pairwise_append.mpr ⟨h.sublist (take_sublist _ _),
    pairwise_cons.mpr ⟨hhigh, h.sublist (drop_sublist _ _)⟩, fun m hm n hn => ?_⟩
  rcases mem_cons.mp hn with rfl | hn
  · exact hlow m hm
  · exact List.lt_trans (hlow m hm) (hhigh n hn)

/-- A new name is put between the smaller and the greater ones, unless the array has reached its
largest capacity and is full. -/
theorem insertNameBefore_cases (h : Holds t l) (handle : ℕ) (hi : i ≤ l.length)
    (hlow : ∀ n ∈ l.take i, n.name < name) (hhigh : ∀ n ∈ l.drop i, name < n.name) :
    t.insertNameBefore name handle i = .error .tooManyNames ∧ t.nameCount = maxSlotSize ∨
      ∃ t', t.insertNameBefore name handle i = .ok t' ∧
        t'.Holds (l.take i ++ ⟨name, handle⟩ :: l.drop i) := by
  rw [insertNameBefore]
  rcases h.makeRoom_cases hi with ⟨hroom, hmax⟩ | ⟨cap, gap, rest, hroom, hlen, hcap⟩
  · exact .inl ⟨by rw [hroom], hmax⟩
  · have hlow' : ((l.take i).map some).length = i := by simpa using hi
    have hlt : i < ((l.take i).map some ++ gap :: ((l.drop i).map some ++ rest)).length := by
      rw [length_append, hlow', length_cons]
      omega
    have hset : ((l.take i).map some ++ gap :: ((l.drop i).map some ++ rest)).set i
        (some ⟨name, handle⟩) = (l.take i ++ ⟨name, handle⟩ :: l.drop i).map some ++ rest := by
      rw [set_append_right _ _ (Nat.le_of_eq hlow'), hlow', Nat.sub_self]
      simp
    refine .inr ⟨⟨cap, t.nameCount + 1, _⟩, by rw [hroom]; exact if_pos hlt, ?_⟩
    refine ⟨⟨rest, hset⟩, ?_, by rw [length_set, hlen], hcap,
      ascending_insert h.ascending hlow hhigh⟩
    have hcount := h.count
    simp only [length_append, length_cons, length_take, length_drop]
    omega

/-- A name that is there already is left alone. -/
theorem namehandle_of_mem (h : Holds t l) (hn : n ∈ l) :
    t.namehandle handle n.name = .ok (none, t) := by
  rw [namehandle, insertName]
  rcases h.search_cases n.name with ⟨i, hi, hs, -⟩ | ⟨i, -, -, hlow, hhigh⟩
  · rw [hs]
  · exact absurd rfl (name_ne_of_between hlow hhigh hn)

theorem namehandle_of_forall_ne (h : Holds t l) (handle : ℕ) (hne : ∀ n ∈ l, n.name ≠ name) :
    t.namehandle handle name = .error .tooManyNames ∧ t.nameCount = maxSlotSize ∨
      ∃ t' l', t.namehandle handle name = .ok (some name, t') ∧ t'.Holds l' ∧
        ∀ n, n ∈ l' ↔ n = ⟨name, handle⟩ ∨ n ∈ l := by
  rw [namehandle, insertName]
  rcases h.search_cases name with ⟨i, hi, -, heq⟩ | ⟨i, hi, hs, hlow, hhigh⟩
  · exact absurd heq (hne _ (getElem_mem hi))
  · rw [hs]
    dsimp only
    rcases h.insertNameBefore_cases handle hi hlow hhigh with ⟨hins, hmax⟩ |
      ⟨t', hins, ht'⟩
    · exact .inl ⟨by rw [hins], hmax⟩
    · refine .inr ⟨t', _, by rw [hins], ht', fun n => ?_⟩
      rw [mem_append, mem_cons, or_left_comm, ← mem_append,
        take_append_drop]

/-- The names of the handle are taken out, and the others stay in order. -/
theorem retire_eq (h : Holds t l) (handle : ℕ) :
    ∃ t', t.retire handle = .ok t' ∧ t'.Holds (l.filter fun n => n.handle ≠ handle) := by
  obtain ⟨rest, hrest⟩ := h.front
  obtain ⟨rest', hlen, hloop⟩ := compactCells_eq (fun n : HandleName => n.handle = handle) [] l []
    rest
  simp only [map_nil, nil_append, length_nil, Nat.add_zero, Nat.zero_add,
    ← decide_not, ← h.count, ← hrest] at hlen hloop
  refine ⟨⟨t.nameCap, _, _⟩, by rw [retire, hloop], ⟨rest', rfl⟩, rfl, ?_, h.cap,
    h.ascending.filter _⟩
  rw [← h.length, hrest, length_append, length_append, length_map, length_map]
  simp only [h.count] at hlen
  simp only [ne_eq]
  omega

end Holds

end NameTable

/-! ### Sequences of calls -/

/-- A node's table: the slots, the array of the names, and for every name the handle of the latest
registration of it that was successful and not removed. The list of names of the slot table is kept
equal to the entries of the array. -/
structure NamedState (Ctx : Type*) where
  storage : HandleStorage Ctx
  names : NameTable
  bound : List UInt8 → Option ℕ

/-- The calls. The handle of a context is read from the context at the time of the call. -/
inductive NameOp (Ctx : Type*) where
  | register (handleOf : Ctx → ℕ) (ctx : Ctx)
  | retire (handleOf : Ctx → ℕ) (handle : ℕ)
  | namehandle (handle : ℕ) (name : List UInt8)
  | findname (name : List UInt8)

namespace NamedState

variable {Ctx : Type*}

/-- `mtask_handle_init` -/
def init (Ctx : Type*) (harborId : ℕ) : NamedState Ctx :=
  ⟨.init Ctx harborId, .init, fun _ => none⟩

/-- The process after a call, or the fault that ends it. -/
def step (st : NamedState Ctx) : NameOp Ctx → Except (RegisterFault ⊕ NameFault) (NamedState Ctx)
  | .register handleOf ctx =>
    match st.storage.register handleOf ctx with
    | .ok (_, storage) => .ok { st with storage }
    | .error e => .error (.inl e)
  | .retire handleOf handle =>
    match st.storage.retire handleOf handle with
    | (none, _) => .ok st
    | (some _, storage) =>
      match st.names.retire handle with
      | .ok names => .ok ⟨storage, names, fun n => (st.bound n).filter (· ≠ handle)⟩
      | .error e => .error (.inr e)
  | .namehandle handle name =>
    match st.names.namehandle handle name with
    | .ok (none, names) => .ok { st with names }
    | .ok (some _, names) => .ok ⟨{ st.storage with name := names.entries }, names,
        Function.update st.bound name (some handle)⟩
    | .error e => .error (.inr e)
  | .findname name =>
    match st.names.findname name with
    | .ok _ => .ok st
    | .error e => .error (.inr e)

/-- The array holds the names of the slot table, each with the handle it is bound to. -/
structure Inv (st : NamedState Ctx) : Prop where
  holds : st.names.Holds st.storage.name
  bound_iff : ∀ name handle, st.bound name = some handle ↔ ⟨name, handle⟩ ∈ st.storage.name

theorem inv_init (harborId : ℕ) : (init Ctx harborId).Inv :=
  ⟨NameTable.holds_init, fun _ _ => by simp [init, HandleStorage.init]⟩

variable {st st' : NamedState Ctx} {name : List UInt8} {handle : ℕ}

namespace Inv

theorem mem_of_bound (h : st.Inv) (hb : st.bound name = some handle) :
    ⟨name, handle⟩ ∈ st.storage.name :=
  (h.bound_iff name handle).mp hb

theorem name_ne_of_unbound (h : st.Inv) (hb : st.bound name = none) (hn : n ∈ st.storage.name) :
    n.name ≠ name := by
  rintro rfl
  have := (h.bound_iff n.name n.handle).mpr hn
  rw [hb] at this
  cases this

theorem findname_eq (h : st.Inv) (name : List UInt8) :
    st.names.findname name = .ok ((st.bound name).getD 0) := by
  cases hb : st.bound name with
  | some handle => exact h.holds.findname_of_mem (h.mem_of_bound hb)
  | none => exact h.holds.findname_of_forall_ne fun n hn => h.name_ne_of_unbound hb hn

theorem namehandle_of_bound (h : st.Inv) (hb : (st.bound name).isSome) (handle : ℕ) :
    st.names.namehandle handle name = .ok (none, st.names) := by
  obtain ⟨g, hg⟩ := Option.isSome_iff_exists.mp hb
  exact h.holds.namehandle_of_mem (h.mem_of_bound hg)

variable {handleOf : Ctx → ℕ} {ctx : Ctx}

theorem name_register {s s' : HandleStorage Ctx} (h : s.register handleOf ctx = .ok (handle, s')) :
    s'.name = s.name := by
  obtain ⟨s₁, low, hs₁, -, -, rfl⟩ := HandleStorage.register_cases h
  rcases hs₁ with rfl | ⟨-, hgrow⟩
  · rfl
  · rw [HandleStorage.grow] at hgrow
    split_ifs at hgrow
    split at hgrow
    · cases hgrow
      rfl
    · cases hgrow

theorem name_retire {s s' : HandleStorage Ctx} (h : s.retire handleOf handle = (some ctx, s')) :
    s'.name = s.name.filter fun n => n.handle ≠ handle := by
  rw [HandleStorage.retire] at h
  split at h
  · cases h
    rfl
  · cases h

theorem step (h : st.Inv) {op : NameOp Ctx} (hs : st.step op = .ok st') : st'.Inv := by
  cases op with
  | register handleOf ctx =>
    rw [NamedState.step] at hs
    split at hs
    · next hreg =>
      cases hs
      have hname := name_register hreg
      exact ⟨by rw [hname]; exact h.holds, by rw [hname]; exact h.bound_iff⟩
    · cases hs
  | retire handleOf handle =>
    rw [NamedState.step] at hs
    split at hs
    · cases hs
      exact h
    · next hret =>
      obtain ⟨t', ht', hholds⟩ := h.holds.retire_eq handle
      rw [ht'] at hs
      cases hs
      refine ⟨by rw [name_retire hret]; exact hholds, fun name g => ?_⟩
      rw [name_retire hret, mem_filter, ← h.bound_iff, Option.filter_eq_some_iff]
  | namehandle handle name =>
    cases hb : st.bound name with
    | some g =>
      rw [NamedState.step, h.namehandle_of_bound (by rw [hb]; rfl)] at hs
      cases hs
      exact h
    | none =>
      rcases h.holds.namehandle_of_forall_ne handle
        fun n hn => h.name_ne_of_unbound hb hn with ⟨herr, -⟩ | ⟨t', l', hok, hholds, hmem⟩
      · rw [NamedState.step, herr] at hs
        cases hs
      · rw [NamedState.step, hok] at hs
        cases hs
        have hentries := hholds.entries_eq
        refine ⟨by simpa only [hentries] using hholds, fun m g => ?_⟩
        simp only [hentries, hmem, ← h.bound_iff, HandleName.mk.injEq]
        rcases eq_or_ne m name with rfl | hne
        · simp [hb, eq_comm]
        · simp [hne]
  | findname name =>
    rw [NamedState.step, h.findname_eq] at hs
    cases hs
    exact h

end Inv

theorem step_namehandle {names : NameTable}
    (h : st.names.namehandle handle name = .ok (some name, names)) :
    ∃ st', st.step (.namehandle handle name) = .ok st' ∧ st'.names = names ∧
      st'.bound = Function.update st.bound name (some handle) :=
  ⟨_, by rw [NamedState.step, h], rfl, rfl⟩

end NamedState

open NamedState in
/-- **The local name table.** After any sequence of calls the names of the first `name_count`
entries increase strictly; `mtask_handle_findname` returns the handle of the latest registration
that was successful and not removed, or 0; a name that is bound cannot be registered again, and
nothing changes then; a name that is not bound is registered, unless the array holds
`MAX_SLOT_SIZE` names; and retiring a handle that is in its slot takes its names out and leaves
the others as they were. -/
theorem names_of_run {Ctx : Type*} {harborId : ℕ} {st : NamedState Ctx}
    (h : Transition.Reaches NamedState.step (fun _ _ => True) (.init Ctx harborId) st) :
    (∃ l, Front st.names.name l ∧ l.length = st.names.nameCount ∧ NameTable.Ascending l) ∧
    (∀ name, st.names.findname name = .ok ((st.bound name).getD 0)) ∧
    (∀ handle name, (st.bound name).isSome →
      st.names.namehandle handle name = .ok (none, st.names)) ∧
    (∀ handle name, st.bound name = none →
      (st.names.namehandle handle name = .error .tooManyNames ∧
        st.names.nameCount = maxSlotSize) ∨
      ∃ names, st.names.namehandle handle name = .ok (some name, names) ∧
        ∀ m, names.findname m = .ok (if m = name then handle else (st.bound m).getD 0)) ∧
    ∀ handleOf handle ctx, st.storage.grab handleOf handle = some ctx →
      ∃ names, st.names.retire handle = .ok names ∧
        names.entries = st.names.entries.filter (fun n => n.handle ≠ handle) ∧
        ∀ m, names.findname m =
          .ok (if st.bound m = some handle then 0 else (st.bound m).getD 0) := by
  have hinv : st.Inv := h.invariant (inv_init harborId) fun _ _ _ hu _ hs => hu.step hs
  refine ⟨⟨_, hinv.holds.front, hinv.holds.count.symm, hinv.holds.ascending⟩,
    hinv.findname_eq, fun handle name hb => hinv.namehandle_of_bound hb handle,
    fun handle name hb => ?_, fun handleOf handle ctx hg => ?_⟩
  · rcases hinv.holds.namehandle_of_forall_ne handle
      fun n hn => hinv.name_ne_of_unbound hb hn with herr | ⟨t', l', hok, -⟩
    · exact .inl herr
    · obtain ⟨st', hstep, hnames, hbound⟩ := step_namehandle hok
      refine .inr ⟨t', hok, fun m => ?_⟩
      rw [← hnames, (hinv.step hstep).findname_eq, hbound]
      rcases eq_or_ne m name with rfl | hne
      · simp
      · simp [hne]
  · obtain ⟨t', ht', hholds⟩ := hinv.holds.retire_eq handle
    refine ⟨t', ht', by rw [hholds.entries_eq, hinv.holds.entries_eq], fun m => ?_⟩
    cases hret : st.storage.retire handleOf handle with
    | mk out storage =>
      have hout : out = some ctx := by
        rw [← hg, ← HandleStorage.retire_fst, hret]
      subst hout
      have hstep : st.step (.retire handleOf handle) =
          .ok ⟨storage, t', fun n => (st.bound n).filter (· ≠ handle)⟩ := by
        rw [NamedState.step, hret, ht']
      rw [(hinv.step hstep).findname_eq]
      cases hb : st.bound m with
      | none => simp [hb]
      | some g =>
        rcases eq_or_ne g handle with rfl | hne
        · simp [hb, Option.filter]
        · simp [hb, hne, Option.filter]

open NamedState in
/-- The third name goes between the first two, into an array of twice the size. -/
theorem names_of_run_three_names :
    ∃ st : NamedState Unit, Transition.Reaches NamedState.step (fun _ _ => True) (.init Unit 1) st ∧
      st.names = ⟨4, 3, [some ⟨[97], 7⟩, some ⟨[98], 9⟩, some ⟨[99], 8⟩, none]⟩ ∧
      st.names.findname [98] = .ok 9 := by
  have h₁ : NameTable.init.namehandle 7 [97] =
      .ok (some [97], ⟨2, 1, [some ⟨[97], 7⟩, none]⟩) := by decide +kernel
  have h₂ : NameTable.namehandle ⟨2, 1, [some ⟨[97], 7⟩, none]⟩ 8 [99] =
      .ok (some [99], ⟨2, 2, [some ⟨[97], 7⟩, some ⟨[99], 8⟩]⟩) := by decide +kernel
  have h₃ : NameTable.namehandle ⟨2, 2, [some ⟨[97], 7⟩, some ⟨[99], 8⟩]⟩ 9 [98] =
      .ok (some [98], ⟨4, 3, [some ⟨[97], 7⟩, some ⟨[98], 9⟩, some ⟨[99], 8⟩, none]⟩) := by
    decide +kernel
  obtain ⟨s₁, hs₁, hn₁, -⟩ := @step_namehandle _ (.init Unit 1) _ _ _ h₁
  obtain ⟨s₂, hs₂, hn₂, -⟩ := step_namehandle (hn₁ ▸ h₂)
  obtain ⟨s₃, hs₃, hn₃, hb₃⟩ := step_namehandle (hn₂ ▸ h₃)
  have hrun : Transition.Reaches NamedState.step (fun _ _ => True) (.init Unit 1) s₃ :=
    ((Transition.Reaches.single trivial hs₁).tail trivial hs₂).tail trivial hs₃
  exact ⟨s₃, hrun, hn₃, ((names_of_run hrun).2.1 [98]).trans (by rw [hb₃]; rfl)⟩

end Mtask.Handle
