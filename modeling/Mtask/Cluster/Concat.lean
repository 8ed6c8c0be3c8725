import Mtask.Cluster.RoundTrip
import Mtask.Lib.Buffers

/-!
# The memory of `lconcat`

`lconcat` copies the parts of a message into memory of the size that a peer has announced. The
size is converted to `int`, which may be negative, and for `mtask_malloc` to `size_t`, where
`PREFIX_SIZE` is added, which may go around. A part is copied if it fits, as `size_t`.

`je_malloc` is a parameter: for a size it gives the usable memory, or none. `mtask_malloc` keeps the
last four bytes of it for itself.
-/

namespace Mtask.Cluster

open Buffers List

/-- `PREFIX_SIZE` -/
def prefixSize : ℕ := 4

/-- The conversion to `size_t`. -/
def sizeT (n : ℤ) : ℕ :=
  (n % 2 ^ 64).toNat

/-- `mtask_malloc`, with `fill_prefix`: the usable memory, with `handle` in its last bytes. -/
def mtaskMalloc (jeMalloc : ℕ → Option Bytes) (handle size : ℕ) : Except Fault Bytes :=
  match jeMalloc ((size + prefixSize) % 2 ^ 64) with
  | none => .error .outOfMemory
  | some ptr =>
    match store ptr (ptr.length - prefixSize) (Framing.toBytes prefixSize handle) with
    | some ptr => .ok ptr
    | none => .error .overflow

/-- How `lconcat` ends. -/
inductive Concat
  /-- `return 0` without any memory -/
  | nothing
  /-- `mtask_free(buff)` and `return 0` -/
  | released
  /-- `buff` and `sz` are returned -/
  | returned (buff : Bytes) (sz : ℤ)
  deriving DecidableEq, Repr

/-- The loop of `lconcat`, which ends at the first element that is not a string. A part may be
copied to what is in front of the last bytes of the memory. -/
def lconcatLoop (sz : ℤ) (buff : Bytes) (offset : ℤ) : List Data → Except Fault Concat
  | .bytes str :: rest =>
    if sizeT sz < (str.length + sizeT offset) % 2 ^ 64 then .ok .released
    else if offset < 0 ∨ buff.length < offset.toNat + str.length + prefixSize then .error .overflow
    else
      match store buff offset.toNat str with
      | some buff => lconcatLoop sz buff (int (sizeT offset + str.length)) rest
      | none => .error .overflow
  | _ => if offset = sz then .ok (.returned buff sz) else .ok .released

/-- `lconcat` -/
def lconcat (jeMalloc : ℕ → Option Bytes) (handle : ℕ) : List Data → Except Fault Concat
  | .size n :: rest =>
    match mtaskMalloc jeMalloc handle (sizeT (int n)) with
    | .ok buff => lconcatLoop (int n) buff 0 rest
    | .error e => .error e
  | _ => .ok .nothing

/-- What `je_malloc` does: memory has the size at least, and eight bytes; there is no memory of
`2 ^ 63` bytes; the memory for an `int` and `PREFIX_SIZE` is there, and for less than four bytes it
is smaller than an `int`. -/
structure Jemalloc (jeMalloc : ℕ → Option Bytes) : Prop where
  usable : ∀ n ptr, jeMalloc n = some ptr → n ≤ ptr.length ∧ 8 ≤ ptr.length
  refused : ∀ n, 2 ^ 63 ≤ n → jeMalloc n = none
  given : ∀ n < 2 ^ 31 + prefixSize, jeMalloc n ≠ none
  small : ∀ n ptr, n < prefixSize → jeMalloc n = some ptr → ptr.length < 2 ^ 31

/-- What a peer can send: a number of 32 bits, or a string. -/
def Data.Wire : Data → Prop
  | .size n => n < 2 ^ 32
  | .bytes s => s.length < 2 ^ 63

/-- The strings in front of the first number. -/
def strings : List Data → List Bytes
  | .bytes s :: rest => s :: strings rest
  | _ => []

/-- Nothing is written outside the memory, and `lconcat` returns: the parts one after the other if
they have the size together, and else nothing, with the memory released. -/
def SafeConcat (jeMalloc : ℕ → Option Bytes) (handle n : ℕ) (rest : List Data) : Prop :=
  ∃ result, lconcat jeMalloc handle (.size n :: rest) = .ok result ∧
    ((strings rest).flatten.length = n →
      ∃ buff, result = .returned buff n ∧ slice buff 0 n = (strings rest).flatten) ∧
    ((strings rest).flatten.length ≠ n → result = .released)

/-- The room in what `mtask_malloc` gives for the size `n`. -/
def room (jeMalloc : ℕ → Option Bytes) (n : ℕ) : ℕ :=
  ((jeMalloc ((n + prefixSize) % 2 ^ 32)).getD []).length - prefixSize

/-! ### Conversions -/

section Conversions

variable {n : ℕ}

theorem sizeT_natCast (h : n < 2 ^ 64) : sizeT n = n := by
  rw [sizeT, Int.emod_eq_of_lt (Int.natCast_nonneg n) (by omega), Int.toNat_natCast]

/-- A size that is not an `int` becomes negative. -/
theorem int_of_ge (h : 2 ^ 31 ≤ n) (hn : n < 2 ^ 32) : int n = n - 2 ^ 32 := by
  rw [int, Int.emod_eq_of_lt (Int.natCast_nonneg n) (by omega), if_pos (by omega)]

theorem sizeT_int_of_ge (h : 2 ^ 31 ≤ n) (hn : n < 2 ^ 32) :
    sizeT (int n) = 2 ^ 64 - 2 ^ 32 + n := by
  rw [int_of_ge h hn, sizeT]
  omega

end Conversions

/-! ### What a peer can send -/

/-! ### The loop -/

section Loop

variable {buff : Bytes} {rest : List Data} {n k : ℕ}

/-- Copying a part that is let through and for which there is room. -/
theorem lconcatLoop_copy (buff str : Bytes) (rest : List Data) (sz : ℤ) {k : ℕ}
    (hk : k + str.length < 2 ^ 31) (hsz : k + str.length ≤ sizeT sz)
    (hroom : k + str.length + prefixSize ≤ buff.length) :
    ∃ buff', store buff k str = some buff' ∧
      lconcatLoop sz buff k (.bytes str :: rest) =
        lconcatLoop sz buff' (k + str.length : ℕ) rest := by
  obtain ⟨buff', hstore⟩ :=
    Option.isSome_iff_exists.mp (@store_isSome buff str k (by omega))
  refine ⟨buff', hstore, ?_⟩
  have hmod : (str.length + k) % 2 ^ 64 = k + str.length := by
    rw [Nat.add_comm]
    exact Nat.mod_eq_of_lt (by omega)
  rw [lconcatLoop, sizeT_natCast (by omega), hmod, if_neg (Nat.not_lt_of_le hsz), if_neg (by omega),
    Int.toNat_natCast, hstore]
  simp only
  rw [← Int.natCast_add, int_natCast hk]

/-- What the loop does with the size `n`, behind `k` bytes. -/
def PutTogether (buff : Bytes) (n k : ℕ) (rest : List Data) : Prop :=
  ∃ result, lconcatLoop n buff k rest = .ok result ∧
    (k + (strings rest).flatten.length = n →
      ∃ buff', result = .returned buff' n ∧
        slice buff' 0 n = slice buff 0 k ++ (strings rest).flatten) ∧
    (k + (strings rest).flatten.length ≠ n → result = .released)

theorem putTogether_end (hrest : strings rest = [])
    (h : lconcatLoop n buff k rest =
      if (k : ℤ) = n then .ok (.returned buff n) else .ok .released) :
    PutTogether buff n k rest := by
  rw [PutTogether, h, hrest, flatten_nil, length_nil, Nat.add_zero, append_nil]
  split_ifs with heq
  · obtain rfl : k = n := Int.ofNat.inj heq
    exact ⟨_, rfl, fun _ => ⟨buff, rfl, rfl⟩, fun hne => absurd rfl hne⟩
  · exact ⟨_, rfl, fun hkn => absurd (congrArg _ hkn) heq, fun _ => rfl⟩

theorem lconcatLoop_natCast (hn : n < 2 ^ 31) (hroom : n + prefixSize ≤ buff.length) (hk : k ≤ n)
    (hrest : ∀ d ∈ rest, d.Wire) : PutTogether buff n k rest := by
  induction rest generalizing buff k with
  | nil => exact putTogether_end rfl rfl
  | cons d rest ih =>
    obtain ⟨hd, hmore⟩ := forall_mem_cons.mp hrest
    cases d with
    | size m => exact putTogether_end rfl rfl
    | bytes str =>
      rw [PutTogether, strings, flatten_cons, length_append]
      rcases Nat.lt_or_ge n (k + str.length) with hlt | hle
      · refine ⟨.released, ?_, fun heq => by omega, fun _ => rfl⟩
        have hmod : (str.length + k) % 2 ^ 64 = str.length + k :=
          Nat.mod_eq_of_lt (by rw [Data.Wire] at hd; omega)
        rw [lconcatLoop, sizeT_natCast (by omega), sizeT_natCast (by omega), hmod,
          if_pos (by omega)]
      · obtain ⟨buff', hstore, heq⟩ := lconcatLoop_copy (k := k) buff str rest n
          (by omega) (by rwa [sizeT_natCast (by omega)]) (by omega)
        obtain ⟨result, hresult, hreturned, hreleased⟩ := @ih buff' (k + str.length)
          (by rwa [length_store hstore]) hle hmore
        refine ⟨result, heq.trans hresult, fun htotal => ?_, fun htotal => ?_⟩
        · obtain ⟨buff'', hbuff, hslice⟩ := hreturned (by omega)
          refine ⟨buff'', hbuff, ?_⟩
          rw [hslice, ← slice_append_slice, Nat.zero_add, slice_store_self hstore,
            slice_store_of_le hstore (Nat.le_of_eq (Nat.zero_add k)), append_assoc]
        · exact hreleased (by omega)

/-- A size that is negative as an `int` and goes around: all parts are copied, as long as there is
room. -/
theorem lconcatLoop_wrapped {sz : ℤ} (hsz : sz < 0) (hmin : 2 ^ 63 + 2 ^ 31 ≤ sizeT sz)
    (hbuff : buff.length < 2 ^ 31) (hk : k + prefixSize ≤ buff.length)
    (hrest : ∀ d ∈ rest, d.Wire) :
    lconcatLoop sz buff k rest =
      if k + (strings rest).flatten.length + prefixSize ≤ buff.length then .ok .released
      else .error .overflow := by
  have hend : lconcatLoop sz buff k [] = .ok .released := if_neg (by omega)
  induction rest generalizing buff k with
  | nil => exact hend.trans (if_pos hk).symm
  | cons d rest ih =>
    obtain ⟨hd, hmore⟩ := forall_mem_cons.mp hrest
    cases d with
    | size m =>
      exact hend.trans (if_pos hk).symm
    | bytes str =>
      rw [Data.Wire] at hd
      rw [strings, flatten_cons, length_append]
      rcases Nat.lt_or_ge buff.length (k + str.length + prefixSize) with hlt | hle
      · have hmod : (str.length + k) % 2 ^ 64 = str.length + k := Nat.mod_eq_of_lt (by omega)
        rw [lconcatLoop, sizeT_natCast (by omega), hmod, if_neg (by omega), if_pos (by omega),
          if_neg (by omega)]
      · obtain ⟨buff', hstore, heq⟩ := lconcatLoop_copy buff str rest sz (by omega) (by omega) hle
        rw [heq, ih (by rwa [length_store hstore]) (by rwa [length_store hstore]) hmore
          (if_neg (by omega)), length_store hstore, Nat.add_assoc k]

end Loop

/-! ### `lconcat` -/

section Safe

variable {jeMalloc : ℕ → Option Bytes} {handle n : ℕ} {rest : List Data}

namespace Jemalloc

variable (handle) (rest)

theorem mtaskMalloc (h : Jemalloc jeMalloc) {size : ℕ} {ptr : Bytes}
    (hptr : jeMalloc ((size + prefixSize) % 2 ^ 64) = some ptr) :
    ∃ buff, Cluster.mtaskMalloc jeMalloc handle size = .ok buff ∧ buff.length = ptr.length := by
  have hlen := (h.usable _ ptr hptr).2
  have hroom :
      ptr.length - prefixSize + (Framing.toBytes prefixSize handle).length ≤ ptr.length := by
    rw [Framing.length_toBytes, prefixSize]
    omega
  obtain ⟨buff, hstore⟩ := Option.isSome_iff_exists.mp (store_isSome hroom)
  refine ⟨buff, ?_, length_store hstore⟩
  rw [Cluster.mtaskMalloc, hptr]
  simp only [hstore]

theorem lconcat_natCast (h : Jemalloc jeMalloc) (hn : n < 2 ^ 31) :
    ∃ buff, n + prefixSize ≤ buff.length ∧
      lconcat jeMalloc handle (.size n :: rest) = lconcatLoop n buff 0 rest := by
  have hmod : (n + prefixSize) % 2 ^ 64 = n + prefixSize :=
    Nat.mod_eq_of_lt (by rw [prefixSize]; omega)
  obtain ⟨ptr, hptr⟩ := Option.ne_none_iff_exists'.mp (h.given (n + prefixSize) (by omega))
  have hle := (h.usable _ ptr hptr).1
  rw [← hmod] at hptr
  obtain ⟨buff, hmalloc, hlen⟩ := h.mtaskMalloc handle hptr
  refine ⟨buff, by omega, ?_⟩
  rw [lconcat, int_natCast hn, sizeT_natCast (by omega), hmalloc]

theorem lconcat_refused (h : Jemalloc jeMalloc) (hn : 2 ^ 31 ≤ n) (hlt : n + prefixSize < 2 ^ 32) :
    lconcat jeMalloc handle (.size n :: rest) = .error .outOfMemory := by
  rw [prefixSize] at hlt
  rw [lconcat, sizeT_int_of_ge hn (by omega), Cluster.mtaskMalloc, prefixSize,
    Nat.mod_eq_of_lt (by omega), h.refused _ (by omega)]

theorem lconcat_wrapped (h : Jemalloc jeMalloc) (hn : n < 2 ^ 32) (hge : 2 ^ 32 ≤ n + prefixSize) :
    ∃ buff, room jeMalloc n + prefixSize = buff.length ∧ buff.length < 2 ^ 31 ∧
      lconcat jeMalloc handle (.size n :: rest) = lconcatLoop (n - 2 ^ 32) buff 0 rest := by
  rw [prefixSize] at hge
  have hmod : (2 ^ 64 - 2 ^ 32 + n + prefixSize) % 2 ^ 64 = n + prefixSize - 2 ^ 32 := by
    rw [prefixSize]
    omega
  have hmod' : (n + prefixSize) % 2 ^ 32 = n + prefixSize - 2 ^ 32 := by
    rw [prefixSize]
    omega
  have hsmall : n + prefixSize - 2 ^ 32 < prefixSize := by
    rw [prefixSize]
    omega
  obtain ⟨ptr, hptr⟩ := Option.ne_none_iff_exists'.mp (h.given (n + prefixSize - 2 ^ 32) (by omega))
  have hlt := h.small _ ptr hsmall hptr
  have hge8 := (h.usable _ ptr hptr).2
  rw [room, hmod', hptr, Option.getD_some, prefixSize]
  rw [← hmod] at hptr
  obtain ⟨buff, hmalloc, hlen⟩ := h.mtaskMalloc handle hptr
  refine ⟨buff, by omega, by omega, ?_⟩
  rw [lconcat, sizeT_int_of_ge (by omega) hn, hmalloc, int_of_ge (by omega) hn]

end Jemalloc

theorem concatLoop_eq (buff : Bytes) (rest : List Data) :
    concatLoop n buff rest =
      if buff.length + (strings rest).flatten.length = n then some (buff ++ (strings rest).flatten)
      else none := by
  induction rest generalizing buff with
  | nil =>
    rw [strings.eq_def]
    simp [concatLoop]
  | cons d rest ih =>
    cases d with
    | size m =>
      rw [strings.eq_def]
      simp [concatLoop]
    | bytes s =>
      rw [concatLoop, ih, strings, flatten_cons, length_append, length_append,
        append_assoc, Nat.add_assoc]
      split_ifs <;> first | rfl | omega

/-- What `lconcat` returns, as a string. -/
def Concat.result : Concat → Option Bytes
  | .returned buff sz => some (slice buff 0 sz.toNat)
  | _ => none

/-- **For a size that is an `int`, `lconcat` is `concat`.** -/
theorem lconcat_concat (h : Jemalloc jeMalloc) (hn : n < 2 ^ 31) (hrest : ∀ d ∈ rest, d.Wire) :
    ∃ c, lconcat jeMalloc handle (.size n :: rest) = .ok c ∧
      concat (.size n :: rest) = .ok c.result := by
  obtain ⟨buff, hroom, heq⟩ := h.lconcat_natCast handle rest hn
  obtain ⟨c, hc, hreturned, hreleased⟩ := lconcatLoop_natCast hn hroom (Nat.zero_le n) hrest
  rw [Nat.zero_add] at hreturned hreleased
  refine ⟨c, heq.trans hc, ?_⟩
  rw [concat, int_natCast hn, if_neg (by omega), Int.toNat_natCast, concatLoop_eq, List.length_nil,
    Nat.zero_add, List.nil_append]
  split_ifs with htotal
  · obtain ⟨buff', rfl, hslice⟩ := hreturned htotal
    rw [Concat.result, Int.toNat_natCast, hslice]
    rfl
  · rw [hreleased htotal]
    rfl

/-- **`lconcat` is safe** if the size is an `int`, or if it is so large that it goes around and the
parts fit into the memory that there is then; else nothing is returned, or bytes are written outside
the memory. -/
theorem safeConcat_iff (h : Jemalloc jeMalloc) (hn : n < 2 ^ 32) (hrest : ∀ d ∈ rest, d.Wire) :
    SafeConcat jeMalloc handle n rest ↔
      n < 2 ^ 31 ∨ 2 ^ 32 ≤ n + prefixSize ∧
        (strings rest).flatten.length ≤ room jeMalloc n := by
  rcases Nat.lt_or_ge n (2 ^ 31) with hlt | hge
  · obtain ⟨buff, hroom, heq⟩ := h.lconcat_natCast handle rest hlt
    obtain ⟨result, hresult, hreturned, hreleased⟩ :=
      lconcatLoop_natCast hlt hroom (Nat.zero_le n) hrest
    rw [Nat.zero_add] at hreturned hreleased
    refine iff_of_true ⟨result, heq.trans hresult, fun htotal => ?_, hreleased⟩ (Or.inl hlt)
    obtain ⟨buff', hbuff, hslice⟩ := hreturned htotal
    exact ⟨buff', hbuff, hslice⟩
  · rcases Nat.lt_or_ge (n + prefixSize) (2 ^ 32) with hlt' | hge'
    · have heq := h.lconcat_refused handle rest hge hlt'
      refine iff_of_false ?_ (by omega)
      rintro ⟨result, hresult, -⟩
      cases heq.symm.trans hresult
    · obtain ⟨buff, hroom, hbuff, heq⟩ := h.lconcat_wrapped handle rest hn hge'
      have hmin : 2 ^ 63 + 2 ^ 31 ≤ sizeT (n - 2 ^ 32) := by
        rw [← int_of_ge hge hn, sizeT_int_of_ge hge hn]
        omega
      have hloop := lconcatLoop_wrapped (k := 0) (by omega) hmin hbuff (by omega) hrest
      rw [Nat.zero_add, ← hroom] at hloop
      by_cases hfits : (strings rest).flatten.length ≤ room jeMalloc n
      · rw [if_pos (by omega)] at hloop
        exact iff_of_true ⟨_, heq.trans hloop, fun htotal => by omega, fun _ => rfl⟩
          (Or.inr ⟨hge', hfits⟩)
      · rw [if_neg (by omega)] at hloop
        refine iff_of_false ?_ (by omega)
        rintro ⟨result, hresult, -⟩
        cases (heq.trans hloop).symm.trans hresult

end Safe

/-! ### Memory -/

/-- Memory of eight bytes at least, as long as less than `2 ^ 63` are asked for. -/
def someMalloc (n : ℕ) : Option Bytes :=
  if n < 2 ^ 63 then some (List.replicate (max 8 n) 0) else none

theorem jemalloc_someMalloc : Jemalloc someMalloc where
  usable n ptr h := by
    rw [someMalloc] at h
    split_ifs at h
    obtain rfl := Option.some.inj h
    rw [length_replicate]
    exact ⟨Nat.le_max_right 8 n, Nat.le_max_left 8 n⟩
  refused n h := if_neg (Nat.not_lt_of_le h)
  given n h := by
    rw [prefixSize] at h
    rw [someMalloc, if_pos (by omega)]
    exact Option.some_ne_none _
  small n ptr hn h := by
    rw [prefixSize] at hn
    rw [someMalloc, if_pos (by omega)] at h
    obtain rfl := Option.some.inj h
    rw [length_replicate]
    omega

/-- Two parts that have the size together, as a string. -/
theorem lconcat_concat_parts :
    ∃ c, lconcat someMalloc 1 [.size 5, .bytes [1, 2, 3], .bytes [4, 5]] = .ok c ∧
      concat [.size 5, .bytes [1, 2, 3], .bytes [4, 5]] = .ok c.result :=
  lconcat_concat jemalloc_someMalloc (by decide) (by simp [Data.Wire])

/-- Two parts that have the size together. -/
theorem safeConcat_iff_parts :
    SafeConcat someMalloc 1 5 [.bytes [1, 2, 3], .bytes [4, 5]] := by
  have hrest : ∀ d ∈ [Data.bytes [1, 2, 3], .bytes [4, 5]], d.Wire := by
    simp [Data.Wire]
  exact (safeConcat_iff jemalloc_someMalloc (by decide) hrest).mpr (Or.inl (by decide))

/-- For the size `0xffffffff` there are four bytes in front of the handle, and five are copied; for
the size `0x80000000` there is no memory. -/
theorem safeConcat_fails :
    lconcat someMalloc 1 [.size 0xffffffff, .bytes [1, 2, 3, 4, 5]] = .error .overflow ∧
      lconcat someMalloc 1 [.size 0x80000000] = .error .outOfMemory ∧
      ¬SafeConcat someMalloc 1 0xffffffff [.bytes [1, 2, 3, 4, 5]] := by
  have heq : lconcat someMalloc 1 [.size 0xffffffff, .bytes [1, 2, 3, 4, 5]] =
      .error .overflow := by
    decide
  refine ⟨heq, by decide, ?_⟩
  rintro ⟨result, hresult, -⟩
  cases heq.symm.trans hresult

end Mtask.Cluster
