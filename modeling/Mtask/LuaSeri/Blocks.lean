import Mathlib.Data.List.Range
import Mtask.Lib.Buffers
import Mtask.Lib.Outcomes
import Mtask.LuaSeri.Format

/-!
# The blocks of the serialiser

The chain of blocks as it is in memory: the first block is on the stack, and the others are linked
behind it, allocated when the one before is full. A copy that leaves its block, and an access to a
block that is not allocated, are errors here, and so is a length that an `int` does not hold. At the
end, with a buffer or with an error, the blocks are freed along the links.
-/

namespace Mtask.LuaSeri.Blocks

open Buffers Outcomes
open Function (update update_of_ne update_self)
open List

/-! ### The writer -/

/-- `struct block` -/
structure Block where
  next : Option ℕ
  buffer : List UInt8

/-- The blocks that are allocated, and `struct write_block`; `count` numbers are in use. The block 0
is `temp`, on the stack. -/
structure Chain where
  block : ℕ → Option Block
  count : ℕ
  freed : List ℕ
  current : ℕ
  len : ℕ
  ptr : ℕ

inductive Fault
  /-- a block that is not allocated -/
  | invalid
  /-- a copy goes past a block -/
  | outside
  /-- the `int` in `len` overflows -/
  | overflow
  deriving DecidableEq

/-- What is in a new block. -/
abbrev Fresh := ℕ → { buffer : List UInt8 // buffer.length = blockSize }

variable (fresh : Fresh)

namespace Chain

/-- `wb_init` -/
def init : Chain where
  block := update (fun _ => none) 0 (some ⟨none, fresh 0⟩)
  count := 1
  freed := []
  current := 0
  len := 0
  ptr := 0

/-- `memcpy` to the current block, with the counts. -/
def memcpy (s : Chain) (bytes : List UInt8) : Except Fault Chain :=
  match s.block s.current with
  | none => .error .invalid
  | some b =>
    match store b.buffer s.ptr bytes with
    | none => .error .outside
    | some buffer =>
      if s.len + bytes.length < 2 ^ 31 then
        .ok { s with
          block := update s.block s.current (some { b with buffer })
          len := s.len + bytes.length
          ptr := s.ptr + bytes.length }
      else .error .overflow

/-- What follows `_again`: `blk_alloc`. -/
def extend (s : Chain) : Except Fault Chain :=
  match s.block s.current with
  | none => .error .invalid
  | some b =>
    .ok { s with
      block := update (update s.block s.current (some { b with next := some s.count })) s.count
        (some ⟨none, fresh s.count⟩)
      count := s.count + 1
      current := s.count
      ptr := 0 }

/-- `wb_push` from `_again` on. -/
def again (s : Chain) (buffer : List UInt8) : Except Fault Chain := do
  let s ← s.extend fresh
  if buffer.length ≤ blockSize then s.memcpy buffer
  else
    let s ← s.memcpy (buffer.take blockSize)
    s.again (buffer.drop blockSize)
termination_by buffer.length
decreasing_by
  rw [List.length_drop]
  have : 0 < blockSize := Nat.zero_lt_succ _
  omega

/-- `wb_push` -/
def push (s : Chain) (buffer : List UInt8) : Except Fault Chain :=
  if s.ptr = blockSize then s.again fresh buffer
  else if s.ptr + buffer.length ≤ blockSize then s.memcpy buffer
  else do
    let copy := blockSize - s.ptr
    let s ← s.memcpy (buffer.take copy)
    s.again fresh (buffer.drop copy)

/-- The loop of `wb_free`. -/
def freeLoop : ℕ → Chain → Option ℕ → Except Fault Chain
  | _, s, none => .ok s
  | 0, _, some _ => .error .invalid
  | fuel + 1, s, some a =>
    match s.block a with
    | none => .error .invalid
    | some b =>
      freeLoop fuel { s with block := update s.block a none, freed := s.freed ++ [a] } b.next

/-- `wb_free`; no block is linked twice. -/
def free (s : Chain) : Except Fault Chain :=
  match s.block 0 with
  | none => .error .invalid
  | some b => s.freeLoop s.count b.next

/-- The loop of `seri`. -/
def seriLoop (s : Chain) (b : Option ℕ) (len : ℕ) : Except Fault (List UInt8) :=
  if len = 0 then .ok []
  else
    match b.bind s.block with
    | none => .error .invalid
    | some b =>
      if blockSize ≤ len then do
        let rest ← s.seriLoop b.next (len - blockSize)
        return b.buffer ++ rest
      else .ok (b.buffer.take len)
termination_by len
decreasing_by
  have : 0 < blockSize := Nat.zero_lt_succ _
  omega

/-- `seri`: the buffer, with its length. -/
def seri (s : Chain) : Except Fault (List UInt8 × ℕ) := do
  return (← s.seriLoop (some 0) s.len, s.len)

end Chain

/-- How the writer ends. -/
inductive Ending
  | done
  | tooDeep
  | unsupported

/-- Pieces are written, and the writer ends. -/
def run (pieces : List (List UInt8)) (ending : Ending) :
    Except Fault (Chain × Option (List UInt8 × ℕ)) := do
  let s ← pieces.foldlM (·.push fresh) (Chain.init fresh)
  match ending with
  | .done => do
    let buffer ← s.seri
    return (← s.free, some buffer)
  | _ => return (← s.free, none)

/-- Nothing goes wrong: every block but the first one is freed, and freed once, and the buffer has
the pieces and their length. -/
def Exact (pieces : List (List UInt8)) (ending : Ending) : Prop :=
  ∃ s result, run fresh pieces ending = .ok (s, result) ∧ s.freed.Nodup ∧
    (∀ a, a ∈ s.freed ↔ 0 < a ∧ a < s.count) ∧ (∀ a, (s.block a).isSome ↔ a = 0) ∧
    (∀ buffer, result = some buffer → buffer = (pieces.flatten, pieces.flatten.length)) ∧
    (result.isSome ↔ ending = .done)

/-! ### Writing -/

/-- The blocks with these contents, each linked to the next one. -/
def linked (buffers : List (List UInt8)) (i : ℕ) : Option Block :=
  buffers[i]?.map fun buffer => ⟨if i + 1 < buffers.length then some (i + 1) else none, buffer⟩

/-- The chain consists of full blocks and a last one, up to `ptr`. -/
structure Holds (s : Chain) (full : List (List UInt8)) (last : List UInt8) : Prop where
  block : s.block = linked (full ++ [last])
  current : s.current = full.length
  count : s.count = full.length + 1
  freed : s.freed = []
  length_full : ∀ buffer ∈ full, buffer.length = blockSize
  length_last : last.length = blockSize
  ptr : s.ptr ≤ blockSize
  len : s.len = (full.flatten ++ last.take s.ptr).length

/-- These bytes have been written. -/
def Written (s : Chain) (bytes : List UInt8) : Prop :=
  ∃ full last, Holds s full last ∧ full.flatten ++ last.take s.ptr = bytes

/-- The bytes are written behind the others, unless an `int` cannot count them. -/
def Appends (written bytes : List UInt8) (r : Except Fault Chain) : Prop :=
  if written.length + bytes.length < 2 ^ 31 then ∃ s, r = .ok s ∧ Written s (written ++ bytes)
  else r = .error .overflow

variable {fresh} {s t : Chain} {written bytes last : List UInt8} {full : List (List UInt8)}

theorem linked_last (full : List (List UInt8)) (last : List UInt8) :
    linked (full ++ [last]) full.length = some ⟨none, last⟩ := by
  simp [linked]

theorem written_init : Written (Chain.init fresh) [] := by
  refine ⟨[], fresh 0, ⟨?_, rfl, rfl, rfl, by simp, (fresh 0).2, Nat.zero_le _, rfl⟩, rfl⟩
  funext i
  cases i <;> rfl

theorem ptr_memcpy (h : s.memcpy bytes = .ok t) : t.ptr = s.ptr + bytes.length := by
  rw [Chain.memcpy] at h
  split at h
  · cases h
  · split at h
    · cases h
    · split_ifs at h
      rw [← Except.ok.inj h]

namespace Appends

/-- Bytes are written in two parts. -/
theorem bind {rest : List UInt8} {r : Except Fault Chain} {f : Chain → Except Fault Chain}
    (h : Appends written bytes r) (hf : ∀ s, r = .ok s → Written s (written ++ bytes) →
      (written ++ bytes).length < 2 ^ 31 → Appends (written ++ bytes) rest (f s)) :
    Appends written (bytes ++ rest) (r >>= f) := by
  rw [Appends] at h
  split_ifs at h with hlt
  · obtain ⟨s, rfl, hs⟩ := h
    have hrest := hf s rfl hs (by rwa [length_append])
    rw [Appends] at hrest ⊢
    rwa [length_append, ← Nat.add_assoc, ← length_append, ← append_assoc]
  · rw [Appends, if_neg (by rw [length_append]; omega), h]
    rfl

end Appends

namespace Written

/-- There is room in the current block. -/
theorem memcpy (h : Written s written) (hroom : s.ptr + bytes.length ≤ blockSize) :
    Appends written bytes (s.memcpy bytes) := by
  obtain ⟨full, last, h, rfl⟩ := h
  have hlast := h.length_last
  have hstore : store last s.ptr bytes =
      some (last.take s.ptr ++ bytes ++ last.drop (s.ptr + bytes.length)) :=
    if_pos (by omega)
  rw [Appends, ← h.len, Chain.memcpy, h.block, h.current, linked_last]
  simp only [hstore]
  split_ifs with hlt
  · have htake : (last.take s.ptr ++ bytes).length = s.ptr + bytes.length := by
      rw [length_append, length_take_of_le (by omega)]
    refine ⟨_, rfl, full, last.take s.ptr ++ bytes ++ last.drop (s.ptr + bytes.length),
      ⟨?_, rfl, h.count, h.freed, h.length_full, ?_, hroom, ?_⟩, ?_⟩
    · funext i
      dsimp only
      rcases eq_or_ne i full.length with rfl | hi
      · rw [update_self, linked_last]
      · rw [update_of_ne hi]
        simp only [linked, length_append, length_singleton]
        rcases Nat.lt_or_gt_of_ne hi with hlt | hgt
        · rw [getElem?_append_left hlt, getElem?_append_left hlt]
        · rw [getElem?_eq_none (by simp; omega), getElem?_eq_none (by simp; omega)]
    · exact (length_store hstore).trans hlast
    · rw [take_left' htake, h.len, ← append_assoc, ← length_append]
    · rw [take_left' htake, append_assoc]
  · rfl

/-- A block is linked behind the current one, which is full. -/
theorem extend (h : Written s written) (hfull : s.ptr = blockSize) :
    ∃ t, s.extend fresh = .ok t ∧ Written t written ∧ t.ptr = 0 := by
  obtain ⟨full, last, h, rfl⟩ := h
  have htake : last.take s.ptr = last := take_of_length_le (by rw [h.length_last, hfull])
  rw [Chain.extend, h.block, h.current, linked_last]
  refine ⟨_, rfl, ⟨full ++ [last], fresh s.count, ⟨?_, ?_, ?_, h.freed, ?_, (fresh s.count).2,
    Nat.zero_le _, ?_⟩, ?_⟩, rfl⟩
  · funext i
    simp only [h.count]
    rcases Nat.lt_trichotomy i full.length with hi | rfl | hi
    · rw [update_of_ne (by omega), update_of_ne (by omega)]
      simp [linked, hi, Nat.lt_succ_of_lt hi, Nat.lt_succ_of_lt (Nat.lt_succ_of_lt hi)]
    · rw [update_of_ne (by omega), update_self]
      simp [linked]
    · rcases eq_or_ne i (full.length + 1) with rfl | hne
      · rw [update_self]
        simp [linked]
      · rw [update_of_ne hne, update_of_ne (by omega), linked, linked,
          getElem?_eq_none (by simp; omega), getElem?_eq_none (by simp; omega)]
        rfl
  · simp [h.count]
  · simp [h.count]
  · exact forall_mem_append.mpr ⟨h.length_full, forall_mem_singleton.mpr h.length_last⟩
  · simp [h.len, htake]
  · simp [htake]

/-- From a full block on. -/
theorem again (h : Written s written) (hfull : s.ptr = blockSize) :
    Appends written bytes (s.again fresh bytes) := by
  induction hn : bytes.length using Nat.strong_induction_on generalizing s written bytes with
  | _ n ih =>
    obtain ⟨t, ht, hwritten, hptr⟩ := @extend fresh s written h hfull
    rw [Chain.again, ht, ok_bind]
    split_ifs with hle
    · exact hwritten.memcpy (by omega)
    · have hlen : (bytes.take blockSize).length = blockSize := length_take_of_le (by omega)
      have hcopy := @memcpy _ _ (bytes.take blockSize) hwritten (by omega)
      have hpos : 0 < blockSize := Nat.zero_lt_succ _
      have hrest := hcopy.bind (f := (·.again fresh (bytes.drop blockSize)))
        fun u hu hwritten' _ => ih _ (by rw [length_drop]; omega) hwritten'
          (by rw [ptr_memcpy hu, hptr, hlen, Nat.zero_add]) rfl
      rwa [take_append_drop] at hrest

theorem push (h : Written s written) (hptr : s.ptr ≤ blockSize) (bytes : List UInt8) :
    Appends written bytes (s.push fresh bytes) := by
  rw [Chain.push]
  split_ifs with hfull hroom
  · exact h.again hfull
  · exact h.memcpy hroom
  · have hlen : (bytes.take (blockSize - s.ptr)).length = blockSize - s.ptr :=
      length_take_of_le (by omega)
    have hcopy := @memcpy _ _ (bytes.take (blockSize - s.ptr)) h (by omega)
    have hrest := hcopy.bind (f := (·.again fresh (bytes.drop (blockSize - s.ptr))))
      fun u hu hwritten _ => hwritten.again (by rw [ptr_memcpy hu, hlen]; omega)
    rwa [take_append_drop] at hrest

/-- Pieces are written. -/
theorem foldlM (pieces : List (List UInt8)) (h : Written s written)
    (hlt : written.length < 2 ^ 31) :
    Appends written pieces.flatten (pieces.foldlM (·.push fresh) s) := by
  induction pieces generalizing s written with
  | nil =>
    rw [Appends, if_pos (by simpa using hlt)]
    exact ⟨s, rfl, by simpa using h⟩
  | cons bytes pieces ih =>
    obtain ⟨_, _, hheld, _⟩ := id h
    rw [foldlM_cons, flatten_cons]
    exact (h.push hheld.ptr bytes).bind fun t _ ht hlt' => ih ht hlt'

end Written

/-! ### The end -/

/-- The buffer is filled from the blocks. -/
theorem seriLoop_eq (h : Holds s full last) {n i : ℕ} (hn : i + n = full.length) :
    s.seriLoop (some i) ((full.drop i).flatten ++ last.take s.ptr).length =
      .ok ((full.drop i).flatten ++ last.take s.ptr) := by
  have hlast := h.length_last
  have hptr := h.ptr
  have hpos : 0 < blockSize := Nat.zero_lt_succ _
  induction n generalizing i with
  | zero =>
    obtain rfl : i = full.length := hn
    rw [drop_length, flatten_nil, nil_append, length_take_of_le (by omega),
      Chain.seriLoop]
    rcases Nat.eq_zero_or_pos s.ptr with hzero | hne
    · rw [if_pos hzero, hzero]
      rfl
    · have hblock : (some full.length).bind s.block = some ⟨none, last⟩ := by
        rw [Option.bind_some, h.block, linked_last]
      rw [if_neg hne.ne', hblock]
      simp only
      rcases h.ptr.lt_or_eq with hlt | heq
      · rw [if_neg (Nat.not_le.mpr hlt)]
      · rw [if_pos heq.ge, heq, Nat.sub_self, Chain.seriLoop, if_pos rfl, ok_bind,
          take_of_length_le hlast.le]
        exact congrArg _ (append_nil _)
  | succ n ih =>
    have hi : i < full.length := by omega
    have hfull := h.length_full full[i] (getElem_mem hi)
    have hblock : s.block i = some ⟨some (i + 1), full[i]⟩ := by
      rw [h.block, linked, getElem?_append_left hi, getElem?_eq_getElem hi]
      simp [hi]
    rw [drop_eq_getElem_cons hi, flatten_cons, append_assoc, length_append, hfull,
      Chain.seriLoop, if_neg (by omega), Option.bind_some, hblock]
    simp only
    rw [if_pos (by omega), Nat.add_sub_cancel_left, ih (by omega)]
    rfl

/-- The blocks from `i` on are freed. -/
theorem freeLoop_eq {i n fuel : ℕ} (hfuel : n ≤ fuel) (hlen : i + n = full.length + 1)
    (hblock : ∀ j, i ≤ j → s.block j = linked (full ++ [last]) j) :
    s.freeLoop fuel (if n = 0 then none else some i) =
      .ok { s with
        block := fun j => if i ≤ j then none else s.block j
        freed := s.freed ++ List.range' i n } := by
  induction n generalizing i fuel s with
  | zero =>
    have hnone : (fun j => if i ≤ j then none else s.block j) = s.block := by
      funext j
      split_ifs with hij
      · rw [hblock j hij, linked, getElem?_eq_none (by simp; omega)]
        rfl
      · rfl
    rw [if_pos rfl, Chain.freeLoop, hnone, range'_zero, append_nil]
  | succ n ih =>
    obtain ⟨fuel, rfl⟩ : ∃ m, fuel = m + 1 := ⟨fuel - 1, by omega⟩
    have hi : i < (full ++ [last]).length := by
      rw [length_append, length_singleton]
      omega
    have hnext : (if i + 1 < (full ++ [last]).length then some (i + 1) else none) =
        if n = 0 then none else some (i + 1) := by
      rw [length_append, length_singleton]
      split_ifs <;> first | rfl | omega
    rw [if_neg (Nat.succ_ne_zero n), Chain.freeLoop, hblock i le_rfl, linked,
      getElem?_eq_getElem hi, Option.map_some, hnext]
    simp only
    rw [ih (by omega) (by omega) fun j hj =>
      (update_of_ne (by omega) _ _).trans (hblock j (by omega))]
    simp only [range'_succ, append_assoc, singleton_append]
    congr 2
    funext j
    rcases Nat.lt_trichotomy j i with hj | rfl | hj
    · rw [if_neg (by omega), if_neg (by omega), update_of_ne (by omega)]
    · rw [if_neg (by omega), if_pos le_rfl, update_self]
    · rw [if_pos (by omega), if_pos (by omega)]

namespace Written

theorem seri (h : Written s written) : s.seri = .ok (written, written.length) := by
  obtain ⟨full, last, h, rfl⟩ := h
  have hbuffer := seriLoop_eq h (Nat.zero_add full.length)
  rw [drop_zero] at hbuffer
  rw [Chain.seri, h.len, hbuffer]
  rfl

theorem free (h : Written s written) : ∃ t, s.free = .ok t ∧ t.freed.Nodup ∧
    (∀ a, a ∈ t.freed ↔ 0 < a ∧ a < t.count) ∧ ∀ a, (t.block a).isSome ↔ a = 0 := by
  obtain ⟨full, last, h, rfl⟩ := h
  have hfreed := @freeLoop_eq s last full 1 full.length s.count
    (by rw [h.count]; omega) (Nat.add_comm _ _) fun j _ => congrFun h.block j
  obtain ⟨buffer, hfirst⟩ :
      ∃ buffer, s.block 0 = some ⟨if full.length = 0 then none else some 1, buffer⟩ := by
    rw [h.block]
    rcases full with _ | ⟨buffer, full⟩
    · exact ⟨last, rfl⟩
    · exact ⟨buffer, by simp [linked]⟩
  rw [Chain.free, hfirst]
  simp only [hfreed]
  refine ⟨_, rfl, ?_, fun a => ?_, fun a => ?_⟩
  · simpa [h.freed] using nodup_range'
  · simp only [h.freed, h.count, nil_append, mem_range'_1]
    omega
  · rcases Nat.eq_zero_or_pos a with rfl | ha
    · simp [hfirst]
    · simp [Nat.succ_le_of_lt ha, Nat.pos_iff_ne_zero.mp ha]

end Written

/-- **The writer is exact** for less than 2 gigabytes. -/
theorem writer_exact_iff (fresh : Fresh) (pieces : List (List UInt8)) (ending : Ending) :
    Exact fresh pieces ending ↔ pieces.flatten.length < 2 ^ 31 := by
  have hpushed : Appends [] _ (pieces.foldlM (·.push fresh) (.init fresh)) :=
    Written.foldlM pieces written_init (by decide)
  rw [Appends, List.length_nil, Nat.zero_add, List.nil_append] at hpushed
  split_ifs at hpushed with hlt
  · obtain ⟨s, hs, hwritten⟩ := hpushed
    obtain ⟨t, hfree, hnodup, hmem, hsome⟩ := hwritten.free
    refine iff_of_true ?_ hlt
    rw [Exact]
    cases ending with
    | done =>
      refine ⟨t, some (pieces.flatten, pieces.flatten.length), ?_, hnodup, hmem, hsome, ?_,
        iff_of_true rfl rfl⟩
      · rw [run, hs, ok_bind]
        simp only [hwritten.seri, hfree]
        rfl
      · rintro _ ⟨⟩
        rfl
    | tooDeep | unsupported =>
      refine ⟨t, none, ?_, hnodup, hmem, hsome, by simp, by simp⟩
      rw [run, hs, ok_bind]
      simp only [hfree]
      rfl
  · refine iff_of_false ?_ hlt
    rintro ⟨s, result, hrun, -⟩
    rw [run, hpushed] at hrun
    cases hrun

/-- **The chain refines `WriteBlock`**: both have the same buffer in the end, or both overflow. -/
theorem chain_refines (fresh : Fresh) (pieces : List (List UInt8)) :
    (∃ s wb, pieces.foldlM (·.push fresh) (Chain.init fresh) = .ok s ∧
      pieces.foldlM WriteBlock.push WriteBlock.init = .ok wb ∧ s.seri = .ok (wb.seri, wb.len)) ∨
    (pieces.foldlM (·.push fresh) (Chain.init fresh) = .error .overflow ∧
      pieces.foldlM WriteBlock.push WriteBlock.init = .error .lengthOverflow) := by
  have hchain : Appends [] _ (pieces.foldlM (·.push fresh) (.init fresh)) :=
    Written.foldlM pieces written_init (by decide)
  have habstract := Writes.foldlM (fun piece (_ : piece ∈ pieces) => Writes.push piece) .init
  have hempty : WriteBlock.init.contents = [] := rfl
  rw [List.flatMap_id', hempty, List.nil_append] at habstract
  rw [Appends, List.nil_append] at hchain
  by_cases hlt : ([] : List UInt8).length + pieces.flatten.length < 2 ^ 31
  · rw [if_pos hlt] at hchain habstract
    obtain ⟨s, hs, hwritten⟩ := hchain
    obtain ⟨wb, hwb, hcontents⟩ := habstract
    refine .inl ⟨s, wb, hs, hwb, ?_⟩
    rw [hwritten.seri, wb.seri_eq, wb.len_eq_contents, hcontents]
  · rw [if_neg hlt] at hchain habstract
    exact .inr ⟨hchain, habstract⟩

/-- Two pieces of a gigabyte. -/
theorem writer_inexact : ∃ pieces : List (List UInt8),
    (∀ piece ∈ pieces, piece.length = 2 ^ 30) ∧ ∀ fresh, ¬Exact fresh pieces .done := by
  obtain ⟨n, hn⟩ : ∃ n, n = 2 ^ 30 := ⟨_, rfl⟩
  rw [← hn]
  refine ⟨[.replicate n 0, .replicate n 0], ?_, fun fresh => ?_⟩
  · simp only [List.forall_mem_cons, List.length_replicate]
    simp
  · rw [writer_exact_iff, List.flatten_cons, List.flatten_cons, length_append, length_append,
      List.length_replicate, hn]
    simp

end Mtask.LuaSeri.Blocks
