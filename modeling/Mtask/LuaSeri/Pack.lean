import Mathlib.Algebra.GroupWithZero.Nat
import Mtask.Lib.LittleEndian
import Mtask.Lua.Value

/-!
# Serialising Lua values

The writing half of `mtask_lua_seri.c`. The bytes are collected in a chain of blocks of 128 bytes,
and copied into one buffer at the end. The tables here have no metatable, and so no `__pairs`.
-/

namespace Mtask.LuaSeri

open Lua Lua.Value

/-- What `lua_rawlen` returns, which is an `int` in the end. -/
abbrev Rawlen := Fin (2 ^ 31)

instance neZeroRawlen : NeZero (2 ^ 31) := ⟨by decide⟩

def typeNil : ℕ := 0

def typeBoolean : ℕ := 1

def typeNumber : ℕ := 2

def typeNumberZero : ℕ := 0

def typeNumberByte : ℕ := 1

def typeNumberWord : ℕ := 2

def typeNumberDword : ℕ := 4

def typeNumberQword : ℕ := 6

def typeNumberReal : ℕ := 8

def typeUserdata : ℕ := 3

def typeShortString : ℕ := 4

def typeLongString : ℕ := 5

def typeTable : ℕ := 6

def maxCookie : ℕ := 32

def blockSize : ℕ := 128

def maxDepth : ℕ := 32

/-- `COMBINE_TYPE` -/
def combineType (t v : ℕ) : UInt8 := UInt8.ofNat (t ||| v <<< 3)

/-- How the serialisation of a value can fail. -/
inductive PackFault
  /-- `serialize can't pack too depth table` -/
  | tooDeep
  /-- the `int` in `b->len` overflows -/
  | lengthOverflow
  deriving DecidableEq, Repr

/-! ### The chain of blocks -/

/-- `struct write_block`: the blocks before the current one, and the bytes that were written to the
current one, `ptr` of them. The length is an `int`. -/
structure WriteBlock where
  full : List (List UInt8)
  current : List UInt8
  len : ℕ
  full_length : ∀ block ∈ full, block.length = blockSize
  current_le : current.length ≤ blockSize
  len_eq : len = (full.flatten ++ current).length
  len_lt : len < 2 ^ 31

namespace WriteBlock

/-- `wb_init` -/
def init : WriteBlock where
  full := []
  current := []
  len := 0
  full_length _ h := absurd h List.not_mem_nil
  current_le := Nat.zero_le _
  len_eq := rfl
  len_lt := Nat.two_pow_pos 31

/-- Everything that was written. -/
def contents (b : WriteBlock) : List UInt8 := b.full.flatten ++ b.current

/-- The loop of `wb_push` from `_again` on: new blocks are filled. -/
def again (full : List (List UInt8)) (buffer : List UInt8) : List (List UInt8) × List UInt8 :=
  if buffer.length ≤ blockSize then (full, buffer)
  else again (full ++ [buffer.take blockSize]) (buffer.drop blockSize)
termination_by buffer.length
decreasing_by
  rw [List.length_drop]
  have : 0 < blockSize := Nat.zero_lt_succ _
  omega

/-- The blocks after a piece was written, and the bytes of the current one. -/
def place (b : WriteBlock) (buffer : List UInt8) : List (List UInt8) × List UInt8 :=
  if b.current.length = blockSize then again (b.full ++ [b.current]) buffer
  else if b.current.length + buffer.length ≤ blockSize then (b.full, b.current ++ buffer)
  else
    let copy := blockSize - b.current.length
    again (b.full ++ [b.current ++ buffer.take copy]) (buffer.drop copy)

theorem again_spec (full : List (List UInt8)) (buffer : List UInt8)
    (hfull : ∀ block ∈ full, block.length = blockSize) :
    (∀ block ∈ (again full buffer).1, block.length = blockSize) ∧
      (again full buffer).2.length ≤ blockSize ∧
      (again full buffer).1.flatten ++ (again full buffer).2 = full.flatten ++ buffer := by
  fun_induction again full buffer with
  | case1 full buffer hle => exact ⟨hfull, hle, rfl⟩
  | case2 full buffer hlt ih =>
    have hnext : ∀ block ∈ full ++ [buffer.take blockSize], block.length = blockSize := by
      intro block hblock
      rcases List.mem_append.1 hblock with hblock | hblock
      · exact hfull block hblock
      · rw [List.mem_singleton.1 hblock, List.length_take]
        omega
    obtain ⟨hblocks, hcurrent, heq⟩ := ih hnext
    refine ⟨hblocks, hcurrent, heq.trans ?_⟩
    simp [List.take_append_drop]

theorem place_spec (b : WriteBlock) (buffer : List UInt8) :
    (∀ block ∈ (b.place buffer).1, block.length = blockSize) ∧
      (b.place buffer).2.length ≤ blockSize ∧
      (b.place buffer).1.flatten ++ (b.place buffer).2 = b.contents ++ buffer := by
  have hfull : ∀ block, block.length = blockSize →
      ∀ block' ∈ b.full ++ [block], block'.length = blockSize := by
    intro block hblock block' hmem
    rcases List.mem_append.1 hmem with hmem | hmem
    · exact b.full_length block' hmem
    · rw [List.mem_singleton.1 hmem, hblock]
  have hcurrent := b.current_le
  unfold place
  split
  next heq =>
    obtain ⟨hblocks, hle, hsame⟩ := again_spec (b.full ++ [b.current]) buffer (hfull _ heq)
    exact ⟨hblocks, hle, hsame.trans (by simp [contents])⟩
  next hne =>
    split
    next hle => exact ⟨b.full_length, by simpa using hle, by simp [contents]⟩
    next hlt =>
      have hcopy : (b.current ++ buffer.take (blockSize - b.current.length)).length =
          blockSize := by
        rw [List.length_append, List.length_take]
        omega
      obtain ⟨hblocks, hle, hsame⟩ := again_spec _ (buffer.drop (blockSize - b.current.length))
        (hfull _ hcopy)
      refine ⟨hblocks, hle, hsame.trans ?_⟩
      simp [contents, List.take_append_drop]

/-- `wb_push` -/
def push (b : WriteBlock) (buffer : List UInt8) : Except PackFault WriteBlock :=
  if hlt : b.len + buffer.length < 2 ^ 31 then
    .ok {
      full := (b.place buffer).1
      current := (b.place buffer).2
      len := b.len + buffer.length
      full_length := (b.place_spec buffer).1
      current_le := (b.place_spec buffer).2.1
      len_eq := by rw [(b.place_spec buffer).2.2, List.length_append, b.len_eq, contents]
      len_lt := hlt }
  else .error .lengthOverflow

/-- The loop of `seri` over the blocks. -/
def seriLoop : List (List UInt8) → ℕ → List UInt8
  | [], _ => []
  | block :: blocks, len =>
    if len = 0 then []
    else if blockSize ≤ len then block ++ seriLoop blocks (len - blockSize)
    else block.take len

/-- `seri` -/
def seri (b : WriteBlock) : List UInt8 := seriLoop (b.full ++ [b.current]) b.len

theorem len_eq_contents (b : WriteBlock) : b.len = b.contents.length := b.len_eq

theorem seriLoop_eq (full : List (List UInt8)) (current : List UInt8)
    (hfull : ∀ block ∈ full, block.length = blockSize) :
    seriLoop (full ++ [current]) (full.flatten ++ current).length = full.flatten ++ current := by
  induction full with
  | nil =>
    rw [List.nil_append, List.flatten_nil, List.nil_append, seriLoop]
    split
    next hzero => exact (List.eq_nil_of_length_eq_zero hzero).symm
    next =>
      split
      next => rw [seriLoop, List.append_nil]
      next => exact List.take_length
  | cons block full ih =>
    have hblock := hfull block List.mem_cons_self
    have hpos : 0 < blockSize := Nat.zero_lt_succ _
    have hlen : ((block :: full).flatten ++ current).length =
        blockSize + (full.flatten ++ current).length := by
      simp [hblock]
    rw [List.cons_append, seriLoop, hlen, if_neg (by omega), if_pos (by omega),
      Nat.add_sub_cancel_left, ih fun block' h => hfull block' (List.mem_cons_of_mem _ h)]
    simp

theorem seri_eq (b : WriteBlock) : b.seri = b.contents := by
  rw [seri, b.len_eq]
  exact seriLoop_eq b.full b.current b.full_length

theorem contents_push {b b' : WriteBlock} {buffer : List UInt8} (h : b.push buffer = .ok b') :
    b'.contents = b.contents ++ buffer := by
  unfold push at h
  split at h
  · cases h
    exact (b.place_spec buffer).2.2
  · cases h

end WriteBlock

/-! ### Values -/

def wbNil (wb : WriteBlock) : Except PackFault WriteBlock :=
  wb.push [UInt8.ofNat typeNil]

def wbBoolean (wb : WriteBlock) (boolean : Bool) : Except PackFault WriteBlock :=
  wb.push [combineType typeBoolean (if boolean then 1 else 0)]

/-- `(int32_t)v`, as an integer of 64 bits -/
def int32 (v : BitVec 64) : BitVec 64 := (v.setWidth 32).signExtend 64

def wbInteger (wb : WriteBlock) (v : BitVec 64) : Except PackFault WriteBlock :=
  if v = 0 then wb.push [combineType typeNumber typeNumberZero]
  else if v ≠ int32 v then do
    let wb ← wb.push [combineType typeNumber typeNumberQword]
    wb.push (LittleEndian.toBytes 8 v.toNat)
  else if v.toInt < 0 then do
    let wb ← wb.push [combineType typeNumber typeNumberDword]
    wb.push (LittleEndian.toBytes 4 (v.setWidth 32).toNat)
  else if v.toInt < 0x100 then do
    let wb ← wb.push [combineType typeNumber typeNumberByte]
    wb.push (LittleEndian.toBytes 1 v.toNat)
  else if v.toInt < 0x10000 then do
    let wb ← wb.push [combineType typeNumber typeNumberWord]
    wb.push (LittleEndian.toBytes 2 v.toNat)
  else do
    let wb ← wb.push [combineType typeNumber typeNumberDword]
    wb.push (LittleEndian.toBytes 4 (v.setWidth 32).toNat)

def wbReal (wb : WriteBlock) (v : BitVec 64) : Except PackFault WriteBlock := do
  let wb ← wb.push [combineType typeNumber typeNumberReal]
  wb.push (LittleEndian.toBytes 8 v.toNat)

def wbPointer (wb : WriteBlock) (v : BitVec 64) : Except PackFault WriteBlock := do
  let wb ← wb.push [UInt8.ofNat typeUserdata]
  wb.push (LittleEndian.toBytes 8 v.toNat)

def wbString (wb : WriteBlock) (str : List UInt8) : Except PackFault WriteBlock :=
  if str.length < maxCookie then do
    let wb ← wb.push [combineType typeShortString str.length]
    if 0 < str.length then wb.push str else .ok wb
  else if str.length < 0x10000 then do
    let wb ← wb.push [combineType typeLongString 2]
    let wb ← wb.push (LittleEndian.toBytes 2 str.length)
    wb.push str
  else do
    let wb ← wb.push [combineType typeLongString 4]
    let wb ← wb.push (LittleEndian.toBytes 4 str.length)
    wb.push str

section Tables

variable (packOne : Value Rawlen → WriteBlock → Except PackFault WriteBlock)
  (arraySize : Rawlen) (entries : List (Value Rawlen × Value Rawlen))

def wbTableArray (wb : WriteBlock) : Except PackFault WriteBlock := do
  let wb ←
    if maxCookie - 1 ≤ arraySize.val then do
      let wb ← wb.push [combineType typeTable (maxCookie - 1)]
      wbInteger wb (.ofNat 64 arraySize)
    else wb.push [combineType typeTable arraySize]
  (List.range' 1 arraySize).foldlM (fun wb i => packOne (rawgeti entries i) wb) wb

/-- The key is in the array part, which is written already. -/
def isArrayKey (arraySize : Rawlen) : Value Rawlen → Bool
  | integer x => 0 < x.toInt ∧ x.toInt ≤ arraySize.val
  | _ => false

def wbTableHash (wb : WriteBlock) : Except PackFault WriteBlock := do
  let wb ← entries.foldlM (fun wb e =>
    if isArrayKey arraySize e.1 then .ok wb
    else do
      let wb ← packOne e.1 wb
      packOne e.2 wb) wb
  wbNil wb

def wbTable (wb : WriteBlock) : Except PackFault WriteBlock := do
  let wb ← wbTableArray packOne arraySize entries wb
  wbTableHash packOne arraySize entries wb

end Tables

/-- `pack_one`; the number is `MAX_DEPTH + 1 - depth`. -/
def packOne : ℕ → Value Rawlen → WriteBlock → Except PackFault WriteBlock
  | 0, _, _ => .error .tooDeep
  | left + 1, value, wb =>
    match value with
    | nil => wbNil wb
    | integer x => wbInteger wb x
    | float n => wbReal wb n
    | boolean b => wbBoolean wb b
    | string str => wbString wb str
    | lightuserdata p => wbPointer wb p
    | table arraySize entries => wbTable (packOne left) arraySize entries wb

def packFrom (wb : WriteBlock) (values : List (Value Rawlen)) : Except PackFault WriteBlock :=
  values.foldlM (fun wb value => packOne (maxDepth + 1) value wb) wb

/-- `_luaseri_pack` -/
def pack (values : List (Value Rawlen)) : Except PackFault (List UInt8) := do
  let wb ← packFrom .init values
  return wb.seri

end Mtask.LuaSeri
