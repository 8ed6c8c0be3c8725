import Mathlib.Algebra.Group.Nat.Defs
import Mathlib.Algebra.Ring.Int.Defs
import Mtask.Lib.Buffers

/-!
# Packing zeros away

`sproto_pack` goes through its source in segments of eight bytes. A segment is packed into a header,
with a bit for each byte that is not zero, and these bytes. A segment without a zero begins a run of
at most 256 segments, in which segments with one or two zeros are also taken; a run is copied as it
is behind two bytes, when it has ended. The last segment is filled up with zeros in a temporary.

The source is memory from `srcv` on, of which the first `srcsz` bytes are the string. A buffer is
the list of its bytes; a byte written outside of it stops the model, as does an `int` that
overflows. How far the source has been read is part of the result.
-/

namespace Mtask.Sproto

open Buffers

/-- The largest `int`. -/
def intMax : ℕ := 2 ^ 31 - 1

/-- The smallest `int`. -/
def intMin : ℤ := -2 ^ 31

/-- The conversion to `int`. -/
def toInt (n : ℕ) : ℤ :=
  if 2 ^ 31 ≤ n % 2 ^ 32 then (n % 2 ^ 32 : ℕ) - (2 ^ 32 : ℤ) else (n % 2 ^ 32 : ℕ)

/-- What the functions must not do, and the end of `sproto_unpack` with `-1`. -/
inductive PackFault
  /-- an `int` overflows -/
  | overflow
  | outOfBounds
  /-- `write_ff` would copy from the temporary -/
  | temporary
  /-- `return -1` -/
  | invalid
  deriving DecidableEq, Repr

/-- Bytes are written into a buffer. -/
def write (buf : List UInt8) (i : ℕ) (bytes : List UInt8) : Except PackFault (List UInt8) :=
  match store buf i bytes with
  | some buf => .ok buf
  | none => .error .outOfBounds

/-! ### `sproto_pack` -/

/-- The variables of `pack_seg`; `buffer` is an offset into `buf`. -/
structure SegState where
  header : UInt8
  notzero : ℕ
  buffer : ℕ
  sz : ℤ
  buf : List UInt8

/-- The loop of `pack_seg` over the bytes from `i` on. -/
def segLoop (st : SegState) (i : UInt8) : List UInt8 → Except PackFault SegState
  | [] => .ok st
  | b :: src =>
    if b ≠ 0 then
      let st : SegState :=
        { st with notzero := st.notzero + 1, header := st.header ||| (1 : UInt8) <<< i }
      if 0 < st.sz then
        match write st.buf st.buffer [b] with
        | .ok buf =>
          segLoop { st with buf, buffer := st.buffer + 1, sz := st.sz - 1 } (i + 1) src
        | .error e => .error e
      else segLoop st (i + 1) src
    else segLoop st (i + 1) src

/-- `pack_seg` -/
def packSeg (src buf : List UInt8) (buffer : ℕ) (sz : ℤ) (n : ℕ) :
    Except PackFault (ℕ × List UInt8) :=
  if sz - 1 < intMin then .error .overflow
  else match segLoop ⟨0, 0, buffer + 1, sz - 1, buf⟩ 0 src with
  | .error e => .error e
  | .ok st =>
    let notzero := if (st.notzero = 7 ∨ st.notzero = 6) ∧ 0 < n then 8 else st.notzero
    if notzero = 8 then
      if 0 < n then .ok (8, st.buf) else .ok (10, st.buf)
    else if sz - 1 < 0 then .ok (notzero + 1, st.buf)
    else
      match write st.buf buffer [st.header] with
      | .ok buf => .ok (notzero + 1, buf)
      | .error e => .error e

/-- `write_ff`, from the offset `src` of the source; there is none in the temporary. -/
def writeFf (mem : ℕ → UInt8) (src : Option ℕ) (buf : List UInt8) (des n : ℕ) :
    Except PackFault (List UInt8) :=
  let align8 := (n + 7) / 8 * 8
  match src with
  | none => .error .temporary
  | some src => write buf des ([0xff, UInt8.ofNat (align8 / 8 - 1)] ++
      (List.range n).map (fun i => mem (src + i)) ++ List.replicate (align8 - n) 0)

/-- The variables of `sproto_pack`, less the loop variable; `buffer` is at the offset `size`. How
far the source has been read is `read`. -/
structure PackState where
  ffSrcstart : Option ℕ
  ffDesstart : ℕ
  ffN : ℕ
  size : ℕ
  bufsz : ℤ
  buf : List UInt8
  read : ℕ

/-- A run is written, if there is room for it, and there is none any more. -/
def PackState.endRun (st : PackState) (mem : ℕ → UInt8) (n : ℕ) : Except PackFault PackState :=
  if 0 ≤ st.bufsz then
    match writeFf mem st.ffSrcstart st.buf st.ffDesstart n with
    | .ok buf => .ok
      { st with buf, ffN := 0, read := max st.read (st.ffSrcstart.getD 0 + n) }
    | .error e => .error e
  else .ok { st with ffN := 0 }

/-- The segment at the offset `i`, filled up with zeros. -/
def loadSeg (mem : ℕ → UInt8) (srcsz i : ℕ) : List UInt8 :=
  let padding := i + 8 - srcsz
  (List.range (8 - padding)).map (fun j => mem (i + j)) ++ List.replicate padding 0

/-- A round of the loop of `sproto_pack`. -/
def packRound (mem : ℕ → UInt8) (srcsz i : ℕ) (st : PackState) : Except PackFault PackState :=
  match packSeg (loadSeg mem srcsz i) st.buf st.size st.bufsz st.ffN with
  | .error e => .error e
  | .ok (n, buf) =>
    -- `buffer` and `size` grow at the end of the round, what is between does not use them
    let st := { st with
      buf
      bufsz := st.bufsz - n
      read := max st.read (min (i + 8) srcsz) }
    let grow (st : PackState) : Except PackFault PackState :=
      if intMax < st.size + n then .error .overflow else .ok { st with size := st.size + n }
    if st.bufsz < intMin then .error .overflow
    else if n = 10 then
      grow { st with
        ffSrcstart := if srcsz < i + 8 then none else some i
        ffDesstart := st.size
        ffN := 1 }
    else if n = 8 ∧ 0 < st.ffN then
      if st.ffN + 1 = 256 then
        match st.endRun mem (256 * 8) with
        | .ok st => grow st
        | .error e => .error e
      else grow { st with ffN := st.ffN + 1 }
    else if 0 < st.ffN then
      match st.endRun mem (st.ffN * 8) with
      | .ok st => grow st
      | .error e => .error e
    else grow st

/-- The loop of `sproto_pack`. -/
def packLoop (mem : ℕ → UInt8) (srcsz i : ℕ) (st : PackState) : Except PackFault PackState :=
  if i < srcsz then
    if intMax < i + 8 then .error .overflow
    else
      match packRound mem srcsz i st with
      | .ok st => packLoop mem srcsz (i + 8) st
      | .error e => .error e
  else .ok st
termination_by srcsz - i

/-- What `sproto_pack` returns, with the buffer, and how far it has read. -/
structure Packed where
  size : ℕ
  buf : List UInt8
  read : ℕ
  deriving DecidableEq, Repr

/-- `sproto_pack` -/
def sprotoPack (mem : ℕ → UInt8) (srcsz : ℤ) (buf : List UInt8) (bufsz : ℤ) :
    Except PackFault Packed :=
  match packLoop mem srcsz.toNat 0 ⟨none, 0, 0, 0, bufsz, buf, 0⟩ with
  | .error e => .error e
  | .ok st =>
    let last : Except PackFault PackState :=
      if st.ffN = 1 then st.endRun mem 8
      else if 1 < st.ffN then st.endRun mem (srcsz.toNat - st.ffSrcstart.getD 0)
      else .ok st
    match last with
    | .ok st => .ok ⟨st.size, st.buf, st.read⟩
    | .error e => .error e

/-! ### `sproto_unpack` -/

/-- The variables of `sproto_unpack`: what is left of the source, and the output with the offset
`buffer`. -/
structure UnpackState where
  src : List UInt8
  srcsz : ℤ
  buf : List UInt8
  buffer : ℕ
  bufsz : ℤ
  size : ℕ

/-- A byte of a segment is written, if there is room for it. -/
def UnpackState.emit (st : UnpackState) (b : UInt8) : Except PackFault UnpackState :=
  if intMax < st.size + 1 then .error .overflow
  else if 0 < st.bufsz then
    match write st.buf st.buffer [b] with
    | .ok buf => .ok { st with
        buf, buffer := st.buffer + 1, bufsz := st.bufsz - 1, size := st.size + 1 }
    | .error e => .error e
  else .ok { st with size := st.size + 1 }

/-- The loop over the bits of a header. -/
def unpackBits (header : UInt8) (st : UnpackState) : List UInt8 → Except PackFault UnpackState
  | [] => .ok st
  | i :: bits =>
    if header >>> i &&& 1 ≠ 0 then
      if st.srcsz < 0 then .error .invalid
      else if 0 < st.bufsz ∧ st.src = [] then .error .outOfBounds
      else
        match { st with src := st.src.tail, srcsz := st.srcsz - 1 }.emit (st.src.headD 0) with
        | .ok st => unpackBits header st bits
        | .error e => .error e
    else
      match st.emit 0 with
      | .ok st => unpackBits header st bits
      | .error e => .error e

/-- A run is unpacked. -/
def unpackRun (st : UnpackState) : Except PackFault UnpackState :=
  match st.src with
  | [] => if st.srcsz < 0 then .error .invalid else .error .outOfBounds
  | count :: src =>
    let n := (count.toNat + 1) * 8
    if st.srcsz < n + 1 then .error .invalid
    else if intMax < st.size + n ∨ st.bufsz - n < intMin then .error .overflow
    else if n ≤ st.bufsz then
      match write st.buf st.buffer (src.take n) with
      | .ok buf => .ok
        ⟨src.drop n, st.srcsz - (n + 1), buf, st.buffer + n, st.bufsz - n, st.size + n⟩
      | .error e => .error e
    else .ok
      ⟨src.drop n, st.srcsz - (n + 1), st.buf, st.buffer + n, st.bufsz - n, st.size + n⟩

/-- The loop of `sproto_unpack`; every round takes one byte at least. -/
def unpackLoop : ℕ → UnpackState → Except PackFault UnpackState
  | 0, st => .ok st
  | fuel + 1, st =>
    if 0 < st.srcsz then
      match st.src with
      | [] => .error .outOfBounds
      | header :: src =>
        let st := { st with src, srcsz := st.srcsz - 1 }
        match (if header = 0xff then unpackRun st else unpackBits header st [0, 1, 2, 3, 4, 5, 6, 7])
        with
        | .ok st => unpackLoop fuel st
        | .error e => .error e
    else .ok st

/-- `sproto_unpack` of all of `src` with all of `buf` for the output: the size that is returned, and
the output. -/
def sprotoUnpack (src buf : List UInt8) : Except PackFault (ℕ × List UInt8) :=
  match unpackLoop src.length ⟨src, src.length, buf, 0, buf.length, 0⟩ with
  | .ok st => .ok (st.size, st.buf)
  | .error e => .error e

/-! ### `lpack` -/

/-- `ENCODE_BUFFERSIZE` -/
def encodeBuffersize : ℕ := 2050

/-- `ENCODE_MAXSIZE` -/
def encodeMaxsize : ℕ := 0x1000000

/-- What ends `lpack` without a string: an error is raised, or a function does what it must not
do. -/
inductive LpackFault
  | raised (message : String)
  | fault (f : PackFault)
  deriving DecidableEq, Repr

/-- The upvalue of `lpack`: the userdata, which begins with `ENCODE_BUFFERSIZE` bytes and is
doubled. -/
structure Output where
  bytes : List UInt8
  doublings : ℕ
  length_eq : bytes.length = encodeBuffersize * 2 ^ doublings
  length_le : bytes.length ≤ encodeMaxsize

/-- The upvalue that `pushfunction_withbuffer` makes. -/
def Output.start : Output where
  bytes := List.replicate encodeBuffersize 0
  doublings := 0
  length_eq := List.length_replicate
  length_le := by
    rw [List.length_replicate]
    decide

/-- The loop of `expand_buffer`, from a size that has been doubled some times: how many times it has
been doubled in the end. -/
def expandLoop (doublings : ℕ) (nsz : ℤ) : Except PackFault ℕ :=
  if h : intMax < encodeBuffersize * 2 ^ (doublings + 1) then .error .overflow
  else if (encodeBuffersize * 2 ^ (doublings + 1) : ℕ) < nsz then expandLoop (doublings + 1) nsz
  else .ok (doublings + 1)
termination_by intMax - encodeBuffersize * 2 ^ doublings
decreasing_by
  have hpos : 0 < 2 ^ doublings := Nat.two_pow_pos doublings
  simp only [encodeBuffersize, Nat.pow_succ] at h ⊢
  omega

/-- The message of `expand_buffer`. -/
def tooLarge : String :=
  s!"object is too large (>{encodeMaxsize})"

/-- The message of `lpack`. -/
def packingError (bytes : ℕ) : String :=
  s!"packing error, return size = {bytes}"

/-- `expand_buffer`; what the new userdata holds is `fresh`. -/
def expandBuffer (output : Output) (nsz : ℤ) (fresh : ℕ → UInt8) : Except LpackFault Output :=
  match expandLoop output.doublings nsz with
  | .error e => .error (.fault e)
  | .ok doublings =>
    if h : encodeBuffersize * 2 ^ doublings ≤ encodeMaxsize then .ok
      { bytes := (List.range (encodeBuffersize * 2 ^ doublings)).map fresh
        doublings
        length_eq := by rw [List.length_map, List.length_range]
        length_le := by rwa [List.length_map, List.length_range] }
    else .error (.raised tooLarge)

/-- `maxsz` in `lpack` -/
def maxsz (sz : ℕ) : ℕ :=
  (sz + 2047) / 2048 * 2 + sz

/-- The userdata that `lpack` packs into. -/
def lpackOutput (sz : ℕ) (output : Output) (fresh : ℕ → UInt8) : Except LpackFault Output :=
  if output.bytes.length < maxsz sz then expandBuffer output (toInt (maxsz sz)) fresh
  else .ok output

/-- `lpack` of the `sz` bytes at `mem`: the string, and how often the userdata has been doubled. -/
def lpack (mem : ℕ → UInt8) (sz : ℕ) (output : Output) (fresh : ℕ → UInt8) :
    Except LpackFault (List UInt8 × ℕ) :=
  match lpackOutput sz output fresh with
  | .error e => .error e
  | .ok output =>
    match sprotoPack mem (toInt sz) output.bytes (toInt (maxsz sz)) with
    | .error e => .error (.fault e)
    | .ok r =>
      if maxsz sz < r.size then .error (.raised (packingError r.size))
      -- `lua_pushlstring` copies from the userdata
      else if output.bytes.length < r.size then .error (.fault .outOfBounds)
      else .ok (r.buf.take r.size, output.doublings)

end Mtask.Sproto
