import Mtask.Crypt.Words
import Mtask.Lib.Feistel

/-!
# The block cipher

`des_crypt` is a Feistel network of sixteen rounds between a permutation of the bits and its
inverse. The keys of the rounds are the pairs of words of a schedule of 32, and `desdecode` takes
the pairs in reverse order.
-/

namespace Mtask.Crypt

/-! ### The tables -/

/-- `SB1` -/
def sb1 : List UInt32 :=
  [0x01010400, 0x00000000, 0x00010000, 0x01010404, 0x01010004, 0x00010404, 0x00000004, 0x00010000,
    0x00000400, 0x01010400, 0x01010404, 0x00000400, 0x01000404, 0x01010004, 0x01000000, 0x00000004,
    0x00000404, 0x01000400, 0x01000400, 0x00010400, 0x00010400, 0x01010000, 0x01010000, 0x01000404,
    0x00010004, 0x01000004, 0x01000004, 0x00010004, 0x00000000, 0x00000404, 0x00010404, 0x01000000,
    0x00010000, 0x01010404, 0x00000004, 0x01010000, 0x01010400, 0x01000000, 0x01000000, 0x00000400,
    0x01010004, 0x00010000, 0x00010400, 0x01000004, 0x00000400, 0x00000004, 0x01000404, 0x00010404,
    0x01010404, 0x00010004, 0x01010000, 0x01000404, 0x01000004, 0x00000404, 0x00010404, 0x01010400,
    0x00000404, 0x01000400, 0x01000400, 0x00000000, 0x00010004, 0x00010400, 0x00000000, 0x01010004]

/-- `SB2` -/
def sb2 : List UInt32 :=
  [0x80108020, 0x80008000, 0x00008000, 0x00108020, 0x00100000, 0x00000020, 0x80100020, 0x80008020,
    0x80000020, 0x80108020, 0x80108000, 0x80000000, 0x80008000, 0x00100000, 0x00000020, 0x80100020,
    0x00108000, 0x00100020, 0x80008020, 0x00000000, 0x80000000, 0x00008000, 0x00108020, 0x80100000,
    0x00100020, 0x80000020, 0x00000000, 0x00108000, 0x00008020, 0x80108000, 0x80100000, 0x00008020,
    0x00000000, 0x00108020, 0x80100020, 0x00100000, 0x80008020, 0x80100000, 0x80108000, 0x00008000,
    0x80100000, 0x80008000, 0x00000020, 0x80108020, 0x00108020, 0x00000020, 0x00008000, 0x80000000,
    0x00008020, 0x80108000, 0x00100000, 0x80000020, 0x00100020, 0x80008020, 0x80000020, 0x00100020,
    0x00108000, 0x00000000, 0x80008000, 0x00008020, 0x80000000, 0x80100020, 0x80108020, 0x00108000]

/-- `SB3` -/
def sb3 : List UInt32 :=
  [0x00000208, 0x08020200, 0x00000000, 0x08020008, 0x08000200, 0x00000000, 0x00020208, 0x08000200,
    0x00020008, 0x08000008, 0x08000008, 0x00020000, 0x08020208, 0x00020008, 0x08020000, 0x00000208,
    0x08000000, 0x00000008, 0x08020200, 0x00000200, 0x00020200, 0x08020000, 0x08020008, 0x00020208,
    0x08000208, 0x00020200, 0x00020000, 0x08000208, 0x00000008, 0x08020208, 0x00000200, 0x08000000,
    0x08020200, 0x08000000, 0x00020008, 0x00000208, 0x00020000, 0x08020200, 0x08000200, 0x00000000,
    0x00000200, 0x00020008, 0x08020208, 0x08000200, 0x08000008, 0x00000200, 0x00000000, 0x08020008,
    0x08000208, 0x00020000, 0x08000000, 0x08020208, 0x00000008, 0x00020208, 0x00020200, 0x08000008,
    0x08020000, 0x08000208, 0x00000208, 0x08020000, 0x00020208, 0x00000008, 0x08020008, 0x00020200]

/-- `SB4` -/
def sb4 : List UInt32 :=
  [0x00802001, 0x00002081, 0x00002081, 0x00000080, 0x00802080, 0x00800081, 0x00800001, 0x00002001,
    0x00000000, 0x00802000, 0x00802000, 0x00802081, 0x00000081, 0x00000000, 0x00800080, 0x00800001,
    0x00000001, 0x00002000, 0x00800000, 0x00802001, 0x00000080, 0x00800000, 0x00002001, 0x00002080,
    0x00800081, 0x00000001, 0x00002080, 0x00800080, 0x00002000, 0x00802080, 0x00802081, 0x00000081,
    0x00800080, 0x00800001, 0x00802000, 0x00802081, 0x00000081, 0x00000000, 0x00000000, 0x00802000,
    0x00002080, 0x00800080, 0x00800081, 0x00000001, 0x00802001, 0x00002081, 0x00002081, 0x00000080,
    0x00802081, 0x00000081, 0x00000001, 0x00002000, 0x00800001, 0x00002001, 0x00802080, 0x00800081,
    0x00002001, 0x00002080, 0x00800000, 0x00802001, 0x00000080, 0x00800000, 0x00002000, 0x00802080]

/-- `SB5` -/
def sb5 : List UInt32 :=
  [0x00000100, 0x02080100, 0x02080000, 0x42000100, 0x00080000, 0x00000100, 0x40000000, 0x02080000,
    0x40080100, 0x00080000, 0x02000100, 0x40080100, 0x42000100, 0x42080000, 0x00080100, 0x40000000,
    0x02000000, 0x40080000, 0x40080000, 0x00000000, 0x40000100, 0x42080100, 0x42080100, 0x02000100,
    0x42080000, 0x40000100, 0x00000000, 0x42000000, 0x02080100, 0x02000000, 0x42000000, 0x00080100,
    0x00080000, 0x42000100, 0x00000100, 0x02000000, 0x40000000, 0x02080000, 0x42000100, 0x40080100,
    0x02000100, 0x40000000, 0x42080000, 0x02080100, 0x40080100, 0x00000100, 0x02000000, 0x42080000,
    0x42080100, 0x00080100, 0x42000000, 0x42080100, 0x02080000, 0x00000000, 0x40080000, 0x42000000,
    0x00080100, 0x02000100, 0x40000100, 0x00080000, 0x00000000, 0x40080000, 0x02080100, 0x40000100]

/-- `SB6` -/
def sb6 : List UInt32 :=
  [0x20000010, 0x20400000, 0x00004000, 0x20404010, 0x20400000, 0x00000010, 0x20404010, 0x00400000,
    0x20004000, 0x00404010, 0x00400000, 0x20000010, 0x00400010, 0x20004000, 0x20000000, 0x00004010,
    0x00000000, 0x00400010, 0x20004010, 0x00004000, 0x00404000, 0x20004010, 0x00000010, 0x20400010,
    0x20400010, 0x00000000, 0x00404010, 0x20404000, 0x00004010, 0x00404000, 0x20404000, 0x20000000,
    0x20004000, 0x00000010, 0x20400010, 0x00404000, 0x20404010, 0x00400000, 0x00004010, 0x20000010,
    0x00400000, 0x20004000, 0x20000000, 0x00004010, 0x20000010, 0x20404010, 0x00404000, 0x20400000,
    0x00404010, 0x20404000, 0x00000000, 0x20400010, 0x00000010, 0x00004000, 0x20400000, 0x00404010,
    0x00004000, 0x00400010, 0x20004010, 0x00000000, 0x20404000, 0x20000000, 0x00400010, 0x20004010]

/-- `SB7` -/
def sb7 : List UInt32 :=
  [0x00200000, 0x04200002, 0x04000802, 0x00000000, 0x00000800, 0x04000802, 0x00200802, 0x04200800,
    0x04200802, 0x00200000, 0x00000000, 0x04000002, 0x00000002, 0x04000000, 0x04200002, 0x00000802,
    0x04000800, 0x00200802, 0x00200002, 0x04000800, 0x04000002, 0x04200000, 0x04200800, 0x00200002,
    0x04200000, 0x00000800, 0x00000802, 0x04200802, 0x00200800, 0x00000002, 0x04000000, 0x00200800,
    0x04000000, 0x00200800, 0x00200000, 0x04000802, 0x04000802, 0x04200002, 0x04200002, 0x00000002,
    0x00200002, 0x04000000, 0x04000800, 0x00200000, 0x04200800, 0x00000802, 0x00200802, 0x04200800,
    0x00000802, 0x04000002, 0x04200802, 0x04200000, 0x00200800, 0x00000000, 0x00000002, 0x04200802,
    0x00000000, 0x00200802, 0x04200000, 0x00000800, 0x04000002, 0x04000800, 0x00000800, 0x00200002]

/-- `SB8` -/
def sb8 : List UInt32 :=
  [0x10001040, 0x00001000, 0x00040000, 0x10041040, 0x10000000, 0x10001040, 0x00000040, 0x10000000,
    0x00040040, 0x10040000, 0x10041040, 0x00041000, 0x10041000, 0x00041040, 0x00001000, 0x00000040,
    0x10040000, 0x10000040, 0x10001000, 0x00001040, 0x00041000, 0x00040040, 0x10040040, 0x10041000,
    0x00001040, 0x00000000, 0x00000000, 0x10040040, 0x10000040, 0x10001000, 0x00041040, 0x00040000,
    0x00041040, 0x00040000, 0x10041000, 0x00001000, 0x00000040, 0x10040040, 0x00001000, 0x00041040,
    0x10001000, 0x00000040, 0x10000040, 0x10040000, 0x10040040, 0x10000000, 0x00040000, 0x10001040,
    0x00000000, 0x10041040, 0x00040040, 0x10000040, 0x10040000, 0x10001000, 0x10001040, 0x00000000,
    0x10041040, 0x00041000, 0x00041000, 0x00001040, 0x00001040, 0x00040040, 0x10000000, 0x10041000]

/-- `LHs` -/
def lhs : List UInt32 :=
  [0x00000000, 0x00000001, 0x00000100, 0x00000101, 0x00010000, 0x00010001, 0x00010100, 0x00010101,
    0x01000000, 0x01000001, 0x01000100, 0x01000101, 0x01010000, 0x01010001, 0x01010100, 0x01010101]

/-- `RHs` -/
def rhs : List UInt32 :=
  [0x00000000, 0x01000000, 0x00010000, 0x01010000, 0x00000100, 0x01000100, 0x00010100, 0x01010100,
    0x00000001, 0x01000001, 0x00010001, 0x01010001, 0x00000101, 0x01000101, 0x00010101, 0x01010101]

/-! ### The permutations -/

/-- `T = ((X >> s) ^ Y) & m; Y ^= T; X ^= (T << s)` -/
def exchange (s m : UInt32) (p : UInt32 × UInt32) : UInt32 × UInt32 :=
  let t := (p.1 >>> s ^^^ p.2) &&& m
  (p.1 ^^^ t <<< s, p.2 ^^^ t)

/-- `((X << 1) | (X >> 31)) & 0xFFFFFFFF` -/
def rotateLeft (x : UInt32) : UInt32 :=
  (x <<< 1 ||| x >>> 31) &&& 0xFFFFFFFF

/-- `((X << 31) | (X >> 1)) & 0xFFFFFFFF` -/
def rotateRight (x : UInt32) : UInt32 :=
  (x <<< 31 ||| x >>> 1) &&& 0xFFFFFFFF

/-- `DES_IP` -/
def desIP (p : UInt32 × UInt32) : UInt32 × UInt32 :=
  let p := exchange 16 0x0000FFFF (exchange 4 0x0F0F0F0F p)
  let p := (exchange 8 0x00FF00FF (exchange 2 0x33333333 p.swap)).swap
  let p := exchange 0 0xAAAAAAAA (p.1, rotateLeft p.2)
  (rotateLeft p.1, p.2)

/-- `DES_FP` -/
def desFP (p : UInt32 × UInt32) : UInt32 × UInt32 :=
  let p := exchange 0 0xAAAAAAAA (rotateRight p.1, p.2)
  let p := (p.1, rotateRight p.2)
  let p := (exchange 2 0x33333333 (exchange 8 0x00FF00FF p.swap)).swap
  exchange 4 0x0F0F0F0F (exchange 16 0x0000FFFF p)

/-! ### The rounds -/

/-- An entry of a table. -/
def tableAt (table : List UInt32) (i : UInt32) : UInt32 :=
  table.getD i.toNat 0

/-- `DES_ROUND`, with the next two words of the schedule: what becomes of `Y`. -/
def desRound (k : UInt32 × UInt32) (x y : UInt32) : UInt32 :=
  let t := k.1 ^^^ x
  let y := y ^^^ (tableAt sb8 (t &&& 0x3F) ^^^ tableAt sb6 (t >>> 8 &&& 0x3F) ^^^
    tableAt sb4 (t >>> 16 &&& 0x3F) ^^^ tableAt sb2 (t >>> 24 &&& 0x3F))
  let t := k.2 ^^^ (x <<< 28 ||| x >>> 4)
  y ^^^ (tableAt sb7 (t &&& 0x3F) ^^^ tableAt sb5 (t >>> 8 &&& 0x3F) ^^^
    tableAt sb3 (t >>> 16 &&& 0x3F) ^^^ tableAt sb1 (t >>> 24 &&& 0x3F))

/-- The words of the schedule, two for a round. -/
def roundKeys (sk : List UInt32) : List (UInt32 × UInt32) :=
  (List.range 16).map fun i => (sk.getD (2 * i) 0, sk.getD (2 * i + 1) 0)

/-- `DES_ROUND( Y, X );  DES_ROUND( X, Y );` as often as there are keys for it. -/
def desRounds : List (UInt32 × UInt32) → UInt32 × UInt32 → UInt32 × UInt32
  | k :: k' :: ks, p =>
    let x := desRound k p.2 p.1
    desRounds ks (x, desRound k' x p.2)
  | _, p => p

/-- `des_crypt` -/
def desCrypt (sk : List UInt32) (input : List UInt8) : List UInt8 :=
  let p := desIP (getUInt32 input 0, getUInt32 input 4)
  let p := desFP (desRounds (roundKeys sk) p).swap
  putUInt32 p.1 ++ putUInt32 p.2

/-! ### The schedule -/

/-- `((X << s) | (X >> (28 - s))) & 0x0FFFFFFF` -/
def rotate28 (s x : UInt32) : UInt32 :=
  (x <<< s ||| x >>> (28 - s)) &&& 0x0FFFFFFF

/-- `((X << s) & m)` -/
def takeLeft (x s m : UInt32) : UInt32 :=
  x <<< s &&& m

/-- `((X >> s) & m)` -/
def takeRight (x s m : UInt32) : UInt32 :=
  x >>> s &&& m

/-- The first word of a round. -/
def evenSubkey (x y : UInt32) : UInt32 :=
  takeLeft x 4 0x24000000 ||| takeLeft x 28 0x10000000 ||| takeLeft x 14 0x08000000 |||
    takeLeft x 18 0x02080000 ||| takeLeft x 6 0x01000000 ||| takeLeft x 9 0x00200000 |||
    takeRight x 1 0x00100000 ||| takeLeft x 10 0x00040000 ||| takeLeft x 2 0x00020000 |||
    takeRight x 10 0x00010000 ||| takeRight y 13 0x00002000 ||| takeRight y 4 0x00001000 |||
    takeLeft y 6 0x00000800 ||| takeRight y 1 0x00000400 ||| takeRight y 14 0x00000200 |||
    (y &&& 0x00000100) ||| takeRight y 5 0x00000020 ||| takeRight y 10 0x00000010 |||
    takeRight y 3 0x00000008 ||| takeRight y 18 0x00000004 ||| takeRight y 26 0x00000002 |||
    takeRight y 24 0x00000001

/-- The second word of a round. -/
def oddSubkey (x y : UInt32) : UInt32 :=
  takeLeft x 15 0x20000000 ||| takeLeft x 17 0x10000000 ||| takeLeft x 10 0x08000000 |||
    takeLeft x 22 0x04000000 ||| takeRight x 2 0x02000000 ||| takeLeft x 1 0x01000000 |||
    takeLeft x 16 0x00200000 ||| takeLeft x 11 0x00100000 ||| takeLeft x 3 0x00080000 |||
    takeRight x 6 0x00040000 ||| takeLeft x 15 0x00020000 ||| takeRight x 4 0x00010000 |||
    takeRight y 2 0x00002000 ||| takeLeft y 8 0x00001000 ||| takeRight y 14 0x00000808 |||
    takeRight y 9 0x00000400 ||| (y &&& 0x00000200) ||| takeLeft y 7 0x00000100 |||
    takeRight y 7 0x00000020 ||| takeRight y 3 0x00000011 ||| takeLeft y 2 0x00000004 |||
    takeRight y 21 0x00000002

/-- The loop of `des_main_ks`, from round `i` on. -/
def subkeys : ℕ → ℕ → UInt32 → UInt32 → List UInt32
  | 0, _, _, _ => []
  | n + 1, i, x, y =>
    let s := if i < 2 ∨ i = 8 ∨ i = 15 then 1 else 2
    let x := rotate28 s x
    let y := rotate28 s y
    evenSubkey x y :: oddSubkey x y :: subkeys n (i + 1) x y

/-- `des_main_ks` -/
def desMainKs (key : List UInt8) : List UInt32 :=
  let p := exchange 4 0x0F0F0F0F (getUInt32 key 4, getUInt32 key 0)
  let p := exchange 0 0x10101010 p
  let y := p.1
  let x := p.2
  let x' := tableAt lhs (x &&& 0xF) <<< 3 ||| tableAt lhs (x >>> 8 &&& 0xF) <<< 2 |||
    tableAt lhs (x >>> 16 &&& 0xF) <<< 1 ||| tableAt lhs (x >>> 24 &&& 0xF) |||
    tableAt lhs (x >>> 5 &&& 0xF) <<< 7 ||| tableAt lhs (x >>> 13 &&& 0xF) <<< 6 |||
    tableAt lhs (x >>> 21 &&& 0xF) <<< 5 ||| tableAt lhs (x >>> 29 &&& 0xF) <<< 4
  let y' := tableAt rhs (y >>> 1 &&& 0xF) <<< 3 ||| tableAt rhs (y >>> 9 &&& 0xF) <<< 2 |||
    tableAt rhs (y >>> 17 &&& 0xF) <<< 1 ||| tableAt rhs (y >>> 25 &&& 0xF) |||
    tableAt rhs (y >>> 4 &&& 0xF) <<< 7 ||| tableAt rhs (y >>> 12 &&& 0xF) <<< 6 |||
    tableAt rhs (y >>> 20 &&& 0xF) <<< 5 ||| tableAt rhs (y >>> 28 &&& 0xF) <<< 4
  subkeys 16 0 (x' &&& 0x0FFFFFFF) (y' &&& 0x0FFFFFFF)

/-- The schedule of `ldesdecode`. -/
def reversedKeys (esk : List UInt32) : List UInt32 :=
  (List.range 16).flatMap fun i => [esk.getD (30 - 2 * i) 0, esk.getD (31 - 2 * i) 0]

/-! ### The permutations undo each other -/

section Permutations

variable {s m x y : UInt32} {p : UInt32 × UInt32}

theorem and_ffffffff (x : UInt32) : x &&& 0xFFFFFFFF = x := by
  have hx : x.toNat < 2 ^ 32 := x.toNat_lt
  refine UInt32.toNat_inj.mp ?_
  rw [UInt32.toNat_and]
  exact (Nat.and_two_pow_sub_one_eq_mod _ 32).trans (Nat.mod_eq_of_lt hx)

/-- Bits that are not lost to the left come back. -/
theorem shiftLeft_shiftRight (hs : s.toNat < 32) (hx : x.toNat * 2 ^ s.toNat < 2 ^ 32) :
    x <<< s >>> s = x := by
  refine UInt32.toNat_inj.mp ?_
  rw [UInt32.toNat_shiftRight, toNat_shiftLeft_eq hs hx, Nat.mod_eq_of_lt hs,
    Nat.shiftRight_eq_div_pow, Nat.mul_div_cancel _ (Nat.two_pow_pos _)]

theorem xor_xor_cancel (x y : UInt32) : x ^^^ y ^^^ y = x := by
  rw [UInt32.xor_assoc, UInt32.xor_self, UInt32.xor_zero]

theorem xor_xor_xor_cancel (x y t : UInt32) : x ^^^ t ^^^ (y ^^^ t) = x ^^^ y := by
  rw [UInt32.xor_comm y t, ← UInt32.xor_assoc, xor_xor_cancel]

/-- **An exchange of bits undoes itself**, if the mask does not lose any. -/
theorem exchange_exchange (hs : s.toNat < 32) (hm : m.toNat * 2 ^ s.toNat < 2 ^ 32)
    (p : UInt32 × UInt32) : exchange s m (exchange s m p) = p := by
  have hmask : ((p.1 >>> s ^^^ p.2) &&& m).toNat ≤ m.toNat := by
    rw [UInt32.toNat_and]
    exact Nat.and_le_right
  have hback : ((p.1 >>> s ^^^ p.2) &&& m) <<< s >>> s = (p.1 >>> s ^^^ p.2) &&& m :=
    shiftLeft_shiftRight hs (Nat.lt_of_le_of_lt (Nat.mul_le_mul_right _ hmask) hm)
  simp only [exchange]
  rw [UInt32.shiftRight_xor, hback, xor_xor_xor_cancel, xor_xor_cancel, xor_xor_cancel]

theorem toNat_rotateLeft (x : UInt32) :
    (rotateLeft x).toNat = x.toNat % 2 ^ 31 * 2 + x.toNat / 2 ^ 31 := by
  have hx : x.toNat < 2 ^ 32 := x.toNat_lt
  have hleft : (x <<< 1).toNat = x.toNat % 2 ^ 31 * 2 := by
    rw [UInt32.toNat_shiftLeft, Nat.shiftLeft_eq]
    simp only [UInt32.reduceToNat, Nat.reduceMod]
    omega
  have hright : (x >>> 31).toNat = x.toNat / 2 ^ 31 :=
    toNat_shiftRight_eq x 31
  rw [rotateLeft, and_ffffffff, toNat_or_eq_add 1 (by omega) (by omega), hleft, hright]

theorem toNat_rotateRight (x : UInt32) :
    (rotateRight x).toNat = x.toNat % 2 * 2 ^ 31 + x.toNat / 2 := by
  have hx : x.toNat < 2 ^ 32 := x.toNat_lt
  have hleft : (x <<< 31).toNat = x.toNat % 2 * 2 ^ 31 := by
    rw [UInt32.toNat_shiftLeft, Nat.shiftLeft_eq]
    simp only [UInt32.reduceToNat, Nat.reduceMod]
    omega
  have hright : (x >>> 1).toNat = x.toNat / 2 :=
    toNat_shiftRight_eq x 1
  rw [rotateRight, and_ffffffff, toNat_or_eq_add 31 (by omega) (by omega), hleft, hright]

@[simp]
theorem rotateRight_rotateLeft (x : UInt32) : rotateRight (rotateLeft x) = x := by
  have hx : x.toNat < 2 ^ 32 := x.toNat_lt
  refine UInt32.toNat_inj.mp ?_
  rw [toNat_rotateRight, toNat_rotateLeft]
  omega

@[simp]
theorem rotateLeft_rotateRight (x : UInt32) : rotateLeft (rotateRight x) = x := by
  have hx : x.toNat < 2 ^ 32 := x.toNat_lt
  refine UInt32.toNat_inj.mp ?_
  rw [toNat_rotateLeft, toNat_rotateRight]
  omega

@[simp]
theorem desFP_desIP (p : UInt32 × UInt32) : desFP (desIP p) = p := by
  simp (disch := decide) [desFP, desIP, exchange_exchange]

@[simp]
theorem desIP_desFP (p : UInt32 × UInt32) : desIP (desFP p) = p := by
  simp (disch := decide) [desFP, desIP, exchange_exchange]

end Permutations

/-! ### The rounds undo themselves -/

section Rounds

/-- What a round mixes into a word. -/
def roundMask (k : UInt32 × UInt32) (x : UInt32) : UInt32 :=
  desRound k x 0

theorem desRound_eq (k : UInt32 × UInt32) (x y : UInt32) :
    desRound k x y = y ^^^ roundMask k x := by
  simp only [roundMask, desRound, UInt32.zero_xor, UInt32.xor_assoc]

/-- **The rounds are those of a Feistel network**, if there is an even number of them. -/
theorem desRounds_eq (ks : List (UInt32 × UInt32)) (h : 2 ∣ ks.length) (p : UInt32 × UInt32) :
    desRounds ks p = Feistel.rounds (· ^^^ ·) roundMask ks p := by
  induction ks, p using desRounds.induct with
  | case1 k k' ks p x ih =>
    rw [desRounds, ih ((Nat.dvd_add_left (dvd_refl 2)).mp h)]
    simp only [Feistel.rounds, Feistel.round, ← desRound_eq]
    rfl
  | case2 ks p hks =>
    match ks with
    | [] => rfl
    | [_] => exact absurd (Nat.le_of_dvd Nat.one_pos h) (by decide)
    | k :: k' :: ks => exact absurd rfl (hks k k' ks)

/-- The permutation of the bits. -/
def desPermutation : UInt32 × UInt32 ≃ UInt32 × UInt32 :=
  ⟨desIP, desFP, desFP_desIP, desIP_desFP⟩

/-- The block as words. -/
def desWords (sk : List UInt32) : UInt32 × UInt32 → UInt32 × UInt32 :=
  Feistel.cipher (· ^^^ ·) roundMask desPermutation (roundKeys sk)

theorem desCrypt_eq (sk : List UInt32) (x y : UInt32) :
    desCrypt sk (putUInt32 x ++ putUInt32 y) =
      putUInt32 (desWords sk (x, y)).1 ++ putUInt32 (desWords sk (x, y)).2 := by
  have hnext : getUInt32 (putUInt32 x ++ putUInt32 y) 4 = y := by
    rw [getUInt32_append (show (putUInt32 x).length = 4 from rfl), ← List.append_nil (putUInt32 y),
      getUInt32_putUInt32]
  rw [desCrypt, desRounds_eq _ ⟨8, rfl⟩, getUInt32_putUInt32, hnext]
  rfl

@[simp]
theorem length_desCrypt (sk : List UInt32) (b : List UInt8) : (desCrypt sk b).length = 8 := rfl

theorem roundKeys_reversedKeys (sk : List UInt32) :
    roundKeys (reversedKeys sk) = (roundKeys sk).reverse := rfl

variable {b : List UInt8}

theorem exists_words (h : b.length = 8) : ∃ x y, b = putUInt32 x ++ putUInt32 y := by
  match b, h with
  | [a₀, a₁, a₂, a₃, b₀, b₁, b₂, b₃], _ =>
    exact ⟨getUInt32 [a₀, a₁, a₂, a₃] 0, getUInt32 [b₀, b₁, b₂, b₃] 0, by
      rw [putUInt32_getUInt32, putUInt32_getUInt32]; rfl⟩

theorem involutive_xor (y : UInt32) : Function.Involutive fun x : UInt32 => x ^^^ y :=
  fun x => xor_xor_cancel x y

/-- **The keys in reverse order undo a block.** -/
theorem desCrypt_desCrypt {sk sk' : List UInt32} (h : roundKeys sk' = (roundKeys sk).reverse)
    (hb : b.length = 8) : desCrypt sk' (desCrypt sk b) = b := by
  obtain ⟨x, y, rfl⟩ := exists_words hb
  have hback : desWords sk' (desWords sk (x, y)) = (x, y) := by
    rw [desWords, desWords, h]
    exact Feistel.cipher_reverse roundMask involutive_xor desPermutation _ _
  rw [desCrypt_eq, desCrypt_eq, hback]

theorem desCrypt_reversedKeys (sk : List UInt32) (hb : b.length = 8) :
    desCrypt (reversedKeys sk) (desCrypt sk b) = b :=
  desCrypt_desCrypt (roundKeys_reversedKeys sk) hb

theorem desCrypt_of_reversedKeys (sk : List UInt32) (hb : b.length = 8) :
    desCrypt sk (desCrypt (reversedKeys sk) b) = b := by
  refine desCrypt_desCrypt ?_ hb
  rw [roundKeys_reversedKeys, List.reverse_reverse]

end Rounds

end Mtask.Crypt
