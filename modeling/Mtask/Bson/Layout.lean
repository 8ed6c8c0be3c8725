import Mtask.Bson.Decode

/-!
# The value of an element

The type of an element says what its value is made of: bytes of a fixed number, or of a number that
the value begins with, or strings. `unpack_dict` and `lmakeindex` do not ask for the same.
-/

namespace Mtask.Bson

open Lua Lua.Value Mongo Buffers List

/-- What the value of an element is made of. -/
inductive Layout
  /-- bytes of a fixed number -/
  | fixed (n : ℤ)
  /-- a length, some bytes, and as many bytes as the length says when a number is added -/
  | sized (more add : ℤ)
  /-- a length that has to be positive, and as many bytes -/
  | text
  | cstrings
  | document
  deriving DecidableEq

/-- The place behind a value. -/
def Layout.ends (block : List UInt8) (e : ℕ) : Layout → ℕ → Except Refusal ℕ
  | fixed n, v => skip e n v
  | sized more add, v => do
    let o ← skip e 4 v
    let o ← skip e more o
    skip e (toInt (int32At block v + add)) o
  | text, v => do
    let o ← skip e 4 v
    if int32At block v ≤ 0 then .error .refused else skip e (int32At block v) o
  | cstrings, v => do
    let o ← skipCstring block e v
    skipCstring block e o
  | document, v => do
    let o ← skip e 4 v
    let o ← skip e (toInt (int32At block v - 5)) o
    let o' ← skip e 1 o
    if (slice block o 1).headD 0 ≠ 0 then .error .refused else .ok o'

/-- The values that `unpack_dict` knows. -/
def decodeLayout : BsonType → Layout
  | .real | .date | .timestamp | .int64 => .fixed 8
  | .boolean => .fixed 1
  | .string => .text
  | .document | .array => .document
  | .binary => .sized 1 0
  | .objectid => .fixed 12
  | .minkey | .maxkey | .null => .fixed 0
  | .regex => .cstrings
  | .int32 => .fixed 4
  | .dbpointer => .sized 0 12
  | .jscode | .symbol => .sized 0 0
  | .codews => .sized 0 (-4)

/-- The values that `lmakeindex` knows. -/
def indexLayout : BsonType → Layout
  | .real | .date | .timestamp | .int64 => .fixed 8
  | .boolean => .fixed 1
  | .jscode | .symbol | .string => .sized 0 0
  | .codews | .document | .array => .sized 0 (-4)
  | .binary => .sized 0 1
  | .objectid => .fixed 12
  | .minkey | .maxkey | .null => .fixed 0
  | .regex => .cstrings
  | .int32 => .fixed 4
  | .dbpointer => .sized 0 12

/-- The value that the bytes of an element stand for, if it is not a document. -/
def plainValue (data : List UInt8) : BsonType → Value Unit
  | .real => .float (.ofNat 64 (LittleEndian.ofBytes data))
  | .boolean => .boolean (data.headD 0 ≠ 0)
  | .string => .string (slice data 4 (data.length - 5))
  | .binary => makeObject BsonType.binary.code (data.drop 4)
  | .date => makeObject BsonType.date.code (LittleEndian.toBytes 4 (BitVec.ofInt 32
      ((BitVec.ofNat 64 (LittleEndian.ofBytes data)).toInt.tdiv 1000)).toNat)
  | .int32 => .integer (.ofInt 64 (int32At data 0))
  | .int64 => .integer (.ofNat 64 (LittleEndian.ofBytes data))
  | .document | .array => .nil
  | type => makeObject type.code data

/-! ### The value of an element -/

section Value

variable {block : List UInt8} {e v : ℕ}

theorem skip_ok {sz : ℤ} {o : ℕ} (h : skip e sz v = .ok o) :
    0 ≤ sz ∧ v + sz.toNat = o ∧ v + sz ≤ e := by
  rw [skip] at h
  split_ifs at h with hlt hneg
  exact ⟨Int.not_lt.mp hneg, Except.ok.inj h, by omega⟩

theorem skip_eq_ok {sz : ℤ} (hsz : 0 ≤ sz) (h : v + sz ≤ e) : skip e sz v = .ok (v + sz.toNat) := by
  rw [skip, if_neg (by omega), if_neg (by omega)]

theorem skipCstring_ok {o : ℕ} (h : skipCstring block e v = .ok o) : v < o ∧ o ≤ e := by
  rw [skipCstring] at h
  cases hfind : ((block.take e).drop v).findIdx? (· = 0) with
  | none =>
    rw [hfind] at h
    cases h
  | some i =>
    rw [hfind] at h
    obtain ⟨hi, -⟩ := findIdx?_eq_some_iff_getElem.mp hfind
    rw [length_drop, length_take] at hi
    obtain rfl := Except.ok.inj h
    omega

/-- A string has no zero in it, and one behind it. -/
theorem slice_of_skipCstring {o : ℕ} (h : skipCstring block e v = .ok o) :
    slice block v (o - v) = slice block v (o - (v + 1)) ++ [0] ∧ 0 ∉ slice block v (o - (v + 1)) := by
  rw [skipCstring, drop_take] at h
  cases hfind : ((block.drop v).take (e - v)).findIdx? (· = 0) with
  | none =>
    rw [hfind] at h
    cases h
  | some i =>
    rw [hfind] at h
    obtain ⟨hi, hzero, hbefore⟩ := findIdx?_eq_some_iff_getElem.mp hfind
    obtain rfl := Except.ok.inj h
    have hsub : v + (i + 1) - v = i + 1 := by omega
    have hsub' : v + (i + 1) - (v + 1) = i := by omega
    rw [length_take] at hi
    rw [hsub, hsub', slice, slice]
    rw [getElem_take] at hzero
    constructor
    · rw [take_succ_eq_append_getElem (by omega), of_decide_eq_true hzero]
    · intro hmem
      obtain ⟨j, hj, heq⟩ := mem_iff_getElem.mp hmem
      rw [length_take] at hj
      have hnot := hbefore j (by omega)
      rw [getElem_take] at heq hnot
      exact hnot (decide_eq_true heq)

theorem skip_zero (hv : v ≤ e) : skip e 0 v = .ok v := by
  rw [skip, if_neg (by omega), if_neg (by omega), Int.toNat_zero, Nat.add_zero]

theorem skip_one (h : v < e) : skip e 1 v = .ok (v + 1) := by
  rw [skip, if_neg (by omega), if_neg (by decide)]
  rfl

theorem skip_four_four (v : ℕ) : skip e 4 v >>= skip e 4 = skip e 8 v := by
  rw [skip, skip, if_neg (show ¬(4 : ℤ) < 0 by decide), if_neg (show ¬(8 : ℤ) < 0 by decide)]
  by_cases hlt : (e : ℤ) - v < 4
  · rw [if_pos hlt, if_pos (by omega)]
    rfl
  · rw [if_neg hlt]
    change skip e 4 (v + 4) = _
    rw [skip, if_neg (show ¬(4 : ℤ) < 0 by decide)]
    by_cases hlt' : (e : ℤ) - v < 8
    · rw [if_pos hlt', if_pos (by push_cast; omega)]
    · rw [if_neg hlt', if_neg (by push_cast; omega)]
      rfl

theorem toInt_int32At (block : List UInt8) (v : ℕ) : toInt (int32At block v) = int32At block v :=
  toInt_of_range (toInt_range _).1 (toInt_range _).2

theorem skip_skip_zero (n : ℤ) : skip e n v >>= skip e 0 = skip e n v := by
  cases hskip : skip e n v with
  | error refusal => rfl
  | ok o =>
    obtain ⟨hn, rfl, hle⟩ := skip_ok hskip
    exact skip_zero (by omega)

theorem ends_sized_zero (add : ℤ) : (Layout.sized 0 add).ends block e v =
    skip e 4 v >>= skip e (toInt (int32At block v + add)) := by
  rw [Layout.ends, ← bind_assoc, skip_skip_zero]

/-- A size that is not refused is what the length says. -/
theorem toInt_add_eq {z c : ℤ} (hz : -2 ^ 31 ≤ z ∧ z < 2 ^ 31) (hc : -5 ≤ c) (hc' : c < 2 ^ 31)
    (hsize : 0 ≤ toInt (z + c)) (hlt : toInt (z + c) < 2 ^ 31 - 5) : toInt (z + c) = z + c := by
  rw [toInt] at *
  split_ifs at * <;> omega

theorem runs_get {α : Type} {f : BsonReader → Reading α} {o : Except Refusal ℕ} {Q : α → Prop}
    (h : Runs block e (f (place block e v)) v o Q) : Runs block e (get >>= f) v o Q := h

theorem slice_one (h : v < block.length) : slice block v 1 = [(slice block v 1).headD 0] := by
  rw [slice, drop_eq_getElem_cons h]
  rfl

theorem int32Bytes_int32At (h : v + 4 ≤ block.length) :
    LittleEndian.toBytes 4 (BitVec.ofInt 32 (int32At block v)).toNat = slice block v 4 := by
  have hlength : (slice block v 4).length = 4 := length_slice h
  have hlt := LittleEndian.ofBytes_lt (slice block v 4)
  rw [hlength] at hlt
  have htoNat : (BitVec.ofInt 32 (int32At block v)).toNat =
      LittleEndian.ofBytes (slice block v 4) := by
    have hmod : toInt (LittleEndian.ofBytes (slice block v 4)) % (2 ^ 32 : ℕ) =
        LittleEndian.ofBytes (slice block v 4) := by
      have hcast : ((2 ^ 32 : ℕ) : ℤ) = 2 ^ 32 := rfl
      rw [hcast, toInt_emod]
      exact Int.emod_eq_of_lt (Int.natCast_nonneg _) (by omega)
    rw [int32At, BitVec.toNat_ofInt, hmod, Int.toNat_natCast]
  rw [htoNat]
  nth_rewrite 1 [← hlength]
  exact LittleEndian.toBytes_ofBytes _

theorem runs_object (he : e ≤ block.length) (hlength : block.length < 2 ^ 31) (hv : 0 < v) (c : ℤ)
    (hc : -5 ≤ c) (hc' : c < 2 ^ 31 - 4) {rest whole : ℤ → ℤ}
    (hrest : ∀ sz, toInt sz = sz → rest sz = toInt (sz + c)) (hwhole : ∀ sz, whole sz = sz + c + 4)
    (type : BsonType) : Runs block e (do
      let ptr := (← get).ptr
      let sz ← readInt32
      let _ ← readBytes (rest sz)
      return makeObject type.code (← bytesAt ptr (whole sz))) v
    ((Layout.sized 0 c).ends block e v) fun a => ∀ o', (Layout.sized 0 c).ends block e v = .ok o' →
      a = makeObject type.code (slice block v (o' - v)) := by
  rw [ends_sized_zero]
  refine runs_get ((runs_readInt32 he).bind fun sz o hsz _ ho hskip => ?_)
  rw [hsz, hrest sz (hsz ▸ toInt_int32At block v), hwhole]
  rw [hskip]
  obtain ⟨-, rfl, hle⟩ := skip_ok hskip
  refine (runs_readBytes _).andThen fun ptr o' _ _ ho' hskip' => ?_
  obtain ⟨hsize, rfl, hle'⟩ := skip_ok hskip'
  have hsum := toInt_add_eq (hsz ▸ toInt_range _) hc (by omega) hsize (by omega)
  refine (runs_bytesAt ho' (by omega) (by simp only [place]; omega)).map fun bytes hbytes o₁ ho₁ => ?_
  obtain rfl := Except.ok.inj (hskip'.symm.trans ho₁)
  have hn : (sz + c + 4).toNat = v + 4 + (toInt (sz + c)).toNat - v := by omega
  rw [← hbytes, hn]
  rfl

/-- The first number of a range is the one at its place. -/
theorem int32At_slice {n : ℕ} (h : 4 ≤ n) : int32At (slice block v n) 0 = int32At block v := by
  rw [int32At, slice_slice (by omega), Nat.add_zero, int32At]

section

variable (nested : Bool → Reading (Value Unit))
include nested

theorem runs_string (he : e ≤ block.length) :
    Runs block e (unpackValue nested .string) v (Layout.text.ends block e v) fun a =>
      ∀ o', Layout.text.ends block e v = .ok o' →
        a = plainValue (slice block v (o' - v)) .string := by
  simp only [unpackValue, Layout.ends]
  refine (runs_readInt32 he).bind fun sz o hsz _ ho hfour => ?_
  rw [hsz, hfour]
  by_cases hpos : sz ≤ 0
  · rw [if_pos hpos, if_pos hpos]
    exact .raise _
  · rw [if_neg hpos, if_neg hpos]
    refine (runs_readBytes _).andThen fun ptr o' hptr _ ho' hskip => ?_
    obtain ⟨-, rfl, -⟩ := skip_ok hfour
    subst hptr
    have hle := (skip_ok hskip).2.2
    refine (runs_bytesAt ho' (by omega) (by omega)).map fun bytes hbytes o₁ ho₁ => ?_
    change ite _ _ _ = _ at ho₁
    rw [if_neg hpos] at ho₁
    obtain ⟨-, rfl, -⟩ := skip_ok ho₁
    have hlength : (slice block v (v + (4 : ℤ).toNat + sz.toNat - v)).length = sz.toNat + 4 := by
      rw [length_slice (by omega)]
      omega
    have hn : sz.toNat + 4 - 5 = (sz - 1).toNat := by omega
    rw [plainValue, hlength, slice_slice (by omega), hn, ← hbytes]
    rfl

theorem runs_binary (he : e ≤ block.length) :
    Runs block e (unpackValue nested .binary) v ((Layout.sized 1 0).ends block e v) fun a =>
      ∀ o', (Layout.sized 1 0).ends block e v = .ok o' →
        a = plainValue (slice block v (o' - v)) .binary := by
  simp only [unpackValue, Layout.ends]
  rw [Int.add_zero, toInt_int32At]
  refine (runs_readInt32 he).bind fun sz o hsz _ ho hfour => ?_
  rw [hsz, hfour]
  refine (runs_readByte he).bind fun subtype o₁ hsubtype _ ho₁ hone => ?_
  refine (runs_readBytes _).andThen fun ptr o' hptr _ ho' hskip => ?_
  obtain ⟨-, rfl, -⟩ := skip_ok hfour
  obtain ⟨-, rfl, -⟩ := skip_ok hone
  obtain ⟨hsize, -, hle⟩ := skip_ok hskip
  subst hptr
  refine (runs_bytesAt ho' hsize (by omega)).map fun bytes hbytes o₂ ho₂ => ?_
  change skip e 1 _ >>= skip e sz = _ at ho₂
  rw [hone] at ho₂
  obtain ⟨-, rfl, -⟩ := skip_ok (show skip e sz _ = .ok o₂ from ho₂)
  have hn : v + (4 : ℤ).toNat + (1 : ℤ).toNat + sz.toNat - v - 4 = 1 + sz.toNat := by omega
  have hdata : slice block (v + 4) (1 + sz.toNat) = subtype :: bytes := by
    rw [← slice_append_slice, slice_one (by omega)]
    exact congrArg₂ _ hsubtype hbytes
  rw [plainValue, drop_slice, hn, hdata]

theorem runs_regex (hv : v ≤ e) (he : e ≤ block.length) :
    Runs block e (unpackValue nested .regex) v (Layout.cstrings.ends block e v) fun a =>
      ∀ o', Layout.cstrings.ends block e v = .ok o' →
        a = plainValue (slice block v (o' - v)) .regex := by
  simp only [unpackValue, Layout.ends]
  refine (runs_readCstring hv he).bind fun r1 o hr1 _ ho hfirst => ?_
  refine (runs_readCstring ho he).map fun r2 hr2 o' ho' => ?_
  rw [hfirst] at ho'
  change skipCstring block e o = _ at ho'
  obtain ⟨hslice, -⟩ := slice_of_skipCstring hfirst
  obtain ⟨hslice', -⟩ := slice_of_skipCstring ho'
  obtain ⟨hlt, -⟩ := skipCstring_ok hfirst
  obtain ⟨hlt', -⟩ := skipCstring_ok ho'
  have hdata : slice block v (o' - v) = r1 ++ [0] ++ r2 ++ [0] := by
    have hn : o' - v = o - v + (o' - o) := by omega
    have ho : v + (o - v) = o := by omega
    rw [hn, ← slice_append_slice, ho, hslice, hslice', hr1 o hfirst, hr2 o' ho', append_assoc]
    simp
  rw [hdata]
  rfl

theorem runs_timestamp (he : e ≤ block.length) :
    Runs block e (unpackValue nested .timestamp) v (skip e 8 v) fun a =>
      ∀ o', skip e 8 v = .ok o' → a = plainValue (slice block v (o' - v)) .timestamp := by
  simp only [unpackValue]
  rw [← skip_four_four]
  refine (runs_readInt32 he).bind fun inc o hinc _ ho hfour => ?_
  refine (runs_readInt32 he).map fun ts hts o' ho' => ?_
  rw [hfour] at ho'
  obtain ⟨-, rfl, -⟩ := skip_ok hfour
  obtain ⟨-, rfl, hle⟩ := skip_ok (show skip e 4 _ = .ok o' from ho')
  have hn : v + (4 : ℤ).toNat + (4 : ℤ).toNat - v = 4 + 4 := by omega
  have hdata : slice block v (4 + 4) = slice block v 4 ++ slice block (v + 4) 4 :=
    slice_append_slice.symm
  rw [hn, hdata, ← hinc, ← hts, int32Bytes_int32At (by omega), int32Bytes_int32At]
  · rfl
  · omega

/-- **The value that `unpack_dict` reads**, if it is not a document. -/
theorem runs_unpackValue (he : e ≤ block.length) (hlength : block.length < 2 ^ 31) (hpos : 0 < v)
    (hv : v ≤ e) (type : BsonType) (htype : decodeLayout type ≠ .document) :
    Runs block e (unpackValue nested type) v ((decodeLayout type).ends block e v) fun a =>
      ∀ o', (decodeLayout type).ends block e v = .ok o' →
        a = plainValue (slice block v (o' - v)) type := by
  have hfixed {n o' : ℕ} (h : skip e n v = .ok o') : o' - v = n := by
    obtain ⟨-, rfl, -⟩ := skip_ok h
    omega
  have hempty {type : BsonType} (hends : (decodeLayout type).ends block e v = skip e 0 v)
      (hvalue : makeObject type.code [] = plainValue [] type) :
      Runs block e (Pure.pure (makeObject type.code [])) v ((decodeLayout type).ends block e v)
        fun a => ∀ o', (decodeLayout type).ends block e v = .ok o' →
          a = plainValue (slice block v (o' - v)) type := by
    rw [hends, skip_zero hv]
    refine .pure hv fun o' ho' => ?_
    obtain rfl := Except.ok.inj ho'
    rw [Nat.sub_self]
    exact hvalue
  cases type with
  | real => exact (runs_readDouble he).map fun d hd o' ho' => by rw [hfixed ho', ← hd]; rfl
  | boolean => exact (runs_readByte he).map fun b hb o' ho' => by rw [hfixed ho', ← hb]; rfl
  | document => exact absurd rfl htype
  | array => exact absurd rfl htype
  | int32 =>
    refine (runs_readInt32 he).map fun i hi o' ho' => ?_
    rw [hfixed ho', ← hi, plainValue, int32At_slice (Nat.le_refl 4)]
  | int64 => exact (runs_readInt64 he).map fun i hi o' ho' => by rw [hfixed ho', ← hi]; rfl
  | date => exact (runs_readInt64 he).map fun i hi o' ho' => by rw [hfixed ho', ← hi]; rfl
  | null => exact hempty rfl rfl
  | minkey => exact hempty rfl rfl
  | maxkey => exact hempty rfl rfl
  | string => exact runs_string nested he
  | binary => exact runs_binary nested he
  | objectid =>
    refine (runs_readBytes _).andThen fun ptr o' hptr _ ho' hskip => ?_
    obtain ⟨hsize, -, hle⟩ := skip_ok hskip
    subst hptr
    refine (runs_bytesAt ho' hsize (by omega)).map fun bytes hbytes o₁ ho₁ => ?_
    rw [hfixed ho₁, ← hbytes]
    rfl
  | regex => exact runs_regex nested hv he
  | timestamp => exact runs_timestamp nested he
  | dbpointer =>
    exact runs_object he hlength hpos 12 (by decide) (by decide) (fun _ _ => rfl)
      (fun sz => by omega) .dbpointer
  | jscode =>
    exact runs_object he hlength hpos 0 (by decide) (by decide)
      (fun sz hsz => by rw [Int.add_zero, hsz]) (fun sz => by omega) .jscode
  | symbol =>
    exact runs_object he hlength hpos 0 (by decide) (by decide)
      (fun sz hsz => by rw [Int.add_zero, hsz]) (fun sz => by omega) .symbol
  | codews =>
    exact runs_object he hlength hpos (-4) (by decide) (by decide) (fun _ _ => rfl)
      (fun sz => by omega) .codews

end

theorem runs_sized (he : e ≤ block.length) (c : ℤ) {rest : ℤ → ℤ}
    (hrest : ∀ sz, toInt sz = sz → rest sz = toInt (sz + c)) : Runs block e (do
      let sz ← readInt32
      let _ ← readBytes (rest sz)
      return 0) v ((Layout.sized 0 c).ends block e v) (0 = ·) := by
  rw [ends_sized_zero]
  refine (runs_readInt32 he).bind fun sz o hsz _ ho hskip => ?_
  rw [hsz, hrest sz (hsz ▸ toInt_int32At block v)]
  exact (runs_readBytes _).map fun _ _ => rfl

/-- What `lmakeindex` does with a value: the bytes of a field are still to be passed by. -/
theorem runs_indexField (he : e ≤ block.length) (hv : v ≤ e) (type : BsonType) :
    ∃ (fieldSize : ℕ) (o : Except Refusal ℕ),
      Runs block e (indexField type) v o (fieldSize = ·) ∧
      o >>= skip e fieldSize = (indexLayout type).ends block e v := by
  have hfield (n : ℕ) : Runs block e (pure n) v (.ok v) (n = ·) := .pure hv rfl
  have hsized (c : ℤ) : (Layout.sized 0 c).ends block e v >>= skip e (0 : ℕ) =
      (Layout.sized 0 c).ends block e v := by
    rw [ends_sized_zero, bind_assoc]
    exact bind_congr fun o => skip_skip_zero _
  have hzero (sz : ℤ) (hsz : toInt sz = sz) : sz = toInt (sz + 0) := by rw [Int.add_zero, hsz]
  cases type with
  | real => exact ⟨8, _, hfield 8, rfl⟩
  | date => exact ⟨8, _, hfield 8, rfl⟩
  | timestamp => exact ⟨8, _, hfield 8, rfl⟩
  | int64 => exact ⟨8, _, hfield 8, rfl⟩
  | boolean => exact ⟨1, _, hfield 1, rfl⟩
  | objectid => exact ⟨12, _, hfield 12, rfl⟩
  | int32 => exact ⟨4, _, hfield 4, rfl⟩
  | minkey => exact ⟨0, _, hfield 0, rfl⟩
  | maxkey => exact ⟨0, _, hfield 0, rfl⟩
  | null => exact ⟨0, _, hfield 0, rfl⟩
  | jscode => exact ⟨0, _, runs_sized he 0 hzero, hsized 0⟩
  | symbol => exact ⟨0, _, runs_sized he 0 hzero, hsized 0⟩
  | string => exact ⟨0, _, runs_sized he 0 hzero, hsized 0⟩
  | codews => exact ⟨0, _, runs_sized he (-4) fun _ _ => rfl, hsized (-4)⟩
  | array => exact ⟨0, _, runs_sized he (-4) fun _ _ => rfl, hsized (-4)⟩
  | document => exact ⟨0, _, runs_sized he (-4) fun _ _ => rfl, hsized (-4)⟩
  | binary => exact ⟨0, _, runs_sized he 1 fun _ _ => rfl, hsized 1⟩
  | dbpointer => exact ⟨0, _, runs_sized he 12 fun _ _ => rfl, hsized 12⟩
  | regex =>
    refine ⟨0, (Layout.cstrings).ends block e v, ?_, ?_⟩
    · refine (runs_readCstring hv he).bind fun r1 o _ _ ho _ => ?_
      exact (runs_readCstring ho he).map fun _ _ => rfl
    · change (skipCstring block e v >>= skipCstring block e) >>= skip e (0 : ℕ) =
        skipCstring block e v >>= skipCstring block e
      rw [bind_assoc]
      refine bind_congr fun o => ?_
      cases hsecond : skipCstring block e o with
      | error refusal => rfl
      | ok o' => exact skip_zero (skipCstring_ok hsecond).2

end Value

end Mtask.Bson
