import Mathlib.Algebra.BigOperators.Group.List.Basic
import Mtask.LuaSeri.Pack

/-!
# The format of a serialised value

The bytes that stand for a value, as a function of the value. Packing a value appends its bytes, as
long as there are fewer than 2 ^ 31 of them altogether: the `int` that counts them overflows
otherwise.
-/

namespace Mtask.LuaSeri

open Lua Lua.Value

/-- The values that can be packed, with tables nested at most `n` deep. -/
def Serialisable : ℕ → Value Rawlen → Prop
  | _, string s => s.length < 2 ^ 31
  | 0, table _ _ => False
  | n + 1, table _ entries => IsTable entries ∧ ∀ e ∈ entries, Serialisable n e.1 ∧
    Serialisable n e.2
  | _, _ => True

/-! ### The bytes -/

def integerBytes (v : BitVec 64) : List UInt8 :=
  if v = 0 then [combineType typeNumber typeNumberZero]
  else if v ≠ int32 v then
    combineType typeNumber typeNumberQword :: LittleEndian.toBytes 8 v.toNat
  else if v.toInt < 0 then
    combineType typeNumber typeNumberDword :: LittleEndian.toBytes 4 (v.setWidth 32).toNat
  else if v.toInt < 0x100 then
    combineType typeNumber typeNumberByte :: LittleEndian.toBytes 1 v.toNat
  else if v.toInt < 0x10000 then
    combineType typeNumber typeNumberWord :: LittleEndian.toBytes 2 v.toNat
  else combineType typeNumber typeNumberDword :: LittleEndian.toBytes 4 (v.setWidth 32).toNat

def stringBytes (s : List UInt8) : List UInt8 :=
  if s.length < maxCookie then combineType typeShortString s.length :: s
  else if s.length < 0x10000 then
    combineType typeLongString 2 :: (LittleEndian.toBytes 2 s.length ++ s)
  else combineType typeLongString 4 :: (LittleEndian.toBytes 4 s.length ++ s)

/-- The bytes of the size of the array part. -/
def arraySizeBytes (arraySize : Rawlen) : List UInt8 :=
  if maxCookie - 1 ≤ arraySize.val then
    combineType typeTable (maxCookie - 1) :: integerBytes (.ofNat 64 arraySize)
  else [combineType typeTable arraySize]

/-- The entries that are not in the array part. -/
def hashPart (arraySize : Rawlen) (entries : List (Value Rawlen × Value Rawlen)) :
    List (Value Rawlen × Value Rawlen) :=
  entries.filter (!isArrayKey arraySize ·.1)

/-- The bytes of a value with tables nested at most `n` deep. -/
def serialized : ℕ → Value Rawlen → List UInt8
  | _, nil => [UInt8.ofNat typeNil]
  | _, boolean b => [combineType typeBoolean (if b then 1 else 0)]
  | _, integer v => integerBytes v
  | _, float bits => combineType typeNumber typeNumberReal :: LittleEndian.toBytes 8 bits.toNat
  | _, lightuserdata p => UInt8.ofNat typeUserdata :: LittleEndian.toBytes 8 p.toNat
  | _, string s => stringBytes s
  | 0, table _ _ => []
  | n + 1, table arraySize entries =>
    arraySizeBytes arraySize ++
      ((List.range' 1 arraySize).flatMap fun i => serialized n (rawgeti entries i)) ++
      ((hashPart arraySize entries).flatMap fun e => serialized n e.1 ++ serialized n e.2) ++
      [UInt8.ofNat typeNil]

/-! ### How many there are -/

def integerSize (v : BitVec 64) : ℕ :=
  if v = 0 then 1
  else if v ≠ int32 v then 9
  else if v.toInt < 0 then 5
  else if v.toInt < 0x100 then 2
  else if v.toInt < 0x10000 then 3
  else 5

def stringSize (s : List UInt8) : ℕ :=
  if s.length < 32 then 1 + s.length
  else if s.length < 0x10000 then 3 + s.length
  else 5 + s.length

/-- The size of a value with tables nested at most `n` deep: a table has its size, the elements of
its array part, the other entries, and one byte at the end. -/
def size : ℕ → Value Rawlen → ℕ
  | _, nil => 1
  | _, boolean _ => 1
  | _, integer v => integerSize v
  | _, float _ => 9
  | _, lightuserdata _ => 9
  | _, string s => stringSize s
  | 0, table _ _ => 0
  | n + 1, table arraySize entries =>
    (if 31 ≤ arraySize.val then 1 + integerSize (.ofNat 64 arraySize) else 1) +
      ((List.range' 1 arraySize).map fun i => size n (rawgeti entries i)).sum +
      ((hashPart arraySize entries).map fun e => size n e.1 + size n e.2).sum + 1

theorem length_integerBytes (v : BitVec 64) : (integerBytes v).length = integerSize v := by
  unfold integerBytes integerSize
  split_ifs <;> simp

theorem length_stringBytes (s : List UInt8) : (stringBytes s).length = stringSize s := by
  unfold stringBytes stringSize maxCookie
  split_ifs <;> simp [Nat.add_comm, Nat.add_left_comm]

theorem length_arraySizeBytes (arraySize : Rawlen) :
    (arraySizeBytes arraySize).length =
      if 31 ≤ arraySize.val then 1 + integerSize (.ofNat 64 arraySize) else 1 := by
  have hcookie : maxCookie - 1 = 31 := rfl
  rw [arraySizeBytes, hcookie]
  split
  · rw [List.length_cons, length_integerBytes, Nat.add_comm]
  · rfl

theorem length_serialized (n : ℕ) (v : Value Rawlen) : (serialized n v).length = size n v := by
  induction n generalizing v with
  | zero =>
    cases v with
    | integer v => exact length_integerBytes v
    | string s => exact length_stringBytes s
    | nil | boolean | float | lightuserdata | table => simp [serialized, size]
  | succ n ih =>
    cases v with
    | integer v => exact length_integerBytes v
    | string s => exact length_stringBytes s
    | nil | boolean | float | lightuserdata => simp [serialized, size]
    | table arraySize entries =>
      simp only [serialized, size, List.length_append, List.length_flatMap, List.length_singleton,
        length_arraySizeBytes, ih]

/-! ### Packing -/

/-- The function appends the bytes, if the `int` can count them. -/
def Writes (f : WriteBlock → Except PackFault WriteBlock) (bytes : List UInt8) : Prop :=
  ∀ wb : WriteBlock, if wb.contents.length + bytes.length < 2 ^ 31 then
    ∃ wb', f wb = .ok wb' ∧ wb'.contents = wb.contents ++ bytes
  else f wb = .error .lengthOverflow

namespace Writes

variable {f g : WriteBlock → Except PackFault WriteBlock} {bytes bytes' : List UInt8}

theorem push (bytes : List UInt8) : Writes (·.push bytes) bytes := by
  intro wb
  have hlen := wb.len_eq_contents
  split
  next hlt =>
    have heq : wb.push bytes = .ok _ := dif_pos (by rw [hlen]; exact hlt)
    exact ⟨_, heq, WriteBlock.contents_push heq⟩
  next hge => exact dif_neg (by rw [hlen]; exact hge)

theorem bind (hf : Writes f bytes) (hg : Writes g bytes') :
    Writes (fun wb => f wb >>= g) (bytes ++ bytes') := by
  intro wb
  have hf := hf wb
  rw [List.length_append]
  by_cases hfirst : wb.contents.length + bytes.length < 2 ^ 31
  · rw [if_pos hfirst] at hf
    obtain ⟨wb₁, heq, hcontents⟩ := hf
    have hg := hg wb₁
    have hlen : wb₁.contents.length = wb.contents.length + bytes.length := by
      rw [hcontents, List.length_append]
    rw [hlen, Nat.add_assoc] at hg
    split
    next hlt =>
      rw [if_pos hlt] at hg
      obtain ⟨wb₂, heq', hcontents'⟩ := hg
      refine ⟨wb₂, ?_, ?_⟩
      · change f wb >>= g = .ok wb₂
        rw [heq]
        exact heq'
      · rw [hcontents', hcontents, List.append_assoc]
    next hge =>
      rw [if_neg hge] at hg
      change f wb >>= g = _
      rw [heq]
      exact hg
  · rw [if_neg hfirst] at hf
    rw [if_neg (by omega)]
    change f wb >>= g = _
    rw [hf]
    rfl

theorem nothing : Writes .ok [] := by
  intro wb
  have hlt : wb.contents.length + ([] : List UInt8).length < 2 ^ 31 := by
    rw [← wb.len_eq_contents]
    exact wb.len_lt
  rw [if_pos hlt]
  exact ⟨wb, rfl, (List.append_nil _).symm⟩

theorem foldlM {α : Type*} {l : List α} {f : α → WriteBlock → Except PackFault WriteBlock}
    {bytes : α → List UInt8} (h : ∀ a ∈ l, Writes (f a) (bytes a)) :
    Writes (fun wb => l.foldlM (fun wb a => f a wb) wb) (l.flatMap bytes) := by
  induction l with
  | nil => exact nothing
  | cons a l ih =>
    have hrest := ih fun a' ha' => h a' (List.mem_cons_of_mem _ ha')
    simp only [List.foldlM_cons, List.flatMap_cons]
    exact (h a List.mem_cons_self).bind hrest

theorem congr (h : Writes f bytes) (hfg : ∀ wb, g wb = f wb) : Writes g bytes := by
  have heq : g = f := funext hfg
  rw [heq]
  exact h

end Writes

theorem writes_wbInteger (v : BitVec 64) : Writes (wbInteger · v) (integerBytes v) := by
  unfold wbInteger integerBytes
  by_cases hzero : v = 0
  · simp only [if_pos hzero]
    exact .push _
  by_cases hqword : v ≠ int32 v
  · simp only [if_neg hzero, if_pos hqword]
    exact (Writes.push _).bind (.push _)
  by_cases hneg : v.toInt < 0
  · simp only [if_neg hzero, if_neg hqword, if_pos hneg]
    exact (Writes.push _).bind (.push _)
  by_cases hbyte : v.toInt < 0x100
  · simp only [if_neg hzero, if_neg hqword, if_neg hneg, if_pos hbyte]
    exact (Writes.push _).bind (.push _)
  by_cases hword : v.toInt < 0x10000
  · simp only [if_neg hzero, if_neg hqword, if_neg hneg, if_neg hbyte, if_pos hword]
    exact (Writes.push _).bind (.push _)
  · simp only [if_neg hzero, if_neg hqword, if_neg hneg, if_neg hbyte, if_neg hword]
    exact (Writes.push _).bind (.push _)

theorem writes_wbString (s : List UInt8) : Writes (wbString · s) (stringBytes s) := by
  unfold wbString stringBytes
  by_cases hshort : s.length < maxCookie
  · simp only [if_pos hshort]
    refine (Writes.push [combineType typeShortString s.length]).bind ?_
    by_cases hpos : 0 < s.length
    · simp only [if_pos hpos]
      exact .push s
    · simp only [if_neg hpos]
      rw [List.eq_nil_of_length_eq_zero (Nat.eq_zero_of_not_pos hpos)]
      exact .nothing
  by_cases hword : s.length < 0x10000
  · simp only [if_neg hshort, if_pos hword]
    exact (Writes.push [combineType typeLongString 2]).bind
      ((Writes.push (LittleEndian.toBytes 2 s.length)).bind (.push s))
  · simp only [if_neg hshort, if_neg hword]
    exact (Writes.push [combineType typeLongString 4]).bind
      ((Writes.push (LittleEndian.toBytes 4 s.length)).bind (.push s))

theorem flatMap_hashPart (arraySize : Rawlen) (entries : List (Value Rawlen × Value Rawlen))
    (bytes : Value Rawlen × Value Rawlen → List UInt8) :
    (hashPart arraySize entries).flatMap bytes =
      entries.flatMap fun e => if isArrayKey arraySize e.1 then [] else bytes e := by
  unfold hashPart
  induction entries with
  | nil => rfl
  | cons e entries ih =>
    by_cases hkey : isArrayKey arraySize e.1 = true
    · simp [hkey, ih]
    · simp [hkey, ih]

theorem writes_wbTable {one : Value Rawlen → WriteBlock → Except PackFault WriteBlock}
    {bytes : Value Rawlen → List UInt8} (arraySize : Rawlen)
    (entries : List (Value Rawlen × Value Rawlen))
    (harray : ∀ i, Writes (one (rawgeti entries i)) (bytes (rawgeti entries i)))
    (hhash : ∀ e ∈ entries, Writes (one e.1) (bytes e.1) ∧ Writes (one e.2) (bytes e.2)) :
    Writes (wbTable one arraySize entries)
      (arraySizeBytes arraySize ++
        ((List.range' 1 arraySize).flatMap fun i => bytes (rawgeti entries i)) ++
        ((hashPart arraySize entries).flatMap fun e => bytes e.1 ++ bytes e.2) ++
        [UInt8.ofNat typeNil]) := by
  have hloop : Writes
      (fun wb => (List.range' 1 arraySize).foldlM (fun wb i => one (rawgeti entries i) wb) wb)
      ((List.range' 1 arraySize).flatMap fun i => bytes (rawgeti entries i)) :=
    Writes.foldlM fun i _ => harray i
  have hfirst : Writes (wbTableArray one arraySize entries)
      (arraySizeBytes arraySize ++
        (List.range' 1 arraySize).flatMap fun i => bytes (rawgeti entries i)) := by
    unfold wbTableArray arraySizeBytes
    by_cases hle : maxCookie - 1 ≤ arraySize.val
    · simp only [if_pos hle]
      exact ((Writes.push [combineType typeTable (maxCookie - 1)]).bind
        (writes_wbInteger _)).bind hloop |>.congr fun wb => (bind_assoc _ _ _).symm
    · simp only [if_neg hle]
      exact (Writes.push _).bind hloop
  have hentries : Writes (fun wb => entries.foldlM (fun wb e =>
      if isArrayKey arraySize e.1 then .ok wb
      else do
        let wb ← one e.1 wb
        one e.2 wb) wb)
      ((hashPart arraySize entries).flatMap fun e => bytes e.1 ++ bytes e.2) := by
    rw [flatMap_hashPart]
    refine Writes.foldlM fun e he => ?_
    by_cases hkey : isArrayKey arraySize e.1 = true
    · simp only [if_pos hkey]
      exact .nothing
    · simp only [if_neg hkey]
      exact (hhash e he).1.bind (hhash e he).2
  have hsecond : Writes (wbTableHash one arraySize entries) _ := hentries.bind (.push _)
  have hall := hfirst.bind hsecond
  rw [← List.append_assoc] at hall
  exact hall

/-- A value of an entry can be packed, and so can a missing one. -/
theorem Serialisable.rawgeti {n : ℕ} {arraySize : Rawlen}
    {entries : List (Value Rawlen × Value Rawlen)}
    (h : Serialisable (n + 1) (table arraySize entries)) (i : ℕ) :
    Serialisable n (rawgeti entries i) := by
  unfold Lua.rawgeti
  split
  next e he => exact (h.2 e (List.mem_of_find?_eq_some he)).2
  next => cases n <;> trivial

theorem writes_packOne {n left : ℕ} {v : Value Rawlen} (h : Serialisable n v) (hn : n < left) :
    Writes (packOne left v) (serialized n v) := by
  induction n generalizing left v with
  | zero =>
    obtain ⟨left, rfl⟩ := Nat.exists_eq_succ_of_ne_zero (Nat.ne_of_gt hn)
    cases v with
    | nil => exact .push _
    | boolean b => exact .push _
    | integer v => exact writes_wbInteger v
    | float bits => exact (Writes.push [_]).bind (.push _)
    | string s => exact writes_wbString s
    | lightuserdata p => exact (Writes.push [_]).bind (.push _)
    | table => exact h.elim
  | succ n ih =>
    obtain ⟨left, rfl⟩ := Nat.exists_eq_succ_of_ne_zero (Nat.ne_of_gt (Nat.zero_lt_of_lt hn))
    cases v with
    | nil => exact .push _
    | boolean b => exact .push _
    | integer v => exact writes_wbInteger v
    | float bits => exact (Writes.push [_]).bind (.push _)
    | string s => exact writes_wbString s
    | lightuserdata p => exact (Writes.push [_]).bind (.push _)
    | table arraySize entries =>
      have hlt : n < left := Nat.lt_of_succ_lt_succ hn
      exact writes_wbTable arraySize entries (fun i => ih (h.rawgeti i) hlt)
        fun e he => ⟨ih (h.2 e he).1 hlt, ih (h.2 e he).2 hlt⟩

/-- When `_luaseri_pack` succeeds, and what it returns. -/
theorem pack_eq {values : List (Value Rawlen)} (h : ∀ v ∈ values, Serialisable maxDepth v) :
    if (values.map (size maxDepth)).sum < 2 ^ 31 then
      pack values = .ok (values.flatMap (serialized maxDepth))
    else pack values = .error .lengthOverflow := by
  have hwrites : Writes (packFrom · values) (values.flatMap (serialized maxDepth)) :=
    Writes.foldlM fun v hv => writes_packOne (h v hv) (Nat.lt_succ_self _)
  have hlen : (values.flatMap (serialized maxDepth)).length = (values.map (size maxDepth)).sum := by
    simp only [List.length_flatMap, length_serialized]
  have hinit := hwrites .init
  rw [show WriteBlock.init.contents = [] from rfl, List.length_nil, Nat.zero_add, hlen,
    List.nil_append] at hinit
  split
  next hlt =>
    rw [if_pos hlt] at hinit
    obtain ⟨wb, heq, hcontents⟩ := hinit
    have heq : packFrom .init values = .ok wb := heq
    rw [pack, heq, ← hcontents, ← wb.seri_eq]
    rfl
  next hge =>
    rw [if_neg hge] at hinit
    have heq : packFrom .init values = .error .lengthOverflow := hinit
    rw [pack, heq]
    rfl

end Mtask.LuaSeri
