import Mtask.Bson.Format

/-!
# Values that come back

The elements that the encoder writes for the entries of a table are elements of a document, with the
values that come back as their values. A sequence comes back as one if it was found to be an array
when it was encoded, which needs that `lua_next` comes to its last index last. The strings of a
regular expression come back if there is no zero in them.
-/

namespace Mtask.Bson

open Lua Lua.Value Mongo Buffers
open List

/-- A value that is encoded is decoded to the same value. -/
def RoundTrips (rt : Runtime) (v : Value ℕ) : Prop :=
  ∃ doc value br, lencode rt v = .ok doc ∧ ldecode doc = .ok value br ∧ Same v value

/-! ### The conditions -/

/-- A value is in another one, or is the same. -/
inductive Part (w : Value ℕ) : Value ℕ → Prop
  | self : Part w w
  | entry {n : ℕ} {entries : List (Value ℕ × Value ℕ)} {e : Value ℕ × Value ℕ} (he : e ∈ entries)
      (h : Part w e.2) : Part w (.table n entries)

/-- There is no zero in the strings of the regular expressions. -/
def Plain (v : Value ℕ) : Prop :=
  ∀ pattern options, Part (.string (lregex pattern options)) v → 0 ∉ pattern ∧ 0 ∉ options

/-- The last index of a sequence is the one that `lua_next` comes to last. -/
def LastVisited (n : ℕ) (entries : List (Value ℕ × Value ℕ)) : Prop :=
  (entries.map Prod.fst).getLast? = some (.integer (.ofNat 64 n))

/-- The last index of every sequence is the one that `lua_next` comes to last. -/
def Ordered (v : Value ℕ) : Prop :=
  ∀ n entries, Part (.table n entries) v → 0 < n → LastVisited n entries

/-- The condition on a table: it is not a sequence, but the sequences in it are visited in the right
order, and its document is not too large. -/
def Kept (n : ℕ) (entries : List (Value ℕ × Value ℕ)) : Prop :=
  n = 0 ∧ (∀ e ∈ entries, Ordered e.2) ∧ 4 + entriesSize false entries + 1 ≤ 2 ^ 30

/-! ### What comes back -/

mutual

/-- The value that comes back. -/
def copy : Value ℕ → Value Unit
  | .nil => .nil
  | .boolean b => .boolean b
  | .integer i => .integer i
  | .float d => .float d
  | .string s => .string s
  | .lightuserdata p => .lightuserdata p
  | .table n entries => .table () (copyEntries (isSequence n entries) [] entries)

/-- The entries that come back, behind others. -/
def copyEntries (isarray : Bool) (before : Entries) : List (Value ℕ × Value ℕ) → Entries
  | [] => before
  | (key, value) :: entries =>
    copyEntries isarray
      (assign before (elementKey isarray (entryName isarray key)) (copy value)) entries

end

/-- The element for an entry. -/
def elementOf (isarray : Bool) (e : Value ℕ × Value ℕ) : Element :=
  ⟨valueType e.2, entryName isarray e.1, valueBytes e.2, copy e.2⟩

variable {e : Value ℕ × Value ℕ}

section Copy

variable {v w : Value ℕ} {s str : List UInt8} {n : ℕ} {entries : List (Value ℕ × Value ℕ)}

theorem bytesOf_map (isarray : Bool) (entries : List (Value ℕ × Value ℕ)) :
    bytesOf (entries.map (elementOf isarray)) = entriesBytes isarray entries := by
  induction entries with
  | nil => rw [entriesBytes, map_nil, bytesOf, flatMap_nil]
  | cons e entries ih =>
    rw [bytesOf] at ih
    rw [entriesBytes, map_cons, bytesOf, flatMap_cons, ih]
    rfl

theorem copyEntries_eq (isarray : Bool) (before : Entries) (entries : List (Value ℕ × Value ℕ)) :
    copyEntries isarray before entries = (entries.map (elementOf isarray)).foldl
      (fun entries el => assign entries (elementKey isarray el.name) el.value) before := by
  induction entries generalizing before with
  | nil => rw [copyEntries, map_nil, foldl_nil]
  | cons e entries ih =>
    rw [copyEntries, map_cons, foldl_cons, ih]
    rfl

theorem Plain.entry (h : Plain (.table n entries)) (he : e ∈ entries) : Plain e.2 :=
  fun pattern options hpart => h pattern options (.entry he hpart)

theorem size_le_entriesSize (isarray : Bool) (he : e ∈ entries) :
    size e.2 ≤ entriesSize isarray entries := by
  induction entries with
  | nil => nomatch he
  | cons e' entries ih =>
    rw [entriesSize]
    rcases mem_cons.mp he with rfl | he
    · omega
    · have := ih he
      omega

theorem entries_length_le (isarray : Bool) (entries : List (Value ℕ × Value ℕ)) :
    entries.length ≤ entriesSize isarray entries := by
  induction entries with
  | nil => exact Nat.zero_le _
  | cons e entries ih =>
    rw [entriesSize, length_cons]
    omega

/-! ### The scalars -/

theorem decodes_boolean (b : Bool) : Decodes .boolean [if b then 1 else 0] (.boolean b) := by
  have hplain : plainValue [if b then 1 else 0] .boolean = .boolean b := by cases b <;> rfl
  rw [← hplain]
  exact .plain (by simp [decodeLayout]) rfl

theorem decodes_real (d : BitVec 64) : Decodes .real (int64Bytes d) (.float d) := by
  have hplain : plainValue (int64Bytes d) .real = .float d := by
    rw [plainValue, int64Bytes, LittleEndian.ofBytes_toBytes d.isLt, BitVec.ofNat_toNat,
      BitVec.setWidth_eq]
  rw [← hplain]
  exact .plain (by simp [decodeLayout]) (congrArg Nat.cast (LittleEndian.length_toBytes 8 _))

theorem decodes_int64 (i : BitVec 64) : Decodes .int64 (int64Bytes i) (.integer i) := by
  have hplain : plainValue (int64Bytes i) .int64 = .integer i := by
    rw [plainValue, int64Bytes, LittleEndian.ofBytes_toBytes i.isLt, BitVec.ofNat_toNat,
      BitVec.setWidth_eq]
  rw [← hplain]
  exact .plain (by simp [decodeLayout]) (congrArg Nat.cast (LittleEndian.length_toBytes 8 _))

theorem decodes_int32 {i : BitVec 64} (h : is32bit i = true) :
    Decodes .int32 (int32Bytes i.toInt) (.integer i) := by
  have hslice : slice (int32Bytes i.toInt) 0 4 = int32Bytes i.toInt :=
    take_of_length_le (Nat.le_of_eq (length_int32Bytes _))
  have hplain : plainValue (int32Bytes i.toInt) .int32 = .integer i := by
    rw [is32bit, Bool.and_eq_true, decide_eq_true_iff, decide_eq_true_iff] at h
    rw [plainValue, int32At_eq hslice, toInt_of_range h.1 (by omega), BitVec.ofInt_toInt]
  rw [← hplain]
  exact .plain (by simp [decodeLayout]) (congrArg Nat.cast (length_int32Bytes _))

theorem int32At_header {z : ℤ} (hz : -2 ^ 31 ≤ z ∧ z < 2 ^ 31) (rest : List UInt8) :
    int32At (int32Bytes z ++ rest) 0 = z := by
  have hslice : slice (int32Bytes z ++ rest) 0 4 = int32Bytes z :=
    take_left' (length_int32Bytes z)
  rw [int32At_eq hslice, toInt_of_range hz.1 hz.2]

theorem decodes_string (hlength : s.length + 1 < 2 ^ 31) :
    Decodes .string (int32Bytes (toInt (s.length + 1)) ++ (s ++ [0])) (.string s) := by
  have hint : toInt (s.length + 1) = s.length + 1 := toInt_of_range (by omega) (by omega)
  have hhead : int32At (int32Bytes (s.length + 1) ++ (s ++ [0])) 0 = s.length + 1 :=
    int32At_header (by omega) _
  have hdata : (int32Bytes (s.length + 1) ++ (s ++ [0])).length = 4 + (s.length + 1) := by
    simp only [length_append, length_int32Bytes, length_singleton]
  have hplain : plainValue (int32Bytes (s.length + 1) ++ (s ++ [0])) .string = .string s := by
    have hn : 4 + (s.length + 1) - 5 = s.length := by omega
    rw [plainValue, hdata, hn, slice, drop_left' (length_int32Bytes _), take_left]
  rw [hint, ← hplain]
  refine .plain (by simp [decodeLayout]) ⟨?_, ?_⟩
  · rw [hhead]
    omega
  · rw [hhead, hdata]
    omega

/-! ### The special values -/

theorem decodes_binary (subtype : UInt8) (hlength : s.length + 1 < 2 ^ 31) :
    Decodes .binary (int32Bytes (toInt ((subtype :: s).length - 1)) ++ subtype :: s)
      (.string (lbinary subtype s)) := by
  have hsub : ((subtype :: s).length - 1 : ℤ) = s.length := by
    rw [length_cons]
    omega
  have hint : toInt s.length = s.length := toInt_of_range (by omega) (by omega)
  have hhead : int32At (int32Bytes s.length ++ subtype :: s) 0 = s.length :=
    int32At_header (by omega) _
  have hplain : plainValue (int32Bytes s.length ++ subtype :: s) .binary =
      .string (lbinary subtype s) := by
    rw [plainValue, drop_left' (length_int32Bytes _)]
    rfl
  rw [hsub, hint, ← hplain]
  refine .plain (by simp [decodeLayout]) ⟨by decide, ?_, ?_⟩
  · rw [hhead, Int.add_zero, hint]
    omega
  · rw [hhead, Int.add_zero, hint, length_append, length_int32Bytes, length_cons]
    omega

/-- A date has seconds in memory, and milliseconds in a document. -/
theorem decodes_date (hlength : str.length = 4) :
    Decodes .date (int64Bytes (.ofNat 64 (LittleEndian.ofBytes str * 1000)))
      (.string (special .date str)) := by
  have hlt := LittleEndian.ofBytes_lt str
  rw [hlength] at hlt
  have hplain : plainValue (int64Bytes (.ofNat 64 (LittleEndian.ofBytes str * 1000))) .date =
      .string (special .date str) := by
    have htoNat : (BitVec.ofNat 64 (LittleEndian.ofBytes str * 1000)).toNat =
        LittleEndian.ofBytes str * 1000 := by
      rw [BitVec.toNat_ofNat]
      omega
    have htoInt : (BitVec.ofNat 64 (LittleEndian.ofBytes str * 1000)).toInt =
        LittleEndian.ofBytes str * 1000 := by
      rw [BitVec.toInt_eq_toNat_of_lt (by omega), htoNat]
      exact Nat.cast_mul _ _
    have hseconds : (BitVec.ofInt 32 (LittleEndian.ofBytes str)).toNat =
        LittleEndian.ofBytes str := by
      rw [BitVec.ofInt_natCast, BitVec.toNat_ofNat, Nat.mod_eq_of_lt (by omega)]
    rw [plainValue, int64Bytes, LittleEndian.ofBytes_toBytes (BitVec.isLt _), BitVec.ofNat_toNat,
      BitVec.setWidth_eq, htoInt, Int.mul_tdiv_cancel _ (by decide), hseconds, ← hlength,
      LittleEndian.toBytes_ofBytes]
    rfl
  rw [← hplain]
  exact .plain (by simp [decodeLayout]) (congrArg Nat.cast (LittleEndian.length_toBytes 8 _))

theorem decodes_regex {pattern options : List UInt8} (h : 0 ∉ pattern) (h' : 0 ∉ options) :
    Decodes .regex (pattern ++ 0 :: (options ++ [0])) (.string (lregex pattern options)) := by
  have hdata : pattern ++ 0 :: (options ++ [0]) = pattern ++ [0] ++ (options ++ [0]) := by simp
  exact .plain (by simp [decodeLayout]) ⟨pattern, options, hdata, h, h'⟩

theorem decodes_special (h : Special s)
    (hregex : ∀ pattern options, s = lregex pattern options → 0 ∉ pattern ∧ 0 ∉ options)
    (hsize : size (.string s) < 2 ^ 31) : Decodes (stringType s) (stringBytes s) (.string s) := by
  cases h with
  | null => exact .plain (by rintro ⟨⟩) rfl
  | minkey => exact .plain (by rintro ⟨⟩) rfl
  | maxkey => exact .plain (by rintro ⟨⟩) rfl
  | objectid h => exact .plain (by rintro ⟨⟩) (congrArg Nat.cast h)
  | date d => exact decodes_date (LittleEndian.length_toBytes 4 _)
  | timestamp d inc =>
    refine .plain (by rintro ⟨⟩) (congrArg Nat.cast ?_)
    change (LittleEndian.toBytes 4 _ ++ LittleEndian.toBytes 4 _).length = 8
    rw [length_append, LittleEndian.length_toBytes, LittleEndian.length_toBytes]
  | regex pattern options =>
    obtain ⟨hpattern, hoptions⟩ := hregex pattern options rfl
    exact decodes_regex hpattern hoptions
  | binary subtype s =>
    change 4 + (s.length + 3 - 2) < _ at hsize
    exact decodes_binary subtype (by omega)

/-! ### The tables -/

theorem zero_notMem_text (n : ℕ) : 0 ∉ Decimal.text n := fun h =>
  absurd (Decimal.isDigit_of_mem_text h).1 (by decide)

variable {i : ℕ}

theorem toInt_indexKey (h : i < 2 ^ 63 - 1) : (BitVec.ofNat 64 (i + 1)).toInt = i + 1 := by
  rw [BitVec.toInt_eq_toNat_of_lt] <;> rw [BitVec.toNat_ofNat] <;> omega

theorem entryName_indexKey (h : i < 2 ^ 32) : entryName true (indexKey i) = Decimal.text i := by
  have htoNat : ((BitVec.ofNat 64 (i + 1)).setWidth 32 - 1).toNat = i := by
    have hone : (1 : BitVec 32).toNat = 1 := rfl
    simp only [BitVec.toNat_sub, BitVec.toNat_setWidth, BitVec.toNat_ofNat, hone]
    omega
  change Decimal.text _ = _
  rw [htoNat]

variable {key : Value ℕ}

theorem zero_notMem_entryName (h : (∃ s, key = .string s ∧ 0 ∉ s) ∨ ∃ i, key = indexKey i)
    (isarray : Bool) : 0 ∉ entryName isarray key := by
  rcases h with ⟨s, rfl, hs⟩ | ⟨i, rfl⟩
  · exact hs
  · change 0 ∉ if isarray then _ else _
    split_ifs
    · exact zero_notMem_text _
    · rw [integerText]
      split_ifs
      · exact fun h => (mem_cons.mp h).elim (fun h => absurd h (by decide)) (zero_notMem_text _)
      · exact zero_notMem_text _

theorem decodes_table (isarray : Bool)
    (hkeys : ∀ e ∈ entries, (∃ s, e.1 = .string s ∧ 0 ∉ s) ∨ ∃ i, e.1 = indexKey i)
    (hvalues : ∀ e ∈ entries, Decodes (valueType e.2) (valueBytes e.2) (copy e.2)) :
    Decodes (documentType isarray) (documentBytes (entriesBytes isarray entries))
      (.table () (copyEntries isarray [] entries)) := by
  rw [← bytesOf_map, copyEntries_eq]
  refine .document isarray (fun el hel => ?_) fun el hel => ?_
  · obtain ⟨e, he, rfl⟩ := mem_map.mp hel
    exact zero_notMem_entryName (hkeys e he) isarray
  · obtain ⟨e, he, rfl⟩ := mem_map.mp hel
    exact hvalues e he

/-- **The bytes of a value stand for the value that comes back.** -/
theorem decodes_copy (h : Storable v) (hplain : Plain v) (hsize : size v < 2 ^ 31) :
    Decodes (valueType v) (valueBytes v) (copy v) := by
  induction h with
  | boolean b =>
    rw [valueBytes, copy]
    exact decodes_boolean b
  | integer i =>
    rw [valueType, valueBytes, copy]
    split_ifs with hsmall
    · exact decodes_int32 hsmall
    · exact decodes_int64 i
  | float d =>
    rw [valueBytes, copy]
    exact decodes_real d
  | string h =>
    obtain ⟨htype, hbytes, -⟩ := string_cases h
    rw [size, htype] at hsize
    change 4 + _ + 1 < _ at hsize
    rw [valueType, valueBytes, copy, htype, hbytes]
    exact decodes_string (by omega)
  | special h =>
    rw [valueType, valueBytes, copy]
    exact decodes_special h (fun pattern options heq => hplain pattern options (heq ▸ .self)) hsize
  | @fields entries hkeys hdistinct hvalues ih =>
    rw [size] at hsize
    rw [valueBytes, copy]
    refine decodes_table false (fun e he => .inl (hkeys e he)) fun e he => ?_
    have hle := size_le_entriesSize (isSequence 0 entries) he
    exact ih e he (hplain.entry he) (by omega)
  | @sequence n entries hpos hlt hkeys hvalues ih =>
    rw [size] at hsize
    rw [valueBytes, copy]
    refine decodes_table _ (fun e he => .inr ?_) fun e he => ?_
    · obtain ⟨i, -, heq⟩ := exists_indexKey hkeys he
      exact ⟨i, heq⟩
    · have hle := size_le_entriesSize (isSequence n entries) he
      exact ih e he (hplain.entry he) (by omega)

/-! ### The same value -/

theorem Storable.isNil (h : Storable v) : (copy v).isNil = false := by
  cases h <;> rw [copy] <;> rfl

/-- The last index is found last exactly when it is visited last. -/
theorem isSequence_iff (hpos : 0 < n) (hnodup : (entries.map Prod.fst).Nodup)
    (hmem : .integer (.ofNat 64 n) ∈ entries.map Prod.fst) :
    isSequence n entries = true ↔ LastVisited n entries := by
  obtain ⟨before, after, heq, hnot⟩ := eq_append_cons_of_mem hmem
  obtain ⟨before', rest, rfl, rfl, hrest⟩ := map_eq_append_iff.mp heq
  obtain ⟨e, after', rfl, hkey, rfl⟩ := map_eq_cons_iff.mp hrest
  have hbefore : ∀ e' ∈ before', (!e'.1.sameKey (.integer (.ofNat 64 n) : Value ℕ)) = true := by
    intro e' he'
    rw [Bool.not_eq_true']
    by_contra hsame
    have hsame := eq_of_sameKey (Bool.eq_true_of_not_eq_false hsame)
    exact hnot (mem_map.mpr ⟨e', he', hsame⟩)
  have hdrop : ((before' ++ e :: after').dropWhile
      (!·.1.sameKey (.integer (.ofNat 64 n) : Value ℕ))).drop 1 = after' := by
    rw [dropWhile_append_of_pos hbefore, dropWhile_cons_of_neg]
    · rfl
    · rw [hkey]
      simp [sameKey]
  rw [isSequence, hdrop, decide_eq_true hpos, Bool.true_and, List.isEmpty_iff, LastVisited]
  constructor
  · rintro rfl
    rw [map_append, map_cons, map_nil, getLast?_concat, hkey]
  · intro hlast
    by_contra hne
    rw [map_append, map_cons] at hlast hnodup
    have hafter := (nodup_cons.mp (nodup_append.mp hnodup).2.1).1
    cases hx : (after'.map Prod.fst).getLast? with
    | none => exact hne (map_eq_nil_iff.mp (getLast?_eq_none_iff.mp hx))
    | some x =>
      rw [getLast?_append, getLast?_cons, hx] at hlast
      have hkey' : x = .integer (.ofNat 64 n) := Option.some.inj hlast
      rw [hkey, ← hkey'] at hafter
      exact hafter (mem_of_getLast? hx)

variable {c : UInt8}

theorem isdigit_of_isDigit (h : Decimal.IsDigit c) : isdigit c = true := by
  rw [isdigit, Bool.and_eq_true, decide_eq_true_iff, decide_eq_true_iff]
  exact h

/-- What is in front of a number is not a space or a sign. -/
theorem not_space_of_isDigit (h : Decimal.IsDigit c) : isspace c = false ∧ c ≠ 45 ∧ c ≠ 43 := by
  obtain ⟨hlow, -⟩ := h
  rw [UInt8.le_iff_toNat_le] at hlow
  refine ⟨?_, ?_, ?_⟩
  · rw [isspace, Bool.or_eq_false_iff, Bool.and_eq_false_iff, decide_eq_false_iff_not,
      decide_eq_false_iff_not, decide_eq_false_iff_not, UInt8.le_iff_toNat_le, UInt8.le_iff_toNat_le]
    refine ⟨?_, .inr ?_⟩
    · rintro rfl
      exact absurd hlow (by decide)
    · intro hhigh
      exact absurd (Nat.le_trans hlow hhigh) (by decide)
  · rintro rfl
    exact absurd hlow (by decide)
  · rintro rfl
    exact absurd hlow (by decide)

theorem strtol_text (h : i < 2 ^ 63) : strtol (Decimal.text i) = i := by
  have hdigits : ∀ c ∈ Decimal.text i, isdigit c = true := fun c hc =>
    isdigit_of_isDigit (Decimal.isDigit_of_mem_text hc)
  have hnumber := Decimal.number_text i
  obtain ⟨c, rest, htext⟩ := exists_cons_of_ne_nil (Decimal.text_ne_nil i)
  obtain ⟨hspace, hminus, hplus⟩ := not_space_of_isDigit
    (Decimal.isDigit_of_mem_text (htext ▸ mem_cons_self : c ∈ Decimal.text i))
  rw [htext] at hdigits hnumber ⊢
  have hdrop : (c :: rest).dropWhile isspace = c :: rest := by
    rw [dropWhile_cons_of_neg]
    rw [hspace]
    exact Bool.false_ne_true
  have htake : (c :: rest).takeWhile isdigit = c :: rest := takeWhile_eq_self_iff.mpr hdigits
  rw [Decimal.number] at hnumber
  simp only [strtol, hdrop]
  split
  next s heq => exact absurd (List.cons.inj heq).1 hminus
  next s heq => exact absurd (List.cons.inj heq).1 hplus
  next =>
    simp only [htake, hnumber, one_mul]
    omega

theorem elementKey_indexKey (h : i < 2 ^ 31 - 1) :
    elementKey true (entryName true (indexKey i)) = copy (indexKey i) := by
  rw [entryName_indexKey (by omega), elementKey, if_pos rfl, strtol_text (by omega),
    toInt_of_range (by omega) (by omega), indexKey, copy]
  exact congrArg _ (BitVec.ofInt_natCast 64 (i + 1))

variable {before : Entries}

theorem foldl_assign {es : Entries} (hvalues : ∀ e ∈ es, e.2.isNil = false)
    (hdistinct : (before ++ es).Pairwise fun e e' => e.1.sameKey e'.1 = false) :
    es.foldl (fun entries e => assign entries e.1 e.2) before = before ++ es := by
  induction es generalizing before with
  | nil => rw [foldl_nil, append_nil]
  | cons e es ih =>
    have hfresh : ∀ e' ∈ before, e'.1.sameKey e.1 = false := fun e' he' =>
      (pairwise_append.mp hdistinct).2.2 e' he' e mem_cons_self
    rw [foldl_cons, assign_fresh hfresh, hvalues e mem_cons_self]
    have happend : before ++ e :: es = (before ++ [e]) ++ es := by simp
    rw [happend] at hdistinct ⊢
    exact ih (fun e' he' => hvalues e' (mem_cons_of_mem _ he')) hdistinct

/-- A key of a table that is encoded. -/
def IsName (key : Value ℕ) : Prop :=
  (∃ s, key = .string s) ∨ ∃ i, key = .integer i

theorem IsName.same (h : IsName key) : Same key (copy key) := by
  rcases h with ⟨s, rfl⟩ | ⟨i, rfl⟩ <;> rw [copy]
  · exact .string s
  · exact .integer i

theorem IsName.eq_of_same {key' : Value ℕ} (h : IsName key) (h' : IsName key')
    (hsame : Same key (copy key')) : key = key' := by
  rcases h with ⟨s, rfl⟩ | ⟨i, rfl⟩ <;> rcases h' with ⟨s', rfl⟩ | ⟨i', rfl⟩ <;>
    rw [copy] at hsame <;> cases hsame <;> rfl

theorem IsName.eq_of_sameKey {key' : Value ℕ} (h : IsName key) (h' : IsName key')
    (hsame : (copy key).sameKey (copy key') = true) : key = key' :=
  h.eq_of_same h' (Value.eq_of_sameKey hsame ▸ h.same)

theorem copyEntries_of_keys {isarray : Bool} (hdistinct : (entries.map Prod.fst).Nodup)
    (hkeys : ∀ e ∈ entries, elementKey isarray (entryName isarray e.1) = copy e.1)
    (hnames : ∀ e ∈ entries, IsName e.1)
    (hvalues : ∀ e ∈ entries, Storable e.2) :
    copyEntries isarray [] entries = entries.map fun e => (copy e.1, copy e.2) := by
  have hmap : (entries.map (elementOf isarray)).foldl
      (fun entries el => assign entries (elementKey isarray el.name) el.value) [] =
        (entries.map fun e => (copy e.1, copy e.2)).foldl
          (fun entries e => assign entries e.1 e.2) [] := by
    rw [foldl_map, foldl_map]
    refine foldl_ext _ _ [] fun before e he => ?_
    change assign before (elementKey isarray (entryName isarray e.1)) (copy e.2) = _
    rw [hkeys e he]
  rw [copyEntries_eq, hmap, foldl_assign, nil_append]
  · intro p hp
    obtain ⟨e, he, rfl⟩ := mem_map.mp hp
    exact (hvalues e he).isNil
  · rw [nil_append, pairwise_map]
    rw [List.Nodup, pairwise_map] at hdistinct
    refine hdistinct.imp_of_mem fun he he' hne => ?_
    by_contra hsame
    exact hne ((hnames _ he).eq_of_sameKey (hnames _ he') (Bool.eq_true_of_not_eq_false hsame))

/-- A table comes back if its keys do and its values do. -/
theorem same_table_iff (hdistinct : (entries.map Prod.fst).Nodup)
    (hnames : ∀ e ∈ entries, IsName e.1) :
    Same (.table n entries) (.table () (entries.map fun e => (copy e.1, copy e.2))) ↔
      ∀ e ∈ entries, Same e.2 (copy e.2) := by
  constructor
  · intro hsame e he
    cases hsame with
    | @table _ _ _ _ es'' hlen hkeys hvalues hperm =>
      obtain ⟨i, hi, rfl⟩ := mem_iff_getElem.mp he
      have hi' : i < es''.length := by omega
      have hzip : (entries[i], es''[i]) ∈ entries.zip es'' := by
        have hlt : i < (entries.zip es'').length := by
          rw [length_zip]
          omega
        rw [← getElem_zip (h := hlt)]
        exact getElem_mem hlt
      have hmem := hperm.mem_iff.mp (getElem_mem hi')
      obtain ⟨e', he', heq⟩ := mem_map.mp hmem
      have hkey := hkeys _ hzip
      have hvalue := hvalues _ hzip
      rw [← heq] at hkey hvalue
      have hsame := inj_on_of_nodup_map hdistinct he he' ((hnames _ he).eq_of_same (hnames e' he') hkey)
      rw [← hsame] at hvalue
      exact hvalue
  · intro hall
    have hzip : ∀ p ∈ entries.zip (entries.map fun e => (copy e.1, copy e.2)),
        p.1 ∈ entries ∧ p.2 = (copy p.1.1, copy p.1.2) := by
      intro p hp
      rw [zip_map_right, mem_map] at hp
      obtain ⟨⟨e, e'⟩, he, rfl⟩ := hp
      obtain ⟨i, hi, heq⟩ := mem_iff_getElem.mp he
      rw [getElem_zip] at heq
      cases heq
      exact ⟨getElem_mem _, rfl⟩
    refine .table (length_map _).symm (fun p hp => ?_) (fun p hp => ?_) (List.Perm.refl _)
    · rw [(hzip p hp).2]
      exact (hnames _ (hzip p hp).1).same
    · rw [(hzip p hp).2]
      exact hall _ (hzip p hp).1

theorem ordered_table_iff : Ordered (.table n entries) ↔
    (0 < n → LastVisited n entries) ∧ ∀ e ∈ entries, Ordered e.2 := by
  constructor
  · intro h
    exact ⟨h n entries .self, fun e he n' entries' hpart => h n' entries' (.entry he hpart)⟩
  · rintro ⟨hself, hentries⟩ n' entries' hpart
    cases hpart with
    | self => exact hself
    | entry he hpart => exact hentries _ he n' entries' hpart

/-- No key is new but the one of the entry that is set. -/
theorem key_of_mem_assign {es : Entries} {key value : Value Unit} {e : Value Unit × Value Unit}
    (he : e ∈ assign es key value) : e.1 = key ∨ ∃ e' ∈ es, e.1 = e'.1 := by
  rw [assign] at he
  split_ifs at he
  · exact .inr ⟨e, (mem_filter.mp he).1, rfl⟩
  · obtain ⟨e', he', heq⟩ := mem_map.mp he
    refine .inr ⟨e', he', ?_⟩
    rw [← heq]
    split_ifs <;> rfl
  · rcases mem_append.mp he with he | he
    · exact .inr ⟨e, he, rfl⟩
    · exact .inl (congrArg Prod.fst (mem_singleton.mp he))

/-- A table that is not an array comes back with strings as keys. -/
theorem exists_string_of_mem (hbefore : ∀ e ∈ before, ∃ s, e.1 = .string s)
    {e : Value Unit × Value Unit} (he : e ∈ copyEntries false before entries) :
    ∃ s, e.1 = .string s := by
  induction entries generalizing before with
  | nil =>
    rw [copyEntries] at he
    exact hbefore e he
  | cons e' entries ih =>
    rw [copyEntries] at he
    refine ih (fun e₁ he₁ => ?_) he
    rcases key_of_mem_assign he₁ with heq | ⟨e₂, he₂, heq⟩
    · exact ⟨_, heq⟩
    · rw [heq]
      exact hbefore e₂ he₂

theorem nodup_sequence (hlt : n < 2 ^ 63)
    (hkeys : (entries.map Prod.fst).Perm ((List.range n).map indexKey)) :
    (entries.map Prod.fst).Nodup := by
  refine hkeys.nodup_iff.mpr (List.Nodup.map_on (fun i hi i' hi' heq => ?_) nodup_range)
  rw [mem_range] at hi hi'
  have hint := congrArg BitVec.toInt (Value.integer.inj heq)
  rw [toInt_indexKey (by omega), toInt_indexKey (by omega)] at hint
  omega

/-- A sequence that was not found to be an array does not come back. -/
theorem not_same_strings (hpos : 0 < n)
    (hkeys : (entries.map Prod.fst).Perm ((List.range n).map indexKey)) :
    ¬Same (.table n entries) (.table () (copyEntries false [] entries)) := by
  intro hsame
  have hlength := hkeys.length_eq
  rw [length_map, length_map, length_range] at hlength
  cases hsame with
  | @table _ _ _ _ es'' hlen hsamekeys hsamevalues hperm =>
    obtain ⟨e, rest, rfl⟩ := exists_cons_of_length_pos (by omega : 0 < entries.length)
    obtain ⟨e'', rest'', rfl⟩ := exists_cons_of_length_pos (by omega : 0 < es''.length)
    have hkey := hsamekeys (e, e'') mem_cons_self
    have hmem := hperm.mem_iff.mp (mem_cons_self : e'' ∈ e'' :: rest'')
    obtain ⟨s, hs⟩ := exists_string_of_mem (fun _ h => absurd h not_mem_nil) hmem
    obtain ⟨i, -, heq⟩ := exists_indexKey hkeys mem_cons_self
    rw [heq, hs] at hkey
    nomatch hkey

/-- **When the value that comes back is the same.** -/
theorem same_copy_iff (h : Storable v) (hsize : size v < 2 ^ 31 - 1) :
    Same v (copy v) ↔ Ordered v := by
  induction h with
  | boolean b =>
    rw [copy]
    exact iff_of_true (.boolean b) fun _ _ hpart => nomatch hpart
  | integer i =>
    rw [copy]
    exact iff_of_true (.integer i) fun _ _ hpart => nomatch hpart
  | float d =>
    rw [copy]
    exact iff_of_true (.float d) fun _ _ hpart => nomatch hpart
  | @string s h =>
    rw [copy]
    exact iff_of_true (.string s) fun _ _ hpart => nomatch hpart
  | @special s h =>
    rw [copy]
    exact iff_of_true (.string s) fun _ _ hpart => nomatch hpart
  | @fields entries hkeys hdistinct hvalues ih =>
    have hnames : ∀ e ∈ entries, IsName e.1 := fun e he => by
      obtain ⟨s, heq, -⟩ := hkeys e he
      exact .inl ⟨s, heq⟩
    have hcopy : copyEntries false [] entries = entries.map fun e => (copy e.1, copy e.2) := by
      refine copyEntries_of_keys hdistinct (fun e he => ?_) hnames hvalues
      obtain ⟨s, heq, -⟩ := hkeys e he
      rw [heq, copy]
      rfl
    rw [size] at hsize
    rw [copy, show isSequence 0 entries = false from rfl, hcopy, same_table_iff hdistinct hnames,
      ordered_table_iff, and_iff_right (fun h => absurd h (Nat.lt_irrefl 0))]
    refine forall₂_congr fun e he => ih e he ?_
    have hle := size_le_entriesSize (isSequence 0 entries) he
    omega
  | @sequence n entries hpos hlt hkeys hvalues ih =>
    have hnames : ∀ e ∈ entries, IsName e.1 := fun e he => by
      obtain ⟨i, -, heq⟩ := exists_indexKey hkeys he
      exact .inr ⟨_, heq⟩
    have hnodup := nodup_sequence hlt hkeys
    have hlength : entries.length = n := by
      have heq := hkeys.length_eq
      rwa [length_map, length_map, length_range] at heq
    have hcount := entries_length_le (isSequence n entries) entries
    rw [size] at hsize
    rw [copy, ordered_table_iff]
    rw [← isSequence_iff hpos hnodup (last_mem hpos hkeys)]
    cases hseq : isSequence n entries with
    | true =>
      rw [hseq] at hcount hsize
      have hcopy : copyEntries true [] entries = entries.map fun e => (copy e.1, copy e.2) := by
        refine copyEntries_of_keys hnodup (fun e he => ?_) hnames hvalues
        obtain ⟨i, hi, heq⟩ := exists_indexKey hkeys he
        rw [heq]
        exact elementKey_indexKey (by omega)
      rw [hcopy, same_table_iff hnodup hnames, and_iff_right fun _ => rfl]
      refine forall₂_congr fun e he => ih e he ?_
      have hle := size_le_entriesSize true he
      omega
    | false =>
      exact iff_of_false (not_same_strings hpos hkeys) fun h => Bool.false_ne_true (h.1 hpos)

end Copy

/-! ### The documents -/

section Documents

variable {rt : Runtime} {n : ℕ} {entries : List (Value ℕ × Value ℕ)}

section

variable (h : Storable (.table n entries))
include h

theorem Storable.values : ∀ e ∈ entries, Storable e.2 := by
  cases h with
  | fields hkeys hdistinct hvalues => exact hvalues
  | sequence hpos hlt hkeys hvalues => exact hvalues

theorem Storable.keys : ∀ e ∈ entries, (∃ s, e.1 = .string s ∧ 0 ∉ s) ∨ ∃ i, e.1 = indexKey i := by
  cases h with
  | fields hkeys hdistinct hvalues => exact fun e he => .inl (hkeys e he)
  | sequence hpos hlt hkeys hvalues =>
    intro e he
    obtain ⟨i, -, heq⟩ := exists_indexKey hkeys he
    exact .inr ⟨i, heq⟩

theorem length_document :
    (documentBytes (entriesBytes false entries)).length = 4 + entriesSize false entries + 1 := by
  rw [length_documentBytes, length_entriesBytes fun e he => length_valueBytes (h.values e he)]

theorem ldecode_document (hplain : Plain (.table n entries))
    (hsize : 4 + entriesSize false entries + 1 < 2 ^ 31) :
    ∃ br, ldecode (documentBytes (entriesBytes false entries)) =
      .ok (.table () (copyEntries false [] entries)) br := by
  have hlength := length_document h
  rw [← bytesOf_map] at hlength
  rw [← bytesOf_map, copyEntries_eq]
  refine ldecode_documentBytes (fun el hel => ?_) (fun el hel => ?_) (by omega)
  · obtain ⟨e, he, rfl⟩ := mem_map.mp hel
    exact zero_notMem_entryName (h.keys e he) false
  · obtain ⟨e, he, rfl⟩ := mem_map.mp hel
    have hle := size_le_entriesSize false he
    exact decodes_copy (h.values e he) (hplain.entry he) (by omega)

theorem same_document_iff (hzero : n = 0) (hsize : 4 + entriesSize false entries + 1 ≤ 2 ^ 30) :
    Same (.table n entries) (.table () (copyEntries false [] entries)) ↔
      ∀ e ∈ entries, Ordered e.2 := by
  have hfalse : isSequence n entries = false := by
    rw [isSequence, hzero]
    rfl
  have hsame := same_copy_iff h (by
    rw [size, hfalse]
    omega)
  rw [copy, hfalse, ordered_table_iff] at hsame
  rw [hsame, and_iff_right fun hpos => absurd hzero (Nat.ne_of_gt hpos)]

end

theorem roundTrips_of_kept (rt : Runtime) (h : Storable (.table n entries))
    (hplain : Plain (.table n entries)) (hkept : Kept n entries) :
    RoundTrips rt (.table n entries) := by
  obtain ⟨hzero, hordered, hsize⟩ := hkept
  have hlength := length_document h
  obtain ⟨br, hdecode⟩ := ldecode_document h hplain (by omega)
  exact ⟨_, _, br, (lencode_ok_iff h).mpr ⟨rfl, by omega⟩, hdecode,
    (same_document_iff h hzero hsize).mpr hordered⟩

theorem kept_of_roundTrips (h : Storable (.table n entries)) (hplain : Plain (.table n entries))
    (htrips : RoundTrips rt (.table n entries)) : Kept n entries := by
  obtain ⟨doc, value, br, hencode, hdecode, hsame⟩ := htrips
  obtain ⟨rfl, hsize⟩ := (lencode_ok_iff h).mp hencode
  rw [length_document h] at hsize
  obtain ⟨br', hdecode'⟩ := ldecode_document h hplain (by omega)
  obtain ⟨rfl, -⟩ := EStateM.Result.ok.inj (hdecode.symm.trans hdecode')
  have hzero : n = 0 := by
    cases h with
    | fields => rfl
    | sequence hpos hlt hkeys hvalues => exact absurd hsame (not_same_strings hpos hkeys)
  exact ⟨hzero, (same_document_iff h hzero hsize).mp hsame, hsize⟩

/-- A table with a sequence of two elements, which are visited in this order. -/
def pairTable (first second : Value ℕ × Value ℕ) : Value ℕ :=
  .table 0 [(.string [120], .table 2 [first, second])]

/-- The elements of the sequence. -/
def firstEntry : Value ℕ × Value ℕ := (.integer 1, .boolean true)

def secondEntry : Value ℕ × Value ℕ := (.integer 2, .boolean false)

section Pair

variable {first second : Value ℕ × Value ℕ} (h : [first, second].Perm [firstEntry, secondEntry])
include h

theorem exists_boolean (he : e ∈ [first, second]) : ∃ b, e.2 = .boolean b := by
  rcases mem_pair.mp (h.mem_iff.mp he) with rfl | rfl
  · exact ⟨true, rfl⟩
  · exact ⟨false, rfl⟩

theorem storable_pairTable : Storable (pairTable first second) := by
  have hpair : Storable (.table 2 [first, second]) := by
    refine .sequence (by decide) (by decide) (h.map Prod.fst) fun e he => ?_
    obtain ⟨b, heq⟩ := exists_boolean h he
    rw [heq]
    exact .boolean b
  refine .fields (fun e he => ?_) (nodup_singleton _) fun e he => ?_
  · rw [mem_singleton.mp he]
    exact ⟨[120], rfl, by decide⟩
  · rw [mem_singleton.mp he]
    exact hpair

theorem plain_pairTable : Plain (pairTable first second) := by
  intro pattern options hpart
  cases hpart with
  | entry he hpart =>
    rw [mem_singleton.mp he] at hpart
    cases hpart with
    | entry he hpart =>
      obtain ⟨b, heq⟩ := exists_boolean h he
      rw [heq] at hpart
      nomatch hpart

end Pair

end Documents

end Mtask.Bson
