import Mathlib.Data.List.TakeWhile
import Mtask.Bson.Writer

/-!
# The bytes of a value

The values that a document can have are tables with strings as keys, sequences, and in them the
scalars and the special values of the library. The encoder writes the same bytes for a value wherever
it is: those of a table have the length in front and a zero behind.
-/

namespace Mtask.Bson

open Lua Lua.Value Mongo
open List

/-! ### The values -/

/-- A special value, with the bytes behind its type. -/
def special (type : BsonType) (str : List UInt8) : List UInt8 := 0 :: type.code :: str

/-- `ldate` -/
def ldate (d : BitVec 64) : List UInt8 :=
  special .date (LittleEndian.toBytes 4 (d.setWidth 32).toNat)

/-- `ltimestamp` -/
def ltimestamp (d inc : BitVec 64) : List UInt8 :=
  special .timestamp (LittleEndian.toBytes 4 (inc.setWidth 32).toNat ++
    LittleEndian.toBytes 4 (d.setWidth 32).toNat)

/-- `lregex` -/
def lregex (pattern options : List UInt8) : List UInt8 :=
  special .regex (pattern ++ 0 :: (options ++ [0]))

/-- `lbinary`, which has zero for the subtype, and what `unpack_dict` makes of another one. -/
def lbinary (subtype : UInt8) (s : List UInt8) : List UInt8 := special .binary (subtype :: s)

/-- The strings that the library makes for special values. -/
inductive Special : List UInt8 → Prop
  | null : Special (special .null [])
  | minkey : Special (special .minkey [])
  | maxkey : Special (special .maxkey [])
  | objectid {oid : List UInt8} (h : oid.length = 12) : Special (special .objectid oid)
  | date (d : BitVec 64) : Special (ldate d)
  | timestamp (d inc : BitVec 64) : Special (ltimestamp d inc)
  | regex (pattern options : List UInt8) : Special (lregex pattern options)
  | binary (subtype : UInt8) (s : List UInt8) : Special (lbinary subtype s)

/-- The key of an element of a sequence. -/
def indexKey (i : ℕ) : Value ℕ := .integer (.ofNat 64 (i + 1))

/-- The values that a document can have, and what `lua_rawlen` returns for their tables. The entries
are in the order of `lua_next`, which can be any. -/
inductive Storable : Value ℕ → Prop
  | boolean (b : Bool) : Storable (.boolean b)
  | integer (i : BitVec 64) : Storable (.integer i)
  | float (d : BitVec 64) : Storable (.float d)
  | string {s : List UInt8} (h : s.head? ≠ some 0) : Storable (.string s)
  | special {s : List UInt8} (h : Special s) : Storable (.string s)
  | fields {entries : List (Value ℕ × Value ℕ)}
      (hkeys : ∀ e ∈ entries, ∃ s, e.1 = .string s ∧ 0 ∉ s)
      (hdistinct : (entries.map Prod.fst).Nodup) (hvalues : ∀ e ∈ entries, Storable e.2) :
      Storable (.table 0 entries)
  | sequence {n : ℕ} {entries : List (Value ℕ × Value ℕ)} (hpos : 0 < n) (hlt : n < 2 ^ 63)
      (hkeys : (entries.map Prod.fst).Perm ((List.range n).map indexKey))
      (hvalues : ∀ e ∈ entries, Storable e.2) : Storable (.table n entries)

/-! ### The bytes -/

/-- The table is found to be an array. -/
def isSequence (n : ℕ) (entries : List (Value ℕ × Value ℕ)) : Bool :=
  0 < n && ((entries.dropWhile (!·.1.sameKey (.integer (.ofNat 64 n) : Value ℕ))).drop 1).isEmpty

/-- The type of a string. -/
def stringType : List UInt8 → BsonType
  | 0 :: subt :: _ => (BsonType.ofCode subt).getD .null
  | _ => .string

/-- The type of a value. -/
def valueType : Value ℕ → BsonType
  | .boolean _ => .boolean
  | .integer i => if is32bit i then .int32 else .int64
  | .float _ => .real
  | .string s => stringType s
  | .table n entries => if isSequence n entries then .array else .document
  | _ => .null

/-- The name of an entry. -/
def entryName (isarray : Bool) : Value ℕ → List UInt8
  | .integer i => if isarray then bsonNumstr (i.setWidth 32 - 1) else integerText i
  | .string s => s
  | _ => []

/-- The bytes of a special value. -/
def specialBytes (str : List UInt8) : BsonType → List UInt8
  | .binary => int32Bytes (toInt (str.length - 1)) ++ str
  | .date => int64Bytes (.ofNat 64 (LittleEndian.ofBytes str * 1000))
  | .minkey | .maxkey | .null => []
  | _ => str

/-- The bytes of a string. -/
def stringBytes : List UInt8 → List UInt8
  | 0 :: subt :: str => specialBytes str (stringType (0 :: subt :: str))
  | str => int32Bytes (toInt (str.length + 1)) ++ (str ++ [0])

mutual

/-- The bytes of a value. -/
def valueBytes : Value ℕ → List UInt8
  | .boolean b => [if b then 1 else 0]
  | .integer i => if is32bit i then int32Bytes i.toInt else int64Bytes i
  | .float d => int64Bytes d
  | .string s => stringBytes s
  | .table n entries => documentBytes (entriesBytes (isSequence n entries) entries)
  | _ => []

/-- The bytes of the elements for some entries. -/
def entriesBytes (isarray : Bool) : List (Value ℕ × Value ℕ) → List UInt8
  | [] => []
  | (key, value) :: entries =>
    elementBytes (valueType value) (entryName isarray key) (valueBytes value) ++
      entriesBytes isarray entries

end

mutual

/-- The number of the bytes of a value. -/
def size : Value ℕ → ℕ
  | .boolean _ => 1
  | .integer i => if is32bit i then 4 else 8
  | .float _ => 8
  | .string s =>
    match stringType s with
    | .string => 4 + s.length + 1
    | .binary => 4 + (s.length - 2)
    | .date => 8
    | .minkey | .maxkey | .null => 0
    | _ => s.length - 2
  | .table n entries => 4 + entriesSize (isSequence n entries) entries + 1
  | _ => 0

/-- The number of the bytes of the elements for some entries: each has a type, a name with a zero
behind it, and a value. -/
def entriesSize (isarray : Bool) : List (Value ℕ × Value ℕ) → ℕ
  | [] => 0
  | (key, value) :: entries =>
    1 + ((entryName isarray key).length + 1) + size value + entriesSize isarray entries

end

/-! ### What is written -/

section Write

variable {rt : Runtime} {key s str : List UInt8} {n : ℕ} {entries : List (Value ℕ × Value ℕ)}
  {v : Value ℕ}

theorem appends_appendKey (type : UInt8) (key : List UInt8) :
    Appends (appendKey type key) ([type] ++ (key ++ [0])) :=
  (appends_writeBytes [type]).bind (appends_writeBytes (key ++ [0]))

theorem Appends.element {m : Packing Unit} {bytes : List UInt8} (h : Appends m bytes)
    (type : BsonType) (key : List UInt8) : Appends (do
      appendKey type.code key
      m) (elementBytes type key bytes) :=
  (appends_appendKey type.code key).bind h

theorem appends_appendInteger (key : List UInt8) (i : BitVec 64) :
    Appends (appendInteger key i)
      (elementBytes (valueType (.integer i)) key (valueBytes (.integer i))) := by
  rw [appendInteger, valueType, valueBytes]
  by_cases hsmall : is32bit i = true
  · rw [if_pos hsmall, if_pos hsmall, if_pos hsmall]
    exact (appends_writeBytes _).element _ key
  · rw [if_neg hsmall, if_neg hsmall, if_neg hsmall]
    exact (appends_writeBytes _).element _ key

theorem appends_writeBinary (buffer : List UInt8) :
    Appends (writeBinary buffer) (int32Bytes (toInt (buffer.length - 1)) ++ buffer) :=
  (appends_writeBytes buffer).patched _ fun _ _ _ => rfl

/-- Something is behind the last of the elements that are `a`. -/
theorem exists_last_of_mem {α : Type} {a : α} {l : List α} (h : a ∈ l) :
    ∃ before after, l = before ++ a :: after ∧ a ∉ after := by
  obtain ⟨after, before, heq, hnot⟩ := eq_append_cons_of_mem (mem_reverse.mpr h)
  refine ⟨before.reverse, after.reverse, ?_, fun h => hnot (mem_reverse.mp h)⟩
  rw [← reverse_reverse l, heq]
  simp

/-- The strings of a regular expression are written as they are, wherever the last zero is. -/
theorem appends_writeRegex (h : 0 ∈ str) : Appends (writeRegex (str ++ [0])) (str ++ [0]) := by
  obtain ⟨pattern, options, rfl, hoptions⟩ := exists_last_of_mem h
  have htake : (options.reverse ++ 0 :: pattern.reverse).takeWhile (· ≠ 0) = options.reverse := by
    rw [takeWhile_append_of_pos]
    · simp
    · intro c hc
      rw [decide_eq_true_iff]
      rintro rfl
      exact hoptions (mem_reverse.mp hc)
  have hstr : ((pattern ++ 0 :: options ++ [0]).dropLast.reverse.takeWhile (· ≠ 0)).reverse =
      options := by
    rw [dropLast_concat, reverse_append, reverse_cons, append_assoc,
      singleton_append, htake, reverse_reverse]
  have hlength : (pattern ++ 0 :: options ++ [0]).dropLast.length - options.length - 1 =
      pattern.length := by
    rw [dropLast_concat, length_append, length_cons]
    omega
  have hlt : options.length < (pattern ++ 0 :: options ++ [0]).dropLast.length := by
    rw [dropLast_concat, length_append, length_cons]
    omega
  have hpattern : (pattern ++ 0 :: options ++ [0]).take pattern.length = pattern := by
    rw [append_assoc, take_left]
  have hbytes : pattern ++ 0 :: options ++ [0] = (pattern ++ [0]) ++ (options ++ [0]) := by simp
  have hwrite : Appends (do
      writeString pattern
      writeString options) (pattern ++ 0 :: options ++ [0]) := by
    rw [hbytes]
    exact (appends_writeBytes (pattern ++ [0])).bind (appends_writeBytes (options ++ [0]))
  refine hwrite.congr fun b => ?_
  rw [writeRegex, hstr]
  simp only [if_pos hlt, hlength, hpattern]

theorem int32Bytes_ofBytes (h : str.length = 4) : int32Bytes (LittleEndian.ofBytes str) = str := by
  have hlt : LittleEndian.ofBytes str < 2 ^ 32 :=
    Nat.lt_of_lt_of_eq (LittleEndian.ofBytes_lt str) (by simp [h])
  rw [int32Bytes, BitVec.ofInt_natCast, BitVec.toNat_ofNat, Nat.mod_eq_of_lt hlt, ← h,
    LittleEndian.toBytes_ofBytes]

theorem appends_timestamp (h : str.length = 8) : Appends (do
    writeInt32 (LittleEndian.ofBytes (str.take 4))
    writeInt32 (LittleEndian.ofBytes (str.drop 4))) str := by
  have htake : (str.take 4).length = 4 := by
    rw [length_take, h]
    rfl
  have hdrop : (str.drop 4).length = 4 := by rw [length_drop, h]
  have hwrite := (appends_writeBytes (int32Bytes (LittleEndian.ofBytes (str.take 4)))).bind
    (appends_writeBytes (int32Bytes (LittleEndian.ofBytes (str.drop 4))))
  rw [int32Bytes_ofBytes htake, int32Bytes_ofBytes hdrop, take_append_drop] at hwrite
  rw [writeInt32, writeInt32, int32Bytes_ofBytes htake, int32Bytes_ofBytes hdrop]
  exact hwrite

/-- The strings that the library makes have a type that is known, and what is written for them. -/
theorem Special.appends (h : Special s) : ∃ type str, s = special type str ∧
    Appends (writeSpecial type.code str) (specialBytes str type) := by
  have heq {type : BsonType} {str : List UInt8} {m : Packing Unit} :
      BsonType.ofCode type.code = some type := BsonType.ofCode_code type
  cases h with
  | null => exact ⟨.null, [], rfl, .nothing⟩
  | minkey => exact ⟨.minkey, [], rfl, .nothing⟩
  | maxkey => exact ⟨.maxkey, [], rfl, .nothing⟩
  | objectid h =>
    refine ⟨.objectid, _, rfl, (appends_writeBytes _).congr fun b => ?_⟩
    rw [writeSpecial, BsonType.ofCode_code]
    exact congrFun (if_neg (not_not.mpr h)) b
  | date d =>
    refine ⟨.date, _, rfl, (appends_writeBytes _).congr fun b => ?_⟩
    rw [writeSpecial, BsonType.ofCode_code]
    exact congrFun (if_neg (not_not.mpr (LittleEndian.length_toBytes 4 _))) b
  | timestamp d inc =>
    have hlength : (LittleEndian.toBytes 4 (inc.setWidth 32).toNat ++
        LittleEndian.toBytes 4 (d.setWidth 32).toNat).length = 8 := by
      rw [length_append, LittleEndian.length_toBytes, LittleEndian.length_toBytes]
    refine ⟨.timestamp, _, rfl, (appends_timestamp hlength).congr fun b => ?_⟩
    rw [writeSpecial, BsonType.ofCode_code]
    exact congrFun (if_neg (not_not.mpr hlength)) b
  | regex pattern options =>
    have hmem : 0 ∈ pattern ++ 0 :: options := mem_append_right _ mem_cons_self
    have hwrite := appends_writeRegex hmem
    rw [append_assoc, cons_append] at hwrite
    exact ⟨.regex, _, rfl, hwrite⟩
  | binary subtype s => exact ⟨.binary, _, rfl, appends_writeBinary _⟩

theorem stringType_special (type : BsonType) (str : List UInt8) :
    stringType (special type str) = type := by
  rw [special, stringType, BsonType.ofCode_code]
  rfl

theorem stringBytes_special (type : BsonType) (str : List UInt8) :
    stringBytes (special type str) = specialBytes str type :=
  congrArg (specialBytes str) (stringType_special type str)

theorem appends_appendString_special (h : Special s) (key : List UInt8) :
    Appends (appendString key s) (elementBytes (stringType s) key (stringBytes s)) := by
  obtain ⟨type, str, rfl, hwrite⟩ := h.appends
  rw [stringType_special, stringBytes_special]
  exact hwrite.element type key

theorem string_cases (h : s.head? ≠ some 0) : stringType s = .string ∧
    stringBytes s = int32Bytes (toInt (s.length + 1)) ++ (s ++ [0]) ∧
      ∀ key, appendString key s = (do
        appendKey BsonType.string.code key
        let off ← reserveLength
        writeString s
        writeLength (toInt (s.length + 1)) off) := by
  cases s with
  | nil => exact ⟨rfl, rfl, fun _ => rfl⟩
  | cons c s =>
    have hc : c ≠ 0 := fun hc => h (congrArg some hc)
    refine ⟨?_, ?_, fun key => ?_⟩
    · rw [stringType]
      exact fun _ _ heq => hc (List.cons.inj heq).1
    · rw [stringBytes]
      exact fun _ _ heq => hc (List.cons.inj heq).1
    · rw [appendString]
      exact fun _ _ heq => hc (List.cons.inj heq).1

theorem appends_appendString (h : s.head? ≠ some 0) (key : List UInt8) :
    Appends (appendString key s) (elementBytes (stringType s) key (stringBytes s)) := by
  obtain ⟨htype, hbytes, happend⟩ := string_cases h
  rw [htype, hbytes, happend]
  exact ((appends_writeBytes (s ++ [0])).patched _ fun _ _ _ => rfl).element .string key

theorem appends_packDict {loop : Packing Unit} {elements : List UInt8} (h : Appends loop elements) :
    Appends (packDict loop) (documentBytes elements) := by
  have hsize (off : ℕ) (b : BsonWriter)
      (hlength : b.ptr.length = off + (4 + (elements ++ [0]).length)) :
      writeSize off b = writeLength (toInt (4 + (elements ++ [0]).length)) off b := by
    change writeLength (toInt (b.ptr.length - off)) off b = _
    have hsub : (b.ptr.length - off : ℤ) = 4 + (elements ++ [0]).length := by
      rw [hlength]
      push_cast
      omega
    rw [hsub]
  refine ((h.bind (appends_writeBytes [0])).patched _ hsize).congr fun b => ?_
  simp only [packDict, writeByte, bind_assoc]

theorem appends_packEntries {isarray : Bool}
    (h : ∀ e ∈ entries, entryKey rt isarray e.1 = pure (entryName isarray e.1) ∧ ∀ key,
      Appends (appendOne rt key e.2) (elementBytes (valueType e.2) key (valueBytes e.2))) :
    Appends (packEntries rt isarray entries) (entriesBytes isarray entries) := by
  induction entries with
  | nil =>
    rw [packEntries, entriesBytes]
    exact .nothing
  | cons e entries ih =>
    obtain ⟨hkey, hvalue⟩ := h e mem_cons_self
    rw [packEntries, entriesBytes, hkey, pure_bind]
    exact (hvalue _).bind (ih fun e' he' => h e' (mem_cons_of_mem _ he'))

theorem tableIsArray_eq (hpos : 0 < n) (hmem : .integer (.ofNat 64 n) ∈ entries.map Prod.fst) :
    tableIsArray n entries = pure (isSequence n entries) := by
  obtain ⟨e, he, hkey⟩ := mem_map.mp hmem
  rw [tableIsArray, if_pos hpos, next, isSequence]
  cases hdrop : entries.dropWhile (!·.1.sameKey (.integer (.ofNat 64 n) : Value ℕ)) with
  | nil =>
    have hall := dropWhile_eq_nil_iff.mp hdrop e he
    rw [hkey] at hall
    simp [sameKey] at hall
  | cons e' rest =>
    rw [decide_eq_true hpos, Bool.true_and]
    rfl

theorem appends_table {n : ℕ} (hisarray : tableIsArray n entries = pure (isSequence n entries))
    (h : ∀ e ∈ entries, entryKey rt (isSequence n entries) e.1 =
      pure (entryName (isSequence n entries) e.1) ∧ ∀ key,
        Appends (appendOne rt key e.2) (elementBytes (valueType e.2) key (valueBytes e.2)))
    (key : List UInt8) : Appends (appendOne rt key (.table n entries))
      (elementBytes (valueType (.table n entries)) key (valueBytes (.table n entries))) := by
  rw [appendOne, valueType, valueBytes, hisarray, pure_bind]
  exact (appends_packDict (appends_packEntries h)).element _ key

/-- The key of the last element of a sequence. -/
theorem last_mem (hpos : 0 < n)
    (hkeys : (entries.map Prod.fst).Perm ((List.range n).map indexKey)) :
    .integer (.ofNat 64 n) ∈ entries.map Prod.fst := by
  refine hkeys.mem_iff.mpr (mem_map.mpr ⟨n - 1, mem_range.mpr (by omega), ?_⟩)
  rw [indexKey, Nat.sub_add_cancel hpos]

theorem exists_indexKey (hkeys : (entries.map Prod.fst).Perm ((List.range n).map indexKey))
    {e : Value ℕ × Value ℕ} (he : e ∈ entries) : ∃ i < n, e.1 = indexKey i := by
  obtain ⟨i, hi, heq⟩ := mem_map.mp (hkeys.mem_iff.mp (mem_map_of_mem he))
  exact ⟨i, mem_range.mp hi, heq.symm⟩

/-- **`append_one` writes the bytes of a value.** -/
theorem appends_appendOne (rt : Runtime) (h : Storable v) (key : List UInt8) :
    Appends (appendOne rt key v) (elementBytes (valueType v) key (valueBytes v)) := by
  induction h generalizing key with
  | boolean b =>
    rw [appendOne]
    exact (appends_writeBytes _).element .boolean key
  | integer i =>
    rw [appendOne]
    exact appends_appendInteger key i
  | float d =>
    rw [appendOne]
    exact (appends_writeBytes _).element .real key
  | string h =>
    rw [appendOne, valueBytes]
    exact appends_appendString h key
  | special h =>
    rw [appendOne, valueBytes]
    exact appends_appendString_special h key
  | fields hkeys hdistinct hvalues ih =>
    refine appends_table rfl (fun e he => ⟨?_, fun key => ih e he key⟩) key
    obtain ⟨s, heq, -⟩ := hkeys e he
    rw [heq]
    rfl
  | sequence hpos hlt hkeys hvalues ih =>
    have hisarray := tableIsArray_eq hpos (last_mem hpos hkeys)
    refine appends_table hisarray (fun e he => ⟨?_, fun key => ih e he key⟩) key
    obtain ⟨i, -, heq⟩ := exists_indexKey hkeys he
    rw [heq]
    rfl

/-! ### The document -/

theorem length_entriesBytes {isarray : Bool}
    (h : ∀ e ∈ entries, (valueBytes e.2).length = size e.2) :
    (entriesBytes isarray entries).length = entriesSize isarray entries := by
  induction entries with
  | nil => rw [entriesBytes, entriesSize, length_nil]
  | cons e entries ih =>
    rw [entriesBytes, entriesSize, elementBytes]
    simp only [length_append, length_singleton, h e mem_cons_self,
      ih fun e' he' => h e' (mem_cons_of_mem _ he')]

theorem length_stringBytes_special (h : Special s) : (stringBytes s).length = size (.string s) := by
  cases h with
  | date d => exact LittleEndian.length_toBytes 8 _
  | binary subtype s =>
    change (int32Bytes _ ++ subtype :: s).length = 4 + ((lbinary subtype s).length - 2)
    rw [length_append, length_int32Bytes]
    rfl
  | null | minkey | maxkey | objectid | timestamp | regex => rfl

theorem length_valueBytes (h : Storable v) : (valueBytes v).length = size v := by
  induction h with
  | boolean b => rw [valueBytes, size, length_singleton]
  | integer i =>
    rw [valueBytes, size]
    split_ifs
    · exact length_int32Bytes _
    · exact LittleEndian.length_toBytes 8 _
  | float d =>
    rw [valueBytes, size]
    exact LittleEndian.length_toBytes 8 _
  | string h =>
    obtain ⟨htype, hbytes, -⟩ := string_cases h
    rw [valueBytes, size, htype, hbytes, length_append, length_int32Bytes, length_append]
    rfl
  | special h =>
    rw [valueBytes]
    exact length_stringBytes_special h
  | fields hkeys hdistinct hvalues ih =>
    rw [valueBytes, size, length_documentBytes, length_entriesBytes ih]
  | sequence hpos hlt hkeys hvalues ih =>
    rw [valueBytes, size, length_documentBytes, length_entriesBytes ih]

theorem appends_document (rt : Runtime) (h : Storable (.table n entries)) :
    Appends (packEntries rt false entries) (entriesBytes false entries) := by
  cases h with
  | fields hkeys hdistinct hvalues =>
    refine appends_packEntries fun e he => ⟨?_, appends_appendOne rt (hvalues e he)⟩
    obtain ⟨s, heq, -⟩ := hkeys e he
    rw [heq]
    rfl
  | sequence hpos hlt hkeys hvalues =>
    refine appends_packEntries fun e he => ⟨?_, appends_appendOne rt (hvalues e he)⟩
    obtain ⟨i, -, heq⟩ := exists_indexKey hkeys he
    rw [heq]
    rfl

theorem exists_packDict {loop : Packing Unit} {elements : List UInt8} (h : Appends loop elements)
    (hle : (documentBytes elements).length ≤ 2 ^ 30) :
    ∃ b, packDict loop bsonCreate = .ok () b := by
  rw [documentBytes, length_append, length_int32Bytes, length_append,
    length_singleton] at hle
  obtain ⟨hsafe, hok⟩ := appends_writeBytes (int32Bytes 0) bsonCreate fits_bsonCreate
  obtain ⟨b₁, heq₁⟩ := hok (by decide)
  obtain ⟨hptr₁, hfits₁⟩ := hsafe b₁ heq₁
  have hlength₁ : b₁.ptr.length = 4 := by
    rw [hptr₁]
    exact length_int32Bytes 0
  obtain ⟨b₂, heq₂⟩ := (h b₁ hfits₁).2 (by omega)
  obtain ⟨hptr₂, hfits₂⟩ := (h b₁ hfits₁).1 b₂ heq₂
  have hlength₂ : b₂.ptr.length = 4 + elements.length := by
    rw [hptr₂, length_append, hlength₁]
  obtain ⟨b₃, heq₃⟩ := writeByte_ok hfits₂ (by omega) 0
  obtain ⟨hptr₃, hfits₃⟩ := (appends_writeBytes [0] b₂ hfits₂).1 b₃ heq₃
  have hstore : ∃ ptr, Buffers.store b₃.ptr 0 (int32Bytes (toInt (b₃.ptr.length - 0))) = some ptr := by
    refine Option.isSome_iff_exists.mp (Buffers.store_isSome ?_)
    rw [length_int32Bytes, hptr₃, length_append, hlength₂]
    omega
  obtain ⟨ptr, hstore⟩ := hstore
  refine ⟨⟨ptr, b₃.cap⟩, Outcomes.stateBind_eq_ok.mpr ⟨0, b₁, reserveLength_ok_iff.mpr ⟨rfl, heq₁⟩, ?_⟩⟩
  refine Outcomes.stateBind_eq_ok.mpr ⟨(), b₂, heq₂, Outcomes.stateBind_eq_ok.mpr ⟨(), b₃, heq₃, ?_⟩⟩
  change writeLength (toInt (b₃.ptr.length - 0)) 0 b₃ = _
  rw [writeLength, hstore]

/-- **The document of a table.** -/
theorem lencode_ok_iff {doc : List UInt8} (h : Storable (.table n entries)) :
    lencode rt (.table n entries) = .ok doc ↔
      doc = documentBytes (entriesBytes false entries) ∧ doc.length ≤ 2 ^ 30 := by
  have hloop := appends_document rt h
  have hsafe := (appends_packDict hloop bsonCreate fits_bsonCreate).1
  rw [lencode]
  constructor
  · intro hencode
    cases hpack : packDict (packEntries rt false entries) bsonCreate with
    | error fault b =>
      rw [hpack] at hencode
      cases hencode
    | ok a b =>
      obtain ⟨hptr, hfits⟩ := hsafe b hpack
      rw [hpack] at hencode
      obtain rfl := Except.ok.inj hencode
      exact ⟨hptr, hfits.length_le⟩
  · rintro ⟨rfl, hle⟩
    obtain ⟨b, hpack⟩ := exists_packDict hloop hle
    obtain ⟨hptr, -⟩ := hsafe b hpack
    rw [hpack]
    exact congrArg Except.ok hptr

end Write

end Mtask.Bson
