import Mathlib.Algebra.Order.BigOperators.Group.List
import Mathlib.Algebra.Order.Group.Nat
import Mtask.LuaSeri.Format
import Mtask.LuaSeri.Unpack

/-!
# Serialised values are read back

The bytes of a value are read back to a value with the same structure. A list of values survives
the way through `_luaseri_pack` and `_luaseri_unpack` exactly when its bytes can be counted by an
`int`.
-/

namespace Mtask.LuaSeri

open Lua Lua.Value
open List (append_assoc append_nil length_append map_nil mem_cons_of_mem mem_range'_1)
open BitVec (ofNat_toNat setWidth_eq toInt_eq_toNat_of_lt toNat_ofNat)

/-! ### Reading -/

/-- The bytes that have not been read. -/
def ReadBlock.At (rb : ReadBlock) (rest : List UInt8) : Prop :=
  ∃ before, rb.buffer = before ++ rest ∧ rb.ptr = before.length ∧ rb.len = rest.length

theorem ReadBlock.at_init {buffer : List UInt8} (h : buffer.length < 2 ^ 31) :
    (init buffer).At buffer := by
  refine ⟨[], rfl, rfl, ?_⟩
  change (BitVec.ofNat 32 buffer.length).toInt = _
  rw [toInt_eq_toNat_of_lt] <;> simp <;> omega

/-- The function reads the bytes and returns the value, whatever is behind the bytes. -/
def Reads {α : Type} (m : Reading α) (bytes : List UInt8) (a : α) : Prop :=
  ∀ (rb : ReadBlock) (rest : List UInt8), rb.At (bytes ++ rest) →
    ∃ rb', m rb = .ok a rb' ∧ rb'.At rest

namespace Reads

variable {α β : Type} {m : Reading α} {f : α → Reading β} {bytes bytes' : List UInt8}
  {a : α} {b : β}

theorem pure (a : α) : Reads (pure a) [] a := fun rb _ hat => ⟨rb, rfl, hat⟩

theorem bind (hm : Reads m bytes a) (hf : Reads (f a) bytes' b) :
    Reads (m >>= f) (bytes ++ bytes') b := by
  intro rb rest hat
  rw [append_assoc] at hat
  obtain ⟨rb₁, heq, hat₁⟩ := hm rb _ hat
  obtain ⟨rb₂, heq', hat₂⟩ := hf rb₁ rest hat₁
  refine ⟨rb₂, ?_, hat₂⟩
  change EStateM.bind m f rb = _
  rw [EStateM.bind, heq]
  exact heq'

theorem map {c : β} (hm : Reads m bytes a) (hf : f a = Pure.pure c) : Reads (m >>= f) bytes c := by
  have hpure : Reads (f a) [] c := hf ▸ Reads.pure c
  have hbind := hm.bind hpure
  rw [append_nil] at hbind
  exact hbind

theorem record (access : Access) : Reads (record access) [] () := fun rb _ hat =>
  ⟨{ rb with log := rb.log ++ [access] }, rfl, hat⟩

/-- The function is the same on every position. -/
theorem congr {m' : Reading α} (hm : Reads m bytes a) (heq : ∀ rb, m' rb = m rb) :
    Reads m' bytes a := by
  have hsame : m' = m := funext heq
  rw [hsame]
  exact hm

theorem readBytes (bytes : List UInt8) {sz : ℤ} (hsz : sz = bytes.length) :
    Reads (readBytes sz) bytes bytes := by
  rintro rb rest ⟨before, hbuffer, hptr, hlen⟩
  rw [length_append] at hlen
  have hle : ¬rb.len < sz := by omega
  refine ⟨{ rb with
    ptr := rb.ptr + sz
    len := rb.len - sz
    log := rb.log ++ [.read rb.ptr rb.len sz] }, ?_, before ++ bytes, ?_, ?_, ?_⟩
  · have hinside : 0 ≤ rb.ptr ∧ 0 ≤ sz ∧ rb.ptr + sz ≤ rb.buffer.length := by
      rw [hbuffer, length_append, length_append]
      omega
    change EStateM.bind (rbRead sz) _ rb = _
    rw [EStateM.bind, rbRead, if_neg hle]
    change bytesAt rb.ptr sz _ = _
    rw [bytesAt, if_pos hinside]
    have hbytes : (rb.buffer.drop rb.ptr.toNat).take sz.toNat = bytes := by
      rw [hbuffer, hptr, Int.toNat_natCast, List.drop_left, hsz, Int.toNat_natCast, List.take_left]
    rw [hbytes]
  · rw [append_assoc]
    exact hbuffer
  · rw [length_append]
    push_cast
    omega
  · change rb.len - sz = _
    omega

theorem readNumber (width n : ℕ) :
    Reads (LuaSeri.readBytes width) (LittleEndian.toBytes width n) (LittleEndian.toBytes width n) :=
  readBytes _ (congrArg _ (LittleEndian.length_toBytes width n).symm)

end Reads

theorem splitType_combineType {t v : ℕ} (ht : t < 8) (hv : v < 32) :
    splitType (combineType t v) = (t, v) := by
  have hall : ∀ t < 8, ∀ v < 32, splitType (combineType t v) = (t, v) := by decide
  exact hall t ht v hv

theorem reads_readType (byte : UInt8) : Reads readType [byte] (splitType byte) :=
  (Reads.readBytes [byte] rfl).map rfl

theorem ofNat_ofBytes {width : ℕ} {v : BitVec 64} (h : v.toNat < 256 ^ width) :
    BitVec.ofNat 64 (LittleEndian.ofBytes (LittleEndian.toBytes width v.toNat)) = v := by
  rw [LittleEndian.ofBytes_toBytes h, ofNat_toNat, setWidth_eq]

theorem reads_getInteger (v : BitVec 64) : ∃ cookie bytes,
    integerBytes v = combineType typeNumber cookie :: bytes ∧ cookie < typeNumberReal ∧
      Reads (getInteger cookie) bytes v := by
  unfold integerBytes
  have hdword (h32 : ¬v ≠ int32 v) : Reads (getInteger typeNumberDword)
      (LittleEndian.toBytes 4 (v.setWidth 32).toNat) v := by
    refine (Reads.readNumber _ _).map ?_
    have hlt : (v.setWidth 32).toNat < 256 ^ 4 := (v.setWidth 32).isLt
    rw [LittleEndian.ofBytes_toBytes hlt, ofNat_toNat, setWidth_eq]
    exact congrArg _ (not_not.1 h32).symm
  have hcookie : ∀ cookie ∈ [typeNumberZero, typeNumberByte, typeNumberWord, typeNumberDword,
      typeNumberQword], cookie < typeNumberReal := by decide
  have hnat : 0 ≤ v.toInt → (v.toNat : ℤ) = v.toInt := fun hpos => by
    have := BitVec.toInt_eq_toNat_cond v
    omega
  split_ifs with hzero hqword hneg hbyte hshort
  · exact ⟨typeNumberZero, [], rfl, hcookie _ (by simp), hzero ▸ Reads.pure 0⟩
  · refine ⟨typeNumberQword, _, rfl, hcookie _ (by simp), ?_⟩
    exact (Reads.readNumber _ _).map
      (congrArg _ (ofNat_ofBytes v.isLt))
  · exact ⟨typeNumberDword, _, rfl, hcookie _ (by simp), hdword hqword⟩
  · refine ⟨typeNumberByte, _, rfl, hcookie _ (by simp), ?_⟩
    have hlt : v.toNat < 256 ^ 1 := by omega
    exact (Reads.readNumber _ _).map (congrArg _ (ofNat_ofBytes hlt))
  · refine ⟨typeNumberWord, _, rfl, hcookie _ (by simp), ?_⟩
    have hlt : v.toNat < 256 ^ 2 := by omega
    exact (Reads.readNumber _ _).map (congrArg _ (ofNat_ofBytes hlt))
  · exact ⟨typeNumberDword, _, rfl, hcookie _ (by simp), hdword hqword⟩

/-- The size of the array part, when it is behind the type byte. -/
theorem reads_getArraySize (arraySize : Rawlen) :
    Reads getArraySize (integerBytes (.ofNat 64 arraySize)) arraySize.val := by
  obtain ⟨cookie, bytes, heq, hlt, hreads⟩ := reads_getInteger (.ofNat 64 arraySize)
  have hcookie : cookie < 32 := Nat.lt_trans hlt (by decide)
  have htype : splitType (combineType typeNumber cookie) = (typeNumber, cookie) :=
    splitType_combineType (show typeNumber < 8 from by decide) hcookie
  have hsize : ((BitVec.ofNat 64 arraySize).setWidth 32).toInt = arraySize.val := by
    have := arraySize.isLt
    rw [toInt_eq_toNat_of_lt] <;> simp <;> omega
  have hcond : ¬(typeNumber ≠ typeNumber ∨ cookie = typeNumberReal) := by
    rintro (h | h)
    · exact h rfl
    · omega
  have hread := reads_readType (combineType typeNumber cookie)
  rw [htype] at hread
  rw [heq, ← List.singleton_append]
  refine hread.bind ?_
  have hrest := hreads.map (f := fun v => return (v.setWidth 32).toInt) (congrArg _ hsize)
  exact hrest.congr fun rb => by simp only [if_neg hcond]

/-- A string whose size is an `int` is copied. -/
theorem getBuffer_eq {n : ℕ} (h : n < 2 ^ 31) :
    getBuffer n = (readBytes n >>= fun bytes => return string bytes) := by
  have hl : BitVec.ofInt 64 (n : ℤ) = BitVec.ofNat 64 n := BitVec.ofInt_natCast _ _
  have hsmall : ¬2 ^ 63 - 1 - sizeofTString < (BitVec.ofNat 64 n + 1).toNat := by
    simp only [sizeofTString, BitVec.toNat_add, toNat_ofNat, BitVec.reduceToNat]
    omega
  have hnat : (BitVec.ofNat 64 n).toNat = n := by
    simp only [toNat_ofNat]
    omega
  have hpush (ptr : ℤ) : pushlstring ptr n =
      (bytesAt ptr n >>= fun bytes => return string bytes) := by
    unfold pushlstring
    simp only [hl, if_neg hsmall, hnat]
  unfold getBuffer readBytes
  rw [bind_assoc]
  congr 1
  funext found
  cases found with
  | none => rfl
  | some ptr => exact hpush ptr

variable {s : List UInt8}

theorem reads_getBuffer {len : ℤ} (h : s.length < 2 ^ 31) (hlen : len = s.length) :
    Reads (getBuffer len) s (string s) := by
  rw [hlen, getBuffer_eq h]
  exact (Reads.readBytes s rfl).map rfl

theorem reads_string {one : Reading (Value Unit)} {fuel : ℕ} {s : List UInt8}
    (h : s.length < 2 ^ 31) : ∃ type cookie bytes,
    stringBytes s = combineType type cookie :: bytes ∧ type < 8 ∧ cookie < 32 ∧
      Reads (pushValue one fuel type cookie) bytes (string s) := by
  have hbuffer {len : ℤ} (hlen : len = s.length) : Reads (getBuffer len) s (string s) :=
    reads_getBuffer h hlen
  unfold stringBytes
  split_ifs with hshort hword
  · exact ⟨typeShortString, s.length, s, rfl, by decide, hshort, hbuffer rfl⟩
  · refine ⟨typeLongString, 2, _, rfl, by decide, by decide, ?_⟩
    refine (Reads.readNumber _ _).bind (hbuffer ?_)
    have hlt : s.length < 256 ^ 2 := hword
    rw [LittleEndian.ofBytes_toBytes hlt, toNat_ofNat, Nat.mod_eq_of_lt hword]
  · refine ⟨typeLongString, 4, _, rfl, by decide, by decide, ?_⟩
    refine (Reads.readNumber _ _).bind (hbuffer ?_)
    have hlt : s.length < 256 ^ 4 := Nat.lt_trans h (by decide)
    rw [LittleEndian.ofBytes_toBytes hlt, toInt_eq_toNat_of_lt] <;> simp <;> omega

/-! ### The value that is read back -/

/-- The entries of the array part that are not `nil`. -/
def arrayPart (arraySize : ℕ) (entries : List (Value Rawlen × Value Rawlen)) :
    List (Value Rawlen × Value Rawlen) :=
  (List.range' 1 arraySize).filterMap fun i =>
    if (rawgeti entries i).isNil then none else some (integer (.ofNat 64 i), rawgeti entries i)

/-- The value that is read back: a table has its array part first. -/
def copy : ℕ → Value Rawlen → Value Unit
  | _, nil => nil
  | _, boolean b => boolean b
  | _, integer v => integer v
  | _, float bits => float bits
  | _, lightuserdata p => lightuserdata p
  | _, string s => string s
  | 0, table _ _ => table () []
  | n + 1, table arraySize entries =>
    table () ((arrayPart arraySize entries ++ hashPart arraySize entries).map fun e =>
      (copy n e.1, copy n e.2))

theorem sameKey_copy (n m : ℕ) (key key' : Value Rawlen) :
    (copy n key).sameKey (copy m key') = key.sameKey key' := by
  cases n <;> cases m <;> cases key <;> cases key' <;> rfl

variable {key : Value Rawlen}

theorem isKey_copy {n : ℕ} (h : key.IsKey) : (copy n key).IsKey := by
  cases n <;> cases key <;> exact h

theorem isNil_copy (n : ℕ) (v : Value Rawlen) : (copy n v).isNil = v.isNil := by
  cases n <;> cases v <;> rfl

theorem copy_integer (n : ℕ) (v : BitVec 64) : copy n (integer v) = integer v := by
  cases n <;> rfl

section Tables

variable {one : Reading (Value Unit)} {entries : Entries}

theorem reads_unpackArray {bytes : ℕ → List UInt8} {value : ℕ → Value Unit} {n i : ℕ}
    (hone : ∀ j, i ≤ j → j < i + n → Reads one (bytes j) (value j)) (hlt : i + n ≤ 2 ^ 31)
    (hfresh : ∀ e ∈ entries, ∀ j, i ≤ j → j < i + n →
      e.1.sameKey (integer (.ofNat 64 j) : Value Unit) = false) :
    Reads (unpackArray one n i entries) ((List.range' i n).flatMap bytes)
      (entries ++ (List.range' i n).filterMap fun j =>
        if (value j).isNil then none else some (integer (.ofNat 64 j), value j)) := by
  induction n generalizing i entries with
  | zero =>
    rw [List.range'_zero, List.filterMap_nil, append_nil]
    exact .pure entries
  | succ n ih =>
    have hassign : assign entries (integer (.ofNat 64 i)) (value i) = _ :=
      assign_fresh fun e he => hfresh e he i (Nat.le_refl i) (by omega)
    have hnext : ∀ e ∈ assign entries (integer (.ofNat 64 i)) (value i), ∀ j, i + 1 ≤ j →
        j < i + 1 + n → e.1.sameKey (integer (.ofNat 64 j) : Value Unit) = false := by
      intro e he j hle hj
      rw [hassign, List.mem_append] at he
      rcases he with he | he
      · exact hfresh e he j (by omega) (by omega)
      · split at he
        · cases he
        · rw [List.mem_singleton.1 he]
          have hne : BitVec.ofNat 64 i ≠ BitVec.ofNat 64 j := by
            intro heq
            have := congrArg BitVec.toNat heq
            simp only [toNat_ofNat] at this
            omega
          exact decide_eq_false hne
    have hrest := ih (fun j hle hj => hone j (by omega) (by omega)) (by omega) hnext
    have hall := (hone i (Nat.le_refl i) (by omega)).bind (f := fun v => unpackArray one n (i + 1)
      (assign entries (integer (.ofNat 64 i)) v)) hrest
    rw [hassign, append_assoc] at hall
    rw [List.range'_succ, List.flatMap_cons, List.filterMap_cons]
    split at hall
    next hnil => simpa [hnil, unpackArray] using hall
    next hnil => simpa [hnil, unpackArray] using hall

theorem reads_unpackHash {ι : Type} {rest : List ι} {entry : ι → Value Unit × Value Unit}
    {keyBytes valueBytes : ι → List UInt8} {fuel : ℕ}
    (hkeys : ∀ e ∈ rest, Reads one (keyBytes e) (entry e).1)
    (hvalues : ∀ e ∈ rest, Reads one (valueBytes e) (entry e).2)
    (hnil : Reads one [UInt8.ofNat typeNil] nil) (hfuel : rest.length < fuel)
    (hkey : ∀ e ∈ rest, (entry e).1.IsKey) (hvalue : ∀ e ∈ rest, (entry e).2.isNil = false)
    (hdistinct : (entries ++ rest.map entry).Pairwise fun e e' => e.1.sameKey e'.1 = false) :
    Reads (unpackHash one fuel entries)
      ((rest.flatMap fun e => keyBytes e ++ valueBytes e) ++ [UInt8.ofNat typeNil])
      (entries ++ rest.map entry) := by
  induction rest generalizing fuel entries with
  | nil =>
    obtain ⟨fuel, rfl⟩ := Nat.exists_eq_succ_of_ne_zero (Nat.ne_of_gt hfuel)
    rw [map_nil, append_nil]
    exact hnil.map rfl
  | cons e rest ih =>
    obtain ⟨fuel, rfl⟩ := Nat.exists_eq_succ_of_ne_zero (Nat.ne_of_gt (Nat.zero_lt_of_lt hfuel))
    have hmem : e ∈ e :: rest := List.mem_cons_self
    have hfresh : ∀ e' ∈ entries, e'.1.sameKey (entry e).1 = false := fun e' he' =>
      (List.pairwise_append.1 hdistinct).2.2 e' he' _ List.mem_cons_self
    have hset : rawset entries (entry e).1 (entry e).2 = .ok (entries ++ [entry e]) :=
      rawset_fresh (hkey e hmem) hfresh (hvalue e hmem)
    have hentry : Reads (rawsetEntry entries (entry e).1 (entry e).2) [] (entries ++ [entry e]) :=
      by
      rw [rawsetEntry, hset]
      exact .pure _
    have hdistinct' : ((entries ++ [entry e]) ++ rest.map entry).Pairwise
        fun e e' => e.1.sameKey e'.1 = false := by simpa using hdistinct
    have hrest := ih
      (fun e' he' => hkeys e' (mem_cons_of_mem _ he'))
      (fun e' he' => hvalues e' (mem_cons_of_mem _ he')) (Nat.lt_of_succ_lt_succ hfuel)
      (fun e' he' => hkey e' (mem_cons_of_mem _ he'))
      (fun e' he' => hvalue e' (mem_cons_of_mem _ he')) hdistinct'
    have htail := (hvalues e hmem).bind
      (f := fun value => rawsetEntry entries (entry e).1 value >>= unpackHash one fuel)
      (hentry.bind hrest)
    have hnotNil : (entry e).1.isNil = false := by
      have hkey := hkey e hmem
      cases hcase : (entry e).1 <;> rw [hcase] at hkey <;> first | exact hkey.elim | rfl
    rw [List.flatMap_cons, append_assoc, append_assoc]
    refine (hkeys e hmem).bind (.congr (m := _) (by simpa using htail) fun rb => ?_)
    simp only [hnotNil]
    rfl

end Tables

/-! ### The entries of the array part -/

section ArrayPart

variable {arraySize : Rawlen} {entries : List (Value Rawlen × Value Rawlen)}

variable {e : Value Rawlen × Value Rawlen}

theorem mem_arrayPart :
    e ∈ arrayPart arraySize entries ↔ ∃ i, 1 ≤ i ∧ i ≤ arraySize.val ∧
      (rawgeti entries i).isNil = false ∧ e = (integer (.ofNat 64 i), rawgeti entries i) := by
  unfold arrayPart
  rw [List.mem_filterMap]
  constructor
  · rintro ⟨i, hi, heq⟩
    rw [mem_range'_1] at hi
    split at heq
    · cases heq
    · next hnil =>
      refine ⟨i, hi.1, by omega, ?_, (Option.some.inj heq).symm⟩
      simpa using hnil
  · rintro ⟨i, hle, hi, hnil, rfl⟩
    refine ⟨i, mem_range'_1.2 (by omega), ?_⟩
    rw [if_neg (by rw [hnil]; exact Bool.false_ne_true)]

theorem isArrayKey_iff :
    isArrayKey arraySize key = true ↔ ∃ i, 1 ≤ i ∧ i ≤ arraySize.val ∧
      key = integer (.ofNat 64 i) := by
  have hsize := arraySize.isLt
  cases key with
  | integer v =>
    rw [isArrayKey, decide_eq_true_eq]
    constructor
    · rintro ⟨hpos, hle⟩
      have hnat := BitVec.toInt_eq_toNat_cond v
      refine ⟨v.toNat, by omega, by omega, ?_⟩
      rw [ofNat_toNat, setWidth_eq]
    · rintro ⟨i, hle, hi, heq⟩
      cases heq
      have hint : (BitVec.ofNat 64 i).toInt = i := by
        rw [toInt_eq_toNat_of_lt] <;> simp <;> omega
      omega
  | nil | boolean | float | string | lightuserdata | table => simp [isArrayKey]

theorem mem_arrayPart_iff (htable : IsTable entries) :
    e ∈ arrayPart arraySize entries ↔ e ∈ entries ∧ isArrayKey arraySize e.1 = true := by
  have hfind {e : Value Rawlen × Value Rawlen} {i : ℕ} (he : e ∈ entries)
      (hkey : e.1 = integer (.ofNat 64 i)) : rawgeti entries i = e.2 := by
    have hself : e.1.sameKey e.1 = true := by
      rw [hkey]
      exact decide_eq_true rfl
    have := htable.find? he
      (fun e' _ => by rw [hkey]) hself
    rw [rawgeti, this]
  rw [mem_arrayPart, isArrayKey_iff]
  constructor
  · rintro ⟨i, hle, hi, hnil, rfl⟩
    refine ⟨?_, i, hle, hi, rfl⟩
    unfold rawgeti at hnil ⊢
    split
    next e he =>
      have hsame : e.1.sameKey (integer (.ofNat 64 i) : Value Rawlen) = true :=
        List.find?_some (p := fun e : Value Rawlen × Value Rawlen =>
          e.1.sameKey (integer (.ofNat 64 i) : Value Rawlen)) he
      have hkey : e.1 = integer (.ofNat 64 i) := eq_of_sameKey hsame
      rw [← hkey]
      exact List.mem_of_find?_eq_some he
    next hnone =>
      rw [hnone] at hnil
      cases hnil
  · rintro ⟨he, i, hle, hi, hkey⟩
    refine ⟨i, hle, hi, ?_, ?_⟩
    · rw [hfind he hkey]
      exact htable.value e he
    · rw [hfind he hkey, ← hkey]

theorem nodup_arrayPart : (arrayPart arraySize entries).Nodup := by
  have hsize := arraySize.isLt
  unfold arrayPart List.Nodup
  rw [List.pairwise_filterMap]
  refine List.Pairwise.imp_of_mem (fun {i j} hi hj hlt e he e' he' => ?_)
    (List.pairwise_lt_range' 1)
  rw [mem_range'_1] at hi hj
  split at he
  · cases he
  split at he'
  · cases he'
  cases he
  cases he'
  intro heq
  have hne := congrArg BitVec.toNat (integer.inj (congrArg Prod.fst heq))
  simp only [toNat_ofNat] at hne
  omega

theorem perm_parts (htable : IsTable entries) :
    (arrayPart arraySize entries ++ hashPart arraySize entries).Perm entries := by
  have hnodup : (entries.filter (isArrayKey arraySize ·.1)).Nodup := by
    unfold List.Nodup
    rw [List.pairwise_filter]
    refine htable.distinct.imp fun {e e'} hdistinct hkey _ heq => ?_
    obtain ⟨i, -, -, hkey⟩ := isArrayKey_iff.1 hkey
    rw [← heq, hkey] at hdistinct
    have hself : (integer (.ofNat 64 i) : Value Rawlen).sameKey
        (integer (.ofNat 64 i) : Value Rawlen) = true := decide_eq_true rfl
    rw [hself] at hdistinct
    cases hdistinct
  have harray : (arrayPart arraySize entries).Perm (entries.filter (isArrayKey arraySize ·.1)) := by
    rw [List.perm_ext_iff_of_nodup nodup_arrayPart hnodup]
    intro e
    rw [mem_arrayPart_iff htable, List.mem_filter]
  exact (harray.append_right _).trans (List.filter_append_perm _ _)

end ArrayPart

/-! ### Values -/

variable {v : Value Rawlen}

theorem size_pos {n : ℕ} (h : Serialisable n v) : 0 < size n v := by
  have hinteger (v : BitVec 64) : 0 < integerSize v := by
    unfold integerSize
    split_ifs <;> omega
  have hstring (s : List UInt8) : 0 < stringSize s := by
    unfold stringSize
    split_ifs <;> omega
  cases n with
  | zero =>
    cases v with
    | integer v => exact hinteger v
    | string s => exact hstring s
    | table => exact h.elim
    | nil | boolean | float | lightuserdata => simp [size]
  | succ n =>
    cases v with
    | integer v => exact hinteger v
    | string s => exact hstring s
    | table => exact Nat.succ_pos _
    | nil | boolean | float | lightuserdata => simp [size]

theorem reads_value {fuel type cookie : ℕ} {bytes : List UInt8} {v : Value Unit} (htype : type < 8)
    (hcookie : cookie < 32) (h : Reads (pushValue (unpackOne fuel) fuel type cookie) bytes v) :
    Reads (unpackOne (fuel + 1)) (combineType type cookie :: bytes) v := by
  have hread := reads_readType (combineType type cookie)
  rw [splitType_combineType htype hcookie] at hread
  exact hread.bind h

theorem reads_scalar {n fuel : ℕ} (h : Serialisable n v)
    (hv : ∀ arraySize entries, v ≠ table arraySize entries) :
    Reads (unpackOne (fuel + 1)) (serialized n v) (copy n v) := by
  have hcopy : copy n v = copy 0 v := by
    cases n <;> cases v <;> first | rfl | exact absurd rfl (hv _ _)
  have hserialized : serialized n v = serialized 0 v := by
    cases n <;> cases v <;> first | rfl | exact absurd rfl (hv _ _)
  rw [hcopy, hserialized]
  cases v with
  | nil => exact reads_value (show typeNil < 8 by decide) (show 0 < 32 by decide) (.pure nil)
  | boolean b =>
    have hcookie : (if b then 1 else 0) < 32 := by split <;> decide
    refine reads_value (show typeBoolean < 8 by decide) hcookie ?_
    cases b <;> exact .pure _
  | integer v =>
    obtain ⟨cookie, bytes, heq, hlt, hreads⟩ := reads_getInteger v
    have hcookie : cookie < 32 := Nat.lt_trans hlt (by decide)
    have hne : cookie ≠ typeNumberReal := Nat.ne_of_lt hlt
    change Reads _ (integerBytes v) _
    rw [heq]
    refine reads_value (show typeNumber < 8 by decide) hcookie ?_
    have hread : Reads (getInteger cookie >>= fun v => return integer v) bytes
        (integer v : Value Unit) := hreads.map rfl
    exact hread.congr fun rb => congrFun (if_neg hne) rb
  | float bits =>
    refine reads_value (show typeNumber < 8 by decide) (show typeNumberReal < 32 by decide) ?_
    have hread : Reads getReal (LittleEndian.toBytes 8 bits.toNat) bits :=
      (Reads.readNumber _ _).map (congrArg _ (ofNat_ofBytes bits.isLt))
    exact hread.map rfl
  | string s =>
    have hlen : s.length < 2 ^ 31 := by cases n <;> exact h
    obtain ⟨type, cookie, bytes, heq, htype, hcookie, hreads⟩ := reads_string hlen
    change Reads _ (stringBytes s) _
    rw [heq]
    exact reads_value htype hcookie hreads
  | lightuserdata p =>
    refine reads_value (show typeUserdata < 8 by decide) (show 0 < 32 by decide) ?_
    have hread : Reads getPointer (LittleEndian.toBytes 8 p.toNat) p :=
      (Reads.readNumber _ _).map (congrArg _ (ofNat_ofBytes p.isLt))
    exact hread.map rfl
  | table arraySize entries => exact absurd rfl (hv _ _)

theorem reads_arraySize (arraySize : Rawlen) : ∃ cookie bytes,
    arraySizeBytes arraySize = combineType typeTable cookie :: bytes ∧ cookie < 32 ∧
      Reads (if cookie = maxCookie - 1 then getArraySize else pure (cookie : ℤ)) bytes
        (arraySize.val : ℤ) := by
  unfold arraySizeBytes
  split
  next => exact ⟨maxCookie - 1, _, rfl, by decide, reads_getArraySize arraySize⟩
  next hlt =>
    have hcookie : arraySize.val < maxCookie - 1 := Nat.lt_of_not_le hlt
    refine ⟨arraySize.val, [], rfl, Nat.lt_trans hcookie (by decide), ?_⟩
    rw [if_neg (Nat.ne_of_lt hcookie)]
    exact .pure _

theorem reads_unpackTable {one : Reading (Value Unit)} {fuel cookie : ℕ} {arraySize : ℕ}
    {header array hash : List UInt8} {entries entries' : Entries}
    (hsize : Reads (if cookie = maxCookie - 1 then getArraySize else pure (cookie : ℤ)) header
      (arraySize : ℤ))
    (harray : Reads (unpackArray one arraySize 1 []) array entries)
    (hhash : Reads (unpackHash one fuel entries) hash entries') :
    Reads (unpackTable one fuel cookie) (header ++ (array ++ hash)) (table () entries') := by
  have hcreate : Reads (createtable cookie) header (arraySize : ℤ) := by
    have hall := hsize.bind (f := fun arraySize => record (.table arraySize) >>= fun _ =>
      pure arraySize) ((Reads.record _).map rfl)
    rw [append_nil] at hall
    refine hall.congr fun rb => ?_
    unfold createtable
    split <;> rfl
  exact hcreate.bind (harray.bind (hhash.map rfl))

section ReadTable

variable {n fuel : ℕ} {arraySize : Rawlen} {entries : List (Value Rawlen × Value Rawlen)}

section

variable (h : Serialisable (n + 1) (table arraySize entries))
  (hone : ∀ v, Serialisable n v → size n v < fuel → Reads (unpackOne fuel) (serialized n v) (copy n v))
include h hone

/-- The array part of a table, when its elements are read back. -/
theorem reads_arrayPart
    (hfuel : ((List.range' 1 arraySize).map fun i => size n (rawgeti entries i)).sum < fuel) :
    Reads (unpackArray (unpackOne fuel) arraySize 1 [])
      ((List.range' 1 arraySize).flatMap fun i => serialized n (rawgeti entries i))
      ((arrayPart arraySize entries).map fun e => (copy n e.1, copy n e.2)) := by
  have hsize {i : ℕ} (hle : 1 ≤ i) (hi : i < 1 + arraySize.val) :
      size n (rawgeti entries i) < fuel := by
    have := List.le_sum_of_mem (List.mem_map_of_mem (f := fun i => size n (rawgeti entries i))
      (mem_range'_1.2 ⟨hle, hi⟩))
    omega
  have hall := reads_unpackArray (i := 1) (n := arraySize)
    (fun i hle hi => hone _ (h.rawgeti i) (hsize hle hi)) (by omega)
    fun e he => absurd he List.not_mem_nil
  rw [List.nil_append] at hall
  have hentries : ((arrayPart arraySize entries).map fun e => (copy n e.1, copy n e.2)) =
      (List.range' 1 arraySize).filterMap fun i =>
        if (copy n (rawgeti entries i)).isNil then none
        else some (integer (.ofNat 64 i), copy n (rawgeti entries i)) := by
    unfold arrayPart
    rw [List.map_filterMap]
    congr 1
    funext i
    rw [isNil_copy]
    split
    · rfl
    · rw [Option.map_some, copy_integer]
  rw [hentries]
  exact hall

/-- The other entries of a table, when their keys and values are read back. -/
theorem reads_hashPart (hpos : 1 < fuel)
    (hfuel : ((hashPart arraySize entries).map fun e => size n e.1 + size n e.2).sum < fuel) :
    Reads (unpackHash (unpackOne fuel) fuel
        ((arrayPart arraySize entries).map fun e => (copy n e.1, copy n e.2)))
      (((hashPart arraySize entries).flatMap fun e => serialized n e.1 ++ serialized n e.2) ++
        [UInt8.ofNat typeNil])
      ((arrayPart arraySize entries ++ hashPart arraySize entries).map fun e =>
        (copy n e.1, copy n e.2)) := by
  obtain ⟨htable, hentries⟩ := h
  have hpart {e : Value Rawlen × Value Rawlen} (he : e ∈ hashPart arraySize entries) :
      e ∈ entries ∧ size n e.1 < fuel ∧ size n e.2 < fuel := by
    have := List.le_sum_of_mem (List.mem_map_of_mem (f := fun e => size n e.1 + size n e.2) he)
    exact ⟨List.mem_of_mem_filter he, by omega, by omega⟩
  have hcount : (hashPart arraySize entries).length < fuel := by
    have hpos : ∀ i ∈ (hashPart arraySize entries).map fun e => size n e.1 + size n e.2, 1 ≤ i := by
      intro i hi
      obtain ⟨e, he, rfl⟩ := List.mem_map.1 hi
      exact Nat.le_add_right_of_le (size_pos (hentries e (hpart he).1).1)
    have := List.length_le_sum_of_one_le _ hpos
    rw [List.length_map] at this
    omega
  have hnil : Reads (unpackOne fuel) [UInt8.ofNat typeNil] nil := by
    have hnil : Serialisable n nil := by cases n <;> trivial
    have hsize : size n nil = 1 := by cases n <;> rfl
    have := hone nil hnil (by omega)
    cases n <;> exact this
  have hdistinct : (((arrayPart arraySize entries).map fun e => (copy n e.1, copy n e.2)) ++
      (hashPart arraySize entries).map fun e => (copy n e.1, copy n e.2)).Pairwise
        fun e e' => e.1.sameKey e'.1 = false := by
    rw [← List.map_append, List.pairwise_map]
    simp only [sameKey_copy]
    exact ((perm_parts htable).pairwise_iff fun {e e'} hne => by
      rw [sameKey_comm]
      exact hne).2 htable.distinct
  rw [List.map_append]
  exact reads_unpackHash
    (fun e he => hone _ (hentries e (hpart he).1).1 (hpart he).2.1)
    (fun e he => hone _ (hentries e (hpart he).1).2 (hpart he).2.2) hnil hcount
    (fun e he => isKey_copy (htable.isKey e (hpart he).1))
    (fun e he => (isNil_copy n e.2).trans (htable.value e (hpart he).1)) hdistinct

end

end ReadTable

theorem reads_unpackOne {n fuel : ℕ} (h : Serialisable n v) (hfuel : size n v < fuel) :
    Reads (unpackOne fuel) (serialized n v) (copy n v) := by
  induction n generalizing v fuel with
  | zero =>
    obtain ⟨fuel, rfl⟩ := Nat.exists_eq_succ_of_ne_zero (Nat.ne_of_gt (Nat.zero_lt_of_lt hfuel))
    exact reads_scalar h fun arraySize entries heq => by subst heq; exact h
  | succ n ih =>
    obtain ⟨fuel, rfl⟩ := Nat.exists_eq_succ_of_ne_zero (Nat.ne_of_gt (Nat.zero_lt_of_lt hfuel))
    by_cases hv : ∀ arraySize entries, v ≠ table arraySize entries
    · exact reads_scalar h hv
    simp only [not_forall, not_not] at hv
    obtain ⟨arraySize, entries, rfl⟩ := hv
    obtain ⟨cookie, header, hheader, hcookie, hsize⟩ := reads_arraySize arraySize
    rw [← length_serialized, serialized, hheader] at hfuel
    simp only [length_append, List.length_flatMap, List.length_cons, List.length_nil,
      length_serialized] at hfuel
    have hone : ∀ v, Serialisable n v → size n v < fuel →
        Reads (unpackOne fuel) (serialized n v) (copy n v) := fun v hv hlt => ih hv hlt
    have harray := reads_arrayPart h hone (by omega)
    have hhash := reads_hashPart h hone (by omega) (by omega)
    have hall := reads_value (show typeTable < 8 by decide) hcookie
      (reads_unpackTable hsize harray hhash)
    rw [serialized, hheader, copy]
    simpa using hall

theorem same_copy {n : ℕ} (h : Serialisable n v) : Same v (copy n v) := by
  induction n generalizing v with
  | zero =>
    cases v with
    | table => exact h.elim
    | nil | boolean | integer | float | string | lightuserdata => constructor
  | succ n ih =>
    cases v with
    | table arraySize entries =>
      have hzip : ∀ p ∈ entries.zip (entries.map fun e => (copy n e.1, copy n e.2)),
          p.1 ∈ entries ∧ p.2 = (copy n p.1.1, copy n p.1.2) := by
        intro p hp
        rw [List.zip_map_right, List.mem_map] at hp
        obtain ⟨⟨e, e'⟩, he, rfl⟩ := hp
        obtain ⟨i, hi, heq⟩ := List.mem_iff_getElem.1 he
        rw [List.getElem_zip] at heq
        cases heq
        exact ⟨List.getElem_mem _, rfl⟩
      refine .table (List.length_map _).symm (fun p hp => ?_) (fun p hp => ?_)
        ((perm_parts h.1).symm.map _)
      · rw [(hzip p hp).2]
        exact ih (h.2 p.1 (hzip p hp).1).1
      · rw [(hzip p hp).2]
        exact ih (h.2 p.1 (hzip p hp).1).2
    | nil | boolean | integer | float | string | lightuserdata => constructor

/-! ### Lists of values -/

theorem unpackAll_eq {values : List (Value Rawlen)} {read : List (Value Unit)} {fuel : ℕ}
    {rb : ReadBlock} (h : ∀ v ∈ values, Serialisable maxDepth v)
    (hfuel : (values.map (size maxDepth)).sum + 1 < fuel)
    (hat : rb.At (values.flatMap (serialized maxDepth))) :
    ∃ rb', unpackAll fuel read rb = .ok (read ++ values.map (copy maxDepth)) rb' := by
  induction values generalizing read fuel rb with
  | nil =>
    obtain ⟨fuel, rfl⟩ := Nat.exists_eq_succ_of_ne_zero (Nat.ne_of_gt (Nat.zero_lt_of_lt hfuel))
    obtain ⟨before, -, -, hlen⟩ := hat
    have hlt : rb.len < 1 := by
      rw [hlen]
      exact Int.zero_lt_one
    refine ⟨rb, ?_⟩
    rw [map_nil, append_nil]
    exact if_pos hlt
  | cons v values ih =>
    obtain ⟨fuel, rfl⟩ := Nat.exists_eq_succ_of_ne_zero (Nat.ne_of_gt (Nat.zero_lt_of_lt hfuel))
    rw [List.map_cons, List.sum_cons] at hfuel
    have hv := h v List.mem_cons_self
    have hpos := size_pos hv
    have hfirst : size maxDepth v < fuel := by omega
    obtain ⟨rb₁, heq, hat₁⟩ := reads_unpackOne hv hfirst rb _ hat
    have hothers : (values.map (size maxDepth)).sum + 1 < fuel := by omega
    obtain ⟨rb₂, heq₂⟩ := ih (fun v' hv' => h v' (mem_cons_of_mem _ hv')) hothers hat₁
    refine ⟨rb₂, ?_⟩
    have hlt : ¬rb.len < 1 := by
      obtain ⟨before, -, -, hlen⟩ := hat
      rw [hlen, List.flatMap_cons, length_append, length_serialized]
      omega
    rw [append_assoc] at heq₂
    refine (if_neg hlt).trans ?_
    change EStateM.bind (unpackOne fuel) _ rb = _
    rw [EStateM.bind, heq]
    exact heq₂

/-- `_luaseri_pack` succeeds, and `_luaseri_unpack` returns the same list. -/
def RoundTrips (values : List (Value Rawlen)) : Prop :=
  ∃ buffer values' rb, pack values = .ok buffer ∧ unpack buffer = .ok values' rb ∧
    List.Forall₂ Same values values'

/-- A list of values survives the way through the bytes exactly when there are fewer than 2 ^ 31 of
them. -/
theorem roundTrips_iff {values : List (Value Rawlen)} (h : ∀ v ∈ values, Serialisable maxDepth v) :
    RoundTrips values ↔ (values.map (size maxDepth)).sum < 2 ^ 31 := by
  have hpack := pack_eq h
  constructor
  · rintro ⟨buffer, -, -, heq, -, -⟩
    by_contra hge
    rw [if_neg hge, heq] at hpack
    cases hpack
  · intro hlt
    rw [if_pos hlt] at hpack
    have hlen : (values.flatMap (serialized maxDepth)).length =
        (values.map (size maxDepth)).sum := by
      simp only [List.length_flatMap, length_serialized]
    have hfuel : (values.map (size maxDepth)).sum + 1 <
        (values.flatMap (serialized maxDepth)).length + 2 := by omega
    obtain ⟨rb, heq⟩ := unpackAll_eq h hfuel (ReadBlock.at_init (by omega))
    refine ⟨_, _, rb, hpack, heq, ?_⟩
    rw [List.nil_append, List.forall₂_map_right_iff, List.forall₂_same]
    exact fun v hv => same_copy (h v hv)

/-- A table with a hole in its array part and a string as a key. -/
def mixedTable : Value Rawlen :=
  table 3 [(integer 1, boolean true), (integer 3, integer (-2)), (string [107], float 1)]

theorem serialisable_mixedTable : Serialisable maxDepth mixedTable := by
  refine ⟨⟨?_, ?_, ?_⟩, ?_⟩
  · simp [IsKey]
  · simp [isNil]
  · simp [sameKey]
  · simp [Serialisable]

theorem roundTrips_mixedTable :
    RoundTrips [mixedTable] ↔ ([mixedTable].map (size maxDepth)).sum < 2 ^ 31 :=
  roundTrips_iff fun v hv => by
    rw [List.mem_singleton.1 hv]
    exact serialisable_mixedTable

theorem size_string (h : s.length = 2 ^ 30) : size maxDepth (string s) = 5 + 2 ^ 30 := by
  change stringSize s = _
  rw [stringSize, h]
  rfl

theorem serialisable_string (h : s.length = 2 ^ 30) : Serialisable maxDepth (string s) := by
  change s.length < 2 ^ 31
  omega

/-- Two strings of 2 ^ 30 bytes are not packed: the `int` that counts the bytes overflows. -/
theorem long_strings_lost :
    ¬∀ values : List (Value Rawlen), (∀ v ∈ values, Serialisable maxDepth v) →
      RoundTrips values := by
  intro hall
  obtain ⟨s, hs⟩ : ∃ s : List UInt8, s.length = 2 ^ 30 :=
    ⟨List.replicate (2 ^ 30) 0, List.length_replicate⟩
  have hserialisable : ∀ v ∈ [string s, string s], Serialisable maxDepth v := by
    intro v hv
    have hv : v = string s := by simpa using hv
    rw [hv]
    exact serialisable_string hs
  have hpack := pack_eq hserialisable
  have hge : ¬([string s, string s].map (size maxDepth)).sum < 2 ^ 31 := by
    simp only [List.map_cons, map_nil, List.sum_cons, List.sum_nil, size_string hs]
    omega
  rw [if_neg hge] at hpack
  obtain ⟨buffer, -, -, heq, -, -⟩ := hall _ hserialisable
  rw [heq] at hpack
  cases hpack

end Mtask.LuaSeri
