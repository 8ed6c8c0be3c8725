import Mtask.Bson.Encode
import Mtask.Bson.Layout
import Mtask.Lib.Outcomes

/-!
# Documents

A document is its length, its elements one behind the other, and a zero; an element is its type, its
name with a zero behind it, and the bytes of its value. What `decode` makes of a document depends on
nothing else.
-/

namespace Mtask.Bson

open Lua Lua.Value Mongo Buffers
open List

/-! ### The bytes -/

/-- The bytes of an element. -/
def elementBytes (type : BsonType) (name data : List UInt8) : List UInt8 :=
  [type.code] ++ (name ++ [0]) ++ data

/-- The bytes of a document with these elements. -/
def documentBytes (elements : List UInt8) : List UInt8 :=
  int32Bytes (toInt (4 + (elements ++ [0]).length)) ++ (elements ++ [0])

theorem length_int32Bytes (v : ℤ) : (int32Bytes v).length = 4 := LittleEndian.length_toBytes 4 _

theorem length_elementBytes (type : BsonType) (name data : List UInt8) :
    (elementBytes type name data).length = 1 + (name.length + 1) + data.length := by
  simp only [elementBytes, length_append, length_singleton]

theorem length_documentBytes (elements : List UInt8) :
    (documentBytes elements).length = 4 + elements.length + 1 := by
  rw [documentBytes, length_append, length_int32Bytes, length_append,
    length_singleton, Nat.add_assoc]

/-- The bytes that a value can have, if it is not a document. -/
def Shape (data : List UInt8) : Layout → Prop
  | .fixed n => data.length = n
  | .sized more add =>
    0 ≤ more ∧ 0 ≤ toInt (int32At data 0 + add) ∧
      data.length = 4 + more + toInt (int32At data 0 + add)
  | .text => 0 < int32At data 0 ∧ data.length = 4 + int32At data 0
  | .cstrings => ∃ r1 r2, data = r1 ++ [0] ++ (r2 ++ [0]) ∧ 0 ∉ r1 ∧ 0 ∉ r2
  | .document => False

/-- An element, with its value. -/
structure Element where
  type : BsonType
  name : List UInt8
  data : List UInt8
  value : Value Unit

def Element.bytes (el : Element) : List UInt8 := elementBytes el.type el.name el.data

/-- The bytes of some elements. -/
def bytesOf (els : List Element) : List UInt8 := els.flatMap Element.bytes

/-- The entries for some elements, where a later one with the same name counts. -/
def entriesOf (array : Bool) (els : List Element) : Entries :=
  els.foldl (fun entries el => assign entries (elementKey array el.name) el.value) []

/-- The type of a document. -/
def documentType (array : Bool) : BsonType := if array then .array else .document

/-- The value that the bytes of an element stand for. -/
inductive Decodes : BsonType → List UInt8 → Value Unit → Prop
  | plain {type : BsonType} {data : List UInt8} (hdoc : decodeLayout type ≠ .document)
      (h : Shape data (decodeLayout type)) : Decodes type data (plainValue data type)
  | document (array : Bool) {els : List Element} (hnames : ∀ el ∈ els, 0 ∉ el.name)
      (hvalues : ∀ el ∈ els, Decodes el.type el.data el.value) :
      Decodes (documentType array) (documentBytes (bytesOf els)) (.table () (entriesOf array els))

/-! ### What the bytes say about the places -/

section Places

variable {block : List UInt8} {e v o : ℕ}

theorem slice_append {bytes bytes' : List UInt8} {n : ℕ} (hle : v + n ≤ block.length)
    (h : slice block v n = bytes ++ bytes') :
    slice block v bytes.length = bytes ∧ slice block (v + bytes.length) bytes'.length = bytes' := by
  have hn : n = bytes.length + bytes'.length := by
    rw [← length_append, ← h, length_slice hle]
  rw [hn, ← slice_append_slice] at h
  exact append_inj h (length_slice (by omega))

theorem skipCstring_eq_ok {s : List UInt8} (hs : 0 ∉ s)
    (hslice : slice block v (s ++ [0]).length = s ++ [0]) (hle : v + (s ++ [0]).length ≤ e) :
    skipCstring block e v = .ok (v + (s ++ [0]).length) := by
  have hsplit : e - v = (s ++ [0]).length + (e - v - (s ++ [0]).length) := by omega
  have hnone : s.findIdx? (· = 0) = none := by
    rw [findIdx?_eq_none_iff]
    intro c hc
    rw [decide_eq_false_iff_not]
    rintro rfl
    exact hs hc
  rw [slice] at hslice
  rw [skipCstring, drop_take, hsplit, take_add, hslice, append_assoc,
    findIdx?_append, hnone, singleton_append, findIdx?_cons, decide_eq_true rfl,
    length_append]
  change Except.ok (v + (0 + s.length + 1)) = _
  rw [Nat.zero_add]
  rfl

theorem ends_ok_iff {layout : Layout} (hlayout : layout ≠ .document) (he : e ≤ block.length) :
    layout.ends block e v = .ok o ↔ v ≤ o ∧ o ≤ e ∧ Shape (slice block v (o - v)) layout := by
  have hlength (hvo : v ≤ o) (hoe : o ≤ e) : (slice block v (o - v)).length = o - v :=
    length_slice (by omega)
  cases layout with
  | fixed n =>
    rw [Layout.ends, Shape]
    constructor
    · intro h
      obtain ⟨hn, rfl, hle⟩ := skip_ok h
      refine ⟨Nat.le_add_right _ _, by omega, ?_⟩
      rw [hlength (Nat.le_add_right _ _) (by omega)]
      omega
    · rintro ⟨hvo, hoe, h⟩
      rw [hlength hvo hoe] at h
      rw [skip_eq_ok (by omega) (by omega)]
      exact congrArg Except.ok (by omega)
  | sized more add =>
    rw [Layout.ends, Shape]
    constructor
    · intro h
      obtain ⟨o₁, hfour, h⟩ := Outcomes.bind_eq_ok.mp h
      obtain ⟨o₂, hmore, h⟩ := Outcomes.bind_eq_ok.mp h
      obtain ⟨-, rfl, -⟩ := skip_ok hfour
      obtain ⟨hpos, rfl, -⟩ := skip_ok hmore
      obtain ⟨hsize, ho, hle⟩ := skip_ok h
      have hvo : v ≤ o := by omega
      have hoe : o ≤ e := by omega
      rw [hlength hvo hoe, int32At_slice (by omega)]
      exact ⟨hvo, hoe, hpos, hsize, by omega⟩
    · rintro ⟨hvo, hoe, hpos, hsize, h⟩
      rw [hlength hvo hoe] at h
      have hfour : 4 ≤ o - v := by omega
      rw [int32At_slice hfour] at h hsize
      have hlast := skip_eq_ok (v := v + (4 : ℤ).toNat + more.toNat) hsize (show _ ≤ (e : ℤ) by omega)
      refine Outcomes.bind_eq_ok.mpr ⟨_, skip_eq_ok (by decide) (by omega),
        Outcomes.bind_eq_ok.mpr ⟨_, skip_eq_ok hpos (by omega), hlast.trans ?_⟩⟩
      exact congrArg Except.ok (by omega)
  | text =>
    rw [Layout.ends, Shape]
    constructor
    · intro h
      obtain ⟨o₁, hfour, h⟩ := Outcomes.bind_eq_ok.mp h
      obtain ⟨-, rfl, -⟩ := skip_ok hfour
      split_ifs at h with hpos
      obtain ⟨hsize, ho, hle⟩ := skip_ok h
      have hvo : v ≤ o := by omega
      have hoe : o ≤ e := by omega
      rw [hlength hvo hoe, int32At_slice (by omega)]
      exact ⟨hvo, hoe, by omega, by omega⟩
    · rintro ⟨hvo, hoe, hpos, h⟩
      rw [hlength hvo hoe] at h
      have hfour : 4 ≤ o - v := by omega
      rw [int32At_slice hfour] at h hpos
      have hlast := skip_eq_ok (v := v + (4 : ℤ).toNat) (Int.le_of_lt hpos) (show _ ≤ (e : ℤ) by omega)
      refine Outcomes.bind_eq_ok.mpr ⟨_, skip_eq_ok (by decide) (by omega), ?_⟩
      rw [if_neg (by omega), hlast]
      exact congrArg Except.ok (by omega)
  | cstrings =>
    rw [Layout.ends, Shape]
    constructor
    · intro h
      obtain ⟨o₁, hfirst, h⟩ := Outcomes.bind_eq_ok.mp h
      obtain ⟨hslice, hnot⟩ := slice_of_skipCstring hfirst
      obtain ⟨hslice', hnot'⟩ := slice_of_skipCstring h
      obtain ⟨hlt, -⟩ := skipCstring_ok hfirst
      obtain ⟨hlt', hle'⟩ := skipCstring_ok h
      have hn : o - v = o₁ - v + (o - o₁) := by omega
      have ho : v + (o₁ - v) = o₁ := by omega
      refine ⟨by omega, hle', _, _, ?_, hnot, hnot'⟩
      rw [hn, ← slice_append_slice, ho, hslice, hslice']
    · rintro ⟨hvo, hoe, r1, r2, h, hr1, hr2⟩
      have hn : o - v = (r1 ++ [0]).length + (r2 ++ [0]).length := by
        rw [← length_append, ← h, hlength hvo hoe]
      obtain ⟨hslice, hslice'⟩ := slice_append (by omega) h
      have hfirst := skipCstring_eq_ok hr1 hslice (show _ ≤ e by omega)
      have hsecond := skipCstring_eq_ok hr2 hslice' (show _ ≤ e by omega)
      rw [hfirst]
      change skipCstring block e _ = _
      rw [hsecond]
      exact congrArg Except.ok (by omega)
  | document => exact absurd rfl hlayout

end Places

/-! ### From the bytes to the value -/

section Read

variable {block : List UInt8} {e v o : ℕ}

/-- What is done with some elements from a place on; the place of each value counts. -/
def overElements {σ : Type} (step : Element → ℕ → σ → σ) : ℕ → List Element → σ → σ
  | _, [], s => s
  | o, el :: els, s =>
    overElements step (o + el.bytes.length) els (step el (o + 1 + (el.name.length + 1)) s)

variable {els : List Element} {fuel : ℕ}

/-- **The loop over the elements**, if it is known what is done with each. -/
theorem runs_elements {σ : Type} {body : BsonType → List UInt8 → σ → Reading σ}
    {step : Element → ℕ → σ → σ} {els : List Element} (he : e ≤ block.length)
    (hnames : ∀ el ∈ els, 0 ∉ el.name)
    (hbody : ∀ el ∈ els, ∀ v s, 0 < v → v + el.data.length ≤ e →
      slice block v el.data.length = el.data →
      Runs block e (body el.type el.name s) v (.ok (v + el.data.length)) (step el v s = ·))
    {fuel : ℕ} (hslice : slice block o (e - o) = bytesOf els) (ho : o ≤ e)
    (hfuel : els.length < fuel) (s : σ) :
    Runs block e (forElements body fuel s) o (.ok e) (overElements step o els s = ·) := by
  induction els generalizing o fuel s with
  | nil =>
    obtain ⟨fuel, rfl⟩ := Nat.exists_eq_add_one_of_ne_zero (Nat.ne_of_gt hfuel)
    have hlength := congrArg List.length hslice
    rw [length_slice (by omega)] at hlength
    obtain rfl : o = e := Nat.le_antisymm ho (Nat.le_of_sub_eq_zero hlength)
    rw [forElements]
    refine runs_get ?_
    rw [if_pos (show (place block o o).size = 0 from Int.sub_self _)]
    exact .pure ho rfl
  | cons el els ih =>
    obtain ⟨fuel, rfl⟩ := Nat.exists_eq_add_one_of_ne_zero (Nat.ne_of_gt (Nat.zero_lt_of_lt hfuel))
    have hlength : e - o = el.bytes.length + (bytesOf els).length := by
      rw [← length_slice (show o + (e - o) ≤ block.length by omega), hslice, bytesOf,
        flatMap_cons, length_append]
      rfl
    have hel : el.bytes.length = 1 + (el.name.length + 1) + el.data.length :=
      length_elementBytes _ _ _
    obtain ⟨hbytes, hrest⟩ := slice_append (show o + (e - o) ≤ _ by omega) hslice
    obtain ⟨hhead, hdata⟩ := slice_append (by omega) hbytes
    obtain ⟨hcode, hname⟩ := slice_append (by
      rw [length_append, length_append, length_singleton, length_singleton]
      omega) hhead
    rw [length_append, length_append, length_singleton, length_singleton] at hdata
    have hsize : ¬(place block e o).size = 0 := by
      simp only [place]
      omega
    have hbyte := runs_readByte (v := o) he
    rw [skip_one (show o < e by omega)] at hbyte
    have hkey := skipCstring_eq_ok (hnames el mem_cons_self) hname (show _ ≤ e by
      simp only [length_append, length_singleton]
      omega)
    rw [forElements]
    refine runs_get ?_
    rw [if_neg hsize]
    refine hbyte.bind_ok fun bt hbt _ _ => ?_
    have hcstring := runs_readCstring (v := o + 1) (e := e) (by omega) he
    rw [length_singleton] at hkey
    rw [hkey] at hcstring
    refine hcstring.bind_ok fun key hkey' _ _ => ?_
    have htype : BsonType.ofCode bt = some el.type := by
      rw [← hbt, ← BsonType.ofCode_code el.type]
      exact congrArg (fun l => BsonType.ofCode (List.headD l 0)) hcode
    have hn : o + 1 + (el.name ++ [0]).length - (o + 1 + 1) = el.name.length := by
      rw [length_append, length_singleton]
      omega
    have hkeyname : key = el.name := by
      rw [hkey' _ rfl, hn]
      exact (slice_append (by
        simp only [length_append, length_singleton]
        omega) hname).1
    have hplace : o + 1 + (el.name ++ [0]).length = o + 1 + (el.name.length + 1) := by
      rw [length_append, length_singleton]
    rw [hkeyname, htype, hplace]
    have hplace' : o + (1 + (el.name.length + 1)) = o + 1 + (el.name.length + 1) := by omega
    rw [hplace'] at hdata
    refine (hbody el mem_cons_self _ s (by omega) (by omega) hdata).bind_ok fun s' hs' _ _ => ?_
    have hnext : o + 1 + (el.name.length + 1) + el.data.length = o + el.bytes.length := by omega
    have hlast : slice block (o + el.bytes.length) (e - (o + el.bytes.length)) = bytesOf els := by
      have hn : e - (o + el.bytes.length) = (bytesOf els).length := by omega
      rw [hn]
      exact hrest
    rw [hnext, overElements, hs']
    exact ih (fun el' hel' => hnames el' (mem_cons_of_mem _ hel'))
      (fun el' hel' => hbody el' (mem_cons_of_mem _ hel')) hlast (by omega)
      (Nat.lt_of_succ_lt_succ hfuel) s'

/-- What is done with the elements of a table. -/
theorem overElements_assign (array : Bool) (els : List Element) (o : ℕ) (s : Entries) :
    overElements (fun el _ entries => assign entries (elementKey array el.name) el.value) o els s =
      els.foldl (fun entries el => assign entries (elementKey array el.name) el.value) s := by
  induction els generalizing o s with
  | nil => rfl
  | cons el els ih => rw [overElements, ih, foldl_cons]

theorem int32At_eq {n : ℤ} (h : slice block v 4 = int32Bytes n) : int32At block v = toInt n := by
  have hlt : (BitVec.ofInt 32 n).toNat < 256 ^ 4 := (BitVec.ofInt 32 n).isLt
  have hcast : (((BitVec.ofInt 32 n).toNat : ℕ) : ℤ) = n % 2 ^ 32 := by
    rw [BitVec.toNat_ofInt]
    exact Int.toNat_of_nonneg (Int.emod_nonneg n (by decide))
  rw [int32At, h, int32Bytes, LittleEndian.ofBytes_toBytes hlt, hcast, toInt, toInt,
    Int.emod_emod_of_dvd n (Int.dvd_refl _)]

theorem int32At_document {elements : List UInt8}
    (h : slice block v 4 = int32Bytes (toInt (4 + (elements ++ [0]).length)))
    (hlt : elements.length + 5 < 2 ^ 31) : int32At block v = elements.length + 5 := by
  have hn : (4 + (elements ++ [0]).length : ℤ) = elements.length + 5 := by
    simp only [length_append, length_singleton]
    omega
  have hin : toInt (elements.length + 5) = elements.length + 5 :=
    toInt_of_range (by omega) (by omega)
  rw [int32At_eq h, hn, hin, hin]

variable {array : Bool}

theorem runs_document (he : e ≤ block.length) (hlength : block.length < 2 ^ 31)
    (hslice : slice block v (documentBytes (bytesOf els)).length = documentBytes (bytesOf els))
    (hle : v + (documentBytes (bytesOf els)).length ≤ e)
    (hloop : Runs block (v + 4 + (bytesOf els).length)
      (forElements (unpackElement (unpackDict fuel) array) fuel []) (v + 4)
      (.ok (v + 4 + (bytesOf els).length)) (entriesOf array els = ·)) :
    Runs block e (unpackDict (fuel + 1) array) v (.ok (v + (documentBytes (bytesOf els)).length))
      (.table () (entriesOf array els) = ·) := by
  have hlength' := length_documentBytes (bytesOf els)
  obtain ⟨hint, hrest⟩ := slice_append (by omega) hslice
  rw [length_int32Bytes] at hint hrest
  obtain ⟨-, hzero⟩ := slice_append (by
    simp only [length_append, length_singleton]
    omega) hrest
  have hsz := int32At_document hint (by omega)
  have hsize : toInt (int32At block v - 5) = (bytesOf els).length := by
    rw [hsz, Int.add_sub_cancel, toInt_of_range (by omega) (by omega)]
  have hfour := runs_readInt32 (v := v) he
  rw [skip_eq_ok (by decide) (by omega)] at hfour
  have hbytes : Runs block e (readBytes (bytesOf els).length) (v + 4) _ (v + 4 = ·) :=
    runs_readBytes _
  rw [skip_eq_ok (Int.natCast_nonneg _) (by omega), Int.toNat_natCast] at hbytes
  have hbyte := runs_readByte (v := v + 4 + (bytesOf els).length) he
  rw [length_singleton] at hzero
  rw [skip_one (by omega), hzero] at hbyte
  have hend : v + 4 + (bytesOf els).length + 1 = v + (documentBytes (bytesOf els)).length := by omega
  simp only [unpackDict]
  refine hfour.bind_ok fun sz hsz' _ _ => ?_
  rw [← hsz', hsize]
  refine hbytes.bind_ok fun ptr hptr _ _ => ?_
  rw [← hptr]
  refine hbyte.bind_ok fun last hlast _ _ => ?_
  rw [← hlast, if_neg (show ¬([0] : List UInt8).headD 0 ≠ 0 from not_not.mpr rfl), hend]
  have hwithin : Runs block e (within (v + 4) (bytesOf els).length
      (forElements (unpackElement (unpackDict fuel) array) fuel []))
      (v + (documentBytes (bytesOf els)).length) _ (entriesOf array els = ·) :=
    runs_within hle (Int.natCast_nonneg _) (by rw [Int.toNat_natCast]; exact hloop)
  exact hwithin.map fun entries h => congrArg _ h

theorem length_le_bytesOf (els : List Element) : els.length ≤ (bytesOf els).length := by
  induction els with
  | nil => exact Nat.le_refl 0
  | cons el els ih =>
    have hel : el.bytes.length = 1 + (el.name.length + 1) + el.data.length :=
      length_elementBytes _ _ _
    rw [bytesOf] at ih
    rw [bytesOf, flatMap_cons, length_append, length_cons]
    omega

theorem length_data_le {el : Element} (h : el ∈ els) : el.data.length ≤ (bytesOf els).length := by
  obtain ⟨before, after, rfl⟩ := append_of_mem h
  have hel : el.bytes.length = 1 + (el.name.length + 1) + el.data.length :=
    length_elementBytes _ _ _
  rw [bytesOf, flatMap_append, flatMap_cons, length_append, length_append]
  omega

theorem unpackValue_documentType (nested : Bool → Reading (Value Unit)) (array : Bool) :
    unpackValue nested (documentType array) = nested array := by
  cases array <;> rfl

/-- The rule for a document whose elements are read. -/
theorem runs_unpackDict_of (he : e ≤ block.length) (hlength : block.length < 2 ^ 31)
    (hnames : ∀ el ∈ els, 0 ∉ el.name)
    (hvalues : ∀ el ∈ els, ∀ {e v fuel : ℕ}, e ≤ block.length → 0 < v →
      slice block v el.data.length = el.data → v + el.data.length ≤ e → el.data.length ≤ fuel →
      Runs block e (unpackValue (unpackDict fuel) el.type) v (.ok (v + el.data.length)) (el.value = ·))
    (hslice : slice block v (documentBytes (bytesOf els)).length = documentBytes (bytesOf els))
    (hle : v + (documentBytes (bytesOf els)).length ≤ e)
    (hfuel : (documentBytes (bytesOf els)).length ≤ fuel) :
    Runs block e (unpackDict fuel array) v (.ok (v + (documentBytes (bytesOf els)).length))
      (.table () (entriesOf array els) = ·) := by
  have hlength' := length_documentBytes (bytesOf els)
  have hcount := length_le_bytesOf els
  obtain ⟨fuel, rfl⟩ : ∃ fuel', fuel = fuel' + 1 := ⟨fuel - 1, by omega⟩
  obtain ⟨-, hrest⟩ := slice_append (by omega) hslice
  obtain ⟨helements, -⟩ := slice_append (by
    simp only [length_int32Bytes, length_append, length_singleton]
    omega) hrest
  rw [length_int32Bytes] at helements
  refine runs_document he hlength hslice hle ?_
  have helements' : slice block (v + 4) (v + 4 + (bytesOf els).length - (v + 4)) = bytesOf els := by
    rw [Nat.add_sub_cancel_left]
    exact helements
  have hbody (el : Element) (hel : el ∈ els) (v' : ℕ) (entries : Entries) (hpos : 0 < v')
      (hle' : v' + el.data.length ≤ v + 4 + (bytesOf els).length)
      (hdata : slice block v' el.data.length = el.data) :
      Runs block (v + 4 + (bytesOf els).length) (unpackElement (unpackDict fuel) array el.type el.name
        entries) v' (.ok (v' + el.data.length))
        (assign entries (elementKey array el.name) el.value = ·) := by
    have hdata' := length_data_le hel
    exact (hvalues el hel (by omega) hpos hdata hle' (by omega)).map fun value h => by rw [h]
  have hruns := runs_elements (by omega) hnames hbody helements' (by omega) (show _ < fuel by omega) []
  rw [overElements_assign] at hruns
  exact hruns

/-- **The bytes of a value are read wherever they are.** -/
theorem Decodes.runs {type : BsonType} {data : List UInt8} {a : Value Unit}
    (h : Decodes type data a) (hlength : block.length < 2 ^ 31) (he : e ≤ block.length)
    (hpos : 0 < v) (hslice : slice block v data.length = data) (hle : v + data.length ≤ e)
    (hfuel : data.length ≤ fuel) :
    Runs block e (unpackValue (unpackDict fuel) type) v (.ok (v + data.length)) (a = ·) := by
  induction h generalizing e v fuel with
  | @plain type data hdoc hshape =>
    have hsub : v + data.length - v = data.length := by omega
    have hends : (decodeLayout type).ends block e v = .ok (v + data.length) := by
      refine (ends_ok_iff hdoc he).mpr ⟨Nat.le_add_right _ _, hle, ?_⟩
      rw [hsub, hslice]
      exact hshape
    have hruns := runs_unpackValue (unpackDict fuel) he hlength hpos (by omega) type hdoc
    rw [hends] at hruns
    refine hruns.mono fun a ha => ?_
    rw [ha _ rfl, hsub, hslice]
  | @document array els hnames hvalues ih =>
    rw [unpackValue_documentType]
    exact runs_unpackDict_of he hlength hnames
      (fun el hel _ _ _ he' hpos' hslice' hle' => ih el hel he' hpos' hslice' hle') hslice hle hfuel

theorem ldecode_documentBytes (hnames : ∀ el ∈ els, 0 ∉ el.name)
    (hvalues : ∀ el ∈ els, Decodes el.type el.data el.value)
    (hlength : (documentBytes (bytesOf els)).length < 2 ^ 31) :
    ∃ br, ldecode (documentBytes (bytesOf els)) = .ok (.table () (entriesOf false els)) br := by
  have hlength' := length_documentBytes (bytesOf els)
  have hruns : Runs (documentBytes (bytesOf els)) (documentBytes (bytesOf els)).length
      (unpackDict ((documentBytes (bytesOf els)).length + 1) false) 0 _ _ :=
    runs_unpackDict_of (Nat.le_refl _) hlength hnames
      (fun el hel _ _ _ he hpos hslice hle => (hvalues el hel).runs hlength he hpos hslice hle)
      slice_self (by omega) (Nat.le_succ _)
  have hlen : getLength (documentBytes (bytesOf els)) = (documentBytes (bytesOf els)).length := by
    have hint : slice (documentBytes (bytesOf els)) 0 4 = int32Bytes _ := take_left' (length_int32Bytes _)
    rw [getLength, int32At_document hint (by omega)]
    omega
  have hplace : (⟨documentBytes (bytesOf els), 0, getLength (documentBytes (bytesOf els))⟩ : BsonReader) =
      place (documentBytes (bytesOf els)) (documentBytes (bytesOf els)).length 0 := by
    rw [hlen, place, show ((0 : ℕ) : ℤ) = 0 from rfl, Int.sub_zero]
  rw [ldecode, hplace, hruns.eq_ok]
  exact ⟨_, rfl⟩

end Read

end Mtask.Bson
