import Mathlib.Data.BitVec
import Mtask.Sharedata.Conversion

/-!
# Shared objects mirror their tables

The object of a table whose keys are integers of an `int` and strings, here and in the tables in it,
is read like the table. All other tables that `sharedata.core.new` does not refuse have a key that
the object does not have.
-/

namespace Mtask.Sharedata

open Lua Lua.Value LuaSeri ChainedSlots
open List (getD_eq_getElem?_getD mem_cons mem_map mem_of_getElem?)
open BitVec (eq_of_toNat_eq toNat_ofNat toNat_setWidth)

/-- The keys of the table, and of the tables in it, are keys of objects. -/
inductive Representable : Value Rawlen → Prop
  | scalar {v : Value Rawlen} (h : ∀ sizearray entries, v ≠ .table sizearray entries) :
      Representable v
  | table {sizearray : Rawlen} {entries : Entries} (hkeys : ∀ e ∈ entries, Fits e.1)
      (hvalues : ∀ e ∈ entries, Representable e.2) : Representable (.table sizearray entries)

/-- The keys that `nextkey` returns one after the other, behind the given one. -/
def Iterates (tbl : Table) : Option (Value Rawlen) → List (Value Rawlen) → Prop
  | key, [] => lnextkey tbl key = .ok none
  | key, k :: keys => lnextkey tbl key = .ok (some k) ∧ Iterates tbl (some k) keys

/-- What is read from the object is what the table has. -/
inductive Mirrors : Pushed → Value Rawlen → Prop
  | nil : Mirrors .nil .nil
  | boolean (b : Bool) : Mirrors (.boolean b) (.boolean b)
  | integer (i : BitVec 64) : Mirrors (.integer i) (.integer i)
  | float (bits : BitVec 64) : Mirrors (.float bits) (.float bits)
  | string (s : List UInt8) : Mirrors (.string s) (.string s)
  | table {tbl : Table} {sizearray : Rawlen} {entries : Entries} (hlen : llen tbl = sizearray)
      (hfilled : ∀ i < tbl.hash.length, slotAt tbl.hash i ≠ none)
      (hindex : ∀ key, Fits key → ∃ found, lindexconf tbl key = .ok found)
      (hvalue : ∀ key found, Fits key → lindexconf tbl key = .ok found →
        Mirrors (found.getD .nil) (rawget entries key))
      (hnext : ∃ keys, Iterates tbl none keys ∧ keys.Perm (entries.map Prod.fst)) :
      Mirrors (.table tbl) (.table sizearray entries)

variable {value : Value Rawlen}

theorem eq_nil_of_mirrors (h : Mirrors .nil value) : value = nil := by
  cases h
  rfl

/-- The value stands for that of a table, whatever strings are added. -/
def Stands (strings : Strings) (v : ConfValue) (value : Value Rawlen) : Prop :=
  Representable value → ∀ strings', strings <+: strings' → strings'.Nodup →
    ∃ p, pushvalue strings' v = .ok p ∧ Mirrors p value

theorem keepsStanding : KeepsStanding Stands := fun _ _ _ _ hle h hrep strings' hle' hnodup =>
  h hrep strings' (hle.trans hle') hnodup

/-! ### Keys of objects -/

theorem Fits.sameKey_self {key : Value Rawlen} (h : Fits key) : key.sameKey key = true := by
  cases key with
  | integer i => exact decide_eq_true rfl
  | string s => exact decide_eq_true rfl
  | nil | boolean | float | lightuserdata | table => exact h.elim

theorem Fits.normalize {key : Value Rawlen} (h : Fits key) : normalize key = key := by
  cases key with
  | integer i => rfl
  | string s => rfl
  | nil | boolean | float | lightuserdata | table => exact h.elim

variable {i : ℕ}

theorem Fits.of_inl {key : Value Rawlen} (h : Fits key) {sizearray : Rawlen}
    (hkey : hashkey sizearray key = .inl i) : key = integer (.ofNat 64 i) := by
  cases key with
  | integer k =>
    have hkey : numberKey sizearray (k.setWidth 32) = .inl i := hkey
    obtain ⟨-, hle, heq⟩ := numberKey_inl hkey
    have hsize := sizearray.isLt
    have hfits : (k.setWidth 32).signExtend 64 = k := h
    have hmsb : (BitVec.ofNat 32 i).msb = false := by
      rw [BitVec.msb_eq_false_iff_two_mul_lt, toNat_ofNat]
      omega
    rw [heq, BitVec.signExtend_eq_setWidth_of_msb_false hmsb] at hfits
    rw [← hfits]
    congr 1
    apply eq_of_toNat_eq
    simp only [toNat_setWidth, toNat_ofNat]
    omega
  | string s => cases hkey
  | nil | boolean | float | lightuserdata | table => exact h.elim

theorem toInt_ofNat_of_lt {w : ℕ} (h : 2 * i < 2 ^ w) : (BitVec.ofNat w i).toInt = i := by
  have hlt : i < 2 ^ w := by omega
  rw [BitVec.toInt_eq_toNat_of_lt] <;> rw [toNat_ofNat, Nat.mod_eq_of_lt hlt]
  exact h

theorem hashkey_ofNat {sizearray : Rawlen} (hpos : 0 < i) (hle : i ≤ sizearray.val) :
    hashkey sizearray (integer (.ofNat 64 i)) = .inl i := by
  have hsize := sizearray.isLt
  have hword : (BitVec.ofNat 64 i).setWidth 32 = BitVec.ofNat 32 i := by
    apply eq_of_toNat_eq
    simp only [toNat_setWidth, toNat_ofNat]
    omega
  have hint : (BitVec.ofNat 32 i).toInt = i := toInt_ofNat_of_lt (by omega)
  change numberKey _ ((BitVec.ofNat 64 i).setWidth 32) = _
  rw [hword, numberKey, if_pos (by omega)]
  congr 1
  simp only [toNat_ofNat]
  omega

theorem fits_ofNat {sizearray : Rawlen} (hle : i ≤ sizearray.val) :
    Fits (integer (.ofNat 64 i)) := by
  have hsize := sizearray.isLt
  change ((BitVec.ofNat 64 i).setWidth 32).signExtend 64 = .ofNat 64 i
  have hword : (BitVec.ofNat 64 i).setWidth 32 = BitVec.ofNat 32 i := by
    apply eq_of_toNat_eq
    simp only [toNat_setWidth, toNat_ofNat]
    omega
  have hmsb : (BitVec.ofNat 32 i).msb = false := by
    rw [BitVec.msb_eq_false_iff_two_mul_lt, toNat_ofNat]
    omega
  rw [hword, BitVec.signExtend_eq_setWidth_of_msb_false hmsb]
  apply eq_of_toNat_eq
  simp only [toNat_setWidth, toNat_ofNat]
  omega

/-- A key is determined by what is looked for. -/
theorem Fits.inj {key key' : Value Rawlen} (h : Fits key) (h' : Fits key') {sizearray : ℕ}
    {q : Query} {hash hash' : ℕ} (hkey : hashkey sizearray key = .inr (q, hash))
    (hkey' : hashkey sizearray key' = .inr (q, hash')) : key = key' := by
  have hquery {key : Value Rawlen} {q : Query} {hash : ℕ} (h : Fits key)
      (hkey : hashkey sizearray key = .inr (q, hash)) :
      (∃ i, key = integer i ∧ q = .integer (i.setWidth 32)) ∨
        ∃ s, key = string s ∧ q = .string s := by
    cases key with
    | integer i =>
      have hkey : numberKey sizearray (i.setWidth 32) = .inr (q, hash) := hkey
      unfold numberKey at hkey
      split at hkey
      · cases hkey
      · cases hkey
        exact .inl ⟨i, rfl, rfl⟩
    | string s =>
      cases hkey
      exact .inr ⟨s, rfl, rfl⟩
    | nil | boolean | float | lightuserdata | table => exact h.elim
  rcases hquery h hkey with ⟨i, rfl, rfl⟩ | ⟨s, rfl, rfl⟩ <;>
    rcases hquery h' hkey' with ⟨i', rfl, heq⟩ | ⟨s', rfl, heq⟩
  · have hi : (i.setWidth 32).signExtend 64 = i := h
    have hi' : (i'.setWidth 32).signExtend 64 = i' := h'
    rw [← hi, ← hi', Query.integer.inj heq]
  · cases heq
  · cases heq
  · rw [Query.string.inj heq]

theorem Fits.argument {key : Value Rawlen} (h : Fits key) (tbl : Table) :
    argument tbl key = .ok (hashkey tbl.array.length key) := by
  cases key with
  | integer i =>
    change _ = Except.ok (numberKey tbl.array.length (i.setWidth 32))
    unfold Sharedata.argument numberKey
    by_cases hcond : 0 < (i.setWidth 32).toInt ∧ (i.setWidth 32).toInt ≤ tbl.array.length
    · simp only [if_pos hcond]
    · simp only [if_neg hcond]
  | string s => rfl
  | nil | boolean | float | lightuserdata | table => exact h.elim

section Rawget

variable {entries : Entries} {key : Value Rawlen}

variable {e : Value Rawlen × Value Rawlen}

theorem rawget_of_mem (htable : IsTable entries) (hkey : Fits key) (he : e ∈ entries)
    (heq : e.1 = key) : rawget entries key = e.2 := by
  subst heq
  have hfind := htable.find? he (fun _ _ => rfl) hkey.sameKey_self
  rw [rawget, hkey.normalize, hfind]

theorem rawget_of_not_mem (hkey : Fits key) (hne : ∀ e ∈ entries, e.1 ≠ key) :
    rawget entries key = nil := by
  have hnone : entries.find? (·.1.sameKey key) = none := by
    rw [List.find?_eq_none]
    exact fun e he hsame => hne e he (eq_of_sameKey hsame)
  rw [rawget, hkey.normalize, hnone]

theorem index_inj (htable : IsTable entries) {m m' : ℕ}
    {e e' : Value Rawlen × Value Rawlen} (he : entries[m]? = some e)
    (he' : entries[m']? = some e') (hkey : Fits e.1) (heq : e.1 = e'.1) : m = m' := by
  obtain ⟨hm, rfl⟩ := List.getElem?_eq_some_iff.1 he
  obtain ⟨hm', rfl⟩ := List.getElem?_eq_some_iff.1 he'
  have hself := hkey.sameKey_self
  have hdistinct := List.pairwise_iff_getElem.1 htable.distinct
  rcases Nat.lt_trichotomy m m' with hlt | rfl | hlt
  · have := hdistinct m m' hm hm' hlt
    rw [← heq, hself] at this
    cases this
  · rfl
  · have := hdistinct m' m hm' hm hlt
    rw [← heq, hself] at this
    cases this

end Rawget

/-! ### The object of a table -/

/-- The object has a value for every entry: in the array part, or in a node. -/
structure Holds (tbl : Table) (sizearray : Rawlen) (entries : Entries) (chain : ℕ → List ℕ)
    (item : ℕ → ℕ) : Prop where
  isTable : IsTable entries
  fits : ∀ e ∈ entries, Fits e.1
  strings : tbl.strings.Nodup
  length : tbl.array.length = sizearray
  array : ∀ i < sizearray.val,
    (∃ e ∈ entries, e.1 = integer (.ofNat 64 (i + 1)) ∧ ∃ v p, tbl.array[i]? = some v ∧
      pushvalue tbl.strings v = .ok p ∧ Mirrors p e.2) ∨
    ((∀ e ∈ entries, e.1 ≠ integer (.ofNat 64 (i + 1))) ∧ tbl.array[i]? = some .nil)
  chains : Chains tbl.hash chain
  node : ∀ {j s}, slotAt tbl.hash j = some s → ∃ e q p, entries[item j]? = some e ∧
    hashkey sizearray e.1 = .inr (q, s.hash) ∧ sameKey tbl.strings s.key q = true ∧
    pushvalue tbl.strings s.value = .ok p ∧ Mirrors p e.2
  inj : ∀ {i j s s'}, slotAt tbl.hash i = some s → slotAt tbl.hash j = some s' →
    item i = item j → i = j
  all : ∀ {m e p}, entries[m]? = some e → hashkey sizearray e.1 = .inr p →
    ∃ j s, slotAt tbl.hash j = some s ∧ item j = m
  full : ∀ i < tbl.hash.length, slotAt tbl.hash i ≠ none

/-- With keys of objects, an entry with the key of the first one at its main position is that one.
-/
theorem first_or_linked {sizearray : Rawlen} {entries : Entries} (htable : IsTable entries)
    (hfits : ∀ e ∈ entries, Fits e.1) {m : ℕ} (h : (hashAt sizearray entries m).isSome) :
    First sizearray entries m ∨ Linked sizearray entries m := by
  by_cases hsame : SameAsFirst sizearray entries m
  · left
    obtain ⟨p, m₀, p₀, hp, hfirst, hp₀, -, hq⟩ := hsame
    have hentry {m : ℕ} {p : Query × ℕ} (hp : hashAt sizearray entries m = some p) :
        ∃ e, entries[m]? = some e ∧ hashkey sizearray e.1 = .inr p := by
      obtain ⟨e, he, hkey⟩ := Option.bind_eq_some_iff.1 hp
      cases hcase : hashkey sizearray e.1 with
      | inl i =>
        rw [hcase] at hkey
        cases hkey
      | inr p' =>
        rw [hcase] at hkey
        cases hkey
        exact ⟨e, he, hcase⟩
    obtain ⟨e, he, hkey⟩ := hentry hp
    obtain ⟨e₀, he₀, hkey₀⟩ := hentry hp₀
    obtain ⟨q, hash⟩ := p
    obtain ⟨q₀, hash₀⟩ := p₀
    obtain rfl : q₀ = q := hq
    have hfit := hfits e (mem_of_getElem? he)
    have hfit₀ := hfits e₀ (mem_of_getElem? he₀)
    have heq : m₀ = m := index_inj htable he₀ he hfit₀ (hfit₀.inj hfit hkey₀ hkey)
    exact heq ▸ hfirst
  · exact .inr ⟨h, hsame⟩

/-- With keys of objects, what is counted goes to the hash part. -/
theorem hashSize_eq {sizearray : Rawlen} {entries : Entries} (hfits : ∀ e ∈ entries, Fits e.1) :
    ((List.range entries.length).filter
      fun k => (hashAt sizearray entries k).isSome).length = hashSize sizearray entries := by
  have hcount := length_filter_range entries fun e =>
    (e.bind fun e => (hashkey sizearray e.1).getRight?).isSome
  refine hcount.trans (List.countP_congr fun e he => ?_)
  have hfit := hfits e he
  rw [Option.bind_some]
  cases hkey : hashkey sizearray e.1 with
  | inl i =>
    obtain ⟨hpos, hle⟩ := hashkey_inl hkey
    have hsize := sizearray.isLt
    rw [hfit.of_inl hkey]
    have hint : (BitVec.ofNat 64 i).toInt = i := by
      rw [BitVec.toInt_eq_toNat_of_lt] <;> simp <;> omega
    simp only [counted, hint, Sum.getRight?_inl, Option.isSome_none, Bool.false_eq_true, false_iff,
      Bool.not_eq_true, Bool.not_eq_false', decide_eq_true_eq]
    omega
  | inr p =>
    simp only [Sum.getRight?_inr, Option.isSome_some, true_iff]
    by_contra hcounted
    obtain ⟨i, -, hkey'⟩ := hashkey_of_not_counted (Bool.not_eq_true _ ▸ hcounted)
    rw [hkey] at hkey'
    cases hkey'

variable {strings : Strings} {parts : Parts}

theorem Built.holds {sizearray : Rawlen} {entries : Entries} {strings' : Strings}
    (h : Built Stands sizearray entries strings parts) (htable : IsTable entries)
    (hfits : ∀ e ∈ entries, Fits e.1) (hvalues : ∀ e ∈ entries, Representable e.2)
    (hle : strings <+: strings') (hnodup : strings'.Nodup) :
    ∃ chain item, Holds ⟨strings', parts.1, parts.2⟩ sizearray entries chain item := by
  obtain ⟨chain, item, hchains, hfilled⟩ := h.filled
  have hinside {m : ℕ} (hm : (hashAt sizearray entries m).isSome) :=
    first_or_linked htable hfits hm
  refine ⟨chain, item, htable, hfits, hnodup, h.array.length, fun i hi => ?_, hchains,
    fun hs => ?_, hfilled.inj, fun he hkey => ?_, fun i hi => ?_⟩
  · rcases h.array.value i hi with ⟨k, e, v, -, he, hkey, hv, hstands⟩ | ⟨hnone, hnil⟩
    · have hmem := mem_of_getElem? he
      obtain ⟨p, hp, hmirrors⟩ := hstands (hvalues e hmem) strings' hle hnodup
      exact .inl ⟨e, hmem, (hfits e hmem).of_inl hkey, v, p, hv, hp, hmirrors⟩
    · refine .inr ⟨fun e he heq => ?_, hnil⟩
      obtain ⟨k, hk, rfl⟩ := List.getElem_of_mem he
      refine hnone k _ hk (List.getElem?_eq_getElem hk) ?_
      rw [heq]
      exact hashkey_ofNat (Nat.succ_pos i) hi
  · obtain ⟨e, q, he, hkey, hsame, hstands⟩ := hfilled.carried hs
    obtain ⟨p, hp, hmirrors⟩ := hstands (hvalues e (mem_of_getElem? he)) strings' hle hnodup
    exact ⟨e, q, p, he, hkey, sameKey_mono hle hsame, hp, hmirrors⟩
  · exact hfilled.all (hinside (by rw [hashAt_of_hashkey he hkey]; rfl))
  · refine hfilled.full (List.nodup_range.filter _) (fun m hm => hinside ?_)
      ((hashSize_eq hfits).trans h.length.symm) hi
    exact (List.mem_filter.1 hm).2

namespace Holds

variable {tbl : Table} {sizearray : Rawlen} {entries : Entries} {chain : ℕ → List ℕ}
  {item : ℕ → ℕ} {key : Value Rawlen} {q : Query} {hash : ℕ}

variable {j : ℕ} {s : Node}

theorem only (h : Holds tbl sizearray entries chain item) {s' : Node}
    (hs : slotAt tbl.hash i = some s) (hs' : slotAt tbl.hash j = some s')
    (hq : sameKey tbl.strings s.key q = true) (hq' : sameKey tbl.strings s'.key q = true) :
    i = j := by
  obtain ⟨e, q₁, -, he, hkey, hsame, -⟩ := h.node hs
  obtain ⟨e', q₁', -, he', hkey', hsame', -⟩ := h.node hs'
  obtain rfl := (key_eq_iff h.strings hsame hq).1 rfl
  obtain rfl := (key_eq_iff h.strings hsame' hq').1 rfl
  have hfit := h.fits e (mem_of_getElem? he)
  have hfit' := h.fits e' (mem_of_getElem? he')
  exact h.inj hs hs' (index_inj h.isTable he he' hfit (hfit.inj hfit' hkey hkey'))

theorem lookupKey_found (h : Holds tbl sizearray entries chain item)
    (hs : slotAt tbl.hash j = some s) (hq : sameKey tbl.strings s.key q = true) :
    lookupKey tbl s.hash q = .ok (some j) := by
  have hwalk := h.chains.walk_found (fun n => s.hash = n.hash ∧ sameKey tbl.strings n.key q) hs
    (by simp [hq])
    fun j' s' hs' hfound => h.only hs' hs (by simpa using (of_decide_eq_true hfound).2) hq
  have hpos : tbl.hash.length ≠ 0 := Nat.ne_of_gt (Nat.zero_lt_of_lt (lt_length hs))
  obtain ⟨head, hhead, hown⟩ := h.chains.head hs
  -- a node that is alone is the only one with its main position
  have hshort : ¬(s.hash ≠ head.hash ∧ head.alone = true) := by
    rintro ⟨hne, halone⟩
    have hseg := h.chains.seg hhead hown
    rw [h.chains.alone hhead halone] at hseg
    have hnil := hseg.unique (.nil none)
    by_cases hj : j = mainpos tbl.hash s.hash
    · rw [← hj, hs] at hhead
      cases hhead
      exact hne rfl
    · have hmem := h.chains.mem hs hj
      rw [hnil] at hmem
      cases hmem
  rw [lookupKey, if_neg hpos, hhead]
  simp only [if_neg hshort, hwalk]

theorem lookupKey_absent (h : Holds tbl sizearray entries chain item)
    (hnone : ∀ j s, slotAt tbl.hash j = some s → ¬sameKey tbl.strings s.key q = true) :
    lookupKey tbl hash q = .ok none := by
  unfold lookupKey
  split
  · rfl
  next hpos =>
    have hlt : mainpos tbl.hash hash < tbl.hash.length := Nat.mod_lt _ (Nat.pos_of_ne_zero hpos)
    obtain ⟨head, hhead⟩ := Option.ne_none_iff_exists'.1 (h.full _ hlt)
    have hwalk := h.chains.walk_absent (fun n => hash = n.hash ∧ sameKey tbl.strings n.key q)
      hhead fun j s hs => decide_eq_false fun hfound => hnone j s hs hfound.2
    rw [hhead]
    by_cases hshort : hash ≠ head.hash ∧ head.alone = true
    · simp only [if_pos hshort]
    · simp only [if_neg hshort, hwalk]

/-- What `index` returns is the value of the table. -/
theorem index (h : Holds tbl sizearray entries chain item) (hkey : Fits key) :
    ∃ found, lindexconf tbl key = .ok found ∧ Mirrors (found.getD .nil) (rawget entries key) := by
  have harg := hkey.argument tbl
  rw [h.length] at harg
  rw [lindexconf, harg]
  cases hcase : hashkey sizearray key with
  | inl i =>
    obtain ⟨hpos, hle⟩ := hashkey_inl hcase
    have hint := hkey.of_inl hcase
    have hi : i - 1 + 1 = i := Nat.sub_add_cancel hpos
    rcases h.array (i - 1) (by omega) with ⟨e, he, heq, v, p, hv, hp, hmirrors⟩ | ⟨hnone, hnil⟩
    · rw [hi, ← hint] at heq
      have hget := rawget_of_mem h.isTable hkey he heq
      refine ⟨some p, ?_, ?_⟩
      · change (pushvalue tbl.strings (tbl.array.getD (i - 1) .nil) >>= fun p => .ok (some p)) = _
        rw [getD_eq_getElem?_getD, hv, Option.getD_some, hp]
        rfl
      · rw [hget]
        exact hmirrors
    · have hget := rawget_of_not_mem hkey fun e he heq => hnone e he (by
        rw [hi, ← hint]
        exact heq)
      refine ⟨some .nil, ?_, ?_⟩
      · change (pushvalue tbl.strings (tbl.array.getD (i - 1) .nil) >>= fun p => .ok (some p)) = _
        rw [getD_eq_getElem?_getD, hnil]
        rfl
      · rw [hget]
        exact .nil
  | inr p =>
    obtain ⟨q, hash⟩ := p
    by_cases hmem : ∃ m : ℕ, ∃ e : Value Rawlen × Value Rawlen, entries[m]? = some e ∧ e.1 = key
    · obtain ⟨m, e, he, rfl⟩ := hmem
      obtain ⟨j, s, hs, rfl⟩ := h.all he hcase
      obtain ⟨e', q', p, he', hkey', hsame, hp, hmirrors⟩ := h.node hs
      rw [he] at he'
      cases he'
      rw [hcase] at hkey'
      cases hkey'
      refine ⟨some p, ?_, ?_⟩
      · change (lookupKey tbl s.hash q >>= _) = _
        rw [h.lookupKey_found hs hsame]
        simp only [bind, Except.bind, hs]
        change (pushvalue tbl.strings s.value >>= fun p => .ok (some p)) = _
        rw [hp]
        rfl
      · rw [rawget_of_mem h.isTable hkey (mem_of_getElem? he) rfl]
        exact hmirrors
    · have hnone : ∀ j s, slotAt tbl.hash j = some s → ¬sameKey tbl.strings s.key q = true := by
        intro j s hs hsame
        obtain ⟨e, q', -, he, hkey', hsame', -⟩ := h.node hs
        obtain rfl := (key_eq_iff h.strings hsame' hsame).1 rfl
        have hfit := h.fits e (mem_of_getElem? he)
        exact hmem ⟨_, e, he, hfit.inj hkey hkey' hcase⟩
      have hother : ∀ e ∈ entries, e.1 ≠ key := by
        intro e he heq
        obtain ⟨m, hm, rfl⟩ := List.getElem_of_mem he
        exact hmem ⟨m, _, List.getElem?_eq_getElem hm, heq⟩
      refine ⟨none, ?_, ?_⟩
      · change (lookupKey tbl hash q >>= _) = _
        rw [h.lookupKey_absent hnone]
        rfl
      · rw [rawget_of_not_mem hkey hother]
        exact .nil

/-- The keys of the nodes from one on. -/
def nodeKeys (entries : Entries) (item : ℕ → ℕ) (j n : ℕ) : List (Value Rawlen) :=
  (List.range' j n).map fun j => (entries.getD (item j) (nil, nil)).1

/-- The keys of the array part from an index on. -/
def arrayKeys : ℕ → List ConfValue → List (Value Rawlen)
  | _, [] => []
  | i, v :: array =>
    if v.isNil then arrayKeys (i + 1) array
    else integer (.ofNat 64 (i + 1)) :: arrayKeys (i + 1) array

theorem pushkey_node (h : Holds tbl sizearray entries chain item) {j : ℕ} {s : Node}
    (hs : slotAt tbl.hash j = some s) :
    ∃ e q, entries[item j]? = some e ∧ hashkey sizearray e.1 = .inr (q, s.hash) ∧
      sameKey tbl.strings s.key q = true ∧ pushkey tbl.strings s = .ok e.1 := by
  obtain ⟨e, q, -, he, hkey, hsame, -⟩ := h.node hs
  refine ⟨e, q, he, hkey, hsame, ?_⟩
  have hfit := h.fits e (mem_of_getElem? he)
  unfold pushkey
  obtain ⟨k, v⟩ := e
  cases k with
  | integer i =>
    have hkey : numberKey sizearray (i.setWidth 32) = .inr (q, s.hash) := hkey
    unfold numberKey at hkey
    split at hkey
    · cases hkey
    · obtain rfl := (Prod.ext_iff.1 (Sum.inr.inj hkey)).1
      have hi : (i.setWidth 32).signExtend 64 = i := hfit
      cases hcase : s.key with
      | integer key =>
        rw [hcase] at hsame
        have heq : key = i.setWidth 32 := of_decide_eq_true hsame
        rw [heq]
        exact congrArg _ (congrArg _ hi)
      | string index =>
        rw [hcase] at hsame
        cases hsame
  | string str =>
    obtain rfl := (Prod.ext_iff.1 (Sum.inr.inj hkey)).1
    cases hcase : s.key with
    | integer key =>
      rw [hcase] at hsame
      cases hsame
    | string index =>
      rw [hcase] at hsame
      have heq : stringAt tbl.strings index = some str := of_decide_eq_true hsame
      simp only [heq]
  | nil | boolean | float | lightuserdata | table => exact hfit.elim

theorem iterates_nodes (h : Holds tbl sizearray entries chain item) {n : ℕ}
    (hn : j + n = tbl.hash.length) {key : Option (Value Rawlen)}
    (hnext : lnextkey tbl key = hashKeyAt tbl j) :
    Iterates tbl key (nodeKeys entries item j n) := by
  induction n generalizing j key with
  | zero =>
    refine hnext.trans ?_
    rw [hashKeyAt, if_pos (by omega)]
  | succ n ih =>
    obtain ⟨s, hs⟩ := Option.ne_none_iff_exists'.1 (h.full j (by omega))
    obtain ⟨e, q, he, hkey, hsame, hpush⟩ := h.pushkey_node hs
    have hfit := h.fits e (mem_of_getElem? he)
    have hat : (entries.getD (item j) (nil, nil)).1 = e.1 := by
      rw [getD_eq_getElem?_getD, he, Option.getD_some]
    rw [nodeKeys, List.range'_succ, List.map_cons, hat]
    refine ⟨hnext.trans ?_, ih (by omega) ?_⟩
    · rw [hashKeyAt, if_neg (by omega), hs]
      simp only [hpush]
      rfl
    · have harg := hfit.argument tbl
      rw [h.length, hkey] at harg
      rw [lnextkey, harg]
      · change (lookupKey tbl s.hash q >>= _) = _
        rw [h.lookupKey_found hs hsame]
        rfl
      · intro x hx
        rw [hx] at hfit
        exact hfit

variable {array : List ConfValue}

theorem iterates_array (h : Holds tbl sizearray entries chain item)
    (harray : tbl.array.drop i = array) {key : Option (Value Rawlen)}
    (hnext : lnextkey tbl key = nextArrayKey tbl i) :
    Iterates tbl key (arrayKeys i array ++ nodeKeys entries item 0 tbl.hash.length) := by
  induction array generalizing i key with
  | nil =>
    refine h.iterates_nodes (Nat.zero_add _) (hnext.trans ?_)
    unfold nextArrayKey
    rw [harray]
    rfl
  | cons v array ih =>
    have hdrop : tbl.array.drop (i + 1) = array := by
      rw [← List.tail_drop, harray, List.tail_cons]
    have hlt : i < sizearray.val := by
      rw [← h.length]
      by_contra hge
      rw [List.drop_eq_nil_of_le (Nat.le_of_not_lt hge)] at harray
      cases harray
    rw [arrayKeys]
    cases hnil : v.isNil with
    | true =>
      rw [if_pos rfl]
      refine ih hdrop (hnext.trans ?_)
      unfold nextArrayKey
      rw [harray, hdrop, List.findIdx?_cons, hnil]
      cases array.findIdx? (!·.isNil) with
      | none => rfl
      | some j =>
        simp only [Bool.not_true, Bool.false_eq_true, if_false, Option.map_some]
        congr 4
        omega
    | false =>
      rw [if_neg Bool.false_ne_true]
      refine ⟨hnext.trans ?_, ih hdrop ?_⟩
      · unfold nextArrayKey
        rw [harray, List.findIdx?_cons, hnil]
        rfl
      · have hkey := hashkey_ofNat (Nat.succ_pos i) hlt
        have harg : argument tbl (integer (.ofNat 64 (i + 1))) = .ok (.inl (i + 1)) := by
          rw [(fits_ofNat hlt).argument, h.length, hkey]
        change (argument tbl (integer (.ofNat 64 (i + 1))) >>= _) = _
        rw [harg]
        rfl

variable {k : Value Rawlen}

/-- The indices of the array part with a value. -/
theorem mem_arrayKeys :
    k ∈ arrayKeys i array ↔
      ∃ j v, array[j]? = some v ∧ v.isNil = false ∧ k = integer (.ofNat 64 (i + j + 1)) := by
  induction array generalizing i with
  | nil => simp [arrayKeys]
  | cons v array ih =>
    have hshift (j : ℕ) : i + 1 + j + 1 = i + (j + 1) + 1 := by omega
    have htail : k ∈ arrayKeys (i + 1) array ↔ ∃ j v', (v :: array)[j + 1]? = some v' ∧
        v'.isNil = false ∧ k = integer (.ofNat 64 (i + (j + 1) + 1)) := by
      simp only [ih, hshift, List.getElem?_cons_succ]
    constructor
    · intro hk
      rw [arrayKeys] at hk
      split at hk
      · obtain ⟨j, hj⟩ := htail.1 hk
        exact ⟨j + 1, hj⟩
      next hnil =>
        rcases mem_cons.1 hk with rfl | hk
        · exact ⟨0, v, rfl, Bool.not_eq_true _ ▸ hnil, rfl⟩
        · obtain ⟨j, hj⟩ := htail.1 hk
          exact ⟨j + 1, hj⟩
    · rintro ⟨j, v', hv', hnil, heq⟩
      rw [arrayKeys]
      cases j with
      | zero =>
        cases hv'
        rw [if_neg (Bool.not_eq_true _ ▸ hnil), heq]
        exact List.mem_cons_self
      | succ j =>
        have hmem := htail.2 ⟨j, v', hv', hnil, heq⟩
        split
        · exact hmem
        · exact List.mem_cons_of_mem _ hmem

theorem nodup_arrayKeys (h : i + array.length < 2 ^ 64) : (arrayKeys i array).Nodup := by
  induction array generalizing i with
  | nil => exact List.nodup_nil
  | cons v array ih =>
    rw [List.length_cons] at h
    have htail := ih (i := i + 1) (by omega)
    rw [arrayKeys]
    split
    · exact htail
    · refine List.nodup_cons.2 ⟨fun hmem => ?_, htail⟩
      obtain ⟨j, v', hv', -, heq⟩ := mem_arrayKeys.1 hmem
      have hlt := (List.getElem?_eq_some_iff.1 hv').1
      have hnat := congrArg BitVec.toNat (integer.inj heq)
      simp only [toNat_ofNat] at hnat
      omega

theorem mem_nodeKeys {n : ℕ} :
    k ∈ nodeKeys entries item 0 n ↔ ∃ j < n, (entries.getD (item j) (nil, nil)).1 = k := by
  rw [nodeKeys, mem_map]
  exact exists_congr fun j => by rw [List.mem_range'_1, Nat.zero_add, and_iff_right (Nat.zero_le j)]

/-- The keys that the iteration visits are those of the table. -/
theorem perm_keys (h : Holds tbl sizearray entries chain item) :
    (arrayKeys 0 tbl.array ++ nodeKeys entries item 0 tbl.hash.length).Perm
      (entries.map Prod.fst) := by
  have hsize := sizearray.isLt
  have harray {k : Value Rawlen} : k ∈ arrayKeys 0 tbl.array ↔
      ∃ i < sizearray.val, k = integer (.ofNat 64 (i + 1)) ∧ ∃ e ∈ entries, e.1 = k := by
    rw [mem_arrayKeys]
    constructor
    · rintro ⟨j, v, hv, hnil, rfl⟩
      have hj : j < sizearray.val := by
        rw [← h.length]
        exact (List.getElem?_eq_some_iff.1 hv).1
      rw [Nat.zero_add]
      rcases h.array j hj with ⟨e, he, heq, -⟩ | ⟨-, hnone⟩
      · exact ⟨j, hj, rfl, e, he, heq⟩
      · rw [hv] at hnone
        cases hnone
        cases hnil
    · rintro ⟨i, hi, rfl, e, he, heq⟩
      rcases h.array i hi with ⟨e', he', -, v, p, hv, hp, hmirrors⟩ | ⟨hnone, -⟩
      · refine ⟨i, v, hv, ?_, by rw [Nat.zero_add]⟩
        cases v with
        | nil =>
          cases hp
          have hnil := h.isTable.value e' he'
          rw [eq_nil_of_mirrors hmirrors] at hnil
          cases hnil
        | real | string | boolean | table | integer => rfl
      · exact absurd heq (hnone e he)
  have hnode {j : ℕ} (hj : j < tbl.hash.length) : ∃ e q hash, entries[item j]? = some e ∧
      (entries.getD (item j) (nil, nil)).1 = e.1 ∧ hashkey sizearray e.1 = .inr (q, hash) := by
    obtain ⟨s, hs⟩ := Option.ne_none_iff_exists'.1 (h.full j hj)
    obtain ⟨e, q, -, he, hkey, -⟩ := h.node hs
    refine ⟨e, q, s.hash, he, ?_, hkey⟩
    rw [getD_eq_getElem?_getD, he, Option.getD_some]
  have hfirst : (arrayKeys 0 tbl.array).Nodup := nodup_arrayKeys (by
    rw [h.length]
    omega)
  have hsecond : (nodeKeys entries item 0 tbl.hash.length).Nodup := by
    refine List.Nodup.map_on (fun j hj j' hj' heq => ?_) List.nodup_range'
    rw [List.mem_range'_1, Nat.zero_add] at hj hj'
    obtain ⟨e, q, hash, he, hat, -⟩ := hnode hj.2
    obtain ⟨e', q', hash', he', hat', -⟩ := hnode hj'.2
    rw [hat, hat'] at heq
    have hitem := index_inj h.isTable he he' (h.fits e (mem_of_getElem? he)) heq
    obtain ⟨s, hs⟩ := Option.ne_none_iff_exists'.1 (h.full j hj.2)
    obtain ⟨s', hs'⟩ := Option.ne_none_iff_exists'.1 (h.full j' hj'.2)
    exact h.inj hs hs' hitem
  have hkeys : (entries.map Prod.fst).Nodup := by
    refine List.pairwise_map.2 (List.Pairwise.imp_of_mem (fun {e e'} he _ hne heq => ?_)
      h.isTable.distinct)
    rw [← heq, (h.fits e he).sameKey_self] at hne
    cases hne
  refine (List.perm_ext_iff_of_nodup
    (List.nodup_append.2 ⟨hfirst, hsecond, ?_⟩) hkeys).2 fun k => ?_
  · rintro k hk k' hk' rfl
    obtain ⟨i, hi, rfl, -⟩ := harray.1 hk
    obtain ⟨j, hj, heq⟩ := mem_nodeKeys.1 hk'
    obtain ⟨e, q, hash, -, hat, hkey⟩ := hnode hj
    rw [← hat, heq, hashkey_ofNat (Nat.succ_pos i) hi] at hkey
    cases hkey
  · rw [List.mem_append, harray, mem_nodeKeys, mem_map]
    constructor
    · rintro (⟨i, -, -, he⟩ | ⟨j, hj, rfl⟩)
      · exact he
      · obtain ⟨e, q, hash, he, hat, -⟩ := hnode hj
        exact ⟨e, mem_of_getElem? he, hat.symm⟩
    · rintro ⟨e, he, rfl⟩
      cases hcase : hashkey sizearray e.1 with
      | inl i =>
        obtain ⟨hpos, hle⟩ := hashkey_inl hcase
        refine .inl ⟨i - 1, by omega, ?_, e, he, rfl⟩
        rw [Nat.sub_add_cancel hpos]
        exact (h.fits e he).of_inl hcase
      | inr p =>
        obtain ⟨m, hm, rfl⟩ := List.getElem_of_mem he
        have hat := List.getElem?_eq_getElem hm
        obtain ⟨j, s, hs, rfl⟩ := h.all hat hcase
        refine .inr ⟨j, lt_length hs, ?_⟩
        rw [getD_eq_getElem?_getD, hat, Option.getD_some]

end Holds

theorem mirrors_table {tbl : Table} {sizearray : Rawlen} {entries : Entries} {chain : ℕ → List ℕ}
    {item : ℕ → ℕ} (h : Holds tbl sizearray entries chain item) :
    Mirrors (.table tbl) (.table sizearray entries) := by
  refine .table h.length h.full (fun key hkey => ?_) (fun key found hkey hfound => ?_)
    ⟨_, h.iterates_array List.drop_zero rfl, h.perm_keys⟩
  · obtain ⟨found, hfound, -⟩ := h.index hkey
    exact ⟨found, hfound⟩
  · obtain ⟨found', hfound', hmirrors⟩ := h.index hkey
    rw [hfound] at hfound'
    cases hfound'
    exact hmirrors

/-! ### The conversion of a value -/

/-- The values that are not refused, with the number of C calls that are left. -/
def Accepted : ℕ → Value Rawlen → Prop
  | _, lightuserdata _ => False
  | 0, table _ _ => False
  | left + 1, table sizearray entries =>
    (∀ e ∈ entries, AcceptedKey e.1) ∧ ValuesAccepted (Accepted left) sizearray entries
  | _, _ => True

theorem stands_of_mirrors {v : ConfValue} {p : Pushed}
    (hp : ∀ strings', strings <+: strings' → pushvalue strings' v = .ok p) (h : Mirrors p value) :
    Stands strings v value :=
  fun _ strings' hle _ => ⟨p, hp strings' hle, h⟩

theorem Built.stands {sizearray : Rawlen} {entries : Entries}
    (h : Built Stands sizearray entries strings parts) (htable : IsTable entries) :
    Stands strings (.table parts.1 parts.2) (table sizearray entries) := by
  intro hrep strings' hle hnodup
  rcases hrep with ⟨hscalar⟩ | ⟨hkeys, hvalues⟩
  · exact absurd rfl (hscalar sizearray entries)
  · obtain ⟨chain, item, hholds⟩ := h.holds htable hkeys hvalues hle hnodup
    exact ⟨.table ⟨strings', parts.1, parts.2⟩, rfl, mirrors_table hholds⟩

/-- The conversion of a value is refused, or it stands for the value, if this holds of tables. -/
theorem outcome_setvalue {left : ℕ} (hconv : ∀ sizearray entries strings,
      WellFormed (table sizearray entries) → strings.Nodup →
      Outcome (convtable left sizearray entries strings) strings
        (Accepted left (table sizearray entries))
        fun strings' v => Stands strings' v (table sizearray entries))
    (value : Value Rawlen) (strings : Strings) (hwell : WellFormed value) (hnodup : strings.Nodup) :
    Outcome (setvalue (convtable left) value strings) strings (Accepted left value)
      fun strings' v => Stands strings' v value := by
  have hscalar {v : ConfValue} {p : Pushed} {value : Value Rawlen}
      (hp : ∀ strings', strings <+: strings' → pushvalue strings' v = .ok p)
      (h : Mirrors p value) :
      Outcome ((pure v : Conv ConfValue) strings) strings True
        fun strings' v => Stands strings' v value :=
    .pure hnodup trivial (stands_of_mirrors hp h)
  cases value with
  | nil => exact (hscalar (fun _ _ => rfl) .nil).mono (by simp [Accepted]) fun _ _ _ _ h => h
  | boolean b =>
    exact (hscalar (fun _ _ => rfl) (.boolean b)).mono (by simp [Accepted]) fun _ _ _ _ h => h
  | integer i =>
    exact (hscalar (fun _ _ => rfl) (.integer i)).mono (by simp [Accepted]) fun _ _ _ _ h => h
  | float bits =>
    exact (hscalar (fun _ _ => rfl) (.float bits)).mono (by simp [Accepted]) fun _ _ _ _ h => h
  | string s =>
    have hindex (index : ℕ) (strings' : Strings) (h : stringAt strings' index = some s) :
        Stands strings' (.string index) (string s) :=
      stands_of_mirrors (fun strings'' hle => by rw [pushvalue, stringAt_mono hle h]) (.string s)
    have hboth : Outcome ((stringindex s >>= fun index => (pure (.string index) : Conv ConfValue))
        strings) strings _ fun strings' v => Stands strings' v (string s) :=
      (outcome_stringindex hnodup s).bind
        fun index strings' _ hnodup' h => .pure hnodup' trivial (hindex index strings' h)
    exact hboth.mono (by simp [Accepted]) fun _ _ _ _ h => h
  | lightuserdata p => exact .throw (by simp [Accepted])
  | table sizearray entries => exact hconv sizearray entries strings hwell hnodup

theorem outcome_table (ccalls : ℕ) (sizearray : Rawlen) (entries : Entries) (strings : Strings)
    (hwell : WellFormed (table sizearray entries)) (hnodup : strings.Nodup) :
    Outcome (convtable ccalls sizearray entries strings) strings
      (Accepted ccalls (table sizearray entries))
      fun strings' v => ∃ parts : Parts, v = .table parts.1 parts.2 ∧
        Stands strings' v (table sizearray entries) := by
  induction ccalls generalizing sizearray entries strings with
  | zero => exact .throw (by simp [Accepted])
  | succ left ih =>
    rcases hwell with ⟨hscalar⟩ | ⟨htable, hvalues⟩
    · exact absurd rfl (hscalar sizearray entries)
    · have hset := outcome_setvalue fun sizearray entries strings hwell hnodup =>
        (ih sizearray entries strings hwell hnodup).mono Iff.rfl fun _ _ _ _ ⟨_, _, h⟩ => h
      refine (outcome_convtable keepsStanding hset htable hvalues rfl hnodup).mono
        (by rw [Accepted]) fun strings' v _ _ hbuilt => ?_
      obtain ⟨parts, rfl, hbuilt⟩ := hbuilt
      exact ⟨parts, rfl, hbuilt.stands htable⟩

/-! ### Reading along a path -/

/-- A key that is read: an integer or a string. -/
inductive Name
  | integer (i : BitVec 64)
  | string (s : List UInt8)
  deriving DecidableEq, Repr

def Name.key : Name → Value Rawlen
  | .integer i => Value.integer i
  | .string s => Value.string s

/-- The name that an object has for a name: an integer is narrowed to an `int`. -/
def Name.narrow : Name → Name
  | .integer i => .integer ((i.setWidth 32).signExtend 64)
  | .string s => .string s

/-- What a table has at the end of a path. -/
def entryAt : Value Rawlen → List Name → Value Rawlen
  | v, [] => v
  | table _ entries, k :: path => entryAt (rawget entries k.key) path
  | _, _ :: _ => nil

/-- What is read from an object at the end of a path. -/
def readAt : Pushed → List Name → Except Failure Pushed
  | p, [] => .ok p
  | .table tbl, k :: path => do readAt ((← lindexconf tbl k.key).getD .nil) path
  | _, _ :: _ => .ok .nil

section Paths

variable {p : Pushed} {v : Value Rawlen} {path : List Name} {entries : Entries}

theorem setWidth_signExtend (x : BitVec 32) : (x.signExtend 64).setWidth 32 = x := by
  ext i hi
  rw [BitVec.getElem_setWidth, BitVec.getLsbD_signExtend, if_pos hi,
    decide_eq_true (Nat.lt_trans hi (by decide)), Bool.true_and, BitVec.getLsbD_eq_getElem]

theorem Name.fits_narrow (k : Name) : Fits k.narrow.key := by
  cases k with
  | integer i =>
    change (((i.setWidth 32).signExtend 64).setWidth 32).signExtend 64 = _
    rw [setWidth_signExtend]
  | string s => trivial

theorem argument_narrow (tbl : Table) (k : Name) :
    argument tbl k.narrow.key = argument tbl k.key := by
  cases k with
  | integer i =>
    exact congrArg (fun key : BitVec 32 =>
      if 0 < key.toInt ∧ key.toInt ≤ tbl.array.length then Except.ok (Sum.inl key.toNat)
      else .ok (.inr (Query.integer key, key.toNat))) (setWidth_signExtend (i.setWidth 32))
  | string s => rfl

theorem readAt_narrow (p : Pushed) (path : List Name) :
    readAt p (path.map Name.narrow) = readAt p path := by
  induction path generalizing p with
  | nil => rfl
  | cons k path ih =>
    cases p with
    | table tbl =>
      have hindex : lindexconf tbl k.narrow.key = lindexconf tbl k.key := by
        unfold lindexconf
        rw [argument_narrow]
      rw [List.map_cons, readAt, readAt, hindex]
      exact congrArg _ (funext fun found => ih _)
    | nil | boolean | integer | float | string => rfl

theorem Mirrors.readAt (h : Mirrors p v) (hpath : ∀ k ∈ path, Fits k.key) :
    ∃ p', readAt p path = .ok p' ∧ Mirrors p' (entryAt v path) := by
  induction path generalizing p v with
  | nil => exact ⟨p, rfl, by rwa [entryAt]⟩
  | cons k path ih =>
    obtain ⟨hkey, hpath⟩ := List.forall_mem_cons.1 hpath
    cases h with
    | table hlen hfilled hindex hvalue hnext =>
      obtain ⟨found, hfound⟩ := hindex k.key hkey
      obtain ⟨p', hread, hmirrors⟩ := ih (hvalue k.key found hkey hfound) hpath
      refine ⟨p', ?_, hmirrors⟩
      rw [Sharedata.readAt, hfound]
      exact hread
    | nil => exact ⟨.nil, rfl, .nil⟩
    | boolean => exact ⟨.nil, rfl, .nil⟩
    | integer => exact ⟨.nil, rfl, .nil⟩
    | float => exact ⟨.nil, rfl, .nil⟩
    | string => exact ⟨.nil, rfl, .nil⟩

theorem entryAt_nil (path : List Name) : entryAt nil path = nil := by
  cases path <;> rfl

theorem rawget_representable (hvalues : ∀ e ∈ entries, Representable e.2) (key : Value Rawlen) :
    Representable (rawget entries key) := by
  unfold rawget
  split
  next e he => exact hvalues e (List.mem_of_find?_eq_some he)
  next => exact .scalar nofun

/-- A table has nothing at the end of a path with a key that objects do not have. -/
theorem entryAt_of_not_fits (hrep : Representable v) {k : Name} (hk : k ∈ path)
    (hfits : ¬Fits k.key) : entryAt v path = nil := by
  induction path generalizing v with
  | nil => cases hk
  | cons k' path ih =>
    cases v with
    | table sizearray entries =>
      rcases hrep with ⟨hscalar⟩ | ⟨hkeys, hvalues⟩
      · exact absurd rfl (hscalar sizearray entries)
      rw [entryAt]
      rcases mem_cons.1 hk with rfl | hk
      · have hnone : entries.find? (·.1.sameKey k.key) = none := by
          rw [List.find?_eq_none]
          exact fun e he hsame => hfits (eq_of_sameKey hsame ▸ hkeys e he)
        have hnormal : normalize k.key = k.key := by cases k <;> rfl
        rw [rawget, hnormal, hnone, entryAt_nil]
      · exact ih (rawget_representable hvalues _) hk
    | nil | boolean | integer | float | string | lightuserdata => rfl

end Paths

/-- `new` refuses the table; or its keys are keys of objects, the object has what it has, and so is
read what it has at the end of the path. -/
def Meets (ccalls : ℕ) (sizearray : Rawlen) (entries : Entries) (path : List Name) : Prop :=
  match lnewconf ccalls sizearray entries with
  | .error (.raised _) => True
  | .error _ => False
  | .ok tbl =>
    Representable (table sizearray entries) ∧ Mirrors (.table tbl) (table sizearray entries) ∧
      ∃ p, readAt (.table tbl) path = .ok p ∧ Mirrors p (entryAt (table sizearray entries) path)

/-- The object of a table, if that is not refused. -/
theorem lnewconf_cases (ccalls : ℕ) (sizearray : Rawlen) (entries : Entries)
    (hwell : WellFormed (table sizearray entries)) :
    (∃ tbl, lnewconf ccalls sizearray entries = .ok tbl ∧
      Accepted ccalls (table sizearray entries) ∧
      (Representable (table sizearray entries) → Mirrors (.table tbl) (table sizearray entries))) ∨
    ∃ error, lnewconf ccalls sizearray entries = .error (.raised error) ∧
      ¬Accepted ccalls (table sizearray entries) := by
  rcases outcome_table ccalls sizearray entries [] hwell List.nodup_nil with
    ⟨v, strings, hconv, -, hnodup, ⟨parts, rfl, hstands⟩, haccepted⟩ | ⟨error, hconv, hrefused⟩
  · refine .inl ⟨⟨strings, parts.1, parts.2⟩, by rw [lnewconf, hconv], haccepted, fun hrep => ?_⟩
    obtain ⟨p, hp, hmirrors⟩ := hstands hrep strings List.prefix_rfl hnodup
    cases hp
    exact hmirrors
  · exact .inr ⟨error, by rw [lnewconf, hconv], hrefused⟩

/-- The object of a table has the entries of the table, unless a key of the table is none of an
object; what is read along a path is at the end of that path, unless a name on the path is narrowed
to the name of something else. -/
theorem meets_iff (ccalls : ℕ) (sizearray : Rawlen) (entries : Entries) (path : List Name)
    (hwell : WellFormed (table sizearray entries)) :
    Meets ccalls sizearray entries path ↔
      ¬Accepted ccalls (table sizearray entries) ∨ Representable (table sizearray entries) ∧
        ((∀ k ∈ path, Fits k.key) ∨
          entryAt (table sizearray entries) (path.map Name.narrow) = nil) := by
  rcases lnewconf_cases ccalls sizearray entries hwell with
    ⟨tbl, hnew, haccepted, hmirrors⟩ | ⟨error, hnew, hrefused⟩
  · rw [Meets, hnew]
    change Representable (table sizearray entries) ∧ _ ↔ _
    rw [or_iff_right (not_not_intro haccepted)]
    refine and_congr_right fun hrep => ?_
    have hobject := hmirrors hrep
    rw [and_iff_right hobject]
    -- the object is read along the narrowed path
    have hfits : ∀ k ∈ path.map Name.narrow, Fits k.key := by
      rintro _ hk
      obtain ⟨k, -, rfl⟩ := mem_map.1 hk
      exact k.fits_narrow
    obtain ⟨p, hread, hp⟩ := hobject.readAt hfits
    rw [readAt_narrow] at hread
    constructor
    · rintro ⟨p', hread', hp'⟩
      rw [hread] at hread'
      cases hread'
      by_contra hnot
      simp only [not_or, not_forall] at hnot
      obtain ⟨⟨k, hk, hfits⟩, hne⟩ := hnot
      rw [entryAt_of_not_fits hrep hk hfits] at hp'
      cases hp'
      exact hne (eq_nil_of_mirrors hp)
    · rintro (hfits | hnil)
      · exact hobject.readAt hfits
      · by_cases hfits : ∀ k ∈ path, Fits k.key
        · exact hobject.readAt hfits
        · simp only [not_forall] at hfits
          obtain ⟨k, hk, hfits⟩ := hfits
          rw [hnil] at hp
          refine ⟨p, hread, ?_⟩
          rwa [entryAt_of_not_fits hrep hk hfits]
  · rw [Meets, hnew]
    exact iff_of_true trivial (.inl hrefused)

/-- An array part with a hole, two nodes, and a table among the values. -/
theorem meets_nestedTable :
    Meets 200 3 [(integer 1, integer 10), (integer 3, boolean true), (string [97], integer 20),
      (integer (-5), table 1 [(integer 1, string [98])])] [.integer (-5), .integer 1] := by
  have hscalar {v : Value Rawlen} (h : ∀ n es, v ≠ table n es) : WellFormed v := .scalar h
  have hinner : WellFormed (table (1 : Rawlen) [(integer 1, string [98])]) := by
    refine .table ⟨?_, ?_, List.pairwise_singleton _ _⟩ ?_ <;>
      simp only [List.forall_mem_singleton]
    · trivial
    · rfl
    · exact hscalar nofun
  have hrep : Representable (table (1 : Rawlen) [(integer 1, string [98])]) := by
    refine .table ?_ ?_ <;> simp only [List.forall_mem_singleton]
    · rfl
    · exact .scalar nofun
  refine (meets_iff 200 3 _ _ (.table ⟨?_, ?_, ?_⟩ ?_)).2 (.inr ⟨.table ?_ ?_, .inl ?_⟩)
  · simp [IsKey]
  · simp [Value.isNil]
  · simp [Value.sameKey]
  · rintro e he
    simp only [mem_cons, List.not_mem_nil, or_false] at he
    rcases he with rfl | rfl | rfl | rfl
    · exact hscalar nofun
    · exact hscalar nofun
    · exact hscalar nofun
    · exact hinner
  · simp [Fits]
  · rintro e he
    simp only [mem_cons, List.not_mem_nil, or_false] at he
    rcases he with rfl | rfl | rfl | rfl
    · exact .scalar nofun
    · exact .scalar nofun
    · exact .scalar nofun
    · exact hrep
  · simp [Fits, Name.key]

/-- The key `2 ^ 32 + 1` is taken for 1, and a table for the empty string. -/
theorem keys_confused :
    ¬Meets 200 1 [(integer 1, integer 10)] [.integer (2 ^ 32 + 1)] ∧
      ¬Meets 200 0 [(table 0 [], integer 10)] [] := by
  constructor
  · rintro ⟨-, -, p, hread, hmirrors⟩
    obtain rfl : .integer 10 = p := Except.ok.inj hread
    cases hmirrors
  · rintro ⟨hrep, -⟩
    rcases hrep with ⟨hscalar⟩ | ⟨hkeys, -⟩
    · exact hscalar _ _ rfl
    · exact hkeys _ List.mem_cons_self

end Mtask.Sharedata
