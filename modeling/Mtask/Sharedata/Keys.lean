import Mathlib.Data.List.Infix
import Mtask.Sharedata.Object

/-!
# The keys of shared objects

What a conversion makes of the keys of a table, apart from the strings that it collects: which
entries are array entries, the hash and the key of the others, and which of those find their main
position free.
-/

namespace Mtask.Sharedata

open Lua Lua.Value LuaSeri

/-! ### Strings -/

variable {strings : Strings} {s : List UInt8}

theorem stringAt_mono {strings' : Strings} (h : strings <+: strings') {index : ℕ}
    (hs : stringAt strings index = some s) : stringAt strings' index = some s := by
  obtain ⟨more, rfl⟩ := h
  unfold stringAt at hs ⊢
  split at hs
  next hle =>
    rw [if_pos hle, List.getElem?_append_left (List.getElem?_eq_some_iff.1 hs).1]
    exact hs
  next => cases hs

theorem stringAt_inj (h : strings.Nodup) {i j : ℕ} (hi : stringAt strings i = some s)
    (hj : stringAt strings j = some s) : i = j := by
  unfold stringAt at hi hj
  split at hi <;> split at hj
  next hi2 hj2 =>
    obtain ⟨hilt, hi⟩ := List.getElem?_eq_some_iff.1 hi
    obtain ⟨hjlt, hj⟩ := List.getElem?_eq_some_iff.1 hj
    have := h.getElem_inj_iff.1 (hi.trans hj.symm)
    omega
  all_goals first | cases hi | cases hj

theorem sameKey_mono {strings' : Strings} (h : strings <+: strings') {key : Key} {q : Query}
    (hkey : sameKey strings key q = true) : sameKey strings' key q = true := by
  cases key <;> cases q
  · exact hkey
  · exact hkey
  · exact hkey
  · exact decide_eq_true (stringAt_mono h (of_decide_eq_true hkey))

/-- The keys of nodes are the same when what they stand for is. -/
theorem key_eq_iff (h : strings.Nodup) {key key' : Key} {q q' : Query}
    (hkey : sameKey strings key q = true) (hkey' : sameKey strings key' q' = true) :
    key = key' ↔ q = q' := by
  cases key <;> cases q <;> cases key' <;> cases q' <;> first | cases hkey | cases hkey' | skip
  next i i' j j' =>
    have hi : i = i' := of_decide_eq_true hkey
    have hj : j = j' := of_decide_eq_true hkey'
    simp [hi, hj]
  · simp
  · simp
  next i s j s' =>
    have hi := of_decide_eq_true hkey
    have hj := of_decide_eq_true hkey'
    simp only [Key.string.injEq, Query.string.injEq]
    constructor
    · rintro rfl
      exact Option.some.inj (hi.symm.trans hj)
    · rintro rfl
      exact stringAt_inj h hi hj

/-! ### Keys -/

/-- A number, as an `int`. -/
def numberKey (sizearray : ℕ) (key : BitVec 32) : ℕ ⊕ Query × ℕ :=
  if 0 < key.toInt ∧ key.toInt ≤ sizearray then .inl key.toNat
  else .inr (.integer key, key.toNat)

/-- An index of the array part, or the key of an entry and its hash. -/
def hashkey (sizearray : ℕ) (key : Value Rawlen) : ℕ ⊕ Query × ℕ :=
  match key with
  | integer _ | float _ => numberKey sizearray ((luaTointeger key).setWidth 32)
  | _ => .inr (.string (luaTolstring key), (calchash (luaTolstring key)).toNat)

theorem numberKey_inl {sizearray i : ℕ} {key : BitVec 32}
    (h : numberKey sizearray key = .inl i) : 1 ≤ i ∧ i ≤ sizearray ∧ key = .ofNat 32 i := by
  unfold numberKey at h
  split at h
  next hcond =>
    cases h
    have := BitVec.toInt_eq_toNat_cond key
    refine ⟨by omega, by omega, ?_⟩
    rw [BitVec.ofNat_toNat, BitVec.setWidth_eq]
  next => cases h

theorem hashkey_inl {sizearray i : ℕ} {key : Value Rawlen} (h : hashkey sizearray key = .inl i) :
    1 ≤ i ∧ i ≤ sizearray := by
  unfold hashkey at h
  split at h
  · exact ⟨(numberKey_inl h).1, (numberKey_inl h).2.1⟩
  · exact ⟨(numberKey_inl h).1, (numberKey_inl h).2.1⟩
  · cases h

/-- The key is counted by `countsize`. -/
def counted (sizearray : ℕ) (key : Value Rawlen) : Bool :=
  match key with
  | integer nkey => !(0 < nkey.toInt ∧ nkey.toInt ≤ sizearray : Bool)
  | _ => true

/-- The keys that `countsize` does not refuse. -/
def AcceptedKey : Value Rawlen → Prop
  | integer _ | string _ | table _ _ => True
  | _ => False

/-- The keys that an object can have: an integer that is an `int`, or a string. -/
def Fits : Value Rawlen → Prop
  | integer i => (i.setWidth 32).signExtend 64 = i
  | string _ => True
  | _ => False

section Positions

variable (sizearray : ℕ) (entries : Entries)

/-- The nodes of the hash part. -/
def hashSize : ℕ := entries.countP (counted sizearray ·.1)

/-- The key and the hash of the entry with the number `m`, if it goes to the hash part. -/
def hashAt (m : ℕ) : Option (Query × ℕ) :=
  entries[m]?.bind fun e => (hashkey sizearray e.1).getRight?

/-- The entry is the first one with its main position. -/
def First (m : ℕ) : Prop :=
  ∃ p, hashAt sizearray entries m = some p ∧ ∀ m' < m, ∀ p', hashAt sizearray entries m' = some p' →
    p'.2 % hashSize sizearray entries ≠ p.2 % hashSize sizearray entries

/-- The first entry with its main position has the same key. -/
def SameAsFirst (m : ℕ) : Prop :=
  ∃ p m₀ p₀, hashAt sizearray entries m = some p ∧ First sizearray entries m₀ ∧
    hashAt sizearray entries m₀ = some p₀ ∧
    p₀.2 % hashSize sizearray entries = p.2 % hashSize sizearray entries ∧ p₀.1 = p.1

/-- The entry is linked behind the first one with its main position. -/
def Linked (m : ℕ) : Prop :=
  (hashAt sizearray entries m).isSome ∧ ¬SameAsFirst sizearray entries m

variable {sizearray entries}

variable {m : ℕ}

/-- Every main position that an entry has is that of a first entry. -/
theorem exists_first {p : Query × ℕ} (h : hashAt sizearray entries m = some p) :
    ∃ m₀ ≤ m, ∃ p₀, First sizearray entries m₀ ∧ hashAt sizearray entries m₀ = some p₀ ∧
      p₀.2 % hashSize sizearray entries = p.2 % hashSize sizearray entries := by
  induction m using Nat.strong_induction_on generalizing p with
  | _ m ih =>
    by_cases hfirst : ∀ m' < m, ∀ p', hashAt sizearray entries m' = some p' →
        p'.2 % hashSize sizearray entries ≠ p.2 % hashSize sizearray entries
    · exact ⟨m, Nat.le_refl m, p, ⟨p, h, hfirst⟩, h, rfl⟩
    · simp only [not_forall, not_not] at hfirst
      obtain ⟨m', hlt, p', hp', heq⟩ := hfirst
      obtain ⟨m₀, hle, p₀, hfirst₀, hp₀, heq₀⟩ := ih m' hlt hp'
      exact ⟨m₀, by omega, p₀, hfirst₀, hp₀, heq₀.trans heq⟩

/-- The first entry with a main position is one. -/
theorem First.unique {m' : ℕ} {p p' : Query × ℕ} (h : First sizearray entries m)
    (h' : First sizearray entries m') (hp : hashAt sizearray entries m = some p)
    (hp' : hashAt sizearray entries m' = some p')
    (heq : p.2 % hashSize sizearray entries = p'.2 % hashSize sizearray entries) : m = m' := by
  obtain ⟨p₁, hp₁, hfirst⟩ := h
  obtain ⟨p₁', hp₁', hfirst'⟩ := h'
  rw [hp] at hp₁
  rw [hp'] at hp₁'
  cases hp₁
  cases hp₁'
  rcases Nat.lt_trichotomy m m' with hlt | rfl | hlt
  · exact absurd heq (hfirst' m hlt p hp)
  · rfl
  · exact absurd heq.symm (hfirst m' hlt p' hp')

theorem First.sameAsFirst (h : First sizearray entries m) : SameAsFirst sizearray entries m := by
  obtain ⟨p, hp, hfirst⟩ := h
  exact ⟨p, m, p, hp, ⟨p, hp, hfirst⟩, hp, rfl, rfl⟩

end Positions

end Mtask.Sharedata
