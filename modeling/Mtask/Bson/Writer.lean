import Mtask.Bson.Document

/-!
# What is written behind the rest

A capacity that is doubled from 64 on fits into an `int` up to 2 ^ 30. A function that writes some
bytes puts them behind the others if there are fewer than 2 ^ 30 of all of them, and does not come to
an end, or leaves the memory, if there are more.
-/

namespace Mtask.Bson

open Mongo List

/-! ### The capacity -/

variable {need : ℤ} {fuel : ℕ}

theorem doubleCap_zero (h : 0 ≤ need) : doubleCap fuel 0 need = none := by
  induction fuel with
  | zero => rfl
  | succ fuel ih =>
    have hle : toInt (0 * 2) ≤ need := h
    rw [doubleCap, if_pos hle]
    exact ih

theorem doubleCap_last (h : 0 ≤ need) : doubleCap fuel (2 ^ (24 + 6)) need = none := by
  have hmin : doubleCap (fuel - 1) (-2 ^ 31) need = none := by
    cases fuel - 1 with
    | zero => rfl
    | succ fuel =>
      rw [doubleCap, if_pos (show toInt (-2 ^ 31 * 2) ≤ need from h)]
      exact doubleCap_zero h
  cases fuel with
  | zero => rfl
  | succ fuel =>
    have hle : toInt (2 ^ (24 + 6) * 2) ≤ need := Int.le_trans (by decide) h
    rw [doubleCap, if_pos hle]
    exact hmin

variable {k : ℕ}

theorem toInt_double (h : k < 24) : toInt (2 ^ (k + 6) * 2) = 2 ^ (k + 1 + 6) := by
  have hall : ∀ k < 24, toInt (2 ^ (k + 6) * 2) = 2 ^ (k + 1 + 6) := by decide
  exact hall k h

theorem doubleCap_some {cap : ℤ} (hneed : 0 ≤ need) (hk : k ≤ 24)
    (h : doubleCap fuel (2 ^ (k + 6)) need = some cap) : ∃ k' ≤ 24, cap = 2 ^ (k' + 6) := by
  induction fuel generalizing k with
  | zero => cases h
  | succ fuel ih =>
    rcases Nat.eq_or_lt_of_le hk with rfl | hlt
    · rw [doubleCap_last hneed] at h
      cases h
    · rw [doubleCap, toInt_double hlt] at h
      split_ifs at h
      · exact ih hlt h
      · exact ⟨k + 1, hlt, (Option.some.inj h).symm⟩

theorem exists_doubleCap (hle : 2 ^ (k + 6) ≤ need) (hlt : need < 2 ^ 30) (hfuel : 24 < fuel + k) :
    ∃ k' ≤ 24, need < 2 ^ (k' + 6) ∧ doubleCap fuel (2 ^ (k + 6)) need = some (2 ^ (k' + 6)) := by
  have hk : k < 24 := by
    by_contra hge
    have hpow : (2 : ℤ) ^ (24 + 6) ≤ 2 ^ (k + 6) :=
      pow_le_pow_right₀ (by decide) (Nat.add_le_add_right (Nat.le_of_not_lt hge) 6)
    exact absurd (Int.lt_of_le_of_lt (Int.le_trans hpow hle) hlt) (Int.lt_irrefl _)
  induction fuel generalizing k with
  | zero => omega
  | succ fuel ih =>
    rw [doubleCap, toInt_double hk]
    by_cases hmore : 2 ^ (k + 1 + 6) ≤ need
    · have hk' : k + 1 < 24 := by
        by_contra hge
        obtain rfl : k = 23 := by omega
        exact absurd (Int.lt_of_le_of_lt hmore hlt) (Int.lt_irrefl _)
      rw [if_pos hmore]
      exact ih hmore (by omega) hk'
    · rw [if_neg hmore]
      exact ⟨k + 1, hk, Int.lt_of_not_ge hmore, rfl⟩

/-- The capacity is enough for the bytes, and one that doubling comes to. -/
structure Fits (b : BsonWriter) : Prop where
  le : b.ptr.length ≤ b.cap
  cap : ∃ k ≤ 24, b.cap = 2 ^ (k + 6)

theorem fits_bsonCreate : Fits bsonCreate :=
  ⟨by decide, 0, Nat.zero_le _, rfl⟩

section Reserve

variable {b b' : BsonWriter} {sz : ℤ}

theorem Fits.cap_le (h : Fits b) : b.cap ≤ 2 ^ 30 := by
  obtain ⟨k, hk, hcap⟩ := h.cap
  rw [hcap]
  exact pow_le_pow_right₀ (by decide) (Nat.add_le_add_right hk 6)

theorem Fits.cap_pos (h : Fits b) : 0 < b.cap := by
  obtain ⟨k, -, hcap⟩ := h.cap
  rw [hcap]
  exact pow_pos (by decide) _

theorem Fits.length_le (h : Fits b) : b.ptr.length ≤ 2 ^ 30 := by
  have := h.le
  have := h.cap_le
  omega

/-- There is room for fewer than 2 ^ 30 bytes. -/
theorem bsonReserve_lt (h : Fits b) {n : ℕ} (hn : b.ptr.length + n < 2 ^ 30) :
    ∃ cap, bsonReserve n b = .ok () ⟨b.ptr, cap⟩ ∧ Fits ⟨b.ptr, cap⟩ ∧
      (b.ptr.length + n : ℤ) ≤ cap := by
  have hneed : toInt (b.ptr.length + n) = b.ptr.length + n := toInt_of_range (by omega) (by omega)
  rw [bsonReserve, hneed]
  by_cases hle : (b.ptr.length + n : ℤ) ≤ b.cap
  · rw [if_pos hle]
    exact ⟨b.cap, rfl, h, hle⟩
  · obtain ⟨k, hk, hcap⟩ := h.cap
    have hlow : (2 : ℤ) ^ (k + 6) ≤ b.ptr.length + n := by
      rw [← hcap]
      omega
    obtain ⟨k', hk', hlt, hdouble⟩ : ∃ k' ≤ 24, (b.ptr.length + n : ℤ) < 2 ^ (k' + 6) ∧
        doubleCap 32 (2 ^ (k + 6)) (b.ptr.length + n) = some (2 ^ (k' + 6)) :=
      exists_doubleCap hlow (by omega) (by omega)
    rw [if_neg hle, hcap, hdouble]
    exact ⟨_, rfl, ⟨by change (b.ptr.length : ℤ) ≤ 2 ^ (k' + 6); omega, k', hk', rfl⟩, by omega⟩

/-- Whatever there is room for, the capacity is one that doubling comes to. -/
theorem bsonReserve_ok (h : Fits b) (hok : bsonReserve sz b = .ok () b') :
    b'.ptr = b.ptr ∧ ∃ k ≤ 24, b'.cap = 2 ^ (k + 6) := by
  rw [bsonReserve] at hok
  split_ifs at hok with hle
  · cases hok
    exact ⟨rfl, h.cap⟩
  · have hpos := h.cap_pos
    obtain ⟨k, hk, hcap⟩ := h.cap
    rw [hcap] at hok
    split at hok
    next cap hdouble =>
      cases hok
      exact ⟨rfl, doubleCap_some (by omega) hk hdouble⟩
    next => cases hok

end Reserve

/-! ### Writing -/

/-- The function puts the bytes behind the others if it comes to an end, and it does so if all of them
are fewer than 2 ^ 30. -/
def Appends (m : Packing Unit) (bytes : List UInt8) : Prop :=
  ∀ b, Fits b → (∀ b', m b = .ok () b' → b'.ptr = b.ptr ++ bytes ∧ Fits b') ∧
    (b.ptr.length + bytes.length < 2 ^ 30 → ∃ b', m b = .ok () b')

section Rules

variable {m m' : Packing Unit} {bytes bytes' : List UInt8}

namespace Appends

theorem nothing : Appends (pure ()) [] := fun b hb =>
  ⟨fun b' h => by
    obtain rfl : b = b' := (EStateM.Result.ok.inj h).2
    exact ⟨(append_nil _).symm, hb⟩, fun _ => ⟨b, rfl⟩⟩

theorem bind (h : Appends m bytes) (h' : Appends m' bytes') :
    Appends (m >>= fun _ => m') (bytes ++ bytes') := by
  intro b hb
  obtain ⟨hsafe, hok⟩ := h b hb
  constructor
  · intro b₂ heq
    obtain ⟨⟨⟩, b₁, heq₁, heq₂⟩ := Outcomes.stateBind_eq_ok.mp heq
    obtain ⟨hptr₁, hfits₁⟩ := hsafe b₁ heq₁
    obtain ⟨hptr₂, hfits₂⟩ := (h' b₁ hfits₁).1 b₂ heq₂
    rw [hptr₁, append_assoc] at hptr₂
    exact ⟨hptr₂, hfits₂⟩
  · intro hlt
    rw [length_append] at hlt
    obtain ⟨b₁, heq₁⟩ := hok (by omega)
    obtain ⟨hptr₁, hfits₁⟩ := hsafe b₁ heq₁
    obtain ⟨b₂, heq₂⟩ := (h' b₁ hfits₁).2 (by
      rw [hptr₁, length_append]
      omega)
    exact ⟨b₂, Outcomes.stateBind_eq_ok.mpr ⟨(), b₁, heq₁, heq₂⟩⟩

/-- A function that goes on in the same way from every state. -/
theorem congr (h : Appends m bytes) (heq : ∀ b, m' b = m b) : Appends m' bytes := by
  have hsame : m' = m := funext heq
  rw [hsame]
  exact h

end Appends

variable {b : BsonWriter}

theorem copyBytes_ok {b' : BsonWriter} (h : copyBytes bytes b = .ok () b') :
    b' = ⟨b.ptr ++ bytes, b.cap⟩ ∧ (b.ptr.length + bytes.length : ℤ) ≤ b.cap := by
  rw [copyBytes] at h
  split_ifs at h with hle
  cases h
  exact ⟨rfl, hle⟩

theorem appends_writeBytes (bytes : List UInt8) : Appends (writeBytes bytes) bytes := by
  intro b hb
  constructor
  · intro b' h
    obtain ⟨⟨⟩, b₁, hreserve, hcopy⟩ := Outcomes.stateBind_eq_ok.mp h
    obtain ⟨hptr, k, hk, hcap⟩ := bsonReserve_ok hb hreserve
    obtain ⟨rfl, hle⟩ := copyBytes_ok hcopy
    rw [← hptr]
    refine ⟨rfl, ?_, k, hk, hcap⟩
    rw [length_append]
    exact_mod_cast hle
  · intro hlt
    have hint : toInt bytes.length = bytes.length := toInt_of_range (by omega) (by omega)
    obtain ⟨cap, hreserve, -, hle⟩ := bsonReserve_lt hb hlt
    refine ⟨⟨b.ptr ++ bytes, cap⟩, Outcomes.stateBind_eq_ok.mpr ⟨(), ⟨b.ptr, cap⟩, ?_, ?_⟩⟩
    · rw [hint]
      exact hreserve
    · rw [copyBytes, if_pos hle]

/-- The last byte of a document has room even if it is the one with the number 2 ^ 30. -/
theorem writeByte_ok (hb : Fits b) (hlt : b.ptr.length < 2 ^ 30) (v : UInt8) :
    ∃ b', writeByte v b = .ok () b' := by
  by_cases hlast : b.ptr.length + 1 < 2 ^ 30
  · exact (appends_writeBytes [v] b hb).2 hlast
  · -- The capacity is 2 ^ 30 already.
    have hlength : b.ptr.length = 2 ^ 30 - 1 := by omega
    obtain ⟨k, hk, hcap⟩ := hb.cap
    have hlast : k = 24 := by
      by_contra hne
      have hpow : (2 : ℤ) ^ (k + 6) ≤ 2 ^ (23 + 6) := pow_le_pow_right₀ (by decide) (by omega)
      have := hb.le
      omega
    have hroom : (b.ptr.length + 1 : ℤ) ≤ b.cap := by
      rw [hcap, hlast]
      omega
    have hint : toInt (b.ptr.length + 1) = b.ptr.length + 1 := toInt_of_range (by omega) (by omega)
    have hone : toInt [v].length = 1 := toInt_of_range (by simp) (by simp)
    refine ⟨⟨b.ptr ++ [v], b.cap⟩, Outcomes.stateBind_eq_ok.mpr ⟨(), b, ?_, ?_⟩⟩
    · rw [hone, bsonReserve, hint, if_pos hroom]
    · rw [copyBytes]
      exact if_pos hroom

theorem reserveLength_ok_iff {b' : BsonWriter} {off : ℕ} : reserveLength b = .ok off b' ↔
    off = b.ptr.length ∧ writeBytes (int32Bytes 0) b = .ok () b' := by
  constructor
  · intro heq
    obtain ⟨st, b₀, hget, heq⟩ := Outcomes.stateBind_eq_ok.mp heq
    obtain ⟨rfl, rfl⟩ := EStateM.Result.ok.inj hget
    obtain ⟨⟨⟩, b₂, hwrite, hpure⟩ := Outcomes.stateBind_eq_ok.mp heq
    obtain ⟨rfl, rfl⟩ := EStateM.Result.ok.inj hpure
    exact ⟨rfl, hwrite⟩
  · rintro ⟨rfl, hwrite⟩
    exact Outcomes.stateBind_eq_ok.mpr ⟨b, b, rfl, Outcomes.stateBind_eq_ok.mpr ⟨(), b', hwrite, rfl⟩⟩

/-- The rule for a length that is written when the bytes behind it are there. -/
theorem Appends.patched (h : Appends m bytes) (v : ℤ) {tail : ℕ → Packing Unit}
    (htail : ∀ off b, b.ptr.length = off + (4 + bytes.length) → tail off b = writeLength v off b) :
    Appends (do
      let off ← reserveLength
      m
      tail off) (int32Bytes v ++ bytes) := by
  have hlength : (int32Bytes 0).length = (int32Bytes v).length := by
    rw [length_int32Bytes, length_int32Bytes]
  have hpatch {b b₂ : BsonWriter} (hptr : b₂.ptr = b.ptr ++ int32Bytes 0 ++ bytes) :
      tail b.ptr.length b₂ = .ok () ⟨b.ptr ++ (int32Bytes v ++ bytes), b₂.cap⟩ := by
    rw [htail, writeLength, hptr, Buffers.store_middle hlength.symm, append_assoc]
    rw [hptr, length_append, length_append, length_int32Bytes, Nat.add_assoc]
  intro b hb
  obtain ⟨hsafe, hok⟩ := appends_writeBytes (int32Bytes 0) b hb
  constructor
  · intro b' heq
    obtain ⟨off, b₁, heq₁, heq⟩ := Outcomes.stateBind_eq_ok.mp heq
    obtain ⟨⟨⟩, b₂, heq₂, heq⟩ := Outcomes.stateBind_eq_ok.mp heq
    obtain ⟨rfl, hwrite⟩ := reserveLength_ok_iff.mp heq₁
    obtain ⟨hptr₁, hfits₁⟩ := hsafe b₁ hwrite
    obtain ⟨hptr₂, hfits₂⟩ := (h b₁ hfits₁).1 b₂ heq₂
    rw [hptr₁] at hptr₂
    rw [hpatch hptr₂] at heq
    obtain rfl := (EStateM.Result.ok.inj heq).2
    refine ⟨rfl, ?_, hfits₂.cap⟩
    have hle := hfits₂.le
    rw [hptr₂] at hle
    simp only [length_append, hlength, Nat.add_assoc] at hle ⊢
    exact_mod_cast hle
  · intro hlt
    rw [length_append, ← hlength] at hlt
    obtain ⟨b₁, heq₁⟩ := hok (by omega)
    obtain ⟨hptr₁, hfits₁⟩ := hsafe b₁ heq₁
    obtain ⟨b₂, heq₂⟩ := (h b₁ hfits₁).2 (by
      rw [hptr₁, length_append]
      omega)
    obtain ⟨hptr₂, -⟩ := (h b₁ hfits₁).1 b₂ heq₂
    rw [hptr₁] at hptr₂
    exact ⟨_, Outcomes.stateBind_eq_ok.mpr ⟨_, b₁, reserveLength_ok_iff.mpr ⟨rfl, heq₁⟩,
      Outcomes.stateBind_eq_ok.mpr ⟨(), b₂, heq₂, hpatch hptr₂⟩⟩⟩

end Rules

end Mtask.Bson
