import Mathlib.Algebra.Group.Nat.Defs
import Mathlib.Data.List.Basic

/-!
# Hexadecimal text

`lfromhex` tests the bit of value two of the length instead of the last one, and lets a digit of
value `16` pass. It also takes the characters in front of `a` for the digits that they follow by.

A byte outside of the text or of the buffer, and an `int` that overflows, stop the model.
-/

namespace Mtask.Crypt

open List

/-! ### The functions -/

/-- `SMALL_CHUNK` -/
def smallChunk : ℕ := 256

/-- The largest `int`. -/
def intMax : ℕ := 2 ^ 31 - 1

/-- What ends a function on text without a result. -/
inductive TextFault
  | raised (message : String)
  /-- an `int` overflows -/
  | overflow
  | outOfBounds
  deriving DecidableEq, Repr

/-- The string `hex` of `ltohex`. -/
def hex : List UInt8 :=
  [48, 49, 50, 51, 52, 53, 54, 55, 56, 57, 97, 98, 99, 100, 101, 102]

/-- The loop of `ltohex`, with a buffer of `room` bytes. -/
def toHexLoop (room : ℕ) (i : ℕ) : List UInt8 → Except TextFault (List UInt8)
  | [] => .ok []
  | b :: text =>
    if intMax < i * 2 + 1 then .error .overflow
    else if room ≤ i * 2 + 1 then .error .outOfBounds
    else (toHexLoop room (i + 1) text).map fun buffer =>
      hex.getD (b >>> 4).toNat 0 :: hex.getD (b &&& 0xf).toNat 0 :: buffer

/-- `ltohex` -/
def ltohex (text : List UInt8) : Except TextFault (List UInt8) :=
  toHexLoop (if smallChunk / 2 < text.length then text.length * 2 else smallChunk) 0 text

/-- The macro `HEX`; `c` becomes a signed character, which is a digit in the same cases. -/
def hexValue (c : UInt8) : UInt8 :=
  if 48 ≤ c ∧ c ≤ 57 then c - 48 else c - 97 + 10

/-- The loop of `lfromhex`, with a buffer of `room` bytes. -/
def fromHexLoop (room : ℕ) (i : ℕ) : List UInt8 → Except TextFault (List UInt8)
  | [] => .ok []
  | [_] => .error .outOfBounds
  | a :: b :: text =>
    if 16 < hexValue a ∨ 16 < hexValue b then .error (.raised "Invalid hex text")
    else if room ≤ i / 2 then .error .outOfBounds
    else if intMax < i + 2 then .error .overflow
    else (fromHexLoop room (i + 2) text).map fun buffer =>
      (hexValue a <<< 4 ||| hexValue b) :: buffer

/-- `lfromhex` -/
def lfromhex (text : List UInt8) : Except TextFault (List UInt8) :=
  if text.length &&& 2 ≠ 0 then
    .error (.raised s!"Invalid hex text size {(text.length : ℤ).bmod (2 ^ 32)}")
  else fromHexLoop (if smallChunk * 2 < text.length then text.length / 2 else smallChunk) 0 text

/-! ### What they should do -/

/-- The characters `0` to `9` and `a` to `f`. -/
def IsDigit (c : UInt8) : Prop :=
  48 ≤ c ∧ c ≤ 57 ∨ 97 ≤ c ∧ c ≤ 102

/-- A text with digits for every byte. -/
def IsHex (t : List UInt8) : Prop :=
  t.length % 2 = 0 ∧ ∀ c ∈ t, IsDigit c

/-- What is written is read back. -/
def Restored (s : List UInt8) : Prop :=
  ∃ t, ltohex s = .ok t ∧ lfromhex t = .ok s

/-- A text is read if it has digits for every byte, and what is read is written in the same way; any
other text raises an error, and no byte outside of it is read. -/
def Recognized (t : List UInt8) : Prop :=
  match lfromhex t with
  | .ok s => IsHex t ∧ ltohex s = .ok t
  | .error (.raised _) => ¬IsHex t
  | .error _ => False

/-- A character that `lfromhex` refuses. -/
def Refused (c : UInt8) : Prop :=
  16 < hexValue c

/-- The texts that are told apart: if the bit of value two of the length is set, those that should
raise an error; else those with a character that is refused, in the pairs that `i` gets to, and
those of an even length within the range of `int` that have nothing but digits. -/
def Told (t : List UInt8) : Prop :=
  if 2 ≤ t.length % 4 then ¬IsHex t
  else (∃ c ∈ (t.take (t.length / 2 * 2)).take (2 ^ 31), Refused c) ∨
    t.length % 4 = 0 ∧ t.length < 2 ^ 31 ∧ ∀ c ∈ t, IsDigit c

/-! ### Digits -/

instance (c : UInt8) : Decidable (IsDigit c) :=
  inferInstanceAs (Decidable (_ ∨ _))

instance (c : UInt8) : Decidable (Refused c) :=
  inferInstanceAs (Decidable (_ < _))

theorem forall_uint8 {P : UInt8 → Prop} (h : ∀ n : Fin 256, P (UInt8.ofNat n)) (c : UInt8) : P c := by
  have := h ⟨c.toNat, c.toNat_lt⟩
  rwa [UInt8.ofNat_toNat] at this

theorem hexValue_getD : ∀ n : Fin 16, IsDigit (hex.getD n 0) ∧ hexValue (hex.getD n 0) = UInt8.ofNat n := by
  decide

theorem halves_lt (b : UInt8) : (b >>> 4).toNat < 16 ∧ (b &&& 0xf).toNat < 16 := by
  rw [UInt8.toNat_shiftRight, Nat.shiftRight_eq_div_pow, UInt8.toNat_and]
  exact ⟨Nat.div_lt_of_lt_mul b.toNat_lt, Nat.and_lt_two_pow _ (show 0xf < 2 ^ 4 by decide)⟩

theorem isDigit_hex (b : UInt8) :
    IsDigit (hex.getD (b >>> 4).toNat 0) ∧ IsDigit (hex.getD (b &&& 0xf).toNat 0) :=
  ⟨(hexValue_getD ⟨_, (halves_lt b).1⟩).1, (hexValue_getD ⟨_, (halves_lt b).2⟩).1⟩

set_option maxRecDepth 2000 in
theorem hexValue_hex (b : UInt8) : hexValue (hex.getD (b >>> 4).toNat 0) <<< 4 |||
    hexValue (hex.getD (b &&& 0xf).toNat 0) = b := by
  rw [(hexValue_getD ⟨_, (halves_lt b).1⟩).2, (hexValue_getD ⟨_, (halves_lt b).2⟩).2,
    UInt8.ofNat_toNat, UInt8.ofNat_toNat]
  exact forall_uint8 (P := fun b => (b >>> 4) <<< 4 ||| (b &&& 0xf) = b) (by decide) b

set_option maxRecDepth 2000 in
theorem hexValue_lt {c : UInt8} (h : IsDigit c) : hexValue c < 16 ∧ hex.getD (hexValue c).toNat 0 = c :=
  forall_uint8 (P := fun c => IsDigit c → hexValue c < 16 ∧ hex.getD (hexValue c).toNat 0 = c)
    (by decide) c h

theorem not_refused_of_isDigit {c : UInt8} (h : IsDigit c) : ¬Refused c :=
  fun hrefused => absurd (hexValue_lt h).1 (UInt8.not_lt.mpr (UInt8.le_of_lt hrefused))

/-- The halves of a byte that is put together. -/
theorem halves {x y : UInt8} (hx : x < 16) (hy : y < 16) :
    (x <<< 4 ||| y) >>> 4 = x ∧ (x <<< 4 ||| y) &&& 0xf = y := by
  have h : ∀ n m : Fin 16, (UInt8.ofNat n <<< 4 ||| UInt8.ofNat m) >>> 4 = UInt8.ofNat n ∧
      (UInt8.ofNat n <<< 4 ||| UInt8.ofNat m) &&& 0xf = UInt8.ofNat m := by decide
  have := h ⟨x.toNat, hx⟩ ⟨y.toNat, hy⟩
  rwa [UInt8.ofNat_toNat, UInt8.ofNat_toNat] at this

/-! ### Writing -/

/-- The text for some bytes. -/
def hexText : List UInt8 → List UInt8
  | [] => []
  | b :: s => hex.getD (b >>> 4).toNat 0 :: hex.getD (b &&& 0xf).toNat 0 :: hexText s

/-- The bytes that a text is read as. -/
def hexBytes : List UInt8 → List UInt8
  | a :: b :: t => (hexValue a <<< 4 ||| hexValue b) :: hexBytes t
  | _ => []

theorem length_hexText (s : List UInt8) : (hexText s).length = 2 * s.length := by
  induction s with
  | nil => rfl
  | cons b s ih =>
    rw [hexText, length_cons, length_cons, length_cons, ih]
    rfl

theorem isDigit_of_mem_hexText {s : List UInt8} {c : UInt8} (h : c ∈ hexText s) : IsDigit c := by
  induction s with
  | nil => cases h
  | cons b s ih =>
    obtain ⟨hhigh, hlow⟩ := isDigit_hex b
    rcases mem_cons.mp h with rfl | h
    · exact hhigh
    · rcases mem_cons.mp h with rfl | h
      · exact hlow
      · exact ih h

theorem hexBytes_hexText (s : List UInt8) : hexBytes (hexText s) = s := by
  induction s with
  | nil => rfl
  | cons b s ih => rw [hexText, hexBytes, hexValue_hex, ih]

theorem hexText_hexBytes {t : List UInt8} (h : IsHex t) : hexText (hexBytes t) = t := by
  obtain ⟨heven, hdigit⟩ := h
  induction hn : t.length using Nat.strongRecOn generalizing t with
  | _ n ih =>
    match t with
    | [] => rfl
    | [_] => cases heven
    | a :: b :: t =>
      obtain ⟨ha, hhigh⟩ := hexValue_lt (hdigit a mem_cons_self)
      obtain ⟨hb, hlow⟩ := hexValue_lt (hdigit b (mem_cons_of_mem _ mem_cons_self))
      obtain ⟨hleft, hright⟩ := halves ha hb
      have hrest := ih t.length (by rw [← hn, length_cons, length_cons]; omega)
        (by rw [length_cons, length_cons] at heven; omega)
        (fun c hc => hdigit c (mem_cons_of_mem _ (mem_cons_of_mem _ hc))) rfl
      rw [hexBytes, hexText, hleft, hright, hhigh, hlow, hrest]

theorem length_hexBytes (t : List UInt8) : (hexBytes t).length = t.length / 2 := by
  induction hn : t.length using Nat.strongRecOn generalizing t with
  | _ n ih =>
    match t with
    | [] => rw [← hn]; rfl
    | [_] => rw [← hn, length_singleton]; rfl
    | a :: b :: t =>
      rw [length_cons, length_cons] at hn
      rw [hexBytes, length_cons, ih t.length (by omega) t rfl]
      omega

theorem toHexLoop_ok {room i : ℕ} {s : List UInt8} (hroom : (i + s.length) * 2 ≤ room)
    (hint : (i + s.length) * 2 ≤ 2 ^ 31) : toHexLoop room i s = .ok (hexText s) := by
  induction s generalizing i with
  | nil => rfl
  | cons b s ih =>
    rw [length_cons] at hroom hint
    rw [toHexLoop, if_neg (by rw [intMax]; omega), if_neg (by omega), ih (by omega) (by omega)]
    rfl

theorem toHexLoop_overflow {room i : ℕ} {s : List UInt8} (hroom : (i + s.length) * 2 ≤ room)
    (hi : i ≤ 2 ^ 30) (hint : 2 ^ 30 < i + s.length) : toHexLoop room i s = .error .overflow := by
  induction s generalizing i with
  | nil => exact absurd hint (Nat.not_lt.mpr hi)
  | cons b s ih =>
    rw [length_cons] at hroom hint
    rw [toHexLoop]
    rcases Nat.lt_or_ge i (2 ^ 30) with hlt | hge
    · rw [if_neg (by rw [intMax]; omega), if_neg (by omega), ih (by omega) hlt (by omega)]
      rfl
    · exact if_pos (by rw [intMax]; omega)

/-- **What `ltohex` writes.** -/
theorem ltohex_eq (s : List UInt8) :
    ltohex s = if s.length ≤ 2 ^ 30 then .ok (hexText s) else .error .overflow := by
  have hroom : s.length * 2 ≤ if smallChunk / 2 < s.length then s.length * 2 else smallChunk := by
    rw [smallChunk]
    split_ifs <;> omega
  rw [ltohex]
  generalize (if smallChunk / 2 < s.length then s.length * 2 else smallChunk) = room at hroom ⊢
  split_ifs with h
  · exact toHexLoop_ok (by rwa [Nat.zero_add]) (by omega)
  · exact toHexLoop_overflow (by rwa [Nat.zero_add]) (Nat.zero_le _) (by omega)

/-! ### Reading -/

section Read

variable {room i : ℕ} {t s : List UInt8} {a b : UInt8}

theorem fromHexLoop_refused (h : Refused a ∨ Refused b) :
    fromHexLoop room i (a :: b :: t) = .error (.raised "Invalid hex text") := by
  rw [fromHexLoop]
  exact if_pos h

theorem fromHexLoop_pair (h : ¬(Refused a ∨ Refused b)) (hroom : (i + t.length + 2) / 2 ≤ room) :
    fromHexLoop room i (a :: b :: t) = if intMax < i + 2 then .error .overflow
      else (fromHexLoop room (i + 2) t).map fun buffer =>
        (hexValue a <<< 4 ||| hexValue b) :: buffer := by
  rw [fromHexLoop]
  exact (if_neg h).trans (if_neg (by omega))

/-- **What the loop reads.** -/
theorem fromHexLoop_ok_iff (hroom : (i + t.length) / 2 ≤ room) (hi : i < 2 ^ 31) :
    fromHexLoop room i t = .ok s ↔
      s = hexBytes t ∧ t.length % 2 = 0 ∧ i + t.length < 2 ^ 31 ∧ ∀ c ∈ t, ¬Refused c := by
  induction hn : t.length using Nat.strongRecOn generalizing i t s with
  | _ n ih =>
    subst hn
    match t with
    | [] =>
      refine ⟨fun h => ⟨(Except.ok.inj h).symm, rfl, hi, nofun⟩, fun h => ?_⟩
      rw [h.1]
      rfl
    | [_] => exact iff_of_false nofun fun h => nomatch h.2.1
    | a :: b :: t =>
      rw [length_cons, length_cons] at hroom
      by_cases hrefused : Refused a ∨ Refused b
      · rw [fromHexLoop_refused hrefused]
        refine iff_of_false nofun fun h => ?_
        rcases hrefused with ha | hb
        · exact h.2.2.2 a mem_cons_self ha
        · exact h.2.2.2 b (mem_cons_of_mem _ mem_cons_self) hb
      · rw [fromHexLoop_pair hrefused hroom]
        obtain ⟨ha, hb⟩ := not_or.mp hrefused
        simp only [length_cons, forall_mem_cons, hexBytes]
        by_cases hover : intMax < i + 2
        · rw [if_pos hover]
          rw [intMax] at hover
          exact iff_of_false nofun fun h => by omega
        · rw [if_neg hover]
          rw [intMax] at hover
          have hrest (s' : List UInt8) := ih t.length (by rw [length_cons, length_cons]; omega)
            (i := i + 2) (t := t) (s := s') (by omega) (by omega) rfl
          rcases hloop : fromHexLoop room (i + 2) t with e | s'
          · rw [hloop] at hrest
            refine iff_of_false nofun fun h => ?_
            cases (hrest (hexBytes t)).mpr ⟨rfl, by omega, by omega, h.2.2.2.2.2⟩
          · rw [hloop] at hrest
            obtain ⟨rfl, heven, hlt, hall⟩ := (hrest s').mp rfl
            refine ⟨fun h => ⟨(Except.ok.inj h).symm, by omega, by omega, ha, hb, hall⟩, fun h => ?_⟩
            rw [h.1]
            rfl

/-- The characters that the loop gets to from `i` on. -/
def reached (i : ℕ) (t : List UInt8) : List UInt8 :=
  (t.take (t.length / 2 * 2)).take (2 ^ 31 - i)

theorem reached_pair (h : i + 2 ≤ 2 ^ 31) :
    reached i (a :: b :: t) = a :: b :: reached (i + 2) t := by
  have hlen : (a :: b :: t).length / 2 * 2 = t.length / 2 * 2 + 1 + 1 := by
    rw [length_cons, length_cons]
    omega
  have hint : 2 ^ 31 - i = 2 ^ 31 - (i + 2) + 1 + 1 := by omega
  rw [reached, hlen, hint, take_succ_cons, take_succ_cons, take_succ_cons,
    take_succ_cons, reached]

theorem reached_of_length_le (h : t.length ≤ 1) : reached i t = [] := by
  have hlen : t.length / 2 * 2 = 0 := by omega
  rw [reached, hlen, take_zero, take_nil]

theorem reached_last (t : List UInt8) : reached (2 ^ 31) t = [] := by
  rw [reached, Nat.sub_self, take_zero]

/-- **What the loop refuses.** -/
theorem fromHexLoop_raised_iff (hroom : (i + t.length) / 2 ≤ room) (hi : i < 2 ^ 31)
    (heven : i % 2 = 0) (message : String) :
    fromHexLoop room i t = .error (.raised message) ↔ message = "Invalid hex text" ∧
      ∃ c ∈ reached i t, Refused c := by
  induction hn : t.length using Nat.strongRecOn generalizing i t with
  | _ n ih =>
    subst hn
    match t with
    | [] =>
      rw [reached_of_length_le (Nat.zero_le _)]
      exact iff_of_false nofun fun ⟨_, _, hmem, _⟩ => nomatch hmem
    | [_] =>
      rw [reached_of_length_le (Nat.le_refl _)]
      exact iff_of_false nofun fun ⟨_, _, hmem, _⟩ => nomatch hmem
    | a :: b :: t =>
      rw [length_cons, length_cons] at hroom
      rw [reached_pair (by omega)]
      simp only [exists_mem_cons_iff]
      by_cases hrefused : Refused a ∨ Refused b
      · rw [fromHexLoop_refused hrefused]
        have hany : Refused a ∨ Refused b ∨ ∃ c ∈ reached (i + 2) t, Refused c := by
          rcases hrefused with ha | hb
          · exact .inl ha
          · exact .inr (.inl hb)
        exact ⟨fun h => ⟨(TextFault.raised.inj (Except.error.inj h)).symm, hany⟩,
          fun h => by rw [h.1]⟩
      · obtain ⟨ha, hb⟩ := not_or.mp hrefused
        simp only [ha, hb, false_or]
        rw [fromHexLoop_pair hrefused hroom]
        by_cases hover : intMax < i + 2
        · have hlast : i + 2 = 2 ^ 31 := by
            rw [intMax] at hover
            omega
          rw [if_pos hover, hlast, reached_last]
          exact iff_of_false nofun fun ⟨_, _, hmem, _⟩ => nomatch hmem
        · rw [if_neg hover]
          rw [intMax] at hover
          have hrest := ih t.length (by rw [length_cons, length_cons]; omega)
            (i := i + 2) (t := t) (by omega) (by omega) (by omega) rfl
          rw [← hrest]
          rcases fromHexLoop room (i + 2) t with e | s'
          · exact Iff.rfl
          · exact iff_of_false nofun nofun

end Read

/-! ### The functions -/

section Functions

variable {t s : List UInt8}

theorem and_two_ne_zero (n : ℕ) : n &&& 2 ≠ 0 ↔ 2 ≤ n % 4 := by
  have hmod : n &&& 2 = n % 4 &&& 2 := by
    have h := Nat.and_mod_two_pow (a := n) (b := 2) (n := 2)
    have hlt : n &&& 2 < 2 ^ 2 := Nat.lt_of_le_of_lt Nat.and_le_right (by decide)
    rwa [Nat.mod_eq_of_lt hlt] at h
  have hall : ∀ m < 4, (m &&& 2 ≠ 0 ↔ 2 ≤ m) := by decide
  rw [hmod]
  exact hall _ (Nat.mod_lt _ (by decide))

theorem lfromhex_of_bit (h : 2 ≤ t.length % 4) : ∃ message,
    lfromhex t = .error (.raised message) :=
  ⟨_, if_pos ((and_two_ne_zero _).mpr h)⟩

theorem lfromhex_eq (h : t.length % 4 < 2) : ∃ room, (0 + t.length) / 2 ≤ room ∧
    lfromhex t = fromHexLoop room 0 t := by
  refine ⟨_, ?_, if_neg fun hbit => ?_⟩
  · rw [smallChunk, Nat.zero_add]
    split_ifs <;> omega
  · exact absurd ((and_two_ne_zero _).mp hbit) (Nat.not_le.mpr h)

theorem lfromhex_ok_iff : lfromhex t = .ok s ↔ s = hexBytes t ∧ t.length % 4 = 0 ∧
    t.length < 2 ^ 31 ∧ ∀ c ∈ t, ¬Refused c := by
  by_cases h : t.length % 4 < 2
  · obtain ⟨room, hroom, heq⟩ := lfromhex_eq h
    rw [heq, fromHexLoop_ok_iff hroom (by decide), Nat.zero_add]
    exact and_congr_right fun _ => and_congr_left fun _ => by omega
  · obtain ⟨message, heq⟩ := lfromhex_of_bit (Nat.not_lt.mp h)
    rw [heq]
    exact iff_of_false nofun fun hok => by omega

/-- What `lfromhex` refuses, if the bit of value two is not set. -/
theorem lfromhex_raised_iff (h : t.length % 4 < 2) (message : String) :
    lfromhex t = .error (.raised message) ↔ message = "Invalid hex text" ∧
      ∃ c ∈ (t.take (t.length / 2 * 2)).take (2 ^ 31), Refused c := by
  obtain ⟨room, hroom, heq⟩ := lfromhex_eq h
  rw [heq]
  exact fromHexLoop_raised_iff hroom (by decide) rfl message

/-- **Which strings are restored.** -/
theorem restored_iff (s : List UInt8) : Restored s ↔ s.length % 2 = 0 ∧ s.length < 2 ^ 30 := by
  rw [Restored, ltohex_eq]
  refine ⟨?_, fun ⟨heven, hlt⟩ => ⟨hexText s, if_pos (Nat.le_of_lt hlt), ?_⟩⟩
  · rintro ⟨t, hwrite, hread⟩
    split_ifs at hwrite with hle
    obtain rfl := Except.ok.inj hwrite
    obtain ⟨-, hmod, hlt, -⟩ := lfromhex_ok_iff.mp hread
    rw [length_hexText] at hmod hlt
    omega
  · refine lfromhex_ok_iff.mpr ⟨(hexBytes_hexText s).symm, ?_, ?_, fun c hc =>
      not_refused_of_isDigit (isDigit_of_mem_hexText hc)⟩
    · rw [length_hexText]
      omega
    · rw [length_hexText]
      omega

/-- **Which texts are told apart.** -/
theorem recognized_iff (t : List UInt8) : Recognized t ↔ Told t := by
  by_cases h : 2 ≤ t.length % 4
  · obtain ⟨message, heq⟩ := lfromhex_of_bit h
    rw [Recognized, heq, Told, if_pos h]
  · have hraised := lfromhex_raised_iff (Nat.not_le.mp h)
    rw [Told, if_neg h, Recognized]
    have hends (htold : (∃ c ∈ (t.take (t.length / 2 * 2)).take (2 ^ 31), Refused c) ∨
        t.length % 4 = 0 ∧ t.length < 2 ^ 31 ∧ ∀ c ∈ t, IsDigit c) :
        lfromhex t = .error (.raised "Invalid hex text") ∨ lfromhex t = .ok (hexBytes t) := by
      rcases htold with hrefused | ⟨hmod, hlt, hall⟩
      · exact .inl ((hraised _).mpr ⟨rfl, hrefused⟩)
      · exact .inr (lfromhex_ok_iff.mpr
          ⟨rfl, hmod, hlt, fun c hc => not_refused_of_isDigit (hall c hc)⟩)
    rcases heq : lfromhex t with (message | _ | _) | s
    · obtain ⟨-, hrefused⟩ := (hraised message).mp heq
      refine iff_of_true (fun hhex => ?_) (.inl hrefused)
      obtain ⟨c, hc, hrefused⟩ := hrefused
      exact not_refused_of_isDigit (hhex.2 c (mem_of_mem_take (mem_of_mem_take hc)))
        hrefused
    · rw [heq] at hends
      exact iff_of_false id fun htold => by rcases hends htold with h | h <;> cases h
    · rw [heq] at hends
      exact iff_of_false id fun htold => by rcases hends htold with h | h <;> cases h
    · obtain ⟨rfl, hmod, hlt, hall⟩ := lfromhex_ok_iff.mp heq
      refine ⟨fun hhex => .inr ⟨hmod, hlt, hhex.1.2⟩, ?_⟩
      rintro (⟨c, hc, hrefused⟩ | ⟨-, -, hdigit⟩)
      · exact absurd hrefused (hall c (mem_of_mem_take (mem_of_mem_take hc)))
      · have hhex : IsHex t := ⟨by omega, hdigit⟩
        refine ⟨hhex, ?_⟩
        rw [ltohex_eq, length_hexBytes, if_pos (by omega), hexText_hexBytes hhex]

/-- **The codec.** A string is restored if and only if its length is even and less than `2 ^ 30`;
a text is told apart if and only if it is as in `Told`. -/
theorem hex_iff (s t : List UInt8) :
    (Restored s ↔ s.length % 2 = 0 ∧ s.length < 2 ^ 30) ∧ (Recognized t ↔ Told t) :=
  ⟨restored_iff s, recognized_iff t⟩

/-- The text of one byte is refused for its length; for a text of one character the one behind it is
read; and `g` and `W` are taken for digits. -/
theorem hex_fails : ltohex [0xab] = .ok [97, 98] ∧
    lfromhex [97, 98] = .error (.raised "Invalid hex text size 2") ∧
    lfromhex [97] = .error .outOfBounds ∧ lfromhex [103, 103, 87, 87] = .ok [16, 0] ∧
    (¬∀ s, Restored s) ∧ ¬∀ t, Recognized t := by
  refine ⟨by decide, by decide, by decide, by decide, fun hall => ?_, fun hall => ?_⟩
  · obtain ⟨heven, -⟩ := (restored_iff [0xab]).mp (hall [0xab])
    cases heven
  · have h := hall [97]
    rw [Recognized, show lfromhex [97] = .error .outOfBounds by decide] at h
    exact h

end Functions

end Mtask.Crypt
