import Mtask.Crypt.Des
import Mtask.Crypt.Hex
import Mtask.Lib.Buffers

/-!
# Text in blocks

`ldesencode` puts a byte `0x80` and zeros behind a text, up to the next multiple of eight, and
encrypts the blocks. `ldesdecode` looks for the byte from behind. It compares its index, an `int`,
with a size: in front of the first byte the index is larger than every size, so that the byte in
front of the buffer is read if a single block of zeros was encrypted.

The bytes that are written so far are a list, since they are written in order. An `int` that
overflows or a length that does not fit into one, and a byte outside of a buffer, stop the model.
-/

namespace Mtask.Crypt

open Buffers
open List

/-! ### The functions -/

/-- `des_key` -/
def desKey (key : List UInt8) : Except TextFault (List UInt32) :=
  if key.length ≠ 8 then
    .error (.raised s!"Invalid key size {(key.length : ℤ).bmod (2 ^ 32)}, need 8 bytes")
  else .ok (desMainKs key)

/-- The loop of `ldesencode`, with what it has written, and where it ends. -/
def desEncodeLoop (sk : List UInt32) (text : List UInt8) (i : ℕ) (buffer : List UInt8) :
    ℕ × List UInt8 :=
  if (i : ℤ) < text.length - 7 then
    desEncodeLoop sk text (i + 8) (buffer ++ desCrypt sk (slice text i 8))
  else (i, buffer)
termination_by text.length - i

/-- A byte of `tail`. -/
def tailByte (text : List UInt8) (i j : ℕ) : UInt8 :=
  if (j : ℤ) < text.length - i then text.getD (i + j) 0
  else if (j : ℤ) = text.length - i then 0x80
  else 0

/-- `ldesencode` -/
def ldesencode (key text : List UInt8) : Except TextFault (List UInt8) :=
  match desKey key with
  | .error e => .error e
  | .ok sk =>
    if intMax < text.length then .error .overflow
    else
      let r := desEncodeLoop sk text 0 []
      .ok (r.2 ++ desCrypt sk ((List.range 8).map (tailByte text r.1)))

/-- The loop of `ldesdecode`, with what it has written. -/
def desDecodeLoop (sk : List UInt32) (text : List UInt8) (i : ℕ) (buffer : List UInt8) :
    Except TextFault (List UInt8) :=
  if i < text.length then
    if intMax < i + 8 then .error .overflow
    else desDecodeLoop sk text (i + 8) (buffer ++ desCrypt sk (slice text i 8))
  else .ok buffer
termination_by text.length - i

/-- The message of `ldesdecode`. -/
def invalidText : TextFault :=
  .raised "Invalid des crypt text"

/-- The last loop of `ldesdecode`, with the index `i - 1` and the bytes from `low` on. -/
def desScan (buffer : List UInt8) (low : ℕ) : ℕ → ℕ → Except TextFault ℕ
  -- as a size, `-1` is not below `low`
  | 0, _ => .error .outOfBounds
  | i + 1, padding =>
    if low ≤ i then
      match buffer[i]? with
      | none => .error .outOfBounds
      | some b =>
        if b = 0 then desScan buffer low i (padding + 1)
        else if b = 0x80 then .ok padding
        else .error invalidText
    else .ok padding

/-- `ldesdecode` -/
def ldesdecode (key text : List UInt8) : Except TextFault (List UInt8) :=
  match desKey key with
  | .error e => .error e
  | .ok esk =>
    if text.length &&& 7 ≠ 0 ∨ text.length = 0 then
      .error (.raised s!"Invalid des crypt text length {(text.length : ℤ).bmod (2 ^ 32)}")
    else
      match desDecodeLoop (reversedKeys esk) text 0 [] with
      | .error e => .error e
      | .ok buffer =>
        -- the length is an `int`, since the loop has come to an end
        match desScan buffer (text.length - 8) text.length 1 with
        | .error e => .error e
        | .ok padding =>
          if 8 < padding then .error invalidText
          else .ok (buffer.take (text.length - padding))

/-! ### What they should do -/

/-- What is put behind a text. -/
def paddingOf (text : List UInt8) : List UInt8 :=
  0x80 :: List.replicate (7 - text.length % 8) 0

/-- A text is decoded to itself, and its code has the next multiple of eight as its length. -/
def RoundTrip (key text : List UInt8) : Prop :=
  ∃ c, ldesencode key text = .ok c ∧ ldesdecode key c = .ok text ∧
    8 ∣ c.length ∧ text.length < c.length ∧ c.length ≤ text.length + 8

/-- `ldesdecode` gives the texts that `ldesencode` makes the code of, and raises an error for every
other code, and for none of them reads outside of its buffer. -/
def Accepts (key code : List UInt8) : Prop :=
  (∀ text, ldesdecode key code = .ok text ↔ ldesencode key text = .ok code) ∧
    ∀ e, ldesdecode key code = .error e → ∃ message, e = .raised message

/-- The codes that `ldesdecode` does this for: those that are no multiple of eight, and those that
are less than `2 ^ 31` bytes and not the code of a single block of zeros. -/
def Scannable (key code : List UInt8) : Prop :=
  code.length % 8 ≠ 0 ∨
    code.length < 2 ^ 31 ∧ code ≠ desCrypt (desMainKs key) (List.replicate 8 0)

/-! ### Blocks -/

section Blocks

variable {sk sk' : List UInt32} {text buffer : List UInt8} {i n : ℕ}

/-- The first blocks of a text. -/
def cryptBlocks (sk : List UInt32) : ℕ → List UInt8 → List UInt8
  | 0, _ => []
  | n + 1, text => desCrypt sk (text.take 8) ++ cryptBlocks sk n (text.drop 8)

@[simp]
theorem length_cryptBlocks (sk : List UInt32) (n : ℕ) (text : List UInt8) :
    (cryptBlocks sk n text).length = 8 * n := by
  induction n generalizing text with
  | zero => rfl
  | succ n ih =>
    rw [cryptBlocks, length_append, length_desCrypt, ih]
    omega

theorem cryptBlocks_cryptBlocks
    (h : ∀ b : List UInt8, b.length = 8 → desCrypt sk' (desCrypt sk b) = b)
    (htext : text.length = 8 * n) : cryptBlocks sk' n (cryptBlocks sk n text) = text := by
  induction n generalizing text with
  | zero => exact (length_eq_zero_iff.mp htext).symm
  | succ n ih =>
    have hfirst : (text.take 8).length = 8 := by
      rw [length_take]
      omega
    have hrest : (text.drop 8).length = 8 * n := by
      rw [length_drop]
      omega
    rw [cryptBlocks, cryptBlocks, take_left' (length_desCrypt _ _),
      drop_left' (length_desCrypt _ _), h _ hfirst, ih hrest, take_append_drop]

theorem cryptBlocks_append {padding : List UInt8} (htext : 8 * n ≤ text.length)
    (hlast : (text.drop (8 * n) ++ padding).length = 8) :
    cryptBlocks sk (n + 1) (text ++ padding) =
      cryptBlocks sk n text ++ desCrypt sk (text.drop (8 * n) ++ padding) := by
  induction n generalizing text with
  | zero =>
    rw [Nat.mul_zero, drop_zero] at hlast ⊢
    rw [cryptBlocks, cryptBlocks, cryptBlocks, take_of_length_le (Nat.le_of_eq hlast),
      append_nil, nil_append]
  | succ n ih =>
    have hdrop : text.drop (8 * (n + 1)) = (text.drop 8).drop (8 * n) := by
      rw [drop_drop, Nat.mul_succ, Nat.add_comm]
    rw [hdrop] at hlast ⊢
    rw [cryptBlocks, take_append_of_le_length (by omega),
      drop_append_of_le_length (by omega), ih (by rw [length_drop]; omega) hlast,
      cryptBlocks, append_assoc]

theorem desEncodeLoop_eq (hle : i + 8 * n ≤ text.length) (hlt : text.length < i + 8 * n + 8) :
    desEncodeLoop sk text i buffer = (i + 8 * n, buffer ++ cryptBlocks sk n (text.drop i)) := by
  induction n generalizing i buffer with
  | zero =>
    rw [desEncodeLoop, if_neg (by omega), cryptBlocks, append_nil]
    rfl
  | succ n ih =>
    rw [desEncodeLoop, if_pos (by omega), ih (by omega) (by omega), cryptBlocks, drop_drop,
      append_assoc, slice, Nat.add_assoc, Nat.mul_succ, Nat.add_comm (8 * n)]

theorem desDecodeLoop_eq (hlength : text.length = i + 8 * n) (hint : text.length ≤ intMax) :
    desDecodeLoop sk text i buffer = .ok (buffer ++ cryptBlocks sk n (text.drop i)) := by
  induction n generalizing i buffer with
  | zero => rw [desDecodeLoop, if_neg (by omega), cryptBlocks, append_nil]
  | succ n ih =>
    rw [desDecodeLoop, if_pos (by omega), if_neg (by omega), ih (by omega), cryptBlocks,
      drop_drop, append_assoc, slice]

/-- The index of a text that is too long overflows. -/
theorem desDecodeLoop_overflow (hi : i ≤ intMax) (hint : intMax < text.length) :
    desDecodeLoop sk text i buffer = .error .overflow := by
  induction i, buffer using desDecodeLoop.induct sk text with
  | case1 i buffer hlt hover => rw [desDecodeLoop, if_pos hlt, if_pos hover]
  | case2 i buffer hlt hover ih =>
    rw [desDecodeLoop, if_pos hlt, if_neg hover, ih (Nat.not_lt.mp hover)]
  | case3 i buffer hge => omega

end Blocks

/-! ### Padding -/

section Padding

variable {text buffer : List UInt8} {i low e p q : ℕ}

theorem length_append_paddingOf (text : List UInt8) :
    (text ++ paddingOf text).length = 8 * (text.length / 8 + 1) := by
  rw [length_append, paddingOf, length_cons, length_replicate]
  omega

theorem tail_eq (text : List UInt8) :
    (List.range 8).map (tailByte text (8 * (text.length / 8))) =
      text.drop (8 * (text.length / 8)) ++ paddingOf text := by
  refine ext_getElem ?_ fun j hj hj' => ?_
  · have hpadding := length_append_paddingOf text
    simp only [length_append, length_drop, length_map, length_range] at *
    omega
  · have hlast : (text.drop (8 * (text.length / 8))).length = text.length % 8 := by
      rw [length_drop]
      omega
    rw [getElem_map, getElem_range, tailByte]
    split_ifs with hlt heq
    · rw [getElem_append_left (by omega), getElem_drop, getD_eq_getElem]
    · rw [getElem_append_right (by omega)]
      simp only [paddingOf, getElem_cons, length_drop]
      rw [dif_pos (by omega)]
    · rw [getElem_append_right (by omega)]
      simp only [paddingOf, getElem_cons, length_drop, getElem_replicate]
      rw [dif_neg (by omega)]

theorem desScan_ok (h : desScan buffer low i p = .ok q) : ∃ e, 0 < e ∧ e ≤ i ∧ q = p + (i - e) ∧
    (∀ j, e ≤ j → j < i → buffer[j]? = some 0) ∧ (e ≤ low ∨ buffer[e - 1]? = some 0x80) := by
  induction i generalizing p with
  | zero => nomatch h
  | succ i ih =>
    rw [desScan] at h
    split_ifs at h with hlow
    · split at h
      · nomatch h
      · next b hb =>
        split_ifs at h with hzero hone
        · obtain ⟨e, hpos, hle, rfl, hzeros, hend⟩ := ih h
          refine ⟨e, hpos, by omega, by omega, fun j hj hj' => ?_, hend⟩
          rcases Nat.lt_succ_iff_lt_or_eq.mp hj' with hlt | rfl
          · exact hzeros j hj hlt
          · rw [hb, hzero]
        · obtain rfl := Except.ok.inj h
          exact ⟨i + 1, by omega, le_rfl, by omega, fun j hj hj' => by omega,
            .inr (by rw [Nat.add_sub_cancel, hb, hone])⟩
    · obtain rfl := Except.ok.inj h
      exact ⟨i + 1, by omega, le_rfl, by omega, fun j hj hj' => by omega, .inl (by omega)⟩

/-- A scan over zeros to the byte in front of them. -/
theorem desScan_eq (he : low < e) (hle : e ≤ i)
    (hzeros : ∀ j, e ≤ j → j < i → buffer[j]? = some 0) (hend : buffer[e - 1]? = some 0x80) :
    desScan buffer low i p = .ok (p + (i - e)) := by
  induction i generalizing p with
  | zero => omega
  | succ i ih =>
    rw [desScan, if_pos (by omega)]
    rcases Nat.lt_or_eq_of_le hle with hlt | rfl
    · rw [hzeros i (by omega) (by omega)]
      simp only [if_true]
      rw [ih (by omega) fun j hj hj' => hzeros j hj (by omega)]
      congr 1
      omega
    · rw [Nat.add_sub_cancel] at hend
      rw [hend, Nat.sub_self]
      rfl

theorem desScan_zeros (hzeros : ∀ j < i, buffer[j]? = some 0) :
    desScan buffer 0 i p = .error .outOfBounds := by
  induction i generalizing p with
  | zero => rfl
  | succ i ih =>
    rw [desScan, if_pos (Nat.zero_le i), hzeros i (Nat.lt_succ_self i)]
    exact ih fun j hj => hzeros j (by omega)

/-- A scan that fails is refused, or has gone over nothing but zeros. -/
theorem desScan_error {fault : TextFault} (hi : i ≤ buffer.length)
    (h : desScan buffer low i p = .error fault) :
    fault = invalidText ∨ (low = 0 ∨ i = 0) ∧ ∀ j < i, buffer[j]? = some 0 := by
  induction i generalizing p with
  | zero => exact .inr ⟨.inr rfl, fun j hj => absurd hj (Nat.not_lt_zero j)⟩
  | succ i ih =>
    rw [desScan] at h
    split_ifs at h with hlow
    rw [getElem?_eq_getElem (show i < buffer.length by omega)] at h
    simp only at h
    split_ifs at h with hzero hone
    · obtain hfault | ⟨hlast, hzeros⟩ := ih (by omega) h
      · exact .inl hfault
      · refine .inr ⟨.inl (by omega), fun j hj => ?_⟩
        rcases Nat.lt_succ_iff_lt_or_eq.mp hj with hlt | rfl
        · exact hzeros j hlt
        · rw [getElem?_eq_getElem (by omega), hzero]
    · exact .inl (Except.error.inj h).symm

/-- The byte `0x80` and the zeros behind it are what was put behind the text. -/
theorem eq_append_paddingOf (hlength : 8 ∣ buffer.length) (hlow : buffer.length - 8 < e)
    (hle : e ≤ buffer.length) (hzeros : ∀ j, e ≤ j → j < buffer.length → buffer[j]? = some 0)
    (hend : buffer[e - 1]? = some 0x80) :
    buffer = buffer.take (e - 1) ++ paddingOf (buffer.take (e - 1)) := by
  have htake : (buffer.take (e - 1)).length = e - 1 := by
    rw [length_take]
    omega
  have hpadding := length_append_paddingOf (buffer.take (e - 1))
  refine ext_getElem (by omega) fun j hj hj' => ?_
  by_cases hlt : j < e - 1
  · rw [getElem_append_left (by omega), getElem_take]
  · rw [getElem_append_right (by omega)]
    simp only [paddingOf, getElem_cons, htake, getElem_replicate]
    split_ifs with heq
    · obtain rfl : j = e - 1 := by omega
      exact Option.some.inj ((getElem?_eq_getElem hj).symm.trans hend)
    · exact Option.some.inj ((getElem?_eq_getElem hj).symm.trans (hzeros j (by omega) hj))

theorem getElem?_append_paddingOf (text : List UInt8) :
    (text ++ paddingOf text)[text.length]? = some 0x80 ∧
      ∀ j, text.length + 1 ≤ j → j < (text ++ paddingOf text).length →
        (text ++ paddingOf text)[j]? = some 0 := by
  refine ⟨by rw [getElem?_append_right le_rfl, Nat.sub_self]; rfl, fun j hj hj' => ?_⟩
  rw [getElem?_eq_getElem hj', getElem_append_right (by omega)]
  simp only [paddingOf, getElem_cons, getElem_replicate]
  rw [dif_neg (by omega)]

end Padding

/-! ### What the functions come to -/

section Text

variable {key text code : List UInt8} {n : ℕ}

theorem desKey_eq (hkey : key.length = 8) : desKey key = .ok (desMainKs key) :=
  if_neg (not_not.mpr hkey)

/-- The code of a text. -/
def codeOf (key text : List UInt8) : List UInt8 :=
  cryptBlocks (desMainKs key) (text.length / 8 + 1) (text ++ paddingOf text)

theorem length_codeOf (key text : List UInt8) :
    (codeOf key text).length = 8 * (text.length / 8 + 1) :=
  length_cryptBlocks _ _ _

/-- **What `ldesencode` comes to.** -/
theorem ldesencode_eq (hkey : key.length = 8) (hint : text.length ≤ intMax) :
    ldesencode key text = .ok (codeOf key text) := by
  have hlast : (text.drop (8 * (text.length / 8)) ++ paddingOf text).length = 8 := by
    have hpadding := length_append_paddingOf text
    simp only [length_append, length_drop] at *
    omega
  have hloop : desEncodeLoop (desMainKs key) text 0 [] = (0 + 8 * (text.length / 8), _) :=
    desEncodeLoop_eq (by omega) (by omega)
  rw [ldesencode, desKey_eq hkey]
  simp only [if_neg (Nat.not_lt.mpr hint), hloop, Nat.zero_add]
  rw [tail_eq, codeOf, cryptBlocks_append (by omega) hlast]
  rfl

theorem ldesencode_eq_ok_iff (hkey : key.length = 8) :
    ldesencode key text = .ok code ↔ text.length ≤ intMax ∧ code = codeOf key text := by
  by_cases hint : text.length ≤ intMax
  · rw [ldesencode_eq hkey hint, Except.ok.injEq, eq_comm]
    exact (and_iff_right hint).symm
  · rw [ldesencode, desKey_eq hkey]
    simp only [if_pos (Nat.not_le.mp hint)]
    exact iff_of_false nofun fun h => hint h.1

theorem and_seven (n : ℕ) : n &&& 7 = n % 8 :=
  Nat.and_two_pow_sub_one_eq_mod n 3

theorem ldesdecode_of_length (hkey : key.length = 8) (hlength : code.length % 8 ≠ 0 ∨ code = []) :
    ∃ message, ldesdecode key code = .error (.raised message) := by
  have hinvalid : code.length &&& 7 ≠ 0 ∨ code.length = 0 := by
    rwa [and_seven, length_eq_zero_iff]
  rw [ldesdecode, desKey_eq hkey]
  simp only [if_pos hinvalid]
  exact ⟨_, rfl⟩

theorem ldesdecode_overflow (hkey : key.length = 8) (hlength : code.length % 8 = 0)
    (hint : intMax < code.length) : ldesdecode key code = .error .overflow := by
  rw [ldesdecode, desKey_eq hkey]
  simp only [and_seven, hlength]
  rw [if_neg (by omega), desDecodeLoop_overflow (Nat.zero_le _) hint]

/-- The blocks that `ldesdecode` scans. -/
def decodedBlocks (key code : List UInt8) : List UInt8 :=
  cryptBlocks (reversedKeys (desMainKs key)) (code.length / 8) code

theorem ldesdecode_eq (hkey : key.length = 8) (hlength : code.length = 8 * (n + 1))
    (hint : code.length ≤ intMax) : ldesdecode key code =
      match desScan (decodedBlocks key code) (8 * n) (8 * (n + 1)) 1 with
      | .error e => .error e
      | .ok padding => if 8 < padding then .error invalidText
        else .ok ((decodedBlocks key code).take (8 * (n + 1) - padding)) := by
  have hloop : desDecodeLoop (reversedKeys (desMainKs key)) code 0 [] =
      .ok ([] ++ cryptBlocks (reversedKeys (desMainKs key)) (n + 1) (code.drop 0)) :=
    desDecodeLoop_eq (by omega) hint
  have hblocks : decodedBlocks key code =
      [] ++ cryptBlocks (reversedKeys (desMainKs key)) (n + 1) (code.drop 0) := by
    rw [decodedBlocks, hlength, Nat.mul_div_cancel_left _ (by decide)]
    rfl
  rw [ldesdecode, desKey_eq hkey]
  simp only [and_seven]
  rw [if_neg (by omega), hloop, ← hblocks]
  simp only [hlength, show 8 * (n + 1) - 8 = 8 * n by omega]

theorem length_decodedBlocks (key : List UInt8) (hlength : code.length = 8 * n) :
    (decodedBlocks key code).length = 8 * n := by
  rw [decodedBlocks, length_cryptBlocks, hlength, Nat.mul_div_cancel_left _ (by decide)]

/-- **What `ldesdecode` comes to.** -/
theorem ldesdecode_eq_ok_iff (hkey : key.length = 8) (hlength : code.length = 8 * (n + 1))
    (hint : code.length ≤ intMax) :
    ldesdecode key code = .ok text ↔ decodedBlocks key code = text ++ paddingOf text := by
  have hblocks := length_decodedBlocks key hlength
  rw [ldesdecode_eq hkey hlength hint]
  constructor
  · intro h
    split at h
    · nomatch h
    · next padding hscan =>
      obtain ⟨e, hpos, hle, rfl, hzeros, hend⟩ := desScan_ok hscan
      split_ifs at h with hsize
      obtain rfl := Except.ok.inj h
      rw [show 8 * (n + 1) - (1 + (8 * (n + 1) - e)) = e - 1 by omega]
      exact eq_append_paddingOf ⟨n + 1, hblocks⟩ (by omega) (by omega) (by rwa [hblocks])
        (hend.resolve_left (by omega))
  · intro h
    have hsize := length_append_paddingOf text
    obtain ⟨hend, hzeros⟩ := getElem?_append_paddingOf text
    rw [← h, hblocks] at hsize hzeros
    rw [← h] at hend
    rw [desScan_eq (e := text.length + 1) (by omega) (by omega) hzeros hend]
    simp only
    rw [if_neg (by omega), h, show 8 * (n + 1) - (1 + (8 * (n + 1) - (text.length + 1))) =
      text.length by omega, take_left]

theorem decodedBlocks_eq_iff (hlength : code.length = 8 * n) {buffer : List UInt8}
    (hbuffer : buffer.length = 8 * n) :
    decodedBlocks key code = buffer ↔ code = cryptBlocks (desMainKs key) n buffer := by
  rw [decodedBlocks, hlength, Nat.mul_div_cancel_left _ (by decide)]
  constructor
  · rintro rfl
    exact (cryptBlocks_cryptBlocks (fun _ => desCrypt_of_reversedKeys _) hlength).symm
  · rintro rfl
    exact cryptBlocks_cryptBlocks (fun _ => desCrypt_reversedKeys _) hbuffer

theorem ldesdecode_iff (hkey : key.length = 8) (hlength : code.length = 8 * (n + 1))
    (hint : code.length ≤ intMax) :
    ldesdecode key code = .ok text ↔ ldesencode key text = .ok code := by
  have hpadding := length_append_paddingOf text
  rw [ldesdecode_eq_ok_iff hkey hlength hint, ldesencode_eq_ok_iff hkey]
  constructor
  · intro h
    have hsize : text.length / 8 = n := by
      rw [← h, length_decodedBlocks key hlength] at hpadding
      omega
    refine ⟨by omega, ?_⟩
    rw [codeOf, hsize]
    rw [hsize] at hpadding
    exact (decodedBlocks_eq_iff hlength hpadding).mp h
  · rintro ⟨-, hcode⟩
    have hsize : text.length / 8 = n := by
      rw [hcode, length_codeOf] at hlength
      omega
    rw [codeOf, hsize] at hcode
    rw [hsize] at hpadding
    exact (decodedBlocks_eq_iff hlength hpadding).mpr hcode

theorem roundTrip (hkey : key.length = 8) (hlt : text.length < 2 ^ 31 - 8) : RoundTrip key text := by
  have hcode := length_codeOf key text
  have hencode : ldesencode key text = .ok (codeOf key text) :=
    ldesencode_eq hkey (by rw [intMax]; omega)
  exact ⟨codeOf key text, hencode,
    (ldesdecode_iff hkey hcode (by rw [intMax]; omega)).mpr hencode, ⟨_, hcode⟩, by omega, by omega⟩

/-- **A text is decoded to itself**, and the reversed schedule undoes every block. -/
theorem des_text_round_trip {key : List UInt8} (hkey : key.length = 8) :
    (∀ text : List UInt8, text.length < 2 ^ 31 - 8 → RoundTrip key text) ∧
      ∀ b : List UInt8, b.length = 8 →
        desCrypt (reversedKeys (desMainKs key)) (desCrypt (desMainKs key) b) = b :=
  ⟨fun _ => roundTrip hkey, fun _ => desCrypt_reversedKeys _⟩

theorem des_text_round_trip_zeros :
    (∀ text : List UInt8, text.length < 2 ^ 31 - 8 → RoundTrip (List.replicate 8 0) text) ∧
      ∀ b : List UInt8, b.length = 8 → desCrypt (reversedKeys (desMainKs (List.replicate 8 0)))
        (desCrypt (desMainKs (List.replicate 8 0)) b) = b :=
  des_text_round_trip rfl

/-! ### The codes that are accepted -/

/-- An error of `ldesdecode` is a message, or comes from a single block of zeros. -/
theorem ldesdecode_error (hkey : key.length = 8) (hlength : code.length = 8 * (n + 1))
    (hint : code.length ≤ intMax) {fault : TextFault} (h : ldesdecode key code = .error fault) :
    fault = invalidText ∨ decodedBlocks key code = List.replicate 8 0 := by
  have hblocks := length_decodedBlocks key hlength
  rw [ldesdecode_eq hkey hlength hint] at h
  split at h
  · next e hscan =>
    obtain rfl := Except.error.inj h
    refine (desScan_error hblocks.ge hscan).imp_right fun ⟨hlow, hzeros⟩ => ?_
    obtain rfl : n = 0 := by omega
    refine ext_getElem (by rw [hblocks, length_replicate]) fun j hj hj' => ?_
    rw [getElem_replicate]
    exact Option.some.inj ((getElem?_eq_getElem hj).symm.trans (hzeros j (by omega)))
  · split_ifs at h
    exact .inl (Except.error.inj h).symm

theorem accepts_of_scannable (hkey : key.length = 8) (h : Scannable key code) :
    Accepts key code := by
  by_cases hinvalid : code.length % 8 ≠ 0 ∨ code = []
  · obtain ⟨message, hmessage⟩ := ldesdecode_of_length hkey hinvalid
    refine ⟨fun text => iff_of_false (by rw [hmessage]; nofun) fun hencode => ?_,
      fun e he => ⟨message, Except.error.inj (he.symm.trans hmessage)⟩⟩
    obtain ⟨-, rfl⟩ := (ldesencode_eq_ok_iff hkey).mp hencode
    rw [← length_eq_zero_iff, length_codeOf] at hinvalid
    omega
  · rw [not_or, not_not, ← length_eq_zero_iff] at hinvalid
    obtain ⟨hlt, hne⟩ := h.resolve_left (not_not.mpr hinvalid.1)
    obtain ⟨n, hlength⟩ : ∃ n, code.length = 8 * (n + 1) := ⟨code.length / 8 - 1, by omega⟩
    have hint : code.length ≤ intMax := by rw [intMax]; omega
    refine ⟨fun text => ldesdecode_iff hkey hlength hint, fun e he => ?_⟩
    rcases ldesdecode_error hkey hlength hint he with rfl | hzeros
    · exact ⟨_, rfl⟩
    · have hsize := length_decodedBlocks key hlength
      obtain rfl : n = 0 := by
        rw [hzeros, length_replicate] at hsize
        omega
      exact absurd ((decodedBlocks_eq_iff hlength rfl).mp hzeros) hne

/-- A single block of zeros makes the scan leave the buffer. -/
theorem ldesdecode_zeros (hkey : key.length = 8) :
    ldesdecode key (desCrypt (desMainKs key) (List.replicate 8 0)) = .error .outOfBounds := by
  have hlength : (desCrypt (desMainKs key) (List.replicate 8 0)).length = 8 * (0 + 1) := rfl
  have hzeros : decodedBlocks key (desCrypt (desMainKs key) (List.replicate 8 0)) =
      List.replicate 8 0 := (decodedBlocks_eq_iff hlength rfl).mpr rfl
  rw [ldesdecode_eq hkey hlength (by rw [hlength]; decide), hzeros, Nat.mul_zero, desScan_zeros]
  decide

theorem not_accepts_of_zeros (hkey : key.length = 8) :
    ¬Accepts key (desCrypt (desMainKs key) (List.replicate 8 0)) := by
  intro h
  obtain ⟨_, hmessage⟩ := h.2 _ (ldesdecode_zeros hkey)
  nomatch hmessage

end Text

end Mtask.Crypt
