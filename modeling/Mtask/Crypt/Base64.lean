import Mtask.Crypt.Hex
import Mtask.Crypt.Words
import Mtask.Lib.Incremental

/-!
# Base64

`lb64encode` writes four characters for three bytes, and fills the last four up with `=`.
`lb64decode` takes four characters of the alphabet, or `=`, at a time, and passes over all others; a
text ends behind a group of four. Its index is an `int`.

A byte outside of the buffer and an `int` that overflows stop the model.
-/

namespace Mtask.Crypt

open List

/-! ### Encoding -/

/-- The string `encoding` of `lb64encode`. -/
def encoding : List UInt8 :=
  (List.range 26).map (65 + UInt8.ofNat ·) ++ (List.range 26).map (97 + UInt8.ofNat ·) ++
    (List.range 10).map (48 + UInt8.ofNat ·) ++ [43, 47]

/-- The character `encoding[v]` -/
def encodingAt (v : UInt32) : UInt8 :=
  encoding.getD v.toNat 0

/-- The loop and the last bytes of `lb64encode`; `61` is `=`. -/
def encodeGroups : List UInt8 → List UInt8
  | a :: b :: c :: text =>
    let v := a.toUInt32 <<< 16 ||| b.toUInt32 <<< 8 ||| c.toUInt32
    encodingAt (v >>> 18) :: encodingAt (v >>> 12 &&& 0x3f) :: encodingAt (v >>> 6 &&& 0x3f) ::
      encodingAt (v &&& 0x3f) :: encodeGroups text
  | [a] =>
    let v := a.toUInt32
    [encodingAt (v >>> 2), encodingAt ((v &&& 3) <<< 4), 61, 61]
  | [a, b] =>
    let v := a.toUInt32 <<< 8 ||| b.toUInt32
    [encodingAt (v >>> 10), encodingAt (v >>> 4 &&& 0x3f), encodingAt ((v &&& 0xf) <<< 2), 61]
  | [] => []

/-- `encode_sz` -/
def encodeSz (sz : ℕ) : ℕ :=
  (sz + 2) / 3 * 4

/-- `lb64encode` -/
def lb64encode (text : List UInt8) : Except TextFault (List UInt8) :=
  if intMax < encodeSz text.length then .error .overflow
  else .ok (encodeGroups text)

/-! ### Decoding -/

/-- The table `decoding` of `b64index`. -/
def decoding : List Int32 :=
  [62, -1, -1, -1, 63, 52, 53, 54, 55, 56, 57, 58, 59, 60, 61, -1, -1, -1, -2, -1, -1, -1, 0, 1, 2, 3,
    4, 5, 6, 7, 8, 9, 10, 11, 12, 13, 14, 15, 16, 17, 18, 19, 20, 21, 22, 23, 24, 25, -1, -1, -1, -1,
    -1, -1, 26, 27, 28, 29, 30, 31, 32, 33, 34, 35, 36, 37, 38, 39, 40, 41, 42, 43, 44, 45, 46, 47,
    48, 49, 50, 51]

/-- `b64index` -/
def b64index (c : UInt8) : Int32 :=
  if c < 43 then -1
  else if decoding.length ≤ (c - 43).toNat then -1
  else decoding.getD (c - 43).toNat 0

/-- The message of `lb64decode`. -/
def invalidBase64 : TextFault :=
  .raised "Invalid base64 text"

/-- The inner loop of `lb64decode`, when `n` numbers are still to be found, and `i` is where it is
in the text: the numbers, and the text behind them. -/
def gather (i : ℕ) : ℕ → List UInt8 → Except TextFault (List Int32 × ℕ × List UInt8)
  | 0, text => .ok ([], i, text)
  | _ + 1, [] => .error invalidBase64
  | n + 1, ch :: text =>
    if intMax < i + 1 then .error .overflow
    else if b64index ch = -1 then gather (i + 1) (n + 1) text
    else (gather (i + 1) n text).map fun (c, i, rest) => (b64index ch :: c, i, rest)

/-- The bytes of a group, unless it is not valid. -/
def decodeGroup : List Int32 → Option (List UInt8)
  | [c₀, c₁, c₂, c₃] =>
    match [c₀, c₁, c₂, c₃].count (-2) with
    | 0 =>
      let v := c₀.toUInt32 <<< 18 ||| c₁.toUInt32 <<< 12 ||| c₂.toUInt32 <<< 6 ||| c₃.toUInt32
      some [(v >>> 16).toUInt8, (v >>> 8 &&& 0xff).toUInt8, (v &&& 0xff).toUInt8]
    | 1 =>
      if c₃ ≠ -2 ∨ c₂ &&& 3 ≠ 0 then none
      else
        let v := c₀.toUInt32 <<< 10 ||| c₁.toUInt32 <<< 4 ||| c₂.toUInt32 >>> 2
        some [(v >>> 8).toUInt8, (v &&& 0xff).toUInt8]
    | 2 =>
      if c₃ ≠ -2 ∨ c₂ ≠ -2 ∨ c₁ &&& 0xf ≠ 0 then none
      else some [(c₀.toUInt32 <<< 2 ||| c₁.toUInt32 >>> 4).toUInt8]
    | _ => none
  | _ => none

/-- The loop of `lb64decode`, with a buffer of `room` bytes, of which `output` are written; every
round takes four characters at least. -/
def decodeLoop (room : ℕ) : ℕ → ℕ → ℕ → List UInt8 → Except TextFault (List UInt8)
  | 0, _, _, _ => .ok []
  | fuel + 1, i, output, text =>
    if text = [] then .ok []
    else
      match gather i 4 text with
      | .error e => .error e
      | .ok (c, i, rest) =>
        match decodeGroup c with
        | none => .error invalidBase64
        | some bytes =>
          if room < output + bytes.length then .error .outOfBounds
          else (decodeLoop room fuel i (output + bytes.length) rest).map (bytes ++ ·)

/-- `decode_sz`, as an `int`. -/
def decodeSz (sz : ℕ) : ℤ :=
  Int.bmod ((sz + 3) / 4 * 3 : ℕ) (2 ^ 32)

/-- The size of the buffer of `lb64decode`. -/
def decodeRoom (sz : ℕ) : ℕ :=
  if smallChunk < decodeSz sz then (decodeSz sz).toNat else smallChunk

/-- `lb64decode` -/
def lb64decode (text : List UInt8) : Except TextFault (List UInt8) :=
  decodeLoop (decodeRoom text.length) text.length 0 0 text

/-! ### Groups of characters -/

/-- Numbers are found in a text, and what is behind them. -/
def takeNumbers : ℕ → List UInt8 → Option (List Int32 × List UInt8)
  | 0, text => some ([], text)
  | _ + 1, [] => none
  | n + 1, ch :: text =>
    if b64index ch = -1 then takeNumbers (n + 1) text
    else (takeNumbers n text).map fun (c, rest) => (b64index ch :: c, rest)

section Numbers

variable {n : ℕ} {ch : UInt8} {text rest : List UInt8} {c : List Int32}

theorem takeNumbers_zero (text : List UInt8) : takeNumbers 0 text = some ([], text) := by
  rw [takeNumbers]

theorem takeNumbers_foreign (h : b64index ch = -1) :
    takeNumbers (n + 1) (ch :: text) = takeNumbers (n + 1) text := by
  rw [takeNumbers, if_pos h]

theorem takeNumbers_number (h : b64index ch ≠ -1) : takeNumbers (n + 1) (ch :: text) =
    (takeNumbers n text).map fun (c, rest) => (b64index ch :: c, rest) := by
  rw [takeNumbers, if_neg h]

/-- The characters in which the numbers are found. -/
theorem takeNumbers_eq_some (h : takeNumbers n text = some (c, rest)) :
    ∃ used, text = used ++ rest ∧ n ≤ used.length ∧
      ∀ more, takeNumbers n (used ++ more) = some (c, more) := by
  induction text generalizing n c with
  | nil =>
    cases n with
    | zero =>
      obtain ⟨rfl, rfl⟩ := Prod.mk.inj (Option.some.inj h)
      exact ⟨[], rfl, Nat.le_refl _, takeNumbers_zero⟩
    | succ n => cases h
  | cons ch text ih =>
    cases n with
    | zero =>
      obtain ⟨rfl, rfl⟩ := Prod.mk.inj (Option.some.inj h)
      exact ⟨[], rfl, Nat.le_refl _, takeNumbers_zero⟩
    | succ n =>
      by_cases hch : b64index ch = -1
      · rw [takeNumbers_foreign hch] at h
        obtain ⟨used, rfl, hlen, hmore⟩ := ih h
        exact ⟨ch :: used, rfl, Nat.le_succ_of_le hlen, fun more => by
          rw [cons_append, takeNumbers_foreign hch, hmore]⟩
      · rw [takeNumbers_number hch, Option.map_eq_some_iff] at h
        obtain ⟨⟨c', rest'⟩, htake, heq⟩ := h
        obtain ⟨rfl, rfl⟩ := Prod.mk.inj heq
        obtain ⟨used, rfl, hlen, hmore⟩ := ih htake
        exact ⟨ch :: used, rfl, Nat.succ_le_succ hlen, fun more => by
          rw [cons_append, takeNumbers_number hch, hmore]
          rfl⟩

theorem length_le_of_takeNumbers (h : takeNumbers n text = some (c, rest)) :
    rest.length ≤ text.length := by
  obtain ⟨used, rfl, -, -⟩ := takeNumbers_eq_some h
  rw [length_append]
  exact Nat.le_add_left _ _

/-- A text that is cut off in front of the last number has too few of them. -/
theorem takeNumbers_take (k : ℕ) : takeNumbers n (text.take k) =
    (takeNumbers n text).bind fun (c, rest) =>
      if text.length - rest.length ≤ k then some (c, rest.take (k - (text.length - rest.length)))
      else none := by
  rcases htake : takeNumbers n (text.take k) with _ | ⟨c, rest⟩
  · rcases hall : takeNumbers n text with _ | ⟨c, rest⟩
    · rfl
    · obtain ⟨used, rfl, -, hmore⟩ := takeNumbers_eq_some hall
      refine (if_neg fun hle => ?_).symm
      rw [length_append, Nat.add_sub_cancel] at hle
      rw [take_append, take_of_length_le hle, hmore] at htake
      cases htake
  · obtain ⟨used, heq, -, hmore⟩ := takeNumbers_eq_some htake
    have hall := hmore (rest ++ text.drop k)
    rw [← append_assoc, ← heq, take_append_drop] at hall
    have hlen := congrArg List.length heq
    rw [length_take, length_append] at hlen
    have hused : text.length - (rest ++ text.drop k).length = used.length := by
      rw [length_append, length_drop]
      omega
    rw [hall, Option.bind_some]
    simp only [hused, if_pos (show used.length ≤ k by omega)]
    congr 2
    rcases Nat.le_total k text.length with hle | hge
    · rw [show k - used.length = rest.length by omega, take_left]
    · rw [drop_eq_nil_of_le hge, append_nil, take_of_length_le (by omega)]

end Numbers

/-- How a group is cut off the front of a text; a group that is not valid is the last one. -/
def groups : Incremental.Cutter UInt8 (Option (List UInt8)) where
  cut text := (takeNumbers 4 text).map fun (c, rest) => (decodeGroup c, rest)
  final bytes := bytes.isNone
  shrinks h := by
    obtain ⟨⟨c, rest⟩, htake, heq⟩ := Option.map_eq_some_iff.mp h
    obtain ⟨-, rfl⟩ := Prod.mk.inj heq
    obtain ⟨used, rfl, hlen, -⟩ := takeNumbers_eq_some htake
    rw [length_append]
    omega
  stable h more := by
    obtain ⟨⟨c, rest⟩, htake, heq⟩ := Option.map_eq_some_iff.mp h
    obtain ⟨rfl, rfl⟩ := Prod.mk.inj heq
    obtain ⟨used, rfl, -, hmore⟩ := takeNumbers_eq_some htake
    rw [List.append_assoc, hmore]
    rfl

/-- The bytes of groups. -/
def groupBytes (items : List (Option (List UInt8))) : List UInt8 :=
  (items.map (·.getD [])).flatten

/-! ### The loop -/

/-- `lb64decode` returns or raises an error. -/
def NoFault {α : Type*} : Except TextFault α → Prop
  | .ok _ => True
  | .error (.raised _) => True
  | .error _ => False

section Loop

variable {i n room fuel output : ℕ} {text : List UInt8}

/-- The inner loop: numbers are found, unless the text ends or `i` overflows. -/
theorem gather_eq (hi : i ≤ intMax) (n : ℕ) (text : List UInt8) : gather i n text =
    match takeNumbers n text with
    | some (c, rest) =>
      if i + (text.length - rest.length) ≤ intMax then
        .ok (c, i + (text.length - rest.length), rest)
      else .error .overflow
    | none => if i + text.length ≤ intMax then .error invalidBase64 else .error .overflow := by
  induction text generalizing i n with
  | nil =>
    cases n with
    | zero =>
      rw [gather, takeNumbers]
      simp only [Nat.sub_self, Nat.add_zero, if_pos hi]
    | succ n => exact (if_pos hi).symm
  | cons ch text ih =>
    cases n with
    | zero =>
      rw [gather, takeNumbers]
      simp only [Nat.sub_self, Nat.add_zero, if_pos hi]
    | succ n =>
      have hshift {rest : List UInt8} (h : rest.length ≤ text.length) :
          i + 1 + (text.length - rest.length) = i + ((ch :: text).length - rest.length) := by
        rw [length_cons]
        omega
      have hend : i + 1 + text.length = i + (ch :: text).length := by
        rw [length_cons]
        omega
      rw [gather]
      by_cases hover : intMax < i + 1
      · rw [if_pos hover]
        rcases htake : takeNumbers (n + 1) (ch :: text) with _ | ⟨c, rest⟩
        · exact (if_neg (by rw [← hend]; omega)).symm
        · obtain ⟨used, heq, hlen, -⟩ := takeNumbers_eq_some htake
          have hused := congrArg List.length heq
          rw [length_append] at hused
          exact (if_neg (by omega)).symm
      · rw [if_neg hover]
        by_cases hch : b64index ch = -1
        · rw [if_pos hch, takeNumbers_foreign hch, ih (Nat.not_lt.mp hover)]
          rcases htake : takeNumbers (n + 1) text with _ | ⟨c, rest⟩
          · simp only [hend]
          · simp only [hshift (length_le_of_takeNumbers htake)]
        · rw [if_neg hch, takeNumbers_number hch, ih (Nat.not_lt.mp hover)]
          rcases htake : takeNumbers n text with _ | ⟨c, rest⟩
          · simp only [hend, Option.map_none]
            split_ifs <;> rfl
          · simp only [hshift (length_le_of_takeNumbers htake), Option.map_some]
            split_ifs <;> rfl

theorem length_decodeGroup_le {c : List Int32} {bytes : List UInt8}
    (h : decodeGroup c = some bytes) : bytes.length ≤ 3 := by
  rw [decodeGroup.eq_def] at h
  split at h
  · split at h
    · obtain rfl := Option.some.inj h
      exact Nat.le_refl 3
    · split_ifs at h
      obtain rfl := Option.some.inj h
      exact Nat.le_succ 2
    · split_ifs at h
      obtain rfl := Option.some.inj h
      exact Nat.le_add_left 1 2
    · cases h
  · cases h

section Cut

variable {c : List Int32} {rest bytes : List UInt8}

theorem decode_nil : groups.decode [] = ([], some []) :=
  Incremental.Cutter.decode_of_none (c := groups) rfl

theorem decode_of_takeNumbers_none (h : takeNumbers 4 text = none) :
    groups.decode text = ([], some text) :=
  Incremental.Cutter.decode_of_none (c := groups) (congrArg (Option.map _) h)

theorem decode_of_invalid (h : takeNumbers 4 text = some (c, rest)) (hgroup : decodeGroup c = none) :
    groups.decode text = ([none], none) := by
  have hcut : groups.cut text = some (none, rest) := by
    rw [← hgroup]
    exact congrArg (Option.map _) h
  exact Incremental.Cutter.decode_of_final (c := groups) hcut rfl

theorem decode_of_group (h : takeNumbers 4 text = some (c, rest))
    (hgroup : decodeGroup c = some bytes) :
    groups.decode text = (some bytes :: (groups.decode rest).1, (groups.decode rest).2) := by
  have hcut : groups.cut text = some (some bytes, rest) := by
    rw [← hgroup]
    exact congrArg (Option.map _) h
  exact Incremental.Cutter.decode_of_some (c := groups) hcut rfl

@[simp] theorem groupBytes_cons (bytes : List UInt8) (items : List (Option (List UInt8))) :
    groupBytes (some bytes :: items) = bytes ++ groupBytes items := rfl

end Cut

theorem length_groupBytes_le (text : List UInt8) :
    (groupBytes (groups.decode text).1).length ≤ text.length / 4 * 3 := by
  induction hn : text.length using Nat.strongRecOn generalizing text with
  | _ n ih =>
    subst hn
    rcases htake : takeNumbers 4 text with _ | ⟨c, rest⟩
    · rw [decode_of_takeNumbers_none htake]
      exact Nat.zero_le _
    · rcases hgroup : decodeGroup c with _ | bytes
      · rw [decode_of_invalid htake hgroup]
        exact Nat.zero_le _
      · obtain ⟨used, rfl, hlen, -⟩ := takeNumbers_eq_some htake
        have hbytes := length_decodeGroup_le hgroup
        have hrest := ih rest.length (by rw [length_append]; omega) rest rfl
        rw [decode_of_group htake hgroup, groupBytes_cons, length_append, length_append]
        omega

/-- **When the loop does what it may.** The groups in front of one that is not valid, or of the end,
have to fit into the buffer; and one that is not valid, or the end, has to come before `i`
overflows. -/
theorem decodeLoop_noFault_iff (hi : i ≤ intMax) (hfuel : text.length ≤ fuel)
    (houtput : output ≤ room) :
    NoFault (decodeLoop room fuel i output text) ↔
      output + (groupBytes (groups.decode (text.take (intMax - i))).1).length ≤ room ∧
        (text.length ≤ intMax - i ∨ (groups.decode (text.take (intMax - i))).2 = none) := by
  induction fuel generalizing i output text with
  | zero =>
    obtain rfl := length_eq_zero_iff.mp (Nat.le_zero.mp hfuel)
    rw [take_nil, decode_nil]
    exact iff_of_true trivial ⟨houtput, .inl (Nat.zero_le _)⟩
  | succ fuel ih =>
    by_cases hnil : text = []
    · rw [decodeLoop, if_pos hnil, hnil, take_nil, decode_nil]
      exact iff_of_true trivial ⟨houtput, .inl (Nat.zero_le _)⟩
    have hcut : takeNumbers 4 (text.take (intMax - i)) = _ := takeNumbers_take (intMax - i)
    rw [decodeLoop, if_neg hnil, gather_eq hi]
    rcases htake : takeNumbers 4 text with _ | ⟨c, rest⟩
    · rw [htake] at hcut
      rw [decode_of_takeNumbers_none hcut]
      by_cases hover : i + text.length ≤ intMax
      · simp only [if_pos hover]
        exact iff_of_true trivial ⟨houtput, .inl (by omega)⟩
      · simp only [if_neg hover]
        exact iff_of_false id fun h => h.2.elim (by omega) nofun
    · obtain ⟨used, rfl, hused, -⟩ := takeNumbers_eq_some htake
      rw [htake, Option.bind_some] at hcut
      simp only [length_append, Nat.add_sub_cancel] at hcut hfuel ⊢
      by_cases hover : i + used.length ≤ intMax
      · rw [if_pos (by omega)] at hcut
        have hleft : intMax - i - used.length = intMax - (i + used.length) := by omega
        rw [if_pos hover]
        rcases hgroup : decodeGroup c with _ | bytes
        · rw [decode_of_invalid hcut hgroup]
          simp only [hgroup]
          exact iff_of_true trivial ⟨houtput, .inr trivial⟩
        · rw [decode_of_group hcut hgroup, groupBytes_cons, length_append, hleft,
            ← Nat.add_assoc]
          simp only [hgroup]
          by_cases hroom : room < output + bytes.length
          · rw [if_pos hroom]
            exact iff_of_false id fun h => by omega
          · rw [if_neg hroom]
            have hrest := ih hover (show rest.length ≤ fuel by omega) (Nat.not_lt.mp hroom)
            have hlen : used.length + rest.length ≤ intMax - i ↔
                rest.length ≤ intMax - (i + used.length) := by omega
            rw [hlen, ← hrest]
            rcases decodeLoop room fuel (i + used.length) (output + bytes.length) rest with e | s
            · exact Iff.rfl
            · exact Iff.rfl
      · rw [if_neg (by omega)] at hcut
        rw [if_neg hover, decode_of_takeNumbers_none hcut]
        exact iff_of_false id fun h => h.2.elim (by omega) nofun

/-- **What the loop returns.** -/
theorem decodeLoop_ok_iff {s : List UInt8} (hi : i ≤ intMax) (hfuel : text.length ≤ fuel)
    (houtput : output ≤ room) :
    decodeLoop room fuel i output text = .ok s ↔
      (groups.decode text).2 = some [] ∧ groupBytes (groups.decode text).1 = s ∧
        output + s.length ≤ room ∧ i + text.length ≤ intMax := by
  induction fuel generalizing i output text s with
  | zero =>
    obtain rfl := length_eq_zero_iff.mp (Nat.le_zero.mp hfuel)
    rw [decode_nil]
    refine ⟨fun h => ?_, fun h => congrArg Except.ok h.2.1⟩
    obtain rfl := Except.ok.inj h
    exact ⟨rfl, rfl, houtput, hi⟩
  | succ fuel ih =>
    by_cases hnil : text = []
    · rw [decodeLoop, if_pos hnil, hnil, decode_nil]
      refine ⟨fun h => ?_, fun h => congrArg Except.ok h.2.1⟩
      obtain rfl := Except.ok.inj h
      exact ⟨rfl, rfl, houtput, hi⟩
    rw [decodeLoop, if_neg hnil, gather_eq hi]
    rcases htake : takeNumbers 4 text with _ | ⟨c, rest⟩
    · rw [decode_of_takeNumbers_none htake]
      refine iff_of_false ?_ fun h => hnil (Option.some.inj h.1)
      by_cases hover : i + text.length ≤ intMax
      · simp only [if_pos hover]
        exact nofun
      · simp only [if_neg hover]
        exact nofun
    · have hused := takeNumbers_eq_some htake
      obtain ⟨used, rfl, hlen, -⟩ := hused
      simp only [length_append, Nat.add_sub_cancel] at hfuel ⊢
      by_cases hover : i + used.length ≤ intMax
      · rw [if_pos hover]
        rcases hgroup : decodeGroup c with _ | bytes
        · rw [decode_of_invalid htake hgroup]
          simp only [hgroup]
          exact iff_of_false nofun fun h => nomatch h.1
        · rw [decode_of_group htake hgroup, groupBytes_cons]
          simp only [hgroup]
          by_cases hroom : room < output + bytes.length
          · rw [if_pos hroom]
            refine iff_of_false nofun fun h => ?_
            rw [← h.2.1, length_append] at h
            omega
          · rw [if_neg hroom]
            have hrest (s' : List UInt8) := ih (s := s') hover (show rest.length ≤ fuel by omega)
              (Nat.not_lt.mp hroom)
            rcases hloop : decodeLoop room fuel (i + used.length) (output + bytes.length) rest
              with e | s'
            · rw [hloop] at hrest
              refine iff_of_false nofun fun h => ?_
              obtain ⟨hend, rfl, hfits, hint⟩ := h
              rw [length_append, ← Nat.add_assoc] at hfits
              cases (hrest _).mpr ⟨hend, rfl, hfits, by omega⟩
            · rw [hloop] at hrest
              obtain ⟨hend, hbytes, hfits, hint⟩ := (hrest s').mp rfl
              rw [hbytes]
              refine ⟨fun h => ?_, fun h => congrArg Except.ok h.2.1⟩
              obtain rfl := Except.ok.inj h
              rw [length_append]
              exact ⟨hend, rfl, by omega, by omega⟩
      · rw [if_neg hover]
        exact iff_of_false nofun fun h => by omega

end Loop

/-! ### What is encoded is decoded -/

section Groups

theorem and_sixty_three (n : ℕ) : n &&& 0x3f = n % 64 :=
  Nat.and_two_pow_sub_one_eq_mod n 6

set_option maxRecDepth 2000 in
/-- The number of a character of the alphabet. -/
theorem b64index_encodingAt {v : UInt32} (h : v.toNat < 64) : b64index (encodingAt v) = v.toInt32 := by
  have hall : ∀ n : Fin 64, b64index (encodingAt (UInt32.ofNat n)) = (UInt32.ofNat n).toInt32 := by
    decide
  have := hall ⟨v.toNat, h⟩
  rwa [UInt32.ofNat_toNat] at this

theorem b64index_pad : b64index 61 = -2 := by decide

theorem toInt32_ne {v : UInt32} (h : v.toNat < 64) : v.toInt32 ≠ -1 ∧ v.toInt32 ≠ -2 := by
  have hall : ∀ n : Fin 64, (UInt32.ofNat n).toInt32 ≠ -1 ∧ (UInt32.ofNat n).toInt32 ≠ -2 := by
    decide
  have := hall ⟨v.toNat, h⟩
  rwa [UInt32.ofNat_toNat] at this

theorem b64index_encodingAt_ne {v : UInt32} (h : v.toNat < 64) : b64index (encodingAt v) ≠ -1 := by
  rw [b64index_encodingAt h]
  exact (toInt32_ne h).1

theorem toNat_sextets {x y z w : UInt32} (hx : x.toNat < 64) (hy : y.toNat < 64) (hz : z.toNat < 64)
    (hw : w.toNat < 64) : (x <<< 18 ||| y <<< 12 ||| z <<< 6 ||| w).toNat =
      x.toNat * 2 ^ 18 + y.toNat * 2 ^ 12 + z.toNat * 2 ^ 6 + w.toNat := by
  have hx' : (x <<< 18).toNat = x.toNat * 2 ^ 18 :=
    toNat_shiftLeft_eq (by decide) (by simp only [UInt32.reduceToNat]; omega)
  have hy' : (y <<< 12).toNat = y.toNat * 2 ^ 12 :=
    toNat_shiftLeft_eq (by decide) (by simp only [UInt32.reduceToNat]; omega)
  have hz' : (z <<< 6).toNat = z.toNat * 2 ^ 6 :=
    toNat_shiftLeft_eq (by decide) (by simp only [UInt32.reduceToNat]; omega)
  have hxy := toNat_or_eq_add (x := x <<< 18) (y := y <<< 12) 18 (by omega) (by omega)
  have hxyz := toNat_or_eq_add (x := x <<< 18 ||| y <<< 12) (y := z <<< 6) 12 (by omega) (by omega)
  rw [toNat_or_eq_add 6 (by omega) (by omega), hxyz, hxy, hx', hy', hz']

theorem toNat_two (a b : UInt8) : (a.toUInt32 <<< 8 ||| b.toUInt32).toNat =
    a.toNat * 2 ^ 8 + b.toNat := by
  have ha : a.toUInt32.toNat < 2 ^ 8 := a.toNat_lt
  have hb : b.toUInt32.toNat < 2 ^ 8 := b.toNat_lt
  have ha' : (a.toUInt32 <<< 8).toNat = a.toUInt32.toNat * 2 ^ 8 :=
    toNat_shiftLeft_eq (by decide) (by simp only [UInt32.reduceToNat]; omega)
  rw [toNat_or_eq_add 8 (by omega) hb, ha']
  rfl

theorem toNat_three (a b c : UInt8) : (a.toUInt32 <<< 16 ||| b.toUInt32 <<< 8 ||| c.toUInt32).toNat =
    a.toNat * 2 ^ 16 + b.toNat * 2 ^ 8 + c.toNat := by
  have ha : a.toUInt32.toNat < 2 ^ 8 := a.toNat_lt
  have hb : b.toUInt32.toNat < 2 ^ 8 := b.toNat_lt
  have hc : c.toUInt32.toNat < 2 ^ 8 := c.toNat_lt
  have ha' : (a.toUInt32 <<< 16).toNat = a.toUInt32.toNat * 2 ^ 16 :=
    toNat_shiftLeft_eq (by decide) (by simp only [UInt32.reduceToNat]; omega)
  have hb' : (b.toUInt32 <<< 8).toNat = b.toUInt32.toNat * 2 ^ 8 :=
    toNat_shiftLeft_eq (by decide) (by simp only [UInt32.reduceToNat]; omega)
  have hab := toNat_or_eq_add (x := a.toUInt32 <<< 16) (y := b.toUInt32 <<< 8) 16 (by omega) (by omega)
  rw [toNat_or_eq_add 8 (by omega) (by omega), hab, ha', hb']
  rfl

variable {v : UInt32}

theorem toNat_shiftRight_and (v k : UInt32) :
    (v >>> k &&& 0x3f).toNat = v.toNat / 2 ^ (k.toNat % 32) % 64 := by
  rw [UInt32.toNat_and, toNat_shiftRight_eq]
  exact and_sixty_three _

theorem toNat_and_lt (v : UInt32) : (v &&& 0x3f).toNat < 64 :=
  Nat.and_lt_two_pow (n := 6) _ (by decide)

/-- A word of 24 bits in four numbers and back. -/
theorem sextets_eq (h : v.toNat < 2 ^ 24) :
    (v >>> 18) <<< 18 ||| (v >>> 12 &&& 0x3f) <<< 12 ||| (v >>> 6 &&& 0x3f) <<< 6 ||| (v &&& 0x3f) =
      v := by
  have h₀ : (v >>> 18).toNat = v.toNat / 2 ^ 18 := toNat_shiftRight_eq v 18
  have h₁ : (v >>> 12 &&& 0x3f).toNat = v.toNat / 2 ^ 12 % 64 := toNat_shiftRight_and v 12
  have h₂ : (v >>> 6 &&& 0x3f).toNat = v.toNat / 2 ^ 6 % 64 := toNat_shiftRight_and v 6
  have h₃ : (v &&& 0x3f).toNat = v.toNat % 64 := (UInt32.toNat_and _ _).trans (and_sixty_three _)
  refine UInt32.toNat_inj.mp ?_
  rw [toNat_sextets (by omega) (by omega) (by omega) (by omega), h₀, h₁, h₂, h₃]
  omega

theorem count_eq_zero {w x y z : Int32} (hw : w ≠ -2) (hx : x ≠ -2) (hy : y ≠ -2) (hz : z ≠ -2) :
    [w, x, y, z].count (-2) = 0 := by
  rw [count_cons_of_ne hw, count_cons_of_ne hx, count_cons_of_ne hy,
    count_cons_of_ne hz, count_nil]

theorem count_eq_one {w x y : Int32} (hw : w ≠ -2) (hx : x ≠ -2) (hy : y ≠ -2) :
    [w, x, y, -2].count (-2) = 1 := by
  rw [count_cons_of_ne hw, count_cons_of_ne hx, count_cons_of_ne hy,
    count_cons_self, count_nil]

theorem decodeGroup_three {a b c : UInt8}
    (hv : v.toNat = a.toNat * 2 ^ 16 + b.toNat * 2 ^ 8 + c.toNat) :
    decodeGroup [(v >>> 18).toInt32, (v >>> 12 &&& 0x3f).toInt32, (v >>> 6 &&& 0x3f).toInt32,
      (v &&& 0x3f).toInt32] = some [a, b, c] := by
  have ha : a.toNat < 2 ^ 8 := a.toNat_lt
  have hb : b.toNat < 2 ^ 8 := b.toNat_lt
  have hc : c.toNat < 2 ^ 8 := c.toNat_lt
  have hlt : (v >>> 18).toNat < 64 := by
    rw [toNat_shiftRight_eq]
    simp only [UInt32.reduceToNat, Nat.reduceMod]
    omega
  rw [decodeGroup, count_eq_zero (toInt32_ne hlt).2 (toInt32_ne (toNat_and_lt _)).2
    (toInt32_ne (toNat_and_lt _)).2 (toInt32_ne (toNat_and_lt v)).2]
  simp only [UInt32.toUInt32_toInt32, sextets_eq (show v.toNat < 2 ^ 24 by omega), Option.some.injEq,
    List.cons.injEq, and_true, ← UInt8.toNat_inj, UInt32.toNat_toUInt8, UInt32.toNat_and,
    toNat_shiftRight_eq, UInt32.reduceToNat, Nat.reduceMod, and_ff]
  omega

theorem decodeGroup_two {a b : UInt8} (hv : v.toNat = a.toNat * 2 ^ 8 + b.toNat) :
    decodeGroup [(v >>> 10).toInt32, (v >>> 4 &&& 0x3f).toInt32, ((v &&& 0xf) <<< 2).toInt32, -2] =
      some [a, b] := by
  have ha : a.toNat < 2 ^ 8 := a.toNat_lt
  have hb : b.toNat < 2 ^ 8 := b.toNat_lt
  have h₀ : (v >>> 10).toNat = v.toNat / 2 ^ 10 := toNat_shiftRight_eq v 10
  have h₁ : (v >>> 4 &&& 0x3f).toNat = v.toNat / 2 ^ 4 % 64 := toNat_shiftRight_and v 4
  have h₂ : (v &&& 0xf).toNat = v.toNat % 16 :=
    (UInt32.toNat_and _ _).trans (Nat.and_two_pow_sub_one_eq_mod _ 4)
  have hshift : ((v &&& 0xf) <<< 2).toNat = (v &&& 0xf).toNat * 2 ^ 2 :=
    toNat_shiftLeft_eq (by decide) (by simp only [UInt32.reduceToNat]; omega)
  have hlow : ((v &&& 0xf) <<< 2).toInt32 &&& 3 = 0 := by
    have hall : ∀ n : Fin 16, (UInt32.ofNat n <<< 2).toInt32 &&& 3 = 0 := by decide
    have := hall ⟨(v &&& 0xf).toNat, by omega⟩
    rwa [UInt32.ofNat_toNat] at this
  rw [decodeGroup, count_eq_one (toInt32_ne (by omega)).2 (toInt32_ne (by omega)).2
    (toInt32_ne (by omega)).2]
  have hlow' : ((v &&& 0xf) <<< 2 >>> 2).toNat = v.toNat % 16 := by
    rw [UInt32.toNat_shiftRight, hshift, h₂, Nat.shiftRight_eq_div_pow]
    simp only [UInt32.reduceToNat, Nat.reduceMod]
    omega
  have hhigh : ((v >>> 10) <<< 10).toNat = (v >>> 10).toNat * 2 ^ 10 :=
    toNat_shiftLeft_eq (by decide) (by simp only [UInt32.reduceToNat]; omega)
  have hmid : ((v >>> 4 &&& 0x3f) <<< 4).toNat = (v >>> 4 &&& 0x3f).toNat * 2 ^ 4 :=
    toNat_shiftLeft_eq (by decide) (by simp only [UInt32.reduceToNat]; omega)
  have hboth := toNat_or_eq_add (x := (v >>> 10) <<< 10) (y := (v >>> 4 &&& 0x3f) <<< 4) 10
    (by omega) (by omega)
  have hword : (v >>> 10) <<< 10 ||| (v >>> 4 &&& 0x3f) <<< 4 ||| (v &&& 0xf) <<< 2 >>> 2 = v := by
    refine UInt32.toNat_inj.mp ?_
    rw [toNat_or_eq_add 4 (by omega) (by omega), hboth, hhigh, hmid, hlow', h₀, h₁]
    omega
  simp only [hlow, ne_eq, not_true_eq_false, or_self, if_false, UInt32.toUInt32_toInt32, hword,
    Option.some.injEq, List.cons.injEq, and_true, ← UInt8.toNat_inj, UInt32.toNat_toUInt8,
    UInt32.toNat_and, toNat_shiftRight_eq, UInt32.reduceToNat,
    Nat.reduceMod, and_ff]
  omega

set_option maxRecDepth 2000 in
theorem decodeGroup_one (a : UInt8) :
    decodeGroup [(a.toUInt32 >>> 2).toInt32, ((a.toUInt32 &&& 3) <<< 4).toInt32, -2, -2] =
      some [a] :=
  forall_uint8 (P := fun a => decodeGroup [(a.toUInt32 >>> 2).toInt32,
    ((a.toUInt32 &&& 3) <<< 4).toInt32, -2, -2] = some [a]) (by decide) a

theorem takeNumbers_four {e₀ e₁ e₂ e₃ : UInt8} (h₀ : b64index e₀ ≠ -1) (h₁ : b64index e₁ ≠ -1)
    (h₂ : b64index e₂ ≠ -1) (h₃ : b64index e₃ ≠ -1) (rest : List UInt8) :
    takeNumbers 4 (e₀ :: e₁ :: e₂ :: e₃ :: rest) =
      some ([b64index e₀, b64index e₁, b64index e₂, b64index e₃], rest) := by
  rw [takeNumbers_number h₀, takeNumbers_number h₁, takeNumbers_number h₂, takeNumbers_number h₃,
    takeNumbers_zero]
  rfl

/-- The numbers of four characters of the alphabet. -/
theorem takeNumbers_encodingAt {w x y z : UInt32} (hw : w.toNat < 64) (hx : x.toNat < 64)
    (hy : y.toNat < 64) (hz : z.toNat < 64) (rest : List UInt8) :
    takeNumbers 4 (encodingAt w :: encodingAt x :: encodingAt y :: encodingAt z :: rest) =
      some ([w.toInt32, x.toInt32, y.toInt32, z.toInt32], rest) := by
  rw [takeNumbers_four (b64index_encodingAt_ne hw) (b64index_encodingAt_ne hx)
    (b64index_encodingAt_ne hy) (b64index_encodingAt_ne hz), b64index_encodingAt hw,
    b64index_encodingAt hx, b64index_encodingAt hy, b64index_encodingAt hz]

theorem length_encodeGroups (s : List UInt8) : (encodeGroups s).length = encodeSz s.length := by
  induction hn : s.length using Nat.strongRecOn generalizing s with
  | _ n ih =>
    subst hn
    match s with
    | [] => rfl
    | [_] =>
      rw [encodeGroups]
      simp only [length_cons, length_nil, encodeSz]
    | [_, _] =>
      rw [encodeGroups]
      simp only [length_cons, length_nil, encodeSz]
    | a :: b :: c :: s =>
      rw [encodeGroups]
      simp only [length_cons] at ih ⊢
      rw [ih s.length (by omega) s rfl, encodeSz, encodeSz]
      omega

/-- **What is encoded is decoded.** -/
theorem decode_encodeGroups (s : List UInt8) : (groups.decode (encodeGroups s)).2 = some [] ∧
    groupBytes (groups.decode (encodeGroups s)).1 = s := by
  induction hn : s.length using Nat.strongRecOn generalizing s with
  | _ n ih =>
    subst hn
    match s with
    | [] => exact ⟨congrArg Prod.snd decode_nil, by rw [encodeGroups, decode_nil]; rfl⟩
    | [a] =>
      have hlt : a.toUInt32.toNat < 2 ^ 8 := a.toNat_lt
      have hthree : (a.toUInt32 &&& 3).toNat = a.toUInt32.toNat % 4 :=
        (UInt32.toNat_and _ _).trans (Nat.and_two_pow_sub_one_eq_mod _ 2)
      have hhigh : (a.toUInt32 >>> 2).toNat < 64 := by
        rw [toNat_shiftRight_eq]
        simp only [UInt32.reduceToNat, Nat.reduceMod]
        omega
      have hlow : ((a.toUInt32 &&& 3) <<< 4).toNat < 64 := by
        rw [toNat_shiftLeft_eq (by decide) (by simp only [UInt32.reduceToNat]; omega)]
        simp only [UInt32.reduceToNat]
        omega
      have htake : takeNumbers 4 (encodeGroups [a]) =
          some ([(a.toUInt32 >>> 2).toInt32, ((a.toUInt32 &&& 3) <<< 4).toInt32, -2, -2], []) := by
        rw [encodeGroups, takeNumbers_four (b64index_encodingAt_ne hhigh)
          (b64index_encodingAt_ne hlow) (by decide) (by decide), b64index_encodingAt hhigh,
          b64index_encodingAt hlow, b64index_pad]
      rw [decode_of_group htake (decodeGroup_one a), decode_nil]
      exact ⟨rfl, rfl⟩
    | [a, b] =>
      have hv := toNat_two a b
      rw [encodeGroups]
      generalize a.toUInt32 <<< 8 ||| b.toUInt32 = v at hv ⊢
      have ha : a.toNat < 2 ^ 8 := a.toNat_lt
      have hb : b.toNat < 2 ^ 8 := b.toNat_lt
      have hfour : (v &&& 0xf).toNat = v.toNat % 16 :=
        (UInt32.toNat_and _ _).trans (Nat.and_two_pow_sub_one_eq_mod _ 4)
      have hhigh : (v >>> 10).toNat < 64 := by
        rw [toNat_shiftRight_eq]
        simp only [UInt32.reduceToNat, Nat.reduceMod]
        omega
      have hmid : (v >>> 4 &&& 0x3f).toNat < 64 := toNat_and_lt _
      have hlow : ((v &&& 0xf) <<< 2).toNat < 64 := by
        rw [toNat_shiftLeft_eq (by decide) (by simp only [UInt32.reduceToNat]; omega)]
        simp only [UInt32.reduceToNat]
        omega
      have htake : takeNumbers 4 [encodingAt (v >>> 10), encodingAt (v >>> 4 &&& 0x3f),
          encodingAt ((v &&& 0xf) <<< 2), 61] = some ([(v >>> 10).toInt32,
            (v >>> 4 &&& 0x3f).toInt32, ((v &&& 0xf) <<< 2).toInt32, -2], []) := by
        rw [takeNumbers_four (b64index_encodingAt_ne hhigh) (b64index_encodingAt_ne hmid)
          (b64index_encodingAt_ne hlow) (by decide), b64index_encodingAt hhigh,
          b64index_encodingAt hmid, b64index_encodingAt hlow, b64index_pad]
      rw [decode_of_group htake (decodeGroup_two hv), decode_nil]
      exact ⟨rfl, rfl⟩
    | a :: b :: c :: s =>
      have hv := toNat_three a b c
      rw [encodeGroups]
      generalize a.toUInt32 <<< 16 ||| b.toUInt32 <<< 8 ||| c.toUInt32 = v at hv ⊢
      have ha : a.toNat < 2 ^ 8 := a.toNat_lt
      have hb : b.toNat < 2 ^ 8 := b.toNat_lt
      have hc : c.toNat < 2 ^ 8 := c.toNat_lt
      have hhigh : (v >>> 18).toNat < 64 := by
        rw [toNat_shiftRight_eq]
        simp only [UInt32.reduceToNat, Nat.reduceMod]
        omega
      obtain ⟨hend, hbytes⟩ := ih s.length (by simp only [length_cons]; omega) s rfl
      rw [decode_of_group (takeNumbers_encodingAt hhigh (toNat_and_lt _) (toNat_and_lt _)
        (toNat_and_lt v) _) (decodeGroup_three hv), groupBytes_cons, hbytes]
      exact ⟨hend, rfl⟩

end Groups

/-! ### Characters that are passed over -/

/-- A byte that is neither `=` nor in the alphabet. -/
def Foreign (ch : UInt8) : Prop :=
  ch ∉ encoding ∧ ch ≠ 61

instance (ch : UInt8) : Decidable (Foreign ch) :=
  inferInstanceAs (Decidable (_ ∧ _))

/-- Foreign bytes are put anywhere before the last character of `e`. -/
def Interspersed (e t : List UInt8) : Prop :=
  t.filter (¬Foreign ·) = e ∧ t.getLast? = e.getLast?

section Interspersed

variable {t e kept : List UInt8}

theorem foreign_iff (ch : UInt8) : Foreign ch ↔ b64index ch = -1 := by
  have hindex : ∀ c ∈ encoding, b64index c ≠ -1 := by decide +kernel
  have htable : ∀ n : Fin decoding.length, decoding.getD n 0 ≠ -1 →
      UInt8.ofNat n + 43 ∈ encoding ∨ UInt8.ofNat n + 43 = 61 := by decide +kernel
  refine ⟨fun ⟨hmem, hpad⟩ => ?_, fun h => ⟨fun hmem => hindex ch hmem h, ?_⟩⟩
  · rw [b64index]
    split_ifs with hlow hhigh
    · rfl
    · rfl
    · have hch := htable ⟨_, Nat.lt_of_not_le hhigh⟩
      rw [UInt8.ofNat_toNat, UInt8.sub_add_cancel] at hch
      exact by_contra fun hne => (hch hne).elim hmem hpad
  · rintro rfl
    exact absurd h (by decide)

theorem takeNumbers_filter (n : ℕ) (t : List UInt8) : takeNumbers n (t.filter (¬Foreign ·)) =
    (takeNumbers n t).map fun (c, rest) => (c, rest.filter (¬Foreign ·)) := by
  induction t generalizing n with
  | nil => cases n <;> rfl
  | cons ch t ih =>
    cases n with
    | zero => rw [takeNumbers_zero, takeNumbers_zero]; rfl
    | succ n =>
      by_cases hch : b64index ch = -1
      · have hforeign := (foreign_iff ch).mpr hch
        rw [filter_cons_of_neg (by simpa using hforeign), takeNumbers_foreign hch, ih]
      · have hforeign := mt (foreign_iff ch).mp hch
        rw [filter_cons_of_pos (by simpa using hforeign), takeNumbers_number hch,
          takeNumbers_number hch, ih]
        rcases takeNumbers n t with _ | ⟨c, rest⟩ <;> rfl

theorem decode_filter (t : List UInt8) : groups.decode (t.filter (¬Foreign ·)) =
    ((groups.decode t).1, (groups.decode t).2.map (List.filter (¬Foreign ·))) := by
  induction hn : t.length using Nat.strongRecOn generalizing t with
  | _ n ih =>
    subst hn
    have hfilter := takeNumbers_filter 4 t
    rcases htake : takeNumbers 4 t with _ | ⟨c, rest⟩
    · rw [htake, Option.map_none] at hfilter
      rw [decode_of_takeNumbers_none hfilter, decode_of_takeNumbers_none htake]
      rfl
    · rw [htake, Option.map_some] at hfilter
      rcases hgroup : decodeGroup c with _ | bytes
      · rw [decode_of_invalid hfilter hgroup, decode_of_invalid htake hgroup]
        rfl
      · obtain ⟨used, rfl, hlen, -⟩ := takeNumbers_eq_some htake
        rw [decode_of_group hfilter hgroup, decode_of_group htake hgroup,
          ih rest.length (by rw [length_append]; omega) rest rfl]

theorem suffix_of_kept (h : (groups.decode t).2 = some kept) : kept <:+ t := by
  induction hn : t.length using Nat.strongRecOn generalizing t with
  | _ n ih =>
    subst hn
    rcases htake : takeNumbers 4 t with _ | ⟨c, rest⟩
    · rw [decode_of_takeNumbers_none htake] at h
      obtain rfl := Option.some.inj h
      exact suffix_rfl
    · rcases hgroup : decodeGroup c with _ | bytes
      · rw [decode_of_invalid htake hgroup] at h
        cases h
      · rw [decode_of_group htake hgroup] at h
        obtain ⟨used, rfl, hlen, -⟩ := takeNumbers_eq_some htake
        exact (ih rest.length (by rw [length_append]; omega) h rfl).trans
          (suffix_append used rest)

/-- **Foreign bytes do not matter.** -/
theorem Interspersed.decode_eq (h : Interspersed e t) (he : (groups.decode e).2 = some []) :
    groups.decode t = groups.decode e := by
  obtain ⟨rfl, hlast⟩ := h
  rw [decode_filter] at he ⊢
  obtain ⟨kept, hkept, hfilter⟩ := Option.map_eq_some_iff.mp he
  have hnil : kept = [] := by
    by_contra hne
    obtain ⟨front, rfl⟩ := suffix_of_kept hkept
    -- the last character is kept, and not passed over
    rw [getLast?_append_of_ne_nil _ hne, getLast?_eq_some_getLast hne] at hlast
    have hmem := mem_of_getLast? hlast.symm
    have hlast' : kept.getLast hne ∈ kept.filter (¬Foreign ·) :=
      mem_filter.mpr ⟨getLast_mem hne, (mem_filter.mp hmem).2⟩
    rw [hfilter] at hlast'
    cases hlast'
  rw [Prod.ext_iff, hkept, hnil]
  exact ⟨rfl, rfl⟩

end Interspersed

/-! ### The functions -/

/-- A group that is not valid, or the end of the text, comes before `i` overflows, and the groups in
front of it fit into the buffer. -/
def Ends (text : List UInt8) : Prop :=
  text.length ≤ intMax ∨ (groups.decode (text.take intMax)).2 = none ∧
    (groupBytes (groups.decode (text.take intMax)).1).length ≤ decodeRoom text.length

/-- What a string is encoded as is decoded, has four characters for three bytes, and does not change
what is decoded when foreign bytes are put before its last character, as long as `i` does not
overflow. -/
def EncodedWell (s : List UInt8) : Prop :=
  ∃ e, lb64encode s = .ok e ∧ e.length = 4 * ((s.length + 2) / 3) ∧ lb64decode e = .ok s ∧
    ∀ t, Interspersed e t → (lb64decode t = .ok s ↔ t.length < 2 ^ 31)

section Functions

variable {s text : List UInt8}

/-- The buffer is large enough, unless its size is no `int`. -/
theorem le_decodeRoom {sz : ℕ} (h : sz ≤ intMax) : sz / 4 * 3 ≤ decodeRoom sz := by
  have hsz : decodeSz sz = ((sz + 3) / 4 * 3 : ℕ) := by
    rw [intMax] at h
    exact Int.bmod_eq_of_le (by omega) (by omega)
  rw [decodeRoom, hsz, smallChunk]
  split_ifs <;> omega

/-- **When `lb64decode` does what it may.** -/
theorem lb64decode_noFault_iff (text : List UInt8) : NoFault (lb64decode text) ↔ Ends text := by
  rw [lb64decode, decodeLoop_noFault_iff (Nat.zero_le _) (Nat.le_refl _) (Nat.zero_le _), Ends,
    Nat.zero_add, Nat.sub_zero]
  refine ⟨fun ⟨hroom, hends⟩ => hends.imp_right fun hstop => ⟨hstop, hroom⟩, ?_⟩
  rintro (hle | ⟨hstop, hroom⟩)
  · rw [take_of_length_le hle]
    exact ⟨Nat.le_trans (length_groupBytes_le text) (le_decodeRoom hle), .inl hle⟩
  · exact ⟨hroom, .inr hstop⟩

/-- **What `lb64decode` returns.** -/
theorem lb64decode_ok_iff : lb64decode text = .ok s ↔ (groups.decode text).2 = some [] ∧
    groupBytes (groups.decode text).1 = s ∧ text.length ≤ intMax := by
  rw [lb64decode, decodeLoop_ok_iff (Nat.zero_le _) (Nat.le_refl _) (Nat.zero_le _), Nat.zero_add,
    Nat.zero_add]
  refine and_congr_right fun _ => and_congr_right fun hbytes => ⟨fun h => h.2, fun hle => ⟨?_, hle⟩⟩
  rw [← hbytes]
  exact Nat.le_trans (length_groupBytes_le text) (le_decodeRoom hle)

/-- **Base64.** Strings of less than `2 ^ 30` bytes are encoded well, and the texts for which
`lb64decode` does what it may are those of `Ends`. -/
theorem base64_iff (hs : s.length < 2 ^ 30) (text : List UInt8) :
    EncodedWell s ∧ (NoFault (lb64decode text) ↔ Ends text) := by
  refine ⟨⟨encodeGroups s, ?_, ?_, ?_, fun t ht => ?_⟩, lb64decode_noFault_iff text⟩
  · rw [lb64encode, if_neg]
    rw [intMax, encodeSz]
    omega
  · rw [length_encodeGroups, encodeSz, Nat.mul_comm]
  · obtain ⟨hend, hbytes⟩ := decode_encodeGroups s
    refine lb64decode_ok_iff.mpr ⟨hend, hbytes, ?_⟩
    rw [length_encodeGroups, intMax, encodeSz]
    omega
  · obtain ⟨hend, hbytes⟩ := decode_encodeGroups s
    rw [lb64decode_ok_iff, ht.decode_eq hend, intMax]
    exact ⟨fun h => by omega, fun h => ⟨hend, hbytes, by omega⟩⟩

theorem base64_iff_man : ∃ e, lb64encode [77, 97, 110, 105] = .ok e ∧
    lb64decode e = .ok [77, 97, 110, 105] ∧
    lb64decode [84, 10, 87, 70, 117, 97, 81, 61, 61] = .ok [77, 97, 110, 105] := by
  obtain ⟨⟨e, he, -, hdecode, hforeign⟩, -⟩ :=
    @base64_iff [77, 97, 110, 105] (by decide) []
  have heq : e = [84, 87, 70, 117, 97, 81, 61, 61] := by
    have := he.symm.trans (show lb64encode [77, 97, 110, 105] = .ok [84, 87, 70, 117, 97, 81, 61, 61]
      by decide)
    exact Except.ok.inj this
  refine ⟨e, he, hdecode, (hforeign _ ?_).mpr (by decide)⟩
  rw [heq]
  exact ⟨by decide, rfl⟩

/-- With so many foreign bytes in front, `i` overflows. -/
theorem not_noFault_of_foreign {k : ℕ} (hk : intMax < k) (e : List UInt8) :
    ¬NoFault (lb64decode (List.replicate k 0 ++ e)) := by
  have hnumbers (k : ℕ) : takeNumbers 4 (List.replicate k 0) = none := by
    induction k with
    | zero => rfl
    | succ k ih =>
      rw [replicate_succ, takeNumbers_foreign ((foreign_iff 0).mp (by decide)), ih]
  rw [lb64decode_noFault_iff, Ends, length_append, length_replicate,
    take_append_of_le_length (by rw [length_replicate]; omega), take_replicate,
    decode_of_takeNumbers_none (hnumbers _)]
  rintro (hle | ⟨hstop, -⟩)
  · omega
  · cases hstop

theorem interspersed_foreign (k : ℕ) {e : List UInt8} (hne : e ≠ []) (he : ∀ ch ∈ e, ¬Foreign ch) :
    Interspersed e (List.replicate k 0 ++ e) := by
  have hfilter : (List.replicate k 0).filter (¬Foreign ·) = [] :=
    filter_eq_nil_iff.mpr fun ch hch => by
      rw [eq_of_mem_replicate hch]
      decide
  refine ⟨?_, getLast?_append_of_ne_nil _ hne⟩
  rw [filter_append, hfilter, nil_append]
  exact filter_eq_self.mpr fun ch hch => decide_eq_true (he ch hch)

/-- `2 ^ 31` foreign bytes in front of what three zeros are encoded as: `i` overflows. -/
theorem base64_fails : lb64encode [0, 0, 0] = .ok [65, 65, 65, 65] ∧
    Interspersed [65, 65, 65, 65] (List.replicate (2 ^ 31) 0 ++ [65, 65, 65, 65]) ∧
    lb64decode (List.replicate (2 ^ 31) 0 ++ [65, 65, 65, 65]) ≠ .ok [0, 0, 0] ∧
    ¬NoFault (lb64decode (List.replicate (2 ^ 31) 0 ++ [65, 65, 65, 65])) := by
  have hfault := not_noFault_of_foreign (k := 2 ^ 31) (by decide) [65, 65, 65, 65]
  have hletter : ∀ ch ∈ List.replicate 4 65, ¬Foreign ch := fun ch hch => by
    rw [List.eq_of_mem_replicate hch]
    decide
  refine ⟨by decide, interspersed_foreign _ (List.cons_ne_nil _ _) hletter, fun h => ?_, hfault⟩
  rw [h] at hfault
  exact hfault trivial

end Functions

end Mtask.Crypt
