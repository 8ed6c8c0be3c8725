import Mtask.Sproto.Encode

/-!
# The encoder stays inside of its buffer

What `sproto_encode` writes fits the buffer as long as no array of integers is widened at a bad
moment. When the first element of 64 bits comes behind `n` elements of 32 bits, the size that is
left is reduced by what widening these takes, and compared with the size of one element; but the
comparison takes the size for an unsigned number, and one that has become negative passes.
-/

namespace Mtask.Sproto

open Buffers LittleEndian Outcomes List

variable {σ ε : Type}

/-- The contract of the callback: what it writes fits, and its size is what it returns, plus one if
it is a string. -/
structure Respects (cb : Callback σ ε) : Prop where
  fits : ∀ args s r s', 0 ≤ args.length → cb args s = .ok (r, s') →
    (r.bytes.length : ℤ) ≤ args.length
  size : ∀ args s r s', 0 ≤ args.length → cb args s = .ok (r, s') → 0 < r.ret →
    args.type ≠ .integer → args.type ≠ .boolean →
      contentSize args.type r.ret = r.bytes.length

/-- The state of the callback when the first `n` elements of an array of integers have had 32 bits.
-/
def afterNarrow (cb : Callback σ ε) (args : Arg) (s : σ) : ℕ → Option σ
  | 0 => some s
  | n + 1 =>
    match afterNarrow cb args s n with
    | none => none
    | some s =>
      match cb { args with length := 8, index := n + 1 } s with
      | .ok (r, s) => if r.ret = 4 then some s else none
      | .error _ => none

/-- The callback gives `n` elements of 32 bits, and then one of 64 bits. -/
def WidensAt (cb : Callback σ ε) (args : Arg) (s : σ) (n : ℕ) : Prop :=
  ∃ t r t', afterNarrow cb args s n = some t ∧
    cb { args with length := 8, index := n + 1 } t = .ok (r, t') ∧ r.ret = 8

/-- Where the array `f` is widened, the `n` elements that are there do not fill more than half of
the room behind the width byte, or one more element of 64 bits does not fit behind them as they
are. -/
def WideningFits (cb : Callback σ ε) (f : Field) (w : Encoder σ) : Prop :=
  f.array = true → f.type = .integer → ∀ n : ℕ, WidensAt cb f.args w.s n →
    ¬(4 * n + 8 ≤ w.size - 5 ∧ w.size - 5 < 8 * n)

theorem asSizeT_of_nonneg {n : ℤ} (h : 0 ≤ n) (hlt : n < 2 ^ 64) : asSizeT n = n.toNat := by
  rw [asSizeT, Int.emod_eq_of_lt h hlt]

/-- A negative size passes every test against a small one. -/
theorem asSizeT_of_neg {n : ℤ} (h : n < 0) (hlt : -2 ^ 63 ≤ n) : 2 ^ 63 ≤ asSizeT n := by
  rw [asSizeT]
  omega

theorem safe_call {cb : Callback σ ε} {args : Arg} {s : σ} {Q : Reply × σ → Prop}
    (hQ : ∀ r, cb args s = .ok r → Q r) : Safe (call cb args s) Q :=
  post_call (fun _ _ => by simp) hQ

theorem safe_fillSize {buf : List UInt8} {data : ℕ} {sz : ℤ} (h : data + 4 ≤ buf.length) :
    Safe (fillSize buf data sz : Run ε _) fun r =>
      r.1.length = buf.length ∧ r.2 = sz + 4 := by
  refine .bind (safe_put (Q := fun buf' => buf'.length = buf.length) ?_ fun _ _ hl => hl)
    fun buf' hl => ?_
  · rwa [length_toBytes]
  · exact ⟨hl, rfl⟩

variable {v : ℕ}

section

variable {buf : List UInt8} {data : ℕ} {size : ℤ}

/-- An integer of `width` bytes behind its length. -/
theorem safe_number (width : ℕ) (hwidth : width < 2 ^ 31) (hlen : data + size = buf.length)
    (h0 : 0 ≤ size) (hlt : buf.length < 2 ^ 31) :
    Safe (if asSizeT size < sizeofLength + width then .error .fail
      else do
        let buf ← put buf (data + 4) (toBytes width v)
        fillSize buf data width : Run ε _) fun r =>
      r.1.length = buf.length ∧ r.2 ≤ size := by
  refine .ite (fun _ => by simp) fun hsize => ?_
  rw [asSizeT_of_nonneg h0 (by omega), sizeofLength] at hsize
  refine .bind (safe_put (Q := fun buf' => buf'.length = buf.length) ?_ fun _ _ hl => hl)
    fun buf' hl => ?_
  · rw [length_toBytes]
    omega
  · refine (safe_fillSize (by omega)).mono (fun _ h => h) fun r h => ⟨h.1.trans hl, ?_⟩
    rw [h.2]
    omega

theorem safe_encodeInteger (hlen : data + size = buf.length) (h0 : 0 ≤ size)
    (hlt : buf.length < 2 ^ 31) : Safe (encodeInteger v buf data size : Run ε _) fun r =>
      r.1.length = buf.length ∧ r.2 ≤ size :=
  safe_number 4 (by decide) hlen h0 hlt

theorem safe_encodeUint64 (hlen : data + size = buf.length) (h0 : 0 ≤ size)
    (hlt : buf.length < 2 ^ 31) : Safe (encodeUint64 v buf data size : Run ε _) fun r =>
      r.1.length = buf.length ∧ r.2 ≤ size :=
  safe_number 8 (by decide) hlen h0 hlt

theorem safe_encodeObject {cb : Callback σ ε} (hcb : Respects cb) {args : Arg} {s : σ}
    (hi : args.type ≠ .integer) (hb : args.type ≠ .boolean) (hlen : data + size = buf.length) :
    Safe (encodeObject cb args buf data size s) fun r =>
      r.1.length = buf.length ∧ r.2.1 ≤ size := by
  refine .ite (fun _ => by simp) fun hsize => ?_
  rw [sizeofLength] at hsize ⊢
  refine .bind (safe_call fun r hr => hr) fun r hr => ?_
  have hfit := hcb.fits _ _ _ _ (by simp only; omega) hr
  simp only at hfit
  refine .bind (safe_put (Q := fun buf' => buf'.length = buf.length) (by omega)
    fun _ _ hl => hl) fun buf₁ h₁ => ?_
  refine .ite (fun hret => ⟨h₁, by simp only; omega⟩) fun hret => ?_
  refine .bind (safe_fillSize (by omega)) fun b h₂ => ?_
  have hsz := hcb.size _ _ _ _ (by simp only; omega) hr (by omega) hi hb
  exact ⟨h₂.1.trans h₁, by simp only at hsz ⊢; omega⟩

theorem safe_rearrange {header n : ℕ} (hle : header + 1 + n * 8 ≤ buf.length) :
    Safe (rearrange buf header n : Run ε _) fun buf' => buf'.length = buf.length := by
  induction n generalizing buf with
  | zero => exact rfl
  | succ i ih =>
    refine .bind (Q := fun v => v.length = 4) (safe_get (by omega) (length_slice (by omega)))
      fun v hv => ?_
    refine .bind (safe_put (Q := fun b => b.length = buf.length) (by omega) fun _ _ hl => hl)
      fun buf₁ h₁ => ?_
    have hu := length_upperHalf (0x80000000 ≤ ofBytes v)
    refine .bind (safe_put (Q := fun b => b.length = buf.length) (by omega)
      fun _ _ hl => hl.trans h₁) fun buf₂ h₂ => ?_
    exact (ih (by omega)).mono (fun _ h => h) fun _ h => h.trans h₂

end

/-! ### Arrays of integers -/

/-- In front of every round: `n` elements are there, and while they are narrow the callback has
given nothing else. -/
structure IntArray.Valid (cb : Callback σ ε) (args : Arg) (s : σ) (header : ℕ) (room : ℤ)
    (len : ℕ) (w : IntArray σ) : Prop where
  length_eq : w.buf.length = len
  index_pos : 1 ≤ w.index
  buffer_eq : w.buffer = header + 1 + (w.index - 1) * w.intlen
  size_eq : w.size = room - ((w.index - 1) * w.intlen : ℕ)
  size_nonneg : 0 ≤ w.size
  narrow : w.wide = false → afterNarrow cb args s (w.index - 1) = some w.s

namespace IntArray.Valid

variable {cb : Callback σ ε} {args : Arg} {s t : σ} {header len : ℕ} {room : ℤ} {w : IntArray σ}

theorem index_mul (h : w.Valid cb args s header room len) :
    w.index * w.intlen = (w.index - 1) * w.intlen + w.intlen := by
  conv_lhs => rw [← Nat.sub_add_cancel h.index_pos, Nat.add_mul, Nat.one_mul]

theorem next {buf : List UInt8} (h : w.Valid cb args s header room len) (hl : buf.length = len)
    (hroom : (w.intlen : ℤ) ≤ w.size)
    (hn : w.wide = false → afterNarrow cb args s w.index = some t) :
    (w.next buf t).Valid cb args s header room len where
  length_eq := hl
  index_pos := Nat.le_add_left _ _
  buffer_eq := by
    change w.buffer + w.intlen = header + 1 + (w.index + 1 - 1) * w.intlen
    rw [h.buffer_eq, Nat.add_sub_cancel, h.index_mul]
    omega
  size_eq := by
    change w.size - w.intlen = room - ((w.index + 1 - 1) * w.intlen : ℕ)
    rw [h.size_eq, Nat.add_sub_cancel, h.index_mul]
    omega
  size_nonneg := by
    change 0 ≤ w.size - w.intlen
    omega
  narrow := hn

theorem buffer_add_size (h : w.Valid cb args s header room len) (hlen : header + 1 + room = len) :
    (w.buffer : ℤ) + w.size = len := by
  have hb := h.buffer_eq
  have hs := h.size_eq
  omega

theorem widen (h : w.Valid cb args s header room len) (hlen : header + 1 + room = len)
    (hlt : len < 2 ^ 31) (hsize : 8 ≤ w.size)
    (hfit : w.wide = false → ¬room < 8 * (w.index - 1 : ℕ)) :
    Safe (w.widen header : Run ε _) fun w' =>
      w'.Valid cb args s header room len ∧ w'.wide = true ∧ 8 ≤ w'.size := by
  rw [IntArray.widen]
  refine .ite (fun hw => ⟨h, hw, hsize⟩) fun hw => ?_
  rw [Bool.not_eq_true] at hw
  have hint : w.intlen = 4 := by simp [intlen, hw]
  have hroom := hfit hw
  have hs := h.size_eq
  rw [hint] at hs
  refine .ite (fun _ => by simp) fun h8 => ?_
  rw [asSizeT_of_nonneg (by omega) (by omega)] at h8
  have hbuf : header + 1 + (w.index - 1) * 8 ≤ w.buf.length := by
    rw [h.length_eq]
    omega
  refine .bind (safe_rearrange hbuf) fun buf hl => ?_
  have hb := h.buffer_eq
  rw [hint] at hb
  refine ⟨⟨hl.trans h.length_eq, h.index_pos, ?_, ?_, ?_, fun hf => by cases hf⟩, rfl, ?_⟩
  · change w.buffer + (w.index - 1) * 4 = header + 1 + (w.index - 1) * 8
    omega
  · change w.size - ((w.index - 1) * 4 : ℕ) = room - ((w.index - 1) * 8 : ℕ)
    omega
  · change 0 ≤ w.size - ((w.index - 1) * 4 : ℕ)
    omega
  · change 8 ≤ w.size - ((w.index - 1) * 4 : ℕ)
    omega

end IntArray.Valid

variable {r : Reply}

theorem afterNarrow_succ {cb : Callback σ ε} {args : Arg} {s t t' : σ} {n : ℕ}
    (h : afterNarrow cb args s n = some t)
    (hr : cb { args with length := 8, index := n + 1 } t = .ok (r, t')) (h4 : r.ret = 4) :
    afterNarrow cb args s (n + 1) = some t' := by
  rw [afterNarrow, h]
  simp only [hr, if_pos h4]

section

variable {cb : Callback σ ε} {args : Arg} {s : σ} {header len : ℕ} {room : ℤ} {w : IntArray σ}

theorem safe_putUpper {buf : List UInt8} (h : w.buffer + w.intlen ≤ buf.length) :
    Safe (w.putUpper buf v : Run ε _) fun buf' => buf'.length = buf.length := by
  refine .ite (fun hw => ?_) fun _ => rfl
  refine safe_put ?_ fun _ _ hl => hl
  rw [IntArray.intlen, if_pos hw] at h
  rwa [length_upperHalf, Nat.add_assoc]

/-- An element fits behind the others if widening these does. -/
theorem IntArray.Valid.element {t : σ} (h : w.Valid cb args s header room len)
    (hlen : header + 1 + room = len) (hlt : len < 2 ^ 31) (hsize : 8 ≤ w.size)
    (hr : cb { args with length := 8, index := w.index } w.s = .ok (r, t))
    (hfit : ∀ n : ℕ, WidensAt cb args s n → ¬(4 * n + 8 ≤ room ∧ room < 8 * n)) :
    Safe (w.element header r t : Run ε _) fun w' => w'.Valid cb args s header room len := by
  have hplace := h.buffer_add_size hlen
  have hl := h.length_eq
  have hint : w.intlen ≤ 8 := by
    rw [intlen]
    split <;> decide
  have hidx : w.index - 1 + 1 = w.index := Nat.sub_add_cancel h.index_pos
  refine .ite (fun h4 => ?_) fun h4 => .ite (fun _ => by simp) fun h8 => ?_
  · refine .bind (safe_put (Q := fun b => b.length = w.buf.length) ?_ fun _ _ hl => hl)
      fun buf₁ h₁ => ?_
    · rw [length_toBytes]
      omega
    refine .bind (safe_putUpper (by omega)) fun buf₂ h₂ => ?_
    refine h.next (by omega) (by omega) fun hw => ?_
    have := afterNarrow_succ (h.narrow hw) (by rwa [hidx]) h4
    rwa [hidx] at this
  · rw [not_not] at h8
    refine .bind (h.widen hlen hlt hsize fun hw => ?_) fun w₁ hw₁ => ?_
    · -- the first large element behind `w.index - 1` small ones
      have hwid : WidensAt cb args s (w.index - 1) :=
        ⟨w.s, r, t, h.narrow hw, by rwa [hidx], h8⟩
      have hs := h.size_eq
      rw [show w.intlen = 4 by simp [intlen, hw]] at hs
      have := hfit _ hwid
      omega
    · obtain ⟨hv, hwide, hsize₁⟩ := hw₁
      have hplace₁ := hv.buffer_add_size hlen
      have hl₁ := hv.length_eq
      have hint₁ : w₁.intlen = 8 := by simp [intlen, hwide]
      refine .bind (safe_put (Q := fun b => b.length = w₁.buf.length) ?_ fun _ _ hl => hl)
        fun buf₂ h₂ => ?_
      · rw [length_toBytes]
        omega
      refine hv.next (by omega) (by omega) fun hw => ?_
      rw [hwide] at hw
      cases hw

/-- What the loop leaves behind: the end of the array is inside of its room. -/
theorem safe_integerRound (hlen : header + 1 + room = len) (hlt : len < 2 ^ 31)
    (hfit : ∀ n : ℕ, WidensAt cb args s n → ¬(4 * n + 8 ≤ room ∧ room < 8 * n))
    (h : w.Valid cb args s header room len) :
    Safe (integerRound cb args header w) (Loop.Keeps (fun w => w.Valid cb args s header room len)
      fun w => w.buf.length = len ∧ header + 1 ≤ w.buffer ∧ w.buffer ≤ len) := by
  refine .bind (safe_call fun r hr => hr) fun r hr => ?_
  refine .ite (fun _ => by simp) fun hneg => .ite (fun h0 => ?_) fun h0 => ?_
  · have hb := h.buffer_eq
    have hplace := h.buffer_add_size hlen
    have := h.size_nonneg
    exact ⟨h.length_eq, by simp only; omega, by simp only; omega⟩
  · refine .ite (fun _ => by simp) fun hsize => ?_
    have hplace := h.buffer_add_size hlen
    rw [asSizeT_of_nonneg h.size_nonneg (by omega)] at hsize
    exact .bind (h.element hlen hlt (by omega) hr hfit) fun w' hw' => hw'

end

/-! ### Arrays -/

section

variable {cb : Callback σ ε} {args : Arg} {s : σ} {buf : List UInt8} {buffer data : ℕ} {size : ℤ}

/-- The variables of `encode_integer_array` in front of its loop. -/
def startIntegers (buf : List UInt8) (buffer : ℕ) (size : ℤ) (s : σ) : IntArray σ :=
  { buf, buffer := buffer + 1, size := size - 1, wide := false, index := 1, s }

variable (cb args s buf buffer) in
theorem valid_startIntegers (h0 : 1 ≤ size) :
    (startIntegers buf buffer size s).Valid cb args s buffer (size - 1) buf.length where
  length_eq := rfl
  index_pos := Nat.le_refl _
  buffer_eq := rfl
  size_eq := (Int.sub_zero _).symm
  size_nonneg := by
    change 0 ≤ size - 1
    omega
  narrow := fun _ => rfl

theorem safe_encodeIntegerArray (hlen : buffer + size = buf.length) (hlt : buf.length < 2 ^ 31)
    (hfit : ∀ n : ℕ, WidensAt cb args s n → ¬(4 * n + 8 ≤ size - 1 ∧ size - 1 < 8 * n)) :
    Safe (encodeIntegerArray cb args buf buffer size s) fun r =>
      r.1.length = buf.length ∧ buffer ≤ r.2.1 ∧ r.2.1 ≤ buf.length := by
  refine .ite (fun _ => by simp) fun hsize => ?_
  have hroom : buffer + 1 + (size - 1) = buf.length := by omega
  refine .bind (Loop.post_run (fun w => safe_integerRound hroom hlt hfit)
    (valid_startIntegers _ _ _ _ _ (by omega))) fun w ⟨hl, hlow, hhigh⟩ => ?_
  refine .ite (fun _ => ⟨hl, Nat.le_refl _, by simp only; omega⟩) fun _ => ?_
  refine .bind (safe_put (Q := fun b => b.length = buf.length) ?_ fun _ _ h => h.trans hl)
    fun b hb => ?_
  · rw [length_singleton]
    omega
  · exact ⟨hb, by simp only; omega, hhigh⟩

/-- In front of every round of the other loops. -/
structure Elements.Valid (buffer len : ℕ) (w : Elements σ) : Prop where
  length_eq : w.buf.length = len
  buffer_le : buffer ≤ w.buffer
  place : w.buffer + w.size = len
  size_nonneg : 0 ≤ w.size

variable {len : ℕ} {w : Elements σ}

theorem safe_booleanRound (h : w.Valid buffer len) :
    Safe (booleanRound cb args w)
      (Loop.Keeps (Elements.Valid buffer len) (Elements.Valid buffer len)) := by
  obtain ⟨hl, hlow, hplace, h0⟩ := h
  refine .bind (safe_call fun r hr => hr) fun r hr => ?_
  refine .ite (fun _ => by simp) fun _ => .ite (fun _ => ⟨hl, hlow, hplace, h0⟩) fun _ => ?_
  refine .ite (fun _ => by simp) fun hsize => ?_
  refine .bind (safe_put (Q := fun b => b.length = w.buf.length) ?_ fun _ _ hl => hl)
    fun b hb => ?_
  · rw [length_singleton]
    omega
  · exact ⟨hb.trans hl, by simp only; omega, by simp only; omega, by simp only; omega⟩

theorem safe_objectRound (hcb : Respects cb) (hi : args.type ≠ .integer)
    (hb : args.type ≠ .boolean) (h : w.Valid buffer len) :
    Safe (objectRound cb args w)
      (Loop.Keeps (Elements.Valid buffer len) (Elements.Valid buffer len)) := by
  obtain ⟨hl, hlow, hplace, h0⟩ := h
  refine .ite (fun _ => by simp) fun hsize => ?_
  rw [sizeofLength] at hsize ⊢
  refine .bind (safe_call fun r hr => hr) fun r hr => ?_
  have hfit := hcb.fits _ _ _ _ (by simp only; omega) hr
  simp only at hfit
  refine .bind (safe_put (Q := fun b => b.length = w.buf.length) (by omega) fun _ _ hl => hl)
    fun buf₁ h₁ => ?_
  refine .ite (fun _ => ⟨h₁.trans hl, hlow, hplace, h0⟩) fun hne => ?_
  refine .ite (fun _ => by simp) fun hneg => ?_
  have hsz := hcb.size _ _ _ _ (by simp only; omega) hr (by omega) hi hb
  simp only at hsz
  refine .bind (safe_fillSize (by omega)) fun b h₂ => ?_
  exact ⟨h₂.1.trans (h₁.trans hl), by simp only; omega, by simp only; omega, by simp only; omega⟩

theorem safe_encodeElements (hcb : Respects cb) (hlen : buffer + size = buf.length)
    (h0 : 0 ≤ size) (hlt : buf.length < 2 ^ 31)
    (hfit : args.type = .integer → ∀ n : ℕ, WidensAt cb args s n →
      ¬(4 * n + 8 ≤ size - 1 ∧ size - 1 < 8 * n)) :
    Safe (encodeElements cb args buf buffer size s) fun r =>
      r.1.length = buf.length ∧ buffer ≤ r.2.1 ∧ r.2.1 ≤ buf.length := by
  have hstart : Elements.Valid buffer buf.length ⟨buf, buffer, size, 1, s⟩ :=
    ⟨rfl, Nat.le_refl _, hlen, h0⟩
  have hend : ∀ w : Elements σ, w.Valid buffer buf.length →
      w.buf.length = buf.length ∧ buffer ≤ w.buffer ∧ w.buffer ≤ buf.length := fun w h => by
    obtain ⟨hl, hlow, hplace, h0⟩ := h
    exact ⟨hl, hlow, by omega⟩
  rw [encodeElements]
  split
  · exact safe_encodeIntegerArray hlen hlt (hfit ‹_›)
  · exact .bind (Loop.post_run (fun w => safe_booleanRound) hstart) fun w hw => hend w hw
  · exact .bind (Loop.post_run (fun w => safe_objectRound hcb ‹_› ‹_›) hstart)
      fun w hw => hend w hw

theorem safe_encodeArray (hcb : Respects cb) (hlen : data + size = buf.length)
    (hlt : buf.length < 2 ^ 31)
    (hfit : args.type = .integer → ∀ n : ℕ, WidensAt cb args s n →
      ¬(4 * n + 8 ≤ size - 5 ∧ size - 5 < 8 * n)) :
    Safe (encodeArray cb args buf data size s) fun r =>
      r.1.length = buf.length ∧ r.2.1 ≤ size := by
  refine .ite (fun _ => by simp) fun hsize => ?_
  rw [sizeofLength] at hsize ⊢
  refine .bind (safe_encodeElements hcb (by omega) (by omega) hlt fun ht n hn hbad => ?_)
    fun r hr => ?_
  · exact hfit ht n hn (by omega)
  · obtain ⟨buf', buffer, s'⟩ := r
    obtain ⟨hl, hlow, hhigh⟩ := hr
    simp only at hl hlow hhigh ⊢
    refine .ite (fun _ => ⟨hl, by simp only; omega⟩) fun _ => ?_
    refine .bind (safe_fillSize (by omega)) fun b hb => ?_
    obtain ⟨hl₂, hsz⟩ := hb
    refine ⟨hl₂.trans hl, ?_⟩
    simp only [hsz]
    omega

end

/-! ### Messages -/

/-- In front of every field: `fs` are the fields to come, and `next` the first tag they may have.
The records that they can still need fit the header, together with one for the tags that have been
passed over. -/
structure Encoder.Valid (st : SprotoType) (len next : ℕ) (fs : List Field) (w : Encoder σ) :
    Prop where
  length_eq : w.buf.length = len
  place : w.data + w.size = len
  size_nonneg : 0 ≤ w.size
  header_le : st.headerSz ≤ w.data
  last_lt : w.lasttag < next
  records : w.index + fs.length + gaps next fs + (if w.lasttag + 1 < next then 1 else 0) ≤ st.maxn

namespace Encoder.Valid

variable {st : SprotoType} {cb : Callback σ ε} {len next : ℕ} {f : Field} {fs : List Field}
  {w : Encoder σ}

/-- A field that is absent leaves the records it could need. -/
theorem skip (h : w.Valid st len next (f :: fs)) (hf : next ≤ f.tag) :
    w.Valid st len (f.tag + 1) fs := by
  obtain ⟨hl, hplace, h0, hheader, hlast, hrec⟩ := h
  refine ⟨hl, hplace, h0, hheader, by push_cast; omega, ?_⟩
  rw [gaps, length_cons] at hrec
  split <;> omega

theorem set_buf {buf : List UInt8} {s : σ} (h : w.Valid st len next fs) (hl : buf.length = len) :
    ({ w with buf, s } : Encoder σ).Valid st len next fs :=
  ⟨hl, h.place, h.size_nonneg, h.header_le, h.last_lt, h.records⟩

theorem advance {sz : ℤ} (h : w.Valid st len next fs) (h0 : 0 ≤ sz) (hle : sz ≤ w.size) :
    ({ w with data := w.data + sz.toNat, size := w.size - sz } : Encoder σ).Valid st len next fs := by
  obtain ⟨hl, hplace, hsize, hheader, hlast, hrec⟩ := h
  exact ⟨hl, by simp only; omega, by simp only; omega, by simp only; omega, hlast, hrec⟩

theorem writeRecords {value : ℕ} (h : w.Valid st len next (f :: fs)) (hf : next ≤ f.tag) :
    Safe (writeRecords f w value : Run ε _) fun w' =>
      w'.Valid st len (f.tag + 1) fs ∧ w'.data = w.data := by
  obtain ⟨hl, hplace, h0, hheader, hlast, hrec⟩ := h
  rw [gaps, length_cons] at hrec
  have hsz : st.headerSz = 2 + st.maxn * 2 := rfl
  refine .bind (Q := fun w₁ => w₁ = { w with buf := w₁.buf, index := w₁.index } ∧
    w₁.buf.length = len ∧ w₁.index + 1 + fs.length + gaps (f.tag + 1) fs ≤ st.maxn) ?_
    fun w₁ ⟨he, hl₁, hrec₁⟩ => ?_
  · rw [writeSkip]
    refine .ite (fun hskip => .ite (fun _ => by simp) fun _ => ?_) fun hskip => ⟨rfl, hl, ?_⟩
    · refine .bind (safe_put (Q := fun b => b.length = len) ?_ fun _ _ h => h.trans hl)
        fun b hb => ⟨rfl, hb, ?_⟩
      · rw [length_toBytes, recordAt, sizeofHeader, sizeofField]
        split at hrec <;> split at hrec <;> omega
      · simp only
        split at hrec <;> split at hrec <;> omega
    · split at hrec <;> split at hrec <;> omega
  · refine .bind (safe_put (Q := fun b => b.length = len) ?_ fun _ _ h => h.trans hl₁)
      fun b hb => ⟨⟨hb, ?_, ?_, ?_, ?_, ?_⟩, ?_⟩
    · rw [length_toBytes, recordAt, sizeofHeader, sizeofField]
      omega
    · rw [he]
      exact hplace
    · rw [he]
      exact h0
    · rw [he]
      exact hheader
    · exact Int.lt_add_one_of_le (Int.le_refl _)
    · rw [if_neg (by simp)]
      simp only
      omega
    · rw [he]

theorem encodeValue (hcb : Respects cb) (h : w.Valid st len next fs) (hlt : len < 2 ^ 31)
    (hfit : WideningFits cb f w) :
    Safe (encodeValue cb f w) fun v => v.buf.length = len ∧ (v.value = 0 → v.sz ≤ w.size) := by
  have hplace := h.place
  rw [← h.length_eq] at hplace hlt
  rw [Sproto.encodeValue]
  refine .ite (fun ha => ?_) fun ha => ?_
  · refine .bind (safe_encodeArray hcb hplace hlt fun ht n => hfit ha ht n) fun r hr => ?_
    exact ⟨hr.1.trans h.length_eq, fun _ => hr.2⟩
  · have hscalar : Safe (encodeScalar cb f.args w) fun v =>
        v.buf.length = len ∧ (v.value = 0 → v.sz ≤ w.size) := by
      refine .bind (safe_call fun r hr => hr) fun r hr => ?_
      refine .ite (fun _ => by simp) fun _ => .ite (fun _ => ⟨h.length_eq, fun _ => h.size_nonneg⟩)
        fun _ => .ite (fun _ => .ite (fun hu => ⟨h.length_eq, fun hv => ?_⟩) fun _ => ?_) fun _ =>
          .ite (fun _ => ?_) fun _ => by simp
      · simp only at hv
        omega
      · refine .bind (safe_encodeInteger hplace h.size_nonneg hlt) fun b hb => ?_
        exact ⟨hb.1.trans h.length_eq, fun _ => hb.2⟩
      · refine .bind (safe_encodeUint64 hplace h.size_nonneg hlt) fun b hb => ?_
        exact ⟨hb.1.trans h.length_eq, fun _ => hb.2⟩
    split
    · exact hscalar
    · exact hscalar
    · refine .bind (safe_encodeObject hcb ‹_› ‹_› hplace) fun r hr => ?_
      exact ⟨hr.1.trans h.length_eq, fun _ => hr.2⟩

theorem encodeField (hcb : Respects cb) (h : w.Valid st len next (f :: fs)) (hf : next ≤ f.tag)
    (hlt : len < 2 ^ 31) (hfit : WideningFits cb f w) :
    Safe (encodeField cb f w) fun w' => w'.Valid st len (f.tag + 1) fs := by
  refine .bind (h.encodeValue hcb hlt hfit) fun v ⟨hl, hsz⟩ => ?_
  have h' := h.set_buf (s := v.s) hl
  refine .ite (fun _ => by simp) fun hneg => .ite (fun _ => h'.skip hf) fun h0 => ?_
  refine .ite (fun hv => ?_) fun hv => ?_
  · exact ((h'.advance (by omega) (hsz hv)).writeRecords hf).mono (fun _ h => h) fun _ h => h.1
  · exact (h'.writeRecords hf).mono (fun _ h => h) fun _ h => h.1

end Encoder.Valid

/-! ### A widening that does not fit -/

theorem call_eq {cb : Callback σ ε} {args : Arg} {s : σ} {r : Reply × σ}
    (h : cb args s = .ok r) : call cb args s = .ok r := by
  rw [call, h]

theorem exists_put (buf : List UInt8) (i : ℕ) (bs : List UInt8) (h : i + bs.length ≤ buf.length) :
    ∃ buf', (put buf i bs : Run ε _) = .ok buf' ∧ buf'.length = buf.length := by
  obtain ⟨buf', hb⟩ := Option.isSome_iff_exists.mp (store_isSome h)
  exact ⟨buf', by rw [put, hb], length_store hb⟩

theorem put_outOfBounds (buf : List UInt8) (i : ℕ) (bs : List UInt8) (h : buf.length < i + bs.length) :
    (put buf i bs : Run ε _) = .error .outOfBounds := by
  rw [put, store_eq_none_iff.mpr h]

/-- The last element that is moved apart does not fit. -/
theorem rearrange_outOfBounds {buf : List UInt8} {header n : ℕ} (hn : 0 < n)
    (hsrc : header + 1 + n * 4 ≤ buf.length) (hdst : buf.length < header + 1 + n * 8) :
    (rearrange buf header n : Run ε _) = .error .outOfBounds := by
  obtain ⟨i, rfl⟩ : ∃ i, n = i + 1 := ⟨n - 1, by omega⟩
  have hv : (slice buf (header + 1 + i * 4) 4).length = 4 := length_slice (by omega)
  rw [rearrange, get, load_eq_some (by omega)]
  simp only [bind, Except.bind]
  by_cases hlow : header + 1 + i * 8 + 4 ≤ buf.length
  · obtain ⟨buf₁, h₁, hl₁⟩ := exists_put (ε := ε) buf (header + 1 + i * 8)
      (slice buf (header + 1 + i * 4) 4) (by omega)
    rw [h₁]
    simp only
    rw [put_outOfBounds buf₁ _ _ (by rw [length_upperHalf]; omega)]
  · rw [put_outOfBounds buf _ _ (by omega)]

section

variable {cb : Callback σ ε} {args : Arg} {s : σ} {header len n : ℕ} {room : ℤ} {w : IntArray σ}

theorem afterNarrow_of_le {k : ℕ} (hk : k < n) {t : σ} (h : afterNarrow cb args s n = some t) :
    ∃ u r u', afterNarrow cb args s k = some u ∧
      cb { args with length := 8, index := k + 1 } u = .ok (r, u') ∧ r.ret = 4 := by
  induction n generalizing t with
  | zero => omega
  | succ n ih =>
    rw [afterNarrow] at h
    cases hu : afterNarrow cb args s n with
    | none => simp [hu] at h
    | some u =>
      rcases Nat.lt_succ_iff_lt_or_eq.mp hk with hlt | rfl
      · exact ih hlt hu
      · simp only [hu] at h
        cases hr : cb { args with length := 8, index := k + 1 } u with
        | error e => simp [hr] at h
        | ok r =>
          simp only [hr] at h
          split at h
          · exact ⟨u, r.1, r.2, hu, hr, ‹_›⟩
          · cases h

section

variable (h : w.Valid cb args s header room len) (hlen : header + 1 + room = len)
  (hlt : len < 2 ^ 31) (hw : w.wide = false)
include h hlen hlt hw

/-- A small element goes behind the small elements that are there. -/
theorem IntArray.Valid.again (hsize : 8 ≤ w.size) {r : Reply} {t : σ}
    (hr : cb { args with length := 8, index := w.index } w.s = .ok (r, t)) (h4 : r.ret = 4) :
    ∃ w', integerRound cb args header w = .ok (.again w') ∧
      w'.Valid cb args s header room len ∧ w'.wide = false ∧ w'.index = w.index + 1 := by
  have hplace := h.buffer_add_size hlen
  have hl := h.length_eq
  have hint : w.intlen = 4 := by simp [intlen, hw]
  have hidx : w.index - 1 + 1 = w.index := Nat.sub_add_cancel h.index_pos
  obtain ⟨buf, hb, hlb⟩ := exists_put (ε := ε) w.buf w.buffer (toBytes 4 r.u32)
    (by rw [length_toBytes]; omega)
  refine ⟨w.next buf t, ?_, h.next (by omega) (by omega) fun _ => ?_, hw, rfl⟩
  · rw [integerRound, call_eq hr]
    simp only [bind, Except.bind]
    rw [if_neg (by omega), if_neg (by omega),
      if_neg (by rw [asSizeT_of_nonneg h.size_nonneg (by omega)]; omega), IntArray.element, if_pos h4, hb]
    simp [bind, Except.bind, putUpper, hw]
    rfl
  · have := afterNarrow_succ (h.narrow hw) (by rwa [hidx]) h4
    rwa [hidx] at this

/-- At the bad moment the size that is left becomes negative, and passes the test. -/
theorem IntArray.Valid.widen_outOfBounds
    (hbad : 4 * (w.index - 1 : ℕ) + 8 ≤ room ∧ room < 8 * (w.index - 1 : ℕ)) :
    (w.widen header : Run ε _) = .error .outOfBounds := by
  have hint : w.intlen = 4 := by simp [intlen, hw]
  have hs := h.size_eq
  have hl := h.length_eq
  rw [hint] at hs
  rw [IntArray.widen, if_neg (by simp [hw])]
  simp only
  rw [if_neg ?_, rearrange_outOfBounds (by omega) (by omega) (by omega)]
  · rfl
  · have := asSizeT_of_neg (n := w.size - ((w.index - 1) * 4 : ℕ)) (by omega) (by omega)
    omega

end

/-- From the round behind `k` small elements on, the loop leaves the buffer. -/
theorem integerLoop_outOfBounds (hlen : header + 1 + room = len) (hlt : len < 2 ^ 31)
    (hn : WidensAt cb args s n) (hbad : 4 * n + 8 ≤ room ∧ room < 8 * n)
    (h : w.Valid cb args s header room len) (hw : w.wide = false) (hk : w.index ≤ n + 1) :
    (integerLoop cb args header).run w = .error .outOfBounds := by
  obtain ⟨t, r, t', ht, hr, h8⟩ := hn
  have hidx : w.index - 1 + 1 = w.index := Nat.sub_add_cancel h.index_pos
  have hs := h.size_eq
  rw [show w.intlen = 4 by simp [IntArray.intlen, hw]] at hs
  induction hd : n + 1 - w.index generalizing w with
  | zero =>
    have hi : w.index - 1 = n := by omega
    have hnar := h.narrow hw
    rw [hi, ht] at hnar
    cases hnar
    refine Loop.run_of_error ?_
    change integerRound cb args header w = _
    rw [integerRound, call_eq (r := (r, t')) (by rw [show w.index = n + 1 by omega]; exact hr)]
    simp only [bind, Except.bind]
    rw [if_neg (by omega), if_neg (by omega),
      if_neg (by rw [asSizeT_of_nonneg h.size_nonneg (by omega)]; omega), IntArray.element,
      if_neg (by omega), if_neg (by omega)]
    simp only [bind, Except.bind]
    rw [h.widen_outOfBounds hlen hlt hw (by rw [hi]; exact hbad)]
  | succ d ih =>
    obtain ⟨u, q, u', hu, hq, h4⟩ := afterNarrow_of_le (k := w.index - 1) (by omega) ht
    have hnar := h.narrow hw
    rw [hu] at hnar
    cases hnar
    rw [hidx] at hq
    obtain ⟨w', hagain, hv, hw', hindex⟩ := h.again hlen hlt hw (by omega) hq h4
    have hs' := hv.size_eq
    rw [show w'.intlen = 4 by simp [IntArray.intlen, hw']] at hs'
    rw [Loop.run_of_again (l := integerLoop cb args header) hagain]
    exact ih hv hw' (by omega) (by omega) hs' (by omega)

end

variable {gs : List Field}

section

variable {st : SprotoType} {cb : Callback σ ε} {len next : ℕ} {f : Field} {fs : List Field}
  {w : Encoder σ}

variable {buf : List UInt8}

theorem encodeIntegerArray_outOfBounds {args : Arg} {buffer : ℕ} {size : ℤ} {s : σ} {n : ℕ}
    (hlen : buffer + size = buf.length) (hlt : buf.length < 2 ^ 31) (hn : WidensAt cb args s n)
    (hbad : 4 * n + 8 ≤ size - 1 ∧ size - 1 < 8 * n) :
    encodeIntegerArray cb args buf buffer size s = .error .outOfBounds := by
  have hstart := valid_startIntegers cb args s buf buffer (show 1 ≤ size by omega)
  have hloop := integerLoop_outOfBounds (by omega) hlt hn hbad hstart rfl (Nat.le_add_left _ _)
  rw [encodeIntegerArray, if_neg (by omega)]
  rw [startIntegers] at hloop
  rw [hloop]
  rfl

/-- A widening that does not fit leaves the buffer. -/
theorem Encoder.Valid.outOfBounds (h : w.Valid st len next fs) (hlt : len < 2 ^ 31)
    (hfit : ¬WideningFits cb f w) :
    Sproto.encodeField cb f w = .error .outOfBounds := by
  simp only [WideningFits, not_forall, not_not] at hfit
  obtain ⟨ha, ht, n, hn, hbad⟩ := hfit
  have hplace := h.place
  have hl := h.length_eq
  have harray : encodeElements cb f.args w.buf (w.data + sizeofLength) (w.size - sizeofLength) w.s =
      .error .outOfBounds := by
    rw [encodeElements, show f.args.type = .integer from ht, sizeofLength]
    exact encodeIntegerArray_outOfBounds (by omega) (by omega) hn (by omega)
  rw [Sproto.encodeField, Sproto.encodeValue, if_pos ha, encodeArray,
    if_neg (by rw [sizeofLength]; omega), harray]
  rfl

/-- The encoder is in order in front of every field that it reaches. -/
theorem Encoder.Valid.of_ok (hcb : Respects cb) (hlt : len < 2 ^ 31) {w' : Encoder σ}
    (h : w.Valid st len next (fs ++ gs)) (hs : (fs ++ gs).Pairwise (·.tag < ·.tag))
    (hnext : ∀ f ∈ fs ++ gs, next ≤ f.tag) (hok : encodeFields cb fs w = .ok w') :
    ∃ next', w'.Valid st len next' gs ∧ ∀ f ∈ gs, next' ≤ f.tag := by
  induction fs generalizing w next with
  | nil =>
    cases hok
    exact ⟨next, h, hnext⟩
  | cons f fs ih =>
    rw [cons_append, pairwise_cons] at hs
    rw [encodeFields] at hok
    by_cases hfit : WideningFits cb f w
    · have hf := h.encodeField hcb (hnext f mem_cons_self) hlt hfit
      cases hw : Sproto.encodeField cb f w with
      | error e =>
        rw [hw] at hok
        cases hok
      | ok w₁ =>
        rw [hw] at hok
        exact ih (hf.of_ok hw) hs.2 (fun g hg => hs.1 g hg) hok
    · rw [h.outOfBounds hlt hfit] at hok
      cases hok

theorem encodeFields_append (fs gs : List Field) (w : Encoder σ) :
    encodeFields cb (fs ++ gs) w = encodeFields cb fs w >>= encodeFields cb gs := by
  induction fs generalizing w with
  | nil => rfl
  | cons f fs ih =>
    rw [cons_append, encodeFields, encodeFields]
    cases Sproto.encodeField cb f w with
    | error e => rfl
    | ok w => exact ih w

/-- While every widening fits, the loop of `sproto_encode` stays inside of the buffer. -/
theorem Encoder.Valid.encodeFields (hcb : Respects cb) (hlt : len < 2 ^ 31)
    (h : w.Valid st len next fs) (hs : fs.Pairwise (·.tag < ·.tag))
    (hnext : ∀ f ∈ fs, next ≤ f.tag)
    (hfit : ∀ gs f hs w', fs = gs ++ f :: hs → Sproto.encodeFields cb gs w = .ok w' →
      WideningFits cb f w') :
    Safe (Sproto.encodeFields cb fs w) fun w' => ∃ next', w'.Valid st len next' [] := by
  induction fs generalizing w next with
  | nil => exact ⟨next, h⟩
  | cons f fs ih =>
    rw [pairwise_cons] at hs
    have hf := h.encodeField hcb (hnext f mem_cons_self) hlt
      (hfit [] f fs w rfl rfl)
    rw [Sproto.encodeFields]
    cases hw : Sproto.encodeField cb f w with
    | error e => exact fun he => hf.of_error hw he
    | ok w₁ =>
      refine ih (hf.of_ok hw) hs.2 (fun g hg => hs.1 g hg) fun gs g hs' w' hfs hw' => ?_
      refine hfit (f :: gs) g hs' w' (by rw [hfs]; rfl) ?_
      rw [Sproto.encodeFields, hw]
      exact hw'

theorem valid_startEncode {s : σ} (h : st.headerSz ≤ buf.length) :
    (startEncode st buf s).Valid st buf.length 0 st.f where
  length_eq := rfl
  place := by
    simp only [startEncode]
    omega
  size_nonneg := by
    simp only [startEncode]
    omega
  header_le := Nat.le_refl _
  last_lt := by simp [startEncode]
  records := by simp [startEncode, st.maxn_eq]

theorem safe_finishEncode (h : w.Valid st len next []) :
    Safe (finishEncode st w : Run ε _) fun r => r.1.length = len ∧ r.2.1 ≤ len := by
  obtain ⟨hl, hplace, h0, hheader, hlast, hrec⟩ := h
  have hsz : st.headerSz = 2 + st.maxn * 2 := rfl
  have hindex : w.index ≤ st.maxn := by
    simp only [length_nil] at hrec
    omega
  have hrecord : recordAt w.index = 2 + 2 * w.index := rfl
  refine .bind (safe_put (Q := fun b => b.length = len) ?_ fun _ _ h => h.trans hl) fun b hb => ?_
  · rw [length_toBytes]
    omega
  refine .bind (Q := fun b => b.length = len) ?_ fun b hb => ⟨hb, by simp only; omega⟩
  refine .ite (fun _ => hb) fun _ => ?_
  refine .bind (Q := fun d => d.length = w.data - st.headerSz)
    (safe_get (by omega) (length_slice (by omega))) fun d hd => ?_
  exact safe_put (by omega) fun _ _ h => h.trans hb

end

/-! ### The encoder and its buffer -/

section

variable (st : SprotoType) (buf : List UInt8) (cb : Callback σ ε) (s : σ)

/-- The loop of `sproto_encode` reaches the field `f` with the variables `w`. -/
def ReachesField (f : Field) (w : Encoder σ) : Prop :=
  ∃ fs gs, st.f = fs ++ f :: gs ∧ st.headerSz ≤ buf.length ∧
    encodeFields cb fs (startEncode st buf s) = .ok w

/-- A value of `size` in front of a round of a loop of `encode_array`. -/
def RoundSize (f : Field) (w : Encoder σ) (size : ℤ) : Prop :=
  f.array = true ∧ 4 ≤ w.size ∧
  match f.type with
  | .integer => 5 ≤ w.size ∧ ∃ u, size = u.size ∧ (integerLoop cb f.args (w.data + 4)).Reaches
      (startIntegers w.buf (w.data + 4) (w.size - 4) w.s) u
  | .boolean => ∃ u, size = u.size ∧
      (booleanLoop cb f.args).Reaches ⟨w.buf, w.data + 4, w.size - 4, 1, w.s⟩ u
  | _ => ∃ u, size = u.size ∧
      (objectLoop cb f.args).Reaches ⟨w.buf, w.data + 4, w.size - 4, 1, w.s⟩ u

/-- Nothing outside of the buffer is touched, the size that is left does not become negative,
neither between two fields nor inside of an array, and what is returned is a size inside of the
buffer. -/
structure StaysInside : Prop where
  accesses : sprotoEncode st buf cb s ≠ .error .outOfBounds
  between : ∀ f w, ReachesField st buf cb s f w → 0 ≤ w.size
  within : ∀ f w, ReachesField st buf cb s f w → ∀ size, RoundSize cb f w size → 0 ≤ size
  result : ∀ buf' n s', sprotoEncode st buf cb s = .ok (buf', n, s') → n ≤ buf.length

variable {st buf cb s}

variable {w : Encoder σ} {f : Field}

section

variable (hcb : Respects cb) (hlt : buf.length < 2 ^ 31)
include hcb hlt

theorem ReachesField.valid (h : ReachesField st buf cb s f w) :
    ∃ next gs, w.Valid st buf.length next (f :: gs) := by
  obtain ⟨fs, gs, hfs, hsz, hok⟩ := h
  have hs := st.ascending
  have hv := valid_startEncode (s := s) hsz
  rw [hfs] at hs hv
  obtain ⟨next, hv', -⟩ := hv.of_ok hcb hlt hs (fun _ _ => Nat.zero_le _) hok
  exact ⟨next, gs, hv'⟩

/-- A widening that does not fit leaves the buffer. -/
theorem sprotoEncode_outOfBounds (h : ReachesField st buf cb s f w) (hfit : ¬WideningFits cb f w) :
    sprotoEncode st buf cb s = .error .outOfBounds := by
  obtain ⟨next, gs', hv⟩ := h.valid hcb hlt
  obtain ⟨fs, gs, hfs, hsz, hok⟩ := h
  rw [sprotoEncode, if_neg (by omega), hfs, encodeFields_append, hok]
  simp only [bind, Except.bind, encodeFields, hv.outOfBounds hlt hfit]

theorem nonneg_of_roundSize {next : ℕ} (h : w.Valid st buf.length next gs)
    (hfit : WideningFits cb f w) {size : ℤ} (hsize : RoundSize cb f w size) : 0 ≤ size := by
  obtain ⟨ha, h4, hround⟩ := hsize
  have hplace := h.place
  have hl := h.length_eq
  have hstart : Elements.Valid (w.data + 4) w.buf.length ⟨w.buf, w.data + 4, w.size - 4, 1, w.s⟩ :=
    ⟨rfl, Nat.le_refl _, by simp only; omega, by simp only; omega⟩
  split at hround
  · obtain ⟨h5, u, rfl, hu⟩ := hround
    have hroom : ∀ n : ℕ, WidensAt cb f.args w.s n →
        ¬(4 * n + 8 ≤ w.size - 4 - 1 ∧ w.size - 4 - 1 < 8 * n) := fun n hn hbad =>
      hfit ha ‹_› n hn (by omega)
    have hu' := hu.invariant (fun v hv => safe_integerRound (by omega) (by omega) hroom hv)
      (valid_startIntegers cb f.args w.s w.buf (w.data + 4) (show 1 ≤ w.size - 4 by omega))
    exact hu'.size_nonneg
  · obtain ⟨u, rfl, hu⟩ := hround
    exact (hu.invariant (I := Elements.Valid _ _) (fun v hv => safe_booleanRound hv) hstart).size_nonneg
  · obtain ⟨u, rfl, hu⟩ := hround
    have hi : f.args.type ≠ .integer := ‹_›
    have hb : f.args.type ≠ .boolean := ‹_›
    exact (hu.invariant (I := Elements.Valid _ _) (fun v hv => safe_objectRound hcb hi hb hv)
      hstart).size_nonneg

end

/-- The encoder stays inside of its buffer exactly when every widening fits. -/
theorem staysInside_iff (hcb : Respects cb) (hlt : buf.length < 2 ^ 31) :
    StaysInside st buf cb s ↔
      ∀ f w, ReachesField st buf cb s f w → WideningFits cb f w := by
  constructor
  · intro h f w hw
    by_contra hfit
    exact h.accesses (sprotoEncode_outOfBounds hcb hlt hw hfit)
  · intro hfit
    have hsafe : Safe (sprotoEncode st buf cb s) fun r => r.2.1 ≤ buf.length := by
      refine .ite (fun _ => by simp) fun hsz => ?_
      refine .bind ((valid_startEncode (by omega)).encodeFields hcb hlt st.ascending
        (fun _ _ => Nat.zero_le _) fun gs f hs w hfs hw => ?_) fun w ⟨next, hw⟩ => ?_
      · exact hfit f w ⟨gs, hs, hfs, by omega, hw⟩
      · exact (safe_finishEncode hw).mono (fun _ h => h) fun _ h => h.2
    refine ⟨fun he => hsafe.of_error he rfl, fun f w hw => ?_, fun f w hw size hsize => ?_,
      fun buf' n s' h => hsafe.of_ok h⟩
    · obtain ⟨next, gs, hv⟩ := hw.valid hcb hlt
      exact hv.size_nonneg
    · obtain ⟨next, gs, hv⟩ := hw.valid hcb hlt
      exact nonneg_of_roundSize hcb hlt hv (hfit f w hw) hsize

end

/-! ### An array that is widened when it fills more than half of its room -/

/-- A type with one array of integers. -/
def numbersType : SprotoType where
  name := []
  f := [⟨0, .integer, true, [], none⟩]
  base := 0
  maxn := 1
  consistent :=
    { ascending := List.pairwise_singleton _ _
      tag_lt := by simp
      base_eq := rfl
      maxn_eq := rfl }

/-- A callback that gives three elements of 32 bits and one of 64 bits. -/
def numbers : Callback Unit Unit := fun args s =>
  if args.type = .integer ∧ 8 ≤ args.length then
    if args.index ≤ 3 then .ok (⟨[1, 0, 0, 0], 4⟩, s)
    else if args.index = 4 then .ok (⟨[0, 0, 0, 0, 1, 0, 0, 0], 8⟩, s)
    else .ok (⟨[], 0⟩, s)
  else .ok (⟨[], 0⟩, s)

theorem respects_numbers : Respects numbers where
  fits := fun args s r s' h0 h => by
    rw [numbers] at h
    split at h
    · split at h
      · cases h
        simp only [length_cons, length_nil]
        omega
      · split at h <;> cases h
        · simp only [length_cons, length_nil]
          omega
        · exact h0
    · cases h
      exact h0
  size := fun args s r s' h0 h hpos hi hb => by
    rw [numbers, if_neg fun h => hi h.1] at h
    cases h
    simp at hpos

theorem staysInside_numbers :
    StaysInside numbersType (List.replicate 29 0) numbers () ↔
      ∀ f w, ReachesField numbersType (List.replicate 29 0) numbers () f w →
        WideningFits numbers f w :=
  staysInside_iff respects_numbers (by decide)

/-- In a buffer of 29 bytes the four elements leave it: 20 bytes are behind the width byte, and the
first three take 24 when they are widened. -/
theorem numbers_leaves_buffer : Respects numbers ∧
    ¬StaysInside numbersType (List.replicate 29 0) numbers () := by
  refine ⟨respects_numbers, fun h => h.accesses ?_⟩
  refine sprotoEncode_outOfBounds respects_numbers (by decide)
    (f := ⟨0, .integer, true, [], none⟩) (w := startEncode numbersType (List.replicate 29 0) ())
    ⟨[], [], rfl, by decide, rfl⟩ fun hfit => ?_
  exact hfit rfl rfl 3 ⟨(), _, (), rfl, rfl, rfl⟩ (by decide)

end Mtask.Sproto
