import Mtask.Sproto.Decode

/-!
# The decoder stays inside of the message

The length of a section is compared with the size that is left after four has been added to it in
32 bits. A length from `2 ^ 32 - 4` on passes this test, as a sum of at most three; what happens
then depends on the field. Every other message is read within its bounds.
-/

namespace Mtask.Sproto

open Buffers LittleEndian Outcomes

/-- If the length of the section at `i` wraps around, with `size` bytes from there to the end, then
the field is not one of those that are read by this length. -/
def SectionFits (data : List UInt8) (f : Field) (i : ℕ) (size : ℤ) : Prop :=
  2 ^ 32 - 4 ≤ sectionLength data i →
    match f.array, f.type with
    | false, .integer | false, .boolean => True
    | false, _ => False
    | true, .integer =>
      size ≠ 4 ∧ ¬(sectionLength data i = 2 ^ 32 - 3 ∧ slice data (i + sizeofLength) 1 = [4])
    | true, .boolean => False
    | true, _ => True

/-- A callback that accepts everything. -/
def silent : DecodeCallback Unit Unit := fun _ _ s => .ok (0, s)

/-- With a callback that accepts everything, the loop of `sproto_decode` comes to the `i`-th record
with the variables `w`. -/
def ReachesRecord (data : List UInt8) (st : SprotoType) (i : ℕ) (w : Decoder Unit) : Prop :=
  let fn := ofBytes (slice data 0 2)
  sizeofHeader ≤ data.length ∧ sizeofHeader + fn * sizeofField ≤ data.length ∧ i < fn ∧
    decodeRecords data silent st i 0 (startDecode data fn ()) = .ok w

/-- If the `i`-th record stands for a section, then it does no harm. -/
def RecordFits (data : List UInt8) (st : SprotoType) (i : ℕ) (w : Decoder Unit) : Prop :=
  ofBytes (slice data (sizeofHeader + i * sizeofField) 2) = 0 → 4 ≤ w.size →
    ∀ f, st.findtag (w.tag + 1).toNat = some f → SectionFits data f w.datastream w.size

/-- Nothing outside of the message is read or given to the callback, and what is returned is a size
inside of it. -/
structure StaysWithin {σ ε : Type} (data : List UInt8) (cb : DecodeCallback σ ε) (st : SprotoType)
    (s : σ) : Prop where
  accesses : sprotoDecode data cb st s ≠ .error .outOfBounds
  result : ∀ n s', sprotoDecode data cb st s = .ok (n, s') → 0 ≤ n ∧ n ≤ data.length

variable {n stream v : ℕ}

section

variable {σ ε : Type} {data : List UInt8} {cb : DecodeCallback σ ε} {args : Arg} {s : σ}

theorem safe_give {v : Value} (h : v.Inside data args.length) :
    Safe (give data cb args v s) fun _ => True := by
  rw [give, if_pos h]
  split <;> simp

theorem safe_giveNumber : Safe (giveNumber data cb args v s) fun _ => True :=
  .bind (safe_give trivial) fun _ _ => trivial

variable {i : ℕ}

theorem safe_todword (h : i + 4 ≤ data.length) :
    Safe (todword data i : Run ε _) fun v => v = sectionLength data i :=
  post_todword (fun hlt => absurd hlt (by omega)) fun _ => rfl

theorem safe_readNarrow (h : i + 4 ≤ data.length) :
    Safe (readNarrow data i : Run ε _) fun _ => True :=
  .bind (safe_todword h) fun _ _ => trivial

theorem safe_readWide (h : i + 8 ≤ data.length) : Safe (readWide data i : Run ε _) fun _ => True :=
  .bind (safe_todword (by omega)) fun _ _ => .bind (safe_todword (by omega)) fun _ _ => trivial

theorem safe_readByte (h : i + 1 ≤ data.length) :
    Safe (readByte data i : Run ε _) fun v => v = ofBytes (slice data i 1) :=
  .bind (safe_get (Q := fun bs => bs = slice data i 1) h rfl) fun _ h => congrArg _ h

theorem safe_decodeElements {read : ℕ → Run ε ℕ} {stream width n i : ℕ}
    (h : ∀ j < i + n, Safe (read (stream + j * width)) fun _ => True) :
    Safe (decodeElements data cb read args stream width n i s) fun _ => True := by
  induction n generalizing i s with
  | zero => trivial
  | succ n ih =>
    refine .bind (h i (by omega)) fun v _ => .bind safe_giveNumber fun s' _ => ?_
    exact ih fun j hj => h j (by omega)

theorem asUint_of_nonneg {n : ℤ} (h : 0 ≤ n) (hlt : n < 2 ^ 31) : asUint n = n.toNat := by
  rw [asUint, Int.emod_eq_of_lt h (by omega)]

theorem asInt_of_lt (h : n < 2 ^ 31) : asInt n = n := if_pos h

theorem asInt_neg (h : 2 ^ 31 ≤ n) (hlt : n < 2 ^ 32) : asInt n < 0 := by
  rw [asInt, if_neg (by omega)]
  omega

/-- In front of every round of `decode_array_object`: what is left of the array is inside of the
message. -/
def Objects.Valid (data : List UInt8) (w : Objects σ) : Prop :=
  0 ≤ w.sz → w.stream + w.sz ≤ data.length

theorem safe_objectsRound (hlt : data.length < 2 ^ 31) {w : Objects σ} (h : w.Valid data) :
    Safe (objectsRound data cb args w) (Loop.Keeps (Objects.Valid data) fun _ => True) := by
  refine .ite (fun _ => trivial) fun h0 => .ite (fun _ => by simp) fun h4 => ?_
  rw [sizeofLength] at h4 ⊢
  have hplace := h (by omega)
  refine .bind (safe_todword (by omega)) fun hsz _ => ?_
  refine .ite (fun _ => by simp) fun hle => ?_
  rw [asUint_of_nonneg (by omega) (by omega)] at hle
  refine .bind (safe_give ?_) fun r _ => .ite (fun _ => by simp) fun _ h0' => ?_
  · simp only [Value.Inside]
    rw [asInt_of_lt (by omega)]
    push_cast
    omega
  · simp only at h0' ⊢
    push_cast
    omega

theorem safe_decodeArrayObject (hlt : data.length < 2 ^ 31) {sz : ℤ}
    (h : 0 ≤ sz → stream + sz ≤ data.length) :
    Safe (decodeArrayObject data cb args stream sz s) fun _ => True :=
  .bind (Loop.post_run (I := Objects.Valid data) (fun _ hw => safe_objectsRound hlt hw) h)
    fun _ _ => trivial

/-- An array of integers is inside of the message: its section is, or its length is refused behind
the width byte. -/
theorem safe_decodeIntegerArray {stream sz : ℕ} (hbyte : 1 ≤ sz → stream + 1 ≤ data.length)
    (h : stream + sz ≤ data.length ∨
      (2 ^ 32 - 4 ≤ sz ∧ sz < 2 ^ 32 ∧ ¬(sz = 2 ^ 32 - 3 ∧ slice data stream 1 = [4]))) :
    Safe (decodeIntegerArray data cb args stream sz s) fun _ => True := by
  refine .ite (fun _ => by simp) fun h1 => ?_
  refine .bind (safe_readByte (hbyte (by omega))) fun len hlen => ?_
  refine .ite (fun h4 => .ite (fun _ => by simp) fun hmod => ?_) fun _ =>
    .ite (fun h8 => .ite (fun _ => by simp) fun hmod => ?_) fun _ => by simp
  · rcases h with h | ⟨hlow, hhigh, hno⟩
    · exact safe_decodeElements fun j hj => safe_readNarrow (by omega)
    · refine absurd ⟨by omega, ?_⟩ hno
      have hl : (slice data stream 1).length = 1 := length_slice (hbyte (by omega))
      obtain ⟨b, hb⟩ := List.length_eq_one_iff.mp hl
      rw [hb] at hlen ⊢
      rw [h4] at hlen
      congr 1
      exact UInt8.toNat_inj.mp hlen.symm
  · rcases h with h | ⟨hlow, hhigh, hno⟩
    · exact safe_decodeElements fun j hj => safe_readWide (by omega)
    · omega

end

/-! ### Sections -/

section

variable {σ ε : Type} {data : List UInt8} {cb : DecodeCallback σ ε} {s : σ} {f : Field} {i : ℕ}
  {size : ℤ}

theorem safe_decodeArray {args : Arg} (hlt : data.length < 2 ^ 31)
    (hplace : i + size = data.length) (h4 : 4 ≤ size)
    (hpass : sectionLength data i + 4 ≤ size ∨ 2 ^ 32 - 4 ≤ sectionLength data i)
    (hinteger : 2 ^ 32 - 4 ≤ sectionLength data i → args.type = .integer →
      size ≠ 4 ∧ ¬(sectionLength data i = 2 ^ 32 - 3 ∧ slice data (i + sizeofLength) 1 = [4]))
    (hboolean : 2 ^ 32 - 4 ≤ sectionLength data i → args.type ≠ .boolean) :
    Safe (decodeArray data cb args i s) fun _ => True := by
  have hsz : sectionLength data i < 2 ^ 32 := ofBytes_slice_lt ..
  rw [sizeofLength] at hinteger
  refine .bind (safe_todword (by omega)) fun sz h => ?_
  subst h
  rw [sizeofLength]
  split
  · refine safe_decodeIntegerArray (fun h1 => ?_) ?_
    · rcases hpass with hpass | hwrap
      · omega
      · have := (hinteger hwrap ‹_›).1
        omega
    · rcases hpass with hpass | hwrap
      · exact .inl (by omega)
      · exact .inr ⟨hwrap, hsz, (hinteger hwrap ‹_›).2⟩
  · rcases hpass with hpass | hwrap
    · exact safe_decodeElements fun j hj =>
        (safe_readByte (by omega)).mono (fun _ h => h) fun _ _ => trivial
    · exact absurd ‹_› (hboolean hwrap)
  · refine safe_decodeArrayObject hlt fun h0 => ?_
    rcases hpass with hpass | hwrap
    · rw [asInt_of_lt (by omega)]
      omega
    · have := asInt_neg (n := sectionLength data i) (by omega) hsz
      omega

theorem safe_decodeSection (hlt : data.length < 2 ^ 31) (hplace : i + size = data.length)
    (h4 : 4 ≤ size)
    (hpass : sectionLength data i + 4 ≤ size ∨ 2 ^ 32 - 4 ≤ sectionLength data i)
    (hfit : SectionFits data f i size) :
    Safe (decodeSection data cb f i s) fun _ => True := by
  obtain ⟨tag, type, array, name, key⟩ := f
  cases array with
  | true =>
    refine safe_decodeArray hlt hplace h4 hpass (fun hwrap ht => ?_) fun hwrap ht => ?_
    · change type = .integer at ht
      subst ht
      exact hfit hwrap
    · change type = .boolean at ht
      subst ht
      exact hfit hwrap
  | false =>
    have hread : Safe (todword data i : Run ε _) fun v => v = sectionLength data i :=
      safe_todword (by omega)
    cases type with
    | integer =>
      refine .bind hread fun sz h => ?_
      rw [sizeofLength]
      refine .ite (fun h4' => ?_) fun _ => .ite (fun _ => by simp) fun h8 => ?_
      · exact .bind (safe_readNarrow (by omega)) fun _ _ => safe_giveNumber
      · exact .bind (safe_readWide (by omega)) fun _ _ => safe_giveNumber
    | boolean => simp [decodeSection]
    | string | struct st =>
      refine .bind hread fun sz h => ?_
      subst h
      have hle := hpass.resolve_right hfit
      refine .bind (safe_give ?_) fun r _ => .ite (fun _ => by simp) fun _ => trivial
      simp only [Value.Inside, sizeofLength]
      rw [asInt_of_lt (by omega)]
      push_cast
      omega

/-! ### Records -/

/-- In front of every record. -/
structure Decoder.Valid (data : List UInt8) (w : Decoder σ) : Prop where
  place : w.datastream + w.size = data.length
  size_nonneg : 0 ≤ w.size

/-- The variables less the state of the callback. -/
def Decoder.bare (w : Decoder σ) : Decoder Unit where
  tag := w.tag
  datastream := w.datastream
  size := w.size
  s := ()

variable {st : SprotoType} {w : Decoder σ}

theorem safe_nextSection (hlt : data.length < 2 ^ 31) (h : w.Valid data) :
    Safe (nextSection data w : Run ε _) fun w' => w'.Valid data ∧ w'.tag = w.tag ∧ 4 ≤ w.size ∧
      (sectionLength data w.datastream + 4 ≤ w.size ∨
        2 ^ 32 - 4 ≤ sectionLength data w.datastream) := by
  obtain ⟨hplace, h0⟩ := h
  have hsz : sectionLength data w.datastream < 2 ^ 32 := ofBytes_slice_lt ..
  refine .ite (fun _ => by simp) fun h4 => ?_
  rw [sizeofLength] at h4 ⊢
  refine .bind (safe_todword (by omega)) fun sz h => ?_
  subst h
  refine .ite (fun _ => by simp) fun hpass => ?_
  rw [asUint_of_nonneg h0 (by omega)] at hpass
  exact ⟨⟨by simp only; omega, by simp only; omega⟩, rfl, by omega, by omega⟩

theorem safe_decodeInline : Safe (decodeInline data cb f v s) fun _ => True :=
  .ite (fun _ => safe_giveNumber) fun _ => by simp

theorem safe_decodeRecord (hlt : data.length < 2 ^ 31) (h : w.Valid data)
    (hi : sizeofHeader + i * sizeofField + 2 ≤ data.length) (hfit : RecordFits data st i w.bare) :
    Safe (decodeRecord data cb st i w) (Decoder.Valid data) := by
  refine .bind (post_toword (Q := fun v => v = ofBytes (slice data (sizeofHeader + i * sizeofField) 2))
    (fun hlt' => absurd hlt' (by omega)) fun _ => rfl) fun value hvalue => ?_
  have hv : ({ w with tag := w.tag + 1 } : Decoder σ).Valid data := ⟨h.place, h.size_nonneg⟩
  refine .ite (fun _ => ⟨h.place, h.size_nonneg⟩) fun _ => .ite (fun h0 => ?_) fun _ => ?_
  · refine .bind (safe_nextSection hlt hv) fun w' ⟨hv', htag, h4, hpass⟩ => ?_
    split
    · exact hv'
    · rename_i f hf
      rw [htag] at hf
      have := hfit (hvalue ▸ h0) h4 f hf
      exact .bind (safe_decodeSection hlt h.place h4 hpass this)
        fun s' _ => ⟨hv'.place, hv'.size_nonneg⟩
  · split
    · exact hv
    · exact .bind safe_decodeInline fun s' _ => ⟨h.place, h.size_nonneg⟩

/-! ### The callback that accepts everything -/

variable {args : Arg}

theorem follows_give {v : Value} :
    Follows (give data cb args v s) (give data silent args v ()) fun _ r => r = (0, ()) := by
  refine .ite (fun _ => ?_) fun _ => .of_error
  split
  · exact .of_ok rfl
  · exact .of_error

theorem follows_giveNumber :
    Follows (giveNumber data cb args v s) (giveNumber data silent args v ()) fun _ _ => True :=
  .bind follows_give fun _ _ _ => .of_ok trivial

theorem follows_get : Follows (get data i n : Run ε _) (get data i n : Run Unit _) (· = ·) := by
  rw [get, get]
  split
  · exact .of_ok rfl
  · exact .of_error

theorem follows_toword : Follows (toword data i : Run ε _) (toword data i : Run Unit _) (· = ·) :=
  .bind follows_get fun _ _ h => .of_ok (congrArg _ h)

theorem follows_todword :
    Follows (todword data i : Run ε _) (todword data i : Run Unit _) (· = ·) :=
  .bind follows_get fun _ _ h => .of_ok (congrArg _ h)

theorem follows_readNarrow :
    Follows (readNarrow data i : Run ε _) (readNarrow data i : Run Unit _) (· = ·) :=
  .bind follows_todword fun _ _ h => .of_ok (congrArg _ h)

theorem follows_readWide :
    Follows (readWide data i : Run ε _) (readWide data i : Run Unit _) (· = ·) :=
  .bind follows_todword fun _ _ h => .bind follows_todword fun _ _ h' => .of_ok (by rw [h, h'])

theorem follows_readByte :
    Follows (readByte data i : Run ε _) (readByte data i : Run Unit _) (· = ·) :=
  .bind follows_get fun _ _ h => .of_ok (congrArg _ h)

theorem follows_decodeElements {read : ℕ → Run ε ℕ} {read' : ℕ → Run Unit ℕ} {args : Arg}
    {stream width n : ℕ} (h : ∀ j, Follows (read j) (read' j) (· = ·)) :
    Follows (decodeElements data cb read args stream width n i s)
      (decodeElements data silent read' args stream width n i ()) fun _ _ => True := by
  induction n generalizing i s with
  | zero => exact .of_ok trivial
  | succ n ih =>
    refine .bind (h _) fun v v' hv => ?_
    subst hv
    exact .bind follows_giveNumber fun s' _ _ => ih

theorem follows_decodeArrayObject {sz : ℤ} :
    Follows (decodeArrayObject data cb args stream sz s)
      (decodeArrayObject data silent args stream sz ()) fun _ _ => True := by
  refine .bind (Loop.follows_run (T := fun _ _ => True)
    (I := fun w w' => w' = ⟨w.stream, w.sz, w.index, ()⟩) (fun w w' h => ?_) rfl)
    fun _ _ _ => .of_ok trivial
  subst h
  refine .ite (fun _ => .of_ok trivial) fun _ => .ite (fun _ => .of_error) fun _ => ?_
  refine .bind follows_todword fun hsz _ h => ?_
  subst h
  refine .ite (fun _ => .of_error) fun _ => .bind follows_give fun r r' h => ?_
  subst h
  by_cases hr : r.1 = 0
  · simp only [hr, ne_eq, not_true_eq_false, if_false]
    exact .of_ok rfl
  · simp only [ne_eq, hr, not_false_eq_true, if_true]
    exact .of_error

theorem follows_decodeIntegerArray {sz : ℕ} :
    Follows (decodeIntegerArray data cb args stream sz s)
      (decodeIntegerArray data silent args stream sz ()) fun _ _ => True := by
  refine .ite (fun _ => .of_error) fun _ => .bind follows_readByte fun len _ h => ?_
  subst h
  refine .ite (fun _ => .ite (fun _ => .of_error) fun _ => ?_) fun _ =>
    .ite (fun _ => .ite (fun _ => .of_error) fun _ => ?_) fun _ => .of_error
  · exact follows_decodeElements fun _ => follows_readNarrow
  · exact follows_decodeElements fun _ => follows_readWide

theorem follows_decodeArray :
    Follows (decodeArray data cb args stream s) (decodeArray data silent args stream ())
      fun _ _ => True := by
  refine .bind follows_todword fun sz _ h => ?_
  subst h
  split
  · exact follows_decodeIntegerArray
  · exact follows_decodeElements fun _ => follows_readByte
  · exact follows_decodeArrayObject

theorem follows_decodeSection :
    Follows (decodeSection data cb f i s) (decodeSection data silent f i ()) fun _ _ => True := by
  refine .ite (fun _ => follows_decodeArray) fun _ => ?_
  split
  · refine .bind follows_todword fun sz _ h => ?_
    subst h
    refine .ite (fun _ => ?_) fun _ => .ite (fun _ => .of_error) fun _ => ?_
    · refine .bind follows_readNarrow fun v _ h => ?_
      subst h
      exact follows_giveNumber
    · refine .bind follows_readWide fun v _ h => ?_
      subst h
      exact follows_giveNumber
  · exact .of_error
  · refine .bind follows_todword fun sz _ h => ?_
    subst h
    refine .bind follows_give fun r r' h => ?_
    subst h
    by_cases hr : r.1 = 0
    · simp only [hr, ne_eq, not_true_eq_false, if_false]
      exact .of_ok trivial
    · simp only [ne_eq, hr, not_false_eq_true, if_true]
      exact .of_error

theorem follows_nextSection : Follows (nextSection data w : Run ε _)
    (nextSection data w.bare : Run Unit _) fun w w' => w' = w.bare := by
  refine .ite (fun _ => .of_error) fun _ => .bind follows_todword fun sz _ h => ?_
  subst h
  exact .ite (fun _ => .of_error) fun _ => .of_ok rfl

theorem follows_decodeInline : Follows (decodeInline data cb f v s)
    (decodeInline data silent f v ()) fun _ _ => True :=
  .ite (fun _ => follows_giveNumber) fun _ => .of_error

theorem follows_decodeRecord : Follows (decodeRecord data cb st i w)
    (decodeRecord data silent st i w.bare) fun w w' => w' = w.bare := by
  refine .bind follows_toword fun value _ h => ?_
  subst h
  refine .ite (fun _ => .of_ok rfl) fun _ => .ite (fun _ => ?_) fun _ => ?_
  · refine .bind follows_nextSection fun w₁ _ h => ?_
    subst h
    dsimp only [Decoder.bare]
    split
    · exact .of_ok rfl
    · exact .bind follows_decodeSection fun _ _ _ => .of_ok rfl
  · dsimp only [Decoder.bare]
    split
    · exact .of_ok rfl
    · exact .bind follows_decodeInline fun _ _ _ => .of_ok rfl

/-- While no section does harm, the records are read within the message. -/
theorem safe_decodeRecords (hlt : data.length < 2 ^ 31) (h : w.Valid data)
    (hn : sizeofHeader + (i + n) * sizeofField ≤ data.length)
    (hfit : ∀ k u, k < n → decodeRecords data silent st k i w.bare = .ok u →
      RecordFits data st (i + k) u) :
    Safe (decodeRecords data cb st n i w) (Decoder.Valid data) := by
  have hf : sizeofField = 2 := rfl
  induction n generalizing i w with
  | zero => exact h
  | succ n ih =>
    have hsafe : Safe (decodeRecord data cb st i w) (Decoder.Valid data) :=
      safe_decodeRecord hlt h (by rw [hf] at hn ⊢; omega) (hfit 0 w.bare (Nat.succ_pos n) rfl)
    rw [decodeRecords]
    cases hw : decodeRecord data cb st i w with
    | error e => exact fun he => hsafe.of_error hw he
    | ok w' =>
      obtain ⟨u, hu, rfl⟩ := follows_decodeRecord w' hw
      refine ih (hsafe.of_ok hw) (by rw [hf] at hn ⊢; omega) fun k u hk hok => ?_
      have := hfit (k + 1) u (by omega) (by
        rw [decodeRecords, hu]
        exact hok)
      rwa [show i + (k + 1) = i + 1 + k by omega] at this

theorem valid_startDecode {fn : ℕ} (h : sizeofHeader + fn * sizeofField ≤ data.length) :
    (startDecode data fn s).Valid data where
  place := by
    simp only [startDecode]
    push_cast
    omega
  size_nonneg := by
    simp only [startDecode]
    omega

/-! ### A section that does harm -/

theorem decodeElements_outOfBounds {read : ℕ → Run Unit ℕ} {width j : ℕ}
    (hread : ∀ k e, read k = .error e → e = .outOfBounds) (hi : i ≤ j) (hj : j < i + n)
    (h : read (stream + j * width) = .error .outOfBounds) :
    decodeElements data silent read args stream width n i () = .error .outOfBounds := by
  induction n generalizing i with
  | zero => omega
  | succ n ih =>
    rw [decodeElements]
    cases hv : read (stream + i * width) with
    | error e =>
      rw [hread _ e hv]
      rfl
    | ok v =>
      rcases Nat.eq_or_lt_of_le hi with rfl | hlt
      · rw [h] at hv
        cases hv
      · exact ih (by omega) (by omega)

variable {e : Stop Unit}

theorem eq_outOfBounds_of_readByte {k : ℕ} (h : (readByte data k : Run Unit _) = .error e) :
    e = .outOfBounds := by
  rcases Nat.lt_or_ge data.length (k + 1) with hlt | hle
  · rw [readByte, get_outOfBounds hlt] at h
    cases h
    rfl
  · rw [readByte, get_eq hle] at h
    cases h

theorem eq_outOfBounds_of_readNarrow {k : ℕ} (h : (readNarrow data k : Run Unit _) = .error e) :
    e = .outOfBounds := by
  rcases Nat.lt_or_ge data.length (k + 4) with hlt | hle
  · rw [readNarrow, todword_outOfBounds hlt] at h
    cases h
    rfl
  · rw [readNarrow, todword_eq hle] at h
    cases h

/-- A section that does not fit makes the decoder leave the message. -/
theorem decodeSection_outOfBounds (hlt : data.length < 2 ^ 31)
    (hplace : i + size = data.length) (h4 : 4 ≤ size) (hfit : ¬SectionFits data f i size) :
    decodeSection data silent f i () = .error .outOfBounds := by
  have hsz : sectionLength data i < 2 ^ 32 := ofBytes_slice_lt ..
  have hread : (todword data i : Run Unit _) = .ok (sectionLength data i) :=
    todword_eq (by omega)
  rw [SectionFits, Classical.not_imp] at hfit
  obtain ⟨hwrap, hfit⟩ := hfit
  have hobject (args : Arg) :
      give data silent { args with length := asInt (sectionLength data i) }
        (.bytes (i + sizeofLength)) () = .error .outOfBounds := by
    rw [give, if_neg]
    have := asInt_neg (n := sectionLength data i) (by omega) hsz
    simp only [Value.Inside]
    omega
  obtain ⟨tag, type, array, name, key⟩ := f
  cases array with
  | false =>
    cases type with
    | integer | boolean => exact absurd trivial hfit
    | string | struct st =>
      simp only [decodeSection, hread, bind, Except.bind, hobject]
      rfl
  | true =>
    rw [decodeSection, if_pos rfl, decodeArray, hread]
    simp only [bind, Except.bind]
    cases type with
    | string | struct st => exact absurd trivial hfit
    | boolean =>
      refine decodeElements_outOfBounds (j := data.length)
        (fun _ _ => eq_outOfBounds_of_readByte) (Nat.zero_le _) (by omega) ?_
      rw [readByte, get_outOfBounds (by omega)]
      rfl
    | integer =>
      change decodeIntegerArray data silent _ (i + 4) _ () = _
      rw [decodeIntegerArray, if_neg (by omega)]
      by_cases hbyte : size = 4
      · rw [readByte, get_outOfBounds (by omega)]
        rfl
      · have hno : sectionLength data i = 2 ^ 32 - 3 ∧ slice data (i + 4) 1 = [4] := by
          by_contra hno
          exact hfit ⟨hbyte, hno⟩
        rw [readByte, get_eq (by omega), hno.2, hno.1]
        simp only [bind, Except.bind, pure, Except.pure]
        refine decodeElements_outOfBounds (j := data.length / 4 + 1)
          (fun _ _ => eq_outOfBounds_of_readNarrow) (Nat.zero_le _) (by omega) ?_
        rw [readNarrow, todword_outOfBounds (by omega)]
        rfl

theorem decodeRecords_add {m : ℕ} : decodeRecords data cb st (m + n) i w =
    decodeRecords data cb st m i w >>= decodeRecords data cb st n (i + m) := by
  induction m generalizing i w with
  | zero =>
    rw [Nat.zero_add]
    rfl
  | succ m ih =>
    rw [Nat.add_right_comm, decodeRecords, decodeRecords]
    cases decodeRecord data cb st i w with
    | error e => rfl
    | ok w' =>
      change decodeRecords data cb st (m + n) (i + 1) w' = _
      rw [ih, show i + 1 + m = i + (m + 1) by omega]
      rfl

theorem valid_of_decodeRecord (hlt : data.length < 2 ^ 31) (h : w.Valid data) :
    Post (decodeRecord data cb st i w) (fun _ => True) (Decoder.Valid data) := by
  have hv : ({ w with tag := w.tag + 1 } : Decoder σ).Valid data := ⟨h.place, h.size_nonneg⟩
  refine .bind .of_true fun value _ => ?_
  refine .ite (fun _ => ⟨h.place, h.size_nonneg⟩) fun _ => .ite (fun _ => ?_) fun _ => ?_
  · refine .bind ((safe_nextSection hlt hv).mono (fun _ _ => trivial) fun _ h => h.1)
      fun w' hv' => ?_
    split
    · exact hv'
    · exact .bind .of_true fun s' _ => ⟨hv'.place, hv'.size_nonneg⟩
  · split
    · exact hv
    · exact .bind .of_true fun s' _ => ⟨h.place, h.size_nonneg⟩

theorem valid_of_decodeRecords (hlt : data.length < 2 ^ 31) (h : w.Valid data) {w' : Decoder σ}
    (hok : decodeRecords data cb st n i w = .ok w') : w'.Valid data := by
  induction n generalizing i w with
  | zero =>
    cases hok
    exact h
  | succ n ih =>
    obtain ⟨w₁, hw₁, hok⟩ := bind_eq_ok.mp hok
    exact ih ((valid_of_decodeRecord hlt h).of_ok hw₁) hok

end

section

variable {data : List UInt8} {st : SprotoType}

variable {w : Decoder Unit}

theorem decodeRecord_outOfBounds (hlt : data.length < 2 ^ 31) {i : ℕ} (hv : w.Valid data)
    (hi : sizeofHeader + i * sizeofField + 2 ≤ data.length) (hfit : ¬RecordFits data st i w) :
    decodeRecord data silent st i w = .error .outOfBounds := by
  simp only [RecordFits, Classical.not_imp, not_forall] at hfit
  obtain ⟨hvalue, h4, f, hf, hno⟩ := hfit
  have hplace := hv.place
  have hsz : sectionLength data w.datastream < 2 ^ 32 := ofBytes_slice_lt ..
  have hwrap : 2 ^ 32 - 4 ≤ sectionLength data w.datastream := by
    by_contra hlow
    exact hno fun h => absurd h hlow
  have hnext : (nextSection data { w with tag := w.tag + 1 } : Run Unit _) =
      .ok { w with
        tag := w.tag + 1
        datastream := w.datastream + (sectionLength data w.datastream + 4) % 2 ^ 32
        size := w.size - ((sectionLength data w.datastream + 4) % 2 ^ 32 : ℕ) } := by
    rw [nextSection, if_neg (by rw [sizeofLength]; simp only; omega)]
    change (todword data w.datastream >>= _) = _
    rw [todword_eq (by omega)]
    change (if asUint w.size < (sectionLength data w.datastream + 4) % 2 ^ 32 then _ else _) = _
    rw [if_neg (by rw [asUint_of_nonneg hv.size_nonneg (by omega)]; omega)]
    rfl
  rw [decodeRecord, toword_eq hi, hvalue]
  change (nextSection data _ >>= _) = _
  rw [hnext]
  simp only [bind, Except.bind, hf]
  change (decodeSection data silent f w.datastream () >>= _) = _
  rw [decodeSection_outOfBounds hlt hplace h4 hno]
  rfl

theorem sprotoDecode_outOfBounds (hlt : data.length < 2 ^ 31) {i : ℕ}
    (h : ReachesRecord data st i w) (hfit : ¬RecordFits data st i w) :
    sprotoDecode data silent st () = .error .outOfBounds := by
  obtain ⟨hheader, hrecords, hi, hok⟩ := h
  have hv := valid_of_decodeRecords hlt (valid_startDecode hrecords) hok
  have hfield : sizeofField = 2 := rfl
  rw [sprotoDecode, if_neg (by omega), toword_eq (by rw [sizeofHeader] at hheader; omega)]
  simp only [bind, Except.bind]
  rw [if_neg (by push_cast; omega),
    show ofBytes (slice data 0 2) = i + (ofBytes (slice data 0 2) - i - 1 + 1) by omega,
    decodeRecords_add, show i + (ofBytes (slice data 0 2) - i - 1 + 1) = ofBytes (slice data 0 2)
      by omega, hok]
  simp only [bind, Except.bind, decodeRecords, Nat.zero_add]
  rw [decodeRecord_outOfBounds hlt hv (by rw [hfield] at hrecords ⊢; omega) hfit]

end

/-! ### A section whose length wraps around -/

/-- A type with one string. -/
def stringType : SprotoType where
  name := []
  f := [⟨0, .string, false, [], none⟩]
  base := 0
  maxn := 1
  consistent :=
    { ascending := List.pairwise_singleton _ _
      tag_lt := by simp
      base_eq := rfl
      maxn_eq := rfl }

end Mtask.Sproto
