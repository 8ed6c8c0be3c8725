import Mtask.Mongo.Reply

/-!
# Reading a block

A reader of a block of bytes has a pointer and the number of bytes that it may read. `check_reader`
refuses a size that is larger than this number, but not one that is negative, and `read_bytes` would
then go backwards: a reader that would do so stops the model, and so does a reader of a negative
size, a string of a negative length, and a byte outside of the block. An `int` that overflows wraps
around.
-/

namespace Mtask.Bson

open Buffers Mongo

/-! ### The functions -/

/-- What ends a function without a result. -/
inductive BsonFault
  | raised (message : String)
  | outOfBounds
  | backwards
  | negativeLength
  | running
  deriving DecidableEq, Repr

/-- `struct bson_reader`, with the block that it points into. -/
structure BsonReader where
  block : List UInt8
  ptr : ℕ
  size : ℤ
  deriving DecidableEq, Repr

abbrev Reading := EStateM BsonFault BsonReader

/-- `check_reader` -/
def checkReader (sz : ℤ) : Reading Unit := fun br =>
  if br.size < sz then .error (.raised s!"Invalid bson block ({br.size}:{sz})") br else .ok () br

/-- The bytes at an address. -/
def bytesAt (ptr : ℕ) (len : ℤ) : Reading (List UInt8) := fun br =>
  if len < 0 then .error .negativeLength br
  else if ptr + len ≤ br.block.length then .ok (slice br.block ptr len.toNat) br
  else .error .outOfBounds br

/-- `br->ptr+=sz; br->size-=sz;` -/
def advance (sz : ℤ) : Reading Unit := fun br =>
  if sz < 0 then .error .backwards br
  else .ok () { br with ptr := br.ptr + sz.toNat, size := br.size - sz }

/-- The next bytes, of a fixed number. -/
def readFixed (n : ℕ) : Reading (List UInt8) := do
  checkReader n
  let b ← bytesAt (← get).ptr n
  advance n
  return b

/-- `read_byte` -/
def readByte : Reading UInt8 :=
  return (← readFixed 1).headD 0

/-- `read_int32` -/
def readInt32 : Reading ℤ :=
  return toInt (LittleEndian.ofBytes (← readFixed 4))

/-- `read_int64` -/
def readInt64 : Reading (BitVec 64) :=
  return .ofNat 64 (LittleEndian.ofBytes (← readFixed 8))

/-- `read_double` -/
def readDouble : Reading (BitVec 64) :=
  return .ofNat 64 (LittleEndian.ofBytes (← readFixed 8))

/-- `read_bytes` -/
def readBytes (sz : ℤ) : Reading ℕ := do
  let r := (← get).ptr
  checkReader sz
  advance sz
  return r

/-- The loop of `read_cstring` over the bytes at the pointer. -/
def cstringLoop (size : ℤ) : ℕ → List UInt8 → Except BsonFault ℕ
  | i, [] =>
    if i = size then .error (.raised "Invalid bson block : cstring") else .error .outOfBounds
  | i, b :: bytes =>
    if i = size then .error (.raised "Invalid bson block : cstring")
    else if b = 0 then .ok i
    else cstringLoop size (i + 1) bytes

/-- `read_cstring`, with the bytes of the string. -/
def readCstring : Reading (List UInt8) := fun br =>
  match cstringLoop br.size 0 (br.block.drop br.ptr) with
  | .error e => .error e br
  | .ok i => .ok (slice br.block br.ptr i) { br with ptr := br.ptr + (i + 1), size := br.size - (i + 1) }

/-- What is read with another reader of the block. -/
def within {α : Type} (ptr : ℕ) (size : ℤ) (m : Reading α) : Reading α := fun br =>
  if size < 0 then .error .backwards br
  else
    match m { br with ptr, size } with
    | .ok a _ => .ok a br
    | .error e br' => .error e br'

/-! ### Places of the block -/

/-- Why a function does not come to a place of the block. -/
inductive Refusal
  | refused
  | negative
  deriving DecidableEq, Repr

/-- The reader between two places of the block. -/
def place (block : List UInt8) (e v : ℕ) : BsonReader :=
  ⟨block, v, e - v⟩

/-- The reason that an error stands for. -/
def BsonFault.Refuses {α : Type} : BsonFault → Except Refusal α → Prop
  | .raised _, o => o = .error .refused
  | .backwards, o => o = .error .negative
  | _, _ => False

/-- What a function comes to from the place `v` on, if it may read up to the place `e`: another place,
or the reason why it does not. -/
def Runs {α : Type} (block : List UInt8) (e : ℕ) (m : Reading α) (v : ℕ) (o : Except Refusal ℕ)
    (Q : α → Prop) : Prop :=
  match m (place block e v) with
  | .ok a br => ∃ v', o = .ok v' ∧ v ≤ v' ∧ v' ≤ e ∧ br = place block e v' ∧ Q a
  | .error fault _ => fault.Refuses o

/-- The number at a place. -/
def int32At (block : List UInt8) (v : ℕ) : ℤ :=
  toInt (LittleEndian.ofBytes (slice block v 4))

/-- The place behind some bytes. -/
def skip (e : ℕ) (sz : ℤ) (v : ℕ) : Except Refusal ℕ :=
  if (e : ℤ) - v < sz then .error .refused
  else if sz < 0 then .error .negative
  else .ok (v + sz.toNat)

/-- The place behind a string. -/
def skipCstring (block : List UInt8) (e v : ℕ) : Except Refusal ℕ :=
  match ((block.take e).drop v).findIdx? (· = 0) with
  | none => .error .refused
  | some i => .ok (v + (i + 1))

section Rules

variable {block : List UInt8} {e v : ℕ} {α β : Type}

variable {o : Except Refusal ℕ}

theorem BsonFault.Refuses.bind {fault : BsonFault} {o : Except Refusal ℕ}
    (h : fault.Refuses o) (o' : ℕ → Except Refusal ℕ) : fault.Refuses (o >>= o') := by
  cases fault with
  | raised message => exact congrArg (· >>= o') h
  | backwards => exact congrArg (· >>= o') h
  | outOfBounds => exact h
  | negativeLength => exact h
  | running => exact h

variable {Q : α → Prop} {m : Reading α}

namespace Runs

theorem pure {a : α} (hv : v ≤ e) (h : Q a) : Runs block e (Pure.pure a) v (.ok v) Q :=
  ⟨v, rfl, le_rfl, hv, rfl, h⟩

theorem raise (message : String) :
    Runs block e (throw (.raised message) : Reading α) v (.error .refused) Q :=
  rfl

variable {f : α → Reading β} {R : β → Prop}

theorem bind {g : ℕ → Except Refusal ℕ} (h : Runs block e m v o Q)
    (hf : ∀ a v', Q a → v ≤ v' → v' ≤ e → o = .ok v' → Runs block e (f a) v' (g v') R) :
    Runs block e (m >>= f) v (o >>= g) R := by
  rw [Runs] at h ⊢
  rcases hm : m (place block e v) with ⟨a, br⟩ | ⟨fault, br⟩
  · rw [hm] at h
    obtain ⟨v', rfl, hle, hle', rfl, ha⟩ := h
    have hrest := hf a v' ha hle hle' rfl
    have hbind : (m >>= f) (place block e v) = f a (place block e v') := by
      change EStateM.bind m f _ = _
      rw [EStateM.bind, hm]
    rw [hbind]
    rw [Runs] at hrest
    rcases hfa : f a (place block e v') with ⟨b, br⟩ | ⟨fault, br⟩
    · rw [hfa] at hrest
      obtain ⟨w, ho, hw, hw', hbr, hb⟩ := hrest
      exact ⟨w, ho, Nat.le_trans hle hw, hw', hbr, hb⟩
    · rw [hfa] at hrest
      exact hrest
  · rw [hm] at h
    have hbind : (m >>= f) (place block e v) = .error fault br := by
      change EStateM.bind m f _ = _
      rw [EStateM.bind, hm]
    rw [hbind]
    exact h.bind g

theorem bind_ok {v' : ℕ} (h : Runs block e m v (.ok v') Q)
    (hf : ∀ a, Q a → v ≤ v' → v' ≤ e → Runs block e (f a) v' o R) : Runs block e (m >>= f) v o R :=
  h.bind (g := fun _ => o) fun a w ha hle hle' hok => by
    obtain rfl := Except.ok.inj hok
    exact hf a ha hle hle'

theorem bind_error {refusal : Refusal} (h : Runs block e m v (.error refusal) Q) :
    Runs block e (m >>= f) v (.error refusal) R :=
  h.bind (g := fun _ => .error refusal) fun _ _ _ _ _ hok => nomatch hok

/-- The rule of composition, if nothing more is read. -/
theorem andThen (h : Runs block e m v o Q)
    (hf : ∀ a v', Q a → v ≤ v' → v' ≤ e → o = .ok v' → Runs block e (f a) v' (.ok v') R) :
    Runs block e (m >>= f) v o R := by
  have hbind : o >>= .ok = o := by cases o <;> rfl
  rw [← hbind]
  exact h.bind hf

theorem mono {R : α → Prop} (h : Runs block e m v o Q) (hQ : ∀ a, Q a → R a) :
    Runs block e m v o R := by
  rw [Runs] at h ⊢
  cases hm : m (place block e v) with
  | ok a br =>
    rw [hm] at h
    obtain ⟨v', ho, hle, hle', hbr, ha⟩ := h
    exact ⟨v', ho, hle, hle', hbr, hQ a ha⟩
  | error fault br =>
    rw [hm] at h
    exact h

/-- The result of a function that comes to a place. -/
theorem eq_ok {v' : ℕ} {a : α} (h : Runs block e m v (.ok v') (a = ·)) :
    m (place block e v) = .ok a (place block e v') := by
  rw [Runs] at h
  cases hm : m (place block e v) with
  | ok a' br =>
    rw [hm] at h
    obtain ⟨_, ho, -, -, rfl, rfl⟩ := h
    rw [Except.ok.inj ho]
  | error fault br =>
    rw [hm] at h
    cases fault <;> nomatch h

theorem map {f : α → β} (h : Runs block e m v o Q) (hf : ∀ a, Q a → R (f a)) :
    Runs block e (m >>= fun a => Pure.pure (f a)) v o R :=
  h.andThen fun a _ ha _ hle _ => .pure hle (hf a ha)

end Runs

/-! ### What the functions read -/

theorem readBytes_eq (sz : ℤ) (br : BsonReader) : readBytes sz br =
    if br.size < sz then .error (.raised s!"Invalid bson block ({br.size}:{sz})") br
    else if sz < 0 then .error .backwards br
    else .ok br.ptr { br with ptr := br.ptr + sz.toNat, size := br.size - sz } := by
  change EStateM.bind (checkReader sz) (fun _ => EStateM.bind (advance sz) fun _ => _) br = _
  rw [EStateM.bind, checkReader]
  by_cases hlt : br.size < sz
  · rw [if_pos hlt, if_pos hlt]
  · rw [if_neg hlt, if_neg hlt]
    change EStateM.bind (advance sz) (fun _ => _) br = _
    rw [EStateM.bind, advance]
    by_cases hneg : sz < 0
    · rw [if_pos hneg, if_pos hneg]
    · rw [if_neg hneg, if_neg hneg]
      rfl

theorem runs_readBytes (sz : ℤ) : Runs block e (readBytes sz) v (skip e sz v) (v = ·) := by
  rw [Runs, readBytes_eq, skip]
  by_cases hlt : (e : ℤ) - v < sz
  · rw [if_pos (show (place block e v).size < sz from hlt), if_pos hlt]
    rfl
  · rw [if_neg (show ¬(place block e v).size < sz from hlt), if_neg hlt]
    by_cases hneg : sz < 0
    · rw [if_pos hneg, if_pos hneg]
      rfl
    · rw [if_neg hneg, if_neg hneg]
      refine ⟨_, rfl, Nat.le_add_right _ _, by omega, ?_, rfl⟩
      simp only [place, BsonReader.mk.injEq, true_and]
      omega

theorem readFixed_eq (n : ℕ) (br : BsonReader) : readFixed n br =
    if br.size < n then .error (.raised s!"Invalid bson block ({br.size}:{(n : ℤ)})") br
    else if br.ptr + n ≤ br.block.length then
      .ok (slice br.block br.ptr n) { br with ptr := br.ptr + n, size := br.size - n }
    else .error .outOfBounds br := by
  have hneg : ¬(n : ℤ) < 0 := Int.not_lt.mpr (Int.natCast_nonneg n)
  change EStateM.bind (checkReader n) (fun _ => _) br = _
  rw [EStateM.bind, checkReader]
  by_cases hlt : br.size < n
  · rw [if_pos hlt, if_pos hlt]
  · rw [if_neg hlt, if_neg hlt]
    change EStateM.bind (bytesAt br.ptr n) (fun b => EStateM.bind (advance n) fun _ => _) br = _
    rw [EStateM.bind, bytesAt, if_neg hneg]
    by_cases hin : br.ptr + n ≤ br.block.length
    · rw [if_pos hin, if_pos (show (br.ptr : ℤ) + n ≤ br.block.length by omega)]
      change EStateM.bind (advance n) (fun _ => _) br = _
      rw [EStateM.bind, advance, if_neg hneg]
      rfl
    · rw [if_neg hin, if_neg (show ¬(br.ptr : ℤ) + n ≤ br.block.length by omega)]

section

variable (he : e ≤ block.length)
include he

theorem runs_readFixed (n : ℕ) :
    Runs block e (readFixed n) v (skip e n v) (slice block v n = ·) := by
  rw [Runs, readFixed_eq, skip]
  by_cases hlt : (e : ℤ) - v < n
  · rw [if_pos (show (place block e v).size < n from hlt), if_pos hlt]
    rfl
  · have hin : (place block e v).ptr + n ≤ (place block e v).block.length := by
      simp only [place]
      omega
    rw [if_neg (show ¬(place block e v).size < n from hlt), if_neg hlt, if_pos hin,
      if_neg (Int.not_lt.mpr (Int.natCast_nonneg n))]
    refine ⟨_, rfl, Nat.le_add_right _ _, by omega, ?_, rfl⟩
    simp only [place, BsonReader.mk.injEq, true_and, Int.toNat_natCast]
    omega

theorem runs_readByte : Runs block e readByte v (skip e 1 v) ((slice block v 1).headD 0 = ·) :=
  (runs_readFixed he 1).map fun _ h => congrArg (List.headD · 0) h

theorem runs_readInt32 : Runs block e readInt32 v (skip e 4 v) (int32At block v = ·) :=
  (runs_readFixed he 4).map fun b h => by rw [← h, int32At]

theorem runs_readInt64 :
    Runs block e readInt64 v (skip e 8 v)
      (.ofNat 64 (LittleEndian.ofBytes (slice block v 8)) = ·) :=
  (runs_readFixed he 8).map fun b h => by rw [h]

theorem runs_readDouble :
    Runs block e readDouble v (skip e 8 v)
      (.ofNat 64 (LittleEndian.ofBytes (slice block v 8)) = ·) :=
  (runs_readFixed he 8).map fun b h => by rw [h]

end

variable {ptr : ℕ}

theorem runs_bytesAt (hv : v ≤ e) {len : ℤ} (hlen : 0 ≤ len) (hle : ptr + len ≤ block.length) :
    Runs block e (bytesAt ptr len) v (.ok v) (slice block ptr len.toNat = ·) := by
  have hin : (ptr : ℤ) + len ≤ (place block e v).block.length := hle
  rw [Runs, bytesAt, if_neg (Int.not_lt.mpr hlen), if_pos hin]
  exact ⟨v, rfl, Nat.le_refl v, hv, rfl, rfl⟩

/-- The loop of `read_cstring` stops at the first zero, or at the end. -/
theorem cstringLoop_eq (bytes : List UInt8) (i n : ℕ) (hn : n ≤ bytes.length) :
    cstringLoop (i + n : ℕ) i bytes = match (bytes.take n).findIdx? (· = 0) with
      | none => .error (.raised "Invalid bson block : cstring")
      | some k => .ok (i + k) := by
  induction bytes generalizing i n with
  | nil =>
    obtain rfl := Nat.le_zero.mp hn
    exact if_pos rfl
  | cons b bytes ih =>
    cases n with
    | zero => exact if_pos rfl
    | succ n =>
      rw [cstringLoop, if_neg (by omega), List.take_succ_cons, List.findIdx?_cons]
      by_cases hb : b = 0
      · rw [if_pos hb, if_pos (decide_eq_true hb)]
        rfl
      · rw [if_neg hb, if_neg (by simpa using hb), show i + (n + 1) = i + 1 + n by omega,
          ih (i + 1) n (Nat.le_of_succ_le_succ hn)]
        cases (bytes.take n).findIdx? (· = 0) with
        | none => rfl
        | some k => exact congrArg Except.ok (show i + 1 + k = i + (k + 1) by omega)

theorem runs_readCstring (hv : v ≤ e) (he : e ≤ block.length) :
    Runs block e readCstring v (skipCstring block e v) fun s =>
      ∀ o, skipCstring block e v = .ok o → s = slice block v (o - (v + 1)) := by
  have hlen : e - v ≤ (block.drop v).length := by
    rw [List.length_drop]
    omega
  have htake : (block.take e).drop v = (block.drop v).take (e - v) := by
    rw [List.drop_take]
  have hloop := cstringLoop_eq (block.drop v) 0 (e - v) hlen
  rw [Nat.zero_add] at hloop
  have hsize : (place block e v).size = (e - v : ℕ) := by
    simp only [place]
    omega
  rw [Runs, readCstring, hsize, show (place block e v).block.drop (place block e v).ptr =
    block.drop v from rfl, hloop]
  simp only [skipCstring, htake]
  cases hfind : ((block.drop v).take (e - v)).findIdx? (· = 0) with
  | none => rfl
  | some k =>
    have hk : k < e - v := by
      obtain ⟨hk, -⟩ := List.findIdx?_eq_some_iff_getElem.mp hfind
      rw [List.length_take] at hk
      omega
    refine ⟨_, rfl, Nat.le_add_right _ _, by omega, ?_, fun o ho => ?_⟩
    · simp only [place, BsonReader.mk.injEq, true_and, Nat.zero_add]
      omega
    · obtain rfl := Except.ok.inj ho
      congr 1
      omega

theorem runs_within (hv : v ≤ e) {size : ℤ} (hsize : 0 ≤ size)
    (h : Runs block (ptr + size.toNat) m ptr o Q) :
    Runs block e (within ptr size m) v (o >>= fun _ => .ok v) Q := by
  have hplace : ({ place block e v with ptr, size } : BsonReader) =
      place block (ptr + size.toNat) ptr := by
    simp only [place, BsonReader.mk.injEq, true_and]
    omega
  rw [Runs, within, if_neg (Int.not_lt.mpr hsize), hplace]
  rw [Runs] at h
  cases hm : m (place block (ptr + size.toNat) ptr) with
  | ok a br =>
    rw [hm] at h
    obtain ⟨_, rfl, -, -, -, ha⟩ := h
    exact ⟨v, rfl, Nat.le_refl v, hv, rfl, ha⟩
  | error fault br =>
    rw [hm] at h
    exact h.bind _

end Rules

end Mtask.Bson
