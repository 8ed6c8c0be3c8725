import Mtask.LuaSeri.Decode
import Mtask.LuaSeri.RoundTrip

/-!
# Buffers with any bytes

`_luaseri_unpack` follows the reader of lists until that one comes to a size that an `int` does not
have. Up to there all accesses are inside the buffer; the access with that size is not.
-/

namespace Mtask.LuaSeri

open Lua Lua.Value List

/-- The state at the end of a computation. -/
def lastState {ε σ α : Type} : EStateM.Result ε σ α → σ
  | .ok _ s => s
  | .error _ s => s

/-- The access is to bytes of the buffer, from a proper position on; a table has a proper size. -/
def Access.Inside (total : ℕ) : Access → Prop
  | .read ptr len sz => 0 ≤ ptr ∧ 0 ≤ sz ∧ sz ≤ len ∧ ptr + len = total
  | .table arraySize => 0 ≤ arraySize

/-- The error that the source raises. -/
def Stop.raised : Stop → Raised
  | invalid => .invalidStream
  | index error => .index error
  | oversized => .tooBig
  | fuel => .fuel

/-- All that has been added to the log is inside the buffer. -/
def Sound (rb rb' : ReadBlock) : Prop :=
  ∀ access ∈ rb'.log, access ∈ rb.log ∨ access.Inside rb.buffer.length

/-- The function returns what the reader returns, or raises what it raises, with accesses inside the
buffer, except that it makes another access where the reader stops at a size. -/
structure Follows {α : Type} (m : Reading α) (d : Decoding α) : Prop where
  buffer : ∀ rb, (lastState (m rb)).buffer = rb.buffer
  log : ∀ rb, ∀ access ∈ rb.log, access ∈ (lastState (m rb)).log
  ok : ∀ {rb bytes a rest}, rb.At bytes → d bytes = .ok (a, rest) →
    ∃ rb', m rb = .ok a rb' ∧ rb'.At rest ∧ Sound rb rb'
  error : ∀ {rb bytes stop}, rb.At bytes → d bytes = .error stop → stop ≠ .oversized →
    ∃ rb' rest, m rb = .error stop.raised rb' ∧ rb'.At rest ∧ Sound rb rb'
  oversized : ∀ {rb bytes}, rb.At bytes → d bytes = .error .oversized →
    ∃ access ∈ (lastState (m rb)).log, ¬access.Inside rb.buffer.length

theorem Sound.refl (rb : ReadBlock) : Sound rb rb := fun _ h => .inl h

variable {rb : ReadBlock}

theorem Sound.trans {rb₁ rb₂ : ReadBlock} (h₁ : Sound rb rb₁) (h₂ : Sound rb₁ rb₂)
    (hbuffer : rb₁.buffer = rb.buffer) : Sound rb rb₂ := by
  intro access haccess
  rcases h₂ access haccess with hmem | hinside
  · exact h₁ access hmem
  · exact .inr (hbuffer ▸ hinside)

namespace Follows

variable {α β : Type} {m : Reading α} {d : Decoding α} {f : α → Reading β} {g : α → Decoding β}

theorem pure (a : α) : Follows (pure a) (pure a) where
  buffer _ := rfl
  log _ _ h := h
  ok hat heq := by
    cases heq
    exact ⟨_, rfl, hat, .refl _⟩
  error _ := nofun
  oversized _ := nofun

theorem throw (stop : Stop) (h : stop ≠ .oversized) :
    Follows (α := α) (throw stop.raised) (throw stop) where
  buffer _ := rfl
  log _ _ h := h
  ok _ := nofun
  error hat heq _ := by
    cases heq
    exact ⟨_, _, rfl, hat, .refl _⟩
  oversized _ heq := absurd (Except.error.inj heq) h

theorem bind (hm : Follows m d) (hf : ∀ a, Follows (f a) (g a)) :
    Follows (m >>= f) (d >>= g) := by
  have hok {rb rb' a} (h : m rb = .ok a rb') : (m >>= f) rb = f a rb' := by
    change EStateM.bind m f rb = _
    rw [EStateM.bind, h]
  have herror {rb rb' e} (h : m rb = .error e rb') : (m >>= f) rb = .error e rb' := by
    change EStateM.bind m f rb = _
    rw [EStateM.bind, h]
  have hlast (rb : ReadBlock) : (∃ a rb', m rb = .ok a rb' ∧ (m >>= f) rb = f a rb') ∨
      ∃ e rb', m rb = .error e rb' ∧ (m >>= f) rb = .error e rb' := by
    cases hcase : m rb with
    | ok a rb' => exact .inl ⟨a, rb', rfl, hok hcase⟩
    | error e rb' => exact .inr ⟨e, rb', rfl, herror hcase⟩
  have hdecode (bytes : List UInt8) : (∃ a rest, d bytes = .ok (a, rest) ∧
      (d >>= g) bytes = g a rest) ∨ ∃ stop, d bytes = .error stop ∧
        (d >>= g) bytes = .error stop := by
    have hbind : (d >>= g) bytes = (d bytes >>= fun p => g p.1 p.2) := rfl
    cases hcase : d bytes with
    | ok p => exact .inl ⟨p.1, p.2, rfl, by rw [hbind, hcase]; rfl⟩
    | error stop => exact .inr ⟨stop, rfl, by rw [hbind, hcase]; rfl⟩
  have hbuffer {rb rb' a} (h : m rb = .ok a rb') : rb'.buffer = rb.buffer := by
    have := hm.buffer rb
    rw [h] at this
    exact this
  constructor
  case buffer =>
    intro rb
    have hfirst := hm.buffer rb
    rcases hlast rb with ⟨a, rb', heq, hall⟩ | ⟨e, rb', heq, hall⟩
    · rw [heq] at hfirst
      rw [hall, (hf a).buffer rb']
      exact hfirst
    · rw [heq] at hfirst
      rw [hall]
      exact hfirst
  case log =>
    intro rb access hmem
    have hfirst := hm.log rb access hmem
    rcases hlast rb with ⟨a, rb', heq, hall⟩ | ⟨e, rb', heq, hall⟩
    · rw [heq] at hfirst
      rw [hall]
      exact (hf a).log rb' access hfirst
    · rw [heq] at hfirst
      rw [hall]
      exact hfirst
  case ok =>
    intro rb bytes b rest hat heq
    rcases hdecode bytes with ⟨a, rest₁, hd, hall⟩ | ⟨stop, hd, hall⟩
    · obtain ⟨rb₁, hrun, hat₁, hsound⟩ := hm.ok hat hd
      obtain ⟨rb₂, hrun₂, hat₂, hsound₂⟩ := (hf a).ok hat₁ (hall ▸ heq)
      exact ⟨rb₂, (hok hrun).trans hrun₂, hat₂, hsound.trans hsound₂ (hbuffer hrun)⟩
    · rw [hall] at heq
      cases heq
  case error =>
    intro rb bytes stop hat heq hne
    rcases hdecode bytes with ⟨a, rest₁, hd, hall⟩ | ⟨stop', hd, hall⟩
    · obtain ⟨rb₁, hrun, hat₁, hsound⟩ := hm.ok hat hd
      obtain ⟨rb₂, rest, hrun₂, hat₂, hsound₂⟩ := (hf a).error hat₁ (hall ▸ heq) hne
      exact ⟨rb₂, rest, (hok hrun).trans hrun₂, hat₂, hsound.trans hsound₂ (hbuffer hrun)⟩
    · rw [hall] at heq
      cases heq
      obtain ⟨rb', rest, hrun, hat', hsound⟩ := hm.error hat hd hne
      exact ⟨rb', rest, herror hrun, hat', hsound⟩
  case oversized =>
    intro rb bytes hat heq
    rcases hdecode bytes with ⟨a, rest₁, hd, hall⟩ | ⟨stop', hd, hall⟩
    · obtain ⟨rb₁, hrun, hat₁, -⟩ := hm.ok hat hd
      obtain ⟨access, hmem, hout⟩ := (hf a).oversized hat₁ (hall ▸ heq)
      rw [hbuffer hrun] at hout
      exact ⟨access, by rw [hok hrun]; exact hmem, hout⟩
    · rw [hall] at heq
      cases heq
      obtain ⟨access, hmem, hout⟩ := hm.oversized hat hd
      refine ⟨access, ?_, hout⟩
      rcases hlast rb with ⟨a, rb', hrun, hall⟩ | ⟨e, rb', hrun, hall⟩
      · rw [hrun] at hmem
        rw [hall]
        exact (hf a).log rb' access hmem
      · rw [hrun] at hmem
        rw [hall]
        exact hmem

/-- A function that makes a wrong access at once. -/
theorem oversize (hbuffer : ∀ rb, (lastState (m rb)).buffer = rb.buffer)
    (hlog : ∀ rb, ∀ access ∈ rb.log, access ∈ (lastState (m rb)).log)
    (hout : ∀ (rb : ReadBlock) bytes, rb.At bytes →
      ∃ access ∈ (lastState (m rb)).log, ¬access.Inside rb.buffer.length) :
    Follows m (MonadExcept.throw Stop.oversized) where
  buffer := hbuffer
  log := hlog
  ok _ := nofun
  error _ heq hne := absurd (Except.error.inj heq).symm hne
  oversized {rb bytes} hat _ := hout rb bytes hat

theorem map {f : α → β} (hm : Follows m d) : Follows (do return f (← m)) (do return f (← d)) :=
  hm.bind fun a => .pure (f a)

variable {d' : Decoding α} {m' : Reading α}

/-- The functions are the same on every position. -/
theorem congr (h : Follows m d) (hm : ∀ rb, m' rb = m rb) (hd : ∀ bytes, d' bytes = d bytes) :
    Follows m' d' := by
  have hm : m' = m := funext hm
  have hd : d' = d := funext hd
  rw [hm, hd]
  exact h

theorem ite {c : Prop} [Decidable c] (h : c → Follows m d) (h' : ¬c → Follows m' d') :
    Follows (if c then m else m') (if c then d else d') := by
  by_cases hc : c
  · rw [if_pos hc, if_pos hc]
    exact h hc
  · rw [if_neg hc, if_neg hc]
    exact h' hc

end Follows

/-! ### The functions of the source -/

theorem rbRead_of_le {sz : ℤ} (h : ¬rb.len < sz) :
    rbRead sz rb = .ok (some rb.ptr) { rb with
      ptr := rb.ptr + sz
      len := rb.len - sz
      log := rb.log ++ [.read rb.ptr rb.len sz] } := if_neg h

section UseOfPointer

variable {α : Type} {m : Reading α} {use : ℤ → Reading α} {sz : ℤ}

theorem lastState_rbRead (huse : ∀ ptr rb, lastState (use ptr rb) = rb)
    (hm : m = do
      match ← rbRead sz with
      | none => throw .invalidStream
      | some ptr => use ptr) (rb : ReadBlock) :
    (lastState (m rb)).buffer = rb.buffer ∧
      (rb.len < sz ∧ lastState (m rb) = rb ∨
        ¬rb.len < sz ∧ (lastState (m rb)).log = rb.log ++ [.read rb.ptr rb.len sz]) := by
  have hrun : m rb = EStateM.bind (rbRead sz) (fun found => match found with
      | none => throw .invalidStream
      | some ptr => use ptr) rb := by
    rw [hm]
    rfl
  by_cases h : rb.len < sz
  · have hnone : rbRead sz rb = .ok none rb := if_pos h
    have hlast : lastState (m rb) = rb := by
      rw [hrun, EStateM.bind, hnone]
      rfl
    exact ⟨by rw [hlast], .inl ⟨h, hlast⟩⟩
  · have hlast : lastState (m rb) = { rb with
        ptr := rb.ptr + sz
        len := rb.len - sz
        log := rb.log ++ [.read rb.ptr rb.len sz] } := by
      rw [hrun, EStateM.bind, rbRead_of_le h]
      exact huse rb.ptr _
    rw [hlast]
    exact ⟨rfl, .inr ⟨h, rfl⟩⟩

theorem log_rbRead (huse : ∀ ptr rb, lastState (use ptr rb) = rb) (hm : m = do
      match ← rbRead sz with
      | none => throw .invalidStream
      | some ptr => use ptr) {access : Access} (hmem : access ∈ rb.log) :
    access ∈ (lastState (m rb)).log := by
  rcases (lastState_rbRead huse hm rb).2 with ⟨-, heq⟩ | ⟨-, heq⟩
  · rw [heq]
    exact hmem
  · rw [heq]
    exact mem_append_left _ hmem

end UseOfPointer

theorem lastState_bytesAt (ptr sz : ℤ) (rb : ReadBlock) : lastState (bytesAt ptr sz rb) = rb := by
  unfold bytesAt
  split <;> rfl

theorem lastState_pushlstring (ptr len : ℤ) (rb : ReadBlock) :
    lastState (pushlstring ptr len rb) = rb := by
  unfold pushlstring
  by_cases h : 2 ^ 63 - 1 - sizeofTString < (BitVec.ofInt 64 len + 1).toNat
  · simp only [if_pos h]
    rfl
  · simp only [if_neg h]
    change lastState (EStateM.bind _ _ rb) = rb
    have hlast := lastState_bytesAt ptr (BitVec.ofInt 64 len).toNat rb
    unfold EStateM.bind
    cases hrun : bytesAt ptr (BitVec.ofInt 64 len).toNat rb with
    | ok bytes rb' => rw [hrun] at hlast; exact hlast
    | error e rb' => rw [hrun] at hlast; exact hlast

theorem follows_readBytes (n : ℕ) : Follows (readBytes n) (next n) := by
  have hcases (rb : ReadBlock) := lastState_rbRead (m := readBytes n)
    (fun ptr => lastState_bytesAt ptr n) rfl rb
  constructor
  case buffer => exact fun rb => (hcases rb).1
  case log => exact fun rb access => log_rbRead (fun ptr => lastState_bytesAt ptr n) rfl
  case ok =>
    intro rb bytes a rest hat heq
    unfold next at heq
    split at heq
    · cases heq
    next hlt =>
      cases heq
      have hat' : rb.At (bytes.take n ++ bytes.drop n) := by
        rw [take_append_drop]
        exact hat
      have hlen : (n : ℤ) = (bytes.take n).length := by
        rw [length_take]
        omega
      obtain ⟨rb', hrun, hrest⟩ := Reads.readBytes (bytes.take n) hlen rb _ hat'
      refine ⟨rb', hrun, hrest, fun access hmem => ?_⟩
      have hlast : lastState (readBytes n rb) = rb' := by rw [hrun]; rfl
      rw [← hlast] at hmem
      rcases (hcases rb).2 with ⟨-, heq⟩ | ⟨-, heq⟩
      · rw [heq] at hmem
        exact .inl hmem
      · rw [heq, mem_append, mem_singleton] at hmem
        rcases hmem with hmem | rfl
        · exact .inl hmem
        · obtain ⟨before, hbuffer, hptr, hbytes⟩ := hat
          right
          refine ⟨by omega, by omega, by omega, ?_⟩
          rw [hbuffer, length_append]
          omega
  case error =>
    intro rb bytes stop hat heq _
    unfold next at heq
    split at heq
    next hlt =>
      cases heq
      obtain ⟨before, hbuffer, hptr, hbytes⟩ := hat
      have hnone : rbRead n rb = .ok none rb := if_pos (by omega)
      refine ⟨rb, bytes, ?_, ⟨before, hbuffer, hptr, hbytes⟩, .refl rb⟩
      change EStateM.bind (rbRead n) _ rb = _
      rw [EStateM.bind, hnone]
      rfl
    · cases heq
  case oversized =>
    intro rb bytes hat heq
    unfold next at heq
    split at heq <;> cases heq

theorem follows_readType : Follows readType decodeType := (follows_readBytes 1).map

/-- What comes behind a type byte, whose cookie has five bits. -/
theorem Follows.typed {α : Type} {f : ℕ × ℕ → Reading α} {g : ℕ × ℕ → Decoding α}
    (h : ∀ type cookie, cookie < 32 → Follows (f (type, cookie)) (g (type, cookie))) :
    Follows (readType >>= f) (decodeType >>= g) := by
  have hread : Follows (readBytes 1 >>= fun bytes => f (splitType (bytes.headD 0)))
      (next 1 >>= fun bytes => g (splitType (bytes.headD 0))) := by
    refine (follows_readBytes 1).bind fun bytes => h _ _ ?_
    have hlt := (bytes.headD 0).toNat_lt
    rw [Nat.shiftRight_eq_div_pow]
    omega
  refine hread.congr (fun rb => ?_) fun bytes => ?_
  · rw [readType, bind_assoc]
    rfl
  · rw [decodeType, bind_assoc]
    rfl

theorem follows_getInteger (cookie : ℕ) : Follows (getInteger cookie) (decodeInteger cookie) := by
  unfold getInteger decodeInteger
  refine .ite (fun _ => .pure 0) fun _ => ?_
  refine .ite (fun _ => (follows_readBytes 1).map) fun _ => ?_
  refine .ite (fun _ => (follows_readBytes 2).map) fun _ => ?_
  refine .ite (fun _ => (follows_readBytes 4).map) fun _ => ?_
  refine .ite (fun _ => (follows_readBytes 8).map) fun _ => ?_
  exact .throw .invalid nofun

theorem follows_getBuffer {n : ℕ} (h : n < 2 ^ 31) : Follows (getBuffer n) (decodeString n) := by
  rw [getBuffer_eq h, decodeString, if_pos h]
  exact (follows_readBytes n).map

theorem follows_getBuffer_toInt (v : BitVec 32) :
    Follows (getBuffer v.toInt) (decodeString v.toNat) := by
  by_cases h : v.toNat < 2 ^ 31
  · have hint : v.toInt = v.toNat := by
      rw [BitVec.toInt_eq_toNat_of_lt]
      omega
    rw [hint]
    exact follows_getBuffer h
  · have hneg : v.toInt < 0 := by
      have := BitVec.toInt_eq_toNat_cond v
      omega
    have hcases (rb : ReadBlock) := lastState_rbRead (m := getBuffer v.toInt)
      (fun ptr => lastState_pushlstring ptr v.toInt) rfl rb
    rw [decodeString, if_neg h]
    refine .oversize (fun rb => (hcases rb).1)
      (fun rb access => log_rbRead (fun ptr => lastState_pushlstring ptr v.toInt) rfl)
      fun rb bytes hat => ?_
    obtain ⟨before, -, -, hlen⟩ := hat
    rcases (hcases rb).2 with ⟨hlt, -⟩ | ⟨-, heq⟩
    · omega
    · rw [heq]
      refine ⟨_, mem_append_right _ (mem_singleton_self _), fun hinside => ?_⟩
      exact absurd hinside.2.1 (Int.not_le.2 hneg)

/-! ### Tables -/

theorem follows_record (n : ℕ) :
    Follows (record (.table n) >>= fun _ => pure (n : ℤ)) (pure (n : ℤ)) where
  buffer _ := rfl
  log _ _ h := mem_append_left _ h
  ok {rb bytes a rest} hat heq := by
    cases heq
    refine ⟨{ rb with log := rb.log ++ [.table n] }, rfl, hat, fun access hmem => ?_⟩
    rcases mem_append.1 hmem with hmem | hmem
    · exact .inl hmem
    · rw [mem_singleton.1 hmem]
      exact .inr (Int.natCast_nonneg n)
  error _ := nofun
  oversized _ := nofun

/-- `lua_createtable` with an array size of 32 bits. -/
theorem follows_checkSize (v : BitVec 64) :
    Follows (record (.table (v.setWidth 32).toInt) >>= fun _ => pure (v.setWidth 32).toInt)
      (checkSize v) := by
  have hint := BitVec.toInt_eq_toNat_cond (v.setWidth 32)
  unfold checkSize
  by_cases h : (v.setWidth 32).toNat < 2 ^ 31
  · have heq : (v.setWidth 32).toInt = (v.setWidth 32).toNat := by omega
    rw [if_pos h, heq]
    exact follows_record _
  · have hneg : (v.setWidth 32).toInt < 0 := by
      have := (v.setWidth 32).isLt
      omega
    rw [if_neg h]
    refine .oversize (fun rb => rfl) (fun rb access => mem_append_left _) fun rb bytes _ => ?_
    refine ⟨.table _, mem_append_right _ (mem_singleton_self _), ?_⟩
    exact Int.not_le.2 hneg

theorem follows_createtable (cookie : ℕ) :
    Follows (createtable cookie) (decodeArraySize cookie) := by
  unfold createtable decodeArraySize
  refine .ite (fun _ => ?_) fun _ => follows_record cookie
  have hall : Follows (readType >>= fun p =>
      (if p.1 ≠ typeNumber ∨ p.2 = typeNumberReal then throw .invalidStream
        else getInteger p.2 >>= fun v =>
          (record (.table (v.setWidth 32).toInt) >>= fun _ => pure (v.setWidth 32).toInt)))
      (decodeType >>= fun p =>
        (if p.1 ≠ typeNumber ∨ p.2 = typeNumberReal then throw .invalid
          else decodeInteger p.2 >>= checkSize)) :=
    follows_readType.bind fun p => .ite (fun _ => .throw .invalid nofun) fun _ =>
      (follows_getInteger p.2).bind follows_checkSize
  refine hall.congr (fun rb => congrFun ?_ rb) fun bytes => rfl
  unfold getArraySize
  rw [bind_assoc]
  congr 1
  funext p
  obtain ⟨type, cookie⟩ := p
  by_cases hcond : type ≠ typeNumber ∨ cookie = typeNumberReal
  · simp only [if_pos hcond]
    rfl
  · simp only [if_neg hcond, bind_assoc, pure_bind]

theorem follows_rawsetEntry (entries : Entries) (key value : Value Unit) :
    Follows (rawsetEntry entries key value) (decodeEntry entries key value) := by
  unfold rawsetEntry decodeEntry
  cases rawset entries key value with
  | ok entries => exact .pure entries
  | error error => exact .throw (.index error) nofun

section Tables

variable {one : Reading (Value Unit)} {one' : Decoding (Value Unit)}

theorem follows_unpackArray (hone : Follows one one') (n i : ℕ) (entries : Entries) :
    Follows (unpackArray one n i entries) (decodeArray one' n i entries) := by
  induction n generalizing i entries with
  | zero => exact .pure _
  | succ n ih => exact hone.bind fun value => ih (i + 1) _

theorem follows_unpackHash (hone : Follows one one') (fuel : ℕ) (entries : Entries) :
    Follows (unpackHash one fuel entries) (decodeHash one' fuel entries) := by
  induction fuel generalizing entries with
  | zero => exact .throw .fuel nofun
  | succ fuel ih =>
    refine hone.bind fun key => .ite (fun _ => .pure _) fun _ => ?_
    exact hone.bind fun value => (follows_rawsetEntry entries key value).bind ih

theorem follows_unpackTable (hone : Follows one one') (fuel cookie : ℕ) :
    Follows (unpackTable one fuel cookie) (decodeTable one' fuel cookie) :=
  (follows_createtable cookie).bind fun arraySize =>
    (follows_unpackArray hone arraySize.toNat 1 []).bind fun entries =>
      (follows_unpackHash hone fuel entries).map

theorem follows_pushValue (hone : Follows one one') (fuel type : ℕ) {cookie : ℕ}
    (hcookie : cookie < 32) :
    Follows (pushValue one fuel type cookie) (decodeValue one' fuel type cookie) := by
  unfold pushValue decodeValue
  refine .ite (fun _ => .pure _) fun _ => ?_
  refine .ite (fun _ => .pure _) fun _ => ?_
  refine .ite (fun _ => ?_) fun _ => ?_
  · exact .ite (fun _ => (follows_readBytes 8).map.map) fun _ => (follows_getInteger cookie).map
  refine .ite (fun _ => (follows_readBytes 8).map.map) fun _ => ?_
  refine .ite (fun _ => follows_getBuffer (Nat.lt_trans hcookie (by decide))) fun _ => ?_
  refine .ite (fun _ => ?_) fun _ => ?_
  · refine .ite (fun _ => ?_) fun _ => ?_
    · exact (follows_readBytes 2).bind fun bytes =>
        follows_getBuffer (Nat.lt_trans (BitVec.isLt _) (by decide))
    refine .ite (fun _ => .throw .invalid nofun) fun _ => ?_
    exact (follows_readBytes 4).bind fun bytes => follows_getBuffer_toInt _
  refine .ite (fun _ => follows_unpackTable hone fuel cookie) fun _ => ?_
  exact .throw .invalid nofun

end Tables

theorem follows_unpackOne (fuel : ℕ) : Follows (unpackOne fuel) (decodeOne fuel) := by
  induction fuel with
  | zero => exact .throw .fuel nofun
  | succ fuel ih => exact .typed fun type cookie hcookie => follows_pushValue ih fuel type hcookie

theorem follows_unpackAll (fuel : ℕ) (values : List (Value Unit)) :
    Follows (unpackAll fuel values) (decodeAll fuel values) := by
  induction fuel generalizing values with
  | zero => exact .throw .fuel nofun
  | succ fuel ih =>
    have hread : Follows (unpackOne fuel >>= fun value => unpackAll fuel (values ++ [value]))
        (decodeOne fuel >>= fun value => decodeAll fuel (values ++ [value])) :=
      (follows_unpackOne fuel).bind fun value => ih _
    have hstep : ∀ rb : ReadBlock, unpackAll (fuel + 1) values rb =
        if rb.len < 1 then .ok values rb
        else (unpackOne fuel >>= fun value => unpackAll fuel (values ++ [value])) rb := fun _ => rfl
    have hstep' : ∀ bytes : List UInt8, decodeAll (fuel + 1) values bytes =
        if bytes.length < 1 then .ok (values, bytes)
        else (decodeOne fuel >>= fun value => decodeAll fuel (values ++ [value])) bytes :=
      fun _ => rfl
    have hend {rb : ReadBlock} {bytes : List UInt8} (hat : rb.At bytes) :
        rb.len < 1 ↔ bytes.length < 1 := by
      obtain ⟨before, -, -, hlen⟩ := hat
      omega
    constructor
    case buffer =>
      intro rb
      rw [hstep]
      split
      · rfl
      · exact hread.buffer rb
    case log =>
      intro rb access hmem
      rw [hstep]
      split
      · exact hmem
      · exact hread.log rb access hmem
    case ok =>
      intro rb bytes a rest hat heq
      rw [hstep'] at heq
      rw [hstep]
      by_cases hlt : bytes.length < 1
      · rw [if_pos hlt] at heq
        cases heq
        exact ⟨rb, if_pos ((hend hat).2 hlt), hat, .refl rb⟩
      · rw [if_neg hlt] at heq
        rw [if_neg fun h => hlt ((hend hat).1 h)]
        exact hread.ok hat heq
    case error =>
      intro rb bytes stop hat heq hne
      rw [hstep'] at heq
      by_cases hlt : bytes.length < 1
      · rw [if_pos hlt] at heq
        cases heq
      · rw [if_neg hlt] at heq
        rw [hstep, if_neg fun h => hlt ((hend hat).1 h)]
        exact hread.error hat heq hne
    case oversized =>
      intro rb bytes hat heq
      rw [hstep'] at heq
      by_cases hlt : bytes.length < 1
      · rw [if_pos hlt] at heq
        cases heq
      · rw [if_neg hlt] at heq
        rw [hstep, if_neg fun h => hlt ((hend hat).1 h)]
        exact hread.oversized hat heq

/-! ### Buffers -/

/-- The buffer is read to an end, with accesses to its bytes only and with proper sizes, and a
proper position at the end. -/
structure Safe (buffer : List UInt8) : Prop where
  ends : ∀ error rb, unpack buffer = .error error rb → error ≠ .outOfBuffer ∧ error ≠ .fuel
  inside : ∀ access ∈ (lastState (unpack buffer)).log, access.Inside buffer.length
  position : 0 ≤ (lastState (unpack buffer)).ptr ∧ 0 ≤ (lastState (unpack buffer)).len ∧
    (lastState (unpack buffer)).ptr + (lastState (unpack buffer)).len = buffer.length

/-- A buffer is read safely unless it has the size of a string or of an array that an `int` does not
have, in a place where that is read as a size. -/
theorem safe_iff {buffer : List UInt8} (h : buffer.length < 2 ^ 31) :
    Safe buffer ↔ decode buffer ≠ .error .oversized := by
  have hfollows := follows_unpackAll (buffer.length + 2) []
  have hat := ReadBlock.at_init h
  have hposition {rb : ReadBlock} {rest : List UInt8} (hat : rb.At rest)
      (hbuffer : rb.buffer = buffer) :
      0 ≤ rb.ptr ∧ 0 ≤ rb.len ∧ rb.ptr + rb.len = buffer.length := by
    obtain ⟨before, heq, hptr, hlen⟩ := hat
    rw [← hbuffer, heq, List.length_append]
    omega
  constructor
  · intro hsafe hover
    obtain ⟨access, hmem, hout⟩ := hfollows.oversized hat hover
    exact hout (hsafe.inside access hmem)
  · intro hne
    have hbuffer := hfollows.buffer (.init buffer)
    have hsafe {rb : ReadBlock} {rest : List UInt8} (hlast : lastState (unpack buffer) = rb)
        (hat : rb.At rest) (hsound : Sound (.init buffer) rb) :
        (∀ access ∈ rb.log, access.Inside buffer.length) ∧
          0 ≤ rb.ptr ∧ 0 ≤ rb.len ∧ rb.ptr + rb.len = buffer.length := by
      have hbuffer : rb.buffer = buffer := by
        rw [← hlast]
        exact hbuffer
      refine ⟨fun access hmem => ?_, hposition hat hbuffer⟩
      rcases hsound access hmem with hold | hinside
      · exact absurd hold List.not_mem_nil
      · exact hinside
    cases hdecode : decode buffer with
    | ok p =>
      obtain ⟨rb, hrun, hrest, hsound⟩ := hfollows.ok hat hdecode
      have hrun : unpack buffer = .ok p.1 rb := hrun
      have hlast : lastState (unpack buffer) = rb := by
        rw [hrun]
        rfl
      obtain ⟨hinside, hpos⟩ := hsafe hlast hrest hsound
      refine ⟨fun error rb heq => ?_, hlast ▸ hinside, hlast ▸ hpos⟩
      rw [hrun] at heq
      cases heq
    | error stop =>
      obtain ⟨rb, rest, hrun, hrest, hsound⟩ := hfollows.error hat hdecode
        fun heq => hne (heq ▸ hdecode)
      have hrun : unpack buffer = .error stop.raised rb := hrun
      have hlast : lastState (unpack buffer) = rb := by
        rw [hrun]
        rfl
      obtain ⟨hinside, hpos⟩ := hsafe hlast hrest hsound
      refine ⟨fun error rb heq => ?_, hlast ▸ hinside, hlast ▸ hpos⟩
      rw [hrun] at heq
      cases heq
      have hfuel : stop ≠ .fuel := fun heq => decode_ne_fuel buffer (heq ▸ hdecode)
      cases stop with
      | fuel => exact absurd rfl hfuel
      | invalid | index | oversized => exact ⟨nofun, nofun⟩

/-- An empty table behind a string with a length of four bytes. -/
theorem safe_string : Safe [0x25, 1, 0, 0, 0, 0x61, 6, 0] ↔
    decode [0x25, 1, 0, 0, 0, 0x61, 6, 0] ≠ .error .oversized :=
  safe_iff (by decide)

/-- A string whose length is 2 ^ 32 - 1 is read with the length -1. -/
theorem string_overrun :
    ¬∀ buffer : List UInt8, buffer.length < 2 ^ 31 → Safe buffer := by
  intro hall
  have hrun : unpack [0x25, 0xff, 0xff, 0xff, 0xff] = .error .outOfBuffer {
      buffer := [0x25, 0xff, 0xff, 0xff, 0xff]
      len := 1
      ptr := 4
      log := [.read 0 5 1, .read 1 4 4, .read 5 0 (-1)] } := by
    rfl
  exact ((hall _ (by decide)).ends _ _ hrun).1 rfl

end Mtask.LuaSeri
