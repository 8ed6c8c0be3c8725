import Mathlib.Data.List.GetD
import Mtask.Redis.Response

/-!
# Requests of Redis

`compose_message` counts the values of a table with `#`, and writes those that `ipairs` finds. These
are the same if `nil` is only followed by `nil`. Else the values behind it are lost, and the array may
be announced longer than it is. A message that is `nil` is told from others by the name of its type,
which is not `nil`: it is counted, and not written.
-/

namespace Mtask.Redis

open Lua List

/-! ### The messages -/

/-- A value. What is not of these types is given by its text. -/
inductive Scalar
  | nil
  | boolean (b : Bool)
  | integer (i : ℤ)
  | string (s : Bytes)
  | other (text : Bytes)
  deriving DecidableEq

/-- `tostring` -/
def tostring : Scalar → Bytes
  | .nil => [110, 105, 108]
  | .boolean true => [116, 114, 117, 101]
  | .boolean false => [102, 97, 108, 115, 101]
  | .integer i => integerText i
  | .string s => s
  | .other text => text

/-- A table, by its values for the indices from 1 on, and what `#` finds: a border, and where there
are several any of them. -/
structure Table where
  items : List Scalar
  length : ℕ
  border : (0 < length → items.getD (length - 1) .nil ≠ .nil) ∧ items.getD length .nil = .nil

inductive Message
  | scalar (v : Scalar)
  | table (t : Table)

/-- The values that `ipairs` finds. -/
def ipairs (items : List Scalar) : List Scalar := items.takeWhile (· ≠ .nil)

/-- `pack_value` -/
def packValue (lines : List Bytes) (v : Scalar) : List Bytes :=
  if v = .nil then lines
  else lines ++ [36 :: Decimal.text (tostring v).length, tostring v]

/-- The count of `compose_message`. The name of a type is not `nil`. -/
def Message.count : Message → ℕ
  | .table t => 1 + t.length
  | .scalar _ => 1 + 1

/-- `compose_message` -/
def composeMessage (cmd : Bytes) (msg : Message) : Bytes :=
  let lines := packValue [42 :: Decimal.text msg.count] (.string cmd)
  let lines := match msg with
    | .table t => (ipairs t.items).foldl packValue lines
    | .scalar v => packValue lines v
  crlf.intercalate (lines ++ [[]])

/-- A call of a command. -/
inductive Call
  /-- a function made by `__index`, with a table, or with `{v, ...}` -/
  | command (k : Bytes) (t : Table)
  /-- `command:exists` -/
  | existsKey (key : Message)
  /-- `command:sismember`, with `{key, value}` -/
  | sismember (t : Table)

namespace Call

def cmd : Call → Bytes
  | .command k _ => k.map toupper
  | .existsKey _ => [69, 88, 73, 83, 84, 83]
  | .sismember _ => [83, 73, 83, 77, 69, 77, 66, 69, 82]

def msg : Call → Message
  | .command _ t => .table t
  | .existsKey key => key
  | .sismember t => .table t

/-- What is sent. -/
def request (c : Call) : Bytes := composeMessage c.cmd c.msg

end Call

/-! ### What should be sent -/

namespace Message

/-- The arguments that are given. -/
def given : Message → List Scalar
  | .scalar v => [v].filter (· ≠ .nil)
  | .table t => t.items.filter (· ≠ .nil)

/-- A value is given, or `nil` is only followed by `nil`. -/
def Countable : Message → Prop
  | .scalar v => v ≠ .nil
  | .table t => ∀ v ∈ t.items.dropWhile (· ≠ .nil), v = .nil

end Message

/-- The array of a command and its arguments. -/
def array (cmd : Bytes) (vs : List Scalar) : Reply :=
  .array ((cmd :: vs.map tostring).map .bulk)

/-! ### What is sent -/

section Compose

variable {cmd : Bytes} {msg : Message} {v : Scalar} {vs : List Scalar} {t : Table}

theorem intercalate_lines (lines : List Bytes) :
    crlf.intercalate (lines ++ [[]]) = (lines.map (· ++ crlf)).flatten := by
  induction lines with
  | nil => rfl
  | cons l lines ih =>
    rw [map_cons, flatten_cons, ← ih]
    cases lines with
    | nil => simp
    | cons l' lines => simp [append_assoc]

theorem foldl_packValue (h : ∀ v ∈ vs, v ≠ .nil) (lines : List Bytes) :
    ((vs.foldl packValue lines).map (· ++ crlf)).flatten =
      (lines.map (· ++ crlf)).flatten ++ encodeAll ((vs.map tostring).map .bulk) := by
  induction vs generalizing lines with
  | nil => simp [encodeAll]
  | cons v vs ih =>
    rw [foldl_cons, ih fun v' hv' => h v' (mem_cons_of_mem _ hv'), packValue,
      if_neg (h v mem_cons_self)]
    have htext : integerText ((tostring v).length : ℤ) = Decimal.text (tostring v).length := by
      rw [integerText, if_neg (by omega), Int.natAbs_natCast]
    simp [encodeAll, Reply.encode, line, htext]

/-- The values that are written. -/
def Message.written : Message → List Scalar
  | .scalar v => [v].filter (· ≠ .nil)
  | .table t => ipairs t.items

theorem ne_nil_of_mem_ipairs (hv : v ∈ ipairs vs) : v ≠ .nil := by
  simpa using mem_takeWhile_imp hv

theorem ne_nil_of_mem_written (hv : v ∈ msg.written) : v ≠ .nil := by
  cases msg with
  | scalar _ => simpa using of_mem_filter hv
  | table _ => exact ne_nil_of_mem_ipairs hv

/-- What is sent: the count, and the values that are written. -/
theorem composeMessage_eq (cmd : Bytes) (msg : Message) : composeMessage cmd msg =
    line 42 (Decimal.text msg.count) ++
      encodeAll ((cmd :: msg.written.map tostring).map .bulk) := by
  have hlines : composeMessage cmd msg = crlf.intercalate
      ((Scalar.string cmd :: msg.written).foldl packValue [42 :: Decimal.text msg.count] ++
        [[]]) := by
    cases msg with
    | table _ => rfl
    | scalar v => cases v <;> rfl
  have hall : ∀ v ∈ Scalar.string cmd :: msg.written, v ≠ .nil :=
    forall_mem_cons.mpr ⟨by simp, fun _ => ne_nil_of_mem_written⟩
  rw [hlines, intercalate_lines, foldl_packValue hall]
  simp [line, tostring]

/-- The values of a table that has no `nil` before another value. -/
theorem getD_eq_nil_iff (h : (Message.table t).Countable) (i : ℕ) :
    t.items.getD i .nil = .nil ↔ (ipairs t.items).length ≤ i := by
  have hitems : ipairs t.items ++ t.items.dropWhile (· ≠ .nil) = t.items :=
    takeWhile_append_dropWhile
  rcases Nat.lt_or_ge i (ipairs t.items).length with hi | hi
  · refine iff_of_false ?_ (Nat.not_le.mpr hi)
    rw [← hitems, getD_append _ _ _ _ hi, getD_eq_getElem _ _ hi]
    exact ne_nil_of_mem_ipairs (getElem_mem hi)
  · refine iff_of_true ?_ hi
    rw [← hitems, getD_append_right _ _ _ _ hi]
    rcases Nat.lt_or_ge (i - (ipairs t.items).length) (t.items.dropWhile (· ≠ .nil)).length
      with hlt | hge
    · rw [getD_eq_getElem _ _ hlt]
      exact h _ (getElem_mem hlt)
    · exact getD_eq_default _ _ hge

/-- Such a table has only one border. -/
theorem length_eq (h : (Message.table t).Countable) : t.length = (ipairs t.items).length := by
  have hle := (getD_eq_nil_iff h t.length).mp t.border.2
  rcases Nat.eq_zero_or_pos t.length with hzero | hpos
  · omega
  · have hlt := mt (getD_eq_nil_iff h (t.length - 1)).mpr (t.border.1 hpos)
    omega

/-- What `ipairs` does not find is lost. -/
theorem given_table (t : Table) : (Message.table t).given =
    ipairs t.items ++ (t.items.dropWhile (· ≠ .nil)).filter (· ≠ .nil) := by
  have hitems : ipairs t.items ++ t.items.dropWhile (· ≠ .nil) = t.items :=
    takeWhile_append_dropWhile
  have hwritten : (ipairs t.items).filter (· ≠ .nil) = ipairs t.items :=
    filter_eq_self.mpr fun _ hv => decide_eq_true (ne_nil_of_mem_ipairs hv)
  rw [Message.given, ← congrArg (List.filter (· ≠ Scalar.nil)) hitems, filter_append, hwritten]

theorem encode_array (cmd : Bytes) (vs : List Scalar) : (array cmd vs).encode =
    line 42 (Decimal.text (1 + vs.length)) ++ encodeAll ((cmd :: vs.map tostring).map .bulk) := by
  rw [array, Reply.encode, integerText, if_neg (by omega), Int.natAbs_natCast]
  simp [Nat.add_comm]

theorem encodeAll_append (rs rs' : List Reply) :
    encodeAll (rs ++ rs') = encodeAll rs ++ encodeAll rs' := by
  induction rs with
  | nil => rfl
  | cons r rs ih => rw [cons_append, encodeAll, ih, encodeAll, append_assoc]

/-- An array announces its length. -/
theorem line_inj {n n' : ℕ} {rest rest' : Bytes}
    (h : line 42 (Decimal.text n) ++ rest = line 42 (Decimal.text n') ++ rest') :
    n = n' ∧ rest = rest' := by
  have hnone (n : ℕ) : 13 ∉ Decimal.text n := fun hm => absurd (isDigit_of_mem 13 hm).1 (by decide)
  have hread := readline_line (c := 42) (by decide) (hnone n) rest
  rw [h, readline_line (by decide) (hnone n')] at hread
  obtain ⟨htext, hrest⟩ := Prod.ext_iff.mp (Option.some.inj hread)
  refine ⟨?_, hrest.symm⟩
  rw [← Decimal.number_text n, ← (List.cons.inj htext).2, Decimal.number_text]

/-- **The requests that are arrays of the command and its arguments.** -/
theorem composeMessage_iff (cmd : Bytes) (msg : Message) :
    composeMessage cmd msg = (array cmd msg.given).encode ↔ msg.Countable := by
  rw [composeMessage_eq, encode_array]
  cases msg with
  | scalar v =>
    constructor
    · rintro h rfl
      exact absurd (line_inj h).1 (by decide)
    · intro hv
      have hgiven : [v].filter (· ≠ .nil) = [v] := filter_cons_of_pos (decide_eq_true hv)
      rw [Message.given, Message.written, hgiven]
      rfl
  | table t =>
    rw [given_table, map_append, ← cons_append, map_append, encodeAll_append]
    constructor
    · intro h v hv
      have hlost := self_eq_append_right.mp (line_inj h).2
      by_contra hne
      have hmem : v ∈ (t.items.dropWhile (· ≠ .nil)).filter (· ≠ .nil) :=
        mem_filter.mpr ⟨hv, decide_eq_true hne⟩
      obtain ⟨vs, vs', hvs⟩ := append_of_mem hmem
      rw [hvs] at hlost
      simp [encodeAll_append, encodeAll, Reply.encode, line] at hlost
    · intro h
      have hnone : (t.items.dropWhile (· ≠ .nil)).filter (· ≠ .nil) = [] :=
        filter_eq_nil_iff.mpr fun v hv => by simpa using h v hv
      rw [hnone, Message.count, length_eq h, append_nil]
      simp [encodeAll, Message.written]

end Compose

/-- **The calls whose request is the array of the command and its arguments.** -/
theorem request_wellFormed_iff (c : Call) :
    c.request = (array c.cmd c.msg.given).encode ↔ c.msg.Countable :=
  composeMessage_iff c.cmd c.msg

/-- `exists` of `nil` announces two strings, and sends one. -/
theorem request_existsKey_nil : ∃ c : Call, c = .existsKey (.scalar .nil) ∧
    c.request ≠ (array c.cmd c.msg.given).encode :=
  ⟨_, rfl, fun h => (composeMessage_iff _ _).mp h rfl⟩

end Mtask.Redis
