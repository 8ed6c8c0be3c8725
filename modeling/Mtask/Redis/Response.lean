import Mathlib.Data.List.TakeWhile
import Mtask.Lib.Decimal
import Mtask.Lib.FirstInfix
import Mtask.Lua.Strings

/-!
# Replies of Redis

`read_response` reads the first line of a reply, whose first character says what follows: a bulk
string is read by its length, and an array element by element. For an element that is an error
nothing is stored, and the elements behind it are read all the same. So a reply is consumed to its
end, whatever errors are in it, and the next call begins where the next reply does.

A numeral that is not an integer, which no reply has, is taken for none.
-/

namespace Mtask.Redis

open Lua List

/-! ### The reader -/

def crlf : Bytes := [13, 10]

/-- `fd:readline "\r\n"`; it raises an error if the connection is closed before there is a line. -/
def readline (s : Bytes) : Option (Bytes × Bytes) := s.dropInfix? crlf

/-- `fd:read(n)` -/
def read (n : ℕ) (s : Bytes) : Option (Bytes × Bytes) :=
  if n ≤ s.length then some (s.take n, s.drop n) else none

/-- What is read. A table is given by its values for the indices from 1 on. -/
inductive Data
  | nil
  | integer (i : ℤ)
  | string (s : Bytes)
  | table (bulk : List Data)

/-- The two values that are returned. -/
structure Response where
  ok : Bool
  data : Data

inductive Fault
  | socketError
  /-- an error of the reader itself -/
  | raised
  | fuel

/-- What an element leaves in the table. -/
def Response.stored (r : Response) : Data := if r.ok then r.data else .nil

section Redcmd

variable (readResponse : Bytes → Except Fault (Response × Bytes))

/-- The loop over the elements of an array. -/
def readBulk : ℕ → Bytes → Except Fault ((Bool × List Data) × Bytes)
  | 0, s => .ok ((true, []), s)
  | n + 1, s => do
    let (r, s) ← readResponse s
    let ((noerr, bulk), s) ← readBulk n s
    .ok ((r.ok && noerr, r.stored :: bulk), s)

/-- `redcmd` -/
def redcmd (firstchar : UInt8) (data s : Bytes) : Except Fault (Response × Bytes) :=
  match firstchar with
  -- `$`
  | 36 =>
    match str2int data with
    | none => .error .raised
    | some bytes =>
      if bytes < 0 then .ok (⟨true, .nil⟩, s)
      else
        match read (bytes + 2).toNat s with
        | none => .error .socketError
        | some (firstline, s) => .ok (⟨true, .string (sub firstline 1 (-3))⟩, s)
  -- `+`
  | 43 => .ok (⟨true, .string data⟩, s)
  -- `-`
  | 45 => .ok (⟨false, .string data⟩, s)
  -- `:`
  | 58 => .ok (⟨true, ((str2int data).map .integer).getD .nil⟩, s)
  -- `*`
  | 42 =>
    match str2int data with
    | none => .error .raised
    | some n =>
      if n < 0 then .ok (⟨true, .nil⟩, s)
      else do
        let ((noerr, bulk), s) ← readBulk readResponse n.toNat s
        .ok (⟨noerr, .table bulk⟩, s)
  | _ => .error .raised

end Redcmd

/-- `read_response`, for a reply with less than `fuel` levels. -/
def readResponse : ℕ → Bytes → Except Fault (Response × Bytes)
  | 0, _ => .error .fuel
  | fuel + 1, s =>
    match readline s with
    | none => .error .socketError
    | some ([], _) => .error .raised
    | some (firstchar :: data, s) => redcmd (readResponse fuel) firstchar data s

/-- `dispatch_by_order`: the coroutines of `__thread` are woken with what is read for them. -/
def dispatchByOrder (fuel : ℕ) : List ℕ → Bytes → Except Fault (List (ℕ × Response) × Bytes)
  | [], s => .ok ([], s)
  | co :: thread, s => do
    let (r, s) ← readResponse fuel s
    let (result, s) ← dispatchByOrder fuel thread s
    .ok ((co, r) :: result, s)

/-! ### The replies -/

/-- A reply of the protocol. -/
inductive Reply
  | simple (s : Bytes)
  | error (s : Bytes)
  | integer (i : ℤ)
  | nilBulk
  | bulk (s : Bytes)
  | nilArray
  | array (elements : List Reply)

/-- The text of an integer. -/
def integerText (i : ℤ) : Bytes :=
  if i < 0 then 45 :: Decimal.text i.natAbs else Decimal.text i.natAbs

/-- A line of a reply. -/
def line (firstchar : UInt8) (data : Bytes) : Bytes := firstchar :: (data ++ crlf)

mutual

/-- What the server sends for a reply. -/
def Reply.encode : Reply → Bytes
  | .simple s => line 43 s
  | .error s => line 45 s
  | .integer i => line 58 (integerText i)
  | .nilBulk => line 36 (integerText (-1))
  | .bulk s => line 36 (integerText s.length) ++ (s ++ crlf)
  | .nilArray => line 42 (integerText (-1))
  | .array elements => line 42 (integerText elements.length) ++ encodeAll elements

def encodeAll : List Reply → Bytes
  | [] => []
  | r :: elements => r.encode ++ encodeAll elements

end

mutual

/-- What is to be returned for a reply. -/
def Reply.response : Reply → Response
  | .simple s => ⟨true, .string s⟩
  | .error s => ⟨false, .string s⟩
  | .integer i => ⟨true, .integer i⟩
  | .nilBulk => ⟨true, .nil⟩
  | .bulk s => ⟨true, .string s⟩
  | .nilArray => ⟨true, .nil⟩
  | .array elements =>
    ⟨(responses elements).all (·.ok), .table ((responses elements).map (·.stored))⟩

def responses : List Reply → List Response
  | [] => []
  | r :: elements => r.response :: responses elements

end

/-- The reply is an error, or contains one. -/
inductive Reply.HasError : Reply → Prop
  | error (s : Bytes) : HasError (.error s)
  | element {r : Reply} {elements : List Reply} (hr : r ∈ elements) (h : HasError r) :
    HasError (.array elements)

/-- The replies that the protocol allows: lines have no line break in them, integers have 64 bits,
and a bulk string has 512 megabytes at most. -/
inductive Reply.WellFormed : Reply → Prop
  | simple {s : Bytes} (h : 13 ∉ s) : WellFormed (.simple s)
  | error {s : Bytes} (h : 13 ∉ s) : WellFormed (.error s)
  | integer {i : ℤ} (hlo : -2 ^ 63 ≤ i) (hhi : i < 2 ^ 63) : WellFormed (.integer i)
  | nilBulk : WellFormed .nilBulk
  | bulk {s : Bytes} (h : s.length ≤ 2 ^ 29) : WellFormed (.bulk s)
  | nilArray : WellFormed .nilArray
  | array {elements : List Reply} (hlen : elements.length < 2 ^ 63)
    (h : ∀ r ∈ elements, WellFormed r) : WellFormed (.array elements)

/-! ### Lines and numbers -/

section Lines

variable {c : UInt8} {s ds rest : Bytes} {neg : Bool} {i : ℤ}

theorem readline_line (hc : 13 ≠ c) (h : 13 ∉ s) (rest : Bytes) :
    readline (line c s ++ rest) = some (c :: s, rest) := by
  rw [line, ← cons_append, append_assoc]
  exact FirstInfix.append_of_notMem (not_mem_cons_of_ne_of_not_mem hc h) rest

theorem length_append_crlf (s : Bytes) : (s ++ crlf).length = s.length + 2 := length_append

/-- The line break behind a bulk string is cut off. -/
theorem sub_crlf (s : Bytes) : sub (s ++ crlf) 1 (-3) = s := by
  have hlast : min (posrelat (-3) (s ++ crlf).length) (s ++ crlf).length = s.length := by
    rw [posrelat, length_append_crlf]
    split_ifs <;> omega
  have hfirst : posrelat 1 (s ++ crlf).length = 1 := rfl
  rw [sub, hlast, hfirst]
  simp

/-- A numeral of digits behind its sign. -/
theorem str2int_digits (hsign : isneg (s.dropWhile isspace) = (neg, ds))
    (hds : ∀ c ∈ ds, Decimal.IsDigit c) (hne : ds ≠ []) :
    str2int s = some (wrap (if neg then -(Decimal.number ds : ℤ) else Decimal.number ds)) := by
  have hall : ∀ c ∈ ds, isdigit c = true := fun c hc => by
    simpa [isdigit, Decimal.IsDigit] using hds c hc
  have hnumber : ds.foldl (fun a (c : UInt8) => a * 10 + (c.toNat - 48)) 0 = Decimal.number ds := by
    simp only [Decimal.number, Nat.mul_comm]
  rw [str2int, hsign]
  simp only
  split
  · exact absurd (hds 120 (by simp)).2 (by decide)
  · exact absurd (hds 88 (by simp)).2 (by decide)
  · rw [takeWhile_eq_self_iff.mpr hall, dropWhile_eq_nil_iff.mpr hall, hnumber]
    exact if_neg (by simp [hne])

theorem isDigit_of_mem {n : ℕ} : ∀ c ∈ Decimal.text n, Decimal.IsDigit c :=
  fun _ hc => Decimal.isDigit_of_mem_text hc

theorem notMem_integerText (i : ℤ) : 13 ∉ integerText i := by
  have hdigit {n : ℕ} : 13 ∉ Decimal.text n := fun h => absurd (isDigit_of_mem 13 h).1 (by decide)
  rw [integerText]
  split_ifs
  · exact not_mem_cons_of_ne_of_not_mem (by decide) hdigit
  · exact hdigit

/-- An integer is read back. -/
theorem str2int_integerText (hlo : -2 ^ 63 ≤ i) (hhi : i < 2 ^ 63) :
    str2int (integerText i) = some i := by
  have hwrap : wrap i = i := Int.bmod_eq_of_le (by omega) (by omega)
  rw [integerText]
  split_ifs with hneg
  · have hsign : isneg ((45 :: Decimal.text i.natAbs).dropWhile isspace) =
        (true, Decimal.text i.natAbs) := rfl
    rw [str2int_digits hsign isDigit_of_mem (Decimal.text_ne_nil _),
      Decimal.number_text, if_pos rfl, Int.ofNat_natAbs_of_nonpos (by omega), neg_neg, hwrap]
  · have hsign : isneg ((Decimal.text i.natAbs).dropWhile isspace) =
        (false, Decimal.text i.natAbs) := by
      have hds := isDigit_of_mem (n := i.natAbs)
      rcases htext : Decimal.text i.natAbs with _ | ⟨c, ds⟩
      · rfl
      · have hc := hds c (by simp [htext])
        have hspace : isspace c = false := by
          obtain ⟨hlo, hhi⟩ := hc
          simp only [isspace, Bool.or_eq_false_iff, decide_eq_false_iff_not, Bool.and_eq_false_iff]
          constructor <;> grind
        rw [dropWhile_cons_of_neg (by simp [hspace]), isneg_cons]
        · rintro rfl
          exact absurd hc.1 (by decide)
        · rintro rfl
          exact absurd hc.1 (by decide)
    rw [str2int_digits hsign isDigit_of_mem (Decimal.text_ne_nil _), Decimal.number_text]
    have habs : (i.natAbs : ℤ) = i := Int.natAbs_of_nonneg (by omega)
    simp [habs, hwrap]

end Lines

/-! ### A reply is read -/

section Read

variable {r : Reply} {rs elements : List Reply} {fuel : ℕ} {rest : Bytes}

theorem readResponse_line {c : UInt8} {data : Bytes} (hc : 13 ≠ c) (h : 13 ∉ data)
    (fuel : ℕ) (rest : Bytes) : readResponse (fuel + 1) (line c data ++ rest) =
      redcmd (readResponse fuel) c data rest := by
  rw [readResponse, readline_line hc h]

/-- The elements of an array are read one by one. -/
theorem readBulk_encode {read : Bytes → Except Fault (Response × Bytes)}
    (h : ∀ r ∈ elements, ∀ rest, read (r.encode ++ rest) = .ok (r.response, rest)) (rest : Bytes) :
    readBulk read elements.length (encodeAll elements ++ rest) =
      .ok (((responses elements).all (·.ok), (responses elements).map (·.stored)), rest) := by
  induction elements with
  | nil => rfl
  | cons r elements ih =>
    have hread := h r mem_cons_self (encodeAll elements ++ rest)
    have hrest := ih fun r' hr' => h r' (mem_cons_of_mem _ hr')
    rw [length_cons, readBulk, encodeAll, append_assoc, hread]
    change readBulk read _ _ >>= _ = _
    rw [hrest]
    rfl

theorem length_encode_le (h : r ∈ elements) : r.encode.length ≤ (encodeAll elements).length := by
  induction elements with
  | nil => exact absurd h not_mem_nil
  | cons r' elements ih =>
    rw [encodeAll, length_append]
    rcases mem_cons.mp h with rfl | h
    · exact Nat.le_add_right _ _
    · exact Nat.le_add_left_of_le (ih h)

theorem length_line (c : UInt8) (data : Bytes) : (line c data).length = data.length + 3 := by
  rw [line, length_cons, length_append]
  rfl

/-- **A reply is consumed exactly.** -/
theorem readResponse_encode (h : r.WellFormed) (hfuel : r.encode.length ≤ fuel) (rest : Bytes) :
    readResponse fuel (r.encode ++ rest) = .ok (r.response, rest) := by
  induction h generalizing fuel rest with
  | @array elements hlen _ ih =>
    rw [Reply.encode, length_append, length_line] at hfuel
    obtain ⟨fuel, rfl⟩ : ∃ n, fuel = n + 1 := ⟨fuel - 1, by omega⟩
    have hread : ∀ r ∈ elements, ∀ rest,
        readResponse fuel (r.encode ++ rest) = .ok (r.response, rest) :=
      fun r hr => ih r hr ((length_encode_le hr).trans (by omega))
    have helements := readBulk_encode hread rest
    rw [Reply.encode, append_assoc, readResponse_line (by decide) (notMem_integerText _), redcmd,
      str2int_integerText (by omega) (by omega)]
    simp only [Int.toNat_natCast, helements]
    rfl
  | @bulk s hlen =>
    rw [Reply.encode, length_append, length_line] at hfuel
    obtain ⟨fuel, rfl⟩ : ∃ n, fuel = n + 1 := ⟨fuel - 1, by omega⟩
    have hread : read (s.length + 2) (s ++ crlf ++ rest) = some (s ++ crlf, rest) := by
      rw [read, ← length_append_crlf, take_left, drop_left, if_pos (by simp)]
    rw [Reply.encode, append_assoc, readResponse_line (by decide) (notMem_integerText _), redcmd,
      str2int_integerText (by omega) (by omega)]
    simp only
    rw [if_neg (by omega), show ((s.length : ℤ) + 2).toNat = s.length + 2 by omega, hread]
    simp only [sub_crlf]
    rfl
  | simple h | error h =>
    rw [Reply.encode, length_line] at hfuel
    obtain ⟨fuel, rfl⟩ : ∃ n, fuel = n + 1 := ⟨fuel - 1, by omega⟩
    rw [Reply.encode, readResponse_line (by decide) h]
    rfl
  | integer hlo hhi =>
    rw [Reply.encode, length_line] at hfuel
    obtain ⟨fuel, rfl⟩ : ∃ n, fuel = n + 1 := ⟨fuel - 1, by omega⟩
    rw [Reply.encode, readResponse_line (by decide) (notMem_integerText _), redcmd,
      str2int_integerText hlo hhi]
    rfl
  | nilBulk | nilArray =>
    rw [Reply.encode, length_line] at hfuel
    obtain ⟨fuel, rfl⟩ : ∃ n, fuel = n + 1 := ⟨fuel - 1, by omega⟩
    rw [Reply.encode, readResponse_line (by decide) (notMem_integerText _), redcmd,
      str2int_integerText (by decide) (by decide)]
    rfl

theorem responses_eq_map (elements : List Reply) : responses elements = elements.map Reply.response := by
  induction elements with
  | nil => rfl
  | cons r elements ih => rw [responses, ih, map_cons]

/-- The replies with an error in them are returned as failures. -/
theorem ok_eq_false_iff (h : r.WellFormed) : r.response.ok = false ↔ r.HasError := by
  induction h with
  | array _ _ ih =>
    rw [Reply.response, responses_eq_map, all_map, all_eq_false]
    constructor
    · rintro ⟨r, hr, hok⟩
      exact .element hr ((ih r hr).mp (Bool.eq_false_of_not_eq_true hok))
    · rintro (_ | ⟨hr, herror⟩)
      exact ⟨_, hr, by simp [(ih _ hr).mpr herror]⟩
  | error _ => exact iff_of_true rfl (.error _)
  | _ => exact iff_of_false (by simp [Reply.response]) (by rintro ⟨⟩)

/-- The coroutines that wait are given the replies in order. -/
theorem dispatchByOrder_encode (h : ∀ r ∈ rs, r.WellFormed) {thread : List ℕ}
    (hlen : thread.length = rs.length) (hfuel : (encodeAll rs).length ≤ fuel) (rest : Bytes) :
    dispatchByOrder fuel thread (encodeAll rs ++ rest) =
      .ok (thread.zip (responses rs), rest) := by
  induction rs generalizing thread with
  | nil =>
    obtain rfl := eq_nil_of_length_eq_zero hlen
    rfl
  | cons r rs ih =>
    obtain ⟨co, thread, rfl⟩ := exists_cons_of_length_eq_add_one hlen
    rw [encodeAll, length_append] at hfuel
    have hread := readResponse_encode (h r mem_cons_self) (Nat.le_of_add_right_le hfuel)
      (encodeAll rs ++ rest)
    have hrest := ih (fun r' hr' => h r' (mem_cons_of_mem _ hr')) (Nat.succ.inj hlen)
      (Nat.le_of_add_left_le hfuel)
    rw [dispatchByOrder, encodeAll, append_assoc, hread]
    change dispatchByOrder fuel thread _ >>= _ = _
    rw [hrest]
    rfl

/-- **Replies are consumed exactly**, and attributed in order. -/
theorem replies_consumed (h : ∀ r ∈ rs, r.WellFormed) {thread : List ℕ}
    (hlen : thread.length = rs.length) (hfuel : (encodeAll rs).length ≤ fuel) (rest : Bytes) :
    dispatchByOrder fuel thread (encodeAll rs ++ rest) =
        .ok (thread.zip (rs.map Reply.response), rest) ∧
      ∀ r ∈ rs, (∀ rest, readResponse fuel (r.encode ++ rest) = .ok (r.response, rest)) ∧
        (r.response.ok = false ↔ r.HasError) := by
  rw [← responses_eq_map]
  exact ⟨dispatchByOrder_encode h hlen hfuel rest, fun r hr =>
    ⟨readResponse_encode (h r hr) ((length_encode_le hr).trans hfuel), ok_eq_false_iff (h r hr)⟩⟩

/-- An array with a line break and an error in it, and then an integer. -/
theorem replies_consumed_two :
    dispatchByOrder 20 [7, 8] (encodeAll [.array [.bulk crlf, .error [69]], .integer 5]) =
      .ok ([(7, ⟨false, .table [.string crlf, .nil]⟩), (8, ⟨true, .integer 5⟩)], []) := by
  have h : ∀ r ∈ [Reply.array [.bulk crlf, .error [69]], .integer 5], r.WellFormed := by
    simp only [List.mem_cons, List.not_mem_nil, or_false, forall_eq_or_imp, forall_eq]
    refine ⟨.array (by decide) ?_, .integer (by decide) (by decide)⟩
    simp only [List.mem_cons, List.not_mem_nil, or_false, forall_eq_or_imp, forall_eq]
    exact ⟨.bulk (by decide), .error (by decide)⟩
  have hconsumed : dispatchByOrder 20 [7, 8] _ = _ := (replies_consumed h rfl (by decide) []).1
  rw [List.append_nil] at hconsumed
  exact hconsumed

end Read

end Mtask.Redis
