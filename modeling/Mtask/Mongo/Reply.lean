import Mathlib.Algebra.Ring.Int.Defs
import Mathlib.Data.List.Basic
import Mathlib.Data.Nat.Find
import Mtask.Lib.Buffers
import Mtask.Lib.LittleEndian

/-!
# Replies of the database

`op_reply` goes from one document of a reply to the next one by the length that the document begins
with, a signed number that is not tested: it may be zero, negative, or more than what is left. With
a table the documents are counted; without one only the first one is measured.

A byte outside of the reply that is read stops the model. An `int` that overflows wraps around. The
loop runs with a bound on its rounds, and is found to be still running when that is used up.
-/

namespace Mtask.Mongo

open Buffers
open List

/-! ### The function -/

/-- A number of 32 bits as an `int`. -/
def toInt (n : ℤ) : ℤ :=
  if n % 2 ^ 32 < 2 ^ 31 then n % 2 ^ 32 else n % 2 ^ 32 - 2 ^ 32

/-- What ends `op_reply` without a result. -/
inductive ReplyFault
  | raised (message : String)
  | outOfBounds
  | running
  deriving DecidableEq, Repr

/-- A value of the result table: the address of a document, from the beginning of the reply on, or
anything that was there before. -/
inductive Slot
  | pointer (doc : ℤ)
  | other (value : ℕ)
  deriving DecidableEq, Repr

/-- The result table. -/
structure Table where
  slot : ℕ → Option Slot
  bounded : ∃ n, ∀ k, n < k → slot k = none

/-- `lua_rawseti` -/
def Table.set (t : Table) (k : ℕ) (v : Option Slot) : Table where
  slot j := if j = k then v else t.slot j
  bounded := by
    obtain ⟨n, hn⟩ := t.bounded
    refine ⟨n + k, fun j hj => ?_⟩
    rw [if_neg (by omega)]
    exact hn j (by omega)

/-- `lua_rawlen`, which gives some border of a table. -/
structure RawLen where
  len : Table → ℕ
  border : ∀ t, (len t = 0 ∨ t.slot (len t) ≠ none) ∧ t.slot (len t + 1) = none

/-- The first border of a table. -/
def RawLen.first : RawLen where
  len t := Nat.find (p := fun k => t.slot (k + 1) = none) <|
    t.bounded.imp fun _ h => h _ (Nat.lt_add_one _)
  border t := by
    refine ⟨?_, Nat.find_spec (p := fun k => t.slot (k + 1) = none) _⟩
    rcases hlen : Nat.find (p := fun k => t.slot (k + 1) = none) _ with _ | k
    · exact .inl rfl
    · exact .inr (Nat.find_min _ (Nat.lt_of_lt_of_eq (Nat.lt_add_one k) hlen.symm))

/-- The size of the header of a reply, which begins with the request id. -/
def headerSize : ℕ := 32

/-- A number of the header, or the length of a document. -/
def word (data : List UInt8) (o : ℕ) : ℕ :=
  LittleEndian.ofBytes (slice data o 4)

/-- `get_length` -/
def getLength (data : List UInt8) (doc : ℤ) : Except ReplyFault ℕ :=
  if 0 ≤ doc ∧ doc + 4 ≤ data.length then .ok (word data doc.toNat) else .error .outOfBounds

/-- `id`, `number` and `starting_from` -/
def replyId (data : List UInt8) : ℤ := toInt (word data 4)

/-- `number` -/
def number (data : List UInt8) : ℤ := toInt (word data 28)

/-- `starting_from` -/
def startingFrom (data : List UInt8) : ℤ := toInt (word data 24)

/-- `flags & REPLY_QUERYFAILURE` -/
def QueryFailure (data : List UInt8) : Prop :=
  word data 12 &&& 2 ≠ 0

instance (data : List UInt8) : Decidable (QueryFailure data) :=
  inferInstanceAs (Decidable (_ ≠ _))

/-- `cursor_id`, unless it is zero. -/
def cursorId (data : List UInt8) : Option (List UInt8) :=
  if word data 16 = 0 ∧ word data 20 = 0 then none else some (slice data 16 8)

/-- The variables of the loop. -/
structure LoopState where
  doc : ℤ
  sz : ℤ
  i : ℕ
  table : Table

/-- A round of the loop. -/
def LoopState.step (data : List UInt8) (s : LoopState) : Except ReplyFault LoopState :=
  match getLength data s.doc with
  | .error e => .error e
  | .ok len => .ok ⟨s.doc + toInt len, toInt (s.sz - toInt len), s.i + 1,
      s.table.set s.i (some (.pointer s.doc))⟩

/-- The loop over the documents. -/
def loop (data : List UInt8) : ℕ → LoopState → Except ReplyFault LoopState
  | 0, s => if 4 < s.sz then .error .running else .ok s
  | fuel + 1, s =>
    if 4 < s.sz then
      match s.step data with
      | .error e => .error e
      | .ok s => loop data fuel s
    else .ok s

/-- `sz`, before the documents. -/
def startSz (data : List UInt8) : ℤ :=
  toInt (data.length - headerSize)

/-- The loop before its first round. -/
def start (data : List UInt8) (table : Table) : LoopState :=
  ⟨headerSize, startSz data, 1, table⟩

/-- The last loop: the slots from `i` on are removed. -/
def Table.removeFrom (t : Table) (i c : ℕ) : Table where
  slot k := if i ≤ k ∧ k ≤ c then none else t.slot k
  bounded := by
    obtain ⟨n, hn⟩ := t.bounded
    refine ⟨n, fun k hk => ?_⟩
    split_ifs
    · rfl
    · exact hn k hk

/-- What is left behind the first document, if there is no table. -/
def restSz (data : List UInt8) : Except ReplyFault ℤ :=
  if 4 ≤ startSz data then
    match getLength data headerSize with
    | .error e => .error e
    | .ok len => .ok (toInt (startSz data - len))
  else .ok (startSz data)

/-- What `op_reply` returns. -/
inductive Reply
  /-- `false` -/
  | short
  /-- `false`, the id and the document of an error -/
  | failure (id : ℤ)
  /-- `false` and the id -/
  | miscount (id : ℤ)
  /-- `true` -/
  | success (id : ℤ) (document : Option ℕ) (cursorId : Option (List UInt8)) (startFrom : ℤ)
  deriving DecidableEq, Repr

/-- The message of `op_reply`. -/
def invalidDocument : ReplyFault :=
  .raised "Invalid result bson document"

/-- The end of `op_reply`. -/
def finish (data : List UInt8) (sz : ℤ) : Except ReplyFault Reply :=
  if sz ≠ 0 then .error invalidDocument
  else .ok (.success (replyId data) (if number data = 0 then none else some headerSize)
    (cursorId data) (startingFrom data))

/-- `op_reply`, with the result table behind it. -/
def opReply (rawlen : RawLen) (data : List UInt8) (table : Option Table) (fuel : ℕ) :
    Except ReplyFault (Reply × Option Table) :=
  if data.length < headerSize then .ok (.short, table)
  else if QueryFailure data then .ok (.failure (replyId data), table)
  else
    match table with
    | some t =>
      match loop data fuel (start data t) with
      | .error e => .error e
      | .ok s =>
        if (s.i : ℤ) ≠ toInt (number data + 1) then .ok (.miscount (replyId data), some s.table)
        else (finish data s.sz).map fun r => (r, some (s.table.removeFrom s.i (rawlen.len s.table)))
    | none =>
      match restSz data with
      | .error e => .error e
      | .ok sz => (finish data sz).map fun r => (r, none)

/-! ### What it should do -/

/-- The length that a document begins with. -/
def lengthAt (data : List UInt8) (o : ℕ) : ℤ :=
  toInt (word data o)

/-- The pointer is in the reply, and what is left is what is behind the pointer. -/
def Inside (data : List UInt8) (doc sz : ℤ) : Prop :=
  0 ≤ doc ∧ doc ≤ data.length ∧ sz = data.length - doc

/-- The states that the loop gets to. -/
inductive Reached (data : List UInt8) : LoopState → LoopState → Prop
  | refl (s : LoopState) : Reached data s s
  | head {s t u : LoopState} (hsz : 4 < s.sz) (hstep : s.step data = .ok t)
      (h : Reached data t u) : Reached data s u

/-- The pointer and the size stay inside of the reply. -/
def StaysInside (data : List UInt8) : Option Table → Prop
  | some t => ∀ s, Reached data (start data t) s → Inside data s.doc s.sz
  | none => Inside data headerSize (startSz data) ∧
      ∀ sz, restSz data = .ok sz → 0 ≤ sz ∧ sz ≤ startSz data

/-- A document that begins with its length. -/
def IsDocument (d : List UInt8) : Prop :=
  4 ≤ d.length ∧ lengthAt d 0 = d.length

/-- What is behind the header is made of as many documents as the header says, and the table has
their addresses in order, and nothing in the place behind them. -/
def Concatenation (data : List UInt8) (table : Option Table) : Prop :=
  ∃ docs : List (List UInt8), data.drop headerSize = docs.flatten ∧ (∀ d ∈ docs, IsDocument d) ∧
    docs.length = number data ∧
    ∀ t ∈ table, t.slot (docs.length + 1) = none ∧ ∀ k < docs.length,
      t.slot (k + 1) = some (.pointer ((headerSize + (docs.take k).flatten.length : ℕ)))

/-- What `op_reply` should do: it comes to an end, reads nothing outside of the reply, and reports
success only for a reply that is made of its documents. -/
def Replies (rawlen : RawLen) (data : List UInt8) (table : Option Table) : Prop :=
  (headerSize ≤ data.length → ¬QueryFailure data → StaysInside data table) ∧
    ∃ fuel, match opReply rawlen data table fuel with
      | .ok (.success .., table) => Concatenation data table
      | .ok _ => True
      | .error (.raised _) => True
      | .error _ => False

/-! ### When it does -/

/-- The lengths lead from a place of the reply over the places of a list to one with four bytes or
less behind it. -/
inductive Walk (data : List UInt8) : ℕ → List ℕ → ℕ → Prop
  | stop {o : ℕ} (h : data.length ≤ o + 4) : Walk data o [] o
  | next {o o' e : ℕ} {offs : List ℕ} (h : o + 4 < data.length)
      (hlen : (o' : ℤ) = o + lengthAt data o) (hin : o' ≤ data.length)
      (hint : data.length < o' + 2 ^ 31) (hw : Walk data o' offs e) : Walk data o (o :: offs) e

/-- The header counts so many documents. -/
def Counts (data : List UInt8) (n : ℕ) : Prop :=
  (n + 1 : ℤ) = toInt (number data + 1)

instance (data : List UInt8) (n : ℕ) : Decidable (Counts data n) :=
  inferInstanceAs (Decidable (_ = _))

/-- The first document, if there is no table. -/
def FirstOnly (data : List UInt8) : Prop :=
  (data.length = headerSize → number data = 0) ∧
    (headerSize + 4 ≤ data.length → word data headerSize ≤ data.length - headerSize ∧
      (word data headerSize = data.length - headerSize → number data = 1))

/-- The replies for which `op_reply` does what it should: they end in the header, or report a
failure, or their documents are less than `2 ^ 31` bytes and, with a table, their lengths lead to an
end, and if that is the end of the reply with as many documents as the header says, none of them is
less than `4`; or without a table, there is one document that is not too long, and the header says
so. -/
def Handled (data : List UInt8) (table : Option Table) : Prop :=
  data.length < headerSize ∨ QueryFailure data ∨ data.length < headerSize + 2 ^ 31 ∧
    if table.isSome then ∃ offs e, Walk data headerSize offs e ∧
      (e = data.length → Counts data offs.length → ∀ o ∈ offs, 4 ≤ lengthAt data o)
    else FirstOnly data

section Numbers

theorem toInt_of_range {n : ℤ} (h : -2 ^ 31 ≤ n) (h' : n < 2 ^ 31) : toInt n = n := by
  rw [toInt]
  split_ifs <;> omega

theorem toInt_range (n : ℤ) : -2 ^ 31 ≤ toInt n ∧ toInt n < 2 ^ 31 := by
  rw [toInt]
  split_ifs <;> omega

theorem toInt_emod (n : ℤ) : toInt n % 2 ^ 32 = n % 2 ^ 32 := by
  rw [toInt]
  split_ifs <;> omega

variable {data : List UInt8}

theorem Counts.eq_number {n : ℕ} (h : Counts data n) : (n : ℤ) = number data := by
  have hrange := toInt_range (word data 28)
  rw [Counts, toInt] at h
  rw [← number] at hrange
  split_ifs at h <;> omega

theorem word_lt (o : ℕ) : word data o < 2 ^ 32 := by
  refine Nat.lt_of_lt_of_le (LittleEndian.ofBytes_lt _) ?_
  rw [show 2 ^ 32 = 256 ^ 4 by decide]
  exact Nat.pow_le_pow_right (by decide) (length_take_le _ _)

end Numbers

/-! ### The loop -/

variable {s : LoopState}

section Loop

variable {data : List UInt8} {t : Table} {o o' e i : ℕ} {offs : List ℕ}

/-- The loop at a place of the reply. -/
def stateAt (data : List UInt8) (o i : ℕ) (t : Table) : LoopState :=
  ⟨o, data.length - o, i, t⟩

theorem step_stateAt (h : o + 4 ≤ data.length) : (stateAt data o i t).step data =
    .ok ⟨o + lengthAt data o, toInt (data.length - o - lengthAt data o), i + 1,
      t.set i (some (.pointer o))⟩ := by
  have hin : (0 : ℤ) ≤ o ∧ (o : ℤ) + 4 ≤ data.length := ⟨by omega, by omega⟩
  rw [LoopState.step, stateAt, getLength, if_pos hin]
  rfl

theorem step_next (h : o + 4 ≤ data.length) (hlen : (o' : ℤ) = o + lengthAt data o)
    (hin : o' ≤ data.length) (hint : data.length < o' + 2 ^ 31) :
    (stateAt data o i t).step data =
      .ok (stateAt data o' (i + 1) (t.set i (some (.pointer o)))) := by
  have hsz : (data.length : ℤ) - o - lengthAt data o = data.length - o' := by omega
  rw [step_stateAt h, hsz, toInt_of_range (by omega) (by omega), ← hlen]
  rfl

variable {fuel : ℕ}

theorem loop_of_le (h : s.sz ≤ 4) : loop data fuel s = .ok s := by
  cases fuel with
  | zero => rw [loop, if_neg (Int.not_lt.mpr h)]
  | succ fuel => rw [loop, if_neg (Int.not_lt.mpr h)]

theorem loop_step {s' : LoopState} (h : 4 < s.sz) (hstep : s.step data = .ok s') :
    loop data (fuel + 1) s = loop data fuel s' := by
  rw [loop, if_pos h, hstep]

/-- The slots that a walk writes. -/
def writeSlots (t : Table) (i : ℕ) : List ℕ → Table
  | [] => t
  | o :: offs => writeSlots (t.set i (some (.pointer o))) (i + 1) offs

/-- **A walk is a loop.** -/
theorem loop_of_walk (h : Walk data o offs e) (i : ℕ) (t : Table) :
    loop data offs.length (stateAt data o i t) =
      .ok (stateAt data e (i + offs.length) (writeSlots t i offs)) := by
  induction h generalizing i t with
  | stop h => exact loop_of_le (show (data.length : ℤ) - _ ≤ 4 by omega)
  | next h hlen hin hint hw ih =>
    rw [length_cons, loop_step (show (4 : ℤ) < data.length - _ by omega)
      (step_next (by omega) hlen hin hint), ih, Nat.add_assoc, Nat.add_comm 1]
    rfl

theorem inside_of_walk (h : Walk data o offs e) (ho : o ≤ data.length)
    (hreached : Reached data (stateAt data o i t) s) : Inside data s.doc s.sz := by
  induction h generalizing i t with
  | stop h =>
    rcases hreached with _ | ⟨hsz, -, -⟩
    · exact ⟨Int.natCast_nonneg _, Int.ofNat_le.mpr ho, rfl⟩
    · exact absurd hsz (by simp only [stateAt]; omega)
  | next h hlen hin hint hw ih =>
    rcases hreached with _ | ⟨hsz, hstep, hreached⟩
    · exact ⟨Int.natCast_nonneg _, Int.ofNat_le.mpr ho, rfl⟩
    · rw [step_next (by omega) hlen hin hint] at hstep
      obtain rfl := Except.ok.inj hstep
      exact ih hin hreached

/-- **A loop that stays inside of the reply and comes to an end is a walk.** -/
theorem walk_of_loop (ho : o ≤ data.length) (hint : data.length < o + 2 ^ 31)
    (hinside : ∀ s, Reached data (stateAt data o i t) s → Inside data s.doc s.sz)
    (hloop : loop data fuel (stateAt data o i t) = .ok s) :
    ∃ offs e, Walk data o offs e ∧
      s = stateAt data e (i + offs.length) (writeSlots t i offs) := by
  induction fuel generalizing o i t with
  | zero =>
    rw [loop] at hloop
    split_ifs at hloop with hsz
    simp only [stateAt] at hsz
    exact ⟨[], o, .stop (by omega), (Except.ok.inj hloop).symm⟩
  | succ fuel ih =>
    by_cases hsz : (4 : ℤ) < data.length - o
    · have hstep := step_stateAt (i := i) (t := t) (show o + 4 ≤ data.length by omega)
      have hpos : (4 : ℤ) < (stateAt data o i t).sz := hsz
      obtain ⟨hzero, hle, hrest⟩ := hinside _ (.head hpos hstep (.refl _))
      simp only at hzero hle hrest
      have hrange := toInt_range (data.length - o - lengthAt data o)
      obtain ⟨o', ho'⟩ := Int.eq_ofNat_of_zero_le hzero
      have hnext : (stateAt data o i t).step data = .ok (stateAt data o' (i + 1) _) :=
        step_next (by omega) ho'.symm (by omega) (by omega)
      rw [loop_step hpos hnext] at hloop
      obtain ⟨offs, e, hw, rfl⟩ := ih (by omega) (by omega)
        (fun s hs => hinside s (.head hpos hnext hs)) hloop
      refine ⟨o :: offs, e, .next (by omega) ho'.symm (by omega) (by omega) hw, ?_⟩
      rw [length_cons, Nat.add_assoc, Nat.add_comm 1]
      rfl
    · rw [loop_of_le (Int.not_lt.mp hsz)] at hloop
      exact ⟨[], o, .stop (by omega), (Except.ok.inj hloop).symm⟩

end Loop

/-! ### Documents -/

section Documents

variable {data : List UInt8} {o e : ℕ} {offs : List ℕ} {docs : List (List UInt8)}

theorem lengthAt_take {n : ℕ} (data : List UInt8) (o : ℕ) (h : 4 ≤ n) :
    lengthAt ((data.drop o).take n) 0 = lengthAt data o := by
  rw [lengthAt, word, slice, drop_zero, take_take, Nat.min_eq_left h]
  rfl

theorem lengthAt_flatten {d : List UInt8} (hdocs : data.drop o = (d :: docs).flatten)
    (hd : IsDocument d) : lengthAt data o = d.length := by
  rw [← hd.2, ← lengthAt_take data o hd.1, hdocs, flatten_cons, take_left]

theorem docs_of_walk (h : Walk data o offs e) (ho : o ≤ data.length) (he : e = data.length)
    (hlen : ∀ o ∈ offs, 4 ≤ lengthAt data o) :
    ∃ docs : List (List UInt8), data.drop o = docs.flatten ∧ (∀ d ∈ docs, IsDocument d) ∧
      docs.length = offs.length ∧
      ∀ k (hk : k < offs.length), offs.get ⟨k, hk⟩ = o + (docs.take k).flatten.length := by
  induction h with
  | stop h => exact ⟨[], by rw [he, drop_length, flatten_nil], nofun, rfl, nofun⟩
  | @next o o' e offs h hstep hin hint hw ih =>
    obtain ⟨hfirst, hrest⟩ := forall_mem_cons.mp hlen
    obtain ⟨docs, hdocs, hdoc, hcount, hoffs⟩ := ih hin he hrest
    have hsize : o + (o' - o) = o' := by omega
    have hlength : ((data.drop o).take (o' - o)).length = o' - o := by
      rw [length_take, length_drop]
      omega
    refine ⟨(data.drop o).take (o' - o) :: docs, ?_, ?_, ?_, ?_⟩
    · rw [flatten_cons, ← hdocs]
      conv_rhs => rw [← hsize, ← drop_drop, hsize, take_append_drop]
    · refine forall_mem_cons.mpr ⟨⟨by omega, ?_⟩, hdoc⟩
      rw [lengthAt_take data o (by omega), hlength]
      omega
    · rw [length_cons, length_cons, hcount]
    · intro k hk
      cases k with
      | zero => rfl
      | succ k =>
        rw [take_succ_cons, flatten_cons, length_append, hlength, ← Nat.add_assoc,
          hsize]
        exact hoffs k (Nat.lt_of_succ_lt_succ hk)

theorem lengths_of_docs (h : Walk data o offs e) (hdocs : data.drop o = docs.flatten)
    (hdoc : ∀ d ∈ docs, IsDocument d) : ∀ o ∈ offs, 4 ≤ lengthAt data o := by
  induction h generalizing docs with
  | stop h => exact nofun
  | @next o o' e offs h hstep hin hint hw ih =>
    cases docs with
    | nil =>
      have hlength := congrArg List.length hdocs
      rw [length_drop, flatten_nil, length_nil] at hlength
      omega
    | cons d docs =>
      obtain ⟨hd, hdoc⟩ := forall_mem_cons.mp hdoc
      have hfirst := lengthAt_flatten hdocs hd
      have hsize : o + d.length = o' := by omega
      refine forall_mem_cons.mpr ⟨by rw [hfirst]; exact_mod_cast hd.1, ih ?_ hdoc⟩
      rw [← hsize, ← drop_drop, hdocs, flatten_cons, drop_left]

end Documents

/-! ### The table -/

section Slots

variable {t : Table} {i j k : ℕ} {offs : List ℕ}

theorem Table.set_self (v : Option Slot) : (t.set k v).slot k = v := if_pos rfl

theorem Table.set_of_ne {v : Option Slot} (h : j ≠ k) : (t.set k v).slot j = t.slot j := if_neg h

theorem writeSlots_of_lt (h : j < i) : (writeSlots t i offs).slot j = t.slot j := by
  induction offs generalizing t i with
  | nil => rfl
  | cons o offs ih => rw [writeSlots, ih (by omega), Table.set_of_ne (by omega)]

theorem writeSlots_add (hk : k < offs.length) :
    (writeSlots t i offs).slot (i + k) = some (.pointer offs[k]) := by
  induction offs generalizing t i k with
  | nil => exact absurd hk (Nat.not_lt_zero k)
  | cons o offs ih =>
    cases k with
    | zero =>
      exact (writeSlots_of_lt (Nat.lt_add_one i)).trans (Table.set_self _)
    | succ k =>
      rw [writeSlots, show i + (k + 1) = i + 1 + k by omega, ih (Nat.lt_of_succ_lt_succ hk)]
      rfl

theorem removeFrom_slot (rawlen : RawLen) :
    ((writeSlots t 1 offs).removeFrom (1 + offs.length)
      (rawlen.len (writeSlots t 1 offs))).slot (offs.length + 1) = none := by
  have hborder := (rawlen.border (writeSlots t 1 offs)).2
  generalize rawlen.len (writeSlots t 1 offs) = c at hborder
  by_cases hc : offs.length + 1 ≤ c
  · exact if_pos ⟨by omega, hc⟩
  · refine (if_neg (by omega)).trans ?_
    by_cases hlt : c < offs.length
    · rw [Nat.add_comm, writeSlots_add hlt] at hborder
      exact absurd hborder (Option.some_ne_none _)
    · rwa [show c = offs.length by omega] at hborder

theorem removeFrom_slot_of_lt {c : ℕ} (hk : k < offs.length) :
    ((writeSlots t 1 offs).removeFrom (1 + offs.length) c).slot (k + 1) =
      some (.pointer offs[k]) := by
  rw [← writeSlots_add (t := t) (i := 1) hk, Nat.add_comm 1 k]
  exact if_neg (by omega)

end Slots

/-! ### The replies for which it does what it should -/

section Replies

variable {rawlen : RawLen} {data : List UInt8} {table : Option Table} {t : Table} {fuel : ℕ}

theorem replies_of_short (h : data.length < headerSize) : Replies rawlen data table := by
  refine ⟨fun h' => absurd h' (Nat.not_le.mpr h), 0, ?_⟩
  rw [opReply.eq_def, if_pos h]
  trivial

theorem replies_of_failure (h : QueryFailure data) : Replies rawlen data table := by
  by_cases hlen : data.length < headerSize
  · exact replies_of_short hlen
  · refine ⟨fun _ hq => absurd h hq, 0, ?_⟩
    rw [opReply.eq_def, if_neg hlen, if_pos h]
    trivial

theorem start_eq (h : headerSize ≤ data.length) (h' : data.length < headerSize + 2 ^ 31) :
    startSz data = data.length - headerSize ∧ start data t = stateAt data headerSize 1 t := by
  have hsz : startSz data = data.length - headerSize := toInt_of_range (by omega) (by omega)
  exact ⟨hsz, by rw [start, hsz]; rfl⟩

theorem lt_of_inside (h : Inside data headerSize (startSz data)) :
    data.length < headerSize + 2 ^ 31 := by
  have hrange := toInt_range (data.length - headerSize)
  rw [← startSz, h.2.2] at hrange
  omega

theorem loop_error {e : ReplyFault} (h : loop data fuel s = .error e) :
    e = .outOfBounds ∨ e = .running := by
  induction fuel generalizing s with
  | zero =>
    rw [loop] at h
    split_ifs at h
    exact .inr (Except.error.inj h).symm
  | succ fuel ih =>
    rw [loop, LoopState.step, getLength] at h
    split_ifs at h
    · exact ih h
    · exact .inl (Except.error.inj h).symm

variable {offs : List ℕ}

theorem opReply_of_walk {e : ℕ} (h : headerSize ≤ data.length) (hq : ¬QueryFailure data)
    (hloop : loop data fuel (start data t) =
      .ok (stateAt data e (1 + offs.length) (writeSlots t 1 offs))) :
    opReply rawlen data (some t) fuel =
      if Counts data offs.length then
        (finish data (data.length - e)).map fun r =>
          (r, some ((writeSlots t 1 offs).removeFrom (1 + offs.length)
            (rawlen.len (writeSlots t 1 offs))))
      else .ok (.miscount (replyId data), some (writeSlots t 1 offs)) := by
  rw [opReply, if_neg (Nat.not_lt.mpr h), if_neg hq]
  simp only [hloop, stateAt]
  by_cases hcount : Counts data offs.length
  · rw [if_pos hcount, if_neg]
    rw [Counts] at hcount
    omega
  · rw [if_neg hcount, if_pos]
    rw [Counts] at hcount
    omega

theorem concatenation_iff {e : ℕ} (h : headerSize ≤ data.length) (hw : Walk data headerSize offs e)
    (he : e = data.length) (hcount : Counts data offs.length) :
    Concatenation data (some ((writeSlots t 1 offs).removeFrom (1 + offs.length)
      (rawlen.len (writeSlots t 1 offs)))) ↔ ∀ o ∈ offs, 4 ≤ lengthAt data o := by
  constructor
  · rintro ⟨docs, hdocs, hdoc, -, -⟩
    exact lengths_of_docs hw hdocs hdoc
  · intro hlen
    obtain ⟨docs, hdocs, hdoc, hlength, hoffs⟩ := docs_of_walk hw h he hlen
    refine ⟨docs, hdocs, hdoc, by rw [hlength, hcount.eq_number], ?_⟩
    rintro _ ⟨⟩
    rw [hlength]
    refine ⟨removeFrom_slot rawlen, fun k hk => ?_⟩
    rw [removeFrom_slot_of_lt hk, ← hoffs k hk]
    rfl

theorem replies_some_iff (h : headerSize ≤ data.length) (hq : ¬QueryFailure data) :
    Replies rawlen data (some t) ↔ data.length < headerSize + 2 ^ 31 ∧
      ∃ offs e, Walk data headerSize offs e ∧
        (e = data.length → Counts data offs.length → ∀ o ∈ offs, 4 ≤ lengthAt data o) := by
  constructor
  · rintro ⟨hinside, fuel, hreply⟩
    have hstays := hinside h hq
    have hlt := lt_of_inside (hstays _ (.refl _))
    obtain ⟨hsz, hstart⟩ := start_eq (t := t) h hlt
    refine ⟨hlt, ?_⟩
    rw [StaysInside, hstart] at hstays
    cases hloop : loop data fuel (stateAt data headerSize 1 t) with
    | error e =>
      have herror : opReply rawlen data (some t) fuel = .error e := by
        rw [opReply, if_neg (Nat.not_lt.mpr h), if_neg hq]
        simp only [hstart, hloop]
      rw [herror] at hreply
      rcases loop_error hloop with rfl | rfl <;> exact hreply.elim
    | ok s =>
      obtain ⟨offs, e, hw, rfl⟩ := walk_of_loop h hlt hstays hloop
      refine ⟨offs, e, hw, fun he hcount => ?_⟩
      rw [← hstart] at hloop
      rw [opReply_of_walk h hq hloop, if_pos hcount, he, Int.sub_self] at hreply
      exact (concatenation_iff h hw he hcount).mp hreply
  · rintro ⟨hlt, offs, e, hw, hlen⟩
    obtain ⟨hsz, hstart⟩ := start_eq (t := t) h hlt
    have hloop := loop_of_walk hw 1 t
    rw [← hstart] at hloop
    refine ⟨fun _ _ => ?_, offs.length, ?_⟩
    · rw [StaysInside, hstart]
      exact fun s hs => inside_of_walk hw h hs
    · have hreply := @opReply_of_walk rawlen data t offs.length offs e h hq hloop
      by_cases hcount : Counts data offs.length
      · rw [if_pos hcount] at hreply
        by_cases he : e = data.length
        · rw [he, Int.sub_self, finish, if_neg (not_not.mpr rfl)] at hreply
          rw [hreply]
          exact (concatenation_iff h hw he hcount).mpr (hlen he hcount)
        · rw [finish, if_pos (by omega)] at hreply
          rw [hreply]
          trivial
      · rw [if_neg hcount] at hreply
        rw [hreply]
        trivial

/-- What is left behind the first document is not negative, and not more than there was. -/
theorem rest_iff {sz : ℤ} {len : ℕ} (h : 0 ≤ sz) (h' : sz < 2 ^ 31) (hlen : len < 2 ^ 32) :
    0 ≤ toInt (sz - len) ∧ toInt (sz - len) ≤ sz ↔ (len : ℤ) ≤ sz := by
  rw [toInt]
  split_ifs <;> omega

theorem concatenation_none_iff (h : headerSize + 4 ≤ data.length)
    (hlt : data.length < headerSize + 2 ^ 31)
    (hlen : word data headerSize = data.length - headerSize) :
    Concatenation data none ↔ number data = 1 := by
  have hword : lengthAt data headerSize = data.length - headerSize := by
    rw [lengthAt, toInt_of_range (by omega) (by omega)]
    omega
  have hdrop : (data.drop headerSize).length = data.length - headerSize := length_drop
  constructor
  · rintro ⟨docs, hdocs, hdoc, hcount, -⟩
    match docs with
    | [] =>
      rw [hdocs, flatten_nil, length_nil] at hdrop
      omega
    | [d] => exact hcount.symm
    | d :: d' :: docs =>
      obtain ⟨hd, hdoc⟩ := forall_mem_cons.mp hdoc
      obtain ⟨hd', -⟩ := forall_mem_cons.mp hdoc
      have hfirst := lengthAt_flatten hdocs hd
      have hpos := hd'.1
      rw [hdocs, flatten_cons, flatten_cons, length_append,
        length_append] at hdrop
      omega
  · intro hnumber
    refine ⟨[data.drop headerSize], by rw [flatten_singleton], ?_, by rw [hnumber]; rfl, nofun⟩
    refine forall_mem_singleton.mpr ⟨by omega, ?_⟩
    have hself := lengthAt_take (n := data.length - headerSize) data headerSize (by omega)
    rw [take_of_length_le (by omega)] at hself
    rw [hself, hword, hdrop]
    omega

theorem concatenation_nil_iff (h : data.length = headerSize) :
    Concatenation data none ↔ number data = 0 := by
  have hdrop : data.drop headerSize = [] := by rw [← h, drop_length]
  constructor
  · rintro ⟨docs, hdocs, hdoc, hcount, -⟩
    rw [← hcount]
    cases docs with
    | nil => rfl
    | cons d docs =>
      rw [hdrop, flatten_cons] at hdocs
      obtain ⟨rfl, -⟩ := append_eq_nil_iff.mp hdocs.symm
      exact absurd (hdoc [] mem_cons_self).1 (by decide)
  · intro hnumber
    exact ⟨[], hdrop, nofun, hnumber.symm, nofun⟩

theorem opReply_none (h : headerSize ≤ data.length) (hq : ¬QueryFailure data) :
    opReply rawlen data none fuel = match restSz data with
      | .error e => .error e
      | .ok sz => (finish data sz).map fun r => (r, none) := by
  rw [opReply, if_neg (Nat.not_lt.mpr h), if_neg hq]

theorem replies_none_iff (h : headerSize ≤ data.length) (hq : ¬QueryFailure data) :
    Replies rawlen data none ↔ data.length < headerSize + 2 ^ 31 ∧ FirstOnly data := by
  by_cases hlt : data.length < headerSize + 2 ^ 31
  · obtain ⟨hsz, -⟩ := start_eq (t := ⟨fun _ => none, 0, fun _ _ => rfl⟩) h hlt
    have hinside : Inside data headerSize (startSz data) :=
      ⟨Int.natCast_nonneg _, Int.ofNat_le.mpr h, hsz⟩
    have hfinish : ∀ sz, restSz data = .ok sz → (Replies rawlen data none ↔
        (0 ≤ sz ∧ sz ≤ startSz data) ∧ (sz = 0 → Concatenation data none)) := by
      intro sz hrest
      have hreply : ∀ fuel, opReply rawlen data none fuel =
          (finish data sz).map fun r => (r, none) := fun fuel => by
        rw [opReply_none h hq, hrest]
      rw [Replies, StaysInside]
      simp only [hreply, exists_const, hinside, h, hq, not_false_eq_true, forall_const, hrest,
        true_and, Except.ok.injEq, forall_eq']
      refine and_congr_right fun _ => ?_
      by_cases hzero : sz = 0
      · simp [finish, hzero, Except.map]
      · simp [finish, hzero, Except.map, invalidDocument]
    by_cases hfirst : headerSize + 4 ≤ data.length
    · have hrest : restSz data = .ok (toInt (startSz data - word data headerSize)) := by
        rw [restSz, if_pos (by omega), getLength, if_pos ⟨by omega, by omega⟩]
        rfl
      have hlen : word data headerSize < 2 ^ 32 := word_lt headerSize
      rw [hfinish _ hrest, rest_iff (by omega) (by omega) hlen, FirstOnly]
      have hzero : toInt (startSz data - word data headerSize) = 0 ↔
          word data headerSize = startSz data := by
        rw [toInt]
        split_ifs <;> omega
      have hle : (word data headerSize : ℤ) ≤ startSz data ↔
          word data headerSize ≤ data.length - headerSize := by omega
      have heq : (word data headerSize : ℤ) = startSz data ↔
          word data headerSize = data.length - headerSize := by omega
      rw [hzero, hle, heq]
      constructor
      · rintro ⟨hword, hdoc⟩
        exact ⟨hlt, by omega, fun _ => ⟨hword, fun h' =>
          (concatenation_none_iff hfirst hlt h').mp (hdoc h')⟩⟩
      · rintro ⟨-, -, hdoc⟩
        obtain ⟨hword, hnumber⟩ := hdoc hfirst
        exact ⟨hword, fun h' => (concatenation_none_iff hfirst hlt h').mpr (hnumber h')⟩
    · have hrest : restSz data = .ok (startSz data) := by
        rw [restSz, if_neg (by omega)]
      have hzero : startSz data = 0 ↔ data.length = headerSize := by omega
      rw [hfinish _ hrest, hzero, FirstOnly]
      constructor
      · rintro ⟨-, hdoc⟩
        exact ⟨hlt, fun h' => (concatenation_nil_iff h').mp (hdoc h'), fun h' => absurd h' hfirst⟩
      · rintro ⟨-, hnumber, -⟩
        exact ⟨⟨by omega, Int.le_refl _⟩, fun h' => (concatenation_nil_iff h').mpr (hnumber h')⟩
  · refine iff_of_false (fun hreplies => hlt ?_) (fun hreplies => hlt hreplies.1)
    exact lt_of_inside (hreplies.1 h hq).1

/-- **The replies for which `op_reply` does what it should.** -/
theorem replies_iff (rawlen : RawLen) (data : List UInt8) (table : Option Table) :
    Replies rawlen data table ↔ Handled data table := by
  rw [Handled]
  by_cases h : data.length < headerSize
  · exact iff_of_true (replies_of_short h) (.inl h)
  by_cases hq : QueryFailure data
  · exact iff_of_true (replies_of_failure hq) (.inr (.inl hq))
  rw [or_iff_right h, or_iff_right hq]
  cases table with
  | none => exact replies_none_iff (Nat.not_lt.mp h) hq
  | some t => exact replies_some_iff (Nat.not_lt.mp h) hq

end Replies

/-- A document of no bytes is followed by itself. -/
theorem not_walk_of_zero {data : List UInt8} {o e : ℕ} {offs : List ℕ} (h : o + 4 < data.length)
    (hlen : lengthAt data o = 0) : ¬Walk data o offs e := by
  intro hw
  induction hw with
  | stop hstop => omega
  | @next o o' _ _ _ hstep _ _ _ ih =>
    obtain rfl : o' = o := by omega
    exact ih h hlen

/-- A reply that counts the documents and fails in nothing. -/
def replyOf (number : UInt8) (documents : List UInt8) : List UInt8 :=
  List.replicate 28 0 ++ [number, 0, 0, 0] ++ documents

/-- A document that says that it has no bytes is never left, and one document is taken for two. -/
theorem replies_fails : ¬Replies .first (replyOf 1 [0, 0, 0, 0, 0])
      (some ⟨fun _ => none, 0, fun _ _ => rfl⟩) ∧
    ¬Replies .first (replyOf 2 [5, 0, 0, 0, 0]) none := by
  constructor
  · rw [replies_some_iff (by decide) (by decide)]
    rintro ⟨-, offs, e, hw, -⟩
    exact not_walk_of_zero (by decide) (by decide) hw
  · rw [replies_none_iff (by decide) (by decide)]
    rintro ⟨-, -, hdoc⟩
    exact absurd ((hdoc (by decide)).2 (by decide)) (by decide)

end Mtask.Mongo
