import Mtask.Lib.Incremental

/-!
# What a string with its zeros packed away stands for

A packed string is cut into segments. A header that is not `0xff` stands for eight bytes: a bit says
whether the byte is zero or comes next in the string. Behind `0xff` comes a count, and then eight
bytes for each number up to the count. A string that is not packed, or that was cut off, may end in
the middle of a segment.

## Main definitions

* `spread`: the bytes that a header stands for.
* `segmentCutter`: how a segment is cut off the front of a packed string.
* `unpacked`, `remainder`: the bytes of the segments that are complete, and
  the segment that is not.
* `lackingAt`: the bytes that a segment lacks.

## Main results

* `unpacked_of_cut`, `remainder_of_cut`: unpacking segment by segment.
-/

namespace ZeroPacking

open List

/-- The bit of a header that says whether a byte comes next in the string. -/
def Comes (header i : UInt8) : Prop :=
  header >>> i &&& 1 ≠ 0

instance (header i : UInt8) : Decidable (Comes header i) :=
  inferInstanceAs (Decidable (_ ≠ _))

/-- The bytes that some bits of a header stand for, and what comes behind them. -/
def spread (header : UInt8) : List UInt8 → List UInt8 → Option (List UInt8 × List UInt8)
  | [], src => some ([], src)
  | i :: bits, src =>
    if Comes header i then
      match src with
      | [] => none
      | b :: src => (spread header bits src).map fun (seg, rest) => (b :: seg, rest)
    else (spread header bits src).map fun (seg, rest) => (0 :: seg, rest)

/-- The places, counted from `k` on, of the bytes that should come next but are lacking. -/
def lackingAt (header : UInt8) : ℕ → List UInt8 → List UInt8 → List ℕ
  | _, [], _ => []
  | k, i :: bits, src =>
    if Comes header i then
      match src with
      | [] => k :: lackingAt header (k + 1) bits []
      | _ :: src => lackingAt header (k + 1) bits src
    else lackingAt header (k + 1) bits src

/-- The bits of a header. -/
def bitPlaces : List UInt8 :=
  [0, 1, 2, 3, 4, 5, 6, 7]

/-- A segment is cut off. -/
def cutSegment : List UInt8 → Option (List UInt8 × List UInt8)
  | [] => none
  | header :: src =>
    if header = 0xff then
      match src with
      | [] => none
      | count :: src =>
        let n := (count.toNat + 1) * 8
        if src.length < n then none else some (src.take n, src.drop n)
    else spread header bitPlaces src

section Spread

variable {header i : UInt8} {bits src seg rest : List UInt8} {k : ℕ}

theorem spread_cons_of_not (h : ¬Comes header i) :
    spread header (i :: bits) src =
      (spread header bits src).map fun (seg, rest) => (0 :: seg, rest) := by
  rw [spread.eq_def]
  exact if_neg h

theorem spread_cons_of_comes (h : Comes header i) (b : UInt8) :
    spread header (i :: bits) (b :: src) =
      (spread header bits src).map fun (seg, rest) => (b :: seg, rest) := by
  rw [spread.eq_def]
  exact if_pos h

theorem spread_cons_nil (h : Comes header i) : spread header (i :: bits) [] = none := by
  rw [spread.eq_def]
  exact if_pos h

theorem lackingAt_cons_of_not (h : ¬Comes header i) :
    lackingAt header k (i :: bits) src = lackingAt header (k + 1) bits src := by
  rw [lackingAt.eq_def]
  exact if_neg h

theorem lackingAt_cons_of_comes (h : Comes header i) (b : UInt8) :
    lackingAt header k (i :: bits) (b :: src) = lackingAt header (k + 1) bits src := by
  rw [lackingAt.eq_def]
  exact if_pos h

theorem lackingAt_cons_nil (h : Comes header i) :
    lackingAt header k (i :: bits) [] = k :: lackingAt header (k + 1) bits [] := by
  rw [lackingAt.eq_def]
  exact if_pos h

theorem length_spread (h : spread header bits src = some (seg, rest)) :
    seg.length = bits.length ∧ rest.length ≤ src.length := by
  induction bits generalizing src seg with
  | nil =>
    obtain ⟨rfl, rfl⟩ := Prod.mk.inj (Option.some.inj h)
    exact ⟨rfl, Nat.le_refl _⟩
  | cons i bits ih =>
    by_cases hi : Comes header i
    · rcases src with _ | ⟨b, src⟩
      · rw [spread_cons_nil hi] at h
        cases h
      · rw [spread_cons_of_comes hi, Option.map_eq_some_iff] at h
        obtain ⟨⟨seg', rest'⟩, hspread, heq⟩ := h
        obtain ⟨rfl, rfl⟩ := Prod.mk.inj heq
        obtain ⟨hlen, hrest⟩ := ih hspread
        exact ⟨congrArg Nat.succ hlen, Nat.le_succ_of_le hrest⟩
    · rw [spread_cons_of_not hi, Option.map_eq_some_iff] at h
      obtain ⟨⟨seg', rest'⟩, hspread, heq⟩ := h
      obtain ⟨rfl, rfl⟩ := Prod.mk.inj heq
      obtain ⟨hlen, hrest⟩ := ih hspread
      exact ⟨congrArg Nat.succ hlen, hrest⟩

theorem spread_append (h : spread header bits src = some (seg, rest)) (more : List UInt8) :
    spread header bits (src ++ more) = some (seg, rest ++ more) := by
  induction bits generalizing src seg with
  | nil =>
    obtain ⟨rfl, rfl⟩ := Prod.mk.inj (Option.some.inj h)
    rfl
  | cons i bits ih =>
    by_cases hi : Comes header i
    · rcases src with _ | ⟨b, src⟩
      · rw [spread_cons_nil hi] at h
        cases h
      · rw [spread_cons_of_comes hi, Option.map_eq_some_iff] at h
        obtain ⟨⟨seg', rest'⟩, hspread, heq⟩ := h
        obtain ⟨rfl, rfl⟩ := Prod.mk.inj heq
        rw [cons_append, spread_cons_of_comes hi, ih hspread]
        rfl
    · rw [spread_cons_of_not hi, Option.map_eq_some_iff] at h
      obtain ⟨⟨seg', rest'⟩, hspread, heq⟩ := h
      obtain ⟨rfl, rfl⟩ := Prod.mk.inj heq
      rw [spread_cons_of_not hi, ih hspread]
      rfl

theorem le_of_mem_lackingAt {j : ℕ} (h : j ∈ lackingAt header k bits src) : k ≤ j := by
  induction bits generalizing src k with
  | nil => cases h
  | cons i bits ih =>
    by_cases hi : Comes header i
    · rcases src with _ | ⟨b, src⟩
      · rw [lackingAt_cons_nil hi] at h
        rcases mem_cons.mp h with rfl | h
        · exact Nat.le_refl _
        · exact Nat.le_of_succ_le (ih h)
      · rw [lackingAt_cons_of_comes hi] at h
        exact Nat.le_of_succ_le (ih h)
    · rw [lackingAt_cons_of_not hi] at h
      exact Nat.le_of_succ_le (ih h)

end Spread

/-! ### Cutting off segments -/

section Cut

variable {src seg rest : List UInt8}

theorem cutSegment_header {header : UInt8} (h : header ≠ 0xff) :
    cutSegment (header :: src) = spread header bitPlaces src := by
  rw [cutSegment.eq_def]
  exact if_neg h

theorem cutSegment_run (count : UInt8) :
    cutSegment (0xff :: count :: src) = if src.length < (count.toNat + 1) * 8 then none
      else some (src.take ((count.toNat + 1) * 8), src.drop ((count.toNat + 1) * 8)) :=
  rfl

theorem length_cutSegment (h : cutSegment src = some (seg, rest)) : rest.length < src.length := by
  rcases src with _ | ⟨header, src⟩
  · cases h
  by_cases hff : header = 0xff
  · subst hff
    rcases src with _ | ⟨count, src⟩
    · cases h
    · rw [cutSegment_run] at h
      split_ifs at h
      obtain ⟨rfl, rfl⟩ := Prod.mk.inj (Option.some.inj h)
      rw [length_drop, length_cons, length_cons]
      omega
  · rw [cutSegment_header hff] at h
    exact Nat.lt_succ_of_le (length_spread h).2

theorem cutSegment_append (h : cutSegment src = some (seg, rest)) (more : List UInt8) :
    cutSegment (src ++ more) = some (seg, rest ++ more) := by
  rcases src with _ | ⟨header, src⟩
  · cases h
  by_cases hff : header = 0xff
  · subst hff
    rcases src with _ | ⟨count, src⟩
    · cases h
    · rw [cutSegment_run] at h
      split_ifs at h with hlen
      obtain ⟨rfl, rfl⟩ := Prod.mk.inj (Option.some.inj h)
      rw [cons_append, cons_append, cutSegment_run,
        if_neg (by rw [length_append]; omega), take_append_of_le_length (by omega),
        drop_append_of_le_length (by omega)]
  · rw [cutSegment_header hff] at h
    rw [cons_append, cutSegment_header hff]
    exact spread_append h more

/-- How a segment is cut off the front of a packed string. -/
def segmentCutter : Incremental.Cutter UInt8 (List UInt8) where
  cut := cutSegment
  final _ := false
  shrinks := length_cutSegment
  stable := cutSegment_append

/-- The bytes of the segments that are complete. -/
def unpacked (src : List UInt8) : List UInt8 :=
  (segmentCutter.decode src).1.flatten

/-- The segment that is not complete. -/
def remainder (src : List UInt8) : List UInt8 :=
  (segmentCutter.decode src).2.getD []

theorem unpacked_of_none (h : cutSegment src = none) : unpacked src = [] := by
  rw [unpacked, Incremental.Cutter.decode_of_none (c := segmentCutter) h]
  rfl

theorem remainder_of_none (h : cutSegment src = none) : remainder src = src := by
  rw [remainder, Incremental.Cutter.decode_of_none (c := segmentCutter) h]
  rfl

theorem unpacked_of_cut (h : cutSegment src = some (seg, rest)) :
    unpacked src = seg ++ unpacked rest := by
  rw [unpacked, Incremental.Cutter.decode_of_some (c := segmentCutter) h rfl]
  rfl

theorem remainder_of_cut (h : cutSegment src = some (seg, rest)) :
    remainder src = remainder rest := by
  rw [remainder, Incremental.Cutter.decode_of_some (c := segmentCutter) h rfl]
  rfl

end Cut

end ZeroPacking
