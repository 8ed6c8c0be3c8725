import Mathlib.Algebra.GroupWithZero.Nat
import Mathlib.Data.List.GetD
import Mathlib.Tactic.Common

/-!
# Packing zeros away

Bytes are packed in segments of eight. A sparse segment becomes a header, with a bit for each byte
that is not zero, and these bytes. A run of segments is kept as it is, behind the byte `0xff` and
the number of its segments less one.

A run is begun by a segment without a zero, takes the following segments as long as they have two
zeros at most, and ends with 256 segments.

## Main definitions

* `Piece`: a sparse segment or a run, with `Piece.encode` and `Piece.bytes`.
* `layout`: how segments are made into pieces.
* `segments`: the segments of a string, the last one filled up with zeros.

## Main results

* `bytes_layout`: the pieces are the segments.
* `length_encode_add`: how long a packed string is.
* `overhead_layout_le`: what the headers cost is saved, but for two bytes for 256
  segments.
-/

namespace ZeroPacking

open List

/-- The bytes of a segment that are kept. -/
def nonzero (seg : List UInt8) : List UInt8 :=
  seg.filter (· ≠ 0)

/-- The bits of a header from the one of the byte at `i` on. -/
def headerFrom (i : UInt8) : List UInt8 → UInt8
  | [] => 0
  | b :: seg => (if b ≠ 0 then (1 : UInt8) <<< i else 0) ||| headerFrom (i + 1) seg

inductive Piece
  | sparse (seg : List UInt8)
  | run (segs : List (List UInt8))
  deriving DecidableEq, Repr

namespace Piece

/-- The bytes that a piece is made of. -/
def bytes : Piece → List UInt8
  | sparse seg => seg
  | run segs => segs.flatten

/-- A piece as it is written. -/
def encode : Piece → List UInt8
  | sparse seg => headerFrom 0 seg :: nonzero seg
  | run segs => 0xff :: UInt8.ofNat (segs.length - 1) :: segs.flatten

/-- A sparse segment has a zero, and the number of segments of a run fits into a byte. -/
def Valid : Piece → Prop
  | sparse seg => seg.length = 8 ∧ (nonzero seg).length < 8
  | run segs => segs ≠ [] ∧ segs.length ≤ 256 ∧ ∀ seg ∈ segs, seg.length = 8

/-- The bytes that are written besides those that are kept. -/
def overhead : Piece → ℕ
  | sparse _ => 1
  | run _ => 2

/-- The zeros that are not written. -/
def saved : Piece → ℕ
  | sparse seg => 8 - (nonzero seg).length
  | run _ => 0

end Piece

/-- The bytes that pieces are made of. -/
def bytes (pieces : List Piece) : List UInt8 :=
  pieces.flatMap Piece.bytes

/-- Pieces as they are written. -/
def encode (pieces : List Piece) : List UInt8 :=
  pieces.flatMap Piece.encode

def overhead (pieces : List Piece) : ℕ :=
  (pieces.map Piece.overhead).sum

def saved (pieces : List Piece) : ℕ :=
  (pieces.map Piece.saved).sum

/-- The run that is open at the end. -/
def closeRun (opn : List (List UInt8)) : List Piece :=
  if opn = [] then [] else [.run opn]

/-- The pieces of some segments, behind an open run. -/
def layout (opn : List (List UInt8)) : List (List UInt8) → List Piece
  | [] => closeRun opn
  | seg :: segs =>
    if opn = [] then
      if (nonzero seg).length = 8 then layout [seg] segs else .sparse seg :: layout [] segs
    else if 6 ≤ (nonzero seg).length then
      if opn.length + 1 = 256 then .run (opn ++ [seg]) :: layout [] segs
      else layout (opn ++ [seg]) segs
    else .run opn :: .sparse seg :: layout [] segs

/-- The number of segments of the last piece, if it is a run. -/
def lastRun (pieces : List Piece) : ℕ :=
  match pieces.getLast? with
  | some (.run segs) => segs.length
  | _ => 0

section Lists

variable {pieces pieces' : List Piece} {p : Piece}

@[simp] theorem bytes_nil : bytes [] = [] := rfl

@[simp] theorem bytes_cons : bytes (p :: pieces) = p.bytes ++ bytes pieces :=
  flatMap_cons

@[simp] theorem bytes_append : bytes (pieces ++ pieces') = bytes pieces ++ bytes pieces' :=
  flatMap_append

@[simp] theorem encode_nil : encode [] = [] := rfl

@[simp] theorem encode_cons : encode (p :: pieces) = p.encode ++ encode pieces :=
  flatMap_cons

@[simp] theorem encode_append : encode (pieces ++ pieces') = encode pieces ++ encode pieces' :=
  flatMap_append

@[simp] theorem overhead_cons : overhead (p :: pieces) = p.overhead + overhead pieces :=
  sum_cons

@[simp] theorem saved_cons : saved (p :: pieces) = p.saved + saved pieces :=
  sum_cons

theorem lastRun_append_run (segs : List (List UInt8)) :
    lastRun (pieces ++ [.run segs]) = segs.length := by
  rw [lastRun, getLast?_concat]

theorem lastRun_append_sparse (seg : List UInt8) : lastRun (pieces ++ [.sparse seg]) = 0 := by
  rw [lastRun, getLast?_concat]

end Lists

/-! ### Layouts -/

section Layout

variable {opn segs : List (List UInt8)} {seg : List UInt8}

theorem length_nonzero_le (seg : List UInt8) : (nonzero seg).length ≤ seg.length :=
  length_filter_le _ _

/-- **The pieces are the segments.** -/
theorem bytes_layout (opn segs : List (List UInt8)) :
    bytes (layout opn segs) = opn.flatten ++ segs.flatten := by
  induction segs generalizing opn with
  | nil =>
    rw [layout, closeRun, flatten_nil, append_nil]
    split_ifs with h
    · rw [h, bytes_nil, flatten_nil]
    · rw [bytes_cons, bytes_nil, append_nil, Piece.bytes]
  | cons seg segs ih =>
    rw [layout]
    split_ifs with hopn hfull hdense hlast
    · rw [ih, hopn, flatten_cons, flatten_nil, nil_append, append_nil,
        flatten_cons]
    · rw [bytes_cons, ih, hopn, Piece.bytes, flatten_nil, nil_append, nil_append,
        flatten_cons]
    · rw [bytes_cons, ih, Piece.bytes, flatten_append]
      simp
    · rw [ih, flatten_append]
      simp
    · rw [bytes_cons, bytes_cons, ih, Piece.bytes, Piece.bytes]
      simp

theorem valid_layout (opn segs : List (List UInt8)) (hopn : opn.length < 256)
    (hlen : ∀ seg ∈ opn ++ segs, seg.length = 8) :
    ∀ p ∈ layout opn segs, p.Valid := by
  induction segs generalizing opn with
  | nil =>
    rw [layout, closeRun]
    split_ifs with h
    · exact fun p hp => absurd hp not_mem_nil
    · rw [append_nil] at hlen
      exact forall_mem_singleton.mpr ⟨h, Nat.le_of_lt hopn, hlen⟩
  | cons seg segs ih =>
    have hseg : seg.length = 8 := hlen seg (by simp)
    have hsegs : ∀ seg ∈ segs, seg.length = 8 := fun seg h => hlen seg (by simp [h])
    have hopns : ∀ seg ∈ opn, seg.length = 8 := fun seg h => hlen seg (by simp [h])
    have hrest : ∀ p ∈ layout [] segs, p.Valid := ih [] (by decide) hsegs
    have hle := length_nonzero_le seg
    rw [layout]
    split_ifs with h hfull hdense hlast
    · exact ih [seg] (by simp) (forall_mem_cons.mpr ⟨hseg, hsegs⟩)
    · exact forall_mem_cons.mpr ⟨⟨hseg, by omega⟩, hrest⟩
    · have hne : opn ++ [seg] ≠ [] := append_ne_nil_of_right_ne_nil _ (cons_ne_nil _ _)
      refine forall_mem_cons.mpr ⟨⟨hne, ?_, ?_⟩, hrest⟩
      · exact Nat.le_of_eq (by rw [length_append, length_singleton, hlast])
      · exact forall_mem_append.mpr ⟨hopns, forall_mem_singleton.mpr hseg⟩
    · refine ih (opn ++ [seg]) ?_ (by rwa [append_assoc, singleton_append])
      rw [length_append, length_singleton]
      omega
    · refine forall_mem_cons.mpr ⟨⟨h, Nat.le_of_lt hopn, hopns⟩, ?_⟩
      exact forall_mem_cons.mpr ⟨⟨hseg, by omega⟩, hrest⟩

end Layout

/-! ### Lengths -/

section Lengths

variable {opn segs : List (List UInt8)} {pieces : List Piece}

theorem length_flatten_segs (h : ∀ seg ∈ segs, seg.length = 8) :
    segs.flatten.length = 8 * segs.length := by
  induction segs with
  | nil => rfl
  | cons seg segs ih =>
    obtain ⟨hseg, hsegs⟩ := forall_mem_cons.mp h
    rw [flatten_cons, length_append, hseg, ih hsegs, length_cons]
    omega

theorem Piece.length_encode_add {p : Piece} (h : p.Valid) :
    p.encode.length + p.saved = p.bytes.length + p.overhead := by
  cases p with
  | sparse seg =>
    obtain ⟨hlen, hlt⟩ := h
    simp only [Piece.encode, Piece.saved, Piece.bytes, Piece.overhead, length_cons]
    omega
  | run segs =>
    simp only [Piece.encode, Piece.saved, Piece.bytes, Piece.overhead, length_cons]

/-- **How long a packed string is.** -/
theorem length_encode_add (h : ∀ p ∈ pieces, p.Valid) :
    (encode pieces).length + saved pieces = (bytes pieces).length + overhead pieces := by
  induction pieces with
  | nil => rfl
  | cons p pieces ih =>
    obtain ⟨hp, hpieces⟩ := forall_mem_cons.mp h
    have hfirst := Piece.length_encode_add hp
    have hrest := ih hpieces
    simp only [encode_cons, saved_cons, bytes_cons, overhead_cons, length_append]
    omega

theorem le_length_encode_run (hlen : ∀ seg ∈ segs, seg.length = 8) (rest : List Piece) :
    2 + 8 * segs.length ≤ (encode (.run segs :: rest)).length := by
  rw [encode_cons, length_append, Piece.encode, length_cons, length_cons,
    length_flatten_segs hlen]
  omega

theorem le_length_encode_layout (opn segs : List (List UInt8)) (hopn : opn ≠ [])
    (hlen : ∀ seg ∈ opn ++ segs, seg.length = 8) :
    2 + 8 * opn.length ≤ (encode (layout opn segs)).length := by
  induction segs generalizing opn with
  | nil =>
    rw [append_nil] at hlen
    rw [layout, closeRun, if_neg hopn]
    exact le_length_encode_run hlen []
  | cons seg segs ih =>
    have hopns : ∀ seg ∈ opn, seg.length = 8 := fun seg h => hlen seg (by simp [h])
    have hmore : ∀ seg' ∈ opn ++ [seg], seg'.length = 8 := fun seg' h => hlen seg' (by
      rw [← singleton_append, ← append_assoc]
      exact mem_append_left segs h)
    have hlength : (opn ++ [seg]).length = opn.length + 1 := by
      rw [length_append, length_singleton]
    rw [layout, if_neg hopn]
    split_ifs with hdense hlast
    · have hrun := le_length_encode_run hmore (layout [] segs)
      omega
    · have hle := ih (opn ++ [seg])
        (append_ne_nil_of_right_ne_nil _ (cons_ne_nil _ _))
        (by rwa [append_assoc, singleton_append])
      omega
    · exact le_length_encode_run hopns _

/-- **What the headers cost is saved**, but for two bytes for 256 segments: a sparse segment has a
zero, and one that breaks a run has three. -/
theorem overhead_layout_le (hlen : ∀ seg ∈ segs, seg.length = 8) (hopn : opn.length < 256) :
    overhead (layout opn segs) ≤
      saved (layout opn segs) + 2 * ((opn.length + segs.length + 255) / 256) := by
  induction segs generalizing opn with
  | nil =>
    rw [layout, closeRun]
    split_ifs with h
    · exact Nat.zero_le _
    · have hpos := length_pos_iff.mpr h
      simp only [overhead, saved, map_cons, map_nil, sum_cons, sum_nil,
        Piece.overhead, Piece.saved, length_nil]
      omega
  | cons seg segs ih =>
    obtain ⟨hseg, hsegs⟩ := forall_mem_cons.mp hlen
    have hle := length_nonzero_le seg
    have hrest := @ih [] hsegs (by decide)
    rw [length_nil, Nat.zero_add] at hrest
    rw [layout, length_cons]
    split_ifs with h hfull hdense hlast
    · have hone := @ih [seg] hsegs (by simp)
      rw [length_singleton] at hone
      rw [h, length_nil]
      omega
    · simp only [overhead_cons, saved_cons, Piece.overhead, Piece.saved]
      omega
    · simp only [overhead_cons, saved_cons, Piece.overhead, Piece.saved]
      omega
    · have hmore := @ih (opn ++ [seg]) hsegs (by
        rw [length_append, length_singleton]
        omega)
      rw [length_append, length_singleton] at hmore
      omega
    · simp only [overhead_cons, saved_cons, Piece.overhead, Piece.saved]
      omega

end Lengths

/-! ### The segments of a string -/

/-- The segment that begins at `8 * k`, with zeros behind the end of the string. -/
def segmentAt (s : List UInt8) (k : ℕ) : List UInt8 :=
  (List.range 8).map fun j => s.getD (8 * k + j) 0

/-- The number of segments. -/
def segmentCount (len : ℕ) : ℕ :=
  (len + 7) / 8

def segments (s : List UInt8) : List (List UInt8) :=
  (List.range (segmentCount s.length)).map (segmentAt s)

/-- The zeros that fill up the last segment. -/
def padding (len : ℕ) : ℕ :=
  8 * segmentCount len - len

section Segments

variable {s : List UInt8} {k : ℕ}

theorem length_segmentAt : (segmentAt s k).length = 8 := by
  rw [segmentAt, length_map, length_range]

theorem length_of_mem_segments {seg : List UInt8} (h : seg ∈ segments s) : seg.length = 8 := by
  obtain ⟨k, -, rfl⟩ := mem_map.mp h
  exact length_segmentAt

theorem le_segmentCount (len : ℕ) : len ≤ 8 * segmentCount len := by
  rw [segmentCount]
  omega

theorem flatten_map_range {α : Type*} (f : ℕ → α) (m : ℕ) :
    ((List.range m).map fun k => (List.range 8).map fun j => f (8 * k + j)).flatten =
      (List.range (8 * m)).map f := by
  induction m with
  | zero => rfl
  | succ m ih =>
    rw [range_succ (n := m), map_append, flatten_append, ih, map_singleton,
      flatten_cons, flatten_nil, append_nil, Nat.mul_succ, range_add,
      map_append, map_map]
    rfl

/-- **The segments are the string, filled up with zeros.** -/
theorem flatten_segments (s : List UInt8) :
    (segments s).flatten = s ++ List.replicate (padding s.length) 0 := by
  have hle := le_segmentCount s.length
  refine (flatten_map_range (fun i => s.getD i 0) _).trans ?_
  refine ext_getElem ?_ fun i hi hi' => ?_
  · rw [length_map, length_range, length_append, length_replicate, padding]
    omega
  · rw [getElem_map, getElem_range]
    by_cases h : i < s.length
    · rw [getElem_append_left h, getD_eq_getElem _ _ h]
    · rw [getElem_append_right (Nat.le_of_not_lt h), getElem_replicate,
        getD_eq_default _ _ (Nat.le_of_not_lt h)]

/-- The segments from `a` on. -/
def segmentsFrom (s : List UInt8) (a c : ℕ) : List (List UInt8) :=
  (List.range c).map fun j => segmentAt s (a + j)

@[simp] theorem segmentsFrom_zero (s : List UInt8) (a : ℕ) : segmentsFrom s a 0 = [] := rfl

@[simp] theorem length_segmentsFrom (s : List UInt8) (a c : ℕ) :
    (segmentsFrom s a c).length = c := by
  rw [segmentsFrom, length_map, length_range]

theorem length_of_mem_segmentsFrom {a c : ℕ} {seg : List UInt8} (h : seg ∈ segmentsFrom s a c) :
    seg.length = 8 := by
  obtain ⟨j, -, rfl⟩ := mem_map.mp h
  exact length_segmentAt

theorem segmentsFrom_succ (s : List UInt8) (a c : ℕ) :
    segmentsFrom s a (c + 1) = segmentsFrom s a c ++ [segmentAt s (a + c)] := by
  rw [segmentsFrom, range_succ, map_append, map_singleton, segmentsFrom]

theorem segmentsFrom_eq_cons (s : List UInt8) (a c : ℕ) :
    segmentsFrom s a (c + 1) = segmentAt s a :: segmentsFrom s (a + 1) c := by
  rw [segmentsFrom, range_succ_eq_map, map_cons, map_map, segmentsFrom,
    Nat.add_zero]
  congr 1
  refine map_congr_left fun j _ => ?_
  rw [Function.comp_apply, Nat.succ_eq_add_one, Nat.add_right_comm, Nat.add_assoc]

theorem segmentsFrom_add (s : List UInt8) (a c d : ℕ) :
    segmentsFrom s a (c + d) = segmentsFrom s a c ++ segmentsFrom s (a + c) d := by
  rw [segmentsFrom, range_add, map_append, map_map, segmentsFrom, segmentsFrom]
  congr 1
  refine map_congr_left fun j _ => ?_
  rw [Function.comp_apply, Nat.add_assoc]

theorem segments_eq (s : List UInt8) : segments s = segmentsFrom s 0 (segmentCount s.length) := by
  rw [segments, segmentsFrom]
  refine map_congr_left fun j _ => ?_
  rw [Nat.zero_add]

theorem flatten_segmentsFrom (s : List UInt8) (a c : ℕ) :
    (segmentsFrom s a c).flatten = (List.range (8 * c)).map fun i => s.getD (8 * a + i) 0 := by
  refine Eq.trans ?_ (flatten_map_range (fun i => s.getD (8 * a + i) 0) c)
  refine congrArg List.flatten (map_congr_left fun k _ => ?_)
  refine map_congr_left fun j _ => ?_
  rw [Nat.mul_add, Nat.add_assoc]

/-- The segment that is read, with the zeros behind the end. -/
theorem map_append_replicate {f : ℕ → UInt8} {n p i : ℕ} (hf : ∀ j < s.length, f j = s.getD j 0)
    (hn : i + n ≤ s.length) (hp : p = 0 ∨ i + n = s.length) :
    (List.range n).map (fun j => f (i + j)) ++ List.replicate p 0 =
      (List.range (n + p)).map fun j => s.getD (i + j) 0 := by
  refine ext_getElem ?_ fun j hj hj' => ?_
  · rw [length_append, length_map, length_range, length_replicate,
      length_map, length_range]
  · rw [getElem_map, getElem_range]
    by_cases h : j < n
    · rw [getElem_append_left (by rwa [length_map, length_range]),
        getElem_map, getElem_range, hf _ (by omega)]
    · rw [getElem_append_right (by rw [length_map, length_range]; omega),
        getElem_replicate]
      rw [length_map, length_range] at hj'
      exact (getD_eq_default _ _ (by omega)).symm

/-- A segment without a zero is not filled up. -/
theorem le_of_full (h : (nonzero (segmentAt s k)).length = 8) : 8 * k + 8 ≤ s.length := by
  by_contra hlt
  have hall : ∀ b ∈ segmentAt s k, decide (b ≠ 0) = true := by
    refine length_filter_eq_length_iff.mp ?_
    rw [length_segmentAt]
    exact h
  have hlast : (0 : UInt8) ∈ segmentAt s k := by
    refine mem_map.mpr ⟨7, by decide, ?_⟩
    exact getD_eq_default _ _ (by omega)
  exact absurd (hall 0 hlast) (by decide)

end Segments

end ZeroPacking
