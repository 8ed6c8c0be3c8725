import Mtask.Lib.ZeroUnpacking
import Mtask.Sproto.PackingBound

/-!
# Unpacking any bytes

`sproto_unpack` counts down what is left of its source. Where a byte comes next, it only asks
whether the count is negative, so one byte more than there is can be taken: it is read if there is
room for it, and if no other byte is lacking, the segment is finished.
-/

namespace Mtask.Sproto

open Buffers ZeroPacking
open List

/-! ### The functions -/

/-- `sproto_unpack` with its sizes. -/
def sprotoUnpackInto (src : List UInt8) (srcsz : ℤ) (buf : List UInt8) (bufsz : ℤ) :
    Except PackFault (ℕ × List UInt8) :=
  match unpackLoop src.length ⟨src, srcsz, buf, 0, bufsz, 0⟩ with
  | .ok st => .ok (st.size, st.buf)
  | .error e => .error e

/-- `lunpack` raises an error when `sproto_unpack` has returned `-1`. -/
def LpackFault.ofUnpack : PackFault → LpackFault
  | .invalid => .raised "Invalid unpack stream"
  | e => .fault e

/-- `lunpack`: the string, and how often the userdata has been doubled. -/
def lunpack (src : List UInt8) (output : Output) (fresh : ℕ → UInt8) :
    Except LpackFault (List UInt8 × ℕ) :=
  match sprotoUnpackInto src (toInt src.length) output.bytes output.bytes.length with
  | .error e => .error (.ofUnpack e)
  | .ok (r, buf) =>
    if output.bytes.length < r then
      match expandBuffer output r fresh with
      | .error e => .error e
      | .ok output =>
        match sprotoUnpackInto src (toInt src.length) output.bytes r with
        | .error e => .error (.ofUnpack e)
        | .ok (r, buf) => .ok (buf.take r, output.doublings)
    else .ok (buf.take r, output.doublings)

/-! ### What it should do -/

/-- What `sproto_unpack` should do: it reads and writes nothing outside, it returns `-1` if the
source ends in the middle of a segment, and else the size of what the source stands for, so that a
buffer of that size is enough. -/
def Unpacks (src buf : List UInt8) : Prop :=
  match sprotoUnpack src buf with
  | .ok (n, _) => remainder src = [] ∧ n = (unpacked src).length ∧
      ∀ (buf' : List UInt8) (bufsz : ℕ), n ≤ bufsz → bufsz ≤ buf'.length →
        sprotoUnpackInto src src.length buf' bufsz = .ok (n, unpacked src ++ buf'.drop n)
  | .error e => e = .invalid ∧ remainder src ≠ []

/-- The end of the source is found in the middle of a segment, when `done` bytes have been unpacked:
the data of a run are too short; or two bytes at least are lacking, there is no room for the first
one, and the bytes in front of the second one are within the range of `int`. -/
def Seen (bufsz done : ℕ) : List UInt8 → Prop
  | [] => False
  | header :: src =>
    if header = 0xff then src ≠ [] ∧ done ≤ intMax
    else ∃ i j l, lackingAt header 0 bitPlaces src = i :: j :: l ∧ bufsz ≤ done + i ∧
      done + j ≤ intMax

/-- The sources that are unpacked: what they stand for is within the range of `int`, or their end is
found. -/
def Handled (src : List UInt8) (bufsz : ℕ) : Prop :=
  remainder src = [] ∧ (unpacked src).length ≤ intMax ∨
    Seen bufsz (unpacked src).length (remainder src)

/-! ### One segment -/

/-- Where `sproto_unpack` is when `out` has been unpacked. -/
structure Going (buf : List UInt8) (bufsz : ℕ) (out : List UInt8) (st : UnpackState) : Prop where
  size : st.size = out.length
  length : st.buf.length = buf.length
  room : 0 < st.bufsz → st.buffer = out.length ∧ st.bufsz + out.length = bufsz
  full : st.bufsz ≤ 0 → bufsz ≤ out.length
  lower : -(out.length : ℤ) ≤ st.bufsz
  written : out.length ≤ bufsz → st.buf = out ++ buf.drop out.length

namespace Going

variable {buf out : List UInt8} {bufsz : ℕ} {st : UnpackState}

theorem begin (src : List UInt8) (srcsz : ℤ) :
    Going buf bufsz [] ⟨src, srcsz, buf, 0, bufsz, 0⟩ where
  size := rfl
  length := rfl
  room _ := ⟨rfl, Int.add_zero _⟩
  full h := by simpa using h
  lower := by simp
  written _ := rfl

theorem congr (h : Going buf bufsz out st) (src : List UInt8) (srcsz : ℤ) :
    Going buf bufsz out { st with src, srcsz } :=
  ⟨h.size, h.length, h.room, h.full, h.lower, h.written⟩

theorem write (h : Going buf bufsz out st) (hle : bufsz ≤ buf.length) (bytes : List UInt8)
    (hpos : 0 < st.bufsz) (hroom : (bytes.length : ℤ) ≤ st.bufsz) :
    ∃ buf', Sproto.write st.buf st.buffer bytes = .ok buf' ∧ buf'.length = buf.length ∧
      buf' = out ++ bytes ++ buf.drop (out.length + bytes.length) := by
  obtain ⟨hbuffer, hsum⟩ := h.room hpos
  have hbuf := h.written (by omega)
  have hsome : (store st.buf st.buffer bytes).isSome := store_isSome (by rw [h.length]; omega)
  obtain ⟨buf', hstore⟩ := Option.isSome_iff_exists.mp hsome
  refine ⟨buf', by rw [Sproto.write, hstore], (length_store hstore).trans h.length, ?_⟩
  rw [store_eq hstore, hbuffer, hbuf, take_left, ← drop_drop, drop_left,
    drop_drop]

theorem emit (h : Going buf bufsz out st) (hle : bufsz ≤ buf.length) (b : UInt8)
    (hsmall : out.length < intMax) : ∃ st', st.emit b = .ok st' ∧
      Going buf bufsz (out ++ [b]) st' ∧ st'.src = st.src ∧ st'.srcsz = st.srcsz := by
  have hlen : (out ++ [b]).length = out.length + 1 := length_append
  rw [UnpackState.emit, h.size, if_neg (by omega)]
  split_ifs with hpos
  · obtain ⟨buf', hwrite, hlength, hbuf'⟩ := h.write hle [b] hpos hpos
    obtain ⟨hbuffer, hsum⟩ := h.room hpos
    rw [hwrite]
    refine ⟨_, rfl, ⟨hlen.symm, hlength, fun _ => ⟨?_, ?_⟩, fun hfull => ?_, ?_, fun _ => ?_⟩,
      rfl, rfl⟩
    · simp only [hbuffer, hlen]
    · simp only [hlen, Nat.cast_add, Nat.cast_one]
      omega
    · simp only at hfull
      omega
    · simp only [hlen, Nat.cast_add, Nat.cast_one]
      omega
    · simp only [hbuf', hlen, length_singleton]
  · have hfull := h.full (Int.not_lt.mp hpos)
    have hlower := h.lower
    refine ⟨_, rfl, ⟨hlen.symm, h.length, fun hpos' => absurd hpos' hpos, fun _ => ?_, ?_,
      fun hle' => ?_⟩, rfl, rfl⟩
    · omega
    · rw [hlen, Nat.cast_add, Nat.cast_one]
      simp only
      omega
    · omega

theorem emit_overflow (h : Going buf bufsz out st) (b : UInt8) (hlarge : intMax ≤ out.length) :
    st.emit b = .error .overflow := by
  rw [UnpackState.emit, h.size, if_pos (by omega)]

end Going

/-- `out` is followed by `seg`, and `rest` is left, unless the output is too long for an `int`. -/
def Yields (buf : List UInt8) (bufsz : ℕ) (out seg rest : List UInt8)
    (r : Except PackFault UnpackState) : Prop :=
  if out.length + seg.length ≤ intMax then
    ∃ st, r = .ok st ∧ Going buf bufsz (out ++ seg) st ∧ st.src = rest ∧ st.srcsz = rest.length
  else r = .error .overflow

variable {st' : UnpackState} {done : ℕ}

section Segment

variable {buf out : List UInt8} {bufsz : ℕ} {st : UnpackState} {header i b : UInt8}
  {bits src seg rest : List UInt8} {k : ℕ}

theorem unpackBits_cons_of_not (hi : ¬Comes header i) :
    unpackBits header st (i :: bits) = match st.emit 0 with
      | .ok st => unpackBits header st bits
      | .error e => .error e := by
  rw [unpackBits]
  exact if_neg hi

theorem unpackBits_cons_of_comes (hi : Comes header i) (hsrc : st.src = b :: src)
    (hsrcsz : 0 ≤ st.srcsz) :
    unpackBits header st (i :: bits) =
      match { st with src, srcsz := st.srcsz - 1 }.emit b with
      | .ok st => unpackBits header st bits
      | .error e => .error e := by
  rw [unpackBits]
  refine (if_pos hi).trans ?_
  rw [if_neg (Int.not_lt.mpr hsrcsz), hsrc, if_neg fun h => cons_ne_nil _ _ h.2]
  rfl

section

variable (h : Going buf bufsz out st) (hle : bufsz ≤ buf.length)
include h hle

theorem yields_emit (b : UInt8) {f : UnpackState → Except PackFault UnpackState}
    (hf : ∀ st', Going buf bufsz (out ++ [b]) st' → (out ++ [b]).length ≤ intMax →
      st'.src = st.src → st'.srcsz = st.srcsz → Yields buf bufsz (out ++ [b]) seg rest (f st')) :
    Yields buf bufsz out (b :: seg) rest (match st.emit b with
      | .ok st => f st
      | .error e => .error e) := by
  have hlen : (out ++ [b]).length = out.length + 1 := length_append
  rcases Nat.lt_or_ge out.length intMax with hsmall | hfull
  · obtain ⟨st', hemit, h', hsrc, hsrcsz⟩ := h.emit hle b hsmall
    have hyields := hf st' h' (by rwa [hlen]) hsrc hsrcsz
    rw [Yields, hlen, append_assoc] at hyields
    rw [hemit, Yields, length_cons, Nat.add_comm seg.length, ← Nat.add_assoc]
    exact hyields
  · rw [h.emit_overflow b hfull, Yields, length_cons, if_neg (by omega)]

theorem unpackBits_yields (hsrcsz : st.srcsz = st.src.length)
    (hspread : spread header bits st.src = some (seg, rest)) (hout : out.length ≤ intMax) :
    Yields buf bufsz out seg rest (unpackBits header st bits) := by
  induction bits generalizing st out seg with
  | nil =>
    obtain ⟨rfl, rfl⟩ := Prod.mk.inj (Option.some.inj hspread)
    rw [Yields, append_nil]
    exact (if_pos hout).mpr ⟨st, rfl, h, rfl, hsrcsz⟩
  | cons i bits ih =>
    by_cases hi : Comes header i
    · rcases hsrc : st.src with _ | ⟨b, src⟩
      · rw [hsrc, spread_cons_nil hi] at hspread
        cases hspread
      · rw [hsrc, length_cons] at hsrcsz
        rw [hsrc, spread_cons_of_comes hi, Option.map_eq_some_iff] at hspread
        obtain ⟨⟨seg', rest'⟩, hspread, heq⟩ := hspread
        obtain ⟨rfl, rfl⟩ := Prod.mk.inj heq
        rw [unpackBits_cons_of_comes hi hsrc (by omega)]
        refine yields_emit (h.congr src (st.srcsz - 1)) hle b fun st₁ h₁ hout₁ hsrc₁ hsrcsz₁ => ?_
        exact ih h₁ (by rw [hsrcsz₁, hsrc₁]; simp only; omega) (by rw [hsrc₁]; exact hspread) hout₁
    · rw [spread_cons_of_not hi, Option.map_eq_some_iff] at hspread
      obtain ⟨⟨seg', rest'⟩, hspread, heq⟩ := hspread
      obtain ⟨rfl, rfl⟩ := Prod.mk.inj heq
      rw [unpackBits_cons_of_not hi]
      refine yields_emit h hle 0 fun st₁ h₁ hout₁ hsrc₁ hsrcsz₁ => ?_
      exact ih h₁ (by rw [hsrcsz₁, hsrc₁, hsrcsz]) (by rw [hsrc₁]; exact hspread) hout₁

theorem unpackBits_srcsz_le (heq : unpackBits header st bits = .ok st') : st'.srcsz ≤ st.srcsz := by
  induction bits generalizing st out with
  | nil => exact Int.le_of_eq (congrArg UnpackState.srcsz (Except.ok.inj heq)).symm
  | cons i bits ih =>
    by_cases hi : Comes header i
    · rw [unpackBits] at heq
      replace heq := (if_pos hi).symm.trans heq
      split_ifs at heq
      have hgoing := h.congr st.src.tail (st.srcsz - 1)
      rcases Nat.lt_or_ge out.length intMax with hsmall | hfull
      · obtain ⟨st₁, hemit, h₁, -, hsrcsz₁⟩ := hgoing.emit hle (st.src.headD 0) hsmall
        rw [hemit] at heq
        have := ih h₁ heq
        simp only at hsrcsz₁
        omega
      · rw [hgoing.emit_overflow _ hfull] at heq
        cases heq
    · rw [unpackBits_cons_of_not hi] at heq
      rcases Nat.lt_or_ge out.length intMax with hsmall | hfull
      · obtain ⟨st₁, hemit, h₁, -, hsrcsz₁⟩ := h.emit hle 0 hsmall
        rw [hemit] at heq
        exact hsrcsz₁ ▸ ih h₁ heq
      · rw [h.emit_overflow 0 hfull] at heq
        cases heq

/-- One byte more than there is has been taken: the next one that is lacking is found. -/
theorem unpackBits_beyond (hsrcsz : st.srcsz < 0) (hout : out.length ≤ intMax) (k : ℕ) :
    unpackBits header st bits = .error .invalid ↔
      ∃ j l, lackingAt header k bits [] = j :: l ∧ out.length + j ≤ intMax + k := by
  induction bits generalizing st out k with
  | nil => exact iff_of_false (by rintro ⟨⟩) (by simp [lackingAt])
  | cons i bits ih =>
    by_cases hi : Comes header i
    · rw [unpackBits, lackingAt_cons_nil hi]
      exact iff_of_true ((if_pos hi).trans (if_pos hsrcsz))
        ⟨k, _, rfl, Nat.add_le_add_right hout k⟩
    · rw [unpackBits_cons_of_not hi, lackingAt_cons_of_not hi]
      rcases Nat.lt_or_ge out.length intMax with hsmall | hfull
      · obtain ⟨st₁, hemit, h₁, -, hsrcsz₁⟩ := h.emit hle 0 hsmall
        have hlen : (out ++ [0]).length = out.length + 1 := length_append
        rw [hemit]
        refine (ih h₁ (by rw [hsrcsz₁]; exact hsrcsz) (by rw [hlen]; exact hsmall) (k + 1)).trans ?_
        rw [hlen]
        simp only [Nat.add_right_comm _ 1, ← Nat.add_assoc, Nat.add_le_add_iff_right]
      · rw [h.emit_overflow 0 hfull]
        refine iff_of_false (by rintro ⟨⟩) ?_
        rintro ⟨j, l, hgaps, hj⟩
        have hk := le_of_mem_lackingAt (hgaps ▸ mem_cons_self : j ∈ lackingAt header (k + 1) bits [])
        omega

end

theorem seen_succ {l : List ℕ} {done' : ℕ} (h : done' = done + 1) :
    (∃ i j m, l = i :: j :: m ∧ bufsz + k ≤ done + i ∧ done + j ≤ intMax + k) ↔
      ∃ i j m, l = i :: j :: m ∧ bufsz + (k + 1) ≤ done' + i ∧ done' + j ≤ intMax + (k + 1) := by
  subst h
  simp only [Nat.add_right_comm _ 1, ← Nat.add_assoc, Nat.add_le_add_iff_right]

theorem not_seen_of_le (h : intMax ≤ done) :
    ¬∃ i j m, lackingAt header (k + 1) bits src = i :: j :: m ∧ bufsz + k ≤ done + i ∧
      done + j ≤ intMax + k := by
  rintro ⟨i, j, m, hgaps, -, hj⟩
  have hmem : j ∈ lackingAt header (k + 1) bits src :=
    hgaps ▸ mem_cons_of_mem _ mem_cons_self
  have hk := le_of_mem_lackingAt hmem
  omega

section

variable (h : Going buf bufsz out st) (hle : bufsz ≤ buf.length) (hsrcsz : st.srcsz = st.src.length)
include h hle hsrcsz

/-- The end of the source is found in the bytes of a header: two of them are lacking, and the first
one is not read. -/
theorem unpackBits_invalid_iff (hout : out.length ≤ intMax) (k : ℕ) :
    unpackBits header st bits = .error .invalid ↔
      ∃ i j l, lackingAt header k bits st.src = i :: j :: l ∧ bufsz + k ≤ out.length + i ∧
        out.length + j ≤ intMax + k := by
  induction bits generalizing st out k with
  | nil => exact iff_of_false (by rintro ⟨⟩) (by simp [lackingAt])
  | cons i bits ih =>
    have hlen (b : UInt8) : (out ++ [b]).length = out.length + 1 := length_append
    by_cases hi : Comes header i
    · rcases hsrc : st.src with _ | ⟨b, src⟩
      · -- the first byte that is lacking
        rw [hsrc, length_nil, Nat.cast_zero] at hsrcsz
        rw [unpackBits, lackingAt_cons_nil hi]
        refine Iff.trans (Eq.congr_left ((if_pos hi).trans (if_neg (by omega)))) ?_
        by_cases hpos : 0 < st.bufsz
        · have hroom := (h.room hpos).2
          rw [if_pos ⟨hpos, hsrc⟩]
          refine iff_of_false (by rintro ⟨⟩) ?_
          rintro ⟨_, j, l, hgaps, hbufsz, -⟩
          obtain ⟨rfl, -⟩ := List.cons.inj hgaps
          omega
        · have hfull := h.full (Int.not_lt.mp hpos)
          rw [if_neg fun hread => hpos hread.1]
          have hgoing := h.congr st.src.tail (st.srcsz - 1)
          rcases Nat.lt_or_ge out.length intMax with hsmall | hlarge
          · obtain ⟨st₁, hemit, h₁, -, hsrcsz₁⟩ := hgoing.emit hle (st.src.headD 0) hsmall
            rw [hemit]
            refine (unpackBits_beyond h₁ hle (by simp only at hsrcsz₁; omega)
              (by rw [hlen]; exact hsmall) (k + 1)).trans ?_
            rw [hlen]
            refine ⟨?_, ?_⟩
            · rintro ⟨j, l, hgaps, hj⟩
              exact ⟨k, j, l, by rw [hgaps], by omega, by omega⟩
            · rintro ⟨_, j, l, hgaps, -, hj⟩
              exact ⟨j, l, (List.cons.inj hgaps).2, by omega⟩
          · rw [hgoing.emit_overflow _ hlarge]
            refine iff_of_false (by rintro ⟨⟩) ?_
            rintro ⟨_, j, l, hgaps, -, hj⟩
            have hmem : j ∈ lackingAt header (k + 1) bits [] :=
              (List.cons.inj hgaps).2 ▸ mem_cons_self
            have hk := le_of_mem_lackingAt hmem
            omega
      · rw [hsrc, length_cons] at hsrcsz
        have hgoing := h.congr src (st.srcsz - 1)
        rw [unpackBits_cons_of_comes hi hsrc (by omega), lackingAt_cons_of_comes hi]
        rcases Nat.lt_or_ge out.length intMax with hsmall | hlarge
        · obtain ⟨st₁, hemit, h₁, hsrc₁, hsrcsz₁⟩ := hgoing.emit hle b hsmall
          simp only at hsrc₁ hsrcsz₁
          rw [hemit, seen_succ (hlen b), ← hsrc₁]
          exact ih h₁ (by rw [hsrc₁]; omega) (by rw [hlen]; exact hsmall) (k + 1)
        · rw [hgoing.emit_overflow b hlarge]
          exact iff_of_false (by rintro ⟨⟩) (not_seen_of_le hlarge)
    · rw [unpackBits_cons_of_not hi, lackingAt_cons_of_not hi]
      rcases Nat.lt_or_ge out.length intMax with hsmall | hlarge
      · obtain ⟨st₁, hemit, h₁, hsrc₁, hsrcsz₁⟩ := h.emit hle 0 hsmall
        rw [hemit, seen_succ (hlen 0), ← hsrc₁]
        exact ih h₁ (by rw [hsrcsz₁, hsrc₁, hsrcsz]) (by rw [hlen]; exact hsmall) (k + 1)
      · rw [h.emit_overflow 0 hlarge]
        exact iff_of_false (by rintro ⟨⟩) (not_seen_of_le hlarge)

/-- If only one byte is lacking, the loop over the bits ends behind the source. -/
theorem srcsz_neg_of_lacking (hspread : spread header bits st.src = none)
    (heq : unpackBits header st bits = .ok st') : st'.srcsz < 0 := by
  induction bits generalizing st out with
  | nil => cases hspread
  | cons i bits ih =>
    by_cases hi : Comes header i
    · rcases hsrc : st.src with _ | ⟨b, src⟩
      · rw [hsrc, length_nil, Nat.cast_zero] at hsrcsz
        rw [unpackBits] at heq
        replace heq := (if_pos hi).symm.trans heq
        split_ifs at heq
        have hgoing := h.congr st.src.tail (st.srcsz - 1)
        rcases Nat.lt_or_ge out.length intMax with hsmall | hlarge
        · obtain ⟨st₁, hemit, h₁, -, hsrcsz₁⟩ := hgoing.emit hle (st.src.headD 0) hsmall
          rw [hemit] at heq
          have := unpackBits_srcsz_le h₁ hle heq
          simp only at hsrcsz₁
          omega
        · rw [hgoing.emit_overflow _ hlarge] at heq
          cases heq
      · rw [hsrc, length_cons] at hsrcsz
        have hgoing := h.congr src (st.srcsz - 1)
        rw [hsrc, spread_cons_of_comes hi, Option.map_eq_none_iff] at hspread
        rw [unpackBits_cons_of_comes hi hsrc (by omega)] at heq
        rcases Nat.lt_or_ge out.length intMax with hsmall | hlarge
        · obtain ⟨st₁, hemit, h₁, hsrc₁, hsrcsz₁⟩ := hgoing.emit hle b hsmall
          simp only at hsrc₁ hsrcsz₁
          rw [hemit] at heq
          exact ih h₁ (by rw [hsrc₁]; omega) (by rw [hsrc₁]; exact hspread) heq
        · rw [hgoing.emit_overflow b hlarge] at heq
          cases heq
    · rw [spread_cons_of_not hi, Option.map_eq_none_iff] at hspread
      rw [unpackBits_cons_of_not hi] at heq
      rcases Nat.lt_or_ge out.length intMax with hsmall | hlarge
      · obtain ⟨st₁, hemit, h₁, hsrc₁, hsrcsz₁⟩ := h.emit hle 0 hsmall
        rw [hemit] at heq
        exact ih h₁ (by rw [hsrcsz₁, hsrc₁, hsrcsz]) (by rw [hsrc₁]; exact hspread) heq
      · rw [h.emit_overflow 0 hlarge] at heq
        cases heq

end

end Segment

/-! ### The loop -/

section Loop

variable {buf out : List UInt8} {bufsz : ℕ} {st : UnpackState} {header : UInt8}
  {src seg rest : List UInt8}

/-- The round of the loop behind a header. -/
def unpackSegment (header : UInt8) (st : UnpackState) : Except PackFault UnpackState :=
  if header = 0xff then unpackRun st else unpackBits header st bitPlaces

variable {fuel : ℕ}

theorem unpackLoop_cons (hsrc : st.src = header :: src) (hpos : 0 < st.srcsz) :
    unpackLoop (fuel + 1) st =
      match unpackSegment header { st with src, srcsz := st.srcsz - 1 } with
      | .ok st => unpackLoop fuel st
      | .error e => .error e := by
  rw [unpackLoop, if_pos hpos, hsrc]
  rfl

theorem unpackLoop_of_le (h : st.srcsz ≤ 0) : unpackLoop fuel st = .ok st := by
  cases fuel with
  | zero => rfl
  | succ fuel => rw [unpackLoop, if_neg (Int.not_lt.mpr h)]

section Run

variable {count : UInt8}

theorem unpackRun_nil (hsrcsz : st.srcsz = st.src.length) (hsrc : st.src = []) :
    unpackRun st = .error .outOfBounds := by
  rw [hsrc, length_nil, Nat.cast_zero] at hsrcsz
  rw [unpackRun, hsrc]
  exact if_neg (by omega)

theorem unpackRun_short (hsrcsz : st.srcsz = st.src.length) (hsrc : st.src = count :: src)
    (hlen : src.length < (count.toNat + 1) * 8) : unpackRun st = .error .invalid := by
  rw [hsrc, length_cons] at hsrcsz
  rw [unpackRun, hsrc]
  exact if_pos (by omega)

theorem unpackRun_overflow (h : Going buf bufsz out st) (hsrcsz : st.srcsz = st.src.length)
    (hsrc : st.src = count :: src) (hlen : (count.toNat + 1) * 8 ≤ src.length)
    (hlarge : intMax < out.length + (count.toNat + 1) * 8) :
    unpackRun st = .error .overflow := by
  rw [hsrc, length_cons] at hsrcsz
  rw [unpackRun, hsrc]
  refine (if_neg (by omega)).trans (if_pos (.inl ?_))
  rw [h.size]
  exact hlarge

theorem unpackRun_ok (h : Going buf bufsz out st) (hle : bufsz ≤ buf.length)
    (hsrcsz : st.srcsz = st.src.length) (hsrc : st.src = count :: src)
    (hlen : (count.toNat + 1) * 8 ≤ src.length)
    (hsmall : out.length + (count.toNat + 1) * 8 ≤ intMax) :
    ∃ st', unpackRun st = .ok st' ∧
      Going buf bufsz (out ++ src.take ((count.toNat + 1) * 8)) st' ∧
      st'.src = src.drop ((count.toNat + 1) * 8) ∧
      st'.srcsz = (src.drop ((count.toNat + 1) * 8)).length := by
  have hpos : 0 < (count.toNat + 1) * 8 := by omega
  have hlower := h.lower
  rw [hsrc, length_cons] at hsrcsz
  rw [unpackRun, hsrc]
  simp only
  generalize (count.toNat + 1) * 8 = n at hlen hsmall hpos ⊢
  have htake : (src.take n).length = n := length_take_of_le hlen
  have hout : (out ++ src.take n).length = out.length + n := by
    rw [length_append, htake]
  have hover : ¬(intMax < st.size + n ∨ st.bufsz - n < intMin) := by
    rw [h.size]
    simp only [intMax, intMin] at hsmall ⊢
    omega
  rw [if_neg (by omega), if_neg hover]
  have hrest : st.srcsz - (n + 1) = (src.drop n).length := by
    rw [length_drop]
    omega
  split_ifs with hroom
  · have hbufsz : 0 < st.bufsz := by omega
    obtain ⟨buf', hwrite, hlength, hbuf'⟩ := h.write hle _ hbufsz (by rw [htake]; exact hroom)
    obtain ⟨hbuffer, hsum⟩ := h.room hbufsz
    rw [hwrite]
    refine ⟨_, rfl, ⟨?_, hlength, fun _ => ⟨?_, ?_⟩, fun hfull => ?_, ?_, fun _ => ?_⟩, rfl, hrest⟩
    · rw [hout, h.size]
    · rw [hout, hbuffer]
    · rw [hout, Nat.cast_add]
      simp only
      omega
    · simp only at hfull
      omega
    · rw [hout, Nat.cast_add]
      simp only
      omega
    · rw [hbuf', htake, hout]
  · have hbufsz : bufsz < out.length + n := by
      rcases Int.lt_or_le 0 st.bufsz with hbufsz | hbufsz
      · have hsum := (h.room hbufsz).2
        omega
      · have hfull := h.full hbufsz
        omega
    refine ⟨_, rfl, ⟨?_, h.length, fun hpos' => ?_, fun _ => ?_, ?_, fun hle' => ?_⟩, rfl, hrest⟩
    · rw [hout, h.size]
    · simp only at hpos'
      omega
    · rw [hout]
      exact Nat.le_of_lt hbufsz
    · rw [hout, Nat.cast_add]
      simp only
      omega
    · rw [hout] at hle'
      omega

end Run

/-! ### One round -/

section

variable (h : Going buf bufsz out st) (hle : bufsz ≤ buf.length) (hsrcsz : st.srcsz = st.src.length)
include h hle hsrcsz

theorem unpackSegment_yields (hcut : cutSegment (header :: st.src) = some (seg, rest))
    (hout : out.length ≤ intMax) : Yields buf bufsz out seg rest (unpackSegment header st) := by
  by_cases hff : header = 0xff
  · subst hff
    rcases hsrc : st.src with _ | ⟨count, src⟩
    · rw [hsrc] at hcut
      cases hcut
    · rw [hsrc, cutSegment_run] at hcut
      split_ifs at hcut with hlen
      obtain ⟨rfl, rfl⟩ := Prod.mk.inj (Option.some.inj hcut)
      rw [Yields, length_take_of_le (Nat.not_lt.mp hlen)]
      split_ifs with hsmall
      · exact unpackRun_ok h hle hsrcsz hsrc (Nat.not_lt.mp hlen) hsmall
      · exact unpackRun_overflow h hsrcsz hsrc (Nat.not_lt.mp hlen) (Nat.not_le.mp hsmall)
  · rw [cutSegment_header hff] at hcut
    rw [unpackSegment, if_neg hff]
    exact unpackBits_yields h hle hsrcsz hcut hout

/-- The end of the source is found in a segment. -/
theorem unpackSegment_invalid_iff (hcut : cutSegment (header :: st.src) = none)
    (hout : out.length ≤ intMax) :
    unpackSegment header st = .error .invalid ↔ Seen bufsz out.length (header :: st.src) := by
  by_cases hff : header = 0xff
  · subst hff
    rw [unpackSegment, if_pos rfl, Seen, if_pos rfl]
    rcases hsrc : st.src with _ | ⟨count, src⟩
    · rw [unpackRun_nil hsrcsz hsrc]
      exact iff_of_false (by rintro ⟨⟩) fun h => h.1 rfl
    · rw [hsrc, cutSegment_run] at hcut
      split_ifs at hcut with hlen
      rw [unpackRun_short hsrcsz hsrc hlen]
      exact iff_of_true rfl ⟨cons_ne_nil _ _, hout⟩
  · rw [unpackSegment, if_neg hff, Seen, if_neg hff]
    exact unpackBits_invalid_iff h hle hsrcsz hout 0

/-- A segment that is not complete ends the loop. -/
theorem srcsz_neg_of_cut (hcut : cutSegment (header :: st.src) = none)
    (heq : unpackSegment header st = .ok st') : st'.srcsz < 0 := by
  by_cases hff : header = 0xff
  · subst hff
    rw [unpackSegment, if_pos rfl] at heq
    rcases hsrc : st.src with _ | ⟨count, src⟩
    · rw [unpackRun_nil hsrcsz hsrc] at heq
      cases heq
    · rw [hsrc, cutSegment_run] at hcut
      split_ifs at hcut with hlen
      rw [unpackRun_short hsrcsz hsrc hlen] at heq
      cases heq
  · rw [cutSegment_header hff] at hcut
    rw [unpackSegment, if_neg hff] at heq
    exact srcsz_neg_of_lacking h hle hsrcsz hcut heq

end

/-! ### All rounds -/

theorem unpackLoop_segment (fuel : ℕ) (h : Going buf bufsz out st) (hle : bufsz ≤ buf.length)
    (hsrcsz : st.srcsz = st.src.length) (hcut : cutSegment st.src = some (seg, rest))
    (hout : out.length ≤ intMax) :
    intMax < out.length + seg.length ∧ unpackLoop (fuel + 1) st = .error .overflow ∨
      out.length + seg.length ≤ intMax ∧ ∃ st', unpackLoop (fuel + 1) st = unpackLoop fuel st' ∧
        Going buf bufsz (out ++ seg) st' ∧ st'.src = rest ∧ st'.srcsz = st'.src.length := by
  rcases hsrc : st.src with _ | ⟨header, src⟩
  · rw [hsrc] at hcut
    cases hcut
  · rw [hsrc] at hsrcsz hcut
    rw [length_cons] at hsrcsz
    have hyields := unpackSegment_yields (h.congr src (st.srcsz - 1)) hle (by simp only; omega) hcut hout
    rw [unpackLoop_cons hsrc (by omega)]
    rw [Yields] at hyields
    split_ifs at hyields with hsmall
    · obtain ⟨st', heq, h', hsrc', hsrcsz'⟩ := hyields
      rw [heq]
      exact .inr ⟨hsmall, st', rfl, h', hsrc', by rw [hsrcsz', hsrc']⟩
    · rw [hyields]
      exact .inl ⟨Nat.not_le.mp hsmall, rfl⟩

/-- **What is complete is unpacked**, unless it is too much for an `int`. -/
theorem unpackLoop_complete (h : Going buf bufsz out st) (hle : bufsz ≤ buf.length)
    (hsrcsz : st.srcsz = st.src.length) (hfuel : st.src.length ≤ fuel)
    (hend : remainder st.src = []) (hout : out.length ≤ intMax) :
    intMax < out.length + (unpacked st.src).length ∧ unpackLoop fuel st = .error .overflow ∨
      out.length + (unpacked st.src).length ≤ intMax ∧
        ∃ st', unpackLoop fuel st = .ok st' ∧ Going buf bufsz (out ++ unpacked st.src) st' := by
  induction fuel generalizing st out with
  | zero =>
    rw [length_eq_zero_iff.mp (Nat.le_zero.mp hfuel), unpacked_of_none rfl, append_nil]
    exact .inr ⟨hout, st, rfl, h⟩
  | succ fuel ih =>
    rcases hcut : cutSegment st.src with _ | ⟨seg, rest⟩
    · rw [remainder_of_none hcut] at hend
      rw [hend, length_nil, Nat.cast_zero] at hsrcsz
      rw [unpackLoop_of_le (Int.le_of_eq hsrcsz), hend, unpacked_of_none rfl, append_nil]
      exact .inr ⟨hout, st, rfl, h⟩
    · have hrest := length_cutSegment hcut
      rw [remainder_of_cut hcut] at hend
      rw [unpacked_of_cut hcut, length_append, ← Nat.add_assoc, ← append_assoc]
      obtain ⟨hover, heq⟩ | ⟨hsmall, st₁, heq, h₁, rfl, hsrcsz₁⟩ :=
        unpackLoop_segment fuel h hle hsrcsz hcut hout
      · exact .inl ⟨Nat.lt_add_right _ hover, heq⟩
      · rw [heq, ← length_append]
        exact ih h₁ hsrcsz₁ (by omega) hend (by rwa [length_append])

theorem Seen.le (h : Seen bufsz done src) : done ≤ intMax := by
  rcases src with _ | ⟨header, src⟩
  · exact h.elim
  · rw [Seen] at h
    split_ifs at h
    · exact h.2
    · obtain ⟨i, j, l, -, -, hj⟩ := h
      exact Nat.le_trans (Nat.le_add_right _ _) hj

/-- **The end of the source in the middle of a segment.** -/
theorem unpackLoop_invalid_iff {fuel : ℕ} (h : Going buf bufsz out st) (hle : bufsz ≤ buf.length)
    (hsrcsz : st.srcsz = st.src.length) (hfuel : st.src.length ≤ fuel) (hout : out.length ≤ intMax) :
    unpackLoop fuel st = .error .invalid ↔
      Seen bufsz (out.length + (unpacked st.src).length) (remainder st.src) := by
  induction fuel generalizing st out with
  | zero =>
    rw [length_eq_zero_iff.mp (Nat.le_zero.mp hfuel), remainder_of_none rfl]
    exact iff_of_false (by rintro ⟨⟩) id
  | succ fuel ih =>
    rcases hcut : cutSegment st.src with _ | ⟨seg, rest⟩
    · rw [remainder_of_none hcut, unpacked_of_none hcut, length_nil, Nat.add_zero]
      rcases hsrc : st.src with _ | ⟨header, src⟩
      · rw [hsrc, length_nil, Nat.cast_zero] at hsrcsz
        rw [unpackLoop_of_le (Int.le_of_eq hsrcsz)]
        exact iff_of_false (by rintro ⟨⟩) id
      · rw [hsrc] at hsrcsz hcut
        rw [length_cons] at hsrcsz
        have hgoing := h.congr src (st.srcsz - 1)
        have hround : ({ st with src, srcsz := st.srcsz - 1 } : UnpackState).srcsz = src.length := by
          simp only
          omega
        have hiff := unpackSegment_invalid_iff hgoing hle hround hcut hout
        rw [unpackLoop_cons hsrc (by omega)]
        rcases heq : unpackSegment header { st with src, srcsz := st.srcsz - 1 } with e | st'
        · rw [heq] at hiff
          exact hiff
        · have hneg := srcsz_neg_of_cut hgoing hle hround hcut heq
          rw [heq] at hiff
          simp only [unpackLoop_of_le (Int.le_of_lt hneg)]
          exact iff_of_false (by rintro ⟨⟩) (mt hiff.mpr nofun)
    · rw [remainder_of_cut hcut, unpacked_of_cut hcut, length_append, ← Nat.add_assoc]
      obtain ⟨hover, heq⟩ | ⟨hsmall, st₁, heq, h₁, rfl, hsrcsz₁⟩ :=
        unpackLoop_segment fuel h hle hsrcsz hcut hout
      · rw [heq]
        exact iff_of_false (by rintro ⟨⟩) fun hseen => absurd hseen.le (by omega)
      · have hrest := length_cutSegment hcut
        rw [heq, ← length_append]
        exact ih h₁ hsrcsz₁ (by omega) (by rw [length_append]; exact hsmall)

end Loop

/-! ### The result -/

section Result

variable {src buf : List UInt8}

variable {bufsz : ℕ}

theorem unpackLoop_ok (hend : remainder src = []) (hsmall : (unpacked src).length ≤ intMax)
    (hle : bufsz ≤ buf.length) :
    ∃ st, unpackLoop src.length ⟨src, src.length, buf, 0, bufsz, 0⟩ = .ok st ∧
      Going buf bufsz (unpacked src) st := by
  have hbegin : Going buf bufsz [] _ := Going.begin src src.length
  have hloop := unpackLoop_complete hbegin hle rfl le_rfl hend (Nat.zero_le _)
  rw [length_nil, Nat.zero_add, nil_append] at hloop
  exact (hloop.resolve_left fun hover => absurd hover.1 (Nat.not_lt.mpr hsmall)).2

/-- What is returned for a source that is complete. -/
theorem sprotoUnpackInto_ok (hend : remainder src = []) (hsmall : (unpacked src).length ≤ intMax)
    (hroom : (unpacked src).length ≤ bufsz) (hle : bufsz ≤ buf.length) :
    sprotoUnpackInto src src.length buf bufsz =
      .ok ((unpacked src).length, unpacked src ++ buf.drop (unpacked src).length) := by
  obtain ⟨st, heq, h⟩ := unpackLoop_ok hend hsmall hle
  rw [sprotoUnpackInto, heq]
  simp only [h.size, h.written hroom]

theorem sprotoUnpack_eq (src buf : List UInt8) :
    sprotoUnpack src buf = sprotoUnpackInto src src.length buf buf.length :=
  rfl

theorem unpacks_of_complete (hend : remainder src = []) (hsmall : (unpacked src).length ≤ intMax) :
    Unpacks src buf := by
  obtain ⟨st, heq, h⟩ := unpackLoop_ok hend hsmall (le_refl buf.length)
  rw [Unpacks, sprotoUnpack, heq]
  refine ⟨hend, h.size, fun buf' bufsz hroom hle => ?_⟩
  have hsize : st.size = (unpacked src).length := h.size
  rw [hsize] at hroom ⊢
  exact sprotoUnpackInto_ok hend hsmall hroom hle

/-- **Which sources are unpacked.** -/
theorem unpacks_iff (src buf : List UInt8) : Unpacks src buf ↔ Handled src buf.length := by
  have hbegin : Going buf buf.length [] _ := Going.begin src src.length
  have hinvalid := unpackLoop_invalid_iff hbegin le_rfl rfl le_rfl (Nat.zero_le _)
  rw [length_nil, Nat.zero_add] at hinvalid
  rw [Handled, ← hinvalid]
  by_cases hend : remainder src = []
  · rcases Nat.lt_or_ge intMax (unpacked src).length with hlarge | hsmall
    · have hloop := unpackLoop_complete hbegin le_rfl rfl le_rfl hend (Nat.zero_le _)
      rw [length_nil, Nat.zero_add] at hloop
      rw [Unpacks, sprotoUnpack, (hloop.resolve_right fun h => absurd hlarge (Nat.not_lt.mpr h.1)).2]
      refine iff_of_false (by rintro ⟨⟨⟩, -⟩) ?_
      rintro (⟨-, hsmall⟩ | h)
      · exact absurd hlarge (Nat.not_lt.mpr hsmall)
      · cases h
    · exact iff_of_true (unpacks_of_complete hend hsmall) (.inl ⟨hend, hsmall⟩)
  · rw [Unpacks, sprotoUnpack]
    rcases unpackLoop src.length ⟨src, src.length, buf, 0, buf.length, 0⟩ with e | st
    · refine ⟨fun h => .inr (congrArg Except.error h.1), ?_⟩
      rintro (⟨hnil, -⟩ | h)
      · exact absurd hnil hend
      · exact ⟨Except.error.inj h, hend⟩
    · refine iff_of_false (fun h => hend h.1) ?_
      rintro (⟨hnil, -⟩ | h)
      · exact hend hnil
      · cases h

/-- The header announces a byte, and there is none: the byte behind the source is read. Without a
buffer, the size of a whole segment is returned. -/
theorem unpacks_fails : sprotoUnpack [1] (List.replicate 8 0) = .error .outOfBounds ∧
    sprotoUnpack [1] [] = .ok (8, []) ∧ ¬Unpacks [1] (List.replicate 8 0) ∧ ¬Unpacks [1] [] := by
  have hbuf : sprotoUnpack [1] (List.replicate 8 0) = .error .outOfBounds := by decide
  have hnil : sprotoUnpack [1] [] = .ok (8, []) := by decide
  have hend : remainder [1] = [1] := remainder_of_none (by decide)
  refine ⟨hbuf, hnil, fun h => ?_, fun h => ?_⟩
  · rw [Unpacks, hbuf] at h
    cases h.1
  · rw [Unpacks, hnil, hend] at h
    cases h.1

/-! ### `lunpack` -/

variable {output output' : Output} {fresh : ℕ → UInt8}

theorem le_length_expandBuffer {nsz : ℤ} (h : expandBuffer output nsz fresh = .ok output') :
    nsz ≤ output'.bytes.length := by
  rcases Int.lt_or_le (encodeBuffersize * 2 ^ 19 : ℕ) nsz with hover | hle
  · rw [expandBuffer_overflow fresh hover] at h
    cases h
  · have hdoublings := output.doublings_le
    obtain ⟨e, heq, -, hroom, -⟩ := expandLoop_ok (d := output.doublings)
      (k := 18 - output.doublings) (by omega) hle
    rw [expandBuffer, heq] at h
    simp only at h
    split_ifs at h
    obtain rfl := Except.ok.inj h
    rw [length_map, length_range]
    exact hroom

/-- **What `lunpack` returns** for a string that is complete, with one call or with two. -/
theorem lunpack_eq_unpacked (hlen : src.length < 2 ^ 31) (hend : remainder src = [])
    (hsmall : (unpacked src).length ≤ intMax) {str : List UInt8} {doublings : ℕ}
    (h : lunpack src output fresh = .ok (str, doublings)) : str = unpacked src := by
  rw [lunpack, toInt_of_lt hlen] at h
  by_cases hroom : (unpacked src).length ≤ output.bytes.length
  · rw [sprotoUnpackInto_ok hend hsmall hroom le_rfl] at h
    simp only [if_neg (Nat.not_lt.mpr hroom), take_left] at h
    exact (Prod.mk.inj (Except.ok.inj h)).1.symm
  · -- the first call has no room
    have hunpacks : Unpacks src output.bytes := unpacks_of_complete hend hsmall
    rw [Unpacks, sprotoUnpack_eq] at hunpacks
    rcases hfirst : sprotoUnpackInto src src.length output.bytes output.bytes.length
      with e | ⟨n, buf⟩
    · rw [hfirst] at hunpacks
      exact absurd hend hunpacks.2
    · rw [hfirst] at hunpacks h
      obtain ⟨-, rfl, hcall⟩ := hunpacks
      simp only [if_pos (Nat.not_le.mp hroom)] at h
      rcases hexpand : expandBuffer output (unpacked src).length fresh with e | output'
      · rw [hexpand] at h
        cases h
      · have hle := Int.ofNat_le.mp (le_length_expandBuffer hexpand)
        rw [hexpand] at h
        simp only [hcall output'.bytes _ le_rfl hle, take_left] at h
        exact (Prod.mk.inj (Except.ok.inj h)).1.symm

end Result

end Mtask.Sproto
