import Mtask.Lib.ZeroPacking
import Mtask.Sproto.ZeroPack

/-!
# What `sproto_pack` writes

The pieces that `sproto_pack` writes are those of the layout of the segments. The last one is made
of what lies behind the string, too, if it is a run of 256 segments of which the last has been
filled up: this run is copied from the source while it is not yet known that the source ends.
-/

namespace Mtask.Sproto

open Buffers ZeroPacking
open List

/-! ### Writing -/

/-- The bytes are written at `i`, and nothing else changes. -/
structure Wrote (buf : List UInt8) (i : ℕ) (bytes buf' : List UInt8) : Prop where
  length : buf'.length = buf.length
  here : slice buf' i bytes.length = bytes
  before : ∀ j n, j + n ≤ i → slice buf' j n = slice buf j n
  behind : ∀ j n, i + bytes.length ≤ j → slice buf' j n = slice buf j n

theorem write_spec (buf : List UInt8) (i : ℕ) (bytes : List UInt8)
    (h : i + bytes.length ≤ buf.length) :
    ∃ buf', write buf i bytes = .ok buf' ∧ Wrote buf i bytes buf' := by
  obtain ⟨buf', hstore⟩ := Option.isSome_iff_exists.mp (store_isSome h)
  refine ⟨buf', by rw [write, hstore], length_store hstore, slice_store_self hstore, ?_, ?_⟩
  · exact fun j n hle => slice_store_of_le hstore hle
  · exact fun j n hge => slice_store_of_ge hstore hge

/-! ### A segment -/

theorem nonzero_cons_of_ne {b : UInt8} (hb : b ≠ 0) (src : List UInt8) :
    nonzero (b :: src) = b :: nonzero src :=
  filter_cons_of_pos (by simpa using hb)

theorem nonzero_cons_zero (src : List UInt8) : nonzero (0 :: src) = nonzero src :=
  filter_cons_of_neg (by simp)

/-- The loop of `pack_seg` keeps to the room it has. -/
theorem segLoop_spec (src : List UInt8) (i : UInt8) (st : SegState)
    (hroom : (st.buffer : ℤ) + st.sz ≤ st.buf.length) :
    ∃ st', segLoop st i src = .ok st' ∧ st'.header = st.header ||| headerFrom i src ∧
      st'.notzero = st.notzero + (nonzero src).length ∧ st'.buf.length = st.buf.length ∧
      (∀ j n, j + n ≤ st.buffer → slice st'.buf j n = slice st.buf j n) ∧
      ((nonzero src).length ≤ st.sz →
        slice st'.buf st.buffer (nonzero src).length = nonzero src) := by
  induction src generalizing i st with
  | nil => exact ⟨st, rfl, (UInt8.or_zero).symm, rfl, rfl, fun _ _ _ => rfl, fun _ => rfl⟩
  | cons b src ih =>
    by_cases hb : b = 0
    · subst hb
      obtain ⟨st', heq, hheader, hrest⟩ := ih (i + 1) st hroom
      refine ⟨st', ?_, ?_, ?_⟩
      · rw [segLoop, if_neg (by simp), heq]
      · rw [hheader, headerFrom, if_neg (by simp), UInt8.zero_or]
      · rw [nonzero_cons_zero]
        exact hrest
    · by_cases hsz : 0 < st.sz
      · obtain ⟨buf, hwrite, hwrote⟩ := write_spec st.buf st.buffer [b]
          (by rw [length_singleton]; omega)
        obtain ⟨st', heq, hheader, hnotzero, hlength, hframe, hslice⟩ := ih (i + 1)
          ⟨st.header ||| (1 : UInt8) <<< i, st.notzero + 1, st.buffer + 1, st.sz - 1, buf⟩
          (by rw [hwrote.length]; push_cast; omega)
        refine ⟨st', ?_, ?_, ?_, hlength.trans hwrote.length, fun j n hj => ?_, fun hle => ?_⟩
        · rw [segLoop, if_pos hb, if_pos hsz, hwrite]
          exact heq
        · rw [hheader, headerFrom, if_pos hb, UInt8.or_assoc]
        · rw [hnotzero, nonzero_cons_of_ne hb, length_cons]
          exact Nat.add_right_comm _ _ _
        · rw [hframe j n (Nat.le_succ_of_le hj), hwrote.before j n hj]
        · rw [nonzero_cons_of_ne hb, length_cons] at hle ⊢
          rw [Nat.add_comm, ← slice_append_slice, hframe _ _ le_rfl]
          rw [hslice (by push_cast at hle ⊢; omega)]
          have hhere := hwrote.here
          rw [length_singleton] at hhere
          rw [hhere, singleton_append]
      · obtain ⟨st', heq, hheader, hnotzero, hlength, hframe, -⟩ := ih (i + 1)
          { st with notzero := st.notzero + 1, header := st.header ||| (1 : UInt8) <<< i } hroom
        refine ⟨st', ?_, ?_, ?_, hlength, hframe, fun hle => ?_⟩
        · rw [segLoop, if_pos hb, if_neg hsz]
          exact heq
        · rw [hheader, headerFrom, if_pos hb, UInt8.or_assoc]
        · rw [hnotzero, nonzero_cons_of_ne hb, length_cons]
          exact Nat.add_right_comm _ _ _
        · rw [nonzero_cons_of_ne hb, length_cons] at hle
          omega

/-- A segment that is packed with a header, `n` segments behind the beginning of a run. -/
def Sparse (seg : List UInt8) (n : ℕ) : Prop :=
  (nonzero seg).length < 8 ∧ (0 < n → (nonzero seg).length < 6)

/-- What `pack_seg` returns. -/
def segSize (seg : List UInt8) (n : ℕ) : ℕ :=
  if 0 < n then if 6 ≤ (nonzero seg).length then 8 else (nonzero seg).length + 1
  else if (nonzero seg).length = 8 then 10 else (nonzero seg).length + 1

variable {seg : List UInt8} {n : ℕ}

theorem Sparse.segSize_eq (h : Sparse seg n) : segSize seg n = (nonzero seg).length + 1 := by
  rw [segSize]
  split_ifs with hn hdense hfull
  · exact absurd (h.2 hn) (Nat.not_lt.mpr hdense)
  · rfl
  · exact absurd h.1 (by omega)
  · rfl

/-- `pack_seg` writes behind `buffer` only, and a sparse segment as it should be if there is room
for it. -/
theorem packSeg_spec (buf : List UInt8) (buffer : ℕ) (sz : ℤ) (n : ℕ) (hseg : seg.length = 8)
    (hroom : (buffer : ℤ) + sz ≤ buf.length) (hmin : intMin ≤ sz - 1) :
    ∃ buf', packSeg seg buf buffer sz n = .ok (segSize seg n, buf') ∧ buf'.length = buf.length ∧
      (∀ j m, j + m ≤ buffer → slice buf' j m = slice buf j m) ∧
      (Sparse seg n → segSize seg n ≤ sz →
        slice buf' buffer (segSize seg n) = (Piece.sparse seg).encode) := by
  have hnz := length_nonzero_le seg
  obtain ⟨st, heq, hheader, hnotzero, hlength, hframe, hslice⟩ :=
    segLoop_spec seg 0 ⟨0, 0, buffer + 1, sz - 1, buf⟩ (by push_cast; omega)
  simp only [Nat.zero_add, UInt8.zero_or] at hnotzero hheader hlength hframe hslice
  have hsmall : ¬sz - 1 < intMin := by omega
  have hbefore (j m : ℕ) (hj : j + m ≤ buffer) : slice st.buf j m = slice buf j m :=
    hframe j m (Nat.le_succ_of_le hj)
  rw [packSeg, if_neg hsmall, heq, hseg] at *
  simp only [hnotzero]
  by_cases hsparse : Sparse seg n
  · have hsize := hsparse.segSize_eq
    have hno : ¬(((nonzero seg).length = 7 ∨ (nonzero seg).length = 6) ∧ 0 < n) := by
      rintro ⟨h, hn⟩
      have := hsparse.2 hn
      omega
    rw [if_neg hno, if_neg (Nat.ne_of_lt hsparse.1)]
    by_cases hsz : sz - 1 < 0
    · rw [if_pos hsz, hsize]
      exact ⟨_, rfl, hlength, hbefore, fun _ hle => absurd hle (by push_cast; omega)⟩
    · obtain ⟨buf', hwrite, hwrote⟩ := write_spec st.buf buffer [st.header]
         (by rw [length_singleton, hlength]; omega)
      rw [if_neg hsz, hwrite, hsize]
      refine ⟨_, rfl, hwrote.length.trans hlength, fun j m hj => ?_, fun _ hle => ?_⟩
      · rw [hwrote.before j m hj, hbefore j m hj]
      · have hhere := hwrote.here
        rw [length_singleton] at hhere
        rw [Nat.add_comm, ← slice_append_slice, hhere, hwrote.behind (buffer + 1) _ le_rfl,
          hslice (by push_cast at hle; omega), hheader]
        rfl
  · have hdense : (nonzero seg).length = 8 ∨ 0 < n ∧ 6 ≤ (nonzero seg).length := by
      by_contra hcon
      exact hsparse ⟨by omega, fun hn => by omega⟩
    have height : (if ((nonzero seg).length = 7 ∨ (nonzero seg).length = 6) ∧ 0 < n then 8
        else (nonzero seg).length) = 8 := by
      split_ifs with h
      · rfl
      · omega
    have hsize : segSize seg n = if 0 < n then 8 else 10 := by
      rw [segSize]
      split_ifs with hn h6 h8
      · rfl
      · omega
      · rfl
      · omega
    rw [if_pos height, hsize]
    split_ifs
    · exact ⟨_, rfl, hlength, hbefore, fun h => absurd h hsparse⟩
    · exact ⟨_, rfl, hlength, hbefore, fun h => absurd h hsparse⟩

/-! ### A run -/

/-- A string, and what lies behind it. -/
def memory (s : List UInt8) (beyond : ℕ → UInt8) (i : ℕ) : UInt8 :=
  s.getD i (beyond i)

theorem memory_eq {s : List UInt8} {beyond : ℕ → UInt8} {i : ℕ} (h : i < s.length) :
    memory s beyond i = s.getD i 0 := by
  rw [memory, getD_eq_getElem _ _ h, getD_eq_getElem _ _ h]

theorem loadSeg_eq (s : List UInt8) (beyond : ℕ → UInt8) {k : ℕ} (h : 8 * k < s.length) :
    loadSeg (memory s beyond) s.length (8 * k) = segmentAt s k := by
  have hmap := map_append_replicate (s := s) (f := memory s beyond)
    (n := 8 - (8 * k + 8 - s.length)) (p := 8 * k + 8 - s.length) (i := 8 * k)
    (fun j hj => memory_eq hj) (by omega) (by omega)
  rw [show 8 - (8 * k + 8 - s.length) + (8 * k + 8 - s.length) = 8 by omega] at hmap
  exact hmap

/-- The bytes of a run, as they are written. -/
def runBytes (mem : ℕ → UInt8) (start n : ℕ) : List UInt8 :=
  (List.range n).map (fun i => mem (start + i)) ++ List.replicate ((n + 7) / 8 * 8 - n) 0

theorem length_runBytes (mem : ℕ → UInt8) (start n : ℕ) :
    (runBytes mem start n).length = (n + 7) / 8 * 8 := by
  rw [runBytes, length_append, length_map, length_range, length_replicate]
  omega

/-- The run is read up to its end or to the end of the string. -/
theorem runBytes_eq {s : List UInt8} {beyond : ℕ → UInt8} {a c : ℕ} (hn : (n + 7) / 8 = c)
    (hle : 8 * a + n ≤ s.length) (hend : n = 8 * c ∨ 8 * a + n = s.length) :
    runBytes (memory s beyond) (8 * a) n = (segmentsFrom s a c).flatten := by
  rw [runBytes, flatten_segmentsFrom, map_append_replicate (s := s) (fun j hj => memory_eq hj) hle
    (by omega), hn]
  congr 2
  omega

theorem Wrote.run {buf buf' : List UInt8} {done : List Piece} {segs : List (List UInt8)} {c : ℕ}
    (hw : Wrote buf (encode done).length (0xff :: UInt8.ofNat (c - 1) :: segs.flatten) buf')
    (hlength : segs.length = c) (hdone : slice buf 0 (encode done).length = encode done) :
    slice buf' 0 (encode (done ++ [.run segs])).length = encode (done ++ [.run segs]) := by
  have hpiece : (Piece.run segs).encode = 0xff :: UInt8.ofNat (c - 1) :: segs.flatten := by
    rw [Piece.encode, hlength]
  rw [encode_append, encode_cons, encode_nil, append_nil, length_append,
    ← slice_append_slice, Nat.zero_add, hw.before 0 _ (Nat.le_of_eq (Nat.zero_add _)), hdone, hpiece, hw.here]

/-- A run is written in front of `des + 2 + n`, and nothing else changes. -/
theorem endRun_spec (mem : ℕ → UInt8) (st : PackState) (n : ℕ) {start : ℕ}
    (hstart : st.ffSrcstart = some start)
    (hroom : 0 ≤ st.bufsz → st.ffDesstart + (2 + (n + 7) / 8 * 8) ≤ st.buf.length) :
    ∃ buf', st.endRun mem n = .ok { st with
        buf := buf'
        ffN := 0
        read := if 0 ≤ st.bufsz then max st.read (start + n) else st.read } ∧
      buf'.length = st.buf.length ∧ (0 ≤ st.bufsz → Wrote st.buf st.ffDesstart
        (0xff :: UInt8.ofNat ((n + 7) / 8 * 8 / 8 - 1) :: runBytes mem start n) buf') := by
  by_cases hbufsz : 0 ≤ st.bufsz
  · obtain ⟨buf', hwrite, hwrote⟩ := write_spec st.buf st.ffDesstart
      (0xff :: UInt8.ofNat ((n + 7) / 8 * 8 / 8 - 1) :: runBytes mem start n) (by
        rw [length_cons, length_cons, length_runBytes]
        have := hroom hbufsz
        omega)
    refine ⟨buf', ?_, hwrote.length, fun _ => hwrote⟩
    have hff : writeFf mem (some start) st.buf st.ffDesstart n = .ok buf' := by
      rw [writeFf]
      simp only [cons_append, nil_append]
      exact hwrite
    rw [PackState.endRun, if_pos hbufsz, hstart, hff, if_pos hbufsz]
    rfl
  · refine ⟨st.buf, ?_, rfl, fun h => absurd h hbufsz⟩
    rw [PackState.endRun, if_neg hbufsz, if_neg hbufsz]

/-! ### The loop -/

/-- What an open run of `c` segments takes. -/
def openLength (c : ℕ) : ℕ :=
  if c = 0 then 0 else 2 + 8 * c

/-- The segments in front of `a` have been written as the pieces `done`, and `c` segments from `a`
on are a run that is not written yet. -/
structure Scanned (s : List UInt8) (bufsz : ℤ) (len a c : ℕ) (done : List Piece)
    (st : PackState) : Prop where
  lt : c < 256
  full : 0 < c → (nonzero (segmentAt s a)).length = 8
  start : 0 < c → st.ffSrcstart = some (8 * a) ∧ st.ffDesstart = (encode done).length
  ffN : st.ffN = c
  size : st.size = (encode done).length + openLength c
  bufsz_eq : st.bufsz = bufsz - st.size
  length : st.buf.length = len
  content : st.size ≤ bufsz → slice st.buf 0 (encode done).length = encode done
  read : st.read ≤ s.length
  shape : layout [] (segments s) = done ++
    layout (segmentsFrom s a c) (segmentsFrom s (a + c) (segmentCount s.length - (a + c)))
  last : c = 0 → lastRun done = 256 → 8 * a ≤ s.length

/-- The last run of 256 segments has not been filled up with zeros. -/
def Inside (s : List UInt8) : Prop :=
  8 ∣ s.length ∨ lastRun (layout [] (segments s)) ≠ 256

/-- All pieces are written, and the last one has been read from behind the end of the string. -/
structure Overread (s : List UInt8) (beyond : ℕ → UInt8) (bufsz : ℤ) (len : ℕ)
    (st : PackState) : Prop where
  ffN : st.ffN = 0
  size : st.size = (encode (layout [] (segments s))).length
  length : st.buf.length = len
  content : st.size ≤ bufsz → ∃ pieces, (∀ p ∈ pieces, p.Valid) ∧
    slice st.buf 0 st.size = encode pieces ∧ bytes pieces =
      (List.range (8 * segmentCount s.length)).map (memory s beyond)
  read : st.size ≤ bufsz → s.length < st.read
  outside : ¬Inside s

section Round

variable {s : List UInt8} {beyond : ℕ → UInt8} {bufsz : ℤ} {len a c : ℕ} {done : List Piece}
  {st : PackState}

theorem rest_eq (h : a < segmentCount s.length) :
    segmentsFrom s a (segmentCount s.length - a) =
      segmentAt s a :: segmentsFrom s (a + 1) (segmentCount s.length - (a + 1)) := by
  rw [← segmentsFrom_eq_cons]
  congr 1
  omega

theorem segmentsFrom_eq_nil : segmentsFrom s a c = [] ↔ c = 0 := by
  rw [← length_eq_zero_iff, length_segmentsFrom]

/-- What has been counted so far is not more than the whole. -/
theorem size_le (hshape : layout [] (segments s) = done ++
    layout (segmentsFrom s a c) (segmentsFrom s (a + c) (segmentCount s.length - (a + c)))) :
    (encode done).length + openLength c ≤ (encode (layout [] (segments s))).length := by
  rw [hshape, encode_append, length_append, openLength]
  split_ifs with hc
  · exact Nat.le_add_right _ _
  · have hne : segmentsFrom s a c ≠ [] := mt segmentsFrom_eq_nil.mp hc
    have hle := le_length_encode_layout (segmentsFrom s a c)
      (segmentsFrom s (a + c) (segmentCount s.length - (a + c))) hne fun seg hmem => by
        rcases mem_append.mp hmem with h | h <;> exact length_of_mem_segmentsFrom h
    rw [length_segmentsFrom] at hle
    omega

namespace Scanned

variable (beyond)

theorem init (s : List UInt8) (buf : List UInt8) (bufsz : ℤ) :
    Scanned s bufsz buf.length 0 0 [] ⟨none, 0, 0, 0, bufsz, buf, 0⟩ where
  lt := by decide
  full h := absurd h (Nat.lt_irrefl 0)
  start h := absurd h (Nat.lt_irrefl 0)
  ffN := rfl
  size := rfl
  bufsz_eq := (sub_zero bufsz).symm
  length := rfl
  content _ := rfl
  read := Nat.zero_le _
  shape := by
    rw [segments_eq]
    rfl
  last _ h := absurd h (by decide)

theorem packSeg (h : Scanned s bufsz len a c done st) (hk : a + c < segmentCount s.length)
    (hbufsz : 0 ≤ bufsz) (hlen : bufsz ≤ len)
    (hfits : (encode (layout [] (segments s))).length ≤ intMax) :
    ∃ buf', Sproto.packSeg (loadSeg (memory s beyond) s.length (8 * (a + c))) st.buf st.size
        st.bufsz st.ffN = .ok (segSize (segmentAt s (a + c)) c, buf') ∧ buf'.length = len ∧
      (∀ j m, j + m ≤ st.size → slice buf' j m = slice st.buf j m) ∧
      (Sparse (segmentAt s (a + c)) c → segSize (segmentAt s (a + c)) c ≤ st.bufsz →
        slice buf' st.size (segSize (segmentAt s (a + c)) c) =
          (Piece.sparse (segmentAt s (a + c))).encode) := by
  have hk' : 8 * (a + c) < s.length := by
    rw [segmentCount] at hk
    omega
  have hsize := size_le h.shape
  rw [← h.size] at hsize
  have hbufsz_eq := h.bufsz_eq
  have hlength := h.length
  rw [loadSeg_eq s beyond hk', h.ffN]
  obtain ⟨buf', heq, hlen', hframe, hsparse⟩ :=
    packSeg_spec st.buf st.size st.bufsz c length_segmentAt (by omega) (by rw [intMin, intMax] at *; omega)
  exact ⟨buf', heq, hlen'.trans h.length, hframe, hsparse⟩

/-- The sum of what is written does not overflow. -/
theorem bounds (h : Scanned s bufsz len a c done st) (hbufsz : 0 ≤ bufsz)
    (hfits : (encode (layout [] (segments s))).length ≤ intMax)
    (hn : st.size + n ≤ (encode (layout [] (segments s))).length) :
    ¬st.bufsz - n < intMin ∧ ¬intMax < st.size + n := by
  have hbufsz_eq := h.bufsz_eq
  rw [intMin]
  rw [intMax] at *
  omega

theorem begin (h : Scanned s bufsz len a 0 done st) (hk : a < segmentCount s.length)
    (hbufsz : 0 ≤ bufsz) (hlen : bufsz ≤ len)
    (hfits : (encode (layout [] (segments s))).length ≤ intMax)
    (hfull : (nonzero (segmentAt s a)).length = 8) :
    ∃ st', packRound (memory s beyond) s.length (8 * a) st = .ok st' ∧
      Scanned s bufsz len a 1 done st' := by
  obtain ⟨buf, hseg, hlength, hframe, -⟩ := h.packSeg beyond hk hbufsz hlen hfits
  have hn : segSize (segmentAt s a) 0 = 10 := by
    rw [segSize, if_neg (Nat.lt_irrefl 0), if_pos hfull]
  have hshape := h.shape
  rw [Nat.add_zero, rest_eq hk, layout, if_pos (segmentsFrom_eq_nil.mpr rfl), if_pos hfull] at hshape
  have hshape' : layout [] (segments s) = done ++ layout (segmentsFrom s a 1)
      (segmentsFrom s (a + 1) (segmentCount s.length - (a + 1))) := hshape
  have hsize := h.size
  rw [openLength, if_pos rfl, Nat.add_zero] at hsize
  have hbufsz_eq := h.bufsz_eq
  have htotal := size_le hshape'
  rw [openLength, if_neg Nat.one_ne_zero, ← hsize] at htotal
  obtain ⟨hmin, hmax⟩ := h.bounds hbufsz hfits htotal
  have hinside := le_of_full hfull
  rw [Nat.add_zero, hn] at hseg
  rw [packRound, hseg]
  simp only [Nat.reduceMul, Nat.reduceAdd, Nat.cast_ofNat] at hmin hmax ⊢
  rw [if_neg hmin, if_pos trivial, if_neg hmax, if_neg (not_lt.mpr hinside)]
  refine ⟨_, rfl, by decide, fun _ => hfull, fun _ => ⟨rfl, hsize⟩, rfl, ?_, ?_, hlength,
    fun hle => ?_, max_le h.read (min_le_right _ _), hshape', fun hone => absurd hone (by decide)⟩
  · rw [openLength, if_neg Nat.one_ne_zero, hsize]
  · push_cast
    omega
  · push_cast at hle
    rw [hframe 0 _ (by omega)]
    exact h.content (by omega)

theorem sparse (h : Scanned s bufsz len a 0 done st) (hk : a < segmentCount s.length)
    (hbufsz : 0 ≤ bufsz) (hlen : bufsz ≤ len)
    (hfits : (encode (layout [] (segments s))).length ≤ intMax)
    (hfull : (nonzero (segmentAt s a)).length ≠ 8) :
    ∃ st', packRound (memory s beyond) s.length (8 * a) st = .ok st' ∧
      Scanned s bufsz len (a + 1) 0 (done ++ [.sparse (segmentAt s a)]) st' := by
  obtain ⟨buf, hseg, hlength, hframe, hcontent⟩ :=
    h.packSeg beyond hk hbufsz hlen hfits
  have hlt : (nonzero (segmentAt s a)).length < 8 := by
    have := length_nonzero_le (segmentAt s a)
    rw [length_segmentAt] at this
    omega
  have hsparse : Sparse (segmentAt s a) 0 := ⟨hlt, fun hpos => absurd hpos (Nat.lt_irrefl 0)⟩
  have hn := hsparse.segSize_eq
  have hshape := h.shape
  rw [Nat.add_zero, rest_eq hk, layout, if_pos (segmentsFrom_eq_nil.mpr rfl), if_neg hfull] at hshape
  have hshape' : layout [] (segments s) = (done ++ [.sparse (segmentAt s a)]) ++
      layout (segmentsFrom s (a + 1) 0)
        (segmentsFrom s (a + 1 + 0) (segmentCount s.length - (a + 1 + 0))) := by
    rw [hshape, append_assoc]
    rfl
  have hsize := h.size
  rw [openLength, if_pos rfl, Nat.add_zero] at hsize
  have hbufsz_eq := h.bufsz_eq
  have hencode : (encode (done ++ [.sparse (segmentAt s a)])).length =
      st.size + segSize (segmentAt s a) 0 := by
    rw [encode_append, encode_cons, encode_nil, append_nil, length_append, hsize, hn]
    rfl
  have htotal := size_le hshape'
  rw [openLength, if_pos rfl, Nat.add_zero, hencode] at htotal
  obtain ⟨hmin, hmax⟩ := h.bounds hbufsz hfits htotal
  rw [Nat.add_zero] at hseg hcontent
  rw [packRound, hseg]
  simp only
  rw [if_neg hmin, if_neg (by omega), h.ffN, if_neg (fun hpos => absurd hpos.2 (Nat.lt_irrefl 0)),
    if_neg (Nat.lt_irrefl 0), if_neg hmax]
  refine ⟨_, rfl, by decide, fun hpos => absurd hpos (Nat.lt_irrefl 0),
    fun hpos => absurd hpos (Nat.lt_irrefl 0), rfl, ?_, ?_, hlength, fun hle => ?_,
    max_le h.read (min_le_right _ _), hshape', fun _ hlast => ?_⟩
  · rw [hencode, openLength, if_pos rfl, Nat.add_zero]
    rfl
  · push_cast
    omega
  · push_cast at hle
    rw [hencode, ← slice_append_slice, Nat.zero_add, hcontent hsparse (by omega),
      hframe 0 _ (by omega), encode_append, encode_cons, encode_nil, append_nil, hsize,
      h.content (by omega)]
  · rw [lastRun_append_sparse] at hlast
    cases hlast

section

variable (h : Scanned s bufsz len a c done st) (hk : a + c < segmentCount s.length)
  (hbufsz : 0 ≤ bufsz) (hlen : bufsz ≤ len)
  (hfits : (encode (layout [] (segments s))).length ≤ intMax) (hc : 0 < c)
include h hk hbufsz hlen hfits hc

/-- A segment with two zeros at most is taken into the run. -/
theorem extend (hlt : c + 1 < 256) (hdense : 6 ≤ (nonzero (segmentAt s (a + c))).length) :
    ∃ st', packRound (memory s beyond) s.length (8 * (a + c)) st = .ok st' ∧
      Scanned s bufsz len a (c + 1) done st' := by
  obtain ⟨buf, hseg, hlength, hframe, -⟩ := h.packSeg beyond hk hbufsz hlen hfits
  have hn : segSize (segmentAt s (a + c)) c = 8 := by
    rw [segSize, if_pos hc, if_pos hdense]
  have hshape := h.shape
  rw [rest_eq hk, layout, if_neg (mt segmentsFrom_eq_nil.mp (Nat.ne_of_gt hc)), if_pos hdense,
    length_segmentsFrom, if_neg (Nat.ne_of_lt hlt), ← segmentsFrom_succ, Nat.add_assoc] at hshape
  have hsize := h.size
  rw [openLength, if_neg (Nat.ne_of_gt hc)] at hsize
  have hbufsz_eq := h.bufsz_eq
  have htotal := size_le hshape
  rw [openLength, if_neg (Nat.succ_ne_zero c)] at htotal
  obtain ⟨hmin, hmax⟩ := h.bounds hbufsz hfits (n := 8) (by omega)
  rw [hn] at hseg
  rw [packRound, hseg]
  simp only [Nat.cast_ofNat] at hmin hmax ⊢
  rw [if_neg hmin, if_neg (by decide), h.ffN, if_pos ⟨trivial, hc⟩, if_neg (Nat.ne_of_lt hlt), if_neg hmax]
  obtain ⟨hstart, hdes⟩ := h.start hc
  refine ⟨_, rfl, hlt, fun _ => h.full hc, fun _ => ⟨hstart, hdes⟩, rfl, ?_, ?_, hlength,
    fun hle => ?_, max_le h.read (min_le_right _ _), hshape, fun hzero => absurd hzero (by omega)⟩
  · rw [openLength, if_neg (Nat.succ_ne_zero c)]
    simp only
    omega
  · push_cast
    omega
  · push_cast at hle
    rw [hframe 0 _ (by omega)]
    exact h.content (by omega)

theorem breakRun (hdense : ¬6 ≤ (nonzero (segmentAt s (a + c))).length) :
    ∃ st', packRound (memory s beyond) s.length (8 * (a + c)) st = .ok st' ∧
      Scanned s bufsz len (a + c + 1) 0
        (done ++ [.run (segmentsFrom s a c), .sparse (segmentAt s (a + c))]) st' := by
  obtain ⟨buf, hseg, hlength, hframe, hcontent⟩ :=
    h.packSeg beyond hk hbufsz hlen hfits
  have hsparse : Sparse (segmentAt s (a + c)) c := ⟨by omega, fun _ => by omega⟩
  have hn := hsparse.segSize_eq
  have hshape := h.shape
  rw [rest_eq hk, layout, if_neg (mt segmentsFrom_eq_nil.mp (Nat.ne_of_gt hc)), if_neg hdense]
    at hshape
  have hshape' : layout [] (segments s) =
      (done ++ [.run (segmentsFrom s a c), .sparse (segmentAt s (a + c))]) ++
        layout (segmentsFrom s (a + c + 1) 0)
          (segmentsFrom s (a + c + 1 + 0) (segmentCount s.length - (a + c + 1 + 0))) := by
    rw [hshape, append_assoc]
    rfl
  have hsize := h.size
  rw [openLength, if_neg (Nat.ne_of_gt hc)] at hsize
  have hbufsz_eq := h.bufsz_eq
  obtain ⟨hstart, hdes⟩ := h.start hc
  have hrun : (encode (done ++ [.run (segmentsFrom s a c)])).length = st.size := by
    rw [encode_append, encode_cons, encode_nil, append_nil, length_append, hsize,
      Piece.encode, length_cons, length_cons,
      length_flatten_segs fun seg => length_of_mem_segmentsFrom, length_segmentsFrom]
    omega
  have hencode : (encode (done ++ [.run (segmentsFrom s a c), .sparse (segmentAt s (a + c))])).length =
      st.size + segSize (segmentAt s (a + c)) c := by
    rw [append_cons, encode_append, length_append, hrun, hn, encode_cons, encode_nil,
      append_nil]
    rfl
  have htotal := size_le hshape'
  rw [openLength, if_pos rfl, Nat.add_zero, hencode] at htotal
  obtain ⟨hmin, hmax⟩ := h.bounds hbufsz hfits htotal
  have halign : (c * 8 + 7) / 8 * 8 = 8 * c := by omega
  have hinside : 8 * a + c * 8 ≤ s.length := by
    rw [segmentCount] at hk
    omega
  obtain ⟨buf', hend, hlength', hwrote⟩ := endRun_spec (memory s beyond) { st with
      buf
      bufsz := st.bufsz - segSize (segmentAt s (a + c)) c
      read := max st.read (min (8 * (a + c) + 8) s.length) } (c * 8) hstart (by
        intro hroom
        simp only [halign, hdes, hlength] at hroom ⊢
        omega)
  rw [h.ffN] at hend
  rw [packRound, hseg]
  simp only
  rw [if_neg hmin, if_neg (by omega), if_neg (by omega), h.ffN, if_pos hc, hend]
  simp only
  rw [if_neg hmax]
  refine ⟨_, rfl, by decide, fun hpos => absurd hpos (Nat.lt_irrefl 0),
    fun hpos => absurd hpos (Nat.lt_irrefl 0), rfl, ?_, ?_, hlength'.trans hlength, fun hle => ?_, ?_,
    hshape', fun _ hlast => ?_⟩
  · rw [hencode, openLength, if_pos rfl, Nat.add_zero]
    rfl
  · push_cast
    omega
  · push_cast at hle
    have hw := hwrote (by simp only; omega)
    simp only [hdes] at hw
    rw [runBytes_eq (c := c) (by omega) hinside (Or.inl (Nat.mul_comm c 8)),
      show (c * 8 + 7) / 8 * 8 / 8 = c by omega] at hw
    have hdone : slice buf 0 (encode done).length = encode done := by
      rw [hframe 0 _ (by omega)]
      exact h.content (by omega)
    have hfirst := hw.run (length_segmentsFrom s a c) hdone
    rw [hrun] at hfirst
    have hsecond : slice buf' st.size (segSize (segmentAt s (a + c)) c) =
        (Piece.sparse (segmentAt s (a + c))).encode := by
      rw [hw.behind _ _ ?_]
      · exact hcontent hsparse (by omega)
      · rw [length_cons, length_cons,
          length_flatten_segs fun seg => length_of_mem_segmentsFrom, length_segmentsFrom]
        omega
    rw [hencode, ← slice_append_slice, Nat.zero_add, hfirst, hsecond]
    simp only [encode_append, encode_cons, encode_nil, append_nil, append_assoc]
  · simp only
    split_ifs
    · refine max_le (max_le h.read (min_le_right _ _)) ?_
      omega
    · exact max_le h.read (min_le_right _ _)
  · rw [append_cons, lastRun_append_sparse] at hlast
    cases hlast

end

theorem bytes_done (h : Scanned s bufsz len a c done st) (hk : a + c ≤ segmentCount s.length) :
    bytes done = (segmentsFrom s 0 a).flatten := by
  have hall := bytes_layout [] (segments s)
  have hsplit : segmentsFrom s 0 (segmentCount s.length) = segmentsFrom s 0 a ++
      (segmentsFrom s a c ++ segmentsFrom s (a + c) (segmentCount s.length - (a + c))) := by
    rw [← segmentsFrom_add, show segmentsFrom s a _ = segmentsFrom s (0 + a) _ by rw [Nat.zero_add],
      ← segmentsFrom_add]
    congr 1
    omega
  rw [h.shape, bytes_append, bytes_layout, flatten_nil, nil_append, segments_eq, hsplit,
    flatten_append, flatten_append] at hall
  exact append_cancel_right hall

theorem valid_done (h : Scanned s bufsz len a c done st) : ∀ p ∈ done, p.Valid := by
  have hvalid := valid_layout [] (segments s) (by decide) fun seg hseg =>
    length_of_mem_segments hseg
  rw [h.shape] at hvalid
  exact fun p hp => hvalid p (mem_append_left _ hp)

/-- The segments of a run that is copied from memory. -/
def memorySegments (s : List UInt8) (beyond : ℕ → UInt8) (a c : ℕ) : List (List UInt8) :=
  (List.range c).map fun j => (List.range 8).map fun i => memory s beyond (8 * a + (8 * j + i))

theorem length_memorySegments (s : List UInt8) (beyond : ℕ → UInt8) (a c : ℕ) :
    (memorySegments s beyond a c).length = c := by
  rw [memorySegments, length_map, length_range]

theorem runBytes_beyond : runBytes (memory s beyond) (8 * a) (256 * 8) =
    (memorySegments s beyond a 256).flatten := by
  rw [memorySegments, flatten_map_range (fun i => memory s beyond (8 * a + i)), runBytes]
  exact append_nil _

theorem bytes_beyond (h : Scanned s bufsz len a 255 done st)
    (hk : a + 256 = segmentCount s.length) :
    bytes (done ++ [.run (memorySegments s beyond a 256)]) =
      (List.range (8 * segmentCount s.length)).map (memory s beyond) := by
  rw [bytes_append, h.bytes_done (by omega), flatten_segmentsFrom, bytes_cons, bytes_nil,
    append_nil, Piece.bytes, memorySegments,
    flatten_map_range (fun i => memory s beyond (8 * a + i)), ← hk, Nat.mul_add, range_add,
    map_append, map_map]
  congr 1
  refine map_congr_left fun i hi => ?_
  rw [mem_range] at hi
  rw [segmentCount] at hk
  rw [Nat.mul_zero, Nat.zero_add, memory_eq (by omega)]

theorem complete (h : Scanned s bufsz len a 255 done st) (hk : a + 255 < segmentCount s.length)
    (hbufsz : 0 ≤ bufsz) (hlen : bufsz ≤ len)
    (hfits : (encode (layout [] (segments s))).length ≤ intMax)
    (hdense : 6 ≤ (nonzero (segmentAt s (a + 255))).length) :
    ∃ st', packRound (memory s beyond) s.length (8 * (a + 255)) st = .ok st' ∧
      (Scanned s bufsz len (a + 256) 0 (done ++ [.run (segmentsFrom s a 256)]) st' ∨
        a + 256 = segmentCount s.length ∧ Overread s beyond bufsz len st') := by
  obtain ⟨buf, hseg, hlength, hframe, -⟩ := h.packSeg beyond hk hbufsz hlen hfits
  have hn : segSize (segmentAt s (a + 255)) 255 = 8 := by
    rw [segSize, if_pos (by decide), if_pos hdense]
  have hshape := h.shape
  rw [rest_eq hk, layout, if_neg (mt segmentsFrom_eq_nil.mp (by decide)), if_pos hdense,
    length_segmentsFrom, if_pos rfl, ← segmentsFrom_succ] at hshape
  simp only [Nat.add_assoc, Nat.reduceAdd] at hshape
  have hshape' : layout [] (segments s) = (done ++ [.run (segmentsFrom s a 256)]) ++
      layout (segmentsFrom s (a + 256) 0)
        (segmentsFrom s (a + 256 + 0) (segmentCount s.length - (a + 256 + 0))) := by
    rw [hshape, append_assoc, Nat.add_zero, segmentsFrom_zero, singleton_append]
  have hsize := h.size
  rw [openLength, if_neg (by decide)] at hsize
  have hbufsz_eq := h.bufsz_eq
  obtain ⟨hstart, hdes⟩ := h.start (by decide)
  have hencode : (encode (done ++ [.run (segmentsFrom s a 256)])).length = st.size + 8 := by
    rw [encode_append, encode_cons, encode_nil, append_nil, length_append, hsize,
      Piece.encode, length_cons, length_cons,
      length_flatten_segs fun seg => length_of_mem_segmentsFrom, length_segmentsFrom]
  have htotal := size_le hshape'
  rw [openLength, if_pos rfl, Nat.add_zero, hencode] at htotal
  obtain ⟨hmin, hmax⟩ := h.bounds hbufsz hfits htotal
  obtain ⟨buf', hend, hlength', hwrote⟩ := endRun_spec (memory s beyond) { st with
      buf
      bufsz := st.bufsz - (8 : ℕ)
      read := max st.read (min (8 * (a + 255) + 8) s.length) } (256 * 8) hstart (by
        intro hroom
        simp only [hdes, hlength] at hroom ⊢
        omega)
  rw [hn] at hseg
  rw [h.ffN] at hend
  rw [packRound, hseg]
  simp only
  rw [if_neg hmin, if_neg (by decide), h.ffN, if_pos ⟨trivial, by decide⟩, if_pos rfl, hend]
  simp only
  rw [if_neg hmax]
  refine ⟨_, rfl, ?_⟩
  have hdone (hle : (st.size : ℤ) ≤ bufsz) : slice buf 0 (encode done).length = encode done := by
    rw [hframe 0 _ (by omega)]
    exact h.content hle
  by_cases hinside : 8 * a + 256 * 8 ≤ s.length
  · have hlast : 8 * (a + 256) ≤ s.length := by
      rw [Nat.mul_add]
      exact hinside
    refine Or.inl ⟨by decide, fun hpos => absurd hpos (Nat.lt_irrefl 0),
      fun hpos => absurd hpos (Nat.lt_irrefl 0), rfl, ?_, ?_, hlength'.trans hlength,
      fun hle => ?_, ?_, hshape', fun _ _ => hlast⟩
    · rw [hencode, openLength, if_pos rfl, Nat.add_zero]
    · push_cast
      omega
    · push_cast at hle
      have hw := hwrote (by simp only; omega)
      simp only [hdes] at hw
      rw [runBytes_eq (c := 256) (by decide) hinside (Or.inl rfl)] at hw
      exact hw.run (length_segmentsFrom s a 256) (hdone (by omega))
    · simp only
      split_ifs
      · exact max_le (max_le h.read (min_le_right _ _)) hinside
      · exact max_le h.read (min_le_right _ _)
  · have hlast : a + 256 = segmentCount s.length := by
      rw [segmentCount] at hk ⊢
      omega
    have hlayout : layout [] (segments s) = done ++ [.run (segmentsFrom s a 256)] := by
      rw [hshape', hlast, Nat.sub_self]
      exact append_nil _
    refine Or.inr ⟨hlast, rfl, ?_, hlength'.trans hlength, fun hle => ?_, fun hle => ?_, ?_⟩
    · rw [hlayout, hencode]
    · push_cast at hle
      have hw := hwrote (by simp only; omega)
      simp only [hdes] at hw
      rw [runBytes_beyond] at hw
      have hslice := hw.run (length_memorySegments s beyond a 256) (hdone (by omega))
      refine ⟨_, ?_, ?_, h.bytes_beyond beyond hlast⟩
      · refine forall_mem_append.mpr ⟨h.valid_done, forall_mem_singleton.mpr ?_⟩
        have hlen256 := length_memorySegments s beyond a 256
        refine ⟨ne_nil_of_length_pos (by rw [hlen256]; decide), Nat.le_of_eq hlen256, fun seg hmem => ?_⟩
        obtain ⟨j, -, rfl⟩ := mem_map.mp hmem
        rw [length_map, length_range]
      · refine Eq.trans ?_ hslice
        congr 1
        rw [encode_append, encode_cons, encode_nil, append_nil, length_append, hsize,
          Piece.encode, length_cons, length_cons, ← runBytes_beyond, length_runBytes]
    · push_cast at hle
      simp only
      rw [if_pos (by omega)]
      exact Nat.lt_of_lt_of_le (Nat.lt_of_not_le hinside) (Nat.le_max_right _ _)
    · rw [Inside, hlayout, lastRun_append_run, length_segmentsFrom]
      rw [segmentCount] at hlast
      omega

/-- **A round of the loop.** -/
theorem round (h : Scanned s bufsz len a c done st) (hk : a + c < segmentCount s.length)
    (hbufsz : 0 ≤ bufsz) (hlen : bufsz ≤ len)
    (hfits : (encode (layout [] (segments s))).length ≤ intMax) :
    ∃ st', packRound (memory s beyond) s.length (8 * (a + c)) st = .ok st' ∧
      ((∃ a' c' done', a' + c' = a + c + 1 ∧ Scanned s bufsz len a' c' done' st') ∨
        a + c + 1 = segmentCount s.length ∧ Overread s beyond bufsz len st') := by
  rcases Nat.eq_zero_or_pos c with rfl | hc
  · by_cases hfull : (nonzero (segmentAt s a)).length = 8
    · obtain ⟨st', heq, hst'⟩ := h.begin beyond hk hbufsz hlen hfits hfull
      exact ⟨st', heq, Or.inl ⟨a, 1, done, rfl, hst'⟩⟩
    · obtain ⟨st', heq, hst'⟩ := h.sparse beyond hk hbufsz hlen hfits hfull
      exact ⟨st', heq, Or.inl ⟨a + 1, 0, _, rfl, hst'⟩⟩
  · by_cases hdense : 6 ≤ (nonzero (segmentAt s (a + c))).length
    · rcases Nat.lt_or_ge (c + 1) 256 with hlt | hge
      · obtain ⟨st', heq, hst'⟩ := h.extend beyond hk hbufsz hlen hfits hc hlt hdense
        exact ⟨st', heq, Or.inl ⟨a, c + 1, done, rfl, hst'⟩⟩
      · obtain rfl : c = 255 := by
          have := h.lt
          omega
        obtain ⟨st', heq, hst' | hst'⟩ := h.complete beyond hk hbufsz hlen hfits hdense
        · exact ⟨st', heq, Or.inl ⟨a + 256, 0, _, rfl, hst'⟩⟩
        · exact ⟨st', heq, Or.inr hst'⟩
    · obtain ⟨st', heq, hst'⟩ := h.breakRun beyond hk hbufsz hlen hfits hc hdense
      exact ⟨st', heq, Or.inl ⟨a + c + 1, 0, _, rfl, hst'⟩⟩

/-- **The loop**: all segments are scanned. -/
theorem loop (h : Scanned s bufsz len a c done st) (hk : a + c ≤ segmentCount s.length)
    (hbufsz : 0 ≤ bufsz) (hlen : bufsz ≤ len) (hmax : 8 * segmentCount s.length ≤ intMax)
    (hfits : (encode (layout [] (segments s))).length ≤ intMax) :
    ∃ st', packLoop (memory s beyond) s.length (8 * (a + c)) st = .ok st' ∧
      ((∃ a' c' done', a' + c' = segmentCount s.length ∧ Scanned s bufsz len a' c' done' st') ∨
        Overread s beyond bufsz len st') := by
  induction hn : segmentCount s.length - (a + c) generalizing a c done st with
  | zero =>
    have hend : a + c = segmentCount s.length := by omega
    have hle := le_segmentCount s.length
    rw [packLoop, if_neg (by omega)]
    exact ⟨st, rfl, Or.inl ⟨a, c, done, hend, h⟩⟩
  | succ n ih =>
    have hlt : a + c < segmentCount s.length := by omega
    have hin : 8 * (a + c) < s.length := by
      rw [segmentCount] at hlt
      omega
    have hint : ¬intMax < 8 * (a + c) + 8 := by omega
    obtain ⟨st₁, heq, ⟨a', c', done', hnext, hst₁⟩ | ⟨hend, hover⟩⟩ :=
      h.round beyond hlt hbufsz hlen hfits
    · rw [packLoop, if_pos hin, if_neg hint, heq]
      simp only
      rw [← Nat.mul_succ, Nat.succ_eq_add_one, ← hnext]
      exact ih hst₁ (by omega) (by omega)
    · have hle := le_segmentCount s.length
      rw [packLoop, if_pos hin, if_neg hint, heq]
      simp only
      rw [packLoop, if_neg (by omega)]
      exact ⟨st₁, rfl, Or.inr hover⟩

end Scanned

/-- The bytes that the pieces are made of: the string filled up with zeros, or with what lies behind
it. -/
def image (s : List UInt8) (beyond : ℕ → UInt8) : List UInt8 :=
  (List.range (8 * segmentCount s.length)).map (memory s beyond)

/-- What `sproto_pack` returns: the size is that of all pieces, and if there is room for them they
are written. -/
structure PackSpec (s : List UInt8) (beyond : ℕ → UInt8) (bufsz : ℤ) (r : Packed) : Prop where
  size : r.size = (encode (layout [] (segments s))).length
  content : r.size ≤ bufsz → ∃ pieces, (∀ p ∈ pieces, p.Valid) ∧
    slice r.buf 0 r.size = encode pieces ∧
    (bytes pieces = (segments s).flatten ∧ r.read ≤ s.length ∧ Inside s ∨
      bytes pieces = image s beyond ∧ s.length < r.read ∧ ¬Inside s)

/-- The pieces are complete if there is no run any more. -/
theorem Scanned.packSpec (h : Scanned s bufsz len a 0 done st)
    (hk : a = segmentCount s.length) : PackSpec s beyond bufsz ⟨st.size, st.buf, st.read⟩ := by
  have hshape := h.shape
  rw [Nat.add_zero, hk, Nat.sub_self, segmentsFrom_zero, layout, closeRun, if_pos rfl,
    append_nil] at hshape
  have hsize := h.size
  rw [openLength, if_pos rfl, Nat.add_zero] at hsize
  refine ⟨by rw [hshape, hsize], fun hle => ⟨done, h.valid_done, ?_, Or.inl ⟨?_, h.read, ?_⟩⟩⟩
  · rw [← h.content hle]
    exact congrArg (slice st.buf 0) hsize
  · rw [h.bytes_done (by omega), hk, segments_eq]
  · by_cases hlast : lastRun done = 256
    · have hle' := h.last rfl hlast
      have hge := le_segmentCount s.length
      refine Or.inl ⟨a, ?_⟩
      omega
    · exact Or.inr (hshape ▸ hlast)

variable (beyond) in
/-- The run at the end is written, as far as the string goes. -/
theorem Scanned.finish (h : Scanned s bufsz len a c done st) (hc : 0 < c)
    (hk : a + c = segmentCount s.length) (hlen : bufsz ≤ len) :
    ∃ st', st.endRun (memory s beyond) (s.length - 8 * a) = .ok st' ∧
      PackSpec s beyond bufsz ⟨st'.size, st'.buf, st'.read⟩ := by
  have hge := le_segmentCount s.length
  obtain ⟨hstart, hdes⟩ := h.start hc
  have hcount : (s.length - 8 * a + 7) / 8 = c := by
    rw [segmentCount] at hk
    omega
  have hin : 8 * a + (s.length - 8 * a) = s.length := by
    rw [segmentCount] at hk
    omega
  have hsize := h.size
  rw [openLength, if_neg (Nat.ne_of_gt hc)] at hsize
  have hbufsz_eq := h.bufsz_eq
  have hlength := h.length
  have hshape := h.shape
  rw [hk, Nat.sub_self, segmentsFrom_zero, layout, closeRun,
    if_neg (mt segmentsFrom_eq_nil.mp (Nat.ne_of_gt hc))] at hshape
  have hencode : (encode (done ++ [.run (segmentsFrom s a c)])).length = st.size := by
    rw [encode_append, encode_cons, encode_nil, append_nil, length_append, hsize,
      Piece.encode, length_cons, length_cons,
      length_flatten_segs fun seg => length_of_mem_segmentsFrom, length_segmentsFrom]
    omega
  obtain ⟨buf', hend, hlength', hwrote⟩ := endRun_spec (memory s beyond) st
    (s.length - 8 * a) hstart (by
      intro hroom
      rw [hcount, hdes]
      omega)
  refine ⟨_, hend, by rw [hshape, hencode], fun hle => ?_⟩
  simp only at hle
  have hw := hwrote (by omega)
  rw [hcount, Nat.mul_div_cancel c (by decide), hdes,
    runBytes_eq hcount (Nat.le_of_eq hin) (Or.inr hin)] at hw
  have hslice := hw.run (length_segmentsFrom s a c) (h.content hle)
  have hvalid := valid_layout [] (segments s) (by decide) fun seg hseg =>
    length_of_mem_segments hseg
  have hbytes := bytes_layout [] (segments s)
  refine ⟨_, hshape ▸ hvalid, ?_, Or.inl ⟨hshape ▸ hbytes, ?_, Or.inr ?_⟩⟩
  · rw [← hslice, hencode]
  · simp only
    split_ifs
    · exact max_le h.read (Nat.le_of_eq hin)
    · exact h.read
  · rw [hshape, lastRun_append_run, length_segmentsFrom]
    exact Nat.ne_of_lt h.lt

end Round

/-- **What is written and how far the source is read.** The size returned is that of the pieces of
the string. If there is room for them they are written, made of the string and zeros behind it, with
nothing read from behind the string; unless the last piece is a run of 256 segments that has been
filled up, which is made of what lies behind the string. -/
theorem sprotoPack_spec (s : List UInt8) (beyond : ℕ → UInt8) (buf : List UInt8) {bufsz : ℤ}
    (hbufsz : 0 ≤ bufsz) (hlen : bufsz ≤ buf.length)
    (hmax : 8 * segmentCount s.length ≤ intMax)
    (hfits : (encode (layout [] (segments s))).length ≤ intMax) :
    ∃ r, sprotoPack (memory s beyond) s.length buf bufsz = .ok r ∧ PackSpec s beyond bufsz r := by
  obtain ⟨st, heq, ⟨a, c, done, hk, hst⟩ | hover⟩ :=
    (Scanned.init s buf bufsz).loop beyond (Nat.zero_le _) hbufsz
      hlen hmax hfits
  · rw [sprotoPack, Int.toNat_natCast, heq]
    simp only [hst.ffN]
    rcases Nat.eq_zero_or_pos c with rfl | hc
    · rw [if_neg (by decide), if_neg (by decide)]
      exact ⟨_, rfl, hst.packSpec hk⟩
    · obtain ⟨st', hend, hspec⟩ := hst.finish beyond hc hk hlen
      have hone : c = 1 → s.length - 8 * a = 8 := by
        rintro rfl
        have hfull := le_of_full (hst.full hc)
        have hge := le_segmentCount s.length
        omega
      obtain ⟨hstart, -⟩ := hst.start hc
      rw [hstart, Option.getD_some]
      split_ifs with h1 h2
      · rw [← hone h1, hend]
        exact ⟨_, rfl, hspec⟩
      · rw [hend]
        exact ⟨_, rfl, hspec⟩
      · omega
  · rw [sprotoPack, Int.toNat_natCast, heq]
    simp only [hover.ffN]
    exact ⟨_, rfl, hover.size, fun hle => by
      obtain ⟨pieces, hvalid, hslice, hbytes⟩ := hover.content hle
      exact ⟨pieces, hvalid, hslice, Or.inr ⟨hbytes, hover.read hle, hover.outside⟩⟩⟩

end Mtask.Sproto
