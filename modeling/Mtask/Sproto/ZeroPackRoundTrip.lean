import Mtask.Sproto.ZeroPackLoop

/-!
# Packing zeros away and back

`sproto_unpack` gives the bytes that pieces are made of. A string that is packed and unpacked is
followed by zeros up to a multiple of eight, unless its last run of 256 segments has been filled up:
then `sproto_pack` reads what lies behind the string.
-/

namespace Mtask.Sproto

open Buffers ZeroPacking
open List

/-! ### Headers -/

/-- The bits of a header, for what is known of the bytes. -/
def headerBits (i : UInt8) : List Bool → UInt8
  | [] => 0
  | b :: bits => (if b then (1 : UInt8) <<< i else 0) ||| headerBits (i + 1) bits

theorem headerFrom_eq (i : UInt8) (seg : List UInt8) :
    headerFrom i seg = headerBits i (seg.map fun b => decide (b ≠ 0)) := by
  induction seg generalizing i with
  | nil => rfl
  | cons b seg ih =>
    rw [headerFrom, map_cons, headerBits, ih]
    simp only [decide_eq_true_eq]

/-- The bits of a header tell which bytes are zero. -/
theorem headerBits_spec (b₀ b₁ b₂ b₃ b₄ b₅ b₆ b₇ : Bool) :
    let header := headerBits 0 [b₀, b₁, b₂, b₃, b₄, b₅, b₆, b₇]
    [0, 1, 2, 3, 4, 5, 6, 7].map (fun i : UInt8 => decide (header >>> i &&& 1 ≠ 0)) =
        [b₀, b₁, b₂, b₃, b₄, b₅, b₆, b₇] ∧
      (header = 0xff → (b₀ && b₁ && b₂ && b₃ && b₄ && b₅ && b₆ && b₇) = true) := by
  revert b₀ b₁ b₂ b₃ b₄ b₅ b₆ b₇
  decide

section Header

variable {seg : List UInt8}

theorem header_bits (h : seg.length = 8) :
    [0, 1, 2, 3, 4, 5, 6, 7].map (fun i : UInt8 => decide (headerFrom 0 seg >>> i &&& 1 ≠ 0)) =
      seg.map fun b => decide (b ≠ 0) := by
  match seg, h with
  | [b₀, b₁, b₂, b₃, b₄, b₅, b₆, b₇], _ =>
    rw [headerFrom_eq]
    exact (headerBits_spec ..).1

/-- The header of a segment with a zero is not that of a run. -/
theorem header_ne (h : seg.length = 8) (hlt : (nonzero seg).length < 8) :
    headerFrom 0 seg ≠ 0xff := by
  match seg, h with
  | [b₀, b₁, b₂, b₃, b₄, b₅, b₆, b₇], _ =>
    intro hff
    rw [headerFrom_eq] at hff
    have hall := (headerBits_spec ..).2 hff
    simp only [Bool.and_eq_true, decide_eq_true_eq] at hall
    obtain ⟨⟨⟨⟨⟨⟨⟨h₀, h₁⟩, h₂⟩, h₃⟩, h₄⟩, h₅⟩, h₆⟩, h₇⟩ := hall
    simp [nonzero, h₀, h₁, h₂, h₃, h₄, h₅, h₆, h₇] at hlt

end Header

/-! ### `sproto_unpack` -/

/-- The bytes `out` are unpacked, and `rest` is left of the source. -/
structure Unpacked (len : ℕ) (rest out : List UInt8) (st : UnpackState) : Prop where
  src : st.src = rest
  srcsz : st.srcsz = rest.length
  length : st.buf.length = len
  buffer : st.buffer = out.length
  bufsz : st.bufsz = len - out.length
  size : st.size = out.length
  content : slice st.buf 0 out.length = out

variable {segs : List (List UInt8)}

namespace Unpacked

variable {len : ℕ} {rest out seg : List UInt8} {st : UnpackState} {pieces : List Piece}

theorem wrote {buf' bytes : List UInt8} (h : Unpacked len rest out st)
    (hw : Wrote st.buf out.length bytes buf') :
    slice buf' 0 (out ++ bytes).length = out ++ bytes := by
  rw [length_append, ← slice_append_slice, Nat.zero_add, hw.here,
    hw.before 0 _ (Nat.le_of_eq (Nat.zero_add _)), h.content]

theorem emit (h : Unpacked len rest out st) (b : UInt8) (hroom : out.length < len)
    (hmax : len ≤ intMax) : ∃ st', st.emit b = .ok st' ∧ Unpacked len rest (out ++ [b]) st' := by
  have hbuffer := h.buffer
  have hlength := h.length
  have hbufsz := h.bufsz
  have hsize := h.size
  obtain ⟨buf', hwrite, hwrote⟩ := write_spec st.buf st.buffer [b]
    (by rw [length_singleton]; omega)
  have hlen : (out ++ [b]).length = out.length + 1 := by
    rw [length_append, length_singleton]
  rw [UnpackState.emit, if_neg (by omega), if_pos (by omega), hwrite]
  rw [hbuffer] at hwrote
  refine ⟨_, rfl, h.src, h.srcsz, hwrote.length.trans hlength, ?_, ?_, ?_, h.wrote hwrote⟩
  · simp only
    omega
  · simp only
    rw [hlen]
    push_cast
    omega
  · simp only
    omega

theorem bits {header : UInt8} {bits : List UInt8}
    (hbits : bits.map (fun i => decide (header >>> i &&& 1 ≠ 0)) =
      seg.map fun b => decide (b ≠ 0))
    (h : Unpacked len (nonzero seg ++ rest) out st) (hroom : (out ++ seg).length ≤ len)
    (hmax : len ≤ intMax) :
    ∃ st', unpackBits header st bits = .ok st' ∧ Unpacked len rest (out ++ seg) st' := by
  induction bits generalizing seg out st with
  | nil =>
    obtain rfl : seg = [] := map_eq_nil_iff.mp hbits.symm
    rw [append_nil]
    exact ⟨st, rfl, h⟩
  | cons i bits ih =>
    match seg with
    | [] => cases hbits
    | b :: seg =>
      rw [map_cons, map_cons, List.cons.injEq, decide_eq_decide] at hbits
      obtain ⟨hbit, hrest⟩ := hbits
      rw [length_append, length_cons] at hroom
      have hroom' : ((out ++ [b]) ++ seg).length ≤ len := by
        rw [length_append, length_append, length_singleton]
        omega
      rw [unpackBits]
      by_cases hb : b = 0
      · subst hb
        rw [nonzero_cons_zero] at h
        obtain ⟨st₁, hemit, h₁⟩ := h.emit 0 (by omega) hmax
        obtain ⟨st', heq, h'⟩ := ih hrest h₁ hroom'
        rw [if_neg (mt hbit.mp (by simp)), hemit]
        refine ⟨st', heq, ?_⟩
        rwa [append_assoc, singleton_append] at h'
      · rw [nonzero_cons_of_ne hb, cons_append] at h
        have hsrcsz := h.srcsz
        rw [length_cons] at hsrcsz
        have htail : Unpacked len (nonzero seg ++ rest) out
            { st with src := st.src.tail, srcsz := st.srcsz - 1 } :=
          ⟨by rw [h.src]; rfl, by rw [hsrcsz]; push_cast; omega, h.length, h.buffer, h.bufsz, h.size,
            h.content⟩
        obtain ⟨st₁, hemit, h₁⟩ := htail.emit b (by omega) hmax
        obtain ⟨st', heq, h'⟩ := ih hrest h₁ hroom'
        have hhead : st.src.headD 0 = b := by
          rw [h.src]
          rfl
        rw [if_pos (hbit.mpr hb), if_neg (by omega), if_neg (fun hnil => ?_), hhead, hemit]
        · refine ⟨st', heq, ?_⟩
          rwa [append_assoc, singleton_append] at h'
        · rw [h.src] at hnil
          cases hnil.2

theorem run (hvalid : (Piece.run segs).Valid)
    (h : Unpacked len (UInt8.ofNat (segs.length - 1) :: (segs.flatten ++ rest)) out st)
    (hroom : (out ++ segs.flatten).length ≤ len) (hmax : len ≤ intMax) :
    ∃ st', unpackRun st = .ok st' ∧ Unpacked len rest (out ++ segs.flatten) st' := by
  obtain ⟨hne, hle, hlen⟩ := hvalid
  have hpos := length_pos_iff.mpr hne
  have hflatten := length_flatten_segs hlen
  have hcount : ((UInt8.ofNat (segs.length - 1)).toNat + 1) * 8 = segs.flatten.length := by
    rw [UInt8.toNat_ofNat']
    omega
  have hsrcsz := h.srcsz
  rw [length_cons, length_append] at hsrcsz
  rw [length_append] at hroom
  have hbuffer := h.buffer
  have hlength := h.length
  have hbufsz := h.bufsz
  have hsize := h.size
  obtain ⟨buf', hwrite, hwrote⟩ := write_spec st.buf st.buffer segs.flatten (by omega)
  rw [unpackRun, h.src]
  simp only
  rw [hcount, take_left, drop_left, if_neg (by push_cast at hsrcsz ⊢; omega),
    if_neg (by rw [intMin]; rw [intMax] at *; omega), if_pos (by omega), hwrite]
  rw [hbuffer] at hwrote
  refine ⟨_, rfl, rfl, ?_, hwrote.length.trans hlength, ?_, ?_, ?_, h.wrote hwrote⟩
  · simp only
    push_cast at hsrcsz ⊢
    omega
  · rw [length_append, hbuffer]
  · rw [length_append, hbufsz]
    push_cast
    omega
  · rw [length_append, hsize]

theorem piece {p : Piece} (hvalid : p.Valid) (h : Unpacked len (p.encode ++ rest) out st)
    (hroom : (out ++ p.bytes).length ≤ len) (hmax : len ≤ intMax) (fuel : ℕ) :
    ∃ st', unpackLoop (fuel + 1) st = unpackLoop fuel st' ∧
      Unpacked len rest (out ++ p.bytes) st' := by
  have hsrcsz := h.srcsz
  have hsrc := h.src
  cases p with
  | sparse seg =>
    obtain ⟨hlen, hlt⟩ := hvalid
    rw [Piece.encode, cons_append] at hsrc hsrcsz
    rw [length_cons] at hsrcsz
    have htail : Unpacked len (nonzero seg ++ rest) out
        { st with src := nonzero seg ++ rest, srcsz := st.srcsz - 1 } :=
      ⟨rfl, by rw [hsrcsz]; push_cast; omega, h.length, h.buffer, h.bufsz, h.size, h.content⟩
    obtain ⟨st', heq, h'⟩ := htail.bits (header_bits hlen) hroom hmax
    rw [unpackLoop, if_pos (by omega), hsrc]
    simp only
    rw [if_neg (header_ne hlen hlt), heq]
    exact ⟨st', rfl, h'⟩
  | run segs =>
    rw [Piece.encode, cons_append, cons_append] at hsrc hsrcsz
    rw [length_cons] at hsrcsz
    have htail : Unpacked len (UInt8.ofNat (segs.length - 1) :: (segs.flatten ++ rest)) out
        { st with
          src := UInt8.ofNat (segs.length - 1) :: (segs.flatten ++ rest)
          srcsz := st.srcsz - 1 } :=
      ⟨rfl, by rw [hsrcsz]; push_cast; omega, h.length, h.buffer, h.bufsz, h.size, h.content⟩
    obtain ⟨st', heq, h'⟩ := htail.run hvalid hroom hmax
    rw [unpackLoop, if_pos (by omega), hsrc]
    simp only
    rw [if_pos trivial, heq]
    exact ⟨st', rfl, h'⟩

theorem length_encode_pos (p : Piece) : 0 < p.encode.length := by
  cases p <;> exact Nat.succ_pos _

theorem loop (hvalid : ∀ p ∈ pieces, p.Valid) (h : Unpacked len (encode pieces) out st)
    (hroom : (out ++ bytes pieces).length ≤ len) (hmax : len ≤ intMax) {fuel : ℕ}
    (hfuel : (encode pieces).length ≤ fuel) :
    ∃ st', unpackLoop fuel st = .ok st' ∧ Unpacked len [] (out ++ bytes pieces) st' := by
  induction pieces generalizing out st fuel with
  | nil =>
    rw [bytes_nil, append_nil]
    have hsrcsz := h.srcsz
    rw [encode_nil, length_nil] at hsrcsz
    refine ⟨st, ?_, h⟩
    cases fuel with
    | zero => rfl
    | succ fuel => rw [unpackLoop, if_neg (by omega)]
  | cons p pieces ih =>
    obtain ⟨hp, hpieces⟩ := forall_mem_cons.mp hvalid
    have hpos := length_encode_pos p
    rw [encode_cons, length_append] at hfuel
    rw [encode_cons] at h
    rw [bytes_cons, ← append_assoc] at hroom ⊢
    obtain ⟨fuel, rfl⟩ : ∃ n, fuel = n + 1 := ⟨fuel - 1, by omega⟩
    have hroom' : (out ++ p.bytes).length ≤ len := by
      rw [length_append] at hroom
      omega
    obtain ⟨st₁, heq, h₁⟩ := h.piece hp hroom' hmax fuel
    rw [heq]
    exact ih hpieces h₁ hroom (by omega)

end Unpacked

/-- **Pieces are unpacked.** -/
theorem sprotoUnpack_encode {pieces : List Piece} (buf : List UInt8)
    (hvalid : ∀ p ∈ pieces, p.Valid) (hroom : (bytes pieces).length ≤ buf.length)
    (hmax : buf.length ≤ intMax) :
    ∃ buf', sprotoUnpack (encode pieces) buf = .ok ((bytes pieces).length, buf') ∧
      buf'.take (bytes pieces).length = bytes pieces := by
  have hstart : Unpacked buf.length (encode pieces) []
      ⟨encode pieces, (encode pieces).length, buf, 0, buf.length, 0⟩ :=
    ⟨rfl, rfl, rfl, rfl, (sub_zero _).symm, rfl, rfl⟩
  obtain ⟨st', heq, h⟩ := hstart.loop hvalid hroom hmax le_rfl
  refine ⟨st'.buf, ?_, h.content⟩
  rw [sprotoUnpack, heq]
  simp only
  rw [h.size, nil_append]

/-! ### The round trip -/

/-- A string is packed into `buf` without a byte read from behind it, and what is unpacked into
`out` is the string and zeros up to the next multiple of eight. -/
def RoundTrips (s : List UInt8) (beyond : ℕ → UInt8) (buf out : List UInt8) : Prop :=
  ∃ r, sprotoPack (memory s beyond) s.length buf buf.length = .ok r ∧ r.read ≤ s.length ∧
    ∃ n out', sprotoUnpack (r.buf.take r.size) out = .ok (n, out') ∧
      out'.take n = s ++ List.replicate (padding s.length) 0

variable {beyond : ℕ → UInt8} {bufsz : ℤ} {r : Packed}

theorem PackSpec.unpack {s out : List UInt8} (h : PackSpec s beyond bufsz r)
    (hroom : r.size ≤ bufsz) (hinside : Inside s) (hout : 8 * segmentCount s.length ≤ out.length)
    (hmax : out.length ≤ intMax) :
    r.read ≤ s.length ∧ ∃ n out', sprotoUnpack (r.buf.take r.size) out = .ok (n, out') ∧
      out'.take n = s ++ List.replicate (padding s.length) 0 := by
  obtain ⟨pieces, hvalid, hslice, ⟨hbytes, hread, -⟩ | ⟨-, -, hnot⟩⟩ := h.content hroom
  · have hlength : (bytes pieces).length = 8 * segmentCount s.length := by
      rw [hbytes, length_flatten_segs fun seg => length_of_mem_segments, segments,
        length_map, length_range]
    obtain ⟨out', heq, htake⟩ := sprotoUnpack_encode out hvalid (hlength ▸ hout) hmax
    refine ⟨hread, _, out', (congrArg (sprotoUnpack · out) hslice).trans heq, ?_⟩
    rw [htake, hbytes, flatten_segments]
  · exact absurd hinside hnot

/-- A run that has been filled up is read from behind the string. -/
theorem PackSpec.lt_read {s : List UInt8} (h : PackSpec s beyond bufsz r) (hroom : r.size ≤ bufsz)
    (hnot : ¬Inside s) : s.length < r.read := by
  obtain ⟨-, -, -, ⟨-, -, hinside⟩ | ⟨-, hlt, -⟩⟩ := h.content hroom
  · exact absurd hinside hnot
  · exact hlt

section RoundTrips

variable {s buf out : List UInt8}

theorem sprotoPack_fits (s : List UInt8) (beyond : ℕ → UInt8)
    (hbuf : (encode (layout [] (segments s))).length ≤ buf.length) (hbufmax : buf.length ≤ intMax)
    (hmax : 8 * segmentCount s.length ≤ intMax) :
    ∃ r, sprotoPack (memory s beyond) s.length buf buf.length = .ok r ∧
      PackSpec s beyond buf.length r ∧ (r.size : ℤ) ≤ buf.length := by
  obtain ⟨r, heq, hspec⟩ := sprotoPack_spec s beyond buf (Int.natCast_nonneg buf.length)
    (Int.le_refl _) hmax (Nat.le_trans hbuf hbufmax)
  refine ⟨r, heq, hspec, ?_⟩
  rw [hspec.size]
  exact Int.ofNat_le.mpr hbuf

theorem not_roundTrips (beyond : ℕ → UInt8)
    (hbuf : (encode (layout [] (segments s))).length ≤ buf.length) (hbufmax : buf.length ≤ intMax)
    (hmax : 8 * segmentCount s.length ≤ intMax) (hnot : ¬Inside s) :
    ¬RoundTrips s beyond buf out := by
  obtain ⟨r, heq, hspec, hroom⟩ := sprotoPack_fits s beyond hbuf hbufmax hmax
  rintro ⟨r', heq', hread, -⟩
  obtain rfl : r = r' := Except.ok.inj (heq.symm.trans heq')
  exact Nat.not_lt_of_le hread (hspec.lt_read hroom hnot)

/-- **Packing zeros away and back, a round trip.** A string is packed and unpacked as it should be,
with nothing read but the string, if and only if its length is a multiple of eight or its last
segments are not a run of 256. -/
theorem packing_roundTrips_iff (beyond : ℕ → UInt8)
    (hbuf : (encode (layout [] (segments s))).length ≤ buf.length) (hbufmax : buf.length ≤ intMax)
    (hout : 8 * segmentCount s.length ≤ out.length) (houtmax : out.length ≤ intMax) :
    RoundTrips s beyond buf out ↔ Inside s := by
  have hmax : 8 * segmentCount s.length ≤ intMax := Nat.le_trans hout houtmax
  refine ⟨fun htrips => ?_, fun hinside => ?_⟩
  · by_contra hnot
    exact not_roundTrips beyond hbuf hbufmax hmax hnot htrips
  · obtain ⟨r, heq, hspec, hroom⟩ := sprotoPack_fits s beyond hbuf hbufmax hmax
    exact ⟨r, heq, hspec.unpack hroom hinside hout houtmax⟩

/-- A run of a segment, and a segment of a byte. -/
theorem packing_roundTrips_iff_nine :
    RoundTrips [1, 2, 3, 4, 5, 6, 7, 8, 9] (fun _ => 0) (List.replicate 12 0)
      (List.replicate 16 0) ↔ Inside [1, 2, 3, 4, 5, 6, 7, 8, 9] :=
  packing_roundTrips_iff (fun _ => 0) (by decide) (by decide) (by decide) (by decide)

theorem layout_replicate {opn : List (List UInt8)} {seg : List UInt8} {k : ℕ} (hopn : opn ≠ [])
    (hseg : 6 ≤ (nonzero seg).length) (hk : opn.length + k < 256) :
    layout opn (List.replicate k seg ++ segs) = layout (opn ++ List.replicate k seg) segs := by
  induction k generalizing opn with
  | zero => rw [replicate_zero, nil_append, append_nil]
  | succ k ih =>
    rw [replicate_succ, cons_append, layout, if_neg hopn, if_pos hseg,
      if_neg (by omega), ih (append_ne_nil_of_left_ne_nil hopn _), append_assoc,
      singleton_append]
    rw [length_append, length_singleton]
    omega

theorem segmentAt_replicate (n k : ℕ) (b : UInt8) :
    segmentAt (List.replicate n b) k =
      (List.range 8).map fun j => if 8 * k + j < n then b else 0 := by
  refine map_congr_left fun j _ => ?_
  split_ifs with h
  · rw [getD_eq_getElem _ _ (by rwa [length_replicate]), getElem_replicate]
  · exact getD_eq_default _ _ (by rw [length_replicate]; omega)

theorem layout_dense :
    layout [] (segments (List.replicate 2046 1)) =
      [.run (List.replicate 255 (List.replicate 8 1) ++ [[1, 1, 1, 1, 1, 1, 0, 0]])] := by
  have hlast : segmentAt (List.replicate 2046 1) 255 = [1, 1, 1, 1, 1, 1, 0, 0] := by
    rw [segmentAt_replicate]
    decide
  have hfirst : (List.range 255).map (segmentAt (List.replicate 2046 1)) =
      List.replicate 255 (List.replicate 8 1) := by
    refine eq_replicate_iff.mpr ⟨by rw [length_map, length_range], fun seg h => ?_⟩
    obtain ⟨k, hk, rfl⟩ := mem_map.mp h
    have hlt := mem_range.mp hk
    rw [segmentAt_replicate]
    refine map_congr_left fun j hj => if_pos ?_
    have hj := mem_range.mp hj
    omega
  have hsegments : segments (List.replicate 2046 1) = List.replicate 8 1 ::
      (List.replicate 254 (List.replicate 8 1) ++ [[1, 1, 1, 1, 1, 1, 0, 0]]) := by
    rw [segments, length_replicate]
    change (List.range (255 + 1)).map _ = _
    rw [range_succ, map_append, hfirst, map_singleton, hlast]
    rfl
  rw [hsegments, layout, if_pos rfl, if_pos (by decide),
    layout_replicate (cons_ne_nil _ _) (by decide) (by decide), layout,
    if_neg (append_ne_nil_of_left_ne_nil (cons_ne_nil _ _) _), if_pos (by decide),
    if_pos (by rw [length_append, length_replicate, length_singleton])]
  rfl

/-- 2046 bytes are filled up in the temporary, but written from the source. -/
theorem roundTrips_fails :
    ¬RoundTrips (List.replicate 2046 1) (fun _ => 7) (List.replicate 4096 0)
      (List.replicate 4096 0) := by
  have hbuf : (encode (layout [] (segments (List.replicate 2046 1)))).length = 2050 := by
    rw [layout_dense, encode_cons, encode_nil, append_nil, Piece.encode, length_cons,
      length_cons, length_flatten_segs]
    · rw [length_append, length_replicate, length_singleton]
    · exact List.forall_mem_append.mpr ⟨fun seg h => by
        rw [List.eq_of_mem_replicate h, length_replicate], by simp⟩
  have hnot : ¬Inside (List.replicate 2046 1) := by
    rw [Inside, layout_dense, length_replicate]
    rintro (hdvd | hlast)
    · omega
    · refine hlast ?_
      refine (@lastRun_append_run [] _).trans ?_
      rw [length_append, length_replicate, length_singleton]
  refine not_roundTrips _ ?_ ?_ ?_ hnot
  · rw [hbuf, length_replicate]
    decide
  · rw [length_replicate]
    decide
  · rw [length_replicate]
    decide

end RoundTrips

end Mtask.Sproto
