import Mtask.Sproto.ZeroPackRoundTrip

/-!
# The room for packing

`lpack` makes room for the string and two bytes for every 2 KiB. What `sproto_pack` needs besides
the string are the headers and the zeros that fill up the last segment; what it saves are the zeros.
The headers never cost more than what is saved and two bytes for 256 segments, but the zeros at the
end have not been thought of.
-/

namespace Mtask.Sproto

open Buffers ZeroPacking
open List

/-! ### `expand_buffer` -/

section Expand

variable {nsz : ℤ} {output : Output}

theorem encodeBuffersize_mul_le {d e : ℕ} (h : d ≤ e) :
    encodeBuffersize * 2 ^ d ≤ encodeBuffersize * 2 ^ e :=
  Nat.mul_le_mul_left _ (Nat.pow_le_pow_right (by decide) h)

theorem expandLoop_overflow {d k : ℕ} (hd : d + k = 19)
    (h : (encodeBuffersize * 2 ^ 19 : ℕ) < nsz) : expandLoop d nsz = .error .overflow := by
  induction k generalizing d with
  | zero =>
    obtain rfl : d = 19 := hd
    rw [expandLoop, dif_pos (by decide)]
  | succ k ih =>
    have hle : encodeBuffersize * 2 ^ (d + 1) ≤ encodeBuffersize * 2 ^ 19 :=
      encodeBuffersize_mul_le (by omega)
    have hmax : encodeBuffersize * 2 ^ 19 ≤ intMax := by decide
    rw [expandLoop, dif_neg (by omega), if_pos (by omega)]
    exact ih (by omega)

/-- Doubling ends with the first size that is large enough. -/
theorem expandLoop_ok {d k : ℕ} (hd : d + k = 18) (h : nsz ≤ (encodeBuffersize * 2 ^ 19 : ℕ)) :
    ∃ e, expandLoop d nsz = .ok e ∧ d < e ∧ nsz ≤ (encodeBuffersize * 2 ^ e : ℕ) ∧
      (e = d + 1 ∨ (encodeBuffersize * 2 ^ (e - 1) : ℕ) < nsz) := by
  have hmax : encodeBuffersize * 2 ^ 19 ≤ intMax := by decide
  induction k generalizing d with
  | zero =>
    obtain rfl : d = 18 := hd
    rw [expandLoop, dif_neg (by omega), if_neg (by omega)]
    exact ⟨_, rfl, Nat.lt_succ_self _, h, Or.inl rfl⟩
  | succ k ih =>
    have hle : encodeBuffersize * 2 ^ (d + 1) ≤ encodeBuffersize * 2 ^ 19 :=
      encodeBuffersize_mul_le (by omega)
    rw [expandLoop, dif_neg (by omega)]
    split_ifs with hlt
    · obtain ⟨e, heq, hde, hroom, hlast⟩ := ih (d := d + 1) (by omega)
      refine ⟨e, heq, Nat.lt_of_succ_lt hde, hroom, Or.inr ?_⟩
      rcases hlast with rfl | hlast
      · exact hlt
      · exact hlast
    · exact ⟨_, rfl, Nat.lt_succ_self _, Int.not_lt.mp hlt, Or.inl rfl⟩

theorem Output.doublings_le (output : Output) : output.doublings ≤ 12 := by
  by_contra hlt
  have hle : encodeBuffersize * 2 ^ 13 ≤ encodeBuffersize * 2 ^ output.doublings :=
    encodeBuffersize_mul_le (by omega)
  rw [← output.length_eq] at hle
  exact absurd (Nat.le_trans hle output.length_le) (by decide)

theorem Output.length_le_room (output : Output) :
    output.bytes.length ≤ encodeBuffersize * 2 ^ 12 := by
  rw [output.length_eq]
  exact encodeBuffersize_mul_le output.doublings_le

theorem expandBuffer_overflow (fresh : ℕ → UInt8) (h : (encodeBuffersize * 2 ^ 19 : ℕ) < nsz) :
    expandBuffer output nsz fresh = .error (.fault .overflow) := by
  have hle := output.doublings_le
  rw [expandBuffer, expandLoop_overflow (k := 19 - output.doublings) (by omega) h]

theorem expandBuffer_tooLarge (fresh : ℕ → UInt8) (h : nsz ≤ (encodeBuffersize * 2 ^ 19 : ℕ))
    (hlarge : (encodeBuffersize * 2 ^ 12 : ℕ) < nsz ∨ output.doublings = 12) :
    expandBuffer output nsz fresh = .error (.raised tooLarge) := by
  have hle := output.doublings_le
  obtain ⟨e, heq, hlt, hroom, -⟩ := expandLoop_ok (d := output.doublings)
    (k := 18 - output.doublings) (by omega) h
  have he : 13 ≤ e := by
    rcases hlarge with hlarge | hlarge
    · by_contra hcon
      have := encodeBuffersize_mul_le (d := e) (e := 12) (by omega)
      omega
    · omega
  have hge := encodeBuffersize_mul_le he
  have hmax : encodeMaxsize < encodeBuffersize * 2 ^ 13 := by decide
  rw [expandBuffer, heq]
  exact dif_neg (by omega)

theorem expandBuffer_ok (fresh : ℕ → UInt8) (h : nsz ≤ (encodeBuffersize * 2 ^ 12 : ℕ))
    (hlt : output.doublings < 12) :
    ∃ output', expandBuffer output nsz fresh = .ok output' ∧ nsz ≤ output'.bytes.length := by
  have hmore : nsz ≤ (encodeBuffersize * 2 ^ 19 : ℕ) :=
    Int.le_trans h (Int.ofNat_le.mpr (encodeBuffersize_mul_le (by decide)))
  obtain ⟨e, heq, hde, hroom, hlast⟩ := expandLoop_ok (d := output.doublings)
    (k := 18 - output.doublings) (by omega) hmore
  have he : e ≤ 12 := by
    rcases hlast with rfl | hlast
    · exact hlt
    · by_contra hcon
      have hle := encodeBuffersize_mul_le (Nat.le_sub_one_of_lt (Nat.not_le.mp hcon))
      exact Int.not_lt.mpr (Int.le_trans h (Int.ofNat_le.mpr hle)) hlast
  have hfits : encodeBuffersize * 2 ^ e ≤ encodeMaxsize :=
    Nat.le_trans (encodeBuffersize_mul_le he) (by decide)
  rw [expandBuffer, heq]
  simp only [dif_pos hfits]
  refine ⟨_, rfl, ?_⟩
  rw [length_map, length_range]
  exact hroom

end Expand

/-! ### How much `sproto_unpack` can give -/

section Unpack

variable {st st' : UnpackState}

/-- A byte gives eight at most. -/
structure Within (st : UnpackState) (more : ℕ) (st' : UnpackState) : Prop where
  size : st'.size + 8 * st'.src.length ≤ st.size + 8 * st.src.length + more
  srcsz : st.srcsz ≤ st.src.length → st'.srcsz ≤ st'.src.length

theorem UnpackState.emit_within {b : UInt8} (h : st.emit b = .ok st') : Within st 1 st' := by
  rw [UnpackState.emit] at h
  split_ifs at h with hmax hroom
  · split at h
    · obtain rfl := Except.ok.inj h
      exact ⟨by simp only; omega, id⟩
    · cases h
  · obtain rfl := Except.ok.inj h
    exact ⟨by simp only; omega, id⟩

theorem unpackBits_within {header : UInt8} {bits : List UInt8}
    (h : unpackBits header st bits = .ok st') : Within st bits.length st' := by
  induction bits generalizing st with
  | nil =>
    obtain rfl := Except.ok.inj h
    exact ⟨le_rfl, id⟩
  | cons i bits ih =>
    rw [unpackBits] at h
    rw [length_cons]
    split_ifs at h with hbit hneg hnil
    · split at h
      · rename_i st₁ hemit
        have hone := UnpackState.emit_within hemit
        have hmore := ih h
        have hsize := hone.size
        have hsize' := hmore.size
        have htail := length_tail (l := st.src)
        simp only at hsize
        refine ⟨by omega, fun hsrcsz => hmore.srcsz (hone.srcsz ?_)⟩
        simp only
        omega
      · cases h
    · split at h
      · rename_i st₁ hemit
        have hone := UnpackState.emit_within hemit
        have hmore := ih h
        have hsize := hone.size
        have hsize' := hmore.size
        exact ⟨by omega, fun hsrcsz => hmore.srcsz (hone.srcsz hsrcsz)⟩
      · cases h

theorem unpackRun_within (h : unpackRun st = .ok st') (hsrcsz : st.srcsz ≤ st.src.length) :
    Within st 0 st' := by
  rw [unpackRun] at h
  split at h
  · split_ifs at h
  · rename_i count src hsrc
    simp only at h
    rw [hsrc, length_cons] at hsrcsz
    split_ifs at h with hinvalid hover hroom
    · split at h
      · obtain rfl := Except.ok.inj h
        refine ⟨?_, fun _ => ?_⟩
        · simp only [hsrc, length_cons, length_drop]
          omega
        · simp only [length_drop]
          omega
      · cases h
    · obtain rfl := Except.ok.inj h
      refine ⟨?_, fun _ => ?_⟩
      · simp only [hsrc, length_cons, length_drop]
        omega
      · simp only [length_drop]
        omega

theorem unpackLoop_size_le {fuel : ℕ} (h : unpackLoop fuel st = .ok st')
    (hsrcsz : st.srcsz ≤ st.src.length) : st'.size ≤ st.size + 8 * st.src.length := by
  induction fuel generalizing st with
  | zero =>
    obtain rfl := Except.ok.inj h
    exact Nat.le_add_right _ _
  | succ fuel ih =>
    rw [unpackLoop] at h
    split_ifs at h with hpos
    · split at h
      · cases h
      · rename_i header src hsrc
        rw [hsrc, length_cons] at hsrcsz ⊢
        simp only at h
        have htail : ({ st with src, srcsz := st.srcsz - 1 } : UnpackState).srcsz ≤ src.length := by
          simp only
          omega
        split at h
        · rename_i st₁ hround
          have hwithin : Within { st with src, srcsz := st.srcsz - 1 } 8 st₁ := by
            split_ifs at hround with hff
            · obtain ⟨hsize, hle⟩ := unpackRun_within hround htail
              exact ⟨Nat.le_add_right_of_le hsize, hle⟩
            · exact unpackBits_within hround
          have hrest := ih h (hwithin.srcsz htail)
          have hsize := hwithin.size
          simp only at hsize
          omega
        · cases h
    · obtain rfl := Except.ok.inj h
      exact Nat.le_add_right _ _

/-- **A byte gives eight at most.** -/
theorem sprotoUnpack_size_le {src buf out : List UInt8} {n : ℕ}
    (h : sprotoUnpack src buf = .ok (n, out)) : n ≤ 8 * src.length := by
  rw [sprotoUnpack] at h
  split at h
  · rename_i st hloop
    obtain ⟨rfl, rfl⟩ := Prod.mk.inj (Except.ok.inj h)
    exact Nat.le_trans (unpackLoop_size_le hloop (Int.le_refl _)) (Nat.le_of_eq (Nat.zero_add _))
  · cases h

end Unpack

/-! ### The bound -/

/-- Nothing is lost: the string can be unpacked, and what is packed is in front. -/
def Keeps (s str : List UInt8) : Prop :=
  ∃ out n out', sprotoUnpack str out = .ok (n, out') ∧ n ≤ out.length ∧ s <+: out'.take n

/-- What `lpack` should do: the string that is returned keeps what is packed, and the only error is
that of `expand_buffer`. -/
def Packs (s : List UInt8) (beyond : ℕ → UInt8) (output : Output) (fresh : ℕ → UInt8) : Prop :=
  match lpack (memory s beyond) s.length output fresh with
  | .ok (str, _) => Keeps s str
  | .error e => e = .raised tooLarge

/-- The headers and the zeros at the end are within the bound. -/
def Fits (s : List UInt8) : Prop :=
  overhead (layout [] (segments s)) + padding s.length ≤
    saved (layout [] (segments s)) + (s.length + 2047) / 2048 * 2

/-- The bound fits into the largest userdata, and what is packed into the bound; or `expand_buffer`
refuses the bound, as an `int`, because doubling goes too far without an overflow. -/
def Bounded (s : List UInt8) (output : Output) : Prop :=
  maxsz s.length ≤ encodeBuffersize * 2 ^ 12 ∧ Fits s ∨
    encodeBuffersize * 2 ^ 12 < maxsz s.length ∧
      toInt (maxsz s.length) ≤ (encodeBuffersize * 2 ^ 19 : ℕ) ∧
      ((encodeBuffersize * 2 ^ 12 : ℕ) < toInt (maxsz s.length) ∨ output.doublings = 12)

section Bound

variable {s : List UInt8} {beyond : ℕ → UInt8} {output : Output} {fresh : ℕ → UInt8}

theorem toInt_of_lt {n : ℕ} (h : n < 2 ^ 31) : toInt n = n := by
  have hmod : n % 2 ^ 32 = n := Nat.mod_eq_of_lt (by omega)
  rw [toInt, hmod, if_neg (by omega)]

theorem length_encode_layout (s : List UInt8) :
    (encode (layout [] (segments s))).length + saved (layout [] (segments s)) =
      s.length + padding s.length + overhead (layout [] (segments s)) := by
  have hlen : ∀ seg ∈ [] ++ segments s, seg.length = 8 := fun seg => length_of_mem_segments
  rw [length_encode_add (valid_layout [] (segments s) (by decide) hlen), bytes_layout,
    flatten_nil, nil_append, flatten_segments, length_append,
    length_replicate]

/-- The size of what is packed is within the bound. -/
theorem size_le_iff : (encode (layout [] (segments s))).length ≤ maxsz s.length ↔ Fits s := by
  have hlength := length_encode_layout s
  rw [Fits, maxsz]
  omega

theorem overhead_layout_segments_le (s : List UInt8) :
    overhead (layout [] (segments s)) ≤
      saved (layout [] (segments s)) + (s.length + 2047) / 2048 * 2 := by
  have hle := @overhead_layout_le [] (segments s) (fun seg => length_of_mem_segments) (by decide)
  have hcount : (segments s).length = segmentCount s.length := by
    rw [segments, length_map, length_range]
  rw [hcount, length_nil, segmentCount] at hle
  omega

theorem padding_lt (len : ℕ) : padding len < 8 := by
  rw [padding, segmentCount]
  omega

theorem prefix_image : s <+: image s beyond := by
  rw [image, show 8 * segmentCount s.length = s.length + padding s.length by
    have := le_segmentCount s.length
    rw [padding]
    omega, range_add, map_append]
  have hs : (List.range s.length).map (memory s beyond) = s := by
    refine ext_getElem (by rw [length_map, length_range]) fun i hi hi' => ?_
    rw [getElem_map, getElem_range, memory, getD_eq_getElem _ _ hi']
  rw [hs]
  exact prefix_append _ _

/-- What is packed when there is room for it can be unpacked. -/
theorem PackSpec.keeps {bufsz : ℤ} {r : Packed} (h : PackSpec s beyond bufsz r)
    (hroom : r.size ≤ bufsz) (hmax : 8 * segmentCount s.length ≤ intMax) :
    Keeps s (r.buf.take r.size) := by
  obtain ⟨pieces, hvalid, hslice, hbytes⟩ := h.content hroom
  have hprefix : s <+: bytes pieces ∧ (bytes pieces).length = 8 * segmentCount s.length := by
    rcases hbytes with ⟨hbytes, -⟩ | ⟨hbytes, -⟩
    · rw [hbytes]
      refine ⟨?_, ?_⟩
      · rw [flatten_segments]
        exact prefix_append _ _
      · rw [length_flatten_segs fun seg => length_of_mem_segments, segments, length_map,
          length_range]
    · rw [hbytes]
      exact ⟨prefix_image, by rw [image, length_map, length_range]⟩
  have hlength : (List.replicate (8 * segmentCount s.length) (0 : UInt8)).length =
      (bytes pieces).length := by
    rw [length_replicate, hprefix.2]
  obtain ⟨out', heq, htake⟩ := sprotoUnpack_encode
    (List.replicate (8 * segmentCount s.length) 0) hvalid (Nat.le_of_eq hlength.symm)
    (by rwa [length_replicate])
  refine ⟨_, _, out', (congrArg (sprotoUnpack · _) hslice).trans heq, Nat.le_of_eq hlength.symm, ?_⟩
  rw [htake]
  exact hprefix.1

/-- What is kept is not longer than eight times the string. -/
theorem Keeps.length_le {str : List UInt8} (h : Keeps s str) : s.length ≤ 8 * str.length := by
  obtain ⟨out, n, out', heq, -, hprefix⟩ := h
  have hle := hprefix.length_le
  rw [length_take] at hle
  exact Nat.le_trans (Nat.le_trans hle (Nat.min_le_left _ _)) (sprotoUnpack_size_le heq)

theorem messages_ne (n m : ℕ) :
    s!"packing error, return size = {n}" ≠ s!"object is too large (>{m})" := by
  intro h
  have hfirst := congrArg (fun message : String => message.toList.head?) h
  simp only [String.toList_append] at hfirst
  rw [append_assoc] at hfirst
  change some 'p' = some 'o' at hfirst
  exact absurd hfirst (by decide)

theorem packingError_ne (n : ℕ) : packingError n ≠ tooLarge :=
  messages_ne n encodeMaxsize

theorem room_lt : encodeBuffersize * 2 ^ 12 < 2 ^ 23 + 2 ^ 14 := by decide

theorem lpackOutput_small (output : Output) (fresh : ℕ → UInt8)
    (h : maxsz s.length ≤ encodeBuffersize * 2 ^ 12) :
    ∃ output', lpackOutput s.length output fresh = .ok output' ∧
      maxsz s.length ≤ output'.bytes.length := by
  have hroom := room_lt
  rw [lpackOutput]
  split_ifs with hlt
  · have htoInt : toInt (maxsz s.length) = maxsz s.length := toInt_of_lt (by omega)
    have hdoublings : output.doublings < 12 := by
      refine Nat.lt_of_le_of_ne output.doublings_le fun heq => ?_
      have hlength := output.length_eq
      rw [heq] at hlength
      exact Nat.not_lt_of_le h (hlength ▸ hlt)
    rw [htoInt]
    obtain ⟨output', heq, hle⟩ := expandBuffer_ok fresh (Int.ofNat_le.mpr h) hdoublings
    exact ⟨output', heq, Int.ofNat_le.mp hle⟩
  · exact ⟨output, rfl, Nat.not_lt.mp hlt⟩

theorem packs_small (h : maxsz s.length ≤ encodeBuffersize * 2 ^ 12) :
    Packs s beyond output fresh ↔ Fits s := by
  have hroom := room_lt
  have hsz : s.length ≤ maxsz s.length := Nat.le_add_left _ _
  have htoInt : toInt s.length = s.length := toInt_of_lt (by omega)
  have htoInt' : toInt (maxsz s.length) = maxsz s.length := toInt_of_lt (by omega)
  have hmax : 8 * segmentCount s.length ≤ intMax := by
    rw [segmentCount, intMax]
    omega
  have hfits : (encode (layout [] (segments s))).length ≤ intMax := by
    have hlength := length_encode_layout s
    have hle := overhead_layout_segments_le s
    have hpadding := padding_lt s.length
    rw [intMax]
    omega
  obtain ⟨output', houtput, hle⟩ := lpackOutput_small output fresh h
  obtain ⟨r, heq, hspec⟩ := sprotoPack_spec s beyond output'.bytes
    (Int.natCast_nonneg (maxsz s.length)) (Int.ofNat_le.mpr hle) hmax hfits
  rw [Packs, lpack, houtput, htoInt, htoInt']
  simp only [heq]
  rw [← size_le_iff, ← hspec.size]
  split_ifs with hlt hlt'
  · simp only [LpackFault.raised.injEq]
    exact iff_of_false (packingError_ne _) (Nat.not_le_of_lt hlt)
  · omega
  · exact iff_of_true (hspec.keeps (Int.ofNat_le.mpr (Nat.not_lt.mp hlt)) hmax)
      (Nat.not_lt.mp hlt)

/-- Nothing is kept in a userdata that is too small. -/
theorem not_packs_of_output {output' : Output} (h : 2 ^ 31 ≤ maxsz s.length)
    (houtput : lpackOutput s.length output fresh = .ok output') :
    ¬Packs s beyond output fresh := by
  have hroom := room_lt
  have hle := output'.length_le_room
  rw [Packs, lpack, houtput]
  simp only
  cases heq : sprotoPack (memory s beyond) (toInt s.length) output'.bytes
      (toInt (maxsz s.length)) with
  | error e => simp
  | ok r =>
    simp only
    split_ifs with hlt hlt'
    · simp only [LpackFault.raised.injEq]
      exact packingError_ne _
    · simp
    · intro hkeeps
      have hlength := hkeeps.length_le
      rw [length_take] at hlength
      rw [maxsz] at h
      omega

theorem packs_large (h : encodeBuffersize * 2 ^ 12 < maxsz s.length) :
    Packs s beyond output fresh ↔ toInt (maxsz s.length) ≤ (encodeBuffersize * 2 ^ 19 : ℕ) ∧
      ((encodeBuffersize * 2 ^ 12 : ℕ) < toInt (maxsz s.length) ∨ output.doublings = 12) := by
  have houtput : lpackOutput s.length output fresh =
      expandBuffer output (toInt (maxsz s.length)) fresh :=
    if_pos (Nat.lt_of_le_of_lt output.length_le_room h)
  by_cases hover : (encodeBuffersize * 2 ^ 19 : ℕ) < toInt (maxsz s.length)
  · rw [expandBuffer_overflow fresh hover] at houtput
    rw [Packs, lpack, houtput]
    exact iff_of_false (by simp) fun hle => Int.not_lt.mpr hle.1 hover
  · have hle := Int.not_lt.mp hover
    by_cases hlarge : (encodeBuffersize * 2 ^ 12 : ℕ) < toInt (maxsz s.length) ∨
        output.doublings = 12
    · rw [expandBuffer_tooLarge fresh hle hlarge] at houtput
      rw [Packs, lpack, houtput]
      exact iff_of_true rfl ⟨hle, hlarge⟩
    · obtain ⟨hsmall, hne⟩ := not_or.mp hlarge
      have hbig : 2 ^ 31 ≤ maxsz s.length := by
        by_contra hlt
        rw [toInt_of_lt (Nat.not_le.mp hlt)] at hsmall
        exact hsmall (Int.ofNat_lt.mpr h)
      obtain ⟨output', heq, -⟩ := expandBuffer_ok fresh (Int.not_lt.mp hsmall)
        (Nat.lt_of_le_of_ne output.doublings_le hne)
      exact iff_of_false (not_packs_of_output hbig (houtput.trans heq)) fun hcon => hlarge hcon.2

/-- **The bound.** A string is packed without loss, or refused as too large, if and only if what the
headers and the zeros at the end take is saved, but for two bytes for 2 KiB, or `expand_buffer`
refuses its bound. -/
theorem packs_iff (s : List UInt8) (beyond : ℕ → UInt8) (output : Output) (fresh : ℕ → UInt8) :
    Packs s beyond output fresh ↔ Bounded s output := by
  rw [Bounded]
  rcases Nat.lt_or_ge (encodeBuffersize * 2 ^ 12) (maxsz s.length) with h | h
  · rw [packs_large h]
    exact ⟨fun hlarge => Or.inr ⟨h, hlarge⟩, fun hor => hor.elim
      (fun hsmall => absurd h (Nat.not_lt_of_le hsmall.1)) And.right⟩
  · rw [packs_small h]
    exact ⟨fun hfits => Or.inl ⟨h, hfits⟩, fun hor => hor.elim And.right
      fun hlarge => absurd hlarge.1 (Nat.not_lt_of_le h)⟩

/-- Eight bytes without a zero and one more: twelve bytes are packed, and there is room for
eleven. -/
theorem packs_fails :
    ¬Packs [1, 2, 3, 4, 5, 6, 7, 8, 9] (fun _ => 0) Output.start fun _ => 0 := by
  rw [packs_small (by decide), Fits]
  decide

end Bound

end Mtask.Sproto
