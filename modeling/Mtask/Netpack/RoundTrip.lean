import Mtask.Netpack.Reassembly

/-!
# Packing and filtering

A message that `netpack.pack` has packed is cut off the stream of its connection by
`netpack.filter`, whichever messages are sent with it and in whichever chunks it arrives. The check
of `lpack` lets a message of `0x10000` bytes pass, whose length does not fit into two bytes.
-/

namespace Mtask.Netpack

open List

/-- `write_size` -/
def writeSize (len : ℕ) : List UInt8 :=
  [UInt8.ofNat (len >>> 8 &&& 0xff), UInt8.ofNat (len &&& 0xff)]

/-- `lpack`, of a string or of a pointer with a size. -/
def pack (data : List UInt8) : Except String (List UInt8) :=
  if data.length > 0x10000 then
    .error ("Invalid size (too long) of data : " ++ toString (Int32.ofNat data.length))
  else .ok (writeSize data.length ++ data)

section Pack

variable {data packet rest : List UInt8}

theorem pack_eq_ok (h : pack data = .ok packet) :
    data.length ≤ 0x10000 ∧ packet = writeSize data.length ++ data := by
  rw [pack] at h
  split_ifs at h with hlen
  exact ⟨not_lt.mp hlen, (Except.ok.inj h).symm⟩

theorem readSize_writeSize {len : ℕ} (h : len < 0x10000) :
    readSize (UInt8.ofNat (len >>> 8 &&& 0xff)) (UInt8.ofNat (len &&& 0xff)) = len := by
  rw [readSize_eq]
  have hhigh : len >>> 8 &&& 0xff = len / 256 := by
    rw [Nat.shiftRight_eq_div_pow, Nat.and_two_pow_sub_one_eq_mod _ 8]
    exact Nat.mod_eq_of_lt (by omega)
  have hlow : len &&& 0xff = len % 256 := Nat.and_two_pow_sub_one_eq_mod _ 8
  rw [hhigh, hlow]
  simp only [Framing.ofBytes, foldl_cons, foldl_nil, UInt8.toNat_ofNat']
  omega

/-- A packed message in front of a stream is cut off. -/
theorem decode_pack (h : pack data = .ok packet) (hlen : data.length ≠ 0x10000) :
    packages (packet ++ rest) = data :: packages rest ∧ kept (packet ++ rest) = kept rest := by
  obtain ⟨hle, rfl⟩ := pack_eq_ok h
  have hsize := readSize_writeSize (lt_of_le_of_ne hle hlen)
  have hbuffer : readSize (UInt8.ofNat (data.length >>> 8 &&& 0xff))
      (UInt8.ofNat (data.length &&& 0xff)) ≤ (data ++ rest).length := by
    rw [hsize, length_append]
    exact Nat.le_add_right _ _
  rw [writeSize, append_assoc, cons_append, cons_append, nil_append,
    packages_package hbuffer, kept_package hbuffer, hsize, take_left, drop_left]
  exact ⟨rfl, rfl⟩

end Pack

/-- The packets of messages that were packed one after the other. -/
abbrev Packed (msgs packets : List (List UInt8)) : Prop :=
  List.Forall₂ (fun data packet => pack data = .ok packet) msgs packets

/-- Packed messages in front of a stream are cut off, and the stream behind them is cut as if they
had not been there. -/
theorem decode_packed {msgs packets : List (List UInt8)} (h : Packed msgs packets)
    (hlen : ∀ data ∈ msgs, data.length ≠ 0x10000) (rest : List UInt8) :
    packages (packets.flatten ++ rest) = msgs ++ packages rest ∧
      kept (packets.flatten ++ rest) = kept rest := by
  induction h with
  | nil => exact ⟨rfl, rfl⟩
  | @cons data packet msgs packets hdata _ ih =>
    obtain ⟨hpackages, hkept⟩ := ih fun data hmem => hlen data (mem_cons_of_mem _ hmem)
    obtain ⟨hfirst, hfirst'⟩ := @decode_pack data packet (packets.flatten ++ rest) hdata
      (hlen data mem_cons_self)
    rw [flatten_cons, append_assoc, hfirst, hfirst', hpackages, hkept]
    exact ⟨rfl, rfl⟩

theorem length_lt_of_mem_packages {bytes payload : List UInt8} (h : payload ∈ packages bytes) :
    payload.length < 0x10000 := by
  induction hn : bytes.length using Nat.strongRecOn generalizing bytes with
  | _ n ih =>
    match bytes with
    | [] =>
      rw [packages_nil] at h
      exact absurd h not_mem_nil
    | [b] =>
      rw [packages, decode_header] at h
      exact absurd h not_mem_nil
    | first :: second :: buffer =>
      rcases Nat.lt_or_ge buffer.length (readSize first second) with hpart | hle
      · rw [packages_part hpart] at h
        exact absurd h not_mem_nil
      · rw [packages_package hle] at h
        rcases mem_cons.mp h with rfl | hmem
        · have hlt := Framing.ofBytes_lt [first, second]
          simp only [length_cons, length_nil, Nat.zero_add, Nat.reduceAdd,
            Nat.reducePow] at hlt
          rw [length_take_of_le hle, readSize_eq]
          exact hlt
        · refine ih _ ?_ hmem rfl
          rw [length_drop, ← hn, length_cons, length_cons]
          omega

/-- **Packing and filtering, a round trip.** Any number of connections send messages that were
packed, and behind them anything else, in any chunks that are not empty. What is packed for a
connection is delivered, with what comes behind it cut as if nothing had been in front, if and only
if no message of the connection has `0x10000` bytes. -/
theorem roundTrip_iff {chunks : List (Int32 × Block)} {msgs packets : Int32 → List (List UInt8)}
    {rest : Int32 → List UInt8} (hne : ∀ c ∈ chunks, c.2.bytes ≠ [])
    (hpacked : ∀ fd, Packed (msgs fd) (packets fd))
    (hstream : ∀ fd, stream fd chunks = (packets fd).flatten ++ rest fd) :
    ∃ out st, State.init.run chunks = .ok (out, st) ∧ ∀ fd,
      (delivered fd out = (msgs fd).map (viewOf fd) ++ (packages (rest fd)).map (viewOf fd) ∧
        Pending (st.records fd) (kept (rest fd))) ↔ ∀ data ∈ msgs fd, data.length ≠ 0x10000 := by
  obtain ⟨out, st, heq, htracks, hout⟩ := run_init chunks hne
  refine ⟨out, st, heq, fun fd => ⟨?_, fun hlen => ?_⟩⟩
  · rintro ⟨hdelivered, -⟩ data hmem hlen
    have hview : viewOf fd data ∈ (packages (stream fd chunks)).map (viewOf fd) := by
      rw [← hout fd, hdelivered]
      exact List.mem_append_left _ (List.mem_map_of_mem hmem)
    obtain ⟨payload, hpayload, hsame⟩ := List.mem_map.mp hview
    have hlt := length_lt_of_mem_packages hpayload
    have hsize : payload.length = data.length := congrArg (fun view => view.2.1) hsame
    omega
  · obtain ⟨hpackages, hkept⟩ := decode_packed (hpacked fd) hlen (rest fd)
    refine ⟨?_, ?_⟩
    · rw [hout fd, hstream fd, hpackages, List.map_append]
    · rw [← hkept, ← hstream fd]
      exact htracks.pending fd

/-- Two messages and half of a third one, with the length of the second one cut in two. -/
theorem roundTrip_iff_cut :
    ∃ out st, State.init.run [(2, ⟨100, [0, 1, 9, 0]⟩), (2, ⟨101, [2, 5, 6, 0]⟩)] = .ok (out, st) ∧
      (delivered 2 out = [[9], [5, 6]].map (viewOf 2) ∧ Pending (st.records 2) [0]) := by
  have hpacked (fd : Int32) : Packed (if fd = 2 then [[9], [5, 6]] else [])
      (if fd = 2 then [[0, 1, 9], [0, 2, 5, 6]] else []) := by
    split_ifs
    · exact .cons rfl (.cons rfl .nil)
    · exact .nil
  obtain ⟨out, st, heq, hall⟩ := @roundTrip_iff
    [(2, ⟨100, [0, 1, 9, 0]⟩), (2, ⟨101, [2, 5, 6, 0]⟩)] _ _
    (fun fd => if fd = 2 then [0] else []) (by simp) hpacked (fun fd => by
      by_cases hfd : fd = 2 <;> simp [stream, hfd, eq_comm])
  obtain ⟨hdelivered, hpending⟩ := (hall 2).mpr (by simp)
  refine ⟨out, st, heq, ?_, ?_⟩
  · simpa [packages, decode_header] using hdelivered
  · simpa [kept, decode_header] using hpending

/-- A message of `0x10000` bytes is packed, but it is not what is filtered. -/
theorem roundTrip_fails :
    pack (List.replicate 0x10000 0) = .ok (0 :: 0 :: List.replicate 0x10000 0) ∧
      ∃ out st, State.init.run [(2, ⟨100, 0 :: 0 :: List.replicate 0x10000 0⟩)] = .ok (out, st) ∧
        viewOf 2 (List.replicate 0x10000 0) ∉ delivered 2 out := by
  refine ⟨?_, ?_⟩
  · rw [pack, List.length_replicate, if_neg (lt_irrefl _)]
    rfl
  · obtain ⟨out, st, heq, -, hout⟩ := run_init
      [(2, ⟨100, 0 :: 0 :: List.replicate 0x10000 0⟩)]
      (List.forall_mem_singleton.mpr (List.cons_ne_nil _ _))
    refine ⟨out, st, heq, fun hmem => ?_⟩
    rw [hout 2] at hmem
    obtain ⟨payload, hpayload, hsame⟩ := List.mem_map.mp hmem
    have hlt := length_lt_of_mem_packages hpayload
    have hsize : payload.length = (List.replicate 0x10000 (0 : UInt8)).length :=
      congrArg (fun view => view.2.1) hsame
    rw [List.length_replicate] at hsize
    omega

end Mtask.Netpack
