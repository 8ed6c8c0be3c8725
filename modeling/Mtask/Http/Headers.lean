import Mtask.Http.Chunks

/-!
# Headers in pieces

The lines of a header block depend on the stream only, as long as a stream that is larger than the
limit has no header block within the limit.
-/

namespace Mtask.Http

open Lua
open List

theorem headerLines_nil {header rest : Bytes} (h : header.dropInfix? crlf = some ([], rest)) :
    headerLines header = [] := by
  rw [headerLines]
  split
  · rfl
  next heq =>
    rw [h, Option.some.injEq, Prod.mk.injEq] at heq
    rw [if_pos heq.1.symm]

theorem headerLines_cons {header v rest : Bytes} (h : header.dropInfix? crlf = some (v, rest))
    (hv : v ≠ []) : headerLines header = v :: headerLines rest := by
  rw [headerLines]
  split
  next heq =>
    rw [h] at heq
    cases heq
  next heq =>
    rw [h, Option.some.injEq, Prod.mk.injEq] at heq
    obtain ⟨rfl, rfl⟩ := heq
    rw [if_neg hv]

/-- The first line of a text that is followed by a line end. -/
theorem cut_append (a z : Bytes) : (a ++ crlf ++ z).dropInfix? crlf =
    match a.dropInfix? crlf with
    | some (v, a') => some (v, a' ++ crlf ++ z)
    | none => some (a, z) := by
  cases hcut : a.dropInfix? crlf with
  | some va =>
    rw [append_assoc, FirstInfix.append hcut]
    simp only [append_assoc]
  | none =>
    refine FirstInfix.eq_some_iff.2 ⟨rfl, fun p q hpq => ?_⟩
    by_contra hlt
    by_cases hle : p.length + 2 ≤ a.length
    · -- it is in the text
      have htake := congrArg (List.take a.length) hpq
      rw [append_assoc, take_left, take_append, take_of_length_le
        (by rw [length_append]; exact hle)] at htake
      exact FirstInfix.eq_none_iff.1 hcut _ _ htake
    · -- it would begin at the last byte of the text
      have hbyte := congrArg (·[a.length]?) hpq
      have hindex : a.length = p.length + 1 := by omega
      simp only [append_assoc, crlf] at hbyte
      rw [getElem?_append_right (Nat.le_refl _), hindex,
        getElem?_append_right (Nat.le_succ _)] at hbyte
      simp at hbyte

/-- What comes behind the empty line is not a line of the header. -/
theorem headerLines_append (a z : Bytes) :
    headerLines (a ++ crlf ++ (crlf ++ z)) = headerLines (a ++ crlf ++ crlf) := by
  induction hlen : a.length using Nat.strongRecOn generalizing a with
  | _ n ih =>
    have hnil (z : Bytes) : headerLines (crlf ++ z) = [] := by
      have h := cut_append [] z
      exact headerLines_nil h
    have hcut := cut_append a (crlf ++ z)
    have hcut' := cut_append a crlf
    cases hfirst : a.dropInfix? crlf with
    | none =>
      rw [hfirst] at hcut hcut'
      by_cases ha : a = []
      · rw [ha] at hcut hcut' ⊢
        rw [headerLines_nil hcut, headerLines_nil hcut']
      · rw [headerLines_cons hcut ha, headerLines_cons hcut' ha, hnil]
        rw [← append_nil crlf, hnil]
    | some va =>
      obtain ⟨v, a'⟩ := va
      rw [hfirst] at hcut hcut'
      by_cases hv : v = []
      · rw [hv] at hcut hcut'
        rw [headerLines_nil hcut, headerLines_nil hcut']
      · rw [headerLines_cons hcut hv, headerLines_cons hcut' hv]
        refine congrArg (v :: ·) (ih a'.length ?_ a' rfl)
        rw [← hlen, (FirstInfix.eq_some_iff.1 hfirst).1]
        simp only [length_append, crlf, length_cons]
        omega

theorem headerLines_stable {s a b : Bytes} (h : s.dropInfix? (crlf ++ crlf) = some (a, b))
    (t : Bytes) : headerLines (s ++ t) = headerLines s := by
  have hs : s = a ++ crlf ++ (crlf ++ b) := by
    rw [(FirstInfix.eq_some_iff.1 h).1]
    simp only [append_assoc]
  have hst : s ++ t = a ++ crlf ++ (crlf ++ (b ++ t)) := by
    rw [hs]
    simp only [append_assoc]
  rw [hst, hs, headerLines_append, headerLines_append]

/-- A header block ends in what was read. -/
def HasBlock (s : Bytes) : Prop := crlf <+: s ∨ (s.dropInfix? (crlf ++ crlf)).isSome

theorem HasBlock.append {s : Bytes} (h : HasBlock s) (t : Bytes) : HasBlock (s ++ t) := by
  rcases h with h | h
  · exact .inl (h.trans (prefix_append s t))
  · obtain ⟨pq, hcut⟩ := Option.isSome_iff_exists.1 h
    refine .inr ?_
    rw [FirstInfix.append hcut]
    rfl

theorem HasBlock.take_limit {s t : Bytes} (h : HasBlock s) (hlen : s.length ≤ LIMIT) :
    HasBlock ((s ++ t).take LIMIT) := by
  rw [take_past hlen]
  exact h.append _

theorem headerLines_of_crlf {s : Bytes} (h : crlf <+: s) : headerLines s = [] := by
  obtain ⟨z, rfl⟩ := h
  exact headerLines_nil (cut_append [] z)

/-- The lines of the header at the front of a stream. -/
def headerOf (t : Bytes) : Except Error (Option (List Bytes)) :=
  if LIMIT < t.length then .ok none
  else if crlf <+: t then .ok (some [])
  else if (t.dropInfix? (crlf ++ crlf)).isSome then .ok (some (headerLines t))
  else .error .socket

theorem headerOf_some {s t : Bytes} (h : HasBlock s) (hlen : (s ++ t).length ≤ LIMIT) :
    headerOf (s ++ t) = .ok (some (headerLines s)) := by
  rw [headerOf, if_neg (Nat.not_lt.2 hlen)]
  rcases h with h | h
  · rw [if_pos (h.trans (prefix_append s t)), headerLines_of_crlf h]
  · obtain ⟨⟨a, b⟩, hcut⟩ := Option.isSome_iff_exists.1 h
    rw [← headerLines_stable hcut t]
    split
    next hcrlf => rw [headerLines_of_crlf hcrlf]
    next =>
      rw [FirstInfix.append hcut]
      rfl

theorem recvheaderLoop_lines (r : Reader) (header : Bytes) (hlen : header.length ≤ LIMIT)
    (hnone : ¬HasBlock header)
    (hlimit : LIMIT < (header ++ r.rest).length → ¬HasBlock ((header ++ r.rest).take LIMIT)) :
    (recvheaderLoop r header).map (fun x => x.1.map Prod.snd) = headerOf (header ++ r.rest) := by
  have hcut {header : Bytes} (bytes : Bytes) (hnone : ¬HasBlock header) :=
    FirstInfix.resume (d := crlf ++ crlf) (n := (header ++ bytes).length - (bytes.length + 3))
      (by
        rw [← Option.not_isSome_iff_eq_none]
        exact fun h => hnone (.inr h)) bytes
      (by
        simp only [length_append, crlf, length_cons, length_nil]
        omega)
  -- a block that was found is the block of the stream
  have hfound {r : Reader} {s : Bytes} (hs : HasBlock s) (hlen : s.length ≤ LIMIT)
      (hlimit : LIMIT < (s ++ r.rest).length → ¬HasBlock ((s ++ r.rest).take LIMIT)) :
      .ok (some (headerLines s)) = headerOf (s ++ r.rest) := by
    refine (headerOf_some hs ?_).symm
    by_contra hlarge
    exact hlimit (Nat.not_le.1 hlarge) (hs.take_limit hlen)
  fun_induction recvheaderLoop r header with
  | case1 r header e hread =>
    unfold Reader.readbytes at hread
    split at hread
    next hrest =>
      cases hread
      have h := not_or.1 hnone
      rw [hrest, append_nil, headerOf, if_neg (Nat.not_lt.2 hlen), if_neg h.1, if_neg h.2]
      rfl
    next => cases hread
  | case2 r header bytes r' hread hlarge =>
    rw [Reader.readbytes_eq hread, ← append_assoc, headerOf,
      if_pos (by rw [length_append]; omega)]
    rfl
  | case3 r header bytes r' hread hsmall x result hdrop =>
    have hfind := hcut bytes hnone
    rw [hdrop] at hfind
    rw [Reader.readbytes_eq hread, ← append_assoc] at hlimit ⊢
    refine hfound (.inr ?_) (Nat.not_lt.1 hsmall) hlimit
    rw [← Option.isSome_map, ← hfind]
    rfl
  | case4 r header bytes r' hread hsmall hdrop hcrlf =>
    rw [Reader.readbytes_eq hread, ← append_assoc] at hlimit ⊢
    rw [← hfound (.inl hcrlf) (Nat.not_lt.1 hsmall) hlimit, headerLines_of_crlf hcrlf]
    rfl
  | case5 r header bytes r' hread hsmall hdrop hcrlf ih =>
    have hfind := hcut bytes hnone
    rw [hdrop] at hfind
    rw [Reader.readbytes_eq hread, ← append_assoc] at hlimit ⊢
    refine ih (Nat.not_lt.1 hsmall) (not_or.2 ⟨hcrlf, ?_⟩) hlimit
    rw [← Option.isSome_map, ← hfind]
    exact Bool.false_ne_true

/-- The lines that `recvheader` reads depend on the stream only. -/
theorem recvheader_lines (r : Reader) (header : Bytes) (hlen : header.length ≤ LIMIT)
    (hlimit : LIMIT < (header ++ r.rest).length → ¬HasBlock ((header ++ r.rest).take LIMIT)) :
    (recvheader r header).map (fun x => x.1.map Prod.snd) = headerOf (header ++ r.rest) := by
  have hsmall (hs : HasBlock header) : (header ++ r.rest).length ≤ LIMIT := by
    by_contra hlarge
    exact hlimit (Nat.not_le.1 hlarge) (hs.take_limit hlen)
  unfold recvheader
  split
  next hcrlf =>
    rw [headerOf_some (.inl hcrlf) (hsmall (.inl hcrlf)), headerLines_of_crlf hcrlf]
    rfl
  next hcrlf =>
    split
    next x result hcut =>
      have hs : HasBlock header := .inr (by rw [hcut]; rfl)
      rw [headerOf_some hs (hsmall hs)]
      rfl
    next hcut =>
      refine recvheaderLoop_lines r header hlen (not_or.2 ⟨hcrlf, ?_⟩) hlimit
      rw [hcut]
      exact Bool.false_ne_true

theorem recvheaderLoop_rest {r r' : Reader} {header result : Bytes} {lines : List Bytes}
    (hnone : header.dropInfix? (crlf ++ crlf) = none) (hcrlf : ¬crlf <+: header ++ r.rest)
    (h : recvheaderLoop r header = .ok (some (result, lines), r')) :
    ∃ a, (header ++ r.rest).dropInfix? (crlf ++ crlf) = some (a, result ++ r'.rest) := by
  have hcut {header : Bytes} (bytes : Bytes) (hnone : header.dropInfix? (crlf ++ crlf) = none) :=
    FirstInfix.resume (n := (header ++ bytes).length - (bytes.length + 3)) hnone bytes
      (by
        simp only [length_append, crlf, length_cons, length_nil]
        omega)
  fun_induction recvheaderLoop r header with
  | case1 | case2 => cases h
  | case3 r header bytes r₁ hread hsmall x result₁ hdrop =>
    cases h
    have hfind := hcut bytes hnone
    rw [hdrop] at hfind
    obtain ⟨⟨a, b⟩, hab, rfl⟩ := Option.map_eq_some_iff.1 hfind.symm
    refine ⟨a, ?_⟩
    rw [Reader.readbytes_eq hread, ← append_assoc, FirstInfix.append hab]
  | case4 r header bytes r₁ hread hsmall hdrop hinit =>
    rw [Reader.readbytes_eq hread, ← append_assoc] at hcrlf
    exact absurd (hinit.trans (prefix_append _ _)) hcrlf
  | case5 r header bytes r₁ hread hsmall hdrop hinit ih =>
    have hfind := hcut bytes hnone
    rw [hdrop] at hfind
    rw [Reader.readbytes_eq hread, ← append_assoc] at hcrlf ⊢
    exact ih (Option.map_eq_none_iff.1 hfind.symm) hcrlf h

/-- What `recvheader` hands on, and what is left, is the stream behind the header block. -/
theorem recvheader_rest {r r' : Reader} {header result : Bytes} {lines : List Bytes}
    (hcrlf : ¬crlf <+: header ++ r.rest)
    (h : recvheader r header = .ok (some (result, lines), r')) :
    ∃ a, (header ++ r.rest).dropInfix? (crlf ++ crlf) = some (a, result ++ r'.rest) := by
  unfold recvheader at h
  split at h
  next hinit => exact absurd (hinit.trans (prefix_append _ _)) hcrlf
  next =>
    split at h
    next a b hcut =>
      cases h
      exact ⟨a, FirstInfix.append hcut _⟩
    next hcut => exact recvheaderLoop_rest hcut hcrlf h

end Mtask.Http
