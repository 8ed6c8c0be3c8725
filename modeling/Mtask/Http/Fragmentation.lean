import Mathlib.Data.Rat.Lemmas
import Mtask.Http.Headers
import Mtask.Http.Httpd

/-!
# Requests in pieces

The result of a request does not depend on the pieces in which the stream comes, if the stream is
not larger than the limit for a header, if the end of the body does not depend on what was read with
the header, and if the lines before the chunks are short and their sizes not negative. Otherwise it
can.
-/

namespace Mtask.Http

open Lua List

/-! ### Lengths -/

section Length

variable {length : Number} {k : ℤ}

theorem integer_lt (h : length.checkinteger = some k) (i : ℤ) :
    (Number.integer i).lt length = decide (i < k) := by
  match length, h with
  | .integer j, h =>
    cases h
    rfl
  | .float (.finite x), h =>
    rw [Number.checkinteger] at h
    split at h
    next hx =>
      cases h
      rw [Number.lt, decide_eq_decide]
      nth_rewrite 1 [← Rat.coe_int_num_of_den_eq_one hx.1]
      exact Rat.intCast_lt_intCast
    next => cases h

theorem checkinteger_minus (h : length.checkinteger = some k) {n : ℕ} (hn : (n : ℤ) < k) :
    (minus length n).checkinteger = some (k - n) := by
  match length, h with
  | .integer j, h =>
    cases h
    rfl
  | .float (.finite x), h =>
    rw [Number.checkinteger] at h
    split at h
    next hx =>
      cases h
      have hdiff : x - n = ((x.num - n : ℤ) : ℚ) := by
        rw [Int.cast_sub, Rat.coe_int_num_of_den_eq_one hx.1]
        rfl
      rw [minus, Number.checkinteger, hdiff, Rat.num_intCast, Rat.den_intCast, if_pos]
      exact ⟨rfl, by omega, by omega⟩
    next => cases h

end Length

/-! ### Requests -/

variable {r r' : Reader}

section Request

variable {str2d : Bytes → Option Double} {bodylimit : Option Number}

variable {body body' : Bytes}

theorem recvchunkedbody_eq (header : Header) (hfits : Fits bodylimit 0 (body ++ r.rest))
    (hlen : (body ++ r.rest).length ≤ LIMIT) (h : body ++ r.rest = body' ++ r'.rest) :
    recvchunkedbody r bodylimit header body = recvchunkedbody r' bodylimit header body' := by
  have hsame := same_recvchunks hfits rfl h.symm []
  unfold recvchunkedbody
  generalize hx : recvchunks r bodylimit [] 0 body = x at hsame ⊢
  generalize recvchunks r' bodylimit [] 0 body' = y at hsame ⊢
  cases hsame with
  | error e => rfl
  | none r₁ r₁' => rfl
  | @some result body₁ body₁' r₁ r₁' h₁ =>
    dsimp only
    -- the trailer is not larger than the stream
    have hsmall : (body₁ ++ r₁.rest).length ≤ LIMIT := by
      have := recvchunks_shrinks hx
      rw [length_append] at hlen ⊢
      omega
    have hlines (r : Reader) (body : Bytes) (hbody : body ++ r.rest = body₁ ++ r₁.rest) :
        (recvheader r body).map (fun x => x.1.map Prod.snd) = headerOf (body₁ ++ r₁.rest) := by
      rw [← hbody] at hsmall ⊢
      refine recvheader_lines r body ?_ fun hlarge => absurd hsmall (Nat.not_le.2 hlarge)
      rw [length_append] at hsmall
      omega
    have heq := (hlines r₁ body₁ rfl).trans (hlines r₁' body₁' h₁.symm).symm
    rcases cases_of_map heq with ⟨e, he, he'⟩ | ⟨⟨o, r₂⟩, ⟨o', r₂'⟩, ho, ho', hoo⟩
    · rw [he, he']
    · rw [ho, ho']
      match o, o', hoo with
      | none, none, _ => rfl
      | some (a, lines), some (a', lines'), hoo =>
        obtain rfl : lines = lines' := Option.some.inj hoo
        rfl

/-- In identity mode the end of the body does not depend on what was read with the header: the
length is a natural number that is not refused, or nothing follows the header. -/
def Delimited (str2d : Bytes → Option Double) (bodylimit : Option Number) (header : Header)
    (rest : Bytes) : Prop :=
  match lengthOf str2d header with
  | none => rest = []
  | some length => exceeds bodylimit length = false → ∃ n : ℕ, length.checkinteger = some (n : ℤ)

/-- The body of a length. -/
def bodyOf (t : Bytes) (n : ℕ) : Except Error (Option Bytes) :=
  if n ≤ t.length then .ok (some (t.take n)) else .error .socket

variable {header : Header}

theorem identityBody_length {length : Number} {n : ℕ}
    (hlength : lengthOf str2d header = some length) (hn : length.checkinteger = some (n : ℤ))
    (hexceeds : exceeds bodylimit length = false) (r : Reader) (body : Bytes) :
    identityBody str2d r bodylimit header body = bodyOf (body ++ r.rest) n := by
  rw [identityBody, hlength]
  dsimp only
  rw [hexceeds, if_neg Bool.false_ne_true, integer_lt hn, bodyOf]
  by_cases hle : n ≤ body.length
  · rw [if_neg (by simp only [decide_eq_true_eq]; omega), hn,
      if_pos (by rw [length_append]; omega), take_append_of_le_length hle]
    rw [← sub_take body n]
  · have hdiff : ((n : ℤ) - body.length).toNat = n - body.length := by omega
    rw [if_pos (by simp only [decide_eq_true_eq]; omega), checkinteger_minus hn (by omega)]
    dsimp only
    rw [hdiff, Reader.read]
    by_cases hrest : n - body.length ≤ r.rest.length
    · rw [if_pos hrest, if_pos (by rw [length_append]; omega), take_past (by omega)]
    · rw [if_neg hrest, if_neg (by rw [length_append]; omega)]

theorem identityBody_eq (hdelimited : Delimited str2d bodylimit header (body ++ r.rest))
    (h : body ++ r.rest = body' ++ r'.rest) :
    identityBody str2d r bodylimit header body = identityBody str2d r' bodylimit header body' := by
  unfold Delimited at hdelimited
  cases hlength : lengthOf str2d header with
  | none =>
    rw [hlength] at hdelimited
    dsimp only at hdelimited
    rw [identityBody, identityBody, hlength]
    rw [hdelimited] at h
    dsimp only
    rw [(append_eq_nil_iff.1 hdelimited).1, (append_eq_nil_iff.1 h.symm).1]
  | some length =>
    rw [hlength] at hdelimited
    cases hexceeds : exceeds bodylimit length with
    | true => simp only [identityBody, hlength, hexceeds, if_true]
    | false =>
      obtain ⟨n, hn⟩ := hdelimited hexceeds
      rw [identityBody_length hlength hn hexceeds, identityBody_length hlength hn hexceeds, h]

/-- A stream begins with a header block that is accepted, and the rest follows it. -/
structure Head (str2d : Bytes → Option Double) (s : Bytes) (header : Header) (rest : Bytes) :
    Prop where
  block : ∃ a, s.dropInfix? (crlf ++ crlf) = some (a, rest)
  line : ∃ method url httpver, requestLine str2d (headerLines s) = .ok (method, url, httpver) ∧
    httpver.lt oldest = false ∧ newest.lt httpver = false
  header : parseheader (headerLines s).tail [] = .ok (some header)

/-- The streams that are read the same in all pieces: a stream that is larger than the limit has no
header block within the limit, and behind the header the end of the body is told by the length or by
the chunks. -/
structure Independent (str2d : Bytes → Option Double) (bodylimit : Option Number) (s : Bytes) :
    Prop where
  limit : LIMIT < s.length → ¬HasBlock (s.take LIMIT)
  chunks : ∀ header rest, Head str2d s header rest →
    header.get transferEncoding = some chunked → Fits bodylimit 0 rest
  identity : ∀ header rest, Head str2d s header rest →
    header.get transferEncoding = none ∨ header.get transferEncoding = some identity →
    Delimited str2d bodylimit header rest

theorem readbody_eq (url method : Bytes) (h : body ++ r.rest = body' ++ r'.rest)
    (hlen : (body ++ r.rest).length ≤ LIMIT)
    (hchunks : header.get transferEncoding = some chunked → Fits bodylimit 0 (body ++ r.rest))
    (hidentity : header.get transferEncoding = none ∨
      header.get transferEncoding = some identity →
      Delimited str2d bodylimit header (body ++ r.rest)) :
    readbody str2d r bodylimit url method header body =
      readbody str2d r' bodylimit url method header body' := by
  unfold readbody
  by_cases hmode : header.get transferEncoding ≠ none ∧
      header.get transferEncoding ≠ some identity ∧ header.get transferEncoding ≠ some chunked
  · rw [if_pos hmode, if_pos hmode]
  rw [if_neg hmode, if_neg hmode]
  by_cases hchunked : header.get transferEncoding = some chunked
  · rw [if_pos hchunked, if_pos hchunked, recvchunkedbody_eq header (hchunks hchunked) hlen h]
  · have hmode' : header.get transferEncoding = none ∨
        header.get transferEncoding = some identity := by
      by_contra hne
      exact hmode ⟨(not_or.1 hne).1, (not_or.1 hne).2, hchunked⟩
    rw [if_neg hchunked, if_neg hchunked, identityBody_eq (hidentity hmode') h]

/-- A stream with a header that is accepted is not larger than the limit, and what has not been used
of it is the rest. -/
theorem head_of_recvheader {s : Bytes} {size : ℕ → ℕ} {lines : List Bytes} {method url : Bytes}
    {httpver : Number} (hlimit : LIMIT < s.length → ¬HasBlock (s.take LIMIT))
    (hrecv : recvheader ⟨s, size⟩ [] = .ok (some (body, lines), r))
    (hline : requestLine str2d lines = .ok (method, url, httpver))
    (hversion : ¬(httpver.lt oldest || newest.lt httpver) = true)
    (hheader : parseheader lines.tail [] = .ok (some header)) :
    s.length ≤ LIMIT ∧ Head str2d s header (body ++ r.rest) := by
  have hblock := recvheader_lines ⟨s, size⟩ [] (Nat.zero_le _) hlimit
  rw [hrecv] at hblock
  change .ok (some lines) = headerOf s at hblock
  unfold headerOf at hblock
  split at hblock
  · cases hblock
  next hsmall =>
    refine ⟨Nat.not_lt.1 hsmall, ?_⟩
    split at hblock
    · -- without lines there is no request
      cases hblock
      cases hline
    next hcrlf =>
      split at hblock
      · cases hblock
        rw [Bool.not_eq_true, Bool.or_eq_false_iff] at hversion
        exact ⟨recvheader_rest (show ¬crlf <+: [] ++ s from hcrlf) hrecv, ⟨method, url, httpver, hline, hversion⟩, hheader⟩
      · cases hblock

/-- **A request does not depend on its pieces.** -/
theorem readRequest_eq {s : Bytes} (h : Independent str2d bodylimit s) (size size' : ℕ → ℕ) :
    readRequest str2d ⟨s, size⟩ bodylimit = readRequest str2d ⟨s, size'⟩ bodylimit := by
  have hlines (size : ℕ → ℕ) := recvheader_lines ⟨s, size⟩ [] (Nat.zero_le _) h.limit
  have heq := (hlines size).trans (hlines size').symm
  unfold readRequest readall
  rcases cases_of_map heq with ⟨e, he, he'⟩ | ⟨⟨o, r⟩, ⟨o', r'⟩, ho, ho', hoo⟩
  · rw [he, he']
  rw [ho, ho']
  match o, o', hoo with
  | none, none, _ => rfl
  | some (body, lines), some (body', lines'), hoo =>
    obtain rfl : lines = lines' := Option.some.inj hoo
    dsimp only
    cases hline : requestLine str2d lines with
    | error e => rfl
    | ok line =>
      obtain ⟨method, url, httpver⟩ := line
      dsimp only
      split
      · rfl
      next hversion =>
        cases hheader : parseheader lines.tail [] with
        | error e => rfl
        | ok o =>
          cases o with
          | none => rfl
          | some header =>
            obtain ⟨hsmall, hhead⟩ := head_of_recvheader h.limit ho hline hversion hheader
            obtain ⟨-, hhead'⟩ := head_of_recvheader h.limit ho' hline hversion hheader
            obtain ⟨a, hrest⟩ := hhead.block
            obtain ⟨a', hrest'⟩ := hhead'.block
            rw [hrest] at hrest'
            have hsame := (Prod.ext_iff.1 (Option.some.inj hrest')).2
            have hlen : (body ++ r.rest).length ≤ LIMIT := by
              have := congrArg List.length (FirstInfix.eq_some_iff.1 hrest).1
              simp only [List.length_append] at this ⊢
              omega
            exact readbody_eq url method hsame hlen (h.chunks header _ hhead)
              (h.identity header _ hhead)

end Request

/-- `1.1` as a float -/
def version : Bytes → Option Double
  | [49, 46, 49] => some (.finite (2476979795053773 / 2251799813685248))
  | _ => none

/-- `"GET / HTTP/1.1"` -/
def getLine : Bytes := [71, 69, 84, 32, 47, 32, 72, 84, 84, 80, 47, 49, 46, 49]

/-- `"transfer-encoding: chunked"` -/
def chunkedLine : Bytes := transferEncoding ++ [58, 32, 99, 104, 117, 110, 107, 101, 100]

/-- A chunk of one byte and the last one -/
def chunkLines : Bytes := [49, 13, 10, 97, 13, 10, 48, 13, 10, 13, 10]

/-- A request with chunks -/
def chunkedRequest : Bytes := getLine ++ crlf ++ chunkedLine ++ crlf ++ (crlf ++ chunkLines)

theorem fits_chunkLines : Fits none 0 chunkLines := by
  have hlast : Fits none (wrap (0 + 1)) [48, 13, 10, 13, 10] := by
    have hcut : ([48, 13, 10, 13, 10] : Bytes).dropInfix? crlf = some ([48], [13, 10]) := rfl
    have hnum : tonumberBase [48] 16 = some 0 := by decide
    refine ⟨fun line t h => ?_, fun line t sz h hsz => ?_, fun line data t sz h hsz _ hzero => ?_⟩ <;>
      rw [hcut, Option.some.injEq, Prod.mk.injEq] at h <;> obtain ⟨rfl, -⟩ := h
    · decide
    · rw [hnum] at hsz
      exact (Option.some.inj hsz).le
    · rw [hnum] at hsz
      exact absurd (Option.some.inj hsz).symm hzero
  have hcut : chunkLines.dropInfix? crlf = some ([49], [97, 13, 10, 48, 13, 10, 13, 10]) := rfl
  have hnum : tonumberBase [49] 16 = some 1 := by decide
  refine ⟨fun line t h => ?_, fun line t sz h hsz => ?_, fun line data t sz h hsz hlen _ _ => ?_⟩ <;>
    rw [hcut, Option.some.injEq, Prod.mk.injEq] at h <;> obtain ⟨rfl, hdata⟩ := h
  · decide
  · rw [hnum] at hsz
    rw [← Option.some.inj hsz]
    decide
  · rw [hnum] at hsz
    obtain rfl : 1 = sz := Option.some.inj hsz
    match data, hlen, hdata with
    | [c], _, hdata =>
      cases hdata
      exact hlast

/-- A request with chunks that comes in pieces of one byte, and of five. -/
theorem readRequest_chunked : readRequest version ⟨chunkedRequest, fun _ => 0⟩ none =
    readRequest version ⟨chunkedRequest, fun _ => 4⟩ none := by
  have hlines : headerLines chunkedRequest = [getLine, chunkedLine] := by
    rw [headerLines_cons (v := getLine) rfl (by decide),
      headerLines_cons (v := chunkedLine) rfl (by decide), headerLines_nil rfl]
  have hhead {header : Header} {rest : Bytes} (h : Head version chunkedRequest header rest) :
      header = [(transferEncoding, chunked)] ∧ rest = chunkLines := by
    obtain ⟨a, hcut⟩ := h.block
    have hheader := h.header
    rw [hlines] at hheader
    refine ⟨(Option.some.inj (Except.ok.inj hheader)).symm, ?_⟩
    have hrest : chunkedRequest.dropInfix? (crlf ++ crlf) =
        some (getLine ++ crlf ++ chunkedLine, chunkLines) := rfl
    exact (Prod.ext_iff.1 (Option.some.inj (hrest.symm.trans hcut))).2.symm
  refine readRequest_eq ⟨fun h => absurd h (by decide), fun header rest h _ => ?_,
    fun header rest h hmode => ?_⟩ _ _
  · rw [(hhead h).2]
    exact fits_chunkLines
  · rw [(hhead h).1] at hmode
    exact absurd hmode (by decide)

/-- `"content-length: 8192"` -/
def lengthLine : Bytes := contentLength ++ [58, 32, 56, 49, 57, 50]

/-- The header of a request with a body of 8192 bytes -/
def largeHeader : Bytes := getLine ++ crlf ++ lengthLine ++ crlf ++ (crlf ++ [])

theorem readbytes_append (c : UInt8) (bytes rest : Bytes) (size : ℕ → ℕ)
    (h : size 0 = bytes.length) : (Reader.mk (c :: bytes ++ rest) size).readbytes =
      .ok (c :: bytes, ⟨rest, fun i => size (i + 1)⟩) := by
  simp [Reader.readbytes, h]

theorem recvheader_refused {bytes : Bytes} (hread : r.readbytes = .ok (bytes, r'))
    (hlen : LIMIT < bytes.length) : recvheader r [] = .ok (none, r') := by
  change recvheaderLoop r [] = _
  rw [recvheaderLoop]
  split
  next heq =>
    rw [hread] at heq
    cases heq
  next heq =>
    rw [hread] at heq
    cases heq
    rw [nil_append, if_pos hlen]

theorem recvheader_accepted {bytes a result : Bytes} (hread : r.readbytes = .ok (bytes, r'))
    (hlen : bytes.length ≤ LIMIT) (hcut : bytes.dropInfix? (crlf ++ crlf) = some (a, result)) :
    recvheader r [] = .ok (some (result, headerLines bytes), r') := by
  change recvheaderLoop r [] = _
  rw [recvheaderLoop]
  split
  next heq =>
    rw [hread] at heq
    cases heq
  next heq =>
    rw [hread] at heq
    cases heq
    rw [nil_append, if_neg (Nat.not_lt.2 hlen), Nat.sub_eq_zero_of_le (Nat.le_add_right _ _),
      drop_zero, hcut]

theorem large_refused : readRequest version
    ⟨largeHeader ++ List.replicate 8192 97, fun _ => 8231⟩ none = .ok (.status 413) := by
  have hlen : (largeHeader.tail ++ List.replicate 8192 97).length = 8231 := by
    rw [length_append, length_replicate]
    rfl
  have hread := readbytes_append 71 (largeHeader.tail ++ List.replicate 8192 97) []
    (fun _ => 8231) hlen.symm
  rw [append_nil] at hread
  have hlarge : LIMIT < (71 :: (largeHeader.tail ++ List.replicate 8192 97)).length := by
    rw [length_cons, hlen]
    decide
  have hrecv := recvheader_refused hread hlarge
  unfold readRequest readall
  rw [show largeHeader ++ List.replicate 8192 97 =
    71 :: (largeHeader.tail ++ List.replicate 8192 97) from rfl, hrecv]

theorem large_accepted : readRequest version
    ⟨largeHeader ++ List.replicate 8192 97, fun _ => 39⟩ none =
      .ok (.ok [47] [71, 69, 84] (some [(contentLength, .string [56, 49, 57, 50])])
        (List.replicate 8192 97)) := by
  have hread : (Reader.mk (largeHeader ++ List.replicate 8192 97) fun _ => 39).readbytes =
      .ok (largeHeader, ⟨List.replicate 8192 97, fun _ => 39⟩) :=
    readbytes_append 71 largeHeader.tail (List.replicate 8192 97) _ rfl
  have hcut : largeHeader.dropInfix? (crlf ++ crlf) = some (getLine ++ crlf ++ lengthLine, []) := rfl
  have hlines : headerLines largeHeader = [getLine, lengthLine] := by
    rw [headerLines_cons (v := getLine) rfl (by decide),
      headerLines_cons (v := lengthLine) rfl (by decide), headerLines_nil rfl]
  have hline : requestLine version [getLine, lengthLine] = .ok ([71, 69, 84], [47], newest) := rfl
  have hversion : (newest.lt oldest || newest.lt newest) = false := by decide +kernel
  have hheader : parseheader [lengthLine] [] =
      .ok (some [(contentLength, .string [56, 49, 57, 50])]) := rfl
  have hlength : lengthOf version [(contentLength, .string [56, 49, 57, 50])] =
      some (.integer (wrap 8192)) := rfl
  have hwrap : wrap 8192 = (8192 : ℕ) := by decide
  rw [hwrap] at hlength
  unfold readRequest readall
  rw [recvheader_accepted hread (by decide) hcut, hlines]
  dsimp only
  rw [hline]
  dsimp only
  rw [hversion, if_neg Bool.false_ne_true, tail_cons, hheader]
  dsimp only
  rw [readbody, if_neg (by decide), if_neg (by decide), identityBody_length hlength rfl rfl, bodyOf,
    nil_append, if_pos (by rw [length_replicate]), take_of_length_le
    (by rw [length_replicate])]

/-- A header is refused for the body that is read with it. -/
theorem readRequest_refused :
    ¬∀ str2d bodylimit s size size', readRequest str2d ⟨s, size⟩ bodylimit =
      readRequest str2d ⟨s, size'⟩ bodylimit := by
  intro h
  have := h version none (largeHeader ++ List.replicate 8192 97) (fun _ => 8231) fun _ => 39
  rw [large_refused, large_accepted] at this
  cases this

end Mtask.Http
