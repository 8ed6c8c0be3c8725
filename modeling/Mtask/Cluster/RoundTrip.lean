import Mtask.Cluster.Codec

/-!
# A message survives the packages

Every package that is made has its length in front and fits into the buffer of the C code, and what
is unpacked from the packages of a message is the message.
-/

namespace Mtask.Cluster

open List

/-- A package without its length. -/
def strip (package : Bytes) : Bytes :=
  package.drop 2

/-- The length in front of a package is that of the bytes behind it; it is a number of two bytes,
and the package fits into `buf`. -/
structure WellFramed (package : Bytes) : Prop where
  length : Framing.ofBytes (package.take 2) = (strip package).length
  header : 2 ≤ package.length
  limit : (strip package).length < 0x10000
  buffer : package.length ≤ tempLength

/-- The packages of a request, in the order in which they are sent. -/
def PackedRequest.packages (p : PackedRequest) : List Bytes :=
  p.request :: p.padding.getD []

/-- A part of a request, as it is unpacked. -/
def UnpackedRequest.part (session : ℕ) (last : Bool) (s : Bytes) : UnpackedRequest :=
  ⟨none, session, .bytes s, !last⟩

/-- A part of a response, as it is unpacked. -/
def UnpackedResponse.part (session : ℕ) (last : Bool) (s : Bytes) : UnpackedResponse :=
  ⟨session, true, .bytes s, !last⟩

/-- One package with the message if it is short, else one with its size and others with the parts,
the last of which is marked; `concat` puts them together. -/
def RequestCarries (addr : Address) (session : ℕ) (msg : Bytes) (l : List UnpackedRequest) : Prop :=
  (msg.length < multiPart ∧ l = [⟨some addr, session, .bytes msg, false⟩]) ∨
  (∃ (init : List Bytes) (last : Bytes), l = ⟨some addr, session, .size msg.length, true⟩ ::
      (init.map (.part session false) ++ [.part session true last])) ∧
    concat (l.map UnpackedRequest.data) = .ok (some msg)

/-- One package with the response, or one with its size and others with the parts, the last of which
is marked; `concat` puts them together. -/
def ResponseCarries (session : ℕ) (ok : Bool) (msg : Bytes) (l : List UnpackedResponse) : Prop :=
  l = [⟨session, ok, .bytes msg, false⟩] ∨
  (ok = true ∧ ∃ (init : List Bytes) (last : Bytes), l = ⟨session, true, .size msg.length, true⟩ ::
      (init.map (.part session false) ++ [.part session true last])) ∧
    concat (l.map UnpackedResponse.data) = .ok (some msg)

/-- A request is packed, and read back from its packages. -/
def RequestRoundTrip (addr : Address) (session : ℕ) (msg : Bytes) : Prop :=
  ∃ p l, packrequest addr session msg = .ok p ∧ (∀ q ∈ p.packages, WellFramed q) ∧
    p.packages.map (fun q => unpackrequest (strip q)) = l.map .ok ∧
    RequestCarries addr session msg l ∧ 1 ≤ p.nextSession ∧ p.nextSession < 2 ^ 31

/-- A response is packed, and read back from its packages; an error is cut off. -/
def ResponseRoundTrip (session : ℕ) (ok : Bool) (msg : Bytes) : Prop :=
  ∃ r l, packresponse session ok msg = .ok r ∧
    (∀ q ∈ r.elim (fun p => [p]) id, WellFramed q) ∧
    (r.elim (fun p => [p]) id).map (fun q => unpackresponse (strip q)) = l.map some ∧
    ResponseCarries session ok (if ok then msg else msg.take multiPart) l

/-- An address that the functions take. -/
def Address.Valid : Address → Prop
  | .number handle => handle < 2 ^ 32
  | .name s => 1 ≤ s.length ∧ s.length ≤ 255

instance : (addr : Address) → Decidable addr.Valid
  | .number handle => inferInstanceAs (Decidable (handle < 2 ^ 32))
  | .name s => inferInstanceAs (Decidable (1 ≤ s.length ∧ s.length ≤ 255))

/-! ### Packages -/

@[simp]
theorem length_fillUint32 (n : ℕ) : (fillUint32 n).length = 4 := by
  rw [fillUint32, length_reverse, Framing.length_toBytes]

/-- A number is read back, whatever is behind it. -/
theorem unpackUint32_fill {n : ℕ} (h : n < 2 ^ 32) (rest : Bytes) :
    unpackUint32 (fillUint32 n ++ rest) = n := by
  rw [unpackUint32, take_left' (length_fillUint32 n), fillUint32, reverse_reverse,
    Framing.ofBytes_toBytes (by omega)]

theorem drop_fill {n k : ℕ} (rest : Bytes) : (fillUint32 n ++ rest).drop (k + 4) = rest.drop k := by
  rw [Nat.add_comm, ← drop_drop, drop_left' (length_fillUint32 n)]

theorem int_natCast {n : ℕ} (h : n < 2 ^ 31) : int n = n := by
  rw [int]
  split_ifs <;> omega

/-- The bytes behind their length. -/
def frame (body : Bytes) : Bytes :=
  Framing.toBytes 2 body.length ++ body

@[simp]
theorem strip_frame (body : Bytes) : strip (frame body) = body :=
  drop_left' (Framing.length_toBytes 2 _)

theorem pushBuffer_eq {sz : ℕ} {body : Bytes} (hsz : body.length = sz)
    (hle : sz + 2 ≤ tempLength) : pushBuffer sz body = .ok (frame body) := by
  have hheader : ¬ 0x10000 ≤ sz := by
    rw [tempLength] at hle
    omega
  have hbuf : ¬ tempLength < 2 + body.length := by omega
  rw [pushBuffer, if_neg hheader, if_neg hbuf, frame, hsz]

theorem wellFramed_frame {body : Bytes} (hle : body.length + 2 ≤ tempLength) :
    WellFramed (frame body) where
  length := by
    rw [strip_frame, frame, take_left' (Framing.length_toBytes 2 _),
      Framing.ofBytes_toBytes]
    rw [tempLength] at hle
    omega
  header := by simp [frame]
  limit := by
    rw [strip_frame]
    rw [tempLength] at hle
    omega
  buffer := by
    rw [frame, length_append, Framing.length_toBytes]
    omega

/-! ### Parts -/

/-- The loop cuts the message into parts, none of which is too long, and marks the last one. -/
theorem packParts_eq (body : Bool → Bytes → Bytes)
    (hbody : ∀ last part, (body last part).length = part.length + 5) {part : ℕ} {msg : Bytes}
    (hpos : 0 < msg.length) (hpart : part = (msg.length - 1) / multiPart + 1) :
    ∃ (init : List Bytes) (last : Bytes), init.flatten ++ last = msg ∧
      (∀ p ∈ init, p.length ≤ multiPart) ∧ last.length ≤ multiPart ∧
      packParts body part msg =
        .ok (init.map (fun p => frame (body false p)) ++ [frame (body true last)]) := by
  have hfits (last : Bool) {p : Bytes} (hp : p.length ≤ multiPart) :
      pushBuffer (p.length + 5) (body last p) = .ok (frame (body last p)) := by
    refine pushBuffer_eq (hbody last p) ?_
    rw [multiPart] at hp
    rw [tempLength]
    omega
  induction part generalizing msg with
  | zero => exact absurd hpart (Nat.succ_ne_zero _).symm
  | succ part ih =>
    by_cases hlong : multiPart < msg.length
    · have htake : (msg.take multiPart).length = multiPart :=
        length_take_of_le (Nat.le_of_lt hlong)
      have hrest : 0 < (msg.drop multiPart).length := by
        rw [length_drop]
        omega
      have hcount : part = ((msg.drop multiPart).length - 1) / multiPart + 1 := by
        rw [length_drop]
        rw [multiPart] at hpart hlong ⊢
        omega
      obtain ⟨init, last, hflat, hinit, hlast, hpack⟩ := ih hrest hcount
      refine ⟨msg.take multiPart :: init, last, ?_, ?_, hlast, ?_⟩
      · rw [flatten_cons, append_assoc, hflat, take_append_drop]
      · rintro p (_ | ⟨_, hp⟩)
        · exact Nat.le_of_eq htake
        · exact hinit p hp
      · have hfirst := hfits false (Nat.le_of_eq htake)
        rw [htake] at hfirst
        simp only [packParts, if_pos hlong, hfirst, hpack, map_cons, cons_append]
    · have hzero : part = 0 := by
        rw [multiPart] at hpart hlong
        omega
      refine ⟨[], msg, rfl, nofun, Nat.le_of_not_lt hlong, ?_⟩
      have hfirst := hfits true (Nat.le_of_not_lt hlong)
      simp only [packParts, if_neg hlong, take_length, hfirst, hzero, map_nil,
        nil_append]

theorem concatLoop_bytes {sz : ℕ} {parts : List Bytes} (buff : Bytes)
    (hsz : buff.length + parts.flatten.length = sz) :
    concatLoop sz buff (parts.map .bytes) = some (buff ++ parts.flatten) := by
  induction parts generalizing buff with
  | nil =>
    rw [flatten_nil, append_nil, map_nil, concatLoop, if_pos]
    · exact hsz
    · nofun
  | cons s rest ih =>
    rw [flatten_cons, length_append] at hsz
    rw [map_cons, concatLoop, if_neg (by omega), ih (buff ++ s), flatten_cons,
      append_assoc]
    rw [length_append]
    omega

/-- `concat` puts the parts of a message together. -/
theorem concat_parts {msg : Bytes} (hlen : msg.length < 2 ^ 31) {init : List Bytes} {last : Bytes}
    (hflat : init.flatten ++ last = msg) :
    concat (.size msg.length :: (init ++ [last]).map .bytes) = .ok (some msg) := by
  have hint : int msg.length = msg.length := int_natCast hlen
  have hmsg : (init ++ [last]).flatten = msg := by simp [← hflat]
  rw [concat, hint, if_neg (by omega), Int.toNat_natCast, concatLoop_bytes [] (by simp [hmsg]),
    hmsg]
  rfl

/-! ### Requests -/

section Requests

variable {addr : Address} {session : ℕ} {msg : Bytes}

theorem unpackrequest_part (hs : session < 2 ^ 32) (last : Bool) (part : Bytes) :
    unpackrequest (requestPart session last part) = .ok (.part session last part) := by
  have hshort : ¬ (fillUint32 session ++ part).length + 1 < 5 := by
    rw [length_append, length_fillUint32]
    omega
  have hdrop : (fillUint32 session ++ part).drop 4 = part := drop_fill part
  cases last
  all_goals
    change unpackmreqPart (_ :: (fillUint32 session ++ part)) = _
    rw [unpackmreqPart, length_cons, if_neg hshort, drop_succ_cons, drop_succ_cons,
      drop_zero, hdrop, unpackUint32_fill hs]
    rfl

/-- The packages of a message that takes several of them. -/
theorem packreqMulti_eq (hs : session < 2 ^ 32) (hlen : msg.length < 2 ^ 31)
    (hlong : multiPart ≤ msg.length) :
    ∃ padding, packreqMulti session ((msg.length - 1) / multiPart + 1) msg = .ok padding ∧
      (∀ q ∈ padding, WellFramed q) ∧
      ∃ (init : List Bytes) (last : Bytes), padding.map (fun q => unpackrequest (strip q)) =
          (init.map (UnpackedRequest.part session false) ++
            [UnpackedRequest.part session true last]).map
            .ok ∧
        concat (.size msg.length :: (init ++ [last]).map .bytes) = .ok (some msg) := by
  have hbody (last : Bool) (part : Bytes) :
      (requestPart session last part).length = part.length + 5 := by
    rw [requestPart, length_cons, length_append, length_fillUint32]
    omega
  have hpos : 0 < msg.length := by
    rw [multiPart] at hlong
    omega
  obtain ⟨init, last, hflat, hinit, hlast, hpack⟩ := packParts_eq _ hbody hpos rfl
  have hframed {p : Bytes} {final : Bool} (hp : p.length ≤ multiPart) :
      WellFramed (frame (requestPart session final p)) := by
    refine wellFramed_frame ?_
    rw [multiPart] at hp
    rw [hbody, tempLength]
    omega
  refine ⟨_, hpack, ?_, init, last, ?_, concat_parts hlen hflat⟩
  · intro q hq
    rcases mem_append.mp hq with hq | hq
    · obtain ⟨p, hp, rfl⟩ := mem_map.mp hq
      exact hframed (hinit p hp)
    · rw [mem_singleton.mp hq]
      exact hframed hlast
  · simp [unpackrequest_part hs, Function.comp_def]

/-- What the first package of a request is, and what is unpacked from it. -/
structure FirstPackage (addr : Address) (session : ℕ) (msg : Bytes) (package : Bytes)
    (multipak : ℕ) : Prop where
  framed : WellFramed package
  multipak : multipak = if msg.length < multiPart then 0 else (msg.length - 1) / multiPart + 1
  unpacked : unpackrequest (strip package) = .ok (if msg.length < multiPart
    then ⟨some addr, session, .bytes msg, false⟩ else ⟨some addr, session, .size msg.length, true⟩)

theorem packreqNumber_eq {handle : ℕ} (haddr : handle < 2 ^ 32) (hs : session < 2 ^ 32)
    (hlen : msg.length < 2 ^ 31) : ∃ package multipak,
      packreqNumber handle session msg = .ok (package, multipak) ∧
      FirstPackage (.number handle) session msg package multipak := by
  by_cases hshort : msg.length < multiPart
  · have hbody : (0 :: (fillUint32 handle ++ (fillUint32 session ++ msg))).length =
        msg.length + 9 := by
      simp only [length_cons, length_append, length_fillUint32]
      omega
    have hfits : msg.length + 9 + 2 ≤ tempLength := by
      rw [multiPart] at hshort
      rw [tempLength]
      omega
    refine ⟨_, 0, by rw [packreqNumber, if_pos hshort, pushBuffer_eq hbody hfits]; rfl,
      wellFramed_frame (hbody ▸ hfits), by rw [if_pos hshort], ?_⟩
    rw [strip_frame, if_pos hshort]
    change unpackreqNumber _ = _
    rw [unpackreqNumber, hbody, if_neg (by omega)]
    simp [drop_fill (k := 0), drop_fill (k := 4), unpackUint32_fill haddr, unpackUint32_fill hs]
  · have hlt : msg.length < 2 ^ 32 := by omega
    have hbody : (1 :: (fillUint32 handle ++ (fillUint32 session ++ fillUint32 msg.length))).length
        = 13 := by
      simp only [length_cons, length_append, length_fillUint32]
    have hsize : unpackUint32 (fillUint32 msg.length) = msg.length := by
      simpa using unpackUint32_fill hlt []
    refine ⟨_, _, by rw [packreqNumber, if_neg hshort, pushBuffer_eq hbody (by decide)]; rfl,
      wellFramed_frame (by rw [hbody, tempLength]; omega), by rw [if_neg hshort], ?_⟩
    rw [strip_frame, if_neg hshort]
    change unpackmreqNumber _ = _
    rw [unpackmreqNumber, hbody, if_neg (by omega)]
    simp [drop_fill (k := 0), drop_fill (k := 4), unpackUint32_fill haddr, unpackUint32_fill hs,
      hsize]

theorem packreqString_eq {name : Bytes} (haddr : (Address.name name).Valid)
    (hs : session < 2 ^ 32) (hlen : msg.length < 2 ^ 31) : ∃ package multipak,
      packreqString name session msg = .ok (package, multipak) ∧
      FirstPackage (.name name) session msg package multipak := by
  obtain ⟨hone, hmax⟩ := haddr
  have hname : ¬ (name.length < 1 ∨ 255 < name.length) := by omega
  have hnamesz : (UInt8.ofNat name.length).toNat = name.length := by
    rw [UInt8.toNat_ofNat']
    omega
  have hdrop (rest : Bytes) : (name ++ (fillUint32 session ++ rest)).drop (name.length + 4) =
      rest := by
    rw [← drop_drop, drop_left, drop_fill (k := 0), drop_zero]
  by_cases hshort : msg.length < multiPart
  · have hbody : (0x80 :: UInt8.ofNat name.length ::
        (name ++ (fillUint32 session ++ msg))).length = msg.length + 6 + name.length := by
      simp only [length_cons, length_append, length_fillUint32]
      omega
    have hfits : msg.length + 6 + name.length + 2 ≤ tempLength := by
      rw [multiPart] at hshort
      rw [tempLength]
      omega
    refine ⟨_, 0,
      by rw [packreqString, if_neg hname, if_pos hshort, pushBuffer_eq hbody hfits]; rfl,
      wellFramed_frame (hbody ▸ hfits), by rw [if_pos hshort], ?_⟩
    rw [strip_frame, if_pos hshort]
    change unpackreqString _ = _
    rw [unpackreqString, hbody, if_neg (by omega)]
    simp only [getD_cons_succ, getD_cons_zero, hnamesz]
    rw [if_neg (by omega)]
    simp [unpackUint32_fill hs, hdrop]
  · have hlt : msg.length < 2 ^ 32 := by omega
    have hbody : (0x81 :: UInt8.ofNat name.length ::
        (name ++ (fillUint32 session ++ fillUint32 msg.length))).length = 10 + name.length := by
      simp only [length_cons, length_append, length_fillUint32]
      omega
    have hfits : 10 + name.length + 2 ≤ tempLength := by
      rw [tempLength]
      omega
    have hsize : unpackUint32 (fillUint32 msg.length) = msg.length := by
      simpa using unpackUint32_fill hlt []
    refine ⟨_, _,
      by rw [packreqString, if_neg hname, if_neg hshort, pushBuffer_eq hbody hfits]; rfl,
      wellFramed_frame (hbody ▸ hfits), by rw [if_neg hshort], ?_⟩
    rw [strip_frame, if_neg hshort]
    change unpackmreqString _ = _
    rw [unpackmreqString, hbody, if_neg (by omega)]
    simp only [getD_cons_succ, getD_cons_zero, hnamesz]
    rw [if_neg (by omega)]
    simp [unpackUint32_fill hs, hdrop, hsize]

theorem packreq_eq (haddr : addr.Valid) (hs : session < 2 ^ 32) (hlen : msg.length < 2 ^ 31) :
    ∃ package multipak, packreq addr session msg = .ok (package, multipak) ∧
      FirstPackage addr session msg package multipak := by
  cases addr with
  | number handle => exact packreqNumber_eq haddr hs hlen
  | name name => exact packreqString_eq haddr hs hlen

theorem nextSession_pos (hpos : 0 < session) (hs : session < 2 ^ 31) :
    1 ≤ nextSession session ∧ nextSession session < 2 ^ 31 := by
  rw [nextSession, int]
  split_ifs <;> omega

theorem request_round_trip (haddr : addr.Valid) (hpos : 0 < session) (hs : session < 2 ^ 31)
    (hlen : msg.length < 2 ^ 31) : RequestRoundTrip addr session msg := by
  have hint : int session = session := int_natCast hs
  obtain ⟨package, multipak, hpack, hfirst⟩ := packreq_eq haddr (by omega : session < 2 ^ 32) hlen
  have hnext := nextSession_pos hpos hs
  have hreq : packrequest addr session msg =
      if multipak = 0 then .ok ⟨package, nextSession session, none⟩
      else (packreqMulti session multipak msg).map fun padding =>
        ⟨package, nextSession session, some padding⟩ := by
    rw [packrequest]
    simp only [hint, Int.toNat_natCast, hpack]
    rw [if_neg (by omega)]
    cases packreqMulti session multipak msg <;> rfl
  obtain ⟨hframed, hmulti, hunpacked⟩ := hfirst
  by_cases hshort : msg.length < multiPart
  · rw [if_pos hshort] at hmulti hunpacked
    rw [hmulti, if_pos rfl] at hreq
    refine ⟨_, [⟨some addr, session, .bytes msg, false⟩], hreq, ?_, ?_, .inl ⟨hshort, rfl⟩, ?_⟩
    · intro q hq
      rw [mem_singleton.mp hq]
      exact hframed
    · exact congrArg (fun r => [r]) hunpacked
    · simpa only using hnext
  · rw [if_neg hshort] at hmulti hunpacked
    obtain ⟨padding, hpadding, hall, init, last, hparts, hconcat⟩ :=
      packreqMulti_eq (by omega : session < 2 ^ 32) hlen (Nat.le_of_not_lt hshort)
    rw [hmulti, if_neg (Nat.succ_ne_zero _), hpadding] at hreq
    refine ⟨_, ⟨some addr, session, .size msg.length, true⟩ ::
      (init.map (.part session false) ++ [.part session true last]), hreq, ?_, ?_,
      .inr ⟨⟨init, last, rfl⟩, ?_⟩, ?_⟩
    · rintro q (_ | ⟨_, hq⟩)
      · exact hframed
      · exact hall q hq
    · exact congrArg₂ List.cons hunpacked hparts
    · simpa [UnpackedRequest.part, Function.comp_def] using hconcat
    · simpa only using hnext

end Requests

/-! ### Responses -/

section Responses

variable {session : ℕ} {msg : Bytes}

theorem length_responseBody (type : UInt8) :
    (responseBody session type msg).length = msg.length + 5 := by
  rw [responseBody, length_append, length_fillUint32, length_cons]
  omega

theorem unpackresponse_body (hs : session < 2 ^ 32) (type : UInt8) :
    unpackresponse (responseBody session type msg) = unpackType session type msg := by
  have htype : (responseBody session type msg).getD 4 0 = type := by
    rw [responseBody, getD_eq_getElem?_getD, getElem?_append_right (by simp)]
    simp
  have hdrop : (responseBody session type msg).drop 5 = msg := by
    rw [responseBody, drop_fill (k := 1)]
    rfl
  have hsession : unpackUint32 (responseBody session type msg) = session :=
    unpackUint32_fill hs _
  rw [unpackresponse, if_neg, htype, hdrop, hsession]
  rw [length_responseBody]
  omega

theorem wellFramed_response {type : UInt8} (hmsg : msg.length ≤ multiPart) :
    WellFramed (frame (responseBody session type msg)) := by
  refine wellFramed_frame ?_
  rw [multiPart] at hmsg
  rw [length_responseBody, tempLength]
  omega

theorem packresponse_single {ok : Bool} (hone : ok = false ∨ msg.length ≤ multiPart) :
    packresponse session ok msg = .ok (.inl (frame (responseBody session (if ok then 1 else 0)
      (if ok then msg else msg.take multiPart)))) := by
  have hcut : (if multiPart < msg.length then msg.take multiPart else msg) =
      if ok then msg else msg.take multiPart := by
    rcases hone with rfl | hle
    · rw [if_neg Bool.false_ne_true]
      by_cases h : multiPart < msg.length
      · rw [if_pos h]
      · rw [if_neg h, take_of_length_le (Nat.le_of_not_lt h)]
    · rw [if_neg (Nat.not_lt.mpr hle), take_of_length_le hle, ite_self]
  have hlen : (if ok then msg else msg.take multiPart).length ≤ multiPart := by
    rcases hone with rfl | hle
    · exact length_take_le _ _
    · split_ifs
      · exact hle
      · exact length_take_le _ _
  have hnot : ¬ (ok = true ∧ multiPart < msg.length) := by
    rintro ⟨rfl, hlt⟩
    rcases hone with h | h
    · cases h
    · exact Nat.not_lt.mpr h hlt
  rw [packresponse, if_neg hnot]
  simp only [hcut]
  rw [pushBuffer_eq (length_responseBody _)]
  · rfl
  · have htemp : multiPart + 5 + 2 ≤ tempLength := by decide
    omega

theorem packresponse_multi (hlong : multiPart < msg.length) {rest : List Bytes}
    (hrest : packParts (fun last => responseBody session (if last then 4 else 3))
      ((msg.length - 1) / multiPart + 1) msg = .ok rest) :
    packresponse session true msg =
      .ok (.inr (frame (responseBody session 2 (fillUint32 msg.length)) :: rest)) := by
  have hfirst : pushBuffer 9 (responseBody session 2 (fillUint32 msg.length)) =
      .ok (frame (responseBody session 2 (fillUint32 msg.length))) :=
    pushBuffer_eq (by simp [length_responseBody]) (by decide)
  rw [packresponse, if_pos ⟨rfl, hlong⟩]
  simp only [hfirst, hrest]

/-- A response is read back from its packages. -/
theorem response_round_trip (hs : session < 2 ^ 31) (hlen : msg.length < 2 ^ 31) (ok : Bool) :
    ResponseRoundTrip session ok msg := by
  have hs' : session < 2 ^ 32 := by omega
  by_cases hone : ok = false ∨ msg.length ≤ multiPart
  · refine ⟨_, [⟨session, ok, .bytes (if ok then msg else msg.take multiPart), false⟩],
      packresponse_single hone, ?_, ?_, .inl rfl⟩
    · intro q hq
      rw [mem_singleton.mp hq]
      refine wellFramed_response ?_
      rcases hone with rfl | hle
      · exact length_take_le _ _
      · split_ifs
        · exact hle
        · exact length_take_le _ _
    · cases ok <;> simp [unpackresponse_body hs', unpackType]
  · obtain ⟨rfl, hlong⟩ : ok = true ∧ multiPart < msg.length := by
      rw [not_or, Bool.not_eq_false, Nat.not_le] at hone
      exact hone
    have hsize : unpackUint32 (fillUint32 msg.length) = msg.length := by
      simpa using unpackUint32_fill (by omega : msg.length < 2 ^ 32) []
    have hpos : 0 < msg.length := Nat.zero_lt_of_lt hlong
    obtain ⟨init, last, hflat, hinit, hlast, hpack⟩ :=
      packParts_eq (fun last => responseBody session (if last then 4 else 3))
        (fun _ part => length_responseBody _) hpos rfl
    refine ⟨_, ⟨session, true, .size msg.length, true⟩ ::
      (init.map (.part session false) ++ [.part session true last]),
      packresponse_multi hlong hpack, ?_, ?_, .inr ⟨⟨rfl, init, last, rfl⟩, ?_⟩⟩
    · rintro q (_ | ⟨_, hq⟩)
      · exact wellFramed_response (by rw [length_fillUint32, multiPart]; omega)
      · rcases mem_append.mp hq with hq | hq
        · obtain ⟨p, hp, rfl⟩ := mem_map.mp hq
          exact wellFramed_response (hinit p hp)
        · rw [mem_singleton.mp hq]
          exact wellFramed_response hlast
    · simp [unpackresponse_body hs', unpackType, hsize, UnpackedResponse.part]
    · simpa [UnpackedResponse.part, Function.comp_def] using concat_parts hlen hflat

end Responses

end Mtask.Cluster
