import Mathlib.Data.List.Forall2
import Mtask.HarborService.Effects
import Mtask.Lib.Incremental

/-!
# Receiving from a peer

What a peer sends over a link, behind the byte of the handshake, is a stream of frames: a length of
four bytes, of which the first one has to be zero, and as many bytes as the length says. The loop
of `push_socket_data` decodes this stream incrementally, in the state of the slot.
-/

namespace Mtask.HarborService

open List

/-! ### The stream of frames -/

/-- What is cut off a stream: a frame, a frame that is too short for its cookie, or a length that
is refused. -/
inductive LinkItem
  | frame (content : List UInt8)
  | short
  | tooLong
  deriving DecidableEq

/-- The length in the last three of the first four bytes. -/
def frameLength (buf : List UInt8) : ℕ :=
  (buf.getD 1 0).toNat <<< 16 ||| (buf.getD 2 0).toNat <<< 8 ||| (buf.getD 3 0).toNat

/-- The first item of a stream. A frame is complete when its bytes are there, an empty frame when
the next byte is. -/
def cutFrame (buf : List UInt8) : Option (LinkItem × List UInt8) :=
  if buf.length < 4 then none
  else if buf.getD 0 0 ≠ 0 then some (.tooLong, buf.drop 4)
  else if buf.length = 4 ∨ buf.length < 4 + frameLength buf then none
  else if frameLength buf < headerCookieLength then some (.short, buf.drop (4 + frameLength buf))
  else some (.frame ((buf.drop 4).take (frameLength buf)), buf.drop (4 + frameLength buf))

variable {buf : List UInt8}

theorem getD_append_of_lt {i : ℕ} (h : i < buf.length) (more : List UInt8) :
    (buf ++ more).getD i 0 = buf.getD i 0 := by
  rw [getD_eq_getElem?_getD, getD_eq_getElem?_getD, getElem?_append_left h]

theorem frameLength_append (h : 4 ≤ buf.length) (more : List UInt8) :
    frameLength (buf ++ more) = frameLength buf := by
  rw [frameLength, frameLength, getD_append_of_lt (by omega), getD_append_of_lt (by omega),
    getD_append_of_lt (by omega)]

theorem cutFrame_stable {rest : List UInt8} {item : LinkItem} (h : cutFrame buf = some (item, rest))
    (more : List UInt8) : cutFrame (buf ++ more) = some (item, rest ++ more) := by
  rw [cutFrame] at h ⊢
  by_cases hlen : buf.length < 4
  · rw [if_pos hlen] at h
    simp at h
  have hdrop : ∀ n ≤ buf.length, (buf ++ more).drop n = buf.drop n ++ more := fun n hn =>
    drop_append_of_le_length hn
  have hlen' : ¬(buf ++ more).length < 4 := by
    rw [length_append]
    omega
  rw [if_neg hlen] at h
  rw [if_neg hlen', getD_append_of_lt (by omega), frameLength_append (by omega)]
  by_cases hzero : buf.getD 0 0 ≠ 0
  · rw [if_pos hzero, Option.some_inj, Prod.mk.injEq] at h
    rw [if_pos hzero, hdrop 4 (by omega), h.1, h.2]
  · rw [if_neg hzero] at h
    rw [if_neg hzero]
    by_cases hpart : buf.length = 4 ∨ buf.length < 4 + frameLength buf
    · rw [if_pos hpart] at h
      simp at h
    · have hpart' : ¬((buf ++ more).length = 4 ∨ (buf ++ more).length < 4 + frameLength buf) := by
        rw [length_append]
        omega
      rw [if_neg hpart] at h
      rw [if_neg hpart', hdrop _ (by omega), hdrop _ (by omega), take_append_of_le_length
        (by rw [length_drop]; omega)]
      split_ifs at h ⊢ with hshort
      all_goals
        rw [Option.some_inj, Prod.mk.injEq] at h
        rw [h.1, h.2]

/-- The frames of a link. A frame that is too short and a length that is refused are final. -/
def frameCutter : Incremental.Cutter UInt8 LinkItem where
  cut := cutFrame
  final
    | .frame _ => false
    | .short | .tooLong => true
  shrinks {buf item rest} h := by
    rw [cutFrame] at h
    split_ifs at h
    all_goals
      rw [Option.some_inj, Prod.mk.injEq] at h
      rw [← h.2, length_drop]
      omega
  stable := cutFrame_stable

/-- The frames among some items. -/
def framesOf (items : List LinkItem) : List (List UInt8) :=
  items.filterMap fun
    | .frame content => some content
    | .short | .tooLong => none

/-! ### The state of a slot -/

/-- The slot has received the bytes `p` of an item that is not complete. -/
inductive Receiving (s : Slave) (p : List UInt8) : Prop
  | header (status : s.status = .header) (size : s.size.length = 4) (read : s.read = p.length)
      (short : p.length < 4) (taken : s.size.take p.length = p)
  | content (status : s.status = .content) (size : s.size.length = 4) (buffer : Buffer)
      (recv : s.recvBuffer = some buffer) (length : buffer.bytes.length = s.length)
      (read : p.length = 4 + s.read) (zero : p.getD 0 0 = 0) (frame : frameLength p = s.length)
      (taken : buffer.bytes.take s.read = p.drop 4)
      (incomplete : p.length = 4 ∨ p.length < 4 + s.length)

/-- The call that forwards a frame. -/
def forwardCall (id : UInt8) (msg : Buffer) : Call :=
  let header := messageToHeader (msg.bytes.drop (msg.bytes.length - headerCookieLength))
  let destination := header.destination &&& handleMask ||| id.toUInt32 <<< handleRemoteShift
  .mtaskSendOr
    { source := header.source, destination,
      type := header.destination >>> handleRemoteShift ||| tagDontcopy,
      session := header.session.toInt32,
      data := ⟨msg.addr, msg.bytes.take (msg.bytes.length - headerCookieLength)⟩ }
    { source := destination, destination := header.source, type := 7,
      session := header.session.toInt32, data := .null }
    (.unknownDestination destination header.source)

theorem forwardLocalMessage_eq (h : Harbor) (msg : Buffer) :
    forwardLocalMessage h msg msg.bytes.length =
      if msg.bytes.length < headerCookieLength then .error .cookieBelowBuffer
      else .ok (h.call (forwardCall h.id msg)) := by
  rw [forwardLocalMessage]
  have hiff : ((msg.bytes.length : ℤ) - headerCookieLength < 0) ↔
      msg.bytes.length < headerCookieLength := by omega
  simp only [hiff, Int.toNat_natCast]
  rfl

/-- From `h` to `h'`, the slot `id` has read from its link, and the frames were forwarded. -/
structure Quiet (id : ℕ) (h h' : Harbor) (frames : List (List UInt8)) : Prop where
  id_eq : h'.id = h.id
  slave_eq : h'.slave = h.slave
  map_eq : h'.map = h.map
  others : ∀ j ≠ id, h'.s j = h.s j
  fd : (h'.s id).fd = (h.s id).fd
  queue : (h'.s id).queue = (h.s id).queue
  calls : ∃ l, h'.calls = h.calls ++ l ∧
    List.Forall₂ (fun content c => ∃ addr, c = forwardCall h.id ⟨addr, content⟩) frames l

variable {s : Slave}

namespace Quiet

variable {id : ℕ} {h h₁ h₂ : Harbor} {frames frames' : List (List UInt8)}

theorem refl (id : ℕ) (h : Harbor) : Quiet id h h [] :=
  ⟨rfl, rfl, rfl, fun _ _ => rfl, rfl, rfl, [], (append_nil _).symm, .nil⟩

theorem trans (q : Quiet id h h₁ frames) (q' : Quiet id h₁ h₂ frames') :
    Quiet id h h₂ (frames ++ frames') := by
  obtain ⟨l, hl, hframes⟩ := q.calls
  obtain ⟨l', hl', hframes'⟩ := q'.calls
  rw [q.id_eq] at hframes'
  exact ⟨q'.id_eq.trans q.id_eq, q'.slave_eq.trans q.slave_eq, q'.map_eq.trans q.map_eq,
    fun j hj => (q'.others j hj).trans (q.others j hj), q'.fd.trans q.fd, q'.queue.trans q.queue,
    l ++ l', by rw [hl', hl, append_assoc], rel_append hframes hframes'⟩

theorem setSlave (hfd : s.fd = (h.s id).fd) (hqueue : s.queue = (h.s id).queue) :
    Quiet id h (h.setSlave id s) [] where
  id_eq := rfl
  slave_eq := rfl
  map_eq := rfl
  others j hj := s_setSlave_of_ne _ hj s
  fd := by rw [s_setSlave_self, hfd]
  queue := by rw [s_setSlave_self, hqueue]
  calls := ⟨[], (append_nil _).symm, .nil⟩

theorem alloc (id : ℕ) (h : Harbor) : Quiet id h { h with nextAddr := h.nextAddr + 1 } [] :=
  ⟨rfl, rfl, rfl, fun _ _ => rfl, rfl, rfl, [], (append_nil _).symm, .nil⟩

theorem forward (content : List UInt8) (addr : ℕ) :
    Quiet id h (h.call (forwardCall h.id ⟨addr, content⟩)) [content] :=
  ⟨rfl, rfl, rfl, fun _ _ => rfl, rfl, rfl, _, rfl, .cons ⟨addr, rfl⟩ .nil⟩

theorem exists_calls (q : Quiet id h h₁ frames) :
    ∃ l, h₁.calls = h.calls ++ l ∧ ∀ c ∈ l, ∃ msg, c = forwardCall h.id msg := by
  obtain ⟨l, hl, hframes⟩ := q.calls
  refine ⟨l, hl, ?_⟩
  clear hl q
  induction hframes with
  | nil => simp
  | cons hcall _ ih =>
    obtain ⟨addr, rfl⟩ := hcall
    exact forall_mem_cons.mpr ⟨⟨_, rfl⟩, ih⟩

end Quiet

/-! ### A round of the loop -/

theorem memcpy_eq_ok (dst : List UInt8) (off : ℕ) {src : List UInt8} {n : ℕ} (hsrc : n ≤ src.length)
    (hdst : off + n ≤ dst.length) :
    ∃ bytes, memcpy dst off src n = .ok bytes ∧ bytes.length = dst.length ∧
      bytes.take (off + n) = dst.take off ++ src.take n := by
  have hlen : (dst.take off ++ src.take n).length = off + n := by
    rw [length_append, length_take, length_take]
    omega
  refine ⟨dst.take off ++ src.take n ++ dst.drop (off + n), ?_, ?_, ?_⟩
  · rw [memcpy, if_pos ⟨by omega, by omega, by omega⟩, Int.toNat_natCast]
  · rw [length_append, hlen, length_drop]
    omega
  · rw [take_append_of_le_length hlen.ge, take_of_length_le hlen.le]

/-- What a round does with the bytes `buf` of a link: those that the slot has kept, and those of
the chunk. -/
def RoundSpec (id : ℕ) (h : Harbor) (buf : List UInt8) (r : Except HarborFault Flow) : Prop :=
  match cutFrame buf with
  | none => ∃ h', Quiet id h h' [] ∧ Receiving (h'.s id) buf ∧ r = .ok (.return h' 0)
  | some (.frame content, rest) =>
    ∃ h', Quiet id h h' [content] ∧ Receiving (h'.s id) [] ∧
      r = .ok (if rest = [] then .return h' 0 else .loop h' rest rest.length)
  | some (.short, _) => r = .error .cookieBelowBuffer
  | some (.tooLong, rest) =>
    ∃ h', Quiet id h h' [] ∧
      r = .ok (.return (closeHarbor (h'.call (.error (.messageTooLong id))) id) rest.length)

theorem RoundSpec.of_quiet {id : ℕ} {h h₁ : Harbor} {r : Except HarborFault Flow}
    (q : Quiet id h h₁ []) (hr : RoundSpec id h₁ buf r) : RoundSpec id h buf r := by
  rw [RoundSpec] at hr ⊢
  rcases hcut : cutFrame buf with _ | ⟨_ | _ | _, rest⟩ <;> simp only [hcut] at hr ⊢
  · obtain ⟨h', q', hr⟩ := hr
    exact ⟨h', q.trans q', hr⟩
  · obtain ⟨h', q', hr⟩ := hr
    exact ⟨h', q.trans q', hr⟩
  · exact hr
  · obtain ⟨h', q', hr⟩ := hr
    exact ⟨h', q.trans q', hr⟩

section Round

variable {id : ℕ} {h : Harbor} {p b : List UInt8}

/-- **`case STATUS_CONTENT`** completes the frame that the slot receives, or keeps the chunk. -/
theorem contentCase_spec (hrecv : Receiving (h.s id) p) (hp : 4 ≤ p.length) (hb : b ≠ []) :
    RoundSpec id h (p ++ b) (contentCase h id b b.length) := by
  have hbpos := length_pos_iff.mpr hb
  obtain ⟨-, -, -, hshort, -⟩ | ⟨hstatus, hsize, buffer, hbuffer, hlength, hread, hzero, hframe,
    htaken, hincomplete⟩ := hrecv
  · omega
  set s := h.s id with hs
  have hbuf : (p ++ b).length = 4 + s.read + b.length := by rw [length_append, hread]
  have hdrop : (p ++ b).drop 4 = p.drop 4 ++ b := drop_append_of_le_length hp
  have hdroplen : (p.drop 4).length = s.read := by rw [length_drop]; omega
  rw [RoundSpec, cutFrame, if_neg (by omega), getD_append_of_lt (by omega), hzero,
    frameLength_append hp, hframe, hbuf, contentCase, ← hs, hbuffer]
  simp only [ne_eq, not_true_eq_false, if_false]
  by_cases hpart : s.read + b.length < s.length
  · -- The frame is still not complete.
    obtain ⟨bytes, hcopy, hlen, htake⟩ :=
      memcpy_eq_ok buffer.bytes s.read (le_refl b.length) (by omega)
    rw [if_pos (Or.inr (by omega)), if_pos (by omega), hcopy]
    refine ⟨h.setSlave id { s with
      recvBuffer := some { buffer with bytes }, read := s.read + b.length },
      Quiet.setSlave rfl rfl, ?_, rfl⟩
    rw [s_setSlave_self]
    refine .content hstatus hsize _ rfl (hlen.trans hlength) ?_ ?_ ?_ ?_ ?_
    · rw [hbuf, Nat.add_assoc]
    · rw [getD_append_of_lt (by omega), hzero]
    · rw [frameLength_append hp, hframe]
    · rw [htake, htaken, hdrop, take_length]
    · refine Or.inr ?_
      change (p ++ b).length < 4 + s.length
      omega
  · have hneed : (s.length : ℤ) - s.read = (s.length - s.read : ℕ) := by omega
    have hle : s.length - s.read ≤ b.length := by omega
    obtain ⟨bytes, hcopy, hlen, htake⟩ :=
      memcpy_eq_ok buffer.bytes s.read hle (by omega)
    have hblen : bytes.length = s.length := hlen.trans hlength
    have hbytes : bytes = ((p ++ b).drop 4).take s.length := by
      have hall : s.read + (s.length - s.read) = s.length := by omega
      have hself : bytes.take s.length = bytes := take_of_length_le hblen.le
      have hkept : (p.drop 4).take s.length = p.drop 4 := take_of_length_le (by omega)
      rw [hall, hself, htaken] at htake
      rw [htake, hdrop, take_append, hdroplen, hkept]
    have hrest : (p ++ b).drop (4 + s.length) = b.drop (s.length - s.read) := by
      have hnone : (p.drop 4).drop s.length = [] := drop_eq_nil_of_le (by omega)
      rw [← drop_drop, hdrop, drop_append, hdroplen, hnone, nil_append]
    have hforward := forwardLocalMessage_eq h ⟨buffer.addr, bytes⟩
    simp only [hblen] at hforward
    have hcut : ¬(4 + s.read + b.length = 4 ∨ 4 + s.read + b.length < 4 + s.length) := by omega
    have hfull : ¬(b.length : ℤ) < (s.length - s.read : ℕ) := by omega
    rw [if_neg hcut, hneed, if_neg hfull, hcopy]
    simp only [hforward]
    by_cases hcookie : s.length < headerCookieLength
    · rw [if_pos hcookie, if_pos hcookie]
    · rw [if_neg hcookie, if_neg hcookie, ← hbytes, hrest]
      have hnil : b.drop (s.length - s.read) = [] ↔
          (b.length : ℤ) - (s.length - s.read : ℕ) = 0 := by
        rw [drop_eq_nil_iff]
        omega
      refine ⟨(h.call (forwardCall h.id ⟨buffer.addr, bytes⟩)).setSlave id
        { s with length := 0, read := 0, recvBuffer := none, status := .header },
        (Quiet.forward bytes buffer.addr).trans (Quiet.setSlave rfl rfl), ?_, ?_⟩
      · rw [s_setSlave_self]
        exact .header rfl hsize rfl (by decide) rfl
      · have hleft : (b.length : ℤ) - (s.length - s.read : ℕ) =
            (b.drop (s.length - s.read)).length := by
          rw [length_drop]
          omega
        simp only [hnil, Int.toNat_natCast, ← hleft]
        split_ifs <;> rfl

theorem getD_take_four {i : ℕ} (hi : i < 4) : (buf.take 4).getD i 0 = buf.getD i 0 := by
  rw [getD_eq_getElem?_getD, getD_eq_getElem?_getD, getElem?_take_of_lt hi]

/-- **`case STATUS_HEADER`** keeps the chunk, refuses the length, or goes on to the content. -/
theorem headerCase_spec (hrecv : Receiving (h.s id) p) (hp : p.length < 4) :
    RoundSpec id h (p ++ b) (headerCase h id b b.length) := by
  obtain ⟨hstatus, hsize, hread, -, htaken⟩ | ⟨-, -, -, -, -, hread, -⟩ := hrecv
  swap
  · omega
  set s := h.s id with hs
  have hbuf : (p ++ b).length = p.length + b.length := length_append
  rw [headerCase, ← hs, hread]
  by_cases hpart : p.length + b.length < 4
  · obtain ⟨bytes, hcopy, hlen, htake⟩ := memcpy_eq_ok s.size p.length (le_refl b.length) (by omega)
    have hlt : (b.length : ℤ) < 4 - p.length := by omega
    rw [RoundSpec, cutFrame, if_pos (by omega), if_pos hlt, hcopy]
    refine ⟨h.setSlave id { s with size := bytes, read := p.length + b.length },
      Quiet.setSlave rfl rfl, ?_, rfl⟩
    rw [s_setSlave_self]
    refine .header hstatus (hlen.trans hsize) ?_ (by omega) ?_
    · exact hbuf.symm
    · rw [hbuf, htake, htaken, take_length]
  · have hneed : (4 : ℤ) - p.length = (4 - p.length : ℕ) := by omega
    have hle : 4 - p.length ≤ b.length := by omega
    obtain ⟨bytes, hcopy, hlen, htake⟩ := memcpy_eq_ok s.size p.length hle (by omega)
    have hbytes : bytes = (p ++ b).take 4 := by
      have hall : p.length + (4 - p.length) = 4 := by omega
      have hself : bytes.take 4 = bytes := take_of_length_le (by omega)
      have hkept : p.take 4 = p := take_of_length_le (by omega)
      rw [hall, hself, htaken] at htake
      rw [htake, take_append, hkept]
    have hrest : b.drop (4 - p.length) = (p ++ b).drop 4 := by
      have hnone : p.drop 4 = [] := drop_eq_nil_of_le (by omega)
      rw [drop_append, hnone, nil_append]
    have hleft : (b.length : ℤ) - (4 - p.length : ℕ) = ((p ++ b).drop 4).length := by
      rw [length_drop]
      omega
    have hfull : ¬(b.length : ℤ) < (4 - p.length : ℕ) := by omega
    rw [hneed, if_neg hfull, hcopy]
    simp only [Int.toNat_natCast, hrest, hleft]
    by_cases hzero : bytes.getD 0 0 ≠ 0
    · have hzero' := hzero
      rw [hbytes, getD_take_four (by omega)] at hzero'
      rw [if_pos hzero, RoundSpec, cutFrame, if_neg (by omega), if_pos hzero']
      exact ⟨h.setSlave id { s with size := bytes, read := p.length },
        Quiet.setSlave rfl rfl, rfl⟩
    · rw [if_neg hzero]
      -- The slot has kept the four bytes of the length.
      set length := (bytes.getD 1 0).toNat <<< 16 ||| (bytes.getD 2 0).toNat <<< 8 |||
        (bytes.getD 3 0).toNat with hlength
      set h₁ : Harbor := Harbor.setSlave { h with nextAddr := h.nextAddr + 1 } id
        { s with
          size := bytes, length, read := 0, status := .content
          recvBuffer := some { addr := h.nextAddr, bytes := List.replicate length 0 } } with hh₁
      have hquiet : Quiet id h h₁ [] := (Quiet.alloc id h).trans (Quiet.setSlave rfl rfl)
      have hrecv₁ : Receiving (h₁.s id) ((p ++ b).take 4) := by
        have hfour : ((p ++ b).take 4).length = 4 := by rw [length_take]; omega
        rw [hh₁, s_setSlave_self]
        refine .content rfl (hlen.trans hsize) _ rfl length_replicate hfour ?_ ?_ ?_
          (Or.inl hfour)
        · rw [← hbytes]
          exact not_not.mp hzero
        · rw [← hbytes]
          exact hlength.symm
        · rw [take_zero, drop_eq_nil_of_le hfour.le]
      by_cases hnil : (p ++ b).drop 4 = []
      · have hfour : (p ++ b).length = 4 := by
          rw [drop_eq_nil_iff] at hnil
          omega
        have hzero' : ¬(p ++ b).getD 0 0 ≠ 0 := by
          rwa [hbytes, getD_take_four (by omega)] at hzero
        have hnone : (((p ++ b).drop 4).length : ℤ) = 0 := by
          rw [hnil]
          rfl
        rw [if_pos hnone, RoundSpec, cutFrame, if_neg (by omega), if_neg hzero',
          if_pos (Or.inl hfour)]
        rw [take_of_length_le hfour.le] at hrecv₁
        exact ⟨h₁, hquiet, hrecv₁, rfl⟩
      · have hpos : ¬(((p ++ b).drop 4).length : ℤ) = 0 := by
          have := length_pos_iff.mpr hnil
          omega
        have hspec := contentCase_spec hrecv₁ (by rw [length_take]; omega) hnil
        rw [take_append_drop] at hspec
        rw [if_neg hpos]
        exact hspec.of_quiet hquiet

end Round

/-! ### The loop -/

theorem cutFrame_of_receiving {p : List UInt8} (h : Receiving s p) : cutFrame p = none := by
  obtain ⟨-, -, -, hshort, -⟩ | ⟨-, -, _, -, -, hread, hzero, hframe, -, hincomplete⟩ := h
  · rw [cutFrame, if_pos hshort]
  · rw [cutFrame, if_neg (by omega), if_neg (not_not.mpr hzero), hframe, if_pos hincomplete]

/-- A round of the loop for a slot that is past its handshake. Without a chunk there is a round
only for a slot that has received nothing. -/
theorem statusCase_spec {id : ℕ} {h : Harbor} {p b : List UInt8} (hrecv : Receiving (h.s id) p)
    (hb : b ≠ [] ∨ p.length < 4) (fd : ℤ) :
    RoundSpec id h (p ++ b) (statusCase h id fd b b.length) := by
  rw [statusCase]
  rcases lt_or_ge p.length 4 with hp | hp
  · have hspec := headerCase_spec (b := b) hrecv hp
    obtain ⟨hstatus, -⟩ | ⟨-, -, _, -, -, hread, -⟩ := hrecv
    · rw [hstatus]
      exact hspec
    · omega
  · have hspec := contentCase_spec hrecv hp (hb.resolve_right (not_lt.mpr hp))
    obtain ⟨-, -, -, hshort, -⟩ | ⟨hstatus, -⟩ := hrecv
    · omega
    · rw [hstatus]
      exact hspec

/-- A frame that the chunk completes ends in the chunk. -/
theorem length_lt_of_cutFrame {p b content rest : List UInt8} (hp : cutFrame p = none)
    (hcut : cutFrame (p ++ b) = some (.frame content, rest)) : rest.length < b.length := by
  rw [cutFrame] at hp hcut
  have hbuf : (p ++ b).length = p.length + b.length := length_append
  split_ifs at hcut with h₁ h₂ h₃ h₄
  all_goals simp only [Option.some_inj, Prod.mk.injEq, reduceCtorEq, false_and] at hcut
  rw [← hcut.2, length_drop]
  by_cases hshort : p.length < 4
  · omega
  · rw [getD_append_of_lt (by omega)] at h₂
    rw [frameLength_append (by omega)] at h₃ h₄ ⊢
    have hcookie : headerCookieLength = 12 := rfl
    rw [if_neg hshort, if_neg h₂] at hp
    split_ifs at hp with hpart
    omega

/-- What the loop does with a stream that is decoded to `d`: it forwards the frames, and then it
goes wrong on a short frame, closes the link, or keeps the rest. -/
def LoopSpec (id : ℕ) (h : Harbor) (d : List LinkItem × Option (List UInt8))
    (r : Except HarborFault (Harbor × ℤ)) : Prop :=
  if .short ∈ d.1 then r = .error .cookieBelowBuffer
  else ∃ h', Quiet id h h' (framesOf d.1) ∧
    if .tooLong ∈ d.1 then
      ∃ size, r = .ok (closeHarbor (h'.call (.error (.messageTooLong id))) id, size)
    else ∃ kept, d.2 = some kept ∧ Receiving (h'.s id) kept ∧ r = .ok (h', 0)

theorem LoopSpec.of_quiet {id : ℕ} {h h₁ : Harbor} {content : List UInt8}
    {d : List LinkItem × Option (List UInt8)} {r : Except HarborFault (Harbor × ℤ)}
    (q : Quiet id h h₁ [content]) (hr : LoopSpec id h₁ d r) :
    LoopSpec id h (.frame content :: d.1, d.2) r := by
  rw [LoopSpec] at hr ⊢
  simp only [mem_cons, reduceCtorEq, false_or]
  split_ifs at hr ⊢ with hshort htooLong
  · exact hr
  · obtain ⟨h', q', hr⟩ := hr
    exact ⟨h', q.trans q', hr⟩
  · obtain ⟨h', q', hr⟩ := hr
    exact ⟨h', q.trans q', hr⟩

/-- **The loop is the incremental decoding of the stream**: with the bytes `p` kept and the chunk
`b`, it does what the frames of `p ++ b` say. -/
theorem socketDataLoop_spec {id : ℕ} {fd : ℤ} {n : ℕ} {h : Harbor} {p b : List UInt8}
    (hrecv : Receiving (h.s id) p) (hb : b ≠ [] ∨ p.length < 4) (hn : b.length < n) :
    LoopSpec id h (frameCutter.decode (p ++ b)) (socketDataLoop id fd n h b b.length) := by
  induction n generalizing h p b with
  | zero => omega
  | succ n ih =>
    have hround := statusCase_spec hrecv hb fd
    rw [RoundSpec] at hround
    rw [socketDataLoop]
    rcases hcut : cutFrame (p ++ b) with _ | ⟨content | _ | _, rest⟩ <;> simp only [hcut] at hround
    · obtain ⟨h', q, hrecv', heq⟩ := hround
      rw [heq, frameCutter.decode_of_none hcut, LoopSpec]
      exact ⟨h', q, _, rfl, hrecv', rfl⟩
    · obtain ⟨h', q, hrecv', heq⟩ := hround
      rw [heq, frameCutter.decode_of_some hcut rfl]
      refine LoopSpec.of_quiet q ?_
      by_cases hrest : rest = []
      · have hnil : frameCutter.cut [] = none := rfl
        rw [if_pos hrest, hrest, frameCutter.decode_of_none hnil]
        exact ⟨h', Quiet.refl id h', _, rfl, hrecv', rfl⟩
      · rw [if_neg hrest]
        have hlt := length_lt_of_cutFrame (cutFrame_of_receiving hrecv) hcut
        exact ih hrecv' (Or.inl hrest) (by omega)
    · rw [hround, frameCutter.decode_of_final hcut rfl]
      rfl
    · obtain ⟨h', q, heq⟩ := hround
      rw [heq, frameCutter.decode_of_final hcut rfl]
      exact ⟨h', q, _, rfl⟩

end Mtask.HarborService
