import Mathlib.Tactic.Ring
import Mtask.HarborService.LinkRun

/-!
# The wire between two harbors

The bytes that `send_remote` of one harbor writes to a link, and what `push_socket_data` of the
harbor at the other end makes of them. The sender accepts every message whose frame has a length
of 32 bits; the receiver refuses a length whose first byte is not zero.
-/

namespace Mtask.HarborService

open List

/-! ### Bits and bytes -/

/-- `from_bigendian` reads back what `to_bigendian` has written. -/
theorem fromBigendian_toBigendian (n : UInt32) (before rest : List UInt8) :
    fromBigendian (before ++ (toBigendian n ++ rest)) before.length = n := by
  refine UInt32.eq_of_toBitVec_eq (BitVec.eq_of_getLsbD_eq fun i hi => ?_)
  have hget : ∀ j, (before ++ (toBigendian n ++ rest)).getD (before.length + j) 0 =
      (toBigendian n ++ rest).getD j 0 := fun j => by
    rw [getD_eq_getElem?_getD, getD_eq_getElem?_getD,
      getElem?_append_right (Nat.le_add_right _ _), Nat.add_sub_cancel_left]
  simp only [fromBigendian, hget]
  simp only [toBigendian, cons_append, nil_append, getD_cons_zero,
    getD_cons_succ]
  -- A bit comes from the byte that it lies in.
  rcases lt_or_ge i 8 with h8 | h8
  · have h16 : i < 16 := by omega
    have h24 : i < 24 := by omega
    simp [-UInt32.toUInt32_toUInt8, h8, h16, h24, hi]
  rcases lt_or_ge i 16 with h16 | h16
  · have h24 : i < 24 := by omega
    have hsum : 8 + (i - 8) = i := by omega
    have hbyte : i - 8 < 8 := by omega
    have hword : i - 8 < 32 := by omega
    simp [-UInt32.toUInt32_toUInt8, not_lt.mpr h8, h16, h24, hi, hsum, hbyte, hword]
  have hbyte₁ : ¬i - 8 < 8 := by omega
  rcases lt_or_ge i 24 with h24 | h24
  · have hsum : 16 + (i - 16) = i := by omega
    have hbyte : i - 16 < 8 := by omega
    have hword : i - 16 < 32 := by omega
    simp [-UInt32.toUInt32_toUInt8, not_lt.mpr h8, not_lt.mpr h16, h24, hi, hsum, hbyte, hword,
      hbyte₁]
  · have hsum : 24 + (i - 24) = i := by omega
    have hbyte : i - 24 < 8 := by omega
    have hword : i - 24 < 32 := by omega
    have hbyte₂ : ¬i - 16 < 8 := by omega
    simp [-UInt32.toUInt32_toUInt8, not_lt.mpr h8, not_lt.mpr h16, not_lt.mpr h24, hi, hsum, hbyte,
      hword, hbyte₁, hbyte₂]

theorem messageToHeader_headerToMessage (header : RemoteMessageHeader) :
    messageToHeader (headerToMessage header) = header := by
  have hsource : fromBigendian (headerToMessage header) 0 = header.source := by
    rw [headerToMessage, append_assoc]
    exact fromBigendian_toBigendian header.source [] _
  have hdestination : fromBigendian (headerToMessage header) 4 = header.destination := by
    rw [headerToMessage, append_assoc]
    exact fromBigendian_toBigendian header.destination (toBigendian header.source) _
  have hsession : fromBigendian (headerToMessage header) 8 = header.session := by
    rw [headerToMessage, ← append_nil (toBigendian header.session)]
    exact fromBigendian_toBigendian header.session
      (toBigendian header.source ++ toBigendian header.destination) []
  rw [messageToHeader, hsource, hdestination, hsession]

/-! ### Frames -/

/-- A message for another harbor, and the block of its payload. -/
structure RemoteMsg where
  source : UInt32
  destination : UInt32
  type : UInt8
  session : Int32
  payload : Buffer

/-- The cookie that `remote_send_handle` makes for a message. -/
def RemoteMsg.cookie (m : RemoteMsg) : RemoteMessageHeader :=
  cookieOf m.source m.destination m.type m.session

/-- The length that `send_remote` writes in front of a message. -/
def RemoteMsg.frameSize (m : RemoteMsg) : ℕ :=
  m.payload.bytes.length + headerCookieLength

/-- A message that `send_remote` accepts. -/
def RemoteMsg.Accepted (m : RemoteMsg) : Prop :=
  m.frameSize ≤ uint32Max

instance (m : RemoteMsg) : Decidable m.Accepted :=
  inferInstanceAs (Decidable (_ ≤ _))

/-- The frame of a message behind its length. -/
def RemoteMsg.content (m : RemoteMsg) : List UInt8 :=
  m.payload.bytes ++ headerToMessage m.cookie

/-- The bytes that a call writes to its socket: a negative size writes nothing. -/
def sentBytes : Call → List UInt8
  | .socketSend _ buffer sz => buffer.take sz.toNat
  | _ => []

/-- `send_remote` for one message after the other. -/
def sendAll (g : Harbor) (fd : ℤ) (msgs : List RemoteMsg) : Harbor :=
  msgs.foldl (fun g m => sendRemote g fd m.payload m.cookie) g

/-- The bytes that were written between two states. -/
def bytesSince (g g' : Harbor) : List UInt8 :=
  (g'.calls.drop g.calls.length).flatMap sentBytes

/-- The bytes that are written for a message. -/
def RemoteMsg.wire (fd : ℤ) (m : RemoteMsg) : List UInt8 :=
  sentBytes (remoteCall fd m.payload m.cookie)

theorem bytesSince_sendAll (g : Harbor) (fd : ℤ) (msgs : List RemoteMsg) :
    bytesSince g (sendAll g fd msgs) = msgs.flatMap (RemoteMsg.wire fd) := by
  have hsend : sendAll g fd msgs =
      g.callAll (msgs.map fun m => remoteCall fd m.payload m.cookie) := by
    rw [sendAll]
    induction msgs generalizing g with
    | nil => exact (callAll_nil g).symm
    | cons m msgs ih =>
      rw [foldl_cons, ih, sendRemote_eq, call_eq_callAll, callAll_callAll]
      rfl
  rw [bytesSince, hsend, Harbor.callAll, drop_left, flatMap_map]
  rfl

section Frame

variable {m : RemoteMsg} (fd : ℤ)

theorem length_headerToMessage (header : RemoteMessageHeader) :
    (headerToMessage header).length = headerCookieLength := rfl

theorem RemoteMsg.length_content (m : RemoteMsg) : m.content.length = m.frameSize := by
  rw [content, length_append, length_headerToMessage, frameSize]

/-- The bytes of the frame, of which as many are written as the `int` of `mtask_socket_send`
says. -/
theorem RemoteMsg.wire_eq (h : m.Accepted) :
    m.wire fd = (toBigendian m.frameSize.toUInt32 ++ m.content).take
      (toInt (m.frameSize + 4)).toNat := by
  have hle : ¬m.payload.bytes.length + headerCookieLength > uint32Max := not_lt.mpr h
  rw [wire, remoteCall, if_neg hle, sentBytes, append_assoc]
  rfl

theorem toNat_frameSize (h : m.Accepted) : m.frameSize.toUInt32.toNat = m.frameSize := by
  have hlt : m.frameSize < 2 ^ 32 := Nat.lt_of_le_pred (Nat.two_pow_pos 32) h
  exact Nat.mod_eq_of_lt hlt

theorem head_toBigendian_eq_zero_iff (n : UInt32) : (n >>> 24).toUInt8 = 0 ↔ n.toNat < 2 ^ 24 := by
  rw [← UInt8.toNat_inj, UInt32.toNat_toUInt8, UInt32.toNat_shiftRight, Nat.shiftRight_eq_div_pow]
  have h24 : (24 : UInt32).toNat % 32 = 24 := rfl
  have h0 : (0 : UInt8).toNat = 0 := rfl
  have hlt := n.toNat_lt
  rw [h24, h0]
  omega

theorem frameLength_toBigendian {n : UInt32} (h : n.toNat < 2 ^ 24) (rest : List UInt8) :
    frameLength (toBigendian n ++ rest) = n.toNat := by
  have h16 : (16 : UInt32).toNat % 32 = 16 := rfl
  have h8 : (8 : UInt32).toNat % 32 = 8 := rfl
  have hbytes : frameLength (toBigendian n ++ rest) =
      (n.toNat / 2 ^ 16 % 256) <<< 16 ||| (n.toNat / 2 ^ 8 % 256) <<< 8 ||| n.toNat % 256 := by
    simp only [frameLength, toBigendian, cons_append, getD_cons_succ, getD_cons_zero,
      UInt32.toNat_toUInt8, UInt32.toNat_shiftRight, Nat.shiftRight_eq_div_pow, h16, h8]
  have hlow : (n.toNat / 2 ^ 8 % 256) <<< 8 ||| n.toNat % 256 =
      (n.toNat / 2 ^ 8 % 256) <<< 8 + n.toNat % 256 :=
    (Nat.shiftLeft_add_eq_or_of_lt (Nat.mod_lt _ (by decide)) _).symm
  have hlt : (n.toNat / 2 ^ 8 % 256) <<< 8 + n.toNat % 256 < 2 ^ 16 := by
    rw [Nat.shiftLeft_eq]
    omega
  rw [hbytes, Nat.or_assoc, hlow, ← Nat.shiftLeft_add_eq_or_of_lt hlt, Nat.shiftLeft_eq,
    Nat.shiftLeft_eq]
  omega

/-- **A message whose frame is short enough is cut off whole.** -/
theorem cutFrame_wire (hm : m.frameSize < 2 ^ 24) (rest : List UInt8) :
    cutFrame (m.wire fd ++ rest) = some (.frame m.content, rest) := by
  have hacc : m.Accepted := by
    have : uint32Max = 2 ^ 32 - 1 := rfl
    rw [RemoteMsg.Accepted]
    omega
  have hnat := toNat_frameSize hacc
  have hcookie : headerCookieLength ≤ m.frameSize := Nat.le_add_left _ _
  have hcookie' : headerCookieLength = 12 := rfl
  have hint : (toInt (m.frameSize + 4)).toNat = m.frameSize + 4 := by
    rw [toInt, Int.bmod_eq_of_le (by omega) (by omega)]
    omega
  have hlen : (toBigendian m.frameSize.toUInt32).length = 4 := rfl
  have hwire : m.wire fd = toBigendian m.frameSize.toUInt32 ++ m.content := by
    rw [RemoteMsg.wire_eq fd hacc, hint, take_of_length_le]
    rw [length_append, hlen, m.length_content]
    omega
  have hzero : (toBigendian m.frameSize.toUInt32 ++ (m.content ++ rest)).getD 0 0 = 0 :=
    (head_toBigendian_eq_zero_iff _).mpr (by rw [hnat]; exact hm)
  have hframe : frameLength (toBigendian m.frameSize.toUInt32 ++ (m.content ++ rest)) =
      m.content.length := by
    rw [frameLength_toBigendian (by rw [hnat]; exact hm), hnat, m.length_content]
  have hdrop : (toBigendian m.frameSize.toUInt32 ++ (m.content ++ rest)).drop 4 =
      m.content ++ rest := rfl
  have hcontent := m.length_content
  rw [hwire, append_assoc, cutFrame, hzero, hframe, ← drop_drop, hdrop, take_left,
    drop_left, length_append, length_append, hlen, if_neg (by omega),
    if_neg (not_not.mpr rfl), if_neg (by omega), if_neg (by omega)]

/-- The bytes of a message whose frame is too long begin with a byte that is not zero, if there
are any. -/
theorem wire_of_tooLong (hacc : m.Accepted) (hm : 2 ^ 24 ≤ m.frameSize) :
    m.wire fd = [] ∨ ∃ b rest, m.wire fd = b :: rest ∧ b ≠ 0 := by
  have hne : (m.frameSize.toUInt32 >>> 24).toUInt8 ≠ 0 := by
    rw [Ne, head_toBigendian_eq_zero_iff, toNat_frameSize hacc]
    omega
  rw [RemoteMsg.wire_eq fd hacc]
  rcases (toInt (m.frameSize + 4)).toNat with _ | k
  · exact Or.inl rfl
  · exact Or.inr ⟨_, _, rfl, hne⟩

theorem framesOf_decode_of_head_ne {b : UInt8} (hb : b ≠ 0) (rest : List UInt8) :
    framesOf (frameCutter.decode (b :: rest)).1 = [] := by
  by_cases hlen : (b :: rest).length < 4
  · have hcut : frameCutter.cut (b :: rest) = none := if_pos hlen
    rw [frameCutter.decode_of_none hcut]
    rfl
  · have hcut : frameCutter.cut (b :: rest) = some (.tooLong, (b :: rest).drop 4) := by
      change cutFrame (b :: rest) = _
      rw [cutFrame, if_neg hlen, getD_cons_zero, if_pos hb]
    rw [frameCutter.decode_of_final hcut rfl]
    rfl

end Frame

/-! ### Streams of messages -/

theorem decode_nil : frameCutter.decode [] = ([], some []) :=
  frameCutter.decode_of_none (show frameCutter.cut [] = none from rfl)

variable {msgs : List RemoteMsg}

theorem decode_wire {fd : ℤ} (h : ∀ m ∈ msgs, m.frameSize < 2 ^ 24) :
    frameCutter.decode (msgs.flatMap (RemoteMsg.wire fd)) =
      (msgs.map fun m => .frame m.content, some []) := by
  induction msgs with
  | nil => exact decode_nil
  | cons m msgs ih =>
    have hcut := cutFrame_wire fd (h m mem_cons_self) (msgs.flatMap (RemoteMsg.wire fd))
    rw [flatMap_cons, frameCutter.decode_of_some hcut rfl,
      ih fun m' hm' => h m' (mem_cons_of_mem m hm')]
    rfl

/-- No more frames are decoded than messages were sent, and fewer if a frame was too long. -/
theorem length_framesOf_wire {fd : ℤ} (hacc : ∀ m ∈ msgs, m.Accepted) :
    (framesOf (frameCutter.decode (msgs.flatMap (RemoteMsg.wire fd))).1).length ≤ msgs.length ∧
      ((framesOf (frameCutter.decode (msgs.flatMap (RemoteMsg.wire fd))).1).length = msgs.length →
        ∀ m ∈ msgs, m.frameSize < 2 ^ 24) := by
  induction msgs with
  | nil =>
    rw [flatMap_nil, decode_nil]
    exact ⟨le_rfl, fun _ m hm => by simp at hm⟩
  | cons m msgs ih =>
    obtain ⟨hle, hall⟩ := ih fun m' hm' => hacc m' (mem_cons_of_mem m hm')
    rw [flatMap_cons]
    rcases lt_or_ge m.frameSize (2 ^ 24) with hm | hm
    · have hcut := cutFrame_wire fd hm (msgs.flatMap (RemoteMsg.wire fd))
      rw [frameCutter.decode_of_some hcut rfl]
      change (_ :: framesOf _).length ≤ _ ∧ ((_ :: framesOf _).length = _ → _)
      rw [length_cons, length_cons]
      refine ⟨Nat.succ_le_succ hle, fun heq => ?_⟩
      rw [forall_mem_cons]
      exact ⟨hm, hall (Nat.succ_injective heq)⟩
    · rcases wire_of_tooLong fd (hacc m mem_cons_self) hm with hnil | ⟨b, rest, heq, hb⟩
      · -- Nothing at all is written for the message.
        rw [hnil, nil_append, length_cons]
        exact ⟨by omega, fun h => by omega⟩
      · rw [heq, cons_append, framesOf_decode_of_head_ne hb, length_nil, length_cons]
        exact ⟨by omega, fun h => by omega⟩

/-! ### What is delivered -/

/-- A message as it is handed to `mtask_send`. -/
structure Delivered where
  source : UInt32
  destination : UInt32
  type : UInt32
  session : Int32
  bytes : List UInt8
  deriving DecidableEq

/-- The message that a call hands to `mtask_send`; a reply that is made only if the call fails is
not counted. -/
def Call.delivered : Call → Option Delivered
  | .mtaskSend args | .mtaskSendOr args _ _ =>
    some ⟨args.source, args.destination, args.type, args.session, args.data.bytes⟩
  | _ => none

/-- The messages that are handed to `mtask_send` between two states. -/
def deliveredSince (h h' : Harbor) : List Delivered :=
  (h'.calls.drop h.calls.length).filterMap Call.delivered

/-- What the harbor `id` is to make of a message: the same source, type, session and bytes, and the
handle with its own id. -/
def RemoteMsg.delivered (id : UInt8) (m : RemoteMsg) : Delivered where
  source := m.source
  destination := m.destination &&& handleMask ||| id.toUInt32 <<< handleRemoteShift
  type := m.type.toUInt32 ||| tagDontcopy
  session := m.session
  bytes := m.payload.bytes

/-- What `forward_local_messsage` makes of a frame. -/
def deliveredFrame (id : UInt8) (content : List UInt8) : Delivered :=
  let header := messageToHeader (content.drop (content.length - headerCookieLength))
  { source := header.source
    destination := header.destination &&& handleMask ||| id.toUInt32 <<< handleRemoteShift
    type := header.destination >>> handleRemoteShift ||| tagDontcopy
    session := header.session.toInt32
    bytes := content.take (content.length - headerCookieLength) }

theorem delivered_forwardCall (id : UInt8) (addr : ℕ) (content : List UInt8) :
    (forwardCall id ⟨addr, content⟩).delivered = some (deliveredFrame id content) := rfl

/-- **A frame is delivered as the message that was sent.** -/
theorem deliveredFrame_content (id : UInt8) (m : RemoteMsg) :
    deliveredFrame id m.content = m.delivered id := by
  have hlen : m.content.length - headerCookieLength = m.payload.bytes.length := by
    rw [m.length_content, RemoteMsg.frameSize, Nat.add_sub_cancel]
  rw [deliveredFrame, hlen, RemoteMsg.content, drop_left, take_left,
    messageToHeader_headerToMessage, RemoteMsg.cookie, cookieOf]
  simp only [cookie_type, cookie_handle]
  rfl

variable {l : List Call} {frames : List (List UInt8)}

theorem filterMap_delivered {id : UInt8}
    (h : List.Forall₂ (fun content c => ∃ addr, c = forwardCall id ⟨addr, content⟩) frames l) :
    l.filterMap Call.delivered = frames.map (deliveredFrame id) := by
  induction h with
  | nil => rfl
  | cons hcall _ ih =>
    obtain ⟨addr, rfl⟩ := hcall
    rw [filterMap_cons_some (delivered_forwardCall id addr _), ih, map_cons]

/-- Sending a queue hands nothing to `mtask_send`. -/
theorem delivered_queuedCalls {fd : ℤ} {m : HarborMsg} {call : Call}
    (h : call ∈ queuedCalls fd m) : call.delivered = none := by
  rcases mem_cons.mp h with rfl | h
  · rw [remoteCall]
    split_ifs <;> rfl
  · rw [mem_singleton] at h
    rw [h]
    rfl

section RoundTrip

variable {id : ℕ} {fd : ℤ} {h h₀ h₁ g : Harbor} {chunks : List Buffer}

theorem deliveredSince_of_quiet (hid : h₀.id = h.id) (hcalls : h₀.calls = h.calls ++ l)
    (hl : l.filterMap Call.delivered = []) (q : Quiet id h₀ h₁ frames) :
    deliveredSince h h₁ = frames.map (deliveredFrame h.id) := by
  obtain ⟨l', hl', hframes⟩ := q.calls
  rw [deliveredSince, hl', hcalls, append_assoc, drop_left, filterMap_append, hl,
    nil_append, filterMap_delivered hframes, hid]

theorem exists_runSpec {waits : Bool} {stream : List UInt8} (hstart : LinkStart h id fd waits)
    (hne : ∀ c ∈ chunks, c.bytes ≠ []) (hpeer : g.id.toNat = id)
    (hstream : streamOf chunks = (if waits then [g.id] else []) ++ stream) :
    ∃ h₀ l, h₀.id = h.id ∧ h₀.calls = h.calls ++ l ∧ l.filterMap Call.delivered = [] ∧
      RunSpec id h₀ (Receives id fd h chunks) (frameCutter.decode stream) := by
  rcases waits with _ | _
  · have hrecv : Receiving (h.s id) [] := .header hstart.status hstart.size hstart.read
      (by decide) rfl
    have hspec := receives_of_receiving hstart.link hstart.id_ne hrecv hne
    rw [hstream] at hspec
    exact ⟨h, [], rfl, (append_nil _).symm, rfl, hspec⟩
  · rcases chunks with _ | ⟨c, chunks⟩
    · simp [streamOf] at hstream
    obtain ⟨b, rest, hc⟩ := exists_cons_of_ne_nil (hne c mem_cons_self)
    rw [streamOf, flatMap_cons, hc] at hstream
    obtain ⟨hb, hrest⟩ : b = g.id ∧ rest ++ chunks.flatMap Buffer.bytes = stream :=
      List.cons.inj hstream
    have hspec := receives_of_handshake hstart hne hc (hb ▸ hpeer)
    rw [streamOf, hrest] at hspec
    refine ⟨opened h id, _, rfl, rfl, ?_, hspec⟩
    rw [filterMap_eq_nil_iff]
    intro call hcall
    obtain ⟨m, -, hcall⟩ := mem_flatMap.mp hcall
    exact delivered_queuedCalls hcall

variable {fd' : ℤ}

/-- If every message is delivered and the link stays up, no frame was too long. -/
theorem frameSize_lt_of_delivered (hid : h₀.id = h.id) (hcalls : h₀.calls = h.calls ++ l)
    (hl : l.filterMap Call.delivered = []) (hspec : RunSpec id h₀ (Receives id fd h chunks)
      (frameCutter.decode (msgs.flatMap (RemoteMsg.wire fd')))) (hacc : ∀ m ∈ msgs, m.Accepted)
    {h' : Harbor} (hr : Receives id fd h chunks h')
    (hdelivered : (deliveredSince h h').length = msgs.length) (hstatus : (h'.s id).status ≠ .down) :
    ∀ m ∈ msgs, m.frameSize < 2 ^ 24 := by
  rw [RunSpec] at hspec
  by_cases hshort : LinkItem.short ∈ (frameCutter.decode (msgs.flatMap (RemoteMsg.wire fd'))).1
  · rw [if_pos hshort] at hspec
    exact absurd hr (hspec h')
  · rw [if_neg hshort] at hspec
    obtain ⟨h₁, h₂, q, hr₂, hspec⟩ := hspec
    obtain rfl := hr.unique hr₂
    by_cases htooLong :
        LinkItem.tooLong ∈ (frameCutter.decode (msgs.flatMap (RemoteMsg.wire fd'))).1
    · rw [if_pos htooLong] at hspec
      rw [hspec] at hstatus
      exact absurd (closeHarbor_status _ _) hstatus
    · rw [if_neg htooLong] at hspec
      rw [hspec.2, deliveredSince_of_quiet hid hcalls hl q, length_map] at hdelivered
      exact (length_framesOf_wire hacc).2 hdelivered

theorem not_delivered_of_tooLong {m : RemoteMsg} (hstart : LinkStart h id fd false)
    (hpeer : g.id.toNat = id) (hacc : m.Accepted) (hm : 2 ^ 24 ≤ m.frameSize)
    (hne : ∀ c ∈ chunks, c.bytes ≠ [])
    (hstream : streamOf chunks = bytesSince g (sendAll g fd' [m])) :
    ¬∃ h', Receives id fd h chunks h' ∧ deliveredSince h h' = [m.delivered h.id] ∧
      (h'.s id).status ≠ .down := by
  rintro ⟨h', hr, hdelivered, hstatus⟩
  have hstream' : streamOf chunks =
      (if false then [g.id] else []) ++ [m].flatMap (RemoteMsg.wire fd') := by
    rw [hstream, bytesSince_sendAll, if_neg Bool.false_ne_true, nil_append]
  obtain ⟨h₀, l, hid, hcalls, hl, hspec⟩ := exists_runSpec hstart hne hpeer hstream'
  have hlen : (deliveredSince h h').length = [m].length := by rw [hdelivered]; rfl
  have hacc' : ∀ m' ∈ [m], m'.Accepted := fun m' hm' => mem_singleton.mp hm' ▸ hacc
  have hlt := frameSize_lt_of_delivered hid hcalls hl hspec hacc' hr hlen hstatus m
    mem_cons_self
  exact absurd hlt (not_lt.mpr hm)

/-- **The wire round trip.** Let `g` send messages that it accepts, over a link to this harbor that
has just been made, and let the bytes arrive in any chunks that are not empty, behind the byte of
the handshake if this side waits for it. Then exactly these messages are handed to `mtask_send`, in
order, and the link stays up, if and only if the frame of every message is shorter than `2 ^ 24`
bytes. -/
theorem wire_roundtrip_iff {waits : Bool} {fd' : ℤ} {msgs : List RemoteMsg}
    (hstart : LinkStart h id fd waits) (hpeer : g.id.toNat = id) (hacc : ∀ m ∈ msgs, m.Accepted)
    (hne : ∀ c ∈ chunks, c.bytes ≠ [])
    (hstream : streamOf chunks =
      (if waits then [g.id] else []) ++ bytesSince g (sendAll g fd' msgs)) :
    (∃ h', Receives id fd h chunks h' ∧
      deliveredSince h h' = msgs.map (RemoteMsg.delivered h.id) ∧ (h'.s id).status ≠ .down) ↔
      ∀ m ∈ msgs, m.frameSize < 2 ^ 24 := by
  obtain ⟨h₀, l, hid, hcalls, hl, hspec⟩ := exists_runSpec hstart hne hpeer hstream
  rw [bytesSince_sendAll] at hspec
  constructor
  · rintro ⟨h', hr, hdelivered, hstatus⟩
    have hlen := congrArg List.length hdelivered
    rw [List.length_map] at hlen
    exact frameSize_lt_of_delivered hid hcalls hl hspec hacc hr hlen hstatus
  · intro hall
    have hframes : framesOf (msgs.map fun m => LinkItem.frame m.content) =
        msgs.map RemoteMsg.content := by
      rw [framesOf, List.filterMap_map]
      exact List.filterMap_eq_map (f := RemoteMsg.content) ▸ rfl
    rw [RunSpec, decode_wire hall] at hspec
    simp only [List.mem_map, reduceCtorEq, and_false, exists_false, if_false] at hspec
    obtain ⟨h₁, h', q, hr, hrecv, rfl⟩ := hspec
    refine ⟨h', hr, ?_, ?_⟩
    · rw [deliveredSince_of_quiet hid hcalls hl q, hframes, List.map_map]
      exact List.map_congr_left fun m _ => deliveredFrame_content h.id m
    · obtain ⟨hstatus, -⟩ | ⟨hstatus, -⟩ := hrecv <;> rw [hstatus] <;> decide

/-- One message of three bytes from the harbor `2`, in two chunks behind the handshake, over a link
that was made by `S`. -/
theorem wire_roundtrip_iff_bytes :
    ∃ h, harborCommand (harborInit 1 9) [0x53, 0x20, 0x37, 0x20, 0x32] 9 = .ok h ∧
      ∃ h', Receives 2 7 h
        [⟨1, [2, 0, 0, 0, 15, 10, 11]⟩, ⟨2, [12, 2, 0, 0, 5, 0, 0, 0, 6, 0, 0, 0, 7]⟩] h' ∧
        deliveredSince h h' = [⟨0x2000005, 0x1000006, 0x10000, 7, [10, 11, 12]⟩] ∧
        (h'.s 2).status ≠ .down := by
  obtain ⟨h, hcommand, hid, hstart⟩ : ∃ h,
      harborCommand (harborInit 1 9) [0x53, 0x20, 0x37, 0x20, 0x32] 9 = .ok h ∧
        h.id = 1 ∧ LinkStart h 2 7 true :=
    ⟨_, rfl, rfl, rfl, by decide, by decide, rfl, rfl, rfl⟩
  refine ⟨h, hcommand, ?_⟩
  have hstream : streamOf [⟨1, [2, 0, 0, 0, 15, 10, 11]⟩,
      ⟨2, [12, 2, 0, 0, 5, 0, 0, 0, 6, 0, 0, 0, 7]⟩] =
      (if true then [(harborInit 2 9).id] else []) ++ bytesSince (harborInit 2 9)
        (sendAll (harborInit 2 9) 5 [⟨0x2000005, 0x1000006, 0, 7, ⟨3, [10, 11, 12]⟩⟩]) := by
    decide
  have hiff := wire_roundtrip_iff hstart rfl (by decide) (by decide) hstream
  rw [hid] at hiff
  exact hiff.mpr (by decide)

/-- A message whose frame has `2 ^ 24` bytes is accepted by the sender and never delivered: the
receiver refuses its length and closes the link. -/
theorem wire_tooLong_lost :
    ∃ h, harborCommand (harborInit 1 9) [0x41, 0x20, 0x37, 0x20, 0x32] 9 = .ok h ∧
      LinkStart h 2 7 false ∧
      ∃ m : RemoteMsg, m.payload.bytes = List.replicate (2 ^ 24 - 12) 0 ∧ m.Accepted ∧
        ∀ chunks : List Buffer, (∀ c ∈ chunks, c.bytes ≠ []) →
          streamOf chunks = bytesSince (harborInit 2 9) (sendAll (harborInit 2 9) 5 [m]) →
          ¬∃ h', Receives 2 7 h chunks h' ∧ deliveredSince h h' = [m.delivered h.id] ∧
            (h'.s 2).status ≠ .down := by
  obtain ⟨h, hcommand, hstart⟩ : ∃ h,
      harborCommand (harborInit 1 9) [0x41, 0x20, 0x37, 0x20, 0x32] 9 = .ok h ∧
        LinkStart h 2 7 false :=
    ⟨_, rfl, rfl, by decide, by decide, rfl, rfl, rfl⟩
  obtain ⟨bytes, hbytes⟩ : ∃ bytes : List UInt8, bytes = List.replicate (2 ^ 24 - 12) 0 := ⟨_, rfl⟩
  have hsize : bytes.length + headerCookieLength = 2 ^ 24 := by
    rw [hbytes, List.length_replicate]
    rfl
  have hacc : bytes.length + headerCookieLength ≤ uint32Max := by
    rw [hsize]
    decide
  exact ⟨h, hcommand, hstart, ⟨0x2000005, 0x1000006, 0, 7, ⟨3, bytes⟩⟩, hbytes, hacc,
    fun chunks hne hstream => not_delivered_of_tooLong hstart rfl hacc hsize.ge hne hstream⟩

end RoundTrip

end Mtask.HarborService
