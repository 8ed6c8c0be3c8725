import Mtask.HarborService.Service

/-!
# What the functions of the harbor service do

One equation for each function that sends, queues or closes: which calls it makes, in which order,
and which slots and names it changes. The queues are lists of messages here.
-/

namespace Mtask.HarborService

open List

/-! ### Handles -/

theorem getLsbD_handleMask (i : ℕ) : handleMask.toBitVec.getLsbD i = decide (i < 24) := by
  have hmask : handleMask.toBitVec = BitVec.ofNat 32 (2 ^ 24 - 1) := rfl
  rw [hmask, BitVec.getLsbD_ofNat, Nat.testBit_two_pow_sub_one]
  by_cases hi : i < 24
  · have hi' : i < 32 := by omega
    simp [hi, hi']
  · simp [hi]

theorem handleRemoteShift_toNat : handleRemoteShift.toNat % 32 = 24 := rfl

theorem cookie_type (destination : UInt32) (type : UInt8) :
    (destination &&& handleMask ||| type.toUInt32 <<< handleRemoteShift) >>> handleRemoteShift =
      type.toUInt32 := by
  refine UInt32.eq_of_toBitVec_eq (BitVec.eq_of_getLsbD_eq fun i hi => ?_)
  have hmask : ¬24 + i < 24 := by omega
  simp only [UInt32.toBitVec_shiftRight, UInt32.toBitVec_or, UInt32.toBitVec_and]
  simp [handleRemoteShift_toNat, getLsbD_handleMask, hi, hmask]
  intro h
  have := BitVec.lt_of_getLsbD h
  omega

theorem cookie_handle (destination : UInt32) (type : UInt8) :
    (destination &&& handleMask ||| type.toUInt32 <<< handleRemoteShift) &&& handleMask =
      destination &&& handleMask := by
  refine UInt32.eq_of_toBitVec_eq (BitVec.eq_of_getLsbD_eq fun i hi => ?_)
  by_cases h : i < 24
  · simp [handleRemoteShift_toNat, hi, h]
  · simp [getLsbD_handleMask, h]

/-! ### Calls -/

/-- The messages of a queue that may not be there. -/
def queueList : Option HarborMsgQueue → List HarborMsg
  | none => []
  | some queue => queue.toList

/-- The call of `send_remote`. -/
def remoteCall (fd : ℤ) (buffer : Buffer) (cookie : RemoteMessageHeader) : Call :=
  let szHeader := buffer.bytes.length + headerCookieLength
  if szHeader > uint32Max then .error (.tooLarge cookie.source cookie.destination)
  else
    .socketSend fd (toBigendian szHeader.toUInt32 ++ buffer.bytes ++ headerToMessage cookie)
      (toInt (szHeader + 4))

/-- The calls for a message of a queue that is sent. -/
def queuedCalls (fd : ℤ) (m : HarborMsg) : List Call :=
  [remoteCall fd m.buffer m.header, .free m.buffer.addr]

/-- The state after a list of calls. -/
def Harbor.callAll (h : Harbor) (calls : List Call) : Harbor :=
  { h with calls := h.calls ++ calls }

variable (h : Harbor)

@[simp] theorem s_call (c : Call) : (h.call c).s = h.s := rfl

@[simp] theorem s_callAll (calls : List Call) : (h.callAll calls).s = h.s := rfl

@[simp] theorem map_callAll (calls : List Call) : (h.callAll calls).map = h.map := rfl

@[simp] theorem callAll_nil : h.callAll [] = h := by
  rw [Harbor.callAll, append_nil]

@[simp] theorem callAll_callAll (l l' : List Call) :
    (h.callAll l).callAll l' = h.callAll (l ++ l') := by
  rw [Harbor.callAll, Harbor.callAll, Harbor.callAll, append_assoc]

theorem call_eq_callAll (c : Call) : h.call c = h.callAll [c] := rfl

@[simp] theorem s_setSlave_self (id : ℕ) (slave : Slave) : (h.setSlave id slave).s id = slave := by
  simp only [Harbor.setSlave, Function.update_self]

theorem s_setSlave_of_ne {id j : ℕ} (hne : j ≠ id) (slave : Slave) :
    (h.setSlave id slave).s j = h.s j := by
  simp only [Harbor.setSlave, Function.update_of_ne hne]

@[simp] theorem setSlave_setSlave (id : ℕ) (slave slave' : Slave) :
    (h.setSlave id slave).setSlave id slave' = h.setSlave id slave' := by
  simp only [Harbor.setSlave, Function.update_idem]

theorem setSlave_callAll (id : ℕ) (slave : Slave) (calls : List Call) :
    (h.callAll calls).setSlave id slave = (h.setSlave id slave).callAll calls := rfl

/-! ### Queues -/

theorem sendRemote_eq (fd : ℤ) (buffer : Buffer) (cookie : RemoteMessageHeader) :
    sendRemote h fd buffer cookie = h.call (remoteCall fd buffer cookie) := by
  rw [sendRemote, remoteCall]
  split_ifs <;> rfl

theorem sendQueued_eq (fd : ℤ) (m : HarborMsg) :
    sendQueued fd h m = h.callAll (queuedCalls fd m) := by
  rw [sendQueued, sendRemote_eq, call_eq_callAll, call_eq_callAll, callAll_callAll]
  rfl

/-- A loop that makes some calls for every item of a list. -/
theorem foldl_callAll {α : Type*} {f : Harbor → α → Harbor} {calls : α → List Call}
    (hf : ∀ h m, f h m = h.callAll (calls m)) (l : List α) :
    l.foldl f h = h.callAll (l.flatMap calls) := by
  induction l generalizing h with
  | nil => exact (callAll_nil h).symm
  | cons m l ih => rw [foldl_cons, hf, ih, callAll_callAll, flatMap_cons]

theorem releaseQueue_eq (queue : Option HarborMsgQueue) :
    releaseQueue h queue = h.callAll ((queueList queue).map fun m => .free m.buffer.addr) := by
  rcases queue with _ | queue
  · exact (callAll_nil h).symm
  · rw [releaseQueue, popAll_eq, queueList, map_eq_flatMap]
    exact foldl_callAll h (fun h m => rfl) _

theorem releaseQueue_drained (queue : HarborMsgQueue) :
    releaseQueue h (some queue.drained) = h := by
  rw [releaseQueue_eq, queueList, toList_drained, map_nil, callAll_nil]

/-- `close_harbor` marks the slot as down, closes its socket and frees its queue. -/
theorem closeHarbor_eq (id : ℕ) :
    closeHarbor h id =
      (h.setSlave id { h.s id with status := .down, queue := none }).callAll
        ((if (h.s id).fd ≠ 0 then [.socketClose (h.s id).fd] else []) ++
          (queueList (h.s id).queue).map fun m => .free m.buffer.addr) := by
  rw [closeHarbor]
  simp only [releaseQueue_eq, call_eq_callAll, s_setSlave_self]
  split_ifs with hfd
  all_goals
    rcases hqueue : (h.s id).queue with _ | queue
    all_goals simp [setSlave_callAll, queueList]

/-- `dispatch_queue` sends the queue of a slot over its link, in order. -/
theorem dispatchQueue_eq {id : ℕ} (hfd : (h.s id).fd ≠ 0) :
    dispatchQueue h id = .ok ((h.setSlave id { h.s id with queue := none }).callAll
      ((queueList (h.s id).queue).flatMap (queuedCalls (h.s id).fd))) := by
  rw [dispatchQueue, if_neg hfd]
  rcases hqueue : (h.s id).queue with _ | queue
  · have hself : h.setSlave id { h.s id with queue := none } = h := by
      rw [← hqueue]
      simp only [Harbor.setSlave, Function.update_eq_self]
    simp only [queueList, flatMap_nil, callAll_nil, hself]
  · simp only [popAll_eq, foldl_callAll h (fun h m => sendQueued_eq h _ m), releaseQueue_drained,
      s_callAll, setSlave_callAll, queueList]

/-! ### Sending -/

section Sending

variable {source destination : UInt32} {type : UInt8} {session : Int32} {msg : Buffer} {j : ℕ}

theorem remoteSendHandle_of_local (hj : (destination >>> handleRemoteShift).toNat = h.id.toNat) :
    remoteSendHandle h source destination type session msg =
      (h.call (.mtaskSend
        { source, destination, type := type.toUInt32 ||| tagDontcopy, session, data := msg }),
        true) := by
  rw [remoteSendHandle, if_pos hj]

/-- A message for a harbor to which there is a link that is past its handshake. -/
theorem remoteSendHandle_of_open (hj : (destination >>> handleRemoteShift).toNat = j)
    (hid : j ≠ h.id.toNat) (hfd : (h.s j).fd ≠ 0) (hstatus : (h.s j).status ≠ .handshake) :
    remoteSendHandle h source destination type session msg =
      (h.call (remoteCall (h.s j).fd msg (cookieOf source destination type session)), false) := by
  rw [remoteSendHandle, hj, if_neg hid, if_neg (not_or.mpr ⟨hfd, hstatus⟩), sendRemote_eq]

/-- A message for a harbor to which there is no link, or one in its handshake. -/
theorem remoteSendHandle_of_waiting (hj : (destination >>> handleRemoteShift).toNat = j)
    (hid : j ≠ h.id.toNat) (hwait : (h.s j).fd = 0 ∨ (h.s j).status = .handshake)
    (hstatus : (h.s j).status ≠ .down) :
    remoteSendHandle h source destination type session msg =
      (h.setSlave j { h.s j with
        queue := some (pushQueue ((h.s j).queue.getD newQueue) msg
          (cookieOf source destination type session)) }, true) := by
  rw [remoteSendHandle, hj, if_neg hid, if_pos hwait, if_neg hstatus]

end Sending

theorem toList_push_getD (queue : Option HarborMsgQueue) (buffer : Buffer)
    (header : RemoteMessageHeader) :
    (pushQueue (queue.getD newQueue) buffer header).toList =
      queueList queue ++ [⟨header, buffer⟩] := by
  rcases queue with _ | queue
  · rw [Option.getD_none, toList_pushQueue, toList_newQueue]
    rfl
  · exact toList_pushQueue queue buffer header

end Mtask.HarborService
