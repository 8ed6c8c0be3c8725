import Mtask.HarborService.Slots
import Mtask.Lib.Transition

/-!
# Links that go down

What the service does with the messages for a harbor whose link has gone down. `remote_send_handle`
answers a message only in a slot that is down and has no socket; a slot that is down keeps the
number of its socket, and a socket that is closed leaves the slot as it is.
-/

namespace Mtask.HarborService

open Transition List

/-- The service, and the harbors whose socket was closed or had an error. -/
structure LinkState where
  h : Harbor
  lost : List ℕ

/-- The harbors whose links are lost with an input. -/
def lostBy (h : Harbor) : Input → List ℕ
  -- A slot without a link has the socket `0`.
  | .socketError fd | .socketClose fd =>
    if fd = 0 ∨ harborId h fd = 0 then [] else [harborId h fd]
  | _ => []

def linkStep (r : LinkState) (input : Input) : Except HarborFault LinkState :=
  match mainloop r.h input with
  | .error e => .error e
  | .ok h => .ok ⟨h, lostBy r.h input ++ r.lost⟩

def linkInit (id : UInt8) (slave : UInt32) : LinkState :=
  ⟨harborInit id slave, []⟩

/-- The link to the harbor `j` has gone down: `close_harbor` was called for it, or its socket was
closed or had an error. -/
def IsDown (r : LinkState) (j : ℕ) : Prop :=
  (r.h.s j).status = .down ∨ j ∈ r.lost

/-- From `h` to `h'`, a message for a harbor whose link is down is answered with one error in the
name of its destination, its payload is freed, and it is neither sent nor queued. -/
structure Answered (j : ℕ) (source : UInt32) (rmsg : RemoteMessage) (h h' : Harbor) : Prop where
  calls : ∃ l, h'.calls = h.calls ++ l ∧ .free rmsg.message.addr ∈ l ∧
    (l.filterMap Call.answer).map (fun reply => (reply.source, reply.destination)) =
      [(rmsg.handle, source)] ∧ ∀ fd buffer sz, .socketSend fd buffer sz ∉ l
  queue : queueList (h'.s j).queue = queueList (h.s j).queue

/-! ### The run -/

theorem fd_harborId {h : Harbor} {fd : ℤ} (hid : harborId h fd ≠ 0) :
    (h.s (harborId h fd)).fd = fd := by
  rw [harborId] at hid ⊢
  rcases hfind : (List.range' 1 (remoteMax - 1)).find? fun i => (h.s i).fd = fd with _ | i
  · rw [hfind] at hid
    exact absurd rfl hid
  · have hi := find?_some hfind
    exact of_decide_eq_true hi

/-- What holds in a run: a link that was lost has its socket in the slot, and answers are sent only
in the name of the handles of this harbor. -/
structure LinkInv (id : UInt8) (r : LinkState) : Prop where
  slots : SlotsInv r.h
  id_eq : r.h.id = id
  lost : ∀ j ∈ r.lost, (r.h.s j).fd ≠ 0
  calls : ∀ c ∈ r.h.calls, c.AnswersAs id

variable {id : UInt8} {slave : UInt32} {r r' : LinkState} {input : Input} {j : ℕ}

theorem LinkInv.init : LinkInv id (linkInit id slave) :=
  ⟨slotsInv_init id slave, rfl, by simp [linkInit], by simp [linkInit, harborInit]⟩

theorem keeps_of_linkStep (hinv : LinkInv id r) (hin : Delivers input)
    (hstep : linkStep r input = .ok r') :
    Keeps r.h r'.h ∧ r'.lost = lostBy r.h input ++ r.lost := by
  rw [linkStep] at hstep
  rcases hmain : mainloop r.h input with e | h
  · rw [hmain] at hstep
    simp at hstep
  · rw [hmain, Except.ok.injEq] at hstep
    subst hstep
    exact ⟨Keeps.mainloop hinv.slots hin hmain, rfl⟩

theorem LinkInv.step (hinv : LinkInv id r) (hin : Delivers input)
    (hstep : linkStep r input = .ok r') : LinkInv id r' := by
  obtain ⟨k, hlost⟩ := keeps_of_linkStep hinv hin hstep
  obtain ⟨l, hl, hanswers⟩ := k.calls
  refine ⟨k.slots, k.id_eq.trans hinv.id_eq, fun j hj => ?_, fun c hc => ?_⟩
  · have hfd : (r.h.s j).fd ≠ 0 := by
      rw [hlost] at hj
      obtain hj | hj := mem_append.mp hj
      · have hlostBy : ∀ fd : ℤ, j ∈ (if fd = 0 ∨ harborId r.h fd = 0 then [] else
            [harborId r.h fd]) → (r.h.s j).fd ≠ 0 := by
          intro fd hj
          split_ifs at hj with h
          · simp at hj
          · obtain ⟨hfd, hid⟩ := not_or.mp h
            rwa [mem_singleton.mp hj, fd_harborId hid]
        rcases input with _ | fd | fd | _ | _ | _ | _ | _
        all_goals first
          | exact hlostBy fd hj
          | simp [lostBy] at hj
      · exact hinv.lost j hj
    rwa [k.fd j hfd]
  · rw [hl] at hc
    obtain hc | hc := mem_append.mp hc
    · exact hinv.calls c hc
    · exact hinv.id_eq ▸ hanswers c hc

theorem linkInv_reaches (hinv : LinkInv id r) (hrun : Reaches linkStep (fun _ => Delivers) r r') :
    LinkInv id r' :=
  hrun.invariant hinv fun _ _ _ hinv hin hstep => hinv.step hin hstep

/-- A link that is down stays down, and its slot keeps the socket. -/
theorem isDown_reaches (hinv : LinkInv id r) (hdown : IsDown r j)
    (hrun : Reaches linkStep (fun _ => Delivers) r r') :
    IsDown r' j ∧ (r'.h.s j).fd = (r.h.s j).fd := by
  have hfd : ∀ {u}, LinkInv id u → IsDown u j → (u.h.s j).fd ≠ 0 := fun hu hdown =>
    hdown.elim (fun h => (hu.slots j).fd_ne_zero (by rw [h]; decide)) (hu.lost j)
  induction hrun with
  | refl => exact ⟨hdown, rfl⟩
  | tail hrun hin hstep ih =>
    have hu := linkInv_reaches hinv hrun
    obtain ⟨k, hlost⟩ := keeps_of_linkStep hu hin hstep
    refine ⟨ih.1.imp (k.down j) fun h => ?_, (k.fd j (hfd hu ih.1)).trans ih.2⟩
    rw [hlost]
    exact mem_append_right _ h

theorem IsDown.fd_ne_zero (hdown : IsDown r j) (hinv : LinkInv id r) : (r.h.s j).fd ≠ 0 :=
  hdown.elim (fun h => (hinv.slots j).fd_ne_zero (by rw [h]; decide)) (hinv.lost j)

/-! ### Messages for a harbor whose link is down -/

section Message

variable {h h' : Harbor} {source : UInt32} {type : UInt8} {session : Int32} {rmsg : RemoteMessage}

theorem not_answered {l : List Call} (hcalls : h'.calls = h.calls ++ l)
    (hl : ∀ c ∈ l, c.answer = none) : ¬Answered j source rmsg h h' := by
  rintro ⟨⟨l', hl', -, hreplies, -⟩, -⟩
  have heq : l = l' := append_cancel_left (hcalls.symm.trans hl')
  rw [← heq, filterMap_eq_nil_iff.mpr hl] at hreplies
  simp at hreplies

/-- A message for a slot that has a socket is never answered. -/
theorem remote_not_answered (hfd : (h.s j).fd ≠ 0) (hhandle : rmsg.handle ≠ 0)
    (hj : (rmsg.handle >>> handleRemoteShift).toNat = j) :
    ∃ h', mainloop h (.remote source type session rmsg) = .ok h' ∧
      ¬Answered j source rmsg h h' ∧
      (j = h.id.toNat ∨
        h'.calls = h.calls ++ [remoteCall (h.s j).fd rmsg.message
          (cookieOf source rmsg.handle type session), .free rmsg.message.addr] ∨
        queueList (h'.s j).queue = queueList (h.s j).queue ++
          [⟨cookieOf source rmsg.handle type session, rmsg.message⟩]) := by
  rw [mainloop, if_neg hhandle]
  refine ⟨_, rfl, ?_⟩
  by_cases hid : j = h.id.toNat
  · rw [remoteSendHandle_of_local h (hj.trans hid)]
    refine ⟨not_answered rfl fun c hc => ?_, Or.inl hid⟩
    rw [mem_singleton.mp hc]
    exact if_neg (Keeps.type_or_tag_ne type)
  by_cases hstatus : (h.s j).status = .handshake
  · rw [remoteSendHandle_of_waiting h hj hid (Or.inr hstatus) (by rw [hstatus]; decide)]
    refine ⟨not_answered (append_nil _).symm (by simp), Or.inr (Or.inr ?_)⟩
    rw [freeUnless, s_setSlave_self]
    exact toList_push_getD _ _ _
  · rw [remoteSendHandle_of_open h hj hid hfd hstatus]
    have hcalls : (freeUnless rmsg.message.addr (h.call (remoteCall (h.s j).fd rmsg.message
        (cookieOf source rmsg.handle type session)), false)).calls =
        h.calls ++ [remoteCall (h.s j).fd rmsg.message (cookieOf source rmsg.handle type session),
          .free rmsg.message.addr] :=
      append_assoc _ _ _
    exact ⟨not_answered hcalls fun c => Keeps.answer_queuedCalls (m := ⟨_, rmsg.message⟩),
      Or.inr (Or.inl hcalls)⟩

end Message

/-- **No message for a harbor whose link is down is answered.** In every run, after the link to `j`
has gone down: nobody has been sent an error in the name of a handle of `j`, neither for a message
that was queued when the link went down nor for a later one; and every message for a handle of `j`
is written to the old socket or queued. -/
theorem down_never_answered
    (hrun : Reaches linkStep (fun _ => Delivers) (linkInit id slave) r) (hdown : IsDown r j)
    (hrun' : Reaches linkStep (fun _ => Delivers) r r') :
    (j ≠ id.toNat → ∀ c ∈ r'.h.calls, ∀ reply, c.answer = some reply →
      (reply.source >>> handleRemoteShift).toNat ≠ j) ∧
    ∀ source type session (rmsg : RemoteMessage), rmsg.handle ≠ 0 →
      (rmsg.handle >>> handleRemoteShift).toNat = j →
      ∃ h', mainloop r'.h (.remote source type session rmsg) = .ok h' ∧
        ¬Answered j source rmsg r'.h h' ∧
        (j = id.toNat ∨
          h'.calls = r'.h.calls ++ [remoteCall (r.h.s j).fd rmsg.message
            (cookieOf source rmsg.handle type session), .free rmsg.message.addr] ∨
          queueList (h'.s j).queue = queueList (r'.h.s j).queue ++
            [⟨cookieOf source rmsg.handle type session, rmsg.message⟩]) := by
  have hinv := linkInv_reaches LinkInv.init hrun
  have hinv' := linkInv_reaches hinv hrun'
  obtain ⟨hdown', hfd⟩ := isDown_reaches hinv hdown hrun'
  refine ⟨fun hid c hc reply hreply => ?_, fun source type session rmsg hhandle hj => ?_⟩
  · rw [hinv'.calls c hc reply hreply, UInt8.toNat_toUInt32]
    exact hid.symm
  · rw [← hfd, ← hinv'.id_eq]
    exact remote_not_answered (hdown'.fd_ne_zero hinv') hhandle hj

section Example

/-- A link to harbor 2 that is made by `S`, a message that waits for its handshake, and the byte of
harbor 3. -/
private def refusedLink : List Input :=
  [.command [0x53, 0x20, 0x37, 0x20, 0x32] 9,
    .remote 0x01000003 0 0 ⟨0x02000005, padName [], ⟨100, [1]⟩⟩,
    .socketData ⟨7, 1, ⟨101, [3]⟩⟩]

/-- The message that waited is freed, the next one is written to the closed socket, and nobody is
answered. -/
theorem refusedLink_unanswered :
    ∃ r h', Reaches linkStep (fun _ => Delivers) (linkInit 1 9) r ∧ IsDown r 2 ∧
      r.h.calls = [.socketStart 7, .socketSend 7 [1] 1, .error (.invalidShakehand 2 7 3),
        .socketClose 7, .free 100, .free 101] ∧
      mainloop r.h (.remote 0x01000004 0 0 ⟨0x02000005, padName [], ⟨102, [2]⟩⟩) = .ok h' ∧
      h'.calls = r.h.calls ++
        [.socketSend 7 [0, 0, 0, 13, 2, 1, 0, 0, 4, 0, 0, 0, 5, 0, 0, 0, 0] 17, .free 102] ∧
      ¬Answered 2 0x01000004 ⟨0x02000005, padName [], ⟨102, [2]⟩⟩ r.h h' := by
  have hdelivers : ∀ input ∈ refusedLink, ∀ _ : LinkState, Delivers input := by
    simp [refusedLink, Delivers]
  obtain ⟨r, hexec, hdown, hcalls, h', hmain, hcalls'⟩ :
      ∃ r, exec linkStep (linkInit 1 9) refusedLink = .ok r ∧ IsDown r 2 ∧
        r.h.calls = [.socketStart 7, .socketSend 7 [1] 1, .error (.invalidShakehand 2 7 3),
          .socketClose 7, .free 100, .free 101] ∧
        ∃ h', mainloop r.h (.remote 0x01000004 0 0 ⟨0x02000005, padName [], ⟨102, [2]⟩⟩) = .ok h' ∧
          h'.calls = r.h.calls ++
            [.socketSend 7 [0, 0, 0, 13, 2, 1, 0, 0, 4, 0, 0, 0, 5, 0, 0, 0, 0] 17, .free 102] :=
    ⟨_, rfl, Or.inl rfl, rfl, _, rfl, rfl⟩
  exact ⟨r, h', reaches_of_exec hexec hdelivers, hdown, hcalls, hmain, hcalls',
    not_answered hcalls' (by simp [Call.answer])⟩

/-- A link that is made by `A`, whose socket is closed. -/
theorem down_never_answered_closed :
    ∃ r, IsDown r 2 ∧ ∃ h', mainloop r.h (.remote 0x01000004 0 0
      ⟨0x02000005, padName [], ⟨102, [2]⟩⟩) = .ok h' ∧
        ¬Answered 2 0x01000004 ⟨0x02000005, padName [], ⟨102, [2]⟩⟩ r.h h' := by
  obtain ⟨r, hexec, hdown⟩ : ∃ r, exec linkStep (linkInit 1 9)
      [.command [0x41, 0x20, 0x37, 0x20, 0x32] 9, .socketClose 7] = .ok r ∧ IsDown r 2 :=
    ⟨_, rfl, Or.inr (by decide)⟩
  have hrun : Reaches linkStep (fun _ => Delivers) (linkInit 1 9) r :=
    reaches_of_exec hexec (by simp [Delivers])
  obtain ⟨h', hmain, hnot, -⟩ := (down_never_answered hrun hdown .refl).2 0x01000004 0 0
    ⟨0x02000005, padName [], ⟨102, [2]⟩⟩ (by decide) rfl
  exact ⟨r, hdown, h', hmain, hnot⟩

end Example

end Mtask.HarborService
