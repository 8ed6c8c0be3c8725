import Mtask.HarborService.Receive

/-!
# The chunks of a link

A peer sends a stream over a link, behind one byte of handshake if this side has connected, and the
socket thread delivers it in chunks that are not empty. Here `push_socket_data` is run over the
chunks of one link, from the moment at which the link is made.
-/

namespace Mtask.HarborService

open List

/-- The run of `push_socket_data` over the chunks of the socket `fd` of the slot `id`. No access is
out of range, and each time the loop ends having consumed the chunk or closed the link. -/
def Receives (id : ℕ) (fd : ℤ) : Harbor → List Buffer → Harbor → Prop
  | h, [], h' => h' = h
  | h, c :: chunks, h' =>
    ∃ h₁ size, pushSocketData h ⟨fd, c.bytes.length, c⟩ = .ok (h₁, size) ∧
      (size = 0 ∨ (h₁.s id).status = .down) ∧ Receives id fd h₁ chunks h'

/-- The run over the chunks that follow a chunk with the result `r`. -/
def ReceivesFrom (id : ℕ) (fd : ℤ) (r : Except HarborFault (Harbor × ℤ)) (chunks : List Buffer)
    (h' : Harbor) : Prop :=
  ∃ h₁ size, r = .ok (h₁, size) ∧ (size = 0 ∨ (h₁.s id).status = .down) ∧
    Receives id fd h₁ chunks h'

/-- The bytes of some chunks. -/
def streamOf (chunks : List Buffer) : List UInt8 :=
  chunks.flatMap Buffer.bytes

/-- The slot `id` has just got the socket `fd`, by the command `S` if it waits for the handshake,
else by `A`. -/
structure LinkStart (h : Harbor) (id : ℕ) (fd : ℤ) (waits : Bool) : Prop where
  link : harborId h fd = id
  id_ne : id ≠ 0
  fd_ne : (h.s id).fd ≠ 0
  status : (h.s id).status = if waits then .handshake else .header
  read : (h.s id).read = 0
  size : (h.s id).size.length = 4

/-- The stream completes no frame that is shorter than its cookie, unless the link was closed
before. -/
def FramesFit (stream : List UInt8) : Prop :=
  .short ∉ (frameCutter.decode stream).1

/-- What a peer may send so that no frame is too short: behind the right byte of the handshake, if
there is one, frames that fit. -/
def WellFramed (id : ℕ) (waits : Bool) (stream : List UInt8) : Prop :=
  if waits then ∀ b rest, stream = b :: rest → b.toNat = id → FramesFit rest
  else FramesFit stream

/-! ### Closed links -/

theorem harborId_congr {h h' : Harbor} (hfd : ∀ j, (h'.s j).fd = (h.s j).fd) (fd : ℤ) :
    harborId h' fd = harborId h fd := by
  simp only [harborId, hfd]

theorem Quiet.fd_eq {id : ℕ} {h h' : Harbor} {frames : List (List UInt8)}
    (q : Quiet id h h' frames) (j : ℕ) : (h'.s j).fd = (h.s j).fd := by
  by_cases hj : j = id
  · rw [hj, q.fd]
  · rw [q.others j hj]

theorem closeHarbor_fd (h : Harbor) (id j : ℕ) : ((closeHarbor h id).s j).fd = (h.s j).fd := by
  rw [closeHarbor_eq, s_callAll]
  by_cases hj : j = id
  · rw [hj, s_setSlave_self]
  · rw [s_setSlave_of_ne _ hj]

theorem closeHarbor_status (h : Harbor) (id : ℕ) : ((closeHarbor h id).s id).status = .down := by
  rw [closeHarbor_eq, s_callAll, s_setSlave_self]

section Run

variable {id : ℕ} {fd : ℤ} {h h' h'' : Harbor} {chunks : List Buffer}

theorem pushSocketData_eq (hlink : harborId h fd = id) (hid : id ≠ 0) (c : Buffer) :
    pushSocketData h ⟨fd, c.bytes.length, c⟩ =
      socketDataLoop id fd (c.bytes.length + 1) h c.bytes c.bytes.length := by
  rw [pushSocketData, hlink, if_neg hid]

theorem receives_of_down (hlink : harborId h fd = id) (hid : id ≠ 0)
    (hdown : (h.s id).status = .down) : Receives id fd h chunks h := by
  induction chunks with
  | nil => rfl
  | cons c chunks ih =>
    refine ⟨h, c.bytes.length, ?_, Or.inr hdown, ih⟩
    rw [pushSocketData_eq hlink hid, socketDataLoop, statusCase, hdown]

theorem Receives.unique (hr : Receives id fd h chunks h') (hr' : Receives id fd h chunks h'') :
    h' = h'' := by
  induction chunks generalizing h with
  | nil => exact hr.trans hr'.symm
  | cons c chunks ih =>
    obtain ⟨h₁, size, heq, -, hr⟩ := hr
    obtain ⟨h₂, size', heq', -, hr'⟩ := hr'
    rw [heq, Except.ok.injEq, Prod.mk.injEq] at heq'
    exact ih hr (heq'.1 ▸ hr')

/-! ### The run is the decoding of the stream -/

/-- What a run over a stream that is decoded to `d` does. -/
def RunSpec (id : ℕ) (h : Harbor) (run : Harbor → Prop)
    (d : List LinkItem × Option (List UInt8)) : Prop :=
  if .short ∈ d.1 then ∀ h', ¬run h'
  else ∃ h₁ h', Quiet id h h₁ (framesOf d.1) ∧ run h' ∧
    if .tooLong ∈ d.1 then h' = closeHarbor (h₁.call (.error (.messageTooLong id))) id
    else Receiving (h'.s id) (d.2.getD []) ∧ h' = h₁

variable {p : List UInt8}

theorem decode_of_receiving {s : Slave} (h : Receiving s p) : frameCutter.decode p = ([], some p) :=
  frameCutter.decode_of_none (cutFrame_of_receiving h)

theorem framesOf_append (l l' : List LinkItem) : framesOf (l ++ l') = framesOf l ++ framesOf l' :=
  filterMap_append

theorem runSpec_resume {buf : List UInt8} {r : Except HarborFault (Harbor × ℤ)}
    (hlink : harborId h fd = id) (hid : id ≠ 0)
    (hloop : LoopSpec id h (frameCutter.decode buf) r)
    (hrest : ∀ h₁ kept, harborId h₁ fd = id → Receiving (h₁.s id) kept →
      RunSpec id h₁ (Receives id fd h₁ chunks) (frameCutter.decode (kept ++ streamOf chunks))) :
    RunSpec id h (ReceivesFrom id fd r chunks) (frameCutter.decode (buf ++ streamOf chunks)) := by
  rw [frameCutter.decode_append]
  rw [LoopSpec] at hloop
  by_cases hshort : LinkItem.short ∈ (frameCutter.decode buf).1
  · -- The chunk completes a short frame.
    have hfinal := frameCutter.decode_snd_of_final hshort rfl
    rw [if_pos hshort] at hloop
    rw [frameCutter.resume_of_none hfinal, RunSpec, if_pos hshort]
    rintro h' ⟨h₁, size, heq, -⟩
    rw [hloop] at heq
    simp at heq
  · rw [if_neg hshort] at hloop
    obtain ⟨h₁, q, hloop⟩ := hloop
    by_cases htooLong : LinkItem.tooLong ∈ (frameCutter.decode buf).1
    · -- The chunk closes the link, and the others are ignored.
      have hfinal := frameCutter.decode_snd_of_final htooLong rfl
      have hdown := closeHarbor_status (h₁.call (.error (.messageTooLong id))) id
      rw [if_pos htooLong] at hloop
      obtain ⟨size, heq⟩ := hloop
      rw [frameCutter.resume_of_none hfinal, RunSpec, if_neg hshort]
      refine ⟨h₁, _, q, ⟨_, size, heq, Or.inr hdown, receives_of_down ?_ hid hdown⟩, ?_⟩
      · refine (harborId_congr (fun j => ?_) fd).trans hlink
        rw [closeHarbor_fd]
        exact q.fd_eq j
      · rw [if_pos htooLong]
    · rw [if_neg htooLong] at hloop
      obtain ⟨kept, hkept, hrecv₁, heq⟩ := hloop
      have hrun := hrest h₁ kept ((harborId_congr q.fd_eq fd).trans hlink) hrecv₁
      rw [frameCutter.resume_of_some hkept, RunSpec]
      rw [RunSpec] at hrun
      simp only [mem_append, hshort, htooLong, false_or]
      by_cases hshort' : LinkItem.short ∈ (frameCutter.decode (kept ++ streamOf chunks)).1
      · rw [if_pos hshort'] at hrun
        rw [if_pos hshort']
        rintro h' ⟨h₂, size, heq', -, hr⟩
        rw [heq, Except.ok.injEq, Prod.mk.injEq] at heq'
        exact hrun h' (heq'.1 ▸ hr)
      · rw [if_neg hshort'] at hrun
        obtain ⟨h₂, h', q', hr, hrun⟩ := hrun
        rw [if_neg hshort', framesOf_append]
        exact ⟨h₂, h', q.trans q', ⟨h₁, 0, heq, Or.inl rfl, hr⟩, hrun⟩

/-- **The run over the chunks decodes their stream**, from what the slot has kept. -/
theorem receives_of_receiving (hlink : harborId h fd = id) (hid : id ≠ 0)
    (hrecv : Receiving (h.s id) p) (hne : ∀ c ∈ chunks, c.bytes ≠ []) :
    RunSpec id h (Receives id fd h chunks) (frameCutter.decode (p ++ streamOf chunks)) := by
  induction chunks generalizing h p with
  | nil =>
    rw [streamOf, flatMap_nil, append_nil, decode_of_receiving hrecv]
    exact ⟨h, h, Quiet.refl id h, rfl, hrecv, rfl⟩
  | cons c chunks ih =>
    have hloop : LoopSpec id h _ (socketDataLoop id fd _ h c.bytes c.bytes.length) :=
      socketDataLoop_spec hrecv (Or.inl (hne c mem_cons_self)) (Nat.lt_succ_self _)
    rw [← pushSocketData_eq hlink hid] at hloop
    rw [streamOf, flatMap_cons, ← append_assoc]
    exact runSpec_resume hlink hid hloop fun h₁ kept hlink₁ hrecv₁ =>
      ih hlink₁ hrecv₁ fun c' hc' => hne c' (mem_cons_of_mem c hc')

/-! ### The handshake -/

/-- The harbor when the handshake of a link is done: the queue of the slot is sent. -/
def opened (h : Harbor) (id : ℕ) : Harbor :=
  (h.setSlave id { h.s id with status := .header, queue := none }).callAll
    ((queueList (h.s id).queue).flatMap (queuedCalls (h.s id).fd))

theorem opened_s_self (h : Harbor) (id : ℕ) :
    (opened h id).s id = { h.s id with status := .header, queue := none } := by
  rw [opened, s_callAll, s_setSlave_self]

theorem opened_fd (h : Harbor) (id j : ℕ) : ((opened h id).s j).fd = (h.s j).fd := by
  by_cases hj : j = id
  · rw [hj, opened_s_self]
  · rw [opened, s_callAll, s_setSlave_of_ne _ hj]

variable {rest : List UInt8} {b : UInt8}

/-- The byte of another harbor closes the link. -/
theorem socketDataLoop_refuse {n : ℕ} {size : ℤ} (hstatus : (h.s id).status = .handshake)
    (hb : b.toNat ≠ id) :
    socketDataLoop id fd (n + 1) h (b :: rest) size =
      .ok (closeHarbor (h.call (.error (.invalidShakehand id fd b))) id, size) := by
  rw [socketDataLoop, statusCase, hstatus, handshakeCase, if_pos hb]

/-- The byte of the harbor of the slot: the loop goes on with what is behind it. -/
theorem socketDataLoop_accept {n : ℕ} (hstatus : (h.s id).status = .handshake)
    (hfd : (h.s id).fd ≠ 0) (hb : b.toNat = id) (hn : rest.length < n) :
    ∃ m, rest.length < m ∧ socketDataLoop id fd (n + 1) h (b :: rest) (b :: rest).length =
      socketDataLoop id fd m (opened h id) rest rest.length := by
  have hdispatch : dispatchQueue (h.setSlave id { h.s id with status := .header }) id =
      .ok (opened h id) := by
    rw [dispatchQueue_eq _ (by rw [s_setSlave_self]; exact hfd), s_setSlave_self,
      setSlave_setSlave]
    rfl
  have hsize : ((b :: rest).length : ℤ) - 1 = rest.length := by
    rw [length_cons]
    omega
  by_cases hrest : (rest.length : ℤ) = 0
  · refine ⟨n, hn, ?_⟩
    rw [socketDataLoop, statusCase, hstatus, handshakeCase, if_neg (not_not.mpr hb)]
    simp only [hdispatch, hsize, if_pos hrest]
  · refine ⟨n + 1, by omega, ?_⟩
    rw [socketDataLoop, statusCase, hstatus, handshakeCase, if_neg (not_not.mpr hb), socketDataLoop,
      statusCase, opened_s_self]
    simp only [hdispatch, hsize, if_neg hrest]

/-- The run over the chunks of a link that waits for the handshake, from the right byte on. -/
theorem receives_of_handshake {c : Buffer} (hstart : LinkStart h id fd true)
    (hne : ∀ c' ∈ c :: chunks, c'.bytes ≠ []) (hc : c.bytes = b :: rest) (hb : b.toNat = id) :
    RunSpec id (opened h id) (Receives id fd h (c :: chunks))
      (frameCutter.decode (rest ++ streamOf chunks)) := by
  have hlink : harborId (opened h id) fd = id :=
    (harborId_congr (opened_fd h id) fd).trans hstart.link
  have hrecv : Receiving ((opened h id).s id) [] := by
    rw [opened_s_self]
    exact .header rfl hstart.size hstart.read (by decide) rfl
  have hpush := pushSocketData_eq hstart.link hstart.id_ne c
  obtain ⟨m, hm, hloop⟩ := socketDataLoop_accept (n := c.bytes.length) hstart.status hstart.fd_ne hb
    (by rw [hc]; exact Nat.lt_succ_self _)
  rw [← hc] at hloop
  have hspec : LoopSpec id (opened h id) (frameCutter.decode rest)
      (pushSocketData h ⟨fd, c.bytes.length, c⟩) := by
    rw [hpush, hloop]
    exact socketDataLoop_spec hrecv (Or.inr (by decide)) hm
  exact runSpec_resume hlink hstart.id_ne hspec fun h₁ kept hlink₁ hrecv₁ =>
    receives_of_receiving hlink₁ hstart.id_ne hrecv₁ fun c' hc' =>
      hne c' (mem_cons_of_mem c hc')

/-! ### Robustness -/

theorem RunSpec.exists_iff {run : Harbor → Prop} {stream : List UInt8}
    (hspec : RunSpec id h run (frameCutter.decode stream)) : (∃ h', run h') ↔ FramesFit stream := by
  rw [RunSpec] at hspec
  rw [FramesFit]
  by_cases hshort : LinkItem.short ∈ (frameCutter.decode stream).1
  · rw [if_pos hshort] at hspec
    exact iff_of_false (fun ⟨h', hr⟩ => hspec h' hr) (not_not.mpr hshort)
  · rw [if_neg hshort] at hspec
    obtain ⟨_, h', _, hr, -⟩ := hspec
    exact iff_of_true ⟨h', hr⟩ hshort

/-- **The receiver is robust exactly for frames that are long enough.** From the moment at which a
link is made, and however its stream is cut into chunks: no access to the chunk, to the bytes of
the length or to the receive buffer is out of range, no payload has a negative size and no cookie
begins before its buffer, and every call of `push_socket_data` ends having consumed its chunk or
closed the link, if and only if no frame that the stream completes is shorter than its cookie. -/
theorem receives_iff_wellFramed {waits : Bool} (hstart : LinkStart h id fd waits)
    (hne : ∀ c ∈ chunks, c.bytes ≠ []) :
    (∃ h', Receives id fd h chunks h') ↔ WellFramed id waits (streamOf chunks) := by
  rcases waits with _ | _
  · have hrecv : Receiving (h.s id) [] := .header hstart.status hstart.size hstart.read
      (by decide) rfl
    exact (receives_of_receiving hstart.link hstart.id_ne hrecv hne).exists_iff
  · rw [WellFramed, if_pos rfl]
    rcases chunks with _ | ⟨c, chunks⟩
    · exact iff_of_true ⟨h, rfl⟩ fun b rest h => by simp [streamOf] at h
    obtain ⟨b, rest, hc⟩ := List.exists_cons_of_ne_nil (hne c List.mem_cons_self)
    have hstream : streamOf (c :: chunks) = b :: (rest ++ streamOf chunks) := by
      rw [streamOf, List.flatMap_cons, hc]
      rfl
    have hfit : (∀ b' rest', streamOf (c :: chunks) = b' :: rest' → b'.toNat = id →
        FramesFit rest') ↔ (b.toNat = id → FramesFit (rest ++ streamOf chunks)) := by
      rw [hstream]
      refine ⟨fun h => h b _ rfl, fun h b' rest' heq => ?_⟩
      obtain ⟨rfl, rfl⟩ := List.cons.inj heq
      exact h
    rw [hfit]
    by_cases hb : b.toNat = id
    · rw [(receives_of_handshake hstart hne hc hb).exists_iff]
      exact ⟨fun h _ => h, fun h => h hb⟩
    · have hdown := closeHarbor_status (h.call (.error (.invalidShakehand id fd b))) id
      have heq : pushSocketData h ⟨fd, c.bytes.length, c⟩ =
          .ok (closeHarbor (h.call (.error (.invalidShakehand id fd b))) id, c.bytes.length) := by
        rw [pushSocketData_eq hstart.link hstart.id_ne, hc]
        exact socketDataLoop_refuse hstart.status hb
      refine iff_of_true ⟨_, _, _, heq, Or.inr hdown, receives_of_down ?_ hstart.id_ne hdown⟩
        fun h => absurd h hb
      · refine (harborId_congr (fun j => ?_) fd).trans hstart.link
        rw [closeHarbor_fd]
        rfl

end Run

/-- A frame of the twelve bytes of its cookie, in two chunks, over a link that was made by `A`. -/
theorem receives_iff_wellFramed_cookie :
    ∃ h, harborCommand (harborInit 1 9) [0x41, 0x20, 0x37, 0x20, 0x32] 9 = .ok h ∧
      ∃ h', Receives 2 7 h
        [⟨1, [0, 0, 0, 12, 0, 0]⟩, ⟨2, [0, 1, 0, 0, 0, 2, 0, 0, 0, 3]⟩] h' := by
  obtain ⟨h, hcommand, hstart⟩ : ∃ h,
      harborCommand (harborInit 1 9) [0x41, 0x20, 0x37, 0x20, 0x32] 9 = .ok h ∧
        LinkStart h 2 7 false :=
    ⟨_, rfl, rfl, by decide, by decide, rfl, rfl, rfl⟩
  refine ⟨h, hcommand, (receives_iff_wellFramed hstart (by decide)).mpr ?_⟩
  have hcut : frameCutter.cut [0, 0, 0, 12, 0, 0, 0, 1, 0, 0, 0, 2, 0, 0, 0, 3] =
      some (.frame [0, 0, 0, 1, 0, 0, 0, 2, 0, 0, 0, 3], []) := rfl
  have hnil : frameCutter.cut [] = none := rfl
  change FramesFit [0, 0, 0, 12, 0, 0, 0, 1, 0, 0, 0, 2, 0, 0, 0, 3]
  rw [FramesFit, frameCutter.decode_of_some hcut rfl, frameCutter.decode_of_none hnil]
  decide

/-- A frame of four bytes: the cookie would begin eight bytes before the receive buffer. -/
theorem pushSocketData_cookie_below :
    ∃ h, harborCommand (harborInit 1 9) [0x41, 0x20, 0x37, 0x20, 0x32] 9 = .ok h ∧
      LinkStart h 2 7 false ∧
      pushSocketData h ⟨7, 8, ⟨1, [0, 0, 0, 4, 1, 2, 3, 4]⟩⟩ = .error .cookieBelowBuffer :=
  ⟨_, rfl, ⟨rfl, by decide, by decide, rfl, rfl, rfl⟩, rfl⟩

end Mtask.HarborService
