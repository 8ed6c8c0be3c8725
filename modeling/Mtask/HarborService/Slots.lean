import Mtask.HarborService.LinkRun

/-!
# The slots in a run of the harbor service

A slot waits for a link, for a handshake or for data, or its link is closed. In a run of the whole
service only a queue of a slot that waits for its link or for its handshake is filled, and a slot
that has got a socket keeps it.
-/

namespace Mtask.HarborService

open List

/-- What a slot looks like in a run. -/
structure SlotInv (s : Slave) : Prop where
  linked : s.fd = 0 ↔ s.status = .wait
  fresh : s.status = .wait ∨ s.status = .handshake → s.read = 0 ∧ s.size.length = 4
  receiving : s.status = .header ∨ s.status = .content → ∃ p, Receiving s p
  queue : s.status = .header ∨ s.status = .content ∨ s.status = .down → s.queue = none

/-- The slots of the service are well formed. -/
def SlotsInv (h : Harbor) : Prop :=
  ∀ j, SlotInv (h.s j)

variable {p : List UInt8}

namespace SlotInv

variable {s : Slave}

theorem zero : SlotInv .zero where
  linked := iff_of_true rfl rfl
  fresh _ := ⟨rfl, rfl⟩
  receiving h := by simp [Slave.zero] at h
  queue h := by simp [Slave.zero] at h

theorem setQueue (hs : SlotInv s) (hwait : s.status = .wait ∨ s.status = .handshake)
    (queue : Option HarborMsgQueue) : SlotInv { s with queue } where
  linked := hs.linked
  fresh := hs.fresh
  receiving h := by
    have h' : s.status = .header ∨ s.status = .content := h
    rcases hwait with hwait | hwait <;> simp [hwait] at h'
  queue h := by
    have h' : s.status = .header ∨ s.status = .content ∨ s.status = .down := h
    rcases hwait with hwait | hwait <;> simp [hwait] at h'

theorem close (hfd : s.fd ≠ 0) : SlotInv { s with status := .down, queue := none } where
  linked := iff_of_false hfd (by simp)
  fresh h := by simp at h
  receiving h := by simp at h
  queue _ := rfl

theorem link {fd : ℤ} (hs : SlotInv s) (hfree : s.fd = 0) (hfd : fd ≠ 0) :
    SlotInv { s with fd, status := .handshake } where
  linked := iff_of_false hfd (by simp)
  fresh _ := hs.fresh (Or.inl (hs.linked.mp hfree))
  receiving h := by simp at h
  queue h := by simp at h

theorem of_receiving {p : List UInt8} (hfd : s.fd ≠ 0) (hqueue : s.queue = none)
    (hrecv : Receiving s p) : SlotInv s where
  linked := by
    obtain ⟨hstatus, -⟩ | ⟨hstatus, -⟩ := hrecv <;> exact iff_of_false hfd (by simp [hstatus])
  fresh h := by
    obtain ⟨hstatus, -⟩ | ⟨hstatus, -⟩ := hrecv <;> simp [hstatus] at h
  receiving _ := ⟨p, hrecv⟩
  queue _ := hqueue

theorem open_receiving (hs : SlotInv s) (hstatus : s.status = .wait ∨ s.status = .handshake) :
    Receiving { s with status := .header, queue := none } [] :=
  .header rfl (hs.fresh hstatus).2 (hs.fresh hstatus).1 (by decide) rfl

theorem fd_ne_zero (hs : SlotInv s) (hstatus : s.status ≠ .wait) : s.fd ≠ 0 :=
  mt hs.linked.mp hstatus

end SlotInv

/-! ### Chunks -/

/-- What a chunk does to its slot. -/
inductive DataStep (id : ℕ) (h : Harbor) : Harbor → Prop
  | ignored (hstatus : (h.s id).status = .wait ∨ (h.s id).status = .down) : DataStep id h h
  | read {h₁ : Harbor} {frames : List (List UInt8)} {p : List UInt8}
      (hstatus : (h.s id).status = .header ∨ (h.s id).status = .content)
      (quiet : Quiet id h h₁ frames) (recv : Receiving (h₁.s id) p) : DataStep id h h₁
  | opened {h₁ : Harbor} {frames : List (List UInt8)} {p : List UInt8}
      (hstatus : (h.s id).status = .handshake)
      (quiet : Quiet id (opened h id) h₁ frames) (recv : Receiving (h₁.s id) p) : DataStep id h h₁
  | closed {h₀ h₁ : Harbor} {frames : List (List UInt8)} (text : ErrorText)
      (hstatus : (h.s id).status ≠ .wait)
      (hopened : h₀ = h ∨ h₀ = HarborService.opened h id ∧ (h.s id).status = .handshake)
      (quiet : Quiet id h₀ h₁ frames) : DataStep id h (closeHarbor (h₁.call (.error text)) id)

variable {h₀ : Harbor}

section Chunk

variable {id : ℕ} {fd : ℤ} {h : Harbor} {c : Buffer}

/-- A chunk either completes a short frame or makes a step. -/
theorem dataStep_of_loopSpec {d : List LinkItem × Option (List UInt8)}
    {r : Except HarborFault (Harbor × ℤ)} (hloop : LoopSpec id h₀ d r)
    (hopened : h₀ = h ∧ ((h.s id).status = .header ∨ (h.s id).status = .content) ∨
      h₀ = opened h id ∧ (h.s id).status = .handshake) :
    r = .error .cookieBelowBuffer ∨ ∃ h' size, r = .ok (h', size) ∧ DataStep id h h' := by
  rw [LoopSpec] at hloop
  by_cases hshort : LinkItem.short ∈ d.1
  · rw [if_pos hshort] at hloop
    exact Or.inl hloop
  rw [if_neg hshort] at hloop
  obtain ⟨h₁, q, hloop⟩ := hloop
  refine Or.inr ?_
  by_cases htooLong : LinkItem.tooLong ∈ d.1
  · rw [if_pos htooLong] at hloop
    obtain ⟨size, heq⟩ := hloop
    refine ⟨_, size, heq, .closed _ ?_ (hopened.imp_left And.left) q⟩
    obtain ⟨-, hstatus | hstatus⟩ | ⟨-, hstatus⟩ := hopened <;> rw [hstatus] <;> decide
  · rw [if_neg htooLong] at hloop
    obtain ⟨kept, -, hrecv, heq⟩ := hloop
    refine ⟨h₁, 0, heq, ?_⟩
    obtain ⟨rfl, hstatus⟩ | ⟨rfl, hstatus⟩ := hopened
    · exact .read hstatus q hrecv
    · exact .opened hstatus q hrecv

/-- A chunk for a link that is past its handshake. -/
theorem dataStep_of_past (hinv : SlotsInv h) (hc : c.bytes ≠ [])
    (hstatus : (h.s id).status = .header ∨ (h.s id).status = .content) :
    socketDataLoop id fd (c.bytes.length + 1) h c.bytes c.bytes.length =
        .error .cookieBelowBuffer ∨
      ∃ h' size, socketDataLoop id fd (c.bytes.length + 1) h c.bytes c.bytes.length =
        .ok (h', size) ∧ DataStep id h h' := by
  obtain ⟨p, hrecv⟩ := (hinv id).receiving hstatus
  have hspec : LoopSpec id h _ (socketDataLoop id fd _ h c.bytes c.bytes.length) :=
    socketDataLoop_spec hrecv (Or.inl hc) (Nat.lt_succ_self _)
  exact dataStep_of_loopSpec hspec (Or.inl ⟨rfl, hstatus⟩)

/-- **What `push_socket_data` does with a chunk.** The only fault is the cookie of a frame that is
too short. -/
theorem pushSocketData_cases (hinv : SlotsInv h) (hc : c.bytes ≠ []) :
    pushSocketData h ⟨fd, c.bytes.length, c⟩ = .error .cookieBelowBuffer ∨
      ∃ h' size, pushSocketData h ⟨fd, c.bytes.length, c⟩ = .ok (h', size) ∧
        (h' = h.callAll [.free c.addr, .error (.invalidSocketData fd)] ∨
          DataStep (harborId h fd) h h') := by
  by_cases hid : harborId h fd = 0
  · refine Or.inr ⟨_, _, by rw [pushSocketData, if_pos hid], Or.inl ?_⟩
    rw [call_eq_callAll, call_eq_callAll, callAll_callAll]
    rfl
  rw [pushSocketData_eq rfl hid]
  set id := harborId h fd with hid'
  suffices hloop : socketDataLoop id fd (c.bytes.length + 1) h c.bytes c.bytes.length =
        .error .cookieBelowBuffer ∨
      ∃ h' size, socketDataLoop id fd (c.bytes.length + 1) h c.bytes c.bytes.length =
        .ok (h', size) ∧ DataStep id h h' by
    obtain herror | ⟨h', size, heq, hstep⟩ := hloop
    · exact Or.inl herror
    · exact Or.inr ⟨h', size, heq, Or.inr hstep⟩
  rcases hstatus : (h.s id).status with _ | _ | _ | _ | _
  · refine Or.inr ⟨h, c.bytes.length, ?_, .ignored (Or.inl hstatus)⟩
    rw [socketDataLoop, statusCase, hstatus]
  · obtain ⟨b, rest, hbytes⟩ := exists_cons_of_ne_nil hc
    have hfd := (hinv id).fd_ne_zero (by rw [hstatus]; decide)
    by_cases hb : b.toNat = id
    · obtain ⟨m, hm, hloop⟩ : ∃ m, rest.length < m ∧
          socketDataLoop id fd (c.bytes.length + 1) h (b :: rest) (b :: rest).length =
            socketDataLoop id fd m (opened h id) rest rest.length :=
        socketDataLoop_accept hstatus hfd hb (by rw [hbytes]; exact Nat.lt_succ_self _)
      have hrecv := (hinv id).open_receiving (Or.inr hstatus)
      rw [← opened_s_self] at hrecv
      have hspec : LoopSpec id (opened h id) _
          (socketDataLoop id fd m (opened h id) rest rest.length) :=
        socketDataLoop_spec hrecv (Or.inr (by decide)) hm
      rw [← hloop, ← hbytes] at hspec
      exact dataStep_of_loopSpec hspec (Or.inr ⟨rfl, hstatus⟩)
    · rw [hbytes, socketDataLoop_refuse hstatus hb]
      exact Or.inr ⟨_, _, rfl, .closed _ (by rw [hstatus]; decide) (Or.inl rfl) (Quiet.refl id h)⟩
  · exact dataStep_of_past hinv hc (Or.inl hstatus)
  · exact dataStep_of_past hinv hc (Or.inr hstatus)
  · refine Or.inr ⟨h, c.bytes.length, ?_, .ignored (Or.inr hstatus)⟩
    rw [socketDataLoop, statusCase, hstatus]

end Chunk

/-! ### Commands -/

/-- The harbor when a slot has got a socket: the byte of the handshake is sent. -/
def linked (h : Harbor) (id : ℕ) (fd : ℤ) : Harbor :=
  (h.setSlave id { h.s id with fd, status := .handshake }).callAll
    [.socketStart fd, .socketSend fd [h.id] 1]

/-- **What the commands `S` and `A` do**: they fail with a text, or a slot that is free gets a
socket, and with `A` its queue is sent at once. -/
theorem linkCommand_cases (h : Harbor) (command : UInt8) (args : List UInt8) :
    ∃ h', linkCommand h command args = .ok h' ∧
      ((∃ text, (text = .invalidCommand command (cString args) ∨
          ∃ id, text = .harborAlreadyExist id) ∧ h' = h.callAll [.error text]) ∨
        ∃ id fd, 0 < id ∧ id < remoteMax ∧ fd ≠ 0 ∧ (h.s id).fd = 0 ∧
          (h' = linked h id fd ∨ h' = opened (linked h id fd) id)) := by
  rw [linkCommand]
  rcases scanFdId args with ⟨fd, id⟩
  simp only
  split_ifs with hargs hfd hcommand
  · exact ⟨_, rfl, Or.inl ⟨_, Or.inl rfl, rfl⟩⟩
  · exact ⟨_, rfl, Or.inl ⟨_, Or.inr ⟨_, rfl⟩, rfl⟩⟩
  · refine ⟨_, rfl, Or.inr ⟨id.toNat, fd, by omega, by omega, by omega, not_not.mp hfd,
      Or.inl ?_⟩⟩
    simp only [handshake, linked, call_eq_callAll, callAll_callAll, setSlave_callAll, s_callAll,
      s_setSlave_self, setSlave_setSlave]
    rfl
  · have hfd' : fd ≠ 0 := by omega
    refine ⟨opened (linked h id.toNat fd) id.toNat, ?_, Or.inr ⟨id.toNat, fd, by omega, by omega,
      hfd', not_not.mp hfd, Or.inr rfl⟩⟩
    rw [handshake, call_eq_callAll, call_eq_callAll, callAll_callAll, setSlave_callAll, s_callAll,
      s_setSlave_self, setSlave_setSlave, dispatchQueue_eq _ (by
        rw [s_callAll, s_setSlave_self]
        exact hfd')]
    simp only [s_callAll, s_setSlave_self, setSlave_callAll, setSlave_setSlave, opened, linked]
    rfl

/-- The map in which a name is bound to a handle. -/
def boundMap (hash : Hashmap) (name : GlobalName) (handle : UInt32) : Hashmap :=
  hashModify (hashNode hash name).1 name fun node => { node with value := handle }

/-- The map in which nothing waits under a name. -/
def emptiedMap (hash : Hashmap) (name : GlobalName) : Hashmap :=
  hashModify hash name fun node => { node with queue := none }

section Name

variable {h : Harbor} {name : GlobalName} {handle : UInt32} {queue : HarborMsgQueue} {j : ℕ}

theorem updateName_of_none (hqueue : (hashNode h.map name).2.queue = none) :
    updateName h name handle = .ok { h with map := boundMap h.map name handle } := by
  rw [updateName]
  simp only [hqueue]
  rfl

/-- A message that waited under a name, with the handle that the name is bound to. -/
def bindMsg (handle : UInt32) (m : HarborMsg) : HarborMsg :=
  { m with header := { m.header with
      destination := m.header.destination ||| handle &&& handleMask } }

section

variable (hqueue : (hashNode h.map name).2.queue = some queue)
  (hj : (handle >>> handleRemoteShift).toNat = j) (hj0 : j ≠ 0)
include hqueue hj hj0

/-- Messages wait for a name that is bound to a handle of a harbor with a link: they are sent. -/
theorem updateName_of_open (hfd : (h.s j).fd ≠ 0) :
    updateName h name handle =
      .ok { h.callAll (queue.toList.flatMap fun m => queuedCalls (h.s j).fd (bindMsg handle m)) with
        map := emptiedMap (boundMap h.map name handle) name } := by
  rw [updateName]
  simp only [hqueue, dispatchNameQueue, hj, if_neg hj0, if_neg hfd, popAll_eq,
    releaseQueue_drained]
  have hfold := foldl_callAll { h with map := boundMap h.map name handle }
    (fun g m => sendQueued_eq g (h.s j).fd (bindMsg handle m)) queue.toList
  simp only [bindMsg, boundMap] at hfold
  rw [hfold]
  rfl

/-- Messages wait for a name that is bound to a handle of a harbor without a link: they are moved
to the queue of the slot as they are. -/
theorem updateName_of_wait (hfd : (h.s j).fd = 0) (hstatus : (h.s j).status ≠ .down) :
    ∃ moved, queueList (some moved) = queueList (h.s j).queue ++ queue.toList ∧
      updateName h name handle = .ok { h.setSlave j { h.s j with queue := some moved } with
        map := emptiedMap (boundMap h.map name handle) name } := by
  rw [updateName]
  simp only [hqueue, dispatchNameQueue, hj, if_neg hj0, if_pos hfd, if_neg hstatus]
  rcases hsqueue : (h.s j).queue with _ | squeue
  · exact ⟨queue, rfl, rfl⟩
  · refine ⟨(popAll queue).foldl pushQueueMsg squeue, ?_, ?_⟩
    · have hfold : ∀ (l : List HarborMsg) (q : HarborMsgQueue),
          (l.foldl pushQueueMsg q).toList = q.toList ++ l := by
        intro l
        induction l with
        | nil => intro q; exact (append_nil _).symm
        | cons m l ih =>
          intro q
          rw [foldl_cons, ih, toList_pushQueueMsg, append_assoc]
          rfl
      rw [popAll_eq]
      exact hfold _ _
    · simp only [releaseQueue_drained]
      rfl

end

/-- Messages wait for a name that is bound to a handle without a harbor. -/
theorem updateName_of_zero (hqueue : (hashNode h.map name).2.queue = some queue)
    (hj : (handle >>> handleRemoteShift).toNat = 0) :
    updateName h name handle = .error .assertFailed := by
  rw [updateName]
  simp only [hqueue, dispatchNameQueue, hj, if_pos]

end Name

/-! ### Every input keeps the slots well formed -/

/-- The answer with `PTYPE_ERROR` that a call sends, or sends if there is no such destination. -/
def Call.answer : Call → Option SendArgs
  | .mtaskSend args => if args.type = 7 then some args else none
  | .mtaskSendOr _ reply _ => some reply
  | _ => none

/-- A call answers at most in the name of a handle of the harbor `id`. -/
def Call.AnswersAs (id : UInt8) (c : Call) : Prop :=
  ∀ reply, c.answer = some reply → reply.source >>> handleRemoteShift = id.toUInt32

theorem Call.AnswersAs.of_none {id : UInt8} {c : Call} (hc : c.answer = none) : c.AnswersAs id :=
  fun reply heq => by simp [hc] at heq

/-- A message that was received is answered in the name of its destination. -/
theorem answersAs_forwardCall (id : UInt8) (msg : Buffer) : (forwardCall id msg).AnswersAs id := by
  intro reply heq
  rw [forwardCall, Call.answer, Option.some.injEq] at heq
  subst heq
  exact cookie_type _ id

/-- What the rest of the system delivers: the chunks of a socket are not empty. -/
def Delivers : Input → Prop
  | .socketData message =>
    message.ud = message.buffer.bytes.length ∧ message.buffer.bytes ≠ []
  | _ => True

/-- From `h` to `h'` the slots stay well formed, a slot keeps its socket and stays down, and answers
are sent only in the name of the handles of this harbor. -/
structure Keeps (h h' : Harbor) : Prop where
  slots : SlotsInv h'
  id_eq : h'.id = h.id
  fd : ∀ j, (h.s j).fd ≠ 0 → (h'.s j).fd = (h.s j).fd
  down : ∀ j, (h.s j).status = .down → (h'.s j).status = .down
  calls : ∃ l, h'.calls = h.calls ++ l ∧ ∀ c ∈ l, c.AnswersAs h.id

namespace Keeps

variable {h h₁ h₂ : Harbor} {id : ℕ}

theorem refl (hinv : SlotsInv h) : Keeps h h :=
  ⟨hinv, rfl, fun _ _ => rfl, fun _ h => h, [], (append_nil _).symm, by simp⟩

theorem trans (k : Keeps h h₁) (k' : Keeps h₁ h₂) : Keeps h h₂ := by
  obtain ⟨l, hl, hsilent⟩ := k.calls
  obtain ⟨l', hl', hsilent'⟩ := k'.calls
  refine ⟨k'.slots, k'.id_eq.trans k.id_eq, fun j hj => ?_, fun j hj => k'.down j (k.down j hj),
    l ++ l', ?_, fun c hc => ?_⟩
  · rw [k'.fd j (by rwa [k.fd j hj]), k.fd j hj]
  · rw [hl', hl, append_assoc]
  · rw [k.id_eq] at hsilent'
    exact (mem_append.mp hc).elim (hsilent c) (hsilent' c)

theorem callAll (hinv : SlotsInv h) {l : List Call} (hl : ∀ c ∈ l, c.answer = none) :
    Keeps h (h.callAll l) :=
  ⟨hinv, rfl, fun _ _ => rfl, fun _ h => h, l, rfl, fun c hc => .of_none (hl c hc)⟩

theorem setSlave (hinv : SlotsInv h) {s : Slave} (hs : SlotInv s)
    (hfd : (h.s id).fd ≠ 0 → s.fd = (h.s id).fd) (hstatus : (h.s id).status ≠ .down) :
    Keeps h (h.setSlave id s) := by
  refine ⟨fun j => ?_, rfl, fun j hj => ?_, fun j hj => ?_, [], (append_nil _).symm, by simp⟩
  all_goals by_cases hid : j = id
  · rw [hid, s_setSlave_self]
    exact hs
  · rw [s_setSlave_of_ne _ hid]
    exact hinv j
  · subst hid
    rw [s_setSlave_self]
    exact hfd hj
  · rw [s_setSlave_of_ne _ hid]
  · subst hid
    exact absurd hj hstatus
  · rw [s_setSlave_of_ne _ hid]
    exact hj

theorem setMap (k : Keeps h h₁) (map : Hashmap) : Keeps h { h₁ with map } :=
  ⟨k.slots, k.id_eq, k.fd, k.down, k.calls⟩

theorem type_or_tag_ne (type : UInt8) : type.toUInt32 ||| tagDontcopy ≠ 7 := by
  intro heq
  have hbit := congrArg (fun x : UInt32 => x.toNat.testBit 16) heq
  have htag : tagDontcopy.toNat.testBit 16 = true := rfl
  have hseven : Nat.testBit 7 16 = false := rfl
  simp [UInt32.toNat_or, Nat.testBit_or, htag] at hbit
  rw [hseven] at hbit
  exact Bool.false_ne_true hbit

variable {fd : ℤ}

theorem answer_remoteCall {msg : Buffer} {cookie : RemoteMessageHeader} :
    (remoteCall fd msg cookie).answer = none := by
  rw [remoteCall]
  split_ifs <;> rfl

theorem answer_queuedCalls {m : HarborMsg} {c : Call} (hc : c ∈ queuedCalls fd m) :
    c.answer = none := by
  rcases mem_cons.mp hc with rfl | hc
  · exact answer_remoteCall
  · rw [mem_singleton.mp hc]
    rfl

theorem answer_flatMap {l : List HarborMsg} {f : HarborMsg → HarborMsg} {c : Call}
    (hc : c ∈ l.flatMap fun m => queuedCalls fd (f m)) : c.answer = none := by
  obtain ⟨m, -, hc⟩ := mem_flatMap.mp hc
  exact answer_queuedCalls hc

variable {frames : List (List UInt8)}

theorem of_quiet (hinv : SlotsInv h) (hfd : (h.s id).fd ≠ 0) (hstatus : (h.s id).status ≠ .down)
    (hqueue : (h.s id).queue = none) (q : Quiet id h h₁ frames) (hrecv : Receiving (h₁.s id) p) :
    Keeps h h₁ := by
  obtain ⟨l, hl, hforward⟩ := q.exists_calls
  refine ⟨fun j => ?_, q.id_eq, fun j _ => q.fd_eq j, fun j hj => ?_, l, hl, fun c hc => ?_⟩
  · by_cases hj : j = id
    · rw [hj]
      exact .of_receiving (by rwa [q.fd]) (q.queue.trans hqueue) hrecv
    · rw [q.others j hj]
      exact hinv j
  · have hne : j ≠ id := fun h => hstatus (h ▸ hj)
    rwa [q.others j hne]
  · obtain ⟨msg, rfl⟩ := hforward c hc
    exact answersAs_forwardCall h.id msg

theorem opened (hinv : SlotsInv h) (hfd : (h.s id).fd ≠ 0)
    (hstatus : (h.s id).status = .wait ∨ (h.s id).status = .handshake) :
    Keeps h (opened h id) := by
  have hslot : SlotInv { h.s id with status := .header, queue := none } :=
    SlotInv.of_receiving hfd rfl ((hinv id).open_receiving hstatus)
  have hkeeps := setSlave hinv hslot (fun _ => rfl)
    (by rcases hstatus with h | h <;> rw [h] <;> decide)
  exact hkeeps.trans (callAll hkeeps.slots fun c hc => answer_flatMap (f := fun m => m) hc)

theorem closed (k : Keeps h h₀) (hfd : (h₀.s id).fd ≠ 0) (q : Quiet id h₀ h₁ frames)
    (text : ErrorText) : Keeps h (closeHarbor (h₁.call (.error text)) id) := by
  obtain ⟨l, hl, hforward⟩ := q.exists_calls
  have hfd₁ : (h₁.s id).fd ≠ 0 := by rwa [q.fd]
  refine k.trans ⟨fun j => ?_, ?_, fun j _ => ?_, fun j hj => ?_, ?_⟩
  · rw [closeHarbor_eq, s_callAll]
    by_cases hj : j = id
    · rw [hj, s_setSlave_self]
      exact .close hfd₁
    · rw [s_setSlave_of_ne _ hj, s_call, q.others j hj]
      exact k.slots j
  · rw [closeHarbor_eq]
    exact q.id_eq
  · rw [closeHarbor_fd]
    exact q.fd_eq j
  · rw [closeHarbor_eq, s_callAll]
    by_cases hid : j = id
    · rw [hid, s_setSlave_self]
    · rwa [s_setSlave_of_ne _ hid, s_call, q.others j hid]
  · rw [closeHarbor_eq]
    refine ⟨l ++ ([.error text] ++ ([.socketClose (h₁.s id).fd] ++
      (queueList (h₁.s id).queue).map fun m => .free m.buffer.addr)), ?_, fun c hc => ?_⟩
    · rw [s_call, if_pos hfd₁]
      simp only [Harbor.callAll, Harbor.setSlave, Harbor.call, hl, append_assoc]
    · simp only [mem_append, mem_singleton, mem_map] at hc
      obtain hc | rfl | rfl | ⟨m, -, rfl⟩ := hc
      · obtain ⟨msg, rfl⟩ := hforward c hc
        exact answersAs_forwardCall h₀.id msg
      all_goals exact .of_none rfl

theorem of_dataStep (hinv : SlotsInv h) (hstep : DataStep id h h₁) : Keeps h h₁ := by
  obtain hstatus | ⟨hstatus, q, hrecv⟩ | ⟨hstatus, q, hrecv⟩ | ⟨text, hstatus, hopened, q⟩ := hstep
  · exact refl hinv
  · have hfd := (hinv id).fd_ne_zero (by rcases hstatus with h | h <;> rw [h] <;> decide)
    exact of_quiet hinv hfd (by rcases hstatus with h | h <;> rw [h] <;> decide)
      ((hinv id).queue (hstatus.imp_right Or.inl)) q hrecv
  · have hfd := (hinv id).fd_ne_zero (by rw [hstatus]; decide)
    have hkeeps := opened hinv hfd (Or.inr hstatus)
    refine hkeeps.trans (of_quiet hkeeps.slots (by rwa [opened_fd]) ?_ ?_ q hrecv)
    · rw [opened_s_self]
      exact SlaveStatus.noConfusion
    · rw [opened_s_self]
  · have hfd := (hinv id).fd_ne_zero hstatus
    obtain rfl | ⟨rfl, hhandshake⟩ := hopened
    · exact closed (refl hinv) hfd q text
    · exact closed (opened hinv hfd (Or.inr hhandshake)) (by rwa [opened_fd]) q text

theorem remoteSendHandle (hinv : SlotsInv h) (source destination : UInt32) (type : UInt8)
    (session : Int32) (msg : Buffer) :
    Keeps h (remoteSendHandle h source destination type session msg).1 := by
  set j := (destination >>> handleRemoteShift).toNat with hj
  by_cases hid : j = h.id.toNat
  · rw [remoteSendHandle_of_local h hid]
    refine callAll hinv fun c hc => ?_
    rw [mem_singleton.mp hc]
    exact if_neg (type_or_tag_ne type)
  by_cases hwait : (h.s j).fd = 0 ∨ (h.s j).status = .handshake
  · have hstatus : (h.s j).status = .wait ∨ (h.s j).status = .handshake :=
      hwait.imp_left (hinv j).linked.mp
    have hdown : (h.s j).status ≠ .down := by rcases hstatus with h | h <;> rw [h] <;> decide
    rw [remoteSendHandle_of_waiting h hj.symm hid hwait hdown]
    exact setSlave hinv ((hinv j).setQueue hstatus _) (fun _ => rfl) hdown
  · obtain ⟨hfd, hstatus⟩ := not_or.mp hwait
    rw [remoteSendHandle_of_open h hj.symm hid hfd hstatus]
    refine callAll hinv fun c hc => ?_
    rw [mem_singleton.mp hc]
    exact answer_remoteCall

theorem freeUnless {r : Harbor × Bool} (k : Keeps h r.1) (addr : ℕ) :
    Keeps h (freeUnless addr r) := by
  obtain ⟨h₁, _ | _⟩ := r
  · exact k.trans (callAll k.slots (by simp [Call.answer]))
  · exact k

theorem remoteSendName (hinv : SlotsInv h) (source : UInt32) (name : GlobalName) (type : UInt8)
    (session : Int32) (msg : Buffer) :
    Keeps h (remoteSendName h source name type session msg).1 := by
  have hmap : ∀ map, Keeps h { h with map } := fun map => (refl hinv).setMap map
  rw [HarborService.remoteSendName]
  rcases hashNode h.map name with ⟨map, node⟩
  simp only
  split_ifs with hvalue
  · refine ((hmap _).trans (callAll (hmap _).slots ?_))
    simp [Call.answer]
  · exact (hmap map).trans (remoteSendHandle (hmap map).slots source node.value type session msg)

theorem linked (hinv : SlotsInv h) (hfd : fd ≠ 0) (hfree : (h.s id).fd = 0)
    (hh₁ : h₁ = linked h id fd ∨ h₁ = HarborService.opened (linked h id fd) id) : Keeps h h₁ := by
  have hself : (HarborService.linked h id fd).s id = { h.s id with fd, status := .handshake } := by
    rw [HarborService.linked, s_callAll, s_setSlave_self]
  have hslot : SlotInv { h.s id with fd, status := .handshake } := (hinv id).link hfree hfd
  have hset := setSlave hinv hslot (fun h => absurd hfree h)
    (by rw [(hinv id).linked.mp hfree]; decide)
  have hlinked : Keeps h (HarborService.linked h id fd) :=
    hset.trans (callAll hset.slots (by simp [Call.answer]))
  obtain rfl | rfl := hh₁
  · exact hlinked
  · refine hlinked.trans (opened hlinked.slots ?_ (Or.inr ?_))
    · rw [hself]
      exact hfd
    · rw [hself]

theorem updateName {name : GlobalName} {handle : UInt32} (hinv : SlotsInv h)
    (hstep : updateName h name handle = .ok h₁) : Keeps h h₁ := by
  rcases hqueue : (hashNode h.map name).2.queue with _ | queue
  · rw [updateName_of_none hqueue, Except.ok.injEq] at hstep
    exact hstep ▸ (refl hinv).setMap _
  set j := (handle >>> handleRemoteShift).toNat with hj
  by_cases hj0 : j = 0
  · rw [updateName_of_zero hqueue hj0] at hstep
    simp at hstep
  by_cases hfd : (h.s j).fd = 0
  · have hstatus := (hinv j).linked.mp hfd
    have hdown : (h.s j).status ≠ .down := by rw [hstatus]; decide
    obtain ⟨moved, -, heq⟩ := updateName_of_wait hqueue hj.symm hj0 hfd hdown
    rw [heq, Except.ok.injEq] at hstep
    exact hstep ▸ (setSlave hinv ((hinv j).setQueue (Or.inl hstatus) (some moved))
      (fun _ => rfl) hdown).setMap _
  · rw [updateName_of_open hqueue hj.symm hj0 hfd, Except.ok.injEq] at hstep
    exact hstep ▸ (callAll hinv fun c hc => answer_flatMap hc).setMap _

theorem harborCommand {msg : List UInt8} {source : UInt32} (hinv : SlotsInv h)
    (hstep : harborCommand h msg source = .ok h₁) : Keeps h h₁ := by
  have herror : ∀ text, Keeps h (h.call (.error text)) := fun text =>
    callAll hinv (by simp [Call.answer])
  rcases msg with _ | ⟨command, msg⟩
  · simp [HarborService.harborCommand] at hstep
  rw [HarborService.harborCommand] at hstep
  split_ifs at hstep with hname hlength hlink hshort
  · exact Except.ok.inj hstep ▸ herror _
  · exact updateName hinv hstep
  · obtain ⟨h', heq, ⟨text, -, rfl⟩ | ⟨id, fd, -, -, hfd, hfree, hh'⟩⟩ :=
      linkCommand_cases h command (msg.drop 1)
    · rw [heq, Except.ok.injEq] at hstep
      exact hstep ▸ herror text
    · rw [heq, Except.ok.injEq] at hstep
      subst hstep
      exact linked hinv hfd hfree hh'
  · exact Except.ok.inj hstep ▸ herror _

/-- **Every input keeps the slots well formed**, and answers nobody with an error. -/
theorem mainloop {input : Input} (hinv : SlotsInv h) (hin : Delivers input)
    (hstep : mainloop h input = .ok h₁) : Keeps h h₁ := by
  have hcall : ∀ c : Call, c.answer = none → Keeps h (h.call c) := fun c hc =>
    callAll hinv fun c' hc' => by rw [mem_singleton.mp hc', hc]
  rcases input with message | fd | fd | _ | ⟨fd, ud⟩ | _ | ⟨msg, source⟩ |
    ⟨source, type, session, rmsg⟩
  · obtain ⟨fd, ud, c⟩ := message
    obtain ⟨hud, hc⟩ := hin
    simp only at hud hc
    subst hud
    rw [HarborService.mainloop] at hstep
    obtain herror | ⟨h', size, heq, hcases⟩ := pushSocketData_cases (h := h) hinv hc
    · rw [herror] at hstep
      simp at hstep
    · rw [heq, Except.ok.injEq] at hstep
      subst hstep
      have hkeeps : Keeps h h' := by
        obtain rfl | hdata := hcases
        · exact callAll hinv (by simp [Call.answer])
        · exact of_dataStep hinv hdata
      exact hkeeps.trans (callAll hkeeps.slots (by simp [Call.answer]))
  · rw [HarborService.mainloop] at hstep
    split_ifs at hstep
    all_goals exact Except.ok.inj hstep ▸ hcall _ rfl
  · rw [HarborService.mainloop] at hstep
    split_ifs at hstep
    all_goals exact Except.ok.inj hstep ▸ hcall _ rfl
  · exact Except.ok.inj hstep ▸ refl hinv
  · rw [HarborService.mainloop] at hstep
    split_ifs at hstep
    · exact Except.ok.inj hstep ▸ hcall _ rfl
    · exact Except.ok.inj hstep ▸ refl hinv
  · exact Except.ok.inj hstep ▸ hcall _ rfl
  · exact harborCommand hinv hstep
  · rw [HarborService.mainloop] at hstep
    split_ifs at hstep
    · exact Except.ok.inj hstep ▸ freeUnless (remoteSendName hinv _ _ _ _ _) _
    · exact Except.ok.inj hstep ▸ freeUnless (remoteSendHandle hinv _ _ _ _ _) _

end Keeps

theorem slotsInv_init (id : UInt8) (slave : UInt32) : SlotsInv (harborInit id slave) :=
  fun _ => .zero

end Mtask.HarborService
