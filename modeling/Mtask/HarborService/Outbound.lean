import Mathlib.Data.List.Perm.Basic
import Mtask.HarborService.Slots
import Mtask.HarborService.Wire

/-!
# The messages that the harbor service carries

A message for a handle is either handed on with one call, to the local service or to the link of
its harbor, or it waits in the queue of the slot of its harbor. Every input that takes no link down
keeps the two apart: what is opened is sent, and nothing else moves.
-/

namespace Mtask.HarborService

open List

/-! ### Calls for messages -/

namespace RemoteMsg

/-- The harbor of the handle. -/
def harbor (m : RemoteMsg) : ℕ :=
  (m.destination >>> handleRemoteShift).toNat

/-- The message in the queue of its slot. -/
def queued (m : RemoteMsg) : HarborMsg where
  header := m.cookie
  buffer := m.payload

/-- The call that hands a message on. -/
def call (h : Harbor) (m : RemoteMsg) : Call :=
  if m.harbor = h.id.toNat then
    .mtaskSend
      { source := m.source, destination := m.destination, type := m.type.toUInt32 ||| tagDontcopy,
        session := m.session, data := m.payload }
  else remoteCall (h.s m.harbor).fd m.payload m.cookie

end RemoteMsg

/-- The calls that hand a message on: a tagged `mtask_send`, and what `send_remote` does. The byte
of a handshake is the only other thing that is written to a socket. -/
def Call.isOutbound : Call → Bool
  | .mtaskSend args => args.type &&& tagDontcopy ≠ 0
  | .socketSend _ buffer _ => buffer.length ≠ 1
  | .error (.tooLarge _ _) => true
  | _ => false

/-- The calls of a service that hand a message on. -/
def Harbor.outbound (h : Harbor) : List Call :=
  h.calls.filter Call.isOutbound

@[simp] theorem outbound_callAll (h : Harbor) (l : List Call) :
    (h.callAll l).outbound = h.outbound ++ l.filter Call.isOutbound :=
  filter_append _ _

@[simp] theorem outbound_call (h : Harbor) (c : Call) :
    (h.call c).outbound = h.outbound ++ [c].filter Call.isOutbound :=
  filter_append _ _

@[simp] theorem outbound_setSlave (h : Harbor) (id : ℕ) (s : Slave) :
    (h.setSlave id s).outbound = h.outbound := rfl

@[simp] theorem isOutbound_remoteCall (fd : ℤ) (buffer : Buffer) (cookie : RemoteMessageHeader) :
    (remoteCall fd buffer cookie).isOutbound = true := by
  rw [remoteCall]
  split_ifs
  · rfl
  · have hlen (n : UInt32) :
        (toBigendian n ++ buffer.bytes ++ headerToMessage cookie).length ≠ 1 := by
      have hsize : (toBigendian n).length = 4 := rfl
      rw [length_append, length_append, hsize]
      omega
    exact decide_eq_true (hlen (buffer.bytes.length + headerCookieLength).toUInt32)

theorem filter_queuedCalls (fd : ℤ) (l : List HarborMsg) :
    (l.flatMap (queuedCalls fd)).filter Call.isOutbound =
      l.map fun m => remoteCall fd m.buffer m.header := by
  induction l with
  | nil => rfl
  | cons m l ih =>
    rw [flatMap_cons, filter_append, ih, queuedCalls,
      filter_cons_of_pos (isOutbound_remoteCall _ _ _)]
    rfl

theorem type_or_tag_and (type : UInt32) : (type ||| tagDontcopy) &&& tagDontcopy ≠ 0 := by
  intro heq
  have hbit := congrArg (fun x : UInt32 => x.toNat.testBit 16) heq
  have htag : tagDontcopy.toNat.testBit 16 = true := rfl
  simp [UInt32.toNat_or, UInt32.toNat_and, Nat.testBit_or, Nat.testBit_and, htag] at hbit

/-- The questions and the reports of the service to its slave have the type `0`. -/
theorem isOutbound_of_type_zero {args : SendArgs} (htype : args.type = 0) :
    (Call.mtaskSend args).isOutbound = false := by
  rw [Call.isOutbound, htype]
  decide

theorem RemoteMsg.isOutbound_call (h : Harbor) (m : RemoteMsg) : (m.call h).isOutbound = true := by
  rw [call]
  split_ifs
  · exact decide_eq_true (type_or_tag_and m.type.toUInt32)
  · exact isOutbound_remoteCall _ _ _

/-- The call does not change as long as the socket of the slot stays. -/
theorem RemoteMsg.call_congr {h h' : Harbor} {m : RemoteMsg} (hid : h'.id = h.id)
    (hfd : m.harbor = h.id.toNat ∨ (h'.s m.harbor).fd = (h.s m.harbor).fd) :
    m.call h' = m.call h := by
  rw [call, call, hid]
  obtain hlocal | hfd := hfd
  · rw [if_pos hlocal, if_pos hlocal]
  · rw [hfd]

/-! ### Messages that are handed on or wait -/

/-- The messages `done` were handed on, one call each, and the messages `waiting` wait in the slots
of their harbors. -/
structure Carried (h : Harbor) (done waiting : List RemoteMsg) : Prop where
  calls : h.outbound.Perm (done.map (RemoteMsg.call h))
  queue : ∀ j, queueList (h.s j).queue =
    (waiting.filter fun m => m.harbor = j).map RemoteMsg.queued
  sent : ∀ m ∈ done, m.harbor = h.id.toNat ∨ (h.s m.harbor).fd ≠ 0
  remote : ∀ m ∈ waiting, m.harbor ≠ h.id.toNat

/-- From `h` to `h'` the messages `new` are added, and none is lost. -/
def Carries (h h' : Harbor) (new : List RemoteMsg) : Prop :=
  ∀ done waiting, Carried h done waiting →
    ∃ done' waiting', Carried h' done' waiting' ∧
      (done' ++ waiting').Perm (done ++ waiting ++ new)

namespace Carries

variable {h h₁ h₂ : Harbor} {new : List RemoteMsg} {id : ℕ}

theorem trans (c : Carries h h₁ []) (c' : Carries h₁ h₂ new) : Carries h h₂ new := by
  intro done waiting hcarried
  obtain ⟨done₁, waiting₁, hcarried₁, hperm₁⟩ := c done waiting hcarried
  obtain ⟨done₂, waiting₂, hcarried₂, hperm₂⟩ := c' done₁ waiting₁ hcarried₁
  rw [append_nil] at hperm₁
  exact ⟨done₂, waiting₂, hcarried₂, hperm₂.trans (hperm₁.append_right new)⟩

theorem send (k : Keeps h h₁) (hqueue : ∀ j, (h₁.s j).queue = (h.s j).queue)
    (hcalls : h₁.outbound = h.outbound ++ new.map (RemoteMsg.call h))
    (hnew : ∀ m ∈ new, m.harbor = h.id.toNat ∨ (h.s m.harbor).fd ≠ 0) : Carries h h₁ new := by
  intro done waiting c
  have hsent : ∀ m ∈ done ++ new, m.harbor = h.id.toNat ∨ (h.s m.harbor).fd ≠ 0 := fun m hm =>
    (mem_append.mp hm).elim (c.sent m) (hnew m)
  have hcall : (done ++ new).map (RemoteMsg.call h₁) = (done ++ new).map (RemoteMsg.call h) :=
    map_congr_left fun m hm => RemoteMsg.call_congr k.id_eq ((hsent m hm).imp_right (k.fd _))
  refine ⟨done ++ new, waiting, ⟨?_, fun j => ?_, fun m hm => ?_, fun m hm => ?_⟩, ?_⟩
  · rw [hcall, hcalls, map_append]
    exact c.calls.append_right _
  · rw [hqueue, c.queue]
  · rw [k.id_eq]
    exact (hsent m hm).imp_right fun hfd => by rwa [k.fd _ hfd]
  · rw [k.id_eq]
    exact c.remote m hm
  · rw [append_assoc, append_assoc]
    exact perm_append_comm.append_left done

theorem quiet (k : Keeps h h₁) (hqueue : ∀ j, (h₁.s j).queue = (h.s j).queue)
    (hcalls : h₁.outbound = h.outbound) : Carries h h₁ [] :=
  send k hqueue (by rw [hcalls, map_nil, append_nil]) (by simp)

theorem call {c : Call} (hinv : SlotsInv h) (hout : c.isOutbound = false)
    (hanswer : c.answer = none) : Carries h (h.call c) [] := by
  refine quiet (Keeps.callAll hinv fun c' hc' => ?_) (fun _ => rfl) ?_
  · rw [mem_singleton.mp hc', hanswer]
  · rw [outbound_call, filter_cons_of_neg (by simp [hout]), filter_nil, append_nil]

/-- Messages that are put into the queue of their slot. -/
theorem wait {j : ℕ} (k : Keeps h h₁) (hj : j ≠ h.id.toNat) (hnew : ∀ m ∈ new, m.harbor = j)
    (hself : queueList (h₁.s j).queue = queueList (h.s j).queue ++ new.map RemoteMsg.queued)
    (hothers : ∀ i ≠ j, (h₁.s i).queue = (h.s i).queue) (hcalls : h₁.outbound = h.outbound) :
    Carries h h₁ new := by
  intro done waiting c
  have hcall : done.map (RemoteMsg.call h₁) = done.map (RemoteMsg.call h) :=
    map_congr_left fun m hm => RemoteMsg.call_congr k.id_eq ((c.sent m hm).imp_right (k.fd _))
  refine ⟨done, waiting ++ new, ⟨?_, fun i => ?_, fun m hm => ?_, fun m hm => ?_⟩, ?_⟩
  · rw [hcall, hcalls]
    exact c.calls
  · rw [filter_append, map_append]
    by_cases hi : i = j
    · subst hi
      have hfilter : new.filter (fun m => m.harbor = i) = new :=
        filter_eq_self.mpr fun m hm => decide_eq_true (hnew m hm)
      rw [hself, c.queue, hfilter]
    · have hfilter : new.filter (fun m => m.harbor = i) = [] :=
        filter_eq_nil_iff.mpr fun m hm => by simp [hnew m hm, Ne.symm hi]
      rw [hothers i hi, c.queue, hfilter, map_nil, append_nil]
  · rw [k.id_eq]
    exact (c.sent m hm).imp_right fun hfd => by rwa [k.fd _ hfd]
  · rw [k.id_eq]
    obtain hm | hm := mem_append.mp hm
    · exact c.remote m hm
    · rwa [hnew m hm]
  · rw [append_assoc]

/-- A slot whose handshake is done sends what waits in it. -/
theorem opened (hinv : SlotsInv h) (hfd : (h.s id).fd ≠ 0)
    (hstatus : (h.s id).status = .wait ∨ (h.s id).status = .handshake) :
    Carries h (opened h id) [] := by
  have k := Keeps.opened hinv hfd hstatus
  intro done waiting c
  -- What waits for `id` is sent, the rest keeps waiting.
  have hsent : ∀ m ∈ done ++ waiting.filter (fun m => m.harbor = id),
      m.harbor = h.id.toNat ∨ (h.s m.harbor).fd ≠ 0 := fun m hm =>
    (mem_append.mp hm).elim (c.sent m) fun hm => Or.inr (by
      rwa [of_decide_eq_true (mem_filter.mp hm).2])
  have hcall : ∀ l : List RemoteMsg, (∀ m ∈ l, m.harbor = h.id.toNat ∨ (h.s m.harbor).fd ≠ 0) →
      l.map (RemoteMsg.call (HarborService.opened h id)) = l.map (RemoteMsg.call h) := fun l hl =>
    map_congr_left fun m hm => RemoteMsg.call_congr k.id_eq ((hl m hm).imp_right (k.fd _))
  have hqueued :
      (queueList (h.s id).queue).map (fun m => remoteCall (h.s id).fd m.buffer m.header) =
        (waiting.filter fun m => m.harbor = id).map (RemoteMsg.call h) := by
    rw [c.queue, map_map]
    refine map_congr_left fun m hm => ?_
    obtain ⟨hm, hj⟩ := mem_filter.mp hm
    rw [RemoteMsg.call, if_neg (c.remote m hm), of_decide_eq_true hj]
    rfl
  refine ⟨done ++ waiting.filter (fun m => m.harbor = id),
    waiting.filter (fun m => !decide (m.harbor = id)),
    ⟨?_, fun j => ?_, fun m hm => ?_, fun m hm => ?_⟩, ?_⟩
  · rw [hcall _ hsent, HarborService.opened, outbound_callAll, outbound_setSlave,
      filter_queuedCalls, hqueued, map_append]
    exact c.calls.append_right _
  · rw [filter_filter]
    by_cases hj : j = id
    · subst hj
      rw [opened_s_self, filter_eq_nil_iff.mpr (by simp)]
      rfl
    · have hs : (HarborService.opened h id).s j = h.s j := by
        rw [HarborService.opened, s_callAll, s_setSlave_of_ne _ hj]
      rw [hs, c.queue]
      refine congrArg _ (filter_congr fun m _ => ?_)
      rcases eq_or_ne m.harbor j with hm | hm
      · simp [hm, hj]
      · simp [hm]
  · rw [k.id_eq]
    exact (hsent m hm).imp_right fun hfd => by rwa [k.fd _ hfd]
  · rw [k.id_eq]
    exact c.remote m (mem_filter.mp hm).1
  · rw [append_nil, append_assoc]
    exact (filter_append_perm _ _).append_left done

theorem remoteSendHandle (hinv : SlotsInv h) (m : RemoteMsg) :
    Carries h (freeUnless m.payload.addr
      (remoteSendHandle h m.source m.destination m.type m.session m.payload)) [m] := by
  have k : Keeps h (HarborService.freeUnless m.payload.addr _) := Keeps.freeUnless
    (Keeps.remoteSendHandle hinv m.source m.destination m.type m.session m.payload) m.payload.addr
  by_cases hid : m.harbor = h.id.toNat
  · rw [remoteSendHandle_of_local h hid] at k ⊢
    have hcall : m.call h = .mtaskSend ⟨m.source, m.destination, m.type.toUInt32 ||| tagDontcopy,
        m.session, m.payload⟩ :=
      if_pos hid
    refine send k (fun _ => rfl) ?_ (by simpa using Or.inl hid)
    rw [freeUnless, ← hcall, outbound_call, filter_cons_of_pos (m.isOutbound_call h)]
    rfl
  by_cases hwait : (h.s m.harbor).fd = 0 ∨ (h.s m.harbor).status = .handshake
  · have hstatus : (h.s m.harbor).status = .wait ∨ (h.s m.harbor).status = .handshake :=
      hwait.imp_left (hinv m.harbor).linked.mp
    have hdown : (h.s m.harbor).status ≠ .down := by
      rcases hstatus with h | h <;> rw [h] <;> decide
    rw [remoteSendHandle_of_waiting h rfl hid hwait hdown] at k ⊢
    refine wait k hid (by simp) ?_ (fun j hj => ?_) rfl
    · rw [freeUnless, RemoteMsg.harbor, s_setSlave_self]
      exact toList_push_getD _ _ _
    · exact congrArg Slave.queue (s_setSlave_of_ne h hj _)
  · obtain ⟨hfd, hstatus⟩ := not_or.mp hwait
    rw [remoteSendHandle_of_open h rfl hid hfd hstatus] at k ⊢
    have hcall : m.call h = remoteCall (h.s m.harbor).fd m.payload m.cookie := if_neg hid
    refine send k (fun _ => rfl) ?_ (by simpa using Or.inr hfd)
    rw [freeUnless, outbound_call, outbound_call, append_assoc, map_singleton, hcall,
      filter_cons_of_pos (isOutbound_remoteCall _ _ _)]
    rfl

theorem of_quiet {frames : List (List UInt8)} (k : Keeps h h₁) (q : Quiet id h h₁ frames) :
    Carries h h₁ [] := by
  obtain ⟨l, hl, hforward⟩ := q.exists_calls
  refine quiet k (fun j => ?_) ?_
  · by_cases hj : j = id
    · rw [hj, q.queue]
    · rw [q.others j hj]
  · have hl' : l.filter Call.isOutbound = [] := filter_eq_nil_iff.mpr fun c hc => by
      obtain ⟨msg, rfl⟩ := hforward c hc
      exact Bool.false_ne_true
    rw [Harbor.outbound, hl, filter_append, hl', append_nil]
    rfl

theorem dataStep (hinv : SlotsInv h) (hstep : DataStep id h h₁)
    (hup : ∀ j, (h₁.s j).status ≠ .down) : Carries h h₁ [] := by
  have k := Keeps.of_dataStep hinv hstep
  obtain hstatus | ⟨hstatus, q, hrecv⟩ | ⟨hstatus, q, hrecv⟩ | ⟨text, hstatus, hopened, q⟩ := hstep
  · exact quiet k (fun _ => rfl) rfl
  · exact of_quiet k q
  · have hfd := (hinv id).fd_ne_zero (by rw [hstatus]; decide)
    have hkeeps := Keeps.opened hinv hfd (Or.inr hstatus)
    refine (opened hinv hfd (Or.inr hstatus)).trans (of_quiet ?_ q)
    refine Keeps.of_quiet hkeeps.slots (by rwa [opened_fd]) ?_ ?_ q hrecv
    · rw [opened_s_self]
      exact SlaveStatus.noConfusion
    · rw [opened_s_self]
  · exact absurd (closeHarbor_status _ _) (hup id)

theorem linked {fd : ℤ} (hinv : SlotsInv h) (hfd : fd ≠ 0) (hfree : (h.s id).fd = 0)
    (hh₁ : h₁ = linked h id fd ∨ h₁ = HarborService.opened (linked h id fd) id) :
    Carries h h₁ [] := by
  have hself : (HarborService.linked h id fd).s id = { h.s id with fd, status := .handshake } := by
    rw [HarborService.linked, s_callAll, s_setSlave_self]
  have k := Keeps.linked hinv hfd hfree (Or.inl rfl)
  have hlinked : Carries h (HarborService.linked h id fd) [] := by
    refine quiet k (fun j => ?_) ?_
    · by_cases hj : j = id
      · rw [hj, hself]
      · rw [HarborService.linked, s_callAll, s_setSlave_of_ne _ hj]
    · rw [HarborService.linked, outbound_callAll, outbound_setSlave]
      exact append_nil _
  obtain rfl | rfl := hh₁
  · exact hlinked
  · refine hlinked.trans (opened k.slots ?_ (Or.inr ?_))
    · rw [hself]
      exact hfd
    · rw [hself]

/-- The names are no matter for the slots and the calls. -/
theorem setMap (c : Carries h h₁ new) (map : Hashmap) : Carries h { h₁ with map } new := by
  intro done waiting hcarried
  obtain ⟨done', waiting', hcarried', hperm⟩ := c done waiting hcarried
  exact ⟨done', waiting',
    ⟨hcarried'.calls, hcarried'.queue, hcarried'.sent, hcarried'.remote⟩, hperm⟩

theorem refl (h : Harbor) : Carries h h [] := fun done waiting hcarried =>
  ⟨done, waiting, hcarried, by rw [append_nil]⟩

end Carries

end Mtask.HarborService
