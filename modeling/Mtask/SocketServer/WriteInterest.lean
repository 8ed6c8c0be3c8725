import Mtask.SocketServer.Steps

/-!
# Write interest

A socket that has something queued is watched for the write event. `send_socket` turns the event on
only for a connected socket with empty lists, so that what is sent on a socket of
`SOCKET_TYPE_BIND` is queued for good.
-/

namespace Mtask.SocketServer

/-- The types of the sockets in the poller that accept something to send. -/
def SocketType.Sends (t : SocketType) : Prop :=
  t = .connecting ∨ t = .connected ∨ t = .halfclose ∨ t = .bind

/-- What holds of every slot. -/
structure Interested (s : Socket) : Prop where
  registered : s.type.Sends → s.registered = true
  writing : s.type.Sends → ¬s.Empty → s.writing = true
  connecting : s.type = .connecting → s.writing = true
  pending : s.type = .paccept ∨ s.type = .plisten ∨ s.type = .listen → s.Empty

theorem Interested.of_idle {s : Socket} (hs : s.type = .invalid ∨ s.type = .reserve) :
    Interested s := by
  have hsends : ¬s.type.Sends := by
    rcases hs with hs | hs
    all_goals simp [SocketType.Sends, hs]
  refine ⟨fun h => absurd h hsends, fun h => absurd h hsends, fun h => ?_, fun h => ?_⟩
  · exact absurd (Or.inl h) hsends
  · rcases hs with hs | hs
    all_goals simp [hs] at h

section Step

variable {s s' : Socket} {out : Outcome}

theorem Interested.sent (h : Interested s) (hs' : Sent s s')
    (hconnecting : s.type = .connecting → s'.writing = s.writing) : Interested s' where
  registered ht := hs'.registered.trans (h.registered (hs'.type ▸ ht))
  writing ht hne :=
    have hwriting : s.writing = true := h.writing (hs'.type ▸ ht) fun he => hne (hs'.empty he)
    (hs'.writing.resolve_right hne).trans hwriting
  connecting ht :=
    have ht : s.type = .connecting := hs'.type ▸ ht
    (hconnecting ht).trans (h.connecting ht)
  pending ht := hs'.empty (h.pending (hs'.type ▸ ht))

/-- Something is queued on a socket that is not bound. -/
theorem Interested.queued (h : Interested s)
    (htype : s.type = .reserve ∨ s.type = .connecting ∨ s.type = .connected)
    (hsame : s'.type = s.type ∧ s'.fd = s.fd ∧ s'.id = s.id ∧ s'.registered = s.registered)
    (hwriting : s'.writing = true ∨
      s'.writing = s.writing ∧ (s.type = .connected → ¬s.Empty)) : Interested s' := by
  obtain ⟨htype', -, -, hregistered⟩ := hsame
  have hon (hsends : s.type.Sends) : s'.writing = true := by
    rcases hwriting with hw | ⟨hw, hempty⟩
    · exact hw
    · rw [hw]
      rcases htype with ht | ht | ht
      · simp [SocketType.Sends, ht] at hsends
      · exact h.connecting ht
      · exact h.writing hsends (hempty ht)
  refine ⟨fun ht => ?_, fun ht _ => ?_, fun ht => ?_, fun ht => ?_⟩
  · exact hregistered.trans (h.registered (htype' ▸ ht))
  · exact hon (htype' ▸ ht)
  · exact hon (Or.inl (htype' ▸ ht))
  · rw [htype'] at ht
    rcases htype with hs | hs | hs
    all_goals simp [hs] at ht

/-- Something is left queued when the socket is closed. -/
theorem Interested.halfClosed (h : Interested s) (hs' : Sent s s')
    (hlive : s.type ≠ .invalid ∧ s.type ≠ .reserve) (hqueued : ¬s.Empty ∧ ¬s'.Empty) :
    Interested { s' with type := .halfclose } := by
  have hsends : s.type.Sends := by
    have hpending := mt h.pending hqueued.1
    obtain ⟨hinvalid, hreserve⟩ := hlive
    cases ht : s.type <;> simp [SocketType.Sends, ht] at hinvalid hreserve hpending ⊢
  refine ⟨fun _ => hs'.registered.trans (h.registered hsends), fun _ _ => ?_, nofun, nofun⟩
  exact (hs'.writing.resolve_right hqueued.2).trans (h.writing hsends hqueued.1)

/-- **One effect on a slot.** -/
theorem Interested.effect {sends halfCloses failsToStart : Prop} (h : Interested s)
    (he : Effect s sends halfCloses failsToStart out) (hbound : ¬(s.type = .bind ∧ sends))
    (hreserve : ¬(s.type = .reserve ∧ halfCloses)) : Interested out.socket := by
  cases he with
  | sent hs' hconnecting => exact h.sent hs' hconnecting
  | queued hsends htype hsame hwriting =>
    refine h.queued ?_ hsame hwriting
    rcases htype with ht | ht | ht | ht
    · exact Or.inl ht
    · exact Or.inr (Or.inl ht)
    · exact Or.inr (Or.inr ht)
    · exact absurd ⟨ht, hsends⟩ hbound
  | started htype =>
    have hempty : s.Empty :=
      h.pending (htype.imp (fun ht => ht.1) fun ht => Or.inl ht.1)
    refine ⟨fun _ => rfl, fun _ hne => absurd hempty hne, fun ht => ?_, fun _ => hempty⟩
    rcases htype with ⟨-, rfl⟩ | ⟨-, rfl⟩
    all_goals cases ht
  | notStarted hfails htype => exact .of_idle (Or.inl rfl)
  | connected htype hwriting =>
    have hsends : s.type.Sends := Or.inl htype
    refine ⟨fun _ => h.registered hsends, fun _ hne => ?_, nofun, nofun⟩
    exact (hwriting.resolve_right hne).trans (h.writing hsends hne)
  | halfClosed hcloses hs' hlive hqueued =>
    exact h.halfClosed hs' ⟨hlive, fun ht => hreserve ⟨ht, hcloses⟩⟩ hqueued
  | closed hcloses => exact .of_idle (Or.inl hcloses.type)

theorem Interested.opening {id : Int32} {own : Option ℕ} (ho : Opening s id own out) :
    Interested out.socket := by
  cases ho with
  | failed => exact .of_idle (Or.inl rfl)
  | opened hreserve htype hid hempty hfd =>
    refine ⟨fun ht => ?_, fun _ hne => absurd hempty.2 hne, fun ht => ?_, fun _ => hempty.2⟩
    · rcases htype with hs | hs | ⟨-, hregistered⟩
      · simp [SocketType.Sends, hs] at ht
      · simp [SocketType.Sends, hs] at ht
      · exact hregistered
    · rcases htype with hs | hs | ⟨hs | hs | hs, -⟩
      · simp [hs] at ht
      · simp [hs] at ht
      · simp [hs] at ht
      · exact hs.2
      · simp [hs] at ht

end Step

namespace Server

variable {st st' : Server}

/-- The commands that do no harm to the write interest: nothing is sent on a socket that is bound,
and a slot that still has the id of its last socket while it is reserved is not closed with
something queued on it. -/
def KeepsInterest (st : Server) : Label → Prop
  | .ctrl κ => ∀ r gen pipe, st.pipe = .request r gen :: pipe →
      ¬((st.slot (hashId r.id)).type = .bind ∧ r.SendsTo (st.slot (hashId r.id))) ∧
      ¬((st.slot (hashId r.id)).type = .reserve ∧ r.HalfCloses (st.slot (hashId r.id)) κ)
  | _ => True

theorem interested_update (h : ∀ i, Interested (st.slot i)) {i : Slot} {s : Socket}
    (hs : Interested s) (j : Slot) : Interested (Function.update st.slot i s j) :=
  (Function.forall_update_iff st.slot fun _ => Interested).mpr ⟨hs, fun j _ => h j⟩ j

theorem interested_reserve (h : ∀ i, Interested (st.slot i)) {pc : ReservePc}
    (hpc : ∀ r, pc ≠ .done r) (i : Slot) : Interested ((st.reserve pc).1.slot i) := by
  rcases reserve_cases st hpc with
    ⟨n, pc', heq, -⟩ | ⟨-, id, -, -, heq⟩ | ⟨id, -, heq⟩ | ⟨id, -, heq⟩
  · rw [heq]
    exact h i
  · rw [heq]
    exact interested_update h (.of_idle (Or.inr rfl)) i
  · have hid : Interested { st.slot (hashId id) with id } := { h (hashId id) with }
    rw [heq]
    exact interested_update h hid i
  · have hfd : Interested { st.slot (hashId id) with fd := none } := { h (hashId id) with }
    rw [heq]
    exact interested_update h hfd i

/-- **One step of the server.** -/
theorem interested_step (h : ∀ i, Interested (st.slot i)) {a : Label} (hok : st.KeepsInterest a)
    (hs : st.step a = .ok st') (i : Slot) : Interested (st'.slot i) := by
  cases step_cases hs with
  | command hpoll hpipe hrun =>
    obtain ⟨hbound, hreserve⟩ := hok _ _ _ hpipe
    exact interested_update h ((h _).effect (Request.effect hrun) hbound hreserve) i
  | opening hpoll hpipe hrun => exact interested_update h (.opening (Purpose.opening hrun)) i
  | entry hpoll hbatch hslot hrun =>
    have he : Effect _ False False False _ := dispatch_effect hrun
    exact interested_update h ((h _).effect he (fun hn => hn.2) fun hn => hn.2) i
  | accepted hpoll hrun => exact interested_update h (.opening (acceptSocket_opening hrun)) i
  | again hpoll => exact interested_update h (.of_idle (Or.inl rfl)) i
  | reserve ht hpc => exact interested_reserve h hpc i
  | acceptReserve hpoll hpc => exact interested_reserve h hpc i
  | call | callFd | refused | send | giveUp | request | pass | wait | skip | accept | acceptFails
  | notAccepted | purge | purged => exact h i

end Server

/-- **No stalled queue.** In every run of commands and entries, with any number of threads and any
answers of the kernel, in which nothing is sent on a bound socket and nothing queued is closed on a
slot that is only reserved, every open socket in the poller that has something queued is watched
for the write event. -/
theorem queued_writing {memory : Slot → Socket} {st : Server}
    (h : Transition.Reaches Server.step Server.KeepsInterest (.create memory) st) (i : Slot)
    (htype : (st.slot i).type.Sends) (hqueued : ¬(st.slot i).Empty) :
    (st.slot i).registered = true ∧ (st.slot i).writing = true := by
  have hinv : ∀ i, Interested (st.slot i) := by
    refine h.invariant ?_ fun _ _ _ hu hok hs => Server.interested_step hu hok hs
    exact fun _ => .of_idle (Or.inl rfl)
  exact ⟨(hinv i).registered htype, (hinv i).writing htype hqueued⟩

/-- A request to send two bytes on the socket 1. -/
def sendTwo : Request :=
  .send 1 ⟨100, 100, [1, 2], false⟩ .high

/-- The thread 0 opens a socket, with its steps of `reserve_id`, and sends two bytes on it. -/
def openAndSend (purpose : Purpose) (writes : List WriteResult) : List Label :=
  [.call 0 purpose] ++ List.replicate 6 (.thread 0) ++
    [.ctrl .fine, .request sendTwo maxSocket, .ctrl { Kernel.fine with writes }]

/-- The kernel takes one of two bytes sent on a connected socket. -/
theorem queued_writing_partial :
    ∃ st : Server, (st.slot (hashId 1)).high = [⟨100, 101, [2], false, []⟩] ∧
      (st.slot (hashId 1)).registered = true ∧ (st.slot (hashId 1)).writing = true := by
  have hrun : ∃ st, Transition.exec Server.step (.create Server.zeroed)
      (openAndSend (.connect 7) [.wrote 1]) = .ok st ∧ (st.slot (hashId 1)).type = .connected ∧
      (st.slot (hashId 1)).high = [⟨100, 101, [2], false, []⟩] := ⟨_, rfl, rfl, rfl⟩
  have hpermitted : Transition.Permitted Server.step Server.KeepsInterest
      (.create Server.zeroed) (openAndSend (.connect 7) [.wrote 1]) := by
    refine .cons trivial rfl <| .cons trivial rfl <| .cons trivial rfl <| .cons trivial rfl <|
      .cons trivial rfl <| .cons trivial rfl <| .cons trivial rfl <| .cons ?_ rfl <|
      .cons trivial rfl <| .cons ?_ rfl trivial
    · intro r gen pipe hpipe
      cases hpipe
    · intro r gen pipe hpipe
      cases hpipe
      exact ⟨fun h => (nomatch h.1), fun h => (nomatch h.1)⟩
  obtain ⟨st, hst, htype, hhigh⟩ := hrun
  refine ⟨st, hhigh, queued_writing (hpermitted.reaches hst) (hashId 1) (Or.inr (Or.inl htype)) ?_⟩
  rintro ⟨hnil, -⟩
  rw [hhigh] at hnil
  cases hnil

/-- **The claim fails on a bound socket.** A descriptor is bound, and two bytes are sent on it: they
are queued, and the write event stays off. -/
theorem bound_stalls :
    ∃ st, Transition.Reaches Server.step (fun _ _ => True) (.create Server.zeroed) st ∧
      (st.slot (hashId 1)).type = .bind ∧ (st.slot (hashId 1)).registered = true ∧
      ¬(st.slot (hashId 1)).Empty ∧ (st.slot (hashId 1)).writing = false := by
  have hrun : ∃ st, Transition.exec Server.step (.create Server.zeroed)
      (openAndSend (.bind 7 3) []) = .ok st ∧ (st.slot (hashId 1)).type = .bind ∧
      (st.slot (hashId 1)).registered = true ∧
      (st.slot (hashId 1)).high = [⟨100, 100, [1, 2], false, []⟩] ∧
      (st.slot (hashId 1)).writing = false :=
    ⟨_, rfl, rfl, rfl, rfl, rfl⟩
  obtain ⟨st, hst, htype, hregistered, hhigh, hwriting⟩ := hrun
  refine ⟨st, Transition.reaches_of_exec hst fun _ _ _ => trivial, htype, hregistered, ?_, hwriting⟩
  rintro ⟨hnil, -⟩
  rw [hhigh] at hnil
  cases hnil

end Mtask.SocketServer
