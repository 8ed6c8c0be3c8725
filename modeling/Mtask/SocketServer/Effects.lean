import Mtask.SocketServer.Server

/-!
# What commands and entries do to a slot

Every request and every entry of the poller has one of the effects listed in `Effect` on its slot,
and every opening one of the two of `Opening`. The functions of the slot are taken apart here, once.
-/

namespace Mtask.SocketServer

/-- Nothing is queued. -/
def Socket.Empty (s : Socket) : Prop :=
  s.high = [] ∧ s.low = []

theorem Socket.sendBufferEmpty_iff {s : Socket} : s.sendBufferEmpty = true ↔ s.Empty := by
  simp [Socket.sendBufferEmpty, Socket.Empty]

/-- Some of what is queued is sent, or nothing happens. -/
structure Sent (s s' : Socket) : Prop where
  type : s'.type = s.type
  fd : s'.fd = s.fd
  id : s'.id = s.id
  registered : s'.registered = s.registered
  empty : s.Empty → s'.Empty
  writing : s'.writing = s.writing ∨ s'.Empty

theorem Sent.refl (s : Socket) : Sent s s :=
  ⟨rfl, rfl, rfl, rfl, fun h => h, Or.inl rfl⟩

theorem Sent.trans {s s' s'' : Socket} (h : Sent s s') (h' : Sent s' s'') : Sent s s'' where
  type := h'.type.trans h.type
  fd := h'.fd.trans h.fd
  id := h'.id.trans h.id
  registered := h'.registered.trans h.registered
  empty hs := h'.empty (h.empty hs)
  writing := by
    rcases h'.writing with hw' | hw'
    · rcases h.writing with hw | hw
      · exact Or.inl (hw'.trans hw)
      · exact Or.inr (h'.empty hw)
    · exact Or.inr hw'

/-- `force_close` on a slot that is in use. -/
structure Closes (s : Socket) (out : Outcome) : Prop where
  live : s.type ≠ .invalid ∧ s.type ≠ .reserve
  type : out.socket.type = .invalid
  fd : out.socket.fd = s.fd
  id : out.socket.id = s.id
  registered : out.socket.registered = false
  empty : out.socket.Empty
  closed : out.closed = if s.type = .bind then none else s.fd
  report : out.report.isSome = true

/-- What a request or an entry may do to a slot. -/
inductive Effect (s : Socket) (sends halfCloses failsToStart : Prop) : Outcome → Prop
  | sent {s' : Socket} {report : Option Report} (h : Sent s s')
      (hconnecting : s.type = .connecting → s'.writing = s.writing) :
      Effect s sends halfCloses failsToStart ⟨report, s', none⟩
  | queued {s' : Socket} {report : Option Report} (hsends : sends)
      (htype : s.type = .reserve ∨ s.type = .connecting ∨ s.type = .connected ∨ s.type = .bind)
      (hsame : s'.type = s.type ∧ s'.fd = s.fd ∧ s'.id = s.id ∧ s'.registered = s.registered)
      (hwriting : s'.writing = true ∨
        s'.writing = s.writing ∧ (s.type = .connected → ¬s.Empty)) :
      Effect s sends halfCloses failsToStart ⟨report, s', none⟩
  | started {report : Option Report} {type : SocketType} {opaqueId : ℕ}
      (htype : s.type = .paccept ∧ type = .connected ∨ s.type = .plisten ∧ type = .listen) :
      Effect s sends halfCloses failsToStart
        ⟨report, { s with type, registered := true, writing := false, opaqueId }, none⟩
  | notStarted {report : Option Report} (hfails : failsToStart)
      (htype : s.type = .paccept ∨ s.type = .plisten) :
      Effect s sends halfCloses failsToStart ⟨report, { s with type := .invalid }, none⟩
  | connected {report : Option Report} {writing : Bool} (htype : s.type = .connecting)
      (hwriting : writing = s.writing ∨ s.Empty) :
      Effect s sends halfCloses failsToStart ⟨report, { s with type := .connected, writing }, none⟩
  | halfClosed {s' : Socket} {report : Option Report} (hcloses : halfCloses) (h : Sent s s')
      (hlive : s.type ≠ .invalid) (hqueued : ¬s.Empty ∧ ¬s'.Empty) :
      Effect s sends halfCloses failsToStart ⟨report, { s' with type := .halfclose }, none⟩
  | closed {out : Outcome} (h : Closes s out) : Effect s sends halfCloses failsToStart out

/-- What an opening may do to the slot of its id; `own` is the descriptor of the server that it is
for, if there is one. -/
inductive Opening (s : Socket) (id : Int32) (own : Option ℕ) : Outcome → Prop
  | failed {report : Option Report} :
      Opening s id own ⟨report, { s with type := .invalid }, own.map .own⟩
  | opened {s' : Socket} {report : Option Report} (hreserve : s.type = .reserve)
      (htype : s'.type = .plisten ∨ s'.type = .paccept ∨
        (s'.type = .connected ∨ s'.type = .connecting ∧ s'.writing = true ∨ s'.type = .bind) ∧
          s'.registered = true)
      (hid : s'.id = id) (hempty : s.Empty ∧ s'.Empty)
      (hfd : (∃ n, own = some n ∧ s'.fd = some (.own n) ∧ s'.type ≠ .bind) ∨
        own = none ∧ ∃ n, s'.fd = some (.user n) ∧ s'.type = .bind) :
      Opening s id own ⟨report, s', none⟩

/-! ### Sending -/

variable {e : Fault}

section Send

variable {s s' : Socket} {out : Outcome} {results : List WriteResult}

theorem Closes.of_sent (h : Sent s s') (hc : Closes s' out) : Closes s out where
  live := h.type ▸ hc.live
  type := hc.type
  fd := hc.fd.trans h.fd
  id := hc.id.trans h.id
  registered := hc.registered
  empty := hc.empty
  closed := by rw [hc.closed, h.type, h.fd]
  report := hc.report

variable {type : ReportType}

theorem forceClose_closes (hlive : s.type ≠ .invalid) (h : s.forceClose type = .ok out) :
    Closes s out := by
  rw [Socket.forceClose] at h
  split at h
  · exact absurd ‹_› hlive
  · cases h
  · next hreserve =>
    cases h
    exact ⟨⟨hlive, hreserve⟩, rfl, rfl, rfl, rfl, ⟨rfl, rfl⟩, rfl, rfl⟩

theorem forceClose_fault (h : s.forceClose type = .error e) :
    e = .closeReserve ∧ s.type = .reserve := by
  rw [Socket.forceClose] at h
  split at h
  · cases h
  · cases h
    exact ⟨rfl, ‹_›⟩
  · cases h

theorem drain_nil (protocol : Protocol) (results : List WriteResult) :
    (drain protocol [] results).rest = [] := by
  cases protocol <;> simp [drain, drainTcp, drainUdp]

theorem sendList_sent (pr : Priority) :
    Sent s (s.sendList pr (drain s.protocol (s.list pr) results)) := by
  cases pr with
  | high =>
    refine ⟨rfl, rfl, rfl, rfl, fun hs => ⟨?_, hs.2⟩, Or.inl rfl⟩
    change (drain s.protocol s.high results).rest = []
    rw [hs.1, drain_nil]
  | low =>
    refine ⟨rfl, rfl, rfl, rfl, fun hs => ⟨hs.1, ?_⟩, Or.inl rfl⟩
    change (drain s.protocol s.low results).rest = []
    rw [hs.2, drain_nil]

theorem raiseUncomplete_sent (h : s.raiseUncomplete = .ok s') : Sent s s' := by
  rw [Socket.raiseUncomplete] at h
  split at h
  · cases h
    exact .refl s
  · next tmp low hlow =>
    split_ifs at h
    cases h
    refine ⟨rfl, rfl, rfl, rfl, fun hs => ?_, Or.inl rfl⟩
    rw [hs.2] at hlow
    cases hlow

theorem sendBufferLow_ok (hhigh : s.high = []) (h : s.sendBufferLow results = .ok out) :
    ∃ s', Sent s s' ∧ (out = s'.quiet ∨ ∃ type, s'.forceClose type = .ok out) := by
  have hoff (hlow : s.low = []) : Sent s { s with writing := false } :=
    ⟨rfl, rfl, rfl, rfl, fun hs => hs, Or.inr ⟨hhigh, hlow⟩⟩
  rw [Socket.sendBufferLow] at h
  dsimp only at h
  split_ifs at h with hlow hfailed hcut hhalf
  · exact ⟨_, sendList_sent .low, Or.inr ⟨_, h⟩⟩
  · split at h
    · next s'' hraise =>
      cases h
      exact ⟨s'', (sendList_sent .low).trans (raiseUncomplete_sent hraise), Or.inl rfl⟩
    · cases h
  · cases h
    exact ⟨_, sendList_sent .low, Or.inl rfl⟩
  · exact ⟨_, hoff (not_not.mp hlow), Or.inr ⟨_, h⟩⟩
  · cases h
    exact ⟨_, hoff (not_not.mp hlow), Or.inl rfl⟩

theorem sendBuffer_ok (h : s.sendBuffer results = .ok out) :
    ∃ s', Sent s s' ∧ (out = s'.quiet ∨ ∃ type, s'.forceClose type = .ok out) := by
  rw [Socket.sendBuffer] at h
  dsimp only at h
  split_ifs at h with hcut hfailed hhigh
  · exact ⟨_, sendList_sent .high, Or.inr ⟨_, h⟩⟩
  · obtain ⟨s', hs', hout⟩ := sendBufferLow_ok hhigh h
    exact ⟨s', (sendList_sent .high).trans hs', hout⟩
  · cases h
    exact ⟨_, sendList_sent .high, Or.inl rfl⟩

theorem sendBuffer_cases (hlive : s.type ≠ .invalid) (h : s.sendBuffer results = .ok out) :
    (∃ s', Sent s s' ∧ out = s'.quiet) ∨ Closes s out := by
  obtain ⟨s', hs', rfl | ⟨type, hclose⟩⟩ := sendBuffer_ok h
  · exact Or.inl ⟨s', hs', rfl⟩
  · exact Or.inr ((forceClose_closes (hs'.type.symm ▸ hlive) hclose).of_sent hs')

/-- The assertions of `send_buffer`, and the one of `force_close` on a slot that is reserved. -/
def SendFault (s : Socket) (e : Fault) : Prop :=
  e = .lowUncomplete ∨ e = .highNotEmpty ∨ e = .closeReserve ∧ s.type = .reserve

theorem SendFault.of_close (h : s'.forceClose type = .error e) (hs' : s'.type = s.type) :
    SendFault s e :=
  Or.inr (Or.inr (hs' ▸ forceClose_fault h))

theorem sendBufferLow_fault (h : s.sendBufferLow results = .error e) : SendFault s e := by
  rw [Socket.sendBufferLow] at h
  dsimp only at h
  split_ifs at h with hlow hfailed hcut hhalf
  · exact .of_close h rfl
  · split at h
    · cases h
    · next he =>
      rw [Socket.raiseUncomplete] at he
      split at he
      · cases he
      · split_ifs at he
        cases he
        cases h
        exact Or.inr (Or.inl rfl)
  · exact .of_close h rfl

theorem sendBuffer_fault (h : s.sendBuffer results = .error e) : SendFault s e := by
  rw [Socket.sendBuffer] at h
  dsimp only at h
  split_ifs at h with hcut hfailed hhigh
  · exact Or.inl (Except.error.inj h).symm
  · exact .of_close h rfl
  · have hfault := sendBufferLow_fault h
    exact hfault

end Send

/-! ### Requests -/

namespace Request

/-- The request sends something on the socket. -/
def SendsTo (s : Socket) : Request → Prop
  | send id _ _ => s.id = id
  | sendUdp id _ _ => s.id = id
  | _ => False

/-- The request closes the socket, and something is queued that is not all sent at once. -/
def HalfCloses (s : Socket) (κ : Kernel) : Request → Prop
  | close id _ => s.id = id ∧ ¬s.Empty ∧
      ∃ s' : Socket, s.sendBuffer κ.writes = .ok s'.quiet ∧ ¬s'.Empty
  | _ => False

/-- The request starts the socket, and `sp_add` fails. -/
def FailsToStart (s : Socket) (κ : Kernel) : Request → Prop
  | start id _ => s.id = id ∧ κ.add = false
  | _ => False

end Request

section Requests

variable {s : Socket} {out : Outcome} {κ : Kernel}

theorem drop_sent (so : SendObject) : Sent s (s.drop so) :=
  ⟨rfl, rfl, rfl, rfl, fun hs => hs, Or.inl rfl⟩

theorem append_same (pr : Priority) (wb : WriteBuffer) :
    (s.append pr wb).type = s.type ∧ (s.append pr wb).fd = s.fd ∧ (s.append pr wb).id = s.id ∧
      (s.append pr wb).registered = s.registered ∧ (s.append pr wb).writing = s.writing := by
  cases pr <;> exact ⟨rfl, rfl, rfl, rfl, rfl⟩

variable {id : Int32} {address : Option (List UInt8)} {results : List WriteResult} {so : SendObject}
  {pr : Priority} {failsToStart : Prop}

theorem sendSocket_effect {id : Int32} {so : SendObject} {pr : Priority}
    {address : Option (List UInt8)} {results : List WriteResult} {halfCloses failsToStart : Prop}
    (h : s.sendSocket id so pr address results = .ok out) :
    Effect s (s.id = id) halfCloses failsToStart out := by
  unfold Socket.sendSocket at h
  split_ifs at h with hdead hlisten hdirect
  · cases h
    exact .sent (drop_sent so) fun _ => rfl
  · cases h
    exact .sent (drop_sent so) fun _ => rfl
  · -- the data is written directly
    obtain ⟨-, hconnected⟩ := hdirect
    have hid : s.id = id := by
      by_contra hne
      exact hdead (Or.inr (Or.inl hne))
    have hqueued {s' : Socket} (hsame : s'.type = s.type ∧ s'.fd = s.fd ∧ s'.id = s.id ∧
        s'.registered = s.registered) (hwriting : s'.writing = true) :
        Effect s (s.id = id) halfCloses failsToStart s'.quiet :=
      .queued hid (Or.inr (Or.inr (Or.inl hconnected))) hsame (Or.inl hwriting)
    have htcp (n : ℕ) : Effect s (s.id = id) halfCloses failsToStart (s.writeTcp so n).quiet := by
      rw [Socket.writeTcp]
      dsimp only
      split_ifs
      · exact .sent ⟨rfl, rfl, rfl, rfl, fun hs => hs, Or.inl rfl⟩ fun _ => rfl
      · exact hqueued ⟨rfl, rfl, rfl, rfl⟩ rfl
    have hudp (address : List UInt8) (result : Option ℕ) :
        Effect s (s.id = id) halfCloses failsToStart (s.writeUdp so pr address result).quiet := by
      unfold Socket.writeUdp
      dsimp only
      split_ifs
      · exact .sent ⟨rfl, rfl, rfl, rfl, fun hs => hs, Or.inl rfl⟩ fun _ => rfl
      · obtain ⟨htype, hfd, hid', hregistered, -⟩ := append_same
          (s := { s with datagrams := _ }) pr (so.node 0 address)
        exact hqueued ⟨htype, hfd, hid', hregistered⟩ rfl
    split at h
    · split at h
      · next hclose =>
        cases h
        have hlive : s.type ≠ .invalid := by simp [hconnected]
        exact .closed { forceClose_closes hlive hclose with }
      · cases h
    · cases h
      exact htcp _
    · cases h
      exact htcp 0
    · cases h
      exact hudp _ _
    · cases h
      exact hudp _ _
  · -- the data is queued
    have hid : s.id = id := by
      by_contra hne
      exact hdead (Or.inr (Or.inl hne))
    have htype : s.type = .reserve ∨ s.type = .connecting ∨ s.type = .connected ∨
        s.type = .bind := by
      cases hs : s.type <;> simp [hs] at hdead hlisten ⊢
    have hempty : s.type = .connected → ¬s.Empty := fun hs he =>
      hdirect ⟨Socket.sendBufferEmpty_iff.mpr he, hs⟩
    split at h
    all_goals
      cases h
      obtain ⟨htype', hfd, hid', hregistered, hwriting⟩ := append_same (s := s) pr (so.node 0 _)
      exact .queued hid htype ⟨htype', hfd, hid', hregistered⟩ (Or.inr ⟨hwriting, hempty⟩)

theorem sendSocket_fault (h : s.sendSocket id so pr address results = .error e) : False := by
  unfold Socket.sendSocket at h
  split_ifs at h with hdead hlisten hdirect
  · split at h
    · split at h
      · cases h
      · next hclose =>
        have hreserve := (forceClose_fault hclose).2
        rw [hdirect.2] at hreserve
        cases hreserve
    all_goals cases h
  · split at h <;> cases h

theorem forceClose_reported {s' : Socket} {r : Report} (hs' : Sent s s') (hlive : s.type ≠ .invalid)
    (h : (match s'.forceClose .close with
      | .ok out => (.ok { out with report := some r } : Except Fault Outcome)
      | .error e => .error e) = .ok out) : Closes s out := by
  split at h
  · next hclose =>
    cases h
    exact { (forceClose_closes (hs'.type.symm ▸ hlive) hclose).of_sent hs' with report := rfl }
  · cases h

variable {opaqueId : ℕ}

theorem closeSocket_effect {sends : Prop} (h : s.closeSocket id opaqueId κ.writes = .ok out) :
    Effect s sends ((Request.close id opaqueId).HalfCloses s κ) failsToStart out := by
  rw [Socket.closeSocket] at h
  by_cases hdead : s.type = .invalid ∨ s.id ≠ id
  · rw [if_pos hdead] at h
    cases h
    exact .sent (.refl s) fun _ => rfl
  obtain ⟨hlive, hid⟩ : s.type ≠ .invalid ∧ s.id = id := by
    rw [not_or, not_not] at hdead
    exact hdead
  rw [if_neg hdead] at h
  by_cases hempty : s.sendBufferEmpty = true
  · simp only [if_pos hempty, Socket.quiet, Option.isSome_none, Bool.false_eq_true, if_false] at h
    exact .closed (forceClose_reported (.refl s) hlive h)
  have hne : ¬s.Empty := fun he => hempty (Socket.sendBufferEmpty_iff.mpr he)
  rw [if_neg hempty] at h
  split at h
  · cases h
  · next out' hsend =>
    rcases sendBuffer_cases hlive hsend with ⟨s', hs', rfl⟩ | hcloses
    · rw [if_neg (by simp [Socket.quiet])] at h
      by_cases hempty' : s'.quiet.socket.sendBufferEmpty = true
      · rw [if_pos hempty'] at h
        exact .closed (forceClose_reported hs' hlive h)
      · rw [if_neg hempty'] at h
        cases h
        have hqueued : ¬s'.Empty := fun he => hempty' (Socket.sendBufferEmpty_iff.mpr he)
        exact .halfClosed ⟨hid, hne, s', hsend, hqueued⟩ hs' hlive ⟨hne, hqueued⟩
    · rw [if_pos hcloses.report] at h
      cases h
      exact .closed hcloses

theorem closeSocket_fault (h : s.closeSocket id opaqueId κ.writes = .error e) :
    s.id = id ∧ SendFault s e := by
  rw [Socket.closeSocket] at h
  by_cases hdead : s.type = .invalid ∨ s.id ≠ id
  · rw [if_pos hdead] at h
    cases h
  obtain ⟨hlive, hid⟩ : s.type ≠ .invalid ∧ s.id = id := by
    rw [not_or, not_not] at hdead
    exact hdead
  refine ⟨hid, ?_⟩
  rw [if_neg hdead] at h
  split at h
  · next hsend =>
    cases h
    split_ifs at hsend
    exact sendBuffer_fault hsend
  · next out' hsend =>
    have hs' : out'.report.isSome = true ∨ out'.socket.type = s.type := by
      split_ifs at hsend
      · cases hsend
        exact Or.inr rfl
      · rcases sendBuffer_cases hlive hsend with ⟨s', hs', rfl⟩ | hcloses
        · exact Or.inr hs'.type
        · exact Or.inl hcloses.report
    split_ifs at h with hreport hempty
    split at h
    · cases h
    · next hclose =>
      cases h
      exact .of_close hclose (hs'.resolve_left hreport)

theorem startSocket_effect {sends halfCloses : Prop} :
    Effect s sends halfCloses ((Request.start id opaqueId).FailsToStart s κ)
      (s.startSocket id opaqueId κ.add) := by
  rw [Socket.startSocket]
  split_ifs with hdead hpending hadd hpaccept hconnected
  · exact .sent (.refl s) fun _ => rfl
  · exact .started (Or.inl ⟨hpaccept, rfl⟩)
  · exact .started (Or.inr ⟨hpending.resolve_left hpaccept, rfl⟩)
  · rw [not_or, not_not] at hdead
    exact .notStarted ⟨hdead.2, Bool.eq_false_iff.mpr hadd⟩ hpending
  · exact .sent ⟨rfl, rfl, rfl, rfl, fun hs => hs, Or.inl rfl⟩ fun _ => rfl
  · exact .sent (.refl s) fun _ => rfl

variable {r : Request}

/-- **What a request does to the slot of its id.** -/
theorem Request.effect (h : r.run s κ = .ok out) :
    Effect s (r.SendsTo s) (r.HalfCloses s κ) (r.FailsToStart s κ) out := by
  cases r with
  | start id opaqueId =>
    cases h
    exact startSocket_effect
  | close id opaqueId => exact closeSocket_effect h
  | exit =>
    cases h
    exact .sent (.refl s) fun _ => rfl
  | send id so priority => exact sendSocket_effect h
  | sendUdp id so address => exact sendSocket_effect h
  | setUdp id address =>
    cases h
    rw [Socket.setUdpAddress]
    split_ifs
    all_goals exact .sent ⟨rfl, rfl, rfl, rfl, fun hs => hs, Or.inl rfl⟩ fun _ => rfl
  | setopt id =>
    cases h
    exact .sent (.refl s) fun _ => rfl

/-- The assertions that fail are the ones of `close_socket`. -/
theorem Request.fault (h : r.run s κ = .error e) : s.id = r.id ∧ SendFault s e := by
  cases r with
  | close id opaqueId => exact closeSocket_fault h
  | send id so priority => exact (sendSocket_fault h).elim
  | sendUdp id so address => exact (sendSocket_fault h).elim
  | start id opaqueId => cases h
  | exit => cases h
  | setUdp id address => cases h
  | setopt id => cases h

end Requests

/-! ### Entries -/

section Events

variable {s : Socket} {out : Outcome} {κ : Kernel} {sends halfCloses failsToStart : Prop}

theorem reportConnect_effect (hs : s.type = .connecting) {answer : Bool}
    (h : s.reportConnect answer = .ok out) : Effect s sends halfCloses failsToStart out := by
  rw [Socket.reportConnect] at h
  split_ifs at h with hconnected
  · dsimp only at h
    split_ifs at h with hempty
    · cases h
      exact .connected hs (Or.inr (Socket.sendBufferEmpty_iff.mp hempty))
    · cases h
      exact .connected hs (Or.inl rfl)
  · exact .closed (forceClose_closes (by simp [hs]) h)

theorem forwardMessageTcp_effect (hlive : s.type ≠ .invalid) {result : ReadResult}
    (h : s.forwardMessageTcp result = .ok out) : Effect s sends halfCloses failsToStart out := by
  unfold Socket.forwardMessageTcp at h
  split at h
  · cases h
    exact .sent (.refl s) fun _ => rfl
  · cases h
    exact .sent (.refl s) fun _ => rfl
  · exact .closed (forceClose_closes hlive h)
  · exact .closed (forceClose_closes hlive h)
  · split_ifs at h
    all_goals
      cases h
      exact .sent ⟨rfl, rfl, rfl, rfl, fun hs => hs, Or.inl rfl⟩ fun _ => rfl

theorem forwardMessageUdp_effect (hlive : s.type ≠ .invalid) {result : RecvResult}
    (h : s.forwardMessageUdp result = .ok out) : Effect s sends halfCloses failsToStart out := by
  unfold Socket.forwardMessageUdp at h
  split at h
  · cases h
    exact .sent (.refl s) fun _ => rfl
  · cases h
    exact .sent (.refl s) fun _ => rfl
  · exact .closed (forceClose_closes hlive h)
  · split_ifs at h
    all_goals
      cases h
      exact .sent (.refl s) fun _ => rfl

/-- **What an entry does to its slot.** -/
theorem dispatch_effect {read write : Bool} (h : s.dispatch read write κ = .ok out) :
    Effect s sends halfCloses failsToStart out := by
  unfold Socket.dispatch at h
  split at h
  · exact reportConnect_effect ‹_› h
  · cases h
    exact .sent (.refl s) fun _ => rfl
  · cases h
    exact .sent (.refl s) fun _ => rfl
  · next hconnecting hlisten hlive =>
    split_ifs at h
    · split at h
      · exact forwardMessageTcp_effect hlive h
      · exact forwardMessageUdp_effect hlive h
    · rcases sendBuffer_cases hlive h with ⟨s', hs', rfl⟩ | hcloses
      · exact .sent hs' fun hc => absurd hc hconnecting
      · exact .closed hcloses
    · cases h
      exact .sent (.refl s) fun _ => rfl

theorem dispatch_fault {read write : Bool} (h : s.dispatch read write κ = .error e) :
    SendFault s e := by
  unfold Socket.dispatch Socket.reportConnect at h
  split at h
  · split_ifs at h
    exact .of_close h rfl
  · cases h
  · cases h
  · split_ifs at h
    · split at h
      · unfold Socket.forwardMessageTcp at h
        split at h
        · cases h
        · cases h
        · exact .of_close h rfl
        · exact .of_close h rfl
        · split_ifs at h
      · unfold Socket.forwardMessageUdp at h
        split at h
        · cases h
        · cases h
        · exact .of_close h rfl
        · split_ifs at h
    · exact sendBuffer_fault h

end Events

/-! ### Openings -/

section Openings

variable {s : Socket} {out : Outcome} {id : Int32} {κ : Kernel}

/-- The descriptor of the server that an opening is for; `fresh` is the one that `open_socket`
opens. -/
def Purpose.own? (fresh : ℕ) (κ : Kernel) : Purpose → Option ℕ
  | connect _ => if κ.opening = .failed then none else some fresh
  | listen _ fd => some fd
  | bind _ _ => none
  | udp _ fd _ => some fd

/-- What `new_fd` leaves when it succeeds. -/
structure NewFd (s s' : Socket) (id : Int32) (fd : Fd) (add : Option Bool) : Prop where
  reserve : s.type = .reserve
  granted : add ≠ some false
  empty : s.Empty ∧ s'.Empty
  id : s'.id = id
  fd : s'.fd = some fd
  registered : s'.registered = add.isSome

/-- The assertions of `new_fd`. -/
def NewFdFault (s : Socket) (e : Fault) : Prop :=
  e = .notReserve ∨ e = .wbListNotEmpty ∧ s.type = .reserve ∧ ¬s.Empty

variable {fd : Fd} {protocol : Protocol} {opaqueId : ℕ} {add : Option Bool}

/-- What the callers of `new_fd` do with its result. -/
theorem newFd_cases {bad good : Socket → Outcome}
    (h : (match s.newFd id fd protocol opaqueId add with
      | .ok (false, s) => (.ok (bad s) : Except Fault Outcome)
      | .ok (true, s) => .ok (good s)
      | .error e => .error e) = .ok out) :
    add = some false ∧ out = bad { s with type := .invalid } ∨
      ∃ s', NewFd s s' id fd add ∧ out = good s' := by
  rw [Socket.newFd] at h
  split_ifs at h with hreserve hadd hqueued
  · cases h
    exact Or.inl ⟨hadd, rfl⟩
  · rw [not_or, not_not, not_not] at hqueued
    refine Or.inr ⟨_, ?_, (Except.ok.inj h).symm⟩
    exact ⟨not_not.mp hreserve, hadd, ⟨hqueued, hqueued⟩, rfl, rfl, rfl⟩

theorem newFd_fault {bad good : Socket → Outcome}
    (h : (match s.newFd id fd protocol opaqueId add with
      | .ok (false, s) => (.ok (bad s) : Except Fault Outcome)
      | .ok (true, s) => .ok (good s)
      | .error e => .error e) = .error e) : NewFdFault s e := by
  rw [Socket.newFd] at h
  split_ifs at h with hreserve hadd hqueued
  · exact Or.inl (Except.error.inj h).symm
  · refine Or.inr ⟨(Except.error.inj h).symm, not_not.mp hreserve, fun he => ?_⟩
    exact hqueued.elim (absurd he.1) (absurd he.2)

variable {fresh : ℕ}

theorem openSocket_opening (h : (Purpose.connect opaqueId).run s id fresh κ = .ok out) :
    Opening s id ((Purpose.connect opaqueId).own? fresh κ) out := by
  change s.openSocket id opaqueId κ.opening (.own fresh) κ.add = _ at h
  rw [Purpose.own?]
  unfold Socket.openSocket at h
  split at h
  · next hfailed =>
    cases h
    rw [if_pos hfailed]
    exact .failed
  · next hconnected =>
    rw [if_neg (by simp [hconnected])]
    obtain ⟨-, rfl⟩ | ⟨s', hs', rfl⟩ := newFd_cases h
    · exact .failed
    · exact .opened hs'.reserve (Or.inr (Or.inr ⟨Or.inl rfl, hs'.registered⟩)) hs'.id hs'.empty
        (Or.inl ⟨fresh, rfl, hs'.fd, nofun⟩)
  · next hprogress =>
    rw [if_neg (by simp [hprogress])]
    obtain ⟨-, rfl⟩ | ⟨s', hs', rfl⟩ := newFd_cases h
    · exact .failed
    · exact .opened hs'.reserve (Or.inr (Or.inr ⟨Or.inr (Or.inl ⟨rfl, rfl⟩), hs'.registered⟩))
        hs'.id hs'.empty (Or.inl ⟨fresh, rfl, hs'.fd, nofun⟩)

variable {purpose : Purpose}

/-- **What an opening does to the slot of its id.** -/
theorem Purpose.opening (h : purpose.run s id fresh κ = .ok out) :
    Opening s id (purpose.own? fresh κ) out := by
  cases purpose with
  | connect opaqueId => exact openSocket_opening h
  | listen opaqueId fd =>
    obtain ⟨⟨⟩, -⟩ | ⟨s', hs', rfl⟩ := newFd_cases h
    exact .opened hs'.reserve (Or.inl rfl) hs'.id hs'.empty (Or.inl ⟨fd, rfl, hs'.fd, nofun⟩)
  | bind opaqueId fd =>
    obtain ⟨-, rfl⟩ | ⟨s', hs', rfl⟩ := newFd_cases h
    · exact .failed
    · exact .opened hs'.reserve (Or.inr (Or.inr ⟨Or.inr (Or.inr rfl), hs'.registered⟩)) hs'.id
        hs'.empty (Or.inr ⟨rfl, fd, hs'.fd, rfl⟩)
  | udp opaqueId fd v6 =>
    obtain ⟨-, rfl⟩ | ⟨s', hs', rfl⟩ := newFd_cases h
    · exact .failed
    · exact .opened hs'.reserve (Or.inr (Or.inr ⟨Or.inl rfl, hs'.registered⟩)) hs'.id hs'.empty
        (Or.inl ⟨fd, rfl, hs'.fd, nofun⟩)

/-- A slot that is marked once more is not in use. -/
theorem Purpose.marked (hmarks : purpose.marksAgain κ = true)
    (h : purpose.run s id fresh κ = .ok out) : out.socket.type = .invalid := by
  cases purpose with
  | connect opaqueId =>
    obtain ⟨hopening, hadd⟩ : κ.opening ≠ .failed ∧ κ.add = false := by
      simpa [Purpose.marksAgain] using hmarks
    change s.openSocket id opaqueId κ.opening (.own fresh) κ.add = _ at h
    unfold Socket.openSocket at h
    split at h
    · exact absurd ‹_› hopening
    all_goals
      obtain ⟨-, rfl⟩ | ⟨s', hs', rfl⟩ := newFd_cases h
      · rfl
      · exact absurd (congrArg some hadd) hs'.granted
  | listen opaqueId fd => cases hmarks
  | bind opaqueId fd => cases hmarks
  | udp opaqueId fd v6 =>
    have hadd : κ.add = false := by simpa [Purpose.marksAgain] using hmarks
    obtain ⟨-, rfl⟩ | ⟨s', hs', rfl⟩ := newFd_cases h
    · rfl
    · exact absurd (congrArg some hadd) hs'.granted

theorem Purpose.fault (h : purpose.run s id fresh κ = .error e) : NewFdFault s e := by
  cases purpose with
  | connect opaqueId =>
    change s.openSocket id opaqueId κ.opening (.own fresh) κ.add = _ at h
    unfold Socket.openSocket at h
    split at h
    · cases h
    · exact newFd_fault h
    · exact newFd_fault h
  | listen opaqueId fd => exact newFd_fault h
  | bind opaqueId fd => exact newFd_fault h
  | udp opaqueId fd v6 => exact newFd_fault h

variable {listener : Socket}

theorem acceptSocket_opening {n : ℕ} (h : Server.acceptSocket s listener id n = .ok out) :
    Opening s id (some n) out := by
  obtain ⟨⟨⟩, -⟩ | ⟨s', hs', rfl⟩ := newFd_cases h
  exact .opened hs'.reserve (Or.inr (Or.inl rfl)) hs'.id hs'.empty (Or.inl ⟨n, rfl, hs'.fd, nofun⟩)

theorem acceptSocket_fault {n : ℕ} (h : Server.acceptSocket s listener id n = .error e) :
    NewFdFault s e :=
  newFd_fault h

end Openings

/-! ### What stays -/

theorem Effect.dead {s : Socket} {out : Outcome} {sends halfCloses failsToStart : Prop}
    (h : Effect s sends halfCloses failsToStart out) (hs : s.type = .invalid) :
    out.socket.type = .invalid := by
  cases h with
  | sent h _ => exact h.type.trans hs
  | queued _ _ hsame _ => exact hsame.1.trans hs
  | started htype =>
    rcases htype with ⟨ht, -⟩ | ⟨ht, -⟩
    all_goals
      rw [hs] at ht
      cases ht
  | notStarted _ _ => rfl
  | connected htype _ =>
    rw [hs] at htype
    cases htype
  | halfClosed _ _ hlive _ => exact absurd hs hlive
  | closed h => exact h.type

theorem Opening.dead {s : Socket} {out : Outcome} {id : Int32} {own : Option ℕ}
    (h : Opening s id own out) (hs : s.type = .invalid) : out.socket.type = .invalid := by
  cases h with
  | failed => rfl
  | opened hreserve _ _ _ _ =>
    rw [hs] at hreserve
    cases hreserve

theorem Effect.id {s : Socket} {out : Outcome} {sends halfCloses failsToStart : Prop}
    (h : Effect s sends halfCloses failsToStart out) : out.socket.id = s.id := by
  cases h with
  | sent h _ => exact h.id
  | queued _ _ hsame _ => exact hsame.2.2.1
  | started _ => rfl
  | notStarted _ _ => rfl
  | connected _ _ => rfl
  | halfClosed _ h _ _ => exact h.id
  | closed h => exact h.id

end Mtask.SocketServer
