import Mtask.SocketServer.Server

/-!
# Closing a socket gracefully

A TCP socket from the command `K` on. What was accepted before is still written, over any number of
write events, while the slot is in `SOCKET_TYPE_HALFCLOSE`; what is sent afterwards is refused. The
kernel may answer anything, and any command may follow, also another `K`.
-/

namespace Mtask.SocketServer

open Transition (Reaches)
open List

/-! ### Runs -/

/-- The bytes of a list that are not written. -/
def unsent (list : List WriteBuffer) : List UInt8 :=
  list.flatMap WriteBuffer.bytes

/-- What one step did: the type of the slot before and after it, and the report. -/
structure StepLog where
  before : SocketType
  after : SocketType
  report : Option Report
  deriving DecidableEq, Repr

/-- The socket since the command `K`: whether a write or a read has failed or the peer has closed,
the descriptors closed, the requests to send, and the steps. -/
structure Closing where
  socket : Socket
  failed : Bool
  closed : List Fd
  refused : List SendObject
  log : List StepLog

inductive CloseOp
  | request (r : Request) (κ : Kernel)
  | event (read write : Bool) (κ : Kernel)

/-- The object of a request to send. -/
def Request.object : Request → Option SendObject
  | send _ so _ => some so
  | sendUdp _ so _ => some so
  | _ => none

/-- `ctrl_cmd`, or the switch of `socket_server_poll`. -/
def CloseOp.run (s : Socket) : CloseOp → Except Fault Outcome
  | request r κ => r.run s κ
  | event read write κ => s.dispatch read write κ

/-- The object of a request to send. -/
def CloseOp.object : CloseOp → Option SendObject
  | request r _ => r.object
  | event _ _ _ => none

/-- A write or a read fails, or the peer has closed. -/
def CloseOp.fails : CloseOp → Bool
  | request (.close _ _) κ => κ.writes.contains .error
  | request _ _ => false
  | event true _ κ => κ.read = .error ∨ κ.read = .got 0
  | event false true κ => κ.writes.contains .error
  | event false false _ => false

namespace Closing

/-- A step that ends with `out`. -/
def after (st : Closing) (fails : Bool) (refused : Option SendObject) (out : Outcome) : Closing where
  socket := out.socket
  failed := st.failed || fails
  closed := st.closed ++ out.closed.toList
  refused := st.refused ++ refused.toList
  log := st.log ++ [⟨st.socket.type, out.socket.type, out.report⟩]

def step (st : Closing) (op : CloseOp) : Except Fault Closing :=
  match op.run st.socket with
  | .error e => .error e
  | .ok out => .ok (st.after op.fails op.object out)

/-- The socket before the command `K`. -/
def before (s : Socket) : Closing where
  socket := s
  failed := false
  closed := []
  refused := []
  log := []

/-- The command `K`. -/
def close (s : Socket) (opaqueId : ℕ) (κ : Kernel) : Except Fault Closing :=
  (before s).step (.request (.close s.id opaqueId) κ)

end Closing

/-- What became of the socket `s` that was closed. -/
structure Graceful (s : Socket) (st : Closing) : Prop where
  /-- what was accepted is written in the order of the lists, all of it unless something failed -/
  written : ∃ rest, st.socket.stream ++ rest = s.stream ++ unsent (s.high ++ s.low) ∧
    (st.socket.type = .invalid → st.failed = false → rest = [])
  /-- the descriptor is closed when the slot becomes `SOCKET_TYPE_INVALID` -/
  closed : st.closed = if st.socket.type = .invalid then s.fd.toList else []
  /-- the queued buffers are freed, and every buffer sent since, each one once -/
  freed : ∃ gone, (s.high ++ s.low).map WriteBuffer.free =
      gone ++ (st.socket.high ++ st.socket.low).map WriteBuffer.free ∧
    st.socket.freed.Perm (s.freed ++ gone ++ st.refused.map SendObject.free)
  /-- what is read is not handed on -/
  discarded : ∀ e ∈ st.log, ∀ r, e.report = some r → r.type ≠ .data
  /-- the end is reported in the step in which it comes -/
  reported : ∀ e ∈ st.log, e.before ≠ .invalid → e.after = .invalid →
    ∃ r, e.report = some r ∧ (r.type = .close ∨ r.type = .error) ∧ r.id = s.id

/-! ### The loop of `send_list_tcp` -/

/-- The node was not sent in part, and it is no user object whose buffer lies somewhere else. -/
def WriteBuffer.Complete (wb : WriteBuffer) : Prop :=
  wb.ptr = wb.buffer

theorem unsent_append (l l' : List WriteBuffer) : unsent (l ++ l') = unsent l ++ unsent l' :=
  flatMap_append

section Drain

variable {list : List WriteBuffer} {results : List WriteResult}

/-- **The loop**: what it writes and what it leaves are the bytes of the list, what it frees and
what it leaves are the nodes; only the first node that is left may be cut. -/
theorem drainTcp_spec :
    (drainTcp list results).written ++ unsent (drainTcp list results).rest = unsent list ∧
      (drainTcp list results).freed ++ (drainTcp list results).rest.map WriteBuffer.free =
        list.map WriteBuffer.free ∧
      (∀ wb ∈ (drainTcp list results).rest.tail, wb ∈ list) ∧
      ((drainTcp list results).failed = true → .error ∈ results) ∧
      ∀ r ∈ (drainTcp list results).results, r ∈ results := by
  induction results generalizing list with
  | nil =>
    rcases list with _ | ⟨tmp, list⟩
    · exact ⟨rfl, rfl, nofun, nofun, fun r h => h⟩
    · exact ⟨rfl, rfl, fun wb h => mem_cons_of_mem _ h, nofun, fun r h => h⟩
  | cons result results ih =>
    rcases list with _ | ⟨tmp, list⟩
    · exact ⟨rfl, rfl, nofun, nofun, fun r h => h⟩
    · rcases result with n | _ | _ | _
      · rw [drainTcp]
        split_ifs with hn
        · refine ⟨?_, rfl, fun wb h => mem_cons_of_mem _ h, nofun,
            fun r h => mem_cons_of_mem _ h⟩
          simp [unsent, ← append_assoc]
        · obtain ⟨hwritten, hfreed, htail, hfailed, hleft⟩ := @ih list
          refine ⟨?_, congrArg (tmp.free :: ·) hfreed,
            fun wb h => mem_cons_of_mem _ (htail wb h),
            fun h => mem_cons_of_mem _ (hfailed h),
            fun r h => mem_cons_of_mem _ (hleft r h)⟩
          rw [append_assoc, hwritten]
          rfl
      · exact ⟨rfl, rfl, fun wb h => mem_cons_of_mem _ h, nofun,
          fun r h => mem_cons_of_mem _ h⟩
      · obtain ⟨hwritten, hfreed, htail, hfailed, hleft⟩ := @ih (tmp :: list)
        exact ⟨hwritten, hfreed, htail, fun h => mem_cons_of_mem _ (hfailed h),
          fun r h => mem_cons_of_mem _ (hleft r h)⟩
      · exact ⟨rfl, rfl, fun wb h => mem_cons_of_mem _ h, fun _ => mem_cons_self,
          fun r h => mem_cons_of_mem _ h⟩

theorem listUncomplete_of_complete (h : ∀ wb ∈ list, wb.Complete) : listUncomplete list = false := by
  rcases list with _ | ⟨wb, list⟩
  · rfl
  · exact decide_eq_false (not_not.mpr (h wb mem_cons_self))

end Drain

/-! ### The functions on a TCP socket -/

/-- Some of what is queued is written, in the order of the lists. -/
structure Flows (s s' : Socket) : Prop where
  protocol : s'.protocol = s.protocol
  fd : s'.fd = s.fd
  id : s'.id = s.id
  stream : ∃ w, s'.stream = s.stream ++ w ∧
    w ++ unsent (s'.high ++ s'.low) = unsent (s.high ++ s.low)
  freed : ∃ gone, s'.freed = s.freed ++ gone ∧
    gone ++ (s'.high ++ s'.low).map WriteBuffer.free = (s.high ++ s.low).map WriteBuffer.free

namespace Flows

variable {s s' s'' : Socket}

theorem of_lists (hprotocol : s'.protocol = s.protocol) (hfd : s'.fd = s.fd) (hid : s'.id = s.id)
    (hstream : s'.stream = s.stream) (hfreed : s'.freed = s.freed)
    (hlists : s'.high ++ s'.low = s.high ++ s.low) : Flows s s' where
  protocol := hprotocol
  fd := hfd
  id := hid
  stream := ⟨[], by rw [hstream, append_nil], by rw [hlists, nil_append]⟩
  freed := ⟨[], by rw [hfreed, append_nil], by rw [hlists, nil_append]⟩

theorem refl (s : Socket) : Flows s s :=
  of_lists rfl rfl rfl rfl rfl rfl

theorem trans (h : Flows s s') (h' : Flows s' s'') : Flows s s'' := by
  obtain ⟨w, hw, hunsent⟩ := h.stream
  obtain ⟨w', hw', hunsent'⟩ := h'.stream
  obtain ⟨gone, hgone, hnodes⟩ := h.freed
  obtain ⟨gone', hgone', hnodes'⟩ := h'.freed
  refine ⟨h'.protocol.trans h.protocol, h'.fd.trans h.fd, h'.id.trans h.id,
    ⟨w ++ w', ?_, ?_⟩, gone ++ gone', ?_, ?_⟩
  · rw [hw', hw, append_assoc]
  · rw [append_assoc, hunsent', hunsent]
  · rw [hgone', hgone, append_assoc]
  · rw [append_assoc, hnodes', hnodes]

theorem sendHigh (s : Socket) (results : List WriteResult) :
    Flows s (s.sendList .high (drainTcp s.high results)) := by
  obtain ⟨hwritten, hfreed, -⟩ := @drainTcp_spec s.high results
  have hhigh : (s.sendList .high (drainTcp s.high results)).high =
      (drainTcp s.high results).rest := rfl
  have hlow : (s.sendList .high (drainTcp s.high results)).low = s.low := rfl
  refine ⟨rfl, rfl, rfl, ⟨_, rfl, ?_⟩, _, rfl, ?_⟩
  · rw [hhigh, hlow, unsent_append, unsent_append, ← append_assoc, hwritten]
  · rw [hhigh, hlow, map_append, map_append, ← append_assoc, hfreed]

theorem sendLow (hnil : s.high = []) (results : List WriteResult) :
    Flows s (s.sendList .low (drainTcp s.low results)) := by
  obtain ⟨hwritten, hfreed, -⟩ := @drainTcp_spec s.low results
  have hhigh : (s.sendList .low (drainTcp s.low results)).high = [] := hnil
  have hlow : (s.sendList .low (drainTcp s.low results)).low = (drainTcp s.low results).rest := rfl
  refine ⟨rfl, rfl, rfl, ⟨_, rfl, ?_⟩, _, rfl, ?_⟩
  · rw [hhigh, hlow, hnil, nil_append, nil_append, hwritten]
  · rw [hhigh, hlow, hnil, nil_append, nil_append, hfreed]

end Flows

/-- What `force_close` leaves of an open slot. -/
def Socket.shut (s : Socket) : Socket :=
  { s with
    freed := s.freed ++ s.high.map WriteBuffer.free ++ s.low.map WriteBuffer.free
    high := []
    low := []
    registered := false
    writing := false
    type := .invalid }

section Functions

variable {s : Socket} {results : List WriteResult}

/-- The slot is connected, or half closed. -/
def IsOpen (s : Socket) : Prop :=
  s.type = .connected ∨ s.type = .halfclose

theorem forceClose_of_isOpen (hopen : IsOpen s) (type : ReportType) :
    s.forceClose type = .ok ⟨some (s.report type 0), s.shut, s.fd⟩ := by
  rcases hopen with h | h <;> rw [Socket.forceClose, h] <;> simp [h, Socket.shut]

/-- How `send_buffer` ends: the slot stays, or it is closed, since a write has failed or since
nothing is left to write before the end. -/
inductive SendEnd (s s' : Socket) (results : List WriteResult) : Outcome → Prop
  | stays (htype : s'.type = s.type) (hcomplete : ∀ wb ∈ s'.low, wb.Complete) :
      SendEnd s s' results s'.quiet
  | closed (h : .error ∈ results ∨ s.type = .halfclose ∧ s'.high ++ s'.low = []) :
      SendEnd s s' results ⟨some (s'.report .close 0), s'.shut, s'.fd⟩

/-- The steps of `send_buffer` behind an empty list of high priority. -/
theorem sendBufferLow_tcp (htcp : s.protocol = .tcp) (hopen : IsOpen s) (hhigh : s.high = [])
    (hcomplete : ∀ wb ∈ s.low, wb.Complete) :
    ∃ s' out, s.sendBufferLow results = .ok out ∧ Flows s s' ∧ SendEnd s s' results out := by
  rw [Socket.sendBufferLow]
  by_cases hlow : s.low = []
  · rw [if_neg (not_not.mpr hlow)]
    have hflows : Flows s { s with writing := false } := .of_lists rfl rfl rfl rfl rfl rfl
    dsimp only
    split_ifs with hhalf
    · exact ⟨_, _, @forceClose_of_isOpen { s with writing := false } (Or.inr hhalf) .close, hflows,
        .closed (Or.inr ⟨hhalf, by simp [hhigh, hlow]⟩)⟩
    · exact ⟨_, _, rfl, hflows, .stays rfl hcomplete⟩
  · rw [if_pos hlow]
    simp only [htcp, drain]
    have hflows := Flows.sendLow hhigh results
    obtain ⟨-, -, htail, hfailed, -⟩ := @drainTcp_spec s.low results
    have hhigh' : (s.sendList .low (drainTcp s.low results)).high = [] := hhigh
    have hlow' : (s.sendList .low (drainTcp s.low results)).low =
        (drainTcp s.low results).rest := rfl
    rw [hlow']
    split_ifs with hfail hcut
    · have hopen' : IsOpen (s.sendList .low (drainTcp s.low results)) := hopen
      exact ⟨_, _, forceClose_of_isOpen hopen' .close, hflows, .closed (Or.inl (hfailed hfail))⟩
    · rw [Socket.raiseUncomplete]
      rcases hrest : (drainTcp s.low results).rest with _ | ⟨tmp, rest⟩
      · simp [hrest, listUncomplete] at hcut
      · rw [hlow', hrest, hhigh']
        rw [hrest] at htail
        refine ⟨{ s.sendList .low (drainTcp s.low results) with high := [tmp], low := rest }, _, rfl,
          hflows.trans (.of_lists rfl rfl rfl rfl rfl ?_),
          .stays rfl fun wb hwb => hcomplete wb (htail wb hwb)⟩
        rw [hhigh', hlow', hrest]
        rfl
    · refine ⟨_, _, rfl, hflows, .stays rfl fun wb hwb => ?_⟩
      rw [hlow'] at hwb
      rcases hrest : (drainTcp s.low results).rest with _ | ⟨tmp, rest⟩
      · simp [hrest] at hwb
      · rw [hrest] at hwb hcut htail
        rcases mem_cons.mp hwb with rfl | hwb
        · exact not_not.mp fun hne => hcut (decide_eq_true hne)
        · exact hcomplete wb (htail wb hwb)

/-- **`send_buffer` on an open TCP socket.** Its assertion holds if the list of low priority has
complete nodes only. -/
theorem sendBuffer_tcp (htcp : s.protocol = .tcp) (hopen : IsOpen s)
    (hcomplete : ∀ wb ∈ s.low, wb.Complete) :
    ∃ s' out, s.sendBuffer results = .ok out ∧ Flows s s' ∧ SendEnd s s' results out := by
  rw [Socket.sendBuffer, if_neg (by simp [listUncomplete_of_complete hcomplete])]
  simp only [htcp, drain]
  have hflows := Flows.sendHigh s results
  obtain ⟨-, -, -, hfailed, hleft⟩ := @drainTcp_spec s.high results
  have hopen' : IsOpen (s.sendList .high (drainTcp s.high results)) := hopen
  split_ifs with hfail hdone
  · exact ⟨_, _, forceClose_of_isOpen hopen' .close, hflows, .closed (Or.inl (hfailed hfail))⟩
  · obtain ⟨s', out, heq, hflows', hend⟩ :=
      @sendBufferLow_tcp (s.sendList .high (drainTcp s.high results))
        (drainTcp s.high results).results htcp hopen' hdone hcomplete
    refine ⟨s', out, heq, hflows.trans hflows', ?_⟩
    cases hend with
    | stays htype hcomplete' => exact .stays htype hcomplete'
    | closed h => exact .closed (h.imp_left (hleft _))
  · exact ⟨_, _, rfl, hflows, .stays rfl hcomplete⟩

/-- How a step after the command `K` ends: some of what is queued is written, a package is refused,
or the slot is closed, since something has failed or all is written. -/
inductive CloseEffect (s : Socket) (op : CloseOp) : Outcome → Prop
  | stays {s' : Socket} {report : Option Report} (hobject : op.object = none) (hflows : Flows s s')
      (htype : s'.type = .halfclose) (hcomplete : ∀ wb ∈ s'.low, wb.Complete)
      (hreport : ∀ r, report = some r → r.type ≠ .data) : CloseEffect s op ⟨report, s', none⟩
  | refuses {so : SendObject} (hobject : op.object = some so) (htype : s.type = .halfclose) :
      CloseEffect s op (s.drop so).quiet
  | ends {s' : Socket} {r : Report} (hobject : op.object = none) (hflows : Flows s s')
      (hreport : (r.type = .close ∨ r.type = .error) ∧ r.id = s.id)
      (hend : op.fails = true ∨ s'.high ++ s'.low = []) :
      CloseEffect s op ⟨some r, s'.shut, s'.fd⟩

/-- A step that changes neither the lists nor what is written. -/
theorem CloseEffect.same {op : CloseOp} {s' : Socket} {report : Option Report}
    (hobject : op.object = none) (hflows : Flows s s') (htype : s'.type = .halfclose)
    (hlow : s'.low = s.low) (hcomplete : ∀ wb ∈ s.low, wb.Complete)
    (hreport : ∀ r, report = some r → r.type ≠ .data) : CloseEffect s op ⟨report, s', none⟩ :=
  .stays hobject hflows htype (hlow ▸ hcomplete) hreport

/-- **The command `K`** on an open socket, or for another socket. -/
theorem close_effect (htcp : s.protocol = .tcp) (hopen : IsOpen s)
    (hcomplete : ∀ wb ∈ s.low, wb.Complete) {id : Int32} (hid : s.type = .halfclose ∨ s.id = id)
    (opaqueId : ℕ) (κ : Kernel) : ∃ out, s.closeSocket id opaqueId κ.writes = .ok out ∧
      CloseEffect s (.request (.close id opaqueId) κ) out := by
  have hlive : s.type ≠ .invalid := by rcases hopen with h | h <;> simp [h]
  rw [Socket.closeSocket]
  by_cases hother : s.id = id
  case neg =>
    rw [if_pos (Or.inr hother)]
    exact ⟨_, rfl, .same rfl (.refl s) (hid.resolve_right hother) rfl hcomplete
      fun r hr => by rw [← Option.some.inj hr]; nofun⟩
  rw [if_neg (not_or.mpr ⟨hlive, not_not.mpr hother⟩)]
  by_cases hempty : s.sendBufferEmpty = true
  · rw [if_pos hempty]
    have hlists : s.high ++ s.low = [] := by
      simp only [Socket.sendBufferEmpty, Bool.and_eq_true, List.isEmpty_iff] at hempty
      rw [hempty.1, hempty.2]
      rfl
    simp only [Socket.quiet, Option.isSome_none, Bool.false_eq_true, if_false, hempty, if_true,
      forceClose_of_isOpen hopen]
    refine ⟨_, rfl, ?_⟩
    exact .ends rfl (.refl s) ⟨Or.inl rfl, hother.symm⟩ (Or.inr hlists)
  · rw [if_neg hempty]
    obtain ⟨s', out, heq, hflows, hend⟩ := @sendBuffer_tcp s κ.writes htcp hopen hcomplete
    rw [heq]
    cases hend with
    | stays htype hcomplete' =>
      simp only [Socket.quiet, Option.isSome_none, Bool.false_eq_true, if_false]
      have hopen' : IsOpen s' := by rwa [IsOpen, htype]
      by_cases hdone : s'.sendBufferEmpty = true
      · have hlists : s'.high ++ s'.low = [] := by
          simp only [Socket.sendBufferEmpty, Bool.and_eq_true, List.isEmpty_iff] at hdone
          rw [hdone.1, hdone.2]
          rfl
        simp only [hdone, if_true, forceClose_of_isOpen hopen']
        refine ⟨_, rfl, ?_⟩
        exact .ends rfl hflows ⟨Or.inl rfl, hother.symm⟩ (Or.inr hlists)
      · have hhalf : Flows s' { s' with type := .halfclose } := .of_lists rfl rfl rfl rfl rfl rfl
        simp only [hdone, if_false]
        refine ⟨_, rfl, ?_⟩
        exact .stays rfl (hflows.trans hhalf) rfl hcomplete' nofun
    | closed h =>
      simp only [Option.isSome_some, if_true]
      refine ⟨_, rfl, .ends rfl hflows ⟨Or.inl rfl, hflows.id⟩ (h.imp ?_ And.right)⟩
      exact fun h => contains_iff_mem.mpr h

theorem sendSocket_refused (htype : s.type = .halfclose) (id : Int32) (so : SendObject)
    (priority : Priority) (address : Option (List UInt8)) :
    s.sendSocket id so priority address results = .ok (s.drop so).quiet := by
  unfold Socket.sendSocket
  exact if_pos (Or.inr (Or.inr (Or.inl htype)))

section

variable (htcp : s.protocol = .tcp) (htype : s.type = .halfclose)
  (hcomplete : ∀ wb ∈ s.low, wb.Complete)
include htcp htype hcomplete

/-- **A command behind the command `K`.** -/
theorem request_effect (r : Request) (κ : Kernel) :
    ∃ out, r.run s κ = .ok out ∧ CloseEffect s (.request r κ) out := by
  cases r with
  | start id opaqueId =>
    refine ⟨_, rfl, ?_⟩
    rw [Socket.startSocket]
    by_cases hdead : s.type = .invalid ∨ s.id ≠ id
    · rw [if_pos hdead]
      exact .same rfl (.refl s) htype rfl hcomplete fun r hr => by rw [← Option.some.inj hr]; nofun
    · rw [if_neg hdead, if_neg (by simp [htype]), if_neg (by simp [htype])]
      exact .same rfl (.refl s) htype rfl hcomplete nofun
  | close id opaqueId => exact close_effect htcp (Or.inr htype) hcomplete (Or.inl htype) opaqueId κ
  | exit =>
    exact ⟨_, rfl, .same rfl (.refl s) htype rfl hcomplete
      fun r hr => by rw [← Option.some.inj hr]; nofun⟩
  | send id so priority => exact ⟨_, sendSocket_refused htype id so priority none, .refuses rfl htype⟩
  | sendUdp id so address =>
    exact ⟨_, sendSocket_refused htype id so .high (some address), .refuses rfl htype⟩
  | setUdp id address =>
    refine ⟨_, rfl, ?_⟩
    rw [Socket.setUdpAddress]
    split_ifs
    · exact .same rfl (.refl s) htype rfl hcomplete nofun
    · exact .same rfl (.refl s) htype rfl hcomplete fun r hr => by
        rw [← Option.some.inj hr, Socket.report]; nofun
    · exact .same rfl (.of_lists rfl rfl rfl rfl rfl rfl) htype rfl hcomplete nofun
  | setopt id => exact ⟨_, rfl, .same rfl (.refl s) htype rfl hcomplete nofun⟩

/-- **An entry of the poller behind the command `K`.** -/
theorem dispatch_effect_close (read write : Bool) (κ : Kernel) :
    ∃ out, s.dispatch read write κ = .ok out ∧ CloseEffect s (.event read write κ) out := by
  have hquiet : CloseEffect s (.event read write κ) s.quiet :=
    .same rfl (.refl s) htype rfl hcomplete nofun
  have hclose : ∀ type : ReportType, type = .close ∨ type = .error →
      (CloseOp.event read write κ).fails = true →
      ∃ out, s.forceClose type = .ok out ∧ CloseEffect s (.event read write κ) out :=
    fun type htype' hfails => by
      rw [forceClose_of_isOpen (Or.inr htype)]
      refine ⟨_, rfl, ?_⟩
      exact .ends rfl (.refl s) ⟨htype', rfl⟩ (Or.inl hfails)
  rw [Socket.dispatch, htype]
  dsimp only
  rw [htcp]
  dsimp only
  rcases read with _ | _
  · rcases write with _ | _
    · exact ⟨_, rfl, hquiet⟩
    · obtain ⟨s', out, heq, hflows, hend⟩ := @sendBuffer_tcp s κ.writes htcp (Or.inr htype) hcomplete
      refine ⟨out, heq, ?_⟩
      cases hend with
      | stays htype' hcomplete' => exact .stays rfl hflows (htype'.trans htype) hcomplete' nofun
      | closed h =>
        refine .ends rfl hflows ⟨Or.inl rfl, hflows.id⟩ (h.imp ?_ And.right)
        exact fun h => contains_iff_mem.mpr h
  · rw [if_pos rfl, Socket.forwardMessageTcp.eq_def]
    rcases hresult : κ.read with _ | _ | _ | _
    case error => exact hclose .error (Or.inr rfl) (by simp [CloseOp.fails, hresult])
    case got n =>
      rcases n with _ | n
      · exact hclose .close (Or.inl rfl) (by simp [CloseOp.fails, hresult])
      · dsimp only
        exact ⟨_, if_pos htype, hquiet⟩
    all_goals exact ⟨_, rfl, hquiet⟩

end

end Functions

/-! ### The invariant -/

/-- What holds after every step since the command `K`. -/
structure Draining (s : Socket) (st : Closing) : Prop where
  graceful : Graceful s st
  protocol : st.socket.protocol = .tcp
  type : st.socket.type = .halfclose ∨ st.socket.type = .invalid
  id : st.socket.id = s.id
  fd : st.socket.fd = s.fd
  complete : ∀ wb ∈ st.socket.low, wb.Complete
  rest : st.socket.type = .halfclose →
    st.socket.stream ++ unsent (st.socket.high ++ st.socket.low) =
      s.stream ++ unsent (s.high ++ s.low)

section Invariant

variable {s : Socket} {st : Closing} {op : CloseOp} {out : Outcome}

/-- What holds before a step that follows: the descriptor is open, nothing has gone wrong with what
is written so far. -/
structure Pending (s : Socket) (st : Closing) : Prop where
  protocol : st.socket.protocol = .tcp
  id : st.socket.id = s.id
  fd : st.socket.fd = s.fd
  complete : ∀ wb ∈ st.socket.low, wb.Complete
  rest : st.socket.stream ++ unsent (st.socket.high ++ st.socket.low) =
    s.stream ++ unsent (s.high ++ s.low)
  closed : st.closed = []
  freed : ∃ gone, (s.high ++ s.low).map WriteBuffer.free =
      gone ++ (st.socket.high ++ st.socket.low).map WriteBuffer.free ∧
    st.socket.freed.Perm (s.freed ++ gone ++ st.refused.map SendObject.free)
  discarded : ∀ e ∈ st.log, ∀ r, e.report = some r → r.type ≠ .data
  reported : ∀ e ∈ st.log, e.before ≠ .invalid → e.after = .invalid →
    ∃ r, e.report = some r ∧ (r.type = .close ∨ r.type = .error) ∧ r.id = s.id

theorem Pending.before (htcp : s.protocol = .tcp) (hcomplete : ∀ wb ∈ s.low, wb.Complete) :
    Pending s (.before s) where
  protocol := htcp
  id := rfl
  fd := rfl
  complete := hcomplete
  rest := rfl
  closed := rfl
  freed := ⟨[], rfl, by simp [Closing.before]⟩
  discarded _ he := absurd he not_mem_nil
  reported _ he := absurd he not_mem_nil

theorem Pending.log_after (h : Pending s st) (fails : Bool) (refused : Option SendObject)
    (hdata : ∀ r, out.report = some r → r.type ≠ .data)
    (hend : out.socket.type = .invalid →
      ∃ r, out.report = some r ∧ (r.type = .close ∨ r.type = .error) ∧ r.id = s.id) :
    (∀ e ∈ (st.after fails refused out).log, ∀ r, e.report = some r → r.type ≠ .data) ∧
      ∀ e ∈ (st.after fails refused out).log, e.before ≠ .invalid → e.after = .invalid →
        ∃ r, e.report = some r ∧ (r.type = .close ∨ r.type = .error) ∧ r.id = s.id := by
  refine ⟨fun e he => ?_, fun e he => ?_⟩
  · rcases mem_append.mp he with he | he
    · exact h.discarded e he
    · rw [mem_singleton.mp he]
      exact hdata
  · rcases mem_append.mp he with he | he
    · exact h.reported e he
    · rw [mem_singleton.mp he]
      exact fun _ => hend

/-- What is freed later stands before the packages that are refused. -/
theorem perm_append_before {α : Type*} {a b c d : List α} (h : a.Perm (b ++ c ++ d)) (e : List α) :
    (a ++ e).Perm (b ++ (c ++ e) ++ d) := by
  refine (h.append_right e).trans ?_
  rw [append_assoc, ← append_assoc b, append_assoc (b ++ c)]
  exact perm_append_comm.append_left _

/-- **A step on the open slot.** -/
theorem Pending.after (h : Pending s st) (heffect : CloseEffect st.socket op out) :
    Draining s (st.after op.fails op.object out) := by
  obtain ⟨gone, hgone, hperm⟩ := h.freed
  cases heffect with
  | @stays s' report hobject hflows htype hcomplete hreport =>
    obtain ⟨w, hw, hunsent⟩ := hflows.stream
    obtain ⟨gone', hfreed, hnodes⟩ := hflows.freed
    have hstream : s'.stream ++ unsent (s'.high ++ s'.low) =
        s.stream ++ unsent (s.high ++ s.low) := by
      rw [hw, append_assoc, hunsent, h.rest]
    have hlive : s'.type ≠ .invalid := by simp [htype]
    obtain ⟨hdiscarded, hreported⟩ := @Pending.log_after _ _ ⟨report, s', none⟩ h op.fails op.object
      hreport fun hinvalid => absurd hinvalid hlive
    refine ⟨⟨⟨_, hstream, fun hinvalid => absurd hinvalid hlive⟩, ?_, ⟨gone ++ gone', ?_, ?_⟩,
      hdiscarded, hreported⟩, hflows.protocol.trans h.protocol, Or.inl htype, hflows.id.trans h.id,
      hflows.fd.trans h.fd, hcomplete, fun _ => hstream⟩
    · refine Eq.trans ?_ (if_neg hlive).symm
      rw [Closing.after, h.closed]
      rfl
    · rw [append_assoc, hgone, ← hnodes]
      rfl
    · simp only [Closing.after, hobject, Option.toList_none, append_nil, hfreed]
      exact perm_append_before hperm gone'
  | @refuses so hobject htype =>
    have hlive : st.socket.type ≠ .invalid := by simp [htype]
    obtain ⟨hdiscarded, hreported⟩ := @Pending.log_after _ _ (st.socket.drop so).quiet h op.fails
      op.object nofun fun hinvalid => absurd hinvalid hlive
    refine ⟨⟨⟨_, h.rest, fun hinvalid => absurd hinvalid hlive⟩, ?_, ⟨gone, hgone, ?_⟩,
      hdiscarded, hreported⟩, h.protocol, Or.inl htype, h.id, h.fd, h.complete, fun _ => h.rest⟩
    · refine Eq.trans ?_ (if_neg hlive).symm
      rw [Closing.after, h.closed]
      rfl
    · simp only [Closing.after, hobject, Option.toList_some, map_append]
      rw [← append_assoc]
      exact hperm.append_right _
  | @ends s' r hobject hflows hreport hend =>
    obtain ⟨w, hw, hunsent⟩ := hflows.stream
    obtain ⟨gone', hfreed, hnodes⟩ := hflows.freed
    have hstream : s'.stream ++ unsent (s'.high ++ s'.low) =
        s.stream ++ unsent (s.high ++ s.low) := by
      rw [hw, append_assoc, hunsent, h.rest]
    have hdata : ∀ r', some r = some r' → r'.type ≠ .data := fun r' hr => by
      obtain rfl := Option.some.inj hr
      rcases hreport.1 with ht | ht <;> simp [ht]
    obtain ⟨hdiscarded, hreported⟩ := @Pending.log_after _ _ ⟨some r, s'.shut, s'.fd⟩ h op.fails
      op.object hdata fun _ => ⟨r, rfl, hreport.1, hreport.2.trans h.id⟩
    refine ⟨⟨⟨_, hstream, fun _ hfine => ?_⟩, ?_,
      ⟨gone ++ (gone' ++ (s'.high ++ s'.low).map WriteBuffer.free), ?_, ?_⟩, hdiscarded, hreported⟩,
      hflows.protocol.trans h.protocol, Or.inr rfl, hflows.id.trans h.id, hflows.fd.trans h.fd,
      nofun, nofun⟩
    · have hnot : op.fails = false := (Bool.or_eq_false_iff.mp hfine).2
      rw [hend.resolve_left (by simp [hnot])]
      rfl
    · refine Eq.trans ?_ (if_pos rfl).symm
      rw [Closing.after, h.closed, nil_append, hflows.fd, h.fd]
    · rw [hnodes, hgone]
      exact (append_nil _).symm
    · simp only [Closing.after, hobject, Option.toList_none, append_nil, Socket.shut, hfreed]
      rw [append_assoc, ← map_append, append_assoc]
      exact perm_append_before hperm _

/-- What a step does to a slot that is closed: packages are refused, and nothing else happens. -/
theorem run_of_invalid {s : Socket} (hinvalid : s.type = .invalid) (op : CloseOp) :
    (∃ report, op.run s = .ok ⟨report, s, none⟩ ∧ op.object = none ∧
        ∀ r, report = some r → r.type ≠ .data) ∨
      ∃ so, op.run s = .ok (s.drop so).quiet ∧ op.object = some so := by
  have hsend : ∀ id so priority address results,
      s.sendSocket id so priority address results = .ok (s.drop so).quiet := fun id so pr a results => by
    unfold Socket.sendSocket
    exact if_pos (Or.inl hinvalid)
  cases op with
  | request r κ =>
    cases r with
    | start id opaqueId =>
      refine Or.inl ⟨some ⟨.error, id, opaqueId, 0⟩, ?_, rfl, fun r hr => ?_⟩
      · exact congrArg Except.ok (if_pos (Or.inl hinvalid))
      · rw [← Option.some.inj hr]
        nofun
    | close id opaqueId =>
      refine Or.inl ⟨some ⟨.close, id, opaqueId, 0⟩, if_pos (Or.inl hinvalid), rfl, fun r hr => ?_⟩
      rw [← Option.some.inj hr]
      nofun
    | exit =>
      refine Or.inl ⟨_, rfl, rfl, fun r hr => ?_⟩
      rw [← Option.some.inj hr]
      nofun
    | send id so priority => exact Or.inr ⟨so, hsend .., rfl⟩
    | sendUdp id so address => exact Or.inr ⟨so, hsend .., rfl⟩
    | setUdp id address =>
      exact Or.inl ⟨none, congrArg Except.ok (if_pos (Or.inl hinvalid)), rfl, nofun⟩
    | setopt id => exact Or.inl ⟨none, rfl, rfl, nofun⟩
  | event read write κ =>
    refine Or.inl ⟨none, ?_, rfl, nofun⟩
    rw [CloseOp.run, Socket.dispatch, hinvalid]
    rfl

theorem Draining.log_after (h : Draining s st) (hinvalid : st.socket.type = .invalid)
    (fails : Bool) (refused : Option SendObject)
    (hdata : ∀ r, out.report = some r → r.type ≠ .data) :
    (∀ e ∈ (st.after fails refused out).log, ∀ r, e.report = some r → r.type ≠ .data) ∧
      ∀ e ∈ (st.after fails refused out).log, e.before ≠ .invalid → e.after = .invalid →
        ∃ r, e.report = some r ∧ (r.type = .close ∨ r.type = .error) ∧ r.id = s.id := by
  refine ⟨fun e he => ?_, fun e he => ?_⟩
  · rcases mem_append.mp he with he | he
    · exact h.graceful.discarded e he
    · rw [mem_singleton.mp he]
      exact hdata
  · rcases mem_append.mp he with he | he
    · exact h.graceful.reported e he
    · rw [mem_singleton.mp he]
      exact fun hbefore => absurd hinvalid hbefore

/-- Nothing happens any more on a slot that is closed. -/
theorem Draining.after_invalid (h : Draining s st) (hinvalid : st.socket.type = .invalid) :
    ∃ st', st.step op = .ok st' ∧ Draining s st' := by
  obtain ⟨rest, hrest, hdone⟩ := h.graceful.written
  obtain ⟨gone, hgone, hperm⟩ := h.graceful.freed
  have hhalf : st.socket.type ≠ .halfclose := by simp [hinvalid]
  have hclosed := h.graceful.closed
  rw [if_pos hinvalid] at hclosed
  obtain ⟨report, heq, hobject, hdata⟩ | ⟨so, heq, hobject⟩ := run_of_invalid hinvalid op
  · refine ⟨st.after op.fails op.object ⟨report, st.socket, none⟩, by rw [Closing.step, heq], ?_⟩
    obtain ⟨hdiscarded, hreported⟩ := @Draining.log_after _ _ ⟨report, st.socket, none⟩ h hinvalid
      op.fails op.object hdata
    refine ⟨⟨⟨rest, hrest, fun _ hfine => hdone hinvalid (Bool.or_eq_false_iff.mp hfine).1⟩, ?_,
      ⟨gone, hgone, ?_⟩, hdiscarded, hreported⟩, h.protocol, Or.inr hinvalid, h.id, h.fd,
      h.complete, fun h => absurd h hhalf⟩
    · refine Eq.trans ?_ (if_pos hinvalid).symm
      rw [Closing.after, hclosed]
      exact append_nil _
    · simp only [Closing.after, hobject, Option.toList_none, append_nil]
      exact hperm
  · refine ⟨st.after op.fails op.object (st.socket.drop so).quiet, by rw [Closing.step, heq], ?_⟩
    obtain ⟨hdiscarded, hreported⟩ := @Draining.log_after _ _ (st.socket.drop so).quiet h hinvalid
      op.fails op.object nofun
    refine ⟨⟨⟨rest, hrest, fun _ hfine => hdone hinvalid (Bool.or_eq_false_iff.mp hfine).1⟩, ?_,
      ⟨gone, hgone, ?_⟩, hdiscarded, hreported⟩, h.protocol, Or.inr hinvalid, h.id, h.fd,
      h.complete, fun h => absurd h hhalf⟩
    · refine Eq.trans ?_ (if_pos hinvalid).symm
      rw [Closing.after, hclosed]
      exact append_nil _
    · simp only [Closing.after, hobject, Option.toList_some, map_append]
      rw [← append_assoc]
      exact hperm.append_right _

/-- **A step of a run.** -/
theorem Draining.step (h : Draining s st) (op : CloseOp) :
    ∃ st', st.step op = .ok st' ∧ Draining s st' := by
  rcases h.type with hhalf | hinvalid
  · have hclosed : st.closed = [] := h.graceful.closed.trans (if_neg (by simp [hhalf]))
    have hpending : Pending s st := ⟨h.protocol, h.id, h.fd, h.complete, h.rest hhalf, hclosed,
      h.graceful.freed, h.graceful.discarded, h.graceful.reported⟩
    obtain ⟨out, heq, heffect⟩ : ∃ out, op.run st.socket = .ok out ∧
        CloseEffect st.socket op out := by
      cases op with
      | request r κ => exact request_effect h.protocol hhalf h.complete r κ
      | event read write κ => exact dispatch_effect_close h.protocol hhalf h.complete read write κ
    exact ⟨_, by rw [Closing.step, heq], hpending.after heffect⟩
  · exact h.after_invalid hinvalid

end Invariant

/-- **Graceful close.** On a connected TCP socket with any lists, in which no node of low priority
counts as sent in part, the command `K` goes through, and so does everything that follows: what was
accepted is written before the descriptor is closed, unless a write or a read fails or the peer
closes; what is sent later is refused; what is read is not handed on; and the end is reported. -/
theorem close_graceful {s : Socket} (htcp : s.protocol = .tcp) (hconnected : s.type = .connected)
    (hcomplete : ∀ wb ∈ s.low, wb.Complete) (opaqueId : ℕ) (κ : Kernel) :
    ∃ st₀, Closing.close s opaqueId κ = .ok st₀ ∧
      ∀ st, Reaches Closing.step (fun _ _ => True) st₀ st →
        Graceful s st ∧ ∀ op, ∃ st', st.step op = .ok st' := by
  obtain ⟨out, heq, heffect⟩ := close_effect htcp (Or.inl hconnected) hcomplete (Or.inr rfl)
    opaqueId κ
  have hstart := (Pending.before htcp hcomplete).after heffect
  refine ⟨_, by rw [Closing.close, Closing.step, CloseOp.run, Request.run, Closing.before, heq],
    fun st hrun => ?_⟩
  have hdraining : Draining s st := hrun.invariant hstart fun u v op hu _ hstep => by
    obtain ⟨st', heq', hst'⟩ := hu.step op
    rw [heq', Except.ok.injEq] at hstep
    exact hstep ▸ hst'
  exact ⟨hdraining.graceful, fun op => (hdraining.step op).imp fun _ h => h.1⟩

/-! ### Two closes -/

/-- A connected socket with some packages. -/
def connectedTcp (high low : List WriteBuffer) : Socket where
  opaqueId := 1
  high := high
  low := low
  wbSize := Socket.bytesOf high + Socket.bytesOf low
  fd := some (.own 0)
  id := 1
  protocol := .tcp
  type := .connected
  p := .size minReadBuffer
  registered := true
  writing := true
  stream := []
  datagrams := []
  freed := []

/-- **A user object of low priority.** Behind a package that waits, its buffer is taken for a part
that was sent before, and the assertion of `send_buffer` fails at the command `K`. -/
theorem user_object_aborts :
    ∃ out₁ out₂,
      (connectedTcp [] []).sendSocket 1 ⟨1, 1, [7], false⟩ .high none [.eagain] = .ok out₁ ∧
      out₁.socket.sendSocket 1 ⟨2, 9, [8], true⟩ .low none [] = .ok out₂ ∧
      out₂.socket.protocol = .tcp ∧ out₂.socket.type = .connected ∧
      unsent (out₂.socket.high ++ out₂.socket.low) = [7, 8] ∧
      ∀ opaqueId κ, Closing.close out₂.socket opaqueId κ = .error .lowUncomplete :=
  ⟨_, _, rfl, rfl, rfl, rfl, rfl, fun _ _ => rfl⟩

/-- Two packages that wait are written behind the command `K`. -/
theorem close_graceful_waiting :
    ∃ st₀, Closing.close (connectedTcp [⟨1, 1, [7], false, []⟩] [⟨2, 2, [8], false, []⟩]) 1 .fine =
        .ok st₀ ∧
      ∀ st, Reaches Closing.step (fun _ _ => True) st₀ st →
        Graceful (connectedTcp [⟨1, 1, [7], false, []⟩] [⟨2, 2, [8], false, []⟩]) st ∧
          ∀ op, ∃ st', st.step op = .ok st' :=
  close_graceful rfl rfl (fun wb hwb => by rw [mem_singleton.mp hwb]; rfl) 1 .fine

end Mtask.SocketServer
