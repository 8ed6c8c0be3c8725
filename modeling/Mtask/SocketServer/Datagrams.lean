import Mtask.Lib.Transition
import Mtask.SocketServer.Socket

/-!
# Datagrams

What a socket for datagrams does with the packages that are sent on it, in order of priority and to
any addresses. Every call of `sendto` is recorded with the answer of the kernel, whether it came
from `send_socket` directly or from the loops of `send_buffer`.
-/

namespace Mtask.SocketServer

open Transition (Reaches)
open List

/-! ### The calls of `sendto` -/

/-- A call of `sendto`: the bytes, the address, if there is one, and the answer. -/
structure Attempt where
  bytes : List UInt8
  address : Option (List UInt8)
  result : WriteResult
  deriving DecidableEq, Repr

/-- The answer leaves the package where it is: `EAGAIN` or `EINTR`. -/
def WriteResult.isRetry : WriteResult → Bool
  | .eagain => true
  | .eintr => true
  | _ => false

/-- The call for a node. -/
def WriteBuffer.attempt (protocol : Protocol) (wb : WriteBuffer) (result : WriteResult) :
    Attempt where
  bytes := wb.bytes
  address := udpSocketAddress protocol wb.udpAddress
  result := result

/-- The calls in the loop of `send_list_udp`. -/
def attempts (protocol : Protocol) : List WriteBuffer → List WriteResult → List Attempt
  | [], _ => []
  | tmp :: list, .wrote n :: results =>
    tmp.attempt protocol (.wrote n) :: attempts protocol list results
  | tmp :: _, result :: _ => [tmp.attempt protocol result]
  | tmp :: _, [] => [tmp.attempt protocol .eagain]

namespace Socket

/-- The calls in `send_buffer`: for the list of high priority, and if that is done, for the other
one. -/
def bufferAttempts (s : Socket) (results : List WriteResult) : List Attempt :=
  let d := drainUdp s.protocol s.high results
  attempts s.protocol s.high results ++
    if d.rest = [] then attempts s.protocol s.low d.results else []

/-- The call in `send_socket`, if nothing is queued. -/
def directAttempts (s : Socket) (so : SendObject) (address : Option (List UInt8))
    (results : List WriteResult) : List Attempt :=
  if s.sendBufferEmpty ∧ s.type = .connected then
    [⟨so.bytes, udpSocketAddress s.protocol (s.addressOr address), results.headD .eagain⟩]
  else []

end Socket

/-! ### Runs -/

/-- A package with the address that it is for: its own, or the one that the socket had. -/
structure Datagram where
  so : SendObject
  address : List UInt8
  deriving DecidableEq, Repr

/-- The node for a package. -/
def Datagram.node (d : Datagram) : WriteBuffer :=
  d.so.node 0 d.address

/-- A socket for datagrams, the packages that it accepted, the calls of `sendto`, and the write
events: the calls of each one, with the number of packages that were left. -/
structure UdpState where
  socket : Socket
  accepted : List Datagram
  attempts : List Attempt
  rounds : List (List Attempt × ℕ)

inductive UdpOp
  /-- a command `D` or `P` (without an address) or `A` (with one) -/
  | send (so : SendObject) (priority : Priority) (address : Option (List UInt8))
    (results : List WriteResult)
  /-- a command `C` -/
  | setAddress (address : List UInt8)
  | write (results : List WriteResult)

namespace UdpState

def start (s : Socket) : UdpState where
  socket := s
  accepted := []
  attempts := []
  rounds := []

def step (st : UdpState) : UdpOp → Except Fault UdpState
  | .send so priority address results =>
    match st.socket.sendSocket st.socket.id so priority address results with
    | .error e => .error e
    | .ok out => .ok { st with
        socket := out.socket
        accepted := st.accepted ++ [⟨so, st.socket.addressOr address⟩]
        attempts := st.attempts ++ st.socket.directAttempts so address results }
  | .setAddress address =>
    .ok { st with socket := (st.socket.setUdpAddress st.socket.id address).socket }
  | .write results =>
    match st.socket.sendBuffer results with
    | .error e => .error e
    | .ok out =>
      let calls := st.socket.bufferAttempts results
      .ok { st with
        socket := out.socket
        attempts := st.attempts ++ calls
        rounds := st.rounds ++ [(calls, out.socket.high.length + out.socket.low.length)] }

/-- The kernel takes a datagram as a whole or not at all. -/
def Whole : UdpOp → Prop
  | .send so _ _ results => ∀ n, results.head? = some (.wrote n) → so.bytes.length ≤ n
  | _ => True

/-- No `sendto` fails for good, and no write event finds a user object in front of the list of low
priority whose buffer is not the object itself. -/
def Permits (st : UdpState) : UdpOp → Prop
  | .send _ _ _ results => st.socket.sendBufferEmpty = true → results.head? ≠ some .error
  | .setAddress _ => True
  | .write results => .error ∉ results ∧ listUncomplete st.socket.low = false

end UdpState

/-- A socket that `add_udp_socket` has made. -/
structure IsUdp (s : Socket) : Prop where
  protocol : s.protocol ≠ .tcp
  type : s.type = .connected
  high : s.high = []
  low : s.low = []
  freed : s.freed = []

/-- The packages do not depend on each other: what is handed to `sendto` is a whole package with its
own address; a package is freed once, after a call that was not answered by `EAGAIN` or `EINTR`, or
it is still queued; and a write event tries all that is queued, up to such an answer. -/
structure Independent (st : UdpState) : Prop where
  whole : ∀ a ∈ st.attempts, ∃ d ∈ st.accepted,
    a.bytes = d.so.bytes ∧ a.address = udpSocketAddress st.socket.protocol d.address
  once : ∃ done queued : List Datagram, st.accepted.Perm (done ++ queued) ∧
    st.socket.high ++ st.socket.low = queued.map Datagram.node ∧
    st.socket.freed = done.map (fun d => d.so.free) ∧
    (st.attempts.filter fun a => !a.result.isRetry).map (fun a => (a.bytes, a.address)) =
      done.map fun d => (d.so.bytes, udpSocketAddress st.socket.protocol d.address)
  tried : ∀ round ∈ st.rounds, round.2 = 0 ∨
    ∃ a, round.1.getLast? = some a ∧ a.result.isRetry = true

/-! ### The loop of `send_list_udp` -/

/-- What a call hands over. -/
def Attempt.sent (a : Attempt) : List UInt8 × Option (List UInt8) :=
  (a.bytes, a.address)

/-- What the calls hand over that are not tried again. -/
def settled (calls : List Attempt) : List (List UInt8 × Option (List UInt8)) :=
  (calls.filter fun a => !a.result.isRetry).map Attempt.sent

theorem settled_append (calls calls' : List Attempt) :
    settled (calls ++ calls') = settled calls ++ settled calls' := by
  rw [settled, filter_append, map_append, settled, settled]

/-- What a node hands over. -/
def WriteBuffer.sent (protocol : Protocol) (wb : WriteBuffer) :
    List UInt8 × Option (List UInt8) :=
  (wb.bytes, udpSocketAddress protocol wb.udpAddress)

/-- The last call is one to try again. -/
def EndsInRetry (calls : List Attempt) : Prop :=
  ∃ a, calls.getLast? = some a ∧ a.result.isRetry = true

section Drain

variable {protocol : Protocol} {list : List WriteBuffer} {results : List WriteResult}

theorem drain_of_udp (hudp : protocol ≠ .tcp) :
    drain protocol list results = drainUdp protocol list results := by
  cases protocol with
  | tcp => exact absurd rfl hudp
  | udp => rfl
  | udpv6 => rfl

/-- Every call of the loop is for a node of the list. -/
theorem mem_attempts {a : Attempt} (ha : a ∈ attempts protocol list results) :
    ∃ wb ∈ list, a.sent = wb.sent protocol := by
  induction list generalizing results with
  | nil => simp [attempts] at ha
  | cons tmp list ih =>
    have hfirst : ∀ result, a ∈ [tmp.attempt protocol result] →
        ∃ wb ∈ tmp :: list, a.sent = wb.sent protocol := fun result ha => by
      rw [mem_singleton.mp ha]
      exact ⟨tmp, mem_cons_self, rfl⟩
    rcases results with _ | ⟨result, results⟩
    · exact hfirst _ ha
    · rcases result with n | _ | _ | _
      · rcases mem_cons.mp ha with rfl | ha
        · exact ⟨tmp, mem_cons_self, rfl⟩
        · obtain ⟨wb, hwb, hsent⟩ := ih ha
          exact ⟨wb, mem_cons_of_mem _ hwb, hsent⟩
      all_goals exact hfirst _ ha

/-- **The loop, if no call fails for good**: it frees the nodes that it has sent and stops at the
end of the list or at a call to try again. -/
theorem drainUdp_spec (hresults : .error ∉ results) :
    ∃ gone, list = gone ++ (drainUdp protocol list results).rest ∧
      (drainUdp protocol list results).freed = gone.map WriteBuffer.free ∧
      settled (attempts protocol list results) = gone.map (WriteBuffer.sent protocol) ∧
      ((drainUdp protocol list results).rest = [] ∨ EndsInRetry (attempts protocol list results)) ∧
      .error ∉ (drainUdp protocol list results).results := by
  induction list generalizing results with
  | nil => exact ⟨[], rfl, rfl, rfl, Or.inl rfl, hresults⟩
  | cons tmp list ih =>
    rcases results with _ | ⟨result, results⟩
    · exact ⟨[], rfl, rfl, rfl, Or.inr ⟨_, rfl, rfl⟩, not_mem_nil⟩
    · have hrest : .error ∉ results := fun h => hresults (mem_cons_of_mem _ h)
      rcases result with n | _ | _ | _
      · obtain ⟨gone, hlist, hfreed, hsettled, hend, hleft⟩ := ih hrest
        refine ⟨tmp :: gone, congrArg (tmp :: ·) hlist, congrArg (tmp.free :: ·) hfreed,
          congrArg (tmp.sent protocol :: ·) hsettled, hend.imp_right ?_, hleft⟩
        rintro ⟨a, hlast, hretry⟩
        exact ⟨a, by rw [attempts, getLast?_cons, hlast]; rfl, hretry⟩
      · exact ⟨[], rfl, rfl, rfl, Or.inr ⟨_, rfl, rfl⟩, hrest⟩
      · exact ⟨[], rfl, rfl, rfl, Or.inr ⟨_, rfl, rfl⟩, hrest⟩
      · exact absurd mem_cons_self hresults

end Drain

/-! ### The functions on a socket for datagrams -/

section Functions

variable {s : Socket} {results : List WriteResult}

theorem drainUdp_not_failed (protocol : Protocol) (list : List WriteBuffer) :
    (drainUdp protocol list results).failed = false := by
  induction list generalizing results with
  | nil => rfl
  | cons tmp list ih =>
    rcases results with _ | ⟨result, results⟩
    · rfl
    · rcases result with n | _ | _ | _
      · exact ih
      all_goals rfl

/-- `raise_uncomplete` behind an empty list leaves the packages in their order. -/
theorem raiseUncomplete_of_nil (hhigh : s.high = []) : ∃ s', s.raiseUncomplete = .ok s' ∧
    s'.protocol = s.protocol ∧ s'.type = s.type ∧ s'.freed = s.freed ∧
    s'.high ++ s'.low = s.high ++ s.low := by
  rw [Socket.raiseUncomplete]
  rcases hlow : s.low with _ | ⟨tmp, low⟩
  · exact ⟨s, rfl, rfl, rfl, rfl, by rw [hlow]⟩
  · simp only [hhigh, ne_eq, not_true_eq_false, if_false]
    exact ⟨_, rfl, rfl, rfl, rfl, rfl⟩

/-- The steps of `send_buffer` behind an empty list of high priority. -/
theorem sendBufferLow_udp (hudp : s.protocol ≠ .tcp) (htype : s.type = .connected)
    (hhigh : s.high = []) (hresults : .error ∉ results) :
    ∃ s' : Socket, ∃ gone, s.sendBufferLow results = .ok s'.quiet ∧
      s'.protocol = s.protocol ∧ s'.type = .connected ∧ s.low = gone ++ (s'.high ++ s'.low) ∧
      s'.freed = s.freed ++ gone.map WriteBuffer.free ∧
      settled (attempts s.protocol s.low results) = gone.map (WriteBuffer.sent s.protocol) ∧
      (s'.high ++ s'.low = [] ∨ EndsInRetry (attempts s.protocol s.low results)) := by
  rw [Socket.sendBufferLow]
  by_cases hlow : s.low = []
  · rw [if_neg (not_not.mpr hlow)]
    dsimp only
    rw [if_neg (by rw [htype]; decide)]
    refine ⟨{ s with writing := false }, [], rfl, rfl, htype, ?_, (append_nil _).symm, ?_,
      Or.inl ?_⟩
    · simp [hhigh, hlow]
    · rw [hlow]
      rfl
    · simp [hhigh, hlow]
  · rw [if_pos hlow]
    simp only [drain_of_udp hudp, drainUdp_not_failed, Bool.false_eq_true, if_false]
    obtain ⟨gone, hlist, hfreed, hsettled, hend, -⟩ := @drainUdp_spec s.protocol s.low _ hresults
    have hhigh' : (s.sendList .low (drainUdp s.protocol s.low results)).high = [] := hhigh
    have hrest : (s.sendList .low (drainUdp s.protocol s.low results)).low =
        (drainUdp s.protocol s.low results).rest := rfl
    have hfreed' : (s.sendList .low (drainUdp s.protocol s.low results)).freed =
        s.freed ++ gone.map WriteBuffer.free := congrArg (s.freed ++ ·) hfreed
    split_ifs
    · obtain ⟨s', heq, hprotocol, htype', hkept, hlists⟩ := raiseUncomplete_of_nil hhigh'
      rw [heq]
      rw [hhigh', hrest, nil_append] at hlists
      refine ⟨s', gone, rfl, hprotocol, htype'.trans htype, ?_, hkept.trans hfreed', hsettled, ?_⟩
      · rw [hlists]
        exact hlist
      · rw [hlists]
        exact hend
    · refine ⟨_, gone, rfl, rfl, htype, ?_, hfreed', hsettled, ?_⟩
      · rw [hhigh', hrest, nil_append]
        exact hlist
      · rw [hhigh', hrest, nil_append]
        exact hend

/-- **`send_buffer`, if no call fails for good.** -/
theorem sendBuffer_udp (hudp : s.protocol ≠ .tcp) (htype : s.type = .connected)
    (hlow : listUncomplete s.low = false) (hresults : .error ∉ results) :
    ∃ s' : Socket, ∃ gone, s.sendBuffer results = .ok s'.quiet ∧
      s'.protocol = s.protocol ∧ s'.type = .connected ∧
      s.high ++ s.low = gone ++ (s'.high ++ s'.low) ∧
      s'.freed = s.freed ++ gone.map WriteBuffer.free ∧
      settled (s.bufferAttempts results) = gone.map (WriteBuffer.sent s.protocol) ∧
      (s'.high ++ s'.low = [] ∨ EndsInRetry (s.bufferAttempts results)) := by
  obtain ⟨gone, hlist, hfreed, hsettled, hend, hleft⟩ :=
    @drainUdp_spec s.protocol s.high _ hresults
  rw [Socket.sendBuffer, if_neg (by simp [hlow]), Socket.bufferAttempts]
  simp only [drain_of_udp hudp, drainUdp_not_failed, Bool.false_eq_true, if_false]
  have hrest : (s.sendList .high (drainUdp s.protocol s.high results)).high =
      (drainUdp s.protocol s.high results).rest := rfl
  have hfreed' : (s.sendList .high (drainUdp s.protocol s.high results)).freed =
      s.freed ++ gone.map WriteBuffer.free := congrArg (s.freed ++ ·) hfreed
  rw [hrest]
  split_ifs with hdone
  · -- both lists are sent in one go
    obtain ⟨s', gone', heq, hprotocol, htype', hlist', hfreed'', hsettled', hend'⟩ :=
      @sendBufferLow_udp (s.sendList .high (drainUdp s.protocol s.high results)) _ hudp htype
        (hrest.trans hdone) hleft
    refine ⟨s', gone ++ gone', heq, hprotocol, htype', ?_, ?_, ?_, ?_⟩
    · have hlow' : s.low = gone' ++ (s'.high ++ s'.low) := hlist'
      rw [hdone, append_nil] at hlist
      rw [hlist, append_assoc, ← hlow']
    · rw [hfreed'', hfreed', map_append, append_assoc]
    · rw [settled_append, hsettled, map_append]
      exact congrArg (_ ++ ·) hsettled'
    · refine hend'.imp_right ?_
      rintro ⟨a, hlast, hretry⟩
      have hlast' : (attempts s.protocol s.low (drainUdp s.protocol s.high results).results).getLast? =
          some a := hlast
      exact ⟨a, by rw [getLast?_append, hlast']; rfl, hretry⟩
  · refine ⟨_, gone, rfl, rfl, htype, ?_, hfreed', ?_, Or.inr ?_⟩
    · rw [hrest, ← append_assoc, ← hlist]
      rfl
    · rw [append_nil, hsettled]
    · rw [append_nil]
      exact hend.resolve_left hdone

/-- Every call of `send_buffer` is for a node that is queued. -/
theorem mem_bufferAttempts {a : Attempt} (ha : a ∈ s.bufferAttempts results) :
    ∃ wb ∈ s.high ++ s.low, a.sent = wb.sent s.protocol := by
  rw [Socket.bufferAttempts] at ha
  rcases mem_append.mp ha with ha | ha
  · obtain ⟨wb, hwb, hsent⟩ := mem_attempts ha
    exact ⟨wb, mem_append_left _ hwb, hsent⟩
  · split_ifs at ha
    · obtain ⟨wb, hwb, hsent⟩ := mem_attempts ha
      exact ⟨wb, mem_append_right _ hwb, hsent⟩
    · simp at ha

/-- A node that is appended stands somewhere between the others. -/
theorem append_lists (s : Socket) (pr : Priority) (wb : WriteBuffer) :
    ∃ before behind, s.high ++ s.low = before ++ behind ∧
      (s.append pr wb).high ++ (s.append pr wb).low = before ++ wb :: behind := by
  cases pr with
  | high => exact ⟨s.high, s.low, rfl, by simp [Socket.append]⟩
  | low => exact ⟨s.high ++ s.low, [], by simp, by simp [Socket.append]⟩

/-- **`send_socket`**, if the kernel takes the package as a whole: it is handed over and freed, or
it is queued and there was no call or one to try again. -/
theorem sendSocket_udp {so : SendObject} {priority : Priority} {address : Option (List UInt8)}
    (hudp : s.protocol ≠ .tcp) (htype : s.type = .connected)
    (hwhole : ∀ n, results.head? = some (.wrote n) → so.bytes.length ≤ n)
    (herror : s.sendBufferEmpty = true → results.head? ≠ some .error) :
    ∃ s' : Socket, s.sendSocket s.id so priority address results = .ok s'.quiet ∧
      s'.protocol = s.protocol ∧ s'.type = .connected ∧
      (s'.high ++ s'.low = s.high ++ s.low ∧ s'.freed = s.freed ++ [so.free] ∧
          settled (s.directAttempts so address results) =
            [(so.bytes, udpSocketAddress s.protocol (s.addressOr address))] ∨
        (∃ before behind, s.high ++ s.low = before ++ behind ∧
          s'.high ++ s'.low = before ++ so.node 0 (s.addressOr address) :: behind) ∧
          s'.freed = s.freed ∧ settled (s.directAttempts so address results) = []) := by
  have happend : ∀ s₁ : Socket, s₁.high = s.high → s₁.low = s.low → s₁.freed = s.freed →
      s₁.protocol = s.protocol → s₁.type = s.type → ∀ wb,
      (s₁.append priority wb).protocol = s.protocol ∧ (s₁.append priority wb).type = .connected ∧
      (∃ before behind, s.high ++ s.low = before ++ behind ∧
        (s₁.append priority wb).high ++ (s₁.append priority wb).low = before ++ wb :: behind) ∧
      (s₁.append priority wb).freed = s.freed := fun s₁ hh hl hf hp ht wb => by
    obtain ⟨before, behind, hbefore, hbehind⟩ := append_lists s₁ priority wb
    rw [hh, hl] at hbefore
    have hsame : (s₁.append priority wb).protocol = s₁.protocol ∧
        (s₁.append priority wb).type = s₁.type ∧ (s₁.append priority wb).freed = s₁.freed := by
      cases priority <;> exact ⟨rfl, rfl, rfl⟩
    exact ⟨hsame.1.trans hp, hsame.2.1.trans (ht.trans htype), ⟨before, behind, hbefore, hbehind⟩,
      hsame.2.2.trans hf⟩
  unfold Socket.sendSocket
  rw [if_neg (by simp [htype]), if_neg (by simp [htype]), Socket.directAttempts]
  split_ifs with hdirect
  · -- nothing is queued, and the package is handed over at once
    obtain ⟨hp, ht, hlists, hf⟩ := happend { s with datagrams := s.datagrams } rfl rfl rfl rfl rfl
      (so.node 0 (s.addressOr address))
    rcases results with _ | ⟨n | _ | _ | _, results⟩
    case cons.wrote =>
      refine ⟨s.writeUdp so priority (s.addressOr address) (some n), ?_, ?_⟩
      · rcases hprotocol : s.protocol with _ | _ | _
        · exact absurd hprotocol hudp
        all_goals rfl
      · rw [Socket.writeUdp]
        dsimp only
        rw [if_pos (by simpa using hwhole n rfl)]
        exact ⟨rfl, htype, Or.inl ⟨rfl, rfl, rfl⟩⟩
    case cons.error => exact absurd rfl (herror hdirect.1)
    all_goals
      refine ⟨s.writeUdp so priority (s.addressOr address) none, ?_, hp, ht,
        Or.inr ⟨hlists, hf, rfl⟩⟩
      rcases hprotocol : s.protocol with _ | _ | _
      · exact absurd hprotocol hudp
      all_goals rfl
  · -- the package waits behind others
    obtain ⟨hp, ht, hlists, hf⟩ := happend s rfl rfl rfl rfl rfl
      (so.node 0 (s.addressOr address))
    refine ⟨s.append priority (so.node 0 (s.addressOr address)), ?_, hp, ht,
      Or.inr ⟨hlists, hf, rfl⟩⟩
    rcases hprotocol : s.protocol with _ | _ | _
    · exact absurd hprotocol hudp
    all_goals rfl

theorem mem_directAttempts {so : SendObject} {address : Option (List UInt8)} {a : Attempt}
    (ha : a ∈ s.directAttempts so address results) :
    a.sent = (so.bytes, udpSocketAddress s.protocol (s.addressOr address)) := by
  rw [Socket.directAttempts] at ha
  split_ifs at ha
  · rw [mem_singleton.mp ha]
    rfl
  · simp at ha

end Functions

/-! ### Runs -/

/-- What a package hands over. -/
def Datagram.sent (protocol : Protocol) (d : Datagram) : List UInt8 × Option (List UInt8) :=
  (d.so.bytes, udpSocketAddress protocol d.address)

theorem sent_node (protocol : Protocol) (d : Datagram) :
    d.node.sent protocol = d.sent protocol := by
  rw [WriteBuffer.sent, Datagram.node, SendObject.node, drop_zero, Datagram.sent]

/-- The invariant of a run. -/
structure Tracked (st : UdpState) : Prop where
  udp : st.socket.protocol ≠ .tcp
  type : st.socket.type = .connected
  whole : ∀ a ∈ st.attempts, ∃ d ∈ st.accepted, a.sent = d.sent st.socket.protocol
  once : ∃ done queued : List Datagram, st.accepted.Perm (done ++ queued) ∧
    st.socket.high ++ st.socket.low = queued.map Datagram.node ∧
    st.socket.freed = done.map (fun d => d.so.free) ∧
    settled st.attempts = done.map (Datagram.sent st.socket.protocol)
  tried : ∀ round ∈ st.rounds, round.2 = 0 ∨ EndsInRetry round.1

theorem Tracked.start {s : Socket} (hs : IsUdp s) : Tracked (.start s) where
  udp := hs.protocol
  type := hs.type
  whole := nofun
  once := ⟨[], [], .nil, by simp [UdpState.start, hs.high, hs.low], hs.freed, rfl⟩
  tried := nofun

theorem Tracked.independent {st : UdpState} (h : Tracked st) : Independent st where
  whole a ha := by
    obtain ⟨d, hd, hsent⟩ := h.whole a ha
    exact ⟨d, hd, congrArg Prod.fst hsent, congrArg Prod.snd hsent⟩
  once := h.once
  tried := h.tried

/-- **A step keeps the packages apart.** -/
theorem Tracked.step {st st' : UdpState} {op : UdpOp} (h : Tracked st) (hwhole : UdpState.Whole op)
    (hpermits : st.Permits op) (hstep : st.step op = .ok st') : Tracked st' := by
  obtain ⟨done, queued, hperm, hlists, hfreed, hsettled⟩ := h.once
  cases op with
  | send so priority address results =>
    obtain ⟨s', heq, hprotocol, htype, hcases⟩ :=
      @sendSocket_udp st.socket results so priority address h.udp h.type hwhole hpermits
    rw [UdpState.step, heq] at hstep
    cases hstep
    refine ⟨hprotocol ▸ h.udp, htype, fun a ha => ?_, ?_, h.tried⟩
    · rw [Socket.quiet, hprotocol]
      rcases mem_append.mp ha with ha | ha
      · obtain ⟨d, hd, hsent⟩ := h.whole a ha
        exact ⟨d, mem_append_left _ hd, hsent⟩
      · exact ⟨_, mem_append_right _ (mem_singleton_self _), mem_directAttempts ha⟩
    · simp only [Socket.quiet, hprotocol, settled_append, hsettled]
      rcases hcases with ⟨hsame, hfree, hcalls⟩ | ⟨⟨before, behind, hbefore, hbehind⟩, hfree, hcalls⟩
      · refine ⟨done ++ [⟨so, st.socket.addressOr address⟩], queued, ?_, hsame.trans hlists, ?_, ?_⟩
        · refine (hperm.append_right _).trans ?_
          rw [append_assoc, append_assoc]
          exact perm_append_comm.append_left done
        · rw [hfree, hfreed, map_append]
          rfl
        · rw [hcalls, map_append]
          rfl
      · rw [hlists] at hbefore
        obtain ⟨front, back, rfl, rfl, rfl⟩ := map_eq_append_iff.mp hbefore
        refine ⟨done, front ++ ⟨so, st.socket.addressOr address⟩ :: back, ?_, ?_, ?_, ?_⟩
        · refine (hperm.append_right _).trans ?_
          rw [append_assoc, append_assoc]
          exact ((perm_append_singleton _ back).append_left front).append_left done
        · rw [hbehind, map_append]
          rfl
        · rw [hfree, hfreed]
        · rw [hcalls, append_nil]
  | setAddress address =>
    rw [UdpState.step] at hstep
    cases hstep
    have hsame : ∀ s : Socket, (s.setUdpAddress s.id address).socket.protocol = s.protocol ∧
        (s.setUdpAddress s.id address).socket.type = s.type ∧
        (s.setUdpAddress s.id address).socket.high = s.high ∧
        (s.setUdpAddress s.id address).socket.low = s.low ∧
        (s.setUdpAddress s.id address).socket.freed = s.freed := fun s => by
      rw [Socket.setUdpAddress]
      split_ifs <;> exact ⟨rfl, rfl, rfl, rfl, rfl⟩
    obtain ⟨hprotocol, htype, hhigh, hlow, hfree⟩ := hsame st.socket
    refine ⟨?_, ?_, ?_, ⟨done, queued, hperm, ?_, ?_, ?_⟩, h.tried⟩
    · rw [hprotocol]
      exact h.udp
    · rw [htype]
      exact h.type
    · rw [hprotocol]
      exact h.whole
    · rw [hhigh, hlow, hlists]
    · rw [hfree, hfreed]
    · rw [hprotocol, hsettled]
  | write results =>
    obtain ⟨s', gone, heq, hprotocol, htype, hall, hfree, hgone, hend⟩ :=
      sendBuffer_udp h.udp h.type hpermits.2 hpermits.1
    rw [UdpState.step, heq] at hstep
    cases hstep
    rw [hlists] at hall
    obtain ⟨front, back, rfl, rfl, hback⟩ := map_eq_append_iff.mp hall
    refine ⟨hprotocol ▸ h.udp, htype, fun a ha => ?_, ?_, fun round hround => ?_⟩
    · rw [Socket.quiet, hprotocol]
      rcases mem_append.mp ha with ha | ha
      · exact h.whole a ha
      · obtain ⟨wb, hwb, hsent⟩ := mem_bufferAttempts ha
        rw [hlists] at hwb
        obtain ⟨d, hd, rfl⟩ := mem_map.mp hwb
        exact ⟨d, hperm.mem_iff.mpr (mem_append_right _ hd), hsent.trans (sent_node _ d)⟩
    · refine ⟨done ++ front, back, ?_, hback.symm, ?_, ?_⟩
      · rwa [append_assoc]
      · rw [Socket.quiet, hfree, hfreed, map_append, map_map]
        rfl
      · rw [Socket.quiet, hprotocol, settled_append, hsettled, hgone, map_append,
          map_map]
        exact congrArg (_ ++ ·) (map_congr_left fun d _ => sent_node _ d)
    · rcases mem_append.mp hround with hround | hround
      · exact h.tried round hround
      · rw [mem_singleton.mp hround]
        refine hend.imp_left fun hnil => ?_
        rw [Socket.quiet, ← length_append, hnil]
        rfl

/-- **The packages are independent.** A socket for datagrams that takes packages of any priority for
any addresses hands each one over whole, to its own address, once; frees it once; and tries all that
is queued at every write event, if no `sendto` fails for good and no write event finds a user object
in front of the list of low priority. -/
theorem datagrams_independent {s : Socket} {st : UdpState} (hs : IsUdp s)
    (hrun : Reaches UdpState.step (fun st op => UdpState.Whole op ∧ st.Permits op) (.start s) st) :
    Independent st := by
  have htracked : Tracked st :=
    hrun.invariant (Tracked.start hs) fun u v op hu hok hstep => hu.step hok.1 hok.2 hstep
  exact htracked.independent

/-! ### Two runs -/

/-- A socket for datagrams that was just made. -/
def freshUdp : Socket where
  opaqueId := 1
  high := []
  low := []
  wbSize := 0
  fd := some (.own 0)
  id := 1
  protocol := .udp
  type := .connected
  p := .udpAddress (List.replicate udpAddressSize 0)
  registered := true
  writing := false
  stream := []
  datagrams := []
  freed := []

theorem isUdp_freshUdp : IsUdp freshUdp :=
  ⟨by decide, rfl, rfl, rfl, rfl⟩

/-- A package of one byte, as a plain buffer at the address `n`. -/
def onePackage (n : ℕ) : SendObject :=
  ⟨n, n, [7], false⟩

/-- An address of the internet protocol version 4. -/
def hostAddress (n : UInt8) : List UInt8 :=
  [1, 0, 53, 10, 0, 0, n] ++ List.replicate 12 0

/-- **A package that fails for good blocks the others.** The `sendto` for the first package fails,
and so it does at the write event; the second package is never tried. -/
theorem failing_blocks :
    ∃ st, Reaches UdpState.step (fun _ => UdpState.Whole) (.start freshUdp) st ∧
      st.accepted = [⟨onePackage 1, hostAddress 1⟩, ⟨onePackage 2, hostAddress 2⟩] ∧
      st.attempts.map (fun a => (a.address, a.result)) =
        [(some [0, 53, 10, 0, 0, 1], .error), (some [0, 53, 10, 0, 0, 1], .error)] ∧
      st.socket.high.map (fun wb => wb.buffer) = [1, 2] ∧ ¬Independent st := by
  obtain ⟨st, heq, haccepted, hattempts, hhigh, hround⟩ :
      ∃ st, Transition.exec UdpState.step (.start freshUdp)
          [.send (onePackage 1) .high (some (hostAddress 1)) [.error],
            .send (onePackage 2) .high (some (hostAddress 2)) [], .write [.error]] = .ok st ∧
        st.accepted = [⟨onePackage 1, hostAddress 1⟩, ⟨onePackage 2, hostAddress 2⟩] ∧
        st.attempts.map (fun a => (a.address, a.result)) =
          [(some [0, 53, 10, 0, 0, 1], .error), (some [0, 53, 10, 0, 0, 1], .error)] ∧
        st.socket.high.map (fun wb => wb.buffer) = [1, 2] ∧
        st.rounds = [([⟨[7], some [0, 53, 10, 0, 0, 1], .error⟩], 2)] :=
    ⟨_, rfl, rfl, rfl, rfl, rfl⟩
  refine ⟨st, Transition.reaches_of_exec heq ?_, haccepted, hattempts, hhigh, fun h => ?_⟩
  · intro op hop _
    simp only [List.mem_cons, List.not_mem_nil, or_false] at hop
    obtain rfl | rfl | rfl := hop <;> simp [UdpState.Whole]
  · have htried := h.tried _ (hround ▸ mem_cons_self)
    simp [WriteResult.isRetry] at htried

/-- A package that waits and one that overtakes it. -/
def waitingRun : List UdpOp :=
  [.send (onePackage 1) .low (some (hostAddress 1)) [.eagain],
    .send (onePackage 2) .high (some (hostAddress 2)) [], .write [.wrote 1, .wrote 1]]

theorem datagrams_independent_waiting :
    ∃ st, Transition.exec UdpState.step (.start freshUdp) waitingRun = .ok st ∧
      st.socket.freed = [⟨2, false⟩, ⟨1, false⟩] ∧ Independent st := by
  obtain ⟨st, heq, hfreed⟩ : ∃ st, Transition.exec UdpState.step (.start freshUdp) waitingRun =
      .ok st ∧ st.socket.freed = [⟨2, false⟩, ⟨1, false⟩] := ⟨_, rfl, rfl⟩
  refine ⟨st, heq, hfreed, datagrams_independent isUdp_freshUdp (Transition.Permitted.reaches ?_ heq)⟩
  exact .cons ⟨fun n h => by simp at h, fun _ => by simp⟩ rfl
    (.cons ⟨fun n h => by simp at h, fun _ => by simp⟩ rfl
      (.cons ⟨trivial, by simp, rfl⟩ rfl trivial))

end Mtask.SocketServer
