import Mtask.HarborService.NameRouting
import Mtask.Lib.Sums

/-!
# The buffers of the harbor service

The chunks of the sockets, the payloads of the messages for other harbors and the buffers for the
frames that are received are blocks of memory that the service frees or gives away with a call of
`mtask_send`. What it has settled in this way and what it holds, in its slots and under names, are
compared with what it was given.
-/

namespace Mtask.HarborService

open Transition (Reaches)
open List

/-! ### What is settled and what is held -/

/-- The buffer that `mtask_send` takes over, if the type says that it is not copied. -/
def SendArgs.given (args : SendArgs) : Multiset ℕ :=
  if args.type &&& tagDontcopy ≠ 0 then {args.data.addr} else 0

/-- The buffers that a call frees or gives away. -/
def Call.settles : Call → Multiset ℕ
  | .free addr => {addr}
  | .mtaskSend args => args.given
  | .mtaskSendOr args _ _ => args.given
  | _ => 0

def settled (calls : List Call) : Multiset ℕ :=
  (calls.map Call.settles).sum

/-- The payloads in a queue. -/
def queueBuffers (queue : Option HarborMsgQueue) : Multiset ℕ :=
  ((queueList queue).map fun m => m.buffer.addr : List ℕ)

/-- The buffers of a slot: its queue, and the frame that it receives. -/
def Slave.buffers (s : Slave) : Multiset ℕ :=
  queueBuffers s.queue + (s.recvBuffer.toList.map Buffer.addr : List ℕ)

/-- The payloads that wait under the names of a list. -/
def nodeBuffers (nodes : List KeyValue) : Multiset ℕ :=
  (nodes.map fun node => queueBuffers node.queue).sum

def Hashmap.buffers (hash : Hashmap) : Multiset ℕ :=
  ∑ i ∈ Finset.range hashSize, nodeBuffers (hash.node i)

/-- The buffers that the service holds. -/
def Harbor.held (h : Harbor) : Multiset ℕ :=
  ∑ j ∈ Finset.range remoteMax, (h.s j).buffers + h.map.buffers

/-- The buffers that the service has allocated for frames. -/
def Harbor.received (h : Harbor) : Multiset ℕ :=
  (Multiset.range h.nextAddr).filter (0 < ·)

/-- What is settled and what is held. -/
def Harbor.balance (h : Harbor) : Multiset ℕ :=
  settled h.calls + h.held

/-! ### `harbor_release` -/

/-- `hash_delete`: the queues of all nodes are released. -/
def hashDelete (h : Harbor) : Harbor :=
  { (List.range hashSize).foldl
      (fun h' i => (h.map.node i).foldl (fun h' node => releaseQueue h' node.queue) h') h with
    map := hashNew }

/-- `harbor_release` -/
def harborRelease (h : Harbor) : Harbor :=
  hashDelete ((List.range' 1 (remoteMax - 1)).foldl
    (fun h i => if (h.s i).fd ≠ 0 ∧ (h.s i).status ≠ .down then closeHarbor h i else h) h)

/-! ### Runs -/

/-- The buffer that comes with a message: the chunk of a socket, or the payload. -/
def Input.buffers : Input → Multiset ℕ
  | .socketData message => {message.buffer.addr}
  | .remote _ _ _ rmsg => {rmsg.message.addr}
  | _ => 0

/-- The service, and the buffers that it was given. -/
structure BufferState where
  h : Harbor
  given : Multiset ℕ

namespace BufferState

def start (id : UInt8) (slave : UInt32) : BufferState where
  h := harborInit id slave
  given := 0

def step (st : BufferState) (input : Input) : Except HarborFault BufferState :=
  match mainloop st.h input with
  | .error e => .error e
  | .ok h => .ok ⟨h, st.given + input.buffers⟩

/-- A chunk comes from a socket that is in a slot. -/
def Permits (st : BufferState) (input : Input) : Prop :=
  ∀ message, input = .socketData message → harborId st.h message.id ≠ 0

end BufferState

/-! ### The buffers of slots and names -/

variable {s : Slave}

theorem Slave.buffers_of_none (hrecv : s.recvBuffer = none) : s.buffers = queueBuffers s.queue := by
  rw [Slave.buffers, hrecv]
  exact add_zero _

theorem Slave.buffers_of_some {b : Buffer} (hrecv : s.recvBuffer = some b) :
    s.buffers = queueBuffers s.queue + {b.addr} := by
  rw [Slave.buffers, hrecv]
  rfl

section Lists

variable {h : Harbor} {calls calls' : List Call}

theorem settled_append : settled (calls ++ calls') = settled calls + settled calls' := by
  rw [settled, map_append, sum_append, settled, settled]

@[simp] theorem settled_nil : settled [] = 0 := rfl

@[simp] theorem settled_cons (c : Call) : settled (c :: calls) = c.settles + settled calls :=
  sum_cons

theorem settled_flatMap {α : Type*} (l : List α) (f : α → List Call) :
    settled (l.flatMap f) = (l.map fun a => settled (f a)).sum := by
  induction l with
  | nil => rfl
  | cons a l ih => rw [flatMap_cons, settled_append, ih, map_cons, sum_cons]

theorem settled_free (l : List HarborMsg) :
    settled (l.map fun m => .free m.buffer.addr) = (l.map fun m => m.buffer.addr : List ℕ) := by
  induction l with
  | nil => rfl
  | cons m l ih =>
    rw [map_cons, settled_cons, ih, map_cons, ← Multiset.cons_coe,
      ← Multiset.singleton_add]
    rfl

theorem settles_of_type {args : SendArgs} (htype : args.type &&& tagDontcopy = 0) :
    (Call.mtaskSend args).settles = 0 :=
  if_neg (not_not.mpr htype)

theorem settles_remoteCall (fd : ℤ) (buffer : Buffer) (cookie : RemoteMessageHeader) :
    (remoteCall fd buffer cookie).settles = 0 := by
  rw [remoteCall]
  split_ifs <;> rfl

/-- The messages of a queue are sent and freed. -/
theorem settled_queuedCalls (fd : ℤ) (f : HarborMsg → HarborMsg)
    (hf : ∀ m, (f m).buffer = m.buffer) (l : List HarborMsg) :
    settled (l.flatMap fun m => queuedCalls fd (f m)) =
      (l.map fun m => m.buffer.addr : List ℕ) := by
  induction l with
  | nil => rfl
  | cons m l ih =>
    rw [flatMap_cons, settled_append, ih, queuedCalls, settled_cons, settled_cons,
      settled_nil, settles_remoteCall, hf, zero_add, add_zero, map_cons, ← Multiset.cons_coe,
      ← Multiset.singleton_add]
    rfl

theorem balance_callAll : (h.callAll calls).balance = h.balance + settled calls := by
  have hheld : (h.callAll calls).held = h.held := rfl
  rw [Harbor.balance, hheld, Harbor.callAll, settled_append, Harbor.balance]
  abel

theorem balance_setSlave {id : ℕ} (hid : id < remoteMax) (s : Slave) :
    (h.setSlave id s).balance + (h.s id).buffers = h.balance + s.buffers := by
  have hsum := Sums.sum_update_add hid h.s s Slave.buffers
  have hmap : (h.setSlave id s).map = h.map := rfl
  have hcalls : (h.setSlave id s).calls = h.calls := rfl
  rw [Harbor.balance, Harbor.balance, Harbor.held, Harbor.held, hmap, hcalls]
  have hgoal : settled h.calls + (∑ j ∈ Finset.range remoteMax, ((h.setSlave id s).s j).buffers +
      h.map.buffers) + (h.s id).buffers = settled h.calls + h.map.buffers +
      (∑ j ∈ Finset.range remoteMax, ((h.setSlave id s).s j).buffers + (h.s id).buffers) := by abel
  rw [hgoal, Harbor.setSlave, hsum]
  abel

end Lists

/-! ### What a function does to the buffers -/

/-- What the buffers of a slot need: a slot that has left its first state has a socket, and only a
slot that reads a content has a buffer for it. -/
structure Slave.Reads (s : Slave) : Prop where
  linked : s.fd = 0 → s.status = .wait
  content : s.recvBuffer ≠ none → s.status = .content

/-- The slots are as the buffers need them. -/
structure BufferInv (h : Harbor) : Prop where
  reads : ∀ j, (h.s j).Reads
  nextAddr : 0 < h.nextAddr

/-- From `h` to `h'`, what is settled and what is held has grown by the buffers that were received
and the buffers `given`. -/
structure Accounts (given : Multiset ℕ) (h h' : Harbor) : Prop where
  inv : BufferInv h'
  balance : h'.balance + h.received = h.balance + h'.received + given

namespace Accounts

variable {h h₁ h₂ : Harbor} {id : ℕ} {given given' : Multiset ℕ} {calls : List Call}

theorem refl (hinv : BufferInv h) : Accounts 0 h h :=
  ⟨hinv, (add_zero _).symm⟩

theorem trans (a : Accounts given h h₁) (a' : Accounts given' h₁ h₂) :
    Accounts (given + given') h h₂ := by
  refine ⟨a'.inv, add_right_cancel (b := h₁.received) ?_⟩
  calc h₂.balance + h.received + h₁.received
      = (h₂.balance + h₁.received) + h.received := by abel
    _ = (h₁.balance + h₂.received + given') + h.received := by rw [a'.balance]
    _ = (h₁.balance + h.received) + h₂.received + given' := by abel
    _ = (h.balance + h₁.received + given) + h₂.received + given' := by rw [a.balance]
    _ = h.balance + h₂.received + (given + given') + h₁.received := by abel

theorem callAll (hinv : BufferInv h) (calls : List Call) :
    Accounts (settled calls) h (h.callAll calls) := by
  refine ⟨⟨hinv.reads, hinv.nextAddr⟩, ?_⟩
  have hreceived : (h.callAll calls).received = h.received := rfl
  rw [balance_callAll, hreceived]
  abel

theorem call (hinv : BufferInv h) (c : Call) : Accounts c.settles h (h.call c) := by
  have hcall := callAll hinv [c]
  rwa [settled_cons, settled_nil, add_zero] at hcall

theorem slot (hinv : BufferInv h) (hid : id < remoteMax) (hs : s.Reads)
    (hbuffers : s.buffers + settled calls = (h.s id).buffers + given) :
    Accounts given h ((h.setSlave id s).callAll calls) := by
  refine ⟨⟨fun j => ?_, hinv.nextAddr⟩, add_right_cancel (b := (h.s id).buffers) ?_⟩
  · by_cases hj : j = id
    · rw [hj, s_callAll, s_setSlave_self]
      exact hs
    · rw [s_callAll, s_setSlave_of_ne _ hj]
      exact hinv.reads j
  · have hreceived : ((h.setSlave id s).callAll calls).received = h.received := rfl
    have hset := balance_setSlave (h := h) hid s
    calc ((h.setSlave id s).callAll calls).balance + h.received + (h.s id).buffers
        = (h.setSlave id s).balance + (h.s id).buffers + settled calls + h.received := by
          rw [balance_callAll]
          abel
      _ = h.balance + (s.buffers + settled calls) + h.received := by
          rw [hset]
          abel
      _ = h.balance + ((h.setSlave id s).callAll calls).received + given + (h.s id).buffers := by
          rw [hbuffers, hreceived]
          abel

theorem setSlave (hinv : BufferInv h) (hid : id < remoteMax) (hs : s.Reads)
    (hbuffers : s.buffers = (h.s id).buffers + given) : Accounts given h (h.setSlave id s) := by
  have hslot : Accounts given h ((h.setSlave id s).callAll []) :=
    slot hinv hid hs (by rwa [settled_nil, add_zero])
  rwa [callAll_nil] at hslot

theorem setMap (a : Accounts given h h₁) (map : Hashmap)
    (hmap : map.buffers + given = h₁.map.buffers + given') : Accounts given' h { h₁ with map } := by
  refine ⟨⟨a.inv.reads, a.inv.nextAddr⟩, add_right_cancel (b := h₁.map.buffers + given) ?_⟩
  have hreceived : Harbor.received { h₁ with map } = h₁.received := rfl
  have hbalance : Harbor.balance { h₁ with map } + h₁.map.buffers = h₁.balance + map.buffers := by
    have hheld : Harbor.held { h₁ with map } =
        ∑ j ∈ Finset.range remoteMax, (h₁.s j).buffers + map.buffers := rfl
    rw [Harbor.balance, hheld, Harbor.balance, Harbor.held]
    abel
  calc Harbor.balance { h₁ with map } + h.received + (h₁.map.buffers + given)
      = (Harbor.balance { h₁ with map } + h₁.map.buffers) + h.received + given := by abel
    _ = (h₁.balance + h.received) + (map.buffers + given) := by
        rw [hbalance]
        abel
    _ = h.balance + h₁.received + given' + (h₁.map.buffers + given) := by
        rw [a.balance, hmap]
        abel
    _ = _ := by rw [hreceived]

end Accounts

/-! ### Slots and links -/

section Link

variable {h h₁ : Harbor} {id : ℕ} {fd size size₁ : ℤ} {buffer : List UInt8}

theorem settled_socketClose :
    settled ((if fd ≠ 0 then [.socketClose fd] else []) ++ calls) = settled calls := by
  rw [settled_append]
  split_ifs <;> exact zero_add _

theorem buffers_setQueue {s' : Slave} (hrecv : s'.recvBuffer = s.recvBuffer)
    (hqueue : s'.queue = none) :
    s'.buffers + ((queueList s.queue).map fun m => m.buffer.addr : List ℕ) = s.buffers := by
  rw [Slave.buffers, Slave.buffers, hrecv, hqueue, queueBuffers, queueBuffers, queueList, add_comm,
    map_nil, Multiset.coe_nil, zero_add]

theorem balance_closeHarbor (hid : id < remoteMax) : (closeHarbor h id).balance = h.balance := by
  have hset := balance_setSlave (h := h) hid { h.s id with status := .down, queue := none }
  have hbuffers : ({ h.s id with status := .down, queue := none } : Slave).buffers +
      ((queueList (h.s id).queue).map fun m => m.buffer.addr : List ℕ) = (h.s id).buffers :=
    buffers_setQueue rfl rfl
  rw [closeHarbor_eq, balance_callAll, settled_socketClose, settled_free]
  refine add_right_cancel (b := (h.s id).buffers) ?_
  rw [add_right_comm, hset, add_assoc, hbuffers]

theorem Accounts.closeHarbor (hinv : BufferInv h) (hid : id < remoteMax)
    (hfd : (h.s id).fd ≠ 0) (hrecv : (h.s id).recvBuffer = none) :
    Accounts 0 h (closeHarbor h id) := by
  rw [closeHarbor_eq]
  refine .slot hinv hid ⟨fun h0 => absurd h0 hfd, fun hne => absurd hrecv hne⟩ ?_
  rw [settled_socketClose, settled_free, add_zero]
  exact buffers_setQueue rfl rfl

/-- The queue of a slot is sent over its link. -/
theorem Accounts.dispatchQueue (hinv : BufferInv h) (hid : id < remoteMax)
    (heq : dispatchQueue h id = .ok h₁) : Accounts 0 h h₁ ∧ (h₁.s id).fd = (h.s id).fd ∧
      (h₁.s id).status = (h.s id).status ∧ (h₁.s id).recvBuffer = (h.s id).recvBuffer := by
  by_cases hfd : (h.s id).fd = 0
  · simp [HarborService.dispatchQueue, hfd] at heq
  rw [dispatchQueue_eq h hfd, Except.ok.injEq] at heq
  subst heq
  rw [s_callAll, s_setSlave_self]
  refine ⟨.slot hinv hid ⟨(hinv.reads id).linked, (hinv.reads id).content⟩ ?_, rfl, rfl, rfl⟩
  have hsettled := settled_queuedCalls (h.s id).fd (fun m => m) (fun _ => rfl)
    (queueList (h.s id).queue)
  rw [hsettled, add_zero]
  exact buffers_setQueue rfl rfl

theorem Accounts.opened (hinv : BufferInv h) (hid : id < remoteMax) (hfd : (h.s id).fd ≠ 0)
    (hrecv : (h.s id).recvBuffer = none) : Accounts 0 h (opened h id) := by
  refine .slot hinv hid ⟨fun h0 => absurd h0 hfd, fun hne => absurd hrecv hne⟩ ?_
  have hsettled := settled_queuedCalls (h.s id).fd (fun m => m) (fun _ => rfl)
    (queueList (h.s id).queue)
  rw [hsettled, add_zero]
  exact buffers_setQueue rfl rfl

theorem forwardLocalMessage_settles {msg : Buffer} {sz : ℤ}
    (heq : forwardLocalMessage h msg sz = .ok h₁) :
    ∃ c : Call, h₁ = h.call c ∧ c.settles = {msg.addr} := by
  rw [forwardLocalMessage] at heq
  split_ifs at heq
  cases heq
  exact ⟨_, rfl, if_pos (type_or_tag_and _)⟩

variable {flow : Flow}

theorem Accounts.contentCase (hinv : BufferInv h) (hid : id < remoteMax) (hfd : (h.s id).fd ≠ 0)
    (hstatus : (h.s id).status = .content) (heq : contentCase h id buffer size = .ok flow) :
    Accounts 0 h flow.harbor := by
  unfold HarborService.contentCase at heq
  dsimp only at heq
  split at heq
  · simp at heq
  rename_i recvBuffer hrecv
  split at heq
  · split at heq <;> cases heq
    refine .setSlave hinv hid ⟨fun h0 => absurd h0 hfd, fun _ => hstatus⟩ ?_
    rw [Slave.buffers_of_some hrecv, Slave.buffers_of_some rfl, add_zero]
  · split at heq
    · simp at heq
    split at heq
    · simp at heq
    rename_i hforward
    obtain ⟨c, rfl, hc⟩ := forwardLocalMessage_settles hforward
    have hdone : Accounts 0 h ((h.setSlave id { h.s id with
        length := 0, read := 0, recvBuffer := none, status := .header }).callAll [c]) := by
      refine .slot hinv hid ⟨fun h0 => absurd h0 hfd, fun hne => absurd rfl hne⟩ ?_
      rw [Slave.buffers_of_some hrecv, Slave.buffers_of_none rfl, settled_cons, hc, settled_nil,
        add_zero, add_zero]
    split at heq <;> cases heq <;> exact hdone

theorem received_succ (hpos : 0 < h.nextAddr) :
    Harbor.received { h with nextAddr := h.nextAddr + 1 } = h.received + {h.nextAddr} := by
  rw [Harbor.received, Multiset.range_succ, Multiset.filter_cons_of_pos _ hpos,
    ← Multiset.singleton_add, add_comm]
  rfl

theorem Accounts.allocate {b : List UInt8} (hinv : BufferInv h) (hid : id < remoteMax)
    (hs : s.Reads) (hrecv : s.recvBuffer = some ⟨h.nextAddr, b⟩)
    (hnone : (h.s id).recvBuffer = none) (hqueue : s.queue = (h.s id).queue) :
    Accounts 0 h ({ h with nextAddr := h.nextAddr + 1 }.setSlave id s) := by
  have hinv' : BufferInv { h with nextAddr := h.nextAddr + 1 } :=
    ⟨hinv.reads, Nat.succ_pos _⟩
  have hslot : Accounts {h.nextAddr} _ ({ h with nextAddr := h.nextAddr + 1 }.setSlave id s) :=
    setSlave hinv' hid hs (by
      rw [Slave.buffers_of_some hrecv, Slave.buffers_of_none hnone, hqueue])
  refine ⟨hslot.inv, add_right_cancel (b := {h.nextAddr}) ?_⟩
  have hbalance : Harbor.balance { h with nextAddr := h.nextAddr + 1 } = h.balance := rfl
  rw [add_assoc, ← received_succ hinv.nextAddr, hslot.balance, hbalance, add_zero]

section

variable (hinv : BufferInv h) (hid : id < remoteMax)
include hinv hid

theorem Accounts.headerCase (hfd : (h.s id).fd ≠ 0) (hrecv : (h.s id).recvBuffer = none)
    (heq : headerCase h id buffer size = .ok flow) : Accounts 0 h flow.harbor := by
  unfold HarborService.headerCase at heq
  dsimp only at heq
  split at heq
  · split at heq <;> cases heq
    refine .setSlave hinv hid ⟨(hinv.reads id).linked, (hinv.reads id).content⟩ ?_
    rw [add_zero]
    rfl
  · split at heq
    · simp at heq
    rename_i bytes _
    split at heq
    · cases heq
      have hset : Accounts 0 h (h.setSlave id { h.s id with size := bytes }) :=
        .setSlave hinv hid ⟨(hinv.reads id).linked, (hinv.reads id).content⟩ (add_zero _).symm
      have hcall := hset.trans (.call hset.inv (.error (.messageTooLong id)))
      refine hcall.trans (.closeHarbor hcall.inv hid ?_ ?_)
      all_goals rw [s_call, s_setSlave_self]
      · exact hfd
      · exact hrecv
    have hallocate : ∀ length : ℕ, Accounts 0 h ({ h with nextAddr := h.nextAddr + 1 }.setSlave id
        { h.s id with
          size := bytes
          length
          read := 0
          recvBuffer := some ⟨h.nextAddr, List.replicate length 0⟩
          status := .content }) := fun length =>
      .allocate hinv hid ⟨fun h0 => absurd h0 hfd, fun _ => rfl⟩ rfl hrecv rfl
    split at heq
    · cases heq
      exact hallocate _
    · refine (hallocate _).trans (.contentCase (hallocate _).inv hid ?_ ?_ heq)
      all_goals rw [s_setSlave_self]
      · exact hfd

theorem Accounts.handshakeCase (hstatus : (h.s id).status = .handshake)
    (heq : handshakeCase h id fd buffer size = .ok flow) : Accounts 0 h flow.harbor := by
  have hfd : (h.s id).fd ≠ 0 := fun h0 => by
    rw [(hinv.reads id).linked h0] at hstatus
    exact SlaveStatus.noConfusion hstatus
  have hrecv : (h.s id).recvBuffer = none := by
    by_contra hne
    rw [(hinv.reads id).content hne] at hstatus
    exact SlaveStatus.noConfusion hstatus
  unfold HarborService.handshakeCase at heq
  split at heq
  · simp at heq
  split at heq
  · rename_i remoteId _ _
    cases heq
    have hcall := call hinv (.error (.invalidShakehand id fd remoteId))
    exact hcall.trans (.closeHarbor hcall.inv hid hfd hrecv)
  · split at heq
    · simp at heq
    rename_i hdispatch
    have hset : Accounts 0 h (h.setSlave id { h.s id with status := .header }) :=
      .setSlave hinv hid ⟨fun h0 => absurd h0 hfd, fun hne => absurd hrecv hne⟩ (add_zero _).symm
    obtain ⟨hsent, hfd', -, hrecv'⟩ := dispatchQueue hset.inv hid hdispatch
    rw [s_setSlave_self] at hfd' hrecv'
    split at heq
    · cases heq
      exact hset.trans hsent
    · refine (hset.trans hsent).trans (.headerCase hsent.inv hid ?_ ?_ heq)
      · rw [hfd']
        exact hfd
      · rw [hrecv']
        exact hrecv

theorem Accounts.statusCase (heq : statusCase h id fd buffer size = .ok flow) :
    Accounts 0 h flow.harbor := by
  have hfd : (h.s id).status ≠ .wait → (h.s id).fd ≠ 0 := mt (hinv.reads id).linked
  unfold HarborService.statusCase at heq
  split at heq
  · rename_i hstatus
    exact handshakeCase hinv hid hstatus heq
  · rename_i hstatus
    refine headerCase hinv hid (hfd (by rw [hstatus]; decide)) ?_ heq
    by_contra hne
    rw [(hinv.reads id).content hne] at hstatus
    exact SlaveStatus.noConfusion hstatus
  · rename_i hstatus
    exact contentCase hinv hid (hfd (by rw [hstatus]; decide)) hstatus heq
  all_goals
    cases heq
    exact refl hinv

end

theorem Accounts.socketDataLoop (n : ℕ) (hinv : BufferInv h) (hid : id < remoteMax)
    (heq : socketDataLoop id fd n h buffer size = .ok (h₁, size₁)) : Accounts 0 h h₁ := by
  induction n generalizing h buffer size with
  | zero => simp [HarborService.socketDataLoop] at heq
  | succ n ih =>
    rw [HarborService.socketDataLoop] at heq
    split at heq
    · simp at heq
    · rename_i hstatus
      cases heq
      exact statusCase hinv hid hstatus
    · rename_i hstatus
      have hround : Accounts 0 h _ := statusCase hinv hid hstatus
      exact hround.trans (ih hround.inv heq)

theorem harborId_lt (h : Harbor) (fd : ℤ) : harborId h fd < remoteMax := by
  rw [harborId]
  rcases hfind : (List.range' 1 (remoteMax - 1)).find? fun i => (h.s i).fd = fd with _ | i
  · exact (by decide : 0 < remoteMax)
  · have hmem := mem_range'_1.mp (mem_of_find?_eq_some hfind)
    have hmax : 1 + (remoteMax - 1) = remoteMax := rfl
    exact hmax ▸ hmem.2

end Link

/-! ### Names -/

section Names

variable {hash : Hashmap} {name : GlobalName} {node : KeyValue} {f : KeyValue → KeyValue}

theorem hashIndex_lt (name : GlobalName) : hashIndex name < hashSize :=
  Nat.mod_lt _ (by decide)

theorem nodeBuffers_cons (node : KeyValue) (l : List KeyValue) :
    nodeBuffers (node :: l) = queueBuffers node.queue + nodeBuffers l := by
  rw [nodeBuffers, map_cons, sum_cons, nodeBuffers]

theorem nodeBuffers_modify (p : KeyValue → Bool) :
    ∀ l : List KeyValue, l.find? p = some node →
      nodeBuffers (l.modify (l.findIdx p) f) + queueBuffers node.queue =
        nodeBuffers l + queueBuffers (f node).queue
  | [], hfind => by simp at hfind
  | a :: l, hfind => by
    rw [findIdx_cons]
    rcases ha : p a with _ | _
    · rw [find?_cons_of_neg (by simp [ha])] at hfind
      rw [cond_false, modify_succ_cons, nodeBuffers_cons, nodeBuffers_cons, add_assoc,
        nodeBuffers_modify p l hfind, add_assoc]
    · rw [find?_cons_of_pos ha, Option.some.injEq] at hfind
      rw [cond_true, modify_zero_cons, nodeBuffers_cons, nodeBuffers_cons, hfind]
      abel

theorem buffers_hashModify (hsearch : hashSearch hash name = some node) :
    (hashModify hash name f).buffers + queueBuffers node.queue =
      hash.buffers + queueBuffers (f node).queue := by
  have hsum := Sums.sum_update_add (hashIndex_lt name) hash.node
    ((hash.node (hashIndex name)).modify
      ((hash.node (hashIndex name)).findIdx fun node => node.matches name) f) nodeBuffers
  have hmodify : nodeBuffers _ + _ = _ :=
    nodeBuffers_modify (f := f) (fun node => node.matches name) _ hsearch
  refine add_right_cancel (b := nodeBuffers (hash.node (hashIndex name))) ?_
  rw [add_right_comm, Hashmap.buffers, hashModify]
  simp only
  rw [hsum, add_assoc, hmodify, Hashmap.buffers]
  abel

theorem buffers_hashNode (hash : Hashmap) (name : GlobalName) :
    (hashNode hash name).1.buffers = hash.buffers := by
  rw [hashNode]
  rcases hashSearch hash name with _ | node
  · have hsum := Sums.sum_update_add (hashIndex_lt name) hash.node
      ((hashInsert hash name).2 :: hash.node (hashIndex name)) nodeBuffers
    have hinsert : queueBuffers (hashInsert hash name).2.queue = 0 := rfl
    rw [nodeBuffers_cons, hinsert, zero_add] at hsum
    exact add_right_cancel hsum
  · rfl

theorem buffers_hashModify_node :
    (hashModify (hashNode hash name).1 name f).buffers +
        queueBuffers (hashNode hash name).2.queue =
      hash.buffers + queueBuffers (f (hashNode hash name).2).queue := by
  have hsearch : hashSearch (hashNode hash name).1 name = some (hashNode hash name).2 := by
    rw [hashSearch_node, if_pos rfl]
  rw [buffers_hashModify hsearch, buffers_hashNode]

theorem buffers_boundMap (hash : Hashmap) (name : GlobalName) (handle : UInt32) :
    (boundMap hash name handle).buffers = hash.buffers :=
  add_right_cancel buffers_hashModify_node

theorem buffers_emptiedMap (hash : Hashmap) (name : GlobalName) (handle : UInt32) :
    (emptiedMap (boundMap hash name handle) name).buffers +
      queueBuffers (hashNode hash name).2.queue = hash.buffers := by
  have hsearch : hashSearch (boundMap hash name handle) name =
      some { (hashNode hash name).2 with value := handle } := by
    have hfound := @hashSearch_modify (hashNode hash name).1 name name
      (fun node => { node with value := handle }) fun _ => ⟨rfl, rfl⟩
    rw [if_pos rfl, hashSearch_node, if_pos rfl] at hfound
    exact hfound
  have hmodify := buffers_hashModify (f := fun node => { node with queue := none }) hsearch
  have hnone : queueBuffers none = 0 := rfl
  rw [hnone, add_zero, buffers_boundMap] at hmodify
  exact hmodify

end Names

/-! ### Messages for other harbors -/

section Remote

variable {h h₁ : Harbor} {id : ℕ} {source destination handle : UInt32} {type : UInt8}
  {session : Int32} {msg : Buffer} {name : GlobalName}

theorem harbor_lt (handle : UInt32) : (handle >>> handleRemoteShift).toNat < remoteMax := by
  have hlt := handle.toNat_lt
  rw [UInt32.toNat_shiftRight, handleRemoteShift_toNat, Nat.shiftRight_eq_div_pow, remoteMax]
  omega

theorem queueBuffers_push (queue : Option HarborMsgQueue) (header : RemoteMessageHeader) :
    queueBuffers (some (pushQueue (queue.getD newQueue) msg header)) =
      queueBuffers queue + {msg.addr} := by
  rw [queueBuffers, queueList, toList_push_getD, map_append, ← Multiset.coe_add]
  rfl

theorem Accounts.remoteSendHandle (hinv : BufferInv h) :
    Accounts {msg.addr} h
      (freeUnless msg.addr (remoteSendHandle h source destination type session msg)) := by
  set j := (destination >>> handleRemoteShift).toNat with hj
  rw [HarborService.remoteSendHandle]
  simp only [← hj]
  split_ifs with hlocal hwait hdown
  · have hcall := call hinv (.mtaskSend
      { source, destination, type := type.toUInt32 ||| tagDontcopy, session, data := msg })
    have hgiven : SendArgs.given ⟨source, destination, type.toUInt32 ||| tagDontcopy, session, msg⟩
        = {msg.addr} := if_pos (type_or_tag_and _)
    rw [Call.settles, hgiven] at hcall
    exact hcall
  · have hanswer := call hinv (.mtaskSend ⟨destination, source, 7, 0, .null⟩)
    have herror := hanswer.trans (call hanswer.inv
      (.error (.dropMessage j source destination session (toInt msg.bytes.length))))
    have hfree := herror.trans (call herror.inv (.free msg.addr))
    have hanswer' : Call.settles (.mtaskSend ⟨destination, source, 7, 0, .null⟩) = 0 :=
      settles_of_type (by decide : (7 : UInt32) &&& tagDontcopy = 0)
    have herror' : ∀ text, Call.settles (.error text) = 0 := fun _ => rfl
    rw [hanswer', herror', zero_add, zero_add] at hfree
    exact hfree
  · refine .setSlave hinv (harbor_lt _) ⟨(hinv.reads j).linked, (hinv.reads j).content⟩ ?_
    rw [Slave.buffers, Slave.buffers, queueBuffers_push, add_right_comm]
  · rw [sendRemote_eq]
    have hsend := call hinv (remoteCall (h.s j).fd msg (cookieOf source destination type session))
    rw [settles_remoteCall] at hsend
    have hfree := hsend.trans (call hsend.inv (.free msg.addr))
    rwa [zero_add] at hfree

theorem Accounts.remoteSendName (hinv : BufferInv h) :
    Accounts {msg.addr} h
      (freeUnless msg.addr (remoteSendName h source name type session msg)) := by
  by_cases hvalue : (nodeOf h.map name).1 = 0
  · rw [nodeOf_eq] at hvalue
    rw [HarborService.remoteSendName]
    simp only [if_pos hvalue]
    have hqueued : ∀ header, Accounts {msg.addr} h _ := fun header =>
      (refl hinv).setMap
        (queuedMap h.map name (pushQueue ((hashNode h.map name).2.queue.getD newQueue) msg header))
        (add_right_cancel (b := queueBuffers (hashNode h.map name).2.queue) (by
          rw [add_zero, queuedMap, buffers_hashModify_node, queueBuffers_push]
          abel))
    have hquery := (hqueued ⟨source, type.toUInt32 <<< handleRemoteShift, session.toUInt32⟩).trans
      (call (hqueued _).inv
        (.mtaskSend ⟨0, h.slave, 0, 0, ⟨0, 0x51 :: 0x20 :: cString name.toList⟩⟩))
    rw [settles_of_type (by decide : (0 : UInt32) &&& tagDontcopy = 0), add_zero] at hquery
    exact hquery
  · rw [remoteSendName_of_bound hvalue]
    have hnode : Accounts 0 h { h with map := (hashNode h.map name).1 } :=
      (refl hinv).setMap _ (by rw [buffers_hashNode])
    have hzero : (0 : Multiset ℕ) + {msg.addr} = {msg.addr} := zero_add _
    rw [← hzero]
    exact hnode.trans (remoteSendHandle hnode.inv)

theorem Accounts.updateName (hinv : BufferInv h) (heq : updateName h name handle = .ok h₁) :
    Accounts 0 h h₁ := by
  rcases hqueue : (hashNode h.map name).2.queue with _ | queue
  · rw [updateName_of_none hqueue, Except.ok.injEq] at heq
    exact heq ▸ (refl hinv).setMap _ (by rw [buffers_boundMap])
  have hemptied : ∀ h' : Harbor, h'.map = h.map →
      (emptiedMap (boundMap h.map name handle) name).buffers + queueBuffers (some queue) =
        h'.map.buffers + 0 := fun h' hmap => by
    rw [hmap, ← hqueue, buffers_emptiedMap, add_zero]
  set j := (handle >>> handleRemoteShift).toNat with hj
  by_cases hj0 : j = 0
  · rw [updateName_of_zero hqueue hj0] at heq
    simp at heq
  by_cases hfd : (h.s j).fd = 0
  · have hstatus := (hinv.reads j).linked hfd
    obtain ⟨moved, hmoved, hname⟩ := updateName_of_wait hqueue hj.symm hj0 hfd
      (by rw [hstatus]; decide)
    rw [hname, Except.ok.injEq] at heq
    have hset : Accounts (queueBuffers (some queue)) h
        (h.setSlave j { h.s j with queue := some moved }) :=
      .setSlave hinv (harbor_lt handle) ⟨(hinv.reads j).linked, (hinv.reads j).content⟩ (by
        rw [Slave.buffers, Slave.buffers, queueBuffers, hmoved, map_append,
          ← Multiset.coe_add, add_right_comm]
        rfl)
    exact heq ▸ hset.setMap _ (hemptied _ rfl)
  · rw [updateName_of_open hqueue hj.symm hj0 hfd, Except.ok.injEq] at heq
    have hsent : Accounts _ h (h.callAll _) :=
      callAll hinv (queue.toList.flatMap fun m => queuedCalls (h.s j).fd (bindMsg handle m))
    rw [settled_queuedCalls (h.s j).fd (bindMsg handle) (fun _ => rfl)] at hsent
    exact heq ▸ hsent.setMap _ (hemptied _ rfl)

theorem Accounts.harborCommand {command : List UInt8} (hinv : BufferInv h)
    (heq : harborCommand h command source = .ok h₁) : Accounts 0 h h₁ := by
  have herror : ∀ text, Accounts 0 h (h.call (.error text)) := fun text =>
    call hinv (.error text)
  rcases command with _ | ⟨c, command⟩
  · simp [HarborService.harborCommand] at heq
  rw [HarborService.harborCommand] at heq
  split_ifs at heq with hname hlength hlink hshort
  · cases heq
    exact herror _
  · exact updateName hinv heq
  · obtain ⟨h', heq', ⟨text, -, rfl⟩ | ⟨id, fd, -, hid, hfd, hfree, hh'⟩⟩ :=
      linkCommand_cases h c (command.drop 1)
    · rw [heq', Except.ok.injEq] at heq
      exact heq ▸ herror text
    rw [heq', Except.ok.injEq] at heq
    subst heq
    have hrecv : (h.s id).recvBuffer = none := by
      by_contra hne
      have hstatus := (hinv.reads id).content hne
      rw [(hinv.reads id).linked hfree] at hstatus
      exact SlaveStatus.noConfusion hstatus
    have hlinked : Accounts 0 h (linked h id fd) :=
      .slot hinv hid ⟨fun h0 => absurd h0 hfd, fun hne => absurd hrecv hne⟩ rfl
    obtain rfl | rfl := hh'
    · exact hlinked
    · have hself : (linked h id fd).s id = { h.s id with fd, status := .handshake } := by
        rw [linked, s_callAll, s_setSlave_self]
      refine hlinked.trans (.opened hlinked.inv hid ?_ ?_)
      all_goals rw [hself]
      · exact hfd
      · exact hrecv
  · cases heq
    exact herror _

end Remote

/-- **What an input does to the buffers**, if its chunk is of a socket in a slot. -/
theorem Accounts.mainloop {h h₁ : Harbor} {input : Input} (hinv : BufferInv h)
    (hin : ∀ message, input = .socketData message → harborId h message.id ≠ 0)
    (heq : mainloop h input = .ok h₁) : Accounts input.buffers h h₁ := by
  have herror : ∀ text, Accounts 0 h (h.call (.error text)) := fun text =>
    call hinv (.error text)
  have hdown : ∀ id, Accounts 0 h (reportHarborDown h id) := fun id => by
    have hcall := call hinv (.mtaskSend ⟨0, h.slave, 0, 0, ⟨0, 0x44 :: 0x20 :: decimal id⟩⟩)
    rwa [settles_of_type (by decide : (0 : UInt32) &&& tagDontcopy = 0)] at hcall
  rcases input with message | fd | fd | _ | ⟨fd, ud⟩ | _ | ⟨msg, source⟩ |
    ⟨source, type, session, rmsg⟩ <;> rw [HarborService.mainloop] at heq
  case socketData =>
    split at heq
    · simp at heq
    rename_i h' _ hpush
    cases heq
    rw [pushSocketData, if_neg (hin message rfl)] at hpush
    have hread := socketDataLoop _ hinv (harborId_lt h message.id) hpush
    have hfree := hread.trans (call hread.inv (.free message.buffer.addr))
    rwa [zero_add] at hfree
  case command => exact harborCommand hinv heq
  case remote =>
    split at heq <;> cases heq
    · exact remoteSendName hinv
    · exact remoteSendHandle hinv
  case socketConnect =>
    cases heq
    exact refl hinv
  case socketOther =>
    cases heq
    exact herror _
  case socketWarning =>
    split at heq <;> cases heq
    · exact herror _
    · exact refl hinv
  all_goals
    split at heq <;> cases heq
    · exact hdown _
    · exact herror _

/-! ### The release of the service -/

section Release

variable {h : Harbor}

/-- The slot after `harbor_release`. -/
def Slave.released (s : Slave) : Slave :=
  if s.fd ≠ 0 ∧ s.status ≠ .down then { s with status := .down, queue := none } else s

theorem closeAll_spec (h : Harbor) (n : ℕ) (hn : n < remoteMax) :
    let h' := (List.range' 1 n).foldl
      (fun h i => if (h.s i).fd ≠ 0 ∧ (h.s i).status ≠ .down then closeHarbor h i else h) h
    h'.balance = h.balance ∧
      ∀ j, h'.s j = if 1 ≤ j ∧ j ≤ n then (h.s j).released else h.s j := by
  induction n with
  | zero =>
    refine ⟨rfl, fun j => ?_⟩
    rw [if_neg (by omega)]
    rfl
  | succ n ih =>
    obtain ⟨hbalance, hslots⟩ := ih (by omega)
    simp only at hbalance hslots ⊢
    rw [range'_1_concat, foldl_append, foldl_cons, foldl_nil]
    generalize (List.range' 1 n).foldl _ h = h₁ at hbalance hslots ⊢
    have hself : h₁.s (1 + n) = h.s (1 + n) := by rw [hslots, if_neg (by omega)]
    have hrest : ∀ j ≠ 1 + n, h₁.s j =
        if 1 ≤ j ∧ j ≤ n + 1 then (h.s j).released else h.s j := fun j hj => by
      have hiff : 1 ≤ j ∧ j ≤ n + 1 ↔ 1 ≤ j ∧ j ≤ n := by omega
      rw [hslots, if_congr hiff rfl rfl]
    by_cases hclose : (h.s (1 + n)).fd ≠ 0 ∧ (h.s (1 + n)).status ≠ .down
    · rw [hself, if_pos hclose]
      refine ⟨(balance_closeHarbor (by omega)).trans hbalance, fun j => ?_⟩
      rw [closeHarbor_eq, s_callAll]
      by_cases hj : j = 1 + n
      · rw [hj, s_setSlave_self, if_pos (by omega), Slave.released, if_pos hclose, hself]
      · rw [s_setSlave_of_ne _ hj]
        exact hrest j hj
    · rw [hself, if_neg hclose]
      refine ⟨hbalance, fun j => ?_⟩
      by_cases hj : j = 1 + n
      · rw [hj, hself, if_pos (by omega), Slave.released, if_neg hclose]
      · exact hrest j hj

theorem hashDelete_spec (h : Harbor) :
    settled (hashDelete h).calls = settled h.calls + h.map.buffers := by
  have hnodes : ∀ (h' : Harbor) (i : ℕ),
      (h.map.node i).foldl (fun h' node => releaseQueue h' node.queue) h' =
        h'.callAll ((h.map.node i).flatMap fun node =>
          (queueList node.queue).map fun m => .free m.buffer.addr) := fun h' i =>
    foldl_callAll h' (fun h' node => releaseQueue_eq h' node.queue) _
  have hlists := foldl_callAll h hnodes (List.range hashSize)
  have hsettled : ∀ i, settled ((h.map.node i).flatMap fun node =>
      (queueList node.queue).map fun m => .free m.buffer.addr) = nodeBuffers (h.map.node i) :=
    fun i => by
      rw [settled_flatMap]
      simp only [settled_free]
      rfl
  rw [hashDelete, hlists, Harbor.callAll, settled_append, settled_flatMap]
  simp only [hsettled]
  rfl

/-- What `harbor_release` has not settled: the frames that are half received, and the queues of the
slots that it passes over. -/
theorem settled_harborRelease (h : Harbor) :
    settled (harborRelease h).calls + ∑ j ∈ Finset.range remoteMax,
      (if 1 ≤ j ∧ j ≤ remoteMax - 1 then (h.s j).released else h.s j).buffers = h.balance := by
  obtain ⟨hbalance, hslots⟩ := closeAll_spec h (remoteMax - 1) (by decide)
  rw [harborRelease, hashDelete_spec, ← hbalance, Harbor.balance, Harbor.held]
  simp only [hslots]
  abel

/-- No frame is half received, and nothing waits in a slot that the release passes over. -/
structure Harbor.AllReleased (h : Harbor) : Prop where
  frame : ∀ j < remoteMax, (h.s j).recvBuffer = none
  queue : ∀ j < remoteMax, j = 0 ∨ (h.s j).fd = 0 ∨ (h.s j).status = .down →
    queueList (h.s j).queue = []

theorem buffers_eq_zero_iff : s.buffers = 0 ↔ s.recvBuffer = none ∧ queueList s.queue = [] := by
  rw [Slave.buffers, add_eq_zero, queueBuffers, Multiset.coe_eq_zero,
    Multiset.coe_eq_zero, map_eq_nil_iff, map_eq_nil_iff, Option.toList_eq_nil_iff,
    and_comm]

theorem buffers_released_iff {j : ℕ} (hj : j < remoteMax) :
    (if 1 ≤ j ∧ j ≤ remoteMax - 1 then s.released else s).buffers = 0 ↔
      s.recvBuffer = none ∧ (j = 0 ∨ s.fd = 0 ∨ s.status = .down → queueList s.queue = []) := by
  by_cases hpos : 1 ≤ j
  · have hmax : j ≤ remoteMax - 1 := by omega
    have hne : j ≠ 0 := by omega
    rw [if_pos ⟨hpos, hmax⟩, Slave.released]
    split_ifs with hclose
    · rw [buffers_eq_zero_iff]
      simp [queueList, hne, hclose]
    · rw [buffers_eq_zero_iff]
      have hdown : s.fd = 0 ∨ s.status = .down := by
        by_contra hnot
        exact hclose (not_or.mp hnot)
      simp [hne, hdown]
  · have hzero : j = 0 := by omega
    rw [if_neg fun h => hpos h.1, buffers_eq_zero_iff]
    simp [hzero]

theorem sum_released_iff (h : Harbor) :
    ∑ j ∈ Finset.range remoteMax,
      (if 1 ≤ j ∧ j ≤ remoteMax - 1 then (h.s j).released else h.s j).buffers = 0 ↔
      h.AllReleased := by
  rw [Finset.sum_eq_zero_iff]
  constructor
  · intro hzero
    have hslot := fun j (hj : j < remoteMax) =>
      (buffers_released_iff hj).mp (hzero j (Finset.mem_range.mpr hj))
    exact ⟨fun j hj => (hslot j hj).1, fun j hj => (hslot j hj).2⟩
  · intro hreleased j hj
    have hlt := Finset.mem_range.mp hj
    exact (buffers_released_iff hlt).mpr ⟨hreleased.frame j hlt, hreleased.queue j hlt⟩

theorem settled_harborRelease_iff (h : Harbor) :
    settled (harborRelease h).calls ≤ h.balance ∧
      (settled (harborRelease h).calls = h.balance ↔ h.AllReleased) := by
  have hsettled := settled_harborRelease h
  rw [← sum_released_iff]
  generalize settled (harborRelease h).calls = released at hsettled ⊢
  generalize ∑ j ∈ Finset.range remoteMax, Slave.buffers _ = rest at hsettled ⊢
  rw [← hsettled]
  exact ⟨Multiset.le_add_right _ _, left_eq_add⟩

end Release

/-! ### Runs of the service -/

namespace BufferState

variable {id : UInt8} {slave : UInt32} {st st' : BufferState} {input : Input}

theorem held_init : (harborInit id slave).held = 0 := by
  rw [Harbor.held]
  have hmap : (harborInit id slave).map.buffers = 0 := Finset.sum_eq_zero fun _ _ => rfl
  rw [hmap, add_zero]
  exact Finset.sum_eq_zero fun _ _ => rfl

/-- What is settled and held is what was received and given. -/
structure Balanced (st : BufferState) : Prop where
  inv : BufferInv st.h
  balance : st.h.balance = st.h.received + st.given

theorem Balanced.start : Balanced (start id slave) where
  inv := ⟨fun _ => ⟨fun _ => rfl, fun hne => absurd rfl hne⟩, Nat.one_pos⟩
  balance := by
    have hcalls : settled (harborInit id slave).calls = 0 := rfl
    have hreceived : (Multiset.range 1).filter (0 < ·) = 0 := by decide
    exact (congrArg₂ (· + ·) hcalls held_init).trans (congrArg (· + 0) hreceived).symm

theorem Balanced.step (hst : Balanced st) (hin : Permits st input)
    (hstep : step st input = .ok st') : Balanced st' := by
  rw [BufferState.step] at hstep
  split at hstep
  · simp at hstep
  rename_i h hmain
  cases hstep
  have haccounts := Accounts.mainloop hst.inv hin hmain
  refine ⟨haccounts.inv, add_right_cancel (b := st.h.received) ?_⟩
  change h.balance + st.h.received = h.received + (st.given + input.buffers) + st.h.received
  rw [haccounts.balance, hst.balance]
  abel

end BufferState

section Example

/-- A link is made, a message is sent over it, and a frame is received. -/
private def sentAndReceived : List Input :=
  [.command [0x41, 0x20, 0x37, 0x20, 0x32] 9,
    .remote 0x01000003 10 5 ⟨0x02000005, padName [], ⟨50, [1]⟩⟩,
    .socketData ⟨7, 17, ⟨60, [0, 0, 0, 13, 1, 2, 0, 0, 5, 10, 0, 0, 3, 0, 0, 0, 5]⟩⟩]

end Example

end Mtask.HarborService
