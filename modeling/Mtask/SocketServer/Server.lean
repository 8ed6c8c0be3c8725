import Mathlib.Data.List.Basic
import Mtask.Lib.Transition
import Mtask.SocketServer.Socket

/-!
# The socket server and its threads

Any number of threads reserve ids and send commands through the pipe, and one thread runs
`socket_server_poll`. The accesses of `reserve_id` to shared memory are steps of their own, and so
are the second write of `SOCKET_TYPE_INVALID` when an opening fails and every round of
`clear_closed_event`. A command is one step, and so is an entry of the poller, less the acceptance
of a connection, which reserves an id.
-/

namespace Mtask.SocketServer

open Function (update)

/-- `MAX_SOCKET` -/
def maxSocket : ℕ := 65536

/-- `MAX_EVENT` -/
def maxEvent : ℕ := 64

/-- A pointer into `slot`. -/
abbrev Slot := Fin maxSocket

/-- `HASH_ID` -/
def hashId (id : Int32) : Slot :=
  ⟨id.toUInt32.toNat % maxSocket, Nat.mod_lt _ (Nat.succ_pos 65535)⟩

/-! ### Commands -/

/-- What an id is reserved for: the commands `O`, `L`, `B` and `U`. A descriptor to listen on and
one for datagrams are the server's own, one that is bound is handed in. -/
inductive Purpose
  | connect (opaqueId : ℕ)
  | listen (opaqueId : ℕ) (fd : ℕ)
  | bind (opaqueId : ℕ) (fd : ℕ)
  | udp (opaqueId : ℕ) (fd : ℕ) (v6 : Bool)
  deriving DecidableEq, Repr

namespace Purpose

/-- The descriptor that the server has opened for the purpose. -/
def fd? : Purpose → Option ℕ
  | connect _ => none
  | listen _ fd => some fd
  | bind _ _ => none
  | udp _ fd _ => some fd

/-- `open_socket`, `listen_socket`, `bind_socket` and `add_udp_socket`; `fresh` is the descriptor
that `open_socket` opens. -/
def run (s : Socket) (id : Int32) (fresh : ℕ) (κ : Kernel) : Purpose → Except Fault Outcome
  | connect opaqueId => s.openSocket id opaqueId κ.opening (.own fresh) κ.add
  | listen opaqueId fd => s.listenSocket id opaqueId (.own fd)
  | bind opaqueId fd => s.bindSocket id opaqueId (.user fd) κ.add
  | udp opaqueId fd v6 => s.addUdpSocket id opaqueId (.own fd) v6 κ.add

/-- The number of descriptors that `run` opens. -/
def opens (κ : Kernel) : Purpose → ℕ
  | connect _ => if κ.opening = .failed then 0 else 1
  | _ => 0

/-- `new_fd` fails, and `open_socket` or `add_udp_socket` marks the slot once more. -/
def marksAgain (κ : Kernel) : Purpose → Bool
  | connect _ => κ.opening ≠ .failed ∧ κ.add = false
  | udp _ _ _ => κ.add = false
  | _ => false

end Purpose

/-- The other commands: `S`, `K`, `X`, `D` or `P`, `A`, `C` and `T`. -/
inductive Request
  | start (id : Int32) (opaqueId : ℕ)
  | close (id : Int32) (opaqueId : ℕ)
  | exit
  | send (id : Int32) (so : SendObject) (priority : Priority)
  | sendUdp (id : Int32) (so : SendObject) (address : List UInt8)
  | setUdp (id : Int32) (address : List UInt8)
  | setopt (id : Int32)
  deriving DecidableEq, Repr

namespace Request

/-- The field `id` of a request. -/
def id : Request → Int32
  | start id _ => id
  | close id _ => id
  | exit => 0
  | send id _ _ => id
  | sendUdp id _ _ => id
  | setUdp id _ => id
  | setopt id => id

/-- What `ctrl_cmd` calls for a request, on the slot of its id. -/
def run (s : Socket) (κ : Kernel) : Request → Except Fault Outcome
  | start id opaqueId => .ok (s.startSocket id opaqueId κ.add)
  | close id opaqueId => s.closeSocket id opaqueId κ.writes
  | exit => .ok ⟨some ⟨.exit, 0, 0, 0⟩, s, none⟩
  | send id so priority => s.sendSocket id so priority none κ.writes
  | sendUdp id so address => s.sendSocket id so .high (some address) κ.writes
  | setUdp id address => .ok (s.setUdpAddress id address)
  | setopt _ => .ok s.quiet

end Request

/-- A command in the pipe. A request is kept with the socket that it is meant for. -/
inductive Command
  | request (r : Request) (gen : ℕ)
  | opening (id : Int32) (purpose : Purpose)
  deriving DecidableEq, Repr

/-- A kernel that grants everything and has nothing to read. -/
def Kernel.fine : Kernel where
  add := true
  opening := .connected
  accept := true
  connected := true
  read := .eagain
  recv := .eagain
  writes := []

/-! ### Threads -/

/-- Where a thread is in `reserve_id`: before the increment, before the mask, before the first look
at the slot, before the exchange, before the two writes to the slot, and at its end. -/
inductive ReservePc
  | inc (i : ℕ)
  | mask (i : ℕ)
  | check (i : ℕ) (id : Int32)
  | cas (i : ℕ) (id : Int32)
  | writeId (id : Int32)
  | writeFd (id : Int32)
  | done (id : Option Int32)
  deriving DecidableEq, Repr

/-- `struct event`, with the socket that it was fetched for. -/
structure Entry where
  slot : Option Slot
  read : Bool
  write : Bool
  gen : ℕ
  deriving DecidableEq, Repr

/-- Where the thread of `socket_server_poll` is: at the head of its loop, before the entries, in
`report_accept`, before the second write of `SOCKET_TYPE_INVALID`, and in `clear_closed_event`
before the entry `j`. -/
inductive PollPc
  | top
  | events
  | accept (listener : Slot) (fd : ℕ) (pc : ReservePc)
  | again (i : Slot) (report : Option Report)
  | purge (id : Int32) (j : ℕ)
  deriving DecidableEq, Repr

/-- The loop goes on, or `clear_closed_event` is called. -/
def PollPc.after : Option Report → PollPc
  | none => .top
  | some r => if r.type = .close ∨ r.type = .error then .purge r.id 0 else .top

/-- What is recorded of a socket: that an entry fetched for it was acted upon, or that its slot
became `SOCKET_TYPE_INVALID`. -/
inductive Mark
  | acted (gen : ℕ)
  | closed (gen : ℕ)
  deriving DecidableEq, Repr

/-- `struct socket_server`, with the pipe, the threads that open a socket, and the entries from
`event_index` on. As a history: the socket in each slot, by the number of its reservation, the
numbers given so far, the descriptors opened and closed, and the marks. -/
structure Server where
  slot : Slot → Socket
  allocId : Int32
  checkctrl : Bool
  pipe : List Command
  threads : ℕ → Option (Purpose × ReservePc)
  poll : PollPc
  batch : List Entry
  gen : Slot → ℕ
  issued : ℕ
  nextFd : ℕ
  closed : List Fd
  log : List Mark

inductive Label
  /-- the thread `t` calls `socket_server_connect` and so on, and has opened the descriptor -/
  | call (t : ℕ) (purpose : Purpose)
  /-- a descriptor is opened and closed at once: `do_bind` or `do_listen` fails, or one round of the
  loop of `open_socket` -/
  | refused
  /-- the next step of the thread `t` -/
  | thread (t : ℕ)
  /-- some thread sends a request that is meant for the socket `gen` -/
  | request (r : Request) (gen : ℕ)
  /-- `has_cmd` finds nothing, or `checkctrl` is 0 -/
  | pass
  /-- `ctrl_cmd` -/
  | ctrl (κ : Kernel)
  /-- `sp_wait` -/
  | wait (entries : List (Option Slot × Bool × Bool))
  | event (κ : Kernel)
  /-- the next step of `report_accept`, of a failed opening or of `clear_closed_event` -/
  | poll
  deriving DecidableEq, Repr

namespace Server

/-- `socket_server_create`; the slots are in memory that was not cleared. -/
def create (memory : Slot → Socket) : Server where
  slot i := { memory i with
    type := .invalid
    high := []
    low := []
    registered := false
    writing := false }
  allocId := 0
  checkctrl := true
  pipe := []
  threads _ := none
  poll := .top
  batch := []
  gen i := i
  issued := maxSocket
  nextFd := 0
  closed := []
  log := []

/-- Memory that happens to be zero. -/
def zeroed (_ : Slot) : Socket where
  opaqueId := 0
  high := []
  low := []
  wbSize := 0
  fd := none
  id := 0
  protocol := .tcp
  type := .invalid
  p := .size 0
  registered := false
  writing := false
  stream := []
  datagrams := []
  freed := []

/-- Round `i` of the loop of `reserve_id` is over. -/
def nextRound (i : ℕ) : ReservePc :=
  if i + 1 < maxSocket then .inc (i + 1) else .done none

/-- The next step of `reserve_id`. -/
def reserve (st : Server) : ReservePc → Server × ReservePc
  | .inc i =>
    let id := st.allocId + 1
    ({ st with allocId := id }, if id < 0 then .mask i else .check i id)
  | .mask i =>
    let id := st.allocId &&& 0x7fffffff
    ({ st with allocId := id }, .check i id)
  | .check i id =>
    (st, if (st.slot (hashId id)).type = .invalid then .cas i id else nextRound i)
  | .cas i id =>
    let s := st.slot (hashId id)
    if s.type = .invalid then
      ({ st with
        slot := update st.slot (hashId id) { s with type := .reserve }
        gen := update st.gen (hashId id) st.issued
        issued := st.issued + 1 }, .writeId id)
    else (st, .inc i)
  | .writeId id =>
    let s := st.slot (hashId id)
    ({ st with slot := update st.slot (hashId id) { s with id } }, .writeFd id)
  | .writeFd id =>
    let s := st.slot (hashId id)
    ({ st with slot := update st.slot (hashId id) { s with fd := none } },
      .done (some id))
  | .done id => (st, .done id)

/-- A descriptor of the server is closed. -/
def closeFd (st : Server) (fd : Option ℕ) : Server :=
  { st with closed := st.closed ++ (fd.map Fd.own).toList }

/-- What a function has done to the slot `i`. -/
def commit (st : Server) (i : Slot) (out : Outcome) : Server :=
  { st with
    slot := update st.slot i out.socket
    closed := st.closed ++ out.closed.toList
    log := if (st.slot i).type ≠ .invalid ∧ out.socket.type = .invalid
      then st.log ++ [.closed (st.gen i)] else st.log }

/-- The next step of a thread: in `reserve_id`, or it sends its command, or it gives up. -/
def thread (st : Server) (t : ℕ) : Except Fault Server :=
  match st.threads t with
  | none => .error .notEnabled
  | some (purpose, .done (some id)) =>
    .ok { st with
      pipe := st.pipe ++ [.opening id purpose]
      threads := update st.threads t none }
  | some (purpose, .done none) =>
    .ok { st.closeFd purpose.fd? with threads := update st.threads t none }
  | some (purpose, pc) =>
    let (st, pc) := st.reserve pc
    .ok { st with threads := update st.threads t (some (purpose, pc)) }

/-- `ctrl_cmd` -/
def ctrl (st : Server) (κ : Kernel) : Except Fault Server :=
  match st.pipe with
  | [] => .error .notEnabled
  | .request r _ :: pipe =>
    match r.run (st.slot (hashId r.id)) κ with
    | .error e => .error e
    | .ok out =>
      .ok { st.commit (hashId r.id) out with pipe, poll := .after out.report }
  | .opening id purpose :: pipe =>
    match purpose.run (st.slot (hashId id)) id st.nextFd κ with
    | .error e => .error e
    | .ok out =>
      .ok { st.commit (hashId id) out with
        pipe
        nextFd := st.nextFd + purpose.opens κ
        poll := if purpose.marksAgain κ then .again (hashId id) out.report
          else .after out.report }

/-- `sp_wait` -/
def fetch (st : Server) (entries : List (Option Slot × Bool × Bool)) : Server :=
  { st with
    checkctrl := true
    poll := if entries = [] then .top else .events
    batch := entries.map fun e => ⟨e.1, e.2.1, e.2.2, e.1.elim 0 st.gen⟩ }

/-- Whether the switch does something with an entry of the slot. -/
def acts (s : Socket) (e : Entry) : Bool :=
  match s.type with
  | .invalid => false
  | .connecting => true
  | .listen => true
  | _ => e.read || e.write

/-- The entries after the entry `e` of the slot `s`, which is put back if datagrams or the write
event are left. -/
def putBack (s : Socket) (e : Entry) (report : Option Report) (batch : List Entry) : List Entry :=
  match s.type with
  | .invalid => batch
  | .connecting => batch
  | _ =>
    if e.read = false then batch
    else if s.protocol ≠ .tcp ∧ report.any (fun r => r.type = .udp) then e :: batch
    else if e.write then { e with read := false } :: batch
    else batch

/-- The mark for the entry `e` of the slot `i`. -/
def note (st : Server) (e : Entry) (i : Slot) : Server :=
  { st with log := if acts (st.slot i) e then st.log ++ [.acted e.gen] else st.log }

/-- The switch for the entry `e` of the slot `i`, before the entries `batch`. -/
def react (st : Server) (e : Entry) (i : Slot) (batch : List Entry) (κ : Kernel) :
    Except Fault Server :=
  let s := st.slot i
  if s.type = .listen then
    if κ.accept then
      .ok { st.note e i with
        batch
        nextFd := st.nextFd + 1
        poll := .accept i st.nextFd (.inc 0) }
    else .ok { st.note e i with batch, poll := .top }
  else
    match s.dispatch e.read e.write κ with
    | .error e => .error e
    | .ok out =>
      .ok { (st.note e i).commit i out with
        batch := putBack s e out.report batch
        poll := if s.type = .connecting then .top else .after out.report }

/-- The next entry. -/
def event (st : Server) (κ : Kernel) : Except Fault Server :=
  match st.batch with
  | [] => .error .notEnabled
  | e :: batch =>
    match e.slot with
    | none => .ok { st with batch, poll := .top }
    | some i => st.react e i batch κ

/-- `report_accept`, behind `reserve_id`. -/
def acceptSocket (s listener : Socket) (id : Int32) (fd : ℕ) : Except Fault Outcome :=
  match s.newFd id (.own fd) .tcp listener.opaqueId none with
  | .ok (false, s) => .ok ⟨none, s, some (.own fd)⟩
  | .ok (true, s) =>
    .ok ⟨some (listener.report .accept id.toUInt32.toNat), { s with type := .paccept }, none⟩
  | .error e => .error e

/-- One round of `clear_closed_event`. -/
def clearEntry (st : Server) (id : Int32) (e : Entry) : Entry :=
  match e.slot with
  | none => e
  | some i =>
    if (st.slot i).type = .invalid ∧ (st.slot i).id = id then { e with slot := none } else e

/-- The steps of `report_accept`, of a failed opening and of `clear_closed_event`. -/
def pollStep (st : Server) : Except Fault Server :=
  match st.poll with
  | .top => .error .notEnabled
  | .events => .error .notEnabled
  | .accept listener fd (.done (some id)) =>
    match acceptSocket (st.slot (hashId id)) (st.slot listener) id fd with
    | .error e => .error e
    | .ok out => .ok { st.commit (hashId id) out with poll := .after out.report }
  | .accept _ fd (.done none) => .ok { st.closeFd fd with poll := .top }
  | .accept listener fd pc =>
    let (st, pc) := st.reserve pc
    .ok { st with poll := .accept listener fd pc }
  | .again i report =>
    .ok { st.commit i ⟨report, { st.slot i with type := .invalid }, none⟩ with
      poll := .after report }
  | .purge id j =>
    if j < st.batch.length then
      .ok { st with batch := st.batch.modify j (st.clearEntry id), poll := .purge id (j + 1) }
    else .ok { st with poll := .top }

/-- The steps of the threads. -/
def step (st : Server) : Label → Except Fault Server
  | .call t purpose =>
    if st.threads t ≠ none then .error .notEnabled
    else
      match purpose.fd? with
      | none => .ok { st with threads := update st.threads t (some (purpose, .inc 0)) }
      | some fd =>
        if fd = st.nextFd then .ok { st with
          nextFd := st.nextFd + 1
          threads := update st.threads t (some (purpose, .inc 0)) }
        else .error .notEnabled
  | .refused => .ok { st.closeFd st.nextFd with nextFd := st.nextFd + 1 }
  | .thread t => st.thread t
  | .request r gen => .ok { st with pipe := st.pipe ++ [.request r gen] }
  | .pass =>
    if st.poll = .top then .ok { st with checkctrl := false, poll := .events }
    else .error .notEnabled
  | .ctrl κ =>
    if st.poll = .top ∧ st.checkctrl = true then st.ctrl κ else .error .notEnabled
  | .wait entries =>
    if st.poll = .events ∧ st.batch = [] ∧ entries.length ≤ maxEvent ∧
        entries.all fun e => e.1.all fun i => (st.slot i).registered then
      .ok (st.fetch entries)
    else .error .notEnabled
  | .event κ => if st.poll = .events then st.event κ else .error .notEnabled
  | .poll => st.pollStep

/-- One round of `socket_server_release`. -/
def releaseSlot (s : Socket) : Outcome :=
  if s.type = .reserve then s.quiet
  else
    match s.forceClose .close with
    | .ok out => out
    | .error _ => s.quiet

/-- `socket_server_release`, less what is freed. -/
def release (st : Server) : Server :=
  { st with
    slot := fun i => (releaseSlot (st.slot i)).socket
    closed := st.closed ++ (List.finRange maxSocket).filterMap fun i =>
      (releaseSlot (st.slot i)).closed }

end Server

end Mtask.SocketServer
