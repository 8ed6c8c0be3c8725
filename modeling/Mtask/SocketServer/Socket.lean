import Mathlib.Algebra.GroupWithZero.Nat

/-!
# The sockets of the socket server

One slot of `socket_server.c` and what its functions do to it. What the kernel answers to a call is
an argument: a list of results for the calls of `write` and `sendto`, which answer `EAGAIN` when the
list is used up.
-/

namespace Mtask.SocketServer

/-- `SOCKET_TYPE_INVALID` and the other types. -/
inductive SocketType
  | invalid
  | reserve
  | plisten
  | listen
  | connecting
  | connected
  | halfclose
  | paccept
  | bind
  deriving DecidableEq, Repr

/-- `PROTOCOL_TCP`, `PROTOCOL_UDP` and `PROTOCOL_UDPv6` -/
inductive Protocol
  | tcp
  | udp
  | udpv6
  deriving DecidableEq, Repr

/-- The byte for a protocol at the front of an address. -/
def Protocol.number : Protocol → UInt8
  | tcp => 0
  | udp => 1
  | udpv6 => 2

/-- `PRIORITY_HIGH` and `PRIORITY_LOW` -/
inductive Priority
  | high
  | low
  deriving DecidableEq, Repr

/-- A descriptor: one that the server opened, numbered in the order in which it did so, or one that
was handed in. -/
inductive Fd
  | own (n : ℕ)
  | user (n : ℕ)
  deriving DecidableEq, Repr

/-- What `write` or `sendto` answers. The kernel takes the given number of bytes, at most all. -/
inductive WriteResult
  | wrote (n : ℕ)
  | eagain
  | eintr
  | error
  deriving DecidableEq, Repr

/-- What `read` answers: a number of bytes, 0 at the end. -/
inductive ReadResult
  | got (n : ℕ)
  | eagain
  | eintr
  | error
  deriving DecidableEq, Repr

/-- What `recvfrom` answers: a number of bytes from an address of either family. -/
inductive RecvResult
  | got (n : ℕ) (v4 : Bool)
  | eagain
  | eintr
  | error
  deriving DecidableEq, Repr

/-- What `open_socket` achieves before it takes the slot. -/
inductive OpenResult
  | failed
  | connected
  | inProgress
  deriving DecidableEq, Repr

/-- The return value of `socket_server_poll`, other than -1. -/
inductive ReportType
  | data
  | close
  | opened
  | accept
  | error
  | exit
  | udp
  deriving DecidableEq, Repr

/-- `struct socket_message`, less its text, with the return value. -/
structure Report where
  type : ReportType
  id : Int32
  opaqueId : ℕ
  ud : ℕ
  deriving DecidableEq, Repr

/-- `struct send_object` together with the request: the object that is freed, and the bytes and
their address, which for a plain buffer is its own. -/
structure SendObject where
  object : ℕ
  buffer : ℕ
  bytes : List UInt8
  userobject : Bool
  deriving DecidableEq, Repr

/-- `struct write_buffer`; `bytes` are the `sz` bytes from `ptr` on. -/
structure WriteBuffer where
  buffer : ℕ
  ptr : ℕ
  bytes : List UInt8
  userobject : Bool
  udpAddress : List UInt8
  deriving DecidableEq, Repr

/-- The union `p`. -/
inductive Param
  | size (n : ℕ)
  | udpAddress (address : List UInt8)
  deriving DecidableEq, Repr

/-- A buffer that was freed, with `soi.free` or `FREE`. -/
structure Freed where
  object : ℕ
  userobject : Bool
  deriving DecidableEq, Repr

/-- `struct socket`. Behind its own fields stand what the poller knows of the slot (`registered`
since `sp_add`, and the last `sp_write`), what was written to the descriptor, and the buffers that
were freed. -/
structure Socket where
  opaqueId : ℕ
  high : List WriteBuffer
  low : List WriteBuffer
  wbSize : ℤ
  fd : Option Fd
  id : Int32
  protocol : Protocol
  type : SocketType
  p : Param
  registered : Bool
  writing : Bool
  stream : List UInt8
  datagrams : List (List UInt8 × Option (List UInt8))
  freed : List Freed
  deriving DecidableEq, Repr

inductive Fault
  /-- `assert(s->type != SOCKET_TYPE_RESERVE)` in `force_close` -/
  | closeReserve
  /-- `assert(s->type == SOCKET_TYPE_RESERVE)` in `new_fd` -/
  | notReserve
  /-- `check_wb_list` -/
  | wbListNotEmpty
  /-- `assert(!list_uncomplete(&s->low))` in `send_buffer` -/
  | lowUncomplete
  /-- `assert(high->head == NULL)` in `raise_uncomplete` -/
  | highNotEmpty
  /-- the step is not one that the threads can make in this state -/
  | notEnabled
  deriving DecidableEq, Repr

/-- What a function leaves: its report if it does not return -1, the slot, and the descriptor that
it closed. -/
structure Outcome where
  report : Option Report
  socket : Socket
  closed : Option Fd
  deriving DecidableEq, Repr

/-- `MIN_READ_BUFFER` -/
def minReadBuffer : ℕ := 64

/-- `UDP_ADDRESS_SIZE` -/
def udpAddressSize : ℕ := 19

/-! ### The write lists -/

/-- `list_uncomplete` -/
def listUncomplete : List WriteBuffer → Bool
  | [] => false
  | wb :: _ => wb.ptr ≠ wb.buffer

/-- What a loop over a write list leaves: the bytes written, the datagrams sent, the buffers freed,
the rest of the list, the results that were not used, and whether a call failed. -/
structure Drain where
  written : List UInt8
  datagrams : List (List UInt8 × Option (List UInt8))
  freed : List Freed
  rest : List WriteBuffer
  results : List WriteResult
  failed : Bool
  deriving DecidableEq, Repr

/-- `write_buffer_free`, for the buffer of the payload. -/
def WriteBuffer.free (wb : WriteBuffer) : Freed where
  object := wb.buffer
  userobject := wb.userobject

/-- `so.free_func(request->buffer)` -/
def SendObject.free (so : SendObject) : Freed where
  object := so.object
  userobject := so.userobject

/-- The loop of `send_list_tcp`. -/
def drainTcp : List WriteBuffer → List WriteResult → Drain
  | [], results => ⟨[], [], [], [], results, false⟩
  | list, [] => ⟨[], [], [], list, [], false⟩
  | list, .eintr :: results => drainTcp list results
  | list, .eagain :: results => ⟨[], [], [], list, results, false⟩
  | list, .error :: results => ⟨[], [], [], list, results, true⟩
  | tmp :: list, .wrote n :: results =>
    if n < tmp.bytes.length then
      ⟨tmp.bytes.take n, [], [], { tmp with ptr := tmp.ptr + n, bytes := tmp.bytes.drop n } :: list,
        results, false⟩
    else
      let d := drainTcp list results
      { d with written := tmp.bytes ++ d.written, freed := tmp.free :: d.freed }

/-- `udp_socket_address`: no address if its protocol is another one. -/
def udpSocketAddress (protocol : Protocol) (address : List UInt8) : Option (List UInt8) :=
  if address.head? ≠ some protocol.number then none
  else
    match protocol with
    | .tcp => none
    | .udp => some ((address.drop 1).take 6)
    | .udpv6 => some ((address.drop 1).take 18)

/-- The loop of `send_list_udp`. -/
def drainUdp (protocol : Protocol) : List WriteBuffer → List WriteResult → Drain
  | [], results => ⟨[], [], [], [], results, false⟩
  | tmp :: list, .wrote _ :: results =>
    let d := drainUdp protocol list results
    { d with
      datagrams := (tmp.bytes, udpSocketAddress protocol tmp.udpAddress) :: d.datagrams
      freed := tmp.free :: d.freed }
  | list, _ :: results => ⟨[], [], [], list, results, false⟩
  | list, [] => ⟨[], [], [], list, [], false⟩

/-- `send_list` -/
def drain (protocol : Protocol) (list : List WriteBuffer) (results : List WriteResult) : Drain :=
  match protocol with
  | .tcp => drainTcp list results
  | protocol => drainUdp protocol list results

/-- `append_sendbuffer_`: the node for a request of which `n` bytes were written. -/
def SendObject.node (so : SendObject) (n : ℕ) (udpAddress : List UInt8) : WriteBuffer where
  buffer := so.object
  ptr := so.buffer + n
  bytes := so.bytes.drop n
  userobject := so.userobject
  udpAddress := udpAddress

namespace Socket

/-- The list for a priority. -/
def list (s : Socket) : Priority → List WriteBuffer
  | .high => s.high
  | .low => s.low

/-- The number of bytes in a list. -/
def bytesOf (list : List WriteBuffer) : ℕ :=
  (list.map fun wb => wb.bytes.length).sum

/-- What `send_list` does to the slot. -/
def sendList (s : Socket) (priority : Priority) (d : Drain) : Socket :=
  let s := { s with
    wbSize := s.wbSize - (bytesOf (s.list priority) - bytesOf d.rest : ℤ)
    stream := s.stream ++ d.written
    datagrams := s.datagrams ++ d.datagrams
    freed := s.freed ++ d.freed }
  match priority with
  | .high => { s with high := d.rest }
  | .low => { s with low := d.rest }

/-- `send_buffer_empty` -/
def sendBufferEmpty (s : Socket) : Bool :=
  s.high.isEmpty && s.low.isEmpty

/-- A report for the slot. -/
def report (s : Socket) (type : ReportType) (ud : ℕ) : Report where
  type := type
  id := s.id
  opaqueId := s.opaqueId
  ud := ud

/-- The function returns -1. -/
def quiet (s : Socket) : Outcome where
  report := none
  socket := s
  closed := none

/-- `force_close`, with the value that its callers return afterwards. -/
def forceClose (s : Socket) (type : ReportType) : Except Fault Outcome :=
  match s.type with
  | .invalid => .ok ⟨some (s.report type 0), s, none⟩
  | .reserve => .error .closeReserve
  | _ =>
    .ok {
      report := some (s.report type 0)
      socket := { s with
        freed := s.freed ++ s.high.map WriteBuffer.free ++ s.low.map WriteBuffer.free
        high := []
        low := []
        registered := false
        writing := false
        type := .invalid }
      closed := if s.type = .bind then none else s.fd }

/-- `raise_uncomplete` -/
def raiseUncomplete (s : Socket) : Except Fault Socket :=
  match s.low with
  | [] => .ok s
  | tmp :: low => if s.high ≠ [] then .error .highNotEmpty else .ok { s with high := [tmp], low }

/-- The steps of `send_buffer` behind an empty list of high priority: the list of low priority is
sent, or the write event is turned off. -/
def sendBufferLow (s : Socket) (results : List WriteResult) : Except Fault Outcome :=
  if s.low ≠ [] then
    let d := drain s.protocol s.low results
    let s := s.sendList .low d
    if d.failed then s.forceClose .close
    else if listUncomplete s.low then
      match s.raiseUncomplete with
      | .ok s => .ok s.quiet
      | .error e => .error e
    else .ok s.quiet
  else
    let s := { s with writing := false }
    if s.type = .halfclose then s.forceClose .close else .ok s.quiet

/-- `send_buffer` -/
def sendBuffer (s : Socket) (results : List WriteResult) : Except Fault Outcome :=
  if listUncomplete s.low then .error .lowUncomplete
  else
    let d := drain s.protocol s.high results
    let s := s.sendList .high d
    if d.failed then s.forceClose .close
    else if s.high = [] then s.sendBufferLow d.results
    else .ok s.quiet

/-- `append_sendbuffer` and its variants. -/
def append (s : Socket) (priority : Priority) (wb : WriteBuffer) : Socket :=
  let s := { s with wbSize := s.wbSize + wb.bytes.length }
  match priority with
  | .high => { s with high := s.high ++ [wb] }
  | .low => { s with low := s.low ++ [wb] }

/-- The buffer of a request is freed. -/
def drop (s : Socket) (so : SendObject) : Socket :=
  { s with freed := s.freed ++ [so.free] }

/-- The address of a request, or the one of the slot. -/
def addressOr (s : Socket) (address : Option (List UInt8)) : List UInt8 :=
  match address, s.p with
  | some address, _ => address
  | none, .udpAddress address => address
  | none, .size _ => []

/-- The direct write of `send_socket` to a TCP socket, of which the kernel takes `n` bytes. -/
def writeTcp (s : Socket) (so : SendObject) (n : ℕ) : Socket :=
  let s := { s with stream := s.stream ++ so.bytes.take n }
  if so.bytes.length ≤ n then s.drop so
  else { s.append .high (so.node n []) with writing := true }

/-- The direct `sendto` of `send_socket`; `result` is `none` if it failed. -/
def writeUdp (s : Socket) (so : SendObject) (priority : Priority) (address : List UInt8)
    (result : Option ℕ) : Socket :=
  let datagrams :=
    match result with
    | none => s.datagrams
    | some n => s.datagrams ++ [(so.bytes.take n, udpSocketAddress s.protocol address)]
  let s := { s with datagrams }
  if result.any (so.bytes.length ≤ ·) then s.drop so
  else { s.append priority (so.node 0 address) with writing := true }

/-- `send_socket` -/
def sendSocket (s : Socket) (id : Int32) (so : SendObject) (priority : Priority)
    (address : Option (List UInt8)) (results : List WriteResult) : Except Fault Outcome :=
  if s.type = .invalid ∨ s.id ≠ id ∨ s.type = .halfclose ∨ s.type = .paccept then
    .ok (s.drop so).quiet
  else if s.type = .plisten ∨ s.type = .listen then .ok (s.drop so).quiet
  else if s.sendBufferEmpty ∧ s.type = .connected then
    match s.protocol, results with
    | .tcp, .error :: _ =>
      match s.forceClose .close with
      | .ok out => .ok { out with socket := out.socket.drop so }
      | .error e => .error e
    | .tcp, .wrote n :: _ => .ok (s.writeTcp so n).quiet
    | .tcp, _ => .ok (s.writeTcp so 0).quiet
    | _, .wrote n :: _ => .ok (s.writeUdp so priority (s.addressOr address) (some n)).quiet
    | _, _ => .ok (s.writeUdp so priority (s.addressOr address) none).quiet
  else
    match s.protocol with
    | .tcp => .ok (s.append priority (so.node 0 [])).quiet
    | _ => .ok (s.append priority (so.node 0 (s.addressOr address))).quiet

/-! ### The other commands -/

/-- `new_fd`; `add` is the result of `sp_add`, where it is called. Whether the slot can be used. -/
def newFd (s : Socket) (id : Int32) (fd : Fd) (protocol : Protocol) (opaqueId : ℕ)
    (add : Option Bool) : Except Fault (Bool × Socket) :=
  if s.type ≠ .reserve then .error .notReserve
  else if add = some false then .ok (false, { s with type := .invalid })
  else if s.high ≠ [] ∨ s.low ≠ [] then .error .wbListNotEmpty
  else
    .ok (true, { s with
      id
      fd := some fd
      protocol
      p := .size minReadBuffer
      opaqueId
      wbSize := 0
      registered := add.isSome
      writing := false
      stream := []
      datagrams := [] })

/-- `open_socket` -/
def openSocket (s : Socket) (id : Int32) (opaqueId : ℕ) (result : OpenResult) (fd : Fd)
    (add : Bool) : Except Fault Outcome :=
  let failed : Report := ⟨.error, id, opaqueId, 0⟩
  match result with
  | .failed => .ok ⟨some failed, { s with type := .invalid }, none⟩
  | .connected =>
    match s.newFd id fd .tcp opaqueId (some add) with
    | .ok (false, s) => .ok ⟨some failed, { s with type := .invalid }, some fd⟩
    | .ok (true, s) => .ok ⟨some ⟨.opened, id, opaqueId, 0⟩, { s with type := .connected }, none⟩
    | .error e => .error e
  | .inProgress =>
    match s.newFd id fd .tcp opaqueId (some add) with
    | .ok (false, s) => .ok ⟨some failed, { s with type := .invalid }, some fd⟩
    | .ok (true, s) => .ok { s with type := .connecting, writing := true }.quiet
    | .error e => .error e

/-- `listen_socket` -/
def listenSocket (s : Socket) (id : Int32) (opaqueId : ℕ) (fd : Fd) : Except Fault Outcome :=
  match s.newFd id fd .tcp opaqueId none with
  | .ok (false, s) => .ok ⟨some ⟨.error, id, opaqueId, 0⟩, { s with type := .invalid }, some fd⟩
  | .ok (true, s) => .ok { s with type := .plisten }.quiet
  | .error e => .error e

/-- `close_socket` -/
def closeSocket (s : Socket) (id : Int32) (opaqueId : ℕ) (results : List WriteResult) :
    Except Fault Outcome :=
  if s.type = .invalid ∨ s.id ≠ id then .ok ⟨some ⟨.close, id, opaqueId, 0⟩, s, none⟩
  else
    match if s.sendBufferEmpty then .ok s.quiet else s.sendBuffer results with
    | .error e => .error e
    | .ok out =>
      if out.report.isSome then .ok out
      else if out.socket.sendBufferEmpty then
        match out.socket.forceClose .close with
        | .ok out => .ok { out with report := some ⟨.close, id, opaqueId, 0⟩ }
        | .error e => .error e
      else .ok { out.socket with type := .halfclose }.quiet

/-- `bind_socket` -/
def bindSocket (s : Socket) (id : Int32) (opaqueId : ℕ) (fd : Fd) (add : Bool) :
    Except Fault Outcome :=
  match s.newFd id fd .tcp opaqueId (some add) with
  | .ok (false, s) => .ok ⟨some ⟨.error, id, opaqueId, 0⟩, s, none⟩
  | .ok (true, s) => .ok ⟨some ⟨.opened, id, opaqueId, 0⟩, { s with type := .bind }, none⟩
  | .error e => .error e

/-- `start_socket` -/
def startSocket (s : Socket) (id : Int32) (opaqueId : ℕ) (add : Bool) : Outcome :=
  if s.type = .invalid ∨ s.id ≠ id then ⟨some ⟨.error, id, opaqueId, 0⟩, s, none⟩
  else if s.type = .paccept ∨ s.type = .plisten then
    if add then
      ⟨some ⟨.opened, id, opaqueId, 0⟩, { s with
        type := if s.type = .paccept then .connected else .listen
        registered := true
        writing := false
        opaqueId }, none⟩
    else ⟨some ⟨.error, id, opaqueId, 0⟩, { s with type := .invalid }, none⟩
  else if s.type = .connected then
    ⟨some ⟨.opened, id, opaqueId, 0⟩, { s with opaqueId }, none⟩
  else s.quiet

/-- `add_udp_socket` -/
def addUdpSocket (s : Socket) (id : Int32) (opaqueId : ℕ) (fd : Fd) (v6 : Bool) (add : Bool) :
    Except Fault Outcome :=
  match s.newFd id fd (if v6 then .udpv6 else .udp) opaqueId (some add) with
  | .ok (false, s) => .ok ⟨none, { s with type := .invalid }, some fd⟩
  | .ok (true, s) =>
    .ok { s with
      type := .connected
      p := .udpAddress (List.replicate udpAddressSize 0) }.quiet
  | .error e => .error e

/-- `set_udp_address` -/
def setUdpAddress (s : Socket) (id : Int32) (address : List UInt8) : Outcome :=
  if s.type = .invalid ∨ s.id ≠ id then s.quiet
  else if address.head? ≠ some s.protocol.number then ⟨some (s.report .error 0), s, none⟩
  else { s with p := .udpAddress address }.quiet

/-! ### Events -/

/-- `forward_message_tcp` -/
def forwardMessageTcp (s : Socket) (result : ReadResult) : Except Fault Outcome :=
  match result with
  | .eintr => .ok s.quiet
  | .eagain => .ok s.quiet
  | .error => s.forceClose .error
  | .got 0 => s.forceClose .close
  | .got n =>
    if s.type = .halfclose then .ok s.quiet
    else
      let size := match s.p with
        | .size sz => sz
        | .udpAddress _ => 0
      let p := if n = size then Param.size (size * 2)
        else if minReadBuffer < size ∧ n * 2 < size then .size (size / 2)
        else s.p
      .ok ⟨some (s.report .data n), { s with p }, none⟩

/-- `forward_message_udp` -/
def forwardMessageUdp (s : Socket) (result : RecvResult) : Except Fault Outcome :=
  match result with
  | .eintr => .ok s.quiet
  | .eagain => .ok s.quiet
  | .error => s.forceClose .error
  | .got n v4 =>
    if s.protocol ≠ if v4 then .udp else .udpv6 then .ok s.quiet
    else .ok ⟨some (s.report .udp n), s, none⟩

/-- `report_connect`; `connected` is the answer of `getsockopt`. -/
def reportConnect (s : Socket) (connected : Bool) : Except Fault Outcome :=
  if connected then
    let s := { s with type := .connected }
    let s := if s.sendBufferEmpty then { s with writing := false } else s
    .ok ⟨some (s.report .opened 0), s, none⟩
  else s.forceClose .error

end Socket

/-- What the kernel answers to the calls that a command or an event makes. -/
structure Kernel where
  add : Bool
  opening : OpenResult
  accept : Bool
  connected : Bool
  read : ReadResult
  recv : RecvResult
  writes : List WriteResult
  deriving DecidableEq, Repr

/-- The switch of `socket_server_poll` for an entry of the slot, `SOCKET_TYPE_LISTEN` apart. -/
def Socket.dispatch (s : Socket) (read write : Bool) (κ : Kernel) : Except Fault Outcome :=
  match s.type with
  | .connecting => s.reportConnect κ.connected
  | .listen => .ok s.quiet
  | .invalid => .ok s.quiet
  | _ =>
    if read then
      match s.protocol with
      | .tcp => s.forwardMessageTcp κ.read
      | _ => s.forwardMessageUdp κ.recv
    else if write then s.sendBuffer κ.writes
    else .ok s.quiet

end Mtask.SocketServer
