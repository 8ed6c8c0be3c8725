import Mtask.HarborService.NameMap
import Mtask.Message

/-!
# The harbor service

The functions of `mtask_service_harbor.c`. The service has a socket to every other harbor, the
*link* of its slot, over which it sends the messages for the handles of that harbor and receives
messages for its own. What the service does to the rest of the system is the list of its calls. A
read or a write outside of a buffer, and an assertion that fails, end the run with a fault.
-/

namespace Mtask.HarborService

/-! ### The state -/

/-- `HEADER_COOKIE_LENGTH` -/
def headerCookieLength : ℕ := 12

/-- `HANDLE_MASK` -/
def handleMask : UInt32 := 0xffffff

/-- `HANDLE_REMOTE_SHIFT` -/
def handleRemoteShift : UInt32 := 24

/-- `REMOTE_MAX` -/
def remoteMax : ℕ := 256

/-- `PTYPE_TAG_DONTCOPY` -/
def tagDontcopy : UInt32 := 0x10000

/-- `UINT32_MAX` -/
def uint32Max : ℕ := 2 ^ 32 - 1

/-- `STATUS_WAIT` to `STATUS_DOWN` -/
inductive SlaveStatus
  | wait
  | handshake
  | header
  | content
  | down
  deriving DecidableEq, Repr

/-- `struct slave` -/
structure Slave where
  fd : ℤ
  queue : Option HarborMsgQueue
  status : SlaveStatus
  length : ℕ
  read : ℕ
  size : List UInt8
  recvBuffer : Option Buffer

/-- A slot after the `memset` of `harbor_create`. -/
def Slave.zero : Slave where
  fd := 0
  queue := none
  status := .wait
  length := 0
  read := 0
  size := [0, 0, 0, 0]
  recvBuffer := none

/-- The texts that the service logs with `mtask_error`, by their arguments. -/
inductive ErrorText
  /-- `"Unknown destination :%x from :%x"` -/
  | unknownDestination (destination source : UInt32)
  /-- `"remote message from :%08x to :%08x is too large."` -/
  | tooLarge (source destination : UInt32)
  /-- `"Drop message to %s (in harbor %d)"` -/
  | dropMessageToName (name : List UInt8) (harborId : ℕ)
  /-- `"Invalid socket fd (%d) data"` -/
  | invalidSocketData (fd : ℤ)
  /-- `"Invalid shakehand id (%d) from fd = %d , harbor = %d"` -/
  | invalidShakehand (id : ℕ) (fd : ℤ) (remoteId : UInt8)
  /-- `"Message is too long from harbor %d"` -/
  | messageTooLong (id : ℕ)
  /-- `"Drop message to harbor %d from %x to %x (session = %d, msgsz = %d)"` -/
  | dropMessage (harborId : ℕ) (source destination : UInt32) (session : Int32) (msgsz : ℤ)
  /-- `"Invalid global name %s"` -/
  | invalidGlobalName (name : List UInt8)
  /-- `"Invalid command %c %s"` -/
  | invalidCommand (command : UInt8) (args : List UInt8)
  /-- `"Harbor %d alreay exist"` -/
  | harborAlreadyExist (id : ℕ)
  /-- `"Unknown command %s"` -/
  | unknownCommand (msg : List UInt8)
  /-- `"Unkown fd (%d) closed"` -/
  | unknownFdClosed (fd : ℤ)
  /-- `"message havn't send to Harbor (%d) reach %d K"` -/
  | notSend (id : ℕ) (ud : ℤ)
  /-- `"recv invalid socket message type %d"` -/
  | invalidSocketType (type : ℕ)
  deriving DecidableEq, Repr

/-- The arguments of `mtask_send`; its `sz` is the length of the data. -/
structure SendArgs where
  source : UInt32
  destination : UInt32
  type : UInt32
  session : Int32
  data : Buffer
  deriving DecidableEq, Repr

/-- The calls of the service into the rest of the system. -/
inductive Call
  | mtaskSend (args : SendArgs)
  /-- A `mtask_send` whose result is tested: if it is negative, the calls of the reply and of the
  log follow. -/
  | mtaskSendOr (args : SendArgs) (reply : SendArgs) (text : ErrorText)
  | socketSend (fd : ℤ) (buffer : List UInt8) (sz : ℤ)
  | socketStart (fd : ℤ)
  | socketClose (fd : ℤ)
  | error (text : ErrorText)
  | free (addr : ℕ)
  deriving DecidableEq, Repr

/-- `struct harbor`, the address of the next block that `mtask_malloc` gives it, and the calls it
has made. The harbor ids are bytes. -/
structure Harbor where
  id : UInt8
  slave : UInt32
  map : Hashmap
  s : ℕ → Slave
  nextAddr : ℕ
  calls : List Call

/-- What ends a run: an access outside of a buffer, a failed assertion, or a loop that does not
end. -/
inductive HarborFault
  | commandTooShort
  | assertFailed
  | chunkOverread
  | memcpyOutOfRange
  | noRecvBuffer
  | cookieBelowBuffer
  | loopDoesNotEnd
  deriving DecidableEq, Repr

namespace Harbor

variable (h : Harbor)

def call (c : Call) : Harbor :=
  { h with calls := h.calls ++ [c] }

def setSlave (id : ℕ) (slave : Slave) : Harbor :=
  { h with s := Function.update h.s id slave }

end Harbor

/-- `harbor_create` and `harbor_init`, with the parsed arguments. -/
def harborInit (id : UInt8) (slave : UInt32) : Harbor where
  id := id
  slave := slave
  map := hashNew
  s := fun _ => .zero
  nextAddr := 1
  calls := []

/-- `release_queue`, less the memory of the queue itself. -/
def releaseQueue (h : Harbor) : Option HarborMsgQueue → Harbor
  | none => h
  | some queue => (popAll queue).foldl (fun h m => h.call (.free m.buffer.addr)) h

/-- The characters of a number in decimal, as `%d` writes it. -/
def decimal (n : ℕ) : List UInt8 :=
  (Nat.toDigits 10 n).map fun c => c.toNat.toUInt8

/-- `close_harbor` -/
def closeHarbor (h : Harbor) (id : ℕ) : Harbor :=
  let h := h.setSlave id { h.s id with status := .down }
  let h := if (h.s id).fd ≠ 0 then h.call (.socketClose (h.s id).fd) else h
  match (h.s id).queue with
  | none => h
  | some queue =>
    let h := releaseQueue h (some queue)
    h.setSlave id { h.s id with queue := none }

/-- `report_harbor_down` -/
def reportHarborDown (h : Harbor) (id : ℕ) : Harbor :=
  h.call (.mtaskSend
    { source := 0, destination := h.slave, type := 0, session := 0,
      data := ⟨0, 0x44 :: 0x20 :: decimal id⟩ })

/-! ### The wire -/

/-- `to_bigendian` -/
def toBigendian (n : UInt32) : List UInt8 :=
  [(n >>> 24).toUInt8, (n >>> 16).toUInt8, (n >>> 8).toUInt8, n.toUInt8]

/-- `header_to_message` -/
def headerToMessage (header : RemoteMessageHeader) : List UInt8 :=
  toBigendian header.source ++ toBigendian header.destination ++ toBigendian header.session

/-- `from_bigendian`, on the four bytes from an index on. -/
def fromBigendian (bytes : List UInt8) (i : ℕ) : UInt32 :=
  let byte (j : ℕ) : UInt32 := (bytes.getD (i + j) 0).toUInt32
  byte 0 <<< 24 ||| byte 1 <<< 16 ||| byte 2 <<< 8 ||| byte 3

/-- `message_to_header` -/
def messageToHeader (message : List UInt8) : RemoteMessageHeader where
  source := fromBigendian message 0
  destination := fromBigendian message 4
  session := fromBigendian message 8

/-- The conversion to `int`. -/
def toInt (n : ℤ) : ℤ :=
  n.bmod (2 ^ 32)

/-- `send_remote` -/
def sendRemote (h : Harbor) (fd : ℤ) (buffer : Buffer) (cookie : RemoteMessageHeader) : Harbor :=
  let szHeader := buffer.bytes.length + headerCookieLength
  if szHeader > uint32Max then h.call (.error (.tooLarge cookie.source cookie.destination))
  else
    let sendbuf := toBigendian szHeader.toUInt32 ++ buffer.bytes ++ headerToMessage cookie
    h.call (.socketSend fd sendbuf (toInt (szHeader + 4)))

/-- `forward_local_messsage` -/
def forwardLocalMessage (h : Harbor) (msg : Buffer) (sz : ℤ) : Except HarborFault Harbor :=
  if sz - headerCookieLength < 0 then .error .cookieBelowBuffer
  else
    let header := messageToHeader (msg.bytes.drop (sz.toNat - headerCookieLength))
    let type := header.destination >>> handleRemoteShift ||| tagDontcopy
    let destination := header.destination &&& handleMask |||
      h.id.toUInt32 <<< handleRemoteShift
    .ok (h.call (.mtaskSendOr
      { source := header.source, destination, type, session := header.session.toInt32,
        data := ⟨msg.addr, msg.bytes.take (sz.toNat - headerCookieLength)⟩ }
      { source := destination, destination := header.source, type := 7,
        session := header.session.toInt32, data := .null }
      (.unknownDestination destination header.source)))

/-! ### Queues that are sent -/

/-- `send_remote` and `mtask_free` for one message of a queue. -/
def sendQueued (fd : ℤ) (h : Harbor) (m : HarborMsg) : Harbor :=
  (sendRemote h fd m.buffer m.header).call (.free m.buffer.addr)

/-- `dispatch_name_queue` for the queue of a node: the queue that is left under the name. -/
def dispatchNameQueue (h : Harbor) (node : KeyValue) (queue : HarborMsgQueue) :
    Except HarborFault (Harbor × Option HarborMsgQueue) :=
  let handle := node.value
  let harborId := (handle >>> handleRemoteShift).toNat
  if harborId = 0 then .error .assertFailed
  else
    let s := h.s harborId
    let fd := s.fd
    if fd = 0 then
      if s.status = .down then
        .ok (h.call (.error (.dropMessageToName (cString node.key.toList) harborId)), some queue)
      else
        match s.queue with
        | none => .ok (h.setSlave harborId { s with queue := some queue }, none)
        | some squeue =>
          .ok (h.setSlave harborId
              { s with queue := some ((popAll queue).foldl pushQueueMsg squeue) },
            some queue.drained)
    else
      .ok ((popAll queue).foldl (fun h m =>
        let destination := m.header.destination ||| handle &&& handleMask
        sendQueued fd h { m with header := { m.header with destination } }) h, some queue.drained)

/-- `dispatch_queue` -/
def dispatchQueue (h : Harbor) (id : ℕ) : Except HarborFault Harbor :=
  let s := h.s id
  let fd := s.fd
  if fd = 0 then .error .assertFailed
  else
    match s.queue with
    | none => .ok h
    | some queue =>
      let h := (popAll queue).foldl (sendQueued fd) h
      let h := releaseQueue h (some queue.drained)
      .ok (h.setSlave id { h.s id with queue := none })

/-! ### Receiving -/

/-- The first of the slots from `1` on that has the socket `fd`, or `0`: `harbor_id`, and the
search of `push_socket_data`. -/
def harborId (h : Harbor) (fd : ℤ) : ℕ :=
  ((List.range' 1 (remoteMax - 1)).find? fun i => (h.s i).fd = fd).getD 0

/-- `memcpy(dst + off, src, n)` -/
def memcpy (dst : List UInt8) (off : ℕ) (src : List UInt8) (n : ℤ) :
    Except HarborFault (List UInt8) :=
  if 0 ≤ n ∧ n ≤ src.length ∧ off + n ≤ dst.length then
    .ok (dst.take off ++ src.take n.toNat ++ dst.drop (off + n.toNat))
  else .error .memcpyOutOfRange

/-- How a round of the loop of `push_socket_data` ends: by returning with `size` bytes that are
not looked at, or with another round for the bytes from `buffer` on. -/
inductive Flow
  | return (h : Harbor) (size : ℤ)
  | loop (h : Harbor) (buffer : List UInt8) (size : ℤ)

/-- The harbor with which a round of the loop ends. -/
def Flow.harbor : Flow → Harbor
  | .return h _ => h
  | .loop h _ _ => h

/-- `case STATUS_CONTENT` -/
def contentCase (h : Harbor) (id : ℕ) (buffer : List UInt8) (size : ℤ) :
    Except HarborFault Flow :=
  let s := h.s id
  let need : ℤ := s.length - s.read
  match s.recvBuffer with
  | none => .error .noRecvBuffer
  | some recvBuffer =>
    if size < need then
      match memcpy recvBuffer.bytes s.read buffer size with
      | .error e => .error e
      | .ok bytes =>
        .ok (.return (h.setSlave id
          { s with recvBuffer := some { recvBuffer with bytes }, read := s.read + size.toNat }) 0)
    else
      match memcpy recvBuffer.bytes s.read buffer need with
      | .error e => .error e
      | .ok bytes =>
        match forwardLocalMessage h { recvBuffer with bytes } s.length with
        | .error e => .error e
        | .ok h =>
          let h := h.setSlave id
            { s with length := 0, read := 0, recvBuffer := none, status := .header }
          if size - need = 0 then .ok (.return h 0)
          else .ok (.loop h (buffer.drop need.toNat) (size - need))

/-- `case STATUS_HEADER`, which goes on to `STATUS_CONTENT`. -/
def headerCase (h : Harbor) (id : ℕ) (buffer : List UInt8) (size : ℤ) :
    Except HarborFault Flow :=
  let s := h.s id
  let need : ℤ := 4 - s.read
  if size < need then
    match memcpy s.size s.read buffer size with
    | .error e => .error e
    | .ok bytes =>
      .ok (.return (h.setSlave id { s with size := bytes, read := s.read + size.toNat }) 0)
  else
    match memcpy s.size s.read buffer need with
    | .error e => .error e
    | .ok bytes =>
      let buffer := buffer.drop need.toNat
      let size := size - need
      let s := { s with size := bytes }
      if bytes.getD 0 0 ≠ 0 then
        .ok (.return (closeHarbor ((h.setSlave id s).call (.error (.messageTooLong id))) id) size)
      else
        let length := (bytes.getD 1 0).toNat <<< 16 ||| (bytes.getD 2 0).toNat <<< 8 |||
          (bytes.getD 3 0).toNat
        let recvBuffer := { addr := h.nextAddr, bytes := List.replicate length 0 }
        let h := { h with nextAddr := h.nextAddr + 1 }.setSlave id
          { s with length, read := 0, recvBuffer := some recvBuffer, status := .content }
        if size = 0 then .ok (.return h 0) else contentCase h id buffer size

/-- `case STATUS_HANDSHAKE`, which goes on to `STATUS_HEADER`. -/
def handshakeCase (h : Harbor) (id : ℕ) (fd : ℤ) (buffer : List UInt8) (size : ℤ) :
    Except HarborFault Flow :=
  match buffer with
  | [] => .error .chunkOverread
  | remoteId :: buffer =>
    if remoteId.toNat ≠ id then
      .ok (.return (closeHarbor (h.call (.error (.invalidShakehand id fd remoteId))) id) size)
    else
      match dispatchQueue (h.setSlave id { h.s id with status := .header }) id with
      | .error e => .error e
      | .ok h =>
        if size - 1 = 0 then .ok (.loop h buffer (size - 1))
        else headerCase h id buffer (size - 1)

/-- One round of the loop of `push_socket_data`. -/
def statusCase (h : Harbor) (id : ℕ) (fd : ℤ) (buffer : List UInt8) (size : ℤ) :
    Except HarborFault Flow :=
  match (h.s id).status with
  | .handshake => handshakeCase h id fd buffer size
  | .header => headerCase h id buffer size
  | .content => contentCase h id buffer size
  | .wait | .down => .ok (.return h size)

/-- The loop of `push_socket_data`, with a bound on its rounds. -/
def socketDataLoop (id : ℕ) (fd : ℤ) :
    ℕ → Harbor → List UInt8 → ℤ → Except HarborFault (Harbor × ℤ)
  | 0, _, _, _ => .error .loopDoesNotEnd
  | n + 1, h, buffer, size =>
    match statusCase h id fd buffer size with
    | .error e => .error e
    | .ok (.return h size) => .ok (h, size)
    | .ok (.loop h buffer size) => socketDataLoop id fd n h buffer size

/-- `struct mtask_socket_message` of the type `MTASK_SOCKET_TYPE_DATA`: the socket, the number of
bytes, and the chunk. -/
structure SocketData where
  id : ℤ
  ud : ℤ
  buffer : Buffer

/-- `push_socket_data`: the harbor, and how many bytes of the chunk it has not looked at. -/
def pushSocketData (h : Harbor) (message : SocketData) : Except HarborFault (Harbor × ℤ) :=
  let fd := message.id
  let id := harborId h fd
  if id = 0 then
    .ok ((h.call (.free message.buffer.addr)).call (.error (.invalidSocketData fd)), message.ud)
  else
    socketDataLoop id fd (message.buffer.bytes.length + 1) h message.buffer.bytes message.ud

/-! ### Sending -/

/-- The cookie of a message for a handle, as `remote_send_handle` fills it in. -/
def cookieOf (source destination : UInt32) (type : UInt8) (session : Int32) :
    RemoteMessageHeader where
  source := source
  destination := destination &&& handleMask ||| type.toUInt32 <<< handleRemoteShift
  session := session.toUInt32

/-- `remote_send_handle`, with what it returns. -/
def remoteSendHandle (h : Harbor) (source destination : UInt32) (type : UInt8) (session : Int32)
    (msg : Buffer) : Harbor × Bool :=
  let harborId := (destination >>> handleRemoteShift).toNat
  if harborId = h.id.toNat then
    (h.call (.mtaskSend
      { source, destination, type := type.toUInt32 ||| tagDontcopy, session, data := msg }), true)
  else
    let s := h.s harborId
    if s.fd = 0 ∨ s.status = .handshake then
      if s.status = .down then
        ((h.call (.mtaskSend
          { source := destination, destination := source, type := 7, session := 0,
            data := .null })).call
          (.error (.dropMessage harborId source destination session (toInt msg.bytes.length))),
          false)
      else
        let queue := s.queue.getD newQueue
        (h.setSlave harborId
          { s with queue := some (pushQueue queue msg (cookieOf source destination type session)) },
          true)
    else (sendRemote h s.fd msg (cookieOf source destination type session), false)

/-- `remote_send_name`, with what it returns. -/
def remoteSendName (h : Harbor) (source : UInt32) (name : GlobalName) (type : UInt8)
    (session : Int32) (msg : Buffer) : Harbor × Bool :=
  let (map, node) := hashNode h.map name
  let h := { h with map }
  if node.value = 0 then
    let header : RemoteMessageHeader :=
      { source, destination := type.toUInt32 <<< handleRemoteShift, session := session.toUInt32 }
    let queue := pushQueue (node.queue.getD newQueue) msg header
    let h := { h with map := hashModify h.map name fun node => { node with queue := some queue } }
    (h.call (.mtaskSend
      { source := 0, destination := h.slave, type := 0, session := 0,
        data := ⟨0, 0x51 :: 0x20 :: cString name.toList⟩ }), true)
  else remoteSendHandle h source node.value type session msg

/-! ### Commands -/

/-- `update_name` -/
def updateName (h : Harbor) (name : GlobalName) (handle : UInt32) : Except HarborFault Harbor :=
  let (map, node) := hashNode h.map name
  let h := { h with map := hashModify map name fun node => { node with value := handle } }
  match node.queue with
  | none => .ok h
  | some queue =>
    match dispatchNameQueue h { node with value := handle } queue with
    | .error e => .error e
    | .ok (h, left) =>
      let h := releaseQueue h left
      .ok { h with map := hashModify h.map name fun node => { node with queue := none } }

/-- `handshake` -/
def handshake (h : Harbor) (id : ℕ) : Harbor :=
  h.call (.socketSend (h.s id).fd [h.id] 1)

/-- What `isspace` accepts. -/
def isSpace (b : UInt8) : Bool :=
  b = 0x20 ∨ 0x09 ≤ b ∧ b ≤ 0x0d

def isDigit (b : UInt8) : Bool :=
  0x30 ≤ b ∧ b ≤ 0x39

/-- `%d` of `sscanf`: the number, and the rest. -/
def scanInt (bytes : List UInt8) : Option (ℤ × List UInt8) :=
  let bytes := bytes.dropWhile isSpace
  let (negative, bytes) := match bytes with
    | 0x2d :: bytes => (true, bytes)
    | 0x2b :: bytes => (false, bytes)
    | bytes => (false, bytes)
  let digits := bytes.takeWhile isDigit
  if digits = [] then none
  else
    let n : ℕ := digits.foldl (fun n b => 10 * n + (b.toNat - 0x30)) 0
    some (if negative then -n else n, bytes.dropWhile isDigit)

/-- `sscanf(buffer, "%d %d", &fd, &id)`, with `0` for what is not there. -/
def scanFdId (buffer : List UInt8) : ℤ × ℤ :=
  match scanInt buffer with
  | none => (0, 0)
  | some (fd, rest) =>
    match scanInt rest with
    | none => (fd, 0)
    | some (id, _) => (fd, id)

/-- The commands `S` and `A` of `harbor_command`. -/
def linkCommand (h : Harbor) (command : UInt8) (args : List UInt8) : Except HarborFault Harbor :=
  let (fd, id) := scanFdId args
  if fd = 0 ∨ id ≤ 0 ∨ id ≥ remoteMax then
    .ok (h.call (.error (.invalidCommand command (cString args))))
  else
    let id := id.toNat
    let slave := h.s id
    if slave.fd ≠ 0 then .ok (h.call (.error (.harborAlreadyExist id)))
    else
      let h := (h.setSlave id { slave with fd }).call (.socketStart fd)
      let h := handshake h id
      if command = 0x53 then .ok (h.setSlave id { h.s id with status := .handshake })
      else dispatchQueue (h.setSlave id { h.s id with status := .header }) id

/-- `harbor_command` -/
def harborCommand (h : Harbor) (msg : List UInt8) (source : UInt32) : Except HarborFault Harbor :=
  match msg with
  | [] => .error .commandTooShort
  | command :: msg' =>
    let name := msg'.drop 1
    let s : ℤ := msg.length - 2
    if command = 0x4e then
      if s ≤ 0 ∨ s ≥ globalnameLength then .ok (h.call (.error (.invalidGlobalName (cString name))))
      else updateName h (padName name) source
    else if command = 0x53 ∨ command = 0x41 then
      if s < 0 then .error .commandTooShort else linkCommand h command name
    else .ok (h.call (.error (.unknownCommand (cString msg))))

/-! ### The main loop -/

/-- `struct remote_message`: the destination, a handle or, if that is `0`, a name, and the
payload. -/
structure RemoteMessage where
  handle : UInt32
  name : GlobalName
  message : Buffer

/-- The messages of the service: of the socket thread, commands, and messages for other harbors. -/
inductive Input
  | socketData (message : SocketData)
  | socketError (fd : ℤ)
  | socketClose (fd : ℤ)
  | socketConnect
  | socketWarning (fd : ℤ) (ud : ℤ)
  | socketOther
  | command (msg : List UInt8) (source : UInt32)
  | remote (source : UInt32) (type : UInt8) (session : Int32) (rmsg : RemoteMessage)

/-- The end of `mainloop` for a message that is sent: it is freed if nobody keeps it. -/
def freeUnless (addr : ℕ) : Harbor × Bool → Harbor
  | (h, true) => h
  | (h, false) => h.call (.free addr)

/-- `mainloop` -/
def mainloop (h : Harbor) : Input → Except HarborFault Harbor
  | .socketData message =>
    match pushSocketData h message with
    | .error e => .error e
    | .ok (h, _) => .ok (h.call (.free message.buffer.addr))
  | .socketError fd | .socketClose fd =>
    let id := harborId h fd
    if id ≠ 0 then .ok (reportHarborDown h id) else .ok (h.call (.error (.unknownFdClosed fd)))
  | .socketConnect => .ok h
  | .socketWarning fd ud =>
    let id := harborId h fd
    if id ≠ 0 then .ok (h.call (.error (.notSend id ud))) else .ok h
  | .socketOther => .ok (h.call (.error (.invalidSocketType 6)))
  | .command msg source => harborCommand h msg source
  | .remote source type session rmsg =>
    if rmsg.handle = 0 then
      .ok (freeUnless rmsg.message.addr
        (remoteSendName h source rmsg.name type session rmsg.message))
    else
      .ok (freeUnless rmsg.message.addr
        (remoteSendHandle h source rmsg.handle type session rmsg.message))

end Mtask.HarborService
