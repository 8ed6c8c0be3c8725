import Mtask.Lib.Framing
import Mtask.Lib.Transition
import Mtask.Snax.Gateserver

/-!
# The users of a message server

`snax/msgserver.lua` is a gate server whose connections belong to users. A user is logged in by the
login server, the first message of a connection authenticates it, the others are requests. The
handlers that the configuration gives for a request and for a disconnection may yield, and anything
may happen until they return.

A table of Lua that is referred to from several places has a number: `users` holds the tables of
the users, `entries` those of the cached responses.
-/

namespace Mtask.Snax

open Function (update)

/-- The functions that the server calls, and its configuration; `ν` is the type of the numbers of
Lua. `none` is an error, for `tonumber` it is `nil`. -/
structure Conf (ν : Type) where
  expiredNumber : ℕ
  disconnectHandler : Bool
  tonumber : LuaString → Option ν
  b64decode : LuaString → Option LuaString
  hmacHash : LuaString → LuaString → Option LuaString

/-- The table of a user; `response` maps sessions to entries. -/
structure User (ν : Type) where
  secret : LuaString
  version : ν
  index : ℕ
  username : LuaString
  response : List (ℕ × ℕ)
  fd : Option ℕ
  ip : Option LuaString

/-- `{ return_fd , response, version, index }`; the index is not read before it is set. -/
structure Entry (ν : Type) where
  returnFd : Option ℕ
  response : Option LuaString
  version : Option ν
  index : ℕ

/-- The variables of `do_request` while `conf.request_handler` runs on the message. -/
structure Request where
  fd : ℕ
  user : ℕ
  session : ℕ
  message : LuaString
  entry : ℕ

/-- What `conf.request_handler` comes to. -/
inductive Answer
  /-- a string, or `nil` -/
  | returned (result : Option LuaString)
  | unfit
  | raised

/-- The reply to the first message of a connection. -/
inductive AuthReply
  | userNotFound
  | indexExpired
  | unauthorized
  | badRequest
  | ok
  deriving DecidableEq, Repr

def AuthReply.text : AuthReply → String
  | userNotFound => "404 User Not Found"
  | indexExpired => "403 Index Expired"
  | unauthorized => "401 Unauthorized"
  | badRequest => "400 Bad Request"
  | ok => "200 OK"

/-- Why a step is not taken; the last two are errors of the code that leave the tables alone. -/
inductive MsgserverFault
  | notEnabled
  /-- `assert(user_online[username] == nil)` -/
  | alreadyOnline
  /-- `u` is `nil` in `server.logout` -/
  | notOnline

/-- The tables of the server. `closing` lists the disconnections whose handler has not returned
yet; `isOpen` is history: the gate has been told of the connection and not yet of its end. -/
structure Msgserver (ν : Type) where
  gate : Gateserver
  userOnline : LuaString → Option ℕ
  handshake : ℕ → Option LuaString
  connection : ℕ → Option ℕ
  users : ℕ → User ν
  nextUser : ℕ
  entries : ℕ → Entry ν
  nextEntry : ℕ
  requests : ℕ → Option Request
  nextRequest : ℕ
  closing : List ℕ
  isOpen : ℕ → Bool

/-- A callback, or the return of a handler. -/
inductive Event
  /-- `MSG.open` -/
  | accepted (fd : ℕ) (addr : LuaString)
  /-- `MSG.close`, and `MSG.error`, which does the same -/
  | closed (fd : ℕ)
  /-- `conf.disconnect_handler` returns, or raises an error -/
  | disconnected (fd : ℕ) (ok : Bool)
  /-- `dispatch_msg` -/
  | data (fd : ℕ) (message : LuaString)
  /-- `conf.request_handler` comes back -/
  | answered (request : ℕ) (answer : Answer)
  | login (username secret : LuaString)
  | logout (username : LuaString)

/-- `netpack.pack`, and the format `>s2` -/
def pack (data : LuaString) : LuaString :=
  Framing.toBytes 2 data.length ++ data

/-- The three fields that the pattern `([^:]*):([^:]*):([^:]*)` finds. -/
def fields (message : LuaString) : Option (LuaString × LuaString × LuaString) :=
  match message.splitOn 58 with
  | username :: index :: hmac :: _ => some (username, index, hmac)
  | _ => none

/-- The response to a request, in the format in which it is cached; `none` is an error. -/
def Answer.encode (session : ℕ) : Answer → Option LuaString
  | .returned result => sized (result.getD [] ++ 1 :: Framing.toBytes 4 session)
  | .unfit => none
  | .raised => sized (0 :: Framing.toBytes 4 session)
where
  sized (data : LuaString) : Option LuaString :=
    if data.length < 0x10000 then some (pack data) else none

namespace Msgserver

variable {ν : Type} [Zero ν] [LE ν] [DecidableLE ν] [DecidableEq ν]

/-- A server without users. -/
def init (maxclient : ℕ) (nodelay : Bool) : Msgserver ν where
  gate := { maxclient, clientNumber := 0, nodelay, connection := fun _ => none, calls := [] }
  userOnline := fun _ => none
  handshake := fun _ => none
  connection := fun _ => none
  users := fun _ => ⟨[], 0, 0, [], [], none, none⟩
  nextUser := 0
  entries := fun _ => ⟨none, none, none, 0⟩
  nextEntry := 0
  requests := fun _ => none
  nextRequest := 0
  closing := []
  isOpen := fun _ => false

section Updates

variable (s : Msgserver ν)

def setUser (u : ℕ) (user : User ν) : Msgserver ν :=
  { s with users := update s.users u user }

def setEntry (p : ℕ) (entry : Entry ν) : Msgserver ν :=
  { s with entries := update s.entries p entry }

def send (fd : ℕ) (data : LuaString) : Msgserver ν :=
  { s with gate := s.gate.call (.send fd data) }

def closeclient (fd : ℕ) : Msgserver ν :=
  { s with gate := s.gate.closeclient fd }

end Updates

/-! ### Users -/

/-- `server.login` -/
def login (s : Msgserver ν) (username secret : LuaString) :
    Except MsgserverFault (Msgserver ν) :=
  if s.userOnline username ≠ none then .error .alreadyOnline
  else .ok { s with
    users := update s.users s.nextUser ⟨secret, 0, 0, username, [], none, none⟩
    userOnline := update s.userOnline username (some s.nextUser)
    nextUser := s.nextUser + 1 }

/-- `server.logout` -/
def logout (s : Msgserver ν) (username : LuaString) : Except MsgserverFault (Msgserver ν) :=
  match s.userOnline username with
  | none => .error .notOnline
  | some u =>
    let s := { s with userOnline := update s.userOnline username none }
    match (s.users u).fd with
    | none => .ok s
    | some fd =>
      let s := s.closeclient fd
      .ok { s with connection := update s.connection fd none }

/-- `server.ip` -/
def ip (s : Msgserver ν) (username : LuaString) : Option LuaString :=
  match s.userOnline username with
  | some u => if (s.users u).fd ≠ none then (s.users u).ip else none
  | none => none

/-! ### Connections -/

/-- `handler.connect` -/
def connect (s : Msgserver ν) (fd : ℕ) (addr : LuaString) : Msgserver ν :=
  { s with
    handshake := update s.handshake fd (some addr)
    gate := s.gate.openclient fd }

/-- `MSG.open` -/
def accepted (s : Msgserver ν) (fd : ℕ) (addr : LuaString) : Msgserver ν :=
  let s := { s with isOpen := update s.isOpen fd true }
  if s.gate.Full then { s with gate := s.gate.call (.close fd) }
  else ({ s with gate := s.gate.accept fd } : Msgserver ν).connect fd addr

/-- `handler.disconnect` up to the call of `conf.disconnect_handler`; the result tells whether a
user was connected. -/
def disconnect (s : Msgserver ν) (fd : ℕ) : Msgserver ν × Bool :=
  let s := { s with handshake := update s.handshake fd none }
  match s.connection fd with
  | none => (s, false)
  | some c =>
    let s := s.setUser c { s.users c with fd := none }
    ({ s with connection := update s.connection fd none }, true)

/-- `close_fd` -/
def closeFd (s : Msgserver ν) (fd : ℕ) : Msgserver ν :=
  { s with gate := s.gate.closeFd fd }

/-- `MSG.close` and `MSG.error` -/
def closed (conf : Conf ν) (s : Msgserver ν) (fd : ℕ) : Msgserver ν :=
  let (s, connected) := s.disconnect fd
  let s := { s with isOpen := update s.isOpen fd false }
  if connected ∧ conf.disconnectHandler then { s with closing := fd :: s.closing }
  else s.closeFd fd

/-- What follows `conf.disconnect_handler`; an error goes up to the dispatcher. -/
def disconnected (s : Msgserver ν) (fd : ℕ) (ok : Bool) : Except MsgserverFault (Msgserver ν) :=
  if fd ∈ s.closing then
    let s := { s with closing := s.closing.erase fd }
    .ok (if ok then s.closeFd fd else s)
  else .error .notEnabled

/-! ### The first message of a connection -/

/-- The checks of `do_auth`: the user and the new version, or the reply. -/
def checkAuth (conf : Conf ν) (s : Msgserver ν) (message : LuaString) :
    Except AuthReply (ℕ × ν) :=
  match fields message with
  | none => .error .userNotFound
  | some (username, index, hmac) =>
    match s.userOnline username with
    | none => .error .userNotFound
    | some u =>
      match conf.tonumber index, conf.b64decode hmac with
      | some idx, some hmac =>
        if idx ≤ (s.users u).version then .error .indexExpired
        else
          match conf.hmacHash (s.users u).secret (username ++ 58 :: index) with
          | none => .error .badRequest
          | some v => if v ≠ hmac then .error .unauthorized else .ok (u, idx)
      | _, _ => .error .badRequest

/-- `do_auth` -/
def doAuth (conf : Conf ν) (s : Msgserver ν) (fd : ℕ) (message addr : LuaString) :
    Msgserver ν × AuthReply :=
  match s.checkAuth conf message with
  | .error reply => (s, reply)
  | .ok (u, idx) =>
    let s := s.setUser u { s.users u with version := idx, fd := some fd, ip := some addr }
    ({ s with connection := update s.connection fd (some u) }, .ok)

/-- `auth` -/
def auth (conf : Conf ν) (s : Msgserver ν) (fd : ℕ) (addr message : LuaString) : Msgserver ν :=
  let (s, reply) := s.doAuth conf fd message addr
  let s := s.send fd (pack reply.text.toUTF8.toList)
  if reply ≠ .ok then s.closeclient fd else s

/-! ### Requests -/

/-- The loop of `retire_response`: what is left of the cache, and the largest index in it. -/
def retireLoop (expiredNumber : ℕ) :
    List (ℕ × ℕ) → (ℕ → Entry ν) → ℕ → List (ℕ × ℕ) × (ℕ → Entry ν) × ℕ
  | [], entries, max => ([], entries, max)
  | (session, p) :: rest, entries, max =>
    if (entries p).returnFd ≠ none then
      let (rest, entries, max) := retireLoop expiredNumber rest entries max
      ((session, p) :: rest, entries, max)
    else if (entries p).index < expiredNumber then retireLoop expiredNumber rest entries max
    else
      let index := (entries p).index - expiredNumber
      let entries := update entries p { entries p with index }
      let (rest, entries, max) := retireLoop expiredNumber rest entries (Nat.max max index)
      ((session, p) :: rest, entries, max)

/-- `retire_response` -/
def retireResponse (conf : Conf ν) (s : Msgserver ν) (u : ℕ) : Msgserver ν :=
  let user := s.users u
  if conf.expiredNumber * 2 ≤ user.index then
    let (response, entries, max) := retireLoop conf.expiredNumber user.response s.entries 0
    ({ s with entries } : Msgserver ν).setUser u { user with response, index := max + 1 }
  else s

/-- The end of `do_request`: the response goes to the connection that asked last. -/
def respond (conf : Conf ν) (s : Msgserver ν) (u p : ℕ) : Msgserver ν :=
  let s := s.setUser u { s.users u with index := (s.users u).index + 1 }
  let s :=
    match (s.entries p).returnFd with
    | some fd => if s.connection fd ≠ none then s.send fd ((s.entries p).response.getD []) else s
    | none => s
  let s := s.setEntry p { s.entries p with returnFd := none }
  s.retireResponse conf u

/-- `request` for an error of `do_request`. -/
def requestFailed (s : Msgserver ν) (fd : ℕ) : Msgserver ν :=
  if s.connection fd ≠ none then s.closeclient fd else s

/-- `do_request` up to the call of `conf.request_handler`, for a session that is not cached. -/
def startRequest (s : Msgserver ν) (fd u session : ℕ) (message : LuaString) : Msgserver ν :=
  let p := s.nextEntry
  let user := s.users u
  let s := s.setUser u { user with response := (session, p) :: user.response }
  let s := s.setEntry p ⟨some fd, none, none, 0⟩
  { s with
    nextEntry := p + 1
    requests := update s.requests s.nextRequest (some ⟨fd, u, session, message, p⟩)
    nextRequest := s.nextRequest + 1 }

/-- `do_request` for a session that is cached. -/
def resend (conf : Conf ν) (s : Msgserver ν) (fd u p : ℕ) : Msgserver ν :=
  let user := s.users u
  let s := s.setEntry p
    { s.entries p with returnFd := some fd, version := some user.version, index := user.index }
  if (s.entries p).response = none then s else s.respond conf u p

/-- `request`, up to the call of `conf.request_handler`. A session may be used again in the same
connection if its response is there. -/
def request (conf : Conf ν) (s : Msgserver ν) (fd : ℕ) (message : LuaString) : Msgserver ν :=
  match s.connection fd with
  | none => s.requestFailed fd
  | some u =>
    if message.length < 4 then s.requestFailed fd
    else
      let session := Framing.ofBytes (message.drop (message.length - 4))
      let message := message.take (message.length - 4)
      let user := s.users u
      match user.response.lookup session with
      | none => s.startRequest fd u session message
      | some p =>
        if (s.entries p).version = some user.version then
          let response := user.response.filter fun q => q.1 ≠ session
          let s := s.setUser u { user with response }
          if (s.entries p).response = none then s.requestFailed fd
          else s.startRequest fd u session message
        else s.resend conf fd u p

/-- `request` from the return of `conf.request_handler` on. -/
def answered (conf : Conf ν) (s : Msgserver ν) (request : ℕ) (answer : Answer) :
    Except MsgserverFault (Msgserver ν) :=
  match s.requests request with
  | none => .error .notEnabled
  | some r =>
    let s := { s with requests := update s.requests request none }
    match answer.encode r.session with
    | none => .ok (s.requestFailed r.fd)
    | some response =>
      let user := s.users r.user
      let s := s.setEntry r.entry
        { s.entries r.entry with
          response := some response
          version := some user.version
          index := user.index }
      .ok (s.respond conf r.user r.entry)

/-- `dispatch_msg` with `handler.message` -/
def data (conf : Conf ν) (s : Msgserver ν) (fd : ℕ) (message : LuaString) : Msgserver ν :=
  if s.gate.connection fd = some true then
    match s.handshake fd with
    | some addr =>
      let s := s.auth conf fd addr message
      { s with handshake := update s.handshake fd none }
    | none => s.request conf fd message
  else s

/-! ### Runs -/

/-- One event. The socket server uses an id again after it has reported the end of the connection
that had it. -/
def step (conf : Conf ν) (s : Msgserver ν) : Event → Except MsgserverFault (Msgserver ν)
  | .accepted fd addr => if s.isOpen fd then .error .notEnabled else .ok (s.accepted fd addr)
  | .closed fd => .ok (s.closed conf fd)
  | .disconnected fd ok => s.disconnected fd ok
  | .data fd message => .ok (s.data conf fd message)
  | .answered request answer => s.answered conf request answer
  | .login username secret => s.login username secret
  | .logout username => s.logout username

end Msgserver

end Mtask.Snax
