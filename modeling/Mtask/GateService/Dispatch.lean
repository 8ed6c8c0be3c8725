import Mtask.GateService.DataBuffer
import Mtask.Lib.Transition
import Mtask.Message

/-!
# The frames of a connection

The gate cuts the stream of a connection into frames and sends each of them to a receiver: the
broker, or else the agent of the connection, or else the watchdog. The connection is followed from
its acceptance on; broker, agent and watchdog may be set at any time, and other connections take
nodes from the same pool.
-/

namespace Mtask.GateService

open List

/-- The calls that the gate makes; `send` is `mtask_send` with session 0. -/
inductive Call
  | send (source dest : UInt32) (type : Int32) (data : List UInt8)
  | socketClose (id : Int32)
  | error (text : String)
  deriving DecidableEq, Repr

/-- The part of `struct gate` that a frame depends on, and the calls that were made. -/
structure Gate where
  watchdog : UInt32
  broker : UInt32
  clientTag : Int32
  headerSize : HeaderSize
  mp : MessagePool
  calls : List Call

/-- `struct connection`, and the payloads that were read from its buffer. -/
structure Connection where
  id : Int32
  agent : UInt32
  client : UInt32
  buffer : DataBuffer
  consumed : List (List UInt8)
  deriving DecidableEq, Repr

/-- The type of a message that `mtask_send` takes over instead of copying it. -/
def dontcopy (type : Int32) : Int32 :=
  type ||| Int32.ofNat ptypeTagDontcopy

/-- What the watchdog gets in front of a payload: `"%d data "`. -/
def dataPrefix (id : Int32) : List UInt8 :=
  s!"{id} data ".toUTF8.data.toList

/-- `0x1000000` -/
def limit : ℕ := 0x1000000

/-! ### The functions of the gate -/

/-- The payload is read from the buffer and sent: what the branches of `_forward` share. -/
def sendPayload (g : Gate) (c : Connection) (size : ℕ) (call : List UInt8 → Call) :
    Except Fault (Gate × Connection) :=
  match c.buffer.read g.mp size with
  | .ok (temp, buffer, mp) =>
    .ok ({ g with mp, calls := g.calls ++ [call temp] },
      { c with buffer, consumed := c.consumed ++ [temp] })
  | .error e => .error e

/-- `_forward`. Without a receiver the payload is not read. -/
def forward (g : Gate) (c : Connection) (size : ℕ) : Except Fault (Gate × Connection) :=
  if g.broker ≠ 0 then
    sendPayload g c size fun temp => .send 0 g.broker (dontcopy g.clientTag) temp
  else if c.agent ≠ 0 then
    sendPayload g c size fun temp => .send c.client c.agent (dontcopy g.clientTag) temp
  else if g.watchdog ≠ 0 then
    sendPayload g c size fun temp =>
      .send 0 g.watchdog (dontcopy (Int32.ofNat ptypeText)) (dataPrefix c.id ++ temp)
  else .ok (g, c)

/-- The loop of `dispatch_message`. -/
def dispatchLoop : ℕ → Gate → Connection → Except Fault (Gate × Connection)
  | 0, _, _ => .error .roundsExhausted
  | fuel + 1, g, c =>
    match c.buffer.readHeader g.mp g.headerSize with
    | .error e => .error e
    | .ok (size, buffer, mp) =>
      let g := { g with mp }
      let c := { c with buffer }
      if size < 0 then .ok (g, c)
      else if 0 < size then
        if limit ≤ size then
          let (buffer, mp) := c.buffer.clear g.mp
          .ok ({ g with
              mp
              calls := g.calls ++
                [.socketClose c.id, .error "Recv socket message > 16M"] },
            { c with buffer })
        else
          match forward g c size.toNat with
          | .error e => .error e
          | .ok (g, c) => dispatchLoop fuel g { c with buffer := c.buffer.reset }
      else dispatchLoop fuel g c

/-- `dispatch_message`. Of two rounds of the loop at least one reads some bytes, of the chunks or
of a header that was read before. -/
def dispatchMessage (g : Gate) (c : Connection) (data : List UInt8) :
    Except Fault (Gate × Connection) :=
  let (buffer, mp) := c.buffer.push g.mp data
  dispatchLoop (2 * buffer.size.toNat + 5) { g with mp } { c with buffer }

/-! ### The connection as it should be -/

/-- The handles that decide who receives the frames of a connection. -/
structure Receivers where
  broker : UInt32
  agent : UInt32
  client : UInt32
  watchdog : UInt32
  deriving DecidableEq, Repr

/-- There is a receiver. -/
def Receivers.Some (r : Receivers) : Prop :=
  r.broker ≠ 0 ∨ r.agent ≠ 0 ∨ r.watchdog ≠ 0

/-- The message for the current receiver, if there is one. -/
def Receivers.handOver (r : Receivers) (clientTag id : Int32) (payload : List UInt8) : List Call :=
  if r.broker ≠ 0 then [.send 0 r.broker (dontcopy clientTag) payload]
  else if r.agent ≠ 0 then [.send r.client r.agent (dontcopy clientTag) payload]
  else if r.watchdog ≠ 0 then
    [.send 0 r.watchdog (dontcopy (Int32.ofNat ptypeText)) (dataPrefix id ++ payload)]
  else []

/-- Who receives the frames of a connection of the gate. -/
def receiversOf (g : Gate) (c : Connection) : Receivers where
  broker := g.broker
  agent := c.agent
  client := c.client
  watchdog := g.watchdog

theorem headerSize_pos (headerSize : HeaderSize) : 0 < headerSize.1 := by
  rcases headerSize.2 with h | h <;> omega

/-- The frames of a stream; one that is too long is the last. -/
def frames (headerSize : HeaderSize) : Incremental.Cutter UInt8 (List UInt8) :=
  Framing.cutter headerSize.1 (headerSize_pos headerSize) fun payload => limit ≤ payload.length

/-- The payloads of the frames that are neither empty nor too long. -/
def payloads (headerSize : HeaderSize) (bytes : List UInt8) : List (List UInt8) :=
  ((frames headerSize).decode bytes).1.filter fun payload =>
    payload ≠ [] ∧ payload.length < limit

/-- A frame that is too long is complete. -/
def Oversized (headerSize : HeaderSize) (bytes : List UInt8) : Prop :=
  ((frames headerSize).decode bytes).2 = none

instance (headerSize : HeaderSize) (bytes : List UInt8) :
    Decidable (Oversized headerSize bytes) :=
  inferInstanceAs (Decidable (((frames headerSize).decode bytes).2 = none))

/-- A connection: who receives its frames, what was received, and the calls that were made. -/
structure Session where
  headerSize : HeaderSize
  clientTag : Int32
  id : Int32
  receivers : Receivers
  received : List UInt8
  calls : List Call

/-- A chunk of a stream, as the socket thread hands it over. -/
structure Chunk where
  bytes : List UInt8
  nonempty : bytes ≠ []

inductive Op
  /-- a message of type `MTASK_SOCKET_TYPE_DATA` -/
  | data (chunk : Chunk)
  /-- the command `broker` -/
  | broker (handle : UInt32)
  /-- the command `forward` -/
  | forward (agent client : UInt32)
  | watchdog (handle : UInt32)
  | pool (mp : MessagePool)

namespace Session

/-- Each payload that becomes complete with a chunk is handed over once, and the socket is closed
at a frame that is too long. -/
def receive (s : Session) (bytes : List UInt8) : Session :=
  let before := payloads s.headerSize s.received
  let received := s.received ++ bytes
  { s with
    received
    calls := s.calls ++
      ((payloads s.headerSize received).drop before.length).flatMap
        (s.receivers.handOver s.clientTag s.id) ++
      if Oversized s.headerSize received ∧ ¬Oversized s.headerSize s.received then
        [.socketClose s.id, .error "Recv socket message > 16M"]
      else [] }

/-- A session from the acceptance of a connection on. -/
def start (g : Gate) (id : Int32) : Session where
  headerSize := g.headerSize
  clientTag := g.clientTag
  id := id
  receivers := { broker := g.broker, agent := 0, client := 0, watchdog := g.watchdog }
  received := []
  calls := g.calls

def step (s : Session) : Op → Session
  | .data chunk => s.receive chunk.bytes
  | .broker handle => { s with receivers := { s.receivers with broker := handle } }
  | .forward agent client => { s with receivers := { s.receivers with agent, client } }
  | .watchdog handle => { s with receivers := { s.receivers with watchdog := handle } }
  | .pool _ => s

end Session

/-! ### Runs of the gate -/

/-- The gate with one of its connections, and what was received on it. -/
structure Run where
  gate : Gate
  conn : Connection
  received : List UInt8

namespace Run

/-- A connection that was accepted. -/
def start (g : Gate) (id : Int32) : Run where
  gate := g
  conn := { id, agent := 0, client := 0, buffer := .zero, consumed := [] }
  received := []

def step (st : Run) : Op → Except Fault Run
  | .data chunk =>
    match dispatchMessage st.gate st.conn chunk.bytes with
    | .ok (gate, conn) => .ok ⟨gate, conn, st.received ++ chunk.bytes⟩
    | .error e => .error e
  | .broker handle => .ok { st with gate := { st.gate with broker := handle } }
  | .forward agent client => .ok { st with conn := { st.conn with agent, client } }
  | .watchdog handle => .ok { st with gate := { st.gate with watchdog := handle } }
  | .pool mp => .ok { st with gate := { st.gate with mp } }

/-- A chunk comes before the socket is closed, the buffer has room for it in its `int`, and either
there is a receiver or the chunk completes no payload. -/
def Permits (st : Run) : Op → Prop
  | .data chunk =>
    ¬Oversized st.gate.headerSize st.received ∧
      st.conn.buffer.size + chunk.bytes.length < 2 ^ 31 ∧
      ((receiversOf st.gate st.conn).Some ∨
        payloads st.gate.headerSize (st.received ++ chunk.bytes) =
          payloads st.gate.headerSize st.received)
  | _ => True

end Run

/-! ### Cutting the stream -/

variable {kept : List UInt8}

section Cut

variable {headerSize : HeaderSize} {rest rest' payload : List UInt8}

theorem decode_of_none (h : Framing.cut headerSize.1 rest = none) :
    (frames headerSize).decode rest = ([], some rest) :=
  Incremental.Cutter.decode_of_none h

theorem decode_of_oversized (h : Framing.cut headerSize.1 rest = some (payload, rest'))
    (hlimit : limit ≤ payload.length) : (frames headerSize).decode rest = ([payload], none) :=
  Incremental.Cutter.decode_of_final h (decide_eq_true hlimit)

theorem decode_of_frame (h : Framing.cut headerSize.1 rest = some (payload, rest'))
    (hlimit : payload.length < limit) : (frames headerSize).decode rest =
      (payload :: ((frames headerSize).decode rest').1, ((frames headerSize).decode rest').2) :=
  Incremental.Cutter.decode_of_some h (decide_eq_false (Nat.not_le.mpr hlimit))

theorem payloads_of_none (h : Framing.cut headerSize.1 rest = none) :
    payloads headerSize rest = [] := by
  rw [payloads, decode_of_none h, filter_nil]

theorem payloads_of_oversized (h : Framing.cut headerSize.1 rest = some (payload, rest'))
    (hlimit : limit ≤ payload.length) : payloads headerSize rest = [] := by
  rw [payloads, decode_of_oversized h hlimit, filter_cons_of_neg, filter_nil]
  simpa using fun _ => hlimit

theorem payloads_of_empty (h : Framing.cut headerSize.1 rest = some ([], rest')) :
    payloads headerSize rest = payloads headerSize rest' := by
  have hlimit : ([] : List UInt8).length < limit := by decide
  rw [payloads, decode_of_frame h hlimit, filter_cons_of_neg (by simp), payloads]

theorem payloads_of_frame (h : Framing.cut headerSize.1 rest = some (payload, rest'))
    (hne : payload ≠ []) (hlimit : payload.length < limit) :
    payloads headerSize rest = payload :: payloads headerSize rest' := by
  rw [payloads, decode_of_frame h hlimit, filter_cons_of_pos (by simp [hne, hlimit]), payloads]

theorem cut_nil (headerSize : HeaderSize) : Framing.cut headerSize.1 [] = none :=
  Framing.cut_eq_none (Or.inl (headerSize_pos headerSize))

theorem oversized_of_none (h : Framing.cut headerSize.1 rest = none) :
    ¬Oversized headerSize rest := by
  rw [Oversized, decode_of_none h]
  exact Option.some_ne_none rest

theorem oversized_of_frame (h : Framing.cut headerSize.1 rest = some (payload, rest'))
    (hlimit : payload.length < limit) :
    Oversized headerSize rest ↔ Oversized headerSize rest' := by
  rw [Oversized, decode_of_frame h hlimit, Oversized]

variable {received : List UInt8}

/-- What arrives later is cut together with what was kept. -/
theorem decode_append {kept : List UInt8} {received : List UInt8}
    (h : ((frames headerSize).decode received).2 = some kept) (bytes : List UInt8) :
    (frames headerSize).decode (received ++ bytes) =
      (((frames headerSize).decode received).1 ++ ((frames headerSize).decode (kept ++ bytes)).1,
        ((frames headerSize).decode (kept ++ bytes)).2) := by
  rw [Incremental.Cutter.decode_append, Incremental.Cutter.resume_of_some h]

theorem payloads_append (h : ((frames headerSize).decode received).2 = some kept)
    (bytes : List UInt8) :
    payloads headerSize (received ++ bytes) =
      payloads headerSize received ++ payloads headerSize (kept ++ bytes) := by
  rw [payloads, decode_append h, filter_append, payloads, payloads]

theorem oversized_append (h : ((frames headerSize).decode received).2 = some kept)
    (bytes : List UInt8) :
    Oversized headerSize (received ++ bytes) ↔ Oversized headerSize (kept ++ bytes) := by
  rw [Oversized, decode_append h, Oversized]

end Cut

/-! ### One chunk -/

/-- The calls at a frame that is too long. -/
def closing (headerSize : HeaderSize) (id : Int32) (bytes : List UInt8) : List Call :=
  if Oversized headerSize bytes then [.socketClose id, .error "Recv socket message > 16M"] else []

section Chunk

variable {g : Gate} {c : Connection}

variable {size : ℕ}

theorem sendPayload_eq (call : List UInt8 → Call) (hc : c.buffer.Sound) (hpos : 0 < size)
    (hsize : size ≤ c.buffer.bytes.length) :
    ∃ buffer mp, sendPayload g c size call =
        .ok ({ g with mp, calls := g.calls ++ [call (c.buffer.bytes.take size)] },
          { c with buffer, consumed := c.consumed ++ [c.buffer.bytes.take size] }) ∧
      buffer.Sound ∧ buffer.bytes = c.buffer.bytes.drop size := by
  obtain ⟨buffer, mp, heq, hsound, hbytes, -⟩ := hc.read g.mp hpos hsize
  exact ⟨buffer, mp, by rw [sendPayload, heq], hsound, hbytes⟩

/-- With a receiver the payload is read and handed over. -/
theorem forward_eq (hto : (receiversOf g c).Some) (hc : c.buffer.Sound) (hpos : 0 < size)
    (hsize : size ≤ c.buffer.bytes.length) :
    ∃ buffer mp, forward g c size =
        .ok ({ g with
            mp
            calls := g.calls ++
              (receiversOf g c).handOver g.clientTag c.id (c.buffer.bytes.take size) },
          { c with buffer, consumed := c.consumed ++ [c.buffer.bytes.take size] }) ∧
      buffer.Sound ∧ buffer.bytes = c.buffer.bytes.drop size := by
  rw [forward, Receivers.handOver]
  by_cases hbroker : g.broker ≠ 0
  · rw [if_pos hbroker, if_pos (show (receiversOf g c).broker ≠ 0 from hbroker)]
    exact sendPayload_eq _ hc hpos hsize
  rw [if_neg hbroker, if_neg (show ¬(receiversOf g c).broker ≠ 0 from hbroker)]
  by_cases hagent : c.agent ≠ 0
  · rw [if_pos hagent, if_pos (show (receiversOf g c).agent ≠ 0 from hagent)]
    exact sendPayload_eq _ hc hpos hsize
  have hwatchdog : g.watchdog ≠ 0 := (hto.resolve_left hbroker).resolve_left hagent
  rw [if_neg hagent, if_neg (show ¬(receiversOf g c).agent ≠ 0 from hagent), if_pos hwatchdog,
    if_pos (show (receiversOf g c).watchdog ≠ 0 from hwatchdog)]
  exact sendPayload_eq _ hc hpos hsize

/-- The loop hands over the payloads of what the buffer holds and keeps the rest. -/
theorem dispatchLoop_eq {rest : List UInt8} {fuel : ℕ} (hc : c.buffer.Holds g.headerSize rest)
    (hfuel : rest.length < fuel)
    (hto : (receiversOf g c).Some ∨ payloads g.headerSize rest = []) :
    ∃ buffer mp, dispatchLoop fuel g c =
        .ok ({ g with
            mp
            calls := g.calls ++ (payloads g.headerSize rest).flatMap
              ((receiversOf g c).handOver g.clientTag c.id) ++ closing g.headerSize c.id rest },
          { c with buffer, consumed := c.consumed ++ payloads g.headerSize rest }) ∧
      ∀ kept, ((frames g.headerSize).decode rest).2 = some kept →
        buffer.Holds g.headerSize kept := by
  induction fuel generalizing g c rest with
  | zero => omega
  | succ fuel ih =>
    rw [dispatchLoop]
    rcases hc.readHeader g.mp with
      ⟨hcut, size, buffer, mp, heq, hneg, hholds⟩ |
      ⟨payload, rest', buffer, mp, hcut, heq, hsound, hheader, hbytes⟩
    · -- no frame is complete
      refine ⟨buffer, mp, ?_, fun kept hkept => ?_⟩
      · rw [heq]
        simp only
        rw [if_pos hneg, payloads_of_none hcut, closing, if_neg (oversized_of_none hcut)]
        simp
      · rw [decode_of_none hcut] at hkept
        cases hkept
        exact hholds
    · have hshorter : rest'.length < rest.length := (frames g.headerSize).shrinks hcut
      rw [heq]
      simp only
      rw [if_neg (Int.not_lt.mpr (Int.natCast_nonneg _))]
      by_cases hempty : payload = []
      · -- an empty frame
        subst hempty
        have hholds : buffer.Holds g.headerSize rest' := ⟨hsound, Or.inl ⟨hheader, hbytes.symm⟩⟩
        have hlimit : ([] : List UInt8).length < limit := by decide
        rw [payloads_of_empty hcut] at hto ⊢
        obtain ⟨buffer', mp', heq', hkeeps⟩ :=
          ih (g := { g with mp }) (c := { c with buffer }) hholds (by omega) hto
        refine ⟨buffer', mp', ?_, fun kept hkept => ?_⟩
        · rw [if_neg (by simp), heq', closing, closing]
          simp only [oversized_of_frame hcut hlimit]
          rfl
        · rw [decode_of_frame hcut hlimit] at hkept
          exact hkeeps kept hkept
      · have hpos : 0 < payload.length := length_pos_iff.mpr hempty
        rw [if_pos (by omega)]
        by_cases hlimit : limit ≤ payload.length
        · -- a frame that is too long
          rw [if_pos (by exact_mod_cast hlimit)]
          refine ⟨.zero, (buffer.clear mp).2, ?_, fun kept hkept => ?_⟩
          · have hover : Oversized g.headerSize rest := by
              rw [Oversized, decode_of_oversized hcut hlimit]
            rw [payloads_of_oversized hcut hlimit, closing, if_pos hover]
            simp [DataBuffer.clear]
          · rw [decode_of_oversized hcut hlimit] at hkept
            simp at hkept
        · -- a payload for the receiver
          have hfits : payload.length < limit := Nat.not_le.mp hlimit
          rw [payloads_of_frame hcut hempty hfits] at hto ⊢
          have hto' : (receiversOf { g with mp } { c with buffer }).Some :=
            hto.resolve_right (cons_ne_nil _ _)
          have hle : payload.length ≤ buffer.bytes.length := by
            rw [hbytes, length_append]
            omega
          obtain ⟨buffer₁, mp₁, hforward, hsound₁, hbytes₁⟩ := forward_eq hto' hsound hpos hle
          have htake : buffer.bytes.take payload.length = payload := by
            rw [hbytes, take_left]
          rw [htake] at hforward
          rw [if_neg (by omega), Int.toNat_natCast, hforward]
          rw [hbytes, drop_left] at hbytes₁
          have hholds : buffer₁.reset.Holds g.headerSize rest' :=
            ⟨hsound₁.setHeader 0, Or.inl ⟨rfl, hbytes₁.symm⟩⟩
          obtain ⟨buffer', mp', heq', hkeeps⟩ := ih
            (g := { g with
              mp := mp₁
              calls := g.calls ++ (receiversOf g c).handOver g.clientTag c.id payload })
            (c := { c with buffer := buffer₁.reset, consumed := c.consumed ++ [payload] })
            hholds (by omega) (Or.inl hto')
          refine ⟨buffer', mp', heq'.trans ?_, fun kept hkept => ?_⟩
          · rw [flatMap_cons, closing, closing]
            simp only [oversized_of_frame hcut hfits, append_assoc, singleton_append]
            rfl
          · rw [decode_of_frame hcut hfits] at hkept
            exact hkeeps kept hkept

end Chunk

/-- **One chunk.** The payloads that it completes are read and handed over. -/
theorem dispatchMessage_eq {g : Gate} {c : Connection} {data : List UInt8}
    (hc : c.buffer.Holds g.headerSize kept) (hne : data ≠ [])
    (hlt : c.buffer.size + data.length < 2 ^ 31)
    (hto : (receiversOf g c).Some ∨ payloads g.headerSize (kept ++ data) = []) :
    ∃ buffer mp, dispatchMessage g c data =
        .ok ({ g with
            mp
            calls := g.calls ++ (payloads g.headerSize (kept ++ data)).flatMap
              ((receiversOf g c).handOver g.clientTag c.id) ++
                closing g.headerSize c.id (kept ++ data) },
          { c with buffer, consumed := c.consumed ++ payloads g.headerSize (kept ++ data) }) ∧
      ∀ rest, ((frames g.headerSize).decode (kept ++ data)).2 = some rest →
        buffer.Holds g.headerSize rest := by
  have hpush := hc.push g.mp hne hlt
  have hfuel : (kept ++ data).length < 2 * (c.buffer.push g.mp data).1.size.toNat + 5 := by
    have hle := hpush.length_le
    omega
  rw [dispatchMessage]
  exact dispatchLoop_eq (g := { g with mp := (c.buffer.push g.mp data).2 })
    (c := { c with buffer := (c.buffer.push g.mp data).1 }) hpush hfuel hto

/-! ### All chunks -/

namespace Run

/-- The gate has made the calls of the session, has consumed the payloads of the stream, and keeps
the rest of it in the buffer. -/
structure Follows (st : Run) (s : Session) : Prop where
  headerSize_eq : s.headerSize = st.gate.headerSize
  clientTag_eq : s.clientTag = st.gate.clientTag
  id_eq : s.id = st.conn.id
  receivers_eq : s.receivers = receiversOf st.gate st.conn
  received_eq : s.received = st.received
  calls_eq : s.calls = st.gate.calls
  consumed_eq : st.conn.consumed = payloads st.gate.headerSize st.received
  holds : ∀ kept, ((frames st.gate.headerSize).decode st.received).2 = some kept →
    st.conn.buffer.Holds st.gate.headerSize kept

variable {st : Run} {s : Session}

theorem Follows.start (g : Gate) (id : Int32) : (Run.start g id).Follows (.start g id) where
  headerSize_eq := rfl
  clientTag_eq := rfl
  id_eq := rfl
  receivers_eq := rfl
  received_eq := rfl
  calls_eq := rfl
  consumed_eq := (payloads_of_none (cut_nil g.headerSize)).symm
  holds kept h := by
    change ((frames g.headerSize).decode []).2 = some kept at h
    rw [decode_of_none (cut_nil g.headerSize)] at h
    cases h
    exact ⟨.zero, Or.inl ⟨rfl, rfl⟩⟩

theorem Follows.data (h : st.Follows s) {chunk : Chunk} (hok : st.Permits (.data chunk)) :
    ∃ st', st.step (.data chunk) = .ok st' ∧ st'.Follows (s.step (.data chunk)) := by
  obtain ⟨hopen, hlt, hto⟩ := hok
  obtain ⟨kept, hkept⟩ := Option.ne_none_iff_exists'.mp hopen
  have happend := payloads_append hkept chunk.bytes
  have hto' : (receiversOf st.gate st.conn).Some ∨
      payloads st.gate.headerSize (kept ++ chunk.bytes) = [] :=
    hto.imp_right fun heq => append_right_eq_self.mp (happend.symm.trans heq)
  obtain ⟨buffer, mp, heq, hkeeps⟩ :=
    dispatchMessage_eq (h.holds kept hkept) chunk.nonempty hlt hto'
  have hreceive : s.step (.data chunk) = s.receive chunk.bytes := rfl
  refine ⟨_, by rw [step, heq], ?_⟩
  rw [hreceive, Session.receive, h.headerSize_eq, h.received_eq]
  refine ⟨rfl, h.clientTag_eq, h.id_eq, h.receivers_eq, rfl, ?_, ?_, fun rest hrest => ?_⟩
  · rw [happend, drop_left, h.clientTag_eq, h.id_eq, h.receivers_eq, h.calls_eq, closing]
    simp only [oversized_append hkept, hopen, not_false_eq_true, and_true]
  · rw [h.consumed_eq, happend]
  · rw [decode_append hkept] at hrest
    exact hkeeps rest hrest

theorem Follows.step (h : st.Follows s) {op : Op} (hok : st.Permits op) :
    ∃ st', st.step op = .ok st' ∧ st'.Follows (s.step op) := by
  cases op with
  | data chunk => exact h.data hok
  | broker handle =>
    exact ⟨_, rfl, { h with receivers_eq := by rw [Session.step, h.receivers_eq]; rfl }⟩
  | forward agent client =>
    exact ⟨_, rfl, { h with receivers_eq := by rw [Session.step, h.receivers_eq]; rfl }⟩
  | watchdog handle =>
    exact ⟨_, rfl, { h with receivers_eq := by rw [Session.step, h.receivers_eq]; rfl }⟩
  | pool mp => exact ⟨_, rfl, { h with }⟩

end Run

/-- What was received on the connection. -/
def stream (ops : List Op) : List UInt8 :=
  ops.flatMap fun
    | .data chunk => chunk.bytes
    | _ => []

theorem foldl_received (s : Session) (ops : List Op) :
    (ops.foldl Session.step s).received = s.received ++ stream ops ∧
      (ops.foldl Session.step s).headerSize = s.headerSize := by
  induction ops generalizing s with
  | nil => exact ⟨(append_nil _).symm, rfl⟩
  | cons op ops ih =>
    obtain ⟨hreceived, hsize⟩ := ih (s.step op)
    rw [foldl_cons, hreceived, hsize]
    cases op <;> simp [Session.step, Session.receive, stream]

/-- **Every payload goes to the current receiver.** In a run in which every chunk comes before the
socket is closed, finds room in the buffer, and finds a receiver if it completes a payload, no
assertion fails, the gate consumes exactly the payloads of the stream, in order, and makes the calls
of the session: each payload is handed to the receiver that is set when it is complete, and the
socket is closed at the first frame that is too long. -/
theorem frames_forwarded {g : Gate} {id : Int32} {ops : List Op}
    (hok : Transition.Permitted Run.step Run.Permits (.start g id) ops) :
    ∃ st, Transition.exec Run.step (.start g id) ops = .ok st ∧
      st.conn.consumed = payloads g.headerSize (stream ops) ∧
      st.gate.calls = (ops.foldl Session.step (.start g id)).calls := by
  obtain ⟨st, hst, hfollows⟩ :=
    Transition.exec_simulates (fun _ _ _ h hop => h.step hop) hok (Run.Follows.start g id)
  obtain ⟨hreceived, hsize⟩ := foldl_received (Session.start g id) ops
  rw [hfollows.received_eq] at hreceived
  rw [hfollows.headerSize_eq] at hsize
  refine ⟨st, hst, ?_, hfollows.calls_eq.symm⟩
  rw [hfollows.consumed_eq, hsize, hreceived]
  rfl

/-- A gate with headers of two bytes, and no watchdog. -/
def plainGate : Gate where
  watchdog := 0
  broker := 0
  clientTag := 3
  headerSize := ⟨2, Or.inl rfl⟩
  mp := ⟨[0, 1, 2, 3], 4⟩
  calls := []

/-- A length that is cut in two, an empty frame, and a broker that is set after an agent. -/
theorem frames_forwarded_split :
    ∃ st, Transition.exec Run.step (.start plainGate 7)
        [.forward 20 21, .data ⟨[0], by decide⟩, .data ⟨[2, 65, 66, 0, 0, 0, 1], by decide⟩,
          .broker 30, .data ⟨[67], by decide⟩] = .ok st ∧
      st.conn.consumed = payloads plainGate.headerSize [0, 2, 65, 66, 0, 0, 0, 1, 67] := by
  have hfirst : Framing.cut plainGate.headerSize.1 [0, 2, 65, 66, 0, 0, 0, 1] =
      some ([65, 66], [0, 0, 0, 1]) := rfl
  have hsecond : Framing.cut plainGate.headerSize.1 [0, 0, 0, 1] = some ([], [0, 1]) := rfl
  have hopen : ¬Oversized plainGate.headerSize [0, 2, 65, 66, 0, 0, 0, 1] := by
    rw [oversized_of_frame hfirst (by decide), oversized_of_frame hsecond (by decide)]
    exact oversized_of_none rfl
  have hagent : (20 : UInt32) ≠ 0 := by decide
  have hok : Transition.Permitted Run.step Run.Permits (.start plainGate 7)
      [.forward 20 21, .data ⟨[0], by decide⟩, .data ⟨[2, 65, 66, 0, 0, 0, 1], by decide⟩,
        .broker 30, .data ⟨[67], by decide⟩] := by
    refine .cons trivial rfl ?_
    refine .cons ⟨oversized_of_none rfl, by decide, Or.inl (Or.inr (Or.inl hagent))⟩ rfl ?_
    refine .cons ⟨oversized_of_none rfl, by decide, Or.inl (Or.inr (Or.inl hagent))⟩ rfl ?_
    refine .cons trivial rfl ?_
    exact .cons ⟨hopen, by decide, Or.inl (Or.inr (Or.inl hagent))⟩ rfl trivial
  obtain ⟨st, hst, hconsumed, -⟩ := frames_forwarded hok
  exact ⟨st, hst, hconsumed⟩

/-- Without a receiver a payload stays in the buffer and is taken for a length. -/
theorem unreadPayload_desyncs :
    ∃ st, Transition.exec Run.step (.start plainGate 7)
        [.data ⟨[0, 1, 65], by decide⟩, .broker 30, .data ⟨[0, 1, 66], by decide⟩] = .ok st ∧
      st.conn.consumed ≠ payloads plainGate.headerSize [0, 1, 65, 0, 1, 66] := by
  have hcut : Framing.cut plainGate.headerSize.1 [0, 1, 65, 0, 1, 66] = some ([65], [0, 1, 66]) :=
    rfl
  have hrun : ∃ st, Transition.exec Run.step (.start plainGate 7)
      [.data ⟨[0, 1, 65], by decide⟩, .broker 30, .data ⟨[0, 1, 66], by decide⟩] = .ok st ∧
        st.conn.consumed = [] :=
    ⟨_, rfl, rfl⟩
  obtain ⟨st, hst, hnone⟩ := hrun
  refine ⟨st, hst, ?_⟩
  rw [hnone, payloads_of_frame hcut (by decide) (by decide)]
  exact (List.cons_ne_nil _ _).symm

end Mtask.GateService
