import Mtask.Lib.IntrusiveQueue
import Mtask.SocketServer.Effects

/-!
# The write lists and their pointers

The two lists of a slot as `socket_server.c` has them: a pointer to the first node and one to the
last, and a pointer to the next node in each node. Every function that reads or writes them follows
the pointers here, with the other fields of the slot as its arguments, and is compared with the
function of the same name on lists.
-/

namespace Mtask.SocketServer

open IntrusiveQueue
open List
open Function (update update_of_ne update_self)

/-! ### The nodes -/

/-- `struct wb_list` -/
structure WbList where
  head : Option ℕ
  tail : Option ℕ
  deriving DecidableEq, Repr

/-- The blocks of the nodes: the field `next`, the other fields, and how many were allocated. -/
structure Nodes where
  next : ℕ → Option ℕ
  buffer : ℕ → WriteBuffer
  allocated : ℕ

/-- What ends the server: an assertion, a pointer that is missing, or a loop that does not end. -/
inductive ListFault
  /-- an assertion that the functions on lists know, too -/
  | assert (e : Fault)
  /-- `assert(s->tail != NULL)` in `append_sendbuffer_` -/
  | tailMissing
  /-- `assert(s->tail->next == NULL)` in `append_sendbuffer_` -/
  | tailLinked
  /-- `raise_uncomplete` of an empty list -/
  | nullHead
  | loopDoesNotEnd
  deriving DecidableEq, Repr

/-- `clear_wb_list` -/
def WbList.clear : WbList where
  head := none
  tail := none

/-- The test of `check_wb_list`. -/
def WbList.isClear (s : WbList) : Bool :=
  s.head.isNone && s.tail.isNone

/-- What a loop over a list leaves: the nodes, the list, what `wb_size` loses, the buffers freed,
the results that were not used, and whether a call failed. -/
structure Sending where
  nodes : Nodes
  list : WbList
  size : ℕ
  freed : List Freed
  results : List WriteResult
  failed : Bool

namespace Nodes

variable (h : Nodes)

/-- `list_uncomplete` -/
def uncomplete (list : WbList) : Bool :=
  match list.head with
  | none => false
  | some wb => (h.buffer wb).ptr ≠ (h.buffer wb).buffer

/-- `append_sendbuffer_` -/
def append (s : WbList) (wb : WriteBuffer) : Except ListFault (Nodes × WbList) :=
  let buf := h.allocated
  let next := update h.next buf none
  let h : Nodes := { next, buffer := update h.buffer buf wb, allocated := buf + 1 }
  match s.head with
  | none => .ok (h, ⟨some buf, some buf⟩)
  | some head =>
    match s.tail with
    | none => .error .tailMissing
    | some tail =>
      if next tail ≠ none then .error .tailLinked
      else .ok ({ h with next := update next tail (some buf) }, ⟨some head, some buf⟩)

/-- The loop of `free_wb_list`, with a bound on its rounds. -/
def freeLoop : ℕ → Option ℕ → Except ListFault (List Freed)
  | _, none => .ok []
  | 0, some _ => .error .loopDoesNotEnd
  | n + 1, some tmp =>
    match freeLoop n (h.next tmp) with
    | .error e => .error e
    | .ok freed => .ok ((h.buffer tmp).free :: freed)

/-- `free_wb_list` -/
def freeWbList (list : WbList) : Except ListFault (List Freed) :=
  h.freeLoop h.allocated list.head

/-- The end of the loops over a list: `list->tail = NULL`. -/
def sendingDone (list : WbList) (results : List WriteResult) : Sending where
  nodes := h
  list := { list with tail := none }
  size := 0
  freed := []
  results := results
  failed := false

/-- The loops return in front of the first node. -/
def sendingStops (list : WbList) (results : List WriteResult) (failed : Bool) : Sending where
  nodes := h
  list := list
  size := 0
  freed := []
  results := results
  failed := failed

/-- The first node is freed, and the rest of the list was sent. -/
def sendingGoesOn (tmp : ℕ) (r : Sending) : Sending :=
  { r with
    size := (h.buffer tmp).bytes.length + r.size
    freed := (h.buffer tmp).free :: r.freed }

/-- The kernel has taken `n` bytes of the first node. -/
def advance (tmp n : ℕ) : Nodes :=
  let wb := h.buffer tmp
  let wb := { wb with ptr := wb.ptr + n, bytes := wb.bytes.drop n }
  { h with buffer := update h.buffer tmp wb }

/-- `send_list_tcp`, less `force_close` -/
def sendListTcp : WbList → List WriteResult → Sending
  | list, [] =>
    match list.head with
    | none => h.sendingDone list []
    | some _ => h.sendingStops list [] false
  | list, result :: results =>
    match list.head with
    | none => h.sendingDone list (result :: results)
    | some tmp =>
      match result with
      | .eintr => sendListTcp list results
      | .eagain => h.sendingStops list results false
      | .error => h.sendingStops list results true
      | .wrote n =>
        if n < (h.buffer tmp).bytes.length then
          { (h.advance tmp n).sendingStops list results false with size := n }
        else h.sendingGoesOn tmp (sendListTcp { list with head := h.next tmp } results)

/-- `send_list_udp` -/
def sendListUdp : WbList → List WriteResult → Sending
  | list, [] =>
    match list.head with
    | none => h.sendingDone list []
    | some _ => h.sendingStops list [] false
  | list, result :: results =>
    match list.head with
    | none => h.sendingDone list (result :: results)
    | some tmp =>
      match result with
      | .wrote _ => h.sendingGoesOn tmp (sendListUdp { list with head := h.next tmp } results)
      | _ => h.sendingStops list results false

/-- `send_list` -/
def sendList (protocol : Protocol) (list : WbList) (results : List WriteResult) : Sending :=
  match protocol with
  | .tcp => h.sendListTcp list results
  | _ => h.sendListUdp list results

end Nodes

/-! ### The lists of a slot -/

/-- The fields `high`, `low` and `wb_size`, the nodes, and the buffers that were freed. -/
structure WriteLists where
  nodes : Nodes
  high : WbList
  low : WbList
  wbSize : ℤ
  freed : List Freed

namespace WriteLists

variable (w : WriteLists) (s : Socket)

/-- The list for a priority. -/
def list : Priority → WbList
  | .high => w.high
  | .low => w.low

/-- The nodes and the list of a priority are written. -/
def setList (pr : Priority) (nodes : Nodes) (list : WbList) : WriteLists :=
  match pr with
  | .high => { w with nodes, high := list }
  | .low => { w with nodes, low := list }

/-- `send_buffer_empty` -/
def sendBufferEmpty : Bool :=
  w.high.head.isNone && w.low.head.isNone

/-- `force_close` -/
def forceClose (type : SocketType) : Except ListFault WriteLists :=
  match type with
  | .invalid => .ok w
  | .reserve => .error (.assert .closeReserve)
  | _ =>
    match w.nodes.freeWbList w.high, w.nodes.freeWbList w.low with
    | .ok high, .ok low =>
      .ok { w with high := .clear, low := .clear, freed := w.freed ++ high ++ low }
    | .error e, _ => .error e
    | _, .error e => .error e

/-- `force_close`, and `SOCKET_CLOSE` is returned. -/
def closing (type : SocketType) : Except ListFault (WriteLists × Bool) :=
  match w.forceClose type with
  | .error e => .error e
  | .ok w => .ok (w, true)

/-- What `send_list` has done. -/
def sent (pr : Priority) (r : Sending) : WriteLists :=
  { w.setList pr r.nodes r.list with wbSize := w.wbSize - r.size, freed := w.freed ++ r.freed }

/-- `raise_uncomplete` -/
def raiseUncomplete : Except ListFault WriteLists :=
  match w.low.head with
  | none => .error .nullHead
  | some tmp =>
    let head := w.nodes.next tmp
    let low : WbList := if head = none then .clear else { w.low with head }
    if w.high.head ≠ none then .error (.assert .highNotEmpty)
    else
      .ok { w with
        nodes := { w.nodes with next := update w.nodes.next tmp none }
        high := ⟨some tmp, some tmp⟩
        low }

/-- The steps of `send_buffer` behind an empty list of high priority, and whether `SOCKET_CLOSE` is
returned. -/
def sendBufferLow (type : SocketType) (protocol : Protocol) (results : List WriteResult) :
    Except ListFault (WriteLists × Bool) :=
  if w.low.head ≠ none then
    let r := w.nodes.sendList protocol w.low results
    let w := w.sent .low r
    if r.failed then w.closing type
    else if w.nodes.uncomplete w.low then
      match w.raiseUncomplete with
      | .error e => .error e
      | .ok w => .ok (w, false)
    else .ok (w, false)
  else if type = .halfclose then w.closing type
  else .ok (w, false)

/-- `send_buffer`, and whether it returns `SOCKET_CLOSE`. -/
def sendBuffer (type : SocketType) (protocol : Protocol) (results : List WriteResult) :
    Except ListFault (WriteLists × Bool) :=
  if w.nodes.uncomplete w.low then .error (.assert .lowUncomplete)
  else
    let r := w.nodes.sendList protocol w.high results
    let w := w.sent .high r
    if r.failed then w.closing type
    else if w.high.head = none then w.sendBufferLow type protocol r.results
    else .ok (w, false)

/-- `append_sendbuffer` and its variants. -/
def append (pr : Priority) (wb : WriteBuffer) : Except ListFault WriteLists :=
  match w.nodes.append (w.list pr) wb with
  | .error e => .error e
  | .ok (nodes, list) => .ok { w.setList pr nodes list with wbSize := w.wbSize + wb.bytes.length }

/-- The buffer of a request is freed. -/
def drop (so : SendObject) : WriteLists :=
  { w with freed := w.freed ++ [so.free] }

/-- The direct write of `send_socket` to a TCP socket, of which the kernel takes `n` bytes. -/
def writeTcp (so : SendObject) (n : ℕ) : Except ListFault WriteLists :=
  if so.bytes.length ≤ n then .ok (w.drop so) else w.append .high (so.node n [])

/-- The direct `sendto` of `send_socket`; `result` is `none` if it failed. -/
def writeUdp (so : SendObject) (pr : Priority) (address : List UInt8) (result : Option ℕ) :
    Except ListFault WriteLists :=
  if result.any (so.bytes.length ≤ ·) then .ok (w.drop so) else w.append pr (so.node 0 address)

/-- `send_socket`, with the other fields of the slot. -/
def sendSocket (id : Int32) (so : SendObject) (pr : Priority) (address : Option (List UInt8))
    (results : List WriteResult) : Except ListFault WriteLists :=
  if s.type = .invalid ∨ s.id ≠ id ∨ s.type = .halfclose ∨ s.type = .paccept then .ok (w.drop so)
  else if s.type = .plisten ∨ s.type = .listen then .ok (w.drop so)
  else if w.sendBufferEmpty ∧ s.type = .connected then
    match s.protocol, results with
    | .tcp, .error :: _ =>
      match w.forceClose s.type with
      | .error e => .error e
      | .ok w => .ok (w.drop so)
    | .tcp, .wrote n :: _ => w.writeTcp so n
    | .tcp, _ => w.writeTcp so 0
    | _, .wrote n :: _ => w.writeUdp so pr (s.addressOr address) (some n)
    | _, _ => w.writeUdp so pr (s.addressOr address) none
  else
    match s.protocol with
    | .tcp => w.append pr (so.node 0 [])
    | _ => w.append pr (so.node 0 (s.addressOr address))

/-- `new_fd`; `add` is the result of `sp_add`, where it is called. -/
def newFd (type : SocketType) (add : Option Bool) : Except ListFault WriteLists :=
  if type ≠ .reserve then .error (.assert .notReserve)
  else if add = some false then .ok w
  else if w.high.isClear = false ∨ w.low.isClear = false then .error (.assert .wbListNotEmpty)
  else .ok { w with wbSize := 0 }

/-- `open_socket`, `listen_socket`, `bind_socket` and `add_udp_socket` -/
def opening (type : SocketType) (κ : Kernel) : Purpose → Except ListFault WriteLists
  | .connect _ => if κ.opening = .failed then .ok w else w.newFd type (some κ.add)
  | .listen _ _ => w.newFd type none
  | .bind _ _ => w.newFd type (some κ.add)
  | .udp _ _ _ => w.newFd type (some κ.add)

/-- `close_socket`, with the other fields of the slot. -/
def closeSocket (id : Int32) (results : List WriteResult) : Except ListFault WriteLists :=
  if s.type = .invalid ∨ s.id ≠ id then .ok w
  else
    match if w.sendBufferEmpty then .ok (w, false) else w.sendBuffer s.type s.protocol results with
    | .error e => .error e
    | .ok (w, true) => .ok w
    | .ok (w, false) => if w.sendBufferEmpty then w.forceClose s.type else .ok w

/-- What `ctrl_cmd` calls for a request. -/
def request (κ : Kernel) : Request → Except ListFault WriteLists
  | .start _ _ => .ok w
  | .close id _ => w.closeSocket s id κ.writes
  | .exit => .ok w
  | .send id so pr => w.sendSocket s id so pr none κ.writes
  | .sendUdp id so address => w.sendSocket s id so .high (some address) κ.writes
  | .setUdp _ _ => .ok w
  | .setopt _ => .ok w

/-- The switch of `socket_server_poll`. -/
def dispatch (read write : Bool) (κ : Kernel) : Except ListFault WriteLists :=
  match s.type with
  | .connecting => if κ.connected then .ok w else w.forceClose .connecting
  | .listen => .ok w
  | .invalid => .ok w
  | type =>
    if read then
      match s.protocol with
      | .tcp =>
        if κ.read = .error ∨ κ.read = .got 0 then w.forceClose type else .ok w
      | _ => if κ.recv = .error then w.forceClose type else .ok w
    else if write then
      match w.sendBuffer type s.protocol κ.writes with
      | .error e => .error e
      | .ok (w, _) => .ok w
    else .ok w

end WriteLists

/-! ### The lists that the pointers run through -/

/-- The pointers of a list run through the nodes `as`, which hold the write buffers `l`. -/
structure Holds (h : Nodes) (list : WbList) (as : List ℕ) (l : List WriteBuffer) : Prop where
  linked : Linked h.next list.head list.tail as
  buffers : as.map h.buffer = l
  allocated : ∀ a ∈ as, a < h.allocated

namespace Holds

variable {h h' : Nodes} {list : WbList} {as : List ℕ} {l : List WriteBuffer}

theorem clear (h : Nodes) : Holds h .clear [] [] :=
  ⟨.empty, rfl, nofun⟩

section

variable (hh : Holds h list as l)
include hh

theorem congr (hsame : ∀ a ∈ as, h'.next a = h.next a ∧ h'.buffer a = h.buffer a)
    (hallocated : h.allocated ≤ h'.allocated) : Holds h' list as l where
  linked := hh.linked.congr fun a ha => (hsame a ha).1
  buffers := by
    rw [← hh.buffers]
    exact map_congr_left fun a ha => (hsame a ha).2
  allocated a ha := Nat.lt_of_lt_of_le (hh.allocated a ha) hallocated

theorem head_eq_none_iff : list.head = none ↔ l = [] := by
  rw [← hh.buffers, map_eq_nil_iff]
  constructor
  · intro hnone
    have hlinked := hh.linked
    rw [hnone] at hlinked
    exact hlinked.eq_nil
  · rintro rfl
    exact Seg.nil_iff.mp hh.linked.seg

theorem isNone_head : list.head.isNone = l.isEmpty := by
  rw [Bool.eq_iff_iff, Option.isNone_iff_eq_none, List.isEmpty_iff]
  exact hh.head_eq_none_iff

theorem isClear_eq_false_iff : list.isClear = false ↔ l ≠ [] := by
  rw [WbList.isClear, hh.isNone_head, ← not_iff_not, Bool.not_eq_false, not_not]
  rcases l with _ | ⟨wb, l⟩
  · have has : as = [] := map_eq_nil_iff.mp hh.buffers
    have htail := hh.linked.tail_eq
    rw [has] at htail
    rw [htail]
    simp
  · simp

end

/-- The first node of a list that is not empty. -/
theorem cons {wb : WriteBuffer} (hh : Holds h list as (wb :: l)) :
    ∃ a as', as = a :: as' ∧ list.head = some a ∧ h.buffer a = wb ∧ as'.map h.buffer = l := by
  rcases as with _ | ⟨a, as'⟩
  · exact absurd hh.buffers (by simp)
  · obtain ⟨hhead, -⟩ := Seg.cons_iff.mp hh.linked.seg
    have hbuffers := hh.buffers
    rw [map_cons, List.cons.injEq] at hbuffers
    exact ⟨a, as', rfl, hhead, hbuffers.1, hbuffers.2⟩

theorem uncomplete_eq (hh : Holds h list as l) : h.uncomplete list = listUncomplete l := by
  rcases l with _ | ⟨wb, l⟩
  · rw [Nodes.uncomplete, hh.head_eq_none_iff.mpr rfl, listUncomplete]
  · obtain ⟨a, -, -, hhead, rfl, -⟩ := hh.cons
    rw [Nodes.uncomplete, hhead, listUncomplete]

end Holds

/-- What a loop over the nodes `as` leaves, beside what it leaves of the list `l`. -/
structure Nodes.Sends (h : Nodes) (list : WbList) (as : List ℕ) (l : List WriteBuffer)
    (d : Drain) (r : Sending) (done rest : List ℕ) : Prop where
  split : as = done ++ rest
  seg : Seg h.next r.list.head rest none
  tail : r.list.tail = if rest = [] then none else list.tail
  next : r.nodes.next = h.next
  allocated : r.nodes.allocated = h.allocated
  frame : ∀ a ∉ rest, r.nodes.buffer a = h.buffer a
  buffers : rest.map r.nodes.buffer = d.rest
  size : r.size + Socket.bytesOf d.rest = Socket.bytesOf l
  freed : r.freed = d.freed
  results : r.results = d.results
  failed : r.failed = d.failed

namespace Nodes.Sends

variable {h : Nodes} {list : WbList} {a : ℕ} {as done rest : List ℕ} {d : Drain} {r : Sending}
  {results : List WriteResult}

theorem stops (hseg : Seg h.next list.head as none) (hne : as ≠ []) (failed : Bool) :
    Sends h list as (as.map h.buffer) ⟨[], [], [], as.map h.buffer, results, failed⟩
      (h.sendingStops list results failed) [] as where
  split := rfl
  seg := hseg
  tail := (if_neg hne).symm
  next := rfl
  allocated := rfl
  frame _ _ := rfl
  buffers := rfl
  size := Nat.zero_add _
  freed := rfl
  results := rfl
  failed := rfl

theorem ends (hhead : list.head = none) :
    Sends h list [] [] ⟨[], [], [], [], results, false⟩ (h.sendingDone list results) [] [] where
  split := rfl
  seg := by
    rw [Nodes.sendingDone]
    exact Seg.nil_iff.mpr hhead
  tail := rfl
  next := rfl
  allocated := rfl
  frame _ _ := rfl
  buffers := rfl
  size := rfl
  freed := rfl
  results := rfl
  failed := rfl

theorem goesOn (hs : Sends h { list with head := h.next a } as (as.map h.buffer) d r done rest) :
    Sends h list (a :: as) ((a :: as).map h.buffer)
      { d with freed := (h.buffer a).free :: d.freed } (h.sendingGoesOn a r) (a :: done) rest where
  split := by rw [hs.split, cons_append]
  seg := hs.seg
  tail := hs.tail
  next := hs.next
  allocated := hs.allocated
  frame := hs.frame
  buffers := hs.buffers
  size := by
    have hsize := hs.size
    simp only [Nodes.sendingGoesOn, map_cons, Socket.bytesOf, sum_cons] at hsize ⊢
    omega
  freed := congrArg _ hs.freed
  results := hs.results
  failed := hs.failed

/-- What is noted of the bytes and the datagrams does not matter here. -/
theorem of_drain {d' : Drain} {l : List WriteBuffer} (hs : Sends h list as l d r done rest)
    (hrest : d'.rest = d.rest) (hfreed : d'.freed = d.freed) (hresults : d'.results = d.results)
    (hfailed : d'.failed = d.failed) : Sends h list as l d' r done rest where
  split := hs.split
  seg := hs.seg
  tail := hs.tail
  next := hs.next
  allocated := hs.allocated
  frame := hs.frame
  buffers := hs.buffers.trans hrest.symm
  size := hrest ▸ hs.size
  freed := hs.freed.trans hfreed.symm
  results := hs.results.trans hresults.symm
  failed := hs.failed.trans hfailed.symm

/-- The kernel takes a part of the first node. -/
theorem advances {n : ℕ} (hseg : Seg h.next list.head (a :: as) none) (hnodup : (a :: as).Nodup)
    (hn : n < (h.buffer a).bytes.length) :
    Sends h list (a :: as) ((a :: as).map h.buffer)
      ⟨(h.buffer a).bytes.take n, [], [], { h.buffer a with
        ptr := (h.buffer a).ptr + n, bytes := (h.buffer a).bytes.drop n } :: as.map h.buffer,
        results, false⟩
      { (h.advance a n).sendingStops list results false with size := n } [] (a :: as) where
  split := rfl
  seg := hseg
  tail := (if_neg (cons_ne_nil a as)).symm
  next := rfl
  allocated := rfl
  frame b hb := update_of_ne (ne_of_not_mem_cons hb) ..
  buffers := by
    have hrest : as.map (h.advance a n).buffer = as.map h.buffer :=
      map_congr_left fun b hb => update_of_ne
        (ne_of_mem_of_not_mem hb (nodup_cons.mp hnodup).1) ..
    have hfirst : (h.advance a n).buffer a = { h.buffer a with
        ptr := (h.buffer a).ptr + n, bytes := (h.buffer a).bytes.drop n } := update_self ..
    exact congrArg₂ List.cons hfirst hrest
  size := by
    simp only [map_cons, Socket.bytesOf, sum_cons, length_drop]
    omega
  freed := rfl
  results := rfl
  failed := rfl

theorem tcp (hseg : Seg h.next list.head as none) (hnodup : as.Nodup)
    (results : List WriteResult) :
    ∃ done rest, Sends h list as (as.map h.buffer) (drainTcp (as.map h.buffer) results)
      (h.sendListTcp list results) done rest := by
  induction results generalizing list as with
  | nil =>
    rcases as with _ | ⟨a, as⟩
    · have hhead := Seg.nil_iff.mp hseg
      rw [Nodes.sendListTcp, hhead, map_nil, drainTcp]
      exact ⟨[], [], ends hhead⟩
    · have hhead := (Seg.cons_iff.mp hseg).1
      rw [Nodes.sendListTcp, hhead, map_cons, drainTcp]
      · exact ⟨[], a :: as, stops hseg (cons_ne_nil a as) false⟩
      · simp
  | cons result results ih =>
    rcases as with _ | ⟨a, as⟩
    · have hhead := Seg.nil_iff.mp hseg
      rw [Nodes.sendListTcp, hhead, map_nil, drainTcp]
      exact ⟨[], [], ends hhead⟩
    obtain ⟨hhead, hrest⟩ := Seg.cons_iff.mp hseg
    cases result with
    | eintr =>
      rw [Nodes.sendListTcp, hhead, map_cons, drainTcp]
      · exact ih hseg hnodup
      · simp
    | eagain =>
      rw [Nodes.sendListTcp, hhead, map_cons, drainTcp]
      · exact ⟨[], a :: as, stops hseg (cons_ne_nil a as) false⟩
      · simp
    | error =>
      rw [Nodes.sendListTcp, hhead, map_cons, drainTcp]
      · exact ⟨[], a :: as, stops hseg (cons_ne_nil a as) true⟩
      · simp
    | wrote n =>
      rw [Nodes.sendListTcp, hhead, map_cons, drainTcp]
      by_cases hn : n < (h.buffer a).bytes.length
      · rw [if_pos hn]
        simp only [if_pos hn]
        exact ⟨[], a :: as, advances hseg hnodup hn⟩
      · rw [if_neg hn]
        simp only [if_neg hn]
        have hrest : Seg h.next ({ list with head := h.next a } : WbList).head as none := hrest
        obtain ⟨done, rest, hs⟩ := ih hrest (nodup_cons.mp hnodup).2
        exact ⟨a :: done, rest, hs.goesOn.of_drain rfl rfl rfl rfl⟩

theorem udp (hseg : Seg h.next list.head as none) (protocol : Protocol)
    (results : List WriteResult) :
    ∃ done rest, Sends h list as (as.map h.buffer) (drainUdp protocol (as.map h.buffer) results)
      (h.sendListUdp list results) done rest := by
  induction results generalizing list as with
  | nil =>
    rcases as with _ | ⟨a, as⟩
    · have hhead := Seg.nil_iff.mp hseg
      rw [Nodes.sendListUdp, hhead, map_nil, drainUdp]
      exact ⟨[], [], ends hhead⟩
    · have hhead := (Seg.cons_iff.mp hseg).1
      rw [Nodes.sendListUdp, hhead, map_cons, drainUdp]
      · exact ⟨[], a :: as, stops hseg (cons_ne_nil a as) false⟩
      · simp
  | cons result results ih =>
    rcases as with _ | ⟨a, as⟩
    · have hhead := Seg.nil_iff.mp hseg
      rw [Nodes.sendListUdp, hhead, map_nil, drainUdp]
      exact ⟨[], [], ends hhead⟩
    obtain ⟨hhead, hrest⟩ := Seg.cons_iff.mp hseg
    cases result with
    | wrote n =>
      rw [Nodes.sendListUdp, hhead, map_cons, drainUdp]
      have hrest : Seg h.next ({ list with head := h.next a } : WbList).head as none := hrest
      obtain ⟨done, rest, hs⟩ := ih hrest
      exact ⟨a :: done, rest, hs.goesOn.of_drain rfl rfl rfl rfl⟩
    | eintr | eagain | error =>
      rw [Nodes.sendListUdp, hhead, map_cons, drainUdp]
      · exact ⟨[], a :: as, stops hseg (cons_ne_nil a as) false⟩
      · simp
      · simp

theorem holds {l : List WriteBuffer} (hs : Sends h list as l d r done rest)
    (hh : Holds h list as l) : Holds r.nodes r.list rest d.rest where
  linked := by
    refine ⟨hs.next ▸ hs.seg, ?_, ?_⟩
    · rw [hs.tail, hh.linked.tail_eq, hs.split]
      split_ifs with hrest
      · rw [hrest]
        rfl
      · rw [getLast?_append_of_ne_nil _ hrest]
    · have hnodup := hh.linked.nodup
      rw [hs.split] at hnodup
      exact (nodup_append.mp hnodup).2.1
  buffers := hs.buffers
  allocated a ha := by
    rw [hs.allocated]
    exact hh.allocated a (hs.split ▸ mem_append_right done ha)

end Nodes.Sends

theorem Holds.sendList {h : Nodes} {list : WbList} {as : List ℕ} {l : List WriteBuffer}
    (hh : Holds h list as l) (protocol : Protocol) (results : List WriteResult) :
    ∃ done rest, h.Sends list as l (drain protocol l results)
      (h.sendList protocol list results) done rest := by
  obtain ⟨hlinked, rfl, -⟩ := hh
  cases protocol with
  | tcp => exact Nodes.Sends.tcp hlinked.seg hlinked.nodup results
  | udp => exact Nodes.Sends.udp hlinked.seg .udp results
  | udpv6 => exact Nodes.Sends.udp hlinked.seg .udpv6 results

theorem Holds.append {h : Nodes} {list : WbList} {as : List ℕ} {l : List WriteBuffer}
    (hh : Holds h list as l) (wb : WriteBuffer) :
    ∃ h' list', h.append list wb = .ok (h', list') ∧
      Holds h' list' (as ++ [h.allocated]) (l ++ [wb]) ∧ h'.allocated = h.allocated + 1 ∧
      ∀ a < h.allocated, a ∉ as → h'.next a = h.next a ∧ h'.buffer a = h.buffer a := by
  set buf := h.allocated with hbuf
  have hold : ∀ a < buf, update h.next buf none a = h.next a ∧
      update h.buffer buf wb a = h.buffer a := fun a ha =>
    ⟨update_of_ne (Nat.ne_of_lt ha) .., update_of_ne (Nat.ne_of_lt ha) ..⟩
  have hmem : buf ∉ as := fun hmem => Nat.lt_irrefl _ (hh.allocated buf hmem)
  have hlinked := hh.linked.congr fun a ha => (hold a (hh.allocated a ha)).1
  have hbuffers : (as ++ [buf]).map (update h.buffer buf wb) = l ++ [wb] := by
    rw [map_append, ← hh.buffers]
    refine congrArg₂ _ (map_congr_left fun a ha => (hold a (hh.allocated a ha)).2) ?_
    exact congrArg (fun wb => [wb]) (update_self ..)
  have hallocated : ∀ a ∈ as ++ [buf], a < buf + 1 := fun a ha => by
    rcases mem_append.mp ha with ha | ha
    · exact Nat.lt_succ_of_lt (hh.allocated a ha)
    · exact mem_singleton.mp ha ▸ Nat.lt_succ_self buf
  have hbufnext : update h.next buf none buf = none := update_self ..
  rcases htail : list.tail with _ | tail
  · rw [htail] at hlinked
    obtain ⟨rfl, hpushed⟩ := hlinked.push_first hbufnext
    have hhead : list.head = none := Seg.nil_iff.mp hh.linked.seg
    rw [Nodes.append, hhead]
    exact ⟨_, _, rfl, ⟨hpushed, hbuffers, hallocated⟩, rfl, fun a ha _ => hold a ha⟩
  · rw [htail] at hlinked
    have hpushed := hlinked.push_last hmem hbufnext
    have htailmem : tail ∈ as := mem_of_getLast? hlinked.tail_eq.symm
    have htailnext := hlinked.next_tail
    obtain ⟨head, hhead⟩ := Option.ne_none_iff_exists'.mp hlinked.head_ne_none
    rw [hhead] at hpushed
    rw [Nodes.append, hhead, htail]
    dsimp only
    rw [if_neg (not_not.mpr htailnext)]
    refine ⟨_, _, rfl, ⟨hpushed, hbuffers, hallocated⟩, rfl, fun a ha hmem' => ?_⟩
    refine ⟨?_, (hold a ha).2⟩
    exact (update_of_ne (ne_of_mem_of_not_mem htailmem hmem').symm ..).trans (hold a ha).1

theorem Holds.freeWbList {h : Nodes} {list : WbList} {as : List ℕ} {l : List WriteBuffer}
    (hh : Holds h list as l) : h.freeWbList list = .ok (l.map WriteBuffer.free) := by
  have hloop : ∀ (n : ℕ) (p : Option ℕ) (as : List ℕ), Seg h.next p as none → as.length ≤ n →
      h.freeLoop n p = .ok ((as.map h.buffer).map WriteBuffer.free) := by
    intro n
    induction n with
    | zero =>
      intro p as hseg hlength
      obtain rfl := eq_nil_of_length_eq_zero (Nat.le_zero.mp hlength)
      rw [Seg.nil_iff.mp hseg]
      rfl
    | succ n ih =>
      intro p as hseg hlength
      rcases as with _ | ⟨a, as⟩
      · rw [Seg.nil_iff.mp hseg]
        rfl
      · obtain ⟨rfl, hrest⟩ := Seg.cons_iff.mp hseg
        rw [Nodes.freeLoop, ih _ as hrest (Nat.le_of_succ_le_succ hlength)]
        rfl
  have hlength : as.length ≤ h.allocated := by
    have hsub : as ⊆ List.range h.allocated := fun a ha => mem_range.mpr (hh.allocated a ha)
    have hle := List.Nodup.length_le_of_subset hh.linked.nodup hsub
    rwa [length_range] at hle
  rw [Nodes.freeWbList, hloop _ _ as hh.linked.seg hlength, hh.buffers]

theorem forceClose_report {s : Socket} {type : ReportType} {out : Outcome}
    (h : s.forceClose type = .ok out) : out.report.isSome = true := by
  rw [Socket.forceClose] at h
  split at h <;> cases h <;> rfl

/-! ### The pointers of a slot -/

/-- The pointers `w` stand for the lists of the slot `s`: they run through the nodes `as`, which the
two lists do not share. -/
structure Represents (w : WriteLists) (s : Socket) (as : Priority → List ℕ) : Prop where
  holds : ∀ pr, Holds w.nodes (w.list pr) (as pr) (s.list pr)
  apart : ∀ pr pr', pr ≠ pr' → (as pr).Disjoint (as pr')
  wbSize : w.wbSize = s.wbSize
  freed : w.freed = s.freed

/-- What a function on the lists returns, and what the one on the pointers does. -/
inductive Simulates : Except Fault Outcome → Except ListFault WriteLists → Prop
  | error (e : Fault) : Simulates (.error e) (.error (.assert e))
  | ok {out : Outcome} {w : WriteLists} {as : Priority → List ℕ}
      (h : Represents w out.socket as) : Simulates (.ok out) (.ok w)

/-- The same for a function that may return `SOCKET_CLOSE`. -/
inductive SimulatesSend : Except Fault Outcome → Except ListFault (WriteLists × Bool) → Prop
  | error (e : Fault) : SimulatesSend (.error e) (.error (.assert e))
  | ok {out : Outcome} {w : WriteLists} {as : Priority → List ℕ}
      (h : Represents w out.socket as) : SimulatesSend (.ok out) (.ok (w, out.report.isSome))

theorem WriteLists.setList_spec (w : WriteLists) (pr : Priority) (nodes : Nodes) (list : WbList) :
    (w.setList pr nodes list).nodes = nodes ∧ (w.setList pr nodes list).list pr = list ∧
      (∀ q ≠ pr, (w.setList pr nodes list).list q = w.list q) ∧
      (w.setList pr nodes list).wbSize = w.wbSize ∧ (w.setList pr nodes list).freed = w.freed := by
  cases pr <;> refine ⟨rfl, rfl, fun q hq => ?_, rfl, rfl⟩ <;> cases q <;>
    first | rfl | exact absurd rfl hq

theorem Socket.append_spec (s : Socket) (pr : Priority) (wb : WriteBuffer) :
    (s.append pr wb).list pr = s.list pr ++ [wb] ∧
      (∀ q ≠ pr, (s.append pr wb).list q = s.list q) ∧
      (s.append pr wb).wbSize = s.wbSize + wb.bytes.length ∧ (s.append pr wb).freed = s.freed := by
  cases pr <;> refine ⟨rfl, fun q hq => ?_, rfl, rfl⟩ <;> cases q <;>
    first | rfl | exact absurd rfl hq

theorem Socket.sendList_spec (s : Socket) (pr : Priority) (d : Drain) :
    (s.sendList pr d).list pr = d.rest ∧ (∀ q ≠ pr, (s.sendList pr d).list q = s.list q) ∧
      (s.sendList pr d).wbSize = s.wbSize - (bytesOf (s.list pr) - bytesOf d.rest : ℤ) ∧
      (s.sendList pr d).freed = s.freed ++ d.freed := by
  cases pr <;> refine ⟨rfl, fun q hq => ?_, rfl, rfl⟩ <;> cases q <;>
    first | rfl | exact absurd rfl hq

namespace Represents

variable {w w' : WriteLists} {s s' : Socket} {as : Priority → List ℕ} {pr : Priority}

/-- The other fields of the slot do not matter. -/
theorem congr (h : Represents w s as) (hlist : ∀ pr, s'.list pr = s.list pr)
    (hsize : s'.wbSize = s.wbSize) (hfreed : s'.freed = s.freed) : Represents w s' as where
  holds pr := by
    rw [hlist]
    exact h.holds pr
  apart := h.apart
  wbSize := h.wbSize.trans hsize.symm
  freed := h.freed.trans hfreed.symm

theorem write (pr : Priority) (as' : List ℕ) (h : Represents w s as)
    (hholds : Holds w'.nodes (w'.list pr) as' (s'.list pr))
    (hlist : ∀ q ≠ pr, w'.list q = w.list q) (hlist' : ∀ q ≠ pr, s'.list q = s.list q)
    (hframe : ∀ a, a < w.nodes.allocated → a ∉ as pr →
      w'.nodes.next a = w.nodes.next a ∧ w'.nodes.buffer a = w.nodes.buffer a)
    (hallocated : w.nodes.allocated ≤ w'.nodes.allocated)
    (hnew : ∀ a ∈ as', a ∈ as pr ∨ w.nodes.allocated ≤ a) (hsize : w'.wbSize = s'.wbSize)
    (hfreed : w'.freed = s'.freed) : Represents w' s' (update as pr as') := by
  have hother : ∀ q ≠ pr, ∀ a ∈ as q, a ∉ as' := fun q hq a ha ha' => by
    rcases hnew a ha' with hmem | hle
    · exact h.apart q pr hq ha hmem
    · exact absurd ((h.holds q).allocated a ha) (Nat.not_lt.mpr hle)
  refine ⟨fun q => ?_, fun q q' hne => ?_, hsize, hfreed⟩
  · by_cases hq : q = pr
    · rw [hq, update_self]
      exact hholds
    · rw [update_of_ne hq, hlist q hq, hlist' q hq]
      exact (h.holds q).congr (fun a ha => hframe a ((h.holds q).allocated a ha)
        (fun hmem => h.apart q pr hq ha hmem)) hallocated
  · by_cases hq : q = pr
    · rw [hq, update_self, update_of_ne (hq ▸ hne.symm)]
      exact fun a ha ha' => hother q' (hq ▸ hne.symm) a ha' ha
    · by_cases hq' : q' = pr
      · rw [hq', update_self, update_of_ne hq]
        exact fun a ha ha' => hother q hq a ha ha'
      · rw [update_of_ne hq, update_of_ne hq']
        exact h.apart q q' hne

section

variable (h : Represents w s as)
include h

theorem sendBufferEmpty_eq : w.sendBufferEmpty = s.sendBufferEmpty := by
  have hhigh : w.high.head.isNone = s.high.isEmpty := (h.holds .high).isNone_head
  have hlow : w.low.head.isNone = s.low.isEmpty := (h.holds .low).isNone_head
  rw [WriteLists.sendBufferEmpty, Socket.sendBufferEmpty, hhigh, hlow]

theorem append (pr : Priority) (wb : WriteBuffer) :
    ∃ w' as', w.append pr wb = .ok w' ∧ Represents w' (s.append pr wb) as' := by
  obtain ⟨nodes, list, heq, hholds, hallocated, hframe⟩ := (h.holds pr).append wb
  obtain ⟨hnodes, hself, hother, -, hfreed⟩ := w.setList_spec pr nodes list
  obtain ⟨hself', hother', hsize', hfreed'⟩ := s.append_spec pr wb
  rw [WriteLists.append, heq]
  refine ⟨_, _, rfl, h.write pr (as pr ++ [w.nodes.allocated]) ?_ hother hother' ?_
    ?_ (fun a ha => ?_) ?_ ?_⟩
  · change Holds (w.setList pr nodes list).nodes ((w.setList pr nodes list).list pr) _ _
    rw [hnodes, hself, hself']
    exact hholds
  · change ∀ a, a < w.nodes.allocated → a ∉ as pr → (w.setList pr nodes list).nodes.next a = _ ∧
      (w.setList pr nodes list).nodes.buffer a = _
    rw [hnodes]
    exact hframe
  · change w.nodes.allocated ≤ (w.setList pr nodes list).nodes.allocated
    rw [hnodes, hallocated]
    exact Nat.le_succ _
  · exact (mem_append.mp ha).imp_right fun ha =>
      Nat.le_of_eq (mem_singleton.mp ha).symm
  · rw [hsize', ← h.wbSize]
  · rw [hfreed', ← h.freed]
    exact hfreed

theorem sendList (pr : Priority) (results : List WriteResult) :
    let r := w.nodes.sendList s.protocol (w.list pr) results
    let d := drain s.protocol (s.list pr) results
    r.results = d.results ∧ r.failed = d.failed ∧
      ∃ as', Represents (w.sent pr r) (s.sendList pr d) as' := by
  obtain ⟨done, rest, hs⟩ := (h.holds pr).sendList s.protocol results
  have hrest := hs.holds (h.holds pr)
  generalize w.nodes.sendList s.protocol (w.list pr) results = r at hs hrest ⊢
  generalize drain s.protocol (s.list pr) results = d at hs hrest ⊢
  obtain ⟨hnodes, hself, hother, hsize, hfreed⟩ := w.setList_spec pr r.nodes r.list
  obtain ⟨hself', hother', hsize', hfreed'⟩ := s.sendList_spec pr d
  have hsub : ∀ a ∈ rest, a ∈ as pr := fun a ha => hs.split ▸ mem_append_right done ha
  refine ⟨hs.results, hs.failed, _, h.write pr rest ?_ hother hother' ?_ ?_
    (fun a ha => .inl (hsub a ha)) ?_ ?_⟩
  · change Holds (w.setList pr r.nodes r.list).nodes ((w.setList pr r.nodes r.list).list pr) _ _
    rw [hnodes, hself, hself']
    exact hrest
  · change ∀ a, a < w.nodes.allocated → a ∉ as pr → (w.setList pr r.nodes r.list).nodes.next a = _ ∧
      (w.setList pr r.nodes r.list).nodes.buffer a = _
    rw [hnodes, hs.next]
    exact fun a _ ha => ⟨rfl, hs.frame a fun hmem => ha (hsub a hmem)⟩
  · have hallocated : (w.setList pr r.nodes r.list).nodes.allocated = w.nodes.allocated := by
      rw [hnodes, hs.allocated]
    exact Nat.le_of_eq hallocated.symm
  · have hsum := hs.size
    rw [hsize', ← h.wbSize]
    change w.wbSize - r.size = _
    omega
  · rw [hfreed', ← h.freed, ← hs.freed]
    rfl

theorem forceClose (type : ReportType) : Simulates (s.forceClose type) (w.forceClose s.type) := by
  have hhigh : w.nodes.freeWbList w.high = .ok (s.high.map WriteBuffer.free) :=
    (h.holds .high).freeWbList
  have hlow : w.nodes.freeWbList w.low = .ok (s.low.map WriteBuffer.free) :=
    (h.holds .low).freeWbList
  have hclosed : ∀ s' : Socket, s'.high = [] → s'.low = [] → s'.wbSize = s.wbSize →
      s'.freed = s.freed ++ s.high.map WriteBuffer.free ++ s.low.map WriteBuffer.free →
      Represents { w with
        high := .clear
        low := .clear
        freed := w.freed ++ s.high.map WriteBuffer.free ++ s.low.map WriteBuffer.free }
        s' fun _ => [] := by
    intro s' hs'high hs'low hsize hfreed
    refine ⟨fun pr => ?_, nofun, h.wbSize.trans hsize.symm, ?_⟩
    · have hnil : s'.list pr = [] := by
        cases pr
        · exact hs'high
        · exact hs'low
      rw [hnil]
      cases pr <;> exact Holds.clear w.nodes
    · rw [hfreed, ← h.freed]
  rw [Socket.forceClose, WriteLists.forceClose.eq_def, hhigh, hlow]
  cases s.type with
  | invalid => exact .ok h
  | reserve => exact .error _
  | _ => exact .ok (hclosed _ rfl rfl rfl rfl)

theorem closing : SimulatesSend (s.forceClose .close) (w.closing s.type) := by
  have hclose := h.forceClose .close
  rw [WriteLists.closing]
  generalize hr : s.forceClose .close = r at hclose ⊢
  generalize w.forceClose s.type = r' at hclose ⊢
  cases hclose with
  | error e => exact .error e
  | @ok out w' as' hw' =>
    have hsend := SimulatesSend.ok hw'
    rwa [forceClose_report hr] at hsend

theorem uncomplete_eq (pr : Priority) :
    w.nodes.uncomplete (w.list pr) = listUncomplete (s.list pr) :=
  (h.holds pr).uncomplete_eq

theorem raiseUncomplete (hhigh : s.high = []) (hlow : s.low ≠ []) :
    ∃ s' w' as', s.raiseUncomplete = .ok s' ∧ w.raiseUncomplete = .ok w' ∧
      Represents w' s' as' := by
  obtain ⟨wb, low, hwb⟩ := exists_cons_of_ne_nil hlow
  have hholds : Holds w.nodes w.low (as .low) (wb :: low) := hwb ▸ h.holds .low
  obtain ⟨a, rest, has, hhead, hbuffer, hrest⟩ := hholds.cons
  have hlinked := hholds.linked
  rw [hhead] at hlinked
  obtain ⟨rest', hsplit, -, hpop⟩ := hlinked.pop
  obtain rfl : rest' = rest := (List.cons.inj (hsplit.symm.trans has)).2
  have hhighnone : w.high.head = none := (h.holds .high).head_eq_none_iff.mpr hhigh
  rw [Socket.raiseUncomplete, hwb, WriteLists.raiseUncomplete, hhead]
  simp only [hhigh, hhighnone, ne_eq, not_true_eq_false, if_false]
  have hnodup := hlinked.nodup
  rw [hsplit] at hnodup
  have hmem := (nodup_cons.mp hnodup).1
  have hallocated : ∀ b ∈ a :: rest', b < w.nodes.allocated := fun b hb =>
    hholds.allocated b (has ▸ hb)
  refine ⟨_, _, fun | .high => [a] | .low => rest', rfl, rfl, fun pr => ?_, fun pr pr' hne => ?_,
    h.wbSize, h.freed⟩
  · cases pr
    · refine ⟨⟨.cons (Seg.nil_iff.mpr ?_), rfl, nodup_singleton a⟩, ?_, fun b hb => ?_⟩
      · exact update_self ..
      · exact congrArg (fun wb => [wb]) hbuffer
      · exact hallocated b (mem_singleton.mp hb ▸ mem_cons_self)
    · refine ⟨?_, hrest, fun b hb => hallocated b (mem_cons_of_mem a hb)⟩
      change Linked (update w.nodes.next a none)
        (if w.nodes.next a = none then WbList.clear else { w.low with head := w.nodes.next a }).head
        (if w.nodes.next a = none then WbList.clear else { w.low with head := w.nodes.next a }).tail
        rest'
      by_cases hnone : w.nodes.next a = none
      · rw [if_pos hnone]
        rw [if_pos hnone, hnone] at hpop
        exact hpop
      · rw [if_neg hnone]
        rwa [if_neg hnone] at hpop
  · have hapart : [a].Disjoint rest' := singleton_disjoint.mpr hmem
    cases pr <;> cases pr'
    · exact absurd rfl hne
    · exact hapart
    · exact fun b hb hb' => hapart hb' hb
    · exact absurd rfl hne

theorem sendBufferLow (hhigh : s.high = []) (results : List WriteResult) :
    SimulatesSend (s.sendBufferLow results) (w.sendBufferLow s.type s.protocol results) := by
  have hlow : w.low.head = none ↔ s.low = [] := (h.holds .low).head_eq_none_iff
  rw [Socket.sendBufferLow, WriteLists.sendBufferLow]
  by_cases hnil : s.low = []
  · rw [if_neg (not_not.mpr hnil), if_neg (not_not.mpr (hlow.mpr hnil))]
    dsimp only
    have h' : Represents w { s with writing := false } as :=
      h.congr (fun pr => by cases pr <;> rfl) rfl rfl
    by_cases hhalf : s.type = .halfclose
    · rw [if_pos hhalf, if_pos hhalf]
      exact h'.closing
    · rw [if_neg hhalf, if_neg hhalf]
      exact .ok h'
  · rw [if_pos hnil, if_pos (mt hlow.mp hnil)]
    dsimp only
    obtain ⟨-, hfailed, as', hsent⟩ := h.sendList .low results
    have huncomplete := hsent.uncomplete_eq .low
    simp only [WriteLists.list, Socket.list] at hfailed hsent huncomplete
    generalize w.nodes.sendList s.protocol w.low results = r at hfailed hsent huncomplete ⊢
    generalize drain s.protocol s.low results = d at hfailed hsent huncomplete ⊢
    have hhigh' : (s.sendList .low d).high = [] := hhigh
    by_cases hf : d.failed = true
    · rw [if_pos hf, if_pos (hfailed.trans hf)]
      exact hsent.closing
    · rw [if_neg hf, if_neg (fun hr => hf (hfailed.symm.trans hr)), huncomplete]
      by_cases hu : listUncomplete (s.sendList .low d).low = true
      · have hne : (s.sendList .low d).low ≠ [] := fun hnil => by
          rw [hnil] at hu
          exact Bool.false_ne_true hu
        obtain ⟨s', w', as'', hs', hw', hraised⟩ := hsent.raiseUncomplete hhigh' hne
        rw [if_pos hu, if_pos hu, hs', hw']
        exact .ok hraised
      · rw [if_neg hu, if_neg hu]
        exact .ok hsent

theorem sendBuffer (results : List WriteResult) :
    SimulatesSend (s.sendBuffer results) (w.sendBuffer s.type s.protocol results) := by
  have hlow := h.uncomplete_eq .low
  rw [Socket.sendBuffer, WriteLists.sendBuffer]
  simp only [WriteLists.list, Socket.list] at hlow
  rw [hlow]
  by_cases hu : listUncomplete s.low = true
  · rw [if_pos hu, if_pos hu]
    exact .error _
  rw [if_neg hu, if_neg hu]
  dsimp only
  obtain ⟨hresults, hfailed, as', hsent⟩ := h.sendList .high results
  simp only [WriteLists.list, Socket.list] at hresults hfailed hsent
  generalize w.nodes.sendList s.protocol w.high results = r at hresults hfailed hsent ⊢
  generalize drain s.protocol s.high results = d at hresults hfailed hsent ⊢
  have hhigh : (w.sent .high r).high.head = none ↔ (s.sendList .high d).high = [] :=
    (hsent.holds .high).head_eq_none_iff
  by_cases hf : d.failed = true
  · rw [if_pos hf, if_pos (hfailed.trans hf)]
    exact hsent.closing
  · rw [if_neg hf, if_neg (fun hr => hf (hfailed.symm.trans hr)), hresults]
    by_cases hnil : (s.sendList .high d).high = []
    · rw [if_pos hnil, if_pos (hhigh.mpr hnil)]
      exact hsent.sendBufferLow hnil d.results
    · rw [if_neg hnil, if_neg (mt hhigh.mp hnil)]
      exact .ok hsent

theorem drop (so : SendObject) : Represents (w.drop so) (s.drop so) as where
  holds pr := by
    have hlist := h.holds pr
    cases pr <;> exact hlist
  apart := h.apart
  wbSize := h.wbSize
  freed := congrArg (· ++ [so.free]) h.freed

/-- A node is appended, and nothing is returned. -/
theorem appended (pr : Priority) (wb : WriteBuffer)
    (hlist : ∀ q, s'.list q = (s.append pr wb).list q) (hsize : s'.wbSize = (s.append pr wb).wbSize)
    (hfreed : s'.freed = (s.append pr wb).freed) : Simulates (.ok s'.quiet) (w.append pr wb) := by
  obtain ⟨w', as', heq, hw'⟩ := h.append pr wb
  rw [heq]
  exact .ok (hw'.congr hlist hsize hfreed)

theorem writeTcp (so : SendObject) (n : ℕ) :
    Simulates (.ok (s.writeTcp so n).quiet) (w.writeTcp so n) := by
  rw [Socket.writeTcp, WriteLists.writeTcp]
  dsimp only
  split_ifs
  · exact .ok ((h.drop so).congr (fun pr => by cases pr <;> rfl) rfl rfl)
  · exact h.appended .high _ (fun pr => by cases pr <;> rfl) rfl rfl

theorem writeUdp (so : SendObject) (pr : Priority) (address : List UInt8) (result : Option ℕ) :
    Simulates (.ok (s.writeUdp so pr address result).quiet) (w.writeUdp so pr address result) := by
  rw [Socket.writeUdp.eq_def, WriteLists.writeUdp]
  dsimp only
  split_ifs
  · exact .ok ((h.drop so).congr (fun pr => by cases pr <;> rfl) rfl rfl)
  · cases pr
    · exact h.appended .high _ (fun pr => by cases pr <;> rfl) rfl rfl
    · exact h.appended .low _ (fun pr => by cases pr <;> rfl) rfl rfl

theorem sendDirect (so : SendObject) (pr : Priority) (address : Option (List UInt8))
    (results : List WriteResult) :
    Simulates
      (match s.protocol, results with
      | .tcp, .error :: _ =>
        match s.forceClose .close with
        | .ok out => .ok { out with socket := out.socket.drop so }
        | .error e => .error e
      | .tcp, .wrote n :: _ => .ok (s.writeTcp so n).quiet
      | .tcp, _ => .ok (s.writeTcp so 0).quiet
      | _, .wrote n :: _ => .ok (s.writeUdp so pr (s.addressOr address) (some n)).quiet
      | _, _ => .ok (s.writeUdp so pr (s.addressOr address) none).quiet)
      (match s.protocol, results with
      | .tcp, .error :: _ =>
        match w.forceClose s.type with
        | .error e => .error e
        | .ok w => .ok (w.drop so)
      | .tcp, .wrote n :: _ => w.writeTcp so n
      | .tcp, _ => w.writeTcp so 0
      | _, .wrote n :: _ => w.writeUdp so pr (s.addressOr address) (some n)
      | _, _ => w.writeUdp so pr (s.addressOr address) none) := by
  have hclose := h.forceClose .close
  split
  · generalize s.forceClose .close = r at hclose ⊢
    generalize w.forceClose s.type = r' at hclose ⊢
    cases hclose with
    | error e => exact .error e
    | ok hw => exact .ok (hw.drop so)
  · exact h.writeTcp so _
  · exact h.writeTcp so 0
  · exact h.writeUdp so pr _ (some _)
  · exact h.writeUdp so pr _ none

theorem sendSocket (id : Int32) (so : SendObject) (pr : Priority) (address : Option (List UInt8))
    (results : List WriteResult) :
    Simulates (s.sendSocket id so pr address results)
      (w.sendSocket s id so pr address results) := by
  rw [Socket.sendSocket.eq_def, WriteLists.sendSocket.eq_def, h.sendBufferEmpty_eq]
  by_cases hdead : s.type = .invalid ∨ s.id ≠ id ∨ s.type = .halfclose ∨ s.type = .paccept
  · rw [if_pos hdead, if_pos hdead]
    exact .ok (h.drop so)
  rw [if_neg hdead, if_neg hdead]
  by_cases hlisten : s.type = .plisten ∨ s.type = .listen
  · rw [if_pos hlisten, if_pos hlisten]
    exact .ok (h.drop so)
  rw [if_neg hlisten, if_neg hlisten]
  by_cases hdirect : s.sendBufferEmpty = true ∧ s.type = .connected
  · rw [if_pos hdirect, if_pos hdirect]
    exact h.sendDirect so pr address results
  · rw [if_neg hdirect, if_neg hdirect]
    cases s.protocol with
    | tcp => exact h.appended pr _ (fun _ => rfl) rfl rfl
    | udp | udpv6 => exact h.appended pr _ (fun _ => rfl) rfl rfl

theorem quiet : Simulates (.ok s.quiet) (.ok w) :=
  have hquiet : Represents w s.quiet.socket as := h
  .ok hquiet

theorem closeSend (results : List WriteResult) :
    SimulatesSend (if s.sendBufferEmpty then .ok s.quiet else s.sendBuffer results)
      (if w.sendBufferEmpty then .ok (w, false)
        else w.sendBuffer s.type s.protocol results) := by
  rw [h.sendBufferEmpty_eq]
  by_cases hempty : s.sendBufferEmpty = true
  · rw [if_pos hempty, if_pos hempty]
    have hquiet : Represents w s.quiet.socket as := h
    exact .ok hquiet
  · rw [if_neg hempty, if_neg hempty]
    exact h.sendBuffer results

end

/-- `close_socket` goes on with the slot in the state that it is in. -/
theorem closeSend_type (s : Socket) (results : List WriteResult) (out : Outcome)
    (hsend : (if s.sendBufferEmpty then .ok s.quiet else s.sendBuffer results) = .ok out)
    (hreport : out.report.isSome = false) : out.socket.type = s.type := by
  split_ifs at hsend
  · cases hsend
    rfl
  · obtain ⟨s', hs', rfl | ⟨type, hclose⟩⟩ := sendBuffer_ok hsend
    · exact hs'.type
    · rw [forceClose_report hclose] at hreport
      cases hreport

theorem closeSocket (h : Represents w s as) (id : Int32) (opaqueId : ℕ)
    (results : List WriteResult) :
    Simulates (s.closeSocket id opaqueId results) (w.closeSocket s id results) := by
  rw [Socket.closeSocket, WriteLists.closeSocket]
  by_cases hdead : s.type = .invalid ∨ s.id ≠ id
  · rw [if_pos hdead, if_pos hdead]
    exact .ok h
  rw [if_neg hdead, if_neg hdead]
  have hsend := h.closeSend results
  have htype := closeSend_type s results
  generalize (if s.sendBufferEmpty then .ok s.quiet else s.sendBuffer results) = r at hsend htype ⊢
  generalize (if w.sendBufferEmpty then .ok (w, false)
    else w.sendBuffer s.type s.protocol results) = r' at hsend ⊢
  cases hsend with
  | error e => exact .error e
  | @ok out w' as' hw =>
    dsimp only
    cases hreport : out.report.isSome with
    | true =>
      rw [if_pos rfl]
      exact .ok hw
    | false =>
      rw [if_neg Bool.false_ne_true]
      dsimp only
      rw [hw.sendBufferEmpty_eq, ← htype out rfl hreport]
      by_cases hempty : out.socket.sendBufferEmpty = true
      · rw [if_pos hempty, if_pos hempty]
        have hclose := hw.forceClose .close
        generalize out.socket.forceClose .close = r at hclose ⊢
        generalize w'.forceClose out.socket.type = r' at hclose ⊢
        cases hclose with
        | error e => exact .error e
        | ok hw => exact .ok hw
      · rw [if_neg hempty, if_neg hempty]
        exact .ok (hw.congr (fun pr => by cases pr <;> rfl) rfl rfl)

/-- `new_fd`, and what its callers do with the slot. -/
theorem newFd (h : Represents w s as) (id : Int32) (fd : Fd) (protocol : Protocol) (opaqueId : ℕ)
    (add : Option Bool) {bad good : Socket → Outcome}
    (hbad : ∀ s', (∀ pr, (bad s').socket.list pr = s'.list pr) ∧
      (bad s').socket.wbSize = s'.wbSize ∧ (bad s').socket.freed = s'.freed)
    (hgood : ∀ s', (∀ pr, (good s').socket.list pr = s'.list pr) ∧
      (good s').socket.wbSize = s'.wbSize ∧ (good s').socket.freed = s'.freed) :
    Simulates (match s.newFd id fd protocol opaqueId add with
      | .ok (false, s) => .ok (bad s)
      | .ok (true, s) => .ok (good s)
      | .error e => .error e) (w.newFd s.type add) := by
  rw [Socket.newFd, WriteLists.newFd]
  by_cases hreserve : s.type ≠ .reserve
  · rw [if_pos hreserve, if_pos hreserve]
    exact .error _
  rw [if_neg hreserve, if_neg hreserve]
  by_cases hadd : add = some false
  · rw [if_pos hadd, if_pos hadd]
    obtain ⟨hlist, hsize, hfreed⟩ := hbad { s with type := .invalid }
    exact .ok (h.congr (fun pr => (hlist pr).trans (by cases pr <;> rfl)) hsize hfreed)
  rw [if_neg hadd, if_neg hadd]
  have hclear : (w.high.isClear = false ∨ w.low.isClear = false) ↔ (s.high ≠ [] ∨ s.low ≠ []) :=
    or_congr (h.holds .high).isClear_eq_false_iff (h.holds .low).isClear_eq_false_iff
  by_cases hqueued : s.high ≠ [] ∨ s.low ≠ []
  · rw [if_pos hqueued, if_pos (hclear.mpr hqueued)]
    exact .error _
  · rw [if_neg hqueued, if_neg (mt hclear.mp hqueued)]
    obtain ⟨hlist, hsize, hfreed⟩ := hgood { s with
      id
      fd := some fd
      protocol
      p := .size minReadBuffer
      opaqueId
      wbSize := 0
      registered := add.isSome
      writing := false
      stream := []
      datagrams := [] }
    have hzero : Represents { w with wbSize := 0 } { s with wbSize := 0 } as :=
      ⟨fun pr => by have hlist := h.holds pr; cases pr <;> exact hlist, h.apart, rfl, h.freed⟩
    exact .ok (hzero.congr (fun pr => (hlist pr).trans (by cases pr <;> rfl)) hsize hfreed)

theorem same (h : Represents w s as) {out : Outcome}
    (hlist : ∀ pr, out.socket.list pr = s.list pr) (hsize : out.socket.wbSize = s.wbSize)
    (hfreed : out.socket.freed = s.freed) : Simulates (.ok out) (.ok w) :=
  .ok (h.congr hlist hsize hfreed)

/-- What `openSocket` and the others do with the slot that `new_fd` gives them. -/
theorem typed (type : SocketType) (s' : Socket) :
    (∀ pr, ({ s' with type } : Socket).list pr = s'.list pr) ∧
      ({ s' with type } : Socket).wbSize = s'.wbSize ∧
      ({ s' with type } : Socket).freed = s'.freed :=
  ⟨fun pr => by cases pr <;> rfl, rfl, rfl⟩

section

variable (h : Represents w s as)
include h

/-- **The openings.** -/
theorem opening (id : Int32) (fresh : ℕ) (κ : Kernel) (purpose : Purpose) :
    Simulates (purpose.run s id fresh κ) (w.opening s.type κ purpose) := by
  cases purpose with
  | connect opaqueId =>
    rw [Purpose.run, Socket.openSocket.eq_def, WriteLists.opening]
    cases κ.opening with
    | failed => exact h.same (fun pr => by cases pr <;> rfl) rfl rfl
    | connected => exact h.newFd _ _ _ _ _ (typed _) (typed _)
    | inProgress =>
      exact h.newFd _ _ _ _ _ (typed _) fun s' => ⟨fun pr => by cases pr <;> rfl, rfl, rfl⟩
  | listen opaqueId fd => exact h.newFd _ _ _ _ _ (typed _) (typed _)
  | bind opaqueId fd =>
    exact h.newFd _ _ _ _ _ (fun s' => ⟨fun _ => rfl, rfl, rfl⟩) (typed _)
  | udp opaqueId fd v6 =>
    exact h.newFd _ _ _ _ _ (typed _) fun s' => ⟨fun pr => by cases pr <;> rfl, rfl, rfl⟩

theorem acceptSocket (listener : Socket) (id : Int32) (fd : ℕ) :
    Simulates (Server.acceptSocket s listener id fd) (w.newFd s.type none) :=
  h.newFd _ _ _ _ _ (fun _ => ⟨fun _ => rfl, rfl, rfl⟩) (typed _)

/-- **The requests.** -/
theorem request (κ : Kernel) (r : Request) : Simulates (r.run s κ) (w.request s κ r) := by
  cases r with
  | start id opaqueId =>
    rw [Request.run, Socket.startSocket, WriteLists.request]
    split_ifs <;> exact h.same (fun pr => by cases pr <;> rfl) rfl rfl
  | close id opaqueId => exact h.closeSocket id opaqueId κ.writes
  | exit => exact .ok h
  | send id so pr => exact h.sendSocket id so pr none κ.writes
  | sendUdp id so address => exact h.sendSocket id so .high (some address) κ.writes
  | setUdp id address =>
    rw [Request.run, Socket.setUdpAddress, WriteLists.request]
    split_ifs <;> exact h.same (fun pr => by cases pr <;> rfl) rfl rfl
  | setopt id => exact h.quiet

theorem forwardMessageTcp (result : ReadResult) :
    Simulates (s.forwardMessageTcp result)
      (if result = .error ∨ result = .got 0 then w.forceClose s.type else .ok w) := by
  rw [Socket.forwardMessageTcp.eq_def]
  split
  · exact h.quiet
  · exact h.quiet
  · exact h.forceClose .error
  · exact h.forceClose .close
  · next n hn =>
    have hread : ¬(ReadResult.got n = .error ∨ ReadResult.got n = .got 0) := by simpa using hn
    rw [if_neg hread]
    split_ifs <;> exact h.same (fun pr => by cases pr <;> rfl) rfl rfl

theorem forwardMessageUdp (result : RecvResult) :
    Simulates (s.forwardMessageUdp result)
      (if result = .error then w.forceClose s.type else .ok w) := by
  rw [Socket.forwardMessageUdp.eq_def]
  cases result with
  | eintr | eagain => exact h.quiet
  | error => exact h.forceClose .error
  | got n v4 =>
    rw [if_neg nofun]
    dsimp only
    split_ifs <;> exact .ok h

theorem reportConnect (connected : Bool) :
    Simulates (s.reportConnect connected) (if connected then .ok w else w.forceClose s.type) := by
  rw [Socket.reportConnect]
  cases connected with
  | true =>
    rw [if_pos rfl, if_pos rfl]
    dsimp only
    split_ifs <;> exact h.same (fun pr => by cases pr <;> rfl) rfl rfl
  | false => exact h.forceClose .error

/-- **The entries of the poller.** -/
theorem dispatch (read write : Bool) (κ : Kernel) :
    Simulates (s.dispatch read write κ) (w.dispatch s read write κ) := by
  have hconnect := h.reportConnect κ.connected
  have htcp := h.forwardMessageTcp κ.read
  have hudp := h.forwardMessageUdp κ.recv
  have hsend := h.sendBuffer κ.writes
  rw [Socket.dispatch.eq_def, WriteLists.dispatch.eq_def]
  cases htype : s.type with
  | connecting => rwa [htype] at hconnect
  | listen | invalid => exact h.quiet
  | reserve | plisten | connected | halfclose | paccept | bind =>
    rw [htype] at htcp hudp hsend
    dsimp only
    cases read with
    | true =>
      rw [if_pos rfl, if_pos rfl]
      cases s.protocol with
      | tcp => exact htcp
      | udp | udpv6 => exact hudp
    | false =>
      cases write with
      | false => exact h.quiet
      | true =>
        simp only [Bool.false_eq_true, if_false, if_true]
        generalize s.sendBuffer κ.writes = r at hsend ⊢
        generalize w.sendBuffer _ s.protocol κ.writes = r' at hsend ⊢
        cases hsend with
        | error e => exact .error e
        | ok hw => exact .ok hw

end

end Represents

end Mtask.SocketServer
