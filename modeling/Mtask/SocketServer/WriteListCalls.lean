import Mtask.SocketServer.Datagrams
import Mtask.SocketServer.GracefulClose
import Mtask.SocketServer.Reserved
import Mtask.SocketServer.WriteLists

/-!
# One call on the write lists of a slot

What a step calls on a slot keeps its lists in order: nothing is queued on a slot that is not a
socket to send on, `wb_size` is the number of unsent bytes of a socket, the nodes of low priority
are whole, and a buffer that was handed to the slot is queued or was freed, once.
-/

namespace Mtask.SocketServer

open List

/-! ### Calls on a slot -/

/-- What a step calls on a slot. -/
inductive SlotOp
  | request (r : Request) (κ : Kernel)
  | opening (id : Int32) (purpose : Purpose) (fresh : ℕ) (κ : Kernel)
  | entry (read write : Bool) (κ : Kernel)
  | accept (listener : Socket) (id : Int32) (fd : ℕ)

namespace SlotOp

/-- The function on the lists. -/
def run (s : Socket) : SlotOp → Except Fault Outcome
  | request r κ => r.run s κ
  | opening id purpose fresh κ => purpose.run s id fresh κ
  | entry read write κ => s.dispatch read write κ
  | accept listener id fd => Server.acceptSocket s listener id fd

/-- The function on the pointers, with the other fields of the slot. -/
def runLists (w : WriteLists) (s : Socket) : SlotOp → Except ListFault WriteLists
  | request r κ => w.request s κ r
  | opening _ purpose _ κ => w.opening s.type κ purpose
  | entry read write κ => w.dispatch s read write κ
  | accept _ _ _ => w.newFd s.type none

/-- The buffer that is handed to the slot. -/
def given : SlotOp → List Freed
  | request r _ => (r.object.map SendObject.free).toList
  | opening _ _ _ _ => []
  | entry _ _ _ => []
  | accept _ _ _ => []

/-- The slot was reserved for the call. -/
def Opens : SlotOp → Prop
  | opening _ _ _ _ => True
  | accept _ _ _ => True
  | _ => False

/-- `send_buffer` is called. -/
def writes (s : Socket) : SlotOp → Bool
  | request (.close id _) _ => s.type ≠ .invalid ∧ s.id = id ∧ s.sendBufferEmpty = false
  | entry false true _ => s.type ≠ .connecting ∧ s.type ≠ .listen ∧ s.type ≠ .invalid
  | _ => false

/-- The request to send that the call is for: its id and its object. -/
def send? : SlotOp → Option (Int32 × SendObject)
  | request r _ => r.object.map fun so => (r.id, so)
  | _ => none

/-- The calls that do no harm to the lists: the object of a request is as `send_object_init` makes
it, nothing is sent on a slot that still has its last id while it is reserved, and `send_buffer`
does not find a user object in front of the list of low priority whose data lies somewhere else. -/
structure Permits (s : Socket) (op : SlotOp) : Prop where
  plain : ∀ x ∈ op.send?, x.2.userobject = false → x.2.buffer = x.2.object
  reserved : ∀ x ∈ op.send?, ¬(s.type = .reserve ∧ s.id = x.1)
  writes : op.writes s = true → ∀ wb ∈ s.low.head?, wb.userobject = true → wb.ptr = wb.buffer

instance (s : Socket) (op : SlotOp) : Decidable (op.Permits s) :=
  decidable_of_iff
    ((∀ x ∈ op.send?, x.2.userobject = false → x.2.buffer = x.2.object) ∧
      (∀ x ∈ op.send?, ¬(s.type = .reserve ∧ s.id = x.1)) ∧
      (op.writes s = true → ∀ wb ∈ s.low.head?, wb.userobject = true → wb.ptr = wb.buffer))
    ⟨fun ⟨hplain, hreserved, hwrites⟩ => ⟨hplain, hreserved, hwrites⟩,
      fun h => ⟨h.plain, h.reserved, h.writes⟩⟩

end SlotOp

theorem Represents.run {w : WriteLists} {s : Socket} {as : Priority → List ℕ}
    (h : Represents w s as) (op : SlotOp) : Simulates (op.run s) (op.runLists w s) := by
  cases op with
  | request r κ => exact h.request κ r
  | opening id purpose fresh κ => exact h.opening id fresh κ purpose
  | entry read write κ => exact h.dispatch read write κ
  | accept listener id fd => exact h.acceptSocket listener id fd

/-! ### The lists of a slot -/

/-- The types of a socket on which something can be queued. -/
def SocketType.Queues (t : SocketType) : Prop :=
  t = .connecting ∨ t = .connected ∨ t = .halfclose ∨ t = .bind

theorem not_queues_reserve : ¬SocketType.reserve.Queues := by
  rintro (ht | ht | ht | ht) <;> cases ht

theorem not_queues_invalid : ¬SocketType.invalid.Queues := by
  rintro (ht | ht | ht | ht) <;> cases ht

/-- The buffers that were freed, and those that are queued. -/
def Socket.buffers (s : Socket) : List Freed :=
  s.freed ++ (s.high ++ s.low).map WriteBuffer.free

/-- The nodes of plain buffers in the list of low priority are not sent in part. -/
def Socket.Whole (s : Socket) : Prop :=
  ∀ wb ∈ s.low, wb.userobject = false → wb.ptr = wb.buffer

/-- What holds of the lists of a slot, to which the buffers `given` were handed. -/
structure Balanced (s : Socket) (given : List Freed) : Prop where
  idle : ¬s.type.Queues → s.Empty
  wbSize : s.type ≠ .invalid → s.type ≠ .reserve →
    s.wbSize = Socket.bytesOf s.high + Socket.bytesOf s.low
  whole : s.Whole
  buffers : s.buffers.Perm given

/-- What a function does to the lists that leaves the type: it sends something, or nothing. -/
structure Moves (s s' : Socket) : Prop where
  sent : Sent s s'
  wbSize : s'.wbSize - (Socket.bytesOf s'.high + Socket.bytesOf s'.low) =
    s.wbSize - (Socket.bytesOf s.high + Socket.bytesOf s.low)
  buffers : s'.buffers.Perm s.buffers

/-- The loops free the nodes that they do not leave, and only the first one that is left may be
cut. -/
theorem drain_spec (protocol : Protocol) (list : List WriteBuffer) (results : List WriteResult) :
    (drain protocol list results).freed ++
        (drain protocol list results).rest.map WriteBuffer.free = list.map WriteBuffer.free ∧
      ∀ wb ∈ (drain protocol list results).rest.tail, wb ∈ list := by
  by_cases htcp : protocol = .tcp
  · subst htcp
    obtain ⟨-, hfreed, htail, -⟩ := @drainTcp_spec list results
    exact ⟨hfreed, htail⟩
  rw [drain_of_udp htcp]
  induction list generalizing results with
  | nil => exact ⟨rfl, nofun⟩
  | cons tmp list ih =>
    have hstops : ∀ wb ∈ (tmp :: list).tail, wb ∈ tmp :: list := fun wb hwb =>
      mem_cons_of_mem tmp hwb
    rcases results with _ | ⟨result, results⟩
    · exact ⟨rfl, hstops⟩
    · cases result with
      | wrote n =>
        obtain ⟨hfreed, htail⟩ := ih results
        exact ⟨congrArg (tmp.free :: ·) hfreed, fun wb hwb =>
          mem_cons_of_mem tmp (htail wb hwb)⟩
      | eagain | eintr | error => exact ⟨rfl, hstops⟩

namespace Moves

variable {s s' s'' : Socket}

theorem refl (s : Socket) : Moves s s :=
  ⟨.refl s, rfl, .refl _⟩

theorem trans (h : Moves s s') (h' : Moves s' s'') : Moves s s'' where
  sent := h.sent.trans h'.sent
  wbSize := h'.wbSize.trans h.wbSize
  buffers := h'.buffers.trans h.buffers

theorem sendList (s : Socket) (pr : Priority) (results : List WriteResult) :
    Moves s (s.sendList pr (drain s.protocol (s.list pr) results)) := by
  obtain ⟨hfreed, -⟩ := drain_spec s.protocol (s.list pr) results
  refine ⟨sendList_sent pr, ?_, ?_⟩
  · obtain ⟨hself, hother, hsize, -⟩ := s.sendList_spec pr (drain s.protocol (s.list pr) results)
    rw [hsize]
    cases pr with
    | high =>
      have hlow := hother .low (by simp)
      simp only [Socket.list] at hself hlow ⊢
      rw [hself, hlow]
      omega
    | low =>
      have hhigh := hother .high (by simp)
      simp only [Socket.list] at hself hhigh ⊢
      rw [hself, hhigh]
      omega
  · generalize drain s.protocol (s.list pr) results = d at hfreed ⊢
    cases pr with
    | high =>
      change ((s.freed ++ d.freed) ++ (d.rest ++ s.low).map WriteBuffer.free).Perm
        (s.freed ++ (s.high ++ s.low).map WriteBuffer.free)
      have hfreed : d.freed ++ d.rest.map WriteBuffer.free = s.high.map WriteBuffer.free := hfreed
      rw [map_append, map_append, ← hfreed]
      simp only [append_assoc]
      exact .refl _
    | low =>
      change ((s.freed ++ d.freed) ++ (s.high ++ d.rest).map WriteBuffer.free).Perm
        (s.freed ++ (s.high ++ s.low).map WriteBuffer.free)
      have hfreed : d.freed ++ d.rest.map WriteBuffer.free = s.low.map WriteBuffer.free := hfreed
      rw [map_append, map_append, ← hfreed]
      simp only [append_assoc]
      refine .append_left _ ?_
      simp only [← append_assoc]
      exact .append_right _ perm_append_comm

theorem raiseUncomplete (h : s.raiseUncomplete = .ok s') : Moves s s' := by
  have hsent := raiseUncomplete_sent h
  rw [Socket.raiseUncomplete] at h
  split at h
  · cases h
    exact .refl s
  · next tmp low hlow =>
    split_ifs at h with hhigh
    cases h
    have hhigh : s.high = [] := not_not.mp hhigh
    refine ⟨hsent, ?_, ?_⟩
    · simp [Socket.bytesOf, hlow, hhigh]
    · simp [Socket.buffers, hlow, hhigh]

end Moves

/-! ### Sending -/

namespace Balanced

variable {s s' : Socket} {given : List Freed} {out : Outcome} {results : List WriteResult}

theorem moves (h : Balanced s given) (hm : Moves s s') (hwhole : s'.Whole) : Balanced s' given where
  idle hidle := hm.sent.empty (h.idle (hm.sent.type ▸ hidle))
  wbSize hinvalid hreserve := by
    have hsize := h.wbSize (hm.sent.type ▸ hinvalid) (hm.sent.type ▸ hreserve)
    have hsame := hm.wbSize
    omega
  whole := hwhole
  buffers := hm.buffers.trans h.buffers

/-- Fields that have nothing to do with the lists. -/
theorem congr (h : Balanced s given) (htype : s'.type = s.type) (hhigh : s'.high = s.high)
    (hlow : s'.low = s.low) (hsize : s'.wbSize = s.wbSize) (hfreed : s'.freed = s.freed) :
    Balanced s' given where
  idle hidle := by
    rw [Socket.Empty, hhigh, hlow]
    exact h.idle (htype ▸ hidle)
  wbSize := by
    rw [htype, hhigh, hlow, hsize]
    exact h.wbSize
  whole := by
    rw [Socket.Whole, hlow]
    exact h.whole
  buffers := by
    rw [Socket.buffers, hhigh, hlow, hfreed]
    exact h.buffers

theorem of_empty (hempty : s.Empty) (hsize : s.type ≠ .invalid → s.type ≠ .reserve → s.wbSize = 0)
    (hfreed : s.freed.Perm given) : Balanced s given where
  idle _ := hempty
  wbSize hinvalid hreserve := by
    rw [hempty.1, hempty.2, hsize hinvalid hreserve]
    rfl
  whole := by
    rw [Socket.Whole, hempty.2]
    exact nofun
  buffers := by
    rw [Socket.buffers, hempty.1, hempty.2]
    exact (append_nil s.freed).symm ▸ hfreed

theorem freed_perm (h : Balanced s given) (hempty : s.Empty) : s.freed.Perm given := by
  have hbuffers := h.buffers
  rw [Socket.buffers, hempty.1, hempty.2] at hbuffers
  exact (append_nil s.freed) ▸ hbuffers

variable {type : ReportType}

theorem forceClose (hbuffers : s.buffers.Perm given) (hlive : s.type ≠ .invalid)
    (h : s.forceClose type = .ok out) : Balanced out.socket given := by
  rw [Socket.forceClose] at h
  split at h
  · exact absurd ‹_› hlive
  · cases h
  · cases h
    refine .of_empty ⟨rfl, rfl⟩ (fun hinvalid => absurd rfl hinvalid) ?_
    rw [Socket.buffers, map_append, ← append_assoc] at hbuffers
    exact hbuffers

theorem closed (h : Balanced s given) (hok : s.forceClose type = .ok out) :
    Balanced out.socket given ∧ out.socket.Empty := by
  by_cases hinvalid : s.type = .invalid
  · have hempty : s.Empty := h.idle (hinvalid ▸ not_queues_invalid)
    rw [Socket.forceClose, hinvalid] at hok
    cases hok
    exact ⟨h, hempty⟩
  · exact ⟨forceClose h.buffers hinvalid hok, (forceClose_closes hinvalid hok).empty⟩

variable {protocol : Protocol}

/-- What `send_buffer` leaves of a list that is not cut. -/
theorem whole_drain {list : List WriteBuffer}
    (hwhole : ∀ wb ∈ list, wb.userobject = false → wb.ptr = wb.buffer)
    (hcut : listUncomplete (drain protocol list results).rest = false) :
    ∀ wb ∈ (drain protocol list results).rest, wb.userobject = false → wb.ptr = wb.buffer := by
  obtain ⟨-, htail⟩ := drain_spec protocol list results
  generalize (drain protocol list results).rest = rest at hcut htail ⊢
  rcases rest with _ | ⟨head, rest⟩
  · nofun
  · intro wb hwb huser
    rcases mem_cons.mp hwb with rfl | hwb
    · simpa [listUncomplete] using hcut
    · exact hwhole wb (htail wb hwb) huser

/-- The steps of `send_buffer` behind an empty list of high priority. -/
theorem sendBufferLow (h : Balanced s given) (hlive : s.type ≠ .invalid)
    (hok : s.sendBufferLow results = .ok out) : Balanced out.socket given := by
  have hm := Moves.sendList s .low results
  rw [Socket.sendBufferLow] at hok
  dsimp only at hok
  split_ifs at hok with hlow hfailed hcut hhalf
  · exact forceClose (hm.buffers.trans h.buffers) hlive hok
  · split at hok
    · next s' hraise =>
      cases hok
      refine h.moves (hm.trans (.raiseUncomplete hraise)) ?_
      -- the nodes behind the first one were not touched
      obtain ⟨-, htail⟩ := drain_spec s.protocol s.low results
      change ∀ wb ∈ s'.low, wb.userobject = false → wb.ptr = wb.buffer
      rw [Socket.raiseUncomplete] at hraise
      split at hraise
      · next hnil =>
        cases hraise
        intro wb hwb
        rw [hnil] at hwb
        cases hwb
      · next tmp low hrest =>
        split_ifs at hraise
        cases hraise
        have hrest : (drain s.protocol s.low results).rest = tmp :: low := hrest
        rw [hrest] at htail
        exact fun wb hwb => h.whole wb (htail wb hwb)
    · cases hok
  · cases hok
    exact h.moves hm (whole_drain h.whole (Bool.eq_false_iff.mpr hcut))
  · exact forceClose (s := { s with writing := false }) h.buffers hlive hok
  · cases hok
    exact h.congr rfl rfl rfl rfl rfl

theorem sendBuffer (h : Balanced s given) (hlive : s.type ≠ .invalid)
    (hok : s.sendBuffer results = .ok out) : Balanced out.socket given := by
  have hm := Moves.sendList s .high results
  rw [Socket.sendBuffer] at hok
  dsimp only at hok
  split_ifs at hok with hcut hfailed hhigh
  · exact forceClose (hm.buffers.trans h.buffers) hlive hok
  · exact sendBufferLow (h.moves hm h.whole) hlive hok
  · cases hok
    exact h.moves hm h.whole

theorem drop (h : Balanced s given) (so : SendObject) :
    Balanced (s.drop so) (given ++ [so.free]) where
  idle := h.idle
  wbSize := h.wbSize
  whole := h.whole
  buffers := by
    change ((s.freed ++ [so.free]) ++ (s.high ++ s.low).map WriteBuffer.free).Perm _
    rw [append_assoc]
    refine (List.Perm.append_left _ perm_append_comm).trans ?_
    rw [← append_assoc]
    exact h.buffers.append_right _

theorem append (h : Balanced s given) (hqueues : s.type.Queues) (so : SendObject) (n : ℕ)
    (pr : Priority) (address : List UInt8)
    (hplain : pr = .low → so.userobject = false → so.buffer + n = so.object) :
    Balanced (s.append pr (so.node n address)) (given ++ [so.free]) := by
  have hlive : s.type ≠ .invalid ∧ s.type ≠ .reserve := by
    rcases hqueues with ht | ht | ht | ht
    all_goals
      rw [ht]
      exact ⟨nofun, nofun⟩
  have hsize := h.wbSize hlive.1 hlive.2
  cases pr with
  | high =>
    refine ⟨fun hidle => absurd hqueues hidle, fun _ _ => ?_, h.whole, ?_⟩
    · change s.wbSize + _ = (Socket.bytesOf (s.high ++ [_]) : ℤ) + Socket.bytesOf s.low
      rw [hsize]
      simp only [Socket.bytesOf, map_append, sum_append, map_cons, map_nil,
        sum_singleton]
      omega
    · change (s.freed ++ ((s.high ++ [_]) ++ s.low).map WriteBuffer.free).Perm _
      refine .trans ?_ (h.buffers.append_right _)
      rw [Socket.buffers, append_assoc, append_assoc, map_append, map_append,
        map_append, append_assoc]
      refine .append_left _ (.append_left _ ?_)
      exact perm_append_comm
  | low =>
    refine ⟨fun hidle => absurd hqueues hidle, fun _ _ => ?_, fun wb hwb huser => ?_, ?_⟩
    · change s.wbSize + _ = (Socket.bytesOf s.high : ℤ) + Socket.bytesOf (s.low ++ [_])
      rw [hsize]
      simp only [Socket.bytesOf, map_append, sum_append, map_cons, map_nil,
        sum_singleton]
      omega
    · rcases mem_append.mp hwb with hwb | hwb
      · exact h.whole wb hwb huser
      · obtain rfl := mem_singleton.mp hwb
        exact hplain rfl huser
    · change (s.freed ++ (s.high ++ (s.low ++ [_])).map WriteBuffer.free).Perm _
      rw [← append_assoc, map_append, ← append_assoc]
      exact h.buffers.append_right _

theorem writeTcp (h : Balanced s given) (hqueues : s.type.Queues) (so : SendObject) (n : ℕ) :
    Balanced (s.writeTcp so n) (given ++ [so.free]) := by
  rw [Socket.writeTcp]
  dsimp only
  split_ifs
  · exact (h.drop so).congr rfl rfl rfl rfl rfl
  · exact (h.append hqueues so n .high [] (by simp)).congr rfl rfl rfl rfl rfl

variable {so : SendObject}

theorem writeUdp (h : Balanced s given) (hqueues : s.type.Queues)
    (hplain : so.userobject = false → so.buffer = so.object) (pr : Priority) (address : List UInt8)
    (result : Option ℕ) : Balanced (s.writeUdp so pr address result) (given ++ [so.free]) := by
  rw [Socket.writeUdp.eq_def]
  dsimp only
  have happend := h.append hqueues so 0 pr address fun _ => hplain
  split_ifs
  · exact (h.drop so).congr rfl rfl rfl rfl rfl
  · cases pr <;> exact happend.congr rfl rfl rfl rfl rfl

variable {id : Int32}

theorem sendSocket (h : Balanced s given) {pr : Priority} {address : Option (List UInt8)}
    (hplain : so.userobject = false → so.buffer = so.object)
    (hreserved : ¬(s.type = .reserve ∧ s.id = id))
    (hok : s.sendSocket id so pr address results = .ok out) :
    Balanced out.socket (given ++ [so.free]) := by
  rw [Socket.sendSocket.eq_def] at hok
  split_ifs at hok with hdead hlisten hdirect
  · cases hok
    exact h.drop so
  · cases hok
    exact h.drop so
  all_goals
    have hid : s.id = id := by
      by_contra hne
      exact hdead (Or.inr (Or.inl hne))
    have hqueues : s.type.Queues := by
      cases hs : s.type <;> simp [hs, SocketType.Queues, hid] at hdead hlisten hreserved ⊢
  · have hlive : s.type ≠ .invalid := fun hinvalid => hdead (Or.inl hinvalid)
    split at hok
    · split at hok
      · next hclose =>
        cases hok
        exact (forceClose h.buffers hlive hclose).drop so
      · cases hok
    · cases hok
      exact h.writeTcp hqueues so _
    · cases hok
      exact h.writeTcp hqueues so 0
    · cases hok
      exact h.writeUdp hqueues hplain pr _ (some _)
    · cases hok
      exact h.writeUdp hqueues hplain pr _ none
  · split at hok
    all_goals
      cases hok
      exact h.append hqueues so 0 pr _ fun _ => hplain

/-! ### The other functions -/

/-- The type is written, and nothing is queued or something can be. -/
theorem retype (h : Balanced s given) (type : SocketType) (hlive : s.type ≠ .invalid)
    (hreserve : s.type ≠ .reserve) (htype : s.Empty ∨ type.Queues) :
    Balanced { s with type } given where
  idle hidle := htype.resolve_right hidle
  wbSize _ _ := h.wbSize hlive hreserve
  whole := h.whole
  buffers := h.buffers

variable {opaqueId : ℕ}

theorem closeSocket (h : Balanced s given) (hok : s.closeSocket id opaqueId results = .ok out) :
    Balanced out.socket given := by
  rw [Socket.closeSocket] at hok
  by_cases hdead : s.type = .invalid ∨ s.id ≠ id
  · rw [if_pos hdead] at hok
    cases hok
    exact h
  have hlive : s.type ≠ .invalid := fun hinvalid => hdead (Or.inl hinvalid)
  rw [if_neg hdead] at hok
  split at hok
  · cases hok
  · next out' hsend =>
    have hout' : Balanced out'.socket given := by
      split_ifs at hsend
      · cases hsend
        exact h
      · exact h.sendBuffer hlive hsend
    split_ifs at hok with hreport hempty
    · cases hok
      exact hout'
    all_goals
      have htype := Represents.closeSend_type _ _ _ hsend (Bool.eq_false_iff.mpr hreport)
    · split at hok
      · next closed hclose =>
        have hclosed : Balanced closed.socket given :=
          forceClose hout'.buffers (htype.symm ▸ hlive) hclose
        cases hok
        exact hclosed
      · cases hok
    · cases hok
      have hqueued : ¬out'.socket.Empty := fun he => hempty (Socket.sendBufferEmpty_iff.mpr he)
      refine hout'.retype .halfclose (htype.symm ▸ hlive) (fun hreserve => ?_)
        (Or.inr (Or.inr (Or.inr (Or.inl rfl))))
      exact hqueued (hout'.idle (hreserve ▸ not_queues_reserve))

theorem startSocket (h : Balanced s given) (id : Int32) (opaqueId : ℕ) (add : Bool) :
    Balanced (s.startSocket id opaqueId add).socket given := by
  rw [Socket.startSocket]
  by_cases hdead : s.type = .invalid ∨ s.id ≠ id
  · rw [if_pos hdead]
    exact h
  rw [if_neg hdead]
  by_cases hpending : s.type = .paccept ∨ s.type = .plisten
  · rw [if_pos hpending]
    have hlive : s.type ≠ .invalid := fun hinvalid => hdead (Or.inl hinvalid)
    have hempty : s.Empty := h.idle (by
      rcases hpending with ht | ht <;> rw [ht, SocketType.Queues] <;> simp)
    have hreserve : s.type ≠ .reserve := by
      rcases hpending with ht | ht <;> rw [ht] <;> simp
    have hretype (type : SocketType) : Balanced { s with type } given :=
      h.retype type hlive hreserve (Or.inl hempty)
    split_ifs
    all_goals exact (hretype _).congr rfl rfl rfl rfl rfl
  · rw [if_neg hpending]
    split_ifs
    all_goals exact h.congr rfl rfl rfl rfl rfl

variable {κ : Kernel}

/-- **A request.** -/
theorem request (h : Balanced s given) {r : Request}
    (hplain : ∀ so, r.object = some so → so.userobject = false → so.buffer = so.object)
    (hreserved : ∀ so, r.object = some so → ¬(s.type = .reserve ∧ s.id = r.id))
    (hok : r.run s κ = .ok out) :
    Balanced out.socket (given ++ (r.object.map SendObject.free).toList) := by
  have hnone {s' : Socket} (h' : Balanced s' given) : Balanced s' (given ++ []) :=
    (append_nil given).symm ▸ h'
  cases r with
  | send id so pr => exact h.sendSocket (hplain so rfl) (hreserved so rfl) hok
  | sendUdp id so address => exact h.sendSocket (hplain so rfl) (hreserved so rfl) hok
  | close id opaqueId => exact hnone (h.closeSocket hok)
  | start id opaqueId =>
    cases hok
    exact hnone (h.startSocket id opaqueId κ.add)
  | exit | setopt =>
    cases hok
    exact hnone h
  | setUdp id address =>
    cases hok
    refine hnone ?_
    rw [Socket.setUdpAddress]
    split_ifs
    all_goals exact h.congr rfl rfl rfl rfl rfl

variable {add : Option Bool}

/-- What the callers of `new_fd` do with its result. -/
theorem newFd (h : Balanced s given) {fd : Fd} {bad good : Socket → Outcome}
    (hbad : ∀ s', (∀ pr, (bad s').socket.list pr = s'.list pr) ∧
      (bad s').socket.wbSize = s'.wbSize ∧ (bad s').socket.freed = s'.freed)
    (hbadtype : ∀ s' : Socket, s'.type = .invalid → (bad s').socket.type = .invalid)
    (hgood : ∀ s', (∀ pr, (good s').socket.list pr = s'.list pr) ∧
      (good s').socket.wbSize = s'.wbSize ∧ (good s').socket.freed = s'.freed)
    (hok : (match s.newFd id fd protocol opaqueId add with
      | .ok (false, s) => (.ok (bad s) : Except Fault Outcome)
      | .ok (true, s) => .ok (good s)
      | .error e => .error e) = .ok out) : Balanced out.socket given := by
  rw [Socket.newFd] at hok
  split_ifs at hok with hreserve hadd hqueued
  all_goals
    cases hok
    have hempty : s.Empty := h.idle (not_not.mp hreserve ▸ not_queues_reserve)
  · obtain ⟨hlist, -, hfreed⟩ := hbad { s with type := .invalid }
    refine .of_empty ⟨(hlist .high).trans hempty.1, (hlist .low).trans hempty.2⟩
      (fun hinvalid => absurd (hbadtype _ rfl) hinvalid) ?_
    rw [hfreed]
    exact h.freed_perm hempty
  · obtain ⟨hlist, hsize, hfreed⟩ := hgood { s with
      id
      fd := some fd
      protocol
      p := .size minReadBuffer
      opaqueId
      wbSize := 0
      registered := add.isSome
      writing := false
      stream := []
      datagrams := [] }
    refine .of_empty ⟨(hlist .high).trans hempty.1, (hlist .low).trans hempty.2⟩
      (fun _ _ => hsize) ?_
    rw [hfreed]
    exact h.freed_perm hempty

/-- **An opening** of a slot that is reserved for it. -/
theorem opening (h : Balanced s given) (hreserve : s.type = .reserve) {fresh : ℕ}
    {purpose : Purpose} (hok : purpose.run s id fresh κ = .ok out) : Balanced out.socket given := by
  cases purpose with
  | connect opaqueId =>
    rw [Purpose.run, Socket.openSocket.eq_def] at hok
    split at hok
    · cases hok
      have hempty : s.Empty := h.idle (hreserve ▸ not_queues_reserve)
      exact .of_empty hempty (fun hinvalid => absurd rfl hinvalid) (h.freed_perm hempty)
    · exact h.newFd (Represents.typed _) (fun _ _ => rfl) (Represents.typed _) hok
    · exact h.newFd (Represents.typed _) (fun _ _ => rfl)
        (fun s' => ⟨fun pr => by cases pr <;> rfl, rfl, rfl⟩) hok
  | listen opaqueId fd =>
    exact h.newFd (Represents.typed _) (fun _ _ => rfl) (Represents.typed _) hok
  | bind opaqueId fd =>
    exact h.newFd (fun s' => ⟨fun _ => rfl, rfl, rfl⟩) (fun _ ht => ht) (Represents.typed _) hok
  | udp opaqueId fd v6 =>
    exact h.newFd (Represents.typed _) (fun _ _ => rfl)
      (fun s' => ⟨fun pr => by cases pr <;> rfl, rfl, rfl⟩) hok

/-- **The acceptance of a connection.** -/
theorem acceptSocket (h : Balanced s given) {listener : Socket} {fd : ℕ}
    (hok : Server.acceptSocket s listener id fd = .ok out) : Balanced out.socket given :=
  h.newFd (fun _ => ⟨fun _ => rfl, rfl, rfl⟩) (fun _ ht => ht) (Represents.typed _) hok

/-- **An entry of the poller.** -/
theorem dispatch (h : Balanced s given) {read write : Bool}
    (hok : s.dispatch read write κ = .ok out) : Balanced out.socket given := by
  rw [Socket.dispatch.eq_def] at hok
  split at hok
  · next htype =>
    have hlive : s.type ≠ .invalid := by rw [htype]; simp
    have hreserve : s.type ≠ .reserve := by rw [htype]; simp
    rw [Socket.reportConnect] at hok
    split_ifs at hok
    · dsimp only at hok
      have hconnected := h.retype .connected hlive hreserve (Or.inr (Or.inr (Or.inl rfl)))
      split_ifs at hok
      all_goals
        cases hok
        exact hconnected.congr rfl rfl rfl rfl rfl
    · exact forceClose h.buffers hlive hok
  · cases hok
    exact h
  · cases hok
    exact h
  · next hconnecting hlisten hlive =>
    split_ifs at hok
    · split at hok
      · rw [Socket.forwardMessageTcp.eq_def] at hok
        split at hok
        · cases hok
          exact h
        · cases hok
          exact h
        · exact forceClose h.buffers hlive hok
        · exact forceClose h.buffers hlive hok
        · split_ifs at hok
          all_goals
            cases hok
            exact h.congr rfl rfl rfl rfl rfl
      · rw [Socket.forwardMessageUdp.eq_def] at hok
        split at hok
        · cases hok
          exact h
        · cases hok
          exact h
        · exact forceClose h.buffers hlive hok
        · split_ifs at hok
          all_goals
            cases hok
            exact h
    · exact h.sendBuffer hlive hok
    · cases hok
      exact h

variable {op : SlotOp}

/-- **One call keeps the lists.** -/
theorem run (h : Balanced s given) (hop : op.Permits s) (hreserve : op.Opens → s.type = .reserve)
    (hok : op.run s = .ok out) : Balanced out.socket (given ++ op.given) := by
  have hnone (h' : Balanced out.socket given) : Balanced out.socket (given ++ []) :=
    (append_nil given).symm ▸ h'
  cases op with
  | request r κ =>
    have hsend (so : SendObject) (hso : r.object = some so) :
        (r.id, so) ∈ (SlotOp.request r κ).send? := by
      rw [SlotOp.send?, hso]
      rfl
    exact h.request (fun so hso => hop.plain _ (hsend so hso))
      (fun so hso => hop.reserved _ (hsend so hso)) hok
  | opening id purpose fresh κ => exact hnone (h.opening (hreserve trivial) hok)
  | entry read write κ => exact hnone (h.dispatch hok)
  | accept listener id fd => exact hnone (h.acceptSocket hok)

/-! ### Assertions -/

variable {e : Fault}

theorem sendBuffer_error {e : Fault} (hcut : listUncomplete s.low = false)
    (h : s.sendBuffer results = .error e) : e = .closeReserve := by
  rw [Socket.sendBuffer, if_neg (Bool.eq_false_iff.mp hcut)] at h
  dsimp only at h
  split_ifs at h with hfailed hhigh
  · exact (forceClose_fault h).1
  · rw [Socket.sendBufferLow] at h
    dsimp only at h
    split_ifs at h
    · exact (forceClose_fault h).1
    · split at h
      · cases h
      · next hraise =>
        obtain ⟨s', hs', -⟩ := raiseUncomplete_of_nil
          (s := (s.sendList .high (drain s.protocol s.high results)).sendList .low _) hhigh
        rw [hs'] at hraise
        cases hraise
    · exact (forceClose_fault h).1

/-- The list of low priority begins with a node that is not sent in part. -/
theorem listUncomplete_low (h : Balanced s given)
    (huser : ∀ wb ∈ s.low.head?, wb.userobject = true → wb.ptr = wb.buffer) :
    listUncomplete s.low = false := by
  rcases hlow : s.low with _ | ⟨wb, low⟩
  · rfl
  · have hptr : wb.ptr = wb.buffer := by
      cases hwb : wb.userobject with
      | true => exact huser wb (by rw [hlow]; rfl) hwb
      | false => exact h.whole wb (hlow ▸ mem_cons_self) hwb
    simp [listUncomplete, hptr]

theorem closeSocket_error
    (hcut : s.type ≠ .invalid → s.id = id → ¬s.Empty → listUncomplete s.low = false)
    (hok : s.closeSocket id opaqueId results = .error e) : e = .closeReserve := by
  rw [Socket.closeSocket] at hok
  by_cases hdead : s.type = .invalid ∨ s.id ≠ id
  · rw [if_pos hdead] at hok
    cases hok
  rw [if_neg hdead] at hok
  obtain ⟨hlive, hid⟩ : s.type ≠ .invalid ∧ s.id = id := by
    rw [not_or, not_not] at hdead
    exact hdead
  split at hok
  · next hsend =>
    cases hok
    split_ifs at hsend with hempty
    have hqueued : ¬s.Empty := fun he => hempty (Socket.sendBufferEmpty_iff.mpr he)
    exact sendBuffer_error (hcut hlive hid hqueued) hsend
  · split_ifs at hok
    split at hok
    · cases hok
    · next hclose =>
      cases hok
      exact (forceClose_fault hclose).1

theorem dispatch_error {read write : Bool}
    (hcut : (SlotOp.entry read write κ).writes s = true → listUncomplete s.low = false)
    (hok : s.dispatch read write κ = .error e) : e = .closeReserve := by
  rw [Socket.dispatch.eq_def] at hok
  split at hok
  · rw [Socket.reportConnect] at hok
    split_ifs at hok
    exact (forceClose_fault hok).1
  · cases hok
  · cases hok
  · next hconnecting hlisten hlive =>
    split_ifs at hok with hread hwrite
    · split at hok
      · rw [Socket.forwardMessageTcp.eq_def] at hok
        split at hok
        · cases hok
        · cases hok
        · exact (forceClose_fault hok).1
        · exact (forceClose_fault hok).1
        · split_ifs at hok
      · rw [Socket.forwardMessageUdp.eq_def] at hok
        split at hok
        · cases hok
        · cases hok
        · exact (forceClose_fault hok).1
        · split_ifs at hok
    · have hwrites : (SlotOp.entry read write κ).writes s = true := by
        rw [Bool.eq_false_iff.mpr hread, hwrite]
        exact decide_eq_true ⟨hconnecting, hlisten, hlive⟩
      exact sendBuffer_error (hcut hwrites) hok

theorem newFd_runs (h : Balanced s given) (hreserve : s.type = .reserve) {fd : Fd}
    {bad good : Socket → Outcome} :
    ∃ out, (match s.newFd id fd protocol opaqueId add with
      | .ok (false, s) => (.ok (bad s) : Except Fault Outcome)
      | .ok (true, s) => .ok (good s)
      | .error e => .error e) = .ok out := by
  obtain ⟨hhigh, hlow⟩ : s.Empty := h.idle (hreserve ▸ not_queues_reserve)
  rw [Socket.newFd, if_neg (not_not.mpr hreserve)]
  by_cases hadd : add = some false
  · rw [if_pos hadd]
    exact ⟨_, rfl⟩
  · rw [if_neg hadd, if_neg (by simp [hhigh, hlow])]
    exact ⟨_, rfl⟩

theorem opening_runs (h : Balanced s given) (hreserve : s.type = .reserve) (id : Int32)
    (fresh : ℕ) (κ : Kernel) (purpose : Purpose) : ∃ out, purpose.run s id fresh κ = .ok out := by
  cases purpose with
  | connect opaqueId =>
    rw [Purpose.run, Socket.openSocket.eq_def]
    split
    · exact ⟨_, rfl⟩
    · exact h.newFd_runs hreserve
    · exact h.newFd_runs hreserve
  | listen opaqueId fd => exact h.newFd_runs hreserve
  | bind opaqueId fd => exact h.newFd_runs hreserve
  | udp opaqueId fd v6 => exact h.newFd_runs hreserve

/-- **One call fails only where it closes a slot that is reserved.** -/
theorem run_error (h : Balanced s given) (hop : op.Permits s)
    (hreserve : op.Opens → s.type = .reserve) (herror : op.run s = .error e) :
    e = .closeReserve := by
  have hcut (hwrites : op.writes s = true) := h.listUncomplete_low (hop.writes hwrites)
  cases op with
  | request r κ =>
    cases r with
    | close id opaqueId =>
      refine closeSocket_error (fun hlive hid hqueued => hcut (decide_eq_true ?_)) herror
      exact ⟨hlive, hid, Bool.eq_false_iff.mpr (mt Socket.sendBufferEmpty_iff.mp hqueued)⟩
    | send id so pr => exact (sendSocket_fault herror).elim
    | sendUdp id so address => exact (sendSocket_fault herror).elim
    | start | exit | setUdp | setopt => cases herror
  | opening id purpose fresh κ =>
    obtain ⟨out, hout⟩ := h.opening_runs (hreserve trivial) id fresh κ purpose
    cases hout.symm.trans herror
  | entry read write κ => exact dispatch_error hcut herror
  | accept listener id fd =>
    obtain ⟨out, hout⟩ : ∃ out, (SlotOp.accept listener id fd).run s = .ok out :=
      h.newFd_runs (hreserve trivial)
    cases hout.symm.trans herror

end Balanced

end Mtask.SocketServer
