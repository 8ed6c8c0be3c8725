import Mtask.SocketServer.Reserved
import Mtask.SocketServer.Reuse
import Mtask.SocketServer.WriteInterest

/-!
# The ids of the socket server

`reserve_id` takes a slot before it writes the new id to it. Until then the slot has the id of its
last socket, or whatever was in the memory that `socket_server_create` did not clear, and a request
that carries this id is executed on the new socket. Apart from this, and from ids that are given
out once more after the counter has wrapped, a request meets the socket that it is meant for.
-/

namespace Mtask.SocketServer

open Ownership List
open Function (update update_of_ne update_self)

/-! ### One slot -/

variable {r : Request} {e : Fault}

section Slots

variable {i j : Slot} {s s' : Socket} {out : Outcome} {κ : Kernel}

/-- The id of the slot is one that `reserve_id` gives to it. -/
def Named (i : Slot) (s : Socket) : Prop :=
  0 ≤ s.id ∧ hashId s.id = i

/-- What holds of every slot. -/
structure Tidy (i : Slot) (s : Socket) : Prop where
  named : s.type ≠ .invalid → s.type ≠ .reserve → Named i s
  nonneg : s.type ≠ .invalid → 0 ≤ s.id
  empty : ¬s.type.Sends → s.Empty

theorem Named.ne (h : Named i s) (h' : Named j s') (hij : i ≠ j) : s.id ≠ s'.id := by
  intro hid
  refine hij ?_
  rw [← h.2, ← h'.2, hid]

theorem not_sends (hs : s.type = .invalid ∨ s.type = .reserve) : ¬s.type.Sends := by
  rcases hs with hs | hs
  all_goals simp [SocketType.Sends, hs]

theorem Tidy.of_reserve (hs : s.type = .reserve) (hid : 0 ≤ s.id) (hempty : s.Empty) :
    Tidy i s where
  named _ hreserve := absurd hs hreserve
  nonneg _ := hid
  empty _ := hempty

theorem Tidy.effect {sends halfCloses failsToStart : Prop} (h : Tidy i s)
    (he : Effect s sends halfCloses failsToStart out) (hsends : ¬(s.type = .reserve ∧ sends))
    (hhalf : ¬(s.type = .reserve ∧ halfCloses)) : Tidy i out.socket where
  named hlive hreserve := by
    have hs : Named i s := by
      refine h.named (fun hdead => hlive (he.dead hdead)) fun hs => hreserve ?_
      exact (he.reserve_iff hhalf).mpr hs
    rw [Named, he.id]
    exact hs
  nonneg hlive := he.id.symm ▸ h.nonneg fun hdead => hlive (he.dead hdead)
  empty hout := by
    cases he with
    | sent hsent _ => exact hsent.empty (h.empty (hsent.type ▸ hout))
    | queued hs htype hsame _ =>
      have hnot : ¬s.type.Sends := hsame.1 ▸ hout
      rcases htype with ht | ht | ht | ht
      · exact absurd ⟨ht, hs⟩ hsends
      · exact absurd (Or.inl ht) hnot
      · exact absurd (Or.inr (Or.inl ht)) hnot
      · exact absurd (Or.inr (Or.inr (Or.inr ht))) hnot
    | started htype =>
      rcases htype with ⟨ht, rfl⟩ | ⟨ht, rfl⟩
      all_goals exact h.empty (by simp [SocketType.Sends, ht])
    | notStarted _ htype =>
      rcases htype with ht | ht
      all_goals exact h.empty (by simp [SocketType.Sends, ht])
    | connected _ _ => exact absurd (Or.inr (Or.inl rfl)) hout
    | halfClosed _ _ _ _ => exact absurd (Or.inr (Or.inr (Or.inl rfl))) hout
    | closed h => exact h.empty

/-- An opening leaves the id that the slot has been given. -/
theorem Opening.id {id : Int32} {own : Option ℕ} (h : Opening s id own out) (hid : s.id = id) :
    out.socket.id = id := by
  cases h with
  | failed => exact hid
  | opened _ _ hid' _ _ => exact hid'

theorem Tidy.opening {id : Int32} {own : Option ℕ} (h : Tidy (hashId id) s)
    (ho : Opening s id own out) (hs : s.type = .reserve) (hid : s.id = id) :
    Tidy (hashId id) out.socket where
  named _ _ := by
    rw [Named, ho.id hid, ← hid]
    exact ⟨h.nonneg (by rw [hs]; nofun), rfl⟩
  nonneg _ := by
    rw [ho.id hid, ← hid]
    exact h.nonneg (by rw [hs]; nofun)
  empty _ := by
    cases ho with
    | failed => exact h.empty (not_sends (Or.inr hs))
    | opened _ _ _ hempty _ => exact hempty.2

/-! ### Requests and entries on a reserved slot -/

/-- The request does something to a slot of `SOCKET_TYPE_RESERVE`. -/
def Request.Acts (s : Socket) : Request → Prop
  | .close id _ => s.id = id
  | .send id _ _ => s.id = id
  | .sendUdp id _ _ => s.id = id
  | .setUdp id address => s.id = id ∧ address.head? = some s.protocol.number
  | _ => False

theorem Request.SendsTo.acts (h : r.SendsTo s) : r.Acts s := by
  cases r with
  | send id so priority => exact h
  | sendUdp id so address => exact h
  | start | close | exit | setUdp | setopt => exact h.elim

theorem Request.HalfCloses.acts (h : r.HalfCloses s κ) : r.Acts s := by
  cases r with
  | close id opaqueId => exact h.1
  | send | sendUdp | start | exit | setUdp | setopt => exact h.elim

theorem sendSocket_dead {id : Int32} {so : SendObject} {pr : Priority}
    {address : Option (List UInt8)} {results : List WriteResult}
    (h : s.type = .invalid ∨ s.id ≠ id) :
    s.sendSocket id so pr address results = .ok (s.drop so).quiet := by
  unfold Socket.sendSocket
  exact if_pos (h.imp_right Or.inl)

/-- A request that does not act on the slot, or carries another id, leaves it. -/
theorem Request.unchanged (hrun : r.run s κ = .ok out)
    (h : r = .exit ∨ s.type = .invalid ∨ s.id ≠ r.id ∨ s.type = .reserve ∧ ¬r.Acts s) :
    ∃ freed, out.socket = { s with freed } ∧ out.closed = none := by
  have hdead {id : Int32} (hr : r ≠ .exit) (hid : r.id = id) (hacts : r.Acts s ↔ s.id = id) :
      s.type = .invalid ∨ s.id ≠ id := by
    rcases h with h | h | h | h
    · exact absurd h hr
    · exact Or.inl h
    · exact Or.inr (hid ▸ h)
    · exact Or.inr fun hs => h.2 (hacts.mpr hs)
  cases r with
  | exit =>
    cases hrun
    exact ⟨s.freed, rfl, rfl⟩
  | setopt id =>
    cases hrun
    exact ⟨s.freed, rfl, rfl⟩
  | close id opaqueId =>
    have hdrop : s.type = .invalid ∨ s.id ≠ id := hdead (by simp) rfl Iff.rfl
    rw [Request.run, Socket.closeSocket, if_pos hdrop] at hrun
    cases hrun
    exact ⟨s.freed, rfl, rfl⟩
  | send id so priority =>
    have hdrop : s.type = .invalid ∨ s.id ≠ id := hdead (by simp) rfl Iff.rfl
    rw [Request.run, sendSocket_dead hdrop] at hrun
    cases hrun
    exact ⟨_, rfl, rfl⟩
  | sendUdp id so address =>
    have hdrop : s.type = .invalid ∨ s.id ≠ id := hdead (by simp) rfl Iff.rfl
    rw [Request.run, sendSocket_dead hdrop] at hrun
    cases hrun
    exact ⟨_, rfl, rfl⟩
  | setUdp id address =>
    cases hrun
    rw [Socket.setUdpAddress]
    split_ifs with hlive haddress
    · exact ⟨s.freed, rfl, rfl⟩
    · exact ⟨s.freed, rfl, rfl⟩
    · obtain ⟨hlive, hid⟩ := not_or.mp hlive
      rcases h with h | h | h | h
      · cases h
      · exact absurd h hlive
      · exact absurd h hid
      · exact absurd ⟨not_not.mp hid, not_not.mp haddress⟩ h.2
  | start id opaqueId =>
    cases hrun
    rw [Socket.startSocket]
    split_ifs with hlive hpending hadd hpaccept hconnected
    · exact ⟨s.freed, rfl, rfl⟩
    all_goals
      obtain ⟨hlive, hid⟩ := not_or.mp hlive
      have hs : s.type = .reserve := by
        rcases h with h | h | h | h
        · cases h
        · exact absurd h hlive
        · exact absurd h hid
        · exact h.1
    · exact absurd (hs.symm.trans hpaccept) (by simp)
    · exact absurd hpending (by simp [hs])
    · exact absurd hpending (by simp [hs])
    · exact absurd (hs.symm.trans hconnected) (by simp)
    · exact ⟨s.freed, rfl, rfl⟩

/-- The assertion of `force_close` fails only for a request that acts on the slot. -/
theorem Request.closeReserve (h : r.run s κ = .error .closeReserve) :
    s.type = .reserve ∧ r.Acts s := by
  obtain ⟨hid, hfault⟩ := Request.fault h
  have hreserve : s.type = .reserve := by
    rcases hfault with he | he | he
    · cases he
    · cases he
    · exact he.2
  cases r with
  | close id opaqueId => exact ⟨hreserve, hid⟩
  | send id so priority => exact (sendSocket_fault h).elim
  | sendUdp id so address => exact (sendSocket_fault h).elim
  | start id opaqueId => cases h
  | exit => cases h
  | setUdp id address => cases h
  | setopt id => cases h

/-- `read` or `recvfrom` answers with an error, or with the end of the stream. -/
def Socket.ReadFails (s : Socket) (κ : Kernel) : Prop :=
  match s.protocol with
  | .tcp => κ.read = .error ∨ κ.read = .got 0
  | _ => κ.recv = .error

/-- An assertion fails for an entry of a reserved slot only if it is read from, which fails. -/
theorem dispatch_reserve {read write : Bool} (hs : s.type = .reserve) (hempty : s.Empty)
    (h : s.dispatch read write κ = .error e) : read = true ∧ s.ReadFails κ := by
  obtain ⟨hhigh, hlow⟩ := hempty
  have hdrain : (drain s.protocol [] κ.writes).failed = false := by
    cases s.protocol <;> simp [drain, drainTcp, drainUdp]
  simp only [Socket.dispatch, hs] at h
  split_ifs at h with hread hwrite
  · refine ⟨hread, ?_⟩
    have htcp (hfault : s.forwardMessageTcp κ.read = .error e) :
        κ.read = .error ∨ κ.read = .got 0 := by
      unfold Socket.forwardMessageTcp at hfault
      split at hfault
      · cases hfault
      · cases hfault
      · exact Or.inl ‹_›
      · exact Or.inr ‹_›
      · split_ifs at hfault
    have hudp (hfault : s.forwardMessageUdp κ.recv = .error e) : κ.recv = .error := by
      unfold Socket.forwardMessageUdp at hfault
      split at hfault
      · cases hfault
      · cases hfault
      · assumption
      · split_ifs at hfault
    rw [Socket.ReadFails]
    cases hprotocol : s.protocol with
    | tcp =>
      rw [hprotocol] at h
      exact htcp h
    | udp | udpv6 =>
      rw [hprotocol] at h
      exact hudp h
  · simp [Socket.sendBuffer, Socket.sendList, Socket.list, Socket.sendBufferLow, hhigh, hlow, hs,
      hdrain, drain_nil, listUncomplete] at h

end Slots

/-! ### Threads in `reserve_id` -/

/-- Where `report_accept` is in `reserve_id`. -/
def PollPc.pc? : PollPc → Option ReservePc
  | .accept _ _ pc => some pc
  | _ => none

/-- Where the threads are in `reserve_id`; `none` is the thread of `socket_server_poll`. -/
def reserver (threads : ℕ → Option (Purpose × ReservePc)) (poll : PollPc) :
    Option ℕ → Option ReservePc
  | some t => (threads t).map Prod.snd
  | none => poll.pc?

/-- The id of the thread is not negative, and it is the one of the slot once it is written. -/
def ReservePc.Fits (slot : Slot → Socket) : ReservePc → Prop
  | .check _ id => 0 ≤ id
  | .cas _ id => 0 ≤ id
  | .writeId id => 0 ≤ id
  | .writeFd id => (slot (hashId id)).id = id
  | .done (some id) => (slot (hashId id)).id = id
  | _ => True

/-- The command for the slot is still to be sent, or `report_accept` has yet to give it an id. -/
def Coming (threads : ℕ → Option (Purpose × ReservePc)) (poll : PollPc) (i : Slot) : Prop :=
  ∃ a pc, reserver threads poll a = some pc ∧ pc.slot? = some i ∧
    (a = none → ∃ id, pc = .writeId id)

variable {slot : Slot → Socket}

section Reserver

variable {threads threads' : ℕ → Option (Purpose × ReservePc)} {poll poll' : PollPc}

theorem pc?_after (report : Option Report) : (PollPc.after report).pc? = none := by
  cases report with
  | none => rfl
  | some r =>
    rw [PollPc.after]
    split_ifs <;> rfl

theorem holder_eq (a : Option ℕ) :
    holder threads poll a = (reserver threads poll a).bind ReservePc.slot? := by
  cases a with
  | none => cases poll <;> rfl
  | some t =>
    rw [holder, reserver]
    cases threads t <;> rfl

theorem reserver_update (t : ℕ) (x : Option (Purpose × ReservePc)) :
    reserver (update threads t x) poll (some t) = x.map Prod.snd := by
  rw [reserver, update_self]

theorem reserver_sameBut (t : ℕ) (x : Option (Purpose × ReservePc)) :
    SameBut (some t) (reserver threads poll) (reserver (update threads t x) poll) := by
  intro a ha
  cases a with
  | none => rfl
  | some u =>
    have hut : u ≠ t := fun h => ha (congrArg some h)
    rw [reserver, reserver, update_of_ne hut]

theorem reserver_poll (poll' : PollPc) :
    SameBut none (reserver threads poll) (reserver threads poll') := by
  intro a ha
  cases a with
  | none => exact absurd rfl ha
  | some t => rfl

theorem Coming.held {i : Slot} (h : Coming threads poll i) :
    ∃ a, holder threads poll a = some i := by
  obtain ⟨a, pc, ha, hslot, -⟩ := h
  refine ⟨a, ?_⟩
  rw [holder_eq, ha]
  exact hslot

theorem Coming.sameBut {i : Slot} {a : Option ℕ} (h : Coming threads poll i)
    (hsame : SameBut a (reserver threads poll) (reserver threads' poll'))
    (ha : ∀ pc, reserver threads poll a = some pc → pc.slot? ≠ some i) :
    Coming threads' poll' i := by
  obtain ⟨b, pc, hb, hslot, hnone⟩ := h
  refine ⟨b, pc, (hsame b ?_).trans hb, hslot, hnone⟩
  rintro rfl
  exact ha pc hb hslot

theorem ReservePc.Fits.congr {slot' : Slot → Socket} {pc : ReservePc} (h : pc.Fits slot)
    (hid : ∀ id, pc.id? = some id → (slot' (hashId id)).id = (slot (hashId id)).id) :
    pc.Fits slot' := by
  cases pc with
  | check i id => exact h
  | cas i id => exact h
  | writeId id => exact h
  | writeFd id => exact (hid id rfl).trans h
  | done r =>
    cases r with
    | none => trivial
    | some id => exact (hid id rfl).trans h
  | inc i => trivial
  | mask i => trivial

end Reserver

theorem masked_nonneg (n : Int32) : 0 ≤ n &&& 0x7fffffff := by
  rw [Int32.le_iff_toBitVec_sle, Int32.toBitVec_and]
  refine BitVec.zero_sle_iff_msb_eq_false.mpr ?_
  rw [BitVec.msb_and]
  exact Bool.and_false n.toBitVec.msb

namespace Server

variable {st st' : Server}

theorem reserve_fits {pc : ReservePc} (hpc : ∀ r, pc ≠ .done r) (h : pc.Fits st.slot) :
    (st.reserve pc).2.Fits (st.reserve pc).1.slot := by
  have hnext (i : ℕ) : (nextRound i).Fits st.slot := by
    rw [nextRound]
    split_ifs <;> trivial
  cases pc with
  | inc i =>
    rw [reserve]
    dsimp only
    split_ifs with hneg
    · trivial
    · exact Int32.not_lt.mp hneg
  | mask i => exact masked_nonneg st.allocId
  | check i id =>
    rw [reserve]
    split_ifs
    · exact h
    · exact hnext i
  | cas i id =>
    rw [reserve]
    split_ifs
    · exact h
    · trivial
  | writeId id =>
    change (update st.slot (hashId id) { st.slot (hashId id) with id } (hashId id)).id = id
    rw [update_self]
  | writeFd id =>
    change (update st.slot (hashId id) { st.slot (hashId id) with fd := none }
      (hashId id)).id = id
    rw [update_self]
    exact h
  | done r => exact absurd rfl (hpc r)

/-- The slot `i` is about to have the id of `s`. If `reserve_id` has not written it, it is not
negative; and no other slot in use has it, unless `reserve_id` has written both. -/
def Unmixed (st : Server) (i : Slot) (s : Socket) : Prop :=
  (¬Named i s → 0 ≤ s.id) ∧ ∀ j, j ≠ i → (st.slot j).type ≠ .invalid →
    ¬(Named i s ∧ Named j (st.slot j)) → (st.slot j).id ≠ s.id

/-- The exchange takes the slot with an id that is not mixed up with another one, and so does the
write of the new id find it. -/
def Grants (st : Server) : ReservePc → Prop
  | .cas _ id => (st.slot (hashId id)).type = .invalid →
      st.Unmixed (hashId id) (st.slot (hashId id))
  | .writeId id => st.Unmixed (hashId id) { st.slot (hashId id) with id }
  | _ => True

/-- The steps that do no harm to the ids. -/
def KeepsIds (st : Server) : Label → Prop
  | .thread t => ∀ purpose pc, st.threads t = some (purpose, pc) →
      st.Grants pc ∧ ∀ i id, pc = .cas i id → ∀ report, st.poll ≠ .again (hashId id) report
  | .poll => ∀ listener fd pc, st.poll = .accept listener fd pc →
      st.Grants pc ∧ ∀ id, pc = .writeId id → ∀ r gen, .request r gen ∈ st.pipe → r ≠ .exit →
        r.id = id → gen = st.gen (hashId id)
  | .request r gen => r ≠ .exit → (st.slot (hashId r.id)).type ≠ .invalid →
      (st.slot (hashId r.id)).id = r.id → ¬Coming st.threads st.poll (hashId r.id) →
        gen = st.gen (hashId r.id)
  | .ctrl _ => ∀ r gen pipe, st.pipe = .request r gen :: pipe →
      ¬((st.slot (hashId r.id)).type = .reserve ∧ r.Acts (st.slot (hashId r.id)))
  | .event κ => ∀ e batch i, st.batch = e :: batch → e.slot = some i →
      ¬((st.slot i).type = .reserve ∧ e.read = true ∧ (st.slot i).ReadFails κ)
  | _ => True

theorem KeepsIds.keepsReserved {a : Label} (h : st.KeepsIds a) : st.KeepsReserved a := by
  cases a with
  | ctrl κ =>
    intro r gen pipe hpipe hhalf
    exact h r gen pipe hpipe ⟨hhalf.1, hhalf.2.acts⟩
  | thread t =>
    intro purpose i id ht
    exact (h purpose _ ht).2 i id rfl
  | call | refused | request | pass | wait | event | poll => trivial

/-- What holds of the ids: every slot is as it should be, the ids of slots in use are distinct, the
threads and the commands in the pipe know the ids of their slots, and a request in the pipe that
carries the id of a slot is for the socket in it, unless the command that opens the slot is still to
come. -/
structure Identified (st : Server) : Prop where
  tidy : ∀ i, Tidy i (st.slot i)
  distinct : ∀ i j, i ≠ j → (st.slot i).type ≠ .invalid → (st.slot j).type ≠ .invalid →
    (st.slot i).id ≠ (st.slot j).id
  fits : ∀ a pc, reserver st.threads st.poll a = some pc → pc.Fits st.slot
  written : ∀ id purpose, .opening id purpose ∈ st.pipe → (st.slot (hashId id)).id = id
  meets : ∀ r gen post, .request r gen :: post <:+ st.pipe → r ≠ .exit →
    (st.slot (hashId r.id)).type ≠ .invalid → (st.slot (hashId r.id)).id = r.id →
      gen = st.gen (hashId r.id) ∨ hashId r.id ∈ inPipe post ∨
        Coming st.threads st.poll (hashId r.id)

namespace Identified

theorem create (memory : Slot → Socket) : Identified (.create memory) where
  tidy i := ⟨fun h => absurd rfl h, fun h => absurd rfl h, fun _ => ⟨rfl, rfl⟩⟩
  distinct i j _ h := absurd rfl h
  fits a pc h := by
    cases a <;> cases h
  written := nofun
  meets r gen post h := by
    have hnil := suffix_nil.mp h
    cases hnil

/-- A change of slots that gives no new id and takes none. -/
theorem keep (h : Identified st) (htidy : ∀ i, Tidy i (st'.slot i))
    (hid : ∀ i, (st'.slot i).id = (st.slot i).id)
    (hlive : ∀ i, (st'.slot i).type ≠ .invalid → (st.slot i).type ≠ .invalid)
    (hfits : ∀ a pc, reserver st'.threads st'.poll a = some pc → pc.Fits st'.slot)
    (hpipe : st'.pipe <:+ st.pipe) (hgen : st'.gen = st.gen)
    (hcoming : ∀ i, Coming st.threads st.poll i → Coming st'.threads st'.poll i) :
    Identified st' where
  tidy := htidy
  distinct i j hij hi hj := by
    rw [hid, hid]
    exact h.distinct i j hij (hlive i hi) (hlive j hj)
  fits := hfits
  written id purpose hmem := (hid _).trans (h.written id purpose (hpipe.mem hmem))
  meets r gen post hpost hr hi hri := by
    rw [hgen]
    refine (h.meets r gen post (hpost.trans hpipe) hr (hlive _ hi)
      ((hid _).symm.trans hri)).imp_right
      fun hlater => ?_
    exact hlater.imp_right (hcoming _)

/-- The threads leave `reserve_id`, or enter it. -/
theorem idle (h : Identified st) (hslot : st'.slot = st.slot) (hpipe : st'.pipe = st.pipe)
    (hgen : st'.gen = st.gen)
    (hfits : ∀ a pc, reserver st'.threads st'.poll a = some pc → pc.Fits st.slot)
    (hcoming : ∀ i, Coming st.threads st.poll i → Coming st'.threads st'.poll i) :
    Identified st' := by
  refine h.keep (hslot ▸ h.tidy) (fun i => by rw [hslot]) (fun i => ?_) (hslot ▸ hfits)
    (hpipe ▸ suffix_rfl) hgen hcoming
  rw [hslot]
  exact fun hi => hi

variable {poll : PollPc}

theorem fits_poll (h : Identified st) (hid : ∀ i, (slot i).id = (st.slot i).id)
    (hpoll : ∀ pc, poll.pc? = some pc → pc = .inc 0) (a : Option ℕ) (pc : ReservePc)
    (ha : reserver st.threads poll a = some pc) : pc.Fits slot := by
  cases a with
  | none =>
    rw [hpoll pc ha]
    trivial
  | some t => exact ReservePc.Fits.congr (h.fits (some t) pc ha) fun id _ => hid (hashId id)

theorem coming_poll {threads : ℕ → Option (Purpose × ReservePc)} {poll' : PollPc}
    (hpoll : ∀ id, poll.pc? ≠ some (.writeId id)) (i : Slot) (h : Coming threads poll i) :
    Coming threads poll' i := by
  obtain ⟨a, pc, ha, hslot, hnone⟩ := h
  cases a with
  | none =>
    obtain ⟨id, rfl⟩ := hnone rfl
    exact absurd ha (hpoll id)
  | some t => exact ⟨some t, pc, ha, hslot, nofun⟩

variable {i : Slot} {s : Socket}

theorem id_update (hs : s.id = (st.slot i).id) (j : Slot) :
    (update st.slot i s j).id = (st.slot j).id := by
  by_cases hj : j = i
  · rw [hj, update_self, hs]
  · rw [update_of_ne hj]

theorem claim_id (st : Server) (id : Int32) (j : Slot) :
    ((st.claim id).slot j).id = (st.slot j).id :=
  id_update (s := { st.slot (hashId id) with type := .reserve }) rfl j

theorem clearFd_id (st : Server) (id : Int32) (j : Slot) :
    ((st.clearFd id).slot j).id = (st.slot j).id :=
  id_update (s := { st.slot (hashId id) with fd := none }) rfl j

theorem type_update (hs : s.type ≠ .invalid → (st.slot i).type ≠ .invalid) (j : Slot)
    (hj : (update st.slot i s j).type ≠ .invalid) : (st.slot j).type ≠ .invalid := by
  by_cases hji : j = i
  · rw [hji, update_self] at hj
    rw [hji]
    exact hs hj
  · rw [update_of_ne hji] at hj
    exact hj

theorem tidy_update (h : Identified st) (hs : Tidy i s) (j : Slot) :
    Tidy j (update st.slot i s j) := by
  by_cases hj : j = i
  · rw [hj, update_self]
    exact hs
  · rw [update_of_ne hj]
    exact h.tidy j

variable {pipe : List Command}

theorem commit (h : Identified st) {out : Outcome} (htidy : Tidy i out.socket)
    (hid : out.socket.id = (st.slot i).id)
    (hlive : out.socket.type ≠ .invalid → (st.slot i).type ≠ .invalid) (hpipe : pipe <:+ st.pipe)
    (hpoll : ∀ id, st.poll.pc? ≠ some (.writeId id)) (hpoll' : poll.pc? = none)
    (hslot : st'.slot = update st.slot i out.socket) (hpipe' : st'.pipe = pipe)
    (hgen : st'.gen = st.gen) (hthreads : st'.threads = st.threads) (hpoll'' : st'.poll = poll) :
    Identified st' := by
  have hids (j : Slot) : (update st.slot i out.socket j).id = (st.slot j).id :=
    id_update hid j
  refine h.keep (hslot ▸ h.tidy_update htidy) (hslot ▸ hids) (hslot ▸ type_update hlive) ?_
    (hpipe' ▸ hpipe) hgen fun j hj => ?_
  · rw [hslot, hthreads, hpoll'']
    refine h.fits_poll hids fun pc hpc => ?_
    rw [hpoll'] at hpc
    cases hpc
  · rw [hthreads]
    exact coming_poll hpoll j hj

theorem distinct_update (h : Identified st) (hs : st.Unmixed i s) (j k : Slot) (hjk : j ≠ k)
    (hj : (update st.slot i s j).type ≠ .invalid) (hk : (update st.slot i s k).type ≠ .invalid) :
    (update st.slot i s j).id ≠ (update st.slot i s k).id := by
  have hne {j : Slot} (hji : j ≠ i) (hlive : (st.slot j).type ≠ .invalid) :
      (st.slot j).id ≠ s.id := by
    by_cases hboth : Named i s ∧ Named j (st.slot j)
    · exact hboth.2.ne hboth.1 hji
    · exact hs.2 j hji hlive hboth
  by_cases hji : j = i
  · subst hji
    rw [update_of_ne hjk.symm] at hk ⊢
    rw [update_self]
    exact (hne hjk.symm hk).symm
  · rw [update_of_ne hji] at hj ⊢
    by_cases hki : k = i
    · subst hki
      rw [update_self]
      exact hne hji hj
    · rw [update_of_ne hki] at hk ⊢
      exact h.distinct j k hjk hj hk

section Reserve

variable {a : Option ℕ} {pc : ReservePc} {id : Int32}

theorem fits_reserve (h : Identified st) (hpc : ∀ r, pc ≠ .done r)
    (ha : reserver st.threads st.poll a = some pc)
    (ha' : reserver st'.threads st'.poll a = some (st.reserve pc).2)
    (hsame : SameBut a (reserver st.threads st.poll) (reserver st'.threads st'.poll))
    (hid : ∀ b pc', b ≠ a → reserver st.threads st.poll b = some pc' → ∀ id, pc'.id? = some id →
      ((st.reserve pc).1.slot (hashId id)).id = (st.slot (hashId id)).id)
    (b : Option ℕ) (pc' : ReservePc) (hb : reserver st'.threads st'.poll b = some pc') :
    pc'.Fits (st.reserve pc).1.slot := by
  by_cases hba : b = a
  · subst hba
    rw [ha'] at hb
    cases hb
    exact reserve_fits hpc (h.fits b pc ha)
  · rw [hsame b hba] at hb
    exact ReservePc.Fits.congr (h.fits b pc' hb) (hid b pc' hba hb)

theorem coming_reserve {pc' : ReservePc} (ha : reserver st.threads st.poll a = some pc)
    (ha' : reserver st'.threads st'.poll a = some pc')
    (hsame : SameBut a (reserver st.threads st.poll) (reserver st'.threads st'.poll))
    (hslot : pc'.slot? = pc.slot?) (hwrite : ∀ id, pc ≠ .writeId id) (i : Slot)
    (h : Coming st.threads st.poll i) : Coming st'.threads st'.poll i := by
  obtain ⟨b, pc₀, hb, hi, hnone⟩ := h
  by_cases hba : b = a
  · subst hba
    obtain rfl : pc = pc₀ := Option.some.inj (ha.symm.trans hb)
    refine ⟨b, pc', ha', hslot.trans hi, fun hb => ?_⟩
    obtain ⟨id, rfl⟩ := hnone hb
    exact absurd rfl (hwrite id)
  · exact ⟨b, pc₀, (hsame b hba).trans hb, hi, hnone⟩

theorem claim {i : ℕ} (h : Identified st) (ha : reserver st.threads st.poll a = some (.cas i id))
    (hinvalid : (st.slot (hashId id)).type = .invalid)
    (hunmixed : st.Unmixed (hashId id) (st.slot (hashId id)))
    (ha' : reserver st'.threads st'.poll a = some (.writeId id))
    (hsame : SameBut a (reserver st.threads st.poll) (reserver st'.threads st'.poll))
    (hfits : ∀ b pc, reserver st'.threads st'.poll b = some pc → pc.Fits (st.claim id).slot)
    (hslot : st'.slot = (st.claim id).slot) (hgen : st'.gen = (st.claim id).gen)
    (hpipe : st'.pipe = st.pipe) : Identified st' := by
  have hempty : (st.slot (hashId id)).Empty :=
    (h.tidy (hashId id)).empty (not_sends (Or.inl hinvalid))
  have hnonneg : 0 ≤ (st.slot (hashId id)).id := by
    by_cases hnamed : Named (hashId id) (st.slot (hashId id))
    · exact hnamed.1
    · exact hunmixed.1 hnamed
  refine ⟨?_, ?_, hslot ▸ hfits, fun id' purpose hmem => ?_, fun r gen post hpost hr hi hri => ?_⟩
  · rw [hslot]
    exact h.tidy_update (.of_reserve rfl hnonneg hempty)
  · rw [hslot]
    exact h.distinct_update hunmixed
  · rw [hslot, claim_id]
    exact h.written id' purpose (hpipe ▸ hmem)
  · by_cases hj : hashId r.id = hashId id
    · rw [hj]
      exact Or.inr (Or.inr ⟨a, _, ha', rfl, fun _ => ⟨id, rfl⟩⟩)
    · have hother : (st.claim id).slot (hashId r.id) = st.slot (hashId r.id) :=
        update_of_ne hj ..
      have hgen' : (st.claim id).gen (hashId r.id) = st.gen (hashId r.id) :=
        update_of_ne hj ..
      rw [hslot, hother] at hi hri
      rw [hgen, hgen']
      refine (h.meets r gen post (hpipe ▸ hpost) hr hi hri).imp_right fun hlater => ?_
      refine hlater.imp_right fun hcoming => hcoming.sameBut hsame fun pc hpc => ?_
      rw [ha] at hpc
      cases hpc
      nofun

theorem setId (h : Identified st) (hr : Reserved st)
    (ha : reserver st.threads st.poll a = some (.writeId id))
    (hunmixed : st.Unmixed (hashId id) { st.slot (hashId id) with id })
    (hpending : a = none → ∀ r gen, .request r gen ∈ st.pipe → r ≠ .exit → r.id = id →
      gen = st.gen (hashId id))
    (ha' : reserver st'.threads st'.poll a = some (.writeFd id))
    (hsame : SameBut a (reserver st.threads st.poll) (reserver st'.threads st'.poll))
    (hfits : ∀ b pc, reserver st'.threads st'.poll b = some pc → pc.Fits (st.setId id).slot)
    (hslot : st'.slot = (st.setId id).slot) (hgen : st'.gen = st.gen)
    (hpipe : st'.pipe = st.pipe) : Identified st' := by
  have hheld : holder st.threads st.poll a = some (hashId id) := by
    rw [holder_eq, ha]
    rfl
  have hreserve : (st.slot (hashId id)).type = .reserve := hr.accounts.mem_of_held hheld
  have hother {j : Slot} (hj : j ≠ hashId id) : (st.setId id).slot j = st.slot j :=
    update_of_ne hj ..
  have hself : ((st.setId id).slot (hashId id)).id = id :=
    congrArg Socket.id (update_self (hashId id) _ st.slot)
  refine ⟨?_, ?_, hslot ▸ hfits, fun id' purpose hmem => ?_, fun r gen post hpost hr' hi hri => ?_⟩
  · rw [hslot]
    exact h.tidy_update (.of_reserve hreserve (h.fits a _ ha)
      ((h.tidy (hashId id)).empty (not_sends (Or.inr hreserve))))
  · rw [hslot]
    exact h.distinct_update hunmixed
  · rw [hpipe] at hmem
    have hne : hashId id' ≠ hashId id := by
      intro heq
      refine hr.accounts.disjoint a (hashId id) hheld ?_
      exact mem_filterMap.mpr ⟨_, hmem, congrArg some heq⟩
    rw [hslot, hother hne]
    exact h.written id' purpose hmem
  · rw [hpipe] at hpost
    by_cases hj : hashId r.id = hashId id
    · rw [hslot, hj, hself] at hri
      rw [hgen, hj]
      cases a with
      | none => exact Or.inl (hpending rfl r gen (hpost.mem mem_cons_self) hr' hri.symm)
      | some t => exact Or.inr (Or.inr ⟨some t, _, ha', rfl, nofun⟩)
    · rw [hslot, hother hj] at hi hri
      rw [hgen]
      refine (h.meets r gen post hpost hr' hi hri).imp_right fun hlater => ?_
      refine hlater.imp_right fun hcoming => hcoming.sameBut hsame fun pc hpc => ?_
      rw [ha] at hpc
      cases hpc
      exact fun heq => hj (Option.some.inj heq).symm

/-- **A step of `reserve_id`.** -/
theorem reserve (h : Identified st) (hr : Reserved st) (hpc : ∀ r, pc ≠ .done r)
    (ha : reserver st.threads st.poll a = some pc) (hgrants : st.Grants pc)
    (hpending : a = none → ∀ id, pc = .writeId id → ∀ r gen, .request r gen ∈ st.pipe →
      r ≠ .exit → r.id = id → gen = st.gen (hashId id))
    (ha' : reserver st'.threads st'.poll a = some (st.reserve pc).2)
    (hsame : SameBut a (reserver st.threads st.poll) (reserver st'.threads st'.poll))
    (hslot : st'.slot = (st.reserve pc).1.slot) (hgen : st'.gen = (st.reserve pc).1.gen)
    (hpipe : st'.pipe = st.pipe) : Identified st' := by
  have hfits := h.fits_reserve hpc ha ha' hsame
  rcases reserve_cases st hpc with
    ⟨n, pc', heq, hnone, hnone'⟩ | ⟨i, id, rfl, hinvalid, heq⟩ | ⟨id, rfl, heq⟩ | ⟨id, rfl, heq⟩
  · -- only the counter changes
    rw [heq] at ha' hslot hgen hfits
    have hslot' : pc'.slot? = pc.slot? := by rw [ReservePc.slot?, ReservePc.slot?, hnone, hnone']
    refine h.idle hslot hpipe hgen (hfits fun _ _ _ _ _ _ => rfl)
      (coming_reserve ha ha' hsame hslot' ?_)
    rintro id rfl
    cases hnone
  · rw [heq] at ha' hslot hgen hfits
    refine h.claim ha hinvalid (hgrants hinvalid) ha' hsame (hfits fun _ _ _ _ _ _ => ?_) hslot
      hgen hpipe
    exact claim_id st id _
  · rw [heq] at ha' hslot hgen hfits
    refine h.setId hr ha hgrants (fun ha => hpending ha id rfl) ha' hsame
      (hfits fun b pc' hba hb id' hid' => ?_) hslot hgen hpipe
    -- no other thread has the slot
    have hne : hashId id' ≠ hashId id := by
      intro hj
      refine hba (hr.accounts.inj b a (hashId id) ?_ ?_)
      · rw [holder_eq, hb]
        exact (congrArg (Option.map hashId) hid').trans (congrArg some hj)
      · rw [holder_eq, ha]
        rfl
    exact congrArg Socket.id (update_of_ne hne _ st.slot)
  · rw [heq] at ha' hslot hgen hfits
    have htidy : Tidy (hashId id) { st.slot (hashId id) with fd := none } :=
      { h.tidy (hashId id) with }
    have hlive : ∀ j, ((st.clearFd id).slot j).type ≠ .invalid → (st.slot j).type ≠ .invalid :=
      type_update fun hi => hi
    have hfits' := hfits fun _ _ _ _ _ _ => clearFd_id st id _
    exact h.keep (hslot ▸ h.tidy_update htidy) (hslot ▸ clearFd_id st id) (hslot ▸ hlive)
      (hslot ▸ hfits')
      (hpipe ▸ suffix_rfl) hgen (coming_reserve ha ha' hsame rfl (by simp))

end Reserve

/-- A thread that is outside `reserve_id`, or at its beginning. -/
theorem fits_thread (h : Identified st) {t : ℕ} {x : Option (Purpose × ReservePc)}
    (hx : ∀ pc, x.map Prod.snd = some pc → pc = .inc 0) (a : Option ℕ) (pc : ReservePc)
    (ha : reserver (update st.threads t x) st.poll a = some pc) : pc.Fits st.slot := by
  by_cases hat : a = some t
  · rw [hat, reserver_update] at ha
    rw [hx pc ha]
    trivial
  · rw [reserver_sameBut t x a hat] at ha
    exact h.fits a pc ha

variable {gen : ℕ} {c : Command}

theorem suffix_append {post : List Command} (h : .request r gen :: post <:+ pipe ++ [c]) :
    (∃ post', post = post' ++ [c] ∧ .request r gen :: post' <:+ pipe) ∨
      post = [] ∧ c = .request r gen := by
  obtain hnil | ⟨l, hl, hsuffix⟩ := suffix_concat_iff.mp h
  · cases hnil
  · cases l with
    | nil =>
      cases hl
      exact Or.inr ⟨rfl, rfl⟩
    | cons x l =>
      cases hl
      exact Or.inl ⟨l, rfl, hsuffix⟩

theorem mem_inPipe_append (h : i ∈ inPipe pipe) : i ∈ inPipe (pipe ++ [c]) := by
  rw [inPipe, filterMap_append]
  exact mem_append_left _ h

theorem request (h : Identified st) (hok : st.KeepsIds (.request r gen)) :
    Identified { st with pipe := st.pipe ++ [.request r gen] } := by
  refine
    { h with
      written := fun id purpose hmem => ?_
      meets := fun r' gen' post hpost hr hi hri => ?_ }
  · refine h.written id purpose ((mem_append.mp hmem).resolve_right fun hlast => ?_)
    cases mem_singleton.mp hlast
  · obtain ⟨post', rfl, hpost'⟩ | ⟨-, hlast⟩ := suffix_append hpost
    · exact (h.meets r' gen' post' hpost' hr hi hri).imp_right fun hlater =>
        hlater.imp_left mem_inPipe_append
    · cases hlast
      by_cases hcoming : Coming st.threads st.poll (hashId r.id)
      · exact Or.inr (Or.inr hcoming)
      · exact Or.inl (hok hr hi hri hcoming)

/-- A thread sends the command for the slot that it has reserved. -/
theorem send {t : ℕ} {purpose : Purpose} {id : Int32} (h : Identified st)
    (ht : st.threads t = some (purpose, .done (some id))) :
    Identified { st with
      pipe := st.pipe ++ [.opening id purpose]
      threads := update st.threads t none } := by
  have hpc : reserver st.threads st.poll (some t) = some (.done (some id)) := by
    rw [reserver, ht]
    rfl
  refine ⟨h.tidy, h.distinct, h.fits_thread nofun, fun id' purpose' hmem => ?_,
    fun r gen post hpost hr hi hri => ?_⟩
  · rcases mem_append.mp hmem with hmem | hlast
    · exact h.written id' purpose' hmem
    · cases mem_singleton.mp hlast
      exact h.fits (some t) _ hpc
  · obtain ⟨post', rfl, hpost'⟩ | ⟨-, hlast⟩ := suffix_append hpost
    · refine (h.meets r gen post' hpost' hr hi hri).imp_right fun hlater => ?_
      rcases hlater with hlater | hcoming
      · exact Or.inl (mem_inPipe_append hlater)
      · by_cases hslot : hashId id = hashId r.id
        · have hlast : .opening id purpose ∈ post' ++ [.opening id purpose] :=
            mem_append_right post' (mem_singleton_self _)
          exact Or.inl (mem_filterMap.mpr ⟨_, hlast, congrArg some hslot⟩)
        · refine Or.inr (hcoming.sameBut (reserver_sameBut t none) fun pc hpc' heq => hslot ?_)
          rw [hpc] at hpc'
          cases hpc'
          exact Option.some.inj heq
    · cases hlast

/-- **One step of the server.** -/
theorem step (h : Identified st) (hr : Reserved st) {a : Label} (hok : st.KeepsIds a)
    (hs : st.step a = .ok st') : Identified st' := by
  -- the thread of `socket_server_poll` goes on, and no slot changes
  have hidle (poll : PollPc) (hpoll : ∀ id, st.poll.pc? ≠ some (.writeId id))
      (hpoll' : ∀ pc, poll.pc? = some pc → pc = .inc 0) : Identified { st with poll } :=
    h.idle rfl rfl rfl (h.fits_poll (fun _ => rfl) hpoll') (coming_poll hpoll)
  cases step_cases hs with
  | @call t purpose ht hfd =>
    refine h.idle rfl rfl rfl (h.fits_thread ?_) fun i hi => ?_
    · rintro pc ⟨⟩
      rfl
    · refine hi.sameBut (reserver_sameBut t _) fun pc hpc => ?_
      rw [reserver, ht] at hpc
      cases hpc
  | @callFd t purpose ht hfd =>
    refine h.idle rfl rfl rfl (h.fits_thread ?_) fun i hi => ?_
    · rintro pc ⟨⟩
      rfl
    · refine hi.sameBut (reserver_sameBut t _) fun pc hpc => ?_
      rw [reserver, ht] at hpc
      cases hpc
  | refused => exact { h with }
  | @reserve t purpose pc ht hpc =>
    obtain ⟨hpipe, hthreads, hpoll, -⟩ := reserve_same st pc
    refine h.reserve hr hpc (a := some t) ?_ (hok purpose pc ht).1 (by simp)
      (reserver_update t _) ?_ rfl
      rfl hpipe
    · rw [reserver, ht]
      rfl
    · change SameBut (some t) _ (reserver (update (st.reserve pc).1.threads t _)
        (st.reserve pc).1.poll)
      rw [hthreads, hpoll]
      exact reserver_sameBut t _
  | send ht => exact h.send ht
  | @giveUp t purpose ht =>
    refine h.idle rfl rfl rfl (h.fits_thread (by simp)) fun i hi => ?_
    refine hi.sameBut (reserver_sameBut t none) fun pc hpc => ?_
    rw [reserver, ht] at hpc
    rw [← Option.some.inj hpc]
    simp [ReservePc.slot?, ReservePc.id?]
  | request => exact h.request hok
  | pass hpoll => exact { hidle .events (by simp [hpoll, PollPc.pc?]) (by simp [PollPc.pc?]) with }
  | @command κ r gen pipe out hpoll hpipe hrun =>
    have hacts := hok r gen pipe hpipe
    have heffect := Request.effect hrun
    have htidy := (h.tidy _).effect heffect (fun hs => hacts ⟨hs.1, hs.2.acts⟩)
      fun hs => hacts ⟨hs.1, hs.2.acts⟩
    refine h.commit htidy heffect.id (fun hlive hdead => hlive (heffect.dead hdead)) ?_ ?_
      (pc?_after out.report) rfl rfl rfl rfl rfl
    · rw [hpipe]
      exact suffix_cons _ pipe
    · simp [hpoll, PollPc.pc?]
  | @opening κ id purpose pipe out hpoll hpipe hrun =>
    have hmem : .opening id purpose ∈ st.pipe := hpipe ▸ mem_cons_self
    have hreserve : (st.slot (hashId id)).type = .reserve :=
      hr.accounts.mem_of_listed (mem_filterMap.mpr ⟨_, hmem, rfl⟩)
    have hid := h.written id purpose hmem
    have hopening := Purpose.opening hrun
    refine h.commit ((h.tidy _).opening hopening hreserve hid) ((hopening.id hid).trans hid.symm)
      (fun _ => by simp [hreserve]) ?_ ?_ ?_ rfl rfl rfl rfl rfl
    · rw [hpipe]
      exact suffix_cons _ pipe
    · simp [hpoll, PollPc.pc?]
    · split_ifs
      · rfl
      · exact pc?_after _
  | @wait entries hpoll hbatch =>
    refine { hidle (if entries = [] then .top else .events) (by simp [hpoll, PollPc.pc?]) ?_ with }
    split_ifs <;> simp [PollPc.pc?]
  | skip hpoll hbatch hslot => exact { hidle .top (by simp [hpoll, PollPc.pc?]) (by simp [PollPc.pc?]) with }
  | @accept κ e i batch hpoll hbatch hslot htype =>
    refine { hidle (.accept i st.nextFd (.inc 0)) (by simp [hpoll, PollPc.pc?]) ?_ with }
    rintro pc ⟨⟩
    rfl
  | acceptFails hpoll hbatch hslot htype => exact { hidle .top (by simp [hpoll, PollPc.pc?]) (by simp [PollPc.pc?]) with }
  | @entry κ e i batch out hpoll hbatch hslot hrun =>
    have heffect : Effect (st.slot i) False False False out := dispatch_effect hrun
    refine h.commit ((h.tidy i).effect heffect (fun hs => hs.2) fun hs => hs.2) heffect.id
      (fun hlive hdead => hlive (heffect.dead hdead)) suffix_rfl ?_ ?_ rfl rfl rfl rfl rfl
    · simp [hpoll, PollPc.pc?]
    · split_ifs
      · rfl
      · exact pc?_after _
  | @acceptReserve listener fd pc hpoll hpc =>
    obtain ⟨hpipe, hthreads, -⟩ := reserve_same st pc
    obtain ⟨hgrants, hpending⟩ := hok listener fd pc hpoll
    refine h.reserve hr hpc (a := none) ?_ hgrants (fun _ => hpending) rfl ?_ rfl rfl hpipe
    · rw [reserver, hpoll]
      rfl
    · change SameBut none _ (reserver (st.reserve pc).1.threads _)
      rw [hthreads]
      exact reserver_poll _
  | @accepted listener fd id out hpoll hrun =>
    have hheld : holder st.threads st.poll none = some (hashId id) := by
      rw [holder, hpoll]
      rfl
    have hreserve : (st.slot (hashId id)).type = .reserve := hr.accounts.mem_of_held hheld
    have hid : (st.slot (hashId id)).id = id :=
      h.fits none (.done (some id)) (by rw [reserver, hpoll]; rfl)
    have hopening := acceptSocket_opening hrun
    refine h.commit ((h.tidy _).opening hopening hreserve hid) ((hopening.id hid).trans hid.symm)
      (fun _ => by simp [hreserve]) suffix_rfl ?_ (pc?_after _) rfl rfl rfl rfl rfl
    simp [hpoll, PollPc.pc?]
  | notAccepted hpoll => exact { hidle .top (by simp [hpoll, PollPc.pc?]) (by simp [PollPc.pc?]) with }
  | @again i report hpoll =>
    have hinvalid := hr.marked i report hpoll
    have htidy : Tidy i { st.slot i with type := .invalid } :=
      ⟨fun hs => absurd rfl hs, fun hs => absurd rfl hs,
        fun _ => (h.tidy i).empty (not_sends (Or.inl hinvalid))⟩
    refine h.commit htidy rfl (fun hs => absurd rfl hs) suffix_rfl ?_
      (pc?_after report) rfl rfl rfl rfl rfl
    simp [hpoll, PollPc.pc?]
  | @purge id j hpoll => exact { hidle (.purge id (j + 1)) (by simp [hpoll, PollPc.pc?]) (by simp [PollPc.pc?]) with }
  | purged hpoll => exact { hidle .top (by simp [hpoll, PollPc.pc?]) (by simp [PollPc.pc?]) with }

/-- **The assertions.** `force_close` and `new_fd` find no reserved slot and nothing queued. -/
theorem asserts (h : Identified st) {a : Label} (hok : st.KeepsIds a) (hs : st.step a = .error e) :
    e ≠ .closeReserve ∧ e ≠ .wbListNotEmpty := by
  have hnewFd {i : Slot} (hfault : NewFdFault (st.slot i) e) :
      e ≠ .closeReserve ∧ e ≠ .wbListNotEmpty := by
    rcases hfault with rfl | ⟨-, hreserve, hqueued⟩
    · exact ⟨nofun, nofun⟩
    · exact absurd ((h.tidy i).empty (not_sends (Or.inr hreserve))) hqueued
  have hsend {i : Slot} (hfault : SendFault (st.slot i) e) : e ≠ .wbListNotEmpty := by
    rcases hfault with rfl | rfl | ⟨rfl, -⟩
    all_goals nofun
  cases step_fails hs with
  | notEnabled => exact ⟨nofun, nofun⟩
  | @command κ r gen pipe _ hpipe hrun =>
    refine ⟨?_, hsend (Request.fault hrun).2⟩
    rintro rfl
    exact hok r gen pipe hpipe (Request.closeReserve hrun)
  | opening hpipe hrun => exact hnewFd (Purpose.fault hrun)
  | @entry κ x i batch _ hbatch hslot hrun =>
    have hfault := dispatch_fault hrun
    refine ⟨?_, hsend hfault⟩
    rintro rfl
    have hreserve : (st.slot i).type = .reserve := by
      rcases hfault with he | he | he
      · cases he
      · cases he
      · exact he.2
    have hempty := (h.tidy i).empty (not_sends (Or.inr hreserve))
    exact hok x batch i hbatch hslot ⟨hreserve, dispatch_reserve hreserve hempty hrun⟩
  | accepted hpoll hrun => exact hnewFd (acceptSocket_fault hrun)

/-- **A request for another socket.** It leaves the slot, less the buffers that are freed. -/
theorem stale (h : Identified st) (hr : Reserved st) {κ : Kernel} (hok : st.KeepsIds (.ctrl κ))
    (hpipe : st.pipe = .request r gen :: pipe) (hgen : gen ≠ st.gen (hashId r.id))
    (hs : st.step (.ctrl κ) = .ok st') :
    ∃ freed, st'.slot = update st.slot (hashId r.id)
      { st.slot (hashId r.id) with freed } ∧ st'.closed = st.closed := by
  have hreserve (hlater : hashId r.id ∈ inPipe pipe ∨ Coming st.threads st.poll (hashId r.id)) :
      (st.slot (hashId r.id)).type = .reserve := by
    rcases hlater with hmem | hcoming
    · refine hr.accounts.mem_of_listed (?_ : hashId r.id ∈ inPipe st.pipe)
      rw [hpipe]
      exact hmem
    · obtain ⟨a, ha⟩ := hcoming.held
      exact hr.accounts.mem_of_held ha
  have hother : r = .exit ∨ (st.slot (hashId r.id)).type = .invalid ∨
      (st.slot (hashId r.id)).id ≠ r.id ∨
      (st.slot (hashId r.id)).type = .reserve ∧ ¬r.Acts (st.slot (hashId r.id)) := by
    by_cases hr' : r = .exit
    · exact Or.inl hr'
    by_cases hdead : (st.slot (hashId r.id)).type = .invalid
    · exact Or.inr (Or.inl hdead)
    by_cases hid : (st.slot (hashId r.id)).id = r.id
    · have hlater := (h.meets r gen pipe (hpipe ▸ suffix_rfl) hr' hdead hid).resolve_left hgen
      have hacts := hok r gen pipe hpipe
      have hreserved := hreserve hlater
      exact Or.inr (Or.inr (Or.inr ⟨hreserved, fun hacting => hacts ⟨hreserved, hacting⟩⟩))
    · exact Or.inr (Or.inr (Or.inl hid))
  cases step_cases hs with
  | command hpoll hpipe' hrun =>
    rw [hpipe] at hpipe'
    cases hpipe'
    obtain ⟨freed, hsocket, hclosed⟩ := Request.unchanged hrun hother
    refine ⟨freed, ?_, ?_⟩
    · exact congrArg (update st.slot (hashId r.id)) hsocket
    · change st.closed ++ _ = st.closed
      rw [hclosed]
      exact append_nil st.closed
  | opening hpoll hpipe' hrun =>
    rw [hpipe] at hpipe'
    cases hpipe'

end Identified

end Server

open Mtask.SocketServer.Server

/-- **Ids.** In every run of threads, commands and entries, with any answers of the kernel, in which
the steps do no harm to the ids: the ids of the slots in use are distinct and not negative; a
request for a socket that is not the one in the slot leaves the slot, less the buffers that are
freed, and closes nothing; and the assertions of `force_close` and `check_wb_list` hold. -/
theorem ids_distinct {memory : Slot → Socket} {st : Server}
    (h : Transition.Reaches Server.step KeepsIds (.create memory) st) :
    (∀ i, (st.slot i).type ≠ .invalid → 0 ≤ (st.slot i).id) ∧
      (∀ i j, i ≠ j → (st.slot i).type ≠ .invalid → (st.slot j).type ≠ .invalid →
        (st.slot i).id ≠ (st.slot j).id) ∧
      (∀ κ r gen pipe st', st.KeepsIds (.ctrl κ) → st.pipe = .request r gen :: pipe →
        gen ≠ st.gen (hashId r.id) → st.step (.ctrl κ) = .ok st' →
        ∃ freed, st'.slot = update st.slot (hashId r.id)
          { st.slot (hashId r.id) with freed } ∧ st'.closed = st.closed) ∧
      ∀ a e, st.KeepsIds a → st.step a = .error e → e ≠ .closeReserve ∧ e ≠ .wbListNotEmpty := by
  have hinv : Reserved st ∧ Identified st := by
    induction h with
    | refl => exact ⟨.create memory, .create memory⟩
    | tail _ hok hs ih => exact ⟨ih.1.step hok.keepsReserved hs, ih.2.step ih.1 hok hs⟩
  obtain ⟨hr, hid⟩ := hinv
  exact ⟨fun i => (hid.tidy i).nonneg, hid.distinct,
    fun κ r gen pipe st' hok hpipe hgen hs => hid.stale hr hok hpipe hgen hs,
    fun a e hok hs => hid.asserts hok hs⟩

/-- A socket is connected, and two bytes are sent to another socket that had its slot. -/
def sendsToOther : List Label :=
  [.call 0 (.connect 7)] ++ List.replicate 6 (.thread 0) ++
    [.ctrl .fine, .request (.send 65537 ⟨100, 100, [1, 2], false⟩ .high) 5]

/-- The bytes are not sent on the connected socket. -/
theorem ids_distinct_other : ∃ st st' : Server, (st.slot (hashId 1)).type = .connected ∧
    0 ≤ (st.slot (hashId 1)).id ∧ st.step (.ctrl .fine) = .ok st' ∧
    (st'.slot (hashId 1)).stream = [] ∧ (st'.slot (hashId 1)).high = [] := by
  have hrun : ∃ st st', Transition.exec Server.step (.create Server.zeroed) sendsToOther = .ok st ∧
      st.step (.ctrl .fine) = .ok st' ∧ (st.slot (hashId 1)).type = .connected ∧
      (st.slot (hashId 1)).stream = [] ∧ (st.slot (hashId 1)).high = [] ∧
      st.gen (hashId 1) = maxSocket ∧ st.pipe =
        [.request (.send 65537 ⟨100, 100, [1, 2], false⟩ .high) 5] :=
    ⟨_, _, rfl, rfl, rfl, rfl, rfl, rfl, rfl⟩
  have hpermitted : Transition.Permitted Server.step KeepsIds (.create Server.zeroed)
      sendsToOther := by
    have hthread {st : Server} {pc : ReservePc} (ht : st.threads 0 = some (.connect 7, pc))
        (hpoll : st.poll = .top) (hgrants : st.Grants pc) : st.KeepsIds (.thread 0) := by
      intro purpose pc' ht'
      rw [ht] at ht'
      cases ht'
      refine ⟨hgrants, fun i id _ report hagain => ?_⟩
      rw [hpoll] at hagain
      cases hagain
    have hother {j : Slot} (hj : j ≠ hashId 1) (f : Slot → Socket) (s : Socket) :
        update f (hashId 1) s j = f j := update_of_ne hj s f
    refine .cons trivial rfl <| .cons (hthread rfl rfl trivial) rfl <|
      .cons (hthread rfl rfl trivial) rfl <| .cons (hthread rfl rfl ?_) rfl <|
      .cons (hthread rfl rfl ?_) rfl <| .cons (hthread rfl rfl trivial) rfl <|
      .cons (hthread rfl rfl trivial) rfl <| .cons ?_ rfl <| .cons ?_ rfl trivial
    · -- the id left in the slot is 0, and no other slot is in use
      exact fun _ => ⟨fun _ => Int32.le_refl 0, fun j _ hlive => absurd rfl hlive⟩
    · refine ⟨fun _ => by decide, fun j hj hlive => absurd ?_ hlive⟩
      exact congrArg Socket.type (hother hj _ _)
    · rintro r gen pipe ⟨⟩
    · intro _ _ hid
      have hid : (1 : Int32) = 65537 := hid
      exact absurd hid (by decide)
  obtain ⟨st, st', hst, hstep, htype, hstream, hhigh, hgen, hpipe⟩ := hrun
  obtain ⟨hnonneg, -, hstale, -⟩ := ids_distinct (hpermitted.reaches hst)
  have hok : st.KeepsIds (.ctrl .fine) := by
    intro r gen pipe hpipe'
    rw [hpipe] at hpipe'
    cases hpipe'
    rintro ⟨hreserve, -⟩
    have hreserve : (st.slot (hashId 1)).type = .reserve := hreserve
    rw [htype] at hreserve
    cases hreserve
  have hgen' : 5 ≠ st.gen (hashId 65537) := by
    intro h
    have h : 5 = st.gen (hashId 1) := h
    rw [hgen] at h
    cases h
  obtain ⟨freed, hslot, -⟩ := hstale _ _ _ _ _ hok hpipe hgen' hstep
  have hslot : st'.slot (hashId 1) = { st.slot (hashId 1) with freed } := by
    rw [hslot]
    exact update_self (hashId 65537) _ st.slot
  refine ⟨st, st', htype, hnonneg _ (by rw [htype]; nofun), hstep, ?_, ?_⟩
  · rw [hslot]
    exact hstream
  · rw [hslot]
    exact hhigh

/-- The first socket is connected and closed. -/
def opensAndCloses : List Label :=
  [.call 0 (.connect 7)] ++ List.replicate 6 (.thread 0) ++
    [.ctrl .fine, .request (.close 1 7) maxSocket, .ctrl .fine, .poll]

theorem opensAndCloses_waiting :
    ∃ st, Transition.exec Server.step (.create Server.zeroed) opensAndCloses = .ok st ∧
      Server.Waiting [] [] 1 st := by
  refine ⟨_, rfl, rfl, rfl, rfl, rfl, rfl, fun i => ?_, ⟨rfl, rfl, rfl⟩, rfl, nofun⟩
  by_cases hi : i = hashId 1
  · subst hi
    rfl
  · have hu (f : Slot → Socket) (s : Socket) : update f (hashId 1) s i = f i :=
      update_of_ne hi s f
    exact congrArg Socket.type ((hu _ _).trans <| (hu _ _).trans <| (hu _ _).trans <|
      (hu _ _).trans (hu _ _))

theorem close_reserved {st : Server} (hpoll : st.poll = .top) (hctrl : st.checkctrl = true)
    (hpipe : st.pipe = [.request (.close 1 7) maxSocket])
    (hreserve : (st.slot (hashId 1)).type = .reserve) (hid : (st.slot (hashId 1)).id = 1)
    (hempty : (st.slot (hashId 1)).Empty) : st.step (.ctrl .fine) = .error .closeReserve := by
  obtain ⟨hhigh, hlow⟩ := hempty
  have hrun : (Request.close 1 7).run (st.slot (hashId 1)) .fine = .error .closeReserve := by
    simp [Request.run, Socket.closeSocket, Socket.sendBufferEmpty, Socket.quiet, Socket.forceClose,
      hreserve, hid, hhigh, hlow]
  rw [Server.step, if_pos ⟨hpoll, hctrl⟩, ctrl, hpipe]
  simp [Request.id, hrun]

/-- **The claim fails behind the exchange.** After `MAX_SOCKET` openings a thread has taken the slot
of the first socket and has not yet written the new id; a request to close the first socket, which
is closed, makes the assertion of `force_close` fail. And two threads that take their slots for the
first time leave two slots with the id 0. -/
theorem reserved_asserts :
    (∃ st, Transition.Reaches Server.step Anything (.create Server.zeroed) st ∧
      st.step (.ctrl .fine) = .error .closeReserve) ∧
      ∃ st, Transition.Reaches Server.step Anything (.create Server.zeroed) st ∧
        (st.slot (hashId 1)).type = .reserve ∧ (st.slot (hashId 2)).type = .reserve ∧
        (st.slot (hashId 1)).id = (st.slot (hashId 2)).id := by
  constructor
  · obtain ⟨st₁, hrun₁, hwaiting⟩ := opensAndCloses_waiting
    obtain ⟨st₂, hrun₂, hround⟩ := Server.waiting_round (by simp) hwaiting
    obtain ⟨hid, hthread, hfree⟩ := hround.next
    obtain ⟨st₃, hrun₃, hpoll, hctrl, hpipe, hslot⟩ : ∃ st₃, Transition.Reaches Server.step Anything
        st₂ st₃ ∧ st₃.poll = .top ∧ st₃.checkctrl = true ∧ st₃.pipe = [] ∧
        st₃.slot (hashId 1) = { st₂.slot (hashId 1) with type := .reserve } :=
      ⟨_, reaches_claim hid (by decide) hthread hfree, hround.poll, hround.checkctrl, hround.pipe,
        by exact update_self (hashId 65537) _ st₂.slot⟩
    have hrequest : st₃.step (.request (.close 1 7) maxSocket) =
        .ok { st₃ with pipe := [.request (.close 1 7) maxSocket] } := by
      rw [Server.step, hpipe]
      rfl
    have hstart : Transition.Reaches Server.step Anything _ st₁ :=
      Transition.reaches_of_exec hrun₁ fun _ _ _ => trivial
    refine ⟨_, (hstart.trans hrun₂).trans (hrun₃.trans (reaches_step _ hrequest)), ?_⟩
    refine close_reserved hpoll hctrl rfl ?_ ?_ ?_
    · rw [hslot]
    · rw [hslot]
      exact hround.first.1
    · rw [hslot]
      exact hround.first.2
  · have hrun : ∃ st, Transition.exec Server.step (.create Server.zeroed)
        ([.call 0 (.connect 7), .call 1 (.connect 7)] ++ List.replicate 3 (.thread 0) ++
          List.replicate 3 (.thread 1)) = .ok st ∧ (st.slot (hashId 1)).type = .reserve ∧
        (st.slot (hashId 2)).type = .reserve ∧ (st.slot (hashId 1)).id = 0 ∧
        (st.slot (hashId 2)).id = 0 := ⟨_, rfl, rfl, rfl, rfl, rfl⟩
    obtain ⟨st, hst, htype, htype', hid, hid'⟩ := hrun
    exact ⟨st, Transition.reaches_of_exec hst fun _ _ _ => trivial, htype, htype',
      hid.trans hid'.symm⟩

end Mtask.SocketServer
