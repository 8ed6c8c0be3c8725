import Mathlib.Tactic.NormNum
import Mtask.SocketServer.Steps

/-!
# The slots come round again

`HASH_ID` takes the slots in turn. After `MAX_SOCKET` openings of which only the first one found a
host, the next id is for the slot of the first socket, which still carries the old id until
`reserve_id` writes the new one.
-/

namespace Mtask.SocketServer

namespace Server

open Transition (Reaches)
open List
open Function (update update_idem update_of_ne update_self)

variable {st : Server}

/-- Any steps. -/
def Anything (_ : Server) (_ : Label) : Prop := True

theorem reaches_step {st' : Server} (a : Label) (h : st.step a = .ok st') :
    Reaches step Anything st st' :=
  .single trivial h

/-! ### One call -/

variable {id : Int32}

/-- The thread 0 calls `socket_server_connect` and has taken the slot for its id. -/
theorem reaches_claim (hid : id = st.allocId + 1) (hpos : ¬id < 0) (ht : st.threads 0 = none)
    (hfree : (st.slot (hashId id)).type = .invalid) :
    Reaches step Anything st
      { { st with allocId := id }.claim id with
        threads := update st.threads 0 (some (.connect 7, .writeId id)) } := by
  have hself (x : Option (Purpose × ReservePc)) : update st.threads 0 x 0 = x :=
    update_self ..
  have hcall : st.step (.call 0 (.connect 7)) =
      .ok { st with threads := update st.threads 0 (some (.connect 7, .inc 0)) } := by
    simp only [step, ht, ne_eq, not_true_eq_false, if_false, Purpose.fd?]
  have hinc : step { st with threads := update st.threads 0 (some (.connect 7, .inc 0)) }
      (.thread 0) = .ok { st with
        allocId := id
        threads := update st.threads 0 (some (.connect 7, .check 0 id)) } := by
    simp only [step, thread, hself, reserve, ← hid, if_neg hpos, update_idem]
  have hcheck : step { st with
        allocId := id
        threads := update st.threads 0 (some (.connect 7, .check 0 id)) } (.thread 0) =
      .ok { st with
        allocId := id
        threads := update st.threads 0 (some (.connect 7, .cas 0 id)) } := by
    simp only [step, thread, hself, reserve, if_pos hfree, update_idem]
  have hcas : step { st with
        allocId := id
        threads := update st.threads 0 (some (.connect 7, .cas 0 id)) } (.thread 0) =
      .ok { { st with allocId := id }.claim id with
        threads := update st.threads 0 (some (.connect 7, .writeId id)) } := by
    simp only [step, thread, hself, reserve, if_pos hfree, update_idem, claim]
  exact (reaches_step _ hcall).trans <| (reaches_step _ hinc).trans <|
    (reaches_step _ hcheck).trans (reaches_step _ hcas)

theorem reaches_send (ht : st.threads 0 = some (.connect 7, .writeId id)) :
    Reaches step Anything st
      { (st.setId id).clearFd id with
        pipe := st.pipe ++ [.opening id (.connect 7)]
        threads := update st.threads 0 none } := by
  have hself (x : Option (Purpose × ReservePc)) : update st.threads 0 x 0 = x :=
    update_self ..
  have hid : st.step (.thread 0) = .ok { st.setId id with
      threads := update st.threads 0 (some (.connect 7, .writeFd id)) } := by
    simp only [step, thread, ht, reserve, setId]
  have hfd : step { st.setId id with
        threads := update st.threads 0 (some (.connect 7, .writeFd id)) } (.thread 0) =
      .ok { (st.setId id).clearFd id with
        threads := update st.threads 0 (some (.connect 7, .done (some id))) } := by
    simp only [step, thread, hself, reserve, clearFd, update_idem]
  have hsend : step { (st.setId id).clearFd id with
        threads := update st.threads 0 (some (.connect 7, .done (some id))) } (.thread 0) =
      .ok { (st.setId id).clearFd id with
        pipe := st.pipe ++ [.opening id (.connect 7)]
        threads := update st.threads 0 none } := by
    simp only [step, thread, hself, update_idem, clearFd, setId]
  exact (reaches_step _ hid).trans <| (reaches_step _ hfd).trans (reaches_step _ hsend)

/-- The thread 0 has called `socket_server_connect`. -/
def asked (st : Server) (id : Int32) : Server :=
  { st with
    slot := update st.slot (hashId id)
      { st.slot (hashId id) with type := .reserve, id, fd := none }
    allocId := id
    gen := update st.gen (hashId id) st.issued
    issued := st.issued + 1
    pipe := st.pipe ++ [.opening id (.connect 7)] }

theorem asked_slot (st : Server) (id : Int32) : (st.asked id).slot (hashId id) =
    { st.slot (hashId id) with type := .reserve, id, fd := none } :=
  update_self ..

theorem reaches_asked (hid : id = st.allocId + 1) (hpos : ¬id < 0) (ht : st.threads 0 = none)
    (hfree : (st.slot (hashId id)).type = .invalid) : Reaches step Anything st (st.asked id) := by
  have hthreads : update st.threads 0 none = st.threads := by
    rw [← ht, Function.update_eq_self]
  have hself (x : Option (Purpose × ReservePc)) : update st.threads 0 x 0 = x :=
    update_self ..
  have hrun := (reaches_claim hid hpos ht hfree).trans
    (reaches_send (hself (some (.connect 7, .writeId id))))
  simp only [claim, setId, clearFd, update_idem, update_self, hthreads] at hrun
  exact hrun

/-! ### An opening that fails -/

theorem modify_append {α : Type*} (f : α → α) (x : α) (l l' : List α) :
    (l ++ x :: l').modify l.length f = l ++ f x :: l' := by
  induction l with
  | nil => rfl
  | cons y l ih =>
    rw [cons_append, length_cons, modify_succ_cons, ih, cons_append]

/-- What `clear_closed_event` leaves, if nobody disturbs it. -/
theorem purge_run {done rest : List Entry} (hbatch : st.batch = done ++ rest)
    (hpoll : st.poll = .purge id done.length) :
    Reaches step Anything st
      { st with batch := done ++ rest.map (st.clearEntry id), poll := .top } := by
  induction rest generalizing st done with
  | nil =>
    have hstep : st.step .poll = .ok { st with poll := .top } := by
      have hnot : ¬done.length < st.batch.length := by rw [hbatch]; simp
      simp only [step, pollStep, hpoll, if_neg hnot]
    rw [map_nil, ← hbatch]
    exact reaches_step _ hstep
  | cons e rest ih =>
    have hstep : st.step .poll = .ok { st with
        batch := (done ++ [st.clearEntry id e]) ++ rest
        poll := .purge id (done ++ [st.clearEntry id e]).length } := by
      have hlt : done.length < st.batch.length := by rw [hbatch]; simp
      simp only [step, pollStep, hpoll, if_pos hlt]
      rw [hbatch, modify_append, length_append, append_assoc]
      rfl
    rw [map_cons, append_cons]
    exact (reaches_step _ hstep).trans (ih rfl rfl)

/-- The host is not found. -/
def notFound : Kernel :=
  { Kernel.fine with opening := .failed }

theorem reaches_failed (hpoll : st.poll = .top) (hctrl : st.checkctrl = true)
    (hpipe : st.pipe = [.opening id (.connect 7)]) :
    ∃ st', Reaches step Anything st st' ∧
      st'.slot = update st.slot (hashId id) { st.slot (hashId id) with type := .invalid } ∧
      st'.batch = st.batch.map (st'.clearEntry id) ∧ st'.pipe = [] ∧ st'.poll = .top ∧
      st'.checkctrl = true ∧ st'.threads = st.threads ∧ st'.allocId = st.allocId ∧
      ∀ m ∈ st.log, m ∈ st'.log := by
  have hstep : st.step (.ctrl notFound) = .ok
      { st.commit (hashId id)
          ⟨some ⟨.error, id, 7, 0⟩, { st.slot (hashId id) with type := .invalid }, none⟩ with
        pipe := []
        poll := .purge id 0 } := by
    simp only [step, hpoll, hctrl, ctrl, hpipe]
    rfl
  have hnil (batch : List Entry) : batch = [] ++ batch := rfl
  refine ⟨_, (reaches_step _ hstep).trans (purge_run (hnil _) rfl), rfl, rfl, rfl, rfl, hctrl, rfl,
    rfl, fun m hm => ?_⟩
  simp only [commit]
  split_ifs
  · exact mem_append_left _ hm
  · exact hm

/-! ### Many openings -/

/-- The first socket is closed, its entries and the marks are there, and `n` ids are given. -/
structure Waiting (batch : List Entry) (marks : List Mark) (n : ℕ) (st : Server) : Prop where
  poll : st.poll = .top
  checkctrl : st.checkctrl = true
  pipe : st.pipe = []
  thread : st.threads 0 = none
  allocId : st.allocId = Int32.ofNat n
  free : ∀ i, (st.slot i).type = .invalid
  first : (st.slot (hashId 1)).id = 1 ∧ (st.slot (hashId 1)).Empty
  batch : st.batch = batch
  marks : ∀ m ∈ marks, m ∈ st.log

theorem hashId_ofNat (n : ℕ) : (hashId (Int32.ofNat n)).val = n % 2 ^ 32 % maxSocket := by
  change (Int32.ofNat n).toUInt32.toNat % maxSocket = _
  rw [Int32.toUInt32_ofNat', UInt32.toNat_ofNat']

variable {n : ℕ}

theorem ofNat_nonneg (hn : n < 2 ^ 31) : ¬Int32.ofNat n < 0 := by
  rw [Int32.lt_iff_toInt_lt, Int32.toInt_ofNat_of_lt hn]
  exact Int.not_lt.mpr (Int.natCast_nonneg n)

theorem hashId_ne_first (hn : 1 < n) (hn' : n ≤ maxSocket) : hashId (Int32.ofNat n) ≠ hashId 1 := by
  intro h
  have hval : n % 2 ^ 32 % maxSocket = 1 := by
    rw [← hashId_ofNat, h]
    rfl
  rw [maxSocket] at hn' hval
  omega

variable {batch : List Entry} {marks : List Mark}

section

variable (hbatch : ∀ e ∈ batch, e.slot = some (hashId 1))
include hbatch

theorem waiting_step (h : Waiting batch marks n st) (hn : 0 < n) (hn' : n < maxSocket) :
    ∃ st', Reaches step Anything st st' ∧ Waiting batch marks (n + 1) st' := by
  have hid : Int32.ofNat (n + 1) = st.allocId + 1 := by rw [h.allocId, Int32.ofNat_add]; rfl
  have hpos : ¬Int32.ofNat (n + 1) < 0 := by
    refine ofNat_nonneg ?_
    rw [maxSocket] at hn'
    omega
  have hfirst : hashId 1 ≠ hashId (Int32.ofNat (n + 1)) :=
    (hashId_ne_first (Nat.succ_lt_succ hn) hn').symm
  have hasked : (st.asked (Int32.ofNat (n + 1))).pipe =
      [.opening (Int32.ofNat (n + 1)) (.connect 7)] := by
    rw [asked, h.pipe]
    rfl
  have hother' {i : Slot} (hi : i ≠ hashId (Int32.ofNat (n + 1))) :
      (st.asked (Int32.ofNat (n + 1))).slot i = st.slot i := update_of_ne hi ..
  obtain ⟨st', hrun, hslot, hbatch', hpipe, hpoll, hctrl, hthreads, hallocId, hlog⟩ :=
    reaches_failed (by exact h.poll) (by exact h.checkctrl) hasked
  have hself : (st'.slot (hashId (Int32.ofNat (n + 1)))).type = .invalid := by
    rw [hslot, update_self]
  have hother {i : Slot} (hi : i ≠ hashId (Int32.ofNat (n + 1))) : st'.slot i = st.slot i := by
    rw [hslot, update_of_ne hi, hother' hi]
  have hkeep : ∀ e ∈ batch, st'.clearEntry (Int32.ofNat (n + 1)) e = e := by
    intro e he
    rw [clearEntry, hbatch e he]
    refine if_neg fun hclear => hfirst ?_
    rw [← hclear.2, hother hfirst, h.first.1]
  refine ⟨st', (reaches_asked hid hpos h.thread (h.free _)).trans hrun, hpoll, hctrl, hpipe, ?_, ?_,
    fun i => ?_, ?_, ?_, fun m hm => hlog m (h.marks m hm)⟩
  · rw [hthreads]
    exact h.thread
  · rw [hallocId]
    rfl
  · by_cases hi : i = hashId (Int32.ofNat (n + 1))
    · rw [hi, hself]
    · rw [hother hi, h.free]
  · rw [hother hfirst]
    exact h.first
  · rw [hbatch']
    change st.batch.map _ = batch
    rw [h.batch]
    exact (map_congr_left hkeep).trans (map_id' batch)

theorem waiting_run (h : Waiting batch marks 1 st) (n : ℕ) (hn : n < maxSocket) :
    ∃ st', Reaches step Anything st st' ∧ Waiting batch marks (n + 1) st' := by
  induction n with
  | zero => exact ⟨st, .refl, h⟩
  | succ n ih =>
    obtain ⟨st', hrun, hwaiting⟩ := ih (Nat.lt_of_succ_lt hn)
    obtain ⟨st'', hrun', hwaiting'⟩ := waiting_step hbatch hwaiting (Nat.succ_pos n) hn
    exact ⟨st'', hrun.trans hrun', hwaiting'⟩

theorem waiting_round (h : Waiting batch marks 1 st) :
    ∃ st', Reaches step Anything st st' ∧ Waiting batch marks maxSocket st' := by
  have hlt : maxSocket - 1 < maxSocket := Nat.pred_lt (Nat.succ_ne_zero 65535)
  exact waiting_run hbatch h (maxSocket - 1) hlt

end

theorem Waiting.next (h : Waiting batch marks maxSocket st) :
    65537 = st.allocId + 1 ∧ st.threads 0 = none ∧
      (st.slot (hashId 65537)).type = .invalid := by
  refine ⟨?_, h.thread, h.free _⟩
  rw [h.allocId]
  rfl

theorem ctrl_connected (hpoll : st.poll = .top) (hctrl : st.checkctrl = true)
    (hpipe : st.pipe = [.opening id (.connect 7)])
    (hreserve : (st.slot (hashId id)).type = .reserve) (hempty : (st.slot (hashId id)).Empty) :
    ∃ st', st.step (.ctrl .fine) = .ok st' ∧ (st'.slot (hashId id)).type = .connected ∧
      (st'.slot (hashId id)).protocol = .tcp ∧ st'.poll = .top ∧ st'.batch = st.batch ∧
      ∀ m ∈ st.log, m ∈ st'.log := by
  obtain ⟨hhigh, hlow⟩ := hempty
  have hopen : ∃ s' : Socket, (Purpose.connect 7).run (st.slot (hashId id)) id st.nextFd .fine =
      .ok ⟨some ⟨.opened, id, 7, 0⟩, s', none⟩ ∧ s'.type = .connected ∧ s'.protocol = .tcp := by
    refine ⟨{ st.slot (hashId id) with
      id
      fd := some (.own st.nextFd)
      protocol := .tcp
      type := .connected
      p := .size minReadBuffer
      opaqueId := 7
      wbSize := 0
      registered := true
      writing := false
      stream := []
      datagrams := [] }, ?_, rfl, rfl⟩
    simp [Purpose.run, Socket.openSocket, Kernel.fine, Socket.newFd, hreserve, hhigh, hlow]
  obtain ⟨s', hrun, htype, hprotocol⟩ := hopen
  have hslot : (st.commit (hashId id) ⟨some ⟨.opened, id, 7, 0⟩, s', none⟩).slot (hashId id) = s' :=
    update_self ..
  have hstep : st.step (.ctrl .fine) = .ok
      { st.commit (hashId id) ⟨some ⟨.opened, id, 7, 0⟩, s', none⟩ with
        pipe := []
        nextFd := st.nextFd + 1
        poll := .top } := by
    rw [step, if_pos ⟨hpoll, hctrl⟩, ctrl, hpipe]
    dsimp only
    rw [hrun]
    rfl
  refine ⟨_, hstep, ?_, ?_, rfl, rfl, fun m hm => ?_⟩
  · exact (congrArg Socket.type hslot).trans htype
  · exact (congrArg Socket.protocol hslot).trans hprotocol
  · change m ∈ if _ then _ else _
    split_ifs
    · exact mem_append_left _ hm
    · exact hm

theorem reaches_connected (h : Waiting batch marks maxSocket st) :
    ∃ st', Reaches step Anything st st' ∧ (st'.slot (hashId 1)).type = .connected ∧
      (st'.slot (hashId 1)).protocol = .tcp ∧ st'.poll = .top ∧ st'.batch = batch ∧
      ∀ m ∈ marks, m ∈ st'.log := by
  obtain ⟨hid, hthread, hfree⟩ := h.next
  have hround : hashId 65537 = hashId 1 := rfl
  have hslot := asked_slot st 65537
  have hpipe : (st.asked 65537).pipe = [.opening 65537 (.connect 7)] := by
    rw [asked, h.pipe]
    rfl
  have hempty : ((st.asked 65537).slot (hashId 65537)).Empty := by
    rw [hslot, hround]
    exact h.first.2
  obtain ⟨st', hst', htype, hprotocol, hpoll, hbatch, hlog⟩ :=
    ctrl_connected (by exact h.poll) (by exact h.checkctrl) hpipe (by rw [hslot]) hempty
  exact ⟨st', (reaches_asked hid (by decide) hthread hfree).trans (reaches_step _ hst'), htype,
    hprotocol, hpoll, hbatch.trans h.batch, fun m hm => hlog m (h.marks m hm)⟩

end Server

end Mtask.SocketServer
