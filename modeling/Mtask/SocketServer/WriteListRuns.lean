import Mtask.SocketServer.WriteInterest
import Mtask.SocketServer.WriteListCalls

/-!
# The write lists in every run of the server

The server runs with the pointers of its write lists beside it: what a step calls on a slot is
called on the pointers of the slot, too. In every state reached the two lists of a slot are well
formed, `wb_size` is the number of unsent bytes of a socket, and a buffer that was handed to the
slot is queued or was freed, once.
-/

namespace Mtask.SocketServer

open IntrusiveQueue List
open Function (update update_of_ne update_self)
open Transition (Reaches)

/-! ### The server with its lists -/

/-- What a step calls on a slot. -/
def Server.call? (st : Server) : Label → Option (Slot × SlotOp)
  | .ctrl κ =>
    match st.pipe with
    | [] => none
    | .request r _ :: _ => some (hashId r.id, .request r κ)
    | .opening id purpose :: _ => some (hashId id, .opening id purpose st.nextFd κ)
  | .event κ =>
    match st.batch with
    | [] => none
    | e :: _ =>
      match e.slot with
      | none => none
      | some i => if (st.slot i).type = .listen then none else some (i, .entry e.read e.write κ)
  | .poll =>
    match st.poll with
    | .accept listener fd (.done (some id)) =>
      some (hashId id, .accept (st.slot listener) id fd)
    | _ => none
  | _ => none

/-- The slot that a thread is about to take. -/
def Server.taken? (st : Server) : Label → Option Slot
  | .thread t =>
    match st.threads t with
    | some (_, .cas _ id) => some (hashId id)
    | _ => none
  | _ => none

/-- The slot that is about to be marked `SOCKET_TYPE_INVALID` once more. -/
def PollPc.again? : PollPc → Option Slot
  | .again i _ => some i
  | _ => none

/-- The server, the pointers of its write lists, and the buffers that were handed to each slot. -/
structure ListServer where
  server : Server
  lists : Slot → WriteLists
  given : Slot → List Freed

namespace ListServer

/-- `socket_server_create` -/
def create (memory : Slot → Socket) (nodes : Slot → Nodes) : ListServer where
  server := .create memory
  lists i := ⟨nodes i, .clear, .clear, (memory i).wbSize, (memory i).freed⟩
  given i := (memory i).freed

/-- A step of the server, and of the pointers of the slot on which it calls something. -/
def step (m : ListServer) (a : Label) : Except ListFault ListServer :=
  match m.server.step a with
  | .error e => .error (.assert e)
  | .ok server =>
    match m.server.call? a with
    | none => .ok { m with server }
    | some (i, op) =>
      match op.runLists (m.lists i) (m.server.slot i) with
      | .error e => .error e
      | .ok w =>
        .ok {
          server
          lists := update m.lists i w
          given := update m.given i (m.given i ++ op.given) }

/-- The steps that do no harm to the lists: the calls on slots are permitted, and no thread takes a
slot that is about to be marked `SOCKET_TYPE_INVALID` once more. -/
structure Permits (m : ListServer) (a : Label) : Prop where
  call : ∀ x ∈ m.server.call? a, x.2.Permits (m.server.slot x.1)
  thread : m.server.taken? a = none ∨ m.server.poll.again? ≠ m.server.taken? a

instance (m : ListServer) (a : Label) : Decidable (m.Permits a) :=
  decidable_of_iff
    ((∀ x ∈ m.server.call? a, x.2.Permits (m.server.slot x.1)) ∧
      (m.server.taken? a = none ∨ m.server.poll.again? ≠ m.server.taken? a))
    ⟨fun ⟨hcall, hthread⟩ => ⟨hcall, hthread⟩, fun h => ⟨h.call, h.thread⟩⟩

end ListServer

/-- What holds of the pointers of a slot, which run through the nodes `as`. -/
structure WriteLists.WellKept (w : WriteLists) (type : SocketType) (given : List Freed)
    (as : Priority → List ℕ) : Prop where
  /-- `head` is `NULL` for an empty list only, and `tail` is the last node -/
  linked : ∀ pr, Linked w.nodes.next (w.list pr).head (w.list pr).tail (as pr)
  apart : (as .high).Disjoint (as .low)
  wbSize : type ≠ .invalid → type ≠ .reserve → w.wbSize =
    ((as .high ++ as .low).map fun a => (w.nodes.buffer a).bytes.length).sum
  /-- the test of `check_wb_list` -/
  clear : type = .invalid ∨ type = .reserve → w.high.isClear = true ∧ w.low.isClear = true
  freed : (w.freed ++ (as .high ++ as .low).map fun a => (w.nodes.buffer a).free).Perm given
  closed : type ≠ .reserve → ∃ w', w.forceClose type = .ok w' ∧ w'.freed.Perm given

/-! ### One step -/

/-- A step that calls nothing on a slot leaves its lists. -/
structure Untouched (s s' : Socket) : Prop where
  type : s'.type = s.type ∨ s.type = .invalid ∧ s'.type = .reserve
  high : s'.high = s.high
  low : s'.low = s.low
  wbSize : s'.wbSize = s.wbSize
  freed : s'.freed = s.freed

theorem Untouched.refl (s : Socket) : Untouched s s :=
  ⟨Or.inl rfl, rfl, rfl, rfl, rfl⟩

theorem Represents.untouched {w : WriteLists} {s s' : Socket} {as : Priority → List ℕ}
    (h : Represents w s as) (hs : Untouched s s') : Represents w s' as :=
  h.congr (fun pr => by
    cases pr
    · exact hs.high
    · exact hs.low) hs.wbSize hs.freed

theorem Balanced.untouched {s s' : Socket} {given : List Freed} (h : Balanced s given)
    (hs : Untouched s s') : Balanced s' given := by
  rcases hs.type with htype | ⟨hinvalid, hreserve⟩
  · exact h.congr htype hs.high hs.low hs.wbSize hs.freed
  · have hempty : s.Empty := h.idle (hinvalid ▸ not_queues_invalid)
    refine .of_empty ⟨hs.high.trans hempty.1, hs.low.trans hempty.2⟩
      (fun _ hne => absurd hreserve hne) ?_
    rw [hs.freed]
    exact h.freed_perm hempty

namespace Server

variable {st st' : Server}

theorem untouched_update {i : Slot} {s : Socket} (hs : Untouched (st.slot i) s) (j : Slot) :
    Untouched (st.slot j) (update st.slot i s j) := by
  by_cases hj : j = i
  · subst hj
    rwa [update_self]
  · rw [update_of_ne hj]
    exact .refl _

theorem untouched_reserve {pc : ReservePc} (hpc : ∀ r, pc ≠ .done r) (i : Slot) :
    Untouched (st.slot i) ((st.reserve pc).1.slot i) := by
  rcases reserve_cases st hpc with
    ⟨n, pc', heq, -⟩ | ⟨-, id, -, hinvalid, heq⟩ | ⟨id, -, heq⟩ | ⟨id, -, heq⟩
  · rw [heq]
    exact .refl _
  · have hclaim : Untouched (st.slot (hashId id)) { st.slot (hashId id) with type := .reserve } :=
      ⟨Or.inr ⟨hinvalid, rfl⟩, rfl, rfl, rfl, rfl⟩
    rw [heq]
    exact untouched_update hclaim i
  · have hid : Untouched (st.slot (hashId id)) { st.slot (hashId id) with id } :=
      ⟨Or.inl rfl, rfl, rfl, rfl, rfl⟩
    rw [heq]
    exact untouched_update hid i
  · have hfd : Untouched (st.slot (hashId id)) { st.slot (hashId id) with fd := none } :=
      ⟨Or.inl rfl, rfl, rfl, rfl, rfl⟩
    rw [heq]
    exact untouched_update hfd i

/-- What a step does to the slots. -/
inductive Calls (st st' : Server) (a : Label) : Prop
  | call {i : Slot} {op : SlotOp} {out : Outcome} (hcall : st.call? a = some (i, op))
      (hrun : op.run (st.slot i) = .ok out)
      (hslot : st'.slot = update st.slot i out.socket)
  | none (hcall : st.call? a = none) (hslot : ∀ i, Untouched (st.slot i) (st'.slot i))

/-- **A step calls at most one function on a slot.** -/
theorem step_calls (hr : Reserved st) {a : Label} (h : st.step a = .ok st') : Calls st st' a := by
  cases step_cases h with
  | @command κ r gen pipe out hpoll hpipe hrun =>
    have hcall : st.call? (.ctrl κ) = some (hashId r.id, .request r κ) := by rw [call?, hpipe]
    exact .call hcall hrun rfl
  | @opening κ id purpose pipe out hpoll hpipe hrun =>
    have hcall : st.call? (.ctrl κ) = some (hashId id, .opening id purpose st.nextFd κ) := by
      rw [call?, hpipe]
    exact .call hcall hrun rfl
  | @entry κ e i batch out hpoll hbatch hslot hrun =>
    by_cases hlisten : (st.slot i).type = .listen
    · refine .none (by simp only [call?, hbatch, hslot, if_pos hlisten]) (untouched_update ?_)
      rw [Socket.dispatch, hlisten] at hrun
      cases hrun
      exact .refl _
    · have hcall : st.call? (.event κ) = some (i, .entry e.read e.write κ) := by
        simp only [call?, hbatch, hslot, if_neg hlisten]
      exact .call hcall hrun rfl
  | @accepted listener fd id out hpoll hrun =>
    have hcall : st.call? .poll = some (hashId id, .accept (st.slot listener) id fd) := by
      rw [call?, hpoll]
    exact .call hcall hrun rfl
  | again hpoll =>
    refine .none (by rw [call?, hpoll]) (untouched_update ?_)
    exact ⟨Or.inl (hr.marked _ _ hpoll).symm, rfl, rfl, rfl, rfl⟩
  | reserve ht hpc => exact .none rfl (untouched_reserve hpc)
  | acceptReserve hpoll hpc =>
    refine .none ?_ (untouched_reserve hpc)
    rw [call?, hpoll]
    split
    · next heq =>
      cases heq
      exact absurd rfl (hpc _)
    · rfl
  | call | callFd | refused | send | giveUp | request | pass | wait =>
    exact .none rfl fun _ => .refl _
  | skip hpoll hbatch hslot => exact .none (by simp only [call?, hbatch, hslot]) fun _ => .refl _
  | accept hpoll hbatch hslot htype =>
    exact .none (by simp only [call?, hbatch, hslot, if_pos htype]) fun _ => .refl _
  | acceptFails hpoll hbatch hslot htype =>
    exact .none (by simp only [call?, hbatch, hslot, if_pos htype]) fun _ => .refl _
  | notAccepted hpoll => exact .none (by rw [call?, hpoll]) fun _ => .refl _
  | purge hpoll => exact .none (by rw [call?, hpoll]) fun _ => .refl _
  | purged hpoll => exact .none (by rw [call?, hpoll]) fun _ => .refl _

theorem Reserved.opens (hr : Reserved st) {a : Label} {i : Slot} {op : SlotOp}
    (hcall : st.call? a = some (i, op)) (hopens : op.Opens) : (st.slot i).type = .reserve := by
  rw [call?.eq_def] at hcall
  split at hcall
  · split at hcall
    · cases hcall
    · cases hcall
      exact hopens.elim
    · next id purpose pipe hpipe =>
      cases hcall
      refine hr.accounts.mem_of_listed (r := hashId id) ?_
      rw [hpipe]
      exact mem_cons_self
  · split at hcall
    · cases hcall
    · split at hcall
      · cases hcall
      · split_ifs at hcall
        cases hcall
        exact hopens.elim
  · split at hcall
    · next listener fd id hpoll =>
      cases hcall
      refine hr.accounts.mem_of_held (a := none) (r := hashId id) ?_
      rw [holder, hpoll]
      rfl
    · cases hcall
  · cases hcall

/-- **A step fails if it cannot be made, or in the function that it calls on a slot.** -/
theorem step_error {a : Label} {e : Fault} (h : st.step a = .error e) :
    e = .notEnabled ∨
      ∃ i op, st.call? a = some (i, op) ∧ op.run (st.slot i) = .error e := by
  cases step_fails h with
  | notEnabled => exact Or.inl rfl
  | command hpipe hrun => exact Or.inr ⟨_, .request _ _, by rw [call?, hpipe], hrun⟩
  | opening hpipe hrun => exact Or.inr ⟨_, .opening _ _ _ _, by rw [call?, hpipe], hrun⟩
  | @entry κ x i batch e hbatch hslot hrun =>
    have hlisten : (st.slot i).type ≠ .listen := fun hlisten => by
      rw [Socket.dispatch, hlisten] at hrun
      cases hrun
    refine Or.inr ⟨i, .entry x.read x.write κ, ?_, hrun⟩
    simp only [call?, hbatch, hslot, if_neg hlisten]
  | accepted hpoll hrun => exact Or.inr ⟨_, .accept _ _ _, by rw [call?, hpoll], hrun⟩

end Server

namespace ListServer

/-- What holds of the server and of its lists. -/
structure Kept (m : ListServer) : Prop where
  reserved : m.server.Reserved
  represents : ∀ i, ∃ as, Represents (m.lists i) (m.server.slot i) as
  balanced : ∀ i, Balanced (m.server.slot i) (m.given i)

namespace Kept

variable {m m' : ListServer} {a : Label}

theorem create (memory : Slot → Socket) (nodes : Slot → Nodes) :
    Kept (.create memory nodes) where
  reserved := .create memory
  represents i := by
    refine ⟨fun _ => [], fun pr => ?_, nofun, rfl, rfl⟩
    cases pr <;> exact Holds.clear (nodes i)
  balanced i := .of_empty ⟨rfl, rfl⟩ (fun hinvalid => absurd rfl hinvalid) (.refl _)

theorem keepsReserved (h : m.Kept) (hok : m.Permits a) : m.server.KeepsReserved a := by
  cases a with
  | thread t =>
    intro purpose n id ht report hagain
    have htaken : m.server.taken? (.thread t) = some (hashId id) := by rw [Server.taken?, ht]
    rcases hok.thread with hnone | hne
    · exact Option.some_ne_none _ (htaken.symm.trans hnone)
    · exact hne (htaken ▸ hagain ▸ rfl)
  | ctrl κ =>
    rintro r gen pipe - ⟨hreserve, hcloses⟩
    cases r with
    | close id opaqueId =>
      exact hcloses.2.1 ((h.balanced _).idle (hreserve ▸ not_queues_reserve))
    | start | exit | send | sendUdp | setUdp | setopt => exact hcloses.elim
  | call | refused | request | pass | wait | event | poll => exact trivial

/-- **One step of the server.** -/
theorem step (h : m.Kept) (hok : m.Permits a) (hs : m.step a = .ok m') : m'.Kept := by
  rw [ListServer.step] at hs
  cases hserver : m.server.step a with
  | error e =>
    rw [hserver] at hs
    cases hs
  | ok server =>
  rw [hserver] at hs
  dsimp only at hs
  have hreserved := h.reserved.step (h.keepsReserved hok) hserver
  cases Server.step_calls h.reserved hserver with
  | none hcall hslot =>
    rw [hcall] at hs
    cases hs
    refine ⟨hreserved, fun i => ?_, fun i => (h.balanced i).untouched (hslot i)⟩
    obtain ⟨as, has⟩ := h.represents i
    exact ⟨as, has.untouched (hslot i)⟩
  | @call i op out hcall hrun hslot =>
    rw [hcall] at hs
    dsimp only at hs
    obtain ⟨as, has⟩ := h.represents i
    have hsim := has.run op
    rw [hrun] at hsim
    generalize op.runLists (m.lists i) (m.server.slot i) = r at hsim hs
    cases hsim with
    | @ok _ w as' hw =>
      cases hs
      have hbalanced := (h.balanced i).run (hok.call (i, op) hcall) (h.reserved.opens hcall) hrun
      refine ⟨hreserved, fun j => ?_, fun j => ?_⟩
      · dsimp only
        by_cases hj : j = i
        · subst hj
          rw [hslot, update_self, update_self]
          exact ⟨as', hw⟩
        · rw [hslot, update_of_ne hj, update_of_ne hj]
          exact h.represents j
      · dsimp only
        by_cases hj : j = i
        · subst hj
          rw [hslot, update_self, update_self]
          exact hbalanced
        · rw [hslot, update_of_ne hj, update_of_ne hj]
          exact h.balanced j

/-- The pointers are in order whenever the lists are. -/
theorem step_error (h : m.Kept) (hok : m.Permits a) {e : ListFault} (hs : m.step a = .error e) :
    e = .assert .notEnabled ∨ e = .assert .closeReserve := by
  rw [ListServer.step] at hs
  cases hserver : m.server.step a with
  | error e' =>
    rw [hserver] at hs
    cases hs
    rcases Server.step_error hserver with rfl | ⟨i, op, hcall, hrun⟩
    · exact Or.inl rfl
    · rw [(h.balanced i).run_error (hok.call (i, op) hcall) (h.reserved.opens hcall) hrun]
      exact Or.inr rfl
  | ok server =>
    rw [hserver] at hs
    dsimp only at hs
    cases Server.step_calls h.reserved hserver with
    | none hcall hslot =>
      rw [hcall] at hs
      cases hs
    | @call i op out hcall hrun hslot =>
      rw [hcall] at hs
      dsimp only at hs
      obtain ⟨as, has⟩ := h.represents i
      have hsim := has.run op
      rw [hrun] at hsim
      generalize op.runLists (m.lists i) (m.server.slot i) = r at hsim hs
      cases hsim with
      | ok hw => cases hs

theorem wellKept (h : m.Kept) (i : Slot) :
    ∃ as, (m.lists i).WellKept (m.server.slot i).type (m.given i) as := by
  obtain ⟨as, has⟩ := h.represents i
  have hbalanced := h.balanced i
  have hhigh : (as .high).map (m.lists i).nodes.buffer = (m.server.slot i).high :=
    (has.holds .high).buffers
  have hlow : (as .low).map (m.lists i).nodes.buffer = (m.server.slot i).low :=
    (has.holds .low).buffers
  have hlists : (m.server.slot i).high ++ (m.server.slot i).low =
      (as .high ++ as .low).map (m.lists i).nodes.buffer := by
    rw [map_append, hhigh, hlow]
  have hqueued : (m.lists i).freed ++ ((m.server.slot i).high ++ (m.server.slot i).low).map
      WriteBuffer.free = (m.server.slot i).buffers := by
    rw [has.freed, Socket.buffers]
  refine ⟨as, fun pr => (has.holds pr).linked, has.apart .high .low (by simp), ?_, fun hidle => ?_, ?_,
    fun hreserve => ?_⟩
  · intro hinvalid hreserve
    rw [has.wbSize, hbalanced.wbSize hinvalid hreserve, ← hhigh, ← hlow, map_append,
      sum_append, Socket.bytesOf, Socket.bytesOf, map_map, map_map, Int.natCast_add]
    rfl
  · have hempty : (m.server.slot i).Empty := hbalanced.idle (by
      rcases hidle with ht | ht
      · exact ht ▸ not_queues_invalid
      · exact ht ▸ not_queues_reserve)
    have hclear (pr : Priority) (hnil : (m.server.slot i).list pr = []) :
        ((m.lists i).list pr).isClear = true :=
      Bool.not_eq_false _ ▸ fun hfalse => (has.holds pr).isClear_eq_false_iff.mp hfalse hnil
    exact ⟨hclear .high hempty.1, hclear .low hempty.2⟩
  · rw [← Function.comp_def, ← map_map, ← hlists, hqueued]
    exact hbalanced.buffers
  · have hclose := has.forceClose .close
    generalize hr : (m.server.slot i).forceClose .close = r at hclose
    generalize (m.lists i).forceClose (m.server.slot i).type = r' at hclose ⊢
    cases hclose with
    | error e => exact absurd (forceClose_fault hr).2 hreserve
    | @ok out w' _ hw' =>
      refine ⟨w', rfl, ?_⟩
      obtain ⟨hclosed, hempty⟩ := hbalanced.closed hr
      rw [hw'.freed]
      exact hclosed.freed_perm hempty

end Kept

end ListServer

/-- No node is allocated. -/
def noNodes (_ : Slot) : Nodes where
  next _ := none
  buffer _ := ⟨0, 0, [], false, []⟩
  allocated := 0

end Mtask.SocketServer
