import Mtask.Lib.Ownership
import Mtask.SocketServer.Steps

/-!
# Reserved slots

A slot is `SOCKET_TYPE_RESERVE` exactly while one thread, one command in the pipe or `report_accept`
has it. Two things can break this: a request to close the last socket of the slot, which makes the
slot `SOCKET_TYPE_HALFCLOSE` if something was queued on it, and the second write of
`SOCKET_TYPE_INVALID` when an opening has failed, if another thread was faster.
-/

namespace Mtask.SocketServer

open Ownership
open Function (update update_of_ne update_self)

/-- The slot that a thread has reserved. -/
def ReservePc.slot? (pc : ReservePc) : Option Slot :=
  pc.id?.map hashId

/-- The slot that a command is for. -/
def Command.slot? : Command → Option Slot
  | .request _ _ => none
  | .opening id _ => some (hashId id)

/-- The slot that `report_accept` has reserved. -/
def PollPc.slot? : PollPc → Option Slot
  | .accept _ _ pc => pc.slot?
  | _ => none

/-- The slots that the threads have reserved; `none` is the thread of `socket_server_poll`. -/
def holder (threads : ℕ → Option (Purpose × ReservePc)) (poll : PollPc) : Option ℕ → Option Slot
  | some t => (threads t).bind fun p => p.2.slot?
  | none => poll.slot?

section Holder

variable {threads : ℕ → Option (Purpose × ReservePc)} {poll : PollPc}

theorem holder_update (t : ℕ) (x : Option (Purpose × ReservePc)) :
    holder (update threads t x) poll (some t) = x.bind fun p => p.2.slot? := by
  rw [holder, update_self]

theorem sameBut_update (t : ℕ) (x : Option (Purpose × ReservePc)) :
    SameBut (some t) (holder threads poll) (holder (update threads t x) poll) := by
  intro a ha
  cases a with
  | none => rfl
  | some u =>
    have hut : u ≠ t := fun h => ha (congrArg some h)
    rw [holder, holder, update_of_ne hut]

theorem sameBut_poll (poll' : PollPc) :
    SameBut none (holder threads poll) (holder threads poll') := by
  intro a ha
  cases a with
  | none => exact absurd rfl ha
  | some t => rfl

theorem slot?_after (report : Option Report) : (PollPc.after report).slot? = none := by
  cases report with
  | none => rfl
  | some r =>
    rw [PollPc.after]
    split_ifs <;> rfl

end Holder

theorem Effect.reserve_iff {s : Socket} {out : Outcome} {sends halfCloses failsToStart : Prop}
    (h : Effect s sends halfCloses failsToStart out) (hhalf : ¬(s.type = .reserve ∧ halfCloses)) :
    out.socket.type = .reserve ↔ s.type = .reserve := by
  cases h with
  | sent h _ => rw [h.type]
  | queued _ _ hsame _ => rw [hsame.1]
  | started htype =>
    rcases htype with ⟨ht, rfl⟩ | ⟨ht, rfl⟩
    all_goals exact iff_of_false nofun (by rw [ht]; nofun)
  | notStarted _ htype =>
    refine iff_of_false nofun ?_
    rcases htype with ht | ht
    all_goals
      rw [ht]
      nofun
  | connected htype _ => exact iff_of_false nofun (by rw [htype]; nofun)
  | halfClosed hcloses _ _ _ => exact iff_of_false nofun fun ht => hhalf ⟨ht, hcloses⟩
  | closed h => exact iff_of_false (by rw [h.type]; nofun) h.live.2

theorem Opening.not_reserve {s : Socket} {out : Outcome} {id : Int32} {own : Option ℕ}
    (h : Opening s id own out) : out.socket.type ≠ .reserve := by
  cases h with
  | failed => nofun
  | opened _ htype _ _ _ =>
    rcases htype with ht | ht | ⟨ht | ht | ht, -⟩
    · rw [ht]; nofun
    · rw [ht]; nofun
    · rw [ht]; nofun
    · rw [ht.1]; nofun
    · rw [ht]; nofun

namespace Server

/-- The slots of `SOCKET_TYPE_RESERVE`. -/
def reserved (slot : Slot → Socket) : Set Slot :=
  {i | (slot i).type = .reserve}

section Update

variable {slot : Slot → Socket} {i : Slot} {s : Socket}

theorem reserved_update_congr (hs : s.type = .reserve ↔ (slot i).type = .reserve) :
    reserved (update slot i s) = reserved slot := by
  ext j
  by_cases hj : j = i
  · subst hj
    simp only [reserved, Set.mem_ofPred_eq, update_self, hs]
  · simp only [reserved, Set.mem_ofPred_eq, update_of_ne hj]

theorem reserved_update_insert (hs : s.type = .reserve) :
    reserved (update slot i s) = insert i (reserved slot) := by
  ext j
  by_cases hj : j = i
  · subst hj
    simp [reserved, hs]
  · simp [reserved, hj]

theorem reserved_update_diff (hs : s.type ≠ .reserve) :
    reserved (update slot i s) = reserved slot \ {i} := by
  ext j
  by_cases hj : j = i
  · subst hj
    simp [reserved, hs]
  · simp [reserved, hj]

end Update

/-- The slots that the commands in the pipe are for. -/
def inPipe (pipe : List Command) : List Slot :=
  pipe.filterMap Command.slot?

/-- Every reserved slot is in one place; and a slot that is about to be marked once more is not in
use. -/
structure Reserved (st : Server) : Prop where
  accounts : Accounts (holder st.threads st.poll) (inPipe st.pipe) (reserved st.slot)
  marked : ∀ i report, st.poll = .again i report → (st.slot i).type = .invalid

/-- The steps that do no harm to a reserved slot: no request to close its last socket leaves
something queued on it, and no thread reserves a slot that `open_socket` or `add_udp_socket` is
about to mark once more. -/
def KeepsReserved (st : Server) : Label → Prop
  | .ctrl κ => ∀ r gen pipe, st.pipe = .request r gen :: pipe →
      ¬((st.slot (hashId r.id)).type = .reserve ∧ r.HalfCloses (st.slot (hashId r.id)) κ)
  | .thread t => ∀ purpose i id, st.threads t = some (purpose, .cas i id) →
      ∀ report, st.poll ≠ .again (hashId id) report
  | _ => True

namespace Reserved

variable {st st' : Server}

theorem create (memory : Slot → Socket) : Reserved (.create memory) where
  accounts := by
    refine ⟨fun i => iff_of_false nofun ?_, nofun, .nil, nofun⟩
    rintro (⟨a, ha⟩ | hi)
    · cases a <;> cases ha
    · cases hi
  marked := nofun

theorem accounts_reserve {held held' : Option ℕ → Option Slot} {listed : List Slot}
    {a : Option ℕ} {pc : ReservePc} (h : Accounts held listed (reserved st.slot))
    (hpc : ∀ r, pc ≠ .done r) (ha : held a = pc.slot?) (ha' : held' a = (st.reserve pc).2.slot?)
    (hsame : SameBut a held held') :
    Accounts held' listed (reserved (st.reserve pc).1.slot) := by
  rcases reserve_cases st hpc with
    ⟨n, pc', heq, hnone, hnone'⟩ | ⟨i, id, rfl, hinvalid, heq⟩ | ⟨id, rfl, heq⟩ | ⟨id, rfl, heq⟩
  · rw [heq] at ha' ⊢
    have hheld : held' a = held a := by
      rw [ha, ha', ReservePc.slot?, ReservePc.slot?, hnone, hnone']
    exact h.congr (hsame.congr hheld) (.refl listed)
  · rw [heq] at ha' ⊢
    have hfree : hashId id ∉ reserved st.slot := by
      intro hreserve
      have hreserve : (st.slot (hashId id)).type = .reserve := hreserve
      rw [hinvalid] at hreserve
      cases hreserve
    have hclaim : reserved (st.claim id).slot = insert (hashId id) (reserved st.slot) :=
      reserved_update_insert rfl
    rw [hclaim]
    exact h.acquire hfree ha ha' hsame
  · rw [heq] at ha' ⊢
    have hset : reserved (st.setId id).slot = reserved st.slot := reserved_update_congr Iff.rfl
    rw [hset]
    exact h.congr (hsame.congr (ha'.trans ha.symm)) (.refl listed)
  · rw [heq] at ha' ⊢
    have hclear : reserved (st.clearFd id).slot = reserved st.slot := reserved_update_congr Iff.rfl
    rw [hclear]
    exact h.congr (hsame.congr (ha'.trans ha.symm)) (.refl listed)

theorem reserve_type {pc : ReservePc} (hpc : ∀ r, pc ≠ .done r) {i : Slot}
    (hcas : ∀ n id, pc = .cas n id → hashId id ≠ i) :
    ((st.reserve pc).1.slot i).type = (st.slot i).type := by
  have hsame {id : Int32} {s : Socket} (hs : s.type = (st.slot (hashId id)).type) :
      (update st.slot (hashId id) s i).type = (st.slot i).type := by
    by_cases hi : i = hashId id
    · rw [hi, update_self, hs]
    · rw [update_of_ne hi]
  rcases reserve_cases st hpc with
    ⟨n, pc', heq, -⟩ | ⟨n, id, hpc', -, heq⟩ | ⟨id, -, heq⟩ | ⟨id, -, heq⟩
  · rw [heq]
  · rw [heq]
    exact congrArg Socket.type (update_of_ne (hcas n id hpc').symm ..)
  · rw [heq]
    exact hsame rfl
  · rw [heq]
    exact hsame rfl

/-- Another command is in the pipe, which reserves no slot. -/
theorem inPipe_request (pipe : List Command) (r : Request) (gen : ℕ) :
    inPipe (pipe ++ [.request r gen]) = inPipe pipe := by
  rw [inPipe, List.filterMap_append]
  exact List.append_nil _

theorem inPipe_opening (pipe : List Command) (id : Int32) (purpose : Purpose) :
    (hashId id :: inPipe pipe).Perm (inPipe (pipe ++ [.opening id purpose])) := by
  have happend : inPipe (pipe ++ [.opening id purpose]) = inPipe pipe ++ [hashId id] := by
    rw [inPipe, List.filterMap_append]
    rfl
  rw [happend]
  exact (List.perm_append_singleton (hashId id) _).symm

theorem after_ne_again {report report' : Option Report} {i : Slot} :
    PollPc.after report ≠ .again i report' := by
  cases report with
  | none => nofun
  | some r =>
    rw [PollPc.after]
    split_ifs <;> nofun

/-- A step of `socket_server_poll` after which it has no slot, and had none before. -/
theorem of_poll (hslot : st.poll.slot? = none) {poll : PollPc}
    (hslot' : poll.slot? = none) (a : Option ℕ) :
    holder st.threads poll a = holder st.threads st.poll a :=
  (sameBut_poll poll).congr (hslot'.trans hslot.symm) a

/-- **One step of the server.** -/
theorem step (h : Reserved st) {a : Label} (hok : st.KeepsReserved a)
    (hs : st.step a = .ok st') : Reserved st' := by
  have hacc := h.accounts
  -- the thread of `socket_server_poll` goes on without a slot
  have hidle {poll : PollPc} (hslot : st.poll.slot? = none) (hslot' : poll.slot? = none) :
      Accounts (holder st.threads poll) (inPipe st.pipe) (reserved st.slot) :=
    hacc.congr (of_poll hslot hslot') (.refl _)
  cases step_cases hs with
  | call ht hfd =>
    refine ⟨hacc.congr ((sameBut_update _ _).congr ?_) (.refl _), h.marked⟩
    rw [holder_update, holder, ht]
    rfl
  | callFd ht hfd =>
    refine ⟨hacc.congr ((sameBut_update _ _).congr ?_) (.refl _), h.marked⟩
    rw [holder_update, holder, ht]
    rfl
  | @reserve t purpose pc ht hpc =>
    obtain ⟨hpipe, hthreads, hpoll, -⟩ := reserve_same st pc
    refine ⟨?_, fun i report hagain => ?_⟩
    · change Accounts (holder (update (st.reserve pc).1.threads t _)
        (st.reserve pc).1.poll)
        (inPipe (st.reserve pc).1.pipe) (reserved (st.reserve pc).1.slot)
      rw [hpipe, hthreads, hpoll]
      refine accounts_reserve hacc hpc ?_ (holder_update t _) (sameBut_update t _)
      rw [holder, ht]
      rfl
    · have hpoll' : st.poll = .again i report := hpoll.symm.trans hagain
      refine (reserve_type hpc fun n id hcas hi => ?_).trans (h.marked i report hpoll')
      subst hi
      exact hok purpose n id (hcas ▸ ht) report hpoll'
  | send ht =>
    refine ⟨(hacc.send ?_ (holder_update _ _) (sameBut_update _ _)).congr (fun _ => rfl)
      (inPipe_opening _ _ _), h.marked⟩
    rw [holder, ht]
    rfl
  | giveUp ht =>
    refine ⟨hacc.congr ((sameBut_update _ _).congr ?_) (.refl _), h.marked⟩
    rw [holder_update, holder, ht]
    rfl
  | request =>
    refine ⟨?_, h.marked⟩
    rw [inPipe_request]
    exact hacc
  | pass hpoll => exact ⟨hidle (by rw [hpoll]; rfl) rfl, nofun⟩
  | @command κ r gen pipe out hpoll hpipe hrun =>
    refine ⟨?_, fun i report hagain => absurd hagain after_ne_again⟩
    have hset := reserved_update_congr ((Request.effect hrun).reserve_iff (hok _ _ _ hpipe))
    have hidle := hidle (by rw [hpoll]; rfl) (slot?_after out.report)
    rw [hpipe] at hidle
    exact hset ▸ hidle
  | @opening κ id purpose pipe out hpoll hpipe hrun =>
    have hslot : (if purpose.marksAgain κ then PollPc.again (hashId id) out.report
        else .after out.report).slot? = none := by
      split_ifs
      · rfl
      · exact slot?_after _
    refine ⟨?_, fun i report hagain => ?_⟩
    · have hset : reserved (update st.slot (hashId id) out.socket) =
          reserved st.slot \ {hashId id} := reserved_update_diff (Purpose.opening hrun).not_reserve
      have hidle := hidle (by rw [hpoll]; rfl) hslot
      rw [hpipe] at hidle
      exact hset ▸ hidle.unlist
    · by_cases hmarks : purpose.marksAgain κ = true
      · have hagain : PollPc.again (hashId id) out.report = .again i report :=
          (if_pos hmarks).symm.trans hagain
        cases hagain
        exact (congrArg Socket.type (update_self ..)).trans (Purpose.marked hmarks hrun)
      · exact absurd ((if_neg hmarks).symm.trans hagain) after_ne_again
  | @wait entries hpoll hbatch =>
    refine ⟨hidle (by rw [hpoll]; rfl) ?_, fun i report hagain => ?_⟩
    · rw [fetch]
      dsimp only
      split_ifs <;> rfl
    · have hagain : (if entries = [] then PollPc.top else .events) = .again i report := hagain
      split_ifs at hagain
  | skip hpoll hbatch hslot => exact ⟨hidle (by rw [hpoll]; rfl) rfl, nofun⟩
  | accept hpoll hbatch hslot htype => exact ⟨hidle (by rw [hpoll]; rfl) rfl, nofun⟩
  | acceptFails hpoll hbatch hslot htype => exact ⟨hidle (by rw [hpoll]; rfl) rfl, nofun⟩
  | @entry κ e i batch out hpoll hbatch hslot hrun =>
    have he : Effect _ False False False _ := dispatch_effect hrun
    have hset : reserved (update st.slot i out.socket) = reserved st.slot :=
      reserved_update_congr (he.reserve_iff fun hn => hn.2)
    refine ⟨?_, fun j report hagain => ?_⟩
    · refine hset ▸ hidle (by rw [hpoll]; rfl) ?_
      split_ifs
      · rfl
      · exact slot?_after _
    · have hagain : (if (st.slot i).type = .connecting then PollPc.top
        else .after out.report) = .again j report := hagain
      split_ifs at hagain
      exact absurd hagain after_ne_again
  | @acceptReserve listener fd pc hpoll hpc =>
    obtain ⟨hpipe, hthreads, -⟩ := reserve_same st pc
    refine ⟨?_, nofun⟩
    change Accounts (holder (st.reserve pc).1.threads _) (inPipe (st.reserve pc).1.pipe)
      (reserved (st.reserve pc).1.slot)
    rw [hpipe, hthreads]
    refine accounts_reserve hacc hpc ?_ rfl (sameBut_poll _)
    rw [holder, hpoll]
    rfl
  | @accepted listener fd id out hpoll hrun =>
    have hset : reserved (update st.slot (hashId id) out.socket) =
        reserved st.slot \ {hashId id} :=
      reserved_update_diff (acceptSocket_opening hrun).not_reserve
    refine ⟨?_, fun i report hagain => absurd hagain after_ne_again⟩
    refine hset ▸ hacc.discard ?_ (by exact slot?_after out.report) (sameBut_poll _)
    rw [holder, hpoll]
    rfl
  | notAccepted hpoll => exact ⟨hidle (by rw [hpoll]; rfl) rfl, nofun⟩
  | @again i report hpoll =>
    have hinvalid := h.marked i report hpoll
    have hset : reserved (update st.slot i { st.slot i with type := .invalid }) =
        reserved st.slot := reserved_update_congr (by rw [hinvalid])
    refine ⟨hset ▸ hidle (by rw [hpoll]; rfl) (slot?_after _), fun j report' hagain => ?_⟩
    exact absurd hagain after_ne_again
  | purge hpoll => exact ⟨hidle (by rw [hpoll]; rfl) rfl, nofun⟩
  | purged hpoll => exact ⟨hidle (by rw [hpoll]; rfl) rfl, nofun⟩
  | refused => exact { h with }

end Reserved

end Server

end Mtask.SocketServer
