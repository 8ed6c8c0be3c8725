import Mtask.SocketServer.Effects

/-!
# The steps of the socket server

What one step of the server does, once for all invariants: `Server.Step` lists the steps with the
states that they lead to.
-/

namespace Mtask.SocketServer

open Function (update)

/-- The id that a thread has reserved, from the exchange on. -/
def ReservePc.id? : ReservePc → Option Int32
  | .writeId id => some id
  | .writeFd id => some id
  | .done id => id
  | _ => none

namespace Server

/-- The exchange succeeds. -/
def claim (st : Server) (id : Int32) : Server :=
  { st with
    slot := update st.slot (hashId id) { st.slot (hashId id) with type := .reserve }
    gen := update st.gen (hashId id) st.issued
    issued := st.issued + 1 }

/-- The slot is given the id. -/
def setId (st : Server) (id : Int32) : Server :=
  { st with slot := update st.slot (hashId id) { st.slot (hashId id) with id } }

/-- The slot loses its descriptor. -/
def clearFd (st : Server) (id : Int32) : Server :=
  { st with slot := update st.slot (hashId id) { st.slot (hashId id) with fd := none } }

variable {st st' : Server}

/-- **The steps of `reserve_id`.** Only the counter changes, or the slot is taken, or it is
written to. -/
theorem reserve_cases (st : Server) {pc : ReservePc} (hpc : ∀ r, pc ≠ .done r) :
    (∃ n pc', st.reserve pc = ({ st with allocId := n }, pc') ∧ pc.id? = none ∧ pc'.id? = none) ∨
      (∃ i id, pc = .cas i id ∧ (st.slot (hashId id)).type = .invalid ∧
        st.reserve pc = (st.claim id, .writeId id)) ∨
      (∃ id, pc = .writeId id ∧ st.reserve pc = (st.setId id, .writeFd id)) ∨
      ∃ id, pc = .writeFd id ∧ st.reserve pc = (st.clearFd id, .done (some id)) := by
  have hnext (i : ℕ) : (nextRound i).id? = none := by
    rw [nextRound]
    split_ifs <;> rfl
  cases pc with
  | inc i =>
    refine Or.inl ⟨_, _, rfl, rfl, ?_⟩
    split_ifs <;> rfl
  | mask i => exact Or.inl ⟨_, _, rfl, rfl, rfl⟩
  | check i id =>
    refine Or.inl ⟨st.allocId, _, rfl, rfl, ?_⟩
    split_ifs
    · rfl
    · exact hnext i
  | cas i id =>
    by_cases hs : (st.slot (hashId id)).type = .invalid
    · refine Or.inr (Or.inl ⟨i, id, rfl, hs, ?_⟩)
      simp only [reserve, if_pos hs]
      rfl
    · refine Or.inl ⟨st.allocId, .inc i, ?_, rfl, rfl⟩
      simp only [reserve, if_neg hs]
  | writeId id => exact Or.inr (Or.inr (Or.inl ⟨id, rfl, rfl⟩))
  | writeFd id => exact Or.inr (Or.inr (Or.inr ⟨id, rfl, rfl⟩))
  | done r => exact absurd rfl (hpc r)

theorem reserve_same (st : Server) (pc : ReservePc) :
    (st.reserve pc).1.pipe = st.pipe ∧ (st.reserve pc).1.threads = st.threads ∧
      (st.reserve pc).1.poll = st.poll ∧ (st.reserve pc).1.nextFd = st.nextFd ∧
      (st.reserve pc).1.closed = st.closed := by
  cases pc with
  | cas i id =>
    rw [reserve]
    split_ifs <;> exact ⟨rfl, rfl, rfl, rfl, rfl⟩
  | inc i | mask i | check i id | writeId id | writeFd id | done r =>
    exact ⟨rfl, rfl, rfl, rfl, rfl⟩

/-- The steps of the server. -/
inductive Step (st : Server) : Label → Server → Prop
  | call {t : ℕ} {purpose : Purpose} (ht : st.threads t = none) (hfd : purpose.fd? = none) :
      Step st (.call t purpose)
        { st with threads := update st.threads t (some (purpose, .inc 0)) }
  | callFd {t : ℕ} {purpose : Purpose} (ht : st.threads t = none)
      (hfd : purpose.fd? = some st.nextFd) :
      Step st (.call t purpose)
        { st with
          nextFd := st.nextFd + 1
          threads := update st.threads t (some (purpose, .inc 0)) }
  | refused : Step st .refused { st.closeFd st.nextFd with nextFd := st.nextFd + 1 }
  | reserve {t : ℕ} {purpose : Purpose} {pc : ReservePc} (ht : st.threads t = some (purpose, pc))
      (hpc : ∀ r, pc ≠ .done r) :
      Step st (.thread t)
        { (st.reserve pc).1 with
          threads := update (st.reserve pc).1.threads t
            (some (purpose, (st.reserve pc).2)) }
  | send {t : ℕ} {purpose : Purpose} {id : Int32}
      (ht : st.threads t = some (purpose, .done (some id))) :
      Step st (.thread t)
        { st with
          pipe := st.pipe ++ [.opening id purpose]
          threads := update st.threads t none }
  | giveUp {t : ℕ} {purpose : Purpose} (ht : st.threads t = some (purpose, .done none)) :
      Step st (.thread t)
        { st.closeFd purpose.fd? with threads := update st.threads t none }
  | request {r : Request} {gen : ℕ} :
      Step st (.request r gen) { st with pipe := st.pipe ++ [.request r gen] }
  | pass (hpoll : st.poll = .top) :
      Step st .pass { st with checkctrl := false, poll := .events }
  | command {κ : Kernel} {r : Request} {gen : ℕ} {pipe : List Command} {out : Outcome}
      (hpoll : st.poll = .top) (hpipe : st.pipe = .request r gen :: pipe)
      (hrun : r.run (st.slot (hashId r.id)) κ = .ok out) :
      Step st (.ctrl κ) { st.commit (hashId r.id) out with pipe, poll := .after out.report }
  | opening {κ : Kernel} {id : Int32} {purpose : Purpose} {pipe : List Command} {out : Outcome}
      (hpoll : st.poll = .top) (hpipe : st.pipe = .opening id purpose :: pipe)
      (hrun : purpose.run (st.slot (hashId id)) id st.nextFd κ = .ok out) :
      Step st (.ctrl κ)
        { st.commit (hashId id) out with
          pipe
          nextFd := st.nextFd + purpose.opens κ
          poll := if purpose.marksAgain κ then .again (hashId id) out.report
            else .after out.report }
  | wait {entries : List (Option Slot × Bool × Bool)} (hpoll : st.poll = .events)
      (hbatch : st.batch = []) :
      Step st (.wait entries) (st.fetch entries)
  | skip {κ : Kernel} {e : Entry} {batch : List Entry} (hpoll : st.poll = .events)
      (hbatch : st.batch = e :: batch) (hslot : e.slot = none) :
      Step st (.event κ) { st with batch, poll := .top }
  | accept {κ : Kernel} {e : Entry} {i : Slot} {batch : List Entry} (hpoll : st.poll = .events)
      (hbatch : st.batch = e :: batch) (hslot : e.slot = some i)
      (htype : (st.slot i).type = .listen) :
      Step st (.event κ)
        { st.note e i with
          batch
          nextFd := st.nextFd + 1
          poll := .accept i st.nextFd (.inc 0) }
  | acceptFails {κ : Kernel} {e : Entry} {i : Slot} {batch : List Entry} (hpoll : st.poll = .events)
      (hbatch : st.batch = e :: batch) (hslot : e.slot = some i)
      (htype : (st.slot i).type = .listen) :
      Step st (.event κ) { st.note e i with batch, poll := .top }
  | entry {κ : Kernel} {e : Entry} {i : Slot} {batch : List Entry} {out : Outcome}
      (hpoll : st.poll = .events) (hbatch : st.batch = e :: batch) (hslot : e.slot = some i)
      (hrun : (st.slot i).dispatch e.read e.write κ = .ok out) :
      Step st (.event κ)
        { (st.note e i).commit i out with
          batch := putBack (st.slot i) e out.report batch
          poll := if (st.slot i).type = .connecting then .top else .after out.report }
  | acceptReserve {listener : Slot} {fd : ℕ} {pc : ReservePc}
      (hpoll : st.poll = .accept listener fd pc) (hpc : ∀ r, pc ≠ .done r) :
      Step st .poll
        { (st.reserve pc).1 with poll := .accept listener fd (st.reserve pc).2 }
  | accepted {listener : Slot} {fd : ℕ} {id : Int32} {out : Outcome}
      (hpoll : st.poll = .accept listener fd (.done (some id)))
      (hrun : acceptSocket (st.slot (hashId id)) (st.slot listener) id fd = .ok out) :
      Step st .poll { st.commit (hashId id) out with poll := .after out.report }
  | notAccepted {listener : Slot} {fd : ℕ} (hpoll : st.poll = .accept listener fd (.done none)) :
      Step st .poll { st.closeFd fd with poll := .top }
  | again {i : Slot} {report : Option Report} (hpoll : st.poll = .again i report) :
      Step st .poll
        { st.commit i ⟨report, { st.slot i with type := .invalid }, none⟩ with
          poll := .after report }
  | purge {id : Int32} {j : ℕ} (hpoll : st.poll = .purge id j) :
      Step st .poll
        { st with batch := st.batch.modify j (st.clearEntry id), poll := .purge id (j + 1) }
  | purged {id : Int32} {j : ℕ} (hpoll : st.poll = .purge id j) :
      Step st .poll { st with poll := .top }

theorem thread_cases {t : ℕ} (h : st.thread t = .ok st') : Step st (.thread t) st' := by
  rw [thread] at h
  cases ht : st.threads t with
  | none =>
    rw [ht] at h
    cases h
  | some p =>
    obtain ⟨purpose, pc⟩ := p
    rw [ht] at h
    cases pc with
    | done r =>
      cases r with
      | none =>
        cases h
        exact .giveUp ht
      | some id =>
        cases h
        exact .send ht
    | inc | mask | check | cas | writeId | writeFd =>
      cases h
      exact .reserve ht nofun

variable {κ : Kernel}

theorem ctrl_cases (hpoll : st.poll = .top) (h : st.ctrl κ = .ok st') : Step st (.ctrl κ) st' := by
  rw [ctrl] at h
  split at h
  · cases h
  · split at h
    · cases h
    · cases h
      exact .command hpoll ‹_› ‹_›
  · split at h
    · cases h
    · cases h
      exact .opening hpoll ‹_› ‹_›

theorem event_cases (hpoll : st.poll = .events) (h : st.event κ = .ok st') :
    Step st (.event κ) st' := by
  rw [event] at h
  split at h
  · cases h
  · next e batch hbatch =>
    split at h
    · cases h
      exact .skip hpoll hbatch ‹_›
    · next i hslot =>
      rw [react] at h
      dsimp only at h
      by_cases hlisten : (st.slot i).type = .listen
      · rw [if_pos hlisten] at h
        split_ifs at h
        · cases h
          exact .accept hpoll hbatch hslot hlisten
        · cases h
          exact .acceptFails hpoll hbatch hslot hlisten
      · rw [if_neg hlisten] at h
        split at h
        · cases h
        · cases h
          exact .entry hpoll hbatch hslot ‹_›

theorem pollStep_cases (h : st.pollStep = .ok st') : Step st .poll st' := by
  rw [pollStep] at h
  cases hpoll : st.poll with
  | top | events =>
    rw [hpoll] at h
    cases h
  | accept listener fd pc =>
    rw [hpoll] at h
    cases pc with
    | done r =>
      cases r with
      | none =>
        cases h
        exact .notAccepted hpoll
      | some id =>
        dsimp only at h
        split at h
        · cases h
        · cases h
          exact .accepted hpoll ‹_›
    | inc | mask | check | cas | writeId | writeFd =>
      cases h
      exact .acceptReserve hpoll nofun
  | again i report =>
    rw [hpoll] at h
    cases h
    exact .again hpoll
  | purge id j =>
    rw [hpoll] at h
    dsimp only at h
    split_ifs at h
    · cases h
      exact .purge hpoll
    · cases h
      exact .purged hpoll

variable {a : Label}

/-- **There are no other steps.** -/
theorem step_cases (h : st.step a = .ok st') : Step st a st' := by
  cases a with
  | call t purpose =>
    rw [step] at h
    split_ifs at h with ht
    split at h
    · cases h
      exact .call (not_not.mp ht) ‹_›
    · next fd hfd =>
      split_ifs at h with hfresh
      subst hfresh
      cases h
      exact .callFd (not_not.mp ht) hfd
  | refused =>
    cases h
    exact .refused
  | thread t => exact thread_cases h
  | request r gen =>
    cases h
    exact .request
  | pass =>
    rw [step] at h
    split_ifs at h with hpoll
    cases h
    exact .pass hpoll
  | ctrl κ =>
    rw [step] at h
    split_ifs at h with hpoll
    exact ctrl_cases hpoll.1 h
  | wait entries =>
    rw [step] at h
    split_ifs at h with hpoll
    cases h
    exact .wait hpoll.1 hpoll.2.1
  | event κ =>
    rw [step] at h
    split_ifs at h with hpoll
    exact event_cases hpoll h
  | poll => exact pollStep_cases h

/-- The steps that fail: an assertion of a request, of an opening, of an entry or of the acceptance
of a connection, or the step cannot be made. -/
inductive Fails (st : Server) : Label → Fault → Prop
  | notEnabled {a : Label} : Fails st a .notEnabled
  | command {κ : Kernel} {r : Request} {gen : ℕ} {pipe : List Command} {e : Fault}
      (hpipe : st.pipe = .request r gen :: pipe)
      (hrun : r.run (st.slot (hashId r.id)) κ = .error e) : Fails st (.ctrl κ) e
  | opening {κ : Kernel} {id : Int32} {purpose : Purpose} {pipe : List Command} {e : Fault}
      (hpipe : st.pipe = .opening id purpose :: pipe)
      (hrun : purpose.run (st.slot (hashId id)) id st.nextFd κ = .error e) : Fails st (.ctrl κ) e
  | entry {κ : Kernel} {x : Entry} {i : Slot} {batch : List Entry} {e : Fault}
      (hbatch : st.batch = x :: batch) (hslot : x.slot = some i)
      (hrun : (st.slot i).dispatch x.read x.write κ = .error e) : Fails st (.event κ) e
  | accepted {listener : Slot} {fd : ℕ} {id : Int32} {e : Fault}
      (hpoll : st.poll = .accept listener fd (.done (some id)))
      (hrun : acceptSocket (st.slot (hashId id)) (st.slot listener) id fd = .error e) :
      Fails st .poll e

variable {e : Fault}

theorem ctrl_fails (h : st.ctrl κ = .error e) : Fails st (.ctrl κ) e := by
  rw [ctrl] at h
  split at h
  · cases h
    exact .notEnabled
  · split at h
    · cases h
      exact .command ‹_› ‹_›
    · cases h
  · split at h
    · cases h
      exact .opening ‹_› ‹_›
    · cases h

theorem event_fails (h : st.event κ = .error e) : Fails st (.event κ) e := by
  rw [event] at h
  split at h
  · cases h
    exact .notEnabled
  · next x batch hbatch =>
    split at h
    · cases h
    · next i hslot =>
      rw [react] at h
      dsimp only at h
      by_cases hlisten : (st.slot i).type = .listen
      · rw [if_pos hlisten] at h
        split_ifs at h
      · rw [if_neg hlisten] at h
        split at h
        · cases h
          exact .entry hbatch hslot ‹_›
        · cases h

/-- **There are no other failures.** -/
theorem step_fails (h : st.step a = .error e) : Fails st a e := by
  cases a with
  | call t purpose =>
    rw [step] at h
    split_ifs at h with ht
    · cases h
      exact .notEnabled
    · split at h
      · cases h
      · split_ifs at h
        cases h
        exact .notEnabled
  | refused => cases h
  | thread t =>
    rw [step, thread] at h
    cases ht : st.threads t with
    | none =>
      rw [ht] at h
      cases h
      exact .notEnabled
    | some p =>
      obtain ⟨purpose, pc⟩ := p
      rw [ht] at h
      cases pc with
      | done r => cases r <;> cases h
      | inc | mask | check | cas | writeId | writeFd => cases h
  | request r gen => cases h
  | pass =>
    rw [step] at h
    split_ifs at h
    cases h
    exact .notEnabled
  | ctrl κ =>
    rw [step] at h
    split_ifs at h
    · exact ctrl_fails h
    · cases h
      exact .notEnabled
  | wait entries =>
    rw [step] at h
    split_ifs at h
    cases h
    exact .notEnabled
  | event κ =>
    rw [step] at h
    split_ifs at h
    · exact event_fails h
    · cases h
      exact .notEnabled
  | poll =>
    rw [step, pollStep] at h
    cases hpoll : st.poll with
    | top | events =>
      rw [hpoll] at h
      cases h
      exact .notEnabled
    | accept listener fd pc =>
      rw [hpoll] at h
      cases pc with
      | done r =>
        cases r with
        | none => cases h
        | some id =>
          dsimp only at h
          split at h
          · cases h
            exact .accepted hpoll ‹_›
          · cases h
      | inc | mask | check | cas | writeId | writeFd => cases h
    | again i report =>
      rw [hpoll] at h
      cases h
    | purge id j =>
      rw [hpoll] at h
      dsimp only at h
      split_ifs at h

end Server

end Mtask.SocketServer
