import Mtask.SocketServer.Reuse

/-!
# Entries of closed sockets

The entries of a batch point to slots. As long as no slot is reserved anew while the batch holds an
entry for its last socket, every entry meets the socket that it was fetched for, or a slot that is
not in use, and nothing is done for a socket that is closed.
-/

namespace Mtask.SocketServer

open Function (update update_of_ne update_self)
open List

namespace Server

/-- The mark `b` may stand behind the mark `a`. -/
def InOrder (a b : Mark) : Prop :=
  ∀ gen, a = .closed gen → b ≠ .acted gen

/-- Entries and marks are those of the sockets in the slots. -/
structure Recorded (st : Server) : Prop where
  entries : ∀ e ∈ st.batch, ∀ i, e.slot = some i → e.gen = st.gen i
  live : ∀ i, (st.slot i).type ≠ .invalid → .closed (st.gen i) ∉ st.log
  injective : Function.Injective st.gen
  issued : ∀ i, st.gen i < st.issued
  marks : ∀ gen, .closed gen ∈ st.log → gen < st.issued
  order : st.log.Pairwise InOrder

/-- No slot is reserved while the batch has an entry for it. -/
def Spares (st : Server) (pc : ReservePc) : Prop :=
  ∀ i id, pc = .cas i id → (st.slot (hashId id)).type = .invalid →
    ∀ e ∈ st.batch, e.slot ≠ some (hashId id)

/-- The step does not reserve a slot for which the batch has an entry. -/
def SparesEntries (st : Server) : Label → Prop
  | .thread t => ∀ purpose pc, st.threads t = some (purpose, pc) → st.Spares pc
  | .poll => ∀ listener fd pc, st.poll = .accept listener fd pc → st.Spares pc
  | _ => True

namespace Recorded

variable {st st' : Server}

theorem create (memory : Slot → Socket) : Recorded (.create memory) where
  entries := nofun
  live _ h := absurd rfl h
  injective _ _ h := Fin.ext h
  issued i := i.isLt
  marks := nofun
  order := .nil

theorem of_types (h : Recorded st) (htype : ∀ i, (st'.slot i).type = (st.slot i).type)
    (hgen : st'.gen = st.gen) (hissued : st'.issued = st.issued) (hlog : st'.log = st.log)
    (hbatch : ∀ e ∈ st'.batch, ∀ i, e.slot = some i → e.gen = st'.gen i) : Recorded st' where
  entries := hbatch
  live i hi := by
    rw [htype] at hi
    rw [hgen, hlog]
    exact h.live i hi
  injective := hgen ▸ h.injective
  issued i := by
    rw [hgen, hissued]
    exact h.issued i
  marks gen hm := by
    rw [hlog] at hm
    rw [hissued]
    exact h.marks gen hm
  order := hlog ▸ h.order

/-- A slot is reserved for which there is no entry. -/
theorem claim (h : Recorded st) {id : Int32} (hspares : ∀ e ∈ st.batch, e.slot ≠ some (hashId id)) :
    Recorded (st.claim id) := by
  have hself : (st.claim id).gen (hashId id) = st.issued := update_self ..
  have hother {i : Slot} (hi : i ≠ hashId id) : (st.claim id).gen i = st.gen i :=
    update_of_ne hi ..
  have hfresh : .closed st.issued ∉ st.log := fun hm => absurd (h.marks _ hm) (Nat.lt_irrefl _)
  refine ⟨fun e he i hslot => ?_, fun i hi => ?_, fun i j hij => ?_, fun i => ?_, fun g hg => ?_,
    h.order⟩
  · have hne : i ≠ hashId id := by
      rintro rfl
      exact hspares e he hslot
    rw [hother hne]
    exact h.entries e he i hslot
  · by_cases hself' : i = hashId id
    · rw [hself', hself]
      exact hfresh
    · rw [hother hself']
      have htype : (st.claim id).slot i = st.slot i := update_of_ne hself' ..
      rw [htype] at hi
      exact h.live i hi
  · by_cases hi : i = hashId id
    · by_cases hj : j = hashId id
      · exact hi.trans hj.symm
      · rw [hi, hself, hother hj] at hij
        exact absurd hij.symm (Nat.ne_of_lt (h.issued j))
    · by_cases hj : j = hashId id
      · rw [hj, hself, hother hi] at hij
        exact absurd hij (Nat.ne_of_lt (h.issued i))
      · rw [hother hi, hother hj] at hij
        exact h.injective hij
  · change _ < st.issued + 1
    by_cases hi : i = hashId id
    · rw [hi, hself]
      exact Nat.lt_succ_self _
    · rw [hother hi]
      exact Nat.lt_succ_of_lt (h.issued i)
  · exact Nat.lt_succ_of_lt (h.marks g hg)

theorem reserve (h : Recorded st) {pc : ReservePc} (hpc : ∀ r, pc ≠ .done r)
    (hspares : st.Spares pc) : Recorded (st.reserve pc).1 := by
  have hsame {id : Int32} {s : Socket} (hs : s.type = (st.slot (hashId id)).type) (i : Slot) :
      (update st.slot (hashId id) s i).type = (st.slot i).type := by
    by_cases hi : i = hashId id
    · rw [hi, update_self, hs]
    · rw [update_of_ne hi]
  rcases reserve_cases st hpc with
    ⟨n, pc', heq, -⟩ | ⟨i, id, hcas, hinvalid, heq⟩ | ⟨id, -, heq⟩ | ⟨id, -, heq⟩
  · rw [heq]
    exact { h with }
  · rw [heq]
    exact h.claim (hspares i id hcas hinvalid)
  · rw [heq]
    exact h.of_types (hsame rfl) rfl rfl rfl h.entries
  · rw [heq]
    exact h.of_types (hsame rfl) rfl rfl rfl h.entries

theorem commit (h : Recorded st) {i : Slot} {out : Outcome}
    (hdead : (st.slot i).type = .invalid → out.socket.type = .invalid) :
    Recorded (st.commit i out) := by
  have hother {j : Slot} (hj : j ≠ i) : (st.commit i out).slot j = st.slot j :=
    update_of_ne hj ..
  have hself : (st.commit i out).slot i = out.socket := update_self ..
  by_cases hcloses : (st.slot i).type ≠ .invalid ∧ out.socket.type = .invalid
  · have hlog : (st.commit i out).log = st.log ++ [.closed (st.gen i)] := if_pos hcloses
    refine ⟨h.entries, fun j hj => ?_, h.injective, h.issued, fun g hg => ?_, ?_⟩
    · have hji : j ≠ i := by
        rintro rfl
        rw [hself] at hj
        exact hj hcloses.2
      rw [hother hji] at hj
      rw [hlog, mem_append, mem_singleton]
      rintro (hm | hm)
      · exact h.live j hj hm
      · exact hji (h.injective (Mark.closed.inj hm))
    · rw [hlog, mem_append, mem_singleton] at hg
      rcases hg with hg | hg
      · exact h.marks g hg
      · rw [Mark.closed.inj hg]
        exact h.issued i
    · rw [hlog, pairwise_append]
      refine ⟨h.order, pairwise_singleton _ _, fun a _ b hb g _ => ?_⟩
      rw [mem_singleton.mp hb]
      nofun
  · have hlog : (st.commit i out).log = st.log := if_neg hcloses
    refine ⟨h.entries, fun j hj => ?_, h.injective, h.issued, fun g hg => ?_, ?_⟩
    · rw [hlog]
      by_cases hji : j = i
      · subst hji
        rw [hself] at hj
        exact h.live j fun hinvalid => hj (hdead hinvalid)
      · rw [hother hji] at hj
        exact h.live j hj
    · rw [hlog] at hg
      exact h.marks g hg
    · rw [hlog]
      exact h.order

/-- An entry is acted upon, and it was fetched for a socket that is not closed. -/
theorem note (h : Recorded st) {e : Entry} {i : Slot} (he : e ∈ st.batch)
    (hslot : e.slot = some i) : Recorded (st.note e i) := by
  by_cases hacts : acts (st.slot i) e = true
  · have hlog : (st.note e i).log = st.log ++ [.acted e.gen] := if_pos hacts
    have hlive : (st.slot i).type ≠ .invalid := by
      intro hinvalid
      rw [acts, hinvalid] at hacts
      cases hacts
    have hopen : .closed e.gen ∉ st.log := by
      rw [h.entries e he i hslot]
      exact h.live i hlive
    have hclosed (g : ℕ) : .closed g ∈ (st.note e i).log ↔ .closed g ∈ st.log := by
      rw [hlog, mem_append, mem_singleton]
      exact or_iff_left nofun
    refine ⟨h.entries, fun j hj => ?_, h.injective, h.issued, fun g hg => ?_, ?_⟩
    · rw [hclosed]
      exact h.live j hj
    · exact h.marks g ((hclosed g).mp hg)
    · rw [hlog, pairwise_append]
      refine ⟨h.order, pairwise_singleton _ _, fun a ha b hb g hg => ?_⟩
      subst hg
      rw [mem_singleton.mp hb]
      intro heq
      rw [Mark.acted.inj heq] at hopen
      exact hopen ha
  · have hlog : (st.note e i).log = st.log := if_neg hacts
    exact h.of_types (fun _ => rfl) rfl rfl hlog h.entries

theorem rebatch (h : Recorded st) {batch : List Entry}
    (hbatch : ∀ e ∈ batch, ∀ i, e.slot = some i → e.gen = st.gen i) :
    Recorded { st with batch } where
  entries := hbatch
  live := h.live
  injective := h.injective
  issued := h.issued
  marks := h.marks
  order := h.order

end Recorded

theorem mem_putBack {s : Socket} {e x : Entry} {report : Option Report} {batch : List Entry}
    (hx : x ∈ putBack s e report batch) : x ∈ batch ∨ x.slot = e.slot ∧ x.gen = e.gen := by
  rw [putBack] at hx
  split at hx
  · exact Or.inl hx
  · exact Or.inl hx
  · split_ifs at hx
    · exact Or.inl hx
    · rcases mem_cons.mp hx with rfl | hx
      · exact Or.inr ⟨rfl, rfl⟩
      · exact Or.inl hx
    · rcases mem_cons.mp hx with rfl | hx
      · exact Or.inr ⟨rfl, rfl⟩
      · exact Or.inl hx
    · exact Or.inl hx

theorem mem_of_mem_modify {α : Type*} {f : α → α} {x : α} {l : List α} {j : ℕ}
    (hx : x ∈ l.modify j f) : x ∈ l ∨ ∃ y ∈ l, x = f y := by
  obtain ⟨k, hk, rfl⟩ := mem_iff_getElem.mp hx
  rw [length_modify] at hk
  by_cases hjk : j = k
  · subst hjk
    exact Or.inr ⟨l[j], getElem_mem hk, getElem_modify_eq f j l _⟩
  · refine Or.inl ?_
    rw [getElem_modify_ne f l hjk]
    exact getElem_mem hk

variable {st st' : Server}

theorem clearEntry_cases (st : Server) (id : Int32) (e : Entry) :
    st.clearEntry id e = e ∨ (st.clearEntry id e).slot = none := by
  rw [clearEntry]
  split
  · exact Or.inl rfl
  · split_ifs
    · exact Or.inr rfl
    · exact Or.inl rfl

/-- **One step of the server.** -/
theorem Recorded.step (h : Recorded st) {a : Label} (hok : st.SparesEntries a)
    (hs : st.step a = .ok st') : Recorded st' := by
  have hrest {e : Entry} {batch : List Entry} (hbatch : st.batch = e :: batch) :
      ∀ x ∈ batch, ∀ i, x.slot = some i → x.gen = st.gen i := fun x hx =>
    h.entries x (hbatch ▸ mem_cons_of_mem e hx)
  have hhead {e : Entry} {batch : List Entry} (hbatch : st.batch = e :: batch) : e ∈ st.batch :=
    hbatch ▸ mem_cons_self
  cases step_cases hs with
  | reserve ht hpc => exact { h.reserve hpc (hok _ _ ht) with }
  | acceptReserve hpoll hpc => exact { h.reserve hpc (hok _ _ _ hpoll) with }
  | command hpoll hpipe hrun => exact { h.commit (Request.effect hrun).dead with }
  | opening hpoll hpipe hrun => exact { h.commit (Purpose.opening hrun).dead with }
  | accepted hpoll hrun => exact { h.commit (acceptSocket_opening hrun).dead with }
  | again hpoll => exact { h.commit fun _ => rfl with }
  | wait hpoll hbatch =>
    refine { h with entries := fun e he i hslot => ?_ }
    obtain ⟨x, -, rfl⟩ := mem_map.mp he
    change x.1 = some i at hslot
    change x.1.elim 0 st.gen = st.gen i
    rw [hslot]
    rfl
  | skip hpoll hbatch hslot => exact { h.rebatch (hrest hbatch) with }
  | accept hpoll hbatch hslot htype =>
    exact { (h.note (hhead hbatch) hslot).rebatch (hrest hbatch) with }
  | acceptFails hpoll hbatch hslot htype =>
    exact { (h.note (hhead hbatch) hslot).rebatch (hrest hbatch) with }
  | entry hpoll hbatch hslot hrun =>
    have he : Effect _ False False False _ := dispatch_effect hrun
    refine { ((h.note (hhead hbatch) hslot).commit he.dead).rebatch fun x hx i hi => ?_ with }
    rcases mem_putBack hx with hx | ⟨hxslot, hxgen⟩
    · exact hrest hbatch x hx i hi
    · rw [hxgen]
      exact h.entries _ (hhead hbatch) i (hxslot.symm.trans hi)
  | purge hpoll =>
    refine { h.rebatch fun x hx i hi => ?_ with }
    rcases mem_of_mem_modify hx with hx | ⟨y, hy, rfl⟩
    · exact h.entries x hx i hi
    · rcases clearEntry_cases st _ y with hsame | hnone
      · rw [hsame] at hi ⊢
        exact h.entries y hy i hi
      · rw [hnone] at hi
        cases hi
  | call | callFd | refused | send | giveUp | request | pass | notAccepted | purged =>
    exact { h with }

end Server

/-- **No event after close.** In every run in which `reserve_id` takes no slot while the fetched
batch still has an entry for it, no entry that was fetched for a socket is acted upon after the
slot of that socket became `SOCKET_TYPE_INVALID`, and every entry that is acted upon meets the
socket that it was fetched for. -/
theorem closed_not_acted {memory : Slot → Socket} {st : Server}
    (h : Transition.Reaches Server.step Server.SparesEntries (.create memory) st) :
    (st.log.Pairwise fun a b => ∀ gen, a = .closed gen → b ≠ .acted gen) ∧
      ∀ e ∈ st.batch, ∀ i, e.slot = some i → e.gen = st.gen i := by
  have hinv : st.Recorded :=
    h.invariant (.create memory) fun _ _ _ hu hok hs => hu.step hok hs
  exact ⟨hinv.order, hinv.entries⟩

/-- The end of the stream is read for the first of two entries of a socket. -/
def readsEnd : List Label :=
  [.call 0 (.connect 7)] ++ List.replicate 6 (.thread 0) ++
    [.ctrl .fine, .pass, .wait [(some (hashId 1), true, false), (some (hashId 1), false, true)],
      .event { Kernel.fine with read := .got 0 }, .poll, .poll]

/-- The socket is closed, and `clear_closed_event` takes out its second entry. -/
theorem closed_not_acted_end :
    ∃ st : Server, st.log = [.acted maxSocket, .closed maxSocket] ∧
      st.batch = [⟨none, false, true, maxSocket⟩] ∧
      (st.log.Pairwise fun a b => ∀ gen, a = .closed gen → b ≠ .acted gen) ∧
      ∀ e ∈ st.batch, ∀ i, e.slot = some i → e.gen = st.gen i := by
  have hrun : ∃ st, Transition.exec Server.step (.create Server.zeroed) readsEnd = .ok st ∧
      st.log = [.acted maxSocket, .closed maxSocket] ∧
      st.batch = [⟨none, false, true, maxSocket⟩] := ⟨_, rfl, rfl, rfl⟩
  have hthread {st : Server} {t : ℕ} (hbatch : st.batch = []) : st.SparesEntries (.thread t) := by
    intro purpose pc _ i id _ _ e he
    rw [hbatch] at he
    cases he
  have hpoll {st : Server} (hpurge : ∃ id j, st.poll = .purge id j) : st.SparesEntries .poll := by
    obtain ⟨id, j, hpurge⟩ := hpurge
    intro listener fd pc haccept
    rw [hpurge] at haccept
    cases haccept
  have hpermitted : Transition.Permitted Server.step Server.SparesEntries
      (.create Server.zeroed) readsEnd := by
    refine .cons trivial rfl <| .cons (hthread rfl) rfl <| .cons (hthread rfl) rfl <|
      .cons (hthread rfl) rfl <| .cons (hthread rfl) rfl <| .cons (hthread rfl) rfl <|
      .cons (hthread rfl) rfl <| .cons trivial rfl <| .cons trivial rfl <| .cons trivial rfl <|
      .cons trivial rfl <| .cons (hpoll ⟨_, _, rfl⟩) rfl <| .cons (hpoll ⟨_, _, rfl⟩) rfl trivial
  obtain ⟨st, hst, hlog, hbatch⟩ := hrun
  exact ⟨st, hlog, hbatch, closed_not_acted (hpermitted.reaches hst)⟩

/-- A connection fails, which is reported for the first one of the two entries that the poller has
for it. -/
def connectFails : List Label :=
  [.call 0 (.connect 7)] ++ List.replicate 6 (.thread 0) ++
    [.ctrl { Kernel.fine with opening := .inProgress }, .pass,
      .wait [(some (hashId 1), false, true), (some (hashId 1), true, false)],
      .event { Kernel.fine with connected := false }]

theorem connectFails_waiting :
    ∃ st, Transition.exec Server.step (.create Server.zeroed) connectFails = .ok st ∧
      Server.Waiting [⟨some (hashId 1), true, false, maxSocket⟩] [.closed maxSocket] 1 st := by
  refine ⟨_, rfl, rfl, rfl, rfl, rfl, rfl, fun i => ?_, ⟨rfl, rfl, rfl⟩, rfl, fun m hm => ?_⟩
  · by_cases hi : i = hashId 1
    · subst hi
      rfl
    · have hu (f : Slot → Socket) (s : Socket) : update f (hashId 1) s i = f i :=
        update_of_ne hi s f
      exact congrArg Socket.type ((hu _ _).trans <| (hu _ _).trans <| (hu _ _).trans <|
        (hu _ _).trans (hu _ _))
  · rw [mem_singleton.mp hm]
    exact mem_of_mem_tail (mem_cons_self ..)

/-- **The claim fails.** The connection of a socket fails, which `report_connect` reports without
a call of `clear_closed_event`. After 65535 more openings, for hosts that are not found, the slot is
used for another socket, and the read entry of the first one is acted upon. -/
theorem closed_acted :
    ∃ st, Transition.Reaches Server.step Server.Anything (.create Server.zeroed) st ∧
      ¬st.log.Pairwise fun a b => ∀ gen, a = .closed gen → b ≠ .acted gen := by
  obtain ⟨st₁, hrun₁, hwaiting⟩ := connectFails_waiting
  obtain ⟨st₂, hrun₂, hround⟩ := Server.waiting_round (by simp) hwaiting
  obtain ⟨st₃, hrun₃, htype, hprotocol, hpoll, hbatch, hmarks⟩ := Server.reaches_connected hround
  have hpass : st₃.step .pass = .ok { st₃ with checkctrl := false, poll := .events } :=
    if_pos hpoll
  have hevent : ∃ st, Server.step { st₃ with checkctrl := false, poll := .events } (.event .fine) =
      .ok st ∧ st.log = st₃.log ++ [.acted maxSocket] := by
    have hread : (st₃.slot (hashId 1)).dispatch true false .fine =
        .ok (st₃.slot (hashId 1)).quiet := by
      simp [Socket.dispatch, htype, hprotocol, Kernel.fine, Socket.forwardMessageTcp]
    have hacts :
        Server.acts (st₃.slot (hashId 1)) ⟨some (hashId 1), true, false, maxSocket⟩ = true := by
      rw [Server.acts, htype]
      rfl
    simp only [Server.step, Server.event, hbatch, Server.react, htype, reduceCtorEq, if_false,
      if_true, hread, Server.commit, Server.note, hacts]
    refine ⟨_, rfl, if_neg fun hclosed => ?_⟩
    have hinvalid : (st₃.slot (hashId 1)).type = .invalid := hclosed.2
    rw [htype] at hinvalid
    cases hinvalid
  obtain ⟨st, hevent, hlog⟩ := hevent
  refine ⟨st, ?_, fun horder => ?_⟩
  · have hstart : Transition.Reaches Server.step Server.Anything _ st₁ :=
      Transition.reaches_of_exec hrun₁ fun _ _ _ => trivial
    exact (hstart.trans hrun₂).trans <| hrun₃.trans <|
      (Server.reaches_step _ hpass).trans (Server.reaches_step _ hevent)
  · rw [hlog, List.pairwise_append] at horder
    have hclosed : .closed maxSocket ∈ st₃.log := hmarks _ (List.mem_singleton_self _)
    exact horder.2.2 _ hclosed _ (List.mem_singleton_self _) maxSocket rfl rfl

end Mtask.SocketServer
