import Mathlib.Data.Nat.SuccPred
import Mtask.SocketServer.Reserved
import Mtask.SocketServer.WriteInterest

/-!
# The descriptors of the socket server

Every descriptor that the server opens is in one place: in the hands of the thread that opened it,
in a command in the pipe, in a slot that is in use, or closed. A descriptor that was handed in is
never closed, unless its slot becomes `SOCKET_TYPE_HALFCLOSE`, which is closed like a socket of the
server.
-/

namespace Mtask.SocketServer

open Ownership List
open Function (update update_of_ne update_self)

/-- The number of a descriptor of the server. -/
def Fd.own? : Fd → Option ℕ
  | .own n => some n
  | .user _ => none

/-- The descriptor of the server that a slot in use has. -/
def Socket.own? (s : Socket) : Option ℕ :=
  match s.type with
  | .invalid => none
  | .reserve => none
  | _ => s.fd.bind Fd.own?

/-- The descriptor of the server that comes with a command. -/
def Command.fd? : Command → Option ℕ
  | .request _ _ => none
  | .opening _ purpose => purpose.fd?

/-- The descriptor that `report_accept` has accepted. -/
def PollPc.fd? : PollPc → Option ℕ
  | .accept _ fd _ => some fd
  | _ => none

/-! ### One slot -/

variable {id : Int32} {own : Option ℕ}

section Slots

variable {s s' : Socket} {out : Outcome}

/-- A bound socket has a descriptor that was handed in, any other one has one of the server. -/
structure Kind (s : Socket) : Prop where
  bound : s.type = .bind → ∃ n, s.fd = some (.user n)
  owns : s.type ≠ .invalid → s.type ≠ .reserve → s.type ≠ .bind → ∃ n, s.fd = some (.own n)

theorem Kind.of_idle (hs : s.type = .invalid ∨ s.type = .reserve) : Kind s := by
  refine ⟨fun hbind => ?_, fun hinvalid hreserve _ => ?_⟩
  · rcases hs with hs | hs
    all_goals
      rw [hs] at hbind
      cases hbind
  · exact hs.elim (fun h => absurd h hinvalid) fun h => absurd h hreserve

theorem own?_of_idle (hs : s.type = .invalid ∨ s.type = .reserve) : s.own? = none := by
  rcases hs with hs | hs
  all_goals rw [Socket.own?, hs]

theorem own?_of_live (hs : s.type ≠ .invalid ∧ s.type ≠ .reserve) :
    s.own? = s.fd.bind Fd.own? := by
  rw [Socket.own?]
  split
  · exact absurd ‹_› hs.1
  · exact absurd ‹_› hs.2
  · rfl

theorem own?_congr (htype : s'.type = s.type) (hfd : s'.fd = s.fd) : s'.own? = s.own? := by
  rw [Socket.own?, Socket.own?, htype, hfd]

theorem Kind.congr (h : Kind s) (htype : s'.type = s.type) (hfd : s'.fd = s.fd) : Kind s' where
  bound hs := hfd ▸ h.bound (htype ▸ hs)
  owns hi hr hb := hfd ▸ h.owns (htype ▸ hi) (htype ▸ hr) (htype ▸ hb)

/-- A descriptor stays in its slot, or it is closed. -/
def KeepsOrCloses (s : Socket) (out : Outcome) : Prop :=
  out.socket.own? = s.own? ∧ out.closed = none ∨
    out.socket.own? = none ∧ out.closed = s.own?.map .own

theorem Kind.retype {report : Option Report} (h : Kind s)
    (hs : s.type ≠ .invalid ∧ s.type ≠ .reserve ∧ s.type ≠ .bind)
    (hs' : s'.type ≠ .invalid ∧ s'.type ≠ .reserve ∧ s'.type ≠ .bind) (hfd : s'.fd = s.fd) :
    Kind s' ∧ KeepsOrCloses s ⟨report, s', none⟩ := by
  refine ⟨⟨fun hb => absurd hb hs'.2.2, fun _ _ _ => ?_⟩, Or.inl ⟨?_, rfl⟩⟩
  · rw [hfd]
    exact h.owns hs.1 hs.2.1 hs.2.2
  · rw [own?_of_live ⟨hs.1, hs.2.1⟩, own?_of_live ⟨hs'.1, hs'.2.1⟩, hfd]

/-- `force_close` closes the descriptor of the server. -/
theorem Closes.own? (h : Closes s out) (hk : Kind s) : out.closed = s.own?.map .own := by
  rw [h.closed, own?_of_live h.live]
  split_ifs with hbind
  · obtain ⟨n, hn⟩ := hk.bound hbind
    rw [hn]
    rfl
  · obtain ⟨n, hn⟩ := hk.owns h.live.1 h.live.2 hbind
    rw [hn]
    rfl

/-- **What a request or an entry does with the descriptor of its slot.** -/
theorem Effect.descriptor {sends halfCloses failsToStart : Prop} (hk : Kind s)
    (h : Effect s sends halfCloses failsToStart out)
    (hhalf : ¬((s.type = .reserve ∨ s.type = .bind) ∧ halfCloses))
    (hstart : ¬((s.type = .paccept ∨ s.type = .plisten) ∧ failsToStart)) :
    Kind out.socket ∧ KeepsOrCloses s out := by
  cases h with
  | sent h _ => exact ⟨hk.congr h.type h.fd, Or.inl ⟨own?_congr h.type h.fd, rfl⟩⟩
  | queued _ _ hsame _ =>
    exact ⟨hk.congr hsame.1 hsame.2.1, Or.inl ⟨own?_congr hsame.1 hsame.2.1, rfl⟩⟩
  | started htype =>
    rcases htype with ⟨ht, rfl⟩ | ⟨ht, rfl⟩
    all_goals exact hk.retype (by simp [ht]) ⟨nofun, nofun, nofun⟩ rfl
  | notStarted hfails htype => exact absurd ⟨htype, hfails⟩ hstart
  | connected htype _ =>
    exact hk.retype (by simp [htype]) ⟨nofun, nofun, nofun⟩ rfl
  | halfClosed hcloses h hlive _ =>
    have hreserve : s.type ≠ .reserve := fun ht => hhalf ⟨Or.inl ht, hcloses⟩
    have hbind : s.type ≠ .bind := fun ht => hhalf ⟨Or.inr ht, hcloses⟩
    exact hk.retype ⟨hlive, hreserve, hbind⟩ ⟨nofun, nofun, nofun⟩ h.fd
  | closed h =>
    exact ⟨.of_idle (Or.inl h.type), Or.inr ⟨own?_of_idle (Or.inl h.type), h.own? hk⟩⟩

theorem Opening.descriptor (h : Opening s id own out) :
    Kind out.socket ∧ (out.socket.own? = own ∧ out.closed = none ∨
      out.socket.own? = none ∧ out.closed = own.map .own) := by
  cases h with
  | failed => exact ⟨.of_idle (Or.inl rfl), Or.inr ⟨own?_of_idle (Or.inl rfl), rfl⟩⟩
  | @opened s' report _ htype _ _ hfd =>
    have hlive : s'.type ≠ .invalid ∧ s'.type ≠ .reserve := by
      rcases htype with ht | ht | ⟨ht | ht | ht, -⟩
      all_goals simp [ht]
    rcases hfd with ⟨n, rfl, hfd, hbind⟩ | ⟨rfl, n, hfd, hbind⟩
    · refine ⟨⟨fun ht => absurd ht hbind, fun _ _ _ => ⟨n, hfd⟩⟩, Or.inl ⟨?_, rfl⟩⟩
      rw [own?_of_live hlive, hfd]
      rfl
    · refine ⟨⟨fun _ => ⟨n, hfd⟩, fun _ _ hne => absurd hbind hne⟩, Or.inl ⟨?_, rfl⟩⟩
      rw [own?_of_live hlive, hfd]
      rfl

end Slots

/-! ### The places -/

/-- The descriptors in the slots, with the threads and with `report_accept`. -/
def keeper (slot : Slot → Socket) (threads : ℕ → Option (Purpose × ReservePc)) (poll : PollPc) :
    Slot ⊕ Option ℕ → Option ℕ
  | .inl i => (slot i).own?
  | .inr (some t) => (threads t).bind fun p => p.1.fd?
  | .inr none => poll.fd?

/-- The descriptors in the pipe, and those that are closed. -/
def passed (pipe : List Command) (closed : List Fd) : List ℕ :=
  pipe.filterMap Command.fd? ++ closed.filterMap Fd.own?

variable {n : ℕ} {i : Slot} {purpose : Purpose} {fds : List Fd} {κ : Kernel}

section Places

variable {slot : Slot → Socket} {threads : ℕ → Option (Purpose × ReservePc)} {poll poll' : PollPc}
  {pipe : List Command} {closed : List Fd} {owned : Set ℕ}

theorem keeper_of_same {slot' : Slot → Socket} {threads' : ℕ → Option (Purpose × ReservePc)}
    (hslot : ∀ i, (slot' i).own? = (slot i).own?)
    (hthreads : ∀ t, (threads' t).bind (fun p => p.1.fd?) = (threads t).bind fun p => p.1.fd?)
    (hpoll : poll'.fd? = poll.fd?) (a : Slot ⊕ Option ℕ) :
    keeper slot' threads' poll' a = keeper slot threads poll a := by
  match a with
  | .inl i => exact hslot i
  | .inr (some t) => exact hthreads t
  | .inr none => exact hpoll

theorem keeper_slot (i : Slot) (s : Socket) :
    keeper (update slot i s) threads poll (.inl i) = s.own? := by
  rw [keeper, update_self]

theorem keeper_thread (t : ℕ) (x : Option (Purpose × ReservePc)) :
    keeper slot (update threads t x) poll (.inr (some t)) = x.bind fun p => p.1.fd? := by
  rw [keeper, update_self]

theorem sameBut_slot (i : Slot) (s : Socket) :
    SameBut (.inl i) (keeper slot threads poll)
      (keeper (update slot i s) threads poll) := by
  intro a ha
  match a with
  | .inl j =>
    have hj : j ≠ i := fun h => ha (congrArg Sum.inl h)
    rw [keeper, keeper, update_of_ne hj]
  | .inr (some t) => rfl
  | .inr none => rfl

theorem sameBut_thread (t : ℕ) (x : Option (Purpose × ReservePc)) :
    SameBut (.inr (some t)) (keeper slot threads poll)
      (keeper slot (update threads t x) poll) := by
  intro a ha
  match a with
  | .inl j => rfl
  | .inr (some u) =>
    have hu : u ≠ t := fun h => ha (congrArg (Sum.inr ∘ some) h)
    rw [keeper, keeper, update_of_ne hu]
  | .inr none => rfl

theorem sameBut_accept : SameBut (.inr none) (keeper slot threads poll)
    (keeper slot threads poll') := by
  intro a ha
  match a with
  | .inl j => rfl
  | .inr (some u) => rfl
  | .inr none => exact absurd rfl ha

theorem passed_closed (own : Option ℕ) : (own.toList ++ passed pipe closed).Perm
    (passed pipe (closed ++ (own.map Fd.own).toList)) := by
  have happend : passed pipe (closed ++ (own.map Fd.own).toList) =
      passed pipe closed ++ own.toList := by
    rw [passed, passed, filterMap_append, append_assoc]
    cases own <;> rfl
  rw [happend]
  exact perm_append_comm

theorem passed_command (command : Command) : (command.fd?.toList ++ passed pipe closed).Perm
    (passed (pipe ++ [command]) closed) := by
  have happend : passed (pipe ++ [command]) closed =
      pipe.filterMap Command.fd? ++ (command.fd?.toList ++ closed.filterMap Fd.own?) := by
    rw [passed, filterMap_append, append_assoc]
    cases hfd : command.fd? with
    | none => simp [hfd]
    | some n => simp [hfd]
  rw [happend]
  exact perm_append_comm_assoc ..

theorem mem_own? : n ∈ fds.filterMap Fd.own? ↔ .own n ∈ fds := by
  rw [mem_filterMap]
  constructor
  · rintro ⟨fd, hfd, hn⟩
    cases fd with
    | own m =>
      cases hn
      exact hfd
    | user m => cases hn
  · exact fun hn => ⟨.own n, hn, rfl⟩

theorem count_own? (fds : List Fd) (n : ℕ) :
    (fds.filterMap Fd.own?).count n = fds.count (.own n) := by
  induction fds with
  | nil => rfl
  | cons fd fds ih =>
    cases fd with
    | own m =>
      change (m :: fds.filterMap Fd.own?).count n = _
      rw [count_cons, count_cons, ih]
      simp
    | user m =>
      change (fds.filterMap Fd.own?).count n = _
      rw [count_cons, ih]
      simp

theorem mem_passed : n ∈ passed pipe closed ↔
    (∃ command ∈ pipe, command.fd? = some n) ∨ .own n ∈ closed := by
  rw [passed, mem_append, mem_filterMap, mem_own?]

theorem passed_request (r : Request) (gen : ℕ) :
    passed (pipe ++ [.request r gen]) closed = passed pipe closed := by
  rw [passed, passed, filterMap_append]
  exact congrArg (· ++ closed.filterMap Fd.own?) (append_nil _)

theorem passed_head (command : Command) :
    passed (command :: pipe) closed = command.fd?.toList ++ passed pipe closed := by
  cases hfd : command.fd? with
  | none => simp [passed, hfd]
  | some n => simp [passed, hfd]

theorem fd?_after (report : Option Report) : (PollPc.after report).fd? = none := by
  cases report with
  | none => rfl
  | some r =>
    rw [PollPc.after]
    split_ifs <;> rfl

variable {held : Slot ⊕ Option ℕ → Option ℕ} {out : Outcome}

theorem accounts_opening {held' : Slot ⊕ Option ℕ → Option ℕ}
    (h : Accounts held (own.toList ++ passed pipe closed) owned) (hi : held (.inl i) = none)
    (hi' : held' (.inl i) = out.socket.own?) (hsame : SameBut (.inl i) held held')
    (hout : out.socket.own? = own ∧ out.closed = none ∨
      out.socket.own? = none ∧ out.closed = own.map .own) :
    Accounts held' (passed pipe (closed ++ out.closed.toList)) owned := by
  rcases hout with ⟨hown, hclosed⟩ | ⟨hown, hclosed⟩
  · rw [hclosed, Option.toList_none, append_nil]
    exact h.pickUp hi (hi'.trans hown) hsame
  · rw [hclosed]
    exact h.congr (hsame.congr ((hi'.trans hown).trans hi.symm)) (passed_closed own)

theorem accounts_commit (h : Accounts (keeper slot threads poll) (passed pipe closed) owned)
    (hout : KeepsOrCloses (slot i) out) :
    Accounts (keeper (update slot i out.socket) threads poll)
      (passed pipe (closed ++ out.closed.toList)) owned := by
  have hdown : Accounts (update (keeper slot threads poll) (.inl i) none)
      ((slot i).own?.toList ++ passed pipe closed) owned :=
    h.putDown rfl (update_self ..) fun a ha => update_of_ne ha ..
  refine accounts_opening hdown (update_self ..) (keeper_slot i _) (fun a ha => ?_) hout
  rw [update_of_ne ha]
  exact sameBut_slot i out.socket a ha

theorem accounts_fresh {listed : List ℕ}
    (h : Accounts held (purpose.fd?.toList ++ listed) (Set.Iio n)) :
    Accounts held ((purpose.own? n κ).toList ++ listed) (Set.Iio (n + purpose.opens κ)) := by
  cases purpose with
  | connect opaqueId =>
    rw [Purpose.own?, Purpose.opens]
    split_ifs
    · exact h
    · exact Order.Iio_succ_eq_insert n ▸ h.store Set.self_notMem_Iio
  | listen opaqueId fd => exact h
  | bind opaqueId fd => exact h
  | udp opaqueId fd v6 => exact h

end Places

namespace Server

/-- Every descriptor of the server is in one place, and none that was handed in is closed. -/
structure Accounted (st : Server) : Prop where
  reserved : Reserved st
  accounts : Accounts (keeper st.slot st.threads st.poll) (passed st.pipe st.closed)
    (Set.Iio st.nextFd)
  kind : ∀ i, Kind (st.slot i)
  user : ∀ n, .user n ∉ st.closed

/-- The steps that lose no descriptor and close none twice: reserved slots are respected, no request
to close a bound socket leaves something queued on it, and `sp_add` does not fail in
`start_socket`. -/
def KeepsDescriptors (st : Server) (a : Label) : Prop :=
  st.KeepsReserved a ∧ ∀ κ, a = .ctrl κ → ∀ r gen pipe, st.pipe = .request r gen :: pipe →
    let s := st.slot (hashId r.id)
    ¬(s.type = .bind ∧ r.HalfCloses s κ) ∧
      ¬((s.type = .paccept ∨ s.type = .plisten) ∧ r.FailsToStart s κ)

variable {s : Socket}

namespace Accounted

variable {st st' : Server}

theorem create (memory : Slot → Socket) : Accounted (.create memory) where
  reserved := .create memory
  accounts := by
    refine ⟨fun n => iff_of_false (Nat.not_lt_zero n) ?_, nofun, .nil, nofun⟩
    rintro (⟨a, ha⟩ | hn)
    · match a with
      | .inl i => cases ha
      | .inr (some t) => cases ha
      | .inr none => cases ha
    · cases hn
  kind i := .of_idle (Or.inl rfl)
  user n := nofun

theorem reserve_descriptor (h : Accounted st) {pc : ReservePc} (hpc : ∀ r, pc ≠ .done r)
    {a : Option ℕ} (ha : holder st.threads st.poll a = pc.slot?) (i : Slot) :
    ((st.reserve pc).1.slot i).own? = (st.slot i).own? ∧ Kind ((st.reserve pc).1.slot i) := by
  -- a thread behind the exchange finds its slot reserved
  have hreserve {id : Int32} (hid : pc.id? = some id) : (st.slot (hashId id)).type = .reserve := by
    have hslot : holder st.threads st.poll a = some (hashId id) := by
      rw [ha, ReservePc.slot?, hid]
      rfl
    exact h.reserved.accounts.mem_of_held hslot
  have hidle {j : Slot} {s : Socket} (hs : s.type = .reserve)
      (hj : (st.slot j).type = .invalid ∨ (st.slot j).type = .reserve) :
      (update st.slot j s i).own? = (st.slot i).own? ∧
        Kind (update st.slot j s i) := by
    by_cases hi : i = j
    · subst hi
      rw [update_self, own?_of_idle (Or.inr hs), own?_of_idle hj]
      exact ⟨rfl, .of_idle (Or.inr hs)⟩
    · rw [update_of_ne hi]
      exact ⟨rfl, h.kind i⟩
  rcases reserve_cases st hpc with
    ⟨n, pc', heq, -⟩ | ⟨n, id, -, hinvalid, heq⟩ | ⟨id, rfl, heq⟩ | ⟨id, rfl, heq⟩
  · rw [heq]
    exact ⟨rfl, h.kind i⟩
  · rw [heq]
    exact hidle rfl (Or.inl hinvalid)
  · rw [heq]
    exact hidle (hreserve rfl) (Or.inr (hreserve rfl))
  · rw [heq]
    exact hidle (hreserve rfl) (Or.inr (hreserve rfl))

theorem kind_update (h : Accounted st) (hs : Kind s) (j : Slot) : Kind (update st.slot i s j) := by
  by_cases hj : j = i
  · rw [hj, update_self]
    exact hs
  · rw [update_of_ne hj]
    exact h.kind j

theorem user_closed (h : Accounted st) (hfds : ∀ n, .user n ∉ fds) (n : ℕ) :
    .user n ∉ st.closed ++ fds :=
  fun hn => (mem_append.mp hn).elim (h.user n) (hfds n)

theorem user_notMem (own : Option ℕ) {fd : Option Fd} (h : fd = none ∨ fd = own.map .own)
    (n : ℕ) : .user n ∉ fd.toList := by
  rcases h with rfl | rfl
  · nofun
  · cases own with
    | none => nofun
    | some m => simp

theorem reserve_of_pipe (h : Accounted st) (hmem : .opening id purpose ∈ st.pipe) :
    (st.slot (hashId id)).type = .reserve :=
  h.reserved.accounts.mem_of_listed (mem_filterMap.mpr ⟨_, hmem, rfl⟩)

theorem reserve_of_accept (h : Accounted st) {listener : Slot} {fd : ℕ}
    (hpoll : st.poll = .accept listener fd (.done (some id))) :
    (st.slot (hashId id)).type = .reserve := by
  have hheld : holder st.threads st.poll none = some (hashId id) := by
    rw [holder, hpoll]
    rfl
  exact h.reserved.accounts.mem_of_held hheld

theorem command_keeps (h : Accounted st) (hok : st.KeepsDescriptors (.ctrl κ)) {r : Request}
    {gen : ℕ} {pipe : List Command} {out : Outcome} (hpipe : st.pipe = .request r gen :: pipe)
    (hrun : r.run (st.slot (hashId r.id)) κ = .ok out) :
    Kind out.socket ∧ KeepsOrCloses (st.slot (hashId r.id)) out := by
  obtain ⟨hbind, hstart⟩ := hok.2 κ rfl r gen pipe hpipe
  have hreserve := hok.1 r gen pipe hpipe
  refine (Request.effect hrun).descriptor (h.kind _) (fun hhalf => ?_) hstart
  exact hhalf.1.elim (fun ht => hreserve ⟨ht, hhalf.2⟩) fun ht => hbind ⟨ht, hhalf.2⟩

variable {a : Label}

/-- **One step of the server.** -/
theorem step (h : Accounted st) (hok : st.KeepsDescriptors a) (hs : st.step a = .ok st') :
    Accounted st' := by
  have hreserved : Reserved st' := h.reserved.step hok.1 hs
  have hacc := h.accounts
  -- the descriptors in the slots and the hands are where they were
  have hsame {slot : Slot → Socket} {threads : ℕ → Option (Purpose × ReservePc)} {poll : PollPc}
      (hslot : ∀ i, (slot i).own? = (st.slot i).own?)
      (hthreads : ∀ t, (threads t).bind (fun p => p.1.fd?) =
        (st.threads t).bind fun p => p.1.fd?)
      (hpoll : poll.fd? = st.poll.fd?) :
      Accounts (keeper slot threads poll) (passed st.pipe st.closed) (Set.Iio st.nextFd) :=
    hacc.congr (keeper_of_same hslot hthreads hpoll) (.refl _)
  have hthread {t : ℕ} {x : Option (Purpose × ReservePc)}
      (hx : x.bind (fun p => p.1.fd?) = (st.threads t).bind fun p => p.1.fd?) (u : ℕ) :
      (update st.threads t x u).bind (fun p => p.1.fd?) =
        (st.threads u).bind fun p => p.1.fd? := by
    by_cases hu : u = t
    · rw [hu, update_self, hx]
    · rw [update_of_ne hu]
  cases step_cases hs with
  | call ht hfd =>
    refine ⟨hreserved, hsame (fun _ => rfl) (hthread ?_) rfl, h.kind, h.user⟩
    rw [ht]
    exact hfd
  | @callFd t purpose ht hfd =>
    refine ⟨hreserved, ?_, h.kind, h.user⟩
    refine Order.Iio_succ_eq_insert st.nextFd ▸ hacc.acquire Set.self_notMem_Iio ?_
      ((keeper_thread t _).trans hfd) (sameBut_thread t _)
    rw [keeper, ht]
    rfl
  | refused =>
    refine ⟨hreserved, ?_, h.kind, h.user_closed (user_notMem (some st.nextFd) (Or.inr rfl))⟩
    exact Order.Iio_succ_eq_insert st.nextFd ▸
      (hacc.store Set.self_notMem_Iio).congr (fun _ => rfl) (passed_closed (some st.nextFd))
  | @reserve t purpose pc ht hpc =>
    obtain ⟨hpipe, hthreads, hpoll, hnextFd, hclosed⟩ := reserve_same st pc
    have hdescriptor := h.reserve_descriptor hpc (a := some t) (by rw [holder, ht]; rfl)
    refine ⟨hreserved, ?_, fun i => (hdescriptor i).2, ?_⟩
    · change Accounts (keeper (st.reserve pc).1.slot (update (st.reserve pc).1.threads t _)
        (st.reserve pc).1.poll) (passed (st.reserve pc).1.pipe (st.reserve pc).1.closed)
        (Set.Iio (st.reserve pc).1.nextFd)
      rw [hpipe, hthreads, hpoll, hnextFd, hclosed]
      refine hsame (fun i => (hdescriptor i).1) (hthread ?_) rfl
      rw [ht]
      rfl
    · change ∀ n, .user n ∉ (st.reserve pc).1.closed
      rw [hclosed]
      exact h.user
  | @send t purpose id ht =>
    refine ⟨hreserved, ?_, h.kind, h.user⟩
    have hheld : keeper st.slot st.threads st.poll (.inr (some t)) = purpose.fd? := by
      rw [keeper, ht]
      rfl
    exact (hacc.putDown hheld (keeper_thread t none) (sameBut_thread t none)).congr (fun _ => rfl)
      (passed_command (.opening id purpose))
  | @giveUp t purpose ht =>
    refine ⟨hreserved, ?_, h.kind, h.user_closed (user_notMem purpose.fd? (Or.inr rfl))⟩
    have hheld : keeper st.slot st.threads st.poll (.inr (some t)) = purpose.fd? := by
      rw [keeper, ht]
      rfl
    exact (hacc.putDown hheld (keeper_thread t none) (sameBut_thread t none)).congr (fun _ => rfl)
      (passed_closed purpose.fd?)
  | request =>
    refine ⟨hreserved, ?_, h.kind, h.user⟩
    rw [passed_request]
    exact hacc
  | pass hpoll =>
    exact ⟨hreserved, hsame (fun _ => rfl) (fun _ => rfl) (by rw [hpoll]; rfl), h.kind, h.user⟩
  | @command κ r gen pipe out hpoll hpipe hrun =>
    obtain ⟨hkind, hkeeps⟩ := h.command_keeps hok hpipe hrun
    refine ⟨hreserved, ?_, h.kind_update hkind,
      h.user_closed (user_notMem _ (hkeeps.imp And.right And.right))⟩
    have hpoll' : (PollPc.after out.report).fd? = st.poll.fd? := by rw [fd?_after, hpoll]; rfl
    have hrest := accounts_commit (hsame (fun _ => rfl) (fun _ => rfl) hpoll') hkeeps
    rw [hpipe, passed_head] at hrest
    exact hrest
  | @opening κ id purpose pipe out hpoll hpipe hrun =>
    obtain ⟨hkind, hopening⟩ := (Purpose.opening hrun).descriptor
    refine ⟨hreserved, ?_, h.kind_update hkind,
      h.user_closed (user_notMem _ (hopening.imp And.right And.right))⟩
    have hslot : (st.slot (hashId id)).own? = none :=
      own?_of_idle (Or.inr (h.reserve_of_pipe (hpipe ▸ mem_cons_self)))
    have hpoll' : (if purpose.marksAgain κ then PollPc.again (hashId id) out.report
        else .after out.report).fd? = st.poll.fd? := by
      rw [hpoll]
      split_ifs
      · rfl
      · exact fd?_after _
    have hfresh := hsame (fun _ => rfl) (fun _ => rfl) hpoll'
    rw [hpipe, passed_head] at hfresh
    exact accounts_opening (accounts_fresh hfresh) hslot (keeper_slot _ _) (sameBut_slot _ _)
      hopening
  | @wait entries hpoll hbatch =>
    refine ⟨hreserved, hsame (fun _ => rfl) (fun _ => rfl) ?_, h.kind, h.user⟩
    rw [hpoll, fetch]
    dsimp only
    split_ifs <;> rfl
  | skip hpoll hbatch hslot =>
    exact ⟨hreserved, hsame (fun _ => rfl) (fun _ => rfl) (by rw [hpoll]; rfl), h.kind, h.user⟩
  | accept hpoll hbatch hslot htype =>
    refine ⟨hreserved, ?_, h.kind, h.user⟩
    exact Order.Iio_succ_eq_insert st.nextFd ▸ hacc.acquire Set.self_notMem_Iio
      (by rw [keeper, hpoll]; rfl) (by rfl) sameBut_accept
  | acceptFails hpoll hbatch hslot htype =>
    exact ⟨hreserved, hsame (fun _ => rfl) (fun _ => rfl) (by rw [hpoll]; rfl), h.kind, h.user⟩
  | @entry κ e i batch out hpoll hbatch hslot hrun =>
    have heffect : Effect (st.slot i) False False False out := dispatch_effect hrun
    obtain ⟨hkind, hkeeps⟩ := heffect.descriptor (h.kind i) (fun hn => hn.2) fun hn => hn.2
    refine ⟨hreserved, accounts_commit (hsame (fun _ => rfl) (fun _ => rfl) ?_) hkeeps,
      h.kind_update hkind, h.user_closed (user_notMem _ (hkeeps.imp And.right And.right))⟩
    rw [hpoll]
    split_ifs
    · rfl
    · exact fd?_after _
  | @acceptReserve listener fd pc hpoll hpc =>
    obtain ⟨hpipe, hthreads, -, hnextFd, hclosed⟩ := reserve_same st pc
    have hdescriptor := h.reserve_descriptor hpc (a := none) (by rw [holder, hpoll]; rfl)
    refine ⟨hreserved, ?_, fun i => (hdescriptor i).2, ?_⟩
    · change Accounts (keeper (st.reserve pc).1.slot (st.reserve pc).1.threads _)
        (passed (st.reserve pc).1.pipe (st.reserve pc).1.closed) (Set.Iio (st.reserve pc).1.nextFd)
      rw [hpipe, hthreads, hnextFd, hclosed]
      exact hsame (fun i => (hdescriptor i).1) (fun _ => rfl) (by rw [hpoll]; rfl)
    · change ∀ n, .user n ∉ (st.reserve pc).1.closed
      rw [hclosed]
      exact h.user
  | @accepted listener fd id out hpoll hrun =>
    obtain ⟨hkind, hopening⟩ := (acceptSocket_opening hrun).descriptor
    refine ⟨hreserved, ?_, h.kind_update hkind,
      h.user_closed (user_notMem _ (hopening.imp And.right And.right))⟩
    have hslot := h.reserve_of_accept hpoll
    have hdown := hacc.putDown (x := some fd) (a := .inr none) (by rw [keeper, hpoll]; rfl)
      (fd?_after out.report) sameBut_accept
    exact accounts_opening hdown (own?_of_idle (Or.inr hslot)) (keeper_slot _ _) (sameBut_slot _ _)
      hopening
  | @notAccepted listener fd hpoll =>
    refine ⟨hreserved, ?_, h.kind, h.user_closed (user_notMem (some fd) (Or.inr rfl))⟩
    exact (hacc.putDown (x := some fd) (a := .inr none) (by rw [keeper, hpoll]; rfl) (by rfl)
      sameBut_accept).congr (fun _ => rfl) (passed_closed (some fd))
  | @again i report hpoll =>
    have hinvalid := h.reserved.marked i report hpoll
    have hkeeps : KeepsOrCloses (st.slot i) ⟨report, { st.slot i with type := .invalid }, none⟩ :=
      Or.inl ⟨own?_congr hinvalid.symm rfl, rfl⟩
    refine ⟨hreserved, accounts_commit (hsame (fun _ => rfl) (fun _ => rfl) ?_) hkeeps,
      h.kind_update (.of_idle (Or.inl rfl)), h.user_closed (user_notMem none (Or.inl rfl))⟩
    rw [hpoll]
    exact fd?_after report
  | purge hpoll =>
    exact ⟨hreserved, hsame (fun _ => rfl) (fun _ => rfl) (by rw [hpoll]; rfl), h.kind, h.user⟩
  | purged hpoll =>
    exact ⟨hreserved, hsame (fun _ => rfl) (fun _ => rfl) (by rw [hpoll]; rfl), h.kind, h.user⟩

theorem slot_step (h : Accounted st) (hok : st.KeepsDescriptors a) (hs : st.step a = .ok st')
    (hn : (st.slot i).own? = some n) : (st'.slot i).own? = some n ∨ .own n ∈ st'.closed := by
  have hcommit {j : Slot} (out : Outcome) (hout : KeepsOrCloses (st.slot j) out) :
      (update st.slot j out.socket i).own? = some n ∨
        .own n ∈ st.closed ++ out.closed.toList := by
    by_cases hj : i = j
    · subst hj
      rw [update_self]
      rcases hout with ⟨hown, -⟩ | ⟨-, hclosed⟩
      · exact Or.inl (hown.trans hn)
      · refine Or.inr (mem_append_right _ ?_)
        rw [hclosed, hn]
        exact mem_singleton_self _
    · rw [update_of_ne hj]
      exact Or.inl hn
  have hopening {j : Slot} {s : Socket} (hj : (st.slot j).type = .reserve) :
      (update st.slot j s i).own? = some n := by
    have hne : i ≠ j := by
      rintro rfl
      rw [own?_of_idle (Or.inr hj)] at hn
      cases hn
    rw [update_of_ne hne]
    exact hn
  cases step_cases hs with
  | @command κ r gen pipe out hpoll hpipe hrun =>
    exact hcommit out (h.command_keeps hok hpipe hrun).2
  | entry hpoll hbatch hslot hrun =>
    have heffect : Effect _ False False False _ := dispatch_effect hrun
    exact hcommit _ (heffect.descriptor (h.kind _) (fun hn => hn.2) fun hn => hn.2).2
  | opening hpoll hpipe hrun =>
    exact Or.inl (hopening (h.reserve_of_pipe (hpipe ▸ mem_cons_self)))
  | accepted hpoll hrun => exact Or.inl (hopening (h.reserve_of_accept hpoll))
  | @again j report hpoll =>
    refine hcommit ⟨report, { st.slot j with type := .invalid }, none⟩ (Or.inl ⟨?_, rfl⟩)
    exact own?_congr (h.reserved.marked j report hpoll).symm rfl
  | @reserve t purpose pc ht hpc =>
    exact Or.inl ((h.reserve_descriptor hpc (a := some t) (by rw [holder, ht]; rfl) i).1.trans hn)
  | acceptReserve hpoll hpc =>
    exact Or.inl ((h.reserve_descriptor hpc (a := none) (by rw [holder, hpoll]; rfl) i).1.trans hn)
  | call | callFd | refused | send | giveUp | request | pass | wait | skip | accept | acceptFails
  | notAccepted | purge | purged => exact Or.inl hn

end Accounted

/-! ### Where a descriptor is -/

/-- The descriptor `n` of the server is in use: in a slot, in the hands of a thread or of
`report_accept`, or in the pipe with a command whose slot is reserved. -/
inductive Open (st : Server) (n : ℕ) : Prop
  | slot {i : Slot} (hi : (st.slot i).own? = some n)
  | thread {t : ℕ} {purpose : Purpose} {pc : ReservePc} (ht : st.threads t = some (purpose, pc))
      (hfd : purpose.fd? = some n)
  | accept {listener : Slot} {pc : ReservePc} (hpoll : st.poll = .accept listener n pc)
  | command {id : Int32} {purpose : Purpose} (hpipe : .opening id purpose ∈ st.pipe)
      (hslot : (st.slot (hashId id)).type = .reserve) (hfd : purpose.fd? = some n)

/-- No descriptor is in the hands of a thread or in the pipe. -/
structure Settled (st : Server) : Prop where
  threads : ∀ t purpose pc, st.threads t = some (purpose, pc) → purpose.fd? = none
  poll : st.poll.fd? = none
  pipe : ∀ command ∈ st.pipe, command.fd? = none

namespace Accounted

variable {st st' : Server}

/-- A descriptor that is in use is not closed. -/
theorem not_closed (h : Accounted st) (hopen : st.Open n) : .own n ∉ st.closed := by
  have hheld {a : Slot ⊕ Option ℕ} (ha : keeper st.slot st.threads st.poll a = some n) :
      .own n ∉ st.closed := fun hn => h.accounts.disjoint a n ha (mem_passed.mpr (Or.inr hn))
  cases hopen with
  | slot hi => exact hheld (a := .inl _) hi
  | thread ht hfd => exact hheld (a := .inr (some _)) (by rw [keeper, ht]; exact hfd)
  | accept hpoll => exact hheld (a := .inr none) (by rw [keeper, hpoll]; rfl)
  | command hpipe hslot hfd =>
    intro hn
    have hdisjoint := (nodup_append.mp h.accounts.nodup).2.2
    exact hdisjoint n (mem_filterMap.mpr ⟨_, hpipe, hfd⟩) n (mem_own?.mpr hn) rfl

/-- A descriptor of the server is in use, or it is closed. -/
theorem open_or_closed (h : Accounted st) (hn : n < st.nextFd) :
    st.Open n ∨ .own n ∈ st.closed := by
  rcases (h.accounts.mem_iff n).mp hn with ⟨a, ha⟩ | hpassed
  · refine Or.inl ?_
    match a with
    | .inl i => exact .slot ha
    | .inr (some t) =>
      obtain ⟨⟨purpose, pc⟩, ht, hfd⟩ := Option.bind_eq_some_iff.mp ha
      exact .thread ht hfd
    | .inr none =>
      have hfd : st.poll.fd? = some n := ha
      cases hpoll : st.poll with
      | accept listener fd pc =>
        rw [hpoll] at hfd
        cases hfd
        exact .accept hpoll
      | top | events | again | purge =>
        rw [hpoll] at hfd
        cases hfd
  · refine (mem_passed.mp hpassed).imp_left ?_
    rintro ⟨command, hpipe, hfd⟩
    cases command with
    | request r gen => cases hfd
    | opening id purpose => exact .command hpipe (h.reserve_of_pipe hpipe) hfd

theorem count_le_one (h : Accounted st) (n : ℕ) : st.closed.count (.own n) ≤ 1 := by
  rw [← count_own?]
  exact nodup_iff_count_le_one.mp (nodup_append.mp h.accounts.nodup).2.1 n

/-! ### The end -/

theorem releaseSlot_closed (hs : Kind s) : (releaseSlot s).closed = s.own?.map .own := by
  rw [releaseSlot]
  split_ifs with hreserve
  · rw [own?_of_idle (Or.inr hreserve)]
    rfl
  · by_cases hinvalid : s.type = .invalid
    · rw [own?_of_idle (Or.inl hinvalid), Socket.forceClose]
      simp only [hinvalid]
      rfl
    · split
      · next hclose => exact (forceClose_closes hinvalid hclose).own? hs
      · next hclose => exact absurd (forceClose_fault hclose).2 hreserve

theorem release_closed (h : Accounted st) : st.release.closed =
    st.closed ++ ((List.finRange maxSocket).filterMap fun i => (st.slot i).own?).map .own := by
  rw [release, map_filterMap]
  exact congrArg _ (filterMap_congr fun i _ => releaseSlot_closed (h.kind i))

/-- **`socket_server_release` closes what is left.** -/
theorem release (h : Accounted st) (hsettled : Settled st) (hn : n < st.nextFd) :
    st.release.closed.count (.own n) = 1 := by
  have hall : ∀ a r, keeper st.slot st.threads st.poll a = some r →
      a ∈ (List.finRange maxSocket).map Sum.inl := by
    intro a r ha
    match a with
    | .inl i => exact mem_map_of_mem (mem_finRange i)
    | .inr (some t) =>
      obtain ⟨⟨purpose, pc⟩, ht, hfd⟩ := Option.bind_eq_some_iff.mp ha
      exact absurd (hfd.symm.trans (hsettled.threads t purpose pc ht)) (Option.some_ne_none r)
    | .inr none => exact absurd (ha.symm.trans hsettled.poll) (Option.some_ne_none r)
  have hcollected := h.accounts.collect
    ((nodup_finRange maxSocket).map Sum.inl_injective) hall
  have hlisted : passed st.pipe st.closed ++
      ((List.finRange maxSocket).map Sum.inl).filterMap (keeper st.slot st.threads st.poll) =
      st.release.closed.filterMap Fd.own? := by
    have hpipe : st.pipe.filterMap Command.fd? = [] :=
      filterMap_eq_nil_iff.mpr hsettled.pipe
    have hown (l : List ℕ) : (l.map Fd.own).filterMap Fd.own? = l := by
      rw [filterMap_map]
      exact filterMap_some
    rw [passed, hpipe, h.release_closed, filterMap_append, hown, filterMap_map]
    rfl
  rw [← count_own?, ← hlisted]
  rcases hcollected.once hn with ⟨⟨a, ha⟩, -⟩ | ⟨hcount, -⟩
  · cases ha
  · exact hcount

theorem release_user (h : Accounted st) (n : ℕ) : .user n ∉ st.release.closed := by
  rw [h.release_closed]
  refine h.user_closed (fun m hm => ?_) n
  obtain ⟨k, -, hk⟩ := mem_map.mp hm
  cases hk

end Accounted

end Server

open Mtask.SocketServer.Server

/-- **Descriptors.** In every run of threads, commands and entries, with any answers of the kernel,
in which the slots are respected: a descriptor that the server has opened is in use, or it is closed
once; it stays in its slot until it is closed; none that was handed in is closed; and after
`socket_server_release`, with nothing under way, every one is closed once. -/
theorem descriptors_closed_once {memory : Slot → Socket} {st : Server}
    (h : Transition.Reaches Server.step KeepsDescriptors (.create memory) st) :
    (∀ n < st.nextFd, st.Open n ∧ st.closed.count (.own n) = 0 ∨
      ¬st.Open n ∧ st.closed.count (.own n) = 1) ∧
      (∀ n, .user n ∉ st.closed ∧ .user n ∉ st.release.closed) ∧
      (∀ a st', st.KeepsDescriptors a → st.step a = .ok st' → ∀ i n, (st.slot i).own? = some n →
        (st'.slot i).own? = some n ∨ .own n ∈ st'.closed) ∧
      (st.Settled → ∀ n < st.nextFd, st.release.closed.count (.own n) = 1) := by
  have hst : st.Accounted :=
    h.invariant (.create memory) fun _ _ _ hu hok hs => hu.step hok hs
  refine ⟨fun n hn => ?_, fun n => ⟨hst.user n, hst.release_user n⟩,
    fun a st' hok hs i n hi => hst.slot_step hok hs hi,
    fun hsettled n hn => hst.release hsettled hn⟩
  by_cases hopen : st.Open n
  · exact Or.inl ⟨hopen, List.count_eq_zero.mpr (hst.not_closed hopen)⟩
  · refine Or.inr ⟨hopen, Nat.le_antisymm (hst.count_le_one n) ?_⟩
    exact List.count_pos_iff.mpr ((hst.open_or_closed hn).resolve_left hopen)

/-- A descriptor to listen on is opened, and the server is released. -/
theorem descriptors_closed_once_listen : ∃ st : Server, st.closed = [] ∧
    st.release.closed.count (.own 0) = 1 := by
  have hrun : ∃ st, Transition.exec Server.step (.create Server.zeroed)
      ([.call 0 (.listen 7 0)] ++ List.replicate 6 (.thread 0) ++ [.ctrl .fine]) = .ok st ∧
      st.closed = [] ∧ st.pipe = [] ∧ st.poll = .top ∧ st.nextFd = 1 ∧ ∀ t, st.threads t = none :=
    ⟨_, rfl, rfl, rfl, rfl, rfl, fun t => by cases t <;> rfl⟩
  have hpermitted : Transition.Permitted Server.step KeepsDescriptors (.create Server.zeroed)
      ([.call 0 (.listen 7 0)] ++ List.replicate 6 (.thread 0) ++ [.ctrl .fine]) := by
    have hcall {st : Server} {purpose : Purpose} : st.KeepsDescriptors (.call 0 purpose) :=
      ⟨trivial, fun _ hctrl => by cases hctrl⟩
    have hthread {st : Server} (hpoll : st.poll = .top) : st.KeepsDescriptors (.thread 0) := by
      refine ⟨fun _ _ _ _ _ hagain => ?_, fun _ hctrl => by cases hctrl⟩
      rw [hpoll] at hagain
      cases hagain
    refine .cons hcall rfl <| .cons (hthread rfl) rfl <| .cons (hthread rfl) rfl <|
      .cons (hthread rfl) rfl <| .cons (hthread rfl) rfl <| .cons (hthread rfl) rfl <|
      .cons (hthread rfl) rfl <| .cons ⟨?_, ?_⟩ rfl trivial
    · rintro r gen pipe ⟨⟩
    · rintro κ - r gen pipe ⟨⟩
  obtain ⟨st, hst, hclosed, hpipe, hpoll, hnext, hthreads⟩ := hrun
  have hsettled : st.Settled := by
    refine ⟨fun t purpose pc ht => ?_, by rw [hpoll]; rfl, fun command hcommand => ?_⟩
    · rw [hthreads] at ht
      cases ht
    · rw [hpipe] at hcommand
      cases hcommand
  obtain ⟨-, -, -, hrelease⟩ := descriptors_closed_once (hpermitted.reaches hst)
  exact ⟨st, hclosed, hrelease hsettled 0 (by rw [hnext]; exact Nat.one_pos)⟩

/-- **The claim fails on a bound socket.** A descriptor is bound, two bytes are queued on it, and it
is closed: its slot becomes `SOCKET_TYPE_HALFCLOSE`, and when the other side has nothing more to
send, the descriptor is closed. -/
theorem bound_closed : ∃ st, Transition.Reaches Server.step (fun _ _ => True)
    (.create Server.zeroed) st ∧ .user 3 ∈ st.closed := by
  have hrun : ∃ st, Transition.exec Server.step (.create Server.zeroed)
      (openAndSend (.bind 7 3) [] ++ [.request (.close 1 7) maxSocket, .ctrl .fine, .pass,
        .wait [(some (hashId 1), true, false)], .event { Kernel.fine with read := .got 0 }]) =
      .ok st ∧ st.closed = [.user 3] := ⟨_, rfl, rfl⟩
  obtain ⟨st, hst, hclosed⟩ := hrun
  refine ⟨st, Transition.reaches_of_exec hst fun _ _ _ => trivial, ?_⟩
  rw [hclosed]
  exact List.mem_singleton_self _

end Mtask.SocketServer
