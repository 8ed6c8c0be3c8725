import Mathlib.Data.Set.Card
import Mtask.Lib.Transition
import Mtask.Snax.Gateserver

/-!
# The clients of a gate server

`client_number` counts the connections in the table, so that no more than `maxclient` are accepted.
A connection is taken into the table before `handler.connect` is called, and out of it after
`handler.disconnect` or `handler.error` has returned; a handler may also yield, and other messages
come in between, or raise an error, and then nothing more is done for its message.
-/

namespace Mtask.Snax

/-- Which of the handlers that end a connection there are. -/
structure EndHandlers where
  disconnect : Bool
  error : Bool

/-- The gate server, the connections for which `disconnect` or `error` runs, and those that have
been opened and whose end has not been received since. -/
structure GateClients where
  gate : Gateserver
  running : List ℕ
  opened : ℕ → Bool

/-- A message from the socket server, a call of `openclient` or `closeclient` from anywhere, and the
end of a handler that runs. Those of `connect` and `message` do nothing else. -/
inductive ClientEvent
  | open (fd : ℕ)
  | data (fd : ℕ)
  | close (fd : ℕ)
  | error (fd : ℕ)
  | openclient (fd : ℕ)
  | closeclient (fd : ℕ)
  | returned (i : ℕ)
  | raised (i : ℕ)
  deriving DecidableEq, Repr

/-- There is no such handler. -/
inductive NotRunning
  | notRunning
  deriving DecidableEq, Repr

namespace GateClients

/-- `MSG.open` up to the call of `handler.connect` -/
def msgOpen (s : GateClients) (fd : ℕ) : GateClients :=
  if s.gate.Full then { s with gate := s.gate.call (.close fd) }
  else { s with gate := s.gate.accept fd, opened := Function.update s.opened fd true }

/-- `MSG.close` and `MSG.error`, up to the call of the handler if it is `present`. -/
def msgEnd (s : GateClients) (present : Bool) (fd : ℕ) : GateClients :=
  let s := { s with opened := Function.update s.opened fd false }
  if present then { s with running := s.running ++ [fd] }
  else { s with gate := s.gate.closeFd fd }

/-- A step; a handler that has returned is followed by `close_fd`. -/
def step (handler : EndHandlers) (s : GateClients) :
    ClientEvent → Except NotRunning GateClients
  | .open fd => .ok (s.msgOpen fd)
  | .data _ => .ok s
  | .close fd => .ok (s.msgEnd handler.disconnect fd)
  | .error fd => .ok (s.msgEnd handler.error fd)
  | .openclient fd => .ok { s with gate := s.gate.openclient fd }
  | .closeclient fd => .ok { s with gate := s.gate.closeclient fd }
  | .returned i =>
    match s.running[i]? with
    | some fd => .ok { s with gate := s.gate.closeFd fd, running := s.running.eraseIdx i }
    | none => .error .notRunning
  | .raised i =>
    match s.running[i]? with
    | some _ => .ok { s with running := s.running.eraseIdx i }
    | none => .error .notRunning

/-- The gate server when it starts. -/
def init (maxclient : ℕ) (nodelay : Bool) : GateClients where
  gate := ⟨maxclient, 0, nodelay, fun _ => none, []⟩
  running := []
  opened _ := false

end GateClients

/-- The connections in the table. -/
def Gateserver.clients (g : Gateserver) : Set ℕ :=
  {fd | g.connection fd ≠ none}

/-! ### The table of connections -/

namespace Gateserver

theorem mem_clients {g : Gateserver} {fd : ℕ} : fd ∈ g.clients ↔ g.connection fd ≠ none := Iff.rfl

variable (g : Gateserver) (fd : ℕ)

theorem clients_accept : (g.accept fd).clients = insert fd g.clients := by
  ext fd'
  rw [mem_clients, connection_accept, Set.mem_insert_iff, mem_clients]
  by_cases h : fd' = fd
  · subst h
    simp
  · rw [Function.update_of_ne h]
    exact (or_iff_right h).symm

theorem clientNumber_accept : (g.accept fd).clientNumber = g.clientNumber + 1 := by
  rw [accept]
  split <;> rfl

theorem maxclient_accept : (g.accept fd).maxclient = g.maxclient := by
  rw [accept]
  split <;> rfl

theorem clients_closeFd : (g.closeFd fd).clients = g.clients \ {fd} := by
  ext fd'
  rw [mem_clients, Set.mem_sdiff, mem_clients, Set.mem_singleton_iff]
  by_cases h : fd' = fd
  · subst h
    rw [closeFd]
    split_ifs with hc
    · simp
    · simp [not_not.mp hc]
  · rw [connection_closeFd_of_ne _ _ h]
    exact (and_iff_left h).symm

theorem maxclient_closeFd : (g.closeFd fd).maxclient = g.maxclient := by
  rw [closeFd]
  split_ifs <;> rfl

variable {g fd}

theorem clientNumber_closeFd (h : fd ∈ g.clients) :
    (g.closeFd fd).clientNumber = g.clientNumber - 1 := by
  rw [closeFd, if_pos (mem_clients.mp h)]

theorem closeFd_of_notMem (h : fd ∉ g.clients) : g.closeFd fd = g :=
  if_neg h

end Gateserver

theorem Gateserver.clients_openclient (g : Gateserver) (fd : ℕ) :
    (g.openclient fd).clients = g.clients := by
  rw [clients, connection_openclient]
  rfl

theorem Gateserver.clients_closeclient (g : Gateserver) (fd : ℕ) :
    (g.closeclient fd).clients = g.clients := by
  rw [closeclient]
  split_ifs with h
  · ext fd'
    rw [mem_clients, mem_clients]
    simp only [Function.update_apply]
    split_ifs with heq
    · subst heq
      simp [h]
    · rfl
  · rfl

namespace GateClients

/-- The connections in the table are counted, there are no more than `maxclient`, and each of them
has been opened, and its end has not been received or is still handled. A gate is not full when one
of them has gone. -/
structure Accounted (s : GateClients) : Prop where
  finite : s.gate.clients.Finite
  count : s.gate.clientNumber = s.gate.clients.ncard
  le : s.gate.clientNumber ≤ s.gate.maxclient
  known : ∀ fd ∈ s.gate.clients, s.opened fd = true ∨ fd ∈ s.running
  accepts : ∀ fd ∈ s.gate.clients, ¬(s.gate.closeFd fd).Full

/-- Steps that keep the account: a connection that is accepted is not in the table, and a handler
does not raise an error if that leaves a connection in the table whose end has been received. -/
def Permits (s : GateClients) : ClientEvent → Prop
  | .open fd => s.gate.Full ∨ s.gate.connection fd = none
  | .raised i => ∀ fd, s.running[i]? = some fd →
    s.gate.connection fd = none ∨ s.opened fd = true ∨ fd ∈ s.running.eraseIdx i
  | _ => True

namespace Accounted

variable {s t : GateClients} {fd : ℕ}

theorem of_eq (h : Accounted s) (hclients : t.gate.clients = s.gate.clients)
    (hnumber : t.gate.clientNumber = s.gate.clientNumber)
    (hmax : t.gate.maxclient = s.gate.maxclient)
    (hknown : ∀ fd ∈ s.gate.clients, t.opened fd = true ∨ fd ∈ t.running) : Accounted t where
  finite := by
    rw [hclients]
    exact h.finite
  count := by rw [hnumber, hclients, h.count]
  le := by
    rw [hnumber, hmax]
    exact h.le
  known fd hfd := hknown fd (hclients ▸ hfd)
  accepts fd hfd := by
    have hle := h.le
    rw [Gateserver.Full, Gateserver.clientNumber_closeFd hfd, Gateserver.maxclient_closeFd, hnumber,
      hmax]
    omega

theorem init (maxclient : ℕ) (nodelay : Bool) : Accounted (init maxclient nodelay) := by
  have hempty : (GateClients.init maxclient nodelay).gate.clients = ∅ :=
    Set.eq_empty_of_forall_notMem fun fd hfd => hfd rfl
  refine ⟨?_, ?_, Int.natCast_nonneg maxclient, ?_, ?_⟩
  · rw [hempty]
    exact Set.finite_empty
  · rw [hempty, Set.ncard_empty]
    rfl
  · rw [hempty]
    exact fun fd hfd => absurd hfd (Set.notMem_empty fd)
  · rw [hempty]
    exact fun fd hfd => absurd hfd (Set.notMem_empty fd)

/-- A connection that is not in the table is accepted. -/
theorem accept (h : Accounted s) (hfull : ¬s.gate.Full) (hfd : fd ∉ s.gate.clients) :
    Accounted { s with gate := s.gate.accept fd, opened := Function.update s.opened fd true } := by
  have hclients := s.gate.clients_accept fd
  have hcount := h.count
  have hle : s.gate.clientNumber + 1 ≤ s.gate.maxclient := by
    rw [Gateserver.Full] at hfull
    omega
  have hnumber : (s.gate.accept fd).clientNumber ≤ (s.gate.accept fd).maxclient := by
    rwa [Gateserver.clientNumber_accept, Gateserver.maxclient_accept]
  refine ⟨?_, ?_, hnumber, fun fd' hfd' => ?_, fun fd' hfd' => ?_⟩
  · rw [hclients]
    exact h.finite.insert fd
  · rw [hclients, Set.ncard_insert_of_notMem hfd h.finite, Gateserver.clientNumber_accept, hcount]
    rfl
  · by_cases heq : fd' = fd
    · subst heq
      exact Or.inl (Function.update_self ..)
    · rw [hclients] at hfd'
      simp only [Function.update_of_ne heq]
      exact h.known fd' (hfd'.resolve_left heq)
  · rw [Gateserver.Full, Gateserver.clientNumber_closeFd hfd', Gateserver.maxclient_closeFd]
    simp only
    omega

/-- A connection goes, or it was not in the table. -/
theorem closeFd {running : List ℕ} {opened : ℕ → Bool} (h : Accounted s)
    (hknown : ∀ fd' ∈ s.gate.clients, fd' ≠ fd → opened fd' = true ∨ fd' ∈ running) :
    Accounted ⟨s.gate.closeFd fd, running, opened⟩ := by
  by_cases hfd : fd ∈ s.gate.clients
  · have hclients := s.gate.clients_closeFd fd
    have hpos := (Set.ncard_pos h.finite).mpr ⟨fd, hfd⟩
    have hcount := h.count
    have hle := h.le
    refine ⟨?_, ?_, ?_, fun fd' hfd' => ?_, fun fd' hfd' => ?_⟩
    · rw [hclients]
      exact h.finite.sdiff
    · rw [hclients, Set.ncard_sdiff_singleton_of_mem hfd, Gateserver.clientNumber_closeFd hfd]
      omega
    · rw [Gateserver.clientNumber_closeFd hfd, Gateserver.maxclient_closeFd]
      omega
    · rw [hclients] at hfd'
      exact hknown fd' hfd'.1 hfd'.2
    · rw [Gateserver.Full, Gateserver.clientNumber_closeFd hfd', Gateserver.maxclient_closeFd,
        Gateserver.clientNumber_closeFd hfd, Gateserver.maxclient_closeFd]
      omega
  · rw [Gateserver.closeFd_of_notMem hfd]
    refine h.of_eq rfl rfl rfl fun fd' hfd' => hknown fd' hfd' ?_
    rintro rfl
    exact hfd hfd'

theorem msgEnd (h : Accounted s) (present : Bool) (fd : ℕ) : Accounted (s.msgEnd present fd) := by
  have hopened {fd' : ℕ} (hne : fd' ≠ fd) : Function.update s.opened fd false fd' = s.opened fd' :=
    Function.update_of_ne hne ..
  rw [GateClients.msgEnd]
  cases present with
  | true =>
    refine h.of_eq rfl rfl rfl fun fd' hfd' => ?_
    simp only [if_true]
    by_cases heq : fd' = fd
    · exact Or.inr (List.mem_append_right _ (List.mem_singleton.mpr heq))
    · rw [hopened heq]
      exact (h.known fd' hfd').imp_right (List.mem_append_left _)
  | false =>
    refine h.closeFd fun fd' hfd' hne => ?_
    simp only [hopened hne]
    exact h.known fd' hfd'

end Accounted

theorem mem_eraseIdx_of_ne {running : List ℕ} {i fd fd' : ℕ} (hi : running[i]? = some fd)
    (h : fd' ∈ running) (hne : fd' ≠ fd) : fd' ∈ running.eraseIdx i := by
  obtain ⟨hlt, hget⟩ := List.getElem?_eq_some_iff.mp hi
  rw [List.mem_eraseIdx_iff_getElem?]
  obtain ⟨j, hj⟩ := List.mem_iff_getElem?.mp h
  refine ⟨j, fun heq => ?_, hj⟩
  subst heq
  exact hne (Option.some.inj (hj.symm.trans hi))

/-- **A step keeps the account exactly when it is permitted.** -/
theorem accounted_step_iff {handler : EndHandlers} {s t : GateClients} {e : ClientEvent}
    (h : Accounted s) (hstep : step handler s e = .ok t) : Accounted t ↔ Permits s e := by
  cases e with
  | «open» fd =>
    obtain rfl := Except.ok.inj hstep
    rw [msgOpen, Permits]
    split_ifs with hfull
    · exact iff_of_true (h.of_eq rfl rfl rfl h.known) (Or.inl hfull)
    · by_cases hfd : fd ∈ s.gate.clients
      · refine iff_of_false (fun hcon => ?_) fun hor => hor.elim hfull hfd
        have hcount := hcon.count
        simp only at hcount
        rw [Gateserver.clients_accept, Set.insert_eq_of_mem hfd, Gateserver.clientNumber_accept,
          h.count] at hcount
        omega
      · exact iff_of_true (h.accept hfull hfd) (Or.inr (not_not.mp hfd))
  | data fd =>
    obtain rfl := Except.ok.inj hstep
    exact iff_of_true h trivial
  | close fd =>
    obtain rfl := Except.ok.inj hstep
    exact iff_of_true (h.msgEnd handler.disconnect fd) trivial
  | error fd =>
    obtain rfl := Except.ok.inj hstep
    exact iff_of_true (h.msgEnd handler.error fd) trivial
  | openclient fd =>
    obtain rfl := Except.ok.inj hstep
    refine iff_of_true (h.of_eq (s.gate.clients_openclient fd) ?_ ?_ h.known) trivial
    · rw [Gateserver.openclient]
      split <;> rfl
    · rw [Gateserver.openclient]
      split <;> rfl
  | closeclient fd =>
    obtain rfl := Except.ok.inj hstep
    refine iff_of_true (h.of_eq (s.gate.clients_closeclient fd) ?_ ?_ h.known) trivial
    · rw [Gateserver.closeclient]
      split <;> rfl
    · rw [Gateserver.closeclient]
      split <;> rfl
  | returned i =>
    rw [step] at hstep
    split at hstep
    · next fd hi =>
      obtain rfl := Except.ok.inj hstep
      refine iff_of_true (h.closeFd fun fd' hfd' hne => ?_) trivial
      exact (h.known fd' hfd').imp_right fun hmem => mem_eraseIdx_of_ne hi hmem hne
    · cases hstep
  | raised i =>
    rw [step] at hstep
    split at hstep
    · next fd hi =>
      obtain rfl := Except.ok.inj hstep
      rw [Permits, hi]
      constructor
      · rintro hcon fd' hfd'
        obtain rfl := Option.some.inj hfd'
        by_cases hfd : fd ∈ s.gate.clients
        · exact Or.inr (hcon.known fd hfd)
        · exact Or.inl (not_not.mp hfd)
      · intro hok
        refine h.of_eq rfl rfl rfl fun fd' hfd' => ?_
        by_cases heq : fd' = fd
        · subst heq
          exact (hok fd' rfl).resolve_left hfd'
        · exact (h.known fd' hfd').imp_right fun hmem => mem_eraseIdx_of_ne hi hmem heq
    · cases hstep

end GateClients

open GateClients Transition in
/-- **The clients are counted.** In a run the connections in the table are always counted, at most
`maxclient` and connected, and the gate accepts again when one has gone, if and only if no
connection is accepted that is in the table already, and no handler raises an error that leaves a
connection in the table whose end has been received. -/
theorem clients_accounted_iff (handler : EndHandlers) (maxclient : ℕ) (nodelay : Bool)
    {events : List ClientEvent} {t : GateClients}
    (hrun : exec (step handler) (init maxclient nodelay) events = .ok t) :
    (∀ l, l <+: events → ∀ s, exec (step handler) (init maxclient nodelay) l = .ok s →
      Accounted s) ↔ Permitted (step handler) Permits (init maxclient nodelay) events :=
  forall_prefix_iff_permitted (fun _ _ _ h hstep => accounted_step_iff h hstep) hrun
    (Accounted.init maxclient nodelay)

open GateClients in
/-- One client is accepted, one is refused, and when the first one has gone another is accepted. -/
theorem clients_accounted_iff_refused :
    Transition.Permitted (step ⟨true, true⟩) Permits (init 1 false) [.open 1, .open 2, .close 2, .returned 0,
      .close 1, .closeclient 1, .returned 0, .open 3] ∧
    ∀ l, l <+: [.open 1, .open 2, .close 2, .returned 0, .close 1, .closeclient 1, .returned 0,
        .open 3] →
      ∀ s, Transition.exec (step ⟨true, true⟩) (init 1 false) l = .ok s → Accounted s := by
  have hpermitted : Transition.Permitted (step ⟨true, true⟩) Permits (init 1 false) [.open 1, .open 2,
      .close 2, .returned 0, .close 1, .closeclient 1, .returned 0, .open 3] := by
    refine .cons (Or.inr rfl) rfl (.cons (Or.inl ?_) rfl (.cons trivial rfl (.cons trivial rfl ?_)))
    · decide
    · refine .cons trivial rfl (.cons trivial rfl (.cons trivial rfl (.cons (Or.inr ?_) rfl trivial)))
      rfl
  exact ⟨hpermitted, (clients_accounted_iff ⟨true, true⟩ 1 false rfl).mpr hpermitted⟩

open GateClients in
/-- A handler that raises an error leaves the only client in the table, for ever. -/
theorem clients_accounted_fails :
    ∃ s, Transition.exec (step ⟨true, true⟩) (init 1 false) [.open 1, .close 1, .raised 0] = .ok s ∧
      ¬Accounted s ∧ s.gate.Full := by
  refine ⟨_, rfl, fun h => ?_, by decide⟩
  obtain hopened | hrunning := h.known 1 (Option.some_ne_none true)
  · cases hopened
  · cases hrunning

end Mtask.Snax
