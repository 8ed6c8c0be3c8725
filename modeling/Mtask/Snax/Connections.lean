import Mtask.Snax.Msgserver

/-!
# Users and their connections

The table of a user names its connection, and `connection` names the user of a connection. The two
agree as long as a user authenticates no second connection while it has one: `do_auth` does not
take the first one out of `connection`.
-/

namespace Mtask.Snax.Msgserver

open Function (update update_apply update_of_ne update_self)

variable {ν : Type}

/-- The gate has been told of the connection and not of its end, and knows it. -/
def Open (s : Msgserver ν) (fd : ℕ) : Prop :=
  s.isOpen fd = true ∧ s.gate.connection fd ≠ none

/-- The connections and the users that are online name each other. -/
structure Consistent (s : Msgserver ν) : Prop where
  connection : ∀ fd u, s.connection fd = some u →
    (s.users u).fd = some fd ∧ s.userOnline (s.users u).username = some u ∧ s.Open fd
  fd : ∀ username u fd, s.userOnline username = some u → (s.users u).fd = some fd →
    s.connection fd = some u

/-- The end of a connection detaches no user from another one. -/
def KeepsOthers (conf : Conf ν) (s : Msgserver ν) : Prop :=
  ∀ username u fd fd', s.userOnline username = some u → (s.users u).fd = some fd' → fd' ≠ fd →
    ((s.closed conf fd).users u).fd = some fd' ∧ (s.closed conf fd).connection fd' = some u

/-- The user that logs out has no connection afterwards, and those it had are being closed. -/
def LogoutCloses (s : Msgserver ν) : Prop :=
  ∀ username u t, s.userOnline username = some u → s.logout username = .ok t →
    ∀ fd, t.connection fd ≠ some u ∧
      (s.connection fd = some u → t.gate.connection fd = some false)

/-- The first message of a connection authenticates a user that has no connection, and an id is
not used again while `conf.disconnect_handler` runs for the connection that had it. -/
def Single [LE ν] [DecidableLE ν] (conf : Conf ν) (s : Msgserver ν) : Event → Prop
  | .data fd message => s.handshake fd ≠ none →
      ∀ u idx, s.checkAuth conf message = .ok (u, idx) → (s.users u).fd = none
  | .accepted fd _ => fd ∉ s.closing
  | _ => True

/-! ### What requests leave alone -/

/-- The tables of users and connections are the same, and the gate has forgotten no connection. -/
structure SameTables (s t : Msgserver ν) : Prop where
  userOnline : t.userOnline = s.userOnline
  handshake : t.handshake = s.handshake
  connection : t.connection = s.connection
  nextUser : t.nextUser = s.nextUser
  closing : t.closing = s.closing
  isOpen : t.isOpen = s.isOpen
  fd : ∀ u, (t.users u).fd = (s.users u).fd
  username : ∀ u, (t.users u).username = (s.users u).username
  gate : ∀ fd, s.gate.connection fd ≠ none → t.gate.connection fd ≠ none

variable {u : ℕ} {user : User ν}

namespace SameTables

variable {s t r : Msgserver ν}

theorem refl (s : Msgserver ν) : SameTables s s :=
  ⟨rfl, rfl, rfl, rfl, rfl, rfl, fun _ => rfl, fun _ => rfl, fun _ h => h⟩

theorem trans (h : SameTables s t) (h' : SameTables t r) : SameTables s r where
  userOnline := h'.userOnline.trans h.userOnline
  handshake := h'.handshake.trans h.handshake
  connection := h'.connection.trans h.connection
  nextUser := h'.nextUser.trans h.nextUser
  closing := h'.closing.trans h.closing
  isOpen := h'.isOpen.trans h.isOpen
  fd u := (h'.fd u).trans (h.fd u)
  username u := (h'.username u).trans (h.username u)
  gate fd hfd := h'.gate fd (h.gate fd hfd)

theorem field_update {β : Type} (f : User ν → β) {users : ℕ → User ν} (user : User ν)
    (h : f user = f (users u)) (v : ℕ) : f (update users u user v) = f (users v) := by
  rw [Function.apply_update (fun _ => f), h]
  exact congrFun (Function.update_eq_self u fun k => f (users k)) v

theorem setUser (s : Msgserver ν) (hfd : user.fd = (s.users u).fd)
    (hname : user.username = (s.users u).username) : SameTables s (s.setUser u user) :=
  { refl s with
    fd := field_update User.fd user hfd
    username := field_update User.username user hname }

theorem setEntry (s : Msgserver ν) (p : ℕ) (entry : Entry ν) : SameTables s (s.setEntry p entry) :=
  { refl s with }

theorem send (s : Msgserver ν) (fd : ℕ) (data : LuaString) : SameTables s (s.send fd data) :=
  { refl s with }

theorem closeclient (s : Msgserver ν) (fd : ℕ) : SameTables s (s.closeclient fd) :=
  { refl s with gate := fun _ h => s.gate.connection_closeclient fd h }

theorem withHandshake (h : SameTables s t) (handshake : ℕ → Option LuaString) :
    SameTables { s with handshake } { t with handshake } :=
  { h with handshake := rfl }

theorem requestFailed (s : Msgserver ν) (fd : ℕ) : SameTables s (s.requestFailed fd) := by
  rw [Msgserver.requestFailed]
  split
  · exact closeclient s fd
  · exact refl s

theorem retireResponse (conf : Conf ν) (s : Msgserver ν) (u : ℕ) :
    SameTables s (s.retireResponse conf u) := by
  rw [Msgserver.retireResponse]
  split
  · generalize retireLoop conf.expiredNumber (s.users u).response s.entries 0 = r
    obtain ⟨response, entries, max⟩ := r
    have hentries : SameTables s { s with entries } := { refl s with }
    exact hentries.trans (setUser _ rfl rfl)
  · exact refl s

theorem respond (conf : Conf ν) (s : Msgserver ν) (u p : ℕ) :
    SameTables s (s.respond conf u p) := by
  rw [Msgserver.respond]
  have huser : SameTables s (s.setUser u { s.users u with index := (s.users u).index + 1 }) :=
    setUser s rfl rfl
  refine SameTables.trans (huser.trans ?_) ((setEntry _ p _).trans (retireResponse conf _ u))
  split
  · split
    · exact send _ _ _
    · exact refl _
  · exact refl _

theorem auth [LE ν] [DecidableLE ν] (conf : Conf ν) (s : Msgserver ν) (fd : ℕ)
    (addr message : LuaString) :
    SameTables (s.doAuth conf fd message addr).1 (s.auth conf fd addr message) := by
  rw [Msgserver.auth]
  generalize s.doAuth conf fd message addr = r
  obtain ⟨t, reply⟩ := r
  simp only
  split
  · exact (send t fd _).trans (closeclient _ fd)
  · exact send t fd _

theorem startRequest (s : Msgserver ν) (fd u session : ℕ) (message : LuaString) :
    SameTables s (s.startRequest fd u session message) := by
  have huser : SameTables s (s.setUser u { s.users u with
      response := (session, s.nextEntry) :: (s.users u).response }) := setUser s rfl rfl
  exact { huser with }

theorem resend (conf : Conf ν) (s : Msgserver ν) (fd u p : ℕ) :
    SameTables s (s.resend conf fd u p) := by
  rw [Msgserver.resend]
  simp only
  split
  · exact setEntry s p _
  · exact (setEntry s p _).trans (respond conf _ u p)

theorem request [DecidableEq ν] (conf : Conf ν) (s : Msgserver ν) (fd : ℕ) (message : LuaString) :
    SameTables s (s.request conf fd message) := by
  rw [Msgserver.request]
  cases s.connection fd with
  | none => exact requestFailed s fd
  | some u =>
    simp only
    split
    · exact requestFailed s fd
    · split
      · exact startRequest s ..
      · split
        · have huser (response : List (ℕ × ℕ)) :
              SameTables s (s.setUser u { s.users u with response }) := setUser s rfl rfl
          split
          · exact (huser _).trans (requestFailed _ fd)
          · exact (huser _).trans (startRequest _ ..)
        · exact resend conf s ..

theorem answered (conf : Conf ν) {request : ℕ} {answer : Answer}
    (h : s.answered conf request answer = .ok t) : SameTables s t := by
  rw [Msgserver.answered] at h
  cases hr : s.requests request with
  | none => simp [hr] at h
  | some r =>
    simp only [hr] at h
    have hpending : SameTables s { s with requests := update s.requests request none } :=
      { refl s with }
    cases henc : answer.encode r.session with
    | none =>
      rw [henc] at h
      cases h
      exact hpending.trans (requestFailed _ r.fd)
    | some response =>
      rw [henc] at h
      cases h
      exact hpending.trans ((setEntry _ r.entry _).trans (respond conf _ r.user r.entry))

end SameTables

/-! ### The tables in agreement -/

/-- What every event keeps: the tables agree, users that are online are known under their names,
and a connection that has not authenticated, or whose end is being handled, belongs to nobody. -/
structure Linked (s : Msgserver ν) : Prop where
  consistent : s.Consistent
  lt_nextUser : ∀ username u, s.userOnline username = some u → u < s.nextUser
  username : ∀ username u, s.userOnline username = some u → (s.users u).username = username
  handshake : ∀ fd, s.handshake fd ≠ none → s.connection fd = none ∧ s.isOpen fd = true
  closing : ∀ fd ∈ s.closing, s.isOpen fd = false

variable {s t : Msgserver ν} {conf : Conf ν}

variable {fd : ℕ}

namespace Linked

theorem congr (hst : SameTables s t) (h : Linked s) : Linked t where
  consistent :=
    { connection := fun fd u hc => by
        rw [hst.connection] at hc
        obtain ⟨hfd, hon, hopen, hgate⟩ := h.consistent.connection fd u hc
        refine ⟨(hst.fd u).trans hfd, ?_, ?_, hst.gate fd hgate⟩
        · rw [hst.userOnline, hst.username, hon]
        · rw [hst.isOpen, hopen]
      fd := fun username u fd hon hfd => by
        rw [hst.userOnline] at hon
        rw [hst.fd] at hfd
        rw [hst.connection]
        exact h.consistent.fd username u fd hon hfd }
  lt_nextUser username u hon := by
    rw [hst.userOnline] at hon
    exact hst.nextUser ▸ h.lt_nextUser username u hon
  username username u hon := by
    rw [hst.userOnline] at hon
    exact (hst.username u).trans (h.username username u hon)
  handshake fd hs := by
    rw [hst.handshake] at hs
    rw [hst.connection, hst.isOpen]
    exact h.handshake fd hs
  closing fd hfd := by
    rw [hst.closing] at hfd
    rw [hst.isOpen]
    exact h.closing fd hfd

/-- Two users do not share a connection, and one user has no two names. -/
theorem eq_of_userOnline (h : Linked s) {n n' : LuaString} (hn : s.userOnline n = some u)
    (hn' : s.userOnline n' = some u) : n = n' :=
  (h.username n u hn).symm.trans (h.username n' u hn')

theorem init [Zero ν] (maxclient : ℕ) (nodelay : Bool) :
    Linked (init maxclient nodelay : Msgserver ν) where
  consistent :=
    { connection := fun _ _ h => by cases h
      fd := fun _ _ _ h => by cases h }
  lt_nextUser _ _ h := by cases h
  username _ _ h := by cases h
  handshake _ h := absurd rfl h
  closing _ h := by cases h

variable {username : LuaString}

theorem login [Zero ν] {secret : LuaString} (h : Linked s) (hs : s.login username secret = .ok t) :
    Linked t := by
  rw [Msgserver.login] at hs
  split at hs
  · cases hs
  · next hnone =>
    cases hs
    rw [not_not] at hnone
    -- a user that was online has another number than the new one
    have hold {n : LuaString} {u : ℕ} (hon : s.userOnline n = some u) : u ≠ s.nextUser :=
      Nat.ne_of_lt (h.lt_nextUser n u hon)
    have honline {n : LuaString} {u : ℕ}
        (hon : update s.userOnline username (some s.nextUser) n = some u) :
        (n = username ∧ u = s.nextUser) ∨ (n ≠ username ∧ s.userOnline n = some u) := by
      by_cases hn : n = username
      · subst hn
        rw [update_self] at hon
        exact .inl ⟨rfl, (Option.some.inj hon).symm⟩
      · rw [update_of_ne hn] at hon
        exact .inr ⟨hn, hon⟩
    refine ⟨⟨fun fd u hc => ?_, fun n u fd hon hfd => ?_⟩, fun n u hon => ?_, fun n u hon => ?_,
      h.handshake, h.closing⟩
    · obtain ⟨hfd, hon, hopen⟩ := h.consistent.connection fd u hc
      have hne : (s.users u).username ≠ username := by
        intro heq
        rw [heq, hnone] at hon
        cases hon
      simp only [update_of_ne (hold hon), update_of_ne hne]
      exact ⟨hfd, hon, hopen⟩
    · rcases honline hon with ⟨-, rfl⟩ | ⟨-, hon⟩
      · simp only [update_self] at hfd
        cases hfd
      · simp only [update_of_ne (hold hon)] at hfd
        exact h.consistent.fd n u fd hon hfd
    · rcases honline hon with ⟨-, rfl⟩ | ⟨-, hon⟩
      · exact Nat.lt_succ_self _
      · exact Nat.lt_succ_of_lt (h.lt_nextUser n u hon)
    · rcases honline hon with ⟨rfl, rfl⟩ | ⟨-, hon⟩
      · simp only [update_self]
      · simp only [update_of_ne (hold hon)]
        exact h.username n u hon

theorem logout_eq (hon : s.userOnline username = some u) (hs : s.logout username = .ok t) :
    t.userOnline = update s.userOnline username none ∧ t.users = s.users ∧
      t.nextUser = s.nextUser ∧ t.handshake = s.handshake ∧ t.closing = s.closing ∧
      t.isOpen = s.isOpen ∧
      (t.gate = match (s.users u).fd with
        | none => s.gate
        | some fd => s.gate.closeclient fd) ∧
      ∀ fd, t.connection fd = if (s.users u).fd = some fd then none else s.connection fd := by
  rw [Msgserver.logout] at hs
  simp only [hon] at hs
  cases hfd : (s.users u).fd with
  | none =>
    rw [hfd] at hs
    cases hs
    exact ⟨rfl, rfl, rfl, rfl, rfl, rfl, rfl, fun _ => by simp⟩
  | some fd =>
    rw [hfd] at hs
    cases hs
    refine ⟨rfl, rfl, rfl, rfl, rfl, rfl, rfl, fun fd' => ?_⟩
    simp only [closeclient, update_apply, Option.some_inj, eq_comm]

theorem logout (h : Linked s) (hs : s.logout username = .ok t) : Linked t := by
  cases hon : s.userOnline username with
  | none =>
    rw [Msgserver.logout, hon] at hs
    cases hs
  | some u =>
    obtain ⟨honline, husers, hnext, hshake, hclosing, hopen, hgate, hconn⟩ := logout_eq hon hs
    have hrest {n : LuaString} {v : ℕ} (hv : t.userOnline n = some v) :
        n ≠ username ∧ s.userOnline n = some v := by
      rw [honline] at hv
      by_cases hn : n = username
      · subst hn
        rw [update_self] at hv
        cases hv
      · rw [update_of_ne hn] at hv
        exact ⟨hn, hv⟩
    have hbound {fd v : ℕ} (hc : t.connection fd = some v) :
        (s.users u).fd ≠ some fd ∧ s.connection fd = some v := by
      rw [hconn] at hc
      split_ifs at hc with hfd
      exact ⟨hfd, hc⟩
    have hknown {fd : ℕ} (hg : s.gate.connection fd ≠ none) : t.gate.connection fd ≠ none := by
      rw [hgate]
      split
      · exact hg
      · exact s.gate.connection_closeclient _ hg
    refine ⟨⟨fun fd v hc => ?_, fun n v fd hv hfd => ?_⟩, fun n v hv => ?_, fun n v hv => ?_,
      fun fd hs => ?_, fun fd hfd => ?_⟩
    · obtain ⟨hne, hc⟩ := hbound hc
      obtain ⟨hfd, hv, ho, hg⟩ := h.consistent.connection fd v hc
      have hname : (s.users v).username ≠ username := by
        intro heq
        rw [heq, hon] at hv
        obtain rfl := Option.some.inj hv
        exact hne hfd
      rw [husers, honline, update_of_ne hname]
      exact ⟨hfd, hv, hopen ▸ ho, hknown hg⟩
    · obtain ⟨hn, hv⟩ := hrest hv
      rw [husers] at hfd
      rw [hconn, if_neg]
      · exact h.consistent.fd n v fd hv hfd
      · -- the connection belongs to one user, which has one name
        intro hu
        have hc := h.consistent.fd n v fd hv hfd
        rw [h.consistent.fd username u fd hon hu] at hc
        obtain rfl := Option.some.inj hc
        exact hn (h.eq_of_userOnline hv hon)
    · exact hnext ▸ h.lt_nextUser n v (hrest hv).2
    · rw [husers]
      exact h.username n v (hrest hv).2
    · rw [hshake] at hs
      obtain ⟨hc, ho⟩ := h.handshake fd hs
      refine ⟨?_, hopen ▸ ho⟩
      rw [hconn, hc, ite_self]
    · rw [hopen]
      exact h.closing fd (hclosing ▸ hfd)

/-- `Linked` does not speak about the calls of the gate. -/
theorem withGate {g : Gateserver} (h : Linked s)
    (hg : ∀ fd u, s.connection fd = some u → g.connection fd ≠ none) :
    Linked { s with gate := g } :=
  { h with
    consistent :=
      { connection := fun fd u hc =>
          have ⟨hfd, hon, hopen⟩ := h.consistent.connection fd u hc
          ⟨hfd, hon, hopen.1, hg fd u hc⟩
        fd := h.consistent.fd } }

theorem accepted {addr : LuaString} (h : Linked s) (hfd : s.isOpen fd = false)
    (hclosing : fd ∉ s.closing) : Linked (s.accepted fd addr) := by
  have hnone : s.connection fd = none := by
    by_contra hc
    obtain ⟨u, hu⟩ := Option.ne_none_iff_exists'.mp hc
    have hopen := (h.consistent.connection fd u hu).2.2.1
    rw [hfd] at hopen
    cases hopen
  -- no other connection is opened
  have hopened : Linked { s with isOpen := update s.isOpen fd true } :=
    { h with
      consistent :=
        { connection := fun fd' u hc => by
            obtain ⟨hu, hon, ho, hg⟩ := h.consistent.connection fd' u hc
            refine ⟨hu, hon, ?_, hg⟩
            by_cases heq : fd' = fd
            · rw [heq, hnone] at hc
              cases hc
            · exact (update_of_ne heq ..).trans ho
          fd := h.consistent.fd }
      handshake := fun fd' hs => by
        obtain ⟨hc, ho⟩ := h.handshake fd' hs
        refine ⟨hc, ?_⟩
        simp only [update_apply, ho, ite_self]
      closing := fun fd' hmem => by
        rw [← h.closing fd' hmem]
        refine update_of_ne ?_ ..
        rintro rfl
        exact hclosing hmem }
  rw [Msgserver.accepted]
  simp only
  split
  · exact hopened.withGate fun fd' u hc => (h.consistent.connection fd' u hc).2.2.2
  · have hgate := hopened.withGate (g := (s.gate.accept fd).openclient fd) fun fd' u hc => by
      rw [Gateserver.connection_openclient, Gateserver.connection_accept, update_apply]
      split
      · exact Option.some_ne_none true
      · exact (h.consistent.connection fd' u hc).2.2.2
    exact { hgate with
      consistent := { hgate.consistent with }
      handshake := fun fd' hs => by
        change update s.handshake fd (some addr) fd' ≠ none at hs
        by_cases heq : fd' = fd
        · subst heq
          exact ⟨hnone, update_self ..⟩
        · rw [update_of_ne heq] at hs
          exact hgate.handshake fd' hs }

/-- `handler.disconnect`: the connection belongs to nobody afterwards. -/
theorem disconnect (h : Linked s) (fd : ℕ) :
    Linked (s.disconnect fd).1 ∧ (s.disconnect fd).1.connection fd = none ∧
      (s.disconnect fd).1.handshake fd = none ∧ (s.disconnect fd).1.closing = s.closing := by
  have hshake : Linked { s with handshake := update s.handshake fd none } :=
    { h with
      consistent := { h.consistent with }
      handshake := fun fd' hs => by
        change update s.handshake fd none fd' ≠ none at hs
        by_cases heq : fd' = fd
        · subst heq
          exact absurd (update_self ..) hs
        · rw [update_of_ne heq] at hs
          exact h.handshake fd' hs }
  rw [Msgserver.disconnect]
  simp only
  cases hc : s.connection fd with
  | none => exact ⟨hshake, hc, update_self .., rfl⟩
  | some c =>
    refine ⟨?_, update_self .., update_self .., rfl⟩
    obtain ⟨hfd, hon, -⟩ := h.consistent.connection fd c hc
    have hname (v : ℕ) : (update s.users c { s.users c with fd := none } v).username =
        (s.users v).username :=
      SameTables.field_update User.username { s.users c with fd := none } rfl v
    have hbound {fd' v : ℕ} (hc' : update s.connection fd none fd' = some v) :
        fd' ≠ fd ∧ v ≠ c ∧ s.connection fd' = some v := by
      by_cases heq : fd' = fd
      · subst heq
        rw [update_self] at hc'
        cases hc'
      · rw [update_of_ne heq] at hc'
        refine ⟨heq, ?_, hc'⟩
        rintro rfl
        rw [(h.consistent.connection fd' v hc').1] at hfd
        exact heq (Option.some.inj hfd)
    refine ⟨⟨fun fd' v hc' => ?_, fun n v fd' hv hv' => ?_⟩, h.lt_nextUser, fun n v hv => ?_,
      fun fd' hs => ?_, h.closing⟩
    · obtain ⟨hne, hvc, hc'⟩ := hbound hc'
      obtain ⟨hv, hon', hopen⟩ := h.consistent.connection fd' v hc'
      refine ⟨?_, ?_, hopen⟩
      · change (update s.users c _ v).fd = some fd'
        rw [update_of_ne hvc, hv]
      · change s.userOnline (update s.users c _ v).username = some v
        rw [hname, hon']
    · change (update s.users c _ v).fd = some fd' at hv'
      by_cases hvc : v = c
      · subst hvc
        rw [update_self] at hv'
        cases hv'
      · rw [update_of_ne hvc] at hv'
        have hc' := h.consistent.fd n v fd' hv hv'
        refine (update_of_ne ?_ ..).trans hc'
        rintro rfl
        rw [hc] at hc'
        exact hvc (Option.some.inj hc').symm
    · exact (hname v).trans (h.username n v hv)
    · obtain ⟨hc', ho⟩ := hshake.handshake fd' hs
      refine ⟨?_, ho⟩
      change update s.connection fd none fd' = none
      rw [update_apply, hc', ite_self]

theorem closed (h : Linked s) : Linked (s.closed conf fd) := by
  obtain ⟨hdis, hnone, hshake, hclosing⟩ := h.disconnect fd
  rw [Msgserver.closed]
  generalize s.disconnect fd = r at hdis hnone hshake hclosing
  obtain ⟨t, connected⟩ := r
  simp only at hdis hnone hshake hclosing ⊢
  have hended (l : List ℕ) (hl : ∀ fd' ∈ l, fd' = fd ∨ fd' ∈ t.closing) :
      Linked { t with isOpen := update t.isOpen fd false, closing := l } :=
    { hdis with
      consistent :=
        { connection := fun fd' u hc => by
            obtain ⟨hu, hon, ho, hg⟩ := hdis.consistent.connection fd' u hc
            refine ⟨hu, hon, ?_, hg⟩
            refine (update_of_ne ?_ ..).trans ho
            rintro rfl
            rw [hnone] at hc
            cases hc
          fd := hdis.consistent.fd }
      handshake := fun fd' hs => by
        obtain ⟨hc, ho⟩ := hdis.handshake fd' hs
        refine ⟨hc, (update_of_ne ?_ ..).trans ho⟩
        rintro rfl
        exact hs hshake
      closing := fun fd' hmem => by
        change update t.isOpen fd false fd' = false
        rw [update_apply]
        split_ifs with heq
        · rfl
        · exact hdis.closing fd' ((hl fd' hmem).resolve_left heq) }
  split_ifs
  · exact hended (fd :: t.closing) fun fd' => List.mem_cons.mp
  · refine (hended t.closing fun fd' => Or.inr).withGate fun fd' u hc => ?_
    change (t.gate.closeFd fd).connection fd' ≠ none
    rw [Gateserver.connection_closeFd_of_ne]
    · exact (hdis.consistent.connection fd' u hc).2.2.2
    · rintro rfl
      change t.connection fd' = some u at hc
      rw [hnone] at hc
      cases hc

theorem disconnected {ok : Bool} (h : Linked s) (hs : s.disconnected fd ok = .ok t) : Linked t := by
  rw [Msgserver.disconnected] at hs
  split at hs
  · next hmem =>
    cases hs
    have herase : Linked { s with closing := s.closing.erase fd } :=
      { h with
        consistent := { h.consistent with }
        closing := fun fd' hfd' => h.closing fd' (List.mem_of_mem_erase hfd') }
    split_ifs
    · refine herase.withGate fun fd' u hc => ?_
      obtain ⟨-, -, ho, hg⟩ := h.consistent.connection fd' u hc
      change (s.gate.closeFd fd).connection fd' ≠ none
      rw [Gateserver.connection_closeFd_of_ne]
      · exact hg
      · rintro rfl
        rw [h.closing fd' hmem] at ho
        cases ho
    · exact herase
  · cases hs

theorem bind (h : Linked s) (hon : s.userOnline username = some u) (hnone : (s.users u).fd = none)
    (hs : s.handshake fd ≠ none) (hgate : s.gate.connection fd ≠ none) (hfd : user.fd = some fd)
    (hname : user.username = (s.users u).username) :
    Linked { s.setUser u user with
      connection := update s.connection fd (some u)
      handshake := update s.handshake fd none } := by
  obtain ⟨hfree, hopen⟩ := h.handshake fd hs
  have hnames (v : ℕ) : (update s.users u user v).username = (s.users v).username :=
    SameTables.field_update User.username user hname v
  -- a connection of another user is not the new one
  have hother {v fd' : ℕ} (hc : s.connection fd' = some v) : v ≠ u ∧ fd' ≠ fd := by
    constructor
    · rintro rfl
      rw [(h.consistent.connection fd' v hc).1] at hnone
      cases hnone
    · rintro rfl
      rw [hfree] at hc
      cases hc
  refine ⟨⟨fun fd' v hc => ?_, fun n v fd' hv hv' => ?_⟩, h.lt_nextUser, fun n v hv => ?_,
    fun fd' hs' => ?_, h.closing⟩
  · change update s.connection fd (some u) fd' = some v at hc
    change (update s.users u user v).fd = some fd' ∧
      s.userOnline (update s.users u user v).username = some v ∧ s.Open fd'
    rw [hnames]
    by_cases heq : fd' = fd
    · subst heq
      rw [update_self] at hc
      obtain rfl := Option.some.inj hc
      rw [update_self, h.username username u hon]
      exact ⟨hfd, hon, hopen, hgate⟩
    · rw [update_of_ne heq] at hc
      rw [update_of_ne (hother hc).1]
      exact h.consistent.connection fd' v hc
  · change (update s.users u user v).fd = some fd' at hv'
    change update s.connection fd (some u) fd' = some v
    by_cases hvu : v = u
    · subst hvu
      rw [update_self, hfd] at hv'
      obtain rfl := Option.some.inj hv'
      exact update_self ..
    · rw [update_of_ne hvu] at hv'
      have hc := h.consistent.fd n v fd' hv hv'
      rw [update_of_ne (hother hc).2, hc]
  · exact (hnames v).trans (h.username n v hv)
  · change update s.handshake fd none fd' ≠ none at hs'
    have heq : fd' ≠ fd := by
      rintro rfl
      exact hs' (update_self ..)
    rw [update_of_ne heq] at hs'
    refine ⟨(update_of_ne heq ..).trans (h.handshake fd' hs').1, (h.handshake fd' hs').2⟩

/-- A connection that has not been authenticated gets no second chance. -/
theorem clearHandshake (h : Linked s) (fd : ℕ) :
    Linked { s with handshake := update s.handshake fd none } :=
  { h with
    consistent := { h.consistent with }
    handshake := fun fd' hs => by
      change update s.handshake fd none fd' ≠ none at hs
      by_cases heq : fd' = fd
      · subst heq
        exact absurd (update_self ..) hs
      · rw [update_of_ne heq] at hs
        exact h.handshake fd' hs }

end Linked

variable {message : LuaString}

theorem checkAuth_online [LE ν] [DecidableLE ν] {idx : ν}
    (h : s.checkAuth conf message = .ok (u, idx)) : ∃ username, s.userOnline username = some u := by
  rw [checkAuth] at h
  cases hf : fields message with
  | none => simp [hf] at h
  | some f =>
    obtain ⟨username, index, hmac⟩ := f
    rw [hf] at h
    simp only at h
    cases hu : s.userOnline username with
    | none => simp [hu] at h
    | some v =>
      rw [hu] at h
      simp only at h
      split at h
      · split_ifs at h
        split at h
        · cases h
        · split_ifs at h
          cases h
          exact ⟨username, hu⟩
      · cases h

theorem Linked.data [LE ν] [DecidableLE ν] [DecidableEq ν] (h : Linked s)
    (hok : s.Single conf (.data fd message)) : Linked (s.data conf fd message) := by
  rw [Msgserver.data]
  split
  · next hgate =>
    cases hs : s.handshake fd with
    | none => exact h.congr (.request conf s fd message)
    | some addr =>
      have hne : s.handshake fd ≠ none := by
        rw [hs]
        exact Option.some_ne_none addr
      refine Linked.congr ((SameTables.auth conf s fd addr message).withHandshake _) ?_
      rw [(SameTables.auth conf s fd addr message).handshake, doAuth]
      cases hcheck : s.checkAuth conf message with
      | error reply => exact h.clearHandshake fd
      | ok r =>
        obtain ⟨u, idx⟩ := r
        obtain ⟨username, hon⟩ := checkAuth_online hcheck
        exact h.bind hon (hok hne u idx hcheck) hne (by simp [hgate]) rfl rfl
  · exact h

theorem Linked.step [Zero ν] [LE ν] [DecidableLE ν] [DecidableEq ν] {e : Event} (h : Linked s)
    (hok : s.Single conf e) (hs : s.step conf e = .ok t) : Linked t := by
  cases e with
  | accepted fd addr =>
    rw [Msgserver.step] at hs
    split_ifs at hs with hopen
    cases hs
    exact h.accepted (Bool.not_eq_true _ ▸ hopen) hok
  | closed fd =>
    cases hs
    exact h.closed
  | disconnected fd ok => exact h.disconnected hs
  | data fd message =>
    cases hs
    exact h.data hok
  | answered request answer => exact h.congr (.answered conf hs)
  | login username secret => exact h.login hs
  | logout username => exact h.logout hs

/-! ### Runs -/

theorem Linked.keepsOthers (h : Linked s) : s.KeepsOthers conf := by
  intro username u fd fd' hon hfd' hne
  have hc := h.consistent.fd username u fd' hon hfd'
  have heq : (s.closed conf fd).users = (s.disconnect fd).1.users ∧
      (s.closed conf fd).connection = (s.disconnect fd).1.connection := by
    rw [Msgserver.closed]
    simp only
    split <;> exact ⟨rfl, rfl⟩
  rw [heq.1, heq.2, Msgserver.disconnect]
  simp only
  cases hold : s.connection fd with
  | none => exact ⟨hfd', hc⟩
  | some c =>
    have huc : u ≠ c := by
      rintro rfl
      rw [(h.consistent.connection fd u hold).1] at hfd'
      exact hne (Option.some.inj hfd').symm
    exact ⟨(congrArg User.fd (update_of_ne huc ..)).trans hfd',
      (update_of_ne hne ..).trans hc⟩

theorem Linked.logoutCloses (h : Linked s) : s.LogoutCloses := by
  intro username u t hon hs fd
  obtain ⟨-, -, -, -, -, -, hgate, hconn⟩ := Linked.logout_eq hon hs
  constructor
  · intro hc
    rw [hconn] at hc
    split_ifs at hc with hfd
    exact hfd (h.consistent.connection fd u hc).1
  · intro hc
    obtain ⟨hfd, -, -, hknown⟩ := h.consistent.connection fd u hc
    rw [hgate, hfd]
    exact s.gate.connection_closeclient_self fd hknown

/-- In a run in which every user authenticates one connection at a time, the two tables agree. -/
theorem connections_consistent [Zero ν] [LE ν] [DecidableLE ν] [DecidableEq ν] (conf : Conf ν)
    (maxclient : ℕ) (nodelay : Bool) {t : Msgserver ν}
    (h : Transition.Reaches (Msgserver.step conf) (Single conf) (init maxclient nodelay) t) :
    t.Consistent ∧ t.KeepsOthers conf ∧ t.LogoutCloses := by
  have hlinked : Linked t :=
    h.invariant (Linked.init maxclient nodelay) fun _ _ _ hinv hok hs => hinv.step hok hs
  exact ⟨hlinked.consistent, hlinked.keepsOthers, hlinked.logoutCloses⟩

/-- The words of two handshakes of the user `u`, whose secret is eight zero bytes. -/
def sampleConf : Conf ℤ where
  expiredNumber := 128
  disconnectHandler := true
  tonumber := fun text => if text = [49] then some 1 else if text = [50] then some 2 else none
  b64decode := fun text =>
    if text = [56, 114, 121, 97, 110, 80, 79, 103, 85, 85, 99, 61] then
      some [242, 188, 154, 156, 243, 160, 81, 71]
    else if text = [118, 120, 115, 78, 90, 114, 101, 75, 74, 122, 107, 61] then
      some [191, 27, 13, 102, 183, 138, 39, 57]
    else none
  hmacHash := fun _ text =>
    if text = [117, 58, 49] then some [242, 188, 154, 156, 243, 160, 81, 71]
    else if text = [117, 58, 50] then some [191, 27, 13, 102, 183, 138, 39, 57]
    else none

/-- `u:1:8ryanPOgUUc=` -/
def firstHandshake : LuaString :=
  [117, 58, 49, 58, 56, 114, 121, 97, 110, 80, 79, 103, 85, 85, 99, 61]

/-- `u:2:vxsNZreKJzk=` -/
def secondHandshake : LuaString :=
  [117, 58, 50, 58, 118, 120, 115, 78, 90, 114, 101, 75, 74, 122, 107, 61]

/-- The user `u` logs in and authenticates the connection 1. -/
def firstLogin : List Event :=
  [.login [117] [0, 0, 0, 0, 0, 0, 0, 0], .accepted 1 [], .data 1 firstHandshake]

/-- The user has one connection, and the statement is about it. -/
theorem connections_consistent_first :
    ∃ t, Transition.exec (step sampleConf) (init 1024 false) firstLogin = .ok t ∧
      t.connection 1 = some 0 ∧ t.Consistent ∧ t.KeepsOthers sampleConf ∧ t.LogoutCloses := by
  refine ⟨_, rfl, rfl, connections_consistent sampleConf 1024 false
    (Transition.Permitted.reaches (l := firstLogin) ?_ rfl)⟩
  refine .cons trivial rfl (.cons (List.not_mem_nil) rfl (.cons (fun _ u idx h => ?_) rfl trivial))
  have hr : ((0, 1) : ℕ × ℤ) = (u, idx) := Except.ok.inj h
  obtain ⟨rfl, -⟩ := Prod.mk.inj hr
  rfl

/-- The user authenticates the connection 2 before the end of the connection 1 is reported. The old
connection still names it, and when its end comes the user is detached from the new one. -/
theorem second_handshake :
    (∃ t, Transition.exec (step sampleConf) (init 1024 false)
        (firstLogin ++ [.accepted 2 [], .data 2 secondHandshake]) = .ok t ∧
      ¬ t.Consistent ∧ ¬ t.KeepsOthers sampleConf) ∧
    ∃ t, Transition.exec (step sampleConf) (init 1024 false)
        (firstLogin ++ [.accepted 2 [], .data 2 secondHandshake, .closed 1]) = .ok t ∧
      t.connection 2 = some 0 ∧ (t.users 0).fd = none := by
  refine ⟨⟨_, rfl, fun h => ?_, fun h => ?_⟩, ⟨_, rfl, rfl, rfl⟩⟩
  · cases (h.connection 1 0 rfl).1
  · cases (h [117] 0 1 2 rfl rfl (by decide)).1

end Mtask.Snax.Msgserver
