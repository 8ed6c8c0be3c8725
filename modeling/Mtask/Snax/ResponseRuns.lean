import Mtask.Snax.Connections
import Mtask.Snax.ResponseCache

/-!
# Cached responses over runs

A request whose session is in the cache of its user does not call `conf.request_handler`, unless the
version of the entry is that of the user. The entry of a response stays in the cache until
`expired_number` responses have been sent to the user after it.
-/

namespace Mtask.Snax.Msgserver

open Function (update update_apply update_of_ne update_self)
open List
open Option (some_ne_none)

variable {ν : Type} {conf : Conf ν} {s t : Msgserver ν}

/-! ### What an event does to the caches -/

/-- The user, the session and the text of a request. -/
def received (s : Msgserver ν) (fd : ℕ) (message : LuaString) : Option (ℕ × ℕ × LuaString) :=
  if s.gate.connection fd = some true ∧ s.handshake fd = none ∧ 4 ≤ message.length then
    (s.connection fd).map fun u =>
      (u, Framing.ofBytes (message.drop (message.length - 4)), message.take (message.length - 4))
  else none

/-- A session leaves the cache of a user. -/
def forget (s : Msgserver ν) (u session : ℕ) : Msgserver ν :=
  s.setUser u { s.users u with response := (s.users u).response.filter fun q => q.1 ≠ session }

/-- The caches and the requests are the same. -/
structure SameCache (s t : Msgserver ν) : Prop where
  response : ∀ u, (t.users u).response = (s.users u).response
  index : ∀ u, (t.users u).index = (s.users u).index
  entries : t.entries = s.entries
  nextEntry : t.nextEntry = s.nextEntry
  requests : t.requests = s.requests
  nextRequest : t.nextRequest = s.nextRequest
  nextUser : s.nextUser ≤ t.nextUser

/-- The event sends the response of an entry of a user. -/
inductive Completes (s : Msgserver ν) : Event → ℕ → ℕ → Prop
  | answered {n : ℕ} {answer : Answer} {r : Request} {response : LuaString}
      (hr : s.requests n = some r) (hanswer : answer.encode r.session = some response) :
      Completes s (.answered n answer) r.user r.entry
  | resent {fd u session p : ℕ} {message text : LuaString}
      (hreceived : s.received fd message = some (u, session, text))
      (hlookup : (s.users u).response.lookup session = some p)
      (hversion : (s.entries p).version ≠ some (s.users u).version)
      (hresponse : (s.entries p).response ≠ none) : Completes s (.data fd message) u p

/-- The session is used again: the version of its entry is that of the user. -/
def Reuses (s : Msgserver ν) (e : Event) (u session : ℕ) : Prop :=
  ∃ fd message text p, e = .data fd message ∧ s.received fd message = some (u, session, text) ∧
    (s.users u).response.lookup session = some p ∧
    (s.entries p).version = some (s.users u).version

/-- The request of an entry is sent again. -/
def Resends (s : Msgserver ν) (e : Event) (p : ℕ) : Prop :=
  ∃ fd message u session text, e = .data fd message ∧
    s.received fd message = some (u, session, text) ∧
    (s.users u).response.lookup session = some p ∧
    (s.entries p).version ≠ some (s.users u).version

/-- What an event does to the caches, and to the requests whose handlers run. -/
inductive CacheStep (conf : Conf ν) (s : Msgserver ν) : Event → Msgserver ν → Prop
  | other {e : Event} {t : Msgserver ν} (hsame : SameCache s t)
      (hcompletes : ∀ u p, ¬Completes s e u p) : CacheStep conf s e t
  | started {fd u session : ℕ} {message text : LuaString}
      (hreceived : s.received fd message = some (u, session, text))
      (hlookup : (s.users u).response.lookup session = none) :
      CacheStep conf s (.data fd message) (s.startRequest fd u session text)
  | restarted {fd u session p : ℕ} {message text : LuaString}
      (hreceived : s.received fd message = some (u, session, text))
      (hlookup : (s.users u).response.lookup session = some p)
      (hversion : (s.entries p).version = some (s.users u).version)
      (hresponse : (s.entries p).response ≠ none) :
      CacheStep conf s (.data fd message) ((s.forget u session).startRequest fd u session text)
  | conflict {fd u session p : ℕ} {message text : LuaString}
      (hreceived : s.received fd message = some (u, session, text))
      (hlookup : (s.users u).response.lookup session = some p)
      (hversion : (s.entries p).version = some (s.users u).version)
      (hresponse : (s.entries p).response = none) :
      CacheStep conf s (.data fd message) ((s.forget u session).requestFailed fd)
  | waiting {fd u session p : ℕ} {message text : LuaString}
      (hreceived : s.received fd message = some (u, session, text))
      (hlookup : (s.users u).response.lookup session = some p)
      (hversion : (s.entries p).version ≠ some (s.users u).version)
      (hresponse : (s.entries p).response = none) :
      CacheStep conf s (.data fd message) (s.setEntry p { s.entries p with
        returnFd := some fd
        version := some (s.users u).version
        index := (s.users u).index })
  | resent {fd u session p : ℕ} {message text response : LuaString}
      (hreceived : s.received fd message = some (u, session, text))
      (hlookup : (s.users u).response.lookup session = some p)
      (hversion : (s.entries p).version ≠ some (s.users u).version)
      (hresponse : (s.entries p).response = some response) :
      CacheStep conf s (.data fd message)
        ((s.finished u p response (s.reply (some fd) response)).retireResponse conf u)
  | answered {n : ℕ} {answer : Answer} {r : Request} {response : LuaString}
      (hr : s.requests n = some r) (hanswer : answer.encode r.session = some response) :
      CacheStep conf s (.answered n answer)
        ((({ s with requests := update s.requests n none } : Msgserver ν).finished r.user
          r.entry response (s.reply (s.entries r.entry).returnFd response)).retireResponse conf
            r.user)
  | failed {n : ℕ} {answer : Answer} {r : Request} (hr : s.requests n = some r)
      (hanswer : answer.encode r.session = none) :
      CacheStep conf s (.answered n answer)
        (({ s with requests := update s.requests n none } : Msgserver ν).requestFailed
          r.fd)

variable {username : LuaString}

namespace SameCache

theorem refl (s : Msgserver ν) : SameCache s s :=
  ⟨fun _ => rfl, fun _ => rfl, rfl, rfl, rfl, rfl, Nat.le_refl _⟩

theorem trans {r : Msgserver ν} (h : SameCache s t) (h' : SameCache t r) : SameCache s r where
  response u := (h'.response u).trans (h.response u)
  index u := (h'.index u).trans (h.index u)
  entries := h'.entries.trans h.entries
  nextEntry := h'.nextEntry.trans h.nextEntry
  requests := h'.requests.trans h.requests
  nextRequest := h'.nextRequest.trans h.nextRequest
  nextUser := Nat.le_trans h.nextUser h'.nextUser

theorem setUser (s : Msgserver ν) {u : ℕ} (user : User ν)
    (hresponse : user.response = (s.users u).response) (hindex : user.index = (s.users u).index) :
    SameCache s (s.setUser u user) :=
  { refl s with
    response := SameTables.field_update User.response user hresponse
    index := SameTables.field_update User.index user hindex }

theorem requestFailed (s : Msgserver ν) (fd : ℕ) : SameCache s (s.requestFailed fd) := by
  rw [Msgserver.requestFailed]
  split
  · exact { refl s with }
  · exact refl s

theorem auth [LE ν] [DecidableLE ν] [DecidableEq ν] (conf : Conf ν) (s : Msgserver ν) (fd : ℕ)
    (addr message : LuaString) : SameCache s (s.auth conf fd addr message) := by
  have hauth : SameCache s (s.doAuth conf fd message addr).1 := by
    rw [doAuth]
    cases s.checkAuth conf message with
    | error reply => exact refl s
    | ok r =>
      obtain ⟨u, idx⟩ := r
      exact { setUser s { s.users u with version := idx, fd := some fd, ip := some addr }
        rfl rfl with }
  rw [Msgserver.auth]
  generalize s.doAuth conf fd message addr = r at hauth
  obtain ⟨t, reply⟩ := r
  refine hauth.trans ?_
  simp only
  split
  · exact { refl t with }
  · exact { refl t with }

theorem disconnect (s : Msgserver ν) (fd : ℕ) : SameCache s (s.disconnect fd).1 := by
  rw [Msgserver.disconnect]
  cases s.connection fd with
  | none => exact { refl s with }
  | some c => exact { setUser s { s.users c with fd := none } rfl rfl with }

theorem closed (conf : Conf ν) (s : Msgserver ν) (fd : ℕ) : SameCache s (s.closed conf fd) := by
  have hdisconnect := disconnect s fd
  rw [Msgserver.closed]
  generalize s.disconnect fd = r at hdisconnect
  obtain ⟨t, connected⟩ := r
  refine hdisconnect.trans ?_
  simp only
  split
  · exact { refl t with }
  · exact { refl t with }

theorem accepted (s : Msgserver ν) (fd : ℕ) (addr : LuaString) :
    SameCache s (s.accepted fd addr) := by
  rw [Msgserver.accepted]
  simp only
  split
  · exact { refl s with }
  · exact { refl s with }

theorem disconnected {fd : ℕ} {ok : Bool} (hs : s.disconnected fd ok = .ok t) : SameCache s t := by
  rw [Msgserver.disconnected] at hs
  split_ifs at hs
  · cases hs
    exact { refl s with }
  · cases hs
    exact { refl s with }

theorem logout (hs : s.logout username = .ok t) : SameCache s t := by
  rw [Msgserver.logout] at hs
  cases hon : s.userOnline username with
  | none =>
    rw [hon] at hs
    cases hs
  | some u =>
    simp only [hon] at hs
    cases hfd : (s.users u).fd with
    | none =>
      rw [hfd] at hs
      cases hs
      exact { refl s with }
    | some fd =>
      rw [hfd] at hs
      cases hs
      exact { refl s with }

end SameCache

variable {text message : LuaString}

theorem received_eq_some {fd u session : ℕ} (h : s.received fd message = some (u, session, text)) :
    s.gate.connection fd = some true ∧ s.handshake fd = none ∧ s.connection fd = some u ∧
      4 ≤ message.length ∧ session = Framing.ofBytes (message.drop (message.length - 4)) ∧
      text = message.take (message.length - 4) := by
  rw [received] at h
  split_ifs at h with hguard
  obtain ⟨u', hu', heq⟩ := Option.map_eq_some_iff.mp h
  obtain ⟨rfl, rfl, rfl⟩ : _ ∧ _ ∧ _ := by simpa only [Prod.mk.injEq] using heq
  exact ⟨hguard.1, hguard.2.1, hu', hguard.2.2, rfl, rfl⟩

theorem CacheStep.quiet {fd : ℕ} {message : LuaString} (hsame : SameCache s t)
    (hreceived : s.received fd message = none) : CacheStep conf s (.data fd message) t := by
  refine .other hsame fun u p hcompletes => ?_
  cases hcompletes with
  | resent hreceived' =>
    rw [hreceived] at hreceived'
    cases hreceived'

variable [LE ν] [DecidableLE ν] [DecidableEq ν]

theorem data_step (conf : Conf ν) (s : Msgserver ν) (fd : ℕ) (message : LuaString) :
    CacheStep conf s (.data fd message) (s.data conf fd message) := by
  rw [data]
  by_cases hgate : s.gate.connection fd = some true
  · rw [if_pos hgate]
    cases hshake : s.handshake fd with
    | some addr =>
      exact .quiet ((SameCache.auth conf s fd addr message).trans { SameCache.refl _ with })
        (if_neg fun h => by simp [hshake] at h)
    | none =>
      simp only
      rw [request]
      cases hconn : s.connection fd with
      | none => exact .quiet (.requestFailed s fd) (by simp [received, hconn])
      | some u =>
        simp only
        by_cases hlen : message.length < 4
        · rw [if_pos hlen]
          exact .quiet (.requestFailed s fd) (if_neg fun h => Nat.not_le_of_lt hlen h.2.2)
        · rw [if_neg hlen]
          have hreceived : s.received fd message =
              some (u, Framing.ofBytes (message.drop (message.length - 4)),
                message.take (message.length - 4)) := by
            rw [received, if_pos ⟨hgate, hshake, Nat.le_of_not_lt hlen⟩, hconn]
            rfl
          cases hlookup : (s.users u).response.lookup
              (Framing.ofBytes (message.drop (message.length - 4))) with
          | none => exact .started hreceived hlookup
          | some p =>
            simp only
            by_cases hversion : (s.entries p).version = some (s.users u).version
            · rw [if_pos hversion]
              by_cases hresponse : (s.entries p).response = none
              · rw [if_pos (by exact hresponse)]
                exact .conflict hreceived hlookup hversion hresponse
              · rw [if_neg (by exact hresponse)]
                exact .restarted hreceived hlookup hversion hresponse
            · rw [if_neg hversion]
              cases hresponse : (s.entries p).response with
              | none =>
                rw [resend_pending hresponse]
                exact .waiting hreceived hlookup hversion hresponse
              | some response =>
                rw [resend_complete hresponse]
                exact .resent hreceived hlookup hversion hresponse
  · rw [if_neg hgate]
    exact .quiet (.refl s) (if_neg fun h => hgate h.1)

/-! ### The fields of a user -/

section Fields

omit [LE ν] [DecidableLE ν] [DecidableEq ν]

theorem index_forget (s : Msgserver ν) (u session v : ℕ) :
    ((s.forget u session).users v).index = (s.users v).index :=
  SameTables.field_update User.index { s.users u with
    response := (s.users u).response.filter fun q => q.1 ≠ session } rfl v

theorem index_startRequest (s : Msgserver ν) (fd u session : ℕ) (text : LuaString) (v : ℕ) :
    ((s.startRequest fd u session text).users v).index = (s.users v).index :=
  SameTables.field_update User.index { s.users u with
    response := (session, s.nextEntry) :: (s.users u).response } rfl v

theorem response_finished (s : Msgserver ν) (u p : ℕ) (response : LuaString) (gate : Gateserver)
    (v : ℕ) : ((s.finished u p response gate).users v).response = (s.users v).response :=
  SameTables.field_update User.response { s.users u with index := (s.users u).index + 1 } rfl v

end Fields

/-! ### Numbers of users -/

/-- The numbers of users that are online, or have a connection, have been given out. -/
structure Known (s : Msgserver ν) : Prop where
  online : ∀ username u, s.userOnline username = some u → u < s.nextUser
  connection : ∀ fd u, s.connection fd = some u → u < s.nextUser

namespace Known

omit [LE ν] [DecidableLE ν] [DecidableEq ν] in
theorem congr (hst : SameTables s t) (h : Known s) : Known t where
  online username u hon := by
    rw [hst.userOnline] at hon
    exact hst.nextUser ▸ h.online username u hon
  connection fd u hc := by
    rw [hst.connection] at hc
    exact hst.nextUser ▸ h.connection fd u hc

omit [LE ν] [DecidableLE ν] [DecidableEq ν] in
/-- A connection may be forgotten. -/
theorem disconnect (h : Known s) (fd : ℕ) : Known (s.disconnect fd).1 := by
  rw [Msgserver.disconnect]
  cases hc : s.connection fd with
  | none => exact { h with }
  | some c =>
    refine { h with connection := fun fd' u hc' => ?_ }
    simp only [setUser, update_apply] at hc'
    split_ifs at hc' with heq
    exact h.connection fd' u hc'

theorem data (h : Known s) {fd : ℕ} : Known (s.data conf fd message) := by
  rw [Msgserver.data]
  split
  · split
    · next addr _ =>
      suffices hauth : Known (s.doAuth conf fd message addr).1 from
        { hauth.congr (.auth conf s fd addr message) with }
      rw [doAuth]
      cases hcheck : s.checkAuth conf message with
      | error reply => exact h
      | ok r =>
        obtain ⟨u, idx⟩ := r
        obtain ⟨username, hon⟩ := checkAuth_online hcheck
        refine { online := h.online, connection := fun fd' u' hc => ?_ }
        simp only [update_apply] at hc
        split_ifs at hc
        · obtain rfl := Option.some.inj hc
          exact h.online username u hon
        · exact h.connection fd' u' hc
    · exact h.congr (.request conf s fd message)
  · exact h

theorem step [Zero ν] {e : Event} (h : Known s) (hs : step conf s e = .ok t) : Known t := by
  cases e with
  | accepted fd addr =>
    rw [Msgserver.step] at hs
    split_ifs at hs
    cases hs
    rw [Msgserver.accepted]
    simp only
    split
    · exact { h with }
    · exact { h with }
  | closed fd =>
    cases hs
    have hdisconnect := h.disconnect fd
    rw [Msgserver.closed]
    generalize s.disconnect fd = r at hdisconnect
    obtain ⟨t, connected⟩ := r
    simp only
    split
    · exact { hdisconnect with }
    · exact { hdisconnect with }
  | disconnected fd ok =>
    rw [Msgserver.step, Msgserver.disconnected] at hs
    split_ifs at hs
    · cases hs
      exact { h with }
    · cases hs
      exact { h with }
  | data fd message =>
    cases hs
    exact h.data
  | answered request answer => exact h.congr (.answered conf hs)
  | login username secret =>
    rw [Msgserver.step, Msgserver.login] at hs
    split_ifs at hs
    cases hs
    refine ⟨fun name u hon => ?_, fun fd u hc => Nat.lt_succ_of_lt (h.connection fd u hc)⟩
    simp only [update_apply] at hon
    split_ifs at hon
    · obtain rfl := Option.some.inj hon
      exact Nat.lt_succ_self _
    · exact Nat.lt_succ_of_lt (h.online name u hon)
  | logout username =>
    cases hon : s.userOnline username with
    | none =>
      rw [Msgserver.step, Msgserver.logout, hon] at hs
      cases hs
    | some u =>
      obtain ⟨honline, -, hnext, -, -, -, -, hconn⟩ := Linked.logout_eq hon hs
      refine ⟨fun name v hv => ?_, fun fd v hc => ?_⟩
      · rw [honline, update_apply] at hv
        split_ifs at hv
        exact hnext ▸ h.online name v hv
      · rw [hconn] at hc
        split_ifs at hc
        exact hnext ▸ h.connection fd v hc

end Known

/-! ### The caches of all users -/

/-- The caches are well formed; `owner` tells the user and the session of an entry. -/
structure Cached (conf : Conf ν) (owner : ℕ → ℕ × ℕ) (s : Msgserver ν) : Prop where
  cache : ∀ u, CacheInv (s.users u).response s.entries (s.users u).index
  index_lt : ∀ u, (s.users u).index < 2 * conf.expiredNumber
  owned : ∀ u, ∀ q ∈ (s.users u).response, q.2 < s.nextEntry ∧ owner q.2 = (u, q.1)
  request : ∀ n r, s.requests n = some r → r.entry < s.nextEntry ∧
    owner r.entry = (r.user, r.session) ∧ (s.entries r.entry).Pending ∧ r.user < s.nextUser
  single : ∀ n n' r r', s.requests n = some r → s.requests n' = some r' → r.entry = r'.entry →
    n = n'
  fresh : ∀ u, s.nextUser ≤ u → (s.users u).response = [] ∧ (s.users u).index = 0

namespace Cached

omit [LE ν] [DecidableLE ν] [DecidableEq ν]

variable {owner : ℕ → ℕ × ℕ}

theorem init [Zero ν] (conf : Conf ν) (hpos : 0 < conf.expiredNumber) (owner : ℕ → ℕ × ℕ)
    (maxclient : ℕ) (nodelay : Bool) : Cached conf owner (init maxclient nodelay) where
  cache _ := .nil _ _
  index_lt _ := Nat.mul_pos Nat.two_pos hpos
  owned _ _ hq := by cases hq
  request _ _ hr := by cases hr
  single _ _ _ _ hr := by cases hr
  fresh _ _ := ⟨rfl, rfl⟩

theorem congr (hst : SameCache s t) (h : Cached conf owner s) : Cached conf owner t where
  cache u := by
    rw [hst.response, hst.index, hst.entries]
    exact h.cache u
  index_lt u := by
    rw [hst.index]
    exact h.index_lt u
  owned u := by
    rw [hst.response, hst.nextEntry]
    exact h.owned u
  request n r hr := by
    rw [hst.requests] at hr
    obtain ⟨hlt, howner, hpending, huser⟩ := h.request n r hr
    exact ⟨hst.nextEntry ▸ hlt, howner, hst.entries ▸ hpending,
      Nat.lt_of_lt_of_le huser hst.nextUser⟩
  single := by
    rw [hst.requests]
    exact h.single
  fresh u hu := by
    rw [hst.response, hst.index]
    exact h.fresh u (Nat.le_trans hst.nextUser hu)

/-- A login gives out a table that nothing refers to. -/
theorem login [Zero ν] {secret : LuaString} (h : Cached conf owner s)
    (hs : s.login username secret = .ok t) : SameCache s t := by
  rw [Msgserver.login] at hs
  split_ifs at hs
  cases hs
  obtain ⟨hresponse, hindex⟩ := h.fresh s.nextUser (Nat.le_refl _)
  exact
    { response := SameTables.field_update User.response _ hresponse.symm
      index := SameTables.field_update User.index _ hindex.symm
      entries := rfl
      nextEntry := rfl
      requests := rfl
      nextRequest := rfl
      nextUser := Nat.le_succ _ }

variable {e : Event}

theorem step_cases [Zero ν] [LE ν] [DecidableLE ν] [DecidableEq ν] (h : Cached conf owner s)
    (hs : step conf s e = .ok t) : CacheStep conf s e t := by
  cases e with
  | accepted fd addr =>
    rw [step] at hs
    split_ifs at hs
    cases hs
    exact .other (.accepted s fd addr) (by rintro _ _ ⟨⟩)
  | closed fd =>
    cases hs
    exact .other (.closed conf s fd) (by rintro _ _ ⟨⟩)
  | disconnected fd ok => exact .other (.disconnected hs) (by rintro _ _ ⟨⟩)
  | data fd message =>
    cases hs
    exact data_step conf s fd message
  | answered n answer =>
    rw [step] at hs
    cases hr : s.requests n with
    | none =>
      rw [Msgserver.answered, hr] at hs
      cases hs
    | some r =>
      cases hanswer : answer.encode r.session with
      | none =>
        rw [Msgserver.answered, hr] at hs
        simp only [hanswer] at hs
        cases hs
        exact .failed hr hanswer
      | some response =>
        rw [answered_eq hr hanswer] at hs
        cases hs
        exact .answered hr hanswer
  | login username secret => exact .other (h.login hs) (by rintro _ _ ⟨⟩)
  | logout username => exact .other (.logout hs) (by rintro _ _ ⟨⟩)

theorem ne_of_owner (h : Cached conf owner s) {u v p session : ℕ} (hp : owner p = (u, session))
    (hv : v ≠ u) {q : ℕ × ℕ} (hq : q ∈ (s.users v).response) : q.2 ≠ p := by
  rintro rfl
  rw [(h.owned v q hq).2] at hp
  exact hv (Prod.mk.inj hp).1

theorem forget (h : Cached conf owner s) (u session : ℕ) :
    Cached conf owner (s.forget u session) := by
  have hindex := index_forget s u session
  have hsub (v : ℕ) : ((s.forget u session).users v).response.Sublist (s.users v).response := by
    rw [Msgserver.forget, setUser]
    by_cases hv : v = u
    · subst hv
      simp only [update_self]
      exact filter_sublist
    · simp only [update_of_ne hv]
      exact List.Sublist.refl _
  exact
    { cache := fun v => by
        rw [hindex]
        exact (h.cache v).sublist (hsub v)
      index_lt := fun v => by
        rw [hindex]
        exact h.index_lt v
      owned := fun v q hq => h.owned v q ((hsub v).subset hq)
      request := h.request
      single := h.single
      fresh := fun v hv => by
        rw [hindex]
        refine ⟨?_, (h.fresh v hv).2⟩
        have := hsub v
        rw [(h.fresh v hv).1] at this
        exact sublist_nil.mp this }

theorem not_mem_forget (u session : ℕ) :
    session ∉ ((s.forget u session).users u).response.map Prod.fst := by
  rw [Msgserver.forget, setUser]
  simp

theorem startRequest (h : Cached conf owner s) {fd u session : ℕ}
    (hsession : session ∉ (s.users u).response.map Prod.fst) (hu : u < s.nextUser) :
    Cached conf (update owner s.nextEntry (u, session))
      (s.startRequest fd u session text) := by
  have hne {p : ℕ} (hp : p < s.nextEntry) : p ≠ s.nextEntry := Nat.ne_of_lt hp
  have hindex := index_startRequest s fd u session text
  have hresponse (v : ℕ) : ((s.startRequest fd u session text).users v).response =
      if v = u then (session, s.nextEntry) :: (s.users u).response else (s.users v).response := by
    rw [Msgserver.startRequest]
    simp only [setUser, setEntry, update_apply]
    split <;> rfl
  have hentries {p : ℕ} (hp : p ≠ s.nextEntry) :
      (s.startRequest fd u session text).entries p = s.entries p := update_of_ne hp ..
  have hnew : (s.startRequest fd u session text).entries s.nextEntry = ⟨some fd, none, none, 0⟩ :=
    update_self ..
  have hpending : ((s.startRequest fd u session text).entries s.nextEntry).Pending := by
    rw [hnew]
    exact ⟨some_ne_none fd, rfl⟩
  have hcache (v : ℕ) : CacheInv (s.users v).response
      (s.startRequest fd u session text).entries (s.users v).index :=
    (h.cache v).congr fun q hq => hentries (hne (h.owned v q hq).1)
  have hfresh (v : ℕ) : s.nextEntry ∉ (s.users v).response.map Prod.snd := by
    intro hmem
    obtain ⟨q, hq, heq⟩ := mem_map.mp hmem
    exact hne (h.owned v q hq).1 heq
  refine
    { cache := fun v => ?_
      index_lt := fun v => ?_
      owned := fun v q hq => ?_
      request := fun n r hr => ?_
      single := fun n n' r r' hr hr' heq => ?_
      fresh := fun v hv => ?_ }
  · rw [hresponse, hindex]
    split_ifs with hv
    · subst hv
      exact (hcache v).cons hsession (hfresh v) hpending
    · exact hcache v
  · rw [hindex]
    exact h.index_lt v
  · change q.2 < s.nextEntry + 1 ∧ _
    rw [hresponse] at hq
    split_ifs at hq with hv
    · subst hv
      rcases mem_cons.mp hq with rfl | hq
      · exact ⟨Nat.lt_succ_self _, update_self ..⟩
      · obtain ⟨hlt, howner⟩ := h.owned v q hq
        exact ⟨Nat.lt_succ_of_lt hlt, (update_of_ne (hne hlt) ..).trans howner⟩
    · obtain ⟨hlt, howner⟩ := h.owned v q hq
      exact ⟨Nat.lt_succ_of_lt hlt, (update_of_ne (hne hlt) ..).trans howner⟩
  · change r.entry < s.nextEntry + 1 ∧ _ ∧ _ ∧ r.user < s.nextUser
    change update s.requests s.nextRequest _ n = some r at hr
    rw [update_apply] at hr
    split_ifs at hr with hn
    · obtain rfl := Option.some.inj hr
      exact ⟨Nat.lt_succ_self _, update_self .., hpending, hu⟩
    · obtain ⟨hlt, howner, hold, huser⟩ := h.request n r hr
      refine ⟨Nat.lt_succ_of_lt hlt, (update_of_ne (hne hlt) ..).trans howner, ?_, huser⟩
      rw [hentries (hne hlt)]
      exact hold
  · change update s.requests s.nextRequest _ n = some r at hr
    change update s.requests s.nextRequest _ n' = some r' at hr'
    rw [update_apply] at hr hr'
    split_ifs at hr with hn
    · split_ifs at hr' with hn'
      · rw [hn, hn']
      · obtain rfl := Option.some.inj hr
        exact absurd heq.symm (hne (h.request n' r' hr').1)
    · split_ifs at hr' with hn'
      · obtain rfl := Option.some.inj hr'
        exact absurd heq (hne (h.request n r hr).1)
      · exact h.single n n' r r' hr hr' heq
  · rw [hresponse, hindex, if_neg]
    · exact h.fresh v hv
    · rintro rfl
      exact absurd hu (Nat.not_lt_of_le hv)

/-- A request whose handler has come back is no longer running. -/
theorem settled (h : Cached conf owner s) (n : ℕ) :
    Cached conf owner { s with requests := update s.requests n none } := by
  have hold {n' : ℕ} {r : Request} (hr : update s.requests n none n' = some r) :
      s.requests n' = some r := by
    rw [update_apply] at hr
    split_ifs at hr
    exact hr
  exact
    { h with
      request := fun n' r hr => h.request n' r (hold hr)
      single := fun n' n'' r r' hr hr' => h.single n' n'' r r' (hold hr) (hold hr') }

/-- A request is sent again while its handler runs. -/
theorem waiting (h : Cached conf owner s) {p : ℕ} {entry : Entry ν} (hentry : entry.Pending) :
    Cached conf owner (s.setEntry p entry) where
  cache u := (h.cache u).resent (fun _ hp => entries_setEntry_of_ne s entry hp) (by
    rw [entries_setEntry_self]
    exact hentry)
  index_lt := h.index_lt
  owned := h.owned
  request n r hr := by
    obtain ⟨hlt, howner, hpending, huser⟩ := h.request n r hr
    refine ⟨hlt, howner, ?_, huser⟩
    by_cases hp : r.entry = p
    · rw [hp, entries_setEntry_self]
      exact hentry
    · rw [entries_setEntry_of_ne s entry hp]
      exact hpending
  single := h.single
  fresh := h.fresh

section Finished

variable {u p session : ℕ} {response : LuaString} {gate : Gateserver}

theorem retired_finished (hpos : 0 < conf.expiredNumber) (h : Cached conf owner s) :
    Retired conf.expiredNumber u (s.finished u p response gate)
      ((s.finished u p response gate).retireResponse conf u) := by
  refine CacheInv.retired hpos ?_ ?_
  · simp only [finished, update_self]
    refine (h.cache u).completed (fun p' hp' => update_of_ne hp' ..) ?_ ?_
    · rw [update_self]
      exact ⟨rfl, some_ne_none response⟩
    · rw [update_self]
  · simp only [finished, update_self]
    exact h.index_lt u

theorem finished (hpos : 0 < conf.expiredNumber) (h : Cached conf owner s)
    (howner : owner p = (u, session)) (hu : u < s.nextUser)
    (hp : ∀ n r, s.requests n = some r → r.entry ≠ p) :
    Cached conf owner ((s.finished u p response gate).retireResponse conf u) := by
  have hr : Retired conf.expiredNumber u (s.finished u p response gate)
      ((s.finished u p response gate).retireResponse conf u) := retired_finished hpos h
  generalize (s.finished u p response gate).retireResponse conf u = t at hr
  have husers {v : ℕ} (hv : v ≠ u) : t.users v = s.users v :=
    (hr.others v hv).trans (update_of_ne hv ..)
  have hresponse := response_finished s u p response gate u
  have hentries {p' : ℕ} (hne : p' ≠ p) :
      (s.finished u p response gate).entries p' = s.entries p' := update_of_ne hne ..
  have hnextEntry : t.nextEntry = s.nextEntry := by rw [hr.rest]; rfl
  have hnextUser : t.nextUser = s.nextUser := by rw [hr.rest]; rfl
  have hrequests : t.requests = s.requests := by rw [hr.rest]; rfl
  refine
    { cache := fun v => ?_
      index_lt := fun v => ?_
      owned := fun v q hq => ?_
      request := fun n r hn => ?_
      single := by
        rw [hrequests]
        exact h.single
      fresh := fun v hv => ?_ }
  · by_cases hv : v = u
    · subst hv
      exact hr.cache
    · rw [husers hv]
      refine (h.cache v).congr fun q hq => ?_
      rw [hr.entries q.2 (.inl ?_), hentries (h.ne_of_owner howner hv hq)]
      rw [hresponse]
      intro hmem
      obtain ⟨q', hq', heq⟩ := mem_map.mp hmem
      exact h.ne_of_owner (heq ▸ (h.owned u q' hq').2) hv hq rfl
  · by_cases hv : v = u
    · subst hv
      exact hr.index_lt
    · rw [husers hv]
      exact h.index_lt v
  · rw [hnextEntry]
    by_cases hv : v = u
    · subst hv
      exact h.owned v q (hresponse ▸ hr.sublist.subset hq)
    · rw [husers hv] at hq
      exact h.owned v q hq
  · rw [hrequests] at hn
    obtain ⟨hlt, hown, hpending, huser⟩ := h.request n r hn
    refine ⟨hnextEntry ▸ hlt, hown, ?_, hnextUser ▸ huser⟩
    have hsame := hentries (hp n r hn)
    rw [hr.entries r.entry (.inr (hsame ▸ hpending.1)), hsame]
    exact hpending
  · rw [hnextUser] at hv
    have hne : v ≠ u := by
      rintro rfl
      exact absurd hu (Nat.not_lt_of_le hv)
    rw [husers hne]
    exact h.fresh v hv

end Finished

/-- **Every event keeps the caches well formed.** -/
theorem step [Zero ν] [LE ν] [DecidableLE ν] [DecidableEq ν] (hpos : 0 < conf.expiredNumber)
    (h : Cached conf owner s) (hknown : Known s) (hs : Msgserver.step conf s e = .ok t) :
    ∃ owner', Cached conf owner' t := by
  have huser {fd u session : ℕ} {message text : LuaString}
      (hreceived : s.received fd message = some (u, session, text)) : u < s.nextUser :=
    hknown.connection fd u (received_eq_some hreceived).2.2.1
  cases h.step_cases hs with
  | other hsame => exact ⟨owner, h.congr hsame⟩
  | started hreceived hlookup =>
    exact ⟨_, h.startRequest (lookup_session_eq_none.mp hlookup) (huser hreceived)⟩
  | restarted hreceived =>
    exact ⟨_, (h.forget ..).startRequest (not_mem_forget _ _) (huser hreceived)⟩
  | conflict => exact ⟨owner, (h.forget ..).congr (.requestFailed ..)⟩
  | waiting _ _ _ hresponse =>
    exact ⟨owner, h.waiting ⟨some_ne_none _, hresponse⟩⟩
  | @resent _ u session p _ _ response hreceived hlookup _ hresponse =>
    have hp := (h.owned u _ ((h.cache u).lookup_iff.mp hlookup)).2
    refine ⟨owner, h.finished hpos hp (huser hreceived) fun n r hr => ?_⟩
    rintro rfl
    rw [(h.request n r hr).2.2.1.2] at hresponse
    cases hresponse
  | @answered n answer r response hr hanswer =>
    obtain ⟨-, howner, -, hu⟩ := h.request n r hr
    refine ⟨owner, (h.settled n).finished hpos howner hu fun n' r' hr' heq => ?_⟩
    simp only [update_apply] at hr'
    split_ifs at hr' with hn
    exact hn (h.single n' n r' r hr' hr heq)
  | failed => exact ⟨owner, (h.settled _).congr (.requestFailed ..)⟩

end Cached

/-! ### Runs -/

/-- What every event keeps. -/
def Good (conf : Conf ν) (s : Msgserver ν) : Prop :=
  Known s ∧ ∃ owner, Cached conf owner s

omit [LE ν] [DecidableLE ν] [DecidableEq ν] in
theorem Good.init [Zero ν] (hpos : 0 < conf.expiredNumber) (maxclient : ℕ) (nodelay : Bool) :
    Good conf (init maxclient nodelay) :=
  ⟨⟨fun _ _ h => (by cases h), fun _ _ h => (by cases h)⟩, fun _ => (0, 0),
    .init conf hpos _ maxclient nodelay⟩

theorem Good.step [Zero ν] (hpos : 0 < conf.expiredNumber) (h : Good conf s) {e : Event}
    (hs : step conf s e = .ok t) : Good conf t := by
  obtain ⟨hknown, owner, hcached⟩ := h
  exact ⟨hknown.step hs, hcached.step hpos hknown hs⟩

/-- A run in which the user does not use the session again, with the number of responses that are
sent to the user. -/
inductive Keeping [Zero ν] (conf : Conf ν) (u session : ℕ) (s : Msgserver ν) :
    ℕ → Msgserver ν → Prop
  | refl : Keeping conf u session s 0 s
  | quiet {k : ℕ} {t t' : Msgserver ν} {e : Event} (h : Keeping conf u session s k t)
      (hs : Msgserver.step conf t e = .ok t') (hreuse : ¬Reuses t e u session)
      (hquiet : ∀ p, ¬Completes t e u p) : Keeping conf u session s k t'
  | completes {k p : ℕ} {t t' : Msgserver ν} {e : Event} (h : Keeping conf u session s k t)
      (hs : Msgserver.step conf t e = .ok t') (hreuse : ¬Reuses t e u session)
      (hcompletes : Completes t e u p) : Keeping conf u session s (k + 1) t'

/-- A response is in the cache of the user, and at most `k` have been sent to the user since. -/
structure Tracked (u session p : ℕ) (response : LuaString) (k : ℕ) (s : Msgserver ν) : Prop where
  mem : (session, p) ∈ (s.users u).response
  complete : (s.entries p).Complete
  response : (s.entries p).response = some response
  age : (s.users u).index ≤ (s.entries p).index + k + 1

variable {k' : ℕ}

namespace Tracked

omit [LE ν] [DecidableLE ν] [DecidableEq ν]

variable {owner : ℕ → ℕ × ℕ} {u session p k : ℕ} {response : LuaString}

theorem mono (h : Tracked u session p response k s) (hk : k ≤ k') :
    Tracked u session p response k' s :=
  { h with age := Nat.le_trans h.age (by omega) }

theorem congr (hst : SameCache s t) (h : Tracked u session p response k s) :
    Tracked u session p response k t where
  mem := hst.response u ▸ h.mem
  complete := hst.entries ▸ h.complete
  response := hst.entries ▸ h.response
  age := by
    rw [hst.index, hst.entries]
    exact h.age

variable {session' : ℕ}

/-- Another session leaves the cache, or that of another user. -/
theorem forget (h : Tracked u session p response k s) {u' : ℕ}
    (hne : ¬(u' = u ∧ session' = session)) :
    Tracked u session p response k (s.forget u' session') := by
  refine ⟨?_, h.complete, h.response, ?_⟩
  · rw [Msgserver.forget, setUser]
    by_cases hu : u = u'
    · subst hu
      simp only [update_self, mem_filter]
      refine ⟨h.mem, decide_eq_true fun heq => hne ⟨rfl, heq.symm⟩⟩
    · simp only [update_of_ne hu]
      exact h.mem
  · rw [index_forget]
    exact h.age

theorem startRequest (h : Tracked u session p response k s) (hp : p < s.nextEntry) {fd u' : ℕ} :
    Tracked u session p response k (s.startRequest fd u' session' text) := by
  have hentry : (s.startRequest fd u' session' text).entries p = s.entries p :=
    update_of_ne (Nat.ne_of_lt hp) ..
  refine ⟨?_, hentry ▸ h.complete, hentry ▸ h.response, ?_⟩
  · rw [Msgserver.startRequest]
    simp only [setUser, setEntry, update_apply]
    split_ifs with hu
    · subst hu
      exact mem_cons_of_mem _ h.mem
    · exact h.mem
  · rw [hentry]
    rw [index_startRequest]
    exact h.age

/-- A response is sent, to the user or to another one. -/
theorem finished (hpos : 0 < conf.expiredNumber) (hcached : Cached conf owner s)
    (h : Tracked u session p response k s) {u' p' : ℕ} {response' : LuaString} {gate : Gateserver}
    (howner : owner p' = (u', session')) (hp : p' = p → response' = response) (hk : k ≤ k')
    (hk' : u' = u → k < k') (hlt : k' < conf.expiredNumber) :
    Tracked u session p response k'
      ((s.finished u' p' response' gate).retireResponse conf u') := by
  have hr : Retired conf.expiredNumber u' (s.finished u' p' response' gate)
      ((s.finished u' p' response' gate).retireResponse conf u') :=
    hcached.retired_finished hpos
  generalize (s.finished u' p' response' gate).retireResponse conf u' = t at hr
  have hpu := (hcached.owned u _ h.mem).2
  -- the entry before `retire_response`
  have hentry : ((s.finished u' p' response' gate).entries p).Complete ∧
      ((s.finished u' p' response' gate).entries p).response = some response ∧
      ((s.finished u' p' response' gate).users u).index ≤
        ((s.finished u' p' response' gate).entries p).index + k' + 1 := by
    by_cases heq : p' = p
    · subst heq
      rw [hpu] at howner
      obtain rfl := (Prod.mk.inj howner).1
      simp only [Msgserver.finished, update_self]
      refine ⟨⟨rfl, some_ne_none _⟩, congrArg some (hp rfl), by omega⟩
    · have hold : (s.finished u' p' response' gate).entries p = s.entries p :=
        update_of_ne (Ne.symm heq) ..
      rw [hold]
      refine ⟨h.complete, h.response, ?_⟩
      have hage := h.age
      by_cases hu : u = u'
      · subst hu
        have := hk' rfl
        simp only [Msgserver.finished, update_self]
        omega
      · simp only [Msgserver.finished, update_of_ne hu]
        omega
  have hresponse := response_finished s u' p' response' gate
  obtain ⟨hcomplete, hresp, hage⟩ := hentry
  have hfields := hr.fields p
  have hmem : (session, p) ∈ (t.users u).response ∧
      (t.users u).index ≤ (t.entries p).index + k' + 1 := by
    by_cases hu : u = u'
    · subst hu
      exact hr.stays k' hlt (session, p) ((hresponse u).symm ▸ h.mem) hcomplete hage
    · rw [hr.others u hu, hr.entries p (.inl ?_)]
      · exact ⟨(hresponse u).symm ▸ h.mem, hage⟩
      · rw [hresponse]
        intro hmem
        obtain ⟨q, hq, rfl⟩ := mem_map.mp hmem
        exact hcached.ne_of_owner hpu (Ne.symm hu) hq rfl
  refine ⟨hmem.1, ?_, ?_, hmem.2⟩
  · rw [hfields]
    exact hcomplete
  · rw [hfields]
    exact hresp

end Tracked

namespace Tracked

variable {u session p k : ℕ} {response : LuaString}

/-- **What one event does to a response that is cached.** -/
theorem step [Zero ν] (hpos : 0 < conf.expiredNumber) (hgood : Good conf s)
    (h : Tracked u session p response k s) {e : Event} (hs : Msgserver.step conf s e = .ok t)
    (hreuse : ¬Reuses s e u session) (hk : k ≤ k') (hk' : ∀ p', Completes s e u p' → k < k')
    (hlt : k' < conf.expiredNumber) : Tracked u session p response k' t := by
  obtain ⟨-, owner, hcached⟩ := hgood
  have hp : p < s.nextEntry := (hcached.owned u _ h.mem).1
  cases hcached.step_cases hs with
  | other hsame => exact (h.congr hsame).mono hk
  | started => exact (h.startRequest hp).mono hk
  | restarted hreceived hlookup hversion =>
    refine (startRequest (h.forget ?_) hp).mono hk
    rintro ⟨rfl, rfl⟩
    exact hreuse ⟨_, _, _, _, rfl, hreceived, hlookup, hversion⟩
  | conflict hreceived hlookup hversion =>
    refine ((h.forget ?_).congr (.requestFailed ..)).mono hk
    rintro ⟨rfl, rfl⟩
    exact hreuse ⟨_, _, _, _, rfl, hreceived, hlookup, hversion⟩
  | @waiting _ _ _ p' _ _ _ _ _ hresponse =>
    have hne : p ≠ p' := by
      rintro rfl
      rw [h.response] at hresponse
      cases hresponse
    refine Tracked.mono ⟨h.mem, ?_, ?_, ?_⟩ hk
    all_goals rw [entries_setEntry_of_ne s _ hne]
    · exact h.complete
    · exact h.response
    · exact h.age
  | @resent _ u' session' p' _ _ response' hreceived hlookup hversion hresponse =>
    have howner := (hcached.owned u' _ ((hcached.cache u').lookup_iff.mp hlookup)).2
    refine h.finished hpos hcached howner ?_ hk ?_ hlt
    · rintro rfl
      rw [h.response] at hresponse
      exact (Option.some.inj hresponse).symm
    · rintro rfl
      exact hk' p' (.resent hreceived hlookup hversion (hresponse ▸ some_ne_none _))
  | @answered n answer r response' hr hanswer =>
    obtain ⟨-, howner, hpending, -⟩ := hcached.request n r hr
    refine finished hpos (hcached.settled n) (s := { s with
      requests := update s.requests n none }) { h with } howner ?_ hk ?_ hlt
    · intro heq
      exact absurd (heq ▸ hpending) h.complete.not_pending
    · rintro rfl
      exact hk' r.entry (.answered hr hanswer)
  | failed =>
    refine (congr (.requestFailed ..) ?_).mono hk
    exact { h with }

end Tracked

theorem Keeping.good [Zero ν] (hpos : 0 < conf.expiredNumber) {u session k : ℕ}
    (h : Keeping conf u session s k t) (hgood : Good conf s) : Good conf t := by
  induction h with
  | refl => exact hgood
  | quiet _ hs _ _ ih => exact ih.step hpos hs
  | completes _ hs _ _ ih => exact ih.step hpos hs

/-- **A response that is cached stays there for the next `expired_number - 1` ones.** -/
theorem Keeping.tracked [Zero ν] (hpos : 0 < conf.expiredNumber) {u session k p : ℕ}
    {response : LuaString} (h : Keeping conf u session s k t) (hgood : Good conf s)
    (htracked : Tracked u session p response 0 s) (hlt : k < conf.expiredNumber) :
    Tracked u session p response k t := by
  induction h with
  | refl => exact htracked
  | quiet hrun hs hreuse hquiet ih =>
    exact (ih hlt).step hpos (hrun.good hpos hgood) hs hreuse (Nat.le_refl _)
      (fun p' hp' => absurd hp' (hquiet p')) hlt
  | completes hrun hs hreuse _ ih =>
    exact (ih (Nat.lt_of_succ_lt hlt)).step hpos (hrun.good hpos hgood) hs hreuse (Nat.le_succ _)
      (fun _ _ => Nat.lt_succ_self _) hlt

/-- A session that is in the cache under another version is not used again. -/
theorem data_resend {fd u session p : ℕ}
    (hreceived : s.received fd message = some (u, session, text))
    (hlookup : (s.users u).response.lookup session = some p)
    (hversion : (s.entries p).version ≠ some (s.users u).version) :
    s.data conf fd message = s.resend conf fd u p := by
  obtain ⟨hgate, hshake, hconn, hlen, rfl, rfl⟩ := received_eq_some hreceived
  rw [data, if_pos hgate, hshake]
  simp only
  rw [request, hconn]
  simp only
  rw [if_neg (Nat.not_lt_of_le hlen), hlookup]
  exact if_neg hversion

section Completes

variable [Zero ν] {e : Event} {u p : ℕ}

variable {session : ℕ}

omit [Zero ν] [LE ν] [DecidableLE ν] [DecidableEq ν] in
theorem tracked_finished (hpos : 0 < conf.expiredNumber) {owner : ℕ → ℕ × ℕ}
    (hcached : Cached conf owner s) {response : LuaString} {gate : Gateserver}
    (hmem : (session, p) ∈
      (((s.finished u p response gate).retireResponse conf u).users u).response) :
    Tracked u session p response 0
      ((s.finished u p response gate).retireResponse conf u) := by
  have hr : Retired conf.expiredNumber u (s.finished u p response gate)
      ((s.finished u p response gate).retireResponse conf u) := hcached.retired_finished hpos
  generalize (s.finished u p response gate).retireResponse conf u = t at hr hmem
  have hentry : (s.finished u p response gate).entries p =
      ⟨none, some response, some (s.users u).version, (s.users u).index⟩ :=
    update_self ..
  have hfields := hr.fields p
  rw [hentry] at hfields
  have hstays := hr.stays 0 hpos (session, p) (hr.sublist.subset hmem)
    (by
      rw [hentry]
      exact ⟨rfl, some_ne_none response⟩)
    (by
      rw [hentry]
      simp only [finished, update_self]
      omega)
  refine ⟨hmem, ?_, ?_, hstays.2⟩
  · rw [hfields]
    exact ⟨rfl, some_ne_none response⟩
  · rw [hfields]

/-- A response that has just been sent is tracked, if its entry is in the cache. -/
theorem Completes.tracked (hpos : 0 < conf.expiredNumber) (hgood : Good conf s)
    (h : Completes s e u p) (hs : step conf s e = .ok t)
    (hlookup : (t.users u).response.lookup session = some p) :
    ∃ response, Tracked u session p response 0 t := by
  obtain ⟨owner', hcached'⟩ := (hgood.step hpos hs).2
  have hmem := (hcached'.cache u).lookup_iff.mp hlookup
  obtain ⟨-, owner, hcached⟩ := hgood
  cases h with
  | @answered n answer r response hr hanswer =>
    rw [step, answered_eq hr hanswer] at hs
    cases hs
    exact ⟨response, tracked_finished hpos (hcached.settled n) hmem⟩
  | @resent fd _ session' _ message text hreceived hlookup' hversion hresponse =>
    obtain ⟨response, hresponse⟩ := Option.ne_none_iff_exists'.mp hresponse
    rw [step, data_resend hreceived hlookup' hversion, resend_complete hresponse] at hs
    cases hs
    exact ⟨response, tracked_finished hpos hcached hmem⟩

end Completes

/-- The response of the entry goes to the connection, if the handler has not come back. -/
structure Awaiting (fd p : ℕ) (s : Msgserver ν) : Prop where
  lt : p < s.nextEntry
  returnFd : (s.entries p).response = none → (s.entries p).returnFd = some fd

namespace Awaiting

omit [LE ν] [DecidableLE ν] [DecidableEq ν]

variable {fd p : ℕ}

theorem congr (h : Awaiting fd p s) (hlt : s.nextEntry ≤ t.nextEntry)
    (hentry : t.entries p = s.entries p) : Awaiting fd p t where
  lt := Nat.lt_of_lt_of_le h.lt hlt
  returnFd := by
    rw [hentry]
    exact h.returnFd

theorem startRequest (h : Awaiting fd p s) {fd' u session : ℕ} :
    Awaiting fd p (s.startRequest fd' u session text) :=
  h.congr (Nat.le_succ _) (update_of_ne (Nat.ne_of_lt h.lt) ..)

theorem finished (hpos : 0 < conf.expiredNumber) {owner : ℕ → ℕ × ℕ}
    (hcached : Cached conf owner s) (h : Awaiting fd p s) {u p' : ℕ} {response : LuaString}
    {gate : Gateserver} :
    Awaiting fd p ((s.finished u p' response gate).retireResponse conf u) := by
  have hr : Retired conf.expiredNumber u (s.finished u p' response gate)
      ((s.finished u p' response gate).retireResponse conf u) := hcached.retired_finished hpos
  generalize (s.finished u p' response gate).retireResponse conf u = t at hr
  refine ⟨?_, ?_⟩
  · rw [hr.rest]
    exact h.lt
  · rw [hr.fields p]
    intro hnone
    by_cases heq : p = p'
    · subst heq
      simp only [Msgserver.finished, update_self] at hnone
      cases hnone
    · simp only [Msgserver.finished, update_of_ne heq] at hnone ⊢
      exact h.returnFd hnone

theorem step [Zero ν] [LE ν] [DecidableLE ν] [DecidableEq ν] (hpos : 0 < conf.expiredNumber)
    (hgood : Good conf s) (h : Awaiting fd p s) {e : Event}
    (hs : Msgserver.step conf s e = .ok t) (hresends : ¬Resends s e p) : Awaiting fd p t := by
  obtain ⟨-, owner, hcached⟩ := hgood
  cases hcached.step_cases hs with
  | other hsame => exact h.congr (Nat.le_of_eq hsame.nextEntry.symm) (by rw [hsame.entries])
  | started => exact h.startRequest
  | @restarted _ u session =>
    exact startRequest (s := s.forget u session) (h.congr (Nat.le_refl _) rfl)
  | @conflict fd' u session =>
    have hsame := SameCache.requestFailed (s.forget u session) fd'
    exact congr (h.congr (t := s.forget u session) (Nat.le_refl _) rfl)
      (Nat.le_of_eq hsame.nextEntry.symm) (by rw [hsame.entries])
  | @waiting _ _ _ p' _ _ hreceived hlookup hversion =>
    have hne : p ≠ p' := by
      rintro rfl
      exact hresends ⟨_, _, _, _, _, rfl, hreceived, hlookup, hversion⟩
    exact h.congr (Nat.le_refl _) (entries_setEntry_of_ne s _ hne)
  | resent => exact h.finished hpos hcached
  | @answered n =>
    exact finished hpos (hcached.settled n) (h.congr (Nat.le_refl _) rfl)
  | @failed n _ r =>
    have hsame := SameCache.requestFailed ({ s with
      requests := update s.requests n none } : Msgserver ν) r.fd
    exact congr (h.congr (t := { s with requests := update s.requests n none })
      (Nat.le_refl _) rfl) (Nat.le_of_eq hsame.nextEntry.symm) (by rw [hsame.entries])

end Awaiting

/-! ### What a client can rely on -/

/-- In a state of a server: a response that has just been sent stays in the cache for the next
`last` ones to its user; the cache is bounded; a handler comes back with the response, which goes to
the connection that is waiting for it; and a request that is sent again calls no handler and gets
the response, at once or when the handler of the first one comes back. -/
structure CachesResponses [Zero ν] (conf : Conf ν) (last : ℕ) (s : Msgserver ν) : Prop where
  stays : ∀ e t u session p, Completes s e u p → step conf s e = .ok t →
    (t.users u).response.lookup session = some p →
      ∃ response, (t.entries p).response = some response ∧
        ∀ k t', Keeping conf u session t k t' → k ≤ last →
          (t'.users u).response.lookup session = some p ∧ (t'.entries p).Complete ∧
            (t'.entries p).response = some response
  bounded : ∀ u, (complete (s.users u).response s.entries).length ≤ 2 * conf.expiredNumber
  result : ∀ n answer r response t, s.requests n = some r →
    answer.encode r.session = some response → step conf s (.answered n answer) = .ok t →
      (t.entries r.entry).response = some response ∧
        t.gate = s.reply (s.entries r.entry).returnFd response ∧
          ∀ n' r', t.requests n' = some r' → r'.entry ≠ r.entry
  again : ∀ fd message u session text p t, s.received fd message = some (u, session, text) →
    (s.users u).response.lookup session = some p →
    (s.entries p).version ≠ some (s.users u).version → step conf s (.data fd message) = .ok t →
      t.requests = s.requests ∧ t.nextRequest = s.nextRequest ∧
        (∀ response, (s.entries p).response = some response →
          t.gate = s.gate.call (.send fd response)) ∧
        ((s.entries p).response = none → t.gate = s.gate ∧
          ∀ t', Transition.Reaches (step conf) (fun v e => ¬Resends v e p) t t' →
            ∀ n answer r response t'', t'.requests n = some r → r.entry = p →
              answer.encode r.session = some response →
              step conf t' (.answered n answer) = .ok t'' →
                t''.gate = t'.reply (some fd) response)

section Facts

omit [LE ν] [DecidableLE ν] [DecidableEq ν]

variable {u p : ℕ} {response : LuaString} {gate : Gateserver}

theorem finished_facts (hpos : 0 < conf.expiredNumber) {owner : ℕ → ℕ × ℕ}
    (hcached : Cached conf owner s)
    (ht : t = (s.finished u p response gate).retireResponse conf u) :
    (t.entries p).response = some response ∧ t.gate = gate ∧ t.requests = s.requests ∧
      t.nextRequest = s.nextRequest := by
  have hr : Retired conf.expiredNumber u (s.finished u p response gate) t :=
    ht ▸ hcached.retired_finished hpos
  refine ⟨?_, ?_, ?_, ?_⟩
  · rw [hr.fields p]
    simp only [finished, update_self]
  all_goals
    rw [hr.rest]
    rfl

end Facts

theorem Good.cachesResponses [Zero ν] (hpos : 0 < conf.expiredNumber) (hgood : Good conf s) :
    CachesResponses conf (conf.expiredNumber - 1) s := by
  obtain ⟨hknown, owner, hcached⟩ := id hgood
  refine ⟨fun e t u session p hcompletes hs hlookup => ?_, fun u => ?_,
    fun n answer r response t hr hanswer hs => ?_,
    fun fd message u session text p t hreceived hlookup hversion hs => ?_⟩
  · obtain ⟨response, htracked⟩ := hcompletes.tracked hpos hgood hs hlookup
    refine ⟨response, htracked.response, fun k t' hrun hk => ?_⟩
    have hgood' := hgood.step hpos hs
    have hend := hrun.tracked hpos hgood' htracked (by omega)
    obtain ⟨-, owner', hcached'⟩ := hrun.good hpos hgood'
    exact ⟨(hcached'.cache u).lookup_iff.mpr hend.mem, hend.complete, hend.response⟩
  · exact Nat.le_trans (hcached.cache u).length_complete_le (Nat.le_of_lt (hcached.index_lt u))
  · rw [Msgserver.step, answered_eq hr hanswer] at hs
    obtain ⟨hresponse, hgate, hrequests, -⟩ :=
      finished_facts hpos (hcached.settled n) (Except.ok.inj hs).symm
    refine ⟨hresponse, hgate, fun n' r' hr' heq => ?_⟩
    rw [hrequests] at hr'
    simp only [update_apply] at hr'
    split_ifs at hr' with hn
    exact hn (hcached.single n' n r' r hr' hr heq)
  · rw [Msgserver.step, data_resend hreceived hlookup hversion] at hs
    have hlt := (hcached.owned u _ ((hcached.cache u).lookup_iff.mp hlookup)).1
    cases hp : (s.entries p).response with
    | some response =>
      rw [resend_complete hp] at hs
      obtain ⟨-, hgate, hrequests, hnext⟩ :=
        finished_facts hpos hcached (Except.ok.inj hs).symm
      refine ⟨hrequests, hnext, fun response' heq => ?_, by simp⟩
      obtain rfl := Option.some.inj heq
      rw [hgate, reply, (received_eq_some hreceived).2.2.1]
      exact if_pos (some_ne_none u)
    | none =>
      rw [resend_pending hp] at hs
      cases hs
      refine ⟨rfl, rfl, by simp, fun _ => ⟨rfl, fun t' hrun n answer r response t'' hr hentry hanswer
        hs' => ?_⟩⟩
      -- the entry waits for the handler until that comes back
      have hstart : Good conf (s.setEntry p { s.entries p with
          returnFd := some fd
          version := some (s.users u).version
          index := (s.users u).index }) :=
        ⟨{ hknown with }, owner, hcached.waiting ⟨some_ne_none fd, hp⟩⟩
      have hstep (v w : Msgserver ν) (e : Event) (hinv : Good conf v ∧ Awaiting fd p v)
          (hok : ¬Resends v e p) (hs : Msgserver.step conf v e = .ok w) :
          Good conf w ∧ Awaiting fd p w :=
        ⟨hinv.1.step hpos hs, hinv.2.step hpos hinv.1 hs hok⟩
      have hend := hrun.invariant ⟨hstart, hlt, fun _ => by rw [entries_setEntry_self]⟩ hstep
      obtain ⟨⟨-, owner', hcached'⟩, hawaiting⟩ := hend
      rw [Msgserver.step, answered_eq hr hanswer] at hs'
      obtain ⟨-, hgate, -⟩ :=
        finished_facts hpos (hcached'.settled n) (Except.ok.inj hs').symm
      have hpending := (hcached'.request n r hr).2.2.1
      rw [hgate, hentry, hawaiting.returnFd (hentry ▸ hpending.2)]

/-- In every state that a server reaches, the `expired_number` responses that were sent to a user
last can be asked for again. -/
theorem responses_cached [Zero ν] (conf : Conf ν) (hpos : 0 < conf.expiredNumber) (maxclient : ℕ)
    (nodelay : Bool)
    (h : Transition.Reaches (step conf) (fun _ _ => True) (init maxclient nodelay) s) :
    CachesResponses conf (conf.expiredNumber - 1) s := by
  refine Good.cachesResponses hpos ?_
  exact h.invariant (.init hpos maxclient nodelay) fun _ _ _ hinv _ hs => hinv.step hpos hs

/-- The user has been answered once. -/
theorem responses_cached_first :
    ∃ s, Transition.exec (step sampleConf) (init 1024 false)
        (firstLogin ++ [.data 1 [0, 0, 0, 7], .answered 0 (.returned none)]) = .ok s ∧
      (s.users 0).response = [(7, 0)] ∧ CachesResponses sampleConf 127 s :=
  ⟨_, rfl, rfl, responses_cached sampleConf (by decide) 1024 false
    (Transition.reaches_of_exec (l := firstLogin ++ [.data 1 [0, 0, 0, 7],
      .answered 0 (.returned none)]) rfl fun _ _ _ => trivial)⟩

/-- The configuration of a server that caches one response. -/
def oneConf : Conf ℤ :=
  { sampleConf with expiredNumber := 1 }

/-- The user asks twice and is answered twice. -/
theorem exec_oneConf :
    ∃ s₀ s₁ s₂ s₃, Transition.exec (step oneConf) (init 1024 false)
        (firstLogin ++ [.data 1 [0, 0, 0, 7]]) = .ok s₀ ∧
      step oneConf s₀ (.answered 0 (.returned none)) = .ok s₁ ∧
      step oneConf s₁ (.data 1 [0, 0, 0, 8]) = .ok s₂ ∧
      step oneConf s₂ (.answered 1 (.returned none)) = .ok s₃ ∧
      s₀.requests 0 = some ⟨1, 0, 7, [], 0⟩ ∧ (s₁.users 0).response = [(7, 0)] ∧
      s₁.received 1 [0, 0, 0, 8] = some (0, 8, []) ∧
      s₂.requests 1 = some ⟨1, 0, 8, [], 1⟩ ∧ (s₃.users 0).response = [(8, 1)] :=
  ⟨_, _, _, _, rfl, rfl, rfl, rfl, rfl, rfl, rfl, rfl, rfl⟩

/-- With an `expired_number` of one, a response leaves the cache when the next one is sent. -/
theorem responses_cached_fails :
    ¬∀ s, Transition.Reaches (step oneConf) (fun _ _ => True) (init 1024 false) s →
      CachesResponses oneConf oneConf.expiredNumber s := by
  intro hall
  obtain ⟨s₀, s₁, s₂, s₃, hrun, hs₁, hs₂, hs₃, hfirst, hcached, hreceived, hsecond, hend⟩ :=
    exec_oneConf
  obtain ⟨response, -, hkept⟩ := (hall s₀ (Transition.reaches_of_exec hrun
    fun _ _ _ => trivial)).stays _ s₁ 0 7 0 (.answered hfirst rfl) hs₁ (by rw [hcached]; rfl)
  have hquiet : Keeping oneConf 0 7 s₁ 0 s₂ := by
    refine .quiet .refl hs₂ ?_ fun p hcompletes => ?_
    · rintro ⟨fd, message, text, p, he, hreceived', -⟩
      cases he
      rw [hreceived] at hreceived'
      simp at hreceived'
    · cases hcompletes with
      | resent hreceived' hlookup =>
        rw [hreceived] at hreceived'
        simp only [Option.some.injEq, Prod.mk.injEq, true_and] at hreceived'
        rw [hcached, ← hreceived'.1] at hlookup
        cases hlookup
  have hnext : Keeping oneConf 0 7 s₁ 1 s₃ := by
    refine hquiet.completes hs₃ ?_ (.answered hsecond rfl)
    rintro ⟨_, _, _, _, he, -⟩
    cases he
  have hlookup := (hkept 1 s₃ hnext (Nat.le_refl 1)).1
  rw [hend] at hlookup
  cases hlookup

end Mtask.Snax.Msgserver
