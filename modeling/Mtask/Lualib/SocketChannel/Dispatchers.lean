import Mtask.Lualib.SocketChannel.Channel

/-!
# The dispatchers of a channel

`connect_once` forks a dispatcher for every connection, and the loop of a dispatcher looks at
`__sock`, whichever connection that is. While `socket.close` waits for the end of a connection, the
channel may be connected again, and the old dispatcher then closes the new connection when its own
read fails, or goes on reading from it. Where a connection is established only when the dispatchers
before have ended, and nobody waits for a reply of an earlier connection, each dispatcher serves its
own connection.

The dispatcher of a connection has the number of the connection.
-/

namespace Mtask.Lualib.SocketChannel

open List (mem_append mem_singleton not_mem_nil)

variable {κ σ δ ε : Type*} {s t : Channel κ σ δ ε} {d c : ℕ}

/-- The connection that the dispatcher reads from, or waits for. -/
def Dispatcher.connection? : Dispatcher κ σ ε → Option ℕ
  | reading c _ => some c
  | blocked c => some c
  | _ => none

/-- The dispatcher has been forked, and has not ended. -/
def Dispatcher.active : Dispatcher κ σ ε → Bool
  | absent | ended => false
  | forked | reading _ _ | blocked _ | failing _ _ => true

/-- The coroutine that the dispatcher has taken. -/
def Dispatcher.waiter? : Dispatcher κ σ ε → Option (Entry κ σ)
  | reading _ waiter => waiter
  | failing waiter _ => waiter
  | _ => none

/-- The dispatchers have read from their own connections, have taken or woken only the coroutines
that came when it was `__sock`, and have closed no other one. At a connection there is one
dispatcher at most. -/
structure ServesOwn (s : Channel κ σ δ ε) : Prop where
  reads : ∀ served ∈ s.reads, served.2 = served.1
  taken : ∀ served ∈ s.taken, served.2 = served.1
  closes : ∀ served ∈ s.closes, served.2 = served.1
  one : ∀ d d' c, (s.dispatcher d).connection? = some c → (s.dispatcher d').connection? = some c →
    d = d'

/-- A connection is established only when all dispatchers have ended, and nobody waits any more for
a reply of an earlier connection. -/
def ConnectedAlone (s : Channel κ σ δ ε) : Event κ σ δ ε → Prop
  | .opened .established => (∀ d, (s.dispatcher d).active = false) ∧ s.thread = []
  | _ => True

/-- Only the dispatcher of the last connection is active, and everything that it can come to is of
that connection. -/
structure Alone (s : Channel κ σ δ ε) : Prop where
  reads : ∀ served ∈ s.reads, served.2 = served.1
  taken : ∀ served ∈ s.taken, served.2 = served.1
  closes : ∀ served ∈ s.closes, served.2 = served.1
  active : ∀ d, (s.dispatcher d).active = true → d + 1 = s.connections
  place : ∀ d c, (s.dispatcher d).connection? = some c → c = d
  waiter : ∀ d, ∀ e ∈ (s.dispatcher d).waiter?, e.connection = d
  sock : ∀ c, s.sock = some c → c + 1 = s.connections
  thread : ∀ e ∈ s.thread, e.connection + 1 = s.connections

namespace Alone

theorem new (bySession auth : Bool) : Alone (Channel.new bySession auth : Channel κ σ δ ε) where
  reads _ h := absurd h not_mem_nil
  taken _ h := absurd h not_mem_nil
  closes _ h := absurd h not_mem_nil
  active _ h := nomatch h
  place _ _ h := nomatch h
  waiter _ _ h := nomatch h
  sock _ h := nomatch h
  thread _ h := absurd h not_mem_nil

/-- The dispatcher of the last connection goes somewhere else. -/
theorem moved (h : Alone s) (hd : d + 1 = s.connections) (v : Dispatcher κ σ ε)
    (hc : ∀ c, v.connection? = some c → c = d) (hw : ∀ e ∈ v.waiter?, e.connection = d) :
    Alone { s with dispatcher := Function.update s.dispatcher d v } := by
  refine { h with active := ?_, place := ?_, waiter := ?_ }
  · intro d' hd'
    by_cases hne : d' = d
    · exact hne ▸ hd
    · exact h.active d' (by simpa [hne] using hd')
  · intro d' c hc'
    by_cases hne : d' = d
    · subst hne
      exact hc c (by simpa using hc')
    · exact h.place d' c (by simpa [hne] using hc')
  · intro d' e he
    by_cases hne : d' = d
    · subst hne
      exact hw e (by simpa using he)
    · exact h.waiter d' e (by simpa [hne] using he)

theorem loop (h : Alone s) (hd : d + 1 = s.connections) : Alone (s.loop d) := by
  unfold Channel.loop
  split
  next => exact h.moved hd .ended (by simp [Dispatcher.connection?]) (by simp [Dispatcher.waiter?])
  next c hc =>
    have hcd : c = d := by
      have := h.sock c hc
      omega
    subst hcd
    have hr : Alone { s with reads := s.reads ++ [(c, c)] } :=
      { h with
        reads := fun served hm => by
          rcases mem_append.1 hm with hm | hm
          · exact h.reads served hm
          · rw [mem_singleton.1 hm] }
    dsimp only
    split
    next =>
      exact hr.moved hd (.reading c none) (by simp [Dispatcher.connection?])
        (by simp [Dispatcher.waiter?])
    next =>
      split
      next =>
        exact hr.moved hd (.blocked c) (by simp [Dispatcher.connection?])
          (by simp [Dispatcher.waiter?])
      next e thread ht =>
        have he : e.connection = c := by
          have := h.thread e (by simp [ht])
          omega
        have hm := hr.moved hd (.reading c (some e)) (by simp [Dispatcher.connection?])
          (by simpa [Dispatcher.waiter?] using he)
        refine { hm with
          thread := fun e' he' => h.thread e' (by simp [ht, he'])
          taken := fun served hs => ?_ }
        rcases mem_append.1 hs with hs | hs
        · exact h.taken served hs
        · rw [mem_singleton.1 hs]
          exact he

/-- Coroutines that came when the last connection was `__sock` are taken by its dispatcher. -/
theorem take (h : Alone s) {entries : List (Entry κ σ)}
    (he : ∀ e ∈ entries, e.connection = d) :
    Alone { s with taken := s.taken ++ entries.map fun e => (d, e.connection) } :=
  { h with
    taken := fun served hm => by
      rcases mem_append.1 hm with hm | hm
      · exact h.taken served hm
      · obtain ⟨e, hmem, rfl⟩ := List.mem_map.1 hm
        exact he e hmem }

theorem established (h : Alone s) (hd : ∀ d, (s.dispatcher d).active = false) (ht : s.thread = [])
    (connecting : Option (κ × Phase)) :
    Alone { s with
      sock := some s.connections
      connections := s.connections + 1
      dispatcher := Function.update s.dispatcher s.connections .forked
      connecting := connecting } where
  reads := h.reads
  taken := h.taken
  closes := h.closes
  active d hact := by
    by_cases hne : d = s.connections
    · rw [hne]
    · simp [hne, hd d] at hact
  place d c hc := by
    by_cases hne : d = s.connections
    · subst hne
      simp [Dispatcher.connection?] at hc
    · exact h.place d c (by simpa [hne] using hc)
  waiter d e he := by
    by_cases hne : d = s.connections
    · subst hne
      simp [Dispatcher.waiter?] at he
    · exact h.waiter d e (by simpa [hne] using he)
  sock c hc := by rw [Option.some.inj hc]
  thread e he := absurd he (by simp [ht])

section

variable [DecidableEq κ]

theorem wakeupAll (h : Alone s) (entries : List (Entry κ σ)) (message : Option ε) :
    Alone (s.wakeupAll entries message) :=
  { h with thread := fun _ he => absurd he not_mem_nil }

variable {waiter : Option (Entry κ σ)}

section

variable (h : Alone s) (hd : d + 1 = s.connections) (hw : ∀ e ∈ waiter, e.connection = d)
  (message : Option ε)
include h hd hw message

theorem failAll : Alone (s.failAll d waiter message) := by
  unfold Channel.failAll
  have hentries : ∀ e ∈ waiter.toList ++ s.thread, e.connection = d := fun e he => by
    rcases mem_append.1 he with he | he
    · exact hw e (by simpa using he)
    · have := h.thread e he
      omega
  have := (h.wakeupAll (waiter.toList ++ s.thread) message).take hentries
  exact this.loop hd

theorem fail : Alone (s.fail d waiter message) := by
  unfold Channel.fail
  split
  next c hc =>
    have hm := h.moved hd (.failing waiter message) (by simp [Dispatcher.connection?])
      (by simpa [Dispatcher.waiter?] using hw)
    refine { hm with sock := fun c hc => (nomatch hc), closes := fun served hs => ?_ }
    rcases mem_append.1 hs with hs | hs
    · exact h.closes served hs
    · rw [mem_singleton.1 hs]
      have := h.sock c hc
      omega
  next => exact h.failAll hd hw message

end

/-- A coroutine is woken with its reply, or has a part of it. -/
theorem deliver (h : Alone s) (co : κ) (r : Reply σ δ) : Alone (s.deliver co r) := { h with }

theorem addPart (h : Alone s) (co : κ) (data : δ) : Alone (s.addPart co data) := { h with }

theorem readOrder (h : Alone s) (hd : d + 1 = s.connections) (e : Entry κ σ) (r : Reply σ δ) :
    Alone (s.readOrder d e r) := by
  unfold Channel.readOrder
  split
  · exact (h.addPart e.co r.data).loop hd
  · exact (h.deliver e.co r).loop hd

theorem readSession [DecidableEq σ] (h : Alone s) (hd : d + 1 = s.connections) (r : Reply σ δ) :
    Alone (s.readSession d r) := by
  unfold Channel.readSession
  split
  · exact h.fail hd (by simp) none
  next session hr =>
    split
    next e he =>
      have hm := List.mem_of_find?_eq_some he
      have hentries : ∀ e' ∈ [e], e'.connection = d := fun e' he' => by
        rw [mem_singleton.1 he']
        have := h.thread e hm
        omega
      have ht := h.take hentries
      dsimp only
      split
      · exact (ht.addPart e.co r.data).loop hd
      · have hf : Alone { s with
            taken := s.taken ++ [(d, e.connection)]
            thread := s.thread.filter (·.response ≠ session) } :=
          { ht with thread := fun e' he' => h.thread e' (List.mem_filter.1 he').1 }
        exact (hf.deliver e.co r).loop hd
    next => exact h.loop hd

theorem read [DecidableEq σ] (h : Alone s) (hd : d + 1 = s.connections)
    (hw : ∀ e ∈ waiter, e.connection = d) (outcome : Outcome σ δ ε) :
    Alone (s.read d waiter outcome) := by
  cases outcome with
  | raised message => exact h.fail hd hw message
  | reply r =>
    have hs : Alone { s with stream := s.stream ++ [r] } := { h with }
    cases waiter with
    | some e => exact hs.readOrder hd e r
    | none => exact hs.readSession hd r

theorem use [DecidableEq σ] (h : Alone s) (co : κ) (response : Option σ) (written : Bool)
    (ht : s.use co response written = .ok t) : Alone t := by
  unfold Channel.use at ht
  split at ht
  · split at ht
    next c hc =>
      split at ht
      · cases ht
        exact { h with sock := fun _ hc => nomatch hc }
      · split at ht
        next response =>
          cases ht
          refine { h with thread := fun e he => ?_ }
          rcases mem_append.1 he with he | he
          · split at he
            · exact h.thread e (List.mem_filter.1 he).1
            · exact h.thread e he
          · rw [mem_singleton.1 he]
            exact h.sock c hc
        next =>
          cases ht
          exact h
    next => cases ht
  · cases ht

theorem step [DecidableEq σ] (h : Alone s) {event : Event κ σ δ ε} (hok : ConnectedAlone s event)
    (ht : s.step event = .ok t) : Alone t := by
  cases event with
  | connect co =>
    simp only [Channel.step] at ht
    split at ht
    · cases ht
      exact { h with }
    · cases ht
  | opened result =>
    simp only [Channel.step] at ht
    split at ht
    · cases result with
      | established =>
        simp only at ht
        split at ht
        · cases ht
          exact h.established hok.1 hok.2 _
        · cases ht
      | again => cases ht; exact h
      | failed => cases ht; exact { h with }
    · cases ht
  | authenticated ok again =>
    simp only [Channel.step] at ht
    split at ht
    · split at ht
      · cases ht
        exact { h with }
      · cases ht
        exact { h with sock := fun _ hc => nomatch hc }
    · cases ht
  | reopen => cases ht; exact { h with }
  | request co response written => exact h.use co (some response) written ht
  | send co written => exact h.use co none written ht
  | response co response => exact h.use co (some response) true ht
  | close =>
    cases ht
    refine { h with sock := fun c hc => h.sock c ?_ }
    split at hc
    · exact hc
    · cases hc
  | changehost =>
    cases ht
    refine { h with sock := fun c hc => h.sock c ?_ }
    split at hc
    · exact hc
    · cases hc
  | start d =>
    simp only [Channel.step] at ht
    split at ht
    next hd =>
      cases ht
      exact h.loop (h.active d (by simp [hd, Dispatcher.active]))
    next => cases ht
  | read d outcome =>
    simp only [Channel.step] at ht
    split at ht
    next c waiter hd =>
      cases ht
      exact h.read (h.active d (by simp [hd, Dispatcher.active]))
        (fun e he => h.waiter d e (by simpa [hd, Dispatcher.waiter?] using he)) outcome
    next => cases ht
  | block d connected =>
    simp only [Channel.step] at ht
    split at ht
    next c hd =>
      cases ht
      have ha := h.active d (by simp [hd, Dispatcher.active])
      split
      · exact h.loop ha
      · exact h.fail ha (by simp) none
    next => cases ht
  | dispatcherClosed d =>
    simp only [Channel.step] at ht
    split at ht
    next waiter message hd =>
      cases ht
      exact h.failAll (h.active d (by simp [hd, Dispatcher.active]))
        (fun e he => h.waiter d e (by simpa [hd, Dispatcher.waiter?] using he)) message
    next => cases ht
  | callerClosed co =>
    simp only [Channel.step] at ht
    split at ht
    · cases ht
      exact { h.wakeupAll s.thread none with }
    · cases ht
  | resume co =>
    simp only [Channel.step] at ht
    split at ht
    · cases ht
      exact { h with }
    · cases ht

end

end Alone

theorem Alone.servesOwn (h : Alone s) : ServesOwn s :=
  ⟨h.reads, h.taken, h.closes, fun d d' c hd hd' => (h.place d c hd).symm.trans (h.place d' c hd')⟩

/-- A dispatcher serves only its own connection. -/
theorem dispatchers_serve_own [DecidableEq κ] [DecidableEq σ] (bySession auth : Bool)
    (h : Transition.Reaches Channel.step ConnectedAlone (Channel.new bySession auth) s) :
    ServesOwn s :=
  have hinv : Alone s := h.invariant (.new bySession auth) fun _ _ _ hinv hok hs => hinv.step hok hs
  hinv.servesOwn

/-- The host is changed, and the channel connected again when the first dispatcher has ended. -/
theorem dispatchers_serve_own_two : ∃ s : Channel ℕ ℕ ℕ ℕ,
    s.reads = [(0, 0), (1, 1)] ∧ s.closes = [] ∧ ServesOwn s := by
  refine ⟨_, rfl, rfl, dispatchers_serve_own false false (Transition.Permitted.reaches
    (l := [.connect 0, .opened .established, .request 0 10 true, .start 0, .changehost,
      .read 0 (.raised none), .resume 0, .connect 0, .opened .established, .request 0 10 true,
      .start 1]) ?_ rfl)⟩
  have hinactive : ∀ d : ℕ, (Function.update (Function.update (Function.update
      (fun _ => (.absent : Dispatcher ℕ ℕ ℕ)) 0 .forked) 0 (.reading 0 (some ⟨0, 0, 10, 0⟩))) 0
        .ended d).active = false := fun d => by
    by_cases hd : d = 0
    · simp [hd, Dispatcher.active]
    · simp [hd, Dispatcher.active]
  exact .cons trivial rfl (.cons ⟨fun _ => rfl, rfl⟩ rfl (.cons trivial rfl (.cons trivial rfl
    (.cons trivial rfl (.cons trivial rfl (.cons trivial rfl (.cons trivial rfl
    (.cons ⟨hinactive, rfl⟩ rfl (.cons trivial rfl (.cons trivial rfl trivial))))))))))

/-- The first dispatcher reads when the host is changed, and the channel is connected again while
`socket.close` waits. The read fails, and the dispatcher closes the new connection and wakes the
coroutine that has made a request on it. -/
theorem old_dispatcher_closes_new : ∃ s : Channel ℕ ℕ ℕ ℕ,
    Transition.Reaches Channel.step (fun _ _ => True) (Channel.new false false) s ∧
      s.closes = [(0, 1)] ∧ (0, 1) ∈ s.taken ∧ ¬ ServesOwn s := by
  refine ⟨_, Transition.reaches_of_exec (l := [.connect 0, .opened .established,
    .request 0 10 true, .start 0, .changehost, .connect 1, .opened .established, .request 1 11 true,
    .read 0 (.raised none), .dispatcherClosed 0]) rfl (fun _ _ _ => trivial), rfl, ?_, fun h => ?_⟩
  · exact List.mem_of_getElem? (i := 2) rfl
  · have : (1 : ℕ) = 0 := h.closes (0, 1) (List.mem_singleton_self _)
    cases this

end Mtask.Lualib.SocketChannel
