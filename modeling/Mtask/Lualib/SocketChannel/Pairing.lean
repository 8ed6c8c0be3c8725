import Mtask.Lualib.SocketChannel.Dispatchers
import Mtask.Lualib.SocketChannel.Modes

/-!
# Replies and the coroutines that wait for them

On one connection, the `i`-th coroutine that waits gets the `i`-th reply in order mode, and in
session mode a coroutine gets the reply that carries its session, with the parts of that reply in
order. A failure of the connection is told to everybody who waits. There are two exceptions. In
order mode, a coroutine whose reply has a part that another one follows is not put back into
`__thread`, and the next coroutine gets the rest. And the loop of the dispatcher ends when `__sock`
has been taken from it, by `channel:close` or `channel:changehost`, without waking anybody, if the
reply that it was reading came in time.
-/

namespace Mtask.Lualib.SocketChannel

open List

variable {κ σ δ ε : Type*} {s t : Channel κ σ δ ε} {d c n : ℕ}

/-- Every wait has returned its reply or an error, once, or its coroutine is still waiting for it or
has been woken. Nobody waits when the dispatcher has ended, unless a coroutine that could not write
is still to wake all others. -/
structure Paired [DecidableEq σ] (s : Channel κ σ δ ε) : Prop where
  own : ∀ answer ∈ s.got, s.Answers answer.1 answer.2.1 answer.2.2
  once : (s.got.map (·.1)).Nodup
  all : ∀ n < s.waits.length, n ∈ s.got.map (·.1) ∨ ∃ co, (s.caller co).number? = some n
  noneLeft : s.dispatcher 0 = .ended → (∀ co, s.caller co ≠ .failing) →
    ∀ co n, s.caller co ≠ .waiting n

/-- Those that wait after a reply has been dealt with. -/
def Channel.remaining [DecidableEq σ] (s : Channel κ σ δ ε) (r : Reply σ δ) : List (Entry κ σ) :=
  if s.bySession then
    match r.session with
    | some session =>
      if r.isPart then s.thread else s.thread.filter (·.response ≠ session)
    -- the connection fails, and everybody is woken
    | none => []
  else s.thread

/-- There is one connection, and no two coroutines wait for one session. -/
def OneConnection (s : Channel κ σ δ ε) : Event κ σ δ ε → Prop
  | .opened .established => s.connections = 0
  | .request _ response _ | .response _ response =>
    s.bySession = true → ∀ e ∈ s.thread, e.response ≠ response
  | _ => True

/-- In order mode no reply has a part that another one follows. When the dispatcher comes to its
loop and `__sock` is gone, nobody waits, or a coroutine that could not write is still to wake all
others. -/
def WakesAll [DecidableEq σ] (s : Channel κ σ δ ε) : Event κ σ δ ε → Prop
  | .start _ | .block _ true => s.sock = none → s.thread = [] ∨ ∃ co, s.caller co = .failing
  | .read _ (.reply r) =>
    (s.bySession = false → r.isPart = false) ∧
      (s.sock = none → s.remaining r = [] ∨ ∃ co, s.caller co = .failing)
  | _ => True

/-! ### The dispatcher -/

/-- The dispatcher has not failed, and has not ended. -/
def Dispatcher.serving : Dispatcher κ σ ε → Bool
  | forked | reading _ _ | blocked _ => true
  | absent | failing _ _ | ended => false

/-- The connection has been established, and its dispatcher is the only one. -/
structure One (s : Channel κ σ δ ε) : Prop where
  others : ∀ d, d ≠ 0 → s.dispatcher d = .absent
  connected : s.connections ≠ 0

/-- The coroutine that the dispatcher has taken waits, and so do those of `__thread`; when the
dispatcher has ended, there are none, or somebody is still to wake them. -/
structure Kept [DecidableEq σ] (s : Channel κ σ δ ε) : Prop where
  holds : Holds ((s.dispatcher 0).waiter?.toList ++ s.thread) s
  others : ∀ d, d ≠ 0 → s.dispatcher d = .absent
  serving : s.sock ≠ none → (s.dispatcher 0).serving = true
  fresh : s.connections = 0 → s.dispatcher 0 = .absent ∧ s.waits = [] ∧ s.stream = [] ∧
    ∀ co, s.caller co ≠ .failing
  mode : s.bySession = true → (s.dispatcher 0).waiter? = none
  order : s.bySession = false → ∀ c, s.dispatcher 0 ≠ .reading c none
  ended : s.dispatcher 0 = .ended → s.thread = [] ∨ ∃ co, s.caller co = .failing

namespace Kept

variable [DecidableEq σ]

theorem new (bySession auth : Bool) : Kept (Channel.new bySession auth : Channel κ σ δ ε) where
  holds := .new bySession auth
  others _ _ := rfl
  serving h := absurd rfl h
  fresh _ := ⟨rfl, rfl, rfl, fun _ h => nomatch h⟩
  mode _ := rfl
  order _ _ h := nomatch h
  ended h := nomatch h

theorem eq_zero (h : Kept s) (hd : s.dispatcher d ≠ .absent) : d = 0 := by
  by_contra hne
  exact hd (h.others d hne)

theorem one (h : Kept s) (hd : s.dispatcher 0 ≠ .absent) : One s :=
  ⟨h.others, fun hc => hd (h.fresh hc).1⟩

theorem loop (h : Holds s.thread s) (ho : One s)
    (hend : s.sock = none → s.thread = [] ∨ ∃ co, s.caller co = .failing) : Kept (s.loop 0) := by
  have hothers : ∀ (v : Dispatcher κ σ ε) d, d ≠ 0 → Function.update s.dispatcher 0 v d = .absent :=
    fun v d hd => by rw [Function.update_of_ne hd, ho.others d hd]
  unfold Channel.loop
  split
  next hs =>
    exact
      { holds := { h with }
        others := hothers .ended
        serving := fun hne => absurd hs hne
        fresh := fun hc => absurd hc ho.connected
        mode := fun _ => by simp [Dispatcher.waiter?]
        order := fun _ c => by simp
        ended := fun _ => hend hs }
  next c hs =>
    dsimp only
    split
    next hby =>
      exact
        { holds := { h with }
          others := hothers (.reading c none)
          serving := fun _ => by simp [Dispatcher.serving]
          fresh := fun hc => absurd hc ho.connected
          mode := fun _ => by simp [Dispatcher.waiter?]
          order := fun hn => absurd hby (by simpa using hn)
          ended := fun he => by simp at he }
    next hby =>
      split
      next ht =>
        exact
          { holds := { h with }
            others := hothers (.blocked c)
            serving := fun _ => by simp [Dispatcher.serving]
            fresh := fun hc => absurd hc ho.connected
            mode := fun hn => absurd hn hby
            order := fun _ c => by simp
            ended := fun he => by simp at he }
      next e thread ht =>
        rw [ht] at h
        exact
          { holds := { h with }
            others := hothers (.reading c (some e))
            serving := fun _ => by simp [Dispatcher.serving]
            fresh := fun hc => absurd hc ho.connected
            mode := fun hn => absurd hn hby
            order := fun _ c => by simp
            ended := fun he => by simp at he }

/-- `close_channel_socket`, in a coroutine that is not waiting. -/
theorem closed (h : Kept s) : Kept { s with sock := none } :=
  { h with
    holds := { h.holds.closed with }
    serving := fun hne => absurd rfl hne }

theorem established (h : Kept s) (hc : s.connections = 0) (connecting : Option (κ × Phase)) :
    Kept { s with
      sock := some s.connections
      connections := s.connections + 1
      dispatcher := Function.update s.dispatcher s.connections .forked
      connecting := connecting } := by
  obtain ⟨habsent, hwaits, hstream, hfailing⟩ := h.fresh hc
  have hh := h.holds
  rw [habsent] at hh
  have hh : Holds s.thread s := hh
  have hthread : s.thread = [] := by
    by_contra hne
    obtain ⟨e, he⟩ := exists_mem_of_ne_nil _ hne
    have := hh.number_lt he
    rw [hwaits] at this
    exact Nat.not_lt_zero _ this
  rw [hc]
  exact
    { holds :=
        { hh with
          count := fun _ _ => by simp [hthread, hwaits, hstream, Dispatcher.waiter?]
          failing := fun co hco => absurd hco (hfailing co) }
      others := fun d hd => (Function.update_of_ne hd _ _).trans (h.others d hd)
      serving := fun _ => by simp [Dispatcher.serving]
      fresh := fun hz => absurd hz (Nat.succ_ne_zero _)
      mode := fun _ => by simp [Dispatcher.waiter?]
      order := fun _ c => by simp
      ended := fun he => by simp at he }

variable [DecidableEq κ]

section

variable (waiter : Option (Entry κ σ)) (h : Holds (waiter.toList ++ s.thread) s) (ho : One s)
include waiter h ho

theorem failAll (hs : s.sock = none) (message : Option ε) : Kept (s.failAll 0 waiter message) := by
  unfold Channel.failAll
  have hnil : Holds ([] ++ (waiter.toList ++ s.thread)) s := h
  have hw := hnil.wakeupAll hs message
  exact loop { hw with } { ho with } fun _ => .inl rfl

theorem fail (hw : s.bySession = true → waiter = none) (message : Option ε) :
    Kept (s.fail 0 waiter message) := by
  unfold Channel.fail
  split
  next =>
    exact
      { holds := { h.closed with }
        others := fun d hd => (Function.update_of_ne hd _ _).trans (ho.others d hd)
        serving := fun hne => absurd rfl hne
        fresh := fun hc => absurd hc ho.connected
        mode := fun hby => by simpa [Dispatcher.waiter?] using hw hby
        order := fun _ c => by simp
        ended := fun he => by simp at he }
  next hs => exact failAll waiter h ho hs message

end

theorem readSession {r : Reply σ δ} (h : Holds s.thread s) (ho : One s) (hby : s.bySession = true)
    (hend : s.sock = none → s.remaining r = [] ∨ ∃ co, s.caller co = .failing) :
    Kept (Channel.readSession { s with stream := s.stream ++ [r] } 0 r) := by
  unfold Channel.readSession
  cases hr : r.session with
  | none =>
    have hread : Holds s.thread { s with stream := s.stream ++ [r] } :=
      h.read_other hby fun e _ hs => by rw [hr] at hs; cases hs
    have hone : One { s with stream := s.stream ++ [r] } := { ho with }
    exact fail (s := { s with stream := s.stream ++ [r] }) none hread hone (fun _ => rfl) none
  | some session =>
    dsimp only
    split
    next e he =>
      have hmem := mem_of_find?_eq_some he
      have hsession : r.session = some e.response := by
        have := find?_some he
        rw [hr, of_decide_eq_true this]
      obtain rfl : e.response = session := Option.some.inj (hsession.symm.trans hr)
      split
      next hpart =>
        have hrem : s.remaining r = s.thread := by simp [Channel.remaining, hby, hr, hpart]
        rw [hrem] at hend
        exact loop { h.read_part hby hmem hsession hpart with } { ho with } hend
      next hpart =>
        have hpart : r.isPart = false := by simpa using hpart
        have hlast := h.read_last hby hmem hsession hpart
        refine loop { hlast with } { ho with } fun hs => ?_
        have hrem : s.remaining r = s.thread.filter (·.response ≠ e.response) := by
          simp [Channel.remaining, hby, hr, hpart]
        rw [hrem] at hend
        exact (hend hs).imp_right (Channel.failing_deliver (h.caller e hmem) r)
    next hnone =>
      have hother : ∀ e ∈ s.thread, r.session ≠ some e.response := fun e he hs => by
        have := find?_eq_none.1 hnone e he
        exact this (decide_eq_true (Option.some.inj (hs.symm.trans hr)))
      have hall : s.thread.filter (·.response ≠ session) = s.thread :=
        filter_eq_self.2 fun e he => decide_eq_true fun heq => hother e he (heq ▸ hr)
      have hrem : s.remaining r = s.thread := by
        simp only [Channel.remaining, hby, hr, hall, ite_self]
      rw [hrem] at hend
      exact loop (h.read_other hby hother) { ho with } hend

/-- The function that reads a reply has returned, or has raised an error. -/
theorem read (h : Kept s) {waiter : Option (Entry κ σ)} (hd : s.dispatcher 0 = .reading c waiter)
    {outcome : Outcome σ δ ε} (hok : WakesAll s (.read 0 outcome)) :
    Kept (s.read 0 waiter outcome) := by
  have ho : One s := h.one (by simp [hd])
  have hh : Holds (waiter.toList ++ s.thread) s := by
    have := h.holds
    rw [hd] at this
    exact this
  have hw : s.bySession = true → waiter = none := fun hby => by
    have := h.mode hby
    rw [hd] at this
    exact this
  cases outcome with
  | raised message => exact fail waiter hh ho hw message
  | reply r =>
    cases waiter with
    | none =>
      have hby : s.bySession = true := by
        by_contra hn
        exact h.order (by simpa using hn) c hd
      exact readSession hh ho hby hok.2
    | some e =>
      have hby : s.bySession = false := by
        by_contra hn
        exact nomatch hw (by simpa using hn)
      have hpart := hok.1 hby
      unfold Channel.read Channel.readOrder
      simp only [hpart, Bool.false_eq_true, if_false]
      have hrem : s.remaining r = s.thread := by simp [Channel.remaining, hby]
      have hend := hok.2
      rw [hrem] at hend
      exact loop (hh.read_order hby hpart) { ho with } fun hs =>
        (hend hs).imp_right (Channel.failing_deliver (hh.caller e mem_cons_self) r)

theorem use (h : Kept s) (co : κ) (response : Option σ) (written : Bool)
    (hnew : ∀ r ∈ response, s.bySession = true → ∀ e ∈ s.thread, e.response ≠ r)
    (ht : s.use co response written = .ok t) : Kept t := by
  unfold Channel.use at ht
  split at ht
  next hok =>
    split at ht
    next c hs =>
      have hsock : s.sock ≠ none := by simp [hs]
      have hconnections : s.connections ≠ 0 := fun hz => by
        have := h.serving hsock
        rw [(h.fresh hz).1] at this
        cases this
      split at ht
      next =>
        cases ht
        have hh := h.holds.closed.elsewhere co .failing (by rw [hok.1]; rfl) rfl fun _ => rfl
        exact
          { holds := { hh with }
            others := h.others
            serving := fun hne => absurd rfl hne
            fresh := fun hz => absurd hz hconnections
            mode := h.mode
            order := h.order
            ended := fun _ => .inr ⟨co, Function.update_self _ _ _⟩ }
      next =>
        split at ht
        next r =>
          cases ht
          have hheld : s.bySession = true →
              ∀ e ∈ (s.dispatcher 0).waiter?.toList ++ s.thread, e.response ≠ r := fun hby => by
            rw [h.mode hby]
            exact hnew r rfl hby
          have hthread : (s.push co r c).thread =
              s.thread ++ [⟨s.waits.length, co, r, c⟩] := by
            have hall : s.bySession = true → s.thread.filter (·.response ≠ r) = s.thread :=
              fun hby => filter_eq_self.2 fun e he => decide_eq_true (hnew r rfl hby e he)
            simp only [Channel.push]
            split
            next hby => rw [hall hby]
            next => rfl
          have hh := h.holds.push hok.1 hsock hheld c
          rw [append_assoc, ← hthread] at hh
          exact
            { holds := hh
              others := h.others
              serving := h.serving
              fresh := fun hz => absurd hz hconnections
              mode := h.mode
              order := h.order
              ended := fun he => by
                have := h.serving hsock
                rw [show s.dispatcher 0 = .ended from he] at this
                cases this }
        next =>
          cases ht
          exact h
    next => cases ht
  next => cases ht

/-- `close_channel_socket` returns in a coroutine that could not write, and all are woken. -/
theorem callerClosed {co : κ} (h : Kept s) (hco : s.caller co = .failing) :
    Kept { s.wakeupAll s.thread none with
      caller := Function.update (s.wakeupAll s.thread none).caller co .outside } := by
  have hs := h.holds.failing co hco
  have hh : Holds (s.dispatcher 0).waiter?.toList (s.wakeupAll s.thread (none : Option ε)) :=
    h.holds.wakeupAll hs none
  have hnumber : ((s.wakeupAll s.thread (none : Option ε)).caller co).number? = none := by
    simp only [Channel.wakeupAll, hco]
    split
    · rfl
    · rfl
  have hh := hh.elsewhere co .outside hnumber rfl fun hn => nomatch hn
  rw [← append_nil (Option.toList _)] at hh
  exact
    { holds := hh
      others := h.others
      serving := h.serving
      fresh := fun hz => absurd hco ((h.fresh hz).2.2.2 co)
      mode := h.mode
      order := h.order
      ended := fun _ => .inl rfl }

theorem resumed {co : κ} (h : Kept s) (hco : s.caller co = .woken n) : Kept (s.returned co n) := by
  have hfailing : ∀ co', s.caller co' = .failing → (s.returned co n).caller co' = .failing :=
    fun co' hf => by
      have hne : co' ≠ co := fun heq => by
        rw [heq, hco] at hf
        cases hf
      exact (Function.update_of_ne hne _ _).trans hf
  refine
    { h with
      holds := h.holds.returned hco
      fresh := fun hz => ?_
      ended := fun he => (h.ended he).imp_right fun ⟨co', hf⟩ => ⟨co', hfailing co' hf⟩ }
  obtain ⟨-, hwaits, -, -⟩ := h.fresh hz
  have := (h.holds.lt co n (by rw [hco]; rfl)).1
  rw [hwaits] at this
  exact absurd this (Nat.not_lt_zero _)

theorem step (h : Kept s) {event : Event κ σ δ ε} (hone : OneConnection s event)
    (hok : WakesAll s event) (ht : s.step event = .ok t) : Kept t := by
  cases event with
  | connect co =>
    simp only [Channel.step] at ht
    split at ht
    · cases ht
      exact { h with holds := { h.holds with } }
    · cases ht
  | opened result =>
    simp only [Channel.step] at ht
    split at ht
    · cases result with
      | established =>
        simp only at ht
        split at ht
        · cases ht
          exact h.established hone _
        · cases ht
      | again => cases ht; exact h
      | failed => cases ht; exact { h with holds := { h.holds with } }
    · cases ht
  | authenticated ok again =>
    simp only [Channel.step] at ht
    split at ht
    · split at ht
      · cases ht
        exact { h with holds := { h.holds with } }
      · cases ht
        exact { h.closed with holds := { h.closed.holds with } }
    · cases ht
  | reopen => cases ht; exact { h with holds := { h.holds with } }
  | request co response written =>
    exact h.use co (some response) written (fun r hr => Option.some.inj hr ▸ hone) ht
  | send co written => exact h.use co none written (fun r hr => absurd hr (by simp)) ht
  | response co response =>
    exact h.use co (some response) true (fun r hr => Option.some.inj hr ▸ hone) ht
  | close =>
    cases ht
    split
    · exact { h with holds := { h.holds with } }
    · exact { h.closed with holds := { h.closed.holds with } }
  | changehost =>
    cases ht
    split
    · exact { h with holds := { h.holds with } }
    · exact h.closed
  | start d =>
    simp only [Channel.step] at ht
    split at ht
    next hd =>
      cases ht
      obtain rfl := h.eq_zero (d := d) (by simp [hd])
      have hh := h.holds
      rw [hd] at hh
      exact loop hh (h.one (by simp [hd])) hok
    next => cases ht
  | read d outcome =>
    simp only [Channel.step] at ht
    split at ht
    next c waiter hd =>
      cases ht
      obtain rfl := h.eq_zero (d := d) (by simp [hd])
      exact h.read hd hok
    next => cases ht
  | block d connected =>
    simp only [Channel.step] at ht
    split at ht
    next c hd =>
      cases ht
      obtain rfl := h.eq_zero (d := d) (by simp [hd])
      have hh := h.holds
      rw [hd] at hh
      have ho : One s := h.one (by simp [hd])
      split
      next hc =>
        subst hc
        exact loop hh ho hok
      next => exact fail none hh ho (fun _ => rfl) none
    next => cases ht
  | dispatcherClosed d =>
    simp only [Channel.step] at ht
    split at ht
    next waiter message hd =>
      cases ht
      obtain rfl := h.eq_zero (d := d) (by simp [hd])
      have hh := h.holds
      rw [hd] at hh
      have hs : s.sock = none := by
        by_contra hne
        have := h.serving hne
        rw [hd] at this
        cases this
      exact failAll waiter hh (h.one (by simp [hd])) hs message
    next => cases ht
  | callerClosed co =>
    simp only [Channel.step] at ht
    split at ht
    next hco =>
      cases ht
      exact h.callerClosed hco
    next => cases ht
  | resume co =>
    simp only [Channel.step] at ht
    split at ht
    next number hco =>
      cases ht
      exact h.resumed hco
    next => cases ht

end Kept

theorem Kept.paired [DecidableEq σ] (h : Kept s) : Paired s where
  own := h.holds.own
  once := h.holds.once
  all := h.holds.all
  noneLeft he hf co n hco := by
    have hthread : s.thread = [] := (h.ended he).resolve_right fun ⟨co', hco'⟩ => hf co' hco'
    have hh := h.holds.waiting co n hco
    rw [he, hthread] at hh
    obtain ⟨e, hmem, -⟩ := hh
    exact absurd hmem not_mem_nil

end Mtask.Lualib.SocketChannel
