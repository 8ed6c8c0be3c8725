import Mtask.Lualib.Socket.Waiting

/-!
# No reader is left behind

As long as nobody waits for the lock of a socket that is closed or removed, and no function begins
to wait while `close` is about to go on, every coroutine that waits is woken, and no data is lost on
it.
-/

namespace Mtask.Lualib.Socket

open Transition List
open Function (update update_idem update_of_ne update_self)

/-- A coroutine that waits has been woken, or its object is in `socket_pool` and has not been
closed; a wait is over once, and a wake-up is for one wait; and what was unread for a reader is
returned to it or left. -/
structure IsServed (w : World) : Prop where
  waiting : ∀ co wt, w.waits co = some wt → co ∈ w.wakeups ∨
    w.pool = some wt.object ∧ (w.objects wt.object).ended = false
  once : ∀ co, w.begun co = w.finished co + if (w.waits co).isSome then 1 else 0
  woken : w.wakeups.Nodup ∧ ∀ co ∈ w.wakeups, w.waits co ≠ none
  reads : ∀ r ∈ w.reads, r.unread = r.answer.bytes ++ r.skipped ++ r.left

/-- Nobody waits for the lock of a socket that is closed, or is removed from `socket_pool`; a socket
is abandoned, closed before it is connected, or replaced only if nobody waits for it; a coroutine
that was woken in `close` runs before another one begins to wait; and the buffer is cleared only if
nobody reads that has not got what is there. -/
def Orderly (w : World) : Event → Prop
  | .connect _ => ∀ co wt, w.waits co = some wt → wt.kind = .lock ∧ co ∈ w.wakeups
  | .read _ op => ∀ s, w.pool = some s → op.answer? (w.objects s) = none → ¬Pending w s
  | .close _ => ∀ s, w.pool = some s →
      if (w.objects s).connected then (w.objects s).co = none → ¬Pending w s else AllWoken w
  | .shutdown => ∀ co s op, w.waits co = some ⟨s, .read op⟩ → (w.objects s).buffer = []
  | .abandon => AllWoken w
  | .lock _ => ∀ s, w.pool = some s → (w.objects s).lock ≠ [] → (w.objects s).ended = false
  | .resume co => (∃ s, w.waits co = some ⟨s, .closing⟩) → ¬Queued w
  | .data bytes =>
    (∀ co s op, w.waits co = some ⟨s, .read op⟩ → (∀ n, (w.objects s).readRequired ≠ .size n) →
      World.overflows { w.objects s with buffer := (w.objects s).buffer ++ bytes } = false) ∧
    ((∃ co s, w.waits co = some ⟨s, .close⟩) → ¬Queued w)
  | .closed => ¬Queued w
  | .unlock | .limit _ | .connected => True

/-! ### Buffers -/

theorem driverPop_eq {buffer s rest : Bytes} {sz : ℕ} (h : driverPop buffer sz = some (s, rest)) :
    buffer = s ++ rest := by
  unfold driverPop at h
  split at h
  · cases h
  · cases h
    exact (take_append_drop sz buffer).symm

theorem driverReadline_eq {buffer sep s rest : Bytes}
    (h : driverReadline buffer sep = some (s, rest)) : buffer = s ++ sep ++ rest := by
  unfold driverReadline at h
  split at h
  · cases h
  · exact (FirstInfix.eq_some_iff.1 h).1

variable {op : ReadOp} {o : Object}

theorem ReadOp.answer?_eq {answer : Answer} {skipped left : Bytes}
    (h : op.answer? o = some (answer, skipped, left)) :
    o.buffer = answer.bytes ++ skipped ++ left := by
  cases op with
  | read sz =>
    cases sz with
    | none =>
      simp only [ReadOp.answer?] at h
      split at h
      · cases h
        simp [Answer.bytes]
      · split at h
        · cases h
          simp [Answer.bytes]
        · cases h
    | some sz =>
      simp only [ReadOp.answer?] at h
      split at h
      next heq =>
        cases h
        simpa [Answer.bytes] using driverPop_eq heq
      next =>
        split at h
        · cases h
          simp [Answer.bytes]
        · cases h
  | readall =>
    simp only [ReadOp.answer?] at h
    split at h
    · cases h
      split
      next hnil => simp [Answer.bytes, hnil]
      next => simp [Answer.bytes]
    · cases h
  | readline sep =>
    simp only [ReadOp.answer?] at h
    split at h
    next heq =>
      cases h
      exact driverReadline_eq heq
    next =>
      split at h
      · cases h
        simp [Answer.bytes]
      · cases h
  | block =>
    simp only [ReadOp.answer?] at h
    split at h
    · cases h
      simp [Answer.bytes]
    · cases h

/-- A function waits only for a socket that is connected. -/
theorem ReadOp.connected_of_answer? (h : op.answer? o = none) : o.connected = true := by
  by_contra hfalse
  rw [Bool.not_eq_true] at hfalse
  cases op with
  | read sz =>
    cases sz with
    | none =>
      simp only [ReadOp.answer?, hfalse] at h
      split at h <;> cases h
    | some sz =>
      simp only [ReadOp.answer?, hfalse] at h
      split at h <;> cases h
  | readall | block =>
    simp only [ReadOp.answer?, hfalse] at h
    cases h
  | readline sep =>
    simp only [ReadOp.answer?, hfalse] at h
    split at h <;> cases h

theorem ReadOp.finish_eq (op : ReadOp) (o : Object) :
    o.buffer = (op.finish o).1.bytes ++ (op.finish o).2.1 ++ (op.finish o).2.2 := by
  cases op with
  | read sz =>
    cases sz with
    | none =>
      simp only [ReadOp.finish]
      split <;> simp [Answer.bytes]
    | some sz =>
      simp only [ReadOp.finish]
      split
      next heq => simpa [Answer.bytes] using driverPop_eq heq
      next => simp [Answer.bytes]
  | readall =>
    simp only [ReadOp.finish]
    split <;> simp [Answer.bytes]
  | readline sep =>
    simp only [ReadOp.finish]
    split
    · split
      next heq => exact driverReadline_eq heq
      next => simp [Answer.bytes]
    · simp [Answer.bytes]
  | block => simp [ReadOp.finish, Answer.bytes]

namespace Inv

variable {w w' : World} {s co : ℕ}

theorem isServed (h : Inv w) : IsServed w where
  waiting co wt hw := by
    by_cases hm : co ∈ w.wakeups
    · exact .inl hm
    refine .inr ?_
    obtain ⟨s, kind⟩ := wt
    have hsuspended (hk : kind.suspends = true) : w.pool = some s ∧ (w.objects s).ended = false :=
      ⟨(h.suspended co s kind hw hk).1, (h.suspended co s kind hw hk).2.2.2.1⟩
    cases kind with
    | connect | read | close => exact hsuspended rfl
    | closing =>
      obtain ⟨hs, -, hne⟩ := h.closing co s hw hm
      obtain ⟨co', hco'⟩ := Option.ne_none_iff_exists'.1 hne
      obtain ⟨kind, hk, hw'⟩ := h.co s co' hs hco'
      exact ⟨hs, (h.suspended co' s kind hw' hk).2.2.2.1⟩
    | lock => exact ⟨(h.queued co s hw hm).1, (h.queued co s hw hm).2.1⟩
  once := h.count
  woken := by
    refine ⟨h.nodup, fun co hm hnone => ?_⟩
    obtain ⟨s, hw | hw⟩ := h.woken co hm <;>
    · rw [hnone] at hw
      cases hw
  reads := h.reads

theorem nobody (h : Inv w) (hs : w.pool = some s) (hfree : (w.objects s).co = none) {kind : Kind}
    (hw : w.waits co = some ⟨s, kind⟩) : kind.suspends = false := by
  by_contra hk
  obtain ⟨-, hco, -⟩ := h.suspended co s kind hw (Bool.not_eq_false _ ▸ hk)
  rw [hfree] at hco
  cases hco

theorem finishRead (h : Inv w) (hs : w.pool = some s) (hfree : (w.objects s).co = none)
    (hkept : (w.objects s).buffer = (w.objects s).unread) (op : ReadOp) :
    Inv (w.finishRead s op) := by
  have hset : Inv (w.setObject s { w.objects s with buffer := (op.finish (w.objects s)).2.2 }) :=
    h.setObject hs rfl rfl rfl rfl rfl fun co op' hw => by
      have := h.nobody hs hfree hw
      cases this
  refine ⟨hset.object, hset.pool, hset.suspended, hset.connecting, hset.pending, hset.closing,
    hset.queued, hset.co, hset.closer, hset.lock, hset.ended, hset.opening, hset.reported, hset.nodup,
    hset.woken, hset.kept, hset.count, fun r hr => ?_⟩
  rcases mem_append.1 hr with hr | hr
  · exact h.reads r hr
  · rw [mem_singleton.1 hr, ← hkept]
    exact op.finish_eq (w.objects s)

/-- The end of `close` changes objects and removes the one in the pool. -/
theorem finishClose_frame (w : World) (s : ℕ) : (w.finishClose s).pool = none ∧
    (w.finishClose s).count = w.count ∧ (w.finishClose s).waits = w.waits ∧
    (w.finishClose s).wakeups = w.wakeups ∧ (w.finishClose s).begun = w.begun ∧
    (w.finishClose s).finished = w.finished ∧ (w.finishClose s).reads = w.reads := by
  unfold World.finishClose World.shutdown
  split <;> exact ⟨rfl, rfl, rfl, rfl, rfl, rfl, rfl⟩

section

variable (h : Inv w)
include h

/-- The object is removed at the end of `close`. -/
theorem finishClose (hall : AllWoken w) (s : ℕ) : Inv (w.finishClose s) := by
  obtain ⟨hpool, hcount, hwaits, hwakeups, hbegun, hover, hreads⟩ := finishClose_frame w s
  refine h.remove hpool (fun co wt hw => ?_) hcount (fun co wt hw => ?_) ?_ (fun co hm => ?_)
    (fun co => ?_) hreads
  · rw [hwakeups]
    exact hall co wt (hwaits ▸ hw)
  · exact hwaits ▸ hw
  · exact hwakeups ▸ h.nodup
  · exact ⟨hwakeups ▸ hm, congrFun hwaits co⟩
  · rw [hbegun, hover, hwaits]
    exact h.count co

/-- A message that wakes up the coroutine in `suspend`, if there is one. -/
theorem message (hs : w.pool = some s) {d : Phase} (hco : o.co = (w.objects s).co)
    (hclosing : o.closing = (w.objects s).closing) (hlock : o.lock = (w.objects s).lock)
    (hended : o.ended = true → o.connected = false ∧ ¬Queued w)
    (hopening : d = .opening → o.connected = false) (hreported : d ≠ .closed → o.ended = false)
    (hkept : ∀ co op, w.waits co = some ⟨s, .read op⟩ → o.buffer = o.unread)
    (hqueued : ∀ co, w.waits co = some ⟨s, .close⟩ ∨
      w.waits co = some ⟨s, .connect⟩ ∧ o.connected = false → ¬Queued w) :
    Inv ((({ w with driver := d } : World).setObject s o).wakeup s) := by
  have hself : (({ w with driver := d } : World).setObject s o).objects s = o :=
    update_self ..
  unfold World.wakeup
  rw [hself]
  cases hfield : o.co with
  | none => exact h.report hs (hco.symm.trans hfield) hfield hclosing hlock hended hopening hreported
  | some co =>
    have hco' := hco.symm.trans hfield
    obtain ⟨kind, hk, hw⟩ := h.co s co hs hco'
    have hset : (({ w with driver := d } : World).setObject s o).setObject s { o with co := none } =
        ({ w with driver := d } : World).setObject s { o with co := none } := by
      unfold World.setObject
      rw [update_idem]
    change Inv (World.resume (World.setObject _ s { o with co := none }) co)
    rw [hset]
    have hrelease : Inv (released w s co { o with co := none } d) :=
      h.release hs hco' rfl hclosing hlock hended hopening hreported
    obtain ⟨hobjects, hpool, -, -, -, -⟩ := released_frame w s co { o with co := none } d
    have hself' : (released w s co { o with co := none } d).objects s = { o with co := none } := by
      rw [hobjects, update_self]
    have hwait : (({ w with driver := d } : World).setObject s { o with co := none }).waits co =
        some ⟨s, kind⟩ := hw
    unfold World.resume
    rw [hwait]
    cases kind with
    | connect =>
      change Inv (if ((released w s co { o with co := none } d).objects s).connected then
        released w s co { o with co := none } d
        else { released w s co { o with co := none } d with pool := none })
      rw [hself']
      split
      · exact hrelease
      next hfalse =>
        have hall := h.allWoken_released hs hco' hclosing
          (hqueued co (.inr ⟨hw, Bool.not_eq_true _ ▸ hfalse⟩)) (d := d)
          (o := { o with co := none })
        exact hrelease.remove rfl hall rfl (fun _ _ => id) hrelease.nodup (fun co hm => ⟨hm, rfl⟩)
          hrelease.count rfl
    | read op =>
      refine hrelease.finishRead (hpool.trans hs) ?_ ?_ op
      · rw [hself']
      · rw [hself']
        exact hkept co op hw
    | close =>
      exact hrelease.finishClose (h.allWoken_released hs hco' hclosing (hqueued co (.inl hw))) s
    | closing | lock => cases hk

theorem connect (hco : w.waits co = none)
    (hok : ∀ co wt, w.waits co = some wt → wt.kind = .lock ∧ co ∈ w.wakeups) :
    Inv (w.connect co) := by
  set w₁ : World := { w with
    objects := update w.objects w.count ⟨false, [], .none, none, none, [], none, [], false⟩
    count := w.count + 1
    pool := some w.count
    driver := .opening } with hw₁
  have hself : w₁.objects w.count = ⟨false, [], .none, none, none, [], none, [], false⟩ :=
    update_self ..
  have hpool {s : ℕ} (hs : w₁.pool = some s) : s = w.count := (Option.some.inj hs).symm
  -- those that wait have been given the lock
  have hlock {co s : ℕ} {kind : Kind} (hw : w.waits co = some ⟨s, kind⟩) : kind = .lock :=
    (hok co _ hw).1
  have hinv : Inv w₁ := by
    refine ⟨fun co wt hw => Nat.lt_succ_of_lt (h.object co wt hw), fun s hs => ?_,
      fun co s kind hw hk => ?_, fun co s hw => rfl, fun co s hw => ?_, fun co s hw => ?_,
      fun co s hw hm => absurd (hok co _ hw).2 hm, fun s co hs hc => ?_, fun s co hs hc => ?_,
      fun s hs => ?_, fun s hs he => ?_, fun s hs _ => ?_, fun s hs _ => ?_, h.nodup, h.woken,
      fun co s op hw => ?_, h.count, h.reads⟩
    · rw [hpool hs]
      exact Nat.lt_succ_self _
    · rw [hlock hw] at hk
      cases hk
    · cases hlock hw
    · cases hlock hw
    · rw [hpool hs, hself] at hc
      cases hc
    · rw [hpool hs, hself] at hc
      cases hc
    · rw [hpool hs, hself]
      exact ⟨nodup_nil, nofun⟩
    · rw [hpool hs, hself] at he
      cases he
    · rw [hpool hs, hself]
    · rw [hpool hs, hself]
    · cases hlock hw
  refine hinv.suspend (s := w.count) rfl hco rfl ?_ ?_ (fun _ => rfl) ?_
  · rw [hself]
    rfl
  · rw [hself]
  · rintro ⟨co', -, hw⟩
    cases hlock hw

theorem read (hco : w.waits co = none)
    (hok : ∀ s, w.pool = some s → op.answer? (w.objects s) = none → ¬Pending w s) :
    Inv (w.read co op) := by
  unfold World.read
  split
  · exact h
  next s hs =>
    split
    next answer skipped left hanswer =>
      refine h.setObject hs rfl rfl rfl rfl rfl fun co' op' hw => ?_
      have hkept := h.kept co' s op' hw
      change left = (w.objects s).unread.drop _
      rw [← hkept, ReadOp.answer?_eq hanswer, drop_left]
    next hanswer =>
      split
      · exact h
      next =>
        have hconnected := ReadOp.connected_of_answer? hanswer
        have hended : (w.objects s).ended = false := by
          by_contra he
          have := h.ended s hs (Bool.not_eq_false _ ▸ he)
          rw [hconnected] at this
          cases this
        have hset : Inv (w.setObject s { w.objects s with readRequired := op.required }) :=
          h.setObject hs rfl rfl rfl rfl rfl fun co' op' hw => h.kept co' s op' hw
        have hself : (w.setObject s { w.objects s with readRequired := op.required }).objects s =
          { w.objects s with readRequired := op.required } := update_self ..
        refine hset.suspend hs hco rfl ?_ ?_ nofun (hok s hs hanswer)
        · rw [hself]
          exact hconnected
        · rw [hself]
          exact hended

theorem close (hco : w.waits co = none) (hok : ∀ s, w.pool = some s →
      if (w.objects s).connected then (w.objects s).co = none → ¬Pending w s else AllWoken w) :
    Inv (w.close co) := by
  unfold World.close
  split
  · exact h
  next s hs =>
    have hok := hok s hs
    split
    next hconnected =>
      rw [if_pos hconnected] at hok
      have hended : (w.objects s).ended = false := by
        by_contra he
        have := h.ended s hs (Bool.not_eq_false _ ▸ he)
        rw [hconnected] at this
        cases this
      split
      · exact h
      next co' hco' hclosing =>
        refine h.startWait hs hco (by rintro ⟨⟩) (fun _ => rfl) (by rintro ⟨⟩) rfl rfl
          (fun co op hw => h.kept co s op hw) (fun _ => ⟨rfl, fun hnone => ?_⟩) nofun (fun c hc => ?_) (fun c hc => .inr ⟨?_, rfl⟩)
          (h.lock s hs).1 (fun c hc => hc) fun c hc => .inl hc
        · rw [hco'] at hnone
          cases hnone
        · rw [hclosing] at hc
          cases hc
        · exact (Option.some.inj hc).symm
      next _ hfree => exact h.suspend hs hco rfl hconnected hended nofun (hok hfree)
    next hconnected =>
      rw [if_neg hconnected] at hok
      exact h.finishClose hok s

theorem shutdown (hok : ∀ co s op, w.waits co = some ⟨s, .read op⟩ → (w.objects s).buffer = []) :
    Inv w.shutdown := by
  unfold World.shutdown
  split
  next s hs =>
    refine h.setObject hs rfl rfl rfl rfl rfl fun co op hw => ?_
    rw [← h.kept co s op hw, hok co s op hw]
  · exact h

theorem abandon (hok : AllWoken w) : Inv w.abandon := by
  unfold World.abandon World.shutdown
  split <;> exact h.remove rfl hok rfl (fun _ _ => id) h.nodup (fun co hm => ⟨hm, rfl⟩) h.count rfl

theorem takeLock (hco : w.waits co = none)
    (hok : ∀ s, w.pool = some s → (w.objects s).lock ≠ [] → (w.objects s).ended = false) :
    Inv (w.lock co) := by
  unfold World.lock
  split
  · exact h
  next s hs =>
    have hqueue := h.lock s hs
    split
    next hnil =>
      refine h.setObject hs rfl rfl ?_ rfl rfl fun co op hw => h.kept co s op hw
      rw [hnil]
      rfl
    next first rest hlock =>
      have hok := hok s hs (by rw [hlock]; exact cons_ne_nil _ _)
      rw [hlock] at hqueue
      have hnot : some co ∉ rest := by
        intro hm
        have := (hqueue.2 co hm).1
        rw [hco] at this
        cases this
      refine h.startWait hs hco (by rintro ⟨⟩) (fun _ => rfl) (by rintro ⟨⟩) rfl rfl
        (fun co op hw => h.kept co s op hw) nofun (fun _ => ⟨hok, mem_append_right _ (mem_singleton_self _)⟩) (fun c hc => hc)
        (fun c hc => .inl hc) ?_ (fun c hc => ?_) fun c hc => ?_
      · refine nodup_append.2 ⟨hqueue.1, nodup_singleton _, fun a ha b hb => ?_⟩
        rw [mem_singleton.1 hb]
        rintro rfl
        exact hnot ha
      · rw [hlock] at hc
        exact mem_append_left _ hc
      · rw [hlock]
        rcases mem_append.1 hc with hc | hc
        · exact .inl hc
        · exact .inr ⟨Option.some.inj (mem_singleton.1 hc), rfl⟩

theorem limit (n : Option ℕ) : Inv (w.limit n) := by
  unfold World.limit
  split
  · exact h
  next s hs => exact h.setObject hs rfl rfl rfl rfl rfl fun co op hw => h.kept co s op hw

theorem data (hdriver : w.driver = .connected) {bytes : Bytes}
    (hfits : ∀ co s op, w.waits co = some ⟨s, .read op⟩ →
      (∀ n, (w.objects s).readRequired ≠ .size n) →
      World.overflows { w.objects s with buffer := (w.objects s).buffer ++ bytes } = false)
    (hqueued : (∃ co s, w.waits co = some ⟨s, .close⟩) → ¬Queued w) : Inv (w.data bytes) := by
  unfold World.data
  split
  · exact h
  next s hs =>
    have hconnecting {co : ℕ} (hw : w.waits co = some ⟨s, .connect⟩) : False := by
      have := h.connecting co s hw
      rw [hdriver] at this
      cases this
    have hended : (w.objects s).ended = false := h.reported s hs (by rw [hdriver]; exact nofun)
    have hkept (co : ℕ) (op : ReadOp) (hw : w.waits co = some ⟨s, .read op⟩) :
        (w.objects s).buffer ++ bytes = (w.objects s).unread ++ bytes := by
      rw [h.kept co s op hw]
    have hset : Inv (w.setObject s { w.objects s with
        buffer := (w.objects s).buffer ++ bytes, unread := (w.objects s).unread ++ bytes }) :=
      h.setObject hs rfl rfl rfl rfl rfl hkept
    have hwoken : Inv ((w.setObject s { w.objects s with
        buffer := (w.objects s).buffer ++ bytes, unread := (w.objects s).unread ++ bytes,
        readRequired := .none }).wakeup s) := by
      refine h.message hs (d := w.driver) rfl rfl rfl (fun he => ?_) (fun hopening => ?_)
        (fun _ => hended) hkept fun co hw => ?_
      · change (w.objects s).ended = true at he
        rw [hended] at he
        cases he
      · rw [hdriver] at hopening
        cases hopening
      · rcases hw with hw | ⟨hw, -⟩
        · exact hqueued ⟨co, s, hw⟩
        · exact (hconnecting hw).elim
    -- the buffer is cleared only if nobody reads
    have hclear (hover : World.overflows { w.objects s with
          buffer := (w.objects s).buffer ++ bytes } = true)
        (hsize : ∀ n, (w.objects s).readRequired ≠ .size n) :
        Inv ((w.setObject s { w.objects s with
          buffer := (w.objects s).buffer ++ bytes, unread := (w.objects s).unread ++ bytes }).clear
            s) := by
      have hself : (w.setObject s { w.objects s with
          buffer := (w.objects s).buffer ++ bytes,
          unread := (w.objects s).unread ++ bytes }).objects s =
          { w.objects s with
            buffer := (w.objects s).buffer ++ bytes, unread := (w.objects s).unread ++ bytes } :=
        update_self ..
      unfold World.clear
      refine hset.setObject hs rfl rfl rfl rfl rfl fun co op hw => ?_
      rw [hfits co s op hw hsize] at hover
      cases hover
    dsimp only
    split
    next n _ =>
      split
      · exact hwoken
      · exact hset
    next sep hrequired =>
      split
      next hover => exact hclear hover (by rw [hrequired]; exact nofun)
      next =>
        split
        · exact hwoken
        · exact hset
    all_goals
      split
      next hrequired hover => exact hclear hover (by rw [hrequired]; exact nofun)
      next => exact hset

/-- Without an object in the pool a message does nothing. -/
theorem noPool (hs : w.pool = none) (d : Phase) : Inv { w with driver := d } := by
  have hnone {s : ℕ} (hs' : w.pool = some s) : False := by
    rw [hs] at hs'
    cases hs'
  exact ⟨h.object, h.pool, h.suspended,
    fun co s hw => (hnone (h.suspended co s _ hw rfl).1).elim, h.pending, h.closing, h.queued, h.co,
    h.closer, h.lock, h.ended, fun s hs' => (hnone hs').elim, fun s hs' => (hnone hs').elim,
    h.nodup, h.woken, h.kept, h.count, h.reads⟩

theorem connected (hdriver : w.driver = .opening) :
    Inv ({ w with driver := .connected } : World).connected := by
  unfold World.connected
  split
  next hs => exact h.noPool hs _
  next s hs =>
    change w.pool = some s at hs
    have hended : (w.objects s).ended = false := h.reported s hs (by rw [hdriver]; exact nofun)
    refine h.message hs (d := .connected) (o := { w.objects s with connected := true }) rfl rfl rfl
      (fun he => ?_) nofun (fun _ => hended) (fun co op hw => h.kept co s op hw) fun co hw => ?_
    · change (w.objects s).ended = true at he
      rw [hended] at he
      cases he
    · rcases hw with hw | ⟨-, hw⟩
      · have hconnected := (h.suspended co s _ hw rfl).2.2.1
        rw [h.opening s hs hdriver] at hconnected
        cases hconnected
      · cases hw

theorem closed (hok : ¬Queued w) : Inv ({ w with driver := .closed } : World).closed := by
  unfold World.closed
  split
  next hs => exact h.noPool hs _
  next s hs =>
    exact h.message hs (d := .closed)
      (o := { w.objects s with connected := false, ended := true }) rfl rfl rfl (fun _ => ⟨rfl, hok⟩)
      nofun (fun hne => absurd rfl hne) (fun co op hw => h.kept co s op hw) fun co _ => hok

theorem unlock : Inv w.unlock := by
  unfold World.unlock
  split
  · exact h
  next s hs =>
    dsimp only
    have hkept (co : ℕ) (op : ReadOp) (hw : w.waits co = some ⟨s, .read op⟩) :=
      h.kept co s op hw
    cases hlock : (w.objects s).lock.tail with
    | nil => exact h.setObject hs rfl rfl (by rw [hlock]; rfl) rfl rfl hkept
    | cons next rest =>
      have hfirst : (w.objects s).lock.tail = [next] ++ rest := hlock
      have hpass := h.wakeQueued hs (o := { w.objects s with lock := next :: rest }) rfl rfl rfl rfl
        hkept hfirst
      cases next with
      | none =>
        rw [reduceOption_singleton, Option.toList_none, append_nil] at hpass
        exact hpass
      | some co =>
        obtain ⟨hw, hm⟩ := (h.lock s hs).2 co (by rw [hlock]; exact mem_cons_self)
        change Inv (World.wake _ co)
        unfold World.wake
        rw [if_pos]
        · exact hpass
        · change (w.waits co).isSome ∧ co ∉ w.wakeups
          rw [hw]
          exact ⟨rfl, hm⟩

theorem resume (hm : co ∈ w.wakeups) (hok : (∃ s, w.waits co = some ⟨s, .closing⟩) → ¬Queued w) :
    Inv (w.resume co) := by
  obtain ⟨s, hw | hw⟩ := h.woken co hm
  · have hqueued := hok ⟨s, hw⟩
    unfold World.resume
    rw [hw]
    change Inv ((w.endWait co).finishClose s)
    obtain ⟨hpool, hcount, hwaits, hwakeups, hbegun, hover, hreads⟩ :=
      finishClose_frame (w.endWait co) s
    have hother {c : ℕ} {wt : Wait} (hc : (w.endWait co).waits c = some wt) :
        c ≠ co ∧ w.waits c = some wt := by
      by_cases hne : c = co
      · subst hne
        cases (update_self ..).symm.trans hc
      · exact ⟨hne, (update_of_ne hne _ _).symm.trans hc⟩
    -- nobody was in `suspend`, and nobody else waits for one that was
    have hfree {s' : ℕ} (hs' : w.pool = some s') : (w.objects s').co = none := by
      rcases h.pending co s hw hm with hnone | ⟨hs, hfree⟩
      · rw [hs'] at hnone
        cases hnone
      · cases hs.symm.trans hs'
        exact hfree
    have hwoken {c : ℕ} {wt : Wait} (hc : w.waits c = some wt) : c ∈ w.wakeups := by
      by_contra hm'
      obtain ⟨s', kind⟩ := wt
      have hsuspended (hk : kind.suspends = true) : False := by
        obtain ⟨hs', hco, -⟩ := h.suspended c s' kind hc hk
        rw [hfree hs'] at hco
        cases hco
      cases kind with
      | connect | read | close => exact hsuspended rfl
      | closing =>
        obtain ⟨hs', -, hne⟩ := h.closing c s' hc hm'
        exact hne (hfree hs')
      | lock => exact hqueued ⟨c, s', hc, hm'⟩
    refine h.remove hpool (fun c wt hc => ?_) hcount (fun c wt hc => ?_) ?_ (fun c hc => ?_)
      (fun c => ?_) hreads
    · rw [hwaits] at hc
      rw [hwakeups]
      exact (mem_erase_of_ne (hother hc).1).2 (hwoken (hother hc).2)
    · rw [hwaits] at hc
      exact (hother hc).2
    · rw [hwakeups]
      exact h.nodup.erase co
    · rw [hwakeups] at hc
      have hne : c ≠ co := by
        rintro rfl
        exact h.nodup.not_mem_erase hc
      rw [hwaits]
      exact ⟨(mem_erase_of_ne hne).1 hc, update_of_ne hne _ _⟩
    · rw [hbegun, hover, hwaits]
      exact h.endWait_count hw c
  · unfold World.resume
    rw [hw]
    exact h.endWait_lock hm hw

theorem step {e : Event} (hok : Orderly w e) (hstep : w.step e = .ok w') : Inv w' := by
  have hnone {co : ℕ} (hco : (w.waits co).isNone = true) : w.waits co = none :=
    Option.isNone_iff_eq_none.1 hco
  cases e <;> rw [World.step] at hstep
  case connect co =>
    split at hstep
    next hco =>
      cases hstep
      exact h.connect (hnone hco) hok
    next => cases hstep
  case read co op =>
    split at hstep
    next hco =>
      cases hstep
      exact h.read (hnone hco) hok
    next => cases hstep
  case close co =>
    split at hstep
    next hco =>
      cases hstep
      exact h.close (hnone hco) hok
    next => cases hstep
  case shutdown =>
    cases hstep
    exact h.shutdown hok
  case abandon =>
    cases hstep
    exact h.abandon hok
  case lock co =>
    split at hstep
    next hco =>
      cases hstep
      exact h.takeLock (hnone hco) hok
    next => cases hstep
  case unlock =>
    cases hstep
    exact h.unlock
  case limit n =>
    cases hstep
    exact h.limit n
  case resume co =>
    split at hstep
    next hm =>
      cases hstep
      exact h.resume hm hok
    next => cases hstep
  case data bytes =>
    split at hstep
    next hdriver =>
      cases hstep
      exact h.data hdriver.2 hok.1 hok.2
    next => cases hstep
  case connected =>
    split at hstep
    next hdriver =>
      cases hstep
      exact h.connected hdriver.2
    next => cases hstep
  case closed =>
    split at hstep
    next =>
      cases hstep
      exact h.closed hok
    next => cases hstep

end

end Inv

/-- **No reader is left behind** in any run of orderly steps. -/
theorem served {w : World} (h : Reaches World.step Orderly .init w) : IsServed w :=
  (h.invariant Inv.init fun _ _ _ hinv hok hstep => hinv.step hok hstep).isServed

/-- A reader waits for a line that comes in two pieces while another coroutine closes. -/
theorem served_reader : ∃ w, exec World.step .init
    [.connect 0, .connected, .read 0 (.readline [10]), .data [104], .close 1, .data [105, 10],
      .resume 1] = .ok w ∧ w.reads.map (fun r => r.answer.bytes) = [[104, 105]] ∧
    w.pool = none ∧ IsServed w := by
  have hrun : exec World.step .init
      [.connect 0, .connected, .read 0 (.readline [10]), .data [104], .close 1, .data [105, 10],
        .resume 1] = .ok _ := rfl
  have hpermitted : Permitted World.step Orderly .init
      [.connect 0, .connected, .read 0 (.readline [10]), .data [104], .close 1, .data [105, 10],
        .resume 1] := by
    refine .cons nofun rfl (.cons trivial rfl (.cons (fun s _ _ hpending => ?_) rfl
      (.cons ⟨fun co s op _ _ => ?_, fun _ hqueued => ?_⟩ rfl (.cons (fun s hs => ?_) rfl
        (.cons ⟨fun co s op _ _ => ?_, fun _ hqueued => ?_⟩ rfl
          (.cons (fun _ hqueued => ?_) rfl trivial))))))
    · obtain ⟨co, hm, -⟩ := hpending
      cases hm
    · cases s <;> rfl
    · obtain ⟨_ | co, s, hw, -⟩ := hqueued <;> cases hw
    · cases hs
      exact nofun
    · cases s <;> rfl
    · obtain ⟨_ | _ | co, s, hw, -⟩ := hqueued <;> cases hw
    · obtain ⟨_ | _ | co, s, hw, -⟩ := hqueued <;> cases hw
  exact ⟨_, hrun, rfl, rfl, served (hpermitted.reaches hrun)⟩

/-- A reader that was woken while another coroutine waits in `close` waits again. -/
theorem reader_left : ¬∀ w, Reaches World.step (fun _ _ => True) .init w → IsServed w := by
  intro h
  have hrun : exec World.step .init
      [.connect 0, .connected, .read 0 (.read none), .close 1, .data [104], .read 0 (.read none),
        .resume 1] = .ok _ := rfl
  have hserved := h _ (reaches_of_exec hrun fun _ _ _ => trivial)
  rcases hserved.waiting 0 ⟨0, .read (.read none)⟩ rfl with hm | ⟨hpool, -⟩
  · cases hm
  · cases hpool

end Mtask.Lualib.Socket
