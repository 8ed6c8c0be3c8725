import Mathlib.Data.List.Nodup
import Mathlib.Data.List.ReduceOption
import Mtask.Lualib.Socket.Api

/-!
# Those that wait for a socket

A coroutine that waits and has not been woken waits for the object in `socket_pool`, which knows it:
it is the reader or the one that connects or closes, or it waits for that one in `close`, or it is
in the queue of the lock.
-/

namespace Mtask.Lualib.Socket

open Function (update update_of_ne update_self)
open List
open Option (some_ne_none)

/-- A coroutine in `close` that was woken has not run yet. -/
def Pending (w : World) (s : ℕ) : Prop := ∃ co ∈ w.wakeups, w.waits co = some ⟨s, .closing⟩

/-- A coroutine waits for a lock. -/
def Queued (w : World) : Prop := ∃ co s, w.waits co = some ⟨s, .lock⟩ ∧ co ∉ w.wakeups

/-- All coroutines that wait have been woken. -/
def AllWoken (w : World) : Prop := ∀ co wt, w.waits co = some wt → co ∈ w.wakeups

/-- The value of `connected` while a coroutine is in `suspend`. -/
def Kind.connected : Kind → Bool
  | .connect => false
  | .read _ | .close | .closing | .lock => true

/-- The invariant -/
structure Inv (w : World) : Prop where
  object : ∀ co wt, w.waits co = some wt → wt.object < w.count
  pool : ∀ s, w.pool = some s → s < w.count
  suspended : ∀ co s kind, w.waits co = some ⟨s, kind⟩ → kind.suspends = true →
    w.pool = some s ∧ (w.objects s).co = some co ∧ (w.objects s).connected = kind.connected ∧
      (w.objects s).ended = false ∧ co ∉ w.wakeups
  connecting : ∀ co s, w.waits co = some ⟨s, .connect⟩ → w.driver = .opening
  pending : ∀ co s, w.waits co = some ⟨s, .closing⟩ → co ∈ w.wakeups →
    w.pool = none ∨ w.pool = some s ∧ (w.objects s).co = none
  closing : ∀ co s, w.waits co = some ⟨s, .closing⟩ → co ∉ w.wakeups →
    w.pool = some s ∧ (w.objects s).closing = some co ∧ (w.objects s).co ≠ none
  queued : ∀ co s, w.waits co = some ⟨s, .lock⟩ → co ∉ w.wakeups →
    w.pool = some s ∧ (w.objects s).ended = false ∧ some co ∈ (w.objects s).lock.tail
  co : ∀ s co, w.pool = some s → (w.objects s).co = some co →
    ∃ kind, kind.suspends = true ∧ w.waits co = some ⟨s, kind⟩
  closer : ∀ s co, w.pool = some s → (w.objects s).closing = some co →
    w.waits co = some ⟨s, .closing⟩
  lock : ∀ s, w.pool = some s → (w.objects s).lock.tail.Nodup ∧
    ∀ co, some co ∈ (w.objects s).lock.tail → w.waits co = some ⟨s, .lock⟩ ∧ co ∉ w.wakeups
  ended : ∀ s, w.pool = some s → (w.objects s).ended = true → (w.objects s).connected = false
  opening : ∀ s, w.pool = some s → w.driver = .opening → (w.objects s).connected = false
  reported : ∀ s, w.pool = some s → w.driver ≠ .closed → (w.objects s).ended = false
  nodup : w.wakeups.Nodup
  woken : ∀ co ∈ w.wakeups, ∃ s, w.waits co = some ⟨s, .closing⟩ ∨ w.waits co = some ⟨s, .lock⟩
  kept : ∀ co s op, w.waits co = some ⟨s, .read op⟩ → (w.objects s).buffer = (w.objects s).unread
  count : ∀ co, w.begun co = w.finished co + if (w.waits co).isSome then 1 else 0
  reads : ∀ r ∈ w.reads, r.unread = r.answer.bytes ++ r.skipped ++ r.left

namespace Inv

variable {w : World} {s co : ℕ}

theorem init : Inv .init where
  object := nofun
  pool := nofun
  suspended := nofun
  connecting := nofun
  pending := nofun
  closing := nofun
  queued := nofun
  co := nofun
  closer := nofun
  lock := nofun
  ended := nofun
  opening := nofun
  reported := nofun
  nodup := nodup_nil
  woken := nofun
  kept := nofun
  count _ := rfl
  reads := nofun

/-- Other data in the object, with the same coroutines; the first ones in the queue of the lock are
woken. -/
theorem wakeQueued (h : Inv w) (hs : w.pool = some s) {o : Object} {first : List (Option ℕ)}
    (hco : o.co = (w.objects s).co) (hclosing : o.closing = (w.objects s).closing)
    (hconnected : o.connected = (w.objects s).connected) (hended : o.ended = (w.objects s).ended)
    (hkept : ∀ co op, w.waits co = some ⟨s, .read op⟩ → o.buffer = o.unread)
    (hlock : (w.objects s).lock.tail = first ++ o.lock.tail) :
    Inv { w.setObject s o with wakeups := w.wakeups ++ first.reduceOption } := by
  set w' : World := { w.setObject s o with wakeups := w.wakeups ++ first.reduceOption }
  have hself : w'.objects s = o := update_self ..
  have hpool {s' : ℕ} (hs' : w.pool = some s') : s' = s := Option.some.inj (hs'.symm.trans hs)
  obtain ⟨hnodup, hqueue⟩ := h.lock s hs
  rw [hlock] at hnodup hqueue
  have hnext {c : ℕ} (hc : c ∈ first.reduceOption) : w.waits c = some ⟨s, .lock⟩ ∧ c ∉ w.wakeups :=
    hqueue c (mem_append_left _ (reduceOption_mem_iff.1 hc))
  refine ⟨h.object, h.pool, fun co s' kind hw hk => ?_, h.connecting, fun co s' hw hm => ?_,
    fun co s' hw hm => ?_, fun co s' hw hm => ?_, fun s' co hs' hc => ?_, fun s' co hs' hc => ?_,
    fun s' hs' => ?_, fun s' hs' => ?_, fun s' hs' => ?_, fun s' hs' => ?_, ?_, fun co hm => ?_,
    fun co s' op hw => ?_, h.count, h.reads⟩
  · obtain ⟨hs', hc, hc', he, hm⟩ := h.suspended co s' kind hw hk
    cases hpool hs'
    rw [hself, hco, hconnected, hended]
    refine ⟨hs', hc, hc', he, fun hm' => ?_⟩
    rcases mem_append.1 hm' with hm' | hm'
    · exact hm hm'
    · change w.waits co = _ at hw
      rw [(hnext hm').1] at hw
      cases hw
      cases hk
  · rcases mem_append.1 hm with hm | hm
    · rcases h.pending co s' hw hm with hnone | ⟨hs', hfree⟩
      · exact .inl hnone
      · cases hpool hs'
        rw [hself, hco]
        exact .inr ⟨hs', hfree⟩
    · have hw' := (hnext hm).1
      change w.waits co = _ at hw
      rw [hw'] at hw
      cases hw
  · obtain ⟨hs', hfield, hne⟩ := h.closing co s' hw fun hm' => hm (mem_append_left _ hm')
    cases hpool hs'
    rw [hself, hco, hclosing]
    exact ⟨hs', hfield, hne⟩
  · obtain ⟨hs', he, hmem⟩ := h.queued co s' hw fun hm' => hm (mem_append_left _ hm')
    cases hpool hs'
    rw [hself, hended]
    rw [hlock] at hmem
    refine ⟨hs', he, (mem_append.1 hmem).resolve_left fun hfirst => ?_⟩
    exact hm (mem_append_right _ (reduceOption_mem_iff.2 hfirst))
  · cases hpool hs'
    rw [hself, hco] at hc
    exact h.co s co hs hc
  · cases hpool hs'
    rw [hself, hclosing] at hc
    exact h.closer s co hs hc
  · cases hpool hs'
    rw [hself]
    refine ⟨hnodup.of_append_right, fun c hc => ?_⟩
    obtain ⟨hw, hm⟩ := hqueue c (mem_append_right _ hc)
    refine ⟨hw, fun hm' => (mem_append.1 hm').elim hm fun hfirst => ?_⟩
    exact (nodup_append.1 hnodup).2.2 _ (reduceOption_mem_iff.1 hfirst) _ hc rfl
  · cases hpool hs'
    rw [hself, hended, hconnected]
    exact h.ended s hs
  · cases hpool hs'
    rw [hself, hconnected]
    exact h.opening s hs
  · cases hpool hs'
    rw [hself, hended]
    exact h.reported s hs
  · refine nodup_append.2 ⟨h.nodup, ?_, fun a ha b hb => ?_⟩
    · exact hnodup.of_append_left.filterMap fun a a' b ha ha' => ha.trans ha'.symm
    · rintro rfl
      exact (hnext hb).2 ha
  · rcases mem_append.1 hm with hm | hm
    · exact h.woken co hm
    · exact ⟨s, .inr (hnext hm).1⟩
  · obtain ⟨hs', -⟩ := h.suspended co s' _ hw rfl
    cases hpool hs'
    rw [hself]
    exact hkept co op hw

theorem setObject (h : Inv w) (hs : w.pool = some s) {o : Object}
    (hco : o.co = (w.objects s).co) (hclosing : o.closing = (w.objects s).closing)
    (hlock : o.lock.tail = (w.objects s).lock.tail)
    (hconnected : o.connected = (w.objects s).connected) (hended : o.ended = (w.objects s).ended)
    (hkept : ∀ co op, w.waits co = some ⟨s, .read op⟩ → o.buffer = o.unread) :
    Inv (w.setObject s o) := by
  have hfirst : (w.objects s).lock.tail = [] ++ o.lock.tail := hlock.symm
  have hset := h.wakeQueued hs hco hclosing hconnected hended hkept hfirst
  rw [reduceOption_nil, append_nil] at hset
  exact hset

/-- Without an object in the pool only coroutines that were woken wait. -/
theorem remove {w' : World} (h : Inv w) (hpool : w'.pool = none) (hall : AllWoken w')
    (hcount : w'.count = w.count)
    (hwaits : ∀ co wt, w'.waits co = some wt → w.waits co = some wt) (hnodup : w'.wakeups.Nodup)
    (hwakeups : ∀ co ∈ w'.wakeups, co ∈ w.wakeups ∧ w'.waits co = w.waits co)
    (hover : ∀ co, w'.begun co = w'.finished co + if (w'.waits co).isSome then 1 else 0)
    (hreads : w'.reads = w.reads) : Inv w' := by
  have hnone {s : ℕ} (hs : w'.pool = some s) : False := by
    rw [hpool] at hs
    cases hs
  have hsuspended {co s : ℕ} {kind : Kind} (hw : w'.waits co = some ⟨s, kind⟩)
      (hk : kind.suspends = true) : False :=
    (h.suspended co s kind (hwaits co _ hw) hk).2.2.2.2 (hwakeups co (hall co _ hw)).1
  refine ⟨fun co wt hw => ?_, fun s hs => (hnone hs).elim, fun co s kind hw hk =>
    (hsuspended hw hk).elim, fun co s hw => (hsuspended hw rfl).elim, fun co s hw hm => .inl hpool,
    fun co s hw hm => absurd (hall co _ hw) hm, fun co s hw hm => absurd (hall co _ hw) hm,
    fun s co hs => (hnone hs).elim, fun s co hs => (hnone hs).elim, fun s hs => (hnone hs).elim,
    fun s hs => (hnone hs).elim, fun s hs => (hnone hs).elim, fun s hs => (hnone hs).elim, hnodup,
    fun co hm => ?_, fun co s op hw => (hsuspended hw rfl).elim, hover, ?_⟩
  · rw [hcount]
    exact h.object co wt (hwaits co wt hw)
  · rw [(hwakeups co hm).2]
    exact h.woken co (hwakeups co hm).1
  · rw [hreads]
    exact h.reads

theorem startWait (h : Inv w) (hs : w.pool = some s) (hco : w.waits co = none) {kind : Kind}
    {o : Object} (hsuspends : kind.suspends = true → (w.objects s).co = none ∧ o.co = some co ∧
      o.connected = kind.connected ∧ o.ended = false ∧ o.buffer = o.unread ∧ ¬Pending w s)
    (hsame : kind.suspends = false → o.co = (w.objects s).co)
    (hopening : kind = .connect → w.driver = .opening)
    (hconnected : o.connected = (w.objects s).connected) (hended : o.ended = (w.objects s).ended)
    (hkept : ∀ co op, w.waits co = some ⟨s, .read op⟩ → o.buffer = o.unread)
    (hclosing : kind = .closing → o.closing = some co ∧ o.co ≠ none)
    (hqueued : kind = .lock → o.ended = false ∧ some co ∈ o.lock.tail)
    (hclosers : ∀ c, (w.objects s).closing = some c → o.closing = some c)
    (hcloser : ∀ c, o.closing = some c → (w.objects s).closing = some c ∨ c = co ∧ kind = .closing)
    (hnodup : o.lock.tail.Nodup)
    (hqueue : ∀ c ∈ (w.objects s).lock.tail, c ∈ o.lock.tail)
    (hlock : ∀ c, some c ∈ o.lock.tail →
      some c ∈ (w.objects s).lock.tail ∨ c = co ∧ kind = .lock) :
    Inv ((w.setObject s o).wait co ⟨s, kind⟩) := by
  set w' := (w.setObject s o).wait co ⟨s, kind⟩
  have hself : w'.objects s = o := update_self ..
  have hpool {s' : ℕ} (hs' : w.pool = some s') : s' = s := Option.some.inj (hs'.symm.trans hs)
  have hwait : w'.waits co = some ⟨s, kind⟩ := update_self ..
  have hother {co' : ℕ} (hne : co' ≠ co) : w'.waits co' = w.waits co' :=
    update_of_ne hne _ _
  have hold {co' : ℕ} {wt : Wait} (hw : w.waits co' = some wt) : w'.waits co' = some wt := by
    rw [hother, hw]
    rintro rfl
    rw [hco] at hw
    cases hw
  have hnew {co' s' : ℕ} {kind' : Kind} (hw : w'.waits co' = some ⟨s', kind'⟩) :
      co' = co ∧ s' = s ∧ kind' = kind ∨ w.waits co' = some ⟨s', kind'⟩ := by
    by_cases hne : co' = co
    · subst hne
      rw [hwait] at hw
      cases hw
      exact .inl ⟨rfl, rfl, rfl⟩
    · rw [hother hne] at hw
      exact .inr hw
  have hnotin : co ∉ w.wakeups := by
    intro hm
    obtain ⟨s', hw | hw⟩ := h.woken co hm <;>
    · rw [hco] at hw
      cases hw
  -- only one is in `suspend`
  have hstays {c : ℕ} (hc : (w.objects s).co = some c) : o.co = some c := by
    cases hk : kind.suspends with
    | false => rw [hsame hk, hc]
    | true =>
      rw [(hsuspends hk).1] at hc
      cases hc
  refine ⟨fun co' wt hw => ?_, h.pool, fun co' s' kind' hw hk' => ?_, fun co' s' hw => ?_,
    fun co' s' hw hm => ?_, fun co' s' hw hm => ?_, fun co' s' hw hm => ?_, fun s' co' hs' hc => ?_,
    fun s' co' hs' hc => ?_, fun s' hs' => ?_, fun s' hs' => ?_, fun s' hs' => ?_,
    fun s' hs' => ?_, h.nodup, fun co' hm => ?_, fun co' s' op hw => ?_, fun co' => ?_, h.reads⟩
  · obtain ⟨s', kind'⟩ := wt
    rcases hnew hw with ⟨-, rfl, -⟩ | hw
    · exact h.pool s' hs
    · exact h.object co' _ hw
  · rcases hnew hw with ⟨rfl, rfl, rfl⟩ | hw
    · obtain ⟨-, hself', hconnected', hended', -⟩ := hsuspends hk'
      rw [hself]
      exact ⟨hs, hself', hconnected', hended', hnotin⟩
    · obtain ⟨hs', hco', hrest⟩ := h.suspended co' s' kind' hw hk'
      cases hpool hs'
      rw [hself, hconnected, hended]
      exact ⟨hs', hstays hco', hrest⟩
  · rcases hnew hw with ⟨-, -, heq⟩ | hw
    · exact hopening heq.symm
    · exact h.connecting co' s' hw
  · rcases hnew hw with ⟨rfl, -⟩ | hw
    · exact absurd hm hnotin
    · rcases h.pending co' s' hw hm with hnone | ⟨hs', hfree⟩
      · exact .inl hnone
      · cases hpool hs'
        cases hk : kind.suspends with
        | false =>
          rw [hself, hsame hk]
          exact .inr ⟨hs', hfree⟩
        | true => exact absurd ⟨co', hm, hw⟩ (hsuspends hk).2.2.2.2.2
  · rcases hnew hw with ⟨rfl, rfl, heq⟩ | hw
    · rw [hself]
      exact ⟨hs, hclosing heq.symm⟩
    · obtain ⟨hs', hfield, hne⟩ := h.closing co' s' hw hm
      cases hpool hs'
      obtain ⟨c, hc⟩ := Option.ne_none_iff_exists'.1 hne
      rw [hself, hstays hc]
      exact ⟨hs', hclosers co' hfield, some_ne_none c⟩
  · rcases hnew hw with ⟨rfl, rfl, heq⟩ | hw
    · rw [hself]
      exact ⟨hs, hqueued heq.symm⟩
    · obtain ⟨hs', he, hmem⟩ := h.queued co' s' hw hm
      cases hpool hs'
      rw [hself, hended]
      exact ⟨hs', he, hqueue _ hmem⟩
  · cases hpool hs'
    rw [hself] at hc
    cases hk : kind.suspends with
    | false =>
      rw [hsame hk] at hc
      obtain ⟨kind', hk', hw⟩ := h.co s co' hs hc
      exact ⟨kind', hk', hold hw⟩
    | true =>
      rw [(hsuspends hk).2.1] at hc
      cases hc
      exact ⟨kind, hk, hwait⟩
  · cases hpool hs'
    rw [hself] at hc
    rcases hcloser co' hc with hc | ⟨rfl, rfl⟩
    · exact hold (h.closer s co' hs hc)
    · exact hwait
  · cases hpool hs'
    rw [hself]
    refine ⟨hnodup, fun c hm => ?_⟩
    rcases hlock c hm with hm | ⟨rfl, rfl⟩
    · obtain ⟨hw, hm'⟩ := (h.lock s hs).2 c hm
      exact ⟨hold hw, hm'⟩
    · exact ⟨hwait, hnotin⟩
  · cases hpool hs'
    rw [hself, hended, hconnected]
    exact h.ended s hs
  · cases hpool hs'
    rw [hself, hconnected]
    exact h.opening s hs
  · cases hpool hs'
    rw [hself, hended]
    exact h.reported s hs
  · obtain ⟨s', hw⟩ := h.woken co' hm
    exact ⟨s', hw.imp hold hold⟩
  · rcases hnew hw with ⟨-, rfl, rfl⟩ | hw
    · rw [hself]
      exact (hsuspends rfl).2.2.2.2.1
    · obtain ⟨hs', -⟩ := h.suspended co' s' _ hw rfl
      cases hpool hs'
      rw [hself]
      exact hkept co' op hw
  · by_cases hne : co' = co
    · subst hne
      have hcount := h.count co'
      rw [hco] at hcount
      rw [hwait]
      change update w.begun co' (w.begun co' + 1) co' = w.finished co' + 1
      rw [update_self, hcount]
      rfl
    · rw [hother hne]
      change update w.begun co (w.begun co + 1) co' = _
      rw [update_of_ne hne]
      exact h.count co'

theorem suspend (h : Inv w) (hs : w.pool = some s) (hco : w.waits co = none) {kind : Kind}
    (hk : kind.suspends = true) (hconnected : (w.objects s).connected = kind.connected)
    (hended : (w.objects s).ended = false) (hopening : kind = .connect → w.driver = .opening)
    (hpending : ¬Pending w s) : Inv (w.suspend s co kind) := by
  unfold World.suspend
  cases hfree : (w.objects s).co with
  | some co' => exact h
  | none =>
    refine h.startWait hs hco (fun _ => ⟨hfree, rfl, hconnected, hended, rfl, hpending⟩)
      (fun hnot => ?_) hopening rfl rfl (fun _ _ _ => rfl) ?_ ?_ (fun _ hc => hc) (fun _ => .inl)
      (h.lock s hs).1 (fun _ hc => hc) fun _ => .inl
    · rw [hk] at hnot
      cases hnot
    all_goals
      rintro rfl
      cases hk

/-- Nobody is in `suspend` any more, and those that waited for that in `close` are woken. -/
theorem settle {w' : World} (h : Inv w) (hs : w.pool = some s) (hpool : w'.pool = some s)
    (hcount : w'.count = w.count) (hco : (w'.objects s).co = none)
    (hclosing : (w'.objects s).closing = (w.objects s).closing)
    (hlock : (w'.objects s).lock = (w.objects s).lock)
    (hended : (w'.objects s).ended = true → (w'.objects s).connected = false ∧ ¬Queued w)
    (hopening : w'.driver = .opening → (w'.objects s).connected = false)
    (hreported : w'.driver ≠ .closed → (w'.objects s).ended = false)
    (hwaits : ∀ co wt, w'.waits co = some wt ↔ w.waits co = some wt ∧ wt.kind.suspends = false)
    (hnodup : w'.wakeups.Nodup)
    (hwakeups : ∀ co, co ∈ w'.wakeups ↔ co ∈ w.wakeups ∨ w.waits co = some ⟨s, .closing⟩)
    (hbegun : ∀ co, w'.begun co = w'.finished co + if (w'.waits co).isSome then 1 else 0)
    (hreads : w'.reads = w.reads) : Inv w' := by
  have hself {s' : ℕ} (hs' : w'.pool = some s') : s' = s := Option.some.inj (hs'.symm.trans hpool)
  have hnobody {co s' : ℕ} {kind : Kind} (hw : w'.waits co = some ⟨s', kind⟩)
      (hk : kind.suspends = true) : False := by
    rw [((hwaits co _).1 hw).2] at hk
    cases hk
  refine ⟨fun co wt hw => ?_, fun s' hs' => ?_, fun co s' kind hw hk => (hnobody hw hk).elim,
    fun co s' hw => (hnobody hw rfl).elim, fun co s' hw hm => ?_, fun co s' hw hm => ?_,
    fun co s' hw hm => ?_, fun s' co hs' hc => ?_, fun s' co hs' hc => ?_, fun s' hs' => ?_,
    fun s' hs' he => ?_, fun s' hs' => ?_, fun s' hs' => ?_, hnodup, fun co hm => ?_,
    fun co s' op hw => (hnobody hw rfl).elim, hbegun, ?_⟩
  · rw [hcount]
    exact h.object co wt ((hwaits co wt).1 hw).1
  · rw [hcount]
    cases hself hs'
    exact h.pool s hs
  · have hw₀ := ((hwaits co _).1 hw).1
    have hs' : s' = s := by
      by_cases hm₀ : co ∈ w.wakeups
      · rcases h.pending co s' hw₀ hm₀ with hnone | ⟨hs', -⟩
        · rw [hs] at hnone
          cases hnone
        · exact Option.some.inj (hs'.symm.trans hs)
      · exact Option.some.inj ((h.closing co s' hw₀ hm₀).1.symm.trans hs)
    subst hs'
    exact .inr ⟨hpool, hco⟩
  · have hw₀ := ((hwaits co _).1 hw).1
    have hm₀ : co ∉ w.wakeups := fun hm₀ => hm ((hwakeups co).2 (.inl hm₀))
    have hs' : s' = s := Option.some.inj ((h.closing co s' hw₀ hm₀).1.symm.trans hs)
    subst hs'
    exact absurd ((hwakeups co).2 (.inr hw₀)) hm
  · have hw₀ := ((hwaits co _).1 hw).1
    have hm₀ : co ∉ w.wakeups := fun hm₀ => hm ((hwakeups co).2 (.inl hm₀))
    obtain ⟨hs', -, hqueue⟩ := h.queued co s' hw₀ hm₀
    cases Option.some.inj (hs'.symm.trans hs)
    refine ⟨hpool, ?_, by rwa [hlock]⟩
    by_contra he
    exact (hended (Bool.not_eq_false _ ▸ he)).2 ⟨co, s, hw₀, hm₀⟩
  · cases hself hs'
    rw [hco] at hc
    cases hc
  · cases hself hs'
    rw [hclosing] at hc
    exact (hwaits co _).2 ⟨h.closer s co hs hc, rfl⟩
  · cases hself hs'
    rw [hlock]
    obtain ⟨hlocknodup, hqueue⟩ := h.lock s hs
    refine ⟨hlocknodup, fun co hm => ⟨(hwaits co _).2 ⟨(hqueue co hm).1, rfl⟩, fun hw => ?_⟩⟩
    rcases (hwakeups co).1 hw with hw | hw
    · exact (hqueue co hm).2 hw
    · rw [(hqueue co hm).1] at hw
      cases hw
  · cases hself hs'
    exact (hended he).1
  · cases hself hs'
    exact hopening
  · cases hself hs'
    exact hreported
  · rcases (hwakeups co).1 hm with hm | hw
    · obtain ⟨s', hw | hw⟩ := h.woken co hm
      · exact ⟨s', .inl ((hwaits co _).2 ⟨hw, rfl⟩)⟩
      · exact ⟨s', .inr ((hwaits co _).2 ⟨hw, rfl⟩)⟩
    · exact ⟨s, .inl ((hwaits co _).2 ⟨hw, rfl⟩)⟩
  · rw [hreads]
    exact h.reads

/-- After that only those wait that were woken, if nobody is in the queue of the lock. -/
theorem allWoken_of_settled {w' : World} (h : Inv w) (hs : w.pool = some s) (hqueued : ¬Queued w)
    (hwaits : ∀ co wt, w'.waits co = some wt ↔ w.waits co = some wt ∧ wt.kind.suspends = false)
    (hwakeups : ∀ co, co ∈ w'.wakeups ↔ co ∈ w.wakeups ∨ w.waits co = some ⟨s, .closing⟩) :
    AllWoken w' := by
  intro co wt hw
  obtain ⟨hw₀, hk⟩ := (hwaits co wt).1 hw
  rw [hwakeups]
  by_contra hm
  obtain ⟨hm₀, hclosing⟩ := not_or.1 hm
  obtain ⟨s', kind⟩ := wt
  cases kind with
  | connect | read | close => cases hk
  | closing =>
    cases Option.some.inj ((h.closing co s' hw₀ hm₀).1.symm.trans hs)
    exact hclosing hw₀
  | lock => exact hqueued ⟨co, s', hw₀, hm₀⟩

section Release

variable {o : Object} {d : Phase}

/-- The world after the coroutine in `suspend` was woken. -/
def released (w : World) (s co : ℕ) (o : Object) (d : Phase) : World :=
  ((({ w with driver := d } : World).setObject s o).endWait co).wakeClosing s

theorem released_frame (w : World) (s co : ℕ) (o : Object) (d : Phase) :
    (released w s co o d).objects = update w.objects s o ∧
      (released w s co o d).pool = w.pool ∧ (released w s co o d).count = w.count ∧
      (released w s co o d).driver = d ∧ (released w s co o d).reads = w.reads ∧
      (released w s co o d).waits = update w.waits co none ∧
      (released w s co o d).begun = w.begun ∧
      (released w s co o d).finished = update w.finished co (w.finished co + 1) := by
  have hwake (w : World) (c : ℕ) : (w.wake c).objects = w.objects ∧ (w.wake c).pool = w.pool ∧
      (w.wake c).count = w.count ∧ (w.wake c).driver = w.driver ∧ (w.wake c).reads = w.reads ∧
      (w.wake c).waits = w.waits ∧ (w.wake c).begun = w.begun ∧ (w.wake c).finished = w.finished := by
    unfold World.wake
    split <;> exact ⟨rfl, rfl, rfl, rfl, rfl, rfl, rfl, rfl⟩
  unfold released World.wakeClosing
  split
  · exact hwake _ _
  · exact ⟨rfl, rfl, rfl, rfl, rfl, rfl, rfl, rfl⟩

section

variable (h : Inv w) (hs : w.pool = some s) (hco : (w.objects s).co = some co)
include h hs hco

theorem released_wakeups (hclosing : o.closing = (w.objects s).closing) :
    (released w s co o d).wakeups.Nodup ∧
      ∀ c, c ∈ (released w s co o d).wakeups ↔ c ∈ w.wakeups ∨ w.waits c = some ⟨s, .closing⟩ := by
  obtain ⟨kind, hk, hw⟩ := h.co s co hs hco
  have herase : w.wakeups.erase co = w.wakeups :=
    erase_of_not_mem (h.suspended co s kind hw hk).2.2.2.2
  -- the only one that waits in `close` without having been woken is `closing`
  have honly {c : ℕ} (hc : w.waits c = some ⟨s, .closing⟩) :
      c ∈ w.wakeups ∨ (w.objects s).closing = some c := by
    by_cases hm : c ∈ w.wakeups
    · exact .inl hm
    · exact .inr (h.closing c s hc hm).2.1
  unfold released World.wakeClosing
  have hself : ((({ w with driver := d } : World).setObject s o).endWait co).objects s = o :=
    update_self ..
  rw [hself, hclosing]
  cases hfield : (w.objects s).closing with
  | none =>
    change (w.wakeups.erase co).Nodup ∧ ∀ c, c ∈ w.wakeups.erase co ↔ _
    rw [herase]
    refine ⟨h.nodup, fun c => ⟨.inl, fun hc => ?_⟩⟩
    rcases hc with hm | hc
    · exact hm
    · rcases honly hc with hm | hfield'
      · exact hm
      · rw [hfield] at hfield'
        cases hfield'
  | some c₀ =>
    have hw₀ : w.waits c₀ = some ⟨s, .closing⟩ := h.closer s c₀ hs hfield
    have hne : c₀ ≠ co := by
      rintro rfl
      rw [hw] at hw₀
      cases hw₀
      cases hk
    have hm₀ : c₀ ∉ w.wakeups := by
      intro hm
      rcases h.pending c₀ s hw₀ hm with hnone | ⟨-, hfree⟩
      · rw [hs] at hnone
        cases hnone
      · rw [hco] at hfree
        cases hfree
    have hwakeups : (((({ w with driver := d } : World).setObject s o).endWait co).wake c₀).wakeups =
        w.wakeups ++ [c₀] := by
      unfold World.wake
      rw [if_pos]
      · change w.wakeups.erase co ++ [c₀] = _
        rw [herase]
      · change (update w.waits co none c₀).isSome ∧ c₀ ∉ w.wakeups.erase co
        rw [update_of_ne hne, hw₀, herase]
        exact ⟨rfl, hm₀⟩
    change (World.wake _ c₀).wakeups.Nodup ∧ ∀ c, c ∈ (World.wake _ c₀).wakeups ↔ _
    rw [hwakeups]
    refine ⟨nodup_append.2 ⟨h.nodup, nodup_singleton _, fun a ha b hb => ?_⟩, fun c => ?_⟩
    · rw [mem_singleton.1 hb]
      rintro rfl
      exact hm₀ ha
    · rw [mem_append, mem_singleton]
      refine or_congr_right ⟨fun hc => hc ▸ hw₀, fun hc => ?_⟩
      have hm : c ∉ w.wakeups := by
        intro hm
        rcases h.pending c s hc hm with hnone | ⟨-, hfree⟩
        · rw [hs] at hnone
          cases hnone
        · rw [hco] at hfree
          cases hfree
      exact Option.some.inj ((h.closing c s hc hm).2.1.symm.trans hfield)

theorem released_waits (c : ℕ) (wt : Wait) : (released w s co o d).waits c = some wt ↔
      w.waits c = some wt ∧ wt.kind.suspends = false := by
  obtain ⟨kind, hk, hw⟩ := h.co s co hs hco
  rw [(released_frame w s co o d).2.2.2.2.2.1]
  by_cases hc : c = co
  · subst hc
    rw [update_self]
    refine ⟨nofun, fun ⟨hc, hfalse⟩ => ?_⟩
    rw [hw] at hc
    cases hc
    rw [hk] at hfalse
    cases hfalse
  · rw [update_of_ne hc]
    refine ⟨fun hc' => ⟨hc', ?_⟩, fun hc' => hc'.1⟩
    -- there is one `co` of the object
    by_contra hsuspends
    obtain ⟨s', kind'⟩ := wt
    obtain ⟨hs', hco', -⟩ := h.suspended c s' kind' hc' (Bool.not_eq_false _ ▸ hsuspends)
    cases Option.some.inj (hs'.symm.trans hs)
    exact hc (Option.some.inj (hco'.symm.trans hco))

theorem release (hfree : o.co = none) (hclosing : o.closing = (w.objects s).closing)
    (hlock : o.lock = (w.objects s).lock)
    (hended : o.ended = true → o.connected = false ∧ ¬Queued w)
    (hopening : d = .opening → o.connected = false) (hreported : d ≠ .closed → o.ended = false) :
    Inv (released w s co o d) := by
  obtain ⟨hobjects, hpool, hcount, hdriver, hreads, hwaits, hbegun, hover⟩ :=
    released_frame w s co o d
  obtain ⟨hnodup, hwakeups⟩ := h.released_wakeups hs hco hclosing (d := d)
  have hself : (released w s co o d).objects s = o := by
    rw [hobjects, update_self]
  obtain ⟨kind, -, hw⟩ := h.co s co hs hco
  refine h.settle hs (hpool.trans hs) hcount (by rwa [hself]) (by rwa [hself]) (by rwa [hself])
    (by rwa [hself]) (by rwa [hself, hdriver]) (by rwa [hself, hdriver]) (h.released_waits hs hco)
    hnodup hwakeups (fun c => ?_) hreads
  rw [hbegun, hover, hwaits]
  have hnum := h.count c
  by_cases hc : c = co
  · subst hc
    rw [update_self, update_self, hnum, hw]
    rfl
  · rw [update_of_ne hc, update_of_ne hc, hnum]

theorem allWoken_released (hclosing : o.closing = (w.objects s).closing) (hqueued : ¬Queued w) :
    AllWoken (released w s co o d) :=
  h.allWoken_of_settled hs hqueued (h.released_waits hs hco)
    (h.released_wakeups hs hco hclosing).2

end

end Release

/-- A message for an object that nobody is in `suspend` for. -/
theorem report (h : Inv w) (hs : w.pool = some s) {o : Object} {d : Phase}
    (hco : (w.objects s).co = none) (hfree : o.co = none)
    (hclosing : o.closing = (w.objects s).closing) (hlock : o.lock = (w.objects s).lock)
    (hended : o.ended = true → o.connected = false ∧ ¬Queued w)
    (hopening : d = .opening → o.connected = false) (hreported : d ≠ .closed → o.ended = false) :
    Inv (({ w with driver := d } : World).setObject s o) := by
  have hself : (({ w with driver := d } : World).setObject s o).objects s = o :=
    update_self ..
  refine h.settle hs hs rfl (by rwa [hself]) (by rwa [hself]) (by rwa [hself]) (by rwa [hself])
    (by rwa [hself]) (by rwa [hself]) (fun c wt => ⟨fun hw => ⟨hw, ?_⟩, fun hw => hw.1⟩) h.nodup
    (fun c => ⟨.inl, fun hc => ?_⟩) h.count rfl
  · by_contra hsuspends
    obtain ⟨s', kind⟩ := wt
    obtain ⟨hs', hco', -⟩ := h.suspended c s' kind hw (Bool.not_eq_false _ ▸ hsuspends)
    cases Option.some.inj (hs'.symm.trans hs)
    rw [hco] at hco'
    cases hco'
  · rcases hc with hm | hc
    · exact hm
    · by_contra hm
      exact (h.closing c s hc hm).2.2 hco

theorem endWait_count (h : Inv w) {wt : Wait} (hw : w.waits co = some wt) (c : ℕ) :
    (w.endWait co).begun c = (w.endWait co).finished c +
      if ((w.endWait co).waits c).isSome then 1 else 0 := by
  have hnum := h.count c
  change w.begun c = update w.finished co (w.finished co + 1) c +
    if (update w.waits co none c).isSome then 1 else 0
  by_cases hne : c = co
  · subst hne
    rw [update_self, update_self, hnum, hw]
    rfl
  · rw [update_of_ne hne, update_of_ne hne, hnum]

/-- A coroutine that was given the lock goes on. -/
theorem endWait_lock (h : Inv w) (hm : co ∈ w.wakeups) (hw : w.waits co = some ⟨s, .lock⟩) :
    Inv (w.endWait co) := by
  have hold {c : ℕ} {wt : Wait} (hc : (w.endWait co).waits c = some wt) :
      c ≠ co ∧ w.waits c = some wt := by
    by_cases hne : c = co
    · subst hne
      cases (update_self ..).symm.trans hc
    · exact ⟨hne, (update_of_ne hne _ _).symm.trans hc⟩
  have hnew {c : ℕ} {wt : Wait} (hc : w.waits c = some wt) (hkind : wt.kind = .lock → c ≠ co) :
      (w.endWait co).waits c = some wt := by
    refine (update_of_ne (fun heq => ?_) _ _).trans hc
    subst heq
    rw [hw] at hc
    cases hc
    exact hkind rfl rfl
  have hmem {c : ℕ} (hne : c ≠ co) : c ∈ (w.endWait co).wakeups ↔ c ∈ w.wakeups :=
    mem_erase_of_ne hne
  refine ⟨fun c wt hc => h.object c wt (hold hc).2, h.pool, fun c s' kind hc hk => ?_,
    fun c s' hc => h.connecting c s' (hold hc).2, fun c s' hc hm' => ?_, fun c s' hc hm' => ?_,
    fun c s' hc hm' => ?_, fun s' c hs' hc => ?_, fun s' c hs' hc => ?_, fun s' hs' => ?_, h.ended,
    h.opening, h.reported, h.nodup.erase co, fun c hm' => ?_, fun c s' op hc => ?_, fun c => ?_,
    h.reads⟩
  · obtain ⟨hs', hfield, hconnected, hended, hm'⟩ := h.suspended c s' kind (hold hc).2 hk
    exact ⟨hs', hfield, hconnected, hended, fun hm'' => hm' ((hmem (hold hc).1).1 hm'')⟩
  · exact h.pending c s' (hold hc).2 ((hmem (hold hc).1).1 hm')
  · exact h.closing c s' (hold hc).2 fun hm'' => hm' ((hmem (hold hc).1).2 hm'')
  · exact h.queued c s' (hold hc).2 fun hm'' => hm' ((hmem (hold hc).1).2 hm'')
  · obtain ⟨kind, hk, hc'⟩ := h.co s' c hs' hc
    refine ⟨kind, hk, hnew hc' fun heq => ?_⟩
    rw [show kind = .lock from heq] at hk
    cases hk
  · exact hnew (h.closer s' c hs' hc) nofun
  · obtain ⟨hnodup, hqueue⟩ := h.lock s' hs'
    refine ⟨hnodup, fun c hc => ?_⟩
    obtain ⟨hc', hm'⟩ := hqueue c hc
    have hne : c ≠ co := by
      rintro rfl
      exact hm' hm
    exact ⟨hnew hc' fun _ => hne, fun hm'' => hm' ((hmem hne).1 hm'')⟩
  · have hne : c ≠ co := by
      rintro rfl
      exact h.nodup.not_mem_erase hm'
    obtain ⟨s', hc⟩ := h.woken c ((hmem hne).1 hm')
    exact ⟨s', hc.imp (fun hc => hnew hc fun _ => hne) fun hc => hnew hc fun _ => hne⟩
  · exact h.kept c s' op (hold hc).2
  · exact h.endWait_count hw c

end Inv

end Mtask.Lualib.Socket
