import Mtask.ServiceMgr.Invariant

/-!
# One launch for a name

As long as no launch returns `nil`, a name is launched once and all requests get its result. A
launch that waits is underway, unless it has come to a manager that forwards while a query was
pending there.
-/

namespace Mtask.ServiceMgr

open Transition List
open Function (update update_of_ne update_self)

/-- The launch function of a field is started once at its owner, all replies for a name are the
same, and no launch waits without one that is underway. -/
structure IsUnique (w : World) : Prop where
  starts : ∀ key, key.owner = key → w.starts key ≤ 1
  same : ∀ key key' r r', (key, r) ∈ w.replies → (key', r') ∈ w.replies → key.owner = key'.owner →
    r = r'
  launching : ∀ key, ∀ who ∈ (w.entry key).requesters, who.launch = true → Underway w key

/-- A launch that waits at a manager that forwards is underway. -/
def Launching (w : World) : Prop :=
  ∀ m, m ≠ 0 → ∀ who ∈ (w.entry (.global m)).requesters, who.launch = true →
    Underway w (.global m)

theorem Inv.isUnique {w : World} (h : Inv w) (hlaunching : Launching w) : IsUnique w where
  starts key hkey := by
    rw [h.starts key hkey]
    unfold Entry.started
    split <;> decide
  same key key' r r' hr hr' howner := by
    have hmatches := h.replies key r hr
    have hmatches' := h.replies key' r' hr'
    rw [howner] at hmatches
    rcases hmatches.cases with ⟨t, hentry, rfl⟩ | ⟨t, hentry, rfl⟩ <;>
    · rw [hentry] at hmatches'
      exact hmatches'.symm
  launching key who hwho hlaunch := by
    have howner (hkey : key.owner = key) : 0 < w.starts key := by
      rw [h.starts key hkey]
      cases hentry : w.entry key with
      | absent | handle | error =>
        rw [hentry] at hwho
        cases hwho
      | table runner waiters =>
        cases runner with
        | some runner => exact Nat.one_pos
        | none =>
          rw [hentry] at hwho
          rw [h.queries key hkey waiters hentry who hwho] at hlaunch
          cases hlaunch
    cases key with
    | name m => exact howner rfl
    | global m =>
      by_cases hm : m = 0
      · subst hm
        exact .inl (howner rfl)
      · exact hlaunching m hm who hwho hlaunch

/-! ### Launches that are underway -/

namespace Launching

variable {w w' : World} {key : Key} {who : Requester}

theorem init : Launching .init := nofun

/-- It is enough that the launches that are underway stay so, and that a new request waits for one.
-/
theorem mono (h : Launching w)
    (hentry : ∀ m, m ≠ 0 → ∀ who ∈ (w'.entry (.global m)).requesters,
      who ∈ (w.entry (.global m)).requesters ∨ (who.launch = true → Underway w' (.global m)))
    (hunderway : ∀ m, Underway w (.global m) → Underway w' (.global m)) : Launching w' := by
  intro m hm who hwho hlaunch
  rcases hentry m hm who hwho with hwho | hnew
  · exact hunderway m (h m hm who hwho hlaunch)
  · exact hnew hlaunch

/-- `LAUNCH` or `QUERY` at an owner changes its field, and the call of a manager that has asked. -/
theorem launchOrQuery_frame (w : World) (key : Key) (who : Requester) :
    (∀ k, k ≠ key → (w.launchOrQuery key who).entry k = w.entry k) ∧
      (∀ k, w.starts k ≤ (w.launchOrQuery key who).starts k) ∧
      ∀ m, (w.launchOrQuery key who).call m = w.call m ∨ ∃ launch, who = .manager m launch := by
  have hreply (r : Reply) : (∀ k, k ≠ key → (w.reply key r who).entry k = w.entry k) ∧
      (∀ k, w.starts k ≤ (w.reply key r who).starts k) ∧
      ∀ m, (w.reply key r who).call m = w.call m ∨ ∃ launch, who = .manager m launch := by
    have hreplied := replied_reply w key r who
    refine ⟨fun k _ => by rw [hreplied.entry], fun k => ?_, fun m => ?_⟩
    · exact Nat.le_of_eq (congrFun hreplied.starts k).symm
    · rcases hreplied.call m with heq | ⟨⟨launch, hmem⟩, -⟩
      · exact .inl heq
      · exact .inr ⟨launch, (mem_singleton.1 hmem).symm⟩
  have hset (e : Entry) : (∀ k, k ≠ key → (w.setEntry key e).entry k = w.entry k) ∧
      (∀ k, w.starts k ≤ (w.setEntry key e).starts k) ∧
      ∀ m, (w.setEntry key e).call m = w.call m ∨ ∃ launch, who = .manager m launch :=
    ⟨fun k hk => update_of_ne hk _ _, fun k => Nat.le_refl _, fun m => .inl rfl⟩
  have hstart (e : Entry) :
      (∀ k, k ≠ key → ((w.setEntry key e).start key .newservice).entry k = w.entry k) ∧
      (∀ k, w.starts k ≤ ((w.setEntry key e).start key .newservice).starts k) ∧
      ∀ m, ((w.setEntry key e).start key .newservice).call m = w.call m ∨
        ∃ launch, who = .manager m launch := by
    refine ⟨fun k hk => update_of_ne hk _ _, fun k => ?_, fun m => .inl rfl⟩
    change _ ≤ update w.starts key (w.starts key + 1) k
    rw [Function.update_apply]
    split
    next heq =>
      rw [heq]
      exact Nat.le_succ _
    next => exact Nat.le_refl _
  unfold World.launchOrQuery World.waitfor
  cases w.entry key with
  | handle t => exact hreply _
  | error t => exact hreply _
  | absent =>
    cases who.launch with
    | true => exact hstart _
    | false => exact hset _
  | table runner waiters =>
    cases runner with
    | some runner => exact hset _
    | none =>
      cases who.launch with
      | true => exact hstart _
      | false => exact hset _

theorem launchOrQuery (h : Launching w) (hkey : key.owner = key)
    (hunderway : ∀ m launch, who = .manager m launch → w.call m ≠ .request true) :
    Launching (w.launchOrQuery key who) := by
  obtain ⟨hentry, hstarts, hcall⟩ := launchOrQuery_frame w key who
  refine h.mono (fun m hm who' hwho' => .inl ?_) fun m hunder => ?_
  · rwa [hentry _ (Inv.global_ne hkey hm)] at hwho'
  · rcases hunder with hpos | ⟨k, hk⟩
    · exact .inl (Nat.lt_of_lt_of_le hpos (hstarts _))
    · refine .inr ⟨k, ?_⟩
      rcases hcall k with heq | ⟨launch, rfl⟩
      · rw [heq, hk]
      · exact absurd hk (hunderway k launch rfl)

theorem starts_launchOrQuery (h : Inv w) (hkey : key.owner = key) (hlaunch : who.launch = true) :
    0 < (w.launchOrQuery key who).starts key := by
  have hstart (e : Entry) : 0 < ((w.setEntry key e).start key .newservice).starts key := by
    change 0 < update w.starts key (w.starts key + 1) key
    rw [update_self]
    exact Nat.succ_pos _
  have hstarted := h.starts key hkey
  unfold World.launchOrQuery World.waitfor
  rw [hlaunch]
  cases hentry : w.entry key with
  | handle t | error t =>
    rw [hentry] at hstarted
    change 0 < (World.reply w key _ who).starts key
    rw [(replied_reply w key _ who).starts, hstarted]
    exact Nat.one_pos
  | absent => exact hstart _
  | table runner waiters =>
    cases runner with
    | some runner =>
      rw [hentry] at hstarted
      change 0 < w.starts key
      rw [hstarted]
      exact Nat.one_pos
    | none => exact hstart _

variable {m : ℕ} {launch : Bool}

/-- `GLAUNCH` or `GQUERY` at a manager that forwards. -/
theorem forward (h : Launching w) (hinv : Inv w) (hm : m ≠ 0)
    (hpending : launch = true → (w.entry (.global m)).runner ≠ none → Underway w (.global m)) :
    Launching (w.waitfor (.global m) (.service launch) (some (.call m launch))) := by
  have hmem {k : ℕ} {e : Entry} {who : Requester}
      (hold : who ∈ e.requesters → who ∈ (w.entry (.global m)).requesters ∨
        who = .service launch)
      (hwho : who ∈ (update w.entry (.global m) e (.global k)).requesters) :
      who ∈ (w.entry (.global k)).requesters ∨ who = .service launch := by
    by_cases hk : k = m
    · subst hk
      rw [update_self] at hwho
      exact hold hwho
    · rw [update_of_ne fun heq => hk (Key.global.inj heq)] at hwho
      exact .inl hwho
  unfold World.waitfor
  cases hentry : w.entry (.global m) with
  | handle t => exact h
  | error e => exact absurd hentry ((hinv.pending m hm).1 e)
  | absent =>
    -- its call is a new one
    have hcall : w.call m = .none := by
      by_contra hne
      exact (hinv.call m hne).2 hentry
    refine h.mono (fun k _ who hwho => ?_) fun k hunder => ?_
    · rcases hmem (fun hwho => .inr (mem_singleton.1 hwho)) hwho with hwho | rfl
      · exact .inl hwho
      · refine .inr fun hlaunch => .inr ⟨m, ?_⟩
        cases hlaunch
        exact update_self ..
    · rcases hunder with hpos | ⟨m', hm'⟩
      · exact .inl hpos
      · refine .inr ⟨m', (update_of_ne (fun heq => ?_) _ _).trans hm'⟩
        subst heq
        rw [hcall] at hm'
        cases hm'
  | table runner waiters =>
    cases runner with
    | none => exact absurd hentry ((hinv.pending m hm).2 waiters)
    | some runner =>
      rw [hentry] at hpending hmem
      refine h.mono (fun k _ who hwho => ?_) fun k hunder => hunder
      have hnew : who ∈ (w.entry (.global k)).requesters ∨ who = .service launch := by
        refine hmem (fun hwho => ?_) hwho
        rcases mem_append.1 hwho with hwho | hwho
        · exact .inl (mem_append_left _ hwho)
        · rcases mem_append.1 hwho with hwho | hwho
          · exact .inl (mem_append_right _ hwho)
          · exact .inr (mem_singleton.1 hwho)
      rcases hnew with hwho | rfl
      · exact .inl hwho
      · exact .inr fun hlaunch => hpending hlaunch nofun

variable {waiters : List Requester} {r : Reply}

section

variable (h : Launching w)
include h

/-- The coroutines of a field get an outcome; calls of managers are answered after a launch. -/
theorem settled {e : Entry} (hnone : e.requesters = [])
    (hcall : ∀ k launch, .manager k launch ∈ who :: waiters → 0 < w.starts (.global 0)) :
    Launching ((who :: waiters).foldl (fun w => w.reply key r) (w.setEntry key e)) := by
  have hreplied := replied_foldl (w.setEntry key e) key r (who :: waiters)
  refine h.mono (fun m _ who' hwho' => .inl ?_) fun m hunder => ?_
  · rw [hreplied.entry] at hwho'
    by_cases hm : Key.global m = key
    · subst hm
      change who' ∈ (update w.entry _ e _).requesters at hwho'
      rw [update_self, hnone] at hwho'
      cases hwho'
    · change who' ∈ (update w.entry _ e _).requesters at hwho'
      rwa [update_of_ne hm] at hwho'
  · have hpos (hpos : 0 < w.starts (.global 0)) : Underway ((who :: waiters).foldl
        (fun w => w.reply key r) (w.setEntry key e)) (.global m) := by
      refine .inl ?_
      rw [hreplied.starts]
      exact hpos
    rcases hunder with hstarts | ⟨k, hk⟩
    · exact hpos hstarts
    · rcases hreplied.call k with heq | ⟨⟨launch, hmem⟩, -⟩
      · exact .inr ⟨k, heq.trans hk⟩
      · exact hpos (hcall k launch hmem)

theorem setCall {c : CallState} (hcall : w.call m ≠ .request true) : Launching (w.setCall m c) := by
  refine h.mono (fun k _ who hwho => .inl hwho) fun k hunder => ?_
  rcases hunder with hpos | ⟨m', hm'⟩
  · exact .inl hpos
  · refine .inr ⟨m', (update_of_ne (fun heq => hcall ?_) _ _).trans hm'⟩
    rw [← heq, hm']

theorem finish (hinv : Inv w) (hentry : w.entry key = .table (some who) waiters) {outcome : Outcome}
    (hnil : outcome ≠ .nil) : Launching (w.settle key who waiters outcome) := by
  have hcall (k : ℕ) (launch : Bool) (hmem : .manager k launch ∈ who :: waiters) :
      0 < w.starts (.global 0) := by
    have hkey₀ : key = .global 0 := by
      by_contra hne
      refine hinv.services key hne k launch ?_
      rw [hentry]
      exact hmem
    rw [hkey₀] at hentry
    rw [hinv.starts (.global 0) rfl, hentry]
    exact Nat.one_pos
  cases outcome with
  | handle t => exact h.settled rfl hcall
  | error t => exact h.settled rfl hcall
  | nil => exact absurd rfl hnil

theorem take (hinv : Inv w) (hcall : w.call m = .request launch) :
    Launching ((w.setCall m .taken).launchOrQuery (.global 0) (.manager m launch)) := by
  have htaken : Inv (w.setCall m .taken) := hinv.taken (by rw [hcall]; exact nofun)
  cases launch with
  | true =>
    -- it starts the launch
    have hpos : 0 < ((w.setCall m .taken).launchOrQuery (.global 0) (.manager m true)).starts
        (.global 0) := starts_launchOrQuery htaken rfl rfl
    exact fun k _ _ _ _ => .inl hpos
  | false =>
    have hself : (w.setCall m .taken).call m = .taken := update_self ..
    refine (h.setCall (by rw [hcall]; exact nofun)).launchOrQuery rfl fun m' l heq => ?_
    cases heq
    rw [hself]
    exact nofun

theorem arrive (hinv : Inv w) (hcall : w.call m = .answer r)
    (hentry : w.entry (.global m) = .table (some who) waiters) :
    Launching ((w.setCall m .none).settle (.global m) who waiters r.first) := by
  obtain ⟨t, rfl, -⟩ := hinv.answer m r hcall
  obtain ⟨hm, -⟩ := hinv.call m (by rw [hcall]; exact nofun)
  refine (h.setCall (by rw [hcall]; exact nofun)).settled (e := .handle t) rfl fun k l hmem => ?_
  refine absurd ?_ (hinv.services (.global m) (fun heq => hm (Key.global.inj heq)) k l)
  rw [hentry]
  exact hmem

theorem step (hinv : Inv w) {e : Event} (hok : Orderly w e) (hstep : w.step e = .ok w') :
    Launching w' := by
  cases e with
  | request m launch =>
    cases hstep
    exact h.launchOrQuery rfl nofun
  | globalRequest m launch =>
    rw [World.step] at hstep
    split at hstep
    next hm =>
      cases hstep
      exact h.launchOrQuery rfl nofun
    next hm =>
      cases hstep
      exact h.forward hinv hm (hok hm).2
  | finish key outcome =>
    rw [World.step] at hstep
    split at hstep
    next =>
      split at hstep
      next who waiters hentry =>
        cases hstep
        exact h.finish hinv hentry hok.1
      all_goals cases hstep
    next => cases hstep
  | take m =>
    rw [World.step] at hstep
    split at hstep
    next launch hcall =>
      cases hstep
      exact h.take hinv hcall
    all_goals cases hstep
  | arrive m =>
    rw [World.step] at hstep
    split at hstep
    next r who waiters hcall hentry =>
      cases hstep
      exact h.arrive hinv hcall hentry
    next => cases hstep

end

end Launching

end Mtask.ServiceMgr
