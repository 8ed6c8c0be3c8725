import Mtask.ServiceMgr.Manager

/-!
# The invariant of the service managers

As long as no launch returns `nil`, the field of an owner tells how often the name was launched and
what was replied. A field at a manager that forwards has one call for requests of both kinds, and it
knows of no errors.
-/

namespace Mtask.ServiceMgr

open Function (update update_of_ne update_self)
open List

/-- The coroutines of a field that have no reply yet. -/
def Entry.requesters (e : Entry) : List Requester :=
  e.runner.toList ++ e.waiters

/-- A launch was started for a field of an owner, or is on its way to the global manager. -/
def Underway (w : World) : Key → Prop
  | .name m => 0 < w.starts (.name m)
  | .global _ => 0 < w.starts (.global 0) ∨ ∃ m, w.call m = .request true

/-- No launch returns `nil`, and a launch of a global name fails only if no other manager has a
request for it or gets one afterwards; and a `GLAUNCH` comes to a manager with a pending call only
if a launch is underway. -/
def Orderly (w : World) : Event → Prop
  | .globalRequest m launch => m ≠ 0 → (∀ e, w.entry (.global 0) ≠ .error e) ∧
      (launch = true → (w.entry (.global m)).runner ≠ none → Underway w (.global m))
  | .finish key outcome => outcome ≠ .nil ∧
      ∀ e, outcome = .error e → key = .global 0 → ∀ m, m ≠ 0 → w.entry (.global m) = .absent
  | .request _ _ | .take _ | .arrive _ => True

/-! ### Replies -/

/-- The coroutines get the reply; nothing else changes. -/
structure Replied (key : Key) (r : Reply) (who : List Requester) (w w' : World) : Prop where
  entry : w'.entry = w.entry
  starts : w'.starts = w.starts
  replies : ∀ x ∈ w'.replies, x ∈ w.replies ∨ x = (key, r)
  call : ∀ m, w'.call m = w.call m ∨
    (∃ launch, .manager m launch ∈ who) ∧ w'.call m = .answer r

theorem replied_reply (w : World) (key : Key) (r : Reply) (who : Requester) :
    Replied key r [who] w (w.reply key r who) := by
  cases who with
  | service launch =>
    refine ⟨rfl, rfl, fun x hx => ?_, fun m => .inl rfl⟩
    rcases mem_append.1 hx with hx | hx
    · exact .inl hx
    · exact .inr (mem_singleton.1 hx)
  | manager m launch =>
    refine ⟨rfl, rfl, fun x hx => .inl hx, fun m' => ?_⟩
    by_cases hm : m' = m
    · subst hm
      exact .inr ⟨⟨launch, mem_singleton_self _⟩, update_self ..⟩
    · exact .inl (update_of_ne hm _ _)

theorem replied_foldl (w : World) (key : Key) (r : Reply) (who : List Requester) :
    Replied key r who w (who.foldl (fun w => w.reply key r) w) := by
  induction who generalizing w with
  | nil => exact ⟨rfl, rfl, fun x hx => .inl hx, fun m => .inl rfl⟩
  | cons who rest ih =>
    have h := replied_reply w key r who
    have h' := ih (w.reply key r who)
    refine ⟨h'.entry.trans h.entry, h'.starts.trans h.starts, fun x hx => ?_, fun m => ?_⟩
    · rcases h'.replies x hx with hx | hx
      · exact h.replies x hx
      · exact .inr hx
    · rcases h'.call m with heq | ⟨⟨launch, hmem⟩, heq⟩
      · rcases h.call m with heq' | ⟨⟨launch, hmem⟩, heq'⟩
        · exact .inl (heq.trans heq')
        · refine .inr ⟨⟨launch, ?_⟩, heq.trans heq'⟩
          rw [mem_singleton.1 hmem]
          exact mem_cons_self
      · exact .inr ⟨⟨launch, mem_cons_of_mem _ hmem⟩, heq⟩

/-! ### The invariant -/

/-- A reply tells what is in the field. -/
def Matches : Entry → Reply → Prop
  | .handle h, r => r = .handle h
  | .error e, r => r = .error e
  | .absent, _ | .table _ _, _ => False

variable {r : Reply} {e : Entry}

theorem Matches.cases (h : Matches e r) :
    (∃ t, e = .handle t ∧ r = .handle t) ∨ ∃ t, e = .error t ∧ r = .error t := by
  cases e with
  | handle t => exact .inl ⟨t, rfl, h⟩
  | error t => exact .inr ⟨t, rfl, h⟩
  | absent | table => exact h.elim

/-- How often a launch was started for a field of an owner. -/
def Entry.started : Entry → ℕ
  | .absent | .table none _ => 0
  | .table (some _) _ | .handle _ | .error _ => 1

/-- The invariant: only the global manager has calls of others, and a field at another manager is
the handle that it has, or a table while its call is pending. -/
structure Inv (w : World) : Prop where
  services : ∀ key, key ≠ .global 0 → ∀ m launch, .manager m launch ∉ (w.entry key).requesters
  managers : ∀ m launch, .manager m launch ∈ (w.entry (.global 0)).requesters →
    m ≠ 0 ∧ w.entry (.global m) ≠ .absent
  call : ∀ m, w.call m ≠ .none → m ≠ 0 ∧ w.entry (.global m) ≠ .absent
  answer : ∀ m r, w.call m = .answer r → ∃ h, r = .handle h ∧ w.entry (.global 0) = .handle h
  starts : ∀ key, key.owner = key → w.starts key = (w.entry key).started
  queries : ∀ key, key.owner = key → ∀ waiters, w.entry key = .table none waiters →
    ∀ who ∈ waiters, who.launch = false
  forwarded : ∀ m, m ≠ 0 → ∀ h, w.entry (.global m) = .handle h → w.entry (.global 0) = .handle h
  pending : ∀ m, m ≠ 0 → (∀ e, w.entry (.global m) ≠ .error e) ∧
    ∀ waiters, w.entry (.global m) ≠ .table none waiters
  replies : ∀ key r, (key, r) ∈ w.replies → Matches (w.entry key.owner) r
  failed : ∀ e, w.entry (.global 0) = .error e → ∀ m, m ≠ 0 → w.entry (.global m) = .absent

namespace Inv

variable {w w' : World} {key : Key} {who : Requester}

theorem init : Inv .init where
  services := nofun
  managers := nofun
  call _ h := absurd rfl h
  answer := nofun
  starts _ _ := rfl
  queries := nofun
  forwarded := nofun
  pending _ _ := ⟨nofun, nofun⟩
  replies := nofun
  failed := nofun

variable {m : ℕ}

/-- The field of another manager is not the one of an owner. -/
theorem global_ne (hkey : key.owner = key) (hm : m ≠ 0) : Key.global m ≠ key := by
  rintro rfl
  exact hm (Key.global.inj hkey).symm

variable {waiters : List Requester}

section

variable (h : Inv w)
include h

/-- A field of an owner without an outcome gets another table. -/
theorem setTable (hkey : key.owner = key) {runner : Option Requester}
    (hentry : w'.entry = update w.entry key (.table runner waiters))
    (hopen : ∀ r, ¬Matches (w.entry key) r) (hstarts : ∀ k, k.owner = k → w'.starts k =
      if k = key then (Entry.table runner waiters).started else w.starts k)
    (hcall : w'.call = w.call) (hreplies : w'.replies = w.replies)
    (hmanagers : ∀ m launch, .manager m launch ∈ (Entry.table runner waiters).requesters →
      key = .global 0 ∧ m ≠ 0 ∧ w.entry (.global m) ≠ .absent)
    (hqueries : runner = none → ∀ who ∈ waiters, who.launch = false) : Inv w' := by
  have hself : w'.entry key = .table runner waiters := by rw [hentry, update_self]
  have hother {k : Key} (hk : k ≠ key) : w'.entry k = w.entry k := by
    rw [hentry, update_of_ne hk]
  have hglobal {m : ℕ} (hm : m ≠ 0) : w'.entry (.global m) = w.entry (.global m) :=
    hother (global_ne hkey hm)
  -- without an outcome at the global manager there is none elsewhere
  have hhandle {e : ℕ} (hglobal₀ : w.entry (.global 0) = .handle e) :
      w'.entry (.global 0) = .handle e := by
    by_cases hk : Key.global 0 = key
    · rw [← hk, hglobal₀] at hopen
      exact absurd rfl (hopen (.handle e))
    · rw [hother hk, hglobal₀]
  refine ⟨fun k hk m launch hmem => ?_, fun m launch hmem => ?_, fun m hm => ?_, fun m r hr => ?_,
    fun k hk => ?_, fun k hk ws heq => ?_, fun m hm e heq => ?_, fun m hm => ?_, fun k r hr => ?_,
    fun e heq m hm => ?_⟩
  · by_cases hk' : k = key
    · subst hk'
      rw [hself] at hmem
      exact hk (hmanagers m launch hmem).1
    · rw [hother hk'] at hmem
      exact h.services k hk m launch hmem
  · have hm : m ≠ 0 ∧ w.entry (.global m) ≠ .absent := by
      by_cases hk' : Key.global 0 = key
      · rw [hk', hself] at hmem
        exact (hmanagers m launch hmem).2
      · rw [hother hk'] at hmem
        exact h.managers m launch hmem
    rwa [hglobal hm.1]
  · rw [hcall] at hm
    obtain ⟨hm₀, hne⟩ := h.call m hm
    exact ⟨hm₀, by rwa [hglobal hm₀]⟩
  · rw [hcall] at hr
    obtain ⟨e, rfl, he⟩ := h.answer m r hr
    exact ⟨e, rfl, hhandle he⟩
  · rw [hstarts k hk]
    split
    next heq => rw [heq, hself]
    next hne => rw [hother hne, h.starts k hk]
  · by_cases hk' : k = key
    · subst hk'
      rw [hself] at heq
      cases heq
      exact hqueries rfl
    · rw [hother hk'] at heq
      exact h.queries k hk ws heq
  · rw [hglobal hm] at heq
    exact hhandle (h.forwarded m hm e heq)
  · rw [hglobal hm]
    exact h.pending m hm
  · rw [hreplies] at hr
    have hmatches := h.replies k r hr
    by_cases hk' : k.owner = key
    · rw [hk'] at hmatches
      exact absurd hmatches (hopen r)
    · rwa [hother hk']
  · by_cases hk' : Key.global 0 = key
    · rw [hk', hself] at heq
      cases heq
    · rw [hother hk'] at heq
      rw [hglobal hm]
      exact h.failed e heq m hm

/-- A coroutine gets the reply for a field with an outcome. -/
theorem reply (hmatches : Matches (w.entry key.owner) r)
    (hwho : ∀ m launch, who = .manager m launch →
      key = .global 0 ∧ m ≠ 0 ∧ w.entry (.global m) ≠ .absent) : Inv (w.reply key r who) := by
  have hreply := replied_reply w key r who
  refine ⟨?_, ?_, fun m hm => ?_, fun m r' hr => ?_, ?_, ?_, ?_, ?_, fun k r' hr => ?_, ?_⟩
  · rw [hreply.entry]
    exact h.services
  · rw [hreply.entry]
    exact h.managers
  · rw [hreply.entry]
    rcases hreply.call m with heq | ⟨⟨launch, hmem⟩, -⟩
    · rw [heq] at hm
      exact h.call m hm
    · exact (hwho m launch (mem_singleton.1 hmem).symm).2
  · rw [hreply.entry]
    rcases hreply.call m with heq | ⟨⟨launch, hmem⟩, heq⟩
    · rw [heq] at hr
      exact h.answer m r' hr
    · rw [heq] at hr
      cases hr
      obtain ⟨rfl, hm, hne⟩ := hwho m launch (mem_singleton.1 hmem).symm
      rcases hmatches.cases with ⟨t, hentry, rfl⟩ | ⟨t, hentry, -⟩
      · exact ⟨t, rfl, hentry⟩
      · exact absurd (h.failed t hentry m hm) hne
  · rw [hreply.entry, hreply.starts]
    exact h.starts
  · rw [hreply.entry]
    exact h.queries
  · rw [hreply.entry]
    exact h.forwarded
  · rw [hreply.entry]
    exact h.pending
  · rw [hreply.entry]
    rcases hreply.replies _ hr with hr | hr
    · exact h.replies k r' hr
    · cases hr
      exact hmatches
  · rw [hreply.entry]
    exact h.failed

theorem launchOrQuery (hkey : key.owner = key) (hwho : ∀ m launch, who = .manager m launch →
      key = .global 0 ∧ m ≠ 0 ∧ w.entry (.global m) ≠ .absent) : Inv (w.launchOrQuery key who) := by
  have hentries {m : ℕ} {launch : Bool} {runner : Option Requester} {waiters : List Requester}
      (hold : .manager m launch ∈ (Entry.table runner waiters).requesters →
        .manager m launch = who ∨ .manager m launch ∈ (w.entry key).requesters)
      (hmem : .manager m launch ∈ (Entry.table runner waiters).requesters) :
      key = .global 0 ∧ m ≠ 0 ∧ w.entry (.global m) ≠ .absent := by
    rcases hold hmem with heq | hmem
    · exact hwho m launch heq.symm
    · by_cases hk : key = .global 0
      · rw [hk] at hmem
        exact ⟨hk, h.managers m launch hmem⟩
      · exact absurd hmem (h.services key hk m launch)
  have hkeep {runner : Option Requester} {waiters : List Requester} (hopen : ∀ r, ¬Matches (w.entry key) r)
      (hstarted : (Entry.table runner waiters).started = (w.entry key).started)
      (hold : ∀ m launch, .manager m launch ∈ (Entry.table runner waiters).requesters →
        .manager m launch = who ∨ .manager m launch ∈ (w.entry key).requesters)
      (hqueries : runner = none → ∀ who ∈ waiters, who.launch = false) :
      Inv (w.setEntry key (.table runner waiters)) := by
    refine h.setTable hkey rfl hopen (fun k hk => ?_) rfl rfl
      (fun m launch => hentries (hold m launch)) hqueries
    split
    next heq =>
      subst heq
      rw [hstarted]
      exact h.starts k hk
    next => rfl
  have hstart {waiters : List Requester} (hopen : ∀ r, ¬Matches (w.entry key) r)
      (hstarted : (w.entry key).started = 0) (hwaiters : (w.entry key).waiters = waiters) :
      Inv ((w.setEntry key (.table (some who) waiters)).start key .newservice) := by
    refine h.setTable hkey rfl hopen (fun k hk => ?_) rfl rfl
      (fun m launch => hentries fun hmem => ?_) nofun
    · change update w.starts key (w.starts key + 1) k = _
      rw [Function.update_apply]
      split
      · rw [h.starts key hkey, hstarted]
        rfl
      · rfl
    · rcases mem_cons.1 hmem with heq | hmem
      · exact .inl heq
      · refine .inr (mem_append_right _ ?_)
        rw [hwaiters]
        exact hmem
  unfold World.launchOrQuery World.waitfor
  cases hentry : w.entry key with
  | handle t =>
    exact h.reply (by rw [hkey, hentry]; rfl) hwho
  | error t =>
    exact h.reply (by rw [hkey, hentry]; rfl) hwho
  | absent =>
    rw [hentry] at hkeep hstart
    cases hlaunch : who.launch with
    | true => exact hstart (fun _ => id) rfl rfl
    | false =>
      refine hkeep (fun _ => id) rfl (fun m launch hmem => .inl (mem_singleton.1 hmem))
        fun _ who' hwho' => ?_
      rw [mem_singleton.1 hwho', hlaunch]
  | table runner waiters =>
    rw [hentry] at hkeep hstart
    have hmore {m : ℕ} {launch : Bool} (runner : Option Requester)
        (hmem : .manager m launch ∈ (Entry.table runner (waiters ++ [who])).requesters) :
        .manager m launch = who ∨
          .manager m launch ∈ (Entry.table runner waiters).requesters := by
      rcases mem_append.1 hmem with hmem | hmem
      · exact .inr (mem_append_left _ hmem)
      · rcases mem_append.1 hmem with hmem | hmem
        · exact .inr (mem_append_right _ hmem)
        · exact .inl (mem_singleton.1 hmem)
    cases runner with
    | some runner => exact hkeep (fun _ => id) rfl (fun m launch => hmore _) nofun
    | none =>
      cases hlaunch : who.launch with
      | true => exact hstart (fun _ => id) rfl rfl
      | false =>
        refine hkeep (fun _ => id) rfl (fun m launch => hmore _) fun _ who' hwho' => ?_
        rcases mem_append.1 hwho' with hwho' | hwho'
        · exact h.queries key hkey waiters hentry who' hwho'
        · rw [mem_singleton.1 hwho', hlaunch]

/-- A manager that forwards gets another table, and a call if it had none. -/
theorem setPending (hm : m ≠ 0) {runner : Requester} (hfailed : ∀ e, w.entry (.global 0) ≠ .error e)
    (hentry : w'.entry = update w.entry (.global m) (.table (some runner) waiters))
    (hstarts : w'.starts = w.starts) (hreplies : w'.replies = w.replies)
    (hcall : ∀ k, w'.call k = w.call k ∨ k = m ∧ ∃ launch, w'.call k = .request launch)
    (hservices : ∀ k launch, .manager k launch ∉ (Entry.table (some runner) waiters).requesters) :
    Inv w' := by
  have hself : w'.entry (.global m) = .table (some runner) waiters := by
    rw [hentry, update_self]
  have hother {k : Key} (hk : k ≠ .global m) : w'.entry k = w.entry k := by
    rw [hentry, update_of_ne hk]
  have howner {k : Key} (hk : k.owner = k) : w'.entry k = w.entry k :=
    hother fun heq => global_ne hk hm heq.symm
  have hmaster : w'.entry (.global 0) = w.entry (.global 0) := howner rfl
  have hpresent {k : ℕ} (hne : w.entry (.global k) ≠ .absent) : w'.entry (.global k) ≠ .absent := by
    by_cases hk : k = m
    · subst hk
      rw [hself]
      exact nofun
    · rwa [hother fun heq => hk (Key.global.inj heq)]
  refine ⟨fun k hk k' launch hmem => ?_, fun k launch hmem => ?_, fun k hk => ?_, fun k r hr => ?_,
    fun k hk => ?_, fun k hk ws heq => ?_, fun k hk t heq => ?_, fun k hk => ?_, fun k r hr => ?_,
    fun e heq => ?_⟩
  · by_cases hkm : k = .global m
    · subst hkm
      rw [hself] at hmem
      exact hservices k' launch hmem
    · rw [hother hkm] at hmem
      exact h.services k hk k' launch hmem
  · rw [hmaster] at hmem
    obtain ⟨hk, hne⟩ := h.managers k launch hmem
    exact ⟨hk, hpresent hne⟩
  · rcases hcall k with heq | ⟨rfl, -⟩
    · rw [heq] at hk
      obtain ⟨hk, hne⟩ := h.call k hk
      exact ⟨hk, hpresent hne⟩
    · refine ⟨hm, ?_⟩
      rw [hself]
      exact nofun
  · rw [hmaster]
    rcases hcall k with heq | ⟨-, launch, heq⟩
    · rw [heq] at hr
      exact h.answer k r hr
    · rw [heq] at hr
      cases hr
  · rw [hstarts, howner hk]
    exact h.starts k hk
  · rw [howner hk] at heq
    exact h.queries k hk ws heq
  · rw [hmaster]
    by_cases hkm : k = m
    · subst hkm
      rw [hself] at heq
      cases heq
    · rw [hother fun heq => hkm (Key.global.inj heq)] at heq
      exact h.forwarded k hk t heq
  · by_cases hkm : k = m
    · subst hkm
      rw [hself]
      exact ⟨nofun, nofun⟩
    · rw [hother fun heq => hkm (Key.global.inj heq)]
      exact h.pending k hk
  · have hkey : k.owner.owner = k.owner := by cases k <;> rfl
    rw [hreplies] at hr
    rw [howner hkey]
    exact h.replies k r hr
  · rw [hmaster] at heq
    exact absurd heq (hfailed e)

/-- `GLAUNCH` or `GQUERY` at a manager that forwards. -/
theorem forward (hm : m ≠ 0) (launch : Bool) (hfailed : ∀ e, w.entry (.global 0) ≠ .error e) :
    Inv (w.waitfor (.global m) (.service launch) (some (.call m launch))) := by
  have hnot := h.services (.global m) fun heq => hm (Key.global.inj heq)
  unfold World.waitfor
  cases hentry : w.entry (.global m) with
  | handle t =>
    refine h.reply ?_ nofun
    change Matches (w.entry (.global 0)) _
    rw [h.forwarded m hm t hentry]
    rfl
  | error e => exact absurd hentry ((h.pending m hm).1 e)
  | absent =>
    refine h.setPending hm hfailed rfl rfl rfl (fun k => ?_) fun k l hmem =>
      nomatch mem_singleton.1 hmem
    by_cases hk : k = m
    · subst hk
      exact .inr ⟨rfl, launch, update_self ..⟩
    · exact .inl (update_of_ne hk _ _)
  | table runner waiters =>
    cases runner with
    | none => exact absurd hentry ((h.pending m hm).2 waiters)
    | some runner =>
      rw [hentry] at hnot
      refine h.setPending hm hfailed rfl rfl rfl (fun k => .inl rfl) fun k l hmem => ?_
      rcases mem_append.1 hmem with hmem | hmem
      · exact hnot k l (mem_append_left _ hmem)
      · rcases mem_append.1 hmem with hmem | hmem
        · exact hnot k l (mem_append_right _ hmem)
        · exact nomatch mem_singleton.1 hmem

/-- The coroutines of a field of an owner get its outcome. -/
theorem settled (hkey : key.owner = key) (hentry : w.entry key = .table (some who) waiters)
    (hmatches : Matches e r)
    (herror : ∀ t, e = .error t → key = .global 0 → ∀ m, m ≠ 0 → w.entry (.global m) = .absent) :
    Inv ((who :: waiters).foldl (fun w => w.reply key r) (w.setEntry key e)) := by
  have hreplied := replied_foldl (w.setEntry key e) key r (who :: waiters)
  set w' := (who :: waiters).foldl (fun w => w.reply key r) (w.setEntry key e)
  have hself : w'.entry key = e := by
    rw [hreplied.entry]
    exact update_self ..
  have hother {k : Key} (hk : k ≠ key) : w'.entry k = w.entry k := by
    rw [hreplied.entry]
    exact update_of_ne hk _ _
  have hglobal {m : ℕ} (hm : m ≠ 0) : w'.entry (.global m) = w.entry (.global m) :=
    hother (global_ne hkey hm)
  have hrequesters : (w.entry key).requesters = who :: waiters := by
    rw [hentry]
    rfl
  -- there was no outcome
  have hopen {t : ℕ} (hmaster : w.entry (.global 0) = .handle t) : w'.entry (.global 0) = .handle t := by
    refine (hother fun hk => ?_).trans hmaster
    rw [← hk, hmaster] at hentry
    cases hentry
  have hnone : e.requesters = [] := by
    rcases hmatches.cases with ⟨t, rfl, -⟩ | ⟨t, rfl, -⟩ <;> rfl
  -- calls of managers are answered if the field is that of the global manager
  have hcall (m : ℕ) : w'.call m = w.call m ∨ w'.call m = .answer r ∧ key = .global 0 ∧ m ≠ 0 ∧
      w.entry (.global m) ≠ .absent := by
    rcases hreplied.call m with heq | ⟨⟨launch, hmem⟩, heq⟩
    · exact .inl heq
    · rw [← hrequesters] at hmem
      by_cases hk : key = .global 0
      · rw [hk] at hmem
        exact .inr ⟨heq, hk, h.managers m launch hmem⟩
      · exact absurd hmem (h.services key hk m launch)
  refine ⟨fun k hk m launch hmem => ?_, fun m launch hmem => ?_, fun m hm => ?_, fun m r' hr => ?_,
    fun k hk => ?_, fun k hk ws heq => ?_, fun m hm t heq => ?_, fun m hm => ?_, fun k r' hr => ?_,
    fun t heq m hm => ?_⟩
  · by_cases hk' : k = key
    · subst hk'
      rw [hself, hnone] at hmem
      cases hmem
    · rw [hother hk'] at hmem
      exact h.services k hk m launch hmem
  · by_cases hk' : Key.global 0 = key
    · rw [hk', hself, hnone] at hmem
      cases hmem
    · rw [hother hk'] at hmem
      obtain ⟨hm, hne⟩ := h.managers m launch hmem
      exact ⟨hm, by rwa [hglobal hm]⟩
  · have hold : m ≠ 0 ∧ w.entry (.global m) ≠ .absent := by
      rcases hcall m with heq | ⟨-, -, hold⟩
      · rw [heq] at hm
        exact h.call m hm
      · exact hold
    exact ⟨hold.1, by rw [hglobal hold.1]; exact hold.2⟩
  · rcases hcall m with heq | ⟨heq, hk, hm, hne⟩
    · rw [heq] at hr
      obtain ⟨t, rfl, ht⟩ := h.answer m r' hr
      exact ⟨t, rfl, hopen ht⟩
    · rw [heq] at hr
      cases hr
      rw [← hk, hself]
      rcases hmatches.cases with ⟨t, rfl, rfl⟩ | ⟨t, rfl, -⟩
      · exact ⟨t, rfl, rfl⟩
      · exact absurd (herror t rfl hk m hm) hne
  · rw [hreplied.starts]
    change w.starts k = _
    rw [h.starts k hk]
    by_cases hk' : k = key
    · subst hk'
      rw [hself, hentry]
      rcases hmatches.cases with ⟨t, rfl, -⟩ | ⟨t, rfl, -⟩ <;> rfl
    · rw [hother hk']
  · by_cases hk' : k = key
    · subst hk'
      rw [hself] at heq
      subst heq
      exact hmatches.elim
    · rw [hother hk'] at heq
      exact h.queries k hk ws heq
  · rw [hglobal hm] at heq
    exact hopen (h.forwarded m hm t heq)
  · rw [hglobal hm]
    exact h.pending m hm
  · rcases hreplied.replies _ hr with hr | hr
    · have hold := h.replies k r' hr
      by_cases hk' : k.owner = key
      · rw [hk', hentry] at hold
        exact hold.elim
      · rwa [hother hk']
    · cases hr
      rw [hkey, hself]
      exact hmatches
  · rw [hglobal hm]
    by_cases hk' : Key.global 0 = key
    · rw [hk', hself] at heq
      exact herror t heq hk'.symm m hm
    · rw [hother hk'] at heq
      exact h.failed t heq m hm

theorem finish (hkey : key.owner = key) (hentry : w.entry key = .table (some who) waiters)
    {outcome : Outcome} (hnil : outcome ≠ .nil)
    (herror : ∀ e, outcome = .error e → key = .global 0 →
      ∀ m, m ≠ 0 → w.entry (.global m) = .absent) : Inv (w.settle key who waiters outcome) := by
  cases outcome with
  | handle t => exact h.settled hkey hentry (e := .handle t) rfl nofun
  | error t =>
    refine h.settled hkey hentry (e := .error t) rfl fun t' ht => ?_
    cases ht
    exact herror t rfl
  | nil => exact absurd rfl hnil

/-- The answer comes to a manager that forwards. -/
theorem arrive (hcall : w.call m = .answer r)
    (hentry : w.entry (.global m) = .table (some who) waiters) :
    Inv ((w.setCall m .none).settle (.global m) who waiters r.first) := by
  obtain ⟨t, rfl, hmaster⟩ := h.answer m r hcall
  obtain ⟨hm, -⟩ := h.call m (by rw [hcall]; exact nofun)
  have hreplied := replied_foldl ((w.setCall m .none).setEntry (.global m) (.handle t)) (.global m)
    (.handle t) (who :: waiters)
  change Inv ((who :: waiters).foldl (fun w => w.reply (.global m) (.handle t))
    ((w.setCall m .none).setEntry (.global m) (.handle t)))
  set w' := (who :: waiters).foldl (fun w => w.reply (.global m) (.handle t))
    ((w.setCall m .none).setEntry (.global m) (.handle t))
  have hself : w'.entry (.global m) = .handle t := by
    rw [hreplied.entry]
    exact update_self ..
  have hother {k : Key} (hk : k ≠ .global m) : w'.entry k = w.entry k := by
    rw [hreplied.entry]
    exact update_of_ne hk _ _
  have howner {k : Key} (hk : k.owner = k) : w'.entry k = w.entry k :=
    hother fun heq => global_ne hk hm heq.symm
  have hpresent {k : ℕ} (hne : w.entry (.global k) ≠ .absent) : w'.entry (.global k) ≠ .absent := by
    by_cases hk : k = m
    · subst hk
      rw [hself]
      exact nofun
    · rwa [hother fun heq => hk (Key.global.inj heq)]
  -- only services have asked this manager
  have hcalls {k : ℕ} (hk : w'.call k ≠ .none) : w'.call k = w.call k := by
    rcases hreplied.call k with heq | ⟨⟨launch, hmem⟩, -⟩
    · by_cases hkm : k = m
      · subst hkm
        exact absurd (heq.trans (update_self ..)) hk
      · exact heq.trans (update_of_ne hkm _ _)
    · refine absurd ?_ (h.services (.global m) (fun heq => hm (Key.global.inj heq)) k launch)
      rw [hentry]
      exact hmem
  refine ⟨fun k hk k' launch hmem => ?_, fun k launch hmem => ?_, fun k hk => ?_, fun k r hr => ?_,
    fun k hk => ?_, fun k hk ws heq => ?_, fun k hk t' heq => ?_, fun k hk => ?_, fun k r hr => ?_,
    fun e heq => ?_⟩
  · by_cases hkm : k = .global m
    · subst hkm
      rw [hself] at hmem
      cases hmem
    · rw [hother hkm] at hmem
      exact h.services k hk k' launch hmem
  · rw [howner rfl] at hmem
    obtain ⟨hk, hne⟩ := h.managers k launch hmem
    exact ⟨hk, hpresent hne⟩
  · rw [hcalls hk] at hk
    obtain ⟨hk, hne⟩ := h.call k hk
    exact ⟨hk, hpresent hne⟩
  · rw [howner rfl]
    have hsame : w'.call k = w.call k := hcalls (by rw [hr]; exact nofun)
    exact h.answer k r (hsame.symm.trans hr)
  · rw [hreplied.starts, howner hk]
    exact h.starts k hk
  · rw [howner hk] at heq
    exact h.queries k hk ws heq
  · rw [howner rfl]
    by_cases hkm : k = m
    · subst hkm
      rw [hself] at heq
      rw [hmaster, heq]
    · rw [hother fun heq => hkm (Key.global.inj heq)] at heq
      exact h.forwarded k hk t' heq
  · by_cases hkm : k = m
    · subst hkm
      rw [hself]
      exact ⟨nofun, nofun⟩
    · rw [hother fun heq => hkm (Key.global.inj heq)]
      exact h.pending k hk
  · have hkey : k.owner.owner = k.owner := by cases k <;> rfl
    rw [howner hkey]
    rcases hreplied.replies _ hr with hr | hr
    · exact h.replies k r hr
    · cases hr
      rw [show (Key.global m).owner = .global 0 from rfl, hmaster]
      rfl
  · rw [howner rfl, hmaster] at heq
    cases heq

/-- The global manager takes the call of another one. -/
theorem taken (hcall : w.call m ≠ .none) : Inv (w.setCall m .taken) where
  services := h.services
  managers := h.managers
  call k hk := by
    by_cases hkm : k = m
    · subst hkm
      exact h.call k hcall
    · refine h.call k fun heq => hk ?_
      exact (update_of_ne hkm _ _).trans heq
  answer k r hr := by
    by_cases hkm : k = m
    · subst hkm
      cases (update_self ..).symm.trans hr
    · exact h.answer k r ((update_of_ne hkm _ _).symm.trans hr)
  starts := h.starts
  queries := h.queries
  forwarded := h.forwarded
  pending := h.pending
  replies := h.replies
  failed := h.failed

theorem step {e : Event} (hok : Orderly w e) (hstep : w.step e = .ok w') : Inv w' := by
  cases e with
  | request m launch =>
    cases hstep
    exact h.launchOrQuery rfl nofun
  | globalRequest m launch =>
    rw [World.step] at hstep
    split at hstep
    next hm =>
      cases hstep
      exact h.launchOrQuery rfl nofun
    next hm =>
      cases hstep
      exact h.forward hm launch (hok hm).1
  | finish key outcome =>
    rw [World.step] at hstep
    split at hstep
    next hkey =>
      cases hentry : w.entry key with
      | absent | handle | error =>
        rw [hentry] at hstep
        cases hstep
      | table runner waiters =>
        rw [hentry] at hstep
        cases runner with
        | none => cases hstep
        | some who =>
          cases hstep
          exact h.finish hkey hentry hok.1 hok.2
    next => cases hstep
  | take m =>
    rw [World.step] at hstep
    cases hcall : w.call m with
    | none | taken | answer =>
      rw [hcall] at hstep
      cases hstep
    | request launch =>
      rw [hcall] at hstep
      cases hstep
      refine (h.taken (by rw [hcall]; exact nofun)).launchOrQuery rfl fun m' l heq => ?_
      cases heq
      exact ⟨rfl, h.call m (by rw [hcall]; exact nofun)⟩
  | arrive m =>
    rw [World.step] at hstep
    cases hcall : w.call m with
    | none | taken | request =>
      rw [hcall] at hstep
      cases hstep
    | answer r =>
      cases hentry : w.entry (.global m) with
      | absent | handle | error =>
        rw [hcall, hentry] at hstep
        cases hstep
      | table runner waiters =>
        rw [hcall, hentry] at hstep
        cases runner with
        | none => cases hstep
        | some who =>
          cases hstep
          exact h.arrive hcall hentry

end

end Inv

end Mtask.ServiceMgr
