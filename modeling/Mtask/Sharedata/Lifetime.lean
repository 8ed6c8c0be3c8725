import Mtask.Lib.References
import Mtask.Lib.Transition
import Mtask.Sharedata.Boxes

/-!
# The lifetime of shared objects

The count of an object is that of the boxes on it, of the answers to `query` that carry it and are
not confirmed, and of the name whose object it is. The answers to `monitor` are not counted. So an
object may be deleted while such an answer is in flight; if this never happens, no object that is
deleted is used in any way.
-/

namespace Mtask.Sharedata.Service

open References Transition
open Function (update_apply)
open List
open Option (bind_eq_some_iff isSome_iff_exists map_eq_some_iff)

/-- The pointer of an answer to `query`. -/
def Reply.counted : Reply → Option Pointer
  | .query _ obj => obj
  | .monitor _ _ => none

/-- The pointer of an answer to `monitor`. -/
def Reply.notified : Reply → Option Pointer
  | .query _ _ => none
  | .monitor _ obj => obj

def Request.counted : Request → Option Pointer
  | .confirm cobj => some cobj
  | _ => none

/-- The references that are counted, apart from those of names. -/
def refs (w : World) : List Pointer :=
  w.boxes.filterMap (Option.map Box.root) ++ w.replies.filterMap Reply.counted ++
    w.requests.filterMap Request.counted

/-- The number of all references that are counted. -/
def held (w : World) (p : Pointer) : ℕ :=
  (refs w).count p + if w.objmap p = some .entry then 1 else 0

def refOf (w : World) (p : Pointer) : Option ℤ := (w.host p).map Host.ref

/-- The counts are right, and nothing that is gone is referred to. -/
structure Inv (w : World) : Prop where
  fault : w.fault = false
  counted : Counted (refOf w) (held w)
  marked : ∀ p, (w.objmap p).isSome = (w.host p).isSome
  pool : ∀ name v, w.pool name = some v → w.objmap v.obj = some .entry
  inj : ∀ name name' v v', w.pool name = some v → w.pool name' = some v' → v.obj = v'.obj →
    name = name'
  notified : ∀ r ∈ w.replies, ∀ p, r.notified = some p → (w.host p).isSome
  linked : Linked w.boxes w.proxies

/-- The service has the same objects, by the same names. -/
structure SameObjects (w w' : World) : Prop where
  pool : ∀ name, (w'.pool name).map Entry.obj = (w.pool name).map Entry.obj
  objmap : w'.objmap = w.objmap
  fault : w'.fault = w.fault

variable {w w' : World} {p : Pointer} {s : Host}

/-! ### Counting references -/

theorem held_of_perm (hrefs : (refs w').Perm (refs w)) (hobjmap : w'.objmap = w.objmap)
    (q : Pointer) : held w' q = held w q := by
  rw [held, held, hrefs.count_eq, hobjmap]

theorem held_of_cons (hrefs : (refs w').Perm (p :: refs w)) (hobjmap : w'.objmap = w.objmap)
    (q : Pointer) : held w' q = held w q + if q = p then 1 else 0 := by
  rw [held, held, hrefs.count_eq, hobjmap, count_cons]
  by_cases hq : q = p
  · subst hq
    simp only [beq_self_eq_true, if_true]
    omega
  · rw [if_neg hq, if_neg (by simpa using Ne.symm hq)]
    rfl

theorem refOf_update (s' : Host) (q : Pointer)
    (hhost : w'.host = Function.update w.host p (some s')) :
    refOf w' q = if q = p then some s'.ref else refOf w q := by
  rw [refOf, hhost, update_apply]
  split <;> rfl

variable {b : ℕ} {box : Box}

theorem mem_refs_of_box (hbox : w.getBox b = some box) : box.root ∈ refs w := by
  have hmem : some box ∈ w.boxes := mem_of_getElem? (getElem?_of_getD hbox)
  exact mem_append_left _ (mem_append_left _ (mem_filterMap.2 ⟨_, hmem, rfl⟩))

theorem mem_refs_of_reply {r : Reply} (hr : r ∈ w.replies) (hp : r.counted = some p) :
    p ∈ refs w :=
  mem_append_left _ (mem_append_right _ (mem_filterMap.2 ⟨r, hr, hp⟩))

variable {r : Request}

theorem mem_refs_of_request (hr : r ∈ w.requests) (hp : r.counted = some p) : p ∈ refs w :=
  mem_append_right _ (mem_filterMap.2 ⟨r, hr, hp⟩)

variable {x : ℕ} {moved : ℕ → Bool} {child : Bool}

namespace Inv

theorem alive (h : Inv w) (hp : p ∈ refs w ∨ w.objmap p = some .entry) :
    ∃ s, w.host p = some s := by
  have hpos : 0 < held w p := by
    unfold held
    rcases hp with hp | hp
    · have := count_pos_iff.2 hp
      omega
    · rw [if_pos hp]
      omega
  obtain ⟨n, hn⟩ := h.counted.alive hpos
  obtain ⟨s, hs, -⟩ := map_eq_some_iff.1 hn
  exact ⟨s, hs⟩

variable {name : Name} {v : Entry}

theorem alive_pool (h : Inv w) (hv : w.pool name = some v) : ∃ s, w.host v.obj = some s :=
  h.alive (.inr (h.pool name v hv))

theorem init : Inv World.init := by
  refine ⟨rfl, ⟨nofun, fun _ _ => rfl⟩, fun _ => rfl, nofun, nofun, nofun,
    ⟨fun x proxy hx => ?_, fun b box n c hb => ?_⟩⟩
  · simp [World.init] at hx
  · simp [World.init] at hb

section

variable (h : Inv w) (hsame : SameObjects w w')
include h hsame

/-- The counts are right, and the service has the same objects. -/
theorem of_counted (hhost : ∀ q, (w'.host q).isSome = (w.host q).isSome)
    (hcounted : Counted (refOf w') (held w'))
    (hreplies : ∀ r ∈ w'.replies, ∀ q, r.notified = some q → (w.host q).isSome)
    (hlinked : Linked w'.boxes w'.proxies) : Inv w' := by
  have hpool {name : Name} {v' : Entry} (hv' : w'.pool name = some v') :
      ∃ v, w.pool name = some v ∧ v.obj = v'.obj := by
    have heq := hsame.pool name
    rw [hv'] at heq
    exact map_eq_some_iff.1 heq.symm
  refine ⟨hsame.fault.trans h.fault, hcounted, fun q => ?_, fun name v' hv' => ?_,
    fun name name' v v' hv hv' heq => ?_, fun r hr q hq => ?_, hlinked⟩
  · rw [hsame.objmap, hhost, h.marked]
  · obtain ⟨v, hv, heq⟩ := hpool hv'
    rw [hsame.objmap, ← heq, h.pool name v hv]
  · obtain ⟨v₁, hv₁, heq₁⟩ := hpool hv
    obtain ⟨v₁', hv₁', heq₁'⟩ := hpool hv'
    exact h.inj name name' v₁ v₁' hv₁ hv₁' (by rw [heq₁, heq₁', heq])
  · rw [hhost]
    exact hreplies r hr q hq

theorem keep (hhost : w'.host = w.host) (hrefs : (refs w').Perm (refs w))
    (hreplies : ∀ r ∈ w'.replies, ∀ q, r.notified = some q → (w.host q).isSome)
    (hlinked : Linked w'.boxes w'.proxies) : Inv w' :=
  h.of_counted hsame (fun q => by rw [hhost])
    (h.counted.congr (fun q => by rw [refOf, refOf, hhost]) (held_of_perm hrefs hsame.objmap))
    hreplies hlinked

theorem acquire (hp : w.host p = some s)
    (hhost : w'.host = Function.update w.host p (some { s with ref := s.ref + 1 }))
    (hrefs : (refs w').Perm (p :: refs w))
    (hreplies : ∀ r ∈ w'.replies, ∀ q, r.notified = some q → (w.host q).isSome)
    (hlinked : Linked w'.boxes w'.proxies) : Inv w' := by
  refine h.of_counted hsame (fun q => ?_) (h.counted.acquire (r := p) (n := s.ref)
    (by rw [refOf, hp]; rfl) (fun q => refOf_update _ q hhost)
    (held_of_cons hrefs hsame.objmap)) hreplies hlinked
  rw [hhost, update_apply]
  split
  next hq => rw [hq, hp]; rfl
  next => rfl

theorem release (hp : w.host p = some s)
    (hhost : w'.host = Function.update w.host p (some { s with ref := s.ref - 1 }))
    (hrefs : (refs w).Perm (p :: refs w'))
    (hreplies : ∀ r ∈ w'.replies, ∀ q, r.notified = some q → (w.host q).isSome)
    (hlinked : Linked w'.boxes w'.proxies) : Inv w' := by
  refine h.of_counted hsame (fun q => ?_) (h.counted.release (r := p) (n := s.ref)
    (by rw [refOf, hp]; rfl) (fun q => refOf_update _ q hhost)
    (held_of_cons hrefs hsame.objmap.symm)) hreplies hlinked
  rw [hhost, update_apply]
  split
  next hq => rw [hq, hp]; rfl
  next => rfl

end

/-! ### The service -/

theorem newobj (h : Inv w) (name : Name) (hp : w.host p = none) : Inv (w.newobj name p) := by
  have hnone : w.objmap p = none := by
    have hmarked := h.marked p
    rw [hp] at hmarked
    exact Option.not_isSome_iff_eq_none.1 (by rw [hmarked]; exact Bool.false_ne_true)
  have hhost (q : Pointer) :
      (w.newobj name p).host q = if q = p then some ⟨1, false⟩ else w.host q :=
    update_apply ..
  have hobjmap (q : Pointer) :
      (w.newobj name p).objmap q = if q = p then some .entry else w.objmap q :=
    update_apply ..
  have hpool (n : Name) :
      (w.newobj name p).pool n = if n = name then some ⟨p, []⟩ else w.pool n :=
    update_apply ..
  -- the objects of the other names are other ones
  have hother {n : Name} {v : Entry} (hv : w.pool n = some v) : v.obj ≠ p := by
    rintro rfl
    rw [h.pool n v hv] at hnone
    cases hnone
  refine ⟨h.fault, h.counted.alloc (r := p) (k := 1) (by rw [refOf, hp]; rfl) (fun q => ?_)
    fun q => ?_, fun q => ?_, fun n v hv => ?_, fun n n' v v' hv hv' heq => ?_,
    fun r hr q hq => ?_, h.linked⟩
  · rw [refOf, hhost]
    split <;> rfl
  · rw [held, held, hobjmap]
    by_cases hq : q = p
    · rw [if_pos hq, if_pos rfl, hq, hnone, if_neg nofun, if_pos rfl]
      rfl
    · rw [if_neg hq, if_neg hq]
      rfl
  · rw [hhost, hobjmap]
    split
    · rfl
    · exact h.marked q
  · rw [hpool] at hv
    rw [hobjmap]
    split at hv
    · cases hv
      rw [if_pos rfl]
    · rw [if_neg (hother hv), h.pool n v hv]
  · rw [hpool] at hv hv'
    split at hv <;> split at hv'
    next hn hn' => rw [hn, hn']
    · cases hv
      exact absurd heq.symm (hother hv')
    · cases hv'
      exact absurd heq (hother hv)
    · exact h.inj n n' v v' hv hv' heq
  · rw [hhost]
    split
    · rfl
    · exact h.notified r hr q hq

theorem supersede (h : Inv w) (hname : w.pool name = some v) :
    Inv (w.supersede name v.obj) ∧ ((w.supersede name v.obj).host v.obj).isSome ∧
      (w.supersede name v.obj).pool name = none ∧
      ∀ q, w.host q = none → (w.supersede name v.obj).host q = none := by
  obtain ⟨s, hs⟩ := h.alive_pool hname
  have heq : w.supersede name v.obj = { w with
      objmap := Function.update w.objmap v.obj (some .superseded)
      pool := Function.update w.pool name none
      poolCount := Function.update w.poolCount name none
      host := Function.update w.host v.obj (some { s with ref := s.ref - 1 }) } := by
    simp only [World.supersede, World.decref, World.access, hs]
  have hhost (q : Pointer) : (w.supersede name v.obj).host q =
      if q = v.obj then some { s with ref := s.ref - 1 } else w.host q := by
    rw [heq]
    exact update_apply ..
  have hobjmap (q : Pointer) : (w.supersede name v.obj).objmap q =
      if q = v.obj then some .superseded else w.objmap q := by
    rw [heq]
    exact update_apply ..
  have hpool (n : Name) :
      (w.supersede name v.obj).pool n = if n = name then none else w.pool n := by
    rw [heq]
    exact update_apply ..
  have hold {n : Name} {v' : Entry} (hv' : (w.supersede name v.obj).pool n = some v') :
      n ≠ name ∧ w.pool n = some v' := by
    rw [hpool] at hv'
    split at hv'
    · cases hv'
    next hne => exact ⟨hne, hv'⟩
  have hrefs : refs (w.supersede name v.obj) = refs w := by rw [heq]; rfl
  refine ⟨⟨by rw [heq]; exact h.fault, ?_, fun q => ?_, fun n v' hv' => ?_,
    fun n n' v₁ v₁' hv₁ hv₁' => h.inj n n' v₁ v₁' (hold hv₁).2 (hold hv₁').2, fun r hr q hq => ?_,
    by rw [heq]; exact h.linked⟩, ?_, ?_, fun q hq => ?_⟩
  · refine h.counted.release (r := v.obj) (n := s.ref) (by rw [refOf, hs]; rfl) (fun q => ?_)
      fun q => ?_
    · rw [refOf, hhost]
      split <;> rfl
    · rw [held, held, hobjmap, hrefs]
      by_cases hq : q = v.obj
      · rw [hq, h.pool name v hname, if_pos rfl, if_pos rfl, if_pos rfl, if_neg nofun]
      · rw [if_neg hq, if_neg hq]
        rfl
  · rw [hobjmap, hhost]
    split
    · rfl
    · exact h.marked q
  · obtain ⟨hne, hv'⟩ := hold hv'
    rw [hobjmap, if_neg fun heq => hne (h.inj n name v' v hv' hname heq), h.pool n v' hv']
  · rw [heq] at hr
    rw [hhost]
    split
    · rfl
    · exact h.notified r hr q hq
  · simp only [hhost, if_true, Option.isSome_some]
  · rw [hpool, if_pos rfl]
  · rw [hhost, if_neg _, hq]
    rintro rfl
    rw [hs] at hq
    cases hq

theorem refs_respond (w : World) (watch : List Watcher) (obj : Option Pointer) :
    (refs (w.respond watch obj)).Perm (refs w) := by
  have hnone : (watch.map (Reply.monitor · obj)).filterMap Reply.counted = [] := by
    rw [filterMap_eq_nil_iff]
    rintro r hr
    obtain ⟨watcher, -, rfl⟩ := mem_map.1 hr
    rfl
  simp only [refs, World.respond, filterMap_append, hnone, append_nil]
  exact .refl _

section

variable (h : Inv w)
include h

theorem respond (watch : List Watcher) {obj : Option Pointer}
    (hobj : ∀ q, obj = some q → (w.host q).isSome) : Inv (w.respond watch obj) := by
  refine h.keep ⟨fun _ => rfl, rfl, rfl⟩ rfl (refs_respond w watch obj)
    (fun r hr q hq => ?_) h.linked
  rcases mem_append.1 hr with hr | hr
  · exact h.notified r hr q hq
  · obtain ⟨watcher, -, rfl⟩ := mem_map.1 hr
    exact hobj q hq

theorem cmdNew (name : Name) (t : Datum) (hp : w.host p = none) :
    Inv (w.cmdNew name t p).1 ∧ ((w.cmdNew name t p).2 ≠ .raised →
      (w.cmdNew name t p).1 = w.newobj name p) := by
  unfold World.cmdNew
  split
  · cases hname : w.pool name with
    | some v => exact ⟨h, fun hne => absurd rfl hne⟩
    | none =>
      dsimp only
      split
      · exact ⟨h.newobj name hp, fun _ => rfl⟩
      · exact ⟨h, fun hne => absurd rfl hne⟩
  · exact ⟨h, fun hne => absurd rfl hne⟩

theorem cmdDelete (name : Name) : Inv (w.cmdDelete name).1 := by
  unfold World.cmdDelete
  cases hname : w.pool name with
  | none => exact h
  | some v => exact (h.supersede hname).1.respond v.watch nofun

theorem markdirty (hp : (w.host p).isSome) :
    Inv (w.markdirty p) ∧ ∀ q, (w.host q).isSome → ((w.markdirty p).host q).isSome := by
  obtain ⟨s, hs⟩ := isSome_iff_exists.1 hp
  have heq : w.markdirty p =
      { w with host := Function.update w.host p (some { s with dirty := true }) } := by
    simp only [World.markdirty, World.access, hs]
  have hsome (q : Pointer) : ((w.markdirty p).host q).isSome = (w.host q).isSome := by
    rw [heq]
    change (Function.update w.host p _ q).isSome = _
    rw [update_apply]
    split
    next hq => rw [hq, hs]; rfl
    next => rfl
  refine ⟨?_, fun q hq => by rwa [hsome]⟩
  have hrefs : ∀ q, held (w.markdirty p) q = held w q := by
    rw [heq]
    exact fun _ => rfl
  refine h.of_counted (by rw [heq]; exact ⟨fun _ => rfl, rfl, rfl⟩) hsome (h.counted.congr
    (fun q => ?_) hrefs) (by rw [heq]; exact h.notified) (by rw [heq]; exact h.linked)
  rw [heq, refOf_update _ q rfl]
  split
  next hq => rw [hq, refOf, hs]; rfl
  next => rfl

theorem cmdUpdate (name : Name) (t : Datum) (hp : w.host p = none) :
    Inv (w.cmdUpdate name t p).1 := by
  unfold World.cmdUpdate
  cases hname : w.pool name with
  | none => exact (h.cmdNew name t hp).1
  | some v =>
    obtain ⟨hsup, hold, -, hnone⟩ := h.supersede hname
    obtain ⟨hnew, heq⟩ := hsup.cmdNew name t (hnone p hp)
    dsimp only
    have hlast (hne : ((w.supersede name v.obj).cmdNew name t p).2 ≠ .raised) :
        Inv ((((w.supersede name v.obj).cmdNew name t p).1.markdirty v.obj).respond v.watch
          (some p)) := by
      rw [heq hne] at hnew ⊢
      have hhost (q : Pointer) (hq : ((w.supersede name v.obj).host q).isSome ∨ q = p) :
          (((w.supersede name v.obj).newobj name p).host q).isSome := by
        change (Function.update (w.supersede name v.obj).host p (some ⟨1, false⟩) q).isSome
        rw [update_apply]
        split
        · rfl
        next hne => exact hq.resolve_right hne
      obtain ⟨hdirty, hsome⟩ := hnew.markdirty (hhost v.obj (.inl hold))
      exact hdirty.respond v.watch fun q hq => hsome q (hhost q (.inr (Option.some.inj hq).symm))
    revert hnew hlast
    rcases (w.supersede name v.obj).cmdNew name t p with ⟨w₁, _ | _ | _⟩
    · exact fun _ hlast => hlast nofun
    · exact fun _ hlast => hlast nofun
    · exact fun hnew _ => hnew

theorem serve_query (name : Name) (test : Watcher → Bool) : Inv (w.serve (.query name) test) := by
  have hold {obj : Option Pointer} {r : Reply} (hr : r ∈ w.replies ++ [.query name obj])
      (q : Pointer) (hq : r.notified = some q) : (w.host q).isSome := by
    rcases mem_append.1 hr with hr | hr
    · exact h.notified r hr q hq
    · rw [mem_singleton.1 hr] at hq
      cases hq
  cases hname : w.pool name with
  | none =>
    have heq : w.serve (.query name) test =
        { w with replies := w.replies ++ [.query name none] } := by
      simp only [World.serve, World.cmdQuery, hname]
    rw [heq]
    refine h.keep ⟨fun _ => rfl, rfl, rfl⟩ rfl ?_ (fun r => hold) h.linked
    simp only [refs, filterMap_append]
    exact .of_eq (by simp [Reply.counted])
  | some v =>
    obtain ⟨s, hs⟩ := h.alive_pool hname
    have heq : w.serve (.query name) test = { w with
        replies := w.replies ++ [.query name (some v.obj)]
        host := Function.update w.host v.obj (some { s with ref := s.ref + 1 }) } := by
      simp only [World.serve, World.cmdQuery, hname, World.incref, World.access, hs]
    rw [heq]
    refine h.acquire ⟨fun _ => rfl, rfl, rfl⟩ hs rfl ?_ (fun r => hold) h.linked
    have hone : [Reply.query name (some v.obj)].filterMap Reply.counted = [v.obj] := rfl
    rw [perm_iff_count]
    intro q
    simp only [refs, filterMap_append, hone, count_append, count_cons,
      count_nil]
    omega

theorem serve_confirm {cobj : Pointer} (hr : .confirm cobj ∈ w.requests) (test : Watcher → Bool) :
    Inv ({ w with requests := w.requests.erase (.confirm cobj) }.serve (.confirm cobj) test) := by
  have hmem : cobj ∈ refs w := mem_refs_of_request hr rfl
  obtain ⟨s, hs⟩ := h.alive (.inl hmem)
  have hmarked : ∃ m, w.objmap cobj = some m := by
    refine isSome_iff_exists.1 ?_
    rw [h.marked, hs]
    rfl
  obtain ⟨m, hm⟩ := hmarked
  have heq : { w with requests := w.requests.erase (.confirm cobj) }.serve (.confirm cobj) test =
      { w with
        requests := w.requests.erase (.confirm cobj)
        host := Function.update w.host cobj (some { s with ref := s.ref - 1 }) } := by
    simp only [World.serve, World.cmdConfirm, hm, World.decref, World.access, hs]
  rw [heq]
  refine h.release ⟨fun _ => rfl, rfl, rfl⟩ hs rfl ?_ h.notified h.linked
  have hperm := (perm_cons_erase hr).filterMap Request.counted
  rw [filterMap_cons_some (f := Request.counted) rfl] at hperm
  exact (hperm.append_left _).trans perm_middle

/-- A request without a reference is taken from the list. -/
theorem erase_request (hr : r ∈ w.requests) (hnone : r.counted = none) :
    Inv { w with requests := w.requests.erase r } := by
  refine h.keep ⟨fun _ => rfl, rfl, rfl⟩ rfl ?_ h.notified h.linked
  have hperm := (perm_cons_erase hr).filterMap Request.counted
  rw [filterMap_cons_none hnone] at hperm
  exact hperm.symm.append_left _

end

/-- `CMD.monitor` raises, has another object, or lets the coroutine wait. -/
theorem cmdMonitor_cases (w : World) (watcher : Watcher) (obj : Pointer) (test : Watcher → Bool) :
    w.cmdMonitor watcher obj test = (w, .raised) ∨
      ∃ v, w.pool watcher.name = some v ∧
        (w.cmdMonitor watcher obj test = (w, .value (some v.obj)) ∨
          ∃ watch count, w.cmdMonitor watcher obj test = ({ w with
            pool := Function.update w.pool watcher.name (some ⟨v.obj, watch⟩)
            poolCount := Function.update w.poolCount watcher.name (some count) }, .noret)) := by
  unfold World.cmdMonitor
  cases hname : w.pool watcher.name with
  | none => exact .inl rfl
  | some v =>
    by_cases hobj : obj ≠ v.obj
    · simp only [if_pos hobj]
      exact .inr ⟨v, rfl, .inl rfl⟩
    · simp only [if_neg hobj]
      cases hcount : w.poolCount watcher.name with
      | none => exact .inl rfl
      | some count => exact .inr ⟨v, rfl, .inr ⟨_, _, rfl⟩⟩

theorem serve_monitor (h : Inv w) (watcher : Watcher) (obj : Pointer) (test : Watcher → Bool) :
    Inv (w.serve (.monitor watcher obj) test) := by
  have hanswer (r : Option Pointer) (hr : ∀ q, r = some q → (w.host q).isSome) :
      Inv { w with replies := w.replies ++ [.monitor watcher r] } :=
    h.respond [watcher] hr
  unfold World.serve
  rcases cmdMonitor_cases w watcher obj test with hrun | ⟨v, hname, hrun | ⟨watch, count, hrun⟩⟩
  · simp only [hrun]
    exact hanswer none nofun
  · obtain ⟨s, hs⟩ := h.alive_pool hname
    simp only [hrun]
    exact hanswer (some v.obj) fun q hq => by rw [← Option.some.inj hq, hs]; rfl
  · simp only [hrun]
    refine h.keep ⟨fun name => ?_, rfl, rfl⟩ rfl (.refl _) h.notified h.linked
    change (Function.update w.pool watcher.name _ name).map Entry.obj = _
    rw [update_apply]
    split
    next hn => rw [hn, hname]; rfl
    next => rfl

/-! ### The clients -/

theorem readobj_eq (hp : w.host p = some s) : w.readobj p = w := by
  rw [World.readobj, if_pos (by rw [hp]; rfl)]

theorem alive_box (h : Inv w) (hbox : w.getBox b = some box) : ∃ s, w.host box.root = some s :=
  h.alive (.inl (mem_refs_of_box hbox))

theorem lboxconf_eq (hp : w.host p = some s) : w.lboxconf p = { w with
    boxes := w.boxes ++ [some ⟨p, none, false⟩]
    host := Function.update w.host p (some { s with ref := s.ref + 1 }) } := by
  simp only [World.lboxconf, World.incref, World.access, hp]

section

variable (h : Inv w)
include h

/-- The answer to a query is boxed, and the box has a reference as well. -/
theorem onQuery (hr : .query name (some p) ∈ w.replies) :
    Inv ({ w with replies := w.replies.erase (.query name (some p)) }.onQuery name p) := by
  obtain ⟨s, hs⟩ := h.alive (.inl (mem_refs_of_reply hr rfl))
  have heq : { w with replies := w.replies.erase (.query name (some p)) }.onQuery name p = { w with
      replies := w.replies.erase (.query name (some p))
      boxes := w.boxes ++ [some ⟨p, none, false⟩]
      host := Function.update w.host p (some { s with ref := s.ref + 1 })
      proxies := w.proxies ++ [some ⟨w.boxes.length, w.proxies.length, name⟩]
      requests := w.requests ++ [.confirm p, .monitor ⟨w.proxies.length, name⟩ p] } := by
    simp only [World.onQuery, World.lboxconf, World.incref, World.access, hs]
  rw [heq]
  have hlinked := (h.linked.box p).newProxy ⟨w.boxes.length, w.proxies.length, name⟩
    ⟨⟨p, none, false⟩, by rw [getD_eq_getElem?_getD, getElem?_concat_length]; rfl, rfl⟩
  refine h.acquire ⟨fun _ => rfl, rfl, rfl⟩ hs rfl ?_
    (fun r hr => h.notified r (mem_of_mem_erase hr)) hlinked
  have hreply := (perm_cons_erase hr).filterMap Reply.counted
  rw [filterMap_cons_some (f := Reply.counted) rfl] at hreply
  have hbox : [some (⟨p, none, false⟩ : Box)].filterMap (Option.map Box.root) = [p] := rfl
  have hrequests : [Request.confirm p, .monitor ⟨w.proxies.length, name⟩ p].filterMap
      Request.counted = [p] := rfl
  rw [perm_iff_count]
  intro q
  have hcount := hreply.count_eq q
  simp only [refs, filterMap_append, hbox, hrequests, count_append, count_cons,
    count_nil] at hcount ⊢
  omega

/-- An answer without a reference is taken from the list. -/
theorem erase_reply {r : Reply} (hr : r ∈ w.replies) (hnone : r.counted = none) :
    Inv { w with replies := w.replies.erase r } := by
  refine h.keep ⟨fun _ => rfl, rfl, rfl⟩ rfl ?_
    (fun r' hr' => h.notified r' (mem_of_mem_erase hr')) h.linked
  have hperm := (perm_cons_erase hr).filterMap Reply.counted
  rw [filterMap_cons_none hnone] at hperm
  exact (hperm.symm.append_left _).append_right _

theorem onMonitor (watcher : Watcher) (hbox : w.getBox b = some box) (hp : w.host p = some s) :
    Inv (w.onMonitor watcher b box p) := by
  obtain ⟨s', hs'⟩ := h.alive_box hbox
  unfold World.onMonitor
  simp only [readobj_eq hs', lboxconf_eq hp]
  have hnew : [some (⟨p, none, false⟩ : Box)].filterMap (Option.map Box.root) = [p] := rfl
  have hboxed : Inv { w with
      boxes := w.boxes ++ [some ⟨p, none, false⟩]
      host := Function.update w.host p (some { s with ref := s.ref + 1 }) } := by
    refine h.acquire ⟨fun _ => rfl, rfl, rfl⟩ hp rfl ?_ h.notified (h.linked.box p)
    rw [perm_iff_count]
    intro q
    simp only [refs, filterMap_append, hnew, count_append, count_cons,
      count_nil]
    omega
  split
  · split
    · exact hboxed
    · have hlt := (List.getElem?_eq_some_iff.1 (getElem?_of_getD hbox)).1
      have hlinked := (h.linked.box p).lupdate (b := b) (c := w.boxes.length) (n := p)
        (getD_append_none hbox)
        (by rw [getD_eq_getElem?_getD, getElem?_concat_length]; rfl) rfl rfl
        (Nat.ne_of_lt hlt)
      refine hboxed.keep ⟨fun _ => rfl, rfl, rfl⟩ rfl ?_ hboxed.notified hlinked
      have hroots := filterMap_set (f := Option.map Box.root)
        (l := w.boxes ++ [some ⟨p, none, false⟩])
        (x := some { box with update := some (p, w.boxes.length) })
        (getElem?_of_getD (getD_append_none hbox)) rfl
      have hrequest : [Request.monitor watcher p].filterMap Request.counted = [] := rfl
      simp only [refs, World.lupdate, hroots, filterMap_append, hrequest, append_nil]
      exact .refl _
  · exact h

theorem moveProxies (root : ℕ) (moved : ℕ → Bool)
    (hb : ∃ box, w.getBox b = some box ∧ box.condemned = false) :
    Inv (w.moveProxies root moved b) := by
  refine h.keep ⟨fun _ => rfl, rfl, rfl⟩ rfl (.refl _) h.notified
    (h.linked.move (f := fun x proxy =>
      if x = root ∨ proxy.root = root ∧ moved x then { proxy with gcobj := b } else proxy)
      fun x proxy hx => ?_)
  split
  · exact hb
  · exact h.linked.proxy x proxy hx

theorem getcobj {proxy : Proxy} (hx : w.getProxy x = some proxy)
    (hbox : w.getBox proxy.gcobj = some box) (moved : ℕ → Bool) :
    Inv (w.getcobj x proxy box moved).1 := by
  obtain ⟨s, hs⟩ := h.alive_box hbox
  obtain ⟨box', hbox', hlive⟩ := h.linked.proxy x proxy hx
  obtain rfl : box = box' := Option.some.inj (hbox.symm.trans hbox')
  unfold World.getcobj
  rw [readobj_eq hs]
  dsimp only
  split
  · cases hupdate : box.update with
    | none => exact h
    | some update =>
      obtain ⟨new, hnew, hlive', hroot⟩ :=
        h.linked.update proxy.gcobj box update.1 update.2 hbox hlive hupdate
      obtain ⟨s', hs'⟩ := h.alive_box hnew
      rw [hroot] at hs'
      dsimp only
      rw [readobj_eq hs']
      exact h.moveProxies proxy.root moved ⟨new, hnew, hlive'⟩
  · exact h

theorem index (hrun : w.index x moved child = some w') : Inv w' := by
  unfold World.index at hrun
  obtain ⟨proxy, hx, hrun⟩ := bind_eq_some_iff.1 hrun
  obtain ⟨box, hbox, hrun⟩ := bind_eq_some_iff.1 hrun
  have hgot := h.getcobj hx hbox moved
  revert hgot hrun
  rcases w.getcobj x proxy box moved with ⟨w₁, _ | _⟩
  · intro hrun hgot
    cases hrun
    exact hgot
  · intro hrun hgot
    obtain ⟨proxy', hx', hrun⟩ := bind_eq_some_iff.1 hrun
    obtain ⟨box', hbox', hrun⟩ := bind_eq_some_iff.1 hrun
    obtain ⟨s, hs⟩ := hgot.alive_box hbox'
    simp only [readobj_eq hs] at hrun
    split at hrun
    · cases hrun
      exact hgot.keep ⟨fun _ => rfl, rfl, rfl⟩ rfl (.refl _) hgot.notified
        (hgot.linked.newProxy _ (hgot.linked.proxy x proxy' hx'))
    · cases hrun
      exact hgot

theorem drop (hrun : w.drop x = some w') : Inv w' := by
  unfold World.drop at hrun
  obtain ⟨proxy, -, hrun⟩ := bind_eq_some_iff.1 hrun
  dsimp only at hrun
  split at hrun
  · cases hrun
  · cases hrun
    exact h.keep ⟨fun _ => rfl, rfl, rfl⟩ rfl (.refl _) h.notified (h.linked.drop x)

theorem condemn {garbage : List ℕ} (hrun : w.condemn garbage = some w') : Inv w' := by
  unfold World.condemn at hrun
  split at hrun
  next hall =>
    cases hrun
    have hunreachable (b : ℕ) (hb : b ∈ garbage) := all_eq_true.1 hall b hb
    have hproxies (x : ℕ) (proxy : Proxy) (hx : w.getProxy x = some proxy) :
        proxy.gcobj ∉ garbage := by
      intro hmem
      have hall := all_eq_true.1 (Bool.and_eq_true_iff.1 (hunreachable _ hmem)).1
      have hne := hall _ (mem_of_getElem? (getElem?_of_getD hx))
      simp at hne
    have hboxes (b : ℕ) (box : Box) (n : Pointer) (c : ℕ) (hb : w.getBox b = some box)
        (hlive : box.condemned = false) (hupdate : box.update = some (n, c)) (hnot : b ∉ garbage) :
        c ∉ garbage := by
      intro hmem
      have hall := all_eq_true.1 (Bool.and_eq_true_iff.1 (hunreachable _ hmem)).2
      have hlt := (List.getElem?_eq_some_iff.1 (getElem?_of_getD hb)).1
      have hne := hall b (mem_range.2 hlt)
      simp [hnot, hb, hlive, hupdate] at hne
    refine h.keep ⟨fun _ => rfl, rfl, rfl⟩ rfl ?_ h.notified (h.linked.condemn hproxies hboxes)
    have hroots := filterMap_mapIdx (f := Box.mark garbage) (fun b box => by
      unfold Box.mark
      split <;> rfl) w.boxes
    simp only [refs, hroots]
    exact .refl _
  next => cases hrun

theorem releaseobj (hrun : w.releaseobj b = some w') : Inv w' := by
  unfold World.releaseobj at hrun
  obtain ⟨box, hbox, hrun⟩ := bind_eq_some_iff.1 hrun
  obtain ⟨s, hs⟩ := h.alive_box hbox
  dsimp only at hrun
  split at hrun
  next hcond =>
    simp only [World.decref, World.access, hs] at hrun
    cases hrun
    refine h.release ⟨fun _ => rfl, rfl, rfl⟩ hs rfl ?_ h.notified (h.linked.releaseobj hbox hcond)
    have hroots := perm_filterMap_set (f := Option.map Box.root) (x := none)
      (getElem?_of_getD hbox) rfl rfl
    exact (hroots.append_right _).append_right _
  next => cases hrun

/-- The loop of `collectobj` does nothing, or it deletes an object. -/
theorem collectobj_cases (p : Pointer) :
    w.collectobj p = w ∨ ∃ s, w.objmap p = some .superseded ∧ w.host p = some s ∧ s.ref ≤ 0 ∧
      w.collectobj p = { w with
        objmap := Function.update w.objmap p none
        host := Function.update w.host p none } := by
  unfold World.collectobj
  cases hm : w.objmap p with
  | none => exact .inl rfl
  | some m =>
    cases m with
    | entry => exact .inl rfl
    | superseded =>
      cases hs : w.host p with
      | none =>
        have hmarked := h.marked p
        rw [hm, hs] at hmarked
        cases hmarked
      | some s =>
        dsimp only
        split
        next hle => exact .inr ⟨s, rfl, rfl, hle, rfl⟩
        next => exact .inl rfl

/-- An object without references is deleted, if no answer to `monitor` carries it. -/
theorem collectobj
    (hnot : ∀ r ∈ w.replies, r.notified = some p → ∃ s, w.host p = some s ∧ 0 < s.ref) :
    Inv (w.collectobj p) := by
  rcases h.collectobj_cases p with heq | ⟨s, hm, hs, hle, heq⟩
  · rwa [heq]
  · rw [heq]
    have hobjmap (q : Pointer) : Function.update w.objmap p none q =
        if q = p then none else w.objmap q := update_apply ..
    have hhost (q : Pointer) : Function.update w.host p none q =
        if q = p then none else w.host q := update_apply ..
    refine ⟨h.fault, ?_, fun q => ?_, fun name v hv => ?_, h.inj, fun r hr q hq => ?_, h.linked⟩
    · refine (h.counted.free (r := p) (n := s.ref) (by rw [refOf, hs]; rfl) hle
        fun _ => rfl).congr (fun q => ?_)
        fun q => ?_
      · rw [refOf]
        change (Function.update w.host p none q).map Host.ref = _
        rw [hhost]
        split <;> rfl
      · rw [held, held]
        change (refs w).count q +
          (if Function.update w.objmap p none q = some .entry then 1 else 0) = _
        rw [hobjmap]
        by_cases hq : q = p
        · rw [if_pos hq, hq, hm, if_neg nofun, if_neg nofun]
        · rw [if_neg hq]
    · change (Function.update w.objmap p none q).isSome = (Function.update w.host p none q).isSome
      rw [hobjmap, hhost]
      split
      · rfl
      · exact h.marked q
    · have hentry := h.pool name v hv
      change Function.update w.objmap p none v.obj = _
      rw [hobjmap, if_neg _, hentry]
      rintro rfl
      rw [hm] at hentry
      cases hentry
    · change (Function.update w.host p none q).isSome
      rw [hhost, if_neg _]
      · exact h.notified r hr q hq
      · rintro rfl
        obtain ⟨s', hs', hpos⟩ := hnot r hr hq
        rw [hs] at hs'
        cases hs'
        omega

end

end Inv

/-! ### Runs -/

/-- When `collectobj` looks at an object, the object has a reference or no answer to `monitor`
carries it. -/
def Settled (w : World) (event : World.Event) : Prop :=
  ∀ p, event = .collectobj p → ∀ r ∈ w.replies, r.notified = some p →
    ∃ s, w.host p = some s ∧ 0 < s.ref

variable {reply : Reply}

theorem Inv.receive (h : Inv w) (hr : reply ∈ w.replies)
    (hrun : { w with replies := w.replies.erase reply }.receive reply = some w') : Inv w' := by
  match reply with
  | .query name none =>
    cases hrun
    exact h.erase_reply hr rfl
  | .query name (some p) =>
    cases hrun
    exact h.onQuery hr
  | .monitor watcher none =>
    cases hrun
    exact h.erase_reply hr rfl
  | .monitor watcher (some p) =>
    obtain ⟨root, hroot, hrun⟩ := bind_eq_some_iff.1 hrun
    obtain ⟨box, hbox, hrun⟩ := bind_eq_some_iff.1 hrun
    cases hrun
    obtain ⟨s, hs⟩ := isSome_iff_exists.1 (h.notified _ hr p rfl)
    exact (h.erase_reply hr rfl).onMonitor watcher hbox hs

variable {event : World.Event}

theorem Inv.step (h : Inv w) (hok : Settled w event) (hrun : w.step event = .ok w') : Inv w' := by
  have hif {c : Prop} [Decidable c] {v : World} {o : Option World}
      (hv : (if c then o else none) = some v) : c ∧ o = some v := by
    split at hv
    next hc => exact ⟨hc, hv⟩
    next => cases hv
  have hv := World.next_of_step hrun
  cases event with
  | new name t p =>
    obtain ⟨hp, hv⟩ := hif hv
    cases hv
    exact (h.cmdNew name t (Option.isNone_iff_eq_none.1 hp)).1
  | update name t p =>
    obtain ⟨hp, hv⟩ := hif hv
    cases hv
    exact h.cmdUpdate name t (Option.isNone_iff_eq_none.1 hp)
  | delete name =>
    cases hv
    exact h.cmdDelete name
  | query name =>
    cases hv
    refine h.keep ⟨fun _ => rfl, rfl, rfl⟩ rfl ?_ h.notified h.linked
    have hnone : [Request.query name].filterMap Request.counted = [] := rfl
    simp only [refs, filterMap_append, hnone, append_nil]
    exact .refl _
  | serve request test =>
    obtain ⟨hr, hv⟩ := hif hv
    cases hv
    cases request with
    | query name => exact (h.erase_request hr rfl).serve_query name test
    | confirm cobj => exact h.serve_confirm hr test
    | monitor watcher obj => exact (h.erase_request hr rfl).serve_monitor watcher obj test
  | receive reply =>
    obtain ⟨hr, hv⟩ := hif hv
    exact h.receive hr hv
  | index x moved child => exact h.index hv
  | drop x => exact h.drop hv
  | condemn garbage => exact h.condemn hv
  | releaseobj b => exact h.releaseobj hv
  | collectobj p =>
    cases hv
    exact h.collectobj (hok p rfl)

/-! ### What is deleted -/

/-- No object is deleted. -/
def Kept (w w' : World) : Prop := ∀ p, (w.host p).isSome → (w'.host p).isSome

namespace Kept

theorem of_eq (h : w'.host = w.host) : Kept w w' := fun p hp => by rwa [h]

theorem trans {w'' : World} (h : Kept w w') (h' : Kept w' w'') : Kept w w'' :=
  fun p hp => h' p (h p hp)

theorem update (w : World) (p : Pointer) (s : Host)
    (h : w'.host = Function.update w.host p (some s)) :
    Kept w w' := by
  intro q hq
  rw [h, update_apply]
  split
  · rfl
  · exact hq

theorem access (w : World) (p : Pointer) (f : Host → Host) : Kept w (w.access p f) := by
  unfold World.access
  cases w.host p with
  | some s => exact update w p (f s) rfl
  | none => exact of_eq rfl

theorem readobj (w : World) (p : Pointer) : Kept w (w.readobj p) := by
  unfold World.readobj
  split <;> exact of_eq rfl

theorem lboxconf (w : World) (p : Pointer) : Kept w (w.lboxconf p) :=
  (access w p _).trans (of_eq rfl)

theorem supersede (w : World) (name : Name) (obj : Pointer) : Kept w (w.supersede name obj) :=
  let w' : World := { w with
    objmap := Function.update w.objmap obj (some .superseded)
    pool := Function.update w.pool name none
    poolCount := Function.update w.poolCount name none }
  have h : Kept w w' := of_eq rfl
  h.trans (access w' obj _)

theorem cmdNew (w : World) (name : Name) (t : Datum) (p : Pointer) :
    Kept w (w.cmdNew name t p).1 := by
  unfold World.cmdNew
  split
  · split
    · exact of_eq rfl
    · split
      · exact update w p _ rfl
      · exact of_eq rfl
  · exact of_eq rfl

theorem cmdUpdate (w : World) (name : Name) (t : Datum) (p : Pointer) :
    Kept w (w.cmdUpdate name t p).1 := by
  unfold World.cmdUpdate
  split
  · exact cmdNew w name t p
  next v _ =>
    have hnew := (supersede w name v.obj).trans (cmdNew (w.supersede name v.obj) name t p)
    split
    next heq => exact heq ▸ hnew
    next w₁ ret _ heq =>
      rw [heq] at hnew
      exact hnew.trans ((access w₁ v.obj _).trans (of_eq rfl))

theorem cmdMonitor (w : World) (watcher : Watcher) (obj : Pointer) (test : Watcher → Bool) :
    Kept w (w.cmdMonitor watcher obj test).1 := by
  rcases Inv.cmdMonitor_cases w watcher obj test with hrun | ⟨v, -, hrun | ⟨watch, count, hrun⟩⟩ <;>
    exact of_eq (by rw [hrun])

theorem serve (w : World) (request : Request) (test : Watcher → Bool) :
    Kept w (w.serve request test) := by
  cases request with
  | query name =>
    simp only [World.serve, World.cmdQuery]
    cases hname : w.pool name with
    | none => exact of_eq rfl
    | some v => exact (access w v.obj _).trans (of_eq rfl)
  | confirm cobj =>
    simp only [World.serve, World.cmdConfirm]
    cases hm : w.objmap cobj with
    | none => exact of_eq rfl
    | some m => exact access w cobj _
  | monitor watcher obj =>
    have hmonitor := cmdMonitor w watcher obj test
    revert hmonitor
    unfold World.serve
    dsimp only
    rcases w.cmdMonitor watcher obj test with ⟨w₁, _ | _ | _⟩ <;>
      exact fun hmonitor => hmonitor.trans (of_eq rfl)

theorem onMonitor (w : World) (watcher : Watcher) (b : ℕ) (box : Box) (p : Pointer) :
    Kept w (w.onMonitor watcher b box p) := by
  have hread := readobj w box.root
  have hbox := hread.trans (lboxconf (w.readobj box.root) p)
  unfold World.onMonitor
  dsimp only
  split
  · split
    · exact hbox
    · exact hbox.trans (of_eq rfl)
  · exact hread

theorem receive (hrun : w.receive reply = some w') : Kept w w' := by
  match reply with
  | .query name none | .monitor watcher none =>
    cases hrun
    exact of_eq rfl
  | .query name (some p) =>
    cases hrun
    exact (lboxconf w p).trans (of_eq rfl)
  | .monitor watcher (some p) =>
    obtain ⟨root, -, hrun⟩ := bind_eq_some_iff.1 hrun
    obtain ⟨box, -, hrun⟩ := bind_eq_some_iff.1 hrun
    cases hrun
    exact onMonitor w watcher root.gcobj box p

theorem getcobj (w : World) (x : ℕ) (proxy : Proxy) (box : Box) (moved : ℕ → Bool) :
    Kept w (w.getcobj x proxy box moved).1 := by
  have hread := readobj w box.root
  unfold World.getcobj
  dsimp only
  split
  · cases box.update with
    | none => exact hread
    | some update => exact (hread.trans (readobj _ update.1)).trans (of_eq rfl)
  · exact hread

theorem index (hrun : w.index x moved child = some w') : Kept w w' := by
  unfold World.index at hrun
  obtain ⟨proxy, -, hrun⟩ := bind_eq_some_iff.1 hrun
  obtain ⟨box, -, hrun⟩ := bind_eq_some_iff.1 hrun
  have hgot := getcobj w x proxy box moved
  revert hgot hrun
  rcases w.getcobj x proxy box moved with ⟨w₁, _ | _⟩
  · intro hrun hgot
    cases hrun
    exact hgot
  · intro hrun hgot
    obtain ⟨proxy', -, hrun⟩ := bind_eq_some_iff.1 hrun
    obtain ⟨box', -, hrun⟩ := bind_eq_some_iff.1 hrun
    have hread := hgot.trans (readobj w₁ box'.root)
    dsimp only at hrun
    split at hrun <;> cases hrun
    · exact hread.trans (of_eq rfl)
    · exact hread

theorem step (hne : ∀ p, event ≠ .collectobj p) (hrun : w.step event = .ok w') : Kept w w' := by
  have hif {c : Prop} [Decidable c] {v : World} {o : Option World}
      (hv : (if c then o else none) = some v) : o = some v := by
    split at hv
    · exact hv
    · cases hv
  have hv := World.next_of_step hrun
  cases event with
  | new name t p =>
    cases hif hv
    exact cmdNew w name t p
  | update name t p =>
    cases hif hv
    exact cmdUpdate w name t p
  | delete name =>
    cases hv
    unfold World.cmdDelete
    split
    · exact of_eq rfl
    next v _ => exact (supersede w name v.obj).trans (of_eq rfl)
  | query name =>
    cases hv
    exact of_eq rfl
  | serve request test =>
    cases hif hv
    have htaken : Kept w { w with requests := w.requests.erase request } := of_eq rfl
    exact htaken.trans (serve _ request test)
  | receive reply =>
    have htaken : Kept w { w with replies := w.replies.erase reply } := of_eq rfl
    exact htaken.trans (receive (hif hv))
  | index x moved child => exact index hv
  | drop x =>
    change w.drop x = some w' at hv
    unfold World.drop at hv
    obtain ⟨proxy, -, hv⟩ := bind_eq_some_iff.1 hv
    dsimp only at hv
    split at hv <;> cases hv
    exact of_eq rfl
  | condemn garbage =>
    change w.condemn garbage = some w' at hv
    unfold World.condemn at hv
    split at hv <;> cases hv
    exact of_eq rfl
  | releaseobj b =>
    change w.releaseobj b = some w' at hv
    unfold World.releaseobj at hv
    obtain ⟨box, -, hv⟩ := bind_eq_some_iff.1 hv
    dsimp only at hv
    split at hv <;> cases hv
    exact (access w box.root _).trans (of_eq rfl)
  | collectobj p => exact absurd rfl (hne p)

end Kept

/-- Nobody has a pointer to the object: it is not that of a name, there is no box on it, no answer
carries it, and it is not the update of a box that is reached. -/
structure Unreferenced (w : World) (p : Pointer) : Prop where
  pool : ∀ name v, w.pool name = some v → v.obj ≠ p
  box : ∀ b box, w.getBox b = some box → box.root ≠ p
  query : ∀ r ∈ w.replies, r.counted ≠ some p
  monitor : ∀ r ∈ w.replies, r.notified ≠ some p
  update : ∀ b box n c, w.getBox b = some box → box.condemned = false → box.update = some (n, c) →
    n ≠ p

theorem Inv.unreferenced (h : Inv w) (hm : w.objmap p = some .superseded) (hs : w.host p = some s)
    (hle : s.ref ≤ 0) (hnot : ∀ r ∈ w.replies, r.notified ≠ some p) : Unreferenced w p := by
  have hzero : held w p = 0 := h.counted.unreferenced (n := s.ref) (by rw [refOf, hs]; rfl) hle
  have hrefs : p ∉ refs w := by
    intro hmem
    have := count_pos_iff.2 hmem
    unfold held at hzero
    omega
  refine ⟨fun name v hv heq => ?_, fun b box hb heq => ?_, fun r hr heq => ?_, hnot,
    fun b box n c hb hlive hupdate heq => ?_⟩
  · have hentry := h.pool name v hv
    rw [heq, hm] at hentry
    cases hentry
  · exact hrefs (heq ▸ mem_refs_of_box hb)
  · exact hrefs (mem_refs_of_reply hr heq)
  · obtain ⟨box', hbox', -, hroot⟩ := h.linked.update b box n c hb hlive hupdate
    exact hrefs (heq ▸ hroot ▸ mem_refs_of_box hbox')

/-- In every run in which the objects of the answers to `monitor` are counted when `collectobj`
looks at them, no pointer to an object that is gone is followed, an object that is deleted is not
used, and a superseded object that nobody refers to can be deleted. -/
theorem unreferenced_of_deleted {w : World} (h : Reaches World.step Settled World.init w) :
    w.fault = false ∧
    (∀ event w', Settled w event → w.step event = .ok w' →
      ∀ p, (w.host p).isSome → w'.host p = none → Unreferenced w p) ∧
    ∀ p, w.objmap p = some .superseded → (∀ b box, w.getBox b = some box → box.root ≠ p) →
      (∀ r ∈ w.replies, r.counted ≠ some p) → .confirm p ∉ w.requests →
      (∃ s, w.host p = some s ∧ s.ref = 0) ∧
        ∃ w', w.step (.collectobj p) = .ok w' ∧ w'.host p = none := by
  have hinv : Inv w := h.invariant Inv.init fun u v event hu hok hrun => hu.step hok hrun
  refine ⟨hinv.fault, fun event w' hok hrun p hp hgone => ?_, fun p hm hbox hreply hconfirm => ?_⟩
  · by_cases hne : ∀ q, event ≠ .collectobj q
    · have hkept := Kept.step hne hrun p hp
      rw [hgone] at hkept
      cases hkept
    · simp only [ne_eq, not_forall, not_not] at hne
      obtain ⟨q, rfl⟩ := hne
      cases hrun
      rcases hinv.collectobj_cases q with heq | ⟨s, hm, hs, hle, heq⟩
      · rw [heq] at hgone
        rw [hgone] at hp
        cases hp
      · have hpq : p = q := by
          by_contra hpq
          rw [heq] at hgone
          change Function.update w.host q none p = none at hgone
          rw [Function.update_of_ne hpq] at hgone
          rw [hgone] at hp
          cases hp
        subst hpq
        refine hinv.unreferenced hm hs hle fun r hr hcarry => ?_
        obtain ⟨s', hs', hpos⟩ := hok p rfl r hr hcarry
        rw [hs] at hs'
        cases hs'
        omega
  · have hsome : (w.host p).isSome := by
      rw [← hinv.marked, hm]
      rfl
    obtain ⟨s, hs⟩ := isSome_iff_exists.1 hsome
    have hrefs : p ∉ refs w := by
      simp only [refs, mem_append, mem_filterMap, not_or, not_exists, not_and]
      refine ⟨⟨fun box hb heq => ?_, hreply⟩, fun r hr heq => ?_⟩
      · obtain ⟨box, rfl, rfl⟩ := map_eq_some_iff.1 heq
        obtain ⟨b, hlt, hb⟩ := List.getElem_of_mem hb
        refine hbox b box ?_ rfl
        rw [World.getBox, List.getD_eq_getElem?_getD, List.getElem?_eq_getElem hlt, hb]
        rfl
      · cases r with
        | confirm cobj =>
          cases heq
          exact hconfirm hr
        | query | monitor => cases heq
    have hzero : s.ref = 0 := by
      have heq := hinv.counted.eq p s.ref (by rw [refOf, hs]; rfl)
      rw [held, hm, List.count_eq_zero.2 hrefs, if_neg nofun] at heq
      exact heq
    refine ⟨⟨s, hs, hzero⟩, w.collectobj p, rfl, ?_⟩
    unfold World.collectobj
    rw [hm, hs]
    dsimp only
    rw [if_pos (by omega)]
    exact Function.update_self ..

/-- An object that was superseded before any client had it. -/
theorem superseded_deleted : ∃ w,
    exec World.step World.init [.new [] .nil 1, .update [] .nil 2] = .ok w ∧
      (∃ s, w.host 1 = some s ∧ s.ref = 0) ∧
        ∃ w', w.step (.collectobj 1) = .ok w' ∧ w'.host 1 = none := by
  refine ⟨_, rfl, ?_⟩
  have hpermitted : Permitted World.step Settled World.init
      [.new [] .nil 1, .update [] .nil 2] :=
    ⟨nofun, fun _ _ => ⟨nofun, fun _ _ => trivial⟩⟩
  refine (unreferenced_of_deleted (hpermitted.reaches rfl)).2.2 1 rfl
    (fun b box hb => ?_) nofun nofun
  cases b <;> cases hb

/-- An object is deleted while it is sent to a client whose version is the one before. -/
theorem notified_object_deleted :
    ¬∀ w, Reaches World.step (fun _ _ => True) World.init w → w.fault = false := by
  intro h
  have hrun : exec World.step World.init [.new [] .nil 1, .query [],
      .serve (.query []) fun _ => true, .receive (.query [] (some 1)),
      .serve (.confirm 1) fun _ => true,
      .serve (.monitor ⟨0, []⟩ 1) fun _ => true, .update [] .nil 2, .update [] .nil 3,
      .collectobj 2, .receive (.monitor ⟨0, []⟩ (some 2))] = .ok _ := rfl
  have hfault := h _ (reaches_of_exec hrun fun _ _ _ => trivial)
  cases hfault

end Mtask.Sharedata.Service
