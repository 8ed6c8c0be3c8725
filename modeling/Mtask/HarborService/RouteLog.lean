import Mtask.HarborService.Outbound
import Mtask.Lib.Transition

/-!
# The log of the messages to global names

A message to a name waits under the name until an `N` command binds it to a handle. It is then a
message for that handle: it is sent over the link of its harbor, or it waits in the queue of the
slot. A run carries a log of all messages that other services have given to the harbor service, with
the handles that they are for.
-/

namespace Mtask.HarborService

open Transition
open List

/-! ### The log -/

/-- What the map of names knows of a name. -/
abbrev NameKey := UInt32 × List UInt8

/-- A message of the log: the name it was sent to, if it was, and the message. Its destination is
`0` as long as its name is not bound. -/
structure Entry where
  name : Option NameKey
  msg : RemoteMsg

namespace Entry

def isBound (e : Entry) : Bool :=
  e.msg.destination ≠ 0

def waitsFor (key : NameKey) (e : Entry) : Bool :=
  e.name = some key ∧ e.msg.destination = 0

/-- A message with the handle that its name was bound to. -/
def withHandle (handle : UInt32) (e : Entry) : Entry :=
  { e with msg := { e.msg with destination := handle } }

def bind (key : NameKey) (handle : UInt32) (e : Entry) : Entry :=
  if e.waitsFor key then e.withHandle handle else e

end Entry

/-- The service, what every name is bound to (`0` for a name that is not bound), and the messages
that were given to it. -/
structure RouteState where
  h : Harbor
  bound : NameKey → UInt32
  log : List Entry

/-- The name that a command binds. -/
def commandName : List UInt8 → Option GlobalName
  | [] => none
  | command :: msg =>
    let name := msg.drop 1
    if command = 0x4e ∧ name ≠ [] ∧ name.length < globalnameLength then some (padName name)
    else none

namespace RouteState

/-- The message of an input for other harbors. -/
def entryOf (r : RouteState) (source : UInt32) (type : UInt8) (session : Int32)
    (rmsg : RemoteMessage) : Entry :=
  if rmsg.handle = 0 then
    ⟨some (nameKey rmsg.name),
      ⟨source, r.bound (nameKey rmsg.name), type, session, rmsg.message⟩⟩
  else ⟨none, ⟨source, rmsg.handle, type, session, rmsg.message⟩⟩

def record (r : RouteState) (h : Harbor) : Input → RouteState
  | .remote source type session rmsg =>
    { r with h, log := r.log ++ [r.entryOf source type session rmsg] }
  | .command msg handle =>
    match commandName msg with
    | some name =>
      { h, bound := Function.update r.bound (nameKey name) handle,
        log := r.log.map (Entry.bind (nameKey name) handle) }
    | none => { r with h }
  | _ => { r with h }

end RouteState

def routeStep (r : RouteState) (input : Input) : Except HarborFault RouteState :=
  match mainloop r.h input with
  | .error e => .error e
  | .ok h => .ok (r.record h input)

def routeInit (id : UInt8) (slave : UInt32) : RouteState where
  h := harborInit id slave
  bound := fun _ => 0
  log := []

/-- The inputs for which messages to names are routed: no link goes down, a name for which messages
wait is bound to a handle of another harbor that has a socket already (or whose low bits are zero),
and a payload for another harbor has a length that an `int` holds with its frame. -/
structure Permits (r : RouteState) (input : Input) : Prop where
  delivers : Delivers input
  long : ∀ msg source, input = .command msg source → 2 ≤ msg.length
  up : ∀ h, mainloop r.h input = .ok h → ∀ j, (h.s j).status ≠ .down
  bind : ∀ msg handle name, input = .command msg handle → commandName msg = some name →
    (∃ e ∈ r.log, e.waitsFor (nameKey name)) →
    (handle >>> handleRemoteShift).toNat ≠ 0 ∧
      (handle >>> handleRemoteShift).toNat ≠ r.h.id.toNat ∧
      ((r.h.s (handle >>> handleRemoteShift).toNat).fd ≠ 0 ∨ handle &&& handleMask = 0)
  fits : ∀ source type session rmsg, input = .remote source type session rmsg → rmsg.handle = 0 →
    r.bound (nameKey rmsg.name) ≠ 0 ∧
      (r.bound (nameKey rmsg.name) >>> handleRemoteShift).toNat = r.h.id.toNat ∨
    rmsg.message.bytes.length + headerCookieLength + 4 < 2 ^ 31

section Log

variable {key key' : NameKey} {handle : UInt32} {l : List Entry}

/-- The messages that waited for a name are bound, the others stay. -/
theorem map_bind_perm (hhandle : handle ≠ 0) :
    (((l.map (Entry.bind key handle)).filter Entry.isBound).map Entry.msg).Perm
      ((l.filter Entry.isBound).map Entry.msg ++
        (l.filter (Entry.waitsFor key)).map fun e => (e.withHandle handle).msg) := by
  induction l with
  | nil => rfl
  | cons e l ih =>
    rw [map_cons]
    by_cases hwaits : e.waitsFor key = true
    · have hunbound : ¬e.isBound = true := by
        rw [Entry.waitsFor, decide_eq_true_eq] at hwaits
        simp [Entry.isBound, hwaits.2]
      have hbound : (e.withHandle handle).isBound = true := decide_eq_true hhandle
      rw [Entry.bind, if_pos hwaits, filter_cons_of_pos hbound,
        filter_cons_of_neg hunbound, filter_cons_of_pos hwaits, map_cons,
        map_cons]
      exact (ih.cons _).trans perm_middle.symm
    · rw [Entry.bind, if_neg hwaits, filter_cons_of_neg hwaits]
      by_cases hbound : e.isBound = true
      · rw [filter_cons_of_pos hbound, filter_cons_of_pos hbound]
        exact ih.cons _
      · rw [filter_cons_of_neg hbound, filter_cons_of_neg hbound]
        exact ih

theorem map_bind_of_none (hnone : l.filter (Entry.waitsFor key) = []) :
    l.map (Entry.bind key handle) = l := by
  refine (map_congr_left fun e he => ?_).trans l.map_id
  exact if_neg (filter_eq_nil_iff.mp hnone e he)

theorem waitsFor_bind (hhandle : handle ≠ 0) (e : Entry) :
    (e.bind key handle).waitsFor key' = (e.waitsFor key' && !decide (key = key')) := by
  rw [Entry.bind]
  by_cases hwaits : e.waitsFor key = true
  · rw [if_pos hwaits]
    have hname := (of_decide_eq_true hwaits).1
    simp +contextual [Entry.waitsFor, Entry.withHandle, hhandle, hname]
  · rw [if_neg hwaits]
    by_cases hkey : key = key'
    · subst hkey
      simp [Bool.eq_false_iff.mpr hwaits]
    · simp [hkey]

/-- What waits for the other names, after a name was bound. -/
theorem filter_bind (hhandle : handle ≠ 0) :
    (l.map (Entry.bind key handle)).filter (Entry.waitsFor key') =
      if key = key' then [] else l.filter (Entry.waitsFor key') := by
  induction l with
  | nil => simp
  | cons e l ih =>
    rw [map_cons, filter_cons, waitsFor_bind hhandle, ih, filter_cons]
    by_cases hkey : key = key'
    · simp [hkey]
    · simp only [hkey, decide_false, Bool.not_false, Bool.and_true, if_false]
      by_cases hwaits : e.waitsFor key' = true
      · have hother : ¬e.waitsFor key = true := fun h => by
          have heq := (of_decide_eq_true h).1.symm.trans (of_decide_eq_true hwaits).1
          exact hkey (Option.some.inj heq)
        rw [if_pos hwaits, if_pos hwaits, Entry.bind, if_neg hother]
      · rw [if_neg hwaits, if_neg hwaits]

end Log

/-! ### Names that are bound -/

/-- The message in the queue of its name. -/
def RemoteMsg.named (m : RemoteMsg) : HarborMsg where
  header :=
    { source := m.source, destination := m.type.toUInt32 <<< handleRemoteShift,
      session := m.session.toUInt32 }
  buffer := m.payload

/-- With the bits of the handle, the cookie is complete. -/
theorem bindMsg_named (handle : UInt32) (m : RemoteMsg) :
    bindMsg handle m.named = { m with destination := handle }.queued := by
  simp only [bindMsg, RemoteMsg.named, RemoteMsg.queued, RemoteMsg.cookie, cookieOf,
    UInt32.or_comm (handle &&& handleMask)]

/-- Without low bits of the handle, the cookie was complete. -/
theorem named_eq_queued {handle : UInt32} (hlow : handle &&& handleMask = 0) (m : RemoteMsg) :
    m.named = { m with destination := handle }.queued := by
  simp only [RemoteMsg.named, RemoteMsg.queued, RemoteMsg.cookie, cookieOf, hlow, UInt32.zero_or]

section Map

variable {hash : Hashmap} {name name' : GlobalName} {handle : UInt32}

theorem nodeOf_boundMap :
    nodeOf (boundMap hash name handle) name' =
      if nameKey name = nameKey name' then (handle, (nodeOf hash name').2)
      else nodeOf hash name' := by
  have hmodify : nodeOf (boundMap hash name handle) name' = _ :=
    nodeOf_modify fun _ => ⟨rfl, rfl⟩
  rw [hmodify]
  split_ifs with hkey
  · rw [show nodeOf hash name' = nodeOf hash name by rw [nodeOf, nodeOf, hashSearch_congr hkey],
      nodeOf_eq]
  · rfl

theorem nodeOf_emptiedMap :
    nodeOf (emptiedMap hash name) name' =
      if nameKey name = nameKey name' then ((nodeOf hash name').1, none)
      else nodeOf hash name' := by
  have hmodify : hashSearch (emptiedMap hash name) name' = _ :=
    hashSearch_modify fun _ => ⟨rfl, rfl⟩
  rw [nodeOf, hmodify]
  split_ifs with hkey
  · rw [nodeOf]
    rcases hashSearch hash name' with _ | node <;> rfl
  · rfl

/-- The map in which a queue waits under a name. -/
def queuedMap (hash : Hashmap) (name : GlobalName) (queue : HarborMsgQueue) : Hashmap :=
  hashModify (hashNode hash name).1 name fun node => { node with queue := some queue }

theorem nodeOf_queuedMap {queue : HarborMsgQueue} :
    nodeOf (queuedMap hash name queue) name' =
      if nameKey name = nameKey name' then ((nodeOf hash name).1, some queue)
      else nodeOf hash name' := by
  have hmodify : nodeOf (queuedMap hash name queue) name' = _ :=
    nodeOf_modify fun _ => ⟨rfl, rfl⟩
  rw [hmodify, nodeOf_eq hash name]

theorem nodeOf_emptied_boundMap :
    nodeOf (emptiedMap (boundMap hash name handle) name) name' =
      if nameKey name = nameKey name' then (handle, none) else nodeOf hash name' := by
  rw [nodeOf_emptiedMap]
  split_ifs with hkey
  · rw [nodeOf_boundMap, if_pos hkey]
  · rw [nodeOf_boundMap, if_neg hkey]

end Map

section Update

variable {h : Harbor} {name : GlobalName} {handle : UInt32} {queue : HarborMsgQueue}
  {msgs : List RemoteMsg}

section

variable (hinv : SlotsInv h) (hqueue : (nodeOf h.map name).2 = some queue)
  (hmsgs : queue.toList = msgs.map RemoteMsg.named) (hj : (handle >>> handleRemoteShift).toNat ≠ 0)
  (hid : (handle >>> handleRemoteShift).toNat ≠ h.id.toNat)
include hinv hqueue hmsgs hj hid

/-- **Messages for a name that is bound to a handle of a harbor with a socket** are sent. -/
theorem updateName_sent (hfd : (h.s (handle >>> handleRemoteShift).toNat).fd ≠ 0) :
    ∃ h₁, updateName h name handle = .ok h₁ ∧
      h₁.map = emptiedMap (boundMap h.map name handle) name ∧
      Carries h h₁ (msgs.map fun m => { m with destination := handle }) := by
  have hqueue' : (hashNode h.map name).2.queue = some queue := by
    rwa [nodeOf_eq] at hqueue
  have heq := updateName_of_open hqueue' rfl hj hfd
  refine ⟨_, heq, rfl, Carries.send (Keeps.updateName hinv heq) (fun _ => rfl) ?_ ?_⟩
  · have houtbound : ∀ l map, { h.callAll l with map }.outbound = (h.callAll l).outbound :=
      fun _ _ => rfl
    have hflat : (queue.toList.flatMap fun m =>
          queuedCalls (h.s (handle >>> handleRemoteShift).toNat).fd (bindMsg handle m)) =
        (queue.toList.map (bindMsg handle)).flatMap
          (queuedCalls (h.s (handle >>> handleRemoteShift).toNat).fd) :=
      (flatMap_map _ _ _).symm
    rw [houtbound, outbound_callAll, hflat, filter_queuedCalls, hmsgs]
    simp only [map_map]
    refine congrArg _ (map_congr_left fun m hm => ?_)
    simp only [Function.comp_apply, bindMsg_named]
    exact (if_neg hid).symm
  · intro m hm
    obtain ⟨m, -, rfl⟩ := mem_map.mp hm
    exact Or.inr hfd

/-- **Messages for a name that is bound to a handle of a harbor without a socket** are moved as they
are, so they are the messages for the handle only if its low bits are zero. -/
theorem updateName_moved (hfd : (h.s (handle >>> handleRemoteShift).toNat).fd = 0)
    (hlow : handle &&& handleMask = 0) :
    ∃ h₁, updateName h name handle = .ok h₁ ∧
      h₁.map = emptiedMap (boundMap h.map name handle) name ∧
      Carries h h₁ (msgs.map fun m => { m with destination := handle }) := by
  have hqueue' : (hashNode h.map name).2.queue = some queue := by
    rwa [nodeOf_eq] at hqueue
  have hdown : (h.s (handle >>> handleRemoteShift).toNat).status ≠ .down := by
    rw [(hinv _).linked.mp hfd]
    decide
  obtain ⟨moved, hmoved, heq⟩ := updateName_of_wait hqueue' rfl hj hfd hdown
  refine ⟨_, heq, rfl, Carries.wait (Keeps.updateName hinv heq) hid ?_ ?_ (fun i hi => ?_) rfl⟩
  · intro m hm
    obtain ⟨m, -, rfl⟩ := mem_map.mp hm
    rfl
  · have hnamed : msgs.map RemoteMsg.named =
        msgs.map fun m => { m with destination := handle }.queued :=
      map_congr_left fun m _ => named_eq_queued hlow m
    have hself : queueList (({ h.s (handle >>> handleRemoteShift).toNat with
        queue := some moved } : Slave).queue) = _ := hmoved
    rw [hmsgs, hnamed] at hself
    simpa [map_map, Function.comp_def] using hself
  · exact congrArg Slave.queue (s_setSlave_of_ne h hi _)

end

end Update

/-! ### The invariant of a run -/

/-- The map of names and the log belong together. -/
structure Named (r : RouteState) : Prop where
  value : ∀ name, (nodeOf r.h.map name).1 = r.bound (nameKey name)
  queue : ∀ name, queueList (nodeOf r.h.map name).2 =
    (r.log.filter (Entry.waitsFor (nameKey name))).map fun e => e.msg.named
  filled : ∀ name, (nodeOf r.h.map name).2 ≠ none →
    r.log.filter (Entry.waitsFor (nameKey name)) ≠ []
  unbound : ∀ e ∈ r.log, e.msg.destination = 0 → ∃ key, e.name = some key ∧ r.bound key = 0

/-- A message to a name that can be handed on: its handle is local, or its frame is not too long. -/
def Entry.Fits (id : UInt8) (e : Entry) : Prop :=
  e.isBound ∧ e.msg.harbor = id.toNat ∨ e.msg.frameSize + 4 < 2 ^ 31

structure RouteInv (id : UInt8) (r : RouteState) : Prop where
  slots : SlotsInv r.h
  id_eq : r.h.id = id
  up : ∀ j, (r.h.s j).status ≠ .down
  carried : ∃ done waiting, Carried r.h done waiting ∧
    ((r.log.filter Entry.isBound).map Entry.msg).Perm (done ++ waiting)
  named : Named r
  fits : ∀ e ∈ r.log, e.name.isSome → e.Fits id

variable {id : UInt8} {slave : UInt32} {r r' : RouteState} {input : Input}

theorem RouteInv.init : RouteInv id (routeInit id slave) where
  slots := slotsInv_init id slave
  id_eq := rfl
  up _ := by simp [routeInit, harborInit, Slave.zero]
  carried := ⟨[], [], ⟨.nil, fun _ => rfl, by simp, by simp⟩, .nil⟩
  named := ⟨fun _ => rfl, fun _ => rfl, fun _ h => absurd rfl h, by simp [routeInit]⟩
  fits := by simp [routeInit]

theorem carried_step {h : Harbor} {new : List RemoteMsg} {log : List Entry}
    (hinv : RouteInv id r) (c : Carries r.h h new)
    (hlog : ((log.filter Entry.isBound).map Entry.msg).Perm
      ((r.log.filter Entry.isBound).map Entry.msg ++ new)) :
    ∃ done waiting, Carried h done waiting ∧
      ((log.filter Entry.isBound).map Entry.msg).Perm (done ++ waiting) := by
  obtain ⟨done, waiting, hcarried, hperm⟩ := hinv.carried
  obtain ⟨done', waiting', hcarried', hperm'⟩ := c done waiting hcarried
  exact ⟨done', waiting', hcarried', hlog.trans ((hperm.append_right new).trans hperm'.symm)⟩

/-- A step that leaves the names and the log alone. -/
theorem RouteInv.quiet {h : Harbor} (hinv : RouteInv id r) (k : Keeps r.h h)
    (hup : ∀ j, (h.s j).status ≠ .down) (c : Carries r.h h []) (hmap : h.map = r.h.map) :
    RouteInv id { r with h } where
  slots := k.slots
  id_eq := k.id_eq.trans hinv.id_eq
  up := hup
  carried := carried_step hinv c (by rw [append_nil])
  named := by
    obtain ⟨hvalue, hqueue, hfilled, hunbound⟩ := hinv.named
    rw [← hmap] at hvalue hqueue hfilled
    exact ⟨hvalue, hqueue, hfilled, hunbound⟩
  fits := hinv.fits

theorem RouteInv.push {h : Harbor} {e : Entry} (hinv : RouteInv id r) (k : Keeps r.h h)
    (hup : ∀ j, (h.s j).status ≠ .down)
    (c : Carries r.h h (([e].filter Entry.isBound).map Entry.msg))
    (hnamed : Named { r with h, log := r.log ++ [e] }) (hfits : e.name.isSome → e.Fits id) :
    RouteInv id { r with h, log := r.log ++ [e] } where
  slots := k.slots
  id_eq := k.id_eq.trans hinv.id_eq
  up := hup
  carried := carried_step hinv c (by rw [filter_append, map_append])
  named := hnamed
  fits e' he' := by
    obtain he' | he' := mem_append.mp he'
    · exact hinv.fits e' he'
    · rw [mem_singleton.mp he']
      exact hfits

theorem Named.push_bound {h : Harbor} {e : Entry} (hn : Named r) (hbound : e.msg.destination ≠ 0)
    (hmap : ∀ name, nodeOf h.map name = nodeOf r.h.map name) :
    Named { r with h, log := r.log ++ [e] } := by
  have hfilter : ∀ key, (r.log ++ [e]).filter (Entry.waitsFor key) =
      r.log.filter (Entry.waitsFor key) := fun key => by
    rw [filter_append, filter_cons_of_neg (by simp [Entry.waitsFor, hbound]),
      filter_nil, append_nil]
  refine ⟨fun name => ?_, fun name => ?_, fun name hname => ?_, fun e' he' h0 => ?_⟩
  · rw [hmap]
    exact hn.value name
  · rw [hmap, hfilter]
    exact hn.queue name
  · rw [hmap] at hname
    rw [hfilter]
    exact hn.filled name hname
  · obtain he' | he' := mem_append.mp he'
    · exact hn.unbound e' he' h0
    · rw [mem_singleton.mp he'] at h0
      exact absurd h0 hbound

/-- A message that begins to wait for its name. -/
theorem Named.push_unbound {h : Harbor} {m : RemoteMsg} {name : GlobalName}
    {queue : HarborMsgQueue} (hn : Named r) (hunbound : r.bound (nameKey name) = 0)
    (hm : m.destination = 0)
    (hqueue : queue.toList = queueList (nodeOf r.h.map name).2 ++ [m.named])
    (hmap : ∀ name', nodeOf h.map name' = if nameKey name = nameKey name' then
      ((nodeOf r.h.map name).1, some queue) else nodeOf r.h.map name') :
    Named { r with h, log := r.log ++ [⟨some (nameKey name), m⟩] } := by
  have hself : (⟨some (nameKey name), m⟩ : Entry).waitsFor (nameKey name) = true := by
    simp [Entry.waitsFor, hm]
  have hother : ∀ name', nameKey name ≠ nameKey name' →
      (r.log ++ [(⟨some (nameKey name), m⟩ : Entry)]).filter (Entry.waitsFor (nameKey name')) =
        r.log.filter (Entry.waitsFor (nameKey name')) := fun name' hne => by
    rw [filter_append, filter_cons_of_neg (by simp [Entry.waitsFor, hne]),
      filter_nil, append_nil]
  refine ⟨fun name' => ?_, fun name' => ?_, fun name' hname => ?_, fun e he h0 => ?_⟩
  · rw [hmap]
    split_ifs with hkey
    · rw [← hkey]
      exact hn.value name
    · exact hn.value name'
  · rw [hmap]
    split_ifs with hkey
    · rw [← hkey, filter_append, filter_cons_of_pos hself, map_append,
        ← hn.queue name]
      exact hqueue
    · rw [hother name' hkey]
      exact hn.queue name'
  · by_cases hkey : nameKey name = nameKey name'
    · rw [← hkey, filter_append, filter_cons_of_pos hself]
      simp
    · rw [hmap, if_neg hkey] at hname
      rw [hother name' hkey]
      exact hn.filled name' hname
  · obtain he | he := mem_append.mp he
    · exact hn.unbound e he h0
    · rw [mem_singleton.mp he]
      exact ⟨_, rfl, hunbound⟩

end Mtask.HarborService
