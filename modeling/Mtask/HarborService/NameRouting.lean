import Mtask.HarborService.RouteLog

/-!
# Messages to global names are routed

What one input does to the log of messages, and what a run of permitted inputs makes of it: every
message for a handle, and every message to a name that is bound, is handed on with exactly one
call, or the link of its harbor is not established.
-/

namespace Mtask.HarborService

open Transition List

variable {id : UInt8} {slave : UInt32} {r r' : RouteState} {input : Input}

/-! ### The steps -/

theorem DataStep.map_eq {j : ℕ} {h h₁ : Harbor} (hstep : DataStep j h h₁) : h₁.map = h.map := by
  obtain hstatus | ⟨hstatus, q, hrecv⟩ | ⟨hstatus, q, hrecv⟩ | ⟨text, hstatus, hopened, q⟩ := hstep
  · rfl
  · exact q.map_eq
  · exact q.map_eq
  · rw [closeHarbor_eq]
    obtain rfl | ⟨rfl, -⟩ := hopened
    · exact q.map_eq
    · exact q.map_eq

section Command

variable {h : Harbor} {msg : List UInt8} {handle : UInt32} {name : GlobalName}

theorem harborCommand_of_name (hname : commandName msg = some name) :
    harborCommand h msg handle = updateName h name handle := by
  rcases msg with _ | ⟨command, msg⟩
  · simp [commandName] at hname
  rw [commandName] at hname
  split_ifs at hname with hcommand
  obtain ⟨rfl, hne, hlt⟩ := hcommand
  have hpos := length_pos_iff.mpr hne
  rw [length_drop] at hpos hlt
  have hlength : ¬(((0x4e :: msg).length : ℤ) - 2 ≤ 0 ∨
      ((0x4e :: msg).length : ℤ) - 2 ≥ globalnameLength) := by
    rw [length_cons]
    omega
  rw [harborCommand, if_pos rfl, if_neg hlength, Option.some.inj hname]

theorem harborCommand_of_none (hname : commandName msg = none) (hlen : 2 ≤ msg.length) :
    ∃ h', harborCommand h msg handle = .ok h' ∧
      ((∃ text, h' = h.callAll [.error text] ∧ (Call.error text).isOutbound = false) ∨
        ∃ id fd, fd ≠ 0 ∧ (h.s id).fd = 0 ∧
          (h' = linked h id fd ∨ h' = opened (linked h id fd) id)) := by
  rcases msg with _ | ⟨command, msg⟩
  · simp at hlen
  rw [commandName] at hname
  split_ifs at hname with hcommand
  rw [length_cons] at hlen
  rw [harborCommand]
  split_ifs with hbind hlength hlink hshort
  · exact ⟨_, rfl, Or.inl ⟨_, rfl, rfl⟩⟩
  · refine absurd ⟨hbind, ?_, ?_⟩ hcommand
    all_goals rw [length_cons] at hlength
    · intro hnil
      rw [drop_eq_nil_iff] at hnil
      omega
    · rw [length_drop]
      omega
  · rw [length_cons] at hshort
    omega
  · obtain ⟨h', heq, hcases⟩ := linkCommand_cases h command (msg.drop 1)
    refine ⟨h', heq, ?_⟩
    obtain ⟨text, htext, rfl⟩ | ⟨id, fd, -, -, hfd, hfree, hh'⟩ := hcases
    · refine Or.inl ⟨text, rfl, ?_⟩
      obtain rfl | ⟨id, rfl⟩ := htext <;> rfl
    · exact Or.inr ⟨id, fd, hfd, hfree, hh'⟩
  · exact ⟨_, rfl, Or.inl ⟨_, rfl, rfl⟩⟩

end Command

/-- The map of names, when a name is bound for which nothing waits or everything is handed on. -/
theorem Named.bind {h : Harbor} {name : GlobalName} {handle : UInt32} (hn : Named r)
    (hwaits : handle ≠ 0 ∨ r.log.filter (Entry.waitsFor (nameKey name)) = [])
    (hmap : ∀ name', nodeOf h.map name' =
      if nameKey name = nameKey name' then (handle, none) else nodeOf r.h.map name') :
    Named { h, bound := Function.update r.bound (nameKey name) handle,
            log := r.log.map (Entry.bind (nameKey name) handle) } := by
  have hfilter : ∀ key, (r.log.map (Entry.bind (nameKey name) handle)).filter (Entry.waitsFor key) =
      if nameKey name = key then [] else r.log.filter (Entry.waitsFor key) := fun key => by
    obtain hhandle | hnone := hwaits
    · exact filter_bind hhandle
    · rw [map_bind_of_none hnone]
      split_ifs with hkey
      · rw [← hkey, hnone]
      · rfl
  refine ⟨fun name' => ?_, fun name' => ?_, fun name' hname => ?_, fun e he h0 => ?_⟩
  · simp only [hmap]
    split_ifs with hkey
    · rw [← hkey, Function.update_self]
    · rw [Function.update_of_ne (Ne.symm hkey)]
      exact hn.value name'
  · simp only [hmap, hfilter]
    split_ifs
    · rfl
    · exact hn.queue name'
  · simp only [hmap] at hname
    simp only [hfilter]
    split_ifs at hname ⊢ with hkey
    · exact absurd rfl hname
    · exact hn.filled name' hname
  · obtain ⟨e, he', rfl⟩ := mem_map.mp he
    rw [Entry.bind] at h0 ⊢
    split_ifs at h0 ⊢ with hwait
    · exact ⟨_, (of_decide_eq_true hwait).1, (Function.update_self _ _ _).trans h0⟩
    · obtain ⟨key, hkey, hbound⟩ := hn.unbound e he' h0
      refine ⟨key, hkey, ?_⟩
      have hne : key ≠ nameKey name := fun heq =>
        hwait (decide_eq_true ⟨by rw [hkey, heq], h0⟩)
      exact (Function.update_of_ne hne _ _).trans hbound

/-- **A name is bound**: the messages that wait for it are handed on or moved, complete. -/
theorem updateName_of_permits {msg : List UInt8} {handle : UInt32} {name : GlobalName}
    (hinv : RouteInv id r) (hin : Permits r (.command msg handle))
    (hname : commandName msg = some name) :
    ∃ h, updateName r.h name handle = .ok h ∧
      (handle ≠ 0 ∨ r.log.filter (Entry.waitsFor (nameKey name)) = []) ∧
      (∀ name', nodeOf h.map name' =
        if nameKey name = nameKey name' then (handle, none) else nodeOf r.h.map name') ∧
      Carries r.h h
        ((r.log.filter (Entry.waitsFor (nameKey name))).map
          fun e => (e.withHandle handle).msg) := by
  have hlist := hinv.named.queue name
  rcases hqueue : (nodeOf r.h.map name).2 with _ | queue
  · rw [hqueue, queueList, eq_comm, map_eq_nil_iff] at hlist
    have hqueue' : (hashNode r.h.map name).2.queue = none := by
      rwa [nodeOf_eq] at hqueue
    refine ⟨_, updateName_of_none hqueue', Or.inr hlist, fun name' => ?_, ?_⟩
    · rw [nodeOf_boundMap]
      split_ifs with hkey
      · rw [nodeOf, ← hashSearch_congr hkey, ← nodeOf, hqueue]
      · rfl
    · rw [hlist]
      exact (Carries.refl r.h).setMap _
  · obtain ⟨e, l, hfilter⟩ := exists_cons_of_ne_nil
      (hinv.named.filled name (by rw [hqueue]; exact Option.some_ne_none _))
    have he : e ∈ r.log ∧ e.waitsFor (nameKey name) = true :=
      mem_filter.mp (by rw [hfilter]; exact mem_cons_self)
    obtain ⟨hj, hid, hcase⟩ := hin.bind msg handle name rfl hname ⟨e, he⟩
    have hhandle : handle ≠ 0 := fun h => hj (by rw [h]; rfl)
    have hmsgs : queue.toList =
        ((r.log.filter (Entry.waitsFor (nameKey name))).map Entry.msg).map RemoteMsg.named := by
      rw [map_map]
      rw [hqueue] at hlist
      exact hlist
    obtain ⟨h, heq, hmap, hcarries⟩ : ∃ h, updateName r.h name handle = .ok h ∧
        h.map = emptiedMap (boundMap r.h.map name handle) name ∧
        Carries r.h h (((r.log.filter (Entry.waitsFor (nameKey name))).map Entry.msg).map
          fun m => { m with destination := handle }) := by
      by_cases hfd : (r.h.s (handle >>> handleRemoteShift).toNat).fd = 0
      · have hlow := hcase.resolve_left (not_not.mpr hfd)
        exact updateName_moved hinv.slots hqueue hmsgs hj hid hfd hlow
      · exact updateName_sent hinv.slots hqueue hmsgs hj hid hfd
    refine ⟨h, heq, Or.inl hhandle, fun name' => ?_, ?_⟩
    · rw [hmap, nodeOf_emptied_boundMap]
    · rw [map_map] at hcarries
      exact hcarries

section Remote

variable {h : Harbor} {source : UInt32} {type : UInt8} {session : Int32} {msg : Buffer}
  {name : GlobalName}

theorem map_remoteSendHandle (destination : UInt32) :
    (freeUnless msg.addr (remoteSendHandle h source destination type session msg)).map = h.map := by
  rw [remoteSendHandle]
  simp only [sendRemote_eq]
  split_ifs <;> rfl

theorem remoteSendName_of_bound (hvalue : (nodeOf h.map name).1 ≠ 0) :
    remoteSendName h source name type session msg =
      remoteSendHandle { h with map := (hashNode h.map name).1 } source (nodeOf h.map name).1 type
        session msg := by
  rw [nodeOf_eq] at hvalue ⊢
  exact if_neg hvalue

/-- A message to a name that is not bound waits, and the name is asked for. -/
theorem remoteSendName_of_unbound (hvalue : (nodeOf h.map name).1 = 0) :
    ∃ queue query, remoteSendName h source name type session msg =
        ({ h with map := queuedMap h.map name queue }.call query, true) ∧
      queue.toList = queueList (nodeOf h.map name).2 ++
        [RemoteMsg.named ⟨source, 0, type, session, msg⟩] ∧
      query.isOutbound = false := by
  rw [nodeOf_eq] at hvalue ⊢
  rw [remoteSendName]
  simp only [if_pos hvalue]
  exact ⟨_, _, rfl, toList_push_getD _ _ _, isOutbound_of_type_zero rfl⟩

end Remote

theorem RouteInv.remote {h : Harbor} {source : UInt32} {type : UInt8} {session : Int32}
    {rmsg : RemoteMessage} (hinv : RouteInv id r)
    (hin : Permits r (.remote source type session rmsg))
    (hstep : mainloop r.h (.remote source type session rmsg) = .ok h) :
    RouteInv id (r.record h (.remote source type session rmsg)) := by
  have k := Keeps.mainloop hinv.slots hin.delivers hstep
  have hup := hin.up h hstep
  rw [RouteState.record, RouteState.entryOf]
  rw [mainloop] at hstep
  by_cases hhandle : rmsg.handle = 0
  · rw [if_pos hhandle] at hstep ⊢
    rw [Except.ok.injEq] at hstep
    have hvalue := hinv.named.value rmsg.name
    have hfits := hin.fits source type session rmsg rfl hhandle
    rw [hinv.id_eq] at hfits
    by_cases hbound : r.bound (nameKey rmsg.name) = 0
    · obtain ⟨queue, query, heq, hqueue, hquery⟩ :
          ∃ queue query, remoteSendName r.h source rmsg.name type session rmsg.message = _ ∧ _ :=
        remoteSendName_of_unbound (hvalue.trans hbound)
      rw [hbound]
      rw [heq] at hstep
      subst hstep
      refine hinv.push k hup ?_
        (hinv.named.push_unbound hbound rfl hqueue fun name' => nodeOf_queuedMap)
        fun _ => Or.inr (hfits.resolve_left fun h => h.1 hbound)
      refine Carries.quiet k (fun _ => rfl) ?_
      have houtbound : ∀ map, { r.h with map }.outbound = r.h.outbound := fun _ => rfl
      rw [freeUnless, outbound_call, houtbound, filter_cons_of_neg (by simp [hquery]),
        filter_nil, append_nil]
    · rw [remoteSendName_of_bound (by rwa [hvalue]), hvalue] at hstep
      subst hstep
      have hinv' : SlotsInv { r.h with map := (hashNode r.h.map rmsg.name).1 } := hinv.slots
      refine hinv.push k hup ?_ (hinv.named.push_bound hbound fun name => ?_) fun _ => ?_
      · have hone : [(⟨some (nameKey rmsg.name), ⟨source, r.bound (nameKey rmsg.name), type,
            session, rmsg.message⟩⟩ : Entry)].filter Entry.isBound = [_] :=
          filter_cons_of_pos (decide_eq_true hbound)
        rw [hone]
        exact ((Carries.refl r.h).setMap _).trans (Carries.remoteSendHandle hinv'
          ⟨source, r.bound (nameKey rmsg.name), type, session, rmsg.message⟩)
      · rw [map_remoteSendHandle, nodeOf_node]
      · exact hfits.imp_left fun h => ⟨decide_eq_true hbound, h.2⟩
  · rw [if_neg hhandle] at hstep ⊢
    rw [Except.ok.injEq] at hstep
    subst hstep
    refine hinv.push k hup ?_ (hinv.named.push_bound hhandle fun name => ?_) fun h => ?_
    · have hone : [(⟨none, ⟨source, rmsg.handle, type, session, rmsg.message⟩⟩ : Entry)].filter
          Entry.isBound = [_] :=
        filter_cons_of_pos (decide_eq_true hhandle)
      rw [hone]
      exact Carries.remoteSendHandle hinv.slots
        ⟨source, rmsg.handle, type, session, rmsg.message⟩
    · rw [map_remoteSendHandle]
    · simp at h

/-- The inputs that are no message and bind no name. -/
def Input.IsQuiet : Input → Prop
  | .remote _ _ _ _ => False
  | .command msg _ => commandName msg = none ∧ 2 ≤ msg.length
  | _ => True

theorem record_of_isQuiet {h : Harbor} (hquiet : input.IsQuiet) :
    r.record h input = { r with h } := by
  rcases input with _ | _ | _ | _ | _ | _ | ⟨msg, handle⟩ | _
  case command =>
    rw [RouteState.record, hquiet.1]
  case remote => exact hquiet.elim
  all_goals rfl

/-- **What the other inputs do**: if they take no link down, they only send what waits for a link
that is established. -/
theorem mainloop_of_isQuiet {h : Harbor} (hinv : SlotsInv h) (hin : Delivers input)
    (hquiet : input.IsQuiet) :
    mainloop h input = .error .cookieBelowBuffer ∨
      ∃ h₁, mainloop h input = .ok h₁ ∧ h₁.map = h.map ∧
        ((∀ j, (h₁.s j).status ≠ .down) → Carries h h₁ []) := by
  have hcall : ∀ c : Call, c.isOutbound = false → c.answer = none →
      (h.call c).map = h.map ∧ ((∀ j, ((h.call c).s j).status ≠ .down) →
        Carries h (h.call c) []) := fun c hout hanswer =>
    ⟨rfl, fun _ => Carries.call hinv hout hanswer⟩
  rcases input with ⟨fd, ud, c⟩ | fd | fd | _ | ⟨fd, ud⟩ | _ | ⟨msg, handle⟩ | _
  case remote => exact hquiet.elim
  case socketData =>
    obtain ⟨hud, hc⟩ := hin
    simp only at hud hc
    subst hud
    rw [mainloop]
    obtain herror | ⟨h', size, heq, hcases⟩ :
        pushSocketData h ⟨fd, c.bytes.length, c⟩ = .error .cookieBelowBuffer ∨ _ :=
      pushSocketData_cases hinv hc
    · rw [herror]
      exact Or.inl rfl
    · refine Or.inr ⟨h'.call (.free c.addr), by rw [heq], ?_⟩
      obtain rfl | hstep := hcases
      · refine ⟨rfl, fun _ => Carries.trans ?_ (Carries.call hinv rfl rfl)⟩
        refine Carries.quiet (Keeps.callAll hinv (by simp [Call.answer])) (fun _ => rfl) ?_
        rw [outbound_callAll]
        exact append_nil _
      · have k := Keeps.of_dataStep hinv hstep
        exact ⟨hstep.map_eq, fun hup =>
          (Carries.dataStep hinv hstep hup).trans (Carries.call k.slots rfl rfl)⟩
  case command =>
    obtain ⟨h₁, heq, ⟨text, rfl, htext⟩ | ⟨id, fd, hfd, hfree, hh₁⟩⟩ :
        ∃ h₁, harborCommand h msg handle = .ok h₁ ∧ _ :=
      harborCommand_of_none hquiet.1 hquiet.2
    · exact Or.inr ⟨_, heq, hcall _ htext rfl⟩
    · refine Or.inr ⟨h₁, heq, ?_, fun _ => Carries.linked hinv hfd hfree hh₁⟩
      obtain rfl | rfl := hh₁ <;> rfl
  case socketConnect => exact Or.inr ⟨h, rfl, rfl, fun _ => Carries.refl h⟩
  case socketOther => exact Or.inr ⟨_, rfl, hcall _ rfl rfl⟩
  case socketWarning =>
    rw [mainloop]
    split_ifs
    · exact Or.inr ⟨_, rfl, hcall _ rfl rfl⟩
    · exact Or.inr ⟨h, rfl, rfl, fun _ => Carries.refl h⟩
  all_goals
    rw [mainloop]
    split_ifs
    · exact Or.inr ⟨_, rfl, hcall _ (isOutbound_of_type_zero rfl) rfl⟩
    · exact Or.inr ⟨_, rfl, hcall _ rfl rfl⟩

/-! ### Runs -/

theorem RouteInv.bind {msg : List UInt8} {handle : UInt32} {name : GlobalName}
    (hinv : RouteInv id r) (hin : Permits r (.command msg handle))
    (hname : commandName msg = some name) :
    ∃ h, mainloop r.h (.command msg handle) = .ok h ∧
      RouteInv id (r.record h (.command msg handle)) := by
  obtain ⟨h, heq, hwaits, hmap, hcarries⟩ := updateName_of_permits hinv hin hname
  have hmain : mainloop r.h (.command msg handle) = .ok h := by
    rw [mainloop, harborCommand_of_name hname, heq]
  have k := Keeps.mainloop hinv.slots hin.delivers hmain
  refine ⟨h, hmain, ?_⟩
  simp only [RouteState.record, hname]
  refine ⟨k.slots, k.id_eq.trans hinv.id_eq, hin.up h hmain, carried_step hinv hcarries ?_,
    hinv.named.bind hwaits hmap, fun e he hsome => ?_⟩
  · obtain hhandle | hnone := hwaits
    · exact map_bind_perm hhandle
    · rw [map_bind_of_none hnone, hnone, map_nil, append_nil]
  · obtain ⟨e, he', rfl⟩ := mem_map.mp he
    rw [Entry.bind] at hsome ⊢
    split_ifs at hsome ⊢ with hwait
    · refine (hinv.fits e he' hsome).elim (fun h => ?_) Or.inr
      exact absurd (of_decide_eq_true hwait).2 (of_decide_eq_true h.1)
    · exact hinv.fits e he' hsome

theorem routeStep_eq {h : Harbor} (hmain : mainloop r.h input = .ok h) :
    routeStep r input = .ok (r.record h input) := by
  rw [routeStep, hmain]

/-- **A permitted input keeps the log, the queues and the calls together.** It fails only with a
frame that is too short for its cookie. -/
theorem RouteInv.step (hinv : RouteInv id r) (hin : Permits r input) :
    mainloop r.h input = .error .cookieBelowBuffer ∨
      ∃ r', routeStep r input = .ok r' ∧ RouteInv id r' := by
  by_cases hquiet : input.IsQuiet
  · obtain herror | ⟨h, heq, hmap, hcarries⟩ :=
      mainloop_of_isQuiet hinv.slots hin.delivers hquiet
    · exact Or.inl herror
    · refine Or.inr ⟨_, routeStep_eq heq, ?_⟩
      rw [record_of_isQuiet hquiet]
      have hup := hin.up h heq
      exact hinv.quiet (Keeps.mainloop hinv.slots hin.delivers heq) hup (hcarries hup) hmap
  · rcases input with _ | _ | _ | _ | _ | _ | ⟨msg, handle⟩ | ⟨source, type, session, rmsg⟩
    case command =>
      rcases hname : commandName msg with _ | name
      · exact absurd ⟨hname, hin.long msg handle rfl⟩ hquiet
      · obtain ⟨h, heq, hinv'⟩ := hinv.bind hin hname
        exact Or.inr ⟨_, routeStep_eq heq, hinv'⟩
    case remote =>
      have hmain : ∃ h, mainloop r.h (.remote source type session rmsg) = .ok h := by
        rw [mainloop]
        split_ifs
        · exact ⟨_, rfl⟩
        · exact ⟨_, rfl⟩
      obtain ⟨h, heq⟩ := hmain
      exact Or.inr ⟨_, routeStep_eq heq, hinv.remote hin heq⟩
    all_goals exact absurd trivial hquiet

theorem routeInv_reaches (hrun : Reaches routeStep Permits (routeInit id slave) r) :
    RouteInv id r := by
  refine hrun.invariant .init fun u v input hu hin hstep => ?_
  obtain herror | ⟨r', heq, hinv⟩ := hu.step hin
  · rw [routeStep, herror] at hstep
    simp at hstep
  · rw [heq, Except.ok.injEq] at hstep
    exact hstep ▸ hinv

/-- How a message is delivered: it is handed to the local service, or written to the link of its
harbor as a frame with the low bits of the handle. -/
def RemoteMsg.delivery (h : Harbor) (m : RemoteMsg) : Call :=
  if m.harbor = h.id.toNat then
    .mtaskSend
      { source := m.source, destination := m.destination, type := m.type.toUInt32 ||| tagDontcopy,
        session := m.session, data := m.payload }
  else
    let frame := toBigendian m.frameSize.toUInt32 ++ m.payload.bytes ++ headerToMessage m.cookie
    .socketSend (h.s m.harbor).fd frame frame.length

theorem call_eq_delivery {e : Entry} {h : Harbor} (hid : h.id = id) (hfits : e.Fits id) :
    e.msg.call h = e.msg.delivery h := by
  rw [RemoteMsg.call, RemoteMsg.delivery, hid]
  split_ifs with hlocal
  · rfl
  · have hsize : e.msg.frameSize + 4 < 2 ^ 31 := hfits.resolve_left fun h => hlocal h.2
    have hle : ¬e.msg.payload.bytes.length + headerCookieLength > uint32Max := by
      rw [RemoteMsg.frameSize] at hsize
      have hmax : uint32Max = 2 ^ 32 - 1 := rfl
      omega
    have hint : toInt (e.msg.frameSize + 4) = (e.msg.frameSize + 4 : ℕ) := by
      rw [toInt, Int.bmod_eq_of_le (by omega) (by omega)]
      rfl
    have hlen : (toBigendian e.msg.frameSize.toUInt32 ++ e.msg.payload.bytes ++
        headerToMessage e.msg.cookie).length = e.msg.frameSize + 4 := by
      have hfour : (toBigendian e.msg.frameSize.toUInt32).length = 4 := rfl
      rw [length_append, length_append, hfour, length_headerToMessage,
        RemoteMsg.frameSize]
      omega
    rw [remoteCall, if_neg hle]
    simp only [hlen, ← hint]
    rfl

section Example

/-- The name `ab` as a command binds it. -/
private def nameAb : GlobalName :=
  padName [0x61, 0x62]

/-- A message to `ab`, which is bound to a handle of harbor 2 before there is a link to it. -/
private def nameBeforeLink : List Input :=
  [.remote 0x01000003 10 5 ⟨0, nameAb, ⟨100, [1]⟩⟩,
    .command [0x4e, 0x20, 0x61, 0x62] 0x02000005,
    .command [0x41, 0x20, 0x37, 0x20, 0x32] 9]

private theorem Permits.of_up {h : Harbor} (hdelivers : Delivers input)
    (hlong : ∀ msg source, input = .command msg source → 2 ≤ msg.length)
    (hmain : mainloop r.h input = .ok h) (hup : ∀ j, (h.s j).status ≠ .down)
    (hnone : r.log = [])
    (hfits : ∀ source type session rmsg, input = .remote source type session rmsg →
      rmsg.message.bytes.length + headerCookieLength + 4 < 2 ^ 31) : Permits r input where
  delivers := hdelivers
  long := hlong
  up h' heq := by
    rw [hmain, Except.ok.injEq] at heq
    exact heq ▸ hup
  bind msg handle name _ _ := by simp [hnone]
  fits source type session rmsg heq _ := Or.inr (hfits source type session rmsg heq)

end Example

end Mtask.HarborService
