import Mathlib.Data.List.TakeWhile
import Mtask.HarborService.NameRouting
import Mtask.Lua.Strings
import Mtask.Server.Send

/-!
# The keys of global names

A global name goes two ways to the map of the harbor service. The slave registers it with a command
`N`, in which `harbor_command` fills the array of the name with zeros; whoever sends to it hands it
to `mtask_sendname`, where `copy_name` makes the array. Which names there are is decided by
`globalname` of `manager.lua`, with a limit of its own.
-/

namespace Mtask.HarborService

open Lua (Bytes)
open Server (copyName)
open Transition (Reaches)

/-! ### The two ways of a name -/

/-- `globalname` of `manager.lua`, up to the registration: `none` if an assertion fails, `false` for
the name of a service of this node. -/
def globalname (str2d : Bytes → Option Lua.Double) (name : Bytes) : Option Bool :=
  let c := Lua.sub name 1 1
  if c = [0x3a] then none
  else if c = [0x2e] then some false
  else if ¬name.length ≤ 16 then none
  else if (Lua.tonumber str2d name).isSome then none
  else some true

/-- The command of the slave, `"N " .. name`. -/
def registration (name : Bytes) : List UInt8 :=
  0x4e :: 0x20 :: name

theorem length_copyName (addr : List UInt8) : (copyName addr).length = globalnameLength := by
  rw [copyName, List.length_append, List.length_take, List.length_replicate]
  have hlength : Server.globalnameLength = globalnameLength := rfl
  omega

/-- The name in a `remote_message`: `copy_name` of the characters of the name, which `lua_tostring`
has given to `mtask_sendname`. -/
def destinationName (name : Bytes) : GlobalName :=
  ⟨(copyName (cString name)).toArray, by rw [List.size_toArray, length_copyName]⟩

theorem toList_destinationName (name : Bytes) :
    (destinationName name).toList = copyName (cString name) := rfl

variable {source : UInt32} {session : Int32}

/-- `mtask_harbor_send` hands the destination on. -/
theorem harborSend_remote {w w' : Server.Node} {rmsg : Server.RemoteMessage}
    (heq : w.harborSend rmsg source session = .ok w') :
    ∃ log addr sz, w'.log = w.log ++ log ∧ Server.Effect.remote addr { rmsg with sz } ∈ log := by
  rw [Server.Node.harborSend] at heq
  split_ifs at heq
  split at heq
  · simp at heq
  · rw [← Except.ok.inj heq]
    exact ⟨_, _, _, rfl, List.mem_cons_self⟩

variable {str2d : Bytes → Option Lua.Double}

/-- What `mtask_sendname` gives to the harbor service for a name that is accepted. -/
theorem sendname_remote {name : Bytes} {w w' : Server.Node} {context : Option ℕ} {type ret : Int32}
    {data : Option ℕ} {sz : UInt64} (hname : globalname str2d name = some true)
    (hsend : w.sendname context source (cString name) type session data sz = .ok (ret, w')) :
    ∃ log addr rmsg, w'.log = w.log ++ log ∧ Server.Effect.remote addr rmsg ∈ log ∧
      rmsg.name = (destinationName name).toList ∧ rmsg.handle = 0 := by
  have hfirst : ∀ c s, cString name = c :: s → Lua.sub name 1 1 = [c] := fun c s heq => by
    rcases name with _ | ⟨b, name⟩
    · simp [cString] at heq
    · rw [cString, List.takeWhile_cons] at heq
      split_ifs at heq
      obtain ⟨rfl, -⟩ := List.cons.inj heq
      simp [Lua.sub, Lua.posrelat]
  rw [globalname] at hname
  rw [Server.Node.sendname] at hsend
  split at hsend
  · simp at hsend
  split at hsend
  · rename_i heq
    simp [hfirst _ _ heq] at hname
  · rename_i heq
    simp [hfirst _ _ heq] at hname
  · rename_i source' _ _ _ _
    rcases hsession : w.filterSession context type session with e | ⟨session', w₁⟩
    · simp [hsession] at hsend
    rcases hdata : w₁.filterData type data sz with ⟨data', w₂⟩
    simp only [hsession, hdata] at hsend
    rcases hharbor : w₂.harborSend
      ⟨copyName (cString name), 0, data', Server.Node.filterSize type sz⟩ source' session' with e | w₃
    · simp [hharbor] at hsend
    · simp only [hharbor, Except.ok.injEq, Prod.mk.injEq] at hsend
      obtain ⟨-, rfl⟩ := hsend
      obtain ⟨copies, hcopies⟩ := Server.Node.log_filterData hdata
      obtain ⟨log, addr, sz', hlog, hremote⟩ := harborSend_remote hharbor
      refine ⟨copies ++ log, addr, _, ?_, List.mem_append_right copies hremote, rfl, rfl⟩
      rw [hlog, hcopies, (Server.Node.filterSession_eq hsession).1, List.append_assoc]

/-! ### The array of a name -/

section Array

variable {name name' : Bytes}

/-- A name is its characters and what follows the first zero. -/
theorem cString_append (name : Bytes) :
    cString name ++ name.dropWhile (fun b => b ≠ 0) = name :=
  List.takeWhile_append_dropWhile

theorem ne_zero_of_mem_cString {b : UInt8} (hb : b ∈ cString name) : b ≠ 0 := by
  rw [cString] at hb
  simpa using List.mem_takeWhile_imp hb

theorem length_cString_le (name : Bytes) : (cString name).length ≤ name.length :=
  (List.takeWhile_sublist _).length_le

theorem getElem_padName (name : Bytes) (i : ℕ) (hi : i < globalnameLength) :
    (padName name)[i] = name.getD i 0 := by
  simp [padName]

theorem getElem_destinationName (name : Bytes) (i : ℕ) (hi : i < globalnameLength) :
    (destinationName name)[i] = (cString name).getD i 0 := by
  have hlength : Server.globalnameLength = globalnameLength := rfl
  simp only [destinationName, Vector.getElem_mk, List.getElem_toArray, copyName, hlength]
  rw [List.getElem_append]
  split_ifs with hlt
  · rw [List.length_take] at hlt
    rw [List.getElem_take, List.getD_eq_getElem _ _ (by omega)]
  · rw [List.length_take] at hlt
    rw [List.getElem_replicate, List.getD_eq_default _ _ (by omega)]

/-- The characters of the array are those of the name, up to the length of the array. -/
theorem cString_destinationName (hlength : (cString name).length ≤ globalnameLength) :
    cString (destinationName name).toList = cString name := by
  have hne : ∀ b ∈ cString name, decide (b ≠ 0) = true := fun b hb =>
    decide_eq_true (ne_zero_of_mem_cString hb)
  have hglobal : Server.globalnameLength = globalnameLength := rfl
  rw [toList_destinationName, copyName, hglobal, List.take_of_length_le hlength, cString,
    List.takeWhile_append_of_pos hne, List.takeWhile_eq_nil_iff.mpr, List.append_nil]
  intro hpos
  simp

/-- A byte of a name is one of its characters, or of what follows the first zero. -/
theorem getD_eq (name : Bytes) (i : ℕ) :
    name.getD i 0 = if i < (cString name).length then (cString name).getD i 0
      else (name.dropWhile fun b => b ≠ 0).getD (i - (cString name).length) 0 := by
  conv_lhs => rw [← cString_append name]
  split_ifs with hi
  · exact List.getD_append _ _ _ _ hi
  · exact List.getD_append_right _ _ _ _ (Nat.le_of_not_lt hi)

/-- **When both sides make the same array of a name.** -/
theorem padName_eq_iff (hlength : name.length ≤ globalnameLength) :
    padName name = destinationName name ↔ ∀ b ∈ name.dropWhile (fun b => b ≠ 0), b = 0 := by
  constructor
  · intro heq b hb
    obtain ⟨k, hk, rfl⟩ := List.mem_iff_getElem.mp hb
    have htotal := congrArg List.length (cString_append name)
    rw [List.length_append] at htotal
    have hi : (cString name).length + k < globalnameLength := by omega
    have hat := congrArg (fun v : GlobalName => v[(cString name).length + k]) heq
    simp only [getElem_padName, getElem_destinationName] at hat
    rw [getD_eq, if_neg (by omega), Nat.add_sub_cancel_left, List.getD_eq_getElem _ _ hk,
      List.getD_eq_default _ _ (by omega)] at hat
    exact hat
  · intro hzero
    refine Vector.ext fun i hi => ?_
    rw [getElem_padName, getElem_destinationName, getD_eq]
    split_ifs with hlt
    · rfl
    · rw [List.getD_eq_default (cString name) _ (Nat.le_of_not_lt hlt), List.getD_eq_getElem?_getD]
      rcases hget : (name.dropWhile fun b => b ≠ 0)[i - (cString name).length]? with _ | b
      · rfl
      · exact hzero b (List.mem_of_getElem? hget)

end Array

/-! ### What changes a binding -/

variable {input : Input} {msg : List UInt8}

section Map

variable {h h₁ : Harbor} {id : ℕ} {fd size : ℤ} {buffer : List UInt8}

theorem map_closeHarbor : (closeHarbor h id).map = h.map := by
  rw [closeHarbor_eq]
  rfl

theorem map_dispatchQueue (heq : dispatchQueue h id = .ok h₁) : h₁.map = h.map := by
  by_cases hfd : (h.s id).fd = 0
  · simp [dispatchQueue, hfd] at heq
  · rw [dispatchQueue_eq h hfd, Except.ok.injEq] at heq
    rw [← heq]
    rfl

theorem map_forwardLocalMessage {msg : Buffer} {sz : ℤ}
    (heq : forwardLocalMessage h msg sz = .ok h₁) : h₁.map = h.map := by
  rw [forwardLocalMessage] at heq
  split_ifs at heq
  rw [← Except.ok.inj heq]
  rfl

variable {flow : Flow}

theorem map_contentCase (heq : contentCase h id buffer size = .ok flow) :
    flow.harbor.map = h.map := by
  unfold contentCase at heq
  dsimp only at heq
  split at heq
  · simp at heq
  split at heq
  · split at heq <;> cases heq
    rfl
  · split at heq
    · simp at heq
    split at heq
    · simp at heq
    rename_i hforward
    have hmap := map_forwardLocalMessage hforward
    split at heq <;> cases heq <;> exact hmap

theorem map_headerCase (heq : headerCase h id buffer size = .ok flow) :
    flow.harbor.map = h.map := by
  unfold headerCase at heq
  dsimp only at heq
  split at heq
  · split at heq <;> cases heq
    rfl
  · split at heq
    · simp at heq
    split at heq
    · cases heq
      exact map_closeHarbor
    split at heq
    · cases heq
      rfl
    · have hmap := map_contentCase heq
      exact hmap

theorem map_handshakeCase (heq : handshakeCase h id fd buffer size = .ok flow) :
    flow.harbor.map = h.map := by
  unfold handshakeCase at heq
  split at heq
  · simp at heq
  split at heq
  · cases heq
    exact map_closeHarbor
  · split at heq
    · simp at heq
    rename_i hdispatch
    have hmap := map_dispatchQueue hdispatch
    split at heq
    · cases heq
      exact hmap
    · exact (map_headerCase heq).trans hmap

theorem map_statusCase (heq : statusCase h id fd buffer size = .ok flow) :
    flow.harbor.map = h.map := by
  unfold statusCase at heq
  split at heq
  · exact map_handshakeCase heq
  · exact map_headerCase heq
  · exact map_contentCase heq
  all_goals
    cases heq
    rfl

variable {size₁ : ℤ}

theorem map_socketDataLoop (n : ℕ) (heq : socketDataLoop id fd n h buffer size = .ok (h₁, size₁)) :
    h₁.map = h.map := by
  induction n generalizing h buffer size with
  | zero => simp [socketDataLoop] at heq
  | succ n ih =>
    rw [socketDataLoop] at heq
    split at heq
    · simp at heq
    · rename_i hstatus
      cases heq
      exact map_statusCase hstatus
    · rename_i hstatus
      exact (ih heq).trans (map_statusCase hstatus)

theorem map_pushSocketData {message : SocketData} {size₁ : ℤ}
    (heq : pushSocketData h message = .ok (h₁, size₁)) : h₁.map = h.map := by
  unfold pushSocketData at heq
  dsimp only at heq
  split_ifs at heq
  · cases heq
    rfl
  · exact map_socketDataLoop _ heq

variable {handle : UInt32}

theorem map_harborCommand (hname : commandName msg = none)
    (heq : harborCommand h msg handle = .ok h₁) : h₁.map = h.map := by
  rcases msg with _ | ⟨command, msg⟩
  · simp [harborCommand] at heq
  rw [harborCommand] at heq
  split_ifs at heq with hn hs hlink
  · cases heq
    rfl
  · have hlength : (msg.drop 1).length = msg.length - 1 := List.length_drop
    have hne : msg.drop 1 ≠ [] ∧ (msg.drop 1).length < globalnameLength := by
      rw [← List.length_pos_iff_ne_nil, hlength]
      rw [List.length_cons] at hs
      omega
    rw [commandName, if_pos ⟨hn, hne⟩] at hname
    simp at hname
  · obtain ⟨h', heq', ⟨text, -, rfl⟩ | ⟨id, fd, -, -, -, -, rfl | rfl⟩⟩ :=
      linkCommand_cases h command (msg.drop 1)
    all_goals
      rw [heq', Except.ok.injEq] at heq
      rw [← heq]
      rfl
  · cases heq
    rfl

theorem map_dispatchNameQueue {node : KeyValue} {queue : HarborMsgQueue}
    {left : Option HarborMsgQueue} (heq : dispatchNameQueue h node queue = .ok (h₁, left)) :
    h₁.map = h.map := by
  unfold dispatchNameQueue at heq
  dsimp only at heq
  split at heq
  · simp at heq
  split at heq
  · split at heq
    · cases heq
      rfl
    split at heq <;> cases heq <;> rfl
  · cases heq
    have hsend : ∀ h' m, sendQueued (h.s (node.value >>> handleRemoteShift).toNat).fd h'
        (bindMsg node.value m) = h'.callAll (queuedCalls _ (bindMsg node.value m)) :=
      fun h' m => sendQueued_eq h' _ _
    have hmap := congrArg Harbor.map (foldl_callAll h hsend (popAll queue))
    exact hmap

variable {key : GlobalName}

/-- Binding a name changes what is bound to its key only. -/
theorem value_updateName {name : GlobalName} (heq : updateName h name handle = .ok h₁) :
    (nodeOf h₁.map key).1 =
      if nameKey name = nameKey key then handle else (nodeOf h.map key).1 := by
  have hbound : (nodeOf (boundMap h.map name handle) key).1 =
      if nameKey name = nameKey key then handle else (nodeOf h.map key).1 := by
    rw [nodeOf_boundMap]
    split_ifs <;> rfl
  rw [← hbound]
  unfold updateName at heq
  dsimp only at heq
  split at heq
  · cases heq
    rfl
  · split at heq
    · simp at heq
    rename_i h₂ left hdispatch
    have hmap := map_dispatchNameQueue hdispatch
    cases heq
    have hemptied : nodeOf (emptiedMap (releaseQueue h₂ left).map name) key = _ :=
      nodeOf_emptiedMap
    refine (congrArg Prod.fst hemptied).trans ?_
    rw [releaseQueue_eq, map_callAll, hmap]
    split_ifs <;> rfl

theorem value_remoteSendName {name : GlobalName} {type : UInt8} {msg : Buffer} :
    (nodeOf (freeUnless msg.addr (remoteSendName h source name type session msg)).map key).1 =
      (nodeOf h.map key).1 := by
  by_cases hvalue : (nodeOf h.map name).1 = 0
  · obtain ⟨queue, query, heq, -⟩ :
        ∃ queue query, remoteSendName h source name type session msg = _ ∧ _ :=
      remoteSendName_of_unbound hvalue
    rw [heq]
    have hqueued : nodeOf (queuedMap h.map name queue) key = _ := nodeOf_queuedMap
    refine (congrArg Prod.fst hqueued).trans ?_
    split_ifs with hkey
    · rw [nodeOf, nodeOf, hashSearch_congr hkey]
    · rfl
  · rw [remoteSendName_of_bound hvalue, map_remoteSendHandle, nodeOf_node]

/-- Only a command that binds a name changes what is bound. -/
theorem value_mainloop (hname : ∀ msg handle, input = .command msg handle → commandName msg = none)
    (heq : mainloop h input = .ok h₁) : (nodeOf h₁.map key).1 = (nodeOf h.map key).1 := by
  rcases input with message | fd | fd | _ | ⟨fd, ud⟩ | _ | ⟨msg, handle⟩ |
    ⟨source, type, session, rmsg⟩ <;> rw [mainloop] at heq
  case socketData =>
    split at heq
    · simp at heq
    · rename_i h' _ hpush
      cases heq
      have hmap : h'.map = h.map := map_pushSocketData hpush
      have hfree : (h'.call (.free message.buffer.addr)).map = h.map := hmap
      rw [hfree]
  case command =>
    exact congrArg (fun map => (nodeOf map key).1)
      (map_harborCommand (hname msg handle rfl) heq)
  case remote =>
    split at heq <;> cases heq
    · exact value_remoteSendName
    · exact congrArg (fun map => (nodeOf map key).1) (map_remoteSendHandle rmsg.handle)
  all_goals
    first
    | (cases heq; rfl)
    | (split at heq <;> cases heq <;> rfl)

end Map

/-! ### Names that are keyed alike -/

/-- The service, and the handle that each name was registered for (`0` for none). -/
structure KeyState where
  h : Harbor
  bound : Bytes → UInt32

namespace KeyState

def record (r : KeyState) (h : Harbor) : Input → KeyState
  | .command (0x4e :: 0x20 :: name) handle => ⟨h, Function.update r.bound name handle⟩
  | _ => ⟨h, r.bound⟩

def start (h : Harbor) : KeyState :=
  ⟨h, fun _ => 0⟩

end KeyState

/-- A step of the service that takes note of what is registered. -/
def keyStep (r : KeyState) (input : Input) : Except HarborFault KeyState :=
  match mainloop r.h input with
  | .error e => .error e
  | .ok h => .ok (r.record h input)

/-- The slave registers only these names, each for a handle. -/
def Registers (names : Set Bytes) (input : Input) : Prop :=
  ∀ msg handle, input = .command msg handle → msg.head? = some 0x4e →
    handle ≠ 0 ∧ ∃ name ∈ names, msg = registration name

/-- The names have the same keys on both sides. -/
structure KeyedAlike (names : Set Bytes) : Prop where
  /-- `mtask_sendname` asks the service for this array -/
  sent : ∀ name ∈ names, ∀ (w w' : Server.Node) context source type session data sz ret,
    w.sendname context source (cString name) type session data sz = .ok (ret, w') →
    ∃ log addr rmsg, w'.log = w.log ++ log ∧ Server.Effect.remote addr rmsg ∈ log ∧
      rmsg.name = (destinationName name).toList ∧ rmsg.handle = 0
  /-- a registration binds the same array -/
  key : ∀ name ∈ names, ∀ h handle,
    harborCommand h (registration name) handle = updateName h (destinationName name) handle
  found : ∀ h r, Reaches keyStep (fun _ => Registers names) (KeyState.start h) r →
    ∀ name ∈ names, r.bound name ≠ 0 → ∀ source type session msg,
      remoteSendName r.h source (destinationName name) type session msg =
        remoteSendHandle { r.h with map := (hashNode r.h.map (destinationName name)).1 } source
          (r.bound name) type session msg
  /-- no two names share a key -/
  distinct : ∀ name ∈ names, ∀ name' ∈ names,
    nameKey (destinationName name) = nameKey (destinationName name') → name = name'

/-- The names fit into the keys: they are not empty, leave room for a zero, hold only zeros behind a
zero, and do not differ in such zeros alone. -/
structure FitsKey (names : Set Bytes) : Prop where
  nonempty : ∀ name ∈ names, 0 < name.length
  short : ∀ name ∈ names, name.length < 16
  zeros : ∀ name ∈ names, ∀ b ∈ name.dropWhile (fun b => b ≠ 0), b = 0
  apart : ∀ name ∈ names, ∀ name' ∈ names, cString name = cString name' → name = name'

section Alike

variable {names : Set Bytes} {name : Bytes} {h : Harbor} {handle : UInt32}

theorem commandName_registration (hpos : 0 < name.length) (hshort : name.length < 16) :
    commandName (registration name) = some (padName name) :=
  if_pos ⟨rfl, List.length_pos_iff_ne_nil.mp hpos, hshort⟩

theorem harborCommand_refused (hlength : ¬(0 < name.length ∧ name.length < 16)) :
    harborCommand h (registration name) handle =
      .ok (h.call (.error (.invalidGlobalName (cString name)))) := by
  rw [registration, harborCommand]
  simp only [List.length_cons, List.drop_succ_cons, List.drop_zero, if_true]
  rw [if_pos]
  simp only [globalnameLength]
  omega

theorem commandName_of_head (hhead : msg.head? ≠ some 0x4e) : commandName msg = none := by
  rcases msg with _ | ⟨command, msg⟩
  · rfl
  · exact if_neg fun h => hhead (congrArg some h.1)

/-- What is not a registration changes no note. -/
theorem bound_record {r : KeyState}
    (hinput : ∀ msg handle, input = .command msg handle → msg.head? ≠ some 0x4e) :
    (r.record h input).bound = r.bound := by
  unfold KeyState.record
  split
  · exact absurd rfl (hinput _ _ rfl)
  · rfl

namespace FitsKey

theorem commandName_eq (hfits : FitsKey names) (hname : name ∈ names) :
    commandName (registration name) = some (destinationName name) := by
  have hshort := hfits.short name hname
  rw [commandName_registration (hfits.nonempty name hname) hshort,
    (padName_eq_iff (Nat.le_of_lt hshort)).mpr (hfits.zeros name hname)]

theorem eq_of_nameKey (hfits : FitsKey names) {name' : Bytes} (hname : name ∈ names)
    (hname' : name' ∈ names)
    (hkey : nameKey (destinationName name) = nameKey (destinationName name')) : name = name' := by
  have hle : ∀ name ∈ names, (cString name).length ≤ globalnameLength := fun name hname =>
    (length_cString_le name).trans (Nat.le_of_lt (hfits.short name hname))
  have hstring := congrArg Prod.snd hkey
  simp only [nameKey] at hstring
  rw [cString_destinationName (hle name hname), cString_destinationName (hle name' hname')]
    at hstring
  exact hfits.apart name hname name' hname' hstring

theorem value_step {r r' : KeyState} (hfits : FitsKey names)
    (hbound : ∀ name ∈ names, r.bound name ≠ 0 →
      (nodeOf r.h.map (destinationName name)).1 = r.bound name) (hregisters : Registers names input)
    (hstep : keyStep r input = .ok r') :
    ∀ name ∈ names, r'.bound name ≠ 0 →
      (nodeOf r'.h.map (destinationName name)).1 = r'.bound name := by
  intro name hname hne
  rw [keyStep] at hstep
  split at hstep
  · simp at hstep
  rename_i h hmain
  cases hstep
  by_cases hcommand : ∃ msg handle, input = .command msg handle ∧ msg.head? = some 0x4e
  · obtain ⟨msg, handle, rfl, hhead⟩ := hcommand
    obtain ⟨-, name₀, hname₀, rfl⟩ := hregisters msg handle rfl hhead
    rw [mainloop, harborCommand_of_name (hfits.commandName_eq hname₀)] at hmain
    have hvalue : (nodeOf h.map (destinationName name)).1 = _ := value_updateName hmain
    have hrecord : (r.record h (.command (registration name₀) handle)).bound =
        Function.update r.bound name₀ handle := rfl
    rw [hrecord] at hne ⊢
    refine hvalue.trans ?_
    by_cases heq : name = name₀
    · rw [heq, if_pos rfl, Function.update_self]
    · rw [Function.update_of_ne heq] at hne ⊢
      rw [if_neg fun hkey => heq (hfits.eq_of_nameKey hname₀ hname hkey).symm]
      exact hbound name hname hne
  · have hother : ∀ msg handle, input = .command msg handle → msg.head? ≠ some 0x4e :=
      fun msg handle heq hhead => hcommand ⟨msg, handle, heq, hhead⟩
    have hrest : (r.record h input).bound = r.bound := bound_record hother
    have hvalue : (nodeOf h.map (destinationName name)).1 = _ :=
      value_mainloop (fun msg handle heq => commandName_of_head (hother msg handle heq)) hmain
    have hh : (r.record h input).h = h := by
      unfold KeyState.record
      split <;> rfl
    rw [hrest] at hne ⊢
    rw [hh]
    exact hvalue.trans (hbound name hname hne)

/-- **Names that fit are keyed alike.** -/
theorem keyedAlike (haccepted : ∀ name ∈ names, globalname str2d name = some true)
    (hfits : FitsKey names) :
    KeyedAlike names where
  sent name hname _ _ _ _ _ _ _ _ _ hsend := sendname_remote (haccepted name hname) hsend
  key _ hname _ _ := harborCommand_of_name (hfits.commandName_eq hname)
  found h r hrun name hname hne source type session msg := by
    have hbound : ∀ name ∈ names, r.bound name ≠ 0 →
        (nodeOf r.h.map (destinationName name)).1 = r.bound name :=
      hrun.invariant (fun name _ hne => absurd rfl hne) fun _ _ _ hr hok hstep =>
        hfits.value_step hr hok hstep
    have hvalue := hbound name hname hne
    rw [← hvalue]
    exact remoteSendName_of_bound (by rwa [hvalue])
  distinct _ hname _ hname' := hfits.eq_of_nameKey hname hname'

end FitsKey

/-- A binding shows the array under which it was made. -/
theorem updateName_injective {name name' : GlobalName}
    (heq : updateName (harborInit 1 0) name 1 = updateName (harborInit 1 0) name' 1) :
    name = name' := by
  have hnew : ∀ name, updateName (harborInit 1 0) name 1 =
      .ok { harborInit 1 0 with map := boundMap hashNew name 1 } := fun name =>
    updateName_of_none rfl
  have hnode : ∀ name, (boundMap hashNew name 1).node =
      Function.update (fun _ => []) (hashIndex name) [⟨name, nameHash name, 1, none⟩] :=
    fun name => by
      have hself : (hashInsert hashNew name).2.matches name = true := matches_iff.mpr rfl
      have hinsert : hashNode hashNew name = hashInsert hashNew name := by
        rw [hashNode, hashSearch_new]
      rw [hashInsert] at hself
      rw [boundMap, hinsert, hashModify]
      simp only [hashInsert, Function.update_self, Function.update_idem, List.findIdx_cons, hself,
        cond_true, List.modify_zero_cons, hashNew]
  rw [hnew, hnew, Except.ok.injEq] at heq
  have hlist := congrArg (fun h : Harbor => h.map.node (hashIndex name)) heq
  simp only [hnode, Function.update_self] at hlist
  by_cases hindex : hashIndex name = hashIndex name'
  · rw [hindex, Function.update_self] at hlist
    exact congrArg KeyValue.key (List.cons.inj hlist).1
  · rw [Function.update_of_ne hindex] at hlist
    simp at hlist

/-- **Only names that fit are keyed alike.** -/
theorem KeyedAlike.fitsKey (halike : KeyedAlike names) : FitsKey names := by
  have hlength : ∀ name ∈ names, 0 < name.length ∧ name.length < 16 := fun name hname => by
    by_contra hlength
    have hkey := halike.key name hname (harborInit 1 0) 1
    rw [harborCommand_refused hlength, updateName_of_none rfl, Except.ok.injEq] at hkey
    have hcalls := congrArg Harbor.calls hkey
    simp [harborInit, Harbor.call] at hcalls
  refine ⟨fun name hname => (hlength name hname).1, fun name hname => (hlength name hname).2,
    fun name hname => ?_, fun name hname name' hname' hstring => ?_⟩
  · obtain ⟨hpos, hshort⟩ := hlength name hname
    rw [← padName_eq_iff (Nat.le_of_lt hshort)]
    have hkey := halike.key name hname (harborInit 1 0) 1
    rw [harborCommand_of_name (commandName_registration hpos hshort)] at hkey
    exact updateName_injective hkey
  · refine halike.distinct name hname name' hname' ?_
    rw [destinationName.eq_def name, destinationName.eq_def name']
    simp only [hstring]

end Alike

/-- **When names are keyed alike.** A set of names that `globalname` accepts has the same keys on
both sides, a registration is found by every later message, and no two names share a key, exactly if
the names fit into the keys. -/
theorem keyedAlike_iff (str2d : Bytes → Option Lua.Double) (names : Set Bytes)
    (haccepted : ∀ name ∈ names, globalname str2d name = some true) :
    KeyedAlike names ↔ FitsKey names :=
  ⟨KeyedAlike.fitsKey, FitsKey.keyedAlike haccepted⟩

/-- `"sixteen_byte_key"` -/
def sixteenBytes : Bytes :=
  [0x73, 0x69, 0x78, 0x74, 0x65, 0x65, 0x6e, 0x5f, 0x62, 0x79, 0x74, 0x65, 0x5f, 0x6b, 0x65, 0x79]

/-- The limit of `manager.lua` lets a name pass that the harbor service refuses. -/
theorem sixteenBytes_refused :
    globalname (fun _ => none) sixteenBytes = some true ∧
      harborCommand (harborInit 1 9) (registration sixteenBytes) 0x01000003 =
        .ok ((harborInit 1 9).call (.error (.invalidGlobalName sixteenBytes))) ∧
      ¬KeyedAlike {sixteenBytes} := by
  refine ⟨by decide +kernel, ?_, fun halike => ?_⟩
  · exact harborCommand_refused (by decide)
  · have hshort := halike.fitsKey.short sixteenBytes rfl
    exact absurd hshort (by decide)

/-- Two names that are keyed alike. -/
theorem keyedAlike_ab_cd : KeyedAlike {[0x61, 0x62], [0x63, 0x64]} := by
  refine (keyedAlike_iff (fun _ => none) _ fun name hname => ?_).mpr
    ⟨fun name hname => ?_, fun name hname => ?_, fun name hname => ?_,
      fun name hname name' hname' => ?_⟩
  · obtain rfl | rfl := hname <;> decide +kernel
  · obtain rfl | rfl := hname <;> decide
  · obtain rfl | rfl := hname <;> decide
  · obtain rfl | rfl := hname <;> decide +kernel
  · obtain rfl | rfl := hname <;> obtain rfl | rfl := hname' <;> decide

end Mtask.HarborService
