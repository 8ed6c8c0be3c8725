import Mtask.Handle.Storage
import Mtask.Message

/-!
# Sending a message

`mtask_send` and `mtask_sendname` give a message to the mailbox of a context of the node, or wrap it
for the harbor service. The payload is copied unless the type has the tag `PTYPE_TAG_DONTCOPY`, with
which the caller gives its buffer away. What the two functions do to blocks and mailboxes is kept in
a log.
-/

namespace Mtask.Server

open Handle (HandleStorage handleMask)
open List

/-- `PTYPE_SYSTEM` -/
def ptypeSystem : ℕ := 4

/-- `PTYPE_HARBOR` -/
def ptypeHarbor : ℕ := 5

/-- `PTYPE_TAG_ALLOCSESSION` -/
def ptypeTagAllocsession : ℕ := 0x20000

/-- `MESSAGE_TYPE_MASK` -/
def messageTypeMask : UInt64 := 0x00ffffffffffffff

/-- `GLOBALNAME_LENGTH` -/
def globalnameLength : ℕ := 16

/-- `struct remote_message`; a name that is not written is `[]`. -/
structure RemoteMessage where
  name : List UInt8
  handle : UInt32
  message : Option ℕ
  sz : UInt64
  deriving DecidableEq, Repr

/-- `sizeof(struct remote_message)` -/
def sizeofRemoteMessage : ℕ := 40

/-- What is done to blocks and mailboxes. -/
inductive Effect
  | copy (addr data : ℕ) (sz : UInt64)
  /-- a block with a `remote_message` -/
  | remote (addr : ℕ) (rmsg : RemoteMessage)
  /-- `mtask_free` -/
  | free (data : Option ℕ)
  /-- `mtask_mq_push` to the queue of a context -/
  | push (ctx : ℕ) (message : MtaskMessage)
  /-- `mtask_error`, of a message that is too large -/
  | tooLarge (destination : UInt32)
  deriving DecidableEq, Repr

/-- The node as these functions read it, with the next address that `mtask_malloc` returns and the
log of the effects. -/
structure Node where
  storage : HandleStorage ℕ
  handleOf : ℕ → ℕ
  sessionId : ℕ → Int32
  harbor : UInt32
  remote : Option ℕ
  next : ℕ
  log : List Effect

inductive Fault
  /-- `assert(*session == 0)` -/
  | sessionGiven
  /-- a field of `context` is read and `context` is `NULL` -/
  | nullContext
  /-- `assert(HARBOR != ~0)` -/
  | harborUnset
  /-- `assert(type != PTYPE_SYSTEM && type != PTYPE_HARBOR && REMOTE)` -/
  | harborAssert
  deriving DecidableEq, Repr

/-- A type has the tag. -/
def HasTag (type : Int32) (tag : ℕ) : Prop :=
  type &&& Int32.ofNat tag ≠ 0

instance (type : Int32) (tag : ℕ) : Decidable (HasTag type tag) :=
  inferInstanceAs (Decidable (_ ≠ _))

/-- The size leaves the high byte to the type: `(sz & MESSAGE_TYPE_MASK) == sz`. -/
def Fits (sz : UInt64) : Prop :=
  sz &&& messageTypeMask = sz

instance (sz : UInt64) : Decidable (Fits sz) :=
  inferInstanceAs (Decidable (_ = _))

/-! ### Addresses -/

/-- `isspace` -/
def isSpace (c : UInt8) : Bool :=
  c = 0x20 ∨ 0x09 ≤ c ∧ c ≤ 0x0d

/-- The value of a hexadecimal digit. -/
def hexDigit (c : UInt8) : Option ℕ :=
  if 0x30 ≤ c ∧ c ≤ 0x39 then some (c.toNat - 0x30)
  else if 0x61 ≤ c ∧ c ≤ 0x66 then some (c.toNat - 0x61 + 10)
  else if 0x41 ≤ c ∧ c ≤ 0x46 then some (c.toNat - 0x41 + 10)
  else none

/-- The number that the digits at the front of a string make up, behind the digits that were read
before. -/
def hexNumber : ℕ → List UInt8 → ℕ
  | n, [] => n
  | n, c :: s =>
    match hexDigit c with
    | some d => hexNumber (n * 16 + d) s
    | none => n

/-- A string without the prefix `0x`, if a digit follows it. -/
def dropHexPrefix : List UInt8 → List UInt8
  | 0x30 :: x :: c :: s =>
    if (x = 0x78 ∨ x = 0x58) ∧ (hexDigit c).isSome then c :: s else 0x30 :: x :: c :: s
  | s => s

/-- The digits behind the sign; a number that is too large is `ULONG_MAX`, whatever its sign. -/
def unsignedHex (negative : Bool) (s : List UInt8) : UInt64 :=
  let n := hexNumber 0 (dropHexPrefix s)
  if 2 ^ 64 ≤ n then 0xffffffffffffffff
  else if negative then -UInt64.ofNat n
  else UInt64.ofNat n

/-- `strtoul` with base 16. -/
def strtoulHex (s : List UInt8) : UInt64 :=
  match s.dropWhile isSpace with
  | 0x2d :: s => unsignedHex true s
  | 0x2b :: s => unsignedHex false s
  | s => unsignedHex false s

/-- `copy_name` -/
def copyName (addr : List UInt8) : List UInt8 :=
  addr.take globalnameLength ++ List.replicate (globalnameLength - addr.length) 0

/-! ### The functions of the node -/

namespace Node

variable (w : Node)

/-- `mtask_context_newsession` -/
def newsession (ctx : ℕ) : Int32 × Node :=
  let session := if w.sessionId ctx + 1 ≤ 0 then 1 else w.sessionId ctx + 1
  (session, { w with sessionId := Function.update w.sessionId ctx session })

/-- The session in `_filter_args`. -/
def filterSession (context : Option ℕ) (type session : Int32) : Except Fault (Int32 × Node) :=
  if HasTag type ptypeTagAllocsession then
    if session ≠ 0 then .error .sessionGiven
    else
      match context with
      | none => .error .nullContext
      | some ctx => .ok (w.newsession ctx)
  else .ok (session, w)

/-- The payload in `_filter_args`. -/
def filterData (type : Int32) (data : Option ℕ) (sz : UInt64) : Option ℕ × Node :=
  match data with
  | none => (none, w)
  | some addr =>
    if HasTag type ptypeTagDontcopy then (some addr, w)
    else (some w.next, { w with next := w.next + 1, log := w.log ++ [.copy w.next addr sz] })

/-- The size in `_filter_args`, with the type in its high byte. -/
def filterSize (type : Int32) (sz : UInt64) : UInt64 :=
  sz ||| ((type &&& 0xff).toUInt32.toUInt64 <<< 56)

/-- `mtask_harbor_send`, and the block of the `remote_message` in front of it. -/
def harborSend (rmsg : RemoteMessage) (source : UInt32) (session : Int32) : Except Fault Node :=
  let type := rmsg.sz >>> 56
  if type.toNat = ptypeSystem ∨ type.toNat = ptypeHarbor then .error .harborAssert
  else
    match w.remote with
    | none => .error .harborAssert
    | some remote =>
      .ok { w with
        next := w.next + 1
        log := w.log ++ [.remote w.next { rmsg with sz := rmsg.sz &&& messageTypeMask },
          .push remote {
            source := source.toNat
            session := session.toInt
            data := some w.next
            sz := sizeofRemoteMessage ||| type.toNat <<< messageTypeShift }] }

/-- `mtask_harbor_message_isremote` -/
def harborMessageIsremote (handle : UInt32) : Except Fault Bool :=
  if w.harbor = 0xffffffff then .error .harborUnset
  else .ok (handle &&& 0xff000000 ≠ w.harbor ∧ handle &&& 0xff000000 ≠ 0)

/-- `mtask_context_push`; the reference that is taken is given back. -/
def contextPush (handle : UInt32) (message : MtaskMessage) : Bool × Node :=
  match w.storage.grab w.handleOf handle.toNat with
  | none => (false, w)
  | some ctx => (true, { w with log := w.log ++ [.push ctx message] })

/-- `source`, or the handle of the context. -/
def sourceOf (context : Option ℕ) (source : UInt32) : Except Fault UInt32 :=
  if source = 0 then
    match context with
    | none => .error .nullContext
    | some ctx => .ok (UInt32.ofNat (w.handleOf ctx))
  else .ok source

/-- What `mtask_send` does with a message whose arguments were filtered. -/
def route (source destination : UInt32) (session : Int32) (data : Option ℕ) (sz : UInt64) :
    Except Fault (Int32 × Node) :=
  if destination = 0 then .ok (session, w)
  else
    match w.harborMessageIsremote destination with
    | .error e => .error e
    | .ok true =>
      match w.harborSend ⟨[], destination, data, sz⟩ source session with
      | .error e => .error e
      | .ok w => .ok (session, w)
    | .ok false =>
      match w.contextPush destination ⟨source.toNat, session.toInt, data, sz.toNat⟩ with
      | (true, w) => .ok (session, w)
      | (false, w) => .ok (-1, { w with log := w.log ++ [.free data] })

/-- `mtask_send` -/
def send (context : Option ℕ) (source destination : UInt32) (type session : Int32)
    (data : Option ℕ) (sz : UInt64) : Except Fault (Int32 × Node) :=
  if ¬Fits sz then .ok (-1, { w with log := w.log ++ [.tooLarge destination, .free data] })
  else
    match w.filterSession context type session with
    | .error e => .error e
    | .ok (session, w) =>
      let (data, w) := w.filterData type data sz
      match w.sourceOf context source with
      | .error e => .error e
      | .ok source => w.route source destination session data (filterSize type sz)

/-- `mtask_sendname` -/
def sendname (context : Option ℕ) (source : UInt32) (addr : List UInt8) (type session : Int32)
    (data : Option ℕ) (sz : UInt64) : Except Fault (Int32 × Node) :=
  match w.sourceOf context source with
  | .error e => .error e
  | .ok source =>
    match addr with
    | 0x3a :: addr => w.send context source (strtoulHex addr).toUInt32 type session data sz
    | 0x2e :: addr =>
      let des := UInt32.ofNat (w.storage.findname addr)
      if des = 0 then
        .ok (-1,
          if HasTag type ptypeTagDontcopy then { w with log := w.log ++ [.free data] } else w)
      else w.send context source des type session data sz
    | addr =>
      match w.filterSession context type session with
      | .error e => .error e
      | .ok (session, w) =>
        let (data, w) := w.filterData type data sz
        match w.harborSend ⟨copyName addr, 0, data, filterSize type sz⟩ source session with
        | .error e => .error e
        | .ok w => .ok (session, w)

end Node

/-! ### What happens to a block -/

namespace Effect

/-- The block with this address is freed, or it is the payload of a message. -/
def settles (a : ℕ) : Effect → Bool
  | free data => data = some a
  | push _ message => message.data = some a
  | remote _ rmsg => rmsg.message = some a
  | _ => false

/-- The block that is allocated. -/
def block : Effect → Option ℕ
  | copy addr _ _ => some addr
  | remote addr _ => some addr
  | _ => none

/-- A message is handed over. -/
def handsOver : Effect → Bool
  | push _ _ => true
  | _ => false

end Effect

/-- How often a block is freed or handed over. -/
def settled (a : ℕ) (log : List Effect) : ℕ :=
  log.countP (Effect.settles a)

/-- The buffer of the caller is kept unless it is given away, and then it is freed or handed over
once; so is every block that is allocated; and a size that does not leave the high byte to the type
is refused. -/
structure Meets (type : Int32) (data : Option ℕ) (sz : UInt64) (ret : Int32)
    (log : List Effect) : Prop where
  kept : ¬HasTag type ptypeTagDontcopy → ∀ a, data = some a → settled a log = 0
  given : HasTag type ptypeTagDontcopy → ∀ a, data = some a → settled a log = 1
  blocks : ∀ e ∈ log, ∀ a, e.block = some a → settled a log = 1
  refused : ¬Fits sz → ret = -1 ∧ ∀ e ∈ log, e.handsOver = false

/-- The payload is freed or handed over once, as is every new block, and no other block is touched.
-/
structure Delivers (next : ℕ) (data : Option ℕ) (log : List Effect) : Prop where
  once : ∀ a, data = some a → a < next → settled a log = 1
  others : ∀ a < next, data ≠ some a → settled a log = 0
  blocks : ∀ e ∈ log, ∀ a, e.block = some a → next ≤ a ∧ settled a log = 1

/-- There is no payload, or it can be sent to a handle that is not 0, or it is too large and given
away. -/
def HandlePermits (destination : UInt32) (type : Int32) (data : Option ℕ) (sz : UInt64) : Prop :=
  data = none ∨ Fits sz ∧ destination ≠ 0 ∨ ¬Fits sz ∧ HasTag type ptypeTagDontcopy

/-- The same for the handle that a name stands for; a local name that is not known does no harm,
and for a global name the size has to fit. -/
def NamePermits (w : Node) (addr : List UInt8) (type : Int32) (data : Option ℕ) (sz : UInt64) :
    Prop :=
  match addr with
  | 0x3a :: addr => HandlePermits (strtoulHex addr).toUInt32 type data sz
  | 0x2e :: addr =>
    UInt32.ofNat (w.storage.findname addr) = 0 ∨
      HandlePermits (UInt32.ofNat (w.storage.findname addr)) type data sz
  | _ => Fits sz

namespace Node

variable {w w' : Node} {context : Option ℕ} {source destination : UInt32} {type session ret : Int32}
  {data : Option ℕ} {sz : UInt64}

theorem harborSend_delivers {rmsg : RemoteMessage} (h : w.harborSend rmsg source session = .ok w')
    (hdata : ∀ a, rmsg.message = some a → a < w.next) :
    ∃ log, w'.log = w.log ++ log ∧ Delivers w.next rmsg.message log ∧
      ∃ e ∈ log, e.handsOver = true := by
  rw [harborSend] at h
  split_ifs at h
  rcases hremote : w.remote with _ | remote
  · simp [hremote] at h
  · simp only [hremote, Except.ok.injEq] at h
    subst h
    refine ⟨_, rfl, ⟨fun a ha hlt => ?_, fun a hlt hne => ?_, fun e he a ha => ?_⟩,
      ⟨_, mem_cons_of_mem _ mem_cons_self, rfl⟩⟩
    · simp [settled, Effect.settles, ha, hlt.ne']
    · simp [settled, Effect.settles, hne, hlt.ne']
    · have hne : rmsg.message ≠ some w.next := fun heq => (hdata _ heq).ne rfl
      obtain rfl : w.next = a := by
        simp only [mem_cons, not_mem_nil, or_false] at he
        rcases he with rfl | rfl <;> simp_all [Effect.block]
      exact ⟨le_rfl, by simp [settled, Effect.settles, hne]⟩

theorem route_delivers (h : w.route source destination session data sz = .ok (ret, w'))
    (hne : destination ≠ 0) (hdata : ∀ a, data = some a → a < w.next) :
    ∃ log, w'.log = w.log ++ log ∧ Delivers w.next data log := by
  rw [route, if_neg hne] at h
  rcases hremote : w.harborMessageIsremote destination with e | _ | _
  · simp [hremote] at h
  · -- a context of this node, or none
    simp only [hremote, contextPush] at h
    rcases hgrab : w.storage.grab w.handleOf destination.toNat with _ | ctx
    · simp only [hgrab, Except.ok.injEq, Prod.mk.injEq] at h
      obtain ⟨-, rfl⟩ := h
      refine ⟨_, rfl, ⟨fun a ha _ => ?_, fun a _ hne => ?_, fun e he a ha => ?_⟩⟩
      · simp [settled, Effect.settles, ha]
      · simp [settled, Effect.settles, hne]
      · rw [mem_singleton.mp he] at ha
        cases ha
    · simp only [hgrab, Except.ok.injEq, Prod.mk.injEq] at h
      obtain ⟨-, rfl⟩ := h
      refine ⟨_, rfl, ⟨fun a ha _ => ?_, fun a _ hne => ?_, fun e he a ha => ?_⟩⟩
      · simp [settled, Effect.settles, ha]
      · simp [settled, Effect.settles, hne]
      · rw [mem_singleton.mp he] at ha
        cases ha
  · simp only [hremote] at h
    rcases hsend : w.harborSend ⟨[], destination, data, sz⟩ source session with e | w₁
    · simp [hsend] at h
    · simp only [hsend, Except.ok.injEq, Prod.mk.injEq] at h
      obtain ⟨-, rfl⟩ := h
      obtain ⟨log, hlog, hdelivers, -⟩ := harborSend_delivers hsend hdata
      exact ⟨log, hlog, hdelivers⟩

/-- What is sent: nothing, the buffer of the caller, or a copy of it. -/
theorem filterData_cases (w : Node) (type : Int32) (data : Option ℕ) (sz : UInt64) :
    (data = none ∧ w.filterData type data sz = (none, w)) ∨
    (∃ a, data = some a ∧ HasTag type ptypeTagDontcopy ∧ w.filterData type data sz = (some a, w)) ∨
    ∃ a, data = some a ∧ ¬HasTag type ptypeTagDontcopy ∧ w.filterData type data sz =
      (some w.next, { w with next := w.next + 1, log := w.log ++ [.copy w.next a sz] }) := by
  cases data with
  | none => exact Or.inl ⟨rfl, rfl⟩
  | some a =>
    by_cases htag : HasTag type ptypeTagDontcopy
    · exact Or.inr (Or.inl ⟨a, rfl, htag, if_pos htag⟩)
    · exact Or.inr (Or.inr ⟨a, rfl, htag, if_neg htag⟩)

variable {w₁ : Node}

theorem filterSession_eq (h : w.filterSession context type session = .ok (ret, w₁)) :
    w₁.log = w.log ∧ w₁.next = w.next := by
  unfold filterSession at h
  split_ifs at h
  · cases context with
    | none => cases h
    | some ctx =>
      cases h
      exact ⟨rfl, rfl⟩
  · cases h
    exact ⟨rfl, rfl⟩

variable {data' : Option ℕ}

theorem log_filterData (heq : w.filterData type data sz = (data', w₁)) :
    ∃ copies, w₁.log = w.log ++ copies := by
  rcases filterData_cases w type data sz with
    ⟨rfl, h⟩ | ⟨a, rfl, htag, h⟩ | ⟨a, rfl, htag, h⟩ <;> rw [heq] at h <;> cases h
  · exact ⟨[], (append_nil _).symm⟩
  · exact ⟨[], (append_nil _).symm⟩
  · exact ⟨_, rfl⟩

theorem filterData_lt (hdata : ∀ a, data = some a → a < w.next)
    (heq : w.filterData type data sz = (data', w₁)) : ∀ a, data' = some a → a < w₁.next := by
  rcases filterData_cases w type data sz with
    ⟨rfl, h⟩ | ⟨a, rfl, htag, h⟩ | ⟨a, rfl, htag, h⟩ <;> rw [heq] at h <;> cases h
  · nofun
  · exact hdata
  · rintro _ ⟨⟩
    exact Nat.lt_succ_self _

theorem meets_of_delivers (ret : Int32) (hfits : Fits sz) (hdata : ∀ a, data = some a → a < w.next)
    (heq : w.filterData type data sz = (data', w₁)) {log : List Effect}
    (hlog : Delivers w₁.next data' log) (hw' : w'.log = w₁.log ++ log) :
    ∃ log', w'.log = w.log ++ log' ∧ Meets type data sz ret log' := by
  rcases filterData_cases w type data sz with
    ⟨rfl, h⟩ | ⟨a, rfl, htag, h⟩ | ⟨a, rfl, htag, h⟩ <;> rw [heq] at h <;> cases h
  · exact ⟨log, hw', nofun, nofun, fun e he a ha => (hlog.blocks e he a ha).2, absurd hfits⟩
  · refine ⟨log, hw', fun hno => absurd htag hno, fun _ b hb => ?_,
      fun e he a ha => (hlog.blocks e he a ha).2, absurd hfits⟩
    exact hlog.once b hb (hdata b hb)
  · have hlt := hdata a rfl
    refine ⟨.copy w.next a sz :: log, by rw [hw']; simp, fun _ b hb => ?_,
      fun hno => absurd hno htag, fun e he b hb => ?_, absurd hfits⟩
    · cases hb
      rw [settled, countP_cons_of_neg Bool.false_ne_true]
      exact hlog.others a (Nat.lt_succ_of_lt hlt) (by simpa using hlt.ne')
    · rw [settled, countP_cons_of_neg Bool.false_ne_true]
      rcases mem_cons.mp he with rfl | he
      · cases hb
        exact hlog.once _ rfl (Nat.lt_succ_self _)
      · exact (hlog.blocks e he b hb).2

theorem meets_of_dropped (ret : Int32) (hfits : Fits sz)
    (heq : w.filterData type data sz = (data', w₁)) :
    ∃ log, w₁.log = w.log ++ log ∧ (Meets type data sz ret log ↔ data = none) := by
  rcases filterData_cases w type data sz with
    ⟨rfl, h⟩ | ⟨a, rfl, htag, h⟩ | ⟨a, rfl, htag, h⟩ <;> rw [heq] at h <;> cases h
  · exact ⟨[], (append_nil _).symm, iff_of_true ⟨nofun, nofun, nofun, absurd hfits⟩ rfl⟩
  · refine ⟨[], (append_nil _).symm, iff_of_false (fun h => ?_) (Option.some_ne_none a)⟩
    exact Nat.zero_ne_one (h.given htag a rfl)
  · refine ⟨_, rfl, iff_of_false (fun h => ?_) (Option.some_ne_none a)⟩
    exact Nat.zero_ne_one (h.blocks _ (mem_singleton.mpr rfl) w.next rfl)

/-- **`mtask_send`** settles every block, unless the destination of a payload is 0 or a payload
that is too large was not given away. -/
theorem send_meets (hdata : ∀ a, data = some a → a < w.next)
    (h : w.send context source destination type session data sz = .ok (ret, w')) :
    ∃ log, w'.log = w.log ++ log ∧
      (Meets type data sz ret log ↔ HandlePermits destination type data sz) := by
  rw [send] at h
  by_cases hfits : Fits sz
  · rw [if_neg (not_not_intro hfits)] at h
    rcases hsession : w.filterSession context type session with e | ⟨session', w₁⟩
    · simp [hsession] at h
    simp only [hsession] at h
    obtain ⟨hlog₁, hnext₁⟩ := filterSession_eq hsession
    rcases heq : w₁.filterData type data sz with ⟨data', w₂⟩
    simp only [heq] at h
    rcases hsource : w₂.sourceOf context source with e | source'
    · simp [hsource] at h
    simp only [hsource] at h
    rw [← hlog₁]
    rw [← hnext₁] at hdata
    by_cases hzero : destination = 0
    · rw [route, if_pos hzero] at h
      cases h
      obtain ⟨log, hlog, hmeets⟩ := meets_of_dropped ret hfits heq
      refine ⟨log, hlog, hmeets.trans ?_⟩
      simp [HandlePermits, hfits, hzero]
    · obtain ⟨log₂, hlog₂, hdelivers⟩ := route_delivers h hzero (filterData_lt hdata heq)
      obtain ⟨log, hlog, hmeets⟩ := meets_of_delivers ret hfits hdata heq hdelivers hlog₂
      exact ⟨log, hlog, iff_of_true hmeets (Or.inr (Or.inl ⟨hfits, hzero⟩))⟩
  · -- the size is refused, and the buffer is freed
    rw [if_pos hfits] at h
    cases h
    have hno : ∀ e ∈ [Effect.tooLarge destination, .free data], e.block = none ∧
        e.handsOver = false := by
      simp [Effect.block, Effect.handsOver]
    have hblocks : ∀ e ∈ [Effect.tooLarge destination, .free data], ∀ a, e.block = some a →
        settled a [Effect.tooLarge destination, .free data] = 1 := fun e he a ha => by
      rw [(hno e he).1] at ha
      cases ha
    have hrefused : ¬Fits sz → (-1 : Int32) = -1 ∧
        ∀ e ∈ [Effect.tooLarge destination, .free data], e.handsOver = false :=
      fun _ => ⟨rfl, fun e he => (hno e he).2⟩
    refine ⟨[.tooLarge destination, .free data], rfl, ?_⟩
    cases data with
    | none => exact iff_of_true ⟨nofun, nofun, hblocks, hrefused⟩ (Or.inl rfl)
    | some a =>
      have honce : ∀ b, some a = some b →
          settled b [Effect.tooLarge destination, .free (some a)] = 1 := by
        rintro _ ⟨⟩
        simp [settled, Effect.settles]
      by_cases htag : HasTag type ptypeTagDontcopy
      · exact iff_of_true ⟨absurd htag, fun _ => honce, hblocks, hrefused⟩
          (Or.inr (Or.inr ⟨hfits, htag⟩))
      · refine iff_of_false (fun h => ?_) (by simp [HandlePermits, hfits, htag])
        exact Nat.one_ne_zero ((honce a rfl).symm.trans (h.kept htag a rfl))

theorem unknownName_meets (w : Node) (type : Int32) (data : Option ℕ) (sz : UInt64)
    (hret : ret = -1) :
    ∃ log,
      (if HasTag type ptypeTagDontcopy then { w with log := w.log ++ [.free data] } else w).log =
      w.log ++ log ∧ Meets type data sz ret log := by
  by_cases htag : HasTag type ptypeTagDontcopy
  · rw [if_pos htag]
    refine ⟨_, rfl, absurd htag, fun _ a ha => ?_, fun e he a ha => ?_,
      fun _ => ⟨hret, fun e he => ?_⟩⟩
    · simp [settled, Effect.settles, ha]
    · rw [mem_singleton.mp he] at ha
      cases ha
    · rw [mem_singleton.mp he]
      rfl
  · rw [if_neg htag]
    exact ⟨[], (append_nil _).symm, fun _ _ _ => rfl, fun h => absurd h htag, nofun,
      fun _ => ⟨hret, nofun⟩⟩

/-- **`mtask_sendname`** -/
theorem sendname_meets {addr : List UInt8} (hdata : ∀ a, data = some a → a < w.next)
    (h : w.sendname context source addr type session data sz = .ok (ret, w')) :
    ∃ log, w'.log = w.log ++ log ∧
      (Meets type data sz ret log ↔ NamePermits w addr type data sz) := by
  rw [sendname] at h
  rcases hsource : w.sourceOf context source with e | source'
  · simp [hsource] at h
  simp only [hsource] at h
  rw [NamePermits.eq_def]
  split at h
  · exact send_meets hdata h
  · rename_i addr
    by_cases hzero : UInt32.ofNat (w.storage.findname addr) = 0
    · rw [if_pos hzero] at h
      cases h
      obtain ⟨log, hlog, hmeets⟩ := unknownName_meets w type data sz rfl
      exact ⟨log, hlog, iff_of_true hmeets (Or.inl hzero)⟩
    · rw [if_neg hzero] at h
      obtain ⟨log, hlog, hmeets⟩ := send_meets hdata h
      exact ⟨log, hlog, hmeets.trans (or_iff_right hzero).symm⟩
  · -- a global name
    rcases hsession : w.filterSession context type session with e | ⟨session', w₁⟩
    · simp [hsession] at h
    simp only [hsession] at h
    obtain ⟨hlog₁, hnext₁⟩ := filterSession_eq hsession
    rcases heq : w₁.filterData type data sz with ⟨data', w₂⟩
    simp only [heq] at h
    rcases hsend : w₂.harborSend ⟨copyName addr, 0, data', filterSize type sz⟩ source' session'
      with e | w₃
    · simp [hsend] at h
    simp only [hsend, Except.ok.injEq, Prod.mk.injEq] at h
    obtain ⟨rfl, rfl⟩ := h
    rw [← hlog₁]
    rw [← hnext₁] at hdata
    obtain ⟨log₂, hlog₂, hdelivers, e, he, hhands⟩ :=
      harborSend_delivers hsend (filterData_lt hdata heq)
    by_cases hfits : Fits sz
    · obtain ⟨log, hlog, hmeets⟩ := meets_of_delivers session' hfits hdata heq hdelivers hlog₂
      exact ⟨log, hlog, iff_of_true hmeets hfits⟩
    · obtain ⟨copies, hcopies⟩ := log_filterData heq
      refine ⟨copies ++ log₂, by rw [hlog₂, hcopies, append_assoc],
        iff_of_false (fun hmeets => ?_) hfits⟩
      have hnone := (hmeets.refused hfits).2 e (mem_append_right _ he)
      rw [hhands] at hnone
      cases hnone

end Node

/-! ### Both functions -/

/-- Where a message goes. -/
inductive Target
  | handle (destination : UInt32)
  | name (addr : List UInt8)
  deriving DecidableEq, Repr

/-- The function for the target. -/
def Node.deliver (w : Node) (context : Option ℕ) (source : UInt32) (target : Target)
    (type session : Int32) (data : Option ℕ) (sz : UInt64) : Except Fault (Int32 × Node) :=
  match target with
  | .handle destination => w.send context source destination type session data sz
  | .name addr => w.sendname context source addr type session data sz

/-- The calls that settle every block. -/
def Node.Permits (w : Node) (target : Target) (type : Int32) (data : Option ℕ)
    (sz : UInt64) : Prop :=
  match target with
  | .handle destination => HandlePermits destination type data sz
  | .name addr => NamePermits w addr type data sz

/-- **Who owns a payload.** A call that returns, whatever it returns, treats the buffer of the
caller and the blocks that it allocates as it should exactly if there is no payload, or a payload
of a size that fits goes to a handle that is not 0, or one that is too large is given away; a local
name may also be unknown, and for a global name the size has to fit. -/
theorem buffers_settled {w w' : Node} {context : Option ℕ} {source : UInt32} {target : Target}
    {type session ret : Int32} {data : Option ℕ} {sz : UInt64}
    (hdata : ∀ a, data = some a → a < w.next)
    (hcall : w.deliver context source target type session data sz = .ok (ret, w')) :
    Meets type data sz ret (w'.log.drop w.log.length) ↔ w.Permits target type data sz := by
  have hlog : ∃ log, w'.log = w.log ++ log ∧
      (Meets type data sz ret log ↔ w.Permits target type data sz) := by
    cases target with
    | handle destination => exact Node.send_meets hdata hcall
    | name addr => exact Node.sendname_meets hdata hcall
  obtain ⟨log, hw', hmeets⟩ := hlog
  rwa [hw', List.drop_left]

/-- A node of harbor 1 whose only context, 9 with handle `0x01000001`, is the harbor service. -/
def smallNode : Node where
  storage := (HandleStorage.init ℕ 1).place 9 1
  handleOf _ := 0x01000001
  sessionId _ := 0
  harbor := 0x01000000
  remote := some 9
  next := 100
  log := []

/-- The same copy is sent to another node and to a global name; a size that is too large is
refused. -/
theorem buffers_settled_copied :
    ∃ w₁ w₂ w₃ : Node,
      smallNode.deliver (some 9) 0 (.handle 0x02000005) 0 0 (some 7) 3 = .ok (0, w₁) ∧
      smallNode.deliver (some 9) 0 (.name [0x61]) 0 0 (some 7) 3 = .ok (0, w₂) ∧
      smallNode.deliver (some 9) 0 (.handle 5) 0x10000 0 (some 7) 0x100000000000000 = .ok (-1, w₃) ∧
      Meets 0 (some 7) 3 0 w₁.log ∧ Meets 0 (some 7) 3 0 w₂.log ∧
      Meets 0x10000 (some 7) 0x100000000000000 (-1) w₃.log := by
  have hdata : ∀ a, some 7 = some a → a < smallNode.next := by
    rintro _ ⟨⟩
    decide
  have h₁ : ∃ w₁, smallNode.deliver (some 9) 0 (.handle 0x02000005) 0 0 (some 7) 3 = .ok (0, w₁) :=
    ⟨_, rfl⟩
  have h₂ : ∃ w₂, smallNode.deliver (some 9) 0 (.name [0x61]) 0 0 (some 7) 3 = .ok (0, w₂) :=
    ⟨_, rfl⟩
  have h₃ : ∃ w₃, smallNode.deliver (some 9) 0 (.handle 5) 0x10000 0 (some 7) 0x100000000000000 =
      .ok (-1, w₃) := ⟨_, rfl⟩
  obtain ⟨w₁, h₁⟩ := h₁
  obtain ⟨w₂, h₂⟩ := h₂
  obtain ⟨w₃, h₃⟩ := h₃
  refine ⟨w₁, w₂, w₃, h₁, h₂, h₃, ?_, ?_, ?_⟩
  · exact (buffers_settled hdata h₁).mpr (Or.inr (Or.inl ⟨rfl, by decide⟩))
  · exact (buffers_settled hdata h₂).mpr rfl
  · exact (buffers_settled hdata h₃).mpr (Or.inr (Or.inr ⟨by decide, by decide⟩))

/-- The copy of a payload for the address `":0"` is lost, and so is a buffer that was given away. -/
theorem zeroHandle_leaks :
    ∃ w₁ w₂ : Node,
      smallNode.deliver (some 9) 0 (.name [0x3a, 0x30]) 0 0 (some 7) 3 = .ok (0, w₁) ∧
      ¬Meets 0 (some 7) 3 0 w₁.log ∧
      smallNode.deliver (some 9) 0 (.name [0x3a, 0x30]) 0x10000 0 (some 7) 3 = .ok (0, w₂) ∧
      ¬Meets 0x10000 (some 7) 3 0 w₂.log := by
  refine ⟨_, _, rfl, fun h => ?_, rfl, fun h => ?_⟩
  · exact Nat.zero_ne_one (h.blocks _ (List.mem_singleton.mpr rfl) 100 rfl)
  · exact Nat.zero_ne_one (h.given (by decide) 7 rfl)

end Mtask.Server
