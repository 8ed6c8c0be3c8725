import Mtask.Lib.References

/-!
# Objects of the stm module

The functions of `mtask_lua_stm.c` for one object. Every box runs its functions in a thread of its
own. A step of a thread is an operation of the lock or of an atomic counter, with the plain code
that goes with it; a reader frees the object in a step of its own.
-/

namespace Mtask.Stm

/-- The largest `int`. -/
def intMax : ℤ := 2 ^ 31 - 1

/-- A counter of type `int` wraps around. -/
def inc (n : ℤ) : ℤ := if n = intMax then -intMax - 1 else n + 1

def dec (n : ℤ) : ℤ := if n = -intMax - 1 then intMax else n - 1

/-- `struct stm_object`, with the fields of its lock. -/
structure Object where
  write : Bool
  read : ℤ
  reference : ℤ
  copy : Option ℕ

/-- The object, the references of the copies in the order in which they are made, and how many
pointers of `stm.copy` have not come to a reader. A copy and its message are freed together; what is
freed is `none`. -/
structure Memory where
  object : Option Object
  copies : List (Option ℤ)
  grabbed : ℕ

inductive Fault
  | freed
  | assertion
  | blocked
  | notEnabled
  deriving DecidableEq, Repr

/-- The places in `stm_grab`. -/
inductive GrabPc
  | lock
  | inc
  | unlock (ref : ℤ)

/-- The places in the functions of the writer: `stm_grab`, `stm_update` and `stm_release`. -/
inductive WriterPc
  | idle
  | grab (pc : GrabPc)
  | updateLock (copy : ℕ)
  | updateUnlock (oldcopy : Option ℕ)
  | updateRelease (oldcopy : Option ℕ)
  | releaseLock
  | releaseCopy
  | releaseUnlock
  | gone

/-- The places in the functions of a reader: `stm_grab`, `lread` with `stm_copy`, and
`ldeletereader` with `stm_releasereader`. -/
inductive ReaderPc
  | idle
  | grab (pc : GrabPc)
  | copyLock
  | copyInc
  | copyUnlock (ret : Option ℕ)
  | readSame (copy : Option ℕ)
  | readLast (copy : Option ℕ)
  | call (copy : ℕ)
  | releaseLock
  | releaseDec
  | releaseUnlock
  | releaseFree
  | releaseLast
  | gone

/-- A box and the function that runs. -/
inductive Thread
  | writer (pc : WriterPc)
  | reader (lastcopy : Option ℕ) (pc : ReaderPc)

/-! ### The memory -/

section Memory

variable (m : Memory)

def Memory.getObject : Except Fault Object :=
  match m.object with
  | some obj => .ok obj
  | none => .error .freed

def Memory.setObject (obj : Object) : Memory := { m with object := some obj }

/-- The counter of a copy. -/
def Memory.getReference (copy : ℕ) : Except Fault ℤ :=
  match m.copies.getD copy none with
  | some ref => .ok ref
  | none => .error .freed

def rlock : Except Fault Memory := do
  let obj ← m.getObject
  if obj.write then throw .blocked else return m.setObject { obj with read := obj.read + 1 }

def runlock : Except Fault Memory := do
  let obj ← m.getObject
  return m.setObject { obj with read := obj.read - 1 }

def wlock : Except Fault Memory := do
  let obj ← m.getObject
  if obj.write ∨ obj.read ≠ 0 then throw .blocked
  else return m.setObject { obj with write := true }

def wunlock : Except Fault Memory := do
  let obj ← m.getObject
  return m.setObject { obj with write := false }

/-- `stm_releasecopy` -/
def releasecopy : Option ℕ → Except Fault Memory
  | none => return m
  | some copy => do
    let ref ← m.getReference copy
    return { m with
      copies := m.copies.set copy (if dec ref = 0 then none else some (dec ref)) }

/-! ### The functions -/

/-- `stm_grab`, to the end of `lcopy`. -/
def runGrab : GrabPc → Except Fault (Memory × Option GrabPc)
  | .lock => return (← rlock m, some .inc)
  | .inc => do
    let obj ← m.getObject
    return (m.setObject { obj with reference := inc obj.reference }, some (.unlock obj.reference))
  | .unlock ref => do
    let m ← runlock m
    if 0 < ref then return ({ m with grabbed := m.grabbed + 1 }, none) else throw .assertion

def runWriter : WriterPc → Except Fault (Memory × WriterPc)
  | .grab pc => do
    let (m, pc) ← runGrab m pc
    return (m, pc.elim .idle .grab)
  | .updateLock copy => do
    let m ← wlock m
    let obj ← m.getObject
    return (m.setObject { obj with copy := some copy }, .updateUnlock obj.copy)
  | .updateUnlock oldcopy => return (← wunlock m, .updateRelease oldcopy)
  | .updateRelease oldcopy => return (← releasecopy m oldcopy, .idle)
  | .releaseLock => return (← wlock m, .releaseCopy)
  | .releaseCopy => do
    let obj ← m.getObject
    let m ← releasecopy m obj.copy
    if 0 < dec obj.reference then
      return (m.setObject { obj with copy := none, reference := dec obj.reference }, .releaseUnlock)
    -- the lock goes with the object
    else return ({ m with object := none }, .gone)
  | .releaseUnlock => return (← wunlock m, .gone)
  | .idle | .gone => throw .notEnabled

def runReader (lastcopy : Option ℕ) : ReaderPc → Except Fault (Memory × Option ℕ × ReaderPc)
  | .grab pc => do
    let (m, pc) ← runGrab m pc
    return (m, lastcopy, pc.elim .idle .grab)
  | .copyLock => return (← rlock m, lastcopy, .copyInc)
  | .copyInc => do
    let obj ← m.getObject
    match obj.copy with
    | none => return (m, lastcopy, .copyUnlock none)
    | some copy => do
      let ref ← m.getReference copy
      if 0 < ref then
        return ({ m with copies := m.copies.set copy (some (inc ref)) }, lastcopy,
          .copyUnlock (some copy))
      else throw .assertion
  | .copyUnlock ret => do
    let m ← runlock m
    return (m, lastcopy, if ret = lastcopy then .readSame ret else .readLast ret)
  | .readSame copy => return (← releasecopy m copy, lastcopy, .idle)
  | .readLast copy => do
    let m ← releasecopy m lastcopy
    return (m, copy, copy.elim .idle .call)
  -- the function that is called reads the message
  | .call copy => do
    let _ ← m.getReference copy
    return (m, lastcopy, .idle)
  | .releaseLock => return (← rlock m, lastcopy, .releaseDec)
  | .releaseDec => do
    let obj ← m.getObject
    return (m.setObject { obj with reference := dec obj.reference }, lastcopy,
      if dec obj.reference = 0 then .releaseFree else .releaseUnlock)
  | .releaseFree => do
    let obj ← m.getObject
    if obj.copy = none then return ({ m with object := none }, lastcopy, .releaseLast)
    else throw .assertion
  | .releaseUnlock => return (← runlock m, lastcopy, .releaseLast)
  | .releaseLast => return (← releasecopy m lastcopy, none, .gone)
  | .idle | .gone => throw .notEnabled

inductive Act
  | update
  | copy
  | read
  | delete
  | run

/-- A call of a function of a box that runs none, or a step in it. -/
def Thread.act (thread : Thread) : Act → Except Fault (Memory × Thread)
  | .update =>
    match thread with
    | .writer .idle =>
      return ({ m with copies := m.copies ++ [some 1] }, .writer (.updateLock m.copies.length))
    | _ => throw .notEnabled
  | .copy =>
    match thread with
    | .writer .idle => return (m, .writer (.grab .lock))
    | .reader lastcopy .idle => return (m, .reader lastcopy (.grab .lock))
    | _ => throw .notEnabled
  | .read =>
    match thread with
    | .reader lastcopy .idle => return (m, .reader lastcopy .copyLock)
    | _ => throw .notEnabled
  | .delete =>
    match thread with
    | .writer .idle => do
      let obj ← m.getObject
      if obj.copy = none then throw .assertion else return (m, .writer .releaseLock)
    | .reader lastcopy .idle => return (m, .reader lastcopy .releaseLock)
    | _ => throw .notEnabled
  | .run =>
    match thread with
    | .writer pc => do
      let (m, pc) ← runWriter m pc
      return (m, .writer pc)
    | .reader lastcopy pc => do
      let (m, lastcopy, pc) ← runReader m lastcopy pc
      return (m, .reader lastcopy pc)

end Memory

structure State where
  mem : Memory
  threads : List Thread

inductive Event
  /-- `stm.newcopy` for a pointer of `stm.copy` -/
  | newreader
  | act (i : ℕ) (a : Act)

def step (s : State) : Event → Except Fault State
  | .newreader =>
    if s.mem.grabbed = 0 then .error .notEnabled
    else .ok ⟨{ s.mem with grabbed := s.mem.grabbed - 1 }, s.threads ++ [.reader none .idle]⟩
  | .act i a =>
    match s.threads[i]? with
    | none => .error .notEnabled
    | some thread => do
      let (m, thread) ← thread.act s.mem a
      return ⟨m, s.threads.set i thread⟩

/-- `stm_new` and the box of the writer. -/
def init : State := ⟨⟨some ⟨false, 0, 1, some 0⟩, [some 1], 0⟩, [.writer .idle]⟩

end Mtask.Stm
