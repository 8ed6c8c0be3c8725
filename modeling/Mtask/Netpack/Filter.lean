import Mtask.Lib.Ring
import Mtask.Memory

/-!
# Reassembly of packages

`mtask_lua_netpack.c` cuts the data of many connections into packages, each behind its length in two
bytes. What a connection has sent of a package that is not complete is kept in a record, in a hash
table of chains; the packages that come out of one chunk together are kept in a circular buffer that
is replaced by a larger one when it is full.
-/

namespace Mtask.Netpack

/-- `QUEUESIZE` -/
def queueSize : ℕ := 1024

/-- `HASHSIZE` -/
def hashSize : ℕ := 4096

/-- `struct netpack` -/
structure Pack where
  id : Int32
  size : ℕ
  buffer : Block
  deriving DecidableEq, Repr

/-- `struct uncomplete`, less its link; the block of the package holds what has been copied to it.
-/
structure Uncomplete where
  addr : ℕ
  pack : Pack
  read : ℤ
  header : ℕ
  deriving DecidableEq, Repr

/-- `struct queue`, with the chains of the hash table as lists. -/
structure Queue where
  cap : ℕ
  head : ℕ
  tail : ℕ
  hash : ℕ → List Uncomplete
  queue : ℕ → Pack
  head_lt : head < cap
  tail_lt : tail < cap

/-- The userdata of Lua, `none` for the nil before the first use, and the memory. -/
structure State where
  queue : Option Queue
  memory : Memory

/-- What a call of `netpack.filter` gives to Lua besides the queue. -/
inductive Result
  | none
  | data (fd : Int32) (buffer : Block) (size : ℕ)
  | more
  deriving DecidableEq, Repr

inductive Fault
  /-- `assert(uc->read == -1)` -/
  | readMismatch
  | outOfBounds
  deriving DecidableEq, Repr

/-- `hash_fd`, with the sum taken in 32 bits. -/
def hashFd (fd : Int32) : ℕ :=
  ((fd >>> 24) + (fd >>> 12) + fd).toUInt32.toNat % hashSize

/-- `read_size` -/
def readSize (first second : UInt8) : ℕ :=
  first.toNat <<< 8 ||| second.toNat

namespace Queue

/-- The userdata that `get_queue` makes. -/
def new : Queue where
  cap := queueSize
  head := 0
  tail := 0
  hash := fun _ => []
  queue := fun _ => ⟨0, 0, ⟨0, []⟩⟩
  head_lt := by decide
  tail_lt := by decide

/-- The first record of a chain with the id `fd`, taken out of it. -/
def unlink (fd : Int32) : List Uncomplete → Option (Uncomplete × List Uncomplete)
  | [] => none
  | uc :: chain =>
    if uc.pack.id = fd then some (uc, chain)
    else (unlink fd chain).map fun found => (found.1, uc :: found.2)

/-- The record, put in front of its chain. -/
def link (q : Queue) (uc : Uncomplete) : Queue :=
  { q with hash := Function.update q.hash (hashFd uc.pack.id) (uc :: q.hash (hashFd uc.pack.id)) }

/-- `expand_queue` -/
def expand (q : Queue) : Queue where
  cap := q.cap + queueSize
  head := 0
  tail := q.cap
  hash := q.hash
  queue := fun i => if i < q.cap then q.queue ((q.head + i) % q.cap) else q.queue i
  head_lt := by have := q.head_lt; omega
  tail_lt := by simp [queueSize]

/-- The package written to the tail, before it is looked whether the buffer is full. -/
def write (q : Queue) (np : Pack) : Queue where
  cap := q.cap
  head := q.head
  tail := if q.tail + 1 ≥ q.cap then q.tail + 1 - q.cap else q.tail + 1
  hash := q.hash
  queue := Function.update q.queue q.tail np
  head_lt := q.head_lt
  tail_lt := by
    have := q.tail_lt
    split_ifs <;> omega

/-- `lpop` -/
def pop (q : Queue) : Option (Pack × Queue) :=
  if q.head = q.tail then none
  else some (q.queue q.head, { q with
    head := if q.head + 1 ≥ q.cap then 0 else q.head + 1
    head_lt := by
      have := q.head_lt
      split_ifs <;> omega })

/-- The loop of the consumer that pops until the queue is empty, with a bound on its rounds. -/
def popLoop : ℕ → Queue → List Pack × Queue
  | 0, q => ([], q)
  | n + 1, q =>
    match q.pop with
    | some (np, q) => (np :: (popLoop n q).1, (popLoop n q).2)
    | none => ([], q)

end Queue

namespace State

/-- `get_queue` -/
def getQueue (st : State) : Queue :=
  st.queue.getD .new

/-- `find_uncomplete` -/
def findUncomplete (st : State) (fd : Int32) : Option (Uncomplete × State) :=
  match st.queue with
  | none => none
  | some q => (Queue.unlink fd (q.hash (hashFd fd))).map fun found =>
      (found.1, { st with
        queue := some { q with hash := Function.update q.hash (hashFd fd) found.2 } })

/-- A record put in front of its chain, by `save_uncomplete` or at the end of `filter_data_`. -/
def link (st : State) (uc : Uncomplete) : State :=
  { st with queue := some (st.getQueue.link uc) }

/-- `push_data` without `clone` -/
def pushData (st : State) (fd : Int32) (buffer : Block) (size : ℕ) : State :=
  let q := st.getQueue.write { id := fd, size, buffer }
  { st with queue := some (if q.head = q.tail then q.expand else q) }

/-- `push_data` with `clone` -/
def pushClone (st : State) (fd : Int32) (bytes : List UInt8) (size : ℕ) : State :=
  { st with memory := st.memory.malloc.2 }.pushData fd ⟨st.memory.malloc.1, bytes⟩ size

/-- `save_uncomplete` for half a length. -/
def saveHeader (st : State) (fd : Int32) (header : UInt8) : State :=
  { st with memory := st.memory.malloc.2 }.link
    ⟨st.memory.malloc.1, ⟨fd, 0, ⟨0, []⟩⟩, -1, header.toNat⟩

/-- `save_uncomplete` for a part of a package. -/
def savePart (st : State) (fd : Int32) (packSize : ℕ) (bytes : List UInt8) : State :=
  let uc := st.memory.malloc
  let buffer := uc.2.malloc
  { st with memory := buffer.2 }.link
    ⟨uc.1, ⟨fd, packSize, ⟨buffer.1, bytes⟩⟩, bytes.length, 0⟩

/-- `push_more` -/
def pushMore (st : State) (fd : Int32) : List UInt8 → Except Fault State
  | [] => .error .outOfBounds
  | [header] => .ok (st.saveHeader fd header)
  | first :: second :: buffer =>
    let packSize := readSize first second
    if buffer.length < packSize then .ok (st.savePart fd packSize buffer)
    else
      let st := st.pushClone fd (buffer.take packSize) packSize
      if 0 < (buffer.drop packSize).length then pushMore st fd (buffer.drop packSize)
      else .ok st
termination_by buffer => buffer.length
decreasing_by
  simp only [List.length_drop, List.length_cons]
  omega

/-- The end of the first branch of `filter_data_`: a record that knows its size is filled. -/
def fill (st : State) (fd : Int32) (uc : Uncomplete) (buffer : List UInt8) :
    Except Fault (Result × State) :=
  let need := uc.pack.size - uc.read
  if buffer.length < need then
    .ok (.none, st.link { uc with
      pack.buffer.bytes := uc.pack.buffer.bytes ++ buffer
      read := uc.read + buffer.length })
  else
    let pack := { uc.pack with
      buffer.bytes := uc.pack.buffer.bytes ++ buffer.take need.toNat }
    let rest := buffer.drop need.toNat
    if rest.length = 0 then
      .ok (.data fd pack.buffer pack.size, { st with memory := st.memory.free uc.addr })
    else
      let st := st.pushData fd pack.buffer pack.size
      match pushMore { st with memory := st.memory.free uc.addr } fd rest with
      | .ok st => .ok (.more, st)
      | .error e => .error e

/-- `filter_data_` -/
def filterChunk (st : State) (fd : Int32) (buffer : List UInt8) :
    Except Fault (Result × State) :=
  match st.findUncomplete fd with
  | some (uc, st) =>
    if uc.read < 0 then
      if uc.read ≠ -1 then .error .readMismatch
      else
        match buffer with
        | [] => .error .outOfBounds
        | second :: buffer =>
          let packSize := second.toNat ||| uc.header <<< 8
          { st with memory := st.memory.malloc.2 }.fill fd { uc with
            pack.size := packSize
            pack.buffer := ⟨st.memory.malloc.1, []⟩
            read := 0 } buffer
    else st.fill fd uc buffer
  | none =>
    match buffer with
    | [] => .error .outOfBounds
    | [header] => .ok (.none, st.saveHeader fd header)
    | first :: second :: buffer =>
      let packSize := readSize first second
      if buffer.length < packSize then .ok (.none, st.savePart fd packSize buffer)
      else if buffer.length = packSize then
        .ok (.data fd ⟨st.memory.malloc.1, buffer⟩ packSize,
          { st with memory := st.memory.malloc.2 })
      else
        let st := st.pushClone fd (buffer.take packSize) packSize
        match st.pushMore fd (buffer.drop packSize) with
        | .ok st => .ok (.more, st)
        | .error e => .error e

/-- `filter_data` -/
def filterData (st : State) (fd : Int32) (chunk : Block) : Except Fault (Result × State) :=
  match st.filterChunk fd chunk.bytes with
  | .ok (result, st) => .ok (result, { st with memory := st.memory.free chunk.addr })
  | .error e => .error e

/-- The consumer takes the packages out of the queue until it is empty. -/
def popAll (st : State) : List Pack × State :=
  match st.queue with
  | none => ([], st)
  | some q => ((q.popLoop q.cap).1, { st with queue := some (q.popLoop q.cap).2 })

end State

end Mtask.Netpack
