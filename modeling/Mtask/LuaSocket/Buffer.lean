import Mtask.GateService.DataBuffer
import Mtask.Lib.IntrusiveQueue

/-!
# The buffers of Lua sockets

`mtask_lua_socket.c` keeps what a socket has received, in the messages in which it came, until the
service reads it. The nodes of the buffers come from a pool, a table of Lua whose first value is the
list of free nodes and whose other values are the pages of nodes. Sizes are of type `int`.
-/

namespace Mtask.LuaSocket

open GateService (toInt)

/-- `struct buffer_node` -/
structure BufferNode where
  msg : Option ℕ
  sz : ℤ
  next : Option ℕ
  deriving DecidableEq, Repr

/-- `struct socket_buffer` -/
structure SocketBuffer where
  size : ℤ
  offset : ℤ
  head : Option ℕ
  tail : Option ℕ
  deriving DecidableEq, Repr

/-- The table of the pool. The nodes are numbered as they are allocated; a message is a block of
memory, which is `none` once it has been freed. -/
structure Pool where
  node : ℕ → BufferNode
  nodes : ℕ
  pages : ℕ
  freeNode : Option ℕ
  block : ℕ → Option (List UInt8)
  freed : List ℕ

/-- How a function can end the process. -/
inductive Fault
  /-- `assert(sb->tail == NULL)`, `assert(current)` -/
  | assertion
  /-- a pointer that is used is `NULL` -/
  | nullPointer
  | freedMessage
  | outside
  | roundsExhausted
  deriving DecidableEq, Repr

namespace Pool

/-- A table without values. -/
def empty : Pool where
  node := fun _ => ⟨none, 0, none⟩
  nodes := 0
  pages := 0
  freeNode := none
  block := fun _ => none
  freed := []

/-- `LARGE_PAGE_NODE` -/
def largePageNode : ℕ := 12

def nextOf (pool : Pool) (n : ℕ) : Option ℕ :=
  (pool.node n).next

/-- `lua_rawlen` of the table. -/
def rawlen (pool : Pool) : ℕ :=
  if pool.pages = 0 then 0 else pool.pages + 1

/-- `lnewpool`, with the page entered into the table. -/
def newpool (pool : Pool) (sz : ℕ) : Pool :=
  { pool with
    node := fun n =>
      if pool.nodes ≤ n ∧ n < pool.nodes + sz then
        ⟨none, 0, if n + 1 < pool.nodes + sz then some (n + 1) else none⟩
      else pool.node n
    nodes := pool.nodes + sz
    pages := pool.pages + 1 }

/-- The size of the next page. -/
def pageSize (pool : Pool) : ℕ :=
  let tsz := pool.rawlen
  let tsz := if tsz = 0 then tsz + 1 else tsz
  if tsz ≤ largePageNode - 3 then 8 <<< tsz else 8 <<< (largePageNode - 3)

/-- The node that `lpushbuffer` uses. -/
def take (pool : Pool) : ℕ × Pool :=
  match pool.freeNode with
  | some n => (n, { pool with freeNode := pool.nextOf n })
  | none =>
    let first := pool.nodes
    let pool := pool.newpool pool.pageSize
    (first, { pool with freeNode := pool.nextOf first })

def set (pool : Pool) (n : ℕ) (node : BufferNode) : Pool :=
  { pool with node := Function.update pool.node n node }

/-- `mtask_free` -/
def free (pool : Pool) : Option ℕ → Except Fault Pool
  | none => .ok pool
  | some m =>
    match pool.block m with
    | none => .error .freedMessage
    | some _ =>
      .ok { pool with block := Function.update pool.block m none, freed := m :: pool.freed }

/-- Some bytes of the message of a node, from an offset on. -/
def copy (pool : Pool) (n : ℕ) (offset sz : ℤ) : Except Fault (List UInt8) :=
  match (pool.node n).msg with
  | none => .error .nullPointer
  | some m =>
    match pool.block m with
    | none => .error .freedMessage
    | some data =>
      if 0 ≤ offset ∧ 0 ≤ sz ∧ offset + sz ≤ data.length then
        .ok ((data.drop offset.toNat).take sz.toNat)
      else .error .outside

/-- The bytes that `luaL_addlstring` adds, under a condition. -/
def copyIf (pool : Pool) (c : Bool) (n : ℕ) (offset sz : ℤ) : Except Fault (List UInt8) :=
  if c then pool.copy n offset sz else .ok []

/-- `memcmp(node->msg + from, sep, sz) == 0` -/
def sameBytes (pool : Pool) (n : ℕ) (start : ℤ) (sep : List UInt8) (sz : ℤ) :
    Except Fault Bool := do
  let bytes ← pool.copy n start sz
  if sz ≤ sep.length then return bytes = sep.take sz.toNat else throw .outside

end Pool

namespace SocketBuffer

/-- `lnewbuffer` -/
def newbuffer : SocketBuffer :=
  ⟨0, 0, none, none⟩

/-- `return_free_node` -/
def returnFreeNode (sb : SocketBuffer) (pool : Pool) : Except Fault (SocketBuffer × Pool) :=
  match sb.head with
  | none => .error .nullPointer
  | some n => do
    let next := pool.nextOf n
    let sb := { sb with
      offset := 0
      head := next
      tail := if next = none then none else sb.tail }
    let freed ← pool.free (pool.node n).msg
    return (sb, { freed.set n ⟨none, 0, pool.freeNode⟩ with freeNode := some n })

/-- `lpushbuffer` -/
def pushbuffer (sb : SocketBuffer) (pool : Pool) (msg sz : ℕ) :
    Except Fault (SocketBuffer × Pool) :=
  let (n, pool) := pool.take
  let pool := pool.set n ⟨some msg, toInt sz, none⟩
  let size := toInt (sb.size + toInt sz)
  match sb.head, sb.tail with
  | none, none => .ok ({ sb with size, head := some n, tail := some n }, pool)
  | none, some _ => .error .assertion
  | some _, none => .error .nullPointer
  | some _, some t =>
    .ok ({ sb with size, tail := some n }, pool.set t { pool.node t with next := some n })

/-- The loop of `pop_lstring`. -/
def popLoop : ℕ → SocketBuffer → Pool → ℤ → ℤ → Except Fault (List UInt8 × SocketBuffer × Pool)
  | 0, _, _, _, _ => .error .roundsExhausted
  | fuel + 1, sb, pool, sz, skip =>
    match sb.head with
    | none => .error .assertion
    | some current => do
      let bytes := toInt ((pool.node current).sz - sb.offset)
      if sz ≤ bytes then
        let str ← pool.copyIf (skip < sz) current sb.offset (toInt (sz - skip))
        let sb := { sb with offset := toInt (sb.offset + sz) }
        if bytes = sz then
          let (sb, pool) ← sb.returnFreeNode pool
          return (str, sb, pool)
        else return (str, sb, pool)
      else
        let realSz := toInt (sz - skip)
        let str ← pool.copyIf (0 < realSz) current sb.offset (if realSz < bytes then realSz else bytes)
        let (sb, pool) ← sb.returnFreeNode pool
        let sz := toInt (sz - bytes)
        if sz = 0 then return (str, sb, pool)
        else
          let (rest, sb, pool) ← popLoop fuel sb pool sz skip
          return (str ++ rest, sb, pool)

/-- `pop_lstring`. Every round of the loop but the last gives a node back. -/
def popLstring (sb : SocketBuffer) (pool : Pool) (sz skip : ℤ) :
    Except Fault (List UInt8 × SocketBuffer × Pool) :=
  match sb.head with
  | none => .error .nullPointer
  | some current => do
    let bytes := toInt ((pool.node current).sz - sb.offset)
    if sz < bytes then
      let str ← pool.copy current sb.offset (toInt (sz - skip))
      return (str, { sb with offset := toInt (sb.offset + sz) }, pool)
    else if sz = bytes then
      let str ← pool.copy current sb.offset (toInt (sz - skip))
      let (sb, pool) ← sb.returnFreeNode pool
      return (str, sb, pool)
    else popLoop (pool.nodes + 1) sb pool sz skip

/-- `lpopbuffer`; the size that it returns as well is that of the buffer. -/
def popbuffer (sb : SocketBuffer) (pool : Pool) (sz : ℕ) :
    Except Fault (Option (List UInt8) × SocketBuffer × Pool) :=
  let sz := toInt sz
  if sb.size < sz ∨ sz = 0 then .ok (none, sb, pool)
  else do
    let (str, sb, pool) ← sb.popLstring pool sz 0
    return (some str, { sb with size := toInt (sb.size - sz) }, pool)

/-- The loop of `lclearbuffer`. -/
def clearLoop : ℕ → SocketBuffer → Pool → Except Fault (SocketBuffer × Pool)
  | 0, _, _ => .error .roundsExhausted
  | fuel + 1, sb, pool =>
    match sb.head with
    | none => .ok (sb, pool)
    | some _ => do
      let (sb, pool) ← sb.returnFreeNode pool
      clearLoop fuel sb pool

/-- `lclearbuffer` -/
def clearbuffer (sb : SocketBuffer) (pool : Pool) : Except Fault (SocketBuffer × Pool) := do
  let (sb, pool) ← clearLoop (pool.nodes + 1) sb pool
  return ({ sb with size := 0 }, pool)

/-- The loop of `lreadall`. -/
def readallLoop : ℕ → SocketBuffer → Pool → Except Fault (List UInt8 × SocketBuffer × Pool)
  | 0, _, _ => .error .roundsExhausted
  | fuel + 1, sb, pool =>
    match sb.head with
    | none => .ok ([], sb, pool)
    | some current => do
      let bytes ← pool.copy current sb.offset (toInt ((pool.node current).sz - sb.offset))
      let (sb, pool) ← sb.returnFreeNode pool
      let (rest, sb, pool) ← readallLoop fuel sb pool
      return (bytes ++ rest, sb, pool)

/-- `lreadall` -/
def readall (sb : SocketBuffer) (pool : Pool) :
    Except Fault (List UInt8 × SocketBuffer × Pool) := do
  let (bytes, sb, pool) ← readallLoop (pool.nodes + 1) sb pool
  return (bytes, { sb with size := 0 }, pool)

/-- `check_sep`. The separator would be read in front of its first byte if `sz` were negative. -/
def checkSep : ℕ → Pool → Option ℕ → ℤ → List UInt8 → ℤ → Except Fault Bool
  | 0, _, _, _, _, _ => .error .roundsExhausted
  | _ + 1, _, none, _, _, _ => .error .nullPointer
  | fuel + 1, pool, some n, start, sep, seplen =>
    let sz := toInt ((pool.node n).sz - start)
    if seplen ≤ sz then pool.sameBytes n start sep seplen
    else if sz < 0 then .error .outside
    else do
      let same ← if 0 < sz then pool.sameBytes n start sep sz else pure true
      if same then
        checkSep fuel pool (pool.nextOf n) 0 (sep.drop sz.toNat) (toInt (seplen - sz))
      else return false

/-- The loop of `lreadline`: the position of the separator. -/
def findSep (sep : List UInt8) : ℕ → Pool → ℕ → ℤ → ℤ → ℤ → Except Fault (Option ℤ)
  | 0, _, _, _, _, _ => .ok none
  | rounds + 1, pool, current, start, bytes, i => do
    if ← checkSep (pool.nodes + 1) pool (some current) start sep (toInt sep.length) then
      return some i
    else if bytes - 1 = 0 then
      match pool.nextOf current with
      | none => return none
      | some next => findSep sep rounds pool next 0 (pool.node next).sz (i + 1)
    else findSep sep rounds pool current (start + 1) (bytes - 1) (i + 1)

/-- What `lreadline` returns. -/
inductive Line
  | nothing
  /-- `true`, when it only checks -/
  | found
  | line (str : List UInt8)
  deriving DecidableEq, Repr

/-- `lreadline`; it only checks if it gets no pool. -/
def readline (sb : SocketBuffer) (pool : Pool) (check : Bool) (sep : List UInt8) :
    Except Fault (Line × SocketBuffer × Pool) :=
  match sb.head with
  | none => .ok (.nothing, sb, pool)
  | some current => do
    let bytes := toInt ((pool.node current).sz - sb.offset)
    let rounds := (toInt (sb.size - toInt sep.length) + 1).toNat
    match ← findSep sep rounds pool current sb.offset bytes 0 with
    | none => return (.nothing, sb, pool)
    | some i =>
      if check then return (.found, sb, pool)
      else
        let (str, sb, pool) ← sb.popLstring pool (toInt (i + sep.length)) (toInt sep.length)
        return (.line str, { sb with size := toInt (sb.size - (i + sep.length)) }, pool)

end SocketBuffer

end Mtask.LuaSocket
