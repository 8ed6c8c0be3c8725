import Mtask.Lib.Ownership
import Mtask.Lib.Transition
import Mtask.LuaSocket.Chunks

/-!
# Socket buffers as queues of bytes

The buffers of any number of sockets take their nodes from one pool. Every buffer is a queue of
bytes, every node is in one buffer or free, and every message is in one buffer or was freed once, as
long as no buffer comes to hold `2 ^ 31` bytes and no count or separator is as long, where it is no
`int`.
-/

namespace Mtask.LuaSocket

open GateService (toInt)
open List
open GateService.DataBuffer (toInt_of_lt)
open IntrusiveQueue Ownership
open SocketBuffer (Line)

/-- The calls. -/
inductive BufferOp (Conn : Type*)
  | push (c : Conn) (data : List UInt8)
  | pop (c : Conn) (sz : ℕ)
  | readline (c : Conn) (check : Bool) (sep : List UInt8)
  | readall (c : Conn)
  | clear (c : Conn)

/-- What the calls return. -/
inductive Reply
  | pushed (size : ℤ)
  | popped (str : Option (List UInt8)) (size : ℤ)
  | line (l : Line)
  | all (str : List UInt8)
  | cleared
  deriving DecidableEq, Repr

/-- Chunks and separators are not empty, and some bytes are asked for. -/
def BufferOp.Proper {Conn : Type*} : BufferOp Conn → Prop
  | .push _ data => data ≠ []
  | .pop _ sz => 0 < sz
  | .readline _ _ sep => sep ≠ []
  | _ => True

instance {Conn : Type*} : ∀ op : BufferOp Conn, Decidable op.Proper
  | .push _ data => inferInstanceAs (Decidable (data ≠ []))
  | .pop _ sz => inferInstanceAs (Decidable (0 < sz))
  | .readline _ _ sep => inferInstanceAs (Decidable (sep ≠ []))
  | .readall _ => .isTrue trivial
  | .clear _ => .isTrue trivial

/-! ### Queues -/

/-- The bytes of every socket that are not read yet, and what has been returned. -/
structure Fifos (Conn : Type*) where
  unread : Conn → List UInt8
  replies : List Reply

namespace Fifos

variable {Conn : Type*} [DecidableEq Conn]

def init (Conn : Type*) : Fifos Conn :=
  ⟨fun _ => [], []⟩

def reply (q : Fifos Conn) (c : Conn) (unread : List UInt8) (r : Reply) : Fifos Conn :=
  ⟨Function.update q.unread c unread, q.replies ++ [r]⟩

/-- What a call does to the queues. -/
def step (q : Fifos Conn) : BufferOp Conn → Fifos Conn
  | .push c data =>
    q.reply c (q.unread c ++ data) (.pushed (q.unread c ++ data).length)
  | .pop c sz =>
    if sz ≤ (q.unread c).length then
      q.reply c ((q.unread c).drop sz)
        (.popped (some ((q.unread c).take sz)) ((q.unread c).drop sz).length)
    else q.reply c (q.unread c) (.popped none (q.unread c).length)
  | .readline c check sep =>
    match (q.unread c).dropInfix? sep with
    | none => q.reply c (q.unread c) (.line .nothing)
    | some (str, rest) =>
      if check then q.reply c (q.unread c) (.line .found) else q.reply c rest (.line (.line str))
  | .readall c => q.reply c [] (.all (q.unread c))
  | .clear c => q.reply c [] .cleared

end Fifos

/-! ### Buffers -/

/-- The pool and the buffers, the number of the next message, and what has been returned. -/
structure Sockets (Conn : Type*) where
  pool : Pool
  buffer : Conn → SocketBuffer
  nextMsg : ℕ
  replies : List Reply

namespace Sockets

variable {Conn : Type*} [DecidableEq Conn]

def init (Conn : Type*) : Sockets Conn :=
  ⟨.empty, fun _ => .newbuffer, 0, []⟩

def reply (s : Sockets Conn) (c : Conn) (sb : SocketBuffer) (pool : Pool) (r : Reply) :
    Sockets Conn :=
  { s with pool, buffer := Function.update s.buffer c sb, replies := s.replies ++ [r] }

/-- The pool with a new message. -/
def arrived (s : Sockets Conn) (data : List UInt8) : Pool :=
  { s.pool with block := Function.update s.pool.block s.nextMsg (some data) }

/-- `lpushbuffer` with a new message. -/
def push (s : Sockets Conn) (c : Conn) (data : List UInt8) : Except Fault (Sockets Conn) :=
  ((s.buffer c).pushbuffer (s.arrived data) s.nextMsg data.length).map fun (sb, pool) =>
    { s with nextMsg := s.nextMsg + 1 }.reply c sb pool (.pushed sb.size)

/-- `lpopbuffer` -/
def pop (s : Sockets Conn) (c : Conn) (sz : ℕ) : Except Fault (Sockets Conn) :=
  ((s.buffer c).popbuffer s.pool sz).map fun (str, sb, pool) =>
    s.reply c sb pool (.popped str sb.size)

/-- `lreadline` -/
def readline (s : Sockets Conn) (c : Conn) (check : Bool) (sep : List UInt8) :
    Except Fault (Sockets Conn) :=
  ((s.buffer c).readline s.pool check sep).map fun (l, sb, pool) => s.reply c sb pool (.line l)

/-- `lreadall` -/
def readall (s : Sockets Conn) (c : Conn) : Except Fault (Sockets Conn) :=
  ((s.buffer c).readall s.pool).map fun (str, sb, pool) => s.reply c sb pool (.all str)

/-- `lclearbuffer` -/
def clear (s : Sockets Conn) (c : Conn) : Except Fault (Sockets Conn) :=
  ((s.buffer c).clearbuffer s.pool).map fun (sb, pool) => s.reply c sb pool .cleared

def step (s : Sockets Conn) : BufferOp Conn → Except Fault (Sockets Conn)
  | .push c data => s.push c data
  | .pop c sz => s.pop c sz
  | .readline c check sep => s.readline c check sep
  | .readall c => s.readall c
  | .clear c => s.clear c

/-- The buffer goes on holding less than `2 ^ 31` bytes, and the count and the separator are of type
`int`, or the count becomes one that is not there either. -/
def Fits (s : Sockets Conn) : BufferOp Conn → Prop
  | .push c data => (s.buffer c).size + data.length < 2 ^ 31
  | .pop c sz => sz < 2 ^ 31 ∨ toInt sz = 0 ∨ (s.buffer c).size < toInt sz
  | .readline _ _ sep => sep.length < 2 ^ 31
  | _ => True

instance (s : Sockets Conn) : ∀ op : BufferOp Conn, Decidable (s.Fits op)
  | .push c data => inferInstanceAs (Decidable ((s.buffer c).size + data.length < 2 ^ 31))
  | .pop c sz =>
    inferInstanceAs (Decidable (sz < 2 ^ 31 ∨ toInt sz = 0 ∨ (s.buffer c).size < toInt sz))
  | .readline _ _ sep => inferInstanceAs (Decidable (sep.length < 2 ^ 31))
  | .readall _ => .isTrue trivial
  | .clear _ => .isTrue trivial

/-- Every node is in one buffer, or free; every message is that of a node in one buffer, or was
freed once. -/
structure InOnePlace (s : Sockets Conn) (nodes : Conn → List ℕ) (free : List ℕ) : Prop where
  chains : ∀ c, Linked s.pool.nextOf (s.buffer c).head (s.buffer c).tail (nodes c)
  freelist : Seg s.pool.nextOf s.pool.freeNode free none
  nodup : free.Nodup
  node : ∀ n < s.pool.nodes, (n ∈ free ∧ ∀ c, n ∉ nodes c) ∨
    (n ∉ free ∧ ∃ c, n ∈ nodes c ∧ ∀ c', n ∈ nodes c' → c' = c)
  message : ∀ m < s.nextMsg,
    (s.pool.freed.count m = 1 ∧ ∀ c, ∀ n ∈ nodes c, (s.pool.node n).msg ≠ some m) ∨
    (m ∉ s.pool.freed ∧ ∃ c, ∃ n ∈ nodes c, (s.pool.node n).msg = some m ∧
      ∀ c', ∀ n' ∈ nodes c', (s.pool.node n').msg = some m → n' = n)

/-! ### Buffers as queues -/

/-- The buffers hold some chunks, and what is not read of them is in the queues. -/
structure Abstracts (s : Sockets Conn) (chunks : Conn → List Chunk) (free : List ℕ)
    (q : Fifos Conn) : Prop where
  buffered : ∀ c, Buffered s.pool (s.buffer c) (chunks c) free (q.unread c)
  size_eq : ∀ c, (s.buffer c).size = (q.unread c).length
  size_lt : ∀ c, (q.unread c).length < 2 ^ 31
  freelist : Seg s.pool.nextOf s.pool.freeNode free none
  nodes : Shares (fun c => (chunks c).map Chunk.node) free {n | n < s.pool.nodes}
  msgs : Shares (fun c => (chunks c).map Chunk.msg) s.pool.freed {m | m < s.nextMsg}
  replies : s.replies = q.replies

omit [DecidableEq Conn] in
theorem abstracts_init : (init Conn).Abstracts (fun _ => []) [] (.init Conn) where
  buffered _ :=
    { linked := .empty
      holds := ⟨.nil none, nofun, nofun, nofun, nofun, nofun⟩
      freelist := .nil none
      nodes := nodup_nil
      msgs := nodup_nil
      lt := nofun
      start := ⟨0, rfl, rfl, fun _ => rfl, nofun⟩ }
  size_eq _ := rfl
  size_lt _ := Nat.two_pow_pos 31
  freelist := .nil none
  nodes := ⟨fun n => by simp [init, Pool.empty], fun _ => nodup_nil,
    fun _ _ _ _ hn => (by cases hn), nodup_nil⟩
  msgs := ⟨fun n => by simp [init, Pool.empty], fun _ => nodup_nil,
    fun _ _ _ _ hn => (by cases hn), nodup_nil⟩
  replies := rfl

namespace Abstracts

variable {s : Sockets Conn} {chunks : Conn → List Chunk} {free free' : List ℕ} {q : Fifos Conn}
  {c : Conn} {sb' : SocketBuffer} {pool' : Pool} {list' : List Chunk} {unread' : List UInt8}

/-- A call for one socket leaves the buffers of the others alone. -/
theorem update (h : s.Abstracts chunks free q) (block : ℕ → Option (List UInt8))
    {fresh news : List ℕ} {nextMsg : ℕ} (r : Reply)
    (hblock : ∀ m < s.nextMsg, block m = s.pool.block m)
    (hbuffered : Buffered pool' sb' list' free' unread')
    (heffect : Effect { s.pool with block } pool' (chunks c) list' free free' fresh news)
    (hfresh : fresh = List.range' s.pool.nodes fresh.length)
    (hnews : news = List.range' s.nextMsg news.length)
    (hnext : nextMsg = s.nextMsg + news.length)
    (hsize : sb'.size = unread'.length) (hlt : unread'.length < 2 ^ 31) :
    ({ s with nextMsg }.reply c sb' pool' r).Abstracts (Function.update chunks c list') free'
      (q.reply c unread' r) := by
  have howned {a k : ℕ} {l : List ℕ} (hl : l = List.range' a k) :
      {n | n < a + k} = {n | n < a} ∪ {n | n ∈ l} := by
    ext n
    simp only [Set.mem_union, hl]
    change n < a + k ↔ n < a ∨ n ∈ List.range' a k
    rw [mem_range'_1]
    omega
  have hnot {a : ℕ} {l : List ℕ} (hl : l = List.range' a l.length) :
      ∀ n ∈ l, n ∉ {n | n < a} := by
    intro n hn hcon
    rw [hl] at hn
    exact Nat.not_lt_of_le (mem_range'_1.mp hn).1 hcon
  have hnodes := h.nodes.exchange (a := c) (hfresh ▸ nodup_range') (hnot hfresh) heffect.nodes
  have hmsgs := h.msgs.exchange (a := c) (hnews ▸ nodup_range') (hnot hnews) heffect.msgs
  have hmap {f : Chunk → ℕ} : (fun c' => (Function.update chunks c list' c').map f) =
      Function.update (fun c' => (chunks c').map f) c (list'.map f) := by
    funext c'
    exact Function.apply_update (fun _ => List.map f) chunks c list' c'
  have hcount := heffect.count
  have hshares : Shares (fun c' => (Function.update chunks c list' c').map Chunk.node) free'
      {n | n < pool'.nodes} := by
    rw [hmap, hcount, howned hfresh]
    exact hnodes
  have hsharesMsgs : Shares (fun c' => (Function.update chunks c list' c').map Chunk.msg)
      pool'.freed {m | m < nextMsg} := by
    rw [hmap, hnext, howned hnews]
    exact hmsgs
  have hother {c' : Conn} (hne : c' ≠ c) :
      Buffered pool' (s.buffer c') (chunks c') free' (q.unread c') := by
    have hb := h.buffered c'
    have hnode {n : ℕ} (hn : n ∈ (chunks c').map Chunk.node) :
        pool'.node n = s.pool.node n :=
      heffect.node_eq n (h.nodes.disjoint c' c hne n hn) (h.nodes.not_listed hn)
        fun hmem => hnot hfresh n hmem (h.nodes.mem_of_held hn)
    have hmsg {m : ℕ} (hm : m ∈ (chunks c').map Chunk.msg) : pool'.block m = s.pool.block m :=
      (heffect.block_eq m (h.msgs.disjoint c' c hne m hm)
        fun hmem => hnot hnews m hmem (h.msgs.mem_of_held hm)).trans
          (hblock m (h.msgs.mem_of_held hm))
    have hnextOf : ∀ n ∈ (chunks c').map Chunk.node, pool'.nextOf n = s.pool.nextOf n :=
      fun n hn => by rw [Pool.nextOf, hnode hn, Pool.nextOf]
    exact
      { linked := hb.linked.congr hnextOf
        holds := ⟨hb.holds.seg.congr hnextOf,
          fun x hx => by rw [hnode (mem_map_of_mem hx), hb.holds.msg_eq x hx],
          fun x hx => by rw [hnode (mem_map_of_mem hx), hb.holds.sz_eq x hx],
          fun x hx => by rw [hmsg (mem_map_of_mem hx), hb.holds.block_eq x hx],
          hb.holds.nonempty, hb.holds.length_lt⟩
        freelist := hbuffered.freelist
        nodes := by
          have hnodup := hshares.nodup c'
          rwa [Function.update_of_ne hne] at hnodup
        msgs := by
          have hnodup := hsharesMsgs.nodup c'
          rwa [Function.update_of_ne hne] at hnodup
        lt := fun n hn => Nat.lt_of_lt_of_le (hb.lt n hn) (hcount ▸ Nat.le_add_right _ _)
        start := hb.start }
  refine ⟨fun c' => ?_, fun c' => ?_, fun c' => ?_, hbuffered.freelist, hshares, hsharesMsgs, ?_⟩
  · rcases eq_or_ne c' c with rfl | hne
    · simpa [Sockets.reply, Fifos.reply] using hbuffered
    · simpa [Sockets.reply, Fifos.reply, Function.update_of_ne hne] using hother hne
  · rcases eq_or_ne c' c with rfl | hne
    · simpa [Sockets.reply, Fifos.reply] using hsize
    · simpa [Sockets.reply, Fifos.reply, Function.update_of_ne hne] using h.size_eq c'
  · rcases eq_or_ne c' c with rfl | hne
    · simpa [Fifos.reply] using hlt
    · simpa [Fifos.reply, Function.update_of_ne hne] using h.size_lt c'
  · exact congrArg (· ++ [r]) h.replies

theorem updateRead (h : s.Abstracts chunks free q) (r : Reply)
    (hleft : Left s.pool (s.buffer c) (chunks c) free sb' pool' unread') (size : ℤ)
    (hsize : size = unread'.length) (hlt : unread'.length < 2 ^ 31) :
    ∃ chunks' free', (s.reply c { sb' with size } pool' r).Abstracts chunks' free'
      (q.reply c unread' r) := by
  obtain ⟨⟨list', free', hbuffered, heffect⟩, -⟩ := hleft
  exact ⟨_, free', h.update s.pool.block r (fun _ _ => rfl) (hbuffered.withSize size) heffect rfl rfl rfl hsize
    hlt⟩

omit [DecidableEq Conn] in
/-- Nothing has been read. -/
theorem left_refl (h : s.Abstracts chunks free q) (c : Conn) :
    Left s.pool (s.buffer c) (chunks c) free (s.buffer c) s.pool (q.unread c) :=
  ⟨⟨chunks c, free, h.buffered c, .refl ..⟩, rfl⟩

/-- A call that returns something and changes nothing. -/
theorem unchanged (h : s.Abstracts chunks free q) (c : Conn) (r : Reply) :
    ∃ chunks' free', (s.reply c (s.buffer c) s.pool r).Abstracts chunks' free'
      (q.reply c (q.unread c) r) :=
  h.updateRead r (h.left_refl c) (s.buffer c).size (h.size_eq c) (h.size_lt c)

theorem push (h : s.Abstracts chunks free q) {data : List UInt8} (hne : data ≠ [])
    (hlt : (s.buffer c).size + data.length < 2 ^ 31) :
    ∃ s' chunks' free', s.push c data = .ok s' ∧
      s'.Abstracts chunks' free' (q.step (.push c data)) := by
  have hsize := h.size_eq c
  have hold : ∀ m < s.nextMsg, (s.arrived data).block m = s.pool.block m := fun m hm =>
    Function.update_of_ne (Nat.ne_of_lt hm) ..
  have hb := h.buffered c
  have hbuffered : Buffered (s.arrived data) (s.buffer c) (chunks c) free (q.unread c) :=
    { hb with
      holds := { hb.holds with
        block_eq := fun x hx => by
          rw [hold _ (h.msgs.mem_of_held (a := c) (mem_map_of_mem hx)),
            hb.holds.block_eq x hx] } }
  have hnew : s.nextMsg ∉ (chunks c).map Chunk.msg ++ s.pool.freed := by
    intro hmem
    have hlt : s.nextMsg < s.nextMsg := by
      rcases mem_append.mp hmem with hmem | hmem
      · exact h.msgs.mem_of_held hmem
      · exact h.msgs.mem_of_listed hmem
    exact Nat.lt_irrefl _ hlt
  obtain ⟨n, sb', pool', free', fresh, heq, hbuffered', heffect, hfresh, hsize'⟩ :=
    hbuffered.pushbuffer hne (by omega) (Function.update_self ..) hnew
      fun n hn => h.nodes.mem_of_listed hn
  have hlen : (q.unread c ++ data).length < 2 ^ 31 := by
    rw [length_append]
    omega
  have hsize'' : sb'.size = (q.unread c ++ data).length := by
    rw [hsize', hsize, ← Int.natCast_add, ← length_append]
    exact toInt_of_lt hlen
  have hstep : s.push c data = .ok ({ s with nextMsg := s.nextMsg + 1 }.reply c sb' pool'
      (.pushed sb'.size)) := by
    rw [Sockets.push, heq]
    rfl
  have habs := h.update (s.arrived data).block (.pushed sb'.size) hold hbuffered' heffect hfresh
    rfl rfl hsize'' hlen
  refine ⟨_, Function.update chunks c (chunks c ++ [⟨n, s.nextMsg, data⟩]), free', hstep, ?_⟩
  rw [Fifos.step, ← hsize'']
  exact habs

theorem pop (h : s.Abstracts chunks free q) {sz : ℕ} (hpos : 0 < sz)
    (hfits : sz < 2 ^ 31 ∨ toInt sz = 0 ∨ (s.buffer c).size < toInt sz) :
    ∃ s' chunks' free', s.pop c sz = .ok s' ∧
      s'.Abstracts chunks' free' (q.step (.pop c sz)) := by
  have hsize := h.size_eq c
  have hlt := h.size_lt c
  by_cases hle : sz ≤ (q.unread c).length
  · have hint : toInt (sz : ℤ) = sz := toInt_of_lt (by omega)
    obtain ⟨sb', pool', heq, hleft⟩ :=
      (h.buffered c).popLstring sz 0 hpos hle hlt (Nat.zero_le _)
    have hrest : toInt (sb'.size - sz) = ((q.unread c).drop sz).length := by
      rw [hleft.size, hsize, ← Int.ofNat_sub hle, length_drop]
      exact toInt_of_lt (by omega)
    have hpop : (s.buffer c).popbuffer s.pool sz = .ok (some ((q.unread c).take sz),
        { sb' with size := toInt (sb'.size - sz) }, pool') := by
      rw [Int.natCast_zero, Nat.sub_zero] at heq
      rw [SocketBuffer.popbuffer]
      simp only [hint]
      rw [if_neg (by omega)]
      simp only [heq, bind, Except.bind, pure, Except.pure]
    rw [hrest] at hpop
    obtain ⟨chunks', free', habs⟩ := h.updateRead
      (.popped (some ((q.unread c).take sz)) ((q.unread c).drop sz).length) hleft _ rfl
      (by rw [length_drop]; omega)
    refine ⟨_, chunks', free', by rw [Sockets.pop, hpop]; rfl, ?_⟩
    rw [Fifos.step, if_pos hle]
    exact habs
  · have hnone : (s.buffer c).size < toInt sz ∨ toInt (sz : ℤ) = 0 := by
      rcases hfits with hfits | hfits | hfits
      · rw [toInt_of_lt hfits, hsize]
        omega
      · exact .inr hfits
      · exact .inl hfits
    obtain ⟨chunks', free', habs⟩ := h.unchanged c (.popped none (s.buffer c).size)
    have hpop : (s.buffer c).popbuffer s.pool sz = .ok (none, s.buffer c, s.pool) := by
      rw [SocketBuffer.popbuffer]
      exact if_pos hnone
    refine ⟨_, chunks', free', by rw [Sockets.pop, hpop]; rfl, ?_⟩
    rw [Fifos.step, if_neg hle, ← hsize]
    exact habs

theorem readall (h : s.Abstracts chunks free q) (c : Conn) :
    ∃ s' chunks' free', s.readall c = .ok s' ∧ s'.Abstracts chunks' free' (q.step (.readall c)) := by
  obtain ⟨sb', pool', hloop, hleft⟩ :=
    (h.buffered c).readallLoop (Nat.lt_succ_of_le (h.buffered c).length_le)
  have hread : (s.buffer c).readall s.pool =
      .ok (q.unread c, { sb' with size := 0 }, pool') := by
    rw [SocketBuffer.readall, hloop]
    rfl
  obtain ⟨chunks', free', habs⟩ := h.updateRead (.all (q.unread c)) hleft 0 rfl
    (Nat.two_pow_pos 31)
  exact ⟨_, chunks', free', by rw [Sockets.readall, hread]; rfl, habs⟩

theorem clear (h : s.Abstracts chunks free q) (c : Conn) :
    ∃ s' chunks' free', s.clear c = .ok s' ∧ s'.Abstracts chunks' free' (q.step (.clear c)) := by
  obtain ⟨sb', pool', hloop, hleft⟩ :=
    (h.buffered c).clearLoop (Nat.lt_succ_of_le (h.buffered c).length_le)
  have hclear : (s.buffer c).clearbuffer s.pool = .ok ({ sb' with size := 0 }, pool') := by
    rw [SocketBuffer.clearbuffer, hloop]
    rfl
  obtain ⟨chunks', free', habs⟩ := h.updateRead .cleared hleft 0 rfl (Nat.two_pow_pos 31)
  exact ⟨_, chunks', free', by rw [Sockets.clear, hclear]; rfl, habs⟩

/-- The number of places where the separator can begin. -/
theorem rounds_eq {n k : ℕ} (hn : n < 2 ^ 31) (hk : k < 2 ^ 31) :
    (toInt ((n : ℤ) - k) + 1).toNat = n + 1 - k := by
  have hint : toInt ((n : ℤ) - k) = (n : ℤ) - k := by
    rw [toInt, Int.bmod_eq_of_le] <;> omega
  rw [hint]
  omega

omit [DecidableEq Conn] in
/-- `lreadline` up to the position of the separator. -/
theorem findSep (h : s.Abstracts chunks free q) {sep : List UInt8} {x : Chunk} {rest : List Chunk}
    {start : ℕ} (hlist : chunks c = x :: rest) (hoffset : (s.buffer c).offset = start)
    (hx : start < x.data.length) (hunread : q.unread c = x.data.drop start ++ bytes rest)
    (hne : sep ≠ []) (hsep : sep.length < 2 ^ 31) :
    SocketBuffer.findSep sep
        (toInt ((s.buffer c).size - toInt sep.length) + 1).toNat s.pool x.node
        (s.buffer c).offset (toInt ((s.pool.node x.node).sz - (s.buffer c).offset)) 0 =
      .ok (((q.unread c).dropInfix? sep).map fun r => (r.1.length : ℤ)) := by
  have hb := h.buffered c
  have hlen := hb.length_le
  rw [hlist] at hb hlen
  have hholds : Holds s.pool (some x.node) (x :: rest) := hb.holds.head_eq ▸ hb.holds
  have hdrop : (bytes (x :: rest)).drop start = q.unread c := by
    rw [bytes_cons, drop_append_of_le_length (Nat.le_of_lt hx), hunread]
  have hfind := hholds.findSep start hx hlen hne hsep 0 rfl
  rw [hdrop] at hfind
  rw [h.size_eq c, toInt_of_lt hsep, rounds_eq (h.size_lt c) hsep, hoffset,
    hholds.toInt_left (Nat.le_of_lt hx), hfind]
  simp only [Int.zero_add]

theorem readline (h : s.Abstracts chunks free q) (c : Conn) (check : Bool) {sep : List UInt8}
    (hne : sep ≠ []) (hsep : sep.length < 2 ^ 31) :
    ∃ s' chunks' free', s.readline c check sep = .ok s' ∧
      s'.Abstracts chunks' free' (q.step (.readline c check sep)) := by
  have hsize := h.size_eq c
  have hlt := h.size_lt c
  by_cases hnil : q.unread c = []
  · -- there is no node
    obtain ⟨start, -, hunread, -, hfirst⟩ := (h.buffered c).start
    have hlist : chunks c = [] := by
      rcases hlist : chunks c with _ | ⟨x, rest⟩
      · rfl
      · have hx := hfirst x rest hlist
        rw [hnil, hlist, bytes_cons, drop_append_of_le_length (Nat.le_of_lt hx)] at hunread
        have hempty := (append_eq_nil_iff.mp hunread.symm).1
        exact absurd (drop_eq_nil_iff.mp hempty) (Nat.not_le_of_lt hx)
    have hhead : (s.buffer c).head = none := (hlist ▸ (h.buffered c).holds).nil_head
    have hread : (s.buffer c).readline s.pool check sep =
        .ok (.nothing, s.buffer c, s.pool) := by
      rw [SocketBuffer.readline, hhead]
    have hnone : (q.unread c).dropInfix? sep = none := by
      rw [hnil]
      exact FirstInfix.eq_none_of_length_lt (length_pos_iff.mpr hne)
    obtain ⟨chunks', free', habs⟩ := h.unchanged c (.line .nothing)
    refine ⟨_, chunks', free', by rw [Sockets.readline, hread]; rfl, ?_⟩
    rw [Fifos.step, hnone]
    exact habs
  · obtain ⟨x, rest, start, hlist, hhead, hoffset, hx, hunread⟩ :=
      (h.buffered c).exists_first hnil
    have hfind := h.findSep hlist hoffset hx hunread hne hsep
    cases hcut : (q.unread c).dropInfix? sep with
    | none =>
      rw [hcut] at hfind
      have hread : (s.buffer c).readline s.pool check sep =
          .ok (.nothing, s.buffer c, s.pool) := by
        rw [SocketBuffer.readline, hhead]
        simp only [hfind, bind, Except.bind, pure, Except.pure, Option.map_none]
      obtain ⟨chunks', free', habs⟩ := h.unchanged c (.line .nothing)
      refine ⟨_, chunks', free', by rw [Sockets.readline, hread]; rfl, ?_⟩
      rw [Fifos.step, hcut]
      exact habs
    | some r =>
      obtain ⟨str, after⟩ := r
      rw [hcut] at hfind
      obtain ⟨heq, -⟩ := FirstInfix.eq_some_iff.mp hcut
      have hlen : (q.unread c).length = str.length + sep.length + after.length := by
        rw [heq, length_append, length_append]
      have hpos := length_pos_iff.mpr hne
      cases check with
      | true =>
        have hread : (s.buffer c).readline s.pool true sep =
            .ok (.found, s.buffer c, s.pool) := by
          rw [SocketBuffer.readline, hhead]
          simp only [hfind, bind, Except.bind, pure, Except.pure, Option.map_some, if_true]
        obtain ⟨chunks', free', habs⟩ := h.unchanged c (.line .found)
        refine ⟨_, chunks', free', by rw [Sockets.readline, hread]; rfl, ?_⟩
        rw [Fifos.step, hcut]
        exact habs
      | false =>
        obtain ⟨sb', pool', hpop, hleft⟩ := (h.buffered c).popLstring
          (str.length + sep.length) sep.length (by omega) (by omega) hlt
          (Nat.le_add_left _ _)
        have hstr : (q.unread c).take (str.length + sep.length - sep.length) = str := by
          rw [Nat.add_sub_cancel, heq, append_assoc, take_left]
        have hafter : (q.unread c).drop (str.length + sep.length) = after := by
          rw [heq, ← length_append, drop_left]
        rw [hstr] at hpop
        rw [hafter] at hleft
        have hsum : toInt ((str.length : ℤ) + sep.length) = (str.length + sep.length : ℕ) := by
          rw [← Int.natCast_add]
          exact toInt_of_lt (by omega)
        have hrest : toInt (sb'.size - ((str.length : ℤ) + sep.length)) = after.length := by
          have hsub : sb'.size - ((str.length : ℤ) + sep.length) = (after.length : ℕ) := by
            rw [hleft.size, hsize]
            omega
          rw [hsub]
          exact toInt_of_lt (by omega)
        have hread : (s.buffer c).readline s.pool false sep =
            .ok (.line str, { sb' with size := after.length }, pool') := by
          rw [SocketBuffer.readline, hhead]
          simp only [hfind, bind, Except.bind, pure, Except.pure, Option.map_some]
          simp only [hsum, toInt_of_lt hsep, hpop, hrest, Bool.false_eq_true, if_false]
        obtain ⟨chunks', free', habs⟩ := h.updateRead (.line (.line str)) hleft after.length rfl
          (by omega)
        refine ⟨_, chunks', free', by rw [Sockets.readline, hread]; rfl, ?_⟩
        rw [Fifos.step, hcut]
        exact habs

/-- **A call does with the nodes what it does with the queues.** -/
theorem step (h : s.Abstracts chunks free q) {op : BufferOp Conn} (hproper : op.Proper)
    (hfits : s.Fits op) : ∃ s' chunks' free', s.step op = .ok s' ∧
      s'.Abstracts chunks' free' (q.step op) := by
  cases op with
  | push c data => exact h.push hproper hfits
  | pop c sz => exact h.pop hproper hfits
  | readline c check sep => exact h.readline c check hproper hfits
  | readall c => exact h.readall c
  | clear c => exact h.clear c

omit [DecidableEq Conn] in
theorem inOnePlace (h : s.Abstracts chunks free q) :
    s.InOnePlace (fun c => (chunks c).map Chunk.node) free where
  chains c := (h.buffered c).linked
  freelist := h.freelist
  nodup := h.nodes.listed_nodup
  node n hn := by
    rcases (h.nodes.mem_iff n).mp hn with ⟨c, hc⟩ | hf
    · refine .inr ⟨h.nodes.not_listed hc, c, hc, fun c' hc' => ?_⟩
      by_contra hne
      exact h.nodes.disjoint c' c hne n hc' hc
    · exact .inl ⟨hf, fun c hc => h.nodes.not_listed hc hf⟩
  message m hm := by
    have hmsg {c : Conn} {n : ℕ} (hn : n ∈ (chunks c).map Chunk.node)
        (heq : (s.pool.node n).msg = some m) : ∃ x ∈ chunks c, x.node = n ∧ x.msg = m := by
      obtain ⟨x, hx, rfl⟩ := mem_map.mp hn
      rw [(h.buffered c).holds.msg_eq x hx] at heq
      exact ⟨x, hx, rfl, Option.some.inj heq⟩
    rcases (h.msgs.mem_iff m).mp hm with ⟨c, hc⟩ | hf
    · obtain ⟨x, hx, rfl⟩ := mem_map.mp hc
      refine .inr ⟨h.msgs.not_listed hc, c, x.node, mem_map_of_mem hx,
        (h.buffered c).holds.msg_eq x hx, fun c' n' hn' heq => ?_⟩
      obtain ⟨y, hy, rfl, hxy⟩ := hmsg hn' heq
      obtain rfl : c' = c := by
        by_contra hne
        exact h.msgs.disjoint c' c hne y.msg (mem_map_of_mem hy) (hxy ▸ hc)
      have hnodup := (nodup_append.mp (h.buffered c').msgs).1
      rw [inj_on_of_nodup_map hnodup hy hx hxy]
    · refine .inl ⟨count_eq_one_of_mem h.msgs.listed_nodup hf, fun c n hn heq => ?_⟩
      obtain ⟨x, hx, rfl, rfl⟩ := hmsg hn heq
      exact h.msgs.not_listed (mem_map_of_mem hx) hf

end Abstracts

end Sockets

/-- The calls do with the buffers what they do with the queues: they do not fail and return the
same, and afterwards every buffer has the size of its queue, every node is in one place, and every
message is in a buffer or was freed once. -/
def IsFifo {Conn : Type*} [DecidableEq Conn] (l : List (BufferOp Conn)) : Prop :=
  ∃ s, Transition.exec Sockets.step (.init Conn) l = .ok s ∧
    s.replies = (l.foldl Fifos.step (.init Conn)).replies ∧
    (∀ c, (s.buffer c).size = ((l.foldl Fifos.step (.init Conn)).unread c).length) ∧
    ∃ nodes free, s.InOnePlace nodes free

/-- Two sockets; the separator of the first one is split over two chunks. -/
def sampleRun : List (BufferOp Bool) :=
  [.push false [97, 13], .push true [120], .push false [10, 98], .readline false false [13, 10],
    .pop false 1, .pop true 2, .readall true]

/-- One byte is there, and `2 ^ 32 + 1` bytes are asked for. -/
def shortRun : List (BufferOp Unit) :=
  [.push () [97], .pop () (2 ^ 32 + 1)]

end Mtask.LuaSocket
