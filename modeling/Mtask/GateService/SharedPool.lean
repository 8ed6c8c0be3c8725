import Mtask.GateService.Messages
import Mtask.Lib.Ownership

/-!
# Buffers that share a pool

The buffers of any number of connections take their messages from one pool. Every buffer is a queue
of bytes, and every message is in one buffer or in the pool, as long as no buffer comes to hold
`2 ^ 31` bytes, where its size is no `int`, and nobody reads no bytes from an empty buffer, which
has no first message.
-/

namespace Mtask.GateService

open IntrusiveQueue Ownership List

namespace DataBuffer

variable {db db' : DataBuffer} {mp mp' : MessagePool}

theorem next_read {sz : ℕ} {bytes : List UInt8} (h : db.read mp sz = .ok (bytes, db', mp')) :
    mp'.next = mp.next := by
  rw [DataBuffer.read] at h
  split_ifs at h
  split at h
  · cases h
    rfl
  · cases h

theorem next_readHeader {headerSize : HeaderSize} {size : ℤ}
    (h : db.readHeader mp headerSize = .ok (size, db', mp')) : mp'.next = mp.next := by
  rw [DataBuffer.readHeader] at h
  split_ifs at h
  · cases h
    rfl
  · split at h
    · next hread =>
      dsimp only at h
      split_ifs at h <;> cases h <;> exact next_read hread
    · cases h
  · cases h
    rfl
  · cases h
    rfl

theorem Sound.read_nothing (h : db.Sound) (mp : MessagePool) (hne : db.bytes ≠ []) :
    db.read mp 0 = .ok ([], db, mp) := by
  have hsize := h.size_eq
  have hlt := h.size_lt
  rcases hlist : db.list with _ | ⟨m, list⟩
  · exact absurd (by simp [DataBuffer.bytes, hlist]) hne
  · have hoff := h.offset_lt m list hlist
    have hloop : DataBuffer.readLoop db.list db.offset 0 = .ok ([], db.list, db.offset, []) := by
      rw [hlist, DataBuffer.readLoop, if_pos (by omega)]
      rfl
    have hint : toInt (db.size - (0 : ℕ)) = db.size := by
      rw [Int.natCast_zero, Int.sub_zero, hsize, toInt_of_lt hlt]
    rw [DataBuffer.read, if_neg (by omega), hloop]
    simp only [hint]
    rfl

end DataBuffer

/-- The pool and the buffers of the connections, with the bytes that were pushed into a buffer and
those that were read from it since it was cleared. -/
structure Shared (Conn : Type*) where
  mp : CellPool
  db : Conn → LinkedBuffer
  pushed : Conn → List UInt8
  got : Conn → List UInt8

/-- The calls. -/
inductive BufferOp (Conn : Type*)
  | push (c : Conn) (data : List UInt8)
  | read (c : Conn) (sz : ℕ)
  | readHeader (c : Conn) (headerSize : HeaderSize)
  | reset (c : Conn)
  | clear (c : Conn)

namespace Shared

variable {Conn : Type*} [DecidableEq Conn]

/-- All buffers are empty, and there is no block of messages. -/
def init (Conn : Type*) : Shared Conn :=
  ⟨.zero, fun _ => .zero, fun _ => [], fun _ => []⟩

/-- One buffer, and the pool, after a call. -/
def update (st : Shared Conn) (c : Conn) (mp : CellPool) (db : LinkedBuffer)
    (pushed got : List UInt8) : Shared Conn where
  mp := mp
  db := Function.update st.db c db
  pushed := Function.update st.pushed c pushed
  got := Function.update st.got c got

def step (st : Shared Conn) : BufferOp Conn → Except LinkFault (Shared Conn)
  | .push c data =>
    match (st.db c).push st.mp data with
    | .ok (db, mp) => .ok (st.update c mp db (st.pushed c ++ data) (st.got c))
    | .error e => .error e
  | .read c sz =>
    match (st.db c).read st.mp sz with
    | .ok (bytes, db, mp) => .ok (st.update c mp db (st.pushed c) (st.got c ++ bytes))
    | .error e => .error e
  | .readHeader c headerSize =>
    match (st.db c).readHeader st.mp headerSize with
    | .ok (_, plen, db, mp) => .ok (st.update c mp db (st.pushed c) (st.got c ++ plen))
    | .error e => .error e
  | .reset c => .ok (st.update c st.mp (st.db c).reset (st.pushed c) (st.got c))
  | .clear c =>
    match (st.db c).clear st.mp with
    | .ok (db, mp) => .ok (st.update c mp db [] [])
    | .error e => .error e

/-- The calls of the interface: chunks are not empty and have a length of type `int`, and no more is
read than is there. -/
def Proper (st : Shared Conn) : BufferOp Conn → Prop
  | .push _ data => data ≠ [] ∧ data.length < 2 ^ 31
  | .read c sz => sz ≤ (st.db c).size
  | _ => True

/-- The calls whose buffer goes on holding less than `2 ^ 31` bytes, and that do not read nothing
from an empty buffer. -/
def Holdable (st : Shared Conn) : BufferOp Conn → Prop
  | .push c data => (st.db c).size + data.length < 2 ^ 31
  | .read c sz => sz = 0 → (st.db c).size ≠ 0
  | _ => True

/-- The bytes that were pushed and not read. -/
def unread (st : Shared Conn) (c : Conn) : List UInt8 :=
  (st.pushed c).drop (st.got c).length

/-- Every message is in one buffer, or in the list of the pool. -/
structure InOnePlace (st : Shared Conn) (nodes : Conn → List ℕ) (free : List ℕ) : Prop where
  chains : ∀ c, Linked st.mp.nextOf (st.db c).head (st.db c).tail (nodes c)
  freelist : Seg st.mp.nextOf st.mp.freelist free none
  nodup : free.Nodup
  place : ∀ n < st.mp.next, (n ∈ free ∧ ∀ c, n ∉ nodes c) ∨
    (n ∉ free ∧ ∃ c, n ∈ nodes c ∧ ∀ c', n ∈ nodes c' → c' = c)

/-- The buffer is a queue of bytes: what was read is the beginning of what was pushed, the size is
the number of the other bytes, and the offset is in the first message. -/
structure IsQueue (st : Shared Conn) (c : Conn) : Prop where
  got_prefix : st.got c <+: st.pushed c
  size_eq : (st.db c).size = (st.unread c).length
  offset_eq : (st.db c).head = none → (st.db c).offset = 0
  offset_lt : ∀ m, (st.db c).head = some m →
    0 ≤ (st.db c).offset ∧ (st.db c).offset < (st.mp.cell m).size

/-! ### The buffers as lists of chunks -/

/-- The pool and the buffers, with pointers and with lists. -/
structure Abstracts (st : Shared Conn) (pool : MessagePool) (d : Conn → DataBuffer) : Prop where
  represents : PoolRepresents st.mp pool
  buffer : ∀ c, Represents st.mp (st.db c) (d c)
  sound : ∀ c, (d c).Sound
  stream : ∀ c, st.pushed c = st.got c ++ (d c).bytes
  shares : Shares (fun c => (d c).nodes) pool.freelist {n | n < pool.next}

omit [DecidableEq Conn] in
theorem abstracts_init : (init Conn).Abstracts ⟨[], 0⟩ fun _ => .zero where
  represents := ⟨.nil none, rfl⟩
  buffer _ := ⟨rfl, rfl, rfl, ⟨.empty, nofun, nofun, nofun⟩⟩
  sound _ := .zero
  stream _ := rfl
  shares := ⟨fun n => by simp [DataBuffer.nodes, DataBuffer.zero], fun _ => nodup_nil,
    fun _ _ _ _ hn => (by cases hn), nodup_nil⟩

variable {op : BufferOp Conn} {data : List UInt8}

namespace Abstracts

variable {st st' : Shared Conn} {pool pool' : MessagePool} {d : Conn → DataBuffer}
  {d' : DataBuffer} {c : Conn} {mp' : CellPool} {db' : LinkedBuffer} {pushed got : List UInt8}

omit [DecidableEq Conn] in
theorem apart (h : st.Abstracts pool d) (c : Conn) : Apart (d c).nodes pool.freelist pool.next :=
  ⟨h.shares.nodup c, fun _ hn => (h.shares.mem_iff _).mpr
    ((mem_append.mp hn).imp_left fun hn => ⟨c, hn⟩)⟩

omit [DecidableEq Conn] in
theorem unread_eq (h : st.Abstracts pool d) (c : Conn) : st.unread c = (d c).bytes := by
  rw [unread, h.stream c, drop_left]

section

variable (h : st.Abstracts pool d)
include h

/-- A call for one connection leaves the other ones alone. -/
theorem update {fresh : List ℕ} (hnew : fresh.Nodup)
    (hfresh : ∀ n, n < pool'.next ↔ n < pool.next ∨ n ∈ fresh) (hnot : ∀ n ∈ fresh, pool.next ≤ n)
    (hbuffer : Represents mp' db' d') (hpool : PoolRepresents mp' pool') (hsound : d'.Sound)
    (hstream : pushed = got ++ d'.bytes)
    (hmoved : Moved st.mp mp' (d c).nodes d'.nodes pool.freelist pool'.freelist fresh) :
    (st.update c mp' db' pushed got).Abstracts pool' (Function.update d c d') := by
  have hshares := h.shares.exchange (a := c) hnew (fun n hn => Nat.not_lt.mpr (hnot n hn))
    hmoved.perm
  have hnodes : (fun c' => (Function.update d c d' c').nodes) =
      Function.update (fun c' => (d c').nodes) c d'.nodes :=
    funext fun c' => Function.apply_update (fun _ => DataBuffer.nodes) d c d' c'
  have howned : {n | n < pool'.next} = {n | n < pool.next} ∪ {n | n ∈ fresh} := Set.ext hfresh
  refine ⟨hpool, fun c' => ?_, fun c' => ?_, fun c' => ?_, by rwa [hnodes, howned]⟩ <;>
    rcases eq_or_ne c' c with rfl | hne
  · simpa [Shared.update] using hbuffer
  · simp only [Shared.update, Function.update_of_ne hne]
    obtain ⟨hheader, hoffset, hsize, hchained⟩ := h.buffer c'
    refine ⟨hheader, hoffset, hsize, hchained.congr fun n hn => hmoved.kept n ?_ ?_ ?_⟩
    · exact h.shares.disjoint c' c hne n hn
    · exact h.shares.not_listed hn
    · exact fun hf => Nat.not_lt.mpr (hnot n hf) (h.shares.mem_of_held hn)
  · simpa using hsound
  · simpa [hne] using h.sound c'
  · simpa [Shared.update] using hstream
  · simpa [Shared.update, hne] using h.stream c'

theorem updateOld (hbuffer : Represents mp' db' d') (hpool : PoolRepresents mp' pool')
    (hnext : pool'.next = pool.next) (hsound : d'.Sound) (hstream : pushed = got ++ d'.bytes)
    (hmoved : Moved st.mp mp' (d c).nodes d'.nodes pool.freelist pool'.freelist []) :
    (st.update c mp' db' pushed got).Abstracts pool' (Function.update d c d') :=
  h.update nodup_nil (fun n => by simp [hnext]) nofun hbuffer hpool hsound hstream hmoved

theorem push (hne : data ≠ []) (hlen : data.length < 2 ^ 31)
    (hlt : (st.db c).size + data.length < 2 ^ 31) :
    ∃ st' pool' d', st.step (.push c data) = .ok st' ∧ st'.Abstracts pool' d' := by
  obtain ⟨db', mp', heq, hbuffer, hpool, hmoved⟩ :=
    (h.buffer c).push h.represents (h.apart c) hlen
  have hsize := (h.sound c).size_eq
  rw [(h.buffer c).size_eq] at hlt
  refine ⟨_, _, _, by rw [step, heq], h.update nodup_range' (fun n => ?_)
    (fun n => MessagePool.le_of_mem_fresh) hbuffer hpool ((h.sound c).push hne (by omega)) ?_
    hmoved⟩
  · have hle : pool.next ≤ pool.take.2.next := by
      rw [MessagePool.take]
      split <;> simp
    rw [mem_range'_1]
    change n < pool.take.2.next ↔ _
    omega
  · rw [(h.sound c).bytes_push, h.stream c, append_assoc]

theorem read {sz : ℕ} (hle : sz ≤ (st.db c).size) (hne : sz = 0 → (st.db c).size ≠ 0) :
    ∃ db mp, (st.db c).read st.mp sz = .ok ((st.unread c).take sz, db, mp) ∧
      ∃ pool' d', (st.update c mp db (st.pushed c) (st.got c ++ (st.unread c).take sz)).Abstracts
        pool' d' := by
  have hsound := h.sound c
  have hsize := hsound.size_eq
  have hlt := hsound.size_lt
  rw [(h.buffer c).size_eq] at hle hne
  rw [h.unread_eq c]
  have hread : ∃ d' pool', (d c).read pool sz = .ok ((d c).bytes.take sz, d', pool') ∧ d'.Sound ∧
      d'.bytes = (d c).bytes.drop sz ∧ pool'.next = pool.next := by
    rcases Nat.eq_zero_or_pos sz with rfl | hpos
    · have hne' : (d c).bytes ≠ [] := fun hnil => by
        rw [hnil] at hsize
        exact hne rfl hsize
      exact ⟨d c, pool, hsound.read_nothing pool hne', hsound, rfl, rfl⟩
    · obtain ⟨d', pool', hread, hsound', hbytes, -⟩ := hsound.read pool hpos (by omega)
      exact ⟨d', pool', hread, hsound', hbytes, DataBuffer.next_read hread⟩
  obtain ⟨d', pool', hread, hsound', hbytes, hnext⟩ := hread
  obtain ⟨db', mp', heq, hbuffer, hpool, hmoved⟩ :=
    (h.buffer c).read h.represents (h.apart c) hsound (by omega) hread
  refine ⟨db', mp', heq, pool', _, h.updateOld hbuffer hpool hnext hsound' ?_ hmoved⟩
  rw [hbytes, append_assoc, take_append_drop, h.stream c]

theorem step (hproper : st.Proper op) (hhold : st.Holdable op) :
    ∃ st' pool' d', st.step op = .ok st' ∧ st'.Abstracts pool' d' := by
  cases op with
  | push c data => exact h.push hproper.1 hproper.2 hhold
  | read c sz =>
    obtain ⟨db, mp, heq, pool', d', habs⟩ := h.read hproper hhold
    exact ⟨_, pool', d', by rw [Shared.step, heq], habs⟩
  | readHeader c headerSize =>
    obtain ⟨size, plen, db', mp', d', pool', heq, hread, hbuffer, hpool, hsound, hbytes, hmoved⟩ :=
      (h.buffer c).readHeader h.represents (h.apart c) (h.sound c) headerSize
    refine ⟨_, pool', _, by rw [Shared.step, heq], h.updateOld hbuffer hpool ?_ hsound ?_ hmoved⟩
    · exact DataBuffer.next_readHeader hread
    · rw [h.stream c, hbytes, append_assoc]
  | reset c =>
    obtain ⟨-, hoffset, hsize, hchained⟩ := h.buffer c
    exact ⟨_, pool, _, rfl, h.updateOld
      (show Represents st.mp (st.db c).reset (d c).reset from
        ⟨rfl, hoffset, hsize, hchained.fields _ _ _⟩) h.represents rfl ((h.sound c).setHeader 0)
      (h.stream c) (.refl _ _ _)⟩
  | clear c =>
    obtain ⟨mp', heq, hbuffer, hpool, hmoved⟩ :=
      (h.buffer c).clear h.represents (h.apart c)
    have habs : (st.update c mp' .zero [] []).Abstracts _ _ :=
      h.updateOld hbuffer hpool rfl .zero rfl hmoved
    exact ⟨_, _, _, by rw [Shared.step, heq], habs⟩

end

omit [DecidableEq Conn] in
theorem isQueue (h : st.Abstracts pool d) (c : Conn) : st.IsQueue c where
  got_prefix := ⟨_, (h.stream c).symm⟩
  size_eq := by rw [(h.buffer c).size_eq, (h.sound c).size_eq, h.unread_eq]
  offset_eq hhead := by
    have hlinked := (h.buffer c).chained.linked
    rw [hhead] at hlinked
    rw [(h.buffer c).offset_eq, (h.sound c).offset_eq (map_eq_nil_iff.mp hlinked.eq_nil)]
    rfl
  offset_lt m hhead := by
    have hchained := (h.buffer c).chained
    rcases hlist : (d c).list with _ | ⟨x, list⟩
    · rw [hlist] at hchained
      rw [hchained.nil_head.1] at hhead
      cases hhead
    · rw [hlist] at hchained
      rw [hchained.head_eq] at hhead
      cases hhead
      have hlt := (h.sound c).offset_lt x list hlist
      rw [hchained.size_eq x mem_cons_self, (h.buffer c).offset_eq]
      exact ⟨Int.natCast_nonneg _, Int.ofNat_lt.mpr hlt⟩

omit [DecidableEq Conn] in
theorem inOnePlace (h : st.Abstracts pool d) :
    st.InOnePlace (fun c => (d c).nodes) pool.freelist where
  chains c := (h.buffer c).chained.linked
  freelist := h.represents.free
  nodup := h.shares.listed_nodup
  place n hn := by
    rw [h.represents.next_eq] at hn
    rcases (h.shares.mem_iff n).mp hn with ⟨c, hc⟩ | hf
    · refine .inr ⟨h.shares.not_listed hc, c, hc, fun c' hc' => ?_⟩
      by_contra hne
      exact h.shares.disjoint c' c hne n hc' hc
    · exact .inl ⟨hf, fun c hc => h.shares.not_listed hc hf⟩

omit [DecidableEq Conn] in
/-- An empty buffer has no first message. -/
theorem read_nothing (h : st.Abstracts pool d) (hsize : (st.db c).size = 0) :
    (st.db c).read st.mp 0 = .error .nullMessage := by
  have hsound := h.sound c
  have hbytes : (d c).bytes = [] := by
    have := hsound.size_eq
    rw [← (h.buffer c).size_eq, hsize] at this
    exact length_eq_zero_iff.mp (by omega)
  have hchained := (h.buffer c).chained
  have hlist : (d c).list = [] := by
    rcases hlist : (d c).list with _ | ⟨m, list⟩
    · rfl
    · have hlt := hsound.offset_lt m list hlist
      rw [DataBuffer.bytes, hlist, flatMap_cons, drop_eq_nil_iff,
        length_append] at hbytes
      omega
  rw [hlist] at hchained
  rw [LinkedBuffer.read, if_neg (by omega), LinkedBuffer.readLoop]
  simp only [hchained.nil_head.1]

end Abstracts

theorem size_push {st st' : Shared Conn} {c : Conn} (h : st.step (.push c data) = .ok st') :
    (st'.db c).size = toInt ((st.db c).size + data.length) := by
  rw [step] at h
  split at h
  · next db mp heq =>
    cases h
    simp only [update, Function.update_self]
    rw [LinkedBuffer.push] at heq
    simp only at heq
    split at heq
    · cases heq
      rfl
    · cases heq
    · cases heq
    · cases heq
      rfl
  · cases h

/-- The other calls of the interface fail, or leave a buffer whose size is negative. -/
theorem Abstracts.not_isQueue {st st' : Shared Conn} {pool : MessagePool} {d : Conn → DataBuffer}
    (h : st.Abstracts pool d) (hproper : st.Proper op) (hhold : ¬st.Holdable op)
    (hs : st.step op = .ok st') : ∃ c, ¬st'.IsQueue c := by
  cases op with
  | push c data =>
    refine ⟨c, fun hq => ?_⟩
    have hsize := hq.size_eq
    have hold := (h.isQueue c).size_eq
    have hlt := (h.sound c).size_lt
    rw [← h.unread_eq c] at hlt
    rw [size_push hs, toInt, Int.bmod_def] at hsize
    simp only [Holdable, Proper] at hhold hproper
    omega
  | read c sz =>
    simp only [Holdable, Classical.not_imp, not_not] at hhold
    obtain ⟨rfl, hsize⟩ := hhold
    rw [Shared.step, h.read_nothing hsize] at hs
    cases hs
  | readHeader c headerSize => exact absurd trivial hhold
  | reset c => exact absurd trivial hhold
  | clear c => exact absurd trivial hhold

/-- In a run of calls that keep the sizes in range, the buffers are those of some lists. -/
theorem exists_abstracts {st : Shared Conn} (h : Transition.Reaches step
    (fun st op => st.Proper op ∧ st.Holdable op) (.init Conn) st) :
    ∃ pool d, st.Abstracts pool d := by
  refine @Transition.Reaches.invariant _ _ _ _ _ (fun st => ∃ pool d, st.Abstracts pool d) _ _ h
    ⟨_, _, abstracts_init⟩ fun st st' op ⟨pool, d, habs⟩ hok hs => ?_
  obtain ⟨st'', pool', d', hs', habs'⟩ := habs.step hok.1 hok.2
  obtain rfl : st' = st'' := Except.ok.inj (hs.symm.trans hs')
  exact ⟨pool', d', habs'⟩

end Shared

open Shared in
/-- **The buffers are queues of bytes.** In a run of calls each of which leaves less than `2 ^ 31`
bytes in its buffer and none of which reads nothing from an empty buffer: every message is in one
place, every buffer is a queue, a read returns the next bytes, and a call of the interface does not
fail and leaves queues exactly if it is again one of these. -/
theorem fifo_of_run {Conn : Type*} [DecidableEq Conn] {st : Shared Conn}
    (h : Transition.Reaches Shared.step (fun st op => st.Proper op ∧ st.Holdable op)
      (.init Conn) st) :
    (∃ nodes free, st.InOnePlace nodes free) ∧ (∀ c, st.IsQueue c) ∧
    (∀ c (sz : ℕ), sz ≤ (st.db c).size → (sz = 0 → (st.db c).size ≠ 0) →
      ∃ db mp, (st.db c).read st.mp sz = .ok ((st.unread c).take sz, db, mp)) ∧
    ∀ op, st.Proper op →
      ((∃ st', st.step op = .ok st' ∧ ∀ c, st'.IsQueue c) ↔ st.Holdable op) := by
  obtain ⟨pool, d, habs⟩ := exists_abstracts h
  refine ⟨⟨_, _, habs.inOnePlace⟩, habs.isQueue, fun c sz hle hne => ?_, fun op hproper =>
    ⟨fun ⟨st', hs, hq⟩ => ?_, fun hhold => ?_⟩⟩
  · obtain ⟨db, mp, heq, -⟩ := habs.read hle hne
    exact ⟨db, mp, heq⟩
  · by_contra hhold
    obtain ⟨c, hc⟩ := habs.not_isQueue hproper hhold hs
    exact hc (hq c)
  · obtain ⟨st', pool', d', hs, habs'⟩ := habs.step hproper hhold
    exact ⟨st', hs, habs'.isQueue⟩

open Shared in
/-- Two bytes are pushed and read one after the other. -/
theorem fifo_of_run_two_bytes : ∃ st : Shared Unit,
    Transition.Reaches Shared.step (fun st op => st.Proper op ∧ st.Holdable op) (.init Unit) st ∧
      st.got () = [1] ∧ st.unread () = [2] ∧ st.IsQueue () := by
  let l : List (BufferOp Unit) := [.push () [1, 2], .read () 1]
  obtain ⟨st, hst, hgot, hpushed⟩ : ∃ st, Transition.exec Shared.step (.init Unit) l = .ok st ∧
      st.got () = [1] ∧ st.pushed () = [1, 2] := ⟨_, rfl, rfl, rfl⟩
  have hperm : Transition.Permitted Shared.step (fun st op => st.Proper op ∧ st.Holdable op)
      (.init Unit) l := by
    refine .cons ⟨⟨List.cons_ne_nil _ _, ?_⟩, ?_⟩ rfl (.cons ⟨?_, fun h => nomatch h⟩ rfl trivial)
    · decide
    · simp only [Holdable]
      decide
    · exact Int.le_of_lt (by decide)
  have hrun := hperm.reaches hst
  exact ⟨st, hrun, hgot, by rw [unread, hgot, hpushed]; rfl, (fifo_of_run hrun).2.1 ()⟩

open Shared in
/-- Two chunks of `2 ^ 30` bytes make the size of a buffer negative; and to read nothing from an
empty buffer is to use a `NULL` pointer. -/
theorem size_negative : (∃ st : Shared Unit,
    Transition.Reaches Shared.step (fun st op => st.Proper op) (.init Unit) st ∧
      (st.db ()).size = -2 ^ 31 ∧ ¬st.IsQueue ()) ∧
    (Shared.init Unit).Proper (.read () 0) ∧
      (Shared.init Unit).step (.read () 0) = .error .nullMessage := by
  have habs : (Shared.init Unit).Abstracts ⟨[], 0⟩ fun _ => .zero := abstracts_init
  refine ⟨?_, Int.le_refl 0, by rw [step, habs.read_nothing rfl]⟩
  let data : List UInt8 := List.replicate (2 ^ 30) 0
  have hlen : data.length = 2 ^ 30 := List.length_replicate
  have hne : data ≠ [] := fun h => by
    rw [h] at hlen
    cases hlen
  obtain ⟨st₁, pool₁, d₁, hs₁, habs₁⟩ := habs.push (c := ()) hne (by omega) (by
    rw [hlen]
    decide)
  have hsize₁ : (st₁.db ()).size = 2 ^ 30 := by
    rw [size_push hs₁, hlen]
    decide
  obtain ⟨db, mp, heq, -⟩ := (habs₁.buffer ()).push habs₁.represents (habs₁.apart ())
    (show data.length < 2 ^ 31 by omega)
  have hs₂ : st₁.step (.push () data) = .ok (st₁.update () mp db (st₁.pushed () ++ data)
      (st₁.got ())) := by
    rw [step, heq]
  have hsize₂ := size_push hs₂
  rw [hsize₁, hlen] at hsize₂
  have hproper : ∀ st : Shared Unit, st.Proper (.push () data) := fun _ => ⟨hne, by omega⟩
  refine ⟨_, (Transition.Reaches.single (hproper _) hs₁).tail (hproper _) hs₂, hsize₂, fun hq => ?_⟩
  have := hq.size_eq
  rw [hsize₂] at this
  have hneg : toInt (2 ^ 30 + (2 ^ 30 : ℕ)) = -2 ^ 31 := by decide
  omega

end Mtask.GateService
