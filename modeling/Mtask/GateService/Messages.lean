import Mathlib.Data.List.Perm.Subperm
import Mtask.GateService.DataBuffer
import Mtask.Lib.IntrusiveQueue
import Mtask.Lib.Transition

/-!
# The messages of the buffers

The chunks of a buffer are messages that are linked by their pointers, with a head and a tail in
the buffer. The messages that are in no buffer are linked as well, in the list of the pool, which
takes them from blocks of `MESSAGEPOOL` messages. Here the functions of `databuffer.h` work on these
pointers, and are compared with the ones on lists of chunks.
-/

namespace Mtask.GateService

open IntrusiveQueue
open List

/-- `struct message` -/
structure Cell where
  buffer : Option (List UInt8)
  size : ℤ
  next : Option ℕ
  deriving DecidableEq, Repr

/-- `struct messagepool`, with the messages of its blocks; they are numbered as they are
allocated, and `next` is the number of the first one of the next block. -/
structure CellPool where
  cell : ℕ → Cell
  freelist : Option ℕ
  next : ℕ

/-- `struct databuffer` -/
structure LinkedBuffer where
  header : ℤ
  offset : ℤ
  size : ℤ
  head : Option ℕ
  tail : Option ℕ
  deriving DecidableEq, Repr

/-- How a function on the buffers can end the process. -/
inductive LinkFault
  /-- `assert(db->size >= sz)` -/
  | sizeBelow
  /-- `assert(db->tail == m)` -/
  | tailElsewhere
  /-- `assert(db->tail == NULL)` -/
  | tailLeft
  /-- a pointer that is used is `NULL` -/
  | nullMessage
  | outsideChunk
  | roundsExhausted
  deriving DecidableEq, Repr

/-- `memcpy(buffer, current->buffer + offset, sz)` -/
def Cell.copy (m : Cell) (offset sz : ℤ) : Except LinkFault (List UInt8) :=
  match m.buffer with
  | none => .error .nullMessage
  | some bs =>
    if 0 ≤ offset ∧ 0 ≤ sz ∧ offset + sz ≤ bs.length then
      .ok ((bs.drop offset.toNat).take sz.toNat)
    else .error .outsideChunk

namespace CellPool

/-- A pool that was cleared with `memset`. -/
def zero : CellPool := ⟨fun _ => ⟨none, 0, none⟩, none, 0⟩

def nextOf (mp : CellPool) (n : ℕ) : Option ℕ := (mp.cell n).next

/-- A message is written. -/
def set (mp : CellPool) (n : ℕ) (m : Cell) : CellPool :=
  { mp with cell := Function.update mp.cell n m }

/-- The message that `databuffer_push` uses, from the list or from a new block. -/
def take (mp : CellPool) : ℕ × CellPool :=
  match mp.freelist with
  | some m => (m, { mp with freelist := mp.nextOf m })
  | none => (mp.next,
      { cell := fun n =>
          if mp.next < n ∧ n < mp.next + messagePool then
            ⟨none, 0, if n + 1 < mp.next + messagePool then some (n + 1) else none⟩
          else mp.cell n
        freelist := some (mp.next + 1)
        next := mp.next + messagePool })

end CellPool

namespace LinkedBuffer

/-- A buffer that was cleared with `memset`. -/
def zero : LinkedBuffer := ⟨0, 0, 0, none, none⟩

/-- `_return_message` -/
def returnMessage (db : LinkedBuffer) (mp : CellPool) :
    Except LinkFault (LinkedBuffer × CellPool) :=
  match db.head with
  | none => .error .nullMessage
  | some m =>
    let freed := { mp.set m ⟨none, 0, mp.freelist⟩ with freelist := some m }
    match mp.nextOf m with
    | none =>
      if db.tail = some m then .ok ({ db with head := none, tail := none }, freed)
      else .error .tailElsewhere
    | some n => .ok ({ db with head := some n }, freed)

/-- The loop of `databuffer_read`. -/
def readLoop : ℕ → LinkedBuffer → CellPool → ℤ →
    Except LinkFault (List UInt8 × LinkedBuffer × CellPool)
  | 0, _, _, _ => .error .roundsExhausted
  | fuel + 1, db, mp, sz =>
    match db.head with
    | none => .error .nullMessage
    | some current => do
      let bsz := toInt ((mp.cell current).size - db.offset)
      if sz < bsz then
        let bytes ← (mp.cell current).copy db.offset sz
        return (bytes, { db with offset := toInt (db.offset + sz) }, mp)
      else if bsz = sz then
        let bytes ← (mp.cell current).copy db.offset sz
        let (db, mp) ← returnMessage { db with offset := 0 } mp
        return (bytes, db, mp)
      else
        let bytes ← (mp.cell current).copy db.offset bsz
        let (db, mp) ← returnMessage db mp
        let (rest, db, mp) ← readLoop fuel { db with offset := 0 } mp (toInt (sz - bsz))
        return (bytes ++ rest, db, mp)

/-- `databuffer_read`. Every round of the loop but the last gives a message back. -/
def read (db : LinkedBuffer) (mp : CellPool) (sz : ℕ) :
    Except LinkFault (List UInt8 × LinkedBuffer × CellPool) :=
  if db.size < sz then .error .sizeBelow
  else readLoop (mp.next + 1) { db with size := toInt (db.size - sz) } mp sz

/-- `databuffer_push` -/
def push (db : LinkedBuffer) (mp : CellPool) (data : List UInt8) :
    Except LinkFault (LinkedBuffer × CellPool) :=
  let (m, mp) := mp.take
  let mp := mp.set m ⟨some data, data.length, none⟩
  let db := { db with size := toInt (db.size + data.length) }
  match db.head, db.tail with
  | none, none => .ok ({ db with head := some m, tail := some m }, mp)
  | none, some _ => .error .tailLeft
  | some _, none => .error .nullMessage
  | some _, some t => .ok ({ db with tail := some m }, mp.set t { mp.cell t with next := some m })

/-- The end of `databuffer_readheader`. -/
def frameSize (db : LinkedBuffer) : ℤ :=
  if db.size < db.header then -1 else db.header

/-- `databuffer_readheader`, with the bytes that it has taken out of the buffer. -/
def readHeader (db : LinkedBuffer) (mp : CellPool) (headerSize : HeaderSize) :
    Except LinkFault (ℤ × List UInt8 × LinkedBuffer × CellPool) :=
  if db.header = 0 then
    if db.size < headerSize.1 then .ok (-1, [], db, mp)
    else do
      let (plen, db, mp) ← db.read mp headerSize.1
      let db := { db with header := DataBuffer.headerOf plen }
      return (db.frameSize, plen, db, mp)
  else .ok (db.frameSize, [], db, mp)

/-- `databuffer_reset` -/
def reset (db : LinkedBuffer) : LinkedBuffer := { db with header := 0 }

/-- The loop of `databuffer_clear`. -/
def clearLoop : ℕ → LinkedBuffer → CellPool → Except LinkFault CellPool
  | 0, _, _ => .error .roundsExhausted
  | fuel + 1, db, mp =>
    match db.head with
    | none => .ok mp
    | some _ => do
      let (db, mp) ← db.returnMessage mp
      clearLoop fuel db mp

/-- `databuffer_clear` -/
def clear (db : LinkedBuffer) (mp : CellPool) : Except LinkFault (LinkedBuffer × CellPool) := do
  let mp ← clearLoop (mp.next + 1) db mp
  return (zero, mp)

end LinkedBuffer

/-! ### Messages and chunks -/

/-- The numbers of the messages of a buffer. -/
def DataBuffer.nodes (d : DataBuffer) : List ℕ := d.list.map Message.node

/-- The messages are the chunks, and are linked. -/
structure Chained (mp : CellPool) (db : LinkedBuffer) (list : List Message) : Prop where
  linked : Linked mp.nextOf db.head db.tail (list.map Message.node)
  buffer_eq : ∀ m ∈ list, (mp.cell m.node).buffer = some m.buffer
  size_eq : ∀ m ∈ list, (mp.cell m.node).size = m.buffer.length
  length_lt : ∀ m ∈ list, m.buffer.length < 2 ^ 31

/-- A linked buffer and a list of chunks are the same. -/
structure Represents (mp : CellPool) (db : LinkedBuffer) (d : DataBuffer) : Prop where
  header_eq : db.header = d.header
  offset_eq : db.offset = d.offset
  size_eq : db.size = d.size
  chained : Chained mp db d.list

/-- The messages of the list of the pool. -/
structure PoolRepresents (mp : CellPool) (pool : MessagePool) : Prop where
  free : Seg mp.nextOf mp.freelist pool.freelist none
  next_eq : mp.next = pool.next

variable {sz : ℕ}

section Chained

variable {mp mp' : CellPool} {db : LinkedBuffer} {list : List Message} {m : Message}

theorem Chained.congr (h : Chained mp db list)
    (heq : ∀ n ∈ list.map Message.node, mp'.cell n = mp.cell n) : Chained mp' db list where
  linked := h.linked.congr fun n hn => by rw [CellPool.nextOf, heq n hn, CellPool.nextOf]
  buffer_eq m hm := by rw [heq _ (mem_map_of_mem hm), h.buffer_eq m hm]
  size_eq m hm := by rw [heq _ (mem_map_of_mem hm), h.size_eq m hm]
  length_lt := h.length_lt

theorem Chained.head_eq (h : Chained mp db (m :: list)) : db.head = some m.node :=
  (Seg.cons_iff.mp h.linked.seg).1

theorem Chained.nil_head (h : Chained mp db []) : db.head = none ∧ db.tail = none :=
  ⟨Seg.nil_iff.mp h.linked.seg, h.linked.tail_eq⟩

/-- The pointers and the counters of the buffer are not part of its chunks. -/
theorem Chained.fields (h : Chained mp db list) (header offset size : ℤ) :
    Chained mp { db with header, offset, size } list :=
  ⟨h.linked, h.buffer_eq, h.size_eq, h.length_lt⟩

theorem Chained.copy_eq (h : Chained mp db (m :: list)) {offset : ℕ}
    (hle : offset + sz ≤ m.buffer.length) :
    (mp.cell m.node).copy offset sz = .ok ((m.buffer.drop offset).take sz) := by
  rw [Cell.copy, h.buffer_eq m mem_cons_self]
  dsimp only
  rw [if_pos ⟨by omega, by omega, by omega⟩]
  simp

end Chained

/-- What a call does to the messages: those of the buffer and of the pool are the same as before,
but for the ones of a new block, and no other message is written. -/
structure Moved (mp mp' : CellPool) (nodes nodes' free free' fresh : List ℕ) : Prop where
  perm : (nodes' ++ free').Perm (nodes ++ free ++ fresh)
  kept : ∀ n, n ∉ nodes → n ∉ free → n ∉ fresh → mp'.cell n = mp.cell n

theorem Moved.refl (mp : CellPool) (nodes free : List ℕ) : Moved mp mp nodes nodes free free [] :=
  ⟨by rw [append_nil], fun _ _ _ _ => rfl⟩

variable {free nodes : List ℕ}

theorem Moved.trans {mp mp' mp'' : CellPool} {nodes' nodes'' free' free'' : List ℕ}
    (h : Moved mp mp' nodes nodes' free free' [])
    (h' : Moved mp' mp'' nodes' nodes'' free' free'' []) :
    Moved mp mp'' nodes nodes'' free free'' [] := by
  have hperm := h.perm
  have hperm' := h'.perm
  rw [append_nil] at hperm hperm'
  refine ⟨by rw [append_nil]; exact hperm'.trans hperm, fun n hn hf hnil => ?_⟩
  have hmem : n ∉ nodes' ++ free' := fun hn' => by
    rcases mem_append.mp (hperm.mem_iff.mp hn') with h | h
    · exact hn h
    · exact hf h
  rw [mem_append, not_or] at hmem
  rw [h'.kept n hmem.1 hmem.2 hnil, h.kept n hn hf hnil]

theorem Chained.returnMessage {mp : CellPool} {db : LinkedBuffer} {m : Message}
    {list : List Message} (h : Chained mp db (m :: list))
    (hfree : Seg mp.nextOf mp.freelist free none) (hmem : m.node ∉ free) :
    ∃ db' mp', db.returnMessage mp = .ok (db', mp') ∧ Chained mp' db' list ∧
      Seg mp'.nextOf mp'.freelist (m.node :: free) none ∧ mp'.next = mp.next ∧
      db'.header = db.header ∧ db'.offset = db.offset ∧ db'.size = db.size ∧
      Moved mp mp' ((m :: list).map Message.node) (list.map Message.node) free (m.node :: free) [] := by
  have hlinked := h.linked
  rw [h.head_eq] at hlinked
  obtain ⟨l', hl', htail, hpop⟩ := hlinked.pop
  obtain rfl : list.map Message.node = l' := (List.cons.inj hl').2
  have hnot : m.node ∉ list.map Message.node := (nodup_cons.mp h.linked.nodup).1
  let mp' : CellPool := { mp.set m.node ⟨none, 0, mp.freelist⟩ with freelist := some m.node }
  have hcell : ∀ n, n ≠ m.node → mp'.cell n = mp.cell n := fun n hn => Function.update_of_ne hn ..
  have hself : mp'.nextOf m.node = mp.freelist := by
    simp [mp', CellPool.nextOf, CellPool.set]
  have hchunk : ∀ x ∈ list, mp'.cell x.node = mp.cell x.node := fun x hx =>
    hcell _ (ne_of_mem_of_not_mem (mem_map_of_mem hx) hnot)
  have hnext : Linked mp'.nextOf (mp.nextOf m.node) (if mp.nextOf m.node = none then none
      else db.tail) (list.map Message.node) :=
    hpop.congr fun n hn => by
      have hne := ne_of_mem_of_not_mem hn hnot
      rw [Function.update_of_ne hne, CellPool.nextOf, hcell n hne, CellPool.nextOf]
  have hseg : Seg mp'.nextOf (some m.node) (m.node :: free) none := by
    refine .cons ?_
    rw [hself]
    exact hfree.congr fun n hn => by
      rw [CellPool.nextOf, hcell n (ne_of_mem_of_not_mem hn hmem), CellPool.nextOf]
  have hmoved : Moved mp mp' ((m :: list).map Message.node) (list.map Message.node) free
      (m.node :: free) [] := by
    refine ⟨?_, fun n hn _ _ => hcell n fun heq => hn (heq ▸ mem_cons_self)⟩
    rw [append_nil]
    exact perm_middle
  have hchained (db' : LinkedBuffer) (hlink : Linked mp'.nextOf db'.head db'.tail
      (list.map Message.node)) : Chained mp' db' list :=
    ⟨hlink, fun x hx => by rw [hchunk x hx, h.buffer_eq x (mem_cons_of_mem _ hx)],
      fun x hx => by rw [hchunk x hx, h.size_eq x (mem_cons_of_mem _ hx)],
      fun x hx => h.length_lt x (mem_cons_of_mem _ hx)⟩
  rw [LinkedBuffer.returnMessage, h.head_eq]
  dsimp only
  cases hn : mp.nextOf m.node with
  | none =>
    rw [hn, if_pos rfl] at hnext
    rw [if_pos (htail hn)]
    exact ⟨_, mp', rfl, hchained _ hnext, hseg, rfl, rfl, rfl, rfl, hmoved⟩
  | some n =>
    rw [hn, if_neg (by simp)] at hnext
    exact ⟨_, mp', rfl, hchained _ hnext, hseg, rfl, rfl, rfl, rfl, hmoved⟩

theorem toInt_sub {a b : ℕ} (hle : b ≤ a) (hlt : a - b < 2 ^ 31) :
    toInt ((a : ℤ) - b) = ((a - b : ℕ) : ℤ) := by
  rw [← Int.ofNat_sub hle, DataBuffer.toInt_of_lt hlt]

variable {bytes : List UInt8} {fuel : ℕ}

/-- **The loop of `databuffer_read`** reads what the loop over the list reads. -/
theorem Chained.readLoop {mp : CellPool} {db : LinkedBuffer} {list list' : List Message}
    {offset offset' : ℕ} (h : Chained mp db list) (hfree : Seg mp.nextOf mp.freelist free none)
    (hdisj : ∀ n ∈ list.map Message.node, n ∉ free) (hfuel : list.length < fuel)
    (hoffset : db.offset = offset) (hle : ∀ m rest, list = m :: rest → offset ≤ m.buffer.length)
    (hsz : sz < 2 ^ 31)
    (hread : DataBuffer.readLoop list offset sz = .ok (bytes, list', offset', nodes)) :
    ∃ db' mp', LinkedBuffer.readLoop fuel db mp sz = .ok (bytes, db', mp') ∧
      Chained mp' db' list' ∧ Seg mp'.nextOf mp'.freelist (nodes.reverse ++ free) none ∧
      mp'.next = mp.next ∧ db'.header = db.header ∧ db'.offset = offset' ∧ db'.size = db.size ∧
      Moved mp mp' (list.map Message.node) (list'.map Message.node) free (nodes.reverse ++ free)
        [] := by
  induction list generalizing fuel mp db free nodes offset sz bytes with
  | nil => cases hread
  | cons m list ih =>
    obtain ⟨fuel, rfl⟩ : ∃ f, fuel = f + 1 := Nat.exists_eq_succ_of_ne_zero (by omega)
    have hlt := h.length_lt m mem_cons_self
    have hoff := hle m list rfl
    have hbsz : toInt ((mp.cell m.node).size - db.offset) =
        ((m.buffer.length - offset : ℕ) : ℤ) := by
      rw [h.size_eq m mem_cons_self, hoffset, toInt_sub hoff (by omega)]
    have hnot : m.node ∉ free := hdisj _ mem_cons_self
    obtain ⟨header, off, size, head, tail⟩ := db
    obtain rfl : head = some m.node := h.head_eq
    obtain rfl : off = offset := hoffset
    rw [LinkedBuffer.readLoop]
    simp only [hbsz, Int.ofNat_lt, Int.ofNat_inj]
    rw [DataBuffer.readLoop] at hread
    split_ifs at hread ⊢ with hshort hexact
    · -- the chunk has more than is read
      cases hread
      rw [h.copy_eq (by omega), ← Int.natCast_add, DataBuffer.toInt_of_lt (by omega)]
      exact ⟨_, mp, rfl, h.fields _ _ _, hfree, rfl, rfl, rfl, rfl, .refl _ _ _⟩
    · -- the chunk ends with what is read
      cases hread
      obtain ⟨db', mp', hret, hchain, hseg, hnext, hheader, hoff', hsize, hmoved⟩ :=
        (h.fields header 0 size).returnMessage hfree hnot
      refine ⟨db', mp', ?_, hchain, hseg, hnext, hheader, hoff', hsize, hmoved⟩
      dsimp only at hret
      rw [h.copy_eq (by omega)]
      simp only [hret]
      rfl
    · -- the rest is read from the next chunks
      split at hread
      · next bytes₁ list₁ offset₁ nodes₁ hrest =>
        cases hread
        obtain ⟨db₁, mp₁, hret, hchain, hseg, hnext, hheader, -, hsize, hmoved⟩ :=
          h.returnMessage hfree hnot
        have hdisj₁ : ∀ n ∈ list.map Message.node, n ∉ m.node :: free := fun n hn hmem => by
          rcases mem_cons.mp hmem with rfl | hmem
          · exact (nodup_cons.mp h.linked.nodup).1 hn
          · exact hdisj n (mem_cons_of_mem _ hn) hmem
        obtain ⟨db₂, mp₂, hloop, hchain₂, hseg₂, hnext₂, hheader₂, hoff₂, hsize₂, hmoved₂⟩ :=
          ih (hchain.fields db₁.header 0 db₁.size) hseg hdisj₁
            (show list.length < fuel by simpa using hfuel) rfl (fun _ _ _ => Nat.zero_le _) (by omega) hrest
        refine ⟨db₂, mp₂, ?_, hchain₂, ?_, hnext₂.trans hnext, hheader₂.trans hheader, hoff₂,
          hsize₂.trans hsize, ?_⟩
        · rw [h.copy_eq (by omega), toInt_sub (by omega) (by omega),
            take_of_length_le (by simp)]
          simp only [bind, Except.bind, pure, Except.pure, hret]
          rw [hloop]
        · simpa using hseg₂
        · have := hmoved.trans hmoved₂
          simpa using this
      · cases hread

theorem Chained.clearLoop {mp : CellPool} {db : LinkedBuffer} {list : List Message}
    (h : Chained mp db list) (hfree : Seg mp.nextOf mp.freelist free none)
    (hdisj : ∀ n ∈ list.map Message.node, n ∉ free) (hfuel : list.length < fuel) :
    ∃ mp', LinkedBuffer.clearLoop fuel db mp = .ok mp' ∧
      Seg mp'.nextOf mp'.freelist ((list.map Message.node).reverse ++ free) none ∧
      mp'.next = mp.next ∧
      Moved mp mp' (list.map Message.node) [] free ((list.map Message.node).reverse ++ free) [] := by
  induction list generalizing fuel mp db free with
  | nil =>
    obtain ⟨fuel, rfl⟩ : ∃ f, fuel = f + 1 := Nat.exists_eq_succ_of_ne_zero (by omega)
    rw [LinkedBuffer.clearLoop, h.nil_head.1]
    exact ⟨mp, rfl, hfree, rfl, .refl _ _ _⟩
  | cons m list ih =>
    obtain ⟨fuel, rfl⟩ : ∃ f, fuel = f + 1 := Nat.exists_eq_succ_of_ne_zero (by omega)
    obtain ⟨db₁, mp₁, hret, hchain, hseg, hnext, -, -, -, hmoved⟩ :=
      h.returnMessage hfree (hdisj _ mem_cons_self)
    have hdisj₁ : ∀ n ∈ list.map Message.node, n ∉ m.node :: free := fun n hn hmem => by
      rcases mem_cons.mp hmem with rfl | hmem
      · exact (nodup_cons.mp h.linked.nodup).1 hn
      · exact hdisj n (mem_cons_of_mem _ hn) hmem
    obtain ⟨mp₂, hloop, hseg₂, hnext₂, hmoved₂⟩ :=
      ih hchain hseg hdisj₁ (show list.length < fuel by simpa using hfuel)
    refine ⟨mp₂, ?_, by simpa using hseg₂, hnext₂.trans hnext, ?_⟩
    · rw [LinkedBuffer.clearLoop, h.head_eq]
      simp only [bind, Except.bind, hret]
      rw [hloop]
    · have := hmoved.trans hmoved₂
      simpa using this

/-! ### The message for a new chunk -/

section Take

variable {mp : CellPool} {pool : MessagePool}

/-- The numbers of the messages of a new block, if there is one. -/
def MessagePool.fresh (pool : MessagePool) : List ℕ :=
  List.range' pool.next (pool.take.2.next - pool.next)

theorem MessagePool.perm_take (pool : MessagePool) :
    (pool.take.1 :: pool.take.2.freelist).Perm (pool.freelist ++ pool.fresh) := by
  rw [fresh, take]
  cases pool.freelist with
  | cons n free => simp
  | nil =>
    simp only [Nat.add_sub_cancel_left, nil_append]
    rw [← range'_eq_map_range, messagePool]
    exact .refl _

theorem PoolRepresents.take (h : PoolRepresents mp pool) : mp.take.1 = pool.take.1 ∧
    PoolRepresents mp.take.2 pool.take.2 ∧
    ∀ n, n ∉ pool.fresh → mp.take.2.cell n = mp.cell n := by
  obtain ⟨hfree, hnext⟩ := h
  rw [CellPool.take, MessagePool.fresh, MessagePool.take]
  cases hl : pool.freelist with
  | cons m free =>
    rw [hl] at hfree
    obtain ⟨hhead, hrest⟩ := Seg.cons_iff.mp hfree
    rw [hhead]
    exact ⟨rfl, ⟨hrest, hnext⟩, fun _ _ => rfl⟩
  | nil =>
    rw [hl] at hfree
    rw [Seg.nil_iff.mp hfree]
    refine ⟨hnext, ⟨?_, by rw [← hnext]⟩, fun n hn => ?_⟩
    · rw [← range'_eq_map_range, ← hnext]
      refine Seg.range' (by decide) fun i hi => ?_
      have hsize : messagePool = 1023 := rfl
      rw [CellPool.nextOf]
      dsimp only
      rw [if_pos (by omega)]
      dsimp only
      split_ifs <;> first | rfl | omega
    · simp only [Nat.add_sub_cancel_left, mem_range'_1, not_and, ← hnext] at hn
      exact if_neg fun ⟨hlt, hgt⟩ => hn (Nat.le_of_lt hlt) hgt

end Take

theorem MessagePool.le_of_mem_fresh {pool : MessagePool} {n : ℕ} (h : n ∈ pool.fresh) :
    pool.next ≤ n := by
  rw [MessagePool.fresh, mem_range'_1] at h
  exact h.1

namespace CellPool

theorem cell_set (mp : CellPool) (n k : ℕ) (m : Cell) :
    (mp.set n m).cell k = if k = n then m else mp.cell k :=
  Function.update_apply ..

theorem nextOf_set (mp : CellPool) (n : ℕ) (m : Cell) :
    (mp.set n m).nextOf = Function.update mp.nextOf n m.next := by
  funext k
  rw [nextOf, cell_set, Function.update_apply]
  split_ifs <;> rfl

/-- The pointer of a message is written. -/
def link (mp : CellPool) (t : ℕ) (p : Option ℕ) : CellPool :=
  mp.set t { mp.cell t with next := p }

theorem buffer_link (mp : CellPool) (t n : ℕ) (p : Option ℕ) :
    ((mp.link t p).cell n).buffer = (mp.cell n).buffer := by
  rw [link, cell_set]
  split_ifs with h <;> simp [h]

theorem size_link (mp : CellPool) (t n : ℕ) (p : Option ℕ) :
    ((mp.link t p).cell n).size = (mp.cell n).size := by
  rw [link, cell_set]
  split_ifs with h <;> simp [h]

end CellPool

/-- What is known of the messages of one buffer and of the pool. -/
structure Apart (nodes free : List ℕ) (next : ℕ) : Prop where
  nodup : (nodes ++ free).Nodup
  lt : ∀ n ∈ nodes ++ free, n < next

theorem Apart.not_mem {next n : ℕ} (h : Apart nodes free next) (hn : n ∈ nodes) : n ∉ free :=
  fun hf => disjoint_of_nodup_append h.nodup hn hf

/-- The message that is taken is in no buffer, and is not in the pool any more. -/
theorem Apart.take {pool : MessagePool} (h : Apart nodes pool.freelist pool.next) :
    (nodes ++ (pool.take.1 :: pool.take.2.freelist)).Nodup := by
  refine (List.Perm.nodup_iff (pool.perm_take.append_left nodes)).mpr ?_
  rw [← append_assoc]
  refine nodup_append.mpr ⟨h.nodup, nodup_range', fun a ha b hb heq => ?_⟩
  have hlt := h.lt a ha
  have hle := MessagePool.le_of_mem_fresh hb
  omega

variable {d : DataBuffer}

/-- A chunk that is pushed becomes the last message. -/
theorem Represents.push {mp : CellPool} {pool : MessagePool} {db : LinkedBuffer}
    (h : Represents mp db d) (hp : PoolRepresents mp pool)
    (hapart : Apart d.nodes pool.freelist pool.next) {data : List UInt8}
    (hdata : data.length < 2 ^ 31) :
    ∃ db' mp', db.push mp data = .ok (db', mp') ∧ Represents mp' db' (d.push pool data).1 ∧
      PoolRepresents mp' (d.push pool data).2 ∧
      Moved mp mp' d.nodes (d.push pool data).1.nodes pool.freelist
        (d.push pool data).2.freelist pool.fresh := by
  obtain ⟨htake, hp', hcell⟩ := hp.take
  have hnodup := hapart.take
  have hm : pool.take.1 ∉ d.nodes := fun hn =>
    disjoint_of_nodup_append hnodup hn mem_cons_self
  have hmfree : pool.take.1 ∉ pool.take.2.freelist := by
    have := (nodup_append.mp hnodup).2.1
    exact (nodup_cons.mp this).1
  let mp₂ := mp.take.2.set pool.take.1 ⟨some data, data.length, none⟩
  have hold : ∀ n, n ≠ pool.take.1 → n ∉ pool.fresh → mp₂.cell n = mp.cell n := fun n hn hf => by
    rw [← hcell n hf]
    exact Function.update_of_ne hn ..
  have hfresh : ∀ n ∈ d.nodes, n ∉ pool.fresh := fun n hn hf => by
    have hlt := hapart.lt n (mem_append_left _ hn)
    have hle := MessagePool.le_of_mem_fresh hf
    omega
  have hchained : Chained mp₂ db d.list := h.chained.congr fun n hn =>
    hold n (ne_of_mem_of_not_mem hn hm) (hfresh n hn)
  have hnew : mp₂.cell pool.take.1 = ⟨some data, data.length, none⟩ := Function.update_self ..
  have hnewnext : mp₂.nextOf pool.take.1 = none := by rw [CellPool.nextOf, hnew]
  have hfree₂ : Seg mp₂.nextOf mp₂.freelist pool.take.2.freelist none := by
    refine hp'.free.congr fun n hn => ?_
    rw [CellPool.nextOf_set]
    exact Function.update_of_ne (ne_of_mem_of_not_mem hn hmfree) ..
  have hmem : pool.take.1 ∈ pool.freelist ++ pool.fresh :=
    pool.perm_take.subset mem_cons_self
  have hne : ∀ n, n ∉ pool.freelist → n ∉ pool.fresh → n ≠ pool.take.1 := by
    rintro n hn hf rfl
    rcases mem_append.mp hmem with h | h
    · exact hn h
    · exact hf h
  have hnodes : (d.push pool data).1.nodes = d.nodes ++ [pool.take.1] := by
    rw [DataBuffer.nodes, DataBuffer.push, map_append]
    rfl
  have hsize : toInt (db.size + data.length) = toInt (d.size + data.length) := by rw [h.size_eq]
  have hchunk : ∀ m' ∈ (d.push pool data).1.list, (mp₂.cell m'.node).buffer = some m'.buffer ∧
      (mp₂.cell m'.node).size = m'.buffer.length ∧ m'.buffer.length < 2 ^ 31 := fun m' hm' => by
    rcases mem_append.mp hm' with hm' | hm'
    · exact ⟨hchained.buffer_eq m' hm', hchained.size_eq m' hm', hchained.length_lt m' hm'⟩
    · rw [mem_singleton.mp hm', hnew]
      exact ⟨rfl, rfl, hdata⟩
  have hperm : ((d.push pool data).1.nodes ++ (d.push pool data).2.freelist).Perm
      (d.nodes ++ pool.freelist ++ pool.fresh) := by
    rw [hnodes, append_assoc, append_assoc]
    exact pool.perm_take.append_left d.nodes
  rw [LinkedBuffer.push]
  simp only [htake]
  rcases htail : db.tail with _ | t
  · -- the buffer was empty
    have hlinked := hchained.linked
    rw [htail] at hlinked
    obtain ⟨hnil, hone⟩ := hlinked.push_first hnewnext
    rw [map_eq_nil_iff] at hnil
    have hhead : db.head = none := by
      have := h.chained
      rw [hnil] at this
      exact this.nil_head.1
    rw [hhead]
    refine ⟨_, mp₂, rfl, ⟨h.header_eq, h.offset_eq, hsize, ?_⟩, ⟨hfree₂, hp'.next_eq⟩, hperm,
      fun n _ hf hb => hold n (hne n hf hb) hb⟩
    refine ⟨?_, fun m' hm' => (hchunk m' hm').1, fun m' hm' => (hchunk m' hm').2.1,
      fun m' hm' => (hchunk m' hm').2.2⟩
    change Linked _ _ _ (d.push pool data).1.nodes
    rw [hnodes, DataBuffer.nodes, hnil]
    exact hone
  · -- the message is linked behind the last one
    have hlinked := hchained.linked
    rw [htail] at hlinked
    have hlast := hlinked.push_last hm hnewnext
    have ht : t ∈ d.nodes := mem_of_getLast? (htail ▸ h.chained.linked.tail_eq).symm
    obtain ⟨x, hx⟩ : ∃ x, db.head = some x := by
      cases hhead : db.head with
      | some x => exact ⟨x, rfl⟩
      | none =>
        rw [hhead] at hlinked
        rw [DataBuffer.nodes, hlinked.eq_nil] at ht
        cases ht
    rw [hx] at hlast ⊢
    refine ⟨_, mp₂.link t (some pool.take.1), rfl, ⟨h.header_eq, h.offset_eq, hsize, ⟨?_,
      fun m' hm' => ?_, fun m' hm' => ?_, fun m' hm' => (hchunk m' hm').2.2⟩⟩,
      ⟨?_, hp'.next_eq⟩, hperm, fun n hn hf hb => ?_⟩
    · rw [CellPool.link, CellPool.nextOf_set]
      change Linked _ _ _ (d.push pool data).1.nodes
      rw [hnodes]
      exact hlast
    · rw [CellPool.buffer_link, (hchunk m' hm').1]
    · rw [CellPool.size_link, (hchunk m' hm').2.1]
    · refine hfree₂.congr fun n hn => ?_
      have hnt : n ≠ t := by
        rintro rfl
        exact disjoint_of_nodup_append hnodup ht (mem_cons_of_mem _ hn)
      rw [CellPool.link, CellPool.nextOf_set]
      exact Function.update_of_ne hnt ..
    · rw [CellPool.link, CellPool.cell_set, if_neg (ne_of_mem_of_not_mem ht hn).symm]
      exact hold n (hne n hf hb) hb

/-- There are fewer chunks than rounds in the loops over them. -/
theorem Represents.length_lt {mp : CellPool} {pool : MessagePool} {db : LinkedBuffer}
    (h : Represents mp db d) (hp : PoolRepresents mp pool)
    (hapart : Apart d.nodes pool.freelist pool.next) : d.list.length < mp.next + 1 := by
  have hsub : d.nodes ⊆ List.range mp.next := fun n hn => by
    rw [mem_range, hp.next_eq]
    exact hapart.lt n (mem_append_left _ hn)
  have hle := (List.Nodup.subperm h.chained.linked.nodup hsub).length_le
  rw [length_map, length_range] at hle
  omega

/-- **A read** takes the same bytes from the messages as from the chunks. -/
theorem Represents.read {mp : CellPool} {pool pool' : MessagePool} {db : LinkedBuffer}
    {d' : DataBuffer} (h : Represents mp db d) (hp : PoolRepresents mp pool)
    (hapart : Apart d.nodes pool.freelist pool.next) (hd : d.Sound) (hsz : sz < 2 ^ 31)
    (hread : d.read pool sz = .ok (bytes, d', pool')) :
    ∃ db' mp', db.read mp sz = .ok (bytes, db', mp') ∧ Represents mp' db' d' ∧
      PoolRepresents mp' pool' ∧ Moved mp mp' d.nodes d'.nodes pool.freelist pool'.freelist [] := by
  rw [DataBuffer.read] at hread
  rw [LinkedBuffer.read, h.size_eq]
  split_ifs at hread ⊢ with hlow
  split at hread
  · next bytes₁ list offset nodes hloop =>
    cases hread
    have hfuel := h.length_lt hp hapart
    obtain ⟨db', mp', heq, hchain, hseg, hnext, hheader, hoffset, hsize, hmoved⟩ :=
      (h.chained.fields db.header db.offset (toInt (d.size - sz))).readLoop hp.free
        (fun n hn => hapart.not_mem hn) hfuel h.offset_eq
        (fun m rest hl => Nat.le_of_lt (hd.offset_lt m rest hl)) hsz hloop
    exact ⟨db', mp', heq, ⟨hheader.trans h.header_eq, hoffset, hsize, hchain⟩,
      ⟨hseg, hnext.trans hp.next_eq⟩, hmoved⟩
  · cases hread

/-- **The header** is read from the messages as from the chunks. -/
theorem Represents.readHeader {mp : CellPool} {pool : MessagePool} {db : LinkedBuffer}
    (h : Represents mp db d) (hp : PoolRepresents mp pool)
    (hapart : Apart d.nodes pool.freelist pool.next) (hd : d.Sound) (headerSize : HeaderSize) :
    ∃ size plen db' mp' d' pool', db.readHeader mp headerSize = .ok (size, plen, db', mp') ∧
      d.readHeader pool headerSize = .ok (size, d', pool') ∧ Represents mp' db' d' ∧
      PoolRepresents mp' pool' ∧ d'.Sound ∧ d.bytes = plen ++ d'.bytes ∧
      Moved mp mp' d.nodes d'.nodes pool.freelist pool'.freelist [] := by
  have hframe {db : LinkedBuffer} {d : DataBuffer} {mp : CellPool} (h : Represents mp db d)
      (pool : MessagePool) : (if d.size < d.header then .ok (-1, d, pool)
        else .ok (d.header, d, pool) : Except Fault _) = .ok (db.frameSize, d, pool) := by
    rw [LinkedBuffer.frameSize, h.size_eq, h.header_eq]
    split_ifs <;> rfl
  rw [LinkedBuffer.readHeader, DataBuffer.readHeader, h.header_eq, h.size_eq, hframe h pool]
  split_ifs with hzero hshort
  · exact ⟨_, _, _, _, _, _, rfl, rfl, h, hp, hd, rfl, .refl _ _ _⟩
  · have hpos : 0 < headerSize.1 := by
      rcases headerSize.2 with hsize | hsize <;> omega
    have hle : headerSize.1 ≤ d.bytes.length := by
      have := hd.size_eq
      omega
    have hlt : headerSize.1 < 2 ^ 31 := by
      rcases headerSize.2 with hsize | hsize <;> omega
    obtain ⟨d', pool', hread, hd', hbytes, -⟩ := hd.read pool hpos hle
    obtain ⟨db', mp', hread', hrep, hp', hmoved⟩ := h.read hp hapart hd hlt hread
    have hrep' : Represents mp' { db' with header := DataBuffer.headerOf (d.bytes.take headerSize.1) }
        { d' with header := DataBuffer.headerOf (d.bytes.take headerSize.1) } :=
      ⟨rfl, hrep.offset_eq, hrep.size_eq, hrep.chained.fields _ _ _⟩
    let db'' : LinkedBuffer :=
      { db' with header := DataBuffer.headerOf (d.bytes.take headerSize.1) }
    refine ⟨db''.frameSize, d.bytes.take headerSize.1, db'', _, _, _, ?_, ?_, hrep', hp',
      hd'.setHeader _, ?_, hmoved⟩
    · simp only [bind, Except.bind, hread']
      rfl
    · rw [hread]
      exact hframe hrep' pool'
    · change d.bytes = _ ++ d'.bytes
      rw [hbytes, take_append_drop]
  · exact ⟨_, _, _, _, _, _, rfl, rfl, h, hp, hd, rfl, .refl _ _ _⟩

theorem Represents.clear {mp : CellPool} {pool : MessagePool} {db : LinkedBuffer}
    (h : Represents mp db d) (hp : PoolRepresents mp pool)
    (hapart : Apart d.nodes pool.freelist pool.next) :
    ∃ mp', db.clear mp = .ok (.zero, mp') ∧ Represents mp' .zero (d.clear pool).1 ∧
      PoolRepresents mp' (d.clear pool).2 ∧
      Moved mp mp' d.nodes (d.clear pool).1.nodes pool.freelist (d.clear pool).2.freelist [] := by
  obtain ⟨mp', hloop, hseg, hnext, hmoved⟩ :=
    h.chained.clearLoop hp.free (fun n hn => hapart.not_mem hn) (h.length_lt hp hapart)
  refine ⟨mp', ?_, ⟨rfl, rfl, rfl, ⟨.empty, ?_, ?_, ?_⟩⟩, ⟨hseg, hnext.trans hp.next_eq⟩, hmoved⟩
  · rw [LinkedBuffer.clear, hloop]
    rfl
  all_goals
    intro m hm
    cases hm

end Mtask.GateService
