import Mathlib.Algebra.GroupWithZero.Nat
import Mathlib.Algebra.Ring.Int.Defs
import Mtask.Lib.Framing

/-!
# The buffer of a connection

`databuffer.h` keeps what a connection of the gate has received, as the list of the chunks in which
it came and the offset of the first byte in the first chunk that was not read yet. The nodes of the
lists of all connections come from one pool. Sizes and lengths are of type `int`.
-/

namespace Mtask.GateService

open List

/-- The value of type `int` that comes out of an operation on such values. -/
def toInt (n : ℤ) : ℤ :=
  n.bmod (2 ^ 32)

/-- `header_size`: the length of a frame is a number of two or four bytes. -/
abbrev HeaderSize := {n : ℕ // n = 2 ∨ n = 4}

/-- `MESSAGEPOOL` -/
def messagePool : ℕ := 1023

/-- `struct message`, with the number of its node. -/
structure Message where
  node : ℕ
  buffer : List UInt8
  deriving DecidableEq, Repr

/-- `struct databuffer`, with its chunks as a list. -/
structure DataBuffer where
  header : ℤ
  offset : ℕ
  size : ℤ
  list : List Message
  deriving DecidableEq, Repr

/-- `struct messagepool`: the nodes that are not used, and the number of all nodes. -/
structure MessagePool where
  freelist : List ℕ
  next : ℕ
  deriving DecidableEq, Repr

inductive Fault
  /-- `assert(db->size >= sz)` -/
  | sizeBelow
  /-- the loop of `databuffer_read` runs over the end of the list -/
  | nullMessage
  | roundsExhausted
  deriving DecidableEq, Repr

namespace MessagePool

/-- A node for `databuffer_push`, from the list or from a new block of nodes. -/
def take (mp : MessagePool) : ℕ × MessagePool :=
  match mp.freelist with
  | node :: freelist => (node, { mp with freelist })
  | [] => (mp.next,
      { freelist := (List.range (messagePool - 1)).map (mp.next + 1 + ·)
        next := mp.next + messagePool })

end MessagePool

namespace DataBuffer

/-- A buffer that was cleared with `memset`. -/
def zero : DataBuffer where
  header := 0
  offset := 0
  size := 0
  list := []

/-- The loop of `databuffer_read` over the chunks, from an offset in the first one on: the bytes,
the chunks and the offset that are left, and the nodes that went back to the pool. -/
def readLoop : List Message → ℕ → ℕ → Except Fault (List UInt8 × List Message × ℕ × List ℕ)
  | [], _, _ => .error .nullMessage
  | current :: list, offset, sz =>
    let bsz := current.buffer.length - offset
    if sz < bsz then
      .ok ((current.buffer.drop offset).take sz, current :: list, offset + sz, [])
    else if bsz = sz then .ok ((current.buffer.drop offset).take sz, list, 0, [current.node])
    else
      match readLoop list 0 (sz - bsz) with
      | .ok (bytes, list, offset', nodes) =>
        .ok (current.buffer.drop offset ++ bytes, list, offset', current.node :: nodes)
      | .error e => .error e

/-- `databuffer_read` -/
def read (db : DataBuffer) (mp : MessagePool) (sz : ℕ) :
    Except Fault (List UInt8 × DataBuffer × MessagePool) :=
  if db.size < sz then .error .sizeBelow
  else
    match readLoop db.list db.offset sz with
    | .ok (bytes, list, offset, nodes) =>
      .ok (bytes, { db with size := toInt (db.size - sz), offset, list },
        { mp with freelist := nodes.reverse ++ mp.freelist })
    | .error e => .error e

/-- `databuffer_push` -/
def push (db : DataBuffer) (mp : MessagePool) (data : List UInt8) : DataBuffer × MessagePool :=
  ({ db with
      size := toInt (db.size + data.length)
      list := db.list ++ [⟨mp.take.1, data⟩] },
    mp.take.2)

/-- The length that is read in `databuffer_readheader`. -/
def headerOf : List UInt8 → ℤ
  | [a, b] => (a.toNat <<< 8 ||| b.toNat : ℕ)
  | [a, b, c, d] =>
    toInt (a.toNat <<< 24 ||| b.toNat <<< 16 ||| c.toNat <<< 8 ||| d.toNat : ℕ)
  | _ => 0

/-- `databuffer_readheader` -/
def readHeader (db : DataBuffer) (mp : MessagePool) (headerSize : HeaderSize) :
    Except Fault (ℤ × DataBuffer × MessagePool) :=
  if db.header = 0 then
    if db.size < headerSize.1 then .ok (-1, db, mp)
    else
      match db.read mp headerSize.1 with
      | .ok (plen, db, mp) =>
        let db := { db with header := headerOf plen }
        if db.size < db.header then .ok (-1, db, mp) else .ok (db.header, db, mp)
      | .error e => .error e
  else if db.size < db.header then .ok (-1, db, mp) else .ok (db.header, db, mp)

/-- `databuffer_reset` -/
def reset (db : DataBuffer) : DataBuffer :=
  { db with header := 0 }

/-- `databuffer_clear` -/
def clear (db : DataBuffer) (mp : MessagePool) : DataBuffer × MessagePool :=
  (zero, { mp with freelist := (db.list.map Message.node).reverse ++ mp.freelist })

/-! ### What a buffer holds -/

/-- The bytes that were not read yet. -/
def bytes (db : DataBuffer) : List UInt8 :=
  (db.list.flatMap Message.buffer).drop db.offset

/-- The offset lies in the first chunk, no chunk is empty, and the size is the number of bytes,
which fits into an `int`. -/
structure Sound (db : DataBuffer) : Prop where
  nonempty : ∀ m ∈ db.list, m.buffer ≠ []
  offset_eq : db.list = [] → db.offset = 0
  offset_lt : ∀ m list, db.list = m :: list → db.offset < m.buffer.length
  size_eq : db.size = db.bytes.length
  size_lt : db.bytes.length < 2 ^ 31

theorem toInt_of_lt {n : ℕ} (h : n < 2 ^ 31) : toInt n = n := by
  rw [toInt, Int.bmod_eq_of_le] <;> omega

variable {data : List UInt8}

namespace Sound

variable {db : DataBuffer} {mp : MessagePool}

theorem zero : DataBuffer.zero.Sound where
  nonempty m hm := by simp [DataBuffer.zero] at hm
  offset_eq _ := rfl
  offset_lt m list h := by simp [DataBuffer.zero] at h
  size_eq := rfl
  size_lt := by simp [DataBuffer.zero, DataBuffer.bytes]

theorem setHeader (hdb : db.Sound) (header : ℤ) : { db with header }.Sound where
  nonempty := hdb.nonempty
  offset_eq := hdb.offset_eq
  offset_lt := hdb.offset_lt
  size_eq := hdb.size_eq
  size_lt := hdb.size_lt

theorem offset_le (hdb : db.Sound) : db.offset ≤ (db.list.flatMap Message.buffer).length := by
  rcases hlist : db.list with _ | ⟨m, list⟩
  · exact Nat.le_of_eq (hdb.offset_eq hlist)
  · have := hdb.offset_lt m list hlist
    rw [flatMap_cons, length_append]
    omega

theorem bytes_push (hdb : db.Sound) (mp : MessagePool) (data : List UInt8) :
    (db.push mp data).1.bytes = db.bytes ++ data := by
  rw [DataBuffer.bytes, DataBuffer.push, DataBuffer.bytes, flatMap_append,
    flatMap_singleton, drop_append_of_le_length hdb.offset_le]

theorem push (hdb : db.Sound) (hne : data ≠ []) (hlt : db.bytes.length + data.length < 2 ^ 31) :
    (db.push mp data).1.Sound := by
  have hbytes := hdb.bytes_push mp data
  refine ⟨fun m hm => ?_, fun h => ?_, fun m list h => ?_, ?_, ?_⟩
  · rcases mem_append.mp hm with hm | hm
    · exact hdb.nonempty m hm
    · rw [mem_singleton.mp hm]
      exact hne
  · simp [DataBuffer.push] at h
  · change db.list ++ _ = _ at h
    rcases hlist : db.list with _ | ⟨m', list'⟩
    · rw [hlist, nil_append] at h
      cases h
      have hpos := length_pos_iff.mpr hne
      have hzero := hdb.offset_eq hlist
      change db.offset < data.length
      omega
    · rw [hlist] at h
      cases h
      exact hdb.offset_lt _ _ hlist
  · rw [hbytes, length_append]
    change toInt (db.size + data.length) = _
    rw [hdb.size_eq, ← Int.natCast_add, toInt_of_lt hlt]
  · rwa [hbytes, length_append]

/-- The loop reads the next bytes across the borders of the chunks. -/
theorem readLoop {list : List Message} {offset sz : ℕ} (hne : ∀ m ∈ list, m.buffer ≠ [])
    (hoffset : ∀ m rest, list = m :: rest → offset < m.buffer.length) (hpos : 0 < sz)
    (hsz : sz ≤ ((list.flatMap Message.buffer).drop offset).length) :
    ∃ list' offset' nodes, DataBuffer.readLoop list offset sz =
        .ok (((list.flatMap Message.buffer).drop offset).take sz, list', offset', nodes) ∧
      (list'.flatMap Message.buffer).drop offset' =
        ((list.flatMap Message.buffer).drop offset).drop sz ∧
      (∀ m ∈ list', m ∈ list) ∧ (list' = [] → offset' = 0) ∧
      ∀ m rest, list' = m :: rest → offset' < m.buffer.length := by
  induction list generalizing offset sz with
  | nil =>
    rw [flatMap_nil, drop_nil, length_nil] at hsz
    omega
  | cons m list ih =>
    have hlt := hoffset m list rfl
    have hrest : ∀ m ∈ list, m.buffer ≠ [] := fun m hm => hne m (mem_cons_of_mem _ hm)
    have hzero : ∀ m rest, list = m :: rest → 0 < m.buffer.length := fun m rest h =>
      length_pos_iff.mpr (hrest m (h ▸ mem_cons_self))
    have hdrop : ((m :: list).flatMap Message.buffer).drop offset =
        m.buffer.drop offset ++ list.flatMap Message.buffer := by
      rw [flatMap_cons, drop_append_of_le_length (Nat.le_of_lt hlt)]
    have hlen : (m.buffer.drop offset).length = m.buffer.length - offset := length_drop
    rw [hdrop] at hsz ⊢
    rw [DataBuffer.readLoop]
    split_ifs with hshort hexact
    · refine ⟨m :: list, offset + sz, [], ?_, ?_, fun _ h => h, nofun, fun m' rest h => ?_⟩
      · rw [take_append_of_le_length (by omega)]
      · rw [flatMap_cons, drop_append_of_le_length (by omega),
          drop_append_of_le_length (by omega), drop_drop]
      · cases h
        omega
    · refine ⟨list, 0, [m.node], ?_, ?_, fun _ h => mem_cons_of_mem _ h, fun _ => rfl, hzero⟩
      · rw [take_append_of_le_length (by omega)]
      · rw [drop_zero, drop_append, hlen, hexact, Nat.sub_self, drop_zero,
          drop_of_length_le (by omega), nil_append]
    · have hsz' : sz - (m.buffer.length - offset) ≤
          ((list.flatMap Message.buffer).drop 0).length := by
        rw [length_append, hlen] at hsz
        rw [drop_zero]
        omega
      obtain ⟨list', offset', nodes, heq, hbytes, hmem, hnil, hcons⟩ :=
        ih hrest hzero (by omega) hsz'
      rw [heq]
      refine ⟨list', offset', m.node :: nodes, ?_, ?_, fun _ h => mem_cons_of_mem _ (hmem _ h),
        hnil, hcons⟩
      · have hle : (m.buffer.drop offset).length ≤ sz := by omega
        rw [take_append, hlen, drop_zero, take_of_length_le hle]
      · have hle : (m.buffer.drop offset).length ≤ sz := by omega
        rw [hbytes, drop_zero, drop_append, hlen, drop_of_length_le hle,
          nil_append]

/-- **The next bytes are read**, if there are as many. -/
theorem read (hdb : db.Sound) (mp : MessagePool) {sz : ℕ} (hpos : 0 < sz)
    (hsz : sz ≤ db.bytes.length) :
    ∃ db' mp', db.read mp sz = .ok (db.bytes.take sz, db', mp') ∧ db'.Sound ∧
      db'.bytes = db.bytes.drop sz ∧ db'.header = db.header := by
  obtain ⟨list', offset', nodes, heq, hbytes, hmem, hnil, hcons⟩ :=
    readLoop hdb.nonempty hdb.offset_lt hpos hsz
  have hge : ¬db.size < sz := by
    rw [hdb.size_eq]
    omega
  have hsize : db.size - sz = ((db.bytes.length - sz : ℕ) : ℤ) := by
    rw [hdb.size_eq]
    omega
  have hlt := hdb.size_lt
  refine ⟨{ db with size := toInt (db.size - sz), offset := offset', list := list' },
    { mp with freelist := nodes.reverse ++ mp.freelist }, ?_, ⟨?_, hnil, hcons, ?_, ?_⟩,
    hbytes, rfl⟩
  · rw [DataBuffer.read, if_neg hge, heq]
    rfl
  · exact fun m hm => hdb.nonempty m (hmem m hm)
  · change toInt (db.size - sz) = (((list'.flatMap Message.buffer).drop offset').length : ℤ)
    rw [hbytes, hsize, toInt_of_lt (by omega)]
    exact congrArg _ length_drop.symm
  · change ((list'.flatMap Message.buffer).drop offset').length < 2 ^ 31
    rw [hbytes]
    change (db.bytes.drop sz).length < 2 ^ 31
    rw [length_drop]
    omega

end Sound

/-! ### The pending header -/

/-- The buffer holds the rest of a stream; the length of the next frame may have been read. -/
structure Holds (db : DataBuffer) (headerSize : HeaderSize) (rest : List UInt8) : Prop where
  sound : db.Sound
  rest_eq : (db.header = 0 ∧ rest = db.bytes) ∨
    ∃ plen : List UInt8, plen.length = headerSize.1 ∧ Framing.ofBytes plen ≠ 0 ∧
      db.header = toInt (Framing.ofBytes plen) ∧ rest = plen ++ db.bytes

/-- What `databuffer_readheader` does behind the length of a frame: the frame is complete, or it is
not and the buffer still holds it. -/
def HeaderRead (headerSize : HeaderSize) (rest : List UInt8)
    (result : Except Fault (ℤ × DataBuffer × MessagePool)) : Prop :=
  (Framing.cut headerSize.1 rest = none ∧ ∃ size db mp, result = .ok (size, db, mp) ∧ size < 0 ∧
    db.Holds headerSize rest) ∨
  ∃ payload rest' db mp, Framing.cut headerSize.1 rest = some (payload, rest') ∧
    result = .ok ((payload.length : ℤ), db, mp) ∧ db.Sound ∧ db.header = payload.length ∧
    db.bytes = payload ++ rest'

variable {headerSize : HeaderSize} {plen : List UInt8}

theorem ofBytes_lt_of_headerSize (h : plen.length = headerSize.1) :
    Framing.ofBytes plen < 2 ^ 32 := by
  have hlt := Framing.ofBytes_lt plen
  rw [h] at hlt
  rcases headerSize.2 with hsize | hsize <;> rw [hsize] at hlt <;> omega

theorem headerOf_two (a b : UInt8) : headerOf [a, b] = toInt (Framing.ofBytes [a, b]) := by
  have hlt : Framing.ofBytes [a, b] < 256 ^ 2 := Framing.ofBytes_lt [a, b]
  have hor : a.toNat <<< 8 ||| b.toNat = Framing.ofBytes [a, b] := by
    rw [Framing.shiftLeft_or_byte]
    simp [Framing.ofBytes]
  rw [headerOf, hor, toInt_of_lt (by omega)]

theorem headerOf_four (a b c d : UInt8) :
    headerOf [a, b, c, d] = toInt (Framing.ofBytes [a, b, c, d]) := by
  have hor : a.toNat <<< 24 ||| b.toNat <<< 16 ||| c.toNat <<< 8 ||| d.toNat =
      ((a.toNat <<< 8 ||| b.toNat) <<< 8 ||| c.toNat) <<< 8 ||| d.toNat := by
    simp only [Nat.shiftLeft_or_distrib, ← Nat.shiftLeft_add]
  rw [headerOf, hor]
  simp only [Framing.shiftLeft_or_byte]
  simp [Framing.ofBytes]

/-- All bytes of the length are read; a length from `2 ^ 31` on becomes negative. -/
theorem headerOf_eq (h : plen.length = headerSize.1) :
    headerOf plen = toInt (Framing.ofBytes plen) := by
  rcases headerSize.2 with hsize | hsize <;> rw [hsize] at h
  · obtain ⟨a, b, rfl⟩ := length_eq_two.mp h
    exact headerOf_two a b
  · match plen, h with
    | [a, b, c, d], _ => exact headerOf_four a b c d

theorem toInt_neg {n : ℕ} (hle : 2 ^ 31 ≤ n) (hlt : n < 2 ^ 32) : toInt n < 0 := by
  rw [toInt, Int.bmod_def]
  omega

theorem Sound.headerRead {db : DataBuffer} (mp : MessagePool) (hdb : db.Sound)
    (hlen : plen.length = headerSize.1) (hheader : db.header = toInt (Framing.ofBytes plen)) :
    HeaderRead headerSize (plen ++ db.bytes)
      (if db.size < db.header then .ok (-1, db, mp) else .ok (db.header, db, mp)) := by
  have hlt := ofBytes_lt_of_headerSize hlen
  have hsize := hdb.size_eq
  have hbound := hdb.size_lt
  by_cases hcomplete : Framing.ofBytes plen ≤ db.bytes.length
  · -- the frame is complete
    have hpayload : Framing.ofBytes plen = (db.bytes.take (Framing.ofBytes plen)).length := by
      rw [length_take_of_le hcomplete]
    rw [toInt_of_lt (by omega)] at hheader
    refine Or.inr ⟨db.bytes.take (Framing.ofBytes plen), db.bytes.drop (Framing.ofBytes plen),
      db, mp, ?_, ?_, hdb, ?_, (take_append_drop _ _).symm⟩
    · have hcut := Framing.cut_frame hlen hpayload (db.bytes.drop (Framing.ofBytes plen))
      rwa [take_append_drop] at hcut
    · rw [if_neg (by omega), ← hpayload, hheader]
    · rw [← hpayload, hheader]
  · -- it is not: the length is above the size, or it has become negative
    have hholds : db.Holds headerSize (plen ++ db.bytes) :=
      ⟨hdb, Or.inr ⟨plen, hlen, by omega, hheader, rfl⟩⟩
    refine Or.inl ⟨Framing.cut_eq_none (Or.inr ⟨plen, db.bytes, rfl, hlen, by omega⟩), ?_⟩
    split_ifs with hshort
    · exact ⟨-1, db, mp, rfl, by decide, hholds⟩
    · refine ⟨db.header, db, mp, rfl, ?_, hholds⟩
      by_cases hbig : 2 ^ 31 ≤ Framing.ofBytes plen
      · rw [hheader]
        exact toInt_neg hbig hlt
      · rw [hheader, toInt_of_lt (by omega)] at hshort
        omega

variable {rest : List UInt8}

theorem Holds.push {db : DataBuffer} (h : db.Holds headerSize rest) (mp : MessagePool)
    (hne : data ≠ []) (hlt : db.size + data.length < 2 ^ 31) :
    (db.push mp data).1.Holds headerSize (rest ++ data) := by
  have hbytes := h.sound.bytes_push mp data
  have hsize := h.sound.size_eq
  refine ⟨h.sound.push hne (by omega), ?_⟩
  rcases h.rest_eq with ⟨hzero, rfl⟩ | ⟨plen, hlen, hnonzero, hheader, rfl⟩
  · exact Or.inl ⟨hzero, hbytes.symm⟩
  · exact Or.inr ⟨plen, hlen, hnonzero, hheader, by rw [hbytes, append_assoc]⟩

theorem Holds.length_le {db : DataBuffer} (h : db.Holds headerSize rest) :
    rest.length ≤ db.size.toNat + 4 := by
  have hsize := h.sound.size_eq
  rcases h.rest_eq with ⟨-, rfl⟩ | ⟨plen, hlen, -, -, rfl⟩
  · omega
  · rw [length_append, hlen]
    rcases headerSize.2 with h | h <;> omega

/-- **The length of the next frame** is returned once the frame is complete. -/
theorem Holds.readHeader {db : DataBuffer} (h : db.Holds headerSize rest) (mp : MessagePool) :
    HeaderRead headerSize rest (db.readHeader mp headerSize) := by
  obtain ⟨hdb, ⟨hzero, rfl⟩ | ⟨plen, hlen, hne, hheader, rfl⟩⟩ := h
  · have hpos : 0 < headerSize.1 := by
      rcases headerSize.2 with hsize | hsize <;> omega
    have hsize := hdb.size_eq
    rw [DataBuffer.readHeader, if_pos hzero]
    split_ifs with hshort
    · exact Or.inl ⟨Framing.cut_eq_none (Or.inl (by omega)),
        ⟨-1, db, mp, rfl, by decide, ⟨hdb, Or.inl ⟨hzero, rfl⟩⟩⟩⟩
    · have hcomplete : headerSize.1 ≤ db.bytes.length := by omega
      obtain ⟨db', mp', heq, hdb', hbytes, -⟩ :=
        hdb.read mp hpos hcomplete
      have hlen : (db.bytes.take headerSize.1).length = headerSize.1 :=
        length_take_of_le (by omega)
      have hread := (hdb'.setHeader (headerOf (db.bytes.take headerSize.1))).headerRead mp'
        hlen (headerOf_eq hlen)
      rw [heq]
      have hrest : db.bytes.take headerSize.1 ++
          { db' with header := headerOf (db.bytes.take headerSize.1) }.bytes = db.bytes := by
        change _ ++ db'.bytes = _
        rw [hbytes, take_append_drop]
      rwa [hrest] at hread
  · have hne' : db.header ≠ 0 := by
      have hlt := ofBytes_lt_of_headerSize hlen
      rw [hheader, toInt, Int.bmod_def]
      omega
    rw [DataBuffer.readHeader, if_neg hne']
    exact hdb.headerRead mp hlen hheader

end DataBuffer

end Mtask.GateService
