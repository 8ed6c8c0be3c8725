import Mtask.Lib.Sums
import Mtask.Netpack.Reassembly

/-!
# The buffers of netpack

`netpack.filter` allocates records and payloads, and it is given the chunks of the sockets. A
payload is handed to Lua or freed, everything else is freed. What `lclear` does not free are the
payloads of the records in the hash table.
-/

namespace Mtask.Netpack

open List

/-! ### The other functions -/

/-- `mtask_free`, which does nothing for `NULL`. -/
def freePointer (m : Memory) (addr : ℕ) : Memory :=
  if addr = 0 then m else m.free addr

/-- `clear_list` -/
def clearList (m : Memory) (chain : List Uncomplete) : Memory :=
  chain.foldl (fun m uc => m.free uc.addr) m

namespace State

/-- `close_uncomplete` -/
def closeUncomplete (st : State) (fd : Int32) : State :=
  match st.findUncomplete fd with
  | some (uc, st) =>
    { st with memory := (freePointer st.memory uc.pack.buffer.addr).free uc.addr }
  | none => st

/-- `lpop` -/
def pop (st : State) : Option (Pack × State) :=
  match st.queue with
  | none => none
  | some q => q.pop.map fun popped => (popped.1, { st with queue := some popped.2 })

/-- `lclear` -/
def clear (st : State) : State :=
  match st.queue with
  | none => st
  | some q =>
    let memory := (List.range hashSize).foldl (fun m i => clearList m (q.hash i)) st.memory
    let tail := if q.head > q.tail then q.tail + q.cap else q.tail
    { queue := some { q with
        hash := fun _ => []
        head := 0
        tail := 0
        head_lt := Nat.zero_lt_of_lt q.head_lt
        tail_lt := Nat.zero_lt_of_lt q.head_lt }
      memory := (List.range' q.head (tail - q.head)).foldl
        (fun m i => freePointer m (q.queue (i % q.cap)).buffer.addr) memory }

end State

/-! ### What is held -/

/-- The block that a pointer points to. -/
def blockOf (addr : ℕ) : Multiset ℕ :=
  if addr = 0 then 0 else {addr}

/-- The records of a chain. -/
def chainRecords (chain : List Uncomplete) : Multiset ℕ :=
  (chain.map Uncomplete.addr : List ℕ)

/-- The payloads of the records of a chain. -/
def chainPayloads (chain : List Uncomplete) : Multiset ℕ :=
  (chain.map fun uc => blockOf uc.pack.buffer.addr).sum

/-- The payloads of some packages. -/
def packPayloads (packs : List Pack) : Multiset ℕ :=
  (packs.map fun np => blockOf np.buffer.addr).sum

/-- The payload that a result hands to Lua. -/
def Result.handed : Result → Multiset ℕ
  | .data _ buffer _ => blockOf buffer.addr
  | _ => 0

namespace State

/-- The records in the hash table. -/
def heldRecords (st : State) : Multiset ℕ :=
  Sums.total hashSize chainRecords st.chain

/-- The payloads of the records in the hash table. -/
def recordPayloads (st : State) : Multiset ℕ :=
  Sums.total hashSize chainPayloads st.chain

/-- The payloads in the hash table and in the queue. -/
def heldPayloads (st : State) : Multiset ℕ :=
  st.recordPayloads + packPayloads st.packs

/-- The blocks that were freed. -/
def freed (st : State) : Multiset ℕ :=
  (st.memory.freed : List ℕ)

/-- The records that a call has made: the new blocks that are records of the hash table after it. -/
def recordsMade (st st' : State) : Multiset ℕ :=
  (Multiset.range st'.memory.next).filter fun a => st.memory.next ≤ a ∧ a ∈ st'.heldRecords

/-- The payloads that a call has made: all other new blocks. -/
def payloadsMade (st st' : State) : Multiset ℕ :=
  (Multiset.range st'.memory.next).filter fun a => st.memory.next ≤ a ∧ a ∉ st'.heldRecords

end State

/-! ### Runs -/

/-- The messages for `netpack.filter` that matter for the buffers, and the calls of
`netpack.pop`. -/
inductive Event
  | data (fd : Int32) (chunk : Block)
  | close (fd : Int32)
  | error (fd : Int32)
  | pop
  deriving DecidableEq, Repr

/-- The state, the records and payloads that were made, the chunks that came, and the payloads that
were handed to Lua. -/
structure Ledger where
  st : State
  records : Multiset ℕ
  payloads : Multiset ℕ
  chunks : Multiset ℕ
  handed : Multiset ℕ

namespace Ledger

def init : Ledger :=
  ⟨State.init, 0, 0, 0, 0⟩

def step (l : Ledger) : Event → Except Fault Ledger
  | .data fd chunk =>
    match l.st.filterData fd chunk with
    | .ok (result, st) => .ok
        { st
          records := l.records + l.st.recordsMade st
          payloads := l.payloads + l.st.payloadsMade st
          chunks := l.chunks + {chunk.addr}
          handed := l.handed + result.handed }
    | .error e => .error e
  | .close fd | .error fd => .ok { l with st := l.st.closeUncomplete fd }
  | .pop =>
    match l.st.pop with
    | some (np, st) => .ok { l with st, handed := l.handed + blockOf np.buffer.addr }
    | none => .ok l

def run (l : Ledger) : List Event → Except Fault Ledger
  | [] => .ok l
  | event :: events =>
    match l.step event with
    | .ok l => l.run events
    | .error e => .error e

/-- `netpack.clear` -/
def clear (l : Ledger) : Ledger :=
  { l with st := l.st.clear }

/-- Every payload was handed to Lua or freed, and every record and every chunk was freed, each of
them once. -/
def Settled (l : Ledger) : Prop :=
  ∃ freed, l.handed + freed = l.payloads ∧ l.st.freed = freed + l.records + l.chunks

end Ledger

/-! ### What the primitive steps do to what is held -/

section Held

variable {st st' : State} {uc : Uncomplete} {fd : Int32} {np : Pack}

theorem hashFd_lt (fd : Int32) : hashFd fd < hashSize :=
  Nat.mod_lt _ (by decide)

theorem chainRecords_cons (uc : Uncomplete) (chain : List Uncomplete) :
    chainRecords (uc :: chain) = chainRecords chain + {uc.addr} := by
  rw [add_comm, Multiset.singleton_add]
  rfl

theorem chainPayloads_cons (uc : Uncomplete) (chain : List Uncomplete) :
    chainPayloads (uc :: chain) = chainPayloads chain + blockOf uc.pack.buffer.addr :=
  (sum_cons ..).trans (add_comm _ _)

theorem packPayloads_concat (packs : List Pack) (np : Pack) :
    packPayloads (packs ++ [np]) = packPayloads packs + blockOf np.buffer.addr := by
  rw [packPayloads, map_append, sum_append, map_singleton, sum_singleton]
  rfl

theorem packPayloads_cons (np : Pack) (packs : List Pack) :
    packPayloads (np :: packs) = packPayloads packs + blockOf np.buffer.addr :=
  (sum_cons ..).trans (add_comm _ _)

theorem chain_unlink {chain rest : List Uncomplete} (h : Queue.unlink fd chain = some (uc, rest)) :
    chainRecords chain = chainRecords rest + {uc.addr} ∧
      chainPayloads chain = chainPayloads rest + blockOf uc.pack.buffer.addr ∧ uc ∈ chain := by
  induction chain generalizing rest with
  | nil => cases h
  | cons uc' chain ih =>
    rw [Queue.unlink] at h
    split_ifs at h with hid
    · cases h
      exact ⟨chainRecords_cons uc chain, chainPayloads_cons uc chain, mem_cons_self⟩
    · obtain ⟨⟨uc, rest⟩, hunlink, heq⟩ := Option.map_eq_some_iff.mp h
      cases heq
      obtain ⟨hrecords, hpayloads, hmem⟩ := ih hunlink
      refine ⟨?_, ?_, mem_cons_of_mem _ hmem⟩
      · rw [chainRecords_cons, chainRecords_cons, hrecords, add_right_comm]
      · rw [chainPayloads_cons, chainPayloads_cons, hpayloads, add_right_comm]

namespace State

theorem heldRecords_link (st : State) (uc : Uncomplete) :
    (st.link uc).heldRecords = st.heldRecords + {uc.addr} :=
  Sums.total_update (hashFd_lt uc.pack.id) st.getQueue.hash chainRecords (chainRecords_cons uc _)

theorem heldPayloads_link (st : State) (uc : Uncomplete) :
    (st.link uc).heldPayloads = st.heldPayloads + blockOf uc.pack.buffer.addr := by
  have hrecords : (st.link uc).recordPayloads =
      st.recordPayloads + blockOf uc.pack.buffer.addr :=
    Sums.total_update (hashFd_lt uc.pack.id) st.getQueue.hash chainPayloads
      (chainPayloads_cons uc _)
  rw [heldPayloads, hrecords, add_right_comm]
  rfl

theorem chain_pushData (st : State) (fd : Int32) (buffer : Block) (size : ℕ) :
    (st.pushData fd buffer size).chain = st.chain :=
  Queue.hash_write

theorem heldRecords_pushData (st : State) (fd : Int32) (buffer : Block) (size : ℕ) :
    (st.pushData fd buffer size).heldRecords = st.heldRecords := by
  rw [heldRecords, chain_pushData, heldRecords]

theorem heldPayloads_pushData (st : State) (fd : Int32) (buffer : Block) (size : ℕ) :
    (st.pushData fd buffer size).heldPayloads = st.heldPayloads + blockOf buffer.addr := by
  have hpacks : (st.pushData fd buffer size).packs = st.packs ++ [⟨fd, size, buffer⟩] :=
    Queue.toList_write
  rw [heldPayloads, recordPayloads, chain_pushData, hpacks, packPayloads_concat, ← add_assoc]
  rfl

/-- A record that is found is taken out of the table. -/
theorem held_findUncomplete (h : st.findUncomplete fd = some (uc, st')) :
    st.heldRecords = st'.heldRecords + {uc.addr} ∧
      st.heldPayloads = st'.heldPayloads + blockOf uc.pack.buffer.addr ∧
      uc ∈ st.chain (hashFd fd) ∧ (∀ h, ∀ uc ∈ st'.chain h, uc ∈ st.chain h) ∧
      st'.memory = st.memory := by
  rw [findUncomplete] at h
  rcases hq : st.queue with _ | q
  · rw [hq] at h
    cases h
  rw [hq] at h
  obtain ⟨⟨uc, rest⟩, hunlink, heq⟩ := Option.map_eq_some_iff.mp h
  cases heq
  obtain ⟨hrecords, hpayloads, hmem⟩ := chain_unlink hunlink
  have hchain : st.chain = q.hash := by
    funext h
    rw [chain, getQueue, hq]
    rfl
  have hpacks : st.packs = q.toList := by
    rw [packs, getQueue, hq]
    rfl
  refine ⟨?_, ?_, by rwa [hchain], fun h uc' huc' => ?_, rfl⟩
  · rw [heldRecords, hchain]
    exact Sums.total_of_update (hashFd_lt fd) q.hash chainRecords hrecords
  · rw [heldPayloads, recordPayloads, hchain, hpacks,
      Sums.total_of_update (hashFd_lt fd) q.hash chainPayloads hpayloads, add_right_comm]
    rfl
  · change uc' ∈ Function.update q.hash (hashFd fd) rest h at huc'
    rw [hchain]
    by_cases hh : h = hashFd fd
    · subst hh
      rw [Function.update_self] at huc'
      exact (Queue.unlink_eq_some hunlink).2.2 uc' huc'
    · rwa [Function.update_of_ne hh] at huc'

theorem held_pop (h : st.pop = some (np, st')) :
    st.heldRecords = st'.heldRecords ∧
      st.heldPayloads = st'.heldPayloads + blockOf np.buffer.addr ∧ st'.chain = st.chain ∧
      st'.memory = st.memory := by
  rw [pop] at h
  rcases hq : st.queue with _ | q
  · rw [hq] at h
    cases h
  rw [hq] at h
  obtain ⟨⟨np, q'⟩, hpop, heq⟩ := Option.map_eq_some_iff.mp h
  cases heq
  obtain ⟨hlist, hhash⟩ := Queue.pop_eq_some hpop
  have hchain : st.chain = q'.hash := by
    funext h
    rw [chain, getQueue, hq, hhash]
    rfl
  have hpacks : st.packs = np :: q'.toList := by
    rw [packs, getQueue, hq, ← hlist]
    rfl
  refine ⟨?_, ?_, hchain.symm, rfl⟩
  · rw [heldRecords, hchain]
    rfl
  · rw [heldPayloads, recordPayloads, hchain, hpacks, packPayloads_cons, ← add_assoc]
    rfl

end State

end Held

/-! ### What a function does -/

/-- The addresses are not `NULL`, and a record that has half of a length has no payload. -/
structure State.Headers (st : State) : Prop where
  pos : 0 < st.memory.next
  header : ∀ h, ∀ uc ∈ st.chain h, uc.read < 0 → uc.read = -1 ∧ uc.pack.buffer.addr = 0

/-- The state, and the records and payloads that a function has in hand. -/
structure Hands where
  st : State
  records : Multiset ℕ
  payloads : Multiset ℕ

/-- What a function does to the blocks: it makes the records `r` and the payloads `p`, and what is
neither held nor in hand afterwards is freed. -/
structure Moves (c c' : Hands) (r p : Multiset ℕ) : Prop where
  balance : ∃ fr fp, c'.st.heldRecords + c'.records + fr = c.st.heldRecords + c.records + r ∧
    c'.st.heldPayloads + c'.payloads + fp = c.st.heldPayloads + c.payloads + p ∧
    c'.st.freed = c.st.freed + (fr + fp)
  made : Multiset.range c'.st.memory.next = Multiset.range c.st.memory.next + (r + p)
  headers : c.st.Headers → c'.st.Headers

theorem range_next (next : ℕ) : Multiset.range (next + 1) = Multiset.range next + {next} := by
  rw [Multiset.range_succ, add_comm, Multiset.singleton_add]

namespace Moves

variable {c c' c'' : Hands} {r r' p p' : Multiset ℕ} {st : State} {hr hp : Multiset ℕ}

theorem trans (h : Moves c c' r p) (h' : Moves c' c'' r' p') :
    Moves c c'' (r + r') (p + p') := by
  obtain ⟨fr, fp, hrecords, hpayloads, hfreed⟩ := h.balance
  obtain ⟨fr', fp', hrecords', hpayloads', hfreed'⟩ := h'.balance
  refine ⟨⟨fr + fr', fp + fp', ?_, ?_, ?_⟩, ?_, h'.headers ∘ h.headers⟩
  · rw [add_comm fr, ← add_assoc, hrecords', add_right_comm, hrecords, add_assoc]
  · rw [add_comm fp, ← add_assoc, hpayloads', add_right_comm, hpayloads, add_assoc]
  · rw [hfreed', hfreed, add_assoc, add_add_add_comm]
  · rw [h'.made, h.made, add_assoc, add_add_add_comm]

/-- A step that makes nothing, in front of another one. -/
theorem before (h : Moves c c' 0 0) (h' : Moves c' c'' r p) : Moves c c'' r p := by
  have := h.trans h'
  rwa [zero_add, zero_add] at this

/-- Only what is held, the blocks in hand and the memory matter. -/
theorem of_held {hr' hp' : Multiset ℕ} {st' : State} (hmemory : st'.memory = st.memory)
    (hrecords : st'.heldRecords + hr' = st.heldRecords + hr)
    (hpayloads : st'.heldPayloads + hp' = st.heldPayloads + hp)
    (hheaders : st.Headers → st'.Headers) : Moves ⟨st, hr, hp⟩ ⟨st', hr', hp'⟩ 0 0 where
  balance := by
    refine ⟨0, 0, ?_, ?_, ?_⟩
    · rw [add_zero, add_zero, hrecords]
    · rw [add_zero, add_zero, hpayloads]
    · rw [State.freed, hmemory, add_zero, add_zero]
      rfl
  made := by rw [hmemory, add_zero, add_zero]
  headers := hheaders

theorem mallocRecord :
    Moves ⟨st, hr, hp⟩ ⟨{ st with memory := st.memory.malloc.2 }, hr + {st.memory.next}, hp⟩
      {st.memory.next} 0 where
  balance := ⟨0, 0, by rw [add_zero, ← add_assoc]; rfl, rfl, by rw [add_zero, add_zero]; rfl⟩
  made := by
    rw [add_zero]
    exact range_next _
  headers h := ⟨Nat.succ_pos _, h.header⟩

theorem mallocPayload :
    Moves ⟨st, hr, hp⟩ ⟨{ st with memory := st.memory.malloc.2 }, hr, hp + {st.memory.next}⟩
      0 {st.memory.next} where
  balance := ⟨0, 0, rfl, by rw [add_zero, ← add_assoc]; rfl, by rw [add_zero, add_zero]; rfl⟩
  made := by
    rw [zero_add]
    exact range_next _
  headers h := ⟨Nat.succ_pos _, h.header⟩

theorem freeRecord {addr : ℕ} : Moves ⟨st, hr + {addr}, hp⟩
    ⟨{ st with memory := st.memory.free addr }, hr, hp⟩ 0 0 where
  balance := by
    refine ⟨{addr}, 0, by rw [add_zero, add_assoc]; rfl, rfl, ?_⟩
    rw [add_zero]
    exact (Multiset.coe_add _ _).symm
  made := by rw [add_zero, add_zero]; rfl
  headers h := ⟨h.pos, h.header⟩

theorem freePayload {addr : ℕ} : Moves ⟨st, hr, hp + blockOf addr⟩
    ⟨{ st with memory := freePointer st.memory addr }, hr, hp⟩ 0 0 := by
  rw [blockOf, freePointer]
  split_ifs
  · rw [add_zero]
    exact of_held rfl rfl rfl fun h => ⟨h.pos, h.header⟩
  · refine ⟨⟨0, {addr}, rfl, by rw [add_zero, add_assoc]; rfl, ?_⟩, by rw [add_zero, add_zero]; rfl,
      fun h => ⟨h.pos, h.header⟩⟩
    rw [zero_add]
    exact (Multiset.coe_add _ _).symm

theorem link (uc : Uncomplete) (huc : uc.read < 0 → uc.read = -1 ∧ uc.pack.buffer.addr = 0) :
    Moves ⟨st, hr + {uc.addr}, hp + blockOf uc.pack.buffer.addr⟩ ⟨st.link uc, hr, hp⟩ 0 0 := by
  refine of_held rfl ?_ ?_ fun h => ⟨h.pos, fun i uc' hmem => ?_⟩
  · rw [State.heldRecords_link, add_right_comm, add_assoc]
  · rw [State.heldPayloads_link, add_right_comm, add_assoc]
  · change uc' ∈ Function.update st.getQueue.hash (hashFd uc.pack.id)
      (uc :: st.getQueue.hash (hashFd uc.pack.id)) i at hmem
    by_cases hi : i = hashFd uc.pack.id
    · subst hi
      rw [Function.update_self] at hmem
      rcases mem_cons.mp hmem with rfl | hmem
      · exact huc
      · exact h.header _ uc' hmem
    · rw [Function.update_of_ne hi] at hmem
      exact h.header i uc' hmem

theorem pushData (fd : Int32) (buffer : Block) (size : ℕ) :
    Moves ⟨st, hr, hp + blockOf buffer.addr⟩ ⟨st.pushData fd buffer size, hr, hp⟩ 0 0 := by
  refine of_held rfl ?_ ?_ fun h => ⟨h.pos, ?_⟩
  · rw [State.heldRecords_pushData]
  · rw [State.heldPayloads_pushData, add_right_comm, add_assoc]
  · rw [State.chain_pushData]
    exact h.header

theorem findUncomplete {fd : Int32} {uc : Uncomplete} {st' : State}
    (h : st.findUncomplete fd = some (uc, st')) :
    Moves ⟨st, hr, hp⟩ ⟨st', hr + {uc.addr}, hp + blockOf uc.pack.buffer.addr⟩ 0 0 := by
  obtain ⟨hrecords, hpayloads, -, hchain, hmemory⟩ := State.held_findUncomplete h
  refine of_held hmemory ?_ ?_ fun h => ⟨hmemory ▸ h.pos, fun i uc hmem => ?_⟩
  · rw [hrecords, add_right_comm, add_assoc]
  · rw [hpayloads, add_right_comm, add_assoc]
  · exact h.header i uc (hchain i uc hmem)

theorem pop {np : Pack} {st' : State} (h : st.pop = some (np, st')) :
    Moves ⟨st, hr, hp⟩ ⟨st', hr, hp + blockOf np.buffer.addr⟩ 0 0 := by
  obtain ⟨hrecords, hpayloads, hchain, hmemory⟩ := State.held_pop h
  refine of_held hmemory ?_ ?_ fun h => ⟨hmemory ▸ h.pos, hchain ▸ h.header⟩
  · rw [hrecords]
  · rw [hpayloads, add_right_comm, add_assoc]

theorem closeUncomplete (fd : Int32) : Moves ⟨st, hr, hp⟩ ⟨st.closeUncomplete fd, hr, hp⟩ 0 0 := by
  rw [State.closeUncomplete]
  rcases hfind : st.findUncomplete fd with _ | ⟨uc, st'⟩
  · exact of_held rfl rfl rfl id
  · exact (findUncomplete hfind).before (freePayload.before freeRecord)

end Moves

/-- A function ends with nothing in hand but what it hands to Lua, and the records that it has made
are in the hash table. -/
def Ends (c : Hands) (st' : State) (handed : Multiset ℕ) : Prop :=
  ∃ r p, Moves c ⟨st', 0, handed⟩ r p ∧ ∀ a ∈ r, a ∈ st'.heldRecords

namespace Ends

variable {c c' : Hands} {st st' : State} {p handed : Multiset ℕ} {fd : Int32}

theorem of_moves (h : Moves c ⟨st', 0, handed⟩ 0 p) : Ends c st' handed :=
  ⟨0, p, h, fun a ha => absurd ha (Multiset.notMem_zero a)⟩

theorem before (h : Moves c c' 0 p) (h' : Ends c' st' handed) : Ends c st' handed := by
  obtain ⟨r, p', hmoves, hmem⟩ := h'
  refine ⟨r, p + p', ?_, hmem⟩
  have := h.trans hmoves
  rwa [zero_add] at this

theorem blockOf_pos {addr : ℕ} (h : 0 < addr) : blockOf addr = {addr} :=
  if_neg h.ne'

theorem saveHeader (fd : Int32) (header : UInt8) : Ends ⟨st, 0, 0⟩ (st.saveHeader fd header) 0 := by
  have hlink : Moves ⟨{ st with memory := st.memory.malloc.2 }, 0 + {st.memory.next}, 0 + blockOf 0⟩
      ⟨st.saveHeader fd header, 0, 0⟩ 0 0 :=
    Moves.link ⟨st.memory.malloc.1, ⟨fd, 0, ⟨0, []⟩⟩, -1, header.toNat⟩ fun _ => ⟨rfl, rfl⟩
  refine ⟨_, _, Moves.mallocRecord.trans hlink, fun a ha => ?_⟩
  rw [add_zero] at ha
  rw [State.saveHeader, State.heldRecords_link]
  exact Multiset.mem_add.mpr (Or.inr ha)

theorem savePart (fd : Int32) (packSize : ℕ) (bytes : List UInt8) :
    Ends ⟨st, 0, 0⟩ (st.savePart fd packSize bytes) 0 := by
  have hlink : Moves ⟨{ st with memory := st.memory.malloc.2.malloc.2 }, 0 + {st.memory.next},
      0 + {st.memory.next + 1}⟩ ⟨st.savePart fd packSize bytes, 0, 0⟩ 0 0 :=
    Moves.link ⟨st.memory.malloc.1, ⟨fd, packSize, ⟨st.memory.malloc.2.malloc.1, bytes⟩⟩,
      bytes.length, 0⟩ fun h => absurd h (not_lt.mpr (Int.natCast_nonneg _))
  refine ⟨_, _, Moves.mallocRecord.trans (Moves.mallocPayload.trans hlink), fun a ha => ?_⟩
  rw [add_zero, add_zero] at ha
  rw [State.savePart, State.heldRecords_link]
  exact Multiset.mem_add.mpr (Or.inr ha)

theorem pushClone (hst : st.Headers) (fd : Int32) (bytes : List UInt8) (size : ℕ) :
    Moves ⟨st, 0, 0⟩ ⟨st.pushClone fd bytes size, 0, 0⟩ 0 {st.memory.next} := by
  have hpush : Moves ⟨{ st with memory := st.memory.malloc.2 }, 0, 0 + {st.memory.next}⟩
      ⟨st.pushClone fd bytes size, 0, 0⟩ 0 0 := by
    rw [← blockOf_pos hst.pos]
    exact Moves.pushData fd ⟨st.memory.malloc.1, bytes⟩ size
  have := Moves.mallocPayload.trans hpush
  rwa [zero_add, add_zero] at this

theorem pushMore (hst : st.Headers) (fd : Int32) {bytes : List UInt8} (hne : bytes ≠ []) :
    ∃ st', st.pushMore fd bytes = .ok st' ∧ Ends ⟨st, 0, 0⟩ st' 0 := by
  induction hn : bytes.length using Nat.strongRecOn generalizing st bytes with
  | _ n ih =>
    match bytes with
    | [] => exact absurd rfl hne
    | [header] =>
      rw [State.pushMore]
      exact ⟨_, rfl, saveHeader fd header⟩
    | first :: second :: buffer =>
      rw [State.pushMore]
      simp only
      split_ifs with hpart hrest
      · exact ⟨_, rfl, savePart fd _ buffer⟩
      · have hclone := pushClone hst fd (buffer.take (readSize first second))
          (readSize first second)
        obtain ⟨st', heq, hends⟩ := ih _ (by
          rw [← hn, length_drop, length_cons, length_cons]
          omega) (hclone.headers hst) (ne_nil_of_length_pos hrest) rfl
        exact ⟨st', heq, hends.before hclone⟩
      · exact ⟨_, rfl, of_moves (pushClone hst fd _ _)⟩

theorem fill (hst : st.Headers) (fd : Int32) (uc : Uncomplete) (hread : 0 ≤ uc.read) (buffer : List UInt8) :
    ∃ result st', st.fill fd uc buffer = .ok (result, st') ∧
      Ends ⟨st, {uc.addr}, blockOf uc.pack.buffer.addr⟩ st' result.handed := by
  have hhand : Hands.mk st {uc.addr} (blockOf uc.pack.buffer.addr) =
      ⟨st, 0 + {uc.addr}, 0 + blockOf uc.pack.buffer.addr⟩ := by
    rw [zero_add, zero_add]
  rw [State.fill, hhand]
  simp only
  split_ifs with hpart hrest
  · refine ⟨_, _, rfl, of_moves (p := 0) ?_⟩
    refine Moves.link { uc with
      pack.buffer.bytes := uc.pack.buffer.bytes ++ buffer
      read := uc.read + buffer.length } fun h => absurd h (not_lt.mpr ?_)
    exact add_nonneg hread (Int.natCast_nonneg _)
  · refine ⟨_, _, rfl, of_moves (p := 0) ?_⟩
    rw [zero_add (blockOf _)]
    exact Moves.freeRecord
  · have hpush := @Moves.pushData st (0 + {uc.addr}) 0 fd
      ⟨uc.pack.buffer.addr, uc.pack.buffer.bytes ++ buffer.take (uc.pack.size - uc.read).toNat⟩
      uc.pack.size
    have hfree := hpush.before Moves.freeRecord
    obtain ⟨st', heq, hends⟩ := pushMore (hfree.headers hst) fd
      (mt length_eq_zero_iff.mpr hrest)
    rw [heq]
    exact ⟨_, _, rfl, hends.before hfree⟩

theorem filterChunk (hst : st.Headers) (fd : Int32) {bytes : List UInt8} (hne : bytes ≠ []) :
    ∃ result st', st.filterChunk fd bytes = .ok (result, st') ∧
      Ends ⟨st, 0, 0⟩ st' result.handed := by
  unfold State.filterChunk
  rcases hfind : st.findUncomplete fd with _ | ⟨uc, st₁⟩
  · rcases bytes with _ | ⟨first, _ | ⟨second, buffer⟩⟩
    · exact absurd rfl hne
    · exact ⟨_, _, rfl, saveHeader fd first⟩
    · simp only
      split_ifs with hpart hall
      · exact ⟨_, _, rfl, savePart fd _ buffer⟩
      · refine ⟨_, _, rfl, of_moves (p := {st.memory.next}) ?_⟩
        have hmalloc := @Moves.mallocPayload st 0 0
        rw [zero_add] at hmalloc
        rw [Result.handed, blockOf_pos (show 0 < st.memory.malloc.1 from hst.pos)]
        exact hmalloc
      · have hclone := pushClone hst fd (buffer.take (readSize first second))
          (readSize first second)
        have hrest : buffer.drop (readSize first second) ≠ [] := by
          refine ne_nil_of_length_pos ?_
          rw [length_drop]
          omega
        obtain ⟨st', heq, hends⟩ := pushMore (hclone.headers hst) fd hrest
        rw [heq]
        exact ⟨_, _, rfl, hends.before hclone⟩
  · have hfound := @Moves.findUncomplete st 0 0 fd uc st₁ hfind
    obtain ⟨-, -, hmem, -, -⟩ := State.held_findUncomplete hfind
    have hst₁ := hfound.headers hst
    by_cases hread : uc.read < 0
    · obtain ⟨hminus, hnull⟩ := hst.header _ uc hmem hread
      rcases bytes with _ | ⟨second, buffer⟩
      · exact absurd rfl hne
      simp only [hminus, ne_eq, not_true_eq_false, if_false, Int.reduceNeg, Int.reduceLT, if_true]
      have hmalloc := @Moves.mallocPayload st₁ {uc.addr} 0
      rw [hnull, zero_add, show blockOf 0 = 0 from rfl, zero_add] at hfound
      obtain ⟨result, st', heq, hends⟩ := fill (hmalloc.headers hst₁) fd { uc with
        pack.size := second.toNat ||| uc.header <<< 8
        pack.buffer := ⟨st₁.memory.malloc.1, []⟩
        read := 0 } le_rfl buffer
      refine ⟨result, st', heq, before hfound (before hmalloc ?_)⟩
      rwa [zero_add, ← blockOf_pos hst₁.pos]
    · obtain ⟨result, st', heq, hends⟩ := fill hst₁ fd uc (not_lt.mp hread) bytes
      simp only [if_neg hread]
      rw [zero_add, zero_add] at hfound
      exact ⟨result, st', heq, before hfound hends⟩

end Ends

/-! ### `netpack.clear` -/

section Clear

variable {st : State}

theorem freed_clearList (m : Memory) (chain : List Uncomplete) :
    ((clearList m chain).freed : Multiset ℕ) = m.freed + chainRecords chain := by
  induction chain generalizing m with
  | nil => exact (add_zero _).symm
  | cons uc chain ih =>
    rw [clearList, foldl_cons]
    refine (ih _).trans ?_
    rw [chainRecords_cons, ← Multiset.coe_singleton, ← add_assoc, add_right_comm,
      Multiset.coe_add _ [uc.addr]]
    rfl

theorem freed_freePointer (m : Memory) (addr : ℕ) :
    ((freePointer m addr).freed : Multiset ℕ) = m.freed + blockOf addr := by
  rw [freePointer, blockOf]
  split_ifs
  · rw [add_zero]
  · exact (Multiset.coe_add _ _).symm

theorem freed_freePointers {α : Type*} (addr : α → ℕ) (l : List α) (m : Memory) :
    ((l.foldl (fun m i => freePointer m (addr i)) m).freed : Multiset ℕ) =
      m.freed + (l.map fun i => blockOf (addr i)).sum := by
  induction l generalizing m with
  | nil => exact (add_zero _).symm
  | cons i l ih =>
    rw [foldl_cons, ih, freed_freePointer, map_cons, sum_cons, add_assoc]

/-- The packages between the head and the tail, also if the tail is in front of the head. -/
theorem Queue.toList_eq (q : Queue) : q.toList = (List.range' q.head
    ((if q.head > q.tail then q.tail + q.cap else q.tail) - q.head)).map
      fun i => q.queue (i % q.cap) := by
  have hhead := q.head_lt
  have htail := q.tail_lt
  have hcount : Ring.count q.cap q.head q.tail =
      (if q.head > q.tail then q.tail + q.cap else q.tail) - q.head := by
    rw [Ring.count]
    split_ifs with h
    · exact Nat.mod_eq_of_lt (by omega)
    · rw [show q.tail + q.cap - q.head = q.tail - q.head + q.cap by omega, Nat.add_mod_right]
      exact Nat.mod_eq_of_lt (by omega)
  rw [Queue.toList, Ring.window, hcount, range'_eq_map_range, map_map]
  rfl

theorem State.freed_clear (st : State) :
    st.clear.freed = st.freed + (st.heldRecords + packPayloads st.packs) := by
  rcases hq : st.queue with _ | q
  · have hrecords : st.heldRecords = 0 := by
      rw [State.heldRecords, Sums.total_eq_zero_iff]
      intro j _
      rw [State.chain, State.getQueue, hq]
      rfl
    have hpacks : st.packs = [] := by
      rw [State.packs, State.getQueue, hq]
      exact Queue.toList_new
    rw [State.clear, hq, hrecords, hpacks]
    exact (add_zero _).symm
  · have hrecords : st.heldRecords = Sums.total hashSize chainRecords q.hash := by
      rw [State.heldRecords]
      refine congrArg _ (funext fun h => ?_)
      rw [State.chain, State.getQueue, hq]
      rfl
    have hpacks : st.packs = q.toList := by
      rw [State.packs, State.getQueue, hq]
      rfl
    have hlist := Sums.foldl_range_total (n := hashSize) chainRecords q.hash
      (fun m i => clearList m (q.hash i)) (fun m => (m.freed : Multiset ℕ))
      (fun m i => freed_clearList m (q.hash i)) st.memory
    rw [State.clear, hq, State.freed, freed_freePointers, hlist, hrecords, hpacks,
      Queue.toList_eq, packPayloads, map_map, add_assoc]
    rfl

end Clear

/-! ### Between the calls -/

/-- Every record is in the hash table or was freed; every payload is in the hash table or in the
queue, was handed to Lua or was freed; every chunk was freed. -/
structure Balanced (l : Ledger) : Prop where
  balance : ∃ fr fp, l.st.heldRecords + fr = l.records ∧
    l.st.heldPayloads + l.handed + fp = l.payloads ∧ l.st.freed = fr + fp + l.chunks
  made : Multiset.range l.st.memory.next = {0} + (l.records + l.payloads)
  headers : l.st.Headers

namespace Balanced

variable {l l' : Ledger} {st : State} {r p handed : Multiset ℕ}

theorem init : Balanced Ledger.init where
  balance := by
    refine ⟨0, 0, ?_, ?_, rfl⟩
    · rw [add_zero]
      exact Sums.total_eq_zero_iff.mpr fun _ _ => rfl
    · rw [add_zero]
      have hrecords : State.init.recordPayloads = 0 := Sums.total_eq_zero_iff.mpr fun _ _ => rfl
      have hpacks : State.init.packs = [] := Queue.toList_new
      rw [Ledger.init, State.heldPayloads, hrecords, hpacks]
      rfl
  made := rfl
  headers := ⟨Nat.one_pos, fun _ _ huc => absurd huc not_mem_nil⟩

section

variable (hl : Balanced l)
include hl

theorem moves (h : Moves ⟨l.st, 0, 0⟩ ⟨st, 0, handed⟩ r p) :
    Balanced ⟨st, l.records + r, l.payloads + p, l.chunks, l.handed + handed⟩ := by
  obtain ⟨fr, fp, hrecords, hpayloads, hfreed⟩ := hl.balance
  obtain ⟨fr', fp', hrecords', hpayloads', hfreed'⟩ := h.balance
  simp only [add_zero] at hrecords' hpayloads' hfreed'
  refine ⟨⟨fr + fr', fp + fp', ?_, ?_, ?_⟩, ?_, h.headers hl.headers⟩
  · rw [← hrecords, add_comm fr, ← add_assoc, hrecords', add_right_comm]
  · calc st.heldPayloads + (l.handed + handed) + (fp + fp')
        = (st.heldPayloads + handed + fp') + (l.handed + fp) := by abel
      _ = l.payloads + p := by
        rw [hpayloads', ← hpayloads]
        abel
  · rw [hfreed', hfreed]
    abel
  · rw [h.made, hl.made, add_assoc, add_add_add_comm]

theorem freeChunk (addr : ℕ) :
    Balanced { l with
      st := { l.st with memory := l.st.memory.free addr }
      chunks := l.chunks + {addr} } := by
  obtain ⟨fr, fp, hrecords, hpayloads, hfreed⟩ := hl.balance
  refine ⟨⟨fr, fp, hrecords, hpayloads, ?_⟩, hl.made, ⟨hl.headers.pos, hl.headers.header⟩⟩
  rw [← add_assoc, ← hfreed]
  exact (Multiset.coe_add _ _).symm

theorem nodup : (l.records + l.payloads).Nodup := by
  have h := Multiset.nodup_range l.st.memory.next
  rw [hl.made] at h
  exact (Multiset.nodup_add.mp h).2.1

/-- The records that a call has made are those that it leaves in the hash table. -/
theorem made_eq (h : Moves ⟨l.st, 0, 0⟩ ⟨st, 0, handed⟩ r p) (hmem : ∀ a ∈ r, a ∈ st.heldRecords) :
    l.st.recordsMade st = r ∧ l.st.payloadsMade st = p := by
  have hnew : ∀ a ∈ r + p, l.st.memory.next ≤ a := by
    intro a ha
    have hnodup := Multiset.nodup_range st.memory.next
    rw [h.made] at hnodup
    have hdisjoint := (Multiset.nodup_add.mp hnodup).2.2
    exact not_lt.mp fun hlt =>
      Multiset.disjoint_left.mp hdisjoint (Multiset.mem_range.mpr hlt) ha
  have hold : ∀ a ∈ Multiset.range l.st.memory.next, ¬l.st.memory.next ≤ a := fun a ha =>
    not_le.mpr (Multiset.mem_range.mp ha)
  have hpayload : ∀ a ∈ p, a ∉ st.heldRecords := by
    intro a hp ha
    have hl' := hl.moves h
    obtain ⟨fr, -, hrecords, -, -⟩ := hl'.balance
    change st.heldRecords + fr = l.records + r at hrecords
    have hr : a ∈ l.records + r := by
      rw [← hrecords]
      exact Multiset.mem_add.mpr (Or.inl ha)
    have hdisjoint := (Multiset.nodup_add.mp hl'.nodup).2.2
    exact Multiset.disjoint_left.mp hdisjoint hr (Multiset.mem_add.mpr (Or.inr hp))
  rw [State.recordsMade, State.payloadsMade, h.made]
  simp only [Multiset.filter_add]
  constructor
  · rw [Multiset.filter_eq_nil.mpr fun a ha hle => hold a ha hle.1,
      Multiset.filter_eq_self.mpr fun a ha =>
        ⟨hnew a (Multiset.mem_add.mpr (Or.inl ha)), hmem a ha⟩,
      Multiset.filter_eq_nil.mpr fun a ha hle => hpayload a ha hle.2, zero_add, add_zero]
  · rw [Multiset.filter_eq_nil.mpr fun a ha hle => hold a ha hle.1,
      Multiset.filter_eq_nil.mpr fun a ha hle => hle.2 (hmem a ha),
      Multiset.filter_eq_self.mpr fun a ha =>
        ⟨hnew a (Multiset.mem_add.mpr (Or.inr ha)), hpayload a ha⟩, zero_add, zero_add]

/-- **Between the calls every block is accounted for.** -/
theorem step (event : Event) (hne : ∀ fd chunk, event = .data fd chunk → chunk.bytes ≠ []) :
    ∃ l', l.step event = .ok l' ∧ Balanced l' := by
  have hclose (fd : Int32) : Balanced { l with st := l.st.closeUncomplete fd } := by
    have h := hl.moves (Moves.closeUncomplete fd)
    simp only [add_zero] at h
    exact h
  cases event with
  | data fd chunk =>
    obtain ⟨result, st', heq, r, p, hmoves, hmem⟩ :=
      Ends.filterChunk hl.headers fd (hne fd chunk rfl)
    obtain ⟨hr, hp⟩ := hl.made_eq hmoves hmem
    have hfilter : l.st.filterData fd chunk =
        .ok (result, { st' with memory := st'.memory.free chunk.addr }) := by
      rw [State.filterData, heq]
    rw [Ledger.step, hfilter]
    refine ⟨_, rfl, ?_⟩
    have hfreed := (hl.moves hmoves).freeChunk chunk.addr
    rw [← hr, ← hp] at hfreed
    exact hfreed
  | close fd => exact ⟨_, rfl, hclose fd⟩
  | error fd => exact ⟨_, rfl, hclose fd⟩
  | pop =>
    rw [Ledger.step]
    rcases hpop : l.st.pop with _ | ⟨np, st'⟩
    · exact ⟨l, rfl, hl⟩
    · have h := hl.moves (@Moves.pop l.st 0 0 np st' hpop)
      simp only [add_zero, zero_add] at h
      exact ⟨_, rfl, h⟩

theorem run (events : List Event) (hne : ∀ fd chunk, .data fd chunk ∈ events → chunk.bytes ≠ []) :
    ∃ l', l.run events = .ok l' ∧ Balanced l' := by
  induction events generalizing l with
  | nil => exact ⟨l, rfl, hl⟩
  | cons event events ih =>
    obtain ⟨l₁, heq, hl₁⟩ := hl.step event fun fd chunk hevent =>
      hne fd chunk (hevent ▸ mem_cons_self)
    rw [Ledger.run, heq]
    exact ih hl₁ fun fd chunk hmem => hne fd chunk (mem_cons_of_mem _ hmem)

theorem settled_clear_iff : l.clear.Settled ↔ l.st.recordPayloads = 0 := by
  obtain ⟨fr, fp, hrecords, hpayloads, hfreed⟩ := hl.balance
  have hclear : l.clear.st.freed = fp + packPayloads l.st.packs + l.records + l.chunks := by
    rw [Ledger.clear, State.freed_clear, hfreed, ← hrecords]
    abel
  have hheld : l.handed + (fp + packPayloads l.st.packs) + l.st.recordPayloads = l.payloads := by
    rw [← hpayloads, State.heldPayloads]
    abel
  constructor
  · rintro ⟨freed, hhanded, hsettled⟩
    rw [hclear] at hsettled
    have hsame : fp + packPayloads l.st.packs = freed :=
      add_right_cancel (add_right_cancel hsettled)
    rw [hsame] at hheld
    exact add_eq_left.mp (hheld.trans hhanded.symm)
  · intro hzero
    rw [hzero, add_zero] at hheld
    exact ⟨_, hheld, hclear⟩

end

theorem of_recordPayloads (hl : Balanced l) {a : ℕ} (ha : a ∈ l.st.recordPayloads) :
    a ∈ l.payloads ∧ a ∉ l.st.heldRecords := by
  obtain ⟨fr, fp, hrecords, hsum, -⟩ := hl.balance
  have hpayload : a ∈ l.payloads := by
    rw [← hsum, State.heldPayloads]
    simp only [Multiset.mem_add, ha, true_or]
  refine ⟨hpayload, fun hmem => ?_⟩
  have hdisjoint := (Multiset.nodup_add.mp hl.nodup).2.2
  refine Multiset.disjoint_left.mp hdisjoint ?_ hpayload
  rw [← hrecords]
  exact Multiset.mem_add.mpr (Or.inl hmem)

end Balanced

theorem blockOf_eq_zero_iff {addr : ℕ} : blockOf addr = 0 ↔ addr = 0 := by
  rw [blockOf]
  split_ifs with h
  · exact iff_of_true rfl h
  · exact iff_of_false (Multiset.singleton_ne_zero addr) h

theorem State.recordPayloads_eq_zero_iff {st : State} : st.recordPayloads = 0 ↔
    ∀ h < hashSize, ∀ uc ∈ st.chain h, uc.pack.buffer.addr = 0 := by
  rw [State.recordPayloads, Sums.total_eq_zero_iff]
  simp only [chainPayloads, sum_eq_zero_iff, forall_mem_map, blockOf_eq_zero_iff]

/-- **Every buffer is settled once, if no record has a payload in the end.** Data, close and error
messages of any connections, without empty chunks, and calls of `netpack.pop` come in any order, and
then `netpack.clear`. No assertion fails, and no block is made twice; every payload is handed to Lua
or freed once and every record and every chunk is freed once, if and only if `lclear` finds no
record that has a payload. -/
theorem buffers_settled_iff {events : List Event}
    (hne : ∀ fd chunk, .data fd chunk ∈ events → chunk.bytes ≠ []) :
    ∃ l, Ledger.init.run events = .ok l ∧ (l.records + l.payloads).Nodup ∧
      (l.clear.Settled ↔ ∀ h < hashSize, ∀ uc ∈ l.st.chain h, uc.pack.buffer.addr = 0) := by
  obtain ⟨l, heq, hl⟩ := Balanced.init.run events hne
  exact ⟨l, heq, hl.nodup, hl.settled_clear_iff.trans State.recordPayloads_eq_zero_iff⟩

/-- A package in one piece, and a connection that is closed. -/
theorem buffers_settled_iff_closed :
    ∃ l, Ledger.init.run [.data 2 ⟨100, [0, 1, 9]⟩, .close 2] = .ok l ∧ l.clear.Settled := by
  obtain ⟨l, heq, -, hiff⟩ := @buffers_settled_iff
    [.data 2 ⟨100, [0, 1, 9]⟩, .close 2] (by simp)
  refine ⟨l, heq, hiff.mpr fun h _ uc huc => ?_⟩
  have hqueue : l.st.queue = none := by
    cases heq
    rfl
  rw [State.chain, State.getQueue, hqueue] at huc
  exact absurd huc List.not_mem_nil

theorem run_part {l : Ledger} (h : Ledger.init.run [.data 2 ⟨100, [0, 5, 1]⟩] = .ok l) :
    l.st = { State.init.savePart 2 5 [1] with memory := ⟨3, [100]⟩ } ∧ l.handed = 0 := by
  cases h
  exact ⟨rfl, rfl⟩

/-- A part of a package has come when `netpack.clear` is called: its payload, the block `2`, is
neither handed to Lua nor freed. -/
theorem payload_leaks :
    ∃ l, Ledger.init.run [.data 2 ⟨100, [0, 5, 1]⟩] = .ok l ∧ 2 ∈ l.payloads ∧ 2 ∉ l.handed ∧
      2 ∉ l.clear.st.freed ∧ ¬l.clear.Settled := by
  obtain ⟨l, heq, hl⟩ := Balanced.init.run [.data 2 ⟨100, [0, 5, 1]⟩] (by simp)
  obtain ⟨hst, hhanded⟩ := run_part heq
  have hchain : l.st.chain (hashFd 2) = [⟨1, ⟨2, 5, ⟨2, [1]⟩⟩, 1, 0⟩] := by
    rw [hst]
    rfl
  have hheld : 2 ∈ l.st.recordPayloads :=
    Sums.mem_total.mpr ⟨hashFd 2, hashFd_lt 2, by rw [hchain]; decide⟩
  obtain ⟨hpayload, hrecord⟩ := hl.of_recordPayloads hheld
  have hfreed : l.st.freed = {100} := by
    rw [State.freed, hst]
    rfl
  have hpacks : l.st.packs = [] := by
    rw [hst]
    exact Queue.toList_new
  refine ⟨l, heq, hpayload, hhanded ▸ Multiset.notMem_zero 2, ?_, fun hsettled => ?_⟩
  · rw [Ledger.clear, State.freed_clear, hfreed, hpacks, show packPayloads [] = 0 from rfl,
      add_zero]
    intro hmem
    rcases Multiset.mem_add.mp hmem with hchunk | hmem
    · exact absurd (Multiset.mem_singleton.mp hchunk) (by decide)
    · exact hrecord hmem
  · rw [hl.settled_clear_iff] at hsettled
    rw [hsettled] at hheld
    exact Multiset.notMem_zero 2 hheld

end Mtask.Netpack
