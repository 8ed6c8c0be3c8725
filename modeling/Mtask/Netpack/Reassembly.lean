import Mtask.Lib.Framing
import Mtask.Netpack.Filter

/-!
# The packages of a connection

The chunks of any number of connections are filtered in the order in which they arrive. For each
connection the record in the hash table holds what has arrived of its next package, and the packages
that are handed out are those of its stream.
-/

namespace Mtask.Netpack

open Function (update update_eq_self update_idem update_of_ne update_self)
open List

/-- The packages of a stream. -/
def frames : Incremental.Cutter UInt8 (List UInt8) :=
  Framing.cutter 2 (by decide) fun _ => false

/-- The packages that are complete in what has arrived of a stream. -/
def packages (bytes : List UInt8) : List (List UInt8) :=
  (frames.decode bytes).1

/-- A package as the consumer sees it. -/
def Pack.view (np : Pack) : Int32 × ℕ × List UInt8 :=
  (np.id, np.size, np.buffer.bytes)

/-- A package of the connection `fd` with its length. -/
def viewOf (fd : Int32) (payload : List UInt8) : Int32 × ℕ × List UInt8 :=
  (fd, payload.length, payload)

/-! ### Cutting the stream -/

section Cut

variable {first second : UInt8} {buffer : List UInt8}

theorem readSize_eq (first second : UInt8) :
    readSize first second = Framing.ofBytes [first, second] := by
  rw [readSize, Framing.shiftLeft_or_byte]
  simp [Framing.ofBytes]

theorem decode_of_cut (h : Framing.cut 2 buffer = none) :
    frames.decode buffer = ([], some buffer) :=
  Incremental.Cutter.decode_of_none h

theorem decode_nil : frames.decode [] = ([], some []) :=
  decode_of_cut (Framing.cut_eq_none (Or.inl Nat.zero_lt_two))

theorem decode_header (b : UInt8) : frames.decode [b] = ([], some [b]) :=
  decode_of_cut (Framing.cut_eq_none (Or.inl Nat.one_lt_two))

theorem decode_part (h : buffer.length < readSize first second) :
    frames.decode (first :: second :: buffer) = ([], some (first :: second :: buffer)) := by
  refine decode_of_cut (Framing.cut_eq_none (Or.inr ?_))
  exact ⟨[first, second], buffer, rfl, rfl, by rwa [← readSize_eq]⟩

theorem decode_package (h : readSize first second ≤ buffer.length) :
    frames.decode (first :: second :: buffer) =
      (buffer.take (readSize first second) ::
          (frames.decode (buffer.drop (readSize first second))).1,
        (frames.decode (buffer.drop (readSize first second))).2) := by
  have hlen : Framing.ofBytes [first, second] = (buffer.take (readSize first second)).length := by
    rw [length_take_of_le h, readSize_eq]
  have hcut := Framing.cut_frame rfl hlen (buffer.drop (readSize first second))
  rw [take_append_drop] at hcut
  exact Incremental.Cutter.decode_of_some hcut rfl

/-- What is kept of a stream. -/
def kept (bytes : List UInt8) : List UInt8 :=
  (frames.decode bytes).2.getD []

theorem decode_eq (bytes : List UInt8) :
    frames.decode bytes = (packages bytes, some (kept bytes)) := by
  obtain ⟨rest, hrest⟩ := Incremental.Cutter.exists_kept (c := frames) (fun _ => rfl) bytes
  rw [packages, kept, hrest]
  exact Prod.ext rfl hrest

/-- What arrives later is cut together with what was kept. -/
theorem decode_append (x y : List UInt8) : frames.decode (x ++ y) =
    (packages x ++ packages (kept x ++ y), some (kept (kept x ++ y))) := by
  have hkept : (frames.decode x).2 = some (kept x) := by rw [decode_eq]
  rw [Incremental.Cutter.decode_append, Incremental.Cutter.resume_of_some hkept,
    decode_eq (kept x ++ y)]
  rfl

theorem packages_append (x y : List UInt8) :
    packages (x ++ y) = packages x ++ packages (kept x ++ y) :=
  congrArg Prod.fst (decode_append x y)

theorem kept_append (x y : List UInt8) : kept (x ++ y) = kept (kept x ++ y) := by
  rw [kept, decode_append, Option.getD_some]

theorem packages_nil : packages [] = [] :=
  congrArg Prod.fst decode_nil

theorem kept_nil : kept [] = [] := by
  rw [kept, decode_nil, Option.getD_some]

theorem packages_package (h : readSize first second ≤ buffer.length) :
    packages (first :: second :: buffer) = buffer.take (readSize first second) ::
      packages (buffer.drop (readSize first second)) :=
  congrArg Prod.fst (decode_package h)

theorem kept_package (h : readSize first second ≤ buffer.length) :
    kept (first :: second :: buffer) = kept (buffer.drop (readSize first second)) := by
  rw [kept, decode_package h, kept]

theorem packages_part (h : buffer.length < readSize first second) :
    packages (first :: second :: buffer) = [] :=
  congrArg Prod.fst (decode_part h)

theorem kept_part (h : buffer.length < readSize first second) :
    kept (first :: second :: buffer) = first :: second :: buffer := by
  rw [kept, decode_part h, Option.getD_some]

end Cut

/-! ### The circular buffer -/

namespace Queue

variable {q q' : Queue} {np : Pack}

/-- The packages of the queue, the oldest one first. -/
def toList (q : Queue) : List Pack :=
  Ring.window q.queue q.cap q.head (Ring.count q.cap q.head q.tail)

theorem toList_new : new.toList = [] := by
  rw [toList, new, Ring.count_self, Ring.window_zero]

theorem length_toList_lt : q.toList.length < q.cap := by
  rw [toList, Ring.window, length_map, length_range]
  exact Ring.count_lt q.tail q.head_lt

theorem toList_write : (if (q.write np).head = (q.write np).tail then (q.write np).expand
    else q.write np).toList = q.toList ++ [np] := by
  have htail : (q.write np).tail = (q.tail + 1) % q.cap := by
    have hlt := q.tail_lt
    rw [← Ring.succ_eq_mod hlt, write]
    simp only
    split_ifs <;> omega
  by_cases hfull : (q.tail + 1) % q.cap = q.head
  · have heq : (q.write np).head = (q.write np).tail := (htail.trans hfull).symm
    rw [if_pos heq]
    have hcap : q.cap < q.cap + queueSize := by simp [queueSize]
    exact Ring.window_push_full q.queue q.head_lt q.tail_lt hfull np hcap fun i hi => if_pos hi
  · have hne : (q.write np).head ≠ (q.write np).tail := fun h => hfull (htail.symm.trans h.symm)
    rw [if_neg hne, toList, toList, htail]
    exact Ring.window_push q.queue q.head_lt q.tail_lt hfull np

theorem hash_write : (if (q.write np).head = (q.write np).tail then (q.write np).expand
    else q.write np).hash = q.hash := by
  split_ifs <;> rfl

theorem pop_eq_none (h : q.pop = none) : q.toList = [] := by
  rw [pop] at h
  split_ifs at h with hempty
  rw [toList, ← hempty, Ring.count_self, Ring.window_zero]

theorem pop_eq_some (h : q.pop = some (np, q')) :
    q.toList = np :: q'.toList ∧ q'.hash = q.hash := by
  rw [pop] at h
  by_cases hempty : q.head = q.tail
  · rw [if_pos hempty] at h
    cases h
  rw [if_neg hempty, Option.some_inj, Prod.mk.injEq] at h
  obtain ⟨rfl, rfl⟩ := h
  refine ⟨?_, rfl⟩
  rw [toList, Ring.window_pop q.queue q.head_lt q.tail_lt hempty]
  simp only [toList, Ring.succ_eq_mod q.head_lt]

theorem popLoop_eq {n : ℕ} (hlen : q.toList.length ≤ n) :
    (q.popLoop n).1 = q.toList ∧ (q.popLoop n).2.toList = [] ∧ (q.popLoop n).2.hash = q.hash := by
  induction n generalizing q with
  | zero =>
    have hnil := length_eq_zero_iff.mp (Nat.le_zero.mp hlen)
    exact ⟨hnil.symm, hnil, rfl⟩
  | succ n ih =>
    rcases hpop : q.pop with _ | ⟨np, q'⟩
    · have hnil := pop_eq_none hpop
      simp only [popLoop, hpop]
      exact ⟨hnil.symm, hnil, trivial⟩
    · simp only [popLoop, hpop]
      obtain ⟨hlist, hhash⟩ := pop_eq_some hpop
      rw [hlist, length_cons] at hlen
      obtain ⟨hfirst, hlast, hhash'⟩ := ih (Nat.le_of_succ_le_succ hlen)
      exact ⟨by rw [hfirst, hlist], hlast, hhash'.trans hhash⟩

/-! ### The chains -/

theorem unlink_eq_none {fd : Int32} {chain : List Uncomplete} (h : unlink fd chain = none) :
    chain.filter (fun uc => uc.pack.id = fd) = [] := by
  induction chain with
  | nil => rfl
  | cons uc chain ih =>
    rw [unlink] at h
    split_ifs at h with hid
    rw [filter_cons_of_neg (by simpa using hid), ih (Option.map_eq_none_iff.mp h)]

theorem unlink_eq_some {fd : Int32} {chain rest : List Uncomplete} {uc : Uncomplete}
    (h : unlink fd chain = some (uc, rest)) :
    chain.filter (fun uc => uc.pack.id = fd) = uc :: rest.filter (fun uc => uc.pack.id = fd) ∧
      (∀ fd' ≠ fd, chain.filter (fun uc => uc.pack.id = fd') =
        rest.filter fun uc => uc.pack.id = fd') ∧ ∀ uc' ∈ rest, uc' ∈ chain := by
  induction chain generalizing rest with
  | nil => cases h
  | cons uc' chain ih =>
    rw [unlink] at h
    split_ifs at h with hid
    · cases h
      refine ⟨filter_cons_of_pos (by simpa using hid), fun fd' hne => ?_,
        fun _ => mem_cons_of_mem _⟩
      refine filter_cons_of_neg ?_
      rw [decide_eq_true_eq, hid]
      exact hne.symm
    · obtain ⟨⟨uc, rest⟩, hunlink, heq⟩ := Option.map_eq_some_iff.mp h
      cases heq
      obtain ⟨hself, hother, hmem⟩ := ih hunlink
      refine ⟨?_, fun fd' hne => ?_, fun uc'' hmem' => ?_⟩
      · rw [filter_cons_of_neg (by simpa using hid),
          filter_cons_of_neg (by simpa using hid), hself]
      · rw [filter_cons, filter_cons, hother fd' hne]
      · rcases mem_cons.mp hmem' with rfl | hmem'
        · exact mem_cons_self
        · exact mem_cons_of_mem _ (hmem uc'' hmem')

end Queue

/-! ### Records -/

/-- The record holds the bytes `p` of a package that is not complete: half of its length, or its
length and a part of it. -/
def Uncomplete.Holds (uc : Uncomplete) (p : List UInt8) : Prop :=
  (∃ b, p = [b] ∧ uc.read = -1 ∧ uc.header = b.toNat) ∨
    ∃ first second, p = first :: second :: uc.pack.buffer.bytes ∧
      uc.pack.size = readSize first second ∧ uc.read = uc.pack.buffer.bytes.length ∧
      uc.pack.buffer.bytes.length < uc.pack.size

/-- The records of a connection hold the bytes `p`: there is no record if there are no bytes. -/
def Pending (records : List Uncomplete) (p : List UInt8) : Prop :=
  records = [] ∧ p = [] ∨ ∃ uc, records = [uc] ∧ uc.Holds p

namespace State

/-- A chain of the hash table. -/
def chain (st : State) (h : ℕ) : List Uncomplete :=
  st.getQueue.hash h

/-- The records of a connection. -/
def records (st : State) (fd : Int32) : List Uncomplete :=
  (st.chain (hashFd fd)).filter fun uc => uc.pack.id = fd

/-- The packages in the queue. -/
def packs (st : State) : List Pack :=
  st.getQueue.toList

/-- A result of `netpack.filter` for the connection `fd` gives these packages to the consumer, who
takes what is in the queue if the result says that there is more. -/
def Gives (fd : Int32) (result : Result) (st : State) (payloads : List (List UInt8)) : Prop :=
  match result with
  | .none => payloads = [] ∧ st.packs = []
  | .data fd' buffer size =>
    (fd', size, buffer.bytes) = viewOf fd buffer.bytes ∧ payloads = [buffer.bytes] ∧ st.packs = []
  | .more => st.packs.map Pack.view = payloads.map (viewOf fd)

/-- The records hold the bytes `pend fd` of every connection `fd`. -/
structure Tracks (st : State) (pend : Int32 → List UInt8) : Prop where
  inPlace : ∀ h, ∀ uc ∈ st.chain h, hashFd uc.pack.id = h
  pending : ∀ fd, Pending (st.records fd) (pend fd)

namespace Tracks

variable {st st' : State} {pend : Int32 → List UInt8} {fd : Int32} {uc : Uncomplete}
  {p bytes : List UInt8}

theorem congr (ht : st.Tracks pend) (hchain : st'.chain = st.chain) : st'.Tracks pend where
  inPlace := hchain ▸ ht.inPlace
  pending fd := by
    rw [records, hchain]
    exact ht.pending fd

theorem setMemory (ht : st.Tracks pend) (memory : Memory) : { st with memory }.Tracks pend :=
  ht.congr rfl

theorem findUncomplete_eq_none (ht : st.Tracks pend) (h : st.findUncomplete fd = none) :
    pend fd = [] := by
  have hnil : st.records fd = [] := by
    rw [records, chain, getQueue]
    rw [findUncomplete] at h
    rcases hq : st.queue with _ | q
    · rfl
    · rw [hq] at h
      exact Queue.unlink_eq_none (Option.map_eq_none_iff.mp h)
  rcases ht.pending fd with ⟨-, hp⟩ | ⟨uc, hone, -⟩
  · exact hp
  · rw [hnil] at hone
    cases hone

theorem findUncomplete_eq_some (ht : st.Tracks pend) (h : st.findUncomplete fd = some (uc, st')) :
    uc.pack.id = fd ∧ uc.Holds (pend fd) ∧ st'.Tracks (update pend fd []) ∧
      st'.packs = st.packs := by
  rw [findUncomplete] at h
  rcases hq : st.queue with _ | q
  · rw [hq] at h
    cases h
  rw [hq] at h
  obtain ⟨⟨uc, rest⟩, hunlink, heq⟩ := Option.map_eq_some_iff.mp h
  cases heq
  obtain ⟨hself, hother, hmem⟩ := Queue.unlink_eq_some hunlink
  have hchain : st.chain = q.hash := by rw [funext_iff]; intro h; rw [chain, getQueue, hq]; rfl
  have hrecords : st.records fd = uc :: rest.filter fun uc => uc.pack.id = fd := by
    rw [records, hchain, hself]
  have huc : uc ∈ st.records fd := hrecords ▸ mem_cons_self
  have hid : uc.pack.id = fd := by simpa using (mem_filter.mp huc).2
  rcases ht.pending fd with ⟨hnil, -⟩ | ⟨uc', hone, hholds⟩
  · rw [hrecords] at hnil
    cases hnil
  rw [hrecords, List.cons.injEq] at hone
  obtain ⟨rfl, hrest⟩ := hone
  refine ⟨hid, hholds, ⟨fun h uc' huc' => ?_, fun fd' => ?_⟩,
    by rw [packs, packs, getQueue, getQueue, hq]; rfl⟩
  · change uc' ∈ update q.hash (hashFd fd) rest h at huc'
    refine ht.inPlace h uc' ?_
    rw [hchain]
    by_cases hh : h = hashFd fd
    · subst hh
      rw [update_self] at huc'
      exact hmem uc' huc'
    · rwa [update_of_ne hh] at huc'
  · change Pending ((update q.hash (hashFd fd) rest (hashFd fd')).filter _) _
    by_cases hfd : fd' = fd
    · subst hfd
      rw [update_self, update_self, hrest]
      exact Or.inl ⟨rfl, rfl⟩
    · rw [update_of_ne hfd]
      have hsame := ht.pending fd'
      rw [records, hchain] at hsame
      by_cases hh : hashFd fd' = hashFd fd
      · rw [hh, update_self, ← hother fd' hfd, ← hh]
        exact hsame
      · rwa [update_of_ne hh]

theorem link (ht : st.Tracks pend) (hnone : pend fd = []) (uc : Uncomplete)
    (hid : uc.pack.id = fd) (hholds : uc.Holds p) :
    (st.link uc).Tracks (update pend fd p) := by
  subst hid
  have hchain : (st.link uc).chain = update st.chain (hashFd uc.pack.id)
      (uc :: st.chain (hashFd uc.pack.id)) := rfl
  refine ⟨fun h uc' huc' => ?_, fun fd' => ?_⟩
  · rw [hchain] at huc'
    by_cases hh : h = hashFd uc.pack.id
    · subst hh
      rw [update_self] at huc'
      rcases mem_cons.mp huc' with rfl | huc'
      · rfl
      · exact ht.inPlace _ uc' huc'
    · rw [update_of_ne hh] at huc'
      exact ht.inPlace h uc' huc'
  · rw [records, hchain]
    by_cases hfd : fd' = uc.pack.id
    · subst hfd
      rw [update_self, update_self, filter_cons_of_pos (by simp)]
      rcases ht.pending uc.pack.id with ⟨hnil, -⟩ | ⟨uc', -, hholds'⟩
      · exact Or.inr ⟨uc, congrArg (uc :: ·) hnil, hholds⟩
      · rw [hnone] at hholds'
        rcases hholds' with ⟨b, hb, -⟩ | ⟨first, second, hp, -⟩
        · cases hb
        · cases hp
    · rw [update_of_ne hfd]
      have hsame := ht.pending fd'
      rw [records] at hsame
      by_cases hh : hashFd fd' = hashFd uc.pack.id
      · rw [hh, update_self, filter_cons_of_neg (by simpa using Ne.symm hfd), ← hh]
        exact hsame
      · rwa [update_of_ne hh]

theorem saveHeader (ht : st.Tracks pend) (hnone : pend fd = []) (b : UInt8) :
    (st.saveHeader fd b).Tracks (update pend fd [b]) :=
  (ht.setMemory _).link hnone _ rfl (Or.inl ⟨b, rfl, rfl, rfl⟩)

theorem savePart (ht : st.Tracks pend) (hnone : pend fd = []) {first second : UInt8}
    (hlen : bytes.length < readSize first second) :
    (st.savePart fd (readSize first second) bytes).Tracks
      (update pend fd (first :: second :: bytes)) :=
  (ht.setMemory _).link hnone _ rfl (Or.inr ⟨first, second, rfl, rfl, rfl, hlen⟩)

theorem pushData (ht : st.Tracks pend) (buffer : Block) (size : ℕ) :
    (st.pushData fd buffer size).Tracks pend ∧
      (st.pushData fd buffer size).packs = st.packs ++ [⟨fd, size, buffer⟩] := by
  refine ⟨ht.congr ?_, Queue.toList_write⟩
  funext h
  exact congrFun Queue.hash_write h

theorem pushClone (ht : st.Tracks pend) {size : ℕ} (hlen : size = bytes.length) :
    (st.pushClone fd bytes size).Tracks pend ∧
      (st.pushClone fd bytes size).packs.map Pack.view =
        st.packs.map Pack.view ++ [viewOf fd bytes] := by
  subst hlen
  obtain ⟨ht', hpacks⟩ := (ht.setMemory st.memory.malloc.2).pushData ⟨st.memory.malloc.1, bytes⟩ _
  refine ⟨ht', (congrArg (List.map Pack.view) hpacks).trans ?_⟩
  rw [map_append]
  rfl

/-- **What `push_more` does with the rest of a chunk**: the packages that it completes go to the
queue, and what it keeps is held by a record. -/
theorem pushMore (ht : st.Tracks pend) (hnone : pend fd = []) (hne : bytes ≠ []) :
    ∃ st', st.pushMore fd bytes = .ok st' ∧ st'.Tracks (update pend fd (kept bytes)) ∧
      st'.packs.map Pack.view = st.packs.map Pack.view ++ (packages bytes).map (viewOf fd) := by
  induction hlen : bytes.length using Nat.strongRecOn generalizing st bytes with
  | _ n ih =>
    rcases bytes with _ | ⟨first, _ | ⟨second, buffer⟩⟩
    · exact absurd rfl hne
    · refine ⟨_, by rw [State.pushMore], ?_, ?_⟩
      · rw [kept, decode_header]
        exact ht.saveHeader hnone first
      · rw [packages, decode_header]
        exact (append_nil _).symm
    · rw [State.pushMore]
      simp only
      split_ifs with hpart hmore
      · refine ⟨_, rfl, ?_, ?_⟩
        · rw [kept, decode_part hpart]
          exact ht.savePart hnone hpart
        · rw [packages, decode_part hpart]
          exact (append_nil _).symm
      all_goals
        have hle := not_lt.mp hpart
        obtain ⟨ht', hview⟩ :
            (st.pushClone fd (buffer.take (readSize first second)) (readSize first second)).Tracks
              pend ∧ _ := ht.pushClone (length_take_of_le hle).symm
      · have hshort : (buffer.drop (readSize first second)).length < n := by
          rw [← hlen, length_drop, length_cons, length_cons]
          omega
        obtain ⟨st'', heq, htracks, hpacks⟩ :=
          ih _ hshort ht' (ne_nil_of_length_pos hmore) rfl
        refine ⟨st'', heq, ?_, ?_⟩
        · rwa [kept_package hle]
        · rw [hpacks, hview, packages_package hle, append_assoc]
          rfl
      · have hempty : buffer.drop (readSize first second) = [] :=
          length_eq_zero_iff.mp (by omega)
        refine ⟨_, rfl, ?_, ?_⟩
        · rwa [kept_package hle, hempty, kept_nil, ← hnone, update_eq_self]
        · rw [hview, packages_package hle, hempty, packages_nil]
          rfl

/-- **What a chunk adds to a record that knows its size.** -/
theorem fill (ht : st.Tracks pend) (hnone : pend fd = []) (hpacks : st.packs = [])
    (uc : Uncomplete) (hid : uc.pack.id = fd) {first second : UInt8}
    (hsize : uc.pack.size = readSize first second) (hread : uc.read = uc.pack.buffer.bytes.length)
    (hlen : uc.pack.buffer.bytes.length ≤ uc.pack.size) (buffer : List UInt8) :
    ∃ result st', st.fill fd uc buffer = .ok (result, st') ∧
      st'.Tracks (update pend fd
        (kept (first :: second :: (uc.pack.buffer.bytes ++ buffer)))) ∧
      Gives fd result st' (packages (first :: second :: (uc.pack.buffer.bytes ++ buffer))) := by
  obtain ⟨need, hneed⟩ : ∃ need : ℕ, uc.pack.size = uc.pack.buffer.bytes.length + need :=
    ⟨_, (Nat.add_sub_cancel' hlen).symm⟩
  have hdiff : (uc.pack.size : ℤ) - uc.read = need := by omega
  rw [State.fill, hdiff]
  simp only [Int.ofNat_lt, Int.toNat_natCast]
  by_cases hpart : buffer.length < need
  · have hshort : (uc.pack.buffer.bytes ++ buffer).length < readSize first second := by
      rw [length_append, ← hsize]
      omega
    rw [if_pos hpart]
    refine ⟨_, _, rfl, ?_, packages_part hshort, hpacks⟩
    rw [kept_part hshort]
    refine ht.link hnone _ hid (Or.inr ⟨first, second, rfl, hsize, ?_, ?_⟩)
    · rw [length_append, hread]
      exact (Int.natCast_add _ _).symm
    · rw [hsize]
      exact hshort
  · have hle : readSize first second ≤ (uc.pack.buffer.bytes ++ buffer).length := by
      rw [length_append, ← hsize]
      omega
    have htake : (uc.pack.buffer.bytes ++ buffer).take (readSize first second) =
        uc.pack.buffer.bytes ++ buffer.take need := by
      rw [← hsize, hneed, take_length_add_append]
    have hdrop : (uc.pack.buffer.bytes ++ buffer).drop (readSize first second) =
        buffer.drop need := by
      rw [← hsize, hneed, drop_length_add_append]
    have hcomplete : uc.pack.size = (uc.pack.buffer.bytes ++ buffer.take need).length := by
      rw [length_append, length_take_of_le (not_lt.mp hpart), hneed]
    rw [if_neg hpart, kept_package hle, packages_package hle, htake, hdrop]
    by_cases hrest : (buffer.drop need).length = 0
    · rw [if_pos hrest]
      refine ⟨_, _, rfl, ?_, ?_, ?_, hpacks⟩
      · rw [length_eq_zero_iff.mp hrest, kept_nil, ← hnone, update_eq_self]
        exact ht.setMemory _
      · rw [viewOf, hcomplete]
      · rw [length_eq_zero_iff.mp hrest, packages_nil]
    · rw [if_neg hrest]
      obtain ⟨ht', hpacks'⟩ :=
        ht.pushData ⟨uc.pack.buffer.addr, uc.pack.buffer.bytes ++ buffer.take need⟩ uc.pack.size
      obtain ⟨st', heq, htracks, hmore⟩ :=
        (ht'.setMemory _).pushMore hnone (mt length_eq_zero_iff.mpr hrest)
      refine ⟨.more, st', by rw [heq], htracks, hmore.trans ?_⟩
      have hview := congrArg (List.map Pack.view) hpacks'
      have hone : Pack.view ⟨fd, uc.pack.size, ⟨uc.pack.buffer.addr,
          uc.pack.buffer.bytes ++ buffer.take need⟩⟩ =
            viewOf fd (uc.pack.buffer.bytes ++ buffer.take need) := by
        rw [Pack.view, viewOf, hcomplete]
      rw [hpacks, nil_append, map_singleton, hone] at hview
      exact congrArg (· ++ (packages (buffer.drop need)).map (viewOf fd)) hview

/-- **What a chunk does**: with what was kept of its connection it completes these packages. -/
theorem filterChunk (ht : st.Tracks pend) (hpacks : st.packs = []) (hne : bytes ≠ []) :
    ∃ result st', st.filterChunk fd bytes = .ok (result, st') ∧
      st'.Tracks (update pend fd (kept (pend fd ++ bytes))) ∧
      Gives fd result st' (packages (pend fd ++ bytes)) := by
  unfold State.filterChunk
  rcases hfind : st.findUncomplete fd with _ | ⟨uc, st₁⟩
  · have hnone := ht.findUncomplete_eq_none hfind
    rw [hnone, nil_append]
    rcases bytes with _ | ⟨first, _ | ⟨second, buffer⟩⟩
    · exact absurd rfl hne
    · refine ⟨_, _, rfl, ?_, congrArg Prod.fst (decode_header first), hpacks⟩
      rw [kept, decode_header]
      exact ht.saveHeader hnone first
    · simp only
      split_ifs with hpart hall
      · refine ⟨_, _, rfl, ?_, packages_part hpart, hpacks⟩
        rw [kept_part hpart]
        exact ht.savePart hnone hpart
      · refine ⟨_, _, rfl, ?_, ?_, ?_, hpacks⟩
        · rw [kept_package hall.ge, drop_of_length_le hall.le, kept_nil, ← hnone,
            update_eq_self]
          exact ht.setMemory _
        · rw [viewOf, hall]
        · rw [packages_package hall.ge, take_of_length_le hall.le,
            drop_of_length_le hall.le, packages_nil]
      · have hle := not_lt.mp hpart
        obtain ⟨ht', hview⟩ :
            (st.pushClone fd (buffer.take (readSize first second)) (readSize first second)).Tracks
              pend ∧ _ := ht.pushClone (length_take_of_le hle).symm
        have hrest : buffer.drop (readSize first second) ≠ [] := by
          refine ne_nil_of_length_pos ?_
          rw [length_drop]
          omega
        obtain ⟨st', heq, htracks, hmore⟩ := ht'.pushMore hnone hrest
        rw [heq]
        refine ⟨_, _, rfl, by rwa [kept_package hle], ?_⟩
        rw [Gives, hmore, hview, hpacks, packages_package hle]
        rfl
  · obtain ⟨hid, hholds, ht₁, hpacks₁⟩ := ht.findUncomplete_eq_some hfind
    have hself : update pend fd [] fd = [] := update_self ..
    rw [hpacks] at hpacks₁
    rcases hholds with ⟨b, hp, hread, hheader⟩ | ⟨first, second, hp, hsize, hread, hlt⟩
    · rcases bytes with _ | ⟨second, buffer⟩
      · exact absurd rfl hne
      simp only [hread, ne_eq, not_true_eq_false, if_false]
      have hfill := (ht₁.setMemory st₁.memory.malloc.2).fill hself hpacks₁
        { uc with
          pack.size := second.toNat ||| uc.header <<< 8
          pack.buffer := ⟨st₁.memory.malloc.1, []⟩
          read := 0 } hid
        (show second.toNat ||| uc.header <<< 8 = readSize b second by
          rw [hheader, readSize, Nat.or_comm]) rfl (Nat.zero_le _) buffer
      rw [update_idem] at hfill
      rw [hp]
      exact hfill
    · have hneg : ¬uc.read < 0 := by omega
      have hfill := ht₁.fill hself hpacks₁ uc hid hsize hread hlt.le bytes
      rw [update_idem] at hfill
      simp only [if_neg hneg]
      rw [hp]
      exact hfill

theorem filterData (ht : st.Tracks pend) (hpacks : st.packs = []) {chunk : Block}
    (hne : chunk.bytes ≠ []) :
    ∃ result st', st.filterData fd chunk = .ok (result, st') ∧
      st'.Tracks (update pend fd (kept (pend fd ++ chunk.bytes))) ∧
      Gives fd result st' (packages (pend fd ++ chunk.bytes)) := by
  obtain ⟨result, st', heq, htracks, hgives⟩ := ht.filterChunk hpacks hne
  refine ⟨result, _, by rw [State.filterData, heq], htracks.setMemory _, ?_⟩
  cases result <;> exact hgives

theorem popAll (ht : st.Tracks pend) :
    st.popAll.1 = st.packs ∧ st.popAll.2.packs = [] ∧ st.popAll.2.Tracks pend := by
  rw [State.popAll]
  rcases hq : st.queue with _ | q
  · have hpacks : st.packs = [] := by
      rw [packs, getQueue, hq]
      exact Queue.toList_new
    exact ⟨hpacks.symm, hpacks, ht⟩
  · obtain ⟨hfirst, hlast, hhash⟩ := Queue.popLoop_eq q.length_toList_lt.le
    have hchain : st.chain = q.hash := by
      funext h
      rw [chain, getQueue, hq]
      rfl
    refine ⟨?_, hlast, ht.congr (hchain ▸ hhash)⟩
    rw [packs, getQueue, hq]
    exact hfirst

end Tracks

/-- The userdata before the first chunk. -/
def init : State where
  queue := none
  memory := ⟨1, []⟩

/-- A chunk is filtered, and the consumer takes what comes out: a package that is given at once,
or everything in the queue. -/
def receive (st : State) (fd : Int32) (chunk : Block) : Except Fault (List Pack × State) :=
  match st.filterData fd chunk with
  | .ok (.none, st) => .ok ([], st)
  | .ok (.data fd buffer size, st) => .ok ([⟨fd, size, buffer⟩], st)
  | .ok (.more, st) => .ok st.popAll
  | .error e => .error e

/-- The chunks of all connections, one after the other. -/
def run (st : State) : List (Int32 × Block) → Except Fault (List Pack × State)
  | [] => .ok ([], st)
  | (fd, chunk) :: chunks =>
    match st.receive fd chunk with
    | .ok (out, st) =>
      match st.run chunks with
      | .ok (rest, st) => .ok (out ++ rest, st)
      | .error e => .error e
    | .error e => .error e

theorem Tracks.init : State.init.Tracks fun _ => [] where
  inPlace h uc huc := by simp [chain, getQueue, State.init, Queue.new] at huc
  pending fd := Or.inl ⟨rfl, rfl⟩

theorem Tracks.receive {st : State} {pend : Int32 → List UInt8} {fd : Int32} {chunk : Block}
    (ht : st.Tracks pend) (hpacks : st.packs = []) (hne : chunk.bytes ≠ []) :
    ∃ out st', st.receive fd chunk = .ok (out, st') ∧
      st'.Tracks (update pend fd (kept (pend fd ++ chunk.bytes))) ∧ st'.packs = [] ∧
      out.map Pack.view = (packages (pend fd ++ chunk.bytes)).map (viewOf fd) := by
  obtain ⟨result, st', heq, htracks, hgives⟩ := ht.filterData hpacks hne
  rw [State.receive, heq]
  cases result with
  | none => exact ⟨[], st', rfl, htracks, hgives.2, by rw [hgives.1]; rfl⟩
  | data fd' buffer size =>
    obtain ⟨hview, hpackages, hempty⟩ := hgives
    refine ⟨_, st', rfl, htracks, hempty, ?_⟩
    rw [hpackages]
    exact congrArg (fun view => [view]) hview
  | more =>
    obtain ⟨hfirst, hempty, htracks'⟩ := htracks.popAll
    refine ⟨st'.popAll.1, st'.popAll.2, rfl, htracks', hempty, ?_⟩
    rw [hfirst]
    exact hgives

end State

/-! ### All connections -/

/-- What a connection has sent. -/
def stream (fd : Int32) (chunks : List (Int32 × Block)) : List UInt8 :=
  (chunks.filter fun c => c.1 = fd).flatMap fun c => c.2.bytes

/-- The packages that the consumer got from a connection. -/
def delivered (fd : Int32) (out : List Pack) : List (Int32 × ℕ × List UInt8) :=
  (out.map Pack.view).filter fun view => view.1 = fd

theorem delivered_viewOf (fd fd' : Int32) (payloads : List (List UInt8)) :
    (payloads.map (viewOf fd')).filter (fun view => view.1 = fd) =
      if fd' = fd then payloads.map (viewOf fd) else [] := by
  split_ifs with h
  · subst h
    exact filter_eq_self.mpr fun view hview => by
      obtain ⟨payload, -, rfl⟩ := mem_map.mp hview
      simp [viewOf]
  · exact filter_eq_nil_iff.mpr fun view hview => by
      obtain ⟨payload, -, rfl⟩ := mem_map.mp hview
      simp [viewOf, h]

theorem stream_append (fd : Int32) (before chunks : List (Int32 × Block)) :
    stream fd (before ++ chunks) = stream fd before ++ stream fd chunks := by
  rw [stream, filter_append, flatMap_append, stream, stream]

theorem stream_singleton (fd fd' : Int32) (chunk : Block) :
    stream fd [(fd', chunk)] = if fd' = fd then chunk.bytes else [] := by
  rw [stream, filter_singleton]
  split_ifs with h <;> simp_all

theorem State.Tracks.run {st : State} {before chunks : List (Int32 × Block)}
    (ht : st.Tracks fun fd => kept (stream fd before)) (hpacks : st.packs = [])
    (hne : ∀ c ∈ chunks, c.2.bytes ≠ []) :
    ∃ out st', st.run chunks = .ok (out, st') ∧
      (st'.Tracks fun fd => kept (stream fd (before ++ chunks))) ∧
      ∀ fd, (packages (stream fd (before ++ chunks))).map (viewOf fd) =
        (packages (stream fd before)).map (viewOf fd) ++ delivered fd out := by
  induction chunks generalizing st before with
  | nil =>
    rw [append_nil]
    exact ⟨[], st, rfl, ht, fun fd => (append_nil _).symm⟩
  | cons c chunks ih =>
    obtain ⟨fd', chunk⟩ := c
    obtain ⟨out, st₁, heq, htracks, hempty, hout⟩ :
        ∃ out st₁, st.receive fd' chunk = .ok (out, st₁) ∧ _ :=
      ht.receive hpacks (hne _ mem_cons_self)
    have hpend : update (fun fd => kept (stream fd before)) fd'
        (kept (kept (stream fd' before) ++ chunk.bytes)) =
          fun fd => kept (stream fd (before ++ [(fd', chunk)])) := by
      funext fd
      rw [stream_append, stream_singleton]
      by_cases hfd : fd' = fd
      · subst hfd
        rw [update_self, if_pos rfl, ← kept_append]
      · rw [update_of_ne (Ne.symm hfd), if_neg hfd, append_nil]
    rw [hpend] at htracks
    obtain ⟨rest, st₂, heq₂, htracks₂, hrest⟩ :=
      ih htracks hempty fun c hc => hne c (mem_cons_of_mem _ hc)
    rw [append_assoc, singleton_append] at htracks₂ hrest
    refine ⟨out ++ rest, st₂, ?_, htracks₂, fun fd => ?_⟩
    · rw [State.run, heq]
      simp only [heq₂]
    · have hfirst : (packages (stream fd (before ++ [(fd', chunk)]))).map (viewOf fd) =
          (packages (stream fd before)).map (viewOf fd) ++ delivered fd out := by
        rw [delivered, hout, delivered_viewOf, stream_append, stream_singleton]
        by_cases hfd : fd' = fd
        · subst hfd
          rw [if_pos rfl, if_pos rfl, packages_append, map_append]
        · rw [if_neg hfd, if_neg hfd, append_nil, append_nil]
      rw [hrest fd, hfirst, append_assoc]
      simp only [delivered, map_append, filter_append]

theorem run_init (chunks : List (Int32 × Block)) (hne : ∀ c ∈ chunks, c.2.bytes ≠ []) :
    ∃ out st, State.init.run chunks = .ok (out, st) ∧
      (st.Tracks fun fd => kept (stream fd chunks)) ∧
      ∀ fd, delivered fd out = (packages (stream fd chunks)).map (viewOf fd) := by
  have hstart : State.init.Tracks fun fd => kept (stream fd []) := by
    have hnil : (fun fd : Int32 => kept (stream fd [])) = fun _ => [] := by
      funext fd
      exact kept_nil
    rw [hnil]
    exact .init
  obtain ⟨out, st, heq, htracks, hout⟩ := hstart.run Queue.toList_new hne
  refine ⟨out, st, heq, htracks, fun fd => ?_⟩
  have hfd := hout fd
  rw [nil_append, show stream fd [] = [] from rfl, packages_nil, map_nil,
    nil_append] at hfd
  exact hfd.symm

/-- **Every package is delivered to its connection, in order.** For any chunks of any connections,
none of them empty, no assertion fails, the consumer gets from each connection exactly the packages
that are complete in what it has sent, and there is at most one record for a connection, in its own
chain. -/
theorem packages_delivered (chunks : List (Int32 × Block)) (hne : ∀ c ∈ chunks, c.2.bytes ≠ []) :
    ∃ out st, State.init.run chunks = .ok (out, st) ∧
      (∀ fd, delivered fd out = (packages (stream fd chunks)).map (viewOf fd)) ∧
      ∀ fd, (st.records fd).length ≤ 1 ∧
        ∀ h ≠ hashFd fd, ∀ uc ∈ st.chain h, uc.pack.id ≠ fd := by
  obtain ⟨out, st, heq, htracks, hout⟩ := run_init chunks hne
  refine ⟨out, st, heq, hout, fun fd => ⟨?_, fun h hh uc huc hid => ?_⟩⟩
  · rcases htracks.pending fd with ⟨hnil, -⟩ | ⟨uc, hone, -⟩
    · rw [hnil]
      exact Nat.zero_le 1
    · rw [hone]
      exact Nat.le_refl 1
  · rw [← hid] at hh
    exact hh (htracks.inPlace h uc huc).symm

/-- Two connections in one chain, a length that is cut in two, and three packages in one chunk. -/
theorem packages_delivered_mixed :
    hashFd 2 = hashFd 4097 ∧
    ∃ out st, State.init.run [(2, ⟨100, [0]⟩), (4097, ⟨101, [0, 3, 7]⟩),
        (2, ⟨102, [2, 5, 6, 0, 0, 0, 1, 9]⟩), (4097, ⟨103, [8, 9]⟩)] = .ok (out, st) ∧
      ∀ fd, delivered fd out = (packages (stream fd [(2, ⟨100, [0]⟩), (4097, ⟨101, [0, 3, 7]⟩),
        (2, ⟨102, [2, 5, 6, 0, 0, 0, 1, 9]⟩), (4097, ⟨103, [8, 9]⟩)])).map (viewOf fd) := by
  obtain ⟨out, st, heq, hout, -⟩ := packages_delivered [(2, ⟨100, [0]⟩), (4097, ⟨101, [0, 3, 7]⟩),
    (2, ⟨102, [2, 5, 6, 0, 0, 0, 1, 9]⟩), (4097, ⟨103, [8, 9]⟩)] (by simp)
  exact ⟨rfl, out, st, heq, hout⟩

end Mtask.Netpack
