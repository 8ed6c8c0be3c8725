import Mtask.GateService.HashId

/-!
# Runs of the socket ids

The gate inserts the id of a connection when it is accepted, and removes it when it is closed. As
long as the probe for a free node does not go past `INT_MAX`, the slots are an injective map from
the ids that are present into the connections.
-/

namespace Mtask.GateService

open IntrusiveQueue List
open Function (update)

namespace HashId

variable {hi : HashId} {chain : ℕ → List ℕ} {id : ℤ} {i : ℕ}

/-- The node that the probe looks at in the round `j`, as long as it counts in the range of `int`.
-/
def nodeAt (hi : HashId) (id : ℤ) (j : ℕ) : ℕ := (j + id.toNat) % hi.cap

/-- The round `j` computes the index of a node: the sum is at most `INT_MAX`, or is the first number
above it and gives 0. -/
def InRange (hi : HashId) (id : ℤ) (j : ℕ) : Prop :=
  j + id.toNat < 2 ^ 31 ∨ j + id.toNat = 2 ^ 31 ∧ hi.cap ∣ 2 ^ 31

/-- A free node comes up in a round that computes the index of a node. -/
def Fits (hi : HashId) (id : ℤ) : Prop :=
  ∃ j < hi.cap, hi.ids[hi.nodeAt id j]? = some (-1) ∧ hi.InRange id j

instance (hi : HashId) (id : ℤ) : Decidable (hi.Fits id) :=
  inferInstanceAs (Decidable (∃ j < hi.cap, _ ∧ (_ ∨ _ ∧ _)))

theorem toInt_of_ge {m : ℕ} (hge : 2 ^ 31 ≤ m) (hlt : m < 2 ^ 32) :
    toInt m = -((2 ^ 32 - m : ℕ) : ℤ) := by
  rw [toInt, Int.bmod_def]
  omega

theorem tmod_eq (hid : 0 ≤ id) (hi31 : hi.InRange id i) :
    (toInt (i + id)).tmod hi.cap = hi.nodeAt id i := by
  obtain ⟨n, rfl⟩ := Int.eq_ofNat_of_zero_le hid
  simp only [InRange, Int.toNat_natCast] at hi31
  rw [← Int.natCast_add, nodeAt, Int.toNat_natCast]
  rcases hi31 with hlt | ⟨heq, hdvd⟩
  · rw [DataBuffer.toInt_of_lt hlt]
    rfl
  · rw [toInt_of_ge (by omega) (by omega), heq, Int.neg_tmod, ← Int.ofNat_tmod,
      Nat.mod_eq_zero_of_dvd hdvd]
    change -(((2 ^ 31 % hi.cap : ℕ)) : ℤ) = 0
    rw [Nat.mod_eq_zero_of_dvd hdvd]
    rfl

/-- Behind rounds in range, the next one is in range or computes a negative index. -/
theorem tmod_neg (hid : 0 ≤ id) (hlt : id < 2 ^ 31) (hcap : i < hi.cap)
    (hprev : i = 0 ∨ hi.InRange id (i - 1)) (hout : ¬hi.InRange id i) :
    (toInt (i + id)).tmod hi.cap < 0 := by
  obtain ⟨n, rfl⟩ := Int.eq_ofNat_of_zero_le hid
  simp only [InRange, Int.toNat_natCast, not_or, not_and] at hprev hout
  obtain ⟨hge, hdvd⟩ := hout
  have hneg {m : ℕ} (hm : ¬hi.cap ∣ m) : -((m : ℕ) : ℤ).tmod hi.cap < 0 := by
    have hne : m % hi.cap ≠ 0 := fun h => hm (Nat.dvd_of_mod_eq_zero h)
    rw [← Int.ofNat_tmod]
    omega
  rw [← Int.natCast_add]
  rcases Nat.lt_or_eq_of_le (Nat.not_lt.mp hge) with hgt | heq
  · -- the sum is the second number above the range, which the capacity does not divide
    obtain ⟨hsum, hdvd'⟩ : i + n = 2 ^ 31 + 1 ∧ hi.cap ∣ 2 ^ 31 := by
      rcases hprev with rfl | hlt' | ⟨heq, hdvd'⟩
      · omega
      · omega
      · exact ⟨by omega, hdvd'⟩
    rw [hsum, toInt_of_ge (by omega) (by omega), Int.neg_tmod]
    refine hneg fun hdvd'' => ?_
    have hone : hi.cap ∣ 1 := (Nat.dvd_add_right hdvd'').mp (by simpa using hdvd')
    have := Nat.le_of_dvd (by decide) hone
    omega
  · rw [← heq, toInt_of_ge (by omega) (by omega), Int.neg_tmod]
    exact hneg (by simpa using hdvd heq.symm)

theorem exists_nodeAt (id : ℤ) {n : ℕ} (hn : n < hi.cap) : ∃ j < hi.cap, hi.nodeAt id j = n := by
  have hpos : 0 < hi.cap := by omega
  refine ⟨(n + (hi.cap - id.toNat % hi.cap)) % hi.cap, Nat.mod_lt _ hpos, ?_⟩
  have hlt := Nat.mod_lt id.toNat hpos
  rw [nodeAt, Nat.add_mod, Nat.mod_mod, ← Nat.add_mod, Nat.add_mod _ id.toNat,
    ← Nat.mod_mod id.toNat, ← Nat.add_mod, Nat.mod_mod,
    show n + (hi.cap - id.toNat % hi.cap) + id.toNat % hi.cap = n + hi.cap by omega,
    Nat.add_mod_right, Nat.mod_eq_of_lt hn]

/-- **The probe** from the round `i` on, behind rounds that were in range and found no free node. -/
theorem probe_cases (hlen : hi.id.length = hi.cap) (hid : 0 ≤ id) (hlt : id < 2 ^ 31)
    (hfree : ∃ n < hi.cap, hi.ids[n]? = some (-1)) {rounds : ℕ} (hrounds : i + rounds = hi.cap)
    (hprev : ∀ j < i, hi.InRange id j ∧ hi.ids[hi.nodeAt id j]? ≠ some (-1)) :
    (hi.Fits id ∧ ∃ c, probe hi id rounds i = .ok c ∧ hi.ids[c]? = some (-1)) ∨
      ¬hi.Fits id ∧ probe hi id rounds i = .error .outOfRange := by
  induction rounds generalizing i with
  | zero =>
    -- every node has come up
    obtain ⟨n, hn, hfree⟩ := hfree
    obtain ⟨j, hj, rfl⟩ := exists_nodeAt id hn
    exact absurd hfree (hprev j (by omega)).2
  | succ rounds ih =>
    have hcap : i < hi.cap := by omega
    rw [probe]
    by_cases hin : hi.InRange id i
    · have hnode : hi.nodeAt id i < hi.id.length := by
        rw [hlen]
        exact Nat.mod_lt _ (by omega)
      rw [tmod_eq hid hin, if_neg (by omega), Int.toNat_natCast, getElem?_eq_getElem hnode]
      dsimp only
      have hids : hi.ids[hi.nodeAt id i]? = some hi.id[hi.nodeAt id i].id := by
        rw [ids, getElem?_map, getElem?_eq_getElem hnode, Option.map_some]
      split_ifs with heq
      · rw [heq] at hids
        exact .inl ⟨⟨i, hcap, hids, hin⟩, _, rfl, hids⟩
      · refine ih (by omega) fun j hj => ?_
        rcases Nat.lt_or_eq_of_le (Nat.le_of_lt_succ hj) with hj | rfl
        · exact hprev j hj
        · exact ⟨hin, by simpa [hids] using heq⟩
    · have hneg := tmod_neg hid hlt hcap (by
        rcases Nat.eq_zero_or_pos i with h0 | hpos
        · exact .inl h0
        · exact .inr (hprev (i - 1) (by omega)).1) hin
      rw [if_pos hneg]
      refine .inr ⟨?_, rfl⟩
      rintro ⟨j, hj, hfree, hj31⟩
      rcases Nat.lt_or_ge j i with hji | hij
      · exact (hprev j hji).2 hfree
      · -- a later round is not in range either
        rw [InRange, not_or] at hin
        rcases hj31 with hlt' | ⟨heq, hdvd⟩
        · omega
        · exact hin.2 ⟨by omega, hdvd⟩

namespace Chained

theorem exists_free (h : Chained hi chain) (hfull : hi.full = false) :
    ∃ n < hi.cap, hi.ids[n]? = some (-1) := by
  by_contra hno
  have hall : ∀ id ∈ hi.ids, (id ≠ -1 : Bool) := fun id hid => by
    obtain ⟨n, hn⟩ := mem_iff_getElem?.mp hid
    have hlt := (List.getElem?_eq_some_iff.mp hn).1
    rw [length_ids, h.length_id] at hlt
    rw [decide_eq_true_eq]
    rintro rfl
    exact hno ⟨n, hlt, hn⟩
  have hcount := countP_eq_length.mpr hall
  rw [length_ids, h.length_id] at hcount
  rw [full, decide_eq_false_iff_not, h.count_eq, hcount] at hfull
  exact hfull rfl

/-- **The insertion** of an id that is not present, into a hash that is not full. -/
theorem insert_cases (h : Chained hi chain) (hid : 0 ≤ id) (hlt : id < 2 ^ 31)
    (hnot : ∀ n, ¬hi.Slot id n) (hfull : hi.full = false) :
    (hi.Fits id ∧ ∃ c hi' chain', hi.insert id = .ok (c, hi') ∧ Chained hi' chain' ∧
      (∀ id' m, hi'.Slot id' m ↔ (id' = id ∧ m = c) ∨ hi.Slot id' m) ∧
      hi'.count = hi.count + 1 ∧ hi'.cap = hi.cap) ∨
    ¬hi.Fits id ∧ hi.insert id = .error .outOfRange := by
  rcases probe_cases h.length_id hid hlt (h.exists_free hfull) (Nat.zero_add _) (nofun) with
    ⟨hfits, c, hprobe, hc⟩ | ⟨hfits, hprobe⟩
  · have hne : id ≠ -1 := by omega
    obtain ⟨head, hhead⟩ := h.hash_eq id
    have hnext : hi.nextOf c = none := by
      obtain ⟨node, hnode, hid'⟩ : ∃ node, hi.id[c]? = some node ∧ node.id = -1 := by
        simpa [ids] using hc
      rw [nextOf_eq hnode, h.next_eq c node hnode hid']
    refine .inl ⟨hfits, c, insertAt hi id c head, _, ?_, h.inserted hc hne hnot hhead,
      fun id' m => ?_, rfl, rfl⟩
    · rw [HashId.insert, hprobe]
      dsimp only
      rw [if_neg (not_not.mpr hnext), hhead]
      rfl
    · rw [slot_insertAt hc hne]
      split_ifs with hm
      · subst hm
        refine ⟨fun heq => .inl ⟨heq.symm, rfl⟩, ?_⟩
        rintro (⟨heq, -⟩ | ⟨hne', hs⟩)
        · exact heq.symm
        · rw [hc, Option.some_inj] at hs
          exact absurd hs.symm hne'
      · simp [hm]
  · exact .inr ⟨hfits, by rw [HashId.insert, hprobe]⟩

end Chained

theorem chained_init {fuel max : ℕ} (hpos : 0 < max) (h : init fuel max = .ok hi) :
    Chained hi (fun _ => []) ∧ (∀ id n, ¬hi.Slot id n) ∧ hi.count = 0 ∧ hi.cap = max := by
  rw [init] at h
  split at h
  · next hashcap hloop =>
    have hle := hashcapLoop_le hloop
    have hids : hi.ids = List.replicate max (-1) := by
      cases h
      exact map_replicate
    have hnot : ∀ id n, ¬hi.Slot id n := by
      rintro id n ⟨hne, hn⟩
      rw [hids] at hn
      exact hne (eq_of_mem_replicate (mem_of_getElem? hn))
    cases h
    refine ⟨⟨length_replicate, ?_, fun k p hp => ?_, fun _ => nodup_nil,
      fun k n => iff_of_false (not_mem_nil) fun h => ?_, fun n node hn _ => ?_,
      fun id m n hm _ => absurd hm (hnot id m), ?_⟩, hnot, rfl, rfl⟩
    · rw [length_replicate]
      dsimp only
      omega
    · rw [eq_of_mem_replicate (mem_of_getElem? hp)]
      exact .nil none
    · obtain ⟨id, hs, -⟩ := h
      exact hnot id n hs
    · rw [eq_of_mem_replicate (mem_of_getElem? hn)]
    · rw [hids, countP_replicate]
      rfl
  · cases h

end HashId

/-! ### Runs -/

/-- The hash, with the slots that were given to the ids that are present. -/
structure SlotMap where
  hi : HashId
  slot : ℤ → Option ℕ

/-- The calls. -/
inductive SlotOp
  | insert (id : ℤ)
  | remove (id : ℤ)
  | lookup (id : ℤ)

namespace SlotMap

/-- A hash that has been set up. -/
def init (hi : HashId) : SlotMap := ⟨hi, fun _ => none⟩

def step (st : SlotMap) : SlotOp → Except HashFault SlotMap
  | .insert id =>
    match st.hi.insert id with
    | .ok (c, hi) => .ok ⟨hi, update st.slot id (some c)⟩
    | .error e => .error e
  | .remove id =>
    match st.hi.remove id with
    | .ok (_, hi) => .ok ⟨hi, update st.slot id none⟩
    | .error e => .error e
  | .lookup id =>
    match st.hi.lookup id with
    | .ok _ => .ok st
    | .error e => .error e

/-- An id is inserted when it is a socket id that is not present and the hash is not full. -/
def Proper (st : SlotMap) : SlotOp → Prop
  | .insert id => 0 ≤ id ∧ id < 2 ^ 31 ∧ st.slot id = none ∧ st.hi.full = false
  | _ => True

/-- The probe of an insertion ends in time. -/
def InTime (st : SlotMap) : SlotOp → Prop
  | .insert id => st.hi.Fits id
  | _ => True

/-- The slot of an id, or -1. -/
def slotOr (st : SlotMap) (id : ℤ) : ℤ := (st.slot id).elim (-1) fun n => n

/-- The slots are an injective map from the ids that are present into the capacity, which the
functions report and which `count` counts. -/
structure IsMap (st : SlotMap) : Prop where
  slot_lt : ∀ id n, st.slot id = some n → n < st.hi.cap
  slot_inj : ∀ id id' n, st.slot id = some n → st.slot id' = some n → id = id'
  lookup_eq : ∀ id, st.hi.lookup id = .ok (st.slotOr id)
  remove_eq : ∀ id, ∃ hi, st.hi.remove id = .ok (st.slotOr id, hi)
  finite : {id | st.slot id ≠ none}.Finite
  count_eq : st.hi.count = {id | st.slot id ≠ none}.ncard

/-- The slots are those of the chains. -/
structure Inv (st : SlotMap) : Prop where
  chained : ∃ chain, st.hi.Chained chain
  slot_iff : ∀ id n, st.slot id = some n ↔ st.hi.Slot id n
  finite : {id | st.slot id ≠ none}.Finite
  count_eq : st.hi.count = {id | st.slot id ≠ none}.ncard

variable {hi : HashId}

theorem inv_init {fuel max : ℕ} (hpos : 0 < max) (h : HashId.init fuel max = .ok hi) :
    (init hi).Inv := by
  obtain ⟨hchained, hnot, hcount, -⟩ := HashId.chained_init hpos h
  have hempty : {id | (init hi).slot id ≠ none} = ∅ := by simp [init]
  exact ⟨⟨_, hchained⟩, fun id n => iff_of_false nofun (hnot id n), by rw [hempty]; simp,
    by rw [hempty]; simpa [init] using hcount⟩

namespace Inv

variable {st : SlotMap} {id : ℤ}

theorem slot_eq_none_iff (h : st.Inv) : st.slot id = none ↔ ∀ n, ¬st.hi.Slot id n := by
  simp only [← h.slot_iff, Option.eq_none_iff_forall_ne_some, ne_eq]

theorem isMap (h : st.Inv) : st.IsMap := by
  obtain ⟨⟨chain, hchained⟩, hslot, hfinite, hcount⟩ := id h
  refine ⟨fun id n hn => ?_, fun id id' n hn hn' => ?_, fun id => ?_, fun id => ?_, hfinite, hcount⟩
  · rw [← hchained.length_id]
    exact ((hslot id n).mp hn).lt
  · exact ((hslot id n).mp hn).id_eq ((hslot id' n).mp hn')
  · rcases hchained.lookup_cases id with ⟨n, hn, heq⟩ | ⟨hno, heq⟩
    · rw [heq, slotOr, (hslot id n).mpr hn]
      rfl
    · rw [heq, slotOr, h.slot_eq_none_iff.mpr hno]
      rfl
  · rcases hchained.remove_cases id with ⟨n, hi, -, hn, heq, -⟩ | ⟨hno, heq⟩
    · exact ⟨hi, by rw [heq, slotOr, (hslot id n).mpr hn]; rfl⟩
    · exact ⟨_, by rw [heq, slotOr, h.slot_eq_none_iff.mpr hno]; rfl⟩

variable {chain : ℕ → List ℕ}

theorem inserted (h : st.Inv) {c : ℕ} (hnone : st.slot id = none) (hchained : hi.Chained chain)
    (hslot : ∀ id' m, hi.Slot id' m ↔ (id' = id ∧ m = c) ∨ st.hi.Slot id' m)
    (hcount : hi.count = st.hi.count + 1) : Inv ⟨hi, update st.slot id (some c)⟩ := by
  have hset : {id' | update st.slot id (some c) id' ≠ none} =
      Insert.insert id {id' | st.slot id' ≠ none} := by
    ext id'
    rcases eq_or_ne id' id with rfl | hne <;> simp [*]
  refine ⟨⟨chain, hchained⟩, fun id' m => ?_, ?_, ?_⟩
  · dsimp only
    rw [hslot, ← h.slot_iff]
    rcases eq_or_ne id' id with rfl | hne
    · simp [hnone, eq_comm]
    · simp [hne]
  · dsimp only
    rw [hset]
    exact h.finite.insert id
  · dsimp only
    rw [hset, Set.ncard_insert_of_notMem (by simpa using hnone) h.finite, hcount, h.count_eq]
    rfl

theorem removed (h : st.Inv) {c : ℕ} (hsome : st.slot id = some c) (hchained : hi.Chained chain)
    (hslot : st.hi.Without hi id) (hcount : hi.count = st.hi.count - 1) :
    Inv ⟨hi, update st.slot id none⟩ := by
  have hset : {id' | update st.slot id none id' ≠ none} =
      {id' | st.slot id' ≠ none} \ {id} := by
    ext id'
    rcases eq_or_ne id' id with rfl | hne <;> simp [*]
  have hmem : id ∈ {id' | st.slot id' ≠ none} := by simp [hsome]
  refine ⟨⟨chain, hchained⟩, fun id' m => ?_, ?_, ?_⟩
  · dsimp only
    rw [hslot, ← h.slot_iff]
    rcases eq_or_ne id' id with rfl | hne <;> simp [*]
  · dsimp only
    rw [hset]
    exact h.finite.sdiff
  · have hpos := (Set.ncard_pos h.finite).mpr ⟨id, hmem⟩
    dsimp only
    rw [hset, Set.ncard_sdiff_singleton_of_mem hmem, hcount, h.count_eq]
    omega

/-- **A call** succeeds and keeps the map, exactly if its probe ends in time. -/
theorem step (h : st.Inv) {op : SlotOp} (hproper : st.Proper op) :
    (st.InTime op ∧ ∃ st', st.step op = .ok st' ∧ st'.Inv ∧ st'.hi.cap = st.hi.cap) ∨
      ¬st.InTime op ∧ st.step op = .error .outOfRange := by
  obtain ⟨chain, hchained⟩ := h.chained
  cases op with
  | insert id =>
    obtain ⟨hid, hlt, hnone, hfull⟩ := hproper
    rcases hchained.insert_cases hid hlt (h.slot_eq_none_iff.mp hnone) hfull with
      ⟨hfits, c, hi', chain', heq, hchained', hslot, hcount, hcap⟩ | ⟨hfits, heq⟩
    · exact .inl ⟨hfits, _, by rw [SlotMap.step, heq], h.inserted hnone hchained' hslot hcount, hcap⟩
    · exact .inr ⟨hfits, by rw [SlotMap.step, heq]⟩
  | remove id =>
    rcases hchained.remove_cases id with
      ⟨n, hi', chain', hn, heq, hchained', hslot, hcount, hcap⟩ | ⟨hno, heq⟩
    · exact .inl ⟨trivial, _, by rw [SlotMap.step, heq],
        h.removed ((h.slot_iff id n).mpr hn) hchained' hslot hcount, hcap⟩
    · have hnone := h.slot_eq_none_iff.mpr hno
      refine .inl ⟨trivial, st, ?_, h, rfl⟩
      rw [SlotMap.step, heq]
      dsimp only
      rw [Function.update_eq_self_iff.mpr hnone.symm]
  | lookup id => exact .inl ⟨trivial, st, by rw [SlotMap.step, h.isMap.lookup_eq], h, rfl⟩

end Inv

end SlotMap

open SlotMap in
/-- **The slots of the socket ids.** A hash can be set up for the capacities up to `2 ^ 30`. In a
run from there whose insertions find a free node before they leave the range of `int`, the slots are
an injective map; and a call succeeds and keeps it so exactly if it does this as well. -/
theorem slots_of_run {max : ℕ} (hpos : 0 < max) :
    ((∃ fuel hi, HashId.init fuel max = .ok hi) ↔ max ≤ 2 ^ 30) ∧
    ∀ fuel hi st, HashId.init fuel max = .ok hi →
      Transition.Reaches SlotMap.step (fun st op => st.Proper op ∧ st.InTime op) (.init hi) st →
      st.hi.cap = max ∧ st.IsMap ∧
        ∀ op, st.Proper op → ((∃ st', st.step op = .ok st' ∧ st'.IsMap) ↔ st.InTime op) := by
  refine ⟨HashId.exists_init_iff, fun fuel hi st hinit hrun => ?_⟩
  obtain ⟨hcap, hinv⟩ : st.hi.cap = max ∧ st.Inv := by
    refine @Transition.Reaches.invariant _ _ _ _ _ (fun st => st.hi.cap = max ∧ st.Inv) _ _ hrun
      ⟨(HashId.chained_init hpos hinit).2.2.2, inv_init hpos hinit⟩
      fun st st' op ⟨hcap, hinv⟩ hok hs => ?_
    rcases hinv.step hok.1 with ⟨-, st'', hs', hinv', hcap'⟩ | ⟨hno, -⟩
    · obtain rfl : st' = st'' := Except.ok.inj (hs.symm.trans hs')
      exact ⟨hcap'.trans hcap, hinv'⟩
    · exact absurd hok.2 hno
  refine ⟨hcap, hinv.isMap, fun op hproper => ?_⟩
  rcases hinv.step hproper with ⟨htime, st', hs, hinv', -⟩ | ⟨hno, herr⟩
  · exact iff_of_true ⟨st', hs, hinv'.isMap⟩ htime
  · refine iff_of_false ?_ hno
    rintro ⟨st', hs, -⟩
    rw [herr] at hs
    cases hs

/-- Three nodes, with the id 1 in its slot. -/
def oneOfThree : HashId where
  hashmod := 15
  cap := 3
  count := 1
  id := [⟨-1, none⟩, ⟨1, none⟩, ⟨-1, none⟩]
  hash := (List.replicate 16 none).set 1 (some 1)

theorem exists_oneOfThree : ∃ hi, HashId.init 1 3 = .ok hi ∧
    (SlotMap.init hi).Proper (.insert 1) ∧ (SlotMap.init hi).InTime (.insert 1) ∧
      (SlotMap.init hi).step (.insert 1) =
        .ok ⟨oneOfThree, update (fun _ => none) 1 (some 1)⟩ := by
  obtain ⟨hi, hinit, hfull, hins, hfits⟩ : ∃ hi, HashId.init 1 3 = .ok hi ∧ hi.full = false ∧
      hi.insert 1 = .ok (1, oneOfThree) ∧ hi.Fits 1 := by
    refine ⟨_, rfl, ?_, ?_, ?_⟩ <;> decide
  refine ⟨hi, hinit, ⟨by decide, by decide, rfl, hfull⟩, hfits, ?_⟩
  rw [SlotMap.step]
  simp only [SlotMap.init, hins]

open SlotMap in
theorem slots_of_run_one_id : ∃ st : SlotMap, st.hi = oneOfThree ∧ st.slot 1 = some 1 ∧
    st.IsMap ∧ ∃ st', st.step (.insert 4) = .ok st' ∧ st'.IsMap := by
  obtain ⟨hi, hinit, hproper, htime, hs⟩ := exists_oneOfThree
  have hrun : Transition.Reaches SlotMap.step (fun st op => st.Proper op ∧ st.InTime op) (.init hi)
      _ := .single ⟨hproper, htime⟩ hs
  obtain ⟨-, hmap, hiff⟩ := (slots_of_run (show 0 < 3 by decide)).2 1 hi _ hinit hrun
  refine ⟨_, rfl, by simp, hmap, (hiff (.insert 4) ⟨by decide, by decide, by simp, ?_⟩).mpr ?_⟩
  · decide
  · change oneOfThree.Fits 4
    decide

open SlotMap in
/-- The id `INT_MAX` comes to the slot of the id 1, and the next sum is no `int`; and the size of
the hash for more than `2 ^ 30` ids is never found. -/
theorem int_max_out_of_range : (∃ hi st, HashId.init 1 3 = .ok hi ∧
    Transition.Reaches SlotMap.step (fun st op => st.Proper op) (.init hi) st ∧
      st.Proper (.insert 2147483647) ∧
        st.step (.insert 2147483647) = .error .outOfRange) ∧
    ∀ fuel, HashId.init fuel (2 ^ 30 + 1) = .error .roundsExhausted := by
  obtain ⟨hi, hinit, hproper, -, hs⟩ := exists_oneOfThree
  have hout : oneOfThree.insert 2147483647 = .error .outOfRange := by decide
  have hrun : Transition.Reaches SlotMap.step (fun st op => st.Proper op) (.init hi) _ :=
    .single hproper hs
  refine ⟨⟨hi, _, hinit, hrun, ⟨by decide, by decide, by simp, ?_⟩, ?_⟩, fun fuel => ?_⟩
  · decide
  · rw [SlotMap.step, hout]
  have hloop : HashId.hashcapLoop (2 ^ 30 + 1) fuel 16 = .error .roundsExhausted :=
    HashId.hashcapLoop_error (by decide) (.inr ⟨4, by decide, rfl⟩)
  rw [HashId.init, hloop]

end Mtask.GateService
