import Mathlib.Data.Set.Card
import Mtask.GateService.DataBuffer
import Mtask.Lib.IntrusiveQueue
import Mtask.Lib.Transition

/-!
# The slots of socket ids

`hashid.h` gives socket ids the slots of an array. The node of an id is found by probing from `id`
modulo the capacity on, and is put in front of the chain of the ids with the same low bits. An index
is computed with values of type `int`: a probe that goes past `INT_MAX` comes to an index outside
the array, and so does an id with a slot that is taken.
-/

namespace Mtask.GateService

open IntrusiveQueue List
open Function (update update_apply update_of_ne update_self)

/-- `struct hashid_node`; the pointer is the index of the node in the array. -/
structure HashidNode where
  id : ℤ
  next : Option ℕ
  deriving DecidableEq, Repr

/-- `struct hashid` -/
structure HashId where
  hashmod : ℕ
  cap : ℕ
  count : ℤ
  id : List HashidNode
  hash : List (Option ℕ)
  deriving DecidableEq, Repr

/-- How a function on the ids can go wrong. -/
inductive HashFault
  /-- `assert(c)` -/
  | noFreeNode
  /-- `assert(c->next == NULL)` -/
  | nextLeft
  | outOfRange
  | roundsExhausted
  deriving DecidableEq, Repr

namespace HashId

/-- The loop of `hashid_init`. -/
def hashcapLoop (max : ℕ) : ℕ → ℤ → Except HashFault ℤ
  | 0, _ => .error .roundsExhausted
  | fuel + 1, hashcap =>
    if hashcap < max then hashcapLoop max fuel (toInt (hashcap * 2)) else .ok hashcap

/-- `hashid_init`, with a bound on the rounds of its loop. -/
def init (fuel max : ℕ) : Except HashFault HashId :=
  match hashcapLoop max fuel 16 with
  | .ok hashcap => .ok
    { hashmod := (hashcap - 1).toNat
      cap := max
      count := 0
      id := List.replicate max ⟨-1, none⟩
      hash := List.replicate hashcap.toNat none }
  | .error e => .error e

/-- `id & hi->hashmod` -/
def bucket (hi : HashId) (id : ℤ) : ℕ :=
  (BitVec.ofInt 32 id &&& BitVec.ofNat 32 hi.hashmod).toNat

/-- `c->next` -/
def nextOf (hi : HashId) (n : ℕ) : Option ℕ := (hi.id[n]?).bind (·.next)

/-- The loop of `hashid_lookup`. -/
def lookupLoop (hi : HashId) (id : ℤ) : ℕ → Option ℕ → Except HashFault ℤ
  | _, none => .ok (-1)
  | 0, some _ => .error .roundsExhausted
  | fuel + 1, some c =>
    match hi.id[c]? with
    | none => .error .outOfRange
    | some node => if node.id = id then .ok c else lookupLoop hi id fuel node.next

/-- `hashid_lookup` -/
def lookup (hi : HashId) (id : ℤ) : Except HashFault ℤ :=
  match hi.hash[hi.bucket id]? with
  | none => .error .outOfRange
  | some c => lookupLoop hi id (hi.cap + 1) c

/-- The end of `hashid_remove`, behind the label `_clear`. -/
def clear (hi : HashId) (c : ℕ) : ℤ × HashId :=
  (c, { hi with id := hi.id.set c ⟨-1, none⟩, count := hi.count - 1 })

/-- The loop of `hashid_remove` from the node `c` on. -/
def removeLoop (hi : HashId) (id : ℤ) : ℕ → ℕ → Except HashFault (ℤ × HashId)
  | 0, _ => .error .roundsExhausted
  | fuel + 1, c =>
    match hi.id[c]? with
    | none => .error .outOfRange
    | some node =>
      match node.next with
      | none => .ok (-1, hi)
      | some temp =>
        match hi.id[temp]? with
        | none => .error .outOfRange
        | some next =>
          if next.id = id then
            .ok (clear { hi with id := hi.id.set c { node with next := next.next } } temp)
          else removeLoop hi id fuel temp

/-- `hashid_remove` -/
def remove (hi : HashId) (id : ℤ) : Except HashFault (ℤ × HashId) :=
  match hi.hash[hi.bucket id]? with
  | none => .error .outOfRange
  | some none => .ok (-1, hi)
  | some (some c) =>
    match hi.id[c]? with
    | none => .error .outOfRange
    | some node =>
      if node.id = id then
        .ok (clear { hi with hash := hi.hash.set (hi.bucket id) node.next } c)
      else removeLoop hi id (hi.cap + 1) c

/-- The loop of `hashid_insert` that looks for a free node, from the round `i` on. -/
def probe (hi : HashId) (id : ℤ) : ℕ → ℕ → Except HashFault ℕ
  | 0, _ => .error .noFreeNode
  | rounds + 1, i =>
    let index := (toInt (i + id)).tmod hi.cap
    if index < 0 then .error .outOfRange
    else
      match hi.id[index.toNat]? with
      | none => .error .outOfRange
      | some node => if node.id = -1 then .ok index.toNat else probe hi id rounds (i + 1)

/-- `hashid_insert` -/
def insert (hi : HashId) (id : ℤ) : Except HashFault (ℕ × HashId) :=
  match probe hi id hi.cap 0 with
  | .error e => .error e
  | .ok c =>
    if hi.nextOf c ≠ none then .error .nextLeft
    else
      match hi.hash[hi.bucket id]? with
      | none => .error .outOfRange
      | some head => .ok (c, { hi with
          count := hi.count + 1
          id := hi.id.set c ⟨id, head⟩
          hash := hi.hash.set (hi.bucket id) (some c) })

/-- `hashid_full` -/
def full (hi : HashId) : Bool := hi.count = hi.cap

/-! ### The size of the hash -/

theorem toInt_two_pow {k : ℕ} (hk : k < 30) : toInt ((2 ^ k : ℕ) * 2) = (2 ^ (k + 1) : ℕ) := by
  have hpow : 2 ^ (k + 1) ≤ 2 ^ 30 := Nat.pow_le_pow_right (by decide) hk
  have hmul : ((2 ^ k : ℕ) * 2 : ℤ) = (2 ^ (k + 1) : ℕ) := by
    rw [Nat.pow_succ]
    push_cast
    rfl
  rw [hmul, DataBuffer.toInt_of_lt (by omega)]

/-- The loop stops at a power of two, if it can reach one that is large enough. -/
theorem hashcapLoop_two_pow {max k n : ℕ} (hk : k ≤ 30) (hmax : max ≤ 2 ^ (k + n))
    (hle : k + n ≤ 30) : ∃ j ≤ 30, k ≤ j ∧ hashcapLoop max (n + 1) (2 ^ k : ℕ) = .ok (2 ^ j : ℕ) := by
  induction n generalizing k with
  | zero =>
    refine ⟨k, hk, Nat.le_refl k, ?_⟩
    have hmax' : max ≤ 2 ^ k := hmax
    rw [hashcapLoop, if_neg fun hlt => Nat.not_lt.mpr hmax' (Int.ofNat_lt.mp hlt)]
  | succ n ih =>
    rw [hashcapLoop]
    split_ifs with hlt
    · obtain ⟨j, hj, hkj, heq⟩ := ih (k := k + 1) (by omega)
        (by rwa [show k + 1 + n = k + (n + 1) by omega]) (by omega)
      exact ⟨j, hj, by omega, by rw [toInt_two_pow (by omega), heq]⟩
    · exact ⟨k, hk, Nat.le_refl k, rfl⟩

/-- The values that the loop runs through when the capacity is above the largest power of two. -/
theorem hashcapLoop_error {max fuel : ℕ} (hmax : 2 ^ 30 < max) {hashcap : ℤ}
    (h : hashcap ≤ 0 ∧ (hashcap = 0 ∨ hashcap = -2 ^ 31) ∨ ∃ k ≤ 30, hashcap = (2 ^ k : ℕ)) :
    hashcapLoop max fuel hashcap = .error .roundsExhausted := by
  induction fuel generalizing hashcap with
  | zero => rfl
  | succ fuel ih =>
    have hlt : hashcap < max := by
      rcases h with ⟨hle, -⟩ | ⟨k, hk, rfl⟩
      · omega
      · have hpow : 2 ^ k ≤ 2 ^ 30 := Nat.pow_le_pow_right (by decide) hk
        omega
    rw [hashcapLoop, if_pos hlt]
    refine ih ?_
    rcases h with ⟨-, rfl | rfl⟩ | ⟨k, hk, rfl⟩
    · exact .inl ⟨by decide, .inl (by decide)⟩
    · exact .inl ⟨by decide, .inl (by decide)⟩
    · rcases Nat.lt_or_eq_of_le hk with hk | rfl
      · exact .inr ⟨k + 1, hk, toInt_two_pow hk⟩
      · exact .inl ⟨by decide, .inr (by decide)⟩

/-- The size of the hash can be computed for a capacity of at most `2 ^ 30`. -/
theorem exists_init_iff {max : ℕ} : (∃ fuel hi, init fuel max = .ok hi) ↔ max ≤ 2 ^ 30 := by
  constructor
  · rintro ⟨fuel, hi, h⟩
    by_contra hgt
    have herr : hashcapLoop max fuel 16 = .error .roundsExhausted :=
      hashcapLoop_error (Nat.not_le.mp hgt) (.inr ⟨4, by decide, rfl⟩)
    rw [init, herr] at h
    cases h
  · intro hle
    obtain ⟨j, -, -, heq⟩ := hashcapLoop_two_pow (k := 4) (n := 26) (by decide) hle (by decide)
    have hloop : hashcapLoop max 27 16 = .ok (2 ^ j : ℕ) := heq
    exact ⟨27, _, by rw [init, hloop]⟩

theorem hashcapLoop_le {max fuel : ℕ} {hashcap hashcap' : ℤ}
    (h : hashcapLoop max fuel hashcap = .ok hashcap') : max ≤ hashcap' := by
  induction fuel generalizing hashcap with
  | zero => cases h
  | succ fuel ih =>
    rw [hashcapLoop] at h
    split_ifs at h with hlt
    · exact ih h
    · cases h
      exact Int.not_lt.mp hlt

/-! ### The chains -/

/-- The ids of the nodes. -/
def ids (hi : HashId) : List ℤ := hi.id.map HashidNode.id

/-- The id `id` has the slot `n`. -/
def Slot (hi : HashId) (id : ℤ) (n : ℕ) : Prop :=
  id ≠ -1 ∧ hi.ids[n]? = some id

/-- The chains of the hash hold the nodes that are used, each in the chain of its id; the other
nodes are cleared. -/
structure Chained (hi : HashId) (chain : ℕ → List ℕ) : Prop where
  length_id : hi.id.length = hi.cap
  length_hash : hi.hash.length = hi.hashmod + 1
  seg : ∀ h p, hi.hash[h]? = some p → Seg hi.nextOf p (chain h) none
  nodup : ∀ h, (chain h).Nodup
  mem_iff : ∀ h n, n ∈ chain h ↔ ∃ id, hi.Slot id n ∧ hi.bucket id = h
  next_eq : ∀ (n : ℕ) (node : HashidNode), hi.id[n]? = some node → node.id = -1 → node.next = none
  slot_inj : ∀ id m n, hi.Slot id m → hi.Slot id n → m = n
  count_eq : hi.count = hi.ids.countP (· ≠ -1)

theorem bucket_le (hi : HashId) (id : ℤ) : hi.bucket id ≤ hi.hashmod := by
  rw [bucket, BitVec.toNat_and]
  refine Nat.le_trans Nat.and_le_right ?_
  rw [BitVec.toNat_ofNat]
  exact Nat.mod_le _ _

theorem nextOf_eq {hi : HashId} {n : ℕ} {node : HashidNode} (h : hi.id[n]? = some node) :
    hi.nextOf n = node.next := by
  rw [nextOf, h]
  rfl

theorem length_ids (hi : HashId) : hi.ids.length = hi.id.length := length_map _

theorem slot_iff {hi : HashId} {id : ℤ} {n : ℕ} :
    hi.Slot id n ↔ id ≠ -1 ∧ ∃ node, hi.id[n]? = some node ∧ node.id = id := by
  rw [Slot, ids, getElem?_map, Option.map_eq_some_iff]

theorem nextOf_set {hi hi' : HashId} {c : ℕ} (node : HashidNode) (hc : c < hi.id.length)
    (hid : hi'.id = hi.id.set c node) : hi'.nextOf = update hi.nextOf c node.next := by
  funext m
  rw [nextOf, hid, update_apply]
  split_ifs with hm
  · rw [hm, getElem?_set_self hc]
    rfl
  · rw [getElem?_set_ne (Ne.symm hm)]
    rfl

theorem ids_set {hi' : HashId} (hi : HashId) {c : ℕ} (node : HashidNode)
    (hid : hi'.id = hi.id.set c node) : hi'.ids = hi.ids.set c node.id := by
  rw [ids, hid, map_set, ids]

theorem Slot.lt {hi : HashId} {id : ℤ} {n : ℕ} (h : hi.Slot id n) : n < hi.id.length := by
  rw [← length_ids]
  exact (List.getElem?_eq_some_iff.mp h.2).1

theorem Slot.id_eq {hi : HashId} {id id' : ℤ} {n : ℕ} (h : hi.Slot id n) (h' : hi.Slot id' n) :
    id = id' :=
  Option.some.inj (h.2.symm.trans h'.2)

theorem slot_set {hi hi' : HashId} {c n : ℕ} {v id : ℤ} (hids : hi'.ids = hi.ids.set c v)
    (hc : c < hi.ids.length) :
    hi'.Slot id n ↔ if n = c then id ≠ -1 ∧ v = id else hi.Slot id n := by
  rw [Slot, Slot, hids]
  split_ifs with hn
  · rw [hn, getElem?_set_self hc, Option.some_inj]
  · rw [getElem?_set_ne (Ne.symm hn)]

namespace Chained

variable {hi : HashId} {chain : ℕ → List ℕ} {id : ℤ} {n : ℕ}

theorem hash_eq (h : Chained hi chain) (id : ℤ) : ∃ p, hi.hash[hi.bucket id]? = some p := by
  have hlt : hi.bucket id < hi.hash.length := by
    have := hi.bucket_le id
    rw [h.length_hash]
    omega
  exact ⟨_, getElem?_eq_getElem hlt⟩

theorem length_le (h : Chained hi chain) (k : ℕ) : (chain k).length ≤ hi.cap := by
  have hsub : chain k ⊆ List.range hi.cap := fun n hn => by
    obtain ⟨id, hslot, -⟩ := (h.mem_iff k n).mp hn
    rw [mem_range, ← h.length_id]
    exact hslot.lt
  have hle := (List.Nodup.subperm (h.nodup k) hsub).length_le
  rwa [length_range] at hle

theorem mem_of_slot (h : Chained hi chain) (hn : hi.Slot id n) : n ∈ chain (hi.bucket id) :=
  (h.mem_iff _ n).mpr ⟨id, hn, rfl⟩

end Chained

/-- The walk along a chain finds the node of the id. -/
theorem lookupLoop_eq {hi : HashId} (id : ℤ) {fuel : ℕ} {p : Option ℕ} {l : List ℕ}
    (hseg : Seg hi.nextOf p l none) (hfuel : l.length ≤ fuel)
    (hused : ∀ n ∈ l, ∃ id, hi.Slot id n) :
    (∃ n ∈ l, hi.Slot id n ∧ lookupLoop hi id fuel p = .ok n) ∨
      (∀ n ∈ l, ¬hi.Slot id n) ∧ lookupLoop hi id fuel p = .ok (-1) := by
  induction l generalizing fuel p with
  | nil =>
    obtain rfl := Seg.nil_iff.mp hseg
    exact .inr ⟨nofun, by rw [lookupLoop]⟩
  | cons c l ih =>
    obtain ⟨rfl, hrest⟩ := Seg.cons_iff.mp hseg
    obtain ⟨fuel, rfl⟩ : ∃ f, fuel = f + 1 := Nat.exists_eq_succ_of_ne_zero (by
      rw [length_cons] at hfuel
      omega)
    obtain ⟨id', hslot'⟩ := hused c mem_cons_self
    obtain ⟨hne, node, hnode, rfl⟩ := slot_iff.mp hslot'
    rw [nextOf_eq hnode] at hrest
    rw [lookupLoop, hnode]
    dsimp only
    split_ifs with heq
    · exact .inl ⟨c, mem_cons_self, heq ▸ hslot', rfl⟩
    · rcases ih hrest (by simpa using hfuel) fun n hn => hused n (mem_cons_of_mem _ hn) with
        ⟨n, hn, hslot, hloop⟩ | ⟨hno, hloop⟩
      · exact .inl ⟨n, mem_cons_of_mem _ hn, hslot, hloop⟩
      · refine .inr ⟨fun n hn hslot => ?_, hloop⟩
        rcases mem_cons.mp hn with rfl | hn
        · exact heq (hslot'.id_eq hslot)
        · exact hno n hn hslot

namespace Chained

variable {hi : HashId} {chain : ℕ → List ℕ} {id : ℤ} {n : ℕ}

/-- **The lookup** of an id with a slot, and of one without. -/
theorem lookup_cases (h : Chained hi chain) (id : ℤ) :
    (∃ n, hi.Slot id n ∧ hi.lookup id = .ok n) ∨
      (∀ n, ¬hi.Slot id n) ∧ hi.lookup id = .ok (-1) := by
  obtain ⟨p, hp⟩ := h.hash_eq id
  rw [lookup, hp]
  rcases lookupLoop_eq id (h.seg _ _ hp) (Nat.le_succ_of_le (h.length_le _))
    fun n hn => ((h.mem_iff _ n).mp hn).imp fun _ hn => hn.1 with ⟨n, -, hslot, hloop⟩ | ⟨hno, hloop⟩
  · exact .inl ⟨n, hslot, hloop⟩
  · exact .inr ⟨fun n hslot => hno n (h.mem_of_slot hslot) hslot, hloop⟩

theorem not_mem_of_free (h : Chained hi chain) {c k : ℕ} (hc : hi.ids[c]? = some (-1)) :
    c ∉ chain k := fun hmem => by
  obtain ⟨id, ⟨hne, hid⟩, -⟩ := (h.mem_iff k c).mp hmem
  rw [hc] at hid
  exact hne (Option.some.inj hid).symm

end Chained

/-- What a removal leaves: the slots of the other ids. -/
def Without (hi hi' : HashId) (id : ℤ) : Prop :=
  ∀ id' m, hi'.Slot id' m ↔ id' ≠ id ∧ hi.Slot id' m

/-- The end of a removal. -/
def Removed (hi : HashId) (id : ℤ) (result : Except HashFault (ℤ × HashId)) : Prop :=
  (∃ t hi' chain', hi.Slot id t ∧ result = .ok ((t : ℤ), hi') ∧ Chained hi' chain' ∧
    Without hi hi' id ∧ hi'.count = hi.count - 1 ∧ hi'.cap = hi.cap) ∨
  (∀ t, ¬hi.Slot id t) ∧ result = .ok (-1, hi)

/-- The hash after `hashid_insert` has settled on the free node `c`. -/
def insertAt (hi : HashId) (id : ℤ) (c : ℕ) (head : Option ℕ) : HashId :=
  { hi with
    count := hi.count + 1
    id := hi.id.set c ⟨id, head⟩
    hash := hi.hash.set (hi.bucket id) (some c) }

theorem ids_insertAt (hi : HashId) (id : ℤ) (c : ℕ) (head : Option ℕ) :
    (insertAt hi id c head).ids = hi.ids.set c id :=
  ids_set hi ⟨id, head⟩ rfl

theorem slot_insertAt {hi : HashId} {id id' : ℤ} {c m : ℕ} {head : Option ℕ} (hc : hi.ids[c]? = some (-1))
    (hne : id ≠ -1) :
    (insertAt hi id c head).Slot id' m ↔ if m = c then id = id' else hi.Slot id' m := by
  rw [slot_set (ids_insertAt hi id c head) (List.getElem?_eq_some_iff.mp hc).1]
  split_ifs with hm
  · exact and_iff_right_of_imp fun h => h ▸ hne
  · exact .rfl

namespace Chained

variable {hi : HashId} {chain : ℕ → List ℕ} {id : ℤ} {n : ℕ}

section

variable (h : Chained hi chain)
include h

/-- **An id is inserted**: its node becomes the first one of its chain. -/
theorem inserted {c : ℕ} {head : Option ℕ} (hc : hi.ids[c]? = some (-1)) (hne : id ≠ -1)
    (hnot : ∀ n, ¬hi.Slot id n) (hhead : hi.hash[hi.bucket id]? = some head) :
    Chained (insertAt hi id c head)
      (update chain (hi.bucket id) (c :: chain (hi.bucket id))) := by
  have hlt := (List.getElem?_eq_some_iff.mp hc).1
  have hlt' : c < hi.id.length := by rwa [length_ids] at hlt
  have hslot {id' : ℤ} {m : ℕ} : (HashId.insertAt hi id c head).Slot id' m ↔
      if m = c then id = id' else hi.Slot id' m := slot_insertAt hc hne
  have hnext : (insertAt hi id c head).nextOf = update hi.nextOf c head :=
    nextOf_set ⟨id, head⟩ hlt' rfl
  have hkeep (k : ℕ) : ∀ m ∈ chain k, update hi.nextOf c head m = hi.nextOf m :=
    fun m hm => update_of_ne (ne_of_mem_of_not_mem hm (h.not_mem_of_free hc)) ..
  refine ⟨?_, ?_, fun k p hp => ?_, fun k => ?_, fun k m => ?_, fun m node hm hid => ?_,
    fun id' m n hm hn => ?_, ?_⟩
  · simp only [insertAt, length_set]
    exact h.length_id
  · simp only [insertAt, length_set]
    exact h.length_hash
  · rw [hnext]
    by_cases hk : k = hi.bucket id
    · subst hk
      have hlen := (List.getElem?_eq_some_iff.mp hhead).1
      simp only [insertAt, getElem?_set_self hlen, Option.some_inj] at hp
      rw [update_self, ← hp]
      refine .cons ?_
      rw [update_self]
      exact (h.seg _ _ hhead).congr (hkeep _)
    · simp only [insertAt, getElem?_set_ne (Ne.symm hk)] at hp
      rw [update_of_ne hk]
      exact (h.seg k p hp).congr (hkeep k)
  · by_cases hk : k = hi.bucket id
    · subst hk
      rw [update_self]
      exact nodup_cons.mpr ⟨h.not_mem_of_free hc, h.nodup _⟩
    · rw [update_of_ne hk]
      exact h.nodup k
  · have hold := h.mem_iff k m
    have hbucket : ∀ id', (insertAt hi id c head).bucket id' = hi.bucket id' := fun _ => rfl
    simp only [hslot, hbucket]
    by_cases hm : m = c
    · subst hm
      simp only [if_true, update_apply]
      split_ifs with hk
      · simp [hk]
      · simpa [h.not_mem_of_free hc] using fun heq : hi.bucket id = k => hk heq.symm
    · simp only [hm, if_false, update_apply, ← hold]
      split_ifs with hk
      · simp [hm, hk]
      · rfl
  · simp only [insertAt, getElem?_set] at hm
    split_ifs at hm with hmc
    · cases hm
      exact absurd hid hne
    · exact h.next_eq m node hm hid
  · rw [hslot] at hm hn
    split_ifs at hm hn with hmc hnc hnc
    · rw [hmc, hnc]
    · exact absurd (hm ▸ hn) (hnot n)
    · exact absurd (hn ▸ hm) (hnot m)
    · exact h.slot_inj id' m n hm hn
  · have hfree : hi.ids[c] = -1 := (List.getElem?_eq_some_iff.mp hc).2
    rw [ids_insertAt, countP_set hlt, hfree]
    simp only [insertAt, h.count_eq]
    simp [hne]

/-- **An id is removed**: its node is cleared, and is in its chain no longer. -/
theorem removed {hi' : HashId} {t : ℕ} {l : List ℕ} (ht : hi.Slot id t) (hcap : hi'.cap = hi.cap)
    (hmod : hi'.hashmod = hi.hashmod) (hlen : hi'.hash.length = hi.hash.length)
    (hother : ∀ k, k ≠ hi.bucket id → hi'.hash[k]? = hi.hash[k]?)
    (hseg : ∀ p, hi'.hash[hi.bucket id]? = some p → Seg hi'.nextOf p l none)
    (hperm : (chain (hi.bucket id)).Perm (t :: l)) (hids : hi'.ids = hi.ids.set t (-1))
    (hkeep : ∀ n, n ∉ chain (hi.bucket id) → hi'.id[n]? = hi.id[n]?)
    (hclear : hi'.id[t]? = some ⟨-1, none⟩) (hcount : hi'.count = hi.count - 1) :
    Chained hi' (update chain (hi.bucket id) l) := by
  have hlt : t < hi.ids.length := (List.getElem?_eq_some_iff.mp ht.2).1
  have hbucket : ∀ id', hi'.bucket id' = hi.bucket id' := fun id' => by rw [bucket, bucket, hmod]
  have hslot {id' : ℤ} {m : ℕ} : hi'.Slot id' m ↔ m ≠ t ∧ hi.Slot id' m := by
    rw [slot_set hids hlt]
    split_ifs with hm
    · simp [hm, eq_comm]
    · simp [hm]
  have hnodup := hperm.nodup_iff.mp (h.nodup (hi.bucket id))
  have hdisj : ∀ k, k ≠ hi.bucket id → ∀ m ∈ chain k, m ∉ chain (hi.bucket id) :=
    fun k hk m hm hm' => by
      obtain ⟨id₁, hs₁, rfl⟩ := (h.mem_iff _ m).mp hm
      obtain ⟨id₂, hs₂, hb⟩ := (h.mem_iff _ m).mp hm'
      exact hk ((hs₁.id_eq hs₂) ▸ hb)
  refine ⟨?_, by rw [hlen, hmod, h.length_hash], fun k p hp => ?_, fun k => ?_, fun k m => ?_,
    fun m node hm hid => ?_, fun id' m n hm hn => ?_, ?_⟩
  · rw [← length_ids, hids, length_set, length_ids, h.length_id, hcap]
  · by_cases hk : k = hi.bucket id
    · subst hk
      rw [update_self]
      exact hseg p hp
    · rw [hother k hk] at hp
      rw [update_of_ne hk]
      exact (h.seg k p hp).congr fun m hm => by rw [nextOf, hkeep m (hdisj k hk m hm), nextOf]
  · by_cases hk : k = hi.bucket id
    · subst hk
      rw [update_self]
      exact (nodup_cons.mp hnodup).2
    · rw [update_of_ne hk]
      exact h.nodup k
  · have hold := h.mem_iff k m
    simp only [hslot, hbucket, and_assoc, exists_and_left, ← hold]
    by_cases hk : k = hi.bucket id
    · subst hk
      rw [update_self, hperm.mem_iff, mem_cons]
      constructor
      · intro hm
        exact ⟨ne_of_mem_of_not_mem hm (nodup_cons.mp hnodup).1, .inr hm⟩
      · rintro ⟨hne, hm⟩
        exact hm.resolve_left hne
    · rw [update_of_ne hk]
      refine (and_iff_right_of_imp fun hm => ?_).symm
      exact ne_of_mem_of_not_mem hm fun ht' => hdisj k hk t ht' (h.mem_of_slot ht)
  · by_cases hmt : m = t
    · subst hmt
      rw [hclear] at hm
      cases hm
      rfl
    · have hidm : hi.ids[m]? = some (-1) := by
        rw [← getElem?_set_ne (Ne.symm hmt), ← hids, ids, getElem?_map, hm,
          Option.map_some, hid]
      rw [hkeep m (h.not_mem_of_free hidm)] at hm
      exact h.next_eq m node hm hid
  · exact h.slot_inj id' m n (hslot.mp hm).2 (hslot.mp hn).2
  · have hget : hi.ids[t] = id := (List.getElem?_eq_some_iff.mp ht.2).2
    have hpos : 0 < hi.ids.countP (· ≠ -1) :=
      countP_pos_iff.mpr ⟨id, hget ▸ getElem_mem hlt, by simpa using ht.1⟩
    have hset : (hi.ids.set t (-1)).countP (· ≠ -1) = hi.ids.countP (· ≠ -1) - 1 := by
      rw [countP_set hlt, hget]
      simp [ht.1]
    rw [hids, hset, hcount, h.count_eq]
    omega

theorem without_of_ids {hi' : HashId} {t : ℕ} (ht : hi.Slot id t)
    (hids : hi'.ids = hi.ids.set t (-1)) : Without hi hi' id := fun id' m => by
  rw [slot_set hids (List.getElem?_eq_some_iff.mp ht.2).1]
  split_ifs with hm
  · subst hm
    refine iff_of_false (fun ⟨hne, heq⟩ => hne heq.symm) fun ⟨hne, hs⟩ => hne (hs.id_eq ht)
  · refine (and_iff_right_of_imp fun hs heq => hm ?_).symm
    subst heq
    exact h.slot_inj id' m t hs ht

theorem node_eq {c : ℕ} {front rest : List ℕ} (hchain : chain (hi.bucket id) = front ++ c :: rest) :
    ∃ node, hi.id[c]? = some node ∧ Seg hi.nextOf node.next rest none := by
  obtain ⟨p, hp⟩ := h.hash_eq id
  have hseg := h.seg _ _ hp
  rw [hchain] at hseg
  obtain ⟨r, -, hrest⟩ := Seg.append_iff.mp hseg
  have hmem : c ∈ chain (hi.bucket id) := by
    rw [hchain]
    exact mem_append_right _ mem_cons_self
  obtain ⟨id', hslot, -⟩ := (h.mem_iff _ c).mp hmem
  obtain ⟨-, node, hnode, -⟩ := slot_iff.mp hslot
  refine ⟨node, hnode, ?_⟩
  rw [← nextOf_eq hnode]
  exact (Seg.cons_iff.mp hrest).2

/-- The walk of `hashid_remove` along the chain, behind nodes with other ids. -/
theorem removeLoop_eq {fuel c : ℕ} {front rest : List ℕ}
    (hchain : chain (hi.bucket id) = front ++ c :: rest) (hfuel : rest.length < fuel)
    (hnot : ∀ n ∈ front ++ [c], ¬hi.Slot id n) : Removed hi id (removeLoop hi id fuel c) := by
  induction rest generalizing fuel c front with
  | nil =>
    obtain ⟨fuel, rfl⟩ : ∃ f, fuel = f + 1 := Nat.exists_eq_succ_of_ne_zero (by omega)
    obtain ⟨node, hnode, hnext⟩ := h.node_eq hchain
    rw [removeLoop, hnode]
    dsimp only
    rw [Seg.nil_iff.mp hnext]
    refine .inr ⟨fun t ht => hnot t ?_ ht, rfl⟩
    rw [← hchain]
    exact h.mem_of_slot ht
  | cons temp rest ih =>
    obtain ⟨fuel, rfl⟩ : ∃ f, fuel = f + 1 := Nat.exists_eq_succ_of_ne_zero (by omega)
    obtain ⟨node, hnode, hnext⟩ := h.node_eq hchain
    have hchain' : chain (hi.bucket id) = (front ++ [c]) ++ temp :: rest := by
      rw [hchain, append_assoc]
      rfl
    obtain ⟨next, htemp, -⟩ := h.node_eq hchain'
    rw [removeLoop, hnode]
    dsimp only
    rw [(Seg.cons_iff.mp hnext).1]
    dsimp only
    rw [htemp]
    dsimp only
    split_ifs with heq
    · -- the pointer of `c` passes over the node, which is cleared
      have hclt := (List.getElem?_eq_some_iff.mp hnode).1
      have htlt := (List.getElem?_eq_some_iff.mp htemp).1
      have hids : hi.ids[temp]? = some id := by
        rw [ids, getElem?_map, htemp, Option.map_some, heq]
      have hmem : temp ∈ chain (hi.bucket id) := by
        rw [hchain]
        simp
      have hs : hi.Slot id temp := by
        obtain ⟨id', hs, -⟩ := (h.mem_iff _ temp).mp hmem
        rw [hs.2, Option.some_inj] at hids
        exact hids ▸ hs
      have hnodup := h.nodup (hi.bucket id)
      rw [hchain] at hnodup
      have hperm : (front ++ c :: temp :: rest).Perm (temp :: (front ++ c :: rest)) := by
        simpa using @perm_middle _ temp (front ++ [c]) rest
      have hout : temp ∉ front ++ c :: rest := (nodup_cons.mp (hperm.nodup_iff.mp hnodup)).1
      let hi₁ : HashId := { hi with id := hi.id.set c { node with next := next.next } }
      have hids₁ : hi₁.ids = hi.ids := by
        have hc : hi.ids[c]? = some node.id := by
          rw [ids, getElem?_map, hnode, Option.map_some]
        obtain ⟨hlt, hget⟩ := List.getElem?_eq_some_iff.mp hc
        rw [ids_set hi { node with next := next.next } rfl]
        dsimp only
        rw [← hget, set_getElem_self]
      have hnext₁ : hi₁.nextOf = update hi.nextOf c next.next :=
        nextOf_set { node with next := next.next } hclt rfl
      have htlt₁ : temp < hi₁.id.length := by
        simpa [hi₁] using htlt
      have hids' : (clear hi₁ temp).2.ids = hi.ids.set temp (-1) := by
        rw [ids_set hi₁ ⟨-1, none⟩ rfl, hids₁]
      refine .inl ⟨temp, (clear hi₁ temp).2, _, hs, rfl, h.removed (l := front ++ c :: rest) hs rfl
        rfl rfl (fun _ _ => rfl) (fun p hp => ?_) (hchain ▸ hperm) hids' (fun n hn => ?_)
        (getElem?_set_self htlt₁) rfl, h.without_of_ids hs hids', rfl, rfl⟩
      · have hseg := h.seg _ _ hp
        rw [hchain] at hseg
        have hskip := hseg.unlink hnodup
        rw [nextOf_eq htemp, ← hnext₁] at hskip
        refine hskip.congr fun n hn => ?_
        rw [nextOf_set ⟨-1, none⟩ htlt₁ rfl]
        exact update_of_ne (ne_of_mem_of_not_mem hn hout) ..
      · have hnc : n ≠ c := fun heq => hn (heq ▸ hchain ▸ by simp)
        have hnt : n ≠ temp := fun heq => hn (heq ▸ hmem)
        simp only [clear, hi₁]
        rw [getElem?_set_ne hnt.symm, getElem?_set_ne hnc.symm]
    · refine ih hchain' (by rw [length_cons] at hfuel; omega) fun n hn hs => ?_
      rcases mem_append.mp hn with hn | hn
      · exact hnot n hn hs
      · rw [mem_singleton] at hn
        subst hn
        exact heq (Option.some.inj (by rw [← hs.2, ids, getElem?_map, htemp]; rfl))

/-- **The removal** of an id with a slot, and of one without. -/
theorem remove_cases (id : ℤ) : Removed hi id (hi.remove id) := by
  obtain ⟨p, hp⟩ := h.hash_eq id
  have hseg := h.seg _ _ hp
  have hlen := h.length_le (hi.bucket id)
  rw [remove, hp]
  rcases hl : chain (hi.bucket id) with _ | ⟨c, l⟩
  · rw [hl] at hseg
    rw [Seg.nil_iff.mp hseg]
    refine .inr ⟨fun t ht => ?_, rfl⟩
    have := h.mem_of_slot ht
    rw [hl] at this
    cases this
  · rw [hl] at hseg hlen
    obtain ⟨rfl, hrest⟩ := Seg.cons_iff.mp hseg
    obtain ⟨id', hslot, -⟩ := (h.mem_iff (hi.bucket id) c).mp (hl ▸ mem_cons_self)
    obtain ⟨hne, node, hnode, rfl⟩ := slot_iff.mp hslot
    have hnodup := h.nodup (hi.bucket id)
    rw [hl] at hnodup
    dsimp only
    rw [hnode]
    dsimp only
    split_ifs with heq
    · -- the node is the first one of its chain
      rw [heq] at hslot
      have hlt := hslot.lt
      have hplt := (List.getElem?_eq_some_iff.mp hp).1
      have hout : c ∉ l := (nodup_cons.mp hnodup).1
      let hi₁ : HashId := { hi with hash := hi.hash.set (hi.bucket id) node.next }
      have hids' : (clear hi₁ c).2.ids = hi.ids.set c (-1) :=
        ids_set hi ⟨-1, none⟩ rfl
      refine .inl ⟨c, (clear hi₁ c).2, _, hslot, rfl, h.removed (l := l) hslot rfl rfl
        length_set (fun k hk => getElem?_set_ne (Ne.symm hk)) (fun p hp => ?_)
        (hl ▸ .refl _) hids' (fun n hn => ?_) (getElem?_set_self hlt) rfl,
        h.without_of_ids hslot hids', rfl, rfl⟩
      · simp only [clear, hi₁, getElem?_set_self hplt, Option.some_inj] at hp
        rw [← hp, ← nextOf_eq hnode]
        refine hrest.congr fun n hn => ?_
        rw [@nextOf_set hi _ _ ⟨-1, none⟩ hlt rfl]
        exact update_of_ne (ne_of_mem_of_not_mem hn hout) ..
      · have hnc : n ≠ c := fun heq => hn (heq ▸ hl ▸ mem_cons_self)
        exact getElem?_set_ne hnc.symm
    · refine h.removeLoop_eq (show chain (hi.bucket id) = [] ++ c :: l from hl) (by rw [length_cons] at hlen; omega) ?_
      intro n hn hs
      rw [nil_append, mem_singleton] at hn
      subst hn
      exact heq (hslot.id_eq hs)

end

end Chained

end HashId

end Mtask.GateService
