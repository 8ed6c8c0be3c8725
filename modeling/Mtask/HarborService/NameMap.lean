import Mtask.HarborService.MsgQueue

/-!
# The names of the harbor service

The hash map of `mtask_service_harbor.c` from global names to handles. A name is an array of 16
bytes that is compared like a C string, and two names are the same for the map if they have the
same hash and the same characters.
-/

namespace Mtask.HarborService

/-- `GLOBALNAME_LENGTH` -/
def globalnameLength : ℕ := 16

/-- `char name[GLOBALNAME_LENGTH]` -/
abbrev GlobalName := Vector UInt8 globalnameLength

/-- A word of a name, as the code reads it through a pointer to `uint32_t` (the least byte
first). -/
def nameWord (name : GlobalName) (i : ℕ) : UInt32 :=
  let byte (j : ℕ) : UInt32 := (name.toList.getD (4 * i + j) 0).toUInt32
  byte 0 ||| byte 1 <<< 8 ||| byte 2 <<< 16 ||| byte 3 <<< 24

/-- `ptr[0] ^ ptr[1] ^ ptr[2] ^ ptr[3]` -/
def nameHash (name : GlobalName) : UInt32 :=
  nameWord name 0 ^^^ nameWord name 1 ^^^ nameWord name 2 ^^^ nameWord name 3

/-- The characters of an array that is read as a C string. -/
def cString (bytes : List UInt8) : List UInt8 :=
  bytes.takeWhile fun b => b ≠ 0

/-- The array that is filled with zeros behind `name`. -/
def padName (name : List UInt8) : GlobalName :=
  Vector.ofFn fun i => name.getD i 0

/-- `struct keyvalue`, less its link; `value` is `0` while the name is not bound. -/
structure KeyValue where
  key : GlobalName
  hash : UInt32
  value : UInt32
  queue : Option HarborMsgQueue

/-- `HASH_SIZE` -/
def hashSize : ℕ := 4096

/-- `struct hashmap` -/
structure Hashmap where
  node : ℕ → List KeyValue

/-- `hash_new` -/
def hashNew : Hashmap where
  node := fun _ => []

/-- The test of `hash_search`: the hash, and `strncmp(node->key, name, GLOBALNAME_LENGTH) == 0`. -/
def KeyValue.matches (node : KeyValue) (name : GlobalName) : Bool :=
  node.hash = nameHash name ∧ cString node.key.toList = cString name.toList

/-- The list of the map that `name` belongs to. -/
def hashIndex (name : GlobalName) : ℕ :=
  (nameHash name).toNat % hashSize

/-- `hash_search` -/
def hashSearch (hash : Hashmap) (name : GlobalName) : Option KeyValue :=
  (hash.node (hashIndex name)).find? fun node => node.matches name

/-- `hash_insert`: the map with the new node, and the node. -/
def hashInsert (hash : Hashmap) (name : GlobalName) : Hashmap × KeyValue :=
  let node : KeyValue := { key := name, hash := nameHash name, value := 0, queue := none }
  ({ node := Function.update hash.node (hashIndex name) (node :: hash.node (hashIndex name)) },
    node)

/-- Writing to the node that `hash_search` has found. -/
def hashModify (hash : Hashmap) (name : GlobalName) (f : KeyValue → KeyValue) : Hashmap where
  node := Function.update hash.node (hashIndex name)
    ((hash.node (hashIndex name)).modify
      ((hash.node (hashIndex name)).findIdx fun node => node.matches name) f)

/-- The node of a name, which is inserted if there is none: the map, and the node. -/
def hashNode (hash : Hashmap) (name : GlobalName) : Hashmap × KeyValue :=
  match hashSearch hash name with
  | some node => (hash, node)
  | none => hashInsert hash name

/-! ### The map as a function -/

/-- What the map knows of a name: its hash and its characters. -/
def nameKey (name : GlobalName) : UInt32 × List UInt8 :=
  (nameHash name, cString name.toList)

variable {hash : Hashmap} {name name' : GlobalName} {node : KeyValue}

theorem matches_iff : node.matches name ↔ (node.hash, cString node.key.toList) = nameKey name := by
  simp only [KeyValue.matches, nameKey, decide_eq_true_eq, Prod.mk.injEq]

theorem matches_congr (h : nameKey name = nameKey name') :
    node.matches name = node.matches name' := by
  rw [Bool.eq_iff_iff, matches_iff, matches_iff, h]

theorem hashIndex_congr (h : nameKey name = nameKey name') : hashIndex name = hashIndex name' := by
  have hhash := congrArg Prod.fst h
  simp only [nameKey] at hhash
  rw [hashIndex, hashIndex, hhash]

theorem hashSearch_congr (h : nameKey name = nameKey name') :
    hashSearch hash name = hashSearch hash name' := by
  simp only [hashSearch, hashIndex_congr h, matches_congr h]

theorem hashSearch_new : hashSearch hashNew name = none := rfl

theorem not_matches_of_ne (hne : nameKey name ≠ nameKey name') (h : node.matches name = true) :
    node.matches name' = false := by
  rw [Bool.eq_false_iff]
  intro h'
  exact hne ((matches_iff.mp h).symm.trans (matches_iff.mp h'))

theorem hashSearch_insert :
    hashSearch (hashInsert hash name).1 name' =
      if nameKey name = nameKey name' then some (hashInsert hash name).2
      else hashSearch hash name' := by
  have hself : (hashInsert hash name).2.matches name = true := matches_iff.mpr rfl
  split_ifs with hkey
  · rw [← hashSearch_congr hkey, hashSearch, hashInsert]
    simp only [Function.update_self]
    exact List.find?_cons_of_pos hself
  · simp only [hashSearch, hashInsert]
    by_cases hindex : hashIndex name' = hashIndex name
    · rw [hindex, Function.update_self]
      exact List.find?_cons_of_neg (Bool.eq_false_iff.mp (not_matches_of_ne hkey hself))
    · rw [Function.update_of_ne hindex]

private theorem find?_modify_findIdx (p : KeyValue → Bool) (f : KeyValue → KeyValue)
    (hf : ∀ a, p a = true → p (f a) = true) :
    ∀ l : List KeyValue, (l.modify (l.findIdx p) f).find? p = (l.find? p).map f
  | [] => rfl
  | a :: l => by
    rw [List.findIdx_cons]
    rcases ha : p a with _ | _
    · rw [cond_false, List.modify_succ_cons, List.find?_cons_of_neg (by simp [ha]),
        List.find?_cons_of_neg (by simp [ha]), find?_modify_findIdx p f hf l]
    · rw [cond_true, List.modify_zero_cons, List.find?_cons_of_pos (hf a ha),
        List.find?_cons_of_pos ha, Option.map_some]

private theorem find?_modify_findIdx_ne (p q : KeyValue → Bool) (f : KeyValue → KeyValue)
    (hf : ∀ a, p a = true → q a = false ∧ q (f a) = false) :
    ∀ l : List KeyValue, (l.modify (l.findIdx p) f).find? q = l.find? q
  | [] => rfl
  | a :: l => by
    rw [List.findIdx_cons]
    rcases ha : p a with _ | _
    · rw [cond_false, List.modify_succ_cons, List.find?_cons, List.find?_cons,
        find?_modify_findIdx_ne p q f hf l]
    · obtain ⟨hq, hq'⟩ := hf a ha
      rw [cond_true, List.modify_zero_cons, List.find?_cons_of_neg (by simp [hq']),
        List.find?_cons_of_neg (by simp [hq])]

/-- Writing to a node changes what is found under its key only. -/
theorem hashSearch_modify {f : KeyValue → KeyValue}
    (hf : ∀ node, (f node).key = node.key ∧ (f node).hash = node.hash) :
    hashSearch (hashModify hash name f) name' =
      if nameKey name = nameKey name' then (hashSearch hash name').map f
      else hashSearch hash name' := by
  have hmatches : ∀ node name, (f node).matches name = node.matches name := fun node name => by
    rw [KeyValue.matches, KeyValue.matches, (hf node).1, (hf node).2]
  simp only [hashSearch, hashModify]
  split_ifs with hkey
  · rw [← hashIndex_congr hkey, Function.update_self]
    simp only [← matches_congr hkey]
    exact find?_modify_findIdx _ f (fun a ha => by rw [hmatches, ha]) _
  · by_cases hindex : hashIndex name' = hashIndex name
    · rw [hindex, Function.update_self]
      refine find?_modify_findIdx_ne _ _ f (fun a ha => ?_) _
      rw [hmatches]
      exact ⟨not_matches_of_ne hkey ha, not_matches_of_ne hkey ha⟩
    · rw [Function.update_of_ne hindex]

/-- The handle of a name and the messages that wait for it. -/
def nodeOf (hash : Hashmap) (name : GlobalName) : UInt32 × Option HarborMsgQueue :=
  ((hashSearch hash name).map fun node => (node.value, node.queue)).getD (0, none)

theorem nodeOf_eq (hash : Hashmap) (name : GlobalName) :
    nodeOf hash name = ((hashNode hash name).2.value, (hashNode hash name).2.queue) := by
  rw [nodeOf, hashNode]
  rcases hashSearch hash name with _ | node <;> rfl

theorem hashSearch_node :
    hashSearch (hashNode hash name).1 name' =
      if nameKey name = nameKey name' then some (hashNode hash name).2
      else hashSearch hash name' := by
  rw [hashNode]
  rcases hsearch : hashSearch hash name with _ | node
  · exact hashSearch_insert
  · split_ifs with hkey
    · rw [← hashSearch_congr hkey, hsearch]
    · rfl

theorem nodeOf_node : nodeOf (hashNode hash name).1 name' = nodeOf hash name' := by
  rw [nodeOf, hashSearch_node]
  split_ifs with hkey
  · rw [Option.map_some, Option.getD_some, ← nodeOf_eq, nodeOf, nodeOf, hashSearch_congr hkey]
  · rfl

theorem nodeOf_modify {f : KeyValue → KeyValue}
    (hf : ∀ node, (f node).key = node.key ∧ (f node).hash = node.hash) :
    nodeOf (hashModify (hashNode hash name).1 name f) name' =
      if nameKey name = nameKey name' then
        ((f (hashNode hash name).2).value, (f (hashNode hash name).2).queue)
      else nodeOf hash name' := by
  rw [nodeOf, hashSearch_modify hf, hashSearch_node]
  split_ifs with hkey <;> rfl

end Mtask.HarborService
