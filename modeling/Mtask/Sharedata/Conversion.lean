import Mtask.Sharedata.Keys

/-!
# The passes of the conversion

What the functions of the conversion do to the two parts of an object, whatever the values of the
table are converted to. A conversion is refused when the value of an entry is refused that is looked
at; it is not looked at when its key is taken for that of an earlier entry.
-/

namespace Mtask.Sharedata

open Lua Lua.Value LuaSeri ChainedSlots

/-! ### Outcomes -/

/-- The function succeeds with more strings, or it is refused; it succeeds exactly if `accepted`. -/
def Outcome {α : Type} (result : Except Failure (α × Strings)) (strings : Strings) (accepted : Prop)
    (post : Strings → α → Prop) : Prop :=
  (∃ a strings', result = .ok (a, strings') ∧ strings <+: strings' ∧ strings'.Nodup ∧
    post strings' a ∧ accepted) ∨ (∃ error, result = .error (.raised error) ∧ ¬accepted)

namespace Outcome

variable {α β : Type} {m : Conv α} {f : α → Conv β} {result : Except Failure (α × Strings)}
  {strings : Strings} {accepted accepted' : Prop} {post post' : Strings → α → Prop}

theorem pure {a : α} (h : strings.Nodup) (ha : accepted) (hpost : post strings a) :
    Outcome ((pure a : Conv α) strings) strings accepted post :=
  .inl ⟨a, strings, rfl, List.prefix_rfl, h, hpost, ha⟩

theorem throw {error : Refusal} (h : ¬accepted) :
    Outcome ((throw (.raised error) : Conv α) strings) strings accepted post :=
  .inr ⟨error, rfl, h⟩

theorem bind {post' : Strings → β → Prop} (hm : Outcome (m strings) strings accepted post)
    (hf : ∀ a strings', strings <+: strings' → strings'.Nodup → post strings' a →
      Outcome (f a strings') strings' accepted' post') :
    Outcome ((m >>= f) strings) strings (accepted ∧ accepted') post' := by
  have hrun : (m >>= f) strings = (m strings >>= fun p => f p.1 p.2) := rfl
  rw [hrun]
  rcases hm with ⟨a, strings₁, heq, hle, hnodup, hpost, ha⟩ | ⟨error, heq, ha⟩
  · rw [heq]
    rcases hf a strings₁ hle hnodup hpost with
      ⟨b, strings₂, heq', hle', hnodup', hpost', ha'⟩ | ⟨error, heq', ha'⟩
    · exact .inl ⟨b, strings₂, heq', hle.trans hle', hnodup', hpost', ha, ha'⟩
    · exact .inr ⟨error, heq', fun h => ha' h.2⟩
  · rw [heq]
    exact .inr ⟨error, rfl, fun h => ha h.1⟩

theorem mono (h : Outcome result strings accepted post) (hiff : accepted ↔ accepted')
    (hpost : ∀ strings' a, strings <+: strings' → accepted → post strings' a → post' strings' a) :
    Outcome result strings accepted' post' := by
  rcases h with ⟨a, strings', heq, hle, hnodup, ha, hacc⟩ | ⟨error, heq, hacc⟩
  · exact .inl ⟨a, strings', heq, hle, hnodup, hpost strings' a hle hacc ha, hiff.1 hacc⟩
  · exact .inr ⟨error, heq, fun h => hacc (hiff.2 h)⟩

/-- A loop over a list: `inv` is the invariant, and `cond` says that an element is accepted. -/
theorem foldlM {l : List β} {step : α → β → Conv α} (inv : ℕ → Strings → α → Prop)
    {cond : ℕ → Prop}
    (hstep : ∀ n b a strings, l[n]? = some b → inv n strings a → strings.Nodup →
      Outcome (step a b strings) strings (cond n) (inv (n + 1)))
    {a : α} (h : inv 0 strings a) (hnodup : strings.Nodup) :
    Outcome (l.foldlM step a strings) strings (∀ n < l.length, cond n) (inv l.length) := by
  have hall : ∀ (rest : List β) (n : ℕ) (a : α) (strings : Strings), n ≤ l.length →
      l.drop n = rest → inv n strings a → strings.Nodup →
      Outcome (rest.foldlM step a strings) strings
        (∀ k < l.length, n ≤ k → cond k) (inv l.length) := by
    intro rest
    induction rest with
    | nil =>
      intro n a strings hle hdrop hinv hnodup
      have hn : n = l.length := Nat.le_antisymm hle (List.drop_eq_nil_iff.1 hdrop)
      subst hn
      exact .pure hnodup (fun k hk hle => by omega) hinv
    | cons b rest ih =>
      intro n a strings hle hdrop hinv hnodup
      have hlt : n < l.length := by
        by_contra hge
        rw [List.drop_eq_nil_of_le (Nat.le_of_not_lt hge)] at hdrop
        cases hdrop
      rw [List.drop_eq_getElem_cons hlt] at hdrop
      have hdrop := List.cons.inj hdrop
      rw [← hdrop.1]
      have hfirst := hstep n l[n] a strings (List.getElem?_eq_getElem hlt) hinv hnodup
      have hboth := hfirst.bind (f := fun a => rest.foldlM step a) fun a strings' _ hnodup hinv =>
        ih (n + 1) a strings' hlt hdrop.2 hinv hnodup
      refine hboth.mono ⟨fun h k hk hle => ?_, fun h => ⟨h n hlt (Nat.le_refl n), fun k hk hle =>
        h k hk (Nat.le_of_succ_le hle)⟩⟩ fun _ _ _ _ h => h
      rcases Nat.eq_or_lt_of_le hle with rfl | hlt
      · exact h.1
      · exact h.2 k hk hlt
  exact (hall l 0 a strings (Nat.zero_le _) List.drop_zero h hnodup).mono
    ⟨fun h n hn => h n hn (Nat.zero_le n), fun h n hn _ => h n hn⟩ fun _ _ _ _ h => h

end Outcome

/-! ### Single keys -/

theorem outcome_stringindex {strings : Strings} (h : strings.Nodup) (str : List UInt8) :
    Outcome (stringindex str strings) strings True
      fun strings' index => stringAt strings' index = some str := by
  unfold stringindex
  cases hfind : strings.idxOf? str with
  | some i =>
    refine .inl ⟨i + 2, strings, rfl, List.prefix_rfl, h, ?_, trivial⟩
    obtain ⟨hlt, heq, -⟩ := List.idxOf?_eq_some_iff.1 hfind
    unfold stringAt
    rw [if_pos (Nat.le_add_left 2 i), Nat.add_sub_cancel, List.getElem?_eq_getElem hlt]
    exact congrArg some heq
  | none =>
    have hnot : str ∉ strings := List.idxOf?_eq_none_iff.1 hfind
    refine .inl ⟨_, _, rfl, List.prefix_append _ _, ?_, ?_, trivial⟩
    · exact List.nodup_append.2 ⟨h, List.nodup_singleton _, fun a ha b hb heq => by
        rw [List.mem_singleton.1 hb] at heq
        exact hnot (heq ▸ ha)⟩
    · simp [stringAt]

/-- What `ishashkey` has found is the key. -/
def MatchesKey (strings : Strings) : ℕ ⊕ Key × ℕ → ℕ ⊕ Query × ℕ → Prop
  | .inl i, .inl i' => i = i'
  | .inr (k, hash), .inr (q, hash') => sameKey strings k q = true ∧ hash = hash'
  | _, _ => False

theorem outcome_ishashkey {strings : Strings} (h : strings.Nodup) (sizearray : ℕ)
    (key : Value Rawlen) : Outcome (ishashkey sizearray key strings) strings True
      fun strings' found => MatchesKey strings' found (hashkey sizearray key) := by
  have hstring (s : List UInt8) : Outcome
      ((stringindex s >>= fun index => pure (.inr (.string index, (calchash s).toNat)) :
        Conv (ℕ ⊕ Key × ℕ)) strings) strings True
      fun strings' found => MatchesKey strings' found (.inr (.string s, (calchash s).toNat)) := by
    refine ((outcome_stringindex h s).bind
      fun index strings' _ hnodup hindex => ?_).mono (and_self_iff) fun _ _ _ _ h => h
    exact .pure hnodup trivial ⟨decide_eq_true hindex, rfl⟩
  have hnumber (key : BitVec 32) : Outcome
      ((if 0 < key.toInt ∧ key.toInt ≤ sizearray then pure (.inl key.toNat)
        else pure (.inr (.integer key, key.toNat)) : Conv (ℕ ⊕ Key × ℕ)) strings) strings True
      fun strings' found => MatchesKey strings' found
        (numberKey sizearray key) := by
    unfold numberKey
    by_cases hcond : 0 < key.toInt ∧ key.toInt ≤ sizearray
    · simp only [if_pos hcond]
      exact .pure h trivial rfl
    · simp only [if_neg hcond]
      exact .pure h trivial ⟨decide_eq_true rfl, rfl⟩
  cases key with
  | integer i => exact hnumber _
  | float bits => exact hnumber _
  | string s => exact hstring s
  | nil | boolean | lightuserdata | table => exact hstring []

theorem outcome_countsize {strings : Strings} (h : strings.Nodup) (sizearray : ℕ)
    (entries : Entries) : Outcome (countsize sizearray entries strings) strings
      (∀ e ∈ entries, AcceptedKey e.1) fun _ n => n = hashSize sizearray entries := by
  have hloop : Outcome (countsize sizearray entries strings) strings
      (∀ n < entries.length, ∀ e, entries[n]? = some e → AcceptedKey e.1)
      fun _ count => count = (entries.take entries.length).countP (counted sizearray ·.1) := by
    unfold countsize
    have hstart : 0 = (entries.take 0).countP (counted sizearray ·.1) := rfl
    refine Outcome.foldlM (fun n _ count =>
      count = (entries.take n).countP (counted sizearray ·.1)) ?_ hstart h
    intro n e count strings he hcount hnodup
    have hnext : (entries.take (n + 1)).countP (counted sizearray ·.1) =
        count + if counted sizearray e.1 then 1 else 0 := by
      rw [List.take_add_one, he, List.countP_append, hcount]
      cases hcase : counted sizearray e.1 <;> simp [hcase]
    have hcond : (∀ e', entries[n]? = some e' → AcceptedKey e'.1) ↔ AcceptedKey e.1 :=
      ⟨fun h => h e he, fun h e' he' => by rw [he] at he'; cases he'; exact h⟩
    rw [hnext]
    obtain ⟨key, value⟩ := e
    cases key with
    | integer i =>
      by_cases hi : 0 < i.toInt ∧ i.toInt ≤ sizearray
      · exact .pure hnodup (hcond.2 trivial) (by simp [counted, hi])
      · exact .pure hnodup (hcond.2 trivial) (by simp [counted, hi])
    | float bits => exact .throw fun h => hcond.1 h
    | string s => exact .pure hnodup (hcond.2 trivial) (by simp [counted])
    | table n es => exact .pure hnodup (hcond.2 trivial) (by simp [counted])
    | nil => exact .throw fun h => hcond.1 h
    | boolean b => exact .throw fun h => hcond.1 h
    | lightuserdata p => exact .throw fun h => hcond.1 h
  refine hloop.mono ⟨fun h e he => ?_, fun h n hn e he => h e (List.mem_of_getElem? he)⟩
    fun _ _ _ _ h => by rwa [List.take_length] at h
  obtain ⟨n, hn, rfl⟩ := List.getElem_of_mem he
  exact h n hn _ (List.getElem?_eq_getElem hn)

/-! ### The passes -/

section Passes

variable (stands : Strings → ConfValue → Value Rawlen → Prop) (sizearray : ℕ) (entries : Entries)

/-- A node is the one of the entry with the number `m`. -/
def Carries (strings : Strings) (m : ℕ) (key : Key) (hash : ℕ) (value : ConfValue) : Prop :=
  ∃ e q, entries[m]? = some e ∧ hashkey sizearray e.1 = .inr (q, hash) ∧
    sameKey strings key q = true ∧ stands strings value e.2

/-- The array part after the first `m` entries. -/
structure ArrayUpTo (m : ℕ) (strings : Strings) (array : List ConfValue) : Prop where
  length : array.length = sizearray
  value : ∀ i < sizearray,
    (∃ k e v, k < m ∧ entries[k]? = some e ∧ hashkey sizearray e.1 = .inl (i + 1) ∧
      array[i]? = some v ∧ stands strings v e.2) ∨
    ((∀ k e, k < m → entries[k]? = some e → hashkey sizearray e.1 ≠ .inl (i + 1)) ∧
      array[i]? = some .nil)

/-- The two parts after the first `m` entries in `fillnocolliding`. -/
structure FirstPass (m : ℕ) (strings : Strings) (tbl : Parts) : Prop where
  array : ArrayUpTo stands sizearray entries m strings tbl.1
  length : tbl.2.length = hashSize sizearray entries
  chains : Chains tbl.2 fun _ => []
  filled : ∃ item, Filled (Carries stands sizearray entries strings) tbl.2
    (fun k => k < m ∧ First sizearray entries k) item

/-- The two parts after the first `m` entries in `fillcolliding`. -/
structure SecondPass (m : ℕ) (strings : Strings) (tbl : Parts) : Prop where
  array : ArrayUpTo stands sizearray entries entries.length strings tbl.1
  length : tbl.2.length = hashSize sizearray entries
  filled : ∃ chain item, Chains tbl.2 chain ∧
    Filled (Carries stands sizearray entries strings) tbl.2
      (fun k => First sizearray entries k ∨ k < m ∧ Linked sizearray entries k) item ∧
    ∀ k p, First sizearray entries k → hashAt sizearray entries k = some p →
      ∃ s, slotAt tbl.2 (mainpos tbl.2 p.2) = some s ∧ item (mainpos tbl.2 p.2) = k

variable {stands sizearray entries} {m : ℕ} {strings strings' : Strings}

/-- More strings do not change what a value stands for. -/
def KeepsStanding (stands : Strings → ConfValue → Value Rawlen → Prop) : Prop :=
  ∀ strings strings' v value, strings <+: strings' → stands strings v value →
    stands strings' v value

variable {hash : ℕ} {key : Key} {value : ConfValue}

theorem Carries.mono (hmono : KeepsStanding stands) (hle : strings <+: strings')
    (h : Carries stands sizearray entries strings m key hash value) :
    Carries stands sizearray entries strings' m key hash value := by
  obtain ⟨e, q, he, hkey, hsame, hvalue⟩ := h
  exact ⟨e, q, he, hkey, sameKey_mono hle hsame, hmono _ _ _ _ hle hvalue⟩

variable {array : List ConfValue}

theorem ArrayUpTo.mono (hmono : KeepsStanding stands) (hle : strings <+: strings')
    (h : ArrayUpTo stands sizearray entries m strings array) :
    ArrayUpTo stands sizearray entries m strings' array := by
  refine ⟨h.length, fun i hi => ?_⟩
  rcases h.value i hi with ⟨k, e, v, hk, he, hkey, hv, hstands⟩ | hnone
  · exact .inl ⟨k, e, v, hk, he, hkey, hv, hmono _ _ _ _ hle hstands⟩
  · exact .inr hnone

theorem ArrayUpTo.skip {e : Value Rawlen × Value Rawlen}
    (h : ArrayUpTo stands sizearray entries m strings array) (he : entries[m]? = some e)
    (hkey : ∀ i, hashkey sizearray e.1 ≠ .inl i) :
    ArrayUpTo stands sizearray entries (m + 1) strings array := by
  refine ⟨h.length, fun i hi => ?_⟩
  rcases h.value i hi with ⟨k, e', v, hk, he', hkey', hv, hstands⟩ | ⟨hnone, hnil⟩
  · exact .inl ⟨k, e', v, Nat.lt_succ_of_lt hk, he', hkey', hv, hstands⟩
  · refine .inr ⟨fun k e' hk he' => ?_, hnil⟩
    rcases Nat.lt_succ_iff_lt_or_eq.1 hk with hk | rfl
    · exact hnone k e' hk he'
    · rw [he] at he'
      cases he'
      exact hkey _

theorem ArrayUpTo.set {e : Value Rawlen × Value Rawlen} {i : ℕ} {v : ConfValue}
    (h : ArrayUpTo stands sizearray entries m strings array) (he : entries[m]? = some e)
    (hkey : hashkey sizearray e.1 = .inl i) (hv : stands strings v e.2) :
    ArrayUpTo stands sizearray entries (m + 1) strings (array.set (i - 1) v) := by
  obtain ⟨hpos, hle⟩ := hashkey_inl hkey
  refine ⟨by rw [List.length_set, h.length], fun j hj => ?_⟩
  by_cases hji : i = j + 1
  · subst hji
    refine .inl ⟨m, e, v, Nat.lt_succ_self m, he, hkey, ?_, hv⟩
    rw [Nat.add_sub_cancel, List.getElem?_set_self (by rw [h.length]; exact hj)]
  · have hne : i - 1 ≠ j := by omega
    rw [List.getElem?_set_ne hne]
    rcases h.value j hj with ⟨k, e', v, hk, he', hkey', hv, hstands⟩ | ⟨hnone, hnil⟩
    · exact .inl ⟨k, e', v, Nat.lt_succ_of_lt hk, he', hkey', hv, hstands⟩
    · refine .inr ⟨fun k e' hk he' => ?_, hnil⟩
      rcases Nat.lt_succ_iff_lt_or_eq.1 hk with hk | rfl
      · exact hnone k e' hk he'
      · rw [he] at he'
        cases he'
        rw [hkey]
        exact fun heq => hji (Sum.inl.inj heq)

theorem FirstPass.mono (hmono : KeepsStanding stands) (hle : strings <+: strings') {tbl : Parts}
    (h : FirstPass stands sizearray entries m strings tbl) :
    FirstPass stands sizearray entries m strings' tbl := by
  obtain ⟨item, hfilled⟩ := h.filled
  exact ⟨h.array.mono hmono hle, h.length, h.chains, item,
    hfilled.mono (fun _ _ _ _ h => h.mono hmono hle) fun _ => Iff.rfl⟩

theorem SecondPass.mono (hmono : KeepsStanding stands) (hle : strings <+: strings') {tbl : Parts}
    (h : SecondPass stands sizearray entries m strings tbl) :
    SecondPass stands sizearray entries m strings' tbl := by
  obtain ⟨chain, item, hchains, hfilled, hheads⟩ := h.filled
  exact ⟨h.array.mono hmono hle, h.length, chain, item, hchains,
    hfilled.mono (fun _ _ _ _ h => h.mono hmono hle) fun _ => Iff.rfl, hheads⟩

theorem hashAt_of_hashkey {e : Value Rawlen × Value Rawlen} {p : Query × ℕ}
    (he : entries[m]? = some e) (hkey : hashkey sizearray e.1 = .inr p) :
    hashAt sizearray entries m = some p := by
  rw [hashAt, he, Option.bind_some, hkey]
  rfl

theorem hashAt_eq_none {e : Value Rawlen × Value Rawlen} {i : ℕ}
    (he : entries[m]? = some e) (hkey : hashkey sizearray e.1 = .inl i) :
    hashAt sizearray entries m = none := by
  rw [hashAt, he, Option.bind_some, hkey]
  rfl

theorem Carries.hashAt (h : Carries stands sizearray entries strings m key hash value) :
    ∃ q, hashAt sizearray entries m = some (q, hash) ∧ sameKey strings key q = true := by
  obtain ⟨e, q, he, hkey, hsame, -⟩ := h
  exact ⟨q, hashAt_of_hashkey he hkey, hsame⟩

section Steps

variable {convtable : Rawlen → Entries → Conv ConfValue} {accepted : Value Rawlen → Prop}
  (hmono : KeepsStanding stands)
  (hset : ∀ value strings, WellFormed value → strings.Nodup →
    Outcome (setvalue convtable value strings) strings (accepted value)
      fun strings' v => stands strings' v value)
  (hwell : ∀ e ∈ entries, WellFormed e.2)
  {tbl : Parts} {e : Value Rawlen × Value Rawlen}

/-- The entries whose values are looked at in the first pass. -/
def FirstAccepted (accepted : Value Rawlen → Prop) (sizearray : ℕ) (entries : Entries) (m : ℕ) :
    Prop :=
  ∀ e, entries[m]? = some e →
    hashAt sizearray entries m = none ∨ First sizearray entries m → accepted e.2

/-- The entries whose values are looked at in the second pass. -/
def LinkedAccepted (accepted : Value Rawlen → Prop) (sizearray : ℕ) (entries : Entries) (m : ℕ) :
    Prop :=
  ∀ e, entries[m]? = some e → Linked sizearray entries m → accepted e.2

include hmono hset hwell

theorem outcome_fill_array (hinv : FirstPass stands sizearray entries m strings tbl)
    (hnodup : strings.Nodup) (he : entries[m]? = some e) {key : ℕ}
    (hkey : hashkey sizearray e.1 = .inl key) :
    Outcome ((do return (← setarray convtable tbl.1 e.2 key, tbl.2) : Conv Parts) strings) strings
      (FirstAccepted accepted sizearray entries m)
      (FirstPass stands sizearray entries (m + 1)) := by
  have hnone := hashAt_eq_none he hkey
  have hcond : accepted e.2 ↔ FirstAccepted accepted sizearray entries m := by
    constructor
    · intro h e' he' _
      rw [he] at he'
      cases he'
      exact h
    · exact fun h => h e he (.inl hnone)
  have hrun : (do return (← setarray convtable tbl.1 e.2 key, tbl.2) : Conv Parts) =
      setvalue convtable e.2 >>= fun v => pure (tbl.1.set (key - 1) v, tbl.2) := by
    simp only [setarray, bind_assoc, pure_bind]
  rw [hrun]
  refine ((hset e.2 strings (hwell e (List.mem_of_getElem? he)) hnodup).bind
    fun v strings' hle hnodup' hv => .pure hnodup' trivial ?_).mono
    ((and_iff_left trivial).trans hcond) fun _ _ _ _ h => h
  obtain ⟨item, hfilled⟩ := hinv.filled
  refine ⟨(hinv.array.mono hmono hle).set he hkey hv, hinv.length, hinv.chains, item,
    hfilled.mono (fun _ _ _ _ h => h.mono hmono hle) fun k => ?_⟩
  refine and_congr_left fun hfirst => ⟨Nat.lt_succ_of_lt, fun hlt => ?_⟩
  rcases Nat.lt_succ_iff_lt_or_eq.1 hlt with hlt | rfl
  · exact hlt
  · obtain ⟨p, hp, -⟩ := hfirst
    rw [hnone] at hp
    cases hp

variable {q : Query}

theorem outcome_fill_first (hinv : FirstPass stands sizearray entries m strings tbl)
    (hnodup : strings.Nodup) (he : entries[m]? = some e)
    (hkey : hashkey sizearray e.1 = .inr (q, hash)) (hsame : sameKey strings key q = true)
    (hpos : 0 < hashSize sizearray entries) :
    Outcome ((match slotAt tbl.2 (mainpos tbl.2 hash) with
      | some _ => return tbl
      | none => return (tbl.1, place tbl.2 key (← setvalue convtable e.2) hash) : Conv Parts)
        strings) strings
      (FirstAccepted accepted sizearray entries m)
      (FirstPass stands sizearray entries (m + 1)) := by
  have hhash := hashAt_of_hashkey he hkey
  obtain ⟨item, hfilled⟩ := hinv.filled
  have harray := hinv.array.skip he fun i heq => by
    rw [hkey] at heq
    cases heq
  have hmain (hash : ℕ) : mainpos tbl.2 hash = hash % hashSize sizearray entries := by
    rw [mainpos, hinv.length]
  -- without chains, every node is at its main position
  have hown {i s} (hs : slotAt tbl.2 i = some s) : i = s.hash % hashSize sizearray entries := by
    by_contra hne
    rw [← hmain] at hne
    exact absurd (hinv.chains.mem hs hne) List.not_mem_nil
  cases hslot : slotAt tbl.2 (mainpos tbl.2 hash) with
  | some s =>
    obtain ⟨hlt, -⟩ := hfilled.isInside hslot
    obtain ⟨q', hq', -⟩ := (hfilled.carried hslot).hashAt
    have hnot : ¬First sizearray entries m := by
      rintro ⟨p, hp, hfirst⟩
      rw [hhash] at hp
      cases hp
      refine hfirst _ hlt _ hq' ?_
      rw [← hown hslot, hmain]
    have hcond : FirstAccepted accepted sizearray entries m := by
      rintro e' - (hnone | hfirst)
      · rw [hhash] at hnone
        cases hnone
      · exact absurd hfirst hnot
    refine .pure hnodup hcond ⟨harray, hinv.length, hinv.chains, item,
      hfilled.mono (fun _ _ _ _ h => h) fun k => ?_⟩
    refine and_congr_left fun hfirst => ⟨Nat.lt_succ_of_lt, fun hlt => ?_⟩
    rcases Nat.lt_succ_iff_lt_or_eq.1 hlt with hlt | rfl
    · exact hlt
    · exact absurd hfirst hnot
  | none =>
    have hfirst : First sizearray entries m := by
      refine ⟨_, hhash, fun m' hlt p' hp' heq => ?_⟩
      obtain ⟨m₀, hle, p₀, hfirst₀, hp₀, heq₀⟩ := exists_first hp'
      obtain ⟨i, s, hs, hitem⟩ := hfilled.all ⟨Nat.lt_of_le_of_lt hle hlt, hfirst₀⟩
      obtain ⟨q', hq', -⟩ := (hfilled.carried hs).hashAt
      rw [hitem, hp₀] at hq'
      cases hq'
      have hi : i = mainpos tbl.2 hash := by
        rw [hown hs, hmain]
        exact heq₀.trans heq
      rw [← hi, hs] at hslot
      cases hslot
    have hcond : accepted e.2 ↔ FirstAccepted accepted sizearray entries m := by
      constructor
      · intro h e' he' _
        rw [he] at he'
        cases he'
        exact h
      · exact fun h => h e he (.inr hfirst)
    refine ((hset e.2 strings (hwell e (List.mem_of_getElem? he)) hnodup).bind
      fun v strings' hle hnodup' hv => .pure hnodup' trivial ?_).mono
      ((and_iff_left trivial).trans hcond) fun _ _ _ _ h => h
    have hpos' : 0 < tbl.2.length := by
      rw [hinv.length]
      exact hpos
    have hcarries : Carries stands sizearray entries strings' m key hash v :=
      ⟨e, q, he, hkey, sameKey_mono hle hsame, hv⟩
    have hplaced := (hfilled.mono (fun _ _ _ _ h => h.mono hmono hle) fun _ => Iff.rfl).place
      (a := m) (fun h => Nat.lt_irrefl m h.1) hpos' hslot hcarries
    refine ⟨harray.mono hmono hle, by rw [length_place, hinv.length],
      hinv.chains.place hpos' hslot, _, hplaced.mono (fun _ _ _ _ h => h) fun k => ?_⟩
    constructor
    · rintro (⟨hlt, hk⟩ | rfl)
      · exact ⟨Nat.lt_succ_of_lt hlt, hk⟩
      · exact ⟨Nat.lt_succ_self _, hfirst⟩
    · rintro ⟨hlt, hk⟩
      rcases Nat.lt_succ_iff_lt_or_eq.1 hlt with hlt | rfl
      · exact .inl ⟨hlt, hk⟩
      · exact .inr rfl

theorem outcome_fillnocolliding (hpos : 0 < hashSize sizearray entries) (hnodup : strings.Nodup)
    (hinv : FirstPass stands sizearray entries 0 strings tbl) :
    Outcome (fillnocolliding convtable sizearray entries tbl strings) strings
      (∀ m < entries.length, FirstAccepted accepted sizearray entries m)
      (FirstPass stands sizearray entries entries.length) := by
  refine Outcome.foldlM _ ?_ hinv hnodup
  intro m e tbl strings he hinv hnodup
  refine ((outcome_ishashkey hnodup sizearray e.1).bind
    fun found strings' hle hnodup' hfound => ?_).mono (and_iff_right trivial) fun _ _ _ _ h => h
  have hinv' := hinv.mono hmono hle
  cases hkey : hashkey sizearray e.1 with
  | inl key =>
    rw [hkey] at hfound
    cases found with
    | inl key' =>
      obtain rfl : key' = key := hfound
      exact outcome_fill_array hmono hset hwell hinv' hnodup' he hkey
    | inr p => exact hfound.elim
  | inr p =>
    rw [hkey] at hfound
    cases found with
    | inl key' => exact hfound.elim
    | inr p' =>
      obtain ⟨key, hash⟩ := p'
      obtain ⟨hsame, rfl⟩ : _ ∧ hash = p.2 := hfound
      exact outcome_fill_first hmono hset hwell hinv' hnodup' he hkey hsame hpos

theorem outcome_fill_linked (hinv : SecondPass stands sizearray entries m strings tbl)
    (hnodup : strings.Nodup) (he : entries[m]? = some e)
    (hkey : hashkey sizearray e.1 = .inr (q, hash)) (hsame : sameKey strings key q = true)
    (hcount : ((List.range entries.length).filter
      fun k => (hashAt sizearray entries k).isSome).length ≤ hashSize sizearray entries) :
    Outcome ((match slotAt tbl.2 (mainpos tbl.2 hash) with
      | none => throw .uninitialised
      | some head =>
        if head.key = key then return tbl
        else
          match firstFree tbl.2 with
          | none => throw .assertion
          | some n => return (tbl.1, link tbl.2 head n key (← setvalue convtable e.2) hash) :
            Conv Parts) strings) strings
      (LinkedAccepted accepted sizearray entries m)
      (SecondPass stands sizearray entries (m + 1)) := by
  have hhash := hashAt_of_hashkey he hkey
  obtain ⟨chain, item, hchains, hfilled, hheads⟩ := hinv.filled
  have hmain (hash : ℕ) : mainpos tbl.2 hash = hash % hashSize sizearray entries := by
    rw [mainpos, hinv.length]
  obtain ⟨m₀, -, p₀, hfirst₀, hp₀, heq₀⟩ := exists_first hhash
  have heq₀ : mainpos tbl.2 p₀.2 = mainpos tbl.2 hash := by
    rw [hmain, hmain]
    exact heq₀
  obtain ⟨head, hhead, hitem⟩ := hheads m₀ p₀ hfirst₀ hp₀
  rw [heq₀] at hhead hitem
  obtain ⟨q₀, hq₀, hsame₀⟩ := (hfilled.carried hhead).hashAt
  rw [hitem, hp₀] at hq₀
  cases hq₀
  have hsameFirst : head.key = key ↔ SameAsFirst sizearray entries m := by
    rw [key_eq_iff hnodup hsame₀ hsame]
    constructor
    · rintro rfl
      exact ⟨_, m₀, _, hhash, hfirst₀, hp₀, by rwa [← hmain, ← hmain], rfl⟩
    · rintro ⟨p, m₁, p₁, hp, hfirst₁, hp₁, heq₁, hquery⟩
      rw [hhash] at hp
      cases hp
      obtain rfl := hfirst₁.unique hfirst₀ hp₁ hp₀ (by rw [heq₁, ← hmain, ← hmain, heq₀])
      rw [hp₀] at hp₁
      cases hp₁
      exact hquery
  rw [hhead]
  by_cases hkeys : head.key = key
  · have hnot : ¬Linked sizearray entries m := fun h => h.2 (hsameFirst.1 hkeys)
    simp only [if_pos hkeys]
    refine .pure hnodup (fun _ _ h => absurd h hnot) ⟨hinv.array, hinv.length, chain, item, hchains,
      hfilled.mono (fun _ _ _ _ h => h) fun k => or_congr_right (and_congr_left fun hlinked =>
        ⟨Nat.lt_succ_of_lt, fun hlt => ?_⟩), hheads⟩
    rcases Nat.lt_succ_iff_lt_or_eq.1 hlt with hlt | rfl
    · exact hlt
    · exact absurd hlinked hnot
  · have hlinked : Linked sizearray entries m :=
      ⟨by rw [hhash]; rfl, fun h => hkeys (hsameFirst.2 h)⟩
    have hnotIn : ¬(First sizearray entries m ∨ m < m ∧ Linked sizearray entries m) := by
      rintro (hfirst | ⟨hlt, -⟩)
      · exact hlinked.2 hfirst.sameAsFirst
      · exact Nat.lt_irrefl m hlt
    have hisSome {k : ℕ} (h : (hashAt sizearray entries k).isSome) :
        k ∈ (List.range entries.length).filter
          fun k => (hashAt sizearray entries k).isSome := by
      refine List.mem_filter.2 ⟨List.mem_range.2 ?_, h⟩
      by_contra hge
      unfold hashAt at h
      rw [List.getElem?_eq_none (Nat.le_of_not_lt hge)] at h
      cases h
    obtain ⟨n, hfree⟩ := hfilled.exists_free hnotIn
      (fun k hk => hisSome (by
        rcases hk with ⟨p, hp, -⟩ | ⟨-, hk⟩
        · rw [hp]
          rfl
        · exact hk.1)) (hisSome hlinked.1) (by rw [hinv.length]; exact hcount)
    obtain ⟨hn, hnone⟩ := slotAt_firstFree hfree
    have hcond : accepted e.2 ↔ LinkedAccepted accepted sizearray entries m := by
      constructor
      · intro h e' he' _
        rw [he] at he'
        cases he'
        exact h
      · exact fun h => h e he hlinked
    simp only [if_neg hkeys, hfree]
    refine ((hset e.2 strings (hwell e (List.mem_of_getElem? he)) hnodup).bind
      fun v strings' hle hnodup' hv => .pure hnodup' trivial ?_).mono
      ((and_iff_left trivial).trans hcond) fun _ _ _ _ h => h
    have hcarries : Carries stands sizearray entries strings' m key hash v :=
      ⟨e, q, he, hkey, sameKey_mono hle hsame, hv⟩
    have hadded := (hfilled.mono (fun _ _ _ _ h => h.mono hmono hle) fun _ => Iff.rfl).link
      hnotIn hn hnone hhead hcarries
    refine ⟨hinv.array.mono hmono hle, by rw [length_link, hinv.length], _, _,
      hchains.link hn hnone hhead heq₀, hadded.mono (fun _ _ _ _ h => h) fun k => ?_,
      fun k p hk hp => ?_⟩
    · constructor
      · rintro ((hfirst | ⟨hlt, hk⟩) | rfl)
        · exact .inl hfirst
        · exact .inr ⟨Nat.lt_succ_of_lt hlt, hk⟩
        · exact .inr ⟨Nat.lt_succ_self _, hlinked⟩
      · rintro (hfirst | ⟨hlt, hk⟩)
        · exact .inl (.inl hfirst)
        · rcases Nat.lt_succ_iff_lt_or_eq.1 hlt with hlt | rfl
          · exact .inl (.inr ⟨hlt, hk⟩)
          · exact .inr rfl
    · obtain ⟨s, hs, hitem'⟩ := hheads k p hk hp
      have hne : mainpos tbl.2 p.2 ≠ n := by
        intro heq
        rw [heq, hnone] at hs
        cases hs
      rw [mainpos_link, Function.update_of_ne hne, slotAt_link hn, if_neg hne]
      split
      · exact ⟨_, rfl, hitem'⟩
      · exact ⟨s, hs, hitem'⟩

theorem outcome_fillcolliding (hnodup : strings.Nodup)
    (hinv : SecondPass stands sizearray entries 0 strings tbl)
    (hcount : ((List.range entries.length).filter
      fun k => (hashAt sizearray entries k).isSome).length ≤ hashSize sizearray entries) :
    Outcome (fillcolliding convtable sizearray entries tbl strings) strings
      (∀ m < entries.length, LinkedAccepted accepted sizearray entries m)
      (SecondPass stands sizearray entries entries.length) := by
  refine Outcome.foldlM _ ?_ hinv hnodup
  intro m e tbl strings he hinv hnodup
  refine ((outcome_ishashkey hnodup sizearray e.1).bind
    fun found strings' hle hnodup' hfound => ?_).mono (and_iff_right trivial) fun _ _ _ _ h => h
  have hinv' := hinv.mono hmono hle
  cases hkey : hashkey sizearray e.1 with
  | inl key =>
    rw [hkey] at hfound
    cases found with
    | inl key' =>
      have hnot : ¬Linked sizearray entries m := by
        rintro ⟨hsome, -⟩
        rw [hashAt_eq_none he hkey] at hsome
        cases hsome
      obtain ⟨chain, item, hchains, hfilled, hheads⟩ := hinv'.filled
      refine .pure hnodup' (fun _ _ h => absurd h hnot) ⟨hinv'.array, hinv'.length, chain, item,
        hchains, hfilled.mono (fun _ _ _ _ h => h) fun k => or_congr_right
          (and_congr_left fun hlinked => ⟨Nat.lt_succ_of_lt, fun hlt => ?_⟩), hheads⟩
      rcases Nat.lt_succ_iff_lt_or_eq.1 hlt with hlt | rfl
      · exact hlt
      · exact absurd hlinked hnot
    | inr p => exact hfound.elim
  | inr p =>
    rw [hkey] at hfound
    cases found with
    | inl key' => exact hfound.elim
    | inr p' =>
      obtain ⟨key, hash⟩ := p'
      obtain ⟨hsame, rfl⟩ : _ ∧ hash = p.2 := hfound
      exact outcome_fill_linked hmono hset hwell hinv' hnodup' he hkey hsame hcount

end Steps

theorem FirstPass.second {tbl : Parts}
    (h : FirstPass stands sizearray entries entries.length strings tbl) :
    SecondPass stands sizearray entries 0 strings tbl := by
  obtain ⟨item, hfilled⟩ := h.filled
  have hlt {k : ℕ} (hk : First sizearray entries k) : k < entries.length := by
    obtain ⟨p, hp, -⟩ := hk
    by_contra hge
    rw [hashAt, List.getElem?_eq_none (Nat.le_of_not_lt hge)] at hp
    cases hp
  refine ⟨h.array, h.length, _, item, h.chains, hfilled.mono (fun _ _ _ _ h => h) fun k => ?_,
    fun k p hk hp => ?_⟩
  · constructor
    · exact fun h => .inl h.2
    · rintro (hk | ⟨hk, -⟩)
      · exact ⟨hlt hk, hk⟩
      · exact absurd hk (Nat.not_lt_zero k)
  · obtain ⟨i, s, hs, hitem⟩ := hfilled.all ⟨hlt hk, hk⟩
    obtain ⟨q, hq, -⟩ := (hfilled.carried hs).hashAt
    rw [hitem, hp] at hq
    cases hq
    have hi : i = mainpos tbl.2 s.hash := by
      by_contra hne
      exact absurd (h.chains.mem hs hne) List.not_mem_nil
    rw [← hi]
    exact ⟨s, hs, hitem⟩

variable (stands sizearray entries) in
/-- The two parts of the object of a table. -/
structure Built (strings : Strings) (tbl : Parts) : Prop where
  array : ArrayUpTo stands sizearray entries entries.length strings tbl.1
  length : tbl.2.length = hashSize sizearray entries
  filled : ∃ chain item, Chains tbl.2 chain ∧
    Filled (Carries stands sizearray entries strings) tbl.2
      (fun k => First sizearray entries k ∨ Linked sizearray entries k) item

theorem SecondPass.built {tbl : Parts}
    (h : SecondPass stands sizearray entries entries.length strings tbl) :
    Built stands sizearray entries strings tbl := by
  obtain ⟨chain, item, hchains, hfilled, -⟩ := h.filled
  refine ⟨h.array, h.length, chain, item, hchains, hfilled.mono (fun _ _ _ _ h => h) fun k =>
    or_congr_right (and_iff_right_of_imp fun hk => ?_)⟩
  by_contra hge
  have hsome := hk.1
  rw [hashAt, List.getElem?_eq_none (Nat.le_of_not_lt hge)] at hsome
  cases hsome

end Passes

/-! ### The conversion of a table -/

theorem length_filter_range {α : Type*} (l : List α) (p : Option α → Bool) :
    ((List.range l.length).filter fun k => p l[k]?).length = l.countP fun a => p (some a) := by
  induction l with
  | nil => rfl
  | cons a l ih =>
    rw [List.length_cons, List.range_succ_eq_map, List.filter_cons, List.countP_cons,
      List.filter_map]
    have hrest : ((List.range l.length).filter ((fun k => p (a :: l)[k]?) ∘ Nat.succ)).length =
        l.countP fun a => p (some a) := ih
    split
    next hp =>
      have hp : p (some a) = true := hp
      rw [List.length_cons, List.length_map, hrest, if_pos hp]
    next hp =>
      have hp : ¬p (some a) = true := hp
      rw [List.length_map, hrest, if_neg hp, Nat.add_zero]

/-- An entry that is not counted goes to the array part. -/
theorem hashkey_of_not_counted {sizearray : Rawlen} {key : Value Rawlen}
    (h : counted sizearray key = false) : ∃ i, key = integer (.ofNat 64 i) ∧
      hashkey sizearray key = .inl i := by
  cases key with
  | integer nkey =>
    have hsize := sizearray.isLt
    have hcond : 0 < nkey.toInt ∧ nkey.toInt ≤ sizearray.val := by simpa [counted] using h
    have hnat := BitVec.toInt_eq_toNat_cond nkey
    have hword : (nkey.setWidth 32).toNat = nkey.toNat := by
      rw [BitVec.toNat_setWidth]
      omega
    have hint := BitVec.toInt_eq_toNat_cond (nkey.setWidth 32)
    refine ⟨nkey.toNat, by rw [BitVec.ofNat_toNat, BitVec.setWidth_eq], ?_⟩
    change numberKey _ (nkey.setWidth 32) = _
    rw [numberKey, if_pos (by omega), hword]
  | nil | boolean | float | string | lightuserdata | table => cases h

theorem length_hashEntries (sizearray : Rawlen) (entries : Entries) :
    ((List.range entries.length).filter
      fun k => (hashAt sizearray entries k).isSome).length ≤ hashSize sizearray entries := by
  have hcount := length_filter_range entries fun e =>
    (e.bind fun e => (hashkey sizearray e.1).getRight?).isSome
  refine Nat.le_trans (Nat.le_of_eq hcount) (List.countP_mono_left fun e _ he => ?_)
  cases hcase : counted sizearray e.1 with
  | true => rfl
  | false =>
    obtain ⟨i, -, hkey⟩ := hashkey_of_not_counted hcase
    rw [Option.bind_some, hkey] at he
    cases he

theorem rawgeti_of_hashSize_eq_zero {sizearray : Rawlen} {entries : Entries}
    (htable : IsTable entries) (hzero : hashSize sizearray entries = 0)
    {e : Value Rawlen × Value Rawlen} (he : e ∈ entries) :
    ∃ i, hashkey sizearray e.1 = .inl i ∧ e.1 = integer (.ofNat 64 i) ∧
      rawgeti entries i = e.2 := by
  have hcounted : counted sizearray e.1 = false := by
    have := List.countP_eq_zero.1 hzero e he
    simpa using this
  obtain ⟨i, hint, hkey⟩ := hashkey_of_not_counted hcounted
  refine ⟨i, hkey, hint, ?_⟩
  have hself : e.1.sameKey e.1 = true := by
    rw [hint]
    exact decide_eq_true rfl
  have hfind := htable.find? he
    (fun e' _ => by rw [hint]) hself
  rw [rawgeti, hfind]

section Tables

variable {stands : Strings → ConfValue → Value Rawlen → Prop} {sizearray : Rawlen}
  {entries : Entries} {convtable : Rawlen → Entries → Conv ConfValue}
  {accepted : Value Rawlen → Prop} {strings : Strings}
  (hmono : KeepsStanding stands)
  (hset : ∀ value strings, WellFormed value → strings.Nodup →
    Outcome (setvalue convtable value strings) strings (accepted value)
      fun strings' v => stands strings' v value)
  (htable : IsTable entries) (hwell : ∀ e ∈ entries, WellFormed e.2)

/-- The values of a table that are looked at are accepted. -/
def ValuesAccepted (accepted : Value Rawlen → Prop) (sizearray : ℕ) (entries : Entries) : Prop :=
  ∀ m e, entries[m]? = some e →
    (SameAsFirst sizearray entries m → First sizearray entries m) → accepted e.2

theorem valuesAccepted_iff : ValuesAccepted accepted sizearray entries ↔
    (∀ m < entries.length, FirstAccepted accepted sizearray entries m) ∧
      ∀ m < entries.length, LinkedAccepted accepted sizearray entries m := by
  constructor
  · intro h
    refine ⟨fun m _ e he hm => h m e he ?_, fun m _ e he hm => h m e he fun hs => absurd hs hm.2⟩
    rcases hm with hnone | hfirst
    · rintro ⟨p, -, -, hp, -⟩
      rw [hnone] at hp
      cases hp
    · exact fun _ => hfirst
  · rintro ⟨hfirst, hlinked⟩ m e he hm
    have hlt := (List.getElem?_eq_some_iff.1 he).1
    by_cases hsome : (hashAt sizearray entries m).isSome
    · by_cases hsame : SameAsFirst sizearray entries m
      · exact hfirst m hlt e he (.inr (hm hsame))
      · exact hlinked m hlt e he ⟨hsome, hsame⟩
    · exact hfirst m hlt e he (.inl (Option.not_isSome_iff_eq_none.1 hsome))

include hmono hset htable hwell

/-- The array part of a table without a hash part. -/
theorem outcome_fillarray (hzero : hashSize sizearray entries = 0) (hnodup : strings.Nodup) :
    Outcome (fillarray convtable sizearray entries (List.replicate sizearray .nil) strings) strings
      (ValuesAccepted accepted sizearray entries)
      fun strings' array => ArrayUpTo stands sizearray entries entries.length strings' array := by
  -- the first `n` values are set, the others are still nil
  let inv (n : ℕ) (strings : Strings) (array : List ConfValue) : Prop :=
    array.length = sizearray ∧ ∀ i < sizearray.val, ∃ v, array[i]? = some v ∧
      ((n ≤ i ∨ rawgeti entries (i + 1) = nil) ∧ v = .nil ∨
        rawgeti entries (i + 1) ≠ nil ∧ stands strings v (rawgeti entries (i + 1)))
  have hfound {i : ℕ} {e : Value Rawlen × Value Rawlen} (he : e ∈ entries)
      (hkey : hashkey sizearray e.1 = .inl i) : rawgeti entries i = e.2 := by
    obtain ⟨i', hkey', -, hget⟩ := rawgeti_of_hashSize_eq_zero htable hzero he
    rw [hkey] at hkey'
    cases hkey'
    exact hget
  have hcases {i : ℕ} (hne : rawgeti entries i ≠ nil) (hi : i < 2 ^ 31) :
      ∃ e ∈ entries, hashkey sizearray e.1 = .inl i := by
    unfold rawgeti at hne
    split at hne
    next e he =>
      have hmem := List.mem_of_find?_eq_some he
      have hsame : e.1.sameKey (integer (.ofNat 64 i) : Value Rawlen) = true :=
        List.find?_some (p := fun e : Value Rawlen × Value Rawlen =>
          e.1.sameKey (integer (.ofNat 64 i) : Value Rawlen)) he
      obtain ⟨i', hkey, hint, -⟩ := rawgeti_of_hashSize_eq_zero htable hzero hmem
      have heq := hint.symm.trans (eq_of_sameKey hsame)
      have hle := (hashkey_inl hkey).2
      have hsize := sizearray.isLt
      have hnat := congrArg BitVec.toNat (integer.inj heq)
      simp only [BitVec.toNat_ofNat] at hnat
      have : i' = i := by omega
      exact ⟨e, hmem, this ▸ hkey⟩
    next => exact absurd rfl hne
  have haccnil : accepted nil := by
    rcases hset nil strings (.scalar nofun) hnodup with ⟨-, -, -, -, -, -, h⟩ | ⟨_, h, -⟩
    · exact h
    · cases h
  have hloop : Outcome
      (fillarray convtable sizearray entries (List.replicate sizearray .nil) strings) strings
      (∀ n < (List.range' 1 sizearray).length, accepted (rawgeti entries (n + 1)))
      (inv (List.range' 1 sizearray).length) := by
    refine Outcome.foldlM inv ?_ ⟨List.length_replicate, fun i hi => ?_⟩ hnodup
    · intro n i array strings hi hinv hnodup
      obtain ⟨hlt, hi⟩ := List.getElem?_eq_some_iff.1 hi
      rw [List.length_range'] at hlt
      rw [List.getElem_range', Nat.one_mul, Nat.add_comm] at hi
      subst hi
      have hset' (strings' : Strings) (v : ConfValue)
          (hold : ∀ i v, stands strings v (rawgeti entries (i + 1)) →
            stands strings' v (rawgeti entries (i + 1)))
          (hv : rawgeti entries (n + 1) = nil ∧ v = .nil ∨
            rawgeti entries (n + 1) ≠ nil ∧ stands strings' v (rawgeti entries (n + 1))) :
          inv (n + 1) strings' (array.set (n + 1 - 1) v) := by
        refine ⟨by rw [List.length_set, hinv.1], fun j hj => ?_⟩
        rw [Nat.add_sub_cancel]
        by_cases hjn : n = j
        · subst hjn
          refine ⟨v, List.getElem?_set_self (by rw [hinv.1]; exact hj), ?_⟩
          rcases hv with ⟨hnil, hv⟩ | hv
          · exact .inl ⟨.inr hnil, hv⟩
          · exact .inr hv
        · rw [List.getElem?_set_ne hjn]
          obtain ⟨v', hv', hcase⟩ := hinv.2 j hj
          refine ⟨v', hv', ?_⟩
          rcases hcase with ⟨hle | hnil, hv'⟩ | ⟨hne, hstands⟩
          · exact .inl ⟨.inl (by omega), hv'⟩
          · exact .inl ⟨.inr hnil, hv'⟩
          · exact .inr ⟨hne, hold j v' hstands⟩
      by_cases hnil : rawgeti entries (n + 1) = nil
      · have hrun : setarray convtable array (rawgeti entries (n + 1)) (n + 1) =
            pure (array.set (n + 1 - 1) .nil) := by
          rw [hnil]
          rfl
        rw [hrun]
        refine .pure hnodup ?_ (hset' strings .nil (fun _ _ h => h) (.inl ⟨hnil, rfl⟩))
        rw [hnil]
        exact haccnil
      · obtain ⟨e, he, hkey⟩ := hcases hnil (by have := sizearray.isLt; omega)
        have hget := hfound he hkey
        have hwell' : WellFormed (rawgeti entries (n + 1)) := hget ▸ hwell e he
        refine ((hset _ strings hwell' hnodup).bind
          fun v strings' hle hnodup' hv => .pure hnodup' trivial ?_).mono (and_iff_left trivial)
          fun _ _ _ _ h => h
        exact hset' strings' v (fun _ _ h => hmono _ _ _ _ hle h) (.inr ⟨hnil, hv⟩)
    · refine ⟨.nil, ?_, .inl ⟨.inl (Nat.zero_le i), rfl⟩⟩
      rw [List.getElem?_replicate, if_pos hi]
  rw [List.length_range'] at hloop
  refine hloop.mono ⟨fun h m e he _ => ?_, fun h n hn => ?_⟩ fun strings' array _ _ hinv => ?_
  · have hmem := List.mem_of_getElem? he
    obtain ⟨i, hkey, -, hget⟩ := rawgeti_of_hashSize_eq_zero htable hzero hmem
    obtain ⟨hpos, hle⟩ := hashkey_inl hkey
    have hacc := h (i - 1) (by omega)
    rwa [Nat.sub_add_cancel hpos, hget] at hacc
  · by_cases hnil : rawgeti entries (n + 1) = nil
    · rw [hnil]
      exact haccnil
    · obtain ⟨e, he, hkey⟩ := hcases hnil (by have := sizearray.isLt; omega)
      obtain ⟨m, hm, rfl⟩ := List.getElem_of_mem he
      have hat := List.getElem?_eq_getElem hm
      rw [hfound he hkey]
      refine h m _ hat ?_
      rintro ⟨p, -, -, hp, -⟩
      rw [hashAt_eq_none hat hkey] at hp
      cases hp
  · refine ⟨hinv.1, fun i hi => ?_⟩
    obtain ⟨v, hv, hcase⟩ := hinv.2 i hi
    rcases hcase with ⟨hle | hnil, rfl⟩ | ⟨hne, hstands⟩
    · omega
    · refine .inr ⟨fun k e _ he hkey => ?_, hv⟩
      have hmem := List.mem_of_getElem? he
      have hvalue := htable.value e hmem
      rw [← hfound hmem hkey, hnil] at hvalue
      cases hvalue
    · obtain ⟨e, he, hkey⟩ := hcases hne (by have := sizearray.isLt; omega)
      obtain ⟨k, hk, rfl⟩ := List.getElem_of_mem he
      refine .inl ⟨k, _, v, hk, List.getElem?_eq_getElem hk, hkey, hv, ?_⟩
      rw [← hfound he hkey]
      exact hstands

theorem outcome_convtable {left : ℕ} (hconv : convtable = Sharedata.convtable left)
    (hnodup : strings.Nodup) :
    Outcome (Sharedata.convtable (left + 1) sizearray entries strings) strings
      ((∀ e ∈ entries, AcceptedKey e.1) ∧ ValuesAccepted accepted sizearray entries)
      fun strings' v => ∃ tbl : Parts, v = .table tbl.1 tbl.2 ∧
        Built stands sizearray entries strings' tbl := by
  subst hconv
  refine (outcome_countsize hnodup sizearray entries).bind fun n strings₁ _ hnodup₁ hn => ?_
  subst hn
  have harray (strings : Strings) : ArrayUpTo stands sizearray entries 0 strings
      (List.replicate sizearray .nil) := by
    refine ⟨List.length_replicate,
      fun i hi => .inr ⟨fun k _ hk => absurd hk (Nat.not_lt_zero k), ?_⟩⟩
    rw [List.getElem?_replicate, if_pos hi]
  by_cases hzero : hashSize sizearray entries = 0
  · simp only [hzero, ne_eq, not_true_eq_false, if_false]
    refine ((outcome_fillarray hmono hset htable hwell hzero hnodup₁).bind
      fun array strings₂ _ hnodup₂ harray => .pure hnodup₂ trivial ⟨(array, []), rfl, ?_⟩).mono
      (and_iff_left trivial) fun _ _ _ _ h => h
    refine ⟨harray, hzero.symm, fun _ => [], fun _ => 0, .empty 0, (Filled.empty 0 _).mono
      (fun _ _ _ _ h => h) fun k => ?_⟩
    have hnone : hashAt sizearray entries k = none := by
      cases he : entries[k]? with
      | none => rw [hashAt, he, Option.bind_none]
      | some e =>
        obtain ⟨i, hkey, -⟩ := rawgeti_of_hashSize_eq_zero htable hzero (List.mem_of_getElem? he)
        exact hashAt_eq_none he hkey
    refine ⟨False.elim, ?_⟩
    rintro (⟨p, hp, -⟩ | ⟨hsome, -⟩)
    · rw [hnone] at hp
      cases hp
    · rw [hnone] at hsome
      cases hsome
  · simp only [ne_eq, hzero, not_false_eq_true, if_true]
    have hstart : FirstPass stands sizearray entries 0 strings₁
        (List.replicate sizearray .nil, List.replicate (hashSize sizearray entries) none) :=
      ⟨harray strings₁, List.length_replicate, .empty _, fun _ => 0,
        (Filled.empty _ _).mono (fun _ _ _ _ h => h) fun k => by simp⟩
    have hfirst := outcome_fillnocolliding hmono hset hwell
      (Nat.pos_of_ne_zero hzero) hnodup₁ hstart
    refine (hfirst.bind fun tbl strings₂ _ hnodup₂ htbl => ?_).mono valuesAccepted_iff.symm
      fun _ _ _ _ h => h
    refine ((outcome_fillcolliding hmono hset hwell hnodup₂ htbl.second
      (length_hashEntries sizearray entries)).bind
      fun tbl strings₃ _ hnodup₃ htbl => .pure hnodup₃ trivial ⟨tbl, rfl, htbl.built⟩).mono
      (and_iff_left trivial) fun _ _ _ _ h => h

end Tables

end Mtask.Sharedata
