import Mathlib.Data.List.Nodup
import Mathlib.Data.List.Perm.Subperm
import Mtask.Snax.Msgserver

/-!
# The response cache of a user

The entries of a cache are pending until the handler of their request has returned. A complete entry
has the index that the user had when it was completed, which grows with every completion; when the
index has come to twice `expired_number`, the entries below `expired_number` are dropped, and what
is left is numbered again from where it stands.
-/

namespace Mtask.Snax

open Function (update update_idem update_of_ne update_self)
open List

variable {ν : Type}

/-- The response has been sent, and none is being sent. -/
def Entry.Complete (e : Entry ν) : Prop :=
  e.returnFd = none ∧ e.response ≠ none

/-- There is no response yet, but a connection that it is for. -/
def Entry.Pending (e : Entry ν) : Prop :=
  e.returnFd ≠ none ∧ e.response = none

theorem Entry.Complete.not_pending {e : Entry ν} (h : e.Complete) : ¬e.Pending :=
  fun hp => hp.1 h.1

/-- The cache of a user with an index. -/
structure CacheInv (response : List (ℕ × ℕ)) (entries : ℕ → Entry ν) (index : ℕ) : Prop where
  sessions : (response.map Prod.fst).Nodup
  records : (response.map Prod.snd).Nodup
  state : ∀ q ∈ response,
    (entries q.2).Complete ∧ (entries q.2).index < index ∨ (entries q.2).Pending
  distinct : ∀ q ∈ response, ∀ q' ∈ response, (entries q.2).Complete → (entries q'.2).Complete →
    (entries q.2).index = (entries q'.2).index → q = q'

/-- `retire_response` keeps the entry. -/
def keeps (expiredNumber : ℕ) (e : Entry ν) : Bool :=
  e.returnFd ≠ none ∨ expiredNumber ≤ e.index

/-- An entry after `retire_response`, if it is kept. -/
def renumber (expiredNumber : ℕ) (e : Entry ν) : Entry ν :=
  if e.returnFd = none ∧ expiredNumber ≤ e.index then { e with index := e.index - expiredNumber }
  else e

section Renumber

variable {expiredNumber : ℕ} {e : Entry ν}

@[simp] theorem response_renumber : (renumber expiredNumber e).response = e.response := by
  rw [renumber]
  split_ifs <;> rfl

@[simp] theorem returnFd_renumber : (renumber expiredNumber e).returnFd = e.returnFd := by
  rw [renumber]
  split_ifs <;> rfl

theorem renumber_of_pending (h : e.returnFd ≠ none) : renumber expiredNumber e = e :=
  if_neg fun hcon => h hcon.1

theorem index_renumber (h : e.returnFd = none) (hle : expiredNumber ≤ e.index) :
    (renumber expiredNumber e).index = e.index - expiredNumber := by
  rw [renumber, if_pos ⟨h, hle⟩]

end Renumber

/-- **What `retire_response` drops, and how it numbers the rest.** -/
theorem retireLoop_spec (expiredNumber : ℕ) (response : List (ℕ × ℕ)) (entries : ℕ → Entry ν)
    (max : ℕ) (hrecords : (response.map Prod.snd).Nodup) :
    ∃ entries' max', Msgserver.retireLoop expiredNumber response entries max =
        (response.filter fun q => keeps expiredNumber (entries q.2), entries', max') ∧
      (∀ q ∈ response, entries' q.2 = renumber expiredNumber (entries q.2)) ∧
      (∀ p, p ∉ response.map Prod.snd → entries' p = entries p) ∧ max ≤ max' ∧
      (∀ q ∈ response, (entries q.2).returnFd = none → expiredNumber ≤ (entries q.2).index →
        (entries q.2).index - expiredNumber ≤ max') ∧
      (max' = max ∨ ∃ q ∈ response, (entries q.2).returnFd = none ∧
        expiredNumber ≤ (entries q.2).index ∧ max' = (entries q.2).index - expiredNumber) := by
  induction response generalizing entries max with
  | nil => exact ⟨entries, max, rfl, by simp, by simp, Nat.le_refl _, by simp, Or.inl rfl⟩
  | cons q response ih =>
    obtain ⟨session, p⟩ := q
    rw [map_cons, nodup_cons] at hrecords
    obtain ⟨hp, hrecords⟩ := hrecords
    have hne {q : ℕ × ℕ} (hq : q ∈ response) : q.2 ≠ p := fun heq =>
      hp (mem_map.mpr ⟨q, hq, heq⟩)
    rw [Msgserver.retireLoop]
    by_cases hfd : (entries p).returnFd ≠ none
    · -- a pending entry is left alone
      obtain ⟨entries', max', hloop, hin, hout, hle, hbound, hmax⟩ := ih entries max hrecords
      rw [if_pos hfd, hloop]
      refine ⟨entries', max', ?_, ?_, ?_, hle, ?_, ?_⟩
      · rw [filter_cons_of_pos (by simp [keeps, hfd])]
      · intro q hq
        rcases mem_cons.mp hq with rfl | hq
        · rw [hout p hp, renumber_of_pending hfd]
        · exact hin q hq
      · intro p' hp'
        rw [map_cons, mem_cons, not_or] at hp'
        exact hout p' hp'.2
      · intro q hq hnone
        rcases mem_cons.mp hq with rfl | hq
        · exact absurd hnone hfd
        · exact hbound q hq hnone
      · exact hmax.imp_right fun ⟨q, hq, hrest⟩ => ⟨q, mem_cons_of_mem _ hq, hrest⟩
    · rw [if_neg hfd]
      have hnone : (entries p).returnFd = none := not_not.mp hfd
      by_cases hlt : (entries p).index < expiredNumber
      · -- the entry is dropped, and stays as it is
        obtain ⟨entries', max', hloop, hin, hout, hle, hbound, hmax⟩ := ih entries max hrecords
        have hkeeps : keeps expiredNumber (entries p) = false := by
          simp [keeps, hnone, hlt]
        have hsame : renumber expiredNumber (entries p) = entries p :=
          if_neg fun hcon => Nat.not_le_of_lt hlt hcon.2
        rw [if_pos hlt, hloop]
        refine ⟨entries', max', ?_, ?_, ?_, hle, ?_, ?_⟩
        · rw [filter_cons_of_neg (by simp [hkeeps])]
        · intro q hq
          rcases mem_cons.mp hq with rfl | hq
          · rw [hout p hp, hsame]
          · exact hin q hq
        · intro p' hp'
          rw [map_cons, mem_cons, not_or] at hp'
          exact hout p' hp'.2
        · intro q hq hnone' hge
          rcases mem_cons.mp hq with rfl | hq
          · exact absurd hge (Nat.not_le_of_lt hlt)
          · exact hbound q hq hnone' hge
        · exact hmax.imp_right fun ⟨q, hq, hrest⟩ => ⟨q, mem_cons_of_mem _ hq, hrest⟩
      · -- the entry is kept under its new index
        have hge : expiredNumber ≤ (entries p).index := Nat.le_of_not_lt hlt
        rw [if_neg hlt]
        generalize hindex : (entries p).index - expiredNumber = index
        have hrenumber : renumber expiredNumber (entries p) = { entries p with index } := by
          rw [renumber, if_pos ⟨hnone, hge⟩, hindex]
        obtain ⟨entries', max', hloop, hin, hout, hle, hbound, hmax⟩ :=
          ih (update entries p { entries p with index }) (Nat.max max index) hrecords
        have hold {q : ℕ × ℕ} (hq : q ∈ response) :
            update entries p { entries p with index } q.2 = entries q.2 :=
          update_of_ne (hne hq) ..
        dsimp only at hloop ⊢
        rw [hloop]
        refine ⟨entries', max', ?_, ?_, ?_, Nat.le_trans (Nat.le_max_left ..) hle, ?_, ?_⟩
        · rw [filter_cons_of_pos (by simp [keeps, hge])]
          rw [filter_congr fun q hq => by rw [hold hq]]
        · intro q hq
          rcases mem_cons.mp hq with rfl | hq
          · rw [hout p hp, update_self, hrenumber]
          · rw [hin q hq, hold hq]
        · intro p' hp'
          rw [map_cons, mem_cons, not_or] at hp'
          rw [hout p' hp'.2, update_of_ne hp'.1]
        · intro q hq hnone' hge'
          rcases mem_cons.mp hq with rfl | hq
          · rw [hindex]
            exact Nat.le_trans (Nat.le_max_right ..) hle
          · have h := hbound q hq
            rw [hold hq] at h
            exact h hnone' hge'
        · rcases hmax with hmax | ⟨q, hq, hrest⟩
          · rcases Nat.le_total index max with hcase | hcase
            · exact .inl (hmax.trans (Nat.max_eq_left hcase))
            · refine .inr ⟨(session, p), mem_cons_self, hnone, hge, ?_⟩
              rw [hmax, hindex]
              exact Nat.max_eq_right hcase
          · rw [hold hq] at hrest
            exact .inr ⟨q, mem_cons_of_mem _ hq, hrest⟩

/-! ### A cache under the operations on it -/

instance (e : Entry ν) : Decidable e.Complete :=
  inferInstanceAs (Decidable (_ ∧ _))

/-- The responses that are cached. -/
def complete (response : List (ℕ × ℕ)) (entries : ℕ → Entry ν) : List (ℕ × ℕ) :=
  response.filter fun q => (entries q.2).Complete

variable {session : ℕ}

theorem lookup_session_eq_none {response : List (ℕ × ℕ)} :
    response.lookup session = none ↔ session ∉ response.map Prod.fst := by
  rw [lookup_eq_none_iff]
  constructor
  · intro h hmem
    obtain ⟨q, hq, rfl⟩ := mem_map.mp hmem
    simpa using h q hq
  · intro h q hq
    rw [bne_iff_ne]
    rintro rfl
    exact h (mem_map_of_mem hq)

variable {p : ℕ}

namespace CacheInv

variable {response : List (ℕ × ℕ)} {entries entries' : ℕ → Entry ν} {index : ℕ}

theorem nil (entries : ℕ → Entry ν) (index : ℕ) : CacheInv [] entries index where
  sessions := nodup_nil
  records := nodup_nil
  state _ hq := by cases hq
  distinct _ hq := by cases hq

theorem congr (h : CacheInv response entries index)
    (he : ∀ q ∈ response, entries' q.2 = entries q.2) : CacheInv response entries' index where
  sessions := h.sessions
  records := h.records
  state q hq := by
    rw [he q hq]
    exact h.state q hq
  distinct q hq q' hq' := by
    rw [he q hq, he q' hq']
    exact h.distinct q hq q' hq'

theorem sublist {response' : List (ℕ × ℕ)} (h : CacheInv response entries index)
    (hsub : response'.Sublist response) : CacheInv response' entries index where
  sessions := h.sessions.sublist (hsub.map _)
  records := h.records.sublist (hsub.map _)
  state q hq := h.state q (hsub.subset hq)
  distinct q hq q' hq' := h.distinct q (hsub.subset hq) q' (hsub.subset hq')

theorem lookup_iff (h : CacheInv response entries index) :
    response.lookup session = some p ↔ (session, p) ∈ response := by
  rw [lookup_eq_some_iff]
  constructor
  · rintro ⟨before, after, rfl, -⟩
    simp
  · intro hp
    obtain ⟨before, after, rfl⟩ := append_of_mem hp
    refine ⟨before, after, rfl, fun q hq => ?_⟩
    have hnodup := h.sessions
    rw [map_append, nodup_append] at hnodup
    have hne := hnodup.2.2 q.1 (mem_map_of_mem hq) session (by simp)
    simpa using Ne.symm hne

theorem length_complete_le (h : CacheInv response entries index) :
    (complete response entries).length ≤ index := by
  have hmem {q : ℕ × ℕ} (hq : q ∈ complete response entries) :
      q ∈ response ∧ (entries q.2).Complete := by
    rw [complete, mem_filter, decide_eq_true_iff] at hq
    exact hq
  have hnodup : ((complete response entries).map fun q => (entries q.2).index).Nodup :=
    List.Nodup.map_on
      (fun q hq q' hq' => h.distinct q (hmem hq).1 q' (hmem hq').1 (hmem hq).2 (hmem hq').2)
      (h.sessions.of_map.filter _)
  have hsub : ((complete response entries).map fun q => (entries q.2).index) ⊆
      List.range index := by
    intro i hi
    obtain ⟨q, hq, rfl⟩ := mem_map.mp hi
    obtain ⟨hq, hcomplete⟩ := hmem hq
    rcases h.state q hq with ⟨-, hlt⟩ | hpending
    · exact mem_range.mpr hlt
    · exact absurd hpending hcomplete.not_pending
  have hlen := (List.Nodup.subperm hnodup hsub).length_le
  rwa [length_map, length_range] at hlen

theorem cons {session p : ℕ} (h : CacheInv response entries index)
    (hsession : session ∉ response.map Prod.fst) (hp : p ∉ response.map Prod.snd)
    (hpending : (entries p).Pending) : CacheInv ((session, p) :: response) entries index where
  sessions := nodup_cons.mpr ⟨hsession, h.sessions⟩
  records := nodup_cons.mpr ⟨hp, h.records⟩
  state q hq := by
    rcases mem_cons.mp hq with rfl | hq
    · exact .inr hpending
    · exact h.state q hq
  distinct q hq q' hq' hc hc' heq := by
    rcases mem_cons.mp hq with rfl | hq
    · exact absurd hpending hc.not_pending
    · rcases mem_cons.mp hq' with rfl | hq'
      · exact absurd hpending hc'.not_pending
      · exact h.distinct q hq q' hq' hc hc' heq

/-- An entry is completed, or its response is sent again. -/
theorem completed {p : ℕ} (h : CacheInv response entries index)
    (he : ∀ p' ≠ p, entries' p' = entries p') (hcomplete : (entries' p).Complete)
    (hindex : (entries' p).index = index) : CacheInv response entries' (index + 1) where
  sessions := h.sessions
  records := h.records
  state q hq := by
    by_cases hp : q.2 = p
    · rw [hp, hindex]
      exact .inl ⟨hcomplete, Nat.lt_succ_self index⟩
    · rw [he _ hp]
      exact (h.state q hq).imp_left fun ⟨hc, hlt⟩ => ⟨hc, Nat.lt_succ_of_lt hlt⟩
  distinct q hq q' hq' hc hc' heq := by
    have hlt {q : ℕ × ℕ} (hq : q ∈ response) (hp : q.2 ≠ p) (hc : (entries' q.2).Complete) :
        (entries' q.2).index < index := by
      rw [he _ hp] at hc ⊢
      rcases h.state q hq with ⟨-, hlt⟩ | hpending
      · exact hlt
      · exact absurd hpending hc.not_pending
    by_cases hp : q.2 = p
    · by_cases hp' : q'.2 = p
      · exact inj_on_of_nodup_map h.records hq hq' (hp.trans hp'.symm)
      · have := hlt hq' hp' hc'
        rw [hp, hindex] at heq
        omega
    · by_cases hp' : q'.2 = p
      · have := hlt hq hp hc
        rw [hp', hindex] at heq
        omega
      · rw [he _ hp] at hc heq
        rw [he _ hp'] at hc' heq
        exact h.distinct q hq q' hq' hc hc' heq

/-- A pending entry gets another connection, or a version. -/
theorem resent (h : CacheInv response entries index) (he : ∀ p' ≠ p, entries' p' = entries p')
    (hpending : (entries' p).Pending) :
    CacheInv response entries' index where
  sessions := h.sessions
  records := h.records
  state q hq := by
    by_cases hp : q.2 = p
    · rw [hp]
      exact .inr hpending
    · rw [he _ hp]
      exact h.state q hq
  distinct q hq q' hq' hc hc' heq := by
    have hne {q : ℕ × ℕ} (hc : (entries' q.2).Complete) : q.2 ≠ p := fun hp =>
      (hp ▸ hc).not_pending hpending
    have hp := hne hc
    have hp' := hne hc'
    rw [he _ hp] at hc heq
    rw [he _ hp'] at hc' heq
    exact h.distinct q hq q' hq' hc hc' heq

end CacheInv

/-! ### `retire_response` -/

/-- The server after `retire_response` for a user: pending entries stay, and so do the complete ones
that are among the last `expired_number`, with what has been completed since. -/
structure Retired (expiredNumber u : ℕ) (s t : Msgserver ν) : Prop where
  rest : t = { s with users := t.users, entries := t.entries }
  others : ∀ v, v ≠ u → t.users v = s.users v
  user : t.users u =
    { s.users u with response := (t.users u).response, index := (t.users u).index }
  cache : CacheInv (t.users u).response t.entries (t.users u).index
  index_lt : (t.users u).index < 2 * expiredNumber
  sublist : (t.users u).response.Sublist (s.users u).response
  fields : ∀ p, t.entries p = { s.entries p with index := (t.entries p).index }
  entries : ∀ p, p ∉ (s.users u).response.map Prod.snd ∨ (s.entries p).returnFd ≠ none →
    t.entries p = s.entries p
  pending : ∀ q ∈ (s.users u).response, (s.entries q.2).Pending → q ∈ (t.users u).response
  stays : ∀ k < expiredNumber, ∀ q ∈ (s.users u).response, (s.entries q.2).Complete →
    (s.users u).index ≤ (s.entries q.2).index + k + 1 →
      q ∈ (t.users u).response ∧ (t.users u).index ≤ (t.entries q.2).index + k + 1

variable {s : Msgserver ν} {conf : Conf ν}

theorem CacheInv.retired {u : ℕ} (hpos : 0 < conf.expiredNumber)
    (h : CacheInv (s.users u).response s.entries (s.users u).index)
    (hle : (s.users u).index ≤ 2 * conf.expiredNumber) :
    Retired conf.expiredNumber u s (s.retireResponse conf u) := by
  rw [Msgserver.retireResponse]
  by_cases hfull : conf.expiredNumber * 2 ≤ (s.users u).index
  · obtain ⟨entries', max', hloop, hin, hout, -, hbound, hmax⟩ :=
      retireLoop_spec conf.expiredNumber (s.users u).response s.entries 0 h.records
    simp only [if_pos hfull, hloop]
    generalize hleft : ((s.users u).response.filter fun q =>
      keeps conf.expiredNumber (s.entries q.2)) = left
    have hmem {q : ℕ × ℕ} : q ∈ left ↔
        q ∈ (s.users u).response ∧ keeps conf.expiredNumber (s.entries q.2) = true := by
      rw [← hleft, mem_filter]
    have hsub : left.Sublist (s.users u).response := hleft ▸ filter_sublist
    -- what is left and complete had an index of at least `expired_number`
    have hcomplete {q : ℕ × ℕ} (hq : q ∈ left) (hc : (entries' q.2).Complete) :
        (s.entries q.2).Complete ∧ conf.expiredNumber ≤ (s.entries q.2).index ∧
          (entries' q.2).index = (s.entries q.2).index - conf.expiredNumber := by
      obtain ⟨hq, hkeeps⟩ := hmem.mp hq
      rw [hin q hq] at hc ⊢
      have hc' : (s.entries q.2).Complete := ⟨by simpa using hc.1, by simpa using hc.2⟩
      have hge : conf.expiredNumber ≤ (s.entries q.2).index := by
        simpa [keeps, hc'.1] using hkeeps
      exact ⟨hc', hge, index_renumber hc'.1 hge⟩
    have hlt {q : ℕ × ℕ} (hq : q ∈ (s.users u).response) (hc : (s.entries q.2).Complete) :
        (s.entries q.2).index < (s.users u).index := by
      rcases h.state q hq with ⟨-, hlt⟩ | hpending
      · exact hlt
      · exact absurd hpending hc.not_pending
    have hmax' : max' + 1 + conf.expiredNumber ≤ (s.users u).index ∧
        max' + 1 ≤ conf.expiredNumber := by
      rcases hmax with rfl | ⟨q, hq, hnone, hge, rfl⟩
      · omega
      · have : (s.entries q.2).index < (s.users u).index := by
          rcases h.state q hq with ⟨-, hlt⟩ | hpending
          · exact hlt
          · exact absurd hnone hpending.1
        omega
    refine
      { rest := rfl
        others := fun v hv => update_of_ne hv ..
        user := by simp only [Msgserver.setUser, update_self]
        cache := ?_
        index_lt := ?_
        sublist := ?_
        fields := fun p => ?_
        entries := fun p hp => ?_
        pending := fun q hq hpending => ?_
        stays := fun k hk q hq hc hage => ?_ }
    all_goals simp only [Msgserver.setUser, update_self]
    · refine ⟨h.sessions.sublist (hsub.map _), h.records.sublist (hsub.map _), fun q hq => ?_,
        fun q hq q' hq' hc hc' heq => ?_⟩
      · obtain ⟨hq', hkeeps⟩ := hmem.mp hq
        rcases h.state q hq' with ⟨hc, -⟩ | hpending
        · have hc' : (entries' q.2).Complete := by
            rw [hin q hq']
            exact ⟨by simpa using hc.1, by simpa using hc.2⟩
          obtain ⟨-, hge, hindex⟩ := hcomplete hq hc'
          refine .inl ⟨hc', Nat.lt_succ_of_le ?_⟩
          rw [hindex]
          exact hbound q hq' hc.1 hge
        · rw [hin q hq', renumber_of_pending hpending.1]
          exact .inr hpending
      · obtain ⟨hold, hge, hindex⟩ := hcomplete hq hc
        obtain ⟨hold', hge', hindex'⟩ := hcomplete hq' hc'
        refine h.distinct q (hsub.subset hq) q' (hsub.subset hq') hold hold' ?_
        omega
    · omega
    · exact hsub
    · by_cases hp : p ∈ (s.users u).response.map Prod.snd
      · obtain ⟨q, hq, rfl⟩ := mem_map.mp hp
        rw [hin q hq, renumber]
        split_ifs <;> rfl
      · rw [hout p hp]
    · rcases hp with hp | hp
      · exact hout p hp
      · by_cases hp' : p ∈ (s.users u).response.map Prod.snd
        · obtain ⟨q, hq, rfl⟩ := mem_map.mp hp'
          rw [hin q hq, renumber_of_pending hp]
        · exact hout p hp'
    · exact hmem.mpr ⟨hq, by simp [keeps, hpending.1]⟩
    · have hge : conf.expiredNumber ≤ (s.entries q.2).index := by omega
      have hq' : q ∈ left := hmem.mpr ⟨hq, by simp [keeps, hge]⟩
      refine ⟨hq', ?_⟩
      rw [hin q hq, index_renumber hc.1 hge]
      omega
  · simp only [if_neg hfull]
    exact
      { rest := rfl
        others := fun _ _ => rfl
        user := rfl
        cache := h
        index_lt := by omega
        sublist := List.Sublist.refl _
        fields := fun _ => rfl
        entries := fun _ _ => rfl
        pending := fun _ hq _ => hq
        stays := fun _ _ _ hq _ hage => ⟨hq, hage⟩ }

namespace Msgserver

@[simp] theorem entries_setEntry_self (s : Msgserver ν) (p : ℕ) (entry : Entry ν) :
    (s.setEntry p entry).entries p = entry :=
  update_self ..

theorem entries_setEntry_of_ne (s : Msgserver ν) {p' : ℕ} (entry : Entry ν) (h : p' ≠ p) :
    (s.setEntry p entry).entries p' = s.entries p' :=
  update_of_ne h ..

/-! ### Completions -/

/-- The calls of the gate when a response is sent to a connection, if that is still connected. -/
def reply (s : Msgserver ν) (returnFd : Option ℕ) (response : LuaString) : Gateserver :=
  match returnFd with
  | some fd => if s.connection fd ≠ none then s.gate.call (.send fd response) else s.gate
  | none => s.gate

/-- The server at a completion, before `retire_response`. -/
def finished (s : Msgserver ν) (u p : ℕ) (response : LuaString) (gate : Gateserver) :
    Msgserver ν where
  __ := s
  users := update s.users u { s.users u with index := (s.users u).index + 1 }
  entries := update s.entries p
    ⟨none, some response, some (s.users u).version, (s.users u).index⟩
  gate := gate

theorem respond_eq (conf : Conf ν) (s : Msgserver ν) (u p : ℕ) :
    s.respond conf u p = ({ s with
      users := update s.users u { s.users u with index := (s.users u).index + 1 }
      entries := update s.entries p { s.entries p with returnFd := none }
      gate := s.reply (s.entries p).returnFd ((s.entries p).response.getD []) } :
        Msgserver ν).retireResponse conf u := by
  rw [respond, reply.eq_def]
  cases hfd : (s.entries p).returnFd with
  | none =>
    simp only [setUser, hfd]
    rfl
  | some fd =>
    by_cases hc : s.connection fd = none
    · simp [setUser, hfd, hc]
      rfl
    · simp [setUser, hfd, hc]
      rfl

variable {response : LuaString}

/-- A handler that comes back with a response. -/
theorem answered_eq {n : ℕ} {answer : Answer} {r : Request} (hr : s.requests n = some r)
    (hanswer : answer.encode r.session = some response) :
    s.answered conf n answer = .ok ((({ s with
      requests := update s.requests n none } : Msgserver ν).finished r.user r.entry
        response (s.reply (s.entries r.entry).returnFd response)).retireResponse conf r.user) := by
  rw [answered, hr]
  simp only [hanswer, respond_eq]
  simp only [setEntry, finished, update_self, update_idem, Option.getD_some]
  rfl

theorem resend_complete {fd u : ℕ} (hp : (s.entries p).response = some response) :
    s.resend conf fd u p =
      (s.finished u p response (s.reply (some fd) response)).retireResponse conf u := by
  have hresponse : ((s.setEntry p { s.entries p with
      returnFd := some fd
      version := some (s.users u).version
      index := (s.users u).index }).entries p).response ≠ none := by
    rw [entries_setEntry_self, hp]
    exact Option.some_ne_none response
  rw [resend]
  simp only [if_neg hresponse, respond_eq]
  simp only [setEntry, finished, update_self, update_idem, hp, Option.getD_some]
  rfl

/-- A request that is sent again before its handler has come back. -/
theorem resend_pending {fd u : ℕ} (hp : (s.entries p).response = none) :
    s.resend conf fd u p = s.setEntry p { s.entries p with
      returnFd := some fd
      version := some (s.users u).version
      index := (s.users u).index } := by
  rw [resend]
  exact if_pos (by rw [entries_setEntry_self, hp])

end Msgserver

end Mtask.Snax
