import Mtask.Stm.Object

/-!
# References to an object and its copies

The counter of the object is the number of its references, and the counter of a copy is that of the
references to the copy. A reader that frees the object must be the only one in the lock: one that
has decremented the counter before is in the lock as well, until it unlocks.
-/

namespace Mtask.Stm

open References List

variable {s : State} {m m' : Memory} {o o' : Object} {t t' : Thread} {i : ℕ}

/-! ### What a thread has -/

/-- The references to the object; a pointer that is about to be returned is one. -/
def GrabPc.refs : GrabPc → ℕ
  | .unlock _ => 2
  | _ => 1

def GrabPc.readLocked : GrabPc → ℕ
  | .lock => 0
  | _ => 1

namespace Thread

/-- The references to the object. -/
def refs : Thread → ℕ
  | .writer (.grab pc) | .reader _ (.grab pc) => pc.refs
  | .writer .releaseUnlock | .writer .gone => 0
  | .reader _ .releaseUnlock | .reader _ .releaseFree | .reader _ .releaseLast | .reader _ .gone =>
    0
  | _ => 1

def readLocked : Thread → ℕ
  | .writer (.grab pc) | .reader _ (.grab pc) => pc.readLocked
  | .reader _ .copyInc | .reader _ (.copyUnlock _) | .reader _ .releaseDec
  | .reader _ .releaseUnlock | .reader _ .releaseFree => 1
  | _ => 0

def writeLocked : Thread → ℕ
  | .writer (.updateUnlock _) | .writer .releaseCopy | .writer .releaseUnlock => 1
  | _ => 0

/-- The writer, until it has released the object. -/
def owner : Thread → ℕ
  | .writer .releaseUnlock | .writer .gone | .reader _ _ => 0
  | .writer _ => 1

/-- A reader that has to free the object. -/
def freeing : Thread → ℕ
  | .reader _ .releaseFree => 1
  | _ => 0

end Thread

theorem Thread.owner_le_refs (t : Thread) : t.owner ≤ t.refs := by
  cases t with
  | reader last pc => exact Nat.zero_le _
  | writer pc =>
    cases pc with
    | grab pc =>
      cases pc with
      | lock | inc => exact Nat.le_refl 1
      | unlock => exact Nat.le_succ 1
    | idle | updateLock | updateUnlock | updateRelease | releaseLock | releaseCopy =>
      exact Nat.le_refl 1
    | releaseUnlock | gone => exact Nat.le_refl 0

/-- The reference of a pointer to a copy. -/
def held (pointer : Option ℕ) (copy : ℕ) : ℕ := if pointer = some copy then 1 else 0

/-- The references to a copy. -/
def Thread.copyRefs (copy : ℕ) : Thread → ℕ
  | .writer (.updateLock new) => held (some new) copy
  | .writer (.updateUnlock old) | .writer (.updateRelease old) => held old copy
  | .writer _ => 0
  | .reader last (.copyUnlock new) | .reader last (.readSame new) | .reader last (.readLast new) =>
    held last copy + held new copy
  | .reader last _ => held last copy

/-- The local variables of a thread. -/
def Thread.Ok : Thread → Prop
  | .writer (.grab (.unlock ref)) | .reader _ (.grab (.unlock ref)) => 0 < ref
  | .reader last (.call copy) => last = some copy
  | .reader last .gone => last = none
  | _ => True

def Memory.copyRefs (m : Memory) (copy : ℕ) : ℕ :=
  match m.object with
  | some o => held o.copy copy
  | none => 0

namespace State

/-- The references to the object: those of the threads and those that are not yet with a reader. -/
def refs (s : State) : ℕ := s.mem.grabbed + total Thread.refs s.threads

/-- The references to a copy: those of the threads and that of the object. -/
def copyRefs (s : State) (copy : ℕ) : ℕ :=
  s.mem.copyRefs copy + total (Thread.copyRefs copy) s.threads

end State

/-! ### The invariant -/

/-- The object that is there. -/
structure Sound (s : State) (o : Object) : Prop where
  reference : o.reference = s.refs
  read : o.read = total Thread.readLocked s.threads
  write : o.write.toNat = total Thread.writeLocked s.threads
  exclusive : o.write = true → o.read = 0
  copy : o.copy.isSome.toNat = total Thread.owner s.threads
  freeing : (if o.reference = 0 then 1 else 0) = total Thread.freeing s.threads

/-- No thread uses the object. -/
structure Unused (s : State) : Prop where
  refs : s.refs = 0
  read : total Thread.readLocked s.threads = 0
  write : total Thread.writeLocked s.threads = 0
  freeing : total Thread.freeing s.threads = 0

/-- The copies that are there have references. -/
structure Copies (copies : List (Option ℤ)) (refs : ℕ → ℕ) : Prop where
  counted : Counted (copies.getD · none) refs
  pos : ∀ c n, copies.getD c none = some n → 0 < n

structure Inv (s : State) : Prop where
  object : ∀ o, s.mem.object = some o → Sound s o
  unused : s.mem.object = none → Unused s
  copies : Copies s.mem.copies s.copyRefs
  threads : ∀ t ∈ s.threads, t.Ok

/-- A step of a thread does not increment the largest counter, and it does not free the object while
there is another reader in the lock. -/
def Thread.Alone (m : Memory) (t : Thread) : Prop :=
  ∀ o, m.object = some o → match t with
    | .writer (.grab .inc) | .reader _ (.grab .inc) => o.reference ≠ intMax
    | .reader _ .copyInc => ∀ c, o.copy = some c → m.copies.getD c none ≠ some intMax
    | .reader _ .releaseFree => o.read = 1
    | _ => True

def Alone (s : State) : Event → Prop
  | .act i .run => ∀ t, s.threads[i]? = some t → t.Alone s.mem
  | _ => True

theorem Inv.init : Inv init := by
  refine ⟨fun o ho => ?_, fun hnone => (nomatch hnone), ⟨⟨fun c n hn => ?_, fun c hnone => ?_⟩,
    fun c n hn => ?_⟩, fun t ht => ?_⟩
  · cases ho
    exact ⟨rfl, rfl, rfl, fun h => (nomatch h), rfl, rfl⟩
  · cases c with
    | zero =>
      cases hn
      rfl
    | succ c => cases hn
  · cases c with
    | zero => cases hnone
    | succ c => rfl
  · cases c with
    | zero =>
      cases hn
      exact Int.one_pos
    | succ c => cases hn
  · rw [mem_singleton.1 ht]
    trivial

theorem inc_eq {n : ℤ} (h : n ≠ intMax) : inc n = n + 1 := if_neg h

theorem dec_eq {n : ℤ} (h : 0 < n) : dec n = n - 1 :=
  if_neg fun heq => by rw [heq] at h; exact absurd h (by decide)

/-! ### Changes of the memory -/

theorem State.refs_set (ht : s.threads[i]? = some t) (m' : Memory) (t' : Thread) :
    (⟨m', s.threads.set i t'⟩ : State).refs + s.mem.grabbed + t.refs =
      s.refs + m'.grabbed + t'.refs := by
  have := total_set Thread.refs ht t'
  simp only [State.refs]
  omega

theorem State.copyRefs_set (ht : s.threads[i]? = some t) (m' : Memory) (t' : Thread) (c : ℕ) :
    (⟨m', s.threads.set i t'⟩ : State).copyRefs c + s.mem.copyRefs c + t.copyRefs c =
      s.copyRefs c + m'.copyRefs c + t'.copyRefs c := by
  have := total_set (Thread.copyRefs c) ht t'
  simp only [State.copyRefs]
  omega

theorem State.le_copyRefs (ht : s.threads[i]? = some t) (c : ℕ) : t.copyRefs c ≤ s.copyRefs c :=
  Nat.le_trans (le_total (Thread.copyRefs c) ht) (Nat.le_add_left _ _)

section

variable (h : Sound s o) (ht : s.threads[i]? = some t)
include h ht

theorem Sound.set
    (hreference : o'.reference + s.mem.grabbed + t.refs = o.reference + m'.grabbed + t'.refs)
    (hread : o'.read + t.readLocked = o.read + t'.readLocked)
    (hwrite : o'.write.toNat + t.writeLocked = o.write.toNat + t'.writeLocked)
    (hexclusive : o'.write = true → o'.read = 0)
    (hcopy : o'.copy.isSome.toNat + t.owner = o.copy.isSome.toNat + t'.owner)
    (hfreeing : (if o'.reference = 0 then 1 else 0) + t.freeing =
      (if o.reference = 0 then 1 else 0) + t'.freeing) : Sound ⟨m', s.threads.set i t'⟩ o' := by
  have := s.refs_set ht m' t'
  have := total_set Thread.readLocked ht t'
  have := total_set Thread.writeLocked ht t'
  have := total_set Thread.owner ht t'
  have := total_set Thread.freeing ht t'
  obtain ⟨href, hr, hw, -, hc, hf⟩ := h
  refine ⟨?_, ?_, ?_, hexclusive, ?_, ?_⟩
  · omega
  · dsimp only
    omega
  · dsimp only
    omega
  · dsimp only
    omega
  · dsimp only
    omega

/-- While there is a writer, the object has a copy. -/
theorem Sound.isSome_of_owner (howner : 0 < t.owner) : o.copy.isSome = true := by
  have hle := le_total Thread.owner ht
  rw [← h.copy] at hle
  cases hcase : o.copy.isSome with
  | true => rfl
  | false =>
    rw [hcase, Bool.toNat_false] at hle
    omega

theorem Sound.write_of_locked (hlocked : 0 < t.writeLocked) : o.write = true := by
  have hle := le_total Thread.writeLocked ht
  rw [← h.write] at hle
  cases hcase : o.write with
  | true => rfl
  | false =>
    rw [hcase, Bool.toNat_false] at hle
    omega

theorem Sound.read_of_locked (hlocked : 0 < t.readLocked) : 0 < o.read := by
  have hle := le_total Thread.readLocked ht
  rw [h.read]
  omega

end

namespace Copies

variable {copies : List (Option ℤ)} {refs refs' : ℕ → ℕ} {c : ℕ} {n : ℤ}

theorem congr (h : Copies copies refs) (hrefs : ∀ c, refs' c = refs c) : Copies copies refs' := by
  obtain rfl : refs' = refs := funext hrefs
  exact h

theorem alive (h : Copies copies refs) (hc : 0 < refs c) :
    ∃ n, copies.getD c none = some n ∧ 0 < n := by
  obtain ⟨n, hn⟩ := h.counted.alive hc
  exact ⟨n, hn, h.pos c n hn⟩

theorem getD_of_le (h : copies.length ≤ c) : copies.getD c none = none := by
  rw [getD_eq_getElem?_getD, getElem?_eq_none h]
  rfl

theorem getD_set (hn : copies.getD c none = some n) (x : Option ℤ) (c' : ℕ) :
    (copies.set c x).getD c' none = if c' = c then x else copies.getD c' none := by
  have hlt : c < copies.length := by
    by_contra hge
    rw [getD_of_le (Nat.le_of_not_lt hge)] at hn
    cases hn
  rw [getD_eq_getElem?_getD, getD_eq_getElem?_getD]
  by_cases hcc : c' = c
  · rw [hcc, getElem?_set_self hlt, if_pos rfl]
    rfl
  · rw [getElem?_set_ne (Ne.symm hcc), if_neg hcc]

theorem acquire (h : Copies copies refs) (hn : copies.getD c none = some n)
    (hrefs : ∀ c', refs' c' = refs c' + held (some c) c') :
    Copies (copies.set c (some (n + 1))) refs' := by
  refine ⟨h.counted.acquire hn (getD_set hn _) fun c' => ?_, fun c' n' hn' => ?_⟩
  · rw [hrefs, held]
    simp only [Option.some.injEq, eq_comm]
  · rw [getD_set hn] at hn'
    split_ifs at hn'
    · have := h.pos c n hn
      cases hn'
      omega
    · exact h.pos c' n' hn'

theorem release (h : Copies copies refs) (hn : copies.getD c none = some n)
    (hrefs : ∀ c', refs c' = refs' c' + held (some c) c') :
    Copies (copies.set c (if n - 1 = 0 then none else some (n - 1))) refs' := by
  have hdec : Counted (fun c' => if c' = c then some (n - 1) else copies.getD c' none) refs' := by
    refine h.counted.release hn (fun _ => rfl) fun c' => ?_
    rw [hrefs, held]
    simp only [Option.some.injEq, eq_comm]
  have hpos := h.pos c n hn
  refine ⟨?_, fun c' n' hn' => ?_⟩
  · by_cases hzero : n - 1 = 0
    · refine (hdec.free (if_pos rfl) hzero.le fun c' => ?_)
      rw [getD_set hn, if_pos hzero]
      split_ifs <;> rfl
    · refine hdec.congr (fun c' => ?_) fun _ => rfl
      rw [getD_set hn, if_neg hzero]
  · rw [getD_set hn] at hn'
    split_ifs at hn' with hc hzero
    · cases hn'
      omega
    · exact h.pos c' n' hn'

theorem alloc (h : Copies copies refs)
    (hrefs : ∀ c', refs' c' = refs c' + held (some copies.length) c') :
    Copies (copies ++ [some 1]) refs' := by
  have hget (c' : ℕ) : (copies ++ [some 1]).getD c' none =
      if c' = copies.length then some ((1 : ℕ) : ℤ) else copies.getD c' none := by
    rw [getD_eq_getElem?_getD, getD_eq_getElem?_getD]
    rcases Nat.lt_trichotomy c' copies.length with hlt | rfl | hgt
    · rw [getElem?_append_left hlt, if_neg (Nat.ne_of_lt hlt)]
    · rw [getElem?_concat_length, if_pos rfl]
      rfl
    · rw [if_neg (Nat.ne_of_gt hgt), getElem?_eq_none, getElem?_eq_none hgt.le]
      rw [length_append, length_singleton]
      exact hgt
  refine ⟨h.counted.alloc (getD_of_le (Nat.le_refl _)) hget fun c' => ?_,
    fun c' n' hn' => ?_⟩
  · rw [hrefs, held]
    simp only [Option.some.injEq, eq_comm]
  · rw [hget] at hn'
    split_ifs at hn'
    · cases hn'
      exact Int.one_pos
    · exact h.pos c' n' hn'

theorem releasecopy {pointer : Option ℕ} (h : Copies m.copies refs)
    (hle : ∀ c, held pointer c ≤ refs c) : ∃ copies,
      releasecopy m pointer = .ok { m with copies } ∧
        ∀ refs' : ℕ → ℕ, (∀ c, refs' c + held pointer c = refs c) → Copies copies refs' := by
  cases pointer with
  | none => exact ⟨m.copies, rfl, fun refs' hrefs => h.congr hrefs⟩
  | some c =>
    have hc := hle c
    rw [held, if_pos rfl] at hc
    obtain ⟨n, hn, hpos⟩ := h.alive hc
    refine ⟨_, ?_, fun refs' hrefs => h.release hn fun c => (hrefs c).symm⟩
    rw [Stm.releasecopy, Memory.getReference, hn, ← dec_eq hpos]
    rfl

end Copies

/-! ### Steps -/

/-- The run of a thread keeps the invariant, or it has to wait. -/
def Outcome (s : State) (i : ℕ) : Except Fault (Memory × Thread) → Prop
  | .ok (m, t) => Inv ⟨m, s.threads.set i t⟩
  | .error fault => fault = .blocked ∨ fault = .notEnabled

namespace Inv

section

variable (h : Inv s) (ht : s.threads[i]? = some t)

include h ht

omit ht in
theorem ok_set (hok : t'.Ok) : ∀ u ∈ s.threads.set i t', u.Ok := by
  intro u hu
  rcases mem_or_eq_of_mem_set hu with hu | rfl
  · exact h.threads u hu
  · exact hok

/-- The object is there for a thread that has a reference. -/
theorem exists_of_refs (href : 0 < t.refs) : ∃ o, s.mem.object = some o ∧ Sound s o := by
  cases ho : s.mem.object with
  | some o => exact ⟨o, rfl, h.object o ho⟩
  | none =>
    have hnone := (h.unused ho).refs
    have hle := le_total Thread.refs ht
    rw [State.refs] at hnone
    omega

theorem exists_of_read (hread : 0 < t.readLocked) : ∃ o, s.mem.object = some o ∧ Sound s o := by
  cases ho : s.mem.object with
  | some o => exact ⟨o, rfl, h.object o ho⟩
  | none =>
    have := (h.unused ho).read
    have := le_total Thread.readLocked ht
    omega

theorem exists_of_write (hwrite : 0 < t.writeLocked) : ∃ o, s.mem.object = some o ∧ Sound s o := by
  cases ho : s.mem.object with
  | some o => exact ⟨o, rfl, h.object o ho⟩
  | none =>
    have := (h.unused ho).write
    have := le_total Thread.writeLocked ht
    omega

variable {copies : List (Option ℤ)}

theorem retain (href : t'.refs = t.refs) (hread : t'.readLocked = t.readLocked)
    (hwrite : t'.writeLocked = t.writeLocked) (howner : t'.owner = t.owner)
    (hfreeing : t'.freeing = t.freeing) (hok : t'.Ok)
    (hcopies : ∀ refs : ℕ → ℕ, (∀ c, refs c + t.copyRefs c = s.copyRefs c + t'.copyRefs c) →
      Copies copies refs) : Inv ⟨{ s.mem with copies }, s.threads.set i t'⟩ := by
  refine ⟨fun o ho => ?_, fun hnone => ?_, hcopies _ fun c => ?_, h.ok_set hok⟩
  · have hsound := h.object o ho
    exact hsound.set ht (by dsimp only; omega) (by omega) (by omega) hsound.exclusive (by omega)
      (by omega)
  · have hunused := h.unused hnone
    have := s.refs_set ht { s.mem with copies } t'
    have := total_set Thread.readLocked ht t'
    have := total_set Thread.writeLocked ht t'
    have := total_set Thread.freeing ht t'
    obtain ⟨hr, hrd, hw, hf⟩ := hunused
    exact ⟨by dsimp only at *; omega, by dsimp only; omega, by dsimp only; omega,
      by dsimp only; omega⟩
  · have := State.copyRefs_set ht { s.mem with copies } t' c
    have hsame : Memory.copyRefs { s.mem with copies } c = s.mem.copyRefs c := rfl
    omega

variable {grabbed : ℕ}

section

variable (ho : s.mem.object = some o)
include ho

theorem change (hsound : Sound ⟨⟨some o', copies, grabbed⟩, s.threads.set i t'⟩ o') (hok : t'.Ok)
    (hcopies : ∀ refs : ℕ → ℕ, (∀ c, refs c + held o.copy c + t.copyRefs c =
      s.copyRefs c + held o'.copy c + t'.copyRefs c) → Copies copies refs) :
    Inv ⟨⟨some o', copies, grabbed⟩, s.threads.set i t'⟩ := by
  refine ⟨fun o₁ ho₁ => ?_, fun hnone => (nomatch hnone), hcopies _ fun c => ?_, h.ok_set hok⟩
  · cases ho₁
    exact hsound
  · have hset := State.copyRefs_set ht ⟨some o', copies, grabbed⟩ t' c
    have hold : s.mem.copyRefs c = held o.copy c := by rw [Memory.copyRefs, ho]
    have hnew : Memory.copyRefs ⟨some o', copies, grabbed⟩ c = held o'.copy c := rfl
    omega

/-- A step that changes the object, but no references to copies. -/
theorem move (hsound : Sound ⟨⟨some o', s.mem.copies, grabbed⟩, s.threads.set i t'⟩ o')
    (hok : t'.Ok) (hcopy : ∀ c, held o'.copy c + t'.copyRefs c = held o.copy c + t.copyRefs c) :
    Inv ⟨⟨some o', s.mem.copies, grabbed⟩, s.threads.set i t'⟩ :=
  h.change ht ho hsound hok fun refs hrefs => h.copies.congr fun c => by
    have := hrefs c
    have := hcopy c
    omega

theorem rlock (hfree : ¬o.write) (href : t'.refs = t.refs)
    (hread : t'.readLocked = t.readLocked + 1) (hwrite : t'.writeLocked = t.writeLocked)
    (howner : t'.owner = t.owner) (hfreeing : t'.freeing = t.freeing) (hok : t'.Ok)
    (hcopy : ∀ c, t'.copyRefs c = t.copyRefs c) :
    Inv ⟨s.mem.setObject { o with read := o.read + 1 }, s.threads.set i t'⟩ :=
  h.move ht ho ((h.object o ho).set ht (by dsimp only; omega) (by dsimp only; omega)
    (by dsimp only; omega) (fun hw => absurd hw hfree) (by dsimp only; omega)
    (by dsimp only; omega)) hok fun c => by rw [hcopy]

theorem runlock (href : t'.refs = t.refs) (hread : t.readLocked = t'.readLocked + 1)
    (hwrite : t'.writeLocked = t.writeLocked) (howner : t'.owner = t.owner)
    (hfreeing : t'.freeing = t.freeing) (hok : t'.Ok) (hcopy : ∀ c, t'.copyRefs c = t.copyRefs c) :
    Inv ⟨s.mem.setObject { o with read := o.read - 1 }, s.threads.set i t'⟩ := by
  have hsound := h.object o ho
  have hpos := hsound.read_of_locked ht (by omega)
  refine h.move ht ho (hsound.set ht (by dsimp only; omega) (by dsimp only; omega)
    (by dsimp only; omega) (fun hw => ?_) (by dsimp only; omega) (by dsimp only; omega)) hok
    fun c => by rw [hcopy]
  have := hsound.exclusive hw
  omega

theorem free (hrefs : s.refs + t'.refs = t.refs)
    (hread : total Thread.readLocked s.threads + t'.readLocked = t.readLocked)
    (hwrite : total Thread.writeLocked s.threads + t'.writeLocked = t.writeLocked)
    (hfreeing : total Thread.freeing s.threads + t'.freeing = t.freeing) (hok : t'.Ok)
    (hcopies : ∀ refs : ℕ → ℕ, (∀ c, refs c + held o.copy c + t.copyRefs c =
      s.copyRefs c + t'.copyRefs c) → Copies copies refs) :
    Inv ⟨⟨none, copies, s.mem.grabbed⟩, s.threads.set i t'⟩ := by
  have hset := State.refs_set ht ⟨none, copies, s.mem.grabbed⟩ t'
  have hreads := total_set Thread.readLocked ht t'
  have hwrites := total_set Thread.writeLocked ht t'
  have hfreeings := total_set Thread.freeing ht t'
  dsimp only at hset
  refine ⟨nofun, fun _ => ⟨by omega, by dsimp only; omega, by dsimp only; omega,
    by dsimp only; omega⟩, hcopies _ fun c => ?_, h.ok_set hok⟩
  have hc := State.copyRefs_set ht ⟨none, copies, s.mem.grabbed⟩ t' c
  have hold : s.mem.copyRefs c = held o.copy c := by rw [Memory.copyRefs, ho]
  have hnew : Memory.copyRefs ⟨none, copies, s.mem.grabbed⟩ c = 0 := rfl
  omega

end

end

end Inv

/-! ### The functions -/

section Operations

variable (ho : m.object = some o)

include ho

theorem getObject_eq : m.getObject = .ok o := by rw [Memory.getObject, ho]

theorem rlock_eq : rlock m =
    if o.write then .error .blocked else .ok (m.setObject { o with read := o.read + 1 }) := by
  rw [rlock, getObject_eq ho]
  rfl

theorem runlock_eq : runlock m = .ok (m.setObject { o with read := o.read - 1 }) := by
  rw [runlock, getObject_eq ho]
  rfl

theorem wlock_eq : wlock m = if o.write ∨ o.read ≠ 0 then .error .blocked
    else .ok (m.setObject { o with write := true }) := by
  rw [wlock, getObject_eq ho]
  rfl

theorem wunlock_eq : wunlock m = .ok (m.setObject { o with write := false }) := by
  rw [wunlock, getObject_eq ho]
  rfl

end Operations

/-- The threads of a box that grabs the object, and afterwards. -/
structure Grabs (f : Option GrabPc → Thread) : Prop where
  refs : ∀ pc, (f pc).refs = pc.elim 1 GrabPc.refs
  readLocked : ∀ pc, (f pc).readLocked = pc.elim 0 GrabPc.readLocked
  writeLocked : ∀ pc, (f pc).writeLocked = 0
  owner : ∀ pc pc', (f pc).owner = (f pc').owner
  freeing : ∀ pc, (f pc).freeing = 0
  copyRefs : ∀ pc pc' c, (f pc).copyRefs c = (f pc').copyRefs c
  ok : ∀ pc, (f pc).Ok ↔ ∀ ref, pc = some (.unlock ref) → 0 < ref

theorem grabs_writer : Grabs fun pc => .writer (pc.elim .idle .grab) := by
  refine ⟨?_, ?_, ?_, ?_, ?_, ?_, ?_⟩
  · rintro (- | - | - | ref) <;> rfl
  · rintro (- | - | - | ref) <;> rfl
  · rintro (- | - | - | ref) <;> rfl
  · rintro (- | - | - | ref) (- | - | - | ref) <;> rfl
  · rintro (- | - | - | ref) <;> rfl
  · rintro (- | - | - | ref) (- | - | - | ref) c <;> rfl
  · rintro (- | - | - | ref) <;> simp [Thread.Ok]

theorem grabs_reader (last : Option ℕ) : Grabs fun pc => .reader last (pc.elim .idle .grab) := by
  refine ⟨?_, ?_, ?_, ?_, ?_, ?_, ?_⟩
  · rintro (- | - | - | ref) <;> rfl
  · rintro (- | - | - | ref) <;> rfl
  · rintro (- | - | - | ref) <;> rfl
  · rintro (- | - | - | ref) (- | - | - | ref) <;> rfl
  · rintro (- | - | - | ref) <;> rfl
  · rintro (- | - | - | ref) (- | - | - | ref) c <;> rfl
  · rintro (- | - | - | ref) <;> simp [Thread.Ok]

namespace Inv

theorem runGrab {f : Option GrabPc → Thread} (hf : Grabs f) {pc : GrabPc} (h : Inv s)
    (ht : s.threads[i]? = some (f (some pc)))
    (hinc : pc = .inc → ∀ o, s.mem.object = some o → o.reference ≠ intMax) :
    Outcome s i (Stm.runGrab s.mem pc >>= fun r => .ok (r.1, f r.2)) := by
  have hrefs : 0 < (f (some pc)).refs := by
    rw [hf.refs]
    cases pc <;> exact Nat.succ_pos _
  obtain ⟨o, ho, hsound⟩ := h.exists_of_refs ht hrefs
  have hpos : 0 < o.reference := by
    have hle := le_total Thread.refs ht
    rw [hsound.reference, State.refs]
    omega
  have hcopyRefs := hf.copyRefs (some pc)
  cases pc with
  | lock =>
    unfold Stm.runGrab
    rw [rlock_eq ho]
    by_cases hwrite : o.write
    · rw [if_pos hwrite]
      exact .inl rfl
    · rw [if_neg hwrite]
      refine h.move ht ho (hsound.set ht ?_ ?_ ?_ (fun hw => absurd hw hwrite) ?_ ?_)
        ((hf.ok _).2 nofun) fun c => by rw [hcopyRefs (some .inc)]
      all_goals
        simp only [hf.refs, hf.readLocked, hf.writeLocked, hf.freeing, hf.owner _ (some .lock),
          Option.elim, GrabPc.refs, GrabPc.readLocked]
        try omega
  | inc =>
    unfold Stm.runGrab
    rw [getObject_eq ho]
    have hnext := inc_eq (hinc rfl o ho)
    have hnonzero : inc o.reference ≠ 0 := by omega
    refine h.move ht ho (hsound.set ht ?_ ?_ ?_ hsound.exclusive ?_ ?_)
      ((hf.ok _).2 fun ref href => ?_) fun c => by rw [hcopyRefs (some (.unlock o.reference))]
    rotate_right
    · cases href
      exact hpos
    all_goals
      simp only [hf.refs, hf.readLocked, hf.writeLocked, hf.freeing, hf.owner _ (some .lock),
        Option.elim, GrabPc.refs, GrabPc.readLocked, if_neg hnonzero, if_neg hpos.ne']
      try omega
  | unlock ref =>
    have hread := le_total Thread.readLocked ht
    rw [hf.readLocked] at hread
    have hlocked : 0 < o.read := by
      rw [hsound.read]
      exact Int.natCast_pos.2 hread
    have hok := (hf.ok _).1 (h.threads _ (mem_of_getElem? ht)) ref rfl
    unfold Stm.runGrab
    rw [runlock_eq ho]
    simp only [bind, Except.bind, if_pos hok]
    refine h.move ht ho (hsound.set ht ?_ ?_ ?_ (fun hw => ?_) ?_ ?_)
      ((hf.ok _).2 nofun) fun c => by rw [hcopyRefs none]
    rotate_right 3
    · have := hsound.exclusive hw
      omega
    all_goals
      simp only [hf.refs, hf.readLocked, hf.writeLocked, hf.freeing, hf.owner _ (some .lock),
        Option.elim, GrabPc.refs, GrabPc.readLocked, Memory.setObject]
      try omega

theorem runWriter {pc : WriterPc} (h : Inv s) (ht : s.threads[i]? = some (.writer pc))
    (halone : (Thread.writer pc).Alone s.mem) :
    Outcome s i (Stm.runWriter s.mem pc >>= fun r => .ok (r.1, .writer r.2)) := by
  cases pc with
  | idle => exact .inr rfl
  | gone => exact .inr rfl
  | grab pc =>
    have hrun := h.runGrab grabs_writer ht fun hpc o ho => by
      subst hpc
      exact halone o ho
    unfold Stm.runWriter
    dsimp only
    cases hgrab : Stm.runGrab s.mem pc with
    | error fault =>
      rw [hgrab] at hrun
      exact hrun
    | ok r =>
      rw [hgrab] at hrun
      exact hrun
  | updateLock copy =>
    obtain ⟨o, ho, hsound⟩ := h.exists_of_refs ht Nat.one_pos
    have hsome := hsound.isSome_of_owner ht Nat.one_pos
    unfold Stm.runWriter
    rw [wlock_eq ho]
    by_cases hbusy : o.write ∨ o.read ≠ 0
    · rw [if_pos hbusy]
      exact .inl rfl
    · rw [if_neg hbusy]
      obtain ⟨hwrite, hread⟩ := not_or.1 hbusy
      refine h.move ht ho (hsound.set ht rfl rfl ?_ (fun _ => not_not.1 hread) ?_ rfl) trivial
        fun c => Nat.add_comm _ _
      · rw [Bool.not_eq_true] at hwrite
        rw [hwrite]
        rfl
      · rw [hsome]
        rfl
  | updateUnlock oldcopy =>
    obtain ⟨o, ho, hsound⟩ := h.exists_of_write ht Nat.one_pos
    have hwrite := hsound.write_of_locked ht Nat.one_pos
    unfold Stm.runWriter
    rw [wunlock_eq ho]
    refine h.move ht ho (hsound.set ht rfl rfl ?_ nofun rfl rfl) trivial fun _ => rfl
    rw [hwrite]
    rfl
  | updateRelease oldcopy =>
    obtain ⟨copies, hrun, hcopies⟩ := h.copies.releasecopy (State.le_copyRefs ht)
    unfold Stm.runWriter
    dsimp only
    rw [hrun]
    exact h.retain ht rfl rfl rfl rfl rfl trivial hcopies
  | releaseLock =>
    obtain ⟨o, ho, hsound⟩ := h.exists_of_refs ht Nat.one_pos
    unfold Stm.runWriter
    rw [wlock_eq ho]
    by_cases hbusy : o.write ∨ o.read ≠ 0
    · rw [if_pos hbusy]
      exact .inl rfl
    · rw [if_neg hbusy]
      obtain ⟨hwrite, hread⟩ := not_or.1 hbusy
      refine h.move ht ho (hsound.set ht rfl rfl ?_ (fun _ => not_not.1 hread) rfl rfl) trivial
        fun _ => rfl
      rw [Bool.not_eq_true] at hwrite
      rw [hwrite]
      rfl
  | releaseCopy =>
    obtain ⟨o, ho, hsound⟩ := h.exists_of_write ht Nat.one_pos
    have hwrite := hsound.write_of_locked ht Nat.one_pos
    have hsome := hsound.isSome_of_owner ht Nat.one_pos
    have hread := hsound.exclusive hwrite
    have hrefs := le_total Thread.refs ht
    have hpos : 0 < o.reference := by
      rw [hsound.reference, State.refs]
      have hone : (Thread.writer .releaseCopy).refs = 1 := rfl
      omega
    have hheld (c : ℕ) : held o.copy c ≤ s.copyRefs c := by
      rw [State.copyRefs, Memory.copyRefs, ho]
      exact Nat.le_add_right _ _
    obtain ⟨copies, hrun, hcopies⟩ := h.copies.releasecopy hheld
    unfold Stm.runWriter
    rw [getObject_eq ho]
    simp only [bind, Except.bind, hrun, dec_eq hpos]
    by_cases hlast : 0 < o.reference - 1
    · rw [if_pos hlast]
      refine h.change ht ho (hsound.set ht ?_ rfl rfl (fun _ => hread) ?_ ?_) trivial
        fun refs hrefs => hcopies refs fun c => (hrefs c).trans ?_
      · change o.reference - 1 + (s.mem.grabbed : ℤ) + (1 : ℕ) =
          o.reference + s.mem.grabbed + (0 : ℕ)
        omega
      · rw [hsome]
        rfl
      · rw [if_neg hlast.ne', if_neg hpos.ne']
        rfl
      · rfl
    · rw [if_neg hlast]
      have hone := hsound.reference
      have hreads := hsound.read
      have hwrites := hsound.write
      rw [hwrite, Bool.toNat_true] at hwrites
      have hfreeing := hsound.freeing
      rw [if_neg hpos.ne'] at hfreeing
      refine h.free ht ho ?_ ?_ hwrites.symm hfreeing.symm trivial fun refs hrefs =>
        hcopies refs fun c => hrefs c
      · change s.refs + 0 = 1
        omega
      · change _ + 0 = 0
        omega
  | releaseUnlock =>
    obtain ⟨o, ho, hsound⟩ := h.exists_of_write ht Nat.one_pos
    have hwrite := hsound.write_of_locked ht Nat.one_pos
    unfold Stm.runWriter
    rw [wunlock_eq ho]
    refine h.move ht ho (hsound.set ht rfl rfl ?_ nofun rfl rfl) trivial fun _ => rfl
    rw [hwrite]
    rfl

theorem runReader {last : Option ℕ} {pc : ReaderPc} (h : Inv s)
    (ht : s.threads[i]? = some (.reader last pc)) (halone : (Thread.reader last pc).Alone s.mem) :
    Outcome s i (Stm.runReader s.mem last pc >>= fun r => .ok (r.1, .reader r.2.1 r.2.2)) := by
  cases pc with
  | idle => exact .inr rfl
  | gone => exact .inr rfl
  | grab pc =>
    have hrun := h.runGrab (grabs_reader last) ht fun hpc o ho => by
      subst hpc
      exact halone o ho
    unfold Stm.runReader
    dsimp only
    cases hgrab : Stm.runGrab s.mem pc with
    | error fault =>
      rw [hgrab] at hrun
      exact hrun
    | ok r =>
      rw [hgrab] at hrun
      exact hrun
  | copyLock =>
    obtain ⟨o, ho, hsound⟩ := h.exists_of_refs ht Nat.one_pos
    unfold Stm.runReader
    rw [rlock_eq ho]
    by_cases hwrite : o.write
    · rw [if_pos hwrite]
      exact .inl rfl
    · rw [if_neg hwrite]
      exact h.rlock ht ho hwrite rfl rfl rfl rfl rfl trivial fun _ => rfl
  | copyInc =>
    obtain ⟨o, ho, hsound⟩ := h.exists_of_read ht Nat.one_pos
    unfold Stm.runReader
    rw [getObject_eq ho]
    cases hcopy : o.copy with
    | none =>
      simp only [bind, Except.bind, hcopy]
      exact h.retain ht rfl rfl rfl rfl rfl trivial fun refs hrefs => h.copies.congr fun c =>
        Nat.add_right_cancel (hrefs c)
    | some copy =>
      have hheld : 0 < s.copyRefs copy := by
        rw [State.copyRefs, Memory.copyRefs, ho]
        dsimp only
        rw [hcopy, held, if_pos rfl]
        omega
      obtain ⟨n, hn, hpos⟩ := h.copies.alive hheld
      have hnext := inc_eq fun heq => halone o ho copy hcopy (heq ▸ hn)
      simp only [bind, Except.bind, hcopy, Memory.getReference, hn, if_pos hpos, hnext]
      refine h.retain ht rfl rfl rfl rfl rfl trivial
        fun refs hrefs => h.copies.acquire hn fun c => ?_
      have hc := hrefs c
      simp only [Thread.copyRefs] at hc
      omega
  | copyUnlock ret =>
    obtain ⟨o, ho, -⟩ := h.exists_of_read ht Nat.one_pos
    unfold Stm.runReader
    rw [runlock_eq ho]
    simp only [bind, Except.bind]
    by_cases hsame : ret = last
    · rw [if_pos hsame]
      exact h.runlock ht ho rfl rfl rfl rfl rfl trivial fun _ => rfl
    · rw [if_neg hsame]
      exact h.runlock ht ho rfl rfl rfl rfl rfl trivial fun _ => rfl
  | readSame copy =>
    obtain ⟨copies, hrun, hcopies⟩ := h.copies.releasecopy fun c =>
      Nat.le_trans (Nat.le_add_left _ _) (State.le_copyRefs ht c)
    unfold Stm.runReader
    dsimp only
    rw [hrun]
    refine h.retain ht rfl rfl rfl rfl rfl trivial fun refs hrefs => hcopies refs fun c => ?_
    have hc := hrefs c
    simp only [Thread.copyRefs] at hc
    omega
  | readLast copy =>
    obtain ⟨copies, hrun, hcopies⟩ := h.copies.releasecopy fun c =>
      Nat.le_trans (Nat.le_add_right _ _) (State.le_copyRefs ht c)
    unfold Stm.runReader
    dsimp only
    rw [hrun]
    cases copy with
    | none =>
      refine h.retain ht rfl rfl rfl rfl rfl trivial fun refs hrefs => hcopies refs fun c => ?_
      have hc := hrefs c
      simp only [Thread.copyRefs, Option.elim] at hc
      omega
    | some copy =>
      refine h.retain ht rfl rfl rfl rfl rfl rfl fun refs hrefs => hcopies refs fun c => ?_
      have hc := hrefs c
      simp only [Thread.copyRefs, Option.elim] at hc
      omega
  | call copy =>
    obtain rfl : last = some copy := h.threads _ (mem_of_getElem? ht)
    have hle := State.le_copyRefs ht copy
    have hone : (Thread.reader (some copy) (.call copy)).copyRefs copy = 1 := if_pos rfl
    obtain ⟨n, hn, -⟩ := h.copies.alive (Nat.lt_of_lt_of_le Nat.one_pos (hone ▸ hle))
    unfold Stm.runReader
    simp only [bind, Except.bind, Memory.getReference, hn]
    exact h.retain ht rfl rfl rfl rfl rfl trivial fun refs hrefs => h.copies.congr fun c =>
      Nat.add_right_cancel (hrefs c)
  | releaseLock =>
    obtain ⟨o, ho, hsound⟩ := h.exists_of_refs ht Nat.one_pos
    unfold Stm.runReader
    rw [rlock_eq ho]
    by_cases hwrite : o.write
    · rw [if_pos hwrite]
      exact .inl rfl
    · rw [if_neg hwrite]
      exact h.rlock ht ho hwrite rfl rfl rfl rfl rfl trivial fun _ => rfl
  | releaseDec =>
    obtain ⟨o, ho, hsound⟩ := h.exists_of_read ht Nat.one_pos
    have hrefs := le_total Thread.refs ht
    have hpos : 0 < o.reference := by
      rw [hsound.reference, State.refs]
      have hone : (Thread.reader last .releaseDec).refs = 1 := rfl
      omega
    unfold Stm.runReader
    rw [getObject_eq ho]
    simp only [bind, Except.bind, dec_eq hpos]
    have hreference (grabbed : ℤ) : o.reference - 1 + grabbed + (1 : ℕ) =
        o.reference + grabbed + (0 : ℕ) := by omega
    by_cases hlast : o.reference - 1 = 0
    · rw [if_pos hlast]
      refine h.move ht ho (hsound.set ht (hreference _) rfl rfl hsound.exclusive rfl ?_) trivial
        fun _ => rfl
      rw [if_pos hlast, if_neg hpos.ne']
      rfl
    · rw [if_neg hlast]
      refine h.move ht ho (hsound.set ht (hreference _) rfl rfl hsound.exclusive rfl ?_) trivial
        fun _ => rfl
      rw [if_neg hlast, if_neg hpos.ne']
      rfl
  | releaseUnlock =>
    obtain ⟨o, ho, -⟩ := h.exists_of_read ht Nat.one_pos
    unfold Stm.runReader
    rw [runlock_eq ho]
    exact h.runlock ht ho rfl rfl rfl rfl rfl trivial fun _ => rfl
  | releaseFree =>
    obtain ⟨o, ho, hsound⟩ := h.exists_of_read ht Nat.one_pos
    have hread : o.read = 1 := halone o ho
    have hreads := hsound.read
    have hfreeing := le_total Thread.freeing ht
    rw [← hsound.freeing] at hfreeing
    have hzero : o.reference = 0 := by
      by_contra hne
      rw [if_neg hne] at hfreeing
      exact Nat.not_succ_le_zero 0 hfreeing
    have hrefs := hsound.reference
    -- there is no writer, as it would have a reference
    have hnone : o.copy = none := by
      have howner := total_mono Thread.owner_le_refs (l := s.threads)
      have hcopy := hsound.copy
      rw [State.refs] at hrefs
      cases hcase : o.copy with
      | none => rfl
      | some copy =>
        rw [hcase, Option.isSome_some, Bool.toNat_true] at hcopy
        omega
    have hwrite : o.write = false := by
      rw [← Bool.not_eq_true]
      intro hw
      have := hsound.exclusive hw
      omega
    have hwrites := hsound.write
    rw [hwrite, Bool.toNat_false] at hwrites
    have hone := hsound.freeing
    rw [if_pos hzero] at hone
    unfold Stm.runReader
    rw [getObject_eq ho]
    simp only [bind, Except.bind, if_pos hnone]
    refine h.free ht ho ?_ ?_ hwrites.symm hone.symm trivial fun refs hrefs =>
      h.copies.congr fun c => ?_
    · change s.refs + 0 = 0
      omega
    · change _ + 0 = 1
      omega
    · have hc := hrefs c
      rw [hnone] at hc
      exact Nat.add_right_cancel hc
  | releaseLast =>
    obtain ⟨copies, hrun, hcopies⟩ := h.copies.releasecopy (State.le_copyRefs ht)
    unfold Stm.runReader
    dsimp only
    rw [hrun]
    exact h.retain ht rfl rfl rfl rfl rfl rfl hcopies

/-- A call of a function, or a step of the one that runs. -/
theorem act {a : Act} (h : Inv s) (ht : s.threads[i]? = some t)
    (halone : a = .run → t.Alone s.mem) : Outcome s i (t.act s.mem a) := by
  have hkeep {t' : Thread} (href : t'.refs = t.refs) (hread : t'.readLocked = t.readLocked)
      (hwrite : t'.writeLocked = t.writeLocked) (howner : t'.owner = t.owner)
      (hfreeing : t'.freeing = t.freeing) (hok : t'.Ok)
      (hcopy : ∀ c, t'.copyRefs c = t.copyRefs c) : Inv ⟨s.mem, s.threads.set i t'⟩ :=
    h.retain ht href hread hwrite howner hfreeing hok fun refs hrefs => h.copies.congr fun c => by
      have hc := hrefs c
      rw [hcopy] at hc
      exact Nat.add_right_cancel hc
  cases a with
  | run =>
    cases t with
    | writer pc => exact h.runWriter ht (halone rfl)
    | reader last pc => exact h.runReader ht (halone rfl)
  | update =>
    cases t with
    | reader last pc => exact .inr rfl
    | writer pc =>
      cases pc with
      | idle => exact h.retain ht rfl rfl rfl rfl rfl trivial fun refs hrefs => h.copies.alloc hrefs
      | _ => exact .inr rfl
  | copy =>
    cases t with
    | reader last pc =>
      cases pc with
      | idle => exact hkeep rfl rfl rfl rfl rfl trivial fun _ => rfl
      | _ => exact .inr rfl
    | writer pc =>
      cases pc with
      | idle => exact hkeep rfl rfl rfl rfl rfl trivial fun _ => rfl
      | _ => exact .inr rfl
  | read =>
    cases t with
    | writer pc => exact .inr rfl
    | reader last pc =>
      cases pc with
      | idle => exact hkeep rfl rfl rfl rfl rfl trivial fun _ => rfl
      | _ => exact .inr rfl
  | delete =>
    cases t with
    | reader last pc =>
      cases pc with
      | idle => exact hkeep rfl rfl rfl rfl rfl trivial fun _ => rfl
      | _ => exact .inr rfl
    | writer pc =>
      cases pc with
      | idle =>
        obtain ⟨o, ho, hsound⟩ := h.exists_of_refs ht Nat.one_pos
        have hsome := hsound.isSome_of_owner ht Nat.one_pos
        have hcopy : o.copy ≠ none := Option.isSome_iff_ne_none.1 hsome
        unfold Thread.act
        dsimp only
        rw [getObject_eq ho]
        simp only [bind, Except.bind, if_neg hcopy]
        exact hkeep rfl rfl rfl rfl rfl trivial fun _ => rfl
      | _ => exact .inr rfl

end Inv

end Mtask.Stm
