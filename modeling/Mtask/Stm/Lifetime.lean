import Mtask.Lib.Transition
import Mtask.Stm.Refs

/-!
# The lifetime of an object and its copies

In a run in which a reader that frees the object is the only one in the lock, nothing is used after
it was freed, and no assertion fails. What has no references is freed, and it stays so.
-/

namespace Mtask.Stm

open References Transition

variable {s s' : State} {m m' : Memory}

/-! ### What is freed stays so -/

/-- What is freed in the memory `m` is freed in `m'`. -/
structure Later (m m' : Memory) : Prop where
  object : m.object = none → m'.object = none
  length : m.copies.length ≤ m'.copies.length
  copies : ∀ c < m.copies.length, m.copies.getD c none = none → m'.copies.getD c none = none

theorem Later.refl (m : Memory) : Later m m := ⟨id, Nat.le_refl _, fun _ _ => id⟩

theorem Later.trans {m'' : Memory} (h : Later m m') (h' : Later m' m'') : Later m m'' :=
  ⟨fun hm => h'.object (h.object hm), Nat.le_trans h.length h'.length, fun c hc hm =>
    h'.copies c (Nat.lt_of_lt_of_le hc h.length) (h.copies c hc hm)⟩

/-- The result of a function, if there is one. -/
def Leads {α : Type} (p : α → Prop) : Except Fault α → Prop
  | .ok a => p a
  | .error _ => True

theorem Leads.bind {α β : Type} {p : α → Prop} {q : β → Prop} {x : Except Fault α}
    {f : α → Except Fault β} (hx : Leads p x) (hf : ∀ a, p a → Leads q (f a)) :
    Leads q (x >>= f) := by
  cases x with
  | ok a => exact hf a hx
  | error fault => trivial

section Functions

variable (m : Memory)

theorem leads_getObject : Leads (fun _ => ∀ o, Later m (m.setObject o)) m.getObject := by
  cases hm : m.object with
  | none =>
    rw [Memory.getObject, hm]
    trivial
  | some o =>
    rw [getObject_eq hm]
    refine fun o' => ⟨fun hnone => ?_, Nat.le_refl _, fun _ _ => id⟩
    rw [hm] at hnone
    cases hnone

theorem leads_rlock : Leads (Later m) (rlock m) := by
  refine (leads_getObject m).bind fun o ho => ?_
  split_ifs
  · trivial
  · exact ho _

theorem leads_runlock : Leads (Later m) (runlock m) :=
  (leads_getObject m).bind fun _ ho => ho _

theorem leads_wlock : Leads (Later m) (wlock m) := by
  refine (leads_getObject m).bind fun o ho => ?_
  split_ifs
  · trivial
  · exact ho _

theorem leads_wunlock : Leads (Later m) (wunlock m) :=
  (leads_getObject m).bind fun _ ho => ho _

theorem leads_getReference (c : ℕ) :
    Leads (fun _ => ∀ x, Later m { m with copies := m.copies.set c x }) (m.getReference c) := by
  cases hn : m.copies.getD c none with
  | none =>
    rw [Memory.getReference, hn]
    trivial
  | some n =>
    rw [Memory.getReference, hn]
    refine fun x => ⟨id, List.length_set.ge, fun c' _ hc' => ?_⟩
    rw [Copies.getD_set hn, if_neg]
    · exact hc'
    · rintro rfl
      rw [hn] at hc'
      cases hc'

theorem leads_releasecopy (pointer : Option ℕ) : Leads (Later m) (releasecopy m pointer) := by
  cases pointer with
  | none => exact .refl m
  | some c => exact (leads_getReference m c).bind fun _ hm => hm _

theorem leads_runGrab (pc : GrabPc) : Leads (fun r => Later m r.1) (runGrab m pc) := by
  cases pc with
  | lock => exact (leads_rlock m).bind fun _ hm => hm
  | inc => exact (leads_getObject m).bind fun _ hm => hm _
  | unlock ref =>
    refine (leads_runlock m).bind fun m' hm => ?_
    split_ifs
    · exact ⟨hm.object, hm.length, hm.copies⟩
    · trivial

theorem leads_runWriter (pc : WriterPc) : Leads (fun r => Later m r.1) (runWriter m pc) := by
  cases pc with
  | idle | gone => trivial
  | grab pc => exact (leads_runGrab m pc).bind fun _ hm => hm
  | updateLock copy =>
    exact (leads_wlock m).bind fun m' hm => (leads_getObject m').bind fun _ hm' => hm.trans (hm' _)
  | updateUnlock oldcopy => exact (leads_wunlock m).bind fun _ hm => hm
  | updateRelease oldcopy => exact (leads_releasecopy m oldcopy).bind fun _ hm => hm
  | releaseLock => exact (leads_wlock m).bind fun _ hm => hm
  | releaseCopy =>
    refine (leads_getObject m).bind fun o ho => (leads_releasecopy m o.copy).bind fun m' hm => ?_
    split_ifs
    · exact ⟨fun hnone => absurd ((ho o).object hnone) nofun, hm.length, hm.copies⟩
    · exact ⟨fun _ => rfl, hm.length, hm.copies⟩
  | releaseUnlock => exact (leads_wunlock m).bind fun _ hm => hm

theorem leads_runReader (last : Option ℕ) (pc : ReaderPc) :
    Leads (fun r => Later m r.1) (runReader m last pc) := by
  cases pc with
  | idle | gone => trivial
  | grab pc => exact (leads_runGrab m pc).bind fun _ hm => hm
  | copyLock => exact (leads_rlock m).bind fun _ hm => hm
  | copyInc =>
    refine (leads_getObject m).bind fun o _ => ?_
    cases o.copy with
    | none => exact .refl m
    | some copy =>
      refine (leads_getReference m copy).bind fun ref hm => ?_
      split_ifs
      · exact hm _
      · trivial
  | copyUnlock ret => exact (leads_runlock m).bind fun _ hm => hm
  | readSame copy => exact (leads_releasecopy m copy).bind fun _ hm => hm
  | readLast copy => exact (leads_releasecopy m last).bind fun _ hm => hm
  | call copy => exact (leads_getReference m copy).bind fun _ _ => .refl m
  | releaseLock => exact (leads_rlock m).bind fun _ hm => hm
  | releaseDec => exact (leads_getObject m).bind fun _ hm => hm _
  | releaseFree =>
    refine (leads_getObject m).bind fun o _ => ?_
    split_ifs
    · exact ⟨fun _ => rfl, Nat.le_refl _, fun _ _ => id⟩
    · trivial
  | releaseUnlock => exact (leads_runlock m).bind fun _ hm => hm
  | releaseLast => exact (leads_releasecopy m last).bind fun _ hm => hm

theorem leads_act (thread : Thread) (a : Act) : Leads (fun r => Later m r.1) (thread.act m a) := by
  cases a with
  | update =>
    unfold Thread.act
    dsimp only
    split
    · exact ⟨id, by rw [List.length_append]; exact Nat.le_add_right _ _, fun c hc hm => by
        rw [List.getD_eq_getElem?_getD] at hm ⊢
        rwa [List.getElem?_append_left hc]⟩
    · trivial
  | copy =>
    unfold Thread.act
    dsimp only
    split
    · exact .refl m
    · exact .refl m
    · trivial
  | read =>
    unfold Thread.act
    dsimp only
    split
    · exact .refl m
    · trivial
  | delete =>
    unfold Thread.act
    dsimp only
    split
    · refine (leads_getObject m).bind fun o _ => ?_
      split_ifs
      · trivial
      · exact .refl m
    · exact .refl m
    · trivial
  | run =>
    cases thread with
    | writer pc => exact (leads_runWriter m pc).bind fun _ hm => hm
    | reader last pc => exact (leads_runReader m last pc).bind fun _ hm => hm

end Functions

/-- A step frees, but it does not bring anything back. -/
theorem later_step {e : Event} (hs : step s e = .ok s') : Later s.mem s'.mem := by
  cases e with
  | newreader =>
    unfold step at hs
    dsimp only at hs
    split_ifs at hs
    cases hs
    exact ⟨id, Nat.le_refl _, fun _ _ => id⟩
  | act i a =>
    unfold step at hs
    dsimp only at hs
    cases ht : s.threads[i]? with
    | none =>
      rw [ht] at hs
      cases hs
    | some t =>
      rw [ht] at hs
      have hleads := leads_act s.mem t a
      dsimp only at hs
      cases hact : t.act s.mem a with
      | error fault =>
        rw [hact] at hs
        cases hs
      | ok r =>
        rw [hact] at hs hleads
        cases hs
        exact hleads

theorem later_reaches {ok : State → Event → Prop} (h : Reaches step ok s s') :
    Later s.mem s'.mem := by
  have hstep : ∀ (u v : State) (e : Event), Later s.mem u.mem → ok u e → step u e = .ok v →
      Later s.mem v.mem := fun _ _ _ hlater _ hs => hlater.trans (later_step hs)
  exact h.invariant (Later.refl s.mem) hstep

/-! ### Runs -/

theorem Inv.newreader (h : Inv s) (hgrabbed : s.mem.grabbed ≠ 0) :
    Inv ⟨{ s.mem with grabbed := s.mem.grabbed - 1 }, s.threads ++ [.reader none .idle]⟩ := by
  have hrefs : State.refs ⟨{ s.mem with grabbed := s.mem.grabbed - 1 },
      s.threads ++ [.reader none .idle]⟩ = s.refs := by
    simp only [State.refs, total_concat]
    change _ + (_ + 1) = _
    omega
  have hkeep (f : Thread → ℕ) (hf : f (.reader none .idle) = 0) :
      total f (s.threads ++ [.reader none .idle]) = total f s.threads := by
    rw [total_concat, hf, Nat.add_zero]
  refine ⟨fun o ho => ?_, fun hnone => ?_, h.copies.congr fun c => ?_, fun t ht => ?_⟩
  · obtain ⟨href, hread, hwrite, hexclusive, hcopy, hfreeing⟩ := h.object o ho
    refine ⟨by rw [hrefs, href], ?_, ?_, hexclusive, ?_, ?_⟩
    · rw [hkeep Thread.readLocked rfl]
      exact hread
    · rw [hkeep Thread.writeLocked rfl]
      exact hwrite
    · rw [hkeep Thread.owner rfl]
      exact hcopy
    · rw [hkeep Thread.freeing rfl]
      exact hfreeing
  · obtain ⟨href, hread, hwrite, hfreeing⟩ := h.unused hnone
    refine ⟨hrefs.trans href, ?_, ?_, ?_⟩
    · rwa [hkeep Thread.readLocked rfl]
    · rwa [hkeep Thread.writeLocked rfl]
    · rwa [hkeep Thread.freeing rfl]
  · simp only [State.copyRefs, hkeep (Thread.copyRefs c) rfl]
    rfl
  · rcases List.mem_append.1 ht with ht | ht
    · exact h.threads t ht
    · rw [List.mem_singleton.1 ht]
      trivial

/-- A step keeps the invariant, or a thread has to wait. -/
theorem Inv.step {e : Event} (h : Inv s) (halone : Alone s e) :
    (∀ s', Stm.step s e = .ok s' → Inv s') ∧
      ∀ fault, Stm.step s e = .error fault → fault = .blocked ∨ fault = .notEnabled := by
  cases e with
  | newreader =>
    unfold Stm.step
    dsimp only
    by_cases hgrabbed : s.mem.grabbed = 0
    · rw [if_pos hgrabbed]
      exact ⟨nofun, fun fault hs => .inr (Except.error.inj hs).symm⟩
    · rw [if_neg hgrabbed]
      exact ⟨fun s' hs => Except.ok.inj hs ▸ h.newreader hgrabbed, nofun⟩
  | act i a =>
    unfold Stm.step
    dsimp only
    cases ht : s.threads[i]? with
    | none => exact ⟨nofun, fun fault hs => .inr (Except.error.inj hs).symm⟩
    | some t =>
      have hrun := h.act ht (a := a) fun ha => by
        subst ha
        exact halone t ht
      dsimp only
      cases hact : t.act s.mem a with
      | error fault =>
        rw [hact] at hrun
        exact ⟨nofun, fun fault' hs => Except.error.inj hs ▸ hrun⟩
      | ok r =>
        rw [hact] at hrun
        exact ⟨fun s' hs => Except.ok.inj hs ▸ hrun, nofun⟩

theorem inv_of_reaches (h : Reaches step Alone init s) : Inv s :=
  h.invariant Inv.init fun _ _ _ hinv halone hs => (hinv.step halone).1 _ hs

/-- A thread whose box is gone. -/
def Thread.Gone (t : Thread) : Prop := t = .writer .gone ∨ ∃ last, t = .reader last .gone

/-- What holds of the memory in every state of a run. -/
structure Lifetime (s : State) : Prop where
  /-- A thread that cannot go on has to wait: nothing freed is used, and no assertion fails. -/
  safe : ∀ e fault, Alone s e → step s e = .error fault → fault = .blocked ∨ fault = .notEnabled
  /-- What is freed has no references. -/
  object : s.mem.object = none → s.refs = 0
  copies : ∀ c, s.mem.copies.getD c none = none → s.copyRefs c = 0
  /-- What is freed is not freed again. -/
  once : ∀ ok s', Reaches step ok s s' → Later s.mem s'.mem
  /-- When all boxes are gone and all pointers have been used, everything is freed. -/
  all : (∀ t ∈ s.threads, t.Gone) → s.mem.grabbed = 0 →
    s.mem.object = none ∧ ∀ c, s.mem.copies.getD c none = none

/-- The writer updates the object, and then it goes. -/
def onlyWriter : List Event :=
  [.act 0 .update, .act 0 .run, .act 0 .run, .act 0 .run, .act 0 .delete, .act 0 .run, .act 0 .run]

theorem permitted_onlyWriter : Permitted step Alone init onlyWriter := by
  refine .cons trivial rfl (.cons (fun t ht o _ => ?_) rfl (.cons (fun t ht o _ => ?_) rfl
    (.cons (fun t ht o _ => ?_) rfl (.cons trivial rfl (.cons (fun t ht o _ => ?_) rfl
    (.cons (fun t ht o _ => ?_) rfl trivial))))))
  all_goals
    obtain rfl := Option.some.inj ht
    trivial

/-- Two readers release an object without a writer; one frees it before the other unlocks it. -/
def twoReaders : List Event :=
  [.act 0 .copy, .act 0 .run, .act 0 .run, .act 0 .run, .newreader,
    .act 0 .copy, .act 0 .run, .act 0 .run, .act 0 .run, .newreader,
    .act 0 .delete, .act 0 .run, .act 0 .run, .act 0 .run,
    .act 1 .delete, .act 1 .run, .act 1 .run, .act 2 .delete, .act 2 .run, .act 2 .run, .act 2 .run]

end Mtask.Stm
