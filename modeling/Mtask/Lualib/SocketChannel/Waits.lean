import Mathlib.Data.List.Nodup
import Mtask.Lualib.SocketChannel.Channel

/-!
# Those that wait for a reply

A coroutine that waits for a reply is in one place: it has an entry, in `__thread` or with the
dispatcher, or it has been woken and has its answer, or its wait is over.
-/

namespace Mtask.Lualib.SocketChannel

open List
open Function (update update_of_ne update_self)

variable {κ σ δ ε : Type*} {s t : Channel κ σ δ ε} {n : ℕ}

/-- The wait that the coroutine is in. -/
def Caller.number? : Caller → Option ℕ
  | waiting number | woken number => some number
  | outside | failing => none

/-- What a coroutine gets for a reply whose other parts came before. -/
def joined (parts : List (Reply σ δ)) (r : Reply σ δ) : Data δ ε :=
  if r.ok = true ∧ parts ≠ [] then .parts (parts.map (·.data) ++ [r.data]) else .single r.data

/-- The entry of `__result_data` while parts of a reply have come. -/
def soFar (parts : List (Reply σ δ)) : Option (Data δ ε) :=
  if parts = [] then none else some (.parts (parts.map (·.data)))

/-- What a wait has returned: an error; or in order mode the reply of the same number, with its
parts; in session mode the reply that carries the session of the wait, the first after it began,
with its parts. -/
def Channel.Answers [DecidableEq σ] (s : Channel κ σ δ ε) (n : ℕ) (result : Option Result)
    (data : Option (Data δ ε)) : Prop :=
  result = some .socketError ∨
    ∃ co response start parts r, s.waits[n]? = some (co, response, start) ∧
      (∀ p ∈ parts, p.isPart = true) ∧ r.isPart = false ∧ result = some (.value r.ok) ∧
      data = some (joined parts r) ∧
      if s.bySession then
        ∃ stop ≤ s.stream.length,
          ((s.stream.take stop).drop start).filter (·.session = some response) = parts ++ [r]
      else
        ∃ before later, s.stream = before ++ parts ++ r :: later ∧
          (before.filter (·.isPart = false)).length = n ∧ ∀ p ∈ before.getLast?, p.isPart = false

/-- The entries of `held` are the coroutines that wait; a coroutine that was woken has its answer,
and so have the waits that are over. -/
structure Waits [DecidableEq σ] (held : List (Entry κ σ)) (s : Channel κ σ δ ε) : Prop where
  caller : ∀ e ∈ held, s.caller e.co = .waiting e.number
  wait : ∀ e ∈ held, ∃ start, s.waits[e.number]? = some (e.co, e.response, start)
  waiting : ∀ co n, s.caller co = .waiting n → ∃ e ∈ held, e.co = co ∧ e.number = n
  nodup : (held.map Entry.number).Nodup
  clear : ∀ co, (s.caller co).number? = none → s.resultData co = none
  woken : ∀ co n, s.caller co = .woken n → s.Answers n (s.result co) (s.resultData co)
  lt : ∀ co n, (s.caller co).number? = some n → n < s.waits.length ∧ n ∉ s.got.map (·.1)
  inj : ∀ co co' n, (s.caller co).number? = some n → (s.caller co').number? = some n → co = co'
  start_le : ∀ wait ∈ s.waits, wait.2.2 ≤ s.stream.length
  got_lt : ∀ answer ∈ s.got, answer.1 < s.waits.length
  own : ∀ answer ∈ s.got, s.Answers answer.1 answer.2.1 answer.2.2
  once : (s.got.map (·.1)).Nodup
  all : ∀ n < s.waits.length, n ∈ s.got.map (·.1) ∨ ∃ co, (s.caller co).number? = some n

@[simp]
theorem Caller.number?_wake (caller : Caller) : caller.wake.number? = caller.number? := by
  cases caller <;> rfl

theorem Caller.wake_ne_waiting (caller : Caller) : caller.wake ≠ .waiting n := by
  cases caller <;> simp [Caller.wake]

/-- Replies and waits that come later leave an answer as it is. -/
theorem Channel.Answers.mono [DecidableEq σ] {result : Option Result} {data : Option (Data δ ε)}
    (h : s.Answers n result data) (hm : t.bySession = s.bySession) (hw : s.waits <+: t.waits)
    (hs : s.stream <+: t.stream) : t.Answers n result data := by
  rcases h with h | ⟨co, response, start, parts, r, hwait, hp, hlast, hr, hd, hmode⟩
  · exact .inl h
  · refine .inr ⟨co, response, start, parts, r, ?_, hp, hlast, hr, hd, ?_⟩
    · obtain ⟨later, hlater⟩ := hw
      have hlt := (List.getElem?_eq_some_iff.1 hwait).1
      rw [← hlater, getElem?_append_left hlt]
      exact hwait
    · obtain ⟨later, hlater⟩ := hs
      rw [hm, ← hlater]
      split at hmode
      next hby =>
        obtain ⟨stop, hle, hf⟩ := hmode
        rw [if_pos hby]
        refine ⟨stop, ?_, ?_⟩
        · rw [length_append]
          omega
        · rw [take_append_of_le_length hle]
          exact hf
      next hby =>
        obtain ⟨before, after, hsplit, hbefore⟩ := hmode
        rw [if_neg hby]
        refine ⟨before, after ++ later, ?_, hbefore⟩
        rw [hsplit, append_assoc, cons_append]

namespace Waits

variable [DecidableEq σ] {held : List (Entry κ σ)}

theorem new (bySession auth : Bool) :
    Waits [] (Channel.new bySession auth : Channel κ σ δ ε) where
  caller _ h := absurd h not_mem_nil
  wait _ h := absurd h not_mem_nil
  waiting _ _ h := nomatch h
  nodup := nodup_nil
  clear _ _ := rfl
  woken _ _ h := nomatch h
  lt _ _ h := nomatch h
  inj _ _ _ h := nomatch h
  start_le _ h := absurd h not_mem_nil
  got_lt _ h := absurd h not_mem_nil
  own _ h := absurd h not_mem_nil
  once := nodup_nil
  all _ h := absurd h (Nat.not_lt_zero _)

theorem read (h : Waits held s) (r : Reply σ δ) :
    Waits held { s with stream := s.stream ++ [r] } := by
  have hmono : ∀ n result data, s.Answers n result data →
      Channel.Answers { s with stream := s.stream ++ [r] } n result data := fun n result data ha =>
    ha.mono rfl prefix_rfl (prefix_append _ _)
  refine { h with woken := ?_, start_le := ?_, own := ?_ }
  · exact fun co n hco => hmono _ _ _ (h.woken co n hco)
  · intro wait hw
    have := h.start_le wait hw
    simp only [length_append]
    omega
  · exact fun answer ha => hmono _ _ _ (h.own answer ha)

theorem eq_of_co (h : Waits held s) {e e' : Entry κ σ} (he : e ∈ held) (he' : e' ∈ held)
    (hco : e.co = e'.co) : e = e' := by
  have h1 := h.caller e he
  have h2 := h.caller e' he'
  rw [hco, h2] at h1
  exact inj_on_of_nodup_map h.nodup he he' (Caller.waiting.inj h1).symm

theorem number_lt (h : Waits held s) {e : Entry κ σ} (he : e ∈ held) :
    e.number < s.waits.length := by
  obtain ⟨start, hw⟩ := h.wait e he
  exact (List.getElem?_eq_some_iff.1 hw).1

/-- Some of those that wait are woken, and each of them has its answer. -/
theorem wake (h : Waits held s) {left : List (Entry κ σ)} {p : κ → Prop} [DecidablePred p]
    (hsub : left.Sublist held) (hleft : ∀ e ∈ held, e ∈ left ↔ ¬ p e.co)
    (hp : ∀ co, p co → ∃ e ∈ held, e.co = co)
    (hby : t.bySession = s.bySession) (hwaits : t.waits = s.waits) (hstream : t.stream = s.stream)
    (hgot : t.got = s.got)
    (hcaller : ∀ co, t.caller co = if p co then (s.caller co).wake else s.caller co)
    (hanswer : ∀ e ∈ held, p e.co → t.Answers e.number (t.result e.co) (t.resultData e.co))
    (hkeep : ∀ co, ¬ p co → t.result co = s.result co ∧ t.resultData co = s.resultData co) :
    Waits left t := by
  have hmono : ∀ n result data, s.Answers n result data → t.Answers n result data :=
    fun n result data ha => ha.mono hby (hwaits ▸ prefix_rfl) (hstream ▸ prefix_rfl)
  have hnumber : ∀ co, (t.caller co).number? = (s.caller co).number? := fun co => by
    rw [hcaller]
    split
    · exact Caller.number?_wake _
    · rfl
  have hwaiting : ∀ co, p co → ∃ e ∈ held, e.co = co ∧ s.caller co = .waiting e.number :=
    fun co hco => by
      obtain ⟨e, he, rfl⟩ := hp co hco
      exact ⟨e, he, rfl, h.caller e he⟩
  refine
    { caller := ?_, wait := ?_, waiting := ?_, nodup := ?_, clear := ?_, woken := ?_, lt := ?_
      inj := ?_, start_le := ?_, got_lt := ?_, own := ?_, once := ?_, all := ?_ }
  · intro e he
    have hmem := hsub.subset he
    rw [hcaller, if_neg ((hleft e hmem).1 he)]
    exact h.caller e hmem
  · intro e he
    rw [hwaits]
    exact h.wait e (hsub.subset he)
  · intro co n hco
    rw [hcaller] at hco
    split at hco
    next => exact absurd hco (Caller.wake_ne_waiting _)
    next hnot =>
      obtain ⟨e, he, rfl, hn⟩ := h.waiting co n hco
      exact ⟨e, (hleft e he).2 hnot, rfl, hn⟩
  · exact h.nodup.sublist (hsub.map _)
  · intro co hco
    rw [hnumber] at hco
    by_cases hpco : p co
    · obtain ⟨e, -, -, hw⟩ := hwaiting co hpco
      rw [hw] at hco
      cases hco
    · rw [(hkeep co hpco).2]
      exact h.clear co hco
  · intro co n hco
    by_cases hpco : p co
    · obtain ⟨e, he, rfl, hw⟩ := hwaiting co hpco
      rw [hcaller, if_pos hpco, hw] at hco
      cases hco
      exact hanswer e he hpco
    · rw [hcaller, if_neg hpco] at hco
      rw [(hkeep co hpco).1, (hkeep co hpco).2]
      exact hmono _ _ _ (h.woken co n hco)
  · intro co n hco
    rw [hwaits, hgot]
    exact h.lt co n (hnumber co ▸ hco)
  · intro co co' n hco hco'
    exact h.inj co co' n (hnumber co ▸ hco) (hnumber co' ▸ hco')
  · rw [hwaits, hstream]
    exact h.start_le
  · rw [hgot, hwaits]
    exact h.got_lt
  · rw [hgot]
    exact fun answer ha => hmono _ _ _ (h.own answer ha)
  · rw [hgot]
    exact h.once
  · intro n hn
    rw [hwaits] at hn
    rw [hgot]
    rcases h.all n hn with hg | ⟨co, hco⟩
    · exact .inl hg
    · exact .inr ⟨co, hnumber co ▸ hco⟩

variable [DecidableEq κ] {co : κ}

/-- A coroutine that waits gets a part of its reply. -/
theorem addPart (h : Waits held s) {e : Entry κ σ} (he : e ∈ held) (data : δ) :
    Waits held (s.addPart e.co data) := by
  have hw := h.caller e he
  refine { h with clear := fun co hco => ?_, woken := fun co n hco => ?_ }
  · have hne : co ≠ e.co := fun heq => by
      rw [show (s.addPart e.co data).caller co = s.caller co from rfl, heq, hw] at hco
      cases hco
    simpa [Channel.addPart, hne] using h.clear co hco
  · have hne : co ≠ e.co := fun heq => by
      rw [show (s.addPart e.co data).caller co = s.caller co from rfl, heq, hw] at hco
      cases hco
    have hdata : (s.addPart e.co data).resultData co = s.resultData co :=
      update_of_ne hne _ _
    rw [hdata]
    exact (h.woken co n hco).mono rfl prefix_rfl prefix_rfl

/-- A coroutine that does not wait comes to another place where it does not. -/
theorem elsewhere (h : Waits held s) {caller : Caller} (hco : (s.caller co).number? = none)
    (hc : caller.number? = none) :
    Waits held { s with caller := update s.caller co caller } := by
  have hnumber : ∀ co', (update s.caller co caller co').number? = (s.caller co').number? :=
    fun co' => by
      by_cases hne : co' = co
      · simp [hne, hco, hc]
      · simp [hne]
  have hother : ∀ co' n, (s.caller co').number? = some n →
      update s.caller co caller co' = s.caller co' := fun co' n hn =>
    update_of_ne (fun heq => by rw [heq, hco] at hn; cases hn) _ _
  refine
    { h with
      caller := fun e he => ?_, waiting := fun co' n hw => ?_, clear := fun co' hw => ?_
      woken := fun co' n hw => ?_, lt := fun co' n hw => ?_, inj := fun co' co'' n hw hw' => ?_
      all := fun n hn => ?_ }
  · have hw := h.caller e he
    exact (hother e.co e.number (by rw [hw]; rfl)).trans hw
  · have hn : (s.caller co').number? = some n := by
      rw [← hnumber]
      exact congrArg Caller.number? hw
    exact h.waiting co' n ((hother co' n hn).symm.trans hw)
  · exact h.clear co' (hnumber co' ▸ hw)
  · have hn : (s.caller co').number? = some n := by
      rw [← hnumber]
      exact congrArg Caller.number? hw
    exact h.woken co' n ((hother co' n hn).symm.trans hw)
  · exact h.lt co' n (hnumber co' ▸ hw)
  · exact h.inj co' co'' n (hnumber co' ▸ hw) (hnumber co'' ▸ hw')
  · rcases h.all n hn with hg | ⟨co', hco'⟩
    · exact .inl hg
    · exact .inr ⟨co', (hnumber co').trans hco'⟩

/-- A coroutine that was woken goes on, with its answer. -/
theorem returned (h : Waits held s) (hco : s.caller co = .woken n) :
    Waits held (s.returned co n) := by
  have hnum : (s.caller co).number? = some n := by rw [hco]; rfl
  have hother : ∀ co' m, ((s.returned co n).caller co').number? = some m →
      co' ≠ co ∧ (s.caller co').number? = some m := fun co' m hm => by
    by_cases hne : co' = co
    · simp [Channel.returned, hne, Caller.number?] at hm
    · exact ⟨hne, by simpa [Channel.returned, hne] using hm⟩
  have hmono : ∀ m result data, s.Answers m result data →
      (s.returned co n).Answers m result data := fun m result data ha =>
    ha.mono rfl prefix_rfl prefix_rfl
  refine
    { h with
      caller := fun e he => ?_, waiting := fun co' m hw => ?_, clear := fun co' hw => ?_
      woken := fun co' m hw => ?_, lt := fun co' m hw => ?_, inj := fun co' co'' m hw hw' => ?_
      got_lt := fun answer ha => ?_, own := fun answer ha => ?_, once := ?_
      all := fun m hm => ?_ }
  · have hw := h.caller e he
    have hne : e.co ≠ co := fun heq => by rw [heq, hco] at hw; cases hw
    simpa [Channel.returned, hne] using hw
  · obtain ⟨hne, -⟩ := hother co' m (by rw [hw]; rfl)
    exact h.waiting co' m (by simpa [Channel.returned, hne] using hw)
  · by_cases hne : co' = co
    · simp [Channel.returned, hne]
    · simpa [Channel.returned, hne] using h.clear co' (by simpa [Channel.returned, hne] using hw)
  · obtain ⟨hne, -⟩ := hother co' m (by rw [hw]; rfl)
    have hresult : (s.returned co n).result co' = s.result co' := update_of_ne hne _ _
    have hdata : (s.returned co n).resultData co' = s.resultData co' :=
      update_of_ne hne _ _
    rw [hresult, hdata]
    exact hmono _ _ _ (h.woken co' m (by simpa [Channel.returned, hne] using hw))
  · obtain ⟨hne, hm⟩ := hother co' m hw
    refine ⟨(h.lt co' m hm).1, fun hmem => ?_⟩
    rw [show (s.returned co n).got = s.got ++ [(n, s.result co, s.resultData co)] from rfl,
      map_append, mem_append] at hmem
    rcases hmem with hmem | hmem
    · exact (h.lt co' m hm).2 hmem
    · cases mem_singleton.1 hmem
      exact hne (h.inj co' co n hm hnum)
  · exact h.inj co' co'' m (hother co' m hw).2 (hother co'' m hw').2
  · rcases mem_append.1 ha with ha | ha
    · exact h.got_lt answer ha
    · rw [mem_singleton.1 ha]
      exact (h.lt co n hnum).1
  · rcases mem_append.1 ha with ha | ha
    · exact hmono _ _ _ (h.own answer ha)
    · rw [mem_singleton.1 ha]
      exact hmono _ _ _ (h.woken co n hco)
  · rw [show (s.returned co n).got = s.got ++ [(n, s.result co, s.resultData co)] from rfl,
      map_append]
    refine h.once.append (nodup_singleton _) fun m hm hm' => ?_
    cases mem_singleton.1 hm'
    exact (h.lt co n hnum).2 hm
  · rw [show (s.returned co n).got = s.got ++ [(n, s.result co, s.resultData co)] from rfl,
      map_append, mem_append]
    rcases h.all m hm with hg | ⟨co', hco'⟩
    · exact .inl (.inl hg)
    · by_cases hne : co' = co
      · subst hne
        rw [hnum] at hco'
        cases hco'
        exact .inl (.inr (mem_singleton_self _))
      · exact .inr ⟨co', by simpa [Channel.returned, hne] using hco'⟩

theorem push (h : Waits held s) (hco : s.caller co = .outside) (response : σ) (c : ℕ) :
    Waits (held ++ [⟨s.waits.length, co, response, c⟩]) (s.push co response c) := by
  have hother : ∀ e ∈ held, e.co ≠ co := fun e he heq => by
    have := h.caller e he
    rw [heq, hco] at this
    cases this
  have hmono : ∀ n result data, s.Answers n result data →
      (s.push co response c).Answers n result data := fun n result data ha =>
    ha.mono rfl (prefix_append _ _) prefix_rfl
  have hlen : (s.push co response c).waits.length = s.waits.length + 1 := by
    simp [Channel.push]
  have hnumber : ∀ co' m, ((s.push co response c).caller co').number? = some m →
      co' = co ∧ m = s.waits.length ∨ co' ≠ co ∧ (s.caller co').number? = some m :=
    fun co' m hm => by
      by_cases hne : co' = co
      · simp only [Channel.push, hne, update_self, Caller.number?, Option.some.injEq] at hm
        exact .inl ⟨hne, hm.symm⟩
      · exact .inr ⟨hne, by simpa [Channel.push, hne] using hm⟩
  refine
    { h with
      caller := fun e he => ?_, wait := fun e he => ?_, waiting := fun co' m hw => ?_, nodup := ?_
      clear := fun co' hw => ?_, woken := fun co' m hw => ?_, lt := fun co' m hw => ?_
      inj := fun co' co'' m hw hw' => ?_, start_le := fun wait hw => ?_
      got_lt := fun answer ha => ?_, own := fun answer ha => hmono _ _ _ (h.own answer ha)
      all := fun m hm => ?_ }
  · rcases mem_append.1 he with he | he
    · simpa [Channel.push, hother e he] using h.caller e he
    · rw [mem_singleton.1 he]
      simp [Channel.push]
  · rcases mem_append.1 he with he | he
    · obtain ⟨start, hw⟩ := h.wait e he
      exact ⟨start, (getElem?_append_left (h.number_lt he)).trans hw⟩
    · rw [mem_singleton.1 he]
      exact ⟨s.stream.length, getElem?_concat_length⟩
  · by_cases hne : co' = co
    · simp only [Channel.push, hne, update_self, Caller.waiting.injEq] at hw
      exact ⟨_, mem_append_right _ (mem_singleton_self _), hne.symm, hw⟩
    · obtain ⟨e, he, heq⟩ := h.waiting co' m (by simpa [Channel.push, hne] using hw)
      exact ⟨e, mem_append_left _ he, heq⟩
  · rw [map_append]
    refine h.nodup.append (nodup_singleton _) fun m hm hm' => ?_
    obtain ⟨e, he, rfl⟩ := mem_map.1 hm
    have := h.number_lt he
    rw [map_singleton, mem_singleton] at hm'
    exact absurd hm' (Nat.ne_of_lt this)
  · by_cases hne : co' = co
    · simp [Channel.push, hne, Caller.number?] at hw
    · exact h.clear co' (by simpa [Channel.push, hne] using hw)
  · by_cases hne : co' = co
    · simp [Channel.push, hne] at hw
    · exact hmono _ _ _ (h.woken co' m (by simpa [Channel.push, hne] using hw))
  · rw [hlen]
    rcases hnumber co' m hw with ⟨-, rfl⟩ | ⟨-, hm⟩
    · refine ⟨Nat.lt_succ_self _, fun hmem => ?_⟩
      obtain ⟨answer, ha, heq⟩ := mem_map.1 hmem
      have := h.got_lt answer ha
      omega
    · exact ⟨Nat.lt_succ_of_lt (h.lt co' m hm).1, (h.lt co' m hm).2⟩
  · rcases hnumber co' m hw with ⟨rfl, rfl⟩ | ⟨-, hm⟩ <;>
      rcases hnumber co'' _ hw' with ⟨rfl, hm'⟩ | ⟨-, hm'⟩
    · rfl
    · exact absurd (h.lt co'' _ hm').1 (Nat.lt_irrefl _)
    · exact absurd (h.lt co' _ hm).1 (hm' ▸ Nat.lt_irrefl _)
    · exact h.inj co' co'' m hm hm'
  · rcases mem_append.1 hw with hw | hw
    · exact h.start_le wait hw
    · rw [mem_singleton.1 hw]
      exact Nat.le_refl _
  · rw [hlen]
    exact Nat.lt_succ_of_lt (h.got_lt answer ha)
  · rw [hlen] at hm
    rcases Nat.lt_succ_iff_lt_or_eq.1 hm with hm | rfl
    · rcases h.all m hm with hg | ⟨co', hco'⟩
      · exact .inl hg
      · have hne : co' ≠ co := fun heq => by
          rw [heq, hco] at hco'
          cases hco'
        exact .inr ⟨co', by simpa [Channel.push, hne] using hco'⟩
    · exact .inr ⟨co, by simp [Channel.push, Caller.number?]⟩

end Waits

end Mtask.Lualib.SocketChannel
