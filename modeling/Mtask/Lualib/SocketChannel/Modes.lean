import Mtask.Lualib.SocketChannel.Waits

/-!
# Those that wait, in the two modes

In order mode the entries of those that wait are in the order of the replies to come. In session
mode they have different sessions, and what has come for an entry since its wait began is parts of
its reply.
-/

namespace Mtask.Lualib.SocketChannel

open Function (update update_of_ne update_self)
open List

variable {κ σ δ ε : Type*} {s t : Channel κ σ δ ε} {n : ℕ}

/-- In order mode the coroutines that wait are those of the replies to come, and no reply has come
in parts. In session mode those of `held` have different sessions, and only parts of their replies
have come. -/
structure Holds [DecidableEq σ] (held : List (Entry κ σ)) (s : Channel κ σ δ ε) : Prop
    extends Waits held s where
  numbers : s.bySession = false → held.map Entry.number = List.range' s.stream.length held.length
  plain : s.bySession = false → ∀ e ∈ held, s.resultData e.co = none
  whole : s.bySession = false → ∀ r ∈ s.stream, r.isPart = false
  count : s.bySession = false → s.sock ≠ none → s.stream.length + held.length = s.waits.length
  sessions : s.bySession = true → (held.map Entry.response).Nodup
  parts : s.bySession = true → ∀ e ∈ held, ∀ start,
    s.waits[e.number]? = some (e.co, e.response, start) →
      (∀ p ∈ (s.stream.drop start).filter (·.session = some e.response), p.isPart = true) ∧
        s.resultData e.co = soFar ((s.stream.drop start).filter (·.session = some e.response))
  failing : ∀ co, s.caller co = .failing → s.sock = none

variable {co : κ} {parts : List (Reply σ δ)}

theorem Channel.partsOf_eq [DecidableEq κ] (h : s.resultData co = soFar parts) :
    s.partsOf co = parts.map (·.data) := by
  unfold Channel.partsOf
  rw [h]
  unfold soFar
  by_cases hp : parts = []
  · simp [hp]
  · simp [hp]

/-- The last part of a reply is joined to those that have come. -/
theorem Channel.deliver_data [DecidableEq κ] (h : s.resultData co = soFar parts) (r : Reply σ δ) :
    (s.deliver co r).resultData co = some (joined parts r) := by
  have hnone : s.resultData co = none ↔ parts = [] := by
    rw [h]
    unfold soFar
    by_cases hp : parts = []
    · simp [hp]
    · simp [hp]
  unfold Channel.deliver joined
  simp only [update_self, ne_eq, hnone, Channel.partsOf_eq h]
  split
  · rfl
  · rfl

theorem Channel.deliver_caller [DecidableEq κ] (s : Channel κ σ δ ε) (co : κ) (r : Reply σ δ)
    (co' : κ) :
    (s.deliver co r).caller co' =
      if co' = co then (s.caller co').wake else s.caller co' := by
  by_cases heq : co' = co
  · simp [Channel.deliver, heq]
  · simp [Channel.deliver, heq]

/-- A coroutine that could not write is not the one that is woken. -/
theorem Channel.failing_deliver [DecidableEq κ] (hco : s.caller co = .waiting n) (r : Reply σ δ) :
    (∃ co, s.caller co = .failing) →
      ∃ co', (Channel.deliver { s with stream := s.stream ++ [r] } co r).caller co' = .failing := by
  rintro ⟨co', hco'⟩
  refine ⟨co', ?_⟩
  rw [Channel.deliver_caller, if_neg]
  · exact hco'
  · rintro rfl
    rw [hco] at hco'
    cases hco'

namespace Holds

variable [DecidableEq σ] {held left entries : List (Entry κ σ)} {e : Entry κ σ} {r : Reply σ δ}

theorem new (bySession auth : Bool) :
    Holds [] (Channel.new bySession auth : Channel κ σ δ ε) where
  toWaits := .new bySession auth
  numbers _ := rfl
  plain _ _ h := absurd h not_mem_nil
  whole _ _ h := absurd h not_mem_nil
  count _ h := absurd rfl h
  sessions _ := nodup_nil
  parts _ _ h := absurd h not_mem_nil
  failing _ h := nomatch h

theorem closed (h : Holds held s) : Holds held { s with sock := none } :=
  { h with
    count := fun _ hs => absurd rfl hs
    failing := fun _ _ => rfl }

theorem filter_read (h : Holds held s) {wait : κ × σ × ℕ} (hw : wait ∈ s.waits) (r : Reply σ δ)
    (response : σ) :
    ((s.stream ++ [r]).drop wait.2.2).filter (·.session = some response) =
      (s.stream.drop wait.2.2).filter (·.session = some response) ++
        if r.session = some response then [r] else [] := by
  rw [drop_append_of_le_length (h.start_le wait hw), filter_append]
  congr 1
  simp [filter_singleton]

/-- A reply that is not for anybody who waits is read in session mode. -/
theorem read_other (h : Holds held s) (hby : s.bySession = true)
    (hr : ∀ e ∈ held, r.session ≠ some e.response) :
    Holds held { s with stream := s.stream ++ [r] } :=
  { h with
    toWaits := h.toWaits.read r
    numbers := fun hn => absurd (hby.symm.trans hn) Bool.noConfusion
    whole := fun hn => absurd (hby.symm.trans hn) Bool.noConfusion
    count := fun hn => absurd (hby.symm.trans hn) Bool.noConfusion
    parts := fun _ e he start hw => by
      have := h.filter_read (mem_of_getElem? hw) r e.response
      rw [if_neg (hr e he), append_nil] at this
      simp only [this]
      exact h.parts hby e he start hw }

theorem eq_of_response (h : Holds held s) (hby : s.bySession = true) {e' : Entry κ σ}
    (he : e ∈ held) (he' : e' ∈ held) (hr : e.response = e'.response) : e = e' :=
  inj_on_of_nodup_map (h.sessions hby) he he' hr

variable [DecidableEq κ]

/-- The last ones of those that wait are woken, with an error. -/
theorem wakeupAll (h : Holds (left ++ entries) s) (hs : s.sock = none) (message : Option ε) :
    Holds left (s.wakeupAll entries message) := by
  have hnodup := h.nodup
  rw [map_append] at hnodup
  have hdisjoint := disjoint_of_nodup_append hnodup
  have hleft : ∀ e ∈ left, ¬ (entries.any fun e' : Entry κ σ => e'.co = e.co) = true := by
    intro e he hany
    obtain ⟨e', he', hco⟩ := any_eq_true.1 hany
    have heq := h.eq_of_co (mem_append_right _ he') (mem_append_left _ he)
      (of_decide_eq_true hco)
    exact hdisjoint (mem_map_of_mem he) (mem_map_of_mem (heq ▸ he'))
  have hkeep : ∀ co, ¬ (entries.any fun e : Entry κ σ => e.co = co) = true →
      (s.wakeupAll entries message).result co = s.result co ∧
        (s.wakeupAll entries message).resultData co = s.resultData co :=
    fun co hco => ⟨if_neg hco, if_neg hco⟩
  have hw : Waits left (s.wakeupAll entries message) := by
    refine h.toWaits.wake (p := fun co => (entries.any fun e : Entry κ σ => e.co = co) = true)
      (sublist_append_left _ _) (fun e he => ⟨hleft e, fun hnot => ?_⟩) (fun co hco => ?_)
      rfl rfl rfl rfl (fun _ => rfl) (fun e _ he => .inl (if_pos he)) hkeep
    · refine (mem_append.1 he).resolve_right fun hmem => hnot ?_
      exact any_eq_true.2 ⟨e, hmem, decide_eq_true rfl⟩
    · obtain ⟨e, he, hco⟩ := any_eq_true.1 hco
      exact ⟨e, mem_append_right _ he, of_decide_eq_true hco⟩
  refine
    { hw with
      numbers := fun hby => ?_, plain := fun hby e he => ?_, whole := h.whole
      count := fun _ hne => absurd hs hne, sessions := fun hby => ?_
      parts := fun hby e he start hwait => ?_, failing := fun _ _ => hs }
  · have hn := h.numbers hby
    rw [map_append, length_append, ← range'_append_1] at hn
    exact (append_inj hn (by simp)).1
  · rw [(hkeep e.co (hleft e he)).2]
    exact h.plain hby e (mem_append_left _ he)
  · exact (h.sessions hby).sublist ((sublist_append_left _ _).map _)
  · rw [(hkeep e.co (hleft e he)).2]
    exact h.parts hby e (mem_append_left _ he) start hwait

/-- In order mode the first one of those that wait is woken, with the reply that is read. -/
theorem read_order (h : Holds (e :: held) s) (hby : s.bySession = false)
    (hpart : r.isPart = false) :
    Holds held (Channel.deliver { s with stream := s.stream ++ [r] } e.co r) := by
  have hn := h.numbers hby
  rw [map_cons, length_cons, range'_succ, List.cons.injEq] at hn
  have hne : ∀ e' ∈ held, e'.co ≠ e.co := fun e' he' hco => by
    have heq := h.eq_of_co (mem_cons_of_mem _ he') mem_cons_self hco
    have hnodup := h.nodup
    rw [map_cons, nodup_cons] at hnodup
    exact hnodup.1 (mem_map.2 ⟨e', he', congrArg _ heq⟩)
  have hw : Waits held (Channel.deliver { s with stream := s.stream ++ [r] } e.co r) := by
    refine (h.toWaits.read r).wake (p := (· = e.co)) (sublist_cons_self _ _)
      (fun e' he' => ⟨hne e', fun hnot => ?_⟩) (fun co hco => ⟨e, mem_cons_self, hco.symm⟩)
      rfl rfl rfl rfl (fun co => ?_) (fun e' he' hco => ?_) (fun co hco => ?_)
    · exact (mem_cons.1 he').resolve_left fun heq => hnot (congrArg _ heq)
    · exact Channel.deliver_caller _ _ _ _
    · obtain rfl := h.eq_of_co he' mem_cons_self hco
      obtain ⟨start, hwait⟩ := h.wait e' he'
      have hplain : s.resultData e'.co = soFar ([] : List (Reply σ δ)) := h.plain hby e' he'
      have hbefore : s.stream.filter (·.isPart = false) = s.stream :=
        filter_eq_self.2 fun p hp => decide_eq_true (h.whole hby p hp)
      refine .inr ⟨e'.co, e'.response, start, [], r, hwait, by simp, hpart,
        update_self _ _ _, Channel.deliver_data hplain r, ?_⟩
      rw [if_neg (by simp [Channel.deliver, hby])]
      refine ⟨s.stream, [], by simp [Channel.deliver], ?_, fun p hp => ?_⟩
      · rw [hbefore, hn.1]
      · exact h.whole hby p (mem_of_getLast? hp)
    · exact ⟨update_of_ne hco _ _, update_of_ne hco _ _⟩
  have hlen : (Channel.deliver { s with stream := s.stream ++ [r] } e.co r).stream.length =
      s.stream.length + 1 := by
    simp [Channel.deliver]
  have htrue : ∀ {p : Prop}, s.bySession = true → p := fun hs =>
    absurd (hby.symm.trans hs) Bool.noConfusion
  refine
    { hw with
      numbers := fun _ => by rw [hlen]; exact hn.2
      plain := fun _ e' he' => ?_
      whole := fun _ p hp => ?_
      count := fun _ hs => ?_
      sessions := fun hs => htrue hs
      parts := fun hs => htrue hs
      failing := fun co hco => ?_ }
  · exact (update_of_ne (hne e' he') _ _).trans
      (h.plain hby e' (mem_cons_of_mem _ he'))
  · rcases mem_append.1 hp with hp | hp
    · exact h.whole hby p hp
    · rw [mem_singleton.1 hp]
      exact hpart
  · have := h.count hby hs
    rw [length_cons] at this
    rw [hlen]
    exact (by omega : s.stream.length + 1 + held.length = s.waits.length)
  · by_cases heq : co = e.co
    · simp [Channel.deliver, heq, h.caller e mem_cons_self, Caller.wake] at hco
    · exact h.failing co (by simpa [Channel.deliver, heq] using hco)

section

variable (h : Holds held s) (hby : s.bySession = true) (he : e ∈ held)
  (hr : r.session = some e.response)
include h hby he hr

/-- In session mode a part of a reply is read. -/
theorem read_part (hpart : r.isPart = true) :
    Holds held (Channel.addPart { s with stream := s.stream ++ [r] } e.co r.data) := by
  have htrue : ∀ {p : Prop}, s.bySession = false → p := fun hs =>
    absurd (hby.symm.trans hs) Bool.noConfusion
  refine
    { (h.toWaits.read r).addPart he r.data with
      numbers := fun hs => htrue hs
      plain := fun hs => htrue hs
      whole := fun hs => htrue hs
      count := fun hs => htrue hs
      sessions := fun _ => h.sessions hby
      parts := fun _ e' he' start hw => ?_
      failing := h.failing }
  have hf := h.filter_read (mem_of_getElem? hw) r e'.response
  obtain ⟨hall, hdata⟩ := h.parts hby e' he' start hw
  by_cases heq : e' = e
  · subst heq
    rw [if_pos hr] at hf
    simp only [Channel.addPart, hf, update_self]
    refine ⟨fun p hp => ?_, ?_⟩
    · rcases mem_append.1 hp with hp | hp
      · exact hall p hp
      · rw [mem_singleton.1 hp]
        exact hpart
    · have hparts : Channel.partsOf { s with stream := s.stream ++ [r] } e'.co = s.partsOf e'.co :=
        rfl
      rw [hparts, Channel.partsOf_eq hdata]
      simp [soFar]
  · have hco : e'.co ≠ e.co := fun hco => heq (h.eq_of_co he' he hco)
    have hne : r.session ≠ some e'.response := fun hs =>
      heq (h.eq_of_response hby he' he (Option.some.inj (hs.symm.trans hr)))
    rw [if_neg hne, append_nil] at hf
    simp only [Channel.addPart, hf, update_of_ne hco]
    exact ⟨hall, hdata⟩

/-- In session mode the last part of a reply is read, and the coroutine that waits for it woken. -/
theorem read_last (hpart : r.isPart = false) :
    Holds (held.filter (·.response ≠ e.response))
      (Channel.deliver { s with stream := s.stream ++ [r] } e.co r) := by
  have htrue : ∀ {p : Prop}, s.bySession = false → p := fun hs =>
    absurd (hby.symm.trans hs) Bool.noConfusion
  have hother : ∀ e' ∈ held, e'.response ≠ e.response ↔ e'.co ≠ e.co := fun e' he' =>
    ⟨fun hne hco => hne (congrArg _ (h.eq_of_co he' he hco)),
      fun hne hre => hne (congrArg _ (h.eq_of_response hby he' he hre))⟩
  have hw : Waits (held.filter (·.response ≠ e.response))
      (Channel.deliver { s with stream := s.stream ++ [r] } e.co r) := by
    refine (h.toWaits.read r).wake (p := (· = e.co)) filter_sublist
      (fun e' he' => ?_) (fun co hco => ⟨e, he, hco.symm⟩)
      rfl rfl rfl rfl (fun co => ?_) (fun e' he' hco => ?_) (fun co hco => ?_)
    · rw [mem_filter, decide_eq_true_iff]
      exact ⟨fun hmem => (hother e' he').1 hmem.2, fun hne => ⟨he', (hother e' he').2 hne⟩⟩
    · exact Channel.deliver_caller _ _ _ _
    · obtain rfl := h.eq_of_co he' he hco
      obtain ⟨start, hwait⟩ := h.wait e' he'
      obtain ⟨hall, hdata⟩ := h.parts hby e' he' start hwait
      have hf := h.filter_read (mem_of_getElem? hwait) r e'.response
      rw [if_pos hr] at hf
      refine .inr ⟨e'.co, e'.response, start, _, r, hwait, hall, hpart, update_self _ _ _,
        Channel.deliver_data hdata r, ?_⟩
      rw [if_pos (by exact hby)]
      refine ⟨_, Nat.le_refl _, ?_⟩
      rw [take_length]
      exact hf
    · exact ⟨update_of_ne hco _ _, update_of_ne hco _ _⟩
  refine
    { hw with
      numbers := fun hs => htrue hs
      plain := fun hs => htrue hs
      whole := fun hs => htrue hs
      count := fun hs => htrue hs
      sessions := fun _ => (h.sessions hby).sublist (filter_sublist.map _)
      parts := fun _ e' he' start hwait => ?_
      failing := fun co hco => ?_ }
  · rw [mem_filter, decide_eq_true_iff] at he'
    have hco := (hother e' he'.1).1 he'.2
    have hne : r.session ≠ some e'.response := fun hs =>
      he'.2 (Option.some.inj (hs.symm.trans hr))
    have hf := h.filter_read (mem_of_getElem? hwait) r e'.response
    rw [if_neg hne, append_nil] at hf
    simp only [Channel.deliver, hf, update_of_ne hco]
    exact h.parts hby e' he'.1 start hwait
  · by_cases heq : co = e.co
    · simp [Channel.deliver, heq, h.caller e he, Caller.wake] at hco
    · exact h.failing co (by simpa [Channel.deliver, heq] using hco)

end

theorem push (h : Holds held s) (hco : s.caller co = .outside) (hs : s.sock ≠ none) {response : σ}
    (hnew : s.bySession = true → ∀ e ∈ held, e.response ≠ response) (c : ℕ) :
    Holds (held ++ [⟨s.waits.length, co, response, c⟩]) (s.push co response c) := by
  have hclear : s.resultData co = none := h.clear co (by rw [hco]; rfl)
  refine
    { h.toWaits.push hco response c with
      numbers := fun hby => ?_, plain := fun hby e he => ?_, whole := h.whole
      count := fun hby _ => ?_, sessions := fun hby => ?_, parts := fun hby e he start hw => ?_
      failing := fun co' hco' => ?_ }
  · have hn := h.numbers hby
    have hc := h.count hby hs
    rw [map_append, length_append, length_singleton, range'_1_concat, hn,
      show (s.push co response c).stream = s.stream from rfl, hc]
    rfl
  · rcases mem_append.1 he with he | he
    · exact h.plain hby e he
    · rw [mem_singleton.1 he]
      exact hclear
  · have hc := h.count hby hs
    simp only [Channel.push, length_append, length_singleton]
    omega
  · rw [map_append]
    refine (h.sessions hby).append (nodup_singleton _) fun response' hmem hmem' => ?_
    obtain ⟨e, he, rfl⟩ := mem_map.1 hmem
    exact hnew hby e he (mem_singleton.1 hmem')
  · rcases mem_append.1 he with he | he
    · exact h.parts hby e he start ((getElem?_append_left (h.number_lt he)).symm.trans hw)
    · rw [mem_singleton.1 he] at hw ⊢
      have hlast : start = s.stream.length := by
        have := hw.symm.trans getElem?_concat_length
        cases this
        rfl
      subst hlast
      have hnil : (s.push co response c).stream.drop s.stream.length = [] := drop_length
      rw [hnil]
      exact ⟨fun p hp => absurd hp not_mem_nil, hclear⟩
  · by_cases hne : co' = co
    · simp [Channel.push, hne] at hco'
    · exact h.failing co' (by simpa [Channel.push, hne] using hco')

/-- A coroutine that does not wait comes to another place where it does not. -/
theorem elsewhere (h : Holds held s) (co : κ) (caller : Caller)
    (hco : (s.caller co).number? = none) (hc : caller.number? = none)
    (hs : caller = .failing → s.sock = none) :
    Holds held { s with caller := update s.caller co caller } :=
  { h with
    toWaits := h.toWaits.elsewhere hco hc
    failing := fun co' hco' => by
      by_cases hne : co' = co
      · subst hne
        exact hs (by simpa using hco')
      · exact h.failing co' (by simpa [hne] using hco') }

theorem returned (h : Holds held s) (hco : s.caller co = .woken n) :
    Holds held (s.returned co n) := by
  have hdata : ∀ e ∈ held, (s.returned co n).resultData e.co = s.resultData e.co := fun e he => by
    have hne : e.co ≠ co := fun heq => by
      have hw := h.caller e he
      rw [heq, hco] at hw
      cases hw
    exact update_of_ne hne _ _
  refine
    { h with
      toWaits := h.toWaits.returned hco
      plain := fun hby e he => (hdata e he).trans (h.plain hby e he)
      parts := fun hby e he start hw => ?_
      failing := fun co' hco' => ?_ }
  · rw [hdata e he]
    exact h.parts hby e he start hw
  · by_cases hne : co' = co
    · simp [Channel.returned, hne] at hco'
    · exact h.failing co' (by simpa [Channel.returned, hne] using hco')

end Holds

end Mtask.Lualib.SocketChannel
