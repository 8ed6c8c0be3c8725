import Mtask.Sharedata.Versions

/-!
# Runs of the proxies

Versions are delivered and the proxies are used in any order, where removed proxies are only used in
time. What is read is the newest version then.
-/

namespace Mtask.Sharedata.Proxies

open Lua LuaSeri Transition

variable {versions : Versions} {conf : ℕ → Value Rawlen} {c c' : Client} {n x y : ℕ} {p : Proxy}

/-! ### The invariant -/

theorem Below.congr (hc : c'.proxies = c.proxies) (h : Below conf c n x y) :
    Below conf c' n x y := by
  induction h with
  | refl => exact .refl
  | child _ hp hk htable ih => exact ih.child (hc ▸ hp) hk htable

theorem below_congr (hc : c'.proxies = c.proxies) : Below conf c' n x y ↔ Below conf c n x y :=
  ⟨Below.congr hc.symm, Below.congr hc⟩

namespace Inv

theorem init : Inv conf init := by
  have hp {x : ℕ} {p : Proxy} (h : Proxies.init.proxies[x]? = some p) :
      x = 0 ∧ p = ⟨(0, []), 0, none, .string [], none, 0⟩ := by
    obtain ⟨hlt, hget⟩ := List.getElem?_eq_some_iff.1 h
    obtain rfl : x = 0 := Nat.lt_one_iff.1 hlt
    exact ⟨rfl, hget.symm⟩
  refine ⟨⟨fun x p k v h hk => ?_, fun x p h => ?_⟩, ⟨_, rfl, rfl, rfl⟩, fun x p h hx => ?_,
    Nat.le_refl _, rfl, fun _ _ => rfl, fun x p h => ?_, fun x p _ h => ?_, fun x p hx h => ?_⟩
  · obtain ⟨-, rfl⟩ := hp h
    cases hk
  · obtain ⟨-, rfl⟩ := hp h
    exact List.nodup_nil
  · exact absurd (hp h).1 hx
  · obtain ⟨-, rfl⟩ := hp h
    exact Nat.le_refl _
  · obtain ⟨-, rfl⟩ := hp h
    exact ⟨rfl, rfl, fun k v hk => nomatch hk⟩
  · obtain ⟨rfl, -⟩ := hp h
    exact absurd .refl hx

section

variable (h : Inv conf c)
include h

theorem congr (hproxies : c'.proxies = c.proxies) (hle : c.newest ≤ c'.newest)
    (hupdate : c'.update c.rootVersion =
      if c.rootVersion < c'.newest then some c'.newest else none)
    (hfresh : ∀ n, c.rootVersion < n → c'.update n = none) : Inv conf c' := by
  have hroot : c'.rootVersion = c.rootVersion := by rw [Client.rootVersion, hproxies]; rfl
  refine ⟨⟨?_, ?_⟩, ?_, ?_, ?_, ?_, ?_, ?_, fun x p hx => ?_, fun x p hx => ?_⟩ <;>
    simp only [hroot, hproxies]
  · exact h.shape.child
  · exact h.shape.keys
  · exact h.root
  · exact h.parent
  · exact Nat.le_trans h.le hle
  · exact hupdate
  · exact hfresh
  · exact h.obtained
  · rw [hroot, below_congr hproxies] at hx
    exact h.version x p hx
  · rw [hroot, below_congr hproxies] at hx
    exact h.replaced x p hx

theorem markdirty : Inv conf { c with marked := true } :=
  h.congr rfl (Nat.le_refl _) h.update h.fresh

theorem confUpdate (hs : Proxies.confUpdate c = .ok () c') :
    Inv conf c' ∧ c.newest ≤ c'.newest := by
  obtain ⟨p, hp, -⟩ := h.root
  have hroot : p.gcobj = c.rootVersion := by rw [Client.rootVersion, hp]; rfl
  unfold Proxies.confUpdate at hs
  rw [bind_ok (getProxy_ok hp), bind_ok (get_ok c)] at hs
  by_cases hdirty : c.isdirty p.obj.1 = true
  · rw [if_pos hdirty] at hs
    cases hs
    refine ⟨h.congr rfl (Nat.le_succ _) ?_ fun n hn => ?_, Nat.le_succ _⟩
    · have hlt := Nat.lt_succ_of_le h.le
      rw [if_pos hlt, hroot]
      exact Function.update_self _ _ _
    · have hne : n ≠ p.gcobj := fun heq => by omega
      exact (Function.update_of_ne hne _ _).trans (h.fresh n hn)
  · rw [if_neg hdirty] at hs
    cases hs

/-- An access, whether or not it raises an error. -/
theorem after_access (hconf : NoCacheKey conf) (hp : c.proxies[x]? = some p)
    (hcurrent : Current c x) (key : Name) :
    Inv conf (after (access conf x key c)) ∧ (after (access conf x key c)).newest = c.newest := by
  rcases access_walked h hconf hp hcurrent key with ⟨-, hrun⟩ |
    ⟨-, ⟨-, r, c', hrun, hinv, hversions, -⟩ | ⟨-, c', hw, -, hrun⟩⟩
  · rw [hrun]
    exact ⟨h, rfl⟩
  · rw [hrun]
    exact ⟨hinv, hversions.newest⟩
  · rw [hrun]
    exact ⟨h.walked hw, hw.versions.newest⟩

theorem after_metaLen (hconf : NoCacheKey conf) (hp : c.proxies[x]? = some p)
    (hcurrent : Current c x) :
    Inv conf (after (metaLen conf x c)) ∧ (after (metaLen conf x c)).newest = c.newest := by
  obtain ⟨c', hw, hok, hnot⟩ := metaLen_walked h hconf hp hcurrent
  by_cases hbelow : Below conf c c.newest 0 x
  · rw [hok hbelow]
    exact ⟨h.walked hw, hw.versions.newest⟩
  · rw [hnot hbelow]
    exact ⟨h.walked hw, hw.versions.newest⟩

theorem confNext_walked (hconf : NoCacheKey conf) (hp : c.proxies[x]? = some p)
    (hcurrent : Current c x) (nextkey : Option Name) : ∃ c₁, Walked conf c c.newest 0 c c₁ ∧
      (Below conf c c.newest 0 x → confNext conf x nextkey c =
        match nextkey with
        | some key => access conf x key c₁
        | none => .ok none c₁) ∧
      (¬Below conf c c.newest 0 x → metaLen conf x c = .error (.notExist p.obj.2) c₁ ∧
        confNext conf x nextkey c = .error (.notExist p.obj.2) c₁) := by
  obtain ⟨c₁, hw, hok, hnot⟩ := h.getcobj_walked hconf hp hcurrent (length_le_depth c)
  refine ⟨c₁, hw, fun hbelow => ?_, fun hbelow => ⟨?_, ?_⟩⟩
  · unfold confNext
    rw [bind_ok (get_ok c), bind_ok (hok hbelow)]
    cases nextkey <;> rfl
  · unfold metaLen
    rw [bind_ok (get_ok c), hnot hbelow]
  · unfold confNext
    rw [bind_ok (get_ok c), bind_error (hnot hbelow)]

end

/-- A proxy after an update is at the same place. -/
theorem exists_walked (hw : Walked conf c n 0 c c') (hp : c.proxies[x]? = some p) :
    ∃ q : Proxy, c'.proxies[x]? = some q ∧ q.obj.2 = p.obj.2 ∧
      ∀ key, q.hasField key = p.hasField key := by
  by_cases hbelow : Below conf c n 0 x
  · refine ⟨moved conf n p, by rw [hw.below x hbelow, hp, Option.map_some], rfl, fun key => ?_⟩
    simp only [Proxy.hasField, moved, Option.isSome_map]
  · exact ⟨p, by rw [hw.other x hbelow, hp], rfl, fun _ => rfl⟩

section

variable (h : Inv conf c) (hconf : NoCacheKey conf)
include h hconf

theorem after_confNext (hp : c.proxies[x]? = some p) (hcurrent : Current c x)
    (nextkey : Option Name) :
    Inv conf (after (confNext conf x nextkey c)) ∧
      (after (confNext conf x nextkey c)).newest = c.newest := by
  obtain ⟨c₁, hw, hok, hnot⟩ := confNext_walked h hconf hp hcurrent nextkey
  by_cases hbelow : Below conf c c.newest 0 x
  · rw [hok hbelow]
    cases nextkey with
    | none => exact ⟨h.walked hw, hw.versions.newest⟩
    | some key =>
      obtain ⟨q, hq, -⟩ := exists_walked hw hp
      obtain ⟨hinv, hnewest⟩ := (h.walked hw).after_access hconf hq
        (h.current_walked hw hcurrent) key
      exact ⟨hinv, hnewest.trans hw.versions.newest⟩
  · rw [(hnot hbelow).2]
    exact ⟨h.walked hw, hw.versions.newest⟩

theorem step {e : Event} (hok : Timely c e) (hs : Proxies.step conf c e = .ok c') :
    Inv conf c' ∧ c.newest ≤ c'.newest := by
  have hproxy {x : ℕ} {c₁ : Client}
      (hs : (if x < c.proxies.length then .ok c₁ else .error .noProxy : Except Fault Client) =
        .ok c') : ∃ p : Proxy, c.proxies[x]? = some p ∧ c₁ = c' := by
    by_cases hlt : x < c.proxies.length
    · rw [if_pos hlt] at hs
      exact ⟨_, List.getElem?_eq_getElem hlt, Except.ok.inj hs⟩
    · rw [if_neg hlt] at hs
      cases hs
  cases e with
  | markdirty =>
    cases hs
    exact ⟨h.markdirty, Nat.le_refl _⟩
  | confUpdate =>
    unfold Proxies.step at hs
    by_cases hmarked : c.marked
    · simp only [hmarked, if_true] at hs
      cases hrun : Proxies.confUpdate c with
      | ok a c₁ =>
        rw [hrun] at hs
        cases hs
        exact h.confUpdate hrun
      | error fault c₁ =>
        rw [hrun] at hs
        cases hs
    · simp only [hmarked] at hs
      cases hs
  | index x key =>
    obtain ⟨p, hp, rfl⟩ := hproxy hs
    obtain ⟨hinv, hnewest⟩ := h.after_access hconf hp hok key
    exact ⟨hinv, hnewest.ge⟩
  | len x =>
    obtain ⟨p, hp, rfl⟩ := hproxy hs
    obtain ⟨hinv, hnewest⟩ := h.after_metaLen hconf hp hok
    exact ⟨hinv, hnewest.ge⟩
  | next x nextkey =>
    obtain ⟨p, hp, rfl⟩ := hproxy hs
    obtain ⟨hinv, hnewest⟩ := h.after_confNext hconf hp hok nextkey
    exact ⟨hinv, hnewest.ge⟩

/-- A run keeps the invariant, and the newest version does not go back. -/
theorem reaches (hrun : Reaches (Proxies.step conf) Timely c c') :
    Inv conf c' ∧ c.newest ≤ c'.newest := by
  have hstep : ∀ (c₁ c₂ : Client) (e : Event), (Inv conf c₁ ∧ c.newest ≤ c₁.newest) → Timely c₁ e →
      Proxies.step conf c₁ e = .ok c₂ → Inv conf c₂ ∧ c.newest ≤ c₂.newest := by
    intro c₁ c₂ e hc₁ hok hs
    obtain ⟨hinv, hle⟩ := hc₁.1.step hconf hok hs
    exact ⟨hinv, Nat.le_trans hc₁.2 hle⟩
  exact hrun.invariant ⟨h, Nat.le_refl _⟩ hstep

end

end Inv

/-! ### What is read -/

/-- A proxy whose path has been that of a table since it was obtained is below the root proxy. -/
theorem Inv.below_of_forall (h : Inv conf c) (hp : c.proxies[x]? = some p)
    (hhas : ∀ m, p.obtained ≤ m → m ≤ c.newest → Has conf m p.obj.2 = true) :
    Below conf c c.newest 0 x ∧ Current c x := by
  have hbelow : Below conf c c.rootVersion 0 x := by
    by_contra hnot
    obtain ⟨-, -, n, hobtained, hle, hno⟩ := h.replaced x p hnot hp
    rw [hhas n hobtained.le (Nat.le_trans hle h.le)] at hno
    cases hno
  refine ⟨h.below_of_has hbelow hp (hhas c.newest (Nat.le_trans (h.obtained x p hp) h.le) le_rfl),
    fun q hq => ?_⟩
  exact .inl (h.version x q hbelow hq).2.1

theorem bind_congr {α β : Type} {m : Run α} {f : α → Run β} (h : m c' = m c) :
    (m >>= f) c' = (m >>= f) c := by
  change EStateM.bind m f c' = EStateM.bind m f c
  rw [EStateM.bind, EStateM.bind, h]

theorem Walked.unique {s s₁ s₂ : Client} (h₁ : Walked conf c n x s s₁)
    (h₂ : Walked conf c n x s s₂) : s₁ = s₂ := by
  have hproxies : s₁.proxies = s₂.proxies := by
    refine List.ext_getElem? fun y => ?_
    by_cases hy : Below conf c n x y
    · rw [h₁.below y hy, h₂.below y hy]
    · rw [h₁.other y hy, h₂.other y hy]
  obtain ⟨hupdate₁, hnewest₁, hmarked₁⟩ := h₁.versions
  obtain ⟨hupdate₂, hnewest₂, hmarked₂⟩ := h₂.versions
  cases s₁
  cases s₂
  simp only [Client.mk.injEq]
  exact ⟨hproxies, hupdate₁.trans hupdate₂.symm, hnewest₁.trans hnewest₂.symm,
    hmarked₁.trans hmarked₂.symm⟩

/-- After an update, a proxy is read as before it. -/
theorem getcobj_again (h : Inv conf c) (hconf : NoCacheKey conf)
    (hw : Walked conf c c.newest 0 c c') (hp : c.proxies[x]? = some p) (hcurrent : Current c x)
    {fuel : ℕ}
    (hfuel : c.proxies.length ≤ fuel) :
    getcobj (update conf fuel) x c' = getcobj (update conf fuel) x c := by
  have hinv := h.walked hw
  have hnewest : c'.newest = c.newest := hw.versions.newest
  obtain ⟨q, hq, hpath, -⟩ := Inv.exists_walked hw hp
  obtain ⟨c₁, hw₁, hok₁, hnot₁⟩ := h.getcobj_walked hconf hp hcurrent hfuel
  obtain ⟨c₂, hw₂, hok₂, hnot₂⟩ :=
    hinv.getcobj_walked hconf hq (h.current_walked hw hcurrent) (hw.length ▸ hfuel)
  obtain rfl := hw.unique hw₁
  obtain rfl := (hinv.walked_refl ((Inv.rootVersion_walked hw h).trans hnewest.symm)).unique hw₂
  rw [hnewest, Inv.below_walked hw, hpath] at hok₂ hnot₂
  by_cases hbelow : Below conf c c.newest 0 x
  · rw [hok₁ hbelow, hok₂ hbelow]
  · rw [hnot₁ hbelow, hnot₂ hbelow]

/-- The object that is read through a proxy. -/
def reads (conf : ℕ → Value Rawlen) (c : Client) (x : ℕ) : Except Fault Pointer :=
  match metaLen conf x c with
  | .ok obj _ => .ok obj
  | .error fault _ => .error fault

/-- What is read through the proxies of a client, where removed proxies are only used in time. -/
structure Follows (conf : ℕ → Value Rawlen) (c : Client) : Prop where
  /-- A proxy whose path has been that of a table since it was obtained reads the newest version. -/
  newest : ∀ (x : ℕ) (p : Proxy), c.proxies[x]? = some p →
    (∀ m, p.obtained ≤ m → m ≤ c.newest → Has conf m p.obj.2 = true) →
    reads conf c x = .ok (c.newest, p.obj.2) ∧
      (∀ key, p.hasField key = false → ∃ r c', access conf x key c = .ok (some r) c' ∧
        Shows conf c' c.newest (p.obj.2 ++ [key]) r) ∧
      ∀ nextkey, ∃ r c', confNext conf x nextkey c = .ok r c'
  /-- The root proxy does not go back. -/
  root : ∀ c', Reaches (step conf) Timely c c' →
    ∃ n n', reads conf c 0 = .ok (n, []) ∧ reads conf c' 0 = .ok (n', []) ∧ n ≤ n'
  /-- An error for a path without a table does not change what is read through the proxies. -/
  vanished : ∀ (x : ℕ) (p : Proxy), c.proxies[x]? = some p → Current c x →
    Has conf c.newest p.obj.2 = false →
    ∃ c', metaLen conf x c = .error (.notExist p.obj.2) c' ∧
      (∀ key, p.hasField key = false → access conf x key c = .error (.notExist p.obj.2) c') ∧
      (∀ nextkey, confNext conf x nextkey c = .error (.notExist p.obj.2) c') ∧
      ∀ (y : ℕ) (q : Proxy), c.proxies[y]? = some q → Current c y →
        metaLen conf y c' = metaLen conf y c ∧
          (∀ key, q.hasField key = false → access conf y key c' = access conf y key c) ∧
          ∀ nextkey, confNext conf y nextkey c' = confNext conf y nextkey c

namespace Inv

variable (h : Inv versions.conf c) (hconf : NoCacheKey versions.conf)

include h hconf

theorem reads_root : reads versions.conf c 0 = .ok (c.newest, []) := by
  obtain ⟨p, hp, -, hpath⟩ := h.root
  have hcurrent : Current c 0 := fun q hq => .inl (h.version 0 q .refl hq).2.1
  obtain ⟨c', -, hok, -⟩ := metaLen_walked h hconf hp hcurrent
  rw [reads, hok .refl, hpath]

theorem follows_newest (hp : c.proxies[x]? = some p)
    (hhas : ∀ m, p.obtained ≤ m → m ≤ c.newest → Has versions.conf m p.obj.2 = true) :
    reads versions.conf c x = .ok (c.newest, p.obj.2) ∧
      (∀ key, p.hasField key = false → ∃ r c', access versions.conf x key c = .ok (some r) c' ∧
        Shows versions.conf c' c.newest (p.obj.2 ++ [key]) r) ∧
      ∀ nextkey, ∃ r c', confNext versions.conf x nextkey c = .ok r c' := by
  obtain ⟨hbelow, hcurrent⟩ := h.below_of_forall hp hhas
  have haccess {c₁ : Client} {q : Proxy} (h₁ : Inv versions.conf c₁) (hq : c₁.proxies[x]? = some q)
      (hcurrent₁ : Current c₁ x) (hbelow₁ : Below versions.conf c₁ c₁.newest 0 x) (key : Name) :
      (q.hasField key = true ∧ access versions.conf x key c₁ = .ok none c₁) ∨
        ∃ r c', access versions.conf x key c₁ = .ok (some r) c' ∧
          Shows versions.conf c' c₁.newest (q.obj.2 ++ [key]) r := by
    rcases access_walked h₁ hconf hq hcurrent₁ key with hfield |
      ⟨-, ⟨-, r, c', hrun, -, -, hshows⟩ | ⟨hnot, -⟩⟩
    · exact .inl hfield
    · exact .inr ⟨r, c', hrun, hshows⟩
    · exact absurd hbelow₁ hnot
  refine ⟨?_, fun key hfield => ?_, fun nextkey => ?_⟩
  · obtain ⟨c', -, hok, -⟩ := metaLen_walked h hconf hp hcurrent
    rw [reads, hok hbelow]
  · rcases haccess h hp hcurrent hbelow key with ⟨hfield', -⟩ | hshows
    · rw [hfield] at hfield'
      cases hfield'
    · exact hshows
  · obtain ⟨c₁, hw, hok, -⟩ := confNext_walked h hconf hp hcurrent nextkey
    rw [hok hbelow]
    cases nextkey with
    | none => exact ⟨none, c₁, rfl⟩
    | some key =>
      obtain ⟨q, hq, -⟩ := exists_walked hw hp
      have hbelow₁ : Below versions.conf c₁ c₁.newest 0 x := by
        rw [hw.versions.newest]
        exact (below_walked hw).2 hbelow
      rcases haccess (h.walked hw) hq (h.current_walked hw hcurrent) hbelow₁ key with
        ⟨-, hrun⟩ | ⟨r, c', hrun, -⟩
      · exact ⟨none, c₁, hrun⟩
      · exact ⟨some r, c', hrun⟩

theorem follows_vanished (hp : c.proxies[x]? = some p) (hcurrent : Current c x)
    (hno : Has versions.conf c.newest p.obj.2 = false) :
    ∃ c', Walked versions.conf c c.newest 0 c c' ∧
      metaLen versions.conf x c = .error (.notExist p.obj.2) c' ∧
      (∀ key, p.hasField key = false →
        access versions.conf x key c = .error (.notExist p.obj.2) c') ∧
      ∀ nextkey, confNext versions.conf x nextkey c = .error (.notExist p.obj.2) c' := by
  have hbelow : ¬Below versions.conf c c.newest 0 x := by
    intro hbelow
    rw [h.has_of_below hbelow hp] at hno
    cases hno
  obtain ⟨c', hw, -, hnot⟩ := metaLen_walked h hconf hp hcurrent
  have herror := hnot hbelow
  have hsame {c₁ : Client} (h₁ : metaLen versions.conf x c = .error (.notExist p.obj.2) c₁) :
      c₁ = c' := by
    rw [herror] at h₁
    cases h₁
    rfl
  refine ⟨c', hw, herror, fun key hfield => ?_, fun nextkey => ?_⟩
  · rcases access_walked h hconf hp hcurrent key with ⟨hfield', -⟩ |
      ⟨-, ⟨hbelow', -⟩ | ⟨-, c₁, -, hlen, hrun⟩⟩
    · rw [hfield] at hfield'
      cases hfield'
    · exact absurd hbelow' hbelow
    · rw [hrun, hsame hlen]
  · obtain ⟨c₁, -, -, hnot₁⟩ := confNext_walked h hconf hp hcurrent nextkey
    obtain ⟨hlen, hrun⟩ := hnot₁ hbelow
    rw [hrun, hsame hlen]

/-- After an update, what is read through a proxy is the same. -/
theorem reads_again (hw : Walked versions.conf c c.newest 0 c c') (hp : c.proxies[x]? = some p)
    (hcurrent : Current c x) :
    metaLen versions.conf x c' = metaLen versions.conf x c ∧
      (∀ key, p.hasField key = false →
        access versions.conf x key c' = access versions.conf x key c) ∧
      ∀ nextkey, confNext versions.conf x nextkey c' = confNext versions.conf x nextkey c := by
  have hdepth : c'.depth = c.depth := by rw [Client.depth, hw.length, hw.versions.newest]; rfl
  have hget := getcobj_again h hconf hw hp hcurrent (length_le_depth c)
  refine ⟨?_, fun key hfield => ?_, fun nextkey => ?_⟩
  · unfold metaLen
    rw [bind_ok (get_ok c), bind_ok (get_ok c'), hdepth, hget]
  · obtain ⟨q, hq, -, hfields⟩ := exists_walked hw hp
    unfold access
    rw [bind_ok (getProxy_ok hp), bind_ok (getProxy_ok hq), hfields, hfield]
    simp only [Bool.false_eq_true, if_false]
    rw [bind_ok (get_ok c), bind_ok (get_ok c'), hdepth]
    exact bind_congr (bind_congr hget)
  · unfold confNext
    rw [bind_ok (get_ok c), bind_ok (get_ok c'), hdepth]
    exact bind_congr hget

end Inv

/-- The first version has a table at `a`, and the others are empty. -/
def vanishing : Versions where
  conf n := if n = 0 then .table 0 [(.string [97], .table 0 [])] else .table 0 []
  isTable n := by cases n <;> rfl

theorem entryAt_empty (path : List Name) (k : Name) :
    entryAt (.table 0 []) (path ++ [k]) = (.nil : Value Rawlen) := by
  cases path <;> exact entryAt_nil _

theorem vanishing_noCacheKey : NoCacheKey vanishing.conf := by
  intro n path
  cases n with
  | zero =>
    cases path with
    | nil => rfl
    | cons k path =>
      change entryAt (rawget [((Name.string [97]).key, Value.table 0 [])] k.key) _ = _
      unfold rawget
      split
      next e he =>
        rw [List.mem_singleton.1 (List.mem_of_find?_eq_some he)]
        exact entryAt_empty path cacheKey
      next => exact entryAt_nil _
  | succ n => exact entryAt_empty path cacheKey

/-- The proxy for `a` is removed, and it is used before the next version. -/
def timelyUse : List Event :=
  [.index 0 (.string [97]), .markdirty, .confUpdate, .len 0, .len 1, .markdirty, .confUpdate]

theorem permitted_timelyUse : Permitted (step vanishing.conf) Timely init timelyUse := by
  refine .cons (fun p hp => ?_) rfl (.cons trivial rfl (.cons trivial rfl
    (.cons (fun p hp => ?_) rfl
    (.cons (fun p hp => ?_) rfl (.cons trivial rfl (.cons trivial rfl trivial))))))
  · cases hp
    exact .inl rfl
  · cases hp
    exact .inl rfl
  · cases hp
    exact .inr ⟨rfl, rfl⟩

/-- The proxy for `a` is removed, and it is used after two more versions. -/
def lateUse : List Event :=
  [.index 0 (.string [97]), .markdirty, .confUpdate, .len 0, .markdirty, .confUpdate, .len 0,
    .markdirty, .confUpdate, .len 0]

end Mtask.Sharedata.Proxies
