import Mtask.Lib.Transition
import Mtask.Sharedata.ProxyTree

/-!
# Versions of a shared table

A proxy that has been removed from the cache above it still has the box of its version, and an
access through it updates the root proxy to the version after that one. If this version is not the
newest one, the root proxy goes back. Otherwise, all proxies whose paths are those of tables follow
the versions.
-/

namespace Mtask.Sharedata.Proxies

open Lua LuaSeri Transition
open List
open Option (map_some)

/-- The tables of the versions. -/
structure Versions where
  conf : ℕ → Value Rawlen
  isTable : ∀ n, isTable (conf n) = true

/-- The version of the root proxy. -/
def Client.rootVersion (c : Client) : ℕ := (c.proxies[0]?.map Proxy.gcobj).getD 0

/-- The proxy has the version of the root proxy, or the version that has replaced its own is that of
the root proxy and the newest one. -/
def Current (c : Client) (x : ℕ) : Prop :=
  ∀ p : Proxy, c.proxies[x]? = some p → p.gcobj = c.rootVersion ∨
    c.update p.gcobj = some c.rootVersion ∧ c.rootVersion = c.newest

/-- Accesses are those through proxies that are current. -/
def Timely (c : Client) : Event → Prop
  | .index x _ | .len x | .next x _ => Current c x
  | _ => True

/-- The proxies below the root proxy have its version, and the others have been replaced. -/
structure Inv (conf : ℕ → Value Rawlen) (c : Client) : Prop where
  shape : Shaped c
  root : ∃ p : Proxy, c.proxies[0]? = some p ∧ p.parent = none ∧ p.obj.2 = []
  parent : ∀ (x : ℕ) (p : Proxy), c.proxies[x]? = some p → x ≠ 0 → ∃ y < x, p.parent = some y
  le : c.rootVersion ≤ c.newest
  update : c.update c.rootVersion = if c.rootVersion < c.newest then some c.newest else none
  fresh : ∀ n, c.rootVersion < n → c.update n = none
  obtained : ∀ (x : ℕ) (p : Proxy), c.proxies[x]? = some p → p.obtained ≤ c.rootVersion
  version : ∀ (x : ℕ) (p : Proxy), Below conf c c.rootVersion 0 x → c.proxies[x]? = some p →
    p.obj.1 = c.rootVersion ∧ p.gcobj = c.rootVersion ∧
      ∀ k v, (k, v) ∈ p.children → Has conf c.rootVersion (p.obj.2 ++ [k])
  replaced : ∀ (x : ℕ) (p : Proxy), ¬Below conf c c.rootVersion 0 x → c.proxies[x]? = some p →
    p.obj.1 = p.gcobj ∧ p.gcobj < c.rootVersion ∧
      ∃ n, p.obtained < n ∧ n ≤ c.rootVersion ∧ Has conf n p.obj.2 = false

variable {versions : Versions} {conf : ℕ → Value Rawlen} {c c' : Client} {n x y : ℕ} {p : Proxy}

/-! ### Paths -/

variable {k : Name} {path : List Name}

theorem isTable_of_append {v : Value Rawlen} (h : isTable (entryAt v (path ++ [k])) = true) :
    isTable (entryAt v path) = true := by
  induction path generalizing v with
  | nil =>
    cases v with
    | table => rfl
    | nil | boolean | integer | float | string | lightuserdata => cases h
  | cons k' path ih =>
    cases v with
    | table sizearray entries => exact ih h
    | nil | boolean | integer | float | string | lightuserdata => cases h

theorem has_of_append (h : Has conf n (path ++ [k]) = true) : Has conf n path = true :=
  isTable_of_append h

variable {q : Proxy} {fuel : ℕ}

namespace Inv

theorem exists_of_below (h : Inv conf c) (hx : Below conf c n 0 x) :
    ∃ p : Proxy, c.proxies[x]? = some p := by
  obtain ⟨p, hp, -, -⟩ := h.root
  obtain ⟨q, hq, -⟩ := hx.isPrefix h.shape hp
  exact ⟨q, hq⟩

theorem has_of_below (h : Inv versions.conf c) (hx : Below versions.conf c n 0 x)
    (hp : c.proxies[x]? = some p) : Has versions.conf n p.obj.2 = true := by
  cases hx with
  | refl =>
    obtain ⟨p', hp', -, hpath⟩ := h.root
    rw [hp] at hp'
    cases hp'
    have hroot := versions.isTable n
    unfold Has
    rwa [hpath, entryAt]
  | child _ hq hk htable =>
    obtain ⟨-, p', hp', hpath, -⟩ := h.shape.child _ _ _ _ hq hk
    rw [hp] at hp'
    cases hp'
    rwa [hpath]

/-- A proxy whose path is that of a table stays below the root proxy. -/
theorem below_of_has (h : Inv conf c) {m : ℕ} (hx : Below conf c m 0 x)
    (hp : c.proxies[x]? = some p) (hhas : Has conf n p.obj.2 = true) : Below conf c n 0 x := by
  induction hx generalizing p with
  | refl => exact .refl
  | child _ hq hk _ ih =>
    obtain ⟨-, p', hp', hpath, -⟩ := h.shape.child _ _ _ _ hq hk
    rw [hp] at hp'
    cases hp'
    rw [hpath] at hhas
    exact (ih hq (has_of_append hhas)).child hq hk hhas

/-! ### After an update -/

/-- An update for the version that the proxies have changes nothing. -/
theorem walked_refl (h : Inv conf c) (hnewest : c.rootVersion = c.newest) :
    Walked conf c c.newest 0 c c := by
  refine ⟨.refl c, rfl, fun y hy => ?_, fun _ _ => rfl⟩
  rw [← hnewest] at hy ⊢
  obtain ⟨p, hp⟩ := h.exists_of_below hy
  obtain ⟨hobj, hgcobj, hchildren⟩ := h.version y p hy hp
  have hcache : p.cache.map (·.filter fun e => Has conf c.rootVersion (p.obj.2 ++ [e.1])) =
      p.cache := by
    cases hcase : p.cache with
    | none => rfl
    | some children =>
      have hall : ∀ e ∈ children, Has conf c.rootVersion (p.obj.2 ++ [e.1]) = true :=
        fun e he => hchildren e.1 e.2 (by rw [Proxy.children, hcase]; exact he)
      rw [map_some, filter_eq_self.2 hall]
  rw [hp, map_some, moved, hcache, ← hobj]
  obtain ⟨⟨version, path⟩, gcobj, parent, key, cache, obtained⟩ := p
  obtain rfl : version = c.rootVersion := hobj
  obtain rfl : gcobj = c.rootVersion := hgcobj
  rfl

theorem children_moved {v : ℕ} :
    (k, v) ∈ (moved conf n q).children ↔ (k, v) ∈ q.children ∧ Has conf n (q.obj.2 ++ [k]) := by
  unfold Proxy.children moved
  cases q.cache with
  | none => simp
  | some children => simp [mem_filter]

variable (hw : Walked conf c c.newest 0 c c')

include hw

theorem walked_cases (hp : c'.proxies[y]? = some p) :
    (Below conf c c.newest 0 y ∧ ∃ q : Proxy, c.proxies[y]? = some q ∧ p = moved conf c.newest q) ∨
      ¬Below conf c c.newest 0 y ∧ c.proxies[y]? = some p := by
  by_cases hy : Below conf c c.newest 0 y
  · rw [hw.below y hy] at hp
    obtain ⟨q, hq, rfl⟩ := Option.map_eq_some_iff.1 hp
    exact .inl ⟨hy, q, hq, rfl⟩
  · rw [hw.other y hy] at hp
    exact .inr ⟨hy, hp⟩

theorem below_walked :
    Below conf c' c.newest 0 y ↔ Below conf c c.newest 0 y := by
  constructor
  · intro hy
    induction hy with
    | refl => exact .refl
    | child _ hp hk htable ih =>
      rcases walked_cases hw hp with ⟨-, q, hq, rfl⟩ | ⟨hnot, -⟩
      · obtain ⟨hk, htable⟩ := children_moved.1 hk
        exact ih.child hq hk htable
      · exact absurd ih hnot
  · intro hy
    induction hy with
    | refl => exact .refl
    | child hz hq hk htable ih =>
      have hp := hw.below _ hz
      rw [hq, map_some] at hp
      exact ih.child hp (children_moved.2 ⟨hk, htable⟩) htable

theorem rootVersion_walked (h : Inv conf c) : c'.rootVersion = c.newest := by
  obtain ⟨p, hp, -⟩ := h.root
  rw [Client.rootVersion, hw.below 0 .refl, hp]
  rfl

theorem shape_walked (h : Inv conf c) : Shaped c' := by
  have hkept {z : ℕ} {q : Proxy} (hq : c.proxies[z]? = some q) :
      ∃ q' : Proxy, c'.proxies[z]? = some q' ∧ q'.obj.2 = q.obj.2 ∧ q'.parent = q.parent := by
    by_cases hz : Below conf c c.newest 0 z
    · exact ⟨moved conf c.newest q, by rw [hw.below z hz, hq, map_some], rfl, rfl⟩
    · exact ⟨q, by rw [hw.other z hz, hq], rfl, rfl⟩
  have hold {z : ℕ} {q' : Proxy} (hq' : c'.proxies[z]? = some q') :
      ∃ q : Proxy, c.proxies[z]? = some q ∧ q'.obj.2 = q.obj.2 ∧
        q'.children.Sublist q.children := by
    rcases walked_cases hw hq' with ⟨-, q, hq, rfl⟩ | ⟨-, hq⟩
    · refine ⟨q, hq, rfl, ?_⟩
      unfold Proxy.children moved
      cases q.cache with
      | none => exact .refl _
      | some children => exact filter_sublist
    · exact ⟨q', hq, rfl, .refl _⟩
  refine ⟨fun z q' k v hq' hk => ?_, fun z q' hq' => ?_⟩
  · obtain ⟨q, hq, hpath, hsub⟩ := hold hq'
    obtain ⟨hlt, r, hr, hrpath, hparent⟩ := h.shape.child z q k v hq (hsub.subset hk)
    obtain ⟨r', hr', hrpath', hparent'⟩ := hkept hr
    exact ⟨hlt, r', hr', by rw [hrpath', hrpath, hpath], by rw [hparent', hparent]⟩
  · obtain ⟨q, hq, -, hsub⟩ := hold hq'
    exact (hsub.map Prod.fst).nodup (h.shape.keys z q hq)

theorem walked (h : Inv conf c) : Inv conf c' := by
  have hroot := rootVersion_walked hw h
  have hnewest : c'.newest = c.newest := hw.versions.newest
  have hfinal : c.rootVersion < c.newest → c.update c.newest = none := h.fresh c.newest
  refine ⟨shape_walked hw h, ?_, fun x p hp hx => ?_, by rw [hroot, hnewest], ?_, fun n hn => ?_,
    fun x p hp => ?_, fun x p hx hp => ?_, fun x p hx hp => ?_⟩
  · obtain ⟨p, hp, hparent, hpath⟩ := h.root
    exact ⟨moved conf c.newest p, by rw [hw.below 0 .refl, hp, map_some], hparent, hpath⟩
  · rcases walked_cases hw hp with ⟨-, q, hq, rfl⟩ | ⟨-, hq⟩
    · exact h.parent x q hq hx
    · exact h.parent x p hq hx
  · rw [hw.versions.update, hroot, hnewest, if_neg (Nat.lt_irrefl _)]
    rcases Nat.lt_or_eq_of_le h.le with hlt | heq
    · exact hfinal hlt
    · have hupdate := h.update
      rw [heq, if_neg (Nat.lt_irrefl _)] at hupdate
      exact hupdate
  · rw [hw.versions.update]
    rw [hroot] at hn
    exact h.fresh n (Nat.lt_of_le_of_lt h.le hn)
  · rw [hroot]
    rcases walked_cases hw hp with ⟨-, q, hq, rfl⟩ | ⟨-, hq⟩
    · exact Nat.le_trans (h.obtained x q hq) h.le
    · exact Nat.le_trans (h.obtained x p hq) h.le
  · rw [hroot] at hx ⊢
    rcases walked_cases hw hp with ⟨-, q, hq, rfl⟩ | ⟨hnot, -⟩
    · exact ⟨rfl, rfl, fun k v hk => (children_moved.1 hk).2⟩
    · exact absurd ((below_walked hw).1 hx) hnot
  · rw [hroot] at hx ⊢
    rcases walked_cases hw hp with ⟨hbelow, -⟩ | ⟨hnot, hq⟩
    · exact absurd ((below_walked hw).2 hbelow) hx
    · by_cases hold : Below conf c c.rootVersion 0 x
      · obtain ⟨hobj, hgcobj, -⟩ := h.version x p hold hq
        have hlt : c.rootVersion < c.newest :=
          Nat.lt_of_le_of_ne h.le fun heq => hnot (heq ▸ hold)
        refine ⟨hobj.trans hgcobj.symm, by rw [hgcobj]; exact hlt, c.newest,
          Nat.lt_of_le_of_lt (h.obtained x p hq) hlt, Nat.le_refl _, ?_⟩
        rw [← Bool.not_eq_true]
        exact fun hhas => hnot (h.below_of_has hold hq hhas)
      · obtain ⟨hobj, hlt, n, hn, hle, hhas⟩ := h.replaced x p hold hq
        exact ⟨hobj, Nat.lt_of_lt_of_le hlt h.le, n, hn, Nat.le_trans hle h.le, hhas⟩

theorem current_walked (h : Inv conf c) (hy : Current c y) : Current c' y := by
  intro p hp
  rw [rootVersion_walked hw h, hw.versions.update, hw.versions.newest]
  rcases walked_cases hw hp with ⟨-, q, hq, rfl⟩ | ⟨-, hq⟩
  · exact .inl rfl
  · rcases hy p hq with hgcobj | ⟨hupdate, hnewest⟩
    · rcases Nat.lt_or_eq_of_le h.le with hlt | heq
      · refine .inr ⟨?_, rfl⟩
        rw [hgcobj, h.update, if_pos hlt]
      · exact .inl (hgcobj.trans heq)
    · exact .inr ⟨by rw [hupdate, hnewest], rfl⟩

omit hw in
theorem findroot_eq (h : Inv conf c) (hlt : x < c.proxies.length) (hfuel : x ≤ fuel) :
    findroot c.proxies fuel x = 0 := by
  obtain ⟨p₀, hp₀, hparent₀, -⟩ := h.root
  induction fuel generalizing x with
  | zero => exact Nat.le_zero.1 hfuel
  | succ fuel ih =>
    have hp := getElem?_eq_getElem hlt
    rw [findroot, hp, Option.bind_some]
    by_cases hx : x = 0
    · subst hx
      rw [hp₀] at hp
      rw [← Option.some.inj hp, hparent₀]
    · obtain ⟨y, hy, hparent⟩ := h.parent x _ hp hx
      rw [hparent]
      exact ih (by omega) (by omega)

omit hw in
/-- An access updates the proxies to the newest version. It raises an error if the proxy is not
below the root proxy then. -/
theorem getcobj_walked (h : Inv conf c) (hconf : NoCacheKey conf) (hp : c.proxies[x]? = some p)
    (hcurrent : Current c x) (hfuel : c.proxies.length ≤ fuel) :
    ∃ c', Walked conf c c.newest 0 c c' ∧
      (Below conf c c.newest 0 x →
        getcobj (Proxies.update conf fuel) x c = .ok (c.newest, p.obj.2) c') ∧
      (¬Below conf c c.newest 0 x →
        getcobj (Proxies.update conf fuel) x c = .error (.notExist p.obj.2) c') := by
  by_cases hfinal : p.gcobj = c.rootVersion ∧ c.rootVersion = c.newest
  · obtain ⟨hgcobj, hnewest⟩ := hfinal
    have hbelow : Below conf c c.rootVersion 0 x := by
      by_contra hnot
      have hlt := (h.replaced x p hnot hp).2.1
      omega
    obtain ⟨hobj, -, -⟩ := h.version x p hbelow hp
    refine ⟨c, h.walked_refl hnewest, fun _ => ?_, fun hnot => absurd (hnewest ▸ hbelow) hnot⟩
    have hnone : c.update p.gcobj = none := by
      rw [hgcobj, h.update, if_neg (by omega)]
    rw [getcobj_final hp fun _ => hnone, ← hnewest, ← hobj]
  · -- the box has an update, which is the newest version
    have hupdate : p.obj.1 < c.newest ∧ c.update p.gcobj = some c.newest := by
      rcases hcurrent p hp with hgcobj | ⟨hupdate, hnewest⟩
      · have hlt : c.rootVersion < c.newest :=
          Nat.lt_of_le_of_ne h.le fun heq => hfinal ⟨hgcobj, heq⟩
        have hbelow : Below conf c c.rootVersion 0 x := by
          by_contra hnot
          have := (h.replaced x p hnot hp).2.1
          omega
        obtain ⟨hobj, -, -⟩ := h.version x p hbelow hp
        exact ⟨hobj ▸ hlt, by rw [hgcobj, h.update, if_pos hlt]⟩
      · have hnot : ¬Below conf c c.rootVersion 0 x := fun hbelow =>
          hfinal ⟨(h.version x p hbelow hp).2.1, hnewest⟩
        obtain ⟨hobj, hlt, -⟩ := h.replaced x p hnot hp
        exact ⟨by omega, by rw [hupdate, hnewest]⟩
    obtain ⟨hlt, hupdate⟩ := hupdate
    have hdirty : c.isdirty p.obj.1 = true := decide_eq_true (.inl hlt)
    have hlast : Final c c.newest := by
      intro _
      rcases Nat.lt_or_eq_of_le h.le with hlt | heq
      · exact h.fresh c.newest hlt
      · rw [← heq, h.update, if_neg (by omega)]
    obtain ⟨p₀, hp₀, -, hpath₀⟩ := h.root
    obtain ⟨c', hc', hw⟩ := walk hconf h.shape hp₀ (by omega : c.proxies.length ≤ 0 + fuel) hlast
      fun _ _ => rfl
    rw [hpath₀] at hc'
    have hlen := (List.getElem?_eq_some_iff.1 hp).1
    have hrun : getcobj (Proxies.update conf fuel) x c = (getProxy x >>= fun new =>
        if new.obj = p.obj then throw (.notExist p.obj.2) else return new.obj :
        Run Pointer) c' := by
      unfold getcobj
      rw [bind_ok (getProxy_ok hp), bind_ok (get_ok c), if_pos hdirty, hupdate]
      dsimp only
      rw [h.findroot_eq hlen hlen.le, bind_ok hc']
    refine ⟨c', hw, fun hbelow => ?_, fun hnot => ?_⟩
    · have hnew := hw.below x hbelow
      rw [hp, map_some] at hnew
      rw [hrun, bind_ok (getProxy_ok hnew), if_neg]
      · rfl
      · intro heq
        exact absurd (congrArg Prod.fst heq) (Nat.ne_of_gt hlt)
    · have hold := hw.other x hnot
      rw [hp] at hold
      rw [hrun, bind_ok (getProxy_ok hold), if_pos rfl]
      rfl

end Inv

/-! ### A new proxy -/

/-- The client with a new proxy below `x`. -/
def withChild (c : Client) (x : ℕ) (p : Proxy) (key : Name) : Client :=
  { c with
    proxies := c.proxies.set x { p with cache := some (p.children ++ [(key, c.proxies.length)]) } ++
      [⟨(c.rootVersion, p.obj.2 ++ [key]), c.rootVersion, some x, key, none, c.rootVersion⟩] }

section NewChild

variable {key : Name} (hp : c.proxies[x]? = some p)

include hp

theorem getElem?_withChild_self : (withChild c x p key).proxies[x]? =
    some { p with cache := some (p.children ++ [(key, c.proxies.length)]) } := by
  have hlt := (List.getElem?_eq_some_iff.1 hp).1
  exact (getElem?_append_left (by rwa [length_set])).trans (List.getElem?_set_self hlt)

omit hp in
theorem getElem?_withChild_ne (hy : y ≠ x) (hq : c.proxies[y]? = some q) :
    (withChild c x p key).proxies[y]? = some q := by
  have hlt := (List.getElem?_eq_some_iff.1 hq).1
  exact (getElem?_append_left (by rwa [length_set])).trans
    ((getElem?_set_ne (Ne.symm hy)).trans hq)

omit hp in
theorem getElem?_withChild_last : (withChild c x p key).proxies[c.proxies.length]? =
    some ⟨(c.rootVersion, p.obj.2 ++ [key]), c.rootVersion, some x, key, none, c.rootVersion⟩ := by
  refine (getElem?_append_right (by rw [length_set])).trans ?_
  rw [length_set, Nat.sub_self]
  rfl

omit hp in
/-- A proxy of the client is the new one, the one above it, or an old one. -/
theorem withChild_cases (hq : (withChild c x p key).proxies[y]? = some q) :
    y = c.proxies.length ∧
        q = ⟨(c.rootVersion, p.obj.2 ++ [key]), c.rootVersion, some x, key, none, c.rootVersion⟩ ∨
      y < c.proxies.length ∧ (y = x ∧
        q = { p with cache := some (p.children ++ [(key, c.proxies.length)]) } ∨
          y ≠ x ∧ c.proxies[y]? = some q) := by
  rcases Nat.lt_trichotomy y c.proxies.length with hlt | rfl | hgt
  · refine .inr ⟨hlt, ?_⟩
    have hset := (getElem?_append_left (by rwa [length_set])).symm.trans hq
    by_cases hyx : y = x
    · subst hyx
      rw [List.getElem?_set_self hlt] at hset
      exact .inl ⟨rfl, (Option.some.inj hset).symm⟩
    · rw [getElem?_set_ne (Ne.symm hyx)] at hset
      exact .inr ⟨hyx, hset⟩
  · rw [getElem?_withChild_last] at hq
    exact .inl ⟨rfl, (Option.some.inj hq).symm⟩
  · have hlen := (List.getElem?_eq_some_iff.1 hq).1
    rw [withChild, length_append, length_set, length_singleton] at hlen
    omega

theorem rootVersion_withChild (h : Inv conf c) (key : Name) :
    (withChild c x p key).rootVersion = c.rootVersion := by
  obtain ⟨p₀, hp₀, -⟩ := h.root
  unfold Client.rootVersion
  by_cases hx : 0 = x
  · subst hx
    rw [getElem?_withChild_self hp, hp]
    rfl
  · rw [getElem?_withChild_ne hx hp₀, hp₀]

theorem below_withChild (hy : Below conf (withChild c x p key) n 0 y) :
    y = c.proxies.length ∨ Below conf c n 0 y := by
  induction hy with
  | refl => exact .inr .refl
  | child _ hq hk htable ih =>
    rcases withChild_cases hq with ⟨-, rfl⟩ | ⟨hlt, hcase⟩
    · cases hk
    · have hz := ih.resolve_left (Nat.ne_of_lt hlt)
      rcases hcase with ⟨rfl, rfl⟩ | ⟨-, hq⟩
      · rcases mem_append.1 hk with hk | hk
        · exact .inr (hz.child hp hk htable)
        · rw [mem_singleton] at hk
          exact .inl (Prod.ext_iff.1 hk).2
      · exact .inr (hz.child hq hk htable)

theorem withChild_below (hy : Below conf c n 0 y) : Below conf (withChild c x p key) n 0 y := by
  induction hy with
  | refl => exact .refl
  | @child z v q k _ hq hk htable ih =>
    by_cases hz : z = x
    · subst hz
      rw [hp] at hq
      cases hq
      exact ih.child (getElem?_withChild_self hp) (mem_append_left _ hk) htable
    · exact ih.child (getElem?_withChild_ne hz hq) hk htable

theorem shaped_withChild (h : Inv conf c) (hkey : key ∉ p.children.map Prod.fst) :
    Shaped (withChild c x p key) := by
  have hlt := (List.getElem?_eq_some_iff.1 hp).1
  -- the old proxies have the same path and the same proxy above
  have hkept {z : ℕ} {q : Proxy} (hq : c.proxies[z]? = some q) :
      ∃ q' : Proxy, (withChild c x p key).proxies[z]? = some q' ∧ q'.obj.2 = q.obj.2 ∧
        q'.parent = q.parent := by
    by_cases hz : z = x
    · subst hz
      rw [hp] at hq
      cases hq
      exact ⟨_, getElem?_withChild_self hp, rfl, rfl⟩
    · exact ⟨q, getElem?_withChild_ne hz hq, rfl, rfl⟩
  have hchild {z : ℕ} {q : Proxy} {k : Name} {v : ℕ} (hq : c.proxies[z]? = some q)
      (hk : (k, v) ∈ q.children) : z < v ∧ ∃ r : Proxy,
        (withChild c x p key).proxies[v]? = some r ∧ r.obj.2 = q.obj.2 ++ [k] ∧
          r.parent = some z := by
    obtain ⟨hzv, r, hr, hpath, hparent⟩ := h.shape.child z q k v hq hk
    obtain ⟨r', hr', hpath', hparent'⟩ := hkept hr
    exact ⟨hzv, r', hr', hpath'.trans hpath, hparent'.trans hparent⟩
  refine ⟨fun z q k v hq hk => ?_, fun z q hq => ?_⟩
  · rcases withChild_cases hq with ⟨-, rfl⟩ | ⟨-, ⟨rfl, rfl⟩ | ⟨-, hq⟩⟩
    · cases hk
    · rcases mem_append.1 hk with hk | hk
      · have hold := hchild hp hk
        exact hold
      · rw [mem_singleton] at hk
        cases hk
        exact ⟨hlt, _, getElem?_withChild_last, rfl, rfl⟩
    · exact hchild hq hk
  · rcases withChild_cases hq with ⟨-, rfl⟩ | ⟨-, ⟨rfl, rfl⟩ | ⟨-, hq⟩⟩
    · exact nodup_nil
    · change ((p.children ++ [(key, c.proxies.length)]).map Prod.fst).Nodup
      rw [map_append]
      refine nodup_append.2 ⟨h.shape.keys _ p hp, nodup_singleton _,
        fun a ha b hb heq => ?_⟩
      rw [map_singleton, mem_singleton] at hb
      have hak : a = key := heq.trans hb
      exact hkey (hak ▸ ha)
    · exact h.shape.keys z q hq

theorem Inv.withChild (h : Inv conf c) (hx : Below conf c c.rootVersion 0 x)
    (hkey : key ∉ p.children.map Prod.fst)
    (htable : Has conf c.rootVersion (p.obj.2 ++ [key]) = true) :
    Inv conf (withChild c x p key) := by
  have hroot := rootVersion_withChild hp h key
  have hlt := (List.getElem?_eq_some_iff.1 hp).1
  obtain ⟨hobj, hgcobj, hchildren⟩ := h.version x p hx hp
  refine ⟨shaped_withChild hp h hkey, ?_, fun z q hq hz => ?_, by rw [hroot]; exact h.le,
    by rw [hroot]; exact h.update, fun n hn => ?_, fun z q hq => ?_, fun z q hz hq => ?_,
    fun z q hz hq => ?_⟩
  · obtain ⟨p₀, hp₀, hparent, hpath⟩ := h.root
    by_cases hx : 0 = x
    · subst hx
      rw [hp] at hp₀
      cases hp₀
      exact ⟨_, getElem?_withChild_self hp, hparent, hpath⟩
    · exact ⟨p₀, getElem?_withChild_ne hx hp₀, hparent, hpath⟩
  · rcases withChild_cases hq with ⟨rfl, rfl⟩ | ⟨-, ⟨rfl, rfl⟩ | ⟨-, hq⟩⟩
    · exact ⟨x, hlt, rfl⟩
    · exact h.parent z p hp hz
    · exact h.parent z q hq hz
  · rw [hroot] at hn
    exact h.fresh n hn
  · rw [hroot]
    rcases withChild_cases hq with ⟨-, rfl⟩ | ⟨-, ⟨-, rfl⟩ | ⟨-, hq⟩⟩
    · exact Nat.le_refl _
    · exact h.obtained x p hp
    · exact h.obtained z q hq
  · rw [hroot] at hz ⊢
    rcases withChild_cases hq with ⟨-, rfl⟩ | ⟨hzlt, hcase⟩
    · exact ⟨rfl, rfl, fun k v hk => nomatch hk⟩
    · have hz := (below_withChild hp hz).resolve_left (Nat.ne_of_lt hzlt)
      rcases hcase with ⟨rfl, rfl⟩ | ⟨-, hq⟩
      · refine ⟨hobj, hgcobj, fun k v hk => ?_⟩
        rcases mem_append.1 hk with hk | hk
        · exact hchildren k v hk
        · rw [mem_singleton] at hk
          cases hk
          exact htable
      · exact h.version z q hz hq
  · rw [hroot] at hz ⊢
    have hlast : Below conf (Proxies.withChild c x p key) c.rootVersion 0 c.proxies.length :=
      (withChild_below hp hx).child (getElem?_withChild_self hp)
        (mem_append_right _ mem_cons_self) htable
    rcases withChild_cases hq with ⟨rfl, -⟩ | ⟨-, ⟨rfl, -⟩ | ⟨-, hq⟩⟩
    · exact absurd hlast hz
    · exact absurd (withChild_below hp hx) hz
    · exact h.replaced z q (fun hold => hz (withChild_below hp hold)) hq

end NewChild

/-! ### A proxy that is obtained again -/

/-- The client where the proxy `x` has been returned by a read. -/
def withObtained (c : Client) (x : ℕ) (p : Proxy) : Client :=
  { c with proxies := c.proxies.set x { p with obtained := c.rootVersion } }

section Obtained

variable (hp : c.proxies[x]? = some p)

include hp

theorem withObtained_kept (hq : c.proxies[y]? = some q) : ∃ n,
    (withObtained c x p).proxies[y]? = some { q with obtained := n } := by
  by_cases hyx : y = x
  · subst hyx
    rw [hp] at hq
    cases hq
    exact ⟨_, List.getElem?_set_self (List.getElem?_eq_some_iff.1 hp).1⟩
  · exact ⟨q.obtained, (getElem?_set_ne (Ne.symm hyx)).trans hq⟩

/-- A proxy of the client is an old one, up to the version when it was obtained. -/
theorem withObtained_cases (hq : (withObtained c x p).proxies[y]? = some q) :
    (y = x ∧ q = { p with obtained := c.rootVersion }) ∨ y ≠ x ∧ c.proxies[y]? = some q := by
  by_cases hyx : y = x
  · subst hyx
    have hset := (List.getElem?_set_self (List.getElem?_eq_some_iff.1 hp).1).symm.trans hq
    exact .inl ⟨rfl, (Option.some.inj hset).symm⟩
  · exact .inr ⟨hyx, (getElem?_set_ne (Ne.symm hyx)).symm.trans hq⟩

theorem rootVersion_withObtained (h : Inv conf c) :
    (withObtained c x p).rootVersion = c.rootVersion := by
  obtain ⟨p₀, hp₀, -⟩ := h.root
  obtain ⟨n, hn⟩ := withObtained_kept hp hp₀
  rw [Client.rootVersion, hn, Client.rootVersion, hp₀]
  rfl

theorem below_withObtained :
    Below conf (withObtained c x p) n 0 y ↔ Below conf c n 0 y := by
  constructor
  · intro hy
    induction hy with
    | refl => exact .refl
    | child _ hq hk htable ih =>
      rcases withObtained_cases hp hq with ⟨rfl, rfl⟩ | ⟨-, hq⟩
      · exact ih.child hp hk htable
      · exact ih.child hq hk htable
  · intro hy
    induction hy with
    | refl => exact .refl
    | child _ hq hk htable ih =>
      obtain ⟨n, hn⟩ := withObtained_kept hp hq
      exact ih.child hn hk htable

theorem Inv.withObtained (h : Inv conf c) (hx : Below conf c c.rootVersion 0 x) :
    Inv conf (withObtained c x p) := by
  have hroot := rootVersion_withObtained hp h
  -- all but the version when it was obtained is that of an old proxy
  have hold {y : ℕ} {q : Proxy} (hq : (Proxies.withObtained c x p).proxies[y]? = some q) :
      ∃ q' : Proxy, c.proxies[y]? = some q' ∧ q.obj = q'.obj ∧ q.gcobj = q'.gcobj ∧
        q.parent = q'.parent ∧ q.children = q'.children := by
    rcases withObtained_cases hp hq with ⟨rfl, rfl⟩ | ⟨-, hq⟩
    · exact ⟨p, hp, rfl, rfl, rfl, rfl⟩
    · exact ⟨q, hq, rfl, rfl, rfl, rfl⟩
  refine ⟨⟨fun z q k v hq hk => ?_, fun z q hq => ?_⟩, ?_, fun z q hq hz => ?_,
    by rw [hroot]; exact h.le, by rw [hroot]; exact h.update, fun n hn => ?_, fun z q hq => ?_,
    fun z q hz hq => ?_, fun z q hz hq => ?_⟩
  · obtain ⟨q', hq', hobj, -, -, hchildren⟩ := hold hq
    obtain ⟨hlt, r, hr, hpath, hparent⟩ := h.shape.child z q' k v hq' (hchildren ▸ hk)
    obtain ⟨m, hm⟩ := withObtained_kept hp hr
    exact ⟨hlt, _, hm, by rw [hobj]; exact hpath, hparent⟩
  · obtain ⟨q', hq', -, -, -, hchildren⟩ := hold hq
    rw [hchildren]
    exact h.shape.keys z q' hq'
  · obtain ⟨p₀, hp₀, hparent, hpath⟩ := h.root
    obtain ⟨m, hm⟩ := withObtained_kept hp hp₀
    exact ⟨_, hm, hparent, hpath⟩
  · obtain ⟨q', hq', -, -, hparent, -⟩ := hold hq
    rw [hparent]
    exact h.parent z q' hq' hz
  · rw [hroot] at hn
    exact h.fresh n hn
  · rw [hroot]
    rcases withObtained_cases hp hq with ⟨rfl, rfl⟩ | ⟨-, hq⟩
    · exact Nat.le_refl _
    · exact h.obtained z q hq
  · rw [hroot, below_withObtained hp] at hz
    obtain ⟨q', hq', hobj, hgcobj, -, hchildren⟩ := hold hq
    rw [hroot, hobj, hgcobj, hchildren]
    exact h.version z q' hz hq'
  · rw [hroot, below_withObtained hp] at hz
    rw [hroot]
    rcases withObtained_cases hp hq with ⟨rfl, rfl⟩ | ⟨-, hq⟩
    · exact absurd hx hz
    · exact h.replaced z q hz hq

end Obtained

/-! ### Accesses -/

/-- What is read is what the version has: the proxy is that of the table. -/
def Shows (conf : ℕ → Value Rawlen) (c : Client) (n : ℕ) (path : List Name) : Read → Prop
  | .value v => v = entryAt (conf n) path ∧ isTable v = false
  | .proxy x => Has conf n path = true ∧
      ∃ p : Proxy, c.proxies[x]? = some p ∧ p.obj = (n, path)

variable {l : List (Name × ℕ)}

theorem mem_of_lookup {v : ℕ} (h : l.lookup k = some v) : (k, v) ∈ l := by
  induction l with
  | nil => cases h
  | cons e l ih =>
    obtain ⟨k', v'⟩ := e
    rw [lookup_cons] at h
    by_cases hk : k = k'
    · subst hk
      simp only [beq_self_eq_true] at h
      exact Option.some.inj h ▸ mem_cons_self
    · have hne : (k == k') = false := beq_false_of_ne hk
      simp only [hne] at h
      exact mem_cons_of_mem _ (ih h)

theorem not_mem_of_lookup (h : l.lookup k = none) : k ∉ l.map Prod.fst := by
  induction l with
  | nil => exact not_mem_nil
  | cons e l ih =>
    obtain ⟨k', v'⟩ := e
    rw [lookup_cons] at h
    by_cases hk : k = k'
    · subst hk
      simp only [beq_self_eq_true] at h
      cases h
    · have hne : (k == k') = false := beq_false_of_ne hk
      simp only [hne] at h
      rw [map_cons, mem_cons]
      exact not_or.2 ⟨hk, ih h⟩

theorem metaIndex_newest (h : Inv conf c) (hconf : NoCacheKey conf)
    (hnewest : c.rootVersion = c.newest) (hx : Below conf c c.newest 0 x)
    (hp : c.proxies[x]? = some p) (key : Name) {before : Client}
    (hget : getcobj (update conf fuel) x before = .ok (c.newest, p.obj.2) c) :
    ∃ r c', metaIndex conf fuel x key before = .ok r c' ∧ Inv conf c' ∧ SameVersions c c' ∧
      c'.proxies.length ≥ c.proxies.length ∧
      Shows conf c' c.newest (p.obj.2 ++ [key]) r := by
  obtain ⟨hobj, hgcobj, -⟩ := h.version x p (hnewest ▸ hx) hp
  have hfinal : c.isdirty p.obj.1 = true → c.update p.gcobj = none := fun _ => by
    rw [hgcobj, h.update, if_neg (by omega)]
  unfold metaIndex
  rw [bind_ok hget]
  by_cases htable : isTable (index conf (c.newest, p.obj.2) key) = true
  · simp only [if_pos htable]
    have hnew (hkey : key ∉ p.children.map Prod.fst) :
        ∃ r c', metaIndex.newChild x (c.newest, p.obj.2) key p.children c = .ok r c' ∧
          Inv conf c' ∧ SameVersions c c' ∧ c'.proxies.length ≥ c.proxies.length ∧
          Shows conf c' c.newest (p.obj.2 ++ [key]) r := by
      refine ⟨.proxy c.proxies.length, withChild c x p key, ?_,
        h.withChild hp (hnewest ▸ hx) hkey (by rw [hnewest]; exact htable), ⟨rfl, rfl, rfl⟩, ?_,
        htable, _, getElem?_withChild_last, by rw [hnewest]⟩
      · have hrun : metaIndex.newChild x (c.newest, p.obj.2) key p.children c =
            .ok (.proxy c.proxies.length) { c with
              proxies := c.proxies.set x
                  { p with cache := some (p.children ++ [(key, c.proxies.length)]) } ++
                [⟨(c.newest, p.obj.2 ++ [key]), p.gcobj, some x, key, none, c.newest⟩] } := by
          unfold metaIndex.newChild
          rw [bind_ok (getProxy_ok hp), bind_ok (get_ok c)]
          rfl
        rw [hrun, withChild, hgcobj, hnewest]
      · rw [withChild, length_append, length_set]
        exact Nat.le_add_right _ _
    cases hcache : p.cache with
    | none =>
      rw [bind_ok (getcache_none hconf hp hcache hfinal)]
      have hchildren : p.children = [] := by rw [Proxy.children, hcache]; rfl
      rw [hchildren] at hnew
      exact hnew not_mem_nil
    | some children =>
      rw [bind_ok (getcache_some hp hcache)]
      have hchildren : p.children = children := by rw [Proxy.children, hcache]; rfl
      dsimp only
      cases hlookup : children.lookup key with
      | none =>
        have hnew := hnew (by rw [hchildren]; exact not_mem_of_lookup hlookup)
        rwa [hchildren] at hnew
      | some r =>
        have hmem : (key, r) ∈ p.children := hchildren ▸ mem_of_lookup hlookup
        obtain ⟨-, q, hq, hpath, -⟩ := h.shape.child x p key r hp hmem
        have hbelow := (hnewest ▸ hx : Below conf c c.rootVersion 0 x).child hp hmem
          (by rw [hnewest]; exact htable)
        obtain ⟨hversion, -, -⟩ := h.version r q hbelow hq
        have hlt := (List.getElem?_eq_some_iff.1 hq).1
        refine ⟨.proxy r, withObtained c r q, ?_, h.withObtained hq hbelow, ⟨rfl, rfl, rfl⟩,
          by rw [withObtained, length_set], htable, _, List.getElem?_set_self hlt, ?_⟩
        · have hrun : (getProxy r >>= fun child =>
              setProxy r { child with obtained := c.newest } >>= fun _ =>
              pure (.proxy r) : Run Read) c =
                .ok (.proxy r) { c with
                  proxies := c.proxies.set r { q with obtained := c.newest } } := by
            rw [bind_ok (getProxy_ok hq)]
            rfl
          rw [withObtained, hnewest]
          exact hrun
        · change q.obj = _
          rw [← hpath, ← hnewest, ← hversion]
  · simp only [if_neg htable]
    exact ⟨.value (index conf (c.newest, p.obj.2) key), c, rfl, h, .refl c, Nat.le_refl _, rfl,
      Bool.not_eq_true _ ▸ htable⟩

theorem metaIndex_walked (h : Inv conf c) (hconf : NoCacheKey conf) (hp : c.proxies[x]? = some p)
    (hcurrent : Current c x) (key : Name) (hfuel : c.proxies.length ≤ fuel) :
    (Below conf c c.newest 0 x → ∃ r c', metaIndex conf fuel x key c = .ok r c' ∧ Inv conf c' ∧
      SameVersions c c' ∧ c'.proxies.length ≥ c.proxies.length ∧
      Shows conf c' c.newest (p.obj.2 ++ [key]) r) ∧
    (¬Below conf c c.newest 0 x → ∀ c', getcobj (update conf fuel) x c =
      .error (.notExist p.obj.2) c' → metaIndex conf fuel x key c =
      .error (.notExist p.obj.2) c') := by
  obtain ⟨c₁, hw, hok, -⟩ := h.getcobj_walked hconf hp hcurrent hfuel
  refine ⟨fun hbelow => ?_, fun _ c' herror => bind_error herror⟩
  have hp₁ := hw.below x hbelow
  rw [hp, map_some] at hp₁
  have hnewest : c₁.rootVersion = c₁.newest :=
    (Inv.rootVersion_walked hw h).trans hw.versions.newest.symm
  have hx : Below conf c₁ c₁.newest 0 x := by
    rw [hw.versions.newest]
    exact (Inv.below_walked hw).2 hbelow
  obtain ⟨r, c', hrun, hinv, hversions, hlength, hshows⟩ := metaIndex_newest (Inv.walked hw h) hconf
    hnewest hx hp₁ key (by
      rw [hw.versions.newest]
      exact hok hbelow)
  refine ⟨r, c', hrun, hinv, hw.versions.trans hversions, ?_, ?_⟩
  · rw [← hw.length]
    exact hlength
  · rw [hw.versions.newest] at hshows
    exact hshows

theorem length_le_depth (c : Client) : c.proxies.length ≤ c.depth := by
  unfold Client.depth
  calc
    c.proxies.length ≤ c.proxies.length + 1 := Nat.le_succ _
    _ ≤ (c.proxies.length + 1) * (c.newest + 1) :=
      Nat.le_mul_of_pos_right _ (Nat.succ_pos c.newest)

section

variable (h : Inv conf c) (hconf : NoCacheKey conf) (hp : c.proxies[x]? = some p)
  (hcurrent : Current c x)
include h hconf hp hcurrent

/-- What an access does: nothing for a field of the proxy; otherwise, it reads the newest version,
or it raises an error. -/
theorem access_walked (key : Name) :
    (p.hasField key = true ∧ access conf x key c = .ok none c) ∨ p.hasField key = false ∧
      ((Below conf c c.newest 0 x ∧ ∃ r c', access conf x key c = .ok (some r) c' ∧ Inv conf c' ∧
        SameVersions c c' ∧ Shows conf c' c.newest (p.obj.2 ++ [key]) r) ∨
      (¬Below conf c c.newest 0 x ∧ ∃ c', Walked conf c c.newest 0 c c' ∧
        metaLen conf x c = .error (.notExist p.obj.2) c' ∧
        access conf x key c = .error (.notExist p.obj.2) c')) := by
  unfold access
  rw [bind_ok (getProxy_ok hp)]
  cases hfield : p.hasField key with
  | true => exact .inl ⟨rfl, rfl⟩
  | false =>
    refine .inr ⟨rfl, ?_⟩
    simp only [Bool.false_eq_true, if_false]
    rw [bind_ok (get_ok c)]
    obtain ⟨hok, herror⟩ := metaIndex_walked h hconf hp hcurrent key (length_le_depth c)
    by_cases hbelow : Below conf c c.newest 0 x
    · obtain ⟨r, c', hrun, hinv, hversions, -, hshows⟩ := hok hbelow
      exact .inl ⟨hbelow, r, c', bind_ok hrun, hinv, hversions, hshows⟩
    · obtain ⟨c', hw, -, hnot⟩ := h.getcobj_walked hconf hp hcurrent (length_le_depth c)
      refine .inr ⟨hbelow, c', hw, ?_, bind_error (herror hbelow c' (hnot hbelow))⟩
      unfold metaLen
      rw [bind_ok (get_ok c), hnot hbelow]

theorem metaLen_walked : ∃ c', Walked conf c c.newest 0 c c' ∧
      (Below conf c c.newest 0 x → metaLen conf x c = .ok (c.newest, p.obj.2) c') ∧
      (¬Below conf c c.newest 0 x → metaLen conf x c = .error (.notExist p.obj.2) c') := by
  obtain ⟨c', hw, hok, hnot⟩ := h.getcobj_walked hconf hp hcurrent (length_le_depth c)
  unfold metaLen
  rw [bind_ok (get_ok c)]
  exact ⟨c', hw, hok, hnot⟩

end

end Mtask.Sharedata.Proxies
