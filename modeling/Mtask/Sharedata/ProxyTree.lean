import Mtask.Sharedata.Proxies

/-!
# An update of the proxies

The function `update` of `corelib.lua` goes through the proxies below the root proxy. It gives those
whose path is that of a table the new version, and it removes the others from the caches of those
above them.
-/

namespace Mtask.Sharedata.Proxies

open Lua LuaSeri List

/-! ### Runs -/

section Runs

variable {α β : Type} {m : Run α} {f : α → Run β} {c c' : Client} {a : α}

theorem bind_ok (h : m c = .ok a c') : (m >>= f) c = f a c' := by
  change EStateM.bind m f c = _
  rw [EStateM.bind, h]

theorem bind_error {fault : Fault} (h : m c = .error fault c') : (m >>= f) c = .error fault c' := by
  change EStateM.bind m f c = _
  rw [EStateM.bind, h]

theorem get_ok (c : Client) : (get : Run Client) c = .ok c c := rfl

theorem getProxy_ok {x : ℕ} {p : Proxy} (h : c.proxies[x]? = some p) : getProxy x c = .ok p c := by
  rw [getProxy, bind_ok (get_ok c), h]
  rfl

end Runs

/-! ### The tree -/

variable {conf : ℕ → Value Rawlen} {c s s' : Client} {n x y : ℕ} {p : Proxy}

def Proxy.children (p : Proxy) : List (Name × ℕ) := p.cache.getD []

/-- The version has a table at the path. -/
def Has (conf : ℕ → Value Rawlen) (n : ℕ) (path : List Name) : Bool :=
  isTable (entryAt (conf n) path)

/-- The caches make a tree: a child is younger, and its path is one key longer. -/
structure Shaped (c : Client) : Prop where
  child : ∀ (x : ℕ) (p : Proxy) (k : Name) (v : ℕ), c.proxies[x]? = some p →
    (k, v) ∈ p.children →
    x < v ∧ ∃ q : Proxy, c.proxies[v]? = some q ∧ q.obj.2 = p.obj.2 ++ [k] ∧ q.parent = some x
  keys : ∀ (x : ℕ) (p : Proxy), c.proxies[x]? = some p → (p.children.map Prod.fst).Nodup

/-- The proxies below `x` to which all keys lead to tables. -/
inductive Below (conf : ℕ → Value Rawlen) (c : Client) (n x : ℕ) : ℕ → Prop
  | refl : Below conf c n x x
  | child {y v : ℕ} {p : Proxy} {k : Name} (h : Below conf c n x y) (hp : c.proxies[y]? = some p)
      (hk : (k, v) ∈ p.children) (htable : Has conf n (p.obj.2 ++ [k])) : Below conf c n x v

/-- A proxy with another version. -/
def moved (conf : ℕ → Value Rawlen) (n : ℕ) (p : Proxy) : Proxy :=
  { p with
    obj := (n, p.obj.2)
    gcobj := n
    cache := p.cache.map (·.filter fun e => Has conf n (p.obj.2 ++ [e.1])) }

namespace Below

theorem le (hshape : Shaped c) (h : Below conf c n x y) : x ≤ y := by
  induction h with
  | refl => exact Nat.le_refl x
  | child _ hp hk _ ih => exact Nat.le_trans ih (hshape.child _ _ _ _ hp hk).1.le

theorem isPrefix (hshape : Shaped c) (h : Below conf c n x y) (hp : c.proxies[x]? = some p) :
    ∃ q : Proxy, c.proxies[y]? = some q ∧ p.obj.2 <+: q.obj.2 := by
  induction h with
  | refl => exact ⟨p, hp, prefix_rfl⟩
  | child _ hp' hk _ ih =>
    obtain ⟨q, hq, hinit⟩ := ih
    rw [hq] at hp'
    cases hp'
    obtain ⟨-, q', hq', hpath, -⟩ := hshape.child _ _ _ _ hq hk
    exact ⟨q', hq', hpath ▸ hinit.trans (prefix_append _ _)⟩

theorem disjoint (hshape : Shaped c) (hp : c.proxies[x]? = some p) {k k' : Name} {v v' : ℕ}
    (hk : (k, v) ∈ p.children) (hk' : (k', v') ∈ p.children) (h : Below conf c n v y)
    (h' : Below conf c n v' y) : k = k' := by
  obtain ⟨-, q, hq, hpath, -⟩ := hshape.child x p k v hp hk
  obtain ⟨-, q', hq', hpath', -⟩ := hshape.child x p k' v' hp hk'
  obtain ⟨r, hr, hinit⟩ := h.isPrefix hshape hq
  obtain ⟨r', hr', hinit'⟩ := h'.isPrefix hshape hq'
  rw [hr] at hr'
  cases hr'
  have hle : q.obj.2.length ≤ q'.obj.2.length := by rw [hpath, hpath']; simp
  have heq := (prefix_of_prefix_length_le hinit hinit' hle).eq_of_length
    (by rw [hpath, hpath']; simp)
  rw [hpath, hpath'] at heq
  exact (List.cons.inj (append_cancel_left heq)).1

theorem cases_child (hp : c.proxies[x]? = some p) (h : Below conf c n x y) :
    y = x ∨ ∃ k v, (k, v) ∈ p.children ∧ Has conf n (p.obj.2 ++ [k]) ∧ Below conf c n v y := by
  induction h with
  | refl => exact .inl rfl
  | child _ hp' hk htable ih =>
    right
    rcases ih with rfl | ⟨k, v, hkv, hv, hbelow⟩
    · rw [hp] at hp'
      cases hp'
      exact ⟨_, _, hk, htable, .refl⟩
    · exact ⟨k, v, hkv, hv, hbelow.child hp' hk htable⟩

theorem of_child (hp : c.proxies[x]? = some p) {k : Name} {v : ℕ} (hk : (k, v) ∈ p.children)
    (htable : Has conf n (p.obj.2 ++ [k])) (h : Below conf c n v y) : Below conf c n x y := by
  induction h with
  | refl => exact .child .refl hp hk htable
  | child _ hp' hk' htable' ih => exact .child ih hp' hk' htable'

end Below

/-! ### The walk -/

/-- The versions are as before. -/
structure SameVersions (s s' : Client) : Prop where
  update : s'.update = s.update
  newest : s'.newest = s.newest
  marked : s'.marked = s.marked

namespace SameVersions

theorem refl (s : Client) : SameVersions s s := ⟨rfl, rfl, rfl⟩

theorem trans {s'' : Client} (h : SameVersions s s') (h' : SameVersions s' s'') :
    SameVersions s s'' :=
  ⟨h'.update.trans h.update, h'.newest.trans h.newest, h'.marked.trans h.marked⟩

theorem isdirty (h : SameVersions s s') (n : ℕ) : s'.isdirty n = s.isdirty n := by
  unfold Client.isdirty
  rw [h.newest, h.marked]

end SameVersions

/-- There is no update for the version. -/
def Final (s : Client) (n : ℕ) : Prop := s.isdirty n = true → s.update n = none

theorem Final.congr (h : Final s n) (hsame : SameVersions s s') : Final s' n := by
  intro hdirty
  rw [hsame.update]
  exact h (by rwa [← hsame.isdirty])

theorem getcobj_final {update : ℕ → Pointer → ℕ → Run Unit} (hp : c.proxies[x]? = some p)
    (hfinal : c.isdirty p.obj.1 = true → c.update p.gcobj = none) :
    getcobj update x c = .ok p.obj c := by
  unfold getcobj
  rw [bind_ok (getProxy_ok hp), bind_ok (get_ok c)]
  by_cases hdirty : c.isdirty p.obj.1 = true
  · rw [if_pos hdirty, hfinal hdirty]
    rfl
  · rw [if_neg hdirty]
    rfl

theorem getcache_some {update : ℕ → Pointer → ℕ → Run Unit} (hp : c.proxies[x]? = some p)
    {children : List (Name × ℕ)} (hcache : p.cache = some children) :
    getcache conf update x c = .ok (.table children) c := by
  unfold getcache
  rw [bind_ok (getProxy_ok hp), hcache]
  rfl

/-- No version has the key `__cache`. -/
def NoCacheKey (conf : ℕ → Value Rawlen) : Prop :=
  ∀ n path, entryAt (conf n) (path ++ [cacheKey]) = .nil

theorem getcache_none {update : ℕ → Pointer → ℕ → Run Unit} (hconf : NoCacheKey conf)
    (hp : c.proxies[x]? = some p) (hcache : p.cache = none)
    (hfinal : c.isdirty p.obj.1 = true → c.update p.gcobj = none) :
    getcache conf update x c = .ok (.value .nil) c := by
  unfold getcache
  rw [bind_ok (getProxy_ok hp), hcache]
  dsimp only
  rw [bind_ok (getcobj_final hp hfinal), index, hconf]
  rfl

/-- The proxies below `x` are moved, and the others are as before. -/
structure Walked (conf : ℕ → Value Rawlen) (c : Client) (n x : ℕ) (s s' : Client) : Prop where
  versions : SameVersions s s'
  length : s'.proxies.length = s.proxies.length
  below : ∀ y, Below conf c n x y → s'.proxies[y]? = (c.proxies[y]?).map (moved conf n)
  other : ∀ y, ¬Below conf c n x y → s'.proxies[y]? = s.proxies[y]?

section Walk

variable (hshape : Shaped c) (hp : c.proxies[x]? = some p)

/-- The children of which the keys lead to tables. -/
def kept (conf : ℕ → Value Rawlen) (n : ℕ) (path : List Name) (l : List (Name × ℕ)) :
    List (Name × ℕ) :=
  l.filter fun e => Has conf n (path ++ [e.1])

/-- The proxy `x` in the loop over its children: those of `done` have been visited. -/
def inLoop (conf : ℕ → Value Rawlen) (n : ℕ) (p : Proxy) (done rest : List (Name × ℕ)) : Proxy :=
  { p with obj := (n, p.obj.2), gcobj := n, cache := some (kept conf n p.obj.2 done ++ rest) }

/-- A proxy below one of the children. -/
def BelowSome (conf : ℕ → Value Rawlen) (c : Client) (n : ℕ) (path : List Name)
    (l : List (Name × ℕ)) (y : ℕ) : Prop :=
  ∃ k v, (k, v) ∈ l ∧ Has conf n (path ++ [k]) ∧ Below conf c n v y

include hshape hp

theorem walkChildren {update : ℕ → Pointer → ℕ → Run Unit}
    (hupdate : ∀ k v q s, (k, v) ∈ p.children → c.proxies[v]? = some q →
      (∀ y, Below conf c n v y → s.proxies[y]? = c.proxies[y]?) → Final s n →
      ∃ s', update v (n, q.obj.2) n s = .ok () s' ∧ Walked conf c n v s s')
    {done rest : List (Name × ℕ)} (hcache : p.cache = some (done ++ rest)) {s : Client}
    (hself : s.proxies[x]? = some (inLoop conf n p done rest)) (hfinal : Final s n)
    (hrest : ∀ y, BelowSome conf c n p.obj.2 rest y → s.proxies[y]? = c.proxies[y]?) :
    ∃ s', updateChildren conf update x (n, p.obj.2) n rest s = .ok () s' ∧ SameVersions s s' ∧
      s'.proxies.length = s.proxies.length ∧
      s'.proxies[x]? = some (inLoop conf n p (done ++ rest) []) ∧
      (∀ y, BelowSome conf c n p.obj.2 rest y →
        s'.proxies[y]? = (c.proxies[y]?).map (moved conf n)) ∧
      ∀ y ≠ x, ¬BelowSome conf c n p.obj.2 rest y → s'.proxies[y]? = s.proxies[y]? := by
  induction rest generalizing done s with
  | nil =>
    refine ⟨s, rfl, .refl s, rfl, by rw [hself, append_nil], ?_, fun y _ _ => rfl⟩
    rintro y ⟨k, v, hmem, -⟩
    cases hmem
  | cons e rest ih =>
    obtain ⟨k, v⟩ := e
    have hchildren : p.children = done ++ (k, v) :: rest := by rw [Proxy.children, hcache]; rfl
    have hmem : (k, v) ∈ p.children := by rw [hchildren]; simp
    obtain ⟨hlt, q, hq, hpath, -⟩ := hshape.child x p k v hp hmem
    have hcache' : p.cache = some ((done ++ [(k, v)]) ++ rest) := by rw [hcache]; simp
    -- the keys of the other children are different ones
    have hkeys := hshape.keys x p hp
    rw [hchildren, map_append, map_cons] at hkeys
    have hfresh : k ∉ done.map Prod.fst ∧ k ∉ rest.map Prod.fst := by
      have hnodup := nodup_append.1 hkeys
      exact ⟨fun h => hnodup.2.2 k h k mem_cons_self rfl, (nodup_cons.1 hnodup.2.1).1⟩
    have hvisited : (k, v) ∈ (inLoop conf n p done ((k, v) :: rest)).cache.getD [] :=
      mem_append_right _ mem_cons_self
    have hkept : kept conf n p.obj.2 (done ++ [(k, v)]) = kept conf n p.obj.2 done ++
        if Has conf n (p.obj.2 ++ [k]) then [(k, v)] else [] := by
      unfold kept
      rw [filter_append, filter_singleton, Bool.cond_eq_ite]
    have hold {k' : Name} {v' : ℕ} (hmem' : (k', v') ∈ rest) : (k', v') ∈ p.children := by
      rw [hchildren]
      exact mem_append_right _ (mem_cons_of_mem _ hmem')
    have hmore {y : ℕ} (hy : BelowSome conf c n p.obj.2 rest y) :
        BelowSome conf c n p.obj.2 ((k, v) :: rest) y := by
      obtain ⟨k', v', h', h''⟩ := hy
      exact ⟨k', v', mem_cons_of_mem _ h', h''⟩
    rw [updateChildren, bind_ok (getProxy_ok hself), if_pos hvisited]
    by_cases htable : Has conf n (p.obj.2 ++ [k])
    · have hself' : inLoop conf n p done ((k, v) :: rest) =
          inLoop conf n p (done ++ [(k, v)]) rest := by
        rw [inLoop, inLoop, hkept, if_pos htable, append_assoc]
        rfl
      obtain ⟨s₁, hs₁, hwalked⟩ := hupdate k v q s hmem hq
        (fun y hy => hrest y ⟨k, v, mem_cons_self, htable, hy⟩) hfinal
      rw [hpath] at hs₁
      have hx : ¬Below conf c n v x := fun h => absurd (h.le hshape) (Nat.not_le.2 hlt)
      have hother {y : ℕ} (hy : BelowSome conf c n p.obj.2 rest y) : ¬Below conf c n v y := by
        obtain ⟨k', v', hmem', -, hbelow⟩ := hy
        intro h
        have heq := Below.disjoint hshape hp hmem (hold hmem') h hbelow
        exact hfresh.2 (heq ▸ mem_map_of_mem (f := Prod.fst) hmem')
      obtain ⟨s', hs', hversions, hlength, hend, hbelow, hsame⟩ := ih hcache'
        (by rw [hwalked.other x hx, hself, hself']) (hfinal.congr hwalked.versions)
        fun y hy => by rw [hwalked.other y (hother hy),
          hrest y (hmore hy)]
      refine ⟨s', ?_, hwalked.versions.trans hversions, hlength.trans hwalked.length, ?_,
        fun y hy => ?_, fun y hyx hy => ?_⟩
      · rw [if_pos (by exact htable), bind_ok hs₁]
        exact hs'
      · rw [hend]
        simp
      · by_cases hy' : BelowSome conf c n p.obj.2 rest y
        · exact hbelow y hy'
        · obtain ⟨k', v', hmem', htable', hbelow'⟩ := hy
          rcases mem_cons.1 hmem' with heq | hmem'
          · cases heq
            have hyx : y ≠ x := fun h => hx (h ▸ hbelow')
            rw [hsame y hyx hy', hwalked.below y hbelow']
          · exact absurd ⟨k', v', hmem', htable', hbelow'⟩ hy'
      · rw [hsame y hyx fun hy' => hy (hmore hy'),
          hwalked.other y fun h => hy ⟨k, v, mem_cons_self, htable, h⟩]
    · have hself' : { inLoop conf n p done ((k, v) :: rest) with
            cache := (inLoop conf n p done ((k, v) :: rest)).cache.map (·.filter (·.1 ≠ k)) } =
          inLoop conf n p (done ++ [(k, v)]) rest := by
        have hout {l : List (Name × ℕ)} (hl : k ∉ l.map Prod.fst) :
            l.filter (fun e => decide (e.1 ≠ k)) = l := by
          refine filter_eq_self.2 fun e he => decide_eq_true fun heq => hl ?_
          exact heq ▸ mem_map_of_mem (f := Prod.fst) he
        have hdone : k ∉ (kept conf n p.obj.2 done).map Prod.fst := fun h =>
          hfresh.1 ((filter_sublist.map Prod.fst).subset h)
        have hfilter : (kept conf n p.obj.2 done ++ (k, v) :: rest).filter
            (fun e => decide (e.1 ≠ k)) = kept conf n p.obj.2 done ++ rest := by
          rw [filter_append, hout hdone, filter_cons_of_neg (by simp), hout hfresh.2]
        rw [inLoop, inLoop, hkept, if_neg htable, append_nil, Option.map_some, hfilter]
      have hset := getElem?_set_self (a := inLoop conf n p (done ++ [(k, v)]) rest)
        (List.getElem?_eq_some_iff.1 hself).1
      have hne {y : ℕ} (hyx : y ≠ x) :
          (s.proxies.set x (inLoop conf n p (done ++ [(k, v)]) rest))[y]? = s.proxies[y]? :=
        getElem?_set_ne (Ne.symm hyx)
      have hbelow_ne {y : ℕ} (hy : BelowSome conf c n p.obj.2 rest y) : y ≠ x := by
        obtain ⟨k', v', hmem', -, hbelow⟩ := hy
        have hlt' := (hshape.child x p k' v' hp (hold hmem')).1
        exact Nat.ne_of_gt (Nat.lt_of_lt_of_le hlt' (hbelow.le hshape))
      obtain ⟨s', hs', hversions, hlength, hend, hbelow, hsame⟩ := ih hcache'
        (s := { s with proxies := s.proxies.set x (inLoop conf n p (done ++ [(k, v)]) rest) })
        hset hfinal fun y hy => (hne (hbelow_ne hy)).trans (hrest y (hmore hy))
      refine ⟨s', ?_, ⟨hversions.update, hversions.newest, hversions.marked⟩,
        hlength.trans length_set, ?_, fun y hy => ?_, fun y hyx hy => ?_⟩
      · rw [if_neg (by exact htable), hself']
        exact (bind_ok rfl).trans hs'
      · rw [hend]
        simp
      · refine hbelow y ?_
        obtain ⟨k', v', hmem', htable', hbelow'⟩ := hy
        rcases mem_cons.1 hmem' with heq | hmem'
        · cases heq
          exact absurd htable' htable
        · exact ⟨k', v', hmem', htable', hbelow'⟩
      · rw [hsame y hyx fun hy' => hy (hmore hy')]
        exact hne hyx

end Walk

/-- What an update changes: the proxies below `x` get the version if their paths are those of
tables, and the others are not below it any more. -/
theorem walk (hconf : NoCacheKey conf) (hshape : Shaped c) {fuel : ℕ}
    (hp : c.proxies[x]? = some p) (hfuel : c.proxies.length ≤ x + fuel) (hfinal : Final s n)
    (hsame : ∀ y, Below conf c n x y → s.proxies[y]? = c.proxies[y]?) :
    ∃ s', update conf fuel x (n, p.obj.2) n s = .ok () s' ∧ Walked conf c n x s s' := by
  induction fuel generalizing x p s with
  | zero =>
    have hlt := (List.getElem?_eq_some_iff.1 hp).1
    omega
  | succ fuel ih =>
    have hself : s.proxies[x]? = some p := (hsame x .refl).trans hp
    have hlt := (List.getElem?_eq_some_iff.1 hself).1
    let p₁ : Proxy := { p with obj := (n, p.obj.2), gcobj := n }
    let s₁ : Client := { s with proxies := s.proxies.set x p₁ }
    have hself₁ : s₁.proxies[x]? = some p₁ := getElem?_set_self hlt
    have hne₁ {y : ℕ} (hy : y ≠ x) : s₁.proxies[y]? = s.proxies[y]? :=
      getElem?_set_ne (Ne.symm hy)
    have hfinal₁ : Final s₁ n := hfinal
    have hset : setProxy x p₁ s = .ok () s₁ := rfl
    rw [update, bind_ok (getProxy_ok hself), bind_ok hset]
    cases hcache : p.cache with
    | none =>
      refine ⟨s₁, ?_, ⟨⟨rfl, rfl, rfl⟩, length_set, fun y hy => ?_, fun y hy => ?_⟩⟩
      · rw [bind_ok (getcache_none hconf hself₁ hcache hfinal₁)]
        rfl
      · rcases hy.cases_child hp with rfl | ⟨k, v, hk, -⟩
        · rw [hself₁, hp, Option.map_some, moved, hcache]
          simp [p₁, hcache]
        · rw [Proxy.children, hcache] at hk
          cases hk
      · refine hne₁ ?_
        rintro rfl
        exact hy .refl
    | some children =>
      have hchildren : p.children = children := by rw [Proxy.children, hcache]; rfl
      have hagree (y : ℕ) (hy : BelowSome conf c n p.obj.2 children y) :
          s₁.proxies[y]? = c.proxies[y]? := by
        obtain ⟨k, v, hk, htable, hv⟩ := hy
        have hk' : (k, v) ∈ p.children := hchildren ▸ hk
        have hlt' := (hshape.child x p k v hp hk').1
        have hle := hv.le hshape
        rw [hne₁ (by omega), hsame y (hv.of_child hp hk' htable)]
      have hself₂ : s₁.proxies[x]? = some (inLoop conf n p [] children) := by
        rw [hself₁]
        simp [inLoop, kept, p₁, hcache]
      have hdepth (k : Name) (v : ℕ) (hk : (k, v) ∈ p.children) : c.proxies.length ≤ v + fuel := by
        have := (hshape.child x p k v hp hk).1
        omega
      have hnone : p.cache = some ([] ++ children) := hcache
      obtain ⟨s', hs', hversions, hlength, hend, hbelow, hother⟩ := walkChildren hshape hp
        (fun k v q s hk hq hsame hfinal => ih hq (hdepth k v hk) hfinal hsame) hnone hself₂ hfinal₁
        hagree
      refine ⟨s', ?_, ⟨⟨hversions.update, hversions.newest, hversions.marked⟩,
        hlength.trans length_set, fun y hy => ?_, fun y hy => ?_⟩⟩
      · rw [bind_ok (getcache_some hself₁ hcache)]
        exact hs'
      · rcases hy.cases_child hp with rfl | ⟨k, v, hk, htable, hy⟩
        · rw [hend, hp, Option.map_some, inLoop, moved, hcache, append_nil]
          rfl
        · exact hbelow y ⟨k, v, hchildren ▸ hk, htable, hy⟩
      · have hyx : y ≠ x := by
          rintro rfl
          exact hy .refl
        refine (hother y hyx ?_).trans (hne₁ hyx)
        rintro ⟨k, v, hk, htable, hv⟩
        exact hy (hv.of_child hp (hchildren ▸ hk) htable)

end Mtask.Sharedata.Proxies
