import Mtask.Datacenter.Service

/-!
# The waiters of the datacenter

An update can create, replace and complete whole subtrees. The waiters at its path are answered,
those above it fail, and those below it or of an update that removes a value are left as they are.
-/

namespace Mtask.Datacenter

open NestedMap Transition List

variable {ν : Type} [DecidableEq ν]

/-- The nested map of the updates, in their order. -/
def stored (updates : List (List (Scalar ν) × Option (Datum ν))) : Table ν :=
  updates.foldl (fun db u => put db u.1 u.2) empty

/-- The waiters in the tree at a path. -/
def queued : Branch ν → List (Scalar ν) → List ℕ
  | _, [] => []
  | db, key :: path =>
    match db key with
    | none => []
    | some (.queue q) => if path = [] then q else []
    | some (.branch children) => queued children path

/-- `QUERY` returns what is in the nested map of the updates; there is no waiter for what it would
return; and a waiter is answered only with what is stored at its path. -/
structure Serves (w : World ν) : Prop where
  query : ∀ path r, commandQuery w.database path = .ok r → r = read (stored w.updates) path
  waiting : ∀ path r, commandQuery w.database path = .ok r → truthy r = true →
    queued w.waitQueue path = []
  answered : ∀ n v, (n, some v) ∈ w.answers →
    ∃ path, w.asked[n]? = some path ∧ read (stored w.updates) path = some v

/-- An update does not store `false` at a single key, its value has nothing at the path of a waiter
below, and it does not remove a value from a table that a waiter waits for. -/
def Served (w : World ν) : Request ν → Prop
  | .update path value =>
    (path.length = 1 → value ≠ some (.leaf (.boolean false))) ∧
      (∀ rest, rest ≠ [] → queued w.waitQueue (path ++ rest) ≠ [] →
        truthy (value.bind fun d => d.get rest) = false) ∧
      (value = none → ∀ before, before <+: path → before ≠ path → queued w.waitQueue before = [])
  | .query _ | .wait _ => True

/-! ### The database -/

variable {path : List (Scalar ν)} {r : Option (Datum ν)}

omit [DecidableEq ν] in
theorem query_eq {d : Datum ν} (h : query d path = .ok r) : r = d.get path := by
  induction path generalizing d with
  | nil =>
    cases h
    exact (get_nil d).symm
  | cons key path ih =>
    rw [query] at h
    have hnil {l : Option (Datum ν)} (hl : l = none)
        (h : (if path = [] then .ok none else .error .index : Except Fault _) = .ok r) : r = l := by
      split at h <;> cases h
      exact hl.symm
    cases d with
    | node c =>
      rw [index] at h
      cases hkey : c key with
      | none =>
        rw [hkey] at h
        exact hnil (by rw [Nested.get, hkey, Option.bind_none]) h
      | some db =>
        rw [hkey] at h
        rw [Nested.get, hkey, Option.bind_some]
        exact ih h
    | leaf s =>
      have hindex : index (.leaf s) key = .ok (none : Option (Datum ν)) ∨
          ∃ fault, index (.leaf s) key = (.error fault : Except Fault (Option (Datum ν))) := by
        cases s with
        | string s =>
          cases key with
          | string key =>
            rw [index]
            split
            · exact .inr ⟨_, rfl⟩
            · exact .inl rfl
          | boolean | other => exact .inl rfl
        | boolean | other => exact .inr ⟨_, rfl⟩
      rcases hindex with hindex | ⟨fault, hindex⟩
      · rw [hindex] at h
        exact hnil rfl h
      · rw [hindex] at h
        cases h

variable {db : Table ν}

omit [DecidableEq ν] in
/-- `QUERY` reads the database, but for a `false` at a single key. -/
theorem commandQuery_eq (h : commandQuery db path = .ok r) :
    r = read db path ∨
      r = none ∧ ∃ key rest, path = key :: rest ∧ db key = some (.leaf (.boolean false)) := by
  cases path with
  | nil =>
    cases h
    exact .inl rfl
  | cons key path =>
    rw [commandQuery] at h
    rw [read_cons]
    cases hkey : db key with
    | none =>
      rw [hkey] at h
      cases h
      exact .inl rfl
    | some d =>
      rw [hkey] at h
      cases htrue : truthy (some d) with
      | true =>
        simp only [htrue, if_true] at h
        exact .inl (query_eq h)
      | false =>
        simp only [htrue, Bool.false_eq_true, if_false] at h
        cases h
        refine .inr ⟨rfl, key, path, rfl, ?_⟩
        rw [hkey]
        unfold truthy at htrue
        split at htrue
        next heq => cases heq
        next heq => exact heq
        · cases htrue

omit [DecidableEq ν] in
/-- What `QUERY` returns as a true value is in the database. -/
theorem commandQuery_true (h : commandQuery db path = .ok r) (htrue : truthy r = true) :
    r = read db path := by
  rcases commandQuery_eq h with h | ⟨rfl, -⟩
  · exact h
  · cases htrue

variable {value : Option (Datum ν)}

theorem update_eq {db' : Table ν} {ret : Option (Datum ν)}
    (h : update db path value = .ok (ret, db')) :
    path ≠ [] ∧ ret = read db path ∧ db' = put db path value := by
  induction path generalizing db db' ret with
  | nil => cases h
  | cons key path ih =>
    refine ⟨cons_ne_nil _ _, ?_⟩
    cases path with
    | nil =>
      cases h
      refine ⟨?_, rfl⟩
      cases hkey : db key <;> simp [hkey]
    | cons key' path =>
      have hsub {sub : Table ν} (hbelow : below (db key) = sub)
          (h : (update sub (key' :: path) value >>= fun p =>
            pure (p.1, Function.update db key (some (.node p.2)))) = .ok (ret, db')) :
          ret = read db (key :: key' :: path) ∧ db' = put db (key :: key' :: path) value := by
        cases hupdate : update sub (key' :: path) value with
        | error fault =>
          rw [hupdate] at h
          cases h
        | ok p =>
          rw [hupdate] at h
          obtain ⟨-, hret, hput⟩ := ih hupdate
          cases h
          rw [read_cons, put, hbelow, ← hput]
          refine ⟨?_, rfl⟩
          rw [hret, ← hbelow]
          exact read_below _ _ _
      rw [update] at h
      cases hkey : db key with
      | none =>
        rw [hkey] at h
        exact hsub (by rw [hkey]; rfl) h
      | some d =>
        rw [hkey] at h
        cases d with
        | leaf s => cases h
        | node sub => exact hsub (by rw [hkey]; rfl) h

/-! ### The tree of the waiters -/

theorem queued_setField_leaf (db : Branch ν) (key key' : Scalar ν) (q : Option (Waits ν))
    (path : List (Scalar ν)) :
    queued (setField db (.leaf key) q) (key' :: path) =
      if key' = key then queued (fun _ => q) (key' :: path) else queued db (key' :: path) := by
  unfold setField
  rw [queued, queued, queued]
  by_cases hkey : key' = key
  · subst hkey
    simp only [Function.update_self, if_true]
  · simp only [Function.update_of_ne hkey, if_neg hkey]

variable {key : Scalar ν} {children : Branch ν}

omit [DecidableEq ν] in
theorem queued_branch (db : Branch ν) (h : db key = some (.branch children))
    (path : List (Scalar ν)) : queued db (key :: path) = queued children path := by
  rw [queued, h]

/-- `wakeup` takes whole queues from the tree. -/
theorem queued_wakeup (db : Branch ν) (args : List (Datum ν)) (path : List (Scalar ν)) :
    queued (wakeup db args).waits path = queued db path ∨
      queued (wakeup db args).waits path = [] := by
  induction args generalizing db path with
  | nil => exact .inl rfl
  | cons key1 args ih =>
    rw [wakeup]
    cases hfield : field db key1 with
    | none => exact .inl rfl
    | some q =>
      cases key1 with
      | node c => cases hfield
      | leaf key =>
        change db key = some q at hfield
        cases path with
        | nil => exact .inl rfl
        | cons key' path =>
          cases q with
          | queue q =>
            have hremoved : queued (setField db (.leaf key) none) (key' :: path) =
                queued db (key' :: path) ∨
                queued (setField db (.leaf key) none) (key' :: path) = [] := by
              rw [queued_setField_leaf]
              split
              · exact .inr rfl
              · exact .inl rfl
            dsimp only
            split <;> exact hremoved
          | branch children =>
            dsimp only
            rw [queued_setField_leaf]
            split
            next heq =>
              subst heq
              rw [queued_branch db hfield]
              exact ih children path
            next => exact .inl rfl

theorem queued_wakeup_above (db : Branch ν) {before : List (Scalar ν)} (value : Datum ν)
    (h : before <+: path) : queued (wakeup db (path.map .leaf ++ [value])).waits before = [] := by
  induction path generalizing db before with
  | nil =>
    rw [prefix_nil.1 h]
    rfl
  | cons key path ih =>
    cases before with
    | nil => rfl
    | cons key' before =>
      obtain ⟨rfl, hrest⟩ := cons_prefix_cons.1 h
      rw [map_cons, cons_append, wakeup]
      cases hfield : field db (.leaf key') with
      | none =>
        change db key' = none at hfield
        dsimp only
        rw [queued, hfield]
      | some q =>
        change db key' = some q at hfield
        cases q with
        | queue q =>
          have hremoved : queued (setField db (.leaf key') none) (key' :: before) = [] := by
            rw [queued_setField_leaf, if_pos rfl]
            rfl
          dsimp only
          split <;> exact hremoved
        | branch children =>
          dsimp only
          rw [queued_setField_leaf, if_pos rfl]
          exact ih children hrest

variable {n : ℕ}

/-- `wakeup` returns the waiters at the path of the update. -/
theorem mem_queued_of_found (db : Branch ν) {value : Datum ν}
    (h : n ∈ (wakeup db (path.map .leaf ++ [value])).found) : n ∈ queued db path := by
  induction path generalizing db with
  | nil =>
    rw [map_nil, nil_append, wakeup] at h
    cases hfield : field db value with
    | none =>
      rw [hfield] at h
      cases h
    | some q =>
      rw [hfield] at h
      cases q <;> cases h
  | cons key path ih =>
    rw [map_cons, cons_append, wakeup] at h
    cases hfield : field db (.leaf key) with
    | none =>
      rw [hfield] at h
      cases h
    | some q =>
      rw [hfield] at h
      change db key = some q at hfield
      cases q with
      | queue q =>
        cases path with
        | nil =>
          rw [queued, hfield]
          exact h
        | cons key' path =>
          have hlength : (List.map Nested.leaf (key' :: path) ++ [value]).length ≠ 1 := by
            simp
          dsimp only at h
          rw [if_pos hlength] at h
          cases h
      | branch children =>
        rw [queued_branch db hfield]
        exact ih children h

omit [DecidableEq ν] in
theorem queued_none (path : List (Scalar ν)) : queued (fun _ => none) path = [] := by
  cases path <;> rfl

theorem queued_update (db : Branch ν) (key key' : Scalar ν) (q : Waits ν) (path : List (Scalar ν)) :
    queued (Function.update db key (some q)) (key' :: path) =
      if key' = key then queued (fun _ => some q) (key' :: path) else queued db (key' :: path) :=
  queued_setField_leaf db key key' (some q) path

theorem queued_into {db children children' : Branch ν} {key : Scalar ν} {path : List (Scalar ν)}
    {n : ℕ} (hchildren : ∀ p, queued children p = queued db (key :: p))
    (hadded : ∀ p, queued children' p =
      if p = path then queued children path ++ [n] else queued children p)
    (path' : List (Scalar ν)) :
    queued (Function.update db key (some (.branch children'))) path' =
      if path' = key :: path then queued db (key :: path) ++ [n] else queued db path' := by
  cases path' with
  | nil => rfl
  | cons key' path' =>
    rw [queued_update]
    by_cases hkey : key' = key
    · subst hkey
      rw [if_pos rfl, queued_branch _ rfl, hadded, hchildren, hchildren]
      simp only [List.cons.injEq, true_and]
    · rw [if_neg hkey, if_neg fun heq => hkey (List.cons.inj heq).1]

theorem queued_waitfor {db db' : Branch ν} (h : waitfor db path n = .ok db')
    (path' : List (Scalar ν)) :
    queued db' path' = if path' = path then queued db path ++ [n] else queued db path' := by
  induction path generalizing db db' path' with
  | nil => cases h
  | cons key path ih =>
    cases path with
    | nil =>
      have hlast {q : List ℕ} (hq : ∀ p, queued db (key :: p) = if p = [] then q else []) :
          queued (Function.update db key (some (.queue (q ++ [n])))) path' =
            if path' = [key] then queued db [key] ++ [n] else queued db path' := by
        cases path' with
        | nil => rfl
        | cons key' path' =>
          rw [queued_update]
          by_cases hkey : key' = key
          · subst hkey
            rw [if_pos rfl, hq, hq, queued, if_pos rfl]
            simp only [List.cons.injEq, true_and]
            split_ifs <;> rfl
          · rw [if_neg hkey, if_neg fun heq => hkey (List.cons.inj heq).1]
      rw [waitfor] at h
      cases hkey : db key with
      | none =>
        rw [hkey] at h
        cases h
        exact hlast fun p => by rw [queued, hkey, ite_self]
      | some q =>
        rw [hkey] at h
        cases q with
        | queue q =>
          cases h
          exact hlast fun p => by rw [queued, hkey]
        | branch children => cases h
    | cons key' path =>
      have hinto {children : Branch ν} (hchildren : ∀ p, queued children p = queued db (key :: p))
          (h : (waitfor children (key' :: path) n >>= fun q =>
            pure (Function.update db key (some (.branch q)))) = .ok db') :
          queued db' path' = if path' = key :: key' :: path
            then queued db (key :: key' :: path) ++ [n] else queued db path' := by
        cases hwait : waitfor children (key' :: path) n with
        | error fault =>
          rw [hwait] at h
          cases h
        | ok children' =>
          rw [hwait] at h
          cases h
          exact queued_into hchildren (ih hwait) path'
      rw [waitfor] at h
      cases hkey : db key with
      | none =>
        rw [hkey] at h
        exact hinto (fun p => by rw [queued_none, queued, hkey]) h
      | some q =>
        rw [hkey] at h
        cases q with
        | queue q => cases h
        | branch children => exact hinto (fun p => (queued_branch db hkey p).symm) h

/-! ### The steps -/

/-- The invariant: `asked` tells the waiters apart, and there is none for a true value. -/
structure Inv (w : World ν) : Prop where
  database : w.database = stored w.updates
  notFalse : ∀ key, w.database key ≠ some (.leaf (.boolean false))
  asked : ∀ path, ∀ n ∈ queued w.waitQueue path, w.asked[n]? = some path
  waiting : ∀ path, queued w.waitQueue path ≠ [] → truthy (read w.database path) = false
  answered : ∀ n v, (n, some v) ∈ w.answers →
    ∃ path, w.asked[n]? = some path ∧ read w.database path = some v

namespace Inv

variable {w w' : World ν}

theorem init : Inv (World.init : World ν) where
  database := rfl
  notFalse := nofun
  asked path n hn := by
    rw [show (World.init : World ν).waitQueue = fun _ => none from rfl, queued_none] at hn
    cases hn
  waiting path h := absurd (queued_none path) h
  answered := nofun

section

variable (h : Inv w)
include h

theorem isServing : Serves w where
  query path r hr := by
    rw [← h.database]
    rcases commandQuery_eq hr with hr | ⟨-, key, rest, -, hfalse⟩
    · exact hr
    · exact absurd hfalse (h.notFalse key)
  waiting path r hr htrue := by
    by_contra hne
    have hfalse := h.waiting path hne
    rw [← commandQuery_true hr htrue, htrue] at hfalse
    cases hfalse
  answered := by
    rw [← h.database]
    exact h.answered

/-- The database after an update: what is read at a waiter's path is no true value, if the waiter is
neither at nor above the path of the update. -/
theorem truthy_put {path' : List (Scalar ν)} (hpath : path ≠ [])
    (hserved : Served w (.update path value)) (hqueued : queued w.waitQueue path' ≠ [])
    (habove : ¬path' <+: path) : truthy (read (put w.database path value) path') = false := by
  by_cases hbelow : path <+: path'
  · obtain ⟨rest, rfl⟩ := hbelow
    have hrest : rest ≠ [] := by
      rintro rfl
      rw [append_nil] at habove
      exact habove (prefix_refl _)
    rw [read_put_append _ hpath]
    exact hserved.2.1 rest hrest hqueued
  · rw [read_put_other _ hbelow habove]
    exact h.waiting path' hqueued

theorem notFalse_put (hserved : Served w (.update path value)) (key : Scalar ν) :
    put w.database path value key ≠ some (.leaf (.boolean false)) := by
  cases path with
  | nil => exact h.notFalse key
  | cons k path =>
    by_cases hkey : key = k
    · subst hkey
      cases path with
      | nil =>
        rw [put, Function.update_self]
        exact hserved.1 rfl
      | cons k' path =>
        rw [put_cons]
        simp
    · rw [put_other _ _ _ hkey]
      exact h.notFalse key

theorem put {waits : Branch ν} {answers : List (ℕ × Option (Datum ν))} (hpath : path ≠ [])
    (hserved : Served w (.update path value))
    (hwaits : ∀ p, queued waits p = queued w.waitQueue p ∨ queued waits p = [])
    (hinitial : ∀ before, before <+: path →
      queued waits before = [] ∨ truthy (read (NestedMap.put w.database path value) before) = false)
    (hanswers : ∀ n v, (n, some v) ∈ answers → value = some v ∧ n ∈ queued w.waitQueue path) :
    Inv { w with
      database := NestedMap.put w.database path value
      waitQueue := waits
      answers
      updates := w.updates ++ [(path, value)] } where
  database := by
    rw [stored, foldl_append, h.database]
    rfl
  notFalse := h.notFalse_put hserved
  asked p n hn := by
    rcases hwaits p with heq | hnil
    · exact h.asked p n (heq ▸ hn)
    · rw [hnil] at hn
      cases hn
  waiting p hne := by
    have hqueued : queued w.waitQueue p ≠ [] := by
      rcases hwaits p with heq | hnil
      · exact heq ▸ hne
      · exact absurd hnil hne
    by_cases habove : p <+: path
    · exact (hinitial p habove).resolve_left hne
    · exact h.truthy_put hpath hserved hqueued habove
  answered n v hmem := by
    obtain ⟨hvalue, hn⟩ := hanswers n v hmem
    exact ⟨path, h.asked path n hn, (read_put_self _ hpath value).trans hvalue⟩

/-- Without a call of `wakeup` there was a true value at the path, or there is none now. -/
theorem put_quiet (hpath : path ≠ []) (hserved : Served w (.update path value))
    (hquiet : truthy (read w.database path) = true ∨ value = none) : Inv { w with
      database := NestedMap.put w.database path value
      answers := []
      updates := w.updates ++ [(path, value)] } := by
  have hnone {p : List (Scalar ν)} (htrue : truthy (read w.database p) = true) :
      queued w.waitQueue p = [] := by
    by_contra hne
    rw [h.waiting p hne] at htrue
    cases htrue
  refine h.put hpath hserved (fun _ => .inl rfl) (fun before hbefore => ?_) nofun
  obtain ⟨rest, rfl⟩ := hbefore
  rcases hquiet with htrue | rfl
  · refine .inl ?_
    by_cases hrest : rest = []
    · subst hrest
      rw [append_nil] at htrue
      exact hnone htrue
    by_cases hbefore : before = []
    · subst hbefore
      rfl
    cases hread : read w.database (before ++ rest) with
    | none =>
      rw [hread] at htrue
      cases htrue
    | some d =>
      obtain ⟨c, hc⟩ := read_of_append hbefore hrest hread
      exact hnone (by rw [hc]; rfl)
  · by_cases hrest : rest = []
    · subst hrest
      rw [append_nil, read_put_self _ (by rwa [append_nil] at hpath)]
      exact .inr rfl
    · exact .inl (hserved.2.2 rfl before (prefix_append _ _) fun heq =>
        hrest (self_eq_append_right.1 heq))

theorem update (hserved : Served w (.update path value)) (hstep : w.update path value = .ok w') :
    Inv w' := by
  rw [World.update] at hstep
  cases hupdate : Datacenter.update w.database path value with
  | error fault =>
    rw [hupdate] at hstep
    cases hstep
  | ok p =>
    obtain ⟨ret, database⟩ := p
    rw [hupdate] at hstep
    obtain ⟨hpath, rfl, rfl⟩ := update_eq hupdate
    cases hstep
    unfold World.notify
    split
    next value _ =>
      refine h.put hpath hserved (queued_wakeup _ _)
        (fun before hbefore => .inl (queued_wakeup_above _ value hbefore)) fun n v hmem => ?_
      rcases mem_append.1 hmem with hmem | hmem
      · obtain ⟨m, -, heq⟩ := mem_map.1 hmem
        cases heq
      · obtain ⟨m, hm, heq⟩ := mem_map.1 hmem
        cases heq
        exact ⟨rfl, mem_queued_of_found _ hm⟩
    next hnot =>
      refine h.put_quiet hpath hserved ?_
      by_contra hcases
      obtain ⟨htrue, hvalue⟩ := not_or.1 hcases
      obtain ⟨v, hv⟩ := Option.ne_none_iff_exists'.1 hvalue
      exact hnot v (Bool.eq_false_iff.2 htrue) hv

theorem wait (hstep : w.wait path = .ok w') : Inv w' := by
  have hasked {n : ℕ} {p : List (Scalar ν)} (hn : w.asked[n]? = some p) :
      (w.asked ++ [path])[n]? = some p := by
    rw [List.getElem?_append_left (List.getElem?_eq_some_iff.1 hn).1, hn]
  rw [World.wait] at hstep
  cases hquery : commandQuery w.database path with
  | error fault =>
    rw [hquery] at hstep
    cases hstep
  | ok ret =>
    rw [hquery] at hstep
    cases htrue : truthy ret with
    | true =>
      obtain rfl := Except.ok.inj ((if_pos htrue).symm.trans hstep)
      refine ⟨h.database, h.notFalse, fun p n hn => hasked (h.asked p n hn), h.waiting,
        fun n v hmem => ?_⟩
      cases mem_singleton.1 hmem
      exact ⟨path, getElem?_concat_length, (commandQuery_true hquery htrue).symm⟩
    | false =>
      have hstep := (if_neg (Bool.eq_false_iff.1 htrue)).symm.trans hstep
      cases hwait : waitfor w.waitQueue path w.asked.length with
      | error fault =>
        rw [hwait] at hstep
        cases hstep
      | ok waitQueue =>
        rw [hwait] at hstep
        cases hstep
        have hqueued := queued_waitfor hwait
        refine ⟨h.database, h.notFalse, fun p n hn => ?_, fun p hne => ?_, nofun⟩
        · rw [hqueued] at hn
          split at hn
          next heq =>
            subst heq
            rcases mem_append.1 hn with hn | hn
            · exact hasked (h.asked _ n hn)
            · rw [mem_singleton.1 hn]
              exact getElem?_concat_length
          next => exact hasked (h.asked p n hn)
        · rw [hqueued] at hne
          split at hne
          next heq =>
            subst heq
            rcases commandQuery_eq hquery with hret | ⟨-, key, rest, rfl, hfalse⟩
            · rw [← hret]
              exact htrue
            · exact absurd hfalse (h.notFalse key)
          next => exact h.waiting p hne

theorem step {request : Request ν} (hserved : Served w request)
    (hstep : Datacenter.step w request = .ok w') : Inv w' := by
  cases request with
  | update path value => exact h.update hserved hstep
  | query path =>
    cases hquery : commandQuery w.database path with
    | error fault =>
      simp only [Datacenter.step, hquery] at hstep
      cases hstep
    | ok r =>
      simp only [Datacenter.step, hquery] at hstep
      cases hstep
      exact { h with answered := nofun }
  | wait path => exact h.wait hstep

end

end Inv

/-- **The datacenter serves its waiters** in every run of updates that store no `false` at a single
key, no table with a true value where a waiter waits below, and no `nil` below a waiter. -/
theorem serves {w : World ν} (h : Reaches step Served .init w) : Serves w :=
  (h.invariant Inv.init fun _ _ _ hinv hok hstep => hinv.step hok hstep).isServing

/-- A waiter below a table gets the value that is stored at its path. -/
theorem serves_update : ∃ w : World ℕ, exec step .init
    [.wait [.string "key", .string "foobar"],
      .update [.string "key", .string "foobar"] (some (.leaf (.string "bingo")))] = .ok w ∧
    w.answers = [(0, some (.leaf (.string "bingo")))] ∧ Serves w := by
  have hpermitted : Permitted step Served (World.init : World ℕ)
      [.wait [.string "key", .string "foobar"],
        .update [.string "key", .string "foobar"] (some (.leaf (.string "bingo")))] := by
    refine .cons trivial rfl (.cons ⟨nofun, fun rest hrest _ => ?_, nofun⟩ rfl trivial)
    obtain ⟨key, rest, rfl⟩ := List.exists_cons_of_ne_nil hrest
    rfl
  have hrun : exec step (World.init : World ℕ)
      [.wait [.string "key", .string "foobar"],
        .update [.string "key", .string "foobar"] (some (.leaf (.string "bingo")))] = .ok _ := rfl
  exact ⟨_, hrun, rfl, serves (hpermitted.reaches hrun)⟩

/-- A table stored at the first key of a waiter's path does not wake it up. -/
theorem waiter_unanswered : ¬∀ w : World ℕ, Reaches step (fun _ _ => True) .init w → Serves w := by
  intro h
  have hrun : exec step (World.init : World ℕ)
      [.wait [.string "a", .string "b"],
        .update [.string "a"] (some (.node fun key =>
          if key = .string "b" then some (.leaf (.other 5)) else none))] = .ok _ := rfl
  have hserves := h _ (reaches_of_exec hrun fun _ _ _ => trivial)
  have hnil := hserves.waiting [.string "a", .string "b"] (some (.leaf (.other 5))) rfl rfl
  exact nomatch hnil

end Mtask.Datacenter
