import Mtask.GlobalNames.Agreement

/-!
# Queries for global names

`harbor.QUERYNAME` keeps the response closure of a name that the slave does not know, and asks
nobody: the closure is called when the master tells the slave the name, which it does when the name
is registered, and when a slave asks with `'Q'`. A slave that joins later is not told the names that
the master knows already.
-/

namespace Mtask.GlobalNames

open Function (update update_of_ne)

variable {address : ℕ} {name : Name}

namespace Slave

variable {s : Slave} {m : Name}

theorem queryname_responseName (name : Name) :
    (s.responseName name).queryname = update s.queryname name [] := by
  rw [responseName]
  split <;> rfl

/-- Nobody waits for a name that the slave has learned. -/
theorem queryname_learn (h : (s.learn name address).queryname m ≠ []) :
    m ≠ name ∧ s.queryname m ≠ [] := by
  have heq : (s.learn name address).queryname = update s.queryname name [] := by
    rw [learn]
    split_ifs <;> simp [queryname_responseName]
  rw [heq] at h
  by_cases hm : m = name
  · subst hm
    simp at h
  · rw [update_of_ne hm] at h
    exact ⟨hm, h⟩

/-- A slave waits for a name since before a request, or because it was asked for the name and did
not know it. -/
theorem queryname_request {r : Request} (h : (s.request r).1.queryname m ≠ []) :
    s.queryname m ≠ [] ∨
      ∃ resp, r = .queryName m resp ∧ m.head? ≠ some 46 ∧ s.globalname m = none := by
  cases r with
  | register name handle =>
    left
    by_cases hname : s.globalname name = none
    · have heq : (s.request (.register name handle)).1.queryname =
          update s.queryname name [] := by
        simp only [request, register, hname, ne_eq, not_true_eq_false, if_false]
        split_ifs <;> simp [queryname_responseName]
      rw [heq] at h
      by_cases hm : m = name
      · subst hm
        simp at h
      · rwa [update_of_ne hm] at h
    · simpa [request, register, hname] using h
  | queryName name resp =>
    simp only [request, queryName] at h
    split_ifs at h with hlocal
    · exact Or.inl h
    · split at h
      · exact Or.inl h
      · next hnone =>
        by_cases hm : m = name
        · subst hm
          exact Or.inr ⟨resp, rfl, hlocal, hnone⟩
        · change update _ _ _ _ ≠ _ at h
          rw [update_of_ne hm] at h
          exact Or.inl h
  | monitorHarbor arg =>
    left
    simp only [request, monitorHarbor] at h
    split at h
    · exact h
    · split_ifs at h <;> exact h
  | getReady => exact Or.inl h

end Slave

namespace Cluster

variable {ι : Type*}

/-- The slave `i` will be told a name: the package is in flight, or its query for it. -/
def OnItsWay (c : Cluster ι) (i : ι) (name : Name) : Prop :=
  (∃ address, .name name address ∈ c.toSlave i) ∨ .query name ∈ c.toMaster i

/-- A slave waits for no name that it will not be told: a connected slave is asked for a name that
it does not know while the master does not know it either, or while it is on its way; and when the
master reads the handshake of a slave, it knows no name that this slave waits for and has not
queried. -/
def QueryPermits (c : Cluster ι) : Act ι → Prop
  | .request i (.queryName name _) => ∀ s, c.slave i = some s → c.slaveNode i ≠ none →
      name.head? ≠ some 46 → s.globalname name = none →
      c.globalName name = none ∨ c.OnItsWay i name
  | .dispatchSlave i => ∀ s, c.slave i = some s → c.slaveNode i = none →
      ∀ name, s.queryname name ≠ [] → c.globalName name = none ∨ .query name ∈ c.toMaster i
  | _ => True

/-- A slave that is being connected has its handshake in flight, and a connected one will be told
every name that it waits for and that the master knows. -/
structure Answers (c : Cluster ι) : Prop where
  absent : ∀ i, c.slave i = none → c.slaveNode i = none ∧ c.toMaster i = []
  joining : ∀ i s, c.slave i = some s → c.slaveNode i = none →
    ∃ slaveId slaveAddr rest, c.toMaster i = .handshake slaveId slaveAddr :: rest
  answered : ∀ i s name, c.slave i = some s → c.slaveNode i ≠ none → s.queryname name ≠ [] →
    c.globalName name = none ∨ c.OnItsWay i name

namespace Answers

variable {c c' : Cluster ι} {i : ι} {s : Slave}

theorem init : (Cluster.init ι).Answers where
  absent _ _ := ⟨rfl, rfl⟩
  joining i s hs := by simp [Cluster.init] at hs
  answered i s name hs := by simp [Cluster.init] at hs

variable [DecidableEq ι]

theorem setSlave (hc : c.Answers) (hs : c.slave i = some s) {t : Slave × List ToMaster}
    (hquery : ∀ name, t.1.queryname name ≠ [] → s.queryname name ≠ [] ∨
      (c.slaveNode i ≠ none → c.globalName name = none ∨ c.OnItsWay i name)) :
    (c.setSlave i t).Answers := by
  have hother : ∀ j u, j ≠ i → (c.setSlave i t).slave j = some u → c.slave j = some u :=
    fun j u hj h => by simpa [Cluster.setSlave, hj] using h
  have hmem : ∀ j package, package ∈ c.toMaster j → package ∈ (c.setSlave i t).toMaster j :=
    fun j package h => by
      by_cases hj : j = i
      · subst hj
        simp [Cluster.setSlave, h]
      · simpa [Cluster.setSlave, hj] using h
  refine ⟨fun j h => ?_, fun j u hu hnode => ?_, fun j u name hu hnode hname => ?_⟩
  · by_cases hj : j = i
    · subst hj
      simp [Cluster.setSlave] at h
    · simpa [Cluster.setSlave, hj] using hc.absent j (by simpa [Cluster.setSlave, hj] using h)
  · by_cases hj : j = i
    · subst hj
      obtain ⟨slaveId, slaveAddr, rest, heq⟩ := hc.joining j s hs hnode
      exact ⟨slaveId, slaveAddr, rest ++ t.2, by simp [Cluster.setSlave, heq]⟩
    · obtain ⟨slaveId, slaveAddr, rest, heq⟩ := hc.joining j u (hother j u hj hu) hnode
      exact ⟨slaveId, slaveAddr, rest, by simpa [Cluster.setSlave, hj] using heq⟩
  · have hbefore : c.globalName name = none ∨ c.OnItsWay j name := by
      by_cases hj : j = i
      · subst hj
        obtain rfl : u = t.1 := by simpa [Cluster.setSlave, eq_comm] using hu
        rcases hquery name hname with h | h
        · exact hc.answered j s name hs hnode h
        · exact h hnode
      · exact hc.answered j u name (hother j u hj hu) hnode hname
    exact hbefore.imp_right fun h => h.imp_right (hmem j _)

variable {rest : List ToMaster}

/-- The master has read a package of a connected slave, and has told it the name if it was a query
for a name that is known. -/
theorem read {package : ToMaster} (hc : c.Answers) (hpackage : c.toMaster i = package :: rest)
    (hnode : c.slaveNode i ≠ none) (hquery : ∀ name, package = .query name →
      c.globalName name = none ∨ ∃ address, .name name address ∈ c.toSlave i) :
    { c with toMaster := update c.toMaster i rest }.Answers := by
  refine ⟨fun j h => ?_, fun j u hu hnode' => ?_, fun j u name hu hnode' hname => ?_⟩
  · have hj : j ≠ i := fun hj => hnode (hj ▸ (hc.absent j h).1)
    simpa [hj] using hc.absent j h
  · have hj : j ≠ i := fun h => hnode (h ▸ hnode')
    simpa [hj] using hc.joining j u hu hnode'
  · rcases hc.answered j u name hu hnode' hname with h | h | h
    · exact Or.inl h
    · exact Or.inr (Or.inl h)
    · by_cases hj : j = i
      · subst hj
        rw [hpackage] at h
        rcases List.mem_cons.mp h with heq | h
        · exact (hquery name heq.symm).imp_right Or.inl
        · exact Or.inr (Or.inr (by simpa using h))
      · exact Or.inr (Or.inr (by simpa [hj] using h))

omit [DecidableEq ι] in
/-- More packages for the slaves do no harm. -/
theorem mono {toSlave : ι → List ToSlave} (hc : c.Answers)
    (hmem : ∀ j package, package ∈ c.toSlave j → package ∈ toSlave j) :
    { c with toSlave := toSlave }.Answers :=
  ⟨hc.absent, hc.joining, fun j u name hu hnode hname =>
    (hc.answered j u name hu hnode hname).imp_right fun h =>
      h.imp_left fun ⟨address, h⟩ => ⟨address, hmem j _ h⟩⟩

variable {package : ToSlave}

omit [DecidableEq ι] in
theorem mem_broadcast {j : ι} {message : ToSlave} (h : package ∈ c.toSlave j) :
    package ∈ (c.broadcast message).toSlave j := by
  simp only [broadcast]
  split_ifs
  · exact List.mem_append_left _ h
  · exact h

theorem mem_writeSlave {j : ι} {message : ToSlave} (h : package ∈ c.toSlave j) :
    package ∈ (c.writeSlave i message).toSlave j := by
  by_cases hj : j = i
  · subst hj
    simp [writeSlave, h]
  · simpa [writeSlave, hj] using h

omit [DecidableEq ι] in
/-- The master enters a name that it tells every connected slave. -/
theorem register (hc : c.Answers) (globalName : Name → Option ℕ)
    (hglobal : ∀ m ≠ name, globalName m = c.globalName m) :
    ({ c with globalName := globalName }.broadcast (.name name address)).Answers := by
  refine ⟨hc.absent, hc.joining, fun j u m hu hnode hm => ?_⟩
  by_cases hname : m = name
  · subst hname
    refine Or.inr (Or.inl ⟨address, ?_⟩)
    have hnode' : c.slaveNode j ≠ none := hnode
    simp [broadcast, hnode']
  · refine (hc.answered j u m hu hnode hm).imp (fun h => ?_) fun h => ?_
    · exact (hglobal m hname).trans h
    · exact h.imp_left (Exists.imp fun _ => mem_broadcast)

/-- A slave has read a package, after which it does not wait for the names that it tells. -/
theorem monitorMaster {rest : List ToSlave} {t : Slave} (hc : c.Answers) (hs : c.slave i = some s)
    (hpackage : c.toSlave i = package :: rest)
    (hquery : ∀ name, t.queryname name ≠ [] → s.queryname name ≠ [] ∧
      ∀ address, package ≠ .name name address) :
    ({ c with toSlave := update c.toSlave i rest }.setSlave i (t, [])).Answers := by
  refine ⟨fun j h => ?_, fun j u hu hnode => ?_, fun j u name hu hnode hname => ?_⟩
  · by_cases hj : j = i
    · subst hj
      simp [Cluster.setSlave] at h
    · simpa [Cluster.setSlave, hj] using hc.absent j (by simpa [Cluster.setSlave, hj] using h)
  · have hmaster : update c.toMaster i (c.toMaster i ++ []) j = c.toMaster j := by simp
    obtain ⟨v, hv⟩ : ∃ v, c.slave j = some v := by
      by_cases hj : j = i
      · exact ⟨s, hj ▸ hs⟩
      · exact ⟨u, by simpa [Cluster.setSlave, hj] using hu⟩
    obtain ⟨slaveId, slaveAddr, rest', heq⟩ := hc.joining j v hv hnode
    exact ⟨slaveId, slaveAddr, rest', hmaster.trans heq⟩
  · by_cases hj : j = i
    · subst hj
      obtain rfl : u = t := by simpa [Cluster.setSlave, eq_comm] using hu
      obtain ⟨hbefore, hne⟩ := hquery name hname
      refine (hc.answered j s name hs hnode hbefore).imp_right fun h => ?_
      rcases h with ⟨a, ha⟩ | h
      · rw [hpackage] at ha
        exact Or.inl ⟨a, by simpa [Cluster.setSlave, (hne a).symm] using ha⟩
      · exact Or.inr (by simpa [Cluster.setSlave] using h)
    · have hu' : c.slave j = some u := by simpa [Cluster.setSlave, hj] using hu
      refine (hc.answered j u name hu' hnode hname).imp_right fun h => ?_
      simpa [OnItsWay, Cluster.setSlave, hj] using h

/-- The master reads the handshake of a slave, and refuses it or connects it. -/
theorem handshake [Fintype ι] {slaveId : ℕ} {slaveAddr : Name} (hc : c.Answers)
    (hnode : c.slaveNode i = none) (hpackage : c.toMaster i = .handshake slaveId slaveAddr :: rest)
    (hok : c.QueryPermits (.dispatchSlave i))
    (h : { c with toMaster := update c.toMaster i rest }.handshake i slaveId slaveAddr =
      .ok c') : c'.Answers := by
  rw [Cluster.handshake] at h
  simp only at h
  split_ifs at h with hrefused hsize
  · cases h
    refine ⟨fun j h => ?_, fun j u hu hnode' => ?_, fun j u name hu hnode' hname => ?_⟩
    · by_cases hj : j = i
      · subst hj
        exact ⟨hnode, by simp [refuse]⟩
      · simpa [refuse, hj] using hc.absent j (by simpa [refuse, hj] using h)
    all_goals
      have hj : j ≠ i := by
        rintro rfl
        simp [refuse] at hu
      have hu' : c.slave j = some u := by simpa [refuse, hj] using hu
    · simpa [refuse, hj] using hc.joining j u hu' hnode'
    · simpa [OnItsWay, refuse, hj] using hc.answered j u name hu' hnode' hname
  · cases h
    have hrunning : c.slave i ≠ none := fun h => by
      have hempty := (hc.absent i h).2
      rw [hpackage] at hempty
      cases hempty
    refine ⟨fun j h => ?_, fun j u hu hnode' => ?_, fun j u name hu hnode' hname => ?_⟩
    · have hj : j ≠ i := by
        rintro rfl
        exact hrunning h
      simpa [broadcast, writeSlave, hj] using hc.absent j h
    · have hj : j ≠ i := by
        rintro rfl
        simp [broadcast, writeSlave] at hnode'
      have hnode'' : c.slaveNode j = none := by simpa [broadcast, writeSlave, hj] using hnode'
      simpa [broadcast, writeSlave, hj] using hc.joining j u hu hnode''
    · by_cases hj : j = i
      · subst hj
        -- What the slave has asked before it was connected, it has queried.
        refine (hok u hu hnode name hname).imp_right fun hflight => Or.inr ?_
        rw [hpackage] at hflight
        simpa [broadcast, writeSlave] using hflight
      · have hnode'' : c.slaveNode j ≠ none := by simpa [broadcast, writeSlave, hj] using hnode'
        refine (hc.answered j u name hu hnode'' hname).imp_right fun h => ?_
        rcases h with ⟨a, ha⟩ | h
        · exact Or.inl ⟨a, mem_writeSlave (mem_broadcast ha)⟩
        · exact Or.inr (by simpa [broadcast, writeSlave, hj] using h)

theorem step [Fintype ι] {a : Act ι} (hc : c.Answers) (hok : c.QueryPermits a)
    (h : c.step a = .ok c') : c'.Answers := by
  cases a with
  | start i slaveId slaveAddr =>
    rw [Cluster.step] at h
    split_ifs at h with hnone hsize
    cases h
    have hnone : c.slave i = none := not_not.mp hnone
    have hnode := (hc.absent i hnone).1
    refine ⟨fun j h => ?_, fun j u hu hnode' => ?_, fun j u name hu hnode' hname => ?_⟩
    · have hj : j ≠ i := by
        rintro rfl
        simp at h
      simpa [hj] using hc.absent j (by simpa [hj] using h)
    · by_cases hj : j = i
      · subst hj
        exact ⟨slaveId, slaveAddr, [], by simp⟩
      · simpa [hj] using hc.joining j u (by simpa [hj] using hu) hnode'
    · have hj : j ≠ i := by
        rintro rfl
        exact hnode' hnode
      simpa [OnItsWay, hj] using hc.answered j u name (by simpa [hj] using hu) hnode' hname
  | request i r =>
    rw [Cluster.step] at h
    rcases hs : c.slave i with _ | s
    · simp [hs] at h
    · simp only [hs] at h
      cases h
      refine hc.setSlave hs fun name hname => ?_
      rcases Slave.queryname_request hname with h | ⟨resp, rfl, hlocal, hnone⟩
      · exact Or.inl h
      · exact Or.inr fun hnode => hok s hs hnode hlocal hnone
  | dispatchSlave i =>
    rw [Cluster.step] at h
    rcases hpackage : c.toMaster i with _ | ⟨package, rest⟩
    · simp [hpackage] at h
    · simp only [hpackage] at h
      rcases hnode : c.slaveNode i with _ | k
      · cases package with
        | handshake slaveId slaveAddr =>
          simp only [hnode] at h
          exact hc.handshake hnode hpackage hok h
        | register name address => simp [hnode] at h
        | query name => simp [hnode] at h
      · have hconnected : c.slaveNode i ≠ none := by simp [hnode]
        cases package with
        | handshake slaveId slaveAddr =>
          simp only [hnode] at h
          cases h
          exact hc.read hpackage hconnected (by simp)
        | register name address =>
          simp only [hnode, masterRegister] at h
          have hread := hc.read hpackage hconnected (by simp)
          split_ifs at h
          · cases h
            exact hread.register _ fun m hm => update_of_ne hm ..
          · cases h
            exact hread.register c.globalName fun _ _ => rfl
        | query name =>
          simp only [hnode, masterQuery] at h
          rcases hname : c.globalName name with _ | address
          · simp only [hname] at h
            cases h
            exact hc.read hpackage hconnected fun m hm => Or.inl (by cases hm; exact hname)
          · simp only [hname] at h
            split_ifs at h
            cases h
            have hwrite : (c.writeSlave i (.name name address)).Answers :=
              hc.mono fun j package hmem => mem_writeSlave hmem
            refine hwrite.read hpackage hconnected fun m hm => Or.inr ⟨address, ?_⟩
            cases hm
            simp [writeSlave]
  | monitorMaster i =>
    rw [Cluster.step] at h
    rcases hs : c.slave i with _ | s
    · simp [hs] at h
    rcases hpackage : c.toSlave i with _ | ⟨package, rest⟩
    · simp [hs, hpackage] at h
    · simp only [hs, hpackage] at h
      -- A package that tells no name leaves the slave as it is.
      have hskip : (∀ name address, package ≠ .name name address) →
          { c with toSlave := update c.toSlave i rest }.Answers := fun hne => by
        have hself := hc.monitorMaster hs hpackage fun name hname => ⟨hname, hne name⟩
        have heq : { c with toSlave := update c.toSlave i rest }.setSlave i (s, []) =
            { c with toSlave := update c.toSlave i rest } := by
          simp [Cluster.setSlave, ← hs]
        rwa [heq] at hself
      rcases hmon : s.monitoring with _ | _
      · cases package with
        | wait n =>
          simp only [hmon] at h
          cases h
          exact hc.monitorMaster hs hpackage fun name hname => ⟨hname, by simp⟩
        | connect slaveId slaveAddr => simp [hmon] at h
        | name name address => simp [hmon] at h
      · cases package with
        | wait n =>
          simp only [hmon] at h
          cases h
          exact hskip (by simp)
        | connect slaveId slaveAddr =>
          simp only [hmon] at h
          cases h
          exact hskip (by simp)
        | name name address =>
          simp only [hmon] at h
          cases h
          refine hc.monitorMaster hs hpackage fun m hm => ?_
          obtain ⟨hne, hbefore⟩ := Slave.queryname_learn hm
          exact ⟨hbefore, fun a heq => by cases heq; exact hne rfl⟩

end Answers

end Cluster

/-- **No query is forgotten** in a run in which the slaves wait for no name that they will not be
told: once no message is in flight, nobody waits for a name that the master knows. -/
theorem query_answered {ι : Type*} [Fintype ι] [DecidableEq ι] {c : Cluster ι}
    (hrun : Transition.Reaches Cluster.step Cluster.QueryPermits (.init ι) c) (hquiet : c.Quiet)
    {i : ι} {s : Slave} (hs : c.slave i = some s) {name : Name} (hname : s.queryname name ≠ []) :
    c.globalName name = none := by
  have hc : c.Answers := hrun.invariant .init fun _ _ _ hc hok h => hc.step hok h
  have hnode : c.slaveNode i ≠ none := fun hnone => by
    obtain ⟨slaveId, slaveAddr, rest, heq⟩ := hc.joining i s hs hnone
    rw [(hquiet i).1] at heq
    cases heq
  refine (hc.answered i s name hs hnode hname).resolve_right ?_
  simp [Cluster.OnItsWay, (hquiet i).1, (hquiet i).2]

/-- A name is asked for before it is registered: the waiter of another name stays, and nobody knows
that one. -/
theorem query_answered_waiting :
    ∃ c : Cluster Bool, c.Quiet ∧ c.globalName [97] = some 0x1000001 ∧
      (c.slave true).map (fun s => s.queryname [97]) = some [] ∧
      (c.slave true).map (fun s => s.queryname [98]) = some [8] ∧ c.globalName [98] = none := by
  obtain ⟨c, s, hrun, hquiet, hglobal, hs, ha, hb⟩ : ∃ c : Cluster Bool, ∃ s,
      Transition.Reaches Cluster.step Cluster.QueryPermits (.init Bool) c ∧ c.Quiet ∧
      c.globalName [97] = some 0x1000001 ∧ c.slave true = some s ∧
      s.queryname [97] = [] ∧ s.queryname [98] = [8] := by
    refine ⟨_, _, .tail (a := .monitorMaster true) (.tail (a := .monitorMaster false)
      (.tail (a := .monitorMaster false) (.tail (a := .dispatchSlave false)
      (.tail (a := .request false (.register [97] 0x1000001))
      (.tail (a := .request true (.queryName [98] 8))
      (.tail (a := .request true (.queryName [97] 7))
      (.tail (a := .monitorMaster true) (.tail (a := .monitorMaster false)
      (.tail (a := .dispatchSlave true) (.tail (a := .start true 2 [])
      (.tail (a := .dispatchSlave false) (.tail (a := .start false 1 []) .refl
      trivial rfl) ?_ rfl) trivial rfl) ?_ rfl) trivial rfl) trivial rfl) ?_ rfl) ?_ rfl)
      trivial rfl) ?_ rfl) trivial rfl) trivial rfl) trivial rfl,
      Bool.forall_bool.mpr ⟨⟨rfl, rfl⟩, rfl, rfl⟩, rfl, rfl, rfl, rfl⟩
    · rintro s hs - name hname
      cases hs
      exact Or.inl rfl
    · rintro s hs - name hname
      exact Or.inl rfl
    · exact fun _ _ _ _ _ => Or.inl rfl
    · exact fun _ _ _ _ _ => Or.inl rfl
    · rintro s - hnode
      cases hnode
  refine ⟨c, hquiet, hglobal, by simp [hs, ha], by simp [hs, hb], ?_⟩
  exact query_answered hrun hquiet hs (by simp [hb])

/-- A slave that joins after the registration of a name is asked for it: nobody answers. -/
theorem lateQuery_forgotten :
    ∃ c : Cluster Bool,
      Transition.exec Cluster.step (.init Bool)
        [.start false 1 [], .dispatchSlave false, .monitorMaster false,
          .request false (.register [97] 0x1000001), .dispatchSlave false, .monitorMaster false,
          .start true 2 [], .dispatchSlave true, .monitorMaster true, .monitorMaster false,
          .request true (.queryName [97] 7)] = .ok c ∧
      c.Quiet ∧ c.globalName [97] = some 0x1000001 ∧
      (c.slave true).map (fun s => s.queryname [97]) = some [7] :=
  ⟨_, rfl, Bool.forall_bool.mpr ⟨⟨rfl, rfl⟩, rfl, rfl⟩, rfl, rfl⟩

end Mtask.GlobalNames
