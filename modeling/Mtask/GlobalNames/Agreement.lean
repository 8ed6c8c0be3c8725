import Mathlib.Data.Fintype.Basic
import Mtask.GlobalNames.Cluster

/-!
# Agreement on global names

The master keeps the first address that is registered for a name, but tells the slaves the address
that it has just received. As long as no other address arrives for a name that the master knows,
the two are the same, and every slave ends up with the table of the master.
-/

namespace Mtask.GlobalNames

open Function (update update_of_ne update_self)

namespace Slave

variable {s : Slave}

@[simp] theorem globalname_responseName (name : Name) :
    (s.responseName name).globalname = s.globalname := by
  rw [responseName]
  split <;> rfl

@[simp] theorem monitoring_responseName (name : Name) :
    (s.responseName name).monitoring = s.monitoring := by
  rw [responseName]
  split <;> rfl

@[simp] theorem globalname_learn (name : Name) (address : ℕ) :
    (s.learn name address).globalname = update s.globalname name (some address) := by
  rw [learn]
  split_ifs <;> simp

@[simp] theorem monitoring_learn (name : Name) (address : ℕ) :
    (s.learn name address).monitoring = s.monitoring := by
  rw [learn]
  split_ifs <;> simp

/-- A request is a registration of a new name, or it leaves the table as it is. -/
theorem request_cases (s : Slave) (r : Request) :
    (∃ name handle, r = .register name handle ∧ s.globalname name = none ∧
      (s.request r).1.globalname = update s.globalname name (some handle) ∧
      (s.request r).2 = if (ToMaster.register name handle).size ≤ maxPackage then
        [.register name handle] else []) ∨
    (s.request r).1.globalname = s.globalname ∧
      ∀ package ∈ (s.request r).2, ∃ name, package = .query name := by
  cases r with
  | register name handle =>
    by_cases hname : s.globalname name = none
    · refine Or.inl ⟨name, handle, rfl, hname, ?_⟩
      simp only [request, register, hname, ne_eq, not_true_eq_false, if_false]
      split_ifs <;> simp
    · refine Or.inr ?_
      simp [request, register, hname]
  | queryName name resp =>
    refine Or.inr ⟨?_, by simp [request]⟩
    simp only [request, queryName]
    split_ifs
    · rfl
    · split <;> rfl
  | monitorHarbor arg =>
    refine Or.inr ?_
    simp only [request, monitorHarbor]
    split
    · simp
    · split_ifs <;> simp
  | getReady => exact Or.inr ⟨rfl, by simp [request]⟩

@[simp] theorem monitoring_request (s : Slave) (r : Request) :
    (s.request r).1.monitoring = s.monitoring := by
  cases r with
  | register name handle =>
    simp only [request, register]
    split_ifs <;> simp
  | queryName name resp =>
    simp only [request, queryName]
    split_ifs
    · rfl
    · split <;> rfl
  | monitorHarbor arg =>
    simp only [request, monitorHarbor]
    split
    · rfl
    · split_ifs <;> rfl
  | getReady => rfl

end Slave

namespace Cluster

variable {ι : Type*}

/-- The steps by which the tables do not come apart: a registration has a package that is not too
long, and the master hears of no other address for a name that it knows. -/
def AgreePermits (c : Cluster ι) : Act ι → Prop
  | .request _ (.register name handle) => (ToMaster.register name handle).size ≤ maxPackage
  | .dispatchSlave i => ∀ name address rest, c.toMaster i = .register name address :: rest →
      c.globalName name = none ∨ c.globalName name = some address
  | _ => True

/-- The tables agree, up to the packages in flight: what the master tells is what it knows, what a
slave knows the master knows or will hear from this slave, and what the master knows a slave knows
or will hear. -/
structure Agree (c : Cluster ι) : Prop where
  joined : ∀ i, c.slaveNode i ≠ none
  running : ∀ i, ∃ s, c.slave i = some s ∧ s.monitoring = true
  sent : ∀ i name address, .name name address ∈ c.toSlave i → c.globalName name = some address
  known : ∀ i s name address, c.slave i = some s → s.globalname name = some address →
    c.globalName name = some address ∨ .register name address ∈ c.toMaster i
  told : ∀ i s name address, c.slave i = some s → c.globalName name = some address →
    s.globalname name = some address ∨ .name name address ∈ c.toSlave i

namespace Agree

variable {c c' : Cluster ι} {i : ι} {s : Slave}

theorem connected (slaveId : ι → ℕ) : (Cluster.connected slaveId).Agree where
  joined i := Option.some_ne_none _
  running i := ⟨_, rfl, rfl⟩
  sent i name address h := by simp [Cluster.connected] at h
  known i s name address hs h := by
    cases hs
    simp [Slave.init] at h
  told i s name address _ h := by simp [Cluster.connected] at h

variable [DecidableEq ι]

theorem request (hc : c.Agree) (hs : c.slave i = some s) {r : Request}
    (hok : c.AgreePermits (.request i r)) : (c.setSlave i (s.request r)).Agree := by
  have hmem : ∀ j package, package ∈ c.toMaster j →
      package ∈ (c.setSlave i (s.request r)).toMaster j := fun j package h => by
    by_cases hj : j = i
    · subst hj
      simp [setSlave, h]
    · simpa [setSlave, hj] using h
  have hother : ∀ j t, j ≠ i → (c.setSlave i (s.request r)).slave j = some t →
      c.slave j = some t := fun j t hj h => by
    simpa [setSlave, hj] using h
  have hself : ∀ t, (c.setSlave i (s.request r)).slave i = some t → t = (s.request r).1 :=
    fun t h => by simpa [setSlave, eq_comm] using h
  refine ⟨hc.joined, fun j => ?_, hc.sent, fun j t name address ht h => ?_,
    fun j t name address ht h => ?_⟩
  · by_cases hj : j = i
    · subst hj
      obtain ⟨t, ht, hmon⟩ := hc.running j
      obtain rfl := Option.some.inj (hs.symm.trans ht)
      exact ⟨(s.request r).1, update_self .., by simpa using hmon⟩
    · simpa [setSlave, hj] using hc.running j
  · by_cases hj : j = i
    · subst hj
      obtain rfl := hself t ht
      rcases s.request_cases r with ⟨name', handle, rfl, -, hglobal, hout⟩ | ⟨hglobal, -⟩
      · rw [hglobal] at h
        by_cases hname : name = name'
        · subst hname
          rw [update_self] at h
          obtain rfl := Option.some.inj h
          -- The package is on its way to the master.
          refine Or.inr ?_
          have hsize : (ToMaster.register name handle).size ≤ maxPackage := hok
          rw [if_pos hsize] at hout
          simp [setSlave, hout]
        · rw [update_of_ne hname] at h
          exact (hc.known j s name address hs h).imp_right (hmem j _)
      · rw [hglobal] at h
        exact (hc.known j s name address hs h).imp_right (hmem j _)
    · exact (hc.known j t name address (hother j t hj ht) h).imp_right (hmem j _)
  · by_cases hj : j = i
    · subst hj
      obtain rfl := hself t ht
      rcases hc.told j s name address hs h with hknown | hflight
      · left
        rcases s.request_cases r with ⟨name', handle, rfl, hnone, hglobal, -⟩ | ⟨hglobal, -⟩
        · rw [hglobal, update_of_ne, hknown]
          rintro rfl
          rw [hnone] at hknown
          cases hknown
        · rwa [hglobal]
      · exact Or.inr hflight
    · exact hc.told j t name address (hother j t hj ht) h

variable {address : ℕ} {name : Name} {rest : List ToMaster}

/-- The master reads a registration of a name that is new, or has the address that it knows. -/
theorem masterRegister (hc : c.Agree) (hpackage : c.toMaster i = .register name address :: rest)
    (hok : c.globalName name = none ∨ c.globalName name = some address)
    (h : { c with toMaster := update c.toMaster i rest }.masterRegister name address =
      .ok c') : c'.Agree := by
  have hglobal : (if c.globalName name = none then
      update c.globalName name (some address) else c.globalName) =
        update c.globalName name (some address) := by
    split_ifs with hnone
    · rfl
    · rw [← hok.resolve_left hnone, Function.update_eq_self]
  obtain rfl : c' = { c with
      globalName := update c.globalName name (some address)
      toMaster := update c.toMaster i rest
      toSlave := fun j => c.toSlave j ++ [.name name address] } := by
    rw [Cluster.masterRegister] at h
    simp only at h
    split_ifs at h hglobal with hnone hsize
    all_goals
      cases h
      simp [broadcast, hc.joined, ← hglobal]
  -- The master still knows what it has known.
  have hkeep : ∀ name' address', c.globalName name' = some address' →
      update c.globalName name (some address) name' = some address' :=
    fun name' address' h' => by
      by_cases hname : name' = name
      · subst hname
        rw [update_self, ← h']
        rcases hok with hnone | hsome
        · rw [hnone] at h'
          cases h'
        · exact hsome.symm
      · rwa [update_of_ne hname]
  refine ⟨hc.joined, hc.running, fun j name' address' h' => ?_, fun j s name' address' hs h' => ?_,
    fun j s name' address' hs h' => ?_⟩
  · rcases List.mem_append.mp h' with h' | h'
    · exact hkeep _ _ (hc.sent j name' address' h')
    · obtain ⟨rfl, rfl⟩ : name' = name ∧ address' = address := by simpa using h'
      exact update_self ..
  · rcases hc.known j s name' address' hs h' with hknown | hflight
    · exact Or.inl (hkeep _ _ hknown)
    · by_cases hj : j = i
      · subst hj
        rw [hpackage] at hflight
        rcases List.mem_cons.mp hflight with heq | hflight
        · obtain ⟨rfl, rfl⟩ : name' = name ∧ address' = address := by simpa using heq
          exact Or.inl (update_self ..)
        · exact Or.inr (by simpa using hflight)
      · exact Or.inr (by simpa [hj] using hflight)
  · by_cases hname : name' = name
    · subst hname
      change update _ _ _ _ = _ at h'
      rw [update_self, Option.some_inj] at h'
      subst h'
      exact Or.inr (by simp)
    · change update _ _ _ _ = _ at h'
      rw [update_of_ne hname] at h'
      exact (hc.told j s name' address' hs h').imp_right (List.mem_append_left _)

theorem read {package : ToMaster} (hc : c.Agree) (hpackage : c.toMaster i = package :: rest)
    (hne : ∀ name address, package ≠ .register name address) :
    { c with toMaster := update c.toMaster i rest }.Agree := by
  refine ⟨hc.joined, hc.running, hc.sent, fun j s name address hs h => ?_, hc.told⟩
  refine (hc.known j s name address hs h).imp_right fun hflight => ?_
  by_cases hj : j = i
  · subst hj
    rw [hpackage] at hflight
    simpa [(hne name address).symm] using hflight
  · simpa [hj] using hflight

theorem writeSlave (hc : c.Agree) (hknown : c.globalName name = some address) :
    (c.writeSlave i (.name name address)).Agree := by
  refine ⟨hc.joined, hc.running, fun j name' address' h => ?_, hc.known,
    fun j s name' address' hs h => (hc.told j s name' address' hs h).imp_right fun h' => ?_⟩
  · by_cases hj : j = i
    · subst hj
      have hor : .name name' address' ∈ c.toSlave j ∨ name' = name ∧ address' = address := by
        simpa [Cluster.writeSlave] using h
      rcases hor with h | ⟨rfl, rfl⟩
      · exact hc.sent j name' address' h
      · exact hknown
    · exact hc.sent j name' address' (by simpa [Cluster.writeSlave, hj] using h)
  · by_cases hj : j = i
    · subst hj
      simp [Cluster.writeSlave, h']
    · simpa [Cluster.writeSlave, hj] using h'

theorem skip {package : ToSlave} {rest : List ToSlave} (hc : c.Agree)
    (hpackage : c.toSlave i = package :: rest)
    (hne : ∀ name address, package ≠ .name name address) :
    { c with toSlave := update c.toSlave i rest }.Agree := by
  have hmem : ∀ j name address, .name name address ∈ c.toSlave j ↔
      .name name address ∈ update c.toSlave i rest j := fun j name address => by
    by_cases hj : j = i
    · subst hj
      rw [hpackage, update_self, List.mem_cons, or_iff_right (hne name address).symm]
    · rw [update_of_ne hj]
  exact ⟨hc.joined, hc.running, fun j name address h => hc.sent j name address ((hmem _ _ _).mpr h),
    hc.known, fun j s name address hs h =>
      (hc.told j s name address hs h).imp_right (hmem _ _ _).mp⟩

theorem learn {rest : List ToSlave} (hc : c.Agree) (hs : c.slave i = some s)
    (hpackage : c.toSlave i = .name name address :: rest) :
    ({ c with toSlave := update c.toSlave i rest }.setSlave i
      (s.learn name address, [])).Agree := by
  have hknown := hc.sent i name address (by simp [hpackage])
  refine ⟨hc.joined, fun j => ?_, fun j name' address' h => ?_, fun j t name' address' ht h => ?_,
    fun j t name' address' ht h => ?_⟩
  · by_cases hj : j = i
    · subst hj
      obtain ⟨t, ht, hmon⟩ := hc.running j
      obtain rfl := Option.some.inj (hs.symm.trans ht)
      exact ⟨s.learn name address, update_self .., by simpa using hmon⟩
    · simpa [setSlave, hj] using hc.running j
  · by_cases hj : j = i
    · subst hj
      refine hc.sent j name' address' ?_
      rw [hpackage]
      exact List.mem_cons_of_mem _ (by simpa [setSlave] using h)
    · exact hc.sent j name' address' (by simpa [setSlave, hj] using h)
  · by_cases hj : j = i
    · subst hj
      obtain rfl : t = s.learn name address := by simpa [setSlave, eq_comm] using ht
      rw [Slave.globalname_learn] at h
      by_cases hname : name' = name
      · subst hname
        rw [update_self] at h
        exact Or.inl (hknown.trans h)
      · rw [update_of_ne hname] at h
        simpa [setSlave] using hc.known j s name' address' hs h
    · have ht' : c.slave j = some t := by simpa [setSlave, hj] using ht
      simpa [setSlave, hj] using hc.known j t name' address' ht' h
  · by_cases hj : j = i
    · subst hj
      obtain rfl : t = s.learn name address := by simpa [setSlave, eq_comm] using ht
      rw [Slave.globalname_learn]
      by_cases hname : name' = name
      · subst hname
        rw [update_self]
        exact Or.inl (hknown.symm.trans h)
      · rw [update_of_ne hname]
        refine (hc.told j s name' address' hs h).imp_right fun hflight => ?_
        rw [hpackage] at hflight
        simpa [setSlave, hname] using hflight
    · have ht' : c.slave j = some t := by simpa [setSlave, hj] using ht
      simpa [setSlave, hj] using hc.told j t name' address' ht' h

theorem step [Fintype ι] {a : Act ι} (hc : c.Agree) (hok : c.AgreePermits a)
    (h : c.step a = .ok c') : c'.Agree := by
  cases a with
  | start i slaveId slaveAddr =>
    obtain ⟨s, hs, -⟩ := hc.running i
    simp [Cluster.step, hs] at h
  | request i r =>
    obtain ⟨s, hs, -⟩ := hc.running i
    rw [Cluster.step, hs] at h
    cases h
    exact hc.request hs hok
  | dispatchSlave i =>
    rw [Cluster.step] at h
    obtain ⟨k, hk⟩ := Option.ne_none_iff_exists'.mp (hc.joined i)
    rcases hpackage : c.toMaster i with _ | ⟨package, rest⟩
    · simp [hpackage] at h
    · simp only [hpackage, hk] at h
      cases package with
      | handshake slaveId slaveAddr =>
        cases h
        exact hc.read hpackage (by simp)
      | register name address =>
        exact hc.masterRegister hpackage (hok name address rest hpackage) h
      | query name =>
        have hread := hc.read hpackage (by simp)
        simp only [masterQuery] at h
        split at h
        · split_ifs at h
          cases h
          exact hread.writeSlave ‹_›
        · cases h
          exact hread
  | monitorMaster i =>
    obtain ⟨s, hs, hmon⟩ := hc.running i
    rw [Cluster.step] at h
    rcases hpackage : c.toSlave i with _ | ⟨package, rest⟩
    · simp [hs, hpackage] at h
    · simp only [hs, hpackage, hmon] at h
      cases package with
      | wait n =>
        cases h
        exact hc.skip hpackage (by simp)
      | connect slaveId slaveAddr =>
        cases h
        exact hc.skip hpackage (by simp)
      | name name address =>
        cases h
        exact hc.learn hs hpackage

end Agree

end Cluster

/-- **The tables agree once no message is in flight**, in every run in which the master hears of no
second address for a name and no registration is too long for its package. -/
theorem globalNames_agree {ι : Type*} [Fintype ι] [DecidableEq ι] {slaveId : ι → ℕ}
    {c : Cluster ι}
    (hrun : Transition.Reaches Cluster.step Cluster.AgreePermits (.connected slaveId) c)
    (hquiet : c.Quiet) (i : ι) :
    ∃ s, c.slave i = some s ∧ ∀ name, s.globalname name = c.globalName name := by
  have hc : c.Agree := hrun.invariant (.connected slaveId) fun _ _ _ hc hok h => hc.step hok h
  obtain ⟨s, hs, -⟩ := hc.running i
  refine ⟨s, hs, fun name => Option.ext fun address => ⟨fun h => ?_, fun h => ?_⟩⟩
  · refine (hc.known i s name address hs h).resolve_right ?_
    simp [(hquiet i).1]
  · refine (hc.told i s name address hs h).resolve_right ?_
    simp [(hquiet i).2]

/-- One slave registers a name, and the other one hears of it. -/
theorem globalNames_agree_registered :
    ∃ c : Cluster Bool, ∃ s,
      c.Quiet ∧ c.globalName [97] = some 0x1000001 ∧ c.slave true = some s ∧
      s.globalname [97] = c.globalName [97] := by
  obtain ⟨c, hrun, hquiet, hname⟩ : ∃ c : Cluster Bool,
      Transition.Reaches Cluster.step Cluster.AgreePermits
        (.connected fun i => if i then 2 else 1) c ∧
      c.Quiet ∧ c.globalName [97] = some 0x1000001 := by
    refine ⟨_, .tail (a := .monitorMaster true) (.tail (a := .monitorMaster false)
      (.tail (a := .dispatchSlave false)
      (.tail (a := .request false (.register [97] 0x1000001)) .refl ?_ rfl) ?_ rfl) trivial rfl)
      trivial rfl, Bool.forall_bool.mpr ⟨⟨rfl, rfl⟩, rfl, rfl⟩, rfl⟩
    · show (ToMaster.register [97] 0x1000001).size ≤ maxPackage
      decide
    · exact fun name address rest _ => Or.inl rfl
  obtain ⟨s, hs, hagree⟩ := globalNames_agree hrun hquiet true
  exact ⟨c, s, hquiet, hname, hs, hagree _⟩

/-- Two slaves register one name with different addresses: the master keeps the first one, and both
slaves end up with the second. -/
theorem registeredTwice_disagree :
    ∃ c : Cluster Bool,
      Transition.exec Cluster.step (.connected fun i => if i then 2 else 1)
        [.request false (.register [97] 0x1000001), .request true (.register [97] 0x2000001),
          .dispatchSlave false, .dispatchSlave true, .monitorMaster false, .monitorMaster false,
          .monitorMaster true, .monitorMaster true] = .ok c ∧
      c.Quiet ∧ c.globalName [97] = some 0x1000001 ∧
      ∀ i, (c.slave i).map (fun s => s.globalname [97]) = some (some 0x2000001) :=
  ⟨_, rfl, Bool.forall_bool.mpr ⟨⟨rfl, rfl⟩, rfl, rfl⟩, rfl, Bool.forall_bool.mpr ⟨rfl, rfl⟩⟩

end Mtask.GlobalNames
