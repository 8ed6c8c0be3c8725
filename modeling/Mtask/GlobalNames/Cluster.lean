import Mathlib.Data.Finset.Card
import Mtask.Lib.Transition

/-!
# The master and the slaves

`cmaster.lua` and `cslave.lua` keep the global names of a set of nodes. Every node runs a slave,
which is connected to the master; the packages of a connection arrive in the order in which they
were written, in both directions. A slave enters a name into its own table when it is registered,
and tells the master, which enters it if it is new and tells every slave.

Names and packages are the strings of Lua; the connections between the slaves are left out.
-/

namespace Mtask.GlobalNames

open Function (update)

/-- A string of Lua. -/
abbrev Name := List UInt8

/-- The packages that a slave writes to the master. -/
inductive ToMaster
  /-- `'H'` -/
  | handshake (slaveId : ℕ) (slaveAddr : Name)
  /-- `'R'` -/
  | register (name : Name) (address : ℕ)
  /-- `'Q'` -/
  | query (name : Name)
  deriving DecidableEq, Repr

/-- The packages that the master writes to a slave. -/
inductive ToSlave
  /-- `'W'` -/
  | wait (n : ℕ)
  /-- `'C'` -/
  | connect (slaveId : ℕ) (slaveAddr : Name)
  /-- `'N'` -/
  | name (name : Name) (address : ℕ)
  deriving DecidableEq, Repr

/-! ### The size of a package -/

/-- What `wb_string` adds to the size of a block. -/
def stringSize (s : Name) : ℕ :=
  if s.length < 32 then 1 + s.length
  else if s.length < 0x10000 then 3 + s.length
  else 5 + s.length

/-- What `wb_integer` adds to the size of a block. -/
def integerSize (v : ℕ) : ℕ :=
  if v = 0 then 1
  else if 0x7fffffff < v then 9
  else if v < 0x100 then 2
  else if v < 0x10000 then 3
  else 5

/-- The size of the string that `mtask.packstring` makes; the type is a string of one byte. -/
def ToMaster.size : ToMaster → ℕ
  | .handshake slaveId slaveAddr => 2 + integerSize slaveId + stringSize slaveAddr
  | .register name address => 2 + stringSize name + integerSize address
  | .query name => 2 + stringSize name

@[inherit_doc ToMaster.size]
def ToSlave.size : ToSlave → ℕ
  | .wait n => 2 + integerSize n
  | .connect slaveId slaveAddr => 2 + integerSize slaveId + stringSize slaveAddr
  | .name id address => 2 + stringSize id + integerSize address

/-- The assertion of `pack_package`. -/
def maxPackage : ℕ := 255

/-! ### A slave -/

/-- What a slave answers, and what it tells the harbor service of its node. -/
inductive Output
  | response (resp : ℕ) (address : ℕ)
  /-- the answer to a query for a local name, by `mtask.localname` -/
  | localname (resp : ℕ) (name : Name)
  /-- the command `"N " .. name`, with the address as its source -/
  | bind (name : Name) (address : ℕ)
  /-- this command for every name of the table -/
  | bindAll (globalname : Name → Option ℕ)

/-- The tables of `cslave.lua`; a name that nobody waits for has an empty list in `queryname`.
`monitoring` says that the package `'W'` has arrived, `ready` that `connect_queue` is `nil`. -/
structure Slave where
  globalname : Name → Option ℕ
  queryname : Name → List ℕ
  monitoring : Bool
  ready : Bool
  outputs : List Output

namespace Slave

/-- A slave that has been started. -/
def init : Slave where
  globalname := fun _ => none
  queryname := fun _ => []
  monitoring := false
  ready := false
  outputs := []

/-- `response_name` -/
def responseName (s : Slave) (name : Name) : Slave :=
  match s.globalname name with
  | some address => { s with
      queryname := update s.queryname name []
      outputs := s.outputs ++ (s.queryname name).map fun resp => .response resp address }
  | none => { s with queryname := update s.queryname name [] }

/-- `harbor.REGISTER`, with what it writes to the master. A name that is known already raises an
error, and so does a package that is too long, after the name has been entered. -/
def register (s : Slave) (name : Name) (handle : ℕ) : Slave × List ToMaster :=
  if s.globalname name ≠ none then (s, [])
  else
    let s := { s with globalname := update s.globalname name (some handle) }
    let s := s.responseName name
    if (ToMaster.register name handle).size ≤ maxPackage then
      ({ s with outputs := s.outputs ++ [.bind name handle] }, [.register name handle])
    else (s, [])

/-- `harbor.QUERYNAME` -/
def queryName (s : Slave) (name : Name) (resp : ℕ) : Slave :=
  if name.head? = some 46 then { s with outputs := s.outputs ++ [.localname resp name] }
  else
    match s.globalname name with
    | some address => { s with outputs := s.outputs ++ [.response resp address] }
    | none => { s with
        queryname := update s.queryname name (s.queryname name ++ [resp]) }

/-- The command `'Q'` in `monitor_harbor`. -/
def monitorHarbor (s : Slave) (arg : Name) : Slave × List ToMaster :=
  match s.globalname arg with
  | some address => ({ s with outputs := s.outputs ++ [.bind arg address] }, [])
  | none =>
    if (ToMaster.query arg).size ≤ maxPackage then (s, [.query arg]) else (s, [])

/-- The function `ready` of `cslave.lua`. -/
def getReady (s : Slave) : Slave :=
  { s with ready := true, outputs := s.outputs ++ [.bindAll s.globalname] }

/-- The branch `'N'` of `monitor_master`. -/
def learn (s : Slave) (name : Name) (address : ℕ) : Slave :=
  let s := { s with globalname := update s.globalname name (some address) }
  let s := s.responseName name
  if s.ready then { s with outputs := s.outputs ++ [.bind name address] } else s

end Slave

/-- What other services ask of a slave, and its own `ready`. -/
inductive Request
  | register (name : Name) (handle : ℕ)
  | queryName (name : Name) (resp : ℕ)
  | monitorHarbor (arg : Name)
  | getReady

/-- The slave after a request, and what it has written to the master. -/
def Slave.request (s : Slave) : Request → Slave × List ToMaster
  | .register name handle => s.register name handle
  | .queryName name resp => (s.queryName name resp, [])
  | .monitorHarbor arg => s.monitorHarbor arg
  | .getReady => (s.getReady, [])

/-! ### The master, and the packages in flight -/

/-- The tables of the master, the slaves, and the packages in flight between them. The slaves are
the elements of `ι`; `slaveNode` holds the slave id of those that have shaken hands. -/
structure Cluster (ι : Type*) where
  globalName : Name → Option ℕ
  slaveNode : ι → Option ℕ
  slave : ι → Option Slave
  toMaster : ι → List ToMaster
  toSlave : ι → List ToSlave

/-- A step of the system. -/
inductive Act (ι : Type*)
  /-- a slave is started: it connects to the master and writes `'H'` -/
  | start (i : ι) (slaveId : ℕ) (slaveAddr : Name)
  | request (i : ι) (r : Request)
  /-- the master reads a package: `handshake`, or `dispatch_slave` -/
  | dispatchSlave (i : ι)
  /-- a slave reads a package: `monitor_master`, or the package `'W'` before it -/
  | monitorMaster (i : ι)

/-- Why a step is not taken. -/
inductive ClusterFault
  | notRunning
  | running
  | noPackage
  /-- an assertion of `pack_package` -/
  | tooLong
  /-- `assert(t == "W", "slave shakehand failed")` -/
  | shakehandFailed
  /-- `assert(t == 'H')` -/
  | invalidHandshake
  deriving DecidableEq, Repr

namespace Cluster

variable {ι : Type*}

/-- The master without slaves. -/
def init (ι : Type*) : Cluster ι where
  globalName := fun _ => none
  slaveNode := fun _ => none
  slave := fun _ => none
  toMaster := fun _ => []
  toSlave := fun _ => []

/-- All slaves have shaken hands, and no name is registered. -/
def connected (slaveId : ι → ℕ) : Cluster ι where
  globalName := fun _ => none
  slaveNode := fun i => some (slaveId i)
  slave := fun _ => some { Slave.init with monitoring := true }
  toMaster := fun _ => []
  toSlave := fun _ => []

/-- No message is in flight. -/
def Quiet (c : Cluster ι) : Prop :=
  ∀ i, c.toMaster i = [] ∧ c.toSlave i = []

/-- The loop that writes a package to every slave of `slave_node`. -/
def broadcast (c : Cluster ι) (message : ToSlave) : Cluster ι :=
  { c with toSlave := fun j =>
      if c.slaveNode j ≠ none then c.toSlave j ++ [message] else c.toSlave j }

variable [DecidableEq ι]

def writeSlave (c : Cluster ι) (i : ι) (message : ToSlave) : Cluster ι :=
  { c with toSlave := update c.toSlave i (c.toSlave i ++ [message]) }

/-- The slave `i` with what it has written. -/
def setSlave (c : Cluster ι) (i : ι) (s : Slave × List ToMaster) : Cluster ι :=
  { c with
    slave := update c.slave i (some s.1)
    toMaster := update c.toMaster i (c.toMaster i ++ s.2) }

/-- The master closes the connection of a slave that it refuses, which exits. -/
def refuse (c : Cluster ι) (i : ι) : Cluster ι :=
  { c with
    slave := update c.slave i none
    toMaster := update c.toMaster i []
    toSlave := update c.toSlave i [] }

/-- `handshake` -/
def handshake [Fintype ι] (c : Cluster ι) (i : ι) (slaveId : ℕ) (slaveAddr : Name) :
    Except ClusterFault (Cluster ι) :=
  if slaveId = 0 ∨ ∃ j, c.slaveNode j = some slaveId then .ok (c.refuse i)
  else
    let n := (Finset.univ.filter fun j => c.slaveNode j ≠ none).card
    if (ToSlave.connect slaveId slaveAddr).size ≤ maxPackage ∧
        (ToSlave.wait n).size ≤ maxPackage then
      let c := (c.broadcast (.connect slaveId slaveAddr)).writeSlave i (.wait n)
      .ok { c with slaveNode := update c.slaveNode i (some slaveId) }
    else .error .tooLong

/-- The branch `'R'` of `dispatch_slave`. -/
def masterRegister (c : Cluster ι) (name : Name) (address : ℕ) :
    Except ClusterFault (Cluster ι) :=
  let c := if c.globalName name = none then
    { c with globalName := update c.globalName name (some address) } else c
  if (ToSlave.name name address).size ≤ maxPackage then .ok (c.broadcast (.name name address))
  else .error .tooLong

/-- The branch `'Q'` of `dispatch_slave`. -/
def masterQuery (c : Cluster ι) (i : ι) (name : Name) : Except ClusterFault (Cluster ι) :=
  match c.globalName name with
  | some address =>
    if (ToSlave.name name address).size ≤ maxPackage then
      .ok (c.writeSlave i (.name name address))
    else .error .tooLong
  | none => .ok c

def step [Fintype ι] (c : Cluster ι) : Act ι → Except ClusterFault (Cluster ι)
  | .start i slaveId slaveAddr =>
    if c.slave i ≠ none then .error .running
    else if (ToMaster.handshake slaveId slaveAddr).size ≤ maxPackage then
      .ok { c with
        slave := update c.slave i (some Slave.init)
        toMaster := update c.toMaster i [.handshake slaveId slaveAddr]
        toSlave := update c.toSlave i [] }
    else .error .tooLong
  | .request i r =>
    match c.slave i with
    | some s => .ok (c.setSlave i (s.request r))
    | none => .error .notRunning
  | .dispatchSlave i =>
    match c.toMaster i with
    | [] => .error .noPackage
    | package :: rest =>
      let c := { c with toMaster := update c.toMaster i rest }
      match c.slaveNode i, package with
      | none, .handshake slaveId slaveAddr => c.handshake i slaveId slaveAddr
      | none, _ => .error .invalidHandshake
      | some _, .register name address => c.masterRegister name address
      | some _, .query name => c.masterQuery i name
      -- an invalid type, of which the master writes a log line
      | some _, .handshake _ _ => .ok c
  | .monitorMaster i =>
    match c.slave i, c.toSlave i with
    | some s, package :: rest =>
      let c := { c with toSlave := update c.toSlave i rest }
      match s.monitoring, package with
      | false, .wait _ => .ok (c.setSlave i ({ s with monitoring := true }, []))
      | false, _ => .error .shakehandFailed
      | true, .name id address => .ok (c.setSlave i (s.learn id address, []))
      -- the links between the slaves are left out
      | true, .connect _ _ => .ok c
      | true, .wait _ => .ok c
    | some _, [] => .error .noPackage
    | none, _ => .error .notRunning

end Cluster

end Mtask.GlobalNames
