import TimedKripke.Pool.Executable

/-! # Pools

A pool is one consistent state of the world: every registered executable, in the
order of the ids. A pool is a finite map from ids; its text and its identity as a
Kripke state are those of `Pool.snapshot`, the map from registered names to
snapshots.
-/

namespace TimedKripke

/-- A registered executable. -/
structure PoolEntry where
  registration : Registration
  executable : Executable

namespace PoolEntry

/-- The id of an entry. -/
def id (entry : PoolEntry) : ExecutableId :=
  entry.registration.id

end PoolEntry

/-- What a search among ascending ids comes to. -/
inductive Place where
  /-- The id stands at the index. -/
  | found (index : Nat)
  /-- The id is missing; it belongs before what stands at the index. -/
  | missing (index : Nat)
deriving DecidableEq, Repr

namespace Place

/-- Bisects the part of ascending ids from `low` up to `high`. -/
def bisect (ids : Array ExecutableId) (id : ExecutableId) (low high : Nat)
    (within : high ≤ ids.size) : Place :=
  if wide : low < high then
    let middle := (low + high) / 2
    have inside : middle < ids.size := by omega
    if ids[middle] < id then bisect ids id (middle + 1) high within
    else if id < ids[middle] then bisect ids id low middle (Nat.le_of_lt inside)
    else .found middle
  else .missing low
termination_by high - low

/-- The index of an id that stands there. -/
def index? : Place → Option Nat
  | found index => some index
  | missing _ => none

end Place

/-- The registered executables, in ascending order of their ids. -/
structure Pool where
  entries : List PoolEntry

namespace Pool

/-- The first id that stands next to itself. -/
def adjacentRepeat : List ExecutableId → Option ExecutableId
  | first :: second :: rest =>
      if first = second then some first else adjacentRepeat (second :: rest)
  | _ => none

/-- The pool of some entries, in any order; no id may be used twice. -/
def new (entries : List PoolEntry) : Except Fault Pool :=
  let sorted := entries.mergeSort fun first second => decide (first.id ≤ second.id)
  match adjacentRepeat (sorted.map PoolEntry.id) with
  | some id => .error (.duplicateExecutable id)
  | none => .ok { entries := sorted }

/-- The ids in use, ascending. -/
def ids (pool : Pool) : List ExecutableId :=
  pool.entries.map PoolEntry.id

/-- The entry of an id. -/
def entry? (pool : Pool) (id : ExecutableId) : Option PoolEntry :=
  pool.entries.find? fun entry => entry.id == id

/-- The executable of an id. -/
def get? (pool : Pool) (id : ExecutableId) : Option Executable :=
  (pool.entry? id).map PoolEntry.executable

/-- The executable of an id, or the fault that there is none. -/
def get (pool : Pool) (id : ExecutableId) : Except Fault Executable :=
  match pool.get? id with
  | some executable => .ok executable
  | none => .error (.unknownExecutable id)

/-- The registration of an id. -/
def registration? (pool : Pool) (id : ExecutableId) : Option Registration :=
  (pool.entry? id).map PoolEntry.registration

/-- Where an id stands among the ids in use, or belongs. -/
def place (pool : Pool) (id : ExecutableId) : Place :=
  let ids := pool.ids.toArray
  Place.bisect ids id 0 ids.size (Nat.le_refl _)

/-- The place of an id among the ids in use. -/
def index? (pool : Pool) (id : ExecutableId) : Option Nat :=
  (pool.place id).index?

/-- The id is in use. -/
def has (pool : Pool) (id : ExecutableId) : Bool :=
  (pool.entry? id).isSome

/-- The id is that of an executable that is scheduled. -/
def hasScheduled (pool : Pool) (id : ExecutableId) : Bool :=
  match pool.get? id with
  | some executable => !executable.isCallable
  | none => false

/-- The first id registered under a name. -/
def idOf? (pool : Pool) (name : String) : Option ExecutableId :=
  (pool.entries.find? fun entry => entry.registration.name == name).map PoolEntry.id

/-- Registers an entry among others, replacing the one of its id. -/
def insertEntry (entry : PoolEntry) : List PoolEntry → List PoolEntry
  | [] => [entry]
  | first :: rest =>
      if entry.id < first.id then entry :: first :: rest
      else if entry.id = first.id then entry :: rest
      else first :: insertEntry entry rest

/-- Registers an entry, replacing the one of its id. -/
def insert (pool : Pool) (entry : PoolEntry) : Pool :=
  { entries := insertEntry entry pool.entries }

/-- Replaces the executable of an id that is in use. -/
def set (pool : Pool) (id : ExecutableId) (executable : Executable) : Pool :=
  { entries := pool.entries.map fun entry =>
      if entry.id = id then { entry with executable } else entry }

/-- The snapshots of the executables by registered name; of two with one name the one
with the greater id. -/
def propertyList (pool : Pool) : PropertyList :=
  OrderedMap.ofList (pool.entries.map fun entry =>
    (entry.registration.name, entry.executable.snapshot))

/-- The pool as a value. -/
def snapshot (pool : Pool) : Value :=
  .compound pool.propertyList

/-- The text of the pool as a value. -/
def display (pool : Pool) : String :=
  pool.snapshot.display

/-- The names of an executable's externals and dependencies, ascending. -/
def dependenciesOf (pool : Pool) (id : ExecutableId) : List String :=
  match pool.entry? id with
  | some entry => OrderedSet.ofList
      (entry.executable.running.externals.map External.name ++
        entry.registration.dependencies.map Dependency.name)
  | none => []

/-- What the executables can find out about each other. -/
def directory (pool : Pool) : Directory :=
  { names := OrderedMap.ofList (pool.entries.map fun entry =>
      (entry.registration.name, entry.id))
    results := OrderedMap.ofList (pool.entries.filterMap fun entry =>
      entry.executable.result?.map fun value => (entry.id, value)) }

/-- The executable of an entry is as it was in `base`. -/
def isUnchanged (base : Pool) (entry : PoolEntry) : Bool :=
  match base.get? entry.id with
  | some before => before.same entry.executable
  | none => false

/-- The pool with every executable that `changed` changes from `base`. -/
def overlaid (pool base changed : Pool) : Pool :=
  (changed.entries.filter fun entry => !base.isUnchanged entry).foldl insert pool

/-- Pools are the same if their entries agree in registration and snapshot. -/
def same (first second : Pool) : Bool :=
  (first.entries.map fun entry => (entry.registration, entry.executable.snapshot)) ==
    second.entries.map fun entry => (entry.registration, entry.executable.snapshot)

/-- Writes values to the externals of an instance. -/
def writeExternals (running : Instance) : PropertyList → Except Fault Instance
  | [] => .ok running
  | (name, value) :: rest =>
      match running.setExternal name value with
      | .ok written => writeExternals written rest
      | .error fault => .error fault

/-- Writes values to the externals of an executable. -/
def assign (pool : Pool) (id : ExecutableId) (values : PropertyList) : Except Fault Pool :=
  match pool.get? id with
  | none => .error (.unknownExecutable id)
  | some executable =>
      match writeExternals executable.running values with
      | .ok running => .ok (pool.set id (executable.withRunning running))
      | .error fault => .error fault

end Pool

end TimedKripke
