import TimedKripke.Ringlet.Dispatch

/-! # Ringlets

A ringlet is one execution of a timeslot: the pools before and after it, what its
scheduled executable read, wrote and called, and the thresholds that were asked of the
clock.
-/

namespace TimedKripke

/-- One execution of a timeslot. -/
structure Ringlet where
  timeslot : Timeslot
  before : Pool
  after : Pool
  transitioned : Bool
  /-- The inputs that were observed. -/
  externalsBefore : PropertyList
  /-- The outputs that were left. -/
  externalsAfter : PropertyList
  /-- The scheduled executable before. -/
  snapshotBefore : Value
  /-- The scheduled executable after. -/
  snapshotAfter : Value
  /-- The calls dispatched, in order. -/
  calls : List Call
  /-- The name of the state that was executed. -/
  executedState : String
  /-- The time at which the clock stood. -/
  elapsed : Time
  /-- The thresholds asked of the clock, ascending. -/
  queried : List Time

namespace Ringlet

/-- The scheduled executable. -/
def executable (ringlet : Ringlet) : ExecutableId :=
  ringlet.timeslot.executable

/-- The executables that were called, ascending. -/
def callees (ringlet : Ringlet) : List ExecutableId :=
  OrderedSet.ofList (ringlet.calls.map Call.callee)

/-- The values of externals by name. -/
def externalValues (externals : List External) : PropertyList :=
  OrderedMap.ofList (externals.map fun declared => (declared.name, declared.value))

/-- Executes a timeslot with the clock at `elapsed`. -/
def execute (pool : Pool) (slot : Timeslot) (timing : ScheduleTiming) (elapsed : Time) :
    Except Fault Ringlet :=
  match pool.get slot.executable with
  | .error fault => .error fault
  | .ok executable =>
      match executeTimeslot pool slot (Clock.new timing elapsed) with
      | (.error fault, _) => .error fault
      | (.ok execution, final) =>
          match final.pool.get slot.executable with
          | .error fault => .error fault
          | .ok executed => .ok
              { timeslot := slot
                before := pool
                after := final.pool
                transitioned := execution.transitioned
                externalsBefore := externalValues executable.running.observedInputs
                externalsAfter := externalValues executed.running.outputs
                snapshotBefore := executable.snapshot
                snapshotAfter := executed.snapshot
                calls := execution.calls
                executedState := executable.running.currentStateName
                elapsed
                queried := final.clock.queried }

end Ringlet

end TimedKripke
