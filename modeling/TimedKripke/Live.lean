import TimedKripke.Ringlet.Dispatch
import TimedKripke.Schedule.Validation

/-! # Running a schedule live

The live scheduler runs the cycles of a schedule against an environment, one section
after the other in the order of their start. A section reads the inputs its machines
observe, executes its timeslots, and writes the outputs of its machines. Time is
virtual: the clock of a machine shows the time since it entered its current state.

A cycle that fails keeps what it did before it failed.
-/

namespace TimedKripke

/-- What happened in a cycle. -/
structure CycleReport where
  /-- The number of the cycle, from zero. -/
  cycle : Nat
  startedAt : Time
  /-- The number of timeslots executed. -/
  ringlets : Nat
  /-- The scheduled executables that made transitions, in order. -/
  transitioned : List ExecutableId
  /-- The number of calls dispatched. -/
  calls : Nat
deriving DecidableEq, Repr

/-- A schedule that runs. -/
structure LiveScheduler where
  timing : ScheduleTiming
  /-- The sections in the order in which they run. -/
  sections : List SnapshotSection
  cycleLength : Time
  pool : Pool
  environment : PropertyList
  /-- When the executables entered their current states; zero if not given. -/
  entered : OrderedMap ExecutableId Time
  /-- The time at which the next cycle starts. -/
  now : Time
  cycles : Nat

/-- A part of a cycle; it may fail and then keeps what it did before. -/
abbrev Live (α : Type) := ExceptT Fault (StateM LiveScheduler) α

namespace LiveScheduler

/-- The sections of a schedule in the order of their start, and of their threads when
they start together. -/
def orderedSections (schedule : Schedule) : List SnapshotSection :=
  let placed := schedule.threads.zipIdx.flatMap fun thread =>
    thread.1.sections.map fun part => (part.startingTime, thread.2, part)
  (placed.mergeSort fun first second =>
    decide (first.1 < second.1) ||
      (first.1 == second.1 && decide (first.2.1 ≤ second.2.1))).map fun entry => entry.2.2

/-- A schedule about to run on a pool that it fits. -/
def new (schedule : Schedule) (pool : Pool) (environment : PropertyList) :
    Except Fault LiveScheduler :=
  match schedule.validate pool with
  | .error fault => .error fault
  | .ok _ => .ok
      { timing := schedule.timing
        sections := orderedSections schedule
        cycleLength := schedule.cycleLength
        pool
        environment
        entered := []
        now := 0
        cycles := 0 }

/-- Every scheduled machine has finished. -/
def hasFinished (scheduler : LiveScheduler) : Bool :=
  scheduler.pool.entries.all fun entry =>
    entry.executable.isCallable || entry.executable.running.hasFinished

/-- Gives an input to an executable. -/
def readInput (id : ExecutableId) (reading : String × Value) : Live Unit :=
  fun scheduler =>
    match scheduler.pool.assign id [reading] with
    | .ok pool => (.ok (), { scheduler with pool })
    | .error fault => (.error fault, scheduler)

/-- Gives an executable those inputs it observes that the environment knows. -/
def takeSnapshot (slot : Timeslot) : Live Unit := do
  let scheduler ← get
  match scheduler.pool.get? slot.executable with
  | none => throw (.unknownExecutable slot.executable)
  | some executable =>
      (executable.running.observedInputs.filterMap fun input =>
        (scheduler.environment.lookup input.name).map fun value => (input.name, value)).forM
          (readInput slot.executable)

/-- The time an executable has spent in its current state when a timeslot starts. -/
def elapsedAt (scheduler : LiveScheduler) (slot : Timeslot) : Time :=
  Time.saturatingSub (Time.saturatingAdd scheduler.now slot.startingTime)
    ((scheduler.entered.lookup slot.executable).getD 0)

/-- Executes a timeslot and adds it to the report. -/
def executeSlot (report : CycleReport) (slot : Timeslot) : Live CycleReport :=
  fun scheduler =>
    let executed := executeTimeslot scheduler.pool slot
      (Clock.new scheduler.timing (scheduler.elapsedAt slot))
    match executed.1 with
    | .error fault => (.error fault, { scheduler with pool := executed.2.pool })
    | .ok execution =>
        let entered :=
          if execution.transitioned then
            OrderedMap.insert slot.executable (Time.saturatingAdd scheduler.now slot.endTime)
              scheduler.entered
          else scheduler.entered
        (.ok { report with
            ringlets := report.ringlets + 1
            transitioned := if execution.transitioned then
              report.transitioned ++ [slot.executable] else report.transitioned
            calls := report.calls + execution.calls.length },
          { scheduler with pool := executed.2.pool, entered })

/-- Writes the outputs of an executable to the environment. -/
def saveSnapshot (slot : Timeslot) : Live Unit :=
  fun scheduler =>
    match scheduler.pool.get slot.executable with
    | .error fault => (.error fault, scheduler)
    | .ok executable => (.ok (), { scheduler with
        environment := OrderedMap.extend scheduler.environment
          (executable.running.outputs.map fun output => (output.name, output.value)) })

/-- Runs a section: reads, executes, writes. -/
def runSection (report : CycleReport) (part : SnapshotSection) : Live CycleReport := do
  part.timeslots.forM takeSnapshot
  let report ← part.timeslots.foldlM executeSlot report
  part.timeslots.forM saveSnapshot
  return report

/-- Runs one cycle. -/
def runCycle : Live CycleReport := do
  let scheduler ← get
  let report ← scheduler.sections.foldlM runSection
    { cycle := scheduler.cycles
      startedAt := scheduler.now
      ringlets := 0
      transitioned := []
      calls := 0 }
  modify fun scheduler => { scheduler with
    now := Time.saturatingAdd scheduler.now scheduler.cycleLength
    cycles := scheduler.cycles + 1 }
  return report

/-- Runs up to `count` cycles; stops early once every scheduled machine has
finished. -/
def runCycles : (count : Nat) → Live (List CycleReport)
  | 0 => return []
  | count + 1 => do
      if (← get).hasFinished then return []
      else
        let report ← runCycle
        let reports ← runCycles count
        return report :: reports

/-- Writes a value to the environment. -/
def write (scheduler : LiveScheduler) (name : String) (value : Value) : LiveScheduler :=
  { scheduler with environment := OrderedMap.insert name value scheduler.environment }

end LiveScheduler

end TimedKripke
