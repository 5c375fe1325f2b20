import TimedKripke.Enumeration.Combinations
import TimedKripke.Ringlet.TimeAware
import TimedKripke.Schedule.Section
import TimedKripke.Variation.Search

/-! # Variations of a section

A section can run in as many ways as there are inputs to read and intervals of time to
tell apart. Before each timeslot the inputs its machine observes take every value of
their types; an input that an earlier timeslot of the section has read keeps its
value, because the timeslots of a section share one snapshot of the environment.
After each timeslot every conditional ringlet makes a branch of its own.
-/

namespace TimedKripke

/-- One executed timeslot of a path. -/
structure SectionStep where
  /-- The timeslot with its count of idle steps brought up to date. -/
  timeslot : Timeslot
  /-- The execution that was chosen. -/
  conditional : ConditionalRinglet
  /-- The inputs the machine was given. -/
  assignments : PropertyList

namespace SectionStep

/-- The scheduled executable. -/
def executable (step : SectionStep) : ExecutableId :=
  step.timeslot.executable

/-- The execution. -/
def ringlet (step : SectionStep) : Ringlet :=
  step.conditional.ringlet

end SectionStep

/-- One way to run a section. -/
structure SectionPath where
  steps : List SectionStep
  /-- The pool at the start, with all inputs of the path assigned. -/
  snapshot : Pool
  /-- The pool after the last step. -/
  after : Pool

namespace SectionPath

/-- The pool the first step ran on. -/
def before (path : SectionPath) : Pool :=
  match path.steps.head? with
  | some step => step.ringlet.before
  | none => path.snapshot

/-- Assigns the inputs of later steps to the machines that have not run yet. -/
def assignLater (ran : List ExecutableId) (pool : Pool) : List SectionStep → Except Fault Pool
  | [] => .ok pool
  | step :: rest =>
      if ran.contains step.executable then assignLater ran pool rest
      else
        match pool.assign step.executable step.assignments with
        | .error fault => .error fault
        | .ok assigned => assignLater ran assigned rest

/-- The pool after the step at `index` as the environment's snapshot shows it: the
machines whose step is still to come already have their inputs. -/
def observedAfter (path : SectionPath) (index : Nat) : Except Fault Pool :=
  match path.steps[index]? with
  | none => .ok path.after
  | some step =>
      assignLater ((path.steps.take (index + 1)).map SectionStep.executable) step.ringlet.after
        (path.steps.drop (index + 1))

end SectionPath

/-- A path in the making. -/
structure SectionBranch where
  /-- The pool after the steps so far. -/
  pool : Pool
  /-- The pool at the start, with the inputs so far assigned. -/
  snapshot : Pool
  /-- The inputs that have been read. -/
  fixed : PropertyList
  steps : List SectionStep

namespace SectionBranch

/-- The branch before the first timeslot. -/
def start (pool : Pool) : SectionBranch :=
  { pool, snapshot := pool, fixed := [], steps := [] }

/-- The path of a branch that has passed all timeslots. -/
def toPath (branch : SectionBranch) : SectionPath :=
  { steps := branch.steps, snapshot := branch.snapshot, after := branch.pool }

/-- The count of idle steps after a ringlet. -/
def idleCount (slot : Timeslot) (ringlet : Ringlet) : Time :=
  if ringlet.transitioned then 0 else Time.saturatingAdd slot.idleSteps 1

/-- The branch after one of the executions of a timeslot. -/
def extend (branch : SectionBranch) (slot : Timeslot) (snapshot : Pool)
    (assignments : PropertyList) (conditional : ConditionalRinglet) : SectionBranch :=
  { pool := conditional.ringlet.after
    snapshot
    fixed := OrderedMap.extend branch.fixed assignments
    steps := branch.steps ++ [{
      timeslot := slot.withIdleSteps (idleCount slot conditional.ringlet)
      conditional
      assignments }] }

/-- The branches of a timeslot for one assignment of its inputs. -/
def expandAssignment (timing : ScheduleTiming) (slot : Timeslot) (branch : SectionBranch)
    (assignments : PropertyList) : Except Fault (List SectionBranch) := do
  let pool ← branch.pool.assign slot.executable assignments
  let snapshot ← branch.snapshot.assign slot.executable assignments
  let ringlets ← Ringlet.timeAware pool slot timing 0
  return ringlets.map (branch.extend slot snapshot assignments)

/-- The inputs of a timeslot that were read before, with the values they keep. -/
def shared (branch : SectionBranch) (observed : List External) : PropertyList :=
  OrderedMap.ofList (observed.filterMap fun input =>
    (branch.fixed.lookup input.name).map fun value => (input.name, value))

/-- The inputs of a timeslot that are read for the first time. -/
def free (branch : SectionBranch) (observed : List External) : List (String × ValueType) :=
  (observed.filter fun input => !OrderedMap.contains branch.fixed input.name).map fun input =>
    (input.name, input.type)

/-- The branches of a timeslot, for every assignment of its inputs. -/
def expand (timing : ScheduleTiming) (slot : Timeslot) (branch : SectionBranch) :
    Except Fault (List SectionBranch) := do
  let executable ← branch.pool.get slot.executable
  let observed := executable.running.observedInputs
  let free := branch.free observed
  let combinations ← Combinations.named free
  let branches ← combinations.visit fun tuple =>
    branch.expandAssignment timing slot
      (OrderedMap.extend (branch.shared observed) ((free.map Prod.fst).zip tuple))
  return branches.flatten

end SectionBranch

namespace SnapshotSection

/-- All ways to run a section from a pool, in depth-first order. -/
def variations (part : SnapshotSection) (pool : Pool) (timing : ScheduleTiming) :
    Except Fault (List SectionPath) :=
  if part.timeslots.isEmpty then
    .error (.malformedSchedule "snapshot section has no timeslots")
  else
    (Search.run (SectionBranch.expand timing) part.timeslots (SectionBranch.start pool)).map
      (List.map SectionBranch.toPath)

end SnapshotSection

end TimedKripke
