import TimedKripke.Kripke.State
import TimedKripke.Schedule.Basic
import TimedKripke.Variation.Thread
import TimedKripke.Verification.Odometer

/-! # Expanding a cycle of the schedule

A job is one cycle of the schedule from a given pool. Its threads run side by side:
each has its own pathways, and a variation of the schedule chooses one pathway for
every thread. The sections of the chosen pathways are laid out in the order of their
start, each as a chain of nodes: one when the environment is read and one after every
step. A section runs on what its thread has done so far; its changes are laid over the
pool that all threads share.
-/

namespace TimedKripke

/-- Where a job goes on from. -/
structure Predecessor where
  /-- The state that the previous cycle ended in. -/
  state : StateId
  /-- The timeslot that ended last in the previous cycle. -/
  slot : Timeslot

/-- One cycle that is still to be explored. -/
structure Job where
  pool : Pool
  /-- The threads with their counts of idle steps. -/
  threads : List ScheduleThread
  /-- Where the cycle goes on from. -/
  predecessor : Option Predecessor
  /-- Runs may start here. -/
  initial : Bool

/-- An edge without its target. -/
structure Incoming where
  clockName : Option String
  /-- The clock values for which the node is reached. -/
  constraint : Option Constraint
  resetClock : Bool
  takeSnapshot : Bool
  /-- The schedule time until the node. -/
  time : Time

namespace Incoming

/-- The edge to a state. -/
def toEdge (incoming : Incoming) (target : StateId) : KripkeEdge :=
  { clockName := incoming.clockName
    constraint := incoming.constraint
    resetClock := incoming.resetClock
    takeSnapshot := incoming.takeSnapshot
    time := incoming.time
    target }

end Incoming

/-- A state to be written with the edge that leads to it. -/
structure Node where
  properties : PropertyList
  isInitial : Bool
  /-- The edge from the node before. -/
  incoming : Incoming

/-- One way to run a cycle of the schedule. -/
structure ScheduleVariation where
  nodes : List Node
  pool : Pool
  /-- The threads with the counts of idle steps at the end. -/
  threads : List ScheduleThread
  /-- The timeslot that ended last. -/
  lastSlot : Timeslot
  /-- The count of idle steps after every step. -/
  cycles : List (ExecutableId × Time)

/-- What a schedule fixes for all its cycles. -/
structure Layout where
  timing : ScheduleTiming
  cycleLength : Time
  /-- Some executable has several timeslots. -/
  repeated : Bool
  /-- For every section of every thread, the place of its first timeslot among all
  timeslots. -/
  sectionSlots : List (List Nat)

namespace Layout

/-- The places of the first timeslots of sections, from a given place on, and the
place after the last. -/
def placeSections (place : Nat) : List SnapshotSection → List Nat × Nat
  | [] => ([], place)
  | part :: rest =>
      let more := placeSections (place + part.timeslots.length) rest
      (place :: more.1, more.2)

/-- The places of the first timeslots of the sections of threads. -/
def placeThreads (place : Nat) : List ScheduleThread → List (List Nat)
  | [] => []
  | thread :: rest =>
      let placed := placeSections place thread.sections
      placed.1 :: placeThreads placed.2 rest

/-- The layout of a schedule. -/
def new (schedule : Schedule) : Layout :=
  { timing := schedule.timing
    cycleLength := schedule.cycleLength
    repeated := schedule.hasRepeatedExecutables
    sectionSlots := placeThreads 0 schedule.threads }

/-- The place of the first timeslot of a section. -/
def firstSlot (layout : Layout) (thread part : Nat) : Nat :=
  ((layout.sectionSlots[thread]?).bind fun sections => sections[part]?).getD 0

/-- A place among the timeslots as a value. -/
def slotValue (slot : Nat) : Value :=
  ((ValueType.int .u64).integerValue slot).getD
    (.int .u64 18446744073709551615 (by decide))

/-- The properties of a state: the pool, the place in the program, and the place among
the timeslots where an executable has several. -/
def properties (layout : Layout) (pool : Pool) (counter : ProgramCounter) (slot : Nat) :
    PropertyList :=
  [("fsms", pool.snapshot), ("pc", counter.toValue)] ++
    if layout.repeated then [("slot", slotValue slot)] else []

end Layout

/-- A section of a chosen pathway. -/
structure ScheduledPath where
  start : Time
  /-- The place of its thread. -/
  thread : Nat
  /-- The place of the section in its thread. -/
  part : Nat
  path : SectionPath

namespace ScheduledPath

/-- Sections in the order of their start, and of their threads when they start
together. -/
def startsBefore (first second : ScheduledPath) : Bool :=
  decide (first.start < second.start) ||
    (first.start == second.start && decide (first.thread ≤ second.thread))

/-- The sections of the chosen pathways, thread by thread. -/
def ofPathways (chosen : List Pathway) : List ScheduledPath :=
  chosen.zipIdx.flatMap fun pathway => pathway.1.sections.zipIdx.map fun path =>
    { start := match path.1.steps.head? with
        | some step => step.timeslot.startingTime
        | none => 0
      thread := pathway.2
      part := path.2
      path := path.1 }

end ScheduledPath

/-- A variation in the making. -/
structure Unfolding where
  /-- The pool that all threads share. -/
  shared : Pool
  /-- For every thread, the pool its next section starts from. -/
  bases : List Pool
  nodes : List Node
  cycles : List (ExecutableId × Time)
  /-- The time of the last node. -/
  now : Option Time
  /-- The timeslot that ended last so far. -/
  latest : Option Timeslot

namespace Unfolding

/-- The later of two timeslots by their end; of two that end together the second. -/
def laterSlot (latest : Option Timeslot) (slot : Timeslot) : Timeslot :=
  match latest with
  | some latest => if latest.endTime ≤ slot.endTime then slot else latest
  | none => slot

/-- The schedule time from the node before to the reading of the environment at
`readAt`. -/
def snapshotTime (unfolding : Unfolding) (layout : Layout) (job : Job) (start readAt : Time) :
    Time :=
  match unfolding.now, job.predecessor with
  | some now, _ => readAt - now
  | none, some predecessor => predecessor.slot.timeUntil start layout.cycleLength
  | none, none => 0

/-- The node at which a section reads the environment. -/
def readNode (unfolding : Unfolding) (layout : Layout) (job : Job) (isFirst : Bool)
    (scheduled : ScheduledPath) (base : Pool) (readAt : Time) (root : Executable) : Node :=
  { properties := layout.properties (unfolding.shared.overlaid base scheduled.path.snapshot)
      { executable := root.name
        state := root.running.currentStateName
        phase := .read }
      (layout.firstSlot scheduled.thread scheduled.part)
    isInitial := job.initial && isFirst
    incoming :=
      { clockName := none
        constraint := none
        resetClock := false
        takeSnapshot := true
        time := unfolding.snapshotTime layout job scheduled.start readAt } }

/-- The nodes after the steps of a section from the step at `index` on, the first of
which starts at `time`; with the time of the last node. -/
def stepNodes (shared : Pool) (layout : Layout) (scheduled : ScheduledPath) (base : Pool) :
    (index : Nat) → (time : Time) → List SectionStep → Except Fault (List Node × Time)
  | _, time, [] => .ok ([], time)
  | index, time, step :: rest => do
      let executable ← scheduled.path.snapshot.get step.executable
      let observed ← scheduled.path.observedAfter index
      let endTime := max step.timeslot.endTime time
      let node : Node :=
        { properties := layout.properties (shared.overlaid base observed)
            { executable := executable.name
              state := step.ringlet.executedState
              phase := if rest.isEmpty then .write else .execute }
            (layout.firstSlot scheduled.thread scheduled.part + index)
          isInitial := false
          incoming :=
            { clockName := some executable.name
              constraint := step.conditional.edgeConstraint?
              resetClock := step.ringlet.transitioned
              takeSnapshot := false
              time := endTime - time } }
      let (nodes, last) ← stepNodes shared layout scheduled base (index + 1) endTime rest
      return (node :: nodes, last)

/-- Lays out one section. -/
def addSection (layout : Layout) (job : Job) (unfolding : Unfolding)
    (scheduled : ScheduledPath × Nat) : Except Fault Unfolding :=
  match scheduled.1.path.steps.head?, unfolding.bases[scheduled.1.thread]? with
  | some first, some base => do
      let path := scheduled.1.path
      let root ← path.snapshot.get first.executable
      let readAt := match unfolding.now with
        | some now => max scheduled.1.start now
        | none => scheduled.1.start
      let read := unfolding.readNode layout job (scheduled.2 == 0) scheduled.1 base readAt root
      let (nodes, last) ← stepNodes unfolding.shared layout scheduled.1 base 0 readAt path.steps
      return {
        shared := unfolding.shared.overlaid base path.after
        bases := unfolding.bases.set scheduled.1.thread path.after
        nodes := unfolding.nodes ++ read :: nodes
        cycles := unfolding.cycles ++ path.steps.map fun step =>
          (step.executable, step.timeslot.idleSteps)
        now := some last
        latest := path.steps.foldl
          (fun latest step => some (laterSlot latest step.timeslot)) unfolding.latest }
  | _, _ => .ok unfolding

end Unfolding

namespace Job

/-- The variation in which the threads run along the chosen pathways. -/
def variation (job : Job) (layout : Layout) (chosen : List Pathway) :
    Except Fault ScheduleVariation := do
  let sections := (ScheduledPath.ofPathways chosen).mergeSort ScheduledPath.startsBefore
  let start : Unfolding :=
    { shared := job.pool
      bases := chosen.map Pathway.entry
      nodes := []
      cycles := []
      now := none
      latest := none }
  let unfolded ← sections.zipIdx.foldlM (Unfolding.addSection layout job) start
  match unfolded.latest with
  | none => .error (.malformedSchedule "schedule variation executed no timeslots")
  | some lastSlot =>
      return {
        nodes := unfolded.nodes
        pool := unfolded.shared
        threads := chosen.map Pathway.thread
        lastSlot
        cycles := unfolded.cycles }

/-- The pathways of every thread. -/
def pathways (job : Job) (layout : Layout) : Except Fault (List (List Pathway)) :=
  job.threads.mapM fun thread => thread.variations job.pool layout.timing

/-- All variations of a job, in the order of the odometer over the threads'
pathways. -/
def expand (job : Job) (layout : Layout) : Except Fault (List ScheduleVariation) := do
  let pathways ← job.pathways layout
  let choices := pathways.map List.toArray
  if choices.any Array.isEmpty then return []
  else (Odometer.readings (choices.map Array.size)).mapM fun reading =>
    job.variation layout (Odometer.select reading choices)

end Job

end TimedKripke
