import TimedKripke.OrderedMap
import TimedKripke.Schedule.Timeslot

/-! # Snapshot sections

The timeslots of a section share one snapshot of the environment: inputs are read
before the first of them and outputs written after the last.
-/

namespace TimedKripke

/-- Timeslots that share one snapshot of the environment. -/
structure SnapshotSection where
  /-- The timeslots in the order in which they run. -/
  timeslots : List Timeslot
deriving DecidableEq

namespace SnapshotSection

/-- The section of some timeslots, brought into the order of their start. -/
def new (timeslots : List Timeslot) : SnapshotSection :=
  { timeslots := timeslots.mergeSort Timeslot.startsBefore }

/-- The start of the first timeslot. -/
def startingTime (part : SnapshotSection) : Time :=
  match part.timeslots.head? with
  | some slot => slot.startingTime
  | none => 0

/-- The latest end of a timeslot. -/
def endTime (part : SnapshotSection) : Time :=
  latestOf (part.timeslots.map Timeslot.endTime)

/-- The time from the start to the end. -/
def duration (part : SnapshotSection) : Time :=
  Time.saturatingSub part.endTime part.startingTime

/-- There are timeslots and no two of them overlap. -/
def isValid (part : SnapshotSection) : Bool :=
  !part.timeslots.isEmpty &&
    decide (part.timeslots.Pairwise fun first second => first.overlaps second = false)

/-- The sections have a time in common. -/
def overlaps (first second : SnapshotSection) : Bool :=
  decide (first.startingTime ≤ second.endTime) && decide (second.startingTime ≤ first.endTime)

/-- The scheduled executables, ascending. -/
def executables (part : SnapshotSection) : List ExecutableId :=
  OrderedSet.ofList (part.timeslots.map Timeslot.executable)

end SnapshotSection

end TimedKripke
