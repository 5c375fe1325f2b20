import TimedKripke.Clock
import TimedKripke.Schedule.Section

/-! # Schedules

A thread is a sequence of sections that run one after the other; a schedule is a set
of threads that run side by side, again and again, in cycles.
-/

namespace TimedKripke

/-- Sections that run one after the other. -/
structure ScheduleThread where
  /-- The sections in the order in which they run. -/
  sections : List SnapshotSection
deriving DecidableEq

namespace ScheduleThread

/-- The thread of some sections, brought into the order of their start. -/
def new (sections : List SnapshotSection) : ScheduleThread :=
  { sections := sections.mergeSort fun first second =>
      decide (first.startingTime ≤ second.startingTime) }

/-- The timeslots of all sections, in order. -/
def timeslots (thread : ScheduleThread) : List Timeslot :=
  thread.sections.flatMap SnapshotSection.timeslots

/-- Every section is valid and no two timeslots overlap. -/
def isValid (thread : ScheduleThread) : Bool :=
  thread.sections.all SnapshotSection.isValid &&
    decide (thread.timeslots.Pairwise fun first second => first.overlaps second = false)

/-- The scheduled executables, ascending. -/
def executables (thread : ScheduleThread) : List ExecutableId :=
  OrderedSet.ofList (thread.timeslots.map Timeslot.executable)

/-- Sections of the two threads have a time in common. -/
def willOverlap (first second : ScheduleThread) : Bool :=
  first.sections.any fun part => second.sections.any part.overlaps

/-- The sections of both threads in the order of their start. -/
def merge (first second : ScheduleThread) : ScheduleThread :=
  new (first.sections ++ second.sections)

end ScheduleThread

/-- Threads that run side by side in cycles. -/
structure Schedule where
  threads : List ScheduleThread
deriving DecidableEq

namespace Schedule

/-- The timeslots of all threads, thread by thread. -/
def timeslots (schedule : Schedule) : List Timeslot :=
  schedule.threads.flatMap ScheduleThread.timeslots

/-- The latest end of a timeslot. -/
def cycleLength (schedule : Schedule) : Time :=
  latestOf (schedule.timeslots.map Timeslot.endTime)

/-- Notes that an executable runs in a timeslot of the given length; the longest
length counts. -/
def noteLength (lengths : OrderedMap ExecutableId Time) (id : ExecutableId) (duration : Time) :
    OrderedMap ExecutableId Time :=
  OrderedMap.insert id (max ((lengths.lookup id).getD duration) duration) lengths

/-- The lengths of the executables' timeslots and of a cycle. -/
def timing (schedule : Schedule) : ScheduleTiming :=
  { ringletLengths := schedule.timeslots.foldl (fun lengths slot =>
      slot.executables.foldl (fun lengths id => noteLength lengths id slot.duration) lengths) []
    scheduleLength := schedule.cycleLength }

/-- Some executable is scheduled in more than one timeslot. -/
def hasRepeatedExecutables (schedule : Schedule) : Bool :=
  !decide (schedule.timeslots.map Timeslot.executable).Nodup

end Schedule

end TimedKripke
