import TimedKripke.Pool.Basic
import TimedKripke.Schedule.Basic

/-! # Valid schedules

A schedule fits a pool if its threads are free of overlaps, every timeslot is
complete and registered, no executable is scheduled on two threads, and sections that
run at the same time share no external and no dependency.
-/

namespace TimedKripke

/-- Two lists have a member in common. -/
def intersects {α : Type} [BEq α] (first second : List α) : Bool :=
  first.any second.contains

/-- Two sets of executables have a member, an external name or a dependency name in
common. -/
def shareDependencies (pool : Pool) (first second : List ExecutableId) : Bool :=
  intersects first second ||
    intersects (first.flatMap pool.dependenciesOf) (second.flatMap pool.dependenciesOf)

namespace ScheduleThread

/-- The threads have executables, external names or dependency names in common. -/
def sharesDependencies (first second : ScheduleThread) (pool : Pool) : Bool :=
  shareDependencies pool first.executables second.executables

end ScheduleThread

namespace Schedule

/-- What is wrong with a timeslot of a thread. -/
def timeslotFault? (pool : Pool) (thread : Nat) (slot : Timeslot) : Option Fault :=
  if slot.executables.isEmpty then
    some (.malformedSchedule ("thread " ++ toString thread ++
      " has a timeslot with no executables"))
  else if !slot.executables.contains slot.executable then
    some (.malformedSchedule ("call chain root " ++ ExecutableId.display slot.executable ++
      " is not scheduled in its own timeslot"))
  else (slot.executables.find? fun id => !pool.has id).map .unknownExecutable

/-- What is wrong with a thread by itself. -/
def threadFault? (pool : Pool) (position : Nat) (thread : ScheduleThread) : Option Fault :=
  if !thread.isValid then
    some (.malformedSchedule ("thread " ++ toString position ++
      " has overlapping or empty sections"))
  else thread.timeslots.findSome? (timeslotFault? pool position)

/-- The sections of two threads run at the same time and depend on each other. -/
def conflict (pool : Pool) (first second : ScheduleThread) : Bool :=
  first.sections.any fun part => second.sections.any fun other =>
    part.overlaps other && shareDependencies pool part.executables other.executables

/-- What is wrong between two threads. -/
def pairFault? (pool : Pool) (position : Nat) (first : ScheduleThread) (position' : Nat)
    (second : ScheduleThread) : Option Fault :=
  match first.executables.find? second.executables.contains with
  | some id => some (.malformedSchedule (ExecutableId.display id ++ " is scheduled on threads " ++
      toString position ++ " and " ++ toString position'))
  | none =>
      if conflict pool first second then
        some (.malformedSchedule ("threads " ++ toString position ++ " and " ++
          toString position' ++ " run dependent sections at the same time"))
      else none

/-- What is wrong between one thread and those that follow it. -/
def pairFaults? (pool : Pool) : List (ScheduleThread × Nat) → Option Fault
  | [] => none
  | (first, position) :: rest =>
      (rest.findSome? fun other => pairFault? pool position first other.2 other.1).or
        (pairFaults? pool rest)

/-- The first thing that is wrong with a schedule: threads by themselves come before
pairs of threads. -/
def fault? (schedule : Schedule) (pool : Pool) : Option Fault :=
  (schedule.threads.zipIdx.findSome? fun thread => threadFault? pool thread.2 thread.1).or
    (pairFaults? pool schedule.threads.zipIdx)

/-- Checks a schedule against a pool. -/
def validate (schedule : Schedule) (pool : Pool) : Except Fault Unit :=
  match schedule.fault? pool with
  | some fault => .error fault
  | none => .ok ()

end Schedule

end TimedKripke
