import TimedKripke.Call.Chain
import TimedKripke.Time

/-! # Timeslots

A timeslot is a window of the schedule in which one executable, with whatever it
calls, makes exactly one step. Windows are closed at both ends, so two that touch
overlap.
-/

namespace TimedKripke

/-- A scheduled window. -/
structure Timeslot where
  /-- The executables that may run in the window, ascending. -/
  executables : List ExecutableId
  /-- The calls that are open when the window starts; its root is what is
  scheduled. -/
  callChain : CallChain
  /-- The start of the window in the cycle. -/
  startingTime : Time
  duration : Time
  /-- The number of steps in a row in which the root made no transition. -/
  idleSteps : Time
deriving DecidableEq

namespace Timeslot

/-- The window in which one executable runs alone. -/
def new (executable : ExecutableId) (startingTime duration : Time) : Timeslot :=
  { executables := [executable]
    callChain := CallChain.new executable
    startingTime
    duration
    idleSteps := 0 }

/-- The scheduled executable. -/
def executable (slot : Timeslot) : ExecutableId :=
  slot.callChain.root

/-- The end of the window. -/
def endTime (slot : Timeslot) : Time :=
  Time.saturatingAdd slot.startingTime slot.duration

/-- The windows have a time in common. -/
def overlaps (first second : Timeslot) : Bool :=
  decide (first.startingTime ≤ second.endTime) && decide (second.startingTime ≤ first.endTime)

/-- The window with another count of idle steps. -/
def withIdleSteps (slot : Timeslot) (idleSteps : Time) : Timeslot :=
  { slot with idleSteps }

/-- The time from the end of the window to `time`, which may lie in the next cycle. -/
def timeUntil (slot : Timeslot) (time cycleLength : Time) : Time :=
  if slot.endTime ≤ time then time - slot.endTime
  else Time.saturatingAdd (Time.saturatingSub cycleLength slot.endTime) time

/-- Windows in the order of their start, and of their executables when they start
together. -/
def startsBefore (first second : Timeslot) : Bool :=
  decide (first.startingTime < second.startingTime) ||
    (first.startingTime == second.startingTime && decide (first.executable ≤ second.executable))

end Timeslot

/-- The latest of a list of times, zero when there is none. -/
def latestOf (times : List Time) : Time :=
  times.foldl max 0

end TimedKripke
