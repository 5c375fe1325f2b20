import TimedKripke.Fault
import TimedKripke.OrderedMap
import TimedKripke.Time

/-! # Clocks

A machine asks its clock whether more than a given time has passed in its current
state. The clock of a step stands still and remembers the thresholds it was asked
about: they are the only times at which the step could have gone another way.
-/

namespace TimedKripke

/-- What a schedule says about lengths: that of each executable's timeslot and that of
a whole cycle. -/
structure ScheduleTiming where
  /-- The length of the timeslot of each executable. -/
  ringletLengths : OrderedMap ExecutableId Time
  /-- The length of one cycle. -/
  scheduleLength : Time
deriving DecidableEq

namespace ScheduleTiming

/-- Nothing is scheduled. -/
def empty : ScheduleTiming :=
  { ringletLengths := [], scheduleLength := 0 }

/-- The length of an executable's timeslot. -/
def ringletLength? (timing : ScheduleTiming) (id : ExecutableId) : Option Time :=
  timing.ringletLengths.lookup id

end ScheduleTiming

/-- A clock that stands at a time and records the thresholds it is asked about. -/
structure Clock where
  timing : ScheduleTiming
  /-- The time spent in the current state. -/
  elapsed : Time
  /-- The thresholds asked about so far, ascending. -/
  queried : List Time

namespace Clock

/-- A clock that has not been asked anything. -/
def new (timing : ScheduleTiming) (elapsed : Time) : Clock :=
  { timing, elapsed, queried := [] }

/-- Whether more than `threshold` has passed, and the clock that remembers the
question. -/
def after (clock : Clock) (threshold : Time) : Bool × Clock :=
  (decide (threshold < clock.elapsed),
    { clock with queried := OrderedSet.insert threshold clock.queried })

end Clock

end TimedKripke
