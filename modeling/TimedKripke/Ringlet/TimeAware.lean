import TimedKripke.Constraint
import TimedKripke.Ringlet.Basic

/-! # Ringlets across time

An execution depends on time only through the thresholds it asks of the clock, so
between two neighbouring thresholds all executions are alike. Starting from a first
execution, `Ringlet.samples` executes again just past each threshold that was asked
about, smallest first, until no threshold is left. Each sample stands for an interval
of times, and the intervals cover all times from the start on without overlap.
-/

namespace TimedKripke

/-- The place in its interval at which a sample was taken. -/
inductive SamplePoint where
  /-- At the start of all times considered. -/
  | start (time : Time)
  /-- Just past a threshold. -/
  | past (threshold : Time)
deriving DecidableEq, Repr

namespace SamplePoint

/-- The time at which the clock stood. -/
def time : SamplePoint → Time
  | start time => time
  | past threshold => Time.saturatingAdd threshold 1

/-- The constraint that bounds the interval from below; none when it starts at zero. -/
def lower? : SamplePoint → Option Constraint
  | start time => if time = 0 then none else some (.greaterThanEqual time)
  | past threshold => some (.greaterThan threshold)

/-- The constraint of the interval that starts here and reaches up to and including
`upper`. -/
def interval (point : SamplePoint) (upper : Option Time) : Constraint :=
  match point.lower?, upper with
  | some lower, some upper => .and lower (.lessThanEqual upper)
  | some lower, none => lower
  | none, some upper => .lessThanEqual upper
  | none, none => .greaterThanEqual 0

/-- The threshold past which the interval starts. -/
def threshold? : SamplePoint → Option Time
  | start _ => none
  | past threshold => some threshold

end SamplePoint

/-- A ringlet that stands for all times at which its condition holds. -/
structure ConditionalRinglet where
  ringlet : Ringlet
  /-- The times for which the execution stands. -/
  condition : Constraint
  /-- The place at which the execution was sampled. -/
  point : SamplePoint

namespace ConditionalRinglet

/-- The condition, or nothing if it visibly always holds. -/
def edgeConstraint? (conditional : ConditionalRinglet) : Option Constraint :=
  if conditional.condition.isTrivial then none else some conditional.condition

end ConditionalRinglet

namespace Ringlet

/-- A threshold below the latest time has a next time. -/
theorem toNat_add_one_of_ne_latest {threshold : Time} (below : threshold ≠ Time.latest) :
    (threshold + 1).toNat = threshold.toNat + 1 := by
  have bound := threshold.toNat_lt
  have distinct : threshold.toNat ≠ 18446744073709551615 := fun equal =>
    below (UInt64.toNat_inj.mp equal)
  have one : (1 : UInt64).toNat = 1 := rfl
  rw [UInt64.toNat_add, one]
  omega

/-- Past a threshold that is not before `start`, less time is left than from `start`. -/
theorem remaining_lt_of_found {start threshold : Time} {asked : List Time}
    (found : asked.find? (fun threshold => decide (start ≤ threshold)) = some threshold)
    (below : threshold ≠ Time.latest) :
    18446744073709551616 - (threshold + 1).toNat < 18446744073709551616 - start.toNat := by
  have reached : start ≤ threshold := by simpa using List.find?_some found
  have ordered : start.toNat ≤ threshold.toNat := UInt64.le_iff_toNat_le.mp reached
  have successor := toNat_add_one_of_ne_latest below
  have bound := (threshold + 1).toNat_lt
  omega

/-- Executions just past every threshold from `start` on, in ascending order, where
`asked` are the thresholds known so far. Executions may ask about further
thresholds. -/
def samplesFrom (execute : Time → Except Fault Ringlet) (start : Time) (asked : List Time) :
    Except Fault (List (SamplePoint × Ringlet)) :=
  match found : asked.find? fun threshold => decide (start ≤ threshold) with
  | none => .ok []
  | some threshold =>
      if last : threshold = Time.latest then .ok []
      else
        have := remaining_lt_of_found found last
        match execute (threshold + 1) with
        | .error fault => .error fault
        | .ok ringlet =>
            (samplesFrom execute (threshold + 1) (OrderedSet.union asked ringlet.queried)).map
              ((SamplePoint.past threshold, ringlet) :: ·)
termination_by 18446744073709551616 - start.toNat

/-- The samples of a timeslot from a starting time on. -/
def samples (execute : Time → Except Fault Ringlet) (start : Time) :
    Except Fault (List (SamplePoint × Ringlet)) :=
  match execute start with
  | .error fault => .error fault
  | .ok ringlet =>
      (samplesFrom execute start ringlet.queried).map ((SamplePoint.start start, ringlet) :: ·)

/-- Gives each sample the interval up to the threshold of the next one. -/
def conditions : List (SamplePoint × Ringlet) → List ConditionalRinglet
  | [] => []
  | (point, ringlet) :: rest =>
      let upper := rest.head?.bind fun next => next.1.threshold?
      { ringlet, condition := point.interval upper, point } :: conditions rest

/-- All executions of a timeslot from a starting time on, in ascending order of their
intervals. -/
def timeAware (pool : Pool) (slot : Timeslot) (timing : ScheduleTiming) (start : Time) :
    Except Fault (List ConditionalRinglet) :=
  (samples (execute pool slot timing) start).map conditions

end Ringlet

end TimedKripke
