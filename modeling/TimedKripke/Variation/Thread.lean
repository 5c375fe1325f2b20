import TimedKripke.Schedule.Basic
import TimedKripke.Variation.Section

/-! # Variations of a thread

A pathway runs every section of a thread along one path, each section from the pool
that the section before it left.
-/

namespace TimedKripke

/-- One way to run a thread. -/
structure Pathway where
  /-- The pool at the start. -/
  entry : Pool
  sections : List SectionPath

namespace Pathway

/-- The pool after the last section. -/
def after (pathway : Pathway) : Pool :=
  match pathway.sections.getLast? with
  | some path => path.after
  | none => pathway.entry

/-- The thread with the counts of idle steps that the pathway leaves. -/
def thread (pathway : Pathway) : ScheduleThread :=
  ScheduleThread.new (pathway.sections.map fun path =>
    SnapshotSection.new (path.steps.map SectionStep.timeslot))

end Pathway

namespace ScheduleThread

/-- The pathways in the making after one more section. -/
def expandSection (timing : ScheduleTiming) (part : SnapshotSection) (pathway : Pathway) :
    Except Fault (List Pathway) :=
  (part.variations pathway.after timing).map fun paths =>
    paths.map fun path => { pathway with sections := pathway.sections ++ [path] }

/-- All ways to run a thread from a pool, in depth-first order. -/
def variations (thread : ScheduleThread) (pool : Pool) (timing : ScheduleTiming) :
    Except Fault (List Pathway) :=
  Search.run (expandSection timing) thread.sections { entry := pool, sections := [] }

end ScheduleThread

end TimedKripke
