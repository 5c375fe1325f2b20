import TimedKripke.Document.Constraint
import TimedKripke.Summary.Machine
import TimedKripke.Variation.Thread

/-! # Summaries of ringlets and variations

What an execution did, the interval of times it stands for, and the ways to run a
section or a thread with the pools they lead to.
-/

namespace TimedKripke

namespace SamplePoint

/-- The side on which a sample lies, the time it is named after and the time of its
clock. -/
def brief (point : SamplePoint) : Json :=
  match point with
  | start time => .array [.string "BeforeOrEqual", time.toJson, point.time.toJson]
  | past threshold => .array [.string "After", threshold.toJson, point.time.toJson]

end SamplePoint

namespace Ringlet

/-- What an execution read, wrote, called and asked. -/
def summary (ringlet : Ringlet) : Json.Members :=
  [("executable", .nat ringlet.executable), ("executed_state", .string ringlet.executedState),
    ("transitioned", .bool ringlet.transitioned),
    ("externals_pre", PropertyList.toJson ringlet.externalsBefore),
    ("externals_post", PropertyList.toJson ringlet.externalsAfter),
    ("pre", ringlet.snapshotBefore.toJson), ("post", ringlet.snapshotAfter.toJson),
    ("calls", .list Call.brief ringlet.calls), ("after_calls", .nats ringlet.callees),
    ("elapsed", ringlet.elapsed.toJson), ("queried", .list Time.toJson ringlet.queried),
    ("after", .string ringlet.after.display)]

end Ringlet

namespace ConditionalRinglet

/-- The condition as an edge carries it. -/
def edgeText (conditional : ConditionalRinglet) : Json :=
  .optional (fun constraint : Constraint => .string constraint.display)
    conditional.edgeConstraint?

/-- An execution with the times it stands for. -/
def summary (conditional : ConditionalRinglet) : Json :=
  .object
    [("condition", conditional.condition.toJson),
      ("expression", .string conditional.condition.display), ("edge", conditional.edgeText),
      ("timing", conditional.point.brief), ("elapsed", conditional.ringlet.elapsed.toJson),
      ("queried", .list Time.toJson conditional.ringlet.queried),
      ("transitioned", .bool conditional.ringlet.transitioned),
      ("post", .string conditional.ringlet.snapshotAfter.display)]

end ConditionalRinglet

namespace SectionStep

/-- An executed timeslot of a path. -/
def summary (step : SectionStep) : Json.Members :=
  [("executable", .nat step.executable), ("cycles", step.timeslot.idleSteps.toJson),
    ("assignments", PropertyList.toJson step.assignments),
    ("condition", .string step.conditional.condition.display),
    ("edge", step.conditional.edgeText), ("timing", step.conditional.point.brief),
    ("state", .string step.ringlet.executedState),
    ("transitioned", .bool step.ringlet.transitioned)]

end SectionStep

namespace SectionPath

/-- The steps of a path and the pool it leads to. -/
def summary (path : SectionPath) : Json :=
  .object
    [("steps", .list (fun step : SectionStep => .object step.summary) path.steps),
      ("after", .string path.after.display)]

/-- A path with the pools that are observed along it. -/
def fullSummary (path : SectionPath) : Except Fault Json := do
  let steps ← path.steps.zipIdx.mapM fun step => do
    let observed ← path.observedAfter step.2
    return Json.object (step.1.summary ++ [("observed", .string observed.display)])
  let final ← path.observedAfter path.steps.length
  return .object
    [("steps", .array steps), ("after", .string path.after.display),
      ("before", .string path.before.display), ("snapshot", .string path.snapshot.display),
      ("observed_past_end", .bool (final.same path.after))]

/-- A path in the given detail. -/
def summaryIn (full : Bool) (path : SectionPath) : Except Fault Json :=
  if full then path.fullSummary else .ok path.summary

end SectionPath

namespace Pathway

/-- A timeslot as an array of executable, start and idle steps. -/
def slotSummary (slot : Timeslot) : Json :=
  .array [.nat slot.executable, slot.startingTime.toJson, slot.idleSteps.toJson]

/-- The paths of a pathway, the pool it leads to, and the thread it leaves. -/
def summaryIn (full : Bool) (pool : Pool) (pathway : Pathway) : Except Fault Json := do
  return .object
    [("sections", .array (← pathway.sections.mapM (SectionPath.summaryIn full))),
      ("before_unchanged", .bool (pathway.entry.same pool)),
      ("after", .string pathway.after.display),
      ("thread", .list (fun part : SnapshotSection => .list slotSummary part.timeslots)
        pathway.thread.sections)]

end Pathway

end TimedKripke
