import TimedKripke.Document.Schedule

/-! # Summaries of calls and schedules

A summary is a document that shows a model, with what can be worked out from it,
instead of storing it: times and validity of the parts of a schedule, the open calls
of a chain.
-/

namespace TimedKripke

namespace Call

/-- A call as an array of caller, callee, method and arguments. -/
def brief (call : Call) : Json :=
  .array [.nat call.caller, .nat call.callee, .string call.method.display,
    call.parameters.toJson]

end Call

namespace CallChain

/-- A chain with the executable in control and the callees of its calls. -/
def summary (chain : CallChain) : Json :=
  .object
    [("display", .string chain.display), ("root", .nat chain.root),
      ("executable", .nat chain.executable), ("len", .nat chain.calls.length),
      ("is_empty", .bool chain.calls.isEmpty), ("callees", .nats (chain.calls.map Call.callee))]

end CallChain

namespace Timeslot

/-- A timeslot as an array of executable, start, duration and idle steps. -/
def brief (slot : Timeslot) : Json :=
  .array [.nat slot.executable, slot.startingTime.toJson, slot.duration.toJson,
    slot.idleSteps.toJson]

end Timeslot

namespace SnapshotSection

/-- What a section holds and when it runs. -/
def summary (part : SnapshotSection) : Json.Members :=
  [("slots", .list Timeslot.brief part.timeslots),
    ("starting_time", part.startingTime.toJson), ("end_time", part.endTime.toJson),
    ("duration", part.duration.toJson),
    ("range", .array [part.startingTime.toJson, part.endTime.toJson]),
    ("is_valid", .bool part.isValid), ("executables", .nats part.executables)]

end SnapshotSection

namespace ScheduleThread

/-- What a thread holds. -/
def summary (thread : ScheduleThread) : Json.Members :=
  [("sections", .list (fun part => .object (SnapshotSection.summary part)) thread.sections),
    ("timeslots", .list Timeslot.brief thread.timeslots), ("is_valid", .bool thread.isValid),
    ("executables", .nats thread.executables)]

end ScheduleThread

end TimedKripke
