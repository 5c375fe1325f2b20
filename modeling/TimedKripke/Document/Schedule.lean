import TimedKripke.Document.Value
import TimedKripke.Json.Parser
import TimedKripke.Schedule.Basic

/-! # Documents of calls and schedules

Records are objects with their fields in a fixed order. Ids are bare numbers, sets of
ids are ascending arrays, and a map from ids has decimal member names.
-/

namespace TimedKripke

namespace ExecutableId

/-- Reads an id. -/
def ofJson? (document : Json) : Option ExecutableId :=
  (Time.ofJson? document).map UInt64.toNat

/-- Reads the decimal name of an id: digits without a leading zero. -/
def ofName? (name : String) : Option ExecutableId :=
  let digits := name.toList
  if digits.isEmpty || !digits.all Char.isDigit || (digits.head? == some '0' && digits.length != 1)
  then none
  else name.toNat?.bind fun n => if n < 18446744073709551616 then some n else none

end ExecutableId

namespace CallMethod

/-- The document of a method. -/
def toJson : CallMethod → Json
  | synchronous => .string "Synchronous"
  | asynchronous => .string "Asynchronous"

/-- Reads the document of a method. -/
def ofJson? (document : Json) : Option CallMethod :=
  match document.unit? with
  | some "Synchronous" => some .synchronous
  | some "Asynchronous" => some .asynchronous
  | _ => none

end CallMethod

namespace Parameters

/-- The document of an argument list. -/
def toJson (parameters : Parameters) : Json :=
  .object (parameters.map fun argument =>
    (argument.1, match argument.2 with
      | some value => value.toJson
      | none => .null))

/-- Reads the document of an argument list. -/
def ofJson? (document : Json) : Option Parameters :=
  document.map? (Json.nullable? Value.ofJson?)

end Parameters

namespace Call

/-- The document of a call. -/
def toJson (call : Call) : Json :=
  .object
    [("caller", .nat call.caller), ("callee", .nat call.callee),
      ("parameters", call.parameters.toJson), ("method", call.method.toJson)]

/-- Reads the document of a call. -/
def ofJson? (document : Json) : Option Call := do
  let [some caller, some callee, some parameters, some method] ←
    document.record? ["caller", "callee", "parameters", "method"] | none
  return {
    caller := ← ExecutableId.ofJson? caller
    callee := ← ExecutableId.ofJson? callee
    parameters := ← Parameters.ofJson? parameters
    method := ← CallMethod.ofJson? method }

end Call

namespace CallChain

/-- The document of a chain. -/
def toJson (chain : CallChain) : Json :=
  .object [("root", .nat chain.root), ("calls", .array (chain.calls.map Call.toJson))]

/-- Reads the document of a chain. -/
def ofJson? (document : Json) : Option CallChain := do
  let [some root, some calls] ← document.record? ["root", "calls"] | none
  return { root := ← ExecutableId.ofJson? root, calls := ← calls.list? Call.ofJson? }

end CallChain

namespace ScheduleTiming

/-- The document of a timing. -/
def toJson (timing : ScheduleTiming) : Json :=
  .object
    [("ringlet_lengths", .object (timing.ringletLengths.map fun length =>
        (toString length.1, length.2.toJson))),
      ("schedule_length", timing.scheduleLength.toJson)]

/-- Reads the lengths of executables by decimal name. -/
def lengthsOfJson? (document : Json) : Option (OrderedMap ExecutableId Time) :=
  document.object?.bind fun members =>
    (members.mapM fun member : String × Json => do
      return (← ExecutableId.ofName? member.1, ← Time.ofJson? member.2)).map OrderedMap.ofList

/-- Reads the document of a timing. -/
def ofJson? (document : Json) : Option ScheduleTiming := do
  let [some lengths, some length] ←
    document.record? ["ringlet_lengths", "schedule_length"] | none
  return { ringletLengths := ← lengthsOfJson? lengths, scheduleLength := ← Time.ofJson? length }

/-- Reads the text of a timing. -/
def parse? (text : String) : Option ScheduleTiming :=
  (Json.read? .numbersWithin (.ofText text)).bind ofJson?

end ScheduleTiming

namespace Timeslot

/-- The document of a timeslot. -/
def toJson (slot : Timeslot) : Json :=
  .object
    [("executables", .array (slot.executables.map Json.nat)),
      ("call_chain", slot.callChain.toJson), ("starting_time", slot.startingTime.toJson),
      ("duration", slot.duration.toJson), ("cycles_executed", slot.idleSteps.toJson)]

/-- Reads the document of a timeslot. -/
def ofJson? (document : Json) : Option Timeslot := do
  let [some executables, some callChain, some startingTime, some duration, some idleSteps] ←
    document.record?
      ["executables", "call_chain", "starting_time", "duration", "cycles_executed"] | none
  return {
    executables := OrderedSet.ofList (← executables.list? ExecutableId.ofJson?)
    callChain := ← CallChain.ofJson? callChain
    startingTime := ← Time.ofJson? startingTime
    duration := ← Time.ofJson? duration
    idleSteps := ← Time.ofJson? idleSteps }

/-- Reads a timeslot in short form, as an array of id, start and duration, or in
full. -/
def ofEntry? : Json → Option Timeslot
  | .array [id, startingTime, duration] => do
      return Timeslot.new (← ExecutableId.ofJson? id) (← Time.ofJson? startingTime)
        (← Time.ofJson? duration)
  | .array _ => none
  | document => ofJson? document

end Timeslot

namespace SnapshotSection

/-- The document of a section. -/
def toJson (part : SnapshotSection) : Json :=
  .object [("timeslots", .array (part.timeslots.map Timeslot.toJson))]

/-- Reads the document of a section; the order of the timeslots is kept. -/
def ofJson? (document : Json) : Option SnapshotSection := do
  let [some timeslots] ← document.record? ["timeslots"] | none
  return { timeslots := ← timeslots.list? Timeslot.ofJson? }

/-- Reads a section as an array of timeslots in any order, or in full. -/
def ofEntry? : Json → Option SnapshotSection
  | .array slots => (slots.mapM Timeslot.ofEntry?).map SnapshotSection.new
  | document => ofJson? document

end SnapshotSection

namespace ScheduleThread

/-- The document of a thread. -/
def toJson (thread : ScheduleThread) : Json :=
  .object [("sections", .array (thread.sections.map SnapshotSection.toJson))]

/-- Reads the document of a thread; the order of the sections is kept. -/
def ofJson? (document : Json) : Option ScheduleThread := do
  let [some sections] ← document.record? ["sections"] | none
  return { sections := ← sections.list? SnapshotSection.ofJson? }

/-- Reads a thread as an array of sections in any order, or in full. -/
def ofEntry? : Json → Option ScheduleThread
  | .array sections => (sections.mapM SnapshotSection.ofEntry?).map ScheduleThread.new
  | document => ofJson? document

end ScheduleThread

namespace Schedule

/-- The document of a schedule. -/
def toJson (schedule : Schedule) : Json :=
  .object [("threads", .array (schedule.threads.map ScheduleThread.toJson))]

/-- Reads the document of a schedule. -/
def ofJson? (document : Json) : Option Schedule := do
  let [some threads] ← document.record? ["threads"] | none
  return { threads := ← threads.list? ScheduleThread.ofJson? }

/-- Reads a schedule as an array of threads, or in full. -/
def ofEntry? : Json → Option Schedule
  | .array threads => (threads.mapM ScheduleThread.ofEntry?).map Schedule.mk
  | document => ofJson? document

end Schedule

end TimedKripke
