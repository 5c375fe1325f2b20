import TimedKripke.Document.Constraint
import TimedKripke.Document.Schedule
import TimedKripke.Kripke.State

/-! # Documents of Kripke states

A state is written with its number, properties, initial flag and edges; this is the
form in which states are stored and streamed.
-/

namespace TimedKripke

namespace KripkeEdge

/-- Reads an optional field, which may be left out. -/
def optionalOfJson? {α : Type} (read : Json → Option α) : Option Json → Option (Option α)
  | some document => document.nullable? read
  | none => some none

/-- The document of an edge. -/
def toJson (edge : KripkeEdge) : Json :=
  .object
    [("clock_name", .optional .string edge.clockName),
      ("constraint", .optional Constraint.toJson edge.constraint),
      ("reset_clock", .bool edge.resetClock), ("take_snapshot", .bool edge.takeSnapshot),
      ("time", edge.time.toJson), ("target", .nat edge.target)]

/-- Reads the document of an edge. -/
def ofJson? (document : Json) : Option KripkeEdge := do
  let [clockName, constraint, some resetClock, some takeSnapshot, some time, some target] ←
    document.record?
      ["clock_name", "constraint", "reset_clock", "take_snapshot", "time", "target"] | none
  return {
    clockName := ← optionalOfJson? Json.string? clockName
    constraint := ← optionalOfJson? Constraint.ofJson? constraint
    resetClock := ← resetClock.bool?
    takeSnapshot := ← takeSnapshot.bool?
    time := ← Time.ofJson? time
    target := ← ExecutableId.ofJson? target }

/-- Reads one setting of an edge: an array of the setting's name and its value. -/
def withSetting? (edge : KripkeEdge) : Json → Option KripkeEdge
  | .array [.string "clock", .string name] => some { edge with clockName := some name }
  | .array [.string "constrained", body] =>
      (body.nullable? Constraint.ofJson?).map fun constraint => { edge with constraint }
  | .array [.string "resetting", .bool resetClock] => some { edge with resetClock }
  | .array [.string "snapshotting", .bool takeSnapshot] => some { edge with takeSnapshot }
  | .array [.string "after", body] => (Time.ofJson? body).map fun time => { edge with time }
  | _ => none

/-- Reads an edge as an array of its target and settings in order, or in full. -/
def ofEntry? : Json → Option KripkeEdge
  | .array (.array [.string "new", target] :: settings) => do
      settings.foldlM withSetting? (KripkeEdge.new (← ExecutableId.ofJson? target))
  | .array _ => none
  | document => ofJson? document

end KripkeEdge

namespace KripkeState

/-- The document of a state. -/
def toJson (state : KripkeState) : Json :=
  .object
    [("id", .nat state.id), ("properties", state.properties.toJson),
      ("is_initial", .bool state.isInitial),
      ("edges", .array (state.edges.map KripkeEdge.toJson))]

/-- Reads the document of a state. -/
def ofJson? (document : Json) : Option KripkeState := do
  let [some id, some properties, some isInitial, some edges] ←
    document.record? ["id", "properties", "is_initial", "edges"] | none
  return {
    id := ← ExecutableId.ofJson? id
    properties := ← PropertyList.ofJson? properties
    isInitial := ← isInitial.bool?
    edges := ← edges.list? KripkeEdge.ofJson? }

/-- The text of a state. -/
def render (state : KripkeState) : String :=
  state.toJson.render

end KripkeState

end TimedKripke
