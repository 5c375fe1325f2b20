import TimedKripke.Kripke.Durable
import TimedKripke.Kripke.Probe

/-! # Summaries of Kripke structures

Edges in short form, states in a chosen detail, what a view has received, and the
bytes of a durable store.
-/

namespace TimedKripke

namespace KripkeEdge

/-- An edge as an array of clock, constraint, flags, time and target. -/
def brief (edge : KripkeEdge) : Json :=
  .array
    [.optional .string edge.clockName,
      .optional (fun constraint : Constraint => .string constraint.display) edge.constraint,
      .bool edge.resetClock, .bool edge.takeSnapshot, edge.time.toJson, .nat edge.target]

end KripkeEdge

/-- How much of a state's properties a summary shows. -/
inductive StateDetail where
  /-- All properties. -/
  | full
  /-- The machines and the place in the schedule, as text. -/
  | brief
  /-- None but the place at which the state stands. -/
  | pc
deriving DecidableEq, Repr

namespace StateDetail

/-- The detail of a name. -/
def ofName? : String → Option StateDetail
  | "full" => some .full
  | "brief" => some .brief
  | "pc" => some .pc
  | _ => none

end StateDetail

namespace KripkeState

/-- The edges of a state in short form. -/
def briefEdges (state : KripkeState) : Json :=
  .list KripkeEdge.brief state.edges

/-- A property of a state as text. -/
def shownProperty (state : KripkeState) (name : String) : String × Json :=
  (name, .optional (fun value : Value => .string value.display) (state.properties.lookup name))

/-- A state in the given detail. -/
def summary (detail : StateDetail) (state : KripkeState) : Json :=
  .object <|
    [("id", .nat state.id), ("pc", .optional .string state.pc?),
      ("initial", .bool state.isInitial), ("edges", state.briefEdges)] ++
    match detail with
    | .full => [("properties", state.properties.toJson)]
    | .brief => [state.shownProperty "fsms", state.shownProperty "slot"]
    | .pc => []

end KripkeState

namespace LinesView

/-- The settings of a lines view and the number of lines it has written. -/
def summary (view : LinesView) : Json.Members :=
  [("using_clocks", .bool view.usingClocks), ("written", .nat view.written)]

end LinesView

namespace RecordingView

/-- The resets and ends of runs that were received. -/
def summary (view : RecordingView) : Json.Members :=
  [("resets", .bools view.resets), ("finish_count", .nat view.finishCount)]

end RecordingView

namespace ProbeView

/-- What was received: the states with their edges as they were handed over, and the
lines that were written. -/
def summary (view : ProbeView) : Json :=
  .object <| view.recording.summary ++
    [("commits", .list (fun state : KripkeState => .array [.nat state.id, state.briefEdges])
      view.recording.states)] ++
    match view.lines with
    | some lines => lines.summary ++ [("lines", .texts lines.sink.lines)]
    | none => []

end ProbeView

namespace DurableStore

/-- The entries of a tree, its keys and values shown in the given ways. -/
def treeSummary (key value : Bytes → String) (tree : ByteTree) : Json :=
  .list (fun entry : Bytes × Bytes =>
    .array [.string (key entry.1), .string (value entry.2)]) tree.toList

/-- The bytes of a store: texts as text and numbers in hexadecimal. -/
def summary (store : DurableStore) : Json :=
  .object
    [("states", treeSummary Bytes.hex Bytes.lossyText store.states),
      ("ids", treeSummary Bytes.lossyText Bytes.hex store.ids),
      ("meta", treeSummary Bytes.lossyText Bytes.hex store.counters)]

end DurableStore

end TimedKripke
