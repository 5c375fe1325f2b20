import TimedKripke.Document.Kripke

/-! # Views

A view receives the states of a Kripke structure as they are completed. A recording
view keeps them; a lines view writes each as one line of JSON to a sink.
-/

namespace TimedKripke

/-- What can go wrong in a view. -/
inductive ViewError where
  /-- The sink failed. -/
  | sink (reason : String)
  /-- The sink failed in the middle of a state. -/
  | serialization (reason : String)
deriving DecidableEq, Repr

namespace ViewError

/-- An error in words. -/
def message : ViewError → String
  | sink reason => "view I/O failure: " ++ reason
  | serialization reason => "view serialization failure: " ++ reason

/-- The name of an error's cause. -/
def kind : ViewError → String
  | sink _ => "View.Io"
  | serialization _ => "View.Serialization"

end ViewError

/-- The operations of a view. Each gives back the view also when it fails. -/
class KripkeView (ν : Type) where
  /-- Prepares for a new run. -/
  reset : ν → (usingClocks : Bool) → Except ViewError Unit × ν
  /-- Receives a completed state. -/
  commit : ν → KripkeState → Except ViewError Unit × ν
  /-- Receives the end of a run. -/
  finish : ν → Except ViewError Unit × ν

/-- A view that keeps what it receives. -/
structure RecordingView where
  /-- The states received since the last reset, in order. -/
  states : List KripkeState := []
  /-- Whether clocks were asked for, at every reset. -/
  resets : List Bool := []
  /-- How often a run has ended since the last reset. -/
  finishCount : Nat := 0

namespace RecordingView

/-- Forgets the states and notes the reset. -/
def reset (view : RecordingView) (usingClocks : Bool) : RecordingView :=
  { states := [], resets := view.resets ++ [usingClocks], finishCount := 0 }

/-- Keeps a state. -/
def commit (view : RecordingView) (state : KripkeState) : RecordingView :=
  { view with states := view.states ++ [state] }

/-- Notes the end of a run. -/
def finish (view : RecordingView) : RecordingView :=
  { view with finishCount := view.finishCount + 1 }

/-- The states received that stand at a place in the schedule. -/
def withPc (view : RecordingView) (pc : String) : List KripkeState :=
  view.states.filter fun state => state.pc? == some pc

instance : KripkeView RecordingView where
  reset view usingClocks := (.ok (), view.reset usingClocks)
  commit view state := (.ok (), view.commit state)
  finish view := (.ok (), view.finish)

end RecordingView

/-- A text sink that may take only so many bytes. Once it has refused a write it is
full and refuses all others. -/
structure Sink where
  /-- The number of bytes the sink takes; any number if not given. -/
  limit : Option Nat := none
  /-- Flushing the sink fails. -/
  failsFlush : Bool := false
  /-- A write was refused. -/
  full : Bool := false
  content : String := ""

namespace Sink

/-- Writes a text, if there is room for it. -/
def write (sink : Sink) (text : String) : Bool × Sink :=
  let fits := match sink.limit with
    | some limit => decide (sink.content.utf8ByteSize + text.utf8ByteSize ≤ limit)
    | none => true
  if !sink.full && fits then (true, { sink with content := sink.content ++ text })
  else (false, { sink with full := true })

/-- The complete lines that were written. -/
def lines (sink : Sink) : List String :=
  (sink.content.splitOn "\n").dropLast

end Sink

/-- A view that writes each state as a line of JSON. -/
structure LinesView where
  sink : Sink := {}
  usingClocks : Bool := true
  /-- The number of lines since the last reset. -/
  written : Nat := 0

namespace LinesView

/-- Starts counting lines again. -/
def reset (view : LinesView) (usingClocks : Bool) : LinesView :=
  { view with usingClocks, written := 0 }

/-- The text of a state in this view. -/
def line (view : LinesView) (state : KripkeState) : String :=
  if view.usingClocks then state.render else state.untimed.render

/-- Writes the text of a state and ends the line. -/
def commit (view : LinesView) (state : KripkeState) : Except ViewError Unit × LinesView :=
  match view.sink.write (view.line state) with
  | (false, sink) => (.error (.serialization "sink full"), { view with sink })
  | (true, sink) =>
      match sink.write "\n" with
      | (false, sink) => (.error (.sink "sink full"), { view with sink })
      | (true, sink) => (.ok (), { view with sink, written := view.written + 1 })

/-- Flushes the sink. -/
def finish (view : LinesView) : Except ViewError Unit × LinesView :=
  (if view.sink.failsFlush then .error (.sink "flush failed") else .ok (), view)

instance : KripkeView LinesView where
  reset view usingClocks := (.ok (), view.reset usingClocks)
  commit := commit
  finish := finish

end LinesView

end TimedKripke
