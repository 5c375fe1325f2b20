import TimedKripke.Constraint
import TimedKripke.Fault
import TimedKripke.Value.Basic

/-! # Kripke states

A Kripke state is a list of properties with outgoing edges. An edge says which clock it
reads, for which clock values it can be taken, whether the clock starts again, whether
the environment is read, and how much schedule time passes. Edges that differ only in
their constraint are one edge, whose constraint is the disjunction; an edge without a
constraint absorbs the others.
-/

namespace TimedKripke

/-- A timed transition to a Kripke state. -/
structure KripkeEdge where
  /-- The clock that the constraint reads. -/
  clockName : Option String
  /-- The clock values for which the transition is possible; all if not given. -/
  constraint : Option Constraint
  /-- The clock starts again. -/
  resetClock : Bool
  /-- The environment is read. -/
  takeSnapshot : Bool
  /-- The schedule time the transition takes. -/
  time : Time
  target : StateId
deriving DecidableEq

namespace KripkeEdge

/-- The plain edge to a state. -/
def new (target : StateId) : KripkeEdge :=
  { clockName := none
    constraint := none
    resetClock := false
    takeSnapshot := false
    time := 0
    target }

/-- The edges agree in everything but the constraint. -/
def sameTransition (first second : KripkeEdge) : Bool :=
  first.clockName == second.clockName && first.resetClock == second.resetClock &&
    first.takeSnapshot == second.takeSnapshot && first.time == second.time &&
      first.target == second.target

/-- The order of optional parts: nothing before something. -/
def compareOptional {α : Type} [Ord α] : Option α → Option α → Ordering
  | none, none => .eq
  | none, some _ => .lt
  | some _, none => .gt
  | some first, some second => compare first second

/-- The order of edges: by clock, constraint, flags, time and target. -/
def order (first second : KripkeEdge) : Ordering :=
  (compareOptional first.clockName second.clockName).then <|
    (compareOptional first.constraint second.constraint).then <|
      (compare first.resetClock second.resetClock).then <|
        (compare first.takeSnapshot second.takeSnapshot).then <|
          (compare first.time second.time).then (compare first.target second.target)

instance : Ord KripkeEdge := ⟨order⟩

/-- The edge can be taken at a clock value. -/
def admits (edge : KripkeEdge) (value : Time) : Bool :=
  match edge.constraint with
  | some constraint => constraint.satisfiedBy value
  | none => true

/-- The edge without its clock. -/
def untimed (edge : KripkeEdge) : KripkeEdge :=
  { edge with clockName := none, constraint := none, resetClock := false }

/-- The constraint of an edge that stands for two. An edge that can always be taken
absorbs the other, and a constraint that is already an alternative is not repeated. -/
def merge : Option Constraint → Option Constraint → Option Constraint
  | some first, some second =>
      if first.isTrivial || second.isTrivial then none
      else if first.disjuncts.contains second then some first
      else some (.or first second)
  | _, _ => none

/-- Merges an edge into the first edge that makes the same transition, if there is
one. -/
def mergeInto (edge : KripkeEdge) : List KripkeEdge → Option (List KripkeEdge)
  | [] => none
  | first :: rest =>
      if first.sameTransition edge then
        some ({ first with constraint := merge first.constraint edge.constraint } :: rest)
      else (mergeInto edge rest).map (first :: ·)

/-- Adds an edge to sorted edges. -/
def insertInto (edge : KripkeEdge) (edges : List KripkeEdge) : List KripkeEdge :=
  if edges.contains edge then edges
  else ((mergeInto edge edges).getD (edges ++ [edge])).mergeSort fun first second =>
    first.order second != .gt

end KripkeEdge

/-- A state of a Kripke structure. -/
structure KripkeState where
  id : StateId
  properties : PropertyList
  /-- Runs may start here. -/
  isInitial : Bool
  /-- The outgoing edges, in order. -/
  edges : List KripkeEdge
deriving DecidableEq

namespace KripkeState

/-- A state without edges. -/
def new (id : StateId) (properties : PropertyList) (isInitial : Bool) : KripkeState :=
  { id, properties, isInitial, edges := [] }

/-- Adds an edge. -/
def addEdge (state : KripkeState) (edge : KripkeEdge) : KripkeState :=
  { state with edges := edge.insertInto state.edges }

/-- The place in the schedule at which the state stands. -/
def pc? (state : KripkeState) : Option String :=
  (state.properties.lookup "pc").bind Value.string?

/-- States are the same if their properties are. -/
def same (first second : KripkeState) : Bool :=
  first.properties == second.properties

/-- The state without clocks. -/
def untimed (state : KripkeState) : KripkeState :=
  { state with edges := state.edges.map KripkeEdge.untimed }

end KripkeState

/-- The phase of a section at which a Kripke state stands. -/
inductive Phase where
  /-- The environment was read. -/
  | read
  /-- A timeslot that is not the last was executed. -/
  | execute
  /-- The last timeslot was executed and the environment written. -/
  | write
deriving DecidableEq, Repr

namespace Phase

/-- The letter of a phase. -/
def letter : Phase → String
  | read => "R"
  | execute => "E"
  | write => "W"

end Phase

/-- The place in the schedule at which a Kripke state stands. -/
structure ProgramCounter where
  /-- The name of the machine. -/
  executable : String
  /-- The name of the machine's state. -/
  state : String
  phase : Phase
deriving DecidableEq, Repr

namespace ProgramCounter

/-- The machine, its state and the phase, divided by points. -/
def display (counter : ProgramCounter) : String :=
  counter.executable ++ "." ++ counter.state ++ "." ++ counter.phase.letter

/-- A counter as a value. -/
def toValue (counter : ProgramCounter) : Value :=
  .string counter.display

end ProgramCounter

end TimedKripke
