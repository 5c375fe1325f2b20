import TimedKripke.Fault
import TimedKripke.Machine.External
import TimedKripke.Program.Basic

/-! # Machines

A machine is a list of states with actions and guarded transitions, with declared
variables and externals. It is written as a blueprint, in which states are known by
name; `Blueprint.build` checks the blueprint and resolves the names.
-/

namespace TimedKripke

/-- A guarded transition to the state with the given index. -/
structure Transition where
  /-- The index of the target state. -/
  target : Nat
  /-- The transition is taken if the guard answers true. -/
  guard : Program Bool

/-- A state of a machine. -/
structure MachineState where
  name : String
  /-- Runs in the first step after the state was entered. -/
  onEntry : Option (Program Unit)
  /-- Runs in a step that leaves the state. -/
  onExit : Option (Program Unit)
  /-- Runs in a step that stays in the state. -/
  internal : Option (Program Unit)
  /-- The transitions, those with priority first. -/
  transitions : List Transition
  /-- The inputs that are read in the state; all of them if not restricted. -/
  observes : Option (List String)

/-- A machine whose names are resolved. -/
structure Machine where
  name : String
  states : List MachineState
  /-- The index of the state the machine starts in. -/
  initialState : Nat
  /-- The index of the state in which the machine is finished. -/
  exitState : Option Nat
  /-- The index of the state in which the machine is suspended. -/
  suspendState : Option Nat
  variableTypes : List (String × ValueType)
  initialVariables : PropertyList
  /-- The declared externals with their values at the start. -/
  initialExternals : List External

namespace Machine

/-- The index of the state of a name. -/
def stateIndex? (machine : Machine) (name : String) : Option Nat :=
  machine.states.findIdx? fun state => state.name == name

/-- The type of the variable of a name, as it was first declared. -/
def variableType? (machine : Machine) (name : String) : Option ValueType :=
  machine.variableTypes.lookup name

/-- The name of the state with an index. -/
def stateName (machine : Machine) (index : Nat) : String :=
  match machine.states[index]? with
  | some state => state.name
  | none => ""

end Machine

/-- A state as it is written, with transitions to states by name. -/
structure StateBlueprint where
  name : String
  onEntry : Option (Program Unit) := none
  onExit : Option (Program Unit) := none
  internal : Option (Program Unit) := none
  /-- Target names and guards, those with priority first. -/
  transitions : List (String × Program Bool) := []
  observes : Option (List String) := none

/-- A variable as it is declared. -/
structure VariableDeclaration where
  name : String
  type : ValueType
  initial : Value

/-- A machine as it is written. -/
structure Blueprint where
  name : String
  states : List StateBlueprint := []
  /-- The name of the state the machine starts in; the first state if not given. -/
  initialState : Option String := none
  exitState : Option String := none
  suspendState : Option String := none
  declarations : List VariableDeclaration := []
  externals : List External := []

namespace Blueprint

/-- Declares an external; an earlier declaration of the name is dropped. -/
def declareExternal (blueprint : Blueprint) (external : External) : Blueprint :=
  { blueprint with
    externals := blueprint.externals.filter (fun declared => !(declared.name == external.name)) ++
      [external] }

/-- The index of the state of a name. -/
def stateIndex (blueprint : Blueprint) (name : String) : Except Fault Nat :=
  match blueprint.states.findIdx? fun state => state.name == name with
  | some index => .ok index
  | none => .error (.unknownState blueprint.name name)

/-- The index of the state of a name, if a name is given. -/
def optionalStateIndex (blueprint : Blueprint) : Option String → Except Fault (Option Nat)
  | none => .ok none
  | some name => (blueprint.stateIndex name).map some

/-- The name is that of a declared input. -/
def declaresInput (blueprint : Blueprint) (name : String) : Bool :=
  blueprint.externals.any fun declared => declared.name == name && declared.direction.isInput

/-- Resolves the targets of a state's transitions. -/
def resolveTransitions (blueprint : Blueprint) :
    List (String × Program Bool) → Except Fault (List Transition)
  | [] => .ok []
  | (target, guard) :: rest =>
      match blueprint.stateIndex target with
      | .error fault => .error fault
      | .ok target => (blueprint.resolveTransitions rest).map ({ target, guard } :: ·)

/-- Resolves one state: first its transitions, then the inputs it observes. -/
def resolveState (blueprint : Blueprint) (state : StateBlueprint) : Except Fault MachineState :=
  match blueprint.resolveTransitions state.transitions with
  | .error fault => .error fault
  | .ok transitions =>
      match (state.observes.getD []).find? fun name => !blueprint.declaresInput name with
      | some name => .error (.unknownVariable blueprint.name name)
      | none => .ok
          { name := state.name
            onEntry := state.onEntry
            onExit := state.onExit
            internal := state.internal
            transitions
            observes := state.observes }

/-- Resolves the states in order. -/
def resolveStates (blueprint : Blueprint) :
    List StateBlueprint → Except Fault (List MachineState)
  | [] => .ok []
  | state :: rest =>
      match blueprint.resolveState state with
      | .error fault => .error fault
      | .ok resolved => (blueprint.resolveStates rest).map (resolved :: ·)

/-- The first declaration of a variable or an external whose value is not of its
type. -/
def illTyped? (blueprint : Blueprint) : Option Fault :=
  (blueprint.declarations.findSome? fun declared =>
    if declared.type.accepts declared.initial then none
    else some (.typeMismatch declared.name declared.type.display)).or
  (blueprint.externals.findSome? fun declared =>
    if declared.type.accepts declared.value then none
    else some (.typeMismatch declared.name declared.type.display))

/-- Checks a blueprint and resolves its names. The checks are made in the order: there
are states, no state is declared twice, the initial, exit and suspend states exist,
transitions and observed inputs of each state exist, values are of their types. -/
def build (blueprint : Blueprint) : Except Fault Machine :=
  if blueprint.states.isEmpty then .error (.emptyMachine blueprint.name)
  else
    match ValueType.repeatedName [] (blueprint.states.map StateBlueprint.name) with
    | some state => .error (.duplicateState blueprint.name state)
    | none => do
        let initialState := (← blueprint.optionalStateIndex blueprint.initialState).getD 0
        let exitState ← blueprint.optionalStateIndex blueprint.exitState
        let suspendState ← blueprint.optionalStateIndex blueprint.suspendState
        let states ← blueprint.resolveStates blueprint.states
        match blueprint.illTyped? with
        | some fault => .error fault
        | none =>
            return {
              name := blueprint.name
              states
              initialState
              exitState
              suspendState
              variableTypes := blueprint.declarations.map fun declared =>
                (declared.name, declared.type)
              initialVariables := OrderedMap.ofList
                (blueprint.declarations.map fun declared => (declared.name, declared.initial))
              initialExternals := blueprint.externals }

end Blueprint

end TimedKripke
