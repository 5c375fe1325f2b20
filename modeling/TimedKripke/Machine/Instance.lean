import TimedKripke.Program.Run

/-! # Running machines

An instance is a machine at work: the state it is in and the values of its data. One
step of an instance runs the entry action if it is due, takes the first transition
whose guard answers true, and runs the exit or the internal action. A suspended or
finished instance makes an idle step. `Instance.snapshot` is the instance as a value.
-/

namespace TimedKripke

/-- A machine at work. -/
structure Instance where
  machine : Machine
  /-- The index of the current state. -/
  currentState : Nat
  /-- The name of the state before. Its index is not kept: nothing asks for more than the
  name, and snapshots show no more. -/
  previousStateName : String
  /-- The entry action of the current state is still to run. -/
  entryPending : Bool
  /-- The index of the state in which the instance was suspended. -/
  resumeState : Option Nat
  variableValues : PropertyList
  externals : List External

/-- What became of a step. -/
structure StepOutcome where
  transitioned : Bool
  /-- The result set by the actions. -/
  result : Option Value
  /-- The names called that are not registered. -/
  unresolved : List String
  /-- The calls made, in order. -/
  issued : List Call
  /-- The clock with the thresholds it was asked about. -/
  clock : Clock

namespace StepOutcome

/-- The outcome of a step in which nothing happens. -/
def idle (clock : Clock) : StepOutcome :=
  { transitioned := false, result := none, unresolved := [], issued := [], clock }

end StepOutcome

namespace Machine

/-- What stands for the name of the state before when there is none. -/
def initialPreviousState : String := "initialPreviousState"

/-- The machine at its start. -/
def start (machine : Machine) : Instance :=
  { machine
    currentState := machine.initialState
    previousStateName := initialPreviousState
    entryPending := true
    resumeState := none
    variableValues := machine.initialVariables
    externals := machine.initialExternals }

end Machine

namespace Instance

/-- The name of the machine. -/
def name (running : Instance) : String :=
  running.machine.name

/-- The name of the current state. -/
def currentStateName (running : Instance) : String :=
  running.machine.stateName running.currentState

/-- The name of the state to resume in. -/
def resumeStateName? (running : Instance) : Option String :=
  running.resumeState.map running.machine.stateName

/-- The instance is in its exit state and has run the entry action. -/
def hasFinished (running : Instance) : Bool :=
  running.machine.exitState == some running.currentState && !running.entryPending

/-- The instance is in its suspend state. -/
def isSuspended (running : Instance) : Bool :=
  running.machine.suspendState == some running.currentState

/-- Moves to the suspend state and notes where to resume. Answers whether it did:
there must be a suspend state other than the current one. -/
def suspend (running : Instance) : Bool × Instance :=
  match running.machine.suspendState with
  | none => (false, running)
  | some suspended =>
      if suspended = running.currentState then (false, running)
      else (true, { running with
        resumeState := some running.currentState
        previousStateName := running.currentStateName
        currentState := suspended
        entryPending := true })

/-- Returns from the suspend state to where the instance was suspended. Answers
whether it did. -/
def resume (running : Instance) : Bool × Instance :=
  match running.resumeState with
  | none => (false, running)
  | some resumed =>
      if running.isSuspended then
        (true, { running with
          previousStateName := running.currentStateName
          currentState := resumed
          entryPending := true
          resumeState := none })
      else (false, running)

/-- Returns to the initial state and the initial values of the variables. Externals
keep their values. -/
def restart (running : Instance) : Instance :=
  { running with
    currentState := running.machine.initialState
    previousStateName := Machine.initialPreviousState
    entryPending := true
    resumeState := none
    variableValues := running.machine.initialVariables }

/-- Writes a declared variable. -/
def setVariable (running : Instance) (name : String) (value : Value) : Except Fault Instance :=
  match running.machine.variableType? name with
  | none => .error (.unknownVariable running.name name)
  | some type =>
      if type.accepts value then
        .ok { running with variableValues := OrderedMap.insert name value running.variableValues }
      else .error (.typeMismatch name type.display)

/-- Writes a declared external. -/
def setExternal (running : Instance) (name : String) (value : Value) : Except Fault Instance :=
  match External.find? running.externals name with
  | none => .error (.unknownVariable running.name name)
  | some declared =>
      if declared.type.accepts value then
        .ok { running with externals := External.write name value running.externals }
      else .error (.typeMismatch name declared.type.display)

/-- The inputs the current state is restricted to. -/
def observes? (running : Instance) : Option (List String) :=
  (running.machine.states[running.currentState]?).bind MachineState.observes

/-- The inputs that are read before the next step: those the current state observes,
and none when the next step is idle. -/
def observedInputs (running : Instance) : List External :=
  if running.isSuspended || running.hasFinished then []
  else running.externals.filter fun declared =>
    declared.direction.isInput &&
      match running.observes? with
      | some names => names.contains declared.name
      | none => true

/-- The externals the environment receives. -/
def outputs (running : Instance) : List External :=
  running.externals.filter fun declared => declared.direction.isOutput

/-- The values of the externals of one direction. -/
def group (running : Instance) (direction : Direction) : PropertyList :=
  OrderedMap.ofList ((running.externals.filter fun declared => declared.direction == direction).map
    fun declared => (declared.name, declared.value))

/-- The fields of the instance as a value. -/
def fields (running : Instance) : PropertyList :=
  [("actuators", .compound (running.group .actuator)),
    ("currentState", .string running.currentStateName),
    ("externalVariables", .compound (running.group .shared)),
    ("previousState", .string running.previousStateName),
    ("resumeState",
      match running.resumeStateName? with
      | some name => .present (.string name)
      | none => .absent),
    ("sensors", .compound (running.group .sensor)),
    ("shouldExecuteOnEntry", .bool running.entryPending),
    ("variables", .compound running.variableValues)]

/-- The instance as a value. -/
def snapshot (running : Instance) : Value :=
  .compound running.fields

/-- Instances are the same if their machines have one name and their snapshots
agree. -/
def same (first second : Instance) : Bool :=
  first.name == second.name && first.snapshot == second.snapshot

/-- The context in which the programs of a step run. -/
def context (running : Instance) (id : ExecutableId) (arguments : PropertyList)
    (directory : Directory) (clock : Clock) : Context :=
  { machine := running.machine
    id
    arguments
    directory
    variableValues := running.variableValues
    externals := running.externals
    clock
    issued := []
    result := none
    unresolved := [] }

/-- Runs the programs of a step in a state: the entry action if it is due, the guards,
and then the exit action or the internal action. Answers the target of the transition
that was taken. -/
def runState (state : MachineState) (entryPending : Bool) (context : Context) :
    Option Nat × Context :=
  let entered := if entryPending then Program.runOptional state.onEntry context else context
  let fired := Transition.firstFiring state.transitions entered
  match fired.1 with
  | some target => (some target, Program.runOptional state.onExit fired.2)
  | none => (none, Program.runOptional state.internal fired.2)

/-- Makes one step. -/
def step (running : Instance) (id : ExecutableId) (arguments : PropertyList)
    (directory : Directory) (clock : Clock) : Except Fault (StepOutcome × Instance) :=
  if running.isSuspended || running.hasFinished then .ok (.idle clock, running)
  else
    match running.machine.states[running.currentState]? with
    | none => .error (.unknownState running.name (toString running.currentState))
    | some state =>
        let ran := runState state running.entryPending
          (running.context id arguments directory clock)
        .ok ({ transitioned := ran.1.isSome
               result := ran.2.result
               unresolved := ran.2.unresolved
               issued := ran.2.issued
               clock := ran.2.clock },
          { running with
            previousStateName := running.currentStateName
            currentState := ran.1.getD running.currentState
            entryPending := ran.1.isSome
            variableValues := ran.2.variableValues
            externals := ran.2.externals })

end Instance

end TimedKripke
