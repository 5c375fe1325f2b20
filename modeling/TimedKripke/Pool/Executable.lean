import TimedKripke.Machine.Instance

/-! # Executables

An executable is a machine that is scheduled, or a callable machine that works
when it is called: a call starts it with arguments, and it works until it has
finished.
-/

namespace TimedKripke

/-- Something an executable needs from others. -/
inductive Dependency where
  /-- Called synchronously. -/
  | callable (name : String)
  /-- Called asynchronously. -/
  | invocable (name : String)
  /-- Controlled as a part. -/
  | submachine (name : String)
deriving DecidableEq, Repr

namespace Dependency

/-- The name of what is needed. -/
def name : Dependency → String
  | callable name | invocable name | submachine name => name

end Dependency

/-- The record under which an executable is registered. -/
structure Registration where
  id : ExecutableId
  /-- The name by which others call it. -/
  name : String
  dependencies : List Dependency
deriving DecidableEq, Repr

/-- Whether a callable machine serves a call. -/
inductive CallStatus where
  /-- It waits for a call. -/
  | inactive
  /-- It works for a caller. -/
  | executing
deriving DecidableEq, Repr

namespace CallStatus

/-- A status in snapshots. -/
def display : CallStatus → String
  | inactive => "inactive"
  | executing => "executing"

end CallStatus

/-- A machine that works when it is called. -/
structure CallableMachine where
  running : Instance
  parameters : List (String × ValueType)
  /-- The arguments of the latest call. -/
  arguments : PropertyList
  /-- The latest result. -/
  result : Option Value
  status : CallStatus

namespace CallableMachine

/-- A callable machine that has not been called. -/
def new (running : Instance) (parameters : List (String × ValueType)) : CallableMachine :=
  { running
    parameters
    arguments := OrderedMap.ofList (parameters.map fun declared =>
      (declared.1, declared.2.default))
    result := none
    status := .inactive }

/-- The arguments for the declared parameters, above those already bound. A parameter
without an argument takes its default. -/
def bindArguments (given : Parameters) (bound : PropertyList) :
    List (String × ValueType) → Except Fault PropertyList
  | [] => .ok bound
  | (name, type) :: rest =>
      match given.lookup name with
      | some (some value) =>
          if type.accepts value then bindArguments given (OrderedMap.insert name value bound) rest
          else .error (.typeMismatch name type.display)
      | _ => bindArguments given (OrderedMap.insert name type.default bound) rest

/-- Starts to serve a call: the machine is restarted with the arguments. -/
def begin (callable : CallableMachine) (given : Parameters) :
    Except Fault CallableMachine :=
  match (OrderedMap.keys given).find? fun name => !OrderedMap.contains callable.parameters name with
  | some name => .error (.unknownVariable callable.running.name name)
  | none =>
      match bindArguments given [] callable.parameters with
      | .error fault => .error fault
      | .ok arguments => .ok { callable with
          arguments
          running := callable.running.restart
          status := .executing }

/-- Makes one step if a call is being served. -/
def step (callable : CallableMachine) (id : ExecutableId) (directory : Directory)
    (clock : Clock) : Except Fault (StepOutcome × CallableMachine) :=
  match callable.status with
  | .inactive => .ok (.idle clock, callable)
  | .executing =>
      match callable.running.step id callable.arguments directory clock with
      | .error fault => .error fault
      | .ok (outcome, running) => .ok (outcome, { callable with
          running
          result := outcome.result.or callable.result
          status := if running.hasFinished then .inactive else .executing })

/-- The callable machine as a value. -/
def snapshot (callable : CallableMachine) : Value :=
  .compound (OrderedMap.extend callable.running.fields
    [("parameters", .compound callable.arguments),
      ("result",
        match callable.result with
        | some value => .present value
        | none => .absent),
      ("status", .string callable.status.display)])

/-- The machines, declarations, arguments, results and statuses agree. -/
def same (first second : CallableMachine) : Bool :=
  first.running.same second.running && first.parameters == second.parameters &&
    first.arguments == second.arguments && first.result == second.result &&
      first.status == second.status

end CallableMachine

/-- What can be registered in a pool. -/
inductive Executable where
  /-- A machine that is scheduled. -/
  | scheduled (running : Instance)
  /-- A machine that is called. -/
  | callable (served : CallableMachine)

namespace Executable

/-- The machine at work. -/
def running : Executable → Instance
  | scheduled running => running
  | callable served => served.running

/-- The executable with its machine at work replaced. -/
def withRunning (executable : Executable) (running : Instance) : Executable :=
  match executable with
  | scheduled _ => .scheduled running
  | callable served => .callable { served with running }

/-- The name of the machine. -/
def name (executable : Executable) : String :=
  executable.running.name

/-- The executable is called, not scheduled. -/
def isCallable : Executable → Bool
  | scheduled _ => false
  | callable _ => true

/-- The latest result of a callable machine. -/
def result? : Executable → Option Value
  | scheduled _ => none
  | callable served => served.result

/-- Starts to serve a call. -/
def begin (executable : Executable) (given : Parameters) : Except Fault Executable :=
  match executable with
  | scheduled running => .error (.notCallable running.name)
  | callable served => (served.begin given).map .callable

/-- Makes one step. -/
def step (executable : Executable) (id : ExecutableId) (directory : Directory) (clock : Clock) :
    Except Fault (StepOutcome × Executable) :=
  match executable with
  | scheduled running =>
      (running.step id [] directory clock).map fun stepped => (stepped.1, .scheduled stepped.2)
  | callable served =>
      (served.step id directory clock).map fun stepped => (stepped.1, .callable stepped.2)

/-- The executable as a value. -/
def snapshot : Executable → Value
  | scheduled running => running.snapshot
  | callable served => served.snapshot

/-- The executables are of one kind and agree. -/
def same : Executable → Executable → Bool
  | scheduled first, scheduled second => first.same second
  | callable first, callable second => first.same second
  | _, _ => false

end Executable

end TimedKripke
