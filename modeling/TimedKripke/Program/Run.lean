import TimedKripke.Clock
import TimedKripke.Machine.Blueprint

/-! # Running programs in a machine

A program runs in a context: the data of the machine it belongs to, its clock, and a
directory of the other executables. The context answers each request and carries on
what the request changed.
-/

namespace TimedKripke

/-- What a machine can find out about other executables: ids by name and the results
of earlier calls, as they were when its step began. -/
structure Directory where
  /-- Ids by registered name. -/
  names : OrderedMap String ExecutableId
  /-- The latest result of each callable executable that has one. -/
  results : OrderedMap ExecutableId Value

namespace Directory

/-- The id of the executable of a name. -/
def id? (directory : Directory) (name : String) : Option ExecutableId :=
  directory.names.lookup name

/-- The latest result of an executable. -/
def result? (directory : Directory) (id : ExecutableId) : Option Value :=
  directory.results.lookup id

end Directory

/-- The state of a machine while one of its programs runs. -/
structure Context where
  machine : Machine
  id : ExecutableId
  /-- The arguments of the call being served. -/
  arguments : PropertyList
  directory : Directory
  variableValues : PropertyList
  externals : List External
  clock : Clock
  /-- The calls made so far, in order. -/
  issued : List Call
  /-- The result set so far. -/
  result : Option Value
  /-- The names called that are not registered, in order. -/
  unresolved : List String

namespace Context

/-- Writes a declared variable if the value is of its type. -/
def setVariable (context : Context) (name : String) (value : Value) : Bool × Context :=
  match context.machine.variableType? name with
  | none => (false, context)
  | some type =>
      if OrderedMap.contains context.variableValues name && type.accepts value then
        (true, { context with
          variableValues := OrderedMap.insert name value context.variableValues })
      else (false, context)

/-- Writes a declared external if the value is of its type. -/
def setExternal (context : Context) (name : String) (value : Value) : Bool × Context :=
  match External.find? context.externals name with
  | none => (false, context)
  | some declared =>
      if declared.type.accepts value then
        (true, { context with externals := External.write name value context.externals })
      else (false, context)

/-- Calls the executable of a name. The call is only noted, with its arguments in name
order: it is dispatched after the step. -/
def call (context : Context) (method : CallMethod) (name : String) (parameters : Parameters) :
    Option ExecutableId × Context :=
  match context.directory.id? name with
  | none => (none, { context with unresolved := context.unresolved ++ [name] })
  | some callee =>
      (some callee, { context with
        issued := context.issued ++ [{
          caller := context.id
          callee
          parameters := OrderedMap.ofList parameters
          method }] })

/-- Answers a request. -/
def answer (context : Context) : (request : Request) → request.Answer × Context
  | .getVariable name => (context.variableValues.lookup name, context)
  | .getExternal name => ((External.find? context.externals name).map External.value, context)
  | .parameter name => (context.arguments.lookup name, context)
  | .resultOf name => ((context.directory.id? name).bind context.directory.result?, context)
  | .after threshold =>
      let asked := context.clock.after threshold
      (asked.1, { context with clock := asked.2 })
  | .elapsed => (context.clock.elapsed, context)
  | .ringletLength => (context.clock.timing.ringletLength? context.id, context)
  | .machineName => (context.machine.name, context)
  | .executableId => (context.id, context)
  | .setVariable name value => context.setVariable name value
  | .setExternal name value => context.setExternal name value
  | .setResult value => ((), { context with result := some value })
  | .call method name parameters => context.call method name parameters

end Context

namespace Program

/-- Runs a program in a context. -/
def run {α : Type} : Program α → Context → α × Context
  | .done result, context => (result, context)
  | .ask request next, context =>
      let answered := context.answer request
      (next answered.1).run answered.2

/-- Runs a program if there is one. -/
def runOptional (program : Option (Program Unit)) (context : Context) : Context :=
  match program with
  | some program => (program.run context).2
  | none => context

end Program

namespace Transition

/-- The target of the first transition whose guard answers true. Guards after it are
not asked. -/
def firstFiring : List Transition → Context → Option Nat × Context
  | [], context => (none, context)
  | transition :: rest, context =>
      let asked := transition.guard.run context
      if asked.1 then (some transition.target, asked.2) else firstFiring rest asked.2

end Transition

end TimedKripke
