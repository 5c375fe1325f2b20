import TimedKripke.Document.Machine
import TimedKripke.Pool.Basic
import TimedKripke.Summary.Schedule

/-! # Summaries of machines and pools

What a machine is made of, where a running machine stands, what became of a step, and
what a pool knows of an executable.
-/

namespace TimedKripke

namespace Instance

/-- Where a running machine stands and what it reads and writes. -/
def status (running : Instance) : Json :=
  .object
    [("current", .string running.currentStateName),
      ("previous", .string running.previousStateName),
      ("on_entry", .bool running.entryPending),
      ("resume", .optional .string running.resumeStateName?),
      ("finished", .bool running.hasFinished), ("suspended", .bool running.isSuspended),
      ("observed", .texts (running.observedInputs.map External.name)),
      ("outputs", .texts (running.outputs.map External.name))]

end Instance

namespace MachineState

/-- A state with the targets of its transitions. -/
def summary (state : MachineState) : Json :=
  .object
    [("name", .string state.name), ("targets", .nats (state.transitions.map Transition.target)),
      ("observes", .optional Json.texts state.observes)]

end MachineState

namespace Machine

/-- The declarations of a machine and where it stands at its start. -/
def summary (machine : Machine) : Json.Members :=
  [("name", .string machine.name), ("states", .list MachineState.summary machine.states),
    ("initial_state", .nat machine.initialState),
    ("exit_state", .optional Json.nat machine.exitState),
    ("suspend_state", .optional Json.nat machine.suspendState),
    ("variable_types", .list (fun declared : String × ValueType =>
      .array [.string declared.1, declared.2.toJson]) machine.variableTypes),
    ("initial_variables", PropertyList.toJson machine.initialVariables),
    ("initial_externals", .list External.toJson machine.initialExternals),
    ("status", machine.start.status), ("snapshot", machine.start.snapshot.toJson)]

end Machine

namespace StepOutcome

/-- What became of a step. -/
def summary (outcome : StepOutcome) : Json.Members :=
  [("transitioned", .bool outcome.transitioned),
    ("result", .optional Value.toJson outcome.result), ("unresolved", .texts outcome.unresolved),
    ("issued", .list Call.brief outcome.issued),
    ("queried", .list Time.toJson outcome.clock.queried)]

end StepOutcome

namespace CallableMachine

/-- The call that a callable machine serves or has served. -/
def summary (callable : CallableMachine) : Json :=
  .object
    [("arguments", PropertyList.toJson callable.arguments),
      ("status", .string (match callable.status with
        | .inactive => "Inactive"
        | .executing => "Executing")),
      ("result", .optional Value.toJson callable.result)]

end CallableMachine

namespace Pool

/-- What is registered in a pool. -/
def summary (pool : Pool) : Json :=
  .object
    [("len", .nat pool.entries.length), ("is_empty", .bool pool.entries.isEmpty),
      ("ids", .nats pool.ids),
      ("infos", .list (fun entry : PoolEntry => entry.registration.toJson) pool.entries),
      ("names", .texts (pool.entries.map fun entry => entry.executable.name))]

/-- What a pool knows of an id. -/
def summaryOf (pool : Pool) (id : ExecutableId) : Json :=
  let executable := pool.get? id
  .object
    [("has", .bool (pool.has id)), ("has_that_isnt_delegate", .bool (pool.hasScheduled id)),
      ("index", .optional Json.nat (pool.index? id)),
      ("information", .optional Registration.toJson (pool.registration? id)),
      ("dependencies", .texts (pool.dependenciesOf id)),
      ("status", .optional (fun found : Executable => found.running.status) executable),
      ("result", .optional Value.toJson (executable.bind Executable.result?)),
      ("parameterised",
        .optional (fun found : Executable => .bool found.isCallable) executable)]

end Pool

end TimedKripke
