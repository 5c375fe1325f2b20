import TimedKripke.Document.Machine
import TimedKripke.Document.Script
import TimedKripke.Pool.Basic

/-! # Documents of machines and pools

A machine is written as an object with its variables, externals and states; actions
and guards are scripts. A pool is an array of registered machines. Reading a pool
builds its machines one after the other, so the first entry that is malformed or is
refused decides the outcome.
-/

namespace TimedKripke

/-- Why a document does not stand for a model. -/
inductive DocumentError where
  /-- The document does not have the form. -/
  | malformed
  /-- The document is well formed and the model is refused. -/
  | refused (cause : Fault)
deriving DecidableEq, Repr

namespace DocumentError

/-- What was read, or that the document is malformed. -/
def ofRead {α : Type} : Option α → Except DocumentError α
  | some read => .ok read
  | none => .error .malformed

/-- What was built, or that the model is refused. -/
def ofBuilt {α : Type} (built : Except Fault α) : Except DocumentError α :=
  built.mapError .refused

end DocumentError

namespace VariableDeclaration

/-- Reads a declaration: an array of name, type and initial value. -/
def ofJson? : Json → Option VariableDeclaration
  | .array [name, type, initial] => do
      return {
        name := ← name.string?
        type := ← ValueType.ofJson? type
        initial := ← Value.ofJson? initial }
  | _ => none

end VariableDeclaration

namespace StateBlueprint

/-- Reads a transition: an array of a target's name and a guard. -/
def transitionOfJson? : Json → Option (String × Program Bool)
  | .array [target, guard] => do
      return (← target.string?, Script.guard (← Script.ofJson? guard))
  | _ => none

/-- Reads an action. -/
def actionOfJson? (document : Json) : Option (Program Unit) :=
  (Script.ofJson? document).map Script.action

/-- Reads a state; all but the name may be missing. -/
def ofJson? (document : Json) : Option StateBlueprint := do
  return {
    name := ← document.field? "name" Json.string?
    onEntry := ← document.optionalField? "on_entry" actionOfJson?
    onExit := ← document.optionalField? "on_exit" actionOfJson?
    internal := ← document.optionalField? "internal" actionOfJson?
    transitions := ← document.fieldD? "transitions" (Json.list? transitionOfJson?) []
    observes := ← document.optionalField? "observes" (Json.list? Json.string?) }

end StateBlueprint

namespace Blueprint

/-- Reads a machine as it is written. -/
def ofJson? (document : Json) : Option Blueprint := do
  let externals ← document.fieldD? "externals" (Json.list? External.ofEntry?) []
  let blueprint : Blueprint := {
    name := ← document.field? "name" Json.string?
    declarations := ← document.fieldD? "variables" (Json.list? VariableDeclaration.ofJson?) []
    states := ← document.field? "states" (Json.list? StateBlueprint.ofJson?)
    initialState := ← document.nullableField? "initial_state" Json.string?
    exitState := ← document.nullableField? "exit_state" Json.string?
    suspendState := ← document.nullableField? "suspend_state" Json.string? }
  return externals.foldl declareExternal blueprint

end Blueprint

namespace Machine

/-- Reads a machine and builds it. -/
def ofJson (document : Json) : Except DocumentError Machine := do
  let blueprint ← DocumentError.ofRead (Blueprint.ofJson? document)
  DocumentError.ofBuilt blueprint.build

end Machine

namespace PoolEntry

/-- Reads the name and type of a parameter. -/
def parameterOfJson? : Json → Option (String × ValueType)
  | .array [name, type] => do return (← name.string?, ← ValueType.ofJson? type)
  | _ => none

/-- Reads a registered machine and builds it. The name it is registered under is that
of the machine unless another is given; a machine with declared parameters is called,
all others are scheduled. The machine is built before the rest of the entry is
read, so a refused machine decides the outcome whatever stands beside it. -/
def ofJson (document : Json) : Except DocumentError PoolEntry := do
  let machine ← DocumentError.ofRead (document.member? "machine") >>= Machine.ofJson
  let id ← DocumentError.ofRead (document.field? "id" ExecutableId.ofJson?)
  let name ← DocumentError.ofRead (document.fieldD? "name" Json.string? machine.name)
  let dependencies ← DocumentError.ofRead
    (document.fieldD? "dependencies" (Json.list? Dependency.ofJson?) [])
  let parameters ← DocumentError.ofRead
    (document.optionalField? "parameters" (Json.list? parameterOfJson?))
  return {
    registration := { id, name, dependencies }
    executable := match parameters with
      | some parameters => .callable (.new machine.start parameters)
      | none => .scheduled machine.start }

end PoolEntry

namespace Pool

/-- Reads a pool: an array of registered machines. -/
def ofJson (document : Json) : Except DocumentError Pool := do
  let entries ← DocumentError.ofRead document.array?
  DocumentError.ofBuilt (Pool.new (← entries.mapM PoolEntry.ofJson))

end Pool

end TimedKripke
