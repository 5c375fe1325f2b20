import TimedKripke.Document.Schedule
import TimedKripke.Pool.Executable

/-! # Documents of externals and registrations

An external is written with its name, direction, type and present value, a
registration with its id, name and dependencies. Reading an external does not check
its value against its type: a blueprint does.
-/

namespace TimedKripke

namespace Direction

/-- The document of a direction. -/
def toJson : Direction → Json
  | sensor => .string "Sensor"
  | actuator => .string "Actuator"
  | shared => .string "Variable"

/-- Reads the document of a direction. -/
def ofJson? (document : Json) : Option Direction :=
  match document.unit? with
  | some "Sensor" => some .sensor
  | some "Actuator" => some .actuator
  | some "Variable" => some .shared
  | _ => none

end Direction

namespace External

/-- The document of an external. -/
def toJson (external : External) : Json :=
  .object
    [("name", .string external.name), ("kind", external.direction.toJson),
      ("value_type", external.type.toJson), ("value", external.value.toJson)]

/-- Reads the document of an external. -/
def ofJson? (document : Json) : Option External := do
  let [some name, some direction, some type, some value] ←
    document.record? ["name", "kind", "value_type", "value"] | none
  return {
    name := ← name.string?
    direction := ← Direction.ofJson? direction
    type := ← ValueType.ofJson? type
    value := ← Value.ofJson? value }

/-- The direction that a declaration in short form names. -/
def directionOfDeclaration? : String → Option Direction
  | "sensor" => some .sensor
  | "actuator" => some .actuator
  | "external_variable" => some .shared
  | _ => none

/-- Reads a declaration in short form, as an array of direction, name and type, or in
full. In short form the external holds the default value of its type. -/
def ofEntry? : Json → Option External
  | .array [direction, name, type] => do
      return External.new (← name.string?) (← direction.string?.bind directionOfDeclaration?)
        (← ValueType.ofJson? type)
  | .array _ => none
  | document => ofJson? document

end External

namespace Dependency

/-- The document of a dependency. -/
def toJson : Dependency → Json
  | callable name => .object [("Callable", .string name)]
  | invocable name => .object [("Invocable", .string name)]
  | submachine name => .object [("Submachine", .string name)]

/-- Reads the document of a dependency. -/
def ofJson? : Json → Option Dependency
  | .object [("Callable", .string name)] => some (.callable name)
  | .object [("Invocable", .string name)] => some (.invocable name)
  | .object [("Submachine", .string name)] => some (.submachine name)
  | _ => none

end Dependency

namespace Registration

/-- The document of a registration. -/
def toJson (registration : Registration) : Json :=
  .object
    [("id", .nat registration.id), ("name", .string registration.name),
      ("dependencies", .array (registration.dependencies.map Dependency.toJson))]

/-- Reads the document of a registration. -/
def ofJson? (document : Json) : Option Registration := do
  let [some id, some name, some dependencies] ←
    document.record? ["id", "name", "dependencies"] | none
  return {
    id := ← ExecutableId.ofJson? id
    name := ← name.string?
    dependencies := ← dependencies.list? Dependency.ofJson? }

end Registration

end TimedKripke
