import TimedKripke.Value.Type

/-! # Externals

An external is a value that a machine shares with its environment: a sensor is read,
an actuator is written, an external variable is both.
-/

namespace TimedKripke

/-- The direction of an external. -/
inductive Direction where
  /-- Read from the environment. -/
  | sensor
  /-- Written to the environment. -/
  | actuator
  /-- Read and written. -/
  | shared
deriving DecidableEq, Repr

namespace Direction

/-- The environment provides the value. -/
def isInput : Direction → Bool
  | sensor | shared => true
  | actuator => false

/-- The environment receives the value. -/
def isOutput : Direction → Bool
  | actuator | shared => true
  | sensor => false

/-- The field of a machine's snapshot that holds externals of this direction. -/
def group : Direction → String
  | sensor => "sensors"
  | actuator => "actuators"
  | shared => "externalVariables"

/-- A direction in words. -/
def display : Direction → String
  | sensor => "sensor"
  | actuator => "actuator"
  | shared => "external variable"

end Direction

/-- A declared external with its present value. -/
structure External where
  /-- The name shared with the environment. -/
  name : String
  direction : Direction
  type : ValueType
  value : Value
deriving DecidableEq

namespace External

/-- An external that holds the default value of its type. -/
def new (name : String) (direction : Direction) (type : ValueType) : External :=
  { name, direction, type, value := type.default }

/-- Finds the external of a name. -/
def find? (externals : List External) (name : String) : Option External :=
  List.find? (fun declared => declared.name == name) externals

/-- Writes a value to the first external of a name, whatever its type. -/
def write (name : String) (value : Value) : List External → List External
  | [] => []
  | first :: rest =>
      if first.name = name then { first with value } :: rest
      else first :: write name value rest

end External

end TimedKripke
