import TimedKripke.Fault
import TimedKripke.Value.Type

/-! # Walking the domain of a type

The values of a type that can be listed are walked from `ValueType.first?` by
`ValueType.next?`: booleans from false to true, integers upwards, compounds with the
field declared last moving fastest. `advanceTuple` walks the tuples over a list of
types in the same way, the last position moving fastest.
-/

namespace TimedKripke

namespace ValueType

/-- The number of values of a type that can be listed, or the fault that names why
`name` cannot be. -/
def enumerable (name : String) (type : ValueType) : Except Fault Nat :=
  match type.duplicateField with
  | some field => .error (.duplicateField name field)
  | none =>
      match type.domainSize with
      | some size => if type.isEnumerable then .ok size else .error (.unenumerableDomain name)
      | none => .error (.unenumerableDomain name)

mutual

/-- The value a walk of the domain starts from. -/
def first? : ValueType → Option Value
  | .bool => some (.bool false)
  | .int kind => some (.int kind kind.min kind.contains_min)
  | .compound fields => (resetFields [] fields).map .compound
  | _ => none

/-- Sets the listed fields to their first values. -/
def resetFields (current : PropertyList) : List (String × ValueType) → Option PropertyList
  | [] => some current
  | (name, type) :: rest =>
      match first? type with
      | some value => resetFields (OrderedMap.insert name value current) rest
      | none => none

end

mutual

/-- The value after a given one, none after the last. -/
def next? : ValueType → Value → Option Value
  | .bool, .bool false => some (.bool true)
  | .int kind, .int _ n _ => (ValueType.int kind).integerValue (n + 1)
  | .compound fields, .compound current => (advanceFields fields current).map .compound
  | _, _ => none

/-- Advances the last field that has a next value and resets the fields declared
after it; none when every field is at its last value. -/
def advanceFields : List (String × ValueType) → PropertyList → Option PropertyList
  | [], _ => none
  | (name, type) :: rest, current =>
      match advanceFields rest current with
      | some advanced => some advanced
      | none =>
          match current.lookup name with
          | none => none
          | some value =>
              match next? type value, resetFields current rest with
              | some next, some reset => some (OrderedMap.insert name next reset)
              | _, _ => none

end

mutual

/-- The types without parts inside a type, in the order of declaration. -/
def leaves : ValueType → List ValueType
  | .compound fields => leavesOfFields fields
  | type => [type]

/-- The types without parts inside declared fields. -/
def leavesOfFields : List (String × ValueType) → List ValueType
  | [] => []
  | (_, type) :: rest => leaves type ++ leavesOfFields rest

end

mutual

/-- The exact number of values of a type that can be listed. -/
def cardinality : ValueType → Nat
  | .bool => 2
  | .int kind => (kind.max - kind.min + 1).toNat
  | .compound fields => fieldsCardinality fields
  | _ => 0

/-- The exact number of ways to fill declared fields. -/
def fieldsCardinality : List (String × ValueType) → Nat
  | [] => 1
  | (_, type) :: rest => cardinality type * fieldsCardinality rest

end

end ValueType

/-- The first tuple over a list of types. -/
def firstTuple : List ValueType → Option (List Value)
  | [] => some []
  | type :: types =>
      match type.first?, firstTuple types with
      | some value, some values => some (value :: values)
      | _, _ => none

/-- The tuple after a given one: the last position that has a next value moves on and
the positions after it start again. None after the last tuple. -/
def advanceTuple : List ValueType → List Value → Option (List Value)
  | type :: types, value :: values =>
      match advanceTuple types values with
      | some advanced => some (value :: advanced)
      | none =>
          match type.next? value, firstTuple types with
          | some next, some reset => some (next :: reset)
          | _, _ => none
  | _, _ => none

end TimedKripke
