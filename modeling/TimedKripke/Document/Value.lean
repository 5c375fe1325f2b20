import TimedKripke.Json.Basic
import TimedKripke.Time
import TimedKripke.Value.Type

/-! # Documents of values and types

A value is an object with one member, whose name is the value's kind and whose body
is its content; a type without parts is its bare name. Reading is strict: an integer
must fit its kind, and an object with no member or several is no value.
-/

namespace TimedKripke

namespace Time

/-- A time is a bare number. -/
def toJson (time : Time) : Json :=
  .nat time.toNat

/-- Reads a 64-bit number. -/
def ofJson? (document : Json) : Option Time :=
  document.nat?.bind Time.ofNat?

end Time

namespace IntKind

/-- The kind of integers that documents write under a tag. -/
def ofTag? (tag : String) : Option IntKind :=
  all.find? fun kind => kind.tag == tag

end IntKind

namespace Value

mutual

/-- The document of a value. -/
def toJson : Value → Json
  | .bool b => .object [("Bool", .bool b)]
  | .int kind n _ => .object [(kind.tag, .int n)]
  | .string s => .object [("String", .string s)]
  | .absent => .object [("Optional", .null)]
  | .present inner => .object [("Optional", toJson inner)]
  | .collection elements => .object [("Collection", .array (elementsToJson elements))]
  | .compound fields => .object [("Compound", .object (fieldsToJson fields))]

/-- The documents of the elements of a collection. -/
def elementsToJson : List Value → List Json
  | [] => []
  | first :: rest => toJson first :: elementsToJson rest

/-- The members that stand for the fields of a compound. -/
def fieldsToJson : List (String × Value) → List (String × Json)
  | [] => []
  | (key, first) :: rest => (key, toJson first) :: fieldsToJson rest

end

/-- Reads a value that has no values inside. -/
def scalarOfJson? (tag : String) (body : Json) : Option Value :=
  match tag, body with
  | "Bool", .bool b => some (.bool b)
  | "String", .string s => some (.string s)
  | tag, .int n => (IntKind.ofTag? tag).bind fun kind => (ValueType.int kind).integerValue n
  | _, _ => none

mutual

/-- Reads the document of a value. -/
def ofJson? : Json → Option Value
  | .object [(tag, body)] =>
      if tag = "Optional" then optionalOfJson? body
      else if tag = "Collection" then
        match body with
        | .array elements => (elementsOfJson? elements).map .collection
        | _ => none
      else if tag = "Compound" then
        match body with
        | .object members => (fieldsOfJson? [] members).map .compound
        | _ => none
      else scalarOfJson? tag body
  | _ => none

/-- Reads the content of an optional. -/
def optionalOfJson? : Json → Option Value
  | .null => some .absent
  | body => (ofJson? body).map .present

/-- Reads the elements of a collection. -/
def elementsOfJson? : List Json → Option (List Value)
  | [] => some []
  | first :: rest =>
      match ofJson? first, elementsOfJson? rest with
      | some first, some rest => some (first :: rest)
      | _, _ => none

/-- Reads the fields of a compound into those already written. -/
def fieldsOfJson? (written : PropertyList) : List (String × Json) → Option PropertyList
  | [] => some written
  | (key, body) :: rest =>
      match ofJson? body with
      | some value => fieldsOfJson? (OrderedMap.insert key value written) rest
      | none => none

end

end Value

namespace PropertyList

/-- A map of values is an object with its names in order. -/
def toJson (properties : PropertyList) : Json :=
  .object (Value.fieldsToJson properties)

/-- Reads an object of values. -/
def ofJson? : Json → Option PropertyList
  | .object members => Value.fieldsOfJson? [] members
  | _ => none

end PropertyList

namespace ValueType

mutual

/-- The document of a type. -/
def toJson : ValueType → Json
  | .bool => .string "Bool"
  | .int kind => .string kind.tag
  | .string => .string "String"
  | .optional inner => .object [("Optional", toJson inner)]
  | .collection inner => .object [("Collection", toJson inner)]
  | .compound fields => .object [("Compound", .array (fieldsToJson fields))]

/-- The pairs of name and type that stand for declared fields. -/
def fieldsToJson : List (String × ValueType) → List Json
  | [] => []
  | (name, type) :: rest => .array [.string name, toJson type] :: fieldsToJson rest

end

/-- The type without parts that has the given name in documents. -/
def ofTag? (tag : String) : Option ValueType :=
  if tag = "Bool" then some .bool
  else if tag = "String" then some .string
  else (IntKind.ofTag? tag).map .int

mutual

/-- Reads the document of a type. -/
def ofJson? : Json → Option ValueType
  | .string tag => ofTag? tag
  | .object [(tag, body)] =>
      if tag = "Optional" then (ofJson? body).map .optional
      else if tag = "Collection" then (ofJson? body).map .collection
      else if tag = "Compound" then
        match body with
        | .array pairs => (fieldsOfJson? pairs).map .compound
        | _ => none
      else
        match body with
        | .null => ofTag? tag
        | _ => none
  | _ => none

/-- Reads declared fields as pairs of name and type. -/
def fieldsOfJson? : List Json → Option (List (String × ValueType))
  | [] => some []
  | .array [.string name, body] :: rest =>
      match ofJson? body, fieldsOfJson? rest with
      | some type, some rest => some ((name, type) :: rest)
      | _, _ => none
  | _ => none

end

end ValueType

end TimedKripke
