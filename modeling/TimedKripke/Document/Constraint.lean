import TimedKripke.Constraint
import TimedKripke.Document.Value

/-! # Documents of constraints

A constraint is an object with one member, named for its form: a comparison maps to
the time, a connective to its operands.
-/

namespace TimedKripke

namespace Constraint

/-- The document of a constraint. -/
def toJson : Constraint → Json
  | .lessThan time => .object [("less_than", time.toJson)]
  | .lessThanEqual time => .object [("less_than_equal", time.toJson)]
  | .equal time => .object [("equal", time.toJson)]
  | .notEqual time => .object [("not_equal", time.toJson)]
  | .greaterThan time => .object [("greater_than", time.toJson)]
  | .greaterThanEqual time => .object [("greater_than_equal", time.toJson)]
  | .and left right => .object [("and", .array [toJson left, toJson right])]
  | .or left right => .object [("or", .array [toJson left, toJson right])]
  | .implies left right => .object [("implies", .array [toJson left, toJson right])]
  | .not inner => .object [("not", toJson inner)]

/-- The comparison that documents write under a tag. -/
def comparison? (tag : String) (time : Time) : Option Constraint :=
  match tag with
  | "less_than" => some (.lessThan time)
  | "less_than_equal" => some (.lessThanEqual time)
  | "equal" => some (.equal time)
  | "not_equal" => some (.notEqual time)
  | "greater_than" => some (.greaterThan time)
  | "greater_than_equal" => some (.greaterThanEqual time)
  | _ => none

/-- The connective of two operands that documents write under a tag. -/
def connective? (tag : String) (left right : Constraint) : Option Constraint :=
  match tag with
  | "and" => some (.and left right)
  | "or" => some (.or left right)
  | "implies" => some (.implies left right)
  | _ => none

/-- Reads the document of a constraint. -/
def ofJson? : Json → Option Constraint
  | .object [(tag, .array [left, right])] =>
      match ofJson? left, ofJson? right with
      | some left, some right => connective? tag left right
      | _, _ => none
  | .object [(tag, .object members)] =>
      if tag = "not" then (ofJson? (.object members)).map .not else none
  | .object [(tag, body)] => (Time.ofJson? body).bind (comparison? tag)
  | _ => none

end Constraint

end TimedKripke
