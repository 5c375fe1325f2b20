import TimedKripke.Time

/-! # Clock constraints

A constraint is a predicate over the value of one clock: comparisons with a time,
closed under the boolean connectives. `Constraint.inverse` negates a constraint down
to its comparisons and `Constraint.reduced` turns one into comparisons, conjunctions
and disjunctions alone; `Constraint.expression` writes one over a named clock.
-/

namespace TimedKripke

/-- A predicate over a clock value. -/
inductive Constraint where
  | lessThan (time : Time)
  | lessThanEqual (time : Time)
  | equal (time : Time)
  | notEqual (time : Time)
  | greaterThan (time : Time)
  | greaterThanEqual (time : Time)
  | and (left right : Constraint)
  | or (left right : Constraint)
  | implies (left right : Constraint)
  | not (inner : Constraint)
deriving DecidableEq, Repr

namespace Constraint

instance : Inhabited Constraint := ⟨.greaterThanEqual 0⟩

/-- The constraint holds at a clock value. -/
def satisfiedBy (value : Time) : Constraint → Bool
  | .lessThan time => decide (value < time)
  | .lessThanEqual time => decide (value ≤ time)
  | .equal time => value == time
  | .notEqual time => value != time
  | .greaterThan time => decide (time < value)
  | .greaterThanEqual time => decide (time ≤ value)
  | .and left right => left.satisfiedBy value && right.satisfiedBy value
  | .or left right => left.satisfiedBy value || right.satisfiedBy value
  | .implies left right => !left.satisfiedBy value || right.satisfiedBy value
  | .not inner => !inner.satisfiedBy value

/-- The constraint visibly holds at every clock value: it is `c >= 0`, or such a
constraint is a part of every alternative. -/
def isTrivial : Constraint → Bool
  | .greaterThanEqual time => time == 0
  | .or left right => left.isTrivial || right.isTrivial
  | .and left right => left.isTrivial && right.isTrivial
  | _ => false

mutual

/-- The negation, pushed down to the comparisons. -/
def inverse : Constraint → Constraint
  | .lessThan time => .greaterThanEqual time
  | .lessThanEqual time => .greaterThan time
  | .equal time => .notEqual time
  | .notEqual time => .equal time
  | .greaterThan time => .lessThanEqual time
  | .greaterThanEqual time => .lessThan time
  | .and left right => .or (inverse left) (inverse right)
  | .or left right => .and (inverse left) (inverse right)
  | .implies left right => .and (reduced left) (inverse right)
  | .not inner => reduced inner

/-- An equivalent constraint made of comparisons, conjunctions and disjunctions. -/
def reduced : Constraint → Constraint
  | .lessThan time => .lessThan time
  | .lessThanEqual time => .lessThanEqual time
  | .equal time => .equal time
  | .notEqual time => .notEqual time
  | .greaterThan time => .greaterThan time
  | .greaterThanEqual time => .greaterThanEqual time
  | .and left right => .and (reduced left) (reduced right)
  | .or left right => .or (reduced left) (reduced right)
  | .implies left right => .or (inverse left) (reduced right)
  | .not inner => inverse inner

end

/-- A comparison of the clock called `label` with a time. -/
def comparison (label operator : String) (time : Time) : String :=
  label ++ " " ++ operator ++ " " ++ toString time.toNat

/-- The constraint over the clock called `label`; parentheses mark every operand of a
connective. -/
def expression (label : String) : Constraint → String
  | .lessThan time => comparison label "<" time
  | .lessThanEqual time => comparison label "<=" time
  | .equal time => comparison label "==" time
  | .notEqual time => comparison label "!=" time
  | .greaterThan time => comparison label ">" time
  | .greaterThanEqual time => comparison label ">=" time
  | .and left right => "(" ++ left.expression label ++ ") && (" ++ right.expression label ++ ")"
  | .or left right => "(" ++ left.expression label ++ ") || (" ++ right.expression label ++ ")"
  | .implies left right =>
      "(" ++ left.expression label ++ ") -> (" ++ right.expression label ++ ")"
  | .not inner => "!(" ++ inner.expression label ++ ")"

/-- The constraint over a clock called `c`. -/
def display (constraint : Constraint) : String :=
  constraint.expression "c"

/-- The place of a constraint's form in the order of constraints. -/
def rank : Constraint → Nat
  | .lessThan _ => 0
  | .lessThanEqual _ => 1
  | .equal _ => 2
  | .notEqual _ => 3
  | .greaterThan _ => 4
  | .greaterThanEqual _ => 5
  | .and _ _ => 6
  | .or _ _ => 7
  | .implies _ _ => 8
  | .not _ => 9

/-- The order of constraints: by form, then by the parts from the left. -/
def compare : Constraint → Constraint → Ordering
  | .lessThan a, .lessThan b => Ord.compare a b
  | .lessThanEqual a, .lessThanEqual b => Ord.compare a b
  | .equal a, .equal b => Ord.compare a b
  | .notEqual a, .notEqual b => Ord.compare a b
  | .greaterThan a, .greaterThan b => Ord.compare a b
  | .greaterThanEqual a, .greaterThanEqual b => Ord.compare a b
  | .and a b, .and c d => (compare a c).then (compare b d)
  | .or a b, .or c d => (compare a c).then (compare b d)
  | .implies a b, .implies c d => (compare a c).then (compare b d)
  | .not a, .not b => compare a b
  | a, b => Ord.compare a.rank b.rank

instance : Ord Constraint := ⟨compare⟩

/-- The alternatives of a chain of disjunctions, from the left. -/
def disjuncts : Constraint → List Constraint
  | .or left right => left.disjuncts ++ right.disjuncts
  | constraint => [constraint]

end Constraint

end TimedKripke
