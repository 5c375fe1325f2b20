import TimedKripke.Count
import TimedKripke.Enumeration.Enumerator

/-! # Combinations

The tuples over several sources, one value from each, handed out in lexicographic
order with the last source moving fastest. No sources have one combination, the empty
tuple.
-/

namespace TimedKripke

/-- The tuples over a list of types that are still to come. -/
structure Combinations where
  domains : List ValueType
  /-- The tuple to come, none at the end. -/
  upcoming : Option (List Value)
  /-- The number of all tuples, counted up to `ValueType.countLimit`. -/
  total : Nat
  /-- The number of tuples to come, counted like `total`. -/
  remaining : Nat

namespace Combinations

/-- The number of tuples over named sources, times the number counted so far; the
fault of the first source whose values cannot be listed. -/
def count (counted : Nat) : List (String × ValueType) → Except Fault Nat
  | [] => .ok counted
  | (name, type) :: rest =>
      match type.enumerable name with
      | .ok size => count (ValueType.saturatingMul counted size) rest
      | .error fault => .error fault

/-- The combinations of named sources. -/
def named (sources : List (String × ValueType)) : Except Fault Combinations :=
  match count 1 sources with
  | .error fault => .error fault
  | .ok total =>
      let domains := sources.map Prod.snd
      .ok { domains, upcoming := firstTuple domains, total, remaining := total }

/-- Sources named by their position. -/
def positional (types : List ValueType) : List (String × ValueType) :=
  types.mapIdx fun position type => ("source " ++ toString position, type)

/-- The combinations of sources known by their position. -/
def new (types : List ValueType) : Except Fault Combinations :=
  named (positional types)

/-- The combinations of the leaves of sources known by their position. -/
def flatten (types : List ValueType) : Except Fault Combinations :=
  match count 1 (positional types) with
  | .error fault => .error fault
  | .ok _ => new (types.flatMap ValueType.leaves)

/-- The tuple to come and the combinations after it. -/
def next? (combinations : Combinations) : Option (List Value × Combinations) :=
  match combinations.upcoming with
  | none => none
  | some tuple => some (tuple,
      { combinations with
        upcoming := advanceTuple combinations.domains tuple
        remaining := combinations.remaining - 1 })

/-- The exact number of tuples over a list of types. -/
def cardinality (domains : List ValueType) : Nat :=
  Count.product (domains.map ValueType.cardinality)

/-- All tuples to come. -/
def toList (combinations : Combinations) : List (List Value) :=
  (Walk.take next? (cardinality combinations.domains) combinations).1

/-- The answers of `act` to all tuples to come, up to the first fault. -/
def visit {ε β : Type} (combinations : Combinations) (act : List Value → Except ε β) :
    Except ε (List β) :=
  Walk.visit next? act [] (cardinality combinations.domains) combinations

/-- Visiting the combinations answers what a visit of their list does. -/
theorem visit_eq_toList_mapM {ε β : Type} (combinations : Combinations)
    (act : List Value → Except ε β) : combinations.visit act = combinations.toList.mapM act := by
  rw [visit, Walk.visit_eq_mapM, toList]
  cases (Walk.take next? (cardinality combinations.domains) combinations).1.mapM act <;> rfl

end Combinations

end TimedKripke
