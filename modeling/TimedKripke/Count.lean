/-! # Counts

Sums and products of lists of natural numbers, as they are used to count choices.
-/

namespace TimedKripke

namespace Count

/-- The sum of some counts. -/
def sum : List Nat → Nat
  | [] => 0
  | count :: counts => count + sum counts

/-- The product of some counts: the number of ways to choose once from each. -/
def product : List Nat → Nat
  | [] => 1
  | count :: counts => count * product counts

end Count

end TimedKripke
