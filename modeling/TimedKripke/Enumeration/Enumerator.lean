import TimedKripke.Enumeration.Domain

/-! # Enumerators

An enumerator hands out the values of one type, one after the other, and counts those
that are left. A walk (`Walk.take`, `Walk.skip`, `Walk.visit`) runs any such source for a
number of items. `Walk.visit` forms an item only when it is needed, so that a fault ends a
walk through a domain of any size; what it answers is what `Walk.take` and a visit of the
list would answer (`visit_eq_mapM`).
-/

namespace TimedKripke

namespace Walk

variable {σ α β ε : Type}

/-- The first `count` items of a source, fewer if it ends, and what is left of it. -/
def take (next? : σ → Option (α × σ)) : Nat → σ → List α × σ
  | 0, source => ([], source)
  | count + 1, source =>
      match next? source with
      | none => ([], source)
      | some (item, rest) =>
          let more := take next? count rest
          (item :: more.1, more.2)

/-- Passes over up to `count` items, counting them. -/
def skip (next? : σ → Option (α × σ)) (passed : Nat) : Nat → σ → Nat × σ
  | 0, source => (passed, source)
  | count + 1, source =>
      match next? source with
      | none => (passed, source)
      | some (_, rest) => skip next? (passed + 1) count rest

/-- The answers of `act` to the first `count` items of a source, after the answers
`given`, which stand last first. The first fault ends the walk. -/
def visit (next? : σ → Option (α × σ)) (act : α → Except ε β) (given : List β) :
    (count : Nat) → σ → Except ε (List β)
  | 0, _ => .ok given.reverse
  | count + 1, source =>
      match next? source with
      | none => .ok given.reverse
      | some (item, rest) =>
          match act item with
          | .error fault => .error fault
          | .ok answer => visit next? act (answer :: given) count rest

/-- A walk that visits its items answers what a visit of the list of its items does. -/
theorem visit_eq_mapM (next? : σ → Option (α × σ)) (act : α → Except ε β) (count : Nat) :
    ∀ (given : List β) (source : σ), visit next? act given count source =
      ((take next? count source).1.mapM act).map (given.reverse ++ ·) := by
  induction count with
  | zero => intro given source; simp [visit, take, Except.map, pure, Except.pure]
  | succ count shorter =>
      intro given source
      cases step : next? source with
      | none => simp [visit, take, step, Except.map, pure, Except.pure]
      | some found =>
          obtain ⟨item, rest⟩ := found
          cases answered : act item with
          | error fault =>
              simp [visit, take, step, answered, List.mapM_cons, bind, Except.bind, Except.map]
          | ok answer =>
              rw [visit, step]
              simp only [answered, shorter, take, step, List.mapM_cons, bind, Except.bind]
              cases (take next? count rest).1.mapM act with
              | error fault => rfl
              | ok answers => simp [Except.map, pure, Except.pure]

/-- The bounds on the number of items left that fit 64 bits. -/
def sizeHint (remaining : Nat) : Nat × Option Nat :=
  if remaining < 18446744073709551616 then (remaining, some remaining)
  else (18446744073709551615, none)

end Walk

/-- The values of a type that are still to come. -/
structure Enumerator where
  type : ValueType
  /-- The value to come, none at the end. -/
  upcoming : Option Value
  /-- The number of values to come, counted up to `ValueType.countLimit`. -/
  remaining : Nat

namespace Enumerator

/-- An enumerator over a type that stands under `name` in faults. -/
def named (name : String) (type : ValueType) : Except Fault Enumerator :=
  match type.enumerable name with
  | .ok size => .ok { type, upcoming := type.first?, remaining := size }
  | .error fault => .error fault

/-- An enumerator over a type. -/
def new (type : ValueType) : Except Fault Enumerator :=
  named "value" type

/-- The number of values of the type. -/
def domainSize (enumerator : Enumerator) : Nat :=
  enumerator.type.domainSize.getD 0

/-- The value to come and the enumerator after it. -/
def next? (enumerator : Enumerator) : Option (Value × Enumerator) :=
  match enumerator.upcoming with
  | none => none
  | some value => some (value,
      { enumerator with
        upcoming := enumerator.type.next? value
        remaining := enumerator.remaining - 1 })

end Enumerator

end TimedKripke
