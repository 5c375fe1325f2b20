import Mathlib.Tactic.Common
import TimedKripke.Constraint

/-! # The algebra of constraints

`Constraint.inverse` and `Constraint.reduced` are the negation and the constraint itself, both
brought into a form without negations and implications. Each case of one of them uses the other,
so they are treated together: what they mean (`Constraint.satisfiedBy_inverse_and_reduced`), which
form they have (`Constraint.usesNegation_inverse_and_reduced`), and how they are composed
(`Constraint.inverse_inverse_and_reduced`). A constraint that visibly always holds does so
(`Constraint.satisfiedBy_of_isTrivial`).
-/

namespace TimedKripke

namespace Constraint

/-- A negation or an implication stands somewhere in the constraint, at whatever depth. -/
def usesNegation : Constraint → Bool
  | .not _ | .implies _ _ => true
  | .and left right | .or left right => left.usesNegation || right.usesNegation
  | .lessThan _ | .lessThanEqual _ | .equal _ | .notEqual _ | .greaterThan _
  | .greaterThanEqual _ => false

/-- The inverse holds where the constraint does not, and the reduced constraint where it does. -/
theorem satisfiedBy_inverse_and_reduced (value : Time) (constraint : Constraint) :
    constraint.inverse.satisfiedBy value = !constraint.satisfiedBy value ∧
      constraint.reduced.satisfiedBy value = constraint.satisfiedBy value := by
  induction constraint with
  | lessThan time | lessThanEqual time | greaterThan time | greaterThanEqual time =>
      constructor
      · simp only [inverse, satisfiedBy, ← decide_not, UInt64.not_lt, UInt64.not_le]
      · rfl
  | equal time =>
      exact ⟨rfl, rfl⟩
  | notEqual time =>
      constructor
      · simp only [inverse, satisfiedBy, bne, Bool.not_not]
      · rfl
  | and left right inLeft inRight | or left right inLeft inRight =>
      constructor
      · simp only [inverse, satisfiedBy, inLeft.1, inRight.1, Bool.not_and, Bool.not_or]
      · simp only [reduced, satisfiedBy, inLeft.2, inRight.2]
  | implies left right inLeft inRight =>
      -- An implication fails where its left side holds and its right side does not.
      constructor
      · simp only [inverse, satisfiedBy, inLeft.2, inRight.1, Bool.not_or, Bool.not_not]
      · simp only [reduced, satisfiedBy, inLeft.1, inRight.2]
  | not inner inInner =>
      constructor
      · simp only [inverse, satisfiedBy, inInner.2, Bool.not_not]
      · simp only [reduced, satisfiedBy, inInner.1]

/-- A constraint that counts as trivial holds at every clock value. -/
theorem satisfiedBy_of_isTrivial (value : Time) {constraint : Constraint}
    (trivially : constraint.isTrivial = true) : constraint.satisfiedBy value = true := by
  induction constraint with
  | greaterThanEqual time =>
      rw [isTrivial, beq_iff_eq] at trivially
      rw [satisfiedBy, trivially, decide_eq_true_eq, UInt64.le_iff_toNat_le]
      exact Nat.zero_le _
  | or left right others others' =>
      rw [isTrivial, Bool.or_eq_true] at trivially
      rw [satisfiedBy, Bool.or_eq_true]
      exact trivially.imp others others'
  | and left right others others' =>
      rw [isTrivial, Bool.and_eq_true] at trivially
      rw [satisfiedBy, Bool.and_eq_true]
      exact ⟨others trivially.1, others' trivially.2⟩
  | _ => cases trivially

/-- Neither the inverse nor the reduced form of a constraint has a negation in it. -/
theorem usesNegation_inverse_and_reduced (constraint : Constraint) :
    constraint.inverse.usesNegation = false ∧ constraint.reduced.usesNegation = false := by
  induction constraint with
  | lessThan time | lessThanEqual time | equal time | notEqual time | greaterThan time
  | greaterThanEqual time =>
      exact ⟨rfl, rfl⟩
  | and left right inLeft inRight | or left right inLeft inRight
  | implies left right inLeft inRight =>
      constructor
      · simp only [inverse, usesNegation, inLeft.1, inLeft.2, inRight.1, Bool.or_self]
      · simp only [reduced, usesNegation, inLeft.1, inLeft.2, inRight.2, Bool.or_self]
  | not inner inInner =>
      exact ⟨by rw [inverse]; exact inInner.2, by rw [reduced]; exact inInner.1⟩

/-- A constraint without negations is reduced already. -/
theorem reduced_of_usesNegation {constraint : Constraint}
    (positive : constraint.usesNegation = false) : constraint.reduced = constraint := by
  induction constraint with
  | lessThan time | lessThanEqual time | equal time | notEqual time | greaterThan time
  | greaterThanEqual time =>
      rfl
  | and left right inLeft inRight | or left right inLeft inRight =>
      rw [usesNegation, Bool.or_eq_false_iff] at positive
      rw [reduced, inLeft positive.1, inRight positive.2]
  | implies left right inLeft inRight => cases positive
  | not inner inInner => cases positive

/-- Negating twice reduces, and reducing first makes no difference to the negation. -/
theorem inverse_inverse_and_reduced (constraint : Constraint) :
    constraint.inverse.inverse = constraint.reduced ∧
      constraint.reduced.inverse = constraint.inverse := by
  induction constraint with
  | lessThan time | lessThanEqual time | equal time | notEqual time | greaterThan time
  | greaterThanEqual time =>
      exact ⟨rfl, rfl⟩
  | and left right inLeft inRight | or left right inLeft inRight =>
      constructor
      · simp only [inverse, reduced, inLeft.1, inRight.1]
      · simp only [inverse, reduced, inLeft.2, inRight.2]
  | implies left right inLeft inRight =>
      constructor
      · simp only [inverse, reduced, inLeft.2, inRight.1]
      · simp only [inverse, reduced, inLeft.1, inRight.2]
  | not inner inInner =>
      constructor
      · rw [inverse, reduced, inInner.2]
      · rw [inverse, reduced, inInner.1]

/-- **Negating and reducing are sound.** The inverse means the negation and the reduced constraint
means the same; neither holds a negation or an implication; negating twice is reducing, and
reducing changes neither the negation nor what is reduced. -/
theorem inverse_and_reduced_laws (constraint : Constraint) :
    (∀ value, constraint.inverse.satisfiedBy value = !constraint.satisfiedBy value) ∧
      (∀ value, constraint.reduced.satisfiedBy value = constraint.satisfiedBy value) ∧
      constraint.inverse.usesNegation = false ∧ constraint.reduced.usesNegation = false ∧
      constraint.inverse.inverse = constraint.reduced ∧
      constraint.reduced.inverse = constraint.inverse ∧
      constraint.reduced.reduced = constraint.reduced := by
  obtain ⟨inverseForm, reducedForm⟩ := usesNegation_inverse_and_reduced constraint
  obtain ⟨twice, inverted⟩ := inverse_inverse_and_reduced constraint
  exact ⟨fun value => (satisfiedBy_inverse_and_reduced value constraint).1,
    fun value => (satisfiedBy_inverse_and_reduced value constraint).2, inverseForm, reducedForm,
    twice, inverted, reduced_of_usesNegation reducedForm⟩

/-- The window from 5 to 15, written with an implication under a negation. -/
example : (Constraint.not (.implies (.greaterThan 5) (.greaterThan 15))).reduced =
    .and (.greaterThan 5) (.lessThanEqual 15) := by
  decide

end Constraint

end TimedKripke
