import TimedKripke.Count

/-! # Odometers

An odometer has wheels of given sizes. Starting with every wheel at zero it passes
through all readings, the last wheel turning fastest.
-/

namespace TimedKripke

namespace Odometer

/-- The reading after a given one: the last wheel that can turn moves on, and the
wheels after it go back to zero. None when no wheel can turn. -/
def advance : (sizes reading : List Nat) → Option (List Nat)
  | size :: sizes, position :: positions =>
      match advance sizes positions with
      | some advanced => some (position :: advanced)
      | none =>
          if position + 1 < size then some ((position + 1) :: positions.map fun _ => 0) else none
  | _, _ => none

/-- The readings from a given one on, at most `count` of them. -/
def readingsFrom (sizes : List Nat) : (count : Nat) → (reading : List Nat) → List (List Nat)
  | 0, _ => []
  | count + 1, reading =>
      reading :: match advance sizes reading with
        | some advanced => readingsFrom sizes count advanced
        | none => []

/-- All readings of an odometer whose wheels have at least one position. -/
def readings (sizes : List Nat) : List (List Nat) :=
  readingsFrom sizes (Count.product sizes) (sizes.map fun _ => 0)

/-- The members of some arrays at the positions of a reading. -/
def select {α : Type} : (reading : List Nat) → List (Array α) → List α
  | position :: positions, choices :: rest =>
      match choices[position]? with
      | some choice => choice :: select positions rest
      | none => select positions rest
  | _, _ => []

end Odometer

end TimedKripke
