/-! # Decimal numerals

A numeral is a number as JSON text writes it: a sign, digits before and after the
point, and an exponent. It stands for an integer when it has neither point nor exponent
and 64 bits hold it, and it is in range when its magnitude is that of a finite number in
double precision.
-/

namespace TimedKripke

/-- A number as it is written. -/
structure Numeral where
  /-- A minus sign stands in front. -/
  negative : Bool
  /-- The digits before the point. -/
  whole : List Char
  /-- The digits after the point; without a point there are none. -/
  places : List Char
  /-- The exponent, if one is written. -/
  exponent : Option Int

namespace Numeral

/-- The value of a decimal digit. -/
def digitValue (digit : Char) : Nat :=
  digit.toNat - 48

/-- The number written by decimal digits. -/
def digitsValue (digits : List Char) : Nat :=
  digits.foldl (fun value digit => value * 10 + digitValue digit) 0

/-- Reads a number without sign. -/
def unsigned? (digits : List Char) : Option Nat :=
  if digits.isEmpty || !digits.all Char.isDigit then none else some (digitsValue digits)

/-- Reads the end of a numeral, which is an exponent if anything is left. -/
def exponent? : List Char → Option (Option Int)
  | [] => some none
  | mark :: rest =>
      if mark = 'e' ∨ mark = 'E' then
        match rest with
        | '+' :: digits => (unsigned? digits).map fun n => some (n : Int)
        | '-' :: digits => (unsigned? digits).map fun n => some (-(n : Int))
        | digits => (unsigned? digits).map fun n => some (n : Int)
      else none

/-- Splits off the digits after a point, of which there is at least one, if a point
stands in front. -/
def places? : List Char → Option (List Char × List Char)
  | '.' :: rest =>
      if (rest.takeWhile Char.isDigit).isEmpty then none
      else some (rest.takeWhile Char.isDigit, rest.dropWhile Char.isDigit)
  | rest => some ([], rest)

/-- The digits before the point are zero alone, or do not start with zero. -/
def isWhole (digits : List Char) : Bool :=
  !digits.isEmpty && (digits.head? != some '0' || digits.length == 1)

/-- Reads a numeral without its sign. -/
def magnitude? (negative : Bool) (text : List Char) : Option Numeral :=
  let whole := text.takeWhile Char.isDigit
  if isWhole whole then do
    let (places, rest) ← places? (text.dropWhile Char.isDigit)
    return { negative, whole, places, exponent := ← exponent? rest }
  else none

/-- Reads a numeral. -/
def ofChars? : List Char → Option Numeral
  | '-' :: rest => magnitude? true rest
  | text => magnitude? false text

/-- An integer in decimal. -/
def decimal (n : Int) : List Char :=
  if n < 0 then '-' :: Nat.toDigits 10 n.natAbs else Nat.toDigits 10 n.natAbs

/-- The text of a numeral. -/
def chars (numeral : Numeral) : List Char :=
  (if numeral.negative then ['-'] else []) ++ numeral.whole ++
    (if numeral.places.isEmpty then [] else '.' :: numeral.places) ++
    (numeral.exponent.map fun n => 'e' :: decimal n).getD []

/-- The integer that a numeral stands for: it is written without point and exponent, 64
bits hold it, and it is no negative zero. -/
def integer? (numeral : Numeral) : Option Int :=
  let value := digitsValue numeral.whole
  if numeral.places.isEmpty && numeral.exponent.isNone then
    if numeral.negative then
      if 0 < value ∧ value ≤ 9223372036854775808 then some (-(value : Int)) else none
    else if value < 18446744073709551616 then some value
    else none
  else none

/-- Appends digits to a significand as long as 64 bits hold it. Answers the significand
and the number of digits left over. -/
def absorb (significand : Nat) : List Char → Nat × Nat
  | [] => (significand, 0)
  | digit :: rest =>
      let next := significand * 10 + digitValue digit
      if next < 18446744073709551616 then absorb next rest
      else (significand, rest.length + 1)

/-- A numeral without its sign as a significand of 64 bits and a power of ten. Digits
that the significand cannot take are cut off. -/
def scaled (numeral : Numeral) : Nat × Int :=
  let (significand, above) := absorb 0 numeral.whole
  let (significand, below) := absorb significand numeral.places
  (significand,
    (above : Int) - ((numeral.places.length - below : Nat) : Int) + numeral.exponent.getD 0)

/-- The number nearest to `n` that has 53 significant binary digits. Of two nearest the
one with an even last digit is taken. -/
def nearest53 (n : Nat) : Nat :=
  if n.log2 ≤ 52 then n
  else
    let unit := Nat.pow 2 (n.log2 - 52)
    let lower := n / unit
    let excess := 2 * (n % unit)
    if unit < excess ∨ (unit = excess ∧ lower % 2 = 1) then (lower + 1) * unit else lower * unit

/-- The least magnitude that double precision rounds to infinity. -/
def overflow : Nat :=
  Nat.pow 2 1024 - Nat.pow 2 970

/-- Double precision has a finite number for the numeral, when significand and power of
ten are rounded before they are multiplied. -/
def inRange (numeral : Numeral) : Bool :=
  let (significand, power) := numeral.scaled
  decide (significand = 0) || decide (power < 0) ||
    (decide (power ≤ 308) &&
      decide (nearest53 significand * nearest53 (Nat.pow 10 power.toNat) < overflow))

end Numeral

end TimedKripke
