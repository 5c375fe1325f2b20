/-! # Times

Offsets, durations, clock thresholds and counters are 64-bit ticks. Arithmetic on
them saturates: a sum never passes the latest representable time and a difference
never falls below zero. The two equations at the end of the module read both
operations back in the natural numbers.
-/

namespace TimedKripke

/-- A point in time, a length of time or a counter of repetitions, in 64 bits. -/
abbrev Time := UInt64

namespace Time

/-- The latest representable time. -/
def latest : Time := 18446744073709551615

/-- The sum of two times, at most `latest`. -/
def saturatingAdd (first second : Time) : Time :=
  if first.toNat + second.toNat < 18446744073709551616 then first + second else latest

/-- The distance from `second` up to `first`, zero when `first` is the earlier. -/
def saturatingSub (first second : Time) : Time :=
  if second ≤ first then first - second else 0

/-- Reads a natural number as a time, if it fits. -/
def ofNat? (n : Nat) : Option Time :=
  if n < 18446744073709551616 then some (UInt64.ofNat n) else none

@[simp] theorem toNat_latest : latest.toNat = 18446744073709551615 := rfl

/-- A sum of times is the sum of the numbers, cut at the latest time. -/
theorem toNat_saturatingAdd (first second : Time) :
    (saturatingAdd first second).toNat =
      min (first.toNat + second.toNat) 18446744073709551615 := by
  unfold saturatingAdd
  split
  · rw [UInt64.toNat_add]
    omega
  · rw [toNat_latest]
    omega

/-- A difference of times is the truncated difference of the numbers. -/
theorem toNat_saturatingSub (first second : Time) :
    (saturatingSub first second).toNat = first.toNat - second.toNat := by
  unfold saturatingSub
  split
  · next ordered => exact UInt64.toNat_sub_of_le _ _ ordered
  · next unordered =>
      have := UInt64.lt_iff_toNat_lt.mp (UInt64.not_le.mp unordered)
      have zero : (0 : UInt64).toNat = 0 := rfl
      omega

end Time

end TimedKripke
