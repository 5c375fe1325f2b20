import Mathlib.Algebra.Group.Nat.Defs
import Mathlib.Tactic.Common
import TimedKripke.Bytes

/-! # Reading bytes back

A number that fits its width and a text can be read back from their bytes
(`Bytes.ofBigEndian_bigEndian`, `Bytes.ofLittleEndian_littleEndian`, `Bytes.text?_ofText`), and
numbers with the highest byte first stand in the order of the numbers
(`Bytes.compare_bigEndian`).
-/

namespace TimedKripke

namespace Bytes

/-- A number is written in as many bytes as it is given, highest first. -/
@[simp] theorem length_bigEndian (width n : Nat) : (bigEndian width n).length = width := by
  induction width generalizing n with
  | zero => rfl
  | succ width shorter => rw [bigEndian, List.length_append, shorter, List.length_singleton]

/-- A number is written in as many bytes as it is given, lowest first. -/
@[simp] theorem length_littleEndian (width n : Nat) : (littleEndian width n).length = width := by
  induction width generalizing n with
  | zero => rfl
  | succ width shorter => rw [littleEndian, List.length_cons, shorter]

/-- Dropping the lowest byte leaves a number that fits one byte less. -/
theorem div_lt_of_lt_pow {width n : Nat} (fits : n < 256 ^ (width + 1)) :
    n / 256 < 256 ^ width := by
  apply Nat.div_lt_of_lt_mul
  rwa [Nat.pow_succ, Nat.mul_comm] at fits

/-- A number that fits the width is read back from its bytes, highest first. -/
theorem ofBigEndian_bigEndian {width n : Nat} (fits : n < 256 ^ width) :
    ofBigEndian (bigEndian width n) = n := by
  induction width generalizing n with
  | zero => exact (Nat.lt_one_iff.mp fits).symm
  | succ width shorter =>
      have high : ofBigEndian (bigEndian width (n / 256)) = n / 256 :=
        shorter (div_lt_of_lt_pow fits)
      rw [ofBigEndian] at high
      rw [bigEndian, ofBigEndian, List.foldl_append, high, List.foldl_cons, List.foldl_nil,
        UInt8.toNat_ofNat']
      omega

/-- A number that fits the width is read back from its bytes, lowest first. -/
theorem ofLittleEndian_littleEndian {width n : Nat} (fits : n < 256 ^ width) :
    ofLittleEndian (littleEndian width n) = n := by
  induction width generalizing n with
  | zero => exact (Nat.lt_one_iff.mp fits).symm
  | succ width shorter =>
      have high : ofLittleEndian (littleEndian width (n / 256)) = n / 256 :=
        shorter (div_lt_of_lt_pow fits)
      rw [ofLittleEndian] at high
      rw [littleEndian, ofLittleEndian, List.foldr_cons, high, UInt8.toNat_ofNat']
      omega

/-- The last bytes decide between sequences that agree before them. -/
theorem compare_append_singleton {first second : Bytes} (same : first.length = second.length)
    (a b : UInt8) :
    compare (first ++ [a]) (second ++ [b]) = (compare first second).then (compare a b) := by
  induction first generalizing second with
  | nil =>
      obtain rfl : second = [] := List.length_eq_zero_iff.mp same.symm
      rw [List.nil_append, List.nil_append, List.compare_cons_cons]
      cases compare a b <;> rfl
  | cons byte first shorter =>
      cases second with
      | nil => cases same
      | cons other second =>
          rw [List.cons_append, List.cons_append, List.compare_cons_cons, List.compare_cons_cons,
            shorter (Nat.succ.inj same), Ordering.then_assoc]

/-- **Numbers of one width are in the order of their bytes**, if the highest byte comes first. So
scanning keys in byte order scans states in the order of their numbers. -/
theorem compare_bigEndian {width m n : Nat} (smaller : m < n) (fits : n < 256 ^ width) :
    compare (bigEndian width m) (bigEndian width n) = .lt := by
  induction width generalizing m n with
  | zero => omega
  | succ width shorter =>
      have lengths : (bigEndian width (m / 256)).length = (bigEndian width (n / 256)).length := by
        rw [length_bigEndian, length_bigEndian]
      rw [bigEndian, bigEndian, compare_append_singleton lengths, Ordering.then_eq_lt]
      by_cases high : m / 256 < n / 256
      · exact .inl (shorter high (div_lt_of_lt_pow fits))
      · have agree : m / 256 = n / 256 := by omega
        refine .inr ⟨by rw [agree]; exact Std.ReflOrd.compare_self, ?_⟩
        rw [Std.compare_eq_lt, UInt8.lt_iff_toNat_lt, UInt8.toNat_ofNat', UInt8.toNat_ofNat']
        omega

/-- The bytes of a text decode to the text. -/
@[simp] theorem text?_ofText (text : String) : text? (ofText text) = some text := by
  rw [text?, ofText, Array.toArray_toList]
  exact dif_pos text.isValidUTF8

/-- The bytes of a text are scanned as its characters, and none of them is malformed. -/
@[simp] theorem characters_ofText (text : String) :
    characters (ofText text) = text.toList.map some := by
  rw [characters, text?_ofText]

/-- Different texts have different bytes, since texts are read back from theirs. -/
theorem ofText_injective : Function.Injective ofText := by
  intro first second same
  have read := text?_ofText first
  rw [same, text?_ofText] at read
  exact (Option.some.inj read).symm

end Bytes

end TimedKripke
