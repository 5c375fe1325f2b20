import TimedKripke.OrderedMap

/-! # Values

Machines expose their state as values: booleans, fixed-width integers, strings,
optionals, collections and named compounds. There are no floating-point values, so
every value can be compared, ordered and hashed, and two snapshots of a machine are
the same state exactly when they are the same value.

A compound holds its fields as an `OrderedMap`. The order of values (`Value.compare`)
goes by kind first and by content within a kind; text and hash are structural.
-/

namespace TimedKripke

/-- The fixed-width integer kinds. -/
inductive IntKind where
  | i8 | i16 | i32 | i64 | u8 | u16 | u32 | u64
deriving DecidableEq, Repr, Inhabited

namespace IntKind

/-- The least integer of a kind. -/
def min : IntKind → Int
  | i8 => -128
  | i16 => -32768
  | i32 => -2147483648
  | i64 => -9223372036854775808
  | u8 | u16 | u32 | u64 => 0

/-- The greatest integer of a kind. -/
def max : IntKind → Int
  | i8 => 127
  | i16 => 32767
  | i32 => 2147483647
  | i64 => 9223372036854775807
  | u8 => 255
  | u16 => 65535
  | u32 => 4294967295
  | u64 => 18446744073709551615

/-- The integers of a kind are those between its bounds. -/
def Contains (kind : IntKind) (n : Int) : Prop :=
  kind.min ≤ n ∧ n ≤ kind.max

instance (kind : IntKind) (n : Int) : Decidable (kind.Contains n) :=
  inferInstanceAs (Decidable (_ ∧ _))

/-- Zero belongs to every kind. -/
theorem contains_zero (kind : IntKind) : kind.Contains 0 := by
  cases kind <;> decide

/-- The least integer of a kind belongs to it. -/
theorem contains_min (kind : IntKind) : kind.Contains kind.min := by
  cases kind <;> decide

/-- The name of a kind in type expressions. -/
def name : IntKind → String
  | i8 => "i8"
  | i16 => "i16"
  | i32 => "i32"
  | i64 => "i64"
  | u8 => "u8"
  | u16 => "u16"
  | u32 => "u32"
  | u64 => "u64"

/-- The tag under which integers of a kind are written in documents. -/
def tag : IntKind → String
  | i8 => "I8"
  | i16 => "I16"
  | i32 => "I32"
  | i64 => "I64"
  | u8 => "U8"
  | u16 => "U16"
  | u32 => "U32"
  | u64 => "U64"

/-- All kinds, in the order in which their integers are ordered. -/
def all : List IntKind :=
  [i8, i16, i32, i64, u8, u16, u32, u64]

/-- The place of a kind in `all`. -/
def rank : IntKind → Nat
  | i8 => 0
  | i16 => 1
  | i32 => 2
  | i64 => 3
  | u8 => 4
  | u16 => 5
  | u32 => 6
  | u64 => 7

end IntKind

/-- A snapshot-able value. -/
inductive Value where
  | bool (b : Bool)
  | int (kind : IntKind) (n : Int) (inRange : kind.Contains n)
  | string (s : String)
  /-- An optional without content. -/
  | absent
  /-- An optional with content. -/
  | present (inner : Value)
  | collection (elements : List Value)
  /-- Named fields, in ascending order of the names. -/
  | compound (fields : List (String × Value))

/-- A map of named values: a snapshot, an environment or an assignment. -/
abbrev PropertyList := OrderedMap String Value

namespace Value

instance : Inhabited Value := ⟨.absent⟩

mutual

/-- Two values are the same. -/
def beq : Value → Value → Bool
  | .bool a, .bool b => a == b
  | .int kind m _, .int kind' n _ => kind == kind' && m == n
  | .string a, .string b => a == b
  | .absent, .absent => true
  | .present a, .present b => beq a b
  | .collection a, .collection b => beqElements a b
  | .compound a, .compound b => beqFields a b
  | _, _ => false

/-- Two sequences of values are the same. -/
def beqElements : List Value → List Value → Bool
  | [], [] => true
  | a :: as, b :: bs => beq a b && beqElements as bs
  | _, _ => false

/-- Two lists of named fields are the same. -/
def beqFields : List (String × Value) → List (String × Value) → Bool
  | [], [] => true
  | (key, a) :: as, (key', b) :: bs => key == key' && beq a b && beqFields as bs
  | _, _ => false

end

mutual

/-- A value equals itself. -/
theorem beq_refl : ∀ a : Value, beq a a = true
  | .bool _ => by simp [beq]
  | .int _ _ _ => by simp [beq]
  | .string _ => by simp [beq]
  | .absent => by simp [beq]
  | .present a => by simp [beq, beq_refl a]
  | .collection a => by simp [beq, beqElements_refl a]
  | .compound a => by simp [beq, beqFields_refl a]

/-- A sequence of values equals itself. -/
theorem beqElements_refl : ∀ a : List Value, beqElements a a = true
  | [] => by simp [beqElements]
  | a :: as => by simp [beqElements, beq_refl a, beqElements_refl as]

/-- A list of fields equals itself. -/
theorem beqFields_refl : ∀ a : List (String × Value), beqFields a a = true
  | [] => by simp [beqFields]
  | (_, a) :: as => by simp [beqFields, beq_refl a, beqFields_refl as]

end

mutual

/-- Values found equal are equal. -/
theorem eq_of_beq : ∀ {a b : Value}, beq a b = true → a = b
  | .bool _, b => by cases b <;> simp [beq]
  | .int _ _ _, b => by
      cases b <;> simp only [beq, Bool.false_eq_true, false_implies, Bool.and_eq_true, beq_iff_eq]
      rintro ⟨rfl, rfl⟩
      rfl
  | .string _, b => by cases b <;> simp [beq]
  | .absent, b => by cases b <;> simp [beq]
  | .present a, b => by
      cases b <;> simp only [beq, Bool.false_eq_true, false_implies]
      exact fun same => congrArg _ (eq_of_beq same)
  | .collection a, b => by
      cases b <;> simp only [beq, Bool.false_eq_true, false_implies]
      exact fun same => congrArg _ (eq_of_beqElements same)
  | .compound a, b => by
      cases b <;> simp only [beq, Bool.false_eq_true, false_implies]
      exact fun same => congrArg _ (eq_of_beqFields same)

/-- Sequences found equal are equal. -/
theorem eq_of_beqElements : ∀ {a b : List Value}, beqElements a b = true → a = b
  | [], b => by cases b <;> simp [beqElements]
  | a :: as, b => by
      cases b with
      | nil => simp [beqElements]
      | cons b bs =>
          simp only [beqElements, Bool.and_eq_true]
          rintro ⟨head, tail⟩
          rw [eq_of_beq head, eq_of_beqElements tail]

/-- Field lists found equal are equal. -/
theorem eq_of_beqFields : ∀ {a b : List (String × Value)}, beqFields a b = true → a = b
  | [], b => by cases b <;> simp [beqFields]
  | (_, a) :: as, b => by
      cases b with
      | nil => simp [beqFields]
      | cons b bs =>
          obtain ⟨_, b⟩ := b
          simp only [beqFields, Bool.and_eq_true, beq_iff_eq]
          rintro ⟨⟨rfl, head⟩, tail⟩
          rw [eq_of_beq head, eq_of_beqFields tail]

end

instance : BEq Value := ⟨beq⟩

instance : LawfulBEq Value where
  eq_of_beq := eq_of_beq
  rfl := beq_refl _

instance : DecidableEq Value := fun a b =>
  if same : beq a b = true then .isTrue (eq_of_beq same)
  else .isFalse fun equal => same (equal ▸ beq_refl a)

/-- The place of a value's kind in the order of values. -/
def rank : Value → Nat
  | .bool _ => 0
  | .int kind _ _ => 1 + kind.rank
  | .string _ => 9
  | .absent | .present _ => 10
  | .collection _ => 11
  | .compound _ => 12

mutual

/-- The order of values: by kind, then by content. Sequences and compounds are
compared entry by entry, and one that ends first comes first; nothing comes before
something. -/
def compare : Value → Value → Ordering
  | .bool a, .bool b => Ord.compare a b
  | .int kind m _, .int kind' n _ =>
      (Ord.compare kind.rank kind'.rank).then (Ord.compare m n)
  | .string a, .string b => Ord.compare a b
  | .absent, .absent => .eq
  | .absent, .present _ => .lt
  | .present _, .absent => .gt
  | .present a, .present b => compare a b
  | .collection a, .collection b => compareElements a b
  | .compound a, .compound b => compareFields a b
  | a, b => Ord.compare a.rank b.rank

/-- The order of sequences of values. -/
def compareElements : List Value → List Value → Ordering
  | [], [] => .eq
  | [], _ :: _ => .lt
  | _ :: _, [] => .gt
  | a :: as, b :: bs => (compare a b).then (compareElements as bs)

/-- The order of lists of named fields. -/
def compareFields : List (String × Value) → List (String × Value) → Ordering
  | [], [] => .eq
  | [], _ :: _ => .lt
  | _ :: _, [] => .gt
  | (key, a) :: as, (key', b) :: bs =>
      ((Ord.compare key key').then (compare a b)).then (compareFields as bs)

end

instance : Ord Value := ⟨compare⟩

mutual

/-- A hash that depends on the whole content. -/
def hash : Value → UInt64
  | .bool b => mixHash 3 (Hashable.hash b)
  | .int kind n _ => mixHash (Hashable.hash kind.rank) (Hashable.hash n)
  | .string s => mixHash 5 (Hashable.hash s)
  | .absent => 7
  | .present inner => mixHash 11 (hash inner)
  | .collection elements => mixHash 13 (hashElements elements)
  | .compound fields => mixHash 17 (hashFields fields)

/-- The hash of a sequence of values. -/
def hashElements : List Value → UInt64
  | [] => 19
  | first :: rest => mixHash (hash first) (hashElements rest)

/-- The hash of a list of named fields. -/
def hashFields : List (String × Value) → UInt64
  | [] => 23
  | (key, first) :: rest => mixHash (mixHash (Hashable.hash key) (hash first)) (hashFields rest)

end

instance : Hashable Value := ⟨hash⟩

mutual

/-- The text of a value: strings in quotes, optionals as their content or `nil`,
collections in square brackets and compounds in braces. -/
def display : Value → String
  | .bool b => if b then "true" else "false"
  | .int _ n _ => toString n
  | .string s => "\"" ++ s ++ "\""
  | .absent => "nil"
  | .present inner => display inner
  | .collection elements => "[" ++ displayElements elements ++ "]"
  | .compound fields => "\x7b" ++ displayFields fields ++ "\x7d"

/-- The elements of a collection, separated by commas. -/
def displayElements : List Value → String
  | [] => ""
  | [last] => display last
  | first :: rest => display first ++ ", " ++ displayElements rest

/-- The fields of a compound, separated by commas. -/
def displayFields : List (String × Value) → String
  | [] => ""
  | [(key, last)] => key ++ ": " ++ display last
  | (key, first) :: rest => key ++ ": " ++ display first ++ ", " ++ displayFields rest

end

/-- The truth value of a boolean. -/
def bool? : Value → Option Bool
  | .bool b => some b
  | _ => none

/-- The number of an integer of any kind. -/
def int? : Value → Option Int
  | .int _ n _ => some n
  | _ => none

/-- The text of a string. -/
def string? : Value → Option String
  | .string s => some s
  | _ => none

/-- The fields of a compound. -/
def fields? : Value → Option PropertyList
  | .compound fields => some fields
  | _ => none

/-- The value is the boolean true. -/
def isTrue (value : Value) : Bool :=
  value.bool? == some true

/-- The value at the end of a chain of field names. -/
def descend : List String → Value → Option Value
  | [], value => some value
  | key :: rest, value =>
      match value.fields? with
      | some fields => (fields.lookup key).bind (descend rest)
      | none => none

/-- The value at a dotted path of field names. -/
def lookup (value : Value) (path : String) : Option Value :=
  descend (path.splitOn ".") value

end Value

end TimedKripke
