import TimedKripke.Value.Basic

/-! # Types of values

Every variable, external and parameter of a machine declares the type of its values.
Booleans, integers and compounds of those have finite domains, whose size is counted
up to a 128-bit limit; texts, optionals and collections do not.

A compound type may name a field twice. Such a type has a default value, but the
default collapses the repeated name, so the type does not accept it; and its domain is
not counted.
-/

namespace TimedKripke

/-- The declared shape of a value. -/
inductive ValueType where
  | bool
  | int (kind : IntKind)
  | string
  /-- A value of the inner type or nothing. -/
  | optional (inner : ValueType)
  | collection (inner : ValueType)
  /-- Named fields in the order of declaration. -/
  | compound (fields : List (String × ValueType))

namespace ValueType

instance : Inhabited ValueType := ⟨.bool⟩

mutual

/-- Two types are the same. -/
def beq : ValueType → ValueType → Bool
  | .bool, .bool => true
  | .int kind, .int kind' => kind == kind'
  | .string, .string => true
  | .optional a, .optional b => beq a b
  | .collection a, .collection b => beq a b
  | .compound a, .compound b => beqFields a b
  | _, _ => false

/-- Two lists of declared fields are the same. -/
def beqFields : List (String × ValueType) → List (String × ValueType) → Bool
  | [], [] => true
  | (name, a) :: as, (name', b) :: bs => name == name' && beq a b && beqFields as bs
  | _, _ => false

end

mutual

/-- A type equals itself. -/
theorem beq_refl : ∀ a : ValueType, beq a a = true
  | .bool => by simp [beq]
  | .int _ => by simp [beq]
  | .string => by simp [beq]
  | .optional a => by simp [beq, beq_refl a]
  | .collection a => by simp [beq, beq_refl a]
  | .compound a => by simp [beq, beqFields_refl a]

/-- A list of declared fields equals itself. -/
theorem beqFields_refl : ∀ a : List (String × ValueType), beqFields a a = true
  | [] => by simp [beqFields]
  | (_, a) :: as => by simp [beqFields, beq_refl a, beqFields_refl as]

end

mutual

/-- Types found equal are equal. -/
theorem eq_of_beq : ∀ {a b : ValueType}, beq a b = true → a = b
  | .bool, b => by cases b <;> simp [beq]
  | .int _, b => by cases b <;> simp [beq]
  | .string, b => by cases b <;> simp [beq]
  | .optional a, b => by
      cases b <;> simp only [beq, Bool.false_eq_true, false_implies]
      exact fun same => congrArg _ (eq_of_beq same)
  | .collection a, b => by
      cases b <;> simp only [beq, Bool.false_eq_true, false_implies]
      exact fun same => congrArg _ (eq_of_beq same)
  | .compound a, b => by
      cases b <;> simp only [beq, Bool.false_eq_true, false_implies]
      exact fun same => congrArg _ (eq_of_beqFields same)

/-- Field lists found equal are equal. -/
theorem eq_of_beqFields : ∀ {a b : List (String × ValueType)}, beqFields a b = true → a = b
  | [], b => by cases b <;> simp [beqFields]
  | (_, a) :: as, b => by
      cases b with
      | nil => simp [beqFields]
      | cons b bs =>
          obtain ⟨_, b⟩ := b
          simp only [beqFields, Bool.and_eq_true, beq_iff_eq]
          rintro ⟨⟨rfl, head⟩, tail⟩
          rw [eq_of_beq head, eq_of_beqFields tail]

end

instance : DecidableEq ValueType := fun a b =>
  if same : beq a b = true then .isTrue (eq_of_beq same)
  else .isFalse fun equal => same (equal ▸ beq_refl a)

mutual

/-- The text of a type. -/
def display : ValueType → String
  | .bool => "bool"
  | .int kind => kind.name
  | .string => "string"
  | .optional inner => display inner ++ "?"
  | .collection inner => "[" ++ display inner ++ "]"
  | .compound fields => "\x7b" ++ displayFields fields ++ "\x7d"

/-- The declared fields, separated by commas. -/
def displayFields : List (String × ValueType) → String
  | [] => ""
  | [(name, last)] => name ++ ": " ++ display last
  | (name, first) :: rest => name ++ ": " ++ display first ++ ", " ++ displayFields rest

end

/-- The least and the greatest integer of an integer type. -/
def bounds : ValueType → Option (Int × Int)
  | .int kind => some (kind.min, kind.max)
  | _ => none

/-- The integer `n` as a value of an integer type that contains it. -/
def integerValue (type : ValueType) (n : Int) : Option Value :=
  match type with
  | .int kind => if inRange : kind.Contains n then some (.int kind n inRange) else none
  | _ => none

/-- The first name of a list that already occurred in it or in `seen`. -/
def repeatedName (seen : List String) : List String → Option String
  | [] => none
  | name :: rest => if name ∈ seen then some name else repeatedName (name :: seen) rest

mutual

/-- The first field name that a compound declares twice, looking at the compound
itself before its fields' own compounds. Optionals and collections hide what they
contain. -/
def duplicateField : ValueType → Option String
  | .compound fields =>
      (repeatedName [] (fields.map Prod.fst)).or (duplicateInFields fields)
  | _ => none

/-- The first name declared twice inside the type of a field. -/
def duplicateInFields : List (String × ValueType) → Option String
  | [] => none
  | (_, type) :: rest => (duplicateField type).or (duplicateInFields rest)

end

mutual

/-- The values of the type can be listed. -/
def isEnumerable : ValueType → Bool
  | .bool => true
  | .int _ => true
  | .compound fields =>
      (duplicateField (.compound fields)).isNone && allEnumerable fields
  | _ => false

/-- The values of every field's type can be listed. -/
def allEnumerable : List (String × ValueType) → Bool
  | [] => true
  | (_, type) :: rest => isEnumerable type && allEnumerable rest

end

/-- The limit up to which values are counted: the greatest 128-bit number. -/
def countLimit : Nat := 340282366920938463463374607431768211455

/-- The product of two counts, at most `countLimit`. -/
def saturatingMul (first second : Nat) : Nat :=
  Nat.min (first * second) countLimit

mutual

/-- The number of values of a type whose values can be listed, counted up to
`countLimit`. -/
def domainSize : ValueType → Option Nat
  | .bool => some 2
  | .int kind => some (kind.max - kind.min + 1).toNat
  | .compound fields =>
      if (duplicateField (.compound fields)).isSome then none else fieldsSize 1 fields
  | _ => none

/-- The number of ways to fill the fields, times the number counted so far. -/
def fieldsSize (count : Nat) : List (String × ValueType) → Option Nat
  | [] => some count
  | (_, type) :: rest =>
      match domainSize type with
      | some size => fieldsSize (saturatingMul count size) rest
      | none => none

end

mutual

/-- The value a declaration starts from: false, zero, the empty text, nothing, no
elements, and the defaults of the fields. -/
def default : ValueType → Value
  | .bool => .bool false
  | .int kind => .int kind 0 kind.contains_zero
  | .string => .string ""
  | .optional _ => .absent
  | .collection _ => .collection []
  | .compound fields => .compound (defaultFields [] fields)

/-- The defaults of the fields, above those already written. -/
def defaultFields (written : PropertyList) : List (String × ValueType) → PropertyList
  | [] => written
  | (name, type) :: rest => defaultFields (OrderedMap.insert name (default type) written) rest

end

mutual

/-- The value belongs to the type. A compound value has as many fields as its type
declares, in canonical order, and every declared field has a value of its type. -/
def accepts : ValueType → Value → Bool
  | .bool, .bool _ => true
  | .int kind, .int kind' _ _ => kind == kind'
  | .string, .string _ => true
  | .optional _, .absent => true
  | .optional inner, .present value => accepts inner value
  | .collection inner, .collection values => values.all (accepts inner)
  | .compound fields, .compound values =>
      fields.length == values.length && OrderedMap.ascending values && acceptsFields fields values
  | _, _ => false

/-- Every declared field has a value of its type. -/
def acceptsFields : List (String × ValueType) → PropertyList → Bool
  | [], _ => true
  | (name, type) :: rest, values =>
      (match values.lookup name with
        | some value => accepts type value
        | none => false) && acceptsFields rest values

end

end ValueType

end TimedKripke
