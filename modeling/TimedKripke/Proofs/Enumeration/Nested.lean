import TimedKripke.Enumeration.Combinations
import TimedKripke.Proofs.Value.Type

/-! # Domains as nested loops

The values of a type in the order of nested loops: booleans from false to true, integers upwards,
and one loop for every field of a compound, the field declared first outermost
(`ValueType.values`). The tuples over a list of types are those of one loop for every type
(`Combinations.tuples`). For a type that can be listed these are the values the type accepts
(`ValueType.mem_values_iff`), as many as its cardinality says (`ValueType.length_values`).
-/

namespace TimedKripke

namespace ValueType

mutual

/-- The values of a type that can be listed, in the order of nested loops. -/
def values : ValueType → List Value
  | .bool => [.bool false, .bool true]
  | .int kind => (List.range (kind.max - kind.min + 1).toNat).filterMap fun offset : Nat =>
      integerValue (.int kind) (kind.min + offset)
  | .compound fields => (fieldValues [] fields).map .compound
  | _ => []

/-- The ways to fill fields, above those already filled, with one loop for each field. -/
def fieldValues (filled : PropertyList) : List (String × ValueType) → List PropertyList
  | [] => [filled]
  | (name, type) :: rest => (values type).flatMap fun value =>
      fieldValues (OrderedMap.insert name value filled) rest

end

end ValueType

/-- The tuples over a list of types, with one loop for each type. -/
def Combinations.tuples : List ValueType → List (List Value)
  | [] => [[]]
  | type :: types => type.values.flatMap fun value => (tuples types).map (value :: ·)

/-- The tuple has a value of each type. -/
def AcceptedTuple (types : List ValueType) (tuple : List Value) : Prop :=
  List.Forall₂ (fun type value => type.accepts value = true) types tuple

namespace Combinations

/-- There are as many tuples as the product of the cardinalities says, if every type has as many
values as its own cardinality says. -/
theorem length_tuples {types : List ValueType}
    (each : ∀ type ∈ types, type.values.length = type.cardinality) :
    (tuples types).length = cardinality types := by
  induction types with
  | nil => rfl
  | cons type types others =>
      have counted := others fun other member => each other (List.mem_cons_of_mem _ member)
      rw [tuples, List.length_flatMap]
      simp [counted, each type List.mem_cons_self, cardinality, Count.product]

/-- A tuple has one value for every type. -/
theorem length_of_mem_tuples {types : List ValueType} : ∀ {tuple : List Value},
    tuple ∈ tuples types → tuple.length = types.length := by
  induction types with
  | nil =>
      intro tuple member
      rw [List.mem_singleton.mp member]
      rfl
  | cons type types others =>
      intro tuple member
      simp only [tuples, List.mem_flatMap, List.mem_map] at member
      obtain ⟨head, _, rest, isRest, rfl⟩ := member
      rw [List.length_cons, List.length_cons, others isRest]

/-- The tuples are those whose values are accepted place by place, if that holds of each type. -/
theorem mem_tuples {types : List ValueType}
    (each : ∀ type ∈ types, ∀ value, value ∈ type.values ↔ type.accepts value = true) :
    ∀ {tuple : List Value}, tuple ∈ tuples types ↔ AcceptedTuple types tuple := by
  induction types with
  | nil =>
      intro tuple
      rw [tuples, List.mem_singleton]
      exact List.forall₂_nil_left_iff.symm
  | cons type types others =>
      intro tuple
      have members : ∀ {rest}, rest ∈ tuples types ↔ AcceptedTuple types rest :=
        others fun other member => each other (List.mem_cons_of_mem _ member)
      simp only [tuples, List.mem_flatMap, List.mem_map, each type List.mem_cons_self, members]
      constructor
      · rintro ⟨head, accepted, rest, isRest, rfl⟩
        exact .cons accepted isRest
      · rintro (_ | ⟨accepted, rest⟩)
        exact ⟨_, accepted, _, rest, rfl⟩

end Combinations

namespace ValueType

open Combinations (tuples)

variable {fields : List (String × ValueType)}

/-- A compound is assembled field by field, from the first on. -/
theorem assemble_cons (base : PropertyList) (name : String) (type : ValueType) (value : Value)
    (values : List Value) :
    assemble base ((name, type) :: fields) (value :: values) =
      assemble (OrderedMap.insert name value base) fields values :=
  rfl

/-- Filling fields by nested loops gives the compounds assembled from the tuples of their types. -/
theorem fieldValues_eq (fields : List (String × ValueType)) : ∀ filled : PropertyList,
    fieldValues filled fields =
      (tuples (fields.map Prod.snd)).map (assemble filled fields) := by
  induction fields with
  | nil =>
      intro filled
      rw [fieldValues]
      rfl
  | cons field rest others =>
      obtain ⟨name, type⟩ := field
      intro filled
      rw [fieldValues, List.map_cons, tuples, List.map_flatMap]
      refine List.flatMap_congr fun value _ => ?_
      rw [others, List.map_map]
      rfl

/-- The values of a compound type are assembled from the tuples of its field types. -/
theorem values_compound (fields : List (String × ValueType)) :
    values (.compound fields) =
      (tuples (fields.map Prod.snd)).map fun held => .compound (assemble [] fields held) := by
  rw [values, fieldValues_eq, List.map_map]
  rfl

/-- The cardinality of fields is the product of the cardinalities of their types. -/
theorem fieldsCardinality_eq (fields : List (String × ValueType)) :
    fieldsCardinality fields = Combinations.cardinality (fields.map Prod.snd) := by
  induction fields with
  | nil => rw [fieldsCardinality]; rfl
  | cons field rest others => rw [fieldsCardinality, others]; rfl

/-- A compound type without a duplicate field has distinct names. -/
theorem nodup_of_duplicateField (unrepeated : duplicateField (.compound fields) = none) :
    (fields.map Prod.fst).Nodup := by
  rw [duplicateField, Option.or_eq_none_iff] at unrepeated
  exact (nodup_of_repeatedName unrepeated.1).1

/-- Fields can be listed if and only if each of their types can. -/
theorem allEnumerable_iff :
    allEnumerable fields = true ↔ ∀ field ∈ fields, field.2.isEnumerable = true := by
  induction fields with
  | nil => simp [allEnumerable]
  | cons field rest others => rw [allEnumerable, Bool.and_eq_true, others, List.forall_mem_cons]

/-- What holds of booleans and integers, and of a compound if it holds of its fields, holds of every
type that can be listed. -/
theorem enumerable_induction {motive : ValueType → Prop} (bool : motive .bool)
    (int : ∀ kind, motive (.int kind))
    (compound : ∀ fields, duplicateField (.compound fields) = none →
      (∀ type ∈ fields.map Prod.snd, motive type) → motive (.compound fields)) :
    ∀ {type : ValueType}, type.isEnumerable = true → motive type
  | .bool, _ => bool
  | .int kind, _ => int kind
  | .compound fields, enumerable => by
      rw [isEnumerable, Bool.and_eq_true, Option.isNone_iff_eq_none] at enumerable
      refine compound fields enumerable.1 fun type member => ?_
      obtain ⟨field, isField, rfl⟩ := List.mem_map.mp member
      exact enumerable_induction bool int compound (allEnumerable_iff.mp enumerable.2 field isField)
  | .string, impossible | .optional _, impossible | .collection _, impossible => by
      simp [isEnumerable] at impossible
termination_by type => sizeOf type
decreasing_by exact sizeOf_lt_compound isField

/-- The values of a kind of integers are the integers in its range. -/
theorem mem_values_int {kind : IntKind} {value : Value} :
    value ∈ values (.int kind) ↔ ∃ n inRange, value = .int kind n inRange := by
  rw [values, List.mem_filterMap]
  constructor
  · rintro ⟨offset, _, isValue⟩
    rw [integerValue] at isValue
    split at isValue
    · rename_i inRange
      exact ⟨_, inRange, (Option.some.inj isValue).symm⟩
    · cases isValue
  · rintro ⟨n, inRange, rfl⟩
    have above := inRange.1
    have below := inRange.2
    refine ⟨(n - kind.min).toNat, List.mem_range.mpr (by omega), ?_⟩
    have same : kind.min + ((n - kind.min).toNat : Int) = n := by omega
    rw [same, integerValue, dif_pos inRange]

/-- There are as many integers of a kind as its cardinality says. -/
theorem length_values_int (kind : IntKind) :
    (values (.int kind)).length = cardinality (.int kind) := by
  rw [values, cardinality, List.length_filterMap_eq_countP, List.countP_eq_length.mpr,
    List.length_range]
  intro offset inside
  have reached := List.mem_range.mp inside
  have inRange : kind.Contains (kind.min + offset) := ⟨by omega, by omega⟩
  rw [integerValue, dif_pos inRange]
  rfl

/-- **The values of nested loops are those the type accepts**, for every type that can be listed. -/
theorem mem_values_iff {type : ValueType} (enumerable : type.isEnumerable = true) :
    ∀ value, value ∈ type.values ↔ type.accepts value = true := by
  refine enumerable_induction
    (motive := fun type => ∀ value, value ∈ type.values ↔ type.accepts value = true)
    ?_ ?_ ?_ enumerable
  · intro value
    cases value with
    | bool truth => cases truth <;> simp [values, accepts]
    | _ => simp [values, accepts]
  · intro kind value
    rw [mem_values_int]
    constructor
    · rintro ⟨n, inRange, rfl⟩
      simp [accepts]
    · intro accepted
      cases value with
      | int other n inRange =>
          obtain rfl : kind = other := by simpa [accepts] using accepted
          exact ⟨n, inRange, rfl⟩
      | _ => simp [accepts] at accepted
  · intro fields unrepeated each value
    rw [values_compound, List.mem_map, accepts_compound_iff (nodup_of_duplicateField unrepeated)]
    simp only [Combinations.mem_tuples each, AcceptedTuple, List.forall₂_map_left_iff, eq_comm]

/-- A type that can be listed has as many values as its cardinality says. -/
theorem length_values {type : ValueType} (enumerable : type.isEnumerable = true) :
    type.values.length = type.cardinality := by
  refine enumerable_induction (motive := fun type => type.values.length = type.cardinality)
    ?_ length_values_int ?_ enumerable
  · simp [values, cardinality]
  · intro fields _ each
    rw [values_compound, List.length_map, cardinality, fieldsCardinality_eq]
    exact Combinations.length_tuples each

end ValueType

namespace Combinations

variable {types : List ValueType} (enumerable : ∀ type ∈ types, type.isEnumerable = true)
include enumerable

/-- Types that can be listed have as many tuples as the product of their cardinalities says. -/
theorem length_tuples_eq : (tuples types).length = cardinality types :=
  length_tuples fun type member => ValueType.length_values (enumerable type member)

/-- The tuples of types that can be listed are those whose values are accepted place by place. -/
theorem mem_tuples_iff (tuple : List Value) :
    tuple ∈ tuples types ↔ AcceptedTuple types tuple :=
  mem_tuples fun type member => ValueType.mem_values_iff (enumerable type member)

end Combinations

end TimedKripke
