import TimedKripke.Proofs.Enumeration.Nested

/-! # Default values

The default of a compound is the map assembled from the defaults of its fields
(`ValueType.default_compound`). It has an entry for every name and not for every field, so a
compound accepts its default exactly if no field name is repeated, in the compound itself and in
the compounds among its fields. What stands behind an optional or a collection is not looked at:
the default is nothing or empty there (`ValueType.accepts_default_iff`).
-/

namespace TimedKripke

namespace ValueType

variable {fields : List (String × ValueType)}

/-- Distinct names that were not seen before are not repeated. -/
theorem repeatedName_of_nodup {names : List String} (distinct : names.Nodup) :
    ∀ {seen : List String}, (∀ name ∈ names, name ∉ seen) → repeatedName seen names = none := by
  induction names with
  | nil => exact fun _ => rfl
  | cons name rest others =>
      intro seen unseen
      obtain ⟨fresh, distinctRest⟩ := List.nodup_cons.mp distinct
      rw [repeatedName, if_neg (unseen name List.mem_cons_self)]
      apply others distinctRest
      intro other member
      have different : other ≠ name := fun same => fresh (same ▸ member)
      exact fun known => unseen other (List.mem_cons_of_mem name member)
        ((List.mem_cons.mp known).resolve_left different)

/-- The search through the fields of a type finds no repeated name exactly if none of the fields has
one in it. -/
theorem duplicateInFields_eq_none_iff :
    duplicateInFields fields = none ↔ ∀ field ∈ fields, field.2.duplicateField = none := by
  induction fields with
  | nil => simp [duplicateInFields]
  | cons field rest others =>
      rw [duplicateInFields, Option.or_eq_none_iff, others, List.forall_mem_cons]

/-- A compound repeats no name if its own names are distinct and no field repeats one. -/
theorem duplicateField_compound_iff : duplicateField (.compound fields) = none ↔
    (fields.map Prod.fst).Nodup ∧ ∀ field ∈ fields, field.2.duplicateField = none := by
  rw [duplicateField, Option.or_eq_none_iff, duplicateInFields_eq_none_iff]
  refine and_congr_left fun _ => ⟨fun unrepeated => (nodup_of_repeatedName unrepeated).1, ?_⟩
  exact fun distinct => repeatedName_of_nodup distinct fun _ _ => List.not_mem_nil

/-- The defaults of some fields, in their order. -/
def defaults (fields : List (String × ValueType)) : List Value :=
  fields.map fun field => field.2.default

/-- Every field has a default. -/
theorem length_defaults (fields : List (String × ValueType)) :
    (defaults fields).length = fields.length :=
  List.length_map _

/-- The default of the fields is assembled from the defaults of their types. -/
theorem defaultFields_eq (fields : List (String × ValueType)) : ∀ written : PropertyList,
    defaultFields written fields = assemble written fields (defaults fields) := by
  induction fields with
  | nil =>
      intro written
      rw [defaultFields]
      rfl
  | cons field rest others =>
      intro written
      rw [defaultFields, others]
      rfl

/-- The default of a compound is assembled from the defaults of its fields. -/
theorem default_compound (fields : List (String × ValueType)) :
    default (.compound fields) = .compound (assemble [] fields (defaults fields)) := by
  rw [default, defaultFields_eq]

/-- The default of a compound holds the default of each field, if its names are distinct. -/
theorem lookup_assemble_defaults (distinct : (fields.map Prod.fst).Nodup)
    {field : String × ValueType} (isField : field ∈ fields) :
    (assemble [] fields (defaults fields)).lookup field.1 = some field.2.default := by
  have member : (field, field.2.default) ∈ fields.zip (defaults fields) := by
    rw [defaults, ← List.map_prod_left_eq_zip]
    exact List.mem_map_of_mem isField
  rw [lookup_assemble [] distinct (length_defaults fields), OrderedMap.lookup_of_mem
    (by rwa [zip_keys (length_defaults fields)]) (mem_zip_names.mpr ⟨field, member, rfl⟩)]
  rfl

/-- A map assembled for a compound is one of its values only if the names are distinct: it has as
many entries as there are fields, and no two of one name. -/
theorem nodup_of_accepts_assemble {values : List Value} (counted : values.length = fields.length)
    (accepted : accepts (.compound fields) (.compound (assemble [] fields values)) = true) :
    (fields.map Prod.fst).Nodup := by
  simp only [accepts, Bool.and_eq_true, beq_iff_eq, OrderedMap.ascending_iff] at accepted
  obtain ⟨⟨sameCount, ascending⟩, _⟩ := accepted
  have distinct : (assemble [] fields values).keys.Nodup := ascending.imp Std.ne_of_lt
  have names : (assemble [] fields values).keys.Perm (fields.map Prod.fst) := by
    refine (List.subperm_of_subset distinct fun name member => ?_).perm_of_length_le ?_
    · exact (mem_keys_assemble counted).mp member
    · simp [OrderedMap.keys, sameCount]
  exact names.nodup_iff.mp distinct

/-- A compound accepts its default if its names are distinct and each field accepts its own. -/
theorem accepts_default_compound_iff :
    accepts (.compound fields) (default (.compound fields)) = true ↔
      (fields.map Prod.fst).Nodup ∧ ∀ field ∈ fields, accepts field.2 field.2.default = true := by
  rw [default_compound]
  constructor
  · intro accepted
    have distinct := nodup_of_accepts_assemble (length_defaults fields) accepted
    refine ⟨distinct, fun field isField => ?_⟩
    simp only [accepts, Bool.and_eq_true] at accepted
    obtain ⟨value, found, isValue⟩ := acceptsFields_iff.mp accepted.2 field isField
    rw [lookup_assemble_defaults distinct isField] at found
    cases found
    exact isValue
  · rintro ⟨distinct, each⟩
    refine (accepts_compound_iff distinct).mpr ⟨defaults fields, ?_, rfl⟩
    rw [defaults, List.forall₂_map_right_iff]
    exact List.forall₂_same.mpr each

/-- **A type accepts its default exactly if no field name is repeated.** -/
theorem accepts_default_iff (type : ValueType) :
    type.accepts type.default = true ↔ type.duplicateField = none := by
  cases type with
  | compound fields =>
      rw [accepts_default_compound_iff, duplicateField_compound_iff]
      exact and_congr_right fun _ => forall₂_congr fun field isField =>
        accepts_default_iff field.2
  | _ => simp [default, accepts, duplicateField]
termination_by sizeOf type
decreasing_by exact sizeOf_lt_compound isField

/-- A value of a compound without repeated names has exactly the declared fields. -/
theorem exists_keys_of_accepts (unrepeated : duplicateField (.compound fields) = none)
    {value : Value} (accepted : accepts (.compound fields) value = true) :
    ∃ entries, value = .compound entries ∧
      (OrderedMap.keys entries).Perm (fields.map Prod.fst) := by
  have distinct := nodup_of_duplicateField unrepeated
  obtain ⟨values, each, rfl⟩ := (accepts_compound_iff distinct).mp accepted
  exact ⟨_, rfl, perm_keys_assemble distinct each.length_eq.symm⟩

/-- **Defaults inhabit their types exactly when names are unique.** A type accepts its default
exactly if no field name is repeated in it, and then the values of a compound have the names of its
fields as keys, each once, and no others. -/
theorem default_inhabits_iff_unrepeated (type : ValueType) :
    (type.accepts type.default = true ↔ type.duplicateField = none) ∧
      ∀ fields, type = .compound fields → type.duplicateField = none →
        ∀ value, type.accepts value = true → ∃ entries, value = .compound entries ∧
          (OrderedMap.keys entries).Perm (fields.map Prod.fst) := by
  refine ⟨accepts_default_iff type, ?_⟩
  rintro fields rfl unrepeated value accepted
  exact exists_keys_of_accepts unrepeated accepted

/-- A type in which a collection hides a repeated name. -/
def label : ValueType :=
  .compound [("text", .string), ("size", .compound [("y", .int .u8), ("x", .int .u8)]),
    ("marks", .collection (.compound [("x", .bool), ("x", .bool)]))]

/-- A type in which a field of a field repeats a name. -/
def twin : ValueType :=
  .compound [("text", .string), ("size", .compound [("x", .bool), ("x", .bool)])]

/-- A type with a repeated name inside a collection is inhabited by its default, which has no
elements, while one with a repeated name in a field is not. -/
theorem label_default_inhabits : label.accepts label.default = true ∧
    twin.accepts twin.default = false ∧
    ∀ value, label.accepts value = true → ∃ entries, value = .compound entries ∧
      (OrderedMap.keys entries).Perm ["text", "size", "marks"] := by
  have unrepeated : label.duplicateField = none := by decide
  have repeated : twin.duplicateField ≠ none := by decide
  obtain ⟨accepted, keys⟩ := default_inhabits_iff_unrepeated label
  have refused := mt (default_inhabits_iff_unrepeated twin).1.mp repeated
  exact ⟨accepted.mpr unrepeated, Bool.eq_false_iff.mpr refused, keys _ rfl unrepeated⟩

/-- Where a name is repeated, an undeclared name may make up the count. -/
example : accepts (.compound [("x", .bool), ("x", .bool)])
    (.compound [("x", .bool true), ("y", .string "")]) = true := by
  decide

end ValueType

end TimedKripke
