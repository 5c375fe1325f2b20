import TimedKripke.Proofs.OrderedMap
import TimedKripke.Proofs.Outcome
import TimedKripke.Value.Type

/-! # Values of compound types

A compound type with distinct field names accepts exactly the maps that hold a value of the
right type under each of its names and nothing else (`ValueType.accepts_compound_iff`).
-/

namespace TimedKripke

/-- Names among which none is repeated are distinct. -/
theorem ValueType.nodup_of_repeatedName {names : List String} : ∀ {seen : List String},
    repeatedName seen names = none → names.Nodup ∧ ∀ name ∈ names, name ∉ seen := by
  induction names with
  | nil => exact fun _ => ⟨List.nodup_nil, fun _ impossible => nomatch impossible⟩
  | cons name rest others =>
      intro seen unrepeated
      rw [repeatedName] at unrepeated
      split at unrepeated
      · cases unrepeated
      · rename_i fresh
        obtain ⟨distinct, outside⟩ := others unrepeated
        refine ⟨List.nodup_cons.mpr ⟨fun member => ?_, distinct⟩, ?_⟩
        · exact outside name member List.mem_cons_self
        · rintro other (_ | ⟨_, member⟩)
          · exact fresh
          · exact fun known => outside other member (List.mem_cons_of_mem name known)

namespace ValueType

/-- The type of a field is smaller than the compound. -/
theorem sizeOf_lt_compound {fields : List (String × ValueType)} {field : String × ValueType}
    (isField : field ∈ fields) : sizeOf field.2 < sizeOf (compound fields) := by
  have smaller := List.sizeOf_lt_of_mem isField
  obtain ⟨name, type⟩ := field
  simp only [compound.sizeOf_spec, Prod.mk.sizeOf_spec] at smaller ⊢
  omega

/-- The map in which the named fields hold the given values. -/
def assemble (base : PropertyList) (fields : List (String × ValueType)) (values : List Value) :
    PropertyList :=
  OrderedMap.extend base ((fields.map Prod.fst).zip values)

variable {fields : List (String × ValueType)} {values : List Value}

/-- Fields paired with as many values keep their names in order. -/
theorem zip_keys (counted : values.length = fields.length) :
    ((fields.map Prod.fst).zip values).map Prod.fst = fields.map Prod.fst :=
  List.map_fst_zip (by simp [counted])

/-- What an assembled map holds: the given values above what was there. -/
theorem lookup_assemble (base : PropertyList) (distinct : (fields.map Prod.fst).Nodup)
    (counted : values.length = fields.length) (key : String) :
    (assemble base fields values).lookup key =
      (((fields.map Prod.fst).zip values).lookup key).or (base.lookup key) :=
  OrderedMap.lookup_extend_of_nodup (by rwa [zip_keys counted]) base key

/-- An assembled value has ascending keys, in whatever order its fields are declared. -/
theorem pairwise_keys_assemble (values : List Value) {base : PropertyList}
    (ascending : base.keys.Pairwise (· < ·)) :
    (assemble base fields values).keys.Pairwise (· < ·) :=
  OrderedMap.pairwise_keys_extend ascending

/-- The keys of an assembled value are the names of the fields. -/
theorem mem_keys_assemble (counted : values.length = fields.length) {name : String} :
    name ∈ (assemble [] fields values).keys ↔ name ∈ fields.map Prod.fst := by
  rw [assemble, OrderedMap.mem_keys_extend, zip_keys counted]
  simp [OrderedMap.keys]

/-- An assembled map has the names of its fields as keys. -/
theorem perm_keys_assemble (distinct : (fields.map Prod.fst).Nodup)
    (counted : values.length = fields.length) :
    (assemble [] fields values).keys.Perm (fields.map Prod.fst) := by
  have ascending : (assemble [] fields values).keys.Pairwise (· < ·) :=
    pairwise_keys_assemble values List.Pairwise.nil
  exact (List.perm_ext_iff_of_nodup (ascending.imp Std.ne_of_lt) distinct).mpr fun _ =>
    mem_keys_assemble counted

/-- Fields accept what holds, under the name of each field, a value of its type. -/
theorem acceptsFields_iff {written : PropertyList} : acceptsFields fields written = true ↔
    ∀ field ∈ fields, ∃ value, written.lookup field.1 = some value ∧
      accepts field.2 value = true := by
  induction fields with
  | nil => simp [acceptsFields]
  | cons field rest others =>
      obtain ⟨name, type⟩ := field
      rw [acceptsFields, Bool.and_eq_true, others, List.forall_mem_cons]
      refine and_congr_left fun _ => ?_
      cases written.lookup name <;> simp

/-- A value stands under the name of its field. -/
theorem mem_zip_names {name : String} {value : Value} :
    (name, value) ∈ (fields.map Prod.fst).zip values ↔
      ∃ field, (field, value) ∈ fields.zip values ∧ field.1 = name := by
  rw [List.zip_map_left, List.mem_map]
  constructor
  · rintro ⟨⟨field, value⟩, member, same⟩
    cases same
    exact ⟨field, member, rfl⟩
  · rintro ⟨field, member, rfl⟩
    exact ⟨_, member, rfl⟩

/-- **The values of a compound type** are the maps assembled from values of its fields. -/
theorem accepts_compound_iff (distinct : (fields.map Prod.fst).Nodup) {value : Value} :
    accepts (.compound fields) value = true ↔
      ∃ values, List.Forall₂ (fun field value => accepts field.2 value = true) fields values ∧
        value = .compound (assemble [] fields values) := by
  constructor
  · intro accepted
    cases value with
    | compound written =>
        simp only [accepts, Bool.and_eq_true, beq_iff_eq, OrderedMap.ascending_iff] at accepted
        obtain ⟨⟨counted, ascending⟩, each⟩ := accepted
        rw [acceptsFields_iff] at each
        obtain ⟨values, related⟩ := Outcome.exists_forall₂ each
        have sameCount := related.length_eq.symm
        refine ⟨values, related.imp fun _ _ found => found.2, congrArg Value.compound ?_⟩
        refine OrderedMap.ext_of_lookup ascending (pairwise_keys_assemble values List.Pairwise.nil)
          fun key => ?_
        rw [lookup_assemble [] distinct sameCount]
        cases found : ((fields.map Prod.fst).zip values).lookup key with
        | some value =>
            obtain ⟨field, member, rfl⟩ := mem_zip_names.mp (OrderedMap.mem_of_lookup found)
            exact (List.forall₂_zip related member).1
        | none =>
            rw [OrderedMap.lookup_eq_none_iff, zip_keys sameCount] at found
            -- The map holds the declared names and no more entries than there are names.
            have names : (fields.map Prod.fst).Perm (OrderedMap.keys written) := by
              refine (List.subperm_of_subset distinct fun name member => ?_).perm_of_length_le
                (by simp [OrderedMap.keys, counted])
              obtain ⟨field, isField, rfl⟩ := List.mem_map.mp member
              obtain ⟨value, isValue, _⟩ := each field isField
              exact List.mem_map_of_mem (OrderedMap.mem_of_lookup isValue)
            exact OrderedMap.lookup_eq_none_iff.mpr fun member => found (names.mem_iff.mpr member)
    | _ => simp [accepts] at accepted
  · rintro ⟨values, each, rfl⟩
    have sameCount := each.length_eq.symm
    have ascending : (assemble [] fields values).keys.Pairwise (· < ·) :=
      pairwise_keys_assemble values List.Pairwise.nil
    have counted : fields.length = (assemble [] fields values).length := by
      simpa [OrderedMap.keys] using (perm_keys_assemble distinct sameCount).length_eq.symm
    simp only [accepts, Bool.and_eq_true, beq_iff_eq, OrderedMap.ascending_iff]
    refine ⟨⟨counted, ascending⟩, acceptsFields_iff.mpr fun field isField => ?_⟩
    obtain ⟨value, member, accepted⟩ := Outcome.exists_zip each isField
    refine ⟨value, ?_, accepted⟩
    rw [lookup_assemble [] distinct sameCount, OrderedMap.lookup_of_mem
      (by rwa [zip_keys sameCount]) (mem_zip_names.mpr ⟨field, member, rfl⟩)]
    rfl

end ValueType

end TimedKripke
