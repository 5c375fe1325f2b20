import TimedKripke.Proofs.Enumeration.Enumerator

/-! # Combinations of leaves

Combinations can be formed of sources or of the leaves of sources. Both ways fail with the same
fault, have the same number of tuples and hand them out in step: the tuple of leaves is the tuple of
sources with every value replaced by the values of its leaves, in the order of declaration
(`Combinations.flatten_agrees`).
-/

namespace TimedKripke

namespace ValueType

mutual

/-- The values of the leaves of a type inside a value, in the order of declaration. -/
def leafValues : ValueType → Value → List Value
  | .compound fields, .compound held => leafValuesOfFields fields held
  | _, value => [value]

/-- The values of the leaves of declared fields. -/
def leafValuesOfFields : List (String × ValueType) → PropertyList → List Value
  | [], _ => []
  | (name, type) :: rest, held =>
      (match held.lookup name with
        | some value => leafValues type value
        | none => []) ++ leafValuesOfFields rest held

end

/-- The leaves of fields are the leaves of their types, one after the other. -/
theorem leavesOfFields_eq (fields : List (String × ValueType)) :
    leavesOfFields fields = (fields.map Prod.snd).flatMap leaves := by
  induction fields with
  | nil => rw [leavesOfFields]; rfl
  | cons field rest others => rw [leavesOfFields, others]; rfl

end ValueType

namespace Combinations

/-- The values of the leaves of all positions of a tuple. -/
def leafTuple (types : List ValueType) (tuple : List Value) : List Value :=
  (List.zipWith ValueType.leafValues types tuple).flatten

/-- The leaves of a tuple are those of its first value, followed by those of the others. -/
theorem leafTuple_cons (type : ValueType) (types : List ValueType) (value : Value)
    (tuple : List Value) :
    leafTuple (type :: types) (value :: tuple) = type.leafValues value ++ leafTuple types tuple :=
  rfl

/-- The loops of a list of types are those of its first part around those of its second part. -/
theorem tuples_append (first second : List ValueType) :
    tuples (first ++ second) =
      (tuples first).flatMap fun front => (tuples second).map (front ++ ·) := by
  induction first with
  | nil => simp [tuples]
  | cons type types others =>
      rw [List.cons_append, tuples, others, tuples, List.flatMap_assoc]
      refine List.flatMap_congr fun value _ => ?_
      rw [List.map_flatMap, List.flatMap_map]
      refine List.flatMap_congr fun front _ => ?_
      rw [List.map_map]
      rfl

/-- The tuples of leaves are the leaves of the tuples if this holds of every position. -/
theorem map_leafTuple {types : List ValueType}
    (each : ∀ type ∈ types, type.values.map type.leafValues = tuples type.leaves) :
    (tuples types).map (leafTuple types) = tuples (types.flatMap ValueType.leaves) := by
  induction types with
  | nil => rfl
  | cons type types others =>
      have rest := others fun other member => each other (List.mem_cons_of_mem _ member)
      -- Both sides are a loop over the first type around the tuples of the others.
      rw [List.flatMap_cons, tuples_append, ← each type List.mem_cons_self, ← rest,
        List.flatMap_map, tuples, List.map_flatMap]
      refine List.flatMap_congr fun value _ => ?_
      rw [List.map_map, List.map_map]
      rfl

end Combinations

namespace ValueType

open Combinations (tuples leafTuple)

variable {fields : List (String × ValueType)}

/-- The leaves of fields are found in a map that holds a value under each name. -/
theorem leafValuesOfFields_eq {held : PropertyList} {tuple : List Value}
    (holds : List.Forall₂ (fun field value => held.lookup field.1 = some value) fields tuple) :
    leafValuesOfFields fields held = leafTuple (fields.map Prod.snd) tuple := by
  induction holds with
  | nil => rw [leafValuesOfFields]; rfl
  | @cons field value rest tuple found _ others =>
      obtain ⟨name, type⟩ := field
      rw [leafValuesOfFields, others, List.map_cons, Combinations.leafTuple_cons]
      simp only [found]

/-- An assembled map holds the values it was assembled from. -/
theorem forall₂_lookup_assemble (distinct : (fields.map Prod.fst).Nodup) {tuple : List Value}
    (counted : tuple.length = fields.length) :
    List.Forall₂ (fun field value => (assemble [] fields tuple).lookup field.1 = some value)
      fields tuple := by
  refine List.forall₂_iff_zip.mpr ⟨counted.symm, fun {field value} member => ?_⟩
  rw [lookup_assemble [] distinct counted, OrderedMap.lookup_of_mem
    (by rwa [zip_keys counted]) (mem_zip_names.mpr ⟨field, member, rfl⟩)]
  rfl

/-- **The leaves of a type's values are the tuples of its leaves**, in the same order. -/
theorem map_leafValues {type : ValueType} (enumerable : type.isEnumerable = true) :
    type.values.map type.leafValues = tuples type.leaves := by
  refine enumerable_induction
    (motive := fun type => type.values.map type.leafValues = tuples type.leaves) ?_ ?_ ?_ enumerable
  · rfl
  · intro kind
    simp [leaves, tuples, leafValues, List.map_eq_flatMap]
  · intro fields unrepeated each
    rw [values_compound, List.map_map, leaves, leavesOfFields_eq, ← Combinations.map_leafTuple each]
    refine List.map_congr_left fun tuple member => ?_
    have counted : tuple.length = fields.length := by
      simpa using Combinations.length_of_mem_tuples member
    rw [Function.comp_apply, leafValues]
    exact leafValuesOfFields_eq
      (forall₂_lookup_assemble (nodup_of_duplicateField unrepeated) counted)

/-- The leaves of a type that can be listed can be listed too. -/
theorem isEnumerable_of_mem_leaves {type : ValueType} (enumerable : type.isEnumerable = true) :
    ∀ leaf ∈ type.leaves, leaf.isEnumerable = true := by
  refine enumerable_induction (motive := fun type => ∀ leaf ∈ type.leaves, leaf.isEnumerable = true)
    ?_ ?_ ?_ enumerable
  · simp [leaves, isEnumerable]
  · simp [leaves, isEnumerable]
  · intro fields _ each leaf member
    rw [leaves, leavesOfFields_eq] at member
    obtain ⟨type, isType, isLeaf⟩ := List.mem_flatMap.mp member
    exact each type isType leaf isLeaf

end ValueType

namespace Combinations

/-- Naming types by their positions keeps the types. -/
theorem map_snd_positional (types : List ValueType) : (positional types).map Prod.snd = types := by
  exact List.ext_getElem (by simp [positional]) (by simp [positional])

/-- The number of tuples is counted up to the limit. -/
theorem count_eq_ok {sources : List (String × ValueType)}
    (enumerable : ∀ type ∈ sources.map Prod.snd, type.isEnumerable = true) : ∀ counted,
      count (min counted ValueType.countLimit) sources =
        .ok (min (counted * cardinality (sources.map Prod.snd)) ValueType.countLimit) := by
  induction sources with
  | nil =>
      intro counted
      simp [count, cardinality, Count.product]
  | cons source rest others =>
      obtain ⟨name, type⟩ := source
      intro counted
      have listed := enumerable type List.mem_cons_self
      rw [count, ValueType.enumerable_of_isEnumerable listed]
      simp only [ValueType.saturatingMul_min counted (ValueType.counted_of_isEnumerable listed).1]
      rw [others fun other member => enumerable other (List.mem_cons_of_mem _ member),
        Nat.mul_assoc]
      rfl

/-- Sources whose values can be listed have combinations, counted up to the limit. -/
theorem exists_new {types : List ValueType}
    (enumerable : ∀ type ∈ types, type.isEnumerable = true) :
    ∃ combinations, new types = .ok combinations ∧
      combinations.total = min (cardinality types) ValueType.countLimit := by
  have total : count 1 (positional types) =
      .ok (min (1 * cardinality ((positional types).map Prod.snd)) ValueType.countLimit) :=
    count_eq_ok (by rwa [map_snd_positional]) 1
  rw [map_snd_positional, Nat.one_mul] at total
  unfold new named
  rw [total]
  exact ⟨_, rfl, rfl⟩

/-- New combinations are handed out as by nested loops over their sources. -/
theorem take_of_new {types : List ValueType} {combinations : Combinations}
    (made : new types = .ok combinations) (count : Nat) :
    (Walk.take next? count combinations).1 = (tuples types).take count := by
  have yields := yields_of_named made
  rw [map_snd_positional] at yields
  exact yields.take count

/-- **Combinations of leaves go along with those of sources.** Both fail with one fault or have the
same number of tuples. Those of sources are handed out as by nested loops, the first source
outermost: the tuples of accepted values, each once. Those of leaves are the same tuples in the same
order, with every value replaced by the values of its leaves. -/
theorem flatten_agrees (types : List ValueType) :
    (∃ fault, new types = .error fault ∧ flatten types = .error fault) ∨
      ∃ whole flat, new types = .ok whole ∧ flatten types = .ok flat ∧ whole.total = flat.total ∧
        (∀ count, (Walk.take next? count whole).1 = (tuples types).take count) ∧
        (tuples types).Nodup ∧ (∀ tuple, tuple ∈ tuples types ↔ AcceptedTuple types tuple) ∧
        ∀ count, (Walk.take next? count flat).1 =
          (Walk.take next? count whole).1.map (leafTuple types) := by
  cases counted : count 1 (positional types) with
  | error fault =>
      refine .inl ⟨fault, ?_, ?_⟩
      · rw [new, named, counted]
      · rw [flatten, counted]
  | ok total =>
      have enumerable := isEnumerable_of_count counted
      rw [map_snd_positional] at enumerable
      have leavesEnumerable :
          ∀ leaf ∈ types.flatMap ValueType.leaves, leaf.isEnumerable = true := by
        intro leaf member
        obtain ⟨type, isType, isLeaf⟩ := List.mem_flatMap.mp member
        exact ValueType.isEnumerable_of_mem_leaves (enumerable type isType) leaf isLeaf
      obtain ⟨whole, isWhole, wholeTotal⟩ := exists_new enumerable
      obtain ⟨flat, isFlat, flatTotal⟩ := exists_new leavesEnumerable
      have flattened := map_leafTuple fun type member =>
        ValueType.map_leafValues (enumerable type member)
      have sameCount : cardinality types = cardinality (types.flatMap ValueType.leaves) := by
        rw [← length_tuples_eq enumerable, ← length_tuples_eq leavesEnumerable, ← flattened,
          List.length_map]
      refine .inr ⟨whole, flat, isWhole, ?_, ?_, take_of_new isWhole,
        (tours_of_isEnumerable enumerable).nodup, mem_tuples_iff enumerable, fun count => ?_⟩
      · rw [flatten, counted]
        exact isFlat
      · rw [wholeTotal, flatTotal, sameCount]
      · rw [take_of_new isFlat, take_of_new isWhole, ← flattened, List.map_take]

-- No sources have one combination, and a compound without fields adds no leaves.
example : tuples [] = [[]] ∧ tuples [.compound []] = [[.compound []]] ∧
    leafTuple [.compound []] [.compound []] = [] := by
  exact ⟨rfl, rfl, rfl⟩

end Combinations

end TimedKripke
