import TimedKripke.Proofs.Enumeration.Domain

/-! # Enumerators hand out domains

There is an enumerator over a type exactly if its values can be listed, and it hands them out in the
order of nested loops (`Enumerator.enumerates_values`). Sizes are counted up to a limit: the number
that is counted is the number of values, cut at the limit (`ValueType.counted_of_isEnumerable`).
-/

namespace TimedKripke

namespace ValueType

/-- Products of counts that were cut at the limit are products cut at the limit. -/
theorem saturatingMul_min (first : Nat) {second : Nat} (positive : 0 < second) :
    saturatingMul (min first countLimit) (min second countLimit) =
      min (first * second) countLimit := by
  show min (min first countLimit * min second countLimit) countLimit = _
  rcases Nat.le_total first countLimit with small | large
  · rw [Nat.min_eq_left small]
    rcases Nat.le_total second countLimit with small' | large'
    · rw [Nat.min_eq_left small']
    · rw [Nat.min_eq_right large']
      rcases Nat.eq_zero_or_pos first with rfl | nonzero
      · simp
      · have more := Nat.le_trans large' (Nat.le_mul_of_pos_left second nonzero)
        rw [Nat.min_eq_right (Nat.le_mul_of_pos_left _ nonzero), Nat.min_eq_right more]
  · have nonzero : 0 < min second countLimit := Nat.lt_min.mpr ⟨positive, by decide⟩
    have more := Nat.le_trans large (Nat.le_mul_of_pos_right first positive)
    rw [Nat.min_eq_right large, Nat.min_eq_right (Nat.le_mul_of_pos_right _ nonzero),
      Nat.min_eq_right more]

/-- The number of values is counted up to the limit. -/
def Counted (type : ValueType) : Prop :=
  0 < type.cardinality ∧ type.domainSize = some (min type.cardinality countLimit)

/-- The count of the ways to fill fields is the product of their cardinalities, up to the limit. -/
theorem fieldsSize_eq {fields : List (String × ValueType)}
    (each : ∀ type ∈ fields.map Prod.snd, type.Counted) : ∀ counted,
      fieldsSize (min counted countLimit) fields =
        some (min (counted * fieldsCardinality fields) countLimit) := by
  induction fields with
  | nil =>
      intro counted
      rw [fieldsSize, fieldsCardinality, Nat.mul_one]
  | cons field rest others =>
      obtain ⟨name, type⟩ := field
      intro counted
      obtain ⟨positive, isSize⟩ := each type List.mem_cons_self
      rw [fieldsSize, isSize]
      simp only [saturatingMul_min counted positive]
      rw [others fun other member => each other (List.mem_cons_of_mem _ member),
        fieldsCardinality, Nat.mul_assoc]

/-- Fields can be filled in some way if every type has a value. -/
theorem fieldsCardinality_pos {fields : List (String × ValueType)}
    (each : ∀ type ∈ fields.map Prod.snd, 0 < type.cardinality) : 0 < fieldsCardinality fields := by
  induction fields with
  | nil => simp [fieldsCardinality]
  | cons field rest others =>
      rw [fieldsCardinality]
      exact Nat.mul_pos (each field.2 List.mem_cons_self)
        (others fun other member => each other (List.mem_cons_of_mem _ member))

/-- **The values of a type that can be listed are counted up to the limit.** -/
theorem counted_of_isEnumerable {type : ValueType} (enumerable : type.isEnumerable = true) :
    type.Counted := by
  refine enumerable_induction (motive := Counted) ?_ ?_ ?_ enumerable
  · simp [Counted, cardinality, domainSize, countLimit]
  · intro kind
    cases kind <;> simp [Counted, cardinality, domainSize, countLimit, IntKind.min, IntKind.max]
  · intro fields unrepeated each
    refine ⟨?_, ?_⟩
    · rw [cardinality]
      exact fieldsCardinality_pos fun type member => (each type member).1
    · have sized := fieldsSize_eq each 1
      rw [domainSize, cardinality, unrepeated]
      simpa [countLimit] using sized

/-- A type that can be listed declares no field twice. -/
theorem duplicateField_of_isEnumerable {type : ValueType} (enumerable : type.isEnumerable = true) :
    type.duplicateField = none := by
  cases type with
  | compound fields =>
      rw [isEnumerable, Bool.and_eq_true, Option.isNone_iff_eq_none] at enumerable
      exact enumerable.1
  | _ => simp [duplicateField]

/-- A type that can be listed is accepted, with its cardinality up to the limit. -/
theorem enumerable_of_isEnumerable {type : ValueType} (enumerable : type.isEnumerable = true)
    (name : String) : type.enumerable name = .ok (min type.cardinality countLimit) := by
  unfold ValueType.enumerable
  rw [duplicateField_of_isEnumerable enumerable, (counted_of_isEnumerable enumerable).2]
  simp only [if_pos enumerable]

end ValueType

namespace Enumerator

/-- A new enumerator is of a type that can be listed, and holds the first value and the number of
values up to the limit of the counter. -/
theorem named_eq_ok {name : String} {type : ValueType} {enumerator : Enumerator}
    (made : named name type = .ok enumerator) : type.isEnumerable = true ∧
      enumerator = { type, upcoming := type.first?
                     remaining := min type.cardinality ValueType.countLimit } := by
  unfold named at made
  split at made
  · rename_i size isSize
    have enumerable := ValueType.isEnumerable_of_enumerable isSize
    rw [ValueType.enumerable_of_isEnumerable enumerable] at isSize
    cases isSize
    cases made
    exact ⟨enumerable, rfl⟩
  · cases made

/-- There is an enumerator for every type that can be listed, whatever it is called. -/
theorem named_of_isEnumerable {type : ValueType} (enumerable : type.isEnumerable = true)
    (name : String) : ∃ enumerator, named name type = .ok enumerator := by
  unfold named
  rw [ValueType.enumerable_of_isEnumerable enumerable]
  exact ⟨_, rfl⟩

/-- An enumerator hands out its values in the order of nested loops. -/
theorem yields_of_named {name : String} {type : ValueType} {enumerator : Enumerator}
    (made : named name type = .ok enumerator) : Walk.Yields next? enumerator type.values := by
  obtain ⟨enumerable, rfl⟩ := named_eq_ok made
  refine Walk.yields_of_tours (fun enumerator upcoming =>
    enumerator.type = type ∧ enumerator.upcoming = upcoming) ?_ ?_
    (ValueType.tours_values enumerable) ⟨rfl, rfl⟩
  · rintro enumerator ⟨_, upcoming⟩
    rw [next?, upcoming]
  · rintro enumerator value ⟨isType, upcoming⟩
    have handsOut : next? enumerator = some (value,
        { enumerator with
          upcoming := enumerator.type.next? value
          remaining := enumerator.remaining - 1 }) := by
      rw [next?, upcoming]
    exact ⟨_, handsOut, isType, by rw [isType]⟩

/-- Every value that is handed out is counted off. -/
theorem remaining_take {enumerator : Enumerator} {items : List Value}
    (yields : Walk.Yields next? enumerator items) : ∀ count,
      (Walk.take next? count enumerator).2.remaining =
        enumerator.remaining - min count items.length := by
  induction yields with
  | done ends =>
      intro count
      cases count <;> simp [Walk.take, ends]
  | @item source rest item items handsOut _ others =>
      intro count
      have counted : rest.remaining = source.remaining - 1 := by
        unfold next? at handsOut
        split at handsOut
        · cases handsOut
        · cases handsOut
          rfl
      cases count with
      | zero => simp [Walk.take]
      | succ count =>
          simp only [Walk.take, handsOut, others, counted, List.length_cons]
          omega

/-- **An enumerator hands out exactly the domain of its type.** There is one exactly if the values
of the type can be listed. It hands out the values of nested loops in their order, which are those
the type accepts, each once. Where their number is below the limit, the size and the number of
values that are left are exact. -/
theorem enumerates_values (type : ValueType) :
    ((∃ enumerator, new type = .ok enumerator) ↔ type.isEnumerable = true) ∧
      ∀ enumerator, new type = .ok enumerator →
        (∀ count, (Walk.take next? count enumerator).1 = type.values.take count) ∧
          type.values.Nodup ∧ (∀ value, value ∈ type.values ↔ type.accepts value = true) ∧
          (type.values.length ≤ ValueType.countLimit →
            enumerator.domainSize = type.values.length ∧
              ∀ count, (Walk.take next? count enumerator).2.remaining =
                type.values.length - count) := by
  refine ⟨⟨fun ⟨enumerator, made⟩ => (named_eq_ok made).1, fun enumerable =>
    named_of_isEnumerable enumerable "value"⟩, fun enumerator made => ?_⟩
  have yields := yields_of_named made
  obtain ⟨enumerable, rfl⟩ := named_eq_ok made
  refine ⟨yields.take, (ValueType.tours_values enumerable).nodup,
    ValueType.mem_values_iff enumerable, fun fits => ?_⟩
  rw [ValueType.length_values enumerable] at fits
  refine ⟨?_, fun count => ?_⟩
  · simp [domainSize, (ValueType.counted_of_isEnumerable enumerable).2, Nat.min_eq_left fits,
      ValueType.length_values enumerable]
  · rw [remaining_take yields, ValueType.length_values enumerable]
    simp only [Nat.min_eq_left fits]
    omega

/-- A type whose fields are not declared in the order of their names. -/
def lamp : ValueType :=
  .compound [("on", .bool), ("beam", .compound [("wide", .bool)])]

/-- The lamp's inner field moves fastest, although its name comes first. -/
theorem enumerates_values_lamp : ∃ enumerator, new lamp = .ok enumerator ∧
    (Walk.take next? 3 enumerator).1 =
      [.compound [("beam", .compound [("wide", .bool false)]), ("on", .bool false)],
        .compound [("beam", .compound [("wide", .bool true)]), ("on", .bool false)],
        .compound [("beam", .compound [("wide", .bool false)]), ("on", .bool true)]] ∧
    lamp.values.length = 4 ∧ (Walk.take next? 3 enumerator).2.remaining = 4 - 3 := by
  obtain ⟨⟨_, exists_new⟩, enumerates⟩ := enumerates_values lamp
  have counted : lamp.values.length = 4 := by decide
  obtain ⟨enumerator, made⟩ := exists_new (by decide)
  obtain ⟨taken, _, _, sized⟩ := enumerates enumerator made
  refine ⟨enumerator, made, (taken 3).trans rfl, counted, ?_⟩
  rw [(sized (by rw [counted]; decide)).2 3, counted]

end Enumerator

end TimedKripke
