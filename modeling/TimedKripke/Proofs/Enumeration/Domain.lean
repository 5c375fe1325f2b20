import TimedKripke.Proofs.Enumeration.Nested
import TimedKripke.Proofs.Enumeration.Orbit

/-! # Walks through domains are complete

The walk through a type that can be listed passes through the values of nested loops
(`ValueType.tours_values`), which are exactly the values the type accepts
(`ValueType.listed_of_isEnumerable`). The combinations of named sources are handed out in the same
way (`Combinations.yields_of_named`): they are the tuples of accepted values, each once
(`Combinations.toList_of_named`).
-/

namespace TimedKripke

variable {α β : Type}

/-- The walk from `first` by `next` passes through the places, in order. -/
def Tours (first : Option α) (next : α → Option α) (places : List α) : Prop :=
  ∃ start, first = some start ∧ Orbit next start places

namespace Walk

variable {σ : Type}

/-- The source hands out the items, in order, and then ends. -/
inductive Yields (next? : σ → Option (α × σ)) : σ → List α → Prop
  | done {source : σ} (ends : next? source = none) : Yields next? source []
  | item {source rest : σ} {item : α} {items : List α} (handsOut : next? source = some (item, rest))
      (yields : Yields next? rest items) : Yields next? source (item :: items)

/-- The items taken from a source are the first of those it hands out. -/
theorem Yields.take {next? : σ → Option (α × σ)} {source : σ} {items : List α}
    (yields : Yields next? source items) :
    ∀ count, (Walk.take next? count source).1 = items.take count := by
  induction yields with
  | done ends =>
      intro count
      cases count <;> simp [Walk.take, ends]
  | item handsOut _ others =>
      intro count
      cases count with
      | zero => rfl
      | succ count => simp [Walk.take, handsOut, others]

/-- A source that tracks a walk, the item to come being the place of the walk, hands out the
walk's places. -/
theorem yields_of_tours {next? : σ → Option (α × σ)} {next : α → Option α}
    (tracks : σ → Option α → Prop) (ends : ∀ source, tracks source none → next? source = none)
    (goesOn : ∀ source place, tracks source (some place) →
      ∃ rest, next? source = some (place, rest) ∧ tracks rest (next place))
    {first : Option α} {places : List α} (tours : Tours first next places) {source : σ}
    (tracked : tracks source first) : Yields next? source places := by
  obtain ⟨start, rfl, orbit⟩ := tours
  induction orbit generalizing source with
  | last isLast =>
      obtain ⟨rest, handsOut, left⟩ := goesOn _ _ tracked
      exact .item handsOut (.done (ends rest (isLast ▸ left)))
  | step moves _ others =>
      obtain ⟨rest, handsOut, left⟩ := goesOn _ _ tracked
      exact .item handsOut (others (moves ▸ left))

end Walk

/-- A complete walk stays one when its places are seen through a function that goes along with the
steps. -/
theorem Tours.map {first : Option α} {next : α → Option α} {places : List α} {view : α → β}
    {nextView : β → Option β} (tours : Tours first next places)
    (along : ∀ place ∈ places, nextView (view place) = (next place).map view) :
    Tours (first.map view) nextView (places.map view) := by
  obtain ⟨start, rfl, orbit⟩ := tours
  exact ⟨view start, rfl, orbit.map along⟩

/-- A tour comes to no place twice: the successor of a place determines the rest of it. -/
theorem Tours.nodup {first : Option α} {next : α → Option α} {places : List α}
    (tours : Tours first next places) : places.Nodup :=
  tours.elim fun _ isWalk => isWalk.2.nodup

/-- The walk from `first` by `next` passes through `count` places: those that belong. -/
def Lists (first : Option α) (next : α → Option α) (count : Nat) (Belongs : α → Prop) : Prop :=
  ∃ start places, first = some start ∧ Orbit next start places ∧ places.length = count ∧
    ∀ item, item ∈ places ↔ Belongs item

/-- The walk through the values of a type is complete. -/
def ValueType.Listed (type : ValueType) : Prop :=
  Lists type.first? type.next? type.cardinality fun value => type.accepts value = true

open Combinations (tuples)

/-- The walk through tuples is that of nested loops if the walks through their positions are. -/
theorem tours_tuples {types : List ValueType}
    (each : ∀ type ∈ types, Tours type.first? type.next? type.values) :
    Tours (firstTuple types) (advanceTuple types) (tuples types) := by
  induction types with
  | nil => exact ⟨[], rfl, .last rfl⟩
  | cons type types others =>
      obtain ⟨start, isStart, orbit⟩ := each type List.mem_cons_self
      obtain ⟨tail, isTail, inner⟩ :=
        others fun other member => each other (List.mem_cons_of_mem _ member)
      refine ⟨start :: tail, ?_, orbit.product inner ?_ ?_⟩
      · rw [firstTuple, isStart, isTail]
      · intro head _ before _ successor moves
        rw [advanceTuple, moves]
      · intro head _ last _ ends
        rw [advanceTuple, ends, isTail]
        cases type.next? head <;> rfl

namespace ValueType

/-- The walk through the truth values lists both of them. -/
theorem tours_bool : Tours (first? .bool) (next? .bool) (values .bool) := by
  refine ⟨.bool false, by rw [first?], ?_⟩
  rw [values]
  exact .step rfl (.last rfl)

/-- The integers of a kind are walked upwards from any of them to the greatest. -/
theorem orbit_int (kind : IntKind) : ∀ (left : Nat) (n : Int) (inRange : kind.Contains n),
    n + left = kind.max → Orbit (next? (.int kind)) (.int kind n inRange)
      ((List.range (left + 1)).filterMap fun offset : Nat => integerValue (.int kind) (n + offset))
  | 0, n, inRange, last => by
      have beyond : ¬ kind.Contains (n + 1) := fun inside => by
        have := inside.2
        omega
      have only : (List.range 1).filterMap (fun offset : Nat =>
          integerValue (.int kind) (n + offset)) = [.int kind n inRange] := by
        simp [integerValue, inRange]
      rw [only]
      exact .last (by rw [next?, integerValue, dif_neg beyond])
  | left + 1, n, inRange, distance => by
      have inside : kind.Contains (n + 1) := ⟨by have := inRange.1; omega, by omega⟩
      have rest := orbit_int kind left (n + 1) inside (by omega)
      have shifted : ∀ offset : Nat, n + 1 + (offset : Int) = n + ((offset + 1 : Nat) : Int) := by
        intro offset
        omega
      have split : (List.range (left + 1 + 1)).filterMap (fun offset : Nat =>
          integerValue (.int kind) (n + offset)) = .int kind n inRange ::
            (List.range (left + 1)).filterMap fun offset : Nat =>
              integerValue (.int kind) (n + 1 + offset) := by
        have here : integerValue (.int kind) (n + (0 : Nat)) = some (.int kind n inRange) := by
          simp [integerValue, inRange]
        rw [List.range_succ_eq_map, List.filterMap_cons, List.filterMap_map]
        simp only [here, Function.comp_def, Nat.succ_eq_add_one, shifted]
      rw [split]
      exact .step (by rw [next?, integerValue, dif_pos inside]) rest

/-- The walk through a kind of integers lists all of them, from the least on. -/
theorem tours_int (kind : IntKind) :
    Tours (first? (.int kind)) (next? (.int kind)) (values (.int kind)) := by
  have ordered : kind.min ≤ kind.max := kind.contains_min.2
  refine ⟨.int kind kind.min kind.contains_min, by rw [first?], ?_⟩
  have orbit := orbit_int kind (kind.max - kind.min).toNat kind.min kind.contains_min (by omega)
  have counted : (kind.max - kind.min + 1).toNat = (kind.max - kind.min).toNat + 1 := by omega
  rwa [values, counted]

variable {fields : List (String × ValueType)} {values : List Value}

/-- Fields that are reset hold the first tuple of their types, if every type has a first value. -/
theorem resetFields_eq (fields : List (String × ValueType)) : ∀ base : PropertyList,
    resetFields base fields =
      (firstTuple (fields.map Prod.snd)).map (assemble base fields) := by
  induction fields with
  | nil => exact fun base => by rw [resetFields]; rfl
  | cons field rest others =>
      obtain ⟨name, type⟩ := field
      intro base
      rw [resetFields, List.map_cons, firstTuple]
      cases first? type with
      | none => rfl
      | some value =>
          simp only [others]
          cases firstTuple (rest.map Prod.snd) <;> rfl

/-- The first tuple has one value for every type. -/
theorem length_of_firstTuple {types : List ValueType} : ∀ {tuple : List Value},
    firstTuple types = some tuple → tuple.length = types.length := by
  induction types with
  | nil =>
      rintro tuple ⟨⟩
      rfl
  | cons type types others =>
      intro tuple isFirst
      rw [firstTuple] at isFirst
      split at isFirst
      · rename_i value values _ isRest
        cases isFirst
        rw [List.length_cons, List.length_cons, others isRest]
      · cases isFirst

/-- Resetting later fields and then writing an earlier one leaves nothing of what the later
fields held. -/
theorem insert_assemble_assemble {base : PropertyList} (ascending : base.keys.Pairwise (· < ·))
    {name : String} (fresh : name ∉ fields.map Prod.fst) (distinct : (fields.map Prod.fst).Nodup)
    {reset : List Value} (counted : values.length = fields.length)
    (countedReset : reset.length = fields.length) (before after : Value) :
    OrderedMap.insert name after
        (assemble (assemble (OrderedMap.insert name before base) fields values) fields reset) =
      assemble (OrderedMap.insert name after base) fields reset := by
  refine OrderedMap.ext_of_lookup ?_ ?_ fun key => ?_
  · exact OrderedMap.pairwise_keys_insert (pairwise_keys_assemble reset
      (pairwise_keys_assemble values (OrderedMap.pairwise_keys_insert ascending _ _))) _ _
  · exact pairwise_keys_assemble reset (OrderedMap.pairwise_keys_insert ascending _ _)
  · rw [OrderedMap.lookup_insert, lookup_assemble _ distinct countedReset,
      lookup_assemble _ distinct counted, lookup_assemble _ distinct countedReset,
      OrderedMap.lookup_insert, OrderedMap.lookup_insert]
    by_cases here : key = name
    · subst here
      have absent : ((fields.map Prod.fst).zip reset).lookup key = none := by
        rwa [OrderedMap.lookup_eq_none_iff, zip_keys countedReset]
      simp [absent]
    · rw [beq_false_of_ne here]
      cases found : ((fields.map Prod.fst).zip reset).lookup key with
      | some value => rfl
      | none =>
          rw [OrderedMap.lookup_eq_none_iff, zip_keys countedReset, ← zip_keys counted,
            ← OrderedMap.lookup_eq_none_iff] at found
          simp [found]

/-- Advancing assembled fields advances the tuple of their values. -/
theorem advanceFields_assemble (distinct : (fields.map Prod.fst).Nodup) :
    ∀ {base : PropertyList} {values : List Value}, base.keys.Pairwise (· < ·) →
      values.length = fields.length →
        advanceFields fields (assemble base fields values) =
          (advanceTuple (fields.map Prod.snd) values).map (assemble base fields) := by
  induction fields with
  | nil => exact fun _ _ => by rw [advanceFields]; rfl
  | cons field rest others =>
      obtain ⟨name, type⟩ := field
      obtain ⟨fresh, distinctRest⟩ := List.nodup_cons.mp distinct
      intro base values ascending counted
      cases values with
      | nil => cases counted
      | cons value values =>
          have countedRest := Nat.succ.inj counted
          have ascends := OrderedMap.pairwise_keys_insert ascending name value
          have held : (assemble (OrderedMap.insert name value base) rest values).lookup name =
              some value := by
            have absent : ((rest.map Prod.fst).zip values).lookup name = none := by
              rwa [OrderedMap.lookup_eq_none_iff, zip_keys countedRest]
            rw [lookup_assemble _ distinctRest countedRest, absent, OrderedMap.lookup_insert]
            simp
          rw [assemble_cons, advanceFields, others distinctRest ascends countedRest,
            List.map_cons, advanceTuple]
          cases advanceTuple (rest.map Prod.snd) values with
          | some advanced => rfl
          | none =>
              simp only [Option.map_none, held, resetFields_eq]
              cases next? type value with
              | none => rfl
              | some next =>
                  cases isReset : firstTuple (rest.map Prod.snd) with
                  | none => rfl
                  | some reset =>
                      have countedReset := length_of_firstTuple isReset
                      rw [List.length_map] at countedReset
                      simp only [Option.map_some, assemble_cons, Option.some.injEq]
                      exact insert_assemble_assemble ascending fresh distinctRest countedRest
                        countedReset value next

/-- A compound is walked as the tuples of its fields are. -/
theorem tours_compound (distinct : (fields.map Prod.fst).Nodup)
    (each : ∀ type ∈ fields.map Prod.snd, Tours type.first? type.next? type.values) :
    Tours (first? (.compound fields)) (next? (.compound fields))
      (ValueType.compound fields).values := by
  -- The walk of the tuples is seen through `assemble`, which forgets the order of declaration.
  have along : ∀ held ∈ tuples (fields.map Prod.snd),
      next? (.compound fields) (.compound (assemble [] fields held)) =
        (advanceTuple (fields.map Prod.snd) held).map fun held =>
          .compound (assemble [] fields held) := by
    intro held member
    have counted : held.length = fields.length := by
      simpa using Combinations.length_of_mem_tuples member
    rw [next?, advanceFields_assemble distinct List.Pairwise.nil counted, Option.map_map]
    rfl
  have first : first? (.compound fields) = (firstTuple (fields.map Prod.snd)).map fun held =>
      .compound (assemble [] fields held) := by
    rw [first?, resetFields_eq, Option.map_map]
    rfl
  rw [first, values_compound]
  exact (tours_tuples each).map along

/-- **The walk through a type that can be listed is that of nested loops.** -/
theorem tours_values {type : ValueType} (enumerable : type.isEnumerable = true) :
    Tours type.first? type.next? type.values :=
  enumerable_induction (motive := fun type => Tours type.first? type.next? type.values)
    tours_bool tours_int (fun _ unrepeated => tours_compound (nodup_of_duplicateField unrepeated))
    enumerable

/-- **A type that can be listed is walked completely**: from its first value on, the steps pass
through the values of nested loops. -/
theorem listed_of_isEnumerable {type : ValueType} (enumerable : type.isEnumerable = true) :
    type.Listed := by
  obtain ⟨start, isStart, orbit⟩ := tours_values enumerable
  exact ⟨start, type.values, isStart, orbit, length_values enumerable, mem_values_iff enumerable⟩

/-- A type whose values were counted can be listed. -/
theorem isEnumerable_of_enumerable {name : String} {type : ValueType} {size : Nat}
    (counted : type.enumerable name = .ok size) : type.isEnumerable = true := by
  unfold enumerable at counted
  split at counted
  · cases counted
  · split at counted
    · split at counted
      · assumption
      · cases counted
    · cases counted

end ValueType

namespace Combinations

/-- The walk through the tuples of types that can be listed tours all tuples. -/
theorem tours_of_isEnumerable {types : List ValueType}
    (enumerable : ∀ type ∈ types, type.isEnumerable = true) :
    Tours (firstTuple types) (advanceTuple types) (tuples types) :=
  tours_tuples fun type member => ValueType.tours_values (enumerable type member)

/-- Counting succeeds only if the values of every source can be listed. -/
theorem isEnumerable_of_count {sources : List (String × ValueType)} : ∀ {counted total : Nat},
    count counted sources = .ok total →
        ∀ type ∈ sources.map Prod.snd, type.isEnumerable = true := by
  induction sources with
  | nil => exact fun _ _ impossible => nomatch impossible
  | cons source rest others =>
      intro counted total isTotal type member
      rw [count] at isTotal
      split at isTotal
      · rename_i size isSize
        rcases List.mem_cons.mp member with rfl | later
        · exact ValueType.isEnumerable_of_enumerable isSize
        · exact others isTotal type later
      · cases isTotal

/-- **Combinations are handed out as by nested loops**, the last domain changing fastest. -/
theorem yields_of_named {sources : List (String × ValueType)} {combinations : Combinations}
    (made : named sources = .ok combinations) :
    Walk.Yields next? combinations (tuples (sources.map Prod.snd)) := by
  unfold named at made
  split at made
  · cases made
  · rename_i total isTotal
    cases made
    refine Walk.yields_of_tours (fun combinations upcoming =>
      combinations.domains = sources.map Prod.snd ∧ combinations.upcoming = upcoming) ?_ ?_
      (tours_of_isEnumerable (isEnumerable_of_count isTotal)) ⟨rfl, rfl⟩
    · rintro combinations ⟨_, upcoming⟩
      rw [next?, upcoming]
    · rintro combinations tuple ⟨domains, upcoming⟩
      have handsOut : next? combinations = some (tuple,
          { combinations with
            upcoming := advanceTuple combinations.domains tuple
            remaining := combinations.remaining - 1 }) := by
        rw [next?, upcoming]
      exact ⟨_, handsOut, domains, by rw [domains]⟩

/-- Combinations that were made have the types of their sources, and all of them can be listed. -/
theorem domains_of_named {sources : List (String × ValueType)} {combinations : Combinations}
    (made : named sources = .ok combinations) : combinations.domains = sources.map Prod.snd ∧
      ∀ type ∈ sources.map Prod.snd, type.isEnumerable = true := by
  unfold named at made
  split at made
  · cases made
  · rename_i total isTotal
    cases made
    exact ⟨rfl, isEnumerable_of_count isTotal⟩

/-- The list of combinations is that of nested loops. -/
theorem toList_eq_tuples {sources : List (String × ValueType)} {combinations : Combinations}
    (made : named sources = .ok combinations) :
    combinations.toList = tuples (sources.map Prod.snd) := by
  obtain ⟨domains, enumerable⟩ := domains_of_named made
  rw [toList, (yields_of_named made).take, domains, ← length_tuples_eq enumerable, List.take_length]

/-- **Combinations are the accepted tuples**, and each of them is handed out once. -/
theorem toList_of_named {sources : List (String × ValueType)} {combinations : Combinations}
    (made : named sources = .ok combinations) : combinations.toList.Nodup ∧
      ∀ tuple, tuple ∈ combinations.toList ↔ AcceptedTuple (sources.map Prod.snd) tuple := by
  obtain ⟨_, enumerable⟩ := domains_of_named made
  rw [toList_eq_tuples made]
  exact ⟨(tours_of_isEnumerable enumerable).nodup, mem_tuples_iff enumerable⟩

/-- There is always a combination, as every type that can be listed has a value. -/
theorem toList_ne_nil {sources : List (String × ValueType)} {combinations : Combinations}
    (made : named sources = .ok combinations) : combinations.toList ≠ [] := by
  obtain ⟨_, enumerable⟩ := domains_of_named made
  obtain ⟨start, _, orbit⟩ := tours_of_isEnumerable enumerable
  rw [toList_eq_tuples made]
  exact List.ne_nil_of_mem orbit.start_mem

end Combinations

end TimedKripke
