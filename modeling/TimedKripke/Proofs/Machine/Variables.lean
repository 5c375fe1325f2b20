import TimedKripke.Proofs.Machine.Lifetime

/-! # The types of variables

A machine has two views of its declarations. What is written to a variable is checked against the
type in the first declaration of its name (`Blueprint.variableType?_of_build`), while the variable
starts with the value in the last one (`Blueprint.lookup_initialVariables_of_build`), and building
checks each declaration for itself. So a variable holds a value of its type or the one it starts
with (`Machine.Holding`), and it keeps to its type for all lifetimes exactly if the first
declaration accepts the value of the last one (`Blueprint.lifetime_keeps_types`). A name that is
declared once does.
-/

namespace TimedKripke

namespace Machine

/-- Every variable holds a value, of its type or the one it starts with. -/
def Holding (machine : Machine) (values : PropertyList) : Prop :=
  ∀ name type, machine.variableType? name = some type →
    ∃ value, values.lookup name = some value ∧
      (type.accepts value = true ∨ machine.initialVariables.lookup name = some value)

/-- The writes of a program leave a value in every variable, as they only replace values by checked
ones. -/
theorem keptByWrites_holding (machine : Machine) : machine.KeptByWrites machine.Holding := by
  intro values written type value holding found accepted other otherType foundOther
  rw [OrderedMap.lookup_insert]
  by_cases same : other = written
  · rw [same, found] at foundOther
    cases foundOther
    rw [if_pos (beq_iff_eq.mpr same)]
    exact ⟨value, rfl, .inl accepted⟩
  · rw [if_neg (mt eq_of_beq same)]
    exact holding other otherType foundOther

end Machine

/-- **What writes to the variables keep, operations keep**, if the values at the start have it. -/
theorem Instance.kept_variables {machine : Machine} {Holds : PropertyList → Prop}
    (initial : Holds machine.initialVariables) (kept : machine.KeptByWrites Holds) :
    Kept fun running => running.machine = machine ∧ Holds running.variableValues where
  steps := by
    rintro running stepped id arguments directory clock outcome ⟨rfl, holds⟩ made
    exact ⟨step_machine made, step_variables kept holds made⟩
  suspends := by
    intro running holds
    rcases running.suspend_cases with stays | ⟨_, _, _, moves⟩
    · rwa [stays]
    · rwa [moves]
  resumes := by
    intro running holds
    rcases running.resume_cases with stays | ⟨_, _, _, moves⟩
    · rwa [stays]
    · rwa [moves]
  restarts := by
    rintro running ⟨rfl, _⟩
    exact ⟨rfl, initial⟩
  setsVariable := by
    rintro running written name value ⟨rfl, holds⟩ set
    obtain ⟨type, found, accepted, rfl⟩ := setVariable_eq_ok set
    exact ⟨rfl, kept holds found accepted⟩
  setsExternal := by
    intro running written name value holds set
    cases setExternal_eq_ok set
    exact holds

namespace Blueprint

/-- The first declaration of the variable of a name. -/
def firstDeclaration? (blueprint : Blueprint) (name : String) : Option VariableDeclaration :=
  blueprint.declarations.find? fun declared => declared.name == name

/-- The last declaration of the variable of a name. -/
def lastDeclaration? (blueprint : Blueprint) (name : String) : Option VariableDeclaration :=
  blueprint.declarations.reverse.find? fun declared => declared.name == name

/-- The first declaration of a name exists once there is any declaration of it. -/
theorem exists_find?_name {declarations : List VariableDeclaration} {declared : VariableDeclaration}
    (member : declared ∈ declarations) : ∃ found,
      (declarations.find? fun other => other.name == declared.name) = some found := by
  rw [← Option.isSome_iff_exists, List.find?_isSome]
  exact ⟨declared, member, beq_self_eq_true declared.name⟩

/-- Looking a name up among declarations is finding the first one of that name. -/
theorem lookup_declarations {α : Type} (content : VariableDeclaration → α) (name : String)
    (declarations : List VariableDeclaration) :
    (declarations.map fun declared => (declared.name, content declared)).lookup name =
      (declarations.find? fun declared => declared.name == name).map content := by
  induction declarations with
  | nil => rfl
  | cons first rest others =>
      rw [List.map_cons, List.lookup_cons, List.find?_cons, Bool.beq_comm]
      cases first.name == name with
      | true => rfl
      | false => exact others

variable {blueprint : Blueprint} {machine : Machine} (built : blueprint.build = .ok machine)
  {name : String}
include built

/-- The type that writes are checked against is that of the first declaration. -/
theorem variableType?_of_build (name : String) : machine.variableType? name =
    (blueprint.firstDeclaration? name).map VariableDeclaration.type := by
  rw [Machine.variableType?, (makes_of_build built).variableTypes]
  exact lookup_declarations VariableDeclaration.type name blueprint.declarations

/-- The value at the start is that of the last declaration. -/
theorem lookup_initialVariables_of_build (name : String) : machine.initialVariables.lookup name =
    (blueprint.lastDeclaration? name).map VariableDeclaration.initial := by
  rw [(makes_of_build built).initialVariables, OrderedMap.ofList, OrderedMap.lookup_extend,
    ← List.map_reverse, lookup_declarations, List.lookup_nil, Option.or_none]
  rfl

/-- A machine that was built starts with a value for every variable. -/
theorem holding_of_build : machine.Holding machine.initialVariables := by
  intro name type found
  rw [variableType?_of_build built, Option.map_eq_some_iff] at found
  obtain ⟨first, isFirst, _⟩ := found
  have isName : first.name = name := by
    simpa using List.find?_some isFirst
  obtain ⟨last, isLast⟩ := exists_find?_name
    (List.mem_reverse.mpr (List.mem_of_find?_eq_some isFirst))
  have held : machine.initialVariables.lookup name = some last.initial := by
    rw [lookup_initialVariables_of_build built, lastDeclaration?, ← isName, isLast,
      Option.map_some]
  exact ⟨last.initial, held, .inr held⟩

/-- Every variable holds a value throughout the lifetime of an instance. -/
theorem holding_of_lifetime (operations : List Instance.Operation) :
    machine.Holding (operations.foldl Instance.perform machine.start).variableValues := by
  have kept : Instance.Kept fun running =>
      running.machine = machine ∧ machine.Holding running.variableValues :=
    Instance.kept_variables (holding_of_build built) machine.keptByWrites_holding
  exact (kept.lifetime operations ⟨rfl, holding_of_build built⟩).2

/-- **A variable keeps to its type for all lifetimes exactly if its first declaration accepts the
value of its last one.** Whatever is done to an instance of a machine that was built: a declared
variable has a value, and it is one that writes to the variable accept, or the value of its last
declaration. So all these values are of the type that writes are checked against exactly if that
type accepts the value of the last declaration, as it does if the two declarations, which may be
one, have the same type. -/
theorem lifetime_keeps_types (declared : ∃ declaration ∈ blueprint.declarations,
    declaration.name = name) :
    ∃ first last, blueprint.firstDeclaration? name = some first ∧
      blueprint.lastDeclaration? name = some last ∧
      machine.variableType? name = some first.type ∧
      (∀ operations : List Instance.Operation, ∃ value,
        (operations.foldl Instance.perform machine.start).variableValues.lookup name =
          some value ∧ (first.type.accepts value = true ∨ value = last.initial)) ∧
      ((∀ operations : List Instance.Operation, ∃ value,
        (operations.foldl Instance.perform machine.start).variableValues.lookup name =
          some value ∧ first.type.accepts value = true) ↔
        first.type.accepts last.initial = true) ∧
      (first.type = last.type → first.type.accepts last.initial = true) := by
  obtain ⟨declaration, member, rfl⟩ := declared
  obtain ⟨first, isFirst⟩ : ∃ first, blueprint.firstDeclaration? declaration.name = some first :=
    exists_find?_name member
  obtain ⟨last, isLast⟩ : ∃ last, blueprint.lastDeclaration? declaration.name = some last :=
    exists_find?_name (List.mem_reverse.mpr member)
  have isType : machine.variableType? declaration.name = some first.type := by
    rw [variableType?_of_build built, isFirst, Option.map_some]
  have isInitial : machine.initialVariables.lookup declaration.name = some last.initial := by
    rw [lookup_initialVariables_of_build built, isLast, Option.map_some]
  have each : ∀ operations : List Instance.Operation, ∃ value,
      (operations.foldl Instance.perform machine.start).variableValues.lookup declaration.name =
        some value ∧ (first.type.accepts value = true ∨ value = last.initial) := by
    intro operations
    obtain ⟨value, held, accepted | initial⟩ :=
      holding_of_lifetime built operations _ _ isType
    · exact ⟨value, held, .inl accepted⟩
    · rw [isInitial] at initial
      exact ⟨value, held, .inr (Option.some.inj initial).symm⟩
  refine ⟨first, last, isFirst, isLast, isType, each, ⟨fun always => ?_, fun accepted => ?_⟩, ?_⟩
  · -- Nothing need be done to the instance: it starts with the value of the last declaration.
    obtain ⟨value, held, accepted⟩ := always []
    have same : last.initial = value := Option.some.inj (isInitial.symm.trans held)
    rwa [same]
  · intro operations
    obtain ⟨value, held, isAccepted | rfl⟩ := each operations
    · exact ⟨value, held, isAccepted⟩
    · exact ⟨last.initial, held, accepted⟩
  · intro same
    rw [same]
    exact accepts_of_illTyped (makes_of_build built).wellTyped
      (List.mem_reverse.mp (List.mem_of_find?_eq_some isLast))

end Blueprint

namespace Meter

/-- The meter as it is written. Its level is declared twice, with different types; on entry it shows
that it is on and counts one reading. -/
def blueprint : Blueprint :=
  { name := "Meter"
    states := [
      { name := "Idle"
        onEntry := some (.ask (.setVariable "level" (.bool true)) fun _ =>
          .ask (.setVariable "readings" (.int .u8 1 (by decide))) fun _ => .done ()) }]
    declarations := [
      { name := "level", type := .bool, initial := .bool false },
      { name := "readings", type := .int .u8, initial := .int .u8 0 (by decide) },
      { name := "level", type := .int .u8, initial := .int .u8 7 (by decide) }] }

/-- The machine that is built. -/
def machine : Machine :=
  { name := "Meter"
    states := [
      { name := "Idle"
        onEntry := some (.ask (.setVariable "level" (.bool true)) fun _ =>
          .ask (.setVariable "readings" (.int .u8 1 (by decide))) fun _ => .done ())
        onExit := none, internal := none, transitions := [], observes := none }]
    initialState := 0
    exitState := none
    suspendState := none
    variableTypes := [("level", .bool), ("readings", .int .u8), ("level", .int .u8)]
    initialVariables := [("level", .int .u8 7 (by decide)), ("readings", .int .u8 0 (by decide))]
    initialExternals := [] }

/-- A meter whose readings stay within their type, while its level, which is declared twice, does
not always hold a value of the type it is declared with first. -/
theorem lifetime_types : blueprint.build = .ok machine ∧
    (∀ operations : List Instance.Operation, ∃ value,
      (operations.foldl Instance.perform machine.start).variableValues.lookup "readings" =
        some value ∧ (ValueType.int .u8).accepts value = true) ∧
    ¬ ∀ operations : List Instance.Operation, ∃ value,
      (operations.foldl Instance.perform machine.start).variableValues.lookup "level" =
        some value ∧ ValueType.bool.accepts value = true := by
  have built : blueprint.build = .ok machine := by
    rfl
  refine ⟨built, ?_, ?_⟩
  · obtain ⟨first, last, isFirst, isLast, _, _, always, _⟩ :=
      Blueprint.lifetime_keeps_types built
        ⟨_, List.mem_cons_of_mem _ List.mem_cons_self, rfl⟩
    cases isFirst
    cases isLast
    exact always.mpr rfl
  · obtain ⟨first, last, isFirst, isLast, _, _, always, _⟩ :=
      Blueprint.lifetime_keeps_types built ⟨_, List.mem_cons_self, rfl⟩
    cases isFirst
    cases isLast
    intro kept
    cases always.mp kept

end Meter

end TimedKripke
