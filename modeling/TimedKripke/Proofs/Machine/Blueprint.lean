import TimedKripke.Proofs.Machine.Instance
import TimedKripke.Proofs.Outcome
import TimedKripke.Proofs.Value.Type

/-! # Building gives well-formed machines

What `Blueprint.build` checks is what `Machine.WellFormed` asks for, but for the names of
externals: they are distinct because declaring an external drops an earlier declaration
of its name (`Blueprint.DistinctExternals.declareExternal`).
-/

namespace TimedKripke

namespace Blueprint

/-- No two externals are declared under one name. -/
def DistinctExternals (blueprint : Blueprint) : Prop :=
  (blueprint.externals.map External.name).Nodup

/-- Declaring an external replaces one of the same name, so names stay distinct. -/
theorem DistinctExternals.declareExternal {blueprint : Blueprint}
    (distinct : blueprint.DistinctExternals) (external : External) :
    (blueprint.declareExternal external).DistinctExternals := by
  unfold DistinctExternals Blueprint.declareExternal
  rw [List.map_append, List.nodup_append]
  refine ⟨(List.filter_sublist.map _).nodup distinct, List.nodup_singleton _, ?_⟩
  intro kept isKept added isAdded same
  obtain ⟨declared, member, rfl⟩ := List.mem_map.mp isKept
  rw [List.map_singleton, List.mem_singleton] at isAdded
  have different := (List.mem_filter.mp member).2
  simp [same, isAdded] at different

/-- A state name resolves to an index within the declared states. -/
theorem stateIndex_lt {blueprint : Blueprint} {name : String} {index : Nat}
    (found : blueprint.stateIndex name = .ok index) : index < blueprint.states.length := by
  unfold stateIndex at found
  split at found
  · rename_i place isPlace
    cases found
    exact (List.findIdx?_eq_some_iff_getElem.mp isPlace).choose
  · cases found

/-- An optional state name resolves to nothing or to an index within the declared states. -/
theorem optionalStateIndex_lt {blueprint : Blueprint} {name : Option String} {found : Option Nat}
    (resolved : blueprint.optionalStateIndex name = .ok found) :
    ∀ index ∈ found, index < blueprint.states.length := by
  cases name with
  | none =>
      cases resolved
      exact fun _ impossible => nomatch impossible
  | some name =>
      obtain ⟨place, looked, rfl⟩ := Outcome.map_eq_ok.mp resolved
      rintro _ ⟨⟩
      exact stateIndex_lt looked

/-- The targets of resolved transitions lie within the declared states. -/
theorem resolveTransitions_lt {blueprint : Blueprint} {written : List (String × Program Bool)} :
    ∀ {transitions : List Transition}, blueprint.resolveTransitions written = .ok transitions →
      ∀ transition ∈ transitions, transition.target < blueprint.states.length := by
  induction written with
  | nil =>
      intro transitions resolved
      cases resolved
      exact fun _ impossible => nomatch impossible
  | cons first rest others =>
      intro transitions resolved
      rw [resolveTransitions] at resolved
      split at resolved
      · cases resolved
      · rename_i target found
        obtain ⟨more, later, rfl⟩ := Outcome.map_eq_ok.mp resolved
        rintro transition (_ | ⟨_, member⟩)
        · exact stateIndex_lt found
        · exact others later transition member

/-- A resolved state keeps its name, and its transitions lead to states. -/
theorem resolveState_eq_ok {blueprint : Blueprint} {written : StateBlueprint} {state : MachineState}
    (resolved : blueprint.resolveState written = .ok state) : state.name = written.name ∧
      ∀ transition ∈ state.transitions, transition.target < blueprint.states.length := by
  unfold resolveState at resolved
  split at resolved
  · cases resolved
  · rename_i transitions found
    split at resolved
    · cases resolved
    · cases resolved
      exact ⟨rfl, resolveTransitions_lt found⟩

/-- Resolved states have the declared names in order, and their transitions lead to declared states.
-/
theorem resolveStates_eq_ok {blueprint : Blueprint} {written : List StateBlueprint} :
    ∀ {states : List MachineState}, blueprint.resolveStates written = .ok states →
      states.map MachineState.name = written.map StateBlueprint.name ∧
        ∀ state ∈ states, ∀ transition ∈ state.transitions,
          transition.target < blueprint.states.length := by
  induction written with
  | nil =>
      intro states resolved
      cases resolved
      exact ⟨rfl, fun _ impossible => nomatch impossible⟩
  | cons first rest others =>
      intro states resolved
      rw [resolveStates] at resolved
      split at resolved
      · cases resolved
      · rename_i state found
        obtain ⟨more, later, rfl⟩ := Outcome.map_eq_ok.mp resolved
        obtain ⟨names, targets⟩ := others later
        obtain ⟨name, target⟩ := resolveState_eq_ok found
        refine ⟨by rw [List.map_cons, List.map_cons, name, names], ?_⟩
        rintro other (_ | ⟨_, member⟩)
        · exact target
        · exact targets other member

/-- A blueprint that passes the type check has externals whose initial values are of their types. -/
theorem typed_of_illTyped {blueprint : Blueprint} (wellTyped : blueprint.illTyped? = none) :
    External.Typed blueprint.externals := by
  intro external member
  have unfaulted := List.findSome?_eq_none_iff.mp (Option.or_eq_none_iff.mp wellTyped).2 external
    member
  split at unfaulted
  · assumption
  · cases unfaulted

/-- A blueprint that passes the type check has variables whose initial values are of their declared
types. -/
theorem accepts_of_illTyped {blueprint : Blueprint} (wellTyped : blueprint.illTyped? = none)
    {declared : VariableDeclaration} (member : declared ∈ blueprint.declarations) :
    declared.type.accepts declared.initial = true := by
  have unfaulted := List.findSome?_eq_none_iff.mp (Option.or_eq_none_iff.mp wellTyped).1 declared
    member
  split at unfaulted
  · assumption
  · cases unfaulted

/-- The blueprint passes all checks, and the machine is made of what it declares. -/
structure Makes (blueprint : Blueprint) (machine : Machine) : Prop where
  someState : blueprint.states ≠ []
  unrepeated : ValueType.repeatedName [] (blueprint.states.map StateBlueprint.name) = none
  wellTyped : blueprint.illTyped? = none
  name : machine.name = blueprint.name
  states : blueprint.resolveStates blueprint.states = .ok machine.states
  initialState : ∃ found, blueprint.optionalStateIndex blueprint.initialState = .ok found ∧
    machine.initialState = found.getD 0
  exitState : blueprint.optionalStateIndex blueprint.exitState = .ok machine.exitState
  suspendState : blueprint.optionalStateIndex blueprint.suspendState = .ok machine.suspendState
  variableTypes : machine.variableTypes =
    blueprint.declarations.map fun declared => (declared.name, declared.type)
  initialVariables : machine.initialVariables = OrderedMap.ofList
    (blueprint.declarations.map fun declared => (declared.name, declared.initial))
  initialExternals : machine.initialExternals = blueprint.externals

/-- A build that succeeds makes a machine with everything the blueprint declares. -/
theorem makes_of_build {blueprint : Blueprint} {machine : Machine}
    (built : blueprint.build = .ok machine) : blueprint.Makes machine := by
  unfold build at built
  split at built
  · cases built
  · rename_i someState
    split at built
    · cases built
    · rename_i unrepeated
      obtain ⟨initialState, initial, built⟩ := Outcome.bind_eq_ok.mp built
      obtain ⟨exitState, exit, built⟩ := Outcome.bind_eq_ok.mp built
      obtain ⟨suspendState, suspend, built⟩ := Outcome.bind_eq_ok.mp built
      obtain ⟨states, resolved, built⟩ := Outcome.bind_eq_ok.mp built
      split at built
      · cases built
      · rename_i wellTyped
        cases built
        exact ⟨by simpa using someState, unrepeated, wellTyped, rfl, resolved,
          ⟨initialState, initial, rfl⟩, exit, suspend, rfl, rfl, rfl⟩

/-- **Building gives a well-formed machine**: its states are distinct, its transitions lead to them,
and its externals are typed and distinct. -/
theorem DistinctExternals.wellFormed_of_build {blueprint : Blueprint}
    (distinct : blueprint.DistinctExternals) {machine : Machine}
    (built : blueprint.build = .ok machine) : machine.WellFormed := by
  have makes := makes_of_build built
  obtain ⟨names, targets⟩ := resolveStates_eq_ok makes.states
  have count : machine.states.length = blueprint.states.length := by
    simpa using congrArg List.length names
  refine ⟨?_, ?_, ?_, ?_, ?_, ?_⟩
  · exact names ▸ (ValueType.nodup_of_repeatedName makes.unrepeated).1
  · obtain ⟨found, initial, isInitial⟩ := makes.initialState
    rw [isInitial, count]
    cases found with
    | none => exact List.length_pos_iff.mpr makes.someState
    | some index => exact optionalStateIndex_lt initial index rfl
  · exact count ▸ optionalStateIndex_lt makes.suspendState
  · exact count ▸ targets
  · exact makes.initialExternals ▸ distinct
  · exact makes.initialExternals ▸ typed_of_illTyped makes.wellTyped

end Blueprint

end TimedKripke
