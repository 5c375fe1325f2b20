import Mathlib.Data.Set.Finite.Lattice
import Mathlib.Data.Set.Finite.List
import TimedKripke.Proofs.Enumeration.Domain
import TimedKripke.Proofs.Machine.Blueprint

/-! # Machines with finitely many instances

Whatever the actions of a machine try to write, its variables hold values of the types they were
declared with, and it remembers the name of one of its states (`Instance.Declared`). If all these
types can be listed, a machine has finitely many instances (`Machine.Enumerable.finite_instances`).
-/

namespace TimedKripke

/-- Short lists of finitely many items are finitely many. -/
theorem finite_lists {α : Type} {items : Set α} (finite : items.Finite) (count : Nat) :
    {list : List α | list.length ≤ count ∧ ∀ item ∈ list, item ∈ items}.Finite := by
  have := finite.to_subtype
  refine ((List.finite_length_le items count).image (List.map Subtype.val)).subset ?_
  rintro list ⟨short, inside⟩
  refine ⟨list.attachWith (· ∈ items) inside, ?_, List.attachWith_map_subtype_val _⟩
  rwa [Set.mem_ofPred_eq, List.length_attachWith]

/-- A type that can be listed has finitely many values. -/
theorem ValueType.finite_accepts {type : ValueType} (enumerable : type.isEnumerable = true) :
    {value | type.accepts value = true}.Finite := by
  obtain ⟨_, places, _, _, _, members⟩ := listed_of_isEnumerable enumerable
  exact places.finite_toSet.subset fun value accepted => (members value).mpr accepted

namespace Machine

/-- The values are those of variables of the machine, each of a type that the variable was declared
with. -/
structure Declares (machine : Machine) (values : PropertyList) : Prop where
  ascending : (OrderedMap.keys values).Pairwise (· < ·)
  /-- The values are of declared types. -/
  typed : ∀ {name : String} {value : Value}, (name, value) ∈ values →
    ∃ type, (name, type) ∈ machine.variableTypes ∧ type.accepts value = true

/-- No variables at all are declared ones. -/
theorem declares_nil (machine : Machine) : machine.Declares [] :=
  ⟨.nil, fun impossible => nomatch impossible⟩

/-- Writing a value of a declared type to its variable leaves only declared variables. -/
theorem Declares.insert {machine : Machine} {values : PropertyList}
    (declares : machine.Declares values) {name : String} {type : ValueType}
    (declared : (name, type) ∈ machine.variableTypes) {value : Value}
    (accepted : type.accepts value = true) :
    machine.Declares (OrderedMap.insert name value values) where
  ascending := OrderedMap.pairwise_keys_insert declares.ascending name value
  typed := by
    intro other held member
    have distinct := (OrderedMap.pairwise_keys_insert declares.ascending name value).imp
      Std.ne_of_lt
    have found := OrderedMap.lookup_of_mem distinct member
    rw [OrderedMap.lookup_insert] at found
    split at found
    · rename_i same
      cases found
      rw [eq_of_beq same]
      exact ⟨type, declared, accepted⟩
    · exact declares.typed (OrderedMap.mem_of_lookup found)

/-- Writing declared variables with values of their types leaves only declared variables. -/
theorem Declares.extend {machine : Machine} {updates : List (String × Value)}
    (each : ∀ update ∈ updates, ∃ type, (update.1, type) ∈ machine.variableTypes ∧
      type.accepts update.2 = true) : ∀ {values : PropertyList}, machine.Declares values →
        machine.Declares (OrderedMap.extend values updates) := by
  induction updates with
  | nil => exact fun declares => declares
  | cons update rest others =>
      intro values declares
      obtain ⟨type, declared, accepted⟩ := each update List.mem_cons_self
      exact others (fun later member => each later (List.mem_cons_of_mem _ member))
        (declares.insert declared accepted)

end Machine

/-- A request leaves the variables, or writes a value of the type that one of them has. -/
theorem Context.answer_variables (context : Context) (request : Request) :
    (context.answer request).2.machine = context.machine ∧
      ((context.answer request).2.variableValues = context.variableValues ∨
        ∃ name type value, context.machine.variableType? name = some type ∧
          type.accepts value = true ∧ (context.answer request).2.variableValues =
            OrderedMap.insert name value context.variableValues) := by
  cases request with
  | setVariable name value =>
      simp only [Context.answer, Context.setVariable]
      split
      · exact ⟨rfl, .inl rfl⟩
      · rename_i type found
        split
        · rename_i accepted
          rw [Bool.and_eq_true] at accepted
          exact ⟨rfl, .inr ⟨name, type, value, found, accepted.2, rfl⟩⟩
        · exact ⟨rfl, .inl rfl⟩
  | setExternal name value =>
      simp only [Context.answer, Context.setExternal]
      split
      · exact ⟨rfl, .inl rfl⟩
      · split <;> exact ⟨rfl, .inl rfl⟩
  | call method name parameters =>
      simp only [Context.answer, Context.call]
      split <;> exact ⟨rfl, .inl rfl⟩
  | _ => exact ⟨rfl, .inl rfl⟩

/-- Writing values of the types that the variables have keeps the property. -/
def Machine.KeptByWrites (machine : Machine) (Holds : PropertyList → Prop) : Prop :=
  ∀ {values : PropertyList} {name : String} {type : ValueType} {value : Value}, Holds values →
    machine.variableType? name = some type → type.accepts value = true →
      Holds (OrderedMap.insert name value values)

/-- The writes of a program keep the variables within their declarations, as each one is checked. -/
theorem Machine.keptByWrites_declares (machine : Machine) :
    machine.KeptByWrites machine.Declares :=
  fun declares found accepted => declares.insert (OrderedMap.mem_of_lookup found) accepted

namespace Instance

/-- The data of the instance are as its machine declares them. -/
structure Declared (running : Instance) : Prop where
  initial : running.machine.Declares running.machine.initialVariables
  values : running.machine.Declares running.variableValues
  /-- The state before is a state of the machine, if there was one. -/
  previous : running.previousStateName ∈
    Machine.initialPreviousState :: running.machine.states.map MachineState.name

/-- Restarting gives back the initial variables, which are declared. -/
theorem Declared.restart {running : Instance} (declared : running.Declared) :
    running.restart.Declared :=
  ⟨declared.initial, declared.initial, List.mem_cons_self⟩

/-- What writes to the variables keep, a step keeps. -/
theorem step_variables {running stepped : Instance} {id : ExecutableId} {arguments : PropertyList}
    {directory : Directory} {clock : Clock} {outcome : StepOutcome} {Holds : PropertyList → Prop}
    (kept : running.machine.KeptByWrites Holds) (holds : Holds running.variableValues)
    (made : running.step id arguments directory clock = .ok (outcome, stepped)) :
    Holds stepped.variableValues := by
  rcases step_cases made with ⟨_, _, rfl⟩ | ⟨state, target, after, _, _, ran, _, rfl⟩
  · exact holds
  · have each : ∀ request (context : Context),
        context.machine = running.machine ∧ Holds context.variableValues →
          (context.answer request).2.machine = running.machine ∧
            Holds (context.answer request).2.variableValues := by
      rintro request context ⟨isMachine, held⟩
      obtain ⟨sameMachine, same | ⟨name, type, value, found, accepted, written⟩⟩ :=
        context.answer_variables request
      · exact ⟨sameMachine.trans isMachine, same ▸ held⟩
      · exact ⟨sameMachine.trans isMachine, written ▸ kept held (isMachine ▸ found) accepted⟩
    have start : (running.context id arguments directory clock).machine = running.machine ∧
        Holds (running.context id arguments directory clock).variableValues :=
      ⟨rfl, holds⟩
    have preserved := runState_preserves state running.entryPending
      (fun request _ => each request) start
    rw [ran] at preserved
    exact preserved.2

/-- A step keeps the data as declared, since every write is checked against the declarations. -/
theorem Declared.step {running stepped : Instance} {id : ExecutableId} {arguments : PropertyList}
    {directory : Directory} {clock : Clock} {outcome : StepOutcome} (declared : running.Declared)
    (wellFormed : running.WellFormed)
    (made : running.step id arguments directory clock = .ok (outcome, stepped)) :
    stepped.Declared := by
  have values := step_variables running.machine.keptByWrites_declares declared.values made
  rcases step_cases made with ⟨_, _, rfl⟩ | ⟨state, _, _, _, found, _, _, rfl⟩
  · exact declared
  · refine ⟨declared.initial, values, List.mem_cons_of_mem _ ?_⟩
    have isName : running.currentStateName = state.name := by
      rw [currentStateName, Machine.stateName, found]
    rw [isName]
    exact List.mem_map_of_mem (List.mem_of_getElem? found)

end Instance

/-- A machine with declared initial variables starts within its declarations. -/
theorem Machine.Declares.start {machine : Machine}
    (declares : machine.Declares machine.initialVariables) : machine.start.Declared :=
  ⟨declares, declares, List.mem_cons_self⟩

/-- A machine that was built starts with variables as declared. -/
theorem Blueprint.declares_of_build {blueprint : Blueprint} {machine : Machine}
    (built : blueprint.build = .ok machine) : machine.Declares machine.initialVariables := by
  have makes := makes_of_build built
  rw [makes.initialVariables]
  refine Machine.Declares.extend ?_ (Machine.declares_nil _)
  intro update member
  obtain ⟨declared, isDeclared, rfl⟩ := List.mem_map.mp member
  refine ⟨declared.type, ?_, accepts_of_illTyped makes.wellTyped isDeclared⟩
  rw [makes.variableTypes]
  exact List.mem_map_of_mem isDeclared

namespace Machine

/-- The values of all variables and externals of the machine can be listed. -/
structure Enumerable (machine : Machine) : Prop where
  variableTypes : ∀ declared ∈ machine.variableTypes, declared.2.isEnumerable = true
  externalTypes : ∀ declared ∈ machine.initialExternals, declared.type.isEnumerable = true

namespace Enumerable

variable {machine : Machine} (enumerable : machine.Enumerable)
include enumerable

/-- There are finitely many valuations of the variables of an enumerable machine. -/
theorem finite_variables : {values | machine.Declares values}.Finite := by
  have entries : (⋃ declared ∈ {declared | declared ∈ machine.variableTypes},
      Prod.mk declared.1 '' {value | declared.2.accepts value = true}).Finite :=
    machine.variableTypes.finite_toSet.biUnion fun declared isDeclared =>
      (ValueType.finite_accepts (enumerable.variableTypes declared isDeclared)).image _
  refine (finite_lists entries machine.variableTypes.length).subset fun values declares => ?_
  constructor
  · -- The names are distinct, and all of them are declared.
    have within : OrderedMap.keys values ⊆ machine.variableTypes.map Prod.fst := by
      intro name member
      obtain ⟨⟨_, value⟩, isEntry, rfl⟩ := List.mem_map.mp member
      obtain ⟨type, declared, _⟩ := declares.typed isEntry
      exact List.mem_map_of_mem declared
    have distinct : (OrderedMap.keys values).Nodup := declares.ascending.imp Std.ne_of_lt
    simpa [OrderedMap.keys] using distinct.length_le_of_subset within
  · rintro ⟨name, value⟩ member
    obtain ⟨type, declared, accepted⟩ := declares.typed member
    exact Set.mem_biUnion declared ⟨value, accepted, rfl⟩

/-- There are finitely many assignments to the externals of an enumerable machine. -/
theorem finite_externals : {externals | externals.map External.signature =
    machine.initialExternals.map External.signature ∧ External.Typed externals}.Finite := by
  have each : (⋃ declared ∈ {declared | declared ∈ machine.initialExternals},
      (fun value => { declared with value }) ''
        {value | declared.type.accepts value = true}).Finite :=
    machine.initialExternals.finite_toSet.biUnion fun declared isDeclared =>
      (ValueType.finite_accepts (enumerable.externalTypes declared isDeclared)).image _
  refine (finite_lists each machine.initialExternals.length).subset ?_
  rintro externals ⟨signature, typed⟩
  constructor
  · simpa using (congrArg List.length signature).le
  · intro external member
    obtain ⟨declared, isDeclared, same⟩ := List.mem_map.mp
      (signature ▸ List.mem_map_of_mem member : external.signature ∈ _)
    have type : declared.type = external.type := congrArg (fun known => known.2.2) same
    refine Set.mem_biUnion isDeclared ⟨external.value, ?_, External.eq_of_signature same rfl⟩
    rw [Set.mem_ofPred_eq, type]
    exact typed external member

/-- **A machine has finitely many instances** if the types of its data can be listed. -/
theorem finite_instances : {running : Instance | running.machine = machine ∧
    running.WellFormed ∧ running.Declared}.Finite := by
  have states := Set.finite_lt_nat machine.states.length
  have names := (initialPreviousState :: machine.states.map MachineState.name).finite_toSet
  have resumes : {resume : Option Nat | ∀ index ∈ resume,
      index < machine.states.length}.Finite := by
    refine ((states.image some).insert none).subset ?_
    rintro (_ | index) inside
    · exact .inl rfl
    · exact .inr ⟨index, inside index rfl, rfl⟩
  refine (((states.prod names).prod (Set.finite_univ : (Set.univ : Set Bool).Finite)).prod
    (resumes.prod
    (enumerable.finite_variables.prod enumerable.finite_externals))).image
      (fun parts : ((Nat × String) × Bool) × Option Nat × PropertyList × List External =>
        ({ machine
           currentState := parts.1.1.1
           previousStateName := parts.1.1.2
           entryPending := parts.1.2
           resumeState := parts.2.1
           variableValues := parts.2.2.1
           externals := parts.2.2.2 } : Instance)) |>.subset ?_
  rintro running ⟨rfl, wellFormed, declared⟩
  exact ⟨(((running.currentState, running.previousStateName), running.entryPending),
      running.resumeState, running.variableValues, running.externals),
    ⟨⟨⟨wellFormed.currentState, declared.previous⟩, trivial⟩, wellFormed.resumeState,
      declared.values, wellFormed.signature, wellFormed.typed⟩, rfl⟩

end Enumerable

end Machine

end TimedKripke
