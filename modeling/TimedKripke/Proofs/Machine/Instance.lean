import Mathlib.Data.List.Nodup
import TimedKripke.Proofs.OrderedMap
import TimedKripke.Proofs.Program.Run

/-! # Well-formed instances

A machine that was built has states of distinct names, transitions to states that exist,
and externals of distinct names. An instance of it stays in these states and never changes
what its externals are, only what they hold (`Instance.WellFormed`); every operation on an
instance keeps that. A well-formed instance can be read back from its snapshot
(`Instance.eq_of_snapshot`).
-/

namespace TimedKripke

namespace External

/-- What an external is, whatever it holds. -/
def signature (external : External) : String × Direction × ValueType :=
  (external.name, external.direction, external.type)

/-- Externals of the same signatures have the same names. -/
theorem map_name_of_signature {first second : List External}
    (same : first.map signature = second.map signature) :
    first.map External.name = second.map External.name := by
  have names := congrArg (List.map Prod.fst) same
  rwa [List.map_map, List.map_map] at names

/-- Externals with the same signature and value are the same. -/
theorem eq_of_signature {first second : External} (same : first.signature = second.signature)
    (value : first.value = second.value) : first = second := by
  obtain ⟨name, direction, type, held⟩ := first
  cases value
  cases same
  rfl

/-- Writing an external changes neither a name, a direction nor a type. -/
@[simp] theorem map_signature_write (name : String) (value : Value) (externals : List External) :
    (write name value externals).map signature = externals.map signature := by
  induction externals with
  | nil => rfl
  | cons first rest others =>
      rw [write]
      split
      · rfl
      · rw [List.map_cons, others, List.map_cons]

/-- Every external holds a value of its type. -/
def Typed (externals : List External) : Prop :=
  ∀ external ∈ externals, external.type.accepts external.value = true

/-- Writing a value of the declared type keeps all externals typed. -/
theorem Typed.write {externals : List External} (typed : Typed externals) {name : String}
    {value : Value} {declared : External} (found : find? externals name = some declared)
    (accepted : declared.type.accepts value = true) :
    Typed (External.write name value externals) := by
  induction externals with
  | nil => exact typed
  | cons first rest others =>
      have typedRest : Typed rest := fun external member =>
        typed external (List.mem_cons_of_mem first member)
      rw [External.write]
      by_cases here : first.name = name
      · rw [if_pos here]
        have same : declared = first := by
          simpa [find?, here] using found.symm
        rintro external (_ | ⟨_, member⟩)
        · exact same ▸ accepted
        · exact typedRest external member
      · rw [if_neg here]
        have foundLater : find? rest name = some declared := by
          simpa [find?, here] using found
        rintro external (_ | ⟨_, member⟩)
        · exact typed first List.mem_cons_self
        · exact others typedRest foundLater external member

end External

/-- What building a machine guarantees. -/
structure Machine.WellFormed (machine : Machine) : Prop where
  distinctStates : (machine.states.map MachineState.name).Nodup
  initialState : machine.initialState < machine.states.length
  suspendState : ∀ index ∈ machine.suspendState, index < machine.states.length
  /-- Transitions lead to states. -/
  targets : ∀ state ∈ machine.states, ∀ transition ∈ state.transitions,
    transition.target < machine.states.length
  distinctExternals : (machine.initialExternals.map External.name).Nodup
  typed : External.Typed machine.initialExternals

/-- The instance is in states of its machine and has the externals of its machine. -/
structure Instance.WellFormed (running : Instance) : Prop where
  machine : running.machine.WellFormed
  currentState : running.currentState < running.machine.states.length
  resumeState : ∀ index ∈ running.resumeState, index < running.machine.states.length
  /-- The externals are those of the machine. -/
  signature : running.externals.map External.signature =
    running.machine.initialExternals.map External.signature
  typed : External.Typed running.externals

/-- A well-formed machine starts as a well-formed instance. -/
theorem Machine.WellFormed.start {machine : Machine} (wellFormed : machine.WellFormed) :
    machine.start.WellFormed where
  machine := wellFormed
  currentState := wellFormed.initialState
  resumeState := fun _ impossible => nomatch impossible
  signature := rfl
  typed := wellFormed.typed

namespace Instance.WellFormed

variable {running : Instance} (wellFormed : running.WellFormed)
include wellFormed

/-- The externals of a well-formed instance have distinct names. -/
theorem distinctExternals : (running.externals.map External.name).Nodup := by
  rw [External.map_name_of_signature wellFormed.signature]
  exact wellFormed.machine.distinctExternals

/-- Restarting keeps an instance well-formed: the initial state is a declared one. -/
theorem restart : running.restart.WellFormed :=
  ⟨wellFormed.machine, wellFormed.machine.initialState,
    fun _ impossible => (nomatch impossible), wellFormed.signature, wellFormed.typed⟩

/-- Suspending keeps an instance well-formed, as the suspend state is a declared one. -/
theorem suspend : running.suspend.2.WellFormed := by
  unfold Instance.suspend
  split
  · exact wellFormed
  · rename_i suspended isSuspend
    split
    · exact wellFormed
    · refine ⟨wellFormed.machine, wellFormed.machine.suspendState _ isSuspend, ?_,
        wellFormed.signature, wellFormed.typed⟩
      rintro _ ⟨⟩
      exact wellFormed.currentState

/-- Resuming keeps an instance well-formed: it goes back to a state the instance was in. -/
theorem resume : running.resume.2.WellFormed := by
  unfold Instance.resume
  split
  · exact wellFormed
  · rename_i resumed isResume
    split
    · exact ⟨wellFormed.machine, wellFormed.resumeState _ isResume,
        fun _ impossible => (nomatch impossible), wellFormed.signature, wellFormed.typed⟩
    · exact wellFormed

/-- A variable that may be set leaves the instance well-formed. -/
theorem setVariable {written : Instance} {name : String} {value : Value}
    (set : running.setVariable name value = .ok written) : written.WellFormed := by
  unfold Instance.setVariable at set
  split at set
  · cases set
  · split at set
    · cases set
      exact ⟨wellFormed.machine, wellFormed.currentState, wellFormed.resumeState,
        wellFormed.signature, wellFormed.typed⟩
    · cases set

/-- An external that may be set leaves the instance well-formed, as the value was checked against
its type. -/
theorem setExternal {written : Instance} {name : String} {value : Value}
    (set : running.setExternal name value = .ok written) : written.WellFormed := by
  unfold Instance.setExternal at set
  split at set
  · cases set
  · rename_i declared found
    split at set
    · rename_i accepted
      cases set
      exact ⟨wellFormed.machine, wellFormed.currentState, wellFormed.resumeState,
        (External.map_signature_write _ _ _).trans wellFormed.signature,
        wellFormed.typed.write found accepted⟩
    · cases set

end Instance.WellFormed

/-- A request changes what externals hold, but neither what they are nor that they hold values
of their types. -/
theorem Context.answer_externals (context : Context) (request : Request)
    (typed : External.Typed context.externals) :
    (context.answer request).2.externals.map External.signature =
        context.externals.map External.signature ∧
      External.Typed (context.answer request).2.externals := by
  cases request with
  | setExternal name value =>
      change (context.setExternal name value).2.externals.map _ = _ ∧
        External.Typed (context.setExternal name value).2.externals
      unfold Context.setExternal
      split
      · exact ⟨rfl, typed⟩
      · rename_i declared found
        split
        · rename_i accepted
          exact ⟨External.map_signature_write _ _ _, typed.write found accepted⟩
        · exact ⟨rfl, typed⟩
  | setVariable name value =>
      change (context.setVariable name value).2.externals.map _ = _ ∧
        External.Typed (context.setVariable name value).2.externals
      unfold Context.setVariable
      split
      · exact ⟨rfl, typed⟩
      · split <;> exact ⟨rfl, typed⟩
  | call method name parameters =>
      change (context.call method name parameters).2.externals.map _ = _ ∧
        External.Typed (context.call method name parameters).2.externals
      unfold Context.call
      split <;> exact ⟨rfl, typed⟩
  | _ => exact ⟨rfl, typed⟩

namespace Instance

variable {running stepped : Instance} {id : ExecutableId} {arguments : PropertyList}
  {directory : Directory} {clock : Clock} {outcome : StepOutcome}

/-- A step is idle, or it runs the programs of the current state. -/
theorem step_cases (made : running.step id arguments directory clock = .ok (outcome, stepped)) :
    ((running.isSuspended || running.hasFinished) = true ∧ outcome = .idle clock ∧
      stepped = running) ∨
    ∃ state target after, (running.isSuspended || running.hasFinished) = false ∧
      running.machine.states[running.currentState]? = some state ∧
      runState state running.entryPending (running.context id arguments directory clock) =
        (target, after) ∧
      outcome = {
        transitioned := target.isSome
        result := after.result
        unresolved := after.unresolved
        issued := after.issued
        clock := after.clock } ∧
      stepped = { running with
        previousStateName := running.currentStateName
        currentState := target.getD running.currentState
        entryPending := target.isSome
        variableValues := after.variableValues
        externals := after.externals } := by
  unfold Instance.step at made
  split at made
  · rename_i idle
    cases made
    exact .inl ⟨idle, rfl, rfl⟩
  · rename_i busy
    split at made
    · cases made
    · rename_i state found
      cases made
      exact .inr ⟨state, _, _, by simpa using busy, found, rfl, rfl, rfl⟩

/-- A step never exchanges the machine of an instance. -/
theorem step_machine (made : running.step id arguments directory clock = .ok (outcome, stepped)) :
    stepped.machine = running.machine := by
  rcases step_cases made with ⟨_, _, rfl⟩ | ⟨_, _, _, _, _, _, _, rfl⟩
  · rfl
  · rfl

/-- A step that succeeds keeps the instance well-formed: transitions lead to declared states, and
writes are checked. -/
theorem WellFormed.step (wellFormed : running.WellFormed)
    (made : running.step id arguments directory clock = .ok (outcome, stepped)) :
    stepped.WellFormed := by
  rcases step_cases made with ⟨_, _, rfl⟩ | ⟨state, target, after, _, found, ran, _, rfl⟩
  · exact wellFormed
  · have kept := runState_preserves state running.entryPending
      (fun request _ context (holds : context.externals.map External.signature =
          running.machine.initialExternals.map External.signature ∧
            External.Typed context.externals) =>
        have answered := context.answer_externals request holds.2
        ⟨answered.1.trans holds.1, answered.2⟩)
      (show _ ∧ External.Typed (running.context id arguments directory clock).externals from
        ⟨wellFormed.signature, wellFormed.typed⟩)
    rw [ran] at kept
    refine ⟨wellFormed.machine, ?_, wellFormed.resumeState, kept.1, kept.2⟩
    cases target with
    | none => exact wellFormed.currentState
    | some target =>
        obtain ⟨transition, member, rfl⟩ := mem_of_runState (congrArg Prod.fst ran)
        exact wellFormed.machine.targets state (List.mem_of_getElem? found) transition member

end Instance

/-- States of distinct names are told apart by their names. -/
theorem Machine.WellFormed.stateName_inj {machine : Machine} (wellFormed : machine.WellFormed)
    {first second : Nat} (left : first < machine.states.length)
    (right : second < machine.states.length)
    (same : machine.stateName first = machine.stateName second) : first = second := by
  have names : (machine.states.map MachineState.name)[first]? =
      (machine.states.map MachineState.name)[second]? := by
    simpa [Machine.stateName, left, right] using same
  exact (List.getElem?_inj (by simpa using left) wellFormed.distinctStates).mp names

namespace External

/-- The values of the externals of one direction, by name. -/
def grouped (externals : List External) (direction : Direction) : List (String × Value) :=
  (externals.filter fun declared => declared.direction == direction).map fun declared =>
    (declared.name, declared.value)

/-- The names of one direction are determined by the signatures alone. -/
theorem map_fst_grouped (externals : List External) (direction : Direction) :
    (grouped externals direction).map Prod.fst =
      ((externals.map signature).filter fun known => known.2.1 == direction).map Prod.fst := by
  rw [grouped, List.filter_map, List.map_map, List.map_map]
  rfl

/-- Externals with the same signatures are the same if they hold the same values in every
direction. -/
theorem eq_of_grouped : ∀ {first second : List External},
    first.map signature = second.map signature →
      (∀ direction, grouped first direction = grouped second direction) → first = second
  | [], [], _, _ => rfl
  | [], _ :: _, impossible, _ => nomatch impossible
  | _ :: _, [], impossible, _ => nomatch impossible
  | left :: first, right :: second, same, groups => by
      obtain ⟨head, tail⟩ := List.cons.inj same
      have direction : left.direction = right.direction :=
        congrArg (fun known => known.2.1) head
      have here := groups left.direction
      simp only [grouped, List.filter_cons, direction, beq_self_eq_true, ↓reduceIte,
        List.map_cons, List.cons.injEq, Prod.mk.injEq] at here
      have later : ∀ direction, grouped first direction = grouped second direction := by
        intro other
        by_cases isHere : right.direction = other
        · exact isHere ▸ here.2
        · have there := groups other
          simpa [grouped, List.filter_cons, direction, isHere] using there
      rw [eq_of_signature head here.1.2, eq_of_grouped tail later]

end External

namespace Instance

/-- The snapshot shows what the externals hold. -/
theorem WellFormed.externals_eq {first second : Instance} (left : first.WellFormed)
    (same : first.externals.map External.signature = second.externals.map External.signature)
    (groups : ∀ direction, first.group direction = second.group direction) :
    first.externals = second.externals := by
  refine External.eq_of_grouped same fun direction => ?_
  refine OrderedMap.eq_of_ofList_eq ?_ ?_ (groups direction)
  · rw [External.map_fst_grouped, same, External.map_fst_grouped]
  · have part : List.Sublist ((External.grouped first.externals direction).map Prod.fst)
        (first.externals.map External.name) := by
      rw [External.grouped, List.map_map]
      exact (List.filter_sublist).map External.name
    exact part.nodup left.distinctExternals

/-- **Snapshots tell instances apart.** Well-formed instances of one machine that look the same
are the same. -/
theorem WellFormed.eq_of_fields {first second : Instance} (left : first.WellFormed)
    (right : second.WellFormed) (machine : first.machine = second.machine)
    (same : first.fields = second.fields) : first = second := by
  simp only [fields, List.cons.injEq, Prod.mk.injEq, Value.compound.injEq, Value.string.injEq,
    Value.bool.injEq, true_and, and_true] at same
  obtain ⟨actuators, current, shared, previous, resume, sensors, entry, values⟩ := same
  have sameCurrent : first.currentState = second.currentState := by
    refine left.machine.stateName_inj left.currentState (machine ▸ right.currentState) ?_
    rw [currentStateName, currentStateName, ← machine] at current
    exact current
  have sameResume : first.resumeState = second.resumeState := by
    unfold resumeStateName? at resume
    cases before : first.resumeState with
    | none =>
        cases after : second.resumeState with
        | none => rfl
        | some index =>
            rw [before, after] at resume
            cases resume
    | some index =>
        cases after : second.resumeState with
        | none =>
            rw [before, after] at resume
            cases resume
        | some other =>
            rw [before, after, ← machine] at resume
            have names : first.machine.stateName index = first.machine.stateName other := by
              simpa using resume
            rw [left.machine.stateName_inj (left.resumeState index before)
              (machine ▸ right.resumeState other after) names]
  have sameExternals : first.externals = second.externals := by
    refine left.externals_eq ?_ fun direction => ?_
    · rw [left.signature, right.signature, machine]
    · cases direction with
      | sensor => exact sensors
      | actuator => exact actuators
      | shared => exact shared
  obtain ⟨_, _, _, _, _, _, _⟩ := first
  obtain ⟨_, _, _, _, _, _, _⟩ := second
  cases machine
  cases sameCurrent
  cases sameResume
  cases sameExternals
  cases previous
  cases entry
  cases values
  rfl

end Instance

end TimedKripke
