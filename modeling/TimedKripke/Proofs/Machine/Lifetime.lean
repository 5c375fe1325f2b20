import TimedKripke.Proofs.Machine.Range

/-! # The lifetime of an instance

From the outside an instance makes steps, is suspended, resumed and restarted, and has its data
written (`Instance.Operation`). An operation that fails changes nothing, so what the others keep
holds for a lifetime (`Instance.Kept.lifetime`). They keep what building has established: an
instance never leaves the definition of its machine, and can always make a step
(`Blueprint.lifetime_within_definition`). An instance keeps the name of the state it came from; the
index of that state is tracked beside it (`Instance.Tracks`).
-/

namespace TimedKripke

namespace Instance

/-- What can be done to an instance. -/
inductive Operation where
  /-- Make a step, with arguments, among other executables, at some time. -/
  | step (id : ExecutableId) (arguments : PropertyList) (directory : Directory) (clock : Clock)
  | suspend
  | resume
  | restart
  | setVariable (name : String) (value : Value)
  | setExternal (name : String) (value : Value)

/-- The instance after an operation; it is as before if the operation fails. -/
def perform (running : Instance) : Operation → Instance
  | .step id arguments directory clock =>
      match running.step id arguments directory clock with
      | .ok (_, stepped) => stepped
      | .error _ => running
  | .suspend => running.suspend.2
  | .resume => running.resume.2
  | .restart => running.restart
  | .setVariable name value =>
      match running.setVariable name value with
      | .ok written => written
      | .error _ => running
  | .setExternal name value =>
      match running.setExternal name value with
      | .ok written => written
      | .error _ => running

/-- What it takes for a property of instances to survive every operation. -/
structure Kept (Holds : Instance → Prop) : Prop where
  steps : ∀ {running stepped : Instance} {id : ExecutableId} {arguments : PropertyList}
    {directory : Directory} {clock : Clock} {outcome : StepOutcome}, Holds running →
    running.step id arguments directory clock = .ok (outcome, stepped) → Holds stepped
  suspends : ∀ {running : Instance}, Holds running → Holds running.suspend.2
  resumes : ∀ {running : Instance}, Holds running → Holds running.resume.2
  restarts : ∀ {running : Instance}, Holds running → Holds running.restart
  setsVariable : ∀ {running written : Instance} {name : String} {value : Value}, Holds running →
    running.setVariable name value = .ok written → Holds written
  setsExternal : ∀ {running written : Instance} {name : String} {value : Value}, Holds running →
    running.setExternal name value = .ok written → Holds written

section Kept

variable {Holds : Instance → Prop} (kept : Kept Holds)
include kept

/-- What restart, suspend, resume, the writes and the steps each keep is kept by every operation. -/
theorem Kept.perform {running : Instance} (holds : Holds running) (operation : Operation) :
    Holds (running.perform operation) := by
  cases operation with
  | step id arguments directory clock =>
      rw [Instance.perform]
      split
      · rename_i made
        exact kept.steps holds made
      · exact holds
  | suspend => exact kept.suspends holds
  | resume => exact kept.resumes holds
  | restart => exact kept.restarts holds
  | setVariable name value =>
      rw [Instance.perform]
      split
      · rename_i set
        exact kept.setsVariable holds set
      · exact holds
  | setExternal name value =>
      rw [Instance.perform]
      split
      · rename_i set
        exact kept.setsExternal holds set
      · exact holds

/-- **What every operation keeps** holds for a lifetime. -/
theorem Kept.lifetime (operations : List Operation) : ∀ {running : Instance}, Holds running →
    Holds (operations.foldl Instance.perform running) := by
  induction operations with
  | nil => exact fun holds => holds
  | cons operation rest others => exact fun holds => others (kept.perform holds operation)

end Kept

variable {running written : Instance} {name : String} {value : Value}

/-- An instance that is suspended moves from its state to the suspend state, or stays. -/
theorem suspend_cases (running : Instance) : running.suspend = (false, running) ∨
    ∃ suspended, running.machine.suspendState = some suspended ∧
      suspended ≠ running.currentState ∧
      running.suspend = (true, { running with
        resumeState := some running.currentState
        previousStateName := running.currentStateName
        currentState := suspended
        entryPending := true }) := by
  unfold suspend
  split
  · exact .inl rfl
  · rename_i suspended isSuspended
    by_cases already : suspended = running.currentState
    · rw [if_pos already]
      exact .inl rfl
    · rw [if_neg already]
      exact .inr ⟨suspended, isSuspended, already, rfl⟩

/-- An instance that is resumed moves from the suspend state to where it was, or stays. -/
theorem resume_cases (running : Instance) : running.resume = (false, running) ∨
    ∃ resumed, running.resumeState = some resumed ∧ running.isSuspended = true ∧
      running.resume = (true, { running with
        previousStateName := running.currentStateName
        currentState := resumed
        entryPending := true
        resumeState := none }) := by
  unfold resume
  split
  · exact .inl rfl
  · rename_i resumed isResumed
    by_cases suspended : running.isSuspended = true
    · rw [if_pos suspended]
      exact .inr ⟨resumed, isResumed, suspended, rfl⟩
    · rw [if_neg suspended]
      exact .inl rfl

/-- A variable is set only if it is declared and the value is of its type. -/
theorem setVariable_eq_ok (set : running.setVariable name value = .ok written) :
    ∃ type, running.machine.variableType? name = some type ∧ type.accepts value = true ∧
      written = { running with
        variableValues := OrderedMap.insert name value running.variableValues } := by
  unfold setVariable at set
  split at set
  · cases set
  · rename_i type found
    split at set
    · rename_i accepted
      cases set
      exact ⟨type, found, accepted, rfl⟩
    · cases set

/-- An external that is set changes in its value and nowhere else. -/
theorem setExternal_eq_ok (set : running.setExternal name value = .ok written) :
    written = { running with externals := External.write name value running.externals } := by
  unfold setExternal at set
  split at set
  · cases set
  · split at set
    · cases set
      rfl
    · cases set

/-- The instance is one of a machine, and everything in it is as the machine defines it. -/
structure Within (machine : Machine) (running : Instance) : Prop where
  isMachine : running.machine = machine
  wellFormed : running.WellFormed
  declared : running.Declared

/-- The name of the current state is a declared one. -/
theorem WellFormed.currentStateName_mem (wellFormed : running.WellFormed) :
    running.currentStateName ∈
      Machine.initialPreviousState :: running.machine.states.map MachineState.name := by
  rw [currentStateName, Machine.stateName, List.getElem?_eq_getElem wellFormed.currentState]
  exact List.mem_cons_of_mem _ (List.mem_map_of_mem (List.getElem_mem wellFormed.currentState))

/-- **Operations keep an instance within its definition.** The cases are the operations. -/
theorem kept_within (machine : Machine) : Kept (Within machine) where
  steps := fun within made =>
    ⟨(step_machine made).trans within.isMachine, within.wellFormed.step made,
      within.declared.step within.wellFormed made⟩
  suspends := by
    intro running within
    have wellFormed := within.wellFormed.suspend
    rcases running.suspend_cases with stays | ⟨suspended, _, _, moves⟩
    · rw [stays]
      exact within
    · rw [moves] at wellFormed ⊢
      exact ⟨within.isMachine, wellFormed, within.declared.initial, within.declared.values,
        within.wellFormed.currentStateName_mem⟩
  resumes := by
    intro running within
    have wellFormed := within.wellFormed.resume
    rcases running.resume_cases with stays | ⟨resumed, _, _, moves⟩
    · rw [stays]
      exact within
    · rw [moves] at wellFormed ⊢
      exact ⟨within.isMachine, wellFormed, within.declared.initial, within.declared.values,
        within.wellFormed.currentStateName_mem⟩
  restarts := fun within =>
    ⟨within.isMachine, within.wellFormed.restart, within.declared.restart⟩
  setsVariable := by
    intro running written name value within set
    have wellFormed := within.wellFormed.setVariable set
    obtain ⟨type, found, accepted, rfl⟩ := setVariable_eq_ok set
    refine ⟨within.isMachine, wellFormed, within.declared.initial, ?_, within.declared.previous⟩
    exact within.declared.values.insert (OrderedMap.mem_of_lookup found) accepted
  setsExternal := by
    intro running written name value within set
    have wellFormed := within.wellFormed.setExternal set
    cases setExternal_eq_ok set
    exact ⟨within.isMachine, wellFormed, within.declared.initial, within.declared.values,
      within.declared.previous⟩

/-- An instance that is in one of its states can make a step. -/
theorem WellFormed.exists_step (wellFormed : running.WellFormed) (id : ExecutableId)
    (arguments : PropertyList) (directory : Directory) (clock : Clock) :
    ∃ made, running.step id arguments directory clock = .ok made := by
  unfold Instance.step
  split
  · exact ⟨_, rfl⟩
  · rw [List.getElem?_eq_getElem wellFormed.currentState]
    exact ⟨_, rfl⟩

/-- The index of the state before, after an operation on an instance that came from the state with
the index `previous`. An operation that moves the instance or runs its programs leaves the state
in which it found the instance, restarting leaves none, and whatever changes nothing keeps the
index. -/
def previousAfter (running : Instance) (previous : Option Nat) : Operation → Option Nat
  | .step id arguments directory clock =>
      match running.step id arguments directory clock with
      | .ok _ =>
          if running.isSuspended || running.hasFinished then previous
          else some running.currentState
      | .error _ => previous
  | .suspend => if running.suspend.1 then some running.currentState else previous
  | .resume => if running.resume.1 then some running.currentState else previous
  | .restart => none
  | .setVariable _ _ | .setExternal _ _ => previous

/-- An operation on an instance, together with the index of the state before. -/
def performTracked (tracked : Instance × Option Nat) (operation : Operation) :
    Instance × Option Nat :=
  (tracked.1.perform operation, tracked.1.previousAfter tracked.2 operation)

/-- Following the index of the state before does not change what operations do. -/
theorem fst_foldl_performTracked (operations : List Operation) (tracked : Instance × Option Nat) :
    (operations.foldl performTracked tracked).1 = operations.foldl perform tracked.1 :=
  (List.foldl_hom Prod.fst (fun _ _ => rfl)).symm

/-- The index is that of a state of the machine, and its name stands in the instance as that of the
state before; without an index, the name is the initial one. -/
structure Tracks (running : Instance) (previous : Option Nat) : Prop where
  inside : ∀ index ∈ previous, index < running.machine.states.length
  named : running.previousStateName =
    previous.elim Machine.initialPreviousState running.machine.stateName

/-- When an instance has moved on, the index that it was at tracks the name it came from. -/
theorem WellFormed.tracks_current (wellFormed : running.WellFormed) {moved : Instance}
    (machine : moved.machine = running.machine)
    (named : moved.previousStateName = running.currentStateName) :
    moved.Tracks (some running.currentState) := by
  constructor
  · rintro index ⟨⟩
    rw [machine]
    exact wellFormed.currentState
  · rw [named, currentStateName, machine]
    rfl

/-- **Operations keep the index and the name of the state before together.** -/
theorem Tracks.perform (wellFormed : running.WellFormed) {previous : Option Nat}
    (tracks : running.Tracks previous) (operation : Operation) :
    (running.perform operation).Tracks (running.previousAfter previous operation) := by
  cases operation with
  | step id arguments directory clock =>
      rw [Instance.perform, previousAfter]
      cases made : running.step id arguments directory clock with
      | error fault => exact tracks
      | ok answer =>
          obtain ⟨outcome, stepped⟩ := answer
          rcases step_cases made with ⟨idle, _, rfl⟩ | ⟨_, _, _, busy, _, _, _, rfl⟩
          · rw [if_pos idle]
            exact tracks
          · rw [if_neg (by simp [busy])]
            exact wellFormed.tracks_current rfl rfl
  | suspend =>
      rw [Instance.perform, previousAfter]
      rcases running.suspend_cases with stays | ⟨_, _, _, moves⟩
      · rw [stays]
        exact tracks
      · rw [moves]
        exact wellFormed.tracks_current rfl rfl
  | resume =>
      rw [Instance.perform, previousAfter]
      rcases running.resume_cases with stays | ⟨_, _, _, moves⟩
      · rw [stays]
        exact tracks
      · rw [moves]
        exact wellFormed.tracks_current rfl rfl
  | restart => exact ⟨nofun, rfl⟩
  | setVariable name value =>
      rw [Instance.perform, previousAfter]
      split
      · rename_i set
        obtain ⟨_, _, _, rfl⟩ := setVariable_eq_ok set
        exact ⟨tracks.inside, tracks.named⟩
      · exact tracks
  | setExternal name value =>
      rw [Instance.perform, previousAfter]
      split
      · rename_i set
        cases setExternal_eq_ok set
        exact ⟨tracks.inside, tracks.named⟩
      · exact tracks

/-- The index of the state before is tracked for a lifetime. -/
theorem Within.tracks {machine : Machine} (operations : List Operation) :
    ∀ {running : Instance} {previous : Option Nat}, running.Within machine →
      running.Tracks previous →
      (operations.foldl performTracked (running, previous)).1.Tracks
        (operations.foldl performTracked (running, previous)).2 := by
  induction operations with
  | nil => exact fun _ tracks => tracks
  | cons operation rest others =>
      intro running previous within tracks
      exact others ((kept_within machine).perform within operation)
        (tracks.perform within.wellFormed operation)

end Instance

namespace Blueprint

/-- Any number of external declarations leave their names distinct. -/
theorem distinctExternals_foldl (declared : List External) : ∀ {blueprint : Blueprint},
    blueprint.DistinctExternals →
      (declared.foldl declareExternal blueprint).DistinctExternals := by
  induction declared with
  | nil => exact fun distinct => distinct
  | cons external rest others => exact fun distinct => others (distinct.declareExternal external)

/-- Instances of a machine that was built start within its definition. -/
theorem DistinctExternals.start_within {blueprint : Blueprint}
    (distinct : blueprint.DistinctExternals) {machine : Machine}
    (built : blueprint.build = .ok machine) : machine.start.Within machine :=
  ⟨rfl, (distinct.wellFormed_of_build built).start, (declares_of_build built).start⟩

/-- **Instances stay within the definition of their machine.** Whatever is done to an instance of a
machine that was built, in whatever order and with whatever success: the indices of the state it is
in, of the state it came from, if any, and of the one it will resume in are indices of states of the
machine; its externals are those declared, in their order, under distinct names, with values of
their types; and it can make another step. -/
theorem lifetime_within_definition {written : Blueprint} {declared : List External}
    {machine : Machine}
    (built : (declared.foldl declareExternal { written with externals := [] }).build = .ok machine)
    (operations : List Instance.Operation) :
    ∃ running previous, operations.foldl Instance.perform machine.start = running ∧
      operations.foldl Instance.performTracked (machine.start, none) = (running, previous) ∧
      running.machine = machine ∧
      running.currentState < machine.states.length ∧
      (∀ index ∈ previous, index < machine.states.length) ∧
      running.previousStateName =
        previous.elim Machine.initialPreviousState machine.stateName ∧
      (∀ index ∈ running.resumeState, index < machine.states.length) ∧
      running.externals.map External.signature =
        machine.initialExternals.map External.signature ∧
      (running.externals.map External.name).Nodup ∧
      (∀ external ∈ running.externals, external.type.accepts external.value = true) ∧
      ∀ id arguments directory clock,
        ∃ made, running.step id arguments directory clock = .ok made := by
  have undeclared : DistinctExternals { written with externals := [] } := List.nodup_nil
  have distinct := distinctExternals_foldl declared undeclared
  have starts := distinct.start_within built
  have within := (Instance.kept_within machine).lifetime operations starts
  have startTracks : machine.start.Tracks none := ⟨nofun, rfl⟩
  have tracks := starts.tracks operations startTracks
  have same := Instance.fst_foldl_performTracked operations (machine.start, none)
  rw [same] at tracks
  have isMachine := within.isMachine
  have wellFormed := within.wellFormed
  generalize operations.foldl Instance.perform machine.start = running at *
  subst isMachine
  exact ⟨running, _, rfl, Prod.ext same rfl, rfl, wellFormed.currentState, tracks.inside,
    tracks.named, wellFormed.resumeState, wellFormed.signature, wellFormed.distinctExternals,
    wellFormed.typed, wellFormed.exists_step⟩

end Blueprint

namespace Door

/-- The external that is declared last. -/
def push : External :=
  .new "push" .shared .bool

/-- Whether the door is pushed. -/
def pushed : Program Bool :=
  .ask (.getExternal "push") fun value => .done (value == some (.bool true))

/-- The door as it is written, before its externals are declared. It opens when it is pushed, and
then tries to write something that is no push. -/
def blueprint : Blueprint :=
  { name := "Door"
    states := [
      { name := "Closed", transitions := [("Open", pushed)] },
      { name := "Open"
        onEntry := some (.ask (.setExternal "push" (.string "ajar")) fun _ => .done ()) },
      { name := "Locked" }]
    suspendState := some "Locked" }

/-- The machine that is built. -/
def machine : Machine :=
  { name := "Door"
    states := [
      { name := "Closed", onEntry := none, onExit := none, internal := none
        transitions := [{ target := 1, guard := pushed }], observes := none },
      { name := "Open"
        onEntry := some (.ask (.setExternal "push" (.string "ajar")) fun _ => .done ())
        onExit := none, internal := none, transitions := [], observes := none },
      { name := "Locked", onEntry := none, onExit := none, internal := none, transitions := []
        observes := none }]
    initialState := 0
    exitState := none
    suspendState := some 2
    variableTypes := []
    initialVariables := []
    initialExternals := [push] }

/-- A step of the door on its own. -/
def step : Instance.Operation :=
  .step 0 [] { names := [], results := [] } (.new .empty 0)

/-- The door is locked and unlocked, then pushed. Two writes on the way fail. -/
def operations : List Instance.Operation :=
  [step, .suspend, step, .setVariable "handle" (.bool true), .setExternal "push" (.string "hard"),
    .resume, .setExternal "push" (.bool true), step, step]

/-- A door that is locked and unlocked, refuses what it does not declare, and is pushed open. The
state it came from is tracked by its index. -/
theorem lifetime_within : ∃ running,
    operations.foldl Instance.perform machine.start = running ∧
      operations.foldl Instance.performTracked (machine.start, none) = (running, some 1) ∧
      running.currentStateName = "Open" ∧ running.previousStateName = "Open" ∧
      running.externals = [{ push with value := .bool true }] ∧
      (∀ external ∈ running.externals, external.type.accepts external.value = true) ∧
      ∀ id arguments directory clock,
        ∃ made, running.step id arguments directory clock = .ok made := by
  have built : ([.new "push" .sensor .string, push].foldl Blueprint.declareExternal
      { blueprint with externals := [] }).build = .ok machine := by
    rfl
  obtain ⟨running, previous, isRunning, tracked, _, _, _, _, _, _, _, typed, steps⟩ :=
    Blueprint.lifetime_within_definition built operations
  have isPrevious :
      (operations.foldl Instance.performTracked (machine.start, none)).2 = some 1 := by
    rfl
  rw [tracked] at isPrevious
  cases isPrevious
  refine ⟨running, isRunning, tracked, ?_, ?_, ?_, typed, steps⟩
  · rw [← isRunning]
    rfl
  · rw [← isRunning]
    rfl
  · rw [← isRunning]
    rfl

end Door

end TimedKripke
