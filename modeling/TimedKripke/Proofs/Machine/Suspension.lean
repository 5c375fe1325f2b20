import TimedKripke.Proofs.Machine.Lifetime

/-! # Suspension

The suspend state is a state like any other: a machine may start in it, and a transition may lead
to it. Only suspending notes where to resume, and a suspended instance makes idle steps until it is
resumed or restarted, both of which drop the note. So the note is there only while the instance is
suspended, and names another state (`Instance.kept_noted`); and an instance that was suspended
resumes where it was, with the data it had (`Instance.resume_suspend`).
-/

namespace TimedKripke

namespace Instance

variable {running : Instance}

/-- Where to resume is noted only while the instance is suspended, and is another state. -/
def Noted (running : Instance) : Prop :=
  ∀ resumed ∈ running.resumeState, running.isSuspended = true ∧ resumed ≠ running.currentState

/-- An instance that has noted no state to resume is in order. -/
theorem noted_of_none (unnoted : running.resumeState = none) : running.Noted := by
  intro resumed isResumed
  rw [unnoted] at isResumed
  cases isResumed

/-- An instance that is not suspended has no note. -/
theorem Noted.resumeState_eq_none (noted : running.Noted) (active : running.isSuspended = false) :
    running.resumeState = none := by
  cases isResumed : running.resumeState with
  | none => rfl
  | some resumed =>
      rw [(noted resumed isResumed).1] at active
      cases active

/-- **Operations keep the note in order**: only suspending makes one, and whatever leaves the
suspend state drops it. -/
theorem kept_noted : Kept Noted where
  steps := by
    intro running stepped id arguments directory clock outcome noted made
    rcases step_cases made with ⟨_, _, rfl⟩ | ⟨_, _, _, busy, _, _, _, rfl⟩
    · exact noted
    · -- A step leaves the note alone, and an instance that runs its programs has none.
      rw [Bool.or_eq_false_iff] at busy
      exact noted_of_none (noted.resumeState_eq_none busy.1)
  suspends := by
    intro running noted
    rcases running.suspend_cases with stays | ⟨suspended, isSuspended, different, moves⟩
    · rwa [stays]
    · rw [moves]
      rintro resumed ⟨⟩
      exact ⟨beq_iff_eq.mpr isSuspended, Ne.symm different⟩
  resumes := by
    intro running noted
    rcases running.resume_cases with stays | ⟨_, _, _, moves⟩
    · rwa [stays]
    · rw [moves]
      exact noted_of_none rfl
  restarts := fun _ => noted_of_none rfl
  setsVariable := by
    intro running written name value noted set
    obtain ⟨_, _, _, rfl⟩ := setVariable_eq_ok set
    exact noted
  setsExternal := by
    intro running written name value noted set
    cases setExternal_eq_ok set
    exact noted

/-- What an instance is given for a step. -/
structure StepInput where
  id : ExecutableId
  arguments : PropertyList
  directory : Directory
  clock : Clock

/-- The instance after some steps. -/
def stepAll : List StepInput → Instance → Except Fault Instance
  | [], running => .ok running
  | input :: inputs, running => do
      let (_, stepped) ← running.step input.id input.arguments input.directory input.clock
      stepAll inputs stepped

/-- A suspended instance steps any number of times without any effect. -/
theorem stepAll_of_isSuspended (suspended : running.isSuspended = true) (inputs : List StepInput) :
    stepAll inputs running = .ok running := by
  induction inputs with
  | nil => rfl
  | cons input inputs others =>
      have idle : running.step input.id input.arguments input.directory input.clock =
          .ok (.idle input.clock, running) := by
        rw [Instance.step, suspended, Bool.true_or, if_pos rfl]
      rw [stepAll, idle]
      exact others

/-- **Suspending and resuming** leaves an instance in the state it was in, as if it had just come
there from the suspend state. -/
theorem resume_suspend (moved : running.suspend.1 = true) :
    running.suspend.2.isSuspended = true ∧ ∃ suspended,
      running.machine.suspendState = some suspended ∧
      running.suspend.2.resume = (true, { running with
        previousStateName := running.machine.stateName suspended
        entryPending := true
        resumeState := none }) := by
  rcases running.suspend_cases with stays | ⟨suspended, isSuspended, _, moves⟩
  · rw [stays] at moved
    cases moved
  · have there : running.suspend.2.isSuspended = true := by
      rw [moves]
      exact beq_iff_eq.mpr isSuspended
    refine ⟨there, suspended, isSuspended, ?_⟩
    rw [moves] at there ⊢
    simp only [resume, if_pos there]
    rfl

end Instance

/-- The note names a state other than the suspend state, by index and by name. -/
theorem Instance.Within.resumeState_ne {machine : Machine} {running : Instance}
    (within : running.Within machine) (noted : running.Noted) {suspended : Nat}
    (isSuspend : machine.suspendState = some suspended) :
    running.resumeState ≠ some suspended ∧
      running.resumeStateName? ≠ some (machine.stateName suspended) := by
  obtain rfl := within.isMachine
  have elsewhere : running.resumeState ≠ some suspended := by
    intro isResumed
    obtain ⟨there, different⟩ := noted suspended isResumed
    rw [isSuspended, beq_iff_eq, isSuspend] at there
    exact different (Option.some.inj there)
  refine ⟨elsewhere, fun named => ?_⟩
  obtain ⟨resumed, isResumed, sameName⟩ := Option.map_eq_some_iff.mp named
  have wellFormed := within.wellFormed
  have same := wellFormed.machine.stateName_inj (wellFormed.resumeState resumed isResumed)
    (wellFormed.machine.suspendState suspended isSuspend) sameName
  exact elsewhere (same ▸ isResumed)

/-- **Suspension is transparent.** Whatever was done to an instance of a machine that was built:
where to resume is noted only if the instance is suspended, and the suspend state is never noted.
If the instance can be suspended now, then after any number of steps, all of which are made, it can
be resumed, and then is in the state it was in before, with the same variables and externals and
without a note. -/
theorem Blueprint.suspension_transparent {written : Blueprint} {declared : List External}
    {machine : Machine}
    (built : (declared.foldl declareExternal { written with externals := [] }).build = .ok machine)
    (operations : List Instance.Operation) :
    ∃ running, operations.foldl Instance.perform machine.start = running ∧
      (running.resumeState.isSome = true → running.isSuspended = true) ∧
      (∀ suspended, machine.suspendState = some suspended →
        running.resumeState ≠ some suspended ∧
          running.resumeStateName? ≠ some (machine.stateName suspended)) ∧
      (running.suspend.1 = true → ∀ inputs : List Instance.StepInput, ∃ stepped,
        Instance.stepAll inputs running.suspend.2 = .ok stepped ∧
        stepped.resume.1 = true ∧
        stepped.resume.2.currentState = running.currentState ∧
        stepped.resume.2.currentStateName = running.currentStateName ∧
        stepped.resume.2.variableValues = running.variableValues ∧
        stepped.resume.2.externals = running.externals ∧
        stepped.resume.2.resumeState = none) := by
  have none : DistinctExternals { written with externals := [] } := List.nodup_nil
  have distinct := distinctExternals_foldl declared none
  have within := (Instance.kept_within machine).lifetime operations (distinct.start_within built)
  have noted : (operations.foldl Instance.perform machine.start).Noted :=
    Instance.kept_noted.lifetime operations (Instance.noted_of_none rfl)
  generalize operations.foldl Instance.perform machine.start = running at within noted
  refine ⟨running, rfl, fun present => ?_, fun _ => within.resumeState_ne noted, ?_⟩
  · obtain ⟨resumed, isResumed⟩ := Option.isSome_iff_exists.mp present
    exact (noted resumed isResumed).1
  · intro moved inputs
    obtain ⟨there, suspended, _, back⟩ := Instance.resume_suspend moved
    refine ⟨running.suspend.2, Instance.stepAll_of_isSuspended there inputs, ?_⟩
    rw [back]
    exact ⟨rfl, rfl, rfl, rfl, rfl, rfl⟩

namespace Door

/-- The door is started anew while it is locked, and then opened. -/
def reopened : List Instance.Operation :=
  [.suspend, .restart, .setExternal "push" (.bool true), step]

/-- Two tries at a locked door. -/
def tries : List Instance.StepInput :=
  .replicate 2 ⟨0, [], { names := [], results := [] }, .new .empty 0⟩

/-- A door that stands open is locked, tried twice and unlocked, and stands open again. -/
theorem locked_and_unlocked : ∃ running stepped,
    reopened.foldl Instance.perform machine.start = running ∧
      running.currentStateName = "Open" ∧ running.suspend.1 = true ∧
      running.suspend.2.currentStateName = "Locked" ∧
      Instance.stepAll tries running.suspend.2 = .ok stepped ∧ stepped.resume.1 = true ∧
      stepped.resume.2.currentStateName = "Open" ∧
      stepped.resume.2.externals = [{ push with value := .bool true }] := by
  have built : ([push].foldl Blueprint.declareExternal { blueprint with externals := [] }).build =
      .ok machine := by
    rfl
  obtain ⟨running, isRunning, _, _, transparent⟩ :=
    Blueprint.suspension_transparent built reopened
  have moved : running.suspend.1 = true := by
    rw [← isRunning]
    rfl
  have isOpen : running.currentStateName = "Open" := by
    rw [← isRunning]
    rfl
  obtain ⟨stepped, made, resumed, _, sameName, _, sameExternals, _⟩ := transparent moved tries
  refine ⟨running, stepped, isRunning, isOpen, moved, ?_, made, resumed, sameName.trans isOpen,
    sameExternals.trans ?_⟩
  · rw [← isRunning]
    rfl
  · rw [← isRunning]
    rfl

end Door

end TimedKripke
