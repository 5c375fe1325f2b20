import TimedKripke.Pool.Executable
import TimedKripke.Proofs.OrderedMap
import TimedKripke.Proofs.Outcome
import TimedKripke.Proofs.Program.Run

/-! # What a step depends on

A machine learns about the world around it from its clock and from the directory alone, and
only what it asks for. `Context.elsewhere` is a context in another world. A program runs there
as it does here if the thresholds it asked about read the same (`Clock.ReadsAs`) and the other
requests it may make are answered the same (`Program.run_elsewhere`); so does a whole step
(`Executable.step_elsewhere`).
-/

namespace TimedKripke

namespace Clock

/-- The clock standing at another time. -/
def movedTo (clock : Clock) (time : Time) : Clock :=
  { clock with elapsed := time }

/-- Every threshold asked about would have been answered the same at another time. -/
def ReadsAs (clock : Clock) (time : Time) : Prop :=
  ∀ threshold ∈ clock.queried, threshold < clock.elapsed ↔ threshold < time

/-- A clock at another time answers the same question in the same way, if that time is on the same
side of every threshold asked about. -/
theorem after_movedTo {clock : Clock} {threshold time : Time}
    (readsAs : (clock.after threshold).2.ReadsAs time) :
    (clock.movedTo time).after threshold =
      ((clock.after threshold).1, (clock.after threshold).2.movedTo time) := by
  have same := readsAs threshold (OrderedSet.mem_insert.mpr (.inl rfl))
  exact Prod.ext (decide_eq_decide.mpr same.symm) rfl

/-- A later state of a clock: it stands still and forgets no threshold. -/
structure Leads (earlier later : Clock) : Prop where
  elapsed : later.elapsed = earlier.elapsed
  asked : ∀ threshold ∈ earlier.queried, threshold ∈ later.queried
  ascending : earlier.queried.Pairwise (· < ·) → later.queried.Pairwise (· < ·)

theorem Leads.rfl {clock : Clock} : Leads clock clock :=
  ⟨Eq.refl _, fun _ asked => asked, fun ascending => ascending⟩

theorem Leads.trans {first second third : Clock} (earlier : Leads first second)
    (later : Leads second third) : Leads first third :=
  ⟨later.elapsed.trans earlier.elapsed,
    fun threshold asked => later.asked threshold (earlier.asked threshold asked),
    fun ascending => later.ascending (earlier.ascending ascending)⟩

/-- Asking about a threshold leads to a clock that remembers it. -/
theorem Leads.after (clock : Clock) (threshold : Time) : Leads clock (clock.after threshold).2 :=
  ⟨Eq.refl _, fun _ asked => OrderedSet.mem_insert.mpr (.inr asked), OrderedSet.pairwise_insert⟩

/-- A time that a later clock cannot tell from its own cannot be told apart earlier on, when fewer
thresholds were known. -/
theorem Leads.readsAs {earlier later : Clock} (leads : Leads earlier later) {time : Time}
    (readsAs : later.ReadsAs time) : earlier.ReadsAs time := by
  intro threshold asked
  rw [← leads.elapsed]
  exact readsAs threshold (leads.asked threshold asked)

end Clock

/-- What a machine can learn about the world around it. -/
structure World where
  directory : Directory
  time : Time

/-- The request is answered in both worlds alike, whatever thresholds read as. -/
structure Request.Unaffected (request : Request) (here there : World) : Prop where
  names : there.directory.names = here.directory.names
  /-- A result that is asked for is the same. -/
  result : ∀ name, request = .resultOf name → ∀ id, here.directory.id? name = some id →
    there.directory.result? id = here.directory.result? id
  /-- The time itself is asked for only if it is the same. -/
  time : request = .elapsed → there.time = here.time

namespace Context

/-- The world around a context. -/
def world (context : Context) : World :=
  { directory := context.directory, time := context.clock.elapsed }

/-- The context in another world. -/
def elsewhere (context : Context) (world : World) : Context :=
  { context with
    directory := world.directory
    clock := context.clock.movedTo world.time }

variable {context : Context} {there : World}

/-- A later context of a step: the directory is the same and the clock a later one. -/
structure Leads (earlier later : Context) : Prop where
  directory : later.directory = earlier.directory
  clock : Clock.Leads earlier.clock later.clock

theorem Leads.rfl {context : Context} : Leads context context :=
  ⟨Eq.refl _, .rfl⟩

/-- The directory and the time are the same in a later context. -/
theorem Leads.world {earlier later : Context} (leads : Leads earlier later) :
    later.world = earlier.world := by
  rw [Context.world, leads.directory, leads.clock.elapsed, Context.world]

/-- Answering a request leads to a later context. -/
theorem leads_answer (context : Context) (request : Request) :
    Leads context (context.answer request).2 := by
  cases request with
  | setVariable name value =>
      change Leads context (context.setVariable name value).2
      unfold setVariable
      split
      · exact .rfl
      · split <;> exact ⟨Eq.refl _, .rfl⟩
  | setExternal name value =>
      change Leads context (context.setExternal name value).2
      unfold setExternal
      split
      · exact .rfl
      · split <;> exact ⟨Eq.refl _, .rfl⟩
  | call method name parameters =>
      change Leads context (context.call method name parameters).2
      unfold call
      split <;> exact ⟨Eq.refl _, .rfl⟩
  | after threshold => exact ⟨Eq.refl _, .after context.clock threshold⟩
  | setResult value => exact ⟨Eq.refl _, .rfl⟩
  | _ => exact .rfl

/-- A context that leads to another one leads to what follows from it by a request. -/
theorem Leads.answer {earlier later : Context} (leads : Leads earlier later) (request : Request) :
    Leads earlier (later.answer request).2 := by
  have next := leads_answer later request
  exact ⟨next.directory.trans leads.directory, leads.clock.trans next.clock⟩

/-- **One request elsewhere** is answered as it is here, if the other world does not affect it and
its time reads as the time here. -/
theorem answer_elsewhere {request : Request} (unaffected : request.Unaffected context.world there)
    (readsAs : (context.answer request).2.clock.ReadsAs there.time) :
    (context.elsewhere there).answer request =
      ((context.answer request).1, (context.answer request).2.elsewhere there) := by
  have sameId : ∀ name, there.directory.id? name = context.directory.id? name := by
    intro name
    rw [Directory.id?, unaffected.names]
    rfl
  cases request with
  | resultOf name =>
      refine Prod.ext ?_ rfl
      change (there.directory.id? name).bind there.directory.result? =
        (context.directory.id? name).bind context.directory.result?
      rw [sameId]
      exact Option.bind_congr fun id found => unaffected.result name rfl id found
  | elapsed => exact Prod.ext (unaffected.time rfl) rfl
  | after threshold =>
      have asked : (context.clock.movedTo there.time).after threshold = _ :=
        Clock.after_movedTo readsAs
      have answer := congrArg Prod.fst asked
      exact Prod.ext answer rfl
  | setVariable name value =>
      change (context.elsewhere there).setVariable name value =
        ((context.setVariable name value).1, (context.setVariable name value).2.elsewhere there)
      unfold setVariable elsewhere
      cases context.machine.variableType? name with
      | none => rfl
      | some type =>
          dsimp only
          by_cases written : (OrderedMap.contains context.variableValues name &&
              type.accepts value) = true
          · rw [if_pos written, if_pos written]
          · rw [if_neg written, if_neg written]
  | setExternal name value =>
      change (context.elsewhere there).setExternal name value =
        ((context.setExternal name value).1, (context.setExternal name value).2.elsewhere there)
      unfold setExternal elsewhere
      cases External.find? context.externals name with
      | none => rfl
      | some declared =>
          dsimp only
          by_cases written : declared.type.accepts value = true
          · rw [if_pos written, if_pos written]
          · rw [if_neg written, if_neg written]
  | call method name parameters =>
      change (context.elsewhere there).call method name parameters =
        ((context.call method name parameters).1,
          (context.call method name parameters).2.elsewhere there)
      unfold call elsewhere
      dsimp only
      rw [sameId]
      cases context.directory.id? name <;> rfl
  | _ => rfl

end Context

variable {α : Type}

namespace Program

/-- Running a program leads to a later context, by induction on the program. -/
theorem leads_run (program : Program α) (context : Context) :
    Context.Leads context (program.run context).2 :=
  program.run_preserves (fun request _ _ leads => leads.answer request) Context.Leads.rfl

/-- **A program elsewhere** runs as it does here, if none of the requests it may make is affected.
The induction follows the program. -/
theorem run_elsewhere {there : World} (program : Program α) : ∀ {context : Context},
    (∀ request, program.MayRequest request → request.Unaffected context.world there) →
      (program.run context).2.clock.ReadsAs there.time →
        program.run (context.elsewhere there) =
          ((program.run context).1, (program.run context).2.elsewhere there) := by
  induction program with
  | done result => exact fun _ _ => rfl
  | ask request next rest =>
      intro context unaffected readsAs
      have later := leads_run (next (context.answer request).1) (context.answer request).2
      have answered := Context.answer_elsewhere (unaffected request (.here request next))
        (later.clock.readsAs readsAs)
      rw [run, answered]
      refine rest _ (fun other may => ?_) readsAs
      rw [(context.leads_answer request).world]
      exact unaffected other (.later _ may)

/-- Running a program that may be absent leads to a later context. -/
theorem leads_runOptional (program : Option (Program Unit)) (context : Context) :
    Context.Leads context (runOptional program context) :=
  runOptional_preserves program (fun _ _ request _ _ leads => leads.answer request)
    Context.Leads.rfl

/-- A program that may be absent runs elsewhere as it runs here, if none of its requests is
affected. -/
theorem runOptional_elsewhere {there : World} (program : Option (Program Unit)) {context : Context}
    (unaffected : ∀ present ∈ program, ∀ request, present.MayRequest request →
      request.Unaffected context.world there)
    (readsAs : (runOptional program context).clock.ReadsAs there.time) :
    runOptional program (context.elsewhere there) =
        (runOptional program context).elsewhere there := by
  cases program with
  | none => rfl
  | some program =>
      exact congrArg Prod.snd (program.run_elsewhere (unaffected program rfl) readsAs)

end Program

namespace Transition

/-- Evaluating guards leads to a later context. -/
theorem leads_firstFiring (transitions : List Transition) (context : Context) :
    Context.Leads context (firstFiring transitions context).2 :=
  firstFiring_preserves transitions (fun _ _ request _ _ leads => leads.answer request)
    Context.Leads.rfl

/-- The same transition fires elsewhere, if the guards make no request that is affected and the time
there reads as the time here. -/
theorem firstFiring_elsewhere {there : World} (transitions : List Transition) :
    ∀ {context : Context}, (∀ transition ∈ transitions, ∀ request,
      transition.guard.MayRequest request → request.Unaffected context.world there) →
        (firstFiring transitions context).2.clock.ReadsAs there.time →
          firstFiring transitions (context.elsewhere there) =
            ((firstFiring transitions context).1,
              (firstFiring transitions context).2.elsewhere there) := by
  induction transitions with
  | nil => exact fun _ _ => rfl
  | cons transition rest others =>
      intro context unaffected readsAs
      have leads := transition.guard.leads_run context
      -- The clock after the guard reads the same, whether or not later guards are asked.
      have asked : (transition.guard.run context).2.clock.ReadsAs there.time := by
        rw [firstFiring] at readsAs
        split at readsAs
        · exact readsAs
        · exact (leads_firstFiring rest _).clock.readsAs readsAs
      have guard := transition.guard.run_elsewhere (unaffected transition List.mem_cons_self) asked
      rw [firstFiring] at readsAs ⊢
      rw [firstFiring, guard]
      dsimp only
      split
      · rfl
      · rename_i refused
        rw [if_neg refused] at readsAs
        refine others (fun other member request may => ?_) readsAs
        rw [leads.world]
        exact unaffected other (List.mem_cons_of_mem _ member) request may

end Transition

namespace Instance

/-- Entering a state leads to a later context. -/
theorem leads_entered (state : MachineState) (entryPending : Bool) (context : Context) :
    Context.Leads context (state.entered entryPending context) := by
  unfold MachineState.entered
  split
  · exact Program.leads_runOptional state.onEntry context
  · exact Context.Leads.rfl

/-- **The programs of a state elsewhere** run as they do here, and the same transition fires. -/
theorem runState_elsewhere {there : World} {state : MachineState} {entryPending : Bool}
    (context : Context) (unaffected : ∀ request, state.MayRequest request →
      request.Unaffected context.world there)
    (readsAs : (runState state entryPending context).2.clock.ReadsAs there.time) :
    runState state entryPending (context.elsewhere there) =
      ((runState state entryPending context).1,
        (runState state entryPending context).2.elsewhere there) := by
  have entry := leads_entered state entryPending context
  have firing := Transition.leads_firstFiring state.transitions (state.entered entryPending context)
  have last : Context.Leads
      (Transition.firstFiring state.transitions (state.entered entryPending context)).2
      (runState state entryPending context).2 := by
    rw [runState_eq]
    split
    · rename_i fired isFired
      rw [isFired]
      exact Program.leads_runOptional state.onExit fired
    · rename_i fired isFired
      rw [isFired]
      exact Program.leads_runOptional state.internal fired
  have enteredThere : state.entered entryPending (context.elsewhere there) =
      (state.entered entryPending context).elsewhere there := by
    have readsAsEntered := firing.clock.readsAs (last.clock.readsAs readsAs)
    unfold MachineState.entered at readsAsEntered ⊢
    split
    · rename_i pending
      rw [if_pos pending] at readsAsEntered
      exact Program.runOptional_elsewhere state.onEntry
        (fun _ present request may => unaffected request (.onEntry present may)) readsAsEntered
    · rfl
  have firedThere := Transition.firstFiring_elsewhere state.transitions
    (fun transition member request may => (entry.world ▸ unaffected request (.guard member may) :
      request.Unaffected (state.entered entryPending context).world there))
    (last.clock.readsAs readsAs)
  have world : (Transition.firstFiring state.transitions
      (state.entered entryPending context)).2.world = context.world :=
        firing.world.trans entry.world
  rw [runState_eq] at readsAs ⊢
  rw [runState_eq, enteredThere, firedThere]
  cases isFired : Transition.firstFiring state.transitions (state.entered entryPending context) with
  | mk target fired =>
      rw [isFired] at readsAs world
      cases target with
      | some target =>
          exact congrArg (Prod.mk _) (Program.runOptional_elsewhere state.onExit
            (fun _ present request may => world ▸ unaffected request (.onExit present may)) readsAs)
      | none =>
          exact congrArg (Prod.mk _) (Program.runOptional_elsewhere state.internal
            (fun _ present request may => world ▸ unaffected request (.internal present may))
              readsAs)

/-- Running a state leads to a later context. -/
theorem leads_runState (state : MachineState) (entryPending : Bool) (context : Context) :
    Context.Leads context (runState state entryPending context).2 :=
  runState_preserves state entryPending (fun request _ _ leads => leads.answer request) .rfl

end Instance

/-- The outcome with the clock standing at another time. -/
def StepOutcome.movedTo (outcome : StepOutcome) (time : Time) : StepOutcome :=
  { outcome with clock := outcome.clock.movedTo time }

section Step

variable {id : ExecutableId} {directory : Directory} {clock : Clock}

namespace Instance

variable {running stepped : Instance} {arguments : PropertyList} {outcome : StepOutcome}

/-- A step that succeeds leaves the clock at a later one. -/
theorem leads_step (made : running.step id arguments directory clock = .ok (outcome, stepped)) :
    Clock.Leads clock outcome.clock := by
  unfold step at made
  split at made
  · cases made
    exact .rfl
  · split at made
    · cases made
    · rename_i state _
      cases made
      exact (leads_runState state running.entryPending
        (running.context id arguments directory clock)).clock

/-- **A step of a machine elsewhere** is the step it makes here, with the clock moved to the time
there. -/
theorem step_elsewhere (running : Instance) (id : ExecutableId) (arguments : PropertyList)
    (there : World) (unaffected : ∀ request, running.machine.MayRequest request →
      request.Unaffected ⟨directory, clock.elapsed⟩ there)
    (readsAs : ∀ outcome stepped, running.step id arguments directory clock =
      .ok (outcome, stepped) →
      outcome.clock.ReadsAs there.time) :
    running.step id arguments there.directory (clock.movedTo there.time) =
      (running.step id arguments directory clock).map fun made =>
        (made.1.movedTo there.time, made.2) := by
  unfold step at readsAs ⊢
  by_cases idle : (running.isSuspended || running.hasFinished) = true
  · rw [if_pos idle, if_pos idle]
    rfl
  · rw [if_neg idle] at readsAs
    rw [if_neg idle, if_neg idle]
    cases found : running.machine.states[running.currentState]? with
    | none => rfl
    | some state =>
        rw [found] at readsAs
        have ran := runState_elsewhere (running.context id arguments directory clock)
          (fun request may => unaffected request ⟨state, List.mem_of_getElem? found, may⟩)
          (readsAs _ _ rfl)
        have moved : running.context id arguments there.directory (clock.movedTo there.time) =
            (running.context id arguments directory clock).elsewhere there := rfl
        simp only [moved, ran]
        rfl

end Instance

namespace CallableMachine

/-- A called machine steps elsewhere as it steps here: with the same outcome, and a clock that has
been moved. -/
theorem step_elsewhere (served : CallableMachine) (id : ExecutableId) (there : World)
    (unaffected : ∀ request, served.running.machine.MayRequest request →
      request.Unaffected ⟨directory, clock.elapsed⟩ there)
    (readsAs : ∀ outcome stepped, served.step id directory clock = .ok (outcome, stepped) →
      outcome.clock.ReadsAs there.time) :
    served.step id there.directory (clock.movedTo there.time) =
      (served.step id directory clock).map fun made => (made.1.movedTo there.time, made.2) := by
  unfold step at readsAs ⊢
  cases status : served.status with
  | inactive => rfl
  | executing =>
      rw [status] at readsAs
      have ran := Instance.step_elsewhere served.running id served.arguments there unaffected
        fun outcome stepped made => by
          rw [made] at readsAs
          exact readsAs _ _ rfl
      simp only [ran]
      cases served.running.step id served.arguments directory clock with
      | error fault => rfl
      | ok made => rfl

end CallableMachine

namespace Executable

variable {executable stepped : Executable} {outcome : StepOutcome}

/-- A step of an executable leaves the clock at a later one, whether the executable is scheduled or
called. -/
theorem leads_step (made : executable.step id directory clock = .ok (outcome, stepped)) :
    Clock.Leads clock outcome.clock := by
  cases executable with
  | scheduled running =>
      obtain ⟨made, steps, same⟩ := Outcome.map_eq_ok.mp made
      cases same
      exact Instance.leads_step steps
  | callable served =>
      obtain ⟨made, steps, same⟩ := Outcome.map_eq_ok.mp made
      cases same
      unfold CallableMachine.step at steps
      split at steps
      · cases steps
        exact .rfl
      · split at steps
        · cases steps
        · rename_i ran
          cases steps
          exact Instance.leads_step ran

/-- **A step of an executable elsewhere** is the step it makes here, with the clock moved to the
time there. -/
theorem step_elsewhere (executable : Executable) (id : ExecutableId) (there : World)
    (unaffected : ∀ request, executable.running.machine.MayRequest request →
      request.Unaffected ⟨directory, clock.elapsed⟩ there)
    (readsAs : ∀ outcome stepped, executable.step id directory clock = .ok (outcome, stepped) →
      outcome.clock.ReadsAs there.time) :
    executable.step id there.directory (clock.movedTo there.time) =
      (executable.step id directory clock).map fun made => (made.1.movedTo there.time, made.2) := by
  cases executable with
  | scheduled running =>
      have ran := Instance.step_elsewhere running id [] there unaffected
        fun outcome stepped made => readsAs outcome (.scheduled stepped)
          (Outcome.map_eq_ok.mpr ⟨_, made, rfl⟩)
      rw [step, step, ran, Outcome.map_map, Outcome.map_map]
  | callable served =>
      have ran := CallableMachine.step_elsewhere served id there unaffected
        fun outcome stepped made => readsAs outcome (.callable stepped)
          (Outcome.map_eq_ok.mpr ⟨_, made, rfl⟩)
      rw [step, step, ran, Outcome.map_map, Outcome.map_map]

end Executable

end Step

end TimedKripke
