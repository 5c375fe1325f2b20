import Mathlib
import TimedKripke.Proofs.Ringlet.Intervals
import TimedKripke.Proofs.Variation.Inputs

/-! # Variations are the executions of a section

In an environment, and at given times, a section runs in one way: before each timeslot the
inputs that its machine observes are copied from the environment, and then the timeslot is
executed (`runSlots`). The variations of a section hold exactly one path for that
(`existsUnique_path`), and the path ends in the same pool by the same effects.
-/

namespace TimedKripke

/-- Gives the scheduled executable the inputs it observes and executes the timeslot. -/
def runSlot (valuation : Valuation) (timing : ScheduleTiming) (pool : Pool) (slot : Timeslot)
    (time : Time) : Except Fault (Pool × Execution) := do
  let executable ← pool.get slot.executable
  let assigned ← pool.assign slot.executable (executable.running.readings valuation)
  let executed := executeTimeslot assigned slot (Clock.new timing time)
  executed.1.map fun execution => (executed.2.pool, execution)

/-- Runs timeslots in order on one pool, each at its own time. -/
def runSlots (valuation : Valuation) (timing : ScheduleTiming) (pool : Pool) :
    List (Timeslot × Time) → Except Fault (Pool × List Execution)
  | [] => .ok (pool, [])
  | (slot, time) :: rest => do
      let ran ← runSlot valuation timing pool slot time
      (runSlots valuation timing ran.1 rest).map fun later => (later.1, ran.2 :: later.2)

namespace SectionStep

/-- The step was given the inputs of the environment and stands for the time. -/
def follows (valuation : Valuation) (time : Time) (step : SectionStep) : Bool :=
  valuation.agrees step.assignments && step.conditional.standsFor time

/-- There is one step for each time, and every step follows. -/
def allFollow (valuation : Valuation) : List SectionStep → List Time → Bool
  | [], [] => true
  | step :: steps, time :: times => step.follows valuation time && allFollow valuation steps times
  | _, _ => false

/-- What the step did. -/
def execution (step : SectionStep) : Execution :=
  { transitioned := step.ringlet.transitioned, calls := step.ringlet.calls }

end SectionStep

/-- At every timeslot the inputs observed then are given values of their types. -/
def Fits (valuation : Valuation) (timing : ScheduleTiming) (pool : Pool) :
    List (Timeslot × Time) → Prop
  | [] => True
  | (slot, time) :: rest =>
      (∀ executable, pool.get? slot.executable = some executable →
        ∀ input ∈ executable.running.observedInputs,
          input.type.accepts (valuation input.name) = true) ∧
      ∀ ran, runSlot valuation timing pool slot time = .ok ran → Fits valuation timing ran.1 rest

namespace SectionBranch

variable {valuation : Valuation} {timing : ScheduleTiming} {slot : Timeslot}
  {branch : SectionBranch}

/-- The step by which a branch goes through a timeslot. -/
def stepThrough (slot : Timeslot) (assignments : PropertyList) (conditional : ConditionalRinglet) :
    SectionStep :=
  { timeslot := slot.withIdleSteps (idleCount slot conditional.ringlet)
    conditional
    assignments }

/-- Extending a branch appends a step and leaves those before it. -/
theorem steps_extend (snapshot : Pool) (assignments : PropertyList)
    (conditional : ConditionalRinglet) :
    (branch.extend slot snapshot assignments conditional).steps =
      branch.steps ++ [stepThrough slot assignments conditional] :=
  rfl

/-- The branch took its last step in the environment and at the time. -/
def justFollowed (valuation : Valuation) (time : Time) (branch : SectionBranch) : Bool :=
  branch.steps.getLast?.any (SectionStep.follows valuation time)

/-- An extended branch has just followed the environment if what the timeslot was given agrees with
it and the ringlet stands for the time. -/
theorem justFollowed_extend (time : Time) (snapshot : Pool) (assignments : PropertyList)
    (conditional : ConditionalRinglet) :
    (branch.extend slot snapshot assignments conditional).justFollowed valuation time =
      (valuation.agrees assignments && conditional.standsFor time) := by
  simp [justFollowed, extend, SectionStep.follows]

/-- The observed inputs of a well-formed instance have distinct names. -/
theorem nodup_observedInputs {running : Instance} (wellFormed : running.WellFormed) :
    (running.observedInputs.map External.name).Nodup := by
  unfold Instance.observedInputs
  split
  · exact List.nodup_nil
  · exact (List.filter_sublist.map _).nodup wellFormed.distinctExternals

/-- An assignment that disagrees with the environment has no branch for it. -/
theorem filter_expandAssignment_eq_nil {assignments : PropertyList}
    (disagrees : valuation.agrees assignments = false) {children : List SectionBranch}
    (expanded : branch.expandAssignment timing slot assignments = .ok children) (time : Time) :
    children.filter (justFollowed valuation time) = [] := by
  obtain ⟨pool, snapshot, ringlets, _, _, _, rfl⟩ := expandAssignment_eq_ok expanded
  rw [List.filter_eq_nil_iff]
  intro child member
  obtain ⟨conditional, _, rfl⟩ := List.mem_map.mp member
  simp [justFollowed_extend, disagrees]

/-- An assignment that agrees with the environment has one branch for every time, and it is the
execution of the timeslot at that time. -/
theorem filter_expandAssignment (wellFormed : branch.pool.WellFormed)
    (untimed : branch.pool.Untimed) {assignments : PropertyList}
    (agrees : valuation.agrees assignments = true) {children : List SectionBranch}
    (expanded : branch.expandAssignment timing slot assignments = .ok children) (time : Time) :
    ∃ pool snapshot conditional, branch.pool.assign slot.executable assignments = .ok pool ∧
      children.filter (justFollowed valuation time) =
        [branch.extend slot snapshot assignments conditional] ∧
      conditional.standsFor time = true ∧
      Ringlet.execute pool slot timing time = .ok (conditional.ringlet.movedTo time) := by
  obtain ⟨pool, snapshot, ringlets, isPool, _, sampled, rfl⟩ := expandAssignment_eq_ok expanded
  have descends := wellFormed.descends.assign isPool
  obtain ⟨conditional, isConditional, executed⟩ := Ringlet.filter_timeAware descends.wellFormed
    (untimed.of_descends descends) UInt64.zero_le sampled
  refine ⟨pool, snapshot, conditional, isPool, ?_, ?_, executed⟩
  · have sameChoice : justFollowed valuation time ∘ branch.extend slot snapshot assignments =
        ConditionalRinglet.standsFor time := by
      funext other
      rw [Function.comp_apply, justFollowed_extend, agrees, Bool.true_and]
    rw [List.filter_map, sameChoice, isConditional]
    rfl
  · have member : conditional ∈ ringlets.filter (ConditionalRinglet.standsFor time) := by
      rw [isConditional]
      exact List.mem_cons_self
    exact (List.mem_filter.mp member).2

/-- Running a timeslot is reading the inputs and executing the ringlet. -/
theorem runSlot_of_execute {pool assigned : Pool} {executable : Executable} {time : Time}
    {ringlet : Ringlet} (found : pool.get? slot.executable = some executable)
    (isAssigned : pool.assign slot.executable (executable.running.readings valuation) =
      .ok assigned)
    (executed : Ringlet.execute assigned slot timing time = .ok ringlet) :
    runSlot valuation timing pool slot time =
      .ok (ringlet.after, { transitioned := ringlet.transitioned, calls := ringlet.calls }) := by
  obtain ⟨_, execution, final, _, _, ran, _, rfl⟩ := Ringlet.execute_eq_ok executed
  rw [runSlot, Pool.get_eq_ok_iff.mpr found]
  simp only [bind, Except.bind, isAssigned, ran]
  rfl

/-- Running a timeslot leaves a descendant of the pool. -/
theorem runSlot_descends {origin pool : Pool} (descends : Pool.Descends origin pool) {time : Time}
    {ran : Pool × Execution} (isRan : runSlot valuation timing pool slot time = .ok ran) :
    Pool.Descends origin ran.1 := by
  unfold runSlot at isRan
  obtain ⟨executable, _, isRan⟩ := Outcome.bind_eq_ok.mp isRan
  obtain ⟨assigned, isAssigned, isRan⟩ := Outcome.bind_eq_ok.mp isRan
  obtain ⟨execution, _, rfl⟩ := Outcome.map_eq_ok.mp isRan
  exact executeTimeslot_descends (descends.assign isAssigned) slot _

/-- **One timeslot.** Of the branches of a timeslot exactly one is for the environment and the
time, and it ends as the timeslot does when it is run in the environment at the time. -/
theorem filter_expand (wellFormed : branch.pool.WellFormed) (untimed : branch.pool.Untimed)
    (reads : branch.Reads valuation)
    (accepted : ∀ executable, branch.pool.get? slot.executable = some executable →
      ∀ input ∈ executable.running.observedInputs,
        input.type.accepts (valuation input.name) = true)
    {children : List SectionBranch} (expanded : branch.expand timing slot = .ok children)
    (time : Time) :
    ∃ snapshot assignments conditional,
      children.filter (justFollowed valuation time) =
        [branch.extend slot snapshot assignments conditional] ∧
      valuation.agrees assignments = true ∧ conditional.standsFor time = true ∧
      runSlot valuation timing branch.pool slot time =
        .ok (conditional.ringlet.after,
          { transitioned := conditional.ringlet.transitioned,
              calls := conditional.ringlet.calls }) := by
  obtain ⟨executable, combinations, branches, found, made, visited, rfl⟩ := expand_eq_ok expanded
  have distinct := nodup_observedInputs (wellFormed.get? found)
  have chosen := filter_assignments reads distinct (accepted executable found) made
  have readings : branch.assigned executable.running.observedInputs
      (((branch.free executable.running.observedInputs).map Prod.fst).map valuation) =
        executable.running.readings valuation :=
    (assigned_eq reads _).trans (readings_eq _ _).symm
  have agrees : valuation.agrees (executable.running.readings valuation) = true := by
    rw [readings_eq]
    exact Valuation.agrees_ofList _
  obtain ⟨answer, answered, kept⟩ := Outcome.filter_flatten_of_chosen visited chosen
    fun tuple _ disagrees answer answered =>
      filter_expandAssignment_eq_nil disagrees answered time
  rw [← assigned, readings] at answered
  obtain ⟨pool, snapshot, conditional, isPool, isOnly, stands, executed⟩ :=
    filter_expandAssignment wellFormed untimed agrees answered time
  have ran := runSlot_of_execute found isPool executed
  exact ⟨snapshot, executable.running.readings valuation, conditional, kept.trans isOnly, agrees,
    stands, ran⟩

/-- The steps that were taken stay the first steps. -/
theorem prefix_of_explore {slots : List Timeslot} {outcomes : List SectionBranch}
    (explored : Search.explore (expand timing) slots branch = .ok outcomes) :
    ∀ outcome ∈ outcomes, branch.steps <+: outcome.steps := by
  refine @Search.explore_preserves _ _ _ _ (fun _ later => branch.steps <+: later.steps) ?_ slots
    branch outcomes List.prefix_rfl explored
  intro slot slots later children taken expanded child member
  obtain ⟨_, _, _, _, _, _, _, _, rfl⟩ := mem_expand expanded member
  exact taken.trans (List.prefix_append _ _)

/-- The steps after those of a branch follow the environment through the times. -/
def followsFrom (valuation : Valuation) (taken : Nat) (times : List Time) (branch : SectionBranch) :
    Bool :=
  SectionStep.allFollow valuation (branch.steps.drop taken) times

/-- A branch follows if its next step does and the steps after that do. -/
theorem followsFrom_cons {step : SectionStep} {outcome : SectionBranch}
    (taken : branch.steps ++ [step] <+: outcome.steps) (time : Time) (times : List Time) :
    outcome.followsFrom valuation branch.steps.length (time :: times) =
      (step.follows valuation time &&
        outcome.followsFrom valuation (branch.steps.length + 1) times) := by
  obtain ⟨later, isLater⟩ := taken
  have next : outcome.steps.drop branch.steps.length = step :: later := by
    rw [← isLater, List.append_assoc, List.drop_left]
    rfl
  have rest : outcome.steps.drop (branch.steps.length + 1) = later := by
    have whole : (branch.steps ++ [step]).length = branch.steps.length + 1 := by simp
    rw [← isLater, ← whole, List.drop_left]
  rw [followsFrom, followsFrom, next, rest, SectionStep.allFollow]

/-- A branch that has read what the environment gives goes on to do so, if the new assignments agree
with it. -/
theorem Reads.extend {snapshot : Pool} {assignments : PropertyList}
    {conditional : ConditionalRinglet} (reads : branch.Reads valuation)
    (agrees : valuation.agrees assignments = true) :
    (branch.extend slot snapshot assignments conditional).Reads valuation := by
  intro name value found
  change (OrderedMap.extend branch.fixed assignments).lookup name = some value at found
  rw [OrderedMap.lookup_extend, Option.or_eq_some_iff] at found
  rcases found with here | ⟨_, earlier⟩
  · have member := List.mem_reverse.mp (OrderedMap.mem_of_lookup here)
    exact beq_iff_eq.mp (List.all_eq_true.mp agrees _ member)
  · exact reads earlier

/-- **All timeslots.** Exactly one outcome follows an environment through given times, and it is
what running the timeslots leaves. -/
theorem filter_explore {origin : Pool} (untimed : origin.Untimed) {slots : List Timeslot} :
    ∀ {times : List Time} {branch : SectionBranch} {outcomes : List SectionBranch},
      times.length = slots.length → Pool.Descends origin branch.pool → branch.Reads valuation →
        Fits valuation timing branch.pool (slots.zip times) →
          Search.explore (expand timing) slots branch = .ok outcomes →
            ∃ outcome later, outcome.steps = branch.steps ++ later ∧
              outcomes.filter (followsFrom valuation branch.steps.length times) = [outcome] ∧
              runSlots valuation timing branch.pool (slots.zip times) =
                .ok (outcome.pool, later.map SectionStep.execution) := by
  induction slots with
  | nil =>
      intro times branch outcomes counted _ _ _ explored
      cases List.eq_nil_of_length_eq_zero counted
      cases explored
      refine ⟨branch, [], (List.append_nil _).symm, ?_, rfl⟩
      simp [followsFrom, SectionStep.allFollow]
  | cons slot slots others =>
      intro times branch outcomes counted descends reads fits explored
      cases times with
      | nil => cases counted
      | cons time times =>
          obtain ⟨children, inside, expanded, mapped, rfl⟩ := Search.explore_cons_eq_ok.mp explored
          obtain ⟨snapshot, assignments, conditional, isOnly, agrees, stands, ran⟩ :=
            filter_expand descends.wellFormed (untimed.of_descends descends) reads fits.1 expanded
              time
          -- Outcomes of another child fail at this step, those of this child only later on.
          have fails : ∀ child ∈ children, child.justFollowed valuation time = false →
              ∀ answer, Search.explore (expand timing) slots child = .ok answer →
                answer.filter (followsFrom valuation branch.steps.length (time :: times)) = [] := by
            intro child isChild unchosen answer answered
            obtain ⟨_, _, _, other, _, _, _, _, rfl⟩ := mem_expand expanded isChild
            rw [justFollowed_extend] at unchosen
            rw [List.filter_eq_nil_iff]
            intro outcome member
            rw [followsFrom_cons (prefix_of_explore answered outcome member), SectionStep.follows,
              unchosen]
            exact Bool.false_ne_true
          obtain ⟨answer, answered, kept⟩ :=
            Outcome.filter_flatten_of_chosen mapped isOnly fails
          have after := runSlot_descends descends ran
          obtain ⟨outcome, later, steps, isOutcome, runs⟩ := others (Nat.succ.inj counted) after
            (reads.extend agrees) (fits.2 _ ran) answered
          refine ⟨outcome, stepThrough slot assignments conditional :: later, ?_, ?_, ?_⟩
          · rw [steps, steps_extend, List.append_assoc]
            rfl
          · have sameChoice : ∀ other ∈ answer,
                other.followsFrom valuation branch.steps.length (time :: times) =
                  other.followsFrom valuation (branch.steps.length + 1) times := by
              intro other member
              rw [followsFrom_cons (prefix_of_explore answered other member), SectionStep.follows]
              simp [agrees, stands]
            rw [kept, List.filter_congr sameChoice]
            rw [steps_extend, List.length_append] at isOutcome
            exact isOutcome
          · have rest : runSlots valuation timing conditional.ringlet.after (slots.zip times) =
                .ok (outcome.pool, later.map SectionStep.execution) := runs
            rw [List.zip_cons_cons, runSlots, ran]
            simp only [bind, Except.bind, rest]
            rfl

end SectionBranch

/-- The path runs in the environment and at the times. -/
def SectionPath.follows (valuation : Valuation) (times : List Time) (path : SectionPath) : Bool :=
  SectionStep.allFollow valuation path.steps times

/-- The environment gives every input of the scheduled machines a value of its type. -/
def SnapshotSection.Accepts (part : SnapshotSection) (pool : Pool) (valuation : Valuation) : Prop :=
  ∀ slot ∈ part.timeslots, ∀ executable, pool.get? slot.executable = some executable →
    ∀ input ∈ executable.running.externals, input.direction.isInput = true →
      input.type.accepts (valuation input.name) = true

/-- Pools of one frame have executables with the same externals, whatever these hold. -/
theorem Pool.Descends.signature {origin pool : Pool} (wellFormed : origin.WellFormed)
    (descends : Pool.Descends origin pool) {id : ExecutableId} {before after : Executable}
    (found : origin.get? id = some before) (foundAfter : pool.get? id = some after) :
    after.running.externals.map External.signature =
      before.running.externals.map External.signature := by
  have machine : after.running.machine = before.running.machine := Executable.machine_eq_of_frame
    (Pool.frame_of_get? descends.wellFormed.nodup descends.frame foundAfter found)
  rw [(descends.wellFormed.get? foundAfter).signature, (wellFormed.get? found).signature, machine]

/-- An input that is observed on the way is declared from the start. -/
theorem Pool.Descends.exists_declared {origin pool : Pool} (wellFormed : origin.WellFormed)
    (descends : Pool.Descends origin pool) {id : ExecutableId} {executable : Executable}
    (found : pool.get? id = some executable) {input : External}
    (observed : input ∈ executable.running.observedInputs) :
    ∃ before declared, origin.get? id = some before ∧ declared ∈ before.running.externals ∧
      declared.direction.isInput = true ∧ declared.name = input.name ∧
      declared.type = input.type := by
  obtain ⟨before, foundBefore, _⟩ := descends.exists_known found
  have same := descends.signature wellFormed foundBefore found
  unfold Instance.observedInputs at observed
  split at observed
  · cases observed
  · obtain ⟨present, isObserved⟩ := List.mem_filter.mp observed
    rw [Bool.and_eq_true] at isObserved
    obtain ⟨declared, isDeclared, alike⟩ := List.mem_map.mp
      (same ▸ List.mem_map_of_mem present :
        input.signature ∈ before.running.externals.map External.signature)
    have direction : declared.direction = input.direction := congrArg (fun known => known.2.1) alike
    exact ⟨before, declared, foundBefore, isDeclared, direction ▸ isObserved.1,
      congrArg Prod.fst alike, congrArg (fun known => known.2.2) alike⟩

/-- An environment that fits all inputs fits along every run. -/
theorem fits_of_accepts {part : SnapshotSection} {origin : Pool} (wellFormed : origin.WellFormed)
    {valuation : Valuation} (accepts : part.Accepts origin valuation) (timing : ScheduleTiming)
    {slots : List (Timeslot × Time)} : ∀ {pool : Pool}, Pool.Descends origin pool →
      (∀ slot ∈ slots, slot.1 ∈ part.timeslots) → Fits valuation timing pool slots := by
  induction slots with
  | nil => exact fun _ _ => trivial
  | cons slot rest others =>
      intro pool descends scheduled
      refine ⟨fun executable found input member => ?_, fun ran isRan => ?_⟩
      · obtain ⟨before, declared, foundBefore, isDeclared, isInput, name, type⟩ :=
          descends.exists_declared wellFormed found member
        rw [← name, ← type]
        exact accepts slot.1 (scheduled slot List.mem_cons_self) before foundBefore declared
          isDeclared isInput
      · exact others (SectionBranch.runSlot_descends descends isRan) fun later member =>
          scheduled later (List.mem_cons_of_mem _ member)

/-- **Variations are exactly the executions.** In an environment that fits, and at any times, a
section has exactly one path, and the path ends as running the timeslots on one pool does. -/
theorem exactlyOne_path_of_variations {part : SnapshotSection} {pool : Pool}
    {timing : ScheduleTiming} {paths : List SectionPath} (wellFormed : pool.WellFormed)
    (untimed : pool.Untimed) (varied : part.variations pool timing = .ok paths)
    {valuation : Valuation} (accepts : part.Accepts pool valuation) {times : List Time}
    (counted : times.length = part.timeslots.length) :
    ∃ path, paths.filter (SectionPath.follows valuation times) = [path] ∧
      runSlots valuation timing pool (part.timeslots.zip times) =
        .ok (path.after, path.steps.map SectionStep.execution) := by
  unfold SnapshotSection.variations at varied
  split at varied
  · cases varied
  · rw [Search.run_eq_explore] at varied
    obtain ⟨branches, explored, rfl⟩ := Outcome.map_eq_ok.mp varied
    have fits := fits_of_accepts wellFormed accepts timing wellFormed.descends
      fun slot member => (List.of_mem_zip
        (show (slot.1, slot.2) ∈ part.timeslots.zip times from member)).1
    have unread : (SectionBranch.start pool).Reads valuation := fun impossible => nomatch impossible
    obtain ⟨outcome, later, steps, isOnly, runs⟩ :=
      SectionBranch.filter_explore untimed counted wellFormed.descends unread fits explored
    refine ⟨outcome.toPath, ?_, ?_⟩
    · rw [List.filter_map]
      exact congrArg (List.map SectionBranch.toPath) isOnly
    · have sameSteps : outcome.toPath.steps = later := steps
      rw [sameSteps]
      exact runs

namespace Timer

/-- Asks whether the button is pressed and, if so, whether the delay has passed. -/
def ready : Program Bool :=
  .ask (.getExternal "pressed") fun answer =>
    if answer == some (.bool true) then .ask (.after 5) fun passed => .done passed else .done false

/-- The machine: closed until it is ready. -/
def machine (name : String) : Machine :=
  { name
    states := [
      { name := "Closed", onEntry := none, onExit := none, internal := none
        transitions := [{ target := 1, guard := ready }], observes := none },
      { name := "Open", onEntry := none, onExit := none, internal := none
        transitions := [], observes := none }]
    initialState := 0
    exitState := none
    suspendState := none
    variableTypes := []
    initialVariables := []
    initialExternals := [{ name := "pressed", direction := .sensor, type := .bool,
                           value := .bool false }] }

/-- Two timers at their start. They share a button, and open a while after it was pressed. -/
def pool : Pool :=
  { entries := [
      { registration := { id := 0, name := "Left", dependencies := [] }
        executable := .scheduled (machine "Left").start },
      { registration := { id := 1, name := "Right", dependencies := [] }
        executable := .scheduled (machine "Right").start }] }

/-- One section in which the machines run one after the other. -/
def part : SnapshotSection :=
  { timeslots := [Timeslot.new 0 0 1, Timeslot.new 1 2 1] }

/-- Every entry of the pool is one of the machines at its start. -/
theorem eq_start {entry : PoolEntry} (member : entry ∈ pool.entries) :
    ∃ name, entry.executable = .scheduled (machine name).start := by
  simp only [pool, List.mem_cons, List.not_mem_nil, or_false] at member
  rcases member with rfl | rfl
  · exact ⟨"Left", rfl⟩
  · exact ⟨"Right", rfl⟩

/-- The pool of the timers is well-formed. -/
theorem wellFormed : pool.WellFormed := by
  refine ⟨by decide, fun entry member => ?_⟩
  obtain ⟨name, isMachine⟩ := eq_start member
  rw [isMachine]
  refine Machine.WellFormed.start ⟨by simp [machine], by simp [machine], by simp [machine],
    by simp [machine], by simp [machine], ?_⟩
  simp [External.Typed, machine, ValueType.accepts]

/-- No timer reads the time itself. -/
theorem untimed : pool.Untimed := by
  have never : ¬ ready.MayRequest .elapsed := by
    rintro (_ | ⟨answer, rest⟩)
    dsimp only at rest
    split at rest
    · simp at rest
    · simp at rest
  intro entry member
  obtain ⟨name, isMachine⟩ := eq_start member
  rw [isMachine]
  rintro ⟨state, isState, may⟩
  simp only [Executable.running, Machine.start, machine, List.mem_cons, List.not_mem_nil,
    or_false] at isState
  rcases isState with rfl | rfl
  · simp [MachineState.mayRequest_iff, never] at may
  · simp [MachineState.mayRequest_iff] at may

/-- The button is pressed. -/
def pressed : Valuation :=
  fun _ => .bool true

/-- A pressed button is a value of the type of the input. -/
theorem accepts : part.Accepts pool pressed := by
  intro slot _ executable found input member _
  obtain ⟨entry, isEntry, _, rfl⟩ := Pool.mem_of_get? found
  obtain ⟨name, isMachine⟩ := eq_start isEntry
  rw [isMachine] at member
  rw [List.mem_singleton.mp member]
  rfl

/-- The section of the timers has variations: none of its ringlets fails. -/
theorem varied : ∃ paths, part.variations pool ScheduleTiming.empty = .ok paths := by
  have succeeds : (part.variations pool ScheduleTiming.empty).isOk = true := by cbv
  cases outcome : part.variations pool ScheduleTiming.empty with
  | ok paths => exact ⟨paths, rfl⟩
  | error fault =>
      rw [outcome] at succeeds
      cases succeeds

end Timer

/-- The left timer runs before its delay has passed and the right one after. -/
theorem timer_exactlyOne_path : ∃ paths path,
    Timer.part.variations Timer.pool ScheduleTiming.empty = .ok paths ∧
      paths.filter (SectionPath.follows Timer.pressed [3, 7]) = [path] ∧
      runSlots Timer.pressed ScheduleTiming.empty Timer.pool (Timer.part.timeslots.zip [3, 7]) =
        .ok (path.after, path.steps.map SectionStep.execution) := by
  obtain ⟨paths, varied⟩ := Timer.varied
  obtain ⟨path, isOnly, runs⟩ := exactlyOne_path_of_variations Timer.wellFormed Timer.untimed varied
    Timer.accepts (show [3, 7].length = Timer.part.timeslots.length from rfl)
  exact ⟨paths, path, varied, isOnly, runs⟩

end TimedKripke
