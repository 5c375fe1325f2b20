import TimedKripke.Live
import TimedKripke.Proofs.Verification.Course

/-! # Live cycles

A section of the live scheduler reads the environment for all its executables and then executes
its timeslots on one pool, each at the time that its machine has spent in its state. So a live
cycle that succeeds is a course of its sections (`LiveScheduler.course_of_runCycle`): what was read
is what the environment holds, and the time singles out one of the conditional ringlets.
-/

namespace TimedKripke

/-- A sequence of parts that succeeds has a first part that succeeds. -/
theorem Live.bind_eq_ok {α β : Type} {part : Live α} {next : α → Live β}
    {scheduler after : LiveScheduler} {answer : β}
    (answered : (part >>= next) scheduler = (.ok answer, after)) :
    ∃ first middle, part scheduler = (.ok first, middle) ∧
      next first middle = (.ok answer, after) := by
  change ExceptT.bindCont next (part scheduler).1 (part scheduler).2 = _ at answered
  cases ran : part scheduler with
  | mk outcome middle =>
      rw [ran] at answered
      cases outcome with
      | ok first => exact ⟨first, middle, rfl, answered⟩
      | error fault => cases answered

/-- The environment has a value for every input of some executables. -/
def Pool.Supplied (environment : PropertyList) (ids : List ExecutableId) (pool : Pool) : Prop :=
  ∀ id ∈ ids, ∀ executable, pool.get? id = some executable →
    ∀ input ∈ executable.running.externals, input.direction.isInput = true →
      (environment.lookup input.name).isSome = true

namespace LiveScheduler

/-- What the environment holds. -/
def valuation (scheduler : LiveScheduler) : Valuation :=
  fun name => (scheduler.environment.lookup name).getD (.bool false)

/-- The scheduler is running: its pool has a given frame, and its environment knows the inputs of
the scheduled executables. -/
structure Running (origin : Pool) (schedule : Schedule) (scheduler : LiveScheduler) : Prop where
  descends : Pool.Descends origin scheduler.pool
  supplied : origin.Supplied scheduler.environment (Timeslot.roots schedule.timeslots)
  timing : scheduler.timing = schedule.timing
  sections : scheduler.sections = orderedSections schedule

/-- Giving inputs one after the other is assigning them. -/
theorem readInputs_eq_ok {id : ExecutableId} {readings : PropertyList} :
    ∀ {scheduler after : LiveScheduler} {executable : Executable}, scheduler.pool.WellFormed →
      scheduler.pool.get? id = some executable →
      readings.forM (readInput id) scheduler = (.ok (), after) →
        scheduler.pool.assign id readings = .ok after.pool ∧
          after = { scheduler with pool := after.pool } := by
  induction readings with
  | nil =>
      intro scheduler after executable wellFormed found read
      cases read
      exact ⟨Pool.assign_nil wellFormed found, rfl⟩
  | cons reading rest others =>
      intro scheduler after executable wellFormed found read
      obtain ⟨_, middle, first, later⟩ := Live.bind_eq_ok read
      unfold readInput at first
      split at first
      · rename_i pool assigned
        cases first
        have known : id ∈ pool.ids := by
          rw [Pool.ids_eq_of_frame (wellFormed.descends.assign assigned).frame]
          exact Pool.exists_get?_iff.mp ⟨executable, found⟩
        obtain ⟨changed, isChanged⟩ := Pool.exists_get?_iff.mpr known
        obtain ⟨assignedLater, same⟩ :=
          others (wellFormed.descends.assign assigned).wellFormed isChanged later
        exact ⟨Pool.assign_cons assigned assignedLater, same⟩
      · cases first

section Cycle

variable {origin : Pool} {schedule : Schedule} {scheduler after : LiveScheduler}

/-- The environment of a running scheduler has a value for every input that a scheduled executable
observes. -/
theorem Running.lookup (running : scheduler.Running origin schedule)
    (wellFormed : origin.WellFormed) {id : ExecutableId}
    (isId : id ∈ Timeslot.roots schedule.timeslots) {executable : Executable}
    (found : scheduler.pool.get? id = some executable) {input : External}
    (observed : input ∈ executable.running.observedInputs) :
    scheduler.environment.lookup input.name = some (scheduler.valuation input.name) := by
  obtain ⟨before, declared, isBefore, isDeclared, isInput, name, _⟩ :=
    running.descends.exists_declared wellFormed found observed
  have known := running.supplied id isId before isBefore declared isDeclared isInput
  rw [name] at known
  obtain ⟨value, isValue⟩ := Option.isSome_iff_exists.mp known
  rw [valuation, isValue]
  rfl

/-- **A snapshot** of the environment lets one executable read it, and the values are of the types
of its inputs. -/
theorem takeSnapshot_eq_ok (wellFormed : origin.WellFormed)
    (running : scheduler.Running origin schedule) {slot : Timeslot}
    (isId : slot.executable ∈ Timeslot.roots schedule.timeslots)
    (took : takeSnapshot slot scheduler = (.ok (), after)) :
    ∃ executable, scheduler.pool.get? slot.executable = some executable ∧
      executable.Admits scheduler.valuation ∧ after = { scheduler with
        pool := scheduler.pool.reads scheduler.valuation [slot.executable] } := by
  unfold takeSnapshot at took
  obtain ⟨current, _, got, took⟩ := Live.bind_eq_ok took
  cases got
  cases found : scheduler.pool.get? slot.executable with
  | none =>
      rw [found] at took
      cases took
  | some executable =>
      rw [found] at took
      have values : (executable.running.observedInputs.filterMap fun input =>
          (scheduler.environment.lookup input.name).map fun value => (input.name, value)) =
          scheduler.valuation.entries (executable.running.observedInputs.map External.name) := by
        rw [Valuation.entries, List.map_map, ← List.filterMap_eq_map]
        refine List.filterMap_congr fun input observed => ?_
        rw [running.lookup wellFormed isId found observed]
        rfl
      have distinct : ((scheduler.valuation.entries
          (executable.running.observedInputs.map External.name)).map Prod.fst).Nodup := by
        rw [Valuation.entries, List.map_map]
        exact (List.map_id _).symm ▸ SectionBranch.nodup_observedInputs
          (running.descends.wellFormed.get? found)
      have lookups : ∀ name, (scheduler.valuation.entries
          (executable.running.observedInputs.map External.name)).lookup name =
          (executable.running.readings scheduler.valuation).lookup name := by
        intro name
        rw [Executable.lookup_readings, Valuation.lookup_entries]
      dsimp only at took
      rw [values] at took
      obtain ⟨assigned, same⟩ := readInputs_eq_ok running.descends.wellFormed found took
      obtain ⟨admits, isRead⟩ := (Pool.assign_iff_of_lookup running.descends.wellFormed found
        distinct lookups).mp assigned
      rw [isRead] at same
      exact ⟨executable, rfl, admits, same⟩

/-- **Snapshots** of the environment, one after the other, let all executables of a section read it.
-/
theorem takeSnapshots_eq_ok (wellFormed : origin.WellFormed) {slots : List Timeslot} :
    ∀ {scheduler : LiveScheduler}, scheduler.Running origin schedule →
      (∀ id ∈ Timeslot.roots slots, id ∈ Timeslot.roots schedule.timeslots) →
      (Timeslot.roots slots).Nodup →
      slots.forM takeSnapshot scheduler = (.ok (), after) →
        (∀ id ∈ Timeslot.roots slots, ∃ executable, scheduler.pool.get? id = some executable ∧
            executable.Admits scheduler.valuation) ∧
          after = { scheduler with
            pool := scheduler.pool.reads scheduler.valuation (Timeslot.roots slots) } := by
  induction slots with
  | nil =>
      intro scheduler running _ _ took
      cases took
      refine ⟨fun _ impossible => (nomatch impossible), ?_⟩
      rw [show Timeslot.roots [] = [] from rfl, Pool.reads_nil]
  | cons slot slots others =>
      intro scheduler running scheduled distinct took
      obtain ⟨_, middle, first, later⟩ := Live.bind_eq_ok took
      obtain ⟨executable, found, admits, rfl⟩ :=
        takeSnapshot_eq_ok wellFormed running (scheduled _ List.mem_cons_self) first
      rw [Timeslot.roots_cons] at scheduled distinct
      obtain ⟨fresh, distinctLater⟩ := List.nodup_cons.mp distinct
      have runningLater : Running origin schedule { scheduler with
          pool := scheduler.pool.reads scheduler.valuation [slot.executable] } :=
        ⟨running.descends.reads (Pool.admits_singleton found admits), running.supplied,
          running.timing, running.sections⟩
      obtain ⟨admitLater, rfl⟩ := others runningLater
        (fun id isLater => scheduled id (List.mem_cons_of_mem _ isLater)) distinctLater later
      refine ⟨?_, ?_⟩
      · intro id isRoot
        rcases List.mem_cons.mp isRoot with rfl | isLater
        · exact ⟨executable, found, admits⟩
        · obtain ⟨known, isKnown, admitsLater⟩ := admitLater id isLater
          have other : id ∉ [slot.executable] := fun same =>
            fresh (List.mem_singleton.mp same ▸ isLater)
          rw [Pool.get?_reads_of_not_mem other] at isKnown
          exact ⟨known, isKnown, admitsLater⟩
      · rw [Timeslot.roots_cons, ← Pool.reads_reads fresh]
        rfl

/-- **A timeslot** that is executed live takes one of the conditional ringlets: the one that stands
for the time. -/
theorem executeSlot_eq_ok (untimed : origin.Untimed) (running : scheduler.Running origin schedule)
    {slot : Timeslot} {ringlets : List ConditionalRinglet}
    (sampled : Ringlet.timeAware scheduler.pool slot schedule.timing 0 = .ok ringlets)
    {report next : CycleReport} (executed : executeSlot report slot scheduler = (.ok next, after)) :
    after.Running origin schedule ∧ ∃ conditional ∈ ringlets,
      after.pool = conditional.ringlet.after := by
  have reached : 0 ≤ scheduler.elapsedAt slot := UInt64.le_iff_toNat_le.mpr (Nat.zero_le _)
  obtain ⟨conditional, only, sample⟩ := Ringlet.filter_timeAware running.descends.wellFormed
    (untimed.of_descends running.descends) reached sampled
  have chosen : conditional ∈ ringlets :=
    (List.mem_filter.mp (only ▸ List.mem_singleton_self conditional)).1
  obtain ⟨_, execution, final, _, _, ran, _, same⟩ := Ringlet.execute_eq_ok sample
  have isAfter : conditional.ringlet.after = final.pool := congrArg Ringlet.after same
  have descends := executeTimeslot_descends running.descends slot
    (Clock.new schedule.timing (scheduler.elapsedAt slot))
  unfold executeSlot at executed
  simp only [running.timing, ran] at executed descends
  cases executed
  exact ⟨⟨descends, running.supplied, rfl, running.sections⟩, conditional, chosen, isAfter.symm⟩

/-- **Timeslots** that are executed live, one after the other, are an execution of the section on
the pool. -/
theorem executeSlots_eq_ok (untimed : origin.Untimed) {slots : List Timeslot} {last : CycleReport} :
    ∀ {scheduler : LiveScheduler} {report : CycleReport}, scheduler.Running origin schedule →
      Runnable schedule.timing slots scheduler.pool →
      slots.foldlM executeSlot report scheduler = (.ok last, after) →
        after.Running origin schedule ∧ ∃ conditionals,
          Executes schedule.timing slots scheduler.pool conditionals after.pool := by
  induction slots with
  | nil =>
      intro scheduler report running _ executed
      cases executed
      exact ⟨running, [], .nil _⟩
  | cons slot slots others =>
      intro scheduler report running runnable executed
      obtain ⟨ringlets, sampled, each⟩ := runnable
      rw [List.foldlM_cons] at executed
      obtain ⟨next, middle, first, later⟩ := Live.bind_eq_ok executed
      obtain ⟨runningLater, conditional, chosen, isMiddle⟩ :=
        executeSlot_eq_ok untimed running sampled first
      obtain ⟨runningAfter, conditionals, executes⟩ :=
        others runningLater (isMiddle ▸ each conditional chosen) later
      exact ⟨runningAfter, conditional :: conditionals, .cons sampled chosen (isMiddle ▸ executes)⟩

/-- **Saving outputs** leaves the pool alone, and the environment does not forget. -/
theorem saveSnapshots_eq_ok {slots : List Timeslot} : ∀ {scheduler : LiveScheduler},
    scheduler.Running origin schedule → slots.forM saveSnapshot scheduler = (.ok (), after) →
      after.Running origin schedule ∧ after.pool = scheduler.pool := by
  induction slots with
  | nil =>
      intro scheduler running saved
      cases saved
      exact ⟨running, rfl⟩
  | cons slot slots others =>
      intro scheduler running saved
      obtain ⟨_, middle, first, later⟩ := Live.bind_eq_ok saved
      unfold saveSnapshot at first
      split at first
      · cases first
      · rename_i executable found
        cases first
        have runningLater : Running origin schedule { scheduler with
            environment := OrderedMap.extend scheduler.environment
              (executable.running.outputs.map fun output => (output.name, output.value)) } := by
          refine ⟨running.descends, ?_, running.timing, running.sections⟩
          intro id isId known isKnown input isInput direction
          have before := running.supplied id isId known isKnown input isInput direction
          rw [OrderedMap.lookup_extend, Option.isSome_or, before, Bool.or_true]
        have saved := others runningLater later
        exact saved

/-- What a section schedules is scheduled by the schedule. -/
theorem roots_of_mem {part : SnapshotSection} (scheduled : part ∈ orderedSections schedule) :
    ∀ id ∈ Timeslot.roots part.timeslots, id ∈ Timeslot.roots schedule.timeslots := by
  rw [orderedSections_eq] at scheduled
  obtain ⟨placed, isPlaced, rfl⟩ := List.mem_map.mp scheduled
  obtain ⟨thread, isThread, isPart⟩ := ScheduleThread.mem_interleaved isPlaced
  exact List.map_subset _ fun slot isSlot => List.mem_flatMap.mpr ⟨thread,
    List.mem_of_getElem? isThread, List.mem_flatMap.mpr ⟨placed.item, isPart, isSlot⟩⟩

/-- **A live section** goes through its beats: one reading, and one execution for every timeslot. -/
theorem runSection_eq_ok (wellFormed : origin.WellFormed) (untimed : origin.Untimed)
    {part : SnapshotSection} (scheduled : part ∈ orderedSections schedule)
    (distinct : (Timeslot.roots part.timeslots).Nodup) (running : scheduler.Running origin schedule)
    (proceeds : Proceeds schedule.timing part.beats scheduler.pool) {report next : CycleReport}
    (ran : runSection report part scheduler = (.ok next, after)) :
    after.Running origin schedule ∧
      ∃ moves, Course schedule.timing part.beats scheduler.pool moves after.pool := by
  unfold runSection at ran
  obtain ⟨_, taken, took, ran⟩ := Live.bind_eq_ok ran
  obtain ⟨last, executed, isExecuted, ran⟩ := Live.bind_eq_ok ran
  obtain ⟨_, saved, isSaved, ran⟩ := Live.bind_eq_ok ran
  cases ran
  obtain ⟨someSlot, each⟩ := proceeds
  obtain ⟨slot, slots, isPart⟩ := List.exists_cons_of_ne_nil someSlot
  obtain ⟨allowed, rfl⟩ :=
    takeSnapshots_eq_ok wellFormed running (roots_of_mem scheduled) distinct took
  have admits : scheduler.pool.Admits scheduler.valuation (Timeslot.roots part.timeslots) := by
    intro id isRoot executable found
    obtain ⟨known, isKnown, admits⟩ := allowed id isRoot
    cases isKnown.symm.trans found
    exact admits
  have isRoot : slot.executable ∈ Timeslot.roots part.timeslots := by
    rw [isPart]
    exact List.mem_cons_self
  obtain ⟨root, found, _⟩ := allowed _ isRoot
  have runningTaken : Running origin schedule { scheduler with
      pool := scheduler.pool.reads scheduler.valuation (Timeslot.roots part.timeslots) } :=
    ⟨running.descends.reads admits, running.supplied, running.timing, running.sections⟩
  have leads : (Beat.read part.timeslots).Leads schedule.timing scheduler.pool (.ofReading root
      (scheduler.pool.reads scheduler.valuation (Timeslot.roots part.timeslots))) := by
    rw [isPart] at admits ⊢
    exact .read admits found
  obtain ⟨runningExecuted, conditionals, executes⟩ := executeSlots_eq_ok untimed runningTaken
    (SnapshotSection.proceeds_execute_iff.mp (each _ leads)) isExecuted
  obtain ⟨runningSaved, same⟩ := saveSnapshots_eq_ok runningExecuted isSaved
  exact ⟨runningSaved, _, same ▸ SnapshotSection.Executes.course isPart found
    ⟨scheduler.valuation, admits, rfl, executes⟩⟩

/-- **Live sections** go through their beats, one section after the other. -/
theorem runSections_eq_ok (wellFormed : origin.WellFormed) (untimed : origin.Untimed)
    (distinct : ∀ part ∈ orderedSections schedule, (Timeslot.roots part.timeslots).Nodup)
    {sections : List SnapshotSection} {last : CycleReport} :
    ∀ {scheduler : LiveScheduler} {report : CycleReport},
      (∀ part ∈ sections, part ∈ orderedSections schedule) → scheduler.Running origin schedule →
      Proceeds schedule.timing (sections.flatMap SnapshotSection.beats) scheduler.pool →
      sections.foldlM runSection report scheduler = (.ok last, after) →
        after.Running origin schedule ∧ ∃ moves,
          Course schedule.timing (sections.flatMap SnapshotSection.beats) scheduler.pool moves
            after.pool := by
  induction sections with
  | nil =>
      intro scheduler report _ running _ ran
      cases ran
      exact ⟨running, [], .nil _⟩
  | cons part sections others =>
      intro scheduler report each running proceeds ran
      rw [List.foldlM_cons] at ran
      obtain ⟨next, middle, first, later⟩ := Live.bind_eq_ok ran
      rw [List.flatMap_cons] at proceeds ⊢
      obtain ⟨proceedsHere, proceedsLater⟩ := proceeds_append_iff.mp proceeds
      have scheduled := each part List.mem_cons_self
      obtain ⟨runningLater, moves, course⟩ := runSection_eq_ok wellFormed untimed scheduled
        (distinct part scheduled) running proceedsHere first
      obtain ⟨runningAfter, more, courseLater⟩ := others
        (fun next isNext => each next (List.mem_cons_of_mem _ isNext)) runningLater
        (proceedsLater moves _ course) later
      exact ⟨runningAfter, moves ++ more, course.append courseLater⟩

/-- **A live cycle is a course** through the beats of the schedule, from the pool before it to the
pool after it. -/
theorem course_of_runCycle (wellFormed : origin.WellFormed) (untimed : origin.Untimed)
    (distinct : ∀ part ∈ orderedSections schedule, (Timeslot.roots part.timeslots).Nodup)
    (running : scheduler.Running origin schedule)
    (proceeds : Proceeds schedule.timing (ScheduleThread.beats schedule.threads) scheduler.pool)
    {report : CycleReport} (ran : runCycle scheduler = (.ok report, after)) :
    after.Running origin schedule ∧ ∃ moves,
      Course schedule.timing (ScheduleThread.beats schedule.threads) scheduler.pool moves
        after.pool := by
  have beats : ScheduleThread.beats schedule.threads =
      scheduler.sections.flatMap SnapshotSection.beats := by
    rw [running.sections, orderedSections_eq, List.flatMap_map]
    rfl
  unfold runCycle at ran
  obtain ⟨current, _, got, ran⟩ := Live.bind_eq_ok ran
  cases got
  obtain ⟨last, finished, ranSections, ran⟩ := Live.bind_eq_ok ran
  obtain ⟨_, counted, counts, ran⟩ := Live.bind_eq_ok ran
  cases ran
  cases counts
  rw [beats] at proceeds ⊢
  obtain ⟨runningAfter, moves, course⟩ := runSections_eq_ok wellFormed untimed distinct
    (fun part isPart => running.sections ▸ isPart) running proceeds ranSections
  exact ⟨⟨runningAfter.descends, runningAfter.supplied, runningAfter.timing, runningAfter.sections⟩,
    moves, course⟩

end Cycle

end LiveScheduler

end TimedKripke
