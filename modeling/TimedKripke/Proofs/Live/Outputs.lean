import TimedKripke.Proofs.Live.Coverage
import TimedKripke.Proofs.Ringlet.Writes

/-! # Outputs of live sections

At the end of a section every scheduled executable publishes all its outputs, in the order of the
timeslots, whether it has written them or not. So the environment holds what the last executable
that declares an output holds (`LiveScheduler.lookup_saveSnapshots`). If one executable alone has
written the output, this is its value or the copy that another one kept
(`LiveScheduler.environment_of_sole_writer`).
-/

namespace TimedKripke

/-- The part keeps a property of schedulers, also if it fails. -/
def Live.Keeps {α : Type} (Holds : LiveScheduler → Prop) (part : Live α) : Prop :=
  ∀ scheduler, Holds scheduler → Holds (part scheduler).2

namespace Live.Keeps

variable {Holds : LiveScheduler → Prop} {α β : Type}

theorem pure (answer : α) : Keeps Holds (pure answer : Live α) :=
  fun _ holds => holds

/-- Two parts that keep a property keep it one after the other. -/
theorem bind {part : Live α} {next : α → Live β} (first : Keeps Holds part)
    (second : ∀ answer, Keeps Holds (next answer)) : Keeps Holds (part >>= next) := by
  intro scheduler holds
  have held := first scheduler holds
  change Holds (ExceptT.bindCont next (part scheduler).1 (part scheduler).2).2
  cases outcome : (part scheduler).1 with
  | ok answer => exact second answer _ held
  | error fault => exact held

/-- A loop over steps that keep a property keeps it. -/
theorem forM {step : α → Live Unit} (each : ∀ item, Keeps Holds (step item)) (items : List α) :
    Keeps Holds (items.forM step) := by
  induction items with
  | nil => exact pure ()
  | cons item items others => exact (each item).bind fun _ => others

/-- A loop that carries an answer along keeps what its steps keep. -/
theorem foldlM {step : β → α → Live β} (each : ∀ answer item, Keeps Holds (step answer item))
    (items : List α) : ∀ answer, Keeps Holds (items.foldlM step answer) := by
  induction items with
  | nil => exact fun answer => pure answer
  | cons item items others =>
      intro answer
      rw [List.foldlM_cons]
      exact (each answer item).bind others

end Live.Keeps

namespace LiveScheduler

/-- The pool has the frame of another. -/
def Frames (origin : Pool) (scheduler : LiveScheduler) : Prop :=
  Pool.Descends origin scheduler.pool

variable {origin : Pool}

/-- Reading the inputs of a timeslot keeps the frame of the pool. -/
theorem keeps_takeSnapshot (slot : Timeslot) : (takeSnapshot slot).Keeps (Frames origin) := by
  have get : (get : Live LiveScheduler).Keeps (Frames origin) := fun _ holds => holds
  refine get.bind fun scheduler => ?_
  split
  · exact fun _ holds => holds
  · refine Live.Keeps.forM (fun reading => ?_) _
    intro scheduler descends
    unfold readInput
    split
    · rename_i assigned
      exact Pool.Descends.assign descends assigned
    · exact descends

/-- Executing a timeslot keeps the frame of the pool. -/
theorem keeps_executeSlot (report : CycleReport) (slot : Timeslot) :
    (executeSlot report slot).Keeps (Frames origin) := by
  intro scheduler descends
  have executed := executeTimeslot_descends descends slot
    (Clock.new scheduler.timing (scheduler.elapsedAt slot))
  unfold executeSlot
  dsimp only
  split <;> exact executed

/-- Saving the outputs of a timeslot keeps the frame of the pool. -/
theorem keeps_saveSnapshot (slot : Timeslot) : (saveSnapshot slot).Keeps (Frames origin) := by
  intro scheduler descends
  unfold saveSnapshot
  split <;> exact descends

/-- A whole section keeps the frame of the pool, from its parts. -/
theorem keeps_runSection (report : CycleReport) (part : SnapshotSection) :
    (runSection report part).Keeps (Frames origin) := by
  refine (Live.Keeps.forM keeps_takeSnapshot _).bind fun _ => ?_
  refine (Live.Keeps.foldlM keeps_executeSlot _ _).bind fun _ => ?_
  exact (Live.Keeps.forM keeps_saveSnapshot _).bind fun _ => .pure _

/-- A whole cycle keeps the frame of the pool, from its sections. -/
theorem keeps_runCycle : runCycle.Keeps (Frames origin) := by
  have get : (get : Live LiveScheduler).Keeps (Frames origin) := fun _ holds => holds
  refine get.bind fun scheduler => ?_
  refine (Live.Keeps.foldlM keeps_runSection _ _).bind fun report => ?_
  exact Live.Keeps.bind (fun _ holds => holds) fun _ => .pure _

/-- What a scheduler comes to: cycles are run, which may fail, and the environment changes between
them. -/
inductive AtWork (start : LiveScheduler) : LiveScheduler → Prop
  | start : AtWork start start
  | environment {scheduler : LiveScheduler} (earlier : AtWork start scheduler)
      (environment : PropertyList) : AtWork start { scheduler with environment }
  | cycle {scheduler : LiveScheduler} (earlier : AtWork start scheduler) :
      AtWork start (runCycle scheduler).2

/-- Wherever a running cycle stands, the pool descends from the one it began with. -/
theorem AtWork.frames {start scheduler : LiveScheduler} (atWork : start.AtWork scheduler)
    (frames : start.Frames origin) : scheduler.Frames origin := by
  induction atWork with
  | start => exact frames
  | environment _ _ earlier => exact earlier
  | cycle _ earlier => exact keeps_runCycle _ earlier

/-- A section that succeeds: what the scheduler is when the inputs were read, when the timeslots
were executed, and when the outputs were saved. -/
structure SectionRun (part : SnapshotSection) (report : CycleReport)
    (before taken executed saved : LiveScheduler) : Prop where
  reads : part.timeslots.forM takeSnapshot before = (.ok (), taken)
  executes : ∃ next, part.timeslots.foldlM executeSlot report taken = (.ok next, executed)
  saves : part.timeslots.forM saveSnapshot executed = (.ok (), saved)

/-- A section that succeeds has read all its inputs, then executed all its timeslots, then saved all
its outputs. -/
theorem exists_sectionRun {report next : CycleReport} {part : SnapshotSection}
    {before saved : LiveScheduler} (ran : runSection report part before = (.ok next, saved)) :
    ∃ taken executed, SectionRun part report before taken executed saved := by
  unfold runSection at ran
  obtain ⟨_, taken, took, ran⟩ := Live.bind_eq_ok ran
  obtain ⟨last, executed, isExecuted, ran⟩ := Live.bind_eq_ok ran
  obtain ⟨_, _, isSaved, ran⟩ := Live.bind_eq_ok ran
  cases ran
  exact ⟨taken, executed, took, ⟨_, isExecuted⟩, isSaved⟩

/-- When a section has executed its timeslots, the frame of the pool it began with still stands. -/
theorem SectionRun.frames {part : SnapshotSection} {report : CycleReport}
    {before taken executed saved : LiveScheduler}
    (sectionRun : SectionRun part report before taken executed saved)
    (frames : before.Frames origin) : executed.Frames origin := by
  have framesTaken := Live.Keeps.forM keeps_takeSnapshot part.timeslots _ frames
  rw [sectionRun.reads] at framesTaken
  obtain ⟨next, executes⟩ := sectionRun.executes
  have framesExecuted := Live.Keeps.foldlM keeps_executeSlot part.timeslots report _ framesTaken
  rw [executes] at framesExecuted
  exact framesExecuted

/-- The report with which a cycle starts. -/
def openingReport (scheduler : LiveScheduler) : CycleReport :=
  { cycle := scheduler.cycles
    startedAt := scheduler.now
    ringlets := 0
    transitioned := []
    calls := 0 }

/-- In a cycle that succeeds every section succeeds. -/
theorem exists_sectionRun_of_runCycle {scheduler final : LiveScheduler} {report : CycleReport}
    (ran : runCycle scheduler = (.ok report, final)) {earlier later : List SnapshotSection}
    {part : SnapshotSection} (placed : scheduler.sections = earlier ++ part :: later) :
    ∃ opened before taken executed saved,
      earlier.foldlM runSection scheduler.openingReport scheduler = (.ok opened, before) ∧
        SectionRun part opened before taken executed saved := by
  unfold runCycle at ran
  obtain ⟨_, _, got, ran⟩ := Live.bind_eq_ok ran
  cases got
  obtain ⟨_, _, ranSections, _⟩ := Live.bind_eq_ok ran
  rw [placed, List.foldlM_append] at ranSections
  obtain ⟨opened, before, ranEarlier, ranLater⟩ := Live.bind_eq_ok ranSections
  rw [List.foldlM_cons] at ranLater
  obtain ⟨_, saved, ranHere, _⟩ := Live.bind_eq_ok ranLater
  obtain ⟨taken, executed, sectionRun⟩ := exists_sectionRun ranHere
  exact ⟨opened, before, taken, executed, saved, ranEarlier, sectionRun⟩

/-- What executing a timeslot writes. -/
def slotWrites (scheduler : LiveScheduler) (slot : Timeslot) : List (ExecutableId × String) :=
  timeslotWrites scheduler.pool slot (Clock.new scheduler.timing (scheduler.elapsedAt slot))

/-- What executing timeslots one after the other writes. -/
def ringletWrites (report : CycleReport) :
    List Timeslot → LiveScheduler → List (ExecutableId × String)
  | [], _ => []
  | slot :: rest, scheduler =>
      scheduler.slotWrites slot ++
        match executeSlot report slot scheduler with
        | (.error _, _) => []
        | (.ok next, after) => ringletWrites next rest after

/-- An external that no ringlet of the timeslots writes has its value after them. -/
theorem external?_executeSlots {id : ExecutableId} {name : String} {slots : List Timeslot}
    {last : CycleReport} {after : LiveScheduler} :
    ∀ {report : CycleReport} {scheduler : LiveScheduler},
      slots.foldlM executeSlot report scheduler = (.ok last, after) →
      (id, name) ∉ ringletWrites report slots scheduler →
        after.pool.external? id name = scheduler.pool.external? id name := by
  induction slots with
  | nil =>
      intro report scheduler executed _
      cases executed
      rfl
  | cons slot slots others =>
      intro report scheduler executed unwritten
      rw [List.foldlM_cons] at executed
      obtain ⟨next, middle, first, later⟩ := Live.bind_eq_ok executed
      rw [ringletWrites, first, List.mem_append, not_or] at unwritten
      have kept := external?_executeTimeslot unwritten.1
      have isMiddle : middle.pool = (executeTimeslot scheduler.pool slot
          (Clock.new scheduler.timing (scheduler.elapsedAt slot))).2.pool := by
        unfold executeSlot at first
        dsimp only at first
        split at first
        · cases first
        · cases first
          rfl
      rw [others later unwritten.2, isMiddle, kept]

end LiveScheduler

/-- The executable declares an output of the name. -/
def Executable.publishes (executable : Executable) (name : String) : Bool :=
  executable.running.outputs.any fun output => output.name == name

/-- The executable of the id declares an output of the name. -/
def Pool.publishes (pool : Pool) (id : ExecutableId) (name : String) : Bool :=
  match pool.get? id with
  | some executable => executable.publishes name
  | none => false

/-- Whether an executable publishes a name depends only on the declared externals, and these never
change. -/
theorem Executable.publishes_eq_signature (executable : Executable) (name : String) :
    executable.publishes name = (executable.running.externals.map External.signature).any
      fun declared => declared.2.1.isOutput && declared.1 == name := by
  rw [publishes, Instance.outputs, List.any_filter, List.any_map]
  rfl

/-- What an executable publishes is declared, so it is the same in every descendant of a pool. -/
theorem Pool.Descends.publishes_eq {origin pool : Pool} (descends : Pool.Descends origin pool)
    (wellFormed : origin.WellFormed) (id : ExecutableId) (name : String) :
    pool.publishes id name = origin.publishes id name := by
  have known : (∃ executable, pool.get? id = some executable) ↔
      ∃ executable, origin.get? id = some executable := by
    rw [Pool.exists_get?_iff, Pool.exists_get?_iff, Pool.ids_eq_of_frame descends.frame]
  unfold publishes
  cases after : pool.get? id with
  | none =>
      cases before : origin.get? id with
      | none => rfl
      | some executable =>
          obtain ⟨_, found⟩ := known.mpr ⟨executable, before⟩
          rw [after] at found
          cases found
  | some executable =>
      obtain ⟨declared, before⟩ := known.mp ⟨executable, after⟩
      rw [before]
      dsimp only
      rw [Executable.publishes_eq_signature, Executable.publishes_eq_signature,
        descends.signature wellFormed before after]

/-- An executable publishes what its output holds. -/
theorem Executable.exists_output {executable : Executable}
    (wellFormed : executable.running.WellFormed) {name : String}
    (published : executable.publishes name = true) : ∃ value,
      executable.external? name = some value ∧
      (executable.running.outputs.map fun output => (output.name, output.value)).lookup name =
        some value := by
  have distinct := wellFormed.distinctExternals
  obtain ⟨output, member, same⟩ := List.any_eq_true.mp published
  obtain rfl := eq_of_beq same
  have declared := (List.mem_filter.mp member).1
  refine ⟨output.value, ?_, ?_⟩
  · rw [external?, External.find?_of_mem distinct declared, Option.map_some]
  · apply OrderedMap.lookup_of_mem
    · rw [List.map_map]
      exact distinct.sublist (List.filter_sublist.map External.name)
    · exact List.mem_map_of_mem member

/-- An output that was declared at the beginning has a value in every descendant of the pool. -/
theorem Pool.Descends.exists_external? {origin pool : Pool} (descends : Pool.Descends origin pool)
    (wellFormed : origin.WellFormed) {id : ExecutableId} {name : String}
    (published : origin.publishes id name = true) :
        ∃ value, pool.external? id name = some value := by
  rw [← descends.publishes_eq wellFormed, Pool.publishes] at published
  split at published
  · rename_i executable found
    obtain ⟨value, holds, _⟩ :=
      Executable.exists_output (descends.wellFormed.get? found) published
    exact ⟨value, by rw [Pool.external?, found, Option.bind_some, holds]⟩
  · cases published

/-- A name that an executable does not publish has no value among its outputs. -/
theorem Executable.lookup_outputs_of_not_publishes {executable : Executable} {name : String}
    (unpublished : executable.publishes name = false) :
    (executable.running.outputs.map fun output => (output.name, output.value)).lookup name =
      none := by
  rw [OrderedMap.lookup_eq_none_iff, List.map_map]
  intro member
  obtain ⟨output, isOutput, same⟩ := List.mem_map.mp member
  have published : executable.publishes name = true :=
    List.any_eq_true.mpr ⟨output, isOutput, beq_iff_eq.mpr same⟩
  rw [published] at unpublished
  cases unpublished

namespace LiveScheduler

/-- Saving a timeslot puts the values of what its executable publishes into the environment and
leaves all other names alone. -/
theorem lookup_saveSnapshot (name : String) {slot : Timeslot} {scheduler after : LiveScheduler}
    (wellFormed : scheduler.pool.WellFormed)
    (saved : saveSnapshot slot scheduler = (.ok (), after)) :
    after.pool = scheduler.pool ∧ after.environment.lookup name =
      if scheduler.pool.publishes slot.executable name then
        scheduler.pool.external? slot.executable name
      else scheduler.environment.lookup name := by
  unfold saveSnapshot at saved
  split at saved
  · cases saved
  · rename_i executable known
    cases saved
    refine ⟨rfl, ?_⟩
    have found := Pool.get_eq_ok_iff.mp known
    have distinct : ((executable.running.outputs.map fun output =>
        (output.name, output.value)).map Prod.fst).Nodup := by
      rw [List.map_map]
      exact (wellFormed.get? found).distinctExternals.sublist
        (List.filter_sublist.map External.name)
    dsimp only
    rw [OrderedMap.lookup_extend_of_nodup distinct, Pool.publishes, Pool.external?, found,
      Option.bind_some]
    dsimp only
    split_ifs with published
    · obtain ⟨value, holds, isOutput⟩ :=
        Executable.exists_output (wellFormed.get? found) published
      rw [isOutput, holds, Option.some_or]
    · rw [Executable.lookup_outputs_of_not_publishes (Bool.eq_false_of_not_eq_true published),
        Option.none_or]

/-- The last executable that declares an output decides what the environment holds. -/
theorem lookup_saveSnapshots (name : String) {after : LiveScheduler} {slots : List Timeslot} :
    ∀ {scheduler : LiveScheduler}, scheduler.pool.WellFormed →
      slots.forM saveSnapshot scheduler = (.ok (), after) →
        after.environment.lookup name =
          match ((Timeslot.roots slots).filter fun id =>
              scheduler.pool.publishes id name).getLast? with
          | some publisher => scheduler.pool.external? publisher name
          | none => scheduler.environment.lookup name := by
  induction slots with
  | nil =>
      intro scheduler _ saved
      cases saved
      rfl
  | cons slot slots others =>
      intro scheduler wellFormed saved
      obtain ⟨_, middle, first, later⟩ := Live.bind_eq_ok saved
      obtain ⟨samePool, here⟩ := lookup_saveSnapshot name wellFormed first
      have after := others (samePool ▸ wellFormed) later
      rw [samePool, here] at after
      rw [after, Timeslot.roots_cons, List.filter_cons]
      by_cases published : scheduler.pool.publishes slot.executable name = true
      · rw [if_pos published, if_pos published, List.getLast?_cons]
        cases (List.filter (fun id => scheduler.pool.publishes id name)
          (Timeslot.roots slots)).getLast? <;> rfl
      · rw [if_neg published, if_neg published]

/-- **The environment holds what the last executable holds that declares the output.** Let one
executable of a section alone write an output of its own, in any cycle that succeeds. When the
outputs of the section were saved, the environment holds the value that the output has for the
executable of the last timeslot that declares it too: for the writer itself, or for another one,
which has kept its copy since the inputs were read. -/
theorem environment_of_sole_writer {schedule : Schedule} {pool : Pool} {environment : PropertyList}
    {start scheduler final : LiveScheduler} {report : CycleReport} (wellFormed : pool.WellFormed)
    (started : LiveScheduler.new schedule pool environment = .ok start)
    (atWork : start.AtWork scheduler) (ran : runCycle scheduler = (.ok report, final))
    {earlier later : List SnapshotSection} {part : SnapshotSection}
    (placed : scheduler.sections = earlier ++ part :: later) :
    ∃ opened before taken executed saved,
      earlier.foldlM runSection scheduler.openingReport scheduler = (.ok opened, before) ∧
        SectionRun part opened before taken executed saved ∧
        ∀ writer ∈ Timeslot.roots part.timeslots, ∀ name, pool.publishes writer name = true →
          (writer, name) ∈ ringletWrites opened part.timeslots taken →
          (∀ other ∈ Timeslot.roots part.timeslots, other ≠ writer →
            (other, name) ∉ ringletWrites opened part.timeslots taken) →
          ∃ publisher value,
            ((Timeslot.roots part.timeslots).filter fun id => pool.publishes id name).getLast? =
              some publisher ∧
            executed.pool.external? publisher name = some value ∧
            saved.environment.lookup name = some value ∧
            (publisher ≠ writer → taken.pool.external? publisher name = some value) := by
  obtain ⟨opened, before, taken, executed, saved, ranEarlier, sectionRun⟩ :=
    exists_sectionRun_of_runCycle ran placed
  refine ⟨opened, before, taken, executed, saved, ranEarlier, sectionRun, ?_⟩
  intro writer isRoot name published _ alone
  have frames : executed.Frames pool := by
    have framesStart : start.Frames pool := by
      rw [Frames, (new_eq_ok started).1]
      exact wellFormed.descends
    have framesBefore := Live.Keeps.foldlM keeps_runSection earlier scheduler.openingReport _
      (atWork.frames framesStart)
    rw [ranEarlier] at framesBefore
    exact sectionRun.frames framesBefore
  have declares : (fun id => executed.pool.publishes id name) = fun id => pool.publishes id name :=
    funext fun id => Pool.Descends.publishes_eq frames wellFormed id name
  have isPublisher : writer ∈ (Timeslot.roots part.timeslots).filter fun id =>
      pool.publishes id name :=
    List.mem_filter.mpr ⟨isRoot, published⟩
  obtain ⟨publisher, isLast⟩ : ∃ publisher, ((Timeslot.roots part.timeslots).filter fun id =>
      pool.publishes id name).getLast? = some publisher :=
    ⟨_, List.getLast?_eq_some_getLast (List.ne_nil_of_mem isPublisher)⟩
  obtain ⟨isRootLast, publishedLast⟩ := List.mem_filter.mp (List.mem_of_getLast? isLast)
  have lookup := lookup_saveSnapshots name frames.wellFormed sectionRun.saves
  rw [declares, isLast] at lookup
  obtain ⟨value, holds⟩ := frames.exists_external? wellFormed publishedLast
  refine ⟨publisher, value, isLast, holds, lookup.trans holds, fun different => ?_⟩
  obtain ⟨next, executes⟩ := sectionRun.executes
  rw [← external?_executeSlots executes (alone publisher isRootLast different), holds]

end LiveScheduler

namespace Light

/-- A machine with the light as its output and an entry action. -/
def machine (name : String) (onEntry : Option (Program Unit)) : Machine :=
  { name
    states := [{ name := "Idle", onEntry, onExit := none, internal := none, transitions := []
                 observes := none }]
    initialState := 0
    exitState := none
    suspendState := none
    variableTypes := []
    initialVariables := []
    initialExternals := [.new "light" .actuator .bool] }

/-- Switches the light on. -/
def switchOn : Program Unit :=
  .ask (.setExternal "light" (.bool true)) fun _ => .done ()

/-- The pool of the setter and the holder. Both machines declare the light as an output; the setter
switches it on, and the holder never writes it. -/
def pool : Pool :=
  { entries := [
      { registration := { id := 0, name := "Setter", dependencies := [] }
        executable := .scheduled (machine "Setter" (some switchOn)).start },
      { registration := { id := 1, name := "Holder", dependencies := [] }
        executable := .scheduled (machine "Holder" none).start }] }

/-- One section in which both machines run, in a given order. -/
def part (first second : ExecutableId) : SnapshotSection :=
  { timeslots := [Timeslot.new first 0 1, Timeslot.new second 2 1] }

/-- The schedule of the section. -/
def schedule (first second : ExecutableId) : Schedule :=
  { threads := [{ sections := [part first second] }] }

/-- The scheduler at the start. -/
def start (first second : ExecutableId) : LiveScheduler :=
  { timing := (schedule first second).timing
    sections := [part first second]
    cycleLength := (schedule first second).cycleLength
    pool
    environment := []
    entered := []
    now := 0
    cycles := 0 }

/-- The pool of the light is well-formed. -/
theorem wellFormed : pool.WellFormed := by
  have running : ∀ name onEntry, (machine name onEntry).start.WellFormed := by
    intro name onEntry
    apply Machine.WellFormed.start
    constructor <;> simp [machine, External.Typed, External.new, ValueType.default,
      ValueType.accepts]
  refine ⟨by simp [pool, Pool.ids, PoolEntry.id], ?_⟩
  simp [pool, Executable.running, running]

/-- The scheduler starts with the two machines in either order. -/
theorem started : LiveScheduler.new (schedule 0 1) pool [] = .ok (start 0 1) ∧
    LiveScheduler.new (schedule 1 0) pool [] = .ok (start 1 0) :=
  ⟨by cbv, by cbv⟩

/-- The machines have no inputs, so taking snapshots leaves the scheduler as it is. -/
theorem reads : (part 0 1).timeslots.forM LiveScheduler.takeSnapshot (start 0 1) =
      (.ok (), start 0 1) ∧
    (part 1 0).timeslots.forM LiveScheduler.takeSnapshot (start 1 0) = (.ok (), start 1 0) :=
  ⟨by cbv, by cbv⟩

/-- The setter writes the light, and the holder does not. -/
theorem writes : LiveScheduler.ringletWrites (start 0 1).openingReport (part 0 1).timeslots
      (start 0 1) = [(0, "light")] ∧
    LiveScheduler.ringletWrites (start 1 0).openingReport (part 1 0).timeslots (start 1 0) =
      [(0, "light")] :=
  ⟨by cbv, by cbv⟩

end Light

/-- With the setter in the last timeslot, the value it wrote is the one that is saved. -/
theorem light_environment_of_sole_writer :
    Light.pool.WellFormed ∧
      LiveScheduler.new (Light.schedule 1 0) Light.pool [] = .ok (Light.start 1 0) ∧
      ∃ report final before taken executed saved value,
        LiveScheduler.runCycle (Light.start 1 0) = (.ok report, final) ∧
        LiveScheduler.SectionRun (Light.part 1 0) (Light.start 1 0).openingReport before taken
          executed saved ∧
        executed.pool.external? 0 "light" = some value ∧
        saved.environment.lookup "light" = some value := by
  obtain ⟨report, final, ran⟩ : ∃ report final,
      LiveScheduler.runCycle (Light.start 1 0) = (.ok report, final) := ⟨_, _, by cbv⟩
  obtain ⟨opened, before, taken, executed, saved, isOpened, sectionRun, publishes⟩ :=
    LiveScheduler.environment_of_sole_writer Light.wellFormed Light.started.2 .start ran
      (show (Light.start 1 0).sections = [] ++ Light.part 1 0 :: [] from rfl)
  cases isOpened
  cases Light.reads.2.symm.trans sectionRun.reads
  rw [Light.writes.2] at publishes
  obtain ⟨publisher, value, isLast, holds, looked, _⟩ :=
    publishes 0 (by decide) "light" (by cbv) (by decide) (by decide)
  have isSetter : (List.filter (fun id => Light.pool.publishes id "light")
      (Timeslot.roots (Light.part 1 0).timeslots)).getLast? = some 0 := by cbv
  cases isSetter.symm.trans isLast
  exact ⟨Light.wellFormed, Light.started.2, report, final, _, _, executed, saved, value, ran,
    sectionRun, holds, looked⟩

/-- **A written output may be lost.** The setter alone writes the light, but the holder publishes
its copy after it. -/
theorem not_forall_environment_of_sole_writer :
    ¬ ∀ (schedule : Schedule) (pool : Pool) (environment : PropertyList)
      (start scheduler final : LiveScheduler) (report : CycleReport), pool.WellFormed →
      LiveScheduler.new schedule pool environment = .ok start → start.AtWork scheduler →
      LiveScheduler.runCycle scheduler = (.ok report, final) →
      ∀ (earlier later : List SnapshotSection) (part : SnapshotSection),
        scheduler.sections = earlier ++ part :: later →
      ∀ (opened : CycleReport) (before taken executed saved : LiveScheduler),
        earlier.foldlM LiveScheduler.runSection scheduler.openingReport scheduler =
          (.ok opened, before) →
        LiveScheduler.SectionRun part opened before taken executed saved →
      ∀ writer ∈ Timeslot.roots part.timeslots, ∀ name, pool.publishes writer name = true →
        (writer, name) ∈ LiveScheduler.ringletWrites opened part.timeslots taken →
        (∀ other ∈ Timeslot.roots part.timeslots, other ≠ writer →
          (other, name) ∉ LiveScheduler.ringletWrites opened part.timeslots taken) →
        saved.environment.lookup name = executed.pool.external? writer name := by
  intro lossless
  obtain ⟨report, final, ran⟩ : ∃ report final,
      LiveScheduler.runCycle (Light.start 0 1) = (.ok report, final) := ⟨_, _, by cbv⟩
  obtain ⟨next, executed, saved, executes, saves, isOn, isOff⟩ : ∃ next executed saved,
      (Light.part 0 1).timeslots.foldlM LiveScheduler.executeSlot (Light.start 0 1).openingReport
        (Light.start 0 1) = (.ok next, executed) ∧
      (Light.part 0 1).timeslots.forM LiveScheduler.saveSnapshot executed = (.ok (), saved) ∧
      executed.pool.external? 0 "light" = some (.bool true) ∧
      saved.environment.lookup "light" = some (.bool false) :=
    ⟨_, _, _, by cbv, by cbv, by cbv, by cbv⟩
  have kept := lossless _ _ _ _ _ _ _ Light.wellFormed Light.started.1 .start ran [] []
    (Light.part 0 1) rfl _ _ _ executed saved rfl ⟨Light.reads.1, ⟨next, executes⟩, saves⟩
    0 (by decide) "light" (by cbv) (by rw [Light.writes.1]; decide)
    (by rw [Light.writes.1]; decide)
  rw [isOn, isOff] at kept
  cases kept

end TimedKripke
