import TimedKripke.Proofs.Live.Cycle
import TimedKripke.Proofs.Verification.Aliasing
import TimedKripke.Proofs.Verification.CycleClosure
import TimedKripke.Proofs.Verification.Places
import TimedKripke.Proofs.Verification.Termination
import TimedKripke.Proofs.Verification.Unfolding

/-! # The verification covers the live scheduler

Where the threads of a schedule are independent, a live cycle is a course of the cycle, and every
course is one of the variations that a verification explores (`Job.variation_of_course`). So what
the live scheduler comes to after any number of cycles is shown by a state of the structure
(`exists_state_of_cycles`), however the environment changes between them.
-/

namespace TimedKripke

/-- Live cycles that succeed, each in an environment that knows the inputs of the scheduled
executables. Between cycles the environment may change. -/
inductive LiveScheduler.Cycles (pool : Pool) (schedule : Schedule) :
    Nat → LiveScheduler → LiveScheduler → Prop
  | zero (scheduler : LiveScheduler) : Cycles pool schedule 0 scheduler scheduler
  | succ {count : Nat} {scheduler middle after : LiveScheduler} {environment : PropertyList}
      {report : CycleReport} (earlier : Cycles pool schedule count scheduler middle)
      (supplied : pool.Supplied environment (Timeslot.roots schedule.timeslots))
      (ran : runCycle { middle with environment } = (.ok report, after)) :
      Cycles pool schedule (count + 1) scheduler after

/-- A state shows a pool. -/
def KripkeState.ShowsPool (state : KripkeState) (pool : Pool) : Prop :=
  state.properties.lookup "fsms" = some pool.snapshot

/-- The machines of a state are stored under a key of their own, as the snapshot of the pool. -/
theorem Layout.lookup_properties (layout : Layout) (pool : Pool) (counter : ProgramCounter)
    (slot : Nat) : (layout.properties pool counter slot).lookup "fsms" = some pool.snapshot := by
  rfl

/-- Some executables hold in their inputs what an environment holds. -/
def Pool.Holds (valuation : Valuation) (ids : List ExecutableId) (pool : Pool) : Prop :=
  ∀ id ∈ ids, ∀ executable, pool.get? id = some executable →
    ∀ input ∈ executable.running.observedInputs, input.value = valuation input.name

/-- A pool that holds the values of a valuation has accepted them, so the valuation is one it
admits. -/
theorem Pool.Holds.admits {valuation : Valuation} {ids : List ExecutableId} {pool : Pool}
    (holds : pool.Holds valuation ids) (wellFormed : pool.WellFormed) :
    pool.Admits valuation ids := by
  intro id isId executable found input observed
  rw [← holds id isId executable found input observed]
  exact (wellFormed.get? found).typed input (Executable.mem_of_observed observed)

/-- Reading an environment whose values are held already changes nothing. -/
theorem Executable.reads_eq_self {valuation : Valuation} {executable : Executable}
    (wellFormed : executable.running.WellFormed)
    (holds : ∀ input ∈ executable.running.observedInputs, input.value = valuation input.name) :
    executable.reads valuation = executable := by
  have same : ∀ declared ∈ executable.running.externals,
      declared.holding (executable.running.readings valuation) = declared := by
    intro declared isDeclared
    rw [External.holding, lookup_readings]
    split
    · rename_i value known
      split at known
      · rename_i observed
        obtain ⟨input, isInput, sameName⟩ := List.mem_map.mp observed
        obtain rfl : input = declared := List.inj_on_of_nodup_map wellFormed.distinctExternals
          (mem_of_observed isInput) isDeclared sameName
        rw [← Option.some.inj known, ← holds input isInput]
      · cases known
    · rfl
  have unchanged : executable.running.holding (executable.running.readings valuation) =
      executable.running := by
    rw [Instance.holding, List.map_congr_left same, List.map_id']
  rw [reads, unchanged]
  cases executable <;> rfl

/-- Reading a valuation that the pool already holds changes nothing. -/
theorem Pool.Holds.reads_eq {valuation : Valuation} {ids : List ExecutableId} {pool : Pool}
    (holds : pool.Holds valuation ids) (wellFormed : pool.WellFormed) :
    pool.reads valuation ids = pool := by
  have same : ∀ entry ∈ pool.entries, (if entry.id ∈ ids then
      { entry with executable := entry.executable.reads valuation } else entry) = entry := by
    intro entry member
    split
    · rename_i isId
      have found := get?_of_mem wellFormed.nodup member
      rw [Executable.reads_eq_self (wellFormed.get? found) (holds _ isId _ found)]
    · rfl
  rw [reads, List.map_congr_left same, List.map_id']

section Explored

variable {layout : Layout} {first job : Job} {origin : Pool}

variable {ν : Type} {all : List Job} {run : Run ν KripkeStructure}
  (explored : Explored layout first all [] run) (descends : Pool.Descends origin first.pool)
  (independent : ScheduleThread.Independent origin first.threads)
include explored descends independent

/-- An explored job expands as one with the threads of the first. -/
theorem Explored.expand_threads (known : job ∈ all) : ∃ variations own,
    job.expand layout = .ok variations ∧
      ({ job with threads := first.threads } : Job).expand layout = .ok own ∧
      ∀ variation ∈ own, ∃ twin ∈ variations, variation.uncounted = twin.uncounted := by
  have reached := explored.reached job (by simp [known])
  obtain ⟨variations, expanded, _⟩ := explored.traced job known
  have alike : Job.Alike { job with threads := first.threads } job :=
    ⟨rfl, (reached.threads descends independent.ordered).symm, rfl, rfl⟩
  obtain ⟨own, expandedOwn, twins⟩ := alike.expand_eq_ok expanded
  exact ⟨variations, own, expanded, expandedOwn, twins⟩

/-- An explored job goes through the beats of the schedule. -/
theorem Explored.proceeds (known : job ∈ all) :
    Proceeds layout.timing (ScheduleThread.beats first.threads) job.pool := by
  obtain ⟨_, own, _, expanded, _⟩ := explored.expand_threads descends independent known
  have descendsJob := ((explored.reached job (by simp [known])).kept descends).1
  exact @Job.proceeds { job with threads := first.threads } layout origin descendsJob
    independent own
    expanded

/-- **Every course of an explored job is a variation of it**: its nodes show the moves of the
course, and it ends in the pool where the course ends. -/
theorem Explored.variation_of_course (known : job ∈ all) {moves : List Move} {final : Pool}
    (course : Course layout.timing (ScheduleThread.beats first.threads) job.pool moves final) :
    ∃ variations, job.expand layout = .ok variations ∧ ∃ variation ∈ variations,
      variation.pool = final ∧ List.Forall₂ (Node.Shows layout origin) variation.nodes
        ((Job.positions layout { job with threads := first.threads }).zip moves) := by
  obtain ⟨variations, own, expanded, expandedOwn, twins⟩ :=
    explored.expand_threads descends independent known
  have descendsJob := ((explored.reached job (by simp [known])).kept descends).1
  obtain ⟨variation, member, isFinal, shows⟩ :=
    @Job.variation_of_course { job with threads := first.threads } layout origin descendsJob
      independent own expandedOwn moves final course
  obtain ⟨twin, isTwin, same⟩ := twins variation member
  have nodes : variation.nodes = twin.nodes := by
    simpa [ScheduleVariation.uncounted] using congrArg ScheduleVariation.nodes same
  have pool : variation.pool = twin.pool := by
    simpa [ScheduleVariation.uncounted] using congrArg ScheduleVariation.pool same
  exact ⟨variations, expanded, twin, isTwin, pool ▸ isFinal, nodes ▸ shows⟩

end Explored

/-- Where a variation of an explored job ends, a state shows its pool and an explored job goes on
from it. -/
theorem Explored.ends_shown {ν : Type} {layout : Layout} {first job : Job} {origin : Pool}
    {all : List Job} {run : Run ν KripkeStructure} (explored : Explored layout first all [] run)
    (finished : run.queue = []) (descends : Pool.Descends origin first.pool)
    (distinct : origin.names.Nodup) (known : job ∈ all) {variations : List ScheduleVariation}
    (expanded : job.expand layout = .ok variations) {variation : ScheduleVariation}
    (member : variation ∈ variations) :
    (∃ state ∈ run.store.states, state.ShowsPool variation.pool) ∧
      ∃ next ∈ all, next.pool = variation.pool := by
  obtain ⟨variations', expanded', each⟩ := explored.traced job known
  cases expanded.symm.trans expanded'
  have reached := explored.reached job (by simp [known])
  obtain ⟨closes, threads⟩ := reached.closes descends expanded member
  obtain ⟨last, counter, slot, isLast, shows⟩ := closes.ended
  have ends : Verify.Ends variation last.properties := ⟨last, isLast, rfl⟩
  obtain ⟨next, isNext, parent, siblings, isReached, expandedParent, sibling, isSibling, ends',
    id, rfl, stored, found, same⟩ := explored.resumed _ ((each variation member).2 _ ends)
  obtain ⟨closes', threads'⟩ := isReached.closes descends expandedParent isSibling
  have goesOn := closes.alike distinct closes' (threads.trans threads'.symm) ends ends' id id
  refine ⟨⟨stored, Array.mem_of_getElem? found, ?_⟩, _, by simpa [finished] using isNext,
    goesOn.pool.symm⟩
  rw [KripkeState.ShowsPool, same, shows]
  exact layout.lookup_properties variation.pool counter slot

/-- A scheduler that starts keeps the pool and the timing it was given and orders the sections of
the schedule. -/
theorem LiveScheduler.new_eq_ok {schedule : Schedule} {pool : Pool} {environment : PropertyList}
    {scheduler : LiveScheduler} (started : new schedule pool environment = .ok scheduler) :
    scheduler.pool = pool ∧ scheduler.timing = schedule.timing ∧
      scheduler.sections = orderedSections schedule := by
  unfold new at started
  split at started
  · cases started
  · cases started
    exact ⟨rfl, rfl, rfl⟩

section Coverage

variable {ν : Type} {schedule : Schedule} {pool : Pool} {all : List Job}
  {run : Run ν KripkeStructure}
  (explored : Explored (Layout.new schedule) (schedule.firstJob pool) all [] run)
  (finished : run.queue = []) (wellFormed : pool.WellFormed)
  (independent : ScheduleThread.Independent pool schedule.threads)
include explored finished wellFormed independent

/-- **Live cycles are explored.** The live scheduler stands where some explored job starts, and
after a cycle a state shows its pool. -/
theorem Explored.of_cycles (distinct : pool.names.Nodup) (untimed : pool.Untimed)
    {environment : PropertyList} {scheduler final : LiveScheduler}
    (started : LiveScheduler.new schedule pool environment = .ok scheduler) {count : Nat}
    (cycles : LiveScheduler.Cycles pool schedule count scheduler final) :
    (final.timing = schedule.timing ∧ final.sections = LiveScheduler.orderedSections schedule) ∧
      (∃ job ∈ all, job.pool = final.pool) ∧
      (count ≠ 0 → ∃ state ∈ run.store.states, state.ShowsPool final.pool) := by
  have apart : ∀ part ∈ LiveScheduler.orderedSections schedule,
      (Timeslot.roots part.timeslots).Nodup := by
    intro part scheduled
    rw [LiveScheduler.orderedSections_eq] at scheduled
    obtain ⟨placed, isPlaced, rfl⟩ := List.mem_map.mp scheduled
    obtain ⟨thread, isThread, isPart⟩ := ScheduleThread.mem_interleaved isPlaced
    exact (independent.apart thread (List.mem_of_getElem? isThread) _ isPart).spared.nodup
  induction cycles with
  | zero scheduler =>
      obtain ⟨isPool, timing, sections⟩ := LiveScheduler.new_eq_ok started
      refine ⟨⟨timing, sections⟩, ⟨schedule.firstJob pool, ?_, isPool.symm⟩,
        fun impossible => absurd rfl impossible⟩
      simpa [finished] using explored.started
  | @succ count scheduler middle after environment report earlier supplied ran others =>
      obtain ⟨⟨timing, sections⟩, ⟨job, known, isPool⟩, _⟩ := others started
      have descends := ((explored.reached job (by simp [known])).kept wellFormed.descends).1
      have running : LiveScheduler.Running pool schedule { middle with environment } :=
        ⟨isPool ▸ descends, supplied, timing, sections⟩
      have proceeds := explored.proceeds wellFormed.descends independent known
      rw [isPool] at proceeds
      obtain ⟨runningAfter, moves, course⟩ := LiveScheduler.course_of_runCycle wellFormed untimed
        apart running proceeds ran
      obtain ⟨variations, expanded, variation, member, isFinal, _⟩ :=
        explored.variation_of_course wellFormed.descends independent known (isPool ▸ course)
      obtain ⟨shown, resumed⟩ := explored.ends_shown finished wellFormed.descends distinct known
        expanded member
      rw [isFinal] at shown resumed
      exact ⟨⟨runningAfter.timing, runningAfter.sections⟩, resumed, fun _ => shown⟩

/-- What the pool holds at the start is shown, if an environment holds it. -/
theorem Explored.start_shown {valuation : Valuation}
    (holds : pool.Holds valuation (Timeslot.roots schedule.timeslots)) :
    ∃ state ∈ run.store.states, state.ShowsPool pool := by
  have known : schedule.firstJob pool ∈ all := by simpa [finished] using explored.started
  obtain ⟨variations, expanded, each⟩ := explored.traced _ known
  obtain ⟨one, rest, isFirst, shown⟩ :=
    Job.exists_first wellFormed.descends independent expanded
  have inSchedule : ∀ id ∈ Timeslot.roots one.item.timeslots,
      id ∈ Timeslot.roots schedule.timeslots := by
    refine LiveScheduler.roots_of_mem ?_
    rw [LiveScheduler.orderedSections_eq]
    exact List.mem_map_of_mem (isFirst ▸ List.mem_cons_self)
  have holdsFirst : pool.Holds valuation (Timeslot.roots one.item.timeslots) := fun id isRoot =>
    holds id (inSchedule id isRoot)
  obtain ⟨variation, member, node, counter, slot, isNode, shows⟩ :=
    shown valuation (holdsFirst.admits wellFormed)
  obtain ⟨nodes, isNodes⟩ := List.head?_eq_some_iff.mp isNode
  have traced := (each variation member).1
  rw [isNodes] at traced
  obtain ⟨id, here, _⟩ := traced
  obtain ⟨state, found, same, _⟩ := here.stored
  refine ⟨state, Array.mem_of_getElem? found, ?_⟩
  have unchanged : (schedule.firstJob pool).pool.reads valuation
      (Timeslot.roots one.item.timeslots) = pool := holdsFirst.reads_eq wellFormed
  rw [KripkeState.ShowsPool, same, shows, unchanged]
  exact Layout.lookup_properties _ pool counter slot

end Coverage

/-- **The verification covers the live scheduler.** If the threads of a schedule are independent and
a verification from an empty structure succeeds, then some state of the structure shows the pool of
the live scheduler after any number of cycles, whatever the environment was in each of them. -/
theorem exists_state_of_cycles {ν : Type} [KripkeView ν] {settings : VerificationSettings}
    {schedule : Schedule} {pool : Pool} {raised : ν → Nat → List CancellationToken} {bound : Nat}
    {view : ν} {report : VerificationReport} {run : Run ν KripkeStructure}
    (wellFormed : pool.WellFormed) (distinct : pool.names.Nodup) (untimed : pool.Untimed)
    (independent : ScheduleThread.Independent pool schedule.threads)
    (verified : verify settings schedule pool raised bound view KripkeStructure.empty =
      (.ok report, run)) {environment : PropertyList} {scheduler final : LiveScheduler}
    (started : LiveScheduler.new schedule pool environment = .ok scheduler) {count : Nat}
    (cycles : LiveScheduler.Cycles pool schedule count scheduler final)
    (coherent : count = 0 → ∃ valuation, pool.Holds valuation (Timeslot.roots schedule.timeslots)) :
    ∃ state ∈ run.store.states, state.ShowsPool final.pool := by
  obtain ⟨finished, all, explored⟩ := explored_of_verify verified
  by_cases none : count = 0
  · obtain ⟨valuation, holds⟩ := coherent none
    subst none
    cases cycles
    rw [(LiveScheduler.new_eq_ok started).1]
    exact explored.start_shown finished wellFormed independent holds
  · have shown := explored.of_cycles finished wellFormed independent distinct untimed started cycles
    exact shown.2.2 none

namespace Panel

/-- The pool of a switch and a lamp, which run on threads of their own. -/
def poolOf (switch lamp : Instance) : Pool :=
  { entries := [
      { registration := { id := 0, name := "Switch", dependencies := [] }
        executable := .scheduled switch },
      { registration := { id := 1, name := "Lamp", dependencies := [] }
        executable := .scheduled lamp }] }

/-- The pool at the start. -/
def pool : Pool :=
  poolOf Switch.machine.start (Duo.machine "Lamp").start

/-- Each machine has a thread of its own. -/
def schedule : Schedule :=
  { threads := [{ sections := [{ timeslots := [Timeslot.new 0 0 1] }] },
      { sections := [{ timeslots := [Timeslot.new 1 5 1] }] }] }

/-- The lamp after its first step. -/
def lit : Instance :=
  { (Duo.machine "Lamp").start with entryPending := false, previousStateName := "Idle" }

/-- The job that goes on after a step. -/
def jobOf (running : Instance) : Job :=
  { pool := poolOf running lit
    threads := schedule.threads
    predecessor := some { state := 0, slot := Timeslot.new 1 5 1 }
    initial := false }

/-- The jobs that stand for all that the panel comes to. -/
def jobs : List Job :=
  schedule.firstJob pool :: [Switch.after 0 "Off" false false, Switch.after 1 "Off" true true,
    Switch.after 1 "On" false true, Switch.after 0 "On" true false].map jobOf

/-- From the panel with the switch off, the cycle ends with the switch off or on, as the button is.
-/
theorem expand_off (job : Job) (isOff : job ∈ [schedule.firstJob pool,
    jobOf (Switch.after 0 "Off" false false), jobOf (Switch.after 0 "On" true false)]) :
    (job.expand (Layout.new schedule)).map
        (List.map fun variation => (variation.successor 0).view) =
      .ok ([jobOf (Switch.after 0 "Off" false false), jobOf (Switch.after 1 "Off" true true)].map
        Job.view) := by
  simp only [List.mem_cons, List.not_mem_nil, or_false] at isOff
  rcases isOff with rfl | rfl | rfl <;> cbv

/-- From the panel with the switch on, the cycle ends with the switch off or on, as the button is.
-/
theorem expand_on (job : Job) (isOn : job ∈ [jobOf (Switch.after 1 "Off" true true),
    jobOf (Switch.after 1 "On" false true)]) :
    (job.expand (Layout.new schedule)).map
        (List.map fun variation => (variation.successor 0).view) =
      .ok ([jobOf (Switch.after 0 "On" true false), jobOf (Switch.after 1 "On" false true)].map
        Job.view) := by
  simp only [List.mem_cons, List.not_mem_nil, or_false] at isOn
  rcases isOn with rfl | rfl <;> cbv

/-- The jobs of the panel are closed: whatever their variations end in is again among them. -/
theorem closed : (Layout.new schedule).Closed jobs := by
  refine Layout.closed_of_views fun job isJob => ?_
  have known : job ∈ [schedule.firstJob pool, jobOf (Switch.after 0 "Off" false false),
      jobOf (Switch.after 0 "On" true false)] ∨
      job ∈ [jobOf (Switch.after 1 "Off" true true), jobOf (Switch.after 1 "On" false true)] := by
    simp only [jobs, List.map_cons, List.map_nil, List.mem_cons, List.not_mem_nil, or_false]
      at isJob ⊢
    rcases isJob with isJob | isJob | isJob | isJob | isJob <;> simp [isJob]
  rcases known with isOff | isOn
  · refine ⟨_, ?_, expand_off job isOff⟩
    simp [jobs]
  · refine ⟨_, ?_, expand_on job isOn⟩
    simp [jobs]

/-- The panel is verified without a fault, as its jobs are closed. -/
theorem verified : ∃ bound report run, verify Switch.settings schedule pool (fun _ _ => []) bound
    ({} : RecordingView) KripkeStructure.empty = (.ok report, run) := by
  refine verify_eq_ok_of_closed ?_ rfl (by cbv) List.mem_cons_self closed _
    KripkeStructure.wellFormed_empty
  exact fun _ _ => rfl

/-- The pool of the panel is well-formed. -/
theorem wellFormed : pool.WellFormed := by
  have switch : Switch.machine.start.WellFormed := Switch.wellFormed.running _ List.mem_cons_self
  have lamp : (Duo.machine "Lamp").start.WellFormed := Duo.running "Lamp"
  refine ⟨by simp [pool, poolOf, Pool.ids, PoolEntry.id], ?_⟩
  simp [pool, poolOf, Executable.running, switch, lamp]

/-- The machines only ask for the position of the button. -/
theorem request_eq {entry : PoolEntry} (member : entry ∈ pool.entries) {request : Request}
    (may : entry.executable.running.machine.MayRequest request) :
    request = .getExternal "pressed" := by
  obtain ⟨state, isState, asks⟩ := may
  rw [MachineState.mayRequest_iff] at asks
  simp only [pool, poolOf, List.mem_cons, List.not_mem_nil, or_false] at member
  rcases member with rfl | rfl
  · simp [Executable.running, Switch.machine, Machine.start] at isState
    rcases isState with rfl | rfl <;> simpa [Switch.state, Switch.pressedIs, eq_comm] using asks
  · simp [Executable.running, Duo.machine, Machine.start] at isState
    subst isState
    simp at asks

/-- No machine of the panel asks for the time. -/
theorem untimed : pool.Untimed := fun _ member may => nomatch request_eq member may

/-- Each thread touches the machine of its own place only. -/
theorem place_of_touches {place : Nat} {thread : ScheduleThread}
    (isThread : schedule.threads[place]? = some thread) {id : ExecutableId}
    (touches : pool.Touches thread.chains id) : id = place := by
  have chains : thread.chains = [CallChain.new place] := by
    match place with
    | 0 =>
        cases isThread
        rfl
    | 1 =>
        cases isThread
        rfl
    | _ + 2 =>
        cases isThread
  rw [chains] at touches
  rcases touches with involves | ⟨_, _, _, found, may⟩
  · cases involves with
    | root member =>
        rw [List.mem_singleton.mp member]
        rfl
    | opened member isOpen =>
        rw [List.mem_singleton.mp member] at isOpen
        cases isOpen
    | called _ found may =>
        obtain ⟨entry, member, _, rfl⟩ := Pool.mem_of_get? found
        obtain ⟨method, name, parameters, asks, _⟩ := may
        cases request_eq member asks
  · obtain ⟨entry, member, _, rfl⟩ := Pool.mem_of_get? found
    obtain ⟨name, asks, _⟩ := may
    cases request_eq member asks

/-- The panel runs on one thread, so its threads are independent. -/
theorem independent : ScheduleThread.Independent pool schedule.threads where
  ordered := by
    intro thread isThread
    simp only [schedule, List.mem_cons, List.not_mem_nil, or_false] at isThread
    rcases isThread with rfl | rfl <;> cbv
  apart := by
    intro thread isThread part isPart
    simp only [schedule, List.mem_cons, List.not_mem_nil, or_false] at isThread
    rcases isThread with rfl | rfl <;> rw [List.mem_singleton.mp isPart] <;>
      exact List.pairwise_singleton _ _
  separate := by
    intro place place' thread thread' isThread isThread' differ id involves touches
    exact differ ((place_of_touches isThread (.inl involves)).symm.trans
      (place_of_touches isThread' touches))

/-- The panel about to run, with the button pressed. -/
def scheduler : LiveScheduler :=
  { timing := schedule.timing
    sections := [{ timeslots := [Timeslot.new 0 0 1] }, { timeslots := [Timeslot.new 1 5 1] }]
    cycleLength := schedule.cycleLength
    pool
    environment := [("pressed", .bool true)]
    entered := []
    now := 0
    cycles := 0 }

/-- The scheduler of the panel starts with the button pressed. -/
theorem started : LiveScheduler.new schedule pool [("pressed", .bool true)] = .ok scheduler := by
  cbv

/-- A cycle of the panel with the button pressed switches it on and lights the lamp. -/
theorem ran : ∃ report after, LiveScheduler.runCycle scheduler = (.ok report, after) ∧
    after.pool = poolOf (Switch.after 1 "Off" true true) lit := by
  exact ⟨_, _, by cbv, by cbv⟩

/-- The environment gives every input of the panel a value of its type. -/
theorem supplied : pool.Supplied scheduler.environment (Timeslot.roots schedule.timeslots) := by
  intro id isId executable found input declared isInput
  have ids : Timeslot.roots schedule.timeslots = [0, 1] := rfl
  rw [ids] at isId
  simp only [List.mem_cons, List.not_mem_nil, or_false] at isId
  rcases isId with rfl | rfl
  · have isSwitch : pool.get? 0 = some (.scheduled Switch.machine.start) := rfl
    cases isSwitch.symm.trans found
    rw [List.mem_singleton.mp declared]
    rfl
  · have isLamp : pool.get? 1 = some (.scheduled (Duo.machine "Lamp").start) := rfl
    cases isLamp.symm.trans found
    cases declared

end Panel

/-- After a cycle with the button pressed, a state shows the panel with the switch on. -/
theorem panel_exists_state_of_cycles : ∃ bound report run,
    verify Switch.settings Panel.schedule Panel.pool (fun _ _ => []) bound ({} : RecordingView)
      KripkeStructure.empty = (.ok report, run) ∧
    ∃ state ∈ run.store.states,
      state.ShowsPool (Panel.poolOf (Switch.after 1 "Off" true true) Panel.lit) := by
  obtain ⟨bound, report, run, verified⟩ := Panel.verified
  obtain ⟨cycle, after, ran, isPool⟩ := Panel.ran
  refine ⟨bound, report, run, verified, ?_⟩
  have cycles : LiveScheduler.Cycles Panel.pool Panel.schedule 1 Panel.scheduler after :=
    .succ (.zero _) Panel.supplied ran
  rw [← isPool]
  exact exists_state_of_cycles Panel.wellFormed (by decide) Panel.untimed Panel.independent verified
    Panel.started cycles (fun none => nomatch none)

end TimedKripke
