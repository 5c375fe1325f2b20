import Mathlib
import TimedKripke.Proofs.Verification.Alike
import TimedKripke.Proofs.Verification.Batching

/-! # Finite behaviours are explored to the end

If finitely many jobs stand for all that a schedule can come to (`Layout.Closed`), then a
verification ends: every job it explores uses up an end of a cycle that was not seen before
(`verify_eq_ok_of_closed`).
-/

namespace TimedKripke

/-- Every job expands, and whatever goes on from it is alike to one of the jobs. -/
def Layout.Closed (layout : Layout) (jobs : List Job) : Prop :=
  ∀ job ∈ jobs, ∃ variations, job.expand layout = .ok variations ∧
    ∀ variation ∈ variations, ∃ next ∈ jobs, (variation.successor 0).Alike next

namespace Job

/-- The variations of a job, none if it cannot be expanded. -/
def variations (job : Job) (layout : Layout) : List ScheduleVariation :=
  match job.expand layout with
  | .ok variations => variations
  | .error _ => []

/-- The properties in which the cycles of some jobs end. -/
def ends (layout : Layout) (jobs : List Job) : Finset PropertyList :=
  (jobs.flatMap fun job => (job.variations layout).filterMap fun variation =>
    variation.nodes.getLast?.map Node.properties).toFinset

/-- The properties in which a variation of a job ends are among those of the jobs. -/
theorem mem_ends {layout : Layout} {jobs : List Job} {job : Job} (isJob : job ∈ jobs)
    {variations : List ScheduleVariation} (expanded : job.expand layout = .ok variations)
    {variation : ScheduleVariation} (member : variation ∈ variations) {properties : PropertyList}
    (isEnd : Verify.Ends variation properties) : properties ∈ ends layout jobs := by
  obtain ⟨last, isLast, rfl⟩ := isEnd
  refine List.mem_toFinset.mpr (List.mem_flatMap.mpr ⟨job, isJob, List.mem_filterMap.mpr
    ⟨variation, ?_, by rw [isLast]; rfl⟩⟩)
  rwa [Job.variations, expanded]

end Job

/-- All of a job that matters to its expansion. -/
def Job.view (job : Job) : Pool × List ScheduleThread × Option Time × Bool :=
  (job.pool, job.threads.map ScheduleThread.uncounted,
    job.predecessor.map fun predecessor => predecessor.slot.endTime, job.initial)

/-- Jobs that look the same are alike. -/
theorem Job.alike_of_view {first second : Job} (same : first.view = second.view) :
    first.Alike second := by
  simp only [view, Prod.mk.injEq] at same
  exact ⟨same.1, same.2.1, same.2.2.1, same.2.2.2⟩

/-- Jobs are closed if what goes on from each looks like one of them. -/
theorem Layout.closed_of_views {layout : Layout} {jobs : List Job}
    (each : ∀ job ∈ jobs, ∃ next : List Job, (∀ successor ∈ next, successor ∈ jobs) ∧
      (job.expand layout).map (List.map fun variation => (variation.successor 0).view) =
        .ok (next.map Job.view)) : layout.Closed jobs := by
  intro job isJob
  obtain ⟨next, within, viewed⟩ := each job isJob
  obtain ⟨variations, expanded, views⟩ := Outcome.map_eq_ok.mp viewed
  refine ⟨variations, expanded, fun variation member => ?_⟩
  have inside : (variation.successor 0).view ∈ next.map Job.view :=
    views ▸ List.mem_map_of_mem member
  obtain ⟨successor, isNext, same⟩ := List.mem_map.mp inside
  exact ⟨successor, within successor isNext, Job.alike_of_view same.symm⟩

namespace Verify

/-- The ends among some that were not seen yet. -/
def unseen (ends : Finset PropertyList) {ν σ : Type} (run : Run ν σ) : Finset PropertyList :=
  ends.filter fun properties => run.visited.elements.contains properties = false

/-- Every job that is queued uses up an end that was not seen yet, so waiting jobs and unseen ends
together do not grow. -/
theorem Wrote.unseen {ν : Type} {previous : Option StateId} {variations : List ScheduleVariation}
    {before after : Run ν KripkeStructure} (wrote : Wrote previous variations before after)
    {ends : Finset PropertyList}
    (within : ∀ variation ∈ variations, ∀ properties, Ends variation properties →
      properties ∈ ends) :
    after.queue.length + (Verify.unseen ends after).card ≤
      before.queue.length + (Verify.unseen ends before).card := by
  obtain ⟨opened, queue, distinct, goOn, _⟩ := wrote.queued
  have isEnd : ∀ next ∈ opened, ∃ variation ∈ variations, Ends variation next.1 := by
    intro next member
    obtain ⟨_, variation, isVariation, ends, _⟩ := goOn next member
    exact ⟨variation, isVariation, ends⟩
  have apart : Disjoint (opened.map Prod.fst).toFinset (Verify.unseen ends after) := by
    refine Finset.disjoint_left.mpr fun properties inOpened isUnseen => ?_
    obtain ⟨next, member, rfl⟩ := List.mem_map.mp (List.mem_toFinset.mp inOpened)
    have seen := (wrote.visited next.1).mpr (.inr (isEnd next member))
    rw [(Finset.mem_filter.mp isUnseen).2] at seen
    cases seen
  have subset : (opened.map Prod.fst).toFinset ∪ Verify.unseen ends after ⊆
      Verify.unseen ends before := by
    refine Finset.union_subset (fun properties inOpened => ?_) fun properties isUnseen => ?_
    · obtain ⟨next, member, rfl⟩ := List.mem_map.mp (List.mem_toFinset.mp inOpened)
      obtain ⟨variation, isVariation, ended⟩ := isEnd next member
      exact Finset.mem_filter.mpr
        ⟨within variation isVariation next.1 ended, (goOn next member).1⟩
    · obtain ⟨isEnd, unseen⟩ := Finset.mem_filter.mp isUnseen
      refine Finset.mem_filter.mpr ⟨isEnd, ?_⟩
      rw [Bool.eq_false_iff] at unseen ⊢
      exact fun seen => unseen ((wrote.visited properties).mpr (.inl seen))
  have counted := Finset.card_le_card subset
  rw [Finset.card_union_of_disjoint apart, List.toFinset_card_of_nodup distinct,
    List.length_map] at counted
  rw [queue, List.length_append, List.length_map]
  omega

variable {settings : VerificationSettings} {layout : Layout}
  {raised : RecordingView → Nat → List CancellationToken}
  (quiet : ∀ view jobs, settings.isCancelled (raised view jobs) = false)
  (unlimited : settings.maxJobs = none) {jobs : List Job} (closed : layout.Closed jobs)
include quiet unlimited closed

/-- Work on the queue ends, as many rounds as there are jobs and unseen ends. -/
theorem processQueue_eq_ok_of_closed (bound : Nat) :
    ∀ {run : Run RecordingView KripkeStructure}, run.Sound →
      (∀ job ∈ run.queue, ∃ known ∈ jobs, job.Alike known) →
      run.queue.length + (unseen (Job.ends layout jobs) run).card ≤ bound →
      ∃ after, processQueue settings.oneByOne layout raised bound run = (.ok (), after) := by
  induction bound with
  | zero =>
      intro run _ _ enough
      have empty : run.queue = [] := List.length_eq_zero_iff.mp (by omega)
      exact ⟨run, processQueue_empty _ _ _ _ empty⟩
  | succ bound fewer =>
      intro run sound known enough
      cases queue : run.queue with
      | nil => exact ⟨run, processQueue_empty _ _ _ _ queue⟩
      | cons job rest =>
          have isQueued : job ∈ run.queue := by simp [queue]
          obtain ⟨model, isModel, alike⟩ := known job isQueued
          obtain ⟨variations, expanded, goOn⟩ := closed model isModel
          obtain ⟨own, expandedOwn, twins⟩ := alike.expand_eq_ok expanded
          have soundRest : Run.Sound { run with queue := rest } :=
            ⟨sound.wellFormed, fun next member => sound.stored next (by simp [queue, member])⟩
          obtain ⟨middle, applied, soundMiddle, _⟩ :=
            applyJob_eq_ok settings.starvationLimit job own
            soundRest (sound.stored job isQueued)
          have wrote := applyJob_wrote settings.starvationLimit job own soundRest.wellFormed
            (sound.stored job isQueued)
          rw [applied] at wrote
          have unlimitedRoom : Room settings run 1 := by
            intro limit limited
            rw [unlimited] at limited
            cases limited
          rw [processQueue_single_ok quiet bound queue unlimitedRoom expandedOwn applied]
          refine fewer soundMiddle ?_ ?_
          · intro next member
            obtain ⟨opened, later, _, resumes, _⟩ := wrote.queued
            rw [later] at member
            rcases List.mem_append.mp member with member | member
            · exact known next (by simp only [queue]; exact List.mem_cons_of_mem job member)
            · obtain ⟨continuation, inOpened, rfl⟩ := List.mem_map.mp member
              obtain ⟨_, variation, isVariation, _, id, same, _⟩ := resumes continuation inOpened
              obtain ⟨twin, isTwin, sameTwin⟩ := twins variation isVariation
              obtain ⟨model', isModel', alike'⟩ := goOn twin isTwin
              rw [same]
              exact ⟨model', isModel',
                (ScheduleVariation.alike_of_uncounted sameTwin id 0).trans alike'⟩
          · have within : ∀ variation ∈ own, ∀ properties, Ends variation properties →
                properties ∈ Job.ends layout jobs := by
              intro variation isVariation properties ended
              obtain ⟨twin, isTwin, sameTwin⟩ := twins variation isVariation
              have nodes := (ScheduleVariation.eq_of_uncounted sameTwin).1
              exact Job.mem_ends isModel expanded isTwin (by rwa [Ends, nodes] at ended)
            have usedUp : middle.queue.length + (unseen (Job.ends layout jobs) middle).card ≤
                rest.length + (unseen (Job.ends layout jobs) run).card := wrote.unseen within
            rw [queue, List.length_cons] at enough
            omega

end Verify

/-- **Finite behaviours are explored to the end**: if finitely many jobs stand for all that are
reached, the verification succeeds within some number of rounds. -/
theorem verify_eq_ok_of_closed {settings : VerificationSettings} {schedule : Schedule} {pool : Pool}
    {raised : RecordingView → Nat → List CancellationToken}
    (quiet : ∀ view jobs, settings.isCancelled (raised view jobs) = false)
    (unlimited : settings.maxJobs = none) (validated : schedule.validate pool = .ok ())
    {jobs : List Job} (isFirst : schedule.firstJob pool ∈ jobs)
    (closed : (Layout.new schedule).Closed jobs) (view : RecordingView) {store : KripkeStructure}
    (wellFormed : store.WellFormed) :
    ∃ bound report run, verify settings.oneByOne schedule pool raised bound view store =
      (.ok report, run) := by
  have sound := Run.sound_started settings.oneByOne schedule pool view wellFormed
  have started : ∀ job ∈ (Run.started settings.oneByOne schedule pool view store).queue,
      ∃ known ∈ jobs, job.Alike known := by
    intro job member
    rw [List.mem_singleton.mp member]
    exact ⟨_, isFirst, .refl _⟩
  obtain ⟨bound, after, processed⟩ : ∃ bound after,
      Verify.processQueue settings.oneByOne (Layout.new schedule) raised bound
        (Run.started settings.oneByOne schedule pool view store) = (.ok (), after) :=
    ⟨_, Verify.processQueue_eq_ok_of_closed quiet unlimited closed _ sound started (Nat.le_refl _)⟩
  have ended := verify_eq settings.oneByOne schedule pool raised bound view store
  rw [validated, processed] at ended
  exact ⟨_, _, _, ended⟩

namespace Switch

/-- Asks whether the button is in a given position. -/
def pressedIs (position : Bool) : Program Bool :=
  .ask (.getExternal "pressed") fun answer => .done (answer == some (.bool position))

/-- A state that is left when the button is in a given position. -/
def state (name : String) (target : Nat) (position : Bool) : MachineState :=
  { name, onEntry := none, onExit := none, internal := none
    transitions := [{ target, guard := pressedIs position }], observes := none }

/-- The button in a given position. -/
def button (position : Bool) : External :=
  { name := "pressed", direction := .sensor, type := .bool, value := .bool position }

/-- The machine: off until the button is pressed, on until it is released. -/
def machine : Machine :=
  { name := "Switch"
    states := [state "Off" 1 true, state "On" 0 false]
    initialState := 0
    exitState := none
    suspendState := none
    variableTypes := []
    initialVariables := []
    initialExternals := [button false] }

/-- The pool of the machine alone. -/
def poolOf (running : Instance) : Pool :=
  { entries := [{ registration := { id := 0, name := "Switch", dependencies := [] }
                  executable := .scheduled running }] }

/-- The pool at the start. -/
def pool : Pool :=
  poolOf machine.start

/-- The schedule: one timeslot, again and again. -/
def schedule : Schedule :=
  { threads := [{ sections := [{ timeslots := [Timeslot.new 0 0 1] }] }] }

/-- The machine after a step with the button in a given position. -/
def after (current : Nat) (previous : String) (moved position : Bool) : Instance :=
  { machine
    currentState := current
    previousStateName := previous
    entryPending := moved
    resumeState := none
    variableValues := []
    externals := [button position] }

/-- The job that goes on after a step. -/
def jobOf (running : Instance) : Job :=
  { pool := poolOf running
    threads := schedule.threads
    predecessor := some { state := 0, slot := Timeslot.new 0 0 1 }
    initial := false }

/-- The jobs that stand for all that the switch comes to. It follows a button, in a schedule of one
timeslot, and five jobs are enough. -/
def jobs : List Job :=
  schedule.firstJob pool :: [after 0 "Off" false false, after 1 "Off" true true,
    after 1 "On" false true, after 0 "On" true false].map jobOf

/-- The pool of the switch is well-formed. -/
theorem wellFormed : pool.WellFormed := by
  have running : machine.start.WellFormed := by
    refine Machine.WellFormed.start ⟨by decide, by decide, by decide, by decide, by decide, ?_⟩
    simp [External.Typed, machine, button, ValueType.accepts]
  exact ⟨List.pairwise_singleton _ _, by simpa [pool, poolOf, Executable.running] using running⟩

/-- From the switch being off, the cycle ends with it off or on, as the button is. -/
theorem expand_off (job : Job) (isOff : job ∈ [schedule.firstJob pool,
    jobOf (after 0 "Off" false false), jobOf (after 0 "On" true false)]) :
    (job.expand (Layout.new schedule)).map
        (List.map fun variation => (variation.successor 0).view) =
      .ok ([jobOf (after 0 "Off" false false), jobOf (after 1 "Off" true true)].map
        Job.view) := by
  simp only [List.mem_cons, List.not_mem_nil, or_false] at isOff
  rcases isOff with rfl | rfl | rfl <;> cbv

/-- From the switch being on, the cycle ends with it off or on, as the button is. -/
theorem expand_on (job : Job) (isOn : job ∈ [jobOf (after 1 "Off" true true),
    jobOf (after 1 "On" false true)]) :
    (job.expand (Layout.new schedule)).map
        (List.map fun variation => (variation.successor 0).view) =
      .ok ([jobOf (after 0 "On" true false), jobOf (after 1 "On" false true)].map Job.view) := by
  simp only [List.mem_cons, List.not_mem_nil, or_false] at isOn
  rcases isOn with rfl | rfl <;> cbv

/-- The jobs of the switch are closed: whatever their variations end in is again among them. -/
theorem closed : (Layout.new schedule).Closed jobs := by
  refine Layout.closed_of_views fun job isJob => ?_
  have known : job ∈ [schedule.firstJob pool, jobOf (after 0 "Off" false false),
      jobOf (after 0 "On" true false)] ∨
      job ∈ [jobOf (after 1 "Off" true true), jobOf (after 1 "On" false true)] := by
    simp only [jobs, List.map_cons, List.map_nil, List.mem_cons, List.not_mem_nil,
      or_false] at isJob ⊢
    rcases isJob with isJob | isJob | isJob | isJob | isJob <;> simp [isJob]
  rcases known with isOff | isOn
  · refine ⟨_, ?_, expand_off job isOff⟩
    simp [jobs]
  · refine ⟨_, ?_, expand_on job isOn⟩
    simp [jobs]

/-- The settings without limits, with one worker. -/
def settings : VerificationSettings :=
  VerificationSettings.oneByOne {}

/-- The switch is verified without a fault, as its jobs are closed. -/
theorem verified : ∃ bound report run, verify settings schedule pool (fun _ _ => []) bound
    ({} : RecordingView) KripkeStructure.empty = (.ok report, run) := by
  refine verify_eq_ok_of_closed ?_ rfl (by cbv) List.mem_cons_self closed _
    KripkeStructure.wellFormed_empty
  exact fun _ _ => rfl

end Switch

end TimedKripke
