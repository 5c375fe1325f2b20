import TimedKripke.Proofs.Verification.Additions

/-! # Jobs in the order of the queue

Applying a job reads nothing of the queue and only adds to its end. So batches come to what the
jobs come to when each is taken off the front of the queue when its turn comes
(`Verify.Processes`): work on the queue succeeds exactly if the jobs can be processed in this way
until none is left (`Verify.processes_of_processQueue`, `Verify.processQueue_of_processes`), and
with a limit the same jobs are processed until the limit is reached
(`Verify.processQueue_of_limit`). This holds of all views and stores.
-/

namespace TimedKripke

variable {ν σ : Type}

namespace Run

/-- The run without its queue and the record of the longest queue. -/
def unqueued (run : Run ν σ) : Run ν σ :=
  { run with queue := [], stats := { run.stats with maxQueueLength := 0 } }

/-- A run is what it is without its queue, with its queue put back. -/
theorem ahead_unqueued (run : Run ν σ) :
    run.unqueued.ahead run.queue run.stats.maxQueueLength = run := by
  simp [unqueued, ahead]

/-- Without its queue, a run is the same whatever was ahead. -/
@[simp] theorem unqueued_ahead (run : Run ν σ) (front : List Job) (longest : Nat) :
    (run.ahead front longest).unqueued = run.unqueued :=
  rfl

end Run

/-- What writing to the store leaves alone: the view, the states that count as handed to it, and
the counters that have nothing to do with the queue. -/
structure Books (ν : Type) where
  view : ν
  committed : Std.HashSet StateId
  jobsProcessed : Nat
  scheduleVariations : Nat
  statesCommitted : Nat

/-- The books of a run. -/
def Run.books (run : Run ν σ) : Books ν :=
  { view := run.view
    committed := run.committed
    jobsProcessed := run.stats.jobsProcessed
    scheduleVariations := run.stats.scheduleVariations
    statesCommitted := run.stats.statesCommitted }

namespace Verify

/-- The part leaves the books alone. -/
def KeepsBooks {α : Type} (part : Verify ν σ α) : Prop :=
  ∀ run, (part run).2.books = run.books

/-- Two parts that leave the books alone do so one after the other. -/
theorem KeepsBooks.bind {α β : Type} {part : Verify ν σ α} {next : α → Verify ν σ β}
    (first : KeepsBooks part) (later : ∀ answer, KeepsBooks (next answer)) :
    KeepsBooks (part >>= next) := by
  intro run
  have kept := first run
  cases ran : part run with
  | mk outcome middle =>
      rw [ran] at kept
      cases outcome with
      | error error => rwa [bind_of_error ran]
      | ok answer =>
          rw [bind_of_ok ran]
          exact (later answer middle).trans kept

/-- A loop of steps that leave the books alone does so. -/
theorem KeepsBooks.foldlM {α β : Type} {step : β → α → Verify ν σ β}
    (each : ∀ state item, KeepsBooks (step state item)) (items : List α) :
    ∀ state, KeepsBooks (items.foldlM step state) := by
  induction items with
  | nil => exact fun _ _ => rfl
  | cons item rest others =>
      intro state
      rw [List.foldlM_cons]
      exact (each state item).bind others

variable [KripkeStore σ]

/-- Writing a node leaves the books alone. -/
theorem keepsBooks_writeNode (written : Written) (node : Node) :
    KeepsBooks (writeNode written node : Verify ν σ Written) := by
  unfold writeNode
  refine KeepsBooks.bind (fun _ => rfl) fun _ => ?_
  refine KeepsBooks.bind (fun _ => rfl) fun _ => ?_
  refine KeepsBooks.bind (fun _ => rfl) fun _ => ?_
  cases written.previous with
  | none => exact fun _ => rfl
  | some source => exact KeepsBooks.bind (fun _ => rfl) fun _ _ => rfl

/-- Writing a variation leaves the books alone. -/
theorem keepsBooks_applyVariation (limit : Time) (predecessor : Option Predecessor)
    (applied : Applied) (variation : ScheduleVariation) :
    KeepsBooks (applyVariation limit predecessor applied variation : Verify ν σ Applied) := by
  unfold applyVariation
  refine (KeepsBooks.foldlM keepsBooks_writeNode _ _).bind fun written => ?_
  refine KeepsBooks.bind (fun _ => rfl) fun _ => ?_
  cases variation.nodes.getLast? with
  | none => exact fun _ => rfl
  | some last =>
      cases written.previous with
      | none => exact fun _ => rfl
      | some id =>
          refine KeepsBooks.bind (fun _ => rfl) fun run => ?_
          refine KeepsBooks.bind (fun _ => rfl) fun _ => ?_
          split
          · exact fun _ => rfl
          · exact fun _ => rfl

variable [KripkeView ν]

/-- **Applying a job** writes its variations, which leaves the books alone, then hands states to
the view, and counts the job. -/
theorem applyJob_parts {limit : Time} {job : Job} {variations : List ScheduleVariation}
    {run after : Run ν σ} (ran : applyJob limit job variations run = (.ok (), after)) :
    ∃ applied middle shown,
      variations.foldlM (applyVariation limit job.predecessor) { created := [], deferred := [] }
        (countVariations variations.length run) = (.ok applied, middle) ∧
      middle.books = (countVariations variations.length run).books ∧
      (completed job applied).forM commit middle = (.ok (), shown) ∧ after = countJob shown := by
  rw [applyJob_eq, modify_bind] at ran
  obtain ⟨applied, middle, writes, ran⟩ := bind_eq_ok ran
  obtain ⟨_, shown, commits, ran⟩ := bind_eq_ok ran
  have kept := KeepsBooks.foldlM (keepsBooks_applyVariation limit job.predecessor) variations
    { created := [], deferred := [] } (countVariations variations.length run)
  rw [writes] at kept
  cases ran
  exact ⟨applied, middle, shown, writes, kept, commits, rfl⟩

/-- Applying a job counts it as processed once. -/
theorem jobsProcessed_applyJob {limit : Time} {job : Job} {variations : List ScheduleVariation}
    {run after : Run ν σ} (ran : applyJob limit job variations run = (.ok (), after)) :
    after.stats.jobsProcessed = run.stats.jobsProcessed + 1 := by
  obtain ⟨applied, middle, shown, _, books, commits, rfl⟩ := applyJob_parts ran
  obtain ⟨view, committed, count, same⟩ := OnlyShows.forM onlyShows_commit (completed job applied)
    middle
  rw [commits] at same
  have kept : shown.stats.jobsProcessed = middle.stats.jobsProcessed :=
    congrArg (fun run => run.stats.jobsProcessed) same
  have counted : middle.stats.jobsProcessed = run.stats.jobsProcessed :=
    congrArg Books.jobsProcessed books
  exact congrArg (· + 1) (kept.trans counted)

/-- Applying a job does the same without the queue, and queues what it queues behind it. -/
theorem applyJob_unqueued (limit : Time) (job : Job) (variations : List ScheduleVariation)
    (run : Run ν σ) : ∃ longest, applyJob limit job variations run =
      ((applyJob limit job variations run.unqueued).1,
        (applyJob limit job variations run.unqueued).2.ahead run.queue longest) := by
  have framed : Framed run.queue (applyJob limit job variations : Verify ν σ Unit) :=
    framed_applyJob limit job variations
  obtain ⟨longest, same⟩ := framed run.unqueued run.stats.maxQueueLength
  rw [Run.ahead_unqueued] at same
  exact ⟨longest, same⟩

/-- From the run `before`, jobs are taken off the front of the queue and processed one after the
other; what they queue goes to its end. This leaves the run `after` and the queue `left`. -/
inductive Processes (layout : Layout) (limit : Time) : (before : Run ν σ) →
    (queue jobs : List Job) → (after : Run ν σ) → (left : List Job) → Prop
  | nil (run : Run ν σ) (queue : List Job) : Processes layout limit run queue [] run queue
  | cons {before middle after : Run ν σ} {job : Job} {queue jobs left : List Job}
      {variations : List ScheduleVariation} (expanded : job.expand layout = .ok variations)
      (applied : applyJob limit job variations before = (.ok (), middle))
      (rest : Processes layout limit middle.unqueued (queue ++ middle.queue) jobs after left) :
      Processes layout limit before (job :: queue) (job :: jobs) after left

namespace Processes

variable {layout : Layout} {limit : Time} {before middle after : Run ν σ}
  {queue jobs more left : List Job}

/-- Jobs processed after others are processed with them. -/
theorem append {between : List Job}
    (first : Processes layout limit before queue jobs middle between)
    (second : Processes layout limit middle between more after left) :
    Processes layout limit before queue (jobs ++ more) after left := by
  induction first with
  | nil => exact second
  | cons expanded applied _ others => exact .cons expanded applied (others second)

/-- Processing a list of jobs is processing its first part and then its second. -/
theorem of_append (processes : Processes layout limit before queue (jobs ++ more) after left) :
    ∃ middle between, Processes layout limit before queue jobs middle between ∧
      Processes layout limit middle between more after left := by
  induction jobs generalizing before queue with
  | nil => exact ⟨before, queue, .nil before queue, processes⟩
  | cons job jobs others =>
      cases processes with
      | cons expanded applied rest =>
          obtain ⟨middle, between, first, second⟩ := others rest
          exact ⟨middle, between, .cons expanded applied first, second⟩

/-- The jobs that were processed determine the run and the queue that are left. -/
theorem unique {other : Run ν σ} {otherLeft : List Job}
    (processes : Processes layout limit before queue jobs after left)
    (again : Processes layout limit before queue jobs other otherLeft) :
    after = other ∧ left = otherLeft := by
  induction processes with
  | nil =>
      cases again
      exact ⟨rfl, rfl⟩
  | cons expanded applied _ others =>
      cases again with
      | cons expandedAgain appliedAgain rest =>
          cases expanded.symm.trans expandedAgain
          cases applied.symm.trans appliedAgain
          exact others rest

/-- Jobs are processed in the order in which they were queued. -/
theorem exists_queued (processes : Processes layout limit before queue jobs after left) :
    ∃ queued, queue ++ queued = jobs ++ left := by
  induction processes with
  | nil => exact ⟨[], List.append_nil _⟩
  | @cons _ middle _ job queue jobs left _ _ _ _ others =>
      obtain ⟨queued, same⟩ := others
      refine ⟨middle.queue ++ queued, ?_⟩
      rw [List.cons_append, ← List.append_assoc, same, List.cons_append]

/-- The jobs that were processed are counted, each of them once. -/
theorem jobsProcessed_eq (processes : Processes layout limit before queue jobs after left) :
    after.stats.jobsProcessed = before.stats.jobsProcessed + jobs.length := by
  induction processes with
  | nil => rfl
  | @cons before middle _ _ _ jobs _ _ _ applied _ others =>
      have counted : middle.stats.jobsProcessed = before.stats.jobsProcessed + 1 :=
        jobsProcessed_applyJob applied
      have same : middle.unqueued.stats.jobsProcessed = middle.stats.jobsProcessed := rfl
      rw [others, same, counted, List.length_cons]
      omega

/-- Jobs that can be processed one after the other can be expanded together and then applied. -/
theorem applyJobs {rest : List Job} : ∀ {run : Run ν σ}, run.queue = rest →
    Processes layout limit run.unqueued (jobs ++ rest) jobs after left →
      ∃ expansions last, jobs.mapM (fun job => job.expand layout) = .ok expansions ∧
        Verify.applyJobs limit (jobs.zip expansions) run = (.ok (), last) ∧
        last.unqueued = after ∧ last.queue = left := by
  induction jobs generalizing rest with
  | nil =>
      intro run isRest processes
      cases processes
      exact ⟨[], run, rfl, rfl, rfl, isRest⟩
  | cons job jobs others =>
      intro run isRest processes
      rw [List.cons_append] at processes
      cases processes with
      | @cons _ middle _ _ _ _ _ variations expanded applied later =>
          obtain ⟨longest, framed⟩ := applyJob_unqueued limit job variations run
          rw [applied, isRest] at framed
          rw [List.append_assoc] at later
          obtain ⟨expansions, last, mapped, ran, sameLast, isLeft⟩ :=
            others (Run.ahead_queue middle rest longest) later
          refine ⟨variations :: expansions, last, ?_, (bind_of_ok framed).trans ran,
            sameLast, isLeft⟩
          rw [List.mapM_cons, expanded, mapped]
          rfl

end Processes

section Queue

variable {settings : VerificationSettings} {layout : Layout}
  {raised : ν → Nat → List CancellationToken} {after : Run ν σ}

/-- Applying a batch processes its jobs one after the other, with what they queue behind the rest.
-/
theorem processes_of_applyJobs {limit : Time} {jobs : List Job} :
    ∀ {expansions : List (List ScheduleVariation)} {run after : Run ν σ},
      jobs.mapM (fun job => job.expand layout) = .ok expansions →
      applyJobs limit (jobs.zip expansions) run = (.ok (), after) →
        Processes layout limit run.unqueued (jobs ++ run.queue) jobs after.unqueued
            after.queue := by
  induction jobs with
  | nil =>
      intro expansions run after _ ran
      cases ran
      exact .nil _ _
  | cons job jobs others =>
      intro expansions run after mapped ran
      obtain ⟨variations, more, expanded, mappedMore, rfl⟩ := mapM_cons_eq_ok mapped
      obtain ⟨_, middle, applied, later⟩ := bind_eq_ok ran
      obtain ⟨longest, framed⟩ := applyJob_unqueued limit job variations run
      have answer := framed.symm.trans applied
      cases alone : applyJob limit job variations run.unqueued with
      | mk outcome last =>
          rw [alone] at answer
          cases answer
          have rest := others mappedMore later
          rw [Run.ahead_queue, Run.unqueued_ahead, ← List.append_assoc] at rest
          exact .cons expanded alone rest

/-- **Work on the queue that succeeds** has processed jobs in the order of the queue until none
was left. -/
theorem processes_of_processQueue (bound : Nat) : ∀ {run after : Run ν σ},
    processQueue settings layout raised bound run = (.ok (), after) → after.queue = [] ∧
      ∃ jobs, Processes layout settings.starvationLimit run.unqueued run.queue jobs after.unqueued
        [] := by
  have idle : ∀ {run : Run ν σ}, run.queue.isEmpty → run.queue = [] ∧ ∃ jobs,
      Processes layout settings.starvationLimit run.unqueued run.queue jobs run.unqueued [] := by
    intro run isEmpty
    have empty : run.queue = [] := List.isEmpty_iff.mp isEmpty
    rw [empty]
    exact ⟨rfl, [], .nil _ _⟩
  induction bound with
  | zero =>
      intro run after ran
      rw [processQueue, get_bind] at ran
      split at ran
      · rename_i isEmpty
        cases ran
        exact idle isEmpty
      · cases ran
  | succ bound fewer =>
      intro run after ran
      rw [processQueue_succ] at ran
      split at ran
      · rename_i isEmpty
        cases ran
        exact idle isEmpty
      · split at ran
        · cases ran
        · split at ran
          · cases ran
          · rename_i width _
            obtain ⟨_, middle, batch, later⟩ := bind_eq_ok ran
            rw [processBatch_eq] at batch
            cases mapped : (run.queue.take width).mapM fun job => job.expand layout with
            | error cause =>
                rw [mapped] at batch
                cases batch
            | ok expansions =>
                rw [mapped] at batch
                have first := processes_of_applyJobs mapped batch
                rw [List.take_append_drop] at first
                obtain ⟨empty, jobs, second⟩ := fewer later
                exact ⟨empty, _, first.append second⟩

/-- If all jobs of a queue can be processed one by one, a batch from its front can, and the rest can
be processed after it. -/
theorem processBatch_of_processes {run : Run ν σ} {jobs : List Job}
    (processes : Processes layout settings.starvationLimit run.unqueued run.queue jobs after [])
    {width : Nat} (within : width ≤ run.queue.length) :
    ∃ middle, processBatch settings layout width run = (.ok (), middle) ∧
      Processes layout settings.starvationLimit run.unqueued run.queue (jobs.take width)
        middle.unqueued middle.queue ∧
      Processes layout settings.starvationLimit middle.unqueued middle.queue (jobs.drop width)
        after [] := by
  obtain ⟨queued, order⟩ := processes.exists_queued
  have front : jobs.take width = run.queue.take width := by
    rw [← List.append_nil jobs, ← order]
    exact List.take_append_of_le_length within
  rw [← List.take_append_drop width jobs] at processes
  obtain ⟨between, left, batch, rest⟩ := processes.of_append
  have taken := batch
  rw [front] at taken
  nth_rewrite 1 [← List.take_append_drop width run.queue] at taken
  have dropped : ({ run with queue := run.queue.drop width } : Run ν σ).queue =
    run.queue.drop width := rfl
  obtain ⟨expansions, middle, mapped, ran, rfl, rfl⟩ := Processes.applyJobs dropped taken
  refine ⟨middle, ?_, batch, rest⟩
  rw [processBatch_eq, mapped]
  exact ran

variable (quiet : ∀ view jobs, settings.isCancelled (raised view jobs) = false)
include quiet

/-- A round of the work on a queue whose jobs can be processed to the end. -/
theorem processQueue_round (bound : Nat) {run : Run ν σ} {jobs : List Job}
    (processes : Processes layout settings.starvationLimit run.unqueued run.queue jobs after [])
    (waiting : run.queue ≠ []) {width : Nat} (planned : batchWidth settings run = .ok width)
    (within : width ≤ run.queue.length) :
    ∃ middle, processQueue settings layout raised (bound + 1) run =
        processQueue settings layout raised bound middle ∧
      Processes layout settings.starvationLimit run.unqueued run.queue (jobs.take width)
        middle.unqueued middle.queue ∧
      Processes layout settings.starvationLimit middle.unqueued middle.queue (jobs.drop width)
        after [] := by
  obtain ⟨middle, batch, first, rest⟩ := processBatch_of_processes processes within
  have going := ne_true_of_eq_false (quiet run.view run.stats.jobsProcessed)
  refine ⟨middle, ?_, first, rest⟩
  rw [processQueue_succ, if_neg (by simpa using waiting), if_neg going, planned]
  exact bind_of_ok batch

/-- **Jobs that can be processed to the end are**, if the limit leaves room for them. -/
theorem processQueue_of_processes (bound : Nat) : ∀ {run : Run ν σ} {jobs : List Job},
    Processes layout settings.starvationLimit run.unqueued run.queue jobs after [] →
    Room settings run jobs.length → jobs.length ≤ bound →
      ∃ last, processQueue settings layout raised bound run = (.ok (), last) ∧
        last.unqueued = after := by
  have idle : ∀ bound {run : Run ν σ} {jobs : List Job}, run.queue = [] →
      Processes layout settings.starvationLimit run.unqueued run.queue jobs after [] →
        ∃ last, processQueue settings layout raised bound run = (.ok (), last) ∧
          last.unqueued = after := by
    intro bound run jobs empty processes
    refine ⟨run, processQueue_empty _ _ _ _ empty, ?_⟩
    rw [empty] at processes
    cases processes
    rfl
  induction bound with
  | zero =>
      intro run jobs processes _ enough
      obtain ⟨queued, order⟩ := processes.exists_queued
      refine idle 0 ?_ processes
      have none : jobs = [] := List.length_eq_zero_iff.mp (Nat.le_zero.mp enough)
      rw [none] at order
      exact (List.append_eq_nil_iff.mp order).1
  | succ bound fewer =>
      intro run jobs processes room enough
      by_cases waiting : run.queue = []
      · exact idle (bound + 1) waiting processes
      · obtain ⟨queued, order⟩ := processes.exists_queued
        have more := congrArg List.length order
        have someJob := List.length_pos_iff.mpr waiting
        rw [List.length_append, List.append_nil] at more
        rcases batchWidth_cases settings waiting with ⟨limit, limited, reached, _⟩ |
          ⟨width, planned, positive, _, within, _⟩
        · have := room limit limited
          omega
        · obtain ⟨middle, round, first, rest⟩ :=
            processQueue_round quiet bound processes waiting planned within
          have counted : middle.stats.jobsProcessed = run.stats.jobsProcessed + width := by
            have counted := first.jobsProcessed_eq
            rw [List.length_take, Nat.min_eq_left (by omega)] at counted
            exact counted
          rw [round]
          refine fewer rest ?_ ?_
          · intro limit limited
            have := room limit limited
            rw [counted, List.length_drop]
            omega
          · rw [List.length_drop]
            omega

/-- **A limit truncates.** Of more jobs than the limit admits, exactly so many are processed, and
then the work stops. -/
theorem processQueue_of_limit {limit : Nat} (limited : settings.maxJobs = some limit)
    (bound : Nat) :
    ∀ {run : Run ν σ} {jobs : List Job},
    Processes layout settings.starvationLimit run.unqueued run.queue jobs after [] →
    run.stats.jobsProcessed ≤ limit → limit < run.stats.jobsProcessed + jobs.length →
    jobs.length < bound →
      ∃ last, processQueue settings layout raised bound run =
          (.error (.jobLimitExceeded limit), last) ∧
        Processes layout settings.starvationLimit run.unqueued run.queue
          (jobs.take (limit - run.stats.jobsProcessed)) last.unqueued last.queue := by
  induction bound with
  | zero => exact fun _ _ _ impossible => absurd impossible (Nat.not_lt_zero _)
  | succ bound fewer =>
      intro run jobs processes below above enough
      obtain ⟨queued, order⟩ := processes.exists_queued
      have more := congrArg List.length order
      rw [List.length_append, List.append_nil] at more
      have waiting : run.queue ≠ [] := by
        intro empty
        rw [empty] at processes
        cases processes
        simp only [List.length_nil] at above
        omega
      have someJob := List.length_pos_iff.mpr waiting
      rcases batchWidth_cases settings waiting with ⟨reachedLimit, isLimit, reached, stopped⟩ |
        ⟨width, planned, positive, _, within, room⟩
      · cases limited.symm.trans isLimit
        have going := ne_true_of_eq_false (quiet run.view run.stats.jobsProcessed)
        refine ⟨run, ?_, ?_⟩
        · rw [processQueue_succ, if_neg (by simpa using waiting), if_neg going, stopped]
        · rw [Nat.sub_eq_zero_of_le reached, List.take_zero]
          exact .nil _ _
      · obtain ⟨middle, round, first, rest⟩ :=
          processQueue_round quiet bound processes waiting planned within
        have counted : middle.stats.jobsProcessed = run.stats.jobsProcessed + width := by
          have counted := first.jobsProcessed_eq
          rw [List.length_take, Nat.min_eq_left (by omega)] at counted
          exact counted
        have stillBelow := room limit limited
        have length := List.length_drop (i := width) (l := jobs)
        obtain ⟨last, stopped, later⟩ := fewer rest (by omega) (by omega) (by omega)
        refine ⟨last, round.trans stopped, ?_⟩
        have whole : limit - run.stats.jobsProcessed =
            width + (limit - middle.stats.jobsProcessed) := by omega
        rw [whole, List.take_add]
        exact first.append later

end Queue

end Verify

section Verification

variable [KripkeView ν] [KripkeStore σ] {settings : VerificationSettings} {schedule : Schedule}
  {pool : Pool} {raised : ν → Nat → List CancellationToken} {bound : Nat} {view : ν} {store : σ}

/-- What a verification that succeeds has done: after the reset of the view it has processed jobs,
from the first one on until none was left; then it has flushed the store and finished the view. It
reports what the last job has left. -/
theorem report_of_verify {report : VerificationReport} {run : Run ν σ}
    (verified : verify settings schedule pool raised bound view store = (.ok report, run)) :
    schedule.validate pool = .ok () ∧ ∃ (shown : ν) (jobs : List Job) (last : Run ν σ),
      KripkeView.reset view settings.usingClocks = (.ok (), shown) ∧
      Verify.Processes (Layout.new schedule) settings.starvationLimit { view := shown, store }
        [schedule.firstJob pool] jobs last [] ∧
      KripkeStore.flush last.store = (.ok (), run.store) ∧
      KripkeView.finish last.view = (.ok (), run.view) ∧
      last.stats = { report.stats with maxQueueLength := 0 } ∧
      last.liveness = report.liveness := by
  unfold verify Verify.verification at verified
  obtain ⟨_, checked, validated, verified⟩ := Verify.bind_eq_ok verified
  obtain ⟨_, shown, reset, verified⟩ := Verify.bind_eq_ok verified
  obtain ⟨_, started, pushed, verified⟩ := Verify.bind_eq_ok verified
  obtain ⟨_, processed, worked, verified⟩ := Verify.bind_eq_ok verified
  obtain ⟨_, flushed, flush, verified⟩ := Verify.bind_eq_ok verified
  obtain ⟨_, finished, finish, verified⟩ := Verify.bind_eq_ok verified
  obtain ⟨empty, jobs, processes⟩ := Verify.processes_of_processQueue bound worked
  obtain ⟨hasReset, sameShown⟩ := Verify.onView_eq_ok reset
  obtain ⟨hasFlushed, sameFlushed⟩ := Verify.onStore_eq_ok flush
  obtain ⟨hasFinished, sameFinished⟩ := Verify.onView_eq_ok finish
  cases checkedOut : schedule.validate pool with
  | error cause =>
      unfold Verify.liftFault at validated
      rw [checkedOut] at validated
      cases validated
  | ok _ =>
      cases verified
      cases congrArg Prod.snd validated
      rw [sameShown] at pushed
      cases pushed
      refine ⟨rfl, shown.view, jobs, processed.unqueued, hasReset, processes, ?_, ?_, ?_, ?_⟩
      · rw [sameFinished]
        exact hasFlushed
      · rw [sameFlushed] at hasFinished
        exact hasFinished
      · rw [sameFinished, sameFlushed]
        rfl
      · rw [sameFinished, sameFlushed]
        rfl

/-- A verification that succeeds has reset the view and processed jobs from the first one on until
the queue was empty. -/
theorem processes_of_verify {report : VerificationReport} {run : Run ν σ}
    (verified : verify settings schedule pool raised bound view store = (.ok report, run)) :
    schedule.validate pool = .ok () ∧ ∃ (shown : ν) (jobs : List Job) (last : Run ν σ),
      KripkeView.reset view settings.usingClocks = (.ok (), shown) ∧
      Verify.Processes (Layout.new schedule) settings.starvationLimit { view := shown, store }
        [schedule.firstJob pool] jobs last [] ∧
      KripkeStore.flush last.store = (.ok (), run.store) ∧
      KripkeView.finish last.view = (.ok (), run.view) ∧
      last.stats = { report.stats with maxQueueLength := 0 } := by
  obtain ⟨validated, shown, jobs, last, reset, processes, flushed, finished, stats, _⟩ :=
    report_of_verify verified
  exact ⟨validated, shown, jobs, last, reset, processes, flushed, finished, stats⟩

/-- **A verification succeeds** if jobs can be processed from the first one on until none is left,
and the limit leaves room for them. -/
theorem verify_of_processes {shown finished : ν} {last : Run ν σ} {flushed : σ} {jobs : List Job}
    (quiet : ∀ view jobs, settings.isCancelled (raised view jobs) = false)
    (validated : schedule.validate pool = .ok ())
    (reset : KripkeView.reset view settings.usingClocks = (.ok (), shown))
    (processes : Verify.Processes (Layout.new schedule) settings.starvationLimit
      { view := shown, store } [schedule.firstJob pool] jobs last [])
    (room : ∀ limit, settings.maxJobs = some limit → jobs.length ≤ limit)
    (enough : jobs.length ≤ bound) (flush : KripkeStore.flush last.store = (.ok (), flushed))
    (finish : KripkeView.finish last.view = (.ok (), finished)) :
    ∃ report run, verify settings schedule pool raised bound view store = (.ok report, run) ∧
      run.store = flushed ∧ run.view = finished := by
  let started : Run ν σ :=
    { view := shown, store, queue := [schedule.firstJob pool], stats := { maxQueueLength := 1 } }
  obtain ⟨processed, worked, rfl⟩ := Verify.processQueue_of_processes quiet bound
    (show Verify.Processes _ _ started.unqueued started.queue jobs last [] from processes)
    (fun limit limited => Nat.le_trans (Nat.le_of_eq (Nat.zero_add _)) (room limit limited)) enough
  have checks : (Verify.liftFault (schedule.validate pool) : Verify ν σ Unit) { view, store } =
      (.ok (), { view, store }) := by
    rw [validated]
    rfl
  have resets : (Verify.onView fun view => KripkeView.reset view settings.usingClocks :
      Verify ν σ Unit) { view, store } = (.ok (), { view := shown, store }) := by
    rw [Verify.onView, reset]
    rfl
  have flushes : (Verify.onStore KripkeStore.flush : Verify ν σ Unit) processed =
      (.ok (), { processed with store := flushed }) := by
    rw [Verify.onStore, show KripkeStore.flush processed.store = _ from flush]
    rfl
  have finishes : (Verify.onView KripkeView.finish : Verify ν σ Unit)
      { processed with store := flushed } =
        (.ok (), { processed with store := flushed, view := finished }) := by
    rw [Verify.onView, show KripkeView.finish processed.view = _ from finish]
    rfl
  refine ⟨{ stats := processed.stats, liveness := processed.liveness },
    { processed with store := flushed, view := finished }, ?_, rfl, rfl⟩
  unfold verify Verify.verification
  refine (Verify.bind_of_ok checks).trans ?_
  refine (Verify.bind_of_ok resets).trans ?_
  refine (Verify.modify_bind _ _ _).trans ?_
  refine (Verify.bind_of_ok worked).trans ?_
  refine (Verify.bind_of_ok flushes).trans ?_
  exact Verify.bind_of_ok finishes

end Verification

end TimedKripke
