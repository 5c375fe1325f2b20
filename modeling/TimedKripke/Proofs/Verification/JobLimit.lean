import TimedKripke.Proofs.Verification.Queue
import TimedKripke.Proofs.Verification.Termination

/-! # Limits on the number of jobs

A verification with a limit does what the one without does until the limit is reached
(`verify_truncates_at_limit`). If the limit leaves room for all jobs, nothing changes. Otherwise
the work stops after exactly so many jobs, with the states that were recorded until then and
without finishing.
-/

namespace TimedKripke

variable {σ : Type}

/-- The later view has recorded more states and is otherwise the same. -/
def RecordingView.Continues (before after : RecordingView) : Prop :=
  ∃ more, after = { before with states := before.states ++ more }

theorem RecordingView.Continues.refl (view : RecordingView) : view.Continues view :=
  ⟨[], by rw [List.append_nil]⟩

theorem RecordingView.Continues.trans {first second third : RecordingView}
    (left : first.Continues second) (right : second.Continues third) : first.Continues third := by
  obtain ⟨more, rfl⟩ := left
  obtain ⟨evenMore, rfl⟩ := right
  exact ⟨more ++ evenMore, by rw [List.append_assoc]⟩

namespace Verify

variable [KripkeStore σ]

/-- Handing over a state adds it to what the view has recorded, or leaves the record as it is. -/
theorem continues_commit (id : StateId) (run : Run RecordingView σ) :
    run.view.Continues (commit id run).2.view := by
  unfold commit
  rw [get_bind]
  split
  · exact .refl _
  · rw [modify_bind]
    cases looked : (onStore fun store => (KripkeStore.state store id, store) :
        Verify RecordingView σ KripkeState) { run with committed := run.committed.insert id } with
    | mk outcome middle =>
        have same : middle.view = run.view := (congrArg (fun answer => answer.2.view) looked).symm
        cases outcome with
        | error error =>
            rw [bind_of_error looked, same]
            exact .refl _
        | ok state =>
            rw [bind_of_ok looked]
            refine ⟨[state], ?_⟩
            rw [← same]
            rfl

/-- Commits only add to what the view has received. -/
theorem continues_commits (ids : List StateId) : ∀ run : Run RecordingView σ,
    run.view.Continues (ids.forM commit run).2.view := by
  induction ids with
  | nil => exact fun _ => .refl _
  | cons id rest others =>
      intro run
      have first := continues_commit id run
      rw [show (id :: rest).forM commit = (commit id >>= fun _ => rest.forM commit :
        Verify RecordingView σ Unit) from rfl]
      cases ran : commit id run with
      | mk outcome middle =>
          rw [ran] at first
          cases outcome with
          | error error =>
              rw [bind_of_error ran]
              exact first
          | ok _ =>
              rw [bind_of_ok ran]
              exact first.trans (others middle)

/-- Processing jobs only adds to what the view has recorded. -/
theorem Processes.continues {layout : Layout} {limit : Time} {before after : Run RecordingView σ}
    {queue jobs left : List Job} (processes : Processes layout limit before queue jobs after left) :
    before.view.Continues after.view := by
  induction processes with
  | nil => exact .refl _
  | @cons before middle _ job _ _ _ variations _ applied _ others =>
      obtain ⟨result, written, shown, _, books, commits, rfl⟩ := applyJob_parts applied
      have continued := continues_commits (completed job result) written
      rw [commits, show written.view = before.view from congrArg Books.view books] at continued
      exact continued.trans others

end Verify

section Limit

variable {settings : VerificationSettings} {schedule : Schedule} {pool : Pool}
  {raised : RecordingView → Nat → List CancellationToken} {bound : Nat} {view : RecordingView}
  {store : KripkeStructure} {report : VerificationReport} {run : Run RecordingView KripkeStructure}

/-- The jobs in turn, from the start of a verification on. -/
def Verify.Starts (settings : VerificationSettings) (schedule : Schedule) (pool : Pool)
    (view : RecordingView) (store : KripkeStructure) :
    (jobs : List Job) → (after : Run RecordingView KripkeStructure) → (left : List Job) → Prop :=
  Verify.Processes (Layout.new schedule) settings.starvationLimit
    (Run.started settings schedule pool view store).unqueued [schedule.firstJob pool]

/-- **A limit truncates a verification.** Let a verification succeed, without a limit or with
another one. With the given limit it ends in the same way if the limit is not less than the number
of jobs that were processed. Otherwise it reports the limit and does not finish; its store is the
one after the first jobs, as many as the limit says, and what it has recorded is the beginning of
what was recorded before. -/
theorem verify_truncates_at_limit
    (quiet : ∀ view jobs, settings.isCancelled (raised view jobs) = false)
    (verified : verify settings schedule pool raised bound view store = (.ok report, run))
    (limit : Nat) {more : Nat} (enough : report.stats.jobsProcessed < more) :
    ∃ jobs last, Verify.Starts settings schedule pool view store jobs last [] ∧
      last.store = run.store ∧ jobs.length = report.stats.jobsProcessed ∧
      (report.stats.jobsProcessed ≤ limit → ∃ sameReport same,
        verify { settings with maxJobs := some limit } schedule pool raised more view store =
          (.ok sameReport, same) ∧
        same.view = run.view ∧ same.store = run.store) ∧
      (limit < report.stats.jobsProcessed → ∃ stopped early left,
        verify { settings with maxJobs := some limit } schedule pool raised more view store =
          (.error (.jobLimitExceeded limit), stopped) ∧
        stopped.view.finishCount = 0 ∧ stopped.view.states <+: run.view.states ∧
        Verify.Starts settings schedule pool view store (jobs.take limit) early left ∧
        stopped.store = early.store) := by
  obtain ⟨validated, _, jobs, last, ⟨⟩, processes, flushed, finished, stats⟩ :=
    processes_of_verify verified
  have starts : Verify.Starts settings schedule pool view store jobs last [] := processes
  have sameStore : run.store = last.store := (congrArg Prod.snd flushed).symm
  have sameView : run.view = last.view.finish := (congrArg Prod.snd finished).symm
  have counted : report.stats.jobsProcessed = jobs.length := by
    have counted := processes.jobsProcessed_eq
    rw [stats] at counted
    exact counted.trans (Nat.zero_add _)
  have limitedEq := verify_eq { settings with maxJobs := some limit } schedule pool raised more view
    store
  rw [validated] at limitedEq
  have quietLimited : ∀ view jobs,
      ({ settings with maxJobs := some limit } : VerificationSettings).isCancelled
        (raised view jobs) = false := quiet
  refine ⟨jobs, last, starts, sameStore.symm, counted.symm, fun within => ?_, fun beyond => ?_⟩
  · obtain ⟨sameReport, same, ran, isStore, isView⟩ := verify_of_processes quietLimited validated
      rfl processes (fun other isLimit => Option.some.inj isLimit ▸ counted ▸ within)
      (counted ▸ Nat.le_of_lt enough) flushed finished
    exact ⟨sameReport, same, ran, isView, isStore⟩
  · obtain ⟨stopped, ran, firsts⟩ := Verify.processQueue_of_limit quietLimited rfl more starts
      (Nat.zero_le _) ((Nat.zero_add _).symm ▸ counted ▸ beyond) (counted ▸ enough)
    have early : Verify.Starts settings schedule pool view store (jobs.take limit) stopped.unqueued
      stopped.queue := firsts
    refine ⟨stopped, stopped.unqueued, stopped.queue, limitedEq.trans (congrArg Verify.closed ran),
      ?_, ?_, early, rfl⟩
    · obtain ⟨_, recorded⟩ := early.continues
      exact congrArg RecordingView.finishCount recorded
    · have whole := starts
      rw [Verify.Starts, ← List.take_append_drop limit jobs] at whole
      obtain ⟨middle, between, first, rest⟩ := whole.of_append
      obtain ⟨rfl, rfl⟩ := first.unique early
      obtain ⟨later, recorded⟩ := rest.continues
      rw [sameView]
      exact ⟨later, (congrArg RecordingView.states recorded).symm⟩

/-- With as many jobs as the verification of the switch needs it succeeds as before; with one job
fewer it reports the limit. -/
theorem switch_truncates_at_limit : ∃ bound report run,
    verify Switch.settings Switch.schedule Switch.pool (fun _ _ => []) bound
      ({} : RecordingView) KripkeStructure.empty = (.ok report, run) ∧
    ∀ more, report.stats.jobsProcessed < more →
      (∃ sameReport same, verify
        { Switch.settings with maxJobs := some report.stats.jobsProcessed } Switch.schedule
        Switch.pool (fun _ _ => []) more ({} : RecordingView) KripkeStructure.empty =
          (.ok sameReport, same) ∧ same.view = run.view ∧ same.store = run.store) ∧
      ∃ stopped, verify
        { Switch.settings with maxJobs := some (report.stats.jobsProcessed - 1) } Switch.schedule
        Switch.pool (fun _ _ => []) more ({} : RecordingView) KripkeStructure.empty =
          (.error (.jobLimitExceeded (report.stats.jobsProcessed - 1)), stopped) ∧
        stopped.view.finishCount = 0 ∧ stopped.view.states <+: run.view.states := by
  obtain ⟨bound, report, run, verified⟩ := Switch.verified
  have quiet : ∀ (_ : RecordingView) (_ : Nat), Switch.settings.isCancelled [] = false :=
    fun _ _ => rfl
  refine ⟨bound, report, run, verified, fun more enough => ?_⟩
  obtain ⟨jobs, _, starts, _, length, within, _⟩ :=
    verify_truncates_at_limit quiet verified report.stats.jobsProcessed enough
  obtain ⟨_, _, _, _, _, _, beyond⟩ :=
    verify_truncates_at_limit quiet verified (report.stats.jobsProcessed - 1) enough
  obtain ⟨queued, order⟩ := starts.exists_queued
  have someJob : 0 < report.stats.jobsProcessed := by
    rw [← length, ← List.append_nil jobs, ← order]
    exact Nat.succ_pos _
  obtain ⟨stopped, _, _, reported, unfinished, recorded, _⟩ := beyond (Nat.sub_one_lt_of_lt someJob)
  exact ⟨within (Nat.le_refl _), stopped, reported, unfinished, recorded⟩

end Limit

end TimedKripke
