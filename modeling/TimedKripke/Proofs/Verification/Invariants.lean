import TimedKripke.Proofs.Verification.Additions
import TimedKripke.Proofs.Verification.Exploration

/-! # Invariants of a verification

A verification takes jobs off its queue and applies them one after the other. What both
preserve (`Verify.Invariant`) holds when the queue has been worked through, and also when the
work was stopped on the way for a reason other than the view (`Verify.Invariant.processQueue`).
Around the work on the queue stand the calls of the view at the start and at the end
(`verify_eq_ok`, `verify_eq_error`).
-/

namespace TimedKripke

/-- A call of a view. -/
inductive ViewCall where
  | reset (usingClocks : Bool)
  | commit (state : KripkeState)
  | finish

/-- Makes a call. -/
def ViewCall.make {ν : Type} [KripkeView ν] (call : ViewCall) (view : ν) :
    Except ViewError Unit × ν :=
  match call with
  | .reset usingClocks => KripkeView.reset view usingClocks
  | .commit state => KripkeView.commit view state
  | .finish => KripkeView.finish view

/-- A view that records takes every call. -/
theorem RecordingView.takes_call (call : ViewCall) (view : RecordingView) :
    ∃ after, call.make view = (.ok (), after) := by
  cases call with
  | reset usingClocks => exact ⟨_, rfl⟩
  | commit state => exact ⟨_, rfl⟩
  | finish => exact ⟨_, rfl⟩

/-- The error is that a view refused a call. -/
def VerificationError.OfView (ν : Type) [KripkeView ν] (error : VerificationError) : Prop :=
  ∃ (call : ViewCall) (view after : ν) (cause : ViewError),
    call.make view = (.error cause, after) ∧ error = .view cause

variable {ν : Type}

/-- The run in which the first job waits, with a view that was reset. -/
def Run.opening (schedule : Schedule) (pool : Pool) (view : ν) (store : KripkeStructure) :
    Run ν KripkeStructure :=
  { view, store, queue := [schedule.firstJob pool], stats := { maxQueueLength := 1 } }

/-- At the opening of a run nothing is explored, and the first job waits. -/
theorem explored_opening (schedule : Schedule) (pool : Pool) (view : ν) {store : KripkeStructure}
    (wellFormed : store.WellFormed) :
    Explored (Layout.new schedule) (schedule.firstJob pool) [] []
      (Run.opening schedule pool view store) := by
  refine ⟨wellFormed, List.mem_singleton_self _, ?_, ?_, ?_, ?_⟩
  · intro job member
    rw [List.mem_singleton.mp member]
    exact .first
  · intro job member source isSource
    rw [List.mem_singleton.mp member] at isSource
    cases isSource
  · exact fun _ impossible => nomatch impossible
  · intro properties seen
    simp [Run.opening] at seen

variable [KripkeView ν]

namespace Verify

omit [KripkeView ν] in
/-- Looking up a stored state succeeds and changes nothing. -/
theorem lookup_eq_ok (run : Run ν KripkeStructure) {id : StateId} {state : KripkeState}
    (found : run.store.states[id]? = some state) :
    (onStore fun store => (KripkeStore.state store id, store) :
      Verify ν KripkeStructure KripkeState) run = (.ok state, run) := by
  simp [onStore, KripkeStore.state, KripkeStructure.state, found, Except.mapError]

/-- A stored state can always be handed to the view; it is the view that refuses. -/
theorem commit_error_ofView {run after : Run ν KripkeStructure} {id : StateId}
    {error : VerificationError} (stored : id < run.store.states.size)
    (failed : commit id run = (.error error, after)) : error.OfView ν := by
  unfold commit at failed
  rw [get_bind] at failed
  split at failed
  · cases failed
  · have found : run.store.states[id]? = some run.store.states[id] :=
      Array.getElem?_eq_getElem stored
    have looked := lookup_eq_ok { run with committed := run.committed.insert id } found
    rw [modify_bind, bind_of_ok looked] at failed
    cases shown : KripkeView.commit run.view run.store.states[id] with
    | mk outcome view =>
        have showStep : (onView fun view => KripkeView.commit view run.store.states[id] :
            Verify ν KripkeStructure Unit) { run with committed := run.committed.insert id } =
              (outcome.mapError .view,
                  { run with committed := run.committed.insert id, view }) := by
          simp only [onView, shown]
        cases outcome with
        | ok _ =>
            rw [bind_of_ok showStep] at failed
            cases failed
        | error cause =>
            rw [bind_of_error showStep] at failed
            cases failed
            exact ⟨.commit _, run.view, view, cause, shown, rfl⟩

/-- Committing states that exist fails only if the view does. -/
theorem commits_error_ofView {ids : List StateId} : ∀ {run after : Run ν KripkeStructure}
    {error : VerificationError}, (∀ id ∈ ids, id < run.store.states.size) →
      ids.forM commit run = (.error error, after) → error.OfView ν := by
  induction ids with
  | nil =>
      intro run after error _ failed
      cases failed
  | cons id rest others =>
      intro run after error stored failed
      cases first : commit id run with
      | mk outcome middle =>
          cases outcome with
          | error _ =>
              cases (bind_of_error first).symm.trans failed
              exact commit_error_ofView (stored id List.mem_cons_self) first
          | ok _ =>
              have failedLater := (bind_of_ok first).symm.trans failed
              obtain ⟨view, committed, shown, same⟩ := onlyShows_commit id run
              have sameStore : middle.store = run.store := by
                rw [first] at same
                exact (congrArg Run.store same : middle.store = _)
              refine others (fun other member => ?_) failedLater
              rw [sameStore]
              exact stored other (List.mem_cons_of_mem id member)

/-- Into a well-formed structure jobs can always be written; it is the view that refuses. -/
theorem applyJob_error_ofView {limit : Time} {job : Job} {variations : List ScheduleVariation}
    {run after : Run ν KripkeStructure} {error : VerificationError}
    (wellFormed : run.store.WellFormed)
    (stored : ∀ source ∈ job.predecessor.map Predecessor.state, source < run.store.states.size)
    (failed : applyJob limit job variations run = (.error error, after)) : error.OfView ν := by
  obtain ⟨applied, middle, writes, wrote, created, _⟩ := applyVariations_eq_ok limit
    job.predecessor variations { created := [], deferred := [] }
    (show (countVariations variations.length run).store.WellFormed from wellFormed) stored
  rw [applyJob_eq, modify_bind, bind_of_ok writes] at failed
  have completedStored : ∀ id ∈ completed job applied, id < middle.store.states.size := by
    intro id member
    rcases List.mem_append.mp member with member | member
    · exact Nat.lt_of_lt_of_le (stored id (Option.mem_toList.mp member)) wrote.grows.size_le
    · have isCreated := List.mem_mergeSort.mp (List.mem_filter.mp member).1
      exact (created id isCreated).resolve_left List.not_mem_nil
  cases commits : (completed job applied).forM commit middle with
  | mk outcome last =>
      cases outcome with
      | error _ =>
          rw [bind_of_error commits] at failed
          cases failed
          exact commits_error_ofView completedStored commits
      | ok _ =>
          rw [bind_of_ok commits] at failed
          cases failed

/-- What holds of the jobs that were explored, of those taken off the queue and of the run,
whatever jobs are taken and applied. -/
structure Invariant (layout : Layout) (first : Job) (limit : Time)
    (Holds : (done taken : List Job) → Run ν KripkeStructure → Prop) : Prop where
  /-- Jobs are taken off the queue. -/
  take : ∀ {done : List Job} {run : Run ν KripkeStructure} (width : Nat), Holds done [] run →
    Holds done (run.queue.take width) { run with queue := run.queue.drop width }
  /-- A job that was taken off the queue is applied. -/
  apply : ∀ {done taken : List Job} {job : Job} {variations : List ScheduleVariation}
    {run after : Run ν KripkeStructure}, Explored layout first done (job :: taken) run →
      Holds done (job :: taken) run → job.expand layout = .ok variations →
        applyJob limit job variations run = (.ok (), after) → Holds (done ++ [job]) taken after

/-- What the work on the queue, or on a batch, comes to: all jobs that were taken are explored,
or the work stopped. -/
inductive Kept (layout : Layout) (first : Job)
    (Holds : (done taken : List Job) → Run ν KripkeStructure → Prop) :
    Except VerificationError Unit × Run ν KripkeStructure → Prop
  /-- All is done. -/
  | done (all : List Job) {run : Run ν KripkeStructure}
      (explored : Explored layout first all [] run)
      (holds : Holds all [] run) : Kept layout first Holds (.ok (), run)
  /-- The work was stopped between jobs. -/
  | stopped (done taken : List Job) (error : VerificationError) {run : Run ν KripkeStructure}
      (holds : Holds done taken run) : Kept layout first Holds (.error error, run)
  /-- The view refused. -/
  | refused {error : VerificationError} (ofView : error.OfView ν) (run : Run ν KripkeStructure) :
      Kept layout first Holds (.error error, run)

namespace Invariant

variable {layout : Layout} {first : Job} {settings : VerificationSettings}
  {Holds : (done taken : List Job) → Run ν KripkeStructure → Prop}

/-- Applying a batch keeps an invariant as far as it comes, by induction on the batch. -/
theorem applyJobs (invariant : Invariant layout first settings.starvationLimit Holds)
    {taken : List Job} : ∀ {expansions : List (List ScheduleVariation)} {done : List Job}
    {run : Run ν KripkeStructure}, taken.mapM (fun job => job.expand layout) = .ok expansions →
      Explored layout first done taken run → Holds done taken run →
        Kept layout first Holds
          (Verify.applyJobs settings.starvationLimit (taken.zip expansions) run) := by
  induction taken with
  | nil =>
      intro expansions done run _ explored holds
      exact .done done explored holds
  | cons job taken others =>
      intro expansions done run expanded explored holds
      obtain ⟨variations, more, isVariations, isMore, rfl⟩ := mapM_cons_eq_ok expanded
      have next := explored.apply settings.starvationLimit isVariations
      cases here : applyJob settings.starvationLimit job variations run with
      | mk outcome middle =>
          cases outcome with
          | error error =>
              have failed : Verify.applyJobs settings.starvationLimit
                  ((job :: taken).zip (variations :: more)) run = (.error error, middle) :=
                bind_of_error here
              rw [failed]
              exact .refused (applyJob_error_ofView explored.wellFormed
                (explored.stored job List.mem_cons_self) here) _
          | ok _ =>
              have applied : Verify.applyJobs settings.starvationLimit
                  ((job :: taken).zip (variations :: more)) run =
                    Verify.applyJobs settings.starvationLimit (taken.zip more) middle :=
                bind_of_ok here
              rw [applied]
              rw [here] at next
              exact others isMore next (invariant.apply explored holds isVariations here)

/-- **Working through the queue keeps what taking and applying jobs keep.** -/
theorem processQueue (invariant : Invariant layout first settings.starvationLimit Holds)
    (raised : ν → Nat → List CancellationToken) (bound : Nat) :
    ∀ {done : List Job} {run : Run ν KripkeStructure}, Explored layout first done [] run →
      Holds done [] run →
        Kept layout first Holds (Verify.processQueue settings layout raised bound run) := by
  induction bound with
  | zero =>
      intro done run explored holds
      rw [Verify.processQueue, get_bind]
      split
      · exact .done done explored holds
      · exact .stopped done [] .unfinished holds
  | succ bound fewer =>
      intro done run explored holds
      rw [processQueue_succ]
      split
      · exact .done done explored holds
      · split
        · exact .stopped done [] _ holds
        · split
          · exact .stopped done [] _ holds
          · rename_i width _
            have taken := invariant.take width holds
            cases expanded : (run.queue.take width).mapM fun job => job.expand layout with
            | error cause =>
                have failed : processBatch settings layout width run =
                    (.error (.fault cause), { run with queue := run.queue.drop width }) := by
                  rw [processBatch_eq, expanded]
                rw [bind_of_error failed]
                exact .stopped done _ _ taken
            | ok expansions =>
                have batch := invariant.applyJobs expanded (explored.take width) taken
                have ran : processBatch settings layout width run =
                    Verify.applyJobs settings.starvationLimit
                      ((run.queue.take width).zip expansions)
                      { run with queue := run.queue.drop width } := by
                  rw [processBatch_eq, expanded]
                rw [← ran] at batch
                cases outcome : processBatch settings layout width run with
                | mk answer middle =>
                    rw [outcome] at batch
                    cases batch with
                    | done all explored holds =>
                        rw [bind_of_ok outcome]
                        exact fewer explored holds
                    | stopped done taken error holds =>
                        rw [bind_of_error outcome]
                        exact .stopped done taken error holds
                    | refused ofView run =>
                        rw [bind_of_error outcome]
                        exact .refused ofView _

end Invariant

end Verify

section Verification

variable {settings : VerificationSettings} {schedule : Schedule} {pool : Pool}
  {raised : ν → Nat → List CancellationToken} {bound : Nat} {view : ν}
  {run : Run ν KripkeStructure}

/-- What a verification comes to when its queue has been worked through. -/
def Verify.ended : Except VerificationError Unit × Run ν KripkeStructure →
    Except VerificationError VerificationReport × Run ν KripkeStructure
  | (.error error, run) => (.error error, run)
  | (.ok _, run) =>
      match KripkeView.finish run.view with
      | (.error cause, view) => (.error (.view cause), { run with view })
      | (.ok _, view) => (.ok { stats := run.stats, liveness := run.liveness }, { run with view })

/-- A verification validates the schedule, resets the view, works through the queue and tells
the view that it is finished. -/
theorem verify_eq_ended (settings : VerificationSettings) (schedule : Schedule) (pool : Pool)
    (raised : ν → Nat → List CancellationToken) (bound : Nat) (view : ν)
    (store : KripkeStructure) :
    verify settings schedule pool raised bound view store =
      match schedule.validate pool with
      | .error cause => (.error (.fault cause), { view, store })
      | .ok _ =>
          match KripkeView.reset view settings.usingClocks with
          | (.error cause, view) => (.error (.view cause), { view, store })
          | (.ok _, view) => Verify.ended (Verify.processQueue settings (Layout.new schedule) raised
              bound (Run.opening schedule pool view store)) := by
  unfold verify Verify.verification
  cases schedule.validate pool with
  | error cause => exact Verify.bind_of_error rfl
  | ok _ =>
      refine (Verify.bind_of_ok rfl).trans ?_
      cases reset : KripkeView.reset view settings.usingClocks with
      | mk outcome shown =>
          have resetStep : (Verify.onView fun view => KripkeView.reset view settings.usingClocks :
              Verify ν KripkeStructure Unit) { view, store } =
                (outcome.mapError .view, { view := shown, store }) := by
            simp only [Verify.onView, reset]
          cases outcome with
          | error cause => exact Verify.bind_of_error resetStep
          | ok _ =>
              refine (Verify.bind_of_ok resetStep).trans ?_
              refine (Verify.modify_bind _ _ _).trans ?_
              change _ = Verify.ended (Verify.processQueue settings (Layout.new schedule) raised
                bound (Run.opening schedule pool shown store))
              cases ran : Verify.processQueue settings (Layout.new schedule) raised bound
                  (Run.opening schedule pool shown store) with
              | mk answer after =>
                  cases answer with
                  | error error => exact Verify.bind_of_error ran
                  | ok _ =>
                      refine (Verify.bind_of_ok ran).trans ?_
                      refine (Verify.bind_of_ok rfl).trans ?_
                      rw [Verify.ended]
                      cases finish : KripkeView.finish after.view with
                      | mk last shown =>
                          have finishStep : (Verify.onView KripkeView.finish :
                              Verify ν KripkeStructure Unit) after =
                                (last.mapError .view, { after with view := shown }) := by
                            simp only [Verify.onView, finish]
                          cases last with
                          | error cause => exact Verify.bind_of_error finishStep
                          | ok _ => exact Verify.bind_of_ok finishStep

/-- **A verification that succeeds** has reset the view, worked through the queue and told the
view that it is finished. -/
theorem verify_eq_ok {report : VerificationReport}
    (verified : verify settings schedule pool raised bound view KripkeStructure.empty =
      (.ok report, run)) :
    ∃ (shown : ν) (processed : Run ν KripkeStructure),
      KripkeView.reset view settings.usingClocks = (.ok (), shown) ∧
      Verify.processQueue settings (Layout.new schedule) raised bound
        (Run.opening schedule pool shown KripkeStructure.empty) = (.ok (), processed) ∧
      KripkeView.finish processed.view = (.ok (), run.view) ∧
      run = { processed with view := run.view } ∧
      report = { stats := processed.stats, liveness := processed.liveness } := by
  rw [verify_eq_ended] at verified
  split at verified
  · cases verified
  · split at verified
    · cases verified
    · rename_i shown reset
      unfold Verify.ended at verified
      split at verified
      · cases verified
      · rename_i processed ran
        split at verified
        · cases verified
        · rename_i finish
          cases verified
          exact ⟨shown, processed, reset, ran, finish, rfl, rfl⟩

/-- **A verification that fails**, and not because of the view, has not called the view at all
or has reset it and stopped in the middle of its work. -/
theorem verify_eq_error {error : VerificationError}
    (failed : verify settings schedule pool raised bound view KripkeStructure.empty =
      (.error error, run)) (notView : ¬ error.OfView ν) :
    run = { view, store := KripkeStructure.empty } ∨
      ∃ shown : ν, KripkeView.reset view settings.usingClocks = (.ok (), shown) ∧
        Verify.processQueue settings (Layout.new schedule) raised bound
          (Run.opening schedule pool shown KripkeStructure.empty) = (.error error, run) := by
  rw [verify_eq_ended] at failed
  split at failed
  · cases failed
    exact .inl rfl
  · split at failed
    · rename_i cause shown reset
      cases failed
      exact absurd ⟨.reset settings.usingClocks, view, shown, cause, reset, rfl⟩ notView
    · rename_i shown reset
      refine .inr ⟨shown, reset, ?_⟩
      unfold Verify.ended at failed
      split at failed
      · rename_i ran
        cases failed
        exact ran
      · split at failed
        · rename_i processed _ _ cause last finish
          cases failed
          exact absurd ⟨.finish, processed.view, last, cause, finish, rfl⟩ notView
        · cases failed

end Verification

end TimedKripke
