import Mathlib
import TimedKripke.Proofs.Pool.Range
import TimedKripke.Proofs.Verification.CycleClosure
import TimedKripke.Proofs.Verification.Invariants
import TimedKripke.Proofs.Verification.Queue
import TimedKripke.Proofs.Verification.Stability

/-! # Explorations of finite systems end

Every job but the first is queued for an end of a cycle that was not seen before (`Run.Counted`).
If machines are scheduled and the types of their data can be listed, finitely many pools arise, the
cycles that start from them have finitely many ends, and a verification ends after at most one job
more than there are ends, whatever the schedule and the number of jobs expanded together
(`verify_ends_of_enumerable`).
-/

namespace TimedKripke

namespace Job

/-- What the cycles end with that go on from one another, starting from a given job. -/
def endings (layout : Layout) (first : Job) : Set PropertyList :=
  {properties | ∃ job, Reached layout first job ∧ job.EndsWith layout properties}

variable {layout : Layout} {first job other : Job}

/-- Jobs that are alike have cycles that end alike. -/
theorem Alike.endsWith (alike : job.Alike other) {properties : PropertyList}
    (ends : job.EndsWith layout properties) : other.EndsWith layout properties := by
  obtain ⟨variations, expanded, variation, member, last, isLast, shown⟩ := ends
  have flipped : other.Alike job :=
    ⟨alike.pool.symm, alike.threads.symm, alike.ended.symm, alike.initial.symm⟩
  obtain ⟨own, expandedOwn, _⟩ := flipped.expand_eq_ok expanded
  obtain ⟨variations', expanded', twins⟩ := alike.expand_eq_ok expandedOwn
  cases expanded.symm.trans expanded'
  obtain ⟨twin, isTwin, same⟩ := twins variation member
  refine ⟨own, expandedOwn, twin, isTwin, last, ?_, shown⟩
  rw [← (ScheduleVariation.eq_of_uncounted same).1, isLast]

/-- A job has finitely many ends, one for each of its variations. -/
theorem finite_endsWith (job : Job) : {properties | job.EndsWith layout properties}.Finite := by
  refine (ends layout [job]).finite_toSet.subset ?_
  rintro properties ⟨variations, expanded, variation, member, isEnd⟩
  exact mem_ends (List.mem_singleton_self job) expanded member isEnd

/-- All that matters to the expansion of reached jobs is finite, if their pools are. -/
theorem finite_views {pools : Set Pool} (finite : pools.Finite) {origin : Pool}
    (descends : Pool.Descends origin first.pool)
    (within : ∀ {job}, Reached layout first job → job.pool ∈ pools) :
    {view | ∃ job, Reached layout first job ∧ job.view = view}.Finite := by
  have threads : ({first.threads.map ScheduleThread.uncounted,
      first.threads.map fun thread => thread.ordered.uncounted} : Set _).Finite :=
    Set.toFinite _
  refine (finite.prod (threads.prod
    (Set.finite_univ : (Set.univ : Set (Option Time × Bool)).Finite))).subset ?_
  rintro _ ⟨job, reached, rfl⟩
  refine ⟨within reached, ?_, trivial⟩
  cases reached with
  | first => exact .inl rfl
  | next earlier expanded member state => exact .inr (earlier.closes descends expanded member).2

/-- **Cycles have finitely many ends**, if they start from finitely many pools. -/
theorem finite_endings {pools : Set Pool} (finite : pools.Finite) {origin : Pool}
    (descends : Pool.Descends origin first.pool)
    (within : ∀ {job}, Reached layout first job → job.pool ∈ pools) :
    (endings layout first).Finite := by
  -- Jobs with the same view have the same ends, so one job for each view is enough.
  have ofView : ∀ view ∈ {view | ∃ job, Reached layout first job ∧ job.view = view},
      {properties | ∃ job : Job, job.view = view ∧ job.EndsWith layout properties}.Finite := by
    rintro _ ⟨known, _, rfl⟩
    refine (@finite_endsWith layout known).subset ?_
    rintro properties ⟨job, same, ends⟩
    exact (alike_of_view same).endsWith ends
  refine ((finite_views finite descends within).biUnion ofView).subset ?_
  rintro properties ⟨job, reached, ends⟩
  exact Set.mem_biUnion ⟨job, reached, rfl⟩ ⟨job, rfl, ends⟩

end Job

/-- What happens to pools keeps their frame and the data of machines as declared. -/
theorem Pool.stable_declared (origin : Pool) :
    Pool.Stable fun pool => Descends origin pool ∧ pool.Declared where
  assign := fun holds assigned => ⟨holds.1.assign assigned, holds.2.assign assigned⟩
  execute := fun slot clock holds => ⟨executeTimeslot_descends holds.1 slot clock,
    executeTimeslot_declared holds.1 holds.2 slot clock⟩
  overlaid := fun base holds changes => ⟨holds.1.overlaid changes.1 base,
    holds.2.overlaid changes.2 base⟩

/-- **The cycles of a finite system have finitely many ends**, whatever its schedule. -/
theorem Pool.Enumerable.finite_endings {pool : Pool} (enumerable : pool.Enumerable)
    (wellFormed : pool.WellFormed) (declared : pool.Declared) (schedule : Schedule) :
    (Job.endings (Layout.new schedule) (schedule.firstJob pool)).Finite :=
  Job.finite_endings enumerable.finite_pools wellFormed.descends fun reached =>
    (Pool.stable_declared pool).reached ⟨wellFormed.descends, declared⟩ reached

variable {ν : Type}

/-- The ends that were seen. -/
def Run.seen (run : Run ν KripkeStructure) : Finset PropertyList :=
  run.visited.elements.toList.toFinset

/-- The ends that were seen are those that count as visited. -/
theorem Run.mem_seen {run : Run ν KripkeStructure} {properties : PropertyList} :
    properties ∈ run.seen ↔ run.visited.elements.contains properties = true := by
  rw [seen, List.mem_toFinset, Std.HashSet.mem_toList, Std.HashSet.contains_iff_mem]

/-- As many ends were seen as count as visited. -/
theorem Run.card_seen (run : Run ν KripkeStructure) : run.seen.card = run.visited.size := by
  have distinct : run.visited.elements.toList.Nodup :=
    Std.HashSet.distinct_toList.imp fun different same => by simp [same] at different
  rw [seen, List.toFinset_card_of_nodup distinct, Std.HashSet.length_toList]
  rfl

/-- All jobs so far but the first were queued for an end of their own. -/
structure Run.Counted (done taken : List Job) (run : Run ν KripkeStructure) : Prop where
  processed : run.stats.jobsProcessed = done.length
  /-- There is one job more than there are ends. -/
  queued : done.length + taken.length + run.queue.length = 1 + run.seen.card

/-- Taking jobs off the queue leaves the count as it is: they are taken, but not yet done. -/
theorem Run.Counted.take {done : List Job} {run : Run ν KripkeStructure}
    (counted : run.Counted done []) (width : Nat) :
    Run.Counted done (run.queue.take width) { run with queue := run.queue.drop width } where
  processed := counted.processed
  queued := by
    have queued := counted.queued
    have parts := congrArg List.length (List.take_append_drop width run.queue)
    rw [List.length_append] at parts
    rw [List.length_nil] at queued
    change done.length + (run.queue.take width).length + (run.queue.drop width).length =
      1 + run.seen.card
    omega

namespace Verify

/-- Writing variations sees one end more for every job that is queued. -/
theorem Wrote.card_seen {previous : Option StateId} {variations : List ScheduleVariation}
    {before after : Run ν KripkeStructure} (wrote : Wrote previous variations before after) :
    after.queue.length + before.seen.card = before.queue.length + after.seen.card := by
  obtain ⟨opened, queue, distinct, goOn, complete⟩ := wrote.queued
  have seen : after.seen = before.seen ∪ (opened.map Prod.fst).toFinset := by
    ext properties
    rw [Finset.mem_union, List.mem_toFinset, Run.mem_seen, Run.mem_seen, wrote.visited]
    constructor
    · rintro (earlier | ⟨variation, member, isEnd⟩)
      · exact .inl earlier
      · refine (complete variation member properties isEnd).imp_right ?_
        rintro ⟨job, isOpened⟩
        exact List.mem_map_of_mem isOpened
    · refine Or.imp_right fun isOpened => ?_
      obtain ⟨next, member, rfl⟩ := List.mem_map.mp isOpened
      obtain ⟨_, variation, isVariation, isEnd, _⟩ := goOn next member
      exact ⟨variation, isVariation, isEnd⟩
  have apart : Disjoint before.seen (opened.map Prod.fst).toFinset := by
    refine Finset.disjoint_right.mpr fun properties isOpened isSeen => ?_
    obtain ⟨next, member, rfl⟩ := List.mem_map.mp (List.mem_toFinset.mp isOpened)
    rw [Run.mem_seen, (goOn next member).1] at isSeen
    cases isSeen
  rw [seen, Finset.card_union_of_disjoint apart, List.toFinset_card_of_nodup distinct, queue,
    List.length_append, List.length_map, List.length_map]
  omega

variable [KripkeView ν]

variable {settings : VerificationSettings} {layout : Layout} {first : Job}
  (takes : ∀ (call : ViewCall) (view : ν), ∃ after, call.make view = (.ok (), after))
include takes

/-- Into a view that takes every call a batch can be applied, and its jobs are counted. -/
theorem applyJobs_counted {taken : List Job} : ∀ {expansions : List (List ScheduleVariation)}
    {done : List Job} {run : Run ν KripkeStructure},
    taken.mapM (fun job => job.expand layout) = .ok expansions →
      Explored layout first done taken run → run.Counted done taken →
        ∃ after, applyJobs settings.starvationLimit (taken.zip expansions) run = (.ok (), after) ∧
          Explored layout first (done ++ taken) [] after ∧ after.Counted (done ++ taken) [] := by
  induction taken with
  | nil =>
      intro expansions done run _ explored counted
      refine ⟨run, rfl, ?_, ?_⟩
      · rwa [List.append_nil]
      · rwa [List.append_nil]
  | cons job taken others =>
      intro expansions done run expanded explored counted
      obtain ⟨variations, more, isVariations, isMore, rfl⟩ := mapM_cons_eq_ok expanded
      have stored := explored.stored job List.mem_cons_self
      have next := explored.apply settings.starvationLimit isVariations
      have wrote := applyJob_wrote settings.starvationLimit job variations
        explored.wellFormed stored
      cases here : applyJob settings.starvationLimit job variations run with
      | mk outcome middle =>
          rw [here] at next wrote
          change Wrote _ _ run middle at wrote
          cases outcome with
          | error error =>
              obtain ⟨call, view, after, cause, refused, _⟩ :=
                applyJob_error_ofView explored.wellFormed stored here
              obtain ⟨_, took⟩ := takes call view
              cases took.symm.trans refused
          | ok _ =>
              have countedNext : middle.Counted (done ++ [job]) taken := by
                have processed := jobsProcessed_applyJob here
                have seen := wrote.card_seen
                have queued := counted.queued
                rw [List.length_cons] at queued
                refine ⟨by rw [processed, counted.processed, List.length_append]; rfl, ?_⟩
                rw [List.length_append, List.length_singleton]
                omega
              obtain ⟨after, applied, exploredAfter, countedAfter⟩ :=
                others isMore next countedNext
              rw [List.append_assoc] at exploredAfter countedAfter
              exact ⟨after, (bind_of_ok here).trans applied, exploredAfter, countedAfter⟩

variable {raised : ν → Nat → List CancellationToken}
  (quiet : ∀ view jobs, settings.isCancelled (raised view jobs) = false)
  (unlimited : settings.maxJobs = none) {ends : Finset PropertyList}
  (isEnd : ∀ {properties}, properties ∈ Job.endings layout first → properties ∈ ends)
include quiet unlimited isEnd

omit [KripkeView ν] takes quiet unlimited in
/-- What an exploration has seen are ends of jobs that were reached. -/
theorem seen_subset {done taken : List Job} {run : Run ν KripkeStructure}
    (explored : Explored layout first done taken run) : run.seen ⊆ ends := by
  intro properties seen
  obtain ⟨_, _, parent, variations, reached, expanded, variation, member, ended, _⟩ :=
    explored.resumed properties (Run.mem_seen.mp seen)
  exact isEnd ⟨parent, reached, variations, expanded, variation, member, ended⟩

/-- **Working through the queue ends** or is stopped by a fault: every round explores a job, and
there are no more jobs than ends. -/
theorem processQueue_ends (bound : Nat) : ∀ {done : List Job} {run : Run ν KripkeStructure},
    Explored layout first done [] run → run.Counted done [] →
      1 + ends.card ≤ bound + done.length →
        ∃ outcome after, processQueue settings layout raised bound run = (outcome, after) ∧
          (outcome = .ok () ∨ ∃ cause, outcome = .error (.fault cause)) ∧
          after.stats.jobsProcessed ≤ 1 + after.seen.card ∧ after.seen ⊆ ends := by
  have stays : ∀ {done taken : List Job} {run : Run ν KripkeStructure},
      Explored layout first done taken run → run.Counted done taken →
        run.stats.jobsProcessed ≤ 1 + run.seen.card ∧ run.seen ⊆ ends := by
    intro done taken run explored counted
    have queued := counted.queued
    exact ⟨by rw [counted.processed]; omega, seen_subset isEnd explored⟩
  induction bound with
  | zero =>
      intro done run explored counted enough
      have queued := counted.queued
      have fewer := Finset.card_le_card (seen_subset isEnd explored)
      rw [List.length_nil] at queued
      have empty : run.queue = [] := List.length_eq_zero_iff.mp (by omega)
      exact ⟨_, run, processQueue_empty _ _ _ _ empty, .inl rfl, stays explored counted⟩
  | succ bound fewer =>
      intro done run explored counted enough
      cases queue : run.queue with
      | nil => exact ⟨_, run, processQueue_empty _ _ _ _ queue, .inl rfl, stays explored counted⟩
      | cons job rest =>
          have someJob : 0 < run.queue.length := by rw [queue]; exact Nat.succ_pos _
          obtain ⟨width, isWidth⟩ :
            ∃ width, width = min (max settings.workers 1) run.queue.length :=
            ⟨_, rfl⟩
          have wide : batchWidth settings run = .ok width := by
            rw [batchWidth, unlimited, isWidth]
          have round : processQueue settings layout raised (bound + 1) run =
              (do processBatch settings layout width
                  processQueue settings layout raised bound) run := by
            rw [processQueue_succ, if_neg (by simp [queue]), quiet, if_neg Bool.false_ne_true, wide]
          rw [round]
          have batch := processBatch_eq settings layout width run
          cases expanded : (run.queue.take width).mapM fun job => job.expand layout with
          | error cause =>
              rw [expanded] at batch
              refine ⟨_, _, bind_of_error batch, .inr ⟨cause, rfl⟩, ?_⟩
              exact stays (explored.take width) (counted.take width)
          | ok expansions =>
              rw [expanded] at batch
              obtain ⟨after, applied, exploredAfter, countedAfter⟩ :=
                applyJobs_counted takes expanded (explored.take width) (counted.take width)
              rw [bind_of_ok (batch.trans applied)]
              refine fewer exploredAfter countedAfter ?_
              rw [List.length_append, List.length_take]
              omega

end Verify

/-- At the opening of a run no job is done and none is taken. -/
theorem counted_opening (schedule : Schedule) (pool : Pool) (view : ν) (store : KripkeStructure) :
    (Run.opening schedule pool view store).Counted [] [] where
  processed := rfl
  queued := by simp [Run.card_seen, Run.opening, Visited.size]

namespace Switch

/-- The data of the switch are as declared. -/
theorem declared : pool.Declared := by
  intro entry member
  rw [List.mem_singleton.mp member]
  exact Machine.Declares.start (Machine.declares_nil machine)

/-- The data of the switch are of types that can be listed. -/
theorem enumerable : pool.Enumerable := by
  refine ⟨fun entry member => ?_, fun entry member => ?_⟩
  · rw [List.mem_singleton.mp member]
    rfl
  · rw [List.mem_singleton.mp member]
    refine ⟨fun _ impossible => (nomatch impossible), fun external isExternal => ?_⟩
    rw [List.mem_singleton.mp isExternal]
    rfl

end Switch

end TimedKripke
