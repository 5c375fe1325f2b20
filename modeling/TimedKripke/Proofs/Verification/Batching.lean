import Mathlib.Tactic.Common
import TimedKripke.Proofs.Verification.Writing

/-! # Verifying in batches

The number of jobs that are expanded together does not change a verification. Applying a
job reads nothing of the queue and only adds to its end (`Verify.Framed`), so a batch
that is taken off the queue at once leaves the run that its jobs leave when they are
taken one by one, but for the greatest length of the queue. Into a Kripke structure and
a recording view applying a job cannot fail, so the first fault of a batch is also the
first fault of its jobs one by one.
-/

namespace TimedKripke

/-- The settings under which jobs are expanded one at a time. -/
def VerificationSettings.oneByOne (settings : VerificationSettings) : VerificationSettings :=
  { settings with workers := 1 }

variable {ν σ α β : Type}

namespace Run

/-- The run with jobs queued ahead of its own, and with another record of the longest
queue. -/
def ahead (run : Run ν σ) (front : List Job) (longest : Nat) : Run ν σ :=
  { run with
    queue := front ++ run.queue
    stats := { run.stats with maxQueueLength := longest } }

/-- Jobs queued ahead of others that are ahead come first. -/
@[simp] theorem ahead_ahead (run : Run ν σ) (front ahead : List Job) (longest last : Nat) :
    (run.ahead front longest).ahead ahead last = run.ahead (ahead ++ front) last := by
  simp [Run.ahead]

@[simp] theorem ahead_store (run : Run ν σ) (front : List Job) (longest : Nat) :
    (run.ahead front longest).store = run.store :=
  rfl

@[simp] theorem ahead_queue (run : Run ν σ) (front : List Job) (longest : Nat) :
    (run.ahead front longest).queue = front ++ run.queue :=
  rfl

@[simp] theorem ahead_jobsProcessed (run : Run ν σ) (front : List Job) (longest : Nat) :
    (run.ahead front longest).stats.jobsProcessed = run.stats.jobsProcessed :=
  rfl

end Run

namespace Verify

/-- The part does the same with some jobs queued ahead, and leaves them there. -/
def Framed (front : List Job) (part : Verify ν σ α) : Prop :=
  ∀ run longest, ∃ longest', part (run.ahead front longest) =
    ((part run).1, (part run).2.ahead front longest')

variable {front : List Job}

theorem Framed.pure (answer : α) : Framed front (pure answer : Verify ν σ α) :=
  fun _ longest => ⟨longest, rfl⟩

/-- Two framed parts one after the other are framed. -/
theorem Framed.bind {part : Verify ν σ α} {next : α → Verify ν σ β} (first : Framed front part)
    (later : ∀ answer, Framed front (next answer)) : Framed front (part >>= next) := by
  intro run longest
  obtain ⟨longest', framed⟩ := first run longest
  cases ran : part run with
  | mk outcome middle =>
      rw [ran] at framed
      cases outcome with
      | error error =>
          rw [bind_of_error ran, bind_of_error framed]
          exact ⟨longest', rfl⟩
      | ok answer =>
          rw [bind_of_ok ran, bind_of_ok framed]
          exact later answer middle longest'

/-- What succeeds with jobs ahead succeeds without them. -/
theorem Framed.of_ahead {part : Verify ν σ α} (framed : Framed front part) {run after : Run ν σ}
    {longest : Nat} {answer : α} (ran : part (run.ahead front longest) = (.ok answer, after)) :
    ∃ last longest', part run = (.ok answer, last) ∧ last.ahead front longest' = after := by
  obtain ⟨longest', same⟩ := framed run longest
  rw [same] at ran
  exact ⟨(part run).2, longest', Prod.ext (Prod.ext_iff.mp ran).1 rfl, (Prod.ext_iff.mp ran).2⟩

/-- Reading the run is harmless if what follows does not depend on the jobs ahead. -/
theorem Framed.get_bind {next : Run ν σ → Verify ν σ β}
    (blind : ∀ run longest, next (run.ahead front longest) = next run)
    (later : ∀ run, Framed front (next run)) : Framed front (get >>= next) := by
  intro run longest
  rw [Verify.get_bind, Verify.get_bind, blind]
  exact later run run longest

/-- A change of the run is framed if it can be made with the jobs ahead as well. -/
theorem Framed.modify {change : Run ν σ → Run ν σ}
    (commutes : ∀ run longest, ∃ longest',
      change (run.ahead front longest) = (change run).ahead front longest') :
    Framed front (modify change : Verify ν σ Unit) := by
  intro run longest
  obtain ⟨longest', same⟩ := commutes run longest
  exact ⟨longest', Prod.ext rfl same⟩

/-- An operation of the store does not look at the queue. -/
theorem Framed.onStore (operation : σ → Except StoreError α × σ) :
    Framed front (onStore operation : Verify ν σ α) :=
  fun _ longest => ⟨longest, rfl⟩

/-- An operation of the view does not look at the queue. -/
theorem Framed.onView (operation : ν → Except ViewError α × ν) :
    Framed front (onView operation : Verify ν σ α) :=
  fun _ longest => ⟨longest, rfl⟩

/-- Jobs are queued behind the others, so those ahead stay where they are. -/
theorem Framed.push (job : Job) : Framed front (push job : Verify ν σ Unit) := by
  refine Framed.modify fun run longest =>
    ⟨max longest (front ++ (run.queue ++ [job])).length, ?_⟩
  simp only [Run.ahead, List.append_assoc]

/-- A loop of framed steps that carries a state along is framed. -/
theorem Framed.foldlM {step : β → α → Verify ν σ β}
    (each : ∀ state item, Framed front (step state item)) (items : List α) :
    ∀ state, Framed front (items.foldlM step state) := by
  induction items with
  | nil => exact fun state => .pure state
  | cons item rest others =>
      intro state
      rw [List.foldlM_cons]
      exact (each state item).bind others

/-- A loop of framed parts is framed. -/
theorem Framed.forM {part : α → Verify ν σ Unit} (each : ∀ item, Framed front (part item))
    (items : List α) : Framed front (items.forM part) := by
  induction items with
  | nil => exact .pure ()
  | cons item rest others => exact (each item).bind fun _ => others

variable [KripkeView ν] [KripkeStore σ]

omit [KripkeView ν] in
/-- Writing a node does not look at the queue. -/
theorem framed_writeNode (written : Written) (node : Node) :
    Framed front (writeNode written node : Verify ν σ Written) := by
  unfold writeNode
  refine .get_bind (fun _ _ => rfl) fun run => (Framed.onStore _).bind fun added => ?_
  refine .get_bind (fun _ _ => rfl) fun run' => ?_
  cases written.previous with
  | none => exact .pure _
  | some source => exact (Framed.onStore _).bind fun _ => .pure _

omit [KripkeView ν] in
/-- Writing a variation adds to the end of the queue only. -/
theorem framed_applyVariation (limit : Time) (predecessor : Option Predecessor) (applied : Applied)
    (variation : ScheduleVariation) :
    Framed front (applyVariation limit predecessor applied variation : Verify ν σ Applied) := by
  unfold applyVariation
  refine (Framed.foldlM framed_writeNode _ _).bind fun written => ?_
  refine (Framed.modify fun _ longest => ⟨longest, rfl⟩).bind fun _ => ?_
  cases variation.nodes.getLast? with
  | none => exact .pure _
  | some last =>
      cases written.previous with
      | none => exact .pure _
      | some id =>
          refine .get_bind (fun _ _ => rfl) fun run => ?_
          refine (Framed.modify fun _ longest => ⟨longest, rfl⟩).bind fun _ => ?_
          split
          · exact (Framed.modify fun _ longest => ⟨longest, rfl⟩).bind fun _ => .pure _
          · exact (Framed.push _).bind fun _ => .pure _

/-- A commit does not look at the queue. -/
theorem framed_commit (id : StateId) : Framed front (commit id : Verify ν σ Unit) := by
  unfold commit
  refine .get_bind (fun _ _ => rfl) fun run => ?_
  split
  · exact .pure ()
  · refine (Framed.modify fun _ longest => ⟨longest, rfl⟩).bind fun _ => ?_
    exact (Framed.onStore _).bind fun state => (Framed.onView _).bind fun _ =>
      .modify fun _ longest => ⟨longest, rfl⟩

/-- Applying a job leaves the jobs ahead of it in the queue alone. -/
theorem framed_applyJob (limit : Time) (job : Job) (variations : List ScheduleVariation) :
    Framed front (applyJob limit job variations : Verify ν σ Unit) := by
  rw [applyJob_eq]
  refine (Framed.modify fun _ longest => ⟨longest, rfl⟩).bind fun _ => ?_
  refine (Framed.foldlM (framed_applyVariation limit job.predecessor) _ _).bind fun applied => ?_
  exact (Framed.forM framed_commit _).bind fun _ => .modify fun _ longest => ⟨longest, rfl⟩

/-- Applies expanded jobs in order. -/
def applyJobs (limit : Time) (expanded : List (Job × List ScheduleVariation)) :
    Verify ν σ Unit :=
  expanded.forM fun job => applyJob limit job.1 job.2

/-- Writing the variations of several jobs adds to the end of the queue only. -/
theorem framed_applyJobs (limit : Time) (expanded : List (Job × List ScheduleVariation)) :
    Framed front (applyJobs limit expanded : Verify ν σ Unit) := by
  refine Framed.forM (fun job => ?_) expanded
  exact framed_applyJob limit job.1 job.2

/-- Working through the queue takes no notice of the longest queue so far. -/
theorem framed_processQueue (settings : VerificationSettings) (layout : Layout)
    (raised : ν → Nat → List CancellationToken) (bound : Nat) :
    Framed [] (processQueue settings layout raised bound : Verify ν σ Unit) := by
  induction bound with
  | zero =>
      unfold processQueue
      refine .get_bind (fun _ _ => rfl) fun run => ?_
      split
      · exact .pure ()
      · exact fun _ longest => ⟨longest, rfl⟩
  | succ bound fewer =>
      unfold processQueue
      refine .get_bind (fun _ _ => rfl) fun run => ?_
      split
      · exact .pure ()
      · split
        · exact fun _ longest => ⟨longest, rfl⟩
        · refine Framed.bind (fun _ longest => ⟨longest, rfl⟩) fun width => ?_
          refine Framed.bind ?_ fun _ => fewer
          unfold processBatch
          refine .get_bind (fun _ _ => rfl) fun run' => ?_
          refine (Framed.modify fun _ longest => ⟨longest, rfl⟩).bind fun _ => ?_
          refine Framed.bind (fun _ longest => ⟨longest, rfl⟩) fun expansions => ?_
          exact framed_applyJobs _ _

end Verify

/-- The jobs of the queue go on from stored states of a well-formed structure. -/
structure Run.Sound (run : Run ν KripkeStructure) : Prop where
  wellFormed : run.store.WellFormed
  /-- The state that a queued job goes on from is stored. -/
  stored : ∀ job ∈ run.queue, ∀ source ∈ job.predecessor.map Predecessor.state,
    source < run.store.states.size

namespace Verify

/-- A recording view takes every stored state, and neither the store nor the number of processed
jobs changes. -/
theorem commit_eq_ok {run : Run RecordingView KripkeStructure} {id : StateId}
    (stored : id < run.store.states.size) :
    ∃ after, commit id run = (.ok (), after) ∧ after.store = run.store ∧
      after.stats.jobsProcessed = run.stats.jobsProcessed := by
  obtain ⟨view, committed, shown, same⟩ := onlyShows_commit id run
  suffices succeeds : (commit id run).1 = .ok () from
    ⟨_, Prod.ext succeeds same, rfl, rfl⟩
  unfold commit
  rw [get_bind]
  split
  · rfl
  · have found : KripkeStore.state run.store id = .ok run.store.states[id] := by
      simp [KripkeStore.state, KripkeStructure.state, stored]
    have looked : (onStore fun store => (KripkeStore.state store id, store) :
        Verify RecordingView KripkeStructure KripkeState)
          { run with committed := run.committed.insert id } =
        (.ok run.store.states[id], { run with committed := run.committed.insert id }) := by
      simp only [onStore, found]
      rfl
    rw [modify_bind, bind_of_ok looked]
    rfl

/-- States that exist are committed without a fault by a view that records them. -/
theorem commits_eq_ok {ids : List StateId} : ∀ {run : Run RecordingView KripkeStructure},
    (∀ id ∈ ids, id < run.store.states.size) →
    ∃ after, ids.forM commit run = (.ok (), after) ∧
      after.stats.jobsProcessed = run.stats.jobsProcessed := by
  induction ids with
  | nil => exact fun {run} _ => ⟨run, rfl, rfl⟩
  | cons id rest others =>
      intro run stored
      obtain ⟨middle, first, same, count⟩ := commit_eq_ok (stored id List.mem_cons_self)
      have storedLater : ∀ other ∈ rest, other < middle.store.states.size :=
        fun other member => same ▸ stored other (List.mem_cons_of_mem id member)
      obtain ⟨after, later, count'⟩ := others storedLater
      exact ⟨after, (bind_of_ok first).trans later, count'.trans count⟩

/-- **Applying a job succeeds.** Every job that is then queued goes on from a stored
state. -/
theorem applyJob_eq_ok (limit : Time) (job : Job) (variations : List ScheduleVariation)
    {run : Run RecordingView KripkeStructure} (sound : run.Sound)
    (stored : ∀ source ∈ job.predecessor.map Predecessor.state, source < run.store.states.size) :
    ∃ after, applyJob limit job variations run = (.ok (), after) ∧ after.Sound ∧
      after.stats.jobsProcessed = run.stats.jobsProcessed + 1 := by
  obtain ⟨applied, middle, writes, wrote, created, count⟩ := applyVariations_eq_ok limit
    job.predecessor variations { created := [], deferred := [] }
    (show (countVariations variations.length run).store.WellFormed from sound.wellFormed) stored
  have completedStored : ∀ id ∈ completed job applied, id < middle.store.states.size := by
    intro id member
    rcases List.mem_append.mp member with member | member
    · exact Nat.lt_of_lt_of_le (stored id (Option.mem_toList.mp member)) wrote.grows.size_le
    · have isCreated := List.mem_mergeSort.mp (List.mem_filter.mp member).1
      exact (created id isCreated).resolve_left List.not_mem_nil
  obtain ⟨shown, commits, countShown⟩ := commits_eq_ok completedStored
  have succeeds : applyJob limit job variations run = (.ok (), countJob shown) := by
    rw [applyJob_eq, modify_bind, bind_of_ok writes, bind_of_ok commits]
    rfl
  have wrote := applyJob_wrote limit job variations sound.wellFormed stored
  rw [succeeds] at wrote
  refine ⟨_, succeeds, ⟨wrote.wellFormed, ?_⟩, ?_⟩
  · obtain ⟨opened, queue, _, goOn, _⟩ := wrote.queued
    intro next member source isSource
    rw [queue] at member
    rcases List.mem_append.mp member with member | member
    · exact Nat.lt_of_lt_of_le (sound.stored next member source isSource) wrote.grows.size_le
    · obtain ⟨continuation, inOpened, rfl⟩ := List.mem_map.mp member
      exact (goOn continuation inOpened).2.stored source isSource
  · exact congrArg (· + 1) (countShown.trans count)

/-- One round of the work on the queue ends if no job waits, if it is cancelled or if the limit is
reached, and processes a batch otherwise. -/
theorem processQueue_succ [KripkeView ν] [KripkeStore σ] (settings : VerificationSettings)
    (layout : Layout) (raised : ν → Nat → List CancellationToken) (bound : Nat) (run : Run ν σ) :
    processQueue settings layout raised (bound + 1) run =
      if run.queue.isEmpty then (.ok (), run)
      else if settings.isCancelled (raised run.view run.stats.jobsProcessed) then
        (.error (.cancelled run.stats.jobsProcessed), run)
      else match batchWidth settings run with
        | .error error => (.error error, run)
        | .ok width =>
            (do processBatch settings layout width
                processQueue settings layout raised bound) run := by
  rw [processQueue, get_bind]
  split
  · rfl
  · split
    · rfl
    · cases batchWidth settings run <;> rfl

/-- A run without jobs is over. -/
theorem processQueue_empty [KripkeView ν] [KripkeStore σ] (settings : VerificationSettings)
    (layout : Layout) (raised : ν → Nat → List CancellationToken) (bound : Nat) {run : Run ν σ}
    (empty : run.queue = []) : processQueue settings layout raised bound run = (.ok (), run) := by
  cases bound with
  | zero => rw [processQueue, get_bind, empty]; rfl
  | succ bound => rw [processQueue_succ, empty]; rfl

/-- An answer that is not for lack of rounds stays the same with more of them. -/
theorem processQueue_stable [KripkeView ν] [KripkeStore σ] (settings : VerificationSettings)
    (layout : Layout) (raised : ν → Nat → List CancellationToken) (bound : Nat) :
    ∀ {run : Run ν σ}, (processQueue settings layout raised bound run).1 ≠ .error .unfinished →
      ∀ more, bound ≤ more → processQueue settings layout raised more run =
        processQueue settings layout raised bound run := by
  induction bound with
  | zero =>
      intro run finished more _
      cases queue : run.queue with
      | nil => rw [processQueue_empty _ _ _ _ queue, processQueue_empty _ _ _ _ queue]
      | cons job rest =>
          refine absurd ?_ finished
          rw [processQueue, get_bind, queue]
          rfl
  | succ bound fewer =>
      intro run finished more enough
      obtain ⟨more, rfl⟩ : ∃ less, more = less + 1 := ⟨more - 1, by omega⟩
      rw [processQueue_succ] at finished
      rw [processQueue_succ, processQueue_succ]
      split
      · rfl
      · split
        · rfl
        · rename_i waiting quiet
          rw [if_neg waiting, if_neg quiet] at finished
          cases planned : batchWidth settings run with
          | error error => rfl
          | ok width =>
              simp only [planned] at finished ⊢
              cases ran : processBatch settings layout width run with
              | mk outcome middle =>
                  cases outcome with
                  | error error => rw [bind_of_error ran, bind_of_error ran]
                  | ok done =>
                      rw [bind_of_ok ran] at finished
                      rw [bind_of_ok ran, bind_of_ok ran]
                      exact fewer finished more (by omega)

/-- A batch expands the first jobs of the queue and then writes their variations in order. If an
expansion fails, nothing of the batch is written. -/
theorem processBatch_eq [KripkeView ν] [KripkeStore σ] (settings : VerificationSettings)
    (layout : Layout) (width : Nat) (run : Run ν σ) :
    processBatch settings layout width run =
      match (run.queue.take width).mapM fun job => job.expand layout with
      | .error cause => (.error (.fault cause), { run with queue := run.queue.drop width })
      | .ok expansions => applyJobs settings.starvationLimit ((run.queue.take width).zip expansions)
          { run with queue := run.queue.drop width } := by
  rw [processBatch, get_bind, modify_bind]
  cases expanded : (run.queue.take width).mapM fun job => job.expand layout with
  | error cause => exact bind_of_error rfl
  | ok expansions => exact bind_of_ok rfl

/-- A list that is mapped has its first element mapped, then the rest. -/
theorem mapM_cons_eq_ok {ε : Type} {step : α → Except ε β} {item : α} {items : List α}
    {answers : List β} (mapped : (item :: items).mapM step = .ok answers) :
    ∃ first later, step item = .ok first ∧ items.mapM step = .ok later ∧
      answers = first :: later := by
  rw [List.mapM_cons] at mapped
  cases first : step item with
  | error error =>
      rw [first] at mapped
      cases mapped
  | ok answer =>
      cases later : items.mapM step with
      | error error =>
          rw [first, later] at mapped
          cases mapped
      | ok others =>
          rw [first, later] at mapped
          cases mapped
          exact ⟨answer, others, rfl, rfl, rfl⟩

/-- The limit leaves room for so many more jobs. -/
def Room (settings : VerificationSettings) (run : Run ν σ) (count : Nat) : Prop :=
  ∀ limit ∈ settings.maxJobs, run.stats.jobsProcessed + count ≤ limit

/-- Either the limit is reached, or there is room for a batch from the queue. -/
theorem batchWidth_cases (settings : VerificationSettings) {run : Run ν σ}
    (waiting : run.queue ≠ []) :
    (∃ limit, settings.maxJobs = some limit ∧ limit ≤ run.stats.jobsProcessed ∧
      batchWidth settings run = .error (.jobLimitExceeded limit)) ∨
    ∃ width, batchWidth settings run = .ok width ∧ 0 < width ∧ width ≤ max settings.workers 1 ∧
      width ≤ run.queue.length ∧ Room settings run width := by
  have someJob : 0 < run.queue.length := List.length_pos_iff.mpr waiting
  unfold batchWidth Room
  cases settings.maxJobs with
  | none =>
      exact .inr ⟨_, rfl, by omega, by omega, by omega, fun _ impossible => nomatch impossible⟩
  | some limit =>
      by_cases reached : limit - run.stats.jobsProcessed = 0
      · exact .inl ⟨limit, rfl, by omega, by simp [reached]⟩
      · refine .inr ⟨_, if_neg reached, by omega, by omega, by omega, ?_⟩
        rintro _ ⟨⟩
        omega

section Singles

variable {settings : VerificationSettings} {layout : Layout}
  {raised : RecordingView → Nat → List CancellationToken}
  (quiet : ∀ view jobs, settings.isCancelled (raised view jobs) = false)
include quiet

/-- Work stops where the limit is reached while jobs still wait, and the run is left as it is. -/
theorem processQueue_full (bound : Nat) {run : Run RecordingView KripkeStructure}
    (waiting : run.queue ≠ []) {limit : Nat} (limited : settings.maxJobs = some limit)
    (reached : limit ≤ run.stats.jobsProcessed) :
    processQueue settings layout raised (bound + 1) run =
      (.error (.jobLimitExceeded limit), run) := by
  have stopped : batchWidth settings run = .error (.jobLimitExceeded limit) := by
    simp [batchWidth, limited, Nat.sub_eq_zero_of_le reached]
  rw [processQueue_succ, if_neg (by simpa using waiting), if_neg (ne_true_of_eq_false (quiet _ _)),
    stopped]

/-- One by one, a round takes the next job off the queue as long as the limit leaves room for it. -/
theorem processQueue_single (bound : Nat) {run : Run RecordingView KripkeStructure} {job : Job}
    {rest : List Job} (queue : run.queue = job :: rest) (room : Room settings run 1) :
    processQueue settings.oneByOne layout raised (bound + 1) run =
      (do processBatch settings.oneByOne layout 1
          processQueue settings.oneByOne layout raised bound) run := by
  have waiting : run.queue ≠ [] := by simp [queue]
  have width : batchWidth settings.oneByOne run = .ok 1 := by
    rcases batchWidth_cases settings.oneByOne waiting with
      ⟨limit, limited, reached, _⟩ | ⟨width, planned, positive, narrow, _, _⟩
    · have := room limit limited
      omega
    · have narrow : width ≤ max 1 1 := narrow
      obtain rfl : width = 1 := by omega
      exact planned
  have going := ne_true_of_eq_false (quiet run.view run.stats.jobsProcessed)
  rw [processQueue_succ, if_neg (by simp [queue]), width]
  exact if_neg going

/-- One job at a time, a run ends with the fault of its first job. -/
theorem processQueue_single_fault (bound : Nat) {run : Run RecordingView KripkeStructure}
    {job : Job} {rest : List Job} {cause : Fault} (queue : run.queue = job :: rest)
    (room : Room settings run 1) (expanded : job.expand layout = .error cause) :
    (processQueue settings.oneByOne layout raised (bound + 1) run).1 =
      .error (.fault cause) := by
  rw [processQueue_single quiet bound queue room]
  have batch : processBatch settings.oneByOne layout 1 run =
      (.error (.fault cause), { run with queue := rest }) := by
    rw [processBatch_eq, queue]
    simp only [List.take_succ_cons, List.take_zero, List.mapM_cons, expanded]
    rfl
  rw [bind_of_error batch]

/-- One job at a time, a run writes its first job and goes on with the rest. -/
theorem processQueue_single_ok (bound : Nat) {run middle : Run RecordingView KripkeStructure}
    {job : Job} {rest : List Job} {variations : List ScheduleVariation}
    (queue : run.queue = job :: rest) (room : Room settings run 1)
    (expanded : job.expand layout = .ok variations)
    (applied : applyJob settings.starvationLimit job variations { run with queue := rest } =
      (.ok (), middle)) :
    processQueue settings.oneByOne layout raised (bound + 1) run =
      processQueue settings.oneByOne layout raised bound middle := by
  rw [processQueue_single quiet bound queue room]
  have batch : processBatch settings.oneByOne layout 1 run = (.ok (), middle) := by
    rw [processBatch_eq, queue]
    simp only [List.take_succ_cons, List.take_zero, List.mapM_cons, List.mapM_nil, expanded]
    exact (bind_of_ok applied).trans rfl
  rw [bind_of_ok batch]

/-- The first job of a batch leaves the others of the batch ahead of what it queues. -/
theorem processQueue_next {run : Run RecordingView KripkeStructure} {job : Job}
    {batch rest : List Job} {variations : List ScheduleVariation} (sound : run.Sound)
    (queue : run.queue = job :: (batch ++ rest)) (room : Room settings run (batch.length + 1))
    (expanded : job.expand layout = .ok variations) :
    ∃ middle longest, applyJob settings.starvationLimit job variations
        { run with queue := rest } = (.ok (), middle) ∧
      (middle.ahead batch longest).Sound ∧
      Room settings (middle.ahead batch longest) batch.length ∧
      ∀ bound, processQueue settings.oneByOne layout raised (bound + 1) run =
        processQueue settings.oneByOne layout raised bound
          (middle.ahead batch longest) := by
  have soundRest : ∀ few, (∀ next ∈ few, next ∈ batch ++ rest) →
      Run.Sound { run with queue := few } :=
    fun few subset => ⟨sound.wellFormed, fun next member =>
      sound.stored next (by rw [queue]; exact List.mem_cons_of_mem job (subset next member))⟩
  have stored := sound.stored job (by rw [queue]; exact List.mem_cons_self)
  obtain ⟨middle, applied, _, count⟩ := applyJob_eq_ok settings.starvationLimit job variations
    (soundRest rest fun _ member => List.mem_append_right batch member) stored
  obtain ⟨longest, framed⟩ : ∃ longest, applyJob settings.starvationLimit job variations
      { run with queue := batch ++ rest } = (.ok (), middle.ahead batch longest) := by
    obtain ⟨longest, framed⟩ := framed_applyJob settings.starvationLimit job variations
      { run with queue := rest } run.stats.maxQueueLength
    rw [applied] at framed
    exact ⟨longest, framed⟩
  obtain ⟨after, applied', soundAfter, _⟩ := applyJob_eq_ok settings.starvationLimit job variations
    (soundRest (batch ++ rest) fun _ => id) stored
  obtain rfl : middle.ahead batch longest = after := congrArg Prod.snd (framed.symm.trans applied')
  refine ⟨middle, longest, applied, soundAfter, ?_, fun bound =>
    processQueue_single_ok quiet bound queue ?_ expanded framed⟩
  · intro limit limited
    have := room limit limited
    have counted : middle.stats.jobsProcessed = run.stats.jobsProcessed + 1 := count
    rw [Run.ahead_jobsProcessed]
    omega
  · intro limit limited
    have := room limit limited
    omega

/-- A batch that is expanded and applied at once leaves what its jobs leave one by one. -/
theorem processQueue_batch_ok (batch : List Job) :
    ∀ {run : Run RecordingView KripkeStructure} {rest : List Job}
      {expansions : List (List ScheduleVariation)}, run.Sound → run.queue = batch ++ rest →
      Room settings run batch.length →
      batch.mapM (fun job => job.expand layout) = .ok expansions →
      ∃ after longest, applyJobs settings.starvationLimit (batch.zip expansions)
          { run with queue := rest } = (.ok (), after) ∧ after.Sound ∧
        ∀ bound, processQueue settings.oneByOne layout raised (batch.length + bound) run =
          processQueue settings.oneByOne layout raised bound (after.ahead [] longest) := by
  induction batch with
  | nil =>
      intro run rest expansions sound queue _ expanded
      cases expanded
      cases queue
      refine ⟨run, run.stats.maxQueueLength, rfl, sound, fun bound => ?_⟩
      rw [List.length_nil, Nat.zero_add]
      rfl
  | cons job batch others =>
      intro run rest expansions sound queue room expanded
      obtain ⟨variations, more, first, later, rfl⟩ := mapM_cons_eq_ok expanded
      obtain ⟨middle, longest, applied, soundMiddle, roomMiddle, next⟩ :=
        processQueue_next quiet sound queue room first
      obtain ⟨after, longest', ran, soundAfter, same⟩ := others soundMiddle
        (Run.ahead_queue middle batch longest) roomMiddle later
      -- The others start from `middle` but for the longest queue, which they do not read.
      have ran : applyJobs settings.starvationLimit (batch.zip more) (middle.ahead [] longest) =
        (.ok (), after) := ran
      obtain ⟨last, longest'', final, rfl⟩ :=
        (framed_applyJobs settings.starvationLimit (batch.zip more)).of_ahead ran
      refine ⟨last, longest', (bind_of_ok applied).trans final,
        ⟨soundAfter.wellFormed, soundAfter.stored⟩, fun bound => ?_⟩
      rw [List.length_cons, Nat.succ_add, next, same, Run.ahead_ahead]
      rfl

/-- The first fault of a batch is the first fault of its jobs one by one. -/
theorem processQueue_batch_fault (bound : Nat) (batch : List Job) :
    ∀ {run : Run RecordingView KripkeStructure} {rest : List Job} {cause : Fault}, run.Sound →
      run.queue = batch ++ rest → Room settings run batch.length →
      batch.mapM (fun job => job.expand layout) = .error cause →
      (processQueue settings.oneByOne layout raised (batch.length + bound) run).1 =
        .error (.fault cause) := by
  induction batch with
  | nil =>
      intro run rest cause _ _ _ impossible
      cases impossible
  | cons job batch others =>
      intro run rest cause sound queue room failed
      rw [List.length_cons, Nat.succ_add]
      cases expanded : job.expand layout with
      | error first =>
          rw [List.mapM_cons, expanded] at failed
          cases failed
          refine processQueue_single_fault quiet _ queue ?_ expanded
          intro limit limited
          have := room limit limited
          rw [List.length_cons] at this
          omega
      | ok variations =>
          have failedLater : batch.mapM (fun job => job.expand layout) = .error cause := by
            rw [List.mapM_cons, expanded] at failed
            cases later : batch.mapM (fun job => job.expand layout) with
            | error cause' =>
                rw [later] at failed
                cases failed
                rfl
            | ok more =>
                rw [later] at failed
                cases failed
          obtain ⟨middle, longest, _, soundMiddle, roomMiddle, next⟩ :=
            processQueue_next quiet sound queue room expanded
          rw [next]
          exact others soundMiddle (Run.ahead_queue middle batch longest) roomMiddle failedLater

/-- The answers are the same error, or both a success that leaves the same run but for the
longest queue. -/
def Alike (first second : Except VerificationError α × Run ν σ) : Prop :=
  first.1 = second.1 ∧ ∀ answer, first.1 = .ok answer → ∃ longest, second.2 =
    first.2.ahead [] longest

omit quiet in
theorem Alike.refl (answer : Except VerificationError α × Run ν σ) : Alike answer answer :=
  ⟨rfl, fun _ _ => ⟨answer.2.stats.maxQueueLength, rfl⟩⟩

omit quiet in
theorem Alike.trans {first second third : Except VerificationError α × Run ν σ}
    (left : Alike first second) (right : Alike second third) : Alike first third := by
  refine ⟨left.1.trans right.1, fun answer succeeded => ?_⟩
  obtain ⟨longest, same⟩ := left.2 answer succeeded
  obtain ⟨longest', same'⟩ := right.2 answer (left.1 ▸ succeeded)
  exact ⟨longest', by rw [same', same, Run.ahead_ahead]; rfl⟩

omit quiet in
theorem Alike.symm {first second : Except VerificationError α × Run ν σ}
    (alike : Alike first second) : Alike second first := by
  refine ⟨alike.1.symm, fun answer succeeded => ?_⟩
  obtain ⟨longest, same⟩ := alike.2 answer (alike.1 ▸ succeeded)
  exact ⟨first.2.stats.maxQueueLength, by rw [same, Run.ahead_ahead]; rfl⟩

omit quiet in
/-- A framed part answers alike whatever the longest queue was so far. -/
theorem Framed.alike {part : Verify ν σ α} (blind : Framed [] part) (run : Run ν σ)
    (longest : Nat) : Alike (part run) (part (run.ahead [] longest)) := by
  obtain ⟨longest', framed⟩ := blind run longest
  rw [framed]
  exact ⟨rfl, fun _ _ => ⟨longest', rfl⟩⟩

/-- **Batches are as good as single jobs.** Rounds of any width come to what at least as many
rounds of one job come to. -/
theorem processQueue_alike_singles (bound : Nat) :
    ∀ {run : Run RecordingView KripkeStructure}, run.Sound → ∃ steps, bound ≤ steps ∧
      Alike (processQueue settings layout raised bound run)
        (processQueue settings.oneByOne layout raised steps run) := by
  induction bound with
  | zero =>
      intro run _
      refine ⟨0, Nat.le_refl 0, ?_⟩
      rw [processQueue, processQueue]
      exact .refl _
  | succ bound fewer =>
      intro run sound
      by_cases waiting : run.queue = []
      · refine ⟨bound + 1, Nat.le_refl _, ?_⟩
        rw [processQueue_empty _ _ _ _ waiting, processQueue_empty _ _ _ _ waiting]
        exact .refl _
      · rcases batchWidth_cases settings waiting with ⟨limit, limited, reached, _⟩ |
          ⟨width, planned, positive, _, within, room⟩
        · have quietOne : ∀ view jobs, settings.oneByOne.isCancelled (raised view jobs) = false :=
            quiet
          refine ⟨bound + 1, Nat.le_refl _, ?_⟩
          rw [processQueue_full quiet bound waiting limited reached,
            processQueue_full quietOne bound waiting limited reached]
          exact .refl _
        · have batchLength : (run.queue.take width).length = width := by
            rw [List.length_take]
            omega
          have queue := (List.take_append_drop width run.queue).symm
          have going := ne_true_of_eq_false (quiet run.view run.stats.jobsProcessed)
          rw [← batchLength] at room
          rw [processQueue_succ, if_neg (by simpa using waiting), if_neg going, planned]
          cases expanded : (run.queue.take width).mapM fun job => job.expand layout with
          | error cause =>
              have failed : processBatch settings layout width run =
                  (.error (.fault cause), { run with queue := run.queue.drop width }) := by
                rw [processBatch_eq, expanded]
              refine ⟨(run.queue.take width).length + bound, by omega, ?_⟩
              simp only [bind_of_error failed]
              exact ⟨(processQueue_batch_fault quiet bound _ sound queue room expanded).symm,
                fun _ impossible => nomatch impossible⟩
          | ok expansions =>
              obtain ⟨after, longest, applied, soundAfter, same⟩ :=
                processQueue_batch_ok quiet _ sound queue room expanded
              have ran : processBatch settings layout width run = (.ok (), after) := by
                rw [processBatch_eq, expanded]
                exact applied
              obtain ⟨steps, enough, alike⟩ := fewer soundAfter
              refine ⟨(run.queue.take width).length + steps, by omega, ?_⟩
              simp only [bind_of_ok ran, same]
              exact alike.trans ((framed_processQueue _ _ _ _).alike _ _)

/-- Rounds that end come to the same with any number of workers, if only there are enough of
them. -/
theorem processQueue_alike (first second : Nat) {bound : Nat}
    {run : Run RecordingView KripkeStructure} (sound : run.Sound)
    (finished : (processQueue { settings with workers := first } layout raised bound run).1 ≠
      .error .unfinished) :
    ∃ enough, ∀ more, enough ≤ more →
      Alike (processQueue { settings with workers := first } layout raised bound run)
        (processQueue { settings with workers := second } layout raised more run) := by
  have singles (workers bound : Nat) : ∃ steps, bound ≤ steps ∧
      Alike (processQueue { settings with workers } layout raised bound run)
        (processQueue settings.oneByOne layout raised steps run) :=
    @processQueue_alike_singles { settings with workers } layout raised quiet bound run sound
  obtain ⟨steps, _, alike⟩ := singles first bound
  refine ⟨steps, fun more enough => ?_⟩
  obtain ⟨steps', enough', alike'⟩ := singles second more
  have stable := processQueue_stable settings.oneByOne layout raised steps (alike.1 ▸ finished)
    steps' (Nat.le_trans enough enough')
  rw [stable] at alike'
  exact alike.trans alike'.symm

end Singles

end Verify

/-- The run at the start of a verification, with its first job in the queue. -/
def Run.started (settings : VerificationSettings) (schedule : Schedule) (pool : Pool)
    (view : RecordingView) (store : KripkeStructure) : Run RecordingView KripkeStructure :=
  { view := view.reset settings.usingClocks
    store
    queue := [schedule.firstJob pool]
    stats := { maxQueueLength := 1 } }

/-- A run on a well-formed store is sound at its start. -/
theorem Run.sound_started (settings : VerificationSettings) (schedule : Schedule) (pool : Pool)
    (view : RecordingView) {store : KripkeStructure} (wellFormed : store.WellFormed) :
    (Run.started settings schedule pool view store).Sound := by
  refine ⟨wellFormed, fun job member source isSource => ?_⟩
  rw [List.mem_singleton.mp member] at isSource
  cases isSource

/-- What a verification answers when its queue has been worked through. -/
def Verify.closed : Except VerificationError Unit × Run RecordingView KripkeStructure →
    Except VerificationError VerificationReport × Run RecordingView KripkeStructure
  | (.error error, run) => (.error error, run)
  | (.ok _, run) =>
      (.ok { stats := run.stats, liveness := run.liveness }, { run with view := run.view.finish })

/-- Closing a run that failed leaves its error. -/
theorem Verify.closed_of_error {answer : Except VerificationError Unit ×
    Run RecordingView KripkeStructure} {error : VerificationError} (failed :
      answer.1 = .error error) :
    (Verify.closed answer).1 = .error error := by
  obtain ⟨outcome, run⟩ := answer
  cases failed
  rfl

/-- A verification of a schedule that is refused fails at once; of any other, the queue with
the first job is worked through. -/
theorem verify_eq (settings : VerificationSettings) (schedule : Schedule) (pool : Pool)
    (raised : RecordingView → Nat → List CancellationToken) (bound : Nat) (view : RecordingView)
    (store : KripkeStructure) :
    verify settings schedule pool raised bound view store =
      match schedule.validate pool with
      | .error cause => (.error (.fault cause), { view, store })
      | .ok _ => Verify.closed (Verify.processQueue settings (Layout.new schedule) raised bound
          (Run.started settings schedule pool view store)) := by
  unfold verify Verify.verification
  cases schedule.validate pool with
  | error cause => exact Verify.bind_of_error rfl
  | ok _ =>
      refine (Verify.bind_of_ok rfl).trans ?_
      refine (Verify.bind_of_ok rfl).trans ?_
      refine (Verify.modify_bind _ _ _).trans ?_
      cases ran : Verify.processQueue settings (Layout.new schedule) raised bound
          (Run.started settings schedule pool view store) with
      | mk outcome after =>
          cases outcome with
          | error error => exact Verify.bind_of_error ran
          | ok done => exact Verify.bind_of_ok ran

end TimedKripke
