import TimedKripke.Proofs.Verification.Batching
import TimedKripke.Proofs.Verification.Expansion

/-! # What an exploration has seen

A verification has explored some jobs, has taken others off the queue, and has still others
in the queue (`Explored`). Every variation of an explored job has left a trace in the store,
and wherever a variation ended some known job goes on. When the queue is empty, all known
jobs are explored (`Verify.processQueue_explored`).
-/

namespace TimedKripke

/-- The jobs that go on from one another, starting from a given one. -/
inductive Job.Reached (layout : Layout) (first : Job) : Job → Prop
  | first : Reached layout first first
  | next {job : Job} {variations : List ScheduleVariation} {variation : ScheduleVariation}
      (reached : Reached layout first job) (expanded : job.expand layout = .ok variations)
      (member : variation ∈ variations) (state : StateId) :
      Reached layout first (variation.successor state)

/-- Some variation of the job ends with the properties. -/
def Job.EndsWith (layout : Layout) (job : Job) (properties : PropertyList) : Prop :=
  ∃ variations, job.expand layout = .ok variations ∧
    ∃ variation ∈ variations, Verify.Ends variation properties

/-- The job goes on from a variation of a reached job whose end has the given properties. -/
def Job.Resumes (layout : Layout) (first : Job) (store : KripkeStructure)
    (properties : PropertyList) (job : Job) : Prop :=
  ∃ parent variations, Job.Reached layout first parent ∧ parent.expand layout = .ok variations ∧
    Verify.GoesOn store variations properties job

variable {ν : Type}

/-- How far an exploration has come: `done` are the jobs that were explored, `taken` those
taken off the queue. -/
structure Explored (layout : Layout) (first : Job) (done taken : List Job)
    (run : Run ν KripkeStructure) : Prop where
  wellFormed : run.store.WellFormed
  started : first ∈ done ++ taken ++ run.queue
  reached : ∀ job ∈ done ++ taken ++ run.queue, Job.Reached layout first job
  /-- Jobs go on from stored states. -/
  stored : ∀ job ∈ taken ++ run.queue, ∀ source ∈ job.predecessor.map Predecessor.state,
    source < run.store.states.size
  /-- Explored jobs have left traces, and their ends are seen. -/
  traced : ∀ job ∈ done, ∃ variations, job.expand layout = .ok variations ∧
    ∀ variation ∈ variations,
      run.store.Traced (job.predecessor.map Predecessor.state) variation.nodes ∧
        ∀ properties, Verify.Ends variation properties →
          run.visited.elements.contains properties = true
  /-- Some known job goes on from every end that was seen. -/
  resumed : ∀ properties, run.visited.elements.contains properties = true →
    ∃ job ∈ done ++ taken ++ run.queue, Job.Resumes layout first run.store properties job

namespace Explored

variable {layout : Layout} {first job : Job} {done taken : List Job}
  {run : Run ν KripkeStructure}

/-- Taking jobs off the queue leaves an exploration as far as it has come. -/
theorem take (explored : Explored layout first done [] run) (width : Nat) :
    Explored layout first done (run.queue.take width)
      { run with queue := run.queue.drop width } := by
  have known : done ++ run.queue.take width ++ run.queue.drop width = done ++ [] ++ run.queue := by
    rw [List.append_assoc, List.take_append_drop, List.append_nil]
  exact
    { wellFormed := explored.wellFormed
      started := known ▸ explored.started
      reached := fun job member => explored.reached job (known ▸ member)
      stored := fun job member => explored.stored job (by rwa [List.take_append_drop] at member)
      traced := explored.traced
      resumed := fun properties seen => by
        obtain ⟨job, member, resumes⟩ := explored.resumed properties seen
        exact ⟨job, known ▸ member, resumes⟩ }

/-- Applying a job that was taken off the queue takes the exploration one job further, whether or
not the view fails. -/
theorem apply [KripkeView ν] (explored : Explored layout first done (job :: taken) run)
    (limit : Time) {variations : List ScheduleVariation}
    (expanded : job.expand layout = .ok variations) :
    Explored layout first (done ++ [job]) taken (Verify.applyJob limit job variations run).2 := by
  have isKnown : job ∈ done ++ job :: taken ++ run.queue := by simp
  have isReached := explored.reached job isKnown
  have wrote := Verify.applyJob_wrote limit job variations explored.wellFormed
    (explored.stored job List.mem_cons_self)
  generalize (Verify.applyJob limit job variations run).2 = after at wrote
  obtain ⟨opened, queue, _, goOn, complete⟩ := wrote.queued
  have known : done ++ [job] ++ taken ++ after.queue =
      (done ++ job :: taken ++ run.queue) ++ opened.map Prod.snd := by
    rw [queue]
    simp
  constructor
  · exact wrote.wellFormed
  · rw [known]
    exact List.mem_append_left _ explored.started
  · intro next member
    rw [known] at member
    rcases List.mem_append.mp member with member | member
    · exact explored.reached next member
    · obtain ⟨continuation, inOpened, rfl⟩ := List.mem_map.mp member
      obtain ⟨_, variation, isVariation, _, id, same, _⟩ := goOn continuation inOpened
      exact same ▸ .next isReached expanded isVariation id
  · intro next member source isSource
    rw [queue, ← List.append_assoc] at member
    rcases List.mem_append.mp member with member | member
    · exact Nat.lt_of_lt_of_le (explored.stored next (List.mem_cons_of_mem _ member) source
        isSource) wrote.grows.size_le
    · obtain ⟨continuation, inOpened, rfl⟩ := List.mem_map.mp member
      exact (goOn continuation inOpened).2.stored source isSource
  · intro earlier member
    rcases List.mem_append.mp member with member | member
    · obtain ⟨earlierVariations, wasExpanded, each⟩ := explored.traced earlier member
      refine ⟨earlierVariations, wasExpanded, fun variation isVariation => ?_⟩
      obtain ⟨traced, ends⟩ := each variation isVariation
      exact ⟨traced.mono wrote.grows,
        fun properties isEnd => (wrote.visited properties).mpr (.inl (ends properties isEnd))⟩
    · rw [List.mem_singleton.mp member]
      exact ⟨variations, expanded, fun variation isVariation =>
        ⟨wrote.traced variation isVariation, fun properties isEnd =>
          (wrote.visited properties).mpr (.inr ⟨variation, isVariation, isEnd⟩)⟩⟩
  · intro properties seen
    rw [known]
    have earlier : run.visited.elements.contains properties = true →
        ∃ next ∈ done ++ job :: taken ++ run.queue ++ opened.map Prod.snd,
          Job.Resumes layout first after.store properties next := by
      intro wasSeen
      obtain ⟨next, member, parent, before, reached, wasExpanded, goesOn⟩ :=
        explored.resumed properties wasSeen
      exact ⟨next, List.mem_append_left _ member, parent, before, reached, wasExpanded,
        goesOn.mono wrote.grows fun _ => id⟩
    rcases (wrote.visited properties).mp seen with wasSeen | ⟨variation, isVariation, isEnd⟩
    · exact earlier wasSeen
    · rcases complete variation isVariation properties isEnd with wasSeen | ⟨next, member⟩
      · exact earlier wasSeen
      · exact ⟨next, List.mem_append_right _ (List.mem_map_of_mem member), job, variations,
          isReached, expanded, (goOn _ member).2⟩

end Explored

namespace Verify

variable [KripkeView ν] {settings : VerificationSettings} {layout : Layout} {first : Job}

/-- Applying a batch explores its jobs, by induction on the batch. -/
theorem applyJobs_explored {taken : List Job} : ∀ {expansions : List (List ScheduleVariation)}
    {done : List Job} {run after : Run ν KripkeStructure},
    taken.mapM (fun job => job.expand layout) = .ok expansions →
    Explored layout first done taken run →
    applyJobs settings.starvationLimit (taken.zip expansions) run = (.ok (), after) →
      Explored layout first (done ++ taken) [] after := by
  induction taken with
  | nil =>
      intro expansions done run after _ explored applied
      cases applied
      simpa using explored
  | cons job taken others =>
      intro expansions done run after expanded explored applied
      obtain ⟨variations, more, isVariations, isMore, rfl⟩ := mapM_cons_eq_ok expanded
      obtain ⟨_, middle, here, later⟩ := bind_eq_ok applied
      have next := explored.apply settings.starvationLimit isVariations
      have same : (applyJob settings.starvationLimit job variations run).2 = middle :=
        congrArg Prod.snd here
      have final := others isMore (same ▸ next) later
      rwa [List.append_assoc] at final

/-- **Working through the queue explores all jobs**: if it succeeds, no job waits and whatever was
reached is done. -/
theorem processQueue_explored {raised : ν → Nat → List CancellationToken} (bound : Nat) :
    ∀ {done : List Job} {run after : Run ν KripkeStructure}, Explored layout first done [] run →
      processQueue settings layout raised bound run = (.ok (), after) →
        after.queue = [] ∧ ∃ all, Explored layout first all [] after := by
  induction bound with
  | zero =>
      intro done run after explored processed
      rw [processQueue, get_bind] at processed
      split at processed
      · rename_i empty
        cases processed
        exact ⟨by simpa using empty, done, explored⟩
      · cases processed
  | succ bound fewer =>
      intro done run after explored processed
      rw [processQueue_succ] at processed
      split at processed
      · rename_i empty
        cases processed
        exact ⟨by simpa using empty, done, explored⟩
      · split at processed
        · cases processed
        · split at processed
          · cases processed
          · rename_i width _
            obtain ⟨_, middle, batch, later⟩ := bind_eq_ok processed
            rw [processBatch_eq] at batch
            cases expanded : (run.queue.take width).mapM fun job => job.expand layout with
            | error cause =>
                rw [expanded] at batch
                cases batch
            | ok expansions =>
                rw [expanded] at batch
                exact fewer (applyJobs_explored expanded (explored.take width) batch) later

end Verify

/-- **A verification explores all that its schedule can do.** If it succeeds, it has explored
every job it knows, starting from the first. -/
theorem explored_of_verify [KripkeView ν] {settings : VerificationSettings} {schedule : Schedule}
    {pool : Pool} {raised : ν → Nat → List CancellationToken} {bound : Nat} {view : ν}
    {report : VerificationReport} {run : Run ν KripkeStructure}
    (verified : verify settings schedule pool raised bound view KripkeStructure.empty =
      (.ok report, run)) :
    run.queue = [] ∧ ∃ all,
      Explored (Layout.new schedule) (schedule.firstJob pool) all [] run := by
  unfold verify Verify.verification at verified
  obtain ⟨_, checked, validated, verified⟩ := Verify.bind_eq_ok verified
  obtain ⟨_, shown, reset, verified⟩ := Verify.bind_eq_ok verified
  obtain ⟨_, started, pushed, verified⟩ := Verify.bind_eq_ok verified
  obtain ⟨_, processed, worked, verified⟩ := Verify.bind_eq_ok verified
  obtain ⟨_, flushed, flush, verified⟩ := Verify.bind_eq_ok verified
  obtain ⟨_, finished, finish, verified⟩ := Verify.bind_eq_ok verified
  have start : Explored (Layout.new schedule) (schedule.firstJob pool) [] [] started := by
    cases congrArg Prod.snd validated
    cases congrArg Prod.snd reset
    cases congrArg Prod.snd pushed
    refine ⟨KripkeStructure.wellFormed_empty, List.mem_singleton_self _, ?_, ?_, ?_, ?_⟩
    · intro job member
      rw [List.mem_singleton.mp member]
      exact .first
    · intro job member source isSource
      rw [List.mem_singleton.mp member] at isSource
      cases isSource
    · exact fun _ impossible => nomatch impossible
    · intro properties seen
      simp at seen
  obtain ⟨empty, all, explored⟩ := Verify.processQueue_explored bound start worked
  have ends : run = { processed with view := run.view } := by
    cases congrArg Prod.snd flush
    cases congrArg Prod.snd finish
    cases congrArg Prod.snd verified
    rfl
  rw [ends]
  exact ⟨empty, all, explored.wellFormed, explored.started, explored.reached, explored.stored,
    explored.traced, explored.resumed⟩

end TimedKripke
