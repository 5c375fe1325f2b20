import TimedKripke.Proofs.Variation.Section
import TimedKripke.Proofs.Verification.Exploration

/-! # What an exploration keeps of its pools

An exploration makes pools out of pools in three ways only: it assigns inputs, executes timeslots
and lays the changes of one thread over those of the others. What these three keep holds of every
pool that jobs start from (`Pool.Stable.reached`).
-/

namespace TimedKripke

/-- What assigning inputs, executing timeslots and laying changes over a pool keep. -/
structure Pool.Stable (Holds : Pool → Prop) : Prop where
  /-- Assigning inputs keeps it. -/
  assign : ∀ {pool after : Pool} {id : ExecutableId} {values : PropertyList}, Holds pool →
    pool.assign id values = .ok after → Holds after
  /-- Executing a timeslot keeps it. -/
  execute : ∀ {pool : Pool} (slot : Timeslot) (clock : Clock), Holds pool →
    Holds (executeTimeslot pool slot clock).2.pool
  /-- Laying changes over a pool keeps it. -/
  overlaid : ∀ {pool changed : Pool} (base : Pool), Holds pool → Holds changed →
    Holds (pool.overlaid base changed)

namespace Pool.Stable

variable {Holds : Pool → Prop} (stable : Stable Holds) {timing : ScheduleTiming} {pool : Pool}
include stable

/-- A ringlet that succeeds keeps what is stable. -/
theorem ringlet {slot : Timeslot} {elapsed : Time} {ringlet : Ringlet} (holds : Holds pool)
    (executed : Ringlet.execute pool slot timing elapsed = .ok ringlet) : Holds ringlet.after := by
  obtain ⟨executable, execution, final, after, _, ran, _, rfl⟩ := Ringlet.execute_eq_ok executed
  have kept := stable.execute slot (Clock.new timing elapsed) holds
  rwa [ran] at kept

/-- The paths through a section end in pools that keep what is stable. -/
theorem path {part : SnapshotSection} {paths : List SectionPath} (holds : Holds pool)
    (varied : part.variations pool timing = .ok paths) {path : SectionPath}
    (member : path ∈ paths) : Holds path.after := by
  unfold SnapshotSection.variations at varied
  split at varied
  · cases varied
  · rw [Search.run_eq_explore] at varied
    obtain ⟨branches, explored, rfl⟩ := Outcome.map_eq_ok.mp varied
    obtain ⟨branch, isBranch, rfl⟩ := List.mem_map.mp member
    refine @Search.explore_preserves _ _ _ _ (fun _ (branch : SectionBranch) => Holds branch.pool)
      ?_ _ (SectionBranch.start pool) _ holds explored branch isBranch
    intro slot _ branch children kept expanded child isChild
    obtain ⟨_, _, _, _, _, isPool, _, executed, rfl⟩ := SectionBranch.mem_expand expanded isChild
    exact stable.ringlet (stable.assign kept isPool) executed

/-- The pathways of a thread keep what is stable after every section. -/
theorem pathway {thread : ScheduleThread} {pathways : List Pathway} (holds : Holds pool)
    (varied : thread.variations pool timing = .ok pathways) {pathway : Pathway}
    (member : pathway ∈ pathways) : ∀ path ∈ pathway.sections, Holds path.after := by
  rw [ScheduleThread.variations, Search.run_eq_explore] at varied
  refine (@Search.explore_preserves _ _ _ _ (fun _ (pathway : Pathway) =>
    Holds pathway.after ∧ ∀ path ∈ pathway.sections, Holds path.after) ?_ _
      { entry := pool, sections := [] } _
        ⟨holds, fun _ impossible => absurd impossible List.not_mem_nil⟩ varied pathway member).2
  intro part _ pathway children kept expanded child isChild
  obtain ⟨paths, variedPart, rfl⟩ := Outcome.map_eq_ok.mp expanded
  obtain ⟨path, isPath, rfl⟩ := List.mem_map.mp isChild
  have after := stable.path kept.1 variedPart isPath
  refine ⟨by simpa [Pathway.after] using after, fun other isOther => ?_⟩
  rcases List.mem_append.mp isOther with earlier | here
  · exact kept.2 other earlier
  · rw [List.mem_singleton.mp here]
    exact after

/-- Laying out sections keeps it of the pool that all threads share. -/
theorem shared {layout : Layout} {job : Job} {sections : List (ScheduledPath × Nat)} :
    ∀ {unfolding final : Unfolding}, (∀ scheduled ∈ sections, Holds scheduled.1.path.after) →
      Holds unfolding.shared →
        sections.foldlM (Unfolding.addSection layout job) unfolding = .ok final →
          Holds final.shared := by
  induction sections with
  | nil =>
      intro unfolding final _ holds folded
      cases folded
      exact holds
  | cons scheduled rest others =>
      intro unfolding final each holds folded
      rw [List.foldlM_cons] at folded
      obtain ⟨next, added, folded⟩ := Outcome.bind_eq_ok.mp folded
      refine others (fun later member => each later (List.mem_cons_of_mem _ member)) ?_ folded
      rcases Unfolding.addSection_cases added with rfl | ⟨_, base, _, _, _, _, _, rfl⟩
      · exact holds
      · exact stable.overlaid base holds (each scheduled List.mem_cons_self)

/-- The variations of a job end in pools that keep what is stable. -/
theorem variation {job : Job} {layout : Layout} {variations : List ScheduleVariation}
    (holds : Holds job.pool) (expanded : job.expand layout = .ok variations)
    {variation : ScheduleVariation} (member : variation ∈ variations) : Holds variation.pool := by
  obtain ⟨chosen, follows, made⟩ := Job.mem_expand expanded member
  unfold Job.variation at made
  obtain ⟨unfolded, folded, made⟩ := Outcome.bind_eq_ok.mp made
  have kept : Holds unfolded.shared := by
    refine stable.shared ?_ holds folded
    rintro ⟨scheduled, place⟩ isScheduled
    obtain ⟨pathway, isPathway, isPath⟩ := ScheduledPath.mem_ofPathways
      (List.mem_mergeSort.mp (List.fst_mem_of_mem_zipIdx isScheduled))
    obtain ⟨thread, _, pathways, varied, isVaried⟩ :=
      Outcome.exists_left follows (List.mem_of_getElem? isPathway)
    exact stable.pathway holds varied isVaried _ isPath
  split at made
  · cases made
  · cases made
    exact kept

/-- **All jobs that are reached start from pools that keep what is stable**, by induction on how
they are reached. -/
theorem reached {layout : Layout} {first job : Job} (holds : Holds first.pool)
    (reached : Job.Reached layout first job) : Holds job.pool := by
  induction reached with
  | first => exact holds
  | next _ expanded member _ kept => exact stable.variation kept expanded member

end Pool.Stable

end TimedKripke
