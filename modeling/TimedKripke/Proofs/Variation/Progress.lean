import TimedKripke.Proofs.Enumeration.Domain
import TimedKripke.Proofs.Variation.Section

/-! # There is always a way on

Types that can be listed have values, and a timeslot can be executed at any time. So wherever a
section or a thread can be run at all, it can be run in some way (`SnapshotSection.exists_path`,
`ScheduleThread.exists_pathway`), with one step for every timeslot
(`SnapshotSection.takes_of_variations`, `ScheduleThread.takes_of_variations`). Nothing is asked
of the pool.
-/

namespace TimedKripke

/-- A search whose stages always lead on finds something. -/
theorem Search.explore_ne_nil {σ β ε : Type} {expand : σ → β → Except ε (List β)}
    (goesOn : ∀ {stage state children}, expand stage state = .ok children → children ≠ []) :
    ∀ {stages : List σ} {state : β} {outcomes : List β},
      explore expand stages state = .ok outcomes → outcomes ≠ [] := by
  intro stages
  induction stages with
  | nil =>
      intro state outcomes explored
      cases explored
      exact List.cons_ne_nil _ _
  | cons stage stages shorter =>
      intro state outcomes explored
      obtain ⟨children, inside, expanded, mapped, rfl⟩ := explore_cons_eq_ok.mp explored
      obtain ⟨child, isChild⟩ := List.exists_mem_of_ne_nil _ (goesOn expanded)
      obtain ⟨found, isFound, isOutcome⟩ := Outcome.exists_of_mapM mapped isChild
      obtain ⟨outcome, member⟩ := List.exists_mem_of_ne_nil _ (shorter isOutcome)
      exact List.ne_nil_of_mem (List.mem_flatten.mpr ⟨found, isFound, member⟩)

/-- A timeslot that can be executed has a conditional ringlet. -/
theorem Ringlet.timeAware_ne_nil {pool : Pool} {slot : Timeslot} {timing : ScheduleTiming}
    {start : Time} {ringlets : List ConditionalRinglet}
    (sampled : timeAware pool slot timing start = .ok ringlets) : ringlets ≠ [] := by
  obtain ⟨taken, isTaken, rfl⟩ := Outcome.map_eq_ok.mp sampled
  obtain ⟨ringlet, more, _, _, rfl⟩ := samples_eq_ok isTaken
  exact List.cons_ne_nil _ _

/-- A branch leads on through every timeslot. -/
theorem SectionBranch.expand_ne_nil {timing : ScheduleTiming} {slot : Timeslot}
    {branch : SectionBranch} {children : List SectionBranch}
    (expanded : branch.expand timing slot = .ok children) : children ≠ [] := by
  obtain ⟨executable, combinations, branches, _, made, visited, rfl⟩ := expand_eq_ok expanded
  obtain ⟨tuple, isTuple⟩ := List.exists_mem_of_ne_nil _ (Combinations.toList_ne_nil made)
  obtain ⟨found, isFound, assigned⟩ := Outcome.exists_of_mapM visited isTuple
  obtain ⟨_, _, ringlets, _, _, sampled, rfl⟩ := expandAssignment_eq_ok assigned
  obtain ⟨conditional, member⟩ := List.exists_mem_of_ne_nil _ (Ringlet.timeAware_ne_nil sampled)
  exact List.ne_nil_of_mem (List.mem_flatten.mpr ⟨_, isFound, List.mem_map_of_mem member⟩)

/-- The path takes one step for every timeslot. -/
def SectionPath.Takes (slots : List Timeslot) (path : SectionPath) : Prop :=
  path.steps.map (fun step => step.timeslot.uncounted) = slots.map Timeslot.uncounted

/-- A path has as many steps as there are timeslots. -/
theorem SectionPath.Takes.length_eq {slots : List Timeslot} {path : SectionPath}
    (takes : path.Takes slots) : path.steps.length = slots.length := by
  simpa using congrArg List.length takes

/-- The steps that were taken and the timeslots to come are those of the section. -/
def SectionBranch.Completes (all slots : List Timeslot) (branch : SectionBranch) : Prop :=
  ∃ done, branch.toPath.Takes done ∧ done ++ slots = all

/-- Expanding a branch takes it one timeslot further. -/
theorem SectionBranch.Completes.expand {all slots : List Timeslot} {slot : Timeslot}
    {branch : SectionBranch} {timing : ScheduleTiming} {children : List SectionBranch}
    (completes : Completes all (slot :: slots) branch)
    (expanded : branch.expand timing slot = .ok children) :
    ∀ child ∈ children, Completes all slots child := by
  intro child member
  obtain ⟨done, takes, makesUp⟩ := completes
  obtain ⟨_, _, _, _, _, _, _, _, rfl⟩ := mem_expand expanded member
  refine ⟨done ++ [slot], ?_, by simpa using makesUp⟩
  unfold SectionPath.Takes toPath at takes ⊢
  simp only [extend, List.map_append, takes]
  rfl

namespace SnapshotSection

variable {part : SnapshotSection} {pool : Pool} {timing : ScheduleTiming} {paths : List SectionPath}

/-- The variations of a section are the paths of the branches that a search from its start comes to,
and the section has timeslots. -/
theorem variations_eq_ok (varied : part.variations pool timing = .ok paths) :
    part.timeslots ≠ [] ∧ ∃ branches, Search.explore (SectionBranch.expand timing) part.timeslots
      (SectionBranch.start pool) = .ok branches ∧ paths = branches.map SectionBranch.toPath := by
  unfold variations at varied
  split at varied
  · cases varied
  · rename_i someSlot
    rw [Search.run_eq_explore] at varied
    obtain ⟨branches, explored, rfl⟩ := Outcome.map_eq_ok.mp varied
    exact ⟨by simpa using someSlot, branches, explored, rfl⟩

/-- A section that can be run can be run in some way. -/
theorem exists_path (varied : part.variations pool timing = .ok paths) : ∃ path, path ∈ paths := by
  obtain ⟨_, branches, explored, rfl⟩ := variations_eq_ok varied
  obtain ⟨branch, member⟩ :=
    List.exists_mem_of_ne_nil _ (Search.explore_ne_nil SectionBranch.expand_ne_nil explored)
  exact ⟨branch.toPath, List.mem_map_of_mem member⟩

/-- Every way to run a section has a step for every timeslot. -/
theorem takes_of_variations (varied : part.variations pool timing = .ok paths) :
    ∀ path ∈ paths, path.Takes part.timeslots := by
  intro path member
  obtain ⟨_, branches, explored, rfl⟩ := variations_eq_ok varied
  obtain ⟨branch, isBranch, rfl⟩ := List.mem_map.mp member
  have start : (SectionBranch.start pool).Completes part.timeslots part.timeslots := ⟨[], rfl, rfl⟩
  obtain ⟨done, takes, all⟩ := Search.explore_preserves (fun completes => completes.expand) start
    explored branch isBranch
  rw [List.append_nil] at all
  exact all ▸ takes

end SnapshotSection

/-- The pathway runs sections one after the other, each with a step for every timeslot. -/
def Pathway.Takes (sections : List SnapshotSection) (pathway : Pathway) : Prop :=
  List.Forall₂ (fun (part : SnapshotSection) (path : SectionPath) =>
    part.timeslots ≠ [] ∧ path.Takes part.timeslots) sections pathway.sections

/-- The sections that were run and those to come make up the thread. -/
def Pathway.Completes (pool : Pool) (all sections : List SnapshotSection) (pathway : Pathway) :
  Prop :=
  ∃ done, pathway.entry = pool ∧ pathway.Takes done ∧ done ++ sections = all

/-- Expanding a pathway takes it one section further. -/
theorem Pathway.Completes.expandSection {pool : Pool} {all sections : List SnapshotSection}
    {part : SnapshotSection} {pathway : Pathway} {timing : ScheduleTiming} {children : List Pathway}
    (completes : Completes pool all (part :: sections) pathway)
    (expanded : ScheduleThread.expandSection timing part pathway = .ok children) :
    ∀ child ∈ children, Completes pool all sections child := by
  intro child member
  obtain ⟨done, entry, takes, makesUp⟩ := completes
  obtain ⟨paths, found, rfl⟩ := Outcome.map_eq_ok.mp expanded
  obtain ⟨path, isPath, rfl⟩ := List.mem_map.mp member
  have here := SnapshotSection.takes_of_variations found path isPath
  have someSlot := (SnapshotSection.variations_eq_ok found).1
  refine ⟨done ++ [part], entry, ?_, by simpa using makesUp⟩
  exact List.rel_append takes (.cons ⟨someSlot, here⟩ .nil)

namespace ScheduleThread

variable {thread : ScheduleThread} {pool : Pool} {timing : ScheduleTiming} {pathways : List Pathway}

/-- A thread that can be run can be run in some way. -/
theorem exists_pathway (varied : thread.variations pool timing = .ok pathways) :
    ∃ pathway, pathway ∈ pathways := by
  rw [variations, Search.run_eq_explore] at varied
  refine List.exists_mem_of_ne_nil _ (Search.explore_ne_nil ?_ varied)
  intro part pathway children expanded
  obtain ⟨paths, found, rfl⟩ := Outcome.map_eq_ok.mp expanded
  obtain ⟨path, isPath⟩ := SnapshotSection.exists_path found
  exact List.ne_nil_of_mem (List.mem_map_of_mem isPath)

/-- Every way to run a thread starts in the pool and has a step for every timeslot. -/
theorem takes_of_variations (varied : thread.variations pool timing = .ok pathways) :
    ∀ pathway ∈ pathways, pathway.entry = pool ∧ pathway.Takes thread.sections := by
  intro pathway member
  rw [variations, Search.run_eq_explore] at varied
  have start : Pathway.Completes pool thread.sections thread.sections
      { entry := pool, sections := [] } := ⟨[], rfl, List.Forall₂.nil, rfl⟩
  obtain ⟨done, entry, takes, all⟩ := Search.explore_preserves
    (fun completes => completes.expandSection) start varied pathway member
  rw [List.append_nil] at all
  exact ⟨entry, all ▸ takes⟩

end ScheduleThread

end TimedKripke
