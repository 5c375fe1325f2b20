import Mathlib.Data.List.Forall2
import TimedKripke.Proofs.Variation.Progress

/-! # Counting idle steps

Every step of a section counts on from what its timeslot has counted
(`SectionStep.Counts`): it starts again from zero when the machine makes a transition, and adds one
otherwise. The steps of a thread count on from its timeslots, one by one
(`ScheduleThread.counts_of_variations`).
-/

namespace TimedKripke

/-- A search in which every stage adds one item finds states with an item for every stage. -/
theorem Search.explore_forall₂ {σ β γ ε : Type} {expand : σ → β → Except ε (List β)}
    {items : β → List γ} {Related : σ → γ → Prop}
    (each : ∀ stage state children, expand stage state = .ok children → ∀ child ∈ children,
      ∃ item, items child = items state ++ [item] ∧ Related stage item) :
    ∀ {stages : List σ} {state : β} {outcomes : List β},
      explore expand stages state = .ok outcomes → ∀ outcome ∈ outcomes,
        ∃ added, items outcome = items state ++ added ∧ List.Forall₂ Related stages added := by
  intro stages
  induction stages with
  | nil =>
      intro state outcomes explored outcome member
      cases explored
      rw [List.mem_singleton.mp member]
      exact ⟨[], (List.append_nil _).symm, .nil⟩
  | cons stage stages shorter =>
      intro state outcomes explored outcome member
      obtain ⟨children, inside, expanded, mapped, rfl⟩ := explore_cons_eq_ok.mp explored
      obtain ⟨part, isPart, member⟩ := List.mem_flatten.mp member
      obtain ⟨child, isChild, found⟩ := Outcome.mem_of_mapM mapped isPart
      obtain ⟨item, isItem, related⟩ := each _ _ _ expanded child isChild
      obtain ⟨added, isAdded, relatedLater⟩ := shorter found outcome member
      refine ⟨item :: added, ?_, .cons related relatedLater⟩
      rw [isAdded, isItem, List.append_assoc, List.singleton_append]

/-- The step counts on from the timeslot. -/
def SectionStep.Counts (slot : Timeslot) (step : SectionStep) : Prop :=
  step.timeslot = slot.withIdleSteps (SectionBranch.idleCount slot step.ringlet)

/-- The steps of a pathway, in the order in which they are executed. -/
def Pathway.steps (pathway : Pathway) : List SectionStep :=
  pathway.sections.flatMap SectionPath.steps

/-- Every step of a variation counts on from the timeslot it is for. -/
theorem SnapshotSection.counts_of_variations {part : SnapshotSection} {pool : Pool}
    {timing : ScheduleTiming} {paths : List SectionPath}
    (varied : part.variations pool timing = .ok paths) :
    ∀ path ∈ paths, List.Forall₂ SectionStep.Counts part.timeslots path.steps := by
  intro path member
  obtain ⟨_, branches, explored, rfl⟩ := variations_eq_ok varied
  obtain ⟨branch, isBranch, rfl⟩ := List.mem_map.mp member
  have each : ∀ slot branch children, SectionBranch.expand timing slot branch = .ok children →
      ∀ child ∈ children,
        ∃ step, child.steps = branch.steps ++ [step] ∧ SectionStep.Counts slot step := by
    intro slot branch children expanded child isChild
    obtain ⟨_, _, _, _, _, _, _, _, rfl⟩ := SectionBranch.mem_expand expanded isChild
    exact ⟨_, rfl, rfl⟩
  obtain ⟨added, isAdded, counts⟩ := Search.explore_forall₂ each explored branch isBranch
  rw [show branch.toPath.steps = added from isAdded]
  exact counts

/-- **The steps of a thread count on from its timeslots.** -/
theorem ScheduleThread.counts_of_variations {thread : ScheduleThread} {pool : Pool}
    {timing : ScheduleTiming} {pathways : List Pathway}
    (varied : thread.variations pool timing = .ok pathways) :
    ∀ pathway ∈ pathways, List.Forall₂ SectionStep.Counts thread.timeslots pathway.steps := by
  intro pathway member
  rw [variations, Search.run_eq_explore] at varied
  have each : ∀ part pathway children, expandSection timing part pathway = .ok children →
      ∀ child ∈ children, ∃ path, child.sections = pathway.sections ++ [path] ∧
        List.Forall₂ SectionStep.Counts part.timeslots path.steps := by
    intro part pathway children expanded child isChild
    obtain ⟨paths, found, rfl⟩ := Outcome.map_eq_ok.mp expanded
    obtain ⟨path, isPath, rfl⟩ := List.mem_map.mp isChild
    exact ⟨path, rfl, SnapshotSection.counts_of_variations found path isPath⟩
  obtain ⟨added, isAdded, counts⟩ := Search.explore_forall₂ each varied pathway member
  rw [List.nil_append] at isAdded
  rw [timeslots, Pathway.steps, isAdded]
  exact List.rel_flatMap counts fun _ _ here => here

end TimedKripke
