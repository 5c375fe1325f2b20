import Mathlib.Algebra.GroupWithZero.Nat
import TimedKripke.Proofs.Variation.Search
import TimedKripke.Variation.Thread

/-! # Variations by recursion

The ways to run a section and a thread are found by a search that keeps its pending states on a
list. Here they are by recursion: a branch that has passed all timeslots is a path, and any other
branch has the paths of its children, in order (`SectionBranch.paths`); a thread is run along each
path of its first section and from the pool that path leaves (`ScheduleThread.pathways`). The search
and the recursion have the same outcome, down to the fault they end with: the first one in
depth-first order (`variations_eq_recursion`).
-/

namespace TimedKripke

namespace Outcome

variable {ε α β γ : Type}

/-- The first fault among some outcomes, before which all are answers. -/
def FirstFault (outcomes : List (Except ε α)) (fault : ε) : Prop :=
  ∃ (answers : List α) (later : List (Except ε α)),
    outcomes = answers.map .ok ++ .error fault :: later

/-- A list of outcomes fails with its first fault. -/
theorem mapM_id_eq_error_iff {outcomes : List (Except ε α)} {fault : ε} :
    outcomes.mapM id = .error fault ↔ FirstFault outcomes fault := by
  induction outcomes with
  | nil =>
      constructor
      · rintro ⟨⟩
      · rintro ⟨_ | _, _, ⟨⟩⟩
  | cons outcome rest others =>
      rw [mapM_cons]
      cases outcome with
      | error failed =>
          constructor
          · rintro ⟨⟩
            exact ⟨[], rest, rfl⟩
          · rintro ⟨_ | _, _, ⟨⟩⟩
            rfl
      | ok answer =>
          change (rest.mapM id).map (answer :: ·) = .error fault ↔ _
          rw [map_eq_error, others]
          constructor
          · rintro ⟨answers, later, rfl⟩
            exact ⟨answer :: answers, later, rfl⟩
          · rintro ⟨_ | ⟨first, answers⟩, later, same⟩
            · cases same
            · exact ⟨answers, later, (List.cons.inj same).2⟩

/-- Changing the answers of a list is changing each of them as it is found. -/
theorem map_mapM (step : α → Except ε β) (change : β → γ) (items : List α) :
    (items.mapM step).map (List.map change) = items.mapM fun item => (step item).map change := by
  induction items with
  | nil => rfl
  | cons item rest others =>
      rw [mapM_cons, mapM_cons, ← others]
      cases step item with
      | error fault => rfl
      | ok answer => cases rest.mapM step <;> rfl

/-- Changing what was gathered from lists is changing it in every list. -/
theorem map_flatten_mapM (step : α → Except ε (List β)) (change : β → γ) (items : List α) :
    ((items.mapM step).map List.flatten).map (List.map change) =
      (items.mapM fun item => (step item).map (List.map change)).map List.flatten := by
  rw [← map_mapM, map_map, map_map]
  simp only [List.map_flatten]

end Outcome

namespace Search

variable {σ β ε : Type}

/-- What a search from a state comes to, depth first: the states that have passed all stages, and
the faults of stages that failed. -/
def leaves (expand : σ → β → Except ε (List β)) : List σ → β → List (Except ε β)
  | [], state => [.ok state]
  | stage :: stages, state =>
      match expand stage state with
      | .error fault => [.error fault]
      | .ok children => children.flatMap (leaves expand stages)

/-- A search finds all states at its leaves, or fails with the first fault there. -/
theorem explore_eq_leaves (expand : σ → β → Except ε (List β)) (stages : List σ) : ∀ state : β,
    explore expand stages state = (leaves expand stages state).mapM id := by
  induction stages with
  | nil => exact fun _ => rfl
  | cons stage stages shorter =>
      intro state
      rw [explore, leaves]
      cases expand stage state with
      | error fault => rfl
      | ok children =>
          simp only
          induction children with
          | nil => rfl
          | cons child children others =>
              rw [Outcome.mapM_cons, List.flatMap_cons, List.mapM_append, ← others, shorter]
              cases (leaves expand stages child).mapM id with
              | error fault => rfl
              | ok found => cases children.mapM (explore expand stages) <;> rfl

end Search

namespace SectionBranch

/-- The paths of a branch through the timeslots that are left. -/
def paths (timing : ScheduleTiming) :
    List Timeslot → SectionBranch → Except Fault (List SectionPath)
  | [], branch => .ok [branch.toPath]
  | slot :: slots, branch => do
      let children ← branch.expand timing slot
      (children.mapM (paths timing slots)).map List.flatten

/-- The search through timeslots finds the paths of the recursion, in the same order. -/
theorem explore_eq_paths (timing : ScheduleTiming) (slots : List Timeslot) :
    ∀ branch : SectionBranch, (Search.explore (expand timing) slots branch).map (List.map toPath) =
      paths timing slots branch := by
  induction slots with
  | nil => exact fun _ => rfl
  | cons slot slots shorter =>
      intro branch
      rw [Search.explore, paths]
      cases branch.expand timing slot with
      | error fault => rfl
      | ok children =>
          refine (Outcome.map_flatten_mapM _ toPath children).trans ?_
          simp only [shorter]
          rfl

end SectionBranch

namespace SnapshotSection

/-- The paths of a section by recursion. -/
def paths (part : SnapshotSection) (pool : Pool) (timing : ScheduleTiming) :
    Except Fault (List SectionPath) :=
  if part.timeslots.isEmpty then
    .error (.malformedSchedule "snapshot section has no timeslots")
  else SectionBranch.paths timing part.timeslots (SectionBranch.start pool)

/-- What the search through a section comes to, depth first. -/
def leaves (part : SnapshotSection) (pool : Pool) (timing : ScheduleTiming) :
    List (Except Fault SectionBranch) :=
  if part.timeslots.isEmpty then
    [.error (.malformedSchedule "snapshot section has no timeslots")]
  else Search.leaves (SectionBranch.expand timing) part.timeslots (SectionBranch.start pool)

/-- The variations of a section are the paths of the recursion, and so are its faults. -/
theorem variations_eq_paths (part : SnapshotSection) (pool : Pool) (timing : ScheduleTiming) :
    part.variations pool timing = part.paths pool timing := by
  unfold variations paths
  rw [Search.run_eq_explore, SectionBranch.explore_eq_paths]

/-- The variations of a section are its leaves if none is a fault, and the first fault otherwise. -/
theorem variations_eq_leaves (part : SnapshotSection) (pool : Pool) (timing : ScheduleTiming) :
    part.variations pool timing =
      ((part.leaves pool timing).mapM id).map (List.map SectionBranch.toPath) := by
  unfold variations leaves
  split
  · rfl
  · rw [Search.run_eq_explore, Search.explore_eq_leaves]

end SnapshotSection

/-- The pathway that goes on along some paths. -/
def Pathway.along (pathway : Pathway) (paths : List SectionPath) : Pathway :=
  { pathway with sections := pathway.sections ++ paths }

namespace ScheduleThread

/-- The ways to run some sections from a pool. -/
def sectionPaths (timing : ScheduleTiming) :
    List SnapshotSection → Pool → Except Fault (List (List SectionPath))
  | [], _ => .ok [[]]
  | part :: parts, pool => do
      let paths ← part.paths pool timing
      (paths.mapM fun path => (sectionPaths timing parts path.after).map (List.map (path :: ·))).map
        List.flatten

/-- The pathways of a thread by recursion. -/
def pathways (thread : ScheduleThread) (pool : Pool) (timing : ScheduleTiming) :
    Except Fault (List Pathway) :=
  (sectionPaths timing thread.sections pool).map
    (List.map fun sections => { entry := pool, sections })

/-- A pathway in the making goes on from the pool it has come to. -/
theorem explore_eq_sectionPaths (timing : ScheduleTiming) (parts : List SnapshotSection) :
    ∀ pathway : Pathway, Search.explore (expandSection timing) parts pathway =
      (sectionPaths timing parts pathway.after).map (List.map pathway.along) := by
  induction parts with
  | nil =>
      intro pathway
      simp [Search.explore, sectionPaths, Except.map, Pathway.along]
  | cons part parts shorter =>
      intro pathway
      have onward : ∀ path : SectionPath,
          Search.explore (expandSection timing) parts (pathway.along [path]) =
            ((sectionPaths timing parts path.after).map (List.map (path :: ·))).map
              (List.map pathway.along) := by
        intro path
        have reached : (pathway.along [path]).after = path.after := by
          simp [Pathway.along, Pathway.after]
        have joined : (pathway.along ∘ (path :: ·)) = (pathway.along [path]).along := by
          funext later
          simp [Pathway.along]
        rw [shorter, reached, Outcome.map_map]
        simp only [List.map_map, joined]
      rw [Search.explore, sectionPaths, expandSection, SnapshotSection.variations_eq_paths]
      cases part.paths pathway.after timing with
      | error fault => rfl
      | ok paths =>
          refine Eq.trans ?_ (Outcome.map_flatten_mapM _ pathway.along paths).symm
          simp only [← onward]
          exact congrArg (Except.map List.flatten) List.mapM_map

/-- The variations of a thread are the pathways of the recursion, and so are its faults. -/
theorem variations_eq_pathways (thread : ScheduleThread) (pool : Pool) (timing : ScheduleTiming) :
    thread.variations pool timing = thread.pathways pool timing := by
  unfold variations pathways
  rw [Search.run_eq_explore, explore_eq_sectionPaths]
  rfl

/-- What the search through a thread comes to, depth first. -/
def leaves (thread : ScheduleThread) (pool : Pool) (timing : ScheduleTiming) :
    List (Except Fault Pathway) :=
  Search.leaves (expandSection timing) thread.sections { entry := pool, sections := [] }

/-- There are as many pathways through a thread as ways to run its sections. -/
theorem length_pathways (thread : ScheduleThread) (pool : Pool) (timing : ScheduleTiming) :
    (thread.pathways pool timing).map List.length =
      (sectionPaths timing thread.sections pool).map List.length := by
  rw [pathways, Outcome.map_map]
  simp only [List.length_map]

/-- **The pathways are counted section by section**: for every path of the first section, those of
the other sections from the pool it leaves. -/
theorem length_pathways_cons (part : SnapshotSection) (parts : List SnapshotSection) (pool : Pool)
    (timing : ScheduleTiming) :
    ((ScheduleThread.mk (part :: parts)).pathways pool timing).map List.length =
      part.paths pool timing >>= fun paths => (paths.mapM fun path =>
        ((ScheduleThread.mk parts).pathways path.after timing).map List.length).map List.sum := by
  rw [length_pathways, sectionPaths]
  cases part.paths pool timing with
  | error fault => rfl
  | ok paths =>
      have counts := Outcome.map_mapM (fun path : SectionPath =>
        (sectionPaths timing parts path.after).map (List.map (path :: ·))) List.length paths
      simp only [Outcome.map_map, List.length_map] at counts
      refine (Outcome.map_map _ List.flatten List.length).trans ?_
      simp only [List.length_flatten, length_pathways]
      refine Eq.trans ?_ (congrArg (Except.map List.sum) counts)
      rw [Outcome.map_map]

end ScheduleThread

/-- **The search for variations is plain recursion.** For a section as for a thread it finds what
the recursion finds, in the same order, and fails with the first fault in depth-first order; and the
pathways of a thread are as many as those of its remaining sections after each path of the first
one, taken together. -/
theorem variations_eq_recursion (pool : Pool) (timing : ScheduleTiming) (part : SnapshotSection)
    (parts : List SnapshotSection) (thread : ScheduleThread) :
    part.variations pool timing = part.paths pool timing ∧
    (∀ fault, part.variations pool timing = .error fault ↔
      Outcome.FirstFault (part.leaves pool timing) fault) ∧
    thread.variations pool timing = thread.pathways pool timing ∧
    (∀ fault, thread.variations pool timing = .error fault ↔
      Outcome.FirstFault (thread.leaves pool timing) fault) ∧
    ((ScheduleThread.mk (part :: parts)).variations pool timing).map List.length =
      part.variations pool timing >>= fun paths => (paths.mapM fun path =>
        ((ScheduleThread.mk parts).variations path.after timing).map List.length).map List.sum := by
  refine ⟨part.variations_eq_paths pool timing, fun fault => ?_,
    thread.variations_eq_pathways pool timing, fun fault => ?_, ?_⟩
  · rw [SnapshotSection.variations_eq_leaves, Outcome.map_eq_error, Outcome.mapM_id_eq_error_iff]
  · rw [ScheduleThread.variations, Search.run_eq_explore, Search.explore_eq_leaves,
      Outcome.mapM_id_eq_error_iff]
    rfl
  · simp only [ScheduleThread.variations_eq_pathways, SnapshotSection.variations_eq_paths]
    exact ScheduleThread.length_pathways_cons part parts pool timing

end TimedKripke
