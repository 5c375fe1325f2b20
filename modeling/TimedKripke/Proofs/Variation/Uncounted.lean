import TimedKripke.Proofs.Ringlet.TimeAware
import TimedKripke.Proofs.Variation.Search
import TimedKripke.Variation.Thread

/-! # Counts of idle steps do not matter

A timeslot counts the steps in a row in which its machine made no transition. The counts go
into the findings of a verification, but into nothing else: sections whose timeslots differ
only in their counts have variations that differ only in their counts
(`SnapshotSection.variations_uncounted`), and so have threads
(`ScheduleThread.variations_uncounted`).
-/

namespace TimedKripke

/-- The timeslot without its count. -/
def Timeslot.uncounted (slot : Timeslot) : Timeslot :=
  slot.withIdleSteps 0

/-- The section without the counts of its timeslots. -/
def SnapshotSection.uncounted (part : SnapshotSection) : SnapshotSection :=
  { timeslots := part.timeslots.map Timeslot.uncounted }

/-- The thread without the counts of its timeslots. -/
def ScheduleThread.uncounted (thread : ScheduleThread) : ScheduleThread :=
  { sections := thread.sections.map SnapshotSection.uncounted }

/-- The ringlet without the count of its timeslot. -/
def Ringlet.uncounted (ringlet : Ringlet) : Ringlet :=
  { ringlet with timeslot := ringlet.timeslot.uncounted }

/-- The conditional ringlet without the count of its timeslot. -/
def ConditionalRinglet.uncounted (conditional : ConditionalRinglet) : ConditionalRinglet :=
  { conditional with ringlet := conditional.ringlet.uncounted }

/-- The step without the counts of its timeslots. -/
def SectionStep.uncounted (step : SectionStep) : SectionStep :=
  { timeslot := step.timeslot.uncounted
    conditional := step.conditional.uncounted
    assignments := step.assignments }

/-- The branch without the counts of its steps. -/
def SectionBranch.uncounted (branch : SectionBranch) : SectionBranch :=
  { branch with steps := branch.steps.map SectionStep.uncounted }

/-- The path without the counts of its steps. -/
def SectionPath.uncounted (path : SectionPath) : SectionPath :=
  { path with steps := path.steps.map SectionStep.uncounted }

/-- The pathway without the counts of its steps. -/
def Pathway.uncounted (pathway : Pathway) : Pathway :=
  { pathway with sections := pathway.sections.map SectionPath.uncounted }

/-- Timeslots that differ in their counts only begin the same call chain. -/
theorem Timeslot.callChain_eq {first second : Timeslot}
    (same : first.uncounted = second.uncounted) : first.callChain = second.callChain := by
  have chains : first.uncounted.callChain = second.uncounted.callChain := by rw [same]
  exact chains

namespace Ringlet

/-- The count of a timeslot does not matter to its execution. -/
theorem execute_uncounted {first second : Timeslot} (same : first.uncounted = second.uncounted)
    (pool : Pool) (timing : ScheduleTiming) (elapsed : Time) :
    (execute pool first timing elapsed).map uncounted =
      (execute pool second timing elapsed).map uncounted := by
  have chain := Timeslot.callChain_eq same
  have root : first.executable = second.executable := congrArg CallChain.root chain
  have executed : ∀ clock, executeTimeslot pool first clock =
      executeTimeslot pool second clock := by
    intro clock
    rw [executeTimeslot, executeTimeslot, chain]
  unfold execute
  rw [root, executed]
  cases pool.get second.executable with
  | error fault => rfl
  | ok executable =>
      dsimp only
      cases executeTimeslot pool second (Clock.new timing elapsed) with
      | mk outcome final =>
          cases outcome with
          | error fault => rfl
          | ok execution =>
              dsimp only
              cases final.pool.get second.executable with
              | error fault => rfl
              | ok after =>
                  refine congrArg Except.ok ?_
                  simp only [uncounted, same]

variable {execute execute' : Time → Except Fault Ringlet}

/-- Ringlets that differ in their counts only ask about the same thresholds. -/
theorem queried_eq {first second : Ringlet} (same : first.uncounted = second.uncounted) :
    first.queried = second.queried := by
  have asked : first.uncounted.queried = second.uncounted.queried := by rw [same]
  exact asked

/-- Leaving out counts commutes with putting a sample before others. -/
theorem map_cons_uncounted (point : SamplePoint) (ringlet : Ringlet)
    (found : Except Fault (List (SamplePoint × Ringlet))) :
    (found.map ((point, ringlet) :: ·)).map (List.map (Prod.map id uncounted)) =
      (found.map (List.map (Prod.map id uncounted))).map ((point, ringlet.uncounted) :: ·) := by
  cases found <;> rfl

/-- Executions that differ in counts only are sampled alike, threshold by threshold. -/
theorem samplesFrom_uncounted
    (each : ∀ time, (execute time).map uncounted = (execute' time).map uncounted) (start : Time)
    (asked : List Time) :
    (samplesFrom execute start asked).map (List.map (Prod.map id uncounted)) =
      (samplesFrom execute' start asked).map (List.map (Prod.map id uncounted)) := by
  fun_induction samplesFrom execute start asked with
  | case1 start asked none => rw [samplesFrom_eq, none]
  | case2 start asked found =>
      rw [samplesFrom_eq, found]
      rfl
  | case3 start asked threshold found last _ fault failed =>
      rw [samplesFrom_eq, found]
      rcases Outcome.cases_of_map_eq (each (threshold + 1)) with
        ⟨fault', failed', executed⟩ | ⟨_, _, impossible, _⟩
      · cases failed.symm.trans failed'
        simp only [if_neg last, executed]
        rfl
      · cases failed.symm.trans impossible
  | case4 start asked threshold found last _ ringlet executed others =>
      rw [samplesFrom_eq execute' start, found]
      rcases Outcome.cases_of_map_eq (each (threshold + 1)) with
        ⟨fault, impossible, _⟩ | ⟨left, right, isLeft, isRight, alike⟩
      · cases executed.symm.trans impossible
      · cases executed.symm.trans isLeft
        simp only [if_neg last, isRight]
        refine (map_cons_uncounted _ _ _).trans ?_
        refine Eq.trans ?_ (map_cons_uncounted _ _ _).symm
        rw [others, alike, queried_eq alike]

/-- The conditions of samples do not depend on counts. -/
theorem conditions_uncounted (taken : List (SamplePoint × Ringlet)) :
    (conditions taken).map ConditionalRinglet.uncounted =
      conditions (taken.map (Prod.map id uncounted)) := by
  induction taken with
  | nil => rfl
  | cons sample rest others =>
      rw [conditions, List.map_cons, others, List.map_cons]
      cases rest <;> rfl

/-- The count of a timeslot does not matter to its conditional ringlets. -/
theorem timeAware_uncounted {first second : Timeslot} (same : first.uncounted = second.uncounted)
    (pool : Pool) (timing : ScheduleTiming) (start : Time) :
    (timeAware pool first timing start).map (List.map ConditionalRinglet.uncounted) =
      (timeAware pool second timing start).map (List.map ConditionalRinglet.uncounted) := by
  have each := execute_uncounted same pool timing
  have taken : (samples (execute pool first timing) start).map (List.map (Prod.map id uncounted)) =
      (samples (execute pool second timing) start).map (List.map (Prod.map id uncounted)) := by
    rw [samples_eq, samples_eq]
    refine Outcome.map_bind_congr (each start) fun left right alike => ?_
    rw [map_cons_uncounted, map_cons_uncounted, samplesFrom_uncounted each, alike, queried_eq alike]
  have conditioned : ∀ found : Except Fault (List (SamplePoint × Ringlet)),
      (found.map conditions).map (List.map ConditionalRinglet.uncounted) =
        (found.map (List.map (Prod.map id uncounted))).map conditions := by
    intro found
    cases found with
    | error fault => rfl
    | ok taken => exact congrArg Except.ok (conditions_uncounted taken)
  rw [timeAware, timeAware, conditioned, conditioned, taken]

end Ringlet

namespace SectionBranch

variable {first second : SectionBranch}

/-- Branches that differ in counts only have reached the same pool. -/
theorem pool_eq (same : first.uncounted = second.uncounted) : first.pool = second.pool := by
  have pools : first.uncounted.pool = second.uncounted.pool := by rw [same]
  exact pools

/-- Branches that differ in counts only have the same snapshot. -/
theorem snapshot_eq (same : first.uncounted = second.uncounted) :
    first.snapshot = second.snapshot := by
  have snapshots : first.uncounted.snapshot = second.uncounted.snapshot := by rw [same]
  exact snapshots

/-- Branches that differ in counts only have fixed the same inputs. -/
theorem fixed_eq (same : first.uncounted = second.uncounted) : first.fixed = second.fixed := by
  have inputs : first.uncounted.fixed = second.uncounted.fixed := by rw [same]
  exact inputs

/-- A branch without counts goes on without counts. -/
theorem extend_uncounted {left right : Timeslot} (same : first.uncounted = second.uncounted)
    (window : left.uncounted = right.uncounted) (snapshot : Pool) (assignments : PropertyList)
    {conditional conditional' : ConditionalRinglet}
    (alike : conditional.uncounted = conditional'.uncounted) :
    (first.extend left snapshot assignments conditional).uncounted =
      (second.extend right snapshot assignments conditional').uncounted := by
  have after : conditional.ringlet.after = conditional'.ringlet.after := by
    have pools : conditional.uncounted.ringlet.after = conditional'.uncounted.ringlet.after := by
      rw [alike]
    exact pools
  have steps : first.steps.map SectionStep.uncounted = second.steps.map SectionStep.uncounted := by
    have all : first.uncounted.steps = second.uncounted.steps := by rw [same]
    exact all
  have slot : ∀ ringlet ringlet', (left.withIdleSteps (idleCount left ringlet)).uncounted =
      (right.withIdleSteps (idleCount right ringlet')).uncounted := fun _ _ => window
  simp only [extend, uncounted, List.map_append, List.map_cons, List.map_nil, steps, after,
    fixed_eq same, SectionStep.uncounted, slot conditional.ringlet conditional'.ringlet, alike]

/-- With given inputs, branches and timeslots that differ in counts only are expanded alike. -/
theorem expandAssignment_uncounted {left right : Timeslot}
    (same : first.uncounted = second.uncounted) (window : left.uncounted = right.uncounted)
    (timing : ScheduleTiming) (assignments : PropertyList) :
    (first.expandAssignment timing left assignments).map (List.map uncounted) =
      (second.expandAssignment timing right assignments).map (List.map uncounted) := by
  have root : left.executable = right.executable :=
    congrArg CallChain.root (Timeslot.callChain_eq window)
  unfold expandAssignment
  rw [pool_eq same, snapshot_eq same, root]
  refine Outcome.map_bind_congr_right fun pool => ?_
  refine Outcome.map_bind_congr_right fun snapshot => ?_
  refine Outcome.map_bind_congr (Ringlet.timeAware_uncounted window pool timing 0) ?_
  intro ringlets ringlets' alike
  refine congrArg Except.ok ?_
  rw [List.map_map, List.map_map]
  exact Outcome.map_congr_of_view
    (fun _ _ one => extend_uncounted same window snapshot assignments one) alike

/-- Branches and timeslots that differ in counts only are expanded alike. -/
theorem expand_uncounted {left right : Timeslot} (same : first.uncounted = second.uncounted)
    (window : left.uncounted = right.uncounted) (timing : ScheduleTiming) :
    (first.expand timing left).map (List.map uncounted) =
      (second.expand timing right).map (List.map uncounted) := by
  have root : left.executable = right.executable :=
    congrArg CallChain.root (Timeslot.callChain_eq window)
  have shared : first.shared = second.shared := by
    funext observed
    rw [SectionBranch.shared, SectionBranch.shared, fixed_eq same]
  have free : first.free = second.free := by
    funext observed
    rw [SectionBranch.free, SectionBranch.free, fixed_eq same]
  have flat : ∀ found : List (List SectionBranch), found.flatten.map uncounted =
      (found.map (List.map uncounted)).flatten := fun _ => List.map_flatten
  unfold expand
  rw [pool_eq same, root, shared, free]
  refine Outcome.map_bind_congr_right fun executable => ?_
  refine Outcome.map_bind_congr_right fun combinations => ?_
  simp only [Combinations.visit_eq_toList_mapM]
  refine Outcome.map_bind_congr (Outcome.map_mapM_congr_right
    (fun tuple => expandAssignment_uncounted same window timing _) combinations.toList) ?_
  intro branches branches' alike
  refine congrArg Except.ok ?_
  rw [flat, flat, alike]

end SectionBranch

namespace SnapshotSection

/-- **The counts of a section do not matter to its variations.** -/
theorem variations_uncounted {first second : SnapshotSection}
    (same : first.uncounted = second.uncounted) (pool : Pool) (timing : ScheduleTiming) :
    (first.variations pool timing).map (List.map SectionPath.uncounted) =
      (second.variations pool timing).map (List.map SectionPath.uncounted) := by
  have windows : first.timeslots.map Timeslot.uncounted = second.timeslots.map Timeslot.uncounted :=
    congrArg SnapshotSection.timeslots same
  have none : first.timeslots.isEmpty = second.timeslots.isEmpty := by
    have counts := congrArg List.isEmpty windows
    simpa using counts
  have paths : ∀ found : Except Fault (List SectionBranch),
      (found.map (List.map SectionBranch.toPath)).map (List.map SectionPath.uncounted) =
        (found.map (List.map SectionBranch.uncounted)).map (List.map SectionBranch.toPath) := by
    intro found
    cases found with
    | error fault => rfl
    | ok branches =>
        refine congrArg Except.ok ?_
        rw [List.map_map, List.map_map]
        rfl
  unfold variations
  rw [none]
  split
  · rfl
  · rw [Search.run_eq_explore, Search.run_eq_explore, paths, paths]
    refine congrArg (Except.map _) ?_
    exact Search.explore_congr
      (fun window alike => SectionBranch.expand_uncounted alike window timing) windows rfl

end SnapshotSection

/-- Pathways that differ in counts only end in the same pool. -/
theorem Pathway.after_eq {first second : Pathway} (same : first.uncounted = second.uncounted) :
    first.after = second.after := by
  have ends : ∀ pathway : Pathway, pathway.uncounted.after = pathway.after := by
    intro pathway
    unfold after uncounted
    rw [List.getLast?_map]
    cases pathway.sections.getLast? <;> rfl
  rw [← ends first, ← ends second, same]

namespace ScheduleThread

/-- Pathways and sections that differ in counts only are expanded alike. -/
theorem expandSection_uncounted {part part' : SnapshotSection} {first second : Pathway}
    (same : first.uncounted = second.uncounted) (window : part.uncounted = part'.uncounted)
    (timing : ScheduleTiming) :
    (expandSection timing part first).map (List.map Pathway.uncounted) =
      (expandSection timing part' second).map (List.map Pathway.uncounted) := by
  have entry : first.entry = second.entry := by
    have entries : first.uncounted.entry = second.uncounted.entry := by rw [same]
    exact entries
  have sections : first.sections.map SectionPath.uncounted =
      second.sections.map SectionPath.uncounted := congrArg Pathway.sections same
  unfold expandSection
  rw [Pathway.after_eq same]
  rcases Outcome.cases_of_map_eq (SnapshotSection.variations_uncounted window second.after timing)
    with ⟨fault, left, right⟩ | ⟨paths, paths', left, right, alike⟩
  · rw [left, right]
    rfl
  · rw [left, right]
    refine congrArg Except.ok ?_
    rw [List.map_map, List.map_map]
    refine Outcome.map_congr_of_view (fun path path' one => ?_) alike
    simp only [Function.comp_apply, Pathway.uncounted, List.map_append, sections, entry,
      List.map_cons, List.map_nil, one]

/-- **The counts of a thread do not matter to its variations.** -/
theorem variations_uncounted {first second : ScheduleThread}
    (same : first.uncounted = second.uncounted) (pool : Pool) (timing : ScheduleTiming) :
    (first.variations pool timing).map (List.map Pathway.uncounted) =
      (second.variations pool timing).map (List.map Pathway.uncounted) := by
  unfold variations
  rw [Search.run_eq_explore, Search.run_eq_explore]
  exact Search.explore_congr (fun window alike => expandSection_uncounted alike window timing)
    (congrArg ScheduleThread.sections same) rfl

end ScheduleThread

end TimedKripke
